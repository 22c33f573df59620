import Wasmux.Accounts
import Wasmux.Steps

/-!
# What a caller takes from the streams

A stream only grows while the kernel runs, and the kernel leaves the cursor of
the caller where it is. A caller that takes both streams after every step has
all that was written, until the step that finishes hands the buffers over.
-/

set_option autoImplicit false

namespace Wasmux
open Effects Abi

inductive Stream where
  | stdout
  | stderr
  deriving DecidableEq

namespace Stream

def of (which : ℕ) : Stream := if which = 2 then .stderr else .stdout

def buffer : Stream → Shared → OutputBuffer
  | .stdout, sh => sh.stdout
  | .stderr, sh => sh.stderr

end Stream

/-- What a caller that takes a stream has to know of it. -/
structure Tape where
  data : Bytes
  taken : ℕ
  limit : ℕ

def Shared.tape (sh : Shared) (st : Stream) : Tape :=
    ⟨(st.buffer sh).data, (st.buffer sh).taken, sh.limits.output⟩

def Tape.push (t : Tape) (bytes : Bytes) : Tape :=
    { t with data := t.data ++ bytes.take (t.limit - t.data.length) }

@[simp] theorem Tape.push_nil (t : Tape) : t.push [] = t := by
  simp [Tape.push]

theorem Tape.push_eq_self (t : Tape) (bytes : Bytes) :
    (t.push bytes).data = t.data ↔ bytes = [] ∨ t.limit ≤ t.data.length := by
  simp [Tape.push, List.take_eq_nil_iff, Nat.sub_eq_zero_iff_le, or_comm]

def Shared.streams (sh : Shared) : OutputBuffer × OutputBuffer × ℕ := (sh.stdout, sh.stderr, sh.limits.output)

theorem Shared.streams_of_outer {sh sh' : Shared} (h : sh'.outer = sh.outer) : sh'.streams = sh.streams := by
  have := congrArg Shared.streams h
  exact this

theorem Shared.tape_of_streams {sh sh' : Shared} (h : sh'.streams = sh.streams) (st : Stream) :
    sh'.tape st = (sh.tape st).push [] := by
  obtain ⟨hout, herr, hlimit⟩ : sh'.stdout = sh.stdout ∧ sh'.stderr = sh.stderr ∧
      sh'.limits.output = sh.limits.output := by simpa [streams] using h
  cases st <;> simp [tape, Stream.buffer, hout, herr, hlimit]

theorem tape_pushed (buffer : OutputBuffer) (bytes : Bytes) (limit : ℕ) :
    (⟨(buffer.push bytes limit).data, (buffer.push bytes limit).taken, limit⟩ : Tape) =
      (⟨buffer.data, buffer.taken, limit⟩ : Tape).push bytes := by
  simp only [OutputBuffer.push, Tape.push]
  simp only [Tape.mk.injEq, and_true, List.append_cancel_left_eq, List.take_eq_take_iff]
  omega

def Act.writes (st : Stream) : Act → Bytes
  | .writeOutput which data => if Stream.of which = st then data else []
  | _ => []

theorem Act.streams_exec (a : Act) (m : Machine) (h : ∀ which data, a ≠ .writeOutput which data) :
    (a.exec m).2.shared.streams = m.shared.streams := by
  by_cases hmoves : a.moves = true
  · exact Shared.streams_of_outer (a.outer_exec m hmoves)
  cases a with
  | writeOutput which data => exact absurd rfl (h which data)
  | put start data => simp only [exec]; split <;> rfl
  | setCloexec fd on => simp only [exec]; split <;> rfl
  | charge bytes => simp only [exec, Shared.chargeMemory]; split <;> rfl
  | growMem pages => exact congrArg Shared.streams (m.shared_setMem _)
  | openDesc | dup | dupTo | close | pipe2 | fork | vforkExit | finishExec => exact absurd rfl hmoves
  | _ => rfl

theorem Act.tape_exec (a : Act) (m : Machine) (st : Stream) :
    (a.exec m).2.shared.tape st = (m.shared.tape st).push (a.writes st) := by
  cases a with
  | writeOutput which data =>
    simp only [exec, Shared.writeOutput, writes, Stream.of]
    split
    · cases st with
      | stdout => exact (Tape.push_nil _).symm
      | stderr => exact tape_pushed _ _ _
    · cases st with
      | stdout => exact tape_pushed _ _ _
      | stderr => exact (Tape.push_nil _).symm
  | _ => exact Shared.tape_of_streams (streams_exec _ m (by simp)) st

def trapLine (comm kind : Text) : Text := ascii "wasmux: " ++ comm ++ ascii ": " ++ kind ++ ascii "\n"

/-- What an operation of the scheduler writes to a stream. -/
def KOp.writes (st : Stream) : KOp → Kernel → Bytes
  | .machine index (.act a), k => if (k.procs[index]?).isSome then a.writes st else []
  | .act (.trapMessage index kind), k => match k.procs[index]?, st with
    | some p, .stderr => trapLine p.ctx.task.comm kind
    | _, _ => []
  | _, _ => []

theorem KAct.streams_exec (a : KAct) (k : Kernel) (h : ∀ index kind, a ≠ .trapMessage index kind) :
    (a.exec k).2.shared.streams = k.shared.streams := by
  cases a with
  | trapMessage index kind => exact absurd rfl (h index kind)
  | attach index =>
    simp only [exec]
    repeat' split
    all_goals rfl
  | charge bytes => simp only [exec, Shared.chargeMemory]; split <;> rfl
  | releaseInstance index => simp only [exec]; split <;> rfl
  | launchSpawn launch => simp only [exec]; split <;> rfl
  | abandonSpawn =>
    simp only [exec]
    split
    · rfl
    · exact Shared.streams_of_outer ((Shared.outer_setExit _ _ _).trans (Shared.outer_releaseFds _ _))
  | abandonExec index =>
    simp only [exec]
    split
    · rfl
    · exact Shared.streams_of_outer ((Shared.outer_setExit _ _ _).trans (Shared.outer_releaseFds _ _))
  | restoreJmp index buf value =>
    simp only [exec]
    repeat' split
    all_goals rfl
  | finishProcess index status =>
    simp only [exec, Kernel.finishProcess]
    split
    · rfl
    · exact (Shared.streams_of_outer ((Shared.outer_setExit _ _ _).trans
        ((Shared.outer_releaseFds _ _).trans (Shared.outer_killChildren _ _ _ _)))).trans rfl
  | whyIdle =>
    simp only [exec, Kernel.whyIdle]
    repeat' split
    all_goals rfl
  | _ => rfl

theorem KAct.tape_exec (a : KAct) (k : Kernel) (st : Stream) :
    (a.exec k).2.shared.tape st = (k.shared.tape st).push ((KOp.act a).writes st k) := by
  cases a with
  | trapMessage index kind =>
    simp only [exec, KOp.writes]
    cases k.procs[index]? with
    | none => exact (Tape.push_nil _).symm
    | some p =>
      cases st with
      | stdout => exact (Tape.push_nil _).symm
      | stderr => exact tape_pushed _ _ _
  | _ => exact Shared.tape_of_streams (streams_exec _ k (by simp)) st

section
variable {α W : Type} (x : Env W)

/-- What one operation does to a stream. -/
theorem kexec_tape (o : KOp) (s : Kernel × W) (st : Stream) :
    (kexec x o s).2.1.shared.tape st = (s.1.shared.tape st).push (o.writes st s.1) := by
  obtain ⟨k, w⟩ := s
  cases o with
  | machine index o =>
    cases hp : k.procs[index]? with
    | none =>
      rw [kexec_machine_none x hp]
      cases o <;> simp [KOp.writes, hp]
    | some p =>
      rw [kexec_machine x hp]
      cases o with
      | env c => exact (Tape.push_nil _).symm
      | act a =>
        simp only [KOp.writes, hp, Option.isSome_some, if_true]
        exact a.tape_exec (k.machineOf p) st
  | env c => exact (Tape.push_nil _).symm
  | act a => exact a.tape_exec k st

/-- An operation that adds nothing to a stream: it writes nothing there, or the
stream has no room left. -/
def KOp.Mute (st : Stream) (o : KOp) (k : Kernel) : Prop :=
  o.writes st k = [] ∨ k.shared.limits.output ≤ (st.buffer k.shared).data.length

theorem kexec_mute (o : KOp) (s : Kernel × W) (st : Stream) : o.Mute st s.1 ↔
    (st.buffer (kexec x o s).2.1.shared).data = (st.buffer s.1.shared).data := by
  have hdata : (st.buffer (kexec x o s).2.1.shared).data =
      ((s.1.shared.tape st).push (o.writes st s.1)).data :=
    congrArg Tape.data (kexec_tape x o s st)
  rw [hdata]
  exact ((s.1.shared.tape st).push_eq_self (o.writes st s.1)).symm

/-- A run of the kernel only adds to a stream and leaves the caller's cursor
alone. It adds nothing if and only if every operation is mute. -/
theorem final_stream (p : Sched α) (s : Kernel × W) (st : Stream) : ∃ added : Bytes,
    (st.buffer (p.final (kexec x) s).1.shared).data = (st.buffer s.1.shared).data ++ added ∧
    (st.buffer (p.final (kexec x) s).1.shared).taken = (st.buffer s.1.shared).taken ∧
    (added = [] ↔ p.Along (kexec x) (fun o s => o.Mute st s.1) s) := by
  induction p generalizing s with
  | ret a => exact ⟨[], (List.append_nil _).symm, rfl, by simp [Program.Along]⟩
  | fail e => exact ⟨[], (List.append_nil _).symm, rfl, by simp [Program.Along]⟩
  | call o k ih =>
    obtain ⟨more, hdata, htaken, hmore⟩ := ih (kexec x o s).1 (kexec x o s).2
    have htape := kexec_tape x o s st
    have hfirst : (st.buffer (kexec x o s).2.1.shared).data = (st.buffer s.1.shared).data ++
        (o.writes st s.1).take (s.1.shared.limits.output - (st.buffer s.1.shared).data.length) :=
      congrArg Tape.data htape
    have hcursor : (st.buffer (kexec x o s).2.1.shared).taken = (st.buffer s.1.shared).taken :=
      congrArg Tape.taken htape
    have hmute := kexec_mute x o s st
    rw [hfirst, List.append_right_eq_self] at hmute
    generalize (o.writes st s.1).take (s.1.shared.limits.output - (st.buffer s.1.shared).data.length) =
      here at *
    refine ⟨here ++ more, ?_, htaken.trans hcursor, ?_⟩
    · rw [← List.append_assoc, ← hfirst]
      exact hdata
    · simp only [List.append_eq_nil_iff, Program.Along, hmore, hmute]

/-- A session whose caller takes both streams after every step, and all it has
taken so far. -/
inductive Streamed : Session → W → Bytes → Bytes → Prop
  | start (c : Config) (started : Instant) (k k' : Kernel) (w w' : W) : c.kernel started = some k →
      c.spawnFirst.run (kexec x) (k, w) = (.ok true, (k', w')) → Streamed ⟨k', none⟩ w' [] []
  | elapse (s : Session) (w w' : W) (out err : Bytes) : Streamed s w out err → Streamed s w' out err
  | writeStdin (s : Session) (w : W) (out err bytes : Bytes) : Streamed s w out err →
      Streamed (s.writeStdin bytes) w out err
  | closeStdin (s : Session) (w : W) (out err : Bytes) :
      Streamed s w out err → Streamed s.closeStdin w out err
  | step (s t : Session) (w w' : W) (out err : Bytes) (turns : ℕ) (budget : Budget)
      (r : Except StepError Progress) : Streamed s w out err → s.step x turns budget w = .ok (r, t, w') →
      Streamed t.takeStdout.2.takeStderr.2 w' (out ++ t.takeStdout.1) (err ++ t.takeStdout.2.takeStderr.1)

variable {x}

/-- What a caller has taken of a stream is all that is in it. -/
structure Stream.Drained (st : Stream) (k : Kernel) (bytes : Bytes) : Prop where
  data : (st.buffer k.shared).data = bytes
  taken : (st.buffer k.shared).taken = bytes.length

theorem drained_kernel {c : Config} {started : Instant} {k : Kernel} (h : c.kernel started = some k)
    (st : Stream) : st.Drained k [] := by
  obtain ⟨fds, slab, rfl⟩ := c.kernel_eq h
  cases st <;> exact ⟨rfl, rfl⟩

/-- Starting the first process writes nothing. -/
theorem only_spawnFirst (c : Config) (st : Stream) : c.spawnFirst.Only fun o : KOp =>
    ∀ k, o.writes st k = [] := by
  have hprepare : (Scheduler.prepare c.program c.argv).Only fun o : KOp => ∀ k, o.writes st k = [] := by
    apply (Scheduler.only_prepare c.program c.argv).mono
    intro o ho k
    cases o with
    | machine => cases ho
    | env call => rfl
    | act a =>
      cases a with
      | look | charge | release => rfl
      | _ => cases ho
  apply Program.only_bind hprepare
  rintro (_ | launch)
  · apply only_kact (a := .abandonSpawn) fun _ => rfl
    intro handles
    exact Program.only_bind (only_closeFiles (fun _ _ => rfl) handles) fun _ => trivial
  · exact only_kact (fun _ => rfl) fun _ => trivial

theorem Stream.Drained.final {α : Type} {st : Stream} {k : Kernel} {w : W} {bytes : Bytes}
    (h : st.Drained k bytes) (p : Sched α) : ∃ added : Bytes,
    (st.buffer (p.final (kexec x) (k, w)).1.shared).data = bytes ++ added ∧
    (st.buffer (p.final (kexec x) (k, w)).1.shared).taken = bytes.length ∧
    (added = [] ↔ p.Along (kexec x) (fun o s => o.Mute st s.1) (k, w)) := by
  obtain ⟨added, hdata, htaken, hadded⟩ := final_stream x p (k, w) st
  rw [h.data] at hdata
  exact ⟨added, hdata, htaken.trans h.taken, hadded⟩

theorem drainNew_eq {b : OutputBuffer} {bytes added : Bytes} (hdata : b.data = bytes ++ added)
    (htaken : b.taken = bytes.length) : b.drainNew.1 = added := by
  simp [OutputBuffer.drainNew, hdata, htaken]

theorem drainNew_empty {b : OutputBuffer} (hdata : b.data = []) : b.drainNew.1 = [] := by
  simp [OutputBuffer.drainNew, hdata]

theorem drained_taken {s : Session} {out err more more' : Bytes}
    (hdata : s.kernel.shared.stdout.data = out ++ more) (htaken : s.kernel.shared.stdout.taken = out.length)
    (hdata' : s.kernel.shared.stderr.data = err ++ more')
    (htaken' : s.kernel.shared.stderr.taken = err.length) :
    Stream.stdout.Drained s.takeStdout.2.takeStderr.2.kernel (out ++ s.takeStdout.1) ∧
    Stream.stderr.Drained s.takeStdout.2.takeStderr.2.kernel (err ++ s.takeStdout.2.takeStderr.1) := by
  have hout : s.takeStdout.1 = more := drainNew_eq hdata htaken
  have herr : s.takeStdout.2.takeStderr.1 = more' := drainNew_eq hdata' htaken'
  rw [hout, herr, ← hdata, ← hdata']
  exact ⟨⟨rfl, rfl⟩, ⟨rfl, rfl⟩⟩

theorem report_open {s : Session} {w : W} {slice : Slice} (h : (s.report x w slice).2.1.finished = none) :
    (s.report x w slice).2.1 = s := by
  rcases slice with status | why | _
  · cases h
  · cases why <;> rfl
  · rfl

theorem report_done {s : Session} {w : W} {slice : Slice} {output : Output}
    (h : (s.report x w slice).1 = .ok (.done output)) :
    output.stdout = s.kernel.shared.stdout.data ∧ output.stderr = s.kernel.shared.stderr.data ∧
      (s.report x w slice).2.1.kernel.shared.stdout.data = [] ∧
      (s.report x w slice).2.1.kernel.shared.stderr.data = [] := by
  rcases slice with status | why | _
  · obtain rfl := by simpa [Session.report, Session.collect] using h
    exact ⟨rfl, rfl, rfl, rfl⟩
  · cases why <;> cases h
  · cases h

theorem step_runs {s t : Session} {w w' : W} {turns : ℕ} {budget : Budget} {r : Except StepError Progress}
    (h : s.step x turns budget w = .ok (r, t, w')) (hopen : s.finished = none) : ∃ w₁ slice,
    (r, t, w') = Session.report x { s with
      kernel := ((Scheduler.run turns budget).final (kexec x) (s.kernel, w)).1 } w₁ slice := by
  obtain ⟨k, finished⟩ := s
  obtain rfl : finished = none := hopen
  simp only [Session.step] at h
  simp only [Program.final]
  rcases hr : (Scheduler.run turns budget).run (kexec x) (k, w) with ⟨e | slice, k', w₁⟩
  · simp [hr] at h
  · simp only [hr, Except.ok.injEq] at h
    exact ⟨w₁, slice, h.symm⟩

theorem step_finished {s t : Session} {w w' : W} {turns : ℕ} {budget : Budget} {r : Except StepError Progress}
    (h : s.step x turns budget w = .ok (r, t, w')) (hopen : t.finished = none) : s.finished = none := by
  obtain ⟨k, finished⟩ := s
  cases finished with
  | none => rfl
  | some status =>
    obtain ⟨-, rfl, -⟩ := by simpa [Session.step] using h
    cases hopen

/-- Until the session is finished the caller has all that was written. -/
theorem Streamed.drained {s : Session} {w : W} {out err : Bytes} (h : Streamed x s w out err)
    (hopen : s.finished = none) :
    Stream.stdout.Drained s.kernel out ∧ Stream.stderr.Drained s.kernel err := by
  induction h with
  | start c started k k' w w' hk hr =>
    have hfinal : k' = (c.spawnFirst.final (kexec x) (k, w)).1 := by rw [Program.final, hr]
    have quiet : ∀ st : Stream, st.Drained k' [] := by
      intro st
      obtain ⟨added, hdata, htaken, hadded⟩ := (drained_kernel hk st).final (x := x) (w := w) c.spawnFirst
      have hmute := ((only_spawnFirst c st).along (kexec x) (k, w)).mono (kexec x)
        (D := fun o s => KOp.Mute st o s.1) fun o s ho => .inl (ho s.1)
      obtain rfl := hadded.mpr hmute
      rw [← hfinal] at hdata htaken
      exact ⟨hdata, htaken⟩
    exact ⟨quiet .stdout, quiet .stderr⟩
  | elapse s w w' out err _ ih => exact ih hopen
  | writeStdin s w out err bytes _ ih =>
    obtain ⟨hout, herr⟩ := ih hopen
    exact ⟨⟨hout.data, hout.taken⟩, ⟨herr.data, herr.taken⟩⟩
  | closeStdin s w out err _ ih =>
    obtain ⟨hout, herr⟩ := ih hopen
    exact ⟨⟨hout.data, hout.taken⟩, ⟨herr.data, herr.taken⟩⟩
  | step s t w w' out err turns budget r _ hstep ih =>
    have hs := step_finished hstep hopen
    obtain ⟨hout, herr⟩ := ih hs
    obtain ⟨w₁, slice, hreport⟩ := step_runs hstep hs
    obtain ⟨-, rfl, -⟩ := by simpa [Prod.ext_iff] using hreport
    rw [report_open (x := x) hopen]
    obtain ⟨more, hdata, htaken, -⟩ := hout.final (x := x) (w := w) (Scheduler.run turns budget)
    obtain ⟨more', hdata', htaken', -⟩ := herr.final (x := x) (w := w) (Scheduler.run turns budget)
    exact drained_taken hdata htaken hdata' htaken'

theorem streamed_spawn {c : Config} {k : Kernel} {w w' : W} (h : c.spawn x w = some (k, w')) :
    Streamed x ⟨k, none⟩ w' [] [] := by
  simp only [Config.spawn] at h
  split at h
  · cases h
  · rename_i k₀ hk
    split at h
    · rename_i s hs
      obtain rfl := by simpa using h
      exact .start c _ k₀ k _ w' hk hs
    · cases h

/-- A caller that takes both streams after every step, the last one included,
ends with all of a stream if and only if the step that finishes the session
adds nothing to it. -/
theorem streamed_whole_iff {s t : Session} {w w' : W} {out err : Bytes} {turns : ℕ} {budget : Budget}
    {output : Output} (h : Streamed x s w out err) (hopen : s.finished = none)
    (hdone : s.step x turns budget w = .ok (.ok (.done output), t, w')) :
    (out ++ t.takeStdout.1 = output.stdout ↔
      (Scheduler.run turns budget).Along (kexec x) (fun o s => o.Mute .stdout s.1) (s.kernel, w)) ∧
    (err ++ t.takeStdout.2.takeStderr.1 = output.stderr ↔
      (Scheduler.run turns budget).Along (kexec x) (fun o s => o.Mute .stderr s.1) (s.kernel, w)) := by
  obtain ⟨hout, herr⟩ := h.drained hopen
  obtain ⟨w₁, slice, hreport⟩ := step_runs hdone hopen
  obtain ⟨hr, rfl, -⟩ := by simpa [Prod.ext_iff] using hreport
  obtain ⟨hstdout, hstderr, hleft, hleft'⟩ := report_done (x := x) hr.symm
  obtain ⟨more, hdata, -, hmore⟩ := hout.final (x := x) (w := w) (Scheduler.run turns budget)
  obtain ⟨more', hdata', -, hmore'⟩ := herr.final (x := x) (w := w) (Scheduler.run turns budget)
  have htake : out ++ _ = out := (congrArg (out ++ ·) (drainNew_empty hleft)).trans (List.append_nil out)
  have htake' : err ++ _ = err := (congrArg (err ++ ·) (drainNew_empty hleft')).trans (List.append_nil err)
  have hsame : out = output.stdout ↔ more = [] := by
    rw [hstdout.trans hdata]
    exact List.self_eq_append_right
  have hsame' : err = output.stderr ↔ more' = [] := by
    rw [hstderr.trans hdata']
    exact List.self_eq_append_right
  constructor
  · rw [← hmore, ← hsame]
    exact Eq.congr_left htake
  · rw [← hmore', ← hsame']
    exact Eq.congr_left htake'

end

/-- Guests that have the arguments of a one-byte `write` to standard output at
address zero. -/
def Env.writesOnce : Env (List GuestRun) := .scripted (.startingWith (argWords [1, 0, 1]))

/-- The byte that is written in an earlier step has been taken when the session ends. -/
theorem streamed_whole_iff_earlier : ∃ (s t : Session) (w w' : List GuestRun) (output : Output),
    Streamed Env.writesOnce s w [1] [] ∧ s.step Env.writesOnce 3 ⟨none, none⟩ w =
    .ok (.ok (.done output), t, w') ∧
    output.stdout = [1] ∧ ([1] ++ t.takeStdout.1 = output.stdout ↔
      (Scheduler.run 3 ⟨none, none⟩).Along (kexec Env.writesOnce)
      (fun o s => o.Mute .stdout s.1) (s.kernel, w)) := by
  have hspawn : (Config.bare [.guest 0]).spawn Env.writesOnce [] = some (_, _) := rfl
  have hstart := Streamed.elapse _ _ [⟨[.syscall 64 0, .setjmp 0], none⟩, ⟨[.setjmp 0], none⟩] _ _
    (streamed_spawn hspawn)
  have hstep := Streamed.step _ _ _ _ _ _ 3 ⟨some 1, none⟩ (.ok .yielded) hstart rfl
  obtain ⟨s, w, out, err, hs, hopen, rfl, rfl, output, t, w', hdone, hstdout⟩ : ∃ s w out err,
      Streamed Env.writesOnce s w out err ∧ s.finished = none ∧ out = [1] ∧ err = [] ∧
      ∃ (output : Output) (t : Session) (w' : _),
      s.step Env.writesOnce 3 ⟨none, none⟩ w = .ok (.ok (.done output), t, w') ∧ output.stdout = [1] :=
    ⟨_, _, _, _, hstep, rfl, by decide +kernel, by decide +kernel, _, _, _, rfl, by decide +kernel⟩
  exact ⟨s, t, w, w', output, hs, hdone, hstdout, (streamed_whole_iff hs hopen hdone).1⟩

/-- The byte a program writes in its last step never reaches the caller. -/
theorem last_output_lost : ∃ (s t : Session) (w w' : List GuestRun) (output : Output),
    Streamed Env.writesOnce s w [] [] ∧ s.finished = none ∧
    s.step Env.writesOnce 3 ⟨none, none⟩ w = .ok (.ok (.done output), t, w') ∧
    [] ++ t.takeStdout.1 ≠ output.stdout := by
  have hspawn : (Config.bare [.guest 0]).spawn Env.writesOnce [] = some (_, _) := rfl
  refine ⟨_, _, [⟨[.syscall 64 0], none⟩], _, _, .elapse _ _ _ _ _ (streamed_spawn hspawn), rfl,
    (rfl : _ = Except.ok (Except.ok (Progress.done _), _, _)), ?_⟩
  intro hsame
  exact absurd (congrArg List.length hsame) (by decide)

end Wasmux
