import Wasmux.Effects.Tally
import Wasmux.Streaming

/-!
# What is captured of the streams

Of each stream a session keeps what its limit has room for and counts the rest.
The cursor of a caller that takes what is new does not move the point from which
bytes are dropped: that one goes by what the buffer was ever given.
-/

set_option autoImplicit false

namespace Wasmux
open Effects Abi

/-- A buffer that was given all of these bytes, and of which the caller took those. -/
structure OutputBuffer.Holds (b : OutputBuffer) (limit : ℕ) (all taken : Bytes) : Prop where
  data : b.data = all.take limit
  dropped : b.dropped = min u64Max (all.length - limit)
  cursor : b.taken = taken.length
  before : taken <+: b.data

namespace OutputBuffer
variable {b : OutputBuffer} {limit : ℕ} {all taken : Bytes}

theorem Holds.push (h : b.Holds limit all taken) (bytes : Bytes) :
    (b.push bytes limit).Holds limit (all ++ bytes) taken := by
  have hlength : b.data.length = min limit all.length := by rw [h.data, List.length_take]
  have hdata : (b.push bytes limit).data =
    b.data ++ bytes.take (min (limit - b.data.length) bytes.length) := rfl
  refine ⟨?_, ?_, h.cursor, ?_⟩
  · rw [hdata, List.take_append, ← h.data, List.append_cancel_left_eq, List.take_eq_take_iff]
    omega
  · show satAddU64 b.dropped (bytes.length - min (limit - b.data.length) bytes.length) = _
    rw [satAddU64, h.dropped, List.length_append]
    omega
  · rw [hdata]
    exact h.before.trans (List.prefix_append _ _)

theorem Holds.drain (h : b.Holds limit all taken) : b.drainNew.2.Holds limit all (taken ++ b.drainNew.1) := by
  obtain ⟨rest, hrest⟩ := h.before
  have hnew : b.drainNew.1 = rest := drainNew_eq hrest.symm h.cursor
  rw [hnew, hrest]
  exact ⟨h.data, h.dropped, rfl, List.prefix_refl _⟩

end OutputBuffer

section
variable (st : Stream)

/-- What one act does to a buffer. -/
theorem Act.buffer_exec (a : Act) (m : Machine) :
    st.buffer (a.exec m).2.shared = st.buffer m.shared ∧ a.writes st = [] ∨
      st.buffer (a.exec m).2.shared = (st.buffer m.shared).push (a.writes st) m.shared.limits.output := by
  by_cases hwrites : ∃ which data, a = .writeOutput which data
  · obtain ⟨which, data, rfl⟩ := hwrites
    simp only [exec, Shared.writeOutput, writes, Stream.of]
    split
    · cases st with
      | stdout => exact .inl ⟨rfl, rfl⟩
      | stderr => exact .inr rfl
    · cases st with
      | stdout => exact .inr rfl
      | stderr => exact .inl ⟨rfl, rfl⟩
  · have hnot : ∀ which data, a ≠ .writeOutput which data := fun which data heq => hwrites ⟨which, data, heq⟩
    refine .inl ⟨?_, ?_⟩
    · have hsame := a.streams_exec m hnot
      simp only [Shared.streams, Prod.mk.injEq] at hsame
      cases st with
      | stdout => exact hsame.1
      | stderr => exact hsame.2.1
    · cases a with
      | writeOutput which data => exact absurd rfl (hnot which data)
      | _ => rfl

theorem KAct.buffer_exec (a : KAct) (k : Kernel) :
    st.buffer (a.exec k).2.shared = st.buffer k.shared ∧ (KOp.act a).writes st k = [] ∨
      st.buffer (a.exec k).2.shared = (st.buffer k.shared).push ((KOp.act a).writes st k)
      k.shared.limits.output := by
  by_cases hwrites : ∃ index kind, a = .trapMessage index kind
  · obtain ⟨index, kind, rfl⟩ := hwrites
    simp only [exec, KOp.writes]
    cases k.procs[index]? with
    | none => exact .inl ⟨rfl, rfl⟩
    | some p =>
      cases st with
      | stdout => exact .inl ⟨rfl, rfl⟩
      | stderr => exact .inr rfl
  · have hnot : ∀ index kind, a ≠ .trapMessage index kind := fun index kind heq => hwrites ⟨index, kind, heq⟩
    refine .inl ⟨?_, ?_⟩
    · have hsame := a.streams_exec k hnot
      simp only [Shared.streams, Prod.mk.injEq] at hsame
      cases st with
      | stdout => exact hsame.1
      | stderr => exact hsame.2.1
    · cases a with
      | trapMessage index kind => exact absurd rfl (hnot index kind)
      | _ => rfl

end

section
variable {α W : Type} (x : Env W)

theorem kexec_buffer (o : KOp) (s : Kernel × W) (st : Stream) :
    st.buffer (kexec x o s).2.1.shared = st.buffer s.1.shared ∧ o.writes st s.1 = [] ∨
      st.buffer (kexec x o s).2.1.shared = (st.buffer s.1.shared).push (o.writes st s.1)
      s.1.shared.limits.output := by
  obtain ⟨k, w⟩ := s
  cases o with
  | machine index o =>
    cases hp : k.procs[index]? with
    | none =>
      rw [kexec_machine_none x hp]
      cases o with
      | env c => exact .inl ⟨rfl, rfl⟩
      | act a => exact .inl ⟨rfl, by simp [KOp.writes, hp]⟩
    | some p =>
      rw [kexec_machine x hp]
      cases o with
      | env c => exact .inl ⟨rfl, rfl⟩
      | act a =>
        simp only [KOp.writes, hp, Option.isSome_some, if_true]
        exact a.buffer_exec st (k.machineOf p)
  | env c => exact .inl ⟨rfl, rfl⟩
  | act a => exact a.buffer_exec st k

/-- What a run writes to a stream, in order. -/
def writtenBy (p : Sched α) (s : Kernel × W) (st : Stream) : Bytes :=
  (p.trace (kexec x) s).flatMap fun v => v.op.writes st v.before.1

/-- Both buffers of a kernel with this limit, with what they were given and what was taken. -/
structure Kernel.Captures (k : Kernel) (limit : ℕ) (written taken : Stream → Bytes) : Prop where
  room : k.shared.limits.output = limit
  holds : ∀ st : Stream, (st.buffer k.shared).Holds limit (written st) (taken st)

variable {x}

theorem Kernel.Captures.kexec {s : Kernel × W} {limit : ℕ} {written taken : Stream → Bytes}
    (h : s.1.Captures limit written taken) (o : KOp) :
    (Wasmux.kexec x o s).2.1.Captures limit (fun st => written st ++ o.writes st s.1) taken := by
  refine ⟨(congrArg Tape.limit (kexec_tape x o s .stdout)).trans h.room, fun st => ?_⟩
  rcases kexec_buffer x o s st with ⟨hsame, hnone⟩ | hpush
  · rw [hsame, hnone, List.append_nil]
    exact h.holds st
  · rw [hpush, h.room]
    exact (h.holds st).push _

theorem Kernel.Captures.final (p : Sched α) {s : Kernel × W} {limit : ℕ} {written taken : Stream → Bytes}
    (h : s.1.Captures limit written taken) :
    (p.final (Wasmux.kexec x) s).1.Captures limit (fun st => written st ++ writtenBy x p s st) taken := by
  induction p generalizing s written with
  | ret a => exact ⟨h.room, fun st => (List.append_nil (written st)).symm ▸ h.holds st⟩
  | fail e => exact ⟨h.room, fun st => (List.append_nil (written st)).symm ▸ h.holds st⟩
  | call o f ih =>
    have hrest := ih (Wasmux.kexec x o s).1 (h.kexec (x := x) o)
    simp only [List.append_assoc] at hrest
    exact hrest

end

section
variable {W : Type} (x : Env W)

/-- A session that has not come to its end, with what was written to its streams
and what its caller took of them. -/
inductive Captured (c : Config) : Session → W → (Stream → Bytes) → (Stream → Bytes) → Prop
  | start (started : Instant) (k k' : Kernel) (w w' : W) : c.kernel started = some k →
      c.spawnFirst.run (kexec x) (k, w) = (.ok true, (k', w')) →
      Captured c ⟨k', none⟩ w' (writtenBy x c.spawnFirst (k, w)) fun _ => []
  | elapse (s : Session) (w w' : W) (written taken : Stream → Bytes) :
      Captured c s w written taken → Captured c s w' written taken
  | step (k k' : Kernel) (w w' : W) (written taken : Stream → Bytes) (turns : ℕ) (budget : Budget)
      (slice : Slice) :
      Captured c ⟨k, none⟩ w written taken →
      (Scheduler.run turns budget).run (kexec x) (k, w) = (.ok slice, (k', w')) → slice.status = none →
      Captured c ⟨k', none⟩ w' (fun st =>
        written st ++ writtenBy x (Scheduler.run turns budget) (k, w) st) taken
  | writeStdin (s : Session) (w : W) (written taken : Stream → Bytes) (bytes : Bytes) :
      Captured c s w written taken → Captured c (s.writeStdin bytes) w written taken
  | closeStdin (s : Session) (w : W) (written taken : Stream → Bytes) :
      Captured c s w written taken → Captured c s.closeStdin w written taken
  | takeStdout (s : Session) (w : W) (written taken : Stream → Bytes) : Captured c s w written taken →
      Captured c s.takeStdout.2 w written (Function.update taken .stdout (taken .stdout ++ s.takeStdout.1))
  | takeStderr (s : Session) (w : W) (written taken : Stream → Bytes) : Captured c s w written taken →
      Captured c s.takeStderr.2 w written (Function.update taken .stderr (taken .stderr ++ s.takeStderr.1))

/-- The output of a command that wrote all of this, when the caller took that before it ended. -/
structure Output.Exact (o : Output) (limit : ℕ) (written taken : Stream → Bytes) : Prop where
  stdout : o.stdout = (written .stdout).take limit
  stderr : o.stderr = (written .stderr).take limit
  dropped : o.dropped = min u64Max (((written .stdout).length - limit) + ((written .stderr).length - limit))
  taken : taken .stdout <+: o.stdout ∧ taken .stderr <+: o.stderr

variable {x}

theorem captures_kernel {c : Config} {started : Instant} {k : Kernel} (h : c.kernel started = some k) :
    k.Captures c.limits.output (fun _ => []) fun _ => [] := by
  obtain ⟨fds, slab, hk⟩ := c.kernel_eq h
  have hlimit : k.shared.limits = c.limits := by
    rw [hk]
    rfl
  have hempty : ∀ st : Stream, st.buffer k.shared = ⟨[], 0, 0⟩ := by
    intro st
    rw [hk]
    cases st <;> rfl
  refine ⟨by rw [hlimit], fun st => ?_⟩
  rw [hempty]
  exact ⟨List.take_nil.symm, by simp, rfl, List.prefix_refl _⟩

theorem Captured.captures {c : Config} {s : Session} {w : W} {written taken : Stream → Bytes}
    (h : Captured x c s w written taken) : s.kernel.Captures c.limits.output written taken := by
  induction h with
  | start started k k' w w' hk hr =>
    have hfinal := (captures_kernel hk).final (x := x) (s := (k, w)) c.spawnFirst
    rw [Program.final, hr] at hfinal
    exact hfinal
  | elapse s w w' written taken _ ih => exact ih
  | step k k' w w' written taken turns budget slice _ hr _ ih =>
    have hfinal := Kernel.Captures.final (x := x) (s := (k, w)) (Scheduler.run turns budget) ih
    rw [Program.final, hr] at hfinal
    exact hfinal
  | writeStdin s w written taken bytes _ ih =>
    refine ⟨ih.room, fun st => ?_⟩
    cases st with
    | stdout => exact ih.holds .stdout
    | stderr => exact ih.holds .stderr
  | closeStdin s w written taken _ ih =>
    refine ⟨ih.room, fun st => ?_⟩
    cases st with
    | stdout => exact ih.holds .stdout
    | stderr => exact ih.holds .stderr
  | takeStdout s w written taken _ ih =>
    refine ⟨ih.room, fun st => ?_⟩
    cases st with
    | stdout =>
      rw [Function.update_self]
      exact (ih.holds .stdout).drain
    | stderr => exact ih.holds .stderr
  | takeStderr s w written taken _ ih =>
    refine ⟨ih.room, fun st => ?_⟩
    cases st with
    | stdout => exact ih.holds .stdout
    | stderr =>
      rw [Function.update_self]
      exact (ih.holds .stderr).drain

theorem Kernel.Captures.exact {k : Kernel} {limit : ℕ} {written taken : Stream → Bytes}
    (h : k.Captures limit written taken) {finished : Option ℤ} (status : ℤ) :
    (Session.collect ⟨k, finished⟩ status).1.Exact limit written taken := by
  have hout : k.shared.stdout.Holds limit (written .stdout) (taken .stdout) := h.holds .stdout
  have herr : k.shared.stderr.Holds limit (written .stderr) (taken .stderr) := h.holds .stderr
  refine ⟨hout.data, herr.data, ?_, hout.before, herr.before⟩
  show satAddU64 k.shared.stdout.dropped k.shared.stderr.dropped = _
  rw [satAddU64, hout.dropped, herr.dropped]
  omega

end

section
variable {α β W : Type} (x : Env W)

theorem run_writeBytes_stdout {m : Machine} {fd : ℤ} {entry : Fd} {desc : Desc} {which : ℕ}
    (data : Bytes) (w : W) (hopen : openFd m.view fd = .ok (entry, desc)) (hwritable : desc.writable = true)
    (hkind : desc.kind = .stdout which) :
    (writeBytes fd data).run (exec x) (m, w) =
    (.ok data.length, m.setShared (m.shared.writeOutput which data), w) := by
  unfold writeBytes
  change (lift (openFd m.view fd) >>= _ : Handler ℕ).run (exec x) (m, w) = _
  rw [hopen, lift_ok, Program.ret_bind]
  simp only [hwritable, Bool.not_true, Bool.false_eq_true, if_false, hkind]
  rfl

theorem run_write_stdout {m : Machine} {fd : ℤ} {entry : Fd} {desc : Desc} {which start length : ℕ}
    {data : Bytes} (w : W) (hopen : openFd m.view fd = .ok (entry, desc)) (hwritable : desc.writable = true)
    (hkind : desc.kind = .stdout which) (hdata : m.inst.mem.bytes start length = .ok data) :
    (Sys.write fd start length).run (exec x) (m, w) =
      (.ok (asI32 length), m.setShared (m.shared.writeOutput which data), w) := by
  have hlength : data.length = length := Mem.length_bytes hdata
  change (lift (m.inst.mem.bytes start length) >>= fun data => writeBytes fd data >>= fun n => .ret
    (asI32 n) : Handler ℤ).run
    (exec x) (m, w) = _
  rw [hdata, lift_ok, Program.ret_bind,
    Program.run_bind_ok _ (run_writeBytes_stdout x data w hopen hwritable hkind), hlength]
  rfl

end

section
variable {W : Type} {x : Env W}

theorem captured_spawn {c : Config} {k : Kernel} {w w' : W} (h : c.spawn x w = some (k, w')) :
    ∃ written : Stream → Bytes, Captured x c ⟨k, none⟩ w' written fun _ => [] := by
  simp only [Config.spawn] at h
  split at h
  · cases h
  · rename_i k₀ hk
    split at h
    · rename_i s hs
      obtain rfl := by simpa using h
      exact ⟨_, .start _ k₀ k _ w' hk hs⟩
    · cases h

theorem Captured.open {c : Config} {s : Session} {w : W} {written taken : Stream → Bytes}
    (h : Captured x c s w written taken) : s.finished = none := by
  induction h with
  | start => rfl
  | elapse s w w' written taken _ ih => exact ih
  | step => rfl
  | writeStdin s w written taken bytes _ ih => exact ih
  | closeStdin s w written taken _ ih => exact ih
  | takeStdout s w written taken _ ih => exact ih
  | takeStderr s w written taken _ ih => exact ih

/-- What a command is told at its end is exact, however its processes wrote and
its caller took, and no write is told that less was written. -/
theorem capture_exact (c : Config) :
    (∀ (m : Machine) (w : W) (fd : ℤ) (entry : Fd) (desc : Desc) (which : ℕ),
      openFd m.view fd = .ok (entry, desc) →
      desc.writable = true → desc.kind = .stdout which →
      (∀ data, (writeBytes fd data).run (exec x) (m, w) =
        (.ok data.length, m.setShared (m.shared.writeOutput which data), w)) ∧
      ∀ start length data, m.inst.mem.bytes start length = .ok data →
      (Sys.write fd start length).run (exec x) (m, w) =
        (.ok (asI32 length), m.setShared (m.shared.writeOutput which data), w)) ∧
    ∀ (s : Session) (w : W) (written taken : Stream → Bytes), Captured x c s w written taken →
      ∀ turns budget output t w', s.step x turns budget w = .ok (.ok (.done output), t, w') →
      output.Exact c.limits.output
        (fun st => written st ++ writtenBy x (Scheduler.run turns budget) (s.kernel, w) st) taken := by
  refine ⟨fun m w fd entry desc which hopen hwritable hkind =>
    ⟨fun data => ?_, fun start length data hdata => ?_⟩, ?_⟩
  · exact run_writeBytes_stdout x data w hopen hwritable hkind
  · exact run_write_stdout x w hopen hwritable hkind hdata
  · intro s w written taken h turns budget output t w' hdone
    obtain ⟨w₁, slice, hreport⟩ := step_runs hdone h.open
    have hfinal := h.captures.final (x := x) (s := (s.kernel, w)) (Scheduler.run turns budget)
    generalize ((Scheduler.run turns budget).final (kexec x) (s.kernel, w)).1 = k at hreport hfinal
    rcases slice with status | why | _
    · obtain rfl : output = (Session.collect ⟨k, some status⟩ status).1 := by
        have hfirst := congrArg Prod.fst hreport
        simp only [Session.report, Except.ok.injEq, Progress.done.injEq] at hfirst
        exact hfirst
      exact hfinal.exact status
    · cases why <;> cases hreport
    · cases hreport

end

def Config.twoBytes : Config :=
    { Config.bare [.guest 0] with limits := { (Config.bare []).limits with output := 2 } }

/-- A guest writes three bytes, and its caller takes one when it is there. -/
theorem capture_exact_two :
    ∃ (s t : Session) (w w' : List GuestRun) (written taken : Stream → Bytes) (output : Output),
    (∃ m u : Machine, (Sys.write 1 0 1 : Handler ℤ).run (exec Env.writesOnce) (m, []) = (.ok 1, u, [])) ∧
    s.step Env.writesOnce 3 ⟨none, none⟩ w = .ok (.ok (.done output), t, w') ∧
    output.stdout = [1, 1] ∧ output.dropped = 1 ∧ taken .stdout = [1] ∧ output.Exact 2
      (fun st => written st ++ writtenBy Env.writesOnce (Scheduler.run 3 ⟨none, none⟩) (s.kernel, w)
        st) taken := by
  have hspawn : Config.twoBytes.spawn Env.writesOnce [] = some (_, _) := rfl
  obtain ⟨written, hstart⟩ := captured_spawn hspawn
  have helapse := Captured.elapse _ _ [⟨[.syscall 64 0, .setjmp 200], none⟩,
    ⟨[.setjmp 200, .syscall 64 0, .syscall 64 0], none⟩] _ _ hstart
  have hstep := Captured.takeStdout _ _ _ _
    (Captured.step _ _ _ _ _ _ 2 ⟨none, some 0⟩ .budget helapse rfl rfl)
  have hexact : ∀ {s t : Session} {w w' : List GuestRun} {written taken : Stream → Bytes} {output : Output},
      Captured Env.writesOnce Config.twoBytes s w written taken →
      s.step Env.writesOnce 3 ⟨none, none⟩ w = .ok (.ok (.done output), t, w') →
      s.step Env.writesOnce 3 ⟨none, none⟩ w = .ok (.ok (.done output), t, w') ∧ output.Exact 2
        (fun st => written st ++ writtenBy Env.writesOnce (Scheduler.run 3 ⟨none, none⟩) (s.kernel, w)
          st) taken := by
    intro s t w w' written taken output h hdone
    exact ⟨hdone, (capture_exact Config.twoBytes).2 s w written taken h 3 ⟨none, none⟩ output t w' hdone⟩
  obtain ⟨hdone, htold⟩ := hexact hstep (rfl : _ = Except.ok (Except.ok (Progress.done _), _, _))
  obtain ⟨k, w, p, entry, desc, data, -, -, hopen, hwritable, hkind, hdata⟩ :
    ∃ (k : Kernel) (w : List GuestRun) (p : Proc) (entry : Fd) (desc : Desc) (data : Bytes),
      Config.twoBytes.spawn Env.writesOnce [] = some (k, w) ∧
      k.procs = [p] ∧
        openFd (k.machineOf p).view 1 = .ok (entry, desc) ∧ desc.writable = true ∧ desc.kind = .stdout 1 ∧
        (k.machineOf p).inst.mem.bytes 0 1 = .ok data := ⟨_, _, _, _, _, _, rfl, rfl, rfl, rfl, rfl, rfl⟩
  have htells := ((capture_exact (x := Env.writesOnce) Config.twoBytes).1 _
    [] 1 entry desc 1 hopen hwritable hkind).2
    0 1 data hdata
  exact ⟨_, _, _, _, _, _, _, ⟨_, _, htells⟩, hdone, by decide +kernel, by decide +kernel, by
    decide +kernel, htold⟩

/-! ## The count stops -/

section
variable {α W : Type} {x : Env W}

def Op.prints : Op → Machine × W → ℕ
  | .act a, _ => (a.writes .stdout).length
  | .env _, _ => 0

def KOp.prints (o : KOp) (s : Kernel × W) : ℕ := (o.writes .stdout s.1).length

theorem length_writtenBy (p : Sched α) (s : Kernel × W) :
    (writtenBy x p s .stdout).length = p.weighed (kexec x) KOp.prints s := by
  induction p generalizing s with
  | ret a => rfl
  | fail e => rfl
  | call o f ih =>
    have hrest := ih (kexec x o s).1 (kexec x o s).2
    unfold writtenBy at hrest ⊢
    simp only [Program.trace, List.flatMap_cons, List.length_append, hrest, Program.weighed, KOp.prints]

end

/-- A guest that is about to write the byte at address zero, with the arguments of the call there. -/
structure Machine.Printing (m : Machine) : Prop where
  awake : m.inst.unwinding = false
  forward : m.ctx.exec.rewinding = false
  going : m.ctx.exec.suspension = none
  quiet : m.ctx.exec.signalFlag = 0
  args : Import.readArgs m.inst.mem 0 = .ok ⟨1, 0, 1, 0, 0, 0⟩
  byte : ∃ data, m.inst.mem.bytes 0 1 = .ok data
  stdout : ∃ entry desc, openFd m.view 1 = .ok (entry, desc) ∧ desc.writable = true ∧ desc.kind = .stdout 1

section
variable {W : Type} {x : Env W} {m : Machine} {w : W}

/-- What a guest needs to go on is not touched by what the write changes. -/
theorem Machine.Printing.keep (h : m.Printing) {m' : Machine} (hinst : m'.inst = m.inst)
    (hdescs : m'.shared.descs = m.shared.descs) (hfds : m'.ctx.task.fds = m.ctx.task.fds)
    (hgoing : m'.ctx.exec.suspension = m.ctx.exec.suspension)
    (hforward : m'.ctx.exec.rewinding = m.ctx.exec.rewinding)
    (hquiet : m'.ctx.exec.signalFlag = m.ctx.exec.signalFlag) : m'.Printing where
  awake := by rw [hinst, h.awake]
  forward := by rw [hforward, h.forward]
  going := by rw [hgoing, h.going]
  quiet := by rw [hquiet, h.quiet]
  args := by rw [hinst, h.args]
  byte := by
    rw [hinst]
    exact h.byte
  stdout := by
    obtain ⟨entry, desc, hopen, hdesc⟩ := h.stdout
    refine ⟨entry, desc, ?_, hdesc⟩
    rw [← hopen]
    unfold openFd Machine.view
    simp only [hdescs, hfds]

theorem atLeast_act {ε α : Type} {a : Act} {f : a.Ans → Program sig ε α} {n : ℕ} {s : Machine × W}
    {Q : α → Machine × W → Prop}
    (h : Program.AtLeast (exec x) Op.prints n (f (a.exec s.1).1) ((a.exec s.1).2, s.2) Q) :
    Program.AtLeast (exec x) Op.prints n (act a >>= f) s Q := by
  have hcall : (act a >>= f) = Program.call (Op.act a : sig.Op) f := rfl
  rw [hcall]
  exact Program.atLeast_call h

/-- The write takes the byte whole. -/
theorem atLeast_write (h : m.Printing) :
    ∃ data, Program.AtLeast (exec x) Op.prints 1 (handle 64 ⟨1, 0, 1, 0, 0, 0⟩) (m, w)
    fun _ t => t = (m.setShared (m.shared.writeOutput 1 data), w) := by
  obtain ⟨data, hdata⟩ := h.byte
  obtain ⟨entry, desc, hopen, hwritable, hkind⟩ := h.stdout
  refine ⟨data, ?_⟩
  show Program.AtLeast (exec x) Op.prints 1 (Sys.write 1 0 1) (m, w) _
  apply atLeast_act (a := .view)
  show Program.AtLeast (exec x) Op.prints 1 (lift (m.inst.mem.bytes 0 1) >>= fun data =>
      writeBytes 1 data >>= fun n =>
    .ret (asI32 n) : Handler ℤ) (m, w) _
  rw [hdata, lift_ok, Program.ret_bind]
  apply atLeast_act (a := .view)
  show Program.AtLeast (exec x) Op.prints 1 ((lift (openFd m.view 1) >>= _) >>= _ : Handler ℤ) (m, w) _
  rw [hopen, lift_ok, Program.ret_bind]
  simp only [hwritable, Bool.not_true, Bool.false_eq_true, if_false, hkind]
  have hret : Program.AtLeast (exec x) Op.prints 0 (.ret (asI32 data.length) : Handler ℤ)
      (m.setShared (m.shared.writeOutput 1 data), w) fun _ t =>
      t = (m.setShared (m.shared.writeOutput 1 data), w) :=
    ⟨_, _, rfl, Nat.zero_le _, rfl⟩
  have hone : Op.prints (.act (.writeOutput 1 data)) (m, w) + 0 = 1 := Mem.length_bytes hdata
  have hweigh := Program.atLeast_weigh (x := exec x) (s := (m, w))
    (o := (Op.act (.writeOutput 1 data) : sig.Op))
    (k := fun _ => (.ret (asI32 data.length) : Handler ℤ)) hret
  rw [hone] at hweigh
  exact hweigh

/-- One byte is written, and the guest can go on. -/
theorem printing_guestAct (h : m.Printing) : Program.AtLeast (exec x) Op.prints 1
    (guestAct (.syscall 64 0) : Program sig Stop Unit) (m, w) fun _ t =>
    t.1.Printing ∧ t.1.ctx.task.pid = m.ctx.task.pid := by
  have hcounted : m.counted.Printing := h.keep rfl rfl rfl rfl rfl rfl
  obtain ⟨data, hwrite⟩ := atLeast_write (x := x) (w := w) hcounted
  apply atLeast_act (a := .view)
  show Program.AtLeast (exec x) Op.prints 1 (if m.inst.unwinding = true then .ret () else
    Import.syscall 64 0 >>= fun _ => .ret () : Program sig Stop Unit) (m, w) _
  rw [if_neg (by rw [h.awake]; decide)]
  refine Program.atLeast_bind (m := 0) (R := fun _ t => t.1.Printing ∧ t.1.ctx.task.pid = m.ctx.task.pid) ?_
    fun _ _ ht => Program.atLeast_ret ht
  apply atLeast_act (a := .view)
  have hforward : (Act.view.exec m).1.rewinding = false := h.forward
  have hargs : Import.readArgs (Act.view.exec m).1.mem 0 = .ok ⟨1, 0, 1, 0, 0, 0⟩ := h.args
  have hsame : (Act.view.exec m).2 = m := rfl
  simp only [hforward, hargs, hsame, Bool.false_eq_true, if_false]
  refine Program.atLeast_bind (m := 0)
    (R := fun o t => (∃ v, o = .value v) ∧ t.1.Printing ∧ t.1.ctx.task.pid = m.ctx.task.pid) ?_ ?_
  · apply atLeast_act (a := .served)
    refine Program.atLeast_bind (m := 0) (Program.atLeast_catching (Q := fun r t => (∃ v, r = .ok v) ∧
      t = (m.counted.setShared (m.counted.shared.writeOutput 1 data), w)) ?_) ?_
    · exact hwrite.mono le_rfl fun v t ht => ⟨⟨v, rfl⟩, ht⟩
    · rintro r t ⟨⟨v, rfl⟩, rfl⟩
      have hdescs : (m.counted.shared.writeOutput 1 data).descs = m.shared.descs := rfl
      have hflag : (m.counted.setShared (m.counted.shared.writeOutput 1 data)).settled.flagged =
          (m.counted.setShared (m.counted.shared.writeOutput 1 data)).settled := if_pos h.quiet
      refine Program.atLeast_run (conclude_ok x v _ w) ⟨⟨v, rfl⟩, ?_, ?_⟩
      · rw [hflag]
        exact h.keep rfl hdescs rfl rfl rfl rfl
      · rw [hflag]
        rfl
  · rintro o t ⟨⟨v, rfl⟩, ht⟩
    exact Program.atLeast_ret ht

theorem weighed_onProc {α : Type} {index : ℕ} (q : Program sig Stop α) : ∀ {k : Kernel} {p : Proc} {w : W},
    k.procs[index]? = some p →
    (onProc index q).weighed (kexec x) KOp.prints (k, w) = q.weighed (exec x) Op.prints
      (k.machineOf p, w) := by
  induction q with
  | ret a => exact fun _ => rfl
  | fail e => exact fun _ => rfl
  | call o f ih =>
    intro k p w hp
    have hfirst : KOp.prints (.machine index o) (k, w) = Op.prints o (k.machineOf p, w) := by
      cases o with
      | env c => rfl
      | act a => simp [KOp.prints, KOp.writes, Op.prints, hp]
    have hnext := ih (exec x o (k.machineOf p, w)).1
      (k := k.putMachine index (exec x o (k.machineOf p, w)).2.1)
      (w := (exec x o (k.machineOf p, w)).2.2) (Kernel.putMachine_proc hp _)
    have hstep := kexec_machine x hp o w
    simp only [Program.weighed, onProc, Program.relabel] at hnext ⊢
    rw [hfirst, hstep]
    exact congrArg _ hnext

theorem atLeast_onProc {α : Type} {index n : ℕ} {q : Program sig Stop α} {k : Kernel} {p : Proc}
    {R : α → Machine × W → Prop} (hp : k.procs[index]? = some p)
    (h : Program.AtLeast (exec x) Op.prints n q (k.machineOf p, w) R) :
    Program.AtLeast (kexec x) KOp.prints n (onProc index q) (k, w) fun a t => ∃ (m : Machine),
      t.1 = (k.putMachine index m) ∧ R a (m, t.2) := by
  obtain ⟨a, t, hrun, hn, hr⟩ := h
  have hon := run_onProc hp w hrun
  exact ⟨_, _, hon, (weighed_onProc q hp).symm ▸ hn, t.1, rfl, hr⟩

theorem printing_runActs (n : ℕ) : ∀ {m : Machine}, m.Printing → Program.AtLeast (exec x) Op.prints n
    (runActs (List.replicate n (.syscall 64 0)) : Program sig Stop Unit) (m, w) fun _ t =>
      t.1.Printing ∧ t.1.ctx.task.pid = m.ctx.task.pid := by
  induction n generalizing w with
  | zero => exact fun h => Program.atLeast_ret ⟨h, rfl⟩
  | succ n ih =>
    intro m h
    rw [List.replicate_succ, runActs, Nat.add_comm]
    refine Program.atLeast_bind (printing_guestAct h) fun _ t ht => ?_
    exact (ih (w := t.2) ht.1).mono le_rfl fun _ u hu => ⟨hu.1, hu.2.trans ht.2⟩

variable {k : Kernel} {p : Proc} {n : ℕ}

theorem atLeast_kact {α : Type} {a : KAct} {f : a.Ans → Sched α} {s : Kernel × W} {Q : α → Kernel × W → Prop}
    (h : Program.AtLeast (kexec x) KOp.prints n (f (a.exec s.1).1) ((a.exec s.1).2, s.2) Q) :
    Program.AtLeast (kexec x) KOp.prints n (kact a >>= f) s Q := by
  have hcall : (kact a >>= f) = Program.call (KOp.act a : ksig.Op) f := rfl
  rw [hcall]
  exact Program.atLeast_call h

theorem atLeast_kenv {α : Type} {c : KCall} {f : c.Ans → Sched α} {s : Kernel × W} {Q : α → Kernel × W → Prop}
    (h : Program.AtLeast (kexec x) KOp.prints n (f (c.answer x s.2).1) (s.1, (c.answer x s.2).2) Q) :
    Program.AtLeast (kexec x) KOp.prints n (kenv c >>= f) s Q := by
  have hcall : (kenv c >>= f) = Program.call (KOp.env c : ksig.Op) f := rfl
  rw [hcall]
  exact Program.atLeast_call h

def Kernel.Alone (k : Kernel) (pid : ℤ) : Prop := ∃ p, k.procs = [p] ∧ p.ctx.task.pid = pid

theorem atLeast_enter (hp : k.procs = [p]) (hprints : (k.machineOf p).Printing) {w₁ : W}
    (hguest : x.guest p.inst w = (⟨List.replicate n (.syscall 64 0), none⟩, w₁)) :
    Program.AtLeast (kexec x) KOp.prints n (Scheduler.enter 0) (k, w) fun step t =>
      step = .ended (statusExited 0) ∧ t.1.Alone p.ctx.task.pid := by
  have hat : k.procs[0]? = some p := by rw [hp]; rfl
  have hinst : ((KAct.inst 0).exec k).1 = some p.inst := by simp [KAct.exec, hat]
  unfold Scheduler.enter
  apply atLeast_kact
  rw [hinst]
  have hsame : ((KAct.inst 0).exec k).2 = k := rfl
  have hanswer : (KCall.guest p.inst).answer x w = (⟨List.replicate n (.syscall 64 0), none⟩, w₁) := hguest
  apply atLeast_kenv
  simp only [hsame, hanswer]
  refine Program.atLeast_bind (m := 0) (atLeast_onProc hat (printing_runActs n hprints)) fun _ t ht => ?_
  obtain ⟨m, hkernel, hprinting, hpid⟩ := ht
  obtain ⟨k', w'⟩ := t
  have hprocs : k'.procs = [{ p with ctx := m.ctx, inst := m.inst }] := by
    rw [show k' = (k.putMachine 0 m) from hkernel]
    simp only [Kernel.putMachine, Kernel.modifyProc, hp, List.modify_zero_cons]
  have hgoing : m.ctx.exec.suspension = none := hprinting.going
  have hsuspended : ((KAct.takeSuspension 0).exec k').1 = none := by simp [KAct.exec, hprocs, hgoing]
  have hleft : ((KAct.takeSuspension 0).exec k').2.Alone p.ctx.task.pid := by
    simp only [KAct.exec, Kernel.modifyProc, hprocs, List.modify_zero_cons]
    exact ⟨_, rfl, hpid⟩
  unfold Scheduler.afterReturn
  apply atLeast_kact
  rw [hsuspended]
  show Program.AtLeast (kexec x) KOp.prints 0 (.ret (.ended (statusExited 0)) : Sched ProcStep) _ _
  exact Program.atLeast_ret ⟨rfl, hleft⟩

theorem atLeast_closeFiles (handles : List Handle) {Q : Unit → Kernel × W → Prop} :
    ∀ {w : W}, (∀ w, Q () (k, w)) →
    Program.AtLeast (kexec x) KOp.prints 0 (Scheduler.closeFiles handles) (k, w) Q := by
  induction handles with
  | nil => exact fun hQ => Program.atLeast_ret (hQ _)
  | cons handle rest ih => exact fun hQ => atLeast_kenv (ih hQ)

/-- The turn of a process that writes and returns. -/
theorem atLeast_stepAndPark (turns : ℕ) (hp : k.procs = [p]) (hparked : p.parked = false)
    (hhost : p.host = none) (hresume : p.resume = .fresh) (hpid : p.ctx.task.pid = 1)
    (hprints : (k.machineOf p).Printing) {w₁ : W}
    (hguest : x.guest p.inst w = (⟨List.replicate n (.syscall 64 0), none⟩, w₁)) :
    Program.AtLeast (kexec x) KOp.prints n (Scheduler.stepAndPark turns 0) (k, w) fun step t =>
      step = .ended (statusExited 0) ∧ t.1.Alone 1 := by
  have hlook : (KAct.look.exec k).2 = k := rfl
  have hattach : (KAct.attach 0).exec k = (some (.guest .fresh),
      k.modifyProc 0 fun p => { p with resume := .fresh }) := by
    simp [KAct.exec, hp, hparked, hhost, hresume]
  have hprocs : (k.modifyProc 0 fun p => { p with resume := .fresh }).procs =
      [{ p with resume := .fresh }] := by
    simp only [Kernel.modifyProc, hp, List.modify_zero_cons]
  unfold Scheduler.stepAndPark
  apply atLeast_kact
  refine Program.atLeast_bind (m := 0) (R := fun step t => step = .ended (statusExited 0) ∧ t.1.Alone 1) ?_ ?_
  · unfold Scheduler.stepProcess
    apply atLeast_kact
    simp only [hlook, hattach]
    rw [← hpid]
    exact atLeast_enter (p := { p with resume := .fresh }) hprocs
      (hprints.keep rfl rfl rfl rfl rfl rfl) hguest
  · rintro step ⟨k', w'⟩ ⟨rfl, q, hq, hpid'⟩
    have hended : ∀ external, ((KAct.endStep 0 external).exec k').2.Alone 1 := by
      intro external
      replace hq : k'.procs = [q] := hq
      simp only [KAct.exec, Kernel.modifyProc, hq, List.modify_zero_cons]
      exact ⟨_, rfl, hpid'⟩
    apply atLeast_kact
    apply atLeast_kact
    exact Program.atLeast_ret ⟨rfl, hended _⟩

theorem atLeast_run (hp : k.procs = [p]) (hspawn : k.shared.spawn = [])
    (hclock : k.shared.limits.wallClock = none) (hhost : p.host = none) (hresume : p.resume = .fresh)
    (hpid : p.ctx.task.pid = 1) (hprints : (k.machineOf p).Printing) {w₁ : W}
    (hguest : x.guest p.inst w = (⟨List.replicate n (.syscall 64 0), none⟩, w₁)) :
    Program.AtLeast (kexec x) KOp.prints n (Scheduler.run 3 ⟨none, none⟩) (k, w) fun slice _ =>
      ∃ status, slice = .finished status := by
  obtain ⟨k', hbegun⟩ : ∃ k', (KAct.beginRun.exec k).2 = k' := ⟨_, rfl⟩
  have hp' : k'.procs = [{ p with parked := false }] := by
    rw [← hbegun]
    simp only [KAct.exec, hp, List.map_cons, List.map_nil]
  have hspawn' : k'.shared.spawn = [] := by rw [← hbegun]; exact hspawn
  have hclock' : k'.shared.limits.wallClock = none := by rw [← hbegun]; exact hclock
  have hprints' : (k'.machineOf { p with parked := false }).Printing := by
    rw [← hbegun]
    exact hprints.keep rfl rfl rfl rfl rfl rfl
  have hlook : ∀ k : Kernel, (KAct.look.exec k).2 = k := fun _ => rfl
  have hview : ∀ k : Kernel, (KAct.look.exec k).1 = k.look := fun _ => rfl
  have hspawned : k'.look.spawned = 0 := by
    show k'.shared.spawn.length = 0
    rw [hspawn']
    rfl
  have hcount : k'.look.count = 1 := by
    show k'.procs.length = 1
    rw [hp']
    rfl
  unfold Scheduler.run
  apply atLeast_kact
  apply atLeast_kact
  simp only [hlook, hbegun]
  unfold Scheduler.passes
  apply atLeast_kact
  simp only [hlook, hview, hspawned, Scheduler.startPending, Program.ret_bind]
  rw [← Nat.zero_add n]
  refine Program.atLeast_bind (R := fun late t => late = false ∧ t = (k', w)) ?_ ?_
  · have hnever : Scheduler.pastDeadline.run (kexec x) (k', w) = (.ok false, (k', w)) := by
      have hlimit : (KAct.look.exec k').1.limits.wallClock = none := hclock'
      simp only [Scheduler.pastDeadline, kact, Program.call_bind, Program.ret_bind, Program.run_call,
        kexec_act, hlimit]
      rfl
    exact Program.atLeast_run hnever ⟨rfl, rfl⟩
  · rintro _ _ ⟨rfl, rfl⟩
    apply atLeast_kact
    simp only [hlook, hview, hcount]
    refine Program.atLeast_bind (m := 0) (R := fun pass _ => ∃ status, pass = .finished status) ?_ ?_
    · unfold Scheduler.pass
      apply atLeast_kact
      simp only [hlook, hview, hcount]
      rw [if_neg (by decide)]
      refine Program.atLeast_bind
        (m := 0) (atLeast_stepAndPark 2 hp' rfl hhost hresume hpid hprints' hguest) ?_
      rintro _ ⟨l, v⟩ ⟨rfl, q, hq, hq1⟩
      obtain ⟨status, hended⟩ :
          ∃ status, ((KAct.finishProcess 0 (statusExited 0)).exec l).2.exitStatus = some status := by
        replace hq : l.procs = [q] := hq
        simp only [KAct.exec, Kernel.finishProcess, hq, List.getElem?_cons_zero, List.eraseIdx_zero,
          List.tail_cons, or_true, if_true]
        cases l.exitStatus with
        | none => exact ⟨_, rfl⟩
        | some status => exact ⟨status, rfl⟩
      apply atLeast_kact
      have hclosed : ∀ handles v, Program.AtLeast (kexec x) KOp.prints 0 (Scheduler.closeFiles handles)
          (((KAct.finishProcess 0 (statusExited 0)).exec l).2, v) fun _ t => t.1.exitStatus = some status :=
        fun handles v => atLeast_closeFiles handles fun _ => hended
      refine Program.atLeast_bind (n := 0) (m := 0) (hclosed _ _) ?_
      intro _ t ht
      apply atLeast_kact
      have hexit : t.1.look.exitStatus = some status := ht
      simp only [hlook, hview, hexit]
      exact Program.atLeast_ret ⟨status, rfl⟩
    · rintro _ t ⟨status, rfl⟩
      exact Program.atLeast_ret ⟨status, rfl⟩

end

def Config.muted : Config :=
    { Config.bare [.guest 0] with limits := { (Config.bare []).limits with output := 0 } }

/-- A guest that writes a byte to the standard output, over and over. Nothing of it is kept. -/
theorem captured_writes (n : ℕ) :
    ∃ (s t : Session) (w w' : List GuestRun) (written taken : Stream → Bytes) (output : Output),
    Captured Env.writesOnce Config.muted s w written taken ∧
    s.step Env.writesOnce 3 ⟨none, none⟩ w = .ok (.ok (.done output), t, w') ∧ output.dropped ≤ u64Max ∧
    n ≤ (written .stdout ++ writtenBy Env.writesOnce (Scheduler.run 3 ⟨none, none⟩) (s.kernel, w)
      .stdout).length := by
  obtain ⟨k, w, p, hspawn, hp, hnone, hclock, hhost, hresume, hpid, hawake, hforward, hgoing, hquiet, hargs,
    hbyte, hstdout⟩ :
      ∃ (k : Kernel) (w : List GuestRun) (p : Proc), Config.muted.spawn Env.writesOnce [] = some (k, w) ∧
      k.procs = [p] ∧
        k.shared.spawn = [] ∧ k.shared.limits.wallClock = none ∧ p.host = none ∧ p.resume = .fresh ∧
        p.ctx.task.pid = 1 ∧ p.inst.unwinding = false ∧ p.ctx.exec.rewinding = false ∧
        p.ctx.exec.suspension = none ∧
        p.ctx.exec.signalFlag = 0 ∧ Import.readArgs p.inst.mem 0 = .ok ⟨1, 0, 1, 0, 0, 0⟩ ∧
        (∃ data, p.inst.mem.bytes 0 1 = .ok data) ∧
        ∃ entry desc, openFd (k.machineOf p).view 1 = .ok (entry, desc) ∧ desc.writable = true ∧
        desc.kind = .stdout 1 :=
    ⟨_, _, _, rfl, rfl, rfl, rfl, rfl, rfl, rfl, rfl, rfl, rfl,
      rfl, by decide +kernel, ⟨_, rfl⟩, _, _, rfl, rfl, rfl⟩
  obtain ⟨written, hstart⟩ := captured_spawn hspawn
  have hcaptured := Captured.elapse _ _ [⟨List.replicate n (.syscall 64 0), none⟩] _ _ hstart
  obtain ⟨slice, u, hrun, hmany, status, rfl⟩ := atLeast_run (x := Env.writesOnce) (n := n)
    (w := [⟨List.replicate n (.syscall 64 0), none⟩]) hp hnone hclock hhost hresume hpid
    ⟨hawake, hforward, hgoing, hquiet, hargs, hbyte, hstdout⟩ rfl
  have hdone : Session.step Env.writesOnce 3 ⟨none, none⟩ ⟨k, none⟩
    [⟨List.replicate n (.syscall 64 0), none⟩] =
      .ok (.ok (.done (Session.collect ⟨u.1, some status⟩ status).1),
        (Session.collect ⟨u.1, some status⟩ status).2, u.2) := by
    simp only [Session.step, hrun]
    rfl
  refine ⟨_, _, _, _, _, _, _, hcaptured, hdone, Nat.min_le_left _ _, ?_⟩
  rw [← length_writtenBy] at hmany
  rw [List.length_append]
  exact hmany.trans (Nat.le_add_left _ _)

/-- The count of what was dropped stops at its greatest value. -/
theorem dropped_saturates :
    ∃ (s t : Session) (w w' : List GuestRun) (written taken : Stream → Bytes) (output : Output),
    Captured Env.writesOnce Config.muted s w written taken ∧
    s.step Env.writesOnce 3 ⟨none, none⟩ w = .ok (.ok (.done output), t, w') ∧
    output.dropped < (written .stdout ++ writtenBy Env.writesOnce (Scheduler.run 3 ⟨none, none⟩) (s.kernel, w)
      .stdout).length - Config.muted.limits.output := by
  obtain ⟨s, t, w, w', written, taken, output, hcaptured, hdone, hdropped, hmany⟩ := captured_writes (2^64)
  refine ⟨s, t, w, w', written, taken, output, hcaptured, hdone, ?_⟩
  have hlimit : Config.muted.limits.output = 0 := rfl
  have hmax : u64Max < 2^64 := by decide
  rw [hlimit, Nat.sub_zero]
  exact (hdropped.trans_lt hmax).trans_le hmany

end Wasmux
