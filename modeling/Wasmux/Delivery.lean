import Wasmux.Hosts
import Wasmux.Loops
import Wasmux.Weaving

/-!
# The delivery of what a host command wrote

A command hands over its output and its status with its answer. The output is
then written out, over as many turns as it takes, from where the last turn left
off, and the process ends once nothing of it is left to try. The answer and the
writes are noted as a session makes them.
-/

set_option autoImplicit false

namespace Wasmux
open Effects Abi

namespace Offer

def accepted (o : Offer) : Bytes :=
  match o.answer with
  | .ok n => o.data.take n
  | .error _ => []

/-- The write takes nothing, or fails for a reason other than that it has to wait. -/
def Fails (o : Offer) : Prop := o.answer = .ok 0 ∨ ∃ e, e ≠ .block ∧ o.answer = .error e

theorem Fails.count {o : Offer} (h : o.Fails) : o.count = 0 := by
  obtain hzero | ⟨e, -, herror⟩ := h
  · simp [Offer.count, hzero]
  · simp [Offer.count, herror]

theorem Fails.accepted {o : Offer} (h : o.Fails) : o.accepted = [] := by
  obtain hzero | ⟨e, -, herror⟩ := h
  · simp [Offer.accepted, hzero]
  · simp [Offer.accepted, herror]

end Offer

def accepted (fd : ℤ) (log : List Offer) : Bytes := (log.filter fun o => o.fd == fd).flatMap Offer.accepted

def ProcStep.ending : ProcStep → Option ℤ
  | .ended status => some status
  | _ => none

/-- How far the process at `index` is, if it is a host command. -/
def Kernel.hostAt (k : Kernel) (index : ℕ) : Option Phase := (k.procs[index]?).bind fun p =>
    p.host.map HostProc.phase

section
variable {W : Type} (x : Env W) (index : ℕ)

/-- The process at `index` makes the write in one state, and is past what was
taken of it in the other. -/
def Offer.Made (o : Offer) (s u : Kernel × W) : Prop :=
  ∃ t, (onProc index (writeBytes o.fd o.data).catching : Sched (Except Fault ℕ)).run (kexec x) s =
    (.ok o.answer, t) ∧
    u = (kexec x (.act (.advance index o)) t).2

/-- The writes of one stream in a turn, from one place in it to another. -/
inductive Flushing (fd : ℤ) (bytes : Bytes) : ℕ → Kernel × W → List Offer → Scheduler.Flushed → ℕ →
    Kernel × W → Prop
  | all (done : ℕ) (s : Kernel × W) : bytes.length ≤ done → Flushing fd bytes done s [] .finished done s
  | took (done n last : ℕ) (s t u : Kernel × W) (log : List Offer) (r : Scheduler.Flushed) :
      done < bytes.length → n ≠ 0 → Offer.Made x index ⟨fd, bytes.drop done, .ok n⟩ s t →
      Flushing fd bytes (done + n) t log r last u →
      Flushing fd bytes done s (⟨fd, bytes.drop done, .ok n⟩ :: log) r last u
  | failed (done : ℕ) (s t : Kernel × W) (o : Offer) :
      done < bytes.length → o.fd = fd → o.data = bytes.drop done →
      o.Fails → o.Made x index s t → Flushing fd bytes done s [o] .finished done t
  | waits (done : ℕ) (s t : Kernel × W) : done < bytes.length →
      Offer.Made x index ⟨fd, bytes.drop done, .error .block⟩ s t →
      Flushing fd bytes done s [⟨fd, bytes.drop done, .error .block⟩] .blocked done t

/-- The writes of a turn, with what comes of it and how far they get in the two streams. -/
inductive Emitting (status : ℤ) (stdout stderr : Bytes) (outDone errDone : ℕ) (s : Kernel × W) :
    List Offer → ProcStep → ℕ → ℕ → Kernel × W → Prop
  | outWaits (log : List Offer) (outLast : ℕ) (t : Kernel × W) :
      Flushing x index 1 stdout outDone s log .blocked outLast t →
      Emitting status stdout stderr outDone errDone s log .stuck outLast errDone t
  | errWaits (log more : List Offer) (outLast errLast : ℕ) (t u : Kernel × W) :
      Flushing x index 1 stdout outDone s log .finished outLast t →
      Flushing x index 2 stderr errDone t more .blocked errLast u →
      Emitting status stdout stderr outDone errDone s (log ++ more) .stuck outLast errLast u
  | ends (log more : List Offer) (outLast errLast : ℕ) (t u : Kernel × W) :
      Flushing x index 1 stdout outDone s log .finished outLast t →
      Flushing x index 2 stderr errDone t more .finished errLast u →
      Emitting status stdout stderr outDone errDone s (log ++ more) (.ended status) outLast errLast u

end

/-- What there is to deliver after the answer of a command: what it wrote, and the
low eight bits of what it returned, or what is said where it could not be run. -/
inductive Owed : Except Errno HostExit → ℤ → Bytes → Bytes → Prop
  | ok (exit : HostExit) : Owed (.ok exit) (256 * (exit.status % 256)) exit.stdout exit.stderr
  | error (comm : Text) (e : Errno) : e ≠ .again →
      Owed (.error e) (statusExited 126) [] (ascii "wasmux: " ++ comm ++ ascii ": " ++ e.name ++ ascii "\n")

/-- What is noted of a process: the answer of its command, and its writes since. -/
structure Delivery where
  answer : Option (Except Errno HostExit)
  log : List Offer

def delivering : Chronicle Delivery where
  fresh := ⟨none, []⟩
  machine _ _ _ t := t
  act a _ t := match a with
    | .advance _ offer => { t with log := t.log ++ [offer] }
    | _ => t
  command _ answer t := if deferred answer then t else { t with answer := some answer }

/-- The output is handed over in order and once, and the process ends with its status after it. -/
structure InOrder (status : ℤ) (stdout stderr : Bytes) (log : List Offer) (ended : Option ℤ) : Prop where
  out : accepted 1 log <+: stdout
  err : accepted 2 log <+: stderr
  first : (∀ o ∈ log, ¬ o.Fails) → ∃ before after, log = before ++ after ∧ (∀ o ∈ before, o.fd = 1) ∧
    (∀ o ∈ after, o.fd = 2) ∧ (after ≠ [] → accepted 1 before = stdout)
  complete : (∀ o ∈ log, ¬ o.Fails) → ended.isSome = true → accepted 1 log = stdout ∧ accepted 2 log = stderr
  status : ∀ code, ended = some code → code = status
  waits : ended = none → ∃ o, log.getLast? = some o ∧ o.answer = .error .block

/-- A turn of the process at `index` comes to where it writes, with so much written
before, makes its writes, and is then as far as they are. -/
structure Written {W : Type} (x : Env W) (index : ℕ) (p : Sched ProcStep) (s : (Kernel × W) × List Delivery)
    (log : List Offer) (note : Delivery) (step : ProcStep) (status : ℤ) (stdout stderr : Bytes)
    (outDone errDone : ℕ) (t : (Kernel × W) × List Delivery) : Prop where
  answered : ∃ answer, note.answer = some answer ∧ Owed answer status stdout stderr
  cursors : t.1.1.hostAt index = some (.flushing status stdout stderr outDone errDone)
  writes : ∃ u outFrom errFrom more,
    Program.Comes (delivering.history.exec x) p s (Scheduler.flushAll index) u ∧
    u.1.1.hostAt index = some (.flushing status stdout stderr outFrom errFrom) ∧
    Emitting x index status stdout stderr outFrom errFrom u.1 more step outDone errDone t.1 ∧
    note.log = log ++ more
  inOrder : InOrder status stdout stderr note.log step.ending

/-! ## What has been written -/

theorem accepted_append (fd : ℤ) (log more : List Offer) :
    accepted fd (log ++ more) = accepted fd log ++ accepted fd more := by
  simp [accepted]

theorem accepted_same {fd : ℤ} {log : List Offer} (h : ∀ o ∈ log, o.fd = fd) :
    accepted fd log = log.flatMap Offer.accepted := by
  unfold accepted
  rw [List.filter_eq_self.mpr]
  intro o ho
  simp [h o ho]

theorem accepted_other {fd : ℤ} {log : List Offer} (h : ∀ o ∈ log, o.fd ≠ fd) : accepted fd log = [] := by
  unfold accepted
  rw [List.filter_eq_nil_iff.mpr]
  · rfl
  · intro o ho
    simp [h o ho]

theorem getLast?_append_of_some {log more : List Offer} {o : Offer} (h : more.getLast? = some o) :
    (log ++ more).getLast? = some o := by
  rw [List.getLast?_append, h]
  rfl

namespace Flushing
variable {W : Type} {x : Env W} {index : ℕ} {fd : ℤ} {bytes : Bytes} {done last : ℕ}
  {s t : Kernel × W} {log : List Offer}
  {r : Scheduler.Flushed}

theorem fds (h : Flushing x index fd bytes done s log r last t) : ∀ o ∈ log, o.fd = fd := by
  induction h with
  | all => simp
  | took _ _ _ _ _ _ _ _ _ _ _ _ ih => simpa using ih
  | failed _ _ _ o _ hfd => simpa using hfd
  | waits => simp

theorem stream (h : Flushing x index fd bytes done s log r last t) :
    bytes.take done ++ log.flatMap Offer.accepted = bytes.take last := by
  induction h with
  | all => simp
  | took done n last s t u log r _ _ _ _ ih =>
    calc bytes.take done ++ (⟨fd, bytes.drop done, .ok n⟩ :: log).flatMap Offer.accepted
        = (bytes.take done ++ (bytes.drop done).take n) ++ log.flatMap Offer.accepted := by
          simp [Offer.accepted]
      _ = bytes.take (done + n) ++ log.flatMap Offer.accepted := by rw [List.take_add]
      _ = bytes.take last := ih
  | failed done s t o _ _ _ hfails => simp [hfails.accepted]
  | waits => simp [Offer.accepted]

theorem idle (h : Flushing x index fd bytes done s log r last t) (hdone : bytes.length ≤ done) :
    log = [] ∧ r = .finished ∧ last = done := by
  cases h with
  | all => exact ⟨rfl, rfl, rfl⟩
  | took _ _ _ _ _ _ _ hmore => omega
  | failed _ _ _ hmore => omega
  | waits _ _ hmore => omega

theorem whole (h : Flushing x index fd bytes done s log r last t) (hr : r = .finished)
    (hlog : ∀ o ∈ log, ¬ o.Fails) :
    bytes.length ≤ last := by
  induction h with
  | all _ _ hdone => exact hdone
  | took _ _ _ _ _ _ _ _ _ _ _ _ ih => exact ih hr fun o ho => hlog o (List.mem_cons_of_mem _ ho)
  | failed _ _ _ o _ _ _ hfails => exact absurd hfails (hlog o (List.mem_singleton_self o))
  | waits => cases hr

theorem waits_last (h : Flushing x index fd bytes done s log r last t) (hr : r = .blocked) :
    ∃ o, log.getLast? = some o ∧ o.answer = .error .block := by
  induction h with
  | all => cases hr
  | took _ _ _ _ _ _ log _ _ _ _ _ ih =>
    obtain ⟨o, ho, hanswer⟩ := ih hr
    exact ⟨o, by rw [List.getLast?_cons, ho]; rfl, hanswer⟩
  | failed => cases hr
  | waits => exact ⟨_, rfl, rfl⟩

end Flushing

/-- What was written is what the cursors are past, and the second stream is not
begun before the end of the first where no write fails. -/
structure Tracks (stdout stderr : Bytes) (log : List Offer) (outDone errDone : ℕ) : Prop where
  out : accepted 1 log = stdout.take outDone
  err : accepted 2 log = stderr.take errDone
  first : (∀ o ∈ log, ¬ o.Fails) → ∃ before after, log = before ++ after ∧ (∀ o ∈ before, o.fd = 1) ∧
    (∀ o ∈ after, o.fd = 2) ∧ (after ≠ [] → stdout.length ≤ outDone)

section
variable {W : Type} {x : Env W} {stdout stderr : Bytes} {log : List Offer} {outDone errDone last index : ℕ}
    {s t : Kernel × W}

namespace Tracks
variable {more : List Offer} {r : Scheduler.Flushed}

theorem begin : Tracks stdout stderr [] 0 0 where
  out := rfl
  err := rfl
  first _ := ⟨[], [], by simp⟩

theorem writesOut (h : Tracks stdout stderr log outDone errDone)
    (hmore : Flushing x index 1 stdout outDone s more r last t) :
    Tracks stdout stderr (log ++ more) last errDone where
  out := by rw [accepted_append, h.out, accepted_same hmore.fds, hmore.stream]
  err := by rw [accepted_append, h.err, accepted_other fun o ho => by
    rw [hmore.fds o ho]; decide, List.append_nil]
  first := by
    intro hlog
    obtain ⟨before, after, rfl, hbefore, hafter, hwhole⟩ := h.first fun o ho =>
      hlog o (List.mem_append_left _ ho)
    by_cases hnil : after = []
    · subst hnil
      refine ⟨before ++ more, [], by simp, ?_, hafter, fun hnot => absurd rfl hnot⟩
      intro o ho
      exact (List.mem_append.mp ho).elim (hbefore o) (hmore.fds o)
    · obtain ⟨rfl, -, rfl⟩ := hmore.idle (hwhole hnil)
      exact ⟨before, after, List.append_nil _, hbefore, hafter, hwhole⟩

theorem writesErr (h : Tracks stdout stderr log outDone errDone)
    (hwhole : (∀ o ∈ log, ¬ o.Fails) → stdout.length ≤ outDone)
    (hmore : Flushing x index 2 stderr errDone s more r last t) :
    Tracks stdout stderr (log ++ more) outDone last where
  out := by rw [accepted_append, h.out, accepted_other fun o ho => by
    rw [hmore.fds o ho]; decide, List.append_nil]
  err := by rw [accepted_append, h.err, accepted_same hmore.fds, hmore.stream]
  first := by
    intro hlog
    have hold : ∀ o ∈ log, ¬ o.Fails := fun o ho => hlog o (List.mem_append_left _ ho)
    obtain ⟨before, after, rfl, hbefore, hafter, -⟩ := h.first hold
    refine ⟨before, after ++ more, List.append_assoc _ _ _, hbefore, ?_, fun _ => hwhole hold⟩
    intro o ho
    exact (List.mem_append.mp ho).elim (hafter o) (hmore.fds o)

theorem writesBoth {first second : List Offer} {outLast errLast : ℕ} {u : Kernel × W}
    (h : Tracks stdout stderr log outDone errDone)
    (hout : Flushing x index 1 stdout outDone s first .finished outLast t)
    (herr : Flushing x index 2 stderr errDone t second r errLast u) :
    Tracks stdout stderr (log ++ (first ++ second)) outLast errLast ∧
    ((∀ o ∈ log ++ (first ++ second), ¬ o.Fails) → stdout.length ≤ outLast) := by
  have hwhole : (∀ o ∈ log ++ first, ¬ o.Fails) → stdout.length ≤ outLast :=
    fun hlog => hout.whole rfl fun o ho => hlog o (List.mem_append_right _ ho)
  rw [← List.append_assoc]
  exact ⟨(h.writesOut hout).writesErr hwhole herr, fun hlog => hwhole fun o ho =>
    hlog o (List.mem_append_left _ ho)⟩

end Tracks

namespace Emitting
variable {status : ℤ} {more : List Offer} {step : ProcStep} {outLast errLast : ℕ}

theorem tracks (h : Emitting x index status stdout stderr outDone errDone s more step outLast errLast t)
    (hlog : Tracks stdout stderr log outDone errDone) :
    Tracks stdout stderr (log ++ more) outLast errLast := by
  cases h with
  | outWaits _ _ _ hout => exact hlog.writesOut hout
  | errWaits _ _ _ _ _ _ hout herr => exact (hlog.writesBoth hout herr).1
  | ends _ _ _ _ _ _ hout herr => exact (hlog.writesBoth hout herr).1

theorem whole (h : Emitting x index status stdout stderr outDone errDone s more step outLast errLast t)
    (hmore : ∀ o ∈ more, ¬ o.Fails) (hended : step.ending.isSome = true) :
    stdout.length ≤ outLast ∧ stderr.length ≤ errLast := by
  cases h with
  | outWaits => cases hended
  | errWaits => cases hended
  | ends _ _ _ _ _ _ hout herr =>
    constructor
    · exact hout.whole rfl fun o ho => hmore o (List.mem_append_left _ ho)
    · exact herr.whole rfl fun o ho => hmore o (List.mem_append_right _ ho)

theorem status_eq (h : Emitting x index status stdout stderr outDone errDone s more step outLast errLast t)
    {code : ℤ} (hcode : step.ending = some code) : code = status := by
  cases h with
  | outWaits => cases hcode
  | errWaits => cases hcode
  | ends => exact (Option.some.inj hcode).symm

theorem waits (h : Emitting x index status stdout stderr outDone errDone s more step outLast errLast t)
    (hended : step.ending = none) : ∃ o, more.getLast? = some o ∧ o.answer = .error .block := by
  cases h with
  | outWaits _ _ _ hout => exact hout.waits_last rfl
  | errWaits _ _ _ _ _ _ _ herr =>
    obtain ⟨o, ho, hanswer⟩ := herr.waits_last rfl
    exact ⟨o, getLast?_append_of_some ho, hanswer⟩
  | ends => cases hended

theorem inOrder (h : Emitting x index status stdout stderr outDone errDone s more step outLast errLast t)
    (hlog : Tracks stdout stderr log outDone errDone) :
    InOrder status stdout stderr (log ++ more) step.ending where
  out := by
    rw [(h.tracks hlog).out]
    exact List.take_prefix _ _
  err := by
    rw [(h.tracks hlog).err]
    exact List.take_prefix _ _
  first := by
    intro hall
    obtain ⟨before, after, heq, hbefore, hafter, hwhole⟩ := (h.tracks hlog).first hall
    refine ⟨before, after, heq, hbefore, hafter, fun hnot => ?_⟩
    have hnone : accepted 1 after = [] := accepted_other fun o ho => by rw [hafter o ho]; decide
    calc accepted 1 before
        = accepted 1 (before ++ after) := by rw [accepted_append, hnone, List.append_nil]
      _ = stdout.take outLast := by rw [← heq, (h.tracks hlog).out]
      _ = stdout := List.take_of_length_le (hwhole hnot)
  complete := by
    intro hall hended
    obtain ⟨hout, herr⟩ := h.whole (fun o ho => hall o (List.mem_append_right _ ho)) hended
    rw [(h.tracks hlog).out, (h.tracks hlog).err]
    exact ⟨List.take_of_length_le hout, List.take_of_length_le herr⟩
  status code hcode := h.status_eq hcode
  waits hended := by
    obtain ⟨o, ho, hanswer⟩ := h.waits hended
    exact ⟨o, getLast?_append_of_some ho, hanswer⟩

end Emitting

end

/-! ## A turn with its notes -/

/-- What is noted of a host command that has come this far. -/
def Phase.Accounts (t : Delivery) : Phase → Prop
  | .reading _ => t.log = []
  | .flushing status stdout stderr outDone errDone =>
    (∃ answer, t.answer = some answer ∧ Owed answer status stdout stderr) ∧
      Tracks stdout stderr t.log outDone errDone

def Proc.Accounts (p : Proc) (t : Delivery) : Prop := ∀ host, p.host = some host → host.phase.Accounts t

section
variable {W : Type} {x : Env W} {index : ℕ} {phase : Phase} {note : Delivery}
    {s t : (Kernel × W) × List Delivery}

/-- In its turn the host command at `index` has come this far, with this noted of it. -/
def HostTurn (index : ℕ) (phase : Phase) (note : Delivery) (s : (Kernel × W) × List Delivery) : Prop :=
  Chronicle.Amid Proc.Accounts (fun p t => (∃ host, p.host = some host ∧ host.phase = phase) ∧
    t = note) index s.1.1 s.2

namespace HostTurn

theorem hostAt (h : HostTurn index phase note s) : s.1.1.hostAt index = some phase := by
  obtain ⟨p, t, hp, -, ⟨host, hhost, rfl⟩, -⟩ := h.here
  simp [Kernel.hostAt, hp, hhost]

theorem noted (h : HostTurn index phase note s) : s.2[index]? = some note := by
  obtain ⟨p, t, -, ht, -, rfl⟩ := h.here
  exact ht

theorem view (h : HostTurn index phase note s) : ∃ command reads argv envp cwd comm,
    (kact (.host index)).run (delivering.history.exec x) s =
      (.ok (some ⟨⟨command, reads, phase⟩, argv, envp, cwd, comm⟩), s) := by
  obtain ⟨⟨k, w⟩, ts⟩ := s
  obtain ⟨p, t, hp, -, ⟨⟨command, reads, phase⟩, hhost, rfl⟩, -⟩ := h.here
  refine ⟨command, reads, p.ctx.argv, p.ctx.envp, p.ctx.task.cwd, p.ctx.task.comm, ?_⟩
  have hview : ((KAct.host index).exec k) =
      (some ⟨⟨command, reads, phase⟩, p.ctx.argv, p.ctx.envp, p.ctx.task.cwd, p.ctx.task.comm⟩, k) := by
    simp [KAct.exec, show k.procs[index]? = some p from hp, hhost]
  show (Except.ok ((KAct.host index).exec k).1, (((KAct.host index).exec k).2, w), ts) = _
  rw [hview]

theorem machine (h : HostTurn index phase note s) (o : Op) :
    HostTurn index phase note (delivering.history.exec x (.machine index o) s).2 := by
  obtain ⟨⟨k, w⟩, ts⟩ := s
  obtain ⟨p, t, hp, -, -, -⟩ := h.here
  have hexec : (delivering.history.exec x (.machine index o) ((k, w), ts)).2 =
      ((k.putMachine index (exec x o (k.machineOf p, w)).2.1, (exec x o (k.machineOf p, w)).2.2),
        ts.modify index fun t => t) := by
    unfold History.exec Program.noting
    rw [kexec_machine x hp]
    simp only [Chronicle.history, hp]
    rfl
  rw [hexec]
  exact h.modify rfl fun _ _ _ hP => hP

theorem advance (h : HostTurn index phase note s) (o : Offer) :
    HostTurn index (Kernel.Phase.advance o.fd o.count phase) { note with log := note.log ++ [o] }
      (delivering.history.exec x (.act (.advance index o)) s).2 := by
  refine h.acted (a := .advance index o) rfl ?_
  rintro p t - ⟨⟨host, hhost, rfl⟩, rfl⟩
  exact ⟨⟨_, congrArg (Option.map _) hhost, rfl⟩, rfl⟩

theorem setPhase (h : HostTurn index phase note s) (phase' : Phase) :
    HostTurn index phase' note (delivering.history.exec x (.act (.setPhase index phase')) s).2 := by
  refine h.acted (a := .setPhase index phase') rfl ?_
  rintro p t - ⟨⟨host, hhost, -⟩, rfl⟩
  exact ⟨⟨_, congrArg (Option.map _) hhost, rfl⟩, rfl⟩

theorem appendInput {buffer : Bytes} (h : HostTurn index (.reading buffer) note s) (chunk : Bytes) :
    HostTurn index (.reading (buffer ++ chunk)) note
    (delivering.history.exec x (.act (.appendInput index chunk)) s).2 := by
  refine h.acted (a := .appendInput index chunk) rfl ?_
  rintro p t - ⟨⟨host, hhost, hphase⟩, rfl⟩
  refine ⟨⟨_, congrArg (Option.map _) hhost, ?_⟩, rfl⟩
  simp [hphase]

theorem noteHostPending (h : HostTurn index phase note s) :
    HostTurn index phase note (delivering.history.exec x (.act .noteHostPending) s).2 :=
  Chronicle.Amid.seen (H := delivering) (a := .noteHostPending) rfl rfl h

theorem command (h : HostTurn index phase note s) (c : ℕ) (call : Invocation) :
    HostTurn index phase (delivering.command call (x.command c call s.1.2).1 note)
      (delivering.history.exec x (.env (.command index c call)) s).2 := by
  obtain ⟨⟨k, w⟩, ts⟩ := s
  have hsame : k.procs = k.procs.modify index fun p => p := (List.modify_id _ _).symm
  refine h.modify hsame ?_
  rintro p t - ⟨hphase, rfl⟩
  exact ⟨hphase, rfl⟩

theorem own (h : HostTurn index phase note s) {α : Type} (p : Program sig Stop α) :
    HostTurn index phase note (Program.final (delivering.history.exec x) (onProc index p) s) := by
  have honly : (onProc index p).Only fun o => ∃ op, o = KOp.machine index op :=
    only_onProc (D := fun _ => True) (fun op _ => ⟨op, rfl⟩) (Program.only_of_forall (fun _ => trivial) _)
  refine honly.final_keeps (delivering.history.exec x) (P := HostTurn index phase note) ?_ h
  rintro _ u ⟨op, rfl⟩ hu
  exact hu.machine op

theorem each (h : HostTurn index phase note s) (hphase : phase.Accounts note) :
    Chronicle.Each Proc.Accounts s.1.1 s.2 := by
  refine Chronicle.Amid.each h ?_
  rintro p t ⟨⟨host, hhost, rfl⟩, rfl⟩ host' hhost'
  obtain rfl := Option.some.inj (hhost.symm.trans hhost')
  exact hphase

end HostTurn

theorem run_unnoted {α : Type} {p : Sched α} {r : Except Stop α}
    (h : p.run (delivering.history.exec x) s = (r, t)) :
    p.run (kexec x) s.1 = (r, t.1) := by
  obtain ⟨ts, hrun⟩ := delivering.history.run_exec x p s.1 s.2
  obtain ⟨rfl, rfl⟩ := Prod.mk.inj (hrun.symm.trans h)
  rfl

theorem HostTurn.write (h : HostTurn index phase note s) (x : Env W) (fd : ℤ) (data : Bytes) : ∃ answer t u,
    (onProc index (writeBytes fd data).catching : Sched (Except Fault ℕ)).run (delivering.history.exec x)
    s = (.ok answer, t) ∧
    (kact (.advance index ⟨fd, data, answer⟩)).run (delivering.history.exec x) t = (.ok (), u) ∧
    Offer.Made x index ⟨fd, data, answer⟩ s.1 u.1 ∧
    HostTurn index (Kernel.Phase.advance fd (Offer.count ⟨fd, data, answer⟩) phase)
      { note with log := note.log ++ [⟨fd, data, answer⟩] } u := by
  have htotal : (onProc index (writeBytes fd data).catching : Sched (Except Fault ℕ)).Total :=
    Program.total_relabel (Program.total_catching _)
  obtain ⟨answer, hanswer⟩ := htotal.run_ok (delivering.history.exec x) s
  have hwrite : (onProc index (writeBytes fd data).catching : Sched (Except Fault ℕ)).run
    (delivering.history.exec x) s =
    (.ok answer, Program.final (delivering.history.exec x) _ s) := Prod.ext hanswer rfl
  refine ⟨answer, _, _, hwrite, rfl, ⟨_, run_unnoted hwrite, rfl⟩, ?_⟩
  exact (h.own _).advance ⟨fd, data, answer⟩

/-- With a turn for each byte and one more, a stream is written as far as it can be. -/
theorem run_flush (x : Env W) (index : ℕ) (fd : ℤ) (bytes : Bytes) (phase : ℕ → Phase)
    (hphase : ∀ d n, Kernel.Phase.advance fd n (phase d) = phase (d + n)) (turns : ℕ) :
    ∀ (done : ℕ) (note : Delivery) (s : (Kernel × W) × List Delivery), bytes.length - done < turns →
    HostTurn index (phase done) note s → ∃ log r last t,
      (Scheduler.flush index fd bytes turns done).run (delivering.history.exec x) s = (.ok r, t) ∧
      Flushing x index fd bytes done s.1 log r last t.1 ∧
      HostTurn index (phase last) { note with log := note.log ++ log } t := by
  induction turns with
  | zero => exact fun _ _ _ h => absurd h (Nat.not_lt_zero _)
  | succ turns ih =>
    intro done note s hturns hs
    unfold Scheduler.flush
    by_cases hdone : bytes.length ≤ done
    · rw [if_pos hdone]
      refine ⟨[], .finished, done, s, rfl, .all done s.1 hdone, ?_⟩
      rw [List.append_nil]
      exact hs
    rw [if_neg hdone]
    have hmore : done < bytes.length := by omega
    obtain ⟨answer, t, u, hwrite, hnote, hmade, hu⟩ := hs.write x fd (bytes.drop done)
    rw [Program.run_bind_ok _ hwrite, Program.run_bind_ok _ hnote]
    -- what fails moves nothing on
    have hstays (hfails : Offer.Fails ⟨fd, bytes.drop done, answer⟩) :
        HostTurn index (phase done) { note with log := note.log ++ [⟨fd, bytes.drop done, answer⟩] } u := by
      rwa [hfails.count, hphase, Nat.add_zero] at hu
    rcases answer with e | n
    · by_cases hblock : e = .block
      · subst hblock
        refine ⟨_, .blocked, done, u, rfl, .waits done s.1 u.1 hmore hmade, ?_⟩
        rwa [hphase, show Offer.count ⟨fd, bytes.drop done, .error .block⟩ = 0 from rfl, Nat.add_zero] at hu
      · have hfails : Offer.Fails ⟨fd, bytes.drop done, .error e⟩ := .inr ⟨e, hblock, rfl⟩
        refine ⟨_, .finished, done, u, ?_, .failed done s.1 u.1 _ hmore rfl rfl hfails hmade, hstays hfails⟩
        cases e with
        | block => exact absurd rfl hblock
        | errno | exit | exec => rfl
    · dsimp only
      by_cases hn : n = 0
      · subst hn
        exact ⟨_, .finished, done, u, rfl, .failed done s.1 u.1 _ hmore rfl rfl (.inl rfl) hmade,
          hstays (.inl rfl)⟩
      · rw [if_neg hn]
        rw [hphase] at hu
        obtain ⟨log, r, last, v, hrun, hflushing, hv⟩ := ih (done + n) _ u (by omega) hu
        refine ⟨_, r, last, v, hrun, .took done n last s.1 u.1 v.1 log r hmore hn hmade hflushing, ?_⟩
        simpa only [List.append_assoc, List.singleton_append] using hv

/-- A turn of a host command that has answered is made of writes. -/
theorem run_flushAll (x : Env W) {status : ℤ} {stdout stderr : Bytes} {outDone errDone : ℕ}
    (hs : HostTurn index (.flushing status stdout stderr outDone errDone) note s) :
    ∃ more step outLast errLast t, (Scheduler.flushAll index).run (delivering.history.exec x) s =
      (.ok step, t) ∧
      Emitting x index status stdout stderr outDone errDone s.1 more step outLast errLast t.1 ∧
      HostTurn index (.flushing status stdout stderr outLast errLast) { note with
        log := note.log ++ more } t := by
  obtain ⟨command, reads, argv, envp, cwd, comm, hview⟩ := hs.view (x := x)
  unfold Scheduler.flushAll
  rw [Program.run_bind_ok _ hview]
  dsimp only
  obtain ⟨log, r, outLast, t, hout, hflushed, ht⟩ := run_flush x index 1 stdout
    (fun d => .flushing status stdout stderr d errDone)
    (fun _ _ => rfl) (stdout.length + 1) outDone note s (by omega) hs
  rw [Program.run_bind_ok _ hout]
  cases r with
  | blocked => exact ⟨log, .stuck, outLast, errDone, t, rfl, .outWaits log outLast t.1 hflushed, ht⟩
  | finished =>
    dsimp only
    obtain ⟨more, r, errLast, u, herr, hmore, hu⟩ := run_flush x index 2 stderr
      (fun d => .flushing status stdout stderr outLast d)
      (fun _ _ => rfl) (stderr.length + 1) errDone _ t (by omega) ht
    rw [Program.run_bind_ok _ herr]
    rw [List.append_assoc] at hu
    cases r with
    | blocked =>
      exact ⟨_, .stuck, outLast, errLast, u, rfl,
        .errWaits log more outLast errLast t.1 u.1 hflushed hmore, hu⟩
    | finished =>
      exact ⟨_, .ended status, outLast, errLast, u, rfl,
        .ends log more outLast errLast t.1 u.1 hflushed hmore, hu⟩

end

/-! ## The turns of a session -/

section
variable {W : Type} {x : Env W} {index : ℕ} {note : Delivery} {s t : (Kernel × W) × List Delivery}
    {step : ProcStep}

/-- What a turn of a host command leaves: it has not answered, or its output is
written on, after what was written before. -/
def Turned (x : Env W) (index : ℕ) (p : Sched ProcStep) (s : (Kernel × W) × List Delivery) (log : List Offer)
    (step : ProcStep) (t : (Kernel × W) × List Delivery) : Prop :=
  ∃ phase note, HostTurn index phase note t ∧ phase.Accounts note ∧ match phase with
    | .reading _ => step = .stuck
    | .flushing status stdout stderr outDone errDone =>
      Written x index p s log note step status stdout stderr outDone errDone t

theorem Turned.each {p : Sched ProcStep} {log : List Offer} (h : Turned x index p s log step t) :
    Chronicle.Each Proc.Accounts t.1.1 t.2 := by
  obtain ⟨phase, note, ht, hphase, -⟩ := h
  exact ht.each hphase

theorem Turned.after {p q : Sched ProcStep} {log : List Offer} {u : (Kernel × W) × List Delivery}
    (h : Turned x index q u log step t) (hcomes : Program.Comes (delivering.history.exec x) p s q u) :
    Turned x index p s log step t := by
  obtain ⟨phase, note, ht, hphase, hturn⟩ := h
  refine ⟨phase, note, ht, hphase, ?_⟩
  cases phase with
  | reading => exact hturn
  | flushing =>
    obtain ⟨v, outFrom, errFrom, more, hflush, hwrites⟩ := hturn.writes
    exact { hturn with writes := ⟨v, outFrom, errFrom, more, hcomes.trans _ hflush, hwrites⟩ }

theorem flushAll_turned {status : ℤ} {stdout stderr : Bytes} {outDone errDone : ℕ}
    (hs : HostTurn index (.flushing status stdout stderr outDone errDone) note s)
    (hphase : (Phase.flushing status stdout stderr outDone errDone).Accounts note)
    (hrun : (Scheduler.flushAll index).run (delivering.history.exec x) s = (.ok step, t)) :
    Turned x index (Scheduler.flushAll index) s note.log step t := by
  obtain ⟨more, step', outLast, errLast, t', hrun', hemitting, ht⟩ := run_flushAll x hs
  obtain ⟨heq, rfl⟩ := Prod.mk.inj (hrun'.symm.trans hrun)
  obtain rfl := Except.ok.inj heq
  obtain ⟨hanswered, htracks⟩ := hphase
  refine ⟨_, _, ht, ⟨hanswered, hemitting.tracks htracks⟩, ?_⟩
  exact {
    answered := hanswered
    cursors := ht.hostAt
    writes := ⟨s, outDone, errDone, more, .here _ _, hs.hostAt, hemitting, rfl⟩
    inOrder := hemitting.inOrder htracks }

theorem answered_turned {was : Phase} {answer : Except Errno HostExit} {status : ℤ} {stdout stderr : Bytes}
    (hs : HostTurn index was note s) (hlog : note.log = []) (hanswer : note.answer = some answer)
    (howed : Owed answer status stdout stderr)
    (hrun : (kact (.setPhase index (.flushing status stdout stderr 0 0)) >>=
      fun _ => Scheduler.flushAll index).run
      (delivering.history.exec x) s = (.ok step, t)) :
    Turned x index (kact (.setPhase index (.flushing status stdout stderr 0 0)) >>=
      fun _ => Scheduler.flushAll index)
      s [] step t := by
  have hset := hs.setPhase (x := x) (.flushing status stdout stderr 0 0)
  have htracks : Tracks stdout stderr note.log 0 0 := by
    rw [hlog]
    exact .begin
  rw [← hlog]
  exact (flushAll_turned hset ⟨⟨answer, hanswer, howed⟩, htracks⟩ hrun).after (.later _ _ _ _ _ (.here _ _))

theorem statusExited_low (exit : HostExit) :
    statusExited (asU32 exit.status &&& 0xff : ℕ) = 256 * (exit.status % 256) := by
  have hlow : (asU32 exit.status &&& 0xff : ℕ) = asU32 exit.status % 256 := Nat.and_two_pow_sub_one_eq_mod _ 8
  unfold statusExited
  rw [hlow, show (0xff : ℕ) = 2 ^ 8 - 1 by rfl, Nat.and_two_pow_sub_one_eq_mod, Nat.shiftLeft_eq]
  unfold asU32
  omega

theorem invoke_turned {buffer : Bytes} (hs : HostTurn index (.reading buffer) note s) (hlog : note.log = [])
    (hrun : (Scheduler.invoke index).run (delivering.history.exec x) s = (.ok step, t)) :
    Turned x index (Scheduler.invoke index) s [] step t := by
  obtain ⟨command, reads, argv, envp, cwd, comm, hview⟩ := hs.view (x := x)
  unfold Scheduler.invoke at hrun ⊢
  rw [Program.run_bind_ok _ hview] at hrun
  refine Turned.after ?_ (Program.comes_bind _ hview)
  have hasked := hs.command (x := x) command ⟨argv, envp, cwd, buffer⟩
  have hcommand : (kenv (.command index command ⟨argv, envp, cwd, buffer⟩)).run
    (delivering.history.exec x) s =
    (.ok (x.command command ⟨argv, envp, cwd, buffer⟩ s.1.2).1,
      (delivering.history.exec x (.env (.command index command ⟨argv, envp, cwd, buffer⟩)) s).2) := rfl
  dsimp only at hrun ⊢
  rw [Program.run_bind_ok _ hcommand] at hrun
  refine Turned.after ?_ (Program.comes_bind _ hcommand)
  generalize (delivering.history.exec x (.env (.command index command ⟨argv, envp, cwd, buffer⟩)) s).2 =
    u at hasked hrun ⊢
  generalize (x.command command ⟨argv, envp, cwd, buffer⟩ s.1.2).1 = answer at hasked hrun ⊢
  rcases answer with e | exit
  · dsimp only at hrun ⊢
    by_cases hagain : e = .again
    · -- the command is to be called again: nothing is noted, and it goes on reading
      subst hagain
      rw [if_pos rfl] at hrun ⊢
      obtain ⟨heq, rfl⟩ := Prod.mk.inj hrun
      obtain rfl := Except.ok.inj heq
      exact ⟨_, note, hasked.noteHostPending, hlog, rfl⟩
    · rw [if_neg hagain] at hrun ⊢
      have hnoted : delivering.command ⟨argv, envp, cwd, buffer⟩ (.error e) note =
      ⟨some (.error e), note.log⟩ := by
        simp [delivering, deferred, hagain]
      rw [hnoted] at hasked
      exact answered_turned hasked hlog rfl (.error comm e hagain) hrun
  · have hnoted : delivering.command ⟨argv, envp, cwd, buffer⟩ (.ok exit) note =
      ⟨some (.ok exit), note.log⟩ := rfl
    rw [hnoted] at hasked
    dsimp only at hrun ⊢
    rw [statusExited_low] at hrun ⊢
    exact answered_turned hasked hlog rfl (.ok exit) hrun

/-- Reading its input leaves a process reading. -/
theorem drain_reading {turns : ℕ} {r : Except Stop Scheduler.Drained}
    (hs : ∃ buffer, HostTurn index (.reading buffer) note s)
    (hrun : (Scheduler.drain index turns).run (delivering.history.exec x) s = (r, t)) :
    ∃ buffer, HostTurn index (.reading buffer) note t := by
  have hkeeps := (Scheduler.drains_drain index turns).final_keeps (delivering.history.exec x)
    (P := fun u => ∃ buffer, HostTurn index (.reading buffer) note u) ?_ hs
  · rwa [Program.final, hrun] at hkeeps
  rintro o u ho ⟨buffer, hu⟩
  cases o with
  | machine i o =>
    obtain ⟨rfl, -⟩ := ho
    exact ⟨buffer, hu.machine o⟩
  | env => cases ho
  | act a =>
    cases a with
    | appendInput i chunk =>
      obtain rfl : i = index := ho
      exact ⟨_, hu.appendInput chunk⟩
    | _ => cases ho

/-- A turn of a host command goes on from what the last one has left. -/
theorem stepHost_turned {turns : ℕ} {phase : Phase} (hs : HostTurn index phase note s)
    (hphase : phase.Accounts note)
    (hrun : (Scheduler.stepHost turns index).run (delivering.history.exec x) s = (.ok step, t)) :
    Turned x index (Scheduler.stepHost turns index) s note.log step t := by
  obtain ⟨command, reads, argv, envp, cwd, comm, hview⟩ := hs.view (x := x)
  unfold Scheduler.stepHost at hrun ⊢
  rw [Program.run_bind_ok _ hview] at hrun
  refine Turned.after ?_ (Program.comes_bind _ hview)
  cases phase with
  | flushing status stdout stderr outDone errDone => exact flushAll_turned hs hphase hrun
  | reading buffer =>
    have hlog : note.log = [] := hphase
    dsimp only at hrun ⊢
    rw [hlog]
    cases reads with
    | false => exact invoke_turned hs hlog hrun
    | true =>
      obtain ⟨r, u, hdrain, hrest⟩ := Program.run_bind_eq_ok _ hrun
      obtain ⟨buffer', hu⟩ := drain_reading ⟨buffer, hs⟩ hdrain
      cases r with
      | blocked =>
        obtain ⟨heq, rfl⟩ := Prod.mk.inj hrest
        obtain rfl := Except.ok.inj heq
        exact ⟨_, note, hu, hlog, rfl⟩
      | all => exact (invoke_turned hu hlog hrest).after (Program.comes_bind _ hdrain)

/-- What is not about the answer and the output of a command. -/
def KOp.aside : KOp → Prop
  | .env c => c.invokes = false
  | o => o.mute

theorem KAct.effect_accounts {a : KAct} (ha : (KOp.act a).mute) {p : Proc} (h : p.Accounts note) :
    (a.effect p).Accounts note := by
  intro host hhost
  cases a with
  | setPhase | advance => cases ha
  | appendInput i chunk =>
    obtain ⟨host', hwas, rfl⟩ := Option.map_eq_some_iff.mp hhost
    have hphase := h host' hwas
    rcases hcase : host'.phase with buffer | ⟨status, stdout, stderr, outDone, errDone⟩
    · rw [hcase] at hphase
      exact hphase
    · rw [hcase] at hphase
      exact hphase
  | attach i =>
    simp only [effect] at hhost
    split at hhost
    · exact h host hhost
    · exact h host hhost
  | restoreJmp i buf value =>
    refine h host ?_
    simp only [effect] at hhost
    repeat' split at hhost
    all_goals exact hhost
  | _ => exact h host hhost

theorem delivering_mute {a : KAct} (ha : (KOp.act a).mute) (p : Proc) (note : Delivery) :
    delivering.act a p note = note := by
  cases a with
  | advance => cases ha
  | _ => rfl

theorem keeps_delivering : delivering.Keeps x (fun o _ => o.aside) Proc.Accounts where
  fresh spawn launch host hhost := by
    cases launch with
    | host command reads =>
      obtain rfl := Option.some.inj hhost
      rfl
    | guest inst charged data => cases hhost
  begin p t h := h
  machine i o k w p t hp h hA := h
  command i c call k w p t hp h hA := by cases hA
  act a i k w p t ha hp h hA := by
    rw [delivering_mute hA]
    exact KAct.effect_accounts hA h

theorem each_aside {o : KOp} (ho : o.aside) (hs : Chronicle.Each Proc.Accounts s.1.1 s.2) :
    Chronicle.Each Proc.Accounts (delivering.history.exec x o s).2.1.1 (delivering.history.exec x o s).2.2 :=
  keeps_delivering.chronicled.next o s.1 s.2 hs ho

theorem KOp.tends.aside {o : KOp} (h : o.tends index) : o.aside := by
  cases o with
  | machine => trivial
  | env => exact h
  | act => exact h.mute

theorem KOp.quiet.aside {o : KOp} (h : o.quiet) : o.aside := by
  cases o with
  | machine => cases h
  | env => exact h
  | act a =>
    cases a with
    | look | beginRun | whyIdle => trivial
    | _ => cases h

theorem KOp.starts.aside {o : KOp} (h : o.starts) : o.aside := by
  cases o with
  | machine => cases h
  | env => exact h
  | act a =>
    cases a with
    | look | charge | release | launchSpawn | abandonSpawn => trivial
    | _ => cases h

/-- Where a turn begins every process is as is noted of it. -/
def KOp.Begun : KOp → (Kernel × W) × List Delivery → Prop
  | .act (.attach _), s => Chronicle.Each Proc.Accounts s.1.1 s.2
  | _, _ => True

theorem KOp.begun_of_each (o : KOp) (h : Chronicle.Each Proc.Accounts s.1.1 s.2) : o.Begun s := by
  cases o with
  | machine | env => trivial
  | act a =>
    cases a with
    | attach => exact h
    | _ => trivial

theorem KOp.advances.begun {o : KOp} (h : o.advances index) (s : (Kernel × W) × List Delivery) :
    o.Begun s := by
  cases o with
  | machine | env => trivial
  | act a =>
    cases a with
    | attach => cases h
    | _ => trivial

abbrev Accounted (s : (Kernel × W) × List Delivery) : Prop := Chronicle.Each Proc.Accounts s.1.1 s.2

theorem Accounted.hostTurn (hs : Accounted s) {p : Proc} {host : HostProc} (hp : s.1.1.procs[index]? = some p)
    (hhost : p.host = some host) : ∃ note, HostTurn index host.phase note s ∧ host.phase.Accounts note := by
  obtain ⟨note, hnote, hphase⟩ := forall₂_at hs hp
  have hamid := Chronicle.amid_of_each hs hp
  exact ⟨note, ⟨⟨p, note, hp, hnote, ⟨host, hhost, rfl⟩, rfl⟩, hamid.rest, hamid.length⟩, hphase host hhost⟩

theorem attach_noted {p : Proc} {host : HostProc} (hp : s.1.1.procs[index]? = some p)
    (hhost : p.host = some host) :
    (delivering.history.exec x (.act (.attach index)) s).2 = s := by
  obtain ⟨⟨k, w⟩, ts⟩ := s
  have hnotes : delivering.acted k ts (.attach index) = ts := by
    rw [delivering.acted_target rfl, show k.procs[index]? = some p from hp]
    exact List.modify_id _ _
  show (((((KAct.attach index).exec k).2, w), delivering.acted k ts (.attach index)) :
    (Kernel × W) × List Delivery) = _
  rw [(attach_host hp hhost).1, hnotes]

/-- Where a host command is taken up its turn is over at once, if it is left alone,
or the turn goes on from what the last one has left. -/
theorem run_hostTurn {p : Proc} {host : HostProc} {turns : ℕ} (hp : s.1.1.procs[index]? = some p)
    (hhost : p.host = some host) (hs : Accounted s)
    (hrun : (Scheduler.stepProcess turns index).run (delivering.history.exec x) s = (.ok step, t)) :
    ∃ note, s.2[index]? = some note ∧ ((p.parked = true ∧ step = .stuck ∧ t = s) ∨
      Turned x index (Scheduler.stepProcess turns index) s note.log step t) := by
  obtain ⟨note, hturn, hphase⟩ := hs.hostTurn hp hhost
  refine ⟨note, hturn.noted, ?_⟩
  have hattached : (kact (.attach index)).run (delivering.history.exec x) s =
      (.ok ((KAct.attach index).exec s.1.1).1, s) := by
    show (Except.ok ((KAct.attach index).exec s.1.1).1,
      (delivering.history.exec x (.act (.attach index)) s).2) = _
    rw [attach_noted hp hhost]
  unfold Scheduler.stepProcess at hrun ⊢
  rw [Program.run_bind_ok _ hattached] at hrun
  cases hparked : p.parked with
  | true =>
    have hleft : ((KAct.attach index).exec s.1.1).1 = none := by simp [KAct.exec, hp, hparked]
    rw [hleft] at hrun
    obtain ⟨heq, rfl⟩ := Prod.mk.inj hrun
    exact .inl ⟨rfl, (Except.ok.inj heq).symm, rfl⟩
  | false =>
    have hhosted : ((KAct.attach index).exec s.1.1).1 = some .host := by simp [KAct.exec, hp, hparked, hhost]
    refine .inr (Turned.after ?_ (Program.comes_bind _ hattached))
    rw [hhosted] at hrun ⊢
    exact stepHost_turned hturn hphase hrun

end

/-! ## The session -/

section
variable {W : Type} {x : Env W} {index : ℕ} {s : (Kernel × W) × List Delivery}

theorem meets_aside {α : Type} {p : Sched α} (hp : p.Only KOp.aside) (hs : Accounted s) :
    Program.Meets (delivering.history.exec x) (fun _ _ => True) KOp.Begun p (fun _ t => Accounted t) s := by
  refine Program.meets_only (I := Accounted) ?_ hp hs
  exact fun o t ho ht _ => ⟨o.begun_of_each ht, each_aside ho ht⟩

theorem meets_hostTurn (turns : ℕ) {note : Delivery} {phase : Phase} (hs : HostTurn index phase note s)
    (hphase : phase.Accounts note) :
    Program.Meets (delivering.history.exec x) (fun _ _ => True) KOp.Begun (Scheduler.stepHost turns index)
      (fun r t => ∀ step, r = .ok step → Accounted t) s := by
  apply Program.meets_of_run
  · exact ((Scheduler.only_stepHost turns index).along _ s).mono _ fun o u ho => ho.begun u
  · intro step hstep
    exact (stepHost_turned hs hphase (Prod.ext hstep rfl)).each

theorem attached_host {k : Kernel} (h : ((KAct.attach index).exec k).1 = some .host) :
    ∃ p host, k.procs[index]? = some p ∧ p.host = some host := by
  rcases hp : k.procs[index]? with _ | p
  · simp [KAct.exec, hp] at h
  rcases hhost : p.host with _ | host
  · cases hparked : p.parked <;> simp [KAct.exec, hp, hparked, hhost] at h
  · exact ⟨p, host, rfl, hhost⟩

theorem meets_deliveryTurn (turns index : ℕ) (hs : Accounted s) :
    Program.Meets (delivering.history.exec x) (fun _ _ => True) KOp.Begun (Scheduler.stepProcess turns index)
      (fun r t => ∀ step, r = .ok step → Accounted t) s := by
  have hguest {p : Sched ProcStep} {u : (Kernel × W) × List Delivery} (hp : p.Only (KOp.tends index))
    (hu : Accounted u) :
      Program.Meets (delivering.history.exec x) (fun _ _ => True) KOp.Begun p
      (fun r t => ∀ step, r = .ok step → Accounted t) u :=
    (meets_aside (hp.mono fun _ => KOp.tends.aside) hu).mono fun _ _ ht _ _ => ht
  have hattached : Accounted (delivering.history.exec x (.act (.attach index)) s).2 :=
    each_aside (o := .act (.attach index)) trivial hs
  refine Sweeps.meets_kact (C := fun _ _ => True) (A := KOp.Begun) fun _ => ⟨hs, ?_⟩
  rcases htaken : ((KAct.attach index).exec s.1.1).1 with _ | _ | resume
  · exact fun _ _ => hattached
  · obtain ⟨p, host, hp, hhost⟩ := attached_host htaken
    obtain ⟨note, hturn, hphase⟩ := hs.hostTurn hp hhost
    have hsame := attach_noted (x := x) hp hhost
    show Program.Meets _ _ _ (Scheduler.stepHost turns index) _
      (delivering.history.exec x (.act (.attach index)) s).2
    rw [hsame]
    exact meets_hostTurn turns hturn hphase
  cases resume with
  | fresh => exact hguest (Scheduler.only_enter index) hattached
  | rewind => exact hguest (only_kact (.inr rfl) fun _ => Scheduler.only_enter index) hattached
  | blocked number args => exact hguest (Scheduler.only_retry index number args) hattached

def accounting : Stages (List Delivery) :=
  ⟨fun _ k ts => Chronicle.Each Proc.Accounts k ts, fun _ k ts => Chronicle.Each Proc.Accounts k ts⟩

theorem sweeps_accounting (x : Env W) :
    Sweeps accounting delivering.history x (fun _ _ => True) KOp.Begun where
  quiet i o k w t ho h _ := ⟨o.begun_of_each (s := ((k, w), t)) h, each_aside (s := ((k, w), t)) ho.aside h⟩
  starts o k w t ho h _ := ⟨o.begun_of_each (s := ((k, w), t)) h, each_aside (s := ((k, w), t)) ho.aside h⟩
  turn turns i k w t h := by
    refine Sweeps.meets_kact (a := .look) (C := fun _ _ => True) (A := KOp.Begun) fun _ => ⟨trivial, ?_⟩
    refine Program.meets_bind (meets_deliveryTurn turns i (s := ((k, w), t)) h) ?_ fun e u _ a ha => by
      cases ha
    intro step u hu
    refine Sweeps.meets_kact (a := .look) (C := fun _ _ => True) (A := KOp.Begun) fun _ => ⟨trivial, ?_⟩
    refine Sweeps.meets_kact (a := .endStep i _) (C := fun _ _ => True) (A := KOp.Begun) fun _ =>
      ⟨trivial, fun _ _ => ?_⟩
    exact each_aside (x := x) (s := u) (o := .act (.endStep i _)) trivial (hu step rfl)
  finish i status k w t h _ :=
    ⟨trivial, each_aside (x := x) (s := ((k, w), t)) (o := .act (.finishProcess i status)) trivial h⟩
  first status k w t h _ :=
    ⟨trivial, each_aside (x := x) (s := ((k, w), t)) (o := .act (.finishProcess 0 status)) trivial h⟩
  force status k w t h _ _ := ⟨trivial, h⟩
  round i k t h _ := h
  exits i status k t h _ := h
  gone k t h _ _ := h
  looks status k w t h _ := ⟨trivial, h⟩

theorem begins_accounting (x : Env W) :
    Sweeps.Begins accounting delivering.history x (fun _ _ => True) KOp.Begun where
  start c started k w hk := by
    have hstart : Sweeps.At accounting 0 ((k, w), delivering.history.start) := by
      obtain ⟨fds, slab, rfl⟩ := Config.kernel_eq hk
      exact .nil
    exact ((sweeps_accounting x).meets_starts c.starts_spawnFirst hstart).mono fun r u hu _ => hu
  input finished k data closed t h := by
    cases finished <;> exact h
  output finished k out err t h := by
    cases finished <;> exact h

/-- Wherever a session comes to the turn of a host command, the command is left alone,
or the turn ends without an answer, or it writes the next part of the output: with
all that was written since the answer this is in order and once, all of it where no
write fails, and the process ends with its own status. -/
theorem output_in_order {turns : ℕ} {k : Kernel} {w : W} {ts : List Delivery} {p : Proc} {host : HostProc}
    {step : ProcStep} {t : (Kernel × W) × List Delivery}
    (h : Performed x delivering.history (fun _ _ => True) (.act (.attach index)) k w ts)
    (hp : k.procs[index]? = some p) (hhost : p.host = some host)
    (hrun : (Scheduler.stepProcess turns index).run (delivering.history.exec x) ((k, w), ts) =
      (.ok step, t)) :
    ∃ note, ts[index]? = some note ∧
      ((p.parked = true ∧ step = .stuck ∧ t = ((k, w), ts)) ∨
      ∃ note', t.2[index]? = some note' ∧
        ((step = .stuck ∧ note'.log = [] ∧ ∃ buffer, t.1.1.hostAt index = some (.reading buffer)) ∨
        ∃ status stdout stderr outDone errDone,
        Written x index (Scheduler.stepProcess turns index) ((k, w), ts) note.log
          note' step status stdout stderr outDone errDone t)) := by
  have haccounted : Accounted ((k, w), ts) := (sweeps_accounting x).performed (begins_accounting x) h
  obtain ⟨note, hnote, hparked | hturned⟩ := run_hostTurn hp hhost haccounted hrun
  · exact ⟨note, hnote, .inl hparked⟩
  refine ⟨note, hnote, .inr ?_⟩
  obtain ⟨phase, note', hturn, hphase, hends⟩ := hturned
  refine ⟨note', hturn.noted, ?_⟩
  cases phase with
  | reading buffer => exact .inl ⟨hends, hphase, buffer, hturn.hostAt⟩
  | flushing status stdout stderr outDone errDone =>
      exact .inr ⟨status, stdout, stderr, outDone, errDone, hends⟩

end

def Env.answers : Env Unit :=
  { Env.still Unit with
    command := fun _ _ w => (.ok ⟨259, ascii "out", ascii "err"⟩, w) }

theorem output_in_order_answers :
    ∃ (k : Kernel) (ts : List Delivery) (t : (Kernel × Unit) × List Delivery) (note : Delivery)
    (outDone errDone : ℕ),
    Performed Env.answers delivering.history (fun _ _ => True) (.act (.attach 0)) k () ts ∧
    t.2[0]? = some note ∧ note.answer = some (.ok ⟨259, ascii "out", ascii "err"⟩) ∧ note.log.length = 2 ∧
    Written Env.answers 0 (Scheduler.stepProcess 1 0) ((k, ()), ts) [] note (.ended 768) 768 (ascii "out")
      (ascii "err")
      outDone errDone t := by
  have hturn : ∃ (k : Kernel) (ts : List Delivery) (p : Proc) (host : HostProc)
      (t : (Kernel × Unit) × List Delivery) (note : Delivery),
      Performed Env.answers delivering.history (fun _ _ => True) (.act (.attach 0)) k () ts ∧
      k.procs[0]? = some p ∧
      p.host = some host ∧ p.parked = false ∧ ts[0]? = some ⟨none, []⟩ ∧
      (Scheduler.stepProcess 1 0).run (delivering.history.exec Env.answers) ((k, ()), ts) =
      (.ok (.ended 768), t) ∧
      t.2[0]? = some note ∧ note.answer = some (.ok ⟨259, ascii "out", ascii "err"⟩) ∧
      note.log.length = 2 := by
    have hstart : Recorded Env.answers delivering.history (fun _ _ => True) ⟨_, none⟩ () _ :=
      .start (.bare [.host 0]) 0 _ _ () _ _ rfl (Program.along_of_forall _ (fun _ _ => trivial) _ _) rfl
    exact ⟨_, _, _, _, _, _, Performed.running _ _ _ 3 ⟨none, none⟩ _ hstart
      (Program.along_of_forall _ (fun _ _ => trivial) _ _) (List.mem_of_getElem? (i := 7) rfl), rfl, rfl,
      rfl, rfl, rfl, rfl, rfl, rfl⟩
  obtain ⟨k, ts, p, host, t, note, hattach, hp, hhost, hparked, hts, hrun, hnote, hanswer, hlog⟩ := hturn
  obtain ⟨old, hold, hleft | ⟨note', hnote', hturned⟩⟩ := output_in_order hattach hp hhost hrun
  · rw [hparked] at hleft
    cases hleft.1
  obtain rfl : ⟨none, []⟩ = old := Option.some.inj (hts.symm.trans hold)
  obtain rfl : note = note' := Option.some.inj (hnote.symm.trans hnote')
  obtain ⟨hstuck, -⟩ | ⟨status, stdout, stderr, outDone, errDone, hwritten⟩ := hturned
  · cases hstuck
  obtain ⟨answer, hgiven, howed⟩ := hwritten.answered
  obtain rfl := Option.some.inj (hanswer.symm.trans hgiven)
  cases howed
  exact ⟨k, ts, t, note, outDone, errDone, hattach, hnote, hanswer, hlog, hwritten⟩

end Wasmux
