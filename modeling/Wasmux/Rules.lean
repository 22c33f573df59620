import Wasmux.Effects.Triples
import Wasmux.Session

/-!
# Rules for the scheduler's programs

The scheduler's own operations, and a handler's program run as operations of
one process. A handler sees a machine, and what it does to it is put back.
-/

set_option autoImplicit false

namespace Wasmux
open Effects

namespace Kernel
variable {k : Kernel} {index : ℕ} {p : Proc}

theorem putMachine_self (h : k.procs[index]? = some p) : k.putMachine index (k.machineOf p) = k := by
  obtain ⟨shared, procs, exitStatus⟩ := k
  simp only [putMachine, modifyProc, machineOf, Kernel.mk.injEq, true_and, and_true]
  refine List.ext_getElem? fun i => ?_
  rw [List.getElem?_modify]
  by_cases hi : index = i
  · subst hi
    dsimp only at h
    simp [h]
  · simp [hi]

theorem putMachine_putMachine (k : Kernel) (index : ℕ) (m n : Machine) :
    (k.putMachine index m).putMachine index n = k.putMachine index n := by
  simp [putMachine, modifyProc, List.modify_modify_eq, Function.comp_def]

theorem putMachine_proc (h : k.procs[index]? = some p) (m : Machine) :
    (k.putMachine index m).procs[index]? = some { p with ctx := m.ctx, inst := m.inst } := by
  simp [putMachine, modifyProc, h]

theorem modify_at {f : Proc → Proc} {p : Proc} (h : (k.procs.modify index f)[index]? = some p) :
    ∃ q, k.procs[index]? = some q ∧ p = f q := by
  rw [List.getElem?_modify] at h
  simp only [if_true] at h
  obtain ⟨q, hq, rfl⟩ := Option.map_eq_some_iff.mp h
  exact ⟨q, hq, rfl⟩

theorem whyIdle_procs (k : Kernel) : k.whyIdle.2.procs = k.procs := by
  unfold whyIdle
  repeat' split
  all_goals rfl

end Kernel

section
variable {α β W : Type} {x : Env W} {C A : KOp → Kernel × W → Prop}

theorem meets_kact {a : KAct} {f : a.Ans → Sched α} {Q : Except Stop α → Kernel × W → Prop}
    {s : Kernel × W} (h : C (.act a) s → A (.act a) s ∧
      Program.Meets (kexec x) C A (f (a.exec s.1).1) Q ((a.exec s.1).2, s.2)) :
    Program.Meets (kexec x) C A (kact a >>= f) Q s := h

theorem meets_kenv {c : KCall} {f : c.Ans → Sched α} {Q : Except Stop α → Kernel × W → Prop}
    {s : Kernel × W} (h : C (.env c) s → A (.env c) s ∧
      Program.Meets (kexec x) C A (f (c.answer x s.2).1) Q (s.1, (c.answer x s.2).2)) :
    Program.Meets (kexec x) C A (kenv c >>= f) Q s := h

/-- A handler's program, run as operations of one process, meets there what it
meets of its machine. -/
theorem meets_onProc {index : ℕ} {k : Kernel} {proc : Proc} {w : W} {p : Program sig Stop α}
    {D B : Op → Machine × W → Prop} {R : Except Stop α → Machine × W → Prop}
    {Q : Except Stop α → Kernel × W → Prop} (h : k.procs[index]? = some proc)
    (hC : ∀ o m w, C (.machine index o) (k.putMachine index m, w) → D o (m, w))
    (hA : ∀ o m w, B o (m, w) → A (.machine index o) (k.putMachine index m, w))
    (hQ : ∀ r m w, R r (m, w) → Q r (k.putMachine index m, w))
    (hp : Program.Meets (exec x) D B p R (k.machineOf proc, w)) :
    Program.Meets (kexec x) C A (onProc index p) Q (k, w) := by
  have along : ∀ (p : Program sig Stop α) m w, Program.Meets (exec x) D B p R (m, w) →
      Program.Meets (kexec x) C A (onProc index p) Q (k.putMachine index m, w) := by
    intro p
    induction p with
    | ret a => exact fun m w hp => hQ _ _ _ hp
    | fail e => exact fun m w hp => hQ _ _ _ hp
    | call o c ih =>
      intro m w hp hc
      have hproc : (k.putMachine index m).procs[index]? =
        some { proc with ctx := m.ctx, inst := m.inst } := Kernel.putMachine_proc h m
      obtain ⟨ha, hnext⟩ := hp (hC _ _ _ hc)
      refine ⟨hA _ _ _ ha, ?_⟩
      rw [kexec_machine x hproc, Kernel.putMachine_putMachine]
      exact ih _ _ _ hnext
  have hmeets := along p (k.machineOf proc) w hp
  rwa [Kernel.putMachine_self h] at hmeets

theorem meets_onProc_none {index : ℕ} {k : Kernel} {w : W} {p : Program sig Stop α}
    {Q : Except Stop α → Kernel × W → Prop} (h : k.procs[index]? = none)
    (hA : ∀ o w, A (.machine index o) (k, w)) (hQ : ∀ r w, Q r (k, w)) :
    Program.Meets (kexec x) C A (onProc index p) Q (k, w) := by
  induction p generalizing w with
  | ret a => exact hQ _ _
  | fail e => exact hQ _ _
  | call o c ih =>
    refine fun _ => ⟨hA _ _, ?_⟩
    rw [kexec_machine_none x h]
    exact ih _

theorem run_onProc {index : ℕ} {k : Kernel} {proc : Proc} (h : k.procs[index]? = some proc) (w : W)
    {p : Program sig Stop α} {r : Except Stop α} {m : Machine} {w' : W}
    (hp : p.run (exec x) (k.machineOf proc, w) = (r, (m, w'))) :
    (onProc index p).run (kexec x) (k, w) = (r, (k.putMachine index m, w')) := by
  have hmeets : Program.Meets (kexec x) (fun _ _ => True) (fun _ _ => True) (onProc index p)
      (fun r' t => (r', t) = (r, (k.putMachine index m, w'))) (k, w) := by
    refine meets_onProc (D := fun _ _ => True) (B := fun _ _ => True)
      (R := fun r' t => (r', t) = (r, (m, w'))) h (fun _ _ _ => id) (fun _ _ _ => id) ?_ ?_
    · intro r' m' w'' heq
      obtain ⟨rfl, rfl, rfl⟩ := by simpa using heq
      rfl
    · exact Program.meets_of_run (Program.along_of_forall _ (fun _ _ => trivial) _ _) hp
  exact (hmeets.run (Program.along_of_forall _ (fun _ _ => trivial) _ _)).2

def KAct.idle : KAct → Bool
  | .look | .beginRun | .endStep _ _ | .forceExit _ | .whyIdle => true
  | _ => false

/-- A program that comes to its end leaves a kernel that has `I`. -/
abbrev Leaves (I : Kernel → Prop) (r : Except Stop α) (s : Kernel × W) : Prop := ∀ a, r = .ok a → I s.1

theorem leaves_ok {I : Kernel → Prop} (a : α) {s : Kernel × W} (h : I s.1) : Leaves I (.ok a) s :=
    fun _ _ => h

theorem meets_next {p : Sched α} {f : α → Sched β} {P : α → Kernel × W → Prop} {I : Kernel → Prop}
    {s : Kernel × W} (hp : Program.Meets (kexec x) C A p (fun r t => ∀ a, r = .ok a → P a t) s)
    (hf : ∀ a t, P a t → Program.Meets (kexec x) C A (f a) (Leaves I) t) :
    Program.Meets (kexec x) C A (p >>= f) (Leaves I) s :=
  Program.meets_bind hp (fun a t ht => hf a t (ht a rfl)) fun e t _ a ha => (by cases ha)

def KCall.invokes : KCall → Bool
  | .command _ _ _ => true
  | _ => false

def KAct.resumes : KAct → Bool
  | .attach _ | .setResume _ _ | .rewind _ | .resumeWith _ _ | .inst _ | .saveJmp _ _ _ | .restoreJmp
      _ _ _ => true
  | _ => false

/-- What makes `I` hold after a step of a process that had it before. A call
that hands its process over leaves `G` of it, and an entry that ends with the
process on its way out `L`. -/
structure Turns (x : Env W) (C A : KOp → Kernel × W → Prop) (I : Kernel → Prop) (G L : Kernel → ℕ → Prop) :
    Prop where
  resumes : ∀ a s, a.resumes = true → I s.1 → C (.act a) s → A (.act a) s ∧ I (a.exec s.1).2
  env : ∀ c s, c.invokes = false → C (.env c) s → A (.env c) s
  calls : ∀ index number args s, I s.1 → Program.Meets (kexec x) C A (onProc index (dispatch number args))
    (fun r t => (r = .ok .exec → G t.1 index) ∧ (r ≠ .ok .exec → I t.1)) s
  enters : ∀ index acts s, I s.1 → Program.Meets (kexec x) C A (onProc index (runActs acts))
    (fun _ t => I t.1 ∨ L t.1 index) s
  traps : ∀ index kind s, I s.1 ∨ L s.1 index → C (.act (.trapMessage index kind)) s →
    A (.act (.trapMessage index kind)) s ∧ I ((KAct.trapMessage index kind).exec s.1).2
  comes : ∀ index s, I s.1 ∨ L s.1 index → C (.act (.takeSuspension index)) s →
    A (.act (.takeSuspension index)) s ∧
      (((KAct.takeSuspension index).exec s.1).1 = some .exec →
        G ((KAct.takeSuspension index).exec s.1).2 index) ∧
      (((KAct.takeSuspension index).exec s.1).1 ≠ some .exec → I ((KAct.takeSuspension index).exec s.1).2)
  replaces : ∀ index s, G s.1 index →
    Program.Meets (kexec x) C A (Scheduler.replaceInstance index) (Leaves I) s
  hosts : ∀ turns index s, I s.1 → Program.Meets (kexec x) C A (Scheduler.stepHost turns index) (Leaves I) s

/-- What a step leaves: `I`, or `T` of the process if that has ended. -/
abbrev Halts (I : Kernel → Prop) (T : Kernel → ℕ → Prop) (index : ℕ) (r : Except Stop ProcStep)
    (s : Kernel × W) : Prop :=
  ∀ a, r = .ok a → I s.1 ∨ (∃ status, a = .ended status) ∧ T s.1 index

theorem halts_ok {I : Kernel → Prop} {T : Kernel → ℕ → Prop} {index : ℕ} (a : ProcStep) {s : Kernel × W}
    (h : I s.1) :
    Halts I T index (.ok a) s := fun _ _ => .inl h

theorem Leaves.halts {I : Kernel → Prop} {T : Kernel → ℕ → Prop} {index : ℕ} {r : Except Stop ProcStep}
    {s : Kernel × W} (h : Leaves I r s) : Halts I T index r s := fun a ha => .inl (h a ha)

/-- `Turns` for steps that may leave `T` of a process that trapped. -/
structure TurnsTo (x : Env W) (C A : KOp → Kernel × W → Prop) (I : Kernel → Prop)
    (G L T : Kernel → ℕ → Prop) : Prop where
  resumes : ∀ a s, a.resumes = true → I s.1 → C (.act a) s → A (.act a) s ∧ I (a.exec s.1).2
  env : ∀ c s, c.invokes = false → C (.env c) s → A (.env c) s
  calls : ∀ index number args s, I s.1 → Program.Meets (kexec x) C A (onProc index (dispatch number args))
    (fun r t => (r = .ok .exec → G t.1 index) ∧ (r ≠ .ok .exec → I t.1)) s
  enters : ∀ index acts s, I s.1 → Program.Meets (kexec x) C A (onProc index (runActs acts))
    (fun _ t => I t.1 ∨ L t.1 index) s
  traps : ∀ index kind s, I s.1 ∨ L s.1 index → C (.act (.trapMessage index kind)) s →
    A (.act (.trapMessage index kind)) s ∧
      (I ((KAct.trapMessage index kind).exec s.1).2 ∨ T ((KAct.trapMessage index kind).exec s.1).2 index)
  comes : ∀ index s, I s.1 ∨ L s.1 index → C (.act (.takeSuspension index)) s →
    A (.act (.takeSuspension index)) s ∧
      (((KAct.takeSuspension index).exec s.1).1 = some .exec →
        G ((KAct.takeSuspension index).exec s.1).2 index) ∧
      (((KAct.takeSuspension index).exec s.1).1 ≠ some .exec → I ((KAct.takeSuspension index).exec s.1).2)
  replaces : ∀ index s, G s.1 index →
    Program.Meets (kexec x) C A (Scheduler.replaceInstance index) (Leaves I) s
  hosts : ∀ turns index s, I s.1 → Program.Meets (kexec x) C A (Scheduler.stepHost turns index) (Leaves I) s

namespace TurnsTo
variable {I : Kernel → Prop} {G L T : Kernel → ℕ → Prop}

theorem act (h : TurnsTo x C A I G L T) {a : KAct} (ha : a.resumes = true) {f : a.Ans → Sched α}
    {Q : Except Stop α → Kernel × W → Prop} {s : Kernel × W} (hs : I s.1)
    (hf : I (a.exec s.1).2 → Program.Meets (kexec x) C A (f (a.exec s.1).1) Q ((a.exec s.1).2, s.2)) :
    Program.Meets (kexec x) C A (kact a >>= f) Q s := by
  apply meets_kact
  intro hc
  obtain ⟨hA, hI⟩ := h.resumes a s ha hs hc
  exact ⟨hA, hf hI⟩

theorem afterReturn (h : TurnsTo x C A I G L T) (index : ℕ) {s : Kernel × W} (hs : I s.1 ∨ L s.1 index) :
    Program.Meets (kexec x) C A (Scheduler.afterReturn index) (Leaves I) s := by
  unfold Scheduler.afterReturn
  apply meets_kact
  intro hc
  obtain ⟨ha, hexec, hstay⟩ := h.comes index s hs hc
  refine ⟨ha, ?_⟩
  generalize ((KAct.takeSuspension index).exec s.1).2 = k at hexec hstay ⊢
  generalize ((KAct.takeSuspension index).exec s.1).1 = suspension at hexec hstay ⊢
  rcases suspension with _ | suspension
  · exact leaves_ok _ (hstay (by simp))
  cases suspension with
  | setjmp buf sp => exact h.act rfl (hstay (by simp)) fun hI => leaves_ok _ hI
  | longjmp buf value =>
    apply h.act rfl (hstay (by simp))
    intro hI
    exact Program.meets_ite (fun _ => leaves_ok _ hI) fun _ => leaves_ok _ hI
  | blocked number args => exact h.act rfl (hstay (by simp)) fun hI => leaves_ok _ hI
  | exit status => exact leaves_ok _ (hstay (by simp))
  | exec => exact h.replaces index (k, s.2) (hexec rfl)

theorem enter (h : TurnsTo x C A I G L T) (index : ℕ) {s : Kernel × W} (hs : I s.1) :
    Program.Meets (kexec x) C A (Scheduler.enter index) (Halts I T index) s := by
  unfold Scheduler.enter
  apply h.act rfl hs
  intro hI
  generalize ((KAct.inst index).exec s.1).1 = inst
  rcases inst with _ | inst
  · exact halts_ok _ hI
  refine meets_kenv fun hc => ⟨h.env _ _ rfl hc, ?_⟩
  generalize (KCall.guest inst).answer x s.2 = answer
  obtain ⟨run, w⟩ := answer
  dsimp only
  apply Program.meets_bind (h.enters index run.acts (_, w) hI)
  · intro _ t ht
    cases run.trap with
    | some kind =>
      apply meets_kact
      intro hc
      obtain ⟨ha, hI⟩ := h.traps index kind t ht hc
      refine ⟨ha, fun a hr => ?_⟩
      obtain rfl := Except.ok.inj hr
      exact hI.imp_right fun hT => ⟨⟨_, rfl⟩, hT⟩
    | none => exact (h.afterReturn index ht).mono fun _ _ hleaves => hleaves.halts
  · intro e t _ a ha
    cases ha

theorem retry (h : TurnsTo x C A I G L T) (index : ℕ) (number : ℤ) (args : Args) {s : Kernel × W}
    (hs : I s.1) :
    Program.Meets (kexec x) C A (Scheduler.retry index number args) (Halts I T index) s := by
  unfold Scheduler.retry
  apply Program.meets_bind (h.calls index number args s hs)
  · intro outcome t ht
    cases outcome with
    | blocked => exact h.act rfl (ht.2 (by simp)) fun hI => halts_ok _ hI
    | exit status => exact halts_ok _ (ht.2 (by simp))
    | exec => exact (h.replaces index t (ht.1 rfl)).mono fun _ _ hleaves => hleaves.halts
    | value value => exact h.act rfl (ht.2 (by simp)) fun hI => h.enter index hI
  · intro e t _ a ha
    cases ha

theorem step (h : TurnsTo x C A I G L T) (turns index : ℕ) {s : Kernel × W} (hs : I s.1) :
    Program.Meets (kexec x) C A (Scheduler.stepProcess turns index) (Halts I T index) s := by
  unfold Scheduler.stepProcess
  apply h.act rfl hs
  intro hI
  generalize ((KAct.attach index).exec s.1).2 = k at hI ⊢
  generalize ((KAct.attach index).exec s.1).1 = attached
  rcases attached with _ | _ | resume
  · exact halts_ok _ hI
  · exact (h.hosts turns index (k, s.2) hI).mono fun _ _ hleaves => hleaves.halts
  cases resume with
  | fresh => exact h.enter index hI
  | rewind => exact h.act rfl hI fun hI => h.enter index hI
  | blocked number args => exact h.retry index number args hI

theorem weaken {B D : KOp → Kernel × W → Prop} (h : TurnsTo x C A I G L T) (hc : ∀ o s, D o s → C o s)
    (hb : ∀ o s, A o s → B o s) : TurnsTo x D B I G L T where
  resumes a s ha hs hd := (h.resumes a s ha hs (hc _ _ hd)).imp_left (hb _ _)
  env c s hcall hd := hb _ _ (h.env c s hcall (hc _ _ hd))
  calls index number args s hs := (h.calls index number args s hs).weaken hc hb
  enters index acts s hs := (h.enters index acts s hs).weaken hc hb
  traps index kind s hs hd := (h.traps index kind s hs (hc _ _ hd)).imp_left (hb _ _)
  comes index s hs hd := (h.comes index s hs (hc _ _ hd)).imp_left (hb _ _)
  replaces index s hs := (h.replaces index s hs).weaken hc hb
  hosts turns index s hs := (h.hosts turns index s hs).weaken hc hb

end TurnsTo

theorem Turns.loose {I : Kernel → Prop} {G L : Kernel → ℕ → Prop} (h : Turns x C A I G L) :
    TurnsTo x C A I G L fun _ _ => False :=
  { h with traps := fun index kind s hs hc => (h.traps index kind s hs hc).imp_right .inl }

theorem Turns.step {I : Kernel → Prop} {G L : Kernel → ℕ → Prop} (h : Turns x C A I G L) (turns index : ℕ)
    {s : Kernel × W} (hs : I s.1) :
    Program.Meets (kexec x) C A (Scheduler.stepProcess turns index) (Leaves I) s :=
  (h.loose.step turns index hs).mono fun _ _ hhalts a ha => (hhalts a ha).resolve_right And.right

theorem addStdio_eq {descs : List Desc} {fds fds' : FdTable} {sh sh' : Shared}
    (h : Config.addStdio descs fds sh = some (fds', sh')) : ∃ slab, sh' = { sh with descs := slab } := by
  induction descs generalizing fds sh with
  | nil =>
    obtain ⟨-, rfl⟩ : fds = fds' ∧ sh = sh' := by simpa [Config.addStdio] using h
    exact ⟨sh.descs, rfl⟩
  | cons desc rest ih =>
    unfold Config.addStdio at h
    split at h
    · cases h
    · obtain ⟨slab, rfl⟩ := ih h
      exact ⟨slab, rfl⟩

/-- A kernel is made with the first process queued, and no other. -/
theorem Config.kernel_eq {c : Config} {started : Instant} {k : Kernel} (h : c.kernel started = some k) :
    ∃ fds slab, k = {
      shared := { c.shared started with
        nextPid := 2
        descs := slab
        table := [ProcRecord.new 1 0 1 1]
        spawn := [⟨{ Task.new 1 fds with cwd := c.cwd }, c.program, c.exe, c.argv, c.envp⟩] }
      procs := []
      exitStatus := none } := by
  unfold Config.kernel at h
  dsimp only at h
  split at h
  · cases h
  · rename_i fds sh hadd
    obtain ⟨slab, rfl⟩ := addStdio_eq hadd
    obtain rfl := by simpa using h
    exact ⟨fds, slab, rfl⟩

theorem Config.kernel_spawn {c : Config} {started : Instant} {k : Kernel} (h : c.kernel started = some k) :
    k.shared.spawn ≠ [] := by
  obtain ⟨fds, slab, rfl⟩ := c.kernel_eq h
  exact List.cons_ne_nil _ _

/-- A program made ready, or not to be had: either way `I` holds once the
scheduler has acted on it. -/
def Ready (C A : KOp → Kernel × W → Prop) (I : Kernel → Prop) : Option Launch → Kernel × W → Prop
  | some launch, s => C (.act (.launchSpawn launch)) s →
    A (.act (.launchSpawn launch)) s ∧ I ((KAct.launchSpawn launch).exec s.1).2
  | none, s => C (.act .abandonSpawn) s → A (.act .abandonSpawn) s ∧ I (KAct.abandonSpawn.exec s.1).2

/-- What makes `I` hold between any two steps of the loop: its idle acts and
its ending of processes keep it, and so do starting what is pending and
stepping a process, as whole programs. On the way everything asked meets `A`. -/
structure Kept (x : Env W) (C A : KOp → Kernel × W → Prop) (I : Kernel → Prop) : Prop where
  idle : ∀ a s, a.idle = true → I s.1 → C (.act a) s → A (.act a) s ∧ I (a.exec s.1).2
  env : ∀ c s, c.invokes = false → C (.env c) s → A (.env c) s
  finish : ∀ index status s, I s.1 → C (.act (.finishProcess index status)) s →
    A (.act (.finishProcess index status)) s ∧ I (s.1.finishProcess index status).2
  start : ∀ program argv s, I s.1 → s.1.shared.spawn ≠ [] →
    Program.Meets (kexec x) C A (Scheduler.prepare program argv)
    (fun r t => ∀ launch, r = .ok launch → Ready C A I launch t) s
  step : ∀ turns index s, I s.1 → Program.Meets (kexec x) C A (Scheduler.stepProcess turns index) (Leaves I) s

/-- `Kept` for steps that may leave `T` of a process that trapped, which its
ending then makes good. -/
structure KeptTo (x : Env W) (C A : KOp → Kernel × W → Prop) (I : Kernel → Prop)
    (T : Kernel → ℕ → Prop) : Prop where
  idle : ∀ a s, a.idle = true → I s.1 → C (.act a) s → A (.act a) s ∧ I (a.exec s.1).2
  env : ∀ c s, c.invokes = false → C (.env c) s → A (.env c) s
  finish : ∀ index status s, I s.1 ∨ T s.1 index → C (.act (.finishProcess index status)) s →
    A (.act (.finishProcess index status)) s ∧ I (s.1.finishProcess index status).2
  looks : ∀ index s, T s.1 index → C (.act .look) s → A (.act .look) s
  parks : ∀ index external s, T s.1 index → C (.act (.endStep index external)) s →
    A (.act (.endStep index external)) s ∧ T ((KAct.endStep index external).exec s.1).2 index
  start : ∀ program argv s, I s.1 → s.1.shared.spawn ≠ [] →
    Program.Meets (kexec x) C A (Scheduler.prepare program argv)
    (fun r t => ∀ launch, r = .ok launch → Ready C A I launch t) s
  step : ∀ turns index s, I s.1 →
    Program.Meets (kexec x) C A (Scheduler.stepProcess turns index) (Halts I T index) s

theorem meets_closeFiles (henv : ∀ c s, c.invokes = false → C (.env c) s → A (.env c) s)
    (handles : List Handle) {f : Unit → Sched α} {Q : Except Stop α → Kernel × W → Prop} {s : Kernel × W}
    (h : ∀ w, Program.Meets (kexec x) C A (f ()) Q (s.1, w)) :
    Program.Meets (kexec x) C A (Scheduler.closeFiles handles >>= f) Q s := by
  induction handles generalizing s with
  | nil => exact h s.2
  | cons handle rest ih => exact meets_kenv fun hc => ⟨henv _ _ rfl hc, ih h⟩

namespace KeptTo
variable {I : Kernel → Prop} {T : Kernel → ℕ → Prop}

theorem weaken {B D : KOp → Kernel × W → Prop} (h : KeptTo x C A I T) (hc : ∀ o s, D o s → C o s)
    (hb : ∀ o s, A o s → B o s) : KeptTo x D B I T where
  idle a s ha hs hd := (h.idle a s ha hs (hc _ _ hd)).imp_left (hb _ _)
  env c s hcall hd := hb _ _ (h.env c s hcall (hc _ _ hd))
  finish index status s hs hd := (h.finish index status s hs (hc _ _ hd)).imp_left (hb _ _)
  looks index s hs hd := hb _ _ (h.looks index s hs (hc _ _ hd))
  parks index external s hs hd := (h.parks index external s hs (hc _ _ hd)).imp_left (hb _ _)
  start program argv s hs hspawn := by
    apply ((h.start program argv s hs hspawn).weaken hc hb).mono
    intro r t ht launch hr
    cases launch with
    | none => exact fun hd => (ht none hr (hc _ _ hd)).imp_left (hb _ _)
    | some launch => exact fun hd => (ht (some launch) hr (hc _ _ hd)).imp_left (hb _ _)
  step turns index s hs := (h.step turns index s hs).weaken hc hb

theorem look (h : KeptTo x C A I T) {f : KView → Sched α} {Q : Except Stop α → Kernel × W → Prop}
    {s : Kernel × W} (hs : I s.1) (hf : Program.Meets (kexec x) C A (f s.1.look) Q s) :
    Program.Meets (kexec x) C A (kact .look >>= f) Q s :=
  meets_kact fun hc => ⟨(h.idle .look s rfl hs hc).1, hf⟩

theorem startPending (h : KeptTo x C A I T) (count : ℕ) {s : Kernel × W} (hs : I s.1) :
    Program.Meets (kexec x) C A (Scheduler.startPending count) (Leaves I) s := by
  induction count generalizing s with
  | zero => exact leaves_ok _ hs
  | succ count ih =>
    unfold Scheduler.startPending
    apply h.look hs
    cases hnext : s.1.look.nextSpawn with
    | none => exact leaves_ok _ hs
    | some spawn =>
      have hspawn : s.1.shared.spawn ≠ [] := by
        rintro hempty
        simp [Kernel.look, hempty] at hnext
      apply meets_next (h.start spawn.program spawn.argv s hs hspawn)
      rintro (_ | launch) t ht
      · apply meets_kact
        intro hc
        obtain ⟨ha, hI⟩ := ht hc
        exact ⟨ha, meets_closeFiles h.env _ fun w => ih hI⟩
      · apply meets_kact
        intro hc
        obtain ⟨ha, hI⟩ := ht hc
        exact ⟨ha, ih hI⟩

theorem spawnFirst (h : KeptTo x C A I T) (c : Config) {s : Kernel × W} (hs : I s.1)
    (hspawn : s.1.shared.spawn ≠ []) : Program.Meets (kexec x) C A c.spawnFirst (Leaves I) s := by
  unfold Config.spawnFirst
  apply meets_next (h.start c.program c.argv s hs hspawn)
  rintro (_ | launch) t ht
  · apply meets_kact
    intro hc
    obtain ⟨ha, hI⟩ := ht hc
    exact ⟨ha, meets_closeFiles h.env _ fun w => leaves_ok _ hI⟩
  · apply meets_kact
    intro hc
    obtain ⟨ha, hI⟩ := ht hc
    exact ⟨ha, leaves_ok _ hI⟩

theorem stepAndPark (h : KeptTo x C A I T) (turns index : ℕ) {s : Kernel × W} (hs : I s.1) :
    Program.Meets (kexec x) C A (Scheduler.stepAndPark turns index) (Halts I T index) s := by
  unfold Scheduler.stepAndPark
  apply h.look hs
  apply Program.meets_bind (h.step turns index s hs)
  · intro step t ht
    rcases ht step rfl with hI | ⟨hended, hT⟩
    · apply h.look hI
      apply meets_kact
      intro hc
      obtain ⟨ha, hI⟩ := h.idle (.endStep index _) t rfl hI hc
      exact ⟨ha, halts_ok _ hI⟩
    · refine meets_kact fun hc => ⟨h.looks index t hT hc, meets_kact fun hc => ?_⟩
      obtain ⟨ha, hT⟩ := h.parks index _ t hT hc
      refine ⟨ha, fun a hr => .inr ⟨?_, hT⟩⟩
      obtain rfl := Except.ok.inj hr
      exact hended
  · intro e t _ a ha
    cases ha

theorem finishing (h : KeptTo x C A I T) (index : ℕ) (status : ℤ) {f : Unit → Sched α} {s : Kernel × W}
    (hs : I s.1 ∨ T s.1 index) (hf : ∀ t, I t.1 → Program.Meets (kexec x) C A (f ()) (Leaves I) t) :
    Program.Meets (kexec x) C A (kact (.finishProcess index status) >>=
        fun handles => Scheduler.closeFiles handles >>= f) (Leaves I) s := by
  apply meets_kact
  intro hc
  obtain ⟨ha, hI⟩ := h.finish index status s hs hc
  exact ⟨ha, meets_closeFiles h.env _ fun w => hf _ hI⟩

theorem pass (h : KeptTo x C A I T) (turns left index : ℕ) (progressed : Bool) {s : Kernel × W} (hs : I s.1) :
    Program.Meets (kexec x) C A (Scheduler.pass turns left index progressed) (Leaves I) s := by
  induction left generalizing index progressed s with
  | zero => exact fun a ha => (by cases ha)
  | succ left ih =>
    unfold Scheduler.pass
    apply h.look hs
    apply Program.meets_ite
    · exact fun _ => leaves_ok _ hs
    intro _
    apply Program.meets_bind (h.stepAndPark turns index hs)
    · intro step t ht
      have hstay : (∀ status, step ≠ .ended status) → I t.1 := by
        intro hnot
        rcases ht step rfl with hI | ⟨⟨status, hended⟩, -⟩
        · exact hI
        · exact absurd hended (hnot status)
      cases step with
      | ran => exact ih _ _ (hstay (by simp))
      | replaced => exact ih _ _ (hstay (by simp))
      | stuck => exact ih _ _ (hstay (by simp))
      | ended status =>
        apply h.finishing index status ((ht _ rfl).imp_right And.right)
        intro u hu
        apply h.look hu
        cases u.1.look.exitStatus with
        | some status => exact leaves_ok _ hu
        | none => exact ih _ _ hu
    · intro e t _ a ha
      cases ha

theorem killAll (h : KeptTo x C A I T) (status : ℤ) (count : ℕ) {s : Kernel × W} (hs : I s.1) :
    Program.Meets (kexec x) C A (Scheduler.killAll status count) (Leaves I) s := by
  induction count generalizing s with
  | zero =>
    intro hc
    obtain ⟨ha, hI⟩ := h.idle (.forceExit status) s rfl hs hc
    exact ⟨ha, leaves_ok _ hI⟩
  | succ count ih => exact h.finishing 0 status (.inl hs) fun t ht => ih ht

theorem pastDeadline (h : KeptTo x C A I T) {s : Kernel × W} (hs : I s.1) :
    Program.Meets (kexec x) C A Scheduler.pastDeadline (Leaves I) s := by
  unfold Scheduler.pastDeadline
  apply h.look hs
  cases s.1.look.limits.wallClock with
  | none => exact leaves_ok _ hs
  | some limit =>
    refine meets_kenv fun hc => ⟨h.env _ _ rfl hc, Program.meets_ite (fun _ => ?_) fun _ => leaves_ok _ hs⟩
    exact meets_kenv fun hc => ⟨h.env _ _ rfl hc, leaves_ok _ hs⟩

theorem spent (h : KeptTo x C A I T) (budget : Budget) (served : ℕ) (started : Instant) {s : Kernel × W}
    (hs : I s.1) : Program.Meets (kexec x) C A (Scheduler.spent budget served started) (Leaves I) s := by
  unfold Scheduler.spent
  apply Program.meets_ite
  · exact fun _ => leaves_ok _ hs
  intro _
  cases budget.duration with
  | none => exact leaves_ok _ hs
  | some limit => exact meets_kenv fun hc => ⟨h.env _ _ rfl hc, leaves_ok _ hs⟩

theorem passes (h : KeptTo x C A I T) (budget : Budget) (served turns : ℕ) {s : Kernel × W} (hs : I s.1) :
    Program.Meets (kexec x) C A (Scheduler.passes budget served turns) (Leaves I) s := by
  induction turns generalizing s with
  | zero => exact fun a ha => (by cases ha)
  | succ turns ih =>
    unfold Scheduler.passes
    apply h.look hs
    apply meets_next (h.startPending _ hs)
    intro _ t ht
    apply meets_next (h.pastDeadline ht)
    intro past u hu
    apply Program.meets_ite
    · intro _
      apply h.look hu
      apply meets_next (h.killAll _ _ hu)
      intro _ v hv
      exact h.look hv (leaves_ok _ hv)
    · intro _
      apply h.look hu
      apply meets_next (h.pass turns _ 0 false hu)
      intro swept v hv
      cases swept with
      | finished status => exact leaves_ok _ hv
      | swept progressed =>
        apply h.look hv
        refine Program.meets_ite (fun _ => leaves_ok _ hv) fun _ =>
          Program.meets_ite (fun _ => ?_) fun _ => ?_
        · apply meets_kact
          intro hc
          obtain ⟨ha, hI⟩ := h.idle .whyIdle v rfl hv hc
          exact ⟨ha, leaves_ok _ hI⟩
        · apply meets_next (h.spent _ _ _ hv)
          intro done w hw
          exact Program.meets_ite (fun _ => leaves_ok _ hw) fun _ => ih hw

theorem run (h : KeptTo x C A I T) (turns : ℕ) (budget : Budget) {s : Kernel × W} (hs : I s.1) :
    Program.Meets (kexec x) C A (Scheduler.run turns budget) (Leaves I) s := by
  unfold Scheduler.run
  apply h.look hs
  apply meets_kact
  intro hc
  obtain ⟨ha, hI⟩ := h.idle .beginRun s rfl hs hc
  exact ⟨ha, h.passes _ _ _ hI⟩

/-- The rule of sessions: where the caller has control `I` holds, and what was
asked on the way there met `A`. -/
theorem between (h : KeptTo x C A I T) (init : ∀ (c : Config) started k, c.kernel started = some k → I k)
    (input : ∀ (k : Kernel) data closed, I k →
      I { k with shared := { k.shared with stdin := ⟨data, closed, false⟩ } })
    (output : ∀ (k : Kernel) out err, I k →
      I { k with shared := { k.shared with stdout := out, stderr := err } })
    {s : Session} {w : W} (hs : Between x C s w) :
    I s.kernel ∧ Between x (fun o s => C o s ∧ A o s) s w := by
  induction hs with
  | start c started k k' w w' hk hc hr =>
    obtain ⟨ha, hI⟩ := (h.spawnFirst c (s := (k, w)) (init c started k hk) (Config.kernel_spawn hk)).run hc
    rw [hr] at hI
    exact ⟨hI true rfl, .start c started k k' w w' hk (hc.and _ ha) hr⟩
  | elapse s w w' _ ih => exact ⟨ih.1, .elapse s w w' ih.2⟩
  | step k k' w w' turns budget slice _ hc hr ih =>
    obtain ⟨ha, hI⟩ := (h.run turns budget (s := (k, w)) ih.1).run hc
    rw [hr] at hI
    exact ⟨hI slice rfl, .step k k' w w' turns budget slice ih.2 (hc.and _ ha) hr⟩
  | writeStdin s w bytes _ ih => exact ⟨input _ _ _ ih.1, .writeStdin s w bytes ih.2⟩
  | closeStdin s w _ ih => exact ⟨input _ _ _ ih.1, .closeStdin s w ih.2⟩
  | takeStdout s w _ ih => exact ⟨output _ _ s.kernel.shared.stderr ih.1, .takeStdout s w ih.2⟩
  | takeStderr s w _ ih => exact ⟨output _ s.kernel.shared.stdout _ ih.1, .takeStderr s w ih.2⟩

theorem reached (h : KeptTo x C A I T) (init : ∀ (c : Config) started k, c.kernel started = some k → I k)
    (input : ∀ (k : Kernel) data closed, I k →
      I { k with shared := { k.shared with stdin := ⟨data, closed, false⟩ } })
    (output : ∀ (k : Kernel) out err, I k →
      I { k with shared := { k.shared with stdout := out, stderr := err } })
    {k : Kernel} {w : W} (hk : Reached x C k w) : Reached x (fun o s => C o s ∧ A o s) k w := by
  cases hk with
  | between s w hs => exact .between s w (h.between init input output hs).2
  | starting c started k k' w w' hk hc hr =>
    obtain ⟨ha, -⟩ := (h.spawnFirst c (s := (k, w)) (init c started k hk) (Config.kernel_spawn hk)).run hc
    exact .starting c started k _ w _ hk (hc.and _ ha) hr
  | running k k' w w' turns budget hs hc hr =>
    obtain ⟨hI, hbetween⟩ := h.between init input output hs
    obtain ⟨ha, -⟩ := (h.run turns budget (s := (k, w)) hI).run hc
    exact .running k _ w _ turns budget hbetween (hc.and _ ha) hr

end KeptTo

namespace Kept
variable {I : Kernel → Prop}

theorem loose (h : Kept x C A I) : KeptTo x C A I fun _ _ => False where
  idle := h.idle
  env := h.env
  finish index status s hs := h.finish index status s (hs.resolve_right id)
  looks _ _ hs := hs.elim
  parks _ _ _ hs := hs.elim
  start := h.start
  step turns index s hs := (h.step turns index s hs).mono fun _ _ hleaves => hleaves.halts

theorem of_loose (h : KeptTo x C A I fun _ _ => False) : Kept x C A I where
  idle := h.idle
  env := h.env
  finish index status s hs := h.finish index status s (.inl hs)
  start := h.start
  step turns index s hs := (h.step turns index s hs).mono fun _ _ hhalts a ha =>
    (hhalts a ha).resolve_right And.right

theorem weaken {B D : KOp → Kernel × W → Prop} (h : Kept x C A I) (hc : ∀ o s, D o s → C o s)
    (hb : ∀ o s, A o s → B o s) : Kept x D B I := of_loose (h.loose.weaken hc hb)

theorem run (h : Kept x C A I) (turns : ℕ) (budget : Budget) {s : Kernel × W} (hs : I s.1) :
    Program.Meets (kexec x) C A (Scheduler.run turns budget) (Leaves I) s := h.loose.run turns budget hs

theorem between (h : Kept x C A I) (init : ∀ (c : Config) started k, c.kernel started = some k → I k)
    (input : ∀ (k : Kernel) data closed, I k →
      I { k with shared := { k.shared with stdin := ⟨data, closed, false⟩ } })
    (output : ∀ (k : Kernel) out err, I k →
      I { k with shared := { k.shared with stdout := out, stderr := err } })
    {s : Session} {w : W} (hs : Between x C s w) :
    I s.kernel ∧ Between x (fun o s => C o s ∧ A o s) s w := h.loose.between init input output hs

theorem reached (h : Kept x C A I) (init : ∀ (c : Config) started k, c.kernel started = some k → I k)
    (input : ∀ (k : Kernel) data closed, I k →
      I { k with shared := { k.shared with stdin := ⟨data, closed, false⟩ } })
    (output : ∀ (k : Kernel) out err, I k →
      I { k with shared := { k.shared with stdout := out, stderr := err } })
    {k : Kernel} {w : W} (hk : Reached x C k w) : Reached x (fun o s => C o s ∧ A o s) k w :=
  h.loose.reached init input output hk

end Kept

end
end Wasmux
