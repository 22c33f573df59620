import Wasmux.Rules
import Wasmux.Blocking

/-!
# What the steps of the scheduler ask for

Making a program ready, and advancing a host command, each ask for a few of
the scheduler's operations. What these few keep, the whole of it keeps.
-/

set_option autoImplicit false

namespace Wasmux
open Effects Abi

/-- What making a program ready asks for. -/
def KOp.prepares : KOp → Prop
  | .machine _ _ => False
  | .env c => c.invokes = false
  | .act a => match a with
    | .look | .charge _ | .release _ => True
    | _ => False

/-- What advancing the host command at `index` asks for. -/
def KOp.advances (index : ℕ) : KOp → Prop
  | .machine i o => i = index ∧ o.streams
  | .env _ => True
  | .act a => match a with
    | .host i | .appendInput i _ | .setPhase i _ | .advance i _ => i = index
    | .noteHostPending => True
    | _ => False

/-- What reading and writing the standard streams of the host command at
`index` asks for. -/
def KOp.transfers (index : ℕ) : KOp → Prop
  | .machine i o => i = index ∧ o.streams
  | .env _ => False
  | .act a => match a with
    | .host i | .appendInput i _ | .advance i _ => i = index
    | _ => False

/-- What reading its standard input asks for. -/
def KOp.drains (index : ℕ) : KOp → Prop
  | .machine i o => i = index ∧ o.streams
  | .env _ => False
  | .act a => match a with
    | .appendInput i _ => i = index
    | _ => False

/-- What writing its standard streams out asks for. -/
def KOp.emits (index : ℕ) : KOp → Prop
  | .machine i o => i = index ∧ o.streams
  | .env _ => False
  | .act a => match a with
    | .host i | .advance i _ => i = index
    | _ => False

/-- What a guest that came back from its entry asks for. -/
def KOp.returns (index : ℕ) : KOp → Prop
  | .machine _ _ => False
  | .env c => c.invokes = false
  | .act a => match a with
    | .look | .charge _ | .release _ => True
    | .takeSuspension i | .saveJmp i _ _ | .restoreJmp i _ _ | .setResume i _ => i = index
    | .execRequest i | .releaseInstance i | .launchExec i _ | .abandonExec i => i = index
    | _ => False

/-- What the turn of a guest asks for. -/
def KOp.tends (index : ℕ) : KOp → Prop
  | .machine i _ => i = index
  | .env c => c.invokes = false
  | .act a => (KOp.act a).returns index ∨ match a with
    | .attach i | .rewind i | .resumeWith i _ | .inst i | .trapMessage i _ => i = index
    | _ => False

theorem KOp.prepares.returns {index : ℕ} {o : KOp} (h : o.prepares) : o.returns index := by
  cases o with
  | machine => cases h
  | env => exact h
  | act a =>
    cases a with
    | look | charge | release => trivial
    | _ => cases h

theorem KOp.returns.tends {index : ℕ} {o : KOp} (h : o.returns index) : o.tends index := by
  cases o with
  | machine => cases h
  | env => exact h
  | act a => exact .inl h

theorem KOp.emits.transfers {index : ℕ} {o : KOp} (h : o.emits index) : o.transfers index := by
  cases o with
  | machine => exact h
  | env => cases h
  | act a =>
    cases a with
    | host | advance => exact h
    | _ => cases h

theorem KOp.drains.transfers {index : ℕ} {o : KOp} (h : o.drains index) : o.transfers index := by
  cases o with
  | machine => exact h
  | env => cases h
  | act a =>
    cases a with
    | appendInput => exact h
    | _ => cases h

theorem KOp.transfers.advances {index : ℕ} {o : KOp} (h : o.transfers index) : o.advances index := by
  cases o with
  | machine => exact h
  | env => cases h
  | act a =>
    cases a with
    | host | appendInput | advance => exact h
    | _ => cases h

section
variable {α β : Type} {B : KOp → Prop}

theorem only_kact {a : KAct} {f : a.Ans → Sched α} (h : B (.act a)) (hf : ∀ r, (f r).Only B) :
    (kact a >>= f).Only B := ⟨h, hf⟩

theorem only_kenv {c : KCall} {f : c.Ans → Sched α} (h : B (.env c)) (hf : ∀ r, (f r).Only B) :
    (kenv c >>= f).Only B := ⟨h, hf⟩

theorem only_onProc {index : ℕ} {p : Program sig Stop α} {D : Op → Prop} (h : ∀ o, D o → B (.machine index o))
    (hp : p.Only D) : (onProc index p).Only B := Program.only_relabel h hp

end

theorem only_closeFiles {B : KOp → Prop} (h : ∀ handle, B (.env (.closeFile handle)))
    (handles : List Handle) :
    (Scheduler.closeFiles handles).Only B := by
  induction handles with
  | nil => trivial
  | cons handle rest ih => exact only_kenv (h handle) fun _ => ih

theorem KOp.prepares_procs {W : Type} (x : Env W) {o : KOp} (h : o.prepares) (s : Kernel × W) :
    (kexec x o s).2.1.procs = s.1.procs := by
  cases o with
  | machine => cases h
  | env c => rfl
  | act a =>
    cases a with
    | look | charge | release => rfl
    | _ => cases h

namespace Scheduler

theorem only_reserve (inst : Instance) : (reserve inst).Only KOp.prepares := by
  apply only_kact trivial
  intro charged
  split
  · refine only_kenv (B := KOp.prepares) (by rfl) ?_
    intro granted
    split
    · trivial
    · exact only_kact trivial fun _ => trivial
  · trivial

theorem only_prepare (program : ProgramId) (argv : List Bytes) :
    (prepare program argv).Only KOp.prepares := by
  apply only_kact trivial
  intro v
  split
  · trivial
  · exact only_kenv (B := KOp.prepares) (by rfl) fun _ => trivial
  · refine only_kenv (B := KOp.prepares) (by rfl) ?_
    rintro (_ | inst)
    · trivial
    · exact only_reserve inst

theorem only_replaceInstance (index : ℕ) : (replaceInstance index).Only (KOp.returns index) := by
  refine only_kact (a := .execRequest index) rfl ?_
  rintro (_ | spawn)
  · trivial
  refine only_kact rfl fun _ => ?_
  apply Program.only_bind ((only_prepare spawn.program spawn.argv).mono fun _ => KOp.prepares.returns)
  rintro (_ | launch)
  · refine only_kact (a := .abandonExec index) rfl ?_
    intro handles
    exact Program.only_bind (only_closeFiles (fun _ => rfl) handles) fun _ => trivial
  · exact only_kact rfl fun _ => trivial

theorem only_afterReturn (index : ℕ) : (afterReturn index).Only (KOp.returns index) := by
  refine only_kact (a := .takeSuspension index) rfl ?_
  rintro (_ | suspension)
  · trivial
  cases suspension with
  | setjmp buf sp => exact only_kact rfl fun _ => trivial
  | longjmp buf value =>
    refine only_kact (a := .restoreJmp index buf value) rfl ?_
    intro restored
    split <;> trivial
  | blocked number args => exact only_kact rfl fun _ => trivial
  | exit status => trivial
  | exec => exact only_replaceInstance index

theorem only_enter (index : ℕ) : (enter index).Only (KOp.tends index) := by
  refine only_kact (a := .inst index) (.inr rfl) ?_
  rintro (_ | inst)
  · trivial
  refine only_kenv (c := .guest inst) rfl ?_
  intro run
  apply Program.only_bind (only_onProc (D := fun _ => True)
    (fun _ _ => rfl) (Program.only_of_forall (fun _ => trivial) _))
  intro _
  cases run.trap with
  | some kind => exact only_kact (.inr rfl) fun _ => trivial
  | none => exact (only_afterReturn index).mono fun _ => KOp.returns.tends

theorem only_retry (index : ℕ) (number : ℤ) (args : Args) :
    (retry index number args).Only (KOp.tends index) := by
  apply Program.only_bind (only_onProc (D := fun _ => True)
    (fun _ _ => rfl) (Program.only_of_forall (fun _ => trivial) _))
  intro outcome
  cases outcome with
  | blocked => exact only_kact (.inl rfl) fun _ => trivial
  | exit status => trivial
  | exec => exact (only_replaceInstance index).mono fun _ => KOp.returns.tends
  | value value => exact only_kact (.inr rfl) fun _ => only_enter index

theorem emits_flush (index : ℕ) (fd : ℤ) (bytes : Bytes) (turns done : ℕ) :
    (flush index fd bytes turns done).Only (KOp.emits index) := by
  induction turns generalizing done with
  | zero => trivial
  | succ turns ih =>
    unfold flush
    split
    · trivial
    apply Program.only_bind (only_onProc
      (fun _ ho => ⟨rfl, ho⟩) (Program.only_catching (only_writeBytes fd _)))
    intro answer
    refine only_kact rfl fun _ => ?_
    rcases answer with fault | n
    · cases fault <;> trivial
    · dsimp only
      split
      · trivial
      · exact ih _

theorem emits_flushAll (index : ℕ) : (flushAll index).Only (KOp.emits index) := by
  refine only_kact (a := .host index) rfl ?_
  intro view
  split
  · apply Program.only_bind (emits_flush _ _ _ _ _)
    rintro (_ | _)
    · apply Program.only_bind (emits_flush _ _ _ _ _)
      rintro (_ | _) <;> trivial
    · trivial
  · trivial

theorem only_flushAll (index : ℕ) : (flushAll index).Only (KOp.transfers index) :=
  (emits_flushAll index).mono fun _ => KOp.emits.transfers

theorem only_invoke (index : ℕ) : (invoke index).Only (KOp.advances index) := by
  refine only_kact (a := .host index) rfl ?_
  intro view
  split
  · apply only_kenv trivial
    rintro (e | exit)
    · dsimp only
      split
      · exact only_kact trivial fun _ => trivial
      · exact only_kact rfl fun _ => (only_flushAll index).mono fun _ => KOp.transfers.advances
    · exact only_kact rfl fun _ => (only_flushAll index).mono fun _ => KOp.transfers.advances
  · trivial

theorem drains_drain (index turns : ℕ) : (drain index turns).Only (KOp.drains index) := by
  induction turns with
  | zero => trivial
  | succ turns ih =>
    apply Program.only_bind (only_onProc
      (fun _ ho => ⟨rfl, ho⟩) (Program.only_catching (only_readBytes 0 8192)))
    rintro (fault | r)
    · cases fault <;> trivial
    · dsimp only
      split
      · trivial
      · exact only_kact rfl fun _ => ih

theorem only_drain (index turns : ℕ) : (drain index turns).Only (KOp.transfers index) :=
  (drains_drain index turns).mono fun _ => KOp.drains.transfers

theorem only_stepHost (turns index : ℕ) : (stepHost turns index).Only (KOp.advances index) := by
  refine only_kact (a := .host index) rfl ?_
  intro view
  split
  · trivial
  · split
    · split
      · apply Program.only_bind ((only_drain index turns).mono fun _ => KOp.transfers.advances)
        rintro (_ | _)
        · exact only_invoke index
        · trivial
      · exact only_invoke index
    · exact (only_flushAll index).mono fun _ => KOp.transfers.advances

theorem only_stepProcess {B : KOp → Prop} (turns index : ℕ) (htends : ∀ o, KOp.tends index o → B o)
    (hhost : (stepHost turns index).Only B) : (stepProcess turns index).Only B := by
  refine only_kact (htends _ (.inr rfl)) ?_
  rintro (_ | _ | resume)
  · trivial
  · exact hhost
  cases resume with
  | fresh => exact (only_enter index).mono htends
  | rewind => exact only_kact (htends _ (.inr rfl)) fun _ => (only_enter index).mono htends
  | blocked number args => exact (only_retry index number args).mono htends

end Scheduler
end Wasmux
