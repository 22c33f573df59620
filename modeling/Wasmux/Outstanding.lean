import Wasmux.Timers
import Wasmux.Turns

/-!
# Calls that are outstanding

A call that has to wait is put aside with the guest's stack, and made again when
the process has its turn. What a process keeps for it is there from its first
attempt to its last, and gone before the guest goes on.
-/

set_option autoImplicit false

namespace Wasmux
open Effects Abi

/-- The call that a process put aside, or is to make again. -/
def Suspension.call : Suspension → Option (ℤ × Args)
  | .blocked number args => some (number, args)
  | _ => none

def Resume.call : Resume → Option (ℤ × Args)
  | .blocked number args => some (number, args)
  | _ => none

def outstanding (suspension : Option Suspension) (resume : Resume) : Option (ℤ × Args) :=
  (suspension.bind Suspension.call).or resume.call

/-- What a call changes of its process that outlives the attempt: the task, the
parents that wait for it, and what is kept for the next attempt. -/
structure Standing where
  task : Task
  parents : List Task
  deadline : Option Instant
  maskToRestore : Option Sigset

def Ctx.standing (c : Ctx) : Standing := ⟨c.task, c.vforkStack, c.exec.deadline, c.exec.maskToRestore⟩

def Act.idles : Act → Bool
  | .dropPending _ | .setAction _ _ | .setSignalFlag _ | .saveSp | .stopRewind | .unwind _ | .compute _ _ =>
      true
  | a => a.streams

def Op.idles : Op → Prop
  | .act a => a.idles = true
  | .env _ => True

theorem Op.streams.idles {o : Op} (h : o.streams) : o.idles := by
  cases o with
  | env => trivial
  | act a =>
    cases a with
    | view | put | setDescPos | stdinTake | pipeTake | pipePut | writeOutput | raise | wantStdin
    | noteVfsPending => rfl
    | _ => cases h

theorem Act.standing_exec (a : Act) (m : Machine) (h : a.idles = true)
    (hset : ∀ signal action, a ≠ .setAction signal action) :
    (a.exec m).2.ctx.standing = m.ctx.standing := by
  cases a with
  | setAction signal action => exact absurd rfl (hset signal action)
  | put start data =>
    simp only [exec]
    split <;> rfl
  | view | setDescPos | stdinTake | pipeTake | pipePut | writeOutput | raise | wantStdin | noteVfsPending =>
      rfl
  | dropPending | setSignalFlag | saveSp | stopRewind | unwind | compute => rfl
  | _ => cases h

theorem Act.suspension_exec (a : Act) (m : Machine) (h : a.idles = true) (hunwind : ∀ why, a ≠ .unwind why) :
    (a.exec m).2.ctx.exec.suspension = m.ctx.exec.suspension := by
  cases a with
  | unwind why => exact absurd rfl (hunwind why)
  | put start data =>
    simp only [exec]
    split <;> rfl
  | view | setDescPos | stdinTake | pipeTake | pipePut | writeOutput | raise | wantStdin | noteVfsPending =>
      rfl
  | dropPending | setAction | setSignalFlag | saveSp | stopRewind | compute => rfl
  | _ => cases h

theorem Kernel.standing_procOf (spawn : Spawn) (launch : Launch) : (Kernel.procOf spawn launch).ctx.standing =
    ⟨(Kernel.procOf spawn launch).ctx.task, [], none, none⟩ := by
  cases launch <;> rfl

/-! ## A call and its notes -/

section
variable {W : Type} {x : Env W}

theorem Op.concludes.serves {o : Op} (h : o.concludes) : o ≠ .act .served := by
  rintro rfl
  exact h

theorem along_serves (number : ℤ) (a : Args) (s : Machine × W) :
    ((handle number a).catching >>= conclude : Program sig Stop Outcome).Along (exec x)
    (fun o _ => o ≠ .act .served) s := by
  rw [Program.along_bind, Program.along_catching]
  refine ⟨(along_gates number a s).mono _ ?_, fun r t _ => ?_⟩
  · rintro o t ⟨hgates, -⟩ rfl
    cases hgates
  · exact ((concludes_conclude r).along _ t).mono _ fun o _ ho => ho.serves

theorem run_suspends (number : ℤ) (a : Args) (m : Machine) (w : W) : ∃ outcome s,
    (dispatch number a : Program sig Stop Outcome).run (exec x) (m, w) = (.ok outcome, s) ∧
      s.1.ctx.exec.suspension = m.ctx.exec.suspension ∧ s.1.inst.unwinding = m.inst.unwinding := by
  obtain ⟨hsuspension, hunwinding, -⟩ := entry_handle (x := x) number a (m.counted, w)
  obtain ⟨outcome, s, hconclude, hends⟩ := entry_conclude (ε := Stop) (x := x)
    ((handle number a).run (exec x) (m.counted, w)).1 ((handle number a).run (exec x) (m.counted, w)).2
  refine ⟨outcome, s, (run_dispatch x number a m w).trans hconclude, ?_⟩
  rcases hends with ⟨-, -, rfl⟩ | ⟨-, hentry, -⟩ | ⟨-, -, rfl, -⟩
  · exact ⟨hsuspension, hunwinding⟩
  · injection hentry with h1 h2 h3
    exact ⟨h1.trans hsuspension, h2.trans hunwinding⟩
  · exact ⟨hsuspension, hunwinding⟩

end

/-- What is said of a process outside its calls, and while one is outstanding.
The notes have the call that an attempt makes again. -/
structure Calls (τ : Type) where
  again : τ → Option (ℤ × Args)
  idle : Standing → τ → Prop
  held : ℤ → Args → Standing → τ → Prop

namespace Calls
variable {τ W : Type} (C : Calls τ)

def Due (number : ℤ) (a : Args) (s : Standing) (t : τ) : Prop :=
  (C.again t = none ∧ C.idle s t) ∨ (C.again t = some (number, a) ∧ C.held number a s t)

structure NoLess (t u : τ) : Prop where
  idle : ∀ s, C.idle s t → C.idle s u
  held : ∀ number a s, C.held number a s t → C.held number a s u

/-- What makes it so in every session, and `J` true at each attempt. -/
structure Follows (H : Chronicle τ) (x : Env W) (J : Machine → W → τ → Prop) : Prop where
  fresh : C.again H.fresh = none ∧ ∀ task, C.idle ⟨task, [], none, none⟩ H.fresh
  machine : ∀ o m a t, o.idles → C.again (H.machine o m a t) = C.again t ∧ C.NoLess t (H.machine o m a t)
  command : ∀ c r t, C.again (H.command c r t) = C.again t ∧ C.NoLess t (H.command c r t)
  stepped : ∀ a p t, C.NoLess t (H.act a p t)
  attach : ∀ i p t, C.again (H.act (.attach i) p t) = p.resume.call
  others : ∀ a p t, (∀ i, a ≠ .attach i) → C.again (H.act a p t) = C.again t
  action : ∀ signal action s t, C.idle s t → C.idle { s with task := s.task.setAction signal action } t
  attempt : ∀ m w t, (∀ number a, C.again t = none ∨ C.again t = some (number, a) →
    C.Due number a m.ctx.standing t) → J m w t
  due : ∀ number a m w t, C.Due number a m.ctx.standing t → ∀ outcome s,
    (dispatch number a : Program sig Stop Outcome).run (H.noting x) ((m, w), t) = (.ok outcome, s) →
    C.again s.2 = none ∧ (outcome = .blocked → C.held number a s.1.1.ctx.standing s.2) ∧
      (outcome ≠ .blocked → C.idle s.1.1.ctx.standing s.2)

/-- How a process stands with its notes. -/
structure Stands (suspension : Option Suspension) (unwinding : Bool) (resume : Resume) (s : Standing)
    (t : τ) : Prop where
  again : C.again t = none ∨ C.again t = resume.call
  idle : outstanding suspension resume = none → C.idle s t
  held : ∀ number a, outstanding suspension resume = some (number, a) → C.held number a s t
  alone : suspension ≠ none → resume = .fresh ∧ unwinding = true

/-- A guest that is running has no call outstanding. -/
structure Free (suspension : Option Suspension) (s : Standing) (t : τ) : Prop where
  suspension : suspension = none
  idle : C.idle s t
  again : C.again t = none

def places : Places τ where
  rests p t := C.Stands p.ctx.exec.suspension p.inst.unwinding p.resume p.ctx.standing t
  enters ctx inst t := C.Stands ctx.exec.suspension inst.unwinding .fresh ctx.standing t
  retries number a ctx _ t := ctx.exec.suspension = none ∧ C.again t = some (number, a) ∧
    C.held number a ctx.standing t

def Serves (J : Machine → W → τ → Prop) (o : Op) (s : (Machine × W) × τ) : Prop :=
    o = .act .served → J s.1.1 s.1.2 s.2

variable {C}

section
variable {suspension : Option Suspension} {unwinding : Bool} {s : Standing} {t u : τ} {number : ℤ} {a : Args}

theorem Free.rests (h : C.Free suspension s t) {resume : Resume} (hresume : resume.call = none) :
    C.Stands suspension unwinding resume s t where
  again := .inl h.again
  idle _ := h.idle
  held number a houtstanding := by
    rw [outstanding, h.suspension, hresume] at houtstanding
    cases houtstanding
  alone hsuspension := absurd h.suspension hsuspension

theorem Stands.free (h : C.Stands suspension unwinding .fresh s t) (hrunning : unwinding = false) :
    C.Free suspension s t := by
  have hsuspension : suspension = none := by
    by_contra hne
    have hunwinding := (h.alone hne).2
    rw [hrunning] at hunwinding
    cases hunwinding
  refine ⟨hsuspension, h.idle ?_, ?_⟩
  · rw [outstanding, hsuspension]
    rfl
  · rcases h.again with hagain | hagain
    · exact hagain
    · exact hagain

theorem stands_again (hsuspension : suspension = none) (hagain : C.again t = none)
    (hheld : C.held number a s t) :
    C.Stands suspension unwinding (.blocked number a) s t where
  again := .inl hagain
  idle h := by
    rw [outstanding, hsuspension] at h
    cases h
  held number' a' h := by
    rw [outstanding, hsuspension] at h
    obtain ⟨rfl, rfl⟩ := Prod.ext_iff.mp (Option.some.inj h)
    exact hheld
  alone h := absurd hsuspension h

theorem Stands.alike {resume : Resume} (h : C.Stands suspension unwinding resume s t) (hlike : C.NoLess t u)
    (hagain : C.again u = C.again t ∨ C.again u = resume.call) :
    C.Stands suspension unwinding resume s u where
  again := by
    rcases hagain with hsame | hcall
    · rw [hsame]
      exact h.again
    · exact .inr hcall
  idle hnone := hlike.idle s (h.idle hnone)
  held number a hsome := hlike.held number a s (h.held number a hsome)
  alone := h.alone

end

namespace Follows
variable {H : Chronicle τ} {x : Env W} {J : Machine → W → τ → Prop} {m : Machine} {w : W} {t : τ}

/-- A call that is made when it is due. -/
theorem meets_dispatch (h : C.Follows H x J) {number : ℤ} {a : Args}
    (hcall : C.again t = none ∨ C.again t = some (number, a))
    (hdue : ∀ number a, C.again t = none ∨ C.again t = some (number, a) → C.Due number a m.ctx.standing t) :
    Program.Meets (H.noting x) (fun _ _ => True) (Serves J) (dispatch number a : Program sig Stop Outcome)
      (fun r s => ∃ outcome, r = .ok outcome ∧ s.1.1.ctx.exec.suspension = m.ctx.exec.suspension ∧
        s.1.1.inst.unwinding = m.inst.unwinding ∧ C.again s.2 = none ∧
        (outcome = .blocked → C.held number a s.1.1.ctx.standing s.2) ∧
        (outcome ≠ .blocked → C.idle s.1.1.ctx.standing s.2)) ((m, w), t) := by
  apply Program.meets_of_run
  · refine ⟨fun _ => h.attempt m w t hdue, ?_⟩
    have hrest := along_serves (x := x) number a (m.counted, w)
    exact (Program.along_noting (s := ((m.counted, w), _)) hrest).mono _ fun o s ho hserved =>
      absurd hserved ho
  · obtain ⟨outcome, s, hrun, hsuspension, hunwinding⟩ := run_suspends (x := x) number a m w
    obtain ⟨t', hnoted⟩ := H.run_noting (x := x) (dispatch number a : Program sig Stop Outcome) (m, w) t
    rw [hrun] at hnoted
    obtain ⟨hagain, hblocked, hidle⟩ := h.due number a m w t (hdue number a hcall) outcome (s, t') hnoted
    show ∃ outcome, _
    rw [hnoted]
    exact ⟨outcome, rfl, hsuspension, hunwinding, hagain, hblocked, hidle⟩

/-! ### What a guest does -/

/-- What neither suspends the guest nor makes a call. -/
def Spares : Op → Prop
  | .act a => a.idles = true ∧ ∀ why, a ≠ .unwind why
  | .env _ => True

theorem spares_delivers {o : Op} (h : o.delivers) : Spares o := by
  cases o with
  | env => trivial
  | act a =>
    cases a with
    | view | put | dropPending | setAction => exact ⟨rfl, fun _ => Act.noConfusion⟩
    | _ => cases h

theorem meets_spares (h : C.Follows H x J) {α : Type} {p : Program sig Stop α} (hp : p.Only Spares)
    (hs : C.Free m.ctx.exec.suspension m.ctx.standing t) :
    Program.Meets (H.noting x) (fun _ _ => True) (Serves J) p
      (fun _ s => C.Free s.1.1.ctx.exec.suspension s.1.1.ctx.standing s.2) ((m, w), t) := by
  refine Program.meets_only (I := fun s : (Machine × W) × τ =>
    C.Free s.1.1.ctx.exec.suspension s.1.1.ctx.standing s.2) ?_ hp hs
  rintro o ⟨⟨m, w⟩, t⟩ ho hfree -
  have hidles : o.idles := by
    cases o with
    | env => trivial
    | act a => exact ho.1
  obtain ⟨hagain, hlike⟩ := h.machine o m (exec x o (m, w)).1 t hidles
  refine ⟨?_, ?_, ?_, hagain.trans hfree.again⟩
  · rintro rfl
    cases ho.1
  · cases o with
    | env => exact hfree.suspension
    | act a => exact (a.suspension_exec m ho.1 ho.2).trans hfree.suspension
  · cases o with
    | env => exact hlike.idle _ hfree.idle
    | act a =>
      by_cases hset : ∀ signal action, a ≠ .setAction signal action
      · have hsame : (exec x (.act a) (m, w)).2.1.ctx.standing = m.ctx.standing := a.standing_exec m ho.1 hset
        show C.idle (exec x (.act a) (m, w)).2.1.ctx.standing _
        rw [hsame]
        exact hlike.idle _ hfree.idle
      · simp only [not_forall, not_not] at hset
        obtain ⟨signal, action, rfl⟩ := hset
        exact hlike.idle _ (h.action signal action _ _ hfree.idle)

section
variable {α : Type}

theorem meets_view {f : View → Program sig Stop α} {Q : Except Stop α → (Machine × W) × τ → Prop}
    (hQ : Program.Meets (H.noting x) (fun _ _ =>
      True) (Serves J) (f m.view) Q ((m, w), H.machine (.act .view) m m.view t)) :
    Program.Meets (H.noting x) (fun _ _ => True) (Serves J) (view >>= f) Q ((m, w), t) :=
  fun _ => ⟨(fun heq => by cases heq), hQ⟩

theorem free_view (h : C.Follows H x J) (hs : C.Free m.ctx.exec.suspension m.ctx.standing t) :
    C.Free m.ctx.exec.suspension m.ctx.standing (H.machine (.act .view) m m.view t) := by
  obtain ⟨hagain, hlike⟩ := h.machine (.act .view) m m.view t rfl
  exact ⟨hs.suspension, hlike.idle _ hs.idle, hagain.trans hs.again⟩

theorem meets_unwind (h : C.Follows H x J) {why : Suspension} (hwhy : why.call = none)
    (hs : C.Free m.ctx.exec.suspension m.ctx.standing t) (v : α) :
    Program.Meets (H.noting x)
      (fun _ _ => True) (Serves J) (act (.unwind why) >>= fun _ => .ret v : Program sig Stop α)
      (fun _ s => C.places.enters s.1.1.ctx s.1.1.inst s.2) ((m, w), t) := by
  refine fun _ => ⟨(fun heq => by cases heq), ?_⟩
  obtain ⟨hagain, hlike⟩ := h.machine (.act (.unwind why)) m () t rfl
  have houtstanding : outstanding (some why) .fresh = none := by
    show ((some why).bind Suspension.call).or none = none
    rw [Option.bind_some, hwhy]
    rfl
  exact {
    again := .inl (hagain.trans hs.again)
    idle := fun _ => hlike.idle _ hs.idle
    held := fun number a hheld => by cases houtstanding.symm.trans hheld
    alone := fun _ => ⟨rfl, rfl⟩ }

/-- The stack of a guest is saved for its call to be made again. -/
theorem meets_blocked (h : C.Follows H x J) {number : ℤ} {a : Args} (hagain : C.again t = none)
    (hheld : C.held number a m.ctx.standing t) (v : α) :
    Program.Meets (H.noting x) (fun _ _ => True) (Serves J)
      (act .saveSp >>= fun _ => act (.unwind (.blocked number a)) >>= fun _ => .ret v : Program sig Stop α)
      (fun _ s => C.places.enters s.1.1.ctx s.1.1.inst s.2) ((m, w), t) := by
  obtain ⟨hsaved, hlike⟩ := h.machine (.act .saveSp) m () t rfl
  obtain ⟨hunwound, hlike'⟩ := h.machine (.act (.unwind (.blocked number a))) (Act.exec .saveSp m).2 ()
    (H.machine (.act .saveSp) m () t) rfl
  refine fun _ => ⟨(fun heq => by cases heq), fun _ => ⟨(fun heq => by cases heq), ?_⟩⟩
  exact {
    again := .inl (hunwound.trans (hsaved.trans hagain))
    idle := fun hnone => by cases hnone
    held := fun number' a' hsome => by
      obtain ⟨rfl, rfl⟩ := Prod.ext_iff.mp (Option.some.inj hsome)
      exact hlike'.held _ _ _ (hlike.held _ _ _ hheld)
    alone := fun _ => ⟨rfl, rfl⟩ }

end

theorem meets_syscall (h : C.Follows H x J) (number argsPtr : ℕ)
    (hs : C.Free m.ctx.exec.suspension m.ctx.standing t) :
    Program.Meets (H.noting x) (fun _ _ => True) (Serves J)
    (Import.syscall number argsPtr : Program sig Stop ℤ)
      (fun _ s => C.places.enters s.1.1.ctx s.1.1.inst s.2) ((m, w), t) := by
  apply meets_view
  have hfree := h.free_view hs
  generalize H.machine (.act .view) m m.view t = t at hfree
  split
  · refine (h.meets_spares (p := act .stopRewind) ⟨⟨rfl, fun _ => Act.noConfusion⟩, fun _ => trivial⟩
      hfree).mono ?_
    exact fun _ s hs => hs.rests rfl
  cases Import.readArgs m.view.mem argsPtr with
  | error e => exact hfree.rests rfl
  | ok args =>
    have hdue : ∀ number a, C.again t = none ∨ C.again t = some (number, a) →
        C.Due number a m.ctx.standing t :=
      fun _ _ _ => .inl ⟨hfree.again, hfree.idle⟩
    refine Program.meets_bind (h.meets_dispatch (.inl hfree.again) hdue) ?_ ?_
    · rintro outcome ⟨⟨m', w'⟩, t'⟩ ⟨_, hok, hsuspension, -, hagain, hblocked, hdone⟩
      obtain rfl := Except.ok.inj hok
      have hfree : outcome ≠ .blocked → C.Free m'.ctx.exec.suspension m'.ctx.standing t' := fun hnot =>
        ⟨hsuspension.trans hfree.suspension, hdone hnot, hagain⟩
      cases outcome with
      | value value => exact (hfree (by simp)).rests rfl
      | blocked => exact h.meets_blocked hagain (hblocked rfl) _
      | exit status => exact h.meets_unwind rfl (hfree (by simp)) _
      | exec => exact h.meets_unwind rfl (hfree (by simp)) _
    · rintro e s ⟨_, herror, -⟩
      cases herror

theorem meets_finishRewind (h : C.Follows H x J) (hs : C.Free m.ctx.exec.suspension m.ctx.standing t) :
    Program.Meets (H.noting x) (fun _ _ => True) (Serves J) (Import.finishRewind : Program sig Stop ℤ)
      (fun _ s => C.places.enters s.1.1.ctx s.1.1.inst s.2) ((m, w), t) := by
  refine (h.meets_spares ?_ hs).mono fun _ s hs => hs.rests rfl
  exact ⟨⟨rfl, fun _ => Act.noConfusion⟩, fun _ => trivial⟩

theorem meets_setjmp (h : C.Follows H x J) (buf : ℕ) (hs : C.Free m.ctx.exec.suspension m.ctx.standing t) :
    Program.Meets (H.noting x) (fun _ _ => True) (Serves J) (Import.setjmp buf : Program sig Stop ℤ)
      (fun _ s => C.places.enters s.1.1.ctx s.1.1.inst s.2) ((m, w), t) := by
  apply meets_view
  exact Program.meets_ite (fun _ => h.meets_finishRewind (h.free_view hs)) fun _ =>
    h.meets_unwind rfl (h.free_view hs) 0

theorem spares_args (buffer capacity : ℕ) :
    (Import.args buffer capacity : Program sig Stop ℤ).Only Spares := by
  refine Program.only_bind (p := view) ⟨⟨rfl, fun _ => Act.noConfusion⟩, fun _ => trivial⟩ fun v => ?_
  refine Program.only_bind (p := env (.random 16)) ⟨trivial, fun _ => trivial⟩ fun seed => ?_
  refine Program.only_ite trivial (Program.only_ite trivial ?_)
  refine Program.only_bind (p := act (.put buffer _)) ⟨⟨rfl, fun _ => Act.noConfusion⟩, fun _ =>
    trivial⟩ fun r => ?_
  cases r <;> trivial

theorem meets_sigfetch (h : C.Follows H x J) (out : ℕ) (hs : C.Free m.ctx.exec.suspension m.ctx.standing t) :
    Program.Meets (H.noting x) (fun _ _ => True) (Serves J) (Import.sigfetch out : Program sig Stop ℤ)
      (fun _ s => C.places.enters s.1.1.ctx s.1.1.inst s.2) ((m, w), t) := by
  have hnext : (nextSignal out : Program sig Stop SignalDelivery).Only Spares :=
    (delivers_nextSignalFrom out _).mono fun _ => spares_delivers
  refine Program.meets_bind (h.meets_spares hnext hs) (fun d s hs => ?_) fun e s hs => hs.rests rfl
  cases d with
  | none => exact hs.rests rfl
  | handler => exact hs.rests rfl
  | fatal status => exact h.meets_unwind rfl hs 0

theorem meets_guestAct (h : C.Follows H x J) (g : GuestAct) (hs : C.places.enters m.ctx m.inst t) :
    Program.Meets (H.noting x) (fun _ _ => True) (Serves J) (guestAct g : Program sig Stop Unit)
      (fun _ s => C.places.enters s.1.1.ctx s.1.1.inst s.2) ((m, w), t) := by
  have hdone : ∀ {β : Type} {p : Program sig Stop β} {t : τ}, Program.Meets (H.noting x)
    (fun _ _ => True) (Serves J) p
      (fun _ s => C.places.enters s.1.1.ctx s.1.1.inst s.2) ((m, w), t) →
      Program.Meets (H.noting x) (fun _ _ => True) (Serves J) (p >>= fun _ => .ret () : Program sig Stop Unit)
        (fun _ s => C.places.enters s.1.1.ctx s.1.1.inst s.2) ((m, w), t) :=
    fun hp => Program.meets_bind hp (fun _ _ hs => hs) fun _ _ hs => hs
  apply meets_view
  obtain ⟨hagain, hlike⟩ := h.machine (.act .view) m m.view t rfl
  have hseen : C.places.enters m.ctx m.inst (H.machine (.act .view) m m.view t) :=
    hs.alike hlike (.inl hagain)
  clear hs hagain hlike
  generalize H.machine (.act .view) m m.view t = t at hseen
  have hrunning : ¬ m.view.unwinding = true → C.Free m.ctx.exec.suspension m.ctx.standing t := fun hrunning =>
    hseen.free (eq_false_of_ne_true hrunning)
  cases g with
  | compute mem sp =>
    refine fun _ => ⟨(fun heq => by cases heq), ?_⟩
    obtain ⟨hagain, hlike⟩ := h.machine (.act (.compute mem sp)) m () t rfl
    exact hseen.alike hlike (.inl hagain)
  | syscall number argsPtr =>
    exact Program.meets_ite (fun _ => hseen) fun hnot =>
      hdone (h.meets_syscall number argsPtr (hrunning hnot))
  | setjmp buf =>
    exact Program.meets_ite (fun _ => hseen) fun hnot => hdone (h.meets_setjmp buf (hrunning hnot))
  | longjmp buf value =>
    exact Program.meets_ite (fun _ => hseen) fun hnot => h.meets_unwind rfl (hrunning hnot) ()
  | init flag =>
    refine Program.meets_ite (fun _ => hseen) fun hnot =>
      (h.meets_spares ?_ (hrunning hnot)).mono fun _ s hs => hs.rests rfl
    exact ⟨⟨rfl, fun _ => Act.noConfusion⟩, fun _ => trivial⟩
  | args buffer capacity =>
    refine Program.meets_ite (fun _ => hseen) fun hnot => hdone ?_
    exact (h.meets_spares (spares_args buffer capacity) (hrunning hnot)).mono fun _ s hs => hs.rests rfl
  | sigfetch out =>
    exact Program.meets_ite (fun _ => hseen) fun hnot => hdone (h.meets_sigfetch out (hrunning hnot))

/-! ### Turns and sessions -/

theorem again_act (h : C.Follows H x J) {a : KAct} (ha : ∀ i, a ≠ .attach i) {p : Proc}
    {suspension : Option Suspension} {unwinding : Bool} {resume : Resume} {s : Standing}
    (hs : C.Stands suspension unwinding resume s t) :
    C.Stands suspension unwinding resume s (H.act a p t) :=
      hs.alike (h.stepped a p t) (.inl (h.others a p t ha))

theorem keeps (h : C.Follows H x J) : H.Keeps x (fun o _ => o.around) C.places.rests where
  fresh spawn launch := by
    have hfree : C.Free (Kernel.procOf spawn launch).ctx.exec.suspension
        (Kernel.procOf spawn launch).ctx.standing H.fresh := by
      refine ⟨by cases launch <;> rfl, ?_, h.fresh.1⟩
      rw [Kernel.standing_procOf]
      exact h.fresh.2 _
    have hresume : (Kernel.procOf spawn launch).resume.call = none := by
      cases launch <;> rfl
    exact hfree.rests hresume
  begin p t hs := hs
  machine i o k w p t _ hs ho := by
    have ho : o.streams := ho
    obtain ⟨hagain, hlike⟩ := h.machine o (k.machineOf p) (exec x o (k.machineOf p, w)).1 t ho.idles
    have hentry : (exec x o (k.machineOf p, w)).2.1.ctx.exec.suspension = p.ctx.exec.suspension ∧
        (exec x o (k.machineOf p, w)).2.1.ctx.standing = p.ctx.standing ∧
        (exec x o (k.machineOf p, w)).2.1.inst.unwinding = p.inst.unwinding := by
      cases o with
      | env => exact ⟨rfl, rfl, rfl⟩
      | act a =>
        refine ⟨a.suspension_exec _ ho.idles ?_, a.standing_exec _ ho.idles ?_, ?_⟩
        · rintro why rfl
          cases ho
        · rintro signal action rfl
          cases ho
        · cases a with
          | put start data =>
            show (Act.exec (.put start data) _).2.inst.unwinding = _
            simp only [Act.exec]
            split <;> rfl
          | view | setDescPos | stdinTake | pipeTake | pipePut | writeOutput | raise | wantStdin
          | noteVfsPending => rfl
          | _ => cases ho
    obtain ⟨hsuspension, hstanding, hunwinding⟩ := hentry
    show C.Stands (exec x o (k.machineOf p, w)).2.1.ctx.exec.suspension
      (exec x o (k.machineOf p, w)).2.1.inst.unwinding
      p.resume (exec x o (k.machineOf p, w)).2.1.ctx.standing _
    rw [hsuspension, hunwinding, hstanding]
    exact hs.alike hlike (.inl hagain)
  command i c call k w p t _ hs _ := hs.alike (h.command call _ t).2 (.inl (h.command call _ t).1)
  act a i k w p t ha _ hs ho := by
    have hsame : C.places.rests (a.effect p) t := by
      cases a with
      | endStep | releaseInstance | appendInput | setPhase | advance => exact hs
      | attach | setResume | rewind | resumeWith | takeSuspension | saveJmp | restoreJmp => cases ho
      | _ => cases ha
    refine h.again_act ?_ hsame
    rintro j rfl
    cases ho

theorem attached (h : C.Follows H x J) (i : ℕ) (p : Proc) (hs : C.places.rests p t) :
    C.places.rests p (H.act (.attach i) p t) := hs.alike (h.stepped _ p t) (.inr (h.attach i p t))

theorem attached_free (h : C.Follows H x J) (i : ℕ) (p : Proc) (hs : C.places.rests p t)
    (hrewind : p.resume = .rewind) :
    C.Free p.ctx.exec.suspension p.ctx.standing (H.act (.attach i) p t) := by
  have hsuspension : p.ctx.exec.suspension = none := by
    by_contra hne
    cases hrewind.symm.trans (hs.alone hne).1
  refine ⟨hsuspension, (h.stepped _ p t).idle _ (hs.idle ?_), (h.attach i p t).trans (by rw [hrewind]; rfl)⟩
  rw [outstanding, hsuspension, hrewind]
  rfl

/-- Every leg of a turn. -/
theorem connects (h : C.Follows H x J) : C.places.Connects H (fun _ _ _ => True) x (Serves J) where
  keeps := h.keeps
  streams o s t ho := by
    rintro rfl
    cases ho
  others _ _ _ _ := trivial
  parked i p t hs := h.attached i p hs
  fresh i p t hs hresume := by
    have hattached := h.attached i p hs
    show C.Stands _ _ .fresh _ _
    rw [← hresume]
    exact hattached
  rewind i p t hs hresume := by
    have hfree := h.attached_free i p hs hresume
    have hagain := h.others (.rewind i) { p with resume := .fresh } (H.act (.attach i) p t) fun _ =>
      KAct.noConfusion
    have hrewound : C.Free p.ctx.exec.suspension p.ctx.standing
        (H.act (.rewind i) { p with resume := .fresh } (H.act (.attach i) p t)) :=
      ⟨hfree.suspension, (h.stepped _ _ _).idle _ hfree.idle, hagain.trans hfree.again⟩
    exact hrewound.rests rfl
  blocked i p t number args hs hresume := by
    have hsuspension : p.ctx.exec.suspension = none := by
      by_contra hne
      cases hresume.symm.trans (hs.alone hne).1
    refine ⟨hsuspension, (h.attach i p t).trans (by rw [hresume]; rfl),
      (h.stepped _ p t).held _ _ _ (hs.held number args ?_)⟩
    rw [outstanding, hsuspension, hresume]
    rfl
  guest g m w t hs := h.meets_guestAct g hs
  again index number args p m w t hresume hctx hinst hs := by
    obtain ⟨hsuspension, hagain, hheld⟩ := hs
    rw [← hctx] at hsuspension hheld
    have hdue : ∀ number' args', C.again t = none ∨ C.again t = some (number', args') →
        C.Due number' args' m.ctx.standing t := by
      rintro number' args' (hnone | hsome)
      · cases hnone.symm.trans hagain
      · obtain ⟨rfl, rfl⟩ := Prod.ext_iff.mp (Option.some.inj (hagain.symm.trans hsome))
        exact .inr ⟨hagain, hheld⟩
    refine (h.meets_dispatch (.inr hagain) hdue).mono ?_
    rintro r ⟨⟨m', w'⟩, t'⟩ ⟨_, hok, hsuspension', -, hagain', hblocked, hdone⟩ outcome hr
    obtain rfl := Except.ok.inj (hr.symm.trans hok)
    have hfree : outcome ≠ .blocked → C.Free m'.ctx.exec.suspension m'.ctx.standing t' := fun hnot =>
      ⟨hsuspension'.trans hsuspension, hdone hnot, hagain'⟩
    cases outcome with
    | blocked =>
      refine h.again_act (fun _ => KAct.noConfusion) ?_
      exact stands_again (hsuspension'.trans hsuspension) hagain' (hblocked rfl)
    | value value => exact h.again_act (fun _ => KAct.noConfusion) ((hfree (by simp)).rests rfl)
    | exit status => exact (hfree (by simp)).rests (by rw [hresume]; rfl)
    | exec => exact (hfree (by simp)).rests (by rw [hresume]; rfl)
  ends p t hresume hs := by
    show C.Stands _ _ p.resume _ _
    rw [hresume]
    exact hs
  leaves _ _ _ _ _ := trivial
  returns i p t hresume hs := by
    have hnotes := h.stepped (.takeSuspension i) p t
    have hagain : C.again (H.act (.takeSuspension i) p t) = none := by
      rw [h.others _ _ _ fun _ => KAct.noConfusion]
      exact hs.again.elim id id
    -- nothing is outstanding once the suspension is taken, unless it was a call
    have hfree : p.ctx.exec.suspension.bind Suspension.call = none →
        C.Free none p.ctx.standing (H.act (.takeSuspension i) p t) := by
      intro hnone
      refine ⟨rfl, hnotes.idle _ (hs.idle ?_), hagain⟩
      rw [outstanding, hnone]
      rfl
    have hrests : p.ctx.exec.suspension.bind Suspension.call = none → C.places.rests
        ((KAct.takeSuspension i).effect p) (H.act (.takeSuspension i) p t) := fun hnone =>
      (hfree hnone).rests (by rw [KAct.effect, hresume]; rfl)
    cases hsuspension : p.ctx.exec.suspension with
    | none => exact hrests (by rw [hsuspension]; rfl)
    | some why =>
      cases why with
      | setjmp buf sp =>
        refine ⟨trivial, h.again_act (fun _ => KAct.noConfusion) ?_⟩
        exact (hfree (by rw [hsuspension]; rfl)).rests rfl
      | longjmp buf value =>
        have hjumped := hfree (by rw [hsuspension]; rfl)
        refine ⟨trivial, h.again_act (fun _ => KAct.noConfusion) ?_⟩
        simp only [KAct.effect]
        split
        · exact hjumped.rests (by rw [hresume]; rfl)
        · split
          · exact hjumped.rests (by rw [hresume]; rfl)
          · exact hjumped.rests rfl
      | blocked number args =>
        refine h.again_act (fun _ =>
          KAct.noConfusion) (stands_again rfl hagain (hnotes.held _ _ _ (hs.held number args ?_)))
        rw [outstanding, hsuspension]
        rfl
      | exit status => exact hrests (by rw [hsuspension]; rfl)
      | exec => exact hrests (by rw [hsuspension]; rfl)

theorem performed (h : C.Follows H x J) {A : KOp → Kernel × W → Prop} {index : ℕ} {k : Kernel}
    {notes : List τ} {p : Proc} (hat : Performed x H.history A (.machine index (.act .served)) k w notes)
    (hp : k.procs[index]? = some p) (ht : notes[index]? = some t) : J (k.machineOf p) w t :=
    h.connects.weaves.performed hat p t hp ht rfl

end Follows
end Calls
end Wasmux
