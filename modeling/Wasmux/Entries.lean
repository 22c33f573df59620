import Wasmux.Effects.Triples
import Wasmux.Dispatch

/-!
# One entry of a guest

Besides its calls a guest computes, and goes through the imports. What these do
themselves is little: they read and write its memory, take signals, and save
its stack. So what the handlers keep, a whole entry keeps.
-/

set_option autoImplicit false

namespace Wasmux
open Effects Abi

def Act.tends : Act → Bool
  | .view | .put _ _ | .dropPending _ | .setAction _ _ | .served | .settle | .setSignalFlag _ | .saveSp
  | .stopRewind | .unwind _ => true
  | _ => false

def Op.tends : Op → Bool
  | .act a => a.tends
  | .env (.random _) => true
  | .env _ => false

section
variable {ε α β : Type}

abbrev Tends (p : Program sig ε α) : Prop := p.Only fun o : Op => o.tends = true

theorem tends_ret (a : α) : Tends (.ret a : Program sig ε α) := trivial

theorem tends_act (a : Act) (h : a.tends = true) : Tends (act a : Program sig ε a.Ans) :=
  ⟨h, fun _ => trivial⟩

theorem tends_bind {p : Program sig ε α} {f : α → Program sig ε β} (hp : Tends p) (hf : ∀ a, Tends (f a)) :
    Tends (p >>= f) := Program.only_bind hp hf

theorem tends_ite {c : Prop} [Decidable c] {p q : Program sig ε α} (hp : Tends p) (hq : Tends q) :
    Tends (if c then p else q) := Program.only_ite hp hq

theorem tends_finish : Tends (finish : Program sig ε Unit) := by
  apply tends_bind (tends_act _ rfl)
  intro _
  apply tends_bind (tends_act _ rfl)
  intro v
  apply tends_ite (tends_ret _)
  exact tends_bind (tends_act _ rfl) fun _ => trivial

theorem tends_conclude (r : Except Fault ℤ) : Tends (conclude r : Program sig ε Outcome) := by
  have hend : ∀ o : Outcome, Tends (finish >>= fun _ => .ret o : Program sig ε Outcome) := fun o =>
    tends_bind tends_finish fun _ => trivial
  rcases r with fault | v
  · cases fault with
    | errno e => exact hend _
    | block => exact tends_bind (tends_act _ rfl) fun v => tends_ite (hend _) trivial
    | exit status => trivial
    | exec => trivial
  · exact hend _

def Op.delivers : Op → Prop
  | .act .view | .act (.put _ _) | .act (.dropPending _) | .act (.setAction _ _) => True
  | _ => False

theorem Op.delivers.tends {o : Op} (h : o.delivers) : o.tends = true := by
  cases o with
  | env => cases h
  | act a =>
    cases a with
    | view | put | dropPending | setAction => rfl
    | _ => cases h

theorem delivers_act (a : Act) (h : (Op.act a).delivers) : (act a : Program sig ε a.Ans).Only Op.delivers :=
  ⟨h, fun _ => trivial⟩

theorem delivers_putDelivery (out signal : ℕ) (action : SigAction) :
    (putDelivery out signal action : Program sig ε Unit).Only Op.delivers := by
  unfold putDelivery
  repeat' refine Program.only_bind (delivers_act (.put _ _) trivial) fun _ => ?_
  trivial

theorem delivers_nextSignalFrom (out turns : ℕ) :
    (nextSignalFrom out turns : Program sig ε SignalDelivery).Only Op.delivers := by
  induction turns with
  | zero => trivial
  | succ turns ih =>
    unfold nextSignalFrom
    apply Program.only_bind (delivers_act .view trivial)
    intro v
    generalize triage v.pending v.task.sigmask v.task = sets
    obtain ⟨live, discard⟩ := sets
    suffices hlive : Program.Only (S := sig) Op.delivers _ from
      Program.only_ite (Program.only_bind (delivers_act (.dropPending _) trivial) fun _ => hlive) hlive
    apply Program.only_ite
    · exact Program.only_ite (Program.only_bind (delivers_act (.put _ _) trivial) fun _ => trivial) trivial
    apply Program.only_bind (delivers_act (.dropPending _) trivial)
    intro _
    apply Program.only_ite ih
    apply Program.only_ite
    · exact Program.only_ite trivial ih
    suffices hput : Program.Only (S := sig) Op.delivers _ from
      Program.only_ite (Program.only_bind (delivers_act (.setAction _ _) trivial) fun _ => hput) hput
    exact Program.only_bind (delivers_putDelivery _ _ _) fun _ => trivial

theorem tends_nextSignalFrom (out turns : ℕ) :
    Tends (nextSignalFrom out turns : Program sig ε SignalDelivery) :=
  (delivers_nextSignalFrom out turns).mono fun _ => Op.delivers.tends

namespace Import

theorem tends_setjmp (buf : ℕ) : Tends (setjmp buf : Program sig ε ℤ) := by
  apply tends_bind (tends_act _ rfl)
  intro v
  apply tends_ite
  · exact tends_act _ rfl
  · exact tends_bind (tends_act _ rfl) fun _ => trivial

theorem tends_args (buffer capacity : ℕ) : Tends (args buffer capacity : Program sig ε ℤ) := by
  apply tends_bind (tends_act _ rfl)
  intro v
  refine ⟨rfl, fun seed => ?_⟩
  apply tends_ite (tends_ret _)
  apply tends_ite (tends_ret _)
  apply tends_bind (tends_act _ rfl)
  intro r
  cases r <;> trivial

theorem tends_sigfetch (out : ℕ) : Tends (sigfetch out : Program sig ε ℤ) := by
  apply tends_bind (tends_nextSignalFrom _ _)
  intro d
  cases d with
  | none => trivial
  | handler => trivial
  | fatal status => exact tends_bind (tends_act _ rfl) fun _ => trivial

end Import

end

section
variable {W ε α : Type} {x : Env W} {C A : Op → Machine × W → Prop} {Q : Except ε α → Machine × W → Prop}
  {s : Machine × W}

theorem meets_act {a : Act} {f : a.Ans → Program sig ε α}
    (h : C (.act a) s → A (.act a) s ∧
      Program.Meets (exec x) C A (f (a.exec s.1).1) Q ((a.exec s.1).2, s.2)) :
    Program.Meets (exec x) C A (act a >>= f) Q s := h

theorem meets_env {c : EnvCall} {f : c.Ans → Program sig ε α}
    (h : C (.env c) s → A (.env c) s ∧ Program.Meets (exec x) C A (f (c.answer x s.1.shared.mounts s.2).1) Q
      (s.1, (c.answer x s.1.shared.mounts s.2).2)) :
    Program.Meets (exec x) C A (env c >>= f) Q s := h

theorem meets_view {f : View → Program sig ε α}
    (h : C (.act .view) s → A (.act .view) s ∧ Program.Meets (exec x) C A (f s.1.view) Q s) :
    Program.Meets (exec x) C A (view >>= f) Q s := h

end

/-- What lets a property `J` of a machine hold for the time of an entry: the
tending acts and the guest's computing keep it, and so do the handlers, except
that one that hands its process over leaves it with `G`, and then, when its
stack is saved, with `E`. On the way every operation meets `A`. -/
structure Hosts {W : Type} (x : Env W) (C A : Op → Machine × W → Prop) (J G E : Machine → Prop) : Prop where
  tends : ∀ a s, a.tends = true → J s.1 → C (.act a) s → A (.act a) s ∧ J (a.exec s.1).2
  random : ∀ n s, J s.1 → C (.env (.random n)) s → A (.env (.random n)) s
  looks : ∀ s, E s.1 → C (.act .view) s → A (.act .view) s
  computes : ∀ mem sp s, J s.1 → C (.act (.compute mem sp)) s →
    A (.act (.compute mem sp)) s ∧ J ((Act.compute mem sp).exec s.1).2
  waits : ∀ mem sp s, E s.1 → C (.act (.compute mem sp)) s →
    A (.act (.compute mem sp)) s ∧ E ((Act.compute mem sp).exec s.1).2
  handles : ∀ number args s, J s.1 → Program.Meets (exec x) C A (handle number args)
    (fun r t => (r = .error .exec → G t.1) ∧ (r ≠ .error .exec → J t.1)) s
  leaves : ∀ s, G s.1 → C (.act (.unwind .exec)) s →
    A (.act (.unwind .exec)) s ∧ E (s.1.unwind .exec)
  saved : ∀ m, E m → m.inst.unwinding = true

namespace Hosts
variable {W ε α : Type} {x : Env W} {C A : Op → Machine × W → Prop} {J G E : Machine → Prop}

theorem meets_tending (h : Hosts x C A J G E) {p : Program sig ε α} (hp : Tends p) {s : Machine × W}
    (hs : J s.1) : Program.Meets (exec x) C A p (fun _ t => J t.1) s := by
  apply Program.meets_only (I := fun t : Machine × W => J t.1) _ hp hs
  intro o t ho ht hc
  cases o with
  | act a => exact h.tends a t ho ht hc
  | env c =>
    cases c with
    | random n => exact ⟨h.random n t ht hc, ht⟩
    | _ => cases ho

/-- A call leaves its process as `J` has it, unless it is handed over. -/
theorem meets_dispatch (h : Hosts x C A J G E) (number : ℤ) (args : Args) {s : Machine × W} (hs : J s.1) :
    Program.Meets (exec x) C A (dispatch number args : Program sig ε Outcome)
      (fun r t => (r = .ok .exec → G t.1) ∧ (r ≠ .ok .exec → J t.1)) s := by
  apply meets_act
  intro hc
  obtain ⟨ha, hcounted⟩ := h.tends .served s rfl hs hc
  refine ⟨ha, ?_⟩
  have hcatch : Program.Meets (exec x) C A
      ((handle number args).catching : Program sig ε (Except Fault ℤ))
      (fun r t => ∃ q, r = .ok q ∧ (q = .error .exec → G t.1) ∧ (q ≠ .error .exec → J t.1))
      ((Act.served.exec s.1).2, s.2) := by
    rw [Program.meets_catching]
    exact (h.handles number args _ hcounted).mono fun r t hr => ⟨r, rfl, hr⟩
  apply Program.meets_bind hcatch
  · rintro r t ⟨q, hq, hexec, hstay⟩
    obtain rfl := by simpa using hq
    by_cases hr : r = .error .exec
    · subst hr
      exact ⟨fun _ => hexec rfl, fun hne => absurd rfl hne⟩
    · have hnot : ∀ (o : Outcome) (t : Machine × W), J t.1 → o ≠ .exec →
          ((.ok o : Except ε Outcome) = .ok .exec → G t.1) ∧
          ((.ok o : Except ε Outcome) ≠ .ok .exec → J t.1) :=
        fun o t ht ho => ⟨fun he => absurd (by simpa using he) ho, fun _ => ht⟩
      have hend : ∀ o : Outcome, o ≠ .exec → ∀ t : Machine × W, J t.1 →
          Program.Meets (exec x) C A (finish >>= fun _ => .ret o : Program sig ε Outcome)
            (fun r t => (r = .ok .exec → G t.1) ∧ (r ≠ .ok .exec → J t.1)) t := fun o ho t ht =>
        Program.meets_bind (h.meets_tending tends_finish ht) (fun _ u hu => hnot o u hu ho)
          fun e u hu => ⟨fun he => (by cases he), fun _ => hu⟩
      have ht := hstay hr
      rcases r with fault | v
      · cases fault with
        | errno e => exact hend _ (by simp) t ht
        | block =>
          apply meets_view
          intro hc
          obtain ⟨ha, hview⟩ := h.tends .view t rfl ht hc
          refine ⟨ha, ?_⟩
          exact Program.meets_ite (fun _ => hend _ (by simp) _ hview) fun _ => hnot _ _ hview (by simp)
        | exit status => exact hnot _ t ht (by simp)
        | exec => exact absurd rfl hr
      · exact hend _ (by simp) t ht
  · rintro e t ⟨q, hq, -⟩
    cases hq

theorem meets_syscall (h : Hosts x C A J G E) (number argsPtr : ℕ) {s : Machine × W} (hs : J s.1) :
    Program.Meets (exec x) C A (Import.syscall number argsPtr : Program sig ε ℤ)
      (fun _ t => J t.1 ∨ E t.1) s := by
  have hstay : ∀ {p : Program sig ε ℤ}, Tends p → ∀ t : Machine × W, J t.1 →
      Program.Meets (exec x) C A p (fun _ t => J t.1 ∨ E t.1) t := fun hp t ht =>
    (h.meets_tending hp ht).mono fun _ _ => Or.inl
  apply meets_view
  intro hc
  obtain ⟨ha, hview⟩ := h.tends .view s rfl hs hc
  refine ⟨ha, ?_⟩
  apply Program.meets_ite
  · exact fun _ => hstay (tends_act _ rfl) _ hview
  intro _
  cases Import.readArgs s.1.view.mem argsPtr with
  | error e => exact .inl hview
  | ok args =>
    dsimp only
    generalize asI32 (number : ℤ) = n
    apply Program.meets_bind (h.meets_dispatch n args hview)
    · intro outcome t ht
      cases outcome with
      | value v => exact .inl (ht.2 (by simp))
      | blocked =>
        apply hstay _ t (ht.2 (by simp))
        exact tends_bind (tends_act _ rfl) fun _ => tends_bind (tends_act _ rfl) fun _ => tends_ret _
      | exit status =>
        apply hstay _ t (ht.2 (by simp))
        exact tends_bind (tends_act _ rfl) fun _ => tends_ret _
      | exec =>
        apply meets_act
        intro hc
        obtain ⟨ha, hleft⟩ := h.leaves t (ht.1 rfl) hc
        exact ⟨ha, .inr hleft⟩
    · intro e t ht
      exact .inl (ht.2 (by simp))

/-- One thing a guest does. Once it is on its way out it only computes. -/
theorem meets_guestAct (h : Hosts x C A J G E) (g : GuestAct) {s : Machine × W} (hs : J s.1 ∨ E s.1) :
    Program.Meets (exec x) C A (guestAct g : Program sig ε Unit) (fun _ t => J t.1 ∨ E t.1) s := by
  rcases hs with hs | hs
  · apply meets_view
    intro hc
    obtain ⟨ha, hview⟩ := h.tends .view s rfl hs hc
    refine ⟨ha, ?_⟩
    have hstay : ∀ {p : Program sig ε Unit}, Tends p →
        Program.Meets (exec x) C A p (fun _ t => J t.1 ∨ E t.1) s := fun hp =>
      (h.meets_tending hp hview).mono fun _ _ => Or.inl
    cases g with
    | compute mem sp =>
      intro hc
      obtain ⟨ha, hcomputed⟩ := h.computes mem sp _ hview hc
      exact ⟨ha, .inl hcomputed⟩
    | syscall number argsPtr =>
      apply Program.meets_ite
      · exact fun _ => .inl hview
      · intro _
        exact Program.meets_bind (h.meets_syscall number argsPtr hview) (fun _ _ => id) fun _ _ => id
    | setjmp buf =>
      exact hstay (tends_ite (tends_ret _) (tends_bind (Import.tends_setjmp buf) fun _ => tends_ret _))
    | longjmp buf value => exact hstay (tends_ite (tends_ret _) (tends_act _ rfl))
    | init flag => exact hstay (tends_ite (tends_ret _) (tends_act _ rfl))
    | args buffer capacity =>
      exact hstay (tends_ite (tends_ret _)
        (tends_bind (Import.tends_args buffer capacity) fun _ => tends_ret _))
    | sigfetch out =>
      exact hstay (tends_ite (tends_ret _) (tends_bind (Import.tends_sigfetch out) fun _ => tends_ret _))
  · apply meets_view
    intro hc
    refine ⟨h.looks s hs hc, ?_⟩
    have hsaving : s.1.view.unwinding = true := h.saved s.1 hs
    have hout : Program.Meets (exec x) C A (.ret () : Program sig ε Unit) (fun _ t => J t.1 ∨ E t.1) s :=
      .inr hs
    cases g with
    | compute mem sp =>
      intro hc
      obtain ⟨ha, hcomputed⟩ := h.waits mem sp s hs hc
      exact ⟨ha, .inr hcomputed⟩
    | _ => exact Program.meets_ite (fun _ => hout) fun hawake => absurd hsaving hawake

theorem meets_runActs (h : Hosts x C A J G E) (acts : List GuestAct) {s : Machine × W} (hs : J s.1 ∨ E s.1) :
    Program.Meets (exec x) C A (runActs acts : Program sig ε Unit) (fun _ t => J t.1 ∨ E t.1) s := by
  induction acts generalizing s with
  | nil => exact hs
  | cons g acts ih =>
    rw [runActs]
    exact Program.meets_bind (h.meets_guestAct g hs) (fun _ t ht => ih ht) fun _ _ ht => ht

end Hosts

end Wasmux
