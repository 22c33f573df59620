import Wasmux.Effects.Rules

/-!
# Conditions on the way and at the end

`Meets` is the weakest condition from which a program, as long as its
operations meet what is assumed of them, meets what is asked of them on the way
and of its end. It is read off the program, and its rules follow the program's
own shape.
-/

set_option autoImplicit false

namespace Effects
namespace Program

variable {S : Signature} {ε δ α β σ τ : Type} (x : Exec S σ) (C A : S.Op → σ → Prop)

/-- As long as its operations meet `C` they meet `A`, and the program ends in `Q`. -/
def Meets : Program S ε α → (Except ε α → σ → Prop) → σ → Prop
  | .ret a, Q, s => Q (.ok a) s
  | .fail e, Q, s => Q (.error e) s
  | .call o k, Q, s => C o s → A o s ∧ Meets (k (x o s).1) Q (x o s).2

variable {x C A}

@[simp] theorem meets_ret (a : α) (Q : Except ε α → σ → Prop) (s : σ) :
    Meets x C A (.ret a : Program S ε α) Q s ↔ Q (.ok a) s := Iff.rfl

@[simp] theorem meets_fail (e : ε) (Q : Except ε α → σ → Prop) (s : σ) :
    Meets x C A (.fail e : Program S ε α) Q s ↔ Q (.error e) s := Iff.rfl

@[simp] theorem meets_call (o : S.Op) (k : S.Ans o → Program S ε α) (Q : Except ε α → σ → Prop)
    (s : σ) : Meets x C A (.call o k) Q s ↔ (C o s → A o s ∧ Meets x C A (k (x o s).1) Q (x o s).2) :=
  Iff.rfl

theorem meets_bind_iff (p : Program S ε α) (f : α → Program S ε β) (Q : Except ε β → σ → Prop)
    (s : σ) : Meets x C A (p >>= f) Q s ↔ Meets x C A p (fun r t => match r with
      | .ok a => Meets x C A (f a) Q t
      | .error e => Q (.error e) t) s := by
  induction p generalizing s with
  | ret a => exact Iff.rfl
  | fail e => exact Iff.rfl
  | call o k ih => simp [ih]

theorem Meets.mono {p : Program S ε α} {Q R : Except ε α → σ → Prop} {s : σ}
    (hp : Meets x C A p Q s) (h : ∀ r t, Q r t → R r t) : Meets x C A p R s := by
  induction p generalizing s with
  | ret a => exact h _ _ hp
  | fail e => exact h _ _ hp
  | call o k ih => exact fun hc => ⟨(hp hc).1, ih _ (hp hc).2⟩

theorem meets_bind {p : Program S ε α} {f : α → Program S ε β} {P : Except ε α → σ → Prop}
    {Q : Except ε β → σ → Prop} {s : σ} (hp : Meets x C A p P s)
    (hf : ∀ a t, P (.ok a) t → Meets x C A (f a) Q t) (he : ∀ e t, P (.error e) t → Q (.error e) t) :
    Meets x C A (p >>= f) Q s := by
  rw [meets_bind_iff]
  refine hp.mono fun r t hr => ?_
  cases r with
  | ok a => exact hf a t hr
  | error e => exact he e t hr

theorem meets_catching (p : Program S ε α) (Q : Except δ (Except ε α) → σ → Prop) (s : σ) :
    Meets x C A (p.catching : Program S δ _) Q s ↔ Meets x C A p (fun r t => Q (.ok r) t) s := by
  induction p generalizing s with
  | ret a => exact Iff.rfl
  | fail e => exact Iff.rfl
  | call o k ih => simp [catching, ih]

theorem meets_ite {c : Prop} [Decidable c] {p q : Program S ε α} {Q : Except ε α → σ → Prop} {s : σ}
    (hp : c → Meets x C A p Q s) (hq : ¬ c → Meets x C A q Q s) :
    Meets x C A (if c then p else q) Q s := by
  split
  · exact hp ‹_›
  · exact hq ‹_›

theorem Meets.cut {B : S.Op → σ → Prop} {p : Program S ε α} {Q R : Except ε α → σ → Prop} {s : σ}
    (hq : Meets x C A p Q s) (hr : Meets x (fun o s => C o s ∧ A o s) B p R s) :
    Meets x C (fun o s => A o s ∧ B o s) p (fun r t => Q r t ∧ R r t) s := by
  induction p generalizing s with
  | ret a => exact ⟨hq, hr⟩
  | fail e => exact ⟨hq, hr⟩
  | call o k ih =>
    intro hc
    obtain ⟨ha, hq⟩ := hq hc
    obtain ⟨hb, hr⟩ := hr ⟨hc, ha⟩
    exact ⟨⟨ha, hb⟩, ih _ hq hr⟩

theorem Meets.weaken {B D : S.Op → σ → Prop} {p : Program S ε α} {Q : Except ε α → σ → Prop} {s : σ}
    (hp : Meets x C A p Q s) (hc : ∀ o s, D o s → C o s) (ha : ∀ o s, A o s → B o s) :
    Meets x D B p Q s := by
  induction p generalizing s with
  | ret a => exact hp
  | fail e => exact hp
  | call o k ih => exact fun hd => ⟨ha _ _ (hp (hc _ _ hd)).1, ih _ (hp (hc _ _ hd)).2⟩

theorem Meets.run {p : Program S ε α} {Q : Except ε α → σ → Prop} {s : σ} (hp : Meets x C A p Q s)
    (hc : Along x C p s) : Along x A p s ∧ Q (run x p s).1 (run x p s).2 := by
  induction p generalizing s with
  | ret a => exact ⟨trivial, hp⟩
  | fail e => exact ⟨trivial, hp⟩
  | call o k ih =>
    obtain ⟨ha, hp⟩ := hp hc.1
    obtain ⟨halong, hq⟩ := ih _ hp hc.2
    exact ⟨⟨ha, halong⟩, hq⟩

theorem meets_of_run {p : Program S ε α} {Q : Except ε α → σ → Prop} {s : σ}
    (ha : Along x A p s) (hq : Q (Program.run x p s).1 (Program.run x p s).2) : Meets x C A p Q s := by
  induction p generalizing s with
  | ret a => exact hq
  | fail e => exact hq
  | call o k ih => exact fun _ => ⟨ha.1, ih _ ha.2 hq⟩

theorem meets_only {B : S.Op → Prop} {I : σ → Prop}
    (h : ∀ o s, B o → I s → C o s → A o s ∧ I (x o s).2) {p : Program S ε α} (hp : p.Only B) {s : σ}
    (hs : I s) : Meets x C A p (fun _ t => I t) s := by
  induction p generalizing s with
  | ret a => exact hs
  | fail e => exact hs
  | call o k ih =>
    intro hc
    obtain ⟨ha, hi⟩ := h o s hp.1 hs hc
    exact ⟨ha, ih _ (hp.2 _) hi⟩

theorem meets_invariant {I : σ → Prop} (h : ∀ o s, I s → C o s → A o s ∧ I (x o s).2)
    (p : Program S ε α) {s : σ} (hs : I s) : Meets x C A p (fun _ t => I t) s := by
  induction p generalizing s with
  | ret a => exact hs
  | fail e => exact hs
  | call o k ih =>
    intro hc
    obtain ⟨ha, hi⟩ := h o s hs hc
    exact ⟨ha, ih _ hi⟩

/-- A mark that stays once it is made, and that is not there at the end, was
never made: every operation met what leaves no mark. -/
theorem meets_unmarked {M : Monitor S τ} {R : τ → σ → Prop} {G : τ → Prop}
    (hM : ∀ o a, M.allows o a) (hgood : ∀ t o a, G (M.next t o a) → G t)
    (hR : ∀ t o s, R t s → G (M.next t o (x o s).1) →
      A o s ∧ R (M.next t o (x o s).1) (x o s).2)
    {p : Program S ε α} {t : τ} {Q : τ → Except ε α → Prop} (hp : p.Sat M t Q)
    (hQ : ∀ u r, Q u r → G u) {s : σ} (hs : R t s) :
    Meets x C A p (fun r s => ∃ u, R u s ∧ Q u r) s := by
  suffices h : G t ∧ (R t s → Meets x C A p (fun r s => ∃ u, R u s ∧ Q u r) s) from h.2 hs
  clear hs
  induction p generalizing s t with
  | ret a => exact ⟨hQ _ _ hp, fun hs => ⟨t, hs, hp⟩⟩
  | fail e => exact ⟨hQ _ _ hp, fun hs => ⟨t, hs, hp⟩⟩
  | call o k ih =>
    obtain ⟨hnext, hmeets⟩ := ih _ (hp _ (hM _ _)) (s := (x o s).2)
    refine ⟨hgood _ _ _ hnext, fun hs _ => ?_⟩
    obtain ⟨ha, hrel⟩ := hR t o s hs hnext
    exact ⟨ha, hmeets hrel⟩

end Program
end Effects
