import Wasmux.Effects.Rules

/-!
# Counting operations

How often a program can ask for operations of one kind, whatever it is
answered, and what that says of its runs.
-/

set_option autoImplicit false

namespace Effects
namespace Program

variable {S T : Signature} {ε δ α β σ : Type}

/-- Counts the operations of the kind `A`. The answers `V` are the expected ones. -/
def tally (V : (o : S.Op) → S.Ans o → Prop) (A : S.Op → Bool) : Monitor S ℕ where
  allows := V
  next t o _ := if A o then t + 1 else t

/-- As long as the answers are expected ones, at most `n` operations are of the kind `A`. -/
def AtMost (V : (o : S.Op) → S.Ans o → Prop) (A : S.Op → Bool) (n : ℕ) (p : Program S ε α) : Prop :=
  ∀ t, p.Sat (tally V A) t fun u _ => u ≤ t + n

variable {V : (o : S.Op) → S.Ans o → Prop} {A : S.Op → Bool} {n m : ℕ}

theorem atMost_ret (a : α) : AtMost V A n (.ret a : Program S ε α) := fun t => Nat.le_add_right t n

theorem atMost_fail (e : ε) : AtMost V A n (.fail e : Program S ε α) := fun t => Nat.le_add_right t n

theorem AtMost.mono {p : Program S ε α} (hp : AtMost V A n p) (h : n ≤ m) : AtMost V A m p :=
  fun t => (hp t).mono fun _ _ hu => Nat.le_trans hu (Nat.add_le_add_left h t)

theorem atMost_call {o : S.Op} {k : S.Ans o → Program S ε α} (h : A o = false)
    (hk : ∀ a, V o a → AtMost V A n (k a)) : AtMost V A n (.call o k) := by
  intro t a ha
  have hnext : (tally V A).next t o a = t := by simp [tally, h]
  rw [hnext]
  exact hk a ha t

theorem atMost_call_succ {o : S.Op} {k : S.Ans o → Program S ε α}
    (hk : ∀ a, V o a → AtMost V A n (k a)) : AtMost V A (n + 1) (.call o k) := by
  intro t a ha
  have hnext : (tally V A).next t o a ≤ t + 1 := by
    simp only [tally]
    split <;> omega
  exact (hk a ha _).mono fun u _ hu => by omega

theorem atMost_bind {p : Program S ε α} {f : α → Program S ε β} (hp : AtMost V A n p)
    (hf : ∀ a, AtMost V A m (f a)) : AtMost V A (n + m) (p >>= f) := by
  intro t
  rw [sat_bind]
  refine (hp t).mono fun u r hu => ?_
  cases r with
  | ok a => exact (hf a u).mono fun v _ hv => by omega
  | error e =>
    dsimp only
    omega

theorem atMost_after {p : Program S ε α} {f : α → Program S ε β} (hp : AtMost V A 0 p)
    (hf : ∀ a, AtMost V A n (f a)) : AtMost V A n (p >>= f) :=
  (atMost_bind hp hf).mono (by omega)

theorem atMost_before {p : Program S ε α} {f : α → Program S ε β} (hp : AtMost V A n p)
    (hf : ∀ a, AtMost V A 0 (f a)) : AtMost V A n (p >>= f) := atMost_bind hp hf

theorem atMost_catching {p : Program S ε α} (hp : AtMost V A n p) :
    AtMost V A n (p.catching : Program S δ _) := by
  intro t
  rw [sat_catching]
  exact hp t

theorem atMost_ite {c : Prop} [Decidable c] {p q : Program S ε α} (hp : AtMost V A n p)
    (hq : AtMost V A n q) : AtMost V A n (if c then p else q) := by
  split
  · exact hp
  · exact hq

theorem Only.atMost {p : Program S ε α} (hp : p.Only fun o => A o = false) : AtMost V A n p := by
  induction p with
  | ret a => exact atMost_ret a
  | fail e => exact atMost_fail e
  | call o k ih => exact atMost_call hp.1 fun a _ => ih a (hp.2 a)

theorem atMost_relabel {f : S.Op → T.Op} {g : ∀ o, T.Ans (f o) → S.Ans o}
    {U : (o : T.Op) → T.Ans o → Prop} {B : T.Op → Bool} (hB : ∀ o, B (f o) = A o)
    (hU : ∀ o a, U (f o) a → V o (g o a)) {p : Program S ε α} (hp : AtMost V A n p) :
    AtMost U B n (p.relabel f g) := by
  intro t
  suffices h : ∀ (p : Program S ε α) t b, (p.Sat (tally V A) t fun u _ => u ≤ b) →
      (p.relabel f g).Sat (tally U B) t fun u _ => u ≤ b from h p t _ (hp t)
  intro p
  induction p with
  | ret a => exact fun t b h => h
  | fail e => exact fun t b h => h
  | call o k ih =>
    intro t b h a ha
    have hnext : (tally U B).next t (f o) a = (tally V A).next t o (g o a) := by simp [tally, hB]
    rw [hnext]
    exact ih _ _ _ (h _ (hU o a ha))

section
variable (x : Exec S σ) (weight : S.Op → σ → ℕ)

/-- What the operations of a run weigh together, each in the state it is asked in. -/
def weighed : Program S ε α → σ → ℕ
  | .ret _, _ => 0
  | .fail _, _ => 0
  | .call o k, s => weight o s + weighed (k (x o s).1) (x o s).2

theorem weighed_bind {p : Program S ε α} {f : α → Program S ε β} {s t : σ} {a : α}
    (h : run x p s = (.ok a, t)) :
    weighed x weight (p >>= f) s = weighed x weight p s + weighed x weight (f a) t := by
  induction p generalizing s with
  | ret b =>
    obtain ⟨rfl, rfl⟩ : b = a ∧ s = t := by simpa using h
    exact (Nat.zero_add _).symm
  | fail e => simp at h
  | call o k ih =>
    simp only [call_bind, weighed]
    rw [ih _ h, Nat.add_assoc]

theorem weighed_bind_error {p : Program S ε α} {f : α → Program S ε β} {s t : σ} {e : ε}
    (h : run x p s = (.error e, t)) :
    weighed x weight (p >>= f) s = weighed x weight p s := by
  induction p generalizing s with
  | ret a => simp at h
  | fail e => rfl
  | call o k ih =>
    simp only [call_bind, weighed]
    rw [ih _ h]

theorem weighed_bind_le {p : Program S ε α} {f : α → Program S ε β} {s : σ} {n m : ℕ}
    (hp : weighed x weight p s ≤ n) (hf : ∀ a t, run x p s = (.ok a, t) → weighed x weight (f a) t ≤ m) :
    weighed x weight (p >>= f) s ≤ n + m := by
  rcases hrun : run x p s with ⟨r, t⟩
  cases r with
  | error e =>
    rw [weighed_bind_error x weight hrun]
    omega
  | ok a =>
    have hrest := hf a t hrun
    rw [weighed_bind x weight hrun]
    omega

theorem Comes.weighed_le {p q : Program S ε α} {s t : σ} (h : Comes x p s q t) :
    weighed x weight q t ≤ weighed x weight p s := by
  induction h with
  | here p s => exact Nat.le_refl _
  | later o k s q t _ ih => exact Nat.le_add_left_of_le ih

/-- Where only operations of the kind weigh, and one at most, a run weighs no more
than its program asks for. -/
theorem AtMost.weighed_le {p : Program S ε α} (hp : AtMost V A n p) (hV : ∀ o a, V o a)
    (hweight : ∀ o s, weight o s ≤ if A o then 1 else 0) (s : σ) : weighed x weight p s ≤ n := by
  suffices h : ∀ (p : Program S ε α) t s b, (p.Sat (tally V A) t fun u _ => u ≤ b) →
      t + weighed x weight p s ≤ b by
    have := h p 0 s _ (hp 0)
    omega
  intro p
  induction p with
  | ret a => exact fun t s b h => h
  | fail e => exact fun t s b h => h
  | call o k ih =>
    intro t s b h
    have hrest := ih _ _ (x o s).2 b (h (x o s).1 (hV _ _))
    have hone := hweight o s
    simp only [tally, weighed] at hrest ⊢
    split at hrest
    · rename_i hA
      rw [if_pos hA] at hone
      omega
    · rename_i hA
      rw [if_neg hA] at hone
      omega

theorem weighed_catching (p : Program S ε α) (s : σ) :
    weighed x weight (p.catching : Program S δ _) s = weighed x weight p s := by
  induction p generalizing s with
  | ret a => rfl
  | fail e => rfl
  | call o k ih => exact congrArg (weight o s + ·) (ih _ _)

/-- The run ends well, with `Q`, and weighs so much at least. -/
def AtLeast (n : ℕ) (p : Program S ε α) (s : σ) (Q : α → σ → Prop) : Prop :=
  ∃ a t, run x p s = (.ok a, t) ∧ n ≤ weighed x weight p s ∧ Q a t

variable {x weight} {s : σ}

theorem atLeast_run {p : Program S ε α} {a : α} {t : σ} {Q : α → σ → Prop} (h : run x p s = (.ok a, t))
    (hQ : Q a t) :
    AtLeast x weight 0 p s Q := ⟨a, t, h, Nat.zero_le _, hQ⟩

theorem atLeast_ret {a : α} {Q : α → σ → Prop} (h : Q a s) :
    AtLeast x weight 0 (.ret a : Program S ε α) s Q :=
  atLeast_run rfl h

theorem AtLeast.mono {p : Program S ε α} {Q R : α → σ → Prop} (h : AtLeast x weight n p s Q) (hm : m ≤ n)
    (hQ : ∀ a t, Q a t → R a t) : AtLeast x weight m p s R := by
  obtain ⟨a, t, hrun, hn, hq⟩ := h
  exact ⟨a, t, hrun, Nat.le_trans hm hn, hQ a t hq⟩

theorem atLeast_weigh {o : S.Op} {k : S.Ans o → Program S ε α} {Q : α → σ → Prop}
    (h : AtLeast x weight n (k (x o s).1) (x o s).2 Q) :
    AtLeast x weight (weight o s + n) (.call o k) s Q := by
  obtain ⟨a, t, hrun, hn, hq⟩ := h
  exact ⟨a, t, hrun, Nat.add_le_add_left hn _, hq⟩

theorem atLeast_call {o : S.Op} {k : S.Ans o → Program S ε α} {Q : α → σ → Prop}
    (h : AtLeast x weight n (k (x o s).1) (x o s).2 Q) : AtLeast x weight n (.call o k) s Q :=
  (atLeast_weigh h).mono (Nat.le_add_left _ _) fun _ _ => id

theorem atLeast_bind {p : Program S ε α} {f : α → Program S ε β} {R : α → σ → Prop} {Q : β → σ → Prop}
    (h : AtLeast x weight n p s R) (hf : ∀ a t, R a t → AtLeast x weight m (f a) t Q) :
    AtLeast x weight (n + m) (p >>= f) s Q := by
  obtain ⟨a, t, hrun, hn, hr⟩ := h
  obtain ⟨b, u, hrest, hm, hq⟩ := hf a t hr
  refine ⟨b, u, (run_bind_ok x hrun).trans hrest, ?_, hq⟩
  rw [weighed_bind x weight hrun]
  exact Nat.add_le_add hn hm

theorem atLeast_catching {p : Program S ε α} {Q : Except ε α → σ → Prop}
    (h : AtLeast x weight n p s fun a => Q (.ok a)) :
    AtLeast x weight n (p.catching : Program S δ _) s Q := by
  obtain ⟨a, t, hrun, hn, hq⟩ := h
  refine ⟨.ok a, t, ?_, ?_, hq⟩
  · rw [run_catching, hrun]
  · rw [weighed_catching]
    exact hn

end

end Program
end Effects
