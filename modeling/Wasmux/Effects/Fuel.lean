import Wasmux.Effects.Tally

/-!
# Programs that give up later

A program with a bound on its loops gives up where the bound is reached. With a
larger bound it is the same program, gone on where the other gave up: what came
to its end comes to the same end, and what was done before is done again.
-/

set_option autoImplicit false

namespace Effects
namespace Program

variable {S : Signature} {ε α β σ : Type}

/-- The second program is the first, with more where that gives up. -/
inductive Extends : Program S ε α → Program S ε α → Prop
  | ret (a : α) : Extends (.ret a) (.ret a)
  | fail (e : ε) (q : Program S ε α) : Extends (.fail e) q
  | call (o : S.Op) (k l : S.Ans o → Program S ε α) :
      (∀ a, Extends (k a) (l a)) → Extends (.call o k) (.call o l)

theorem Extends.refl (p : Program S ε α) : Extends p p := by
  induction p with
  | ret a => exact .ret a
  | fail e => exact .fail e _
  | call o k ih => exact .call o k k ih

theorem Extends.bind {p q : Program S ε α} {f g : α → Program S ε β} (h : Extends p q)
    (hfg : ∀ a, Extends (f a) (g a)) :
    Extends (p >>= f) (q >>= g) := by
  induction h with
  | ret a => exact hfg a
  | fail e q => exact .fail e _
  | call o k l _ ih => exact .call o _ _ ih

theorem Extends.after (p : Program S ε α) {f g : α → Program S ε β} (h : ∀ a, Extends (f a) (g a)) :
    Extends (p >>= f) (p >>= g) := (Extends.refl p).bind h

section
variable (x : Exec S σ)

theorem Extends.weighed_le (weight : S.Op → σ → ℕ) {p q : Program S ε α} {s : σ} (h : Extends p q) :
    weighed x weight p s ≤ weighed x weight q s := by
  induction h generalizing s with
  | ret a => exact Nat.le_refl _
  | fail e q => exact Nat.zero_le _
  | call o k l _ ih => exact Nat.add_le_add_left (ih _) _

def operations (p : Program S ε α) (s : σ) : ℕ := weighed x (fun _ _ => 1) p s

def Lasting (n : ℕ) (p : Program S ε α) (s : σ) : Prop :=
    ∀ e t, run x p s = (.error e, t) → n ≤ operations x p s

variable {x} {n m : ℕ} {p q : Program S ε α} {f : α → Program S ε β} {s : σ}

theorem Total.lasting (hp : p.Total) : Lasting x n p s := by
  intro e t hrun
  obtain ⟨a, ha⟩ := hp.run_ok x s
  rw [hrun] at ha
  cases ha

theorem Lasting.mono (hp : Lasting x n p s) (h : m ≤ n) : Lasting x m p s := fun e t hrun =>
    Nat.le_trans h (hp e t hrun)

end

end Program
end Effects
