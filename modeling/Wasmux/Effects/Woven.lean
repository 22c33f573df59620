import Wasmux.Effects.Triples

/-!
# Programs woven of operations and blocks

A program can be read as one of single operations and of blocks that are taken
as wholes. What every operation keeps, and every block from its start to its
end, the program keeps.
-/

set_option autoImplicit false

namespace Effects
namespace Program

variable {S : Signature} {ε σ : Type}

/-- The programs of the operations in `A` and the blocks in `B`. -/
inductive Woven (A : S.Op → Prop) (B : (β : Type) → Program S ε β → Prop) {α : Type} : Program S ε α → Prop
  | ret (a : α) : Woven A B (.ret a)
  | fail (e : ε) : Woven A B (.fail e)
  | call (o : S.Op) (k : S.Ans o → Program S ε α) : A o → (∀ r, Woven A B (k r)) → Woven A B (.call o k)
  | block (β : Type) (p : Program S ε β) (f : β → Program S ε α) :
      B β p → (∀ b, Woven A B (f b)) → Woven A B (p >>= f)

variable {A : S.Op → Prop} {B : (β : Type) → Program S ε β → Prop} {α β : Type}

theorem woven_only {p : Program S ε α} (h : p.Only A) : Woven A B p := by
  induction p with
  | ret a => exact .ret a
  | fail e => exact .fail e
  | call o k ih => exact .call o k h.1 fun r => ih r (h.2 r)

theorem Woven.bind {p : Program S ε α} (h : Woven A B p) {f : α → Program S ε β} (hf : ∀ a, Woven A B (f a)) :
    Woven A B (p >>= f) := by
  induction h with
  | ret a => exact hf a
  | fail e => exact .fail e
  | call o k ho _ ih => exact .call o _ ho ih
  | block γ p g hp _ ih =>
    rw [Program.bind_assoc]
    exact .block γ p _ hp ih

theorem Woven.meets {x : Exec S σ} {C D : S.Op → σ → Prop} {J : σ → Prop}
    (hop : ∀ o s, A o → J s → C o s → D o s ∧ J (x o s).2)
    (hblock : ∀ (β : Type) (p : Program S ε β), B β p → ∀ s, J s → Meets x C D p
      (fun r t => ∀ b, r = .ok b → J t) s)
    {p : Program S ε α} (h : Woven A B p) {s : σ} (hs : J s) :
    Meets x C D p (fun r t => ∀ a, r = .ok a → J t) s := by
  induction h generalizing s with
  | ret a => exact fun _ _ => hs
  | fail e => exact fun a ha => by cases ha
  | call o k ho _ ih =>
    intro hc
    obtain ⟨hd, hJ⟩ := hop o s ho hs hc
    exact ⟨hd, ih _ hJ⟩
  | block γ p f hp _ ih =>
    refine meets_bind (hblock γ p hp s hs) (fun c t ht => ih c (ht c rfl)) fun e t _ a ha => ?_
    cases ha

end Program
end Effects
