import Wasmux.Effects.Triples

/-!
# Contracts

A contract says what each operation may be asked with and what its answer can
be relied on for. Whether a program keeps to one is a matter of the program
alone; an interpretation whose answers are as good as promised then sees only
operations that are asked as they should be.
-/

set_option autoImplicit false

namespace Effects
namespace Program

variable {S : Signature} {ε δ α β σ : Type}

structure Contract (S : Signature) where
  asks : S.Op → Prop
  gives : (o : S.Op) → S.Ans o → Prop

/-- Whatever it is answered within the contract, the program asks within it,
and a value it ends with satisfies `Q`. -/
def Obeys (K : Contract S) : Program S ε α → (α → Prop) → Prop
  | .ret a, Q => Q a
  | .fail _, _ => True
  | .call o k, Q => K.asks o ∧ ∀ a, K.gives o a → Obeys K (k a) Q

variable {K : Contract S}

theorem Obeys.mono {p : Program S ε α} {Q R : α → Prop} (hp : p.Obeys K Q) (h : ∀ a, Q a → R a) :
    p.Obeys K R := by
  induction p with
  | ret a => exact h a hp
  | fail e => trivial
  | call o k ih => exact ⟨hp.1, fun a ha => ih a (hp.2 a ha)⟩

theorem obeys_bind {p : Program S ε α} {f : α → Program S ε β} {P : α → Prop} {Q : β → Prop}
    (hp : p.Obeys K P) (hf : ∀ a, P a → (f a).Obeys K Q) : (p >>= f).Obeys K Q := by
  induction p with
  | ret a => exact hf a hp
  | fail e => trivial
  | call o k ih => exact ⟨hp.1, fun a ha => ih a (hp.2 a ha)⟩

theorem obeys_catching {p : Program S ε α} {Q : α → Prop} (hp : p.Obeys K Q) :
    (p.catching : Program S δ _).Obeys K fun r => ∀ a, r = .ok a → Q a := by
  induction p with
  | ret a =>
    intro b hb
    obtain rfl := Except.ok.inj hb
    exact hp
  | fail e => exact fun a ha => by cases ha
  | call o k ih => exact ⟨hp.1, fun a ha => ih a (hp.2 a ha)⟩

theorem obeys_ite {c : Prop} [Decidable c] {p q : Program S ε α} {Q : α → Prop}
    (hp : c → p.Obeys K Q) (hq : ¬ c → q.Obeys K Q) : (if c then p else q).Obeys K Q := by
  split
  · exact hp ‹_›
  · exact hq ‹_›

theorem Only.obeys {A : S.Op → Prop} {p : Program S ε α} (hp : p.Only A) (h : ∀ o, A o → K.asks o) :
    p.Obeys K fun _ => True := by
  induction p with
  | ret a => trivial
  | fail e => trivial
  | call o k ih => exact ⟨h o hp.1, fun a _ => ih a (hp.2 a)⟩

theorem Obeys.meets {x : Exec S σ} {C A : S.Op → σ → Prop} {I : σ → Prop}
    (h : ∀ o s, I s → K.asks o → C o s → A o s ∧ I (x o s).2 ∧ K.gives o (x o s).1)
    {p : Program S ε α} {Q : α → Prop} (hp : p.Obeys K Q) {s : σ} (hs : I s) :
    Meets x C A p (fun r t => I t ∧ ∀ a, r = .ok a → Q a) s := by
  induction p generalizing s with
  | ret a =>
    refine ⟨hs, ?_⟩
    intro b hb
    obtain rfl := Except.ok.inj hb
    exact hp
  | fail e => exact ⟨hs, fun a ha => by cases ha⟩
  | call o k ih =>
    intro hc
    obtain ⟨ha, hi, hg⟩ := h o s hs hp.1 hc
    exact ⟨ha, ih _ (hp.2 _ hg) hi⟩

end Program
end Effects
