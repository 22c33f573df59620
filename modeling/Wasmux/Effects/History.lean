import Wasmux.Effects.Triples

/-!
# Runs with a history

An interpretation can note something about every operation it performs. The
notes do not change what is performed, so a run with its history is the run
without it, and what is met along one is met along the other.
-/

set_option autoImplicit false

namespace Effects
namespace Program

variable {S : Signature} {ε α σ τ : Type} (x : Exec S σ) (next : τ → (o : S.Op) → σ → S.Ans o → τ)

/-- The interpretation `x`, with what `next` notes of each operation beside the state. -/
def noting : Exec S (σ × τ) := fun o s => ((x o s.1).1, (x o s.1).2, next s.2 o s.1 (x o s.1).1)

variable {x next}

theorem run_noting (p : Program S ε α) (s : σ × τ) : ∃ t,
    run (noting x next) p s = ((run x p s.1).1, (run x p s.1).2, t) := by
  induction p generalizing s with
  | ret a => exact ⟨s.2, rfl⟩
  | fail e => exact ⟨s.2, rfl⟩
  | call o k ih => exact ih _ _

theorem along_noting {C : S.Op → σ → Prop} {p : Program S ε α} {s : σ × τ} (h : Along x C p s.1) :
    Along (noting x next) (fun o s => C o s.1) p s := by
  induction p generalizing s with
  | ret a => trivial
  | fail e => trivial
  | call o k ih => exact ⟨h.1, ih _ h.2⟩

theorem noting_keeps {A : S.Op → σ → Prop} {J : σ → τ → Prop}
    (h : ∀ o s t, J s t → A o s → J (x o s).2 (next t o s (x o s).1)) {p : Program S ε α} {s : σ × τ}
    (hs : J s.1 s.2) (ha : Along x A p s.1) :
    J (run (noting x next) p s).2.1 (run (noting x next) p s).2.2 :=
  final_keeps_along (noting x next) (P := fun s => J s.1 s.2) (C := fun o s => A o s.1)
    (fun o s hJ hA => h o s.1 s.2 hJ hA) hs (along_noting ha)

theorem noting_visit {A : S.Op → σ → Prop} {J : σ → τ → Prop}
    (h : ∀ o s t, J s t → A o s → J (x o s).2 (next t o s (x o s).1)) {p : Program S ε α} {s : σ × τ}
    (hs : J s.1 s.2) (ha : Along x A p s.1) {v : Visit S (σ × τ)} (hv : v ∈ trace (noting x next) p s) :
    J v.before.1 v.before.2 ∧ A v.op v.before.1 := by
  have hall : Along (noting x next) (fun o s => A o s.1) p s := along_noting ha
  constructor
  · exact reaches_keeps (noting x next) (P := fun s => J s.1 s.2) (C := fun o s => A o s.1)
      (fun o s hJ hA => h o s.1 s.2 hJ hA) hs hall (reaches_visit _ hv)
  · exact (along_iff_trace _ _ _ _).mp hall v hv

end Program
end Effects
