import Mathlib.Data.List.Count
import Wasmux.Counting.Ledger

/-!
# A roll of names

A roll lists names, each once, and marks those that are alive. Who bears a
name is counted apart, by a need. A roll tallies with a need when each name
that is borne is alive, and each that is alive is borne once.
-/

set_option autoImplicit false

namespace Counting

abbrev Roll (κ : Type) := List (κ × Bool)

variable {κ : Type} [DecidableEq κ]

namespace Roll

def names (roll : Roll κ) : List κ := roll.map Prod.fst

def alive (roll : Roll κ) (k : κ) : ℕ := roll.countP fun e => decide (e.1 = k) && e.2

def retire (k : κ) : Roll κ → Roll κ
  | [] => []
  | e :: rest => if e.1 = k then (e.1, false) :: rest else e :: retire k rest

def strike (k : κ) (roll : Roll κ) : Roll κ := roll.filter fun e => decide (e.1 ≠ k)

structure Tallies (roll : Roll κ) (need : Need κ) : Prop where
  unique : roll.names.Nodup
  alive : ∀ k, roll.alive k = need k

variable {roll : Roll κ} {need : Need κ}

theorem alive_cons (e : κ × Bool) (roll : Roll κ) (k : κ) :
    alive (e :: roll) k = alive roll k + if e.1 = k ∧ e.2 = true then 1 else 0 := by
  simp [alive, List.countP_cons]

theorem alive_append (roll more : Roll κ) (k : κ) : alive (roll ++ more) k = alive roll k + alive more k :=
  List.countP_append

theorem alive_eq_zero {k : κ} (h : k ∉ names roll) : alive roll k = 0 := by
  apply List.countP_eq_zero.mpr
  intro e he hk
  apply h
  have : e.1 = k ∧ e.2 = true := by simpa using hk
  exact List.mem_map.mpr ⟨e, he, this.1⟩

theorem alive_eq_zero_of_dead (h : (names roll).Nodup) {k : κ} (hk : (k, false) ∈ roll) :
    alive roll k = 0 := by
  induction roll with
  | nil => rfl
  | cons e rest ih =>
    obtain ⟨hnew, hrest⟩ : e.1 ∉ names rest ∧ (names rest).Nodup := List.nodup_cons.mp h
    rcases List.mem_cons.mp hk with rfl | hk
    · rw [alive_cons, alive_eq_zero hnew]
      simp
    · have hne : e.1 ≠ k := fun he => hnew (List.mem_map.mpr ⟨_, hk, he.symm⟩)
      rw [alive_cons, ih hrest hk]
      simp [hne]

@[simp] theorem names_retire (k : κ) (roll : Roll κ) : names (retire k roll) = names roll := by
  induction roll with
  | nil => rfl
  | cons e rest ih =>
    unfold retire
    by_cases h : e.1 = k
    · simp [h, names]
    · simpa [h, names] using ih

theorem alive_retire (h : (names roll).Nodup) (k j : κ) :
    alive (retire k roll) j = if j = k then 0 else alive roll j := by
  induction roll with
  | nil => simp [retire, alive]
  | cons e rest ih =>
    obtain ⟨hnew, hrest⟩ : e.1 ∉ names rest ∧ (names rest).Nodup := List.nodup_cons.mp h
    unfold retire
    by_cases hk : e.1 = k
    · subst hk
      by_cases hj : j = e.1
      · subst hj
        simp [alive_cons, alive_eq_zero hnew]
      · simp [alive_cons, hj, Ne.symm hj]
    · rw [if_neg hk, alive_cons, alive_cons, ih hrest]
      by_cases hj : j = k
      · subst hj
        simp [hk]
      · simp [hj]

theorem alive_strike (k j : κ) (roll : Roll κ) :
    alive (strike k roll) j = if j = k then 0 else alive roll j := by
  unfold alive strike
  rw [List.countP_filter]
  by_cases hj : j = k
  · subst hj
    rw [if_pos rfl]
    apply List.countP_eq_zero.mpr
    intro e _ he
    simp at he
    exact he.2 he.1.1
  · rw [if_neg hj]
    apply List.countP_congr
    intro e _
    simp only [Bool.and_eq_true, decide_eq_true_eq, and_iff_left_iff_imp]
    rintro ⟨rfl, -⟩
    exact hj

theorem Tallies.le_one (h : Tallies roll need) (k : κ) : need k ≤ 1 := by
  rw [← h.alive]
  have hunique := h.unique
  clear h
  induction roll with
  | nil => simp [Roll.alive]
  | cons e rest ih =>
    obtain ⟨hnew, hrest⟩ : e.1 ∉ names rest ∧ (names rest).Nodup := List.nodup_cons.mp hunique
    rw [alive_cons]
    by_cases hk : e.1 = k
    · subst hk
      rw [alive_eq_zero hnew]
      split <;> omega
    · simpa [hk] using ih hrest

theorem Tallies.retire {k : κ} (h : Tallies roll fun j => need j + one k j) :
    Tallies (retire k roll) need := by
  refine ⟨by simpa using h.unique, fun j => ?_⟩
  rw [alive_retire h.unique]
  have hj := h.alive j
  have hone := h.le_one k
  rw [one_self] at hone
  by_cases hjk : j = k
  · subst hjk
    rw [if_pos rfl]
    omega
  · rw [if_neg hjk, hj, one_of_ne (Ne.symm hjk), Nat.add_zero]

theorem Tallies.strike {k : κ} (h : Tallies roll need) (hk : need k = 0) : Tallies (strike k roll) need := by
  refine ⟨List.Nodup.sublist (List.Sublist.map _ List.filter_sublist) h.unique, fun j => ?_⟩
  rw [alive_strike]
  by_cases hjk : j = k
  · rw [if_pos hjk, hjk, hk]
  · rw [if_neg hjk, h.alive]

theorem Tallies.enrol {k : κ} (h : Tallies roll need) (hk : k ∉ roll.names) :
    Tallies (roll ++ [(k, true)]) fun j => need j + one k j := by
  constructor
  · rw [names, List.map_append, List.nodup_append]
    refine ⟨h.unique, by simp, ?_⟩
    rintro j hj i hi rfl
    obtain rfl : j = k := by simpa using hi
    exact hk hj
  · intro j
    rw [alive_append, h.alive]
    by_cases hjk : k = j
    · simp [hjk, Roll.alive]
    · simp [hjk, Roll.alive, one_of_ne hjk]

theorem Tallies.perm {bearers : List κ} (h : Tallies roll bearers.count) :
    bearers.Nodup ∧ ((roll.filter Prod.snd).map Prod.fst).Perm bearers := by
  constructor
  · exact List.nodup_iff_count.mpr h.le_one
  · apply List.perm_iff_count.mpr
    intro k
    rw [← h.alive, List.count, List.countP_map, List.countP_filter]
    apply List.countP_congr
    intro e _
    simp

end Roll
end Counting
