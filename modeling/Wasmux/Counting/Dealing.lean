import Mathlib.Data.List.Basic

/-!
# Dealing in turn

Whoever is in a list is dealt to in the order of the list, round after round.
Some leave while it goes on, others join at the end between two rounds, and a
few may be passed over: each of these is one more that anybody can lack.
-/

set_option autoImplicit false

namespace Counting

/-- A round has come to `i`: of what each has had, those before it have this
round's share too, and nobody lacks more than `slack`. -/
def Dealt (slack i : ℕ) (counts : List ℕ) : Prop := ∃ n, ∀ j c, counts[j]? = some c →
  (j < i → c ≤ n + 1 ∧ n + 1 ≤ c + slack) ∧ (i ≤ j → c ≤ n ∧ n ≤ c + slack)

section
variable {slack i : ℕ} {counts : List ℕ}

theorem dealt_nil (slack i : ℕ) : Dealt slack i [] := ⟨0, fun j c h => by simp at h⟩

theorem Dealt.even (h : Dealt slack i counts) {c d : ℕ} (hc : c ∈ counts) (hd : d ∈ counts) :
    c ≤ d + 1 + slack := by
  obtain ⟨n, hn⟩ := h
  obtain ⟨j, hj⟩ := List.mem_iff_getElem?.mp hc
  obtain ⟨l, hl⟩ := List.mem_iff_getElem?.mp hd
  have hcount : c ≤ n + 1 := by
    by_cases hji : j < i
    · exact ((hn j c hj).1 hji).1
    · have := ((hn j c hj).2 (by omega)).1
      omega
  have hother : n ≤ d + slack := by
    by_cases hli : l < i
    · have := ((hn l d hl).1 hli).2
      omega
    · exact ((hn l d hl).2 (by omega)).2
  omega

theorem Dealt.level (h : Dealt slack 0 counts) {c d : ℕ} (hc : c ∈ counts) (hd : d ∈ counts) :
    c ≤ d + slack := by
  obtain ⟨n, hn⟩ := h
  obtain ⟨j, hj⟩ := List.mem_iff_getElem?.mp hc
  obtain ⟨l, hl⟩ := List.mem_iff_getElem?.mp hd
  have hcount := ((hn j c hj).2 (by omega)).1
  have hother := ((hn l d hl).2 (by omega)).2
  omega

theorem Dealt.turn (h : Dealt slack i counts) : Dealt slack (i + 1) (counts.modify i (· + 1)) := by
  obtain ⟨n, hn⟩ := h
  refine ⟨n, fun j c hj => ?_⟩
  rw [List.getElem?_modify] at hj
  by_cases hji : i = j
  · subst hji
    obtain ⟨d, hd, rfl⟩ : ∃ d, counts[i]? = some d ∧ d + 1 = c := by simpa using hj
    have hshare := (hn i d hd).2 (Nat.le_refl i)
    omega
  · have hsame : counts[j]? = some c := by simpa [hji] using hj
    obtain ⟨hbefore, hafter⟩ := hn j c hsame
    exact ⟨fun hlt => hbefore (by omega), fun hle => hafter (by omega)⟩

theorem Dealt.join (h : Dealt slack 0 counts) : Dealt slack 0 (counts ++ [counts.headD 0]) := by
  cases counts with
  | nil => exact ⟨0, fun j c hj => by cases j with
      | zero => simp at hj; omega
      | succ j => simp at hj⟩
  | cons first rest =>
    obtain ⟨n, hn⟩ := h
    refine ⟨n, fun j c hj => ?_⟩
    rw [List.getElem?_append] at hj
    split at hj
    · exact hn j c hj
    · obtain rfl : first = c := by
        have := List.mem_of_getElem? hj
        simpa [eq_comm] using this
      have hshare := (hn 0 first rfl).2 (Nat.le_refl 0)
      omega

theorem Dealt.leave (h : Dealt slack (i + 1) counts) : Dealt slack i (counts.eraseIdx i) := by
  obtain ⟨n, hn⟩ := h
  refine ⟨n, fun j c hj => ?_⟩
  rw [List.getElem?_eraseIdx] at hj
  split at hj
  · exact ⟨fun hlt => (hn j c hj).1 (by omega), fun hle => by omega⟩
  · exact ⟨fun hlt => by omega, fun hle => (hn (j + 1) c hj).2 (by omega)⟩

theorem Dealt.leave_first (h : Dealt slack 0 counts) : Dealt slack 0 (counts.eraseIdx 0) := by
  obtain ⟨n, hn⟩ := h
  refine ⟨n, fun j c hj => ⟨fun hlt => by omega, fun hle => ?_⟩⟩
  rw [List.getElem?_eraseIdx, if_neg (by omega)] at hj
  exact (hn (j + 1) c hj).2 (by omega)

theorem Dealt.drop (h : Dealt slack (i + 1) counts) : Dealt (slack + 1) (i + 1) (counts.eraseIdx i) := by
  obtain ⟨n, hn⟩ := h
  refine ⟨n, fun j c hj => ?_⟩
  rw [List.getElem?_eraseIdx] at hj
  split at hj
  · have hshare := (hn j c hj).1 (by omega)
    exact ⟨fun hlt => by omega, fun hle => by omega⟩
  · have hshare := (hn (j + 1) c hj).2 (by omega)
    exact ⟨fun hlt => by omega, fun hle => by omega⟩

theorem Dealt.round (h : Dealt slack i counts) (hend : counts.length ≤ i) : Dealt slack 0 counts := by
  obtain ⟨n, hn⟩ := h
  refine ⟨n + 1, fun j c hj => ⟨fun hlt => by omega, fun hle => ?_⟩⟩
  have hlt : j < counts.length := (List.getElem?_eq_some_iff.mp hj).1
  exact (hn j c hj).1 (by omega)

end
end Counting
