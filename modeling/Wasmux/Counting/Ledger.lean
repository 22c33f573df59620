import Mathlib.Algebra.BigOperators.Group.List.Basic
import Mathlib.Algebra.Ring.Nat
import Mathlib.Logic.Function.Basic
import Mathlib.Tactic.Common

/-!
# Counted objects

A ledger says of each object whether it is live and how often it is counted.
What refers to an object is counted apart, by a need. A ledger covers a need
when nothing needed is gone or counted too low, and is tight for it when
nothing is counted too high. Counts stop at a ceiling. A `Trade` is what
taking and dropping references does to both sides, and which of its steps leak.
-/

set_option autoImplicit false

namespace Counting

abbrev Ledger (κ : Type) := κ → Option ℕ

abbrev Need (κ : Type) := κ → ℕ

variable {κ : Type}

def Covers (ceiling : ℕ) (c : Ledger κ) (need : Need κ) : Prop :=
  ∀ k, 0 < need k → ∃ n, c k = some n ∧ min (need k) ceiling ≤ n

def Tight (c : Ledger κ) (need : Need κ) : Prop :=
  ∀ k n, c k = some n → 0 < n ∧ n ≤ need k

variable [DecidableEq κ]

def one (k j : κ) : ℕ := if k = j then 1 else 0

@[simp] theorem one_self (k : κ) : one k k = 1 := by simp [one]

theorem one_of_ne {k j : κ} (h : k ≠ j) : one k j = 0 := by simp [one, h]

/-- One more count of `k`, up to the ceiling. -/
def take (ceiling : ℕ) (k : κ) (c : Ledger κ) : Ledger κ := fun j =>
  if k = j then (c j).map fun n => min ceiling (n + 1) else c j

/-- One count of `k` less; the last one ends it. -/
def drop (k : κ) (c : Ledger κ) : Ledger κ := fun j =>
  if k = j then (c j).bind fun n => if n - 1 = 0 then none else some (n - 1) else c j

def fresh (k : κ) (c : Ledger κ) : Ledger κ := fun j => if k = j then some 1 else c j

theorem drop_fresh {c : Ledger κ} {k : κ} (free : c k = none) : drop k (fresh k c) = c := by
  funext j
  by_cases hkj : k = j
  · subst hkj
    simp [drop, fresh, free]
  · simp [drop, fresh, hkj]

/-- What an operation does to the counts and to the need. With `room` no need
is above the ceiling when a reference is dropped. The last three are leaks: a
count that nothing stands for, an object that nothing names, and references
that are forgotten. -/
inductive Trade (ceiling : ℕ) (room leak : Prop) :
    Ledger κ → Need κ → Ledger κ → Need κ → Prop
  | same {c need need'} (h : ∀ j, need' j = need j) : Trade ceiling room leak c need c need'
  | take {c need need'} (k : κ) (held : 0 < need k) (h : ∀ j, need' j = need j + one k j) :
      Trade ceiling room leak c need (take ceiling k c) need'
  | drop {c need need'} (k : κ) (fits : room → need k ≤ ceiling)
      (h : ∀ j, need j = need' j + one k j) : Trade ceiling room leak c need (drop k c) need'
  | fresh {c need need'} (k : κ) (free : c k = none) (h : ∀ j, need' j = need j + one k j) :
      Trade ceiling room leak c need (fresh k c) need'
  | spare {c need} (leaks : leak) (k : κ) :
      Trade ceiling room leak c need (Counting.take ceiling k c) need
  | orphan {c need} (leaks : leak) (k : κ) (free : c k = none) :
      Trade ceiling room leak c need (Counting.fresh k c) need
  | forget {c need need'} (leaks : leak) (h : ∀ j, need' j ≤ need j) :
      Trade ceiling room leak c need c need'
  | trans {c d e need need' need''} (first : Trade ceiling room leak c need d need')
      (second : Trade ceiling room leak d need' e need'') : Trade ceiling room leak c need e need''

section
variable {ceiling : ℕ} {room leak : Prop} {c : Ledger κ} {need : Need κ}

theorem Trade.taken (k : κ) (held : 0 < need k) :
    Trade ceiling room leak c need (Counting.take ceiling k c) fun j => need j + one k j :=
  .take k held fun _ => rfl

theorem Trade.made (k : κ) (free : c k = none) :
    Trade ceiling room leak c need (Counting.fresh k c) fun j => need j + one k j :=
  .fresh k free fun _ => rfl

theorem Trade.left (need' : Need κ) (leaks : leak) (h : ∀ j, need' j ≤ need j) :
    Trade ceiling room leak c need c need' := .forget leaks h

end

theorem Trade.mono {ceiling : ℕ} {room leak more : Prop} {c d : Ledger κ} {need need' : Need κ}
    (h : leak → more) (t : Trade ceiling room leak c need d need') :
    Trade ceiling room more c need d need' := by
  induction t with
  | same hn => exact .same hn
  | take k held hn => exact .take k held hn
  | drop k fits hn => exact .drop k fits hn
  | fresh k free hn => exact .fresh k free hn
  | spare leaks k => exact .spare (h leaks) k
  | orphan leaks k free => exact .orphan (h leaks) k free
  | forget leaks hn => exact .forget (h leaks) hn
  | trans _ _ ih1 ih2 => exact .trans ih1 ih2

section
variable {ceiling : ℕ} {c d : Ledger κ} {need need' : Need κ}

theorem covers_take {k : κ} (h : Covers ceiling c need) (held : 0 < need k)
    (hn : ∀ j, need' j = need j + one k j) : Covers ceiling (take ceiling k c) need' := by
  intro j hj
  by_cases hkj : k = j
  · subst hkj
    obtain ⟨n, hc, hle⟩ := h k held
    rw [hn, one_self]
    exact ⟨min ceiling (n + 1), by simp [take, hc], by omega⟩
  · rw [hn, one_of_ne hkj] at hj ⊢
    simpa [take, hkj] using h j hj

theorem covers_spare {k : κ} (h : Covers ceiling c need) : Covers ceiling (take ceiling k c) need := by
  intro j hj
  by_cases hkj : k = j
  · subst hkj
    obtain ⟨n, hc, hle⟩ := h k hj
    exact ⟨min ceiling (n + 1), by simp [take, hc], by omega⟩
  · simpa [take, hkj] using h j hj

theorem covers_drop {k : κ} (h : Covers ceiling c need) (fits : need k ≤ ceiling)
    (hn : ∀ j, need j = need' j + one k j) : Covers ceiling (drop k c) need' := by
  intro j hj
  obtain ⟨n, hc, hle⟩ := h j (by rw [hn]; omega)
  by_cases hkj : k = j
  · subst hkj
    rw [hn, one_self] at hle fits
    have : n - 1 ≠ 0 := by omega
    exact ⟨n - 1, by simp [drop, hc, this], by omega⟩
  · rw [hn, one_of_ne hkj] at hle
    exact ⟨n, by simp [drop, hkj, hc], hle⟩

theorem covers_orphan {k : κ} (h : Covers ceiling c need) (free : c k = none) :
    Covers ceiling (fresh k c) need := by
  intro j hj
  obtain ⟨n, hc, hle⟩ := h j hj
  have hkj : k ≠ j := fun e => by simp [← e, free] at hc
  exact ⟨n, by simp [fresh, hkj, hc], hle⟩

theorem covers_fresh {k : κ} (h : Covers ceiling c need) (free : c k = none)
    (hn : ∀ j, need' j = need j + one k j) : Covers ceiling (fresh k c) need' := by
  intro j hj
  by_cases hkj : k = j
  · subst hkj
    have h0 : need k = 0 := by
      by_contra hne
      obtain ⟨n, hc, -⟩ := h k (Nat.pos_of_ne_zero hne)
      simp [free] at hc
    exact ⟨1, by simp [fresh], by rw [hn, one_self, h0]; omega⟩
  · rw [hn, one_of_ne hkj] at hj ⊢
    simpa [fresh, hkj] using h j hj

theorem Trade.covers {leak : Prop} (t : Trade ceiling True leak c need d need')
    (h : Covers ceiling c need) : Covers ceiling d need' := by
  induction t with
  | same hn => exact fun k hk => by rw [hn] at hk ⊢; exact h k hk
  | take k held hn => exact covers_take h held hn
  | drop k fits hn => exact covers_drop h (fits trivial) hn
  | fresh k free hn => exact covers_fresh h free hn
  | spare _ k => exact covers_spare h
  | orphan _ k free => exact covers_orphan h free
  | forget _ hn =>
    intro k hk
    have hle := hn k
    obtain ⟨n, hc, hm⟩ := h k (by omega)
    exact ⟨n, hc, by omega⟩
  | trans _ _ ih1 ih2 => exact ih2 (ih1 h)

theorem tight_take {k : κ} (pos : 0 < ceiling) (h : Tight c need)
    (hn : ∀ j, need' j = need j + one k j) : Tight (take ceiling k c) need' := by
  intro j n hc
  rw [hn]
  by_cases hkj : k = j
  · subst hkj
    simp only [take, if_true, Option.map_eq_some_iff] at hc
    obtain ⟨n', hc', rfl⟩ := hc
    have := h k n' hc'
    rw [one_self]
    omega
  · simp only [take, hkj, if_false] at hc
    simpa [one_of_ne hkj] using h j n hc

theorem tight_drop {k : κ} (h : Tight c need) (hn : ∀ j, need j = need' j + one k j) :
    Tight (drop k c) need' := by
  intro j n hc
  by_cases hkj : k = j
  · subst hkj
    simp only [drop, if_true, Option.bind_eq_some_iff] at hc
    obtain ⟨n', hc', hd⟩ := hc
    have := h k n' hc'
    rw [hn, one_self] at this
    split at hd
    · simp at hd
    · obtain rfl : n' - 1 = n := by simpa using hd
      omega
  · simp only [drop, hkj, if_false] at hc
    have := h j n hc
    rwa [hn, one_of_ne hkj] at this

theorem tight_fresh {k : κ} (h : Tight c need) (hn : ∀ j, need' j = need j + one k j) :
    Tight (fresh k c) need' := by
  intro j n hc
  rw [hn]
  by_cases hkj : k = j
  · subst hkj
    obtain rfl : 1 = n := by simpa [fresh] using hc
    rw [one_self]
    omega
  · simp only [fresh, hkj, if_false] at hc
    simpa [one_of_ne hkj] using h j n hc

theorem Trade.tight {room : Prop} (pos : 0 < ceiling) (t : Trade ceiling room False c need d need')
    (h : Tight c need) : Tight d need' := by
  induction t with
  | same hn => exact fun k n hc => by rw [hn]; exact h k n hc
  | take k _ hn => exact tight_take pos h hn
  | drop k _ hn => exact tight_drop h hn
  | fresh k _ hn => exact tight_fresh h hn
  | spare leaks => exact leaks.elim
  | orphan leaks => exact leaks.elim
  | forget leaks => exact leaks.elim
  | trans _ _ ih1 ih2 => exact ih2 (ih1 h)

end

theorem sum_modify {α : Type} (g : α → ℕ) (f : α → α) (l : List α) (i : ℕ) (a : α)
    (h : l[i]? = some a) : ((l.modify i f).map g).sum + g a = (l.map g).sum + g (f a) := by
  induction l generalizing i with
  | nil => simp at h
  | cons b l ih =>
    cases i with
    | zero =>
      obtain rfl : b = a := by simpa using h
      simp only [List.modify_zero_cons, List.map_cons, List.sum_cons]
      omega
    | succ i =>
      have := ih i (by simpa using h)
      simp only [List.modify_succ_cons, List.map_cons, List.sum_cons]
      omega

theorem sum_eraseIdx {α : Type} (g : α → ℕ) (l : List α) (i : ℕ) (a : α) (h : l[i]? = some a) :
    ((l.eraseIdx i).map g).sum + g a = (l.map g).sum := by
  induction l generalizing i with
  | nil => simp at h
  | cons b l ih =>
    cases i with
    | zero =>
      obtain rfl : b = a := by simpa using h
      simp only [List.eraseIdx_cons_zero, List.map_cons, List.sum_cons]
      omega
    | succ i =>
      have := ih i (by simpa using h)
      simp only [List.eraseIdx_cons_succ, List.map_cons, List.sum_cons]
      omega

end Counting
