import Mathlib.Algebra.Ring.Nat
import Mathlib.Data.List.Basic
import Mathlib.Data.List.Count
import Mathlib.Tactic.Common

/-!
# Slabs

An index-keyed store with a free list. The free list holds exactly the vacant
indices, each once: that is part of the type, so a key in it is never live.
-/

set_option autoImplicit false

namespace Wasmux

structure Slab (α : Type) where
  slots : List (Option α)
  free : List ℕ
  vacant : ∀ k, k ∈ free ↔ slots[k]? = some none
  nodup : free.Nodup

namespace Slab

variable {α : Type}

def new : Slab α := ⟨[], [], by simp, List.nodup_nil⟩

instance : Inhabited (Slab α) := ⟨new⟩

def get (s : Slab α) (k : ℕ) : Option α := (s.slots[k]?).join

/-- What `get_mut` is used for: change the entry under `k` in place. -/
def modify (s : Slab α) (k : ℕ) (f : α → α) : Slab α where
  slots := s.slots.modify k (Option.map f)
  free := s.free
  vacant j := by
    rw [s.vacant, List.getElem?_modify]
    rcases s.slots[j]? with _ | _ | v <;> by_cases h : k = j <;> simp [h]
  nodup := s.nodup

def insert (s : Slab α) (value : α) (cap : ℕ) : Option (ℕ × Slab α) :=
  match h : s.free with
  | k :: rest => some (k,
      { slots := s.slots.set k (some value)
        free := rest
        vacant := by
          intro j
          have hk : s.slots[k]? = some none := (s.vacant k).mp (by simp [h])
          have hj := s.vacant j
          have hn := s.nodup
          rw [h] at hj hn
          simp only [List.nodup_cons, List.mem_cons] at hj hn
          rw [List.getElem?_set]
          by_cases hkj : k = j
          · subst hkj
            have hlt := (List.getElem?_eq_some_iff.mp hk).1
            simp [hn.1, hlt]
          · simp only [hkj, if_false, ← hj]
            exact ⟨Or.inr, fun h' => h'.resolve_left fun e => hkj e.symm⟩
        nodup := by
          have hn := s.nodup
          rw [h] at hn
          exact (List.nodup_cons.mp hn).2 })
  | [] =>
    if s.slots.length ≥ cap ∨ s.slots.length ≥ 2^32 - 1 then none
    else some (s.slots.length,
      { slots := s.slots ++ [some value]
        free := []
        vacant := by
          intro j
          have hj := s.vacant j
          rw [h] at hj
          rw [List.getElem?_append]
          split
          · exact hj
          · rename_i hlt
            rcases hd : j - s.slots.length with _ | d <;> simp
        nodup := List.nodup_nil })

def remove (s : Slab α) (k : ℕ) : Option α × Slab α :=
  match h : s.slots[k]? with
  | some (some value) => (some value,
      { slots := s.slots.set k none
        free := k :: s.free
        vacant := by
          intro j
          have hlt := (List.getElem?_eq_some_iff.mp h).1
          rw [List.mem_cons, s.vacant, List.getElem?_set]
          by_cases hkj : k = j
          · subst hkj
            simp [hlt]
          · simp [hkj, Ne.symm hkj]
        nodup := List.nodup_cons.mpr ⟨fun hm => by
          rw [s.vacant, h] at hm
          simp at hm, s.nodup⟩ })
  | _ => (none, s)

def len (s : Slab α) : ℕ := s.slots.length - s.free.length

def countP (p : α → Bool) (s : Slab α) : ℕ := s.slots.countP fun o => o.any p

theorem get_eq_some {s : Slab α} {k : ℕ} {v : α} :
    s.get k = some v ↔ s.slots[k]? = some (some v) := by
  unfold get
  rcases s.slots[k]? with _ | _ | w <;> simp

@[simp] theorem get_new (k : ℕ) : (new : Slab α).get k = none := rfl

theorem get_modify (s : Slab α) (k j : ℕ) (f : α → α) :
    (s.modify k f).get j = if k = j then (s.get j).map f else s.get j := by
  unfold get modify
  simp only [List.getElem?_modify]
  rcases s.slots[j]? with _ | _ | v <;> by_cases h : k = j <;> simp [h]

@[simp] theorem get_modify_self (s : Slab α) (k : ℕ) (f : α → α) :
    (s.modify k f).get k = (s.get k).map f := by simp [get_modify]

theorem insert_spec {s t : Slab α} {v : α} {cap k : ℕ} (h : s.insert v cap = some (k, t)) :
    s.get k = none ∧ t.get k = some v ∧ ∀ j, j ≠ k → t.get j = s.get j := by
  unfold insert at h
  split at h
  · rename_i k' rest hf
    obtain ⟨rfl, rfl⟩ := by simpa using h
    have hk : s.slots[k']? = some none := (s.vacant k').mp (by simp [hf])
    have hlt := (List.getElem?_eq_some_iff.mp hk).1
    refine ⟨by simp [get, hk], by simp [get, hlt], fun j hj => ?_⟩
    simp [get, Ne.symm hj]
  · split at h
    · simp at h
    · obtain ⟨rfl, rfl⟩ := by simpa using h
      refine ⟨by simp [get], by simp [get], fun j hj => ?_⟩
      unfold get
      simp only [List.getElem?_append]
      split
      · rfl
      · rename_i hlt
        have hd : j - s.slots.length ≠ 0 := by omega
        obtain ⟨d, hd⟩ := Nat.exists_eq_succ_of_ne_zero hd
        rw [hd, List.getElem?_eq_none (by omega : s.slots.length ≤ j)]
        rfl

theorem remove_get (s : Slab α) (k : ℕ) : (s.remove k).1 = s.get k := by
  unfold remove get
  split
  · rename_i v h
    simp [h]
  · rename_i h
    rcases hs : s.slots[k]? with _ | _ | v
    · rfl
    · rfl
    · exact absurd hs (h v)

theorem get_remove (s : Slab α) (k j : ℕ) :
    (s.remove k).2.get j = if k = j then none else s.get j := by
  unfold remove
  split
  · rename_i v h
    unfold get
    by_cases hkj : k = j
    · subst hkj
      simp [List.getElem?_set]
      split <;> rfl
    · simp [hkj]
  · rename_i h
    by_cases hkj : k = j
    · subst hkj
      simp only [if_true, get]
      rcases hs : s.slots[k]? with _ | _ | v
      · rfl
      · rfl
      · exact absurd hs (h v)
    · simp [hkj]

theorem countP_pos {s : Slab α} {p : α → Bool} :
    0 < s.countP p ↔ ∃ k v, s.get k = some v ∧ p v = true := by
  unfold countP
  rw [List.countP_pos_iff]
  constructor
  · rintro ⟨o, ho, hp⟩
    obtain ⟨k, hk⟩ := List.mem_iff_getElem?.mp ho
    cases o with
    | none => simp at hp
    | some v => exact ⟨k, v, get_eq_some.mpr hk, by simpa using hp⟩
  · rintro ⟨k, v, hk, hp⟩
    exact ⟨some v, List.mem_of_getElem? (get_eq_some.mp hk), by simpa using hp⟩

theorem countP_set (p : α → Bool) (l : List (Option α)) (k : ℕ) (o o' : Option α)
    (h : l[k]? = some o) :
    (l.set k o').countP (fun q => q.any p) + (if o.any p then 1 else 0) =
      l.countP (fun q => q.any p) + if o'.any p then 1 else 0 := by
  induction l generalizing k with
  | nil => simp at h
  | cons q l ih =>
    cases k with
    | zero =>
      obtain rfl : q = o := by simpa using h
      simp only [List.set_cons_zero, List.countP_cons]
      omega
    | succ k =>
      have := ih k (by simpa using h)
      simp only [List.set_cons_succ, List.countP_cons]
      omega

theorem countP_insert {s t : Slab α} {v : α} {cap k : ℕ} (p : α → Bool)
    (h : s.insert v cap = some (k, t)) : t.countP p = s.countP p + if p v then 1 else 0 := by
  unfold insert at h
  split at h
  · rename_i k' rest hf
    obtain ⟨rfl, rfl⟩ := by simpa using h
    have hk : s.slots[k']? = some none := (s.vacant k').mp (by simp [hf])
    have := countP_set p s.slots k' none (some v) hk
    simpa [countP] using this
  · split at h
    · simp at h
    · obtain ⟨rfl, rfl⟩ := by simpa using h
      simp [countP, List.countP_cons]

theorem countP_modify (p : α → Bool) (s : Slab α) (k : ℕ) (f : α → α)
    (hf : ∀ v, s.get k = some v → p (f v) = p v) : (s.modify k f).countP p = s.countP p := by
  unfold countP modify
  simp only
  rcases hs : s.slots[k]? with _ | o
  · rw [List.modify_eq_self]
    simpa using hs
  · have hset : s.slots.modify k (Option.map f) = s.slots.set k (o.map f) := by
      apply List.ext_getElem?
      intro j
      rw [List.getElem?_modify, List.getElem?_set]
      by_cases hkj : k = j
      · subst hkj
        rw [if_pos (List.getElem?_eq_some_iff.mp hs).1, hs]
        simp
      · simp [hkj]
    rw [hset]
    have := countP_set p s.slots k o (o.map f) hs
    cases o with
    | none => simpa using this
    | some v =>
      have hv := hf v (get_eq_some.mpr hs)
      simp only [Option.map_some, Option.any_some, hv] at this ⊢
      omega

theorem countP_remove (p : α → Bool) (s : Slab α) (k : ℕ) :
    (s.remove k).2.countP p + (if (s.get k).any p then 1 else 0) = s.countP p := by
  unfold remove
  split
  · rename_i v h
    have := countP_set p s.slots k (some v) none h
    simp only [countP, get, h]
    simpa using this
  · rename_i h
    rcases hs : s.slots[k]? with _ | _ | v
    · simp [get, hs]
    · simp [get, hs]
    · exact absurd hs (h v)

end Slab
end Wasmux
