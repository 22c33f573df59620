import Mathlib.Data.Finset.Card
import Wasmux.Slab

/-!
# Slabs as their callers know them

The two vectors of a slab with nothing assumed of them, and what a caller can
tell from the answers it was given: which keys it was handed, and what it last
stored under each. After any calls at all the two agree.
-/

set_option autoImplicit false

namespace Wasmux

/-- The vectors of a slab, the free list with its last entry first. -/
structure Slots (α : Type) where
  slots : List (Option α)
  free : List ℕ

namespace Slots
variable {α : Type}

def new : Slots α := ⟨[], []⟩

def insert (s : Slots α) (value : α) (cap : ℕ) : Option ℕ × Slots α :=
  match s.free with
  | k :: rest =>
    if k < s.slots.length then (some k, ⟨s.slots.set k (some value), rest⟩)
    else (none, ⟨s.slots, rest⟩)
  | [] =>
    if cap ≤ s.slots.length ∨ 2^32 - 1 ≤ s.slots.length then (none, s)
    else (some s.slots.length, ⟨s.slots ++ [some value], []⟩)

def get (s : Slots α) (k : ℕ) : Option α := (s.slots[k]?).join

def getMut (s : Slots α) (k : ℕ) (f : α → α) : Option α × Slots α :=
  (s.get k, ⟨s.slots.modify k (Option.map f), s.free⟩)

def remove (s : Slots α) (k : ℕ) : Option α × Slots α :=
  match s.slots[k]? with
  | none => (none, s)
  | some none => (none, s)
  | some (some value) => (some value, ⟨s.slots.set k none, k :: s.free⟩)

def len (s : Slots α) : ℕ := s.slots.length - s.free.length

end Slots

inductive SlabCall (α : Type) where
  | insert (value : α) (cap : ℕ)
  | remove (k : ℕ)
  | getMut (k : ℕ) (f : α → α)

abbrev SlabCall.Ans {α : Type} : SlabCall α → Type
  | .insert _ _ => Option ℕ
  | .remove _ => Option α
  | .getMut _ _ => Option α

/-- What a caller knows: the keys it was handed, and what it last stored under each. -/
structure SlotLedger (α : Type) where
  handed : Finset ℕ
  stored : ℕ → Option α

namespace SlotLedger
variable {α : Type}

def blank : SlotLedger α := ⟨∅, fun _ => none⟩

/-- The entry after a call, from what the call answered. -/
def enter (l : SlotLedger α) : (c : SlabCall α) → c.Ans → SlotLedger α
  | .insert value _, some k => ⟨insert k l.handed, Function.update l.stored k (some value)⟩
  | .insert _ _, none => l
  | .remove k, _ => { l with stored := Function.update l.stored k none }
  | .getMut k f, _ => { l with stored := Function.update l.stored k ((l.stored k).map f) }

def live (l : SlotLedger α) : Finset ℕ := l.handed.filter fun k => (l.stored k).isSome

end SlotLedger

namespace Slots
variable {α : Type}

def call (s : Slots α) : (c : SlabCall α) → c.Ans × Slots α
  | .insert value cap => s.insert value cap
  | .remove k => s.remove k
  | .getMut k f => s.getMut k f

def after : List (SlabCall α) → Slots α × SlotLedger α → Slots α × SlotLedger α
  | [], t => t
  | c :: rest, (s, l) => after rest ((s.call c).2, l.enter c (s.call c).1)

end Slots

namespace Slab
variable {α : Type}

/-- A slab without what is known of it. -/
def raw (s : Slab α) : Slots α := ⟨s.slots, s.free⟩

theorem raw_new : (new : Slab α).raw = .new := rfl

theorem raw_get (s : Slab α) (k : ℕ) : s.raw.get k = s.get k := rfl

theorem raw_len (s : Slab α) : s.raw.len = s.len := rfl

theorem raw_insert_some {s t : Slab α} {value : α} {cap k : ℕ} (h : s.insert value cap = some (k, t)) :
    s.raw.insert value cap = (some k, t.raw) := by
  unfold insert at h
  split at h
  · rename_i j rest hfree
    obtain ⟨rfl, rfl⟩ := by simpa using h
    have hj : j < s.slots.length := (List.getElem?_eq_some_iff.mp ((s.vacant j).mp (by simp [hfree]))).1
    simp [Slots.insert, raw, hfree, hj]
  · rename_i hfree
    split at h
    · cases h
    · rename_i hroom
      obtain ⟨rfl, rfl⟩ := by simpa using h
      simp only [Slots.insert, raw, hfree]
      rw [if_neg hroom]

theorem insert_none_iff {s : Slab α} {value : α} {cap : ℕ} :
    s.insert value cap = none ↔ s.free = [] ∧ (cap ≤ s.slots.length ∨ 2^32 - 1 ≤ s.slots.length) := by
  unfold insert
  split
  · rename_i j rest hfree
    simp [hfree]
  · rename_i hfree
    split
    · rename_i hfull
      exact ⟨fun _ => ⟨hfree, hfull⟩, fun _ => rfl⟩
    · rename_i hroom
      exact ⟨fun h => absurd h (Option.some_ne_none _), fun h => absurd h.2 hroom⟩

theorem raw_insert_none {s : Slab α} {value : α} {cap : ℕ} (h : s.insert value cap = none) :
    s.raw.insert value cap = (none, s.raw) := by
  obtain ⟨hfree, hfull⟩ := insert_none_iff.mp h
  simp only [Slots.insert, raw, hfree]
  rw [if_pos hfull]

theorem slots_insert {s t : Slab α} {value : α} {cap k : ℕ} (h : s.insert value cap = some (k, t)) (j : ℕ) :
    j < t.slots.length ↔ j = k ∨ j < s.slots.length := by
  unfold insert at h
  split at h
  · rename_i i rest hfree
    obtain ⟨rfl, rfl⟩ := by simpa using h
    have hi : i < s.slots.length := (List.getElem?_eq_some_iff.mp ((s.vacant i).mp (by simp [hfree]))).1
    simp only [List.length_set]
    omega
  · split at h
    · cases h
    · obtain ⟨rfl, rfl⟩ := by simpa using h
      simp only [List.length_append, List.length_singleton]
      omega

theorem raw_remove (s : Slab α) (k : ℕ) : s.raw.remove k = ((s.remove k).1, (s.remove k).2.raw) := by
  unfold remove
  split
  · rename_i value h
    simp only [Slots.remove, raw, h]
  · rename_i h
    rcases hs : s.slots[k]? with _ | _ | value
    · simp only [Slots.remove, raw, hs]
    · simp only [Slots.remove, raw, hs]
    · exact absurd hs (h value)

theorem raw_getMut (s : Slab α) (k : ℕ) (f : α → α) : s.raw.getMut k f = (s.get k, (s.modify k f).raw) := rfl

theorem length_remove (s : Slab α) (k : ℕ) : (s.remove k).2.slots.length = s.slots.length := by
  unfold remove
  split
  · exact List.length_set
  · rfl

theorem length_modify (s : Slab α) (k : ℕ) (f : α → α) : (s.modify k f).slots.length = s.slots.length :=
  List.length_modify ..

theorem len_eq (s : Slab α) :
    s.len = ((Finset.range s.slots.length).filter fun k => (s.get k).isSome).card := by
  have hvacant : ((Finset.range s.slots.length).filter fun k => ¬ (s.get k).isSome).card = s.free.length := by
    rw [← List.toFinset_card_of_nodup s.nodup]
    congr 1
    ext k
    rw [Finset.mem_filter, Finset.mem_range, List.mem_toFinset, s.vacant, get]
    rcases hs : s.slots[k]? with _ | _ | value
    · simpa using List.getElem?_eq_none_iff.mp hs
    · simpa using (List.getElem?_eq_some_iff.mp hs).1
    · simp
  have hall := Finset.card_filter_add_card_filter_not (s := Finset.range s.slots.length) fun k =>
    ((s.get k).isSome : Prop)
  rw [Finset.card_range, hvacant] at hall
  unfold len
  omega

end Slab

namespace Slots
variable {α : Type}

/-- What the slab holds is what its caller's ledger says. -/
structure Agrees (s : Slab α) (l : SlotLedger α) : Prop where
  stored : ∀ k, s.get k = l.stored k
  handed : ∀ k, k < s.slots.length ↔ k ∈ l.handed

theorem agrees_new : Agrees (.new : Slab α) .blank :=
    ⟨fun _ => rfl, fun k => by simp [Slab.new, SlotLedger.blank]⟩

/-- A call keeps them in agreement. -/
theorem agrees_call {s : Slab α} {l : SlotLedger α} (h : Agrees s l) (c : SlabCall α) :
    ∃ t : Slab α, (s.raw.call c).2 = t.raw ∧ Agrees t (l.enter c (s.raw.call c).1) := by
  cases c with
  | insert value cap =>
    rcases hinsert : s.insert value cap with _ | ⟨k, t⟩
    · have hcall : s.raw.call (.insert value cap) = (none, s.raw) := Slab.raw_insert_none hinsert
      rw [hcall]
      exact ⟨s, rfl, h⟩
    · have hcall : s.raw.call (.insert value cap) = (some k, t.raw) := Slab.raw_insert_some hinsert
      rw [hcall]
      obtain ⟨-, hk, hothers⟩ := Slab.insert_spec hinsert
      refine ⟨t, rfl, fun j => ?_, fun j => ?_⟩
      · by_cases hj : j = k
        · subst hj
          simp [SlotLedger.enter, hk]
        · simp [SlotLedger.enter, hj, hothers j hj, h.stored]
      · rw [Slab.slots_insert hinsert, SlotLedger.enter, Finset.mem_insert, h.handed]
  | remove k =>
    have hcall : s.raw.call (.remove k) = ((s.remove k).1, (s.remove k).2.raw) := s.raw_remove k
    rw [hcall]
    refine ⟨(s.remove k).2, rfl, fun j => ?_, fun j => ?_⟩
    · rw [Slab.get_remove]
      by_cases hj : k = j
      · subst hj
        simp [SlotLedger.enter]
      · simp [SlotLedger.enter, hj, Ne.symm hj, h.stored]
    · rw [Slab.length_remove]
      exact h.handed j
  | getMut k f =>
    refine ⟨s.modify k f, rfl, fun j => ?_, fun j => ?_⟩
    · rw [Slab.get_modify]
      by_cases hj : k = j
      · subst hj
        simp [SlotLedger.enter, h.stored]
      · simp [SlotLedger.enter, hj, Ne.symm hj, h.stored]
    · rw [Slab.length_modify]
      exact h.handed j

theorem agrees_after (calls : List (SlabCall α)) {s : Slab α} {l : SlotLedger α} (h : Agrees s l) :
    ∃ t : Slab α, (after calls (s.raw, l)).1 = t.raw ∧ Agrees t (after calls (s.raw, l)).2 := by
  induction calls generalizing s l with
  | nil => exact ⟨s, rfl, h⟩
  | cons c rest ih =>
    obtain ⟨t, ht, hagrees⟩ := agrees_call h c
    have hnext : after (c :: rest) (s.raw, l) = after rest (t.raw, l.enter c (s.raw.call c).1) := by
      rw [← ht]
      rfl
    rw [hnext]
    exact ih hagrees

/-- What a slab keeps to, as its caller's ledger has it. -/
structure Keeps (s : Slots α) (l : SlotLedger α) : Prop where
  vacant : ∀ k, k ∈ s.free ↔ s.slots[k]? = some none
  once : s.free.Nodup
  created : s.slots.length = l.handed.card
  get : ∀ k, s.get k = l.stored k
  len : s.len = l.live.card
  refused : ∀ value cap, (s.insert value cap).1 = none ↔
    (∀ k ∈ l.handed, (l.stored k).isSome) ∧ (cap ≤ l.handed.card ∨ 2^32 - 1 ≤ l.handed.card)
  inserted : ∀ value cap k, (s.insert value cap).1 = some k → l.stored k = none ∧
    (s.insert value cap).2.get k = some value ∧ ∀ j, j ≠ k → (s.insert value cap).2.get j = s.get j

theorem Agrees.handed_eq {s : Slab α} {l : SlotLedger α} (h : Agrees s l) :
    l.handed = Finset.range s.slots.length := by
  ext k
  rw [Finset.mem_range, h.handed]

theorem Agrees.keeps {s : Slab α} {l : SlotLedger α} (h : Agrees s l) : Keeps s.raw l where
  vacant := s.vacant
  once := s.nodup
  created := by
    rw [h.handed_eq, Finset.card_range]
    rfl
  get := h.stored
  len := by
    rw [Slab.raw_len, s.len_eq, SlotLedger.live, h.handed_eq]
    simp only [h.stored]
  refused value cap := by
    have hfull : s.free = [] ↔ ∀ k ∈ l.handed, (l.stored k).isSome := by
      rw [List.eq_nil_iff_forall_not_mem]
      refine forall_congr' fun k => ?_
      rw [s.vacant, ← h.handed, ← h.stored, Slab.get]
      rcases hs : s.slots[k]? with _ | _ | value
      · simpa using List.getElem?_eq_none_iff.mp hs
      · simpa using (List.getElem?_eq_some_iff.mp hs).1
      · simp
    have hnone : s.insert value cap = none ↔ _ := Slab.insert_none_iff
    rw [← hfull, h.handed_eq, Finset.card_range, ← hnone]
    rcases hinsert : s.insert value cap with _ | ⟨k, t⟩
    · simp [Slab.raw_insert_none hinsert]
    · simp [Slab.raw_insert_some hinsert]
  inserted value cap k hk := by
    rcases hinsert : s.insert value cap with _ | ⟨j, t⟩
    · rw [Slab.raw_insert_none hinsert] at hk
      cases hk
    · rw [Slab.raw_insert_some hinsert] at hk ⊢
      obtain rfl : j = k := Option.some.inj hk
      obtain ⟨hfresh, hstored, hothers⟩ := Slab.insert_spec hinsert
      exact ⟨(h.stored j).symm.trans hfresh, hstored, hothers⟩

/-- After any calls on a new slab: the free list is exactly the vacant indices,
each once; an insertion is refused only when every slot is in use and there are
as many as there may be, and is never given a key in use; what is under a key is
what was last stored there. -/
theorem slab_keeps (calls : List (SlabCall α)) :
    Keeps (after calls (.new, .blank)).1 (after calls (.new, .blank)).2 := by
  obtain ⟨t, ht, hagrees⟩ := agrees_after calls agrees_new
  rw [Slab.raw_new] at ht hagrees
  rw [ht]
  exact hagrees.keeps

end Slots
end Wasmux
