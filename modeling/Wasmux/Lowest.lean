import Mathlib.Order.Bounds.Basic
import Wasmux.Descriptors

/-!
# The lowest free descriptor

A table grows while it is searched. What comes of the search is told by which
numbers are taken: the least free one gets the entry, if there is one, and is
answered as the 32-bit number that it is.
-/

set_option autoImplicit false

namespace Wasmux

namespace FdTable

/-- What is at a number, which need not have been reached by the table yet. -/
def slot (t : FdTable) (n : ℕ) : Option Fd := (t.slots[n]?).join

/-- The numbers that are free from `min` on, below `max`. -/
def vacant (t : FdTable) (min max : ℕ) : Set ℕ := {n | min ≤ n ∧ n < max ∧ t.slot n = none}

end FdTable

/-- The calls that change a descriptor table, or copy it. -/
inductive FdCall where
  | alloc (entry : Fd) (min max : ℕ)
  | replace (fd : ℤ) (entry : Fd) (max : ℕ)
  | take (fd : ℤ)
  | setCloexec (fd : ℤ) (on : Bool)
  | drainCloexec
  | drainAll
  | duplicate

def FdCall.limit : FdCall → Option ℕ
  | .alloc _ _ max | .replace _ _ max => some max
  | _ => none

namespace FdTable

/-- The table that a call leaves, and that the next call is made on. -/
def call (t : FdTable) : FdCall → FdTable
  | .alloc entry min max => ((t.alloc entry min max).map Prod.snd).toOption.getD t
  | .replace fd entry max => ((t.replace fd entry max).map Prod.snd).toOption.getD t
  | .take fd => ((t.take fd).map Prod.snd).toOption.getD t
  | .setCloexec fd on => (t.setCloexec fd on).toOption.getD t
  | .drainCloexec => t.drainCloexec.2
  | .drainAll => t.drainAll.2
  | .duplicate => t

def after (t : FdTable) : List FdCall → FdTable
  | [] => t
  | c :: rest => (t.call c).after rest

/-- An allocation as it is meant: the least free number of the range gets the
entry and is answered, every other is left alone, and if there is none there is
no answer but `EMFILE`. -/
structure AllocatesLowest (t : FdTable) (entry : Fd) (min max : ℕ) : Prop where
  lowest : ∀ n, IsLeast (t.vacant min max) n → ∃ u, t.alloc entry min max = .ok ((n : ℤ), u) ∧
    u.slot n = some entry ∧ ∀ j, j ≠ n → u.slot j = t.slot j
  full : t.alloc entry min max = .error .mfile ↔ t.vacant min max = ∅
  refused : ∀ e, t.alloc entry min max = .error e → e = .mfile

/-- A call with a limit leaves what is at it or above it alone, and one without
occupies no slot that is free. -/
structure Bounded (t : FdTable) (c : FdCall) : Prop where
  above : ∀ max, c.limit = some max → ∀ j, max ≤ j → (t.call c).slot j = t.slot j
  occupied : c.limit = none → ∀ j, t.slot j = none → (t.call c).slot j = none

theorem slot_resize (t : FdTable) (n j : ℕ) : (t.resize n).slot j = t.slot j := by
  unfold slot resize
  by_cases hj : j < t.slots.length
  · rw [List.getElem?_append_left hj]
  · rw [List.getElem?_append_right (by omega), List.getElem?_replicate,
      List.getElem?_eq_none (by omega : t.slots.length ≤ j)]
    split <;> rfl

theorem resize_slots (t : FdTable) (n : ℕ) : (t.resize (n + 1)).slots[n]? = some (t.slot n) := by
  have hlength : n < (t.resize (n + 1)).slots.length := by
    simp only [resize, List.length_append, List.length_replicate]
    omega
  rw [← slot_resize t (n + 1) n, slot, List.getElem?_eq_getElem hlength]
  rfl

theorem slot_set (t : FdTable) {n : ℕ} (h : n < t.slots.length) (o : Option Fd) (j : ℕ) :
    (FdTable.mk (t.slots.set n o)).slot j = if j = n then o else t.slot j := by
  unfold slot
  by_cases hj : j = n
  · subst hj
    rw [if_pos rfl, List.getElem?_set_self h]
    rfl
  · rw [if_neg hj, List.getElem?_set_ne (Ne.symm hj)]

theorem slot_put (t : FdTable) (n : ℕ) (o : Option Fd) (j : ℕ) :
    (FdTable.mk ((t.resize (n + 1)).slots.set n o)).slot j = if j = n then o else t.slot j := by
  have hlength : n < (t.resize (n + 1)).slots.length := (List.getElem?_eq_some_iff.mp (t.resize_slots n)).1
  rw [slot_set _ hlength, slot_resize]

def put (t : FdTable) (n : ℕ) (entry : Fd) : FdTable := ⟨(t.resize (n + 1)).slots.set n (some entry)⟩

theorem vacant_step {t : FdTable} {i max : ℕ} {entry : Fd} (h : t.slot i = some entry) :
    t.vacant i max = t.vacant (i + 1) max := by
  ext n
  simp only [vacant, Set.mem_ofPred_eq]
  constructor
  · rintro ⟨hmin, hmax, hfree⟩
    refine ⟨?_, hmax, hfree⟩
    have hne : n ≠ i := by
      rintro rfl
      cases h.symm.trans hfree
    omega
  · rintro ⟨hmin, hmax, hfree⟩
    exact ⟨by omega, hmax, hfree⟩

/-- The search from `i` on, with a turn for each slot there is from there and one more. -/
theorem allocFrom_cases {t : FdTable} {entry : Fd} {max : ℕ} (turns i : ℕ) (h : t.slots.length < i + turns)
    (hturns : 0 < turns) :
    (∃ n, IsLeast (t.vacant i max) n ∧ t.allocFrom entry max turns i = .ok (asI32 n, t.put n entry)) ∨
    (t.vacant i max = ∅ ∧ t.allocFrom entry max turns i = .error .mfile) := by
  induction turns generalizing i with
  | zero => omega
  | succ turns ih =>
    rw [allocFrom]
    by_cases hmax : max ≤ i
    · rw [if_pos hmax]
      refine .inr ⟨?_, rfl⟩
      ext n
      simp only [vacant, Set.mem_ofPred_eq, Set.mem_empty_iff_false, iff_false]
      omega
    · rw [if_neg hmax, resize_slots]
      cases hslot : t.slot i with
      | none =>
        refine .inl ⟨i, ⟨⟨le_refl i, by omega, hslot⟩, fun n hn => hn.1⟩, rfl⟩
      | some found =>
        have hlength : i < t.slots.length := by
          by_contra hge
          rw [slot, List.getElem?_eq_none (by omega : t.slots.length ≤ i)] at hslot
          cases hslot
        rw [vacant_step hslot]
        exact ih (i + 1) (by omega) (by omega)

theorem alloc_cases (t : FdTable) (entry : Fd) (min max : ℕ) :
    (∃ n, IsLeast (t.vacant min max) n ∧ t.alloc entry min max = .ok (asI32 n, t.put n entry)) ∨
    (t.vacant min max = ∅ ∧ t.alloc entry min max = .error .mfile) :=
  allocFrom_cases _ _ (by omega) (by omega)

theorem alloc_least {t : FdTable} {min max n : ℕ} (h : IsLeast (t.vacant min max) n) (entry : Fd) :
    t.alloc entry min max = .ok (asI32 n, t.put n entry) := by
  rcases t.alloc_cases entry min max with ⟨m, hm, hrun⟩ | ⟨hempty, -⟩
  · rw [h.unique hm]
    exact hrun
  · rw [hempty] at h
    exact absurd h.1 (Set.notMem_empty n)

theorem asI32_eq_iff (n : ℕ) : asI32 n = n ↔ n < 2^31 := by
  unfold asI32
  omega

/-- The least free number gets the entry in any case. It is the answer if and only if it is below `2^31`. -/
theorem allocatesLowest_iff (t : FdTable) (entry : Fd) (min max : ℕ) :
    t.AllocatesLowest entry min max ↔ ∀ n, IsLeast (t.vacant min max) n → n < 2^31 := by
  rcases t.alloc_cases entry min max with ⟨n, hleast, hrun⟩ | ⟨hempty, hrun⟩
  · constructor
    · intro h m hm
      obtain ⟨u, hu, -⟩ := h.lowest m hm
      obtain rfl : m = n := hm.unique hleast
      have hanswer := hrun.symm.trans hu
      rw [Except.ok.injEq, Prod.mk.injEq] at hanswer
      exact (asI32_eq_iff m).mp hanswer.1
    · intro h
      refine ⟨fun m hm => ?_, ?_, fun e he => ?_⟩
      · obtain rfl : m = n := hm.unique hleast
        rw [(asI32_eq_iff m).mpr (h m hm)] at hrun
        refine ⟨_, hrun, ?_, fun j hj => ?_⟩
        · rw [put, slot_put, if_pos rfl]
        · rw [put, slot_put, if_neg hj]
      · rw [hrun]
        constructor
        · exact nofun
        · intro hempty
          rw [hempty] at hleast
          exact absurd hleast.1 (Set.notMem_empty n)
      · cases hrun.symm.trans he
  · constructor
    · intro _ n hn
      rw [hempty] at hn
      exact absurd hn.1 (Set.notMem_empty n)
    · intro _
      refine ⟨fun n hn => ?_, ⟨fun _ => hempty, fun _ => hrun⟩, fun e he => ?_⟩
      · rw [hempty] at hn
        exact absurd hn.1 (Set.notMem_empty n)
      · exact (Except.error.inj (hrun.symm.trans he)).symm

theorem call_alloc (t : FdTable) (entry : Fd) (min max : ℕ) :
    (∃ n, n < max ∧ t.call (.alloc entry min max) = t.put n entry) ∨ t.call (.alloc entry min max) = t := by
  rcases t.alloc_cases entry min max with ⟨n, hleast, hrun⟩ | ⟨-, hrun⟩
  · exact .inl ⟨n, hleast.1.2.1, by rw [call, hrun]; rfl⟩
  · exact .inr (by rw [call, hrun]; rfl)

theorem call_replace (t : FdTable) (fd : ℤ) (entry : Fd) (max : ℕ) :
    (∃ n, n < max ∧ t.call (.replace fd entry max) = t.put n entry) ∨ t.call (.replace fd entry max) = t := by
  by_cases hfd : fd < 0 ∨ max ≤ fd.toNat
  · have hrun : t.replace fd entry max = .error .badf := by rw [replace, if_pos hfd]
    exact .inr (by rw [call, hrun]; rfl)
  · have hrun : t.replace fd entry max = .ok (t.slot fd.toNat, t.put fd.toNat entry) := by
      rw [replace, if_neg hfd, resize_slots]
      rfl
    exact .inl ⟨fd.toNat, by omega, by rw [call, hrun]; rfl⟩

theorem slot_take {t u : FdTable} {fd : ℤ} {entry : Fd} (h : t.take fd = .ok (entry, u)) {j : ℕ}
    (hj : t.slot j = none) :
    u.slot j = none := by
  unfold take at h
  split at h
  · cases h
  split at h
  · rename_i found hfound
    obtain ⟨-, rfl⟩ := by simpa using h
    rw [slot_set t (List.getElem?_eq_some_iff.mp hfound).1]
    split
    · rfl
    · exact hj
  · cases h

theorem slot_setCloexec {t u : FdTable} {fd : ℤ} {on : Bool} (h : t.setCloexec fd on = .ok u) {j : ℕ}
    (hj : t.slot j = none) : u.slot j = none := by
  unfold setCloexec at h
  split at h
  · cases h
  split at h
  · rename_i found hfound
    obtain rfl := by simpa using h
    rw [slot_set t (List.getElem?_eq_some_iff.mp hfound).1, if_neg]
    · exact hj
    · rintro rfl
      rw [slot, hfound] at hj
      cases hj
  · cases h

theorem slot_map (t : FdTable) (f : Option Fd → Option Fd) (hf : f none = none) (j : ℕ)
    (h : t.slot j = none) :
    (FdTable.mk (t.slots.map f)).slot j = none := by
  unfold slot at h ⊢
  rw [List.getElem?_map]
  rcases hslot : t.slots[j]? with _ | _ | entry
  · rfl
  · exact hf
  · rw [hslot] at h
    cases h

theorem bounded (t : FdTable) (c : FdCall) : t.Bounded c := by
  have hput : ∀ n max entry, n < max → ∀ j, max ≤ j → (t.put n entry).slot j = t.slot j := by
    intro n max entry hn j hj
    rw [put, slot_put, if_neg (by omega)]
  constructor
  · intro max hlimit j hj
    cases c with
    | alloc entry min limit =>
      obtain rfl := Option.some.inj hlimit
      rcases t.call_alloc entry min limit with ⟨n, hn, hcall⟩ | hcall
      · rw [hcall, hput n limit entry hn j hj]
      · rw [hcall]
    | replace fd entry limit =>
      obtain rfl := Option.some.inj hlimit
      rcases t.call_replace fd entry limit with ⟨n, hn, hcall⟩ | hcall
      · rw [hcall, hput n limit entry hn j hj]
      · rw [hcall]
    | _ => cases hlimit
  · intro hlimit j h
    cases c with
    | alloc | replace => cases hlimit
    | take fd =>
      rw [call]
      cases hrun : t.take fd with
      | error e => exact h
      | ok r => exact slot_take hrun h
    | setCloexec fd on =>
      rw [call]
      cases hrun : t.setCloexec fd on with
      | error e => exact h
      | ok u => exact slot_setCloexec hrun h
    | drainCloexec => exact t.slot_map _ rfl j h
    | drainAll => exact t.slot_map _ rfl j h
    | duplicate => exact h

theorem slot_after {limit : ℕ} (calls : List FdCall)
    (hcalls : ∀ c ∈ calls, ∀ max, c.limit = some max → max ≤ limit) {t : FdTable}
    (ht : ∀ j, limit ≤ j → t.slot j = none) (j : ℕ) (hj : limit ≤ j) : (t.after calls).slot j = none := by
  induction calls generalizing t with
  | nil => exact ht j hj
  | cons c rest ih =>
    apply ih (fun d hd => hcalls d (List.mem_cons_of_mem c hd))
    intro i hi
    cases hlimit : c.limit with
    | none => exact (t.bounded c).occupied hlimit i (ht i hi)
    | some max =>
      have hmax : max ≤ limit := hcalls c List.mem_cons_self max hlimit
      rw [(t.bounded c).above max hlimit i (by omega)]
      exact ht i hi

/-- Whatever was done with a table before: allocating is as it is meant for a
range if and only if the least free number of the range, if any, fits an `i32`.
No call occupies a slot at its limit or above it, ever. -/
theorem lowest_free_iff (calls : List FdCall) (entry : Fd) (min max : ℕ) :
    ((FdTable.new.after calls).AllocatesLowest entry min max ∧
      (∀ c, (FdTable.new.after calls).Bounded c) ∧
      ∀ limit, (∀ c ∈ calls, ∀ max, c.limit = some max → max ≤ limit) →
        ∀ j, limit ≤ j → (FdTable.new.after calls).slot j = none) ↔
    ∀ n, IsLeast ((FdTable.new.after calls).vacant min max) n → n < 2^31 := by
  rw [allocatesLowest_iff]
  constructor
  · exact fun h => h.1
  · intro h
    refine ⟨h, fun c => bounded _ c, fun limit hcalls j hj => slot_after calls hcalls (fun i _ => ?_) j hj⟩
    rfl

/-- After an allocation from `n` on, in a table with nothing there, the next number is the least free one. -/
theorem least_twice (entry : Fd) {n max : ℕ} (hmax : n + 2 = max) :
    IsLeast ((FdTable.new.after [.alloc entry n max]).vacant n max) (n + 1) := by
  have hslot : ∀ j, (new.put n entry).slot j = if j = n then some entry else none := fun j =>
    slot_put new n (some entry) j
  have hfirst : IsLeast (new.vacant n max) n := ⟨⟨le_refl n, by omega, rfl⟩, fun j hj => hj.1⟩
  have hafter : FdTable.new.after [.alloc entry n max] = new.put n entry := by
    rw [after, after, call, alloc_least hfirst entry]
    rfl
  rw [hafter]
  constructor
  · refine ⟨by omega, by omega, ?_⟩
    rw [hslot, if_neg (by omega)]
  · rintro j ⟨hmin, -, hfree⟩
    rw [hslot] at hfree
    split at hfree
    · cases hfree
    · omega

/-- The second descriptor from `2^31 - 1` on is answered as a negative number. -/
theorem lowest_free_wraps :
    (∃ u, (FdTable.new.after [.alloc ⟨0, false⟩ (2^31 - 1) (2^31 + 1)]).alloc ⟨0, false⟩ (2^31 - 1)
      (2^31 + 1) =
      .ok (-2^31, u) ∧ u.slot (2^31) = some ⟨0, false⟩) ∧
    IsLeast ((FdTable.new.after [.alloc ⟨0, false⟩ (2^31 - 1) (2^31 + 1)]).vacant (2^31 - 1)
      (2^31 + 1)) (2^31) ∧
    ¬ (FdTable.new.after [.alloc ⟨0, false⟩ (2^31 - 1) (2^31 + 1)]).AllocatesLowest ⟨0, false⟩ (2^31 - 1)
      (2^31 + 1) := by
  have hleast := least_twice ⟨0, false⟩ (show (2^31 - 1) + 2 = 2^31 + 1 by omega)
  have hnext : (2^31 - 1) + 1 = 2^31 := by omega
  rw [hnext] at hleast
  have hwraps : asI32 ((2^31 : ℕ) : ℤ) = -2^31 := by decide
  have hrun := alloc_least hleast ⟨0, false⟩
  rw [hwraps] at hrun
  refine ⟨⟨_, hrun, ?_⟩, hleast, fun h => ?_⟩
  · rw [put, slot_put, if_pos rfl]
  · have hfits := (allocatesLowest_iff _ _ _ _).mp h _ hleast
    omega

end FdTable
end Wasmux
