import Mathlib.Order.CompletePartialOrder
import Mathlib.Order.Interval.Set.Disjoint
import Wasmux.Charges
import Wasmux.Interrupts

/-!
# Where the heap and the mappings lie

`brk` and `mmap` both extend the one end of an instance's memory, and the break
is wherever that end is. `Lived` follows an instance from its reservation
through calls of either kind and whatever else leaves it at least as large.
-/

set_option autoImplicit false

namespace Wasmux
open Effects Abi

/-- Some addresses of a guest, from `start` up to `stop`. -/
structure Range where
  start : ℕ
  stop : ℕ
  deriving DecidableEq

def Range.set (r : Range) : Set ℕ := Set.Ico r.start r.stop

theorem Range.disjoint_of_le {r s : Range} (h : r.stop ≤ s.start) : Disjoint r.set s.set := by
  unfold Range.set
  rw [Set.Ico_disjoint_Ico]
  exact le_trans (min_le_left _ _) (le_trans h (le_max_right _ _))

theorem Range.disjoint_of_empty {r : Range} (h : r.stop ≤ r.start) (s : Range) : Disjoint r.set s.set := by
  unfold Range.set
  rw [Set.Ico_eq_empty (Nat.not_lt.mpr h)]
  exact Set.empty_disjoint _

theorem Range.not_disjoint {r s : Range} {a : ℕ} (hr : a ∈ r.set) (hs : a ∈ s.set) : ¬ Disjoint r.set s.set :=
  fun h => Set.disjoint_left.mp h hr hs

/-- What an instance has been given of its memory: the end of the memory it
started with, the scratch area, the first answer to `brk(0)`, the largest
request `brk` answered with itself, and the mappings, latest first. -/
structure Layout where
  initial : ℕ
  scratch : ℕ
  base : Option ℕ
  top : ℕ
  maps : List Range
  /-- Whether a call has met `Crosses`. -/
  crossed : Bool

namespace Layout

def heap (l : Layout) : Range := match l.base with
  | none => ⟨0, 0⟩
  | some base => ⟨base, l.top⟩

def ranges (l : Layout) : List Range :=
  l.heap :: ⟨0, l.initial⟩ :: ⟨l.scratch, l.scratch + asyncifyPages * page⟩ :: l.maps

/-- No two of the ranges meet, and all lie in a memory of this size. -/
structure Separate (l : Layout) (size : ℕ) : Prop where
  apart : l.ranges.Pairwise fun r s => Disjoint r.set s.set
  inside : ∀ r ∈ l.ranges, r.set ⊆ Set.Iio size

def broken (l : Layout) (request : ℕ) (v : ℤ) : Layout :=
  { l with
    base := if request = 0 then l.base.or (some (asU32 v)) else l.base
    top := if asU32 v = request then max l.top request else l.top }

/-- After an `mmap` of `length` bytes that was answered `v`. -/
def mapped (l : Layout) (length : ℕ) (v : ℤ) : Layout :=
  { l with maps := ⟨asU32 v, asU32 v + length⟩ :: l.maps }

end Layout

section
variable {W : Type} (x : Env W)

/-- What is known of the engine's memories: whole pages, and no more of them
than a 32-bit address reaches. -/
structure Mem.Paged (m : Mem) : Prop where
  whole : page ∣ m.size
  addressed : m.size ≤ 2^32

namespace Mem.Paged
variable {m m' : Mem}

theorem of_size (h : m.Paged) (hsize : m'.size = m.size) : m'.Paged := by
  constructor
  · rw [hsize]
    exact h.whole
  · rw [hsize]
    exact h.addressed

theorem grow (h : m.Paged) {pages : ℕ} (hsize : m'.size = m.size + pages * page)
    (hroom : m.size + pages * page ≤ 2^32) : m'.Paged := by
  constructor
  · rw [hsize]
    exact Nat.dvd_add h.whole (Nat.dvd_mul_left _ _)
  · rwa [hsize]

end Mem.Paged

structure Env.Paged : Prop where
  instantiate : ∀ image w inst, (x.instantiate image w).1 = some inst → inst.mem.Paged
  grant : ∀ size pages w, (x.grant size pages w).1 = true → size + pages * page ≤ 2^32

/-- The session and the engine both allow so many more pages. -/
def Machine.Affords (m : Machine) (w : W) (pages : ℕ) : Prop :=
  (m.shared.chargeMemory (satMulU64 pages page)).1 = true ∧ (x.grant m.inst.mem.size pages w).1 = true

/-- A `brk` that moves the break to `request`, or finds it there. -/
def Machine.Grants (m : Machine) (w : W) (request : ℕ) : Prop :=
  request ≠ 0 ∧ (request = m.inst.mem.size ∨ m.inst.mem.size < request ∧
    request ≤ m.shared.limits.memoryPerProcess ∧ m.Affords x w (divCeil (request - m.inst.mem.size) page))

instance (m : Machine) (w : W) (pages : ℕ) : Decidable (m.Affords x w pages) :=
  inferInstanceAs (Decidable (_ ∧ _))

instance (m : Machine) (w : W) (request : ℕ) : Decidable (m.Grants x w request) :=
  inferInstanceAs (Decidable (_ ∧ _))

/-- A `brk` that takes the heap over a mapping made since the first `brk(0)`, or a
first `brk(0)` whose answer is cut off because the memory is full. -/
def Machine.Crosses (m : Machine) (w : W) (l : Layout) (request : ℕ) : Prop :=
  (m.Grants x w request ∧ ∃ r ∈ l.maps, l.base.any (· ≤ r.start) = true) ∨
  (request = 0 ∧ l.base = none ∧ m.inst.mem.size = 2^32 ∧ l.top ≠ 0)

instance (m : Machine) (w : W) (l : Layout) (request : ℕ) : Decidable (m.Crosses x w l request) :=
  inferInstanceAs (Decidable (_ ∨ _))

/-- The life of one instance, with what it was given. -/
inductive Lived : Machine → W → Layout → Prop
  | start (image : ℕ) (w₀ : W) (inst inst' : Instance) (charged data : ℕ) (s s' : Kernel × W)
      (m : Machine) (w : W) :
      (x.instantiate image w₀).1 = some inst →
      (Scheduler.reserve inst).run (kexec x) s = (.ok (some (.guest inst' charged data)), s') →
      m.inst = inst' → Lived m w ⟨inst.mem.size, data, none, 0, [], false⟩
  | brk (number : ℤ) (a : Args) (m m' : Machine) (w w' : W) (l : Layout) (v : ℤ) : Lived m w l →
      Nr.ofInt number = .brk → (handle number a).run (exec x) (m, w) = (.ok v, (m', w')) →
      Lived m' w' { l.broken (asU32 a.a0) v with
        crossed := l.crossed || decide (m.Crosses x w l (asU32 a.a0)) }
  | mmap (number : ℤ) (a : Args) (m m' : Machine) (w w' : W) (l : Layout) (v : ℤ) : Lived m w l →
      Nr.ofInt number = .mmap → (handle number a).run (exec x) (m, w) = (.ok v, (m', w')) →
      Lived m' w' (l.mapped (asU32 a.a1) v)
  | other (m m' : Machine) (w w' : W) (l : Layout) : Lived m w l →
      m.inst.mem.size ≤ m'.inst.mem.size → m'.inst.mem.Paged → Lived m' w' l

theorem size_le_exec (o : Op) (s : Machine × W) : s.1.inst.mem.size ≤ (exec x o s).2.1.inst.mem.size := by
  cases o with
  | env c => exact le_rfl
  | act a =>
    cases hweighs : a.weighs with
    | false => exact le_of_eq (congrArg Prod.snd (a.weight_exec s.1 hweighs)).symm
    | true =>
      cases a with
      | growMem pages => exact Mem.size_le_grow s.1.inst.mem pages
      | compute mem sp => exact le_max_left _ _
      | grew bytes => exact le_rfl
      | _ => cases hweighs

theorem size_le_run {ε α : Type} (p : Program sig ε α) (s : Machine × W) :
    s.1.inst.mem.size ≤ (p.run (exec x) s).2.1.inst.mem.size := by
  induction p generalizing s with
  | ret a => exact le_rfl
  | fail e => exact le_rfl
  | call o f ih => exact (size_le_exec x o s).trans (ih _ _)

variable {x} {m : Machine} {w : W} {pages : ℕ}

theorem run_memGrow (pages : ℕ) (m : Machine) (w : W) : (memGrow pages).run (exec x) (m, w) =
    if (x.grant m.inst.mem.size pages w).1 = true
    then (.ok (some (m.inst.mem.size / page)),
      (m.setMem (m.inst.mem.grow pages), (x.grant m.inst.mem.size pages w).2))
    else (.ok none, (m, (x.grant m.inst.mem.size pages w).2)) :=
  Program.run_ite (exec x) _ _ _ _

theorem run_charged (h : (m.shared.chargeMemory (satMulU64 pages page)).1 = true) : ∃ m₁, m₁.inst = m.inst ∧
    (chargeAndGrow pages).run (exec x) (m, w) =
      ((memGrow pages >>= fun r => match r with
        | some previous => do
          act (.grew (satMulU64 pages page))
          return some previous
        | none => do
          act (.release (satMulU64 pages page))
          return none : Handler (Option ℕ))).run (exec x) (m₁, w) :=
  ⟨m.setShared (m.shared.chargeMemory (satMulU64 pages page)).2, rfl,
    (Program.run_ite (exec x) _ _ _ _).trans (if_pos h)⟩

theorem run_chargeAndGrow (h : m.Affords x w pages) : ∃ m' w',
    (chargeAndGrow pages).run (exec x) (m, w) = (.ok (some (m.inst.mem.size / page)), (m', w')) ∧
    m'.inst.mem.size = m.inst.mem.size + pages * page := by
  obtain ⟨hcharge, hgrant⟩ := h
  obtain ⟨m₁, hinst, hrun⟩ := run_charged (x := x) (w := w) hcharge
  rw [hrun, Program.run_bind, run_memGrow, hinst, if_pos hgrant]
  exact ⟨_, _, rfl, (Mem.size_grow m.inst.mem pages)⟩

theorem run_chargeAndGrow_refused (h : ¬ m.Affords x w pages) : ∃ m' w',
    (chargeAndGrow pages).run (exec x) (m, w) = (.ok none, (m', w')) ∧
    m'.inst.mem.size = m.inst.mem.size := by
  by_cases hcharge : (m.shared.chargeMemory (satMulU64 pages page)).1 = true
  · have hgrant : ¬ (x.grant m.inst.mem.size pages w).1 = true := fun hgrant => h ⟨hcharge, hgrant⟩
    obtain ⟨m₁, hinst, hrun⟩ := run_charged (x := x) (w := w) hcharge
    rw [hrun, Program.run_bind, run_memGrow, hinst, if_neg hgrant]
    exact ⟨_, _, rfl, congrArg (fun i : Instance => i.mem.size) hinst⟩
  · have hrun : (chargeAndGrow pages).run (exec x) (m, w) =
        (.ok none, (m.setShared (m.shared.chargeMemory (satMulU64 pages page)).2, w)) :=
      (Program.run_ite (exec x) _ _ _ _).trans (if_neg hcharge)
    exact ⟨_, _, hrun, rfl⟩

theorem handle_brk {number : ℤ} (h : Nr.ofInt number = .brk) (a : Args) : handle number a = Sys.brk a := by
  unfold handle
  rw [h]

theorem run_brk (a : Args) : (Sys.brk a).run (exec x) (m, w) =
    if asU32 a.a0 = 0 ∨ asU32 a.a0 ≤ m.inst.mem.size ∨ m.shared.limits.memoryPerProcess < asU32 a.a0
    then (.ok (asI32 m.inst.mem.size), (m, w))
    else (chargeAndGrow (divCeil (asU32 a.a0 - m.inst.mem.size) page) >>= fun r => match r with
      | some _ => return asI32 (asU32 a.a0)
      | none => return asI32 m.inst.mem.size : Handler ℤ).run (exec x) (m, w) :=
  Program.run_ite (exec x) _ _ _ _

theorem le_pages (n : ℕ) : n ≤ divCeil n page * page := by
  unfold divCeil page
  omega

/-- A `brk` that is granted moves the break. -/
theorem brk_granted (hpaged : m.inst.mem.Paged) (hx : x.Paged) {a : Args} (h : m.Grants x w (asU32 a.a0)) :
    ∃ v m' w', (Sys.brk a).run (exec x) (m, w) = (.ok v, (m', w')) ∧ asU32 v = asU32 a.a0 ∧
      asU32 a.a0 ≤ m'.inst.mem.size ∧ m'.inst.mem.Paged := by
  have hsmall : asU32 a.a0 < 2^32 := asU32_lt a.a0
  obtain ⟨hnone, hat | ⟨habove, hlimit, hafford⟩⟩ := h
  · refine ⟨asI32 m.inst.mem.size, m, w, ?_, ?_, hat.le, hpaged⟩
    · rw [run_brk, if_pos (.inr (.inl hat.le))]
    · rw [asU32_asI32, ← hat]
      exact Nat.mod_eq_of_lt hsmall
  · obtain ⟨m', w', hrun, hsize⟩ := run_chargeAndGrow hafford
    refine ⟨asI32 (asU32 a.a0), m', w', ?_, ?_, ?_, hpaged.grow hsize (hx.grant _ _ _ hafford.2)⟩
    · rw [run_brk, if_neg (by omega)]
      exact Program.run_bind_ok (exec x) hrun
    · rw [asU32_asI32]
      exact Nat.mod_eq_of_lt hsmall
    · have := le_pages (asU32 a.a0 - m.inst.mem.size)
      omega

theorem brk_refused {a : Args} (h : ¬ m.Grants x w (asU32 a.a0)) : ∃ m' w',
    (Sys.brk a).run (exec x) (m, w) = (.ok (asI32 m.inst.mem.size), (m', w')) ∧
    m'.inst.mem.size = m.inst.mem.size := by
  rw [run_brk]
  split
  · exact ⟨m, w, rfl, rfl⟩
  · rename_i hasks
    have hafford : ¬ m.Affords x w (divCeil (asU32 a.a0 - m.inst.mem.size) page) := by
      intro hafford
      exact h ⟨by omega, .inr ⟨by omega, by omega, hafford⟩⟩
    obtain ⟨m', w', hrun, hsize⟩ := run_chargeAndGrow_refused hafford
    exact ⟨m', w', Program.run_bind_ok (exec x) hrun, hsize⟩

/-- What is left to do once a mapping has its pages. -/
theorem mmap_tail {a : Args} {start : ℕ} {view' : View} {v : ℤ} {s t : Machine × W}
    (h : (if asU32 a.a3 &&& mapAnonymous ≠ 0 then (.ret (asI32 start) : Handler ℤ)
      else do
        let (_, desc) ← lift (openFd view' a.a4)
        match desc.kind with
        | .file file _ _ =>
          let buffer ← orVfsFault (← (Sys.readMapping file (asU64 a.a5) (asU32 a.a1)).catching)
          put start buffer
          return asI32 start
        | _ => fail .nodev).run (exec x) s = (.ok v, t)) :
    v = asI32 start ∧ t.1.inst.mem.size = s.1.inst.mem.size := by
  split at h
  · simp only [Program.run_ret, Prod.mk.injEq, Except.ok.injEq] at h
    exact ⟨h.1.symm, h.2 ▸ rfl⟩
  obtain ⟨⟨e, desc⟩, s₁, hopen, hrest⟩ := Program.run_bind_eq_ok (exec x) h
  obtain ⟨-, rfl⟩ := lift_run_ok x hopen
  dsimp only at hrest
  split at hrest
  · refine ⟨?_, size_of_only x (only_mapping _ _ _ _) hrest⟩
    obtain ⟨r, s₂, -, hrest⟩ := Program.run_bind_eq_ok (exec x) hrest
    obtain ⟨buffer, s₃, -, hrest⟩ := Program.run_bind_eq_ok (exec x) hrest
    obtain ⟨_, s₄, -, hrest⟩ := Program.run_bind_eq_ok (exec x) hrest
    simp only [Program.pure_eq, Program.run_ret, Prod.mk.injEq, Except.ok.injEq] at hrest
    exact hrest.1.symm
  · cases hrest

/-- A mapping lies where the memory ended. -/
theorem mmap_spec (hpaged : m.inst.mem.Paged) (hx : x.Paged) {a : Args} {v : ℤ} {t : Machine × W}
    (h : (Sys.mmap a).run (exec x) (m, w) = (.ok v, t)) :
    0 < asU32 a.a1 ∧ asU32 v = m.inst.mem.size ∧ m.inst.mem.size + asU32 a.a1 ≤ t.1.inst.mem.size ∧
      t.1.inst.mem.Paged := by
  unfold Sys.mmap at h
  dsimp only at h
  split at h
  · cases h
  rename_i hlen
  split at h
  · cases h
  obtain ⟨v₀, s₁, hv, h⟩ := Program.run_bind_eq_ok (exec x) h
  cases hv
  split at h
  · cases h
  obtain ⟨grown, s₂, hgrow, h⟩ := Program.run_bind_eq_ok (exec x) h
  by_cases hafford : m.Affords x w (divCeil (asU32 a.a1) page)
  · obtain ⟨m', w', hrun, hsize⟩ := run_chargeAndGrow hafford
    obtain ⟨rfl, rfl⟩ := by simpa using hgrow.symm.trans hrun
    dsimp only at h
    obtain ⟨hv, htail⟩ := mmap_tail h
    have hroom := hx.grant _ _ _ hafford.2
    have hpages := le_pages (asU32 a.a1)
    have hwhole : m.inst.mem.size / page * page = m.inst.mem.size := Nat.div_mul_cancel hpaged.whole
    have hsmall : m.inst.mem.size < 2^32 := by omega
    have hstart : asU32 ((satMulU64 (m.inst.mem.size / page) page : ℕ) : ℤ) = m.inst.mem.size := by
      rw [satMulU64, hwhole]
      unfold asU32 u64Max
      omega
    rw [hstart] at hv
    refine ⟨by omega, ?_, ?_, (hpaged.grow hsize hroom).of_size htail⟩
    · rw [hv, asU32_asI32]
      exact Nat.mod_eq_of_lt hsmall
    · rw [htail, hsize]
      omega
  · obtain ⟨m', w', hrun, -⟩ := run_chargeAndGrow_refused hafford
    obtain ⟨rfl, rfl⟩ := by simpa using hgrow.symm.trans hrun
    simp [fail] at h

end

/-- Where everything lies in a memory of this size. A mapping made since the
first `brk(0)` lies at or above its answer, and the others below. -/
structure Layout.Laid (l : Layout) (size : ℕ) : Prop where
  addressed : size ≤ 2^32
  scratch : l.scratch = l.initial
  reserved : l.initial + asyncifyPages * page ≤ size
  granted : l.top = 0 ∨ l.initial + asyncifyPages * page ≤ l.top
  top : l.top ≤ size
  maps : ∀ r ∈ l.maps, l.initial + asyncifyPages * page ≤ r.start ∧ r.start < r.stop ∧ r.stop ≤ size
  stacked : l.maps.Pairwise fun r s => s.stop ≤ r.start
  base : ∀ b, l.base = some b → l.initial + asyncifyPages * page ≤ b ∧ b ≤ size ∨ b = 0 ∧ size = 2^32
  sides : ∀ b, l.base = some b → ∀ r ∈ l.maps, r.stop ≤ b ∨ b ≤ r.start
  kept : l.crossed = false → ∀ b, l.base = some b → (∀ r ∈ l.maps, b ≤ r.start → l.top ≤ r.start) ∧
    (b = 0 → l.top = 0)
  met : l.crossed = true → ∃ b, l.base = some b ∧
    ((∃ r ∈ l.maps, b ≤ r.start ∧ r.stop ≤ l.top) ∨ b = 0 ∧ l.top ≠ 0)

namespace Layout.Laid
variable {l : Layout} {size size' : ℕ}

theorem reserved_pos : 0 < asyncifyPages * page := by decide

theorem separate (h : l.Laid size) (hkept : l.crossed = false) : l.Separate size := by
  have hpos := reserved_pos
  have hreserved := h.reserved
  have hheap : l.heap.stop ≤ l.heap.start ∨
      l.initial + asyncifyPages * page ≤ l.heap.start ∧ ∀ r ∈ l.maps, Disjoint l.heap.set r.set := by
    cases hbase : l.base with
    | none => exact .inl (by simp [heap, hbase])
    | some b =>
      obtain ⟨hlate, hwrapped⟩ := h.kept hkept b hbase
      have hrange : l.heap = ⟨b, l.top⟩ := by simp [heap, hbase]
      rw [hrange]
      rcases h.base b hbase with ⟨habove, -⟩ | ⟨rfl, -⟩
      · refine .inr ⟨habove, fun r hr => ?_⟩
        rcases h.sides b hbase r hr with hbelow | hafter
        · exact (Range.disjoint_of_le hbelow).symm
        · exact Range.disjoint_of_le (hlate r hr hafter)
      · exact .inl (hwrapped rfl).le
  constructor
  · simp only [ranges, List.pairwise_cons, List.mem_cons, forall_eq_or_imp]
    refine ⟨⟨?_, ?_, ?_⟩, ⟨?_, ?_⟩, ?_, ?_⟩
    · rcases hheap with hempty | ⟨habove, -⟩
      · exact Range.disjoint_of_empty hempty _
      · exact (Range.disjoint_of_le (by dsimp only; omega)).symm
    · rcases hheap with hempty | ⟨habove, -⟩
      · exact Range.disjoint_of_empty hempty _
      · exact (Range.disjoint_of_le (by rw [h.scratch]; exact habove)).symm
    · rcases hheap with hempty | ⟨-, hmaps⟩
      · exact fun r _ => Range.disjoint_of_empty hempty r
      · exact hmaps
    · exact Range.disjoint_of_le h.scratch.ge
    · exact fun r hr => Range.disjoint_of_le (le_trans (by dsimp only; omega) (h.maps r hr).1)
    · exact fun r hr => Range.disjoint_of_le (by rw [h.scratch]; exact (h.maps r hr).1)
    · exact h.stacked.imp fun hrs => (Range.disjoint_of_le hrs).symm
  · have hstop : ∀ r ∈ l.ranges, r.stop ≤ size := by
      simp only [ranges, List.mem_cons, forall_eq_or_imp]
      refine ⟨?_, by omega, by rw [h.scratch]; exact hreserved, fun r hr => (h.maps r hr).2.2⟩
      cases hbase : l.base with
      | none => simp [heap, hbase]
      | some b => simpa [heap, hbase] using h.top
    exact fun r hr a ha => lt_of_lt_of_le ha.2 (hstop r hr)

/-- A call that crosses takes the heap over what is not its own. -/
theorem not_separate (h : l.Laid size) (hmet : l.crossed = true) : ¬ l.Separate size := by
  intro hseparate
  have hpos := reserved_pos
  have hapart := hseparate.apart
  simp only [ranges, List.pairwise_cons, List.mem_cons, forall_eq_or_imp] at hapart
  obtain ⟨⟨-, hscratch, hmaps⟩, -⟩ := hapart
  obtain ⟨b, hbase, ⟨r, hr, hafter, hover⟩ | ⟨rfl, htop⟩⟩ := h.met hmet
  · have hrange : l.heap = ⟨b, l.top⟩ := by simp [heap, hbase]
    have hfull := (h.maps r hr).2.1
    refine Range.not_disjoint (a := r.start) ?_ ?_ (hmaps r hr)
    · rw [hrange]
      exact ⟨hafter, by dsimp only; omega⟩
    · exact ⟨le_rfl, hfull⟩
  · have hrange : l.heap = ⟨0, l.top⟩ := by simp [heap, hbase]
    refine Range.not_disjoint (a := l.initial) ?_ ?_ hscratch
    · rw [hrange]
      exact ⟨Nat.zero_le _, by have := h.granted; dsimp only; omega⟩
    · rw [h.scratch]
      exact ⟨le_rfl, by dsimp only; omega⟩

theorem separate_iff (h : l.Laid size) : l.Separate size ↔ l.crossed = false := by
  cases hcrossed : l.crossed with
  | true => simpa using h.not_separate hcrossed
  | false => simpa using h.separate hcrossed

theorem grow (h : l.Laid size) (hsize : size ≤ size') (haddressed : size' ≤ 2^32) : l.Laid size' where
  addressed := haddressed
  scratch := h.scratch
  reserved := h.reserved.trans hsize
  granted := h.granted
  top := h.top.trans hsize
  maps r hr := ⟨(h.maps r hr).1, (h.maps r hr).2.1, (h.maps r hr).2.2.trans hsize⟩
  stacked := h.stacked
  base b hb := by
    rcases h.base b hb with ⟨habove, hbelow⟩ | ⟨rfl, hfull⟩
    · exact .inl ⟨habove, hbelow.trans hsize⟩
    · exact .inr ⟨rfl, by omega⟩
  sides := h.sides
  kept := h.kept
  met := h.met

theorem mapped (h : l.Laid size) {length : ℕ} {v : ℤ} (hlength : 0 < length) (hv : asU32 v = size)
    (hsize : size + length ≤ size') (haddressed : size' ≤ 2^32) : (l.mapped length v).Laid size' := by
  have hgrown := h.grow (by omega) haddressed
  have hmem : ∀ r ∈ (l.mapped length v).maps, r = ⟨size, size + length⟩ ∨ r ∈ l.maps := by
    intro r hr
    rw [← hv]
    exact List.mem_cons.mp hr
  constructor
  · exact haddressed
  · exact h.scratch
  · exact hgrown.reserved
  · exact h.granted
  · exact hgrown.top
  · intro r hr
    rcases hmem r hr with rfl | hr
    · exact ⟨h.reserved, Nat.lt_add_of_pos_right hlength, hsize⟩
    · exact hgrown.maps r hr
  · refine List.pairwise_cons.mpr ⟨fun r hr => ?_, h.stacked⟩
    rw [hv]
    exact (h.maps r hr).2.2
  · exact hgrown.base
  · intro b hb r hr
    rcases hmem r hr with rfl | hr
    · rcases h.base b hb with ⟨-, hbelow⟩ | ⟨rfl, -⟩
      · exact .inr hbelow
      · exact .inr (Nat.zero_le _)
    · exact h.sides b hb r hr
  · intro hkept b hb
    refine ⟨fun r hr hafter => ?_, (h.kept hkept b hb).2⟩
    rcases hmem r hr with rfl | hr
    · exact h.top
    · exact (h.kept hkept b hb).1 r hr hafter
  · intro hmet
    obtain ⟨b, hb, ⟨r, hr, hover⟩ | hwrapped⟩ := h.met hmet
    · exact ⟨b, hb, .inl ⟨r, List.mem_cons_of_mem _ hr, hover⟩⟩
    · exact ⟨b, hb, .inr hwrapped⟩

/-- A `brk` that moves the break to `request`. -/
theorem moved (h : l.Laid size) {request : ℕ} {v : ℤ} {crossed : Bool} (hsome : request ≠ 0)
    (hv : asU32 v = request) (hat : size ≤ request) (hsize : request ≤ size') (haddressed : size' ≤ 2^32)
    (hcrossed : crossed = true ↔ l.crossed = true ∨ ∃ r ∈ l.maps, l.base.any (· ≤ r.start) = true) :
    ({ l.broken request v with crossed := crossed } : Layout).Laid size' := by
  have hgrown := h.grow (by omega) haddressed
  have htop : (l.broken request v).top = request := by
    have := h.top
    simp only [broken, hv, if_true]
    omega
  have hbase : (l.broken request v).base = l.base := by simp [broken, hsome]
  constructor
  · exact haddressed
  · exact h.scratch
  · exact hgrown.reserved
  · exact .inr (by rw [htop]; exact h.reserved.trans hat)
  · exact htop.trans_le hsize
  · exact hgrown.maps
  · exact h.stacked
  · rw [hbase]
    exact hgrown.base
  · rw [hbase]
    exact h.sides
  · rw [hbase, htop]
    intro hkept b hb
    have hno : ¬ ∃ r ∈ l.maps, l.base.any (· ≤ r.start) = true := fun hmap => by
      rw [hcrossed.mpr (.inr hmap)] at hkept
      cases hkept
    constructor
    · intro r hr hafter
      exact absurd ⟨r, hr, by simpa [hb] using hafter⟩ hno
    · rintro rfl
      have hbound := asU32_lt v
      have hpos := reserved_pos
      rcases h.base 0 hb with ⟨habove, -⟩ | ⟨-, hfull⟩ <;> omega
  · rw [hbase, htop]
    intro hmet
    rcases hcrossed.mp hmet with hbefore | ⟨r, hr, hafter⟩
    · obtain ⟨b, hb, ⟨r, hr, hafter, hover⟩ | ⟨rfl, -⟩⟩ := h.met hbefore
      · exact ⟨b, hb, .inl ⟨r, hr, hafter, hover.trans (h.top.trans hat)⟩⟩
      · exact ⟨0, hb, .inr ⟨rfl, hsome⟩⟩
    · obtain ⟨b, hb, hafter⟩ := (Option.any_eq_true _ _).mp hafter
      exact ⟨b, hb, .inl ⟨r, hr, by simpa using hafter, (h.maps r hr).2.2.trans hat⟩⟩

/-- A `brk(0)`. -/
theorem asked (h : l.Laid size) {v : ℤ} {crossed : Bool} (hv : asU32 v = size % 2^32)
    (hcrossed : crossed = true ↔ l.crossed = true ∨ l.base = none ∧ size = 2^32 ∧ l.top ≠ 0) :
    ({ l.broken 0 v with crossed := crossed } : Layout).Laid size := by
  have hpos := reserved_pos
  have haddressed := h.addressed
  have htop : (l.broken 0 v).top = l.top := by
    simp only [broken]
    split <;> simp
  cases hbase : l.base with
  | some b =>
    have hsame : crossed = l.crossed := by
      rw [Bool.eq_iff_iff, hcrossed, hbase]
      exact or_iff_left fun hnone => by cases hnone.1
    have hor : (l.broken 0 v).base = l.base := by simp only [broken, hbase, if_true, Option.some_or]
    have hlayout : ({ l.broken 0 v with crossed := crossed } : Layout) = l := by
      change (⟨l.initial, l.scratch, (l.broken 0 v).base, (l.broken 0 v).top, l.maps, crossed⟩ : Layout) = l
      rw [hor, htop, hsame]
    rw [hlayout]
    exact h
  | none =>
    have hcalm : l.crossed = false := by
      cases hmet : l.crossed with
      | false => rfl
      | true =>
        obtain ⟨b, hb, -⟩ := h.met hmet
        rw [hbase] at hb
        cases hb
    have hcrossed' : crossed = true ↔ size = 2^32 ∧ l.top ≠ 0 := by
      rw [hcrossed, hcalm]
      exact ⟨fun hor => (hor.resolve_left Bool.false_ne_true).2, fun hboth => .inr ⟨hbase, hboth⟩⟩
    have hanswer : ∀ b, (l.broken 0 v).base = some b → b = size % 2^32 := by
      intro b hb
      simpa [broken, hbase, hv, eq_comm] using hb
    have hwhere : size % 2^32 = size ∧ size < 2^32 ∨ size % 2^32 = 0 ∧ size = 2^32 := by omega
    have hreserved := h.reserved
    constructor
    · exact h.addressed
    · exact h.scratch
    · exact h.reserved
    · rw [htop]
      exact h.granted
    · rw [htop]
      exact h.top
    · exact h.maps
    · exact h.stacked
    · intro b hb
      obtain rfl := hanswer b hb
      rcases hwhere with ⟨hat, -⟩ | ⟨hwrapped, hfull⟩
      · rw [hat]
        exact .inl ⟨h.reserved, le_rfl⟩
      · exact .inr ⟨hwrapped, hfull⟩
    · intro b hb r hr
      obtain rfl := hanswer b hb
      rcases hwhere with ⟨hat, -⟩ | ⟨hwrapped, -⟩
      · rw [hat]
        exact .inl (h.maps r hr).2.2
      · rw [hwrapped]
        exact .inr (Nat.zero_le _)
    · intro hkept b hb
      obtain rfl := hanswer b hb
      rw [htop]
      have hnot : ¬ (size = 2^32 ∧ l.top ≠ 0) := fun hboth => by
        rw [hcrossed'.mpr hboth] at hkept
        cases hkept
      constructor
      · intro r hr hafter
        have := h.maps r hr
        omega
      · intro hzero
        omega
    · intro hmet
      obtain ⟨hfull, hsome⟩ := hcrossed'.mp hmet
      refine ⟨0, ?_, .inr ⟨rfl, by rwa [htop]⟩⟩
      simp [broken, hbase, hv, hfull]

theorem start (initial : ℕ) (haddressed : initial + asyncifyPages * page ≤ 2^32) :
    (⟨initial, initial, none, 0, [], false⟩ : Layout).Laid (initial + asyncifyPages * page) where
  addressed := haddressed
  scratch := rfl
  reserved := le_rfl
  granted := .inl rfl
  top := Nat.zero_le _
  maps := by simp
  stacked := .nil
  base := by simp
  sides := by simp
  kept := by simp
  met := by simp

end Layout.Laid

section
variable {W : Type} {x : Env W} {m : Machine} {w : W} {l : Layout}

/-- A reservation puts the scratch area where the memory ended. -/
theorem reserve_spec (hx : x.Paged) {inst inst' : Instance} {charged data : ℕ} {s s' : Kernel × W}
    (hpaged : inst.mem.Paged)
    (h : (Scheduler.reserve inst).run (kexec x) s = (.ok (some (.guest inst' charged data)), s')) :
    data = inst.mem.size ∧ inst'.mem.size = inst.mem.size + asyncifyPages * page ∧ inst'.mem.Paged := by
  obtain ⟨taken, s₁, hcharge, h⟩ := Program.run_bind_eq_ok (kexec x) h
  split at h
  · obtain ⟨granted, s₂, hgrant, h⟩ := Program.run_bind_eq_ok (kexec x) h
    split at h
    · rename_i hyes
      simp only [Program.pure_eq, Program.run_ret, Prod.mk.injEq, Except.ok.injEq, Option.some.injEq,
        Launch.guest.injEq] at h
      obtain ⟨⟨rfl, -, rfl⟩, -⟩ := h
      have hanswer : (x.grant inst.mem.size asyncifyPages s₁.2).1 = granted :=
        Except.ok.inj (congrArg Prod.fst hgrant)
      have hroom := hx.grant _ _ _ (hanswer.trans hyes)
      have hpos := Layout.Laid.reserved_pos
      refine ⟨?_, Mem.size_grow _ _, hpaged.grow (Mem.size_grow _ _) hroom⟩
      rw [Nat.div_mul_cancel hpaged.whole]
      unfold asU32
      omega
    · cases h
  · simp at h

/-- Everything an instance has been given lies where it should. -/
theorem Lived.laid (hx : x.Paged) (h : Lived x m w l) : m.inst.mem.Paged ∧ l.Laid m.inst.mem.size := by
  induction h with
  | start image w₀ inst inst' charged data s s' m w hinst hreserve hm =>
    obtain ⟨rfl, hsize, hpaged⟩ := reserve_spec hx (hx.instantiate _ _ _ hinst) hreserve
    rw [hm]
    refine ⟨hpaged, ?_⟩
    have haddressed := hpaged.addressed
    rw [hsize] at haddressed ⊢
    exact .start _ haddressed
  | brk number a m m' w w' l v _ hnumber hrun ih =>
    obtain ⟨hpaged, hlaid⟩ := ih
    rw [handle_brk hnumber] at hrun
    have hbound := asU32_lt a.a0
    have haddressed := hpaged.addressed
    by_cases hgrants : m.Grants x w (asU32 a.a0)
    · obtain ⟨v', m'', w'', hspec, hv, hfits, hpaged'⟩ := brk_granted hpaged hx hgrants
      obtain ⟨rfl, rfl, rfl⟩ : v = v' ∧ m' = m'' ∧ w' = w'' := by simpa using hrun.symm.trans hspec
      have hcrosses : m.Crosses x w l (asU32 a.a0) ↔ ∃ r ∈ l.maps, l.base.any (· ≤ r.start) = true :=
        ⟨fun hc => hc.elim And.right fun hzero => absurd hzero.1 hgrants.1, fun hmap => .inl ⟨hgrants, hmap⟩⟩
      refine ⟨hpaged', hlaid.moved hgrants.1 hv ?_ hfits hpaged'.addressed ?_⟩
      · rcases hgrants.2 with hat | ⟨habove, -⟩ <;> omega
      · simp only [Bool.or_eq_true, decide_eq_true_eq, hcrosses]
    · obtain ⟨m'', w'', hspec, hsize⟩ := brk_refused hgrants
      obtain ⟨hv, hm⟩ := Prod.mk.inj (hrun.symm.trans hspec)
      obtain ⟨rfl, rfl⟩ := Prod.mk.inj hm
      have hanswer : asU32 v = m.inst.mem.size % 2^32 :=
        (congrArg asU32 (Except.ok.inj hv)).trans (asU32_asI32 _)
      refine ⟨hpaged.of_size hsize, ?_⟩
      rw [hsize]
      by_cases hzero : asU32 a.a0 = 0
      · have hcrosses : m.Crosses x w l 0 ↔ l.base = none ∧ m.inst.mem.size = 2^32 ∧ l.top ≠ 0 :=
          ⟨fun hc => hc.elim (fun hmap => absurd rfl hmap.1.1) And.right, fun hfull => .inr ⟨rfl, hfull⟩⟩
        rw [hzero]
        exact hlaid.asked hanswer (by simp only [Bool.or_eq_true, decide_eq_true_eq, hcrosses])
      · have hother : asU32 v ≠ asU32 a.a0 := fun heq => hgrants ⟨hzero, .inl (by omega)⟩
        have hcrosses : ¬ m.Crosses x w l (asU32 a.a0) :=
          fun hc => hc.elim (fun hmap => hgrants hmap.1) fun hfull => hzero hfull.1
        have hsame : ({ l.broken (asU32 a.a0) v with
            crossed := l.crossed || decide (m.Crosses x w l (asU32 a.a0)) } : Layout) = l := by
          simp only [Layout.broken, if_neg hzero, if_neg hother, decide_eq_false hcrosses, Bool.or_false]
        rw [hsame]
        exact hlaid
  | mmap number a m m' w w' l v _ hnumber hrun ih =>
    obtain ⟨hpaged, hlaid⟩ := ih
    rw [handle_mmap hnumber] at hrun
    obtain ⟨hlength, hv, hsize, hpaged'⟩ := mmap_spec hpaged hx hrun
    exact ⟨hpaged', hlaid.mapped hlength hv hsize hpaged'.addressed⟩
  | other m m' w w' l _ hsize hpaged' ih => exact ⟨hpaged', ih.2.grow hsize hpaged'.addressed⟩

/-- The heap, the mappings, the memory an instance started with and its scratch
area are apart as long as no `brk` crosses, and no longer. -/
theorem heap_separate_iff (hx : x.Paged) (h : Lived x m w l) :
    l.Separate m.inst.mem.size ↔ l.crossed = false :=
  (h.laid hx).2.separate_iff

end

/-- An engine whose memories start empty and grow as far as addresses reach. -/
def Env.roomy : Env Unit :=
  { Env.still Unit with
    instantiate := fun _ w => (some ⟨⟨0, fun _ => 0⟩, 0, false⟩, w)
    grant := fun size pages w => (decide (size + pages * page ≤ 2^32), w) }

theorem roomy_paged : Env.roomy.Paged where
  instantiate := by
    intro image w inst h
    obtain rfl : (⟨⟨0, fun _ => 0⟩, 0, false⟩ : Instance) = inst := Option.some.inj h
    exact ⟨Nat.dvd_zero _, Nat.zero_le _⟩
  grant := fun size pages w h => of_decide_eq_true h

def Config.idle (c : Config) : Kernel := ⟨c.shared 0, [], none⟩

theorem mapped_roomy : ∃ (m : Machine) (l : Layout), Lived Env.roomy m () l ∧ l.base = some 0x100000 ∧
    l.maps = [⟨0x100000, 0x100001⟩] ∧ m.Grants Env.roomy () 0x110001 := by
  have hreserve : (Scheduler.reserve ⟨⟨0, fun _ => 0⟩, 0, false⟩).run (kexec Env.roomy)
    ((Config.bare []).idle, ()) =
      (.ok (some (.guest _ _ _)), _) := rfl
  have hstart : Lived Env.roomy ⟨default, (Config.bare []).shared 0, _⟩ () _ :=
    .start 0 () _ _ _ _ _ _ _ _ rfl hreserve rfl
  have hbreak := Lived.brk 214 ⟨0, 0, 0, 0, 0, 0⟩ _ _ _ _ _ _ hstart rfl rfl
  have hmapped := Lived.mmap 222 ⟨0, 1, 3, 0x22, -1, 0⟩ _ _ _ _ _ _ hbreak rfl rfl
  exact ⟨_, _, hmapped, by decide +kernel, by decide +kernel, by decide +kernel⟩

theorem heap_separate_iff_roomy : ∃ (m : Machine) (l : Layout), Lived Env.roomy m () l ∧ l.maps ≠ [] ∧
    (l.Separate m.inst.mem.size ↔ l.crossed = false) := by
  obtain ⟨m, l, hlived, -, hmaps, -⟩ := mapped_roomy
  exact ⟨m, l, hlived, by simp [hmaps], heap_separate_iff roomy_paged hlived⟩

/-- A `brk` beyond the mapping is answered with itself, and the heap it stands for
takes in the mapping. -/
theorem heap_over_mapping : ∃ (m : Machine) (l : Layout), Lived Env.roomy m () l ∧
    ¬ l.Separate m.inst.mem.size := by
  obtain ⟨m, l, hlived, hbase, hmaps, hgrants⟩ := mapped_roomy
  obtain ⟨hpaged, -⟩ := hlived.laid roomy_paged
  obtain ⟨v, m', w', hrun, -⟩ := brk_granted hpaged roomy_paged (a := ⟨0x110001, 0, 0, 0, 0, 0⟩) hgrants
  rw [← handle_brk (show Nr.ofInt 214 = .brk from rfl)] at hrun
  have hmoved := Lived.brk 214 _ _ _ _ _ _ _ hlived rfl hrun
  refine ⟨_, _, hmoved, (hmoved.laid roomy_paged).2.not_separate ?_⟩
  have hcrosses : m.Crosses Env.roomy () l 0x110001 := .inl ⟨hgrants, by simp [hbase, hmaps]⟩
  exact (Bool.or_eq_true _ _).mpr (.inr (decide_eq_true hcrosses))

end Wasmux
