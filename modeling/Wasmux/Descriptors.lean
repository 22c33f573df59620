import Wasmux.Abi
import Wasmux.Counting.Ledger
import Wasmux.Slab

/-!
# Open file descriptions, pipes and descriptor tables

A descriptor is an index into a process's table and names a description by its
slab key. What the tables together hold of one key is counted by `holds`, and
each table operation says how it moves that count.
-/

set_option autoImplicit false

namespace Wasmux
open Counting

abbrev DescKey := ℕ
abbrev PipeKey := ℕ

abbrev Handle := ℕ

def pipeCapacity : ℕ := 65536

structure DirEnt where
  ino : ℕ
  kind : ℕ
  name : Text
  deriving DecidableEq

inductive DescKind where
  | file (file : Handle) (mount : ℕ) (closed : Bool)
  | dir (entries : List DirEnt) (pos : ℕ)
  | memory (data : Bytes) (pos : ℕ)
  | pipeRead (key : PipeKey)
  | pipeWrite (key : PipeKey)
  | stdin
  | stdout (which : ℕ)
  | null
  | zero
  | random
  deriving DecidableEq

def DescKind.pipe : DescKind → Option PipeKey
  | .pipeRead key | .pipeWrite key => some key
  | _ => none

/-- What `openat` can open: anything but the end of a pipe. -/
abbrev OpenKind := { kind : DescKind // kind.pipe = none }

structure Desc where
  kind : DescKind
  path : Text
  flags : ℕ
  refs : ℕ
  deriving DecidableEq

namespace Desc
open Abi

def new (kind : DescKind) (path : Text) (flags : ℕ) : Desc := ⟨kind, path, flags, 1⟩

def isNonblocking (d : Desc) : Bool := d.flags &&& oNonblock != 0

def writable (d : Desc) : Bool :=
  d.flags &&& oAccmode == oWronly || d.flags &&& oAccmode == oRdwr

def readable (d : Desc) : Bool :=
  d.flags &&& oAccmode == oRdonly || d.flags &&& oAccmode == oRdwr

def isStdStream (d : Desc) : Bool :=
  match d.kind with
  | .stdin | .stdout _ => true
  | _ => false

end Desc

structure Pipe where
  data : Bytes
  readers : ℕ
  writers : ℕ
  deriving DecidableEq

namespace Pipe

def new : Pipe := ⟨[], 1, 1⟩

def room (p : Pipe) : ℕ := pipeCapacity - p.data.length

end Pipe

structure Fd where
  desc : DescKey
  cloexec : Bool
  deriving DecidableEq

structure FdTable where
  slots : List (Option Fd)
  deriving DecidableEq

namespace FdTable

def new : FdTable := ⟨[]⟩

instance : Inhabited FdTable := ⟨new⟩

def get (t : FdTable) (fd : ℤ) : Except Errno Fd :=
  if fd < 0 then .error .badf
  else match t.slots[fd.toNat]? with
    | some (some entry) => .ok entry
    | _ => .error .badf

def setCloexec (t : FdTable) (fd : ℤ) (on : Bool) : Except Errno FdTable :=
  if fd < 0 then .error .badf
  else match t.slots[fd.toNat]? with
    | some (some entry) => .ok ⟨t.slots.set fd.toNat (some { entry with cloexec := on })⟩
    | _ => .error .badf

def resize (t : FdTable) (len : ℕ) : FdTable :=
  ⟨t.slots ++ List.replicate (len - t.slots.length) none⟩

/-- The loop of `alloc` from slot `i` on. A table of `n` slots is searched in
at most `n + 1` turns. -/
def allocFrom (t : FdTable) (entry : Fd) (max : ℕ) : ℕ → ℕ → Except Errno (ℤ × FdTable)
  | 0, _ => .error .mfile
  | turns + 1, i =>
    if max ≤ i then .error .mfile
    else match (t.resize (i + 1)).slots[i]? with
      | some none => .ok (asI32 i, ⟨(t.resize (i + 1)).slots.set i (some entry)⟩)
      | some (some _) => allocFrom t entry max turns (i + 1)
      | none => .error .mfile

def alloc (t : FdTable) (entry : Fd) (min max : ℕ) : Except Errno (ℤ × FdTable) :=
  t.allocFrom entry max (t.slots.length + 1) min

def replace (t : FdTable) (fd : ℤ) (entry : Fd) (max : ℕ) : Except Errno (Option Fd × FdTable) :=
  if fd < 0 ∨ max ≤ fd.toNat then .error .badf
  else match (t.resize (fd.toNat + 1)).slots[fd.toNat]? with
    | some old => .ok (old, ⟨(t.resize (fd.toNat + 1)).slots.set fd.toNat (some entry)⟩)
    | none => .error .badf

def take (t : FdTable) (fd : ℤ) : Except Errno (Fd × FdTable) :=
  if fd < 0 then .error .badf
  else match t.slots[fd.toNat]? with
    | some (some entry) => .ok (entry, ⟨t.slots.set fd.toNat none⟩)
    | _ => .error .badf

def keys (t : FdTable) : List DescKey := t.slots.filterMap (Option.map Fd.desc)

def drainCloexec (t : FdTable) : List DescKey × FdTable :=
  (t.slots.filterMap fun s => s.bind fun e => if e.cloexec then some e.desc else none,
   ⟨t.slots.map fun s => s.filter fun e => !e.cloexec⟩)

def drainAll (t : FdTable) : List DescKey × FdTable :=
  (t.keys, ⟨t.slots.map fun _ => none⟩)

def holds (t : FdTable) (k : DescKey) : ℕ := t.keys.count k

@[simp] theorem holds_new (k : DescKey) : new.holds k = 0 := rfl

theorem holds_eq_countP (t : FdTable) (k : DescKey) :
    t.holds k = t.slots.countP fun s => s.any fun e => e.desc == k := by
  unfold holds keys
  induction t.slots with
  | nil => rfl
  | cons s l ih =>
    cases s with
    | none => simpa using ih
    | some e => simp [List.count_cons, List.countP_cons, ih]

theorem holds_resize (t : FdTable) (n : ℕ) (k : DescKey) : (t.resize n).holds k = t.holds k := by
  rw [holds_eq_countP, holds_eq_countP, resize, List.countP_append]
  simp

theorem holds_set (t : FdTable) (i : ℕ) (old new : Option Fd) (h : t.slots[i]? = some old)
    (k : DescKey) :
    (FdTable.mk (t.slots.set i new)).holds k + (old.elim 0 fun e => one e.desc k) =
      t.holds k + new.elim 0 fun e => one e.desc k := by
  have := Slab.countP_set (fun e : Fd => e.desc == k) t.slots i old new h
  simp only [holds_eq_countP]
  cases old <;> cases new <;> simpa [one] using this

theorem get_ok {t : FdTable} {fd : ℤ} {e : Fd} (h : t.get fd = .ok e) :
    t.slots[fd.toNat]? = some (some e) := by
  unfold get at h
  split at h
  · simp at h
  · split at h
    · rename_i entry hs
      obtain rfl : entry = e := by simpa using h
      exact hs
    · simp at h

theorem holds_pos_of_get {t : FdTable} {fd : ℤ} {e : Fd} (h : t.get fd = .ok e) :
    0 < t.holds e.desc := by
  rw [holds_eq_countP, List.countP_pos_iff]
  exact ⟨some e, List.mem_of_getElem? (get_ok h), by simp⟩

theorem holds_setCloexec {t u : FdTable} {fd : ℤ} {on : Bool} (h : t.setCloexec fd on = .ok u)
    (k : DescKey) : u.holds k = t.holds k := by
  unfold setCloexec at h
  split at h
  · simp at h
  · split at h
    · rename_i entry hs
      obtain rfl := by simpa using h
      have := holds_set t fd.toNat (some entry) (some { entry with cloexec := on }) hs k
      simpa using this
    · simp at h

theorem holds_allocFrom {t u : FdTable} {e : Fd} {max : ℕ} {fd : ℤ} (turns i : ℕ)
    (h : t.allocFrom e max turns i = .ok (fd, u)) (k : DescKey) :
    u.holds k = t.holds k + one e.desc k := by
  induction turns generalizing i with
  | zero => simp [allocFrom] at h
  | succ turns ih =>
    unfold allocFrom at h
    split at h
    · simp at h
    · split at h
      · rename_i hs
        obtain ⟨-, rfl⟩ := by simpa using h
        have := holds_set _ i none (some e) hs k
        simpa [holds_resize] using this
      · exact ih (i + 1) h
      · simp at h

theorem holds_alloc {t u : FdTable} {e : Fd} {min max : ℕ} {fd : ℤ}
    (h : t.alloc e min max = .ok (fd, u)) (k : DescKey) :
    u.holds k = t.holds k + one e.desc k :=
  holds_allocFrom _ _ h k

/-- A table without a gap takes the next slot, if that is allowed. -/
theorem alloc_full {t : FdTable} {e : Fd} {max : ℕ} (hfull : t.slots.all Option.isSome)
    (hlt : t.slots.length < max) : t.alloc e 0 max = .ok (asI32 t.slots.length, ⟨t.slots ++ [some e]⟩) := by
  have from' : ∀ turns i, i + turns = t.slots.length + 1 → 0 < turns →
      t.allocFrom e max turns i = .ok (asI32 t.slots.length, ⟨t.slots ++ [some e]⟩) := by
    intro turns
    induction turns with
    | zero => intro i _ h; omega
    | succ turns ih =>
      intro i hi _
      have hmax : ¬ max ≤ i := by omega
      rw [allocFrom, if_neg hmax]
      by_cases hlast : i = t.slots.length
      · subst hlast
        simp [resize]
      · have hi' : i < t.slots.length := by omega
        have hr : t.resize (i + 1) = t := by
          have : i + 1 - t.slots.length = 0 := by omega
          simp [resize, this]
        obtain ⟨entry, he⟩ : ∃ entry, t.slots[i] = some entry :=
          Option.isSome_iff_exists.mp (List.all_eq_true.mp hfull _ (List.getElem_mem hi'))
        rw [hr, List.getElem?_eq_getElem hi', he]
        exact ih (i + 1) (by omega) (by omega)
  exact from' _ 0 (by omega) (by omega)

theorem holds_replace {t u : FdTable} {fd : ℤ} {e : Fd} {max : ℕ} {old : Option Fd}
    (h : t.replace fd e max = .ok (old, u)) (k : DescKey) :
    u.holds k + (old.elim 0 fun o => one o.desc k) = t.holds k + one e.desc k := by
  unfold replace at h
  split at h
  · simp at h
  · split at h
    · rename_i o hs
      obtain ⟨rfl, rfl⟩ := by simpa using h
      have := holds_set _ fd.toNat o (some e) hs k
      simpa [holds_resize] using this
    · simp at h

theorem holds_take {t u : FdTable} {fd : ℤ} {e : Fd} (h : t.take fd = .ok (e, u)) (k : DescKey) :
    u.holds k + one e.desc k = t.holds k := by
  unfold take at h
  split at h
  · simp at h
  · split at h
    · rename_i entry hs
      obtain ⟨rfl, rfl⟩ := by simpa using h
      have := holds_set t fd.toNat (some entry) none hs k
      simpa using this
    · simp at h

theorem holds_drainCloexec (t : FdTable) (k : DescKey) :
    t.drainCloexec.2.holds k + t.drainCloexec.1.count k = t.holds k := by
  unfold holds keys drainCloexec
  induction t.slots with
  | nil => rfl
  | cons s l ih =>
    rcases s with _ | ⟨d, _ | _⟩ <;> simp [List.count_cons] at ih ⊢ <;> omega

@[simp] theorem holds_drainAll (t : FdTable) (k : DescKey) : t.drainAll.2.holds k = 0 := by
  simp [holds, keys, drainAll]

end FdTable
end Wasmux
