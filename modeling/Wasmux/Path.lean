import Mathlib.Data.List.Basic
import Mathlib.Data.List.Dedup
import Mathlib.Data.List.Sort
import Mathlib.Tactic.Common
import Wasmux.Vfs

/-!
# Names

Paths are folded lexically before anything is looked up, and three kinds of
thing share the namespace: programs, what the kernel generates, and mounts.
This module is the part of name resolution that asks no filesystem.
-/

set_option autoImplicit false

namespace Wasmux

abbrev ProgramId := ℕ

/-- How many symlinks may be traversed before giving up with `ELOOP`. -/
def maxHops : ℕ := 40

def slash : Byte := 0x2F
def root : Text := [slash]

def stripPrefix (prefix' text : Text) : Option Text :=
  if prefix'.isPrefixOf text then some (text.drop prefix'.length) else none

def startsWithSlash (text : Text) : Bool := text.head? == some slash

def foldComponent (parts : List Text) (component : Text) : List Text :=
  if component = [] ∨ component = ascii "." then parts
  else if component = ascii ".." then parts.dropLast
  else parts ++ [component]

def normalize (base path : Text) : List Text :=
  (path.splitOn slash).foldl foldComponent
    (if startsWithSlash path then [] else (base.splitOn slash).foldl foldComponent [])

def join (parts : List Text) : Text :=
  if parts = [] then root else parts.flatMap fun part => slash :: part

/-- A filesystem grafted into the guest's namespace at a path. -/
structure Mount where
  point : Text
  vfs : ℕ
  readOnly : Bool
  deriving DecidableEq

/-- The mount table, longest mount point first. Every point is a path that
folding leaves alone, which is what `build` insists on. -/
structure Mounts where
  list : List Mount
  sorted : list.Pairwise fun a b => b.point.length ≤ a.point.length
  normal : ∀ m ∈ list, m.point = join (normalize root m.point)

namespace Mounts

def longer (a b : Mount) : Prop := b.point.length ≤ a.point.length

instance : DecidableRel longer := fun a b => inferInstanceAs (Decidable (b.point.length ≤ a.point.length))

instance : Std.Total longer := ⟨fun a b => Nat.le_total b.point.length a.point.length⟩

instance : IsTrans Mount longer := ⟨fun _ _ _ hab hbc => Nat.le_trans hbc hab⟩

def new (list : List Mount) (h : ∀ m ∈ list, m.point = join (normalize root m.point)) :
    Mounts where
  list := list.insertionSort longer
  sorted := List.pairwise_insertionSort longer list
  normal m hm := h m ((List.mem_insertionSort longer).mp hm)

def get (ms : Mounts) (index : ℕ) : Option Mount := ms.list[index]?

/-- What `guest` is called inside a mount at `point`, if it lies there. -/
def relative (point guest : Text) : Option Text :=
  if point = root then some guest
  else match stripPrefix point guest with
    | some [] => some root
    | some (c :: rest) => if c = slash then some (c :: rest) else none
    | none => none

def findFrom (guest : Text) : ℕ → List Mount → Option (ℕ × Text)
  | _, [] => none
  | index, mount :: rest =>
    match relative mount.point guest with
    | some rel => some (index, rel)
    | none => findFrom guest (index + 1) rest

def find (ms : Mounts) (guest : Text) : Option (ℕ × Text) := findFrom guest 0 ms.list

end Mounts

/-- What a listing of `guest` puts before the name of a child. -/
def childPrefix (guest : Text) : Text := if guest = root then root else guest ++ root

/-- The name of `path` in a listing of `guest`, if it is a direct child. -/
def childName (guest path : Text) : Option Text :=
  match stripPrefix (childPrefix guest) path with
  | some rest => if rest ≠ [] ∧ slash ∉ rest then some rest else none
  | none => none

def Mounts.childrenOf (ms : Mounts) (guest : Text) : List Text :=
  ms.list.filterMap fun mount => childName guest mount.point

inductive Device where
  | null
  | zero
  | random
  | tty
  | fd (fd : ℤ)
  deriving DecidableEq

inductive Node where
  | program (id : ProgramId) (guest : Text)
  | device (device : Device)
  | synth (guest : Text)
  | mounted (mount : ℕ) (rel guest : Text)
  | virtualDir (guest : Text)
  | virtualLink (target : Text)
  deriving DecidableEq

/-- The kernel's synthetic part of the namespace: which programs exist and
where, and every directory they imply. -/
structure Overlay where
  programs : List (Text × ProgramId)
  dirs : List Text

def parentDirs (path : Text) : List Text :=
  (List.range path.length).filterMap fun i =>
    if path[i]? = some slash then some (if i = 0 then root else path.take i) else none

def Overlay.new (programs : List (Text × ProgramId)) : Overlay where
  programs := programs
  dirs := ["/", "/dev", "/proc", "/proc/self"].map ascii ++
    programs.flatMap fun p => parentDirs p.1

def procFiles : List Text :=
  ["cpuinfo", "meminfo", "uptime", "version", "mounts", "filesystems", "loadavg", "stat"].map ascii

def FileType.rank : FileType → ℕ
  | .file => 0
  | .dir => 1
  | .symlink => 2

def textLe : Text → Text → Bool
  | [], _ => true
  | _ :: _, [] => false
  | a :: as, b :: bs => if a = b then textLe as bs else a ≤ b

def entryLe (a b : Text × FileType) : Prop :=
  if a.1 = b.1 then a.2.rank ≤ b.2.rank else textLe a.1 b.1 = true

instance : DecidableRel entryLe := fun a b => by unfold entryLe; exact inferInstance

def listing (entries : List (Text × FileType)) : List (Text × FileType) :=
  (entries.insertionSort entryLe).dedup

namespace Overlay

def program (o : Overlay) (guest : Text) : Option ProgramId := o.programs.lookup guest

/-- The names `entries_in` adds to three directories of its own. -/
def generatedIn (guest : Text) : List (Text × FileType) :=
  if guest = ascii "/dev" then
    ["null", "zero", "urandom", "random", "tty", "console", "stdin", "stdout", "stderr"].map
      fun name => (ascii name, .file)
  else if guest = ascii "/proc" then
    procFiles.map (fun name => (name, .file)) ++ [(ascii "self", .dir)]
  else if guest = ascii "/proc/self" then
    ["exe", "cwd", "cmdline", "comm", "stat", "fd"].map fun name => (ascii name, .file)
  else []

def entriesIn (o : Overlay) (guest : Text) : List (Text × FileType) :=
  listing ((o.programs.filterMap fun p => (childName guest p.1).map (·, .file)) ++
    (o.dirs.filterMap fun dir => (childName guest dir).map (·, .dir)) ++ generatedIn guest)

def isDir (o : Overlay) (guest : Text) : Bool :=
  o.dirs.contains guest || guest == ascii "/proc/self/fd"

end Overlay

/-- What the resolver needs to know about the process asking. -/
structure Who where
  cwd : Text
  exe : Text
  pid : ℤ

def deviceOf (guest : Text) : Option Device :=
  if guest = ascii "/dev/null" then some .null
  else if guest = ascii "/dev/zero" then some .zero
  else if guest = ascii "/dev/urandom" ∨ guest = ascii "/dev/random" then some .random
  else if guest = ascii "/dev/tty" ∨ guest = ascii "/dev/console" then some .tty
  else none

def decimal (n : ℕ) : Text := (Nat.toDigits 10 n).map fun c => c.toNat.toUInt8

def decimalInt (z : ℤ) : Text := if z < 0 then ascii "-" ++ decimal z.natAbs else decimal z.natAbs

def digitsOf : Text → Option ℕ
  | [] => none
  | text => text.foldl (fun acc b => acc.bind fun n =>
      if 0x30 ≤ b ∧ b ≤ 0x39 then some (n * 10 + (b.toNat - 0x30)) else none) (some 0)

/-- `str::parse::<i32>` -/
def parseI32 (text : Text) : Option ℤ :=
  let value : Option ℤ := match text with
    | [] => none
    | sign :: rest =>
      if sign = 0x2D then (digitsOf rest).map fun n => -(n : ℤ)
      else if sign = 0x2B then (digitsOf rest).map Nat.cast
      else (digitsOf text).map Nat.cast
  value.bind fun z => if i32Min ≤ z ∧ z ≤ i32Max then some z else none

/-- What follows `/proc/` once `self/` and the process's own pid are dropped. -/
def procRest (who : Who) (rest : Text) : Text :=
  let rest := ((stripPrefix (decimalInt who.pid) rest).bind (stripPrefix root)).getD rest
  (stripPrefix (ascii "self/") rest).getD rest

def procNode (who : Who) (guest : Text) : Option Node := do
  let rest ← stripPrefix (ascii "/proc/") guest
  let rest := procRest who rest
  if rest = ascii "fd" then return .virtualDir guest
  match stripPrefix (ascii "fd/") rest with
  | some number => return .device (.fd (← parseI32 number))
  | none =>
    if procFiles.contains rest ∨ [ascii "cmdline", ascii "comm", ascii "stat", ascii "status"].contains rest
    then return .synth guest
    if rest = [] ∨ rest = ascii "self" then return .virtualDir guest
    none

def virtualLink (who : Who) (guest : Text) : Option Text :=
  let tail := (stripPrefix (ascii "/proc/self") guest).or
    (stripPrefix (ascii "/proc/" ++ decimalInt who.pid) guest)
  if tail = some (ascii "/exe") then some who.exe
  else if tail = some (ascii "/cwd") then some who.cwd
  else if guest = ascii "/dev/stdin" then some (ascii "/proc/self/fd/0")
  else if guest = ascii "/dev/stdout" then some (ascii "/proc/self/fd/1")
  else if guest = ascii "/dev/stderr" then some (ascii "/proc/self/fd/2")
  else none

def virtualEntries (o : Overlay) (ms : Mounts) (guest : Text) : List (Text × FileType) :=
  listing (o.entriesIn guest ++ (ms.childrenOf guest).map (·, .dir))

namespace Mounts

theorem relative_root (guest : Text) : relative root guest = some guest := by simp [relative]

theorem stripPrefix_eq_some {p t r : Text} : stripPrefix p t = some r ↔ t = p ++ r := by
  unfold stripPrefix
  constructor
  · intro h
    split at h
    · rename_i hp
      obtain ⟨s, rfl⟩ := List.isPrefixOf_iff_prefix.mp hp
      simpa using h
    · simp at h
  · rintro rfl
    simp

/-- A path lies in a mount at `point` exactly when it is the point or goes on
below it. -/
theorem relative_eq_some {point guest rel : Text} (hp : point ≠ root) :
    relative point guest = some rel ↔
      (guest = point ∧ rel = root) ∨ ∃ rest, rel = slash :: rest ∧ guest = point ++ slash :: rest := by
  unfold relative
  rw [if_neg hp]
  rcases hs : stripPrefix point guest with _ | _ | ⟨c, rest⟩
  · constructor
    · simp
    · rintro (⟨rfl, -⟩ | ⟨rest, -, rfl⟩)
      · have := (stripPrefix_eq_some (p := guest) (t := guest) (r := [])).mpr (by simp)
        simp [hs] at this
      · have := (stripPrefix_eq_some (p := point) (r := slash :: rest)).mpr rfl
        simp [hs] at this
  · have hg := stripPrefix_eq_some.mp hs
    simp only [List.append_nil] at hg
    subst hg
    simp [eq_comm]
  · have hg := stripPrefix_eq_some.mp hs
    subst hg
    by_cases hc : c = slash
    · subst hc
      simp [eq_comm]
    · simp [hc]

end Mounts
end Wasmux
