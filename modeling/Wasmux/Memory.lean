import Wasmux.Task

/-!
# Checked access to a guest's linear memory

Every accessor is bounds-checked and answers `EFAULT` rather than reaching
outside. A memory is its size and what each address holds.
-/

set_option autoImplicit false

namespace Wasmux
open Abi

structure Mem where
  size : ℕ
  byte : ℕ → Byte

instance : Inhabited Mem := ⟨⟨0, fun _ => 0⟩⟩

/-- The replacement character `from_utf8_lossy` writes for a byte sequence
that is not UTF-8. -/
def replacement : Text := [0xEF, 0xBF, 0xBD]

def isCont (b : Byte) : Bool := 0x80 ≤ b && b ≤ 0xBF

/-- Whether `b` may follow the leading byte `a` of a longer sequence. -/
def secondOk (a b : Byte) : Bool :=
  if a = 0xE0 then 0xA0 ≤ b && b ≤ 0xBF
  else if a = 0xED then 0x80 ≤ b && b ≤ 0x9F
  else if a = 0xF0 then 0x90 ≤ b && b ≤ 0xBF
  else if a = 0xF4 then 0x80 ≤ b && b ≤ 0x8F
  else isCont b

/-- How many bytes a sequence that starts with `a` is meant to have; zero for
a byte that starts none. -/
def seqWidth (a : Byte) : ℕ :=
  if a ≤ 0x7F then 1
  else if 0xC2 ≤ a && a ≤ 0xDF then 2
  else if 0xE0 ≤ a && a ≤ 0xEF then 3
  else if 0xF0 ≤ a && a ≤ 0xF4 then 4
  else 0

/-- The length of the longest good start of a sequence led by `a`, and whether
it is the whole sequence. -/
def seqSpan (a : Byte) (rest : Bytes) : ℕ × Bool :=
  match seqWidth a, rest with
  | 0, _ => (1, false)
  | 1, _ => (1, true)
  | w, b :: more =>
    if !secondOk a b then (1, false)
    else if w = 2 then (2, true)
    else match more with
      | c :: more' =>
        if !isCont c then (2, false)
        else if w = 3 then (3, true)
        else match more' with
          | d :: _ => if isCont d then (4, true) else (3, false)
          | [] => (3, false)
      | [] => (2, false)
  | _, [] => (1, false)

def lossyFrom : ℕ → Bytes → Text
  | 0, _ => []
  | _, [] => []
  | turns + 1, a :: rest =>
    let (n, whole) := seqSpan a rest
    (if whole then (a :: rest).take n else replacement) ++ lossyFrom turns ((a :: rest).drop n)

def fromUtf8Lossy (b : Bytes) : Text := lossyFrom b.length b

namespace Mem

def maxStr : ℕ := 4096
def maxArgs : ℕ := 4096
def maxArgStrlen : ℕ := 128 * 1024
def maxArgTotal : ℕ := 2 * 1024 * 1024

def read (m : Mem) (start len : ℕ) : Bytes := (List.range len).map fun i => m.byte (start + i)

def bytes (m : Mem) (start len : ℕ) : Except Errno Bytes :=
  if start + len ≤ m.size then .ok (m.read start len) else .error .fault

def u32 (m : Mem) (start : ℕ) : Except Errno ℕ := (m.bytes start 4).map ofLe

def u64 (m : Mem) (start : ℕ) : Except Errno ℕ := (m.bytes start 8).map ofLe

def i32At (m : Mem) (start : ℕ) : Except Errno ℤ := (m.u32 start).map fun n => asI32 n

def write (m : Mem) (start : ℕ) (data : Bytes) : Mem :=
  { m with byte := fun a => if start ≤ a then (data[a - start]?).getD (m.byte a) else m.byte a }

def grow (m : Mem) (pages : ℕ) : Mem :=
  ⟨m.size + pages * page, fun a => if a < m.size then m.byte a else 0⟩

def put (m : Mem) (start : ℕ) (data : Bytes) : Except Errno Mem :=
  if start + data.length ≤ m.size then .ok (m.write start data) else .error .fault

def scan (m : Mem) : ℕ → ℕ → Option Bytes
  | 0, _ => none
  | n + 1, a => if m.byte a = 0 then some [] else (scan m n (a + 1)).map (m.byte a :: ·)

def cstrBytesUpto (m : Mem) (start cap : ℕ) : Except Errno Bytes :=
  if m.size < start then .error .fault
  else match m.scan (min (m.size - start) cap) start with
    | some s => .ok s
    | none => .error .nametoolong

def cstrBytes (m : Mem) (start : ℕ) : Except Errno Bytes := m.cstrBytesUpto start maxStr

def cstr (m : Mem) (start : ℕ) : Except Errno Text := (m.cstrBytes start).map fromUtf8Lossy

/-- The loop of `cstr_array` with room for `n` more strings. -/
def cstrArrayFrom (m : Mem) : ℕ → ℕ → ℕ → List Bytes → Except Errno (List Bytes)
  | 0, _, _, _ => .error .toobig
  | n + 1, p, total, out =>
    match m.u32 p with
    | .error e => .error e
    | .ok item =>
      if item = 0 then .ok out
      else match m.cstrBytesUpto item maxArgStrlen with
        | .error e => .error (if e = .nametoolong then .toobig else e)
        | .ok s =>
          if maxArgTotal < total + s.length + 1 then .error .toobig
          else if n = 0 then .error .toobig
          else if 2^32 ≤ p + 4 then .error .fault
          else cstrArrayFrom m n (p + 4) (total + s.length + 1) (out ++ [s])

def cstrArray (m : Mem) (start : ℕ) : Except Errno (List Bytes) :=
  if start = 0 then .ok [] else m.cstrArrayFrom maxArgs start 0 []

def timespec (m : Mem) (start : ℕ) : Except Errno Duration := do
  let secs ← m.u64 start
  if 2^32 ≤ start + 8 then .error .fault
  let nanos ← m.u32 (start + 8)
  if 2^63 ≤ secs ∨ 10^9 ≤ nanos then .error .inval
  return secs * 10^9 + nanos

theorem size_grow (m : Mem) (pages : ℕ) : (m.grow pages).size = m.size + pages * page := rfl

theorem size_le_grow (m : Mem) (pages : ℕ) : m.size ≤ (m.grow pages).size := by
  rw [size_grow]
  exact Nat.le_add_right _ _

theorem put_size {m m' : Mem} {start : ℕ} {data : Bytes} (h : m.put start data = .ok m') :
    m'.size = m.size := by
  unfold put at h
  split at h
  · cases h
    rfl
  · cases h

theorem u32_within {m : Mem} {a n : ℕ} (h : m.u32 a = .ok n) : a + 4 ≤ m.size := by
  by_contra hle
  rw [u32, bytes, if_neg hle] at h
  cases h

theorem u64_error {m : Mem} {start : ℕ} {e : Errno} (h : m.u64 start = .error e) : e = .fault := by
  unfold u64 bytes at h
  split at h
  · simp [Except.map] at h
  · simpa [Except.map, eq_comm] using h

theorem length_bytes {m : Mem} {start length : ℕ} {data : Bytes} (h : m.bytes start length = .ok data) :
    data.length = length := by
  unfold bytes at h
  split at h
  · rw [← Except.ok.inj h]
    simp [read]
  · cases h

theorem bytes_put {m m' : Mem} {start : ℕ} {data : Bytes} (h : m.put start data = .ok m') :
    m'.bytes start data.length = .ok data := by
  unfold put at h
  split at h
  · rename_i hle
    obtain rfl : m.write start data = m' := by simpa using h
    have hsize : (m.write start data).size = m.size := rfl
    rw [bytes, if_pos (hsize ▸ hle)]
    congr 1
    apply List.ext_getElem
    · simp [read]
    · intro i h1 h2
      simp [read, write, h2]
  · simp at h

theorem u32_put {m m' : Mem} {start n : ℕ} (h : m.put start (toLe 4 n) = .ok m') :
    m'.u32 start = .ok (n % 2^32) := by
  have hb := bytes_put h
  rw [toLe_length] at hb
  rw [u32, hb]
  exact congrArg Except.ok (ofLe_toLe 4 n)

/-- A word elsewhere is not touched. -/
theorem u32_put_other {m m' : Mem} {start a n : ℕ} (h : a + 4 ≤ start ∨ start + 4 ≤ a)
    (hput : m.put start (toLe 4 n) = .ok m') : m'.u32 a = m.u32 a := by
  have hsize := put_size hput
  unfold put at hput
  split at hput
  · obtain rfl := Except.ok.inj hput
    have hread : (m.write start (toLe 4 n)).read a 4 = m.read a 4 := by
      unfold read write
      apply List.map_congr_left
      intro i hi
      rw [List.mem_range] at hi
      dsimp only
      split
      · rw [List.getElem?_eq_none (by rw [toLe_length]; omega), Option.getD_none]
      · rfl
    rw [u32, u32, bytes, bytes, hsize, hread]
  · cases hput

theorem u64_put {m m' : Mem} {start n : ℕ} (h : m.put start (toLe 8 n) = .ok m') :
    m'.u64 start = .ok (n % 2^64) := by
  have hb := bytes_put h
  rw [toLe_length] at hb
  rw [u64, hb]
  exact congrArg Except.ok (ofLe_toLe 8 n)

end Mem
end Wasmux
