import Wasmux.Startup

/-!
# The arrays of strings a call takes

What an array of strings in memory is, by itself: words up to a zero word, each
leading to a string with its NUL. `cstr_array` reads one and stops at the first
limit it meets.
-/

set_option autoImplicit false

namespace Wasmux
open Abi

namespace Mem
variable {m : Mem}

/-- The string at `a`, with its NUL among the first `cap` bytes there. -/
structure StringAt (m : Mem) (cap a : ℕ) (s : Bytes) : Prop where
  held : m.Holds a (s ++ [0])
  solid : 0 ∉ s
  short : s.length < cap

/-- The words from `a` up to a zero word lead to these strings. -/
def ArrayAt (m : Mem) : ℕ → List Bytes → Prop
  | a, [] => m.u32 a = .ok 0
  | a, s :: rest => ∃ item, item ≠ 0 ∧ m.u32 a = .ok item ∧ m.StringAt maxArgStrlen item s ∧
      m.ArrayAt (a + 4) rest

/-- The bytes of some strings, their terminators included. -/
def stringsTotal : List Bytes → ℕ
  | [] => 0
  | s :: rest => s.length + 1 + stringsTotal rest

/-- What the argument `a` gives as strings, within the limits. -/
def Accepts (m : Mem) (a : ℕ) (strings : List Bytes) : Prop :=
  (a = 0 ∧ strings = []) ∨
    (a ≠ 0 ∧ m.ArrayAt a strings ∧ strings.length ≤ maxArgs ∧ stringsTotal strings ≤ maxArgTotal)

/-- A scan finds a string with its NUL, and no more than it was let look at. -/
theorem scan_found {n a : ℕ} {s : Bytes} (h : m.scan n a = some s) :
    s.length < n ∧ m.read a (s.length + 1) = s ++ [0] := by
  induction n generalizing a s with
  | zero => cases h
  | succ n ih =>
    rw [Mem.scan] at h
    split at h
    · rename_i hb
      obtain rfl := Option.some.inj h
      exact ⟨Nat.succ_pos n, by simp [read, hb]⟩
    · obtain ⟨rest, hrest, rfl⟩ := Option.map_eq_some_iff.mp h
      obtain ⟨hlt, hread⟩ := ih hrest
      have hone : m.read a 1 = [m.byte a] := by simp [read]
      have hlen : (m.byte a :: rest).length + 1 = 1 + (rest.length + 1) := by
        rw [List.length_cons]
        omega
      refine ⟨by rw [List.length_cons]; omega, ?_⟩
      rw [hlen, read_append, hone, hread]
      rfl

theorem cstrBytesUpto_ok_iff {a cap : ℕ} {s : Bytes} :
    m.cstrBytesUpto a cap = .ok s ↔ m.StringAt cap a s := by
  constructor
  · intro h
    unfold cstrBytesUpto at h
    split at h
    · cases h
    rename_i hin
    split at h
    · rename_i found hscan
      obtain rfl := Except.ok.inj h
      obtain ⟨hlt, hread⟩ := scan_found hscan
      have hlen : (found ++ [(0 : Byte)]).length = found.length + 1 := by simp
      refine ⟨holds_iff.mpr ⟨?_, ?_⟩, scan_nul hscan, ?_⟩
      · rw [hlen]
        omega
      · rw [hlen]
        exact hread
      · omega
    · cases h
  · rintro ⟨held, solid, short⟩
    have hle := held.le
    rw [List.length_append, List.length_singleton] at hle
    have hscan : m.scan (min (m.size - a) cap) a = some s := held.scan solid (by omega)
    rw [cstrBytesUpto, if_neg (by omega), hscan]

/-- The strings an array leads to are determined. -/
theorem ArrayAt.unique {a : ℕ} {s t : List Bytes} (hs : m.ArrayAt a s) (ht : m.ArrayAt a t) : s = t := by
  induction s generalizing a t with
  | nil =>
    cases t with
    | nil => rfl
    | cons x t =>
      obtain ⟨item, hne, hitem, _⟩ := ht
      exact absurd (Except.ok.inj (hitem.symm.trans hs)) hne
  | cons y s ih =>
    obtain ⟨item, hne, hitem, hstr, hrest⟩ := hs
    cases t with
    | nil => exact absurd (Except.ok.inj (hitem.symm.trans ht)) hne
    | cons x t =>
      obtain ⟨item', _, hitem', hstr', hrest'⟩ := ht
      obtain rfl : item = item' := Except.ok.inj (hitem.symm.trans hitem')
      have hfirst := (cstrBytesUpto_ok_iff.mpr hstr).symm.trans (cstrBytesUpto_ok_iff.mpr hstr')
      rw [Except.ok.inj hfirst, ih hrest hrest']

theorem ArrayAt.word {a : ℕ} {strings : List Bytes} (h : m.ArrayAt a strings) :
    ∃ item, m.u32 a = .ok item := by
  cases strings with
  | nil => exact ⟨0, h⟩
  | cons s rest =>
    obtain ⟨item, _, hitem, _⟩ := h
    exact ⟨item, hitem⟩

theorem arrayAt_zero {a : ℕ} {strings : List Bytes} (hitem : m.u32 a = .ok 0) :
    m.ArrayAt a strings ↔ strings = [] := by
  constructor
  · intro h
    cases strings with
    | nil => rfl
    | cons s rest =>
      obtain ⟨item, hne, hok, _⟩ := h
      exact absurd (Except.ok.inj (hok.symm.trans hitem)) hne
  · rintro rfl
    exact hitem

theorem arrayAt_string {a item : ℕ} {strings : List Bytes} (hitem : m.u32 a = .ok item) (hne : item ≠ 0) :
    m.ArrayAt a strings ↔ ∃ s rest, strings = s :: rest ∧ m.cstrBytesUpto item maxArgStrlen = .ok s ∧
      m.ArrayAt (a + 4) rest := by
  constructor
  · intro h
    cases strings with
    | nil => exact absurd (Except.ok.inj (hitem.symm.trans h)) hne
    | cons s rest =>
      obtain ⟨item', _, hok, hstr, hrest⟩ := h
      obtain rfl : item' = item := Except.ok.inj (hok.symm.trans hitem)
      exact ⟨s, rest, rfl, cstrBytesUpto_ok_iff.mpr hstr, hrest⟩
  · rintro ⟨s, rest, rfl, hstr, hrest⟩
    exact ⟨item, hne, hitem, cstrBytesUpto_ok_iff.mp hstr, hrest⟩

/-- What is left to take after a string that was read. -/
theorem exists_array_string {a item total n : ℕ} {s : Bytes} {out strings : List Bytes}
    (hitem : m.u32 a = .ok item) (hne : item ≠ 0) (hstr : m.cstrBytesUpto item maxArgStrlen = .ok s) :
    (∃ rest, strings = out ++ rest ∧ m.ArrayAt a rest ∧ rest.length < n + 1 ∧
      total + stringsTotal rest ≤ maxArgTotal) ↔
      ∃ rest, strings = out ++ [s] ++ rest ∧ m.ArrayAt (a + 4) rest ∧ rest.length < n ∧
        total + s.length + 1 + stringsTotal rest ≤ maxArgTotal := by
  constructor
  · rintro ⟨strings', rfl, harray, hlt, hsum⟩
    obtain ⟨s', rest, rfl, hstr', hrest⟩ := (arrayAt_string hitem hne).mp harray
    obtain rfl : s' = s := Except.ok.inj (hstr'.symm.trans hstr)
    rw [List.length_cons] at hlt
    rw [stringsTotal] at hsum
    exact ⟨rest, by simp, hrest, by omega, by omega⟩
  · rintro ⟨rest, rfl, hrest, hlt, hsum⟩
    refine ⟨s :: rest, by simp, (arrayAt_string hitem hne).mpr ⟨s, rest, rfl, hstr, hrest⟩, ?_, ?_⟩
    · rw [List.length_cons]
      omega
    · rw [stringsTotal]
      omega

/-- What the loop of `cstr_array` takes with room for `n` more strings: an
array of fewer. -/
theorem cstrArrayFrom_ok_iff (hsize : m.size ≤ 2^32) {n p total : ℕ} {out strings : List Bytes}
    (htotal : total ≤ maxArgTotal) :
    m.cstrArrayFrom n p total out = .ok strings ↔ ∃ rest, strings = out ++ rest ∧ m.ArrayAt p rest ∧
      rest.length < n ∧ total + stringsTotal rest ≤ maxArgTotal := by
  induction n generalizing p total out with
  | zero =>
    constructor
    · intro h
      cases h
    · rintro ⟨rest, _, _, hlt, _⟩
      exact absurd hlt (Nat.not_lt_zero _)
  | succ n ih =>
    -- a refusal is right where nothing can be taken
    have refused : ∀ {e : Errno} {P : List Bytes → Prop}, (∀ rest, ¬ P rest) →
        ((Except.error e : Except Errno (List Bytes)) = .ok strings ↔ ∃ rest, P rest) := by
      intro e P hnone
      constructor
      · intro h
        cases h
      · rintro ⟨rest, hrest⟩
        exact absurd hrest (hnone rest)
    rw [cstrArrayFrom]
    cases hitem : m.u32 p with
    | error e =>
      apply refused
      rintro rest ⟨_, harray, _⟩
      obtain ⟨item, hok⟩ := harray.word
      cases hitem.symm.trans hok
    | ok item =>
      dsimp only
      by_cases hz : item = 0
      · rw [if_pos hz]
        subst hz
        constructor
        · intro h
          obtain rfl := Except.ok.inj h
          exact ⟨[], (List.append_nil out).symm, hitem, Nat.succ_pos n, htotal⟩
        · rintro ⟨rest, rfl, harray, _⟩
          rw [(arrayAt_zero hitem).mp harray, List.append_nil]
      · rw [if_neg hz]
        cases hstr : m.cstrBytesUpto item maxArgStrlen with
        | error e =>
          apply refused
          rintro rest ⟨_, harray, _⟩
          obtain ⟨s, _, _, hok, _⟩ := (arrayAt_string hitem hz).mp harray
          cases hstr.symm.trans hok
        | ok s =>
          rw [exists_array_string hitem hz hstr]
          dsimp only
          split
          · apply refused
            rintro rest ⟨_, _, _, hsum⟩
            omega
          split
          · apply refused
            rintro rest ⟨_, _, hlt, _⟩
            omega
          split
          · -- the next word would lie past every memory
            apply refused
            rintro rest ⟨_, hrest, _⟩
            obtain ⟨item, hok⟩ := hrest.word
            have hnext := u32_within hok
            omega
          · exact ih (by omega)

/-- What `cstr_array` takes: as many strings as the limit says, less one. -/
theorem cstrArray_ok_iff (hsize : m.size ≤ 2^32) {a : ℕ} {strings : List Bytes} :
    m.cstrArray a = .ok strings ↔ m.Accepts a strings ∧ strings.length < maxArgs := by
  unfold cstrArray Accepts
  have hmax : 0 < maxArgs := by decide
  split
  · rename_i hz
    constructor
    · intro h
      obtain rfl := Except.ok.inj h
      exact ⟨.inl ⟨hz, rfl⟩, hmax⟩
    · rintro ⟨⟨_, rfl⟩ | ⟨hne, _⟩, _⟩
      · rfl
      · exact absurd hz hne
  · rename_i hne
    rw [cstrArrayFrom_ok_iff hsize (Nat.zero_le _)]
    constructor
    · rintro ⟨rest, rfl, harray, hlt, hsum⟩
      exact ⟨.inr ⟨hne, harray, hlt.le, by omega⟩, hlt⟩
    · rintro ⟨⟨hz, _⟩ | ⟨_, harray, _, hsum⟩, hlt⟩
      · exact absurd hz hne
      · exact ⟨strings, rfl, harray, hlt, by omega⟩

/-- One turn of the loop of `cstr_array`, on where it reads, what it has
counted and what it has: it answers, or goes on. -/
def cstrTurn (m : Mem) : ℕ × ℕ × List Bytes → Except Errno (List Bytes) ⊕ (ℕ × ℕ × List Bytes)
  | (p, total, out) =>
    match m.u32 p with
    | .error e => .inl (.error e)
    | .ok item =>
      if item = 0 then .inl (.ok out)
      else match m.cstrBytesUpto item maxArgStrlen with
        | .error e => .inl (.error (if e = .nametoolong then .toobig else e))
        | .ok s =>
          if maxArgTotal < total + s.length + 1 then .inl (.error .toobig)
          else if maxArgs ≤ (out ++ [s]).length then .inl (.error .toobig)
          else if 2^32 ≤ p + 4 then .inl (.error .fault)
          else .inr (p + 4, total + s.length + 1, out ++ [s])

/-- The loop, for as many turns as it is let take. -/
def cstrLoop (m : Mem) : ℕ → ℕ × ℕ × List Bytes → Option (Except Errno (List Bytes))
  | 0, _ => none
  | turns + 1, c =>
    match m.cstrTurn c with
    | .inl answer => some answer
    | .inr c => cstrLoop m turns c

/-- The loop ends by itself before the array is longer than the limit. -/
theorem cstrLoop_ends {n turns p total : ℕ} {out : List Bytes} (hout : out.length + n = maxArgs) (hn : 0 < n)
    (hturns : n ≤ turns) : m.cstrLoop turns (p, total, out) = some (m.cstrArrayFrom n p total out) := by
  induction n generalizing turns p total out with
  | zero => exact absurd hn (Nat.lt_irrefl 0)
  | succ n ih =>
    obtain ⟨turns, rfl⟩ : ∃ k, turns = k + 1 := ⟨turns - 1, by omega⟩
    rw [cstrLoop, cstrArrayFrom, cstrTurn]
    cases m.u32 p with
    | error e => rfl
    | ok item =>
      dsimp only
      by_cases hz : item = 0
      · rw [if_pos hz, if_pos hz]
      · rw [if_neg hz, if_neg hz]
        cases m.cstrBytesUpto item maxArgStrlen with
        | error e => rfl
        | ok s =>
          have hlen : (out ++ [s]).length = out.length + 1 := by simp
          have hlast : maxArgs ≤ (out ++ [s]).length ↔ n = 0 := by omega
          simp only [hlast]
          by_cases hover : maxArgTotal < total + s.length + 1
          · rw [if_pos hover, if_pos hover]
          by_cases hn0 : n = 0
          · rw [if_neg hover, if_neg hover, if_pos hn0, if_pos hn0]
          by_cases hp : 2^32 ≤ p + 4
          · rw [if_neg hover, if_neg hover, if_neg hn0, if_neg hn0, if_pos hp, if_pos hp]
          · rw [if_neg hover, if_neg hover, if_neg hn0, if_neg hn0, if_neg hp, if_neg hp]
            exact ih (by omega) (Nat.pos_of_ne_zero hn0) (by omega)

/-- What `cstr_array` is to do with the argument `a`: take exactly the arrays
within the limits, byte for byte, and end in any case. -/
structure Exact (m : Mem) (a : ℕ) : Prop where
  takes : ∀ strings, m.cstrArray a = .ok strings ↔ m.Accepts a strings
  ends : a ≠ 0 → ∀ turns, maxArgs ≤ turns → m.cstrLoop turns (a, 0, []) = some (m.cstrArray a)

theorem cstrArray_ends {a : ℕ} (h : a ≠ 0) {turns : ℕ} (hturns : maxArgs ≤ turns) :
    m.cstrLoop turns (a, 0, []) = some (m.cstrArray a) := by
  have hcall : m.cstrArray a = m.cstrArrayFrom maxArgs a 0 [] := if_neg h
  rw [hcall]
  exact cstrLoop_ends (Nat.zero_add _) (by decide) hturns

/-- `cstr_array` takes exactly the arrays within its limits, unless the array
has exactly as many strings as the limit allows: that one it refuses. -/
theorem cstr_array_exact_iff (hsize : m.size ≤ 2^32) (a : ℕ) :
    m.Exact a ↔ ∀ strings, m.Accepts a strings → strings.length ≠ maxArgs := by
  constructor
  · intro h strings hacc hlen
    have hlt := ((cstrArray_ok_iff hsize).mp ((h.takes strings).mpr hacc)).2
    omega
  · intro h
    refine ⟨fun strings => ?_, fun hne turns => cstrArray_ends hne⟩
    rw [cstrArray_ok_iff hsize]
    refine ⟨And.left, fun hacc => ⟨hacc, ?_⟩⟩
    have hle : strings.length ≤ maxArgs := by
      rcases hacc with ⟨_, rfl⟩ | ⟨_, _, hle, _⟩
      · exact Nat.zero_le _
      · exact hle
    exact lt_of_le_of_ne hle (h strings hacc)

/-- A page with an array of the strings `a` and `b` at `4`. -/
def twoStrings : Mem := (⟨page, fun _ => 0⟩ : Mem).write 4
    (toLe 4 16 ++ toLe 4 18 ++ toLe 4 0 ++ ascii "a" ++ [0] ++ ascii "b")

theorem cstr_array_exact_iff_two : twoStrings.Exact 4 ∧ twoStrings.cstrArray 4 = .ok
    [ascii "a", ascii "b"] := by
  have hread : twoStrings.cstrArray 4 = .ok [ascii "a", ascii "b"] := by decide +kernel
  have hsize : twoStrings.size ≤ 2^32 := by decide
  refine ⟨(cstr_array_exact_iff hsize 4).mpr fun strings hacc => ?_, hread⟩
  obtain ⟨⟨_, hcases⟩ | ⟨_, htwo, _⟩, _⟩ := (cstrArray_ok_iff hsize).mp hread
  · cases hcases
  rcases hacc with ⟨hzero, _⟩ | ⟨_, harray, _⟩
  · cases hzero
  · rw [harray.unique htwo]
    decide

/-- A page with an array at `16` of exactly as many words as the limit, each
leading to the empty string at `4`. -/
def fullArray : Mem :=
  ⟨page, fun a => if 16 ≤ a ∧ a < 16 + 4 * maxArgs ∧ a % 4 = 0 then 4 else 0⟩

theorem fullArray_word {i : ℕ} (hi : i < maxArgs) : fullArray.u32 (16 + 4 * i) = .ok 4 := by
  have hmax : maxArgs = 4096 := rfl
  have hpage : fullArray.size = 65536 := rfl
  have hread : fullArray.read (16 + 4 * i) 4 = [4, 0, 0, 0] := by
    simp only [read, fullArray, List.range_succ, List.range_zero, List.nil_append, List.cons_append,
      List.map_cons, List.map_nil]
    rw [if_pos (by omega), if_neg (by omega), if_neg (by omega), if_neg (by omega)]
  rw [u32, bytes, if_pos (by omega), hread]
  rfl

theorem fullArray_end : fullArray.u32 (16 + 4 * maxArgs) = .ok 0 := by
  have hmax : maxArgs = 4096 := rfl
  have hpage : fullArray.size = 65536 := rfl
  have hread : fullArray.read (16 + 4 * maxArgs) 4 = [0, 0, 0, 0] := by
    simp only [read, fullArray, List.range_succ, List.range_zero, List.nil_append, List.cons_append,
      List.map_cons, List.map_nil]
    rw [if_neg (by omega), if_neg (by omega), if_neg (by omega), if_neg (by omega)]
  rw [u32, bytes, if_pos (by omega), hread]
  rfl

theorem fullArray_string : fullArray.StringAt maxArgStrlen 4 [] :=
  ⟨holds_iff.mpr ⟨by decide, by decide⟩, List.not_mem_nil, by decide⟩

theorem fullArray_array {n : ℕ} (hn : n ≤ maxArgs) :
    fullArray.ArrayAt (16 + 4 * (maxArgs - n)) (List.replicate n []) := by
  induction n with
  | zero => exact fullArray_end
  | succ n ih =>
    refine ⟨4, by decide, fullArray_word (by omega), fullArray_string, ?_⟩
    have hnext : 16 + 4 * (maxArgs - (n + 1)) + 4 = 16 + 4 * (maxArgs - n) := by omega
    rw [hnext]
    exact ih (by omega)

theorem stringsTotal_replicate (n : ℕ) : stringsTotal (List.replicate n []) = n := by
  induction n with
  | zero => rfl
  | succ n ih =>
    rw [List.replicate_succ, stringsTotal, ih, List.length_nil]
    omega

/-- An array of exactly `MAX_ARGS` strings is refused. -/
theorem cstr_array_refuses_limit : ∃ m : Mem, m.size ≤ 2^32 ∧ ¬ m.Exact 16 := by
  refine ⟨fullArray, by decide, fun h => ?_⟩
  have hacc : fullArray.Accepts 16 (List.replicate maxArgs []) := by
    refine .inr ⟨by decide, ?_, (List.length_replicate).le, ?_⟩
    · have h := fullArray_array (le_refl maxArgs)
      rwa [Nat.sub_self, Nat.mul_zero, Nat.add_zero] at h
    · rw [stringsTotal_replicate]
      decide
  have hlt := ((cstrArray_ok_iff (m := fullArray) (by decide)).mp ((h.takes _).mpr hacc)).2
  rw [List.length_replicate] at hlt
  exact absurd hlt (Nat.lt_irrefl _)

end Mem
end Wasmux
