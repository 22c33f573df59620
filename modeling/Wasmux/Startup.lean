import Wasmux.Dispatch

/-!
# What a starting guest reads

`_start` puts the block it gets from the `args` import on its stack and hands
the address of its second word to the C library, which finds everything else by
following pointers. `startup` does the same, and finds what the block was laid
out from.
-/

set_option autoImplicit false

namespace Wasmux
open Abi

namespace Mem
variable {m : Mem}

/-- These bytes lie at `a`, inside the memory. -/
def Holds (m : Mem) (a : ℕ) (l : Bytes) : Prop := m.bytes a l.length = .ok l

theorem holds_iff {a : ℕ} {l : Bytes} :
    m.Holds a l ↔ a + l.length ≤ m.size ∧ m.read a l.length = l := by
  unfold Holds bytes
  split <;> simp_all

theorem read_append (m : Mem) (a n k : ℕ) : m.read a (n + k) = m.read a n ++ m.read (a + n) k := by
  unfold read
  rw [List.range_add, List.map_append, List.map_map]
  simp [Function.comp_def, Nat.add_assoc]

theorem read_length (m : Mem) (a n : ℕ) : (m.read a n).length = n := by simp [read]

theorem holds_append {a : ℕ} {l r : Bytes} :
    m.Holds a (l ++ r) ↔ m.Holds a l ∧ m.Holds (a + l.length) r := by
  simp only [holds_iff, List.length_append, read_append]
  constructor
  · rintro ⟨hle, heq⟩
    obtain ⟨hl, hr⟩ := List.append_inj heq (read_length m a l.length)
    exact ⟨⟨by omega, hl⟩, by omega, hr⟩
  · rintro ⟨⟨_, hl⟩, hle, hr⟩
    exact ⟨by omega, by rw [hl, hr]⟩

theorem Holds.le {a : ℕ} {l : Bytes} (h : m.Holds a l) : a + l.length ≤ m.size := (holds_iff.mp h).1

theorem Holds.left {a : ℕ} {l r : Bytes} (h : m.Holds a (l ++ r)) : m.Holds a l := (holds_append.mp h).1

theorem Holds.right {a : ℕ} {l r : Bytes} (h : m.Holds a (l ++ r)) : m.Holds (a + l.length) r :=
  (holds_append.mp h).2

theorem Holds.word {a n : ℕ} (h : m.Holds a (toLe 4 n)) : m.u32 a = .ok (n % 2^32) := by
  unfold Holds at h
  rw [toLe_length] at h
  rw [u32, h]
  exact congrArg Except.ok (ofLe_toLe 4 n)

theorem holds_cons {a : ℕ} {b : Byte} {l : Bytes} (h : m.Holds a (b :: l)) :
    m.byte a = b ∧ m.Holds (a + 1) l := by
  have hb : m.read a 1 = [b] := (holds_iff.mp (Holds.left (l := [b]) (r := l) h)).2
  exact ⟨by simpa [read] using hb, Holds.right (l := [b]) (r := l) h⟩

theorem Holds.scan {a : ℕ} {s : Bytes} (h : m.Holds a (s ++ [0])) (hs : 0 ∉ s) {n : ℕ} (hn : s.length < n) :
    m.scan n a = some s := by
  induction s generalizing a n with
  | nil =>
    obtain ⟨n, rfl⟩ : ∃ k, n = k + 1 := ⟨n - 1, by simp at hn; omega⟩
    have hb := (holds_cons h).1
    simp [Mem.scan, hb]
  | cons b s ih =>
    obtain ⟨n, rfl⟩ : ∃ k, n = k + 1 := ⟨n - 1, by simp at hn; omega⟩
    obtain ⟨hb, hrest⟩ := holds_cons h
    have hne : b ≠ 0 := fun h0 => hs (by simp [h0])
    have hn' : s.length < n := by simpa using hn
    simp [Mem.scan, hb, hne, ih hrest (fun hmem => hs (List.mem_cons_of_mem _ hmem)) hn']

theorem scan_nul {n a : ℕ} {s : Bytes} (h : m.scan n a = some s) : 0 ∉ s := by
  induction n generalizing a s with
  | zero => cases h
  | succ n ih =>
    rw [Mem.scan] at h
    split at h
    · obtain rfl := Option.some.inj h
      exact List.not_mem_nil
    · rename_i hne
      obtain ⟨rest, hrest, rfl⟩ := Option.map_eq_some_iff.mp h
      intro hmem
      rcases List.mem_cons.mp hmem with h0 | hmem
      · exact hne h0.symm
      · exact ih hrest hmem

theorem cstrBytesUpto_nul {a cap : ℕ} {s : Bytes} (h : m.cstrBytesUpto a cap = .ok s) : 0 ∉ s := by
  unfold cstrBytesUpto at h
  split at h
  · cases h
  split at h
  · rename_i found hscan
    obtain rfl := Except.ok.inj h
    exact scan_nul hscan
  · cases h

/-- Nor has any string of a vector that was read. -/
theorem cstrArray_nul {a : ℕ} {l : List Bytes} (h : m.cstrArray a = .ok l) : ∀ s ∈ l, 0 ∉ s := by
  have from_nul : ∀ n p total out, m.cstrArrayFrom n p total out = .ok l → (∀ s ∈ out, 0 ∉ s) →
      ∀ s ∈ l, 0 ∉ s := by
    intro n
    induction n with
    | zero => exact fun p total out h => by cases h
    | succ n ih =>
      intro p total out h hout
      rw [cstrArrayFrom] at h
      split at h
      · cases h
      split at h
      · obtain rfl := Except.ok.inj h
        exact hout
      split at h
      · cases h
      rename_i s hs
      split at h
      · cases h
      split at h
      · cases h
      split at h
      · cases h
      · refine ih _ _ _ h fun t ht => ?_
        rcases List.mem_append.mp ht with ht | ht
        · exact hout t ht
        · rw [List.mem_singleton.mp ht]
          exact cstrBytesUpto_nul hs
  unfold cstrArray at h
  split at h
  · obtain rfl := Except.ok.inj h
    exact fun s hs => absurd hs List.not_mem_nil
  · exact from_nul _ _ _ _ h fun s hs => absurd hs List.not_mem_nil

def string (m : Mem) (a : ℕ) : Option Bytes := m.scan (m.size - a) a

theorem Holds.string {a : ℕ} {s : Bytes} (h : m.Holds a (s ++ [0])) (hs : 0 ∉ s) : m.string a = some s := by
  have hle := h.le
  rw [List.length_append, List.length_singleton] at hle
  exact h.scan hs (by omega)

/-- The strings a vector of pointers at `p` leads to, each with its address,
and where the vector's NULL ends. -/
def vector (m : Mem) : ℕ → ℕ → Option (List (ℕ × Bytes) × ℕ)
  | 0, _ => none
  | turns + 1, p =>
    match m.u32 p with
    | .error _ => none
    | .ok a =>
      if a = 0 then some ([], p + 4)
      else match m.string a, vector m turns (p + 4) with
        | some s, some (rest, last) => some ((a, s) :: rest, last)
        | _, _ => none

/-- What an auxiliary vector at `p` has under `key`. -/
def auxval (m : Mem) (key : ℕ) : ℕ → ℕ → Option ℕ
  | 0, _ => none
  | turns + 1, p =>
    match m.u32 p, m.u32 (p + 4) with
    | .ok k, .ok value =>
      if k = key then some value else if k = atNull then none else auxval m key turns (p + 8)
    | _, _ => none

end Mem

/-- What a starting guest finds: strings with the addresses they lie at, and
where its random bytes lie. -/
structure Startup where
  argc : ℕ
  argv : List (ℕ × Bytes)
  envp : List (ℕ × Bytes)
  execfn : ℕ × Bytes
  random : ℕ

/-- What a guest finds by following the pointers of the block at `base`. -/
def Mem.startup (m : Mem) (base : ℕ) : Option Startup := do
  let argc ← (m.u32 base).toOption
  let argv ← m.vector m.size (base + 4)
  let envp ← m.vector m.size argv.2
  let execfn ← m.auxval atExecfn m.size envp.2
  let exe ← m.string execfn
  let random ← m.auxval atRandom m.size envp.2
  return ⟨argc, argv.1, envp.1, (execfn, exe), random⟩

namespace Mem
variable {m : Mem}

/-- Pointers to strings, with the NULL after them, make a vector of the strings. -/
theorem Holds.vector {p : ℕ} {pointers : List ℕ} {strings : List Bytes}
    (hs : List.Forall₂ (fun a s => a ≠ 0 ∧ a < 2^32 ∧ m.string a = some s) pointers strings)
    (h : m.Holds p (pointers.flatMap (toLe 4) ++ toLe 4 0)) {turns : ℕ} (ht : pointers.length < turns) :
    m.vector turns p = some (pointers.zip strings, p + 4 * pointers.length + 4) := by
  induction hs generalizing p turns with
  | nil =>
    obtain ⟨turns, rfl⟩ : ∃ k, turns = k + 1 := ⟨turns - 1, by simp at ht; omega⟩
    have hw : m.u32 p = .ok (0 % 2^32) := Holds.word h
    simp [Mem.vector, hw]
  | @cons a s pointers strings ha _ ih =>
    obtain ⟨turns, rfl⟩ : ∃ k, turns = k + 1 := ⟨turns - 1, by simp at ht; omega⟩
    obtain ⟨hne, hlt, hstr⟩ := ha
    rw [List.flatMap_cons, List.append_assoc] at h
    have hw := h.left.word
    rw [Nat.mod_eq_of_lt hlt] at hw
    have hrest := h.right
    rw [toLe_length] at hrest
    have hnext := ih hrest (by simpa using ht)
    simp only [Mem.vector, hw, hne, if_false, hstr, hnext, List.zip_cons_cons, List.length_cons]
    congr 2
    omega

def auxEntry (e : ℕ × ℕ) : Bytes := toLe 4 e.1 ++ toLe 4 e.2

theorem auxEntry_length (e : ℕ × ℕ) : (auxEntry e).length = 8 := by
  simp [auxEntry, toLe_length]

/-- The first entry under a key is what is found under it. -/
theorem Holds.auxval {key value : ℕ} {before after : List (ℕ × ℕ)} (hkey : key < 2^32)
    (hbefore : ∀ e ∈ before, e.1 < 2^32 ∧ e.1 ≠ key ∧ e.1 ≠ atNull) {p : ℕ}
    (h : m.Holds p ((before ++ (key, value) :: after).flatMap auxEntry)) {turns : ℕ}
    (ht : before.length < turns) :
    m.auxval key turns p = some (value % 2^32) := by
  induction before generalizing p turns with
  | nil =>
    obtain ⟨turns, rfl⟩ : ∃ k, turns = k + 1 := ⟨turns - 1, by simp at ht; omega⟩
    rw [List.nil_append, List.flatMap_cons, auxEntry, List.append_assoc] at h
    have hk := h.left.word
    have hv := h.right.left.word
    rw [toLe_length] at hv
    rw [Nat.mod_eq_of_lt hkey] at hk
    simp [Mem.auxval, hk, hv]
  | cons e before ih =>
    obtain ⟨turns, rfl⟩ : ∃ k, turns = k + 1 := ⟨turns - 1, by simp at ht; omega⟩
    obtain ⟨hlt, hne, hnull⟩ := hbefore e (List.mem_cons_self ..)
    rw [List.cons_append, List.flatMap_cons] at h
    have hrest := h.right
    rw [auxEntry_length] at hrest
    have hentry := h.left
    rw [auxEntry] at hentry
    have hk := hentry.left.word
    have hv := hentry.right.word
    rw [toLe_length] at hv
    rw [Nat.mod_eq_of_lt hlt] at hk
    have hnext := ih (fun e he => hbefore e (List.mem_cons_of_mem _ he)) hrest (by simpa using ht)
    simp [Mem.auxval, hk, hv, hne, hnull, hnext]

end Mem

def stored (strings : List Bytes) : Bytes := strings.flatMap fun s => s ++ [0]

theorem stored_append (l r : List Bytes) : stored (l ++ r) = stored l ++ stored r := List.flatMap_append

theorem stringOffsets_length (start : ℕ) (l : List Bytes) : (stringOffsets start l).length = l.length := by
  induction l generalizing start with
  | nil => rfl
  | cons s l ih => simp [stringOffsets, ih]

theorem stringOffsets_append (start : ℕ) (l r : List Bytes) :
    stringOffsets start (l ++ r) = stringOffsets start l ++ stringOffsets (start + (stored l).length) r := by
  induction l generalizing start with
  | nil => simp [stringOffsets, stored]
  | cons s l ih =>
    rw [List.cons_append, stringOffsets, stringOffsets, List.cons_append, ih]
    congr 3
    simp [stored]
    omega

theorem stringOffsets_shift (base start : ℕ) (l : List Bytes) :
    (stringOffsets start l).map (base + ·) = stringOffsets (base + start) l := by
  induction l generalizing start with
  | nil => rfl
  | cons s l ih => simp only [stringOffsets, List.map_cons, ih, Nat.add_assoc]

theorem stringOffsets_mem {start a : ℕ} {l : List Bytes} (h : a ∈ stringOffsets start l) :
    start ≤ a ∧ a < start + (stored l).length := by
  induction l generalizing start with
  | nil => cases h
  | cons s l ih =>
    have hlen : (stored (s :: l)).length = s.length + 1 + (stored l).length := by
      rw [stored, List.flatMap_cons, List.length_append, List.length_append, List.length_singleton]
      rfl
    rcases List.mem_cons.mp h with rfl | h
    · omega
    · obtain ⟨hle, hlt⟩ := ih h
      omega

theorem Mem.Holds.strings {m : Mem} {a : ℕ} {l : List Bytes} (h : m.Holds a (stored l)) :
    List.Forall₂ (fun p s => m.Holds p (s ++ [0])) (stringOffsets a l) l := by
  induction l generalizing a with
  | nil => exact .nil
  | cons s l ih =>
    have hs : m.Holds a ((s ++ [0]) ++ stored l) := h
    have hrest := hs.right
    rw [List.length_append, List.length_singleton, ← Nat.add_assoc] at hrest
    exact .cons hs.left (ih hrest)

section
variable (argv envp : List Bytes) (exe : Text) (seed : Bytes) (base : ℕ)

def startHeader : ℕ := (argv.length + envp.length + 3 + auxv.length * 2) * 4

def startSize : ℕ := startHeader argv envp + 16 + (stored (argv ++ envp)).length + exe.length + 1

/-- The auxiliary vector with its addresses filled in. -/
def startAuxv : List (ℕ × ℕ) :=
  auxv.map fun e =>
    (e.1, if e.1 = atRandom then wrapAdd base (startHeader argv envp)
      else if e.1 = atExecfn then wrapAdd base (startHeader argv envp + 16 + (stored (argv ++ envp)).length)
      else e.2)

/-- The addresses of the strings of a list that is laid out from `start` on in
a block at `base`, as the block has them. -/
def startPointers (start : ℕ) (l : List Bytes) : List ℕ := (stringOffsets start l).map (wrapAdd base)

/-- The parts of the block, in order. -/
theorem startBlock_eq : startBlock argv envp exe seed base =
    toLe 4 argv.length ++
    ((startPointers base (startHeader argv envp + 16) argv).flatMap (toLe 4) ++ toLe 4 0) ++
    ((startPointers base (startHeader argv envp + 16 + (stored argv).length) envp).flatMap (toLe 4) ++
      toLe 4 0) ++
    (startAuxv argv envp base).flatMap Mem.auxEntry ++ seed ++ stored (argv ++ envp) ++ (exe ++ [0]) := by
  have hlen := stringOffsets_length (startHeader argv envp + 16) argv
  have htake : (stringOffsets (startHeader argv envp + 16) (argv ++ envp)).take argv.length =
      stringOffsets (startHeader argv envp + 16) argv := by
    rw [stringOffsets_append, ← hlen, List.take_left']
    rfl
  have hdrop : (stringOffsets (startHeader argv envp + 16) (argv ++ envp)).drop argv.length =
      stringOffsets (startHeader argv envp + 16 + (stored argv).length) envp := by
    rw [stringOffsets_append, ← hlen, List.drop_left']
    rfl
  have haux : (startAuxv argv envp base).flatMap Mem.auxEntry = auxv.flatMap fun e => toLe 4 e.1 ++
      (if e.1 = atRandom then toLe 4 (wrapAdd base (startHeader argv envp))
       else if e.1 = atExecfn then
         toLe 4 (wrapAdd base (startHeader argv envp + 16 + (stored (argv ++ envp)).length))
       else toLe 4 e.2) := by
    rw [startAuxv, List.flatMap_map]
    congr 1
    funext e
    simp only [Mem.auxEntry]
    split
    · rfl
    · split <;> rfl
  rw [haux]
  unfold startBlock
  simp only [startPointers, List.flatMap_map, ← htake, ← hdrop, List.append_assoc]
  rfl

theorem flatMap_toLe_length (l : List ℕ) : (l.flatMap (toLe 4)).length = 4 * l.length := by
  induction l with
  | nil => rfl
  | cons n l ih =>
    rw [List.flatMap_cons, List.length_append, toLe_length, ih, List.length_cons]
    omega

theorem flatMap_auxEntry_length (l : List (ℕ × ℕ)) : (l.flatMap Mem.auxEntry).length = 8 * l.length := by
  induction l with
  | nil => rfl
  | cons e l ih =>
    rw [List.flatMap_cons, List.length_append, Mem.auxEntry_length, ih, List.length_cons]
    omega

theorem startPointers_length (start : ℕ) (l : List Bytes) :
    (startPointers base start l).length = l.length := by
  rw [startPointers, List.length_map, stringOffsets_length]

theorem startAuxv_length : (startAuxv argv envp base).length = auxv.length := List.length_map _

theorem startBlock_length (hseed : seed.length = 16) :
    (startBlock argv envp exe seed base).length = startSize argv envp exe := by
  rw [startBlock_eq]
  simp only [List.length_append, toLe_length, flatMap_toLe_length, flatMap_auxEntry_length,
    startPointers_length, startAuxv_length, hseed, startSize, startHeader, List.length_singleton]
  omega

end

/-- What a guest should find in a block of `size` bytes at `base`: the strings
in their order, a NULL after each vector, and sixteen bytes that are no part of
any string. -/
structure Startup.Carries (st : Startup) (m : Mem) (base size : ℕ) (argv envp : List Bytes)
    (exe : Text) : Prop where
  counted : st.argc = argv.length
  arguments : st.argv.map Prod.snd = argv
  argumentsEnd : m.u32 (base + 4 + 4 * argv.length) = .ok 0
  environment : st.envp.map Prod.snd = envp
  environmentEnd : m.u32 (base + 8 + 4 * argv.length + 4 * envp.length) = .ok 0
  path : st.execfn.2 = exe
  random : base ≤ st.random ∧ st.random + 16 ≤ base + size
  within : ∀ s ∈ st.execfn :: (st.argv ++ st.envp), base ≤ s.1 ∧ s.1 + s.2.length + 1 ≤ base + size
  apart : ∀ s ∈ st.execfn :: (st.argv ++ st.envp), st.random + 16 ≤ s.1

section
variable {m : Mem} {base start : ℕ} {l : List Bytes}

theorem startPointers_eq (h : base + start + (stored l).length ≤ 2^32) :
    startPointers base start l = stringOffsets (base + start) l := by
  rw [startPointers, ← stringOffsets_shift]
  apply List.map_congr_left
  intro a ha
  have hlt := (stringOffsets_mem ha).2
  exact Nat.mod_eq_of_lt (by omega)

theorem strings_found (hsize : m.size ≤ 2^32) (hstart : 0 < start) (hnul : ∀ s ∈ l, 0 ∉ s)
    (h : m.Holds start (stored l)) :
    List.Forall₂ (fun a s => a ≠ 0 ∧ a < 2^32 ∧ m.string a = some s) (stringOffsets start l) l := by
  have hend := h.le
  rw [List.forall₂_iff_get]
  refine ⟨stringOffsets_length start l, fun i hi hi' => ?_⟩
  have hmem := stringOffsets_mem (List.get_mem (stringOffsets start l) ⟨i, hi⟩)
  have hholds := (List.forall₂_iff_get.mp h.strings).2 i hi hi'
  exact ⟨by omega, by omega, hholds.string (hnul _ (List.get_mem l ⟨i, hi'⟩))⟩

theorem strings_placed (start : ℕ) (l : List Bytes) :
    ∀ s ∈ (stringOffsets start l).zip l, start ≤ s.1 ∧ s.1 + s.2.length + 1 ≤ start + (stored l).length := by
  induction l generalizing start with
  | nil => simp [stringOffsets]
  | cons t l ih =>
    have hlen : (stored (t :: l)).length = t.length + 1 + (stored l).length := by
      rw [stored, List.flatMap_cons, List.length_append, List.length_append, List.length_singleton]
      rfl
    intro s hs
    rcases List.mem_cons.mp hs with rfl | hs
    · dsimp only
      omega
    · obtain ⟨hle, hend⟩ := ih _ s hs
      omega

end

theorem startAuxv_random (argv envp : List Bytes) (base : ℕ) : startAuxv argv envp base =
    [(atPagesz, 4096), (atClktck, 100), (atUid, 0), (atEuid, 0), (atGid, 0), (atEgid, 0), (atSecure, 0)] ++
    (atRandom, wrapAdd base (startHeader argv envp)) ::
    [(atExecfn, wrapAdd base (startHeader argv envp + 16 + (stored (argv ++ envp)).length)), (atNull, 0)] :=
    rfl

theorem startAuxv_execfn (argv envp : List Bytes) (base : ℕ) : startAuxv argv envp base =
    [(atPagesz, 4096), (atClktck, 100), (atUid, 0), (atEuid, 0), (atGid, 0), (atEgid, 0), (atSecure, 0),
      (atRandom, wrapAdd base (startHeader argv envp))] ++
    (atExecfn, wrapAdd base (startHeader argv envp + 16 + (stored (argv ++ envp)).length)) ::
    [(atNull, 0)] := rfl

structure Mem.Parts (m : Mem) (base : ℕ) (argv envp : List Bytes) (exe : Text) (seed : Bytes) : Prop where
  count : m.Holds base (toLe 4 argv.length)
  arguments : m.Holds (base + 4)
    ((stringOffsets (base + startHeader argv envp + 16) argv).flatMap (toLe 4) ++ toLe 4 0)
  environment : m.Holds (base + 8 + 4 * argv.length)
    ((stringOffsets (base + startHeader argv envp + 16 + (stored argv).length) envp).flatMap
      (toLe 4) ++ toLe 4 0)
  auxiliary : m.Holds (base + 12 + 4 * argv.length + 4 * envp.length)
    ((startAuxv argv envp base).flatMap Mem.auxEntry)
  random : m.Holds (base + startHeader argv envp) seed
  strings : m.Holds (base + startHeader argv envp + 16) (stored argv)
  more : m.Holds (base + startHeader argv envp + 16 + (stored argv).length) (stored envp)
  file : m.Holds (base + startHeader argv envp + 16 + (stored (argv ++ envp)).length) (exe ++ [0])

theorem startHeader_eq (argv envp : List Bytes) :
    startHeader argv envp = 4 * argv.length + 4 * envp.length + 92 := by
  simp only [startHeader, auxv, List.length_cons, List.length_nil]
  omega

theorem stored_append_length (l r : List Bytes) :
    (stored (l ++ r)).length = (stored l).length + (stored r).length := by
  rw [stored_append, List.length_append]

section
variable {m : Mem} {base : ℕ} {argv envp : List Bytes} {exe : Text} {seed : Bytes}

theorem Mem.Holds.parts (h : m.Holds base (startBlock argv envp exe seed base)) (hseed : seed.length = 16)
    (hfits : base + startSize argv envp exe ≤ 2^32) : m.Parts base argv envp exe seed := by
  have hstored := stored_append_length argv envp
  have hwords := startHeader_eq argv envp
  unfold startSize at hfits
  rw [startBlock_eq, startPointers_eq (by omega), startPointers_eq (by omega)] at h
  obtain ⟨h, hfile⟩ := holds_append.mp h
  obtain ⟨h, hstrings⟩ := holds_append.mp h
  obtain ⟨h, hrandom⟩ := holds_append.mp h
  obtain ⟨h, hauxiliary⟩ := holds_append.mp h
  obtain ⟨h, henvironment⟩ := holds_append.mp h
  obtain ⟨hcount, harguments⟩ := holds_append.mp h
  have hten : auxv.length = 10 := rfl
  simp only [List.length_append, toLe_length, flatMap_toLe_length, flatMap_auxEntry_length,
    stringOffsets_length, startAuxv_length, hseed,
    hten] at harguments henvironment hauxiliary hrandom hstrings hfile
  rw [stored_append] at hstrings
  obtain ⟨hstrings, hmore⟩ := holds_append.mp hstrings
  have moved : ∀ {a b : ℕ} {l : Bytes}, m.Holds a l → a = b → m.Holds b l := fun h hab => hab ▸ h
  simp only [← Nat.add_assoc] at harguments henvironment
  exact
    { count := hcount
      arguments := harguments
      environment := moved henvironment (by omega)
      auxiliary := moved hauxiliary (by omega)
      random := moved hrandom (by omega)
      strings := moved hstrings (by omega)
      more := moved hmore (by omega)
      file := moved hfile (by omega) }

/-- What lies in a block at `base`, and where. -/
def startFound (argv envp : List Bytes) (exe : Text) (base : ℕ) : Startup :=
  let strings := base + startHeader argv envp + 16
  ⟨argv.length, (stringOffsets strings argv).zip argv,
    (stringOffsets (strings + (stored argv).length) envp).zip envp,
    (strings + (stored (argv ++ envp)).length, exe), base + startHeader argv envp⟩

/-- Following the pointers of a block leads to all that lies in it. -/
theorem startup_found (hparts : m.Parts base argv envp exe seed)
    (hend : base + startSize argv envp exe ≤ m.size) (hsize : m.size ≤ 2^32)
    (hnul : ∀ s ∈ argv ++ envp, 0 ∉ s) (hexe : 0 ∉ exe) :
    m.startup base = some (startFound argv envp exe base) := by
  have htotal : startSize argv envp exe =
    startHeader argv envp + 16 + (stored (argv ++ envp)).length + exe.length + 1 := rfl
  have hstored := stored_append_length argv envp
  have hwords := startHeader_eq argv envp
  -- `argc` and the two vectors
  have hcount := hparts.count.word
  rw [Nat.mod_eq_of_lt (by omega)] at hcount
  have hargv : m.vector m.size (base + 4) = some (_, base + 4 + 4 * (stringOffsets _ argv).length + 4) :=
    hparts.arguments.vector (strings_found hsize (by omega) (fun s hs => hnul s (List.mem_append_left _ hs))
      hparts.strings) (by rw [stringOffsets_length]; omega)
  have henvp : m.vector m.size (base + 8 + 4 * argv.length) =
      some (_, base + 8 + 4 * argv.length + 4 * (stringOffsets _ envp).length + 4) :=
    hparts.environment.vector (strings_found hsize (by omega)
      (fun s hs => hnul s (List.mem_append_right _ hs))
      hparts.more) (by rw [stringOffsets_length]; omega)
  rw [stringOffsets_length, show base + 4 + 4 * argv.length + 4 = base + 8 + 4 * argv.length by
    omega] at hargv
  rw [stringOffsets_length, show base + 8 + 4 * argv.length + 4 * envp.length + 4 =
    base + 12 + 4 * argv.length + 4 * envp.length by omega] at henvp
  -- the two addresses of the auxiliary vector
  have hrandom : m.auxval atRandom m.size (base + 12 + 4 * argv.length + 4 * envp.length) =
      some (base + startHeader argv envp) := by
    have hholds := hparts.auxiliary
    rw [startAuxv_random] at hholds
    rw [hholds.auxval (by decide) (by decide) (by simp; omega), wrapAdd, Nat.mod_mod,
      Nat.mod_eq_of_lt (by omega)]
  have hexecfn : m.auxval atExecfn m.size (base + 12 + 4 * argv.length + 4 * envp.length) =
      some (base + startHeader argv envp + 16 + (stored (argv ++ envp)).length) := by
    have hholds := hparts.auxiliary
    rw [startAuxv_execfn] at hholds
    rw [hholds.auxval (by decide)
      (by simp [atPagesz, atClktck, atUid, atEuid, atGid, atEgid, atSecure, atRandom, atExecfn, atNull])
      (by simp; omega), wrapAdd, Nat.mod_mod, Nat.mod_eq_of_lt (by omega)]
    congr 1
    omega
  have hfile := hparts.file.string hexe
  simp only [Mem.startup, hcount, hargv, henvp, hexecfn, hfile, hrandom, Except.toOption, Option.bind_eq_bind,
    Option.bind_some, pure, startFound]

theorem startFound_carries (hparts : m.Parts base argv envp exe seed) :
    (startFound argv envp exe base).Carries m base (startSize argv envp exe) argv envp exe := by
  have htotal : startSize argv envp exe =
    startHeader argv envp + 16 + (stored (argv ++ envp)).length + exe.length + 1 := rfl
  have hstored := stored_append_length argv envp
  have hplaced : ∀ s ∈ (startFound argv envp exe base).execfn ::
      ((startFound argv envp exe base).argv ++ (startFound argv envp exe base).envp),
      base + startHeader argv envp + 16 ≤ s.1 ∧ s.1 + s.2.length + 1 ≤ base + startSize argv envp exe := by
    intro s hs
    rcases List.mem_cons.mp hs with rfl | hs
    · simp only [startFound]
      omega
    rcases List.mem_append.mp hs with hs | hs
    · have hs := strings_placed _ _ s hs
      omega
    · have hs := strings_placed _ _ s hs
      omega
  exact
    { counted := rfl
      arguments := List.map_snd_zip (by rw [stringOffsets_length])
      argumentsEnd := by
        have h := hparts.arguments.right.word
        rwa [flatMap_toLe_length, stringOffsets_length] at h
      environment := List.map_snd_zip (by rw [stringOffsets_length])
      environmentEnd := by
        have h := hparts.environment.right.word
        rwa [flatMap_toLe_length, stringOffsets_length] at h
      path := rfl
      random := by
        simp only [startFound]
        omega
      within := fun s hs => ⟨by have := (hplaced s hs).1; omega, (hplaced s hs).2⟩
      apart := fun s hs => (hplaced s hs).1 }

theorem startup_block (h : m.Holds base (startBlock argv envp exe seed base)) (hsize : m.size ≤ 2^32)
    (hseed : seed.length = 16) (hnul : ∀ s ∈ argv ++ envp, 0 ∉ s) (hexe : 0 ∉ exe) :
    ∃ st, m.startup base = some st ∧ m.Holds st.random seed ∧
      st.Carries m base (startSize argv envp exe) argv envp exe := by
  have hend := h.le
  rw [startBlock_length argv envp exe seed base hseed] at hend
  have hparts := h.parts hseed (by omega)
  exact ⟨startFound argv envp exe base, startup_found hparts hend hsize hnul hexe, hparts.random,
    startFound_carries hparts⟩

end

end Wasmux
