import Wasmux.Faults
import Wasmux.MemVfs

/-!
# Listings of directories

`getdents64` hands out the records of a snapshot from where the description
stands, as many as fit; a program takes a block apart by the length that each
record has in it. The calls together give the snapshot, entry by entry, for as
long as no block is longer than the `i32` that says how long it is.
-/

set_option autoImplicit false

namespace Wasmux
open Effects Abi Sys

/-! ## Blocks of records -/

def direntLen (item : DirEnt) : ℕ := roundUp8 (19 + item.name.length + 1)

def direntTotal (items : List DirEnt) : ℕ := (items.map direntLen).sum

/-- The records of entries of which the first is at `pos`. -/
def direntRecords : List DirEnt → ℕ → Bytes
  | [], _ => []
  | item :: rest, pos => direntRecord item pos ++ direntRecords rest (pos + 1)

/-- The entries at the head whose records fit after `used` bytes. -/
def direntFit (capacity : ℕ) : List DirEnt → ℕ → List DirEnt
  | [], _ => []
  | item :: rest, used =>
    if capacity < used + direntLen item then [] else item :: direntFit capacity rest (used + direntLen item)

theorem roundUp8_ge (n : ℕ) : n ≤ roundUp8 n := by
  unfold roundUp8
  omega

theorem roundUp8_dvd (n : ℕ) : 8 ∣ roundUp8 n := Dvd.intro_left _ rfl

theorem direntLen_pos (item : DirEnt) : 20 + item.name.length ≤ direntLen item := by
  have := roundUp8_ge (19 + item.name.length + 1)
  unfold direntLen
  omega

theorem length_direntRecord (item : DirEnt) (pos : ℕ) : (direntRecord item pos).length = direntLen item := by
  have := direntLen_pos item
  simp only [direntRecord, List.length_append, toLe_length, List.length_replicate]
  unfold direntLen at *
  omega

theorem length_direntRecords (items : List DirEnt) (pos : ℕ) :
    (direntRecords items pos).length = direntTotal items := by
  induction items generalizing pos with
  | nil => rfl
  | cons item rest ih =>
    rw [direntRecords, List.length_append, length_direntRecord, ih]
    simp [direntTotal]

theorem direntTotal_eq_zero {items : List DirEnt} : direntTotal items = 0 ↔ items = [] := by
  cases items with
  | nil => exact iff_of_true rfl rfl
  | cons item rest =>
    have hpos := direntLen_pos item
    simp only [direntTotal, List.map_cons, List.sum_cons, reduceCtorEq, iff_false]
    omega

theorem direntFit_isPrefix (capacity : ℕ) (items : List DirEnt) (used : ℕ) :
    direntFit capacity items used <+: items := by
  induction items generalizing used with
  | nil => exact List.prefix_rfl
  | cons item rest ih =>
    rw [direntFit]
    split
    · exact List.nil_prefix
    · exact (List.prefix_cons_inj item).mpr (ih _)

theorem direntFit_total {capacity used : ℕ} (items : List DirEnt) (h : used ≤ capacity) :
    used + direntTotal (direntFit capacity items used) ≤ capacity := by
  induction items generalizing used with
  | nil => exact h
  | cons item rest ih =>
    rw [direntFit]
    split
    · exact h
    · rename_i hfits
      have hrest := ih (Nat.not_lt.mp hfits)
      simp only [direntTotal, List.map_cons, List.sum_cons] at hrest ⊢
      omega

theorem direntFit_maximal {capacity used count : ℕ} {items : List DirEnt}
    (h : used + direntTotal (items.take count) ≤ capacity) :
    items.take count <+: direntFit capacity items used := by
  induction items generalizing used count with
  | nil => simp
  | cons item rest ih =>
    cases count with
    | zero => exact List.nil_prefix
    | succ count =>
      simp only [List.take_succ_cons, direntTotal, List.map_cons, List.sum_cons] at h
      rw [direntFit, if_neg (by omega), List.take_succ_cons]
      refine (List.prefix_cons_inj item).mpr (ih ?_)
      simp only [direntTotal]
      omega

theorem direntBlock_started {capacity : ℕ} (items : List DirEnt) (pos : ℕ) {block : Bytes} (h : block ≠ []) :
    direntBlock capacity items pos block =
      some (block ++ direntRecords (direntFit capacity items block.length) pos,
        pos + (direntFit capacity items block.length).length) := by
  induction items generalizing pos block with
  | nil => simp [direntBlock, direntFit, direntRecords]
  | cons item rest ih =>
    rw [direntBlock, direntFit]
    change (if capacity < block.length + direntLen item then _ else _) = _
    split
    · simp [direntRecords]
    · rw [ih (pos + 1) (by simp [h]), List.length_append, length_direntRecord, direntRecords,
        List.append_assoc, List.length_cons]
      congr 2
      omega

/-- What `getdents64` makes of the entries it is at: the records that fit, or an
error when there is an entry and its record alone does not. -/
theorem direntBlock_eq (capacity : ℕ) (items : List DirEnt) (pos : ℕ) :
    direntBlock capacity items pos [] =
      if direntFit capacity items 0 = [] ∧ items ≠ [] then none
      else some (direntRecords (direntFit capacity items 0) pos,
          pos + (direntFit capacity items 0).length) := by
  cases items with
  | nil => rfl
  | cons item rest =>
    have hne : direntRecord item pos ≠ [] := by
      intro hnil
      have hlength := length_direntRecord item pos
      have hpos := direntLen_pos item
      rw [hnil, List.length_nil] at hlength
      omega
    rw [direntBlock, direntFit]
    change (if capacity < 0 + direntLen item then _ else _) = _
    split
    · simp
    · rw [List.nil_append, direntBlock_started rest (pos + 1) hne, length_direntRecord, Nat.zero_add,
        if_neg (by simp), direntRecords, List.length_cons]
      congr 2
      omega

theorem direntFit_eq_nil {capacity : ℕ} {item : DirEnt} {rest : List DirEnt} :
    direntFit capacity (item :: rest) 0 = [] ↔ capacity < direntLen item := by
  rw [direntFit, Nat.zero_add]
  split <;> simp_all

/-! ## Taking a block apart -/

/-- A record as a program finds it. -/
structure Dirent64 where
  ino : ℕ
  off : ℕ
  kind : ℕ
  name : Text
  deriving DecidableEq

def recordLen (block : Bytes) : ℕ := ofLe ((block.drop 16).take 2)

def readRecord (record : Bytes) : Dirent64 where
  ino := ofLe (record.take 8)
  off := ofLe ((record.drop 8).take 8)
  kind := ofLe ((record.drop 18).take 1)
  name := (record.drop 19).takeWhile fun b => b != 0

/-- A record that keeps the next one aligned, is all there and ends its name. -/
def WholeRecord (block : Bytes) : Prop :=
  recordLen block % 8 = 0 ∧ recordLen block ≤ block.length ∧ 0 ∈ (block.take (recordLen block)).drop 19

instance (block : Bytes) : Decidable (WholeRecord block) := inferInstanceAs (Decidable (_ ∧ _))

/-- The records of a block, if it is nothing but whole ones, in at most so many turns. -/
def readRecords : ℕ → Bytes → Option (List Dirent64)
  | _, [] => some []
  | 0, _ => none
  | turns + 1, block =>
    if WholeRecord block then
      (readRecords turns (block.drop (recordLen block))).map (readRecord (block.take (recordLen block)) :: ·)
    else none

def readBlock (block : Bytes) : Option (List Dirent64) := readRecords block.length block

def DirEnt.dirent (item : DirEnt) (pos : ℕ) : Dirent64 := ⟨item.ino, (pos + 1) % 2^64, item.kind, item.name⟩

def dirents : List DirEnt → ℕ → List Dirent64
  | [], _ => []
  | item :: rest, pos => item.dirent pos :: dirents rest (pos + 1)

/-- A number for the inode and one for the type, and a name without NUL that is
not too long. -/
def DirEnt.Plain (item : DirEnt) : Prop :=
  item.ino < 2^64 ∧ item.kind < 2^8 ∧ 0 ∉ item.name ∧ item.name.length < 4096

instance : DecidablePred DirEnt.Plain := fun _ => inferInstanceAs (Decidable (_ ∧ _))

theorem dirents_append (items more : List DirEnt) (pos : ℕ) :
    dirents (items ++ more) pos = dirents items pos ++ dirents more (pos + items.length) := by
  induction items generalizing pos with
  | nil => rfl
  | cons item rest ih =>
    rw [List.cons_append, dirents, ih, dirents, List.length_cons, List.cons_append]
    congr 3
    omega

theorem length_dirents (items : List DirEnt) (pos : ℕ) : (dirents items pos).length = items.length := by
  induction items generalizing pos with
  | nil => rfl
  | cons item rest ih => rw [dirents, List.length_cons, ih, List.length_cons]

section
variable {item : DirEnt} (h : item.Plain) (pos : ℕ)
include h

theorem direntLen_lt : direntLen item < 2^16 := by
  have hname := h.2.2.2
  unfold direntLen roundUp8
  omega

omit h in
variable (item) in
/-- The fields of a record, each where a program looks for it. -/
theorem drop_direntRecord (rest : Bytes) :
    (direntRecord item pos ++ rest).take 8 = toLe 8 item.ino ∧
    ((direntRecord item pos ++ rest).drop 8).take 8 = toLe 8 (pos + 1) ∧
    ((direntRecord item pos ++ rest).drop 16).take 2 = toLe 2 (direntLen item) ∧
    ((direntRecord item pos ++ rest).drop 18).take 1 = toLe 1 item.kind ∧
    (direntRecord item pos ++ rest).drop 19 =
      item.name ++ 0 :: (List.replicate (direntLen item - (item.name.length + 20)) 0 ++ rest) := by
  have hlen := direntLen_pos item
  have hpad : direntLen item - (item.name.length + 19) = direntLen item - (item.name.length + 20) + 1 := by
    omega
  have hrecord : direntRecord item pos = toLe 8 item.ino ++ toLe 8 (pos + 1) ++ toLe 2 (direntLen item) ++
      toLe 1 item.kind ++ item.name ++ List.replicate (direntLen item - (item.name.length + 19)) 0 := rfl
  have hfields : direntRecord item pos ++ rest = toLe 8 item.ino ++
    (toLe 8 (pos + 1) ++ (toLe 2 (direntLen item) ++
      (toLe 1 item.kind ++ (item.name ++ 0 ::
        (List.replicate (direntLen item - (item.name.length + 20)) 0 ++ rest))))) := by
    rw [hrecord, hpad, List.replicate_succ]
    simp only [List.append_assoc, List.cons_append]
  generalize item.name ++ 0 :: (List.replicate (direntLen item - (item.name.length + 20)) 0 ++ rest) =
    text at hfields ⊢
  have h8 : (direntRecord item pos ++ rest).drop 8 =
      toLe 8 (pos + 1) ++ (toLe 2 (direntLen item) ++ (toLe 1 item.kind ++ text)) := by
    rw [hfields, List.drop_left' (toLe_length ..)]
  have h16 : (direntRecord item pos ++ rest).drop 16 = toLe 2 (direntLen item) ++
      (toLe 1 item.kind ++ text) := by
    have hsplit : (direntRecord item pos ++ rest).drop 16 =
        ((direntRecord item pos ++ rest).drop 8).drop 8 := by
      rw [List.drop_drop]
    rw [hsplit, h8, List.drop_left' (toLe_length ..)]
  have h18 : (direntRecord item pos ++ rest).drop 18 = toLe 1 item.kind ++ text := by
    have hsplit : (direntRecord item pos ++ rest).drop 18 =
        ((direntRecord item pos ++ rest).drop 16).drop 2 := by
      rw [List.drop_drop]
    rw [hsplit, h16, List.drop_left' (toLe_length ..)]
  have h19 : (direntRecord item pos ++ rest).drop 19 = text := by
    have hsplit : (direntRecord item pos ++ rest).drop 19 =
        ((direntRecord item pos ++ rest).drop 18).drop 1 := by
      rw [List.drop_drop]
    rw [hsplit, h18, List.drop_left' (toLe_length ..)]
  refine ⟨?_, ?_, ?_, ?_, h19⟩
  · rw [hfields, List.take_left' (toLe_length ..)]
  · rw [h8, List.take_left' (toLe_length ..)]
  · rw [h16, List.take_left' (toLe_length ..)]
  · rw [h18, List.take_left' (toLe_length ..)]

theorem readRecord_direntRecord : readRecord (direntRecord item pos) = item.dirent pos := by
  obtain ⟨hino, hoff, -, hkind, hname⟩ := drop_direntRecord item pos []
  rw [List.append_nil] at hino hoff hkind hname
  have htext :
      (item.name ++ 0 :: (List.replicate (direntLen item - (item.name.length + 20)) 0 ++ [])).takeWhile
      (fun b => b != 0) = item.name := by
    rw [List.takeWhile_append_of_pos, List.takeWhile_cons_of_neg (by simp), List.append_nil]
    intro b hb
    exact bne_iff_ne.mpr fun heq => h.2.2.1 (heq ▸ hb)
  rw [readRecord, hino, hoff, hkind, hname, htext, ofLe_toLe, ofLe_toLe, ofLe_toLe]
  have hino : item.ino % 256^8 = item.ino := Nat.mod_eq_of_lt h.1
  have hkind : item.kind % 256^1 = item.kind := Nat.mod_eq_of_lt h.2.1
  rw [hino, hkind]
  rfl

theorem recordLen_direntRecord (rest : Bytes) :
    recordLen (direntRecord item pos ++ rest) = direntLen item := by
  rw [recordLen, (drop_direntRecord item pos rest).2.2.1, ofLe_toLe]
  exact Nat.mod_eq_of_lt (direntLen_lt h)

theorem wholeRecord_direntRecord (rest : Bytes) : WholeRecord (direntRecord item pos ++ rest) := by
  have hname := (drop_direntRecord item pos []).2.2.2.2
  rw [List.append_nil] at hname
  refine ⟨?_, ?_, ?_⟩
  · rw [recordLen_direntRecord h]
    exact Nat.mod_eq_zero_of_dvd (roundUp8_dvd _)
  · rw [recordLen_direntRecord h, List.length_append, length_direntRecord]
    exact Nat.le_add_right _ _
  · rw [recordLen_direntRecord h, List.take_left' (length_direntRecord item pos), hname]
    simp

end

/-- The entries that went into a block are what it is taken apart into. -/
theorem readRecords_direntRecords {items : List DirEnt} (h : ∀ item ∈ items, item.Plain) (pos : ℕ) {turns : ℕ}
    (hturns : items.length ≤ turns) :
    readRecords turns (direntRecords items pos) = some (dirents items pos) := by
  induction items generalizing pos turns with
  | nil => cases turns <;> rfl
  | cons item rest ih =>
    have hitem := h item List.mem_cons_self
    cases turns with
    | zero => exact absurd hturns (Nat.not_succ_le_zero _)
    | succ turns =>
      have hrest := ih (fun i hi => h i (List.mem_cons_of_mem _ hi)) (pos + 1) (Nat.le_of_succ_le_succ hturns)
      have hstep : ∀ block, WholeRecord block → readRecords (turns + 1) block =
          (readRecords turns (block.drop (recordLen block))).map
          (readRecord (block.take (recordLen block)) :: ·) := by
        intro block hwhole
        have hpos : block ≠ [] := fun hnil => by simp [WholeRecord, hnil] at hwhole
        obtain ⟨b, more, rfl⟩ := List.exists_cons_of_ne_nil hpos
        simp only [readRecords, if_pos hwhole]
      rw [direntRecords, hstep _ (wholeRecord_direntRecord hitem pos _), recordLen_direntRecord hitem,
        List.take_left' (length_direntRecord item pos), List.drop_left' (length_direntRecord item pos), hrest,
        readRecord_direntRecord hitem]
      rfl

theorem readBlock_direntRecords {items : List DirEnt} (h : ∀ item ∈ items, item.Plain) (pos : ℕ) :
    readBlock (direntRecords items pos) = some (dirents items pos) := by
  refine readRecords_direntRecords h pos ?_
  rw [length_direntRecords]
  clear h
  induction items with
  | nil => exact Nat.le_refl _
  | cons item rest ih =>
    have hitem := direntLen_pos item
    simp only [direntTotal, List.length_cons, List.map_cons, List.sum_cons] at ih ⊢
    omega

/-! ## Calls on one description -/

/-- The descriptor is on a listing of these entries, at this one. -/
def Machine.Stands (m : Machine) (fd : ℤ) (entries : List DirEnt) (pos : ℕ) : Prop :=
  ∃ entry desc, openFd m.view fd = .ok (entry, desc) ∧ desc.kind = .dir entries pos

def Machine.Writable (m : Machine) (a : Args) : Prop := asU32 a.a1 + asU32 a.a2 ≤ m.inst.mem.size

/-- There is a next entry and its record alone does not fit. -/
def NextTooLong (entries : List DirEnt) (pos capacity : ℕ) : Prop :=
  ∃ item, entries[pos]? = some item ∧ capacity < direntLen item

/-- Of the entries from `pos` on there are some whose records fit, and are more
bytes than an `i32` says. -/
def Overlong (entries : List DirEnt) (pos capacity : ℕ) : Prop :=
  ∃ count, 2^31 ≤ direntTotal ((entries.drop pos).take count) ∧
    direntTotal ((entries.drop pos).take count) ≤ capacity

section
variable {W : Type}

/-- The records that a call hands over, as its answer says how long they are. -/
def handed (x : Env W) (a : Args) (s : Machine × W) : List Dirent64 :=
  match ((getdents64 a).run (exec x) s).1 with
  | .ok n => (readBlock (((getdents64 a).run (exec x) s).2.1.inst.mem.read (asU32 a.a1) n.toNat)).getD []
  | .error _ => []

/-- A call at `pos` that hands over the entries from there on which fit, is
refused when the next one does not, and says when there is none. -/
structure ListsOn (x : Env W) (a : Args) (entries : List DirEnt) (pos : ℕ) (s : Machine × W) : Prop where
  refused : ((getdents64 a).run (exec x) s).1 = .error (.errno .inval) ↔ NextTooLong entries pos (asU32 a.a2)
  unmoved : NextTooLong entries pos (asU32 a.a2) → ((getdents64 a).run (exec x) s).2 = s
  ended : ((getdents64 a).run (exec x) s).1 = .ok 0 ↔ entries.length ≤ pos
  block : ¬ NextTooLong entries pos (asU32 a.a2) → ∃ n count : ℕ,
    ((getdents64 a).run (exec x) s).1 = .ok (n : ℤ) ∧ n ≤ asU32 a.a2 ∧
    readBlock (((getdents64 a).run (exec x) s).2.1.inst.mem.read (asU32 a.a1) n) =
      some (dirents ((entries.drop pos).take count) pos) ∧
    ((getdents64 a).run (exec x) s).2.1.Stands a.a0 entries (pos + count) ∧ count ≤ entries.length - pos

/-- What a program has when it has made calls on a listing that stood at `start`,
whatever else went on in between, and where the listing stands then. Calls
whose buffer is not in memory are left out. -/
inductive Walked (x : Env W) (entries : List DirEnt) (start : ℕ) : ℕ → List Dirent64 → Prop
  | start : Walked x entries start start []
  | call (pos next : ℕ) (got : List Dirent64) (a : Args) (s : Machine × W) :
      Walked x entries start pos got → s.1.Stands a.a0 entries pos → s.1.Writable a →
      ¬ Overlong entries pos (asU32 a.a2) → ((getdents64 a).run (exec x) s).2.1.Stands a.a0 entries next →
      Walked x entries start next (got ++ handed x a s)

variable {x : Env W} {a : Args} {entries : List DirEnt} {pos : ℕ} {s : Machine × W}

theorem fit_eq_nil_iff {capacity : ℕ} : direntFit capacity (entries.drop pos) 0 = [] ∧ entries.drop pos ≠ [] ↔
    NextTooLong entries pos capacity := by
  unfold NextTooLong
  rw [← List.head?_drop]
  cases entries.drop pos with
  | nil => simp
  | cons item rest => simp [direntFit_eq_nil]

theorem overlong_iff {capacity : ℕ} : Overlong entries pos capacity ↔
    2^31 ≤ direntTotal (direntFit capacity (entries.drop pos) 0) := by
  constructor
  · rintro ⟨count, hlong, hfits⟩
    have hused : 0 + direntTotal ((entries.drop pos).take count) ≤ capacity := by
      rw [Nat.zero_add]
      exact hfits
    obtain ⟨more, hmore⟩ := direntFit_maximal hused
    rw [← hmore]
    simp only [direntTotal, List.map_append, List.sum_append]
    exact hlong.trans (Nat.le_add_right _ _)
  · intro hlong
    have htake := List.prefix_iff_eq_take.mp (direntFit_isPrefix capacity (entries.drop pos) 0)
    have hfits := direntFit_total (entries.drop pos) (Nat.zero_le capacity)
    rw [Nat.zero_add] at hfits
    refine ⟨(direntFit capacity (entries.drop pos) 0).length, ?_, ?_⟩
    · rw [← htake]
      exact hlong
    · rw [← htake]
      exact hfits

theorem getdents64_dir {entry : Fd} {desc : Desc} (hopen : openFd s.1.view a.a0 = .ok (entry, desc)) :
    (getdents64 a).run (exec x) s = (listEntries a entry.desc desc).run (exec x) s := by
  rw [getdents64_eq]
  refine (Program.run_bind_ok (exec x) (p := view) (t := s) (a := s.1.view) rfl).trans ?_
  rw [hopen, lift_ok, Program.ret_bind]

theorem getdents64_refused (hstands : s.1.Stands a.a0 entries pos)
    (hlong : NextTooLong entries pos (asU32 a.a2)) :
    (getdents64 a).run (exec x) s = (.error (.errno .inval), s) := by
  obtain ⟨entry, desc, hopen, hkind⟩ := hstands
  rw [getdents64_dir hopen, listEntries, hkind]
  dsimp only
  rw [direntBlock_eq, if_pos (fit_eq_nil_iff.mpr hlong)]
  rfl

theorem stands_setDescPos {m : Machine} {fd : ℤ} {entry : Fd} {desc : Desc}
    (hopen : openFd m.view fd = .ok (entry, desc)) (hkind : desc.kind = .dir entries pos) (next : ℕ) :
    ((Act.exec (.setDescPos entry.desc next) m).2).Stands fd entries next := by
  obtain ⟨hentry, hdesc⟩ := openFd_ok_iff.mp hopen
  refine ⟨entry, { desc with kind := .dir entries next }, openFd_ok_iff.mpr ⟨hentry, ?_⟩, rfl⟩
  change (m.shared.descs.modify entry.desc _).get entry.desc = _
  have hshared : m.shared.descs.get entry.desc = some desc := hdesc
  rw [Slab.get_modify_self, hshared, Option.map_some, hkind]

/-- A block that memory is there for is stored. -/
theorem run_store {key : DescKey} {next start : ℕ} {block : Bytes}
    (hfits : start + block.length ≤ s.1.inst.mem.size) :
    (do
      act (.setDescPos key next)
      put start block
      return asI32 block.length : Handler ℤ).run (exec x) s =
      (.ok (asI32 block.length),
        (Act.exec (.setDescPos key next) s.1).2.setMem (s.1.inst.mem.write start block), s.2) := by
  have hput : (put start block).run (exec x) ((Act.exec (.setDescPos key next) s.1).2, s.2) =
      (.ok (), (Act.exec (.setDescPos key next) s.1).2.setMem (s.1.inst.mem.write start block), s.2) := by
    have hmem : (Act.exec (.setDescPos key next) s.1).2.inst.mem.put start block =
        .ok (s.1.inst.mem.write start block) :=
      if_pos hfits
    have hrun : (put start block).run (exec x) ((Act.exec (.setDescPos key next) s.1).2, s.2) =
        (lift (Act.exec (.put start block) (Act.exec (.setDescPos key next) s.1).2).1).run (exec x)
          ((Act.exec (.put start block) (Act.exec (.setDescPos key next) s.1).2).2, s.2) := rfl
    rw [hrun]
    simp only [Act.exec] at hmem ⊢
    rw [hmem]
    rfl
  exact Program.run_bind_ok (exec x) hput

/-- The records that fit go to memory, and the listing moves past them. -/
theorem getdents64_lists (hstands : s.1.Stands a.a0 entries pos) (hw : s.1.Writable a)
    (hshort : ¬ NextTooLong entries pos (asU32 a.a2)) :
    ((getdents64 a).run (exec x) s).1 =
    .ok (asI32 (direntTotal (direntFit (asU32 a.a2) (entries.drop pos) 0))) ∧
    ((getdents64 a).run (exec x) s).2.1.inst.mem.read (asU32 a.a1)
    (direntTotal (direntFit (asU32 a.a2) (entries.drop pos) 0)) =
      direntRecords (direntFit (asU32 a.a2) (entries.drop pos) 0) pos ∧
    ((getdents64 a).run (exec x) s).2.1.Stands a.a0 entries
      (pos + (direntFit (asU32 a.a2) (entries.drop pos) 0).length) := by
  obtain ⟨entry, desc, hopen, hkind⟩ := hstands
  have htotal := direntFit_total (entries.drop pos) (Nat.zero_le (asU32 a.a2))
  rw [getdents64_dir hopen, listEntries, hkind]
  dsimp only
  rw [direntBlock_eq, if_neg (fit_eq_nil_iff.not.mpr hshort)]
  dsimp only
  generalize direntFit (asU32 a.a2) (entries.drop pos) 0 = fit at htotal ⊢
  have hlength := length_direntRecords fit pos
  have hmoved := stands_setDescPos hopen hkind (pos + fit.length)
  have hfits : asU32 a.a1 + (direntRecords fit pos).length ≤ s.1.inst.mem.size := by
    unfold Machine.Writable at hw
    omega
  rw [run_store hfits, hlength]
  refine ⟨rfl, ?_, hmoved⟩
  have hput : s.1.inst.mem.put (asU32 a.a1) (direntRecords fit pos) =
      .ok (s.1.inst.mem.write (asU32 a.a1) (direntRecords fit pos)) := if_pos hfits
  have hread := Mem.bytes_put hput
  rw [Mem.bytes, if_pos (by exact hfits), hlength] at hread
  exact Except.ok.inj hread

variable (hplain : ∀ item ∈ entries, item.Plain)
include hplain

variable (pos) in
theorem plain_fit (capacity : ℕ) : ∀ item ∈ direntFit capacity (entries.drop pos) 0, item.Plain :=
  fun item hi => hplain item (List.mem_of_mem_drop ((direntFit_isPrefix capacity _ 0).subset hi))

/-- A call hands over the entries that fit as long as it can say how long they are. -/
theorem listsOn_iff (hstands : s.1.Stands a.a0 entries pos) (hw : s.1.Writable a) :
    ListsOn x a entries pos s ↔ ¬ Overlong entries pos (asU32 a.a2) := by
  rw [overlong_iff]
  by_cases hlong : NextTooLong entries pos (asU32 a.a2)
  · have hfit := (fit_eq_nil_iff.mpr hlong).1
    have hrun := getdents64_refused (x := x) hstands hlong
    refine iff_of_true ⟨?_, ?_, ?_, fun h => absurd hlong h⟩ ?_
    · rw [hrun]
      exact iff_of_true rfl hlong
    · intro _
      rw [hrun]
    · obtain ⟨item, hitem, -⟩ := hlong
      rw [hrun]
      refine iff_of_false (fun h => by cases h) ?_
      exact not_le.mpr (List.getElem?_eq_some_iff.mp hitem).1
    · rw [hfit]
      decide
  obtain ⟨hanswer, hread, hmoves⟩ := getdents64_lists (x := x) hstands hw hlong
  have htotal := direntFit_total (entries.drop pos) (Nat.zero_le (asU32 a.a2))
  have hblock := readBlock_direntRecords (plain_fit pos hplain (asU32 a.a2)) pos
  have hprefix := direntFit_isPrefix (asU32 a.a2) (entries.drop pos) 0
  have hcount := hprefix.length_le
  rw [List.length_drop] at hcount
  constructor
  · intro h hover
    obtain ⟨n, count, hn, -⟩ := h.block hlong
    rw [hanswer] at hn
    have hneg : asI32 (direntTotal (direntFit (asU32 a.a2) (entries.drop pos) 0)) = n := Except.ok.inj hn
    have hcapacity : asU32 a.a2 < 2^32 := by
      unfold asU32
      omega
    unfold asI32 at hneg
    omega
  · intro hshort
    have hexact : asI32 (direntTotal (direntFit (asU32 a.a2) (entries.drop pos) 0)) =
        (direntTotal (direntFit (asU32 a.a2) (entries.drop pos) 0) : ℕ) := by
      unfold asI32
      omega
    refine ⟨?_, fun h => absurd h hlong, ?_, fun _ => ?_⟩
    · rw [hanswer]
      exact iff_of_false (fun h => by cases h) hlong
    · rw [hanswer, hexact]
      have hzero : direntTotal (direntFit (asU32 a.a2) (entries.drop pos) 0) = 0 ↔ _ := direntTotal_eq_zero
      have hnone : direntFit (asU32 a.a2) (entries.drop pos) 0 = [] ↔ entries.length ≤ pos := by
        rw [← List.drop_eq_nil_iff]
        refine ⟨fun hfit => by_contra fun hne => hlong (fit_eq_nil_iff.mp ⟨hfit, hne⟩), fun hend => ?_⟩
        rw [hend]
        rfl
      rw [← hnone, ← hzero]
      exact ⟨fun h => Int.natCast_eq_zero.mp (Except.ok.inj h), fun h => by rw [h]; rfl⟩
    · refine ⟨_, _, by rw [hanswer, hexact], by omega, ?_, hmoves, hcount⟩
      rw [hread, hblock, ← List.prefix_iff_eq_take.mp hprefix]

omit hplain in
theorem stands_unique {m : Machine} {fd : ℤ} {pos' : ℕ} (h : m.Stands fd entries pos)
    (h' : m.Stands fd entries pos') :
    pos = pos' := by
  obtain ⟨entry, desc, hopen, hkind⟩ := h
  obtain ⟨entry', desc', hopen', hkind'⟩ := h'
  obtain ⟨-, rfl⟩ := Prod.mk.inj (Except.ok.inj (hopen.symm.trans hopen'))
  exact (DescKind.dir.inj (hkind.symm.trans hkind')).2

/-- What has been handed over are the entries from the start to where the listing stands. -/
theorem walked_entries {start : ℕ} {got : List Dirent64} (h : Walked x entries start pos got) :
    start ≤ pos ∧ (start ≤ entries.length → pos ≤ entries.length) ∧
      got = dirents ((entries.drop start).take (pos - start)) start := by
  induction h with
  | start => simp [dirents]
  | call pos next got a s _ hstands hw hover hnext ih =>
    obtain ⟨hstart, hend, hgot⟩ := ih
    have hlists := (listsOn_iff (x := x) hplain hstands hw).mpr hover
    by_cases hlong : NextTooLong entries pos (asU32 a.a2)
    · rw [hlists.unmoved hlong] at hnext
      obtain rfl := stands_unique hstands hnext
      have hnone : handed x a s = [] := by
        unfold handed
        rw [hlists.refused.mpr hlong]
      rw [hnone, List.append_nil]
      exact ⟨hstart, hend, hgot⟩
    · obtain ⟨n, count, hanswer, -, hblock, hmoved, hcount⟩ := hlists.block hlong
      obtain rfl := stands_unique hmoved hnext
      have hhanded : handed x a s = dirents ((entries.drop pos).take count) pos := by
        unfold handed
        rw [hanswer]
        dsimp only
        rw [Int.toNat_natCast, hblock]
        rfl
      refine ⟨by omega, fun h => by have := hend h; omega, ?_⟩
      have hsplit : (entries.drop start).take (pos + count - start) =
          (entries.drop start).take (pos - start) ++ (entries.drop pos).take count := by
        have hcounts : pos + count - start = (pos - start) + count := by omega
        have hdrop : start + (pos - start) = pos := by omega
        rw [hcounts, List.take_add, List.drop_drop, hdrop]
      by_cases hpos : pos ≤ entries.length
      · have hlength : ((entries.drop start).take (pos - start)).length = pos - start := by
          rw [List.length_take, List.length_drop]
          omega
        have hdone : start + (pos - start) = pos := by omega
        rw [hhanded, hgot, hsplit, dirents_append, hlength, hdone]
      · have hnone : (entries.drop pos).take count = [] := by
          rw [List.drop_eq_nil_of_le (by omega), List.take_nil]
        rw [hhanded, hgot, hsplit, hnone, List.append_nil, dirents, List.append_nil]

/-- After any calls that could say how long their blocks are, a program has the
entries from the first to where the listing stands, each once. The next call goes
on from there if and only if it can say how long its block is. -/
theorem listing_exact_iff {got : List Dirent64} (h : Walked x entries 0 pos got)
    (hstands : s.1.Stands a.a0 entries pos) (hw : s.1.Writable a) :
    got = dirents (entries.take pos) 0 ∧
        (ListsOn x a entries pos s ↔ ¬ Overlong entries pos (asU32 a.a2)) := by
  obtain ⟨-, -, hgot⟩ := walked_entries hplain h
  exact ⟨hgot, listsOn_iff hplain hstands hw⟩

end

section
variable {W : Type} {x : Env W} {a : Args} {entries : List DirEnt} {pos : ℕ} {s : Machine × W}

/-- The description made a listing, in a process with this memory. -/
def Machine.relisted (m : Machine) (key : DescKey) (entries : List DirEnt) (pos : ℕ) (mem : Mem) : Machine :=
  (m.setShared { m.shared with
    descs := m.shared.descs.modify key fun d => { d with kind := .dir entries pos } }).setMem mem

variable (entries pos) in
theorem stands_relisted {m : Machine} {fd : ℤ} {entry : Fd} {desc : Desc}
    (hopen : openFd m.view fd = .ok (entry, desc)) (mem : Mem) :
    (m.relisted entry.desc entries pos mem).Stands fd entries pos := by
  obtain ⟨hentry, hdesc⟩ := openFd_ok_iff.mp hopen
  refine ⟨entry, { desc with kind := .dir entries pos }, openFd_ok_iff.mpr ⟨hentry, ?_⟩, rfl⟩
  change (m.shared.descs.modify entry.desc _).get entry.desc = _
  have hshared : m.shared.descs.get entry.desc = some desc := hdesc
  rw [Slab.get_modify_self, hshared, Option.map_some]

end

/-- Guests over an empty `MemVfs`, with the arguments of an `openat` of the root at
address zero. -/
def Env.opensRoot : Env (MemWorld .w64 × List GuestRun) :=
  (Env.scripted (.startingWith (argWords [atFdcwd, 24, 0, 0, 0, 0, 0x2f, 0]))).memory .w64

def rootEntries : List DirEnt :=
    baseEntries ++ [⟨0, dtDir, ascii "bin"⟩, ⟨0, dtDir, ascii "dev"⟩, ⟨0, dtDir, ascii "proc"⟩]

theorem reached_opensRoot : ∃ (k : Kernel) (w : MemWorld .w64 × List GuestRun) (p : Proc),
    Reached Env.opensRoot (fun _ _ => True) k w ∧ k.procs[0]? = some p ∧
    (k.machineOf p).Stands 3 rootEntries 0 ∧
    (k.machineOf p).inst.mem.size = 0x110000 := by
  have hopen : Config.oneMount.drive Env.opensRoot (MemWorld.new .w64, [⟨[.syscall 56 0, .setjmp 0], none⟩]) 2
      [⟨some 0, none⟩] = some (_, _) := rfl
  exact ⟨_, _, _, .between _ _ (between_drive hopen), rfl, ⟨_, _, rfl, rfl⟩, rfl⟩

/-- With room for a hundred bytes, the entries of the root that fit are handed over. -/
theorem listing_exact_iff_root : ∃ (k : Kernel) (w : MemWorld .w64 × List GuestRun) (p : Proc),
    k.procs[0]? = some p ∧ (k.machineOf p).Stands 3 rootEntries 0 ∧
    ListsOn Env.opensRoot ⟨3, 64, 100, 0, 0, 0⟩ rootEntries 0 (k.machineOf p, w) := by
  obtain ⟨k, w, p, -, hp, hstands, hsize⟩ := reached_opensRoot
  have hw : (k.machineOf p).Writable ⟨3, 64, 100, 0, 0, 0⟩ := by
    rw [Machine.Writable, hsize]
    decide
  refine ⟨k, w, p, hp, hstands, ((listing_exact_iff (by decide) .start hstands hw).2).mpr ?_⟩
  rintro ⟨count, hlong, hfits⟩
  have hcapacity : asU32 100 < 2^31 := by decide
  exact absurd (hlong.trans hfits) (not_le.mpr hcapacity)

/-- So many entries, each of 24 bytes, that their records are more than 2^31 bytes. -/
def vast : List DirEnt := List.replicate 89478486 ⟨1, dtDir, ascii "a"⟩

theorem direntTotal_replicate (count : ℕ) (item : DirEnt) :
    direntTotal (((List.replicate count item).drop 0).take count) = count * direntLen item := by
  rw [List.drop_zero, List.take_of_length_le (List.length_replicate ..).le, direntTotal, List.map_replicate,
    List.sum_replicate_nat]

/-- A call with room for all of them hands over more than it can say. -/
theorem listing_overflows : ∃ (m : Machine) (w : MemWorld .w64 × List GuestRun),
    (∀ item ∈ vast, item.Plain) ∧ m.Stands 3 vast 0 ∧ m.Writable ⟨3, 0, -1, 0, 0, 0⟩ ∧
    ¬ ListsOn Env.opensRoot ⟨3, 0, -1, 0, 0, 0⟩ vast 0 (m, w) := by
  obtain ⟨k, w, p, -, -, ⟨entry, desc, hopen, -⟩, -⟩ := reached_opensRoot
  have hplain : ∀ item ∈ vast, item.Plain := by
    intro item hitem
    obtain rfl := List.eq_of_mem_replicate hitem
    decide
  have hstands := stands_relisted vast 0 hopen ⟨2^32, fun _ => 0⟩
  have hw : ((k.machineOf p).relisted entry.desc vast 0 ⟨2^32, fun _ => 0⟩).Writable ⟨3, 0, -1, 0, 0, 0⟩ := by
    have hroom : asU32 0 + asU32 (-1) ≤ 2^32 := by decide
    exact hroom
  have htotal : direntTotal ((vast.drop 0).take 89478486) = 89478486 * 24 :=
    direntTotal_replicate 89478486 ⟨1, dtDir, ascii "a"⟩
  refine ⟨_, w, hplain, hstands, hw, fun h => ?_⟩
  refine (listsOn_iff (s := (_, w)) (a := ⟨3, 0, -1, 0, 0, 0⟩) hplain hstands hw).mp h ⟨89478486, ?_, ?_⟩
  · rw [htotal]
    decide
  · rw [htotal]
    decide

/-! ## Positions to come back to -/

section
variable {W : Type} {x : Env W} {a : Args} {entries : List DirEnt} {pos : ℕ} {s : Machine × W}

/-- What the calls after an `lseek` hand over, all of them until there is no more
entry, are the entries from `start` on. -/
def Resumes (x : Env W) (a : Args) (entries : List DirEnt) (start : ℕ) (s : Machine × W) : Prop :=
  ∃ there, ((lseek a).run (exec x) s).2.1.Stands a.a0 entries there ∧
    ∀ pos got, Walked x entries there pos got →
      got <+: dirents (entries.drop start) start ∧
      (entries.length ≤ pos → got = dirents (entries.drop start) start)

/-- An `lseek` of a listing works whatever it asks for, and moves it for one thing alone. -/
theorem lseek_listing (hstands : s.1.Stands a.a0 entries pos) : ((lseek a).run (exec x) s).1 = .ok 0 ∧
    ((lseek a).run (exec x) s).2.1.Stands a.a0 entries (if a.a2 = seekSet ∧ a.a1 = 0 then 0 else pos) := by
  obtain ⟨entry, desc, hopen, hkind⟩ := hstands
  have hrun : (lseek a).run (exec x) s = if a.a2 = seekSet ∧ a.a1 = 0
      then (.ok 0, (Act.exec (.setDescPos entry.desc 0) s.1).2, s.2) else (.ok 0, s) := by
    unfold lseek
    refine (Program.run_bind_ok (exec x) (p := view) (t := s) (a := s.1.view) rfl).trans ?_
    rw [hopen, lift_ok, Program.ret_bind]
    dsimp only
    rw [hkind]
    dsimp only
    split <;> rfl
  rw [hrun]
  split
  · exact ⟨rfl, stands_setDescPos hopen hkind 0⟩
  · exact ⟨rfl, entry, desc, hopen, hkind⟩

/-- One call with room for the next record alone hands over just that one. -/
theorem getdents64_next {item : DirEnt} (hstands : s.1.Stands a.a0 entries pos) (hw : s.1.Writable a)
    (hitem : entries[pos]? = some item) (hroom : asU32 a.a2 = direntLen item) :
    ((getdents64 a).run (exec x) s).2.1.Stands a.a0 entries (pos + 1) := by
  have hlt := (List.getElem?_eq_some_iff.mp hitem).1
  have hdrop : entries.drop pos = item :: entries.drop (pos + 1) := by
    rw [List.drop_eq_getElem_cons hlt, (List.getElem?_eq_some_iff.mp hitem).2]
  have hshort : ¬ NextTooLong entries pos (asU32 a.a2) := by
    rintro ⟨next, hnext, hlong⟩
    obtain rfl := Option.some.inj (hitem.symm.trans hnext)
    omega
  have hrest : direntFit (direntLen item) (entries.drop (pos + 1)) (direntLen item) = [] := by
    cases entries.drop (pos + 1) with
    | nil => rfl
    | cons next rest =>
      have hpos := direntLen_pos next
      rw [direntFit, if_pos (by omega)]
  have hfit : direntFit (asU32 a.a2) (entries.drop pos) 0 = [item] := by
    rw [hroom, hdrop, direntFit, Nat.zero_add, if_neg (lt_irrefl _), hrest]
  have hmoved := (getdents64_lists (x := x) hstands hw hshort).2.2
  rw [hfit] at hmoved
  exact hmoved

/-- A listing can be read to its end from wherever it stands. -/
theorem walked_to_end (hplain : ∀ item ∈ entries, item.Plain) {fd : ℤ}
    (hstands : s.1.Stands fd entries pos) {start : ℕ} (hstart : start ≤ entries.length) :
    Walked x entries start entries.length (dirents (entries.drop start) start) := by
  have hreaches : ∀ count, start + count ≤ entries.length →
      ∃ got, Walked x entries start (start + count) got := by
    intro count
    induction count with
    | zero => exact fun _ => ⟨[], .start⟩
    | succ count ih =>
      intro hcount
      obtain ⟨got, hgot⟩ := ih (by omega)
      obtain ⟨item, hitem⟩ : ∃ item, entries[start + count]? = some item :=
        ⟨_, List.getElem?_eq_getElem (by omega)⟩
      have hlen := direntLen_lt (hplain item (List.mem_of_getElem? hitem))
      obtain ⟨entry, desc, hopen, -⟩ := hstands
      have hstands := stands_relisted entries (start + count) hopen ⟨direntLen item, fun _ => 0⟩
      have hroom : asU32 (direntLen item : ℕ) = direntLen item := by
        unfold asU32
        omega
      have hw : (s.1.relisted entry.desc entries (start + count) ⟨direntLen item, fun _ => 0⟩).Writable
          ⟨fd, 0, (direntLen item : ℕ), 0, 0, 0⟩ := by
        have hzero : asU32 0 + asU32 (direntLen item : ℕ) ≤ direntLen item := by
          rw [hroom]
          exact (Nat.zero_add _).le
        exact hzero
      refine ⟨_, .call _ _ got ⟨fd, 0, (direntLen item : ℕ), 0, 0, 0⟩ (_, s.2) hgot hstands hw ?_
        (getdents64_next hstands hw hitem hroom)⟩
      rintro ⟨_, hlong, hfits⟩
      have hfits' := hlong.trans hfits
      simp only [hroom] at hfits'
      omega
  obtain ⟨got, hgot⟩ := hreaches (entries.length - start) (by omega)
  have hend : start + (entries.length - start) = entries.length := by omega
  rw [hend] at hgot
  have hall := (walked_entries hplain hgot).2.2
  rw [List.take_of_length_le (by rw [List.length_drop])] at hall
  exact hall ▸ hgot

theorem dirents_take_isPrefix (items : List DirEnt) (pos count : ℕ) :
    dirents (items.take count) pos <+: dirents items pos := by
  have hsplit := dirents_append (items.take count) (items.drop count) pos
  rw [List.take_append_drop] at hsplit
  exact ⟨_, hsplit.symm⟩

theorem resumes_iff (hplain : ∀ item ∈ entries, item.Plain) (hstands : s.1.Stands a.a0 entries pos)
    {there start : ℕ} (hthere : ((lseek a).run (exec x) s).2.1.Stands a.a0 entries there)
    (hle : there ≤ entries.length) (hstart : start ≤ entries.length) :
    Resumes x a entries start s ↔ start = there := by
  constructor
  · rintro ⟨there', hthere', hwalks⟩
    obtain rfl := stands_unique hthere hthere'
    have hall := (hwalks _ _ (walked_to_end hplain hstands hle)).2 (le_refl _)
    have hlength := congrArg List.length hall
    rw [length_dirents, length_dirents, List.length_drop, List.length_drop] at hlength
    omega
  · rintro rfl
    refine ⟨start, hthere, fun pos got h => ?_⟩
    obtain ⟨-, -, hgot⟩ := walked_entries hplain h
    refine ⟨hgot ▸ dirents_take_isPrefix _ _ _, fun hend => ?_⟩
    rw [hgot, List.take_of_length_le (by rw [List.length_drop]; omega)]

theorem getElem?_dirents (items : List DirEnt) (pos i : ℕ) :
    (dirents items pos)[i]? = (items[i]?).map fun item => item.dirent (pos + i) := by
  induction items generalizing pos i with
  | nil => rfl
  | cons item rest ih =>
    cases i with
    | zero => rfl
    | succ i =>
      rw [dirents, List.getElem?_cons_succ, List.getElem?_cons_succ, ih, Nat.add_right_comm, Nat.add_assoc]

/-- After any calls on a new listing: going back to its start makes the next calls
give all of it; going to where a record says that the next one is makes them give
what comes after that record if and only if the listing stands there already. -/
theorem listing_resumed_iff (hplain : ∀ item ∈ entries, item.Plain) (hlength : entries.length < 2^64)
    {got : List Dirent64} (h : Walked x entries 0 pos got) (hstands : s.1.Stands a.a0 entries pos)
    (hset : a.a2 = seekSet) :
    (a.a1 = 0 → ((lseek a).run (exec x) s).1 = .ok 0 ∧ Resumes x a entries 0 s) ∧
    ∀ (i : ℕ) (r : Dirent64), got[i]? = some r → a.a1 = r.off →
      (((∃ n, ((lseek a).run (exec x) s).1 = .ok n) → Resumes x a entries (i + 1) s) ↔ pos = i + 1) := by
  obtain ⟨-, hend, hgot⟩ := walked_entries hplain h
  have hpos := hend (Nat.zero_le _)
  obtain ⟨hok, hthere⟩ := lseek_listing (x := x) hstands
  rw [if_congr (and_iff_right hset) rfl rfl] at hthere
  constructor
  · intro hzero
    rw [if_pos hzero] at hthere
    exact ⟨hok, (resumes_iff hplain hstands hthere (Nat.zero_le _) (Nat.zero_le _)).mpr rfl⟩
  · intro i r hr hoff
    rw [hgot, getElem?_dirents, Nat.zero_add, List.drop_zero, Nat.sub_zero] at hr
    obtain ⟨item, hitem, rfl⟩ := Option.map_eq_some_iff.mp hr
    have hi : i < pos := by
      have hlt := (List.getElem?_eq_some_iff.mp hitem).1
      rw [List.length_take] at hlt
      omega
    -- The cookie of an entry is one more than its place, and so never zero.
    have hcookie : a.a1 = (i + 1 : ℕ) := by
      rw [hoff]
      change (((i + 1) % 2^64 : ℕ) : ℤ) = _
      rw [Nat.mod_eq_of_lt (by omega)]
    rw [if_neg (by omega)] at hthere
    have hnext : i + 1 ≤ entries.length := by omega
    have hresumes := resumes_iff hplain hstands hthere hpos hnext
    constructor
    · exact fun hworks => (hresumes.mp (hworks ⟨0, hok⟩)).symm
    · exact fun hsame _ => hresumes.mpr hsame.symm

end

/-- A guest that has read four entries of the root. -/
theorem four_read : ∃ (s : Machine × MemWorld .w64 × List GuestRun) (got : List Dirent64),
    Walked Env.opensRoot rootEntries 0 4 got ∧ s.1.Stands 3 rootEntries 4 ∧
    got[0]? = some ⟨1, 1, dtDir, ascii "."⟩ ∧ (got[3]?).map Dirent64.off = some 4 := by
  obtain ⟨k, w, p, -, hp, hstands, hsize⟩ := reached_opensRoot
  have hplain : ∀ item ∈ rootEntries, item.Plain := by decide
  have hw : (k.machineOf p).Writable ⟨3, 64, 100, 0, 0, 0⟩ := by
    rw [Machine.Writable, hsize]
    decide
  have hshort : ¬ NextTooLong rootEntries 0 (asU32 100) := by
    rw [← fit_eq_nil_iff]
    decide
  have hover : ¬ Overlong rootEntries 0 (asU32 100) := by
    rw [overlong_iff]
    decide
  have hmoved := (getdents64_lists (x := Env.opensRoot) (s := (k.machineOf p, w))
    (a := ⟨3, 64, 100, 0, 0, 0⟩) hstands hw hshort).2.2
  have hfour : 0 + (direntFit (asU32 100) (rootEntries.drop 0) 0).length = 4 := by decide
  rw [hfour] at hmoved
  have hwalked := Walked.call 0 4 [] ⟨3, 64, 100, 0, 0, 0⟩ (k.machineOf p, w) .start hstands hw hover hmoved
  refine ⟨_, _, hwalked, hmoved, ?_, ?_⟩
  · rw [(walked_entries hplain hwalked).2.2]
    decide
  · rw [(walked_entries hplain hwalked).2.2]
    decide

/-- A listing can go back to the start, and to where it is. -/
theorem listing_resumed_iff_four : ∃ (s : Machine × MemWorld .w64 × List GuestRun) (got : List Dirent64),
    Walked Env.opensRoot rootEntries 0 4 got ∧ s.1.Stands 3 rootEntries 4 ∧
    Resumes Env.opensRoot ⟨3, 0, 0, 0, 0, 0⟩ rootEntries 0 s ∧
    Resumes Env.opensRoot ⟨3, 4, 0, 0, 0, 0⟩ rootEntries 4 s := by
  obtain ⟨s, got, hwalked, hstands, -, hlast⟩ := four_read
  obtain ⟨r, hr, hoff⟩ := Option.map_eq_some_iff.mp hlast
  have hplain : ∀ item ∈ rootEntries, item.Plain := by decide
  have hok := (lseek_listing (x := Env.opensRoot) (a := ⟨3, 4, 0, 0, 0, 0⟩) hstands).1
  refine ⟨s, got, hwalked, hstands, ?_, ?_⟩
  · exact ((listing_resumed_iff (a := ⟨3, 0, 0, 0, 0, 0⟩) hplain (by decide) hwalked hstands rfl).1 rfl).2
  · exact ((listing_resumed_iff (a := ⟨3, 4, 0, 0, 0, 0⟩) hplain (by decide) hwalked hstands rfl).2 3 r hr
      (by rw [hoff]; rfl)).mpr rfl ⟨_, hok⟩

/-- `seekdir` to after the first entry, and the answer that it is there. -/
theorem seekdir_ignored : ∃ (s : Machine × MemWorld .w64 × List GuestRun) (got : List Dirent64),
    Walked Env.opensRoot rootEntries 0 4 got ∧ s.1.Stands 3 rootEntries 4 ∧
    got[0]? = some ⟨1, 1, dtDir, ascii "."⟩ ∧
    ((lseek ⟨3, 1, 0, 0, 0, 0⟩).run (exec Env.opensRoot) s).1 = .ok 0 ∧
    ¬ Resumes Env.opensRoot ⟨3, 1, 0, 0, 0, 0⟩ rootEntries 1 s := by
  obtain ⟨s, got, hwalked, hstands, hfirst, -⟩ := four_read
  have hplain : ∀ item ∈ rootEntries, item.Plain := by decide
  obtain ⟨hok, hstays⟩ := lseek_listing (x := Env.opensRoot) (a := ⟨3, 1, 0, 0, 0, 0⟩) hstands
  rw [if_neg (by decide)] at hstays
  refine ⟨s, got, hwalked, hstands, hfirst, hok, fun hresumes => ?_⟩
  have hsame := (resumes_iff (x := Env.opensRoot)
    (a := ⟨3, 1, 0, 0, 0, 0⟩) hplain hstands hstays (by decide) (by decide)).mp hresumes
  cases hsame

end Wasmux
