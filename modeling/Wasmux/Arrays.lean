import Wasmux.MemVfs

/-!
# Files as arrays of bytes

What a file in memory is meant to be: an array of any length, with positions
that are any number and gaps that read as zero. A `MemFile` is one for as long
as nothing it is asked for exceeds what a `usize` buffer and an `i64` position
can hold, and for no longer.
-/

set_option autoImplicit false

namespace Wasmux

/-- An open file: whose contents it is on, and where. -/
structure Cursor where
  data : ℕ
  pos : ℕ
  append : Bool
  writable : Bool
  deriving DecidableEq

/-- Files without bounds, and the handles that are open on them. -/
structure ByteFiles where
  contents : ℕ → Bytes
  cursors : Handle → Option Cursor

namespace ByteFiles

/-- An array with `bytes` from `start` on, and zeros before that where it was shorter. -/
def splice (contents : Bytes) (start : ℕ) (bytes : Bytes) : Bytes :=
  contents.take start ++ List.replicate (start - contents.length) 0 ++ bytes ++ contents.drop
    (start + bytes.length)

/-- An array cut off at `len`, or made that long with zeros. -/
def resize (contents : Bytes) (len : ℕ) : Bytes :=
    contents.take len ++ List.replicate (len - contents.length) 0

def setContents (w : ByteFiles) (data : ℕ) (bytes : Bytes) : ByteFiles :=
  { w with contents := Function.update w.contents data bytes }

def setPos (w : ByteFiles) (handle : Handle) (c : Cursor) (pos : ℕ) : ByteFiles :=
  { w with cursors := Function.update w.cursors handle (some { c with pos := pos }) }

def destination (length pos : ℕ) : SeekFrom → ℤ
  | .start n => n
  | .fromEnd d => length + d
  | .current d => pos + d

/-- What a handle answers, and what becomes of the files. -/
def ask (w : ByteFiles) (handle : Handle) (call : FileCall) : Except Errno call.Ans × ByteFiles :=
  match w.cursors handle with
  | none => (.error .badf, w)
  | some c => match call with
    | .read len =>
      let bytes := ((w.contents c.data).drop c.pos).take len
      (.ok (bytes.length, bytes), w.setPos handle c (c.pos + bytes.length))
    | .write bytes =>
      if !c.writable then (.error .badf, w)
      else
        let start := if c.append then (w.contents c.data).length else c.pos
        (.ok bytes.length,
          (w.setContents c.data (splice (w.contents c.data) start bytes)).setPos handle c
            (start + bytes.length))
    | .seek target =>
      let position := destination (w.contents c.data).length c.pos target
      if position < 0 then (.error .inval, w)
      else (.ok position.toNat, w.setPos handle c position.toNat)
    | .stat => (.ok (.file (w.contents c.data).length), w)
    | .setLen len =>
      if !c.writable then (.error .badf, w)
      else (.ok (), w.setContents c.data (resize (w.contents c.data) len))
    | .close => (.ok (), w)

theorem splice_inside {contents bytes : Bytes} {start : ℕ} (h : start + bytes.length ≤ contents.length) :
    splice contents start bytes = contents.take start ++ bytes ++ contents.drop (start + bytes.length) := by
  have hgap : start - contents.length = 0 := by omega
  rw [splice, hgap, List.replicate_zero, List.append_nil]

theorem splice_resize {contents bytes : Bytes} {start : ℕ} (h : contents.length < start + bytes.length) :
    (resize contents (start + bytes.length)).take start ++ bytes ++
      (resize contents (start + bytes.length)).drop (start + bytes.length) = splice contents start bytes := by
  have hwhole : contents.take (start + bytes.length) = contents := List.take_of_length_le h.le
  have hnone : contents.drop (start + bytes.length) = [] := List.drop_eq_nil_of_le h.le
  have hshort : min (start - contents.length) (start + bytes.length - contents.length) =
    start - contents.length := by omega
  rw [splice, resize, hwhole, hnone, List.take_append, List.take_replicate, hshort, List.drop_append, hnone,
    List.drop_replicate]
  simp

theorem length_resize (contents : Bytes) (len : ℕ) : (resize contents len).length = len := by
  rw [resize, List.length_append, List.length_take, List.length_replicate]
  omega

end ByteFiles

/-- Arguments of the types that the methods take. -/
def FileCall.Typed : FileCall → Prop
  | .seek (.start n) => n < 2^64
  | .seek (.fromEnd d) | .seek (.current d) => -2^63 ≤ d ∧ d < 2^63
  | .setLen len => len < 2^64
  | _ => True

def MemFile.cursor (f : MemFile) : Cursor := ⟨f.data, f.pos, f.append, f.writable⟩

namespace Buffer
variable {p : Width} {b b' : Buffer p} {start : ℕ} {bytes : Bytes}

theorem resize_bytes {n : ℕ} (h : b.resize n = some b') : b'.bytes = ByteFiles.resize b.bytes n := by
  unfold resize at h
  split at h
  · obtain rfl := Option.some.inj h
    rfl
  · cases h

theorem splice_bytes (h : b.splice start bytes = some b') :
    b'.bytes = b.bytes.take start ++ bytes ++ b.bytes.drop (start + bytes.length) := by
  unfold splice at h
  split at h
  · obtain rfl := Option.some.inj h
    rfl
  · cases h

end Buffer

namespace MemWorld
variable {p : Width}

theorem isizeMax_lt_pow (p : Width) : p.isizeMax < 2^p.bits := by cases p <;> decide

def arrays (fs : MemWorld p) : ByteFiles where
  contents data := (fs.buffer data).bytes
  cursors handle := (fs.files[handle]?).map MemFile.cursor

/-- Every open file has a buffer. -/
def Backed (fs : MemWorld p) : Prop := ∀ f ∈ fs.files, f.data < fs.buffers.length

/-- A call that does what it does to arrays, or fails and changes nothing. -/
def AsArray (fs : MemWorld p) (handle : Handle) (call : FileCall) : Prop :=
  ∃ r after, fs.file handle call = some (r, after) ∧
    ((∃ e, r = .error e) ∧ after.arrays = fs.arrays ∨ fs.arrays.ask handle call = (r, after.arrays))

/-- A call on a file that takes it needs no buffer longer than can be and leads to
no position that an `i64` does not hold. -/
def Representable (fs : MemWorld p) (handle : Handle) (call : FileCall) : Prop :=
  ∀ f, fs.files[handle]? = some f → match call with
    | .write bytes => f.writable = true → fs.writeStart f + bytes.length ≤ p.isizeMax
    | .setLen len => f.writable = true → len ≤ p.isizeMax
    | .seek (.fromEnd d) => ((fs.buffer f.data).bytes.length : ℤ) + d ≤ i64Max
    | .seek (.current d) => (f.pos : ℤ) + d ≤ i64Max
    | _ => True

/-- What holds of every call of a sequence, each in the state the ones before it
leave, for as long as none panics. -/
def Throughout (P : MemWorld p → Handle → FileCall → Prop) : MemWorld p → List (Handle × FileCall) → Prop
  | _, [] => True
  | fs, (handle, call) :: rest =>
    P fs handle call ∧ ∀ r after, fs.file handle call = some (r, after) → Throughout P after rest

section
variable {fs : MemWorld p} {handle : Handle} {f : MemFile}

theorem buffer_setBuffer {data : ℕ} (b : Buffer p) (h : data < fs.buffers.length) (d : ℕ) :
    (fs.setBuffer data b).buffer d = if d = data then b else fs.buffer d := by
  unfold buffer setBuffer
  rw [List.getElem?_set]
  by_cases hd : data = d
  · rw [if_pos hd, if_pos h, if_pos hd.symm]
    rfl
  · rw [if_neg hd, if_neg (Ne.symm hd)]

theorem arrays_setBuffer {data : ℕ} (b : Buffer p) (h : data < fs.buffers.length) :
    (fs.setBuffer data b).arrays = fs.arrays.setContents data b.bytes := by
  have hcontents : (fs.setBuffer data b).arrays.contents =
      Function.update fs.arrays.contents data b.bytes := by
    funext d
    change ((fs.setBuffer data b).buffer d).bytes = _
    rw [buffer_setBuffer b h, Function.update_apply]
    split <;> rfl
  exact congrArg (fun contents => ByteFiles.mk contents fs.arrays.cursors) hcontents

theorem arrays_setFile (hf : fs.files[handle]? = some f) (new : MemFile) :
    (fs.setFile handle new).arrays =
      { fs.arrays with cursors := Function.update fs.arrays.cursors handle (some new.cursor) } := by
  have hlt := (List.getElem?_eq_some_iff.mp hf).1
  have hcursors : (fs.setFile handle new).arrays.cursors =
      Function.update fs.arrays.cursors handle (some new.cursor) := by
    funext h
    change ((fs.files.set handle new)[h]?).map MemFile.cursor = _
    rw [List.getElem?_set, Function.update_apply]
    by_cases hh : handle = h
    · rw [if_pos hh, if_pos hlt, if_pos hh.symm]
      rfl
    · rw [if_neg hh, if_neg (Ne.symm hh)]
      rfl
  exact congrArg (fun cursors => ByteFiles.mk fs.arrays.contents cursors) hcursors

theorem arrays_cursor (hf : fs.files[handle]? = some f) : fs.arrays.cursors handle = some f.cursor := by
  simp only [arrays, hf, Option.map_some]

theorem file_of_open (hf : fs.files[handle]? = some f) (call : FileCall) :
    fs.file handle call = match call with
      | .read len => some (fs.readFile handle f len)
      | .write data => fs.writeFile handle f data
      | .seek target => some (fs.seekFile handle f target)
      | .stat => some (.ok (.file (fs.buffer f.data).bytes.length), fs)
      | .setLen len => fs.setLen f len
      | .close => some (.ok (), fs) := by
  cases call <;> simp only [file, hf]

variable (fs handle f) in
/-- What a read answers, and where it leaves the file. -/
theorem readFile_eq (len : ℕ) :
    (fs.readFile handle f len).1 =
      .ok ((((fs.buffer f.data).bytes.drop f.pos).take len).length,
        ((fs.buffer f.data).bytes.drop f.pos).take len) ∧
    ∃ new, (fs.readFile handle f len).2 = fs.setFile handle new ∧
      new.cursor = { f.cursor with
        pos := f.pos + (((fs.buffer f.data).bytes.drop f.pos).take len).length } := by
  have hdrop : (fs.buffer f.data).bytes.drop (min f.pos (fs.buffer f.data).bytes.length) =
      (fs.buffer f.data).bytes.drop f.pos := by
    rcases Nat.le_total f.pos (fs.buffer f.data).bytes.length with hle | hle
    · rw [Nat.min_eq_left hle]
    · rw [Nat.min_eq_right hle, List.drop_length, List.drop_eq_nil_of_le hle]
  have hcount : (((fs.buffer f.data).bytes.drop f.pos).take len).length =
      min ((fs.buffer f.data).bytes.drop f.pos).length len := by rw [List.length_take, Nat.min_comm]
  have htake : ((fs.buffer f.data).bytes.drop f.pos).take
    (min ((fs.buffer f.data).bytes.drop f.pos).length len) =
      ((fs.buffer f.data).bytes.drop f.pos).take len := by
    rcases Nat.le_total ((fs.buffer f.data).bytes.drop f.pos).length len with hle | hle
    · rw [Nat.min_eq_left hle, List.take_length, List.take_of_length_le hle]
    · rw [Nat.min_eq_right hle]
  have hadd : satAddU64 f.pos (((fs.buffer f.data).bytes.drop f.pos).take len).length =
      f.pos + (((fs.buffer f.data).bytes.drop f.pos).take len).length := by
    have hheld := (fs.buffer f.data).length_lt
    have hreached := f.reached
    have hlength : ((fs.buffer f.data).bytes.drop f.pos).length ≤ (fs.buffer f.data).bytes.length := by
      rw [List.length_drop]
      omega
    rw [hcount]
    unfold satAddU64 u64Max
    omega
  constructor
  · unfold readFile
    simp only [hdrop, htake, hcount]
  · refine ⟨_, rfl, ?_⟩
    unfold MemFile.cursor
    simp only [hdrop, ← hcount, hadd]

variable (fs handle f) in
theorem seekFile_eq {target : SeekFrom} (h : ¬ fs.seekTarget f target < 0) :
    (fs.seekFile handle f target).1 = .ok (fs.seekTarget f target).toNat ∧
    ∃ new, (fs.seekFile handle f target).2 = fs.setFile handle new ∧
      new.cursor = { f.cursor with pos := (fs.seekTarget f target).toNat } := by
  unfold seekFile
  rw [dif_neg h]
  exact ⟨rfl, _, rfl, rfl⟩

/-- What a write that does not panic makes of its file. -/
theorem writeFile_some (hw : f.writable = true) {bytes : Bytes} {r : Except Errno ℕ} {after : MemWorld p}
    (h : fs.writeFile handle f bytes = some (r, after)) :
    r = .ok bytes.length ∧ ∃ grown,
      (if (fs.buffer f.data).bytes.length < min p.usizeMax (p.usize (fs.writeStart f) + bytes.length)
        then (fs.buffer f.data).resize (min p.usizeMax (p.usize (fs.writeStart f) + bytes.length))
        else some (fs.buffer f.data)) = some grown ∧
      ∃ spliced, grown.splice (p.usize (fs.writeStart f)) bytes = some spliced ∧
        ∃ new, after = (fs.setBuffer f.data spliced).setFile handle new ∧
          new.cursor = { f.cursor with
            pos := min p.usizeMax (p.usize (fs.writeStart f) + bytes.length) } := by
  unfold writeFile at h
  rw [if_neg (by simp [hw])] at h
  dsimp only at h
  split at h
  · cases h
  rename_i grown hgrown
  split at h
  · rename_i hnone
    obtain ⟨spliced, hspliced⟩ := Buffer.splice_isSome (grown_length hgrown)
    cases hnone.symm.trans hspliced
  · rename_i spliced hspliced
    cases h
    exact ⟨rfl, grown, hgrown, spliced, hspliced, _, rfl, rfl⟩

variable (hf : fs.files[handle]? = some f)
include hf

theorem asArray_read (len : ℕ) : fs.AsArray handle (.read len) := by
  obtain ⟨hanswer, new, hafter, hcursor⟩ := readFile_eq fs handle f len
  refine ⟨(fs.readFile handle f len).1, (fs.readFile handle f len).2, file_of_open hf _, .inr ?_⟩
  rw [hafter, arrays_setFile hf, hcursor, hanswer]
  simp only [ByteFiles.ask, arrays_cursor hf]
  rfl

/-- Where a seek leads is where it is meant to, unless that is more than an `i64` holds. -/
theorem seekTarget_eq {target : SeekFrom} (ht : (FileCall.seek target).Typed)
    (hr : fs.Representable handle (.seek target)) :
    fs.seekTarget f target = ByteFiles.destination (fs.buffer f.data).bytes.length f.pos target ∨
      fs.seekTarget f target < 0 := by
  have hfits := hr f hf
  cases target with
  | start n =>
    have hn : n < 2^64 := ht
    simp only [seekTarget, asI64, ByteFiles.destination]
    omega
  | fromEnd d =>
    simp only [seekTarget, satAddI64, ByteFiles.destination, i64Min]
    omega
  | current d =>
    have hpos := f.reached
    simp only [seekTarget, asI64, satAddI64, ByteFiles.destination, i64Min]
    omega

/-- A seek that leads further stops at the greatest position there is. -/
theorem seekTarget_stops {target : SeekFrom} (h : ¬ fs.Representable handle (.seek target)) :
    fs.seekTarget f target = i64Max ∧
    i64Max < ByteFiles.destination (fs.buffer f.data).bytes.length f.pos target := by
  obtain ⟨g, hg⟩ := not_forall.mp h
  obtain ⟨hopen, hg⟩ := Classical.not_imp.mp hg
  obtain rfl : f = g := Option.some.inj (hf.symm.trans hopen)
  cases target with
  | start n => exact absurd trivial hg
  | fromEnd d =>
    have hlarge : i64Max < (fs.buffer f.data).bytes.length + d := not_le.mp hg
    refine ⟨?_, hlarge⟩
    simp only [seekTarget, satAddI64, i64Min, i64Max] at hlarge ⊢
    omega
  | current d =>
    have hlarge : i64Max < f.pos + d := not_le.mp hg
    have hpos := f.reached
    refine ⟨?_, hlarge⟩
    simp only [seekTarget, asI64, satAddI64, i64Min, i64Max] at hlarge ⊢
    omega

theorem asArray_seek {target : SeekFrom} (ht : (FileCall.seek target).Typed) :
    fs.AsArray handle (.seek target) ↔ fs.Representable handle (.seek target) := by
  have hcall : fs.file handle (.seek target) = some (fs.seekFile handle f target) := file_of_open hf _
  have hask : fs.arrays.ask handle (.seek target) =
      if ByteFiles.destination (fs.buffer f.data).bytes.length f.pos target <
      0 then (.error .inval, fs.arrays)
      else (.ok (ByteFiles.destination (fs.buffer f.data).bytes.length f.pos target).toNat,
        fs.arrays.setPos handle f.cursor
        (ByteFiles.destination (fs.buffer f.data).bytes.length f.pos target).toNat) := by
    simp only [ByteFiles.ask, arrays_cursor hf]
    rfl
  constructor
  · rintro ⟨r, after, hr, hmeets⟩
    by_contra hlarge
    obtain ⟨hstops, hbeyond⟩ := seekTarget_stops hf hlarge
    have hmax : i64Max = 2^63 - 1 := rfl
    have hanswer := (seekFile_eq fs handle f (show ¬ fs.seekTarget f target < 0 by omega)).1
    have hseek : fs.seekFile handle f target = (r, after) := Option.some.inj (hcall.symm.trans hr)
    rw [hseek] at hanswer
    rcases hmeets with ⟨⟨e, he⟩, -⟩ | hsame
    · rw [he] at hanswer
      cases hanswer
    · rw [hask, if_neg (by omega)] at hsame
      have hnat : (ByteFiles.destination (fs.buffer f.data).bytes.length f.pos target).toNat =
      (fs.seekTarget f target).toNat :=
        Except.ok.inj ((Prod.mk.inj hsame).1.trans hanswer)
      omega
  · intro hr
    by_cases hneg : fs.seekTarget f target < 0
    · refine ⟨.error .inval, fs, ?_, .inl ⟨⟨_, rfl⟩, rfl⟩⟩
      rw [hcall, seekFile, dif_pos hneg]
    · have heq := (seekTarget_eq hf ht hr).resolve_right hneg
      obtain ⟨hanswer, new, hafter, hcursor⟩ := seekFile_eq fs handle f hneg
      refine ⟨(fs.seekFile handle f target).1, (fs.seekFile handle f target).2, hcall, .inr ?_⟩
      rw [hafter, arrays_setFile hf, hcursor, hanswer, hask, ← heq, if_neg hneg]
      rfl

omit hf in
theorem asArray_refused {call : FileCall} (hcall : fs.file handle call = some (.error .badf, fs)) :
    fs.AsArray handle call := ⟨_, _, hcall, .inl ⟨⟨_, rfl⟩, rfl⟩⟩

theorem asArray_setLen (hb : f.data < fs.buffers.length) (len : ℕ) :
    fs.AsArray handle (.setLen len) ↔ fs.Representable handle (.setLen len) := by
  have hcall : fs.file handle (.setLen len) = fs.setLen f len := file_of_open hf _
  cases hw : f.writable with
  | false =>
    have hrefused : fs.setLen f len = some (.error .badf, fs) := by simp [setLen, hw]
    refine iff_of_true (asArray_refused (hcall.trans hrefused)) fun g hg => ?_
    obtain rfl : f = g := Option.some.inj (hf.symm.trans hg)
    intro hwritable
    cases hw.symm.trans hwritable
  | true =>
    have hset : fs.setLen f len = ((fs.buffer f.data).resize (p.usize len)).map fun b =>
        (.ok (), fs.setBuffer f.data b) := by
      simp only [setLen, hw, Bool.not_true, Bool.false_eq_true, if_false]
      cases (fs.buffer f.data).resize (p.usize len) <;> rfl
    have hask : fs.arrays.ask handle (.setLen len) =
        (.ok (), fs.arrays.setContents f.data (ByteFiles.resize (fs.buffer f.data).bytes len)) := by
      have hcursor : f.cursor.writable = true := hw
      simp only [ByteFiles.ask, arrays_cursor hf, hcursor, Bool.not_true, Bool.false_eq_true, if_false]
      rfl
    constructor
    · rintro ⟨r, after, hr, hmeets⟩ g hg -
      rw [hcall, hset] at hr
      obtain ⟨b, hb', hr⟩ := Option.map_eq_some_iff.mp hr
      cases hr
      rcases hmeets with ⟨⟨e, he⟩, -⟩ | hsame
      · cases he
      -- What the file has become is no longer than a buffer can be.
      · rw [hask] at hsame
        have hcontents := congrFun (congrArg ByteFiles.contents (Prod.mk.inj hsame).2) f.data
        rw [arrays_setBuffer b hb] at hcontents
        simp only [ByteFiles.setContents, Function.update_self] at hcontents
        have hlength := congrArg List.length hcontents
        rw [ByteFiles.length_resize] at hlength
        obtain rfl : f = g := Option.some.inj (hf.symm.trans hg)
        exact hlength ▸ b.held
    · intro hr
      have hle : len ≤ p.isizeMax := hr f hf hw
      have hexact : p.usize len = len := Nat.mod_eq_of_lt (hle.trans_lt (isizeMax_lt_pow p))
      obtain ⟨b, hb'⟩ : ∃ b, (fs.buffer f.data).resize len = some b := by
        cases hnone : (fs.buffer f.data).resize len with
        | none => exact absurd (Buffer.resize_none_iff.mp hnone) (Nat.not_lt.mpr hle)
        | some b => exact ⟨b, rfl⟩
      refine ⟨.ok (), fs.setBuffer f.data b, ?_, .inr ?_⟩
      · rw [hcall, hset, hexact, hb']
        rfl
      · rw [hask, arrays_setBuffer b hb, Buffer.resize_bytes hb']

theorem asArray_write (hb : f.data < fs.buffers.length) (bytes : Bytes) :
    fs.AsArray handle (.write bytes) ↔ fs.Representable handle (.write bytes) := by
  have hcall : fs.file handle (.write bytes) = fs.writeFile handle f bytes := file_of_open hf _
  cases hw : f.writable with
  | false =>
    have hrefused : fs.writeFile handle f bytes = some (.error .badf, fs) := by simp [writeFile, hw]
    refine iff_of_true (asArray_refused (hcall.trans hrefused)) fun g hg => ?_
    obtain rfl : f = g := Option.some.inj (hf.symm.trans hg)
    intro hwritable
    cases hw.symm.trans hwritable
  | true =>
    have hask : fs.arrays.ask handle (.write bytes) = (.ok bytes.length,
        (fs.arrays.setContents f.data
          (ByteFiles.splice (fs.buffer f.data).bytes (fs.writeStart f) bytes)).setPos handle
          f.cursor (fs.writeStart f + bytes.length)) := by
      have hcursor : f.cursor.writable = true := hw
      simp only [ByteFiles.ask, arrays_cursor hf, hcursor, Bool.not_true, Bool.false_eq_true, if_false]
      rfl
    constructor
    · rintro ⟨r, after, hr, hmeets⟩ g hg -
      obtain rfl : f = g := Option.some.inj (hf.symm.trans hg)
      obtain ⟨hok, grown, -, spliced, hspliced, new, hafter, hpos⟩ := writeFile_some hw (hcall.symm.trans hr)
      rcases hmeets with ⟨⟨e, he⟩, -⟩ | hsame
      · cases hok.symm.trans he
      -- The position after the write is one in a buffer.
      · rw [hask] at hsame
        have hcursors := congrFun (congrArg ByteFiles.cursors (Prod.mk.inj hsame).2) handle
        rw [hafter, arrays_setFile (by exact hf), hpos] at hcursors
        simp only [ByteFiles.setPos, Function.update_self, Option.some.injEq, Cursor.mk.injEq,
          true_and] at hcursors
        have hend : fs.writeStart f + bytes.length =
          min p.usizeMax (p.usize (fs.writeStart f) + bytes.length) := hcursors.1
        have hfits := Buffer.splice_le hspliced
        have hheld := grown.held
        omega
    · intro hr
      have hle : fs.writeStart f + bytes.length ≤ p.isizeMax := hr f hf hw
      have hexact : p.usize (fs.writeStart f) = fs.writeStart f :=
        Nat.mod_eq_of_lt ((Nat.le_of_add_right_le hle).trans_lt (isizeMax_lt_pow p))
      obtain ⟨r, after, hwrites⟩ := fs.writeFile_fits handle f hle
      obtain ⟨hok, grown, hgrown, spliced, hspliced, new, hafter, hpos⟩ := writeFile_some hw hwrites
      have hstop : min p.usizeMax (fs.writeStart f + bytes.length) = fs.writeStart f + bytes.length :=
        Nat.min_eq_right (hle.trans (isizeMax_lt_usizeMax p).le)
      rw [hexact, hstop] at hgrown hpos
      rw [hexact] at hspliced
      have hbytes : spliced.bytes = ByteFiles.splice (fs.buffer f.data).bytes (fs.writeStart f) bytes := by
        rw [Buffer.splice_bytes hspliced]
        split at hgrown
        · rename_i hshort
          rw [Buffer.resize_bytes hgrown]
          exact ByteFiles.splice_resize hshort
        · rename_i hlong
          obtain rfl := Option.some.inj hgrown
          exact (ByteFiles.splice_inside (Nat.not_lt.mp hlong)).symm
      refine ⟨r, after, hcall.trans hwrites, .inr ?_⟩
      rw [hask, hok, hafter, arrays_setFile (by exact hf), arrays_setBuffer spliced hb, hbytes, hpos]
      rfl

end

/-- One call is one on arrays if and only if what it asks for can be represented. -/
theorem asArray_iff {fs : MemWorld p} (hb : fs.Backed) (handle : Handle) {call : FileCall} (ht : call.Typed) :
    fs.AsArray handle call ↔ fs.Representable handle call := by
  cases hf : fs.files[handle]? with
  | none =>
    have hcall : fs.file handle call = some (.error .badf, fs) := by simp only [file, hf]
    refine iff_of_true (asArray_refused hcall) fun f hopen => ?_
    cases hf.symm.trans hopen
  | some f =>
    have hdata := hb f (List.mem_of_getElem? hf)
    cases call with
    | read len => exact iff_of_true (asArray_read hf len) fun _ _ => trivial
    | write bytes => exact asArray_write hf hdata bytes
    | seek target => exact asArray_seek hf ht
    | setLen len => exact asArray_setLen hf hdata len
    | stat =>
      refine iff_of_true ⟨_, fs, file_of_open hf _, .inr ?_⟩ fun _ _ => trivial
      simp only [ByteFiles.ask, arrays_cursor hf]
      rfl
    | close =>
      refine iff_of_true ⟨_, fs, file_of_open hf _, .inr ?_⟩ fun _ _ => trivial
      simp only [ByteFiles.ask, arrays_cursor hf]

theorem backed_set {fs : MemWorld p} (hb : fs.Backed) {handle : Handle} {f new : MemFile}
    {buffers : List (Buffer p)} (hf : fs.files[handle]? = some f) (hnew : new.data = f.data)
    (hlen : buffers.length = fs.buffers.length) :
    ({ fs with buffers := buffers, files := fs.files.set handle new } : MemWorld p).Backed := by
  intro g hg
  rcases List.mem_or_eq_of_mem_set hg with hg | rfl
  · exact (hb g hg).trans_eq hlen.symm
  · exact (hnew ▸ hb f (List.mem_of_getElem? hf)).trans_eq hlen.symm

theorem backed_setBuffer {fs : MemWorld p} (hb : fs.Backed) (data : ℕ) (b : Buffer p) :
    (fs.setBuffer data b).Backed := by
  intro g hg
  exact (hb g hg).trans_eq List.length_set.symm

/-- A call leaves every open file a buffer. -/
theorem backed_file {fs after : MemWorld p} (hb : fs.Backed) {handle : Handle} {call : FileCall}
    {r : Except Errno call.Ans} (h : fs.file handle call = some (r, after)) : after.Backed := by
  cases hf : fs.files[handle]? with
  | none =>
    simp only [file, hf] at h
    cases h
    exact hb
  | some f =>
    rw [file_of_open hf] at h
    cases call with
    | read len =>
      cases h
      exact backed_set hb hf rfl rfl
    | write bytes =>
      cases hw : f.writable with
      | false =>
        simp only [writeFile, hw, Bool.not_false, if_true] at h
        cases h
        exact hb
      | true =>
        obtain ⟨-, grown, -, spliced, -, new, rfl, hpos⟩ := writeFile_some hw h
        exact backed_set hb hf (congrArg Cursor.data hpos) List.length_set
    | seek target =>
      simp only [seekFile] at h
      split at h <;> cases h
      · exact hb
      · exact backed_set hb hf rfl rfl
    | setLen len =>
      simp only [setLen] at h
      split at h
      · cases h
        exact hb
      · split at h <;> cases h
        exact backed_setBuffer hb _ _
    | stat | close =>
      cases h
      exact hb

/-- In a sequence of calls, through any handles, every one of them does what it
does to arrays of any length, or fails and changes nothing, if and only if what
each asks for can be represented when it is made. -/
theorem arrays_throughout_iff (fs : MemWorld p) (calls : List (Handle × FileCall)) (hb : fs.Backed)
    (ht : ∀ c ∈ calls, c.2.Typed) : Throughout AsArray fs calls ↔ Throughout Representable fs calls := by
  induction calls generalizing fs with
  | nil => exact Iff.rfl
  | cons c rest ih =>
    obtain ⟨handle, call⟩ := c
    have htyped : call.Typed := ht (handle, call) List.mem_cons_self
    refine and_congr (asArray_iff hb handle htyped) (forall_congr' fun r => forall_congr' fun after => ?_)
    refine imp_congr_right fun h => ih after (backed_file hb h) fun c hc => ht c (List.mem_cons_of_mem _ hc)

def oneOpen (p : Width) : MemWorld p := ⟨fun _ => .dir [], [.empty], [⟨0, 0, false, true, by decide⟩]⟩

theorem backed_oneOpen : (oneOpen p).Backed := by
  intro f hf
  obtain rfl := List.mem_singleton.mp hf
  exact Nat.zero_lt_one

/-- Two bytes written past the end of an empty file, and one of them read back. -/
theorem arrays_throughout_iff_write : Throughout AsArray (oneOpen .w32)
    [(0, .seek (.start 5)), (0, .write [7, 8]), (0, .seek (.current (-1))), (0, .read 4)] := by
  refine (arrays_throughout_iff (oneOpen .w32) _ backed_oneOpen (by simp [FileCall.Typed])).mpr ?_
  refine ⟨fun _ _ => trivial, fun r seeked hseek => ?_⟩
  cases hseek
  refine ⟨fun f hf _ => ?_, fun r written hwrite => ?_⟩
  · cases hf
    decide
  cases hwrite
  refine ⟨fun f hf => ?_, fun _ _ _ => ⟨fun _ _ => trivial, fun _ _ _ => trivial⟩⟩
  cases hf
  decide

/-- On a 32-bit target a length of 2^32 + 1 is taken for a length of one. -/
theorem setLen_reduced : ∃ after, (oneOpen .w32).file 0 (.setLen (2^32 + 1)) = some (.ok (), after) ∧
    (after.buffer 0).bytes = [0] ∧ ¬ Throughout AsArray (oneOpen .w32) [(0, .setLen (2^32 + 1))] := by
  have hcall : (oneOpen .w32).file 0 (.setLen (2^32 + 1)) = some (.ok (), _) := rfl
  refine ⟨_, hcall, rfl, fun h => ?_⟩
  have hfits := (asArray_iff backed_oneOpen 0 (by simp [FileCall.Typed])).mp h.1 _ rfl rfl
  exact absurd hfits (by decide)

end MemWorld
end Wasmux
