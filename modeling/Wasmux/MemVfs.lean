import Wasmux.Session

/-!
# A filesystem held in memory

`MemVfs` keeps a tree of names over buffers that open files share. A call
answers nothing when it panics, which is what growing a buffer past `isize::MAX`
does; the machine's word is 32 or 64 bits wide.
-/

set_option autoImplicit false

namespace Wasmux
open Abi

inductive Width where
  | w32
  | w64
  deriving DecidableEq

namespace Width

def bits : Width → ℕ
  | .w32 => 32
  | .w64 => 64

def usizeMax (p : Width) : ℕ := 2^p.bits - 1

def isizeMax (p : Width) : ℕ := 2^(p.bits - 1) - 1

def usize (p : Width) (n : ℕ) : ℕ := n % 2^p.bits

end Width

/-- A `Vec<u8>`, which never holds more than `isize::MAX` bytes. -/
structure Buffer (p : Width) where
  bytes : Bytes
  held : bytes.length ≤ p.isizeMax

namespace Buffer
variable {p : Width}

def empty : Buffer p := ⟨[], Nat.zero_le _⟩

/-- `Vec::resize` with zeros, nothing where it panics. -/
def resize (b : Buffer p) (n : ℕ) : Option (Buffer p) :=
  if h : n ≤ p.isizeMax then
    some ⟨b.bytes.take n ++ List.replicate (n - b.bytes.length) 0, by
      rw [List.length_append, List.length_take, List.length_replicate]
      omega⟩
  else none

/-- `data.get_mut(start..end)` with `bytes` copied in, which it has to fit. -/
def splice (b : Buffer p) (start : ℕ) (bytes : Bytes) : Option (Buffer p) :=
  if h : start + bytes.length ≤ b.bytes.length then
    some ⟨b.bytes.take start ++ bytes ++ b.bytes.drop (start + bytes.length), by
      have := b.held
      simp only [List.length_append, List.length_take, List.length_drop]
      omega⟩
  else none

theorem resize_none_iff {b : Buffer p} {n : ℕ} : b.resize n = none ↔ p.isizeMax < n := by
  unfold resize
  split <;> simp <;> omega

theorem resize_length {b b' : Buffer p} {n : ℕ} (h : b.resize n = some b') : b'.bytes.length = n := by
  unfold resize at h
  split at h
  · obtain rfl := Option.some.inj h
    simp only [List.length_append, List.length_take, List.length_replicate]
    omega
  · cases h

theorem splice_isSome {b : Buffer p} {start : ℕ} {bytes : Bytes} (h : start + bytes.length ≤ b.bytes.length) :
    ∃ b', b.splice start bytes = some b' := by
  unfold splice
  rw [dif_pos h]
  exact ⟨_, rfl⟩

theorem splice_le {b b' : Buffer p} {start : ℕ} {bytes : Bytes} (h : b.splice start bytes = some b') :
    start + bytes.length ≤ b.bytes.length := by
  unfold splice at h
  split at h
  · assumption
  · cases h

theorem length_lt (b : Buffer p) : b.bytes.length < 2^63 := by
  have hmax : p.isizeMax < 2^63 := by cases p <;> decide
  exact b.held.trans_lt hmax

end Buffer

inductive MemNode where
  | dir (entries : List (Text × MemNode))
  | file (data : ℕ)
  | link (target : Text)

def parts (path : Text) : List Text := (path.splitOn slash).filter fun c => !c.isEmpty

def splitParent (path : Text) : Text × Text :=
  let name := (path.reverse.takeWhile fun b => b != slash).reverse
  let before := path.take (path.length - name.length)
  (if before.length ≤ 1 then root else before.dropLast, name)

namespace MemNode

def find : MemNode → List Text → Option MemNode
  | node, [] => some node
  | .dir entries, name :: rest => match entries.lookup name with
    | some node => node.find rest
    | none => none
  | _, _ :: _ => none

/-- The entry of a map that is kept in order of its names. -/
def insertEntry (name : Text) (node : MemNode) : List (Text × MemNode) → List (Text × MemNode)
  | [] => [(name, node)]
  | (n, old) :: rest =>
    if n = name then (name, node) :: rest
    else if name < n then (name, node) :: (n, old) :: rest
    else (n, old) :: insertEntry name node rest

def dirMut {α : Type} (f : List (Text × MemNode) → Except Errno (α × List (Text × MemNode))) :
    MemNode → List Text → Except Errno (α × MemNode)
  | .dir entries, [] => (f entries).map fun r => (r.1, .dir r.2)
  | _, [] => .error .notdir
  | .dir entries, name :: rest => match entries.lookup name with
    | none => .error .noent
    | some node => (node.dirMut f rest).map fun r => (r.1, .dir (insertEntry name r.2 entries))
  | _, _ :: _ => .error .noent

end MemNode

structure MemFile where
  data : ℕ
  pos : ℕ
  append : Bool
  writable : Bool
  /-- A position is always one that an `i64` can hold. -/
  reached : pos < 2^63

/-- Every `MemVfs` of a session, by the mount's number for it, with the buffers
and the open files they share. -/
structure MemWorld (p : Width) where
  roots : ℕ → MemNode
  buffers : List (Buffer p)
  files : List MemFile

namespace MemWorld
variable {p : Width}

def buffer (fs : MemWorld p) (data : ℕ) : Buffer p := (fs.buffers[data]?).getD .empty

def setBuffer (fs : MemWorld p) (data : ℕ) (b : Buffer p) : MemWorld p :=
  { fs with buffers := fs.buffers.set data b }

def setFile (fs : MemWorld p) (handle : Handle) (f : MemFile) : MemWorld p :=
  { fs with files := fs.files.set handle f }

def setRoot (fs : MemWorld p) (vfs : ℕ) (node : MemNode) : MemWorld p :=
  { fs with roots := fun v => if v = vfs then node else fs.roots v }

/-- The tree operation of one `MemVfs` that changes a directory. -/
def inDir (fs : MemWorld p) (vfs : ℕ) (parent : Text)
    (f : List (Text × MemNode) → Except Errno (List (Text × MemNode))) : Except Errno Unit × MemWorld p :=
  match (fs.roots vfs).dirMut
      (fun entries => (f entries).map fun entries => ((), entries)) (parts parent) with
  | .ok (_, node) => (.ok (), fs.setRoot vfs node)
  | .error e => (.error e, fs)

def mkdir (fs : MemWorld p) (vfs : ℕ) (path : Text) : Except Errno Unit × MemWorld p :=
  let (parent, name) := splitParent path
  if name = [] then (.error .exist, fs)
  else if ((fs.roots vfs).find (parts path)).isSome then (.error .exist, fs)
  else fs.inDir vfs parent fun entries => .ok (MemNode.insertEntry name (.dir []) entries)

def unlink (fs : MemWorld p) (vfs : ℕ) (path : Text) : Except Errno Unit × MemWorld p :=
  let (parent, name) := splitParent path
  fs.inDir vfs parent fun entries => match entries.lookup name with
    | some (.dir _) => .error .isdir
    | some _ => .ok (entries.filter fun e => e.1 != name)
    | none => .error .noent

def rmdir (fs : MemWorld p) (vfs : ℕ) (path : Text) : Except Errno Unit × MemWorld p :=
  let (parent, name) := splitParent path
  fs.inDir vfs parent fun entries => match entries.lookup name with
    | some (.dir []) => .ok (entries.filter fun e => e.1 != name)
    | some (.dir _) => .error .notempty
    | some _ => .error .notdir
    | none => .error .noent

def rename (fs : MemWorld p) (vfs : ℕ) (source target : Text) : Except Errno Unit × MemWorld p :=
  let (fromParent, fromName) := splitParent source
  let (toParent, toName) := splitParent target
  if fromName = [] ∨ toName = [] then (.error .inval, fs)
  else
    let take := fun (entries : List (Text × MemNode)) => match entries.lookup fromName with
      | some node => .ok (node, entries.filter fun e => e.1 != fromName)
      | none => .error .noent
    match (fs.roots vfs).dirMut take (parts fromParent) with
    | .error e => (.error e, fs)
    | .ok (node, without) =>
      match without.dirMut (fun entries => .ok ((), MemNode.insertEntry toName node entries))
          (parts toParent) with
      | .ok (_, moved) => (.ok (), fs.setRoot vfs moved)
      | .error e => match without.dirMut (fun entries =>
          .ok ((), MemNode.insertEntry fromName node entries)) (parts fromParent) with
        | .ok (_, back) => (.error e, fs.setRoot vfs back)
        | .error _ => (.error e, fs.setRoot vfs without)

def symlink (fs : MemWorld p) (vfs : ℕ) (target link : Text) : Except Errno Unit × MemWorld p :=
  let (parent, name) := splitParent link
  if name = [] then (.error .exist, fs)
  else if ((fs.roots vfs).find (parts link)).isSome then (.error .exist, fs)
  else fs.inDir vfs parent fun entries => .ok (MemNode.insertEntry name (.link target) entries)

def nodeStat (fs : MemWorld p) : MemNode → Stat
  | .dir _ => .dir
  | .file data => .file (fs.buffer data).bytes.length
  | .link target => .symlink target.length

/-- What the target of a link at `path` is to be found under. -/
def linkTarget (path target : Text) : Text :=
  if startsWithSlash target then target
  else ((splitParent path).1.reverse.dropWhile fun b => b == slash).reverse ++ slash :: target

def stat (fs : MemWorld p) (vfs : ℕ) (path : Text) (follow : Bool) : Except Errno Stat :=
  match (fs.roots vfs).find (parts path) with
  | none => .error .noent
  | some node => match node, follow with
    | .link target, true => match (fs.roots vfs).find (parts (linkTarget path target)) with
      | some node => .ok (fs.nodeStat node)
      | none => .error .noent
    | node, _ => .ok (fs.nodeStat node)

def entryOf : Text × MemNode → DirEntry
  | (name, .dir _) => ⟨name, some .dir, 0⟩
  | (name, .file _) => ⟨name, some .file, 0⟩
  | (name, .link _) => ⟨name, some .symlink, 0⟩

def readdir (fs : MemWorld p) (vfs : ℕ) (path : Text) : Except Errno (List DirEntry) :=
  match (fs.roots vfs).find (parts path) with
  | some (.dir entries) => .ok (entries.map entryOf)
  | some _ => .error .notdir
  | none => .error .noent

def readlink (fs : MemWorld p) (vfs : ℕ) (path : Text) : Except Errno Text :=
  match (fs.roots vfs).find (parts path) with
  | some (.link target) => .ok target
  | some _ => .error .inval
  | none => .error .noent

/-- A new handle on a buffer. -/
def openData (fs : MemWorld p) (data : ℕ) (opts : OpenOptions) : Except Errno Handle × MemWorld p :=
  (.ok fs.files.length, { fs with files := fs.files ++ [{
    data := data
    pos := if opts.append then (fs.buffer data).bytes.length else 0
    append := opts.append
    writable := opts.write || opts.append
    reached := by
      have := (fs.buffer data).length_lt
      split <;> omega }] })

def openFile (fs : MemWorld p) (vfs : ℕ) (path : Text) (opts : OpenOptions) :
    Except Errno Handle × MemWorld p :=
  let (parent, name) := splitParent path
  if name = [] then (.error .isdir, fs)
  else match (fs.roots vfs).find (parts path) with
    | some (.file data) =>
      if opts.createNew then (.error .exist, fs)
      else if opts.truncate && opts.write then (fs.setBuffer data .empty).openData data opts
      else fs.openData data opts
    | some (.dir _) => (.error .isdir, fs)
    | some (.link _) => (.error .loop, fs)
    | none =>
      if !opts.create && !opts.createNew then (.error .noent, fs)
      else
        let data := fs.buffers.length
        match fs.inDir vfs parent fun entries => .ok (MemNode.insertEntry name (.file data) entries) with
        | (.error e, fs) => (.error e, fs)
        | (.ok (), fs) => openData { fs with buffers := fs.buffers ++ [.empty] } data opts

section
variable (fs : MemWorld p) (handle : Handle) (f : MemFile)

def readFile (len : ℕ) : Except Errno (ℕ × Bytes) × MemWorld p :=
  let data := (fs.buffer f.data).bytes
  let src := data.drop (min f.pos data.length)
  let n := min src.length len
  (.ok (n, src.take n), fs.setFile handle { f with
    pos := satAddU64 f.pos n
    reached := by
      have := f.reached
      have hsrc : src.length = data.length - min f.pos data.length := List.length_drop
      have hdata : data.length < 2^63 := (fs.buffer f.data).length_lt
      unfold satAddU64
      omega })

def writeStart : ℕ := if f.append then (fs.buffer f.data).bytes.length else f.pos

def writeFile (bytes : Bytes) : Option (Except Errno ℕ × MemWorld p) :=
  if !f.writable then some (.error .badf, fs)
  else
    let start := p.usize (fs.writeStart f)
    let stop := min p.usizeMax (start + bytes.length)
    let data := fs.buffer f.data
    match if data.bytes.length < stop then data.resize stop else some data with
    | none => none
    | some data => match h : data.splice start bytes with
      | none => some (.error .io, fs.setBuffer f.data data)
      | some spliced => some (.ok bytes.length, (fs.setBuffer f.data spliced).setFile handle { f with
          pos := stop
          reached := by
            have := Buffer.splice_le h
            have := data.length_lt
            omega })

def seekTarget : SeekFrom → ℤ
  | .start n => asI64 n
  | .fromEnd d => satAddI64 (fs.buffer f.data).bytes.length d
  | .current d => satAddI64 (asI64 f.pos) d

theorem seekTarget_lt (target : SeekFrom) : fs.seekTarget f target < 2^63 := by
  cases target with
  | start n =>
    simp only [seekTarget, asI64]
    omega
  | fromEnd d | current d =>
    simp only [seekTarget, satAddI64, i64Max, i64Min]
    omega

def seekFile (target : SeekFrom) : Except Errno ℕ × MemWorld p :=
  if h : fs.seekTarget f target < 0 then (.error .inval, fs)
  else
    ((.ok (fs.seekTarget f target).toNat), fs.setFile handle { f with
      pos := (fs.seekTarget f target).toNat
      reached := by
        have := fs.seekTarget_lt f target
        omega })

def setLen (len : ℕ) : Option (Except Errno Unit × MemWorld p) :=
  if !f.writable then some (.error .badf, fs)
  else match (fs.buffer f.data).resize (p.usize len) with
    | none => none
    | some data => some (.ok (), fs.setBuffer f.data data)

end

def file (fs : MemWorld p) (handle : Handle) (call : FileCall) :
    Option (Except Errno call.Ans × MemWorld p) :=
  match fs.files[handle]? with
  | none => some (.error .badf, fs)
  | some f => match call with
    | .read len => some (fs.readFile handle f len)
    | .write data => fs.writeFile handle f data
    | .seek target => some (fs.seekFile handle f target)
    | .stat => some (.ok (.file (fs.buffer f.data).bytes.length), fs)
    | .setLen len => fs.setLen f len
    | .close => some (.ok (), fs)

def truncate (fs : MemWorld p) (vfs : ℕ) (path : Text) (len : ℕ) : Option (Except Errno Unit × MemWorld p) :=
  match fs.openFile vfs path ⟨false, true, false, false, false, false, 0o644⟩ with
  | (.error e, fs) => some (.error e, fs)
  | (.ok handle, opened) => (opened.file handle (.setLen len)).map fun r =>
      (r.1, { r.2 with files := fs.files })

/-- The methods of `MemVfs`. -/
def call (fs : MemWorld p) (vfs : ℕ) : (c : VfsCall) → Option (Except Errno c.Ans × MemWorld p)
  | .openFile path opts => some (fs.openFile vfs path opts)
  | .stat path follow => some (fs.stat vfs path follow, fs)
  | .readdir path => some (fs.readdir vfs path, fs)
  | .mkdir path _ => some (fs.mkdir vfs path)
  | .unlink path => some (fs.unlink vfs path)
  | .rmdir path => some (fs.rmdir vfs path)
  | .rename source target => some (fs.rename vfs source target)
  | .symlink target link => some (fs.symlink vfs target link)
  | .readlink path => some (fs.readlink vfs path, fs)
  | .truncate path len => fs.truncate vfs path len
  | .setMode _ _ => some (.ok (), fs)

end MemWorld

/-- A question to a `MemVfs` or to one of its files. -/
inductive MemCall where
  | vfs (vfs : ℕ) (call : VfsCall)
  | file (handle : Handle) (call : FileCall)

abbrev MemCall.Ans : MemCall → Type
  | .vfs _ call => call.Ans
  | .file _ call => call.Ans

namespace MemWorld
variable {p : Width}

def ask (fs : MemWorld p) : (c : MemCall) → Option (Except Errno c.Ans × MemWorld p)
  | .vfs vfs call => fs.call vfs call
  | .file handle call => fs.file handle call

/-- A call that wants a file longer than anything can be. -/
def TooLarge (fs : MemWorld p) : MemCall → Prop
  | .vfs _ (.truncate _ len) => p.isizeMax < len
  | .file _ (.setLen len) => p.isizeMax < len
  | .file handle (.write data) => ∃ f, fs.files[handle]? = some f ∧ p.isizeMax < fs.writeStart f + data.length
  | _ => False

/-- Whether there is a file there that takes what it is given. -/
def Takes (fs : MemWorld p) : MemCall → Prop
  | .vfs vfs (.truncate path _) =>
    (splitParent path).2 ≠ [] ∧ ∃ data, (fs.roots vfs).find (parts path) = some (.file data)
  | .file handle _ => ∃ f, fs.files[handle]? = some f ∧ f.writable = true
  | _ => False

/-- A call that does not panic, and for which what is too large to hold is an
error that leaves every file as it is. -/
def Sound (fs : MemWorld p) (c : MemCall) : Prop :=
  ∃ r fs', fs.ask c = some (r, fs') ∧ (fs.TooLarge c → (∃ e, r = .error e) ∧ fs'.buffers = fs.buffers)

theorem setLen_taken (fs : MemWorld p) {f : MemFile} (hf : f.writable = true) (len : ℕ) :
    fs.setLen f len = none ∨ ∃ fs', fs.setLen f len = some (.ok (), fs') := by
  simp only [setLen, hf, Bool.not_true, Bool.false_eq_true, if_false]
  split
  · exact .inl rfl
  · exact .inr ⟨_, rfl⟩

theorem setLen_fits (fs : MemWorld p) (f : MemFile) {len : ℕ} (h : len ≤ p.isizeMax) :
    ∃ r fs', fs.setLen f len = some (r, fs') := by
  have hsmall : p.usize len ≤ p.isizeMax := (Nat.mod_le _ _).trans h
  unfold setLen
  split
  · exact ⟨_, _, rfl⟩
  · split
    · rename_i hnone
      exact absurd (Buffer.resize_none_iff.mp hnone) (Nat.not_lt.mpr hsmall)
    · exact ⟨_, _, rfl⟩

theorem isizeMax_lt_usizeMax (p : Width) : p.isizeMax < p.usizeMax := by cases p <;> decide

theorem grown_length {b b' : Buffer p} {start count : ℕ}
    (h : (if b.bytes.length < min p.usizeMax (start + count) then b.resize
      (min p.usizeMax (start + count)) else some b) =
      some b') : start + count ≤ b'.bytes.length := by
  have hmax := isizeMax_lt_usizeMax p
  have hheld := b'.held
  split at h
  · have hlen := Buffer.resize_length h
    omega
  · obtain rfl := Option.some.inj h
    omega

theorem writeFile_taken (fs : MemWorld p) (handle : Handle) {f : MemFile} (hf : f.writable = true)
    (bytes : Bytes) :
    fs.writeFile handle f bytes = none ∨
    ∃ fs', fs.writeFile handle f bytes = some (.ok bytes.length, fs') := by
  unfold writeFile
  rw [if_neg (by simp [hf])]
  dsimp only
  split
  · exact .inl rfl
  · rename_i data hgrown
    obtain ⟨spliced, hspliced⟩ := Buffer.splice_isSome (grown_length hgrown)
    split
    · rename_i hnone
      rw [hnone] at hspliced
      cases hspliced
    · exact .inr ⟨_, rfl⟩

theorem writeFile_fits (fs : MemWorld p) (handle : Handle) (f : MemFile) {bytes : Bytes}
    (h : fs.writeStart f + bytes.length ≤ p.isizeMax) :
    ∃ r fs', fs.writeFile handle f bytes = some (r, fs') := by
  have hstop : min p.usizeMax (p.usize (fs.writeStart f) + bytes.length) ≤ p.isizeMax := by
    have hstart : p.usize (fs.writeStart f) ≤ fs.writeStart f := Nat.mod_le _ _
    omega
  unfold writeFile
  split
  · exact ⟨_, _, rfl⟩
  dsimp only
  split
  · rename_i hnone
    split at hnone
    · exact absurd (Buffer.resize_none_iff.mp hnone) (Nat.not_lt.mpr hstop)
    · cases hnone
  · split
    · exact ⟨_, _, rfl⟩
    · exact ⟨_, _, rfl⟩

theorem openFile_taken (fs : MemWorld p) {vfs : ℕ} {path : Text} (opts : OpenOptions) {data : ℕ}
    (hname : (splitParent path).2 ≠ []) (hfind : (fs.roots vfs).find (parts path) = some (.file data))
    (hnew : opts.createNew = false) (hkeep : opts.truncate = false) :
    fs.openFile vfs path opts = fs.openData data opts := by
  simp [openFile, hname, hfind, hnew, hkeep]

/-- Opening what is not a file, where nothing is to be created, changes nothing. -/
theorem openFile_refused (fs : MemWorld p) {vfs : ℕ} {path : Text} (opts : OpenOptions)
    (h : ¬ ((splitParent path).2 ≠ [] ∧ ∃ data, (fs.roots vfs).find (parts path) = some (.file data)))
    (hcreate : opts.create = false) (hnew : opts.createNew = false) :
    ∃ e, fs.openFile vfs path opts = (.error e, fs) := by
  unfold openFile
  dsimp only
  split
  · exact ⟨_, rfl⟩
  rename_i hname
  split
  · rename_i data hfind
    exact absurd ⟨hname, data, hfind⟩ h
  · exact ⟨_, rfl⟩
  · exact ⟨_, rfl⟩
  · rw [if_pos (by simp [hcreate, hnew])]
    exact ⟨_, rfl⟩

theorem sound_of_small {fs : MemWorld p} {c : MemCall} (hsmall : ¬ fs.TooLarge c)
    (h : ∃ r fs', fs.ask c = some (r, fs')) : fs.Sound c := by
  obtain ⟨r, fs', hask⟩ := h
  exact ⟨r, fs', hask, fun hlarge => absurd hlarge hsmall⟩

theorem sound_of_refused {fs fs' : MemWorld p} {c : MemCall} {e : Errno} (h : fs.ask c = some (.error e, fs'))
    (hsame : fs'.buffers = fs.buffers) : fs.Sound c := ⟨_, _, h, fun _ => ⟨⟨e, rfl⟩, hsame⟩⟩

theorem sound_of_taken {fs : MemWorld p} {c : MemCall}
    (htaken : fs.ask c = none ∨ ∃ a fs', fs.ask c = some (.ok a, fs'))
    (hfits : ¬ fs.TooLarge c → ∃ r fs', fs.ask c = some (r, fs')) : fs.Sound c ↔ ¬ fs.TooLarge c := by
  constructor
  · rintro ⟨r, fs', hask, herror⟩ hlarge
    obtain ⟨⟨e, rfl⟩, -⟩ := herror hlarge
    rcases htaken with hnone | ⟨a, fs'', hok⟩
    · rw [hnone] at hask
      cases hask
    · rw [hok] at hask
      cases hask
  · exact fun hsmall => sound_of_small hsmall (hfits hsmall)

theorem sound_file (fs : MemWorld p) (handle : Handle) (call : FileCall) :
    fs.Sound (.file handle call) ↔ ¬ (fs.TooLarge (.file handle call) ∧ fs.Takes (.file handle call)) := by
  cases hfile : fs.files[handle]? with
  | none =>
    have hask : fs.ask (.file handle call) = some (.error .badf, fs) := by
      simp only [ask, file, hfile]
    refine iff_of_true (sound_of_refused hask rfl) ?_
    rintro ⟨-, f, hf, -⟩
    rw [hfile] at hf
    cases hf
  | some f =>
    have htakes : fs.Takes (.file handle call) ↔ f.writable = true := by simp [Takes, hfile]
    rw [htakes]
    cases call with
    | write data =>
      have hask : fs.ask (.file handle (.write data)) = fs.writeFile handle f data := by
        simp only [ask, file, hfile]
      have hlarge : fs.TooLarge (.file handle (.write data)) ↔
          p.isizeMax < fs.writeStart f + data.length := by
        simp [TooLarge, hfile]
      cases hw : f.writable with
      | true =>
        rw [sound_of_taken]
        · simp
        · rw [hask]
          exact (fs.writeFile_taken handle hw data).imp_right fun ⟨fs', h⟩ => ⟨_, fs', h⟩
        · rw [hask, hlarge, Nat.not_lt]
          exact fs.writeFile_fits handle f
      | false =>
        have hrefused : fs.writeFile handle f data = some (.error .badf, fs) := by simp [writeFile, hw]
        exact iff_of_true (sound_of_refused (hask.trans hrefused) rfl) (by simp)
    | setLen len =>
      have hask : fs.ask (.file handle (.setLen len)) = fs.setLen f len := by
        simp only [ask, file, hfile]
      cases hw : f.writable with
      | true =>
        rw [sound_of_taken]
        · simp
        · rw [hask]
          exact (fs.setLen_taken hw len).imp_right fun ⟨fs', h⟩ => ⟨_, fs', h⟩
        · rw [hask]
          exact fun hsmall => fs.setLen_fits f (Nat.not_lt.mp hsmall)
      | false =>
        have hrefused : fs.setLen f len = some (.error .badf, fs) := by simp [setLen, hw]
        exact iff_of_true (sound_of_refused (hask.trans hrefused) rfl) (by simp)
    | read len =>
      have hask : fs.ask (.file handle (.read len)) = some (fs.readFile handle f len) := by
        simp only [ask, file, hfile]
      exact iff_of_true (sound_of_small id ⟨_, _, hask⟩) fun h => h.1
    | seek target =>
      have hask : fs.ask (.file handle (.seek target)) = some (fs.seekFile handle f target) := by
        simp only [ask, file, hfile]
      exact iff_of_true (sound_of_small id ⟨_, _, hask⟩) fun h => h.1
    | stat =>
      have hask : fs.ask (.file handle .stat) = some (.ok (.file (fs.buffer f.data).bytes.length), fs) := by
        simp only [ask, file, hfile]
      exact iff_of_true (sound_of_small id ⟨_, _, hask⟩) fun h => h.1
    | close =>
      have hask : fs.ask (.file handle .close) = some (.ok (), fs) := by
        simp only [ask, file, hfile]
      exact iff_of_true (sound_of_small id ⟨_, _, hask⟩) fun h => h.1

theorem sound_truncate (fs : MemWorld p) (vfs : ℕ) (path : Text) (len : ℕ) :
    fs.Sound (.vfs vfs (.truncate path len)) ↔
      ¬ (fs.TooLarge (.vfs vfs (.truncate path len)) ∧ fs.Takes (.vfs vfs (.truncate path len))) := by
  by_cases htakes : fs.Takes (.vfs vfs (.truncate path len))
  · obtain ⟨hname, data, hfind⟩ := htakes
    have hopen := fs.openFile_taken ⟨false, true, false, false, false, false, 0o644⟩ hname hfind rfl rfl
    obtain ⟨opened, f, hopened, hlast, hw⟩ : ∃ (opened : MemWorld p) (f : MemFile),
        fs.openData data ⟨false, true, false, false, false, false, 0o644⟩ = (.ok fs.files.length, opened) ∧
        opened.files[fs.files.length]? = some f ∧ f.writable = true := by
      exact ⟨_, _, rfl, List.getElem?_concat_length .., rfl⟩
    have hask : fs.ask (.vfs vfs (.truncate path len)) =
        (opened.setLen f len).map fun r => (r.1, { r.2 with files := fs.files }) := by
      simp only [ask, call, truncate, hopen, hopened, file, hlast]
    rw [sound_of_taken]
    · exact ⟨fun hsmall hboth => hsmall hboth.1, fun hnot hlarge => hnot ⟨hlarge, hname, data, hfind⟩⟩
    · rw [hask]
      rcases opened.setLen_taken hw len with hnone | ⟨fs', hok⟩
      · exact .inl (by rw [hnone]; rfl)
      · exact .inr ⟨(), _, by rw [hok]; rfl⟩
    · intro hsmall
      obtain ⟨r, fs', hr⟩ := opened.setLen_fits f (Nat.not_lt.mp hsmall)
      exact ⟨r, _, by rw [hask, hr]; rfl⟩
  · obtain ⟨e, hopen⟩ := fs.openFile_refused ⟨false, true, false, false, false, false, 0o644⟩ htakes rfl rfl
    have hask : fs.ask (.vfs vfs (.truncate path len)) = some (.error e, fs) := by
      simp only [ask, call, truncate, hopen]
    exact iff_of_true (sound_of_refused hask rfl) fun h => htakes h.2

theorem sound_iff (fs : MemWorld p) (c : MemCall) : fs.Sound c ↔ ¬ (fs.TooLarge c ∧ fs.Takes c) := by
  cases c with
  | file handle call => exact fs.sound_file handle call
  | vfs vfs call =>
    cases call with
    | truncate path len => exact fs.sound_truncate vfs path len
    | _ => exact iff_of_true (sound_of_small id ⟨_, _, rfl⟩) fun h => h.1

end MemWorld

section
open Effects
variable {W : Type} (p : Width)

/-- An environment whose mounts are `MemVfs`. What a call that panics would have
answered does not matter, as the session goes down with it. -/
def Env.memory (x : Env W) : Env (MemWorld p × W) where
  now w := ((x.now w.2).1, w.1, (x.now w.2).2)
  instantMax := x.instantMax
  epoch w := ((x.epoch w.2).1, w.1, (x.epoch w.2).2)
  seed w := x.seed w.2
  setSeed n w := (w.1, x.setSeed n w.2)
  hash := x.hash
  uptimeText := x.uptimeText
  vfs v call w := match w.1.call v call with
    | some (r, fs) => (r, fs, w.2)
    | none => (.error .io, w)
  hasSymlinks _ := true
  file handle call w := match w.1.file handle call with
    | some (r, fs) => (r, fs, w.2)
    | none => (.error .io, w)
  grant size pages w := ((x.grant size pages w.2).1, w.1, (x.grant size pages w.2).2)
  instantiate image w := ((x.instantiate image w.2).1, w.1, (x.instantiate image w.2).2)
  guest inst w := ((x.guest inst w.2).1, w.1, (x.guest inst w.2).2)
  readsStdin c argv w := ((x.readsStdin c argv w.2).1, w.1, (x.readsStdin c argv w.2).2)
  command c call w := ((x.command c call w.2).1, w.1, (x.command c call w.2).2)

/-- What an operation asks of a mount or a file. -/
def KOp.memCall (mounts : Mounts) : KOp → Option MemCall
  | .machine _ (.env (.vfs mount call)) => (mounts.get mount).map fun m => .vfs m.vfs call
  | .machine _ (.env (.file handle call)) => some (.file handle call)
  | .env (.closeFile handle) => some (.file handle .close)
  | _ => none

variable {p}

/-- In a slice of a session, whatever its guests call, a `MemVfs` does not panic
and refuses what is too large if and only if no file that takes it is asked to
hold more than `isize::MAX` bytes. -/
theorem mem_sound_iff (x : Env W) (turns : ℕ) (budget : Budget) (s : Kernel × MemWorld p × W) :
    Program.Along (kexec (x.memory p)) (fun o s => ∀ c, o.memCall s.1.shared.mounts = some c → s.2.1.Sound c)
      (Scheduler.run turns budget) s ↔
    Program.Along (kexec (x.memory p)) (fun o s => ∀ c, o.memCall s.1.shared.mounts = some c →
      ¬ (s.2.1.TooLarge c ∧ s.2.1.Takes c)) (Scheduler.run turns budget) s := by
  constructor
  · exact Program.Along.mono _ fun o s h c hc => (s.2.1.sound_iff c).mp (h c hc)
  · exact Program.Along.mono _ fun o s h c hc => (s.2.1.sound_iff c).mpr (h c hc)

end

/-- Guests with the arguments of `openat` of a new file and of an `ftruncate` of
it to 2^63 bytes, over an empty `MemVfs`. -/
def Env.truncates : Env (MemWorld .w64 × List GuestRun) :=
  (Env.scripted (.startingWith
    (argWords [atFdcwd, 24, 0x42, 0, 0, 0, 0x66, 0, 3, 0, 0x80000000, 0, 0, 0]))).memory .w64

def MemWorld.new (p : Width) : MemWorld p := ⟨fun _ => .dir [], [], []⟩

/-- A guest that opens a file and makes it that long brings the session down. -/
theorem ftruncate_panics : ∃ (k : Kernel) (w : MemWorld .w64 × List GuestRun),
    Config.oneMount.spawn Env.truncates (MemWorld.new .w64, [⟨[.syscall 56 0, .syscall 46 32], some []⟩]) =
    some (k, w) ∧
    ¬ Effects.Program.Along (kexec Env.truncates)
      (fun o s => ∀ c, o.memCall s.1.shared.mounts = some c → s.2.1.Sound c) (Scheduler.run 3 ⟨none, none⟩)
        (k, w) := by
  have hspawn : Config.oneMount.spawn Env.truncates
      (MemWorld.new .w64, [⟨[.syscall 56 0, .syscall 46 32], some []⟩]) = some (_, _) := rfl
  refine ⟨_, _, hspawn, fun halong => ?_⟩
  have hvisit := (Effects.Program.along_iff_trace _ _ _ _).mp halong _ (List.mem_of_getElem? (i := 26) rfl)
  obtain ⟨r, fs, hask, -⟩ := hvisit (.file 0 (.setLen (2^63))) rfl
  have hpanics := hask.symm.trans (rfl : _ = none)
  cases hpanics

end Wasmux
