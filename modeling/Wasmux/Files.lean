import Wasmux.Streams

/-!
# Syscalls that take a path

Each resolves its path first and then speaks to the mount that owns it. What
a mount may be asked to follow was decided by the resolver before.
-/

set_option autoImplicit false

namespace Wasmux
open Effects Abi

def direntKind : Option FileType → ℕ
  | some .dir => dtDir
  | some .file => dtReg
  | some .symlink => dtLnk
  | none => dtUnknown

def baseEntries : List DirEnt := [⟨1, dtDir, ascii "."⟩, ⟨1, dtDir, ascii ".."⟩]

/-- The entries a mount listed, with a number made up where it gave none. -/
def listedEntries (guest : Text) : List DirEntry → Handler (List DirEnt)
  | [] => .ret []
  | item :: rest => do
    let ino ← if item.ino = 0 then env (.hash (guest ++ root ++ item.name)) else .ret item.ino
    let more ← listedEntries guest rest
    return ⟨ino, direntKind item.fileType, item.name⟩ :: more

/-- Add the kernel's own names to a listing, those that are not in it yet. -/
def mergeVirtual : List (Text × FileType) → List DirEnt → Handler (List DirEnt)
  | [], entries => .ret entries
  | (name, kind) :: rest, entries =>
    if entries.any fun e => e.name == name then mergeVirtual rest entries
    else do
      let ino ← env (.hash name)
      mergeVirtual rest (entries ++ [⟨ino, direntKind (some kind), name⟩])

def virtualDirents : List (Text × FileType) → Handler (List DirEnt)
  | [] => .ret []
  | (name, kind) :: rest => do
    let ino ← env (.hash name)
    let more ← virtualDirents rest
    return ⟨ino, direntKind (some kind), name⟩ :: more

def padLeft (width : ℕ) (text : Text) : Text := List.replicate (width - text.length) 0x20 ++ text

def memLine (label : String) (kb : ℕ) : Text := ascii label ++ padLeft 8 (decimal kb) ++ ascii " kB\n"

def mountLine (m : Mount) : Text :=
  ascii "wasmux " ++ m.point ++ ascii " wasmux " ++ ascii (if m.readOnly then "ro" else "rw") ++
    ascii ",relatime 0 0\n"

def baseName (guest : Text) : Text := (guest.splitOn slash).getLastD []

/-- The content of a generated `/proc` file, as of `uptime`. -/
def procText (v : View) (guest uptime : Text) : Bytes :=
  let name := baseName guest
  let pid := decimalInt v.task.pid
  let comm := v.task.comm
  if name = ascii "cpuinfo" then
    ascii "processor\t: 0\nvendor_id\t: wasmux\nmodel name\t: WebAssembly\nflags\t\t: wasm32\n"
  else if name = ascii "meminfo" then
    let total := v.limits.memory / 1024
    let free := total - v.memoryUsed / 1024
    memLine "MemTotal:       " total ++ memLine "MemFree:        " free ++
      memLine "MemAvailable:   " free ++
      ascii "Buffers:               0 kB\nCached:                0 kB\nSwapTotal:             0 kB\nSwapFree:              0 kB\n"
  else if name = ascii "uptime" then uptime ++ ascii " " ++ uptime ++ ascii "\n"
  else if name = ascii "version" then
    ascii "Linux version " ++ kernelRelease ++ ascii " (wasmux) #1 wasm32\n"
  else if name = ascii "loadavg" then ascii "0.00 0.00 0.00 1/1 1\n"
  else if name = ascii "filesystems" then ascii "nodev\tproc\n\twasmux\n"
  else if name = ascii "mounts" then
    v.mounts.list.flatMap mountLine ++ ascii "proc /proc proc rw,relatime 0 0\n"
  else if name = ascii "stat" ∧ guest = ascii "/proc/stat" then
    ascii "cpu  0 0 0 0 0 0 0 0 0 0\nprocesses 1\n"
  else if name = ascii "cmdline" then v.argv.flatMap fun arg => arg ++ [0]
  else if name = ascii "comm" then comm ++ ascii "\n"
  else if name = ascii "stat" then
    pid ++ ascii " (" ++ comm ++ ascii ") R 1 " ++ pid ++ ascii " " ++ pid ++
      ascii " 0 -1 0 0 0 0 0 0 0 0 0 20 0 1 0 0 0 0\n"
  else if name = ascii "status" then
    ascii "Name:\t" ++ comm ++ ascii "\nPid:\t" ++ pid ++ ascii "\nPPid:\t1\nThreads:\t1\n"
  else []

def procContent (guest : Text) : Handler Bytes := do
  let v ← view
  let d ← elapsed
  let uptime ← env (.uptimeText d)
  return procText v guest uptime

def blit (block : Bytes) (off : ℕ) (data : Bytes) : Bytes :=
  if off + data.length ≤ block.length then
    block.take off ++ data ++ block.drop (off + data.length)
  else block

def defaultMode : FileType → ℕ
  | .dir => 0o755
  | .file => 0o644
  | .symlink => 0o777

def typeBits : FileType → ℕ
  | .dir => sIfdir
  | .file => sIfreg
  | .symlink => sIflnk

/-- The `statx` buffer for a file with inode number `ino`. -/
def statxBlock (stat : Stat) (ino : ℕ) (rdev : ℕ × ℕ) : Bytes :=
  let mode := if stat.mode = 0 then defaultMode stat.fileType else stat.mode
  let block := blit (List.replicate 256 0) 0 (toLe 4 statxBasicStats)
  let block := blit block 4 (toLe 4 4096)
  let block := blit block 16 (toLe 4 (max stat.nlink 1))
  let block := blit block 28 (toLe 2 (typeBits stat.fileType ||| mode))
  let block := blit block 32 (toLe 8 ino)
  let block := blit block 40 (toLe 8 stat.size)
  let block := blit block 48 (toLe 8 (divCeil stat.size 512))
  let block := [64, 80, 96, 112].foldl (fun block offset =>
    blit (blit block offset (toLe 8 (asU64 stat.mtime.1))) (offset + 8) (toLe 4 stat.mtime.2)) block
  let block := blit block 128 (toLe 4 rdev.1)
  let block := blit block 132 (toLe 4 rdev.2)
  let block := blit block 136 (toLe 4 0)
  blit block 140 (toLe 4 1)

def writeStatx (start : ℕ) (stat : Stat) (path : Text) (rdev : ℕ × ℕ) : Handler Unit := do
  let ino ← if stat.ino = 0 then env (.hash path) else .ret stat.ino
  put start (statxBlock stat ino rdev)

def plainStat (mode size : ℕ) : Stat := { Stat.file size with mode := mode }

/-- What `statx` says about a device. -/
def deviceStat : Device → Stat × ℕ × ℕ
  | .null => (plainStat 0o666 0, 1, 3)
  | .zero => (plainStat 0o666 0, 1, 5)
  | .random => (plainStat 0o666 0, 1, 9)
  | .tty | .fd _ => (plainStat 0o620 0, 5, 0)

namespace Sys

/-- The description behind a device that `openat` was given. -/
def deviceKind (device : Device) (access : ℕ) : OpenKind :=
  match device with
  | .zero => ⟨.zero, rfl⟩
  | .random => ⟨.random, rfl⟩
  | .tty => if access = oRdonly then ⟨.stdin, rfl⟩ else ⟨.stdout 1, rfl⟩
  | _ => ⟨.null, rfl⟩

def openOptions (flags mode umask : ℕ) : OpenOptions :=
  let access := flags &&& oAccmode
  { read := access = oRdonly || access = oRdwr
    write := access = oWronly || access = oRdwr
    append := flags &&& oAppend != 0
    create := flags &&& oCreat != 0
    createNew := flags &&& oExcl != 0 && flags &&& oCreat != 0
    truncate := flags &&& oTrunc != 0 && access != oRdonly
    mode := andNot mode umask &&& 0o7777 }

def wantsWrite (flags : ℕ) : Bool :=
  let access := flags &&& oAccmode
  access == oWronly || access == oRdwr || flags &&& (oCreat ||| oTrunc) != 0

/-- A directory of a mount, as it is listed. -/
def openDir (v : View) (mount : ℕ) (rel guest : Text) : Handler OpenKind := do
  let listing ← vfsAsk mount (.readdir rel)
  let listed ← listedEntries guest listing
  let entries ← mergeVirtual (virtualEntries v.overlay v.mounts guest) (baseEntries ++ listed)
  return ⟨.dir entries 0, rfl⟩

/-- The part of `sys_openat` for a path inside a mount, once it is known what is there. -/
def openFound (v : View) (flags mode mount : ℕ) (rel guest : Text) (stat : Option Stat) :
    Handler OpenKind := do
  let isDir := stat.any fun st => st.fileType == .dir
  if flags &&& oDirectory ≠ 0 ∧ stat.isSome ∧ !isDir then fail .notdir
  else if isDir then
    if wantsWrite flags then fail .isdir
    else openDir v mount rel guest
  else
    let file ← vfsAsk mount (.openFile rel (openOptions flags mode v.task.umask))
    return ⟨.file file mount false, rfl⟩

/-- What comes before it. -/
def openMounted (v : View) (flags mode mount : ℕ) (rel guest : Text) : Handler OpenKind := do
  if wantsWrite flags && v.isReadOnly mount then fail .rofs
  else
    let stat ← match ← env (.vfs mount (.stat rel true)) with
      | .ok stat => .ret (some stat)
      | .error e => if e = .noent then .ret none else vfsFault e
    openFound v flags mode mount rel guest stat

theorem openMounted_eq (v : View) (flags mode mount : ℕ) (rel guest : Text) :
    openMounted v flags mode mount rel guest =
      if wantsWrite flags && v.isReadOnly mount then fail .rofs
      else env (.vfs mount (.stat rel true)) >>= fun r => match r with
        | .ok stat => openFound v flags mode mount rel guest (some stat)
        | .error e =>
          if e = .noent then openFound v flags mode mount rel guest none
          else vfsFault e >>= openFound v flags mode mount rel guest := by
  unfold openMounted
  split
  · rfl
  · congr 1

/-- The description and guest path an `openat` of this node makes. -/
def openNode (v : View) (flags mode : ℕ) : Node → Handler (OpenKind × Text)
  | .program _ guest => if wantsWrite flags then fail .rofs else .ret (⟨.null, rfl⟩, guest)
  | .device device => .ret (deviceKind device (flags &&& oAccmode), [])
  | .synth guest =>
    if wantsWrite flags then fail .rofs
    else do
      let content ← procContent guest
      return (⟨.memory content 0, rfl⟩, guest)
  | .virtualDir guest =>
    if wantsWrite flags then fail .isdir
    else do
      let entries ← virtualDirents (virtualEntries v.overlay v.mounts guest)
      return (⟨.dir (baseEntries ++ entries) 0, rfl⟩, guest)
  | .virtualLink _ => fail .loop
  | .mounted mount rel guest => do
    let kind ← openMounted v flags mode mount rel guest
    return (kind, guest)

def openat (a : Args) : Handler ℤ := do
  let v ← view
  let flags := asU32 a.a2
  let cloexec := flags &&& oCloexec != 0
  let path ← lift (v.mem.cstr (asU32 a.a1))
  match ← resolve a.a0 path (flags &&& oNofollow = 0) with
  | .device (.fd fd) => lift (← act (.dup fd cloexec 0))
  | node =>
    let (kind, guest) ← openNode v flags (asU32 a.a3) node
    let status := flags &&& (oAccmode ||| oAppend ||| oNonblock)
    match ← act (.openDesc kind guest status cloexec) with
    | .ok fd => return fd
    | .error (e, none) => fail e
    | .error (e, some handle) =>
      let _ ← env (.file handle .close)
      fail e

def getcwd (a : Args) : Handler ℤ := do
  let v ← view
  let bytes := v.task.cwd
  if asU32 a.a1 < bytes.length + 1 then fail .range
  else
    put (asU32 a.a0) bytes
    put (wrapAdd (asU32 a.a0) bytes.length) [0]
    return satAddI32 (asI32 bytes.length) 1

def chdir (a : Args) : Handler ℤ := do
  let v ← view
  let path ← lift (v.mem.cstr (asU32 a.a0))
  match ← resolve atFdcwd path true with
  | .virtualDir guest =>
    act (.setCwd guest)
    return 0
  | .mounted mount rel guest =>
    let stat ← vfsAsk mount (.stat rel true)
    if stat.fileType = .dir then
      act (.setCwd guest)
      return 0
    else fail .notdir
  | _ => fail .notdir

def fchdir (a : Args) : Handler ℤ := do
  let v ← view
  let (_, desc) ← lift (openFd v a.a0)
  match desc.kind with
  | .dir _ _ =>
    act (.setCwd desc.path)
    return 0
  | _ => fail .notdir

/-- What `statx` says about an open descriptor. -/
def statDesc (desc : Desc) : Handler (Stat × Text × ℕ × ℕ) :=
  match desc.kind with
  | .file file _ _ => do
    let stat ← fileAsk file .stat
    return (stat, desc.path, 0, 0)
  | .dir _ _ => .ret (.dir, desc.path, 0, 0)
  | .pipeRead _ | .pipeWrite _ => .ret (plainStat 0o600 0, ascii "pipe:", 0, 0)
  | .stdin | .stdout _ => .ret (plainStat 0o620 0, desc.path, 5, 0)
  | .memory data _ => .ret (.file data.length, desc.path, 0, 0)
  | _ => .ret (plainStat 0o666 0, desc.path, 1, 3)

/-- What `statx` says about a resolved path. -/
def statNode (path : Text) (follow : Bool) : Node → Handler (Stat × Text × ℕ × ℕ)
  | .program _ guest => .ret (plainStat 0o755 0, guest, 0, 0)
  | .device device => .ret ((deviceStat device).1, path, (deviceStat device).2)
  | .synth guest => do
    let content ← procContent guest
    return (plainStat 0o444 content.length, guest, 0, 0)
  | .virtualDir guest => .ret (.dir, guest, 0, 0)
  | .virtualLink target => .ret (.symlink target.length, path, 0, 0)
  | .mounted mount rel guest => do
    let stat ← vfsAsk mount (.stat rel follow)
    return (stat, guest, 0, 0)

def statx (a : Args) : Handler ℤ := do
  let v ← view
  let flags := asU32 a.a2
  let path ← lift (v.mem.cstr (asU32 a.a1))
  let follow := flags &&& atSymlinkNofollow = 0
  let (stat, name, rdev) ←
    if flags &&& atEmptyPath ≠ 0 ∧ path = [] then do
      let (_, desc) ← lift (openFd v a.a0)
      statDesc desc
    else do
      let node ← resolve a.a0 path follow
      statNode path follow node
  let start := asU32 a.a4
  if rdev = (0, 0) then
    writeStatx start stat name rdev
    return 0
  else
    -- A character device: the type bits are patched over what `writeStatx` put there.
    let stat := { stat with fileType := .file }
    writeStatx start stat name rdev
    put (wrapAdd start 28) (toLe 2 (sIfchr ||| if stat.mode = 0 then 0o666 else stat.mode))
    return 0

def faccessat (a : Args) : Handler ℤ := do
  let v ← view
  let path ← lift (v.mem.cstr (asU32 a.a1))
  let follow := asU32 a.a3 &&& atSymlinkNofollow = 0
  match ← resolve a.a0 path follow with
  | .mounted mount rel _ =>
    let _ ← vfsAsk mount (.stat rel follow)
    return 0
  | _ => return 0

def readlinkat (a : Args) : Handler ℤ := do
  let v ← view
  let path ← lift (v.mem.cstr (asU32 a.a1))
  let target ← match ← resolve a.a0 path false with
    | .virtualLink target => .ret target
    | .device (.fd fd) => do
      let (_, desc) ← lift (openFd v fd)
      pure desc.path
    | .mounted mount rel _ => vfsAsk mount (.readlink rel)
    | _ => fail .inval
  let take := min target.length (asU32 a.a3)
  put (asU32 a.a2) (target.take take)
  return asI32 take

/-- The tail of the calls that change a mount: refuse a read-only one, then ask. -/
def changeMount (v : View) (mount : ℕ) (call : VfsCall) : Handler ℤ := do
  if v.isReadOnly mount then fail .rofs
  else
    let _ ← vfsAsk mount call
    return 0

def truncate (a : Args) : Handler ℤ := do
  let v ← view
  let path ← lift (v.mem.cstr (asU32 a.a0))
  match ← resolve atFdcwd path true with
  | .mounted mount rel _ => changeMount v mount (.truncate rel (wideLength a.a1 a.a2))
  | _ => fail .rofs

/-- `mkdirat` and `symlinkat`: a name that is to be made. -/
def makeAt (v : View) (dirfd : ℤ) (path : Text) (follow : Bool) (call : Text → VfsCall) :
    Handler ℤ := do
  match ← (resolve dirfd path follow).catching with
  | .ok (.mounted mount rel _) => changeMount v mount (call rel)
  | .ok _ => fail .exist
  | .error (.errno e) => if e = .noent then fail .rofs else fail e
  | .error fault => .fail fault

def mkdirat (a : Args) : Handler ℤ := do
  let v ← view
  let path ← lift (v.mem.cstr (asU32 a.a1))
  makeAt v a.a0 path true fun rel => .mkdir rel (andNot (asU32 a.a2) v.task.umask &&& 0o777)

def symlinkat (a : Args) : Handler ℤ := do
  let v ← view
  let target ← lift (v.mem.cstr (asU32 a.a0))
  let linkPath ← lift (v.mem.cstr (asU32 a.a2))
  makeAt v a.a1 linkPath false fun rel => .symlink target rel

def unlinkat (a : Args) : Handler ℤ := do
  let v ← view
  let path ← lift (v.mem.cstr (asU32 a.a1))
  match ← resolve a.a0 path false with
  | .mounted mount rel _ =>
    changeMount v mount (if asU32 a.a2 &&& atRemovedir ≠ 0 then .rmdir rel else .unlink rel)
  | _ => fail .rofs

def renameat (a : Args) : Handler ℤ := do
  let v ← view
  let fromPath ← lift (v.mem.cstr (asU32 a.a1))
  let toPath ← lift (v.mem.cstr (asU32 a.a3))
  let source ← resolve a.a0 fromPath false
  let target ← resolve a.a2 toPath false
  match source, target with
  | .mounted m1 r1 _, .mounted m2 r2 _ =>
    if m1 ≠ m2 then fail .xdev else changeMount v m1 (.rename r1 r2)
  | _, _ => fail .rofs

def fchmodat (a : Args) : Handler ℤ := do
  let v ← view
  let path ← lift (v.mem.cstr (asU32 a.a1))
  match ← resolve a.a0 path true with
  | .mounted mount rel _ => changeMount v mount (.setMode rel (asU32 a.a2 &&& 0o7777))
  | _ => return 0

def utimensat (a : Args) : Handler ℤ := do
  let v ← view
  let path ← lift (v.mem.cstr (asU32 a.a1))
  if path = [] then return 0
  else
    match ← resolve a.a0 path (asU32 a.a4 &&& atSymlinkNofollow = 0) with
    | .mounted mount rel _ =>
      let _ ← vfsAsk mount (.stat rel true)
      return 0
    | _ => return 0

def statfs (a : Args) : Handler ℤ := do
  let block := blit (List.replicate 88 0) 0 (toLe 4 0x5741534d)
  let block := blit block 4 (toLe 4 4096)
  let block := blit block 56 (toLe 4 255)
  let block := blit block 60 (toLe 4 4096)
  put (asU32 a.a2) block
  return 0

end Sys
end Wasmux
