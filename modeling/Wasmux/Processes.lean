import Wasmux.Files

/-!
# Syscalls about processes, signals, time and memory
-/

set_option autoImplicit false

namespace Wasmux
open Effects Abi

/-- The width in bytes of a Unicode white space character at the head of a
text, and zero if there is none. -/
def spaceWidth : Text → ℕ
  | [] => 0
  | a :: rest =>
    if (0x09 ≤ a ∧ a ≤ 0x0D) ∨ a = 0x20 then 1
    else match rest with
      | b :: more =>
        if a = 0xC2 ∧ (b = 0x85 ∨ b = 0xA0) then 2
        else match more with
          | c :: _ =>
            if a = 0xE1 ∧ b = 0x9A ∧ c = 0x80 then 3
            else if a = 0xE2 ∧ b = 0x80 ∧ ((0x80 ≤ c ∧ c ≤ 0x8A) ∨ c = 0xA8 ∨ c = 0xA9 ∨ c = 0xAF) then 3
            else if a = 0xE2 ∧ b = 0x81 ∧ c = 0x9F then 3
            else if a = 0xE3 ∧ b = 0x80 ∧ c = 0x80 then 3
            else 0
          | [] => 0
      | [] => 0

def trimStartFrom : ℕ → Text → Text
  | 0, text => text
  | turns + 1, text =>
    if spaceWidth text = 0 then text else trimStartFrom turns (text.drop (spaceWidth text))

def trimStart (text : Text) : Text := trimStartFrom text.length text

def trimEnd : Text → Text
  | [] => []
  | b :: rest => if trimStart (b :: rest) = [] then [] else b :: trimEnd rest

def trim (text : Text) : Text := trimEnd (trimStart text)

/-- `splitn(2, char::is_whitespace)`: what is before the first white space,
and what is after that one character. -/
def splitAtSpace : Text → Text × Option Text
  | [] => ([], none)
  | b :: rest =>
    if spaceWidth (b :: rest) ≠ 0 then ([], some ((b :: rest).drop (spaceWidth (b :: rest))))
    else ((b :: (splitAtSpace rest).1), (splitAtSpace rest).2)

def shebang (head : Bytes) : Option Text :=
  match stripPrefix (ascii "#!") head with
  | none => none
  | some rest =>
    let text := trim (fromUtf8Lossy (rest.takeWhile fun b => b != 0x0A))
    if text = [] then none else some text

/-- The argument list a script's interpreter is started with. -/
def scriptArgv (line path : Text) (argv : List Bytes) : List Bytes :=
  let (interpreter, rest) := splitAtSpace line
  let extra := (rest.map trim).filter fun x => x ≠ []
  interpreter :: extra.toList ++ path :: argv.drop 1

/-- Close handles whose last reference went. -/
def closeAll : List Handle → Handler Unit
  | [] => .ret ()
  | handle :: rest => do
    let _ ← env (.file handle .close)
    closeAll rest

def finishExec (program : ProgramId) (exe : Text) (argv envp : List Bytes) : Handler ℤ := do
  let (pid, handles) ← act (.finishExec program exe argv envp)
  closeAll handles
  match pid with
  | some pid => return pid
  | none => .fail .exec

/-- Grow the instance's memory, answering the pages it had. -/
def memGrow (pages : ℕ) : Handler (Option ℕ) := do
  let v ← view
  let granted ← env (.grant v.mem.size pages)
  if granted then
    let previous ← act (.growMem pages)
    return some previous
  else return none

/-- Charge memory to the session and grow by it, or do neither. -/
def chargeAndGrow (pages : ℕ) : Handler (Option ℕ) := do
  let bytes := satMulU64 pages page
  if ← act (.charge bytes) then
    match ← memGrow pages with
    | some previous =>
      act (.grew bytes)
      return some previous
    | none =>
      act (.release bytes)
      return none
  else return none

namespace Sys

def exit (a : Args) : Handler ℤ := do
  let status := statusExited a.a0
  match ← act (.vforkExit status) with
  | some (pid, handles) =>
    closeAll handles
    return pid
  | none => .fail (.exit status)

def clone (a : Args) : Handler ℤ := do
  let flags := asU32 a.a0
  if flags &&& cloneVfork = 0 ∨ flags &&& cloneVm = 0 ∨ flags &&& cloneThread ≠ 0 then fail .nosys
  else
    match ← act .fork with
    | some _ => return 0
    | none => fail .again

/-- Run the interpreter a script names. -/
def execScript (mount : ℕ) (rel path : Text) (argv envp : List Bytes) : Handler ℤ := do
  let file ← vfsAsk mount (.openFile rel .readOnly)
  let (n, buf) ← fileAsk file (.read 256)
  let _ ← env (.file file .close)
  match shebang (prefixOrEmpty (fitBuffer 256 buf) n) with
  | none => fail .noexec
  | some line =>
    match ← resolve atFdcwd (splitAtSpace line).1 true with
    | .program id guest => finishExec id guest (scriptArgv line path argv) envp
    | _ => fail .noexec

def execve (a : Args) : Handler ℤ := do
  let v ← view
  let path ← lift (v.mem.cstr (asU32 a.a0))
  let argv ← lift (v.mem.cstrArray (asU32 a.a1))
  let envp ← lift (v.mem.cstrArray (asU32 a.a2))
  match ← resolve atFdcwd path true with
  | .program id guest => finishExec id guest argv envp
  | .mounted mount rel _ =>
    match ← env (.vfs mount (.stat rel true)) with
    | .ok stat =>
      if stat.fileType = .dir then fail .acces else execScript mount rel path argv envp
    | .error _ => execScript mount rel path argv envp
  | _ => fail .acces

/-- Whether `wait4` for `which` by a process of group `pgid` covers a child. -/
def waitMatches (which pgid : ℤ) (r : ProcRecord) : Bool :=
  if which = -1 then true
  else if which = 0 then r.pgid == pgid
  else if 0 < which then r.pid == which
  else r.pgid == asI32 (-which)

def wait4 (a : Args) : Handler ℤ := do
  let v ← view
  let pid := v.task.pid
  let pgid := ((v.record pid).map ProcRecord.pgid).getD pid
  let children := v.table.filter fun r => r.ppid == pid && waitMatches a.a0 pgid r
  if children = [] then fail .child
  else
    match children.findSome? fun r => r.exit.map fun status => (r.pid, status) with
    | none => if asU32 a.a2 &&& wnohang ≠ 0 then return 0 else .fail .block
    | some (child, status) =>
      act (.reap child)
      if asU32 a.a1 ≠ 0 then putU32 (asU32 a.a1) (asU32 status)
      if asU32 a.a3 ≠ 0 then put (asU32 a.a3) (List.replicate 72 0)
      return child

def getpid : Handler ℤ := do
  let v ← view
  return v.task.pid

def getppid : Handler ℤ := do
  let v ← view
  return ((v.record v.task.pid).map ProcRecord.ppid).getD 0

def setpgid (a : Args) : Handler ℤ := do
  let v ← view
  let target := if a.a0 = 0 then v.task.pid else a.a0
  let group := if a.a1 = 0 then target else a.a1
  if (v.record target).isSome then
    act (.setPgid target group)
    return 0
  else fail .srch

/-- `getpgid` and `getsid`: one field of a record. -/
def recordField (field : ProcRecord → ℤ) (a : Args) : Handler ℤ := do
  let v ← view
  match v.record (if a.a0 = 0 then v.task.pid else a.a0) with
  | some r => return field r
  | none => fail .srch

def getpgid (a : Args) : Handler ℤ := recordField ProcRecord.pgid a

def getsid (a : Args) : Handler ℤ := recordField ProcRecord.sid a

def setsid : Handler ℤ := do
  let v ← view
  if (v.record v.task.pid).isSome then
    act .setSid
    return v.task.pid
  else fail .srch

def schedGetaffinity (a : Args) : Handler ℤ := do
  if 8 ≤ a.a2 then putU64 (asU32 a.a2) 1
  return 8

def umask (a : Args) : Handler ℤ := do
  let v ← view
  act (.setUmask (asU32 a.a0 &&& 0o777))
  return asI32 v.task.umask

def utsname : Bytes :=
  [ascii "Linux", ascii "wasmux", kernelRelease, ascii "#1 wasmux", ascii "wasm32", ascii "(none)"].flatMap
    fun text => text ++ List.replicate (65 - text.length) 0

def uname (a : Args) : Handler ℤ := do
  put (asU32 a.a0) utsname
  return 0

def sysinfo (a : Args) : Handler ℤ := do
  let v ← view
  let d ← elapsed
  let total := min v.limits.memory u32Max
  let used := min v.memoryUsed total
  let processes := v.table.countP ProcRecord.isAlive
  let block := blit (List.replicate 64 0) 0 (toLe 4 (d / 10^9))
  let block := blit block 16 (toLe 4 total)
  let block := blit block 20 (toLe 4 (total - used))
  let block := blit block 52 (toLe 4 1)
  let block := blit block 40 (toLe 2 processes)
  put (asU32 a.a0) block
  return 0

/-- The soft and hard limit reported for a resource. -/
def rlimit (limits : Limits) (resource : ℤ) : ℕ × ℕ :=
  if resource = rlimitNofile then (limits.openFiles, limits.openFiles)
  else if resource = rlimitStack then (2^20, 2^20)
  else if resource = rlimitCore then (0, rlimInfinity)
  else if resource = rlimitData then (limits.memoryPerProcess, limits.memoryPerProcess)
  else (rlimInfinity, rlimInfinity)

def prlimit64 (a : Args) : Handler ℤ := do
  let v ← view
  let oldAt := asU32 a.a3
  if oldAt ≠ 0 then
    putU64 oldAt (rlimit v.limits a.a1).1
    putU64 (wrapAdd oldAt 8) (rlimit v.limits a.a1).2
  return 0

def getrusage (a : Args) : Handler ℤ := do
  put (asU32 a.a1) (List.replicate 72 0)
  return 0

def times (a : Args) : Handler ℤ := do
  if a.a0 ≠ 0 then put (asU32 a.a0) (List.replicate 16 0)
  let d ← elapsed
  return asI32 ((d / 10^6 / 10 : ℕ) : ℤ)

def getrandom (a : Args) : Handler ℤ := do
  let v ← view
  let _ ← lift (v.mem.bytes (asU32 a.a0) (asU32 a.a1))
  let bytes ← env (.random (asU32 a.a1))
  put (asU32 a.a0) bytes
  return a.a1

def rtSigaction (a : Args) : Handler ℤ := do
  let (signal, actionAt, oldAt) := (a.a0, asU32 a.a1, asU32 a.a2)
  if signal ≤ 0 ∨ nsig ≤ signal then fail .inval
  else
    let v ← view
    if oldAt ≠ 0 then
      let previous := v.task.action signal
      putU32 oldAt previous.handler
      putU32 (wrapAdd oldAt 4) previous.flags
      putU64 (wrapAdd oldAt 8) previous.mask.toNat
      putU32 (wrapAdd oldAt 16) 0
    if actionAt ≠ 0 then
      if signal = sigkill ∨ signal = sigstop then fail .inval
      else
        let v ← view
        let handler ← lift (v.mem.u32 actionAt)
        let flags ← lift (v.mem.u32 (wrapAdd actionAt 4))
        let mask ← lift (v.mem.u64 (wrapAdd actionAt 8))
        act (.setAction signal ⟨handler, flags, BitVec.ofNat 64 mask⟩)
        return 0
    else return 0

def requestable (set : Sigset) : Sigset := set &&& ~~~(bit sigkill ||| bit sigstop)

/-- The mask after `rt_sigprocmask` with `set`. -/
def combineMask (how : ℤ) (previous set : Sigset) : Option Sigset :=
  if how = sigBlock then some (previous ||| set)
  else if how = sigUnblock then some (previous &&& ~~~set)
  else if how = sigSetmask then some set
  else none

def rtSigprocmask (a : Args) : Handler ℤ := do
  let v ← view
  let (setAt, oldAt) := (asU32 a.a1, asU32 a.a2)
  let previous := v.task.sigmask
  if setAt ≠ 0 then
    let set ← lift (v.mem.u64 setAt)
    match combineMask a.a0 previous (requestable (BitVec.ofNat 64 set)) with
    | some mask => act (.setMask mask)
    | none => fail .inval
  if oldAt ≠ 0 then putU64 oldAt previous.toNat
  return 0

def rtSigpending (a : Args) : Handler ℤ := do
  let v ← view
  putU64 (asU32 a.a0) v.pending.toNat
  return 0

def rtSigsuspend (a : Args) : Handler ℤ := do
  let v ← view
  let mask ← lift (v.mem.u64 (asU32 a.a0))
  act (.suspendMask (BitVec.ofNat 64 mask))
  let v ← view
  if v.live ≠ 0 then fail .intr else .fail .block

def sendSignal (target signal : ℤ) : Handler ℤ := do
  if signal < 0 ∨ nsig ≤ signal then fail .inval
  else
    if ← act (.sendSignal target signal) then return 0 else fail .srch

def kill (a : Args) : Handler ℤ := sendSignal a.a0 a.a1

def tgkill (a : Args) : Handler ℤ := sendSignal a.a1 a.a2

def clockGettime64 (a : Args) : Handler ℤ := do
  if a.a0 = clockRealtime then
    let d ← env .epoch
    putTimespec (asU32 a.a1) d
    return 0
  else if a.a0 = clockMonotonic ∨ a.a0 = clockBoottime ∨ a.a0 = clockProcessCputimeId ∨
      a.a0 = clockThreadCputimeId then
    let d ← elapsed
    putTimespec (asU32 a.a1) d
    return 0
  else fail .inval

def clockGetresTime64 (a : Args) : Handler ℤ := do
  if a.a1 ≠ 0 then putTimespec (asU32 a.a1) 1
  return 0

def gettimeofday (a : Args) : Handler ℤ := do
  let d ← env .epoch
  putU32 (asU32 a.a0) (d / 10^9)
  putU32 (wrapAdd (asU32 a.a0) 4) (d % 10^9 / 1000)
  return 0

def sleepUntil (limit : Instant) : Handler ℤ := waitOn limit (.ret 0)

def nanosleep (a : Args) : Handler ℤ := do
  let v ← view
  let requested ← lift (v.mem.timespec (asU32 a.a0))
  let limit ← deadline requested
  sleepUntil limit

def clockNanosleepTime64 (a : Args) : Handler ℤ := do
  let v ← view
  let requested ← lift (v.mem.timespec (asU32 a.a2))
  if asU32 a.a1 &&& timerAbstime ≠ 0 then
    let now ← if a.a0 = clockRealtime then env .epoch else elapsed
    let limit ← deadline (requested - now)
    sleepUntil limit
  else
    let limit ← deadline requested
    sleepUntil limit

def brk (a : Args) : Handler ℤ := do
  let request := asU32 a.a0
  let v ← view
  let current := v.mem.size
  if request = 0 ∨ request ≤ current ∨ v.limits.memoryPerProcess < request then
    return asI32 current
  else
    match ← chargeAndGrow (divCeil (request - current) page) with
    | some _ => return asI32 request
    | none => return asI32 current

/-- The read loop of a file mapping. `filled` bytes of `buffer` are done. -/
def fillFrom (file : Handle) : ℕ → Bytes → ℕ → Program sig Errno Bytes
  | 0, buffer, _ => .ret buffer
  | turns + 1, buffer, filled =>
    if buffer.length ≤ filled then .ret buffer
    else do
      match ← env (.file file (.read (buffer.length - filled))) with
      | .ok (n, window) =>
        let buffer := buffer.take filled ++ fitBuffer (buffer.length - filled) window
        if n = 0 then .ret buffer else fillFrom file turns buffer (filled + n)
      | .error e => .fail e

/-- A question to an open file whose error ends the mapping. -/
def askFile (file : Handle) (call : FileCall) : Program sig Errno call.Ans := do
  match ← env (.file file call) with
  | .ok a => .ret a
  | .error e => .fail e

/-- A file mapping is a read, once, at `offset` pages, with the position put back. -/
def readMapping (file : Handle) (offset length : ℕ) : Program sig Errno Bytes := do
  let saved ← askFile file (.seek (.current 0))
  let _ ← askFile file (.seek (.start (satMulU64 offset 4096)))
  let buffer ← fillFrom file (length + 1) (List.replicate length 0) 0
  let _ ← env (.file file (.seek (.start saved)))
  return buffer

def mmap (a : Args) : Handler ℤ := do
  let (length, flags) := (asU32 a.a1, asU32 a.a3)
  if length = 0 then fail .inval
  else if flags &&& mapFixed ≠ 0 ∧ asU32 a.a0 ≠ 0 then fail .nomem
  else
    let pages := divCeil length page
    let v ← view
    if v.limits.memoryPerProcess < satAddU64 v.mem.size (satMulU64 pages page) then fail .nomem
    else
      match ← chargeAndGrow pages with
      | none => fail .nomem
      | some previous =>
        let start := asU32 ((satMulU64 previous page : ℕ) : ℤ)
        if flags &&& mapAnonymous ≠ 0 then return asI32 start
        else
          let (_, desc) ← lift (openFd v a.a4)
          match desc.kind with
          | .file file _ _ =>
            let buffer ← orVfsFault (← (readMapping file (asU64 a.a5) length).catching)
            put start buffer
            return asI32 start
          | _ => fail .nodev

end Sys
end Wasmux
