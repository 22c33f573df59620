import Wasmux.Memory
import Wasmux.Path
import Wasmux.Terminal

/-!
# The state processes share, and a process's own context

`Shared` is everything a session holds in common: descriptions, pipes, the
process table, the standard streams and the accounting. Its functions are the
ones of the kernel; what has to be asked of the outside is answered to the
caller, such as the file handle whose last reference went.
-/

set_option autoImplicit false

namespace Wasmux
open Abi

structure Limits where
  memory : ℕ
  memoryPerProcess : ℕ
  processes : ℕ
  openFiles : ℕ
  output : ℕ
  wallClock : Option Duration
  deriving DecidableEq

/-- A program is a guest image or a command the embedder supplies. -/
inductive ProgramKind where
  | guest (image : ℕ)
  | host (command : ℕ)
  deriving DecidableEq

/-- A child waiting for the scheduler to give it an instance. -/
structure Spawn where
  task : Task
  program : ProgramId
  exe : Text
  argv : List Bytes
  envp : List Bytes

structure StdinBuffer where
  data : Bytes
  closed : Bool
  wanted : Bool
  deriving DecidableEq

structure OutputBuffer where
  data : Bytes
  dropped : ℕ
  taken : ℕ
  deriving DecidableEq

def OutputBuffer.push (b : OutputBuffer) (bytes : Bytes) (limit : ℕ) : OutputBuffer :=
  let take := min (limit - b.data.length) bytes.length
  { b with
    data := b.data ++ bytes.take take
    dropped := satAddU64 b.dropped (bytes.length - take) }

def OutputBuffer.drainNew (b : OutputBuffer) : Bytes × OutputBuffer :=
  (if b.taken ≤ b.data.length then b.data.drop b.taken else [],
   { b with taken := b.data.length })

structure Shared where
  mounts : Mounts
  overlay : Overlay
  programs : List ProgramKind
  limits : Limits
  descs : Slab Desc
  pipes : Slab Pipe
  table : List ProcRecord
  nextPid : ℤ
  spawn : List Spawn
  stdin : StdinBuffer
  stdout : OutputBuffer
  stderr : OutputBuffer
  memoryUsed : ℕ
  vfsPending : Bool
  hostPending : Bool
  started : Instant
  syscalls : ℕ
  terminal : Option Terminal
  /-- History only: every end `setExit` was told of, in order. -/
  exits : List (ℤ × ℤ)

namespace Shared

def record (sh : Shared) (pid : ℤ) : Option ProcRecord := sh.table.find? fun r => r.pid == pid

def updateRecord (sh : Shared) (pid : ℤ) (f : ProcRecord → ProcRecord) : Shared :=
  { sh with table := go sh.table }
where
  go : List ProcRecord → List ProcRecord
    | [] => []
    | r :: rs => if r.pid == pid then f r :: rs else r :: go rs

theorem record_updateRecord (sh : Shared) (pid : ℤ) (f : ProcRecord → ProcRecord)
    (hf : ∀ r, (f r).pid = r.pid) :
    (sh.updateRecord pid f).record pid = (sh.record pid).map f := by
  unfold record updateRecord
  dsimp only
  induction sh.table with
  | nil => rfl
  | cons r rs ih =>
    cases h : r.pid == pid with
    | true => simp [updateRecord.go, h, hf]
    | false => simp [updateRecord.go, h, ih]

def allocatePid (sh : Shared) : ℤ × Shared :=
  (sh.nextPid, { sh with nextPid := satAddI32 sh.nextPid 1 })

def forkRecord (sh : Shared) (parent : Task) : Option (ℤ × Shared) :=
  if sh.limits.processes ≤ sh.table.countP ProcRecord.isAlive then none
  else
    let (pid, sh) := sh.allocatePid
    let r := match sh.record parent.pid with
      | some r => ProcRecord.new pid r.pid r.pgid r.sid
      | none => ProcRecord.new pid parent.pid parent.pid parent.pid
    some (pid, { sh with table := sh.table ++ [r] })

def exitRecord (status : ℤ) (r : ProcRecord) : ProcRecord :=
  { r with exit := some (r.exit.getD status), wakeAt := none }

def reparent (pid : ℤ) (r : ProcRecord) : ProcRecord :=
  if r.ppid = pid then { r with ppid := 1 } else r

def setExit (sh : Shared) (pid status : ℤ) : Shared :=
  let parent := ((sh.record pid).map ProcRecord.ppid).getD 0
  let sh := { sh with exits := sh.exits ++ [(pid, status)] }
  let sh := sh.updateRecord pid (exitRecord status)
  let sh := { sh with table := sh.table.map (reparent pid) }
  if (sh.record parent).any ProcRecord.isAlive then
    sh.updateRecord parent fun r => r.raise sigchld
  else { sh with table := sh.table.filter fun r => r.pid != pid }

def chargeMemory (sh : Shared) (bytes : ℕ) : Bool × Shared :=
  if sh.limits.memory < satAddU64 sh.memoryUsed bytes then (false, sh)
  else (true, { sh with memoryUsed := satAddU64 sh.memoryUsed bytes })

def releaseMemory (sh : Shared) (bytes : ℕ) : Shared :=
  { sh with memoryUsed := sh.memoryUsed - bytes }

def addRef (sh : Shared) (key : DescKey) : Shared :=
  { sh with descs := sh.descs.modify key fun d => { d with refs := satAddU32 d.refs 1 } }

def duplicate (sh : Shared) (table : FdTable) : Shared := table.keys.foldl addRef sh

def collectPipe (sh : Shared) (key : PipeKey) : Shared :=
  if (sh.pipes.get key).any fun p => p.readers == 0 && p.writers == 0 then
    { sh with pipes := (sh.pipes.remove key).2 }
  else sh

/-- What becomes of a description that has just left the slab. A file is
answered so that the caller closes it. -/
def dropDesc (sh : Shared) (d : Desc) : Option Handle × Shared :=
  match d.kind with
  | .file h _ closed => (if closed then none else some h, sh)
  | .pipeRead key =>
    (none, { sh with pipes := sh.pipes.modify key fun p => { p with readers := p.readers - 1 } }
      |>.collectPipe key)
  | .pipeWrite key =>
    (none, { sh with pipes := sh.pipes.modify key fun p => { p with writers := p.writers - 1 } }
      |>.collectPipe key)
  | _ => (none, sh)

def releaseDesc (sh : Shared) (key : DescKey) : Option Handle × Shared :=
  match sh.descs.get key with
  | none => (none, sh)
  | some d =>
    let sh := { sh with descs := sh.descs.modify key fun d => { d with refs := d.refs - 1 } }
    if d.refs - 1 ≠ 0 then (none, sh)
    else match sh.descs.remove key with
      | (some d, descs) => { sh with descs := descs }.dropDesc d
      | (none, _) => (none, sh)

def releaseAll (sh : Shared) : List DescKey → List Handle × Shared
  | [] => ([], sh)
  | k :: ks =>
    let (h, sh) := sh.releaseDesc k
    let (hs, sh) := sh.releaseAll ks
    (h.toList ++ hs, sh)

def releaseFds (sh : Shared) (table : FdTable) : List Handle × Shared :=
  sh.releaseAll table.drainAll.1

def writeOutput (sh : Shared) (which : ℕ) (bytes : Bytes) : Shared :=
  if which = 2 then { sh with stderr := sh.stderr.push bytes sh.limits.output }
  else { sh with stdout := sh.stdout.push bytes sh.limits.output }

/-- Whether `kill` of `target` by process `me` reaches the record. -/
def signalReaches (me myGroup target : ℤ) (r : ProcRecord) : Bool :=
  if 0 < target then r.pid == target
  else if target = 0 then r.pgid == myGroup && r.isAlive
  else if target = -1 then r.pid != 1 && r.pid != me && r.isAlive
  else r.pgid == asI32 (-target) && r.isAlive

def sendSignal (sh : Shared) (me target signal : ℤ) : Bool × Shared :=
  let myGroup := ((sh.record me).map ProcRecord.pgid).getD me
  let reaches := signalReaches me myGroup target
  (sh.table.any reaches,
   { sh with table := sh.table.map fun (r : ProcRecord) =>
      if reaches r ∧ signal ≠ 0 then { r.raise signal with wakeAt := none } else r })

end Shared

inductive Suspension where
  | setjmp (env sp : ℕ)
  | longjmp (env : ℕ) (val : ℤ)
  | blocked (number : ℤ) (args : Args)
  | exit (status : ℤ)
  | exec
  deriving DecidableEq

structure ExecState where
  asyncifyData : ℕ
  rewinding : Bool
  resumeValue : ℤ
  resumeSp : ℕ
  suspension : Option Suspension
  jmpBufs : List (ℕ × Bytes × ℕ)
  signalFlag : ℕ
  deadline : Option Instant
  maskToRestore : Option Sigset
  grown : ℕ
  deriving DecidableEq

instance : Inhabited ExecState := ⟨⟨0, false, 0, 0, none, [], 0, none, none, 0⟩⟩

/-- Per-process state reachable from an import call. The top of the vfork
stack is its head. -/
structure Ctx where
  task : Task
  argv : List Bytes
  envp : List Bytes
  execRequest : Option Spawn
  vforkStack : List Task
  exec : ExecState

instance : Inhabited Ctx := ⟨⟨default, [], [], none, [], default⟩⟩

/-- A guest's execution context as the kernel sees it. While a stack is being
saved the instrumented guest only spills frames and returns. -/
structure Instance where
  mem : Mem
  sp : ℕ
  unwinding : Bool

instance : Inhabited Instance := ⟨⟨default, 0, false⟩⟩

end Wasmux
