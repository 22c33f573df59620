import Wasmux.Effects.Rules
import Wasmux.Shared

/-!
# What a handler can do

A handler runs over one process's context, the shared state and the guest
instance. It acts on these through `Act`, and asks everything else of the
environment through `EnvCall`: the clocks, the mounts, the open files and the
engine. An act asks nothing and a call changes nothing of the kernel's own, so
the trace of a handler shows all it did to either side.
-/

set_option autoImplicit false

namespace Wasmux
open Effects Abi

structure Machine where
  ctx : Ctx
  shared : Shared
  inst : Instance

/-- What a handler reads. How a process waits is not part of it: the records
come without their `wakeAt`, and `stdin.wanted`, the pending flags and the
deadline are left out. -/
structure View where
  task : Task
  argv : List Bytes
  envp : List Bytes
  signalFlag : ℕ
  rewinding : Bool
  unwinding : Bool
  sp : ℕ
  mounts : Mounts
  overlay : Overlay
  limits : Limits
  descs : Slab Desc
  pipes : Slab Pipe
  table : List ProcRecord
  stdin : Bytes
  stdinClosed : Bool
  memoryUsed : ℕ
  started : Instant
  terminal : Option Terminal
  mem : Mem

def ProcRecord.unwoken (r : ProcRecord) : ProcRecord := { r with wakeAt := none }

def Machine.view (m : Machine) : View where
  task := m.ctx.task
  argv := m.ctx.argv
  envp := m.ctx.envp
  signalFlag := m.ctx.exec.signalFlag
  rewinding := m.ctx.exec.rewinding
  unwinding := m.inst.unwinding
  sp := m.inst.sp
  mounts := m.shared.mounts
  overlay := m.shared.overlay
  limits := m.shared.limits
  descs := m.shared.descs
  pipes := m.shared.pipes
  table := m.shared.table.map ProcRecord.unwoken
  stdin := m.shared.stdin.data
  stdinClosed := m.shared.stdin.closed
  memoryUsed := m.shared.memoryUsed
  started := m.shared.started
  terminal := m.shared.terminal
  mem := m.inst.mem

namespace Machine
variable (m : Machine)

@[simp] theorem view_task : m.view.task = m.ctx.task := rfl
@[simp] theorem view_mem : m.view.mem = m.inst.mem := rfl
@[simp] theorem view_descs : m.view.descs = m.shared.descs := rfl
@[simp] theorem view_pipes : m.view.pipes = m.shared.pipes := rfl
@[simp] theorem view_limits : m.view.limits = m.shared.limits := rfl
@[simp] theorem view_mounts : m.view.mounts = m.shared.mounts := rfl
@[simp] theorem view_overlay : m.view.overlay = m.shared.overlay := rfl
@[simp] theorem view_stdin : m.view.stdin = m.shared.stdin.data := rfl
@[simp] theorem view_stdinClosed : m.view.stdinClosed = m.shared.stdin.closed := rfl

end Machine

namespace View

def record (v : View) (pid : ℤ) : Option ProcRecord := v.table.find? fun r => r.pid == pid

def who (v : View) : Who := ⟨v.task.cwd, v.task.exe, v.task.pid⟩

def pending (v : View) : Sigset := ((v.record v.task.pid).map ProcRecord.pending).getD 0

def live (v : View) : Sigset := (triage v.pending v.task.sigmask v.task).1

def isReadOnly (v : View) (mount : ℕ) : Bool := (v.mounts.get mount).all Mount.readOnly

end View

inductive EnvCall where
  | now
  | instantMax
  | epoch
  | hash (path : Text)
  | uptimeText (d : Duration)
  | random (count : ℕ)
  | vfs (mount : ℕ) (call : VfsCall)
  | hasSymlinks (mount : ℕ)
  | file (handle : Handle) (call : FileCall)
  | grant (size pages : ℕ)

abbrev EnvCall.Ans : EnvCall → Type
  | .now => Instant
  | .instantMax => Instant
  | .epoch => Duration
  | .hash _ => ℕ
  | .uptimeText _ => Text
  | .random _ => Bytes
  | .vfs _ call => Except Errno call.Ans
  | .hasSymlinks _ => Bool
  | .file _ call => Except Errno call.Ans
  | .grant _ _ => Bool

inductive Act where
  | view
  | deadline
  | put (start : ℕ) (data : Bytes)
  | growMem (pages : ℕ)
  | charge (bytes : ℕ)
  | release (bytes : ℕ)
  | grew (bytes : ℕ)
  | setCwd (path : Text)
  | setUmask (mask : ℕ)
  | setMask (mask : Sigset)
  | setAction (signal : ℤ) (action : SigAction)
  | setCloexec (fd : ℤ) (on : Bool)
  | setDescFlags (key : DescKey) (flags : ℕ)
  | setDescPos (key : DescKey) (pos : ℕ)
  | openDesc (kind : OpenKind) (path : Text) (flags : ℕ) (cloexec : Bool)
  | dup (fd : ℤ) (cloexec : Bool) (min : ℕ)
  | dupTo (fd target : ℤ) (cloexec : Bool)
  | close (fd : ℤ)
  | pipe2 (flags : ℕ)
  | stdinTake (count : ℕ)
  | pipeTake (key : PipeKey) (count : ℕ)
  | pipePut (key : PipeKey) (data : Bytes)
  | writeOutput (which : ℕ) (data : Bytes)
  | setTermios (termios : Termios)
  | raise (signal : ℤ)
  | sendSignal (target signal : ℤ)
  | dropPending (set : Sigset)
  | setPgid (target group : ℤ)
  | setSid
  | reap (child : ℤ)
  | fork
  | vforkExit (status : ℤ)
  | finishExec (program : ProgramId) (exe : Text) (argv envp : List Bytes)
  | served
  | noteVfsPending
  | wantStdin
  | setDeadline (until' : Instant)
  | setWake (until' : Instant)
  | suspendMask (mask : Sigset)
  | settle
  | setSignalFlag (flag : ℕ)
  | saveSp
  | stopRewind
  | unwind (why : Suspension)
  | compute (mem : Mem) (sp : ℕ)

abbrev Act.Ans : Act → Type
  | .view => View
  | .deadline => Option Instant
  | .put _ _ => Except Errno Unit
  | .growMem _ => ℕ
  | .charge _ => Bool
  | .setCloexec _ _ => Except Errno Unit
  | .openDesc _ _ _ _ => Except (Errno × Option Handle) ℤ
  | .dup _ _ _ => Except Errno ℤ
  | .dupTo _ _ _ => Except Errno (Option Handle)
  | .close _ => Except Errno (Option Handle)
  | .pipe2 _ => Except Errno (ℤ × ℤ)
  | .stdinTake _ => Bytes
  | .pipeTake _ _ => Bytes
  | .sendSignal _ _ => Bool
  | .fork => Option ℤ
  | .vforkExit _ => Option (ℤ × List Handle)
  | .finishExec _ _ _ _ => Option ℤ × List Handle
  | .stopRewind => ℤ
  | _ => Unit

inductive Op where
  | env (c : EnvCall)
  | act (a : Act)

abbrev Op.Ans : Op → Type
  | .env c => c.Ans
  | .act a => a.Ans

abbrev sig : Signature := ⟨Op, Op.Ans⟩

/-- What a guest does between two returns to the engine. Its own computing
leaves it some memory, never a smaller one, and a stack pointer. -/
inductive GuestAct where
  | compute (mem : Mem) (sp : ℕ)
  | syscall (number argsPtr : ℕ)
  | setjmp (env : ℕ)
  | longjmp (env : ℕ) (value : ℤ)
  | init (signalFlag : ℕ)
  | args (buffer capacity : ℕ)
  | sigfetch (out : ℕ)

/-- One entry into a guest: what it does, and how `run_start` comes back. -/
structure GuestRun where
  acts : List GuestAct
  trap : Option Text

structure Invocation where
  argv : List Bytes
  envp : List Bytes
  cwd : Text
  stdin : Bytes
  deriving DecidableEq

structure HostExit where
  status : ℤ
  stdout : Bytes
  stderr : Bytes
  deriving DecidableEq

/-- Everything outside the kernel. A world is whatever the mounts, the
commands, the engine and the clocks remember; `W` is left open. -/
structure Env (W : Type) where
  now : W → Instant × W
  /-- The largest instant the clock can represent. -/
  instantMax : Instant
  epoch : W → Duration × W
  seed : W → UInt64
  setSeed : UInt64 → W → W
  hash : Text → ℕ
  uptimeText : Duration → Text
  vfs : ℕ → (call : VfsCall) → W → Except Errno call.Ans × W
  hasSymlinks : ℕ → Bool
  file : Handle → (call : FileCall) → W → Except Errno call.Ans × W
  grant : ℕ → ℕ → W → Bool × W
  instantiate : ℕ → W → Option Instance × W
  guest : Instance → W → GuestRun × W
  readsStdin : ℕ → List Bytes → W → Bool × W
  command : ℕ → Invocation → W → Except Errno HostExit × W

/-- An environment with a clock that stands still and nothing else to offer. -/
def Env.still (W : Type) : Env W where
  now w := (0, w)
  instantMax := 2^64
  epoch w := (0, w)
  seed _ := 1
  setSeed _ w := w
  hash _ := 0
  uptimeText _ := []
  vfs _ _ w := (.error .noent, w)
  hasSymlinks _ := false
  file _ _ w := (.error .badf, w)
  grant _ _ w := (true, w)
  instantiate _ w := (none, w)
  guest _ w := (⟨[], none⟩, w)
  readsStdin _ _ w := (false, w)
  command _ _ w := (.error .noent, w)

def xorshift (x : UInt64) : UInt64 :=
  let x := x ^^^ (x <<< 13)
  let x := x ^^^ (x >>> 7)
  x ^^^ (x <<< 17)

def fillRandom : ℕ → UInt64 → Bytes × UInt64
  | 0, x => ([], x)
  | count + 1, x =>
    let x := xorshift x
    let (bytes, last) := fillRandom count x
    (x.toUInt8 :: bytes, last)

namespace EnvCall
variable {W : Type}

def answer (env : Env W) (mounts : Mounts) : (c : EnvCall) → W → c.Ans × W
  | .now, w => env.now w
  | .instantMax, w => (env.instantMax, w)
  | .epoch, w => env.epoch w
  | .hash path, w => (env.hash path, w)
  | .uptimeText d, w => (env.uptimeText d, w)
  | .random count, w =>
    let (x, w) :=
      if env.seed w = 0 then
        let (d, w) := env.epoch w
        (UInt64.ofNat d ||| 1, w)
      else (env.seed w, w)
    let (bytes, x) := fillRandom count x
    (bytes, env.setSeed x w)
  | .vfs mount call, w => match mounts.get mount with
    | some m => env.vfs m.vfs call w
    | none => (.error .noent, w)
  | .hasSymlinks mount, w => ((mounts.get mount).any fun m => env.hasSymlinks m.vfs, w)
  | .file handle call, w => env.file handle call w
  | .grant size pages, w => env.grant size pages w

end EnvCall

namespace Machine

def setTask (m : Machine) (task : Task) : Machine := { m with ctx := { m.ctx with task := task } }

def setFds (m : Machine) (fds : FdTable) : Machine := m.setTask { m.ctx.task with fds := fds }

def setExec (m : Machine) (exec : ExecState) : Machine := { m with ctx := { m.ctx with exec := exec } }

def setShared (m : Machine) (shared : Shared) : Machine := { m with shared := shared }

def setMem (m : Machine) (mem : Mem) : Machine := { m with inst := { m.inst with mem := mem } }

def updateSelf (m : Machine) (f : ProcRecord → ProcRecord) : Machine :=
  m.setShared (m.shared.updateRecord m.ctx.task.pid f)

/-- Slots for descriptions: four for each descriptor a process may have. -/
def descCap (m : Machine) : ℕ := satMulU64 m.shared.limits.openFiles 4

/-- The end of `sys_openat`: a description of its own, and a descriptor for it. -/
def openDesc (m : Machine) (kind : OpenKind) (path : Text) (flags : ℕ) (cloexec : Bool) :
    Except (Errno × Option Handle) ℤ × Machine :=
  match m.shared.descs.insert (.new kind path flags) m.descCap with
  | none => (.error (.mfile, none), m)
  | some (key, descs) =>
    let m := m.setShared { m.shared with descs := descs }
    match m.ctx.task.fds.alloc ⟨key, cloexec⟩ 0 m.shared.limits.openFiles with
    | .ok (fd, fds) => (.ok fd, m.setFds fds)
    | .error e =>
      let (handle, shared) := m.shared.releaseDesc key
      (.error (e, handle), m.setShared shared)

/-- `dup`, `F_DUPFD` and reopening a descriptor: a reference is taken first,
and a table with no room left keeps it. -/
def dup (m : Machine) (fd : ℤ) (cloexec : Bool) (min : ℕ) : Except Errno ℤ × Machine :=
  match m.ctx.task.fds.get fd with
  | .error e => (.error e, m)
  | .ok entry =>
    let m := m.setShared (m.shared.addRef entry.desc)
    match m.ctx.task.fds.alloc ⟨entry.desc, cloexec⟩ min m.shared.limits.openFiles with
    | .ok (fd, fds) => (.ok fd, m.setFds fds)
    | .error e => (.error e, m)

/-- `dup3` between two different descriptors. -/
def dupTo (m : Machine) (fd target : ℤ) (cloexec : Bool) : Except Errno (Option Handle) × Machine :=
  match m.ctx.task.fds.get fd with
  | .error e => (.error e, m)
  | .ok entry =>
    let m := m.setShared (m.shared.addRef entry.desc)
    match m.ctx.task.fds.replace target ⟨entry.desc, cloexec⟩ m.shared.limits.openFiles with
    | .error e => (.error e, m)
    | .ok (none, fds) => (.ok none, m.setFds fds)
    | .ok (some old, fds) =>
      let (handle, shared) := m.shared.releaseDesc old.desc
      (.ok handle, (m.setFds fds).setShared shared)

def close (m : Machine) (fd : ℤ) : Except Errno (Option Handle) × Machine :=
  match m.ctx.task.fds.take fd with
  | .error e => (.error e, m)
  | .ok (entry, fds) =>
    let (handle, shared) := m.shared.releaseDesc entry.desc
    (.ok handle, (m.setFds fds).setShared shared)

def pipeDesc (kind : DescKind) (access flags : ℕ) : Desc :=
  .new kind (ascii "pipe:") (access ||| (flags &&& oNonblock))

/-- `pipe2` up to where the two numbers are written to the guest. What was
inserted before a failure stays where it is. -/
def pipe2 (m : Machine) (flags : ℕ) : Except Errno (ℤ × ℤ) × Machine :=
  let limit := m.shared.limits.openFiles
  let cloexec := flags &&& oCloexec != 0
  match m.shared.pipes.insert Pipe.new limit with
  | none => (.error .mfile, m)
  | some (pipe, pipes) =>
    let m := m.setShared { m.shared with pipes := pipes }
    match m.shared.descs.insert (pipeDesc (.pipeRead pipe) oRdonly flags) m.descCap with
    | none => (.error .mfile, m)
    | some (readDesc, descs) =>
      let m := m.setShared { m.shared with descs := descs }
      match m.shared.descs.insert (pipeDesc (.pipeWrite pipe) oWronly flags) m.descCap with
      | none => (.error .mfile, m)
      | some (writeDesc, descs) =>
        let m := m.setShared { m.shared with descs := descs }
        match m.ctx.task.fds.alloc ⟨readDesc, cloexec⟩ 0 limit with
        | .error e => (.error e, m)
        | .ok (readFd, fds) =>
          let m := m.setFds fds
          match m.ctx.task.fds.alloc ⟨writeDesc, cloexec⟩ 0 limit with
          | .ok (writeFd, fds) => (.ok (readFd, writeFd), m.setFds fds)
          | .error e => match m.ctx.task.fds.take readFd with
            | .error _ => (.error e, m)
            | .ok (entry, fds) =>
              (.error e, (m.setFds fds).setShared (m.shared.releaseDesc entry.desc).2)

/-- `vfork`: the child takes the instance over and the parent waits on the stack. -/
def fork (m : Machine) : Option ℤ × Machine :=
  match m.shared.forkRecord m.ctx.task with
  | none => (none, m)
  | some (pid, shared) =>
    let child := { m.ctx.task with pid := pid }
    (some pid,
     { m with
       shared := shared.duplicate m.ctx.task.fds
       ctx := { m.ctx with task := child, vforkStack := m.ctx.task :: m.ctx.vforkStack } })

/-- A vfork child exiting hands the instance back to its parent. -/
def vforkExit (m : Machine) (status : ℤ) : Option (ℤ × List Handle) × Machine :=
  match m.ctx.vforkStack with
  | [] => (none, m)
  | parent :: rest =>
    let child := m.ctx.task
    let (handles, shared) := m.shared.releaseFds child.fds
    (some (child.pid, handles),
     { m with
       shared := shared.setExit child.pid status
       ctx := { m.ctx with task := parent, vforkStack := rest } })

def finishExec (m : Machine) (program : ProgramId) (exe : Text) (argv envp : List Bytes) :
    (Option ℤ × List Handle) × Machine :=
  let (closing, fds) := m.ctx.task.fds.drainCloexec
  let (handles, shared) := m.shared.releaseAll closing
  let task := { m.ctx.task with fds := fds }
  match m.ctx.vforkStack with
  | parent :: rest =>
    ((some task.pid, handles),
     { m with
       shared := { shared with spawn := shared.spawn ++ [⟨task, program, exe, argv, envp⟩] }
       ctx := { m.ctx with task := parent, vforkStack := rest } })
  | [] =>
    ((none, handles),
     { m with
       shared := shared
       ctx := { m.ctx with
         task := .new 0 .new
         execRequest := some ⟨task, program, exe, argv, envp⟩ } })

/-- How many bytes of standard input one read of at most `count` hands over:
up to and with the first newline. -/
def lineLength (data : Bytes) (count : ℕ) : ℕ :=
  let window := data.take count
  match window.findIdx? fun b => b == 0x0A with
  | some i => i + 1
  | none => window.length

/-- Ask Asyncify to save the stack. The header of the scratch area is two
words: where to write next, and where to stop. -/
def unwind (m : Machine) (why : Suspension) : Machine :=
  let data := m.ctx.exec.asyncifyData
  let size := asU32 ((asyncifyPages * page - 8 : ℕ) : ℤ)
  let start := satAddU32 data 8
  let mem := (m.inst.mem.put data (toLe 4 start)).toOption.getD m.inst.mem
  let mem := (mem.put (satAddU32 data 4) (toLe 4 (satAddU32 start size))).toOption.getD mem
  { m with
    ctx := { m.ctx with exec := { m.ctx.exec with suspension := some why } }
    inst := { m.inst with mem := mem, unwinding := true } }

end Machine

namespace Act

def exec : (a : Act) → Machine → a.Ans × Machine
  | .view, m => (m.view, m)
  | .deadline, m => (m.ctx.exec.deadline, m)
  | .put start data, m => match m.inst.mem.put start data with
    | .ok mem => (.ok (), m.setMem mem)
    | .error e => (.error e, m)
  | .growMem pages, m => (m.inst.mem.size / page, m.setMem (m.inst.mem.grow pages))
  | .charge bytes, m => ((m.shared.chargeMemory bytes).1, m.setShared (m.shared.chargeMemory bytes).2)
  | .release bytes, m => ((), m.setShared (m.shared.releaseMemory bytes))
  | .grew bytes, m => ((), m.setExec { m.ctx.exec with grown := satAddU64 m.ctx.exec.grown bytes })
  | .setCwd path, m => ((), m.setTask { m.ctx.task with cwd := path })
  | .setUmask mask, m => ((), m.setTask { m.ctx.task with umask := mask })
  | .setMask mask, m => ((), m.setTask { m.ctx.task with sigmask := mask })
  | .setAction signal action, m => ((), m.setTask (m.ctx.task.setAction signal action))
  | .setCloexec fd on, m => match m.ctx.task.fds.setCloexec fd on with
    | .ok fds => (.ok (), m.setFds fds)
    | .error e => (.error e, m)
  | .setDescFlags key flags, m => ((), m.setShared
      { m.shared with descs := m.shared.descs.modify key fun d => { d with flags := flags } })
  | .setDescPos key pos, m => ((), m.setShared
      { m.shared with descs := m.shared.descs.modify key fun d => { d with
          kind := match d.kind with
            | .dir entries _ => .dir entries pos
            | .memory data _ => .memory data pos
            | kind => kind } })
  | .openDesc kind path flags cloexec, m => m.openDesc kind path flags cloexec
  | .dup fd cloexec min, m => m.dup fd cloexec min
  | .dupTo fd target cloexec, m => m.dupTo fd target cloexec
  | .close fd, m => m.close fd
  | .pipe2 flags, m => m.pipe2 flags
  | .stdinTake count, m =>
    let n := Machine.lineLength m.shared.stdin.data count
    (m.shared.stdin.data.take n, m.setShared { m.shared with
      stdin := { m.shared.stdin with data := m.shared.stdin.data.drop n, wanted := false } })
  | .pipeTake key count, m =>
    (((m.shared.pipes.get key).map fun p => p.data.take count).getD [],
     m.setShared { m.shared with
      pipes := m.shared.pipes.modify key fun p => { p with data := p.data.drop count } })
  | .pipePut key data, m => ((), m.setShared { m.shared with
      pipes := m.shared.pipes.modify key fun p => { p with data := p.data ++ data } })
  | .writeOutput which data, m => ((), m.setShared (m.shared.writeOutput which data))
  | .setTermios termios, m => ((), m.setShared { m.shared with
      terminal := m.shared.terminal.map fun t => { t with termios := termios } })
  | .raise signal, m => ((), m.updateSelf fun r => r.raise signal)
  | .sendSignal target signal, m =>
    ((m.shared.sendSignal m.ctx.task.pid target signal).1,
     m.setShared (m.shared.sendSignal m.ctx.task.pid target signal).2)
  | .dropPending set, m => ((), m.updateSelf fun r => { r with pending := r.pending &&& ~~~set })
  | .setPgid target group, m =>
    ((), m.setShared (m.shared.updateRecord target fun r => { r with pgid := group }))
  | .setSid, m => ((), m.updateSelf fun r => { r with pgid := m.ctx.task.pid, sid := m.ctx.task.pid })
  | .reap child, m => ((), m.setShared
      { m.shared with table := m.shared.table.filter fun r => r.pid != child })
  | .fork, m => m.fork
  | .vforkExit status, m => m.vforkExit status
  | .finishExec program exe argv envp, m => m.finishExec program exe argv envp
  | .served, m => ((), m.setShared { m.shared with syscalls := satAddU64 m.shared.syscalls 1 })
  | .noteVfsPending, m => ((), m.setShared { m.shared with vfsPending := true })
  | .wantStdin, m => ((), m.setShared
      { m.shared with stdin := { m.shared.stdin with wanted := true } })
  | .setDeadline until', m => ((), m.setExec { m.ctx.exec with deadline := some until' })
  | .setWake until', m => ((), m.updateSelf fun r => { r with wakeAt := some until' })
  | .suspendMask mask, m => ((), { m with ctx := { m.ctx with
      task := { m.ctx.task with sigmask := mask }
      exec := { m.ctx.exec with
        maskToRestore := m.ctx.exec.maskToRestore.or (some m.ctx.task.sigmask) } } })
  | .settle, m => ((), { m with ctx := { m.ctx with
      task := { m.ctx.task with sigmask := m.ctx.exec.maskToRestore.getD m.ctx.task.sigmask }
      exec := { m.ctx.exec with deadline := none, maskToRestore := none } } })
  | .setSignalFlag flag, m => ((), m.setExec { m.ctx.exec with signalFlag := flag })
  | .saveSp, m => ((), m.setExec { m.ctx.exec with resumeSp := m.inst.sp })
  | .stopRewind, m => (m.ctx.exec.resumeValue,
      { m.setExec { m.ctx.exec with rewinding := false } with
        inst := { m.inst with
          sp := if m.ctx.exec.resumeSp ≠ 0 then m.ctx.exec.resumeSp else m.inst.sp } })
  | .unwind why, m => ((), m.unwind why)
  | .compute mem sp, m => ((), { m with
      inst := { m.inst with mem := ⟨max m.inst.mem.size mem.size, mem.byte⟩, sp := sp } })

end Act

def exec {W : Type} (env : Env W) : Program.Exec sig (Machine × W)
  | .env c, (m, w) => ((c.answer env m.shared.mounts w).1, m, (c.answer env m.shared.mounts w).2)
  | .act a, (m, w) => ((a.exec m).1, (a.exec m).2, w)

@[simp] theorem exec_env {W : Type} (env : Env W) (c : EnvCall) (s : Machine × W) :
    exec env (.env c) s =
      ((c.answer env s.1.shared.mounts s.2).1, s.1, (c.answer env s.1.shared.mounts s.2).2) :=
  rfl

@[simp] theorem exec_act {W : Type} (env : Env W) (a : Act) (s : Machine × W) :
    exec env (.act a) s = ((a.exec s.1).1, (a.exec s.1).2, s.2) := rfl

end Wasmux
