import Wasmux.Dispatch

/-!
# The scheduler

One kernel is one session: its processes, what they share, and the loop that
steps each in turn until something has to be reported. Every handler runs as
the operations of one process; the rest of the loop has operations of its own.
-/

set_option autoImplicit false

namespace Wasmux
open Effects Abi

structure Offer where
  fd : ℤ
  data : Bytes
  answer : Except Fault ℕ

def Offer.count (o : Offer) : ℕ :=
  match o.answer with
  | .ok n => n
  | .error _ => 0

inductive Phase where
  | reading (buffer : Bytes)
  | flushing (status : ℤ) (stdout stderr : Bytes) (outDone errDone : ℕ)
  deriving DecidableEq

structure HostProc where
  command : ℕ
  readsStdin : Bool
  phase : Phase
  deriving DecidableEq

/-- How a process continues the next time the scheduler reaches it. -/
inductive Resume where
  | fresh
  | rewind
  | blocked (number : ℤ) (args : Args)
  deriving DecidableEq

/-- One running process. A host command has no instance: its `inst` is empty. -/
structure Proc where
  ctx : Ctx
  inst : Instance
  host : Option HostProc
  resume : Resume
  charged : ℕ
  parked : Bool

inductive Idle where
  | host
  | vfs
  | stdin
  | until (limit : Instant)
  | deadlock
  deriving DecidableEq

inductive Slice where
  | finished (status : ℤ)
  | idle (why : Idle)
  | budget
  deriving DecidableEq

inductive ProcStep where
  | ran
  | stuck
  | ended (status : ℤ)
  | replaced
  deriving DecidableEq

structure Budget where
  syscalls : Option ℕ
  duration : Option Duration
  deriving DecidableEq

structure Kernel where
  shared : Shared
  procs : List Proc
  exitStatus : Option ℤ

/-- A program made ready: a host command, or an instance with its scratch area
and what it was charged. -/
inductive Launch where
  | host (command : ℕ) (readsStdin : Bool)
  | guest (inst : Instance) (charged asyncifyData : ℕ)

/-- What a process is found to be when its turn comes. -/
inductive Attached where
  | host
  | guest (resume : Resume)

structure KView where
  count : ℕ
  spawned : ℕ
  nextSpawn : Option Spawn
  programs : List ProgramKind
  limits : Limits
  started : Instant
  syscalls : ℕ
  vfsPending : Bool
  hostPending : Bool
  exitStatus : Option ℤ

def Kernel.look (k : Kernel) : KView where
  count := k.procs.length
  spawned := k.shared.spawn.length
  nextSpawn := k.shared.spawn.head?
  programs := k.shared.programs
  limits := k.shared.limits
  started := k.shared.started
  syscalls := k.shared.syscalls
  vfsPending := k.shared.vfsPending
  hostPending := k.shared.hostPending
  exitStatus := k.exitStatus

inductive KCall where
  | now
  | instantMax
  | grant (size pages : ℕ)
  | closeFile (handle : Handle)
  | instantiate (image : ℕ)
  | guest (inst : Instance)
  | readsStdin (command : ℕ) (argv : List Bytes)
  /-- `index` is the process that calls, for the history only. -/
  | command (index command : ℕ) (call : Invocation)

abbrev KCall.Ans : KCall → Type
  | .now => Instant
  | .instantMax => Instant
  | .grant _ _ => Bool
  | .closeFile _ => Except Errno Unit
  | .instantiate _ => Option Instance
  | .guest _ => GuestRun
  | .readsStdin _ _ => Bool
  | .command _ _ _ => Except Errno HostExit

inductive KAct where
  | look
  | beginRun
  | attach (index : ℕ)
  | endStep (index : ℕ) (external : Bool)
  | charge (bytes : ℕ)
  | release (bytes : ℕ)
  | launchSpawn (launch : Launch)
  | abandonSpawn
  | execRequest (index : ℕ)
  | releaseInstance (index : ℕ)
  | launchExec (index : ℕ) (launch : Launch)
  | abandonExec (index : ℕ)
  | setResume (index : ℕ) (resume : Resume)
  | rewind (index : ℕ)
  | resumeWith (index : ℕ) (value : ℤ)
  | inst (index : ℕ)
  | takeSuspension (index : ℕ)
  | saveJmp (index env sp : ℕ)
  | restoreJmp (index env : ℕ) (value : ℤ)
  | trapMessage (index : ℕ) (kind : Text)
  | host (index : ℕ)
  | appendInput (index : ℕ) (chunk : Bytes)
  | setPhase (index : ℕ) (phase : Phase)
  | advance (index : ℕ) (offer : Offer)
  | noteHostPending
  | finishProcess (index : ℕ) (status : ℤ)
  | forceExit (status : ℤ)
  | whyIdle

/-- A host process as the scheduler sees it: its command and phase, and what
it would be invoked with. -/
structure HostView where
  host : HostProc
  argv : List Bytes
  envp : List Bytes
  cwd : Text
  comm : Text

abbrev KAct.Ans : KAct → Type
  | .look => KView
  | .attach _ => Option Attached
  | .charge _ => Bool
  | .abandonSpawn => List Handle
  | .execRequest _ => Option Spawn
  | .abandonExec _ => List Handle
  | .inst _ => Option Instance
  | .takeSuspension _ => Option Suspension
  | .restoreJmp _ _ _ => Bool
  | .host _ => Option HostView
  | .finishProcess _ _ => List Handle
  | .whyIdle => Idle
  | _ => Unit

inductive KOp where
  | machine (index : ℕ) (o : Op)
  | env (c : KCall)
  | act (a : KAct)

abbrev KOp.Ans : KOp → Type
  | .machine _ o => o.Ans
  | .env c => c.Ans
  | .act a => a.Ans

abbrev ksig : Signature := ⟨KOp, KOp.Ans⟩

namespace Kernel

/-- The kernel as process `p` acts on it. -/
def machineOf (k : Kernel) (p : Proc) : Machine := ⟨p.ctx, k.shared, p.inst⟩

def modifyProc (k : Kernel) (index : ℕ) (f : Proc → Proc) : Kernel :=
  { k with procs := k.procs.modify index f }

def putMachine (k : Kernel) (index : ℕ) (m : Machine) : Kernel :=
  { k.modifyProc index fun p => { p with ctx := m.ctx, inst := m.inst } with shared := m.shared }

/-- A process made from a pending spawn. -/
def procOf (spawn : Spawn) (launch : Launch) : Proc :=
  let comm := fromUtf8Lossy (spawn.argv.head?.getD [])
  let task := ({ spawn.task with exe := spawn.exe, comm := comm } : Task).resetHandlersForExec
  let ctx : Ctx := ⟨task, spawn.argv, spawn.envp, none, [], default⟩
  match launch with
  | .host command readsStdin =>
    ⟨ctx, default, some ⟨command, readsStdin, .reading []⟩, .fresh, 0, false⟩
  | .guest inst charged data =>
    ⟨{ ctx with exec := { ctx.exec with asyncifyData := data } }, inst, none, .fresh, charged, false⟩

/-- What takes the place of a process that asked to be replaced. -/
def relaunch (launch : Launch) (p : Proc) : Proc :=
  match p.ctx.execRequest with
  | some spawn => procOf spawn launch
  | none => p

def readAsyncifyStack (m : Mem) (data : ℕ) : Bytes :=
  match m.bytes data 8 with
  | .error _ => []
  | .ok header =>
    let limit := ofLe (header.take 4)
    if limit ≤ data then [] else (m.bytes data (limit - data)).toOption.getD []

/-- The children still inside a dying instance die with it, innermost first. -/
def killChildren (status : ℤ) : List Task → Task → Shared → List Handle × Task × Shared
  | [], task, sh => ([], task, sh)
  | parent :: rest, task, sh =>
    let (handles, sh) := sh.releaseFds task.fds
    let (more, task', sh) := killChildren status rest parent (sh.setExit task.pid status)
    (handles ++ more, task', sh)

def finishProcess (k : Kernel) (index : ℕ) (status : ℤ) : List Handle × Kernel :=
  match k.procs[index]? with
  | none => ([], k)
  | some p =>
    let sh := k.shared.releaseMemory (satAddU64 p.charged p.ctx.exec.grown)
    let (handles, task, sh) :=
      killChildren (statusSignaled sigkill) p.ctx.vforkStack p.ctx.task sh
    let (more, sh) := sh.releaseFds task.fds
    let sh := sh.setExit task.pid status
    let procs := k.procs.eraseIdx index
    (handles ++ more,
     { k with
       shared := sh
       procs := procs
       exitStatus := if task.pid = 1 ∨ procs = [] then k.exitStatus.or (some status)
         else k.exitStatus })

/-- The earliest instant a record of the table waits for. -/
def earliest (table : List ProcRecord) : Option Instant :=
  table.foldl (fun acc r => match r.wakeAt, acc with
    | none, acc => acc
    | some w, none => some w
    | some w, some current => if current ≤ w then some current else some w) none

def whyIdle (k : Kernel) : Idle × Kernel :=
  if k.shared.vfsPending then (.vfs, { k with shared := { k.shared with vfsPending := false } })
  else if k.shared.hostPending then
    (.host, { k with shared := { k.shared with hostPending := false } })
  else match earliest k.shared.table with
    | some limit => (.until limit, k)
    | none =>
      if k.shared.stdin.wanted && !k.shared.stdin.closed then (.stdin, k) else (.deadlock, k)

/-- A host command's cursor after `n` more bytes of descriptor `fd`. -/
def Phase.advance (fd : ℤ) (n : ℕ) : Phase → Phase
  | .flushing status stdout stderr outDone errDone =>
    if fd = 1 then .flushing status stdout stderr (outDone + n) errDone
    else .flushing status stdout stderr outDone (errDone + n)
  | phase => phase

def modifyHost (k : Kernel) (index : ℕ) (f : Phase → Phase) : Kernel :=
  k.modifyProc index fun p =>
    { p with host := p.host.map fun h => { h with phase := f h.phase } }

end Kernel

namespace KAct
open Kernel

def exec : (a : KAct) → Kernel → a.Ans × Kernel
  | .look, k => (k.look, k)
  | .beginRun, k => ((), { k with procs := k.procs.map fun p => { p with parked := false } })
  | .attach index, k => match k.procs[index]? with
    | none => (none, k)
    | some p =>
      if p.parked then (none, k)
      else match p.host with
        | some _ => (some .host, k)
        | none => (some (.guest p.resume), k.modifyProc index fun p => { p with resume := .fresh })
  | .endStep index external, k =>
    ((), k.modifyProc index fun p => { p with parked := p.parked || external })
  | .charge bytes, k => ((k.shared.chargeMemory bytes).1,
      { k with shared := (k.shared.chargeMemory bytes).2 })
  | .release bytes, k => ((), { k with shared := k.shared.releaseMemory bytes })
  | .launchSpawn launch, k => match k.shared.spawn with
    | [] => ((), k)
    | spawn :: rest => ((), { k with
        shared := { k.shared with spawn := rest }
        procs := k.procs ++ [procOf spawn launch] })
  | .abandonSpawn, k => match k.shared.spawn with
    | [] => ([], k)
    | spawn :: rest =>
      let (handles, sh) := ({ k.shared with spawn := rest } : Shared).releaseFds spawn.task.fds
      (handles, { k with shared := sh.setExit spawn.task.pid (statusExited 126) })
  | .execRequest index, k => ((k.procs[index]?).bind fun p => p.ctx.execRequest, k)
  | .releaseInstance index, k => match k.procs[index]? with
    | none => ((), k)
    | some p => ((),
        { k.modifyProc index fun p => { p with
            charged := 0
            ctx := { p.ctx with exec := { p.ctx.exec with grown := 0 } } } with
          shared := k.shared.releaseMemory (satAddU64 p.charged p.ctx.exec.grown) })
  | .launchExec index launch, k => ((), k.modifyProc index (relaunch launch))
  | .abandonExec index, k => match (k.procs[index]?).bind fun p => p.ctx.execRequest with
    | none => ([], k)
    | some spawn =>
      let (handles, sh) := k.shared.releaseFds spawn.task.fds
      (handles, { k with
        shared := sh.setExit spawn.task.pid (statusExited 126)
        procs := k.procs.eraseIdx index })
  | .setResume index resume, k => ((), k.modifyProc index fun p => { p with resume := resume })
  | .rewind index, k => ((), k.modifyProc index fun p => { p with
      ctx := { p.ctx with exec := { p.ctx.exec with rewinding := true } } })
  | .resumeWith index value, k => ((), k.modifyProc index fun p => { p with
      ctx := { p.ctx with exec := { p.ctx.exec with resumeValue := value, rewinding := true } } })
  | .inst index, k => ((k.procs[index]?).map Proc.inst, k)
  | .takeSuspension index, k => ((k.procs[index]?).bind fun p => p.ctx.exec.suspension,
      k.modifyProc index fun p => { p with
        ctx := { p.ctx with exec := { p.ctx.exec with suspension := none } }
        inst := { p.inst with unwinding := p.inst.unwinding && p.ctx.exec.suspension.isNone } })
  | .saveJmp index buf sp, k => ((), k.modifyProc index fun p => { p with
      resume := .rewind
      ctx := { p.ctx with exec := { p.ctx.exec with
        jmpBufs := (buf, readAsyncifyStack p.inst.mem p.ctx.exec.asyncifyData, sp) ::
          p.ctx.exec.jmpBufs.filter fun e => e.1 != buf
        resumeValue := 0
        resumeSp := sp } } })
  | .restoreJmp index buf value, k =>
    match (k.procs[index]?).bind fun p => (p.ctx.exec.jmpBufs.find? fun e => e.1 == buf).map (p, ·) with
    | none => (false, k)
    | some (p, _, snapshot, sp) =>
      match p.inst.mem.put p.ctx.exec.asyncifyData snapshot with
      | .error _ => (false, k)
      | .ok mem => (true, k.modifyProc index fun p => { p with
          resume := .rewind
          inst := { p.inst with mem := mem }
          ctx := { p.ctx with exec := { p.ctx.exec with resumeValue := value, resumeSp := sp } } })
  | .trapMessage index kind, k => match k.procs[index]? with
    | none => ((), k)
    | some p => ((), { k with shared := { k.shared with
        stderr := k.shared.stderr.push
          (ascii "wasmux: " ++ p.ctx.task.comm ++ ascii ": " ++ kind ++ ascii "\n")
          k.shared.limits.output } })
  | .host index, k => ((k.procs[index]?).bind fun p => p.host.map fun h =>
      ⟨h, p.ctx.argv, p.ctx.envp, p.ctx.task.cwd, p.ctx.task.comm⟩, k)
  | .appendInput index chunk, k => ((), k.modifyHost index fun phase => match phase with
      | .reading buffer => .reading (buffer ++ chunk)
      | phase => phase)
  | .setPhase index phase, k => ((), k.modifyHost index fun _ => phase)
  | .advance index offer, k => ((), k.modifyHost index (Phase.advance offer.fd offer.count))
  | .noteHostPending, k => ((), { k with shared := { k.shared with hostPending := true } })
  | .finishProcess index status, k => k.finishProcess index status
  | .forceExit status, k => ((), { k with exitStatus := k.exitStatus.or (some status) })
  | .whyIdle, k => k.whyIdle

end KAct

namespace KCall
variable {W : Type}

def answer (env : Env W) : (c : KCall) → W → c.Ans × W
  | .now, w => env.now w
  | .instantMax, w => (env.instantMax, w)
  | .grant size pages, w => env.grant size pages w
  | .closeFile handle, w => env.file handle .close w
  | .instantiate image, w => env.instantiate image w
  | .guest inst, w => env.guest inst w
  | .readsStdin c argv, w => env.readsStdin c argv w
  | .command _ c call, w => env.command c call w

end KCall

/-- The interpretation of the scheduler's operations. A machine operation of a
process that is not there is answered and changes nothing. -/
def kexec {W : Type} (env : Env W) : Program.Exec ksig (Kernel × W)
  | .machine index o, (k, w) => match k.procs[index]? with
    | some p =>
      let (a, m, w') := Wasmux.exec env o (k.machineOf p, w)
      (a, k.putMachine index m, w')
    | none => ((Wasmux.exec env o (⟨default, k.shared, default⟩, w)).1, k, w)
  | .env c, (k, w) => ((c.answer env w).1, k, (c.answer env w).2)
  | .act a, (k, w) => ((a.exec k).1, (a.exec k).2, w)

section
variable {W : Type} (env : Env W)

theorem kexec_machine {k : Kernel} {index : ℕ} {p : Proc} (h : k.procs[index]? = some p) (o : Op)
    (w : W) : kexec env (.machine index o) (k, w) =
      ((exec env o (k.machineOf p, w)).1, k.putMachine index (exec env o (k.machineOf p, w)).2.1,
        (exec env o (k.machineOf p, w)).2.2) := by
  simp only [kexec, h]

theorem kexec_machine_none {k : Kernel} {index : ℕ} (h : k.procs[index]? = none) (o : Op) (w : W) :
    (kexec env (.machine index o) (k, w)).2 = (k, w) := by
  simp only [kexec, h]

@[simp] theorem kexec_env (c : KCall) (s : Kernel × W) :
    kexec env (.env c) s = ((c.answer env s.2).1, s.1, (c.answer env s.2).2) := rfl

@[simp] theorem kexec_act (a : KAct) (s : Kernel × W) :
    kexec env (.act a) s = ((a.exec s.1).1, (a.exec s.1).2, s.2) := rfl

end

/-- A run that was not given enough turns to come to its end. -/
inductive Stop where
  | outOfTurns
  deriving DecidableEq

abbrev Sched (α : Type) := Program ksig Stop α

def kact (a : KAct) : Sched a.Ans := .call (KOp.act a) .ret
def kenv (c : KCall) : Sched c.Ans := .call (KOp.env c) .ret

/-- A handler's program as operations of the process at `index`. -/
def onProc {α : Type} (index : ℕ) (p : Program sig Stop α) : Sched α :=
  p.relabel (fun o => (KOp.machine index o : ksig.Op)) fun _ a => a

namespace Scheduler

/-- Close handles whose last reference went. -/
def closeFiles : List Handle → Sched Unit
  | [] => .ret ()
  | handle :: rest => do
    let _ ← kenv (.closeFile handle)
    closeFiles rest

/-- Reserve the scratch area at the top of a new instance's memory. -/
def reserve (inst : Instance) : Sched (Option Launch) := do
  let base := inst.mem.size
  let charge := satAddU64 base (satMulU64 asyncifyPages page)
  if ← kact (.charge charge) then
    if ← kenv (.grant base asyncifyPages) then
      return some (.guest { inst with mem := inst.mem.grow asyncifyPages } charge
        (asU32 ((base / page * page : ℕ) : ℤ)))
    else
      kact (.release charge)
      return none
  else return none

def prepare (program : ProgramId) (argv : List Bytes) : Sched (Option Launch) := do
  let v ← kact .look
  match v.programs[program]? with
  | none => return none
  | some (.host command) =>
    let reads ← kenv (.readsStdin command argv)
    return some (.host command reads)
  | some (.guest image) =>
    match ← kenv (.instantiate image) with
    | none => return none
    | some inst => reserve inst

/-- Give the processes made by a `vfork` and `execve` an instance of their own. -/
def startPending : ℕ → Sched Unit
  | 0 => .ret ()
  | count + 1 => do
    let v ← kact .look
    match v.nextSpawn with
    | none => .ret ()
    | some spawn =>
      match ← prepare spawn.program spawn.argv with
      | some launch => kact (.launchSpawn launch)
      | none => closeFiles (← kact .abandonSpawn)
      startPending count

def replaceInstance (index : ℕ) : Sched ProcStep := do
  match ← kact (.execRequest index) with
  | none => return .ended (statusExited 126)
  | some spawn =>
    kact (.releaseInstance index)
    match ← prepare spawn.program spawn.argv with
    | some launch =>
      kact (.launchExec index launch)
      return .replaced
    | none =>
      closeFiles (← kact (.abandonExec index))
      return .stuck

def afterReturn (index : ℕ) : Sched ProcStep := do
  match ← kact (.takeSuspension index) with
  | none => return .ended (statusExited 0)
  | some (.setjmp buf sp) =>
    kact (.saveJmp index buf sp)
    return .ran
  | some (.longjmp buf value) =>
    if ← kact (.restoreJmp index buf value) then return .ran
    else return .ended (statusSignaled sigsegv)
  | some (.blocked number args) =>
    kact (.setResume index (.blocked number args))
    return .ran
  | some (.exit status) => return .ended status
  | some .exec => replaceInstance index

/-- Enter the guest, and see how it comes back. -/
def enter (index : ℕ) : Sched ProcStep := do
  match ← kact (.inst index) with
  | none => return .stuck
  | some inst =>
    let run ← kenv (.guest inst)
    onProc index (runActs run.acts)
    match run.trap with
    | some kind =>
      kact (.trapMessage index kind)
      return .ended (statusSignaled sigsegv)
    | none => afterReturn index

/-- How draining a host command's standard input ended. -/
inductive Drained where
  | all
  | blocked

/-- Read standard input in chunks until it ends, or has to be waited for. -/
def drain (index : ℕ) : ℕ → Sched Drained
  | 0 => .fail .outOfTurns
  | turns + 1 => do
    match ← onProc index (readBytes 0 8192).catching with
    | .ok (n, chunk) =>
      if n = 0 then return .all
      else
        kact (.appendInput index (prefixOrEmpty chunk n))
        drain index turns
    | .error .block => return .blocked
    | .error _ => return .all

inductive Flushed where
  | finished
  | blocked

/-- Write a stream out from `done` on. Every turn but the last writes a byte. -/
def flush (index : ℕ) (fd : ℤ) (bytes : Bytes) : ℕ → ℕ → Sched Flushed
  | 0, _ => .ret .finished
  | turns + 1, done =>
    if bytes.length ≤ done then .ret .finished
    else do
      let answer ← onProc index (writeBytes fd (bytes.drop done)).catching
      -- only a count moves the cursor: what else is answered is there for the history
      kact (.advance index ⟨fd, bytes.drop done, answer⟩)
      match answer with
      | .ok n => if n = 0 then return .finished else flush index fd bytes turns (done + n)
      | .error .block => return .blocked
      | .error _ => return .finished

/-- Flush what a host command left: standard output first, then standard error. -/
def flushAll (index : ℕ) : Sched ProcStep := do
  match ← kact (.host index) with
  | some ⟨⟨_, _, .flushing status stdout stderr outDone errDone⟩, _, _, _, _⟩ =>
    match ← flush index 1 stdout (stdout.length + 1) outDone with
    | .blocked => return .stuck
    | .finished =>
      match ← flush index 2 stderr (stderr.length + 1) errDone with
      | .blocked => return .stuck
      | .finished => return .ended status
  | _ => return .stuck

def commandFailure (comm : Text) (e : Errno) : Phase :=
  .flushing (statusExited 126) []
    (ascii "wasmux: " ++ comm ++ ascii ": " ++ e.name ++ ascii "\n") 0 0

/-- Call a host command with what it has read. -/
def invoke (index : ℕ) : Sched ProcStep := do
  match ← kact (.host index) with
  | some ⟨⟨command, _, .reading buffer⟩, argv, envp, cwd, comm⟩ =>
    match ← kenv (.command index command ⟨argv, envp, cwd, buffer⟩) with
    | .ok exit =>
      kact (.setPhase index
        (.flushing (statusExited (asU32 exit.status &&& 0xff : ℕ)) exit.stdout exit.stderr 0 0))
      flushAll index
    | .error e =>
      if e = .again then
        kact .noteHostPending
        return .stuck
      else
        kact (.setPhase index (commandFailure comm e))
        flushAll index
  | _ => return .stuck

def stepHost (turns index : ℕ) : Sched ProcStep := do
  match ← kact (.host index) with
  | none => return .stuck
  | some ⟨host, _, _, _, _⟩ =>
    match host.phase with
    | .reading _ =>
      if host.readsStdin then
        match ← drain index turns with
        | .blocked => return .stuck
        | .all => invoke index
      else invoke index
    | .flushing _ _ _ _ _ => flushAll index

/-- Retry an outstanding syscall, and enter the guest once it can answer. -/
def retry (index : ℕ) (number : ℤ) (args : Args) : Sched ProcStep := do
  match ← onProc index (dispatch number args) with
  | .blocked =>
    kact (.setResume index (.blocked number args))
    return .stuck
  | .exit status => return .ended status
  | .exec => replaceInstance index
  | .value value =>
    kact (.resumeWith index value)
    enter index

def stepProcess (turns index : ℕ) : Sched ProcStep := do
  match ← kact (.attach index) with
  | none => return .stuck
  | some .host => stepHost turns index
  | some (.guest .fresh) => enter index
  | some (.guest .rewind) =>
    kact (.rewind index)
    enter index
  | some (.guest (.blocked number args)) => retry index number args

/-- One step, and whether the process is to be left alone until the caller has
had control: that is read off the two pending flags either side of the step. -/
def stepAndPark (turns index : ℕ) : Sched ProcStep := do
  let before ← kact .look
  let step ← stepProcess turns index
  let after ← kact .look
  kact (.endStep index
    ((after.vfsPending && !before.vfsPending) || (after.hostPending && !before.hostPending)))
  return step

inductive Pass where
  | finished (status : ℤ)
  | swept (progressed : Bool)

/-- One pass, from `index` on. A turn moves on or shortens the list. -/
def pass (turns : ℕ) : ℕ → ℕ → Bool → Sched Pass
  | 0, _, _ => .fail .outOfTurns
  | left + 1, index, progressed => do
    let v ← kact .look
    if v.count ≤ index then return .swept progressed
    else
      match ← stepAndPark turns index with
      | .ran | .replaced => pass turns left (index + 1) true
      | .stuck => pass turns left (index + 1) progressed
      | .ended status =>
        closeFiles (← kact (.finishProcess index status))
        let v ← kact .look
        match v.exitStatus with
        | some status => return .finished status
        | none => pass turns left index true

def killAll (status : ℤ) : ℕ → Sched Unit
  | 0 => kact (.forceExit status)
  | count + 1 => do
    closeFiles (← kact (.finishProcess 0 status))
    killAll status count

def pastDeadline : Sched Bool := do
  let v ← kact .look
  match v.limits.wallClock with
  | none => return false
  | some limit =>
    let max ← kenv .instantMax
    if v.started + limit ≤ max then
      let t ← kenv .now
      return v.started + limit ≤ t
    else return false

def spent (budget : Budget) (served : ℕ) (started : Instant) : Sched Bool := do
  if budget.syscalls.any fun limit => limit ≤ served then return true
  else match budget.duration with
    | none => return false
    | some limit =>
      let t ← kenv .now
      return limit ≤ t - started

/-- The loop of `run`, for as many passes as there are turns. -/
def passes (budget : Budget) (served : ℕ) : ℕ → Sched Slice
  | 0 => .fail .outOfTurns
  | turns + 1 => do
    let v ← kact .look
    startPending v.spawned
    if ← pastDeadline then
      let v ← kact .look
      killAll (statusSignaled sigkill) v.count
      let v ← kact .look
      return .finished (v.exitStatus.getD (statusSignaled sigkill))
    else
      let v ← kact .look
      match ← pass turns (v.count + 1) 0 false with
      | .finished status => return .finished status
      | .swept progressed =>
        let v ← kact .look
        if v.count = 0 then return .finished (v.exitStatus.getD 0)
        else if !progressed then return .idle (← kact .whyIdle)
        else if ← spent budget (v.syscalls - served) v.started then return .budget
        else passes budget served turns

/-- Run until something has to be reported. `turns` bounds the passes, and the
chunks a host command reads in one step. -/
def run (turns : ℕ) (budget : Budget) : Sched Slice := do
  let v ← kact .look
  kact .beginRun
  passes budget v.syscalls turns

end Scheduler
end Wasmux
