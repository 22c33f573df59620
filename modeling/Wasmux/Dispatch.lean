import Wasmux.Processes

/-!
# The syscall table and the imports

`handle` is the table, `dispatch` serves one call, and the imports are what a
guest reaches: a call that cannot finish asks for the stack to be unwound and
is served again later with the same arguments.
-/

set_option autoImplicit false

namespace Wasmux
open Effects Abi

/-- What a syscall did, as the import shim and the scheduler see it. -/
inductive Outcome where
  | value (v : ℤ)
  | blocked
  | exit (status : ℤ)
  | exec
  deriving DecidableEq

def handle (number : ℤ) (a : Args) : Handler ℤ :=
  match Nr.ofInt number with
  | .exit | .exitGroup => Sys.exit a
  | .clone => Sys.clone a
  | .execve => Sys.execve a
  | .wait4 => Sys.wait4 a
  | .getpid | .gettid | .setTidAddress => Sys.getpid
  | .getppid => Sys.getppid
  | .getuid | .geteuid | .getgid | .getegid | .setuid | .setgid | .setreuid | .setregid
  | .setresuid | .setresgid | .setgroups | .getgroups => .ret 0
  | .setpgid => Sys.setpgid a
  | .getpgid => Sys.getpgid a
  | .setsid => Sys.setsid
  | .getsid => Sys.getsid a
  | .setRobustList | .prctl | .schedYield | .membarrier | .rseq => .ret 0
  | .schedGetaffinity => Sys.schedGetaffinity a
  | .umask => Sys.umask a
  | .uname => Sys.uname a
  | .sysinfo => Sys.sysinfo a
  | .prlimit64 => Sys.prlimit64 a
  | .getrusage => Sys.getrusage a
  | .times => Sys.times a
  | .getrandom => Sys.getrandom a
  | .rtSigaction => Sys.rtSigaction a
  | .rtSigprocmask => Sys.rtSigprocmask a
  | .rtSigpending => Sys.rtSigpending a
  | .rtSigsuspend => Sys.rtSigsuspend a
  | .sigaltstack | .rtSigreturn => .ret 0
  | .kill | .tkill => Sys.kill a
  | .tgkill => Sys.tgkill a
  | .clockGettime64 => Sys.clockGettime64 a
  | .clockGetresTime64 => Sys.clockGetresTime64 a
  | .gettimeofday => Sys.gettimeofday a
  | .nanosleep => Sys.nanosleep a
  | .clockNanosleepTime64 => Sys.clockNanosleepTime64 a
  | .brk => Sys.brk a
  | .mmap => Sys.mmap a
  | .munmap | .mprotect | .madvise | .msync | .mlock | .munlock => .ret 0
  | .mremap => fail .nomem
  | .openat => Sys.openat a
  | .close => Sys.close a
  | .read => Sys.read a.a0 (asU32 a.a1) (asU32 a.a2)
  | .write => Sys.write a.a0 (asU32 a.a1) (asU32 a.a2)
  | .readv => Sys.readv a
  | .writev => Sys.writev a
  | .lseek => Sys.lseek a
  | .ftruncate => Sys.ftruncate a
  | .truncate => Sys.truncate a
  | .fsync | .fdatasync | .sync | .syncfs | .fadvise64 | .flock => .ret 0
  | .dup => Sys.dup a
  | .dup3 => Sys.dup3 a
  | .pipe2 => Sys.pipe2 a
  | .fcntl => Sys.fcntl a
  | .ioctl => Sys.ioctl a
  | .getdents64 => Sys.getdents64 a
  | .getcwd => Sys.getcwd a
  | .chdir => Sys.chdir a
  | .fchdir => Sys.fchdir a
  | .statx => Sys.statx a
  | .newfstatat | .fstat => fail .nosys
  | .faccessat | .faccessat2 => Sys.faccessat a
  | .readlinkat => Sys.readlinkat a
  | .mkdirat => Sys.mkdirat a
  | .unlinkat => Sys.unlinkat a
  | .renameat | .renameat2 => Sys.renameat a
  | .symlinkat => Sys.symlinkat a
  | .linkat => fail .perm
  | .fchmodat => Sys.fchmodat a
  | .fchmod | .fchown | .fchownat => .ret 0
  | .utimensatTime64 => Sys.utimensat a
  | .statfs | .fstatfs => Sys.statfs a
  | .ppollTime64 => Sys.ppoll a
  | .pselect6Time64 => Sys.pselect a
  | .other => fail .nosys

section
variable {ε : Type}

def raiseSignalFlag : Program sig ε Unit := do
  let v ← view
  if v.signalFlag = 0 then .ret ()
  else
    let _ ← act (.put v.signalFlag (toLe 4 (if v.live ≠ 0 then 1 else 0)))
    .ret ()

def finish : Program sig ε Unit := do
  act .settle
  raiseSignalFlag

/-- What becomes of a handler's end. A wait that a signal would interrupt
gives up with `EINTR`. -/
def conclude : Except Fault ℤ → Program sig ε Outcome
  | .ok value => do
    finish
    return .value value
  | .error (.errno e) => do
    finish
    return .value e.asNeg
  | .error .block => do
    let v ← view
    if v.live ≠ 0 then
      finish
      return .value Errno.intr.asNeg
    else return .blocked
  | .error (.exit status) => .ret (.exit status)
  | .error .exec => .ret .exec

def dispatch (number : ℤ) (a : Args) : Program sig ε Outcome := do
  act .served
  conclude (← (handle number a).catching)

end

def Machine.counted (m : Machine) : Machine := (Act.exec .served m).2

/-- The machine with its deadline dropped and its own mask back. -/
def Machine.settled (m : Machine) : Machine := (Act.exec .settle m).2

/-- The machine once musl has been told whether a signal is waiting. -/
def Machine.flagged (m : Machine) : Machine :=
  if m.ctx.exec.signalFlag = 0 then m
  else (Act.exec (.put m.ctx.exec.signalFlag (toLe 4 (if m.view.live ≠ 0 then 1 else 0))) m).2

section
variable {ε W : Type} (x : Env W)

theorem run_finish (m : Machine) (w : W) :
    (finish : Program sig ε Unit).run (exec x) (m, w) = (.ok (), m.settled.flagged, w) := by
  change Program.run (exec x) (if m.settled.ctx.exec.signalFlag = 0 then .ret () else
    (act (.put m.settled.ctx.exec.signalFlag (toLe 4 (if m.settled.view.live ≠ 0 then 1 else 0))) >>=
      fun _ => .ret ()) : Program sig ε Unit) (m.settled, w) = _
  unfold Machine.flagged
  split <;> rfl

theorem run_dispatch (number : ℤ) (a : Args) (m : Machine) (w : W) :
    (dispatch number a : Program sig ε Outcome).run (exec x) (m, w) =
      (conclude ((handle number a).run (exec x) (m.counted, w)).1).run (exec x)
        ((handle number a).run (exec x) (m.counted, w)).2 := by
  change (((handle number a).catching >>= conclude : Program sig ε Outcome)).run (exec x)
    (m.counted, w) = _
  rw [Program.run_bind, Program.run_catching]

theorem conclude_ok (v : ℤ) (m : Machine) (w : W) :
    (conclude (.ok v) : Program sig ε Outcome).run (exec x) (m, w) =
      (.ok (.value v), m.settled.flagged, w) := by
  have h := run_finish (ε := ε) x m w
  exact (Program.run_bind_ok (exec x) h).trans rfl

theorem conclude_errno (e : Errno) (m : Machine) (w : W) :
    (conclude (.error (.errno e)) : Program sig ε Outcome).run (exec x) (m, w) =
      (.ok (.value e.asNeg), m.settled.flagged, w) := by
  have h := run_finish (ε := ε) x m w
  exact (Program.run_bind_ok (exec x) h).trans rfl

theorem conclude_block (m : Machine) (w : W) :
    (conclude (.error .block) : Program sig ε Outcome).run (exec x) (m, w) =
      if m.view.live ≠ 0 then (.ok (.value Errno.intr.asNeg), m.settled.flagged, w)
      else (.ok .blocked, m, w) := by
  have h := run_finish (ε := ε) x m w
  change Program.run (exec x) (if m.view.live ≠ 0 then
    (finish >>= fun _ => .ret (Outcome.value Errno.intr.asNeg)) else .ret .blocked) (m, w) = _
  split
  · exact (Program.run_bind_ok (exec x) h).trans rfl
  · rfl

/-- Only a wait is answered with a wait. -/
theorem conclude_blocked {r : Except Fault ℤ} {s t : Machine × W}
    (h : (conclude r : Program sig ε Outcome).run (exec x) s = (.ok .blocked, t)) :
    r = .error .block ∧ s = t := by
  obtain ⟨m, w⟩ := s
  rcases r with fault | v
  · cases fault with
    | errno e =>
      rw [conclude_errno] at h
      cases h
    | block =>
      rw [conclude_block] at h
      split at h
      · cases h
      · cases h
        exact ⟨rfl, rfl⟩
    | exit status => cases h
    | exec => cases h
  · rw [conclude_ok] at h
    cases h

end

section
variable {ε : Type}

inductive SignalDelivery where
  | none
  | handler
  | fatal (status : ℤ)
  deriving DecidableEq

def trailingZeros (s : Sigset) : ℕ := ((List.range 64).find? s.getLsbD).getD 64

/-- The layout the guest's delivery stub reads. A store that does not fit is
dropped. -/
def putDelivery (out : ℕ) (signal : ℕ) (action : SigAction) : Program sig ε Unit := do
  let _ ← act (.put out (toLe 4 signal))
  let _ ← act (.put (wrapAdd out 4) (toLe 4 action.handler))
  let _ ← act (.put (wrapAdd out 8) (toLe 4 action.flags))
  let _ ← act (.put (wrapAdd out 12) (toLe 4 0))
  let _ ← act (.put (wrapAdd out 16) (toLe 4 0))
  return ()

/-- The loop of `next_signal`. Every turn takes a pending signal, so there are
at most as many as there are signals. -/
def nextSignalFrom (out : ℕ) : ℕ → Program sig ε SignalDelivery
  | 0 => .ret .none
  | turns + 1 => do
    let v ← view
    let (live, discard) := triage v.pending v.task.sigmask v.task
    if discard ≠ 0 then act (.dropPending discard)
    if live = 0 then
      if v.signalFlag ≠ 0 then
        let _ ← act (.put v.signalFlag (toLe 4 0))
      return .none
    else
      let signal := trailingZeros live
      act (.dropPending (bit signal))
      let action := v.task.action signal
      if action.handler = sigIgn then nextSignalFrom out turns
      else if action.handler = sigDfl then
        if defaultKills signal then return .fatal (statusSignaled signal)
        else nextSignalFrom out turns
      else
        if action.flags &&& saResethand ≠ 0 then act (.setAction signal default)
        putDelivery out signal action
        return .handler

def nextSignal (out : ℕ) : Program sig ε SignalDelivery := nextSignalFrom out (nsig + 1)

/-- The auxiliary vector, with the two entries that are addresses left to fill. -/
def auxv : List (ℕ × ℕ) :=
  [(atPagesz, 4096), (atClktck, 100), (atUid, 0), (atEuid, 0), (atGid, 0), (atEgid, 0),
   (atSecure, 0), (atRandom, 0), (atExecfn, 0), (atNull, 0)]

/-- Where each string of a list starts when they are laid out from `start` on,
each with a NUL after it. -/
def stringOffsets : ℕ → List Bytes → List ℕ
  | _, [] => []
  | start, s :: rest => start :: stringOffsets (start + s.length + 1) rest

/-- The block a starting guest reads: `argc`, `argv`, `envp`, the auxiliary
vector, the random bytes and the strings, laid out at `base`. -/
def startBlock (argv envp : List Bytes) (exe : Text) (seed : Bytes) (base : ℕ) : Bytes :=
  let header := (argv.length + envp.length + 3 + auxv.length * 2) * 4
  let stringsAt := header + 16
  let strings := (argv ++ envp).flatMap fun s => s ++ [0]
  let offsets := stringOffsets stringsAt (argv ++ envp)
  let execfnAt := stringsAt + strings.length
  let pointer (off : ℕ) : Bytes := toLe 4 (wrapAdd base off)
  toLe 4 argv.length ++ (offsets.take argv.length).flatMap pointer ++ toLe 4 0 ++
    (offsets.drop argv.length).flatMap pointer ++ toLe 4 0 ++
    (auxv.flatMap fun e => toLe 4 e.1 ++
      (if e.1 = atRandom then pointer header
       else if e.1 = atExecfn then pointer execfnAt
       else toLe 4 e.2)) ++
    seed ++ strings ++ exe ++ [0]

namespace Import

def finishRewind : Program sig ε ℤ := act .stopRewind

def readArgs (m : Mem) (argsPtr : ℕ) : Except Errno Args := do
  let word (index : ℕ) : Except Errno ℤ := do return asI32 (← m.u32 (wrapAdd argsPtr (index * 4)))
  return ⟨← word 0, ← word 1, ← word 2, ← word 3, ← word 4, ← word 5⟩

def syscall (number argsPtr : ℕ) : Program sig ε ℤ := do
  let v ← view
  if v.rewinding then finishRewind
  else match readArgs v.mem argsPtr with
    | .error e => return e.asNeg
    | .ok args =>
      match ← dispatch (asI32 number) args with
      | .value value => return value
      | .blocked =>
        act .saveSp
        act (.unwind (.blocked (asI32 number) args))
        return 0
      | .exit status =>
        act (.unwind (.exit status))
        return 0
      | .exec =>
        act (.unwind .exec)
        return 0

def setjmp (buf : ℕ) : Program sig ε ℤ := do
  let v ← view
  if v.rewinding then finishRewind
  else
    act (.unwind (.setjmp buf v.sp))
    return 0

def longjmp (buf : ℕ) (value : ℤ) : Program sig ε Unit := act (.unwind (.longjmp buf value))

def init (flag : ℕ) : Program sig ε Unit := act (.setSignalFlag flag)

def args (buffer capacity : ℕ) : Program sig ε ℤ := do
  let v ← view
  let seed ← env (.random 16)
  let block := startBlock v.argv v.envp v.task.exe seed buffer
  if capacity = 0 then return asI32 block.length
  else if capacity < block.length then return Errno.toobig.asNeg
  else
    match ← act (.put buffer block) with
    | .ok () => return asI32 block.length
    | .error e => return e.asNeg

def sigfetch (out : ℕ) : Program sig ε ℤ := do
  match ← nextSignal out with
  | .none => return 0
  | .handler => return 1
  | .fatal status =>
    act (.unwind (.exit status))
    return 0

end Import

/-- One thing a guest does. While its stack is being saved an instrumented
guest reaches no import. -/
def guestAct (g : GuestAct) : Program sig ε Unit := do
  let v ← view
  match g with
  | .compute mem sp => act (.compute mem sp)
  | g =>
    if v.unwinding then .ret ()
    else match g with
      | .syscall number argsPtr => do
        let _ ← Import.syscall number argsPtr
        .ret ()
      | .setjmp buf => do
        let _ ← Import.setjmp buf
        .ret ()
      | .longjmp buf value => Import.longjmp buf value
      | .init flag => Import.init flag
      | .args buffer capacity => do
        let _ ← Import.args buffer capacity
        .ret ()
      | .sigfetch out => do
        let _ ← Import.sigfetch out
        .ret ()
      | .compute _ _ => .ret ()

def runActs : List GuestAct → Program sig ε Unit
  | [] => .ret ()
  | g :: rest => do
    guestAct g
    runActs rest

end

end Wasmux
