import Wasmux.Kernel

/-!
# Sessions

A session starts one program and is then driven by its caller, who runs slices
and feeds or drains the standard streams in between. `Between` is where a
session can be while the caller has control, `Reached` is every state of the
kernel on the way.
-/

set_option autoImplicit false

namespace Wasmux
open Effects Abi

structure Config where
  mounts : Mounts
  overlay : Overlay
  programs : List ProgramKind
  limits : Limits
  terminal : Option Terminal
  program : ProgramId
  exe : Text
  argv : List Bytes
  envp : List Bytes
  cwd : Text
  stdin : Bytes
  stdinClosed : Bool

namespace Config

/-- Only these programs, and nothing mounted. The first one is started. -/
def bare (programs : List ProgramKind) : Config where
  mounts := ⟨[], by simp, by simp⟩
  overlay := .new ((List.range programs.length).map fun id => (ascii "/bin/" ++ decimal id, id))
  programs := programs
  limits := ⟨2^32, 2^30, 64, 64, 2^20, none⟩
  terminal := none
  program := 0
  exe := ascii "/bin/0"
  argv := [ascii "0"]
  envp := []
  cwd := root
  stdin := []
  stdinClosed := false

def oneMount : Config :=
  { bare [.guest 0] with mounts := ⟨[⟨root, 0, false⟩], by simp, by decide⟩ }

def shared (c : Config) (started : Instant) : Shared where
  mounts := c.mounts
  overlay := c.overlay
  programs := c.programs
  limits := c.limits
  descs := .new
  pipes := .new
  table := []
  nextPid := 1
  spawn := []
  stdin := ⟨c.stdin, c.stdinClosed, false⟩
  stdout := ⟨[], 0, 0⟩
  stderr := ⟨[], 0, 0⟩
  memoryUsed := 0
  vfsPending := false
  hostPending := false
  started := started
  syscalls := 0
  terminal := c.terminal
  exits := []

def stdio : List Desc :=
  [.new .stdin (ascii "/dev/stdin") oRdonly, .new (.stdout 1) (ascii "/dev/stdout") oWronly,
   .new (.stdout 2) (ascii "/dev/stderr") oWronly]

/-- Insert each description and give it a descriptor. A table with no room for
one is not an error. -/
def addStdio : List Desc → FdTable → Shared → Option (FdTable × Shared)
  | [], fds, sh => some (fds, sh)
  | desc :: rest, fds, sh =>
    match sh.descs.insert desc (satMulU64 sh.limits.openFiles 4) with
    | none => none
    | some (key, descs) =>
      let fds := match fds.alloc ⟨key, false⟩ 0 sh.limits.openFiles with
        | .ok (_, fds) => fds
        | .error _ => fds
      addStdio rest fds { sh with descs := descs }

/-- The kernel with the first process as the only one to be started. -/
def kernel (c : Config) (started : Instant) : Option Kernel :=
  let (pid, sh) := (c.shared started).allocatePid
  match addStdio stdio .new sh with
  | none => none
  | some (fds, sh) =>
    let task := { Task.new pid fds with cwd := c.cwd }
    some
      { shared := { sh with
          table := [ProcRecord.new pid 0 pid pid]
          spawn := [⟨task, c.program, c.exe, c.argv, c.envp⟩] }
        procs := []
        exitStatus := none }

def spawnFirst (c : Config) : Sched Bool := do
  match ← Scheduler.prepare c.program c.argv with
  | some launch =>
    kact (.launchSpawn launch)
    return true
  | none =>
    Scheduler.closeFiles (← kact .abandonSpawn)
    return false

def spawn {W : Type} (c : Config) (env : Env W) (w : W) : Option (Kernel × W) :=
  match c.kernel (env.now w).1 with
  | none => none
  | some k => match c.spawnFirst.run (kexec env) (k, (env.now w).2) with
    | (.ok true, s) => some s
    | _ => none

/-- A session whose caller does nothing but step it, here with these budgets,
the last one first. -/
def drive {W : Type} (c : Config) (env : Env W) (w : W) (turns : ℕ) : List Budget → Option (Kernel × W)
  | [] => c.spawn env w
  | budget :: earlier => match c.drive env w turns earlier with
    | none => none
    | some s => match (Scheduler.run turns budget).run (kexec env) s with
      | (.ok (.finished _), _) | (.error _, _) => none
      | (.ok _, s) => some s

end Config

def Mem.startingWith (bytes : Bytes) : Mem := (⟨page, fun _ => 0⟩ : Mem).write 0 bytes

def argWords (args : List ℤ) : Bytes := args.flatMap fun word => toLe 4 (asU32 word)

/-- Guests that start from this memory and follow a script, one entry after another. -/
def Env.scripted (mem : Mem) : Env (List GuestRun) :=
  { Env.still (List GuestRun) with
    instantiate := fun _ w => (some ⟨mem, 0, false⟩, w)
    guest := fun _ w => (w.headD ⟨[], none⟩, w.tail) }

/-- Guests with the arguments of a `vfork` and of an `execve` of their own program. -/
abbrev Env.handsOver : Env (List GuestRun) :=
  .scripted (.startingWith (argWords [0x4100, 0, 0, 0, 0, 0, 48, 0, 0, 0, 0, 0, 0x6e69622f, 0x302f]))

/-- Such guests over a store with one file, whose handle answers so. At address
zero are the arguments of an `openat` of that file. -/
def Env.oneFile (more : List ℤ) (file : (call : FileCall) → Except Errno call.Ans) :
    Env (List GuestRun) :=
  { Env.scripted (.startingWith (argWords ([atFdcwd, 24, 0, 0, 0, 0, 0x66, 0] ++ more))) with
    vfs := fun _ call w => match call with
      | .openFile _ _ => (.ok (0 : ℕ), w)
      | .stat _ _ => (.ok (.file 1), w)
      | _ => (.error .noent, w)
    file := fun _ call w => (file call, w) }

structure Session where
  kernel : Kernel
  finished : Option ℤ

structure Output where
  status : ℤ
  stdout : Bytes
  stderr : Bytes
  dropped : ℕ
  deriving DecidableEq

inductive Wait where
  | vfs
  | host
  | stdin
  | until (delay : Duration)
  deriving DecidableEq

inductive Progress where
  | done (output : Output)
  | yielded
  | waiting (wait : Wait)
  deriving DecidableEq

inductive StepError where
  | deadlock
  deriving DecidableEq

namespace Session

def writeStdin (s : Session) (bytes : Bytes) : Session :=
  { s with kernel := { s.kernel with shared := { s.kernel.shared with
      stdin := { s.kernel.shared.stdin with
        data := s.kernel.shared.stdin.data ++ bytes, wanted := false } } } }

def closeStdin (s : Session) : Session :=
  { s with kernel := { s.kernel with shared := { s.kernel.shared with
      stdin := { s.kernel.shared.stdin with closed := true, wanted := false } } } }

def takeStdout (s : Session) : Bytes × Session :=
  let (bytes, buffer) := s.kernel.shared.stdout.drainNew
  (bytes, { s with kernel := { s.kernel with shared := { s.kernel.shared with stdout := buffer } } })

def takeStderr (s : Session) : Bytes × Session :=
  let (bytes, buffer) := s.kernel.shared.stderr.drainNew
  (bytes, { s with kernel := { s.kernel with shared := { s.kernel.shared with stderr := buffer } } })

def collect (s : Session) (status : ℤ) : Output × Session :=
  let sh := s.kernel.shared
  (⟨status, sh.stdout.data, sh.stderr.data, satAddU64 sh.stdout.dropped sh.stderr.dropped⟩,
   { s with kernel := { s.kernel with shared := { sh with
      stdout := { sh.stdout with data := [] }
      stderr := { sh.stderr with data := [] } } } })

/-- What a slice is to the caller, and the session and world after it. -/
def report {W : Type} (env : Env W) (s : Session) (w : W) : Slice → Except StepError Progress × Session × W
  | .finished status =>
    let (output, s) := { s with finished := some status }.collect status
    (.ok (.done output), s, w)
  | .budget => (.ok .yielded, s, w)
  | .idle .vfs => (.ok (.waiting .vfs), s, w)
  | .idle .host => (.ok (.waiting .host), s, w)
  | .idle .stdin => (.ok (.waiting .stdin), s, w)
  | .idle (.until limit) =>
    let (t, w) := env.now w
    (.ok (.waiting (.until (limit - t))), s, w)
  | .idle .deadlock => (.error .deadlock, s, w)

def step {W : Type} (env : Env W) (turns : ℕ) (budget : Budget) (s : Session) (w : W) :
    Except Stop (Except StepError Progress × Session × W) :=
  match s.finished with
  | some status =>
    let (output, s) := s.collect status
    .ok (.ok (.done output), s, w)
  | none => match (Scheduler.run turns budget).run (kexec env) (s.kernel, w) with
    | (.error e, _) => .error e
    | (.ok slice, k, w) => .ok ({ s with kernel := k }.report env w slice)

end Session

def Slice.status : Slice → Option ℤ
  | .finished status => some status
  | _ => none

section
variable {W : Type} (env : Env W) (C : KOp → Kernel × W → Prop)

/-- Where a session can be between two calls of its caller, when every
operation of the kernel so far met the condition `C`. The world moves on by
itself in between. -/
inductive Between : Session → W → Prop
  | start (c : Config) (started : Instant) (k k' : Kernel) (w w' : W) :
      c.kernel started = some k → Program.Along (kexec env) C c.spawnFirst (k, w) →
      c.spawnFirst.run (kexec env) (k, w) = (.ok true, (k', w')) → Between ⟨k', none⟩ w'
  | elapse (s : Session) (w w' : W) : Between s w → Between s w'
  | step (k k' : Kernel) (w w' : W) (turns : ℕ) (budget : Budget) (slice : Slice) :
      Between ⟨k, none⟩ w → Program.Along (kexec env) C (Scheduler.run turns budget) (k, w) →
      (Scheduler.run turns budget).run (kexec env) (k, w) = (.ok slice, (k', w')) →
      Between ⟨k', slice.status⟩ w'
  | writeStdin (s : Session) (w : W) (bytes : Bytes) : Between s w → Between (s.writeStdin bytes) w
  | closeStdin (s : Session) (w : W) : Between s w → Between s.closeStdin w
  | takeStdout (s : Session) (w : W) : Between s w → Between s.takeStdout.2 w
  | takeStderr (s : Session) (w : W) : Between s w → Between s.takeStderr.2 w

/-- Every state the kernel passes through, slices that have not come to their
end among them. -/
inductive Reached : Kernel → W → Prop
  | between (s : Session) (w : W) : Between env C s w → Reached s.kernel w
  | starting (c : Config) (started : Instant) (k k' : Kernel) (w w' : W) :
      c.kernel started = some k → Program.Along (kexec env) C c.spawnFirst (k, w) →
      Program.Reaches (kexec env) c.spawnFirst (k, w) (k', w') → Reached k' w'
  | running (k k' : Kernel) (w w' : W) (turns : ℕ) (budget : Budget) :
      Between env C ⟨k, none⟩ w → Program.Along (kexec env) C (Scheduler.run turns budget) (k, w) →
      Program.Reaches (kexec env) (Scheduler.run turns budget) (k, w) (k', w') → Reached k' w'

variable {env} {C}

theorem between_spawn {c : Config} {k₀ k : Kernel} {w w' : W} (hk : c.kernel (env.now w).1 = some k₀)
    (hc : Program.Along (kexec env) C c.spawnFirst (k₀, (env.now w).2))
    (h : c.spawn env w = some (k, w')) : Between env C ⟨k, none⟩ w' := by
  simp only [Config.spawn, hk] at h
  split at h
  · rename_i s hs
    obtain rfl := by simpa using h
    exact .start c _ k₀ k _ w' hk hc hs
  · simp at h

theorem between_drive {c : Config} {turns : ℕ} {budgets : List Budget} {k : Kernel} {w w' : W}
    (h : c.drive env w turns budgets = some (k, w')) :
    Between env (fun _ _ => True) ⟨k, none⟩ w' := by
  have free : ∀ {α : Type} (p : Sched α) s, Program.Along (kexec env) (fun _ _ => True) p s :=
    fun p s => Program.along_of_forall _ (fun _ _ => trivial) p s
  induction budgets generalizing k w' with
  | nil =>
    rw [Config.drive] at h
    cases hk : c.kernel (env.now w).1 with
    | none => simp [Config.spawn, hk] at h
    | some k₀ => exact between_spawn hk (free _ _) h
  | cons budget earlier ih =>
    rw [Config.drive] at h
    cases hs : c.drive env w turns earlier with
    | none => simp [hs] at h
    | some s =>
      rw [hs] at h
      dsimp only at h
      rcases hr : (Scheduler.run turns budget).run (kexec env) s with ⟨r, t⟩
      rw [hr] at h
      rcases r with e | slice
      · simp at h
      · have step := Between.step s.1 t.1 s.2 t.2 turns budget slice (ih hs) (free _ _) hr
        cases slice with
        | finished status => simp at h
        | idle why =>
          obtain rfl := by simpa using h
          exact step
        | budget =>
          obtain rfl := by simpa using h
          exact step

/-- The invariant rule of sessions: an invariant that holds when the first
process is about to be started, is kept by every operation of the kernel that
meets `C`, and by what a caller does in between. -/
theorem between_keeps {P : Kernel → Prop}
    (init : ∀ (c : Config) started k, c.kernel started = some k → P k)
    (op : ∀ o s, P s.1 → C o s → P (kexec env o s).2.1)
    (input : ∀ (k : Kernel) data closed, P k →
      P { k with shared := { k.shared with stdin := ⟨data, closed, false⟩ } })
    (output : ∀ (k : Kernel) out err, P k →
      P { k with shared := { k.shared with stdout := out, stderr := err } })
    {s : Session} {w : W} (h : Between env C s w) : P s.kernel := by
  have keep : ∀ {α : Type} (p : Sched α) (s : Kernel × W) r t, P s.1 →
      Program.Along (kexec env) C p s → p.run (kexec env) s = (r, t) → P t.1 := by
    intro α p s r t hs hc hr
    have := Program.final_keeps_along (kexec env) (P := fun s => P s.1) op hs hc
    rwa [Program.final, hr] at this
  induction h with
  | start c started k k' w w' hk hc hr => exact keep _ _ _ _ (init c started k hk) hc hr
  | elapse s w w' _ ih => exact ih
  | step k k' w w' turns budget slice _ hc hr ih => exact keep _ _ _ _ ih hc hr
  | writeStdin s w bytes _ ih => exact input _ _ _ ih
  | closeStdin s w _ ih => exact input _ _ _ ih
  | takeStdout s w _ ih => exact output _ _ _ ih
  | takeStderr s w _ ih => exact output _ _ _ ih

theorem reached_keeps {P : Kernel → Prop}
    (init : ∀ (c : Config) started k, c.kernel started = some k → P k)
    (op : ∀ o s, P s.1 → C o s → P (kexec env o s).2.1)
    (input : ∀ (k : Kernel) data closed, P k →
      P { k with shared := { k.shared with stdin := ⟨data, closed, false⟩ } })
    (output : ∀ (k : Kernel) out err, P k →
      P { k with shared := { k.shared with stdout := out, stderr := err } })
    {k : Kernel} {w : W} (h : Reached env C k w) : P k := by
  cases h with
  | between s w hs => exact between_keeps init op input output hs
  | starting c started k k' w w' hk hc hr =>
    exact Program.reaches_keeps (kexec env) (P := fun s => P s.1) op (init c started k hk) hc hr
  | running k k' w w' turns budget hs hc hr =>
    exact Program.reaches_keeps (kexec env) (P := fun s => P s.1) op
      (between_keeps init op input output hs) hc hr

end

end Wasmux
