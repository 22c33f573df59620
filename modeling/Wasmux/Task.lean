import Wasmux.Descriptors

/-!
# Per-process state and the process table's records

A `Task` is private to one process; a `ProcRecord` is what the others can
see of it. Signal sets are 64-bit words in the kernel's own encoding, where
`bit` puts signal `n` at bit `n`.
-/

set_option autoImplicit false

namespace Wasmux
open Abi

/-- A point of the host's monotonic clock, and a span of it, in nanoseconds. -/
abbrev Instant := ℕ
abbrev Duration := ℕ

abbrev Sigset := BitVec 64

def nsig : ℕ := 64

structure SigAction where
  handler : ℕ
  flags : ℕ
  mask : Sigset
  deriving DecidableEq

instance : Inhabited SigAction := ⟨⟨0, 0, 0⟩⟩

def bit (sig : ℤ) : Sigset :=
  if 0 < sig ∧ sig < nsig then 1#64 <<< sig.toNat else 0

def defaultIgnored (sig : ℤ) : Bool :=
  [sigchld, sigurg, sigwinch, sigcont, sigstop, sigtstp, sigttin, sigttou].contains sig

def defaultKills (sig : ℤ) : Bool := !defaultIgnored sig

def SigAction.isIgnored (a : SigAction) (sig : ℤ) : Bool :=
  a.handler == sigIgn || (a.handler == sigDfl && defaultIgnored sig)

structure Task where
  pid : ℤ
  fds : FdTable
  cwd : Text
  umask : ℕ
  sigact : Fin nsig → SigAction
  sigmask : Sigset
  exe : Text
  comm : Text

namespace Task

def new (pid : ℤ) (fds : FdTable) : Task where
  pid := pid
  fds := fds
  cwd := ascii "/"
  umask := 0o022
  sigact := fun _ => default
  sigmask := 0
  exe := []
  comm := []

instance : Inhabited Task := ⟨new 0 .new⟩

def action (t : Task) (sig : ℤ) : SigAction :=
  if sig ≤ 0 then default
  else if h : sig.toNat < nsig then t.sigact ⟨sig.toNat, h⟩ else default

def setAction (t : Task) (sig : ℤ) (a : SigAction) : Task :=
  if 0 < sig then
    { t with sigact := fun i => if (i : ℕ) = sig.toNat then a else t.sigact i }
  else t

theorem action_setAction (t : Task) (a : SigAction) (n : ℕ) (h : 0 < n ∧ n < nsig) :
    (t.setAction n a).action n = a := by
  have h0 : (0 : ℤ) < n := by exact_mod_cast h.1
  have h1 : ¬ (n : ℤ) ≤ 0 := by omega
  simp only [action, setAction, h0, h1, if_true, if_false, Int.toNat_natCast, h.2, dif_pos]

def resetHandlersForExec (t : Task) : Task :=
  { t with sigact := fun i => if (t.sigact i).handler = sigIgn then t.sigact i else default }

end Task

structure ProcRecord where
  pid : ℤ
  ppid : ℤ
  pgid : ℤ
  sid : ℤ
  pending : Sigset
  exit : Option ℤ
  wakeAt : Option Instant
  deriving DecidableEq

namespace ProcRecord

def new (pid ppid pgid sid : ℤ) : ProcRecord := ⟨pid, ppid, pgid, sid, 0, none, none⟩

def isAlive (r : ProcRecord) : Bool := r.exit.isNone

def raise (r : ProcRecord) (sig : ℤ) : ProcRecord :=
  if 0 < sig ∧ sig < nsig then { r with pending := r.pending ||| bit sig } else r

end ProcRecord

/-- One signal's part in `triage`. -/
def triageOne (pending mask : Sigset) (t : Task) (acc : Sigset × Sigset) (sig : ℤ) :
    Sigset × Sigset :=
  if pending &&& bit sig = 0 then acc
  else if (t.action sig).isIgnored sig then (acc.1, acc.2 ||| bit sig)
  else if mask &&& bit sig = 0 ∨ sig = sigkill ∨ sig = sigstop then (acc.1 ||| bit sig, acc.2)
  else acc

def signals : List ℤ := (List.range' 1 63).map Nat.cast

def triage (pending mask : Sigset) (t : Task) : Sigset × Sigset :=
  if pending = 0 then (0, 0)
  else signals.foldl (triageOne pending mask t) (0, 0)

def statusExited (code : ℤ) : ℤ := ((asU32 code &&& 0xff) <<< 8 : ℕ)

def statusSignaled (sig : ℤ) : ℤ := (asU32 sig &&& 0x7f : ℕ)

end Wasmux
