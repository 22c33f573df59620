import Wasmux.Launching
import Wasmux.Lending
import Wasmux.Slices

/-!
# Calls that come too late

The wall clock is read where a pass begins, and a call is served without a look
at it. So a call that comes when the time is up is answered as any other is. What
ends the service of a guest is a call that takes its process out of it anyway:
one that ends it, replaces it, or has it wait.
-/

set_option autoImplicit false

namespace Wasmux
open Effects Abi

/-- The calls that may have to wait. -/
def Nr.waits : Nr → Bool
  | .execve | .wait4 | .rtSigsuspend | .nanosleep | .clockNanosleepTime64 | .mmap | .openat | .read | .write
  | .readv | .writev | .lseek | .ftruncate | .truncate | .chdir | .statx | .faccessat | .faccessat2
  | .readlinkat
  | .mkdirat | .unlinkat | .renameat | .renameat2 | .symlinkat | .fchmodat | .utimensatTime64 | .ppollTime64
  | .pselect6Time64 => true
  | _ => false

section
variable {W : Type} (x : Env W)

variable {x} {number : ℤ} {a : Args} {m : Machine} {w : W} {t : Machine × W}

end

theorem onProc_bind {α β : Type} (index : ℕ) (p : Program sig Stop α) (f : α → Program sig Stop β) :
    onProc index (p >>= f) = onProc index p >>= fun a => onProc index (f a) := by
  induction p with
  | ret a => rfl
  | fail e => rfl
  | call o k ih => exact congrArg (Program.call (S := ksig) (KOp.machine index o)) (funext fun a => ih a)

section
variable {α W : Type} (x : Env W)

/-- In the run a process comes to make this call. -/
def MakesCall (p : Sched α) (s : Kernel × W) (index : ℕ) (number : ℤ) (a : Args) (t : Kernel × W) : Prop :=
  ∃ rest : Outcome → Sched α, Program.Comes (kexec x) p s (onProc index (dispatch number a) >>= rest) t

variable {x} {k : Kernel} {w w' : W} {proc : Proc}

namespace MakesCall
variable {p q : Sched α} {s t u : Kernel × W} {index i : ℕ} {number : ℤ} {a : Args} {β : Type}

theorem later (hcomes : Program.Comes (kexec x) p s q t) (h : MakesCall x q t index number a u) :
    MakesCall x p s index number a u := by
  obtain ⟨rest, hrest⟩ := h
  exact ⟨rest, hcomes.trans _ hrest⟩

theorem here (f : Outcome → Program sig Stop β) (g : β → Sched α) :
    MakesCall x (onProc index (dispatch number a >>= f) >>= g) u index number a u := by
  rw [onProc_bind, Program.bind_assoc]
  exact ⟨_, .here _ _⟩

end MakesCall

end

end Wasmux
