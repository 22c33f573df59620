import Mathlib.Data.BitVec
import Mathlib.Data.List.Basic

/-!
# Numbers and names of the guest ABI

Signed 32-bit values are integers in range, unsigned ones are naturals, and a
cast is an explicit function. Text is the bytes of its UTF-8 encoding, which
is what a length or a prefix means in the source.
-/

set_option autoImplicit false

namespace Wasmux

abbrev Byte := UInt8
abbrev Bytes := List UInt8
abbrev Text := List UInt8

def ascii (s : String) : Text := s.toList.map fun c => c.toNat.toUInt8

def asI32 (z : ℤ) : ℤ := (z + 2^31) % 2^32 - 2^31

def asU32 (z : ℤ) : ℕ := (z % 2^32).toNat

def i32Max : ℤ := 2^31 - 1
def i32Min : ℤ := -2^31
def u32Max : ℕ := 2^32 - 1
def u64Max : ℕ := 2^64 - 1

def asI64 (z : ℤ) : ℤ := (z + 2^63) % 2^64 - 2^63

def i64Max : ℤ := 2^63 - 1
def i64Min : ℤ := -2^63

def satAddI64 (a b : ℤ) : ℤ := max i64Min (min i64Max (a + b))
def satAddI32 (a b : ℤ) : ℤ := max i32Min (min i32Max (a + b))
def satAddU32 (a b : ℕ) : ℕ := min u32Max (a + b)
def satAddU64 (a b : ℕ) : ℕ := min u64Max (a + b)
def satMulU64 (a b : ℕ) : ℕ := min u64Max (a * b)

def wrapAdd (a b : ℕ) : ℕ := (a + b) % 2^32

def andNot (a b : ℕ) : ℕ := a - (a &&& b)

def asU64 (z : ℤ) : ℕ := (z % 2^64).toNat

def divCeil (a b : ℕ) : ℕ := (a + (b - 1)) / b

/-- The `count` low bytes of `n`, least significant first. -/
def toLe : ℕ → ℕ → Bytes
  | 0, _ => []
  | count + 1, n => (n % 256).toUInt8 :: toLe count (n / 256)

def ofLe : Bytes → ℕ
  | [] => 0
  | b :: bs => b.toNat + 256 * ofLe bs

theorem toLe_length (count n : ℕ) : (toLe count n).length = count := by
  induction count generalizing n with
  | zero => rfl
  | succ count ih => simp [toLe, ih]

theorem ofLe_toLe (count n : ℕ) : ofLe (toLe count n) = n % 256 ^ count := by
  induction count generalizing n with
  | zero => simp [toLe, ofLe, Nat.mod_one]
  | succ count ih =>
    have hb : (n % 256).toUInt8.toNat = n % 256 := by
      rw [Nat.toUInt8, UInt8.toNat_ofNat']
      omega
    rw [toLe, ofLe, ih, hb, pow_succ', Nat.mod_mul]

structure Errno where
  code : ℤ
  deriving DecidableEq, Repr

namespace Errno
def perm : Errno := ⟨1⟩
def noent : Errno := ⟨2⟩
def srch : Errno := ⟨3⟩
def intr : Errno := ⟨4⟩
def io : Errno := ⟨5⟩
def toobig : Errno := ⟨7⟩
def noexec : Errno := ⟨8⟩
def badf : Errno := ⟨9⟩
def child : Errno := ⟨10⟩
def again : Errno := ⟨11⟩
def nomem : Errno := ⟨12⟩
def acces : Errno := ⟨13⟩
def fault : Errno := ⟨14⟩
def exist : Errno := ⟨17⟩
def xdev : Errno := ⟨18⟩
def nodev : Errno := ⟨19⟩
def notdir : Errno := ⟨20⟩
def isdir : Errno := ⟨21⟩
def inval : Errno := ⟨22⟩
def mfile : Errno := ⟨24⟩
def notty : Errno := ⟨25⟩
def spipe : Errno := ⟨29⟩
def rofs : Errno := ⟨30⟩
def pipe : Errno := ⟨32⟩
def range : Errno := ⟨34⟩
def nametoolong : Errno := ⟨36⟩
def nosys : Errno := ⟨38⟩
def notempty : Errno := ⟨39⟩
def loop : Errno := ⟨40⟩
def overflow : Errno := ⟨75⟩

def asNeg (e : Errno) : ℤ := asI32 (-e.code)

/-- The table behind `name`; every other number prints as `E?`. -/
def names : List (ℤ × String) :=
  [(1, "EPERM"), (2, "ENOENT"), (3, "ESRCH"), (4, "EINTR"), (5, "EIO"), (6, "ENXIO"),
   (7, "ETOOBIG"), (8, "ENOEXEC"), (9, "EBADF"), (10, "ECHILD"), (11, "EAGAIN"), (12, "ENOMEM"),
   (13, "EACCES"), (14, "EFAULT"), (16, "EBUSY"), (17, "EEXIST"), (18, "EXDEV"), (19, "ENODEV"),
   (20, "ENOTDIR"), (21, "EISDIR"), (22, "EINVAL"), (23, "ENFILE"), (24, "EMFILE"),
   (25, "ENOTTY"), (27, "EFBIG"), (28, "ENOSPC"), (29, "ESPIPE"), (30, "EROFS"), (31, "EMLINK"),
   (32, "EPIPE"), (34, "ERANGE"), (36, "ENAMETOOLONG"), (38, "ENOSYS"), (39, "ENOTEMPTY"),
   (40, "ELOOP"), (75, "EOVERFLOW"), (88, "ENOTSOCK"), (95, "ENOTSUP"), (110, "ETIMEDOUT")]

def name (e : Errno) : Text := ascii ((names.lookup e.code).getD "E?")
end Errno

namespace Abi

def kernelRelease : Text := ascii "6.1.0-wasmux"

def oAccmode : ℕ := 3
def oRdonly : ℕ := 0
def oWronly : ℕ := 1
def oRdwr : ℕ := 2
def oCreat : ℕ := 0o100
def oExcl : ℕ := 0o200
def oTrunc : ℕ := 0o1000
def oAppend : ℕ := 0o2000
def oNonblock : ℕ := 0o4000
def oDirectory : ℕ := 0o200000
def oNofollow : ℕ := 0o400000
def oCloexec : ℕ := 0o2000000

def atFdcwd : ℤ := -100
def atSymlinkNofollow : ℕ := 0x100
def atRemovedir : ℕ := 0x200
def atEmptyPath : ℕ := 0x1000

def fDupfd : ℤ := 0
def fGetfd : ℤ := 1
def fSetfd : ℤ := 2
def fGetfl : ℤ := 3
def fSetfl : ℤ := 4
def fGetlk : ℤ := 5
def fSetlk : ℤ := 6
def fSetlkw : ℤ := 7
def fDupfdCloexec : ℤ := 1030
def fdCloexec : ℕ := 1

def seekSet : ℤ := 0
def seekCur : ℤ := 1
def seekEnd : ℤ := 2

def mapFixed : ℕ := 0x10
def mapAnonymous : ℕ := 0x20

def cloneVm : ℕ := 0x100
def cloneVfork : ℕ := 0x4000
def cloneThread : ℕ := 0x10000

def wnohang : ℕ := 1

def sigkill : ℤ := 9
def sigsegv : ℤ := 11
def sigpipe : ℤ := 13
def sigchld : ℤ := 17
def sigcont : ℤ := 18
def sigstop : ℤ := 19
def sigtstp : ℤ := 20
def sigttin : ℤ := 21
def sigttou : ℤ := 22
def sigurg : ℤ := 23
def sigwinch : ℤ := 28
def sigDfl : ℕ := 0
def sigIgn : ℕ := 1
def saResethand : ℕ := 0x80000000
def sigBlock : ℤ := 0
def sigUnblock : ℤ := 1
def sigSetmask : ℤ := 2

def tcgets : ℕ := 0x5401
def tcsets : ℕ := 0x5402
def tcsetsw : ℕ := 0x5403
def tcsetsf : ℕ := 0x5404
def tiocsctty : ℕ := 0x540E
def tiocgpgrp : ℕ := 0x540F
def tiocspgrp : ℕ := 0x5410
def tiocgwinsz : ℕ := 0x5413
def tiocswinsz : ℕ := 0x5414
def fionread : ℕ := 0x541B
def fionbio : ℕ := 0x5421
def tiocnotty : ℕ := 0x5422
def fionclex : ℕ := 0x5450
def fioclex : ℕ := 0x5451

def pollin : ℕ := 1
def pollout : ℕ := 4
def pollerr : ℕ := 8
def pollhup : ℕ := 0x10
def pollnval : ℕ := 0x20

def atNull : ℕ := 0
def atPagesz : ℕ := 6
def atUid : ℕ := 11
def atEuid : ℕ := 12
def atGid : ℕ := 13
def atEgid : ℕ := 14
def atClktck : ℕ := 17
def atSecure : ℕ := 23
def atRandom : ℕ := 25
def atExecfn : ℕ := 31

def sIfdir : ℕ := 0o040000
def sIfchr : ℕ := 0o020000
def sIfreg : ℕ := 0o100000
def sIflnk : ℕ := 0o120000

def dtUnknown : ℕ := 0
def dtDir : ℕ := 4
def dtReg : ℕ := 8
def dtLnk : ℕ := 10

def clockRealtime : ℤ := 0
def clockMonotonic : ℤ := 1
def clockProcessCputimeId : ℤ := 2
def clockThreadCputimeId : ℤ := 3
def clockBoottime : ℤ := 7
def timerAbstime : ℕ := 1

def rlimitData : ℤ := 2
def rlimitStack : ℤ := 3
def rlimitCore : ℤ := 4
def rlimitNofile : ℤ := 7
def rlimInfinity : ℕ := 2^64 - 1

def statxBasicStats : ℕ := 0x7ff

end Abi

def page : ℕ := 65536

def asyncifyPages : ℕ := 16

/-- The syscalls `handle` knows. Every other number, the socket calls among
them, is `other`. -/
inductive Nr where
  | exit | exitGroup | clone | execve | wait4
  | getpid | gettid | getppid | getuid | geteuid | getgid | getegid
  | setuid | setgid | setreuid | setregid | setresuid | setresgid | setgroups | getgroups
  | setpgid | getpgid | setsid | getsid | setTidAddress
  | setRobustList | prctl | schedYield | membarrier | rseq | schedGetaffinity
  | umask | uname | sysinfo | prlimit64 | getrusage | times | getrandom
  | rtSigaction | rtSigprocmask | rtSigpending | rtSigsuspend | sigaltstack | rtSigreturn
  | kill | tkill | tgkill
  | clockGettime64 | clockGetresTime64 | gettimeofday | nanosleep | clockNanosleepTime64
  | brk | mmap | munmap | mprotect | madvise | msync | mlock | munlock | mremap
  | openat | close | read | write | readv | writev | lseek | ftruncate | truncate
  | fsync | fdatasync | sync | syncfs | fadvise64 | flock
  | dup | dup3 | pipe2 | fcntl | ioctl | getdents64 | getcwd | chdir | fchdir
  | statx | newfstatat | fstat | faccessat | faccessat2 | readlinkat
  | mkdirat | unlinkat | renameat | renameat2 | symlinkat | linkat | fchmodat
  | fchmod | fchown | fchownat | utimensatTime64 | statfs | fstatfs
  | ppollTime64 | pselect6Time64
  | other
  deriving DecidableEq, Repr

namespace Nr

def table : List (ℤ × Nr) :=
  [(93, exit), (94, exitGroup), (220, clone), (221, execve), (260, wait4),
   (172, getpid), (178, gettid), (173, getppid), (174, getuid), (175, geteuid), (176, getgid),
   (177, getegid), (146, setuid), (144, setgid), (145, setreuid), (143, setregid),
   (147, setresuid), (149, setresgid), (159, setgroups), (158, getgroups),
   (154, setpgid), (155, getpgid), (157, setsid), (156, getsid), (96, setTidAddress),
   (99, setRobustList), (167, prctl), (124, schedYield), (283, membarrier), (293, rseq),
   (123, schedGetaffinity), (166, umask), (160, uname), (179, sysinfo), (261, prlimit64),
   (165, getrusage), (153, times), (278, getrandom),
   (134, rtSigaction), (135, rtSigprocmask), (136, rtSigpending), (133, rtSigsuspend),
   (132, sigaltstack), (139, rtSigreturn), (129, kill), (130, tkill), (131, tgkill),
   (403, clockGettime64), (406, clockGetresTime64), (169, gettimeofday), (101, nanosleep),
   (407, clockNanosleepTime64),
   (214, brk), (222, mmap), (215, munmap), (226, mprotect), (233, madvise), (227, msync),
   (228, mlock), (229, munlock), (216, mremap),
   (56, openat), (57, close), (63, read), (64, write), (65, readv), (66, writev), (62, lseek),
   (46, ftruncate), (45, truncate), (82, fsync), (83, fdatasync), (81, sync), (267, syncfs),
   (223, fadvise64), (32, flock), (23, dup), (24, dup3), (59, pipe2), (25, fcntl), (29, ioctl),
   (61, getdents64), (17, getcwd), (49, chdir), (50, fchdir),
   (291, statx), (79, newfstatat), (80, fstat), (48, faccessat), (439, faccessat2),
   (78, readlinkat), (34, mkdirat), (35, unlinkat), (38, renameat), (276, renameat2),
   (36, symlinkat), (37, linkat), (53, fchmodat), (52, fchmod), (55, fchown), (54, fchownat),
   (412, utimensatTime64), (43, statfs), (44, fstatfs),
   (414, ppollTime64), (413, pselect6Time64)]

def ofInt (n : ℤ) : Nr := (table.lookup n).getD other

end Nr

/-- The six argument words of a syscall, signed as the handlers receive them. -/
structure Args where
  a0 : ℤ
  a1 : ℤ
  a2 : ℤ
  a3 : ℤ
  a4 : ℤ
  a5 : ℤ
  deriving DecidableEq, Repr

end Wasmux
