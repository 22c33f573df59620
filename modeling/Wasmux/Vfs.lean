import Wasmux.Abi

/-!
# What a mounted filesystem is asked

A mount's `Vfs` and the handles it gives out live outside the kernel. The
kernel's side of the trait is the calls it makes; the answers come from the
environment, and `EAGAIN` is an answer like any other.
-/

set_option autoImplicit false

namespace Wasmux

inductive FileType where
  | file
  | dir
  | symlink
  deriving DecidableEq

structure Stat where
  fileType : FileType
  size : ℕ
  mode : ℕ
  ino : ℕ
  mtime : ℤ × ℕ
  nlink : ℕ
  deriving DecidableEq

namespace Stat
def file (size : ℕ) : Stat := ⟨.file, size, 0, 0, (0, 0), 1⟩
def dir : Stat := ⟨.dir, 0, 0, 0, (0, 0), 1⟩
def symlink (len : ℕ) : Stat := ⟨.symlink, len, 0, 0, (0, 0), 1⟩
end Stat

structure DirEntry where
  name : Text
  fileType : Option FileType
  ino : ℕ
  deriving DecidableEq

inductive SeekFrom where
  | start (n : ℕ)
  | fromEnd (d : ℤ)
  | current (d : ℤ)
  deriving DecidableEq

structure OpenOptions where
  read : Bool
  write : Bool
  append : Bool
  create : Bool
  createNew : Bool
  truncate : Bool
  mode : ℕ
  deriving DecidableEq

def OpenOptions.readOnly : OpenOptions := ⟨true, false, false, false, false, false, 0o644⟩

inductive VfsCall where
  | openFile (path : Text) (opts : OpenOptions)
  | stat (path : Text) (follow : Bool)
  | readdir (path : Text)
  | mkdir (path : Text) (mode : ℕ)
  | unlink (path : Text)
  | rmdir (path : Text)
  | rename (source target : Text)
  | symlink (target link : Text)
  | readlink (path : Text)
  | truncate (path : Text) (len : ℕ)
  | setMode (path : Text) (mode : ℕ)
  deriving DecidableEq

/-- What a method of `Vfs` returns when it succeeds; a file is its handle. -/
abbrev VfsCall.Ans : VfsCall → Type
  | .openFile _ _ => ℕ
  | .stat _ _ => Stat
  | .readdir _ => List DirEntry
  | .readlink _ => Text
  | _ => Unit

inductive FileCall where
  | read (len : ℕ)
  | write (data : Bytes)
  | seek (target : SeekFrom)
  | stat
  | setLen (len : ℕ)
  | close
  deriving DecidableEq

/-- What a method of `VfsFile` returns when it succeeds. A read answers the
count it claims and the buffer it left behind. -/
abbrev FileCall.Ans : FileCall → Type
  | .read _ => ℕ × Bytes
  | .write _ => ℕ
  | .seek _ => ℕ
  | .stat => Stat
  | .setLen _ => Unit
  | .close => Unit

/-- The buffer of length `len` after a read that left `buf` in it. -/
def fitBuffer (len : ℕ) (buf : Bytes) : Bytes :=
  buf.take len ++ List.replicate (len - buf.length) 0

def prefixOrEmpty (buffer : Bytes) (n : ℕ) : Bytes :=
  if n ≤ buffer.length then buffer.take n else []

end Wasmux
