import Wasmux.Abi

/-!
# The terminal a session may be given

A session has none unless it was asked for. The settings cross the boundary as
the 36 bytes of the kernel's `struct termios`.
-/

set_option autoImplicit false

namespace Wasmux

def nccsKernel : ℕ := 19
def termiosBytes : ℕ := 17 + nccsKernel

structure Termios where
  iflag : ℕ
  oflag : ℕ
  cflag : ℕ
  lflag : ℕ
  line : Byte
  cc : Bytes
  deriving DecidableEq

namespace Termios

def isig : ℕ := 1
def icanon : ℕ := 2

def cooked : Termios where
  iflag := 0o400 ||| 0o2000
  oflag := 1 ||| 4
  cflag := 0o17 ||| 0o60 ||| 0o200
  lflag := isig ||| icanon ||| 8 ||| 0o20 ||| 0o40 ||| 0o100000
  line := 0
  cc := [0x03, 0x1c, 0x7f, 0x15, 0x04, 0, 1, 0, 0, 0, 0x1a, 0, 0, 0, 0x17, 0, 0, 0, 0]

def raw (t : Termios) : Bool := t.lflag &&& icanon == 0

def signals (t : Termios) : Bool := t.lflag &&& isig != 0

def encode (t : Termios) : Bytes :=
  toLe 4 t.iflag ++ toLe 4 t.oflag ++ toLe 4 t.cflag ++ toLe 4 t.lflag ++ [t.line] ++ t.cc

def decode (bytes : Bytes) : Option Termios :=
  let word (start : ℕ) := ofLe ((bytes.drop start).take 4)
  if bytes.length < termiosBytes then none
  else bytes[16]?.map fun line =>
    ⟨word 0, word 4, word 8, word 12, line, (bytes.drop 17).take nccsKernel⟩

end Termios

structure Terminal where
  cols : ℕ
  rows : ℕ
  termios : Termios
  deriving DecidableEq

def Terminal.new (cols rows : ℕ) : Terminal := ⟨cols, rows, .cooked⟩

end Wasmux
