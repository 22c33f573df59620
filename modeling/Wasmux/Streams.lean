import Wasmux.Resolve

/-!
# Reading, writing and waiting on descriptors

`readBytes` and `writeBytes` are the whole of `read` and `write` except the
copy to or from guest memory; host commands go through the same two.
-/

set_option autoImplicit false

namespace Wasmux
open Effects Abi

def put (start : ℕ) (data : Bytes) : Handler Unit := do
  lift (← act (.put start data))

def putU32 (start value : ℕ) : Handler Unit := put start (toLe 4 value)
def putU64 (start value : ℕ) : Handler Unit := put start (toLe 8 value)

def putTimespec (start : ℕ) (d : Duration) : Handler Unit := do
  putU64 start (d / 10^9)
  if 2^32 ≤ start + 8 then fail .fault
  else
    putU32 (start + 8) (d % 10^9)
    if 2^32 ≤ start + 12 then fail .fault
    else putU32 (start + 12) 0

def elapsed : Handler Duration := do
  let v ← view
  let t ← env .now
  return t - v.started

def deadline (after : Duration) : Handler Instant := do
  match ← act .deadline with
  | some «until» => return «until»
  | none =>
    let t ← env .now
    let max ← env .instantMax
    let «until» ← if t + after ≤ max then .ret (t + after) else env .now
    act (.setDeadline «until»)
    return «until»

/-- The open descriptor `fd` and its description. -/
def openFd (v : View) (fd : ℤ) : Except Errno (Fd × Desc) := do
  let entry ← v.task.fds.get fd
  match v.descs.get entry.desc with
  | some desc => .ok (entry, desc)
  | none => .error .badf

/-- Read from a descriptor into a buffer of `len` zeros, with no guest
involved. Answers the count and the buffer. -/
def readBytes (fd : ℤ) (len : ℕ) : Handler (ℕ × Bytes) := do
  if len = 0 then .ret (0, [])
  else
    let v ← view
    let (entry, desc) ← lift (openFd v fd)
    if !desc.readable then fail .badf
    else
      let zeros : Bytes := List.replicate len 0
      match desc.kind with
      | .file file _ _ =>
        let (n, buf) ← fileAsk file (.read len)
        .ret (n, fitBuffer len buf)
      | .memory data pos =>
        let start := min pos data.length
        let n := min (data.drop start).length len
        act (.setDescPos entry.desc (start + n))
        .ret (n, fitBuffer len ((data.drop start).take n))
      | .null => .ret (0, zeros)
      | .zero => .ret (len, zeros)
      | .random =>
        let bytes ← env (.random len)
        .ret (len, fitBuffer len bytes)
      | .dir _ _ => fail .isdir
      | .pipeWrite _ | .stdout _ => fail .badf
      | .stdin =>
        if v.stdin = [] then
          if v.stdinClosed then .ret (0, zeros)
          else if desc.isNonblocking then fail .again
          else
            act .wantStdin
            .fail .block
        else
          let bytes ← act (.stdinTake len)
          .ret (bytes.length, fitBuffer len bytes)
      | .pipeRead key =>
        match v.pipes.get key with
        | none => fail .badf
        | some pipe =>
          if pipe.data = [] then
            if pipe.writers = 0 then .ret (0, zeros)
            else if desc.isNonblocking then fail .again
            else .fail .block
          else
            let bytes ← act (.pipeTake key (min pipe.data.length len))
            .ret (bytes.length, fitBuffer len bytes)

def writeBytes (fd : ℤ) (data : Bytes) : Handler ℕ := do
  let v ← view
  let (_, desc) ← lift (openFd v fd)
  if !desc.writable then fail .badf
  else
    match desc.kind with
    | .file file mount _ =>
      if v.isReadOnly mount then fail .rofs
      else fileAsk file (.write data)
    | .null | .zero | .random | .memory _ _ => .ret data.length
    | .dir _ _ | .pipeRead _ | .stdin => fail .badf
    | .stdout which =>
      act (.writeOutput which data)
      .ret data.length
    | .pipeWrite key =>
      match v.pipes.get key with
      | none => fail .badf
      | some pipe =>
        if pipe.readers = 0 then
          act (.raise sigpipe)
          fail .pipe
        else if pipe.room = 0 then
          if desc.isNonblocking then fail .again else .fail .block
        else
          let take := min pipe.room data.length
          act (.pipePut key (data.take take))
          .ret take

namespace Sys

def read (fd : ℤ) (start length : ℕ) : Handler ℤ := do
  if length = 0 then return 0
  else
    let (produced, staging) ← readBytes fd (min length (2^20))
    put start (prefixOrEmpty staging produced)
    return asI32 produced

def write (fd : ℤ) (start length : ℕ) : Handler ℤ := do
  let v ← view
  let data ← lift (v.mem.bytes start length)
  let n ← writeBytes fd data
  return asI32 n

/-- The loop of `readv` and `writev` over the segments from `index` on, with
`count` of them left. `io` is the call for one segment. -/
def vectorLoop (io : ℕ → ℕ → Handler ℤ) (vector : ℕ) : ℕ → ℕ → ℤ → Handler ℤ
  | 0, _, total => .ret total
  | count + 1, index, total => do
    let v ← view
    let entry := wrapAdd vector (index * 8 % 2^32)
    let start ← lift (v.mem.u32 entry)
    let len ← lift (v.mem.u32 (wrapAdd entry 4))
    if len = 0 then vectorLoop io vector count (index + 1) total
    else
      match ← (io start len).catching with
      | .ok done =>
        let total := satAddI32 total done
        if asU32 done < len then .ret total else vectorLoop io vector count (index + 1) total
      | .error fault => if 0 < total then .ret total else .fail fault

def readv (a : Args) : Handler ℤ :=
  vectorLoop (read a.a0) (asU32 a.a1) (max a.a2 0).toNat 0 0

def writev (a : Args) : Handler ℤ :=
  vectorLoop (write a.a0) (asU32 a.a1) (max a.a2 0).toNat 0 0

/-- The `SeekFrom` an `lseek` asks for. -/
def seekTarget (offset whence : ℤ) : Option SeekFrom :=
  if whence = seekSet then some (.start (max offset 0).toNat)
  else if whence = seekCur then some (.current offset)
  else if whence = seekEnd then some (.fromEnd offset)
  else none

def lseek (a : Args) : Handler ℤ := do
  let v ← view
  let (entry, desc) ← lift (openFd v a.a0)
  let position ← match desc.kind with
    | .file file _ _ =>
      match seekTarget a.a1 a.a2 with
      | none => fail .inval
      | some target => fileAsk file (.seek target)
    | .dir _ _ =>
      if a.a2 = seekSet ∧ a.a1 = 0 then do
        act (.setDescPos entry.desc 0)
        .ret 0
      else .ret 0
    | .null | .zero | .random => .ret 0
    | _ => fail .spipe
  if i32Max < position then fail .overflow else return asI32 position

def wideLength (low high : ℤ) : ℕ := asU32 low + asU32 high * 2^32

def ftruncate (a : Args) : Handler ℤ := do
  let v ← view
  let (_, desc) ← lift (openFd v a.a0)
  match desc.kind with
  | .file file mount _ =>
    if v.isReadOnly mount then fail .rofs
    else
      fileAsk file (.setLen (wideLength a.a1 a.a2))
      return 0
  | _ => fail .inval

def close (a : Args) : Handler ℤ := do
  match ← act (.close a.a0) with
  | .error e => fail e
  | .ok none => return 0
  | .ok (some handle) =>
    let _ ← env (.file handle .close)
    return 0

def dup (a : Args) : Handler ℤ := do
  lift (← act (.dup a.a0 false 0))

def dup3 (a : Args) : Handler ℤ := do
  if a.a0 = a.a1 then fail .inval
  else
    match ← act (.dupTo a.a0 a.a1 (asU32 a.a2 &&& oCloexec != 0)) with
    | .error e => fail e
    | .ok none => return a.a1
    | .ok (some handle) =>
      let _ ← env (.file handle .close)
      return a.a1

def pipe2 (a : Args) : Handler ℤ := do
  let (readFd, writeFd) ← lift (← act (.pipe2 (asU32 a.a1)))
  putU32 (asU32 a.a0) (asU32 readFd)
  putU32 (wrapAdd (asU32 a.a0) 4) (asU32 writeFd)
  return 0

def fcntl (a : Args) : Handler ℤ := do
  let v ← view
  if a.a1 = fDupfd ∨ a.a1 = fDupfdCloexec then
    lift (← act (.dup a.a0 (a.a1 = fDupfdCloexec) (max a.a2 0).toNat))
  else if a.a1 = fGetfd then
    let entry ← lift (v.task.fds.get a.a0)
    return if entry.cloexec then fdCloexec else 0
  else if a.a1 = fSetfd then
    lift (← act (.setCloexec a.a0 (asU32 a.a2 &&& fdCloexec != 0)))
    return 0
  else if a.a1 = fGetfl then
    let (_, desc) ← lift (openFd v a.a0)
    return asI32 desc.flags
  else if a.a1 = fSetfl then
    let (entry, desc) ← lift (openFd v a.a0)
    act (.setDescFlags entry.desc
      ((desc.flags &&& oAccmode) ||| (asU32 a.a2 &&& (oAppend ||| oNonblock))))
    return 0
  else if a.a1 = fGetlk ∨ a.a1 = fSetlk ∨ a.a1 = fSetlkw then
    let _ ← lift (v.task.fds.get a.a0)
    return 0
  else fail .inval

def withNonblock (flags : ℕ) (on : Bool) : ℕ :=
  if on then flags ||| oNonblock else andNot flags oNonblock

/-- What `FIONREAD` reports for a description. -/
def available (v : View) (desc : Desc) : ℕ :=
  match desc.kind with
  | .pipeRead key => ((v.pipes.get key).map fun p => p.data.length).getD 0
  | .stdin => v.stdin.length
  | .memory data pos => data.length - pos
  | _ => 0

def terminalIoctl (v : View) (terminal : Terminal) (request argument : ℕ) : Handler ℤ := do
  if request = tiocgwinsz then
    put argument (toLe 2 terminal.rows)
    put (wrapAdd argument 2) (toLe 2 terminal.cols)
    put (wrapAdd argument 4) (toLe 2 0)
    put (wrapAdd argument 6) (toLe 2 0)
    return 0
  else if request = tiocgpgrp then
    let group := ((v.record v.task.pid).map ProcRecord.pgid).getD v.task.pid
    putU32 argument (asU32 group)
    return 0
  else if request = tcgets then
    put argument terminal.termios.encode
    return 0
  else if request = tcsets ∨ request = tcsetsw ∨ request = tcsetsf then
    let bytes ← lift (v.mem.bytes argument termiosBytes)
    match Termios.decode bytes with
    | none => fail .inval
    | some next =>
      act (.setTermios next)
      return 0
  else if request = tiocspgrp ∨ request = tiocswinsz ∨ request = tiocsctty ∨ request = tiocnotty then
    return 0
  else fail .notty

def ioctl (a : Args) : Handler ℤ := do
  let request := asU32 a.a1
  let argument := asU32 a.a2
  let v ← view
  let entry ← lift (v.task.fds.get a.a0)
  if request = fioclex ∨ request = fionclex then
    lift (← act (.setCloexec a.a0 (request = fioclex)))
    return 0
  else if request = fionbio then
    let value ← lift (v.mem.u32 argument)
    let (_, desc) ← lift (openFd v a.a0)
    act (.setDescFlags entry.desc (withNonblock desc.flags (value != 0)))
    return 0
  else
    let (_, desc) ← lift (openFd v a.a0)
    if request = fionread then
      putU32 argument (asU32 (available v desc))
      return 0
    else match v.terminal with
      | some terminal =>
        if desc.isStdStream then terminalIoctl v terminal request argument else fail .notty
      | none => fail .notty

def roundUp8 (n : ℕ) : ℕ := (n + 7) / 8 * 8

def direntRecord (item : DirEnt) (pos : ℕ) : Bytes :=
  let recordLen := roundUp8 (19 + item.name.length + 1)
  let head := toLe 8 item.ino ++ toLe 8 (pos + 1) ++ toLe 2 recordLen ++ toLe 1 item.kind ++ item.name
  head ++ List.replicate (recordLen - (item.name.length + 19)) 0

/-- The records that fit, and the position after them. `none` when there is a
next entry and not even it fits. -/
def direntBlock (capacity : ℕ) : List DirEnt → ℕ → Bytes → Option (Bytes × ℕ)
  | [], pos, block => some (block, pos)
  | item :: rest, pos, block =>
    if capacity < block.length + roundUp8 (19 + item.name.length + 1) then
      if block = [] then none else some (block, pos)
    else direntBlock capacity rest (pos + 1) (block ++ direntRecord item pos)

def getdents64 (a : Args) : Handler ℤ := do
  let v ← view
  let (entry, desc) ← lift (openFd v a.a0)
  match desc.kind with
  | .dir entries pos =>
    match direntBlock (asU32 a.a2) (entries.drop pos) pos [] with
    | none => fail .inval
    | some (block, next) =>
      act (.setDescPos entry.desc next)
      put (asU32 a.a1) block
      return asI32 block.length
  | _ => fail .notdir

end Sys

def pollOne (v : View) (key : DescKey) (events : ℕ) : ℕ :=
  match v.descs.get key with
  | none => pollnval
  | some desc =>
    let ready := match desc.kind with
      | .pipeRead key => match v.pipes.get key with
        | some pipe => if pipe.data ≠ [] then pollin else if pipe.writers = 0 then pollhup else 0
        | none => 0
      | .pipeWrite key => match v.pipes.get key with
        | some pipe => if pipe.readers = 0 then pollerr else if 0 < pipe.room then pollout else 0
        | none => 0
      | .stdin => if v.stdin ≠ [] ∨ v.stdinClosed then pollin else 0
      | .stdout _ => pollout
      | _ => pollin ||| pollout
    ready &&& (events ||| pollhup ||| pollerr ||| pollnval)

def pollFd (v : View) (fd : ℤ) (events : ℕ) : ℕ :=
  match v.task.fds.get fd with
  | .ok entry => pollOne v entry.desc events
  | .error _ => pollnval

/-- The timeout of a wait, if it has one. -/
def waitUntil (timeoutAt : ℕ) : Handler (Option Instant) := do
  if timeoutAt = 0 then return none
  else
    let v ← view
    let requested ← lift (v.mem.timespec timeoutAt)
    let «until» ← deadline requested
    return some «until»

/-- A timed wait with nothing ready: block, unless the time is up. -/
def waitOn (limit : Instant) (done : Handler ℤ) : Handler ℤ := do
  let t ← env .now
  if t < limit then
    act (.setWake limit)
    .fail .block
  else done

namespace Sys

/-- One `struct pollfd`: its address, descriptor and events. -/
structure PollFd where
  start : ℕ
  fd : ℤ
  events : ℕ

def pollEntry (m : Mem) (fdsAt index : ℕ) : Except Errno PollFd := do
  let start := wrapAdd fdsAt (index * 8 % 2^32)
  let fd ← m.i32At start
  let events ← m.u32 (wrapAdd start 4)
  return ⟨start, fd, events % 2^16⟩

def pollEntries (m : Mem) (fdsAt : ℕ) : List ℕ → Except Errno (List PollFd)
  | [] => .ok []
  | index :: rest => do
    let entry ← pollEntry m fdsAt index
    let more ← pollEntries m fdsAt rest
    return entry :: more

def pollRevents (v : View) (p : PollFd) : ℕ := if p.fd < 0 then 0 else pollFd v p.fd p.events

/-- Write the results of a poll back, one `revents` field after another. -/
def pollAnswer : List (ℕ × ℕ) → Handler Unit
  | [] => .ret ()
  | (start, revents) :: rest => do
    put start (toLe 2 revents)
    pollAnswer rest

def ppoll (a : Args) : Handler ℤ := do
  let «until» ← waitUntil (asU32 a.a2)
  let v ← view
  let entries ← lift (pollEntries v.mem (asU32 a.a0) (List.range (min (asU32 a.a1) 1024)))
  let results := entries.map fun p => (wrapAdd p.start 6, pollRevents v p)
  let ready := results.countP fun r => r.2 != 0
  let answer : Handler ℤ := do
    pollAnswer results
    return ready
  if ready = 0 then
    match «until» with
    | some limit => waitOn limit answer
    | none =>
      match v.task.fds.get 0 with
      | .ok _ =>
        act .wantStdin
        .fail .block
      | .error _ => .fail .block
  else answer

def readFdSet (m : Mem) (start : ℕ) : List ℕ → Except Errno (List Bool)
  | [] => .ok []
  | fd :: rest => do
    if start = 0 then
      let more ← readFdSet m start rest
      return false :: more
    else
      let word ← m.u32 (wrapAdd start (fd / 32 * 4))
      let more ← readFdSet m start rest
      return word.testBit (fd % 32) :: more

/-- The word of a set whose bits are `values`, lowest first. -/
def fdWord : List Bool → ℕ
  | [] => 0
  | b :: rest => b.toNat + 2 * fdWord rest

/-- Store the words of a set from `index` on. -/
def writeFdWords (start : ℕ) (values : List Bool) : List ℕ → Handler Unit
  | [] => .ret ()
  | index :: rest => do
    putU32 (wrapAdd start (index * 4)) (fdWord ((values.drop (index * 32)).take 32))
    writeFdWords start values rest

def writeFdSet (start : ℕ) (values : List Bool) : Handler Unit :=
  if start = 0 then .ret ()
  else writeFdWords start values (List.range (divCeil values.length 32))

/-- What one descriptor of a `pselect` is asked for and found ready for. -/
structure Selected where
  readable : Bool
  writable : Bool

def selectFd (v : View) (fd : ℕ) (wantsRead wantsWrite : Bool) : Selected :=
  if !wantsRead && !wantsWrite then ⟨false, false⟩
  else
    let events := (if wantsRead then pollin else 0) ||| (if wantsWrite then pollout else 0)
    let revents := pollFd v fd events
    ⟨wantsRead && revents &&& (pollin ||| pollhup ||| pollerr) != 0,
     wantsWrite && revents &&& (pollout ||| pollerr) != 0⟩

def pselect (a : Args) : Handler ℤ := do
  let count := (max 0 (min a.a0 1024)).toNat
  let «until» ← waitUntil (asU32 a.a4)
  let v ← view
  let readSet ← lift (readFdSet v.mem (asU32 a.a1) (List.range count))
  let writeSet ← lift (readFdSet v.mem (asU32 a.a2) (List.range count))
  let exceptSet ← lift (readFdSet v.mem (asU32 a.a3) (List.range count))
  let found := (List.range count).map fun fd =>
    selectFd v fd (readSet.getD fd false) (writeSet.getD fd false)
  let ready := found.countP Selected.readable + found.countP Selected.writable
  let answer : Handler ℤ := do
    writeFdSet (asU32 a.a1) (found.map Selected.readable)
    writeFdSet (asU32 a.a2) (found.map Selected.writable)
    writeFdSet (asU32 a.a3) (exceptSet.map fun _ => false)
    return ready
  if ready = 0 then
    match «until» with
    | some limit => waitOn limit answer
    | none => .fail .block
  else answer

end Sys
end Wasmux
