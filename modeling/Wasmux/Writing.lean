import Wasmux.Traffic

/-!
# Small writes to a pipe

Of a write that finds too little room a pipe takes what fits. So a small write is
whole, in any history of the pipe, unless there is room for a part of it only.
-/

set_option autoImplicit false

namespace Wasmux
open Effects Abi

def pipeBuf : ℕ := 4096

namespace PipeCall

def data : PipeCall → Bytes
  | .read _ _ _ _ _ => []
  | .write _ _ data _ _ => data

def IsSmall (c : PipeCall) : Prop := 1 ≤ c.data.length ∧ c.data.length ≤ pipeBuf

/-- How a pipe refuses a write. -/
def refusal (desc : Desc) (p : Pipe) : Fault :=
  if desc.writable = false then .errno .badf
  else if p.readers = 0 then .errno .pipe
  else if desc.isNonblocking then .errno .again
  else .block

/-- All of the bytes go into the pipe, or none, and the answer says so. -/
def Whole (key : PipeKey) : PipeCall → Prop
  | .write m desc data r m' => ∃ p, m.shared.pipes.get key = some p ∧
    (r = .ok data.length ∧ m'.shared.pipes.get key = some { p with data := p.data ++ data } ∨
     r = .error (refusal desc p) ∧ m'.shared.pipes.get key = some p)
  | _ => True

/-- There is a reader, and room for some of the bytes, but not for all. -/
def Splits (key : PipeKey) : PipeCall → Prop
  | .write m desc data _ _ => desc.writable = true ∧ ∃ p, m.shared.pipes.get key = some p ∧ p.readers ≠ 0 ∧
    0 < p.room ∧ p.room < data.length
  | _ => False

end PipeCall

section
variable {W : Type} {x : Env W} {key : PipeKey} {p : Pipe}

theorem PipeCall.Happens.whole_iff {c : PipeCall} (h : c.Happens x key)
    (hpipe : c.before.pipes.get key = some p) :
    c.Whole key ↔ ¬ c.Splits key := by
  cases c with
  | read m desc len r m' => exact ⟨fun _ h => h, fun _ => trivial⟩
  | write m desc data r m' =>
    obtain ⟨fd, entry, w, w', hopen, hkind, hrun⟩ := h
    have hsplits : PipeCall.Splits key (.write m desc data r m') ↔ desc.writable = true ∧ p.readers ≠ 0 ∧
      0 < p.room ∧
        p.room < data.length := by
      constructor
      · rintro ⟨hwritable, q, hq, hsplits⟩
        obtain rfl := Option.some.inj (hpipe.symm.trans hq)
        exact ⟨hwritable, hsplits⟩
      · exact fun hsplits => ⟨hsplits.1, p, hpipe, hsplits.2⟩
    rw [hsplits]
    rcases writePipe_cases hopen hkind hpipe hrun with ⟨hnot, rfl, rfl⟩ | ⟨hwritable, hreaders, rfl, rfl⟩ |
      ⟨hwritable, hreaders, hroom, rfl, rfl⟩ | ⟨hwritable, hreaders, hroom, rfl, rfl⟩
    · refine ⟨fun _ hall => ?_, fun _ => ⟨p, hpipe, .inr ⟨?_, hpipe⟩⟩⟩
      · rw [hnot] at hall
        cases hall.1
      · simp [PipeCall.refusal, hnot]
    · refine ⟨fun _ hall => hall.2.1 hreaders, fun _ => ⟨p, hpipe, .inr ⟨?_, hpipe⟩⟩⟩
      simp [PipeCall.refusal, hwritable, hreaders]
    · refine ⟨fun _ hall => hall.2.2.1.ne' hroom, fun _ => ⟨p, hpipe, .inr ⟨?_, hpipe⟩⟩⟩
      simp [PipeCall.refusal, hwritable, hreaders]
    · constructor
      · rintro ⟨q, hq, ⟨hall, -⟩ | ⟨hnone, -⟩⟩ ⟨-, -, -, hless⟩
        · have := Except.ok.inj hall
          omega
        · cases hnone
      · intro hnot
        have hfits : data.length ≤ p.room := by
          by_contra hless
          exact hnot ⟨hwritable, hreaders, Nat.pos_of_ne_zero hroom, by omega⟩
        refine ⟨p, hpipe, .inl ⟨?_, ?_⟩⟩
        · rw [Nat.min_eq_right hfits]
        · rw [get_pipePut hpipe, Nat.min_eq_right hfits, List.take_length]

theorem happens_put {m : Machine} {desc : Desc} {fd : ℤ} {entry : Fd}
    (hopen : openFd m.view fd = .ok (entry, desc)) (hkind : desc.kind = .pipeWrite key)
    (hwritable : desc.writable = true) (hpipe : m.shared.pipes.get key = some p) (hreaders : p.readers ≠ 0)
    (hroom : p.room ≠ 0) (w : W) (data : Bytes) : PipeCall.Happens x key
      (.write m desc data (.ok (min p.room data.length))
        (Act.exec (.pipePut key (data.take (min p.room data.length))) m).2) := by
  refine ⟨fd, entry, w, w, hopen, hkind, ?_⟩
  have hview : m.view.pipes.get key = some p := hpipe
  rw [run_writeBytes (s := (m, w)) hopen hwritable hkind hview data, if_neg hreaders, if_neg hroom]
  rfl

theorem PipeCall.Whole.put {c : PipeCall} (h : c.Whole key) : c.put = c.data ∨ c.put = [] := by
  cases c with
  | read => exact .inr rfl
  | write m desc data r m' =>
    obtain ⟨p, -, ⟨rfl, -⟩ | ⟨rfl, -⟩⟩ := h
    · exact .inl (List.take_length)
    · exact .inr rfl

theorem Traffic.mem {log : List PipeCall} {sh : Shared} (h : Traffic x key log sh) {c : PipeCall}
    (hc : c ∈ log) :
    c.Happens x key ∧ ∃ p, c.before.pipes.get key = some p := by
  induction h with
  | made => cases hc
  | call log d hlog hd ih =>
    rcases List.mem_append.mp hc with hmem | hlast
    · exact ih hmem
    · obtain rfl := List.mem_singleton.mp hlast
      obtain ⟨p, hp, -⟩ := hlog.fifo
      exact ⟨hd, p, hp⟩
  | other log sh sh' p p' _ _ _ _ ih => exact ih hc

/-- The small writes to a pipe are whole, and what goes through the pipe is made
of them, each in one piece. -/
structure Unmixed (key : PipeKey) (log : List PipeCall) (sh : Shared) : Prop where
  whole : ∀ c ∈ log, c.IsSmall → c.Whole key
  stream : ∃ p, sh.pipes.get key = some p ∧ log.flatMap PipeCall.got ++ p.data = log.flatMap PipeCall.put
  pieces : ∀ c ∈ log, c.IsSmall → c.put = c.data ∨ c.put = []

/-- In any history of a pipe, whoever writes to it and however much is in it, the
small writes are unmixed if and only if none of them finds room for a part of it only. -/
theorem small_writes_unmixed_iff {log : List PipeCall} {sh : Shared} (h : Traffic x key log sh) :
    Unmixed key log sh ↔ ∀ c ∈ log, c.IsSmall → ¬ c.Splits key := by
  have hwhole : ∀ c ∈ log, c.Whole key ↔ ¬ c.Splits key := by
    intro c hc
    obtain ⟨hhappens, p, hp⟩ := h.mem hc
    exact hhappens.whole_iff hp
  constructor
  · exact fun hunmixed c hc hsmall => (hwhole c hc).mp (hunmixed.whole c hc hsmall)
  · intro hnone
    have hall : ∀ c ∈ log, c.IsSmall → c.Whole key := fun c hc hsmall => (hwhole c hc).mpr (hnone c hc hsmall)
    obtain ⟨p, hp, hstream, -⟩ := h.fifo
    exact ⟨hall, ⟨p, hp, hstream⟩, fun c hc hsmall => (hall c hc hsmall).put⟩

end

/-- A guest that makes a pipe, and may then write 65535 bytes to it. -/
abbrev Env.fillsPipe : Env (List GuestRun) :=
  Env.scripted (.startingWith (argWords [100, 0, 0, 0, 0, 0, 4, 0, 65535, 0, 0, 0]))

theorem reached_pipe : ∃ (k : Kernel) (w : List GuestRun) (p : Proc) (entry : Fd) (desc : Desc),
    Reached Env.fillsPipe (fun _ _ => True) k w ∧ k.procs[0]? = some p ∧
    openFd (k.machineOf p).view 4 = .ok (entry, desc) ∧ desc.kind = .pipeWrite 0 ∧ desc.writable = true ∧
    k.shared.pipes.get 0 = some .new := by
  have hrun : Config.oneMount.drive Env.fillsPipe [⟨[.syscall 59 0, .setjmp 0], none⟩] 2 [⟨some 0, none⟩] =
    some (_, _) := rfl
  exact ⟨_, _, _, _, _, .between _ _ (between_drive hrun), rfl, rfl, rfl, rfl, rfl⟩

/-- A write of one byte to a new pipe. -/
theorem small_writes_unmixed_iff_new : ∃ (c : PipeCall) (sh : Shared),
    Traffic Env.fillsPipe 0 [c] sh ∧ c.IsSmall ∧ Unmixed 0 [c] sh := by
  obtain ⟨k, w, p, entry, desc, -, -, hopen, hkind, hwritable, hpipe⟩ := reached_pipe
  have hcall := happens_put (x := Env.fillsPipe) hopen hkind hwritable hpipe (by decide) (by decide) w [7]
  have htraffic := Traffic.call [] _ (.made k.shared .new hpipe rfl) hcall
  refine ⟨_, _, htraffic, ⟨Nat.le_refl 1, show 1 ≤ 4096 by decide⟩,
    (small_writes_unmixed_iff htraffic).mpr fun c hc _ hsplits => ?_⟩
  obtain rfl := List.mem_singleton.mp hc
  obtain ⟨-, q, hq, -, -, hless⟩ := hsplits
  obtain rfl := Option.some.inj (hpipe.symm.trans hq)
  exact absurd hless (by decide)

/-- The guest has written 65535 bytes, and nobody has read them. -/
theorem reached_filled : ∃ (k : Kernel) (w : List GuestRun) (p : Proc) (entry : Fd) (desc : Desc)
    (pipe : Pipe),
    Reached Env.fillsPipe (fun _ _ => True) k w ∧ k.procs[0]? = some p ∧
    openFd (k.machineOf p).view 4 = .ok (entry, desc) ∧ desc.kind = .pipeWrite 0 ∧ desc.writable = true ∧
    k.shared.pipes.get 0 = some pipe ∧ pipe.readers = 1 ∧ pipe.data.length = 65535 := by
  have hword : ∀ bytes : Bytes, bytes = [255, 255, 0, 0] → asU32 (asI32 (ofLe bytes)) = 65535 := by
    rintro bytes rfl
    decide
  have hstate : ∃ (k : Kernel) (w : List GuestRun) (p : Proc) (entry : Fd) (desc : Desc)
      (mem : Mem) (start len : ℕ) (was : Pipe),
      Reached Env.fillsPipe (fun _ _ => True) k w ∧ k.procs[0]? = some p ∧
      openFd (k.machineOf p).view 4 = .ok (entry, desc) ∧ desc.kind = .pipeWrite 0 ∧ desc.writable = true ∧
      k.shared.pipes.get 0 = some ⟨[] ++ (mem.read start len).take
        (min was.room (mem.read start len).length), 1, 1⟩ ∧
      was.data = [] ∧ len = 65535 := by
    have hrun : Config.oneMount.drive Env.fillsPipe [⟨[.syscall 59 0, .syscall 64 24, .setjmp 0], none⟩] 2
      [⟨some 0, none⟩] = some (_, _) := rfl
    exact ⟨_, _, _, _, _, _, _, _, _, .between _ _ (between_drive hrun), rfl, rfl, rfl, rfl, rfl, rfl,
      hword _ (by decide +kernel)⟩
  obtain ⟨k, w, p, entry, desc, mem, start, len, was, hreached, hp, hopen, hkind, hwritable, hpipe, hempty,
    hlen⟩ := hstate
  refine ⟨k, w, p, entry, desc, _, hreached, hp, hopen, hkind, hwritable, hpipe, rfl, ?_⟩
  have hroom : was.room = 65536 := by
    rw [Pipe.room, hempty]
    rfl
  have hread : (mem.read start len).length = 65535 := by simp [Mem.read, hlen]
  rw [List.nil_append, List.length_take, hread, hroom]
  rfl

/-- The next two bytes are one too many, and one of them goes into the pipe. -/
theorem small_write_split :
    ∃ (k : Kernel) (w : List GuestRun) (p : Proc) (desc : Desc) (m : Machine) (log : List PipeCall),
    Reached Env.fillsPipe (fun _ _ => True) k w ∧ k.procs[0]? = some p ∧
    Traffic Env.fillsPipe 0 log k.shared ∧
    PipeCall.Happens Env.fillsPipe 0 (.write (k.machineOf p) desc [0, 0] (.ok 1) m) ∧
    ¬ Unmixed 0 (log ++ [.write (k.machineOf p) desc [0, 0] (.ok 1) m]) m.shared := by
  obtain ⟨k, w, p, entry, desc, pipe, hreached, hp, hopen, hkind, hwritable, hpipe, hreaders, hlen⟩ :=
    reached_filled
  obtain ⟨log, hlog⟩ := reached_accounted hreached 0 pipe hpipe
  have hroom : pipe.room = 1 := by
    rw [Pipe.room, hlen]
    rfl
  have hcall := happens_put (x := Env.fillsPipe) hopen hkind hwritable hpipe (by omega) (by omega) w [0, 0]
  rw [hroom] at hcall
  have hsmall : 1 ≤ ([0, 0] : Bytes).length ∧ ([0, 0] : Bytes).length ≤ pipeBuf := by decide
  refine ⟨k, w, p, desc, _, log, hreached, hp, hlog, hcall, fun hunmixed => ?_⟩
  obtain ⟨q, hq, ⟨hall, -⟩ | ⟨hnone, -⟩⟩ :=
    hunmixed.whole _ (List.mem_append_right log (List.mem_singleton_self _)) hsmall
  · exact absurd (Except.ok.inj hall) (by decide)
  · cases hnone

end Wasmux
