import Wasmux.Quiet
import Wasmux.Session

/-!
# A blocked syscall has consumed nothing

A call that has to wait is served again later with the same arguments, so it
must leave everything but its waiting where it was. Most calls do. A mapping
has grown the memory before it asks for the file, and a call over segments may
have served some of them.
-/

set_option autoImplicit false

namespace Wasmux
open Effects Abi

/-- The signal mask a process has when no call lends it another. -/
def Ctx.ownMask (c : Ctx) : Sigset := c.exec.maskToRestore.getD c.task.sigmask

/-- A machine without its waiting: what is written down about it, the deadline
and the mask lent to a call. -/
def Machine.bare (m : Machine) : Machine :=
  { m.quiet with ctx := { m.ctx with
      task := { m.ctx.task with sigmask := m.ctx.ownMask }
      exec := { m.ctx.exec with deadline := none, maskToRestore := none } } }

/-- A machine without its deadline and what is written down about waiting. -/
def Machine.undated (m : Machine) : Machine :=
  { m.quiet with ctx := { m.ctx with exec := { m.ctx.exec with deadline := none } } }

/-- Whether a mount or a file gave something up. A file that the call opened
itself, one of `own`, is no one else's. -/
def Op.takes (own : List Handle) : (o : Op) → o.Ans → Bool
  | .env (.vfs _ call), r => call.changes && r.isOk
  | .env (.file h call), r => call.changes && r.isOk && !own.contains h
  | _, _ => false

section
variable {σ : Type}

def Op.isAct : Op → Prop
  | .act _ => True
  | .env _ => False

/-- Whether anything was taken from a mount or a file along a trace. -/
def taken : List Handle → List (Program.Visit sig σ) → Bool
  | _, [] => false
  | own, v :: rest => v.op.takes own v.ans || taken (v.op.opens v.ans ++ own) rest

theorem takes_le_consumes (own : List Handle) (o : Op) (a : o.Ans) (h : o.consumes own a = false) :
    o.takes own a = false := by
  cases o with
  | act b => rfl
  | env c => cases c <;> first | rfl | exact h

theorem taken_of_unmarked (t : Mark) (vs : List (Program.Visit sig σ))
    (h : (footprint.after t vs).busy = false) : t.busy = false ∧ taken t.own vs = false := by
  induction vs generalizing t with
  | nil => exact ⟨h, rfl⟩
  | cons v vs ih =>
    obtain ⟨hbusy, hrest⟩ := ih _ h
    have hor : t.busy = false ∧ v.op.consumes t.own v.ans = false := by
      simpa [footprint] using hbusy
    refine ⟨hor.1, ?_⟩
    simp only [taken, Bool.or_eq_false_iff]
    exact ⟨takes_le_consumes _ _ _ hor.2, hrest⟩

end

section
variable {W : Type} (x : Env W)

/-- The acts that keep what is there change no more than the waiting. -/
theorem Act.exec_keeps (a : Act) (h : a.keeps = true) (m : Machine) :
    (a.exec m).2.bare = m.bare ∧
      ((Op.act a).masks = false → (a.exec m).2.undated = m.undated) ∧
      ((Op.act a).times = false → (a.exec m).2.ctx.exec.deadline = m.ctx.exec.deadline) := by
  have record : ∀ limit : Instant,
      (m.shared.updateRecord m.ctx.task.pid fun r => { r with wakeAt := some limit }).quiet =
        m.shared.quiet := fun limit => by
    have go : ∀ rs : List ProcRecord,
        (Shared.updateRecord.go m.ctx.task.pid (fun r => { r with wakeAt := some limit }) rs).map
          ProcRecord.unwoken = rs.map ProcRecord.unwoken := by
      intro rs
      induction rs with
      | nil => rfl
      | cons r rs ih =>
        unfold Shared.updateRecord.go
        split <;> simp [ProcRecord.unwoken, ih]
    simp [Shared.updateRecord, Shared.quiet, go]
  cases a with
  | view | deadline | served | noteVfsPending | wantStdin => exact ⟨rfl, fun _ => rfl, fun _ => rfl⟩
  | setDeadline limit => exact ⟨rfl, fun _ => rfl, fun h => Bool.noConfusion h⟩
  | setWake limit =>
    exact ⟨congrArg (fun sh => ({ m.bare with shared := sh } : Machine)) (record limit),
      fun _ => congrArg (fun sh => ({ m.undated with shared := sh } : Machine)) (record limit),
      fun _ => rfl⟩
  | suspendMask mask =>
    rcases m with ⟨⟨task, argv, envp, request, stack, exec⟩, sh, inst⟩
    rcases exec with ⟨data, rewinding, value, sp, suspension, bufs, flag, deadline, _ | old, grown⟩ <;>
      exact ⟨rfl, fun h => Bool.noConfusion h, fun _ => rfl⟩
  | _ => cases h

theorem after_marks {σ : Type} (t : Mark) (vs : List (Program.Visit sig σ)) :
    (t.busy = true → (footprint.after t vs).busy = true) ∧
      (t.timed = true → (footprint.after t vs).timed = true) ∧
      (t.masked = true → (footprint.after t vs).masked = true) := by
  induction vs generalizing t with
  | nil => exact ⟨id, id, id⟩
  | cons v vs ih =>
    obtain ⟨hb, ht, hm⟩ := ih (footprint.next t v.op v.ans)
    exact ⟨fun h => hb (by simp [footprint, h]), fun h => ht (by simp [footprint, h]),
      fun h => hm (by simp [footprint, h])⟩

/-- What a run without marks keeps. -/
theorem kept_of_unmarked {ε α : Type} (p : Program sig ε α) (t : Mark) (s : Machine × W)
    (h : (footprint.after t (p.trace (exec x) s)).busy = false) :
    (p.run (exec x) s).2.1.bare = s.1.bare ∧
      ((footprint.after t (p.trace (exec x) s)).masked = false →
        (p.run (exec x) s).2.1.undated = s.1.undated) ∧
      ((footprint.after t (p.trace (exec x) s)).timed = false →
        (p.run (exec x) s).2.1.ctx.exec.deadline = s.1.ctx.exec.deadline) := by
  induction p generalizing t s with
  | ret a => exact ⟨rfl, fun _ => rfl, fun _ => rfl⟩
  | fail e => exact ⟨rfl, fun _ => rfl, fun _ => rfl⟩
  | call o k ih =>
    obtain ⟨hbare, hundated, hdeadline⟩ := ih _ _ _ h
    obtain ⟨hb, ht, hm⟩ := after_marks (footprint.next t o (exec x o s).1)
      ((k (exec x o s).1).trace (exec x) (exec x o s).2)
    have hkeeps : o.consumes t.own (exec x o s).1 = false := by
      rw [← Bool.not_eq_true]
      exact fun hc => absurd (hb (by simp [footprint, hc])) (by rw [Bool.not_eq_true]; exact h)
    have first : (exec x o s).2.1.bare = s.1.bare ∧
        (o.masks = false → (exec x o s).2.1.undated = s.1.undated) ∧
        (o.times = false → (exec x o s).2.1.ctx.exec.deadline = s.1.ctx.exec.deadline) := by
      cases o with
      | env c => exact ⟨rfl, fun _ => rfl, fun _ => rfl⟩
      | act a => exact a.exec_keeps (by simpa [Op.consumes] using hkeeps) s.1
    refine ⟨hbare.trans first.1, fun hmask => (hundated hmask).trans (first.2.1 ?_),
      fun htime => (hdeadline htime).trans (first.2.2 ?_)⟩
    · rw [← Bool.not_eq_true]
      exact fun hc => absurd (hm (by simp [footprint, hc])) (by rw [Bool.not_eq_true]; exact hmask)
    · rw [← Bool.not_eq_true]
      exact fun hc => absurd (ht (by simp [footprint, hc])) (by rw [Bool.not_eq_true]; exact htime)

theorem SteadyIn.never_blocks {R : Act → Bool} {α : Type} {p : Handler α} (h : SteadyIn R p)
    (s : Machine × W) :
    (p.run (exec x) s).1 ≠ .error .block :=
  (Program.sat_run (exec x) (P := fun _ => True) (fun _ _ _ => ⟨trivial, trivial⟩)
    (h Mark.clear rfl) trivial).2.2

theorem blocks_bind {α β : Type} {p : Handler α} {f : α → Handler β} (hf : ∀ a, Steady (f a))
    (s : Machine × W) :
    ((p >>= f).run (exec x) s).1 = .error .block ↔ (p.run (exec x) s).1 = .error .block := by
  rw [Program.run_bind]
  rcases p.run (exec x) s with ⟨e | a, t⟩
  · simp
  · simpa using SteadyIn.never_blocks x (hf a) t

theorem fileAsk_blocks (file : Handle) (call : FileCall) (m : Machine) (w : W) :
    ((fileAsk file call).run (exec x) (m, w)).1 = .error .block ↔
      (x.file file call w).1 = .error .again := by
  have hrun : ((fileAsk file call).run (exec x) (m, w)).1 =
      ((orVfsFault (x.file file call w).1).run (exec x) (m, (x.file file call w).2)).1 := rfl
  rw [hrun]
  rcases (x.file file call w).1 with e | a
  · simp only [orVfsFault, vfsFault]
    by_cases he : e = .again
    · simp [he]
    · simp [he]
  · simp [orVfsFault]

theorem exists_opened {e : Fd} {d : Desc} {P : Desc → Prop} :
    (∃ e' d', (Except.ok (e, d) : Except Errno (Fd × Desc)) = .ok (e', d') ∧ P d') ↔ P d := by
  constructor
  · rintro ⟨e', d', h, hp⟩
    cases h
    exact hp
  · exact fun h => ⟨e, d, rfl, h⟩

/-- Whether reading a descriptor has to wait: for standard input, for the
other end of a pipe, or for a file that asks to be called again. -/
def ReadWaits (fd : ℤ) (len : ℕ) (m : Machine) (w : W) : Prop :=
  ∃ e d, openFd m.view fd = .ok (e, d) ∧ d.readable = true ∧ match d.kind with
    | .file file _ _ => (x.file file (.read len) w).1 = .error .again
    | .stdin => m.shared.stdin.data = [] ∧ m.shared.stdin.closed = false ∧ d.isNonblocking = false
    | .pipeRead key => ∃ p, m.shared.pipes.get key = some p ∧ p.data = [] ∧ p.writers ≠ 0 ∧
        d.isNonblocking = false
    | _ => False

/-- Whether writing to a descriptor has to wait. -/
def WriteWaits (fd : ℤ) (data : Bytes) (m : Machine) (w : W) : Prop :=
  ∃ e d, openFd m.view fd = .ok (e, d) ∧ d.writable = true ∧ match d.kind with
    | .file file mount _ => m.view.isReadOnly mount = false ∧
        (x.file file (.write data) w).1 = .error .again
    | .pipeWrite key => ∃ p, m.shared.pipes.get key = some p ∧ p.readers ≠ 0 ∧ p.room = 0 ∧
        d.isNonblocking = false
    | _ => False

theorem readBytes_blocks (fd : ℤ) (len : ℕ) (hl : len ≠ 0) (m : Machine) (w : W) :
    ((readBytes fd len).run (exec x) (m, w)).1 = .error .block ↔ ReadWaits x fd len m w := by
  unfold readBytes ReadWaits
  rw [if_neg hl]
  simp only [view, act, Program.call_bind, Program.ret_bind, Program.run_call, exec_act, Act.exec]
  rcases hopen : openFd m.view fd with err | ⟨e, d⟩
  · simp
  · rw [exists_opened]
    simp only [lift_ok, Program.ret_bind]
    rcases hr : d.readable with _ | _
    · simp
    simp only [Bool.not_true, Bool.false_eq_true, if_false, true_and]
    rcases hk : d.kind with ⟨file, mount, closed⟩ | ⟨entries, pos⟩ | ⟨data,
      pos⟩ | key | key | _ | which | _ | _ | _
    · exact (blocks_bind x (fun _ => steady_ret _) _).trans (fileAsk_blocks x file (.read len) m w)
    · simp
    · simp
    · simp only [Machine.view_pipes]
      rcases m.shared.pipes.get key with _ | p
      · simp
      · simp only [Option.some.injEq, exists_eq_left']
        by_cases hd : p.data = []
        · by_cases hw : p.writers = 0
          · simp [hd, hw]
          · rcases hn : d.isNonblocking <;> simp [hd, hw]
        · simp only [hd, if_false, false_and, iff_false]
          exact SteadyIn.never_blocks x (p := act (.pipeTake key _) >>= fun _ => .ret _)
            (steady_bind (steady_act _ (fun _ => rfl) rfl rfl rfl rfl) fun _ => steady_ret _) _
    · simp
    · simp only [Machine.view_stdin, Machine.view_stdinClosed]
      by_cases hd : m.shared.stdin.data = []
      · by_cases hc : m.shared.stdin.closed = true <;> by_cases hn : d.isNonblocking = true <;>
          simp [hd, hc, hn]
      · simp only [hd, if_false, false_and, iff_false]
        exact SteadyIn.never_blocks x
          (steady_bind (steady_act _ (fun _ => rfl) rfl rfl rfl rfl) fun _ => steady_ret _) _
    · simp
    · simp
    · simp
    · simp

theorem writeBytes_blocks (fd : ℤ) (data : Bytes) (m : Machine) (w : W) :
    ((writeBytes fd data).run (exec x) (m, w)).1 = .error .block ↔ WriteWaits x fd data m w := by
  unfold writeBytes WriteWaits
  simp only [view, act, Program.call_bind, Program.ret_bind, Program.run_call, exec_act, Act.exec]
  rcases hopen : openFd m.view fd with err | ⟨e, d⟩
  · simp
  · rw [exists_opened]
    simp only [lift_ok, Program.ret_bind]
    rcases hr : d.writable with _ | _
    · simp
    simp only [Bool.not_true, Bool.false_eq_true, if_false, true_and]
    rcases hk : d.kind with ⟨file, mount, closed⟩ | ⟨entries, pos⟩ | ⟨content,
      pos⟩ | key | key | _ | which | _ | _ | _
    · by_cases hro : m.view.isReadOnly mount = true
      · simp [hro]
      · simp only [hro]
        simpa using fileAsk_blocks x file (.write data) m w
    · simp
    · simp
    · simp
    · simp only [Machine.view_pipes]
      rcases m.shared.pipes.get key with _ | p
      · simp
      · simp only [Option.some.injEq, exists_eq_left']
        by_cases hd : p.readers = 0
        · simp [hd]
        · by_cases hw : p.room = 0
          · by_cases hn : d.isNonblocking = true <;> simp [hd, hw, hn]
          · simp [hd, hw]
    · simp
    · simp
    · simp
    · simp
    · simp

namespace Sys

theorem read_blocks (fd : ℤ) (start length : ℕ) (hl : length ≠ 0) (m : Machine) (w : W) :
    ((read fd start length).run (exec x) (m, w)).1 = .error .block ↔
      ReadWaits x fd (min length (2^20)) m w := by
  unfold read
  rw [if_neg hl, ← readBytes_blocks x fd _ (by omega) m w]
  exact blocks_bind x (fun _ => steady_bind (steady_put _ _) fun _ => steady_ret _) _

theorem write_blocks (fd : ℤ) (start length : ℕ) (m : Machine) (w : W) :
    ((write fd start length).run (exec x) (m, w)).1 = .error .block ↔
      ∃ data, m.inst.mem.bytes start length = .ok data ∧ WriteWaits x fd data m w := by
  unfold write
  simp only [view, act, Program.call_bind, Program.ret_bind, Program.run_call, exec_act, Act.exec,
    Machine.view_mem]
  rcases m.inst.mem.bytes start length with e | data
  · simp
  · simp only [lift_ok, Program.ret_bind, Except.ok.injEq, exists_eq_left']
    rw [← writeBytes_blocks x fd data m w]
    exact blocks_bind x (fun _ => steady_ret _) _

/-- The first segment of a vector that is not empty. -/
def firstSegment (m : Mem) (vector : ℕ) : ℕ → ℕ → Option (ℕ × ℕ)
  | 0, _ => none
  | count + 1, index =>
    let entry := wrapAdd vector (index * 8 % 2^32)
    match m.u32 entry, m.u32 (wrapAdd entry 4) with
    | .ok start, .ok len =>
      if len = 0 then firstSegment m vector count (index + 1) else some (start, len)
    | _, _ => none

/-- What the loop does with the end of a segment. -/
def vectorNext (io : ℕ → ℕ → Handler ℤ) (vector count index len : ℕ) (total : ℤ) :
    Except Fault ℤ → Handler ℤ
  | .ok done =>
    if asU32 done < len then .ret (satAddI32 total done)
    else vectorLoop io vector count (index + 1) (satAddI32 total done)
  | .error fault => if 0 < total then .ret total else .fail fault

/-- The loop comes to its first segment having only looked. -/
theorem vectorLoop_first (io : ℕ → ℕ → Handler ℤ) (vector count index : ℕ) (total : ℤ)
    (m : Machine) (w : W) {start len : ℕ}
    (h : firstSegment m.inst.mem vector count index = some (start, len)) :
    len ≠ 0 ∧ ∃ (count' index' : ℕ) (looks : List (Program.Visit sig (Machine × W))),
      (vectorLoop io vector count index total).run (exec x) (m, w) =
        ((io start len).catching >>= vectorNext io vector count' index' len total).run (exec x) (m, w) ∧
      (vectorLoop io vector count index total).trace (exec x) (m, w) = looks ++
        ((io start len).catching >>= vectorNext io vector count' index' len total).trace (exec x) (m, w) ∧
      ∀ v ∈ looks, v.op = .act .view := by
  induction count generalizing index with
  | zero => simp [firstSegment] at h
  | succ count ih =>
    unfold firstSegment at h
    dsimp only at h
    rcases hs : m.inst.mem.u32 (wrapAdd vector (index * 8 % 2^32)) with e | start' <;>
      rcases hl : m.inst.mem.u32 (wrapAdd (wrapAdd vector (index * 8 % 2^32)) 4) with e' | len' <;>
      simp only [hs, hl] at h <;> try (simp at h)
    -- One look at the memory, and what the loop goes on with.
    have hstep : ∀ p : Handler ℤ, (∀ v : View, v.mem = m.inst.mem →
        (lift (v.mem.u32 (wrapAdd vector (index * 8 % 2^32))) >>= fun start =>
          lift (v.mem.u32 (wrapAdd (wrapAdd vector (index * 8 % 2^32)) 4)) >>= fun len =>
          if len = 0 then vectorLoop io vector count (index + 1) total
          else (io start len).catching >>= vectorNext io vector count index len total) = p) →
        (vectorLoop io vector (count + 1) index total).run (exec x) (m, w) = p.run (exec x) (m, w) ∧
        (vectorLoop io vector (count + 1) index total).trace (exec x) (m, w) =
          ⟨(m, w), .act .view, m.view⟩ :: p.trace (exec x) (m, w) := by
      intro p hp
      rw [← hp m.view rfl]
      exact ⟨rfl, rfl⟩
    by_cases hz : len' = 0
    · simp only [hz, if_true] at h
      obtain ⟨hlen, count', index', looks, hrun, htrace, hlooks⟩ := ih (index + 1) h
      obtain ⟨hr, ht⟩ := hstep (vectorLoop io vector count (index + 1) total) fun v hv => by
        simp only [hv, hs, hl, lift_ok, Program.ret_bind, hz, if_true]
      refine ⟨hlen, count', index', ⟨(m, w), .act .view, m.view⟩ :: looks, ?_, ?_, ?_⟩
      · rw [hr, hrun]
      · rw [ht, htrace, List.cons_append]
      · simpa using hlooks
    · simp only [hz, if_false, Option.some.injEq, Prod.mk.injEq] at h
      obtain ⟨rfl, rfl⟩ := h
      obtain ⟨hr, ht⟩ := hstep ((io start' len').catching >>= vectorNext io vector count index len' total)
        fun v hv => by simp only [hv, hs, hl, lift_ok, Program.ret_bind, hz, if_false]
      exact ⟨hz, count, index, [⟨(m, w), .act .view, m.view⟩], hr, ht, by simp⟩

/-- A loop without a segment to serve does not wait. -/
theorem vectorLoop_none (io : ℕ → ℕ → Handler ℤ) (vector count index : ℕ) (total : ℤ)
    (m : Machine) (w : W) (h : firstSegment m.inst.mem vector count index = none) :
    ((vectorLoop io vector count index total).run (exec x) (m, w)).1 ≠ .error .block := by
  induction count generalizing index with
  | zero => simp [vectorLoop]
  | succ count ih =>
    unfold firstSegment at h
    unfold vectorLoop
    dsimp only at h ⊢
    simp only [view, act, Program.call_bind, Program.ret_bind, Program.run_call, exec_act, Act.exec,
      Machine.view_mem]
    rcases hs : m.inst.mem.u32 (wrapAdd vector (index * 8 % 2^32)) with e | start'
    · simp
    · rcases hl : m.inst.mem.u32 (wrapAdd (wrapAdd vector (index * 8 % 2^32)) 4) with e' | len'
      · simp
      · simp only [hs, hl] at h
        by_cases hz : len' = 0
        · simp only [hz, if_true] at h
          simpa only [lift_ok, Program.ret_bind, hz, if_true] using ih (index + 1) h
        · simp [hz] at h

end Sys

/-- The acts of reading and writing: none of them moves a descriptor or turns
a description into another kind. -/
def Act.streams : Act → Bool
  | .view | .put _ _ | .setDescPos _ _ | .stdinTake _ | .pipeTake _ _ | .pipePut _ _
  | .writeOutput _ _ | .raise _ | .wantStdin | .noteVfsPending => true
  | _ => false

def Op.streams : Op → Prop
  | .act a => a.streams = true
  | .env _ => True

def DescKind.shape : DescKind → DescKind
  | .dir entries _ => .dir entries 0
  | .memory data _ => .memory data 0
  | kind => kind

theorem only_act {A : Op → Prop} (a : Act) (h : A (.act a)) :
    (act a : Handler a.Ans).Only A := ⟨h, fun _ => trivial⟩

theorem fileAsk_only {A : Op → Prop} {file : Handle} {call : FileCall} (hfile : A (.env (.file file call)))
    (hpending : A (.act .noteVfsPending)) : (fileAsk file call).Only A := by
  refine ⟨hfile, fun r => ?_⟩
  rcases r with e | a
  · change (vfsFault e).Only A
    unfold vfsFault
    split
    · exact ⟨hpending, fun _ => trivial⟩
    · trivial
  · trivial

theorem lift_only {A : Op → Prop} {α : Type} (r : Except Errno α) : (lift r).Only A := by
  cases r <;> trivial

theorem only_fileAsk (file : Handle) (call : FileCall) : (fileAsk file call).Only Op.streams :=
    fileAsk_only trivial rfl

theorem only_lift {α : Type} (r : Except Errno α) : (lift r).Only Op.streams := lift_only r

theorem only_readBytes (fd : ℤ) (len : ℕ) : (readBytes fd len).Only Op.streams := by
  unfold readBytes
  split
  · trivial
  · refine Program.only_bind (only_act _ rfl) fun v => Program.only_bind (only_lift _) fun r => ?_
    dsimp only
    split
    · trivial
    · split
      · exact Program.only_bind (only_fileAsk _ _) fun _ => trivial
      · exact ⟨rfl, fun _ => trivial⟩
      · trivial
      · trivial
      · exact ⟨trivial, fun _ => trivial⟩
      · trivial
      · trivial
      · trivial
      · split
        · split
          · trivial
          · split
            · trivial
            · exact ⟨rfl, fun _ => trivial⟩
        · exact ⟨rfl, fun _ => trivial⟩
      · split
        · trivial
        · split
          · split
            · trivial
            · split <;> trivial
          · exact ⟨rfl, fun _ => trivial⟩

section
variable {A : Op → Prop} (hact : ∀ a : Act, a.streams = true → A (.act a))
  (hfile : ∀ file call, A (.env (.file file call)))
include hact hfile

theorem writeBytes_only (fd : ℤ) (data : Bytes) : (writeBytes fd data).Only A := by
  unfold writeBytes
  refine Program.only_bind (p := view) ⟨hact _ rfl, fun _ => trivial⟩ fun v =>
    Program.only_bind (lift_only _) fun r => ?_
  dsimp only
  split
  · trivial
  · split
    · split
      · trivial
      · exact fileAsk_only (hfile _ _) (hact _ rfl)
    all_goals try trivial
    · exact ⟨hact _ rfl, fun _ => trivial⟩
    · split
      · trivial
      · split
        · exact ⟨hact _ rfl, fun _ => trivial⟩
        · split
          · split <;> trivial
          · exact ⟨hact _ rfl, fun _ => trivial⟩

theorem write_only (fd : ℤ) (start length : ℕ) : (Sys.write fd start length).Only A := by
  unfold Sys.write
  exact Program.only_bind (p := view) ⟨hact _ rfl, fun _ => trivial⟩ fun v =>
      Program.only_bind (lift_only _) fun data =>
    Program.only_bind (writeBytes_only hact hfile _ _) fun _ => trivial

end

theorem only_writeBytes (fd : ℤ) (data : Bytes) : (writeBytes fd data).Only Op.streams :=
  writeBytes_only (fun _ h => h) (fun _ _ => trivial) fd data

namespace Sys

theorem only_read (fd : ℤ) (start length : ℕ) : (read fd start length).Only Op.streams := by
  unfold read
  split
  · trivial
  · refine Program.only_bind (only_readBytes _ _) fun r => ?_
    exact Program.only_bind (Program.only_bind (only_act _ rfl) only_lift) fun _ => trivial

theorem only_write (fd : ℤ) (start length : ℕ) : (write fd start length).Only Op.streams :=
  write_only (fun _ h => h) (fun _ _ => trivial) fd start length

end Sys

/-- A descriptor of the machine, and the kind of what it names. -/
def Machine.Names (m : Machine) (fd : ℤ) (kind : DescKind) : Prop :=
  ∃ e d, openFd m.view fd = .ok (e, d) ∧ d.kind.shape = kind

theorem Machine.Names.congr {m m' : Machine} {fd : ℤ} {kind : DescKind}
    (hf : m'.ctx.task.fds = m.ctx.task.fds) (hd : m'.shared.descs = m.shared.descs)
    (h : m.Names fd kind) : m'.Names fd kind := by
  have : openFd m'.view fd = openFd m.view fd := by
    unfold openFd
    rw [Machine.view_task, Machine.view_task, Machine.view_descs, Machine.view_descs, hf, hd]
  unfold Names
  rw [this]
  exact h

theorem Machine.names_iff {m : Machine} {fd : ℤ} {kind : DescKind} : m.Names fd kind ↔
    ∃ e d, m.ctx.task.fds.get fd = .ok e ∧ m.shared.descs.get e.desc = some d ∧ d.kind.shape = kind := by
  unfold Names openFd
  rw [Machine.view_task, Machine.view_descs]
  rcases m.ctx.task.fds.get fd with err | e
  · simp [bind, Except.bind]
  · simp only [bind, Except.bind]
    rcases hd : m.shared.descs.get e.desc with _ | d <;> simp [hd]

/-- Reading and writing leave a descriptor naming what it named. -/
theorem names_streams (o : Op) (ho : o.streams) (fd : ℤ) (kind : DescKind) (s : Machine × W)
    (h : s.1.Names fd kind) : (exec x o s).2.1.Names fd kind := by
  cases o with
  | env c => exact h
  | act a =>
    cases a with
    | put start data =>
      simp only [exec_act, Act.exec]
      split
      · exact h.congr rfl rfl
      · exact h
    | setDescPos key pos =>
      rw [Machine.names_iff] at h ⊢
      obtain ⟨e, d, he, hd, hk⟩ := h
      simp only [exec_act, Act.exec, Machine.setShared, Slab.get_modify]
      by_cases hkey : key = e.desc
      · refine ⟨e, _, he, by rw [if_pos hkey, hd]; rfl, ?_⟩
        rw [← hk]
        rcases d with ⟨k, path, flags, refs⟩
        cases k <;> rfl
      · exact ⟨e, d, he, by simp [hkey, hd], hk⟩
    | writeOutput which data =>
      simp only [exec_act, Act.exec, Shared.writeOutput]
      split <;> exact h.congr rfl rfl
    | view | stdinTake | pipeTake | pipePut | raise | wantStdin | noteVfsPending => exact h.congr rfl rfl
    | _ => cases ho

/-- What may have to be waited for after some of it was had, but for a file:
standard input and pipes. -/
def DescKind.waits : DescKind → Bool
  | .stdin | .pipeRead _ | .pipeWrite _ => true
  | _ => false

def DescKind.isFile : DescKind → Bool
  | .file _ _ _ => true
  | _ => false

@[simp] theorem DescKind.waits_shape (kind : DescKind) : kind.shape.waits = kind.waits := by
  cases kind <;> rfl

@[simp] theorem DescKind.isFile_shape (kind : DescKind) : kind.shape.isFile = kind.isFile := by
  cases kind <;> rfl

theorem asU32_asI32 (n : ℕ) : asU32 (asI32 n) = n % 2^32 := by
  unfold asU32 asI32
  omega

theorem asI32_small {n : ℕ} (h : n < 2^31) : asI32 n = n := by
  unfold asI32
  omega

theorem lineLength_le (data : Bytes) (count : ℕ) : Machine.lineLength data count ≤ count := by
  unfold Machine.lineLength
  dsimp only
  split
  · rename_i i hi
    have := (List.findIdx?_eq_some_iff_getElem.mp hi).1
    rw [List.length_take] at this
    omega
  · rw [List.length_take]
    omega

/-- Standard input and pipes never hand over more than was asked for. -/
theorem readBytes_count (fd : ℤ) (len : ℕ) {kind : DescKind} (hk : kind.waits = true) (m : Machine)
    (w : W) (hn : m.Names fd kind) {n : ℕ} {buf : Bytes}
    (h : ((readBytes fd len).run (exec x) (m, w)).1 = .ok (n, buf)) : n ≤ len := by
  obtain ⟨e, d, hopen, rfl⟩ := hn
  rw [DescKind.waits_shape] at hk
  unfold readBytes at h
  split at h
  · simp at h
    omega
  simp only [view, act, Program.call_bind, Program.ret_bind, Program.run_call, exec_act, Act.exec,
    hopen, lift_ok] at h
  split at h
  · simp at h
  rcases hkind : d.kind with
    ⟨file, mount, closed⟩ | ⟨entries, pos⟩ | ⟨data, pos⟩ | key | key | _ | which | _ | _ | _ <;>
    rw [hkind] at hk h <;> simp only [DescKind.waits, Bool.false_eq_true] at hk
  · rcases hp : m.shared.pipes.get key with _ | p
    · simp [hp] at h
    · by_cases hd : p.data = []
      · by_cases hw : p.writers = 0
        · simp [hp, hd, hw] at h
          omega
        · by_cases hb : d.isNonblocking = true <;> simp [hp, hd, hw, hb] at h
      · simp [hp, hd, Act.exec] at h
        omega
  · simp at h
  · by_cases hd : m.shared.stdin.data = []
    · by_cases hc : m.shared.stdin.closed = true
      · simp [hd, hc] at h
        omega
      · by_cases hb : d.isNonblocking = true <;> simp [hd, hc, hb] at h
    · have := lineLength_le m.shared.stdin.data len
      simp [hd, Act.exec] at h
      omega

theorem writeBytes_count (fd : ℤ) (data : Bytes) {kind : DescKind} (hk : kind.waits = true)
    (m : Machine) (w : W) (hn : m.Names fd kind) {n : ℕ}
    (h : ((writeBytes fd data).run (exec x) (m, w)).1 = .ok n) : n ≤ pipeCapacity := by
  obtain ⟨e, d, hopen, rfl⟩ := hn
  rw [DescKind.waits_shape] at hk
  unfold writeBytes at h
  simp only [view, act, Program.call_bind, Program.ret_bind, Program.run_call, exec_act, Act.exec,
    hopen, lift_ok] at h
  split at h
  · simp at h
  rcases hkind : d.kind with
    ⟨file, mount, closed⟩ | ⟨entries, pos⟩ | ⟨content, pos⟩ | key | key | _ | which | _ | _ | _ <;>
    rw [hkind] at hk h <;> simp only [DescKind.waits, Bool.false_eq_true] at hk
  · simp at h
  · rcases hp : m.shared.pipes.get key with _ | p
    · simp [hp] at h
    · by_cases hr : p.readers = 0
      · simp [hp, hr] at h
      · by_cases hroom : p.room = 0
        · by_cases hb : d.isNonblocking = true <;> simp [hp, hr, hroom, hb] at h
        · simp [hp, hr, hroom] at h
          unfold Pipe.room at h
          omega
  · simp at h

section
variable {σ : Type}

theorem taken_append (own : List Handle) (vs ws : List (Program.Visit sig σ))
    (h : taken own vs = true) : taken own (vs ++ ws) = true := by
  induction vs generalizing own with
  | nil => simp [taken] at h
  | cons v vs ih =>
    simp only [taken, Bool.or_eq_true] at h
    simp only [List.cons_append, taken, Bool.or_eq_true]
    exact h.imp_right (ih _)

theorem taken_acts (own : List Handle) (vs : List (Program.Visit sig σ))
    {ws : List (Program.Visit sig σ)} (h : ∀ v ∈ ws, v.op.isAct) :
    taken own (vs ++ ws) = taken own vs := by
  induction vs generalizing own with
  | cons v vs ih => simp only [List.cons_append, taken, ih]
  | nil =>
    induction ws with
    | nil => rfl
    | cons v ws ih =>
      obtain ⟨before, _ | a, ans⟩ := v
      · cases h _ (List.mem_cons_self ..)
      · exact ih fun v hv => h v (by simp [hv])

theorem taken_looks (own : List Handle) {looks : List (Program.Visit sig σ)}
    (h : ∀ v ∈ looks, v.op = .act .view) (ws : List (Program.Visit sig σ)) :
    taken own (looks ++ ws) = taken own ws := by
  induction looks with
  | nil => rfl
  | cons v vs ih =>
    obtain ⟨before, op, ans⟩ := v
    obtain rfl : op = .act .view := h ⟨before, op, ans⟩ (by simp)
    exact ih fun v hv => h v (by simp [hv])

theorem after_looks (t : Mark) {looks : List (Program.Visit sig σ)}
    (h : ∀ v ∈ looks, v.op = .act .view) : footprint.after t looks = t := by
  induction looks with
  | nil => rfl
  | cons v vs ih =>
    obtain ⟨before, op, ans⟩ := v
    obtain rfl : op = .act .view := h ⟨before, op, ans⟩ (by simp)
    exact (congrArg (footprint.after · vs) (footprint_silent t (.act .view) ans rfl)).trans
      (ih fun v hv => h v (by simp [hv]))

end

/-- What a call for one segment of `fd` may do, for the loop over segments. -/
structure Serves (fd : ℤ) (io : ℕ → ℕ → Handler ℤ) : Prop where
  streams : ∀ start len, (io start len).Only Op.streams
  names : ∀ start len m w done, len ≠ 0 → ((io start len).run (exec x) (m, w)).1 = .ok done →
    ∃ kind, m.Names fd kind
  count : ∀ start len m w done kind, m.Names fd kind → kind.waits = true →
    ((io start len).run (exec x) (m, w)).1 = .ok done → 0 ≤ done
  prompt : ∀ start len m w kind, len ≠ 0 → m.Names fd kind →
    ((io start len).run (exec x) (m, w)).1 = .error .block → kind.waits = true ∨ kind.isFile = true
  takes : ∀ start len m w done kind, len ≠ 0 → m.Names fd kind → kind.isFile = true →
    ((io start len).run (exec x) (m, w)).1 = .ok done →
      taken [] ((io start len).trace (exec x) (m, w)) = true

namespace Serves
variable {x} {fd : ℤ} {io : ℕ → ℕ → Handler ℤ}

theorem keeps (hio : Serves x fd io) (start len : ℕ) {kind : DescKind} {m : Machine} (w : W)
    (h : m.Names fd kind) : ((io start len).run (exec x) (m, w)).2.1.Names fd kind :=
  (hio.streams start len).final_keeps (exec x) (P := fun s => s.1.Names fd kind)
    (fun o s ho hs => names_streams x o ho fd kind s hs) h

/-- Once something was had of a descriptor that is no file, the loop no longer waits. -/
theorem loop_prompt (hio : Serves x fd io) (vector count index : ℕ) (total : ℤ) (m : Machine) (w : W)
    {kind : DescKind} (hn : m.Names fd kind) (hf : kind.isFile = false)
    (ht : kind.waits = true → 0 < total) :
    ((Sys.vectorLoop io vector count index total).run (exec x) (m, w)).1 ≠ .error .block := by
  induction count generalizing index total m w with
  | zero => simp [Sys.vectorLoop]
  | succ count ih =>
    unfold Sys.vectorLoop
    simp only [view, act, Program.call_bind, Program.ret_bind, Program.run_call, exec_act, Act.exec,
      Machine.view_mem]
    rcases m.inst.mem.u32 (wrapAdd vector (index * 8 % 2^32)) with e | start
    · simp
    rcases m.inst.mem.u32 (wrapAdd (wrapAdd vector (index * 8 % 2^32)) 4) with e | len
    · simp
    simp only [lift_ok, Program.ret_bind]
    by_cases hz : len = 0
    · simpa only [hz, if_true] using ih (index + 1) total m w hn ht
    · rw [if_neg hz, Program.run_bind, Program.run_catching]
      have hkeep := hio.keeps start len w hn
      have hcount := fun done => hio.count start len m w done kind hn
      have hprompt := hio.prompt start len m w kind hz hn
      generalize (io start len).run (exec x) (m, w) = res at hkeep hcount hprompt ⊢
      obtain ⟨fault | done, m', w'⟩ := res
      · dsimp only
        by_cases hpos : 0 < total
        · simp [hpos]
        · have hw : kind.waits = false := by
            rw [← Bool.not_eq_true]
            exact fun h => hpos (ht h)
          simp only [hpos, if_false, Program.run_fail]
          intro hb
          simpa [hw, hf] using hprompt hb
      · dsimp only
        by_cases hshort : asU32 done < len
        · simp [hshort]
        · rw [if_neg hshort]
          refine ih (index + 1) _ m' w' hkeep fun hw => ?_
          have h0 : 0 ≤ done := hcount done hw rfl
          have htotal := ht hw
          unfold satAddI32 i32Min i32Max
          omega

end Serves

theorem run_bind_fst_ok {α β ε : Type} {p : Program sig ε α} {f : α → Program sig ε β}
    {s : Machine × W} {b : β} (h : ((p >>= f).run (exec x) s).1 = .ok b) :
    ∃ a t, p.run (exec x) s = (.ok a, t) ∧ ((f a).run (exec x) t).1 = .ok b := by
  obtain ⟨a, t, hp, hf⟩ := Program.run_bind_eq_ok (exec x) (p := p) (f := f)
    (u := ((p >>= f).run (exec x) s).2) (b := b) (Prod.ext h rfl)
  exact ⟨a, t, hp, by rw [hf]⟩

theorem lift_run_ok {α : Type} {r : Except Errno α} {s : Machine × W} {a : α} {t : Machine × W}
    (h : (lift r).run (exec x) s = (.ok a, t)) : r = .ok a ∧ t = s := by
  cases r with
  | error e => simp at h
  | ok b =>
    simp only [lift_ok, Program.run_ret, Prod.mk.injEq, Except.ok.injEq] at h
    exact ⟨by rw [h.1], h.2.symm⟩

theorem names_of_open {α : Type} {fd : ℤ} {f : View → Fd × Desc → Handler α} {m : Machine} {w : W}
    {a : α} (h : ((view >>= fun v => lift (openFd v fd) >>= f v).run (exec x) (m, w)).1 = .ok a) :
    ∃ kind, m.Names fd kind := by
  obtain ⟨v, t, hv, h⟩ := run_bind_fst_ok x h
  obtain ⟨⟨e, d⟩, t', hopen, -⟩ := run_bind_fst_ok x h
  have : v = m.view := by
    simp only [view, act, Program.run_call, exec_act, Act.exec, Program.run_ret, Prod.mk.injEq,
      Except.ok.injEq] at hv
    exact hv.1.symm
  exact ⟨_, e, d, this ▸ (lift_run_ok x hopen).1, rfl⟩

theorem readBytes_names {fd : ℤ} {len : ℕ} (hl : len ≠ 0) {m : Machine} {w : W} {r : ℕ × Bytes}
    (h : ((readBytes fd len).run (exec x) (m, w)).1 = .ok r) : ∃ kind, m.Names fd kind := by
  unfold readBytes at h
  rw [if_neg hl] at h
  exact names_of_open x h

theorem orVfsFault_ok {α : Type} {r : Except Errno α} {s : Machine × W} {a : α}
    (h : ((orVfsFault r).run (exec x) s).1 = .ok a) : r = .ok a := by
  cases r with
  | ok b => simpa [orVfsFault] using h
  | error e =>
    change ((vfsFault e).run (exec x) s).1 = .ok a at h
    unfold vfsFault at h
    split at h <;> simp at h

theorem fileAsk_takes {file : Handle} {call : FileCall} (hc : call.changes = true)
    {s : Machine × W} {a : call.Ans} (h : ((fileAsk file call).run (exec x) s).1 = .ok a) :
    taken [] ((fileAsk file call).trace (exec x) s) = true := by
  have hans : (x.file file call s.2).1 = .ok a := orVfsFault_ok x h
  have htake : Op.takes [] (.env (.file file call)) (exec x (.env (.file file call)) s).1 = true := by
    change (call.changes && (x.file file call s.2).1.isOk && !([] : List Handle).contains file) = true
    simp [hc, hans, Except.isOk, Except.toBool]
  simp only [fileAsk, env, Program.call_bind, Program.trace, taken, htake, Bool.true_or]

/-- A read that a file served took from it. -/
theorem readBytes_takes {fd : ℤ} {len : ℕ} (hl : len ≠ 0) {m : Machine} {w : W} {kind : DescKind}
    (hn : m.Names fd kind) (hf : kind.isFile = true) {r : ℕ × Bytes}
    (h : ((readBytes fd len).run (exec x) (m, w)).1 = .ok r) :
    taken [] ((readBytes fd len).trace (exec x) (m, w)) = true := by
  obtain ⟨e, d, hopen, rfl⟩ := hn
  rw [DescKind.isFile_shape] at hf
  unfold readBytes at h ⊢
  rw [if_neg hl] at h ⊢
  simp only [view, act, Program.call_bind, Program.ret_bind, Program.run_call, exec_act, Act.exec,
    hopen, lift_ok, Program.trace] at h ⊢
  rcases hr : d.readable with _ | _
  · simp [hr] at h
  simp only [hr, Bool.not_true, Bool.false_eq_true, if_false] at h ⊢
  rcases hk : d.kind with ⟨file, mount, closed⟩ | _ <;> rw [hk] at hf <;>
    simp only [DescKind.isFile, Bool.false_eq_true] at hf
  simp only [hk] at h ⊢
  obtain ⟨a, t, hask, -⟩ := run_bind_fst_ok x h
  rw [Program.trace_bind]
  change taken [] ((fileAsk file (.read len)).trace (exec x) (m, w) ++ _) = true
  exact taken_append _ _ _ (fileAsk_takes x rfl (congrArg Prod.fst hask))

theorem writeBytes_takes {fd : ℤ} {data : Bytes} {m : Machine} {w : W} {kind : DescKind}
    (hn : m.Names fd kind) (hf : kind.isFile = true) {n : ℕ}
    (h : ((writeBytes fd data).run (exec x) (m, w)).1 = .ok n) :
    taken [] ((writeBytes fd data).trace (exec x) (m, w)) = true := by
  obtain ⟨e, d, hopen, rfl⟩ := hn
  rw [DescKind.isFile_shape] at hf
  unfold writeBytes at h ⊢
  simp only [view, act, Program.call_bind, Program.ret_bind, Program.run_call, exec_act, Act.exec,
    hopen, lift_ok, Program.trace] at h ⊢
  rcases hr : d.writable with _ | _
  · simp [hr] at h
  simp only [hr, Bool.not_true, Bool.false_eq_true, if_false] at h ⊢
  rcases hk : d.kind with ⟨file, mount, closed⟩ | _ <;> rw [hk] at hf <;>
    simp only [DescKind.isFile, Bool.false_eq_true] at hf
  simp only [hk] at h ⊢
  by_cases hro : m.view.isReadOnly mount = true
  · simp [hro] at h
  · simp only [Bool.not_eq_true] at hro
    simp only [hro, Bool.false_eq_true, if_false] at h ⊢
    change taken [] ((fileAsk file (.write data)).trace (exec x) (m, w)) = true
    exact fileAsk_takes x rfl h

namespace Sys

theorem read_ok {fd : ℤ} {start len : ℕ} (hl : len ≠ 0) {m : Machine} {w : W} {done : ℤ}
    (h : ((read fd start len).run (exec x) (m, w)).1 = .ok done) :
    ∃ n buf t, (readBytes fd (min len (2^20))).run (exec x) (m, w) = (.ok (n, buf), t) ∧
      done = asI32 n := by
  unfold read at h
  rw [if_neg hl] at h
  obtain ⟨⟨n, buf⟩, t, hread, h⟩ := run_bind_fst_ok x h
  obtain ⟨-, t', -, h⟩ := run_bind_fst_ok x h
  simp only [Program.pure_eq, Program.run_ret, Except.ok.injEq] at h
  exact ⟨n, buf, t, hread, h.symm⟩

theorem serves_read (fd : ℤ) : Serves x fd (read fd) where
  streams := only_read fd
  names start len m w done hl h := by
    obtain ⟨n, buf, t, hread, -⟩ := read_ok x hl h
    have hmin : min len (2^20) ≠ 0 := by omega
    exact readBytes_names x hmin (congrArg Prod.fst hread)
  count start len m w done kind hn hw h := by
    by_cases hl : len = 0
    · unfold read at h
      simp only [hl, if_true, Program.pure_eq, Program.run_ret, Except.ok.injEq] at h
      omega
    · obtain ⟨n, buf, t, hread, hdone⟩ := read_ok x hl h
      have hcount := readBytes_count x fd (min len (2^20)) hw m w hn (congrArg Prod.fst hread)
      have hsmall : n < 2^31 := by omega
      rw [hdone, asI32_small hsmall]
      omega
  prompt start len m w kind hl hn h := by
    obtain ⟨e, d, hopen, -, hd⟩ := (read_blocks x fd start len hl m w).mp h
    obtain ⟨e', d', hopen', rfl⟩ := hn
    rw [hopen] at hopen'
    cases hopen'
    rw [DescKind.waits_shape, DescKind.isFile_shape]
    revert hd
    cases d.kind <;> simp [DescKind.waits, DescKind.isFile]
  takes start len m w done kind hl hn hf h := by
    obtain ⟨n, buf, t, hread, -⟩ := read_ok x hl h
    have hmin : min len (2^20) ≠ 0 := by omega
    unfold read
    rw [if_neg hl, Program.trace_bind]
    exact taken_append _ _ _ (readBytes_takes x hmin hn hf (congrArg Prod.fst hread))

theorem write_ok {fd : ℤ} {start len : ℕ} {m : Machine} {w : W} {done : ℤ}
    (h : ((write fd start len).run (exec x) (m, w)).1 = .ok done) :
    ∃ data n, m.inst.mem.bytes start len = .ok data ∧
      ((writeBytes fd data).run (exec x) (m, w)).1 = .ok n ∧ done = asI32 n := by
  unfold write at h
  simp only [view, act, Program.call_bind, Program.ret_bind, Program.run_call, exec_act, Act.exec,
    Machine.view_mem] at h
  rcases hdata : m.inst.mem.bytes start len with e | data <;> rw [hdata] at h
  · simp at h
  · rw [lift_ok, Program.ret_bind] at h
    obtain ⟨n, t, hwrite, h⟩ := run_bind_fst_ok x h
    simp only [Program.pure_eq, Program.run_ret, Except.ok.injEq] at h
    exact ⟨data, n, rfl, congrArg Prod.fst hwrite, h.symm⟩

theorem serves_write (fd : ℤ) : Serves x fd (write fd) where
  streams := only_write fd
  names start len m w done _ h := by
    obtain ⟨data, n, -, hwrite, -⟩ := write_ok x h
    exact names_of_open x hwrite
  count start len m w done kind hn hw h := by
    obtain ⟨data, n, -, hwrite, hdone⟩ := write_ok x h
    have hcount := writeBytes_count x fd data hw m w hn hwrite
    have hsmall : n < 2^31 := by unfold pipeCapacity at hcount; omega
    rw [hdone, asI32_small hsmall]
    omega
  prompt start len m w kind hl hn h := by
    obtain ⟨data, -, e, d, hopen, -, hd⟩ := (write_blocks x fd start len m w).mp h
    obtain ⟨e', d', hopen', rfl⟩ := hn
    rw [hopen] at hopen'
    cases hopen'
    rw [DescKind.waits_shape, DescKind.isFile_shape]
    revert hd
    cases d.kind <;> simp [DescKind.waits, DescKind.isFile]
  takes start len m w done kind hl hn hf h := by
    obtain ⟨data, n, hdata, hwrite, -⟩ := write_ok x h
    unfold write
    simp only [view, act, Program.call_bind, Program.ret_bind, exec_act, Act.exec, Machine.view_mem,
      Program.trace, hdata, lift_ok]
    rw [Program.trace_bind]
    change taken [] ((writeBytes fd data).trace (exec x) (m, w) ++ _) = true
    exact taken_append _ _ _ (writeBytes_takes x hn hf hwrite)

end Sys

/-- What reads and writes does not change how much memory there is. -/
theorem size_streams (o : Op) (ho : o.streams) (s : Machine × W) :
    (exec x o s).2.1.inst.mem.size = s.1.inst.mem.size := by
  cases o with
  | env c => rfl
  | act a =>
    cases a with
    | put start data =>
      simp only [exec_act, Act.exec]
      split
      · rename_i mem h
        unfold Mem.put at h
        split at h
        · cases h
          rfl
        · cases h
      · rfl
    | writeOutput which data =>
      simp only [exec_act, Act.exec, Shared.writeOutput]
      split <;> rfl
    | view | setDescPos | stdinTake | pipeTake | pipePut | raise | wantStdin | noteVfsPending => rfl
    | _ => cases ho

theorem size_of_only {α : Type} {p : Handler α} (hp : p.Only Op.streams) {s t : Machine × W}
    {r : Except Fault α} (h : p.run (exec x) s = (r, t)) :
    t.1.inst.mem.size = s.1.inst.mem.size := by
  have := hp.final_keeps (exec x) (P := fun u => u.1.inst.mem.size = s.1.inst.mem.size)
    (fun o u ho hu => (size_streams x o ho u).trans hu) (s := s) rfl
  rwa [Program.final, h] at this

theorem memGrow_size {pages previous : ℕ} {s t : Machine × W}
    (h : (memGrow pages).run (exec x) s = (.ok (some previous), t)) :
    t.1.inst.mem.size = s.1.inst.mem.size + pages * page := by
  obtain ⟨v, s₁, hv, h⟩ := Program.run_bind_eq_ok (exec x) h
  obtain ⟨granted, s₂, hg, h⟩ := Program.run_bind_eq_ok (exec x) h
  cases hv
  cases hg
  split at h
  · cases h
    rfl
  · cases h

theorem chargeAndGrow_size {pages previous : ℕ} {s t : Machine × W}
    (h : (chargeAndGrow pages).run (exec x) s = (.ok (some previous), t)) :
    t.1.inst.mem.size = s.1.inst.mem.size + pages * page := by
  obtain ⟨charged, s₁, hc, h⟩ := Program.run_bind_eq_ok (exec x) h
  cases hc
  split at h
  · obtain ⟨grown, s₂, hg, h⟩ := Program.run_bind_eq_ok (exec x) h
    cases grown with
    | none => cases h
    | some previous' =>
      cases h
      have hgrow := memGrow_size x hg
      exact hgrow
  · cases h

/-- A file mapping asks only the file. -/
theorem only_readMapping {A : Op → Prop} (henv : ∀ c, A (.env c)) (file : Handle)
    (offset length : ℕ) : (Sys.readMapping file offset length).Only A := by
  have hfill : ∀ (turns : ℕ) (buffer : Bytes) (filled : ℕ),
      (Sys.fillFrom file turns buffer filled).Only A := by
    intro turns
    induction turns with
    | zero => exact fun _ _ => trivial
    | succ turns ih =>
      intro buffer filled
      unfold Sys.fillFrom
      split
      · trivial
      · refine ⟨henv _, fun r => ?_⟩
        rcases r with e | ⟨n, window⟩
        · trivial
        · dsimp only [Program.bind]
          split
          · trivial
          · exact ih _ _
  have hask : ∀ call, (Sys.askFile file call).Only A := fun call =>
    ⟨henv _, fun r => by cases r <;> trivial⟩
  exact Program.only_bind (hask _) fun _ => Program.only_bind (hask _) fun _ =>
    Program.only_bind (hfill _ _ _) fun _ => ⟨henv _, fun _ => trivial⟩

/-- Asking for a file's bytes, and storing them, leaves the memory its size. -/
theorem only_mapping (file : Handle) (offset length start : ℕ) :
    (do
      let buffer ← orVfsFault (← (Sys.readMapping file offset length).catching)
      put start buffer
      return asI32 start : Handler ℤ).Only Op.streams := by
  refine Program.only_bind
    (Program.only_catching (only_readMapping (fun _ => trivial) _ _ _)) fun r => ?_
  refine Program.only_bind ?_ fun _ => Program.only_bind
    (Program.only_bind (only_act _ rfl) only_lift) fun _ => trivial
  rcases r with e | buffer
  · change (vfsFault e).Only Op.streams
    unfold vfsFault
    split
    · exact ⟨rfl, fun _ => trivial⟩
    · trivial
  · trivial

/-- A mapping that has to wait has grown the memory. -/
theorem mmap_grows (a : Args) {s t : Machine × W}
    (h : (Sys.mmap a).run (exec x) s = (.error .block, t)) :
    s.1.inst.mem.size < t.1.inst.mem.size := by
  have notSteady : ∀ {R} {α : Type} {p : Handler α} {s}, SteadyIn R p →
      p.run (exec x) s ≠ (.error .block, t) := fun hp h => hp.never_blocks x _ (congrArg Prod.fst h)
  unfold Sys.mmap at h
  dsimp only at h
  split at h
  · cases h
  rename_i hlen
  split at h
  · cases h
  obtain hv | ⟨v, s₁, hv, h⟩ := Program.run_bind_eq_error (exec x) h
  · cases hv
  cases hv
  split at h
  · cases h
  obtain hg | ⟨grown, s₁, hg, h⟩ := Program.run_bind_eq_error (exec x) h
  · exact absurd hg (notSteady (steady_chargeAndGrow _))
  cases grown with
  | none => cases h
  | some previous =>
    have hsize := chargeAndGrow_size x hg
    have hpages : 0 < divCeil (asU32 a.a1) page * page := by
      unfold divCeil page
      omega
    have htail : t.1.inst.mem.size = s₁.1.inst.mem.size := by
      dsimp only at h
      split at h
      · cases h
      obtain hopen | ⟨⟨e, d⟩, s₂, hopen, hrest⟩ := Program.run_bind_eq_error (exec x) h
      · exact absurd hopen (notSteady (steady_lift _))
      obtain ⟨-, rfl⟩ := lift_run_ok x hopen
      split at hrest
      · exact size_of_only x (only_mapping _ _ _ _) hrest
      · cases hrest
    change _ = s.1.inst.mem.size + _ at hsize
    omega

variable {ε : Type}

theorem dispatch_blocked {number : ℤ} {a : Args} {m : Machine} {w : W} {t : Machine × W}
    (h : (dispatch number a : Program sig ε Outcome).run (exec x) (m, w) = (.ok .blocked, t)) :
    (handle number a).run (exec x) (m.counted, w) = (.error .block, t) := by
  rw [run_dispatch] at h
  obtain ⟨hr, ht⟩ := conclude_blocked x h
  exact Prod.ext hr ht

/-- The end of a call is all acts. -/
theorem only_conclude (r : Except Fault ℤ) : (conclude r : Program sig ε Outcome).Only Op.isAct := by
  have act' : ∀ a : Act, (act a : Program sig ε a.Ans).Only Op.isAct :=
    fun a => ⟨trivial, fun _ => trivial⟩
  have finish' : (finish : Program sig ε Unit).Only Op.isAct := by
    refine Program.only_bind (act' _) fun _ => Program.only_bind (act' _) fun v => ?_
    split
    · trivial
    · exact Program.only_bind (act' _) fun _ => trivial
  rcases r with fault | value
  · cases fault with
    | errno e => exact Program.only_bind finish' fun _ => trivial
    | block =>
      refine Program.only_bind (act' _) fun v => ?_
      split
      · exact Program.only_bind finish' fun _ => trivial
      · trivial
    | exit status => trivial
    | exec => trivial
  · exact Program.only_bind finish' fun _ => trivial

theorem taken_dispatch {number : ℤ} {a : Args} {m : Machine} {w : W} {t : Machine × W}
    (h : (dispatch number a : Program sig ε Outcome).run (exec x) (m, w) = (.ok .blocked, t)) :
    taken [] ((dispatch number a : Program sig ε Outcome).trace (exec x) (m, w)) =
      taken [] ((handle number a).trace (exec x) (m.counted, w)) := by
  have hblock := dispatch_blocked x h
  unfold dispatch
  rw [Program.trace_bind]
  change taken [] (((handle number a).catching >>= conclude).trace (exec x) (m.counted, w)) = _
  rw [Program.trace_bind, Program.trace_catching, Program.run_catching, hblock]
  refine taken_acts _ _ fun v hv => ?_
  exact (Program.along_iff_trace (exec x) _ _ _).mp ((only_conclude _).along (exec x) t) v hv

/-- What a blocked call left as it was: the state but for the waiting, and
every mount and file. -/
def Unconsumed (ε : Type) (number : ℤ) (a : Args) (m : Machine) (w : W) : Prop :=
  ((dispatch number a : Program sig ε Outcome).run (exec x) (m, w)).2.1.bare = m.bare ∧
    taken [] ((dispatch number a : Program sig ε Outcome).trace (exec x) (m, w)) = false

/-- No mapping, and nothing served before the wait: where a call goes over
segments, it is the first of them that is not empty that has to wait. -/
structure Clean (number : ℤ) (a : Args) (m : Machine) (w : W) : Prop where
  mmap : Nr.ofInt number ≠ .mmap
  readv : Nr.ofInt number = .readv → ∀ start len,
    Sys.firstSegment m.inst.mem (asU32 a.a1) (max a.a2 0).toNat 0 = some (start, len) →
      ReadWaits x a.a0 (min len (2^20)) m w
  writev : Nr.ofInt number = .writev → ∀ start len,
    Sys.firstSegment m.inst.mem (asU32 a.a1) (max a.a2 0).toNat 0 = some (start, len) →
      ∃ data, m.inst.mem.bytes start len = .ok data ∧ WriteWaits x a.a0 data m w

theorem Nr.kind_loose {n : Nr} (hm : n ≠ .mmap) (hr : n ≠ .readv) (hw : n ≠ .writev) :
    n.kind.loose = false := by
  cases n <;> first | rfl | contradiction

theorem handle_mmap {number : ℤ} (h : Nr.ofInt number = .mmap) (a : Args) :
    handle number a = Sys.mmap a := by
  unfold handle
  rw [h]

theorem handle_readv {number : ℤ} (h : Nr.ofInt number = .readv) (a : Args) :
    handle number a = Sys.readv a := by
  unfold handle
  rw [h]

theorem handle_writev {number : ℤ} (h : Nr.ofInt number = .writev) (a : Args) :
    handle number a = Sys.writev a := by
  unfold handle
  rw [h]

theorem Calm.ended {κ : Kind} {α : Type} {p : Handler α} (hp : Calm κ p) (s : Machine × W) :
    Ended κ Mark.clear (footprint.after Mark.clear (p.trace (exec x) s)) (p.run (exec x) s).1 :=
  Program.sat_run (exec x) (P := fun _ => True) (fun _ _ _ => ⟨trivial, trivial⟩)
    (hp Mark.clear rfl rfl) trivial

theorem vectorLoop_unmarked {io : ℕ → ℕ → Handler ℤ} (hio : ∀ start len, Calm .plain (io start len))
    {vector count index : ℕ} {m : Machine} {w : W} {start len : ℕ}
    (hfirst : Sys.firstSegment m.inst.mem vector count index = some (start, len))
    (h : ((io start len).run (exec x) (m, w)).1 = .error .block) :
    (footprint.after Mark.clear
      ((Sys.vectorLoop io vector count index 0).trace (exec x) (m, w))).busy = false := by
  obtain ⟨-, count', index', looks, -, htrace, hlooks⟩ :=
    Sys.vectorLoop_first x io vector count index 0 m w hfirst
  rw [htrace, Program.after_append, after_looks _ hlooks, Program.trace_bind, Program.trace_catching,
    Program.run_catching]
  simp only [h, Sys.vectorNext, Int.lt_irrefl, if_false, Program.trace, List.append_nil]
  exact ((hio start len).ended x (m, w)).busy rfl h

/-- A loop that has to wait and has taken nothing waits for its first segment. -/
theorem vectorLoop_waits {fd : ℤ} {io : ℕ → ℕ → Handler ℤ} (hio : Serves x fd io)
    {vector count index : ℕ} {m : Machine} {w : W} {start len : ℕ}
    (hfirst : Sys.firstSegment m.inst.mem vector count index = some (start, len))
    (hblock : ((Sys.vectorLoop io vector count index 0).run (exec x) (m, w)).1 = .error .block)
    (htaken : taken [] ((Sys.vectorLoop io vector count index 0).trace (exec x) (m, w)) = false) :
    ((io start len).run (exec x) (m, w)).1 = .error .block := by
  obtain ⟨hlen, count', index', looks, hrun, htrace, hlooks⟩ :=
    Sys.vectorLoop_first x io vector count index 0 m w hfirst
  rw [hrun, Program.run_bind, Program.run_catching] at hblock
  rw [htrace, taken_looks _ hlooks, Program.trace_bind, Program.trace_catching] at htaken
  rcases hr : ((io start len).run (exec x) (m, w)).1 with fault | done
  · simp only [hr, Sys.vectorNext, Int.lt_irrefl, if_false, Program.run_fail] at hblock
    exact hblock
  · simp only [hr, Sys.vectorNext] at hblock
    split at hblock
    · cases hblock
    · rename_i hlong
      obtain ⟨kind, hn⟩ := hio.names start len m w done hlen hr
      -- A file that was served was taken from, and nothing else is waited for after that.
      have hf : kind.isFile = false := by
        rw [← Bool.not_eq_true]
        intro hf
        rw [taken_append [] _ _ (hio.takes start len m w done kind hlen hn hf hr)] at htaken
        cases htaken
      refine absurd hblock (hio.loop_prompt _ _ _ _ _ _ (hio.keeps start len w hn) hf fun hw => ?_)
      have h0 : 0 ≤ done := hio.count start len m w done kind hn hw hr
      have hpos : 0 < done := by
        unfold asU32 at hlong
        omega
      unfold satAddI32 i32Min i32Max
      omega

/-- A clean call that has to wait has marked nothing. -/
theorem Clean.unmarked {number : ℤ} {a : Args} {m : Machine} {w : W} (hclean : Clean x number a m w)
    (h : ((handle number a).run (exec x) (m.counted, w)).1 = .error .block) :
    (footprint.after Mark.clear ((handle number a).trace (exec x) (m.counted, w))).busy = false := by
  obtain ⟨hm, hr, hw⟩ := hclean
  by_cases hnr : Nr.ofInt number = .readv
  · rw [handle_readv hnr] at h ⊢
    rcases hseg : Sys.firstSegment m.inst.mem (asU32 a.a1) (max a.a2 0).toNat 0 with _ | ⟨start, len⟩
    · exact absurd h (Sys.vectorLoop_none x _ _ _ _ _ m.counted w hseg)
    · have hlen := (Sys.vectorLoop_first x (Sys.read a.a0) _ _ _ 0 m.counted w hseg).1
      exact vectorLoop_unmarked x (fun _ _ => Sys.calm_read _ _ _) (m := m.counted) hseg
        ((Sys.read_blocks x a.a0 start len hlen m.counted w).mpr (hr hnr start len hseg))
  by_cases hnw : Nr.ofInt number = .writev
  · rw [handle_writev hnw] at h ⊢
    rcases hseg : Sys.firstSegment m.inst.mem (asU32 a.a1) (max a.a2 0).toNat 0 with _ | ⟨start, len⟩
    · exact absurd h (Sys.vectorLoop_none x _ _ _ _ _ m.counted w hseg)
    · exact vectorLoop_unmarked x (fun _ _ => Sys.calm_write _ _ _) (m := m.counted) hseg
        ((Sys.write_blocks x a.a0 start len m.counted w).mpr (hw hnw start len hseg))
  · exact ((calm_handle number a).ended x _).busy (Nr.kind_loose hm hnr hnw) h

theorem unconsumed_of_unmarked {number : ℤ} {a : Args} {m : Machine} {w : W} {t : Machine × W}
    (h : (dispatch number a : Program sig ε Outcome).run (exec x) (m, w) = (.ok .blocked, t))
    (hbusy : (footprint.after Mark.clear
      ((handle number a).trace (exec x) (m.counted, w))).busy = false) :
    Unconsumed x ε number a m w := by
  have hbare := (kept_of_unmarked x (handle number a) Mark.clear (m.counted, w) hbusy).1
  have htaken := (taken_of_unmarked Mark.clear _ hbusy).2
  rw [dispatch_blocked x h] at hbare
  constructor
  · rw [h]
    exact hbare
  · rw [taken_dispatch x h]
    exact htaken

/-- A blocked call has consumed nothing when it is clean, and only then. -/
theorem unconsumed_iff {number : ℤ} {a : Args} {m : Machine} {w : W} {t : Machine × W}
    (h : (dispatch number a : Program sig ε Outcome).run (exec x) (m, w) = (.ok .blocked, t)) :
    Unconsumed x ε number a m w ↔ Clean x number a m w := by
  have hblock := dispatch_blocked x h
  have hfirst := congrArg Prod.fst hblock
  constructor
  · rintro ⟨hbare, htaken⟩
    rw [h] at hbare
    rw [taken_dispatch x h] at htaken
    refine ⟨fun hn => ?_, fun hn start len hseg => ?_, fun hn start len hseg => ?_⟩
    · rw [handle_mmap hn] at hblock
      have hgrow := mmap_grows x a hblock
      have hsame := congrArg (fun m : Machine => m.inst.mem.size) hbare
      change t.1.inst.mem.size = m.inst.mem.size at hsame
      change m.inst.mem.size < t.1.inst.mem.size at hgrow
      omega
    · rw [handle_readv hn] at hfirst htaken
      have hlen := (Sys.vectorLoop_first x (Sys.read a.a0) _ _ _ 0 m.counted w hseg).1
      exact (Sys.read_blocks x a.a0 start len hlen m.counted w).mp
        (vectorLoop_waits x (Sys.serves_read x a.a0) hseg hfirst htaken)
    · rw [handle_writev hn] at hfirst htaken
      exact (Sys.write_blocks x a.a0 start len m.counted w).mp
        (vectorLoop_waits x (Sys.serves_write x a.a0) hseg hfirst htaken)
  · exact fun hclean => unconsumed_of_unmarked x h (hclean.unmarked x hfirst)

/-- Attempts at one call that all had to wait, with time passing in between. -/
inductive Attempts (ε : Type) (number : ℤ) (a : Args) (m : Machine) : Machine → Prop
  | none : Attempts ε number a m m
  | again (m' m'' : Machine) (w w' : W) : Attempts ε number a m m' → Clean x number a m' w →
      (dispatch number a : Program sig ε Outcome).run (exec x) (m', w) = (.ok .blocked, m'', w') →
      Attempts ε number a m m''

/-- A machine with the deadline another attempt has set. -/
def Machine.since (m m' : Machine) : Machine :=
  { m with ctx := { m.ctx with exec := { m.ctx.exec with deadline := m'.ctx.exec.deadline } } }

theorem Attempts.kept {number : ℤ} {a : Args} {m m' : Machine} (h : Attempts x ε number a m m') :
    m'.bare = m.bare ∧
      ((Nr.ofInt number).kind.masks = false → m'.undated = m.undated) ∧
      ((Nr.ofInt number).kind.timed = false → m'.ctx.exec.deadline = m.ctx.exec.deadline) := by
  induction h with
  | none => exact ⟨rfl, fun _ => rfl, fun _ => rfl⟩
  | again m' m'' w w' _ hclean hr ih =>
    have hblock := dispatch_blocked x hr
    have hbusy := hclean.unmarked x (congrArg Prod.fst hblock)
    have hkept := kept_of_unmarked x (handle number a) Mark.clear (m'.counted, w) hbusy
    have hended := (calm_handle number a).ended x (m'.counted, w)
    rw [hblock] at hkept
    exact ⟨hkept.1.trans ih.1, fun h => (hkept.2.1 (hended.masked h)).trans (ih.2.1 h),
      fun h => (hkept.2.2 (hended.timed h)).trans (ih.2.2 h)⟩

theorem Machine.Alike.bare {m m' : Machine} (h : m.Alike m') : m.bare = m'.bare :=
  congrArg (fun q : Machine => { q with ctx := { q.ctx with
    task := { q.ctx.task with sigmask := q.ctx.ownMask }
    exec := { q.ctx.exec with deadline := none, maskToRestore := none } } }) h

theorem Machine.alike_since {m m' : Machine} (h : m'.undated = m.undated) : m'.Alike (m.since m') := by
  have := congrArg (fun q : Machine => q.since m') h
  exact this

/-- Two runs that answer alike and leave the same behind, but for the waiting. -/
def Agree {α : Type} (p : Program sig ε α) (m m' : Machine) (w : W) : Prop :=
  (p.run (exec x) (m, w)).1 = (p.run (exec x) (m', w)).1 ∧
    (p.run (exec x) (m, w)).2.2 = (p.run (exec x) (m', w)).2.2 ∧
    (p.run (exec x) (m, w)).2.1.bare = (p.run (exec x) (m', w)).2.1.bare

theorem Machine.Alike.agree {α : Type} {m m' : Machine} (h : m.Alike m') (p : Program sig ε α) (w : W) :
    Agree x p m m' w := by
  obtain ⟨h1, h2, h3⟩ := Machine.run_alike x p h w
  exact ⟨h1, h2, h3.bare⟩

/-- A call that lends itself a mask does so again at each attempt. -/
theorem agree_sigsuspend {number : ℤ} (hn : Nr.ofInt number = .rtSigsuspend) (a : Args)
    {m m' : Machine} (hb : m'.bare = m.bare) (hd : m'.ctx.exec.deadline = m.ctx.exec.deadline) (w : W) :
    Agree x (dispatch number a : Program sig ε Outcome) m' m w := by
  have hmem : m'.bare.inst.mem = m.bare.inst.mem := by rw [hb]
  have settled : (Act.exec .settle m'.counted).2.Alike (Act.exec .settle m.counted).2 := hb
  have suspended : ∀ mask, (Act.exec (.suspendMask mask) m'.counted).2.Alike
      (Act.exec (.suspendMask mask) m.counted).2 := by
    intro mask
    have hquiet : ∀ m : Machine, (Act.exec (.suspendMask mask) m.counted).2.quiet =
        { m.bare with ctx := { m.bare.ctx with
          task := { m.bare.ctx.task with sigmask := mask }
          exec := { m.bare.ctx.exec with
            deadline := m.ctx.exec.deadline
            maskToRestore := some m.bare.ctx.task.sigmask } } } := by
      intro m
      rcases m with ⟨⟨task, argv, envp, request, stack, exec⟩, sh, inst⟩
      rcases exec with ⟨data, rewinding, value, sp, suspension, bufs, flag, deadline, _ | old, grown⟩ <;> rfl
    rw [Machine.Alike, hquiet, hquiet, hb, hd]
  have hhandle : handle number a = Sys.rtSigsuspend a := by
    unfold handle
    rw [hn]
  have look : ∀ m : Machine, (dispatch number a : Program sig ε Outcome).run (exec x) (m, w) =
      ((lift (m.inst.mem.u64 (asU32 a.a0)) >>= fun mask =>
        act (.suspendMask (BitVec.ofNat 64 mask)) >>= fun _ =>
        view >>= fun v => if v.live ≠ 0 then fail .intr else .fail .block : Handler ℤ).catching >>=
          conclude : Program sig ε Outcome).run (exec x) (m.counted, w) := by
    intro m
    unfold dispatch
    rw [hhandle]
    rfl
  have refused : ∀ (e : Errno) (m : Machine), m.inst.mem.u64 (asU32 a.a0) = .error e →
      (dispatch number a : Program sig ε Outcome).run (exec x) (m, w) =
        (raiseSignalFlag >>= fun _ => .ret (Outcome.value e.asNeg) : Program sig ε Outcome).run
          (exec x) ((Act.exec .settle m.counted).2, w) := by
    intro e m he
    rw [look m, he]
    rfl
  have allowed : ∀ (mask : ℕ) (m : Machine), m.inst.mem.u64 (asU32 a.a0) = .ok mask →
      (dispatch number a : Program sig ε Outcome).run (exec x) (m, w) =
        ((view >>= fun v => if v.live ≠ 0 then fail .intr else .fail .block : Handler ℤ).catching >>=
          conclude : Program sig ε Outcome).run (exec x)
            ((Act.exec (.suspendMask (BitVec.ofNat 64 mask)) m.counted).2, w) := by
    intro mask m hmask
    rw [look m, hmask]
    rfl
  unfold Agree
  cases hr : m.inst.mem.u64 (asU32 a.a0) with
  | error e =>
    rw [refused e m' ((congrArg (Mem.u64 · _) hmem).trans hr), refused e m hr]
    exact settled.agree x _ w
  | ok mask =>
    rw [allowed mask m' ((congrArg (Mem.u64 · _) hmem).trans hr), allowed mask m hr]
    exact (suspended (BitVec.ofNat 64 mask)).agree x _ w

theorem Nr.kind_masks {n : Nr} (h : n ≠ .rtSigsuspend) : n.kind.masks = false := by
  cases n <;> first | rfl | contradiction

theorem Attempts.agree {number : ℤ} {a : Args} {m m' : Machine} (h : Attempts x ε number a m m') (w : W) :
    Agree x (dispatch number a : Program sig ε Outcome) m' (m.since m') w := by
  obtain ⟨hb, hu, hd⟩ := h.kept
  by_cases hn : Nr.ofInt number = .rtSigsuspend
  · exact agree_sigsuspend x hn a (m := m.since m') hb rfl w
  · exact (Machine.alike_since (hu (Nr.kind_masks hn))).agree x _ w

/-- A blocked syscall has consumed nothing exactly when it is clean, and a
clean call can be served again and again before it succeeds. -/
theorem blocked_consumes_nothing (number : ℤ) (a : Args) :
    (∀ (m m' : Machine) (w w' : W),
      (dispatch number a : Program sig ε Outcome).run (exec x) (m, w) = (.ok .blocked, m', w') →
        (Unconsumed x ε number a m w ↔ Clean x number a m w)) ∧
    ∀ m m' : Machine, Attempts x ε number a m m' →
      ((Nr.ofInt number).kind.timed = false → m.since m' = m) ∧
        ∀ w, Agree x (dispatch number a : Program sig ε Outcome) m' (m.since m') w :=
  ⟨fun _ _ _ _ h => unconsumed_iff x h, fun m _ h =>
    ⟨fun ht => congrArg (fun d => ({ m with ctx := { m.ctx with
      exec := { m.ctx.exec with deadline := d } } } : Machine)) (h.kept.2.2 ht), h.agree x⟩⟩

end

def Env.slowFile : Env (List GuestRun) := .oneFile [] fun call => match call with
  | .seek _ => .ok (0 : ℕ)
  | .close => .ok ()
  | _ => .error .again

/-- A guest that has opened such a file reads it in vain, and nothing is lost. -/
theorem blocked_consumes_nothing_read : ∃ (k : Kernel) (w : List GuestRun) (p : Proc),
    Reached Env.slowFile (fun _ _ => True) k w ∧ k.procs[0]? = some p ∧
      ((dispatch 63 ⟨3, 200, 8, 0, 0, 0⟩ : Program sig Stop Outcome).run (exec Env.slowFile)
        (k.machineOf p, w)).1 = .ok .blocked ∧ Unconsumed Env.slowFile Stop 63 ⟨3, 200, 8, 0, 0,
        0⟩ (k.machineOf p) w := by
  have hopen : Config.oneMount.drive Env.slowFile [⟨[.syscall 56 0, .setjmp 0], none⟩] 2
      [⟨some 0, none⟩] = some (_, _) := rfl
  obtain ⟨k, w, p, hreached, hp, m, w', hrun⟩ : ∃ (k : Kernel) (w : List GuestRun) (p : Proc),
      Reached Env.slowFile (fun _ _ => True) k w ∧ k.procs[0]? = some p ∧ ∃ m w',
      (dispatch 63 ⟨3, 200, 8, 0, 0, 0⟩ : Program sig Stop Outcome).run (exec Env.slowFile)
        (k.machineOf p, w) =
        (.ok .blocked, m, w') := ⟨_, _, _, .between _ _ (between_drive hopen), rfl, _, _, rfl⟩
  have hclean : Clean Env.slowFile 63 ⟨3, 200, 8, 0, 0, 0⟩ (k.machineOf p) w :=
    ⟨by decide, fun h => absurd h (by decide), fun h => absurd h (by decide)⟩
  refine ⟨k, w, p, hreached, hp, congrArg Prod.fst hrun, ?_⟩
  exact ((blocked_consumes_nothing _ 63 ⟨3, 200, 8, 0, 0, 0⟩).1 _ _ _ _ hrun).mpr hclean

/-- A guest that has opened such a file maps it, and its memory has grown by
the time it has to wait. -/
theorem mmap_blocked_has_grown : ∃ (k : Kernel) (w : List GuestRun) (p : Proc),
    Reached Env.slowFile (fun _ _ => True) k w ∧ k.procs[0]? = some p ∧
      ((dispatch 222 ⟨0, 1, 0, 2, 3, 0⟩ : Program sig Stop Outcome).run (exec Env.slowFile)
        (k.machineOf p, w)).1 = .ok .blocked ∧
      ¬ Unconsumed Env.slowFile Stop 222 ⟨0, 1, 0, 2, 3, 0⟩ (k.machineOf p) w := by
  have hopen : Config.oneMount.drive Env.slowFile [⟨[.syscall 56 0, .setjmp 0], none⟩] 2
      [⟨some 0, none⟩] = some (_, _) := rfl
  refine ⟨_, _, _, .between _ _ (between_drive hopen), rfl, rfl, fun h => ?_⟩
  have := congrArg (fun m : Machine => m.inst.mem.size) h.1
  exact absurd this (by decide)

end Wasmux
