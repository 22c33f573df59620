import Wasmux.Vfork
import Wasmux.Passing

/-!
# `vfork` in the guest's libc

`vfork` is a `setjmp` at the call site: libc keeps an array of jump buffers and
how many calls are open, and a child that executes a program or exits jumps to
where its parent called. The kernel keeps the parents themselves. Once a system
call has been answered, handlers may run before libc looks at the answer.
-/

set_option autoImplicit false

namespace Wasmux.Libc
open Effects Abi

def vforkDepth : ℕ := 8

/-- A call of libc whose system call has been answered, and what it is still to
look at. The end of a child goes with the call of `vfork` that had made it. -/
inductive Frame where
  | vforkRet (v : ℤ)
  | execve (r : ℤ) (maker : Option ℕ)
  | exit (r : ℤ) (maker : Option ℕ)

/-- What the `setjmp` of a call of `vfork` keeps: which call it was, and what
handlers had interrupted by then. -/
structure JmpBuf where
  call : ℕ
  frames : List Frame

structure Statics where
  jbs : Fin vforkDepth → Option JmpBuf
  depth : ℕ

namespace Statics
variable (st : Statics)

def jbp : ℕ := if st.depth < vforkDepth then st.depth else vforkDepth - 1

def returned : ℕ := if st.depth ≠ 0 then st.depth - 1 else 0

def get (i : ℕ) : Option JmpBuf := if h : i < vforkDepth then st.jbs ⟨i, h⟩ else none

def fill (i : ℕ) (b : JmpBuf) : Statics := { st with jbs := fun j => if j.val = i then some b else st.jbs j }

def enter : Statics := { st with depth := st.depth + 1 }

def leave : Statics := { st with depth := if st.depth ≠ 0 then st.depth - 1 else 0 }

end Statics

inductive Mode where
  /-- Guest code runs, outside of these functions. -/
  | guest
  /-- A system call has been answered, and its signals are being fetched or still to be. -/
  | answered (f : Frame) (fetching : Bool)
  /-- `_exit` calls again and again. -/
  | leaving
  /-- A jump went through no buffer. -/
  | lost

/-- A guest instance. -/
structure State (W : Type) where
  machine : Machine
  world : W
  statics : Statics
  mode : Mode
  /-- What handlers have interrupted, innermost first. -/
  frames : List Frame
  /-- Where the guest's own jumps may go. -/
  marks : List (List Frame)
  /-- The calls of `vfork` that made the children in the instance, innermost first. -/
  makers : List ℕ
  calls : ℕ
  /-- The slots of `jbs` that were looked at. -/
  touched : List ℕ
  /-- The jumps of `__wasmux_vfork_return`: the call whose buffer was jumped to,
  and the call that had made the child. -/
  jumps : List (Option ℕ × Option ℕ)

/-- An instance that has not called `vfork`. -/
def State.start {W : Type} (m : Machine) (w : W) : State W where
  machine := m
  world := w
  statics := ⟨fun _ => none, 0⟩
  mode := .guest
  frames := []
  marks := []
  makers := []
  calls := 0
  touched := []
  jumps := []

namespace State
variable {W : Type} (s : State W)

def vforked (v : ℤ) (m : Machine) (w : W) : State W :=
  { s with
    machine := m
    world := w
    statics := (s.statics.fill s.statics.jbp ⟨s.calls, s.frames⟩).enter
    mode := .answered (.vforkRet v) false
    makers := if v < 0 then s.makers else s.calls :: s.makers
    calls := s.calls + 1
    touched := s.statics.jbp :: s.touched }

/-- `execve` or `_exit` up to the answer of its system call. -/
def ended (f : Option ℕ → Frame) (r : ℤ) (m : Machine) (w : W) : State W :=
  { s with
    machine := m
    world := w
    mode := .answered (f (if 0 < r then s.makers.head? else none)) false
    makers := if 0 < r then s.makers.tail else s.makers }

def vforkReturn (maker : Option ℕ) : State W :=
  let i := s.statics.returned
  let s := { s with
    touched := i :: s.touched
    jumps := ((s.statics.get i).map JmpBuf.call, maker) :: s.jumps }
  match s.statics.get i with
  | some b => { s with statics := s.statics.leave, frames := b.frames, mode := .guest }
  | none => { s with mode := .lost }

/-- What a call does with the answer it has. -/
def resume : Frame → State W
  | .vforkRet v => { s with statics := if v < 0 then s.statics.leave else s.statics, mode := .guest }
  | .execve r maker => if 0 < r then s.vforkReturn maker else { s with mode := .guest }
  | .exit r maker => if 0 < r then s.vforkReturn maker else { s with mode := .leaving }

end State

def sigpending (m : Machine) : Bool :=
  m.ctx.exec.signalFlag != 0 && m.inst.mem.u32 m.ctx.exec.signalFlag != .ok 0

inductive Move where
  | other
  | setjmp
  | longjmp
  | vfork
  | execve (a : Args)
  | exit (a : Args)
  | handled
  | returned
  | resumed

/-- One step of an instance. What else may happen between the calls are the
guest's other system calls, its fetching of signals, its own jumps, and all
that other processes do. -/
inductive Step {W : Type} (x : Env W) : Move → State W → State W → Prop
  | other {s : State W} {m : Machine} {w : W} (hmode : s.mode = .guest) (hm : s.machine.Passes m) :
    Step x .other s { s with machine := m, world := w }
  | setjmp {s : State W} (hmode : s.mode = .guest) : Step x .setjmp s { s with marks := s.frames :: s.marks }
  | longjmp {s : State W} {frames : List Frame} (hmode : s.mode = .guest) (hframes : frames ∈ s.marks) :
    Step x .longjmp s { s with frames := frames }
  | vfork {s : State W} {v : ℤ} {m : Machine} {w : W} (hmode : s.mode = .guest)
    (hrun : Answers x 220 vforkArgs s.machine s.world v m w) :
    Step x .vfork s (s.vforked v m w)
  | execve {s : State W} {a : Args} {r : ℤ} {m : Machine} {w : W} (hmode : s.mode = .guest)
    (hrun : Answers x 221 a s.machine s.world r m w) :
    Step x (.execve a) s (s.ended (.execve r) r m w)
  | exit {s : State W} {a : Args} {r : ℤ} {m : Machine} {w : W} (hmode : s.mode = .guest)
    (hrun : Answers x 94 a s.machine s.world r m w) :
    Step x (.exit a) s (s.ended (.exit r) r m w)
  | again {s : State W} {a : Args} {r : ℤ} {m : Machine} {w : W} (hmode : s.mode = .leaving)
    (hrun : Answers x 93 a s.machine s.world r m w) :
    Step x (.exit a) s
      { s with machine := m, world := w, makers := if 0 < r then s.makers.tail else s.makers }
  | handled {s : State W} {f : Frame} {fetching : Bool} {m : Machine} {w : W}
      (hmode : s.mode = .answered f fetching)
    (hflag : fetching = true ∨ sigpending s.machine = true)
    (hrun : Sigfetches x s.machine s.world .handler m w) :
    Step x .handled s { s with machine := m, world := w, mode := .guest, frames := f :: s.frames }
  | returned {s : State W} {f : Frame} {frames : List Frame} (hmode : s.mode = .guest)
      (hframes : s.frames = f :: frames) :
    Step x .returned s { s with frames := frames, mode := .answered f true }
  | quiet {s : State W} {f : Frame} (hmode : s.mode = .answered f false)
      (hflag : sigpending s.machine = false) :
    Step x .resumed s (s.resume f)
  | drained {s : State W} {f : Frame} {fetching : Bool} {m : Machine} {w : W}
      (hmode : s.mode = .answered f fetching)
    (hflag : fetching = true ∨ sigpending s.machine = true)
    (hrun : Sigfetches x s.machine s.world .none m w) :
    Step x .resumed s (State.resume { s with machine := m, world := w } f)

/-- What an instance comes to by steps that are allowed where they are taken. -/
inductive Run {W : Type} (x : Env W) (C : Move → State W → Prop) : State W → State W → Prop
  | refl (s : State W) : Run x C s s
  | step {s t u : State W} {a : Move} (h : Run x C s t) (hC : C a t) (hstep : Step x a t u) : Run x C s u

/-- libc and the kernel agree: no access was outside of `jbs`, each jump went to
the call that had made the child, and where guest code runs as many calls are
open as there are parents waiting. -/
structure State.Agrees {W : Type} (s : State W) : Prop where
  inside : ∀ i ∈ s.touched, i < vforkDepth
  owner : ∀ j ∈ s.jumps, ∃ call, j = (some call, some call)
  depth : s.mode = .guest → s.statics.depth = s.machine.ctx.vforkStack.length

def Frame.idle : Frame → Prop
  | .vforkRet v => 0 ≤ v
  | .execve r _ => r ≤ 0
  | .exit _ _ => False

/-- No more than `VFORK_DEPTH` children at once, and no handler while libc is
still to look at a `vfork` that failed or at the end of a child. -/
def Allowed {W : Type} : Move → State W → Prop
  | .vfork, s => s.machine.ctx.vforkStack.length < vforkDepth
  | .handled, s => ∀ f fetching, s.mode = .answered f fetching → f.idle
  | _, _ => True

namespace Statics
variable {st : Statics} {i : ℕ} {b : JmpBuf}

/-- The buffers of these calls, innermost first. -/
def Holds (st : Statics) : List ℕ → Prop
  | [] => True
  | call :: rest => (∃ b, st.get rest.length = some b ∧ b.call = call) ∧ st.Holds rest

theorem lt_of_get (h : st.get i = some b) : i < vforkDepth := by
  unfold get at h
  split at h
  · assumption
  · cases h

theorem get_fill (h : i < vforkDepth) (j : ℕ) : (st.fill i b).get j = if j = i then some b else st.get j := by
  unfold get fill
  by_cases hj : j < vforkDepth
  · simp only [dif_pos hj]
  · rw [dif_neg hj, dif_neg hj, if_neg (by omega)]

theorem Holds.fill {calls : List ℕ} (h : st.Holds calls) (hi : i < vforkDepth) (hle : calls.length ≤ i) :
    (st.fill i b).Holds calls := by
  induction calls with
  | nil => trivial
  | cons call rest ih =>
    obtain ⟨⟨b', hget, hcall⟩, hrest⟩ := h
    rw [List.length_cons] at hle
    refine ⟨⟨b', ?_, hcall⟩, ih hrest (by omega)⟩
    rw [get_fill hi, if_neg (by omega), hget]

theorem Holds.congr {st' : Statics} {calls : List ℕ} (h : st.Holds calls) (hget : ∀ i, st'.get i = st.get i) :
    st'.Holds calls := by
  induction calls with
  | nil => trivial
  | cons call rest ih => exact ⟨(hget _).symm ▸ h.1, ih h.2⟩

end Statics

/-- The end of a child goes with the buffer its parent filled. -/
def Frame.Owned (st : Statics) (children : ℕ) : Frame → Prop
  | .vforkRet _ => True
  | .execve r maker | .exit r maker => 0 < r ∧ ∃ b, st.get children = some b ∧ maker = some b.call

/-- How many calls are open, with so many children in the instance. -/
def Mode.Balanced (st : Statics) (children : ℕ) : Mode → Prop
  | .guest => st.depth = children
  | .answered f _ => (f.idle ∧ st.depth = children) ∨
      (¬ f.idle ∧ st.depth = children + 1 ∧ f.Owned st children)
  | .leaving | .lost => False

structure State.Level {W : Type} (s : State W) : Prop where
  pid : 0 < s.machine.ctx.task.pid
  parents : ∀ t ∈ s.machine.ctx.vforkStack, 0 < t.pid
  next : 0 < s.machine.shared.nextPid
  count : s.makers.length = s.machine.ctx.vforkStack.length
  held : s.statics.Holds s.makers
  frames : ∀ f ∈ s.frames, f.idle
  marks : ∀ frames ∈ s.marks, ∀ f ∈ frames, f.idle
  bufs : ∀ i b, s.statics.get i = some b → ∀ f ∈ b.frames, f.idle
  inside : ∀ i ∈ s.touched, i < vforkDepth
  owner : ∀ j ∈ s.jumps, ∃ call, j = (some call, some call)
  mode : s.mode.Balanced s.statics s.machine.ctx.vforkStack.length

section
variable {W : Type} {x : Env W} {s t : State W}

theorem State.Level.agrees (h : s.Level) : s.Agrees where
  inside := h.inside
  owner := h.owner
  depth hmode := by
    have hbalanced := h.mode
    rw [hmode] at hbalanced
    exact hbalanced

theorem State.Level.passes (h : s.Level) {m : Machine} (w : W) (hm : s.machine.Passes m) :
    State.Level { s with machine := m, world := w } where
  pid := hm.pid ▸ h.pid
  parents := hm.stack ▸ h.parents
  next := hm.next h.next
  count := hm.stack ▸ h.count
  held := h.held
  frames := h.frames
  marks := h.marks
  bufs := h.bufs
  inside := h.inside
  owner := h.owner
  mode := hm.stack ▸ h.mode

/-- The jump of `__wasmux_vfork_return`. -/
theorem State.Level.vforkReturn (h : s.Level) {maker : Option ℕ} {b : JmpBuf}
    (hdepth : s.statics.depth = s.machine.ctx.vforkStack.length + 1)
    (hget : s.statics.get s.machine.ctx.vforkStack.length = some b) (hmaker : maker = some b.call) :
    (s.vforkReturn maker).Level := by
  have hopen : s.statics.depth ≠ 0 := by omega
  have hindex : s.statics.returned = s.machine.ctx.vforkStack.length := by
    unfold Statics.returned
    rw [if_pos hopen, hdepth]
    rfl
  have hleave : s.statics.leave.depth = s.machine.ctx.vforkStack.length := by
    unfold Statics.leave
    rw [if_pos hopen, hdepth]
    rfl
  unfold State.vforkReturn
  simp only [hindex, hget]
  exact {
    pid := h.pid
    parents := h.parents
    next := h.next
    count := h.count
    held := h.held.congr fun _ => rfl
    frames := h.bufs _ b hget
    marks := h.marks
    bufs := h.bufs
    inside := List.forall_mem_cons.mpr ⟨Statics.lt_of_get hget, h.inside⟩
    owner := List.forall_mem_cons.mpr ⟨⟨b.call, by rw [hmaker]; rfl⟩, h.owner⟩
    mode := hleave }

theorem State.Level.goesOn (h : s.Level) (hdepth : s.statics.depth = s.machine.ctx.vforkStack.length) :
    State.Level { s with mode := .guest } :=
  { h with mode := hdepth }

theorem State.Level.resume (h : s.Level) {f : Frame} {fetching : Bool}
    (hmode : s.mode = .answered f fetching) :
    (s.resume f).Level := by
  have hbalanced := h.mode
  rw [hmode] at hbalanced
  cases f with
  | vforkRet v =>
    simp only [State.resume]
    rcases hbalanced with ⟨hidle, hdepth⟩ | ⟨hfailed, hdepth, -⟩
    · rw [if_neg (not_lt.mpr hidle)]
      exact h.goesOn hdepth
    · have hleave : s.statics.leave.depth = s.machine.ctx.vforkStack.length := by
        unfold Statics.leave
        rw [if_pos (by omega), hdepth]
        rfl
      rw [if_pos (not_le.mp hfailed)]
      exact { h with mode := hleave, held := h.held.congr fun _ => rfl, bufs := h.bufs }
  | execve r maker =>
    simp only [State.resume]
    rcases hbalanced with ⟨hidle, hdepth⟩ | ⟨-, hdepth, hchild, b, hget, hmaker⟩
    · rw [if_neg (not_lt.mpr hidle)]
      exact h.goesOn hdepth
    · rw [if_pos hchild]
      exact h.vforkReturn hdepth hget hmaker
  | exit r maker =>
    simp only [State.resume]
    rcases hbalanced with ⟨hidle, -⟩ | ⟨-, hdepth, hchild, b, hget, hmaker⟩
    · cases hidle
    · rw [if_pos hchild]
      exact h.vforkReturn hdepth hget hmaker

/-- The child that an `execve` or `_exit` ends was made by the call that is open last. -/
theorem State.Level.ended (h : s.Level) {f : Option ℕ → Frame} {r : ℤ} {m : Machine} (w : W)
    (hmode : s.mode = .guest) (hm : s.machine.Leaves r m) (hidle : ∀ maker, 0 < r → ¬ (f maker).idle)
    (howned : ∀ maker, (0 < r ∧ ∃ b, s.statics.get m.ctx.vforkStack.length = some b ∧ maker = some b.call) →
      (f maker).Owned s.statics m.ctx.vforkStack.length) : (s.ended f r m w).Level := by
  obtain ⟨parent, hstack, hpid⟩ := hm.stack
  have hpos : 0 < r := hm.answer ▸ h.pid
  have hdepth := h.mode
  rw [hmode, hstack] at hdepth
  have hcount := h.count
  have hheld := h.held
  have hparents := h.parents
  rw [hstack] at hcount hparents
  obtain ⟨call, rest, hmakers⟩ : ∃ call rest, s.makers = call :: rest :=
    List.exists_cons_of_length_eq_add_one hcount
  rw [hmakers] at hcount hheld
  have hrest : rest.length = m.ctx.vforkStack.length := Nat.succ.inj hcount
  obtain ⟨⟨b, hget, rfl⟩, hheld⟩ := hheld
  rw [hrest] at hget
  unfold State.ended
  rw [if_pos hpos, if_pos hpos, hmakers]
  exact {
    pid := hpid ▸ hparents parent List.mem_cons_self
    parents := fun t ht => hparents t (List.mem_cons_of_mem _ ht)
    next := hm.next h.next
    count := hrest
    held := hheld
    frames := h.frames
    marks := h.marks
    bufs := h.bufs
    inside := h.inside
    owner := h.owner
    mode := .inr ⟨hidle _ hpos, hdepth, howned _ ⟨hpos, b, hget, rfl⟩⟩ }

theorem State.Level.vforked (h : s.Level) {v : ℤ} {m : Machine} (w : W) (hmode : s.mode = .guest)
    (hroom : s.machine.ctx.vforkStack.length < vforkDepth)
    (hm : (v < 0 ∧ s.machine.Passes m) ∨ (v = 0 ∧ s.machine.Enters m)) : (s.vforked v m w).Level := by
  have hdepth : s.statics.depth = s.machine.ctx.vforkStack.length := h.agrees.depth hmode
  have hindex : s.statics.jbp = s.machine.ctx.vforkStack.length := by
    unfold Statics.jbp
    rw [hdepth, if_pos hroom]
  have hheld : Statics.Holds (s.statics.fill s.statics.jbp ⟨s.calls, s.frames⟩).enter s.makers := by
    rw [hindex]
    exact (h.held.fill hroom h.count.le).congr fun _ => rfl
  have hself : (s.statics.fill s.statics.jbp ⟨s.calls, s.frames⟩).enter.get s.makers.length =
      some ⟨s.calls, s.frames⟩ := by
    rw [hindex, h.count]
    exact (Statics.get_fill hroom _).trans (if_pos rfl)
  have hbufs : ∀ i b, (s.statics.fill s.statics.jbp ⟨s.calls, s.frames⟩).enter.get i = some b →
      ∀ f ∈ b.frames, f.idle := by
    intro i b hget
    rw [hindex] at hget
    change (s.statics.fill _ _).get i = some b at hget
    rw [Statics.get_fill hroom] at hget
    split at hget
    · cases hget
      exact h.frames
    · exact h.bufs i b hget
  have hinside : ∀ i ∈ s.statics.jbp :: s.touched, i < vforkDepth :=
    List.forall_mem_cons.mpr ⟨hindex ▸ hroom, h.inside⟩
  have henter : (s.statics.fill s.statics.jbp ⟨s.calls, s.frames⟩).enter.depth =
      s.machine.ctx.vforkStack.length + 1 :=
    congrArg (· + 1) hdepth
  unfold State.vforked
  rcases hm with ⟨hfailed, hpasses⟩ | ⟨rfl, henters⟩
  · rw [if_pos hfailed]
    exact {
      h.passes w hpasses with
      held := hheld
      bufs := hbufs
      inside := hinside
      mode := .inr ⟨not_le.mpr hfailed, hpasses.stack ▸ henter, trivial⟩ }
  · rw [if_neg (lt_irrefl _)]
    exact {
      pid := henters.pid h.next
      parents := by
        rw [henters.stack]
        exact List.forall_mem_cons.mpr ⟨h.pid, h.parents⟩
      next := henters.next h.next
      count := by
        rw [henters.stack]
        exact congrArg (· + 1) h.count
      held := ⟨⟨_, hself, rfl⟩, hheld⟩
      frames := h.frames
      marks := h.marks
      bufs := hbufs
      inside := hinside
      owner := h.owner
      mode := .inl ⟨le_refl _, by rw [henters.stack]; exact henter⟩ }

theorem Step.level {a : Move} (hx : x.Proper) (hstep : Step x a s t) (hC : Allowed a s) (h : s.Level) :
    t.Level := by
  have hguest := h.mode
  cases hstep with
  | other hmode hm => exact h.passes _ hm
  | setjmp hmode => exact { h with marks := List.forall_mem_cons.mpr ⟨h.frames, h.marks⟩ }
  | longjmp hmode hframes => exact { h with frames := h.marks _ hframes }
  | vfork hmode hrun => exact h.vforked _ hmode hC (hrun.vfork)
  | execve hmode hrun =>
    rename_i a r m w
    rcases hrun.execve hx with ⟨hrefused, hpasses⟩ | hleaves
    · have hle : ¬ 0 < r := by omega
      rw [hmode] at hguest
      unfold State.ended
      rw [if_neg hle, if_neg hle]
      exact { h.passes w hpasses with mode := .inl ⟨hrefused.le, hpasses.stack ▸ hguest⟩ }
    · exact h.ended _ hmode hleaves (fun _ hpos => not_le.mpr hpos) fun _ howned => howned
  | exit hmode hrun =>
    exact h.ended _ hmode (hrun.exit (.inr rfl)) (fun _ _ => id) fun _ howned => howned
  | again hmode hrun =>
    rw [hmode] at hguest
    cases hguest
  | handled hmode hflag hrun =>
    rename_i f fetching m w
    have hidle : f.idle := hC f fetching hmode
    have hpasses := hrun.passes
    rw [hmode] at hguest
    obtain ⟨-, hdepth⟩ | ⟨hnot, -⟩ := hguest
    · exact {
        h.passes w hpasses with
        frames := List.forall_mem_cons.mpr ⟨hidle, h.frames⟩
        mode := hpasses.stack ▸ hdepth }
    · exact absurd hidle hnot
  | returned hmode hframes =>
    rename_i f frames
    have hall := h.frames
    rw [hframes] at hall
    rw [hmode] at hguest
    exact {
      h with
      frames := fun g hg => hall g (List.mem_cons_of_mem _ hg)
      mode := .inl ⟨hall f List.mem_cons_self, hguest⟩ }
  | quiet hmode hflag => exact h.resume hmode
  | drained hmode hflag hrun => exact (h.passes _ (hrun.passes)).resume hmode

theorem Run.level (hx : x.Proper) (hrun : Run x Allowed s t) (h : s.Level) : t.Level := by
  induction hrun with
  | refl => exact h
  | step _ hC hstep ih => exact hstep.level hx hC ih

/-- An instance that no child of a `vfork` runs in. -/
structure Fresh (m : Machine) : Prop where
  alone : m.ctx.vforkStack = []
  pid : 0 < m.ctx.task.pid
  next : 0 < m.shared.nextPid

theorem Fresh.level {m : Machine} (h : Fresh m) (w : W) : (State.start m w).Level where
  pid := h.pid
  parents := by
    change ∀ t ∈ m.ctx.vforkStack, 0 < t.pid
    rw [h.alone]
    exact fun _ ht => absurd ht List.not_mem_nil
  next := h.next
  count := (congrArg List.length h.alone).symm
  held := trivial
  frames _ hf := absurd hf List.not_mem_nil
  marks _ hf := absurd hf List.not_mem_nil
  bufs i b hget := by
    change (if h : i < vforkDepth then none else none : Option JmpBuf) = some b at hget
    split at hget <;> cases hget
  inside _ hi := absurd hi List.not_mem_nil
  owner _ hj := absurd hj List.not_mem_nil
  mode := (congrArg List.length h.alone).symm

theorem handled_disagrees (h : s.Level) (hstep : Step x .handled s t) (hC : ¬ Allowed .handled s) :
    ¬ t.Agrees := by
  intro hagrees
  have hbalanced := h.mode
  cases hstep with
  | handled hmode hflag hrun =>
    rw [hmode] at hbalanced
    obtain ⟨hidle, -⟩ | ⟨-, hdepth, -⟩ := hbalanced
    · refine hC fun f fetching hf => ?_
      obtain ⟨rfl, -⟩ := Mode.answered.inj (hmode.symm.trans hf)
      exact hidle
    · have heven := hagrees.depth rfl
      rw [hrun.passes.stack] at heven
      exact absurd (hdepth.symm.trans heven) (by omega)

theorem vforkReturn_outside (s : State W) (maker : Option ℕ) (h : vforkDepth < s.statics.depth) :
    ¬ (s.vforkReturn maker).Agrees := by
  have hindex : s.statics.returned = s.statics.depth - 1 := if_pos (by omega)
  intro hagrees
  have hinside : s.statics.returned < vforkDepth := by
    apply hagrees.inside
    unfold State.vforkReturn
    dsimp only
    split <;> exact List.mem_cons_self
  omega

/-- A child that a call of `vfork` too many has made, and that exits at once, is
looked up past the last buffer. -/
theorem Step.escapes {t₁ t₂ u : State W} {a : Args} (h : s.Level) (hvfork : Step x .vfork s t)
    (hC : ¬ Allowed .vfork s) (hmade : s.machine.Enters t.machine) (hchild : Step x .resumed t t₁)
    (hexit : Step x (.exit a) t₁ t₂) (hback : Step x .resumed t₂ u) : ¬ u.Agrees := by
  have hfull : vforkDepth ≤ s.machine.ctx.vforkStack.length := not_lt.mp hC
  cases hvfork with
  | vfork hmode hrun =>
    rename_i v m w
    have hdepth : (s.vforked v m w).statics.depth = s.machine.ctx.vforkStack.length + 1 :=
      congrArg (· + 1) (h.agrees.depth hmode)
    obtain rfl : v = 0 := by
      rcases hrun.vfork with ⟨-, hpasses⟩ | ⟨hzero, -⟩
      · have hlength := congrArg List.length (hpasses.stack.symm.trans hmade.stack)
        simp at hlength
      · exact hzero
    obtain ⟨hdepth₁, hmode₁, hpid₁⟩ : t₁.statics.depth = s.machine.ctx.vforkStack.length + 1 ∧
      t₁.mode = .guest ∧
        0 < t₁.machine.ctx.task.pid := by
      cases hchild with
      | quiet hmode₁ =>
        cases hmode₁
        exact ⟨hdepth, rfl, hmade.pid h.next⟩
      | drained hmode₁ hflag hnone =>
        cases hmode₁
        exact ⟨hdepth, rfl, hnone.passes.pid ▸ hmade.pid h.next⟩
    cases hexit with
    | again hleaving =>
      rw [hmode₁] at hleaving
      cases hleaving
    | exit hguest hrun₂ =>
      rename_i r m₂ w₂
      have hpos : 0 < r := (hrun₂.exit (.inr rfl)).answer ▸ hpid₁
      have houtside : ∀ (m : Machine) (w : W) (maker : Option ℕ),
          ¬ (State.resume { t₁.ended (.exit r) r m₂ w₂ with machine := m, world := w }
            (.exit r maker)).Agrees := by
        intro m w maker
        simp only [State.resume]
        rw [if_pos hpos]
        apply vforkReturn_outside
        change vforkDepth < t₁.statics.depth
        omega
      cases hback with
      | quiet hmode₂ =>
        cases hmode₂
        exact houtside _ _ _
      | drained hmode₂ =>
        cases hmode₂
        exact houtside _ _ _

/-- Calls of `vfork`, each from the child of the one before. -/
theorem Run.nested {w : W} (machines : ℕ → Machine) (n : ℕ)
    (hrun : ∀ k < n, Answers x 220 vforkArgs (machines k) w 0 (machines (k + 1)) w)
    (hquiet : ∀ k < n, sigpending (machines (k + 1)) = false)
    (hroom : ∀ k < n, (machines k).ctx.vforkStack.length < vforkDepth) :
    ∃ t, Run x Allowed (State.start (machines 0) w) t ∧ t.machine = machines n ∧ t.world = w ∧
        t.mode = .guest := by
  induction n with
  | zero => exact ⟨_, .refl _, rfl, rfl, rfl⟩
  | succ n ih =>
    obtain ⟨t, hreach, hmachine, hworld, hmode⟩ :=
      ih (fun k hk => hrun k (by omega)) (fun k hk => hquiet k (by omega))
      fun k hk => hroom k (by omega)
    have hfork := hrun n (by omega)
    rw [← hmachine, ← hworld] at hfork
    have hallowed : Allowed .vfork t := by
      have hlength := hroom n (by omega)
      rwa [← hmachine] at hlength
    have hresumed : Step x .resumed (t.vforked 0 (machines (n + 1)) t.world) _ :=
      .quiet rfl (hquiet n (by omega))
    exact ⟨_, (hreach.step hallowed (.vfork hmode hfork)).step (a := .resumed) trivial hresumed, rfl,
      hworld, rfl⟩

theorem Run.unbound {C : Move → State W → Prop} (h : Run x C s t) : Run x (fun _ _ => True) s t := by
  induction h with
  | refl => exact .refl _
  | step _ _ hstep ih => exact ih.step trivial hstep

/-- In an instance that has not called `vfork` yet, and as long as no step is
taken that the condition rules out, libc and the kernel agree in every state. A
handler that it rules out finds them at odds, and so does the end of a child
that it rules out. -/
theorem vfork_agrees (hx : x.Proper) {m : Machine} (hm : Fresh m) (w : W) (t : State W)
    (hrun : Run x Allowed (State.start m w) t) :
    t.Agrees ∧ (∀ u, Step x .handled t u → ¬ Allowed .handled t → ¬ u.Agrees) ∧
      ∀ t₁ t₂ t₃ u a, Step x .vfork t t₁ → ¬ Allowed .vfork t → t.machine.Enters t₁.machine →
      Step x .resumed t₁ t₂ →
        Step x (.exit a) t₂ t₃ → Step x .resumed t₃ u → ¬ u.Agrees := by
  have hlevel := hrun.level hx (hm.level w)
  refine ⟨hlevel.agrees, fun u hstep hC => handled_disagrees hlevel hstep hC, ?_⟩
  intro t₁ t₂ t₃ u a hvfork hC hmade hchild hexit hback
  exact hvfork.escapes hlevel hC hmade hchild hexit hback

end

/-- A process of a session that has no child in its instance. -/
theorem fresh_machineOf {k : Kernel} {p : Proc} (h : k.Rostered) (hp : p ∈ k.procs)
    (hrequest : p.ctx.execRequest = none) (halone : p.ctx.vforkStack = []) : Fresh (k.machineOf p) := by
  obtain ⟨lost, hregisters⟩ := h.registered
  refine ⟨halone, ?_, hregisters.first⟩
  have hcarried : p.ctx.task.pid ∈ k.carriers := by
    apply List.mem_append_left
    apply List.mem_flatMap.mpr
    refine ⟨p, hp, ?_⟩
    rw [carriers_of_none hrequest]
    exact List.mem_cons_self
  have halive : 0 < k.shared.roll.alive p.ctx.task.pid := by
    rw [hregisters.tallies.alive]
    exact Nat.add_pos_left (List.count_pos_iff.mpr hcarried) _
  obtain ⟨e, he, hname⟩ := List.countP_pos_iff.mp halive
  have heq : e.1 = p.ctx.task.pid := by
    rw [Bool.and_eq_true, decide_eq_true_eq] at hname
    exact hname.1
  exact h.kin.positive _ (heq ▸ List.mem_map_of_mem he)

/-- The machine of a guest, in a session with nothing else, after so many calls of `vfork`. -/
def nesting : ℕ → Machine
  | 0 => (Kernel.oneGuest.machineOf Proc.oneGuest).setShared
      { Kernel.oneGuest.shared with nextPid := 2, table := [ProcRecord.new 1 0 1 1] }
  | n + 1 => ((dispatch 220 vforkArgs : Program sig Stop Outcome).run (exec (Env.still Unit))
      (nesting n, ())).2.1

theorem fresh_nesting : Fresh (nesting 0) := ⟨rfl, by decide, by decide⟩

theorem answers_nesting (n : ℕ)
    (h : ((dispatch 220 vforkArgs : Program sig Stop Outcome).run (exec (Env.still Unit))
      (nesting n, ())).1 = .ok (.value 0)) :
    Answers (Env.still Unit) 220 vforkArgs (nesting n) () 0 (nesting (n + 1)) () :=
  Prod.ext h rfl

theorem proper_still : (Env.still Unit).Proper where
  vfs _ _ _ e h := by
    cases h
    exact ⟨by decide, by decide⟩
  file _ _ _ e h := by
    cases h
    exact ⟨by decide, by decide⟩

theorem proper_handsOver : Env.handsOver.Proper where
  vfs _ _ _ e h := by
    cases h
    exact ⟨by decide, by decide⟩
  file _ _ _ e h := by
    cases h
    exact ⟨by decide, by decide⟩

/-- The first process of a session makes a child, which exits. -/
theorem vfork_agrees_once : ∃ (k : Kernel) (w : List GuestRun) (p : Proc) (t : State (List GuestRun)),
    Reached Env.handsOver (fun o s => o.Numbered s.1) k w ∧ k.procs[0]? = some p ∧
    Run Env.handsOver Allowed (State.start (k.machineOf p) w) t ∧ t.jumps = [(some 0, some 0)] ∧
    t.Agrees := by
  have hstart : Between Env.handsOver (fun o s => o.Numbered s.1) ⟨_, none⟩ _ :=
    .start (.bare [.guest 0]) 0 _ _ [] _ rfl (along_numbered (by decide +kernel)) rfl
  obtain ⟨k, w, p, hreached, hp, hrequest, halone, m₁, w₁, hfork, hborn, m₂, w₂, hexit, hgone⟩ :
    ∃ (k : Kernel) (w : List GuestRun) (p : Proc), Reached Env.handsOver (fun o s => o.Numbered s.1) k w ∧
      k.procs[0]? = some p ∧
      p.ctx.execRequest = none ∧ p.ctx.vforkStack = [] ∧ ∃ m₁ w₁,
      Answers Env.handsOver 220 vforkArgs (k.machineOf p) w 0 m₁ w₁ ∧ sigpending m₁ = false ∧ ∃ m₂ w₂,
      Answers Env.handsOver 94 ⟨0, 0, 0, 0, 0, 0⟩ m₁ w₁ 2 m₂ w₂ ∧ sigpending m₂ = false :=
    ⟨_, _, _, .between _ _ hstart, rfl, rfl, rfl, _, _, Prod.ext (by decide +kernel) rfl, by decide +kernel,
      _, _, Prod.ext (by decide +kernel) rfl, by decide +kernel⟩
  have hfresh := fresh_machineOf (reached_rostered _ hreached) (List.mem_of_getElem? hp) hrequest halone
  have hallowed : Allowed .vfork (State.start (k.machineOf p) w) := by
    show p.ctx.vforkStack.length < vforkDepth
    rw [halone]
    decide
  have hchild := (Run.refl (x := Env.handsOver) _).step hallowed (.vfork rfl hfork)
  have hruns := hchild.step (a := .resumed) trivial (.quiet rfl hborn)
  have hends := hruns.step (a := .exit ⟨0, 0, 0, 0, 0, 0⟩) trivial (.exit rfl hexit)
  have hback := hends.step (a := .resumed) trivial (.quiet rfl hgone)
  exact ⟨k, w, p, _, hreached, hp, hback, rfl, (vfork_agrees proper_handsOver hfresh w _ hback).1⟩

/-- A ninth call of `vfork` within the eight before, and its child's exit. -/
theorem ninth_vfork_disagrees : ¬ ∀ (m : Machine) (t : State Unit), Fresh m →
    Run (Env.still Unit) (fun _ _ => True) (State.start m ()) t → t.Agrees := by
  intro hclaim
  have hvalues : ∀ k < 8, ((dispatch 220 vforkArgs : Program sig Stop Outcome).run (exec (Env.still Unit))
      (nesting k, ())).1 = .ok (.value 0) := by
    decide +kernel
  obtain ⟨t, hrun, hmachine, -, hmode⟩ := Run.nested (x := Env.still Unit) (w := ()) nesting 8
    (fun k hk => answers_nesting k (hvalues k hk)) (by decide +kernel) (by decide +kernel)
  have hlevel := hrun.level proper_still (fresh_nesting.level ())
  have hfork := answers_nesting 8 rfl
  obtain ⟨after, hexit, hquiet⟩ :
    ∃ after, Answers (Env.still Unit) 94 ⟨0, 0, 0, 0, 0, 0⟩ (nesting 9) () 10 after () ∧
    sigpending after = false := ⟨_, rfl, rfl⟩
  have hfull : ¬ (nesting 8).ctx.vforkStack.length < vforkDepth := by decide +kernel
  rw [← hmachine] at hfork hfull
  have hmade : t.machine.Enters (nesting 9) := by
    rcases hfork.vfork with ⟨hfailed, -⟩ | ⟨-, henters⟩
    · cases hfailed
    · exact henters
  have hvfork : Step (Env.still Unit) .vfork t (t.vforked 0 (nesting 9) ()) := .vfork hmode hfork
  have hchild : Step (Env.still Unit) .resumed _ _ := .quiet (s := t.vforked 0 (nesting 9) ()) rfl rfl
  have hends : Step (Env.still Unit) (.exit ⟨0, 0, 0, 0, 0, 0⟩) _ _ :=
    .exit (s := (t.vforked 0 (nesting 9) ()).resume (.vforkRet 0)) rfl hexit
  have hback : Step (Env.still Unit) .resumed _ _ :=
    .quiet (s := ((t.vforked 0 (nesting 9) ()).resume (.vforkRet 0)).ended (.exit 10) 10 after ()) rfl hquiet
  refine hvfork.escapes hlevel hfull hmade hchild hends hback (hclaim _ _ fresh_nesting ?_)
  exact (((hrun.unbound.step trivial hvfork).step trivial hchild).step trivial hends).step trivial hback

end Wasmux.Libc
