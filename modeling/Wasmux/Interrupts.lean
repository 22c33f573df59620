import Wasmux.Fetching
import Wasmux.Blocking

/-!
# Calls that a signal interrupts

A wait that gives up with `EINTR` promises that a signal is there to be
fetched. Whether it is given up is decided under the mask in effect during the
call, and what is fetched afterwards under the process's own. The two agree
but for a call that was lent a mask.
-/

set_option autoImplicit false

namespace Wasmux
open Effects Abi

/-- The pending signals that the process's own mask lets through. -/
def Machine.alert (m : Machine) : Sigset := (triage m.view.pending m.ctx.ownMask m.ctx.task).1

/-- musl has told the kernel where its flag is, and it lies within the memory. -/
def Machine.Registered (m : Machine) : Prop :=
  m.ctx.exec.signalFlag ≠ 0 ∧ m.ctx.exec.signalFlag + 4 ≤ m.inst.mem.size

/-- The acts that change no pending set, no mask and no disposition. -/
def Act.still : Act → Bool
  | .view | .deadline | .put _ _ | .growMem _ | .charge _ | .release _ | .grew _ | .setDescPos _ _
  | .stdinTake _ | .pipeTake _ _ | .pipePut _ _ | .writeOutput _ _ | .noteVfsPending
  | .wantStdin => true
  | _ => false

def Op.still : Op → Bool
  | .act a => a.still
  | .env _ => true

/-- Watches for anything that could change which signals are deliverable. -/
def stirring : Program.Monitor sig Bool where
  allows _ _ := True
  next t o _ := t || !o.still

section
variable {α β : Type}

/-- Nothing is stirred, but by a call that ends with an error for its caller. -/
def Unstirring (p : Handler α) : Prop := ∀ t, p.Sat stirring t fun u r =>
  u = t ∨ ∃ e, r = .error (.errno e)

theorem unstirring_ret (a : α) : Unstirring (.ret a : Handler α) := fun _ => .inl rfl

theorem unstirring_fail (e : Fault) : Unstirring (.fail e : Handler α) := fun _ => .inl rfl

theorem unstirring_call {o : Op} {k : o.Ans → Handler α} (h : o.still = true)
    (hk : ∀ a, Unstirring (k a)) : Unstirring (.call o k : Handler α) := by
  intro t a _
  have hnext : stirring.next t o a = t := by simp [stirring, h]
  rw [hnext]
  exact hk a t

theorem unstirring_bind {p : Handler α} {f : α → Handler β} (hp : Unstirring p)
    (hf : ∀ a, Unstirring (f a)) : Unstirring (p >>= f) := by
  intro t
  rw [Program.sat_bind]
  refine (hp t).mono fun u r hr => ?_
  cases r with
  | ok a =>
    obtain rfl : u = t := hr.resolve_right (by simp)
    exact hf a u
  | error e => exact hr.imp_right fun ⟨e', he⟩ => ⟨e', by simpa using he⟩

theorem unstirring_act (a : Act) (h : a.still = true) : Unstirring (act a) :=
  unstirring_call h fun _ => unstirring_ret _

theorem unstirring_env (c : EnvCall) : Unstirring (env c) :=
  unstirring_call rfl fun _ => unstirring_ret _

theorem unstirring_lift (r : Except Errno α) : Unstirring (lift r) := by
  cases r with
  | ok a => exact unstirring_ret a
  | error e => exact unstirring_fail _

theorem unstirring_orVfsFault (r : Except Errno α) : Unstirring (orVfsFault r) := by
  cases r with
  | ok a => exact unstirring_ret a
  | error e =>
    change Unstirring (vfsFault e)
    unfold vfsFault
    split
    · exact unstirring_call rfl fun _ => unstirring_fail _
    · exact unstirring_fail _

theorem unstirring_fileAsk (file : Handle) (call : FileCall) : Unstirring (fileAsk file call) :=
  unstirring_call rfl fun _ => unstirring_orVfsFault _

theorem unstirring_ite {c : Prop} [Decidable c] {p q : Handler α} (hp : Unstirring p)
    (hq : Unstirring q) : Unstirring (if c then p else q) := by
  split
  · exact hp
  · exact hq

theorem unstirring_only {p : Handler α} (hp : p.Only fun o : Op => o.still = true) : Unstirring p := by
  induction p with
  | ret a => exact unstirring_ret a
  | fail e => exact unstirring_fail e
  | call o k ih => exact unstirring_call hp.1 fun a => ih a (hp.2 a)

theorem unstirring_put (start : ℕ) (data : Bytes) : Unstirring (put start data) :=
  unstirring_bind (unstirring_act _ rfl) fun _ => unstirring_lift _

theorem unstirring_readBytes (fd : ℤ) (len : ℕ) : Unstirring (readBytes fd len) := by
  unfold readBytes
  refine unstirring_ite (unstirring_ret _) ?_
  refine unstirring_bind (unstirring_act _ rfl) fun v => unstirring_bind (unstirring_lift _) fun r => ?_
  dsimp only
  refine unstirring_ite (unstirring_fail _) ?_
  split
  · exact unstirring_bind (unstirring_fileAsk _ _) fun _ => unstirring_ret _
  · exact unstirring_bind (unstirring_act _ rfl) fun _ => unstirring_ret _
  · exact unstirring_ret _
  · exact unstirring_ret _
  · exact unstirring_bind (unstirring_env _) fun _ => unstirring_ret _
  · exact unstirring_fail _
  · exact unstirring_fail _
  · exact unstirring_fail _
  · refine unstirring_ite ?_ (unstirring_bind (unstirring_act _ rfl) fun _ => unstirring_ret _)
    refine unstirring_ite (unstirring_ret _) (unstirring_ite (unstirring_fail _) ?_)
    exact unstirring_bind (unstirring_act _ rfl) fun _ => unstirring_fail _
  · split
    · exact unstirring_fail _
    · refine unstirring_ite ?_ (unstirring_bind (unstirring_act _ rfl) fun _ => unstirring_ret _)
      exact unstirring_ite (unstirring_ret _) (unstirring_ite (unstirring_fail _) (unstirring_fail _))

/-- A writer is sent `SIGPIPE` only when its call fails. -/
theorem unstirring_writeBytes (fd : ℤ) (data : Bytes) : Unstirring (writeBytes fd data) := by
  unfold writeBytes
  refine unstirring_bind (unstirring_act _ rfl) fun v => unstirring_bind (unstirring_lift _) fun r => ?_
  dsimp only
  refine unstirring_ite (unstirring_fail _) ?_
  split
  · exact unstirring_ite (unstirring_fail _) (unstirring_fileAsk _ _)
  · exact unstirring_ret _
  · exact unstirring_ret _
  · exact unstirring_ret _
  · exact unstirring_ret _
  · exact unstirring_fail _
  · exact unstirring_fail _
  · exact unstirring_fail _
  · exact unstirring_bind (unstirring_act _ rfl) fun _ => unstirring_ret _
  · split
    · exact unstirring_fail _
    · refine unstirring_ite (fun t a _ => .inr ⟨.pipe, rfl⟩) ?_
      refine unstirring_ite (unstirring_ite (unstirring_fail _) (unstirring_fail _)) ?_
      exact unstirring_bind (unstirring_act _ rfl) fun _ => unstirring_ret _

theorem unstirring_read (fd : ℤ) (start length : ℕ) : Unstirring (Sys.read fd start length) := by
  unfold Sys.read
  refine unstirring_ite (unstirring_ret _) (unstirring_bind (unstirring_readBytes _ _) fun r => ?_)
  exact unstirring_bind (unstirring_put _ _) fun _ => unstirring_ret _

theorem unstirring_write (fd : ℤ) (start length : ℕ) : Unstirring (Sys.write fd start length) := by
  unfold Sys.write
  refine unstirring_bind (unstirring_act _ rfl) fun v => unstirring_bind (unstirring_lift _) fun data => ?_
  exact unstirring_bind (unstirring_writeBytes _ _) fun _ => unstirring_ret _

theorem unstirring_memGrow (pages : ℕ) : Unstirring (memGrow pages) := by
  unfold memGrow
  refine unstirring_bind (unstirring_act _ rfl) fun v => unstirring_bind (unstirring_env _) fun granted => ?_
  refine unstirring_ite ?_ (unstirring_ret _)
  exact unstirring_bind (unstirring_act _ rfl) fun _ => unstirring_ret _

theorem unstirring_chargeAndGrow (pages : ℕ) : Unstirring (chargeAndGrow pages) := by
  unfold chargeAndGrow
  refine unstirring_bind (unstirring_act _ rfl) fun charged => unstirring_ite ?_ (unstirring_ret _)
  refine unstirring_bind (unstirring_memGrow pages) fun grown => ?_
  cases grown with
  | some previous => exact unstirring_bind (unstirring_act _ rfl) fun _ => unstirring_ret _
  | none => exact unstirring_bind (unstirring_act _ rfl) fun _ => unstirring_ret _

theorem unstirring_mmap (a : Args) : Unstirring (Sys.mmap a) := by
  unfold Sys.mmap
  dsimp only
  refine unstirring_ite (unstirring_fail _) (unstirring_ite (unstirring_fail _) ?_)
  refine unstirring_bind (unstirring_act _ rfl) fun v => unstirring_ite (unstirring_fail _) ?_
  refine unstirring_bind (unstirring_chargeAndGrow _) fun grown => ?_
  cases grown with
  | none => exact unstirring_fail _
  | some previous =>
    refine unstirring_ite (unstirring_ret _) (unstirring_bind (unstirring_lift _) fun r => ?_)
    split
    · refine unstirring_bind (unstirring_only (Program.only_catching
        (only_readMapping (fun _ => rfl) _ _ _))) fun r => ?_
      refine unstirring_bind (unstirring_orVfsFault _) fun buffer => ?_
      exact unstirring_bind (unstirring_put _ _) fun _ => unstirring_ret _
    · exact unstirring_fail _

def BlocksIdle (p : Handler α) : Prop := ∀ t, p.Sat stirring t fun u r => r = .error .block → u = t

theorem Unstirring.blocksIdle {p : Handler α} (hp : Unstirring p) : BlocksIdle p := fun t =>
  (hp t).mono fun _ _ hr hblock => hr.resolve_right fun ⟨e, he⟩ => by simp [hblock] at he

theorem blocksIdle_bind {p : Handler α} {f : α → Handler β} (hp : Unstirring p)
    (hf : ∀ a, BlocksIdle (f a)) : BlocksIdle (p >>= f) := by
  intro t
  rw [Program.sat_bind]
  refine (hp t).mono fun u r hr => ?_
  cases r with
  | ok a =>
    obtain rfl : u = t := hr.resolve_right (by simp)
    exact hf a u
  | error e => exact fun hblock => hr.resolve_right fun ⟨e', he⟩ => by simp_all

/-- A segment that failed ends the loop, so one that waits comes after none that stirred. -/
theorem blocksIdle_vectorLoop {io : ℕ → ℕ → Handler ℤ} (hio : ∀ start len, Unstirring (io start len))
    (vector count index : ℕ) (total : ℤ) :
    BlocksIdle (Sys.vectorLoop io vector count index total) := by
  induction count generalizing index total with
  | zero => exact (unstirring_ret _).blocksIdle
  | succ count ih =>
    unfold Sys.vectorLoop
    refine blocksIdle_bind (unstirring_act _ rfl) fun v => ?_
    dsimp only
    refine blocksIdle_bind (unstirring_lift _) fun start => blocksIdle_bind (unstirring_lift _) fun len => ?_
    split
    · exact ih _ _
    · intro t
      rw [Program.sat_bind, Program.sat_catching]
      refine (hio start len t).mono fun u r hr => ?_
      cases r with
      | ok done =>
        obtain rfl : u = t := hr.resolve_right (by simp)
        dsimp only
        split
        · exact fun h => by cases h
        · exact ih _ _ u
      | error fault =>
        dsimp only
        split
        · exact fun h => by cases h
        · rintro ⟨⟩
          exact hr.resolve_right (by simp)

end

/-- What a call has to leave for a signal to be fetched after it. -/
structure Machine.Watched (m m' : Machine) : Prop where
  alert : m'.alert = m.alert
  flag : m'.ctx.exec.signalFlag = m.ctx.exec.signalFlag
  size : m.inst.mem.size ≤ m'.inst.mem.size

namespace Machine.Watched

theorem refl (m : Machine) : m.Watched m := ⟨rfl, rfl, le_rfl⟩

theorem trans {m m' m'' : Machine} (h : m.Watched m') (h' : m'.Watched m'') : m.Watched m'' :=
  ⟨h'.alert.trans h.alert, h'.flag.trans h.flag, h.size.trans h'.size⟩

theorem of_same {m m' : Machine} (htable : m'.shared.table = m.shared.table)
    (htask : m'.ctx.task = m.ctx.task)
    (hmask : m'.ctx.exec.maskToRestore = m.ctx.exec.maskToRestore)
    (hflag : m'.ctx.exec.signalFlag = m.ctx.exec.signalFlag)
    (hsize : m.inst.mem.size ≤ m'.inst.mem.size) : m.Watched m' := by
  refine ⟨?_, hflag, hsize⟩
  simp only [Machine.alert, View.pending, View.record, Machine.view, Ctx.ownMask, htable, htask, hmask]

theorem setMem (m : Machine) {mem : Mem} (h : m.inst.mem.size ≤ mem.size) : m.Watched (m.setMem mem) :=
  .of_same rfl rfl rfl rfl h

theorem registered {m m' : Machine} (h : m.Watched m') (hm : m.Registered) : m'.Registered := by
  have := h.size
  unfold Machine.Registered at hm ⊢
  rw [h.flag]
  omega

end Machine.Watched

section
variable {W : Type} (x : Env W)

theorem exec_still (o : Op) (h : o.still = true) (s : Machine × W) :
    s.1.Watched (exec x o s).2.1 := by
  cases o with
  | env c => exact .refl _
  | act a =>
    cases a with
    | put start data =>
      simp only [exec_act, Act.exec]
      split
      · rename_i mem hput
        exact .setMem s.1 (Mem.put_size hput).ge
      · exact .refl _
    | growMem pages => exact .setMem s.1 (Mem.size_le_grow s.1.inst.mem pages)
    | charge bytes =>
      simp only [exec_act, Act.exec, Shared.chargeMemory]
      split <;> exact .of_same rfl rfl rfl rfl le_rfl
    | writeOutput which data =>
      simp only [exec_act, Act.exec, Shared.writeOutput]
      split <;> exact .of_same rfl rfl rfl rfl le_rfl
    | view | deadline | release | grew | setDescPos | stdinTake | pipeTake | pipePut | noteVfsPending
      | wantStdin => exact .of_same rfl rfl rfl rfl le_rfl
    | _ => cases h

theorem alert_bare (m : Machine) : m.bare.alert = m.alert := by
  have hview : m.quiet.view = m.view := Machine.Alike.view (Machine.quiet_quiet m)
  have hpending : m.quiet.view.pending = m.view.pending := congrArg View.pending hview
  exact congrArg (fun pending => (triage pending m.ctx.ownMask m.ctx.task).1) hpending

theorem watched_of_bare {m m' : Machine} (h : m'.bare = m.bare) : m.Watched m' := by
  have hflag := congrArg (fun m : Machine => m.ctx.exec.signalFlag) h
  have hsize := congrArg (fun m : Machine => m.inst.mem.size) h
  refine ⟨?_, hflag, hsize.ge⟩
  rw [← alert_bare m', h, alert_bare]

/-- What a monitor saw no stirring in has kept what it watches. -/
theorem watched_of_blocksIdle {α : Type} {p : Handler α} (hp : BlocksIdle p) {s t : Machine × W}
    (h : p.run (exec x) s = (.error .block, t)) : s.1.Watched t.1 := by
  have mem : ∀ (vs : List (Program.Visit sig (Machine × W))) (u : Bool),
      stirring.after u vs = false → u = false ∧ ∀ v ∈ vs, v.op.still = true := by
    intro vs
    induction vs with
    | nil => exact fun u hu => ⟨hu, by simp⟩
    | cons v vs ih =>
      intro u hu
      obtain ⟨hnext, hrest⟩ := ih _ hu
      obtain ⟨h0, hv⟩ : u = false ∧ v.op.still = true := by simpa [stirring] using hnext
      exact ⟨h0, by simpa [hv] using hrest⟩
  have hafter := Program.sat_run (exec x) (P := fun _ => True) (fun _ _ _ => ⟨trivial, trivial⟩)
    (hp false) (s := s) trivial (congrArg Prod.fst h)
  have halong : Program.Along (exec x) (fun o _ => o.still = true) p s :=
    (Program.along_iff_trace (exec x) _ p s).mpr (mem _ _ hafter).2
  have := Program.final_keeps_along (exec x) (P := fun u => s.1.Watched u.1)
    (fun o u hu ho => hu.trans (exec_still x o ho u)) (.refl _) halong
  rwa [Program.final, h] at this

/-- A call that has to wait leaves as many signals to be fetched as there were. -/
theorem watched_of_blocked {number : ℤ} {a : Args} {s t : Machine × W}
    (h : (handle number a).run (exec x) s = (.error .block, t)) : s.1.Watched t.1 := by
  by_cases hm : Nr.ofInt number = .mmap
  · rw [handle_mmap hm] at h
    exact watched_of_blocksIdle x (unstirring_mmap a).blocksIdle h
  by_cases hr : Nr.ofInt number = .readv
  · rw [handle_readv hr] at h
    exact watched_of_blocksIdle x (blocksIdle_vectorLoop (unstirring_read _) _ _ _ _) h
  by_cases hw : Nr.ofInt number = .writev
  · rw [handle_writev hw] at h
    exact watched_of_blocksIdle x (blocksIdle_vectorLoop (unstirring_write _) _ _ _ _) h
  · have hended := (calm_handle number a).ended x s
    have hbusy := hended.busy (Nr.kind_loose hm hr hw) (congrArg Prod.fst h)
    have hbare := (kept_of_unmarked x (handle number a) Mark.clear s hbusy).1
    rw [h] at hbare
    exact watched_of_bare hbare

theorem watched_suspendMask (m : Machine) (mask : Sigset) :
    m.Watched (Act.exec (.suspendMask mask) m).2 := by
  refine ⟨?_, rfl, le_rfl⟩
  have hown : ((Act.exec (.suspendMask mask) m).2).ctx.ownMask = m.ctx.ownMask := by
    rcases hr : m.ctx.exec.maskToRestore with _ | old <;>
      simp [Act.exec, Ctx.ownMask, hr]
  exact congrArg (fun own => (triage m.view.pending own m.ctx.task).1) hown

theorem watched_of_sigsuspend {a : Args} {s t : Machine × W} {r : Except Fault ℤ}
    (h : (Sys.rtSigsuspend a).run (exec x) s = (r, t)) : s.1.Watched t.1 := by
  obtain ⟨m, w⟩ := s
  simp only [Sys.rtSigsuspend, view, act, Program.call_bind, Program.ret_bind, Program.run_call,
    exec_act, Act.exec] at h
  rcases hu : m.inst.mem.u64 (asU32 a.a0) with e | n
  · simp only [Machine.view_mem, hu, lift_error, fail_bind, run_fail, Prod.mk.injEq] at h
    rw [← h.2]
    exact .refl m
  · simp only [Machine.view_mem, hu, lift_ok, Program.ret_bind, Program.run_call, exec_act] at h
    have hwatched := watched_suspendMask m (BitVec.ofNat 64 n)
    by_cases hl : ((Act.suspendMask (BitVec.ofNat 64 n)).exec m).2.view.live = 0
    · simp only [Act.exec] at h hl
      simp only [hl, ne_eq, not_true_eq_false, if_false, Program.run_fail, Prod.mk.injEq] at h
      rw [← h.2]
      exact hwatched
    · simp only [Act.exec] at h hl
      simp only [hl, ne_eq, not_false_eq_true, if_true, run_fail, Prod.mk.injEq] at h
      rw [← h.2]
      exact hwatched

/-- A signal was the reason for the call to end: it had to wait, or it was a
`rt_sigsuspend` that found one pending. -/
def Interrupted (number : ℤ) (a : Args) (m : Machine) (w : W) : Prop :=
  (((handle number a).run (exec x) (m.counted, w)).1 = .error .block ∧
    ((handle number a).run (exec x) (m.counted, w)).2.1.view.live ≠ 0) ∨
  (Nr.ofInt number = .rtSigsuspend ∧
    ((handle number a).run (exec x) (m.counted, w)).1 = .error (.errno .intr))

theorem Interrupted.watched {number : ℤ} {a : Args} {m : Machine} {w : W}
    (h : Interrupted x number a m w) :
    m.Watched ((handle number a).run (exec x) (m.counted, w)).2.1 := by
  have hcounted : m.Watched m.counted := ⟨rfl, rfl, le_rfl⟩
  refine hcounted.trans ?_
  rcases h with ⟨hblock, -⟩ | ⟨hn, -⟩
  · exact watched_of_blocked x (Prod.ext hblock rfl)
  · have hhandle : handle number a = Sys.rtSigsuspend a := by
      unfold handle
      rw [hn]
    rw [hhandle]
    exact watched_of_sigsuspend x (s := (m.counted, w)) rfl

/-- However it was interrupted, a call ends with `EINTR`, its mask put back and musl told. -/
theorem Interrupted.dispatch {number : ℤ} {a : Args} {m : Machine} {w : W}
    (h : Interrupted x number a m w) :
    (Wasmux.dispatch number a : Program sig Stop Outcome).run (exec x) (m, w) =
      (.ok (.value Errno.intr.asNeg),
        ((handle number a).run (exec x) (m.counted, w)).2.1.settled.flagged,
        ((handle number a).run (exec x) (m.counted, w)).2.2) := by
  rw [run_dispatch]
  rcases h with ⟨hblock, hlive⟩ | ⟨-, hintr⟩
  · rw [hblock]
    exact (conclude_block x _ _).trans (if_pos hlive)
  · rw [hintr]
    exact conclude_errno x _ _ _

/-- musl is told of a signal, and the next `sigfetch` has one for it. -/
structure Fetches (s : Machine × W) : Prop where
  flag : s.1.inst.mem.u32 s.1.ctx.exec.signalFlag = .ok 1
  signal : ∀ out, ((nextSignal out : Program sig Stop SignalDelivery).run (exec x) s).1 ≠ .ok .none

theorem live_settled (m : Machine) : m.settled.view.live = m.alert := rfl

theorem flagged_spec {m : Machine} (h : m.Registered) :
    m.flagged.view.live = m.view.live ∧
      m.flagged.inst.mem.u32 m.flagged.ctx.exec.signalFlag = .ok (if m.view.live ≠ 0 then 1 else 0) := by
  unfold Machine.flagged
  rw [if_neg h.1]
  simp only [Act.exec]
  split
  · rename_i mem hput
    refine ⟨rfl, (Mem.u32_put hput).trans (congrArg Except.ok (Nat.mod_eq_of_lt ?_))⟩
    split <;> omega
  · rename_i e hput
    unfold Mem.put at hput
    rw [toLe_length, if_pos h.2] at hput
    cases hput

theorem nextSignal_none_iff {ε : Type} (out : ℕ) (m : Machine) (w : W) :
    ((nextSignal out : Program sig ε SignalDelivery).run (exec x) (m, w)).1 = .ok .none ↔
      m.view.live = 0 := by
  rw [nextSignal, run_nextSignalFrom, View.live, Task.live_eq_zero]
  change Except.ok (m.fetch out).1 = _ ↔ m.due = []
  rw [Except.ok.injEq]
  rcases hdue : m.due with _ | ⟨n, rest⟩
  · rw [m.fetch_none out hdue]
    simp
  · by_cases hdfl : (m.ctx.task.action n).handler = sigDfl
    · rw [m.fetch_fatal out hdue hdfl]
      simp
    · obtain ⟨u, hfetch, -⟩ := m.fetch_handler out hdue hdfl
      rw [hfetch]
      simp

/-- A call that a signal interrupts comes with a signal exactly when the
process's own mask lets one through. -/
theorem interrupted_fetches_iff (number : ℤ) (a : Args) (m : Machine) (w : W)
    (hflag : m.Registered) (h : Interrupted x number a m w) :
    Fetches x ((dispatch number a : Program sig Stop Outcome).run (exec x) (m, w)).2 ↔ m.alert ≠ 0 := by
  have hwatched := h.watched x
  rw [h.dispatch x]
  generalize ((handle number a).run (exec x) (m.counted, w)).2 = s at hwatched
  have hreg : s.1.settled.Registered := hwatched.registered hflag
  obtain ⟨hlive, hword⟩ := flagged_spec hreg
  rw [live_settled, hwatched.alert] at hlive hword
  constructor
  · intro hf halert
    exact hf.signal 0 ((nextSignal_none_iff x 0 _ _).mpr (hlive.trans halert))
  · intro halert
    refine ⟨?_, fun out hnone => halert (hlive.symm.trans ((nextSignal_none_iff x out _ _).mp hnone))⟩
    rw [if_pos halert] at hword
    exact hword

end

/-- A process that was sent signal 10 and holds nothing back. -/
def Machine.signalled : Machine where
  ctx := { (default : Ctx) with exec := { (default : ExecState) with signalFlag := 200 } }
  shared := { (Config.bare []).shared 0 with table := [(ProcRecord.new 0 0 0 0).raise 10] }
  inst := ⟨⟨page, fun _ => 0⟩, 0, false⟩

theorem interrupted_fetches_iff_signalled :
    Fetches (.still Unit) ((dispatch 133 ⟨0, 8, 0, 0, 0, 0⟩ : Program sig Stop Outcome).run
        (exec (.still Unit)) (Machine.signalled, ())).2 ↔ Machine.signalled.alert ≠ 0 :=
  interrupted_fetches_iff (.still Unit) 133 ⟨0, 8, 0, 0, 0, 0⟩ Machine.signalled ()
    ⟨by decide, by decide⟩ (.inr ⟨rfl, rfl⟩)

/-- A guest that catches signal 10, holds every signal back and sends itself that one. -/
def Env.selfSignal : Env (List GuestRun) :=
  .scripted (.startingWith (argWords [10, 96, 0, 8, 0, 0, sigSetmask, 112, 0, 8, 0, 0,
    1, 10, 0, 0, 0, 0, 120, 8, 0, 0, 0, 0, 5, 0, 0, 0, -1, -1, 0, 0]))

/-- A `rt_sigsuspend` that lets the signal in ends with `EINTR`, and the signal
is held back again before it can be fetched. -/
theorem sigsuspend_fetches_nothing : ∃ (k : Kernel) (w : List GuestRun) (p : Proc),
    Reached Env.selfSignal (fun _ _ => True) k w ∧ k.procs[0]? = some p ∧
      (k.machineOf p).Registered ∧
      Interrupted Env.selfSignal 133 ⟨120, 8, 0, 0, 0, 0⟩ (k.machineOf p) w ∧
      ¬ Fetches Env.selfSignal ((dispatch 133 ⟨120, 8, 0, 0, 0, 0⟩ : Program sig Stop Outcome).run
        (exec Env.selfSignal) (k.machineOf p, w)).2 := by
  have hrun : (Config.bare [.guest 0]).drive Env.selfSignal
      [⟨[.init 200, .syscall 134 0, .syscall 135 24, .syscall 129 48, .setjmp 0], none⟩] 2
      [⟨some 0, none⟩] = some (_, _) := rfl
  refine ⟨_, _, _, .between _ _ (between_drive hrun), rfl, ⟨by decide, by decide⟩, .inr ⟨rfl, rfl⟩, ?_⟩
  intro h
  exact h.signal 0 rfl

end Wasmux
