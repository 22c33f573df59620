import Wasmux.Effects.Tally
import Wasmux.Rules
import Wasmux.Calls
import Wasmux.Accounts
import Wasmux.Entries

/-!
# Calls being served

Which parts of a slice take up calls, and how many: a handler takes up none, a
call is one, and a pass takes up what its guests are served each time they are
entered, and one more for each call that was left waiting.
-/

set_option autoImplicit false

namespace Wasmux
open Effects Abi

def Op.serves : Op → Bool
  | .act .served => true
  | _ => false

def KOp.serves : KOp → Bool
  | .machine _ o => o.serves
  | _ => false

def GuestAct.isSyscall : GuestAct → Bool
  | .syscall _ _ => true
  | _ => false

def GuestRun.calls (r : GuestRun) : ℕ := r.acts.countP GuestAct.isSyscall

def anything (o : Op) (_ : o.Ans) : Prop := True

section
variable {α β ε : Type}

/-- Operations of a handler's program that take up at most `n` calls. -/
abbrev TakesAtMost (n : ℕ) (p : Program sig ε α) : Prop := Program.AtMost anything Op.serves n p

theorem takes_act (a : Act) (h : (Op.act a).serves = false) :
    TakesAtMost 0 (act a : Program sig ε a.Ans) := Program.atMost_call h fun _ _ => Program.atMost_ret _

theorem takes_env (c : EnvCall) : TakesAtMost 0 (env c : Program sig ε c.Ans) :=
  Program.atMost_call rfl fun _ _ => Program.atMost_ret _

/-- A calm call takes up no other. -/
theorem Calm.takes {κ : Kind} {p : Handler α} (hp : Calm κ p) (hκ : κ.rare .served = false) :
    TakesAtMost 0 p := by
  intro base
  refine (hp Mark.clear rfl rfl).follow
    (R := fun (t : Mark) u => u = base + t.rare.countP fun a => (Op.act a).serves) ?_ ?_ rfl
  · intro t u o a hu _
    refine ⟨trivial, ?_⟩
    have hrare : o.rare.countP (fun a => (Op.act a).serves) = if o.serves then 1 else 0 := by
      cases o with
      | env c => rfl
      | act b => cases b <;> rfl
    simp only [footprint, Program.tally, List.countP_append, hrare, hu]
    split <;> omega
  · intro t u r hu hend
    have hnone : t.rare.countP (fun a => (Op.act a).serves) = 0 := by
      rw [List.countP_eq_zero]
      intro a ha hs
      have hrare := (hend.rare a ha).resolve_left (by simp [Mark.clear])
      cases a with
      | served => simp [hκ] at hrare
      | _ => cases hs
    omega

theorem takes_handle (number : ℤ) (a : Args) : TakesAtMost 0 (handle number a) := by
  refine (calm_handle number a).takes ?_
  cases Nr.ofInt number <;> rfl

theorem takes_finish : TakesAtMost 0 (finish : Program sig ε Unit) := by
  refine Program.atMost_after (takes_act _ rfl) fun _ => ?_
  refine Program.atMost_after (takes_act _ rfl) fun v => Program.atMost_ite (Program.atMost_ret _) ?_
  exact Program.atMost_after (takes_act _ rfl) fun _ => Program.atMost_ret _

theorem takes_conclude (r : Except Fault ℤ) : TakesAtMost 0 (conclude r : Program sig ε Outcome) := by
  have hend : ∀ o : Outcome, TakesAtMost 0 (finish >>= fun _ => .ret o : Program sig ε Outcome) := fun o =>
    Program.atMost_after takes_finish fun _ => Program.atMost_ret _
  rcases r with fault | v
  · cases fault with
    | errno e => exact hend _
    | block =>
      refine Program.atMost_after (takes_act _ rfl) fun v => ?_
      exact Program.atMost_ite (hend _) (Program.atMost_ret _)
    | exit status => exact Program.atMost_ret _
    | exec => exact Program.atMost_ret _
  · exact hend _

theorem takes_dispatch (number : ℤ) (a : Args) :
    TakesAtMost 1 (dispatch number a : Program sig ε Outcome) := by
  have hserved : TakesAtMost 1 (act .served : Program sig ε Unit) :=
    Program.atMost_call_succ fun _ _ => Program.atMost_ret _
  have hrest : TakesAtMost 0 ((handle number a).catching >>= conclude : Program sig ε Outcome) :=
    Program.atMost_after (Program.atMost_catching (takes_handle number a)) takes_conclude
  exact Program.atMost_bind hserved fun _ => hrest

theorem takes_nextSignalFrom (out turns : ℕ) :
    TakesAtMost 0 (nextSignalFrom out turns : Program sig ε SignalDelivery) := by
  refine Program.Only.atMost ((delivers_nextSignalFrom out turns).mono fun o ho => ?_)
  cases o with
  | env => rfl
  | act a =>
    cases a with
    | served => cases ho
    | _ => rfl

theorem takes_syscall (number argsPtr : ℕ) :
    TakesAtMost 1 (Import.syscall number argsPtr : Program sig ε ℤ) := by
  unfold Import.syscall
  refine Program.atMost_after (takes_act _ rfl) fun v => ?_
  refine Program.atMost_ite ((takes_act _ rfl).mono (Nat.zero_le _)) ?_
  cases Import.readArgs v.mem argsPtr with
  | error e => exact Program.atMost_ret _
  | ok args =>
    dsimp only
    generalize asI32 (number : ℤ) = n
    refine Program.atMost_before (takes_dispatch n args) fun outcome => ?_
    cases outcome with
    | value v => exact Program.atMost_ret _
    | blocked =>
      refine Program.atMost_after (takes_act _ rfl) fun _ => ?_
      exact Program.atMost_after (takes_act _ rfl) fun _ => Program.atMost_ret _
    | exit status => exact Program.atMost_after (takes_act _ rfl) fun _ => Program.atMost_ret _
    | exec => exact Program.atMost_after (takes_act _ rfl) fun _ => Program.atMost_ret _

/-- One thing a guest does is at most one call. -/
theorem takes_guestAct (g : GuestAct) :
    TakesAtMost (if g.isSyscall then 1 else 0) (guestAct g : Program sig ε Unit) := by
  unfold guestAct
  refine Program.atMost_after (takes_act _ rfl) fun v => ?_
  cases g with
  | compute mem sp => exact takes_act _ rfl
  | syscall number argsPtr =>
    refine Program.atMost_ite (Program.atMost_ret _) (Program.atMost_before ?_ fun _ => Program.atMost_ret _)
    exact takes_syscall number argsPtr
  | setjmp buf =>
    refine Program.atMost_ite (Program.atMost_ret _) (Program.atMost_after ?_ fun _ => Program.atMost_ret _)
    refine Program.atMost_after (takes_act _ rfl) fun v => ?_
    exact Program.atMost_ite (takes_act _ rfl)
      (Program.atMost_after (takes_act _ rfl) fun _ => Program.atMost_ret _)
  | longjmp buf value => exact Program.atMost_ite (Program.atMost_ret _) (takes_act _ rfl)
  | init flag => exact Program.atMost_ite (Program.atMost_ret _) (takes_act _ rfl)
  | args buffer capacity =>
    refine Program.atMost_ite (Program.atMost_ret _) (Program.atMost_after ?_ fun _ => Program.atMost_ret _)
    refine Program.atMost_after (takes_act _ rfl) fun v => ?_
    refine Program.atMost_after (takes_env _) fun seed => ?_
    refine Program.atMost_ite (Program.atMost_ret _) (Program.atMost_ite (Program.atMost_ret _) ?_)
    refine Program.atMost_after (takes_act _ rfl) fun r => ?_
    cases r <;> exact Program.atMost_ret _
  | sigfetch out =>
    refine Program.atMost_ite (Program.atMost_ret _) (Program.atMost_after ?_ fun _ => Program.atMost_ret _)
    refine Program.atMost_after (takes_nextSignalFrom _ _) fun d => ?_
    cases d with
    | none => exact Program.atMost_ret _
    | handler => exact Program.atMost_ret _
    | fatal status => exact Program.atMost_after (takes_act _ rfl) fun _ => Program.atMost_ret _

theorem takes_runActs (acts : List GuestAct) :
    TakesAtMost (acts.countP GuestAct.isSyscall) (runActs acts : Program sig ε Unit) := by
  induction acts with
  | nil => exact Program.atMost_ret _
  | cons g rest ih =>
    refine Program.AtMost.mono (Program.atMost_bind (takes_guestAct g) fun _ => ih) ?_
    rw [List.countP_cons, Nat.add_comm]

end

namespace Scheduler
variable {α : Type}

/-- Operations of the scheduler that take up at most `n` calls. -/
abbrev TakesAtMost (n : ℕ) (p : Sched α) : Prop := Program.AtMost (fun _ _ => True) KOp.serves n p

theorem takes_kact (a : KAct) : TakesAtMost 0 (kact a) :=
  Program.atMost_call rfl fun _ _ => Program.atMost_ret _

theorem takes_kenv (c : KCall) : TakesAtMost 0 (kenv c) :=
  Program.atMost_call rfl fun _ _ => Program.atMost_ret _

theorem takes_onProc {n index : ℕ} {p : Program sig Stop α} (hp : Wasmux.TakesAtMost n p) :
    TakesAtMost n (onProc index p) :=
  Program.atMost_relabel (fun _ => rfl) (fun _ _ _ => trivial) hp

theorem takes_closeFiles (handles : List Handle) : TakesAtMost 0 (closeFiles handles) := by
  induction handles with
  | nil => exact Program.atMost_ret _
  | cons handle rest ih => exact Program.atMost_after (takes_kenv _) fun _ => ih

theorem takes_prepare (program : ProgramId) (argv : List Bytes) : TakesAtMost 0 (prepare program argv) := by
  unfold prepare reserve
  repeat' first
    | exact Program.atMost_ret _
    | refine Program.atMost_after (takes_kact _) fun _ => ?_
    | refine Program.atMost_after (takes_kenv _) fun _ => ?_
    | split

theorem takes_startPending (count : ℕ) : TakesAtMost 0 (startPending count) := by
  induction count with
  | zero => exact Program.atMost_ret _
  | succ count ih =>
    unfold startPending
    refine Program.atMost_after (takes_kact _) fun v => ?_
    split
    · exact Program.atMost_ret _
    · refine Program.atMost_after (takes_prepare _ _) fun launch => ?_
      cases launch with
      | some launch => exact Program.atMost_after (takes_kact _) fun _ => ih
      | none =>
        refine Program.atMost_after (takes_kact _) fun handles => ?_
        exact Program.atMost_after (takes_closeFiles _) fun _ => ih

theorem takes_replaceInstance (index : ℕ) : TakesAtMost 0 (replaceInstance index) := by
  unfold replaceInstance
  refine Program.atMost_after (takes_kact _) fun request => ?_
  cases request with
  | none => exact Program.atMost_ret _
  | some spawn =>
    refine Program.atMost_after (takes_kact _) fun _ => ?_
    refine Program.atMost_after (takes_prepare _ _) fun launch => ?_
    cases launch with
    | some launch => exact Program.atMost_after (takes_kact _) fun _ => Program.atMost_ret _
    | none =>
      refine Program.atMost_after (takes_kact _) fun handles => ?_
      exact Program.atMost_after (takes_closeFiles _) fun _ => Program.atMost_ret _

theorem takes_afterReturn (index : ℕ) : TakesAtMost 0 (afterReturn index) := by
  unfold afterReturn
  refine Program.atMost_after (takes_kact _) fun why => ?_
  rcases why with _ | ⟨buf, sp⟩ | ⟨buf, value⟩ | ⟨number, args⟩ | status | _
  · exact Program.atMost_ret _
  · exact Program.atMost_after (takes_kact _) fun _ => Program.atMost_ret _
  · refine Program.atMost_after (takes_kact _) fun restored => ?_
    exact Program.atMost_ite (Program.atMost_ret _) (Program.atMost_ret _)
  · exact Program.atMost_after (takes_kact _) fun _ => Program.atMost_ret _
  · exact Program.atMost_ret _
  · exact takes_replaceInstance index

theorem takes_flush (index : ℕ) (fd : ℤ) (bytes : Bytes) (turns done : ℕ) :
    TakesAtMost 0 (flush index fd bytes turns done) := by
  induction turns generalizing done with
  | zero => exact Program.atMost_ret _
  | succ turns ih =>
    unfold flush
    refine Program.atMost_ite (Program.atMost_ret _) ?_
    refine Program.atMost_after (takes_onProc (Program.atMost_catching
      ((calm_writeBytes (κ := .plain) fd _).takes rfl))) fun answer => ?_
    refine Program.atMost_after (takes_kact _) fun _ => ?_
    rcases answer with fault | n
    · cases fault <;> exact Program.atMost_ret _
    · exact Program.atMost_ite (Program.atMost_ret _) (ih _)

theorem takes_flushAll (index : ℕ) : TakesAtMost 0 (flushAll index) := by
  unfold flushAll
  refine Program.atMost_after (takes_kact _) fun view => ?_
  split
  · refine Program.atMost_after (takes_flush _ _ _ _ _) fun r => ?_
    cases r with
    | blocked => exact Program.atMost_ret _
    | finished =>
      refine Program.atMost_after (takes_flush _ _ _ _ _) fun r => ?_
      cases r <;> exact Program.atMost_ret _
  · exact Program.atMost_ret _

theorem takes_invoke (index : ℕ) : TakesAtMost 0 (invoke index) := by
  unfold invoke
  refine Program.atMost_after (takes_kact _) fun view => ?_
  split
  · refine Program.atMost_after (takes_kenv _) fun r => ?_
    rcases r with e | exit
    · refine Program.atMost_ite ?_ ?_
      · exact Program.atMost_after (takes_kact _) fun _ => Program.atMost_ret _
      · exact Program.atMost_after (takes_kact _) fun _ => takes_flushAll index
    · exact Program.atMost_after (takes_kact _) fun _ => takes_flushAll index
  · exact Program.atMost_ret _

theorem takes_drain (index turns : ℕ) : TakesAtMost 0 (drain index turns) := by
  induction turns with
  | zero => exact Program.atMost_fail _
  | succ turns ih =>
    unfold drain
    refine Program.atMost_after (takes_onProc (Program.atMost_catching
      ((calm_readBytes (κ := .plain) 0 8192).takes rfl))) fun r => ?_
    rcases r with fault | r
    · cases fault <;> exact Program.atMost_ret _
    · refine Program.atMost_ite (Program.atMost_ret _) ?_
      exact Program.atMost_after (takes_kact _) fun _ => ih

theorem takes_stepHost (turns index : ℕ) : TakesAtMost 0 (stepHost turns index) := by
  unfold stepHost
  refine Program.atMost_after (takes_kact _) fun view => ?_
  split
  · exact Program.atMost_ret _
  · split
    · refine Program.atMost_ite ?_ (takes_invoke index)
      refine Program.atMost_after (takes_drain index turns) fun r => ?_
      cases r with
      | blocked => exact Program.atMost_ret _
      | all => exact takes_invoke index
    · exact takes_flushAll index

theorem takes_killAll (status : ℤ) (count : ℕ) : TakesAtMost 0 (killAll status count) := by
  induction count with
  | zero => exact takes_kact _
  | succ count ih =>
    unfold killAll
    refine Program.atMost_after (takes_kact _) fun handles => ?_
    exact Program.atMost_after (takes_closeFiles _) fun _ => ih

theorem takes_pastDeadline : TakesAtMost 0 pastDeadline := by
  unfold pastDeadline
  repeat' first
    | exact Program.atMost_ret _
    | refine Program.atMost_after (takes_kact _) fun _ => ?_
    | refine Program.atMost_after (takes_kenv _) fun _ => ?_
    | split

end Scheduler

/-! ## What a run serves -/

section
variable {α β W : Type} (x : Env W)

/-- Whether an operation takes up a call of a process that is there. -/
def KOp.servedBy : KOp → Kernel → Bool
  | .machine index o, k => o.serves && (k.procs[index]?).isSome
  | _, _ => false

def KOp.serving (o : KOp) (s : Kernel × W) : ℕ := if o.servedBy s.1 then 1 else 0

/-- The calls an operation serves that the session's counter has no room for. -/
def KOp.overflowing (o : KOp) (s : Kernel × W) : ℕ := if u64Max ≤ s.1.shared.syscalls then o.serving s else 0

/-- How many calls a run serves. -/
def served (p : Sched α) (s : Kernel × W) : ℕ := p.weighed (kexec x) KOp.serving s

def overflowed (p : Sched α) (s : Kernel × W) : ℕ := p.weighed (kexec x) KOp.overflowing s

theorem kexec_syscalls (o : KOp) (s : Kernel × W) : (kexec x o s).2.1.shared.syscalls =
    if o.servedBy s.1 then satAddU64 s.1.shared.syscalls 1 else s.1.shared.syscalls := by
  obtain ⟨k, w⟩ := s
  cases o with
  | machine index o =>
    rcases hp : k.procs[index]? with _ | p
    · rw [kexec_machine_none x hp]
      simp [KOp.servedBy, hp]
    · rw [kexec_machine x hp]
      cases o with
      | env c => rfl
      | act a =>
        by_cases ha : a.counts = true
        · cases a with
          | charge bytes =>
            simp only [Kernel.putMachine, exec_act, Act.exec, Shared.chargeMemory]
            split <;> rfl
          | release bytes => rfl
          | served => simp [KOp.servedBy, Op.serves, hp, Kernel.putMachine, Act.exec, Machine.setShared,
              Kernel.machineOf]
          | _ => cases ha
        · have haccount := a.account_exec (k.machineOf p) (by simpa using ha)
          have hserves : (Op.act a).serves = false := by
            cases a with
            | served => exact absurd rfl ha
            | _ => rfl
          simp only [KOp.servedBy, hserves, Bool.false_and]
          exact congrArg Account.syscalls haccount
  | env c => rfl
  | act a =>
    by_cases ha : a.counts = true
    · cases a with
      | charge bytes =>
        simp only [kexec_act, KAct.exec, Shared.chargeMemory]
        split <;> rfl
      | release bytes => rfl
      | releaseInstance index =>
        simp only [kexec_act, KAct.exec]
        split <;> rfl
      | finishProcess index status =>
        have haccount := congrArg Account.syscalls (account_finishProcess k index status)
        refine haccount.trans ?_
        split <;> rfl
      | _ => cases ha
    · exact congrArg Account.syscalls (a.account_exec k (by simpa using ha))

/-- The counter of calls is one of 64 bits. -/
def Kernel.Counted (k : Kernel) : Prop := k.shared.syscalls ≤ u64Max

theorem counted_kexec (o : KOp) (s : Kernel × W) (h : s.1.Counted) : (kexec x o s).2.1.Counted := by
  unfold Kernel.Counted
  rw [kexec_syscalls]
  split
  · exact Nat.min_le_left _ _
  · exact h

theorem counted_final (p : Sched α) {s : Kernel × W} (h : s.1.Counted) : (p.final (kexec x) s).1.Counted :=
  Program.final_keeps (kexec x) (P := fun s => s.1.Counted) (fun o s hs => counted_kexec x o s hs) p h

/-- The kernel's own counter tells how many calls were served, but for those it has no room for. -/
theorem syscalls_final (p : Sched α) {s : Kernel × W} (h : s.1.Counted) :
    (p.final (kexec x) s).1.shared.syscalls + overflowed x p s = s.1.shared.syscalls + served x p s := by
  induction p generalizing s with
  | ret a => rfl
  | fail e => rfl
  | call o k ih =>
    have hrest := ih (kexec x o s).1 (counted_kexec x o s h)
    have hone := kexec_syscalls x o s
    show ((k (kexec x o s).1).final (kexec x) (kexec x o s).2).1.shared.syscalls +
        (o.overflowing s + overflowed x (k (kexec x o s).1) (kexec x o s).2) =
      s.1.shared.syscalls + (o.serving s + served x (k (kexec x o s).1) (kexec x o s).2)
    unfold Kernel.Counted at h
    unfold KOp.overflowing KOp.serving
    cases hb : o.servedBy s.1 with
    | true =>
      simp only [hb, if_true, satAddU64] at hone ⊢
      split <;> omega
    | false =>
      simp only [hb, Bool.false_eq_true, if_false] at hone ⊢
      split <;> omega

theorem overflowed_le (p : Sched α) (s : Kernel × W) : overflowed x p s ≤ served x p s := by
  induction p generalizing s with
  | ret a => exact Nat.le_refl 0
  | fail e => exact Nat.le_refl 0
  | call o k ih =>
    refine Nat.add_le_add ?_ (ih _ _)
    unfold KOp.overflowing
    split
    · exact Nat.le_refl _
    · exact Nat.zero_le _

theorem Scheduler.TakesAtMost.served_le {n : ℕ} {p : Sched α} (h : Scheduler.TakesAtMost n p)
    (s : Kernel × W) : served x p s ≤ n := by
  refine h.weighed_le (kexec x) KOp.serving (fun _ _ => trivial) ?_ s
  intro o t
  unfold KOp.serving
  cases o with
  | machine index o =>
    cases hserves : o.serves with
    | true => simp [KOp.servedBy, KOp.serves, hserves]; split <;> omega
    | false => simp [KOp.servedBy, hserves]
  | env | act => exact Nat.zero_le _

/-- Wherever the run enters a guest it is served at most `b` calls before its stack
is saved or it ends. -/
def Entries (b : ℕ) (p : Sched α) (s : Kernel × W) : Prop := ∀ index (f : ProcStep → Sched α) u,
  Program.Comes (kexec x) p s (Scheduler.enter index >>= f) u → served x (Scheduler.enter index) u ≤ b

variable {x}

theorem Entries.later {b : ℕ} {p q : Sched α} {s t : Kernel × W} (h : Entries x b p s)
    (hcomes : Program.Comes (kexec x) p s q t) :
    Entries x b q t := fun index f u hu => h index f u (hcomes.trans _ hu)

/-- As part of a slice with such entries the program serves at most `n` calls. -/
def ServesAtMost (x : Env W) (b n : ℕ) (p : Sched α) : Prop :=
  ∀ (f : α → Sched Slice) s, Entries x b (p >>= f) s → served x p s ≤ n

variable {b n m : ℕ}

theorem Scheduler.TakesAtMost.serves {p : Sched α} (h : Scheduler.TakesAtMost n p) : ServesAtMost x b n p :=
  fun _ s _ => h.served_le x s

theorem ServesAtMost.mono {p : Sched α} (h : ServesAtMost x b n p) (hm : n ≤ m) : ServesAtMost x b m p :=
  fun f s hs => (h f s hs).trans hm

theorem servesAtMost_bind {p : Sched α} {f : α → Sched β} (hp : ServesAtMost x b n p)
    (hf : ∀ a, ServesAtMost x b m (f a)) :
    ServesAtMost x b (n + m) (p >>= f) := by
  intro g s hs
  rw [Program.bind_assoc] at hs
  refine Program.weighed_bind_le _ _ (hp _ s hs) fun a t ht => hf a g t ?_
  exact hs.later (Program.comes_bind _ ht)

theorem servesAtMost_after {p : Sched α} {f : α → Sched β} (hp : Scheduler.TakesAtMost 0 p)
    (hf : ∀ a, ServesAtMost x b n (f a)) : ServesAtMost x b n (p >>= f) :=
  (servesAtMost_bind hp.serves hf).mono (by omega)

theorem servesAtMost_before {p : Sched α} {f : α → Sched β} (hp : ServesAtMost x b n p)
    (hf : ∀ a, Scheduler.TakesAtMost 0 (f a)) : ServesAtMost x b n (p >>= f) :=
  servesAtMost_bind hp fun a => (hf a).serves

theorem servesAtMost_ite {c : Prop} [Decidable c] {p q : Sched α} (hp : ServesAtMost x b n p)
    (hq : ServesAtMost x b n q) :
    ServesAtMost x b n (if c then p else q) := by
  split
  · exact hp
  · exact hq

namespace Scheduler

theorem serves_enter (index : ℕ) : ServesAtMost x b b (enter index) := fun f s hs => hs index f s (.here _ _)

theorem serves_retry (index : ℕ) (number : ℤ) (args : Args) :
    ServesAtMost x b (b + 1) (retry index number args) := by
  unfold retry
  rw [Nat.add_comm]
  have hcall : TakesAtMost 1 (onProc index (dispatch number args)) :=
    takes_onProc (takes_dispatch number args)
  refine servesAtMost_bind hcall.serves fun outcome => ?_
  cases outcome with
  | value value => exact servesAtMost_after (takes_kact _) fun _ => serves_enter index
  | blocked =>
    have hblocked : TakesAtMost b (kact (.setResume index (.blocked number args)) >>=
        fun _ => (.ret .stuck : Sched ProcStep)) :=
      Program.atMost_after (takes_kact _) fun _ => Program.atMost_ret _
    exact hblocked.serves
  | exit status => exact fun _ _ _ => Nat.zero_le _
  | exec => exact (takes_replaceInstance index).serves.mono (Nat.zero_le b)

theorem serves_stepProcess (turns index : ℕ) : ServesAtMost x b (b + 1) (stepProcess turns index) := by
  unfold stepProcess
  refine servesAtMost_after (takes_kact _) fun attached => ?_
  rcases attached with _ | _ | _ | _ | ⟨number, args⟩
  · exact fun _ _ _ => Nat.zero_le _
  · exact (takes_stepHost turns index).serves.mono (Nat.zero_le _)
  · exact (serves_enter index).mono (Nat.le_succ b)
  · exact (servesAtMost_after (takes_kact _) fun _ => serves_enter index).mono (Nat.le_succ b)
  · exact serves_retry index number args

theorem serves_stepAndPark (turns index : ℕ) : ServesAtMost x b (b + 1) (stepAndPark turns index) := by
  unfold stepAndPark
  refine servesAtMost_after (takes_kact _) fun before => ?_
  refine servesAtMost_before (serves_stepProcess turns index) fun step => ?_
  refine Program.atMost_after (takes_kact _) fun after => ?_
  exact Program.atMost_after (takes_kact _) fun _ => Program.atMost_ret _

/-- A pass gives each process in the list one turn. -/
theorem serves_pass (turns left index : ℕ) (progressed : Bool) :
    ServesAtMost x b (left * (b + 1)) (pass turns left index progressed) := by
  induction left generalizing index progressed with
  | zero => exact fun _ _ _ => Nat.zero_le _
  | succ left ih =>
    unfold pass
    refine servesAtMost_after (takes_kact _) fun v => ?_
    refine servesAtMost_ite (fun _ _ _ => Nat.zero_le _) ?_
    rw [Nat.succ_mul, Nat.add_comm]
    refine servesAtMost_bind (serves_stepAndPark turns index) fun step => ?_
    cases step with
    | ran => exact ih _ _
    | replaced => exact ih _ _
    | stuck => exact ih _ _
    | ended status =>
      refine servesAtMost_after (takes_kact _) fun handles => ?_
      refine servesAtMost_after (takes_closeFiles _) fun _ => ?_
      refine servesAtMost_after (takes_kact _) fun v => ?_
      cases v.exitStatus with
      | some status => exact fun _ _ _ => Nat.zero_le _
      | none => exact ih _ _

theorem takes_spent (budget : Budget) (count : ℕ) (started : Instant) :
    TakesAtMost 0 (spent budget count started) := by
  unfold spent
  refine Program.atMost_ite (Program.atMost_ret _) ?_
  split
  · exact Program.atMost_ret _
  · exact Program.atMost_after (takes_kenv _) fun _ => Program.atMost_ret _

theorem spent_more {budget : Budget} {limit : ℕ} (hlimit : budget.syscalls = some limit) {count : ℕ}
    {started : Instant} {s t : Kernel × W}
    (h : (spent budget count started).run (kexec x) s = (.ok false, t)) : count < limit := by
  by_contra hmore
  have hreached : (budget.syscalls.any fun limit => limit ≤ count) = true := by
    simp [hlimit, Nat.le_of_not_lt hmore]
  unfold spent at h
  rw [if_pos hreached] at h
  cases h

end Scheduler

theorem syscalls_unserved {p : Sched α} (h : Scheduler.TakesAtMost 0 p) {r : Except Stop α}
    {s t : Kernel × W} (hs : s.1.Counted) (hrun : p.run (kexec x) s = (r, t)) :
    t.1.shared.syscalls = s.1.shared.syscalls ∧ t.1.Counted := by
  have hfinal : p.final (kexec x) s = t := congrArg Prod.snd hrun
  have hcount := syscalls_final x p hs
  have hnone := h.served_le x s
  have hless := overflowed_le x p s
  rw [hfinal] at hcount
  have hcounted := counted_final x p hs
  rw [hfinal] at hcounted
  exact ⟨by omega, hcounted⟩

end

end Wasmux
