import Wasmux.Rules
import Wasmux.Interrupts
import Wasmux.Accounts

/-!
# Who dies of a signal

A guest that fetches a fatal signal has its stack unwound, and its process is
then torn down as a whole. That is the process the signal was sent to only
while no `vfork` child runs in its instance.
-/

set_option autoImplicit false

namespace Wasmux
open Effects Abi

namespace Shared

@[simp] theorem exits_setExit (sh : Shared) (pid status : ℤ) :
    (sh.setExit pid status).exits = sh.exits ++ [(pid, status)] := by
  unfold setExit
  dsimp only
  split <;> rfl

@[simp] theorem exits_releaseAll (keys : List DescKey) (sh : Shared) :
    (sh.releaseAll keys).2.exits = sh.exits := by
  obtain ⟨descs, pipes, h⟩ := releaseAll_eq keys sh
  rw [h]

@[simp] theorem exits_releaseFds (table : FdTable) (sh : Shared) :
    (sh.releaseFds table).2.exits = sh.exits := exits_releaseAll _ sh

theorem exits_killChildren (status : ℤ) (stack : List Task) (task : Task) (sh : Shared) :
    (Kernel.killChildren status stack task sh).2.2.exits.length = sh.exits.length + stack.length := by
  induction stack generalizing task sh with
  | nil => rfl
  | cons parent stack ih =>
    simp only [Kernel.killChildren, ih, exits_setExit, exits_releaseFds, List.length_append,
      List.length_cons, List.length_nil]
    omega

end Shared

namespace Kernel
variable {k : Kernel} {index : ℕ} {p : Proc}

theorem exits_finishProcess_length (h : k.procs[index]? = some p) (status : ℤ) :
    (k.finishProcess index status).2.shared.exits.length =
      k.shared.exits.length + p.ctx.vforkStack.length + 1 := by
  simp [finishProcess, h, Shared.exits_killChildren, Shared.releaseMemory]

theorem exits_finishProcess_alone (h : k.procs[index]? = some p) (halone : p.ctx.vforkStack = [])
    (status : ℤ) : (k.finishProcess index status).2.shared.exits =
      k.shared.exits ++ [(p.ctx.task.pid, status)] := by
  simp [finishProcess, h, halone, killChildren, Shared.releaseMemory]

end Kernel

section
variable {ε W : Type} (x : Env W)

/-- What a fatal signal is: one that is pending on the caller's own record. -/
theorem nextSignal_fatal {out : ℕ} {m : Machine} {w : W} {status : ℤ} {t : Machine × W}
    (h : (nextSignal out : Program sig ε SignalDelivery).run (exec x) (m, w) = (.ok (.fatal status), t)) :
    (∃ s : ℕ, status = statusSignaled s ∧ m.view.pending.getLsbD s = true) ∧
      t.1.ctx = m.ctx ∧ t.1.shared.exits = m.shared.exits := by
  rw [nextSignal, run_nextSignalFrom] at h
  rcases hdue : m.due with _ | ⟨n, rest⟩
  · rw [m.fetch_none out hdue] at h
    cases h
  · by_cases hdfl : (m.ctx.task.action n).handler = sigDfl
    · rw [m.fetch_fatal out hdue hdfl] at h
      obtain ⟨hstatus, rfl⟩ := Prod.mk.inj h
      have hpending : m.view.pending.getLsbD n = true :=
        ((Task.mem_due _ _ _ n).mp (by rw [← Machine.due, hdue]; exact List.mem_cons_self)).2.1
      refine ⟨⟨n, ?_, hpending⟩, m.discarded_ctx, ?_⟩
      · exact (SignalDelivery.fatal.inj (Except.ok.inj hstatus)).symm
      · exact m.exits_discarded
    · obtain ⟨u, hfetch, -⟩ := m.fetch_handler out hdue hdfl
      rw [hfetch] at h
      cases h

/-- While its stack is being saved a guest does nothing but compute. -/
theorem runActs_saving (acts : List GuestAct) (m : Machine) (w : W) (h : m.inst.unwinding = true) :
    ∃ inst, (runActs acts : Program sig ε Unit).run (exec x) (m, w) =
    (.ok (), { m with inst := inst }, w) := by
  induction acts generalizing m with
  | nil => exact ⟨m.inst, rfl⟩
  | cons g acts ih =>
    have hview : m.view.unwinding = true := h
    have hone : ∃ m' : Machine, (guestAct g : Program sig ε Unit).run (exec x) (m, w) = (.ok (), m', w) ∧
        m'.inst.unwinding = true ∧ m'.ctx = m.ctx ∧ m'.shared = m.shared := by
      cases g with
      | compute mem sp => exact ⟨_, rfl, h, rfl, rfl⟩
      | _ =>
        refine ⟨m, ?_, h, rfl, rfl⟩
        simp only [guestAct, view, act, Program.call_bind, Program.ret_bind, Program.run_call, exec_act,
          Act.exec, hview, if_true, Program.run_ret]
    obtain ⟨m', hrun, hsaving, hctx, hshared⟩ := hone
    obtain ⟨inst, hrest⟩ := ih m' hsaving
    refine ⟨inst, ?_⟩
    rw [runActs, Program.run_bind_ok (exec x) hrun, hrest, hctx, hshared]

theorem runActs_append (acts more : List GuestAct) :
    (runActs (acts ++ more) : Program sig ε Unit) = runActs acts >>= fun _ => runActs more := by
  induction acts with
  | nil => rfl
  | cons g acts ih => simp only [List.cons_append, runActs, ih, Program.bind_assoc]

/-- A guest that fetches a fatal signal leaves by unwinding its stack. -/
theorem runActs_fatal {before : List GuestAct} (rest : List GuestAct) {out : ℕ} {m m' : Machine} {w w' : W}
    {status : ℤ} {t : Machine × W}
    (hbefore : (runActs before : Program sig ε Unit).run (exec x) (m, w) = (.ok (), m', w'))
    (hawake : m'.inst.unwinding = false)
    (hfatal : (nextSignal out : Program sig ε SignalDelivery).run (exec x) (m', w') =
    (.ok (.fatal status), t)) :
    ∃ inst, (runActs (before ++ .sigfetch out :: rest) : Program sig ε Unit).run (exec x) (m, w) =
      (.ok (), { t.1.unwind (.exit status) with inst := inst }, t.2) := by
  obtain ⟨m'', w''⟩ := t
  have hview : m'.view.unwinding = false := hawake
  have hfetch : (guestAct (.sigfetch out) : Program sig ε Unit).run (exec x) (m', w') =
      (.ok (), m''.unwind (.exit status), w'') := by
    simp only [guestAct, view, act, Program.call_bind, Program.ret_bind, Program.run_call, exec_act, Act.exec,
      hview, Bool.false_eq_true, if_false, Import.sigfetch, Program.bind_assoc]
    exact (Program.run_bind_ok (exec x) hfatal).trans rfl
  obtain ⟨inst, hrest⟩ := runActs_saving x (ε := ε) rest (m''.unwind (.exit status)) w'' rfl
  refine ⟨inst, ?_⟩
  rw [runActs_append, Program.run_bind_ok (exec x) hbefore, runActs, Program.run_bind_ok (exec x) hfetch]
  exact hrest

/-- Process `index` is entered, asks as `m` for its next signal, is told of one
that is fatal, and returns. -/
def FetchesFatal (k : Kernel) (w : W) (index : ℕ) (m : Machine) (status : ℤ) : Prop :=
  ∃ proc run before out rest w₁ w₂ t, k.procs[index]? = some proc ∧ x.guest proc.inst w = (run, w₁) ∧
    run.trap = none ∧ run.acts = before ++ .sigfetch out :: rest ∧
    (runActs before : Program sig Stop Unit).run (exec x) (k.machineOf proc, w₁) = (.ok (), m, w₂) ∧
    m.inst.unwinding = false ∧
    (nextSignal out : Program sig Stop SignalDelivery).run (exec x) (m, w₂) = (.ok (.fatal status), t)

/-- What the kernel becomes when the step has ended with this status. -/
def Kernel.ended (k : Kernel) (index : ℕ) (external : Bool) (status : ℤ) : Kernel :=
  (((KAct.endStep index external).exec k).2.finishProcess index status).2

/-- Only the process that asked ends, by a signal that was sent to it. -/
structure EndsAlone (m : Machine) (status : ℤ) (k : Kernel) : Prop where
  sent : ∃ s : ℕ, status = statusSignaled s ∧ m.view.pending.getLsbD s = true
  alone : k.shared.exits = m.shared.exits ++ [(m.ctx.task.pid, status)]

theorem ended_spec {k : Kernel} {index : ℕ} {p : Proc} (h : k.procs[index]? = some p) (external : Bool)
    (status : ℤ) : (k.ended index external status).shared.exits.length =
      k.shared.exits.length + p.ctx.vforkStack.length + 1 ∧
    (p.ctx.vforkStack = [] → (k.ended index external status).shared.exits =
      k.shared.exits ++ [(p.ctx.task.pid, status)]) := by
  have hproc : ((KAct.endStep index external).exec k).2.procs[index]? =
      some { p with parked := p.parked || external } := by
    simp [KAct.exec, Kernel.modifyProc, h]
  exact ⟨Kernel.exits_finishProcess_length hproc status,
    fun halone => Kernel.exits_finishProcess_alone hproc halone status⟩

theorem run_enter {k : Kernel} {proc : Proc} {index : ℕ} {run : GuestRun} {m : Machine} {w w₁ w₂ : W}
    (hproc : k.procs[index]? = some proc) (hguest : x.guest proc.inst w = (run, w₁)) (htrap : run.trap = none)
    (hrun : (runActs run.acts : Program sig Stop Unit).run (exec x) (k.machineOf proc, w₁) =
      (.ok (), m, w₂)) :
    (Scheduler.enter index).run (kexec x) (k, w) =
      (Scheduler.afterReturn index).run (kexec x) (k.putMachine index m, w₂) := by
  have hon := run_onProc hproc w₁ hrun
  have hinst : ((KAct.inst index).exec k).1 = some proc.inst := by simp [KAct.exec, hproc]
  have hanswer : (KCall.guest proc.inst).answer x w = (run, w₁) := hguest
  unfold Scheduler.enter kact kenv
  simp only [Program.call_bind, Program.ret_bind, Program.run_call, kexec_act, kexec_env, hinst, hanswer]
  have hsame : ((KAct.inst index).exec k).2 = k := rfl
  rw [hsame, Program.run_bind_ok (kexec x) hon, htrap]

theorem afterReturn_exit {k : Kernel} {p : Proc} {index : ℕ} {status : ℤ} (h : k.procs[index]? = some p)
    (hwhy : p.ctx.exec.suspension = some (.exit status)) (w : W) : ∃ k' p',
    (Scheduler.afterReturn index).run (kexec x) (k, w) = (.ok (.ended status), (k', w)) ∧
    k'.shared = k.shared ∧ k'.procs[index]? = some p' ∧ p'.ctx.task = p.ctx.task ∧
    p'.ctx.vforkStack = p.ctx.vforkStack := by
  have hsuspended : ((KAct.takeSuspension index).exec k).1 = some (.exit status) := by
    simp [KAct.exec, h, hwhy]
  refine ⟨((KAct.takeSuspension index).exec k).2, { p with
    ctx := { p.ctx with exec := { p.ctx.exec with suspension := none } }
    inst := { p.inst with unwinding := p.inst.unwinding && p.ctx.exec.suspension.isNone } }, ?_, rfl, ?_,
    rfl, rfl⟩
  · unfold Scheduler.afterReturn kact
    simp only [Program.call_bind, Program.ret_bind, Program.run_call, kexec_act, hsuspended]
    rfl
  · simp [KAct.exec, Kernel.modifyProc, h]

/-- A fatal signal ends the process it was sent to and no other, exactly when
that process is no `vfork` child in its parent's instance. -/
theorem fatal_ends_alone_iff {k : Kernel} {w : W} {index : ℕ} {m : Machine} {status : ℤ}
    (h : FetchesFatal x k w index m status) : ∃ k' w',
    (Scheduler.enter index).run (kexec x) (k, w) = (.ok (.ended status), (k', w')) ∧
    ∀ external, EndsAlone m status (k'.ended index external status) ↔ m.ctx.vforkStack = [] := by
  obtain ⟨proc, run, before, out, rest, w₁, w₂, t, hproc, hguest, htrap, hacts, hbefore, hawake, hfatal⟩ := h
  obtain ⟨hsent, hctx, hexits⟩ := nextSignal_fatal x hfatal
  obtain ⟨inst, hrun⟩ := runActs_fatal x rest hbefore hawake hfatal
  rw [← hacts] at hrun
  have henter := run_enter x hproc hguest htrap hrun
  have hput := Kernel.putMachine_proc hproc { t.1.unwind (.exit status) with inst := inst }
  obtain ⟨k', p, hleft, hshared, hp, htask, hstack⟩ := afterReturn_exit x
    (k := k.putMachine index { t.1.unwind (.exit status) with inst := inst }) hput rfl t.2
  refine ⟨k', t.2, henter.trans hleft, fun external => ?_⟩
  have hexits' : k'.shared.exits = m.shared.exits := by
    rw [hshared, ← hexits]
    rfl
  replace htask : p.ctx.task = m.ctx.task := by
    rw [htask, ← hctx]
    rfl
  replace hstack : p.ctx.vforkStack = m.ctx.vforkStack := by
    rw [hstack, ← hctx]
    rfl
  obtain ⟨hlength, halone⟩ := ended_spec hp external status
  rw [hexits', hstack] at hlength halone
  rw [htask] at halone
  constructor
  · intro hends
    rw [hends.alone] at hlength
    simp only [List.length_append, List.length_cons, List.length_nil] at hlength
    exact List.length_eq_zero_iff.mp (by omega)
  · intro hempty
    exact ⟨hsent, halone hempty⟩

end

/-- A guest with the arguments of a `vfork` and of two `kill`s, of its child and of itself. -/
def Env.sendsTerm : Env (List GuestRun) :=
  .scripted (.startingWith (argWords [0x4100, 0, 0, 0, 0, 0, 2, 15, 0, 0, 0, 0, 1, 15, 0, 0, 0, 0]))

theorem fatal_ends_alone_iff_self : ∃ (k : Kernel) (w : List GuestRun) (m : Machine),
    Between Env.sendsTerm (fun _ _ => True) ⟨k, none⟩ w ∧ ∃ k' w',
    (Scheduler.enter 0).run (kexec Env.sendsTerm) (k, w) = (.ok (.ended (statusSignaled 15)), (k', w')) ∧
    ∀ external, EndsAlone m (statusSignaled 15) (k'.ended 0 external (statusSignaled 15)) ↔
      m.ctx.vforkStack = [] := by
  have hrun : (Config.bare [.guest 0]).drive Env.sendsTerm [⟨[.syscall 129 48, .sigfetch 0], none⟩] 1 [] =
    some (_, _) := rfl
  exact ⟨_, _, _, between_drive hrun, fatal_ends_alone_iff Env.sendsTerm
    ⟨_, _, [.syscall 129 48], 0, [], _, _, _, rfl, rfl, rfl, rfl, rfl, rfl, rfl⟩⟩

/-- A `vfork` child that is sent a fatal signal takes its parent with it, and
ends with another status itself. -/
theorem vfork_child_ends_parent : ∃ (k k' : Kernel) (w w' : List GuestRun) (m : Machine),
    Between Env.sendsTerm (fun _ _ => True) ⟨k, none⟩ w ∧
    FetchesFatal Env.sendsTerm k w 0 m (statusSignaled 15) ∧
    (Scheduler.enter 0).run (kexec Env.sendsTerm) (k, w) = (.ok (.ended (statusSignaled 15)), (k', w')) ∧
    ¬ EndsAlone m (statusSignaled 15) (k'.ended 0 false (statusSignaled 15)) := by
  have hrun : (Config.bare [.guest 0]).drive Env.sendsTerm
    [⟨[.syscall 220 0, .syscall 129 24, .sigfetch 0], none⟩] 1 [] = some (_, _) := rfl
  refine ⟨_, _, _, _, _, between_drive hrun,
    ⟨_, _, [.syscall 220 0, .syscall 129 24], 0, [], _, _, _, rfl, rfl, rfl, rfl, rfl, rfl, rfl⟩, rfl, ?_⟩
  intro h
  exact absurd (congrArg List.length h.alone) (by decide)

end Wasmux
