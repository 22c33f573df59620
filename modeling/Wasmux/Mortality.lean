import Mathlib.Data.List.TakeWhile
import Wasmux.Census
import Wasmux.Fetching
import Wasmux.Passing
import Wasmux.Removing
import Wasmux.Steps

/-!
# No process is out of reach of SIGKILL

Actions come from the guest by `rt_sigaction` alone, which refuses the two
signals, and are otherwise only reset or copied. Masks come from it without a
filter, so that the two are delivered in spite of them is left to `triage`.
-/

set_option autoImplicit false

namespace Wasmux
open Effects Abi

/-- Neither `SIGKILL` nor `SIGSTOP` is caught or ignored. -/
structure Task.Mortal (t : Task) : Prop where
  kill : t.action sigkill = default
  stop : t.action sigstop = default

/-- The tasks of a context: the one that runs, those it was forked from, and the
one that is to replace it. -/
def Ctx.tasks (c : Ctx) : List Task := c.task :: c.vforkStack ++ (c.execRequest.map Spawn.task).toList

/-- Every task there is, with those that are yet to be started. -/
def Kernel.tasks (k : Kernel) : List Task :=
    k.procs.flatMap (fun p => p.ctx.tasks) ++ k.shared.spawn.map Spawn.task

def Ctx.Mortal (c : Ctx) : Prop := ∀ t ∈ c.tasks, t.Mortal

def Shared.Mortal (sh : Shared) : Prop := ∀ s ∈ sh.spawn, s.task.Mortal

structure Kernel.Mortal (k : Kernel) : Prop where
  procs : ∀ p ∈ k.procs, p.ctx.Mortal
  spawn : k.shared.Mortal

namespace Task
variable {t : Task}

theorem Mortal.same (h : t.Mortal) {t' : Task} (hsame : t'.sigact = t.sigact) : t'.Mortal where
  kill := by
    rw [← h.kill]
    unfold action
    rw [hsame]
  stop := by
    rw [← h.stop]
    unfold action
    rw [hsame]

theorem mortal_new (pid : ℤ) (fds : FdTable) : (Task.new pid fds).Mortal := ⟨rfl, rfl⟩

theorem Mortal.reset (h : t.Mortal) : t.resetHandlersForExec.Mortal := by
  have hreset : ∀ i : Fin nsig, t.sigact i = default → t.resetHandlersForExec.sigact i = default := by
    intro i hi
    simp only [resetHandlersForExec, hi]
    split <;> rfl
  exact ⟨hreset ⟨9, by decide⟩ h.kill, hreset ⟨19, by decide⟩ h.stop⟩

theorem Mortal.setAction (h : t.Mortal) {signal : ℤ} {a : SigAction}
    (ha : ¬ (signal = sigkill ∨ signal = sigstop) ∨ a = default) : (t.setAction signal a).Mortal := by
  have hother : ∀ z : ℤ, 0 < z → z < nsig → t.action z = default → (z = signal → a = default) →
      (t.setAction signal a).action z = default := by
    intro z hpos hlt hz hsame
    by_cases heq : z = signal
    · obtain ⟨n, rfl⟩ := Int.eq_ofNat_of_zero_le hpos.le
      rw [← heq, action_setAction t a n ⟨by omega, by exact_mod_cast hlt⟩]
      exact hsame heq
    · rw [action_setAction_of_ne t a heq, hz]
  refine ⟨hother sigkill (by decide) (by decide) h.kill fun heq =>
    ?_, hother sigstop (by decide) (by decide) h.stop fun heq => ?_⟩
  · exact ha.resolve_left fun hne => hne (.inl heq.symm)
  · exact ha.resolve_left fun hne => hne (.inr heq.symm)

end Task

namespace Ctx
variable {c c' : Ctx}

theorem Mortal.like (h : c.Mortal) (htask : c'.task.sigact = c.task.sigact)
    (hstack : c'.vforkStack = c.vforkStack) (hrequest : c'.execRequest = c.execRequest) : c'.Mortal := by
  intro t ht
  simp only [tasks, hstack, hrequest, List.cons_append, List.mem_cons] at ht
  rcases ht with rfl | ht
  · exact (h c.task (by simp [tasks])).same htask
  · exact h t (by simp only [tasks, List.cons_append, List.mem_cons]; exact .inr ht)

theorem Mortal.exec (h : c.Mortal) (e : ExecState) : Mortal { c with exec := e } := h.like rfl rfl rfl

end Ctx

section
variable {m : Machine}

/-- An act that gives the two signals no action of their own leaves every task as mortal as it was. -/
theorem Act.mortal_exec (a : Act) (ha : Op.lawful (fun _ => True) (.act a)) (hc : m.ctx.Mortal)
    (hsh : m.shared.Mortal) :
    (a.exec m).2.ctx.Mortal ∧ (a.exec m).2.shared.Mortal := by
  have htask : m.ctx.task.Mortal := hc _ (by simp [Ctx.tasks])
  -- What a process leaves to its parent, or to what replaces it, it had itself.
  have hpop : ∀ parent rest e, m.ctx.vforkStack = parent :: rest →
      Ctx.Mortal { m.ctx with task := parent, vforkStack := rest, exec := e } := by
    intro parent rest e hstack t ht
    apply hc t
    simp only [Ctx.tasks, hstack, List.cons_append, List.mem_cons, List.mem_append] at ht ⊢
    exact .inr ht
  by_cases hcivil : a.civil = false
  · refine ⟨?_, ?_⟩
    · by_cases hshuffles : a.shuffles = true
      · obtain ⟨fds, descs, pipes, heq⟩ := a.shuffles_exec m hshuffles
        rw [heq]
        exact hc.like rfl rfl rfl
      cases a with
      | openDesc | dup | dupTo | close | pipe2 => exact absurd rfl hshuffles
      | put start data => simp only [exec]; split <;> exact hc
      | setCloexec fd on =>
        simp only [exec]
        split
        · exact hc.like rfl rfl rfl
        · exact hc
      | growMem pages =>
        have hsame : ∀ mem, (m.setMem mem).ctx = m.ctx := fun _ => rfl
        have hctx := hsame (m.inst.mem.grow pages)
        exact hctx.symm ▸ hc
      | setAction signal action =>
        intro t ht
        rcases List.mem_cons.mp ht with rfl | ht
        · exact htask.setAction ha.2
        · exact hc t (List.mem_cons_of_mem _ ht)
      | setCwd | setUmask | setMask | grew | suspendMask | settle | setDeadline | setSignalFlag | saveSp
      | stopRewind
      | unwind => exact hc.like rfl rfl rfl
      | reap | fork | vforkExit | finishExec => cases hcivil
      | _ => exact hc
    · unfold Shared.Mortal
      rw [(a.civil_exec m hcivil).2.1]
      exact hsh
  cases a with
  | reap => exact ⟨hc, hsh⟩
  | fork =>
    simp only [exec, Machine.fork]
    split
    · exact ⟨hc, hsh⟩
    · rename_i pid shared hfork
      obtain ⟨-, table, rfl⟩ := Shared.forkRecord_eq hfork
      refine ⟨fun t ht => ?_, ?_⟩
      · rcases List.mem_cons.mp ht with rfl | ht
        · exact htask.same rfl
        · exact hc t ht
      · unfold Shared.Mortal
        rw [Shared.duplicate_spawn]
        exact hsh
  | vforkExit status =>
    simp only [exec, Machine.vforkExit]
    split
    · exact ⟨hc, hsh⟩
    · rename_i parent rest hstack
      refine ⟨hpop parent rest _ hstack, ?_⟩
      unfold Shared.Mortal
      rw [Shared.setExit_spawn, Shared.releaseFds_spawn]
      exact hsh
  | finishExec program exe argv envp =>
    simp only [exec, Machine.finishExec]
    split
    · rename_i parent rest hstack
      refine ⟨hpop parent rest _ hstack, ?_⟩
      intro s hs
      dsimp only at hs
      rw [Shared.releaseAll_spawn, List.mem_append, List.mem_singleton] at hs
      rcases hs with hs | rfl
      · exact hsh s hs
      · exact htask.same rfl
    · rename_i hstack
      refine ⟨fun t ht => ?_, ?_⟩
      · simp only [Ctx.tasks, hstack, Option.map_some, Option.toList_some, List.cons_append,
          List.nil_append, List.mem_cons, List.not_mem_nil, or_false] at ht
        rcases ht with rfl | rfl
        · exact Task.mortal_new _ _
        · exact htask.same rfl
      · unfold Shared.Mortal
        rw [Shared.releaseAll_spawn]
        exact hsh
  | _ => exact absurd rfl hcivil

end

theorem exists_of_mem_modify {α : Type} {l : List α} {i : ℕ} {f : α → α} {a : α} (h : a ∈ l.modify i f) :
    ∃ b ∈ l, a = b ∨ a = f b := by
  obtain ⟨j, hj⟩ := List.mem_iff_getElem?.mp h
  rw [List.getElem?_modify] at hj
  obtain ⟨b, hb, rfl⟩ := Option.map_eq_some_iff.mp hj
  refine ⟨b, List.mem_of_getElem? hb, ?_⟩
  split
  · exact .inr rfl
  · exact .inl rfl

namespace Kernel
variable {k k' : Kernel}

theorem Mortal.like (h : k.Mortal)
    (hprocs : ∀ p ∈ k'.procs, ∃ q ∈ k.procs, ∃ e, p.ctx = { q.ctx with exec := e })
    (hspawn : k'.shared.spawn ⊆ k.shared.spawn) : k'.Mortal where
  procs p hp := by
    obtain ⟨q, hq, e, he⟩ := hprocs p hp
    rw [he]
    exact (h.procs q hq).exec e
  spawn s hs := h.spawn s (hspawn hs)

theorem mortal_procOf {spawn : Spawn} (h : spawn.task.Mortal) (launch : Launch) :
    (procOf spawn launch).ctx.Mortal := by
  have htask : (procOf spawn launch).ctx.task.Mortal := by
    cases launch <;> exact Task.Mortal.reset (h.same rfl)
  intro t ht
  have ht : t = (procOf spawn launch).ctx.task := by
    cases launch <;> simpa [Ctx.tasks, procOf] using ht
  exact ht ▸ htask

theorem Mortal.request (h : k.Mortal) {p : Proc} (hp : p ∈ k.procs) {spawn : Spawn}
    (hreq : p.ctx.execRequest = some spawn) :
    spawn.task.Mortal := h.procs p hp _ (by simp [Ctx.tasks, hreq])

/-- What the loop does of itself. -/
theorem Mortal.act (h : k.Mortal) (a : KAct) : (a.exec k).2.Mortal := by
  have hsame : ∀ p ∈ k.procs, ∃ q ∈ k.procs, ∃ e, p.ctx = { q.ctx with exec := e } := fun p hp =>
    ⟨p, hp, p.ctx.exec, rfl⟩
  have hqueue : a.gathers = false → a ≠ .abandonSpawn → (a.exec k).2.shared.spawn ⊆ k.shared.spawn := by
    intro hgathers habandon
    rw [a.queue_exec k (fun launch heq => by rw [heq] at hgathers; cases hgathers) habandon]
    exact List.Subset.refl _
  rcases htarget : a.target with _ | i
  · by_cases hgathers : a.gathers = false
    · by_cases habandon : a = .abandonSpawn
      · subst habandon
        simp only [KAct.exec]
        split
        · exact h
        · rename_i spawn rest hspawn
          refine h.like hsame ?_
          dsimp only
          rw [Shared.setExit_spawn, Shared.releaseFds_spawn, hspawn]
          exact List.subset_cons_self _ _
      · refine h.like ?_ (hqueue hgathers habandon)
        rw [a.procs_untargeted htarget hgathers]
        exact hsame
    · cases a with
      | launchSpawn launch =>
        simp only [KAct.exec]
        split
        · exact h
        · rename_i spawn rest hspawn
          refine ⟨fun p hp => ?_, fun s hs => h.spawn s (by rw [hspawn]; exact List.mem_cons_of_mem _ hs)⟩
          rcases List.mem_append.mp hp with hp | hp
          · exact h.procs p hp
          · rw [List.mem_singleton.mp hp]
            exact mortal_procOf (h.spawn spawn (by rw [hspawn]; exact List.mem_cons_self)) launch
      | finishProcess index status =>
        simp only [KAct.exec, finishProcess]
        split
        · exact h
        · refine h.like (fun p hp => hsame p (List.mem_of_mem_eraseIdx hp)) ?_
          dsimp only
          rw [Shared.setExit_spawn, Shared.releaseFds_spawn, killChildren_spawn]
          exact List.Subset.refl _
      | abandonExec index =>
        simp only [KAct.exec]
        split
        · exact h
        · refine h.like (fun p hp => hsame p (List.mem_of_mem_eraseIdx hp)) ?_
          dsimp only
          rw [Shared.setExit_spawn, Shared.releaseFds_spawn]
          exact List.Subset.refl _
      | launchExec index launch =>
        refine ⟨fun p hp => ?_, h.spawn⟩
        obtain ⟨q, hq, rfl | rfl⟩ := exists_of_mem_modify hp
        · exact h.procs p hq
        · unfold relaunch
          split
          · rename_i spawn hreq
            exact mortal_procOf (h.request hq hreq) launch
          · exact h.procs q hq
      | beginRun =>
        refine h.like ?_ (List.Subset.refl _)
        intro p hp
        obtain ⟨q, hq, rfl⟩ := List.mem_map.mp hp
        exact hsame q hq
      | _ => exact absurd rfl hgathers
  · have hnot : a.gathers = false := by
      cases a <;> first | rfl | cases htarget
    refine h.like ?_ (hqueue hnot fun heq => by rw [heq] at htarget; cases htarget)
    rw [a.procs_target htarget]
    intro p hp
    obtain ⟨q, hq, rfl | rfl⟩ := exists_of_mem_modify hp
    · exact hsame p hq
    · exact ⟨q, hq, a.effect_ctx q⟩

theorem Mortal.machine {W : Type} (x : Env W) {w : W} (h : k.Mortal) {o : Op} (ho : o.lawful fun _ => True)
    (index : ℕ) :
    (kexec x (.machine index o) (k, w)).2.1.Mortal := by
  rcases hp : k.procs[index]? with _ | p
  · rw [kexec_machine_none x hp]
    exact h
  rw [kexec_machine x hp]
  have hc : (k.machineOf p).ctx.Mortal := h.procs p (List.mem_of_getElem? hp)
  obtain ⟨hctx, hsh⟩ : (exec x o (k.machineOf p, w)).2.1.ctx.Mortal ∧
      (exec x o (k.machineOf p, w)).2.1.shared.Mortal := by
    cases o with
    | env c => exact ⟨hc, h.spawn⟩
    | act a => exact a.mortal_exec ho hc h.spawn
  refine ⟨fun q hq => ?_, hsh⟩
  obtain ⟨r, hr, rfl | rfl⟩ := exists_of_mem_modify hq
  · exact h.procs q hr
  · exact hctx

end Kernel

/-! ## Who installs an action -/

abbrev Op.spared : Op → Prop := Op.lawful fun _ => True

def Act.installs : Act → Bool
  | .setAction _ _ => true
  | _ => false

theorem spared_act {a : Act} (h : a.installs = false) : Op.spared (.act a) := by
  cases a with
  | setAction => cases h
  | _ => trivial

theorem spared_handle (number : ℤ) (a : Args) : (handle number a).Only Op.spared := by
  have lawful : ∀ {P : Op → Prop} {p : Handler ℤ}, p.Only (Op.lawful P) → p.Only Op.spared := fun hp =>
    hp.mono fun _ => Op.lawful.mono fun _ _ => trivial
  have hstreams : ∀ b : Act, b.streams = true → Op.spared (.act b) := by
    intro b hb
    cases b with
    | setAction => cases hb
    | _ => trivial
  have hlooks : ∀ o : Op, o.looks → Op.spared o := fun o ho => ho.peeks.lawful trivial
  by_cases hmild : (Nr.ofInt number).mild = true
  · exact lawful (mild_handle number a hmild)
  unfold handle
  generalize Nr.ofInt number = nr at hmild
  cases nr with
  | read => exact lawful (Sys.unmounted_read _ _ _)
  | readv => exact lawful (Sys.unmounted_readv a)
  | write => exact write_only hstreams (fun _ _ => trivial) _ _ _
  | writev =>
    refine Sys.only_vectorLoop trivial (fun r => lift_only r) (fun _ _ => ?_) _ _ _ _
    exact write_only hstreams (fun _ _ => trivial) _ _ _
  | ftruncate => exact Sys.ftruncate_only hlooks (fun _ _ => trivial) a
  | openat =>
    refine Sys.openat_only hlooks (fun _ _ _ => trivial) (fun b hb => ?_) (fun _ => trivial) a
    cases b with
    | setAction => cases hb
    | _ => trivial
  | fcntl => exact lawful (Sys.unmounted_fcntl a)
  | ioctl => exact lawful (Sys.unmounted_ioctl a)
  | _ => exact absurd rfl hmild

section
variable {ε : Type}

theorem spared_finish : (finish : Program sig ε Unit).Only Op.spared := by
  refine Program.only_bind (p := act .settle) ⟨trivial, fun _ => trivial⟩ fun _ => ?_
  refine Program.only_bind (p := view) ⟨trivial, fun _ => trivial⟩ fun v => Program.only_ite trivial ?_
  exact ⟨trivial, fun _ => trivial⟩

theorem spared_conclude (r : Except Fault ℤ) : (conclude r : Program sig ε Outcome).Only Op.spared := by
  have hend : ∀ o : Outcome, (finish >>= fun _ => .ret o : Program sig ε Outcome).Only Op.spared := fun o =>
    Program.only_bind spared_finish fun _ => trivial
  rcases r with fault | v
  · cases fault with
    | errno e => exact hend _
    | block => exact Program.only_bind (p := view) ⟨trivial, fun _ => trivial⟩ fun v =>
        Program.only_ite (hend _) trivial
    | exit status => trivial
    | exec => trivial
  · exact hend _

theorem spared_dispatch (number : ℤ) (a : Args) :
    (dispatch number a : Program sig ε Outcome).Only Op.spared := by
  have hrest : ((handle number a).catching >>= conclude : Program sig ε Outcome).Only Op.spared :=
    Program.only_bind (Program.only_catching (spared_handle number a)) spared_conclude
  exact Program.only_bind (p := act .served) ⟨trivial, fun _ => trivial⟩ fun _ => hrest

theorem only_spared {a : Act} (h : a.installs = false) :
    (act a : Program sig ε a.Ans).Only Op.spared := ⟨spared_act h, fun _ => trivial⟩

/-- A delivery gives an action back its default, if it changes any. -/
theorem spared_nextSignalFrom (out turns : ℕ) :
    (nextSignalFrom out turns : Program sig ε SignalDelivery).Only Op.spared := by
  induction turns with
  | zero => trivial
  | succ turns ih =>
    unfold nextSignalFrom
    apply Program.only_bind (only_spared (a := .view) rfl)
    intro v
    generalize triage v.pending v.task.sigmask v.task = sets
    obtain ⟨live, discard⟩ := sets
    suffices hlive : Program.Only (S := sig) Op.spared _ from
      Program.only_ite (Program.only_bind (only_spared (a := .dropPending _) rfl) fun _ => hlive) hlive
    apply Program.only_ite
    · exact Program.only_ite (Program.only_bind (only_spared (a := .put _ _) rfl) fun _ => trivial) trivial
    apply Program.only_bind (only_spared (a := .dropPending _) rfl)
    intro _
    apply Program.only_ite ih
    apply Program.only_ite
    · exact Program.only_ite trivial ih
    have hput : ∀ action : SigAction,
        (putDelivery out (trailingZeros live) action : Program sig ε Unit).Only Op.spared := by
      intro action
      unfold putDelivery
      repeat' refine Program.only_bind (only_spared (a := .put _ _) rfl) fun _ => ?_
      trivial
    suffices htold : Program.Only (S := sig) Op.spared _ from
      Program.only_ite (Program.only_bind
        (p := act (.setAction _ default)) ⟨⟨trivial, .inr rfl⟩, fun _ => trivial⟩
        fun _ => htold) htold
    exact Program.only_bind (hput _) fun _ => trivial

theorem spared_syscall (number argsPtr : ℕ) :
    (Import.syscall number argsPtr : Program sig ε ℤ).Only Op.spared := by
  unfold Import.syscall
  apply Program.only_bind (only_spared (a := .view) rfl)
  intro v
  apply Program.only_ite (only_spared (a := .stopRewind) rfl)
  cases Import.readArgs v.mem argsPtr with
  | error e => trivial
  | ok args =>
    apply Program.only_bind (spared_dispatch (asI32 number) args)
    intro outcome
    have hunwind : ∀ u : Suspension,
        (act (.unwind u) >>= fun _ => .ret 0 : Program sig ε ℤ).Only Op.spared := fun u =>
      Program.only_bind (only_spared (a := .unwind u) rfl) fun _ => trivial
    cases outcome with
    | value v => trivial
    | blocked => exact Program.only_bind (only_spared (a := .saveSp) rfl) fun _ => hunwind _
    | exit status => exact hunwind _
    | exec => exact hunwind _

theorem spared_guestAct (g : GuestAct) : (guestAct g : Program sig ε Unit).Only Op.spared := by
  unfold guestAct
  apply Program.only_bind (only_spared (a := .view) rfl)
  intro v
  cases g with
  | compute mem sp => exact only_spared rfl
  | syscall number argsPtr =>
    exact Program.only_ite trivial (Program.only_bind (spared_syscall number argsPtr) fun _ => trivial)
  | setjmp buf =>
    refine Program.only_ite trivial (Program.only_bind ?_ fun _ => trivial)
    apply Program.only_bind (only_spared (a := .view) rfl)
    intro v
    exact Program.only_ite (only_spared (a := .stopRewind) rfl)
      (Program.only_bind (only_spared (a := .unwind _) rfl) fun _ => trivial)
  | longjmp buf value => exact Program.only_ite trivial (only_spared rfl)
  | init flag => exact Program.only_ite trivial (only_spared rfl)
  | args buffer capacity =>
    refine Program.only_ite trivial (Program.only_bind ?_ fun _ => trivial)
    apply Program.only_bind (only_spared (a := .view) rfl)
    intro v
    refine ⟨trivial, fun seed => ?_⟩
    have hanswer : ∀ z : ℤ, (.ret z : Program sig ε ℤ).Only Op.spared := fun _ => trivial
    refine Program.only_ite (hanswer _) (Program.only_ite (hanswer _) ?_)
    apply Program.only_bind (only_spared (a := .put _ _) rfl)
    intro r
    cases r <;> trivial
  | sigfetch out =>
    refine Program.only_ite trivial (Program.only_bind ?_ fun _ => trivial)
    apply Program.only_bind (spared_nextSignalFrom _ _)
    intro d
    cases d with
    | none => trivial
    | handler => trivial
    | fatal status => exact Program.only_bind (only_spared (a := .unwind _) rfl) fun _ => trivial

theorem spared_runActs (acts : List GuestAct) : (runActs acts : Program sig ε Unit).Only Op.spared := by
  induction acts with
  | nil => trivial
  | cons g acts ih => exact Program.only_bind (spared_guestAct g) fun _ => ih

end

/-- What is asked of a process gives the two signals no action. -/
def KOp.spared : KOp → Prop
  | .machine _ o => o.spared
  | _ => True

theorem KOp.returns.spared {index : ℕ} {o : KOp} (h : o.returns index) : o.spared := by
  cases o with
  | machine => cases h
  | _ => trivial

namespace Scheduler

theorem spared_enter (index : ℕ) : (enter index).Only KOp.spared := by
  refine only_kact (a := .inst index) trivial ?_
  rintro (_ | inst)
  · trivial
  refine only_kenv (c := .guest inst) trivial fun run => ?_
  apply Program.only_bind (only_onProc (fun _ ho => ho) (spared_runActs run.acts))
  intro _
  cases run.trap with
  | some kind => exact only_kact trivial fun _ => trivial
  | none => exact (only_afterReturn index).mono fun _ => KOp.returns.spared

theorem spared_retry (index : ℕ) (number : ℤ) (args : Args) : (retry index number args).Only KOp.spared := by
  apply Program.only_bind (only_onProc (fun _ ho => ho) (spared_dispatch number args))
  intro outcome
  cases outcome with
  | blocked => exact only_kact trivial fun _ => trivial
  | exit status => trivial
  | exec => exact (only_replaceInstance index).mono fun _ => KOp.returns.spared
  | value value => exact only_kact trivial fun _ => spared_enter index

theorem spared_stepHost (turns index : ℕ) : (stepHost turns index).Only KOp.spared := by
  refine (only_stepHost turns index).mono fun o ho => ?_
  cases o with
  | machine i o =>
    cases o with
    | env => trivial
    | act a =>
      cases a with
      | setAction => cases ho.2
      | _ => trivial
  | _ => trivial

theorem spared_stepProcess (turns index : ℕ) : (stepProcess turns index).Only KOp.spared := by
  refine only_kact trivial ?_
  rintro (_ | _ | resume)
  · trivial
  · exact spared_stepHost turns index
  cases resume with
  | fresh => exact spared_enter index
  | rewind => exact only_kact trivial fun _ => spared_enter index
  | blocked number args => exact spared_retry index number args

end Scheduler

section
variable {W : Type} {x : Env W}

theorem kept_spared : Kept x (fun _ _ => True) (fun o _ => o.spared) fun _ => True where
  idle _ _ _ _ _ := ⟨trivial, trivial⟩
  env _ _ _ _ := trivial
  finish _ _ _ _ _ := ⟨trivial, trivial⟩
  start program argv s _ _ := by
    have hprepare : (Scheduler.prepare program argv).Only KOp.spared := by
      apply (Scheduler.only_prepare program argv).mono
      intro o ho
      exact (ho.returns : o.returns 0).spared
    refine (Program.meets_only (I := fun _ => True)
      (fun _ _ ho _ _ => ⟨ho, trivial⟩) hprepare trivial).mono ?_
    rintro r t - (_ | launch) - - <;> exact ⟨trivial, trivial⟩
  step turns index s _ := by
    refine (Program.meets_only (I := fun _ => True) (fun _ _ ho _ _ => ⟨ho, trivial⟩)
      (Scheduler.spared_stepProcess turns index) trivial).mono ?_
    exact fun _ _ _ _ _ => trivial

theorem mortal_spawn {c : Config} {started : Instant} {k : Kernel} (h : c.kernel started = some k) :
    k.Mortal := by
  obtain ⟨fds, slab, hk⟩ := c.kernel_eq h
  have hprocs : k.procs = [] := by rw [hk]
  have hspawn : k.shared.spawn =
    [⟨{ Task.new 1 fds with cwd := c.cwd }, c.program, c.exe, c.argv, c.envp⟩] := by rw [hk]
  refine ⟨?_, ?_⟩
  · rw [hprocs]
    exact fun p hp => absurd hp List.not_mem_nil
  · intro s hs
    rw [hspawn] at hs
    obtain rfl := List.mem_singleton.mp hs
    have hnew : (Task.new 1 fds).Mortal := Task.mortal_new 1 fds
    exact ⟨hnew.kill, hnew.stop⟩

theorem mortal_kexec {o : KOp} {s : Kernel × W} (hs : s.1.Mortal) (ho : o.spared) :
    (kexec x o s).2.1.Mortal := by
  cases o with
  | machine i o => exact hs.machine x ho i
  | env c => exact hs
  | act a => exact hs.act a

theorem mortal_reached {k : Kernel} {w : W} (h : Reached x (fun _ _ => True) k w) : k.Mortal := by
  have hspared := kept_spared.reached (fun _ _ _ _ => trivial) (fun _ _ _ _ => trivial)
    (fun _ _ _ _ => trivial) h
  exact reached_keeps (P := Kernel.Mortal) (fun c started k hk => mortal_spawn hk)
    (fun o s hs ho => mortal_kexec hs ho.2)
    (fun k data closed hk => hk.like (fun p hp => ⟨p, hp, p.ctx.exec, rfl⟩) fun _ => id)
    (fun k out err hk => hk.like (fun p hp => ⟨p, hp, p.ctx.exec, rfl⟩) fun _ => id) hspared

end

/-! ## What becomes of a process that SIGKILL was sent to -/

namespace Machine
variable {m : Machine}

theorem sigkill_due (ht : m.ctx.task.Mortal) (hp : m.view.pending.getLsbD 9 = true) : 9 ∈ m.due := by
  refine (Task.mem_due _ _ _ 9).mpr ⟨by decide, hp, ?_, .inr (.inl rfl)⟩
  have haction : m.ctx.task.action ((9 : ℕ) : ℤ) = default := ht.kill
  rw [haction]
  decide

/-- A call takes a signal, and leaves this one pending unless it kills. -/
theorem fetch_sigkill (ht : m.ctx.task.Mortal) (hp : m.view.pending.getLsbD 9 = true) (out : ℕ) :
    (∃ status, (m.fetch out).1 = .fatal status) ∨
      (m.fetch out).1 = .handler ∧ (m.fetch out).2.view.pending.getLsbD 9 = true := by
  have hdue := m.sigkill_due ht hp
  have haction : m.ctx.task.action ((9 : ℕ) : ℤ) = default := ht.kill
  cases hd : m.due with
  | nil =>
    rw [hd] at hdue
    exact absurd hdue List.not_mem_nil
  | cons n rest =>
    by_cases hdfl : (m.ctx.task.action n).handler = sigDfl
    · left
      rw [m.fetch_fatal out hd hdfl]
      exact ⟨_, rfl⟩
    · right
      obtain ⟨u, hfetch, hu, -⟩ := m.fetch_handler out hd hdfl
      have hne : 9 ≠ n := by
        rintro rfl
        rw [haction] at hdfl
        exact hdfl rfl
      rw [hfetch]
      refine ⟨rfl, (hu.pending 9 (by decide)).mpr ⟨⟨hp, ?_⟩, hne⟩⟩
      rw [haction]
      decide

theorem closing_fatal (ht : m.ctx.task.Mortal) (hp : m.view.pending.getLsbD 9 = true) :
    ∃ status, m.closing = .fatal status := by
  have hdue := m.sigkill_due ht hp
  have hshort : m.caught.length < m.due.length := by
    have hfront : m.caught <+: m.due := List.takeWhile_prefix _
    refine lt_of_le_of_ne hfront.length_le fun heq => ?_
    have hall : m.caught = m.due := hfront.eq_of_length heq
    rw [← hall] at hdue
    have hcaught := List.mem_takeWhile_imp hdue
    have haction : m.ctx.task.action ((9 : ℕ) : ℤ) = default := ht.kill
    rw [haction] at hcaught
    exact absurd hcaught (by decide)
  unfold closing
  rw [List.getElem?_eq_getElem hshort]
  exact ⟨_, rfl⟩

end Machine

section
variable {W : Type} {x : Env W}

/-- No guest keeps `SIGKILL` from killing it. In every task there is, the two
signals have their default action, `SIGKILL` is deliverable whenever it is
pending, and a process with the actions of that task that fetches its signals
ends in the death it was sent. -/
theorem sigkill_kills {k : Kernel} {w : W} (h : Reached x (fun _ _ => True) k w) : ∀ t ∈ k.tasks,
    t.action sigkill = default ∧ t.action sigstop = default ∧
    (∀ pending mask : Sigset, pending.getLsbD 9 = true → (triage pending mask t).1.getLsbD 9 = true) ∧
    ∀ (m : Machine) (v : W), m.ctx.task.sigact = t.sigact → m.view.pending.getLsbD 9 = true →
      (∀ out turns, (∃ status u, (nextSignalFrom out (turns + 1) : Program sig Stop SignalDelivery).run
        (exec x) (m, v) =
          (.ok (.fatal status), u, v)) ∨
        ∃ u : Machine, (nextSignalFrom out (turns + 1) : Program sig Stop SignalDelivery).run
          (exec x) (m, v) =
          (.ok .handler, u, v) ∧ u.view.pending.getLsbD 9 = true) ∧
      ∀ outs, (∃ found d u, Fetched x outs (m, v) found d u) ∧
        ∀ found d u, Fetched x outs (m, v) found d u → ∃ status, d = .fatal status := by
  have hk := mortal_reached h
  intro t ht
  have hmortal : t.Mortal := by
    rcases List.mem_append.mp ht with ht | ht
    · obtain ⟨p, hp, ht⟩ := List.mem_flatMap.mp ht
      exact hk.procs p hp t ht
    · obtain ⟨s, hs, rfl⟩ := List.mem_map.mp ht
      exact hk.spawn s hs
  refine ⟨hmortal.kill, hmortal.stop, fun pending mask hp => ?_, fun m v hsame hp => ?_⟩
  · have haction : t.action ((9 : ℕ) : ℤ) = default := hmortal.kill
    refine (triage_getLsbD pending mask t 9 (by decide)).mpr ⟨hp, ?_, .inr (.inl rfl)⟩
    rw [haction]
    decide
  have hm : m.ctx.task.Mortal := hmortal.same hsame
  refine ⟨fun out turns => ?_, fun outs => ?_⟩
  · rw [run_nextSignalFrom]
    rcases m.fetch_sigkill hm hp out with ⟨status, hfatal⟩ | ⟨hhandler, hstays⟩
    · exact .inl ⟨status, _, by rw [hfatal]⟩
    · exact .inr ⟨_, by rw [hhandler], hstays⟩
  · obtain ⟨found, d, u, hrun, hall⟩ := exists_fetched x m.due outs m v rfl
    refine ⟨⟨found, d, (u, v), hrun⟩, fun found' d' u' hrun' => ?_⟩
    obtain ⟨-, rfl, -⟩ := Fetched.unique x hrun hrun'
    rw [hall.closing]
    exact m.closing_fatal hm hp

end

/-- A guest that catches signal 10, holds every signal back and sends itself `SIGKILL`. -/
def Env.selfKill : Env (List GuestRun) :=
  .scripted (.startingWith (argWords [10, 72, 0, 8, 0, 0, sigSetmask, 88, 0, 8, 0, 0, 1, 9, 0, 0, 0, 0, 5,
    0, 0, 0, -1, -1]))

theorem sigkill_kills_masked : ∃ (k : Kernel) (w : List GuestRun) (p : Proc),
    Reached Env.selfKill (fun _ _ => True) k w ∧ k.procs[0]? = some p ∧ p.ctx.task.sigmask.getLsbD 10 = true ∧
      (k.machineOf p).view.pending.getLsbD 9 = true ∧
      ∀ found d u, Fetched Env.selfKill (fun _ => 0) (k.machineOf p, w) found d u →
      ∃ status, d = .fatal status := by
  have hrun : (Config.bare [.guest 0]).drive Env.selfKill
      [⟨[.syscall 134 0, .syscall 135 24, .syscall 129 48, .setjmp 0], none⟩] 2
      [⟨some 0, none⟩] = some (_, _) := rfl
  have hkills : ∀ {k : Kernel} {w : List GuestRun} {p : Proc}, Reached Env.selfKill (fun _ _ => True) k w →
      k.procs[0]? = some p → (k.machineOf p).view.pending.getLsbD 9 = true →
      ∀ found d u, Fetched Env.selfKill (fun _ => 0) (k.machineOf p, w) found d u →
      ∃ status, d = .fatal status := by
    intro k w p hreached hp hpending
    have ht : p.ctx.task ∈ k.tasks := List.mem_append_left _ (List.mem_flatMap.mpr
      ⟨p, List.mem_of_getElem? hp, List.mem_cons_self⟩)
    exact ((sigkill_kills hreached _ ht).2.2.2 (k.machineOf p) w rfl hpending).2 (fun _ => 0) |>.2
  have hreached := Reached.between _ _ (between_drive hrun)
  exact ⟨_, _, _, hreached, rfl, rfl, rfl, hkills hreached rfl rfl⟩

end Wasmux
