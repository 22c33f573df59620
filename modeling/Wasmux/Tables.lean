import Mathlib.Algebra.Order.BigOperators.Group.List
import Mathlib.Algebra.Order.Ring.Nat
import Wasmux.References

/-!
# Every table of the kernel

The slots of a whole kernel are those of its processes, of the parents waiting
below a vfork child, of programs asked for and not yet started. An operation of
the scheduler moves whole tables between these places.
-/

set_option autoImplicit false

namespace Wasmux
open Counting Effects

/-- The tables a process keeps: its own, those of its waiting parents, and the
one an `execve` left to the scheduler. -/
def Ctx.tables (c : Ctx) : List FdTable :=
  c.task.fds :: c.vforkStack.map Task.fds ++ (c.execRequest.toList.map fun s => s.task.fds)

namespace Kernel

/-- Every live descriptor table. -/
def tables (k : Kernel) : List FdTable :=
  (k.procs.flatMap fun p => p.ctx.tables) ++ k.shared.spawn.map fun s => s.task.fds

/-- How many slots of the kernel name a description. -/
def held (k : Kernel) (key : DescKey) : ℕ := (k.tables.map fun t => t.holds key).sum

/-- How many descriptors there are in all. -/
def slots (k : Kernel) : ℕ := (k.tables.map fun t => t.keys.length).sum

theorem held_le_slots (k : Kernel) (key : DescKey) : k.held key ≤ k.slots := by
  unfold held slots
  induction k.tables with
  | nil => exact Nat.le_refl 0
  | cons t ts ih =>
    have : t.holds key ≤ t.keys.length := List.count_le_length
    simp only [List.map_cons, List.sum_cons]
    omega

theorem held_eq (k : Kernel) (key : DescKey) :
    k.held key = (k.procs.map fun p => p.ctx.held key).sum + queued k.shared.spawn key := by
  have one : ∀ c : Ctx, (c.tables.map fun t => t.holds key).sum = c.held key := by
    intro c
    rcases c with ⟨task, argv, envp, _ | request, stack, exec⟩ <;>
      simp [Ctx.tables, Ctx.held, Ctx.below, Ctx.requested, Function.comp_def, Nat.add_assoc]
  unfold held tables
  rw [List.map_append, List.sum_append, List.map_map]
  congr 1
  induction k.procs with
  | nil => rfl
  | cons p ps ih => simp [List.flatMap_cons, ← ih, one]

end Kernel

def KTraded (room leak : Prop) (k k' : Kernel) : Prop :=
  Trade u32Max room leak (counts k.shared.descs) k.held (counts k'.shared.descs) k'.held

namespace KTraded
variable {room leak : Prop} {k k' : Kernel}

theorem of_eq (hd : counts k'.shared.descs = counts k.shared.descs)
    (hh : ∀ key, k'.held key = k.held key) : KTraded room leak k k' := by
  rw [KTraded, hd]
  exact .same hh

theorem of_modify {f : Proc → Proc} {index : ℕ} (hp : k'.procs = k.procs.modify index f)
    (hd : k'.shared.descs = k.shared.descs) (hs : k'.shared.spawn = k.shared.spawn)
    (hf : ∀ p key, (f p).ctx.held key = p.ctx.held key) : KTraded room leak k k' := by
  refine of_eq (by rw [hd]) fun key => ?_
  rw [Kernel.held_eq, Kernel.held_eq, hp, hs]
  congr 1
  rcases h : k.procs[index]? with _ | p
  · rw [List.modify_eq_self (by simpa using h)]
  · have := sum_modify (fun p : Proc => p.ctx.held key) f k.procs index p h
    rw [hf p key] at this
    omega

end KTraded

namespace KOp

def inHand : KOp → ℕ
  | .machine _ (.act a) => a.inHand
  | _ => 0

/-- The operations that lose count of a reference, or a table with all of its
references: a process that ends or is replaced with slots left elsewhere than
where the scheduler looks. -/
def leaks : KOp → Kernel → Prop
  | .machine index (.act a), k => ∃ p, k.procs[index]? = some p ∧
      (a.leaks (k.machineOf p) ∨ a.strays (k.machineOf p))
  | .act (.finishProcess index _), k => ∃ p key, k.procs[index]? = some p ∧
      0 < Ctx.requested p.ctx.execRequest key
  | .act (.launchExec index _), k | .act (.abandonExec index), k => ∃ p key,
      k.procs[index]? = some p ∧ p.ctx.execRequest.isSome ∧
        0 < p.ctx.task.fds.holds key + Ctx.below p.ctx.vforkStack key
  | _, _ => False

end KOp

section
variable {room leak : Prop} (k : Kernel)

theorem held_machineOf {index : ℕ} {p : Proc} (h : k.procs[index]? = some p) (key : DescKey) :
    k.held key = (k.machineOf p).held key +
      ((k.procs.eraseIdx index).map fun p => p.ctx.held key).sum := by
  have := sum_eraseIdx (fun p : Proc => p.ctx.held key) k.procs index p h
  rw [Kernel.held_eq, Machine.held, Kernel.machineOf]
  dsimp only
  omega

theorem held_putMachine {index : ℕ} {p : Proc} (h : k.procs[index]? = some p) (m : Machine)
    (key : DescKey) : (k.putMachine index m).held key = m.held key +
      ((k.procs.eraseIdx index).map fun p => p.ctx.held key).sum := by
  have h1 := sum_eraseIdx (fun p : Proc => p.ctx.held key) k.procs index p h
  have h2 := sum_modify (fun p : Proc => p.ctx.held key)
    (fun p => { p with ctx := m.ctx, inst := m.inst }) k.procs index p h
  rw [Kernel.held_eq, Machine.held]
  dsimp only [Kernel.putMachine, Kernel.modifyProc] at h2 ⊢
  omega

theorem ktraded_machine {W : Type} (env : Env W) (w : W) (index : ℕ) (o : Op)
    (fits : room → ∀ key, k.held key + KOp.inHand (.machine index o) ≤ u32Max) :
    KTraded room (KOp.leaks (.machine index o) k) k (kexec env (.machine index o) (k, w)).2.1 := by
  rcases hp : k.procs[index]? with _ | p
  · rw [kexec_machine_none env hp]
    exact .of_eq rfl fun _ => rfl
  · rw [kexec_machine env hp]
    have put : ∀ (m : Machine),
        Traded room (KOp.leaks (.machine index o) k)
          (fun key => ((k.procs.eraseIdx index).map fun p => p.ctx.held key).sum)
          (k.machineOf p) m →
        KTraded room (KOp.leaks (.machine index o) k) k (k.putMachine index m) := by
      intro m t
      have h1 : k.held = fun key => (k.machineOf p).held key +
          ((k.procs.eraseIdx index).map fun p => p.ctx.held key).sum :=
        funext (held_machineOf k hp)
      have h2 : Kernel.held (k.putMachine index m) = fun key =>
          m.held key + ((k.procs.eraseIdx index).map fun p => p.ctx.held key).sum :=
        funext (held_putMachine k hp m)
      rw [KTraded, h1, h2]
      exact t
    cases o with
    | env c => exact put _ (.refl _ _)
    | act a =>
      refine put _ (Trade.mono (fun hl => ⟨p, hp, hl⟩) (Act.traded (k.machineOf p) _ a fun r key => ?_))
      have := fits r key
      rw [held_machineOf k hp key] at this
      exact this

@[simp] theorem procOf_held (spawn : Spawn) (launch : Launch) (key : DescKey) :
    (Kernel.procOf spawn launch).ctx.held key = spawn.task.fds.holds key := by
  cases launch <;> simp [Kernel.procOf, Ctx.held, Ctx.below, Ctx.requested, Task.resetHandlersForExec]

@[simp] theorem killChildren_spawn (status : ℤ) (stack : List Task) (task : Task) (sh : Shared) :
    (Kernel.killChildren status stack task sh).2.2.spawn = sh.spawn := by
  induction stack generalizing task sh with
  | nil => rfl
  | cons parent stack ih => simp [Kernel.killChildren, ih]

theorem killChildren_holds (status : ℤ) (stack : List Task) (task : Task) (sh : Shared) (key : DescKey) :
    (Kernel.killChildren status stack task sh).2.1.fds.holds key ≤
      task.fds.holds key + Ctx.below stack key := by
  induction stack generalizing task sh with
  | nil => simp [Kernel.killChildren]
  | cons parent stack ih =>
    refine Nat.le_trans (ih parent _) ?_
    simp only [Ctx.below, List.map_cons, List.sum_cons]
    omega

/-- The children that die with a process give up their tables. -/
theorem trade_killChildren (status : ℤ) (stack : List Task) (task : Task) (sh : Shared)
    {need need' : Need DescKey} (fits : room → ∀ key, need key ≤ u32Max)
    (h : ∀ key, need key = need' key + (task.fds.holds key + Ctx.below stack key)) :
    Trade u32Max room leak (counts sh.descs) need
      (counts (Kernel.killChildren status stack task sh).2.2.descs) fun key =>
        need' key + (Kernel.killChildren status stack task sh).2.1.fds.holds key := by
  induction stack generalizing task sh need with
  | nil =>
    refine .same fun key => ?_
    have := h key
    simp only [Kernel.killChildren, Ctx.below, List.map_nil, List.sum_nil] at this ⊢
    omega
  | cons parent stack ih =>
    have first : Trade u32Max room leak (counts sh.descs) need
        (counts ((sh.releaseFds task.fds).2.setExit task.pid status).descs) fun key =>
          need' key + (parent.fds.holds key + Ctx.below stack key) := by
      rw [Shared.setExit_descs]
      refine Shared.trade_releaseFds _ _ fits fun key => ?_
      have := h key
      simp only [Ctx.below, List.map_cons, List.sum_cons] at this ⊢
      omega
    refine first.trans (ih parent _ (fun r key => ?_) fun _ => rfl)
    have h1 := fits r key
    have h2 := h key
    simp only [Ctx.below, List.map_cons, List.sum_cons] at h2 ⊢
    omega

theorem trade_forget {c : Ledger DescKey} {need need' : Need DescKey} (lost : Need DescKey)
    (h : ∀ key, need key = need' key + lost key) (hl : ∀ key, 0 < lost key → leak) :
    Trade u32Max room leak c need c need' := by
  by_cases hlost : ∃ key, 0 < lost key
  · obtain ⟨key, hk⟩ := hlost
    exact .forget (hl key hk) fun j => by rw [h j]; omega
  · refine .same fun j => ?_
    have : ¬ 0 < lost j := fun hj => hlost ⟨j, hj⟩
    rw [h j]
    omega

theorem ktraded_finishProcess (index : ℕ) (status : ℤ) (fits : room → ∀ key, k.held key ≤ u32Max) :
    KTraded room (KOp.leaks (.act (.finishProcess index status)) k) k
      (k.finishProcess index status).2 := by
  rcases hp : k.procs[index]? with _ | p
  · simp only [Kernel.finishProcess, hp]
    exact .of_eq rfl fun _ => rfl
  · let others : Need DescKey := fun key =>
      ((k.procs.eraseIdx index).map fun p => p.ctx.held key).sum + queued k.shared.spawn key
    have hheld : ∀ key, k.held key = (others key + (p.ctx.task.fds.holds key +
        Ctx.below p.ctx.vforkStack key)) + Ctx.requested p.ctx.execRequest key := fun key => by
      have := sum_eraseIdx (fun p : Proc => p.ctx.held key) k.procs index p hp
      simp only [Ctx.held] at this
      rw [Kernel.held_eq]
      simp only [others, Ctx.held]
      omega
    have hend : (k.finishProcess index status).2.held = others := funext fun key => by
      simp only [Kernel.held_eq, Kernel.finishProcess, hp, others, Shared.setExit_spawn,
        Shared.releaseFds_spawn, killChildren_spawn]
      rfl
    rw [KTraded, hend]
    simp only [Kernel.finishProcess, hp, Shared.setExit_descs]
    -- What the process had asked for and not been given is lost with it.
    refine .trans (trade_forget (Ctx.requested p.ctx.execRequest) hheld
      fun key hk => ⟨p, key, hp, hk⟩) ?_
    refine .trans (trade_killChildren _ _ _ (k.shared.releaseMemory _)
      (fun r key => ?_) fun _ => rfl) (Shared.trade_releaseFds _ _ (fun r key => ?_) fun _ => rfl)
    · have h1 := fits r key
      have h2 := hheld key
      omega
    · have h1 := fits r key
      have h2 := hheld key
      have h3 := killChildren_holds (statusSignaled Abi.sigkill) p.ctx.vforkStack p.ctx.task
        (k.shared.releaseMemory (satAddU64 p.charged p.ctx.exec.grown)) key
      omega

theorem held_of_request {c : Ctx} {spawn : Spawn} (h : c.execRequest = some spawn) (key : DescKey) :
    c.held key = c.task.fds.holds key + Ctx.below c.vforkStack key + spawn.task.fds.holds key := by
  rw [Ctx.held, h]
  rfl

theorem ktraded_launchExec (index : ℕ) (launch : Launch) :
    KTraded room (KOp.leaks (.act (.launchExec index launch)) k) k
      ((KAct.launchExec index launch).exec k).2 := by
  rcases hp : k.procs[index]? with _ | p
  · have : k.procs.length ≤ index := by simpa using hp
    simp only [KAct.exec, Kernel.modifyProc, List.modify_eq_self this]
    exact .of_eq rfl fun _ => rfl
  · rcases hr : p.ctx.execRequest with _ | spawn
    · refine .of_eq rfl fun key => ?_
      have := sum_modify (fun p : Proc => p.ctx.held key) (Kernel.relaunch launch) k.procs index p hp
      have hsame : Kernel.relaunch launch p = p := by rw [Kernel.relaunch, hr]
      rw [hsame] at this
      rw [Kernel.held_eq, Kernel.held_eq]
      simp only [KAct.exec, Kernel.modifyProc]
      omega
    · refine trade_forget (fun key => p.ctx.task.fds.holds key +
        Ctx.below p.ctx.vforkStack key) (fun key => ?_)
        fun key hk => ⟨p, key, hp, by simp [hr], hk⟩
      have := sum_modify (fun p : Proc => p.ctx.held key) (Kernel.relaunch launch) k.procs index p hp
      have hnew : Kernel.relaunch launch p = Kernel.procOf spawn launch := by rw [Kernel.relaunch, hr]
      rw [hnew, procOf_held] at this
      have hheld := held_of_request hr key
      rw [Kernel.held_eq, Kernel.held_eq]
      simp only [KAct.exec, Kernel.modifyProc]
      omega

theorem ktraded_abandonExec (index : ℕ) (fits : room → ∀ key, k.held key ≤ u32Max) :
    KTraded room (KOp.leaks (.act (.abandonExec index)) k) k ((KAct.abandonExec index).exec k).2 := by
  rcases hp : k.procs[index]? with _ | p
  · simp only [KAct.exec, hp]
    exact .of_eq rfl fun _ => rfl
  · rcases hr : p.ctx.execRequest with _ | spawn
    · simp only [KAct.exec, hp, Option.bind_some, hr]
      exact .of_eq rfl fun _ => rfl
    · let others : Need DescKey := fun key =>
        ((k.procs.eraseIdx index).map fun p => p.ctx.held key).sum + queued k.shared.spawn key
      have hheld : ∀ key, k.held key = (others key + spawn.task.fds.holds key) +
          (p.ctx.task.fds.holds key + Ctx.below p.ctx.vforkStack key) := fun key => by
        have h1 := sum_eraseIdx (fun p : Proc => p.ctx.held key) k.procs index p hp
        have h2 := held_of_request hr key
        rw [Kernel.held_eq]
        simp only [others]
        omega
      have hend : ((KAct.abandonExec index).exec k).2.held = others := funext fun key => by
        simp only [Kernel.held_eq, KAct.exec, hp, Option.bind_some, hr, others,
          Shared.setExit_spawn, Shared.releaseFds_spawn]
      rw [KTraded, hend]
      simp only [KAct.exec, hp, Option.bind_some, hr, Shared.setExit_descs]
      refine .trans (trade_forget _ hheld fun key hk => ⟨p, key, hp, by simp [hr], hk⟩)
        (Shared.trade_releaseFds _ _ (fun r key => ?_) fun _ => rfl)
      have h1 := fits r key
      have h2 := hheld key
      omega

theorem ktraded_abandonSpawn (fits : room → ∀ key, k.held key ≤ u32Max) :
    KTraded room leak k (KAct.abandonSpawn.exec k).2 := by
  rcases hs : k.shared.spawn with _ | ⟨spawn, rest⟩
  · simp only [KAct.exec, hs]
    exact .of_eq rfl fun _ => rfl
  · simp only [KAct.exec, hs, KTraded, Shared.setExit_descs]
    refine Shared.trade_releaseFds spawn.task.fds { k.shared with spawn := rest } fits fun key => ?_
    simp only [Kernel.held_eq, hs, queued, Shared.setExit_spawn, Shared.releaseFds_spawn,
      List.map_cons, List.sum_cons]
    omega

/-- Every operation of the scheduler is a trade; only the named ones leak. -/
theorem ktraded {W : Type} (env : Env W) (w : W) (o : KOp)
    (fits : room → ∀ key, k.held key + o.inHand ≤ u32Max) :
    KTraded room (o.leaks k) k (kexec env o (k, w)).2.1 := by
  cases o with
  | machine index o => exact ktraded_machine k env w index o fits
  | env c => exact .of_eq rfl fun _ => rfl
  | act a =>
    rw [kexec_act]
    cases a with
    | finishProcess index status => exact ktraded_finishProcess k index status fits
    | launchExec index launch => exact ktraded_launchExec k index launch
    | abandonExec index => exact ktraded_abandonExec k index fits
    | abandonSpawn => exact ktraded_abandonSpawn k fits
    | launchSpawn launch =>
      rcases hs : k.shared.spawn with _ | ⟨spawn, rest⟩
      · simp only [KAct.exec, hs]
        exact .of_eq rfl fun _ => rfl
      · simp only [KAct.exec, hs]
        refine .of_eq rfl fun key => ?_
        simp only [Kernel.held_eq, hs, queued, List.map_append, List.sum_append, List.map_cons,
          List.map_nil, List.sum_cons, List.sum_nil, procOf_held]
        omega
    | beginRun =>
      refine .of_eq rfl fun key => ?_
      rw [Kernel.held_eq, Kernel.held_eq]
      simp only [KAct.exec, List.map_map, Function.comp_def]
    | attach index =>
      simp only [KAct.exec]
      split
      · exact .of_eq rfl fun _ => rfl
      · split
        · exact .of_eq rfl fun _ => rfl
        · split
          · exact .of_eq rfl fun _ => rfl
          · exact .of_modify rfl rfl rfl fun _ _ => rfl
    | charge bytes =>
      simp only [KAct.exec, Shared.chargeMemory]
      split <;> exact .of_eq rfl fun _ => rfl
    | releaseInstance index =>
      simp only [KAct.exec]
      split
      · exact .of_eq rfl fun _ => rfl
      · exact .of_modify rfl rfl rfl fun _ _ => rfl
    | restoreJmp index buf value =>
      simp only [KAct.exec]
      split
      · exact .of_eq rfl fun _ => rfl
      · split
        · exact .of_eq rfl fun _ => rfl
        · exact .of_modify rfl rfl rfl fun _ _ => rfl
    | trapMessage index kind =>
      simp only [KAct.exec]
      split <;> exact .of_eq rfl fun _ => rfl
    | whyIdle =>
      simp only [KAct.exec, Kernel.whyIdle]
      split
      · exact .of_eq rfl fun _ => rfl
      · split
        · exact .of_eq rfl fun _ => rfl
        · split
          · exact .of_eq rfl fun _ => rfl
          · split <;> exact .of_eq rfl fun _ => rfl
    | endStep index | setResume index | rewind index | resumeWith index | takeSuspension index
    | saveJmp index | appendInput index | setPhase index | advance index =>
      exact .of_modify rfl rfl rfl fun _ _ => rfl
    | look | release | execRequest | inst | host | noteHostPending | forceExit =>
      exact .of_eq rfl fun _ => rfl

/-- The first process's table. It leaks when it has no room for all three. -/
theorem trade_addStdio {descs : List Desc} {fds fds' : FdTable} {sh sh' : Shared}
    (h : Config.addStdio descs fds sh = some (fds', sh')) (hone : ∀ d ∈ descs, d.refs = 1)
    (hroom : leak ∨ fds.slots.all Option.isSome ∧ fds.slots.length + descs.length ≤ sh.limits.openFiles) :
    Trade u32Max room leak (counts sh.descs) fds.holds (counts sh'.descs) fds'.holds ∧
      sh'.spawn = sh.spawn := by
  induction descs generalizing fds sh with
  | nil =>
    obtain ⟨rfl, rfl⟩ := by simpa [Config.addStdio] using h
    exact ⟨.same fun _ => rfl, rfl⟩
  | cons d descs ih =>
    simp only [Config.addStdio] at h
    split at h
    · simp at h
    · rename_i key descs' hi
      obtain ⟨hfree, hc⟩ := counts_insert hi (hone d (by simp))
      have hone' : ∀ d ∈ descs, d.refs = 1 := fun d hd => hone d (by simp [hd])
      rcases ha : fds.alloc ⟨key, false⟩ 0 sh.limits.openFiles with e | ⟨fd, fds₁⟩
      · -- The description stays without a descriptor.
        have leaks : leak := by
          rcases hroom with l | ⟨hfull, hlt⟩
          · exact l
          · rw [FdTable.alloc_full hfull (by simp only [List.length_cons] at hlt; omega)] at ha
            simp at ha
        rw [ha] at h
        obtain ⟨t, hs⟩ := ih h hone' (.inl leaks)
        exact ⟨.trans (hc ▸ .orphan leaks key hfree) t, hs⟩
      · rw [ha] at h
        obtain ⟨t, hs⟩ := ih h hone' (by
          rcases hroom with l | ⟨hfull, hlt⟩
          · exact .inl l
          · rw [FdTable.alloc_full hfull (by simp only [List.length_cons] at hlt; omega)] at ha
            obtain ⟨-, rfl⟩ := by simpa using ha
            refine .inr ⟨by simpa using hfull, ?_⟩
            simp only [List.length_cons, List.length_append, List.length_nil] at hlt ⊢
            omega)
        exact ⟨.trans (hc ▸ .fresh key hfree (FdTable.holds_alloc ha)) t, hs⟩

theorem trade_kernel {c : Config} {started : Instant} {k : Kernel} (h : c.kernel started = some k)
    (hroom : leak ∨ 3 ≤ c.limits.openFiles) :
    Trade u32Max room leak (fun _ => none) (fun _ => 0) (counts k.shared.descs) k.held := by
  unfold Config.kernel at h
  dsimp only at h
  split at h
  · simp at h
  · rename_i fds sh ha
    rw [Option.some.injEq] at h
    subst h
    refine .trans ?_ (.trans (trade_addStdio ha (by simp [Config.stdio, Desc.new])
      (hroom.imp_right fun h3 => ⟨rfl, h3⟩)).1 (.same fun key => ?_))
    · exact .same fun _ => rfl
    · simp [Kernel.held, Kernel.tables, Task.new]

theorem covers_kexec {W : Type} {env : Env W} {k : Kernel} {w : W} {o : KOp} (ho : k.slots + o.inHand < 2^32)
    (hc : Covers u32Max (counts k.shared.descs) k.held) :
    Covers u32Max (counts (kexec env o (k, w)).2.1.shared.descs) (kexec env o (k, w)).2.1.held := by
  refine (ktraded k env w o fun _ key => ?_).covers hc
  have := k.held_le_slots key
  unfold u32Max
  omega

theorem reached_covers {W : Type} {env : Env W} {k : Kernel} {w : W}
    (h : Reached env (fun o s => s.1.slots + o.inHand < 2^32) k w) :
    Covers u32Max (counts k.shared.descs) k.held := by
  refine reached_keeps (P := fun k => Covers u32Max (counts k.shared.descs) k.held)
    (fun c started k hk => ?_) (fun o s hP hC => covers_kexec hC hP) (fun k data closed hP => hP)
    (fun k out err hP => hP) h
  have t : Trade u32Max True True (fun _ => none) (fun _ => 0) (counts k.shared.descs) k.held :=
    trade_kernel hk (.inl trivial)
  exact t.covers fun key hkey => by simp at hkey

theorem Kernel.live_of_covers {k : Kernel} (hc : Covers u32Max (counts k.shared.descs) k.held)
    (hk : k.slots < 2^32) {t : FdTable} (ht : t ∈ k.tables) {entry : Fd} (he : some entry ∈ t.slots) :
    ∃ d, k.shared.descs.get entry.desc = some d ∧ k.held entry.desc ≤ d.refs := by
  have hslot : 0 < t.holds entry.desc := by
    rw [FdTable.holds_eq_countP, List.countP_pos_iff]
    exact ⟨some entry, he, by simp⟩
  obtain ⟨n, hn, hle⟩ := hc entry.desc
    (Nat.lt_of_lt_of_le hslot (List.le_sum_of_mem (List.mem_map_of_mem ht)))
  obtain ⟨d, hd, rfl⟩ : ∃ d, k.shared.descs.get entry.desc = some d ∧ d.refs = n := by
    simpa [counts] using hn
  have := k.held_le_slots entry.desc
  exact ⟨d, hd, by unfold u32Max at hle; omega⟩

theorem descriptors_outlive {W : Type} {env : Env W} {k : Kernel} {w : W}
    (h : Reached env (fun o s => s.1.slots + o.inHand < 2^32) k w) {o : KOp} (ho : k.slots + o.inHand < 2^32)
    (hk : (kexec env o (k, w)).2.1.slots < 2^32) {t : FdTable} (ht : t ∈ (kexec env o (k, w)).2.1.tables)
    {entry : Fd} (he : some entry ∈ t.slots) :
        ∃ d, (kexec env o (k, w)).2.1.shared.descs.get entry.desc = some d := by
  obtain ⟨d, hd, -⟩ := Kernel.live_of_covers (covers_kexec ho (reached_covers h)) hk ht he
  exact ⟨d, hd⟩

theorem fresh_key_unheld {W : Type} {env : Env W} {k : Kernel} {w : W}
    (h : Reached env (fun o s => s.1.slots + o.inHand < 2^32) k w) {d : Desc} {max : ℕ} {key : DescKey}
    {descs : Slab Desc} (hinsert : k.shared.descs.insert d max = some (key, descs)) : k.held key = 0 := by
  by_contra hheld
  obtain ⟨n, hn, -⟩ := reached_covers h key (Nat.pos_of_ne_zero hheld)
  have hfree : k.shared.descs.get key = none := (Slab.insert_spec hinsert).1
  rw [counts, hfree] at hn
  cases hn

/-- No descriptor dangles. -/
theorem descriptors_live {W : Type} {env : Env W} {k : Kernel} {w : W}
    (h : Reached env (fun o s => s.1.slots + o.inHand < 2^32) k w) (hk : k.slots < 2^32)
    (t : FdTable) (ht : t ∈ k.tables) (entry : Fd) (he : some entry ∈ t.slots) :
    ∃ d, k.shared.descs.get entry.desc = some d ∧ k.held entry.desc ≤ d.refs :=
  Kernel.live_of_covers (reached_covers h) hk ht he

/-- A process whose `vfork` child closes its standard input. -/
abbrev Env.childCloses : Env (List GuestRun) := .scripted (.startingWith (argWords [0x4100, 0, 0, 0, 0, 0]))

/-- The child's descriptor is gone, and the parent's names what it did. -/
theorem descriptors_live_child : ∃ (k : Kernel) (w : List GuestRun) (child parent : FdTable) (d : Desc),
    Reached Env.childCloses (fun o s => s.1.slots + o.inHand < 2^32) k w ∧ k.tables = [child, parent] ∧
    child.get 0 = .error .badf ∧ parent.get 0 = .ok ⟨0, false⟩ ∧ k.shared.descs.get 0 = some d ∧
    k.held 0 ≤ d.refs := by
  have hstart : Between Env.childCloses (fun o s => s.1.slots + o.inHand < 2^32) ⟨_, none⟩ _ :=
    .start (.bare [.guest 0]) 0 _ _ [⟨[.syscall 220 0, .syscall 57 24, .setjmp 0], none⟩] _ rfl
      (Program.along_of_checks _ (fun _ _ => of_decide_eq_true) (by decide +kernel)) rfl
  have hstep := Between.step _ _ _ _ 2 ⟨some 0, none⟩ .budget hstart
    (Program.along_of_checks _ (fun _ _ => of_decide_eq_true) (by decide +kernel)) rfl
  obtain ⟨k, w, child, parent, hreached, hslots, htables, hchild, hparent⟩ :
    ∃ (k : Kernel) (w : List GuestRun) (child parent : FdTable),
      Reached Env.childCloses (fun o s => s.1.slots + o.inHand < 2^32) k w ∧
      k.slots < 2^32 ∧
      k.tables = [child, parent] ∧ child.slots = [none, some ⟨1, false⟩, some ⟨2, false⟩] ∧
      parent.slots = [some ⟨0, false⟩, some ⟨1, false⟩, some ⟨2, false⟩] :=
    ⟨_, _, _, _, .between _ _ hstep, by decide +kernel, rfl, rfl, rfl⟩
  obtain ⟨d, hd⟩ := descriptors_live hreached hslots parent (by rw [htables]; simp) ⟨0, false⟩
    (by rw [hparent]; simp)
  exact ⟨k, w, child, parent, d, hreached, htables, by simp [FdTable.get, hchild], by
    simp [FdTable.get, hparent], hd⟩

end
end Wasmux
