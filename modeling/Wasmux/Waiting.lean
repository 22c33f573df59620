import Wasmux.Lineage
import Wasmux.Upholding
import Wasmux.Faults
import Wasmux.Timers

/-!
# How an end is told

A child that ends tells its status through its record, and the record goes when
its parent has asked. What is noted of a session is who asked and what the record
said. Ends are written down once: whatever is tried later, a record says what
was said first.
-/

set_option autoImplicit false

namespace Wasmux
open Counting Effects Abi

namespace Shared

/-- Who is and was there, who is whose child, and how each ended. -/
def annals (sh : Shared) : List (ℤ × ℤ × Option ℤ) × ℤ × List (ℤ × ℤ) :=
    (pedigreeOf sh.table, sh.nextPid, sh.exits)

/-- The status that was recorded first for a process. -/
def firstExit (sh : Shared) (pid : ℤ) : Option ℤ := (sh.exits.find? fun e => e.1 == pid).map Prod.snd

variable {sh sh' : Shared} {pid status : ℤ}

@[simp] theorem annals_releaseAll (keys : List DescKey) (sh : Shared) :
    (sh.releaseAll keys).2.annals = sh.annals := by
  obtain ⟨descs, pipes, heq⟩ := releaseAll_eq keys sh
  rw [heq]
  rfl

@[simp] theorem annals_releaseFds (table : FdTable) (sh : Shared) :
    (sh.releaseFds table).2.annals = sh.annals :=
  annals_releaseAll _ sh

@[simp] theorem annals_duplicate (table : FdTable) (sh : Shared) :
    (sh.duplicate table).annals = sh.annals := by
  obtain ⟨descs, heq⟩ := duplicate_eq table sh
  rw [heq]
  rfl

/-- What an exit does to the records, but for the signal that tells the parent. -/
def exited (sh : Shared) (pid status : ℤ) : List ProcRecord :=
  (updateRecord.go pid (exitRecord status) sh.table).map (reparent pid)

theorem pedigree_setExit (sh : Shared) (pid status : ℤ) :
    pedigreeOf (sh.setExit pid status).table = pedigreeOf (sh.exited pid status) ∨
    pedigreeOf (sh.setExit pid status).table =
      pedigreeOf ((sh.exited pid status).filter fun r => r.pid != pid) := by
  unfold setExit
  dsimp only
  split
  · left
    exact pedigreeOf_update (sh.exited pid status) _ fun r => raise_pedigree r sigchld
  · exact .inr rfl

theorem reparent_pid (pid : ℤ) (r : ProcRecord) :
    (reparent pid r).pid = r.pid ∧ (reparent pid r).exit = r.exit := by
  unfold reparent
  split <;> exact ⟨rfl, rfl⟩

/-- The records after an exit are those before it, and the one of who ended says so. -/
theorem of_mem_exited (hunique : sh.roll.names.Nodup) {r' : ProcRecord} (h : r' ∈ sh.exited pid status) :
    ∃ r ∈ sh.table, r.pid = r'.pid ∧ r'.exit = if r.pid = pid then some (r.exit.getD status) else r.exit := by
  rw [roll, names_roll] at hunique
  obtain ⟨q, hq, rfl⟩ := List.mem_map.mp h
  rw [(reparent_pid pid q).1, (reparent_pid pid q).2]
  clear h
  revert hunique hq
  induction sh.table with
  | nil => exact fun _ hq => absurd hq List.not_mem_nil
  | cons first rest ih =>
    intro hunique hq
    obtain ⟨hfirst, hrest⟩ := List.nodup_cons.mp hunique
    unfold updateRecord.go at hq
    by_cases hpid : first.pid = pid
    · rw [if_pos (by simpa using hpid)] at hq
      rcases List.mem_cons.mp hq with rfl | hq
      · exact ⟨first, List.mem_cons_self, rfl, (if_pos hpid).symm⟩
      · have hother : q.pid ≠ pid := fun heq => hfirst ((hpid.trans heq.symm) ▸ List.mem_map_of_mem hq)
        exact ⟨q, List.mem_cons_of_mem _ hq, rfl, (if_neg hother).symm⟩
    · rw [if_neg (by simpa using hpid)] at hq
      rcases List.mem_cons.mp hq with rfl | hq
      · exact ⟨q, List.mem_cons_self, rfl, (if_neg hpid).symm⟩
      · obtain ⟨r, hr, hsame⟩ := ih hrest hq
        exact ⟨r, List.mem_cons_of_mem _ hr, hsame⟩

theorem of_mem_setExit (hunique : sh.roll.names.Nodup) {r' : ProcRecord}
    (h : r' ∈ (sh.setExit pid status).table) :
    ∃ r ∈ sh.table, r.pid = r'.pid ∧ r'.exit = if r.pid = pid then some (r.exit.getD status) else r.exit := by
  have hentry : (r'.pid, r'.ppid, r'.exit) ∈ pedigreeOf (sh.setExit pid status).table := List.mem_map_of_mem h
  have hexited : ∃ q ∈ sh.exited pid status, q.pid = r'.pid ∧ q.exit = r'.exit := by
    rcases pedigree_setExit sh pid status with hped | hped
    all_goals
      rw [hped] at hentry
      obtain ⟨q, hq, heq⟩ := List.mem_map.mp hentry
    · exact ⟨q, hq, congrArg Prod.fst heq, congrArg (fun e => e.2.2) heq⟩
    · exact ⟨q, (List.mem_filter.mp hq).1, congrArg Prod.fst heq, congrArg (fun e => e.2.2) heq⟩
  obtain ⟨q, hq, hpid, hexit⟩ := hexited
  obtain ⟨r, hr, hsame, hsaid⟩ := of_mem_exited hunique hq
  exact ⟨r, hr, hsame.trans hpid, hexit.symm.trans hsaid⟩

theorem mem_setExit_other {r : ProcRecord} (hr : r ∈ sh.table) (hne : r.pid ≠ pid) (status : ℤ) :
    ∃ r' ∈ (sh.setExit pid status).table, r'.pid = r.pid ∧ r'.exit = r.exit := by
  have hthere : reparent pid r ∈ sh.exited pid status := List.mem_map_of_mem (mem_update_other hr hne _)
  have hentry : ((reparent pid r).pid, (reparent pid r).ppid, (reparent pid r).exit) ∈
      pedigreeOf (sh.setExit pid status).table := by
    rcases pedigree_setExit sh pid status with hped | hped
    · rw [hped]
      exact List.mem_map_of_mem hthere
    · rw [hped]
      refine List.mem_map_of_mem (f := fun r : ProcRecord => (r.pid, r.ppid, r.exit))
        (List.mem_filter.mpr ⟨hthere, ?_⟩)
      rw [(reparent_pid pid r).1]
      simpa using hne
  obtain ⟨r', hr', heq⟩ := List.mem_map.mp hentry
  refine ⟨r', hr', ?_, ?_⟩
  · exact (congrArg Prod.fst heq).trans (reparent_pid pid r).1
  · exact (congrArg (fun e => e.2.2) heq).trans (reparent_pid pid r).2

/-! ## What the ends of processes keep -/

/-- A property of the annals that is kept when one of these ends. -/
structure Outlives (ends : ℤ → Prop) (P : Shared → Prop) : Prop where
  congr : ∀ {sh sh' : Shared}, sh'.annals = sh.annals → P sh → P sh'
  ended : ∀ {sh : Shared} {pid : ℤ} (status : ℤ), ends pid → P sh → P (sh.setExit pid status)

end Shared

theorem KAct.annals_exec (a : KAct) (k : Kernel) (h : a.ends = false) :
    (a.exec k).2.shared.annals = k.shared.annals := by
  cases a with
  | finishProcess | abandonSpawn | abandonExec => cases h
  | attach | launchSpawn | releaseInstance | restoreJmp | trapMessage =>
    simp only [exec]
    repeat' split
    all_goals rfl
  | charge bytes =>
    simp only [exec, Shared.chargeMemory]
    split <;> rfl
  | whyIdle =>
    simp only [exec, Kernel.whyIdle]
    repeat' split
    all_goals rfl
  | _ => rfl

namespace Shared.Outlives
variable {ends : ℤ → Prop} {P : Shared → Prop}

theorem killChildren (h : Outlives ends P) (status : ℤ) (stack : List Task) (task : Task) {sh : Shared}
    (hends : ∀ t ∈ task :: stack, ends t.pid) (hs : P sh) : P (Kernel.killChildren status stack task sh).2.2 ∧
      ends (Kernel.killChildren status stack task sh).2.1.pid := by
  induction stack generalizing task sh with
  | nil => exact ⟨hs, hends task List.mem_cons_self⟩
  | cons parent stack ih =>
    apply ih parent fun t ht => hends t (List.mem_cons_of_mem _ ht)
    exact h.ended status (hends task List.mem_cons_self) (h.congr (annals_releaseFds _ _) hs)

/-- What the loop does, as long as those it ends are among these. -/
theorem kact (h : Outlives ends P) {k : Kernel} (a : KAct) (hcarried : ∀ pid ∈ k.carriers, ends pid)
    (hvacant : ∀ index status p, a = .finishProcess index status → k.procs[index]? = some p →
      p.ctx.execRequest.isSome = true → p.ctx.vforkStack = [] ∧ ends p.ctx.task.pid) (hs : P k.shared) :
      P (a.exec k).2.shared := by
  have hproc : ∀ p ∈ k.procs, ∀ pid ∈ p.ctx.carriers, ends pid := fun p hp pid hpid =>
    hcarried pid (List.mem_append_left _ (List.mem_flatMap.mpr ⟨p, hp, hpid⟩))
  by_cases hends : a.ends = true
  · cases a with
    | finishProcess index status =>
      simp only [KAct.exec, Kernel.finishProcess]
      split
      · exact hs
      rename_i p hp
      have hstack : ∀ t ∈ p.ctx.task :: p.ctx.vforkStack, ends t.pid := by
        rcases hrequest : p.ctx.execRequest with _ | spawn
        · intro t ht
          apply hproc p (List.mem_of_getElem? hp)
          rw [carriers_of_none hrequest]
          exact List.mem_map_of_mem (f := Task.pid) ht
        · obtain ⟨halone, htask⟩ := hvacant index status p rfl hp (by rw [hrequest]; rfl)
          rw [halone]
          intro t ht
          obtain rfl := List.mem_singleton.mp ht
          exact htask
      have hsame : (k.shared.releaseMemory (satAddU64 p.charged p.ctx.exec.grown)).annals =
        k.shared.annals := rfl
      have hreleased := h.congr hsame hs
      obtain ⟨hkilled, hlast⟩ :=
        h.killChildren (statusSignaled sigkill) p.ctx.vforkStack p.ctx.task hstack hreleased
      exact h.ended status hlast (h.congr (annals_releaseFds _ _) hkilled)
    | abandonSpawn =>
      simp only [KAct.exec]
      split
      · exact hs
      · rename_i spawn rest hspawn
        refine h.ended _ (hcarried _ (List.mem_append_right _ ?_)) (h.congr ?_ hs)
        · rw [queue, hspawn]
          exact List.mem_cons_self
        · exact annals_releaseFds _ _
    | abandonExec index =>
      simp only [KAct.exec]
      split
      · exact hs
      · rename_i spawn hspawn
        obtain ⟨p, hp, hrequest⟩ := Option.bind_eq_some_iff.mp hspawn
        refine h.ended _ (hproc p (List.mem_of_getElem? hp) _ ?_) (h.congr (annals_releaseFds _ _) hs)
        rw [Ctx.carriers, hrequest]
        exact List.mem_cons_self
    | _ => cases hends
  · exact h.congr (a.annals_exec k (by simpa using hends)) hs

/-- What a call does, but for a birth and for what a parent has heard of. -/
theorem act (h : Outlives ends P) {m : Machine} (a : Act) (hcarried : ∀ pid ∈ m.ctx.carriers, ends pid)
    (hown : a.moves = true → m.ctx.execRequest = none) (hreap : a.reaps = false) (hfork : a ≠ .fork)
    (hs : P m.shared) :
    P (a.exec m).2.shared := by
  by_cases hcivil : a.civil = true
  · cases a with
    | reap => cases hreap
    | fork => exact absurd rfl hfork
    | vforkExit status =>
      simp only [Act.exec, Machine.vforkExit]
      split
      · exact hs
      · refine h.ended status (hcarried _ ?_) (h.congr (annals_releaseFds _ _) hs)
        rw [carriers_of_none (hown rfl)]
        exact List.mem_cons_self
    | finishExec program exe argv envp =>
      simp only [Act.exec, Machine.finishExec]
      split
      · exact h.congr (annals_releaseAll _ _) hs
      · exact h.congr (annals_releaseAll _ _) hs
    | _ => cases hcivil
  · obtain ⟨hpedigree, hnext, hexits, -⟩ := a.pedigree_exec m (by simpa using hcivil)
    refine h.congr ?_ hs
    rw [annals, annals, hpedigree, hnext, hexits]

end Shared.Outlives

/-- Who is carried is alive, and has a pid that was given out. -/
theorem Kernel.Rostered.carried {k : Kernel} (h : k.Rostered) {pid : ℤ} (hpid : pid ∈ k.carriers) :
    pid < k.shared.nextPid ∧ ∀ r ∈ k.shared.table, r.pid = pid → r.isAlive = true := by
  obtain ⟨lost, hlost⟩ := h.registered
  have hcount : 0 < k.carriers.count pid := List.count_pos_iff.mpr hpid
  have halive : k.shared.roll.alive pid ≠ 0 := by
    rw [hlost.tallies.alive]
    omega
  have hname : pid ∈ k.shared.roll.names := by
    by_contra habsent
    exact halive (Roll.alive_eq_zero habsent)
  refine ⟨hlost.below pid hname, fun r hr heq => ?_⟩
  cases hdead : r.isAlive with
  | true => rfl
  | false =>
    apply absurd _ halive
    apply Roll.alive_eq_zero_of_dead h.kin.unique
    exact List.mem_map.mpr ⟨r, hr, Prod.ext heq hdead⟩

section
variable {W : Type} {x : Env W} {ends : ℤ → Prop} {P : Shared → Prop} {o : KOp} {k : Kernel} {w : W}

/-- An operation by which nobody is born and nobody is heard of. -/
theorem Shared.Outlives.kexec (h : Outlives ends P) (hk : k.Rostered) (htidy : o.Tidy k)
    (hcarried : ∀ pid ∈ k.carriers, ends pid) (hzero : ends 0)
    (hplain : ∀ i a, o = .machine i (.act a) → a.reaps = false ∧ a ≠ .fork) (hs : P k.shared) :
    P (kexec x o (k, w)).2.1.shared := by
  cases o with
  | env c => exact hs
  | act a =>
    refine h.kact a hcarried ?_ hs
    rintro index status p rfl hp hrequest
    refine ⟨htidy p hp hrequest, ?_⟩
    rw [hk.vacant p (List.mem_of_getElem? hp) hrequest]
    exact hzero
  | machine i o =>
    rcases hp : k.procs[i]? with _ | p
    · rw [kexec_machine_none x hp]
      exact hs
    rw [kexec_machine x hp]
    cases o with
    | env c => exact hs
    | act a =>
      obtain ⟨hreap, hfork⟩ := hplain i a rfl
      refine h.act (m := k.machineOf p) a (fun pid hpid => hcarried pid ?_) (htidy p hp).own hreap hfork hs
      exact List.mem_append_left _ (List.mem_flatMap.mpr ⟨p, List.mem_of_getElem? hp, hpid⟩)

end

/-! ## What is said of an end -/

/-- What the records say is what was said first, and of nobody who was never there is anything said. -/
structure Shared.Truthful (sh : Shared) : Prop where
  below : ∀ e ∈ sh.exits, e.1 < sh.nextPid
  told : ∀ r ∈ sh.table, r.exit = sh.firstExit r.pid

namespace Shared
variable {sh sh' : Shared} {pid status : ℤ}

theorem firstExit_append (sh : Shared) (pid status other : ℤ) : (sh.setExit pid status).firstExit other =
    (sh.firstExit other).or (if pid = other then some status else none) := by
  unfold firstExit
  rw [exits_setExit, List.find?_append]
  cases (sh.exits.find? fun e => e.1 == other) with
  | some e => rfl
  | none =>
    by_cases hpid : pid = other
    · simp [hpid]
    · simp [hpid]

theorem firstExit_isSome {pid : ℤ} (h : (sh.firstExit pid).isSome = true) : ∃ e ∈ sh.exits, e.1 = pid := by
  obtain ⟨st, hst⟩ := Option.isSome_iff_exists.mp h
  obtain ⟨e, he, -⟩ := Option.map_eq_some_iff.mp hst
  exact ⟨e, List.mem_of_find?_eq_some he, by simpa using List.find?_some he⟩

theorem outlives_first (pid status : ℤ) : Outlives (fun _ => True) fun sh =>
    sh.firstExit pid = some status where
  congr {sh sh'} hannals hs := by
    have hexits : sh'.exits = sh.exits := congrArg (fun a => a.2.2) hannals
    rw [firstExit, hexits]
    exact hs
  ended status' _ hs := by
    rw [firstExit_append, hs]
    rfl

theorem outlives_kept (pid : ℤ) (exit : Option ℤ) :
    Outlives (fun other => other ≠ pid) fun sh => ∃ r ∈ sh.table, r.pid = pid ∧ r.exit = exit where
  congr {sh sh'} hannals hs := by
    obtain ⟨r, hr, rfl, rfl⟩ := hs
    have hentry : (r.pid, r.ppid, r.exit) ∈ pedigreeOf sh'.table := by
      rw [show pedigreeOf sh'.table = _ from congrArg Prod.fst hannals]
      exact List.mem_map_of_mem hr
    obtain ⟨r', hr', heq⟩ := List.mem_map.mp hentry
    exact ⟨r', hr', congrArg Prod.fst heq, congrArg (fun e => e.2.2) heq⟩
  ended status hne hs := by
    obtain ⟨r, hr, rfl, rfl⟩ := hs
    exact mem_setExit_other hr (Ne.symm hne) status

theorem outlives_gone (pid : ℤ) : Outlives (fun _ => True) fun sh => pid ∉ sh.roll.names where
  congr {sh sh'} hannals hs := by
    have hroll : sh'.roll = sh.roll := by
      rw [roll, roll, roll_pedigree, roll_pedigree, show pedigreeOf sh'.table =
        _ from congrArg Prod.fst hannals]
      rfl
    rw [hroll]
    exact hs
  ended status _ hs := fun hmem => hs ((names_setExit _ _ status).mem hmem)

theorem Truthful.congr (h : sh.Truthful) (hannals : sh'.annals = sh.annals) : sh'.Truthful := by
  have hpedigree : pedigreeOf sh'.table = pedigreeOf sh.table := congrArg Prod.fst hannals
  have hnext : sh'.nextPid = sh.nextPid := congrArg (fun a => a.2.1) hannals
  have hexits : sh'.exits = sh.exits := congrArg (fun a => a.2.2) hannals
  constructor
  · rw [hexits, hnext]
    exact h.below
  · intro r' hr'
    have hentry : (r'.pid, r'.ppid, r'.exit) ∈ pedigreeOf sh.table := hpedigree ▸ List.mem_map_of_mem hr'
    obtain ⟨r, hr, heq⟩ := List.mem_map.mp hentry
    have hpid : r.pid = r'.pid := congrArg Prod.fst heq
    have hexit : r.exit = r'.exit := congrArg (fun e => e.2.2) heq
    rw [← hexit, h.told r hr, hpid, firstExit, firstExit, hexits]

/-- Whatever is said of an end later, the record says what was said first. -/
theorem Truthful.setExit (h : sh.Truthful) (hunique : sh.roll.names.Nodup) (hpid : pid < sh.nextPid)
    (status : ℤ) :
    (sh.setExit pid status).Truthful := by
  constructor
  · rw [exits_setExit, nextPid_setExit]
    intro e he
    rcases List.mem_append.mp he with hold | hnew
    · exact h.below e hold
    · rw [List.mem_singleton.mp hnew]
      exact hpid
  · intro r' hr'
    obtain ⟨r, hr, hsame, hsaid⟩ := of_mem_setExit hunique hr'
    rw [hsaid, firstExit_append, ← hsame, ← h.told r hr]
    by_cases heq : r.pid = pid
    · rw [if_pos heq, if_pos heq.symm]
      cases r.exit <;> rfl
    · rw [if_neg heq, if_neg (Ne.symm heq), Option.or_none]

theorem outlives_truthful (next : ℤ) :
    Outlives (fun pid => pid < next) fun sh => sh.nextPid = next ∧ sh.roll.names.Nodup ∧ sh.Truthful where
  congr {sh sh'} hannals hs := by
    have hpedigree : pedigreeOf sh'.table = pedigreeOf sh.table := congrArg Prod.fst hannals
    refine ⟨(congrArg (fun a => a.2.1) hannals).trans hs.1, ?_, hs.2.2.congr hannals⟩
    rw [roll, roll_pedigree, hpedigree, ← roll_pedigree]
    exact hs.2.1
  ended {sh pid} status hpid hs := by
    refine ⟨(nextPid_setExit _ _ _).trans hs.1, hs.2.1.sublist (names_setExit _ _ status), ?_⟩
    exact hs.2.2.setExit hs.2.1 (hs.1.symm ▸ hpid) status

theorem forkRecord_born {parent : Task} (h : sh.forkRecord parent = some (pid, sh')) : ∃ r : ProcRecord,
    r.pid = sh.nextPid ∧ r.exit = none ∧
      sh' = { sh with nextPid := satAddI32 sh.nextPid 1, table := sh.table ++ [r] } := by
  unfold forkRecord at h
  split at h
  · cases h
  simp only [allocatePid, Option.some.injEq, Prod.mk.injEq] at h
  obtain ⟨rfl, rfl⟩ := h
  refine ⟨_, ?_, ?_, rfl⟩
  · split <;> rfl
  · split <;> rfl

theorem satAddI32_next {n : ℤ} (hfirst : 0 < n) (hroom : n < i32Max) : satAddI32 n 1 = n + 1 := by
  unfold satAddI32
  unfold i32Max at hroom ⊢
  unfold i32Min
  omega

theorem Truthful.forkRecord {parent : Task} (h : sh.Truthful) (hfirst : 0 < sh.nextPid)
    (hroom : sh.nextPid < i32Max) (hfork : sh.forkRecord parent = some (pid, sh')) : sh'.Truthful := by
  obtain ⟨r, hpid, hexit, rfl⟩ := forkRecord_born hfork
  constructor
  · intro e he
    have hbelow := h.below e he
    show e.1 < satAddI32 sh.nextPid 1
    rw [satAddI32_next hfirst hroom]
    omega
  · intro q hq
    rcases List.mem_append.mp hq with hold | hnew
    · exact h.told q hold
    · obtain rfl := List.mem_singleton.mp hnew
      rw [hexit]
      cases hsaid : sh.firstExit q.pid with
      | none => exact hsaid.symm
      | some status =>
        obtain ⟨e, he, heq⟩ := firstExit_isSome (by rw [hsaid]; rfl)
        have hbelow := h.below e he
        omega

theorem Truthful.strike (h : sh.Truthful) (child : ℤ) :
    Truthful { sh with table := sh.table.filter fun r => r.pid != child } :=
  ⟨h.below, fun r hr => h.told r (List.mem_filter.mp hr).1⟩

end Shared

/-! ## Who has heard -/

/-- Who asked, and the record that told of the end. -/
structure Reaped where
  caller : ℤ
  record : ProcRecord

/-- The notes of who has heard of whose end. -/
def waits : History (List Reaped) where
  start := []
  next t o k _ := match o with
    | .machine i (.act (.reap child)) => match k.procs[i]?, k.shared.record child with
      | some p, some r => t ++ [⟨p.ctx.task.pid, r⟩]
      | _, _ => t
    | _ => t

def Op.Hears : Op → Machine → Prop
  | .act (.reap child), m => ∃ r ∈ m.shared.table, r.pid = child ∧ r.ppid = m.ctx.task.pid ∧ r.isAlive = false
  | _, _ => True

theorem Op.hears_plain {o : Op} (h : ∀ child, o ≠ .act (.reap child)) (m : Machine) : o.Hears m := by
  cases o with
  | env => trivial
  | act a =>
    cases a with
    | reap child => exact absurd rfl (h child)
    | _ => trivial

/-- What has been heard is true, and everybody was heard of once. -/
structure Kernel.Heard (k : Kernel) (t : List Reaped) : Prop where
  rostered : k.Rostered
  truthful : k.shared.Truthful
  distinct : (t.map fun v => v.record.pid).Nodup
  struck : ∀ v ∈ t, v.record.pid ∉ k.shared.roll.names
  first : ∀ v ∈ t, ∃ status, v.record.exit = some status ∧ k.shared.firstExit v.record.pid = some status
  own : ∀ v ∈ t, v.record.ppid = v.caller

section
variable {W : Type} {x : Env W} {k : Kernel} {w : W} {t : List Reaped} {i : ℕ} {p : Proc}

theorem Kernel.Rostered.first (h : k.Rostered) : 0 < k.shared.nextPid := by
  obtain ⟨lost, hlost⟩ := h.registered
  exact hlost.first

theorem Kernel.Heard.plain {o : KOp} (h : k.Heard t) (htidy : o.Tidy k) (hnumbered : o.Numbered k)
    (hplain : ∀ i a, o = .machine i (.act a) → a.reaps = false ∧ a ≠ .fork) :
    (kexec x o (k, w)).2.1.Heard t := by
  have hnext : (kexec x o (k, w)).2.1.shared.nextPid = k.shared.nextPid ∧ _ ∧
      (kexec x o (k, w)).2.1.shared.Truthful :=
    (Shared.outlives_truthful k.shared.nextPid).kexec h.rostered htidy
      (fun pid hpid => (h.rostered.carried hpid).1)
      h.rostered.first hplain ⟨rfl, h.rostered.kin.unique, h.truthful⟩
  refine ⟨kexec_rostered x o h.rostered htidy hnumbered, hnext.2.2, h.distinct, fun v hv =>
    ?_, fun v hv => ?_, h.own⟩
  · exact (Shared.outlives_gone v.record.pid).kexec h.rostered htidy
      (fun _ _ => trivial) trivial hplain (h.struck v hv)
  · obtain ⟨status, hexit, hfirst⟩ := h.first v hv
    exact ⟨status, hexit,
      (Shared.outlives_first v.record.pid status).kexec h.rostered htidy (fun _ _ => trivial) trivial
      hplain hfirst⟩

theorem fork_shared (m : Machine) : (m.shared.forkRecord m.ctx.task = none → m.fork.2.shared = m.shared) ∧
    ∀ pid sh, m.shared.forkRecord m.ctx.task = some (pid, sh) →
    m.fork.2.shared = sh.duplicate m.ctx.task.fds := by
  unfold Machine.fork
  constructor
  · intro hnone
    rw [hnone]
  · intro pid sh hsome
    rw [hsome]

/-- A birth. -/
theorem Kernel.Heard.fork (h : k.Heard t) (hp : k.procs[i]? = some p)
    (htidy : (KOp.machine i (.act .fork)).Tidy k) (hnumbered : (KOp.machine i (.act .fork)).Numbered k) :
    (kexec x (.machine i (.act .fork)) (k, w)).2.1.Heard t := by
  have hrostered := kexec_rostered x (.machine i (.act .fork)) (s := (k, w)) h.rostered htidy hnumbered
  rcases hfork : k.shared.forkRecord p.ctx.task with _ | ⟨pid, sh⟩
  · have hsame : (kexec x (.machine i (.act .fork)) (k, w)).2.1.shared = k.shared := by
      rw [kexec_machine x hp]
      exact (fork_shared (k.machineOf p)).1 hfork
    refine ⟨hrostered, ?_, h.distinct, ?_, ?_, h.own⟩
    all_goals rw [hsame]
    · exact h.truthful
    · exact h.struck
    · exact h.first
  · have hborn : (kexec x (.machine i (.act .fork)) (k, w)).2.1.shared = sh.duplicate p.ctx.task.fds := by
      rw [kexec_machine x hp]
      exact (fork_shared (k.machineOf p)).2 pid sh hfork
    have hroom := hnumbered p hp (by rw [hfork]; rfl)
    have htruthful := h.truthful.forkRecord h.rostered.first hroom hfork
    obtain ⟨r, hpid, hexit, rfl⟩ := Shared.forkRecord_born hfork
    have hannals := Shared.annals_duplicate p.ctx.task.fds
      { k.shared with nextPid := satAddI32 k.shared.nextPid 1, table := k.shared.table ++ [r] }
    refine ⟨hrostered, ?_, h.distinct, fun v hv => ?_, fun v hv => ?_, h.own⟩
    all_goals rw [hborn]
    · exact htruthful.congr hannals
    · refine (Shared.outlives_gone v.record.pid).congr hannals ?_
      obtain ⟨status, -, hfirst⟩ := h.first v hv
      obtain ⟨e, he, heq⟩ := Shared.firstExit_isSome (by rw [hfirst]; rfl)
      have hbelow := h.truthful.below e he
      have hnames : Shared.roll
          { k.shared with nextPid := satAddI32 k.shared.nextPid 1, table := k.shared.table ++ [r] } =
          k.shared.roll ++ [(r.pid, r.isAlive)] := by
        simp only [Shared.roll, Shared.rollOf, List.map_append, List.map_cons, List.map_nil]
      rw [hnames, Roll.names, List.map_append, List.mem_append, not_or]
      refine ⟨h.struck v hv, fun hnew => ?_⟩
      have hlast := List.mem_singleton.mp hnew
      simp only at hlast
      omega
    · obtain ⟨status, hexit, hfirst⟩ := h.first v hv
      exact ⟨status, hexit, (Shared.outlives_first v.record.pid status).congr hannals hfirst⟩

/-- A parent hears of an end. -/
theorem Kernel.Heard.reap {child : ℤ} (h : k.Heard t) (hp : k.procs[i]? = some p)
    (htidy : (KOp.machine i (.act (.reap child))).Tidy k)
    (hhears : (Op.act (.reap child)).Hears (k.machineOf p)) :
    (kexec x (.machine i (.act (.reap child))) (k, w)).2.1.Heard
      (waits.next t (.machine i (.act (.reap child))) k ()) := by
  have hrostered := kexec_rostered x (.machine i (.act (.reap child))) (s := (k, w)) h.rostered htidy trivial
  obtain ⟨r, hr, rfl, hown, hdead⟩ := hhears
  have hr : r ∈ k.shared.table := hr
  have hrecord : k.shared.record r.pid = some r := Shared.record_of_mem h.rostered.kin.unique hr
  have hnext : waits.next t (.machine i (.act (.reap r.pid))) k () = t ++ [⟨p.ctx.task.pid, r⟩] := by
    simp only [waits, hp, hrecord]
  have hshared : (kexec x (.machine i (.act (.reap r.pid))) (k, w)).2.1.shared =
      { k.shared with table := k.shared.table.filter fun q => q.pid != r.pid } := by
    rw [kexec_machine x hp]
    rfl
  have hstruck := Shared.rollOf_strike k.shared.table r.pid
  have hname : r.pid ∈ k.shared.roll.names := by
    rw [Shared.roll, Shared.names_roll]
    exact List.mem_map_of_mem hr
  obtain ⟨status, hstatus⟩ : ∃ status, r.exit = some status := by
    cases hexit : r.exit with
    | some status => exact ⟨status, rfl⟩
    | none => simp [ProcRecord.isAlive, hexit] at hdead
  rw [hnext]
  refine ⟨hrostered, ?_, ?_, ?_, ?_, ?_⟩
  · rw [hshared]
    exact h.truthful.strike r.pid
  · rw [List.map_append, List.nodup_append]
    refine ⟨h.distinct, List.nodup_singleton _, ?_⟩
    rintro pid hpid other hother rfl
    obtain ⟨v, hv, rfl⟩ := List.mem_map.mp hpid
    exact h.struck v hv (List.mem_singleton.mp hother ▸ hname)
  · rw [hshared]
    intro v hv
    show v.record.pid ∉ (Shared.rollOf (k.shared.table.filter fun q => q.pid != r.pid)).names
    rw [hstruck]
    intro hmem
    obtain ⟨e, he, heq⟩ := List.mem_map.mp hmem
    obtain ⟨hold, hne⟩ := List.mem_filter.mp he
    rcases List.mem_append.mp hv with hv | hv
    · exact h.struck v hv (heq ▸ List.mem_map_of_mem hold)
    · rw [List.mem_singleton.mp hv] at heq
      exact absurd heq (by simpa using hne)
  · rw [hshared]
    intro v hv
    rcases List.mem_append.mp hv with hv | hv
    · exact h.first v hv
    · rw [List.mem_singleton.mp hv]
      exact ⟨status, hstatus, (h.truthful.told r hr).symm.trans hstatus⟩
  · intro v hv
    rcases List.mem_append.mp hv with hv | hv
    · exact h.own v hv
    · rw [List.mem_singleton.mp hv]
      exact hown

theorem waits_plain {o : KOp} (hplain : ∀ i a, o = .machine i (.act a) → a.reaps = false ∧ a ≠ .fork)
    (a : o.Ans) :
    waits.next t o k a = t := by
  cases o with
  | env | act => rfl
  | machine i o =>
    cases o with
    | env => rfl
    | act b =>
      cases b with
      | reap child => cases (hplain i _ rfl).1
      | _ => rfl

theorem chronicled_waits (x : Env W) : Chronicled x waits
    (fun o s => (o.Numbered s.1 ∧ o.Tidy s.1) ∧ o.Within (fun o s => o.Hears s.1) s) Kernel.Heard where
  lasting t := by
    refine ⟨fun k data closed h => ?_, fun k out err h => ?_⟩
    · exact ⟨h.rostered.congr rfl rfl rfl rfl rfl, h.truthful.congr rfl, h.distinct, h.struck, h.first, h.own⟩
    · exact ⟨h.rostered.congr rfl rfl rfl rfl rfl, h.truthful.congr rfl, h.distinct, h.struck, h.first, h.own⟩
  init c started k hk := by
    refine ⟨rostered_kernel hk, ?_, List.nodup_nil, fun v hv => ?_, fun v hv => ?_, fun v hv => ?_⟩
    · obtain ⟨fds, slab, rfl⟩ := Config.kernel_eq hk
      refine ⟨fun e he => absurd he List.not_mem_nil, fun r hr => ?_⟩
      obtain rfl := List.mem_singleton.mp hr
      rfl
    all_goals exact absurd hv List.not_mem_nil
  next o s t h ho := by
    obtain ⟨k, w⟩ := s
    obtain ⟨⟨hnumbered, htidy⟩, hhears⟩ := ho
    by_cases hplain : ∀ i a, o = .machine i (.act a) → a.reaps = false ∧ a ≠ .fork
    · rw [waits_plain hplain]
      exact h.plain htidy hnumbered hplain
    push Not at hplain
    obtain ⟨i, a, rfl, ha⟩ := hplain
    rcases hp : k.procs[i]? with _ | p
    · have hsame : waits.next t (.machine i (.act a)) k (kexec x (.machine i (.act a)) (k, w)).1 = t := by
        cases a with
        | reap child => simp only [waits, hp]
        | _ => rfl
      rw [hsame, kexec_machine_none x hp]
      exact h
    · cases a with
      | reap child => exact h.reap hp htidy (hhears p hp)
      | fork => exact h.fork hp htidy hnumbered
      | _ => exact absurd (ha rfl) Act.noConfusion

/-! ## Asking -/

theorem keeping_hears {ε α : Type} {q : Program sig ε α} {s : Machine × W}
    (hq : q.Along (exec x) (fun o _ => ∀ child, o ≠ .act (.reap child)) s) :
    Keeping x (fun _ _ => True) (fun o s => o.Hears s.1) (fun _ => True) q s :=
  Program.meets_of_run (hq.mono _ fun _ t ho => ⟨trivial, Op.hears_plain ho t.1⟩) trivial

theorem Calm.hears {α : Type} {κ : Kind} {q : Handler α} (hq : Calm κ q)
    (hκ : ∀ child, κ.rare (.reap child) = false) (s : Machine × W) :
    Keeping x (fun _ _ => True) (fun o s => o.Hears s.1) (fun _ => True) q s := by
  refine keeping_hears ((hq.along s).mono _ ?_)
  rintro _ - ho child rfl
  cases (hκ child).symm.trans (ho.1 (.reap child) List.mem_cons_self)

theorem only_hearChild {B : Op → Prop} (a : Args) (found : ℤ × ℤ)
    (h : ∀ start data, B (.act (.put start data))) :
    (hearChild a found).Only B := by
  unfold hearChild
  dsimp only
  split
  · refine Program.only_bind (only_put _ _ (h _ _)) fun _ => ?_
    split
    · exact Program.only_bind (only_put _ _ (h _ _)) fun _ => trivial
    · trivial
  · split
    · exact Program.only_bind (only_put _ _ (h _ _)) fun _ => trivial
    · trivial

theorem found_waited {m : Machine} {a : Args} {found : ℤ × ℤ}
    (h : ((waited m.view a).findSome? fun r => r.exit.map fun status => (r.pid, status)) = some found) :
    ∃ r ∈ m.shared.table, r.pid = found.1 ∧ r.exit = some found.2 ∧ r.ppid = m.ctx.task.pid ∧
      Sys.waitMatches a.a0 (((m.shared.record m.ctx.task.pid).map ProcRecord.pgid).getD m.ctx.task.pid)
      r = true := by
  obtain ⟨r, hr, hsome⟩ := List.exists_of_findSome?_eq_some h
  obtain ⟨r', hr', rfl, hown, hmatches⟩ := mem_waited.mp hr
  obtain ⟨status, hexit, rfl⟩ := Option.map_eq_some_iff.mp hsome
  exact ⟨r', hr', rfl, hexit, hown, hmatches⟩

theorem keeping_wait4 (a : Args) (s : Machine × W) :
    Keeping x (fun _ _ => True) (fun o s => o.Hears s.1) (fun _ => True) (Sys.wait4 a) s := by
  rw [wait4_eq]
  refine meets_view fun _ => ⟨⟨trivial, trivial⟩, ?_⟩
  unfold waitFor
  refine Program.meets_ite (fun _ => trivial) fun _ => ?_
  cases hfound : (waited s.1.view a).findSome? fun r => r.exit.map fun status => (r.pid, status) with
  | none => exact Program.meets_ite (fun _ => trivial) fun _ => trivial
  | some found =>
    obtain ⟨r, hr, hpid, hexit, hown, -⟩ := found_waited hfound
    refine meets_act fun _ => ⟨⟨trivial, r, hr, hpid, hown, by rw [ProcRecord.isAlive, hexit]; rfl⟩, ?_⟩
    refine keeping_hears ((only_hearChild a found ?_).along _ _)
    exact fun start data child heq => by cases heq

/-- Whoever has a record removed is the parent of who has ended. -/
theorem upholds_hears (x : Env W) : Upholds x (fun _ _ => True) (fun o s => o.Hears s.1) fun _ => True where
  loop _ _ _ := trivial
  minor o s ho _ := by
    refine ⟨Op.hears_plain ?_ s.1, trivial⟩
    rintro child rfl
    cases ho
  reads fd len s _ := (calm_readBytes (κ := .plain) fd len).hears (fun _ => rfl) s
  writes fd data s _ := (calm_writeBytes (κ := .plain) fd data).hears (fun _ => rfl) s
  handles number args s _ := by
    by_cases hwait : Nr.ofInt number = .wait4
    · have hhandle : handle number args = Sys.wait4 args := by
        unfold handle
        rw [hwait]
      rw [hhandle]
      exact keeping_wait4 args s
    · refine (calm_handle number args).hears (fun child => ?_) s
      cases hnumber : Nr.ofInt number with
      | wait4 => exact absurd hnumber hwait
      | _ => rfl

theorem kept_hears (x : Env W) :
    Kept x (fun _ _ => True) (KOp.Within fun o s => o.Hears s.1) fun _ => True := by
  apply (upholds_hears x).kept.weaken
  · intro o s _
    cases o with
    | machine i o => exact fun _ _ => trivial
    | env => trivial
    | act => trivial
  · intro o s ho
    cases o with
    | machine i o => exact ho.2
    | env => trivial
    | act => trivial

theorem heard_performed {o : KOp} (h : Performed x waits (fun o s => o.Numbered s.1) o k w t) :
    k.Heard t ∧ (o.Numbered k ∧ o.Tidy k) ∧ o.Within (fun o s => o.Hears s.1) (k, w) := by
  have htidy : KeptTo x (fun o s => o.Numbered s.1) (fun o s => o.Tidy s.1) Kernel.Settled fun k index =>
      k.Handed index :=
    (keptTo_settled x).weaken (fun _ _ _ => trivial) fun _ _ => id
  have hsettled : Lasting Kernel.Settled := ⟨fun c started k hk => (registered_kernel hk).2,
    fun k data closed hk => hk.congr rfl, fun k out err hk => hk.congr rfl⟩
  have hordered := htidy.performed hsettled h
  have hhears := ((kept_hears x).weaken (fun _ _ _ => trivial) fun _ _ => id).loose.performed
    ⟨fun _ _ _ _ => trivial, fun _ _ _ _ => trivial, fun _ _ _ _ => trivial⟩ hordered
  exact hhears.keeps (chronicled_waits x)

/-- A parent hears of the end of each child once, and nobody else does. In every
session, no pid was heard of twice; who heard was the parent on the record, and
the status was the one that was recorded first. Every record of somebody who has
ended says just that, was not heard of, and stays until the parent on it asks. -/
theorem wait_delivers {o : KOp} (h : Performed x waits (fun o s => o.Numbered s.1) o k w t) :
    (t.map fun v => v.record.pid).Nodup ∧
    (∀ v ∈ t, v.record.ppid = v.caller ∧ ∃ status, v.record.exit = some status ∧
      k.shared.firstExit v.record.pid = some status) ∧
    ∀ r ∈ k.shared.table, r.exit = k.shared.firstExit r.pid ∧ (∀ v ∈ t, v.record.pid ≠ r.pid) ∧
      (r.isAlive = false → (∃ r' ∈ (kexec x o (k, w)).2.1.shared.table, r'.pid = r.pid ∧ r'.exit = r.exit) ∨
        ∃ i p, o = .machine i (.act (.reap r.pid)) ∧ k.procs[i]? = some p ∧ p.ctx.task.pid = r.ppid) := by
  obtain ⟨hheard, ⟨hnumbered, htidy⟩, hhears⟩ := heard_performed h
  refine ⟨hheard.distinct, fun v hv => ⟨hheard.own v hv, hheard.first v hv⟩, fun r hr => ?_⟩
  have hname : r.pid ∈ k.shared.roll.names := by
    rw [Shared.roll, Shared.names_roll]
    exact List.mem_map_of_mem hr
  refine ⟨hheard.truthful.told r hr, fun v hv heq => hheard.struck v hv (heq ▸ hname), fun hdead => ?_⟩
  by_cases hplain : ∀ i a, o = .machine i (.act a) → a.reaps = false ∧ a ≠ .fork
  · left
    refine (Shared.outlives_kept r.pid r.exit).kexec hheard.rostered htidy ?_ ?_ hplain ⟨r, hr, rfl, rfl⟩
    · rintro pid hpid rfl
      cases hdead.symm.trans ((hheard.rostered.carried hpid).2 r hr rfl)
    · exact fun hzero => absurd (hheard.rostered.kin.positive r.pid hname) (by omega)
  push Not at hplain
  obtain ⟨i, a, rfl, ha⟩ := hplain
  rcases hp : k.procs[i]? with _ | p
  · left
    rw [kexec_machine_none x hp]
    exact ⟨r, hr, rfl, rfl⟩
  cases a with
  | reap child =>
    by_cases hchild : child = r.pid
    · right
      subst hchild
      obtain ⟨q, hq, hpid, hown, -⟩ := hhears p hp
      have hsame : q = r := by
        have hunique := hheard.rostered.kin.unique
        exact Option.some.inj ((Shared.record_of_mem hunique hq).symm.trans
          (hpid ▸ Shared.record_of_mem hunique hr))
      exact ⟨i, p, rfl, hp, hsame ▸ hown.symm⟩
    · left
      rw [kexec_machine x hp]
      exact ⟨r, List.mem_filter.mpr ⟨hr, by simpa using Ne.symm hchild⟩, rfl, rfl⟩
  | fork =>
    left
    rw [kexec_machine x hp]
    show ∃ r' ∈ (k.machineOf p).fork.2.shared.table, _
    rcases hfork : (k.machineOf p).shared.forkRecord (k.machineOf p).ctx.task with _ | ⟨pid, sh⟩
    · rw [(fork_shared _).1 hfork]
      exact ⟨r, hr, rfl, rfl⟩
    · rw [(fork_shared _).2 pid sh hfork]
      obtain ⟨q, -, -, rfl⟩ := Shared.forkRecord_born hfork
      refine (Shared.outlives_kept r.pid r.exit).congr (Shared.annals_duplicate _ _) ?_
      exact ⟨r, List.mem_append_left _ hr, rfl, rfl⟩
  | _ => exact absurd (ha rfl) Act.noConfusion

/-! ## What the caller is told -/

/-- A word beside what was put is not touched. -/
theorem Mem.u32_put_beside {m m' : Mem} {start a : ℕ} {data : Bytes}
    (h : a + 4 ≤ start ∨ start + data.length ≤ a) (hput : m.put start data = .ok m') :
    m'.u32 a = m.u32 a := by
  have hsize := put_size hput
  unfold put at hput
  split at hput
  · obtain rfl := Except.ok.inj hput
    have hread : (m.write start data).read a 4 = m.read a 4 := by
      unfold read write
      apply List.map_congr_left
      intro i hi
      rw [List.mem_range] at hi
      dsimp only
      split
      · rw [List.getElem?_eq_none (by omega), Option.getD_none]
      · rfl
    rw [u32, u32, bytes, bytes, hsize, hread]
  · cases hput

theorem run_put_ok {m : Machine} {start : ℕ} {data : Bytes} {mem : Mem}
    (h : m.inst.mem.put start data = .ok mem) (w : W) :
    (put start data).run (exec x) (m, w) = (.ok (), (m.setMem mem, w)) := by
  change (lift (Act.exec (.put start data) m).1).run (exec x) ((Act.exec (.put start data) m).2, w) = _
  simp only [Act.exec, h]
  rfl

theorem run_put_error {m : Machine} {start : ℕ} {data : Bytes} {e : Errno}
    (h : m.inst.mem.put start data = .error e) (w : W) :
    (put start data).run (exec x) (m, w) = (.error (.errno e), (m, w)) := by
  change (lift (Act.exec (.put start data) m).1).run (exec x) ((Act.exec (.put start data) m).2, w) = _
  simp only [Act.exec, h]
  rfl

theorem put_fault {m : Mem} {start : ℕ} {data : Bytes} {e : Errno} (h : m.put start data = .error e) :
    e = .fault := by
  unfold Mem.put at h
  split at h
  · cases h
  · exact (Except.error.inj h).symm

/-- Where the caller is told of the status, and the rest does not cover it. -/
def Args.told (a : Args) : Prop := asU32 a.a1 ≠ 0 ∧
  (asU32 a.a3 = 0 ∨ asU32 a.a1 + 4 ≤ asU32 a.a3 ∨ asU32 a.a3 + 72 ≤ asU32 a.a1)

/-- The caller is told the status, or its pointers are bad. -/
theorem run_hearChild (a : Args) (found : ℤ × ℤ) (m : Machine) (w : W) : ∃ r m',
    (hearChild a found).run (exec x) (m, w) = (r, (m', w)) ∧ m'.shared = m.shared ∧
      (r = .ok found.1 ∧ (a.told → m'.inst.mem.u32 (asU32 a.a1) = .ok (asU32 found.2)) ∨
        r = .error (.errno .fault)) := by
  have husage : ∀ m : Machine, ∃ r m', (do
      if asU32 a.a3 ≠ 0 then put (asU32 a.a3) (List.replicate 72 0)
      return found.1 : Handler ℤ).run (exec x) (m, w) = (r, (m', w)) ∧ m'.shared = m.shared ∧
      (r = .ok found.1 ∧ (a.told → m'.inst.mem.u32 (asU32 a.a1) = m.inst.mem.u32 (asU32 a.a1)) ∨
        r = .error (.errno .fault)) := by
    intro m
    by_cases husage : asU32 a.a3 = 0
    · refine ⟨.ok found.1, m, ?_, rfl, .inl ⟨rfl, fun _ => rfl⟩⟩
      simp only [husage, ne_eq, not_true_eq_false, if_false]
      rfl
    · simp only [ne_eq, husage, not_false_eq_true, if_true]
      rcases hput : m.inst.mem.put (asU32 a.a3) (List.replicate 72 0) with e | mem
      · refine ⟨.error (.errno e), m, ?_, rfl, .inr (by rw [put_fault hput])⟩
        exact Program.run_bind_error (exec x) (run_put_error hput w)
      · refine ⟨.ok found.1, m.setMem mem, ?_, rfl, .inl ⟨rfl, fun htold => ?_⟩⟩
        · exact Program.run_bind_ok (exec x) (run_put_ok hput w)
        · refine Mem.u32_put_beside ?_ hput
          rw [List.length_replicate]
          exact htold.2.resolve_left husage
  unfold hearChild
  by_cases hstatus : asU32 a.a1 = 0
  · obtain ⟨r, m', hrun, hshared, hr⟩ := husage m
    refine ⟨r, m', ?_, hshared, hr.imp_left fun hok => ⟨hok.1, fun htold => absurd hstatus htold.1⟩⟩
    rw [← hrun]
    simp only [hstatus, ne_eq, not_true_eq_false, if_false]
  · simp only [ne_eq, hstatus, not_false_eq_true, if_true]
    rcases hput : m.inst.mem.put (asU32 a.a1) (toLe 4 (asU32 found.2)) with e | mem
    · refine ⟨.error (.errno e), m, ?_, rfl, .inr (by rw [put_fault hput])⟩
      exact Program.run_bind_error (exec x) (run_put_error hput w)
    · obtain ⟨r, m', hrun, hshared, hr⟩ := husage (m.setMem mem)
      refine ⟨r, m', (Program.run_bind_ok (exec x) (run_put_ok hput w)).trans hrun, hshared,
        hr.imp_left fun hok => ⟨hok.1, ?_⟩⟩
      intro htold
      rw [hok.2 htold]
      show mem.u32 (asU32 a.a1) = _
      rw [Mem.u32_put hput, Nat.mod_eq_of_lt (asU32_lt found.2)]

def Machine.Asks (m : Machine) (a : Args) (r : ProcRecord) : Prop :=
    r ∈ m.shared.table ∧ r.ppid = m.ctx.task.pid ∧
  Sys.waitMatches a.a0 (((m.shared.record m.ctx.task.pid).map ProcRecord.pgid).getD m.ctx.task.pid) r = true

theorem waited_nil {m : Machine} {a : Args} : waited m.view a = [] ↔ ∀ r, ¬ m.Asks a r := by
  rw [List.eq_nil_iff_forall_not_mem]
  constructor
  · rintro hnone r ⟨hr, hown, hmatches⟩
    exact hnone r.unwoken (mem_waited.mpr ⟨r, hr, rfl, hown, hmatches⟩)
  · intro hnone r hr
    obtain ⟨r', hr', -, hasks⟩ := mem_waited.mp hr
    exact hnone r' ⟨hr', hasks⟩

theorem found_none {m : Machine} {a : Args}
    (h : ((waited m.view a).findSome? fun r => r.exit.map fun status => (r.pid, status)) = none) :
    ∀ r, m.Asks a r → r.isAlive = true := by
  rintro r ⟨hr, hown, hmatches⟩
  have hnone := List.findSome?_eq_none_iff.mp h r.unwoken (mem_waited.mpr ⟨r, hr, rfl, hown, hmatches⟩)
  have hexit : r.exit = none := by simpa [ProcRecord.unwoken] using hnone
  rw [ProcRecord.isAlive, hexit]
  rfl

/-- What a call answers, by the children it asks about. -/
theorem run_wait4 (a : Args) (m : Machine) (w : W) :
    ∃ r m', (Sys.wait4 a).run (exec x) (m, w) = (r, (m', w)) ∧
    ((r = .error (.errno .child) ∧ m' = m ∧ ∀ c, ¬ m.Asks a c) ∨
    ((∃ c, m.Asks a c) ∧ (∀ c, m.Asks a c → c.isAlive = true) ∧ m' = m ∧
      (r = .ok 0 ∧ asU32 a.a2 &&& wnohang ≠ 0 ∨ r = .error .block ∧ asU32 a.a2 &&& wnohang = 0)) ∨
    ∃ c status, m.Asks a c ∧ c.exit = some status ∧
      m'.shared = { m.shared with table := m.shared.table.filter fun q => q.pid != c.pid } ∧
      (r = .ok c.pid ∧ (a.told → m'.inst.mem.u32 (asU32 a.a1) = .ok (asU32 status)) ∨
        r = .error (.errno .fault))) := by
  rw [wait4_eq]
  change ∃ r m', (waitFor m.view a).run (exec x) (m, w) = _ ∧ _
  unfold waitFor
  by_cases hnone : waited m.view a = []
  · rw [if_pos hnone]
    exact ⟨_, m, rfl, .inl ⟨rfl, rfl, waited_nil.mp hnone⟩⟩
  rw [if_neg hnone]
  cases hfound : (waited m.view a).findSome? fun r => r.exit.map fun status => (r.pid, status) with
  | none =>
    have hasks : ∃ c, m.Asks a c := by
      by_contra hno
      exact hnone (waited_nil.mpr fun r hr => hno ⟨r, hr⟩)
    by_cases hhang : asU32 a.a2 &&& wnohang = 0
    · refine ⟨.error .block, m, ?_, .inr (.inl ⟨hasks, found_none hfound, rfl, .inr ⟨rfl, hhang⟩⟩)⟩
      simp only [hhang, ne_eq, not_true_eq_false, if_false]
      rfl
    · refine ⟨.ok 0, m, ?_, .inr (.inl ⟨hasks, found_none hfound, rfl, .inl ⟨rfl, hhang⟩⟩)⟩
      simp only [ne_eq, hhang, not_false_eq_true, if_true]
      rfl
  | some found =>
    obtain ⟨c, hc, hpid, hexit, hown, hmatches⟩ := found_waited hfound
    obtain ⟨r, m', hrun, hshared, hr⟩ := run_hearChild (x := x) a found ((Act.reap found.1).exec m).2 w
    refine ⟨r, m', hrun, .inr (.inr ⟨c, found.2, ⟨hc, hown, hmatches⟩, hexit, ?_, ?_⟩)⟩
    · rw [hshared, hpid]
      rfl
    · rw [hpid]
      exact hr

/-- What a parent is told. In every session, a call answers with `ECHILD` just
when it asks about no child, and waits just when all that it asks about are
alive and it may. The pid it answers with is one of a child it asks about that
has ended, whose record is gone then, and where it points there is the status
that was recorded first. -/
theorem wait4_hears {index : ℕ} {a : Args} {r : Except Fault ℤ} {m' : Machine} {w' : W}
    (h : Performed x waits (fun o s => o.Numbered s.1) (.machine index (.act .served)) k w t)
    (hrun : (Sys.wait4 a).run (exec x) (k.machineOf p, w) = (r, (m', w'))) :
    (r = .error (.errno .child) ↔ ∀ c, ¬ (k.machineOf p).Asks a c) ∧
    (r = .error .block ↔ (∃ c, (k.machineOf p).Asks a c) ∧
      (∀ c, (k.machineOf p).Asks a c → c.isAlive = true) ∧
      asU32 a.a2 &&& wnohang = 0) ∧
    ∀ v, r = .ok v → v ≠ 0 → ∃ c status, (k.machineOf p).Asks a c ∧ c.pid = v ∧
    k.shared.firstExit v = some status ∧
      m'.shared.record v = none ∧ (a.told → m'.inst.mem.u32 (asU32 a.a1) = .ok (asU32 status)) := by
  have hheard := (heard_performed h).1
  obtain ⟨r', n, hrun', hcases⟩ := run_wait4 (x := x) a (k.machineOf p) w
  obtain ⟨rfl, hm⟩ := Prod.mk.inj (hrun.symm.trans hrun')
  obtain ⟨rfl, -⟩ := Prod.mk.inj hm
  clear hrun hrun' hm
  rcases hcases with ⟨rfl, -, hnone⟩ | ⟨⟨c, hc⟩, halive, -, hr⟩ | ⟨c, status, hc, hexit, hshared, hr⟩
  · refine ⟨⟨fun _ => hnone, fun _ => rfl⟩, ⟨fun heq => (by cases heq), fun hsome => ?_⟩,
      fun v hv => by cases hv⟩
    obtain ⟨⟨c, hc⟩, -⟩ := hsome
    exact absurd hc (hnone c)
  · refine ⟨⟨fun heq => ?_, fun hnone => absurd hc (hnone c)⟩, ⟨fun heq => ?_, fun hblock => ?_⟩,
      fun v hv hne => ?_⟩
    · rcases hr with ⟨rfl, -⟩ | ⟨rfl, -⟩ <;> cases heq
    · rcases hr with ⟨rfl, -⟩ | ⟨-, hhang⟩
      · cases heq
      · exact ⟨⟨c, hc⟩, halive, hhang⟩
    · rcases hr with ⟨-, hhang⟩ | ⟨rfl, -⟩
      · exact absurd hblock.2.2 hhang
      · rfl
    · rcases hr with ⟨rfl, -⟩ | ⟨rfl, -⟩
      · exact absurd (Except.ok.inj hv).symm hne
      · cases hv
  · refine ⟨⟨fun heq => ?_, fun hnone => absurd hc (hnone c)⟩, ⟨fun heq => ?_, fun hblock => ?_⟩,
      fun v hv _ => ?_⟩
    · rcases hr with ⟨rfl, -⟩ | rfl <;> cases heq
    · rcases hr with ⟨rfl, -⟩ | rfl <;> cases heq
    · have hlives := hblock.2.1 c hc
      rw [ProcRecord.isAlive, hexit] at hlives
      cases hlives
    · rcases hr with ⟨rfl, htold⟩ | rfl
      · obtain rfl := Except.ok.inj hv
        refine ⟨c, status, hc, rfl, (hheard.truthful.told c hc.1).symm.trans hexit, ?_, htold⟩
        rw [hshared, Shared.record, List.find?_eq_none]
        intro q hq
        simpa using (List.mem_filter.mp hq).2
      · cases hv

end

/-- A guest that makes a child, which exits with 7, and waits for it. -/
abbrev Env.hears : Env (List GuestRun) :=
  Env.scripted (.startingWith (argWords [0x4100, 0, 0, 0, 0, 0, 7, 0, 0, 0, 0, 0, -1, 200, 0, 0, 0, 0]))

theorem wait_delivers_once : ∃ (o : KOp) (k : Kernel) (w : List GuestRun) (t : List Reaped) (v : Reaped),
    Performed Env.hears waits (fun o s => o.Numbered s.1) o k w t ∧ t = [v] ∧ v.caller = 1 ∧
    v.record.pid = 2 ∧
    v.record.ppid = v.caller ∧ ∃ status, v.record.exit = some status ∧
    k.shared.firstExit v.record.pid = some status := by
  have hstart : Recorded Env.hears waits (fun o s => o.Numbered s.1) ⟨_, none⟩ _ [] :=
    .start (.bare [.guest 0]) 0 _ _
      [⟨[.syscall 220 0, .syscall 94 24, .syscall 260 48, .setjmp 0], none⟩] _ _ rfl
      (along_numbered (by decide +kernel)) rfl
  have hput := Performed.running _ _ _ 2 ⟨some 0, none⟩ _ hstart (along_numbered (by decide +kernel))
    (List.mem_of_getElem? (i := 27) rfl)
  obtain ⟨o, k, w, t, v, hput, ht, hcaller, hpid⟩ :
    ∃ (o : KOp) (k : Kernel) (w : List GuestRun) (t : List Reaped) (v : Reaped),
      Performed Env.hears waits (fun o s => o.Numbered s.1) o k w t ∧ t = [v] ∧ v.caller = 1 ∧
      v.record.pid = 2 :=
    ⟨_, _, _, _, _, hput, rfl, rfl, rfl⟩
  obtain ⟨hown, hstatus⟩ := (wait_delivers hput).2.1 v (by rw [ht]; exact List.mem_cons_self)
  exact ⟨o, k, w, t, v, hput, ht, hcaller, hpid, hown, hstatus⟩

theorem wait4_hears_child :
    ∃ (k : Kernel) (w : List GuestRun) (t : List Reaped) (p : Proc) (r : Except Fault ℤ) (m' : Machine)
    (w' : List GuestRun) (status : ℤ),
    Performed Env.hears waits (fun o s => o.Numbered s.1) (.machine 0 (.act .served)) k w t ∧
    k.procs[0]? = some p ∧
    (Sys.wait4 ⟨-1, 200, 0, 0, 0, 0⟩).run (exec Env.hears) (k.machineOf p, w) = (r, (m', w')) ∧ r = .ok 2 ∧
    k.shared.firstExit 2 = some status ∧ m'.inst.mem.u32 200 = .ok (asU32 status) ∧
    m'.shared.record 2 = none := by
  have hstart : Recorded Env.hears waits (fun o s => o.Numbered s.1) ⟨_, none⟩ _ [] :=
    .start (.bare [.guest 0]) 0 _ _
      [⟨[.syscall 220 0, .syscall 94 24, .syscall 260 48, .setjmp 0], none⟩] _ _ rfl
      (along_numbered (by decide +kernel)) rfl
  have hserved := Performed.running _ _ _ 2 ⟨some 0, none⟩ _ hstart (along_numbered (by decide +kernel))
    (List.mem_of_getElem? (i := 24) rfl)
  obtain ⟨k, w, t, p, hserved, hp, hvalue⟩ : ∃ (k : Kernel) (w : List GuestRun) (t : List Reaped) (p : Proc),
      Performed Env.hears waits (fun o s => o.Numbered s.1) (.machine 0 (.act .served)) k w t ∧
      k.procs[0]? = some p ∧
      ((Sys.wait4 ⟨-1, 200, 0, 0, 0, 0⟩).run (exec Env.hears) (k.machineOf p, w)).1 = .ok 2 :=
    ⟨_, _, _, _, hserved, rfl, by decide +kernel⟩
  obtain ⟨c, status, -, hpid, hstatus, hgone, htold⟩ := (wait4_hears hserved rfl).2.2 2 hvalue (by decide)
  exact ⟨k, w, t, p, _, _, _, status, hserved, hp, rfl, hvalue, hstatus, htold ⟨by decide, .inl rfl⟩, hgone⟩

end Wasmux
