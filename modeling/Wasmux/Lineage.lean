import Wasmux.Counting.Family
import Wasmux.Handover
import Wasmux.Histories

/-!
# Who is whose child

The process table as a family: every record has its own pid, and a parent that
is alive, or is the first process or nobody. A death leaves the children of who
died to the first process, and a record goes when nobody is left to ask for it.
-/

set_option autoImplicit false

namespace Wasmux
open Counting Effects Abi

namespace Shared

def familyOf (table : List ProcRecord) : Family ℤ := table.map fun r => ⟨r.pid, r.ppid, r.isAlive⟩

def family (sh : Shared) : Family ℤ := familyOf sh.table

theorem family_pedigree (table : List ProcRecord) :
    familyOf table = (pedigreeOf table).map fun e => ⟨e.1, e.2.1, e.2.2.isNone⟩ := by
  rw [pedigreeOf, List.map_map]
  rfl

theorem roll_family (sh : Shared) : sh.family.roll = sh.roll := by
  rw [family, familyOf, Family.roll, List.map_map]
  rfl

theorem familyOf_exit (table : List ProcRecord) (pid status : ℤ) :
    familyOf (updateRecord.go pid (exitRecord status) table) = (familyOf table).retire pid := by
  unfold familyOf
  induction table with
  | nil => rfl
  | cons r rest ih =>
    unfold updateRecord.go
    by_cases hr : r.pid = pid
    · simp [hr, Family.retire, exitRecord, ProcRecord.isAlive]
    · simp [hr, Family.retire, ih]

theorem familyOf_reparent (table : List ProcRecord) (pid : ℤ) :
    familyOf (table.map (reparent pid)) = (familyOf table).adopt pid 1 := by
  unfold familyOf Family.adopt
  rw [List.map_map, List.map_map]
  apply List.map_congr_left
  intro r _
  simp only [Function.comp_apply, reparent]
  split <;> rfl

theorem familyOf_strike (table : List ProcRecord) (pid : ℤ) :
    familyOf (table.filter fun r => r.pid != pid) = (familyOf table).strike pid := by
  unfold familyOf Family.strike
  rw [List.filter_map]
  congr 1
  apply List.filter_congr
  intro r _
  simp only [Function.comp_apply, bne, decide_not]
  rfl

/-- An exit bereaves the children of who ends, and strikes the record when no
parent is left to wait. -/
theorem family_setExit (sh : Shared) (pid status : ℤ) :
    (sh.setExit pid status).family = sh.family.bereave pid 1 ∨
    (sh.setExit pid status).family = (sh.family.bereave pid 1).strike pid := by
  have hleft : familyOf ((updateRecord.go pid (exitRecord status) sh.table).map (reparent pid)) =
      sh.family.bereave pid 1 := by
    rw [familyOf_reparent, familyOf_exit]
    rfl
  unfold setExit
  dsimp only
  split
  · left
    rw [← hleft]
    change familyOf (updateRecord.go _ _
      ((updateRecord.go pid (exitRecord status) sh.table).map (reparent pid))) = _
    rw [family_pedigree, pedigreeOf_update _ _ fun r => raise_pedigree r sigchld, ← family_pedigree]
  · right
    rw [← hleft, ← familyOf_strike]
    rfl

theorem names_setExit (sh : Shared) (pid status : ℤ) :
    (sh.setExit pid status).roll.names.Sublist sh.roll.names := by
  rcases roll_setExit sh pid status with hroll | hroll
  · rw [hroll, Roll.names_retire]
  · rw [hroll, ← Roll.names_retire pid sh.roll]
    exact List.Sublist.map _ List.filter_sublist

/-- An exit of nobody is noted, and changes nothing else. -/
theorem Registers.setExit_absent {sh : Shared} {need : Need ℤ} (h : Registers sh need) {pid : ℤ}
    (hpid : pid ∉ sh.roll.names) (status : ℤ) : Registers (sh.setExit pid status) need := by
  have hzero : sh.roll.alive pid = 0 := Roll.alive_eq_zero hpid
  have hretired : (sh.roll.retire pid).Tallies need := by
    refine ⟨by simpa using h.tallies.unique, fun j => ?_⟩
    rw [Roll.alive_retire h.tallies.unique, ← h.tallies.alive]
    by_cases hj : j = pid
    · rw [if_pos hj, hj, hzero]
    · rw [if_neg hj]
  have hneed : need pid = 0 := by rw [← h.tallies.alive, hzero]
  have hroll := roll_setExit sh pid status
  constructor
  · rcases hroll with hroll | hroll
    · rw [hroll]
      exact hretired
    · rw [hroll]
      exact hretired.strike hneed
  · rw [nextPid_setExit]
    exact h.first
  · rw [nextPid_setExit]
    exact fun name hname => h.below name ((names_setExit sh pid status).mem hname)
  · rw [nextPid_setExit, exits_setExit]
    intro name hpos hbelow
    exact (h.recorded name hpos hbelow).imp_right fun ⟨st, hst⟩ => ⟨st, List.mem_append_left _ hst⟩

structure Kin (sh : Shared) : Prop where
  unique : sh.roll.names.Nodup
  positive : ∀ pid ∈ sh.roll.names, 0 < pid
  capped : sh.family.living ≤ max 1 sh.limits.processes
  rooted : sh.family.Rooted fun pid => pid = 0 ∨ pid = 1

variable {sh sh' : Shared}

theorem Kin.congr (h : Kin sh) (hpedigree : pedigreeOf sh'.table = pedigreeOf sh.table)
    (hlimits : sh'.limits = sh.limits) :
    Kin sh' := by
  have hfamily : sh'.family = sh.family := by
    rw [family, family, family_pedigree, family_pedigree, hpedigree]
  have hroll : sh'.roll = sh.roll := by rw [← roll_family, ← roll_family, hfamily]
  constructor
  · rw [hroll]
    exact h.unique
  · rw [hroll]
    exact h.positive
  · rw [hfamily, hlimits]
    exact h.capped
  · rw [hfamily]
    exact h.rooted

theorem Kin.releaseAll (h : Kin sh) (keys : List DescKey) : Kin (sh.releaseAll keys).2 := by
  obtain ⟨descs, pipes, heq⟩ := releaseAll_eq keys sh
  rw [heq]
  exact h.congr rfl rfl

theorem Kin.releaseFds (h : Kin sh) (table : FdTable) : Kin (sh.releaseFds table).2 := h.releaseAll _

theorem Kin.setExit (h : Kin sh) (pid status : ℤ) : Kin (sh.setExit pid status) := by
  have hlimits : (sh.setExit pid status).limits = sh.limits := by
    obtain ⟨table, exits, heq⟩ := sh.setExit_eq pid status
    rw [heq]
  have hnames := names_setExit sh pid status
  refine ⟨h.unique.sublist hnames, fun name hname => h.positive name (hnames.mem hname), ?_, ?_⟩
  · rw [hlimits]
    have hbereaved := (Family.living_bereave pid 1 sh.family).trans h.capped
    rcases family_setExit sh pid status with hfamily | hfamily
    · rw [hfamily]
      exact hbereaved
    · rw [hfamily]
      exact (Family.living_strike pid _).trans hbereaved
  · have hrooted : (sh.family.bereave pid 1).Rooted fun pid => pid = 0 ∨ pid = 1 :=
      h.rooted.bereave (.inr rfl)
    rcases family_setExit sh pid status with hfamily | hfamily
    · rw [hfamily]
      exact hrooted
    · rw [hfamily]
      apply hrooted.strike
      rw [Family.roll_bereave, roll_family, Roll.alive_retire h.unique, if_pos rfl]

theorem Kin.killChildren (status : ℤ) (stack : List Task) (task : Task) (h : Kin sh) :
    Kin (Kernel.killChildren status stack task sh).2.2 := by
  induction stack generalizing task sh with
  | nil => exact h
  | cons parent stack ih => exact ih parent ((h.releaseFds task.fds).setExit task.pid status)

/-- A child is recorded below someone alive. -/
theorem Kin.forkRecord {parent : Task} {pid : ℤ} (h : Kin sh) (hfirst : 0 < sh.nextPid)
    (hbelow : ∀ name ∈ sh.roll.names, name < sh.nextPid) (halive : 0 < sh.roll.alive parent.pid)
    (hfork : sh.forkRecord parent = some (pid, sh')) : Kin sh' := by
  unfold Shared.forkRecord at hfork
  split at hfork
  · cases hfork
  rename_i hroom
  obtain ⟨r, hr, rfl⟩ : ∃ r : ProcRecord, (r.pid, r.ppid, r.isAlive) = (sh.nextPid, parent.pid, true) ∧
      sh' = { sh with nextPid := satAddI32 sh.nextPid 1, table := sh.table ++ [r] } := by
    simp only [allocatePid, Option.some.injEq, Prod.mk.injEq] at hfork
    obtain ⟨rfl, rfl⟩ := hfork
    refine ⟨_, ?_, rfl⟩
    split
    · rename_i r hrecord
      have hpid : r.pid = parent.pid := by simpa using List.find?_some hrecord
      rw [← hpid]
      rfl
    · rfl
  obtain ⟨hpid, hppid, hlives⟩ : r.pid = sh.nextPid ∧ r.ppid = parent.pid ∧ r.isAlive = true := by
    simpa using hr
  have hfamily : ({ sh with nextPid := satAddI32 sh.nextPid 1, table := sh.table ++ [r] } : Shared).family =
      sh.family ++ [⟨sh.nextPid, parent.pid, true⟩] := by
    simp only [family, familyOf, List.map_append, List.map_cons, List.map_nil, hpid, hppid, hlives]
  have hroll : ({ sh with nextPid := satAddI32 sh.nextPid 1, table := sh.table ++ [r] } : Shared).roll.names =
      sh.roll.names ++ [sh.nextPid] := by
    rw [← roll_family, hfamily, ← roll_family]
    simp [Family.roll, Roll.names]
  have hnew : sh.nextPid ∉ sh.roll.names := fun hmem => absurd (hbelow _ hmem) (lt_irrefl _)
  constructor
  · rw [hroll, List.nodup_append]
    refine ⟨h.unique, by simp, ?_⟩
    rintro name hname other hother rfl
    exact hnew (List.mem_singleton.mp hother ▸ hname)
  · rw [hroll]
    intro name hname
    rcases List.mem_append.mp hname with hold | hlast
    · exact h.positive name hold
    · rw [List.mem_singleton.mp hlast]
      exact hfirst
  · have hcount : sh.family.living = sh.table.countP ProcRecord.isAlive := by
      rw [family, familyOf, Family.living, List.countP_map]
      rfl
    rw [hfamily, Family.living, List.countP_append]
    change sh.family.living + 1 ≤ max 1 sh.limits.processes
    omega
  · rw [hfamily]
    exact h.rooted.enrol (.inr (by rwa [roll_family]))

/-- Only the dead are struck off. -/
theorem Kin.reap {child : ℤ} (h : Kin sh) (hdead : ∃ r ∈ sh.table, r.pid = child ∧ r.isAlive = false) :
    Kin { sh with table := sh.table.filter fun r => r.pid != child } := by
  have hfamily : ({ sh with table := sh.table.filter fun r => r.pid != child } : Shared).family =
    sh.family.strike child := familyOf_strike _ _
  have hroll : ({ sh with table := sh.table.filter fun r => r.pid != child } : Shared).roll =
      sh.roll.strike child :=
    rollOf_strike _ _
  have hnames : (sh.roll.strike child).names.Sublist sh.roll.names := List.Sublist.map _ List.filter_sublist
  have hzero : sh.roll.alive child = 0 := by
    apply Roll.alive_eq_zero_of_dead h.unique
    obtain ⟨r, hr, rfl, halive⟩ := hdead
    exact List.mem_map.mpr ⟨r, hr, by rw [halive]⟩
  constructor
  · rw [hroll]
    exact h.unique.sublist hnames
  · rw [hroll]
    exact fun name hname => h.positive name (hnames.mem hname)
  · rw [hfamily]
    exact (Family.living_strike child _).trans h.capped
  · rw [hfamily]
    exact h.rooted.strike (by rwa [roll_family])

end Shared

theorem Act.pid_exec (a : Act) (m : Machine) (h : a.moves = false) :
    (a.exec m).2.ctx.task.pid = m.ctx.task.pid := by
  cases a with
  | openDesc | dup | dupTo | close | pipe2 | fork | vforkExit | finishExec => cases h
  | put start data => simp only [exec]; split <;> rfl
  | setCloexec fd on => simp only [exec]; split <;> rfl
  | growMem pages =>
    have hsame : ∀ mem, (m.setMem mem).ctx = m.ctx := fun _ => rfl
    exact congrArg (fun ctx : Ctx => ctx.task.pid) (hsame (m.inst.mem.grow pages))
  | setAction signal action =>
    simp only [exec, Machine.setTask, Task.setAction]
    split <;> rfl
  | _ => rfl

def Ctx.Vacant (c : Ctx) : Prop := c.execRequest.isSome = true → c.task.pid = 0

theorem Act.vacant_exec (a : Act) {m : Machine} (hown : a.moves = true → m.ctx.execRequest = none)
    (h : m.ctx.Vacant) :
    (a.exec m).2.ctx.Vacant := by
  by_cases hmoves : a.moves = true
  · have hnone := hown hmoves
    by_cases hshuffles : a.shuffles = true
    · obtain ⟨fds, descs, pipes, heq⟩ := a.shuffles_exec m hshuffles
      intro hsome
      rw [heq] at hsome
      simp [hnone] at hsome
    cases a with
    | openDesc | dup | dupTo | close | pipe2 => exact absurd rfl hshuffles
    | fork =>
      simp only [exec, Machine.fork]
      split
      · exact h
      · intro hsome
        simp [hnone] at hsome
    | vforkExit status =>
      simp only [exec, Machine.vforkExit]
      split
      · exact h
      · intro hsome
        simp [hnone] at hsome
    | finishExec program exe argv envp =>
      simp only [exec, Machine.finishExec]
      split
      · intro hsome
        simp [hnone] at hsome
      · exact fun _ => rfl
    | _ => cases hmoves
  · have hstill : a.moves = false := by simpa using hmoves
    intro hsome
    rw [(a.place_exec m hstill).1] at hsome
    rw [a.pid_exec m hstill]
    exact h hsome

def KAct.ends : KAct → Bool
  | .finishProcess _ _ | .abandonSpawn | .abandonExec _ => true
  | _ => false

theorem KAct.pedigree_exec (a : KAct) (k : Kernel) (h : a.ends = false) :
    Shared.pedigreeOf (a.exec k).2.shared.table = Shared.pedigreeOf k.shared.table := by
  cases a with
  | finishProcess | abandonSpawn | abandonExec => cases h
  | attach | launchSpawn | releaseInstance | restoreJmp | trapMessage =>
    simp only [exec]
    repeat' split
    all_goals rfl
  | charge bytes =>
    simp only [exec, Shared.chargeMemory]
    split <;> rfl
  | whyIdle =>
    simp only [exec, Kernel.whyIdle]
    repeat' split
    all_goals rfl
  | _ => rfl

namespace Kernel

def Vacant (k : Kernel) : Prop := ∀ p ∈ k.procs, p.ctx.Vacant

/-- The table is true to who is carried, and well formed. -/
structure Rostered (k : Kernel) : Prop where
  registered : ∃ lost, k.RegisteredWith lost
  vacant : k.Vacant
  kin : k.shared.Kin

variable {k k' : Kernel}

theorem vacant_procOf (spawn : Spawn) (launch : Launch) : (procOf spawn launch).ctx.Vacant := by
  intro hsome
  rw [procOf_settled] at hsome
  cases hsome

theorem Vacant.modify (h : k.Vacant) {f : Proc → Proc} {index : ℕ}
    (hprocs : k'.procs = k.procs.modify index f)
    (hf : ∀ p, k.procs[index]? = some p → p.ctx.Vacant → (f p).ctx.Vacant) : k'.Vacant := by
  intro q hq
  rw [hprocs] at hq
  obtain ⟨i, hi⟩ := List.mem_iff_getElem?.mp hq
  by_cases hindex : index = i
  · subst hindex
    obtain ⟨p, hp, rfl⟩ := modify_at hi
    exact hf p hp (h p (List.mem_of_getElem? hp))
  · have hsame : k.procs[i]? = some q := by simpa [List.getElem?_modify, hindex] using hi
    exact h q (List.mem_of_getElem? hsame)

theorem vacant_act (a : KAct) (h : k.Vacant) : (a.exec k).2.Vacant := by
  cases htarget : a.target with
  | some index =>
    refine h.modify (a.procs_target htarget k) fun p _ hp hsome => ?_
    obtain ⟨hrequest, htask⟩ := a.effect_place p
    rw [hrequest] at hsome
    rw [htask]
    exact hp hsome
  | none =>
    by_cases hgathers : a.gathers = true
    · cases a with
      | launchSpawn launch =>
        simp only [KAct.exec]
        split
        · exact h
        · intro p hp
          rcases List.mem_append.mp hp with hold | hnew
          · exact h p hold
          · rw [List.mem_singleton.mp hnew]
            exact vacant_procOf _ _
      | finishProcess index status =>
        simp only [KAct.exec, finishProcess]
        split
        · exact h
        · exact fun p hp => h p (List.mem_of_mem_eraseIdx hp)
      | abandonExec index =>
        simp only [KAct.exec]
        split
        · exact h
        · exact fun p hp => h p (List.mem_of_mem_eraseIdx hp)
      | launchExec index launch =>
        refine h.modify rfl fun p _ hp => ?_
        unfold relaunch
        split
        · exact vacant_procOf _ _
        · exact hp
      | beginRun =>
        intro p hp
        obtain ⟨q, hq, rfl⟩ := List.mem_map.mp hp
        exact h q hq
      | _ => cases hgathers
    · intro p hp
      rw [a.procs_untargeted htarget (by simpa using hgathers)] at hp
      exact h p hp

theorem kin_act (a : KAct) (h : k.shared.Kin) : (a.exec k).2.shared.Kin := by
  by_cases hends : a.ends = true
  · cases a with
    | finishProcess index status =>
      simp only [KAct.exec, finishProcess]
      split
      · exact h
      · have hreleased : ∀ bytes, (k.shared.releaseMemory bytes).Kin := fun bytes => h.congr rfl rfl
        exact (((hreleased _).killChildren _ _ _).releaseFds _).setExit _ _
    | abandonSpawn =>
      simp only [KAct.exec]
      split
      · exact h
      · rename_i spawn rest _
        have hpopped : ({ k.shared with spawn := rest } : Shared).Kin := h.congr rfl rfl
        exact (hpopped.releaseFds _).setExit _ _
    | abandonExec index =>
      simp only [KAct.exec]
      split
      · exact h
      · exact (h.releaseFds _).setExit _ _
    | _ => cases hends
  · exact h.congr (a.pedigree_exec k (by simpa using hends)) (a.limits_exec k)

/-- Who was handed over and traps is ended without a pid: nothing in the table
is struck, and who it was stays there alive for good. -/
theorem registered_finishLost {index : ℕ} (status : ℤ) {lost : Need ℤ} (h : k.RegisteredWith lost)
    {p : Proc} {spawn : Spawn} (hat : k.procs[index]? = some p) (hrequest : p.ctx.execRequest = some spawn)
    (halone : p.ctx.vforkStack = []) (hvacant : p.ctx.task.pid = 0)
    (hpositive : ∀ pid ∈ k.shared.roll.names, 0 < pid) :
    (k.finishProcess index status).2.RegisteredWith fun pid => lost pid + one spawn.task.pid pid := by
  unfold RegisteredWith
  simp only [finishProcess, hat, halone, killChildren, hvacant]
  have hcarried : ∀ pid, k.carriers.count pid + lost pid =
      ((k.procs.eraseIdx index).map fun p =>
        p.ctx.carriers.count pid).sum + (queue k.shared.spawn).count pid +
        (lost pid + one spawn.task.pid pid) := fun pid => by
    rw [carriers_machineOf hat, Machine.borne, machineOf, carriers_requested hrequest fun _ => halone]
    simp only [count_cons_one, List.count_nil]
    omega
  have hleft : Shared.Registers (k.shared.releaseMemory (satAddU64 p.charged p.ctx.exec.grown)) fun pid =>
      ((k.procs.eraseIdx index).map fun p =>
        p.ctx.carriers.count pid).sum + (queue k.shared.spawn).count pid +
        (lost pid + one spawn.task.pid pid) := Shared.Registers.congr h rfl fun pid => (hcarried pid).symm
  have hreleased := hleft.congr (Shared.census_releaseFds p.ctx.task.fds _) fun _ => rfl
  have habsent : (0 : ℤ) ∉ ((k.shared.releaseMemory (satAddU64 p.charged p.ctx.exec.grown)).releaseFds
      p.ctx.task.fds).2.roll.names := by
    have hroll := congrArg Prod.fst (Shared.census_releaseFds p.ctx.task.fds
      (k.shared.releaseMemory (satAddU64 p.charged p.ctx.exec.grown)))
    intro hmem
    rw [show Shared.roll _ = _ from hroll] at hmem
    exact absurd (hpositive 0 hmem) (lt_irrefl 0)
  refine (hreleased.setExit_absent habsent status).congr rfl fun pid => ?_
  rw [count_carriers]
  simp only [Shared.setExit_spawn, Shared.releaseFds_spawn]
  rfl

end Kernel

/-- What a handler's operation does to the table leaves it well formed. -/
theorem Act.kin_exec (a : Act) {m : Machine} {rest : Need ℤ} (horder : a.Orderly m)
    (hregistered : m.shared.Registers fun pid => m.borne pid + rest pid) (h : m.shared.Kin) :
    (a.exec m).2.shared.Kin := by
  by_cases hcivil : a.civil = true
  · cases a with
    | reap child => exact h.reap (horder.dead child rfl)
    | fork =>
      have hlives : 0 < m.shared.roll.alive m.ctx.task.pid := by
        rw [hregistered.tallies.alive, Machine.borne, carriers_of_none (horder.own rfl),
          count_cons_one, one_self]
        omega
      simp only [exec, Machine.fork]
      split
      · exact h
      · rename_i pid shared hfork
        have hforked := h.forkRecord hregistered.first hregistered.below hlives hfork
        obtain ⟨descs, heq⟩ := Shared.duplicate_eq m.ctx.task.fds shared
        rw [heq]
        exact hforked.congr rfl rfl
    | vforkExit status =>
      simp only [exec, Machine.vforkExit]
      split
      · exact h
      · exact (h.releaseFds _).setExit _ _
    | finishExec program exe argv envp =>
      simp only [exec, Machine.finishExec]
      split
      · exact (h.releaseAll _).congr rfl rfl
      · exact h.releaseAll _
    | _ => cases hcivil
  · exact h.congr (a.pedigree_exec m (by simpa using hcivil)).1 (a.limits_exec m)

section
variable {W : Type} (x : Env W) (o : KOp) {s : Kernel × W}

theorem kexec_enrolled (h : s.1.Rostered) (htidy : o.Tidy s.1) (hroom : o.Numbered s.1) :
    ∃ lost, (kexec x o s).2.1.RegisteredWith lost := by
  obtain ⟨lost, hlost⟩ := h.registered
  by_cases horder : o.Orderly s.1
  · exact ⟨lost, kexec_registered x o hlost horder hroom⟩
  cases o with
  | env c => exact absurd trivial horder
  | machine index o =>
    cases o with
    | env c => exact absurd trivial horder
    | act a => exact absurd htidy horder
  | act a =>
    cases a with
    | finishProcess index status =>
      rcases hat : s.1.procs[index]? with _ | p
      · exact absurd (fun q hq => by rw [hat] at hq; cases hq) horder
      rcases hrequest : p.ctx.execRequest with _ | spawn
      · refine absurd (fun q hq => ?_) horder
        obtain rfl := Option.some.inj (hat.symm.trans hq)
        exact hrequest
      · have hsome : p.ctx.execRequest.isSome = true := by rw [hrequest]; rfl
        exact ⟨_, Kernel.registered_finishLost status hlost hat hrequest (htidy p hat hsome)
          (h.vacant p (List.mem_of_getElem? hat) hsome) h.kin.positive⟩
    | launchExec | abandonExec => exact absurd htidy horder
    | _ => exact absurd trivial horder

theorem kexec_vacant (h : s.1.Vacant) (htidy : o.Tidy s.1) : (kexec x o s).2.1.Vacant := by
  obtain ⟨k, w⟩ := s
  cases o with
  | env c => exact h
  | act a => exact k.vacant_act a h
  | machine index o =>
    rcases hat : k.procs[index]? with _ | p
    · rw [kexec_machine_none x hat]
      exact h
    rw [kexec_machine x hat]
    refine Kernel.Vacant.modify h rfl fun q hq hvacant => ?_
    obtain rfl := Option.some.inj (hat.symm.trans hq)
    cases o with
    | env c => exact hvacant
    | act a => exact a.vacant_exec (htidy p hat).own hvacant

theorem kexec_kin (h : s.1.Rostered) (htidy : o.Tidy s.1) : (kexec x o s).2.1.shared.Kin := by
  obtain ⟨k, w⟩ := s
  cases o with
  | env c => exact h.kin
  | act a => exact k.kin_act a h.kin
  | machine index o =>
    rcases hat : k.procs[index]? with _ | p
    · rw [kexec_machine_none x hat]
      exact h.kin
    rw [kexec_machine x hat]
    cases o with
    | env c => exact h.kin
    | act a =>
      obtain ⟨lost, hlost⟩ := h.registered
      have hregistered : (k.machineOf p).shared.Registers fun pid => (k.machineOf p).borne pid +
          (((k.procs.eraseIdx index).map fun p => p.ctx.carriers.count pid).sum + lost pid) :=
        Shared.Registers.congr hlost rfl fun pid => by rw [Kernel.carriers_machineOf hat pid, Nat.add_assoc]
      exact a.kin_exec (htidy p hat) hregistered h.kin

theorem kexec_rostered (h : s.1.Rostered) (htidy : o.Tidy s.1) (hroom : o.Numbered s.1) :
    (kexec x o s).2.1.Rostered :=
  ⟨kexec_enrolled x o h htidy hroom, kexec_vacant x o h.vacant htidy, kexec_kin x o h htidy⟩

end

theorem Kernel.Rostered.congr {k k' : Kernel} (h : k.Rostered) (hprocs : k'.procs = k.procs)
    (hcensus : k'.shared.census = k.shared.census) (hspawn : k'.shared.spawn = k.shared.spawn)
    (htable : k'.shared.table = k.shared.table) (hlimits : k'.shared.limits = k.shared.limits) :
    k'.Rostered := by
  obtain ⟨lost, hlost⟩ := h.registered
  refine ⟨⟨lost, hlost.congr hcensus fun pid => ?_⟩, ?_, h.kin.congr (by rw [htable]) hlimits⟩
  · rw [count_carriers, count_carriers, hprocs, hspawn]
  · unfold Vacant
    rw [hprocs]
    exact h.vacant

theorem rostered_kernel {c : Config} {started : Instant} {k : Kernel} (h : c.kernel started = some k) :
    k.Rostered := by
  refine ⟨⟨_, Kernel.registered_iff.mp (registered_kernel h).1⟩, ?_, ?_⟩
  · obtain ⟨fds, slab, rfl⟩ := Config.kernel_eq h
    exact fun p hp => absurd hp (List.not_mem_nil)
  · obtain ⟨fds, slab, rfl⟩ := Config.kernel_eq h
    refine ⟨List.nodup_singleton _, fun pid hpid => ?_, le_max_left _ _, fun m hm => ?_⟩
    · obtain rfl : pid = 1 := by simpa [Shared.roll, Shared.rollOf, Roll.names, ProcRecord.new] using hpid
      decide
    · left
      obtain rfl := List.mem_singleton.mp hm
      exact .inl rfl

/-- The process table: every pid is one process's, was given out, and so many
are alive at most; every parent is alive, or the first process, or nobody. -/
structure Shared.WellFormed (sh : Shared) : Prop where
  distinct : (sh.table.map ProcRecord.pid).Nodup
  found : ∀ r ∈ sh.table, sh.record r.pid = some r
  below : ∀ r ∈ sh.table, r.pid < sh.nextPid
  alive : (sh.table.filter ProcRecord.isAlive).length ≤ max 1 sh.limits.processes
  parents : ∀ r ∈ sh.table, r.ppid = 0 ∨ r.ppid = 1 ∨ ∃ parent ∈ sh.table, parent.pid = r.ppid ∧
    parent.isAlive = true

theorem Kernel.Rostered.wellFormed {k : Kernel} (h : k.Rostered) : k.shared.WellFormed := by
  obtain ⟨lost, hlost⟩ := h.registered
  have hmember : ∀ r ∈ k.shared.table, r.pid ∈ k.shared.roll.names := fun r hr => by
    rw [Shared.roll, Shared.names_roll]
    exact List.mem_map_of_mem hr
  constructor
  · rw [← Shared.names_roll]
    exact h.kin.unique
  · exact fun r hr => Shared.record_of_mem h.kin.unique hr
  · exact fun r hr => hlost.below r.pid (hmember r hr)
  · have hliving : k.shared.family.living = (k.shared.table.filter ProcRecord.isAlive).length := by
      rw [Shared.family, Shared.familyOf, Family.living, List.countP_map, List.countP_eq_length_filter]
      rfl
    rw [← hliving]
    exact h.kin.capped
  · intro r hr
    rcases h.kin.rooted ⟨r.pid, r.ppid, r.isAlive⟩ (List.mem_map_of_mem hr) with
    (hnobody | hfirst) | ⟨q, hq, hname, halive⟩
    · exact .inl hnobody
    · exact .inr (.inl hfirst)
    · obtain ⟨parent, hparent, rfl⟩ := List.mem_map.mp hq
      exact .inr (.inr ⟨parent, hparent, hname, halive⟩)

theorem reached_rostered {W : Type} (x : Env W) {k : Kernel} {w : W}
    (h : Reached x (fun o s => o.Numbered s.1) k w) :
    k.Rostered := by
  have hkept : KeptTo x (fun o s => o.Numbered s.1) (fun o s => o.Tidy s.1) Kernel.Settled fun k index =>
      k.Handed index :=
    (keptTo_settled x).weaken (fun _ _ _ => trivial) fun _ _ => id
  have htidy := hkept.reached (fun c started k hk => (registered_kernel hk).2)
    (fun k data closed hk => hk.congr rfl) (fun k out err hk => hk.congr rfl) h
  refine reached_keeps (P := Kernel.Rostered) (fun c started k => rostered_kernel) ?_ ?_ ?_ htidy
  · exact fun o s hs hmeets => kexec_rostered x o hs hmeets.2 hmeets.1
  · exact fun k data closed hk => hk.congr rfl rfl rfl rfl rfl
  · exact fun k out err hk => hk.congr rfl rfl rfl rfl rfl

/-- As long as pids do not run out, the process table is well formed in every
state a session reaches. -/
theorem table_wellFormed {W : Type} (x : Env W) {k : Kernel} {w : W}
    (h : Reached x (fun o s => o.Numbered s.1) k w) :
    k.shared.WellFormed := (reached_rostered x h).wellFormed

/-- The child has ended, and its parent has not asked for it. -/
theorem table_wellFormed_unreaped : ∃ (k : Kernel) (w : List GuestRun), Reached Env.handsOver
    (fun o s => o.Numbered s.1) k w ∧
    k.shared.table.map (fun r => (r.pid, r.ppid, r.exit)) = [(1, 0, none), (2, 1, some (statusExited 0))] ∧
    k.shared.WellFormed := by
  have hstart : Between Env.handsOver (fun o s => o.Numbered s.1) ⟨_, none⟩ _ :=
    .start (.bare [.guest 0]) 0 _ _ handOver _ rfl (along_numbered (by decide +kernel)) rfl
  have hstep := Between.step _ _ _ _ 3 ⟨some 3, none⟩ .budget hstart (along_numbered (by decide +kernel)) rfl
  obtain ⟨k, w, hreached, htable⟩ : ∃ (k : Kernel) (w : List GuestRun), Reached Env.handsOver
    (fun o s => o.Numbered s.1) k w ∧
      k.shared.table.map (fun r => (r.pid, r.ppid, r.exit)) = [(1, 0, none), (2, 1, some (statusExited 0))] :=
    ⟨_, _, .between _ _ hstep, rfl⟩
  exact ⟨k, w, hreached, htable, table_wellFormed _ hreached⟩

end Wasmux
