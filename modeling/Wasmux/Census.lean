import Wasmux.Counting.Roll
import Wasmux.Rules
import Wasmux.Deaths

/-!
# Who is alive

The process table says which processes are alive. What carries one is its
task: current in an instance, waiting below a `vfork` child, given up by an
`execve`, or queued to be started. Each step that moves a task from one place
to another, or ends one, keeps the two in step.
-/

set_option autoImplicit false

namespace Wasmux
open Counting Effects Abi

namespace Shared

def rollOf (table : List ProcRecord) : Roll ℤ := table.map fun r => (r.pid, r.isAlive)

def roll (sh : Shared) : Roll ℤ := rollOf sh.table

def pedigreeOf (table : List ProcRecord) : List (ℤ × ℤ × Option ℤ) := table.map fun r =>
    (r.pid, r.ppid, r.exit)

theorem roll_pedigree (table : List ProcRecord) :
    rollOf table = (pedigreeOf table).map fun e => (e.1, e.2.2.isNone) := by
  rw [pedigreeOf, List.map_map]
  rfl

/-- What the shared state knows of processes that are and were. -/
def census (sh : Shared) : Roll ℤ × ℤ × List (ℤ × ℤ) := (sh.roll, sh.nextPid, sh.exits)

/-- The table has one record for each process that `need` counts, and all that
were ever started and are no longer counted have had their end recorded. -/
structure Registers (sh : Shared) (need : Need ℤ) : Prop where
  tallies : sh.roll.Tallies need
  first : 0 < sh.nextPid
  below : ∀ pid ∈ sh.roll.names, pid < sh.nextPid
  recorded : ∀ pid, 0 < pid → pid < sh.nextPid → 0 < need pid ∨ ∃ status, (pid, status) ∈ sh.exits

variable {sh sh' : Shared} {need need' : Need ℤ}

theorem Registers.congr (h : Registers sh need) (hcensus : sh'.census = sh.census)
    (hneed : ∀ pid, need' pid = need pid) : Registers sh' need' := by
  obtain ⟨hroll, hnext, hexits⟩ : sh'.roll = sh.roll ∧ sh'.nextPid = sh.nextPid ∧ sh'.exits = sh.exits := by
    simpa [census] using hcensus
  have hsame : need' = need := funext hneed
  subst hsame
  constructor
  · rw [hroll]; exact h.tallies
  · rw [hnext]; exact h.first
  · rw [hroll, hnext]; exact h.below
  · rw [hnext, hexits]; exact h.recorded

theorem rollOf_update (table : List ProcRecord) (pid : ℤ) {f : ProcRecord → ProcRecord}
    (hf : ∀ r, (f r).pid = r.pid ∧ (f r).isAlive = r.isAlive) :
    rollOf (updateRecord.go pid f table) = rollOf table := by
  unfold rollOf
  induction table with
  | nil => rfl
  | cons r rest ih =>
    unfold updateRecord.go
    by_cases hr : r.pid == pid
    · simp [hr, hf r]
    · simp [hr, ih]

theorem pedigreeOf_update (table : List ProcRecord) (pid : ℤ) {f : ProcRecord → ProcRecord}
    (hf : ∀ r, (f r).pid = r.pid ∧ (f r).ppid = r.ppid ∧ (f r).exit = r.exit) :
    pedigreeOf (updateRecord.go pid f table) = pedigreeOf table := by
  unfold pedigreeOf
  induction table with
  | nil => rfl
  | cons r rest ih =>
    unfold updateRecord.go
    by_cases hr : r.pid == pid
    · simp [hr, hf r]
    · simp [hr, ih]

theorem rollOf_exit (table : List ProcRecord) (pid status : ℤ) :
    rollOf (updateRecord.go pid (exitRecord status) table) = (rollOf table).retire pid := by
  unfold rollOf
  induction table with
  | nil => rfl
  | cons r rest ih =>
    unfold updateRecord.go
    by_cases hr : r.pid = pid
    · simp [hr, Roll.retire, exitRecord, ProcRecord.isAlive]
    · simp [hr, Roll.retire, ih]

theorem rollOf_reparent (table : List ProcRecord) (pid : ℤ) :
    rollOf (table.map (reparent pid)) = rollOf table := by
  unfold rollOf
  rw [List.map_map]
  apply List.map_congr_left
  intro r _
  simp only [Function.comp_apply, reparent]
  split <;> rfl

theorem rollOf_strike (table : List ProcRecord) (pid : ℤ) :
    rollOf (table.filter fun r => r.pid != pid) = (rollOf table).strike pid := by
  unfold rollOf Roll.strike
  rw [List.filter_map]
  congr 1
  apply List.filter_congr
  intro r _
  simp only [Function.comp_apply, bne, decide_not]
  rfl

theorem raise_pedigree (r : ProcRecord) (signal : ℤ) :
    (r.raise signal).pid = r.pid ∧ (r.raise signal).ppid = r.ppid ∧ (r.raise signal).exit = r.exit := by
  unfold ProcRecord.raise
  split <;> exact ⟨rfl, rfl, rfl⟩

theorem raise_alive (r : ProcRecord) (signal : ℤ) :
    (r.raise signal).pid = r.pid ∧ (r.raise signal).isAlive = r.isAlive := by
  unfold ProcRecord.raise
  split <;> exact ⟨rfl, rfl⟩

theorem roll_setExit (sh : Shared) (pid status : ℤ) : (sh.setExit pid status).roll = sh.roll.retire pid ∨
    (sh.setExit pid status).roll = (sh.roll.retire pid).strike pid := by
  unfold setExit
  dsimp only
  split
  · left
    change rollOf (updateRecord.go _ _
      ((updateRecord.go pid (exitRecord status) sh.table).map (reparent pid))) = _
    rw [rollOf_update _ _ fun r => raise_alive r sigchld, rollOf_reparent, rollOf_exit]
    rfl
  · right
    change rollOf (((updateRecord.go pid (exitRecord status) sh.table).map (reparent pid)).filter _) = _
    rw [rollOf_strike, rollOf_reparent, rollOf_exit]
    rfl

theorem nextPid_setExit (sh : Shared) (pid status : ℤ) : (sh.setExit pid status).nextPid = sh.nextPid := by
  obtain ⟨table, exits, h⟩ := sh.setExit_eq pid status
  rw [h]

/-- Who ends is recorded, and no longer counted. -/
theorem Registers.setExit {pid : ℤ} (h : Registers sh fun j => need j + one pid j) (status : ℤ) :
    Registers (sh.setExit pid status) need := by
  have hone := h.tallies.le_one pid
  rw [one_self] at hone
  have hretired := h.tallies.retire
  have hroll := roll_setExit sh pid status
  constructor
  · rcases hroll with hroll | hroll <;> rw [hroll]
    · exact hretired
    · exact hretired.strike (by omega)
  · rw [nextPid_setExit]
    exact h.first
  · rw [nextPid_setExit]
    intro name hname
    apply h.below
    rcases hroll with hroll | hroll <;> rw [hroll] at hname
    · rwa [Roll.names_retire] at hname
    · rw [← Roll.names_retire pid]
      exact List.Sublist.mem hname (List.Sublist.map _ List.filter_sublist)
  · rw [nextPid_setExit, exits_setExit]
    intro name hpos hbelow
    by_cases hname : name = pid
    · subst hname
      exact .inr ⟨status, by simp⟩
    · rcases h.recorded name hpos hbelow with hneed | ⟨st, hst⟩
      · rw [one_of_ne (Ne.symm hname)] at hneed
        exact .inl hneed
      · exact .inr ⟨st, by simp [hst]⟩

/-- A child is recorded under a new pid. -/
theorem Registers.forkRecord {parent : Task} {pid : ℤ} (h : Registers sh need) (hroom : sh.nextPid < i32Max)
    (hfork : sh.forkRecord parent = some (pid, sh')) : Registers sh' fun j => need j + one pid j := by
  unfold Shared.forkRecord at hfork
  split at hfork
  · cases hfork
  · have hfirst := h.first
    have hnext : satAddI32 sh.nextPid 1 = sh.nextPid + 1 := by
      unfold satAddI32
      unfold i32Max at hroom ⊢
      unfold i32Min
      omega
    obtain ⟨hpid, r, hr, rfl⟩ : pid = sh.nextPid ∧ ∃ r : ProcRecord, (r.pid, r.isAlive) = (pid, true) ∧
        sh' = { sh with nextPid := satAddI32 sh.nextPid 1, table := sh.table ++ [r] } := by
      simp only [allocatePid, Option.some.injEq, Prod.mk.injEq] at hfork
      obtain ⟨rfl, rfl⟩ := hfork
      refine ⟨rfl, _, ?_, rfl⟩
      split <;> rfl
    subst hpid
    have hroll : ({ sh with nextPid := satAddI32 sh.nextPid 1, table := sh.table ++ [r] } : Shared).roll =
        sh.roll ++ [(sh.nextPid, true)] := by
      simp only [roll, rollOf, List.map_append, List.map_cons, List.map_nil, hr]
    have hnew : sh.nextPid ∉ sh.roll.names := fun hmem => absurd (h.below _ hmem) (lt_irrefl _)
    constructor
    · rw [hroll]
      exact h.tallies.enrol hnew
    · dsimp only
      omega
    · rw [hroll]
      intro name hname
      dsimp only
      simp only [Roll.names, List.map_append, List.map_cons, List.map_nil, List.mem_append,
        List.mem_singleton] at hname
      rcases hname with hname | rfl
      · have := h.below name hname
        omega
      · omega
    · intro name hpos hbelow
      dsimp only at hbelow
      by_cases hname : name = sh.nextPid
      · subst hname
        left
        rw [one_self]
        omega
      · rcases h.recorded name hpos (by omega) with hneed | hexit
        · left
          omega
        · exact .inr hexit

/-- A child that was waited for has its record struck off. -/
theorem Registers.reap {child : ℤ} (h : Registers sh need)
    (hdead : ∃ r ∈ sh.table, r.pid = child ∧ r.isAlive = false) :
    Registers { sh with table := sh.table.filter fun r => r.pid != child } need := by
  have hroll : ({ sh with table := sh.table.filter fun r => r.pid != child } : Shared).roll =
    sh.roll.strike child := rollOf_strike _ _
  have hzero : need child = 0 := by
    rw [← h.tallies.alive]
    apply Roll.alive_eq_zero_of_dead h.tallies.unique
    obtain ⟨r, hr, rfl, halive⟩ := hdead
    exact List.mem_map.mpr ⟨r, hr, by rw [halive]⟩
  constructor
  · rw [hroll]
    exact h.tallies.strike hzero
  · exact h.first
  · rw [hroll]
    intro name hname
    exact h.below name (List.Sublist.mem hname (List.Sublist.map _ List.filter_sublist))
  · exact h.recorded

theorem names_roll (table : List ProcRecord) : (rollOf table).names = table.map ProcRecord.pid := by
  simp [rollOf, Roll.names]

theorem record_of_mem (h : sh.roll.names.Nodup) {r : ProcRecord} (hr : r ∈ sh.table) :
    sh.record r.pid = some r := by
  unfold roll at h
  rw [names_roll] at h
  unfold record
  rcases hfind : sh.table.find? fun q => q.pid == r.pid with _ | q
  · simpa using List.find?_eq_none.mp hfind r hr
  · have hpid : q.pid = r.pid := by simpa using List.find?_some hfind
    rw [hfind, List.inj_on_of_nodup_map h (List.mem_of_find?_eq_some hfind) hr hpid]

theorem mem_update_other {table : List ProcRecord} {r : ProcRecord} (hr : r ∈ table) {pid : ℤ}
    (hne : r.pid ≠ pid) (f : ProcRecord → ProcRecord) : r ∈ updateRecord.go pid f table := by
  induction table with
  | nil => cases hr
  | cons q rest ih =>
    unfold updateRecord.go
    rcases List.mem_cons.mp hr with rfl | hr
    · simp [hne]
    · split
      · exact List.mem_cons_of_mem _ hr
      · exact List.mem_cons_of_mem _ (ih hr)

theorem mem_update_self {table : List ProcRecord} (h : (table.map ProcRecord.pid).Nodup) {r : ProcRecord}
    (hr : r ∈ table) (f : ProcRecord → ProcRecord) : f r ∈ updateRecord.go r.pid f table := by
  induction table with
  | nil => cases hr
  | cons q rest ih =>
    obtain ⟨hnew, hrest⟩ : q.pid ∉ rest.map ProcRecord.pid ∧ (rest.map ProcRecord.pid).Nodup :=
      List.nodup_cons.mp h
    unfold updateRecord.go
    rcases List.mem_cons.mp hr with rfl | hr
    · simp
    · have hne : q.pid ≠ r.pid := fun he => hnew (List.mem_map.mpr ⟨r, hr, he.symm⟩)
      simp [hne, ih hrest hr]

/-- While its parent lives, a process that ends stays in the table to be waited for. -/
theorem setExit_waits (h : sh.roll.names.Nodup) {r parent : ProcRecord} (hr : r ∈ sh.table)
    (hparent : parent ∈ sh.table) (hpid : parent.pid = r.ppid) (hlives : parent.isAlive = true)
    (hother : parent.pid ≠ r.pid) (status : ℤ) : ∃ d ∈ (sh.setExit r.pid status).table,
      d.pid = r.pid ∧ d.ppid = r.ppid ∧ d.exit = some (r.exit.getD status) := by
  have hnames : (sh.table.map ProcRecord.pid).Nodup := by rwa [roll, names_roll] at h
  have hrecord := record_of_mem h hr
  set left : Shared := { sh with
    exits := sh.exits ++ [(r.pid, status)]
    table := (updateRecord.go r.pid (exitRecord status) sh.table).map (reparent r.pid) } with hleft
  have hunique : left.roll.names.Nodup := by
    rw [roll, rollOf_reparent, rollOf_exit, Roll.names_retire]
    exact h
  have hdead : exitRecord status r ∈ left.table := by
    have hne : (exitRecord status r).ppid ≠ r.pid := fun he => hother (hpid.trans he)
    have : reparent r.pid (exitRecord status r) = exitRecord status r := by
      unfold reparent
      rw [if_neg hne]
    rw [← this]
    exact List.mem_map_of_mem (mem_update_self hnames hr _)
  have hthere : reparent r.pid parent ∈ left.table := List.mem_map_of_mem (mem_update_other hparent hother _)
  have hsame : (reparent r.pid parent).pid = r.ppid ∧ (reparent r.pid parent).isAlive = true := by
    unfold reparent
    split <;> exact ⟨hpid, hlives⟩
  have halive : (left.record r.ppid).any ProcRecord.isAlive = true := by
    rw [← hsame.1, record_of_mem hunique hthere]
    exact hsame.2
  refine ⟨exitRecord status r, ?_, rfl, rfl, rfl⟩
  have hexit : sh.setExit r.pid status = left.updateRecord r.ppid fun q => q.raise sigchld := by
    unfold setExit
    simp only [hrecord, Option.map_some, Option.getD_some]
    exact if_pos halive
  rw [hexit]
  exact mem_update_other hdead (fun he => hother (hpid.trans he.symm)) _

end Shared

/-- The pids a process stands for: its own, or the one its `execve` gave up,
and those of the parents below it. -/
def Ctx.carriers (c : Ctx) : List ℤ :=
  (match c.execRequest with
    | some spawn => spawn.task.pid
    | none => c.task.pid) :: c.vforkStack.map Task.pid

def queue (spawn : List Spawn) : List ℤ := spawn.map fun s => s.task.pid

/-- The acts by which a process is born, ends or changes places. -/
def Act.civil : Act → Bool
  | .reap _ | .fork | .vforkExit _ | .finishExec _ _ _ _ => true
  | _ => false

/-- Every other act leaves all of it as it was. -/
theorem Act.pedigree_exec (a : Act) (m : Machine) (h : a.civil = false) :
    Shared.pedigreeOf (a.exec m).2.shared.table = Shared.pedigreeOf m.shared.table ∧
      (a.exec m).2.shared.nextPid = m.shared.nextPid ∧ (a.exec m).2.shared.exits = m.shared.exits ∧
      (a.exec m).2.shared.spawn = m.shared.spawn ∧ (a.exec m).2.ctx.carriers = m.ctx.carriers := by
  have update : ∀ (pid : ℤ) (f : ProcRecord → ProcRecord),
      (∀ r, (f r).pid = r.pid ∧ (f r).ppid = r.ppid ∧ (f r).exit = r.exit) →
      Shared.pedigreeOf (m.shared.updateRecord pid f).table = Shared.pedigreeOf m.shared.table :=
      fun pid f hf =>
    Shared.pedigreeOf_update m.shared.table pid hf
  by_cases hshuffles : a.shuffles = true
  · obtain ⟨fds, descs, pipes, heq⟩ := a.shuffles_exec m hshuffles
    rw [heq]
    exact ⟨rfl, rfl, rfl, rfl, rfl⟩
  cases a with
  | openDesc | dup | dupTo | close | pipe2 => exact absurd rfl hshuffles
  | reap | fork | vforkExit | finishExec => cases h
  | put start data => simp only [exec]; split <;> exact ⟨rfl, rfl, rfl, rfl, rfl⟩
  | setCloexec fd on => simp only [exec]; split <;> exact ⟨rfl, rfl, rfl, rfl, rfl⟩
  | charge bytes =>
    simp only [exec, Shared.chargeMemory]
    split <;> exact ⟨rfl, rfl, rfl, rfl, rfl⟩
  | writeOutput which data =>
    simp only [exec, Shared.writeOutput]
    split <;> exact ⟨rfl, rfl, rfl, rfl, rfl⟩
  | raise signal => exact ⟨update _ _ fun r => Shared.raise_pedigree r signal, rfl, rfl, rfl, rfl⟩
  | sendSignal target signal =>
    refine ⟨?_, rfl, rfl, rfl, rfl⟩
    change Shared.pedigreeOf (m.shared.sendSignal m.ctx.task.pid target signal).2.table = _
    unfold Shared.sendSignal Shared.pedigreeOf
    rw [List.map_map]
    apply List.map_congr_left
    intro r _
    obtain ⟨hpid, hppid, hexit⟩ := Shared.raise_pedigree r signal
    simp only [Function.comp_apply]
    split
    · exact Prod.ext hpid (Prod.ext hppid hexit)
    · rfl
  | dropPending set => exact ⟨update _ _ fun r => ⟨rfl, rfl, rfl⟩, rfl, rfl, rfl, rfl⟩
  | setPgid target group => exact ⟨update _ _ fun r => ⟨rfl, rfl, rfl⟩, rfl, rfl, rfl, rfl⟩
  | setSid => exact ⟨update _ _ fun r => ⟨rfl, rfl, rfl⟩, rfl, rfl, rfl, rfl⟩
  | setWake until' => exact ⟨update _ _ fun r => ⟨rfl, rfl, rfl⟩, rfl, rfl, rfl, rfl⟩
  | growMem pages =>
    have hsame : ∀ mem, (m.setMem mem).shared = m.shared ∧ (m.setMem mem).ctx = m.ctx := fun _ => ⟨rfl, rfl⟩
    obtain ⟨hshared, hctx⟩ := hsame (m.inst.mem.grow pages)
    exact ⟨congrArg (fun sh => Shared.pedigreeOf sh.table) hshared, congrArg Shared.nextPid hshared,
      congrArg Shared.exits hshared, congrArg Shared.spawn hshared, congrArg Ctx.carriers hctx⟩
  | setAction signal action =>
    refine ⟨rfl, rfl, rfl, rfl, ?_⟩
    simp only [exec, Machine.setTask, Task.setAction]
    split <;> rfl
  | _ => exact ⟨rfl, rfl, rfl, rfl, rfl⟩

theorem Act.civil_exec (a : Act) (m : Machine) (h : a.civil = false) :
    (a.exec m).2.shared.census = m.shared.census ∧ (a.exec m).2.shared.spawn = m.shared.spawn ∧
      (a.exec m).2.ctx.carriers = m.ctx.carriers := by
  obtain ⟨hpedigree, hnext, hexits, hspawn, hcarriers⟩ := a.pedigree_exec m h
  refine ⟨?_, hspawn, hcarriers⟩
  rw [Shared.census, Shared.census, Shared.roll, Shared.roll, Shared.roll_pedigree, Shared.roll_pedigree,
    hpedigree, hnext, hexits]

namespace Shared

@[simp] theorem census_releaseAll (keys : List DescKey) (sh : Shared) :
    (sh.releaseAll keys).2.census = sh.census := by
  obtain ⟨descs, pipes, h⟩ := releaseAll_eq keys sh
  rw [h]
  rfl

@[simp] theorem census_releaseFds (table : FdTable) (sh : Shared) :
    (sh.releaseFds table).2.census = sh.census := census_releaseAll _ sh

@[simp] theorem census_duplicate (table : FdTable) (sh : Shared) :
    (sh.duplicate table).census = sh.census := by
  obtain ⟨descs, h⟩ := duplicate_eq table sh
  rw [h]
  rfl

end Shared

theorem count_cons_one (pid : ℤ) (pids : List ℤ) (j : ℤ) :
    (pid :: pids).count j = pids.count j + one pid j := by
  simp [List.count_cons, one]

theorem carriers_of_none {c : Ctx} (h : c.execRequest = none) :
    c.carriers = c.task.pid :: c.vforkStack.map Task.pid := by
  simp [Ctx.carriers, h]

def Machine.borne (m : Machine) (pid : ℤ) : ℕ := m.ctx.carriers.count pid + (queue m.shared.spawn).count pid

namespace Machine
variable {m : Machine} {rest : Need ℤ}

theorem registers_fork (h : Shared.Registers m.shared fun pid => m.borne pid + rest pid)
    (hown : m.ctx.execRequest = none)
    (hroom : (m.shared.forkRecord m.ctx.task).isSome = true → m.shared.nextPid < i32Max) :
    Shared.Registers m.fork.2.shared fun pid => m.fork.2.borne pid + rest pid := by
  unfold fork
  split
  · exact h
  · rename_i pid shared hfork
    have hspawn : shared.spawn = m.shared.spawn := by
      obtain ⟨-, table, rfl⟩ := Shared.forkRecord_eq hfork
      rfl
    refine (h.forkRecord (hroom (by simp [hfork])) hfork).congr (Shared.census_duplicate _ _) fun j => ?_
    simp only [borne, Ctx.carriers, hown, Shared.duplicate_spawn, hspawn, List.map_cons, count_cons_one]
    omega

theorem registers_vforkExit (status : ℤ) (h : Shared.Registers m.shared fun pid => m.borne pid + rest pid)
    (hown : m.ctx.execRequest = none) : Shared.Registers (m.vforkExit status).2.shared fun pid =>
      (m.vforkExit status).2.borne pid + rest pid := by
  unfold vforkExit
  split
  · exact h
  · rename_i parent rest' hstack
    apply Shared.Registers.setExit
    refine h.congr (Shared.census_releaseFds _ _) fun j => ?_
    simp only [borne, Ctx.carriers, hown, hstack, Shared.setExit_spawn, Shared.releaseFds_spawn,
      List.map_cons, count_cons_one]
    omega

theorem registers_finishExec (program : ProgramId) (exe : Text) (argv envp : List Bytes)
    (h : Shared.Registers m.shared fun pid => m.borne pid + rest pid) (hown : m.ctx.execRequest = none) :
    Shared.Registers (m.finishExec program exe argv envp).2.shared fun pid =>
      (m.finishExec program exe argv envp).2.borne pid + rest pid := by
  unfold finishExec
  dsimp only
  split
  · rename_i parent rest' hstack
    refine h.congr (Shared.census_releaseAll _ _) fun j => ?_
    simp only [borne, Ctx.carriers, queue, hown, hstack, Shared.releaseAll_spawn, List.map_cons,
      List.map_append, List.map_nil, List.count_append, count_cons_one, List.count_nil]
    omega
  · rename_i hstack
    refine h.congr (Shared.census_releaseAll _ _) fun j => ?_
    simp only [borne, Ctx.carriers, hown, hstack, Shared.releaseAll_spawn, List.map_nil, count_cons_one,
      List.count_nil]

end Machine

/-- What an operation of a handler must meet for the register to stay true: a
process that was given up does no more, and only the dead are waited for. -/
structure Act.Orderly (a : Act) (m : Machine) : Prop where
  own : a.moves = true → m.ctx.execRequest = none
  dead : ∀ child, a = .reap child → ∃ r ∈ m.shared.table, r.pid = child ∧ r.isAlive = false

theorem Act.registers (a : Act) {m : Machine} {rest : Need ℤ} (horder : a.Orderly m)
    (hroom : a = .fork → (m.shared.forkRecord m.ctx.task).isSome = true → m.shared.nextPid < i32Max)
    (h : Shared.Registers m.shared fun pid => m.borne pid + rest pid) :
    Shared.Registers (a.exec m).2.shared fun pid => (a.exec m).2.borne pid + rest pid := by
  by_cases hcivil : a.civil = true
  · cases a with
    | reap child => exact h.reap (horder.dead child rfl)
    | fork => exact Machine.registers_fork h (horder.own rfl) (hroom rfl)
    | vforkExit status => exact Machine.registers_vforkExit status h (horder.own rfl)
    | finishExec program exe argv envp => exact Machine.registers_finishExec _ _ _ _ h (horder.own rfl)
    | _ => cases hcivil
  · obtain ⟨hcensus, hspawn, hcarriers⟩ := a.civil_exec m (by simpa using hcivil)
    refine h.congr hcensus fun pid => ?_
    rw [Machine.borne, Machine.borne, hspawn, hcarriers]

namespace Kernel

def carriers (k : Kernel) : List ℤ := (k.procs.flatMap fun p => p.ctx.carriers) ++ queue k.shared.spawn

theorem count_carriers (k : Kernel) (pid : ℤ) : k.carriers.count pid =
    (k.procs.map fun p => p.ctx.carriers.count pid).sum + (queue k.shared.spawn).count pid := by
  rw [carriers, List.count_append, List.count_flatMap]
  rfl

theorem carriers_machineOf {k : Kernel} {index : ℕ} {p : Proc} (h : k.procs[index]? = some p) (pid : ℤ) :
    k.carriers.count pid = (k.machineOf p).borne pid +
      ((k.procs.eraseIdx index).map fun p => p.ctx.carriers.count pid).sum := by
  have := sum_eraseIdx (fun p : Proc => p.ctx.carriers.count pid) k.procs index p h
  rw [count_carriers, Machine.borne, machineOf]
  dsimp only at this ⊢
  omega

theorem carriers_putMachine {k : Kernel} {index : ℕ} {p : Proc} (h : k.procs[index]? = some p) (m : Machine)
    (pid : ℤ) : (k.putMachine index m).carriers.count pid = m.borne pid +
      ((k.procs.eraseIdx index).map fun p => p.ctx.carriers.count pid).sum := by
  have h1 := sum_eraseIdx (fun p : Proc => p.ctx.carriers.count pid) k.procs index p h
  have h2 := sum_modify (fun p : Proc => p.ctx.carriers.count pid)
    (fun p => { p with ctx := m.ctx, inst := m.inst }) k.procs index p h
  rw [count_carriers, Machine.borne]
  dsimp only [putMachine, modifyProc] at h1 h2 ⊢
  omega

/-- The register of a whole kernel is true. -/
def Registered (k : Kernel) : Prop := k.shared.Registers k.carriers.count

/-- The register is true if those in `lost`, who are carried no longer, are counted too. -/
def RegisteredWith (k : Kernel) (lost : Need ℤ) : Prop := k.shared.Registers fun pid =>
    k.carriers.count pid + lost pid

variable {k k' : Kernel} {lost : Need ℤ}

theorem registered_iff : k.Registered ↔ k.RegisteredWith fun _ => 0 := Iff.rfl

theorem RegisteredWith.congr (h : k.RegisteredWith lost) (hcensus : k'.shared.census = k.shared.census)
    (hcarriers : ∀ pid, k'.carriers.count pid = k.carriers.count pid) : k'.RegisteredWith lost :=
  Shared.Registers.congr h hcensus fun pid => by rw [hcarriers pid]

theorem RegisteredWith.modify {f : Proc → Proc} {index : ℕ} (h : k.RegisteredWith lost)
    (hp : k'.procs = k.procs.modify index f) (hcensus : k'.shared.census = k.shared.census)
    (hs : k'.shared.spawn = k.shared.spawn) (hf : ∀ p, (f p).ctx.carriers = p.ctx.carriers) :
    k'.RegisteredWith lost := by
  refine h.congr hcensus fun pid => ?_
  rw [count_carriers, count_carriers, hp, hs]
  congr 1
  rcases hat : k.procs[index]? with _ | p
  · rw [List.modify_eq_self (by simpa using hat)]
  · have := sum_modify (fun p : Proc => p.ctx.carriers.count pid) f k.procs index p hat
    rw [hf p] at this
    omega

theorem registers_killChildren (status : ℤ) (stack : List Task) (task : Task) (sh : Shared) {need : Need ℤ}
    (h : sh.Registers fun j => need j + (task.pid :: stack.map Task.pid).count j) :
    (killChildren status stack task sh).2.2.Registers fun j =>
      need j + one (killChildren status stack task sh).2.1.pid j := by
  induction stack generalizing task sh with
  | nil => exact h.congr rfl fun j => by simp [killChildren, count_cons_one]
  | cons parent stack ih =>
    apply ih
    apply Shared.Registers.setExit
    refine h.congr (Shared.census_releaseFds _ _) fun j => ?_
    simp only [List.map_cons, count_cons_one]
    omega

theorem registered_finishProcess {index : ℕ} (status : ℤ) (h : k.RegisteredWith lost)
    (hown : ∀ p, k.procs[index]? = some p → p.ctx.execRequest = none) :
    (k.finishProcess index status).2.RegisteredWith lost := by
  rcases hat : k.procs[index]? with _ | p
  · simpa only [finishProcess, hat] using h
  · have hcarried : ∀ pid, k.carriers.count pid + lost pid =
        (((k.procs.eraseIdx index).map fun p =>
          p.ctx.carriers.count pid).sum + (queue k.shared.spawn).count pid +
          lost pid) + (p.ctx.task.pid :: p.ctx.vforkStack.map Task.pid).count pid := fun pid => by
      rw [carriers_machineOf hat, Machine.borne, machineOf, carriers_of_none (hown p hat)]
      dsimp only
      omega
    unfold RegisteredWith
    simp only [finishProcess, hat]
    apply Shared.Registers.setExit
    have hkilled := registers_killChildren (statusSignaled sigkill) p.ctx.vforkStack p.ctx.task
      (k.shared.releaseMemory (satAddU64 p.charged p.ctx.exec.grown))
      (Shared.Registers.congr h rfl fun pid => (hcarried pid).symm)
    refine hkilled.congr (Shared.census_releaseFds _ _) fun pid => ?_
    rw [count_carriers]
    simp only [Shared.setExit_spawn, Shared.releaseFds_spawn, killChildren_spawn]
    rfl

theorem carriers_procOf (spawn : Spawn) (launch : Launch) :
    (procOf spawn launch).ctx.carriers = [spawn.task.pid] := by
  cases launch <;> rfl

theorem registered_launchSpawn (launch : Launch) (h : k.RegisteredWith lost) :
    ((KAct.launchSpawn launch).exec k).2.RegisteredWith lost := by
  rcases hs : k.shared.spawn with _ | ⟨spawn, rest⟩
  · simpa only [KAct.exec, hs] using h
  · simp only [KAct.exec, hs]
    refine h.congr rfl fun pid => ?_
    rw [count_carriers, count_carriers]
    simp only [hs, queue, List.map_append, List.map_cons, List.map_nil, List.sum_append, List.sum_cons,
      List.sum_nil, carriers_procOf, count_cons_one, List.count_nil]
    omega

theorem registered_abandonSpawn (h : k.RegisteredWith lost) :
    (KAct.abandonSpawn.exec k).2.RegisteredWith lost := by
  rcases hs : k.shared.spawn with _ | ⟨spawn, rest⟩
  · simpa only [KAct.exec, hs] using h
  · simp only [KAct.exec, hs]
    apply Shared.Registers.setExit
    refine Shared.Registers.congr h (Shared.census_releaseFds _ _) fun pid => ?_
    rw [count_carriers, count_carriers]
    simp only [hs, queue, Shared.setExit_spawn, Shared.releaseFds_spawn, List.map_cons, count_cons_one]
    omega

theorem carriers_requested {p : Proc} {spawn : Spawn} (hr : p.ctx.execRequest = some spawn)
    (halone : p.ctx.execRequest.isSome → p.ctx.vforkStack = []) : p.ctx.carriers = [spawn.task.pid] := by
  rw [Ctx.carriers, hr, halone (by simp [hr])]
  rfl

theorem registered_launchExec {index : ℕ} (launch : Launch) (h : k.RegisteredWith lost)
    (halone : ∀ p, k.procs[index]? = some p → p.ctx.execRequest.isSome → p.ctx.vforkStack = []) :
    ((KAct.launchExec index launch).exec k).2.RegisteredWith lost := by
  refine h.congr rfl fun pid => ?_
  rw [count_carriers, count_carriers]
  simp only [KAct.exec, modifyProc]
  congr 1
  rcases hat : k.procs[index]? with _ | p
  · rw [List.modify_eq_self (by simpa using hat)]
  · have hsum := sum_modify (fun p : Proc => p.ctx.carriers.count pid) (relaunch launch) k.procs index p hat
    have hsame : (relaunch launch p).ctx.carriers = p.ctx.carriers := by
      unfold relaunch
      split
      · rename_i spawn hr
        rw [carriers_procOf, carriers_requested hr (halone p hat)]
      · rfl
    rw [hsame] at hsum
    omega

theorem registered_abandonExec {index : ℕ} (h : k.RegisteredWith lost)
    (halone : ∀ p, k.procs[index]? = some p → p.ctx.execRequest.isSome → p.ctx.vforkStack = []) :
    ((KAct.abandonExec index).exec k).2.RegisteredWith lost := by
  rcases hat : k.procs[index]? with _ | p
  · simp only [KAct.exec, hat]
    exact h
  · rcases hr : p.ctx.execRequest with _ | spawn
    · simpa only [KAct.exec, hat, Option.bind_some, hr] using h
    · have hcarried := carriers_requested hr (halone p hat)
      simp only [KAct.exec, hat, Option.bind_some, hr]
      apply Shared.Registers.setExit
      refine Shared.Registers.congr h (Shared.census_releaseFds _ _) fun pid => ?_
      rw [carriers_machineOf hat, Machine.borne, machineOf, hcarried, count_carriers]
      simp only [Shared.setExit_spawn, Shared.releaseFds_spawn, count_cons_one, List.count_nil]
      omega

end Kernel

/-- What an operation of the scheduler must meet for the register to stay true:
no process ends while an `execve` of it is pending, nor does one that hands
itself over have children inside it. -/
def KOp.Orderly : KOp → Kernel → Prop
  | .machine index (.act a), k => ∀ p, k.procs[index]? = some p → a.Orderly (k.machineOf p)
  | .act (.launchExec index _), k | .act (.abandonExec index), k => ∀ p, k.procs[index]? = some p →
      p.ctx.execRequest.isSome → p.ctx.vforkStack = []
  | .act (.finishProcess index _), k => ∀ p, k.procs[index]? = some p → p.ctx.execRequest = none
  | _, _ => True

/-- There is a pid left for a new child. -/
def KOp.Roomy : KOp → Kernel → Prop
  | .machine _ (.act .fork), k => k.shared.nextPid < i32Max
  | _, _ => True

/-- There is a pid left for a child that is made. -/
def KOp.Numbered : KOp → Kernel → Prop
  | .machine index (.act .fork), k => ∀ p, k.procs[index]? = some p →
      (k.shared.forkRecord p.ctx.task).isSome = true → k.shared.nextPid < i32Max
  | _, _ => True

def KOp.numbers : KOp → Kernel → Bool
  | .machine index (.act .fork), k => (k.procs[index]?).all fun p =>
    (k.shared.forkRecord p.ctx.task).isNone || decide (k.shared.nextPid < i32Max)
  | _, _ => true

theorem KOp.numbered_of_numbers {o : KOp} {k : Kernel} (h : o.numbers k = true) : o.Numbered k := by
  cases o with
  | env | act => trivial
  | machine i o =>
    cases o with
    | env => trivial
    | act a =>
      cases a with
      | fork =>
        intro p hp hsome
        have hcheck : ((k.shared.forkRecord p.ctx.task).isNone || decide (k.shared.nextPid < i32Max)) =
            true := by
          simpa only [numbers, hp, Option.all_some] using h
        rcases Bool.or_eq_true_iff.mp hcheck with hnone | hroom
        · rw [Option.isNone_iff_eq_none.mp hnone] at hsome
          cases hsome
        · exact of_decide_eq_true hroom
      | _ => trivial

theorem along_numbered {W α : Type} {x : Env W} {p : Sched α} {s : Kernel × W}
    (h : ((p.trace (kexec x) s).all fun v => v.op.numbers v.before.1) = true) :
    p.Along (kexec x) (fun o s => o.Numbered s.1) s :=
  Program.along_of_checks _ (fun _ _ => KOp.numbered_of_numbers) h

theorem KOp.Roomy.numbered {o : KOp} {k : Kernel} (h : o.Roomy k) : o.Numbered k := by
  unfold Numbered
  split
  · exact fun _ _ _ => h
  · trivial

/-- Every operation of the scheduler keeps the register true. -/
theorem kexec_registered {W : Type} (x : Env W) (o : KOp) {lost : Need ℤ} {s : Kernel × W}
    (h : s.1.RegisteredWith lost) (horder : o.Orderly s.1) (hroom : o.Numbered s.1) :
    (kexec x o s).2.1.RegisteredWith lost := by
  obtain ⟨k, w⟩ := s
  cases o with
  | machine index o =>
    rcases hat : k.procs[index]? with _ | p
    · rw [kexec_machine_none x hat]
      exact h
    · rw [kexec_machine x hat]
      have hbefore : (k.machineOf p).shared.Registers fun pid => (k.machineOf p).borne pid +
          (((k.procs.eraseIdx index).map fun p => p.ctx.carriers.count pid).sum + lost pid) :=
        Shared.Registers.congr h rfl fun pid => by rw [Kernel.carriers_machineOf hat pid, Nat.add_assoc]
      have put : ∀ (m : Machine), (m.shared.Registers fun pid => m.borne pid +
          (((k.procs.eraseIdx index).map fun p => p.ctx.carriers.count pid).sum + lost pid)) →
          (k.putMachine index m).RegisteredWith lost := fun m hm =>
        Shared.Registers.congr hm rfl fun pid => by
          rw [← Nat.add_assoc, ← Kernel.carriers_putMachine hat m pid]
      cases o with
      | env c => exact put _ hbefore
      | act a =>
        apply put
        refine a.registers (horder p hat) (fun ha => ?_) hbefore
        subst ha
        exact hroom p hat
  | env c => exact h
  | act a =>
    rw [kexec_act]
    cases a with
    | finishProcess index status => exact Kernel.registered_finishProcess status h horder
    | launchSpawn launch => exact Kernel.registered_launchSpawn launch h
    | abandonSpawn => exact Kernel.registered_abandonSpawn h
    | launchExec index launch => exact Kernel.registered_launchExec launch h horder
    | abandonExec index => exact Kernel.registered_abandonExec h horder
    | beginRun =>
      refine Kernel.RegisteredWith.congr h rfl fun pid => ?_
      rw [Kernel.count_carriers, Kernel.count_carriers]
      simp only [KAct.exec, List.map_map, Function.comp_def]
    | attach index =>
      simp only [KAct.exec]
      repeat' split
      · exact h
      · exact h
      · exact h.congr rfl fun _ => rfl
      · exact h.modify rfl rfl rfl fun _ => rfl
    | charge bytes =>
      simp only [KAct.exec, Shared.chargeMemory]
      split <;> exact h.congr rfl fun _ => rfl
    | releaseInstance index =>
      simp only [KAct.exec]
      split
      · exact h
      · exact h.modify rfl rfl rfl fun _ => rfl
    | restoreJmp index buf value =>
      simp only [KAct.exec]
      repeat' split
      · exact h
      · exact h
      · exact h.modify rfl rfl rfl fun _ => rfl
    | trapMessage index kind =>
      simp only [KAct.exec]
      split <;> exact h.congr rfl fun _ => rfl
    | whyIdle =>
      simp only [KAct.exec, Kernel.whyIdle]
      repeat' split
      all_goals exact h.congr rfl fun _ => rfl
    | endStep index | setResume index | rewind index | resumeWith index | takeSuspension index
    | saveJmp index | appendInput index | setPhase index | advance index =>
      exact Kernel.RegisteredWith.modify h rfl rfl rfl fun _ => rfl
    | look | release | execRequest | inst | host | noteHostPending | forceExit =>
      exact Kernel.RegisteredWith.congr h rfl fun _ => rfl

end Wasmux
