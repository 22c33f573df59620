import Wasmux.Loops
import Wasmux.Waiting

/-!
# What a session ends with

The status of a session is the status that was recorded first for its first
process, in whatever order the others end. It is another one only if the first
process died in an `execve` of its own whose program could not be started, or
trapped while it was being replaced.
-/

set_option autoImplicit false

namespace Wasmux
open Counting Effects Abi

/-- What befell the first process: it asked for a program that could not be
started, or it trapped while it was being replaced. -/
structure Fate where
  unstarted : Bool
  trapped : Bool

/-- Whether the process at `i` is the first one, and is being replaced. -/
def Kernel.replacesFirst (k : Kernel) (i : ℕ) : Bool :=
  ((k.procs[i]?).bind fun p => p.ctx.execRequest).any fun spawn => spawn.task.pid == 1

def fates : History Fate where
  start := ⟨false, false⟩
  next t o k _ := match o with
    | .act (.abandonExec i) => { t with unstarted := t.unstarted || k.replacesFirst i }
    | .act (.finishProcess i _) => { t with trapped := t.trapped || k.replacesFirst i }
    | _ => t

def Kernel.bearers (k : Kernel) : List (List ℤ) := k.procs.map fun p => p.ctx.carriers

/-- The status is that of the first process, or it is known what befell it. -/
structure Kernel.Fated (k : Kernel) (t : Fate) : Prop where
  told : ∀ v, k.shared.firstExit 1 = some v → k.exitStatus = some v ∨ t.unstarted = true ∧
    v = statusExited 126
  closed : k.exitStatus.isSome = true → ∀ pids ∈ k.bearers, 1 ∉ pids
  rooted : ∀ pids ∈ k.bearers, 1 ∉ pids.dropLast
  queued : 1 ∉ queue k.shared.spawn
  later : 1 < k.shared.nextPid
  registered : ∃ lost, k.RegisteredWith lost ∧ (0 < lost 1 → t.trapped = true)
  vacant : k.Vacant
  kin : k.shared.Kin

theorem Kernel.Fated.rostered {k : Kernel} {t : Fate} (h : k.Fated t) : k.Rostered := by
  obtain ⟨lost, hlost, -⟩ := h.registered
  exact ⟨⟨lost, hlost⟩, h.vacant, h.kin⟩

/-- The first process has ended, and the status is what was recorded, or it is known why not. -/
def Kernel.Closed (k : Kernel) (t : Fate) (status : ℤ) : Prop :=
  k.shared.firstExit 1 = some status ∨ (t.unstarted = true ∧ k.shared.firstExit 1 = some (statusExited 126)) ∨
    (t.trapped = true ∧ k.shared.firstExit 1 = none)

/-! ## What a call does -/

theorem Shared.firstExit_congr {sh sh' : Shared} (h : sh'.annals = sh.annals) (pid : ℤ) :
    sh'.firstExit pid = sh.firstExit pid := by
  have hexits : sh'.exits = sh.exits := congrArg (fun a => a.2.2) h
  rw [firstExit, firstExit, hexits]

theorem Shared.nextPid_congr {sh sh' : Shared} (h : sh'.annals = sh.annals) : sh'.nextPid = sh.nextPid :=
  congrArg (fun a => a.2.1) h

theorem Shared.firstExit_other {sh : Shared} {pid other : ℤ} (h : pid ≠ other) (status : ℤ) :
    (sh.setExit pid status).firstExit other = sh.firstExit other := by
  rw [firstExit_append, if_neg h, Option.or_none]

theorem next_pid_grows {n : ℤ} (h : 1 < n) : 1 < satAddI32 n 1 := by
  unfold satAddI32 i32Max i32Min
  omega

theorem queue_snoc (spawns : List Spawn) (spawn : Spawn) :
    queue (spawns ++ [spawn]) = queue spawns ++ [spawn.task.pid] := by
  simp [queue]

/-- The first process stays where it was among those that its process stands
for, at the bottom, and nothing is recorded of it. -/
structure Machine.Founded (m m' : Machine) : Prop where
  rooted : 1 ∉ m'.ctx.carriers.dropLast
  borne : 1 ∈ m'.ctx.carriers → 1 ∈ m.ctx.carriers
  queued : 1 ∉ queue m'.shared.spawn
  later : 1 < m'.shared.nextPid
  silent : m'.shared.firstExit 1 = m.shared.firstExit 1

theorem carriers_left {ctx : Ctx} {parent : Task} {rest : List Task} (hrequest : ctx.execRequest = none)
    (hstack : ctx.vforkStack = parent :: rest) :
    ctx.carriers = ctx.task.pid :: ({ ctx with task := parent, vforkStack := rest } : Ctx).carriers := by
  have hleft : ({ ctx with task := parent, vforkStack := rest } : Ctx).carriers = parent.pid ::
      rest.map Task.pid :=
    carriers_of_none hrequest
  rw [hleft, carriers_of_none hrequest, hstack]
  rfl

section
variable {m : Machine}

theorem Machine.founded_self (hlater : 1 < m.shared.nextPid) (hrooted : 1 ∉ m.ctx.carriers.dropLast)
    (hqueued : 1 ∉ queue m.shared.spawn) : m.Founded m := ⟨hrooted, id, hqueued, hlater, rfl⟩

/-- A child goes on top. -/
theorem Machine.founded_fork (hown : m.ctx.execRequest = none) (hlater : 1 < m.shared.nextPid)
    (hrooted : 1 ∉ m.ctx.carriers.dropLast) (hqueued : 1 ∉ queue m.shared.spawn) : m.Founded m.fork.2 := by
  unfold Machine.fork
  split
  · exact founded_self hlater hrooted hqueued
  rename_i pid shared hfork
  obtain ⟨rfl, table, rfl⟩ := Shared.forkRecord_eq hfork
  obtain ⟨descs, heq⟩ := Shared.duplicate_eq m.ctx.task.fds
    { m.shared with nextPid := satAddI32 m.shared.nextPid 1, table := table }
  rw [heq]
  have hborn : ∀ c : Ctx, c = { m.ctx with
      task := { m.ctx.task with pid := m.shared.nextPid }, vforkStack := m.ctx.task :: m.ctx.vforkStack } →
      c.carriers = m.shared.nextPid :: m.ctx.carriers := by
    rintro c rfl
    exact carriers_left hown rfl
  have hnew : 1 ≠ m.shared.nextPid := by omega
  have hsome : m.ctx.carriers ≠ [] := by
    rw [carriers_of_none hown]
    exact List.cons_ne_nil _ _
  constructor
  · rw [hborn _ rfl, List.dropLast_cons_of_ne_nil hsome]
    exact fun hmem => (List.mem_cons.mp hmem).elim hnew hrooted
  · rw [hborn _ rfl]
    exact fun hmem => (List.mem_cons.mp hmem).elim (absurd · hnew) id
  · exact hqueued
  · exact next_pid_grows hlater
  · rfl

theorem Machine.child_ne_first {parent : Task} {rest : List Task} (hown : m.ctx.execRequest = none)
    (hstack : m.ctx.vforkStack = parent :: rest) (hrooted : 1 ∉ m.ctx.carriers.dropLast) :
    m.ctx.task.pid ≠ 1 ∧ 1 ∉ ({ m.ctx with task := parent, vforkStack := rest } : Ctx).carriers.dropLast := by
  have hnone : ({ m.ctx with task := parent, vforkStack := rest } : Ctx).execRequest = none := hown
  have hsome : ({ m.ctx with task := parent, vforkStack := rest } : Ctx).carriers ≠ [] := by
    rw [carriers_of_none hnone]
    exact List.cons_ne_nil _ _
  rw [carriers_left hown hstack, List.dropLast_cons_of_ne_nil hsome] at hrooted
  exact ⟨fun heq => hrooted (heq ▸ List.mem_cons_self), fun hmem => hrooted (List.mem_cons_of_mem _ hmem)⟩

theorem Machine.founded_vforkExit (status : ℤ) (hown : m.ctx.execRequest = none)
    (hlater : 1 < m.shared.nextPid) (hrooted : 1 ∉ m.ctx.carriers.dropLast)
    (hqueued : 1 ∉ queue m.shared.spawn) : m.Founded (m.vforkExit status).2 := by
  unfold Machine.vforkExit
  split
  · exact founded_self hlater hrooted hqueued
  rename_i parent rest hstack
  obtain ⟨hchild, hleft⟩ := child_ne_first hown hstack hrooted
  constructor
  · exact hleft
  · rw [carriers_left hown hstack]
    exact List.mem_cons_of_mem _
  · simpa using hqueued
  · obtain ⟨table, exits, heq⟩ := (m.shared.releaseFds m.ctx.task.fds).2.setExit_eq m.ctx.task.pid status
    dsimp only
    rw [heq]
    exact lt_of_lt_of_eq hlater (Shared.nextPid_congr (Shared.annals_releaseFds _ _)).symm
  · rw [Shared.firstExit_other hchild]
    exact Shared.firstExit_congr (Shared.annals_releaseFds _ _) 1

theorem Machine.founded_finishExec (program : ProgramId) (exe : Text) (argv envp : List Bytes)
    (hown : m.ctx.execRequest = none) (hlater : 1 < m.shared.nextPid)
    (hrooted : 1 ∉ m.ctx.carriers.dropLast) (hqueued : 1 ∉ queue m.shared.spawn) :
    m.Founded (m.finishExec program exe argv envp).2 := by
  unfold Machine.finishExec
  dsimp only
  split
  · rename_i parent rest hstack
    obtain ⟨hchild, hleft⟩ := child_ne_first hown hstack hrooted
    constructor
    · exact hleft
    · rw [carriers_left hown hstack]
      exact List.mem_cons_of_mem _
    · rw [queue_snoc, Shared.releaseAll_spawn]
      intro hmem
      rcases List.mem_append.mp hmem with hold | hnew
      · exact hqueued hold
      · exact hchild (List.mem_singleton.mp hnew).symm
    · exact lt_of_lt_of_eq hlater (Shared.nextPid_congr (Shared.annals_releaseAll _ _)).symm
    · exact Shared.firstExit_congr (Shared.annals_releaseAll _ _) 1
  · rename_i hstack
    have hcarriers := carriers_of_none hown
    rw [hstack, List.map_nil] at hcarriers
    constructor
    · show 1 ∉ (m.ctx.task.pid :: m.ctx.vforkStack.map Task.pid).dropLast
      rw [hstack]
      exact List.not_mem_nil
    · show 1 ∈ m.ctx.task.pid :: m.ctx.vforkStack.map Task.pid → _
      rw [hstack, hcarriers]
      exact id
    · rw [Shared.releaseAll_spawn]
      exact hqueued
    · exact lt_of_lt_of_eq hlater (Shared.nextPid_congr (Shared.annals_releaseAll _ _)).symm
    · exact Shared.firstExit_congr (Shared.annals_releaseAll _ _) 1

/-- A call leaves the first process where it was. -/
theorem Act.founded (a : Act) (hown : a.moves = true → m.ctx.execRequest = none)
    (hlater : 1 < m.shared.nextPid) (hrooted : 1 ∉ m.ctx.carriers.dropLast)
    (hqueued : 1 ∉ queue m.shared.spawn) : m.Founded (a.exec m).2 := by
  by_cases hcivil : a.civil = true
  · cases a with
    | reap child => exact ⟨hrooted, id, hqueued, hlater, rfl⟩
    | fork => exact Machine.founded_fork (hown rfl) hlater hrooted hqueued
    | vforkExit status => exact Machine.founded_vforkExit status (hown rfl) hlater hrooted hqueued
    | finishExec program exe argv envp =>
        exact Machine.founded_finishExec program exe argv envp (hown rfl) hlater hrooted hqueued
    | _ => cases hcivil
  · obtain ⟨-, hnextPid, hexits, hspawn, hcarriers⟩ := a.pedigree_exec m (by simpa using hcivil)
    constructor
    · rw [hcarriers]
      exact hrooted
    · rw [hcarriers]
      exact id
    · rw [hspawn]
      exact hqueued
    · rw [hnextPid]
      exact hlater
    · rw [Shared.firstExit, Shared.firstExit, hexits]

end

/-! ## What the loop does -/

section
variable {k k' : Kernel} {t : Fate}

theorem Kernel.Fated.frame (h : k.Fated t) (hbearers : ∀ pids ∈ k'.bearers, pids ∈ k.bearers)
    (hstatus : k'.exitStatus = k.exitStatus) (hspawn : k'.shared.spawn = k.shared.spawn)
    (hannals : k'.shared.annals = k.shared.annals)
    (hregistered : ∃ lost, k'.RegisteredWith lost ∧ (0 < lost 1 → t.trapped = true)) (hvacant : k'.Vacant)
    (hkin : k'.shared.Kin) : k'.Fated t where
  told v hv := by
    rw [Shared.firstExit_congr hannals] at hv
    rw [hstatus]
    exact h.told v hv
  closed hsome pids hpids := h.closed (hstatus ▸ hsome) pids (hbearers pids hpids)
  rooted pids hpids := h.rooted pids (hbearers pids hpids)
  queued := hspawn ▸ h.queued
  later := (Shared.nextPid_congr hannals).symm ▸ h.later
  registered := hregistered
  vacant := hvacant
  kin := hkin

def KAct.settles : KAct → Bool
  | .launchSpawn _ | .launchExec _ _ | .finishProcess _ _ | .abandonSpawn | .abandonExec _ | .forceExit _ =>
      true
  | _ => false

theorem Kernel.bearers_modify {f : Proc → Proc} {i : ℕ} (hprocs : k'.procs = k.procs.modify i f)
    (hf : ∀ p, (f p).ctx.carriers = p.ctx.carriers) : k'.bearers = k.bearers := by
  unfold bearers
  rw [hprocs]
  apply List.ext_getElem?
  intro j
  rw [List.getElem?_map, List.getElem?_map, List.getElem?_modify]
  cases k.procs[j]? with
  | none => rfl
  | some p =>
    by_cases hij : i = j
    · simp [hij, hf]
    · simp [hij]

theorem KAct.unsettling (a : KAct) (k : Kernel) (h : a.settles = false) : (a.exec k).2.bearers = k.bearers ∧
    (a.exec k).2.exitStatus = k.exitStatus ∧ (a.exec k).2.shared.spawn = k.shared.spawn := by
  have hbearers : (a.exec k).2.bearers = k.bearers := by
    cases htarget : a.target with
    | some i =>
      refine Kernel.bearers_modify (a.procs_target htarget k) fun p => ?_
      obtain ⟨e, he⟩ := a.effect_ctx p
      rw [he]
      rfl
    | none =>
      by_cases hgathers : a.gathers = true
      · cases a with
        | beginRun =>
          unfold Kernel.bearers
          simp only [exec, List.map_map, Function.comp_def]
        | launchSpawn | launchExec | finishProcess | abandonExec => cases h
        | _ => cases hgathers
      · unfold Kernel.bearers
        rw [a.procs_untargeted htarget (by simpa using hgathers)]
  refine ⟨hbearers, ?_⟩
  cases a with
  | launchSpawn | launchExec | finishProcess | abandonSpawn | abandonExec | forceExit => cases h
  | attach | releaseInstance | restoreJmp | trapMessage =>
    simp only [exec]
    repeat' split
    all_goals exact ⟨rfl, rfl⟩
  | charge bytes =>
    simp only [exec, Shared.chargeMemory]
    split <;> simp
  | whyIdle =>
    simp only [exec, Kernel.whyIdle]
    repeat' split
    all_goals simp
  | _ => exact ⟨rfl, rfl⟩

theorem firstExit_killChildren (status : ℤ) (stack : List Task) (task : Task) (sh : Shared)
    (h : 1 ∉ (task.pid :: stack.map Task.pid).dropLast) :
    (Kernel.killChildren status stack task sh).2.2.firstExit 1 = sh.firstExit 1 ∧
      (Kernel.killChildren status stack task sh).2.1.pid ∈ task.pid :: stack.map Task.pid := by
  induction stack generalizing task sh with
  | nil => exact ⟨rfl, List.mem_cons_self⟩
  | cons parent rest ih =>
    rw [List.map_cons, List.dropLast_cons_of_ne_nil (by simp)] at h
    have hchild : task.pid ≠ 1 := fun heq => h (heq ▸ List.mem_cons_self)
    obtain ⟨hfirst, hlast⟩ := ih parent ((sh.releaseFds task.fds).2.setExit task.pid status) fun hmem =>
      h (List.mem_cons_of_mem _ hmem)
    refine ⟨hfirst.trans ?_, List.mem_cons_of_mem _ hlast⟩
    rw [Shared.firstExit_other hchild]
    exact Shared.firstExit_congr (Shared.annals_releaseFds _ _) 1

theorem Kernel.RegisteredWith.alone {lost : Need ℤ} (h : k.RegisteredWith lost) {i : ℕ} {p : Proc}
    (hp : k.procs[i]? = some p) {pid : ℤ} (hpid : pid ∈ p.ctx.carriers) {q : Proc}
    (hq : q ∈ k.procs.eraseIdx i) : pid ∉ q.ctx.carriers := by
  intro hmem
  have hone := h.tallies.le_one pid
  rw [carriers_machineOf hp, Machine.borne] at hone
  have hown : (k.machineOf p).ctx = p.ctx := rfl
  rw [hown] at hone
  have hhere : 0 < p.ctx.carriers.count pid := List.count_pos_iff.mpr hpid
  have hthere : 0 < q.ctx.carriers.count pid := List.count_pos_iff.mpr hmem
  have hsum : q.ctx.carriers.count pid ≤ ((k.procs.eraseIdx i).map fun p => p.ctx.carriers.count pid).sum :=
    List.single_le_sum (fun _ _ =>
      Nat.zero_le _) _ (List.mem_map_of_mem (f := fun p : Proc => p.ctx.carriers.count pid) hq)
  omega

theorem Kernel.finishProcess_first {i : ℕ} {p : Proc} (hp : k.procs[i]? = some p) (status : ℤ)
    (hrooted : 1 ∉ (p.ctx.task.pid :: p.ctx.vforkStack.map Task.pid).dropLast) :
    ∃ pid ∈ p.ctx.task.pid :: p.ctx.vforkStack.map Task.pid,
      (k.finishProcess i status).2.shared.firstExit 1 = (k.shared.firstExit 1).or
      (if pid = 1 then some status else none) ∧
      (k.finishProcess i status).2.exitStatus = if pid = 1 ∨
      k.procs.eraseIdx i = [] then k.exitStatus.or (some status)
        else k.exitStatus := by
  have hsame : (k.shared.releaseMemory (satAddU64 p.charged p.ctx.exec.grown)).annals = k.shared.annals := rfl
  obtain ⟨hfirst, hlast⟩ := firstExit_killChildren (statusSignaled sigkill) p.ctx.vforkStack p.ctx.task
    (k.shared.releaseMemory (satAddU64 p.charged p.ctx.exec.grown)) hrooted
  refine ⟨_, hlast, ?_, ?_⟩
  · unfold finishProcess
    simp only [hp]
    rw [Shared.firstExit_append, Shared.firstExit_congr (Shared.annals_releaseFds _ _), hfirst,
      Shared.firstExit_congr hsame]
  · unfold finishProcess
    simp only [hp]

theorem nextPid_setExit (sh : Shared) (pid status : ℤ) : (sh.setExit pid status).nextPid = sh.nextPid := by
  obtain ⟨table, exits, heq⟩ := sh.setExit_eq pid status
  rw [heq]

theorem nextPid_killChildren (status : ℤ) (stack : List Task) (task : Task) (sh : Shared) :
    (Kernel.killChildren status stack task sh).2.2.nextPid = sh.nextPid := by
  induction stack generalizing task sh with
  | nil => rfl
  | cons parent rest ih =>
    refine (ih parent _).trans ?_
    rw [nextPid_setExit]
    exact Shared.nextPid_congr (Shared.annals_releaseFds _ _)

theorem Kernel.finishProcess_others (k : Kernel) (i : ℕ) (status : ℤ) :
    (k.finishProcess i status).2.shared.spawn = k.shared.spawn ∧
      (k.finishProcess i status).2.shared.nextPid = k.shared.nextPid := by
  unfold finishProcess
  cases k.procs[i]? with
  | none => exact ⟨rfl, rfl⟩
  | some p =>
    dsimp only
    rw [Shared.setExit_spawn, Shared.releaseFds_spawn, killChildren_spawn, nextPid_setExit,
      Shared.nextPid_congr (Shared.annals_releaseFds _ _), nextPid_killChildren]
    exact ⟨rfl, rfl⟩

theorem Kernel.bearers_of_get {i : ℕ} {p : Proc} (hp : k.procs[i]? = some p) : p.ctx.carriers ∈ k.bearers :=
  List.mem_map_of_mem (f := fun p : Proc => p.ctx.carriers) (List.mem_of_getElem? hp)

theorem Kernel.bearers_erase {i : ℕ} (h : k'.procs = k.procs.eraseIdx i) {pids : List ℤ}
    (hpids : pids ∈ k'.bearers) :
    ∃ q ∈ k.procs.eraseIdx i, q.ctx.carriers = pids := by
  unfold bearers at hpids
  rw [h] at hpids
  exact List.mem_map.mp hpids

theorem Kernel.mem_bearers {p : Proc} {i : ℕ} (h : p ∈ k.procs.eraseIdx i) : p.ctx.carriers ∈ k.bearers :=
  List.mem_map_of_mem (f := fun p : Proc => p.ctx.carriers) (List.mem_of_mem_eraseIdx h)

/-- A process ends. -/
theorem Kernel.Fated.finish (h : k.Fated t) {i : ℕ} {p : Proc} (hp : k.procs[i]? = some p)
    (status : ℤ) {t' : Fate} (ht : t'.unstarted = t.unstarted)
    (hbottom : 1 ∉ (p.ctx.task.pid :: p.ctx.vforkStack.map Task.pid).dropLast)
    (hown : 1 ∈ p.ctx.task.pid :: p.ctx.vforkStack.map Task.pid → 1 ∈ p.ctx.carriers)
    (hregistered : ∃ lost, (k.finishProcess i status).2.RegisteredWith lost ∧
    (0 < lost 1 → t'.trapped = true)) (hvacant : (k.finishProcess i status).2.Vacant) (hkin :
    (k.finishProcess i status).2.shared.Kin) :
    (k.finishProcess i status).2.Fated t' := by
  obtain ⟨lost, hlost, -⟩ := h.registered
  obtain ⟨pid, hpid, hfirst, hstatus⟩ := Kernel.finishProcess_first hp status hbottom
  have hprocs := k.procs_finishProcess i status
  have hhere := Kernel.bearers_of_get hp
  constructor
  · intro v hv
    rw [hfirst] at hv
    rw [hstatus, ht]
    rcases hold : k.shared.firstExit 1 with _ | u
    · rw [hold, Option.none_or] at hv
      split at hv
      · rename_i hone
        obtain rfl := Option.some.inj hv
        left
        have hopen : k.exitStatus = none := by
          cases hexit : k.exitStatus with
          | none => rfl
          | some u => exact absurd (hown (hone ▸ hpid)) (h.closed (by rw [hexit]; rfl) _ hhere)
        rw [if_pos (.inl hone), hopen]
        rfl
      · cases hv
    · rw [hold] at hv
      obtain rfl : u = v := Option.some.inj hv
      rcases h.told u hold with hexit | hbefell
      · left
        rw [hexit]
        split <;> rfl
      · exact .inr hbefell
  · intro hsome pids hpids
    obtain ⟨q, hq, rfl⟩ := Kernel.bearers_erase hprocs hpids
    by_cases hone : pid = 1
    · exact hlost.alone hp (hown (hone ▸ hpid)) hq
    · rw [hstatus] at hsome
      by_cases hlast : k.procs.eraseIdx i = []
      · rw [hlast] at hq
        exact absurd hq List.not_mem_nil
      · rw [if_neg (by simp [hone, hlast])] at hsome
        exact h.closed hsome _ (Kernel.mem_bearers hq)
  · intro pids hpids
    obtain ⟨q, hq, rfl⟩ := Kernel.bearers_erase hprocs hpids
    exact h.rooted _ (Kernel.mem_bearers hq)
  · rw [(k.finishProcess_others i status).1]
    exact h.queued
  · rw [(k.finishProcess_others i status).2]
    exact h.later
  · exact hregistered
  · exact hvacant
  · exact hkin

theorem Kernel.replacesFirst_none {i : ℕ} {p : Proc} (hp : k.procs[i]? = some p)
    (h : p.ctx.execRequest = none) :
    k.replacesFirst i = false := by
  simp [replacesFirst, hp, h]

theorem Kernel.replacesFirst_some {i : ℕ} {p : Proc} {spawn : Spawn} (hp : k.procs[i]? = some p)
    (h : p.ctx.execRequest = some spawn) : k.replacesFirst i = (spawn.task.pid == 1) := by
  simp [replacesFirst, hp, h]

/-- Whether it is being replaced or not. -/
theorem Kernel.Fated.finished (h : k.Fated t) (i : ℕ) (status : ℤ)
    (htidy : (KOp.act (.finishProcess i status)).Tidy k) :
    (k.finishProcess i status).2.Fated { t with trapped := t.trapped || k.replacesFirst i } := by
  rcases hp : k.procs[i]? with _ | p
  · have hsame : (k.finishProcess i status).2 = k := by simp [finishProcess, hp]
    have hnote : k.replacesFirst i = false := by simp [replacesFirst, hp]
    rw [hsame, hnote, Bool.or_false]
    exact h
  have hvacant : (k.finishProcess i status).2.Vacant := k.vacant_act (.finishProcess i status) h.vacant
  have hkin : (k.finishProcess i status).2.shared.Kin := k.kin_act (.finishProcess i status) h.kin
  obtain ⟨lost, hlost, htrapped⟩ := h.registered
  have hrooted := h.rooted _ (Kernel.bearers_of_get hp)
  rcases hrequest : p.ctx.execRequest with _ | spawn
  · have hcarriers := carriers_of_none hrequest
    have hregistered := Kernel.registered_finishProcess (k := k) status hlost fun q hq => by
      obtain rfl := Option.some.inj (hp.symm.trans hq)
      exact hrequest
    rw [Kernel.replacesFirst_none hp hrequest, Bool.or_false]
    rw [hcarriers] at hrooted
    exact h.finish hp status rfl hrooted (fun hmem =>
      hcarriers ▸ hmem) ⟨lost, hregistered, htrapped⟩ hvacant hkin
  · have hsome : p.ctx.execRequest.isSome = true := by rw [hrequest]; rfl
    have halone := htidy p hp hsome
    have hzero := h.vacant p (List.mem_of_getElem? hp) hsome
    have hregistered := Kernel.registered_finishLost status hlost hp hrequest halone hzero h.kin.positive
    refine h.finish hp status rfl ?_ ?_ ⟨_, hregistered, fun hpos => ?_⟩ hvacant hkin
    · rw [halone]
      exact List.not_mem_nil
    · rw [halone, hzero]
      exact fun hmem => absurd (List.mem_singleton.mp hmem) (by decide)
    · rw [Kernel.replacesFirst_some hp hrequest]
      by_cases hfirst : spawn.task.pid = 1
      · simp [hfirst]
      · rw [one_of_ne hfirst, Nat.add_zero] at hpos
        rw [htrapped hpos]
        rfl

/-- A process dies for want of the program it asked for. -/
theorem Kernel.Fated.abandoned (h : k.Fated t) (i : ℕ) (htidy : (KOp.act (.abandonExec i)).Tidy k) :
    ((KAct.abandonExec i).exec k).2.Fated { t with unstarted := t.unstarted || k.replacesFirst i } := by
  rcases hp : k.procs[i]? with _ | p
  · have hsame : ((KAct.abandonExec i).exec k).2 = k := by simp [KAct.exec, hp]
    have hnote : k.replacesFirst i = false := by simp [replacesFirst, hp]
    rw [hsame, hnote, Bool.or_false]
    exact h
  rcases hrequest : p.ctx.execRequest with _ | spawn
  · have hsame : ((KAct.abandonExec i).exec k).2 = k := by simp [KAct.exec, hp, hrequest]
    rw [hsame, Kernel.replacesFirst_none hp hrequest, Bool.or_false]
    exact h
  obtain ⟨lost, hlost, htrapped⟩ := h.registered
  have hregistered := Kernel.registered_abandonExec hlost htidy
  have hvacant := k.vacant_act (.abandonExec i) h.vacant
  have hkin := k.kin_act (.abandonExec i) h.kin
  have hexec : ((KAct.abandonExec i).exec k).2 = { k with
      shared := (k.shared.releaseFds spawn.task.fds).2.setExit spawn.task.pid (statusExited 126)
      procs := k.procs.eraseIdx i } := by
    simp [KAct.exec, hp, hrequest]
  rw [hexec] at hregistered hvacant hkin ⊢
  rw [Kernel.replacesFirst_some hp hrequest]
  constructor
  · intro v hv
    rw [Shared.firstExit_append, Shared.firstExit_congr (Shared.annals_releaseFds _ _)] at hv
    rcases hold : k.shared.firstExit 1 with _ | u
    · rw [hold, Option.none_or] at hv
      split at hv
      · rename_i hone
        right
        obtain rfl := Option.some.inj hv
        simp [hone]
      · cases hv
    · rw [hold] at hv
      obtain rfl : u = v := Option.some.inj hv
      exact (h.told u hold).imp_right fun hbefell => ⟨by simp [hbefell.1], hbefell.2⟩
  · intro hsome pids hpids
    obtain ⟨q, hq, rfl⟩ := Kernel.bearers_erase rfl hpids
    exact h.closed hsome _ (Kernel.mem_bearers hq)
  · intro pids hpids
    obtain ⟨q, hq, rfl⟩ := Kernel.bearers_erase rfl hpids
    exact h.rooted _ (Kernel.mem_bearers hq)
  · rw [Shared.setExit_spawn, Shared.releaseFds_spawn]
    exact h.queued
  · rw [nextPid_setExit, Shared.nextPid_congr (Shared.annals_releaseFds _ _)]
    exact h.later
  · exact ⟨lost, hregistered, htrapped⟩
  · exact hvacant
  · exact hkin

variable {W : Type} {x : Env W} {w : W}

theorem Kernel.mem_bearers_put {i : ℕ} {m : Machine} {pids : List ℤ} (h : pids ∈ (k.putMachine i m).bearers) :
    pids = m.ctx.carriers ∨ pids ∈ k.bearers := by
  unfold bearers at h
  obtain ⟨q, hq, rfl⟩ := List.mem_map.mp h
  obtain ⟨j, hj⟩ := List.mem_iff_getElem?.mp hq
  have hj' : (k.procs.modify i fun p => { p with ctx := m.ctx, inst := m.inst })[j]? = some q := hj
  by_cases hij : i = j
  · subst hij
    rw [List.getElem?_modify_eq] at hj'
    obtain ⟨p, -, rfl⟩ := Option.map_eq_some_iff.mp hj'
    exact .inl rfl
  · rw [List.getElem?_modify_ne _ _ hij] at hj'
    exact .inr (List.mem_map_of_mem (f := fun p : Proc => p.ctx.carriers) (List.mem_of_getElem? hj'))

/-- A call moves a process. -/
theorem Kernel.Fated.moved (h : k.Fated t) {i : ℕ} {p : Proc} {m : Machine} (hp : k.procs[i]? = some p)
    (hfounded : (k.machineOf p).Founded m)
    (hregistered : ∃ lost, (k.putMachine i m).RegisteredWith lost ∧ (0 < lost 1 → t.trapped = true))
    (hvacant : (k.putMachine i m).Vacant) (hkin : (k.putMachine i m).shared.Kin) :
    (k.putMachine i m).Fated t where
  told v hv := h.told v (hfounded.silent ▸ hv)
  closed hsome pids hpids hmem := by
    rcases Kernel.mem_bearers_put hpids with rfl | hold
    · exact h.closed hsome _ (Kernel.bearers_of_get hp) (hfounded.borne hmem)
    · exact h.closed hsome _ hold hmem
  rooted pids hpids := by
    rcases Kernel.mem_bearers_put hpids with rfl | hold
    · exact hfounded.rooted
    · exact h.rooted _ hold
  queued := hfounded.queued
  later := hfounded.later
  registered := hregistered
  vacant := hvacant
  kin := hkin

/-- A process is started. -/
theorem Kernel.Fated.launched (h : k.Fated t) (launch : Launch)
    (hregistered : ∃ lost, ((KAct.launchSpawn launch).exec k).2.RegisteredWith lost ∧
      (0 < lost 1 → t.trapped = true))
    (hvacant : ((KAct.launchSpawn launch).exec k).2.Vacant)
    (hkin : ((KAct.launchSpawn launch).exec k).2.shared.Kin) :
    ((KAct.launchSpawn launch).exec k).2.Fated t := by
  cases hspawn : k.shared.spawn with
  | nil =>
    have hsame : ((KAct.launchSpawn launch).exec k).2 = k := by simp [KAct.exec, hspawn]
    rw [hsame]
    exact h
  | cons spawn rest =>
    have hexec : ((KAct.launchSpawn launch).exec k).2 = { k with
        shared := { k.shared with spawn := rest }, procs := k.procs ++ [Kernel.procOf spawn launch] } := by
      simp [KAct.exec, hspawn]
    have hqueued := h.queued
    rw [hspawn] at hqueued
    obtain ⟨hother, hrest⟩ := not_or.mp (fun hor => hqueued (List.mem_cons.mpr hor))
    have hbearers : ∀ pids ∈ ((KAct.launchSpawn launch).exec k).2.bearers, pids = [spawn.task.pid] ∨
        pids ∈ k.bearers := by
      intro pids hpids
      rw [hexec, Kernel.bearers, List.map_append] at hpids
      rcases List.mem_append.mp hpids with hold | hnew
      · exact .inr hold
      · left
        rw [List.mem_singleton.mp hnew]
        exact Kernel.carriers_procOf spawn launch
    constructor
    · rw [hexec]
      exact h.told
    · intro hsome pids hpids
      rcases hbearers pids hpids with rfl | hold
      · exact fun hmem => hother (List.mem_singleton.mp hmem)
      · rw [hexec] at hsome
        exact h.closed hsome _ hold
    · intro pids hpids
      rcases hbearers pids hpids with rfl | hold
      · exact List.not_mem_nil
      · exact h.rooted _ hold
    · rw [hexec]
      exact hrest
    · rw [hexec]
      exact h.later
    · exact hregistered
    · exact hvacant
    · exact hkin

/-- Nobody is started, for want of the program. -/
theorem Kernel.Fated.forgone (h : k.Fated t)
    (hregistered : ∃ lost, (KAct.abandonSpawn.exec k).2.RegisteredWith lost ∧ (0 < lost 1 → t.trapped = true))
    (hvacant : (KAct.abandonSpawn.exec k).2.Vacant) (hkin : (KAct.abandonSpawn.exec k).2.shared.Kin) :
    (KAct.abandonSpawn.exec k).2.Fated t := by
  cases hspawn : k.shared.spawn with
  | nil =>
    have hsame : (KAct.abandonSpawn.exec k).2 = k := by simp [KAct.exec, hspawn]
    rw [hsame]
    exact h
  | cons spawn rest =>
    have hqueued := h.queued
    rw [hspawn] at hqueued
    obtain ⟨hother, hrest⟩ := not_or.mp (fun hor => hqueued (List.mem_cons.mpr hor))
    have hexec : (KAct.abandonSpawn.exec k).2 = { k with
        shared := (({ k.shared with spawn := rest } : Shared).releaseFds spawn.task.fds).2.setExit
          spawn.task.pid
          (statusExited 126) } := by
      simp [KAct.exec, hspawn]
    have hsame : ({ k.shared with spawn := rest } : Shared).annals = k.shared.annals := rfl
    rw [hexec] at hregistered hvacant hkin ⊢
    constructor
    · intro v hv
      rw [Shared.firstExit_other (Ne.symm hother), Shared.firstExit_congr (Shared.annals_releaseFds _ _),
        Shared.firstExit_congr hsame] at hv
      exact h.told v hv
    · exact h.closed
    · exact h.rooted
    · rw [Shared.setExit_spawn, Shared.releaseFds_spawn]
      exact hrest
    · rw [nextPid_setExit, Shared.nextPid_congr (Shared.annals_releaseFds _ _), Shared.nextPid_congr hsame]
      exact h.later
    · exact hregistered
    · exact hvacant
    · exact hkin

/-- Who replaces a process stands for whom it stood for. -/
theorem Kernel.bearers_launchExec {i : ℕ} {launch : Launch}
    (htidy : (KOp.act (.launchExec i launch)).Tidy k) {pids : List ℤ}
    (hpids : pids ∈ ((KAct.launchExec i launch).exec k).2.bearers) : pids ∈ k.bearers := by
  obtain ⟨q, hq, rfl⟩ := List.mem_map.mp hpids
  obtain ⟨j, hj⟩ := List.mem_iff_getElem?.mp hq
  have hj' : (k.procs.modify i (Kernel.relaunch launch))[j]? = some q := hj
  by_cases hij : i = j
  · subst hij
    rw [List.getElem?_modify_eq] at hj'
    obtain ⟨p, hp, rfl⟩ := Option.map_eq_some_iff.mp hj'
    have hhere := Kernel.bearers_of_get hp
    unfold Kernel.relaunch
    split
    · rename_i spawn hrequest
      rwa [Kernel.carriers_procOf, ← Kernel.carriers_requested hrequest (htidy p hp)]
    · exact hhere
  · rw [List.getElem?_modify_ne _ _ hij] at hj'
    exact Kernel.bearers_of_get hj'

/-- Every step of the loop but those that end a process keeps it. -/
theorem Kernel.Fated.acted (h : k.Fated t) {a : KAct} (htidy : (KOp.act a).Tidy k)
    (hstays : ∀ i, (∀ status, a ≠ .finishProcess i status) ∧ a ≠ .abandonExec i)
    (hforce : ∀ status, a ≠ .forceExit status)
    (hregistered : ∃ lost, (a.exec k).2.RegisteredWith lost ∧ (0 < lost 1 → t.trapped = true))
    (hvacant : (a.exec k).2.Vacant) (hkin : (a.exec k).2.shared.Kin) : (a.exec k).2.Fated t := by
  by_cases hsettles : a.settles = true
  · cases a with
    | finishProcess i status => exact absurd rfl ((hstays i).1 status)
    | abandonExec i => exact absurd rfl (hstays i).2
    | forceExit status => exact absurd rfl (hforce status)
    | launchSpawn launch => exact h.launched launch hregistered hvacant hkin
    | abandonSpawn => exact h.forgone hregistered hvacant hkin
    | launchExec i launch =>
      exact h.frame (fun pids => Kernel.bearers_launchExec htidy) rfl rfl rfl hregistered hvacant hkin
    | _ => cases hsettles
  · obtain ⟨hbearers, hstatus, hspawn⟩ := a.unsettling k (by simpa using hsettles)
    have hends : a.ends = false := by
      cases a with
      | finishProcess | abandonSpawn | abandonExec => exact absurd rfl hsettles
      | _ => rfl
    exact h.frame (fun pids hpids =>
      hbearers ▸ hpids) hstatus hspawn (a.annals_exec k hends) hregistered hvacant hkin

theorem KOp.Tidy.orderly {o : KOp} (h : o.Tidy k)
    (hstays : ∀ i, (∀ status, o ≠ .act (.finishProcess i status)) ∧ o ≠ .act (.abandonExec i)) :
    o.Orderly k := by
  cases o with
  | env => trivial
  | machine i o =>
    cases o with
    | env => trivial
    | act a => exact h
  | act a =>
    cases a with
    | finishProcess i status => exact absurd rfl ((hstays i).1 status)
    | abandonExec i => exact absurd rfl (hstays i).2
    | launchExec i launch => exact h
    | _ => trivial

/-- Every step keeps it, but for the one by which the wall clock ends the session. -/
theorem Kernel.Fated.kexec {o : KOp} (h : k.Fated t) (htidy : o.Tidy k) (hnumbered : o.Numbered k)
    (hforce : ∀ status, o ≠ .act (.forceExit status)) :
    (kexec x o (k, w)).2.1.Fated (fates.next t o k (kexec x o (k, w)).1) := by
  by_cases hfinish : ∃ i status, o = .act (.finishProcess i status)
  · obtain ⟨i, status, rfl⟩ := hfinish
    exact h.finished i status htidy
  by_cases habandon : ∃ i, o = .act (.abandonExec i)
  · obtain ⟨i, rfl⟩ := habandon
    exact h.abandoned i htidy
  have hstays : ∀ i, (∀ status, o ≠ .act (.finishProcess i status)) ∧ o ≠ .act (.abandonExec i) := fun i =>
    ⟨fun status ho => hfinish ⟨i, status, ho⟩, fun ho => habandon ⟨i, ho⟩⟩
  obtain ⟨lost, hlost, htrapped⟩ := h.registered
  have hregistered := kexec_registered x o hlost (s := (k, w)) (htidy.orderly hstays) hnumbered
  have hvacant := kexec_vacant x o (s := (k, w)) h.vacant htidy
  have hkin := kexec_kin x o (s := (k, w)) h.rostered htidy
  cases o with
  | env c => exact h
  | machine i o =>
    rcases hp : k.procs[i]? with _ | p
    · rw [kexec_machine_none x hp]
      exact h
    rw [kexec_machine x hp] at hregistered hvacant hkin ⊢
    cases o with
    | env c =>
      refine h.frame (fun pids hpids => ?_) rfl rfl rfl ⟨lost, hregistered, htrapped⟩ hvacant hkin
      exact (Kernel.mem_bearers_put hpids).elim (fun heq => heq ▸ Kernel.bearers_of_get hp) id
    | act a =>
      have hfounded := a.founded (htidy p hp).own h.later (h.rooted _ (Kernel.bearers_of_get hp)) h.queued
      exact h.moved hp hfounded ⟨lost, hregistered, htrapped⟩ hvacant hkin
  | act a =>
    have hkept := h.acted htidy (fun i => ⟨fun status ha => (hstays i).1 status (congrArg KOp.act ha),
      fun ha => (hstays i).2 (congrArg KOp.act ha)⟩) (fun status ha => hforce status (congrArg KOp.act ha))
      ⟨lost, hregistered, htrapped⟩ hvacant hkin
    cases a with
    | finishProcess i status => exact absurd rfl ((hstays i).1 status)
    | abandonExec i => exact absurd rfl (hstays i).2
    | _ => exact hkept

/-- When the session is over it is known what with. -/
theorem Kernel.Fated.judged (h : k.Fated t) {status : ℤ} (hgone : ∀ pids ∈ k.bearers, 1 ∉ pids)
    (hstatus : ∀ v, k.exitStatus = some v → v = status) : k.Closed t status := by
  cases hfirst : k.shared.firstExit 1 with
  | some v =>
    rcases h.told v hfirst with hexit | ⟨hunstarted, rfl⟩
    · left
      rw [hfirst, hstatus v hexit]
    · exact .inr (.inl ⟨hunstarted, hfirst⟩)
  | none =>
    refine .inr (.inr ⟨?_, hfirst⟩)
    obtain ⟨lost, hlost, htrapped⟩ := h.registered
    apply htrapped
    rcases hlost.recorded 1 (by decide) h.later with hcarried | ⟨status, hmem⟩
    · have habsent : k.carriers.count 1 = 0 := by
        refine List.count_eq_zero.mpr fun hmem => ?_
        rcases List.mem_append.mp hmem with hproc | hqueue
        · obtain ⟨p, hp, hin⟩ := List.mem_flatMap.mp hproc
          exact hgone _ (List.mem_map_of_mem (f := fun p : Proc => p.ctx.carriers) hp) hin
        · exact h.queued hqueue
      omega
    · exfalso
      unfold Shared.firstExit at hfirst
      have hfind := Option.map_eq_none_iff.mp hfirst
      exact absurd (List.find?_eq_none.mp hfind _ hmem) (by simp)

theorem Kernel.bearers_nil (h : k.procs = []) : ∀ pids ∈ k.bearers, 1 ∉ pids := by
  unfold bearers
  rw [h]
  exact fun pids hpids => absurd hpids List.not_mem_nil

end

/-! ## The session -/

section
variable {W : Type} (x : Env W)

def judging : Stages Fate := ⟨fun _ k t => k.Fated t, fun status k t => k.Closed t status⟩

theorem KOp.quiet.unforced {o : KOp} (h : o.quiet) (status : ℤ) : o ≠ .act (.forceExit status) := by
  rintro rfl
  cases h

theorem KOp.starts.unforced {o : KOp} (h : o.starts) (status : ℤ) : o ≠ .act (.forceExit status) := by
  rintro rfl
  cases h

theorem KOp.midturn.unforced {i : ℕ} {o : KOp} (h : o.midturn i) (status : ℤ) :
    o ≠ .act (.forceExit status) := by
  rintro rfl
  cases h

/-- Pids do not run out, and nobody hands a process over with a child in it. -/
abbrev Settling (o : KOp) (s : Kernel × W) : Prop := o.Numbered s.1 ∧ o.Tidy s.1

theorem sweeps_judging : Sweeps judging fates x Settling fun _ _ => True where
  quiet i o k w t ho h hc := ⟨trivial, h.kexec hc.2 hc.1 ho.unforced⟩
  starts o k w t ho h hc := ⟨trivial, h.kexec hc.2 hc.1 ho.unforced⟩
  turn turns i k w t h := by
    refine Sweeps.meets_stepAndPark (I := fun s => s.1.1.Fated s.2) (J := fun s => s.1.1.Fated s.2)
      turns ?_ ?_ ?_ ?_ h
    · exact fun s hs hc => ⟨trivial, hs.kexec (x := x) (o := .act .look) hc.2 hc.1 fun _ heq => by cases heq⟩
    · exact fun s hs hc => ⟨trivial, hs.kexec (x := x)
        (o := .act (.attach i)) hc.2 hc.1 fun _ heq => by cases heq⟩
    · exact fun o s ho hs hc => ⟨trivial, hs.kexec hc.2 hc.1 ho.unforced⟩
    · exact fun external s hs hc =>
        ⟨trivial, hs.kexec (x := x) (o := .act (.endStep i external)) hc.2 hc.1 fun _ heq => by cases heq⟩
  finish i status k w t h hc := ⟨trivial, h.finished i status hc.2⟩
  first status k w t h hc := ⟨trivial, h.finished 0 status hc.2⟩
  force status k w t h hnone _ := by
    refine ⟨trivial, ?_⟩
    have hjudged : k.Closed t (k.exitStatus.getD status) :=
      h.judged (Kernel.bearers_nil hnone) fun v hv => by rw [hv]; rfl
    exact hjudged
  round _ _ _ h _ := h
  exits i status k t h hstatus := h.judged (h.closed (by rw [hstatus]; rfl)) fun v hv => by
    rw [hstatus] at hv
    exact (Option.some.inj hv).symm
  gone k t h hnone hstatus := h.judged (Kernel.bearers_nil hnone) fun v hv => by
    rw [hstatus] at hv
    cases hv
  looks _ _ _ _ h _ := ⟨trivial, h⟩

/-- Nobody has started yet: the first process waits for its program. -/
structure Kernel.Unborn (k : Kernel) : Prop where
  procs : k.procs = []
  status : k.exitStatus = none
  exits : k.shared.exits = []
  later : 1 < k.shared.nextPid
  alone : k.shared.spawn.length = 1
  registered : k.RegisteredWith fun _ => 0
  vacant : k.Vacant
  kin : k.shared.Kin

theorem unborn_kernel {c : Config} {started : Instant} {k : Kernel} (h : c.kernel started = some k) :
    k.Unborn := by
  have hrostered := rostered_kernel h
  have hregistered := Kernel.registered_iff.mp (registered_kernel h).1
  have hvacant := hrostered.vacant
  have hkin := hrostered.kin
  obtain ⟨fds, slab, rfl⟩ := Config.kernel_eq h
  exact ⟨rfl, rfl, rfl, (by decide : (1 : ℤ) < 2), rfl, hregistered, hvacant, hkin⟩

theorem KOp.prepares_kexec {o : KOp} (h : o.prepares) (k : Kernel) (w : W) :
    ∃ used, (kexec x o (k, w)).2.1 = { k with shared := { k.shared with memoryUsed := used } } := by
  cases o with
  | machine => cases h
  | env c => exact ⟨k.shared.memoryUsed, rfl⟩
  | act a =>
    cases a with
    | look => exact ⟨k.shared.memoryUsed, rfl⟩
    | release bytes => exact ⟨_, rfl⟩
    | charge bytes =>
      rw [kexec_act]
      simp only [KAct.exec, Shared.chargeMemory]
      split
      · exact ⟨k.shared.memoryUsed, rfl⟩
      · exact ⟨_, rfl⟩
    | _ => cases h

theorem Kernel.Unborn.prepares {o : KOp} (ho : o.prepares) {k : Kernel} (h : k.Unborn) (w : W) :
    (kexec x o (k, w)).2.1.Unborn := by
  obtain ⟨used, heq⟩ := KOp.prepares_kexec x ho k w
  rw [heq]
  exact ⟨h.procs, h.status, h.exits, h.later, h.alone, h.registered.congr rfl fun _ =>
    rfl, h.vacant, h.kin.congr rfl rfl⟩

/-- The first process is there. -/
theorem Kernel.Unborn.launch {k : Kernel} (h : k.Unborn) (launch : Launch) :
    ((KAct.launchSpawn launch).exec k).2.Fated fates.start := by
  obtain ⟨spawn, hspawn⟩ : ∃ spawn, k.shared.spawn = [spawn] := List.length_eq_one_iff.mp h.alone
  have hregistered := Kernel.registered_launchSpawn launch h.registered
  have hvacant := k.vacant_act (.launchSpawn launch) h.vacant
  have hkin := k.kin_act (.launchSpawn launch) h.kin
  have hexec : ((KAct.launchSpawn launch).exec k).2 = { k with
      shared := { k.shared with spawn := [] }, procs := [Kernel.procOf spawn launch] } := by
    simp [KAct.exec, hspawn, h.procs]
  rw [hexec] at hregistered hvacant hkin ⊢
  constructor
  · intro v hv
    have hnone : k.shared.firstExit 1 = none := by
      rw [Shared.firstExit, h.exits]
      rfl
    exact absurd (hv.symm.trans hnone) (Option.some_ne_none v)
  · intro hsome
    rw [h.status] at hsome
    cases hsome
  · intro pids hpids
    rw [List.mem_singleton.mp hpids]
    show _ ∉ (Kernel.procOf spawn launch).ctx.carriers.dropLast
    rw [Kernel.carriers_procOf]
    exact List.not_mem_nil
  · exact List.not_mem_nil
  · exact h.later
  · exact ⟨_, hregistered, fun hpos => absurd hpos (Nat.lt_irrefl 0)⟩
  · exact hvacant
  · exact hkin

theorem begins_judging : Sweeps.Begins judging fates x Settling fun _ _ => True where
  start c started k w hk := by
    have hprepare : Program.Meets (fates.exec x) (fun o s => Settling o s.1) (fun _ _ => True)
        (Scheduler.prepare c.program c.argv) (fun _ u =>
          u.1.1.Unborn ∧ u.2 = fates.start) ((k, w), fates.start) := by
      refine Program.meets_only (I := fun s : (Kernel × W) × Fate => s.1.1.Unborn ∧ s.2 = fates.start) ?_
        (Scheduler.only_prepare c.program c.argv) ⟨unborn_kernel hk, rfl⟩
      rintro o ⟨⟨k, w⟩, t⟩ ho ⟨hs, rfl⟩ -
      refine ⟨trivial, hs.prepares x ho w, ?_⟩
      cases o with
      | machine => cases ho
      | env => rfl
      | act a =>
        cases a with
        | look | charge | release => rfl
        | _ => cases ho
    refine Program.meets_bind hprepare ?_ fun e u _ he => by cases he
    rintro (_ | launch) ⟨⟨k, w⟩, t⟩ ⟨hk, rfl⟩
    · refine Sweeps.meets_kact fun _ => ⟨trivial, ?_⟩
      refine Program.meets_bind (P := fun _ _ => True)
        (Program.meets_invariant (I := fun _ => True) (fun _ _ _ _ => ⟨trivial, trivial⟩) _ trivial)
        ?_ fun e u _ he => by cases he
      exact fun _ _ _ hfalse => by cases hfalse
    · exact fun _ => ⟨trivial, fun _ => hk.launch launch⟩
  input finished k data closed t h := by
    cases finished with
    | none =>
      have hfated : k.Fated t := h
      obtain ⟨lost, hlost, htrapped⟩ := hfated.registered
      exact hfated.frame (fun _ => id) rfl rfl rfl ⟨lost, hlost.congr rfl fun _ =>
        rfl, htrapped⟩ hfated.vacant
        (hfated.kin.congr rfl rfl)
    | some status => exact h
  output finished k out err t h := by
    cases finished with
    | none =>
      have hfated : k.Fated t := h
      obtain ⟨lost, hlost, htrapped⟩ := hfated.registered
      exact hfated.frame (fun _ => id) rfl rfl rfl ⟨lost, hlost.congr rfl fun _ =>
        rfl, htrapped⟩ hfated.vacant
        (hfated.kin.congr rfl rfl)
    | some status => exact h

/-- A session ends with the status that was recorded first for its first
process, unless that asked for a program that could not be started, or trapped
while it was being replaced. -/
theorem session_status {s : Session} {w : W} {t : Fate}
    (h : Recorded x fates (fun o s => o.Numbered s.1) s w t) {status : ℤ}
    (hover : s.finished = some status) : s.kernel.shared.firstExit 1 = some status ∨
      (t.unstarted = true ∧ s.kernel.shared.firstExit 1 = some (statusExited 126)) ∨
      (t.trapped = true ∧ s.kernel.shared.firstExit 1 = none) := by
  have htidy : KeptTo x (fun o s => o.Numbered s.1) (fun o s => o.Tidy s.1) Kernel.Settled fun k index =>
      k.Handed index :=
    (keptTo_settled x).weaken (fun _ _ _ => trivial) fun _ _ => id
  have hsettled : Lasting Kernel.Settled := ⟨fun c started k hk => (registered_kernel hk).2,
    fun k data closed hk => hk.congr rfl, fun k out err hk => hk.congr rfl⟩
  have hreached := (sweeps_judging x).recorded (begins_judging x) (htidy.recorded hsettled h)
  rw [hover] at hreached
  exact hreached

end

theorem Recorded.sliced {W τ : Type} {x : Env W} {H : History τ} {C : KOp → Kernel × W → Prop} {k : Kernel}
    {w : W} {t : τ} (h : Recorded x H C ⟨k, none⟩ w t) (turns : ℕ) (budget : Budget) (slice : Slice)
    (hc : Program.Along (kexec x) C (Scheduler.run turns budget) (k, w))
    (hslice : ((Scheduler.run turns budget).run (H.exec x) ((k, w), t)).1 = .ok slice) :
    Recorded x H C ⟨((Scheduler.run turns budget).run (H.exec x) ((k, w), t)).2.1.1, slice.status⟩
      ((Scheduler.run turns budget).run (H.exec x) ((k, w), t)).2.1.2
      ((Scheduler.run turns budget).run (H.exec x) ((k, w), t)).2.2 :=
  .step _ _ _ _ _ _ turns budget slice h hc (Prod.ext hslice rfl)

/-- A guest whose child exits with 7 before it exits itself. -/
theorem session_status_first : ∃ (s : Session) (w : List GuestRun) (t : Fate),
    Recorded Env.hears fates (fun o s => o.Numbered s.1) s w t ∧ s.finished = some (statusExited 255) ∧
    s.kernel.shared.exits = [(2, statusExited 7), (1, statusExited 255)] ∧
    s.kernel.shared.firstExit 1 = some (statusExited 255) := by
  have hstart : Recorded Env.hears fates (fun o s => o.Numbered s.1) ⟨_, none⟩ _ ⟨false, false⟩ :=
    .start (.bare [.guest 0]) 0 _ _ [⟨[.syscall 220 0, .syscall 94 24, .syscall 94 48], none⟩] _ _ rfl
      (along_numbered (by decide +kernel)) rfl
  have hend := hstart.sliced 2 ⟨none, none⟩ (.finished (statusExited 255))
    (along_numbered (by decide +kernel))
    (by decide +kernel)
  obtain ⟨s, w, t, hend, hfinished, hexits, hunstarted, htrapped⟩ :
    ∃ (s : Session) (w : List GuestRun) (t : Fate),
      Recorded Env.hears fates (fun o s => o.Numbered s.1) s w t ∧ s.finished = some (statusExited 255) ∧
      s.kernel.shared.exits = [(2, statusExited 7), (1, statusExited 255)] ∧ t.unstarted = false ∧
      t.trapped = false :=
    ⟨_, _, _, hend, rfl, by decide +kernel, by decide +kernel, by decide +kernel⟩
  refine ⟨s, w, t, hend, hfinished, hexits, ?_⟩
  rcases session_status Env.hears hend hfinished with hfirst | ⟨hbefell, -⟩ | ⟨hbefell, -⟩
  · exact hfirst
  · rw [hunstarted] at hbefell
    cases hbefell
  · rw [htrapped] at hbefell
    cases hbefell

end Wasmux
