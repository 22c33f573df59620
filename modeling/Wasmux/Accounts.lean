import Wasmux.Tables

/-!
# What a session counts

The memory a session has charged and the calls it has served, and the few
operations that change either. Descriptors and processes come and go without
touching the rest of the shared state.
-/

set_option autoImplicit false

namespace Wasmux
open Effects Abi

namespace Shared

/-- The shared state without its descriptions, pipes and processes. -/
def outer (sh : Shared) : Shared :=
  { sh with descs := .new, pipes := .new, table := [], nextPid := 0, spawn := [], exits := [] }

@[simp] theorem outer_releaseAll (keys : List DescKey) (sh : Shared) :
    (sh.releaseAll keys).2.outer = sh.outer := by
  obtain ⟨descs, pipes, h⟩ := releaseAll_eq keys sh
  rw [h]
  rfl

@[simp] theorem outer_releaseFds (table : FdTable) (sh : Shared) :
    (sh.releaseFds table).2.outer = sh.outer := outer_releaseAll _ sh

@[simp] theorem outer_setExit (pid status : ℤ) (sh : Shared) :
    (sh.setExit pid status).outer = sh.outer := by
  obtain ⟨table, exits, h⟩ := sh.setExit_eq pid status
  rw [h]
  rfl

@[simp] theorem outer_duplicate (table : FdTable) (sh : Shared) :
    (sh.duplicate table).outer = sh.outer := by
  obtain ⟨descs, h⟩ := duplicate_eq table sh
  rw [h]
  rfl

@[simp] theorem outer_killChildren (status : ℤ) (stack : List Task) (task : Task) (sh : Shared) :
    (Kernel.killChildren status stack task sh).2.2.outer = sh.outer := by
  induction stack generalizing task sh with
  | nil => rfl
  | cons parent stack ih => simp [Kernel.killChildren, ih]

end Shared

namespace Machine
variable (m : Machine)

@[simp] theorem shared_setShared (sh : Shared) : (m.setShared sh).shared = sh := rfl
@[simp] theorem shared_setFds (fds : FdTable) : (m.setFds fds).shared = m.shared := rfl

@[simp] theorem shared_setMem (mem : Mem) : (m.setMem mem).shared = m.shared := rfl

def Shuffles (m m' : Machine) : Prop := ∃ fds descs pipes, m' =
  { m with
    ctx := { m.ctx with task := { m.ctx.task with fds := fds } }
    shared := { m.shared with descs := descs, pipes := pipes } }

theorem Shuffles.refl : m.Shuffles m := ⟨_, _, _, rfl⟩

theorem shuffles_releaseDesc (key : DescKey) (fds : FdTable) (descs : Slab Desc) (pipes : Slab Pipe) :
    m.Shuffles { m with
      ctx := { m.ctx with task := { m.ctx.task with fds := fds } }
      shared := (({ m.shared with descs := descs, pipes := pipes } : Shared).releaseDesc key).2 } := by
  obtain ⟨descs', pipes', h⟩ :=
    ({ m.shared with descs := descs, pipes := pipes } : Shared).releaseDesc_eq key
  rw [h]
  exact ⟨_, _, _, rfl⟩

theorem shuffles_openDesc (kind : OpenKind) (path : Text) (flags : ℕ) (cloexec : Bool) :
    m.Shuffles (m.openDesc kind path flags cloexec).2 := by
  unfold openDesc
  split
  · exact .refl m
  · dsimp only
    split
    · exact ⟨_, _, _, rfl⟩
    · exact m.shuffles_releaseDesc _ _ _ _

theorem shuffles_dup (fd : ℤ) (cloexec : Bool) (min : ℕ) : m.Shuffles (m.dup fd cloexec min).2 := by
  unfold dup
  split
  · exact .refl m
  · dsimp only
    split <;> exact ⟨_, _, _, rfl⟩

theorem shuffles_dupTo (fd target : ℤ) (cloexec : Bool) : m.Shuffles (m.dupTo fd target cloexec).2 := by
  unfold dupTo
  split
  · exact .refl m
  · dsimp only
    split
    · exact ⟨_, _, _, rfl⟩
    · exact ⟨_, _, _, rfl⟩
    · exact m.shuffles_releaseDesc _ _ _ _

theorem shuffles_close (fd : ℤ) : m.Shuffles (m.close fd).2 := by
  unfold close
  split
  · exact .refl m
  · exact m.shuffles_releaseDesc _ _ _ _

theorem shuffles_pipe2 (flags : ℕ) : m.Shuffles (m.pipe2 flags).2 := by
  unfold pipe2
  dsimp only
  split
  · exact .refl m
  · split
    · exact ⟨_, _, _, rfl⟩
    · split
      · exact ⟨_, _, _, rfl⟩
      · split
        · exact ⟨_, _, _, rfl⟩
        · split
          · exact ⟨_, _, _, rfl⟩
          · split
            · exact ⟨_, _, _, rfl⟩
            · exact m.shuffles_releaseDesc _ _ _ _

theorem outer_fork : m.fork.2.shared.outer = m.shared.outer := by
  unfold fork
  split
  · rfl
  · rename_i pid shared h
    obtain ⟨-, table, rfl⟩ := Shared.forkRecord_eq h
    exact Shared.outer_duplicate _ _

theorem outer_vforkExit (status : ℤ) : (m.vforkExit status).2.shared.outer = m.shared.outer := by
  unfold vforkExit
  split
  · rfl
  · exact (Shared.outer_setExit _ _ _).trans (Shared.outer_releaseFds _ _)

theorem outer_finishExec (program : ProgramId) (exe : Text) (argv envp : List Bytes) :
    (m.finishExec program exe argv envp).2.shared.outer = m.shared.outer := by
  unfold finishExec
  dsimp only
  split <;> exact Shared.outer_releaseAll _ _

end Machine

/-- The acts that move descriptors within the caller's own table. -/
def Act.shuffles : Act → Bool
  | .openDesc _ _ _ _ | .dup _ _ _ | .dupTo _ _ _ | .close _ | .pipe2 _ => true
  | _ => false

theorem Act.shuffles_exec (a : Act) (m : Machine) (h : a.shuffles = true) : m.Shuffles (a.exec m).2 := by
  cases a with
  | openDesc kind path flags cloexec => exact m.shuffles_openDesc _ _ _ _
  | dup fd cloexec min => exact m.shuffles_dup _ _ _
  | dupTo fd target cloexec => exact m.shuffles_dupTo _ _ _
  | close fd => exact m.shuffles_close _
  | pipe2 flags => exact m.shuffles_pipe2 _
  | _ => cases h

theorem Act.outer_exec (a : Act) (m : Machine) (h : a.moves = true) :
    (a.exec m).2.shared.outer = m.shared.outer := by
  by_cases hshuffles : a.shuffles = true
  · obtain ⟨fds, descs, pipes, heq⟩ := a.shuffles_exec m hshuffles
    rw [heq]
    rfl
  cases a with
  | openDesc | dup | dupTo | close | pipe2 => exact absurd rfl hshuffles
  | fork => exact m.outer_fork
  | vforkExit status => exact m.outer_vforkExit _
  | finishExec program exe argv envp => exact m.outer_finishExec _ _ _ _
  | _ => cases h

/-- The counters of a session, and what they are held against. -/
structure Account where
  limits : Limits
  memoryUsed : ℕ
  syscalls : ℕ

def Shared.account (sh : Shared) : Account := ⟨sh.limits, sh.memoryUsed, sh.syscalls⟩

theorem Shared.account_of_outer {sh sh' : Shared} (h : sh'.outer = sh.outer) :
    sh'.account = sh.account := by
  have := congrArg Shared.account h
  exact this

def Act.counts : Act → Bool
  | .charge _ | .release _ | .served => true
  | _ => false

theorem Act.account_exec (a : Act) (m : Machine) (h : a.counts = false) :
    (a.exec m).2.shared.account = m.shared.account := by
  by_cases hmoves : a.moves = true
  · exact Shared.account_of_outer (a.outer_exec m hmoves)
  cases a with
  | charge | release | served => cases h
  | growMem pages => exact congrArg Shared.account (m.shared_setMem _)
  | put start data => simp only [exec]; split <;> rfl
  | setCloexec fd on => simp only [exec]; split <;> rfl
  | writeOutput which data =>
    simp only [exec, Shared.writeOutput]
    split <;> rfl
  | openDesc | dup | dupTo | close | pipe2 | fork | vforkExit | finishExec => exact absurd rfl hmoves
  | _ => rfl

def KAct.counts : KAct → Bool
  | .charge _ | .release _ | .releaseInstance _ | .finishProcess _ _ => true
  | _ => false

theorem KAct.account_exec (a : KAct) (k : Kernel) (h : a.counts = false) :
    (a.exec k).2.shared.account = k.shared.account := by
  cases a with
  | charge | release | releaseInstance | finishProcess => cases h
  | attach index =>
    simp only [exec]
    repeat' split
    all_goals rfl
  | launchSpawn launch => simp only [exec]; split <;> rfl
  | abandonSpawn =>
    simp only [exec]
    split
    · rfl
    · exact Shared.account_of_outer ((Shared.outer_setExit _ _ _).trans (Shared.outer_releaseFds _ _))
  | abandonExec index =>
    simp only [exec]
    split
    · rfl
    · exact Shared.account_of_outer ((Shared.outer_setExit _ _ _).trans (Shared.outer_releaseFds _ _))
  | restoreJmp index buf value =>
    simp only [exec]
    repeat' split
    all_goals rfl
  | trapMessage index kind => simp only [exec]; split <;> rfl
  | whyIdle =>
    simp only [exec, Kernel.whyIdle]
    repeat' split
    all_goals rfl
  | _ => rfl

theorem account_finishProcess (k : Kernel) (index : ℕ) (status : ℤ) :
    (k.finishProcess index status).2.shared.account = match k.procs[index]? with
      | none => k.shared.account
      | some p => (k.shared.releaseMemory (satAddU64 p.charged p.ctx.exec.grown)).account := by
  unfold Kernel.finishProcess
  cases k.procs[index]? with
  | none => rfl
  | some p =>
    exact Shared.account_of_outer ((Shared.outer_setExit _ _ _).trans
      ((Shared.outer_releaseFds _ _).trans (Shared.outer_killChildren _ _ _ _)))

structure Settings where
  mounts : Mounts
  overlay : Overlay
  programs : List ProgramKind
  limits : Limits
  started : Instant

def Shared.settings (sh : Shared) : Settings := ⟨sh.mounts, sh.overlay, sh.programs, sh.limits, sh.started⟩

theorem Shared.settings_of_outer {sh sh' : Shared} (h : sh'.outer = sh.outer) :
    sh'.settings = sh.settings := by
  have := congrArg Shared.settings h
  exact this

theorem settings_chargeMemory (sh : Shared) (bytes : ℕ) :
    (sh.chargeMemory bytes).2.settings = sh.settings := by
  unfold Shared.chargeMemory
  split <;> rfl

theorem limits_chargeMemory (sh : Shared) (bytes : ℕ) : (sh.chargeMemory bytes).2.limits = sh.limits :=
  congrArg Settings.limits (settings_chargeMemory sh bytes)

theorem Act.settings_exec (a : Act) (m : Machine) : (a.exec m).2.shared.settings = m.shared.settings := by
  by_cases hmoves : a.moves = true
  · exact Shared.settings_of_outer (a.outer_exec m hmoves)
  cases a with
  | openDesc | dup | dupTo | close | pipe2 | fork | vforkExit | finishExec => exact absurd rfl hmoves
  | growMem pages => exact congrArg Shared.settings (m.shared_setMem _)
  | charge bytes => exact settings_chargeMemory m.shared bytes
  | put start data =>
    simp only [exec]
    split <;> rfl
  | setCloexec fd on =>
    simp only [exec]
    split <;> rfl
  | writeOutput which data =>
    simp only [exec, Shared.writeOutput, Machine.shared_setShared]
    split <;> rfl
  | _ => rfl

theorem settings_finishProcess (k : Kernel) (index : ℕ) (status : ℤ) :
    (k.finishProcess index status).2.shared.settings = k.shared.settings := by
  unfold Kernel.finishProcess
  cases k.procs[index]? with
  | none => rfl
  | some p =>
    refine Eq.trans (Shared.settings_of_outer ((Shared.outer_setExit _ _ _).trans
      ((Shared.outer_releaseFds _ _).trans (Shared.outer_killChildren _ _ _ _)))) ?_
    rfl

theorem KAct.settings_exec (a : KAct) (k : Kernel) : (a.exec k).2.shared.settings = k.shared.settings := by
  cases a with
  | charge bytes => exact settings_chargeMemory k.shared bytes
  | finishProcess index status => exact settings_finishProcess k index status
  | abandonSpawn =>
    simp only [exec]
    split
    · rfl
    · exact Shared.settings_of_outer ((Shared.outer_setExit _ _ _).trans (Shared.outer_releaseFds _ _))
  | abandonExec index =>
    simp only [exec]
    split
    · rfl
    · exact Shared.settings_of_outer ((Shared.outer_setExit _ _ _).trans (Shared.outer_releaseFds _ _))
  | launchSpawn | releaseInstance | trapMessage =>
    simp only [exec]
    split <;> rfl
  | attach | restoreJmp =>
    simp only [exec]
    repeat' split
    all_goals rfl
  | whyIdle =>
    simp only [exec, Kernel.whyIdle]
    repeat' split
    all_goals rfl
  | _ => rfl

section
variable {W : Type} (x : Env W)

theorem Op.settings_exec (o : Op) (s : Machine × W) :
    (exec x o s).2.1.shared.settings = s.1.shared.settings := by
  cases o with
  | env => rfl
  | act a => exact a.settings_exec s.1

theorem settings_kexec (o : KOp) (s : Kernel × W) :
    (kexec x o s).2.1.shared.settings = s.1.shared.settings := by
  obtain ⟨k, w⟩ := s
  cases o with
  | env => rfl
  | act a => exact a.settings_exec k
  | machine i o =>
    rcases hp : k.procs[i]? with _ | p
    · rw [kexec_machine_none x hp]
    · rw [kexec_machine x hp]
      exact o.settings_exec x (k.machineOf p, w)

end

theorem Act.limits_exec (a : Act) (m : Machine) : (a.exec m).2.shared.limits = m.shared.limits :=
  congrArg Settings.limits (a.settings_exec m)

theorem KAct.limits_exec (a : KAct) (k : Kernel) : (a.exec k).2.shared.limits = k.shared.limits :=
  congrArg Settings.limits (a.settings_exec k)

theorem Act.mounts_exec (a : Act) (m : Machine) : (a.exec m).2.shared.mounts = m.shared.mounts :=
  congrArg Settings.mounts (a.settings_exec m)

end Wasmux
