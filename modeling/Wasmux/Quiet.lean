import Wasmux.Calls
import Wasmux.References

/-!
# Machines that differ in how they wait

How a process waits is written down in the records, the flags and the counter
of syscalls. No handler reads any of it, so two machines that agree on the rest
answer every operation alike and go on agreeing.
-/

set_option autoImplicit false

namespace Wasmux
open Effects Abi

/-- The shared state with nothing written down about waiting. -/
def Shared.quiet (sh : Shared) : Shared :=
  { sh with
    table := sh.table.map ProcRecord.unwoken
    stdin := { sh.stdin with wanted := false }
    vfsPending := false
    syscalls := 0 }

def Machine.quiet (m : Machine) : Machine := m.setShared m.shared.quiet

namespace Shared

@[simp] theorem quiet_quiet (sh : Shared) : sh.quiet.quiet = sh.quiet := by
  simp [quiet, ProcRecord.unwoken, Function.comp_def]

theorem record_quiet (sh : Shared) (pid : ℤ) :
    sh.quiet.record pid = (sh.record pid).map ProcRecord.unwoken := by
  unfold record quiet
  dsimp only
  induction sh.table with
  | nil => rfl
  | cons r rs ih =>
    rw [List.map_cons, List.find?_cons, List.find?_cons, ih]
    rcases h : r.pid == pid <;> simp [ProcRecord.unwoken, h]

theorem updateRecord_quiet (sh : Shared) (pid : ℤ) (f : ProcRecord → ProcRecord)
    (hf : ∀ r, (f r.unwoken).unwoken = (f r).unwoken) :
    (sh.quiet.updateRecord pid f).quiet = (sh.updateRecord pid f).quiet := by
  have go : ∀ rs : List ProcRecord,
      (updateRecord.go pid f (rs.map ProcRecord.unwoken)).map ProcRecord.unwoken =
        (updateRecord.go pid f rs).map ProcRecord.unwoken := by
    intro rs
    induction rs with
    | nil => rfl
    | cons r rs ih =>
      have hpid : r.unwoken.pid = r.pid := rfl
      have htwice : ∀ r : ProcRecord, r.unwoken.unwoken = r.unwoken := fun _ => rfl
      rcases h : r.pid == pid <;>
        simp [updateRecord.go, hpid, h, ih, hf, htwice, Function.comp_def]
  simp [updateRecord, quiet, go]

theorem collectPipe_quiet (sh : Shared) (key : PipeKey) :
    sh.quiet.collectPipe key = (sh.collectPipe key).quiet := by
  unfold collectPipe
  have : sh.quiet.pipes = sh.pipes := rfl
  rw [this]
  split <;> rfl

theorem dropDesc_quiet (sh : Shared) (d : Desc) :
    sh.quiet.dropDesc d = ((sh.dropDesc d).1, (sh.dropDesc d).2.quiet) := by
  rcases d with ⟨kind, path, flags, refs⟩
  cases kind with
  | pipeRead key | pipeWrite key =>
    simp only [dropDesc]
    rw [← collectPipe_quiet]
    rfl
  | _ => rfl

theorem releaseDesc_quiet (sh : Shared) (key : DescKey) :
    sh.quiet.releaseDesc key = ((sh.releaseDesc key).1, (sh.releaseDesc key).2.quiet) := by
  have hdescs : sh.quiet.descs = sh.descs := rfl
  simp only [releaseDesc, hdescs]
  rcases sh.descs.get key with _ | d
  · rfl
  · dsimp only
    split_ifs
    · rfl
    · rcases (sh.descs.modify key fun d => { d with refs := d.refs - 1 }).remove key with
        ⟨_ | e, descs⟩
      · rfl
      · exact dropDesc_quiet { sh with descs := descs } e

theorem releaseAll_quiet (sh : Shared) (keys : List DescKey) :
    sh.quiet.releaseAll keys = ((sh.releaseAll keys).1, (sh.releaseAll keys).2.quiet) := by
  induction keys generalizing sh with
  | nil => rfl
  | cons k ks ih => simp [releaseAll, releaseDesc_quiet, ih]

theorem duplicate_quiet (sh : Shared) (table : FdTable) :
    sh.quiet.duplicate table = (sh.duplicate table).quiet := by
  unfold duplicate
  induction table.keys generalizing sh with
  | nil => rfl
  | cons k ks ih => exact ih (sh.addRef k)

/-- Two shared states that agree but for how processes wait. -/
def Alike (sh sh' : Shared) : Prop := sh.quiet = sh'.quiet

namespace Alike
variable {sh sh' : Shared}

theorem record (h : Alike sh sh') (pid : ℤ) :
    (sh.record pid).map ProcRecord.unwoken = (sh'.record pid).map ProcRecord.unwoken := by
  rw [← record_quiet, ← record_quiet, h]

theorem isAlive (h : Alike sh sh') (pid : ℤ) :
    (sh.record pid).any ProcRecord.isAlive = (sh'.record pid).any ProcRecord.isAlive := by
  have : ∀ o : Option ProcRecord, (o.map ProcRecord.unwoken).any ProcRecord.isAlive =
      o.any ProcRecord.isAlive := fun o => by cases o <;> rfl
  rw [← this, h.record pid, this]

theorem updateRecord (h : Alike sh sh') (pid : ℤ) (f : ProcRecord → ProcRecord)
    (hf : ∀ r, (f r.unwoken).unwoken = (f r).unwoken) :
    Alike (sh.updateRecord pid f) (sh'.updateRecord pid f) := by
  rw [Alike, ← updateRecord_quiet sh pid f hf, h, updateRecord_quiet sh' pid f hf]

/-- A change made to every record alike, or a choice among them. -/
theorem mapTable (h : Alike sh sh') (f : ProcRecord → ProcRecord) (keep : ProcRecord → Bool)
    (hf : ∀ r, (f r.unwoken).unwoken = (f r).unwoken) (hk : ∀ r, keep r.unwoken = keep r) :
    Alike { sh with table := (sh.table.filter keep).map f }
      { sh' with table := (sh'.table.filter keep).map f } := by
  have one : ∀ rs : List ProcRecord, ((rs.filter keep).map f).map ProcRecord.unwoken =
      (((rs.map ProcRecord.unwoken).filter keep).map f).map ProcRecord.unwoken := fun rs => by
    simp [List.filter_map, Function.comp_def, hk, hf]
  have ht : sh.table.map ProcRecord.unwoken = sh'.table.map ProcRecord.unwoken :=
    congrArg Shared.table (show sh.quiet = sh'.quiet from h)
  have hrest : ∀ table, { sh.quiet with table := table } = { sh'.quiet with table := table } :=
    fun table => by rw [h]
  unfold Alike
  calc Shared.quiet { sh with table := (sh.table.filter keep).map f }
      = { sh.quiet with table := ((sh.table.filter keep).map f).map ProcRecord.unwoken } := rfl
    _ = { sh'.quiet with table := ((sh'.table.filter keep).map f).map ProcRecord.unwoken } := by
      rw [one, ht, ← one, hrest]
    _ = Shared.quiet { sh' with table := (sh'.table.filter keep).map f } := rfl

theorem raise_unwoken (signal : ℤ) (r : ProcRecord) :
    (r.unwoken.raise signal).unwoken = (r.raise signal).unwoken := by
  unfold ProcRecord.raise
  split <;> rfl

theorem setExit (h : Alike sh sh') (pid status : ℤ) :
    Alike (sh.setExit pid status) (sh'.setExit pid status) := by
  have hparent : ((sh.record pid).map ProcRecord.ppid).getD 0 =
      ((sh'.record pid).map ProcRecord.ppid).getD 0 := by
    have : ∀ o : Option ProcRecord, (o.map ProcRecord.unwoken).map ProcRecord.ppid =
        o.map ProcRecord.ppid := fun o => by cases o <;> rfl
    rw [← this, h.record pid, this]
  have hexits : Alike { sh with exits := sh.exits ++ [(pid, status)] }
      { sh' with exits := sh'.exits ++ [(pid, status)] } := by
    have he : sh.quiet.exits = sh'.quiet.exits := by rw [show sh.quiet = sh'.quiet from h]
    have hrest : { sh.quiet with exits := sh'.exits ++ [(pid, status)] } =
        { sh'.quiet with exits := sh'.exits ++ [(pid, status)] } := by rw [h]
    change { sh.quiet with exits := sh.quiet.exits ++ [(pid, status)] } = _
    rw [he]
    exact hrest
  have hexit := hexits.updateRecord pid (exitRecord status) fun _ => rfl
  have hreparent := hexit.mapTable (reparent pid) (fun _ => true)
    (fun r => by unfold reparent ProcRecord.unwoken; split <;> rfl) fun _ => rfl
  simp only [List.filter_true] at hreparent
  unfold Shared.setExit
  dsimp only
  rw [hparent, hreparent.isAlive]
  split
  · exact hreparent.updateRecord _ _ (raise_unwoken sigchld)
  · have := hreparent.mapTable id (fun r => r.pid != pid) (fun _ => rfl) fun _ => rfl
    simpa only [List.map_id] using this

theorem sendSignal (h : Alike sh sh') (me target signal : ℤ) :
    (sh.sendSignal me target signal).1 = (sh'.sendSignal me target signal).1 ∧
      Alike (sh.sendSignal me target signal).2 (sh'.sendSignal me target signal).2 := by
  have hgroup : ((sh.record me).map ProcRecord.pgid).getD me =
      ((sh'.record me).map ProcRecord.pgid).getD me := by
    have : ∀ o : Option ProcRecord, (o.map ProcRecord.unwoken).map ProcRecord.pgid =
        o.map ProcRecord.pgid := fun o => by cases o <;> rfl
    rw [← this, h.record me, this]
  have ht : sh.table.map ProcRecord.unwoken = sh'.table.map ProcRecord.unwoken :=
    congrArg Shared.table (show sh.quiet = sh'.quiet from h)
  unfold Shared.sendSignal
  dsimp only
  rw [hgroup]
  have hreach : ∀ r, signalReaches me (((sh'.record me).map ProcRecord.pgid).getD me) target r.unwoken =
      signalReaches me (((sh'.record me).map ProcRecord.pgid).getD me) target r := fun _ => rfl
  generalize signalReaches me (((sh'.record me).map ProcRecord.pgid).getD me) target = reaches at *
  refine ⟨?_, ?_⟩
  · have : ∀ rs : List ProcRecord, (rs.map ProcRecord.unwoken).any reaches = rs.any reaches :=
      fun rs => by simp [List.any_map, Function.comp_def, hreach]
    rw [← this, ht, this]
  · have := h.mapTable (fun r => if reaches r ∧ signal ≠ 0 then { r.raise signal with wakeAt := none } else r)
      (fun _ => true) (fun r => by
        rw [hreach]
        split
        · exact raise_unwoken signal r
        · rfl) fun _ => rfl
    simpa only [List.filter_true] using this

end Alike

theorem forkRecord_quiet (sh : Shared) (parent : Task) :
    sh.quiet.forkRecord parent = (sh.forkRecord parent).map fun r => (r.1, r.2.quiet) := by
  have halive : sh.quiet.table.countP ProcRecord.isAlive = sh.table.countP ProcRecord.isAlive := by
    rw [quiet, List.countP_map]
    rfl
  have hrecord : (sh.quiet.allocatePid.2.record parent.pid) =
      (sh.allocatePid.2.record parent.pid).map ProcRecord.unwoken :=
    record_quiet sh.allocatePid.2 parent.pid
  unfold forkRecord
  rw [halive]
  change (if sh.limits.processes ≤ _ then _ else _) = _
  split
  · rfl
  · dsimp only
    rw [hrecord]
    rcases sh.allocatePid.2.record parent.pid with _ | r <;>
      simp [allocatePid, quiet, ProcRecord.unwoken, ProcRecord.new]

end Shared

namespace Machine

def Alike (m m' : Machine) : Prop := m.quiet = m'.quiet

theorem Alike.view {m m' : Machine} (h : Alike m m') : m.view = m'.view := by
  have : ∀ m : Machine, m.quiet.view = m.view := fun m => by
    simp [Machine.view, quiet, setShared, Shared.quiet, ProcRecord.unwoken, Function.comp_def]
  rw [← this, h, this]

end Machine

namespace Machine

@[simp] theorem quiet_ctx (m : Machine) : m.quiet.ctx = m.ctx := rfl
@[simp] theorem quiet_inst (m : Machine) : m.quiet.inst = m.inst := rfl
@[simp] theorem quiet_shared (m : Machine) : m.quiet.shared = m.shared.quiet := rfl

theorem quiet_quiet (m : Machine) : m.quiet.quiet = m.quiet := by
  simp [quiet, setShared]

theorem openDesc_quiet (m : Machine) (kind : OpenKind) (path : Text) (flags : ℕ) (cloexec : Bool) :
    m.quiet.openDesc kind path flags cloexec =
      ((m.openDesc kind path flags cloexec).1, (m.openDesc kind path flags cloexec).2.quiet) := by
  have hdescs : m.quiet.shared.descs = m.shared.descs := rfl
  have hcap : m.quiet.descCap = m.descCap := rfl
  simp only [openDesc, hdescs, hcap]
  rcases m.shared.descs.insert (.new kind path flags) m.descCap with _ | ⟨key, descs⟩
  · rfl
  · dsimp only [quiet, setShared, Shared.quiet]
    rcases m.ctx.task.fds.alloc ⟨key, cloexec⟩ 0 m.shared.limits.openFiles with e | ⟨fd, fds⟩
    · exact congrArg (fun r : Option Handle × Shared =>
        ((.error (e, r.1), m.setShared r.2) : Except (Errno × Option Handle) ℤ × Machine))
        (Shared.releaseDesc_quiet { m.shared with descs := descs } key)
    · rfl

theorem dup_quiet (m : Machine) (fd : ℤ) (cloexec : Bool) (min : ℕ) :
    m.quiet.dup fd cloexec min = ((m.dup fd cloexec min).1, (m.dup fd cloexec min).2.quiet) := by
  simp only [dup, quiet_ctx]
  rcases m.ctx.task.fds.get fd with e | entry
  · rfl
  · dsimp only [quiet, setShared, Shared.quiet, Shared.addRef]
    rcases m.ctx.task.fds.alloc ⟨entry.desc, cloexec⟩ min m.shared.limits.openFiles with e | ⟨fd, fds⟩ <;>
      rfl

theorem dupTo_quiet (m : Machine) (fd target : ℤ) (cloexec : Bool) :
    m.quiet.dupTo fd target cloexec =
      ((m.dupTo fd target cloexec).1, (m.dupTo fd target cloexec).2.quiet) := by
  simp only [dupTo, quiet_ctx]
  rcases m.ctx.task.fds.get fd with e | entry
  · rfl
  · dsimp only [quiet, setShared, Shared.quiet, Shared.addRef]
    rcases m.ctx.task.fds.replace target ⟨entry.desc, cloexec⟩ m.shared.limits.openFiles with
      e | ⟨_ | old, fds⟩
    · rfl
    · rfl
    · exact congrArg (fun r : Option Handle × Shared =>
        ((.ok r.1, (m.setFds fds).setShared r.2) : Except Errno (Option Handle) × Machine))
        (Shared.releaseDesc_quiet (m.shared.addRef entry.desc) old.desc)

theorem close_quiet (m : Machine) (fd : ℤ) :
    m.quiet.close fd = ((m.close fd).1, (m.close fd).2.quiet) := by
  simp only [close, quiet_ctx]
  rcases m.ctx.task.fds.take fd with e | ⟨entry, fds⟩
  · rfl
  · exact congrArg (fun r : Option Handle × Shared =>
      ((.ok r.1, (m.setFds fds).setShared r.2) : Except Errno (Option Handle) × Machine))
      (Shared.releaseDesc_quiet m.shared entry.desc)

theorem pipe2_quiet (m : Machine) (flags : ℕ) :
    m.quiet.pipe2 flags = ((m.pipe2 flags).1, (m.pipe2 flags).2.quiet) := by
  have hpipes : m.quiet.shared.pipes = m.shared.pipes := rfl
  have hfiles : m.quiet.shared.limits.openFiles = m.shared.limits.openFiles := rfl
  simp only [pipe2, hpipes, hfiles]
  rcases m.shared.pipes.insert Pipe.new m.shared.limits.openFiles with _ | ⟨pipe, pipes⟩
  · rfl
  dsimp only [quiet, setShared, setFds, setTask, Shared.quiet, descCap]
  rcases m.shared.descs.insert (pipeDesc (.pipeRead pipe) oRdonly flags)
    (satMulU64 m.shared.limits.openFiles 4) with _ | ⟨r, descs⟩
  · rfl
  dsimp only
  rcases descs.insert (pipeDesc (.pipeWrite pipe) oWronly flags)
    (satMulU64 m.shared.limits.openFiles 4) with _ | ⟨w, descs⟩
  · rfl
  dsimp only
  rcases m.ctx.task.fds.alloc ⟨r, flags &&& oCloexec != 0⟩ 0 m.shared.limits.openFiles with e | ⟨fd, fds⟩
  · rfl
  dsimp only
  rcases fds.alloc ⟨w, flags &&& oCloexec != 0⟩ 0 m.shared.limits.openFiles with e | ⟨fd', fds'⟩
  · dsimp only
    rcases fds.take fd with e' | ⟨entry, fds'⟩
    · rfl
    · exact congrArg (fun r : Option Handle × Shared =>
        ((.error e, (m.setFds fds').setShared r.2) : Except Errno (ℤ × ℤ) × Machine))
        (Shared.releaseDesc_quiet { m.shared with pipes := pipes, descs := descs } entry.desc)
  · rfl

theorem fork_quiet (m : Machine) : m.quiet.fork = (m.fork.1, m.fork.2.quiet) := by
  simp only [fork, quiet_ctx, quiet_shared, Shared.forkRecord_quiet]
  rcases m.shared.forkRecord m.ctx.task with _ | ⟨pid, sh⟩
  · rfl
  · simp only [Option.map_some, Shared.duplicate_quiet]
    rfl

theorem vforkExit_quiet (m : Machine) (status : ℤ) :
    (m.quiet.vforkExit status).1 = (m.vforkExit status).1 ∧
      (m.quiet.vforkExit status).2.quiet = (m.vforkExit status).2.quiet := by
  simp only [vforkExit, quiet_ctx, quiet_shared, Shared.releaseFds, Shared.releaseAll_quiet]
  rcases m.ctx.vforkStack with _ | ⟨parent, rest⟩
  · exact ⟨rfl, quiet_quiet m⟩
  · have h : ((m.shared.releaseAll m.ctx.task.fds.drainAll.1).2.quiet).Alike
        (m.shared.releaseAll m.ctx.task.fds.drainAll.1).2 := Shared.quiet_quiet _
    exact ⟨rfl, congrArg (fun sh : Shared => ({ m with
      shared := sh, ctx := { m.ctx with task := parent, vforkStack := rest } } : Machine))
      (h.setExit m.ctx.task.pid status)⟩

theorem finishExec_quiet (m : Machine) (program : ProgramId) (exe : Text) (argv envp : List Bytes) :
    m.quiet.finishExec program exe argv envp =
      ((m.finishExec program exe argv envp).1, (m.finishExec program exe argv envp).2.quiet) := by
  simp only [finishExec, quiet_ctx, quiet_shared, Shared.releaseAll_quiet]
  rcases m.ctx.vforkStack with _ | ⟨parent, rest⟩ <;> rfl

end Machine

/-- No act reads how a process waits. -/
theorem Act.exec_quiet (a : Act) (m : Machine) :
    (a.exec m.quiet).1 = (a.exec m).1 ∧ (a.exec m.quiet).2.quiet = (a.exec m).2.quiet := by
  -- Most acts leave what is written down about waiting where it is.
  have through : a.exec m.quiet = ((a.exec m).1, (a.exec m).2.quiet) →
      (a.exec m.quiet).1 = (a.exec m).1 ∧ (a.exec m.quiet).2.quiet = (a.exec m).2.quiet :=
    fun h => by rw [h]; exact ⟨rfl, Machine.quiet_quiet _⟩
  have record : ∀ pid f, (∀ r : ProcRecord, (f r.unwoken).unwoken = (f r).unwoken) →
      (m.quiet.setShared (m.quiet.shared.updateRecord pid f)).quiet =
        (m.setShared (m.shared.updateRecord pid f)).quiet := fun pid f hf =>
    congrArg (fun sh => ({ m with shared := sh } : Machine)) (m.shared.updateRecord_quiet pid f hf)
  have alike : m.shared.quiet.Alike m.shared := m.shared.quiet_quiet
  cases a with
  | view => exact ⟨Machine.Alike.view (m.quiet_quiet), m.quiet_quiet⟩
  | put start data =>
    refine through ?_
    simp only [Act.exec, Machine.quiet_inst]
    rcases m.inst.mem.put start data <;> rfl
  | charge bytes =>
    refine through ?_
    by_cases h : m.shared.limits.memory < satAddU64 m.shared.memoryUsed bytes
    · have h' : m.quiet.shared.limits.memory < satAddU64 m.quiet.shared.memoryUsed bytes := h
      simp only [Act.exec, Shared.chargeMemory, if_pos h, if_pos h']
      rfl
    · have h' : ¬ m.quiet.shared.limits.memory < satAddU64 m.quiet.shared.memoryUsed bytes := h
      simp only [Act.exec, Shared.chargeMemory, if_neg h, if_neg h']
      rfl
  | setCloexec fd on =>
    refine through ?_
    simp only [Act.exec, Machine.quiet_ctx]
    rcases m.ctx.task.fds.setCloexec fd on <;> rfl
  | openDesc kind path flags cloexec => exact through (m.openDesc_quiet kind path flags cloexec)
  | dup fd cloexec min => exact through (m.dup_quiet fd cloexec min)
  | dupTo fd target cloexec => exact through (m.dupTo_quiet fd target cloexec)
  | close fd => exact through (m.close_quiet fd)
  | pipe2 flags => exact through (m.pipe2_quiet flags)
  | writeOutput which data =>
    refine through ?_
    simp only [Act.exec, Shared.writeOutput]
    split <;> rfl
  | raise signal => exact ⟨rfl, record _ _ (Shared.Alike.raise_unwoken signal)⟩
  | sendSignal target signal =>
    have := alike.sendSignal m.ctx.task.pid target signal
    exact ⟨this.1, congrArg (fun sh => ({ m with shared := sh } : Machine)) this.2⟩
  | dropPending set => exact ⟨rfl, record _ _ fun _ => rfl⟩
  | setPgid target group => exact ⟨rfl, record _ _ fun _ => rfl⟩
  | setSid => exact ⟨rfl, record _ _ fun _ => rfl⟩
  | setWake limit => exact ⟨rfl, record _ _ fun _ => rfl⟩
  | reap child =>
    have := alike.mapTable id (fun r => r.pid != child) (fun _ => rfl) fun _ => rfl
    simp only [List.map_id] at this
    exact ⟨rfl, congrArg (fun sh => ({ m with shared := sh } : Machine)) this⟩
  | fork => exact through m.fork_quiet
  | vforkExit status => exact m.vforkExit_quiet status
  | finishExec program exe argv envp => exact through (m.finishExec_quiet program exe argv envp)
  | served | noteVfsPending | wantStdin => exact ⟨rfl, m.quiet_quiet⟩
  | _ => exact through rfl

namespace Machine
variable {W : Type} (x : Env W)

theorem exec_alike (o : Op) {m m' : Machine} (h : Alike m m') (w : W) :
    (exec x o (m, w)).1 = (exec x o (m', w)).1 ∧
      (exec x o (m, w)).2.2 = (exec x o (m', w)).2.2 ∧
      Alike (exec x o (m, w)).2.1 (exec x o (m', w)).2.1 := by
  cases o with
  | env c =>
    have : m.shared.mounts = m'.shared.mounts := congrArg View.mounts h.view
    simp only [exec_env, this]
    exact ⟨trivial, trivial, h⟩
  | act a =>
    obtain ⟨h1, h2⟩ := a.exec_quiet m
    obtain ⟨h1', h2'⟩ := a.exec_quiet m'
    rw [show m.quiet = m'.quiet from h] at h1 h2
    exact ⟨h1.symm.trans h1', rfl, h2.symm.trans h2'⟩

theorem run_alike {ε α : Type} (p : Program sig ε α) {m m' : Machine} (h : Alike m m') (w : W) :
    (p.run (exec x) (m, w)).1 = (p.run (exec x) (m', w)).1 ∧
      (p.run (exec x) (m, w)).2.2 = (p.run (exec x) (m', w)).2.2 ∧
      Alike (p.run (exec x) (m, w)).2.1 (p.run (exec x) (m', w)).2.1 := by
  have := Program.run_related (exec x) (E := fun s t => s.2 = t.2 ∧ Alike s.1 t.1)
    (fun o s t hst => by
      obtain ⟨m, w⟩ := s
      obtain ⟨m', w'⟩ := t
      obtain ⟨hw, hm⟩ := hst
      cases hw
      exact exec_alike x o hm w) p (s := (m, w)) (t := (m', w)) ⟨rfl, h⟩
  exact this

end Machine
end Wasmux
