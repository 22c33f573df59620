import Wasmux.Opening
import Wasmux.Passing

/-!
# The two ways of an `execve`

An `execve` looks for what it is to start, and has changed nothing by the time
it has found it. Then a `vfork` child is handed to the scheduler and a process
of its own asks to be replaced. What either becomes depends on its task and on
what was found, and not on the way.
-/

set_option autoImplicit false

namespace Wasmux
open Effects Abi

namespace Sys

/-- The part of a script that its interpreter is read from. -/
def scriptHead (mount : ℕ) (rel : Text) : Handler Bytes := do
  let file ← vfsAsk mount (.openFile rel .readOnly)
  let (n, buf) ← fileAsk file (.read 256)
  let _ ← env (.file file .close)
  return prefixOrEmpty (fitBuffer 256 buf) n

/-- The interpreter that the head of a script names. -/
def interpreter (path : Text) (argv envp : List Bytes) (head : Bytes) : Handler (ProgramId × Given) :=
  match shebang head with
  | none => fail .noexec
  | some line => do
    match ← resolve atFdcwd (splitAtSpace line).1 true with
    | .program id guest => return (id, ⟨scriptArgv line path argv, envp, guest⟩)
    | _ => fail .noexec

/-- The head of what is mounted there, unless it is a directory. -/
def mountedHead (mount : ℕ) (rel : Text) : Handler Bytes := do
  match ← env (.vfs mount (.stat rel true)) with
  | .ok stat => if stat.fileType = .dir then fail .acces else scriptHead mount rel
  | .error _ => scriptHead mount rel

/-- What an `execve` is to start. -/
def sought (a : Args) : Handler (ProgramId × Given) := do
  let v ← view
  let path ← lift (v.mem.cstr (asU32 a.a0))
  let argv ← lift (v.mem.cstrArray (asU32 a.a1))
  let envp ← lift (v.mem.cstrArray (asU32 a.a2))
  match ← resolve atFdcwd path true with
  | .program id guest => return (id, ⟨argv, envp, guest⟩)
  | .mounted mount rel _ => mountedHead mount rel >>= interpreter path argv envp
  | _ => fail .acces

def start (r : ProgramId × Given) : Handler ℤ := finishExec r.1 r.2.exe r.2.argv r.2.envp

theorem execScript_eq (mount : ℕ) (rel path : Text) (argv envp : List Bytes) :
    execScript mount rel path argv envp = scriptHead mount rel >>= fun head =>
    interpreter path argv envp head >>= start := by
  have hhead : ∀ head : Bytes, (match shebang head with
      | none => fail .noexec
      | some line => resolve atFdcwd (splitAtSpace line).1 true >>= fun node => match node with
        | .program id guest => finishExec id guest (scriptArgv line path argv) envp
        | _ => fail .noexec : Handler ℤ) = interpreter path argv envp head >>= start := by
    intro head
    unfold interpreter
    split
    · rfl
    · rw [Program.bind_assoc]
      congr 1
      funext node
      cases node <;> rfl
  unfold scriptHead
  rw [Program.bind_assoc]
  refine congrArg (vfsAsk mount (.openFile rel .readOnly) >>= ·) (funext fun file => ?_)
  rw [Program.bind_assoc]
  refine congrArg (fileAsk file (.read 256) >>= ·) (funext fun r => ?_)
  rw [Program.bind_assoc]
  exact congrArg (env (.file file .close) >>= ·) (funext fun _ => hhead _)

theorem mounted_eq (mount : ℕ) (rel path : Text) (argv envp : List Bytes) :
    (env (.vfs mount (.stat rel true)) >>= fun r => match r with
      | .ok stat => if stat.fileType = .dir then fail .acces else execScript mount rel path argv envp
      | .error _ => execScript mount rel path argv envp : Handler ℤ) =
    (mountedHead mount rel >>= interpreter path argv envp) >>= start := by
  rw [Program.bind_assoc]
  unfold mountedHead
  rw [Program.bind_assoc]
  refine congrArg (env (.vfs mount (.stat rel true)) >>= ·) (funext fun r => ?_)
  rcases r with e | stat
  · exact execScript_eq mount rel path argv envp
  · dsimp only
    split
    · rfl
    · exact execScript_eq mount rel path argv envp

theorem execve_eq (a : Args) : execve a = sought a >>= start := by
  unfold execve sought
  rw [Program.bind_assoc]
  refine congrArg (view >>= ·) (funext fun v => ?_)
  rw [Program.bind_assoc]
  refine congrArg (lift (v.mem.cstr (asU32 a.a0)) >>= ·) (funext fun path => ?_)
  rw [Program.bind_assoc]
  refine congrArg (lift (v.mem.cstrArray (asU32 a.a1)) >>= ·) (funext fun argv => ?_)
  rw [Program.bind_assoc]
  refine congrArg (lift (v.mem.cstrArray (asU32 a.a2)) >>= ·) (funext fun envp => ?_)
  rw [Program.bind_assoc]
  refine congrArg (resolve atFdcwd path true >>= ·) (funext fun node => ?_)
  cases node with
  | mounted mount rel guest => exact mounted_eq mount rel path argv envp
  | _ => rfl

theorem inquires_scriptHead (mount : ℕ) (rel : Text) : (scriptHead mount rel).Only Op.inquires := by
  have hopen : (vfsAsk mount (.openFile rel .readOnly)).Only Op.inquires :=
    ⟨trivial, fun r => inquires_of_glances (glances_orVfsFault r)⟩
  have hread : ∀ file : Handle, (fileAsk file (.read 256)).Only Op.inquires := fun _ =>
    ⟨trivial, fun r => inquires_of_glances (glances_orVfsFault r)⟩
  refine Program.only_bind hopen fun file => Program.only_bind (hread file) fun _ => ?_
  exact ⟨trivial, fun _ => trivial⟩

theorem inquires_mountedHead (mount : ℕ) (rel : Text) : (mountedHead mount rel).Only Op.inquires := by
  refine Program.only_bind (p := env _) ⟨trivial, fun _ => trivial⟩ ?_
  rintro (e | stat)
  · exact inquires_scriptHead mount rel
  · dsimp only
    split
    · trivial
    · exact inquires_scriptHead mount rel

theorem inquires_interpreter (path : Text) (argv envp : List Bytes) (head : Bytes) :
    (interpreter path argv envp head).Only Op.inquires := by
  unfold interpreter
  split
  · trivial
  · refine Program.only_bind (inquires_of_looks (looks_resolve _ _ _)) fun node => ?_
    cases node <;> trivial

theorem inquires_sought (a : Args) : (sought a).Only Op.inquires := by
  have hlift : ∀ {α : Type} (r : Except Errno α), (lift r).Only Op.inquires := fun r =>
    inquires_of_glances (glances_lift r)
  refine Program.only_bind (p := view) ⟨trivial, fun _ => trivial⟩ fun v => ?_
  refine Program.only_bind (hlift _) fun path => Program.only_bind (hlift _) fun argv => ?_
  refine Program.only_bind (hlift _) fun envp =>
    Program.only_bind (inquires_of_looks (looks_resolve _ _ _)) fun node => ?_
  cases node with
  | mounted mount rel guest =>
    exact Program.only_bind (inquires_mountedHead mount rel) fun head =>
      inquires_interpreter path argv envp head
  | _ => trivial

end Sys

def Fault.refuses : Fault → Prop
  | .errno _ | .block => True
  | _ => False

section
variable {α : Type}

theorem refuses_lift (r : Except Errno α) : (lift r).Throws Fault.refuses := by
  cases r <;> trivial

theorem refuses_orVfsFault (r : Except Errno α) : (orVfsFault r).Throws Fault.refuses := by
  cases r with
  | ok a => trivial
  | error e =>
    simp only [orVfsFault, vfsFault]
    split
    · exact fun _ => trivial
    · trivial

theorem refuses_env {c : EnvCall} {f : c.Ans → Handler α} (hf : ∀ r, (f r).Throws Fault.refuses) :
    (env c >>= f).Throws Fault.refuses := hf

theorem refuses_resolve (dirfd : ℤ) (path : Text) (follow : Bool) :
    (resolve dirfd path follow).Throws Fault.refuses := by
  refine Program.throws_bind (p := view) (fun _ => trivial) fun v =>
    Program.throws_bind (refuses_lift _) fun base => ?_
  refine Program.throws_bind ?_ refuses_orVfsFault
  generalize (Resolver.resolve v base path follow) = p
  induction p with
  | ret | fail => trivial
  | call o k ih => exact ih

end

namespace Sys

theorem refuses_scriptHead (mount : ℕ) (rel : Text) : (scriptHead mount rel).Throws Fault.refuses := by
  refine Program.throws_bind (refuses_env refuses_orVfsFault) fun file => ?_
  exact Program.throws_bind (refuses_env refuses_orVfsFault) fun _ => refuses_env fun _ => trivial

theorem refuses_mountedHead (mount : ℕ) (rel : Text) : (mountedHead mount rel).Throws Fault.refuses := by
  apply refuses_env
  rintro (e | stat)
  · exact refuses_scriptHead mount rel
  · dsimp only
    split
    · trivial
    · exact refuses_scriptHead mount rel

theorem refuses_interpreter (path : Text) (argv envp : List Bytes) (head : Bytes) :
    (interpreter path argv envp head).Throws Fault.refuses := by
  unfold interpreter
  split
  · trivial
  · refine Program.throws_bind (refuses_resolve _ _ _) fun node => ?_
    cases node <;> trivial

theorem refuses_sought (a : Args) : (sought a).Throws Fault.refuses := by
  refine Program.throws_bind (p := view) (fun _ => trivial) fun v =>
    Program.throws_bind (refuses_lift _) fun path => ?_
  refine Program.throws_bind (refuses_lift _) fun argv => Program.throws_bind (refuses_lift _) fun envp => ?_
  refine Program.throws_bind (refuses_resolve _ _ _) fun node => ?_
  cases node with
  | mounted mount rel guest =>
    exact Program.throws_bind (refuses_mountedHead mount rel) fun head =>
      refuses_interpreter path argv envp head
  | _ => trivial

end Sys

def Task.successor (t : Task) (g : Given) : Task :=
  ({ t with fds := t.fds.drainCloexec.2, exe := g.exe, comm := fromUtf8Lossy (g.argv.head?.getD []) } :
    Task).resetHandlersForExec

/-- A process that has just taken the place of a task, for what it was given: it
has the task's identity and settings, its descriptors but those to be closed, and
none of its handlers. -/
structure Ctx.Begins (c : Ctx) (t : Task) (g : Given) : Prop where
  task : c.task = t.successor g
  pid : c.task.pid = t.pid
  cwd : c.task.cwd = t.cwd
  umask : c.task.umask = t.umask
  sigmask : c.task.sigmask = t.sigmask
  sigact : ∀ signal, c.task.sigact signal = if (t.sigact signal).handler =
    sigIgn then t.sigact signal else default
  fds : ∀ fd entry, c.task.fds.get fd = .ok entry ↔ t.fds.get fd = .ok entry ∧ entry.cloexec = false
  exe : c.task.exe = g.exe
  argv : c.argv = g.argv
  envp : c.envp = g.envp
  alone : c.vforkStack = []
  settled : c.execRequest = none

namespace FdTable

theorem get_ok_iff {t : FdTable} {fd : ℤ} {entry : Fd} :
    t.get fd = .ok entry ↔ 0 ≤ fd ∧ t.slots[fd.toNat]? = some (some entry) := by
  unfold get
  by_cases hfd : fd < 0
  · rw [if_pos hfd]
    constructor
    · intro h
      cases h
    · intro h
      omega
  · rw [if_neg hfd]
    split
    · rename_i found hfound
      rw [hfound]
      simp only [Except.ok.injEq, Option.some.injEq]
      exact ⟨fun h => ⟨by omega, h⟩, And.right⟩
    · rename_i hnone
      constructor
      · intro h
        cases h
      · exact fun h => absurd h.2 (hnone entry)

/-- Of a table only what is not to be closed is left. -/
theorem get_drainCloexec {t : FdTable} {fd : ℤ} {entry : Fd} :
    t.drainCloexec.2.get fd = .ok entry ↔ t.get fd = .ok entry ∧ entry.cloexec = false := by
  rw [get_ok_iff, get_ok_iff, and_assoc]
  refine and_congr_right fun _ => ?_
  rw [drainCloexec, List.getElem?_map]
  cases hslot : t.slots[fd.toNat]? with
  | none => simp
  | some slot =>
    cases slot with
    | none => simp
    | some found =>
      simp only [Option.map_some, Option.some.injEq, Option.filter_eq_some_iff]
      constructor
      · rintro ⟨rfl, hopen⟩
        exact ⟨rfl, by simpa using hopen⟩
      · rintro ⟨rfl, hopen⟩
        exact ⟨rfl, by simpa using hopen⟩

end FdTable

def Machine.request (m : Machine) (program : ProgramId) (g : Given) : Spawn :=
  ⟨{ m.ctx.task with fds := m.ctx.task.fds.drainCloexec.2 }, program, g.exe, g.argv, g.envp⟩

theorem begins_procOf (m : Machine) (program : ProgramId) (g : Given) (launch : Launch) :
    (Kernel.procOf (m.request program g) launch).ctx.Begins m.ctx.task g := by
  cases launch <;>
    exact ⟨rfl, rfl, rfl, rfl, rfl, fun _ => rfl, fun _ _ =>
      FdTable.get_drainCloexec, rfl, rfl, rfl, rfl, rfl⟩

def Place.waits : Place → Bool
  | .running _ => false
  | _ => true

theorem Place.waits_past {gone : ℕ} {place place' : Place} (h : place.waits = true)
    (hpast : place.past gone = some place') :
    place'.waits = true := by
  cases place with
  | queued position => exact Option.some.inj hpast ▸ rfl
  | asked index =>
    obtain ⟨i, -, rfl⟩ := Option.map_eq_some_iff.mp hpast
    rfl
  | running index => cases h

section
variable {W : Type} {x : Env W} {k : Kernel} {w : W} {place : Place} {spawn : Spawn} {i : ℕ}

/-- What is taken from waiting to running is a process made of its request. -/
theorem Kernel.Holds.launched {R : Ctx → Prop} {o : KOp} (h : k.Holds (fun found => found = spawn) R place)
    (hwaits : place.waits = true) (hnext : place.next k o = some (.running i)) :
    ∃ launch, (kexec x o (k, w)).2.1.procs[i]? = some (Kernel.procOf spawn launch) := by
  have hstill : ∀ {place' : Place}, place' = .running i → place'.waits = true → False := by
    rintro place' rfl hrunning
    cases hrunning
  cases o with
  | machine index o =>
    simp only [Place.next] at hnext
    split at hnext
    · cases hnext
    · exact (hstill (Option.some.inj hnext) hwaits).elim
  | env c => exact (hstill (Option.some.inj hnext) hwaits).elim
  | act a =>
    cases a with
    | launchSpawn launch =>
      simp only [Place.next] at hnext
      cases place with
      | queued position =>
        cases position with
        | zero =>
          obtain rfl : k.procs.length = i := by simpa [Place.dequeued] using hnext
          obtain ⟨found, hfirst, rfl⟩ := h
          cases hqueue : k.shared.spawn with
          | nil => simp [hqueue] at hfirst
          | cons first rest =>
            obtain rfl : first = found := by simpa [hqueue] using hfirst
            refine ⟨launch, ?_⟩
            simp only [kexec_act, KAct.exec, hqueue]
            exact List.getElem?_concat_length
        | succ position => exact (hstill (Option.some.inj hnext) rfl).elim
      | asked index => exact (hstill (Option.some.inj hnext) rfl).elim
      | running index => cases hwaits
    | abandonSpawn =>
      simp only [Place.next] at hnext
      cases place with
      | queued position =>
        cases position with
        | zero => cases hnext
        | succ position => exact (hstill (Option.some.inj hnext) rfl).elim
      | asked index => exact (hstill (Option.some.inj hnext) rfl).elim
      | running index => cases hwaits
    | launchExec index launch =>
      simp only [Place.next] at hnext
      cases place with
      | queued position =>
        have hsame : Place.queued position = .running i := by split at hnext <;> exact Option.some.inj hnext
        exact (hstill hsame rfl).elim
      | asked j =>
        obtain ⟨p, found, hp, hasked, rfl⟩ := h
        by_cases hj : j = index
        · subst hj
          have hasks : k.asks j = true := by simp [Kernel.asks, hp, hasked]
          rw [if_pos hasks] at hnext
          obtain rfl : j = i := by simpa [Place.replaced] using hnext
          refine ⟨launch, ?_⟩
          simp [kexec_act, KAct.exec, Kernel.modifyProc, hp, Kernel.relaunch, hasked]
        · have hsame : Place.asked j = .running i := by
            split at hnext
            · rw [Place.replaced, if_neg hj] at hnext
              exact Option.some.inj hnext
            · exact Option.some.inj hnext
          exact (hstill hsame rfl).elim
      | running index => cases hwaits
    | abandonExec index | finishProcess index =>
      simp only [Place.next] at hnext
      split at hnext
      · exact (hstill rfl (Place.waits_past hwaits hnext)).elim
      · exact (hstill (Option.some.inj hnext) hwaits).elim
    | _ => exact (hstill (Option.some.inj hnext) hwaits).elim

theorem finishExec_answer (m : Machine) (program : ProgramId) (exe : Text) (argv envp : List Bytes) :
    (m.finishExec program exe argv envp).1.1.elim (.error .exec) .ok =
      (if m.ctx.vforkStack = [] then .error .exec else .ok m.ctx.task.pid : Except Fault ℤ) := by
  unfold Machine.finishExec
  cases m.ctx.vforkStack <;> rfl

/-- The request is found where the end of an `execve` puts it. -/
theorem holds_finishExec {index : ℕ} {p : Proc} (hp : k.procs[index]? = some p) {m : Machine}
    (hm : (k.machineOf p).Noting m) (program : ProgramId) (g : Given) :
    Kernel.Holds (k.putMachine index (m.finishExec program g.exe g.argv g.envp).2)
      (fun found => found = (k.machineOf p).request program g) (fun _ => True) (k.entrusted index p) := by
  have hctx : m.ctx = p.ctx := hm.ctx
  have hqueue : m.shared.spawn = k.shared.spawn := by
    rw [hm.shared]
    rfl
  unfold Kernel.entrusted
  split
  · rename_i halone
    refine ⟨_, _, Kernel.putMachine_proc hp _, ?_, rfl⟩
    simp only [Machine.finishExec, hctx, halone]
    rfl
  · rename_i hchild
    obtain ⟨parent, rest, hstack⟩ := List.exists_cons_of_ne_nil hchild
    refine ⟨_, ?_, rfl⟩
    simp only [Machine.finishExec, hctx, hstack, Kernel.putMachine, Shared.releaseAll_spawn, hqueue,
      List.getElem?_concat_length]
    rfl

theorem program_interpreter {path : Text} {argv envp : List Bytes} {head : Bytes} {s t : Machine × W}
    {program : ProgramId} {g : Given}
    (h : (Sys.interpreter path argv envp head).run (exec x) s = (.ok (program, g), t)) :
    s.1.shared.overlay.program g.exe = some program := by
  unfold Sys.interpreter at h
  split at h
  · cases h
  · obtain ⟨node, t', hnode, hlast⟩ := Program.run_bind_eq_ok (exec x) h
    cases node with
    | program id guest =>
      obtain ⟨rfl, rfl⟩ := Prod.mk.inj (Except.ok.inj (Prod.mk.inj hlast).1)
      exact (resolve_program (congrArg Prod.fst hnode)).2
    | _ => cases hlast

/-- The program that is sought is the one that the overlay has at its path. -/
theorem program_sought {a : Args} {s t : Machine × W} {program : ProgramId} {g : Given}
    (h : (Sys.sought a).run (exec x) s = (.ok (program, g), t)) :
    s.1.shared.overlay.program g.exe = some program := by
  have hlift : ∀ {α : Type} (r : Except Errno α), (lift r).Only Op.inquires := fun r =>
    inquires_of_glances (glances_lift r)
  obtain ⟨v, s₁, hview, h⟩ := Program.run_bind_eq_ok (exec x) h
  obtain ⟨path, s₂, hpath, h⟩ := Program.run_bind_eq_ok (exec x) h
  obtain ⟨argv, s₃, hargv, h⟩ := Program.run_bind_eq_ok (exec x) h
  obtain ⟨envp, s₄, henvp, h⟩ := Program.run_bind_eq_ok (exec x) h
  obtain ⟨node, s₅, hnode, h⟩ := Program.run_bind_eq_ok (exec x) h
  have hbefore : s.1.Noting s₄.1 :=
    ((noting_of_run (p := view) ⟨trivial, fun _ => trivial⟩ hview).trans
      (noting_of_run (hlift _) hpath)).trans
      ((noting_of_run (hlift _) hargv).trans (noting_of_run (hlift _) henvp))
  rw [← hbefore.overlay]
  cases node with
  | program id guest =>
    obtain ⟨rfl, rfl⟩ := Prod.mk.inj (Except.ok.inj (Prod.mk.inj h).1)
    exact (resolve_program (congrArg Prod.fst hnode)).2
  | mounted mount rel guest =>
    obtain ⟨head, s₆, hhead, h⟩ := Program.run_bind_eq_ok (exec x) h
    have hresolve := noting_of_run (inquires_of_looks (looks_resolve _ _ _)) hnode
    have hscript := noting_of_run (Sys.inquires_mountedHead mount rel) hhead
    rw [← (hresolve.trans hscript).overlay]
    exact program_interpreter h
  | _ => cases h

/-- An `execve` that fails leaves the caller and the session as they were. One
that does not starts a program that the overlay has at the path that is kept.
Whether the caller was a `vfork` child or gives up its own instance, and
whatever happens meanwhile, what the program starts as depends in the same way
on the caller's task and on what was sought. -/
theorem execve_atomic {index : ℕ} {p : Proc} {number : ℤ} {a : Args} {r : Except Fault ℤ}
    {m : Machine} {w' : W} (hp : k.procs[index]? = some p) (hcall : Nr.ofInt number = .execve)
    (hrun : (handle number a).run (exec x) (k.machineOf p, w) = (r, (m, w'))) :
    (∃ f, f ≠ .exec ∧ r = .error f ∧ (k.machineOf p).Noting m) ∨
    ∃ program g t, (Sys.sought a).run (exec x) (k.machineOf p, w) = (.ok (program, g), t) ∧
      k.shared.overlay.program g.exe = some program ∧
      r = (if p.ctx.vforkStack = [] then .error .exec else .ok p.ctx.task.pid) ∧
      ∀ (l : Kernel) (v : W) (place : Place), place.waits = true →
        Carried x (k.putMachine index m, w') (k.entrusted index p) (l, v) place →
        l.Holds (fun found => found.program = program ∧ found.given = g) (fun _ => True) place ∧
        ∀ (o : KOp) (i : ℕ), place.next l o = some (.running i) →
          ∃ q, (kexec x o (l, v)).2.1.procs[i]? = some q ∧ q.ctx.Begins p.ctx.task g := by
  have hhandle : handle number a = Sys.sought a >>= Sys.start := by
    unfold handle
    rw [hcall]
    exact Sys.execve_eq a
  rw [hhandle, Program.run_bind] at hrun
  cases hsought : (Sys.sought a).run (exec x) (k.machineOf p, w) with
  | mk found t =>
    have hnoting : (k.machineOf p).Noting t.1 := noting_of_run (Sys.inquires_sought a) hsought
    rw [hsought] at hrun
    cases found with
    | error f =>
      left
      obtain ⟨rfl, ht⟩ := Prod.mk.inj hrun
      have hrefuses : f.refuses := (Sys.refuses_sought a).run_error (exec x) (congrArg Prod.fst hsought)
      refine ⟨f, ?_, rfl, by rwa [ht] at hnoting⟩
      rintro rfl
      exact hrefuses
    | ok found =>
      right
      obtain ⟨program, g⟩ := found
      obtain ⟨m', w''⟩ := t
      have hctx : m'.ctx = p.ctx := hnoting.ctx
      obtain ⟨w₁, hstart⟩ := run_finishExec (x := x) program g.exe g.argv g.envp m' w''
      obtain ⟨rfl, hend⟩ := Prod.mk.inj (hrun.symm.trans hstart)
      obtain ⟨rfl, rfl⟩ := Prod.mk.inj hend
      refine ⟨program, g, _, rfl, program_sought hsought, ?_, ?_⟩
      · rw [finishExec_answer, hctx]
      · intro l v place hwaits hcarried
        have hheld : l.Holds (fun found => found = (k.machineOf p).request program g) (fun _ => True) place :=
          hcarried.holds ⟨fun _ _ _ => trivial, fun _ _ _ => trivial, fun _ _ _ _ => trivial⟩
            (holds_finishExec hp hnoting program g)
        constructor
        · cases place with
          | queued position =>
            obtain ⟨found, hfound, rfl⟩ := hheld
            exact ⟨_, hfound, rfl, rfl⟩
          | asked j =>
            obtain ⟨q, found, hq, hfound, rfl⟩ := hheld
            exact ⟨q, _, hq, hfound, rfl, rfl⟩
          | running j => cases hwaits
        · intro o i hnext
          obtain ⟨launch, hq⟩ := hheld.launched (x := x) (w := v) hwaits hnext
          exact ⟨_, hq, begins_procOf (k.machineOf p) program g launch⟩

end

/-- A guest replaces itself with the one program there is. -/
theorem execve_atomic_alone : ∃ (g : Given) (q : Proc), g.exe = ascii "/bin/0" ∧
    g.argv = [ascii "0", ascii "-c"] ∧
    q.ctx.Begins Proc.oneGuest.ctx.task g := by
  have hp : Kernel.oneGuest.procs[0]? = some Proc.oneGuest := rfl
  have hcall : Nr.ofInt 221 = .execve := rfl
  have hsought : ((Sys.sought ⟨0, 8, 20, 0, 0, 0⟩).run (exec (Env.still Unit))
    (Kernel.oneGuest.machineOf Proc.oneGuest, ())).1 =
      .ok (0, ⟨[ascii "0", ascii "-c"], [ascii "A=1"], ascii "/bin/0"⟩) := by decide +kernel
  obtain ⟨r, m, w, hrun⟩ : ∃ r m w, (handle 221 ⟨0, 8, 20, 0, 0, 0⟩).run (exec (Env.still Unit))
    (Kernel.oneGuest.machineOf Proc.oneGuest, ()) = (r, (m, w)) := ⟨_, _, _, rfl⟩
  have hexec : r = .error .exec := by
    have hends : ((handle 221 ⟨0, 8, 20, 0, 0, 0⟩).run (exec (Env.still Unit))
      (Kernel.oneGuest.machineOf Proc.oneGuest, ())).1 = .error .exec := by decide +kernel
    exact (congrArg Prod.fst hrun).symm.trans hends
  rcases execve_atomic hp hcall hrun with ⟨f, hf, hr, -⟩ | ⟨program, g, t, hfound, -, -, hall⟩
  · exact absurd (Except.error.inj (hr.symm.trans hexec)) hf
  · obtain ⟨-, rfl⟩ := Prod.mk.inj (Except.ok.inj ((congrArg Prod.fst hfound).symm.trans hsought))
    have hnext : Place.next (Kernel.oneGuest.putMachine 0 m)
        (.act (.launchExec 0 (.guest default 0 0))) (.asked 0) = some (.running 0) := by
      obtain ⟨q, found, hq, hasked, -⟩ := (hall _ _ (.asked 0) rfl (.here _ _)).1
      simp [Place.next, Kernel.asks, hq, hasked, Place.replaced]
    obtain ⟨q, -, hbegins⟩ := (hall _ _ (.asked 0) rfl (.here _ _)).2 _ 0 hnext
    exact ⟨_, q, rfl, rfl, hbegins⟩

end Wasmux
