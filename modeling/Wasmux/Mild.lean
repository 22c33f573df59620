import Wasmux.Dispatch
import Wasmux.Unmounted

/-!
# Handlers that are mild

A mild operation opens no descriptor on a node, leaves the flags of
descriptions alone, writes no file and moves nothing through a pipe. All of the
table is mild but eight calls: the four that read and write, `ftruncate`,
`openat`, and the two that set flags.
-/

set_option autoImplicit false

namespace Wasmux
open Effects Abi

def Op.mild : Op → Prop
  | .env (.file _ call) => call.writes = false
  | .env _ => True
  | .act (.openDesc _ _ _ _) | .act (.setDescFlags _ _) | .act (.pipeTake _ _) | .act (.pipePut _ _) => False
  | .act _ => True

theorem Op.domestic.mild {o : Op} (h : o.domestic) : o.mild := by
  cases o with
  | env c =>
    cases c with
    | file => exact h
    | _ => trivial
  | act a =>
    cases a with
    | openDesc | setDescFlags | pipeTake | pipePut => exact h
    | _ => trivial

def VfsCall.removes : VfsCall → Bool
  | .unlink _ | .rmdir _ | .rename _ _ => true
  | _ => false

/-- The domestic operations, and what else may be asked of a mount than to take a name away. -/
def Op.gentle : Op → Prop
  | .env (.vfs _ call) => call.removes = false
  | o => o.domestic

theorem Op.domestic.gentle {o : Op} (h : o.domestic) : o.gentle := by
  cases o with
  | env c =>
    cases c with
    | vfs => cases h
    | _ => exact h
  | act a => exact h

theorem Op.gentle.mild {o : Op} (h : o.gentle) : o.mild := by
  cases o with
  | env c =>
    cases c with
    | vfs => trivial
    | _ => exact Op.domestic.mild h
  | act a => exact Op.domestic.mild h

/-- What looks at the mounts as well, and changes nothing there. -/
def Op.looks : Op → Prop
  | .env (.vfs _ call) => call.writes = false
  | o => o.glances

theorem Op.glances.looks {o : Op} (h : o.glances) : o.looks := by
  cases o with
  | env c =>
    cases c with
    | vfs => cases h
    | _ => exact h
  | act a => exact h

theorem VfsCall.removes_of_writes {call : VfsCall} (h : call.writes = false) : call.removes = false := by
  cases call with
  | unlink | rmdir | rename => cases h
  | _ => rfl

theorem Op.looks.gentle {o : Op} (h : o.looks) : o.gentle := by
  cases o with
  | env c =>
    cases c with
    | vfs => exact VfsCall.removes_of_writes h
    | file => cases h
    | _ => trivial
  | act a => exact (Op.glances.domestic (o := .act a) h).gentle

def Op.peeks : Op → Prop
  | .env (.vfs _ _) => True
  | o => o.glances

theorem Op.looks.peeks {o : Op} (h : o.looks) : o.peeks := by
  cases o with
  | env c =>
    cases c with
    | vfs => trivial
    | _ => exact h
  | act a => exact h

/-- The operations that ask, and note no more than that a mount is to be asked again. -/
def Op.inquires : Op → Prop
  | .env _ => True
  | o => o.glances

theorem Op.peeks.inquires {o : Op} (h : o.peeks) : o.inquires := by
  cases o with
  | env => trivial
  | act => exact h

theorem Op.peeks.mild {o : Op} (h : o.peeks) : o.mild := by
  cases o with
  | env c =>
    cases c with
    | file => cases h
    | _ => trivial
  | act a => exact (Op.glances.domestic (o := .act a) h).mild

theorem Op.looks.mild {o : Op} (h : o.looks) : o.mild := h.peeks.mild

theorem Op.peeks.lawful {P : Op → Prop} {o : Op} (h : o.peeks) (hP : P o) : o.lawful P := by
  cases o with
  | env => exact hP
  | act a =>
    cases a with
    | setAction => cases h
    | _ => exact hP

section
variable {ε α β : Type}

theorem looks_of_glances {p : Program sig ε α} (h : p.Only Op.glances) : p.Only Op.looks :=
  h.mono fun _ => Op.glances.looks

theorem mild_of_looks {p : Program sig ε α} (h : p.Only Op.looks) : p.Only (Op.lawful Op.mild) :=
    h.mono fun _ ho => ho.peeks.lawful ho.mild

theorem peeks_of_looks {p : Program sig ε α} (h : p.Only Op.looks) : p.Only Op.peeks := h.mono fun _ =>
    Op.looks.peeks

theorem inquires_of_looks {p : Program sig ε α} (h : p.Only Op.looks) : p.Only Op.inquires :=
  h.mono fun _ ho => ho.peeks.inquires

theorem inquires_of_glances {p : Program sig ε α} (h : p.Only Op.glances) : p.Only Op.inquires :=
  inquires_of_looks (looks_of_glances h)

theorem mild_of_peeks {p : Program sig ε α} (h : p.Only Op.peeks) : p.Only (Op.lawful Op.mild) :=
    h.mono fun _ ho => ho.lawful ho.mild

theorem looks_env {c : EnvCall} {f : c.Ans → Program sig ε α} (h : (Op.env c).looks)
    (hf : ∀ r, (f r).Only Op.looks) :
    (env c >>= f).Only Op.looks := ⟨h, hf⟩

theorem looks_vfsAsk (mount : ℕ) {call : VfsCall} (h : call.writes = false) :
    (vfsAsk mount call).Only Op.looks :=
  looks_env h fun r => looks_of_glances (glances_orVfsFault r)

theorem mild_of_domestic {p : Program sig ε α} (h : p.Only (Op.lawful Op.domestic)) :
    p.Only (Op.lawful Op.mild) :=
  h.mono fun _ => Op.lawful.mono fun _ => Op.domestic.mild

theorem gentle_of_domestic {p : Program sig ε α} (h : p.Only (Op.lawful Op.domestic)) :
    p.Only (Op.lawful Op.gentle) :=
  h.mono fun _ => Op.lawful.mono fun _ => Op.domestic.gentle

theorem gentle_of_looks {p : Program sig ε α} (h : p.Only Op.looks) : p.Only (Op.lawful Op.gentle) :=
    h.mono fun _ ho => ho.peeks.lawful ho.gentle

theorem mild_of_gentle {p : Program sig ε α} (h : p.Only (Op.lawful Op.gentle)) :
    p.Only (Op.lawful Op.mild) := h.mono fun _ => Op.lawful.mono fun _ => Op.gentle.mild

theorem gentle_act {a : Act} {f : a.Ans → Program sig ε α} (h : Op.lawful Op.gentle (.act a))
    (hf : ∀ r, (f r).Only (Op.lawful Op.gentle)) :
    (act a >>= f).Only (Op.lawful Op.gentle) := ⟨h, hf⟩

theorem gentle_env {c : EnvCall} {f : c.Ans → Program sig ε α} (h : Op.lawful Op.gentle (.env c))
    (hf : ∀ r, (f r).Only (Op.lawful Op.gentle)) :
    (env c >>= f).Only (Op.lawful Op.gentle) := ⟨h, hf⟩

theorem gentle_lifted {r : Except Errno α} {f : α → Handler β} (hf : ∀ a, (f a).Only (Op.lawful Op.gentle)) :
    (lift r >>= f).Only (Op.lawful Op.gentle) := Program.only_bind (gentle_of_domestic (domestic_lift r)) hf

theorem gentle_vfsAsk (mount : ℕ) {call : VfsCall} (h : call.removes = false) :
    (vfsAsk mount call).Only (Op.lawful Op.gentle) :=
  gentle_env h fun r => gentle_of_domestic (domestic_orVfsFault r)

theorem mild_act {a : Act} {f : a.Ans → Program sig ε α} (h : Op.lawful Op.mild (.act a))
    (hf : ∀ r, (f r).Only (Op.lawful Op.mild)) :
    (act a >>= f).Only (Op.lawful Op.mild) := ⟨h, hf⟩

theorem mild_env {c : EnvCall} {f : c.Ans → Program sig ε α} (h : Op.lawful Op.mild (.env c))
    (hf : ∀ r, (f r).Only (Op.lawful Op.mild)) :
    (env c >>= f).Only (Op.lawful Op.mild) := ⟨h, hf⟩

theorem mild_lift (r : Except Errno α) : (lift r).Only (Op.lawful Op.mild) :=
    mild_of_domestic (domestic_lift r)

theorem mild_lifted {r : Except Errno α} {f : α → Handler β} (hf : ∀ a, (f a).Only (Op.lawful Op.mild)) :
    (lift r >>= f).Only (Op.lawful Op.mild) := Program.only_bind (mild_lift r) hf

theorem mild_orVfsFault (r : Except Errno α) : (orVfsFault r).Only (Op.lawful Op.mild) :=
    mild_of_domestic (domestic_orVfsFault r)

theorem mild_vfsAsk (mount : ℕ) (call : VfsCall) : (vfsAsk mount call).Only (Op.lawful Op.mild) :=
  mild_env trivial fun r => mild_orVfsFault r

end

namespace Resolver
variable (v : View)

theorem looks_symlinkTarget (guest : Text) : (symlinkTarget v guest).Only Op.looks := by
  unfold symlinkTarget
  split
  · trivial
  split
  · trivial
  split
  · trivial
  refine looks_env trivial fun links => ?_
  split
  · refine looks_env rfl fun r => ?_
    split
    · split
      · refine looks_env rfl fun r => ?_
        split
        · trivial
        · split <;> trivial
      · trivial
    · split <;> trivial
  · trivial

theorem looks_classifyFinal (guest : Text) : (classifyFinal v guest).Only Op.looks := by
  unfold classifyFinal
  split
  · trivial
  split
  · trivial
  split
  · trivial
  split
  · split
    · refine looks_env rfl fun r => ?_
      split
      · split <;> trivial
      · split <;> trivial
    · trivial
  · split <;> trivial

theorem looks_walkFrom (follow : Bool) {restart : List Text → Program sig Errno Node}
    (hrestart : ∀ parts, (restart parts).Only Op.looks) (before parts : List Text) :
    (walkFrom v follow restart before parts).Only Op.looks := by
  induction parts generalizing before with
  | nil => exact looks_classifyFinal v _
  | cons part rest ih =>
    unfold walkFrom
    dsimp only
    split
    · apply Program.only_bind (looks_symlinkTarget v _)
      rintro (_ | target)
      · exact ih _
      · exact hrestart _
    · split
      · trivial
      · exact ih _

theorem looks_walk (follow : Bool) (hops : ℕ) (parts : List Text) :
    (walk v follow hops parts).Only Op.looks := by
  induction hops generalizing parts with
  | zero =>
    apply looks_walkFrom v follow
    exact fun _ => trivial
  | succ hops ih => exact looks_walkFrom v follow ih _ _

end Resolver

theorem looks_resolve (dirfd : ℤ) (path : Text) (follow : Bool) :
    (resolve dirfd path follow).Only Op.looks := by
  refine Program.only_bind (p := view) ⟨trivial, fun _ => trivial⟩ fun v => ?_
  refine Program.only_bind (looks_of_glances (glances_lift _)) fun base => ?_
  have hwalk : (Resolver.resolve v base path follow).Only Op.looks := by
    unfold Resolver.resolve
    split
    · trivial
    · exact Resolver.looks_walk v follow _ _
  exact Program.only_bind (Program.only_catching hwalk) fun r => looks_of_glances (glances_orVfsFault r)

theorem mild_resolve (dirfd : ℤ) (path : Text) (follow : Bool) :
    (resolve dirfd path follow).Only (Op.lawful Op.mild) :=
  mild_of_looks (looks_resolve dirfd path follow)

theorem mild_resolved {dirfd : ℤ} {path : Text} {follow : Bool} {α : Type} {f : Node → Handler α}
    (hf : ∀ node, (f node).Only (Op.lawful Op.mild)) :
    (resolve dirfd path follow >>= f).Only (Op.lawful Op.mild) :=
  Program.only_bind (mild_resolve dirfd path follow) hf

theorem gentle_resolved {dirfd : ℤ} {path : Text} {follow : Bool} {α : Type} {f : Node → Handler α}
    (hf : ∀ node, (f node).Only (Op.lawful Op.gentle)) :
    (resolve dirfd path follow >>= f).Only (Op.lawful Op.gentle) :=
  Program.only_bind (gentle_of_looks (looks_resolve dirfd path follow)) hf

namespace Sys

theorem only_changeMount {A : Op → Prop} (v : View) {mount : ℕ} {call : VfsCall}
    (h : (vfsAsk mount call).Only A) :
    (changeMount v mount call).Only A := by
  unfold changeMount
  split
  · trivial
  · exact Program.only_bind h fun _ => trivial

theorem mild_changeMount (v : View) (mount : ℕ) (call : VfsCall) :
    (changeMount v mount call).Only (Op.lawful Op.mild) :=
  only_changeMount v (mild_vfsAsk mount call)

theorem gentle_changeMount (v : View) (mount : ℕ) {call : VfsCall} (h : call.removes = false) :
    (changeMount v mount call).Only (Op.lawful Op.gentle) := only_changeMount v (gentle_vfsAsk mount h)

section
variable {A : Op → Prop} (hglances : ∀ o : Op, o.glances → A o)
  (hvfs : ∀ i (call : VfsCall), call.removes = false → A (.env (.vfs i call)))
include hglances hvfs

theorem openMounted_only (v : View) (flags mode mount : ℕ) (rel guest : Text) :
    (openMounted v flags mode mount rel guest).Only A := by
  have glance : ∀ {α : Type} {p : Handler α}, p.Only Op.glances → p.Only A := fun hp => hp.mono hglances
  have ask : ∀ {call : VfsCall}, call.removes = false → (vfsAsk mount call).Only A := fun h =>
    ⟨hvfs _ _ h, fun r => glance (glances_orVfsFault r)⟩
  have hrest : ∀ stat : Option Stat, (openFound v flags mode mount rel guest stat).Only A := by
    intro stat
    unfold openFound openDir
    dsimp only
    split
    · trivial
    split
    · split
      · trivial
      · apply Program.only_bind (ask rfl)
        intro listing
        apply Program.only_bind (glance (glances_listedEntries _ _))
        intro listed
        exact Program.only_bind (glance (glances_mergeVirtual _ _)) fun _ => trivial
    · exact Program.only_bind (ask rfl) fun _ => trivial
  rw [openMounted_eq]
  split
  · trivial
  refine Program.only_bind (p := env (.vfs mount (.stat rel true))) ⟨hvfs _ _ rfl, fun _ => trivial⟩ ?_
  rintro (e | stat)
  · dsimp only
    split
    · exact hrest none
    · exact Program.only_bind (glance (glances_vfsFault e)) hrest
  · exact hrest (some stat)

theorem openNode_only (v : View) (flags mode : ℕ) (node : Node) : (openNode v flags mode node).Only A := by
  have glance : ∀ {α : Type} {p : Handler α}, p.Only Op.glances → p.Only A := fun hp => hp.mono hglances
  cases node with
  | program id guest =>
    simp only [openNode]
    split <;> trivial
  | device device => trivial
  | synth guest =>
    simp only [openNode]
    split
    · trivial
    · exact Program.only_bind (glance (glances_procContent guest)) fun _ => trivial
  | virtualDir guest =>
    simp only [openNode]
    split
    · trivial
    · exact Program.only_bind (glance (glances_virtualDirents _)) fun _ => trivial
  | virtualLink target => trivial
  | mounted mount rel guest => exact Program.only_bind (openMounted_only hglances hvfs _ _ _ _ _ _) fun _ =>
      trivial

end

theorem peeks_openNode (v : View) (flags mode : ℕ) (node : Node) :
    (openNode v flags mode node).Only Op.peeks :=
  openNode_only (fun _ h => h.looks.peeks) (fun _ _ _ => trivial) v flags mode node

theorem mild_openNode (v : View) (flags mode : ℕ) (node : Node) :
    (openNode v flags mode node).Only (Op.lawful Op.mild) :=
  mild_of_peeks (peeks_openNode v flags mode node)

theorem gentle_statDesc (desc : Desc) : (statDesc desc).Only (Op.lawful Op.gentle) := by
  unfold statDesc
  split
  · exact Program.only_bind (gentle_of_domestic (domestic_fileAsk _ _ rfl)) fun _ => trivial
  all_goals trivial

theorem gentle_statNode (path : Text) (follow : Bool) (node : Node) :
    (statNode path follow node).Only (Op.lawful Op.gentle) := by
  cases node with
  | synth guest =>
    have hgenerated := gentle_of_looks (looks_of_glances (glances_procContent guest))
    exact Program.only_bind hgenerated fun _ => trivial
  | mounted mount rel guest => exact Program.only_bind (gentle_vfsAsk _ rfl) fun _ => trivial
  | _ => trivial

theorem gentle_makeAt (v : View) (dirfd : ℤ) (path : Text) (follow : Bool) {call : Text → VfsCall}
    (h : ∀ rel, (call rel).removes = false) :
    (makeAt v dirfd path follow call).Only (Op.lawful Op.gentle) := by
  apply Program.only_bind (Program.only_catching (gentle_of_looks (looks_resolve dirfd path follow)))
  intro r
  split
  · exact gentle_changeMount _ _ (h _)
  · trivial
  · split <;> trivial
  · trivial

variable (a : Args)

theorem gentle_chdir : (chdir a).Only (Op.lawful Op.gentle) := by
  refine gentle_act trivial fun v => gentle_lifted fun path => gentle_resolved fun node => ?_
  split
  · exact gentle_act trivial fun _ => trivial
  · apply Program.only_bind (gentle_vfsAsk _ rfl)
    intro stat
    split
    · exact gentle_act trivial fun _ => trivial
    · trivial
  · trivial

theorem gentle_statx : (statx a).Only (Op.lawful Op.gentle) := by
  have hwrite : ∀ (stat : Stat) (name : Text) (rdev : ℕ × ℕ), (do
      let start := asU32 a.a4
      if rdev = (0, 0) then
        writeStatx start stat name rdev
        return 0
      else
        let stat := { stat with fileType := .file }
        writeStatx start stat name rdev
        put (wrapAdd start 28) (toLe 2 (sIfchr ||| if stat.mode = 0 then 0o666 else stat.mode))
        return 0 : Handler ℤ).Only (Op.lawful Op.gentle) := by
    intro stat name rdev
    dsimp only
    split
    · exact Program.only_bind (gentle_of_domestic (domestic_writeStatx _ _ _ _)) fun _ => trivial
    · apply Program.only_bind (gentle_of_domestic (domestic_writeStatx _ _ _ _))
      exact fun _ => Program.only_bind (gentle_of_domestic (domestic_put _ _)) fun _ => trivial
  unfold statx
  refine gentle_act trivial fun v => gentle_lifted fun path => ?_
  dsimp only
  split
  · apply gentle_lifted
    rintro ⟨entry, desc⟩
    exact Program.only_bind (gentle_statDesc desc) fun r => hwrite r.1 r.2.1 r.2.2
  · exact gentle_resolved fun node => Program.only_bind (gentle_statNode _ _ node) fun r =>
      hwrite r.1 r.2.1 r.2.2

theorem gentle_faccessat : (faccessat a).Only (Op.lawful Op.gentle) := by
  refine gentle_act trivial fun v => gentle_lifted fun path => gentle_resolved fun node => ?_
  split
  · exact Program.only_bind (gentle_vfsAsk _ rfl) fun _ => trivial
  · trivial

theorem gentle_readlinkat : (readlinkat a).Only (Op.lawful Op.gentle) := by
  have hput : ∀ target : Text, (do
      let take := min target.length (asU32 a.a3)
      put (asU32 a.a2) (target.take take)
      return asI32 take : Handler ℤ).Only (Op.lawful Op.gentle) := fun target =>
    Program.only_bind (gentle_of_domestic (domestic_put _ _)) fun _ => trivial
  refine gentle_act trivial fun v => gentle_lifted fun path => gentle_resolved fun node => ?_
  split
  · exact Program.only_bind (p := .ret _) trivial hput
  · apply gentle_lifted
    rintro ⟨entry, desc⟩
    exact Program.only_bind (p := .ret desc.path) trivial hput
  · exact Program.only_bind (gentle_vfsAsk _ rfl) hput
  · trivial

theorem gentle_truncate : (truncate a).Only (Op.lawful Op.gentle) := by
  refine gentle_act trivial fun v => gentle_lifted fun path => gentle_resolved fun node => ?_
  split
  · exact gentle_changeMount _ _ rfl
  · trivial

theorem mild_unlinkat : (unlinkat a).Only (Op.lawful Op.mild) := by
  refine mild_act trivial fun v => mild_lifted fun path => mild_resolved fun node => ?_
  split
  · exact mild_changeMount _ _ _
  · trivial

theorem mild_renameat : (renameat a).Only (Op.lawful Op.mild) := by
  refine mild_act trivial fun v => mild_lifted fun source => mild_lifted fun target => ?_
  refine mild_resolved fun from' => mild_resolved fun to' => ?_
  split
  · split
    · trivial
    · exact mild_changeMount _ _ _
  · trivial

theorem gentle_fchmodat : (fchmodat a).Only (Op.lawful Op.gentle) := by
  refine gentle_act trivial fun v => gentle_lifted fun path => gentle_resolved fun node => ?_
  split
  · exact gentle_changeMount _ _ rfl
  · trivial

theorem gentle_utimensat : (utimensat a).Only (Op.lawful Op.gentle) := by
  refine gentle_act trivial fun v => gentle_lifted fun path => ?_
  split
  · trivial
  apply gentle_resolved
  intro node
  split
  · exact Program.only_bind (gentle_vfsAsk _ rfl) fun _ => trivial
  · trivial

theorem gentle_execScript (mount : ℕ) (rel path : Text) (argv envp : List Bytes) :
    (execScript mount rel path argv envp).Only (Op.lawful Op.gentle) := by
  apply Program.only_bind (gentle_vfsAsk _ rfl)
  intro file
  apply Program.only_bind (gentle_of_domestic (domestic_fileAsk file (.read 256) rfl))
  rintro ⟨n, buf⟩
  refine gentle_env rfl fun _ => ?_
  split
  · trivial
  apply gentle_resolved
  intro node
  split
  · exact gentle_of_domestic (domestic_finishExec _ _ _ _)
  · trivial

theorem gentle_execve : (execve a).Only (Op.lawful Op.gentle) := by
  refine gentle_act trivial fun v => gentle_lifted fun path => gentle_lifted fun argv =>
    gentle_lifted fun envp => ?_
  apply gentle_resolved
  intro node
  split
  · exact gentle_of_domestic (domestic_finishExec _ _ _ _)
  · refine gentle_env rfl fun r => ?_
    split
    · split
      · trivial
      · exact gentle_execScript _ _ _ _ _
    · exact gentle_execScript _ _ _ _ _
  · trivial

end Sys

def Nr.mild : Nr → Bool
  | .read | .readv | .write | .writev | .ftruncate | .openat | .fcntl | .ioctl => false
  | _ => true

def Nr.removes : Nr → Bool
  | .unlinkat | .renameat | .renameat2 => true
  | _ => false

theorem gentle_handle (number : ℤ) (a : Args) (h : (Nr.ofInt number).mild = true)
    (hr : (Nr.ofInt number).removes = false) : (handle number a).Only (Op.lawful Op.gentle) := by
  unfold handle
  generalize Nr.ofInt number = nr at h hr
  cases nr with
  | read | readv | write | writev | ftruncate | openat | fcntl | ioctl => cases h
  | unlinkat | renameat | renameat2 => cases hr
  | exit | exitGroup => exact gentle_of_domestic (Sys.domestic_exit a)
  | clone => exact gentle_of_domestic (Sys.domestic_clone a)
  | execve => exact Sys.gentle_execve a
  | wait4 => exact gentle_of_domestic (Sys.domestic_wait4 a)
  | getpid | gettid | setTidAddress => exact gentle_of_domestic Sys.domestic_getpid
  | getppid => exact gentle_of_domestic Sys.domestic_getppid
  | setpgid => exact gentle_of_domestic (Sys.domestic_setpgid a)
  | getpgid => exact gentle_of_domestic (Sys.domestic_recordField a _)
  | setsid => exact gentle_of_domestic Sys.domestic_setsid
  | getsid => exact gentle_of_domestic (Sys.domestic_recordField a _)
  | schedGetaffinity => exact gentle_of_domestic (Sys.domestic_schedGetaffinity a)
  | umask => exact gentle_of_domestic (Sys.domestic_umask a)
  | uname => exact gentle_of_domestic (Sys.domestic_uname a)
  | sysinfo => exact gentle_of_domestic (Sys.domestic_sysinfo a)
  | prlimit64 => exact gentle_of_domestic (Sys.domestic_prlimit64 a)
  | getrusage => exact gentle_of_domestic (Sys.domestic_getrusage a)
  | times => exact gentle_of_domestic (Sys.domestic_times a)
  | getrandom => exact gentle_of_domestic (Sys.domestic_getrandom a)
  | rtSigaction => exact gentle_of_domestic (Sys.domestic_rtSigaction a)
  | rtSigprocmask => exact gentle_of_domestic (Sys.domestic_rtSigprocmask a)
  | rtSigpending => exact gentle_of_domestic (Sys.domestic_rtSigpending a)
  | rtSigsuspend => exact gentle_of_domestic (Sys.domestic_rtSigsuspend a)
  | kill | tkill | tgkill => exact gentle_of_domestic (Sys.domestic_sendSignal _ _)
  | clockGettime64 => exact gentle_of_domestic (Sys.domestic_clockGettime64 a)
  | clockGetresTime64 => exact gentle_of_domestic (Sys.domestic_clockGetresTime64 a)
  | gettimeofday => exact gentle_of_domestic (Sys.domestic_gettimeofday a)
  | nanosleep => exact gentle_of_domestic (Sys.domestic_nanosleep a)
  | clockNanosleepTime64 => exact gentle_of_domestic (Sys.domestic_clockNanosleepTime64 a)
  | brk => exact gentle_of_domestic (Sys.domestic_brk a)
  | mmap => exact gentle_of_domestic (Sys.domestic_mmap a)
  | close => exact gentle_of_domestic (Sys.domestic_close a)
  | lseek => exact gentle_of_domestic (Sys.domestic_lseek a)
  | truncate => exact Sys.gentle_truncate a
  | dup => exact gentle_of_domestic (Sys.domestic_dup a)
  | dup3 => exact gentle_of_domestic (Sys.domestic_dup3 a)
  | pipe2 => exact gentle_of_domestic (Sys.domestic_pipe2 a)
  | getdents64 => exact gentle_of_domestic (Sys.domestic_getdents64 a)
  | getcwd => exact gentle_of_domestic (Sys.domestic_getcwd a)
  | chdir => exact Sys.gentle_chdir a
  | fchdir => exact gentle_of_domestic (Sys.domestic_fchdir a)
  | statx => exact Sys.gentle_statx a
  | faccessat | faccessat2 => exact Sys.gentle_faccessat a
  | readlinkat => exact Sys.gentle_readlinkat a
  | mkdirat => exact gentle_act trivial fun v => gentle_lifted fun path =>
      Sys.gentle_makeAt _ _ _ _ fun _ => rfl
  | symlinkat =>
    exact gentle_act trivial fun v => gentle_lifted fun target => gentle_lifted fun path =>
      Sys.gentle_makeAt _ _ _ _ fun _ => rfl
  | fchmodat => exact Sys.gentle_fchmodat a
  | utimensatTime64 => exact Sys.gentle_utimensat a
  | statfs | fstatfs => exact gentle_of_domestic (Sys.domestic_statfs a)
  | ppollTime64 => exact gentle_of_domestic (Sys.domestic_ppoll a)
  | pselect6Time64 => exact gentle_of_domestic (Sys.domestic_pselect a)
  | _ => trivial

theorem mild_handle (number : ℤ) (a : Args) (h : (Nr.ofInt number).mild = true) :
    (handle number a).Only (Op.lawful Op.mild) := by
  by_cases hr : (Nr.ofInt number).removes = true
  · unfold handle
    generalize Nr.ofInt number = nr at hr
    cases nr with
    | unlinkat => exact Sys.mild_unlinkat a
    | renameat | renameat2 => exact Sys.mild_renameat a
    | _ => cases hr
  · exact mild_of_gentle (gentle_handle number a h (by simpa using hr))

end Wasmux
