import Wasmux.Effects.Rules
import Wasmux.Processes

/-!
# Handlers that leave the mounts alone

Most handlers ask nothing of a mount, change no file and open none, and move
nothing through a pipe. Each of these asks for domestic operations only; the
few others that have nothing to do with a mount ask for unmounted ones.
-/

set_option autoImplicit false

namespace Wasmux
open Effects Abi

def VfsCall.writes : VfsCall → Bool
  | .openFile _ opts => opts.write || opts.create || opts.createNew || opts.truncate
  | .stat _ _ | .readdir _ | .readlink _ => false
  | .mkdir _ _ | .unlink _ | .rmdir _ | .rename _ _ | .symlink _ _ | .truncate _ _ | .setMode _ _ => true

def FileCall.writes : FileCall → Bool
  | .write _ | .setLen _ => true
  | _ => false

/-- The operations that have nothing to do with what is mounted. -/
def Op.unmounted : Op → Prop
  | .env (.vfs _ _) => False
  | .env (.file _ call) => call.writes = false
  | .env _ => True
  | .act (.openDesc _ _ _ _) => False
  | .act _ => True

/-- Those of them that also move nothing through a pipe and leave the flags of
descriptions alone. -/
def Op.domestic : Op → Prop
  | .env (.vfs _ _) => False
  | .env (.file _ call) => call.writes = false
  | .env _ => True
  | .act (.openDesc _ _ _ _) | .act (.setDescFlags _ _) | .act (.pipeTake _ _) | .act (.pipePut _ _) => False
  | .act _ => True

theorem Op.domestic.unmounted {o : Op} (h : o.domestic) : o.unmounted := by
  cases o with
  | env c =>
    cases c with
    | vfs | file => exact h
    | _ => trivial
  | act a =>
    cases a with
    | openDesc => exact h
    | _ => trivial

/-- The operations that look, and change nothing but that a mount is to be asked again. -/
def Op.glances : Op → Prop
  | .env (.vfs _ _) | .env (.file _ _) => False
  | .env _ => True
  | .act .view | .act .noteVfsPending => True
  | .act _ => False

theorem Op.glances.domestic {o : Op} (h : o.glances) : o.domestic := by
  cases o with
  | env c =>
    cases c with
    | vfs | file => cases h
    | _ => trivial
  | act a =>
    cases a with
    | view | noteVfsPending => trivial
    | _ => cases h

/-- The operations of a class that give `SIGKILL` and `SIGSTOP` no action of their own. -/
def Op.lawful (P : Op → Prop) : Op → Prop
  | .act (.setAction signal action) =>
    P (.act (.setAction signal action)) ∧ (¬ (signal = sigkill ∨ signal = sigstop) ∨ action = default)
  | o => P o

theorem Op.lawful.of {P : Op → Prop} {o : Op} (h : o.lawful P) : P o := by
  cases o with
  | env => exact h
  | act a =>
    cases a with
    | setAction => exact h.1
    | _ => exact h

theorem Op.lawful.mono {P Q : Op → Prop} (hPQ : ∀ o, P o → Q o) {o : Op} (h : o.lawful P) : o.lawful Q := by
  cases o with
  | env => exact hPQ _ h
  | act a =>
    cases a with
    | setAction => exact h.imp_left (hPQ _)
    | _ => exact hPQ _ h

theorem Op.glances.lawful {o : Op} (h : o.glances) : o.lawful Op.domestic := by
  cases o with
  | env => exact h.domestic
  | act a =>
    cases a with
    | view | noteVfsPending => trivial
    | _ => cases h

section
variable {ε α : Type}

theorem glances_act {a : Act} {f : a.Ans → Program sig ε α} (h : (Op.act a).glances)
    (hf : ∀ r, (f r).Only Op.glances) : (act a >>= f).Only Op.glances := ⟨h, hf⟩

theorem glances_env {c : EnvCall} {f : c.Ans → Program sig ε α} (h : (Op.env c).glances)
    (hf : ∀ r, (f r).Only Op.glances) : (env c >>= f).Only Op.glances := ⟨h, hf⟩

theorem domestic_of_glances {p : Program sig ε α} (h : p.Only Op.glances) : p.Only (Op.lawful Op.domestic) :=
  h.mono fun _ => Op.glances.lawful

theorem domestic_act {a : Act} {f : a.Ans → Program sig ε α} (h : Op.lawful Op.domestic (.act a))
    (hf : ∀ r, (f r).Only (Op.lawful Op.domestic)) : (act a >>= f).Only (Op.lawful Op.domestic) := ⟨h, hf⟩

theorem domestic_env {c : EnvCall} {f : c.Ans → Program sig ε α} (h : Op.lawful Op.domestic (.env c))
    (hf : ∀ r, (f r).Only (Op.lawful Op.domestic)) : (env c >>= f).Only (Op.lawful Op.domestic) := ⟨h, hf⟩

theorem unmounted_act {a : Act} {f : a.Ans → Program sig ε α} (h : Op.lawful Op.unmounted (.act a))
    (hf : ∀ r, (f r).Only (Op.lawful Op.unmounted)) : (act a >>= f).Only (Op.lawful Op.unmounted) := ⟨h, hf⟩

theorem unmounted_of_domestic {p : Program sig ε α} (h : p.Only (Op.lawful Op.domestic)) :
    p.Only (Op.lawful Op.unmounted) :=
  h.mono fun _ => Op.lawful.mono fun _ => Op.domestic.unmounted

theorem glances_lift (r : Except Errno α) : (lift r).Only Op.glances := by
  cases r <;> trivial

theorem domestic_lift (r : Except Errno α) : (lift r).Only (Op.lawful Op.domestic) :=
    domestic_of_glances (glances_lift r)

theorem glances_vfsFault (e : Errno) : (vfsFault e : Handler α).Only Op.glances := by
  unfold vfsFault
  split
  · exact ⟨trivial, fun _ => trivial⟩
  · trivial

theorem glances_orVfsFault (r : Except Errno α) : (orVfsFault r).Only Op.glances := by
  cases r with
  | ok a => trivial
  | error e => exact glances_vfsFault e

theorem domestic_orVfsFault (r : Except Errno α) : (orVfsFault r).Only (Op.lawful Op.domestic) :=
  domestic_of_glances (glances_orVfsFault r)

theorem domestic_put (start : ℕ) (data : Bytes) : (put start data).Only (Op.lawful Op.domestic) :=
  ⟨trivial, fun r => domestic_lift r⟩

end

theorem glances_elapsed : elapsed.Only Op.glances := ⟨trivial, fun _ => ⟨trivial, fun _ => trivial⟩⟩

theorem domestic_elapsed : elapsed.Only (Op.lawful Op.domestic) := domestic_of_glances glances_elapsed

theorem domestic_putTimespec (start : ℕ) (d : Duration) :
    (putTimespec start d).Only (Op.lawful Op.domestic) := by
  unfold putTimespec putU64 putU32
  apply Program.only_bind (domestic_put _ _)
  intro _
  split
  · trivial
  apply Program.only_bind (domestic_put _ _)
  intro _
  split
  · trivial
  · exact domestic_put _ _

theorem domestic_deadline (after : Duration) : (deadline after).Only (Op.lawful Op.domestic) := by
  refine domestic_act (a := .deadline) trivial ?_
  rintro (_ | limit)
  · refine domestic_env trivial fun t => domestic_env trivial fun max => ?_
    dsimp only
    split
    · exact domestic_act trivial fun _ => trivial
    · exact domestic_env trivial fun _ => domestic_act trivial fun _ => trivial
  · trivial

theorem domestic_fileAsk (file : Handle) (call : FileCall) (h : call.writes = false) :
    (fileAsk file call).Only (Op.lawful Op.domestic) := ⟨h, fun r => domestic_orVfsFault r⟩

theorem domestic_closeAll (handles : List Handle) : (closeAll handles).Only (Op.lawful Op.domestic) := by
  induction handles with
  | nil => trivial
  | cons handle rest ih => exact ⟨rfl, fun _ => ih⟩

theorem domestic_finishExec (program : ProgramId) (exe : Text) (argv envp : List Bytes) :
    (finishExec program exe argv envp).Only (Op.lawful Op.domestic) := by
  refine domestic_act (a := .finishExec program exe argv envp) trivial ?_
  rintro ⟨pid, handles⟩
  apply Program.only_bind (domestic_closeAll handles)
  intro _
  cases pid <;> trivial

theorem domestic_memGrow (pages : ℕ) : (memGrow pages).Only (Op.lawful Op.domestic) := by
  refine domestic_act trivial fun v => domestic_env trivial fun granted => ?_
  split
  · exact domestic_act trivial fun _ => trivial
  · trivial

theorem domestic_chargeAndGrow (pages : ℕ) : (chargeAndGrow pages).Only (Op.lawful Op.domestic) := by
  refine domestic_act trivial fun charged => ?_
  split
  · apply Program.only_bind (domestic_memGrow pages)
    rintro (_ | previous)
    · exact domestic_act trivial fun _ => trivial
    · exact domestic_act trivial fun _ => trivial
  · trivial

theorem glances_procContent (guest : Text) : (procContent guest).Only Op.glances :=
  glances_act trivial fun _ => Program.only_bind glances_elapsed fun _ => glances_env trivial fun _ => trivial

theorem glances_listedEntries (guest : Text) (items : List DirEntry) :
    (listedEntries guest items).Only Op.glances := by
  induction items with
  | nil => trivial
  | cons item rest ih =>
    unfold listedEntries
    dsimp only
    split
    · exact glances_env trivial fun _ => Program.only_bind ih fun _ => trivial
    · exact Program.only_bind (p := .ret item.ino) trivial fun _ => Program.only_bind ih fun _ => trivial

theorem glances_mergeVirtual (names : List (Text × FileType)) (entries : List DirEnt) :
    (mergeVirtual names entries).Only Op.glances := by
  induction names generalizing entries with
  | nil => trivial
  | cons item rest ih =>
    unfold mergeVirtual
    split
    · exact ih _
    · exact glances_env trivial fun _ => ih _

theorem glances_virtualDirents (names : List (Text × FileType)) :
    (virtualDirents names).Only Op.glances := by
  induction names with
  | nil => trivial
  | cons item rest ih => exact glances_env trivial fun _ => Program.only_bind ih fun _ => trivial

theorem domestic_writeStatx (start : ℕ) (stat : Stat) (path : Text) (rdev : ℕ × ℕ) :
    (writeStatx start stat path rdev).Only (Op.lawful Op.domestic) := by
  unfold writeStatx
  dsimp only
  split
  · exact domestic_env trivial fun _ => domestic_put _ _
  · exact domestic_put _ _

theorem domestic_waitUntil (timeoutAt : ℕ) : (waitUntil timeoutAt).Only (Op.lawful Op.domestic) := by
  unfold waitUntil
  split
  · trivial
  · refine domestic_act trivial fun v => ?_
    apply Program.only_bind (domestic_lift _)
    exact fun _ => Program.only_bind (domestic_deadline _) fun _ => trivial

theorem domestic_waitOn (limit : Instant) {done : Handler ℤ} (h : done.Only (Op.lawful Op.domestic)) :
    (waitOn limit done).Only (Op.lawful Op.domestic) := by
  refine domestic_env trivial fun t => ?_
  split
  · exact domestic_act trivial fun _ => trivial
  · exact h

theorem unmounted_readBytes (fd : ℤ) (len : ℕ) : (readBytes fd len).Only (Op.lawful Op.unmounted) := by
  unfold readBytes
  split
  · trivial
  refine unmounted_act trivial fun v => ?_
  apply Program.only_bind (unmounted_of_domestic (domestic_lift _))
  rintro ⟨entry, desc⟩
  dsimp only
  split
  · trivial
  split
  · exact Program.only_bind (unmounted_of_domestic (domestic_fileAsk _ _ rfl)) fun _ => trivial
  · exact unmounted_act trivial fun _ => trivial
  · trivial
  · trivial
  · exact ⟨trivial, fun _ => trivial⟩
  · trivial
  · trivial
  · trivial
  · split_ifs
    · trivial
    · trivial
    · exact unmounted_act trivial fun _ => trivial
    · exact unmounted_act trivial fun _ => trivial
  · split
    · trivial
    · split_ifs
      · trivial
      · trivial
      · trivial
      · exact unmounted_act trivial fun _ => trivial

namespace Sys

theorem domestic_terminalIoctl (v : View) (terminal : Terminal) (request argument : ℕ) :
    (terminalIoctl v terminal request argument).Only (Op.lawful Op.domestic) := by
  unfold terminalIoctl putU32
  repeat' first
    | exact trivial
    | refine Program.only_bind (domestic_put _ _) fun _ => ?_
    | refine Program.only_bind (domestic_lift _) fun _ => ?_
    | refine domestic_act trivial fun _ => ?_
    | split

theorem domestic_pollAnswer (results : List (ℕ × ℕ)) : (pollAnswer results).Only (Op.lawful Op.domestic) := by
  induction results with
  | nil => trivial
  | cons r rest ih => exact Program.only_bind (domestic_put _ _) fun _ => ih

theorem domestic_writeFdSet (start : ℕ) (values : List Bool) :
    (writeFdSet start values).Only (Op.lawful Op.domestic) := by
  unfold writeFdSet
  split
  · trivial
  · generalize List.range (divCeil values.length 32) = indices
    induction indices with
    | nil => trivial
    | cons index rest ih => exact Program.only_bind (domestic_put _ _) fun _ => ih

theorem domestic_fillFrom (file : Handle) (turns : ℕ) (buffer : Bytes) (filled : ℕ) :
    (fillFrom file turns buffer filled).Only (Op.lawful Op.domestic) := by
  induction turns generalizing buffer filled with
  | zero => trivial
  | succ turns ih =>
    unfold fillFrom
    split
    · trivial
    refine domestic_env (c := .file file _) rfl ?_
    rintro (e | ⟨n, window⟩)
    · trivial
    · dsimp only
      split
      · trivial
      · exact ih _ _

theorem domestic_askFile (file : Handle) (call : FileCall) (h : call.writes = false) :
    (askFile file call).Only (Op.lawful Op.domestic) := ⟨h, fun r => by cases r <;> trivial⟩

theorem domestic_readMapping (file : Handle) (offset length : ℕ) :
    (readMapping file offset length).Only (Op.lawful Op.domestic) := by
  unfold readMapping
  apply Program.only_bind (domestic_askFile _ _ rfl)
  intro saved
  apply Program.only_bind (domestic_askFile _ _ rfl)
  intro _
  apply Program.only_bind (domestic_fillFrom _ _ _ _)
  exact fun _ => ⟨rfl, fun _ => trivial⟩

variable (a : Args)

theorem domestic_exit : (exit a).Only (Op.lawful Op.domestic) := by
  refine domestic_act (a := .vforkExit _) trivial ?_
  rintro (_ | ⟨pid, handles⟩)
  · trivial
  · exact Program.only_bind (domestic_closeAll handles) fun _ => trivial

theorem domestic_clone : (clone a).Only (Op.lawful Op.domestic) := by
  unfold clone
  dsimp only
  split
  · trivial
  refine domestic_act (a := .fork) trivial ?_
  rintro (_ | pid) <;> trivial

theorem domestic_wait4 : (wait4 a).Only (Op.lawful Op.domestic) := by
  unfold wait4 putU32
  refine domestic_act trivial fun v => ?_
  dsimp only
  split
  · trivial
  split
  · split <;> trivial
  · refine domestic_act trivial fun _ => ?_
    repeat' first
      | exact trivial
      | refine Program.only_bind (domestic_put _ _) fun _ => ?_
      | split

theorem domestic_getpid : getpid.Only (Op.lawful Op.domestic) := domestic_act trivial fun _ => trivial

theorem domestic_getppid : getppid.Only (Op.lawful Op.domestic) := domestic_act trivial fun _ => trivial

theorem domestic_setpgid : (setpgid a).Only (Op.lawful Op.domestic) := by
  refine domestic_act trivial fun v => ?_
  generalize (if a.a0 = 0 then v.task.pid else a.a0) = target
  dsimp only
  split
  · exact domestic_act trivial fun _ => trivial
  · trivial

theorem domestic_recordField (field : ProcRecord → ℤ) :
    (recordField field a).Only (Op.lawful Op.domestic) := by
  refine domestic_act trivial fun v => ?_
  split <;> trivial

theorem domestic_setsid : setsid.Only (Op.lawful Op.domestic) := by
  refine domestic_act trivial fun v => ?_
  split
  · exact domestic_act trivial fun _ => trivial
  · trivial

theorem domestic_schedGetaffinity : (schedGetaffinity a).Only (Op.lawful Op.domestic) := by
  unfold schedGetaffinity
  dsimp only
  split
  · exact Program.only_bind (domestic_put _ _) fun _ => trivial
  · trivial

theorem domestic_umask : (umask a).Only (Op.lawful Op.domestic) :=
  domestic_act trivial fun _ => domestic_act trivial fun _ => trivial

theorem domestic_uname : (uname a).Only (Op.lawful Op.domestic) :=
  Program.only_bind (domestic_put _ _) fun _ => trivial

theorem domestic_sysinfo : (sysinfo a).Only (Op.lawful Op.domestic) :=
  domestic_act trivial fun _ => Program.only_bind domestic_elapsed fun _ =>
    Program.only_bind (domestic_put _ _) fun _ => trivial

theorem domestic_prlimit64 : (prlimit64 a).Only (Op.lawful Op.domestic) := by
  unfold prlimit64
  refine domestic_act trivial fun v => ?_
  dsimp only
  split
  · exact Program.only_bind (domestic_put _ _) fun _ => Program.only_bind (domestic_put _ _) fun _ => trivial
  · trivial

theorem domestic_getrusage : (getrusage a).Only (Op.lawful Op.domestic) :=
  Program.only_bind (domestic_put _ _) fun _ => trivial

theorem domestic_times : (times a).Only (Op.lawful Op.domestic) := by
  unfold times
  dsimp only
  split
  · exact Program.only_bind (domestic_put _ _) fun _ => Program.only_bind domestic_elapsed fun _ => trivial
  · exact Program.only_bind domestic_elapsed fun _ => trivial

theorem domestic_getrandom : (getrandom a).Only (Op.lawful Op.domestic) :=
  domestic_act trivial fun _ => Program.only_bind (domestic_lift _) fun _ =>
    domestic_env trivial fun _ => Program.only_bind (domestic_put _ _) fun _ => trivial

theorem domestic_rtSigaction : (rtSigaction a).Only (Op.lawful Op.domestic) := by
  unfold rtSigaction putU32 putU64
  dsimp only
  repeat' first
    | exact trivial
    | refine Program.only_bind (domestic_put _ _) fun _ => ?_
    | refine Program.only_bind (domestic_lift _) fun _ => ?_
    | refine domestic_act trivial fun _ => ?_
    | split
  all_goals
    rename_i hspared _ _ _ _
    exact domestic_act ⟨trivial, .inl hspared⟩ fun _ => trivial

theorem domestic_rtSigprocmask : (rtSigprocmask a).Only (Op.lawful Op.domestic) := by
  unfold rtSigprocmask putU64
  refine domestic_act trivial fun v => ?_
  dsimp only
  repeat' first
    | exact trivial
    | refine Program.only_bind (domestic_put _ _) fun _ => ?_
    | refine Program.only_bind (domestic_lift _) fun _ => ?_
    | refine domestic_act trivial fun _ => ?_
    | split

theorem domestic_rtSigpending : (rtSigpending a).Only (Op.lawful Op.domestic) :=
  domestic_act trivial fun _ => Program.only_bind (domestic_put _ _) fun _ => trivial

theorem domestic_rtSigsuspend : (rtSigsuspend a).Only (Op.lawful Op.domestic) := by
  refine domestic_act trivial fun v => ?_
  refine Program.only_bind (domestic_lift _) fun mask => ?_
  refine domestic_act trivial fun _ => domestic_act trivial fun v => ?_
  split <;> trivial

theorem domestic_sendSignal (target signal : ℤ) :
    (sendSignal target signal).Only (Op.lawful Op.domestic) := by
  unfold sendSignal
  split
  · trivial
  refine domestic_act trivial fun reached => ?_
  split <;> trivial

theorem domestic_clockGettime64 : (clockGettime64 a).Only (Op.lawful Op.domestic) := by
  unfold clockGettime64
  split
  · exact domestic_env trivial fun _ => Program.only_bind (domestic_putTimespec _ _) fun _ => trivial
  split
  · exact Program.only_bind domestic_elapsed fun _ =>
      Program.only_bind (domestic_putTimespec _ _) fun _ => trivial
  · trivial

theorem domestic_clockGetresTime64 : (clockGetresTime64 a).Only (Op.lawful Op.domestic) := by
  unfold clockGetresTime64
  dsimp only
  split
  · exact Program.only_bind (domestic_putTimespec _ _) fun _ => trivial
  · trivial

theorem domestic_gettimeofday : (gettimeofday a).Only (Op.lawful Op.domestic) :=
  domestic_env trivial fun _ => Program.only_bind (domestic_put _ _) fun _ =>
    Program.only_bind (domestic_put _ _) fun _ => trivial

theorem domestic_sleepUntil (limit : Instant) : (sleepUntil limit).Only (Op.lawful Op.domestic) :=
  domestic_waitOn limit trivial

theorem domestic_nanosleep : (nanosleep a).Only (Op.lawful Op.domestic) :=
  domestic_act trivial fun _ => Program.only_bind (domestic_lift _) fun _ =>
    Program.only_bind (domestic_deadline _) fun _ => domestic_sleepUntil _

theorem domestic_clockNanosleepTime64 : (clockNanosleepTime64 a).Only (Op.lawful Op.domestic) := by
  unfold clockNanosleepTime64
  refine domestic_act trivial fun v => ?_
  refine Program.only_bind (domestic_lift _) fun requested => ?_
  dsimp only
  split
  · split
    · exact domestic_env trivial fun _ => Program.only_bind (domestic_deadline _) fun _ =>
        domestic_sleepUntil _
    · exact Program.only_bind domestic_elapsed fun _ =>
        Program.only_bind (domestic_deadline _) fun _ => domestic_sleepUntil _
  · exact Program.only_bind (domestic_deadline _) fun _ => domestic_sleepUntil _

theorem domestic_brk : (brk a).Only (Op.lawful Op.domestic) := by
  unfold brk
  refine domestic_act trivial fun v => ?_
  dsimp only
  split
  · trivial
  apply Program.only_bind (domestic_chargeAndGrow _)
  rintro (_ | pages) <;> trivial

theorem domestic_mmap : (mmap a).Only (Op.lawful Op.domestic) := by
  unfold mmap
  dsimp only
  split
  · trivial
  split
  · trivial
  refine domestic_act trivial fun v => ?_
  split
  · trivial
  apply Program.only_bind (domestic_chargeAndGrow _)
  rintro (_ | previous)
  · trivial
  dsimp only
  split
  · trivial
  apply Program.only_bind (domestic_lift _)
  rintro ⟨entry, desc⟩
  dsimp only
  split
  · apply Program.only_bind (Program.only_catching (domestic_readMapping _ _ _))
    intro r
    apply Program.only_bind (domestic_orVfsFault r)
    exact fun _ => Program.only_bind (domestic_put _ _) fun _ => trivial
  · trivial

theorem unmounted_read (fd : ℤ) (start length : ℕ) :
    (read fd start length).Only (Op.lawful Op.unmounted) := by
  unfold read
  split
  · trivial
  apply Program.only_bind (unmounted_readBytes _ _)
  exact fun _ => Program.only_bind (unmounted_of_domestic (domestic_put _ _)) fun _ => trivial

/-- The loop over the segments looks at the vector, and makes its calls. -/
theorem only_vectorLoop {A : Op → Prop} (hview : A (.act .view))
    (hlift : ∀ r : Except Errno ℕ, (lift r).Only A) {io : ℕ → ℕ → Handler ℤ}
    (hio : ∀ start len, (io start len).Only A) (vector count index : ℕ) (total : ℤ) :
    (vectorLoop io vector count index total).Only A := by
  induction count generalizing index total with
  | zero => trivial
  | succ count ih =>
    unfold vectorLoop
    refine Program.only_bind (p := view) ⟨hview, fun _ => trivial⟩ fun v => ?_
    refine Program.only_bind (hlift _) fun start => Program.only_bind (hlift _) fun len => ?_
    split
    · exact ih _ _
    apply Program.only_bind (Program.only_catching (hio _ _))
    rintro (fault | done)
    · dsimp only
      split <;> trivial
    · dsimp only
      split
      · trivial
      · exact ih _ _

theorem unmounted_readv : (readv a).Only (Op.lawful Op.unmounted) :=
  only_vectorLoop trivial (fun r => unmounted_of_domestic (domestic_lift r))
    (fun _ _ => unmounted_read _ _ _) _ _ _ _

theorem domestic_lseek : (lseek a).Only (Op.lawful Op.domestic) := by
  have answer : ∀ position : ℕ, (if i32Max < position then fail .overflow else return asI32 position :
      Handler ℤ).Only (Op.lawful Op.domestic) := by
    intro position
    split <;> trivial
  unfold lseek
  refine domestic_act trivial fun v => ?_
  apply Program.only_bind (domestic_lift _)
  rintro ⟨entry, desc⟩
  dsimp only
  split
  · split
    · trivial
    · exact Program.only_bind (domestic_fileAsk _ _ rfl) fun _ => answer _
  · split
    · exact domestic_act trivial fun _ => answer 0
    · exact answer 0
  · exact answer 0
  · exact answer 0
  · exact answer 0
  · trivial

theorem domestic_close : (close a).Only (Op.lawful Op.domestic) := by
  refine domestic_act (a := .close _) trivial ?_
  rintro (e | _ | handle)
  · trivial
  · trivial
  · exact domestic_env rfl fun _ => trivial

theorem domestic_dup : (dup a).Only (Op.lawful Op.domestic) := domestic_act trivial fun r => domestic_lift r

theorem domestic_dup3 : (dup3 a).Only (Op.lawful Op.domestic) := by
  unfold dup3
  split
  · trivial
  refine domestic_act (a := .dupTo _ _ _) trivial ?_
  rintro (e | _ | handle)
  · trivial
  · trivial
  · exact domestic_env rfl fun _ => trivial

theorem domestic_pipe2 : (pipe2 a).Only (Op.lawful Op.domestic) :=
  domestic_act trivial fun r => Program.only_bind (domestic_lift r) fun _ =>
    Program.only_bind (domestic_put _ _) fun _ => Program.only_bind (domestic_put _ _) fun _ => trivial

theorem unmounted_fcntl : (fcntl a).Only (Op.lawful Op.unmounted) := by
  unfold fcntl
  refine unmounted_act trivial fun v => ?_
  repeat' first
    | exact trivial
    | exact unmounted_of_domestic (domestic_lift _)
    | refine Program.only_bind (unmounted_of_domestic (domestic_lift _)) fun _ => ?_
    | refine unmounted_act trivial fun _ => ?_
    | split

theorem unmounted_ioctl : (ioctl a).Only (Op.lawful Op.unmounted) := by
  unfold ioctl putU32
  dsimp only
  refine unmounted_act trivial fun v => ?_
  repeat' first
    | exact trivial
    | exact unmounted_of_domestic (domestic_terminalIoctl _ _ _ _)
    | refine Program.only_bind (unmounted_of_domestic (domestic_lift _)) fun _ => ?_
    | refine Program.only_bind (unmounted_of_domestic (domestic_put _ _)) fun _ => ?_
    | refine unmounted_act trivial fun _ => ?_
    | split

theorem domestic_getdents64 : (getdents64 a).Only (Op.lawful Op.domestic) := by
  unfold getdents64
  refine domestic_act trivial fun v => ?_
  apply Program.only_bind (domestic_lift _)
  rintro ⟨entry, desc⟩
  dsimp only
  split
  · split
    · trivial
    · exact domestic_act trivial fun _ => Program.only_bind (domestic_put _ _) fun _ => trivial
  · trivial

theorem domestic_getcwd : (getcwd a).Only (Op.lawful Op.domestic) := by
  unfold getcwd
  refine domestic_act trivial fun v => ?_
  dsimp only
  split
  · trivial
  · exact Program.only_bind (domestic_put _ _) fun _ => Program.only_bind (domestic_put _ _) fun _ => trivial

theorem domestic_fchdir : (fchdir a).Only (Op.lawful Op.domestic) := by
  unfold fchdir
  refine domestic_act trivial fun v => ?_
  apply Program.only_bind (domestic_lift _)
  rintro ⟨entry, desc⟩
  dsimp only
  split
  · exact domestic_act trivial fun _ => trivial
  · trivial

theorem domestic_statfs : (statfs a).Only (Op.lawful Op.domestic) :=
  Program.only_bind (domestic_put _ _) fun _ => trivial

theorem domestic_ppoll : (ppoll a).Only (Op.lawful Op.domestic) := by
  have answer : ∀ (results : List (ℕ × ℕ)) (ready : ℤ), (do
      pollAnswer results
      return ready : Handler ℤ).Only (Op.lawful Op.domestic) := fun results _ =>
    Program.only_bind (domestic_pollAnswer results) fun _ => trivial
  unfold ppoll
  apply Program.only_bind (domestic_waitUntil _)
  intro limit
  refine domestic_act trivial fun v => Program.only_bind (domestic_lift _) fun entries => ?_
  dsimp only
  split
  · cases limit with
    | some limit => exact domestic_waitOn limit (answer _ _)
    | none =>
      dsimp only
      split
      · exact domestic_act trivial fun _ => trivial
      · trivial
  · exact answer _ _

theorem domestic_pselect : (pselect a).Only (Op.lawful Op.domestic) := by
  have answer : ∀ (r w e : List Bool) (ready : ℤ), (do
      writeFdSet (asU32 a.a1) r
      writeFdSet (asU32 a.a2) w
      writeFdSet (asU32 a.a3) e
      return ready : Handler ℤ).Only (Op.lawful Op.domestic) := fun _ _ _ _ =>
    Program.only_bind (domestic_writeFdSet _ _) fun _ => Program.only_bind (domestic_writeFdSet _ _) fun _ =>
      Program.only_bind (domestic_writeFdSet _ _) fun _ => trivial
  unfold pselect
  apply Program.only_bind (domestic_waitUntil _)
  intro limit
  refine domestic_act trivial fun v => Program.only_bind (domestic_lift _) fun readSet => ?_
  refine Program.only_bind (domestic_lift _) fun writeSet =>
    Program.only_bind (domestic_lift _) fun exceptSet => ?_
  dsimp only
  split
  · cases limit with
    | some limit => exact domestic_waitOn limit (answer _ _ _ _)
    | none => trivial
  · exact answer _ _ _ _

end Sys
end Wasmux
