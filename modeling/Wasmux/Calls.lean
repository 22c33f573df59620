import Wasmux.Footprint

/-!
# Every handler's footprint

The table of syscalls, handler by handler. Most are steady. The ones that can
wait look first, and take something only when they no longer have to.
-/

set_option autoImplicit false

namespace Wasmux
open Effects Abi

namespace Resolver

theorem silent_symlinkTarget (v : View) (guest : Text) : Silent (symlinkTarget v guest) := by
  unfold symlinkTarget
  repeat' first
    | exact silent_ret _
    | exact silent_fail _
    | refine silent_bind (silent_env _ rfl) fun _ => ?_
    | split

theorem silent_classifyFinal (v : View) (guest : Text) : Silent (classifyFinal v guest) := by
  unfold classifyFinal
  repeat' first
    | exact silent_ret _
    | exact silent_fail _
    | refine silent_bind (silent_env _ rfl) fun _ => ?_
    | split

theorem silent_walkFrom (v : View) (follow : Bool) (restart : List Text → Program sig Errno Node)
    (h : ∀ parts, Silent (restart parts)) (before parts : List Text) :
    Silent (walkFrom v follow restart before parts) := by
  induction parts generalizing before with
  | nil => exact silent_classifyFinal v _
  | cons part rest ih =>
    unfold walkFrom
    dsimp only
    split
    · refine silent_bind (silent_symlinkTarget v _) fun target => ?_
      cases target with
      | some target => exact h _
      | none => exact ih _
    · split
      · exact silent_ret _
      · exact ih _

theorem silent_walk (v : View) (follow : Bool) (hops : ℕ) (parts : List Text) :
    Silent (walk v follow hops parts) := by
  induction hops generalizing parts with
  | zero => exact silent_walkFrom v follow _ (fun _ => silent_fail _) [] parts
  | succ hops ih => exact silent_walkFrom v follow _ ih [] parts

theorem silent_resolve (v : View) (base path : Text) (follow : Bool) :
    Silent (resolve v base path follow) := by
  unfold resolve
  split
  · exact silent_fail _
  · exact silent_walk v follow _ _

end Resolver

theorem silentH_resolve (dirfd : ℤ) (path : Text) (follow : Bool) : SilentH (resolve dirfd path follow) := by
  unfold resolve
  refine silentH_bind silentH_view fun v => silentH_bind (silentH_lift _) fun base => ?_
  refine silentH_bind (silentH_catching (Resolver.silent_resolve v base path follow)) fun _ => ?_
  exact silentH_orVfsFault _

theorem silentH_elapsed : SilentH elapsed := by
  unfold elapsed
  exact silentH_bind silentH_view fun _ => silentH_bind (silentH_env _ rfl) fun _ => silentH_ret _

theorem steady_elapsed : Steady elapsed := by
  unfold elapsed
  exact steady_bind steady_view fun _ => steady_bind (steady_env _) fun _ => steady_ret _

theorem steady_putTimespec (start : ℕ) (d : Duration) : Steady (putTimespec start d) := by
  unfold putTimespec putU64 putU32
  repeat' first
    | exact steady_fail _
    | exact steady_put _ _
    | refine steady_bind (steady_put _ _) fun _ => ?_
    | split

theorem steady_closeAll (handles : List Handle) : Steady (closeAll handles) := by
  induction handles with
  | nil => exact steady_ret _
  | cons handle rest ih => exact steady_bind (steady_env _) fun _ => ih

theorem steady_memGrow (pages : ℕ) : SteadyIn Act.accounts (memGrow pages) := by
  unfold memGrow
  refine steadyIn_bind steady_view.within fun v => steadyIn_bind (steady_env _).within fun granted => ?_
  split
  · exact steadyIn_bind (steadyIn_act _ (fun _ => rfl) rfl rfl rfl rfl) fun _ => (steady_ret _).within
  · exact (steady_ret _).within

theorem steady_chargeAndGrow (pages : ℕ) : SteadyIn Act.accounts (chargeAndGrow pages) := by
  unfold chargeAndGrow
  refine steadyIn_bind (steadyIn_act _ (fun _ => rfl) rfl rfl rfl rfl) fun charged => ?_
  split
  · refine steadyIn_bind (steady_memGrow pages) fun grown => ?_
    cases grown with
    | some previous =>
      exact steadyIn_bind (steadyIn_act _ (fun _ => rfl) rfl rfl rfl rfl) fun _ => (steady_ret _).within
    | none =>
      exact steadyIn_bind (steadyIn_act _ (fun _ => rfl) rfl rfl rfl rfl) fun _ => (steady_ret _).within
  · exact (steady_ret _).within

theorem steady_terminalIoctl (v : View) (terminal : Terminal) (request argument : ℕ) :
    Steady (Sys.terminalIoctl v terminal request argument) := by
  unfold Sys.terminalIoctl putU32
  repeat' first
    | exact steady_ret _
    | exact steady_fail _
    | refine steady_bind (steady_put _ _) fun _ => ?_
    | refine steady_bind (steady_lift _) fun _ => ?_
    | refine steady_bind (steady_act _ (fun _ => rfl) rfl rfl rfl rfl) fun _ => ?_
    | split

theorem steady_listedEntries (guest : Text) (items : List DirEntry) :
    Steady (listedEntries guest items) := by
  induction items with
  | nil => exact steady_ret _
  | cons item rest ih =>
    unfold listedEntries
    dsimp only
    split
    · exact steady_bind (steady_env _) fun _ => steady_bind ih fun _ => steady_ret _
    · exact steady_bind (steady_ret _) fun _ => steady_bind ih fun _ => steady_ret _

theorem steady_mergeVirtual (names : List (Text × FileType)) (entries : List DirEnt) :
    Steady (mergeVirtual names entries) := by
  induction names generalizing entries with
  | nil => exact steady_ret _
  | cons item rest ih =>
    unfold mergeVirtual
    split
    · exact ih _
    · exact steady_bind (steady_env _) fun _ => ih _

theorem steady_virtualDirents (names : List (Text × FileType)) : Steady (virtualDirents names) := by
  induction names with
  | nil => exact steady_ret _
  | cons item rest ih =>
    exact steady_bind (steady_env _) fun _ => steady_bind ih fun _ => steady_ret _

theorem steady_procContent (guest : Text) : Steady (procContent guest) :=
  steady_bind steady_view fun _ => steady_bind steady_elapsed fun _ =>
    steady_bind (steady_env _) fun _ => steady_ret _

theorem steady_writeStatx (start : ℕ) (stat : Stat) (path : Text) (rdev : ℕ × ℕ) :
    Steady (writeStatx start stat path rdev) := by
  unfold writeStatx
  dsimp only
  split
  · exact steady_bind (steady_env _) fun _ => steady_put _ _
  · exact steady_put _ _

theorem steady_pollAnswer (results : List (ℕ × ℕ)) : Steady (Sys.pollAnswer results) := by
  induction results with
  | nil => exact steady_ret _
  | cons r rest ih => exact steady_bind (steady_put _ _) fun _ => ih

theorem steady_writeFdSet (start : ℕ) (values : List Bool) : Steady (Sys.writeFdSet start values) := by
  unfold Sys.writeFdSet
  split
  · exact steady_ret _
  · generalize List.range (divCeil values.length 32) = indices
    induction indices with
    | nil => exact steady_ret _
    | cons index rest ih => exact steady_bind (steady_put _ _) fun _ => ih

section
variable (a : Args)

namespace Sys

theorem steady_clone : Steady (clone a) := by
  unfold clone
  dsimp only
  split
  · exact steady_fail _
  · refine steady_bind (steady_act _ (fun _ => rfl) rfl rfl rfl rfl) fun r => ?_
    cases r with
    | some pid => exact steady_ret _
    | none => exact steady_fail _

theorem steady_getpid : Steady getpid := steady_bind steady_view fun _ => steady_ret _

theorem steady_getppid : Steady getppid := steady_bind steady_view fun _ => steady_ret _

theorem steady_setpgid : Steady (setpgid a) := by
  unfold setpgid
  refine steady_bind steady_view fun v => steady_ite ?_ (steady_fail _)
  exact steady_bind (steady_act _ (fun _ => rfl) rfl rfl rfl rfl) fun _ => steady_ret _

theorem steady_recordField (field : ProcRecord → ℤ) : Steady (recordField field a) := by
  unfold recordField
  refine steady_bind steady_view fun v => ?_
  split
  · exact steady_ret _
  · exact steady_fail _

theorem steady_setsid : Steady setsid := by
  unfold setsid
  refine steady_bind steady_view fun v => ?_
  split
  · exact steady_bind (steady_act _ (fun _ => rfl) rfl rfl rfl rfl) fun _ => steady_ret _
  · exact steady_fail _

theorem steady_schedGetaffinity : Steady (schedGetaffinity a) := by
  unfold schedGetaffinity
  dsimp only
  split
  · exact steady_bind (steady_put _ _) fun _ => steady_ret _
  · exact steady_ret _

theorem steady_umask : Steady (umask a) :=
  steady_bind steady_view fun _ =>
    steady_bind (steady_act _ (fun _ => rfl) rfl rfl rfl rfl) fun _ => steady_ret _

theorem steady_uname : Steady (uname a) := steady_bind (steady_put _ _) fun _ => steady_ret _

theorem steady_sysinfo : Steady (sysinfo a) :=
  steady_bind steady_view fun _ => steady_bind steady_elapsed fun _ =>
    steady_bind (steady_put _ _) fun _ => steady_ret _

theorem steady_prlimit64 : Steady (prlimit64 a) := by
  unfold prlimit64
  refine steady_bind steady_view fun v => ?_
  dsimp only
  split
  · exact steady_bind (steady_put _ _) fun _ => steady_bind (steady_put _ _) fun _ => steady_ret _
  · exact steady_ret _

theorem steady_getrusage : Steady (getrusage a) :=
  steady_bind (steady_put _ _) fun _ => steady_ret _

theorem steady_times : Steady (times a) := by
  unfold times
  dsimp only
  split
  · exact steady_bind (steady_put _ _) fun _ => steady_bind steady_elapsed fun _ => steady_ret _
  · exact steady_bind steady_elapsed fun _ => steady_ret _

theorem steady_getrandom : Steady (getrandom a) :=
  steady_bind steady_view fun _ => steady_bind (steady_lift _) fun _ =>
    steady_bind (steady_env _) fun _ => steady_bind (steady_put _ _) fun _ => steady_ret _

theorem steady_rtSigaction : Steady (rtSigaction a) := by
  have install : Steady (do
      if asU32 a.a1 ≠ 0 then
        if a.a0 = sigkill ∨ a.a0 = sigstop then fail .inval
        else
          let v ← view
          let handler ← lift (v.mem.u32 (asU32 a.a1))
          let flags ← lift (v.mem.u32 (wrapAdd (asU32 a.a1) 4))
          let mask ← lift (v.mem.u64 (wrapAdd (asU32 a.a1) 8))
          act (.setAction a.a0 ⟨handler, flags, BitVec.ofNat 64 mask⟩)
          return 0
      else return 0 : Handler ℤ) := by
    split
    · split
      · exact steady_fail _
      · exact steady_bind steady_view fun _ => steady_bind (steady_lift _) fun _ =>
          steady_bind (steady_lift _) fun _ => steady_bind (steady_lift _) fun _ =>
          steady_bind (steady_act _ (fun _ => rfl) rfl rfl rfl rfl) fun _ => steady_ret _
    · exact steady_ret _
  unfold rtSigaction
  dsimp only
  split
  · exact steady_fail _
  · refine steady_bind steady_view fun v => ?_
    split
    · exact steady_bind (steady_put _ _) fun _ => steady_bind (steady_put _ _) fun _ =>
        steady_bind (steady_put _ _) fun _ => steady_bind (steady_put _ _) fun _ => install
    · exact install

theorem steady_rtSigprocmask : Steady (rtSigprocmask a) := by
  have handBack : ∀ n, Steady (do
      if asU32 a.a2 ≠ 0 then putU64 (asU32 a.a2) n
      return 0 : Handler ℤ) := by
    intro n
    dsimp only
    split
    · exact steady_bind (steady_put _ _) fun _ => steady_ret _
    · exact steady_ret _
  unfold rtSigprocmask
  refine steady_bind steady_view fun v => ?_
  dsimp only
  split
  · refine steady_bind (steady_lift _) fun set => ?_
    split
    · exact steady_bind (steady_act _ (fun _ => rfl) rfl rfl rfl rfl) fun _ => handBack _
    · exact steady_bind (steady_fail _) fun _ => handBack _
  · exact handBack _

theorem steady_rtSigpending : Steady (rtSigpending a) :=
  steady_bind steady_view fun _ => steady_bind (steady_put _ _) fun _ => steady_ret _

theorem steady_sendSignal (target signal : ℤ) : Steady (sendSignal target signal) := by
  unfold sendSignal
  split
  · exact steady_fail _
  · refine steady_bind (steady_act _ (fun _ => rfl) rfl rfl rfl rfl) fun reached => ?_
    split
    · exact steady_ret _
    · exact steady_fail _

theorem steady_clockGettime64 : Steady (clockGettime64 a) := by
  unfold clockGettime64
  split
  · exact steady_bind (steady_env _) fun _ => steady_bind (steady_putTimespec _ _) fun _ =>
      steady_ret _
  · split
    · exact steady_bind steady_elapsed fun _ => steady_bind (steady_putTimespec _ _) fun _ =>
        steady_ret _
    · exact steady_fail _

theorem steady_clockGetresTime64 : Steady (clockGetresTime64 a) := by
  unfold clockGetresTime64
  dsimp only
  split
  · exact steady_bind (steady_putTimespec _ _) fun _ => steady_ret _
  · exact steady_ret _

theorem steady_gettimeofday : Steady (gettimeofday a) :=
  steady_bind (steady_env _) fun _ => steady_bind (steady_put _ _) fun _ =>
    steady_bind (steady_put _ _) fun _ => steady_ret _

theorem steady_brk : SteadyIn Act.accounts (brk a) := by
  unfold brk
  refine steadyIn_bind steady_view.within fun v => ?_
  dsimp only
  split
  · exact (steady_ret _).within
  · refine steadyIn_bind (steady_chargeAndGrow _) fun grown => ?_
    cases grown <;> exact (steady_ret _).within

theorem steady_close : Steady (close a) := by
  unfold close
  refine steady_bind (steady_act _ (fun _ => rfl) rfl rfl rfl rfl) fun r => ?_
  rcases r with e | _ | handle
  · exact steady_fail _
  · exact steady_ret _
  · exact steady_bind (steady_env _) fun _ => steady_ret _

theorem steady_dup : Steady (dup a) :=
  steady_bind (steady_act _ (fun _ => rfl) rfl rfl rfl rfl) fun _ => steady_lift _

theorem steady_dup3 : Steady (dup3 a) := by
  unfold dup3
  split
  · exact steady_fail _
  · refine steady_bind (steady_act _ (fun _ => rfl) rfl rfl rfl rfl) fun r => ?_
    rcases r with e | _ | handle
    · exact steady_fail _
    · exact steady_ret _
    · exact steady_bind (steady_env _) fun _ => steady_ret _

theorem steady_pipe2 : Steady (pipe2 a) :=
  steady_bind (steady_act _ (fun _ => rfl) rfl rfl rfl rfl) fun _ => steady_bind (steady_lift _) fun _ =>
    steady_bind (steady_put _ _) fun _ => steady_bind (steady_put _ _) fun _ => steady_ret _

theorem steady_fcntl : Steady (fcntl a) := by
  unfold fcntl
  refine steady_bind steady_view fun v => ?_
  split_ifs
  · exact steady_bind (steady_act _ (fun _ => rfl) rfl rfl rfl rfl) fun _ => steady_lift _
  · exact steady_bind (steady_lift _) fun _ => steady_ret _
  · exact steady_bind (steady_act _ (fun _ => rfl) rfl rfl rfl rfl) fun _ =>
      steady_bind (steady_lift _) fun _ => steady_ret _
  · exact steady_bind (steady_lift _) fun _ => steady_ret _
  · exact steady_bind (steady_lift _) fun _ =>
      steady_bind (steady_act _ (fun _ => rfl) rfl rfl rfl rfl) fun _ => steady_ret _
  · exact steady_bind (steady_lift _) fun _ => steady_ret _
  · exact steady_fail _

theorem steady_ioctl : Steady (ioctl a) := by
  unfold ioctl
  dsimp only
  refine steady_bind steady_view fun v => steady_bind (steady_lift _) fun entry => ?_
  split_ifs
  · exact steady_bind (steady_act _ (fun _ => rfl) rfl rfl rfl rfl) fun _ =>
      steady_bind (steady_lift _) fun _ => steady_ret _
  · exact steady_bind (steady_lift _) fun _ => steady_bind (steady_lift _) fun _ =>
      steady_bind (steady_act _ (fun _ => rfl) rfl rfl rfl rfl) fun _ => steady_ret _
  · exact steady_bind (steady_lift _) fun _ => steady_bind (steady_put _ _) fun _ => steady_ret _
  · refine steady_bind (steady_lift _) fun r => ?_
    split
    · exact steady_ite (steady_terminalIoctl _ _ _ _) (steady_fail _)
    · exact steady_fail _

theorem steady_getdents64 : Steady (getdents64 a) := by
  unfold getdents64
  refine steady_bind steady_view fun v => steady_bind (steady_lift _) fun r => ?_
  dsimp only
  split
  · split
    · exact steady_fail _
    · exact steady_bind (steady_act _ (fun _ => rfl) rfl rfl rfl rfl) fun _ =>
        steady_bind (steady_put _ _) fun _ => steady_ret _
  · exact steady_fail _

theorem steady_getcwd : Steady (getcwd a) := by
  unfold getcwd
  refine steady_bind steady_view fun v => ?_
  dsimp only
  split
  · exact steady_fail _
  · exact steady_bind (steady_put _ _) fun _ => steady_bind (steady_put _ _) fun _ => steady_ret _

theorem steady_fchdir : Steady (fchdir a) := by
  unfold fchdir
  refine steady_bind steady_view fun v => steady_bind (steady_lift _) fun r => ?_
  dsimp only
  split
  · exact steady_bind (steady_act _ (fun _ => rfl) rfl rfl rfl rfl) fun _ => steady_ret _
  · exact steady_fail _

theorem steady_statfs : Steady (statfs a) := steady_bind (steady_put _ _) fun _ => steady_ret _

end Sys

variable {κ : Kind}

theorem calm_wantStdin {α : Type} : Calm κ (act .wantStdin >>= fun _ => (.fail .block : Handler α)) := by
  intro t hg hs r _
  exact ⟨by simp [footprint, hg, hs], by simp [footprint, hg, Op.hands], fun _ => by simp, fun _ => by simp,
    fun _ => by simp [footprint, Op.times], fun _ _ => .inr rfl,
    fun _ _ => by simp [footprint, Op.consumes, Act.keeps], fun _ => by simp [footprint, Op.masks],
    fun _ => Or.inl⟩

theorem calm_readBytes (fd : ℤ) (len : ℕ) : Calm κ (readBytes fd len) := by
  unfold readBytes
  refine calm_ite (steady_ret _).calm ?_
  refine calm_bind silentH_view fun v => calm_bind (silentH_lift _) fun r => ?_
  dsimp only
  refine calm_ite (steady_fail _).calm ?_
  split
  · exact calm_then (calm_fileAsk _ _) fun _ => steady_ret _
  · exact (steady_bind (steady_act _ (fun _ => rfl) rfl rfl rfl rfl) fun _ => steady_ret _).calm
  · exact (steady_ret _).calm
  · exact (steady_ret _).calm
  · exact (steady_bind (steady_env _) fun _ => steady_ret _).calm
  · exact (steady_fail _).calm
  · exact (steady_fail _).calm
  · exact (steady_fail _).calm
  · refine calm_ite ?_ (steady_bind (steady_act _ (fun _ => rfl) rfl rfl rfl rfl) fun _ => steady_ret _).calm
    exact calm_ite (steady_ret _).calm (calm_ite (steady_fail _).calm calm_wantStdin)
  · split
    · exact (steady_fail _).calm
    · refine calm_ite ?_ (steady_bind (steady_act _ (fun _ => rfl) rfl rfl rfl rfl)
        fun _ => steady_ret _).calm
      exact calm_ite (steady_ret _).calm (calm_ite (steady_fail _).calm silentH_block.calm)

theorem calm_writeBytes (fd : ℤ) (data : Bytes) : Calm κ (writeBytes fd data) := by
  unfold writeBytes
  refine calm_bind silentH_view fun v => calm_bind (silentH_lift _) fun r => ?_
  dsimp only
  refine calm_ite (steady_fail _).calm ?_
  split
  · exact calm_ite (steady_fail _).calm (calm_fileAsk _ _)
  · exact (steady_ret _).calm
  · exact (steady_ret _).calm
  · exact (steady_ret _).calm
  · exact (steady_ret _).calm
  · exact (steady_fail _).calm
  · exact (steady_fail _).calm
  · exact (steady_fail _).calm
  · exact (steady_bind (steady_act _ (fun _ => rfl) rfl rfl rfl rfl) fun _ => steady_ret _).calm
  · split
    · exact (steady_fail _).calm
    · refine calm_ite
        (steady_bind (steady_act _ (fun _ => rfl) rfl rfl rfl rfl) fun _ => steady_fail _).calm ?_
      refine calm_ite (calm_ite (steady_fail _).calm silentH_block.calm) ?_
      exact (steady_bind (steady_act _ (fun _ => rfl) rfl rfl rfl rfl) fun _ => steady_ret _).calm

namespace Sys

theorem calm_read (fd : ℤ) (start length : ℕ) : Calm κ (read fd start length) := by
  unfold read
  refine calm_ite (steady_ret _).calm (calm_then (calm_readBytes _ _) fun r => ?_)
  exact steady_bind (steady_put _ _) fun _ => steady_ret _

theorem calm_write (fd : ℤ) (start length : ℕ) : Calm κ (write fd start length) := by
  unfold write
  refine calm_bind silentH_view fun v => calm_bind (silentH_lift _) fun data => ?_
  exact calm_then (calm_writeBytes _ _) fun _ => steady_ret _

theorem calm_lseek : Calm κ (lseek a) := by
  have last : ∀ position : ℕ, Steady
      (if i32Max < position then fail .overflow else .ret (asI32 position) : Handler ℤ) :=
    fun _ => steady_ite (steady_fail _) (steady_ret _)
  unfold lseek
  refine calm_bind silentH_view fun v => calm_bind (silentH_lift _) fun r => ?_
  dsimp only
  split
  · split
    · exact (steady_bind (steady_fail _) fun _ => last _).calm
    · exact calm_then (calm_fileAsk _ _) fun _ => last _
  · split
    · exact (steady_bind (steady_act _ (fun _ => rfl) rfl rfl rfl rfl) fun _ => last 0).calm
    · exact (last 0).calm
  · exact (last 0).calm
  · exact (last 0).calm
  · exact (last 0).calm
  · exact (steady_bind (steady_fail _) fun _ => last _).calm

theorem calm_ftruncate : Calm κ (ftruncate a) := by
  unfold ftruncate
  refine calm_bind silentH_view fun v => calm_bind (silentH_lift _) fun r => ?_
  dsimp only
  split
  · exact calm_ite (steady_fail _).calm (calm_then (calm_fileAsk _ _) fun _ => steady_ret _)
  · exact (steady_fail _).calm

theorem steady_deviceless (v : View) (flags mode : ℕ) (node : Node)
    (h : ∀ mount rel guest, node ≠ .mounted mount rel guest) : Steady (openNode v flags mode node) := by
  cases node with
  | program id guest => exact steady_ite (steady_fail _) (steady_ret _)
  | device device => exact steady_ret _
  | synth guest =>
    exact steady_ite (steady_fail _) (steady_bind (steady_procContent _) fun _ => steady_ret _)
  | virtualDir guest =>
    exact steady_ite (steady_fail _) (steady_bind (steady_virtualDirents _) fun _ => steady_ret _)
  | virtualLink target => exact steady_fail _
  | mounted mount rel guest => exact absurd rfl (h mount rel guest)

theorem calm_openMounted (v : View) (flags mode mount : ℕ) (rel guest : Text) :
    Calm κ (openMounted v flags mode mount rel guest) := by
  have rest : ∀ stat : Option Stat, Calm κ (openFound v flags mode mount rel guest stat) := by
    intro stat
    refine calm_ite (steady_fail _).calm (calm_ite (calm_ite (steady_fail _).calm ?_) ?_)
    · exact calm_then (calm_vfsAsk _ _) fun _ => steady_bind (steady_listedEntries _ _) fun _ =>
        steady_bind (steady_mergeVirtual _ _) fun _ => steady_ret _
    · exact calm_then (calm_vfsAsk _ _) fun _ => steady_ret _
  rw [openMounted_eq]
  refine calm_ite (steady_fail _).calm (calm_bind (silentH_env _ rfl) fun r => ?_)
  split
  · exact rest _
  · exact calm_ite (rest _) (calm_bind (silentH_vfsFault _) rest)

theorem calm_openNode (v : View) (flags mode : ℕ) (node : Node) :
    Calm κ (openNode v flags mode node) := by
  cases node with
  | mounted mount rel guest =>
    exact calm_then (calm_openMounted v flags mode mount rel guest) fun _ => steady_ret _
  | _ => exact (steady_deviceless v flags mode _ (by simp)).calm

theorem calm_openat : Calm κ (openat a) := by
  unfold openat
  refine calm_bind silentH_view fun v => calm_bind (silentH_lift _) fun path => ?_
  refine calm_bind (silentH_resolve _ _ _) fun node => ?_
  split
  · exact (steady_bind (steady_act _ (fun _ => rfl) rfl rfl rfl rfl) fun _ => steady_lift _).calm
  · refine calm_then (calm_openNode v _ _ _) fun _ => ?_
    refine steady_bind (steady_act _ (fun _ => rfl) rfl rfl rfl rfl) fun r => ?_
    rcases r with ⟨e, _ | handle⟩ | fd
    · exact steady_fail _
    · exact steady_bind (steady_env _) fun _ => steady_fail _
    · exact steady_ret _

theorem calm_chdir : Calm κ (chdir a) := by
  unfold chdir
  refine calm_bind silentH_view fun v => calm_bind (silentH_lift _) fun path => ?_
  refine calm_bind (silentH_resolve _ _ _) fun node => ?_
  split
  · exact (steady_bind (steady_act _ (fun _ => rfl) rfl rfl rfl rfl) fun _ => steady_ret _).calm
  · refine calm_bind (silentH_vfsAsk _ _ rfl) fun stat => calm_ite ?_ (steady_fail _).calm
    exact (steady_bind (steady_act _ (fun _ => rfl) rfl rfl rfl rfl) fun _ => steady_ret _).calm
  · exact (steady_fail _).calm

theorem silentH_statDesc (desc : Desc) : SilentH (statDesc desc) := by
  unfold statDesc
  split
  · exact silentH_bind (silentH_fileStat _) fun _ => silentH_ret _
  all_goals exact silentH_ret _

theorem silentH_procContent (guest : Text) : SilentH (procContent guest) :=
  silentH_bind silentH_view fun _ => silentH_bind silentH_elapsed fun _ =>
    silentH_bind (silentH_env _ rfl) fun _ => silentH_ret _

theorem silentH_statNode (path : Text) (follow : Bool) (node : Node) :
    SilentH (statNode path follow node) := by
  cases node with
  | synth guest => exact silentH_bind (silentH_procContent _) fun _ => silentH_ret _
  | mounted mount rel guest => exact silentH_bind (silentH_vfsAsk _ _ rfl) fun _ => silentH_ret _
  | _ => exact silentH_ret _

theorem calm_statx : Calm κ (statx a) := by
  have store : ∀ (stat : Stat) (name : Text) (rdev : ℕ × ℕ), Steady (
      if rdev = (0, 0) then do
        writeStatx (asU32 a.a4) stat name rdev
        return 0
      else do
        writeStatx (asU32 a.a4) { stat with fileType := .file } name rdev
        put (wrapAdd (asU32 a.a4) 28)
          (toLe 2 (sIfchr ||| if stat.mode = 0 then 0o666 else stat.mode))
        return 0 : Handler ℤ) := fun stat name rdev =>
    steady_ite (steady_bind (steady_writeStatx _ _ _ _) fun _ => steady_ret _)
      (steady_bind (steady_writeStatx _ _ _ _) fun _ =>
        steady_bind (steady_put _ _) fun _ => steady_ret _)
  unfold statx
  refine calm_bind silentH_view fun v => calm_bind (silentH_lift _) fun path => ?_
  dsimp only
  split
  · exact calm_bind (silentH_lift _) fun r => calm_bind (silentH_statDesc _) fun r' =>
      (store r'.1 r'.2.1 r'.2.2).calm
  · exact calm_bind (silentH_resolve _ _ _) fun node => calm_bind (silentH_statNode _ _ _) fun r =>
      (store r.1 r.2.1 r.2.2).calm

theorem calm_faccessat : Calm κ (faccessat a) := by
  unfold faccessat
  refine calm_bind silentH_view fun v => calm_bind (silentH_lift _) fun path => ?_
  refine calm_bind (silentH_resolve _ _ _) fun node => ?_
  split
  · exact calm_bind (silentH_vfsAsk _ _ rfl) fun _ => (steady_ret _).calm
  · exact (steady_ret _).calm

theorem calm_readlinkat : Calm κ (readlinkat a) := by
  have store : ∀ target : Text, Steady (do
      put (asU32 a.a2) (target.take (min target.length (asU32 a.a3)))
      return asI32 (min target.length (asU32 a.a3) : ℕ) : Handler ℤ) := fun _ =>
    steady_bind (steady_put _ _) fun _ => steady_ret _
  unfold readlinkat
  refine calm_bind silentH_view fun v => calm_bind (silentH_lift _) fun path => ?_
  refine calm_bind (silentH_resolve _ _ _) fun node => ?_
  dsimp only
  split
  · exact (store _).calm
  · exact calm_bind (silentH_lift _) fun r => (store _).calm
  · exact calm_bind (silentH_vfsAsk _ _ rfl) fun target => (store target).calm
  · exact calm_bind (silentH_fail _) fun target => (store target).calm

theorem calm_changeMount (v : View) (mount : ℕ) (call : VfsCall) :
    Calm κ (changeMount v mount call) := by
  unfold changeMount
  exact calm_ite (steady_fail _).calm (calm_then (calm_vfsAsk _ _) fun _ => steady_ret _)

theorem calm_truncate : Calm κ (truncate a) := by
  unfold truncate
  refine calm_bind silentH_view fun v => calm_bind (silentH_lift _) fun path => ?_
  refine calm_bind (silentH_resolve _ _ _) fun node => ?_
  split
  · exact calm_changeMount _ _ _
  · exact (steady_fail _).calm

theorem calm_makeAt (v : View) (dirfd : ℤ) (path : Text) (follow : Bool) (call : Text → VfsCall) :
    Calm κ (makeAt v dirfd path follow call) := by
  intro t hg hs
  unfold makeAt
  rw [Program.sat_bind, Program.sat_catching]
  refine (silentH_resolve dirfd path follow t).mono fun u r hr => ?_
  obtain ⟨rfl, he⟩ := hr
  dsimp only
  split
  · exact calm_changeMount _ _ _ u hg hs
  · exact (steady_fail _).calm u hg hs
  · split
    · exact (steady_fail _).calm u hg hs
    · exact (steady_fail _).calm u hg hs
  · rename_i fault _
    cases fault with
    | errno e => exact (steady_fail e).calm u hg hs
    | block => exact silentH_block.calm u hg hs
    | exit status => exact absurd rfl (he.2 status)
    | exec => exact absurd rfl he.1

theorem calm_mkdirat : Calm κ (mkdirat a) := by
  unfold mkdirat
  exact calm_bind silentH_view fun v => calm_bind (silentH_lift _) fun path => calm_makeAt _ _ _ _ _

theorem calm_symlinkat : Calm κ (symlinkat a) := by
  unfold symlinkat
  exact calm_bind silentH_view fun v => calm_bind (silentH_lift _) fun target =>
    calm_bind (silentH_lift _) fun path => calm_makeAt _ _ _ _ _

theorem calm_unlinkat : Calm κ (unlinkat a) := by
  unfold unlinkat
  refine calm_bind silentH_view fun v => calm_bind (silentH_lift _) fun path => ?_
  refine calm_bind (silentH_resolve _ _ _) fun node => ?_
  split
  · exact calm_changeMount _ _ _
  · exact (steady_fail _).calm

theorem calm_renameat : Calm κ (renameat a) := by
  unfold renameat
  refine calm_bind silentH_view fun v => calm_bind (silentH_lift _) fun fromPath => ?_
  refine calm_bind (silentH_lift _) fun toPath => calm_bind (silentH_resolve _ _ _) fun source => ?_
  refine calm_bind (silentH_resolve _ _ _) fun target => ?_
  split
  · exact calm_ite (steady_fail _).calm (calm_changeMount _ _ _)
  · exact (steady_fail _).calm

theorem calm_fchmodat : Calm κ (fchmodat a) := by
  unfold fchmodat
  refine calm_bind silentH_view fun v => calm_bind (silentH_lift _) fun path => ?_
  refine calm_bind (silentH_resolve _ _ _) fun node => ?_
  split
  · exact calm_changeMount _ _ _
  · exact (steady_ret _).calm

theorem calm_utimensat : Calm κ (utimensat a) := by
  unfold utimensat
  refine calm_bind silentH_view fun v => calm_bind (silentH_lift _) fun path => ?_
  refine calm_ite (steady_ret _).calm (calm_bind (silentH_resolve _ _ _) fun node => ?_)
  split
  · exact calm_bind (silentH_vfsAsk _ _ rfl) fun _ => (steady_ret _).calm
  · exact (steady_ret _).calm

theorem calm_wait4 (hκ : κ.rare = Act.reaps) : Calm κ (wait4 a) := by
  have report : ∀ child status : ℤ, Steady (do
      if asU32 a.a3 ≠ 0 then put (asU32 a.a3) (List.replicate 72 0)
      return child : Handler ℤ) := fun child status => by
    dsimp only
    split
    · exact steady_bind (steady_put _ _) fun _ => steady_ret _
    · exact steady_ret _
  unfold wait4
  refine calm_bind silentH_view fun v => ?_
  dsimp only
  refine calm_ite (steady_fail _).calm ?_
  split
  · exact calm_ite (steady_ret _).calm silentH_block.calm
  · refine calm_steadyIn (hκ ▸ steadyIn_bind (steadyIn_act _ (fun _ => rfl) rfl rfl rfl rfl)
      fun _ => Steady.within ?_)
    split
    · exact steady_bind (steady_put _ _) fun _ => report _ 0
    · exact report _ 0

theorem calm_rtSigsuspend (hκ : κ.masks = true) : Calm κ (rtSigsuspend a) := by
  have wait : Calm κ (view >>= fun v => if v.live ≠ 0 then fail .intr else .fail .block : Handler ℤ) :=
    calm_bind silentH_view fun v => calm_ite (steady_fail _).calm silentH_block.calm
  unfold rtSigsuspend
  refine calm_bind silentH_view fun v => calm_bind (silentH_lift _) fun mask t hg hs r _ => ?_
  have hnext : footprint.next t (.act (.suspendMask (BitVec.ofNat 64 mask))) r =
      { t with masked := true } := by
    simp [footprint, Op.opens, Op.consumes, Act.keeps, Op.hands, Op.moves, Act.moves, Op.times,
      Op.wants, Op.masks, Op.rare, Act.rare]
  rw [hnext]
  exact (wait { t with masked := true } hg hs).mono fun u r hr =>
    ⟨hr.stray, hr.gone, hr.hands, hr.quits, hr.timed, hr.wanted, hr.busy, fun h => by simp [hκ] at h, hr.rare⟩

end Sys

theorem patient_deadline (after : Duration) : Patient (deadline after) := by
  have set : ∀ limit : Instant,
      Patient (act (.setDeadline limit) >>= fun _ => (.ret limit : Handler Instant)) := by
    intro limit t r _
    exact ⟨⟨true, by simp [footprint, Op.opens, Op.consumes, Op.hands, Op.moves, Op.times, Op.wants,
      Op.masks, Op.rare, Act.keeps, Act.moves, Act.rare]⟩, by simp⟩
  unfold deadline
  refine patient_bind (silentH_act _ rfl).patient fun limit => ?_
  cases limit with
  | some limit => exact (silentH_ret _).patient
  | none =>
    refine patient_bind (silentH_env _ rfl).patient fun t => ?_
    refine patient_bind (silentH_env _ rfl).patient fun max => ?_
    dsimp only
    split
    · exact patient_bind (silentH_ret _).patient set
    · exact patient_bind (silentH_env _ rfl).patient set

theorem patient_waitUntil (timeoutAt : ℕ) : Patient (waitUntil timeoutAt) := by
  unfold waitUntil
  split
  · exact (silentH_ret _).patient
  · exact patient_bind silentH_view.patient fun v => patient_bind (silentH_lift _).patient fun _ =>
      patient_bind (patient_deadline _) fun _ => (silentH_ret _).patient

theorem calm_waitOn (hκ : κ.timed = true) (limit : Instant) {done : Handler ℤ} (h : Steady done) :
    Calm κ (waitOn limit done) := by
  unfold waitOn
  refine calm_bind (silentH_env _ rfl) fun t => calm_ite ?_ h.calm
  intro u hg hs r _
  exact ⟨by simp [footprint, hg, hs], by simp [footprint, hg, Op.hands], fun _ => by simp, fun _ => by simp,
    fun h => by simp [hκ] at h, fun _ h => .inl (by simpa [footprint, Op.wants] using h),
    fun _ _ => by simp [footprint, Op.consumes, Act.keeps], fun _ => by simp [footprint, Op.masks],
    fun _ => Or.inl⟩

namespace Sys

theorem calm_nanosleep (hκ : κ.timed = true) : Calm κ (nanosleep a) := by
  unfold nanosleep
  refine calm_bind silentH_view fun v => calm_bind (silentH_lift _) fun requested => ?_
  exact calm_patient hκ (patient_deadline _) fun limit => calm_waitOn hκ limit (steady_ret _)

theorem calm_clockNanosleepTime64 (hκ : κ.timed = true) : Calm κ (clockNanosleepTime64 a) := by
  have sleep : ∀ after : Duration, Calm κ (deadline after >>= sleepUntil) := fun after =>
    calm_patient hκ (patient_deadline _) fun limit => calm_waitOn hκ limit (steady_ret _)
  unfold clockNanosleepTime64
  refine calm_bind silentH_view fun v => calm_bind (silentH_lift _) fun requested => ?_
  refine calm_ite ?_ (sleep _)
  dsimp only
  split
  · exact calm_bind (silentH_env _ rfl) fun _ => sleep _
  · exact calm_bind silentH_elapsed fun _ => sleep _

theorem calm_ppoll (hκ : κ.timed = true) : Calm κ (ppoll a) := by
  unfold ppoll
  refine calm_patient hκ (patient_waitUntil _) fun limit => ?_
  refine calm_bind silentH_view fun v => calm_bind (silentH_lift _) fun entries => ?_
  have answer : ∀ results : List (ℕ × ℕ), ∀ ready : ℤ, Steady (do
      pollAnswer results
      return ready : Handler ℤ) := fun _ _ =>
    steady_bind (steady_pollAnswer _) fun _ => steady_ret _
  dsimp only
  refine calm_ite ?_ (answer _ _).calm
  cases limit with
  | some limit => exact calm_waitOn hκ limit (answer _ _)
  | none =>
    dsimp only
    split
    · exact calm_wantStdin
    · exact silentH_block.calm

theorem calm_pselect (hκ : κ.timed = true) : Calm κ (pselect a) := by
  unfold pselect
  refine calm_patient hκ (patient_waitUntil _) fun limit => ?_
  refine calm_bind silentH_view fun v => calm_bind (silentH_lift _) fun readSet => ?_
  refine calm_bind (silentH_lift _) fun writeSet => calm_bind (silentH_lift _) fun exceptSet => ?_
  have answer : ∀ r w e : List Bool, ∀ ready : ℤ, Steady (do
      writeFdSet (asU32 a.a1) r
      writeFdSet (asU32 a.a2) w
      writeFdSet (asU32 a.a3) e
      return ready : Handler ℤ) := fun _ _ _ _ =>
    steady_bind (steady_writeFdSet _ _) fun _ => steady_bind (steady_writeFdSet _ _) fun _ =>
      steady_bind (steady_writeFdSet _ _) fun _ => steady_ret _
  dsimp only
  refine calm_ite ?_ (answer _ _ _ _).calm
  cases limit with
  | some limit => exact calm_waitOn hκ limit (answer _ _ _ _)
  | none => exact silentH_block.calm

/-- The loop over segments is as calm as what it does to each, but it may have
served some before it comes to one that waits. -/
theorem calm_vectorLoop (hl : κ.loose = true) (hh : κ.hands = false) (hq : κ.quits = false)
    (io : ℕ → ℕ → Handler ℤ) (h : ∀ start len, Calm κ (io start len)) (vector count index : ℕ) (total : ℤ) :
    Calm κ (vectorLoop io vector count index total) := by
  induction count generalizing index total with
  | zero => exact (steady_ret _).calm
  | succ count ih =>
    unfold vectorLoop
    refine calm_bind silentH_view fun v => ?_
    dsimp only
    refine calm_bind (silentH_lift _) fun start => calm_bind (silentH_lift _) fun len => ?_
    refine calm_ite (ih _ _) ?_
    intro t hg hs
    rw [Program.sat_bind, Program.sat_catching]
    refine (h start len t hg hs).mono fun u r hr => ?_
    have hgone : u.gone = false := by
      rw [← Bool.not_eq_true, hr.gone]
      exact hr.hands hh
    have onwards : ∀ {p : Handler ℤ}, Calm κ p → p.Sat footprint u (Ended κ t) := fun hp =>
      (hp u hgone hr.stray).mono fun v r' hr' => ⟨hr'.stray, hr'.gone, hr'.hands, hr'.quits,
        fun h => (hr'.timed h).trans (hr.timed h), fun h => by simp [hl] at h,
        fun h => by simp [hl] at h, fun h => (hr'.masked h).trans (hr.masked h),
        fun b hb => (hr'.rare b hb).elim (hr.rare b) Or.inr⟩
    cases r with
    | ok done => exact onwards (calm_ite (steady_ret _).calm (ih _ _))
    | error fault =>
      refine onwards (calm_ite (steady_ret _).calm ?_)
      cases fault with
      | errno e => exact (steady_fail e).calm
      | block => exact silentH_block.calm
      | exit status => exact absurd rfl (hr.quits hq status)
      | exec => exact absurd rfl (hr.hands hh)

end Sys

theorem steady_catching_fillFrom (file : Handle) (turns : ℕ) (buffer : Bytes) (filled : ℕ) :
    Steady ((Sys.fillFrom file turns buffer filled).catching : Handler (Except Errno Bytes)) := by
  induction turns generalizing buffer filled with
  | zero => exact steady_ret _
  | succ turns ih =>
    unfold Sys.fillFrom
    split
    · exact steady_ret _
    · refine steady_call (fun _ => rfl) rfl rfl rfl rfl fun r => ?_
      rcases r with e | ⟨n, window⟩
      · exact steady_ret _
      · dsimp only [Program.bind]
        split
        · exact steady_ret _
        · exact ih _ _

theorem catching_bind {α β ε δ : Type} (p : Program sig ε α) (f : α → Program sig ε β) :
    ((p >>= f).catching : Program sig δ (Except ε β)) = p.catching >>= fun r => match r with
      | .ok a => (f a).catching
      | .error e => .ret (.error e) := by
  induction p with
  | ret a => rfl
  | fail e => rfl
  | call o k ih => simp [Program.catching, ih]

theorem steady_catching_bind {α β : Type} {p : Program sig Errno α} {f : α → Program sig Errno β}
    (hp : Steady (p.catching : Handler (Except Errno α)))
    (hf : ∀ a, Steady ((f a).catching : Handler (Except Errno β))) :
    Steady ((p >>= f).catching : Handler (Except Errno β)) := by
  rw [catching_bind]
  refine steady_bind hp fun r => ?_
  cases r with
  | ok a => exact hf a
  | error e => exact steady_ret _

theorem steady_catching_askFile (file : Handle) (call : FileCall) :
    Steady ((Sys.askFile file call).catching : Handler (Except Errno call.Ans)) := by
  refine steady_call (fun _ => rfl) rfl rfl rfl rfl fun r => ?_
  cases r <;> exact steady_ret _

theorem steady_catching_readMapping (file : Handle) (offset length : ℕ) :
    Steady ((Sys.readMapping file offset length).catching : Handler (Except Errno Bytes)) := by
  unfold Sys.readMapping
  refine steady_catching_bind (steady_catching_askFile _ _) fun saved => ?_
  refine steady_catching_bind (steady_catching_askFile _ _) fun _ => ?_
  refine steady_catching_bind (steady_catching_fillFrom _ _ _ _) fun buffer => ?_
  exact steady_call (fun _ => rfl) rfl rfl rfl rfl fun r => steady_ret _

theorem steady_closing (handles : List Handle) : ∀ t : Mark, (closeAll handles).Sat footprint t
    fun u r => (u.gone = t.gone ∧ u.stray = t.stray ∧ u.timed = t.timed ∧ u.wanted = t.wanted ∧
      u.masked = t.masked ∧ u.rare = t.rare) ∧ r = .ok () := by
  induction handles with
  | nil => exact fun _ => ⟨⟨rfl, rfl, rfl, rfl, rfl, rfl⟩, rfl⟩
  | cons handle rest ih =>
    intro t r _
    refine (ih _).mono fun u r' hr' => ?_
    simpa [footprint, Op.hands, Op.moves, Op.times, Op.wants, Op.masks, Op.rare] using hr'

theorem calm_finishExec (hκ : κ.hands = true) (program : ProgramId) (exe : Text)
    (argv envp : List Bytes) : Calm κ (finishExec program exe argv envp) := by
  intro t hg hs r _
  obtain ⟨pid, handles⟩ := r
  dsimp only [Program.bind]
  rw [Program.sat_bind]
  refine (steady_closing handles _).mono fun u r hr => ?_
  obtain ⟨⟨hgone, hstray, htimed, hwanted, hmasked, hrare⟩, rfl⟩ := hr
  have hstray' : u.stray = false := hstray.trans (by simp [footprint, hg, hs])
  have htimed' : u.timed = t.timed := htimed.trans (by simp [footprint, Op.times])
  have hwanted' : u.wanted = t.wanted := hwanted.trans (by simp [footprint, Op.wants])
  have hmasked' : u.masked = t.masked := hmasked.trans (by simp [footprint, Op.masks])
  have hrare' : u.rare = t.rare := hrare.trans (by simp [footprint, Op.rare, Act.rare])
  cases pid with
  | some pid =>
    have hgone' : u.gone = false := hgone.trans (by simp [footprint, hg, Op.hands])
    exact ⟨hstray', by simp [hgone'], fun _ => by simp, fun _ => by simp, fun _ => htimed',
      fun _ h => .inl (hwanted' ▸ h), fun _ h => by simp at h, fun _ => hmasked',
      fun b hb => .inl (hrare' ▸ hb)⟩
  | none =>
    have hgone' : u.gone = true := hgone.trans (by simp [footprint, Op.hands])
    exact ⟨hstray', by simp [hgone'], fun h => by simp [hκ] at h, fun _ => by simp, fun _ => htimed',
      fun _ h => .inl (hwanted' ▸ h), fun _ h => by simp at h, fun _ => hmasked',
      fun b hb => .inl (hrare' ▸ hb)⟩

namespace Sys

theorem vfsFault_bind {α β : Type} (e : Errno) (f : α → Handler β) :
    (vfsFault e >>= f) = vfsFault e := by
  unfold vfsFault
  split <;> rfl

theorem calm_execScript (hκ : κ.hands = true) (mount : ℕ) (rel path : Text) (argv envp : List Bytes) :
    Calm κ (execScript mount rel path argv envp) := by
  intro t hg hs r _
  cases r with
  | error e =>
    have hnext : footprint.next t (.env (.vfs mount (.openFile rel .readOnly))) (.error e) = t :=
      t.unmarked
    rw [hnext]
    change Program.Sat footprint (vfsFault e >>= _) t _
    rw [vfsFault_bind]
    exact (silentH_vfsFault e).calm t hg hs
  | ok file =>
    have hnext : footprint.next t (.env (.vfs mount (.openFile rel .readOnly))) (.ok file) =
        { t with own := file :: t.own } := by
      simp [footprint, Op.opens, Op.consumes, VfsCall.changes, OpenOptions.readOnly, Op.hands,
        Op.moves, Op.times, Op.wants, Op.masks, Op.rare]
    rw [hnext]
    -- Once the script is open, its file is the call's own.
    have hown : file ∈ ({ t with own := file :: t.own } : Mark).own := List.mem_cons_self
    refine Program.Sat.mono (fun u r hr =>
      ⟨hr.stray, hr.gone, hr.hands, hr.quits, hr.timed, hr.wanted, hr.busy, hr.masked, hr.rare⟩)
      (?_ : Program.Sat footprint (fileAsk file (.read 256) >>= _) _
        (Ended κ { t with own := file :: t.own }))
    refine ended_bind hg hs (sat_ownFile _ file _ hown) fun a r _ => ?_
    rw [footprint_own _ file .close hown r]
    dsimp only [Program.bind]
    split
    · exact (steady_fail _).calm _ hg hs
    · refine calm_bind (silentH_resolve _ _ _) (fun node => ?_) _ hg hs
      cases node with
      | program id guest => exact calm_finishExec hκ _ _ _ _
      | _ => exact (steady_fail _).calm

theorem calm_execve (hκ : κ.hands = true) : Calm κ (execve a) := by
  unfold execve
  refine calm_bind silentH_view fun v => calm_bind (silentH_lift _) fun path => ?_
  refine calm_bind (silentH_lift _) fun argv => calm_bind (silentH_lift _) fun envp => ?_
  refine calm_bind (silentH_resolve _ _ _) fun node => ?_
  cases node with
  | program id guest => exact calm_finishExec hκ _ _ _ _
  | mounted mount rel guest =>
    refine calm_bind (silentH_env _ rfl) fun r => ?_
    cases r with
    | ok stat => exact calm_ite (steady_fail _).calm (calm_execScript hκ _ _ _ _ _)
    | error e => exact calm_execScript hκ _ _ _ _ _
  | _ => exact (steady_fail _).calm

theorem calm_mmap (hκ : κ.loose = true) (hr : κ.rare = Act.accounts) : Calm κ (mmap a) := by
  unfold mmap
  dsimp only
  refine calm_ite (steady_fail _).calm (calm_ite (steady_fail _).calm ?_)
  refine calm_bind silentH_view fun v => calm_ite (steady_fail _).calm ?_
  refine calm_loose hκ (hr ▸ steady_chargeAndGrow _) fun grown => ?_
  cases grown with
  | none => exact (steady_fail _).calm
  | some previous =>
    refine calm_ite (steady_ret _).calm (calm_bind (silentH_lift _) fun r => ?_)
    split
    · refine calm_loose hκ (steady_catching_readMapping _ _ _).within fun r => ?_
      refine calm_bind (silentH_orVfsFault _) fun buffer => ?_
      exact (steady_bind (steady_put _ _) fun _ => steady_ret _).calm
    · exact (steady_fail _).calm

theorem calm_exit (hκ : κ.quits = true) : Calm κ (exit a) := by
  refine calm_quits hκ (steady_act _ (fun _ => rfl) rfl rfl rfl rfl) fun r => ?_
  rcases r with _ | ⟨pid, handles⟩
  · exact .inr ⟨_, rfl⟩
  · exact .inl (steady_bind (steady_closeAll handles) fun _ => steady_ret _)

theorem calm_readv (hl : κ.loose = true) (hh : κ.hands = false) (hq : κ.quits = false) : Calm κ (readv a) :=
  calm_vectorLoop hl hh hq _ (fun _ _ => calm_read _ _ _) _ _ _ _

theorem calm_writev (hl : κ.loose = true) (hh : κ.hands = false) (hq : κ.quits = false) : Calm κ (writev a) :=
  calm_vectorLoop hl hh hq _ (fun _ _ => calm_write _ _ _) _ _ _ _

end Sys

end

/-- What kind of call a number is: who may wait for an instant, who may have
served a part before it waits, who may hand the process over, who waits under a
mask of its own, and who ends the process. -/
def Nr.kind : Nr → Kind
  | .nanosleep | .clockNanosleepTime64 | .ppollTime64 | .pselect6Time64 => { Kind.plain with timed := true }
  | .readv | .writev => { Kind.plain with loose := true }
  | .mmap => { Kind.plain with loose := true, rare := Act.accounts }
  | .brk => { Kind.plain with rare := Act.accounts }
  | .wait4 => { Kind.plain with rare := Act.reaps }
  | .execve => { Kind.plain with hands := true }
  | .rtSigsuspend => { Kind.plain with masks := true }
  | .exit | .exitGroup => { Kind.plain with quits := true }
  | _ => .plain

/-- The footprint of the whole table. -/
theorem calm_handle (number : ℤ) (a : Args) : Calm (Nr.ofInt number).kind (handle number a) := by
  unfold handle
  cases Nr.ofInt number with
  | exit | exitGroup => exact Sys.calm_exit a rfl
  | clone => exact (Sys.steady_clone a).calm
  | execve => exact Sys.calm_execve a rfl
  | wait4 => exact Sys.calm_wait4 a rfl
  | getpid | gettid | setTidAddress => exact Sys.steady_getpid.calm
  | getppid => exact Sys.steady_getppid.calm
  | setpgid => exact (Sys.steady_setpgid a).calm
  | getpgid => exact (Sys.steady_recordField a _).calm
  | setsid => exact Sys.steady_setsid.calm
  | getsid => exact (Sys.steady_recordField a _).calm
  | schedGetaffinity => exact (Sys.steady_schedGetaffinity a).calm
  | umask => exact (Sys.steady_umask a).calm
  | uname => exact (Sys.steady_uname a).calm
  | sysinfo => exact (Sys.steady_sysinfo a).calm
  | prlimit64 => exact (Sys.steady_prlimit64 a).calm
  | getrusage => exact (Sys.steady_getrusage a).calm
  | times => exact (Sys.steady_times a).calm
  | getrandom => exact (Sys.steady_getrandom a).calm
  | rtSigaction => exact (Sys.steady_rtSigaction a).calm
  | rtSigprocmask => exact (Sys.steady_rtSigprocmask a).calm
  | rtSigpending => exact (Sys.steady_rtSigpending a).calm
  | rtSigsuspend => exact Sys.calm_rtSigsuspend a rfl
  | kill | tkill => exact (Sys.steady_sendSignal _ _).calm
  | tgkill => exact (Sys.steady_sendSignal _ _).calm
  | clockGettime64 => exact (Sys.steady_clockGettime64 a).calm
  | clockGetresTime64 => exact (Sys.steady_clockGetresTime64 a).calm
  | gettimeofday => exact (Sys.steady_gettimeofday a).calm
  | nanosleep => exact Sys.calm_nanosleep a rfl
  | clockNanosleepTime64 => exact Sys.calm_clockNanosleepTime64 a rfl
  | brk => exact calm_steadyIn (Sys.steady_brk a)
  | mmap => exact Sys.calm_mmap a rfl rfl
  | openat => exact Sys.calm_openat a
  | close => exact (Sys.steady_close a).calm
  | read => exact Sys.calm_read _ _ _
  | write => exact Sys.calm_write _ _ _
  | readv => exact Sys.calm_readv a rfl rfl rfl
  | writev => exact Sys.calm_writev a rfl rfl rfl
  | lseek => exact Sys.calm_lseek a
  | ftruncate => exact Sys.calm_ftruncate a
  | truncate => exact Sys.calm_truncate a
  | dup => exact (Sys.steady_dup a).calm
  | dup3 => exact (Sys.steady_dup3 a).calm
  | pipe2 => exact (Sys.steady_pipe2 a).calm
  | fcntl => exact (Sys.steady_fcntl a).calm
  | ioctl => exact (Sys.steady_ioctl a).calm
  | getdents64 => exact (Sys.steady_getdents64 a).calm
  | getcwd => exact (Sys.steady_getcwd a).calm
  | chdir => exact Sys.calm_chdir a
  | fchdir => exact (Sys.steady_fchdir a).calm
  | statx => exact Sys.calm_statx a
  | faccessat | faccessat2 => exact Sys.calm_faccessat a
  | readlinkat => exact Sys.calm_readlinkat a
  | mkdirat => exact Sys.calm_mkdirat a
  | unlinkat => exact Sys.calm_unlinkat a
  | renameat | renameat2 => exact Sys.calm_renameat a
  | symlinkat => exact Sys.calm_symlinkat a
  | fchmodat => exact Sys.calm_fchmodat a
  | utimensatTime64 => exact Sys.calm_utimensat a
  | statfs | fstatfs => exact (Sys.steady_statfs a).calm
  | ppollTime64 => exact Sys.calm_ppoll a rfl
  | pselect6Time64 => exact Sys.calm_pselect a rfl
  | mremap | newfstatat | fstat | linkat | other => exact (steady_fail _).calm
  | _ => exact (steady_ret _).calm

end Wasmux
