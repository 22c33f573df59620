import Wasmux.Guarded
import Wasmux.Kinds
import Wasmux.Mild
import Wasmux.Upholding

/-!
# How a file was opened

A description keeps the access mode its file was opened with. Writing looks at
it, whatever has become of the descriptor since; setting the length does not.
-/

set_option autoImplicit false

namespace Wasmux
open Effects Abi Sys

/-- A description has the access mode that its file was opened with. -/
def Desc.OpenedAs (mode : Handle → Bool) (d : Desc) : Prop :=
  ∀ file i closed, d.kind = .file file i closed → mode file = d.writable

theorem aboutFiles_openedAs (mode : Handle → Bool) : Desc.AboutFiles (Desc.OpenedAs mode) where
  other _ h file i closed hkind := absurd hkind (h file i closed)
  same d e hflags hkind h file i closed he := by
    rw [h file i closed (hkind file i closed he), Desc.writable, Desc.writable, hflags]

/-- The mode of a file is the one it was asked to be opened with. -/
def Op.Modes {W : Type} (x : Env W) (mode : Handle → Bool) : Op → Machine × W → Prop
  | .env (.vfs i (.openFile path opts)), (m, w) => ∀ file,
    ((EnvCall.vfs i (.openFile path opts)).answer x m.shared.mounts w).1 = .ok file → mode file = opts.write
  | _, _ => True

/-- The calls that put something into a file, those that set its length with them or not. -/
def FileCall.mutates (lengths : Bool) : FileCall → Bool
  | .write _ => true
  | .setLen _ => lengths
  | _ => false

/-- No file is changed that a description without leave to write is open on. -/
def Op.Heeds {W : Type} (lengths : Bool) : Op → Machine × W → Prop
  | .env (.file file call), s => call.mutates lengths = true → ∀ key d i closed,
    s.1.shared.descs.get key = some d → d.kind = .file file i closed → d.writable = true
  | _, _ => True

/-- The operations that give no description a file or flags, and change no file. -/
def Op.modest (lengths : Bool) : Op → Prop
  | .env (.file _ call) => call.mutates lengths = false
  | .act (.openDesc _ _ _ _) | .act (.setDescFlags _ _) => False
  | _ => True

theorem FileCall.mutates_of_writes {call : FileCall} (h : call.writes = false) (lengths : Bool) :
    call.mutates lengths = false := by
  cases call with
  | write | setLen => cases h
  | _ => rfl

theorem Op.mild.modest {o : Op} (h : o.mild) (lengths : Bool) : o.modest lengths := by
  cases o with
  | env c =>
    cases c with
    | file handle call => exact FileCall.mutates_of_writes h lengths
    | _ => trivial
  | act a =>
    cases a with
    | openDesc | setDescFlags => exact h
    | _ => trivial

theorem Op.modest_of_streams {o : Op} (h : o.streams) (hu : o.unmounted) (lengths : Bool) :
    o.modest lengths := by
  cases o with
  | env c =>
    cases c with
    | file handle call => exact FileCall.mutates_of_writes hu lengths
    | _ => trivial
  | act a =>
    cases a with
    | openDesc => exact hu
    | setDescFlags => cases h
    | _ => trivial

section
variable {ε α : Type} (lengths : Bool)

theorem modest_mild {p : Program sig ε α} (h : p.Only (Op.lawful Op.mild)) : p.Only (Op.modest lengths) :=
  h.mono fun _ ho => ho.of.modest lengths

theorem modest_readBytes (fd : ℤ) (len : ℕ) : (readBytes fd len).Only (Op.modest lengths) :=
  ((only_readBytes fd len).and (unmounted_readBytes fd len)).mono fun _ ho =>
    Op.modest_of_streams ho.1 ho.2.of lengths

theorem modest_read (fd : ℤ) (start length : ℕ) : (read fd start length).Only (Op.modest lengths) :=
  ((only_read fd start length).and (unmounted_read fd start length)).mono fun _ ho =>
    Op.modest_of_streams ho.1 ho.2.of lengths

theorem modest_lift (r : Except Errno α) : (lift r).Only (Op.modest lengths) :=
    modest_mild lengths (mild_lift r)

theorem modest_ftruncate (a : Args) : (ftruncate a).Only (Op.modest false) := by
  refine Program.only_bind (p := view) ⟨trivial, fun _ => trivial⟩ fun v =>
    Program.only_bind (modest_lift _ _) ?_
  rintro ⟨entry, desc⟩
  dsimp only
  split
  · split
    · trivial
    · exact Program.only_bind ⟨rfl, fun r => modest_mild _ (mild_orVfsFault r)⟩ fun _ => trivial
  · trivial

end

/-- What `openat` may ask, and what it may rely on. -/
def opening (mode : Handle → Bool) : Program.Contract sig where
  asks
    | .act (.openDesc kind path flags _) => (Desc.new kind path flags).OpenedAs mode
    | o => o.modest false
  gives
    | .env (.vfs _ (.openFile _ opts)), .ok file => mode file = opts.write
    | _, _ => True

theorem Op.modest.asks {mode : Handle → Bool} {o : Op} (h : o.modest false) : (opening mode).asks o := by
  cases o with
  | env c => exact h
  | act a =>
    cases a with
    | openDesc => cases h
    | _ => exact h

theorem accmode_status (flags : ℕ) :
    (flags &&& (oAccmode ||| oAppend ||| oNonblock)) &&& oAccmode = flags &&& oAccmode := by
  rw [Nat.and_assoc]
  congr 1

/-- A contract under which whatever is opened with some flags has `R` of them. -/
structure Admits (K : Program.Contract sig) (R : ℕ → DescKind → Prop) : Prop where
  mild : ∀ o : Op, o.mild → K.asks o
  other : ∀ flags kind, (∀ file i closed, kind ≠ .file file i closed) → kind ≠ .stdin → R flags kind
  device : ∀ flags device, R flags (deviceKind device (flags &&& oAccmode)).1
  file : ∀ flags bits umask i rel,
      (vfsAsk i (.openFile rel (openOptions flags bits umask))).Obeys K fun file =>
    R flags (.file file i false)
  opens : ∀ flags kind path cloexec, R flags kind.1 →
    K.asks (.act (.openDesc kind path (flags &&& (oAccmode ||| oAppend ||| oNonblock)) cloexec))

namespace Admits
variable {α : Type} {K : Program.Contract sig} {R : ℕ → DescKind → Prop} (hK : Admits K R)
include hK

theorem of_mild {p : Handler α} (h : p.Only (Op.lawful Op.mild)) : p.Obeys K fun _ => True :=
    h.obeys fun o ho => hK.mild o ho.of

theorem openMounted (v : View) (flags bits mount : ℕ) (rel guest : Text) :
    (openMounted v flags bits mount rel guest).Obeys K fun kind => R flags kind.1 := by
  have hrest : ∀ stat : Option Stat, (openFound v flags bits mount rel guest stat).Obeys K fun kind =>
      R flags kind.1 := by
    intro stat
    apply Program.obeys_ite
    · exact fun _ => trivial
    intro _
    apply Program.obeys_ite
    · intro _
      apply Program.obeys_ite
      · exact fun _ => trivial
      intro _
      apply Program.obeys_bind (hK.of_mild (mild_vfsAsk mount (.readdir rel)))
      intro listing _
      apply Program.obeys_bind (hK.of_mild
        (mild_of_domestic (domestic_of_glances (glances_listedEntries guest listing))))
      intro listed _
      apply Program.obeys_bind (hK.of_mild
        (mild_of_domestic (domestic_of_glances (glances_mergeVirtual _ _))))
      exact fun _ _ => hK.other _ _ (fun _ _ _ hkind => by cases hkind) fun hkind => by cases hkind
    · intro _
      apply Program.obeys_bind (hK.file flags bits _ mount rel)
      exact fun _ hfile => hfile
  rw [openMounted_eq]
  apply Program.obeys_ite
  · exact fun _ => trivial
  intro _
  refine obeys_env (c := .vfs mount (.stat rel true)) (hK.mild _ trivial) ?_
  rintro (e | stat) -
  · apply Program.obeys_ite
    · exact fun _ => hrest none
    · intro _
      apply Program.obeys_bind (hK.of_mild (mild_of_domestic (domestic_of_glances (glances_vfsFault e))))
      exact fun stat _ => hrest stat
  · exact hrest (some stat)

theorem openNode (v : View) (flags bits : ℕ) (node : Node) :
    (openNode v flags bits node).Obeys K fun r => R flags r.1.1 := by
  cases node with
  | program id guest =>
    apply Program.obeys_ite
    · exact fun _ => trivial
    · exact fun _ => hK.other _ _ (fun _ _ _ hkind => by cases hkind) fun hkind => by cases hkind
  | device device => exact hK.device flags device
  | synth guest =>
    apply Program.obeys_ite
    · exact fun _ => trivial
    · intro _
      apply Program.obeys_bind (hK.of_mild
        (mild_of_domestic (domestic_of_glances (glances_procContent guest))))
      exact fun _ _ => hK.other _ _ (fun _ _ _ hkind => by cases hkind) fun hkind => by cases hkind
  | virtualDir guest =>
    apply Program.obeys_ite
    · exact fun _ => trivial
    · intro _
      apply Program.obeys_bind (hK.of_mild
        (mild_of_domestic (domestic_of_glances (glances_virtualDirents _))))
      exact fun _ _ => hK.other _ _ (fun _ _ _ hkind => by cases hkind) fun hkind => by cases hkind
  | virtualLink target => trivial
  | mounted i rel guest => exact Program.obeys_bind (hK.openMounted v flags bits i rel guest) fun _ hk => hk

theorem openat (a : Args) : (openat a).Obeys K fun _ => True := by
  refine obeys_act (hK.mild _ trivial) fun v _ => ?_
  apply Program.obeys_bind (hK.of_mild (mild_lift _))
  intro path _
  apply Program.obeys_bind (hK.of_mild (mild_resolve _ _ _))
  intro node _
  dsimp only
  split
  · exact obeys_act (hK.mild _ trivial) fun r _ => hK.of_mild (mild_lift r)
  · apply Program.obeys_bind (hK.openNode v _ _ node)
    rintro ⟨kind, guest⟩ hkind
    refine obeys_act (a := .openDesc _ _ _ _) (hK.opens _ _ _ _ hkind) ?_
    rintro (⟨e, _ | handle⟩ | fd) -
    · trivial
    · exact obeys_env (hK.mild _ rfl) fun _ _ => trivial
    · trivial

end Admits

section
variable {mode : Handle → Bool}

/-- A description of flags that keep the access mode of these. -/
def OpensWith (mode : Handle → Bool) (flags : ℕ) (kind : DescKind) : Prop :=
  ∀ file i closed, kind = .file file i closed →
    mode file = (flags &&& oAccmode == oWronly || flags &&& oAccmode == oRdwr)

theorem admits_opening : Admits (opening mode) (OpensWith mode) where
  mild _ ho := (ho.modest false).asks
  other _ _ h _ file i closed hkind := absurd hkind (h file i closed)
  device _ _ _ _ _ hkind := absurd hkind deviceKind_file
  file flags bits umask i rel := by
    refine obeys_env trivial ?_
    rintro (e | file) hmode
    · apply Program.obeys_ite
      · exact fun _ => obeys_act trivial fun _ _ => trivial
      · exact fun _ => trivial
    · intro file' i' closed hkind
      obtain ⟨rfl, -⟩ := DescKind.file.inj hkind
      exact hmode
  opens flags kind path cloexec hkind file i closed hfile := by
    rw [hkind file i closed hfile, Desc.writable, Desc.new, accmode_status]

theorem opens_openat (a : Args) : (openat a).Obeys (opening mode) fun _ => True := admits_opening.openat a

end

theorem accmode_setfl (flags argument : ℕ) :
    ((flags &&& oAccmode) ||| (argument &&& (oAppend ||| oNonblock))) &&& oAccmode = flags &&& oAccmode := by
  have hrest : (argument &&& (oAppend ||| oNonblock)) &&& oAccmode = 0 := by
    rw [Nat.and_assoc]
    exact Nat.and_zero argument
  rw [Nat.and_or_distrib_right, hrest, Nat.or_zero, Nat.and_assoc, Nat.and_self]

theorem accmode_withNonblock (flags : ℕ) (on : Bool) :
    withNonblock flags on &&& oAccmode = flags &&& oAccmode := by
  unfold withNonblock
  split
  · have hrest : oNonblock &&& oAccmode = 0 := rfl
    rw [Nat.and_or_distrib_right, hrest, Nat.or_zero]
  · have hmod : ∀ n : ℕ, n &&& oAccmode = n % 4 := fun n => Nat.and_two_pow_sub_one_eq_mod n 2
    have hle : flags &&& oNonblock ≤ flags := Nat.and_le_left
    have hnone : (flags &&& oNonblock) % 4 = 0 := by
      rw [← hmod, Nat.and_assoc]
      exact Nat.and_zero flags
    rw [hmod, hmod, andNot]
    omega

section
variable {α W : Type} {x : Env W} {C : Op → Machine × W → Prop} {mode : Handle → Bool} {lengths : Bool}

abbrev Shared.OpenedAs (mode : Handle → Bool) (sh : Shared) : Prop := sh.descs.Every (Desc.OpenedAs mode)

/-- A program that keeps the modes, and spares what is open for reading alone. -/
abbrev KeepsModes (x : Env W) (C : Op → Machine × W → Prop) (mode : Handle → Bool) (lengths : Bool) {ε : Type}
    (p : Program sig ε α) (s : Machine × W) : Prop :=
    Keeping x C (Op.Heeds lengths) (Shared.OpenedAs mode) p s

theorem Op.modest.heeds {o : Op} (h : o.modest lengths) (s : Machine × W) : o.Heeds lengths s := by
  cases o with
  | env c =>
    cases c with
    | file handle call => exact fun hm => absurd (h.symm.trans hm) Bool.false_eq_true.mp
    | _ => trivial
  | act => trivial

theorem Op.modest.keeps {o : Op} (h : o.modest lengths) {s : Machine × W} (hs : s.1.shared.OpenedAs mode) :
    (exec x o s).2.1.shared.OpenedAs mode := by
  cases o with
  | env c => exact hs
  | act a =>
    apply hs.act (aboutFiles_openedAs mode)
    · rintro kind path flags cloexec rfl
      cases h
    · rintro key flags rfl
      cases h

theorem keepsModes_modest {ε : Type} {p : Program sig ε α} (hp : p.Only (Op.modest lengths)) {s : Machine × W}
    (hs : s.1.shared.OpenedAs mode) : KeepsModes x C mode lengths p s :=
  Program.meets_only (I := fun t : Machine × W => t.1.shared.OpenedAs mode)
    (fun _ t ho ht _ => ⟨⟨ht, ho.heeds t⟩, ho.keeps ht⟩) hp hs

/-- What obeys the contract of opening keeps the modes. -/
theorem keepsModes_obeys {ε : Type} {p : Program sig ε α} (hp : p.Obeys (opening mode) fun _ => True)
    {s : Machine × W} (hs : s.1.shared.OpenedAs mode) : KeepsModes x (Op.Modes x mode) mode false p s := by
  refine (hp.meets (I := fun t : Machine × W => t.1.shared.OpenedAs mode) ?_ hs).mono fun _ _ ht => ht.1
  intro o t ht hasks hnames
  cases o with
  | env c =>
    have hmodest : Op.modest false (.env c) := hasks
    refine ⟨⟨ht, hmodest.heeds t⟩, ht, ?_⟩
    cases c with
    | vfs i call =>
      cases call with
      | openFile path opts =>
        change (opening mode).gives (.env (.vfs i (.openFile path opts)))
          ((EnvCall.vfs i (.openFile path opts)).answer x t.1.shared.mounts t.2).1
        have hfile : ∀ file, ((EnvCall.vfs i (.openFile path opts)).answer x t.1.shared.mounts t.2).1 =
          .ok file →
            mode file = opts.write := hnames
        generalize ((EnvCall.vfs i (.openFile path opts)).answer x t.1.shared.mounts t.2).1 = answer at hfile
        cases answer with
        | ok file => exact hfile file rfl
        | error e => trivial
      | _ => trivial
    | _ => trivial
  | act a =>
    refine ⟨⟨ht, trivial⟩, ?_, by cases a <;> trivial⟩
    apply ht.act (aboutFiles_openedAs mode)
    · rintro kind path flags cloexec rfl
      exact hasks
    · rintro key flags rfl
      cases hasks

theorem openFd_ok_iff {v : View} {fd : ℤ} {entry : Fd} {desc : Desc} :
    openFd v fd = .ok (entry, desc) ↔ v.task.fds.get fd = .ok entry ∧ v.descs.get entry.desc = some desc := by
  constructor
  · intro h
    unfold openFd at h
    cases hentry : v.task.fds.get fd with
    | error e => simp [hentry, bind, Except.bind] at h
    | ok found =>
      simp only [hentry, bind, Except.bind] at h
      split at h
      · rename_i d hd
        obtain ⟨rfl, rfl⟩ := by simpa using h
        exact ⟨rfl, hd⟩
      · cases h
  · rintro ⟨hentry, hdesc⟩
    simp [openFd, hentry, hdesc, bind, Except.bind]

theorem openFd_desc {v : View} {fd : ℤ} {entry : Fd} {desc : Desc} (h : openFd v fd = .ok (entry, desc)) :
    v.descs.get entry.desc = some desc := (openFd_ok_iff.mp h).2

/-- A mild operation, or a description is given flags of its own access mode. -/
def Op.Tunes (o : Op) (s : Machine × W) : Prop :=
  o.mild ∨ ∃ key flags, o = .act (.setDescFlags key flags) ∧
    ∀ d, s.1.shared.descs.get key = some d → flags &&& oAccmode = d.flags &&& oAccmode

abbrev Tuning (x : Env W) (C : Op → Machine × W → Prop) {ε : Type} (p : Program sig ε α)
    (s : Machine × W) : Prop := Program.Meets (exec x) C Op.Tunes p (fun _ _ => True) s

theorem tuning_mild {ε : Type} {p : Program sig ε α} (hp : p.Only (Op.lawful Op.mild)) (s : Machine × W) :
    Tuning x C p s :=
  Program.meets_only (I := fun _ => True) (fun _ _ ho _ _ => ⟨.inl ho.of, trivial⟩) hp trivial

theorem tuning_setFlags {s : Machine × W} {fd : ℤ} {f : Desc → ℕ}
    (hf : ∀ d, f d &&& oAccmode = d.flags &&& oAccmode) :
    Tuning x C (lift (openFd s.1.view fd) >>= fun r =>
      act (.setDescFlags r.1.desc (f r.2)) >>= fun _ => (.ret 0 : Handler ℤ)) s := by
  cases hopen : openFd s.1.view fd with
  | error e => trivial
  | ok r =>
    obtain ⟨entry, desc⟩ := r
    refine meets_act fun _ => ⟨.inr ⟨_, _, rfl, fun d hd => ?_⟩, trivial⟩
    obtain rfl : desc = d := Option.some.inj ((openFd_desc hopen).symm.trans hd)
    exact hf desc

theorem tuning_fcntl (a : Args) (s : Machine × W) : Tuning x C (fcntl a) s := by
  have hmild : ∀ {p : Handler ℤ}, p.Only (Op.lawful Op.mild) → Tuning x C p s := fun hp => tuning_mild hp s
  refine meets_view fun _ => ⟨.inl trivial, ?_⟩
  refine Program.meets_ite (fun _ => hmild ⟨trivial, fun r => mild_lift r⟩) fun _ => ?_
  refine Program.meets_ite (fun _ => hmild (Program.only_bind (mild_lift _) fun _ => trivial)) fun _ => ?_
  refine Program.meets_ite (fun _ => hmild ?_) fun _ => ?_
  · exact Program.only_bind ⟨trivial, fun _ => trivial⟩ fun r =>
      Program.only_bind (mild_lift r) fun _ => trivial
  refine Program.meets_ite (fun _ => hmild (Program.only_bind (mild_lift _) fun _ => trivial)) fun _ => ?_
  refine Program.meets_ite (fun _ => ?_) fun _ => ?_
  · exact tuning_setFlags fun d => accmode_setfl d.flags _
  · refine Program.meets_ite (fun _ => hmild (Program.only_bind (mild_lift _) fun _ => trivial)) fun _ => ?_
    trivial

theorem tuning_ioctl (a : Args) (s : Machine × W) : Tuning x C (ioctl a) s := by
  have hmild : ∀ {p : Handler ℤ}, p.Only (Op.lawful Op.mild) → Tuning x C p s := fun hp => tuning_mild hp s
  refine meets_view fun _ => ⟨.inl trivial, ?_⟩
  cases hget : s.1.view.task.fds.get a.a0 with
  | error e => trivial
  | ok entry =>
    refine Program.meets_ite (fun _ => hmild ?_) fun _ => ?_
    · exact Program.only_bind ⟨trivial, fun _ => trivial⟩ fun r =>
        Program.only_bind (mild_lift r) fun _ => trivial
    refine Program.meets_ite (fun _ => ?_) fun _ => hmild ?_
    · cases s.1.view.mem.u32 (asU32 a.a2) with
      | error e => trivial
      | ok value =>
        have hset : Tuning x C (lift (openFd s.1.view a.a0) >>= fun r =>
            act (.setDescFlags r.1.desc (withNonblock r.2.flags (value != 0))) >>= fun _ =>
                (.ret 0 : Handler ℤ)) s :=
          tuning_setFlags fun d => accmode_withNonblock d.flags _
        cases hopen : openFd s.1.view a.a0 with
        | error e => trivial
        | ok r =>
          obtain ⟨entry', desc⟩ := r
          obtain rfl : entry = entry' := Except.ok.inj (hget.symm.trans (openFd_ok_iff.mp hopen).1)
          rw [hopen] at hset
          exact hset
    · apply Program.only_bind (mild_lift _)
      rintro ⟨entry', desc⟩
      dsimp only
      split
      · apply Program.only_bind (p := put _ _)
        · exact mild_of_domestic (domestic_put _ _)
        · exact fun _ => trivial
      · split
        · split
          · exact mild_of_domestic (domestic_terminalIoctl _ _ _ _)
          · trivial
        · trivial

theorem tuning_keeping {ε : Type} {B : Op → Machine × W → Prop} {P : Shared → Prop} {p : Program sig ε α}
    {s : Machine × W} (hp : Tuning x C p s)
    (hstep : ∀ o t, P t.1.shared → C o t → Op.Tunes o t → B o t ∧ P (exec x o t).2.1.shared)
    (hs : P s.1.shared) : Keeping x C B P p s := by
  have hkeep := Program.meets_invariant (x := exec x) (C := fun o s => C o s ∧ Op.Tunes o s)
    (A := fun o t => P t.1.shared ∧ B o t) (I := fun t : Machine × W => P t.1.shared) ?_ p hs
  · exact ((hp.cut hkeep).mono fun _ _ ht => ht.2).weaken (fun _ _ hc => hc) fun _ _ ha => ha.2
  · intro o t ht ho
    have hnext := hstep o t ht ho.1 ho.2
    exact ⟨⟨ht, hnext.1⟩, hnext.2⟩

theorem keepsModes_tuning {ε : Type} {p : Program sig ε α} {s : Machine × W} (hp : Tuning x C p s)
    (hs : s.1.shared.OpenedAs mode) : KeepsModes x C mode lengths p s := by
  apply tuning_keeping hp ?_ hs
  rintro o t ht - (hmild | ⟨key, flags, rfl, hflags⟩)
  · exact ⟨(hmild.modest lengths).heeds t, (hmild.modest lengths).keeps ht⟩
  · refine ⟨trivial, ?_⟩
    apply Slab.Every.act (aboutFiles_openedAs mode) ht
    · intro kind path flags cloexec hact
      cases hact
    · rintro key' flags' hact d hd hmode file i closed hkind
      obtain ⟨rfl, rfl⟩ := by simpa using hact
      rw [hmode file i closed hkind, Desc.writable, Desc.writable, hflags d hd]

theorem keepsModes_fcntl (a : Args) {s : Machine × W} (hs : s.1.shared.OpenedAs mode) :
    KeepsModes x C mode lengths (fcntl a) s :=
  keepsModes_tuning (tuning_fcntl a s) hs

theorem keepsModes_ioctl (a : Args) {s : Machine × W} (hs : s.1.shared.OpenedAs mode) :
    KeepsModes x C mode lengths (ioctl a) s :=
  keepsModes_tuning (tuning_ioctl a s) hs

theorem keepsModes_writeBytes (fd : ℤ) (data : Bytes) {s : Machine × W} (hs : s.1.shared.OpenedAs mode) :
    KeepsModes x C mode lengths (writeBytes fd data) s := by
  have hmodest : ∀ {p : Handler ℕ}, p.Only (Op.modest lengths) → KeepsModes x C mode lengths p s :=
    fun hp => keepsModes_modest hp hs
  refine meets_view fun _ => ⟨⟨hs, trivial⟩, ?_⟩
  cases hopen : openFd s.1.view fd with
  | error e => exact hs
  | ok r =>
    obtain ⟨entry, desc⟩ := r
    refine Program.meets_ite (fun _ => hs) fun hwritable => ?_
    cases hkind : desc.kind with
    | file file mount closed =>
      refine Program.meets_ite (fun _ => hs) fun _ => ?_
      refine meets_env fun _ => ⟨⟨hs, ?_⟩, keepsModes_modest (modest_mild _ (mild_orVfsFault _)) hs⟩
      intro _ key d i' closed' hd hkind'
      have hmode := hs entry.desc desc (openFd_desc hopen) file mount closed hkind
      have hmode' := hs key d hd file i' closed' hkind'
      rw [← hmode', hmode]
      simpa using hwritable
    | pipeWrite key =>
      dsimp only
      cases s.1.view.pipes.get key with
      | none => exact hs
      | some pipe =>
        refine Program.meets_ite (fun _ => hmodest ⟨trivial, fun _ => trivial⟩) fun _ => ?_
        refine Program.meets_ite (fun _ => Program.meets_ite (fun _ => hs) fun _ => hs) fun _ => ?_
        exact hmodest ⟨trivial, fun _ => trivial⟩
    | stdout which => exact hmodest ⟨trivial, fun _ => trivial⟩
    | _ => exact hs

theorem keepsModes_write (fd : ℤ) (start length : ℕ) {s : Machine × W} (hs : s.1.shared.OpenedAs mode) :
    KeepsModes x C mode lengths (write fd start length) s := by
  refine meets_view fun _ => ⟨⟨hs, trivial⟩, ?_⟩
  cases s.1.view.mem.bytes start length with
  | error e => exact hs
  | ok data =>
    rw [lift_ok, Program.ret_bind]
    exact Program.meets_bind (P := fun _ t => t.1.shared.OpenedAs mode) (keepsModes_writeBytes fd data hs)
      (fun _ _ ht => ht) fun _ _ ht => ht

/-- The loop over the segments keeps what the call for each of them keeps. -/
theorem meets_vectorLoop {A : Op → Machine × W → Prop} {I : Machine × W → Prop} {io : ℕ → ℕ → Handler ℤ}
    (hview : ∀ s, I s → A (.act .view) s)
    (hio : ∀ start len s, I s → Program.Meets (exec x) C A (io start len) (fun _ t => I t) s)
    (vector count index : ℕ) (total : ℤ) {s : Machine × W} (hs : I s) :
    Program.Meets (exec x) C A (vectorLoop io vector count index total) (fun _ t => I t) s := by
  induction count generalizing index total s with
  | zero => exact hs
  | succ count ih =>
    unfold vectorLoop
    refine meets_view fun _ => ⟨hview s hs, ?_⟩
    generalize wrapAdd vector (index * 8 % 2^32) = entry
    dsimp only
    cases s.1.view.mem.u32 entry with
    | error e => exact hs
    | ok start =>
      rw [lift_ok, Program.ret_bind]
      cases s.1.view.mem.u32 (wrapAdd entry 4) with
      | error e => exact hs
      | ok len =>
        rw [lift_ok, Program.ret_bind]
        refine Program.meets_ite (fun _ => ih _ _ hs) fun _ => ?_
        have hcatch : Program.Meets (exec x) C A ((io start len).catching : Handler (Except Fault ℤ))
            (fun _ t => I t) s := by
          rw [Program.meets_catching]
          exact hio start len s hs
        apply Program.meets_bind hcatch
        · rintro (fault | done) t ht
          · exact Program.meets_ite (fun _ => ht) fun _ => ht
          · exact Program.meets_ite (fun _ => ht) fun _ => ih _ _ ht
        · exact fun _ _ ht => ht

theorem keepsModes_handle (number : ℤ) (a : Args) {s : Machine × W} (hs : s.1.shared.OpenedAs mode) :
    KeepsModes x (Op.Modes x mode) mode false (handle number a) s := by
  by_cases hmild : (Nr.ofInt number).mild = true
  · exact keepsModes_modest (modest_mild _ (mild_handle number a hmild)) hs
  unfold handle
  cases hnr : Nr.ofInt number with
  | read => exact keepsModes_modest (modest_read _ _ _ _) hs
  | readv =>
    exact keepsModes_modest
      (only_vectorLoop trivial (modest_lift _) (fun _ _ => modest_read _ _ _ _) _ _ _ _) hs
  | write => exact keepsModes_write _ _ _ hs
  | writev =>
    exact meets_vectorLoop (fun _ ht => ⟨ht, trivial⟩) (fun _ _ _ ht => keepsModes_write _ _ _ ht) _ _ _ _ hs
  | ftruncate => exact keepsModes_modest (modest_ftruncate a) hs
  | openat => exact keepsModes_obeys (opens_openat a) hs
  | fcntl => exact keepsModes_fcntl a hs
  | ioctl => exact keepsModes_ioctl a hs
  | _ => exact absurd (by rw [hnr]; rfl) hmild

theorem upholds_modes (x : Env W) (mode : Handle → Bool) : Upholds x (Op.Modes x mode) (Op.Heeds false)
    (Shared.OpenedAs mode) where
  loop a k hk := hk.kact (aboutFiles_openedAs mode) a
  minor o s ho hs := by
    have hmodest : o.modest false := by
      cases o with
      | env c => cases c <;> trivial
      | act a => cases a <;> trivial
    exact ⟨hmodest.heeds s, hmodest.keeps hs⟩
  reads fd len s hs := keepsModes_modest (modest_readBytes _ fd len) hs
  writes fd data s hs := keepsModes_writeBytes fd data hs
  handles number args s hs := keepsModes_handle number args hs

theorem lasting_modes (mode : Handle → Bool) : Lasting fun k => k.shared.OpenedAs mode where
  init _ _ _ hk := Slab.Every.kernel (aboutFiles_openedAs mode) hk
  input _ _ _ hk := hk
  output _ _ _ hk := hk

/-- A call that sets the length of a file, through a description without leave
to write, on a mount that may be written. -/
def Machine.TruncatesReadOnly (m : Machine) (number : ℤ) (a : Args) : Prop :=
  Nr.ofInt number = .ftruncate ∧ ∃ entry desc file i closed, openFd m.view a.a0 = .ok (entry, desc) ∧
    desc.kind = .file file i closed ∧ m.view.isReadOnly i = false ∧ desc.writable = false

def Op.unwriting : Op → Prop
  | .env (.file _ call) => call.mutates true = false
  | _ => True

theorem Op.mild.unwriting {o : Op} (h : o.mild) : o.unwriting := by
  cases o with
  | env c =>
    cases c with
    | file handle call => exact FileCall.mutates_of_writes h true
    | _ => trivial
  | act => trivial

theorem Op.unwriting.heeds {o : Op} (h : o.unwriting) (s : Machine × W) : o.Heeds true s := by
  cases o with
  | env c =>
    cases c with
    | file handle call => exact fun hm => absurd (h.symm.trans hm) Bool.false_eq_true.mp
    | _ => trivial
  | act => trivial

theorem unwriting_openat (a : Args) : (openat a).Only Op.unwriting := by
  have hmild : ∀ {α : Type} {p : Handler α}, p.Only (Op.lawful Op.mild) → p.Only Op.unwriting := fun hp =>
    hp.mono fun _ ho => ho.of.unwriting
  refine Program.only_bind (p := view) ⟨trivial, fun _ => trivial⟩ fun v => ?_
  refine Program.only_bind (hmild (mild_lift _)) fun path =>
    Program.only_bind (hmild (mild_resolve _ _ _)) fun node => ?_
  dsimp only
  split
  · exact ⟨trivial, fun r => hmild (mild_lift r)⟩
  · apply Program.only_bind (hmild (mild_openNode v _ _ node))
    rintro ⟨kind, guest⟩
    refine Program.only_bind (p := act (.openDesc _ _ _ _)) ⟨trivial, fun _ => trivial⟩ ?_
    rintro (⟨e, _ | handle⟩ | fd)
    · trivial
    · exact ⟨rfl, fun _ => trivial⟩
    · trivial

abbrev HeedsAll (x : Env W) {ε : Type} (p : Program sig ε α) (s : Machine × W) : Prop :=
  Program.Meets (exec x) (fun _ _ => True) (Op.Heeds true) p (fun _ _ => True) s

theorem heedsAll_unwriting {ε : Type} {p : Program sig ε α} (hp : p.Only Op.unwriting) (s : Machine × W) :
    HeedsAll x p s :=
  Program.meets_only (I := fun _ => True) (fun _ t ho _ _ => ⟨ho.heeds t, trivial⟩) hp trivial

theorem heedsAll_ftruncate (a : Args) {s : Machine × W} (hs : s.1.shared.OpenedAs mode) (number : ℤ)
    (hnumber : Nr.ofInt number = .ftruncate) (h : ¬ s.1.TruncatesReadOnly number a) :
    HeedsAll x (ftruncate a) s := by
  refine meets_view fun _ => ⟨trivial, ?_⟩
  cases hopen : openFd s.1.view a.a0 with
  | error e => trivial
  | ok r =>
    obtain ⟨entry, desc⟩ := r
    rw [lift_ok, Program.ret_bind]
    dsimp only
    split
    · rename_i file mount closed hkind
      refine Program.meets_ite (fun _ => trivial) fun hro => ?_
      refine meets_env fun _ => ⟨fun _ key d i closed' hd hkind' => ?_, ?_⟩
      · by_contra hreadOnly
        have hmode := hs entry.desc desc (openFd_desc hopen) file mount closed hkind
        have hmode' := hs key d hd file i closed' hkind'
        refine h ⟨hnumber, entry, desc, file, mount, closed, hopen, hkind, by simpa using hro, ?_⟩
        rw [← hmode, hmode']
        simpa using hreadOnly
      · apply heedsAll_unwriting
        exact Program.only_bind ((mild_orVfsFault _).mono fun _ ho => ho.of.unwriting) fun _ => trivial
    · trivial

theorem heedsAll_handle (number : ℤ) (a : Args) {s : Machine × W} (hs : s.1.shared.OpenedAs mode)
    (h : ¬ s.1.TruncatesReadOnly number a) : HeedsAll x (handle number a) s := by
  have hkeeps : ∀ {p : Handler ℤ}, KeepsModes x (fun _ _ => True) mode true p s → HeedsAll x p s := by
    intro p hp
    have hleft := hp.mono fun _ _ _ => trivial
    exact hleft.weaken (fun _ _ _ => trivial) fun _ _ ht => ht.2
  by_cases hmild : (Nr.ofInt number).mild = true
  · exact heedsAll_unwriting ((mild_handle number a hmild).mono fun _ ho => ho.of.unwriting) s
  unfold handle
  cases hnr : Nr.ofInt number with
  | read => exact hkeeps (keepsModes_modest (modest_read _ _ _ _) hs)
  | readv =>
    apply hkeeps
    exact keepsModes_modest (only_vectorLoop trivial (modest_lift _)
      (fun _ _ => modest_read _ _ _ _) _ _ _ _) hs
  | write => exact hkeeps (keepsModes_write _ _ _ hs)
  | writev =>
    apply hkeeps
    exact meets_vectorLoop (fun _ ht => ⟨ht, trivial⟩) (fun _ _ _ ht => keepsModes_write _ _ _ ht) _ _ _ _ hs
  | ftruncate => exact heedsAll_ftruncate a hs number hnr h
  | openat => exact heedsAll_unwriting (unwriting_openat a) s
  | fcntl => exact hkeeps (keepsModes_fcntl a hs)
  | ioctl => exact hkeeps (keepsModes_ioctl a hs)
  | _ => exact absurd (by rw [hnr]; rfl) hmild

theorem heedsAll_dispatch {ε : Type} (number : ℤ) (a : Args) {s : Machine × W} (hs : s.1.shared.OpenedAs mode)
    (h : ¬ s.1.TruncatesReadOnly number a) : HeedsAll x (dispatch number a : Program sig ε Outcome) s := by
  refine meets_act fun _ => ⟨trivial, ?_⟩
  refine Program.meets_bind (P := fun _ _ => True) ?_ (fun r t _ => ?_) fun _ _ _ => trivial
  · rw [Program.meets_catching]
    exact heedsAll_handle number a hs h
  · apply heedsAll_unwriting
    apply (tends_conclude r).mono
    intro o ho
    cases o with
    | env c =>
      cases c with
      | file => cases ho
      | _ => trivial
    | act => trivial

/-- A call that truncates through a description without leave to write reaches the file. -/
theorem not_heeds_of_truncates {ε : Type} {number : ℤ} {a : Args} {m : Machine} {w : W}
    (h : m.TruncatesReadOnly number a) :
    ¬ Program.Along (exec x) (Op.Heeds true) (dispatch number a : Program sig ε Outcome) (m, w) := by
  obtain ⟨hnr, entry, desc, file, i, closed, hopen, hkind, hro, hreadOnly⟩ := h
  intro halong
  have hhandle : handle number a = ftruncate a := by
    unfold handle
    rw [hnr]
  obtain ⟨-, hrest⟩ : _ ∧ Program.Along (exec x) (Op.Heeds true)
    ((handle number a).catching >>= conclude : Program sig ε Outcome) (m.counted, w) := halong
  rw [Program.along_bind, Program.along_catching, hhandle] at hrest
  obtain ⟨-, hcall⟩ : _ ∧ Program.Along (exec x) (Op.Heeds true) (lift (openFd m.view a.a0) >>= _)
    (m.counted, w) := hrest.1
  rw [hopen, lift_ok, Program.ret_bind] at hcall
  simp only [hkind] at hcall
  have hwrites : ¬ View.isReadOnly (exec x (.act .view) (m.counted, w)).1 i = true := fun hyes =>
    absurd (hro.symm.trans hyes) Bool.false_eq_true.mp
  obtain ⟨hheeds, -⟩ := (if_neg hwrites ▸ hcall :)
  have := hheeds rfl entry.desc desc i closed (openFd_desc hopen) hkind
  rw [hreadOnly] at this
  cases this

theorem kept_modes (x : Env W) (mode : Handle → Bool) : Kept x (KOp.Within (Op.Modes x mode))
    (KOp.Upheld (Shared.OpenedAs mode) (Op.Heeds false)) fun k => k.shared.OpenedAs mode :=
    (upholds_modes x mode).kept

end

/-- A store with one file that may be read, and not written. -/
def Env.sealedFile (more : List ℤ) : Env (List GuestRun) :=
  { Env.oneFile more fun _ => .error .badf with
    vfs := fun _ call w => match call with
      | .openFile _ opts => (if opts.write then .error .acces else .ok (0 : ℕ), w)
      | .stat _ _ => (.ok (.file 1), w)
      | _ => (.error .noent, w) }

/-- The one file there is open for reading, whoever opened it. -/
theorem within_sealedFile (more : List ℤ) (o : KOp) (s : Kernel × List GuestRun) :
    o.Within (Op.Modes (Env.sealedFile more) fun _ => false) s := by
  cases o with
  | machine index o =>
    intro p _
    cases o with
    | env c =>
      cases c with
      | vfs i call =>
        cases call with
        | openFile path opts =>
          intro file hfile
          simp only [EnvCall.answer] at hfile
          split at hfile
          · cases hwrite : opts.write with
            | false => rfl
            | true => simp [Env.sealedFile, hwrite] at hfile
          · cases hfile
        | _ => trivial
      | _ => trivial
    | act => trivial
  | env | act => trivial

theorem performed_sealedFile :
    ∃ (len : ℕ) (k : Kernel) (w : List GuestRun) (p : Proc) (d : Desc) (i : ℕ) (closed : Bool),
    Performed (Env.sealedFile [3, 0, 0]) .blank
    (KOp.Within (Op.Modes (Env.sealedFile [3, 0, 0]) fun _ => false))
      (.machine 0 (.env (.file 0 (.setLen len)))) k w () ∧ k.procs[0]? = some p ∧
    k.shared.descs.get 3 = some d ∧ d.kind = .file 0 i closed ∧ d.writable = false := by
  have hstart : Recorded (Env.sealedFile [3, 0, 0]) .blank
      (KOp.Within (Op.Modes (Env.sealedFile [3, 0, 0]) fun _ => false)) ⟨_, none⟩
      [⟨[.syscall 56 0, .syscall 46 32, .setjmp 0], none⟩] () :=
    .start .oneMount 0 _ _ _ _ _ rfl (Program.along_of_forall _ (within_sealedFile _) _ _) rfl
  have hset := Performed.running _ _ _ 3 ⟨some 1, none⟩ _ hstart
    (Program.along_of_forall _ (within_sealedFile _) _ _) (List.mem_of_getElem? (i := 25) rfl)
  exact ⟨_, _, _, _, _, _, _, hset, rfl, rfl, rfl, rfl⟩

section
variable {W : Type} {x : Env W} {mode : Handle → Bool}

/-- In every run a description has the access mode its file was opened with,
and nothing is written through one that may not write. A call spares the files
of all these if and only if it is no `ftruncate` through one of them. -/
theorem read_only_unchanged_iff {index : ℕ} {o : Op} {k : Kernel} {w : W} {p : Proc}
    (h : Performed x .blank (KOp.Within (Op.Modes x mode)) (.machine index o) k w ())
    (hp : k.procs[index]? = some p) :
    k.shared.OpenedAs mode ∧ o.Heeds false (k.machineOf p, w) ∧
    ∀ number a, Program.Along (exec x) (Op.Heeds true)
    (dispatch number a : Program sig Stop Outcome) (k.machineOf p, w) ↔
      ¬ (k.machineOf p).TruncatesReadOnly number a := by
  obtain ⟨hopened, hheeds⟩ := (h.holds chronicled_blank (kept_modes x mode) (lasting_modes mode)).2
  refine ⟨hopened, hheeds p hp, fun number a => ⟨fun halong htruncates => ?_, fun hnot => ?_⟩⟩
  · exact not_heeds_of_truncates htruncates halong
  · have hmeets : HeedsAll x (dispatch number a : Program sig Stop Outcome) (k.machineOf p, w) :=
      heedsAll_dispatch number a hopened hnot
    exact (hmeets.run (Program.along_of_forall _ (fun _ _ => trivial) _ _)).1

end

theorem read_only_unchanged_iff_opened : ∃ (k : Kernel) (w : List GuestRun) (p : Proc),
    k.procs[0]? = some p ∧ k.shared.OpenedAs (fun _ => false) ∧
    ¬ (k.machineOf p).TruncatesReadOnly 64 ⟨3, 0, 1, 0, 0, 0⟩ ∧
    Program.Along (exec (Env.sealedFile [3, 0, 0])) (Op.Heeds true)
      (dispatch 64 ⟨3, 0, 1, 0, 0, 0⟩ : Program sig Stop Outcome) (k.machineOf p, w) := by
  obtain ⟨len, k, w, p, d, i, closed, h, hp, hrest⟩ := performed_sealedFile
  obtain ⟨hopened, -, hcalls⟩ := read_only_unchanged_iff h hp
  have hnot : ¬ (k.machineOf p).TruncatesReadOnly 64 ⟨3, 0, 1, 0, 0, 0⟩ :=
    fun htruncates => by cases htruncates.1
  exact ⟨k, w, p, hp, hopened, hnot, (hcalls 64 ⟨3, 0, 1, 0, 0, 0⟩).mpr hnot⟩

/-- A guest sets the length of a file that it has open for reading alone. -/
theorem read_only_truncated : ∃ (o : Op) (k : Kernel) (w : List GuestRun) (p : Proc),
    Performed (Env.sealedFile [3, 0, 0]) .blank
    (KOp.Within (Op.Modes (Env.sealedFile [3, 0, 0]) fun _ => false))
      (.machine 0 o) k w () ∧ k.procs[0]? = some p ∧ ¬ o.Heeds true (k.machineOf p, w) := by
  obtain ⟨len, k, w, p, d, i, closed, h, hp, hget, hkind, hreadOnly⟩ := performed_sealedFile
  refine ⟨_, k, w, p, h, hp, fun hheeds => ?_⟩
  have := hheeds rfl 3 d i closed hget hkind
  rw [hreadOnly] at this
  cases this

end Wasmux
