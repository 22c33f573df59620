import Wasmux.Guarded
import Wasmux.Kinds
import Wasmux.Upholding

/-!
# What reaches the mounts of a session

Every process keeps to the contract of its mounts, in every state a session
passes through: descriptions of open files stay what they were opened as, and
nothing but an `openat` makes one.
-/

set_option autoImplicit false

namespace Wasmux
open Effects Abi

/-- A description of a file names the mount the file is from. -/
def Desc.From (origin : Handle → ℕ → Prop) (d : Desc) : Prop :=
    ∀ file i closed, d.kind = .file file i closed → origin file i

theorem aboutFiles_from (origin : Handle → ℕ → Prop) : Desc.AboutFiles (Desc.From origin) where
  other _ h file i closed hkind := absurd hkind (h file i closed)
  same _ _ _ hkind h file i closed he := h file i closed (hkind file i closed he)

theorem traced_iff {origin : Handle → ℕ → Prop} {descs : Slab Desc} :
    Traced origin descs ↔ descs.Every (Desc.From origin) :=
  ⟨fun h key d hd file i closed hkind => h key d file i closed hd hkind,
    fun h key d file i closed hd hkind => h key d hd file i closed hkind⟩

theorem Traced.act {origin : Handle → ℕ → Prop} {m : Machine} (h : Traced origin m.shared.descs) {a : Act}
    {ms : Mounts} (ha : (guarded ms origin).asks (.act a)) : Traced origin (a.exec m).2.shared.descs := by
  rw [traced_iff] at h ⊢
  apply h.act (aboutFiles_from origin)
  · rintro kind path flags cloexec rfl
    exact ha
  · intro key flags _ d _ hd
    exact hd

theorem Traced.kact {origin : Handle → ℕ → Prop} {k : Kernel} (h : Traced origin k.shared.descs) (a : KAct) :
    Traced origin (a.exec k).2.shared.descs := by
  rw [traced_iff] at h ⊢
  exact h.kact (aboutFiles_from origin) a

/-- A file is given a name that says which mount it was opened in. -/
def Op.Names {W : Type} (x : Env W) (origin : Handle → ℕ → Prop) : Op → Machine × W → Prop
  | .env (.vfs i (.openFile path opts)), (m, w) => ∀ file,
    ((EnvCall.vfs i (.openFile path opts)).answer x m.shared.mounts w).1 = .ok file → origin file i
  | _, _ => True

def KOp.Names {W : Type} (x : Env W) (origin : Handle → ℕ → Prop) : KOp → Kernel × W → Prop
  | .machine _ (.env (.vfs i (.openFile path opts))), (k, w) => ∀ file,
    ((EnvCall.vfs i (.openFile path opts)).answer x k.shared.mounts w).1 = .ok file → origin file i
  | _, _ => True

/-- What a process asks, it asks within the contract of the session's mounts. -/
def KOp.Guarded (origin : Handle → ℕ → Prop) : KOp → Kernel → Prop
  | .machine index o, k => ∀ p, k.procs[index]? = some p → (guarded k.shared.mounts origin).asks o
  | _, _ => True

section
variable {α W : Type} {x : Env W} {origin : Handle → ℕ → Prop}

/-- A handler that keeps to the contract, in the machine of one process. -/
theorem meets_obeys {ε : Type} {p : Program sig ε α} {m : Machine} {w : W} (h : Traced origin m.shared.descs)
    (hp : p.Obeys (guarded m.shared.mounts origin) fun _ => True) :
    Keeping x (Op.Names x origin) (fun o s => (guarded s.1.shared.mounts origin).asks o)
      (fun sh => Traced origin sh.descs) p (m, w) := by
  have := hp.meets (x := exec x) (C := Op.Names x origin)
    (A := fun o s => Traced origin s.1.shared.descs ∧ (guarded s.1.shared.mounts origin).asks o)
    (I := fun s => s.1.shared.mounts = m.shared.mounts ∧ Traced origin s.1.shared.descs) ?_
      (s := (m, w)) ⟨rfl, h⟩
  · exact this.mono fun _ _ ht => ht.1.2
  · rintro o ⟨m', w'⟩ ⟨hms, htraced⟩ hasks hnames
    refine ⟨⟨htraced, by rw [hms]; exact hasks⟩, ?_⟩
    cases o with
    | env c =>
      refine ⟨⟨hms, htraced⟩, ?_⟩
      cases c with
      | vfs i call =>
        cases call with
        | openFile path opts =>
          change (guarded m.shared.mounts origin).gives (.env (.vfs i (.openFile path opts)))
            ((EnvCall.vfs i (.openFile path opts)).answer x m'.shared.mounts w').1
          have hfile : ∀ file, ((EnvCall.vfs i (.openFile path opts)).answer x m'.shared.mounts w').1 =
            .ok file →
              origin file i := hnames
          generalize ((EnvCall.vfs i (.openFile path opts)).answer x m'.shared.mounts w').1 = answer at hfile
          cases answer with
          | ok file => exact hfile file rfl
          | error e => trivial
        | _ => trivial
      | _ => trivial
    | act a =>
      refine ⟨⟨(a.mounts_exec m').trans hms, htraced.act hasks⟩, ?_⟩
      cases a with
      | view => exact ⟨hms, htraced⟩
      | _ => trivial

theorem upholds_guarded : Upholds x (Op.Names x origin) (fun o s => (guarded s.1.shared.mounts origin).asks o)
    fun sh => Traced origin sh.descs where
  loop a k h := h.kact a
  minor o s ho hs := by
    cases o with
    | env c => exact ⟨Op.unmounted.asks (by cases c <;> trivial), hs⟩
    | act a =>
      have hasks : (guarded s.1.shared.mounts origin).asks (.act a) :=
        Op.unmounted.asks (by cases a <;> trivial)
      exact ⟨hasks, hs.act hasks⟩
  reads fd len s hs := meets_obeys hs (obeys_unmounted (unmounted_readBytes fd len))
  writes fd data s hs := meets_obeys hs ((obeys_writeBytes fd data).mono fun _ _ => trivial)
  handles number args s hs := meets_obeys hs (obeys_handle number args)

/-- Between any two steps of the loop, and within them. -/
theorem kept_guarded : Kept x (KOp.Names x origin) (fun o s => o.Guarded origin s.1)
    (fun k => Traced origin k.shared.descs) := by
  apply upholds_guarded.kept.weaken
  · intro o s ho
    cases o with
    | machine index o =>
      intro p _
      cases o with
      | env c =>
        cases c with
        | vfs i call =>
          cases call with
          | openFile => exact ho
          | _ => trivial
        | _ => trivial
      | act => trivial
    | env | act => trivial
  · intro o s ho
    cases o with
    | machine => exact ho.2
    | env | act => trivial

theorem lasting_traced : Lasting fun k => Traced origin k.shared.descs where
  init _ _ _ hk := traced_iff.mpr (Slab.Every.kernel (aboutFiles_from origin) hk)
  input _ _ _ hk := hk
  output _ _ _ hk := hk

end

/-- An operation that changes nothing in the mount at `i`. -/
def Op.Spares (origin : Handle → ℕ → Prop) (i : ℕ) : Op → Prop
  | .env (.vfs j call) => j = i → call.writes = false
  | .env (.file file call) => origin file i → call.writes = false
  | _ => True

section
variable {W : Type} {x : Env W} {origin : Handle → ℕ → Prop}

theorem performed_guarded {index : ℕ} {o : Op} {k : Kernel} {w : W} {p : Proc}
    (h : Performed x .blank (KOp.Names x origin) (.machine index o) k w ()) (hp : k.procs[index]? = some p) :
    (guarded k.shared.mounts origin).asks o := (h.holds chronicled_blank kept_guarded lasting_traced).2 p hp

end

/-- A file that can be looked at, and not opened. -/
def Env.lockedFile : Env (List GuestRun) :=
  { Env.oneFile [] fun _ => .error .badf with
    vfs := fun _ call w => match call with
      | .stat _ _ => (.ok (.file 1), w)
      | _ => (.error .acces, w) }

def Config.readOnlyMount : Config :=
    { Config.oneMount with mounts := ⟨[⟨root, 0, true⟩], by simp, by decide⟩ }

/-- No file is ever opened there, so any origin will do. -/
theorem names_lockedFile (origin : Handle → ℕ → Prop) (o : KOp) (s : Kernel × List GuestRun) :
    o.Names Env.lockedFile origin s := by
  cases o with
  | machine index o =>
    cases o with
    | env c =>
      cases c with
      | vfs i call =>
        cases call with
        | openFile path opts =>
          intro file hfile
          simp only [EnvCall.answer] at hfile
          split at hfile <;> cases hfile
        | _ => trivial
      | _ => trivial
    | act => trivial
  | env | act => trivial

theorem performed_lockedFile (C : KOp → Kernel × List GuestRun → Prop) (hC : ∀ o s, C o s) :
    ∃ (path : Text) (opts : OpenOptions) (k : Kernel) (w : List GuestRun) (p : Proc),
      Performed Env.lockedFile .blank C (.machine 0 (.env (.vfs 0 (.openFile path opts)))) k w () ∧
      k.procs[0]? = some p ∧ k.shared.mounts.get 0 = some ⟨root, 0, true⟩ := by
  have hstart : Recorded Env.lockedFile .blank C ⟨_, none⟩ [⟨[.syscall 56 0, .setjmp 0], none⟩] () :=
    .start .readOnlyMount 0 _ _ _ _ _ rfl (Program.along_of_forall _ hC _ _) rfl
  have hopen := Performed.running _ _ _ 3 ⟨some 1, none⟩ _ hstart (Program.along_of_forall _ hC _ _)
    (List.mem_of_getElem? (i := 17) rfl)
  exact ⟨_, _, _, _, _, hopen, rfl, rfl⟩

section
variable {W : Type} {x : Env W} {origin : Handle → ℕ → Prop}

/-- A mount that is read-only is never written, by name or by descriptor, as
long as each open file has the one mount that it was opened in. -/
theorem read_only_spared {index : ℕ} {o : Op} {k : Kernel} {w : W} {p : Proc}
    (hone : ∀ file i j, origin file i → origin file j → i = j)
    (h : Performed x .blank (KOp.Names x origin) (.machine index o) k w ()) (hp : k.procs[index]? = some p)
    {i : ℕ} {mount : Mount} (hmount : k.shared.mounts.get i = some mount) (hro : mount.readOnly = true) :
    o.Spares origin i := by
  have hasks := performed_guarded h hp
  have hflag : k.shared.mounts.isReadOnly i = true := by simp [Mounts.isReadOnly, hmount, hro]
  cases o with
  | act a => trivial
  | env c =>
    cases c with
    | vfs j call =>
      rintro rfl
      cases hw : call.writes with
      | false => rfl
      | true => exact absurd (hflag.symm.trans (hasks.2 hw)) (by simp)
    | file file call =>
      intro horigin
      cases hw : call.writes with
      | false => rfl
      | true =>
        obtain ⟨j, hj, hwritable⟩ := hasks hw
        obtain rfl := hone file i j horigin hj
        exact absurd (hflag.symm.trans hwritable) (by simp)
    | _ => trivial

end

theorem read_only_spared_opened : ∃ (path : Text) (opts : OpenOptions) (k : Kernel) (w : List GuestRun),
    Performed Env.lockedFile .blank (KOp.Names Env.lockedFile fun file i => file = i)
      (.machine 0 (.env (.vfs 0 (.openFile path opts)))) k w () ∧
    k.shared.mounts.get 0 = some ⟨root, 0, true⟩ ∧ (VfsCall.openFile path opts).writes = false := by
  obtain ⟨path, opts, k, w, p, h, hp, hmount⟩ :=
    performed_lockedFile _ (names_lockedFile fun file i => file = i)
  have hone : ∀ file i j : ℕ, file = i → file = j → i = j := fun _ _ _ hi hj => hi.symm.trans hj
  exact ⟨path, opts, k, w, h, hmount, read_only_spared hone h hp hmount rfl rfl⟩

section
variable {W : Type} {x : Env W}

/-- Every path argument that a mount is given is canonical, and behind the
mount's point it is the canonical guest path it was found for. -/
theorem paths_canonical {index i : ℕ} {call : VfsCall} {k : Kernel} {w : W} {p : Proc}
    (h : Performed x .blank (fun _ _ => True) (.machine index (.env (.vfs i call))) k w ())
    (hp : k.procs[index]? = some p) {rel : Text} (hrel : rel ∈ call.paths) :
    Canonical rel ∧ ∃ mount guest, k.shared.mounts.get i = some mount ∧ Canonical guest ∧
      k.shared.mounts.find guest = some (i, rel) ∧ bare mount.point ++ bare rel = bare guest := by
  have hkept : Kept x (fun _ _ => True) (fun o s => o.Guarded (fun _ _ => True) s.1)
      (fun k => Traced (fun _ _ => True) k.shared.descs) := by
    refine kept_guarded.weaken ?_ fun _ _ => id
    intro o s _
    cases o with
    | machine index o =>
      cases o with
      | env c =>
        cases c with
        | vfs i call =>
          cases call with
          | openFile => exact fun _ _ => trivial
          | _ => trivial
        | _ => trivial
      | act => trivial
    | env | act => trivial
  have hasks := (h.holds chronicled_blank hkept lasting_traced).2 p hp
  obtain ⟨parts, hparts, hfind⟩ := hasks.1 rel hrel
  obtain ⟨mount, mparts, rest, hget, hpoint, hmparts, rfl, rfl⟩ := k.shared.mounts.find_join hparts hfind
  have hrest : Folded rest := hparts.right
  refine ⟨canonical_join hrest, mount, join (mparts ++ rest), hget, canonical_join hparts, hfind, ?_⟩
  rw [hpoint, bare_join hmparts, bare_join hrest, bare_join hparts, spell_append]

end

theorem paths_canonical_opened : ∃ (path : Text) (opts : OpenOptions) (k : Kernel) (w : List GuestRun),
    Performed Env.lockedFile .blank (fun _ _ =>
      True) (.machine 0 (.env (.vfs 0 (.openFile path opts)))) k w () ∧
    Canonical path := by
  obtain ⟨path, opts, k, w, p, h, hp, -⟩ := performed_lockedFile (fun _ _ => True) fun _ _ => trivial
  exact ⟨path, opts, k, w, h, (paths_canonical h hp List.mem_cons_self).1⟩

end Wasmux
