import Wasmux.Accounts
import Wasmux.Blocking
import Wasmux.Entries
import Wasmux.Guarded
import Wasmux.Mild
import Wasmux.Stored

/-!
# The roots of the mounts

A mount point is a name like any other to a guest, and what lies at it is the
root of the mount. The calls that take a name away ask the mount for it by the
path inside the mount.
-/

set_option autoImplicit false

namespace Wasmux
open Effects Abi

/-- A call that removes, moves or replaces the root of a mount. -/
def VfsCall.strikesRoot : VfsCall → Bool
  | .unlink path | .rmdir path => path = root
  | .rename source target => source = root || target = root
  | _ => false

def Op.SparesRoot : Op → Prop
  | .env (.vfs _ call) => call.strikesRoot = false
  | _ => True

def Node.IsPoint (ms : Mounts) (i : ℕ) (node : Node) : Prop :=
  ∃ rel mount, ms.get i = some mount ∧ node = .mounted i rel mount.point

/-- A call that takes a name away, and is given the point of a mount that may be
written: `renameat` for either path, with the other in the same mount. -/
def Machine.StrikesRoot {W : Type} (x : Env W) (m : Machine) (w : W) (number : ℤ) (a : Args) : Prop :=
  match Nr.ofInt number with
  | .unlinkat => ∃ path i node w',
      m.inst.mem.cstr (asU32 a.a1) = .ok path ∧ m.Leads x w a.a0 path false node w' ∧
      node.IsPoint m.shared.mounts i ∧ m.view.isReadOnly i = false
  | .renameat | .renameat2 => ∃ source target i r₁ g₁ r₂ g₂ w₁ w₂,
      m.inst.mem.cstr (asU32 a.a1) = .ok source ∧ m.inst.mem.cstr (asU32 a.a3) = .ok target ∧
      m.Leads x w a.a0 source false (.mounted i r₁ g₁) w₁ ∧
      m.Leads x w₁ a.a2 target false (.mounted i r₂ g₂) w₂ ∧
      ((Node.mounted i r₁ g₁).IsPoint m.shared.mounts i ∨ (Node.mounted i r₂ g₂).IsPoint m.shared.mounts i) ∧
      m.view.isReadOnly i = false
  | _ => False

section
variable {W : Type} {x : Env W} {m : Machine}

theorem VfsCall.strikesRoot_of_removes {call : VfsCall} (h : call.removes = false) :
    call.strikesRoot = false := by
  cases call with
  | unlink | rmdir | rename => cases h
  | _ => rfl

theorem Op.gentle.sparesRoot {o : Op} (h : o.gentle) : o.SparesRoot := by
  cases o with
  | env c =>
    cases c with
    | vfs => exact VfsCall.strikesRoot_of_removes h
    | _ => trivial
  | act => trivial

theorem Op.unmounted.sparesRoot {o : Op} (h : o.unmounted) : o.SparesRoot := by
  cases o with
  | env c =>
    cases c with
    | vfs => cases h
    | _ => trivial
  | act => trivial

theorem sparesRoot_tends {o : Op} (h : o.tends = true) : o.SparesRoot := by
  cases o with
  | env c =>
    cases c with
    | vfs => cases h
    | _ => trivial
  | act => trivial

namespace Sys

section
variable {A : Op → Prop} (hlooks : ∀ o : Op, o.looks → A o)
include hlooks

/-- `openat` looks, opens in a mount, and makes a description or copies one. -/
theorem openat_only (hvfs : ∀ i (call : VfsCall), call.removes = false → A (.env (.vfs i call)))
    (hmake : ∀ a : Act, a.moves = true → A (.act a)) (hclose : ∀ file, A (.env (.file file .close)))
    (a : Args) :
    (openat a).Only A := by
  refine Program.only_bind (p := view) ⟨hlooks _ trivial, fun _ => trivial⟩ fun v => ?_
  refine Program.only_bind (lift_only _) fun path => ?_
  refine Program.only_bind ((looks_resolve _ _ _).mono hlooks) fun node => ?_
  dsimp only
  split
  · exact ⟨hmake _ rfl, fun r => lift_only r⟩
  · apply Program.only_bind (openNode_only (fun o h => hlooks o h.looks) hvfs v _ _ node)
    rintro ⟨kind, guest⟩
    refine Program.only_bind (p := act (.openDesc _ _ _ _)) ⟨hmake _ rfl, fun _ => trivial⟩ ?_
    rintro (⟨e, _ | handle⟩ | fd)
    · trivial
    · exact ⟨hclose handle, fun _ => trivial⟩
    · trivial

theorem ftruncate_only (hfile : ∀ file call, A (.env (.file file call))) (a : Args) :
    (ftruncate a).Only A := by
  refine Program.only_bind (p := view) ⟨hlooks _ trivial, fun _ => trivial⟩ fun v =>
    Program.only_bind (lift_only _) ?_
  rintro ⟨entry, desc⟩
  dsimp only
  split
  · split
    · trivial
    · exact Program.only_bind (fileAsk_only (hfile _ _) (hlooks _ trivial)) fun _ => trivial
  · trivial

end

theorem sparesRoot_openat (a : Args) : (openat a).Only Op.SparesRoot :=
  openat_only (fun _ h => h.gentle.sparesRoot) (fun _ _ h => VfsCall.strikesRoot_of_removes h)
    (fun _ _ => trivial)
    (fun _ => trivial) a

theorem sparesRoot_ftruncate (a : Args) : (ftruncate a).Only Op.SparesRoot :=
  ftruncate_only (fun _ h => h.gentle.sparesRoot) (fun _ _ => trivial) a

end Sys

theorem sparesRoot_handle {number : ℤ} (a : Args) (h : (Nr.ofInt number).removes = false) :
    (handle number a).Only Op.SparesRoot := by
  by_cases hmild : (Nr.ofInt number).mild = true
  · exact (gentle_handle number a hmild h).mono fun _ ho => ho.of.sparesRoot
  have hwrite : ∀ fd start len, (Sys.write fd start len).Only Op.SparesRoot :=
    write_only (fun _ _ => trivial) fun _ _ => trivial
  have unmounted : ∀ {α : Type} {p : Handler α}, p.Only (Op.lawful Op.unmounted) →
      p.Only Op.SparesRoot := fun hp =>
    hp.mono fun _ ho => ho.of.sparesRoot
  unfold handle
  generalize Nr.ofInt number = nr at hmild
  cases nr with
  | read => exact unmounted (Sys.unmounted_read _ _ _)
  | readv => exact unmounted (Sys.unmounted_readv a)
  | write => exact hwrite _ _ _
  | writev => exact Sys.only_vectorLoop trivial (fun r => lift_only r) (fun _ _ => hwrite _ _ _) _ _ _ _
  | ftruncate => exact Sys.sparesRoot_ftruncate a
  | openat => exact Sys.sparesRoot_openat a
  | fcntl => exact unmounted (Sys.unmounted_fcntl a)
  | ioctl => exact unmounted (Sys.unmounted_ioctl a)
  | _ => exact absurd rfl hmild

/-- A node that a path leads to is where its guest path lies in a mount. -/
theorem Machine.Leads.sound {w w' : W} {dirfd : ℤ} {path : Text} {follow : Bool} {node : Node}
    (h : m.Leads x w dirfd path follow node w') :
    node.Sound m.shared.mounts := by
  obtain ⟨base, _, hrun⟩ := h
  have hobeys : (Resolver.resolve m.view base path follow).Obeys (guarded m.shared.mounts fun _ _ => True)
    (Node.Sound m.shared.mounts) := Resolver.obeys_resolve (v := m.view) rfl base path follow
  have hmeets := hobeys.meets (x := exec x) (C := fun _ _ => True) (A := fun _ _ => True)
    (I := fun s => s.1.shared.mounts = m.shared.mounts) ?_ (s := (m, w)) rfl
  · have hpost := (hmeets.run (Program.along_of_forall _ (fun _ _ => trivial) _ _)).2.2
    exact hpost node (congrArg Prod.fst hrun)
  · rintro o ⟨m', w''⟩ hms _ _
    cases o with
    | env c =>
      refine ⟨trivial, hms, ?_⟩
      cases c with
      | vfs i call =>
        cases call with
        | openFile path opts =>
          generalize (exec x (.env (.vfs i (.openFile path opts))) (m', w'')).1 = answer
          cases answer <;> trivial
        | _ => trivial
      | _ => trivial
    | act a =>
      refine ⟨trivial, (a.mounts_exec m').trans hms, ?_⟩
      cases a with
      | view => exact ⟨hms, fun _ _ _ _ _ _ _ => trivial⟩
      | _ => trivial

/-- The path inside the mount is its root exactly at the mount's point. -/
theorem Node.Sound.point_iff {ms : Mounts} {i : ℕ} {rel guest : Text}
    (h : (Node.mounted i rel guest).Sound ms) :
    (Node.mounted i rel guest).IsPoint ms i ↔ rel = root := by
  obtain ⟨parts, hparts, rfl, hfind⟩ := h i rel guest rfl
  obtain ⟨mount, mparts, rest, hget, hpoint, hmparts, rfl, rfl⟩ := ms.find_join hparts hfind
  constructor
  · rintro ⟨rel', mount', hget', heq⟩
    obtain rfl : mount = mount' := Option.some.inj (hget.symm.trans hget')
    obtain ⟨-, hguest⟩ : join rest = rel' ∧ join (mparts ++ rest) = mount.point := by simpa using heq
    have hsame := join_injective hparts hmparts (hguest.trans hpoint)
    have hrest : rest = [] := by simpa using hsame
    rw [hrest]
    rfl
  · intro hroot
    have hrest : rest = [] := join_injective hparts.right .nil hroot
    subst hrest
    rw [List.append_nil]
    exact ⟨join [], mount, hget, by rw [hpoint]⟩

theorem leads_counted {w w' : W} {dirfd : ℤ} {path : Text} {follow : Bool} {node : Node} :
    m.counted.Leads x w dirfd path follow node w' ↔ m.Leads x w dirfd path follow node w' := by
  have hview : m.counted.view = m.view := rfl
  unfold Machine.Leads
  rw [hview]
  refine exists_congr fun base => and_congr_right fun _ => ?_
  rw [run_asking_same
    (m := m) (only_resolve m.view base path follow) (rfl : m.counted.shared.mounts = m.shared.mounts)]
  obtain ⟨w₁, hrun⟩ := run_asking (only_resolve m.view base path follow) (x := x) m w
  rw [hrun]
  simp

/-- The mounts' roots are spared by a program from a state. -/
abbrev SparesRoots (x : Env W) {ε α : Type} (p : Program sig ε α) (s : Machine × W) : Prop :=
  Program.Along (exec x) (fun o _ => o.SparesRoot) p s

theorem sparesRoots_looks {ε α : Type} {p : Program sig ε α} (hp : p.Only Op.looks) (s : Machine × W) :
    SparesRoots x p s := (hp.mono fun _ ho => ho.gentle.sparesRoot).along (exec x) s

theorem sparesRoots_view {α : Type} {f : View → Handler α} {w : W} :
    SparesRoots x (view >>= f) (m, w) ↔ SparesRoots x (f m.view) (m, w) := ⟨And.right, fun h => ⟨trivial, h⟩⟩

theorem sparesRoots_resolved {α : Type} {dirfd : ℤ} {path : Text} {f : Node → Handler α} {w : W} :
    SparesRoots x (resolve dirfd path false >>= f) (m, w) ↔
      ∀ node w', m.Leads x w dirfd path false node w' → SparesRoots x (f node) (m, w') := by
  rw [SparesRoots, Program.along_bind,
    and_iff_right (sparesRoots_looks (looks_resolve dirfd path false) (m, w))]
  constructor
  · intro h node w' hleads
    exact h node _ (run_resolve_iff.mpr ⟨w', rfl, hleads⟩)
  · intro h node t hrun
    obtain ⟨w', rfl, hleads⟩ := run_resolve_iff.mp hrun
    exact h node w' hleads

theorem sparesRoots_changeMount (v : View) (i : ℕ) (call : VfsCall) (s : Machine × W) :
    SparesRoots x (Sys.changeMount v i call) s ↔ (v.isReadOnly i = false → call.strikesRoot = false) := by
  unfold Sys.changeMount
  by_cases hro : v.isReadOnly i = true
  · rw [if_pos hro]
    exact iff_of_true trivial fun h => absurd (hro.symm.trans h) (by simp)
  · rw [if_neg hro]
    have hrest : ∀ (r : Except Errno call.Ans) t,
        SparesRoots x (orVfsFault r >>= fun _ => .ret (0 : ℤ) : Handler ℤ) t := by
      intro r t
      have honly : (orVfsFault r >>= fun _ => .ret (0 : ℤ) : Handler ℤ).Only Op.glances :=
        Program.only_bind (glances_orVfsFault r) fun _ => trivial
      exact sparesRoots_looks (looks_of_glances honly) t
    constructor
    · exact fun h _ => h.1
    · exact fun h => ⟨h (by simpa using hro), hrest _ _⟩

variable {w : W}

theorem sparesRoots_unlinkat (a : Args) : SparesRoots x (Sys.unlinkat a) (m, w) ↔
    ∀ path node w', m.inst.mem.cstr (asU32 a.a1) = .ok path → m.Leads x w a.a0 path false node w' →
      ∀ i, node.IsPoint m.shared.mounts i → m.view.isReadOnly i = true := by
  have hmem : m.view.mem = m.inst.mem := rfl
  rw [Sys.unlinkat, sparesRoots_view, hmem]
  cases m.inst.mem.cstr (asU32 a.a1) with
  | error e => exact iff_of_true trivial fun _ _ _ h => by cases h
  | ok path =>
    rw [lift_ok, Program.ret_bind, sparesRoots_resolved]
    constructor
    · intro h path' node w' hpath hleads i hpoint
      obtain rfl := Except.ok.inj hpath
      obtain ⟨rel, mount, hget, rfl⟩ := hpoint
      have hcall := (sparesRoots_changeMount _ _ _ _).mp (h _ w' hleads)
      have hroot : rel = root := hleads.sound.point_iff.mp ⟨rel, mount, hget, rfl⟩
      by_contra hro
      have hstrikes := hcall (by simpa using hro)
      subst hroot
      split at hstrikes <;> simp [VfsCall.strikesRoot] at hstrikes
    · intro h node w' hleads
      cases node with
      | mounted i rel guest =>
        refine (sparesRoots_changeMount _ _ _ _).mpr fun hwritable => ?_
        have hne : rel ≠ root := by
          intro hroot
          have hro := h path _ w' rfl hleads i (hleads.sound.point_iff.mpr hroot)
          exact absurd (hwritable.symm.trans hro) (by simp)
        split <;> simp [VfsCall.strikesRoot, hne]
      | _ => trivial

theorem sparesRoots_renameat (a : Args) : SparesRoots x (Sys.renameat a) (m, w) ↔
    ∀ source target i r₁ g₁ r₂ g₂ w₁ w₂, m.inst.mem.cstr (asU32 a.a1) = .ok source →
      m.inst.mem.cstr (asU32 a.a3) = .ok target → m.Leads x w a.a0 source false (.mounted i r₁ g₁) w₁ →
      m.Leads x w₁ a.a2 target false (.mounted i r₂ g₂) w₂ →
      ((Node.mounted i r₁ g₁).IsPoint m.shared.mounts i ∨ (Node.mounted i r₂ g₂).IsPoint m.shared.mounts i) →
      m.view.isReadOnly i = true := by
  have hmem : m.view.mem = m.inst.mem := rfl
  rw [Sys.renameat, sparesRoots_view, hmem]
  cases m.inst.mem.cstr (asU32 a.a1) with
  | error e => exact iff_of_true trivial fun _ _ _ _ _ _ _ _ _ h => by cases h
  | ok source =>
    rw [lift_ok, Program.ret_bind]
    cases m.inst.mem.cstr (asU32 a.a3) with
    | error e => exact iff_of_true trivial fun _ _ _ _ _ _ _ _ _ _ h => by cases h
    | ok target =>
      rw [lift_ok, Program.ret_bind, sparesRoots_resolved]
      simp only [sparesRoots_resolved]
      constructor
      · intro h source' target' i r₁ g₁ r₂ g₂ w₁ w₂ hsource htarget h₁ h₂ hpoint
        obtain rfl := Except.ok.inj hsource
        obtain rfl := Except.ok.inj htarget
        have hboth := h _ w₁ h₁ _ w₂ h₂
        dsimp only at hboth
        rw [if_neg (not_not_intro rfl)] at hboth
        have hcall := (sparesRoots_changeMount _ _ _ _).mp hboth
        by_contra hro
        have hstrikes := hcall (by simpa using hro)
        rw [h₁.sound.point_iff, h₂.sound.point_iff] at hpoint
        rcases hpoint with rfl | rfl <;> simp [VfsCall.strikesRoot] at hstrikes
      · intro h node₁ w₁ h₁ node₂ w₂ h₂
        cases node₁ with
        | mounted i r₁ g₁ =>
          cases node₂ with
          | mounted j r₂ g₂ =>
            dsimp only
            by_cases hij : i = j
            · subst hij
              rw [if_neg (not_not_intro rfl)]
              refine (sparesRoots_changeMount _ _ _ _).mpr fun hwritable => ?_
              have hno : ¬ (r₁ = root ∨ r₂ = root) := by
                intro hroot
                rw [← h₁.sound.point_iff, ← h₂.sound.point_iff] at hroot
                have hro := h source target i r₁ g₁ r₂ g₂ w₁ w₂ rfl rfl h₁ h₂ hroot
                exact absurd (hwritable.symm.trans hro) (by simp)
              simpa [VfsCall.strikesRoot] using hno
            · rw [if_pos hij]
              trivial
          | _ => trivial
        | _ => trivial

/-- A handler spares the roots of the mounts unless it is given the point of one. -/
theorem sparesRoots_handle (number : ℤ) (a : Args) :
    SparesRoots x (handle number a) (m, w) ↔ ¬ m.StrikesRoot x w number a := by
  by_cases hremoves : (Nr.ofInt number).removes = true
  · unfold handle Machine.StrikesRoot
    generalize Nr.ofInt number = nr at hremoves
    have hrenames : SparesRoots x (Sys.renameat a) (m, w) ↔ ¬ m.StrikesRoot x w 38 a := by
      rw [sparesRoots_renameat]
      constructor
      · rintro h ⟨source, target, i, r₁, g₁, r₂, g₂, w₁, w₂, hsource, htarget, h₁, h₂, hpoint, hwritable⟩
        have hro := h source target i r₁ g₁ r₂ g₂ w₁ w₂ hsource htarget h₁ h₂ hpoint
        exact absurd (hwritable.symm.trans hro) (by simp)
      · intro h source target i r₁ g₁ r₂ g₂ w₁ w₂ hsource htarget h₁ h₂ hpoint
        by_contra hro
        exact h ⟨source, target, i, r₁, g₁, r₂, g₂, w₁, w₂, hsource, htarget, h₁, h₂,
          hpoint, by simpa using hro⟩
    cases nr with
    | unlinkat =>
      rw [sparesRoots_unlinkat]
      constructor
      · rintro h ⟨path, i, node, w', hpath, hleads, hpoint, hwritable⟩
        exact absurd (hwritable.symm.trans (h path node w' hpath hleads i hpoint)) (by simp)
      · intro h path node w' hpath hleads i hpoint
        by_contra hro
        exact h ⟨path, i, node, w', hpath, hleads, hpoint, by simpa using hro⟩
    | renameat => exact hrenames
    | renameat2 => exact hrenames
    | _ => cases hremoves
  · have hno : ¬ m.StrikesRoot x w number a := by
      unfold Machine.StrikesRoot
      generalize Nr.ofInt number = nr at hremoves
      cases nr with
      | unlinkat | renameat | renameat2 => exact absurd rfl hremoves
      | _ => exact id
    exact iff_of_true ((sparesRoot_handle a (by simpa using hremoves)).along (exec x) _) hno

theorem strikesRoot_counted (number : ℤ) (a : Args) :
    m.counted.StrikesRoot x w number a ↔ m.StrikesRoot x w number a := by
  have hmem : m.counted.inst.mem = m.inst.mem := rfl
  have hmounts : m.counted.shared.mounts = m.shared.mounts := rfl
  have hview : m.counted.view = m.view := rfl
  unfold Machine.StrikesRoot
  simp only [leads_counted, hmem, hmounts, hview]

/-- A call asks no mount to remove, move or replace its root unless it takes a
name away and is given the point of a mount that may be written. -/
theorem root_spared_iff (number : ℤ) (a : Args) (m : Machine) (w : W) :
    SparesRoots x (dispatch number a : Program sig Stop Outcome) (m, w) ↔ ¬ m.StrikesRoot x w number a := by
  have hdispatch : SparesRoots x (dispatch number a : Program sig Stop Outcome) (m, w) ↔
      SparesRoots x ((handle number a).catching >>= conclude : Program sig Stop Outcome) (m.counted, w) :=
    ⟨And.right, fun h => ⟨trivial, h⟩⟩
  have hconclude : ∀ r t, SparesRoots x (conclude r : Program sig Stop Outcome) t := fun r t =>
    ((tends_conclude r).mono fun _ => sparesRoot_tends).along (exec x) t
  rw [hdispatch, SparesRoots, Program.along_bind, and_iff_left fun r t _ =>
    hconclude r t, Program.along_catching]
  exact (sparesRoots_handle number a).trans (not_congr (strikesRoot_counted number a))

end

def Env.withPath (path : Text) : Env (List GuestRun) := Env.scripted (.startingWith (path ++ [0]))

/-- A guest removes the directory that a mount is. -/
theorem root_removed : ∃ (k : Kernel) (w : List GuestRun) (p : Proc),
    Between (Env.withPath root) (fun _ _ => True) ⟨k, none⟩ w ∧ k.procs[0]? = some p ∧
    ¬ SparesRoots (Env.withPath root)
    (dispatch 35 ⟨atFdcwd, 0, atRemovedir, 0, 0, 0⟩ : Program sig Stop Outcome)
      (k.machineOf p, w) := by
  have hdrive : Config.oneMount.drive (Env.withPath root) [] 0 [] = some (_, _) := rfl
  refine ⟨_, _, _, between_drive hdrive, rfl, fun hspares => ?_⟩
  rw [SparesRoots, Program.along_iff_trace] at hspares
  have hasked := hspares _ (List.mem_of_getElem? (i := 3) rfl)
  cases hasked

end Wasmux
