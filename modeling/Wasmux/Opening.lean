import Wasmux.Entries
import Wasmux.Mild
import Wasmux.References

/-!
# An openat that fails

The mount is asked to open the file before there is known to be room for a
description and a descriptor. A file created or emptied by then stays so when
there is none, and a descriptor opened again has its reference counted.
-/

set_option autoImplicit false

namespace Wasmux
open Effects Abi Sys

/-- A file is opened that was not there, or is empty from now on. -/
def Op.Makes {W : Type} (x : Env W) : Op → Machine × W → Prop
  | .env (.vfs i (.openFile rel opts)), s =>
    (∃ file, ((EnvCall.vfs i (.openFile rel opts)).answer x s.1.shared.mounts s.2).1 = .ok file) ∧
    (opts.truncate = true ∨ opts.create = true ∧
      ((EnvCall.vfs i (.stat rel true)).answer x s.1.shared.mounts s.2).1 = .error .noent)
  | _, _ => False

namespace Machine

/-- The descriptors, the descriptions and their references are what they were. -/
structure Untouched (m m' : Machine) : Prop where
  fds : ∀ fd, m'.ctx.task.fds.get fd = m.ctx.task.fds.get fd
  descs : ∀ key, m'.shared.descs.get key = m.shared.descs.get key

/-- Nothing is different but what is noted of the mounts. -/
def Noting (m m' : Machine) : Prop := ∃ pending, m' = m.setShared { m.shared with vfsPending := pending }

theorem Noting.refl (m : Machine) : m.Noting m := ⟨m.shared.vfsPending, rfl⟩

theorem Noting.trans {m m' m'' : Machine} (h : m.Noting m') (h' : m'.Noting m'') : m.Noting m'' := by
  obtain ⟨b, rfl⟩ := h
  obtain ⟨b', rfl⟩ := h'
  exact ⟨b', rfl⟩

theorem Noting.ctx {m m' : Machine} (h : m.Noting m') : m'.ctx = m.ctx := by
  obtain ⟨b, rfl⟩ := h
  rfl

theorem Noting.shared {m m' : Machine} (h : m.Noting m') :
    m'.shared = { m.shared with vfsPending := m'.shared.vfsPending } := by
  obtain ⟨b, rfl⟩ := h
  rfl

theorem Noting.overlay {m m' : Machine} (h : m.Noting m') : m'.shared.overlay = m.shared.overlay := by
  rw [h.shared]

theorem Noting.untouched {m m' : Machine} (h : m.Noting m') : m.Untouched m' := by
  obtain ⟨b, rfl⟩ := h
  exact ⟨fun _ => rfl, fun _ => rfl⟩

theorem Untouched.trans {m m' m'' : Machine} (h : m.Untouched m') (h' : m'.Untouched m'') : m.Untouched m'' :=
  ⟨fun fd => (h'.fds fd).trans (h.fds fd), fun key => (h'.descs key).trans (h.descs key)⟩

def TableFull (m : Machine) : Prop :=
    ∀ entry, ∃ e, m.ctx.task.fds.alloc entry 0 m.shared.limits.openFiles = .error e

def SlabFull (m : Machine) : Prop := ∀ d, m.shared.descs.insert d m.descCap = none

end Machine

theorem FdTable.alloc_error {t : FdTable} {entry : Fd} {min max : ℕ} {e : Errno}
    (h : t.alloc entry min max = .error e) (entry' : Fd) : t.alloc entry' min max = .error e := by
  unfold alloc at h ⊢
  generalize t.slots.length + 1 = turns at h ⊢
  induction turns generalizing min with
  | zero => exact h
  | succ turns ih =>
    unfold allocFrom at h ⊢
    split
    · rename_i hmax
      rwa [if_pos hmax] at h
    · rename_i hmax
      rw [if_neg hmax] at h
      cases hslot : (t.resize (min + 1)).slots[min]? with
      | none =>
        rw [hslot] at h
        exact h
      | some slot =>
        rw [hslot] at h
        cases slot with
        | none => cases h
        | some _ => exact ih h

theorem Slab.insert_none {α : Type} {s : Slab α} {v : α} {cap : ℕ} (h : s.insert v cap = none) (v' : α) :
    s.insert v' cap = none := by
  unfold insert at h ⊢
  split at h
  · cases h
  · rename_i hfree
    split at h
    · rename_i hfull
      exact if_pos hfull
    · cases h

/-- A description released by the one that refers to it is gone, and no other. -/
theorem Shared.get_releaseDesc_last {sh : Shared} {key : DescKey} {d : Desc} (hd : sh.descs.get key = some d)
    (hrefs : d.refs = 1) (j : DescKey) :
    (sh.releaseDesc key).2.descs.get j = if key = j then none else sh.descs.get j := by
  have hdrop : ∀ (sh : Shared) (d : Desc), (sh.dropDesc d).2.descs = sh.descs := by
    intro sh d
    obtain ⟨pipes, h⟩ := sh.dropDesc_eq d
    rw [h]
  unfold releaseDesc
  rw [hd]
  dsimp only
  rw [if_neg (by omega)]
  have hrem := Slab.remove_get (sh.descs.modify key fun d => { d with refs := d.refs - 1 }) key
  have hget := Slab.get_remove (sh.descs.modify key fun d => { d with refs := d.refs - 1 }) key j
  rcases hremove : (sh.descs.modify key fun d => { d with refs := d.refs - 1 }).remove key with ⟨_ | e, descs⟩
  · rw [hremove, Slab.get_modify_self, hd] at hrem
    cases hrem
  · rw [hremove] at hget
    dsimp only
    rw [hdrop]
    refine hget.trans ?_
    by_cases hk : key = j
    · rw [if_pos hk, if_pos hk]
    · rw [if_neg hk, if_neg hk, Slab.get_modify, if_neg hk]

namespace Machine
variable {m m' : Machine} {kind : OpenKind} {path : Text} {flags : ℕ} {cloexec : Bool}

/-- No room means no descriptor, and nothing left over. -/
theorem openDesc_fails {r : Errno × Option Handle} (h : m.openDesc kind path flags cloexec = (.error r, m')) :
    (m.SlabFull ∨ m.TableFull) ∧ m.Untouched m' := by
  unfold openDesc at h
  cases hinsert : m.shared.descs.insert (.new kind path flags) m.descCap with
  | none =>
    rw [hinsert] at h
    obtain ⟨-, rfl⟩ := Prod.mk.inj h
    exact ⟨.inl fun d => Slab.insert_none hinsert d, (Noting.refl m).untouched⟩
  | some inserted =>
    obtain ⟨key, descs⟩ := inserted
    rw [hinsert] at h
    dsimp only at h
    split at h
    · cases h
    · rename_i e halloc
      obtain ⟨-, rfl⟩ := Prod.mk.inj h
      refine ⟨.inr fun entry => ⟨e, FdTable.alloc_error halloc entry⟩, fun _ => rfl, fun j => ?_⟩
      obtain ⟨hfree, hnew, hrest⟩ := Slab.insert_spec hinsert
      have hthere : ({ m.shared with descs := descs } : Shared).descs.get key = _ := hnew
      refine (Shared.get_releaseDesc_last hthere rfl j).trans ?_
      by_cases hk : key = j
      · subst hk
        rw [if_pos rfl, hfree]
      · rw [if_neg hk, hrest j (Ne.symm hk)]

theorem openDesc_full (h : m.SlabFull ∨ m.TableFull) (kind : OpenKind) (path : Text) (flags : ℕ)
    (cloexec : Bool) :
    ∃ r m', m.openDesc kind path flags cloexec = (.error r, m') := by
  unfold openDesc
  cases hinsert : m.shared.descs.insert (.new kind path flags) m.descCap with
  | none => exact ⟨_, _, rfl⟩
  | some inserted =>
    obtain ⟨key, descs⟩ := inserted
    rcases h with hslab | htable
    · rw [hslab] at hinsert
      cases hinsert
    · obtain ⟨e, he⟩ := htable ⟨key, cloexec⟩
      dsimp only
      have halloc : (m.setShared { m.shared with descs := descs }).ctx.task.fds.alloc ⟨key, cloexec⟩ 0
          (m.setShared { m.shared with descs := descs }).shared.limits.openFiles = .error e := he
      rw [halloc]
      exact ⟨_, _, rfl⟩

end Machine

def Opens (flags : ℕ) (stat : Option Stat) : Prop :=
    ∀ st, stat = some st → st.fileType ≠ .dir ∧ flags &&& oDirectory = 0

theorem opens_none (flags : ℕ) : Opens flags none := fun _ h => by cases h

/-- Opening the path `rel` of a mount gets as far as the mount's own `open`, and that makes a file. -/
structure MakesFile {W : Type} (x : Env W) (flags bits i : ℕ) (rel : Text) (s : Machine × W) : Prop where
  writable : (wantsWrite flags && s.1.view.isReadOnly i) = false
  stat : ((EnvCall.vfs i (.stat rel true)).answer x s.1.shared.mounts s.2).1 = .error .noent ∨
    ∃ st, ((EnvCall.vfs i (.stat rel true)).answer x s.1.shared.mounts s.2).1 = .ok st ∧ Opens flags (some st)
  makes : (Op.env (.vfs i (.openFile rel (openOptions flags bits s.1.ctx.task.umask)))).Makes x
    (s.1, ((EnvCall.vfs i (.stat rel true)).answer x s.1.shared.mounts s.2).2)

def Node.Makes {W : Type} (x : Env W) (flags bits : ℕ) : Node → Machine × W → Prop
  | .mounted i rel _, s => MakesFile x flags bits i rel s
  | _, _ => False

section
variable {ε α W : Type} {x : Env W}

theorem run_inquires {p : Program sig ε α} (hp : p.Only Op.inquires) (s : Machine × W) :
    s.1.Noting (p.run (exec x) s).2.1 := by
  refine hp.final_keeps (exec x) (P := fun t : Machine × W => s.1.Noting t.1) ?_ (Machine.Noting.refl s.1)
  intro o t ho ht
  cases o with
  | env => exact ht
  | act a =>
    cases a with
    | view => exact ht
    | noteVfsPending => exact ht.trans ⟨true, rfl⟩
    | _ => cases ho

theorem noting_of_run {p : Program sig ε α} (hp : p.Only Op.inquires) {s t : Machine × W} {r : Except ε α}
    (h : p.run (exec x) s = (r, t)) : s.1.Noting t.1 := by
  have hrun := run_inquires hp (x := x) s
  rwa [h] at hrun

theorem run_peeks {p : Program sig ε α} (hp : p.Only Op.peeks) (s : Machine × W) :
    s.1.Noting (p.run (exec x) s).2.1 :=
  run_inquires (hp.mono fun _ => Op.peeks.inquires) s

theorem not_makes_of_looks {o : Op} (h : o.looks) (s : Machine × W) : ¬ o.Makes x s := by
  rintro hmakes
  cases o with
  | act => exact hmakes
  | env c =>
    cases c with
    | vfs i call =>
      cases call with
      | openFile rel opts =>
        obtain ⟨-, hopts⟩ := hmakes
        obtain ⟨⟨⟨-, hcreate⟩, -⟩, htruncate⟩ :
          ((opts.write = false ∧ opts.create = false) ∧ opts.createNew = false) ∧
          opts.truncate = false := by simpa [Op.looks, VfsCall.writes] using h
        rcases hopts with h | ⟨h, -⟩
        · exact absurd (h.symm.trans htruncate) (by simp)
        · exact absurd (h.symm.trans hcreate) (by simp)
      | _ => exact hmakes
    | _ => exact hmakes

theorem along_looks {p : Program sig ε α} (hp : p.Only Op.looks) (s : Machine × W) :
    Program.Along (exec x) (fun o s => ¬ o.Makes x s) p s := by
  have hmeets := Program.meets_only (x := exec x) (C := fun _ _ => True) (A := fun o s => ¬ o.Makes x s)
    (I := fun _ => True) (fun o t ho _ _ => ⟨not_makes_of_looks ho t, trivial⟩) hp (s := s) trivial
  exact (hmeets.run (Program.along_of_forall _ (fun _ _ => trivial) _ _)).1

theorem looks_openDir (v : View) (i : ℕ) (rel guest : Text) : (openDir v i rel guest).Only Op.looks := by
  apply Program.only_bind (looks_vfsAsk _ rfl)
  intro listing
  apply Program.only_bind (looks_of_glances (glances_listedEntries _ _))
  intro listed
  exact Program.only_bind (looks_of_glances (glances_mergeVirtual _ _)) fun _ => trivial

/-- The one operation that makes a file is the mount's `open`, and it is reached for what can be opened. -/
theorem along_openFound (v : View) (flags bits i : ℕ) (rel guest : Text) (stat : Option Stat)
    (s : Machine × W) :
    Program.Along (exec x) (fun o s => ¬ o.Makes x s) (openFound v flags bits i rel guest stat) s ↔
      ¬ (Opens flags stat ∧
        (Op.env (.vfs i (.openFile rel (openOptions flags bits v.task.umask)))).Makes x s) := by
  unfold openFound
  dsimp only
  split
  · rename_i hdirectory
    obtain ⟨hflag, hsome, -⟩ := hdirectory
    obtain ⟨st, rfl⟩ := Option.isSome_iff_exists.mp hsome
    exact iff_of_true trivial fun h => hflag (h.1 st rfl).2
  rename_i hdirectory
  split
  · rename_i hdir
    have hfile : ¬ Opens flags stat := fun h => by
      cases stat with
      | none => cases hdir
      | some st => exact (h st rfl).1 (by simpa using hdir)
    split
    · exact iff_of_true trivial fun h => hfile h.1
    · exact iff_of_true (along_looks (looks_openDir v i rel guest) s) fun h => hfile h.1
  · rename_i hdir
    have hopens : Opens flags stat := by
      rintro st rfl
      have hne : st.fileType ≠ .dir := by simpa using hdir
      refine ⟨hne, ?_⟩
      by_contra hflag
      exact hdirectory ⟨hflag, rfl, by simpa using hne⟩
    constructor
    · exact fun halong h => halong.1 h.2
    · intro hnot
      refine ⟨fun hmakes => hnot ⟨hopens, hmakes⟩, ?_⟩
      apply along_looks
      exact Program.only_bind (looks_of_glances (glances_orVfsFault _)) fun _ => trivial

theorem along_openMounted (flags bits i : ℕ) (rel guest : Text) (s : Machine × W) :
    Program.Along (exec x) (fun o s => ¬ o.Makes x s) (openMounted s.1.view flags bits i rel guest) s ↔
      ¬ MakesFile x flags bits i rel s := by
  rw [openMounted_eq]
  split
  · rename_i hdenied
    exact iff_of_true trivial fun h => absurd (hdenied.symm.trans h.writable) (by simp)
  rename_i hdenied
  have hask : ∀ f : Except Errno Stat → Handler OpenKind, Program.Along (exec x) (fun o s => ¬ o.Makes x s)
      (env (.vfs i (.stat rel true)) >>= f) s ↔ Program.Along (exec x) (fun o s => ¬ o.Makes x s)
        (f ((EnvCall.vfs i (.stat rel true)).answer x s.1.shared.mounts s.2).1)
        (s.1, ((EnvCall.vfs i (.stat rel true)).answer x s.1.shared.mounts s.2).2) := fun f =>
    ⟨And.right, fun h => ⟨not_makes_of_looks (o := .env (.vfs i (.stat rel true))) rfl s, h⟩⟩
  rw [hask]
  rcases hstat : ((EnvCall.vfs i (.stat rel true)).answer x s.1.shared.mounts s.2).1 with e | st
  · dsimp only
    split
    · rename_i hnone
      subst hnone
      rw [along_openFound]
      refine not_congr ⟨fun h => ⟨by simpa using hdenied, .inl hstat, h.2⟩, fun h =>
        ⟨opens_none flags, h.makes⟩⟩
    · rename_i hnone
      constructor
      · rintro - h
        rcases h.stat with h | ⟨st, h, -⟩
        · exact hnone (Except.error.inj (hstat.symm.trans h))
        · cases hstat.symm.trans h
      · intro _
        rw [Program.along_bind]
        refine ⟨along_looks (looks_of_glances (glances_vfsFault e)) _, fun st t h => ?_⟩
        unfold vfsFault at h
        split at h <;> cases h
  · dsimp only
    rw [along_openFound]
    constructor
    · rintro hnot h
      refine hnot ⟨?_, h.makes⟩
      rcases h.stat with h | ⟨st', h, hopens⟩
      · cases hstat.symm.trans h
      · rwa [Except.ok.inj (hstat.symm.trans h)]
    · exact fun hnot h => hnot ⟨by simpa using hdenied, .inr ⟨st, hstat, h.1⟩, h.2⟩

/-- A node is opened so that a file is made, or it is not. -/
theorem along_openNode (flags bits : ℕ) (node : Node) (s : Machine × W) :
    Program.Along (exec x) (fun o s => ¬ o.Makes x s) (openNode s.1.view flags bits node) s ↔
      ¬ node.Makes x flags bits s := by
  have hlooks : ∀ {p : Handler (OpenKind × Text)}, p.Only Op.looks →
      (Program.Along (exec x) (fun o s => ¬ o.Makes x s) p s ↔ ¬ False) := fun hp =>
      iff_of_true (along_looks hp s) id
  cases node with
  | mounted i rel guest =>
    refine Iff.trans ?_ (along_openMounted flags bits i rel guest s)
    change Program.Along _ _ (openMounted s.1.view flags bits i rel guest >>= _) s ↔ _
    rw [Program.along_bind]
    exact ⟨And.left, fun h => ⟨h, fun _ _ _ => trivial⟩⟩
  | program id guest =>
    apply hlooks
    simp only [openNode]
    split <;> trivial
  | device device => exact hlooks trivial
  | synth guest =>
    apply hlooks
    simp only [openNode]
    split
    · trivial
    · exact Program.only_bind (looks_of_glances (glances_procContent guest)) fun _ => trivial
  | virtualDir guest =>
    apply hlooks
    simp only [openNode]
    split
    · trivial
    · exact Program.only_bind (looks_of_glances (glances_virtualDirents _)) fun _ => trivial
  | virtualLink target => exact hlooks trivial

theorem run_openFound {v : View} {flags bits i : ℕ} {rel guest : Text} {stat : Option Stat}
    {s : Machine × W} {file : Handle} (hopens : Opens flags stat)
    (hfile : ((EnvCall.vfs i (.openFile rel (openOptions flags bits v.task.umask))).answer x
      s.1.shared.mounts s.2).1 =
      .ok file) : ∃ r t, (openFound v flags bits i rel guest stat).run (exec x) s = (.ok r, t) := by
  unfold openFound
  dsimp only
  rw [if_neg ?_, if_neg ?_]
  · change ∃ r t, Program.run (exec x) (orVfsFault
      ((EnvCall.vfs i (.openFile rel (openOptions flags bits v.task.umask))).answer x s.1.shared.mounts
        s.2).1 >>= _) _ =
        (.ok r, t)
    rw [hfile]
    exact ⟨_, _, rfl⟩
  · cases stat with
    | none => simp
    | some st => simpa using (hopens st rfl).1
  · rintro ⟨hflag, hsome, -⟩
    obtain ⟨st, rfl⟩ := Option.isSome_iff_exists.mp hsome
    exact hflag (hopens st rfl).2

/-- What makes a file goes well so far. -/
theorem run_openNode {flags bits : ℕ} {node : Node} {s : Machine × W} (h : node.Makes x flags bits s) :
    ∃ r t, (openNode s.1.view flags bits node).run (exec x) s = (.ok r, t) := by
  cases node with
  | mounted i rel guest =>
    obtain ⟨hwritable, hstat, ⟨file, hfile⟩, -⟩ := h
    have hrun : ∃ r t, (openMounted s.1.view flags bits i rel guest).run (exec x) s = (.ok r, t) := by
      have hask : ∀ f : Except Errno Stat → Handler OpenKind,
        (env (.vfs i (.stat rel true)) >>= f).run (exec x) s =
        (f ((EnvCall.vfs i (.stat rel true)).answer x s.1.shared.mounts s.2).1).run (exec x)
          (s.1, ((EnvCall.vfs i (.stat rel true)).answer x s.1.shared.mounts s.2).2) := fun f => rfl
      rw [openMounted_eq, if_neg (by simp [hwritable]), hask]
      rcases hstat with hnone | ⟨st, hst, hopens⟩
      · rw [hnone]
        exact run_openFound (opens_none flags) hfile
      · rw [hst]
        exact run_openFound hopens hfile
    obtain ⟨kind, t, hrun⟩ := hrun
    exact ⟨(kind, guest), t, Program.run_bind_ok (exec x) hrun⟩
  | _ => cases h

/-- An `openat` of this node takes what it cannot give back. -/
def Node.Wastes (x : Env W) (flags bits : ℕ) : Node → Machine × W → Prop
  | .device (.fd fd), s => (∃ entry d, s.1.ctx.task.fds.get fd = .ok entry ∧
      s.1.shared.descs.get entry.desc = some d ∧
      satAddU32 d.refs 1 ≠ d.refs) ∧ s.1.TableFull
  | .mounted i rel _, s => MakesFile x flags bits i rel s ∧ (s.1.SlabFull ∨ s.1.TableFull)
  | _, _ => False

def Machine.Wastes (x : Env W) (m : Machine) (w : W) (a : Args) : Prop := ∃ path node t,
  m.inst.mem.cstr (asU32 a.a1) = .ok path ∧
  (resolve a.a0 path (asU32 a.a2 &&& oNofollow = 0)).run (exec x) (m, w) = (.ok node, t) ∧
  node.Wastes x (asU32 a.a2) (asU32 a.a3) t

/-- An error of the program makes no file, and leaves descriptors, descriptions
and references alone. -/
def LeavesNoTrace (x : Env W) (p : Handler ℤ) (s : Machine × W) : Prop :=
    ∀ e t, p.run (exec x) s = (.error (.errno e), t) →
  Program.Along (exec x) (fun o s => ¬ o.Makes x s) p s ∧ s.1.Untouched t.1

/-- What only looks is as if it had not been. -/
theorem leavesNoTrace_bind {p : Handler α} {f : α → Handler ℤ} (hp : p.Only Op.looks) (s : Machine × W) :
    LeavesNoTrace x (p >>= f) s ↔ ∀ a t, p.run (exec x) s = (.ok a, t) → LeavesNoTrace x (f a) t := by
  have hnoting := run_peeks (x := x) (peeks_of_looks hp) s
  constructor
  · intro h a t hrun e t' herror
    obtain ⟨halong, huntouched⟩ := h e t' ((Program.run_bind_ok (exec x) hrun).trans herror)
    rw [hrun] at hnoting
    refine ⟨((Program.along_bind _ _ p f s).mp halong).2 a t hrun, fun fd => ?_, fun key => ?_⟩
    · exact (huntouched.fds fd).trans (hnoting.untouched.fds fd).symm
    · exact (huntouched.descs key).trans (hnoting.untouched.descs key).symm
  · intro h e t' herror
    rcases Program.run_bind_eq_error (exec x) herror with hfails | ⟨a, t, hrun, hfails⟩
    · rw [hfails] at hnoting
      refine ⟨(Program.along_bind _ _ p f s).mpr ⟨along_looks hp s, fun a t hrun => ?_⟩, hnoting.untouched⟩
      cases hrun.symm.trans hfails
    · rw [hrun] at hnoting
      obtain ⟨halong, huntouched⟩ := h a t hrun e t' hfails
      refine ⟨(Program.along_bind _ _ p f s).mpr ⟨along_looks hp s, fun b u hu => ?_⟩,
        hnoting.untouched.trans huntouched⟩
      obtain ⟨hb, rfl⟩ := Prod.mk.inj (hu.symm.trans hrun)
      obtain rfl := Except.ok.inj hb
      exact halong

/-- A descriptor opened again, by another name. -/
theorem leavesNoTrace_dup (fd : ℤ) (cloexec : Bool) (s : Machine × W) :
    LeavesNoTrace x (act (.dup fd cloexec 0) >>= fun r => lift r) s ↔
      ¬ ((∃ entry d, s.1.ctx.task.fds.get fd = .ok entry ∧ s.1.shared.descs.get entry.desc = some d ∧
        satAddU32 d.refs 1 ≠ d.refs) ∧ s.1.TableFull) := by
  obtain ⟨m, w⟩ := s
  have hrun : (act (.dup fd cloexec 0) >>= fun r => lift r).run (exec x) (m, w) =
      (lift (m.dup fd cloexec 0).1).run (exec x) ((m.dup fd cloexec 0).2, w) := rfl
  have halong : Program.Along (exec x)
      (fun o s => ¬ o.Makes x s) (act (.dup fd cloexec 0) >>= fun r => lift r) (m, w) := by
    rw [Program.along_bind]
    refine ⟨⟨id, trivial⟩, fun r t _ => ?_⟩
    cases r <;> trivial
  unfold LeavesNoTrace
  rw [hrun]
  unfold Machine.dup
  rcases hentry : m.ctx.task.fds.get fd with e | entry
  · dsimp only
    constructor
    · rintro - ⟨⟨_, _, h, -⟩, -⟩
      cases h
    · rintro - e' t h
      obtain ⟨-, rfl⟩ := Prod.mk.inj h
      exact ⟨halong, (Machine.Noting.refl m).untouched⟩
  dsimp only
  have hget : ∀ key, (m.setShared (m.shared.addRef entry.desc)).shared.descs.get key =
      if entry.desc = key then (m.shared.descs.get key).map fun d => { d with refs := satAddU32 d.refs 1 }
      else m.shared.descs.get key :=
    fun key => Slab.get_modify _ _ key _
  rcases halloc : (m.setShared (m.shared.addRef entry.desc)).ctx.task.fds.alloc ⟨entry.desc, cloexec⟩ 0
      (m.setShared (m.shared.addRef entry.desc)).shared.limits.openFiles with e | ⟨n, fds⟩
  · constructor
    · rintro h ⟨⟨entry', d, hentry', hd, hrefs⟩, -⟩
      obtain rfl := Except.ok.inj hentry'
      have hsame := (h e _ rfl).2.descs entry.desc
      rw [hget, if_pos rfl, hd] at hsame
      exact hrefs (congrArg Desc.refs (Option.some.inj hsame))
    · rintro hnot e' t h
      obtain ⟨-, rfl⟩ := Prod.mk.inj h
      refine ⟨halong, fun _ => rfl, fun key => ?_⟩
      rw [hget]
      by_cases hk : entry.desc = key
      · subst hk
        rw [if_pos rfl]
        cases hd : m.shared.descs.get entry.desc with
        | none => rfl
        | some d =>
          by_contra hne
          refine hnot ⟨⟨entry, d, rfl, hd, fun hsame => hne ?_⟩, fun entry' =>
            ⟨e, FdTable.alloc_error halloc entry'⟩⟩
          rw [Option.map_some, hsame]
      · rw [if_neg hk]
  · constructor
    · rintro - ⟨-, hfull⟩
      obtain ⟨e, he⟩ := hfull ⟨entry.desc, cloexec⟩
      cases halloc.symm.trans he
    · rintro - e t h
      cases h

/-- The end of an `openat`. -/
def opened : Except (Errno × Option Handle) ℤ → Handler ℤ
  | .ok fd => return fd
  | .error (e, none) => fail e
  | .error (e, some handle) => do
    let _ ← env (.file handle .close)
    fail e

/-- A node opened for the first time. -/
theorem leavesNoTrace_opened (flags bits : ℕ) (cloexec : Bool) (status : ℕ) (node : Node) (s : Machine × W) :
    LeavesNoTrace x (openNode s.1.view flags bits node >>= fun r =>
      act (.openDesc r.1 r.2 status cloexec) >>= opened) s ↔ ¬ (node.Makes x flags bits s ∧
          (s.1.SlabFull ∨ s.1.TableFull)) := by
  have hnoting := run_peeks (x := x) (peeks_openNode s.1.view flags bits node) s
  have hend : ∀ (r : OpenKind × Text) (t : Machine × W), Program.Along (exec x) (fun o s => ¬ o.Makes x s)
      (act (.openDesc r.1 r.2 status cloexec) >>= opened) t := by
    intro r t
    rw [Program.along_bind]
    refine ⟨⟨id, trivial⟩, fun o t _ => ?_⟩
    rcases o with ⟨e, _ | handle⟩ | fd
    · trivial
    · exact ⟨id, trivial⟩
    · trivial
  constructor
  · rintro h ⟨hmakes, hfull⟩
    obtain ⟨r, t, hopen⟩ := run_openNode hmakes
    rw [hopen] at hnoting
    obtain ⟨pending, hpending⟩ := hnoting
    have hfull' : t.1.SlabFull ∨ t.1.TableFull := by rwa [hpending]
    obtain ⟨o, m', hdesc⟩ := t.1.openDesc_full hfull' r.1 r.2 status cloexec
    obtain ⟨e, t', hfails⟩ : ∃ e t', (act (.openDesc r.1 r.2 status cloexec) >>= opened).run (exec x) t =
        (.error (.errno e), t') := by
      have hact : (act (.openDesc r.1 r.2 status cloexec) >>= opened).run (exec x) t =
          (opened (.error o)).run (exec x) (m', t.2) := by
        change (opened (t.1.openDesc r.1 r.2 status cloexec).1).run (exec x)
          ((t.1.openDesc r.1 r.2 status cloexec).2, t.2) = _
        rw [hdesc]
      rw [hact]
      rcases o with ⟨e, _ | handle⟩ <;> exact ⟨_, _, rfl⟩
    have halong := (h e t' ((Program.run_bind_ok (exec x) hopen).trans hfails)).1
    exact (along_openNode flags bits node s).mp ((Program.along_bind _ _ _ _ _).mp halong).1 hmakes
  · intro hnot e t hrun
    have halong : ¬ node.Makes x flags bits s → Program.Along (exec x) (fun o s => ¬ o.Makes x s)
        (openNode s.1.view flags bits node >>= fun r =>
          act (.openDesc r.1 r.2 status cloexec) >>= opened) s := fun h =>
      (Program.along_bind _ _ _ _ _).mpr ⟨(along_openNode flags bits node s).mpr h, fun r t _ => hend r t⟩
    rcases Program.run_bind_eq_error (exec x) hrun with hfails | ⟨r, t', hopen, hfails⟩
    · rw [hfails] at hnoting
      refine ⟨halong fun hmakes => ?_, hnoting.untouched⟩
      obtain ⟨r, t', hopen⟩ := run_openNode hmakes
      cases hopen.symm.trans hfails
    · rw [hopen] at hnoting
      have hact : (act (.openDesc r.1 r.2 status cloexec) >>= opened).run (exec x) t' =
        (opened (t'.1.openDesc r.1 r.2 status cloexec).1).run (exec x)
        ((t'.1.openDesc r.1 r.2 status cloexec).2, t'.2) := rfl
      rw [hact] at hfails
      rcases hdesc : t'.1.openDesc r.1 r.2 status cloexec with ⟨o | fd, m'⟩
      · rw [hdesc] at hfails
        obtain ⟨hfull, huntouched⟩ := Machine.openDesc_fails hdesc
        have ht : t.1 = m' := by
          rcases o with ⟨e', _ | handle⟩ <;> exact congrArg Prod.fst (Prod.mk.inj hfails).2.symm
        refine ⟨halong fun hmakes => hnot ⟨hmakes, ?_⟩, hnoting.untouched.trans (ht ▸ huntouched)⟩
        obtain ⟨pending, hpending⟩ := hnoting
        have hsame : t'.1.SlabFull ∨ t'.1.TableFull ↔ s.1.SlabFull ∨ s.1.TableFull := by rw [hpending]; rfl
        exact hsame.mp hfull
      · rw [hdesc] at hfails
        cases hfails

/-- What an `openat` does about the node that its path leads to. -/
def openResolved (v : View) (a : Args) : Node → Handler ℤ
  | .device (.fd fd) => act (.dup fd (asU32 a.a2 &&& oCloexec != 0) 0) >>= fun r => lift r
  | node => openNode v (asU32 a.a2) (asU32 a.a3) node >>= fun r =>
    act (.openDesc r.1 r.2 (asU32 a.a2 &&& (oAccmode ||| oAppend ||| oNonblock))
      (asU32 a.a2 &&& oCloexec != 0)) >>= opened

theorem openat_eq (a : Args) : openat a = view >>= fun v => lift (v.mem.cstr (asU32 a.a1)) >>= fun path =>
    resolve a.a0 path (asU32 a.a2 &&& oNofollow = 0) >>= openResolved v a := by
  unfold openat
  dsimp only
  congr 1
  funext v
  congr 1
  funext path
  congr 1
  funext node
  cases node with
  | device d =>
    cases d with
    | fd => rfl
    | _ =>
      simp only [openResolved]
      congr 1
      funext r
      congr 1
      funext o
      rcases o with ⟨e, _ | handle⟩ | fd <;> rfl
  | _ =>
    simp only [openResolved]
    congr 1
    funext r
    congr 1
    funext o
    rcases o with ⟨e, _ | handle⟩ | fd <;> rfl

/-- In every state and for all arguments: an `openat` that fails leaves no
trace, unless its path leads to a file that is then made or to a descriptor
whose reference is then counted, and there is no room. -/
theorem openat_traceless_iff (m : Machine) (w : W) (a : Args) :
    LeavesNoTrace x (openat a) (m, w) ↔ ¬ m.Wastes x w a := by
  rw [openat_eq, leavesNoTrace_bind (p := view) ⟨trivial, fun _ => trivial⟩]
  have hview : ∀ {v t}, (view : Handler View).run (exec x) (m, w) = (.ok v, t) → v = m.view ∧ t = (m, w) := by
    intro v t h
    obtain ⟨hv, ht⟩ := Prod.mk.inj h
    exact ⟨(Except.ok.inj hv).symm, ht.symm⟩
  have hnode : ∀ {path node t}, (resolve a.a0 path (asU32 a.a2 &&& oNofollow = 0)).run (exec x) (m, w) =
    (.ok node, t) →
      (LeavesNoTrace x (openResolved m.view a node) t ↔ ¬ node.Wastes x (asU32 a.a2) (asU32 a.a3) t) := by
    intro path node t hrun
    have hnoting := run_peeks
      (x := x) (peeks_of_looks (looks_resolve a.a0 path (asU32 a.a2 &&& oNofollow = 0))) (m, w)
    rw [hrun] at hnoting
    have hsame : m.view = t.1.view := by
      obtain ⟨pending, hpending⟩ := hnoting
      rw [hpending]
      rfl
    rw [hsame]
    have hplain := leavesNoTrace_opened (x := x) (asU32 a.a2) (asU32 a.a3) (asU32 a.a2 &&& oCloexec != 0)
      (asU32 a.a2 &&& (oAccmode ||| oAppend ||| oNonblock)) node t
    cases node with
    | device d =>
      cases d with
      | fd fd => exact leavesNoTrace_dup fd _ t
      | _ => exact hplain.trans (not_congr ⟨fun h => h.1.elim, False.elim⟩)
    | mounted => exact hplain
    | _ => exact hplain.trans (not_congr ⟨fun h => h.1.elim, False.elim⟩)
  constructor
  · rintro h ⟨path, node, t, hpath, hrun, hwastes⟩
    have hpaths := h m.view (m, w) rfl
    rw [show m.view.mem = m.inst.mem from rfl, hpath] at hpaths
    have hnodes := (leavesNoTrace_bind (looks_resolve _ _ _) _).mp hpaths
    exact (hnode hrun).mp (hnodes node t hrun) hwastes
  · intro hnot v t hv
    obtain ⟨rfl, rfl⟩ := hview hv
    rw [show m.view.mem = m.inst.mem from rfl]
    rcases hpath : m.inst.mem.cstr (asU32 a.a1) with e | path
    · intro e t h
      obtain ⟨-, rfl⟩ := Prod.mk.inj h
      exact ⟨trivial, (Machine.Noting.refl m).untouched⟩
    · refine (leavesNoTrace_bind (looks_resolve _ _ _) _).mpr fun node t hrun =>
        (hnode hrun).mpr fun hwastes => ?_
      exact hnot ⟨path, node, t, hpath, hrun, hwastes⟩

end

/-- The table is full once the standard streams are in it. -/
def Config.crowded : Config := { Config.oneMount with limits := ⟨2^32, 2^30, 64, 3, 2^20, none⟩ }

/-- A guest with no descriptor left opens a file for writing and empties it, and
is told `EMFILE`. -/
theorem openat_truncates : ∃ (k : Kernel) (w : List GuestRun) (p : Proc),
    Reached (Env.oneFile [] fun _ => .error .inval) (fun _ _ => True) k w ∧ k.procs[0]? = some p ∧
    ¬ LeavesNoTrace (Env.oneFile [] fun _ => .error .inval) (openat ⟨atFdcwd, 24, 513, 0, 0, 0⟩)
      (k.machineOf p, w) := by
  have hstart : Between (Env.oneFile [] fun _ => .error .inval) (fun _ _ => True) ⟨_, none⟩ _ :=
    .start Config.crowded 0 _ _ [] _ rfl (Program.along_of_forall _ (fun _ _ => trivial) _ _) rfl
  refine ⟨_, _, _, .between _ _ hstart, rfl, fun h => ?_⟩
  have halong := (h .mfile _ rfl).1
  have hvisit := (Program.along_iff_trace _ _ _ _).mp halong _ (List.mem_of_getElem? (i := 4) rfl)
  exact hvisit ⟨⟨_, rfl⟩, .inl rfl⟩

end Wasmux
