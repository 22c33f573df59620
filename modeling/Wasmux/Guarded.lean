import Wasmux.Effects.Contracts
import Wasmux.Canonical
import Wasmux.Dispatch
import Wasmux.Unmounted

/-!
# What handlers ask of the mounts

A mount is asked about paths that the resolver found, and for a change only
where it allows one. A file is written only if the mount it came from does.
-/

set_option autoImplicit false

namespace Wasmux
open Effects Abi

/-- The arguments of a call that are paths inside the mount. What a symlink is
to hold is not one of them. -/
def VfsCall.paths : VfsCall → List Text
  | .openFile path _ | .stat path _ | .readdir path | .mkdir path _ | .unlink path | .rmdir path
  | .symlink _ path | .readlink path | .truncate path _ | .setMode path _ => [path]
  | .rename source target => [source, target]

def Mounts.isReadOnly (ms : Mounts) (i : ℕ) : Bool := (ms.get i).all Mount.readOnly

/-- A path inside a mount that stands for a folded path the mount owns. -/
def Mounts.Locates (ms : Mounts) (i : ℕ) (rel : Text) : Prop :=
  ∃ parts, Folded parts ∧ ms.find (join parts) = some (i, rel)

/-- A node inside a mount is where looking its guest path up leads. -/
def Node.Sound (ms : Mounts) (node : Node) : Prop := ∀ i rel guest, node = .mounted i rel guest →
  ∃ parts, Folded parts ∧ guest = join parts ∧ ms.find guest = some (i, rel)

/-- Every open file comes from the mount its description names. -/
def Traced (origin : Handle → ℕ → Prop) (descs : Slab Desc) : Prop := ∀ key d h i closed,
  descs.get key = some d → d.kind = .file h i closed → origin h i

/-- What handlers may ask over these mounts, when `origin` says which mount a
file comes from, and what they may rely on. -/
def guarded (ms : Mounts) (origin : Handle → ℕ → Prop) : Program.Contract sig where
  asks
    | .env (.vfs i call) =>
      (∀ rel ∈ call.paths, ms.Locates i rel) ∧ (call.writes = true → ms.isReadOnly i = false)
    | .env (.file h call) => call.writes = true → ∃ i, origin h i ∧ ms.isReadOnly i = false
    | .act (.openDesc kind _ _ _) => ∀ h i closed, kind.1 = .file h i closed → origin h i
    | _ => True
  gives
    | .act .view, v => v.mounts = ms ∧ Traced origin v.descs
    | .env (.vfs i (.openFile _ _)), .ok h => origin h i
    | _, _ => True

section
variable {ε α β : Type} {K : Program.Contract sig} {Q : α → Prop}

theorem obeys_act {a : Act} {f : a.Ans → Program sig ε α} (h : K.asks (.act a))
    (hf : ∀ r, K.gives (.act a) r → (f r).Obeys K Q) : (act a >>= f).Obeys K Q := ⟨h, hf⟩

theorem obeys_env {c : EnvCall} {f : c.Ans → Program sig ε α} (h : K.asks (.env c))
    (hf : ∀ r, K.gives (.env c) r → (f r).Obeys K Q) : (env c >>= f).Obeys K Q := ⟨h, hf⟩

end

section
variable {ε α : Type} {ms : Mounts} {origin : Handle → ℕ → Prop}

theorem Op.unmounted.asks {o : Op} (h : o.unmounted) : (guarded ms origin).asks o := by
  cases o with
  | env c =>
    cases c with
    | vfs => cases h
    | file handle call => exact fun hw => absurd (hw.symm.trans h) Bool.true_eq_false_eq_False.elim
    | _ => trivial
  | act a =>
    cases a with
    | openDesc => cases h
    | _ => trivial

theorem obeys_unmounted {p : Program sig ε α} (h : p.Only (Op.lawful Op.unmounted)) :
    p.Obeys (guarded ms origin) fun _ => True := h.obeys fun _ ho => ho.of.asks

theorem obeys_domestic {p : Program sig ε α} (h : p.Only (Op.lawful Op.domestic)) :
    p.Obeys (guarded ms origin) fun _ => True :=
  obeys_unmounted (unmounted_of_domestic h)

theorem obeys_lift {Q : α → Prop} {r : Except Errno α} (h : ∀ a, r = .ok a → Q a) :
    (lift r).Obeys (guarded ms origin) Q := by
  cases r with
  | ok a => exact h a rfl
  | error e => trivial

theorem obeys_lifted {β : Type} {Q : β → Prop} {r : Except Errno α} {f : α → Handler β}
    (h : ∀ a, r = .ok a → (f a).Obeys (guarded ms origin) Q) : (lift r >>= f).Obeys (guarded ms origin) Q :=
  Program.obeys_bind (obeys_lift fun _ ha => ha) h

theorem obeys_vfsFault {Q : α → Prop} (e : Errno) : (vfsFault e : Handler α).Obeys (guarded ms origin) Q := by
  unfold vfsFault
  split
  · exact obeys_act trivial fun _ _ => trivial
  · trivial

theorem obeys_orVfsFault {Q : α → Prop} {r : Except Errno α} (h : ∀ a, r = .ok a → Q a) :
    (orVfsFault r).Obeys (guarded ms origin) Q := by
  cases r with
  | ok a => exact h a rfl
  | error e => exact obeys_vfsFault e

theorem obeys_vfsAsk {i : ℕ} {call : VfsCall} {Q : call.Ans → Prop}
    (h : (guarded ms origin).asks (.env (.vfs i call)))
    (hq : ∀ a, (guarded ms origin).gives (.env (.vfs i call)) (.ok a) → Q a) :
    (vfsAsk i call).Obeys (guarded ms origin) Q :=
  obeys_env h fun _ hr => obeys_orVfsFault fun a ha => hq a (ha ▸ hr)

theorem obeys_asked {β : Type} {Q : β → Prop} {i : ℕ} {call : VfsCall} {f : call.Ans → Handler β}
    (h : (guarded ms origin).asks (.env (.vfs i call))) (hf : ∀ a, (f a).Obeys (guarded ms origin) Q) :
    (vfsAsk i call >>= f).Obeys (guarded ms origin) Q :=
  Program.obeys_bind (P := fun _ => True) (obeys_vfsAsk h fun _ _ => trivial) fun a _ => hf a

theorem asks_about {i : ℕ} {rel : Text} {call : VfsCall} (h : ms.Locates i rel) (hpaths : call.paths = [rel])
    (hreads : call.writes = false) : (guarded ms origin).asks (.env (.vfs i call)) := by
  refine ⟨?_, fun hw => ?_⟩
  · rw [hpaths]
    intro rel' hmem
    obtain rfl := List.mem_singleton.mp hmem
    exact h
  · rw [hreads] at hw
    cases hw

end

theorem procNode_mounted {who : Who} {guest : Text} {i : ℕ} {rel guest' : Text} :
    procNode who guest ≠ some (.mounted i rel guest') := by
  intro h
  obtain ⟨rest, -, h⟩ := Option.bind_eq_some_iff.mp h
  dsimp only at h
  split at h
  · cases h
  split at h
  · obtain ⟨n, -, h⟩ := Option.bind_eq_some_iff.mp h
    cases h
  split at h
  · cases h
  split at h <;> cases h

namespace Resolver
variable {ms : Mounts} {origin : Handle → ℕ → Prop} {v : View}

theorem obeys_symlinkTarget (hv : v.mounts = ms) {parts : List Text} (h : Folded parts) :
    (symlinkTarget v (join parts)).Obeys (guarded ms origin) fun _ => True := by
  unfold symlinkTarget
  split
  · trivial
  split
  · trivial
  split
  · trivial
  rename_i i rel hfind
  have hlocates : ms.Locates i rel := ⟨parts, h, hv ▸ hfind⟩
  refine obeys_env trivial fun links _ => ?_
  split
  · refine obeys_env (asks_about hlocates rfl rfl) fun r _ => ?_
    split
    · split
      · refine obeys_env (asks_about hlocates rfl rfl) fun r _ => ?_
        split
        · trivial
        · split <;> trivial
      · trivial
    · split <;> trivial
  · trivial

theorem obeys_classifyFinal (hv : v.mounts = ms) {parts : List Text} (h : Folded parts) :
    (classifyFinal v (join parts)).Obeys (guarded ms origin) (Node.Sound ms) := by
  unfold classifyFinal
  split
  · exact fun _ _ _ hnode => by cases hnode
  split
  · exact fun _ _ _ hnode => by cases hnode
  split
  · rename_i node hnode
    intro i rel guest heq
    exact absurd (heq ▸ hnode) procNode_mounted
  split
  · rename_i i rel hfind
    have hsound : Node.Sound ms (.mounted i rel (join parts)) := by
      intro i' rel' guest' heq
      obtain ⟨rfl, rfl, rfl⟩ := by simpa using heq
      exact ⟨parts, h, rfl, hv ▸ hfind⟩
    split
    · refine obeys_env (asks_about ⟨parts, h, hv ▸ hfind⟩ rfl rfl) fun r _ => ?_
      split
      · split
        · exact hsound
        · exact fun _ _ _ hnode => by cases hnode
      · split
        · trivial
        · exact fun _ _ _ hnode => by cases hnode
    · exact hsound
  · split
    · exact fun _ _ _ hnode => by cases hnode
    · trivial

theorem obeys_walkFrom (hv : v.mounts = ms) (follow : Bool) {restart : List Text → Program sig Errno Node}
    (hrestart : ∀ parts, Folded parts → (restart parts).Obeys (guarded ms origin) (Node.Sound ms))
    {before parts : List Text} (hbefore : Folded before) (hparts : Folded parts) :
    (walkFrom v follow restart before parts).Obeys (guarded ms origin) (Node.Sound ms) := by
  induction parts generalizing before with
  | nil => exact obeys_classifyFinal hv hbefore
  | cons part rest ih =>
    have hrest : Folded rest := fun p hp => hparts p (List.mem_cons_of_mem part hp)
    have hhere : Folded (before ++ [part]) := by
      apply hbefore.append
      intro p hp
      obtain rfl := List.mem_singleton.mp hp
      exact hparts p List.mem_cons_self
    unfold walkFrom
    dsimp only
    split
    · apply Program.obeys_bind (obeys_symlinkTarget hv hhere)
      rintro (_ | target) -
      · exact ih hhere hrest
      · exact hrestart _ ((folded_normalize _ _).append hrest)
    · split
      · exact fun _ _ _ hnode => by cases hnode
      · exact ih hhere hrest

theorem obeys_walk (hv : v.mounts = ms) (follow : Bool) (hops : ℕ) {parts : List Text} (h : Folded parts) :
    (walk v follow hops parts).Obeys (guarded ms origin) (Node.Sound ms) := by
  induction hops generalizing parts with
  | zero =>
    apply obeys_walkFrom hv follow _ .nil h
    exact fun _ _ => trivial
  | succ hops ih => exact obeys_walkFrom hv follow (fun _ => ih) .nil h

theorem obeys_resolve (hv : v.mounts = ms) (base path : Text) (follow : Bool) :
    (resolve v base path follow).Obeys (guarded ms origin) (Node.Sound ms) := by
  unfold resolve
  split
  · trivial
  · exact obeys_walk hv follow _ (folded_normalize base path)

end Resolver

section
variable {ms : Mounts} {origin : Handle → ℕ → Prop}

theorem obeys_resolve (dirfd : ℤ) (path : Text) (follow : Bool) :
    (resolve dirfd path follow).Obeys (guarded ms origin) (Node.Sound ms) := by
  refine obeys_act trivial fun v hv => ?_
  refine obeys_lifted fun base _ => ?_
  apply Program.obeys_bind (Program.obeys_catching (Resolver.obeys_resolve hv.1 base path follow))
  exact fun r hr => obeys_orVfsFault hr

theorem obeys_changeMount {v : View} (hv : v.mounts = ms) {i : ℕ} {call : VfsCall}
    (h : ∀ rel ∈ call.paths, ms.Locates i rel) :
    (Sys.changeMount v i call).Obeys (guarded ms origin) fun _ => True := by
  apply Program.obeys_ite
  · exact fun _ => trivial
  · intro hwritable
    apply Program.obeys_bind (P := fun _ => True)
    · apply obeys_vfsAsk
      · refine ⟨h, fun _ => ?_⟩
        rw [← hv]
        simpa [View.isReadOnly, Mounts.isReadOnly] using hwritable
      · exact fun _ _ => trivial
    · exact fun _ _ => trivial

theorem obeys_resolved {dirfd : ℤ} {path : Text} {follow : Bool} {α : Type} {Q : α → Prop}
    {f : Node → Handler α} (h : ∀ node, node.Sound ms → (f node).Obeys (guarded ms origin) Q) :
    (resolve dirfd path follow >>= f).Obeys (guarded ms origin) Q :=
  Program.obeys_bind (obeys_resolve dirfd path follow) h

theorem Node.Sound.locates {i : ℕ} {rel guest : Text} (h : (Node.mounted i rel guest).Sound ms) :
    ms.Locates i rel := by
  obtain ⟨parts, hparts, rfl, hfind⟩ := h i rel guest rfl
  exact ⟨parts, hparts, hfind⟩

theorem Traced.file {v : View} (h : Traced origin v.descs) {fd : ℤ} {entry : Fd} {desc : Desc}
    (hopen : openFd v fd = .ok (entry, desc)) {file : Handle} {i : ℕ} {closed : Bool}
    (hkind : desc.kind = .file file i closed) : origin file i := by
  unfold openFd at hopen
  cases hentry : v.task.fds.get fd with
  | error e => simp [hentry, bind, Except.bind] at hopen
  | ok found =>
    simp only [hentry, bind, Except.bind] at hopen
    split at hopen
    · rename_i d hd
      obtain ⟨rfl, rfl⟩ := by simpa using hopen
      exact h _ _ _ _ _ hd hkind
    · cases hopen

theorem obeys_writeBytes (fd : ℤ) (data : Bytes) :
    (writeBytes fd data).Obeys (guarded ms origin) fun _ => True := by
  refine obeys_act trivial fun v hv => ?_
  apply obeys_lifted
  rintro ⟨entry, desc⟩ hopen
  dsimp only
  split
  · trivial
  split
  · rename_i file mount closed hkind
    apply Program.obeys_ite
    · exact fun _ => trivial
    · intro hwritable
      refine obeys_env ?_ fun r _ => obeys_orVfsFault fun _ _ => trivial
      intro _
      refine ⟨mount, hv.2.file hopen hkind, ?_⟩
      rw [← hv.1]
      simpa [View.isReadOnly, Mounts.isReadOnly] using hwritable
  · trivial
  · trivial
  · trivial
  · trivial
  · trivial
  · trivial
  · trivial
  · exact obeys_act trivial fun _ _ => trivial
  · split
    · trivial
    split_ifs
    · exact obeys_act trivial fun _ _ => trivial
    · trivial
    · trivial
    · exact obeys_act trivial fun _ _ => trivial

theorem obeys_write (fd : ℤ) (start length : ℕ) :
    (Sys.write fd start length).Obeys (guarded ms origin) fun _ => True := by
  refine obeys_act trivial fun v _ => ?_
  refine obeys_lifted fun data _ => ?_
  exact Program.obeys_bind (obeys_writeBytes fd data) fun _ _ => trivial

namespace Sys
variable (a : Args)

theorem obeys_writev : (writev a).Obeys (guarded ms origin) fun _ => True := by
  unfold writev
  generalize (max a.a2 0).toNat = count
  generalize (0 : ℕ) = index, (0 : ℤ) = total
  induction count generalizing index total with
  | zero => trivial
  | succ count ih =>
    unfold vectorLoop
    refine obeys_act trivial fun v _ => ?_
    refine obeys_lifted fun start _ => ?_
    refine obeys_lifted fun len _ => ?_
    apply Program.obeys_ite (fun _ => ih _ _)
    intro _
    apply Program.obeys_bind (Program.obeys_catching (obeys_write _ _ _))
    rintro (fault | done) -
    · exact Program.obeys_ite (fun _ => trivial) fun _ => trivial
    · exact Program.obeys_ite (fun _ => trivial) fun _ => ih _ _

theorem obeys_ftruncate : (ftruncate a).Obeys (guarded ms origin) fun _ => True := by
  refine obeys_act trivial fun v hv => ?_
  apply obeys_lifted
  rintro ⟨entry, desc⟩ hopen
  dsimp only
  split
  · rename_i file mount closed hkind
    apply Program.obeys_ite
    · exact fun _ => trivial
    · intro hwritable
      refine obeys_env ?_ fun r _ =>
      Program.obeys_bind (P := fun _ => True) (obeys_orVfsFault fun _ _ => trivial)
        fun _ _ => trivial
      intro _
      refine ⟨mount, hv.2.file hopen hkind, ?_⟩
      rw [← hv.1]
      simpa [View.isReadOnly, Mounts.isReadOnly] using hwritable
  · trivial

theorem obeys_truncate : (truncate a).Obeys (guarded ms origin) fun _ => True := by
  refine obeys_act trivial fun v hv => ?_
  refine obeys_lifted fun path _ => ?_
  apply obeys_resolved
  intro node hnode
  split
  · exact obeys_changeMount hv.1 fun rel h => by
      obtain rfl := List.mem_singleton.mp h
      exact hnode.locates
  · trivial

theorem wantsWrite_of_openOptions {flags mode umask : ℕ} {rel : Text}
    (h : (VfsCall.openFile rel (openOptions flags mode umask)).writes = true) : wantsWrite flags = true := by
  by_contra hnot
  obtain ⟨⟨hwronly, hrdwr⟩, hflags⟩ : (¬ flags &&& oAccmode = oWronly ∧ ¬ flags &&& oAccmode = oRdwr) ∧
      flags &&& (oCreat ||| oTrunc) = 0 := by simpa [wantsWrite] using hnot
  obtain ⟨hcreat, htrunc⟩ : flags &&& oCreat = 0 ∧ flags &&& oTrunc = 0 := by
    rwa [Nat.and_or_distrib_left, Nat.or_eq_zero_iff] at hflags
  simp [VfsCall.writes, openOptions, hwronly, hrdwr, hcreat, htrunc] at h

/-- What is opened inside a mount is a directory's listing, or a file of that mount. -/
theorem obeys_openMounted {v : View} (hv : v.mounts = ms) (flags mode : ℕ) {i : ℕ} {rel : Text} (guest : Text)
    (h : ms.Locates i rel) : (openMounted v flags mode i rel guest).Obeys (guarded ms origin)
      fun kind => ∀ h i closed, kind.1 = .file h i closed → origin h i := by
  have hlisted : (openDir v i rel guest).Obeys (guarded ms origin)
      fun kind => ∀ h i closed, kind.1 = .file h i closed → origin h i := by
    apply obeys_asked (asks_about h rfl rfl)
    intro listing
    apply Program.obeys_bind (obeys_domestic (domestic_of_glances (glances_listedEntries guest listing)))
    intro listed _
    apply Program.obeys_bind (obeys_domestic (domestic_of_glances (glances_mergeVirtual _ _)))
    exact fun _ _ _ _ _ hkind => by cases hkind
  rw [openMounted_eq]
  apply Program.obeys_ite
  · exact fun _ => trivial
  intro hallowed
  have hrest : ∀ stat : Option Stat, (openFound v flags mode i rel guest stat).Obeys (guarded ms origin)
      fun kind => ∀ h i closed, kind.1 = .file h i closed → origin h i := by
    intro stat
    apply Program.obeys_ite
    · exact fun _ => trivial
    intro _
    apply Program.obeys_ite
    · intro _
      apply Program.obeys_ite
      · exact fun _ => trivial
      exact fun _ => hlisted
    · intro _
      refine Program.obeys_bind (P := fun file =>
        origin file i) (obeys_vfsAsk ⟨?_, ?_⟩ fun _ hfile => hfile) ?_
      · intro rel' hmem
        obtain rfl := List.mem_singleton.mp hmem
        exact h
      · intro hwrites
        have hwants := wantsWrite_of_openOptions hwrites
        rw [← hv]
        simpa [hwants, View.isReadOnly, Mounts.isReadOnly] using hallowed
      · intro file hfile h' i' closed hkind
        obtain ⟨rfl, rfl, -⟩ := DescKind.file.inj hkind
        exact hfile
  refine obeys_env (asks_about h rfl rfl) fun r _ => ?_
  cases r with
  | ok stat => exact hrest (some stat)
  | error e =>
    apply Program.obeys_ite
    · exact fun _ => hrest none
    · exact fun _ => Program.obeys_bind (P := fun _ => True) (obeys_vfsFault e) fun stat _ => hrest stat

theorem deviceKind_file {device : Device} {access : ℕ} {h : Handle} {i : ℕ} {closed : Bool} :
    (deviceKind device access).1 ≠ .file h i closed := by
  cases device with
  | tty =>
    simp only [deviceKind]
    split <;> simp
  | _ => simp [deviceKind]

theorem obeys_openNode {v : View} (hv : v.mounts = ms) (flags mode : ℕ) {node : Node} (h : node.Sound ms) :
    (openNode v flags mode node).Obeys (guarded ms origin)
      fun r => ∀ h i closed, r.1.1 = .file h i closed → origin h i := by
  cases node with
  | program id guest =>
    apply Program.obeys_ite
    · exact fun _ => trivial
    · exact fun _ _ _ _ hkind => by cases hkind
  | device device => exact fun _ _ _ hkind => absurd hkind deviceKind_file
  | synth guest =>
    apply Program.obeys_ite
    · exact fun _ => trivial
    · intro _
      apply Program.obeys_bind (obeys_domestic (domestic_of_glances (glances_procContent guest)))
      exact fun _ _ _ _ _ hkind => by cases hkind
  | virtualDir guest =>
    apply Program.obeys_ite
    · exact fun _ => trivial
    · intro _
      apply Program.obeys_bind (obeys_domestic (domestic_of_glances (glances_virtualDirents _)))
      exact fun _ _ _ _ _ hkind => by cases hkind
  | virtualLink target => trivial
  | mounted i rel guest =>
    exact Program.obeys_bind (obeys_openMounted hv flags mode guest h.locates) fun _ hk => hk

theorem obeys_openat : (openat a).Obeys (guarded ms origin) fun _ => True := by
  refine obeys_act trivial fun v hv => ?_
  refine obeys_lifted fun path _ => ?_
  apply obeys_resolved
  intro node hnode
  split
  · exact obeys_act trivial fun _ _ => obeys_lift fun _ _ => trivial
  · apply Program.obeys_bind (obeys_openNode hv.1 _ _ hnode)
    rintro ⟨kind, guest⟩ hkind
    refine obeys_act (a := .openDesc _ _ _ _) hkind ?_
    rintro (⟨e, _ | handle⟩ | fd) -
    · trivial
    · exact obeys_env (fun h => by cases h) fun _ _ => trivial
    · trivial

theorem obeys_chdir : (chdir a).Obeys (guarded ms origin) fun _ => True := by
  refine obeys_act trivial fun v hv => ?_
  refine obeys_lifted fun path _ => ?_
  apply obeys_resolved
  intro node hnode
  split
  · exact obeys_act trivial fun _ _ => trivial
  · refine obeys_asked (asks_about hnode.locates rfl rfl) fun stat => ?_
    apply Program.obeys_ite
    · exact fun _ => obeys_act trivial fun _ _ => trivial
    · exact fun _ => trivial
  · trivial

theorem obeys_statDesc (desc : Desc) : (statDesc desc).Obeys (guarded ms origin) fun _ => True := by
  unfold statDesc
  split
  · exact Program.obeys_bind (obeys_domestic (domestic_fileAsk _ _ rfl)) fun _ _ => trivial
  all_goals trivial

theorem obeys_statNode (path : Text) (follow : Bool) {node : Node} (h : node.Sound ms) :
    (statNode path follow node).Obeys (guarded ms origin) fun _ => True := by
  cases node with
  | synth guest =>
    have hdomestic := domestic_of_glances (glances_procContent guest)
    exact Program.obeys_bind (obeys_domestic hdomestic) fun _ _ => trivial
  | mounted i rel guest =>
    exact obeys_asked (asks_about h.locates rfl rfl) fun _ => trivial
  | _ => trivial

theorem obeys_statx : (statx a).Obeys (guarded ms origin) fun _ => True := by
  have answer : ∀ (stat : Stat) (name : Text) (rdev : ℕ × ℕ), (
      if rdev = (0, 0) then do
        writeStatx (asU32 a.a4) stat name rdev
        return 0
      else do
        writeStatx (asU32 a.a4) { stat with fileType := .file } name rdev
        put (wrapAdd (asU32 a.a4) 28) (toLe 2 (sIfchr ||| if stat.mode = 0 then 0o666 else stat.mode))
        return 0 : Handler ℤ).Obeys (guarded ms origin) fun _ => True := by
    intro stat name rdev
    apply Program.obeys_ite
    · exact fun _ => Program.obeys_bind (obeys_domestic (domestic_writeStatx _ _ _ _)) fun _ _ => trivial
    · intro _
      apply Program.obeys_bind (obeys_domestic (domestic_writeStatx _ _ _ _))
      exact fun _ _ => Program.obeys_bind (obeys_domestic (domestic_put _ _)) fun _ _ => trivial
  refine obeys_act trivial fun v hv => ?_
  refine obeys_lifted fun path _ => ?_
  dsimp only
  split
  · refine obeys_lifted fun r _ => ?_
    exact Program.obeys_bind (obeys_statDesc _) fun r _ => answer r.1 r.2.1 r.2.2
  · apply obeys_resolved
    intro node hnode
    exact Program.obeys_bind (obeys_statNode path _ hnode) fun r _ => answer r.1 r.2.1 r.2.2

theorem obeys_faccessat : (faccessat a).Obeys (guarded ms origin) fun _ => True := by
  refine obeys_act trivial fun v hv => ?_
  refine obeys_lifted fun path _ => ?_
  apply obeys_resolved
  intro node hnode
  split
  · exact obeys_asked (asks_about hnode.locates rfl rfl) fun _ => trivial
  · trivial

theorem obeys_readlinkat : (readlinkat a).Obeys (guarded ms origin) fun _ => True := by
  have answer : ∀ target : Text, (do
      let take := min target.length (asU32 a.a3)
      put (asU32 a.a2) (target.take take)
      return asI32 take : Handler ℤ).Obeys (guarded ms origin) fun _ => True := fun target =>
    Program.obeys_bind (obeys_domestic (domestic_put _ _)) fun _ _ => trivial
  refine obeys_act trivial fun v hv => ?_
  refine obeys_lifted fun path _ => ?_
  apply obeys_resolved
  intro node hnode
  split
  · exact answer _
  · refine obeys_lifted fun r _ => ?_
    exact answer _
  · exact obeys_asked (asks_about hnode.locates rfl rfl) answer
  · trivial

theorem obeys_makeAt {v : View} (hv : v.mounts = ms) (dirfd : ℤ) (path : Text) (follow : Bool)
    {call : Text → VfsCall} (hcall : ∀ rel, (call rel).paths = [rel]) :
    (makeAt v dirfd path follow call).Obeys (guarded ms origin) fun _ => True := by
  apply Program.obeys_bind (Program.obeys_catching (obeys_resolve dirfd path follow))
  intro r hr
  split
  · apply obeys_changeMount hv
    intro rel h
    rw [hcall] at h
    obtain rfl := List.mem_singleton.mp h
    exact (hr _ rfl).locates
  · trivial
  · exact Program.obeys_ite (fun _ => trivial) fun _ => trivial
  · trivial

theorem obeys_mkdirat : (mkdirat a).Obeys (guarded ms origin) fun _ => True := by
  refine obeys_act trivial fun v hv => ?_
  refine obeys_lifted fun path _ => ?_
  exact obeys_makeAt hv.1 _ _ _ fun _ => rfl

theorem obeys_symlinkat : (symlinkat a).Obeys (guarded ms origin) fun _ => True := by
  refine obeys_act trivial fun v hv => ?_
  refine obeys_lifted fun target _ => ?_
  refine obeys_lifted fun path _ => ?_
  exact obeys_makeAt hv.1 _ _ _ fun _ => rfl

theorem obeys_unlinkat : (unlinkat a).Obeys (guarded ms origin) fun _ => True := by
  refine obeys_act trivial fun v hv => ?_
  refine obeys_lifted fun path _ => ?_
  apply obeys_resolved
  intro node hnode
  split
  · apply obeys_changeMount hv.1
    intro rel h
    split at h
    · obtain rfl := List.mem_singleton.mp h
      exact hnode.locates
    · obtain rfl := List.mem_singleton.mp h
      exact hnode.locates
  · trivial

theorem obeys_renameat : (renameat a).Obeys (guarded ms origin) fun _ => True := by
  refine obeys_act trivial fun v hv => ?_
  refine obeys_lifted fun fromPath _ => ?_
  refine obeys_lifted fun toPath _ => ?_
  apply obeys_resolved
  intro source hsource
  apply obeys_resolved
  intro target htarget
  split
  · apply Program.obeys_ite
    · exact fun _ => trivial
    · intro hsame
      rename_i m1 r1 g1 m2 r2 g2
      obtain rfl : m1 = m2 := not_ne_iff.mp hsame
      apply obeys_changeMount hv.1
      intro rel h
      rcases List.mem_cons.mp h with rfl | h
      · exact hsource.locates
      · obtain rfl := List.mem_singleton.mp h
        exact htarget.locates
  · trivial

theorem obeys_fchmodat : (fchmodat a).Obeys (guarded ms origin) fun _ => True := by
  refine obeys_act trivial fun v hv => ?_
  refine obeys_lifted fun path _ => ?_
  apply obeys_resolved
  intro node hnode
  split
  · apply obeys_changeMount hv.1
    intro rel h
    obtain rfl := List.mem_singleton.mp h
    exact hnode.locates
  · trivial

theorem obeys_utimensat : (utimensat a).Obeys (guarded ms origin) fun _ => True := by
  refine obeys_act trivial fun v hv => ?_
  refine obeys_lifted fun path _ => ?_
  split
  · trivial
  apply obeys_resolved
  intro node hnode
  split
  · exact obeys_asked (asks_about hnode.locates rfl rfl) fun _ => trivial
  · trivial

theorem obeys_execScript {i : ℕ} {rel : Text} (h : ms.Locates i rel) (path : Text) (argv envp : List Bytes) :
    (execScript i rel path argv envp).Obeys (guarded ms origin) fun _ => True := by
  refine obeys_asked (asks_about h rfl rfl) fun file => ?_
  apply Program.obeys_bind (obeys_domestic (domestic_fileAsk file (.read 256) rfl))
  rintro ⟨n, buf⟩ -
  refine obeys_env (fun h => by cases h) fun _ _ => ?_
  split
  · trivial
  apply obeys_resolved
  intro node _
  split
  · exact obeys_domestic (domestic_finishExec _ _ _ _)
  · trivial

theorem obeys_execve : (execve a).Obeys (guarded ms origin) fun _ => True := by
  refine obeys_act trivial fun v hv => ?_
  refine obeys_lifted fun path _ => ?_
  refine obeys_lifted fun argv _ => ?_
  refine obeys_lifted fun envp _ => ?_
  apply obeys_resolved
  intro node hnode
  split
  · exact obeys_domestic (domestic_finishExec _ _ _ _)
  · refine obeys_env (asks_about hnode.locates rfl rfl) fun r _ => ?_
    split
    · exact Program.obeys_ite (fun _ => trivial) fun _ => obeys_execScript hnode.locates _ _ _
    · exact obeys_execScript hnode.locates _ _ _
  · trivial

end Sys

/-- The whole table asks within the contract. -/
theorem obeys_handle (number : ℤ) (a : Args) : (handle number a).Obeys (guarded ms origin) fun _ => True := by
  unfold handle
  cases Nr.ofInt number with
  | exit | exitGroup => exact obeys_domestic (Sys.domestic_exit a)
  | clone => exact obeys_domestic (Sys.domestic_clone a)
  | execve => exact Sys.obeys_execve a
  | wait4 => exact obeys_domestic (Sys.domestic_wait4 a)
  | getpid | gettid | setTidAddress => exact obeys_domestic Sys.domestic_getpid
  | getppid => exact obeys_domestic Sys.domestic_getppid
  | setpgid => exact obeys_domestic (Sys.domestic_setpgid a)
  | getpgid => exact obeys_domestic (Sys.domestic_recordField a _)
  | setsid => exact obeys_domestic Sys.domestic_setsid
  | getsid => exact obeys_domestic (Sys.domestic_recordField a _)
  | schedGetaffinity => exact obeys_domestic (Sys.domestic_schedGetaffinity a)
  | umask => exact obeys_domestic (Sys.domestic_umask a)
  | uname => exact obeys_domestic (Sys.domestic_uname a)
  | sysinfo => exact obeys_domestic (Sys.domestic_sysinfo a)
  | prlimit64 => exact obeys_domestic (Sys.domestic_prlimit64 a)
  | getrusage => exact obeys_domestic (Sys.domestic_getrusage a)
  | times => exact obeys_domestic (Sys.domestic_times a)
  | getrandom => exact obeys_domestic (Sys.domestic_getrandom a)
  | rtSigaction => exact obeys_domestic (Sys.domestic_rtSigaction a)
  | rtSigprocmask => exact obeys_domestic (Sys.domestic_rtSigprocmask a)
  | rtSigpending => exact obeys_domestic (Sys.domestic_rtSigpending a)
  | rtSigsuspend => exact obeys_domestic (Sys.domestic_rtSigsuspend a)
  | kill | tkill => exact obeys_domestic (Sys.domestic_sendSignal _ _)
  | tgkill => exact obeys_domestic (Sys.domestic_sendSignal _ _)
  | clockGettime64 => exact obeys_domestic (Sys.domestic_clockGettime64 a)
  | clockGetresTime64 => exact obeys_domestic (Sys.domestic_clockGetresTime64 a)
  | gettimeofday => exact obeys_domestic (Sys.domestic_gettimeofday a)
  | nanosleep => exact obeys_domestic (Sys.domestic_nanosleep a)
  | clockNanosleepTime64 => exact obeys_domestic (Sys.domestic_clockNanosleepTime64 a)
  | brk => exact obeys_domestic (Sys.domestic_brk a)
  | mmap => exact obeys_domestic (Sys.domestic_mmap a)
  | openat => exact Sys.obeys_openat a
  | close => exact obeys_domestic (Sys.domestic_close a)
  | read => exact obeys_unmounted (Sys.unmounted_read _ _ _)
  | write => exact obeys_write _ _ _
  | readv => exact obeys_unmounted (Sys.unmounted_readv a)
  | writev => exact Sys.obeys_writev a
  | lseek => exact obeys_domestic (Sys.domestic_lseek a)
  | ftruncate => exact Sys.obeys_ftruncate a
  | truncate => exact Sys.obeys_truncate a
  | dup => exact obeys_domestic (Sys.domestic_dup a)
  | dup3 => exact obeys_domestic (Sys.domestic_dup3 a)
  | pipe2 => exact obeys_domestic (Sys.domestic_pipe2 a)
  | fcntl => exact obeys_unmounted (Sys.unmounted_fcntl a)
  | ioctl => exact obeys_unmounted (Sys.unmounted_ioctl a)
  | getdents64 => exact obeys_domestic (Sys.domestic_getdents64 a)
  | getcwd => exact obeys_domestic (Sys.domestic_getcwd a)
  | chdir => exact Sys.obeys_chdir a
  | fchdir => exact obeys_domestic (Sys.domestic_fchdir a)
  | statx => exact Sys.obeys_statx a
  | faccessat | faccessat2 => exact Sys.obeys_faccessat a
  | readlinkat => exact Sys.obeys_readlinkat a
  | mkdirat => exact Sys.obeys_mkdirat a
  | unlinkat => exact Sys.obeys_unlinkat a
  | renameat | renameat2 => exact Sys.obeys_renameat a
  | symlinkat => exact Sys.obeys_symlinkat a
  | fchmodat => exact Sys.obeys_fchmodat a
  | utimensatTime64 => exact Sys.obeys_utimensat a
  | statfs | fstatfs => exact obeys_domestic (Sys.domestic_statfs a)
  | ppollTime64 => exact obeys_domestic (Sys.domestic_ppoll a)
  | pselect6Time64 => exact obeys_domestic (Sys.domestic_pselect a)
  | _ => trivial

end
end Wasmux
