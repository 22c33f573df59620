import Wasmux.Moving

/-!
# What a call that fails leaves behind

A directory is a map in order of its names. An entry that is taken out of one
and put back makes it the same map again, wherever in the tree it is, so that a
call of a `MemVfs` that fails leaves all of it as it was.
-/

set_option autoImplicit false

namespace Wasmux
namespace MemNode

/-- The entries of a map: in order, and so with no name twice. -/
def Sorted (entries : List (Text × MemNode)) : Prop := entries.Pairwise fun a b => a.1 < b.1

/-- Every directory of the tree is a map. -/
def Ordered (node : MemNode) : Prop := ∀ path entries, node.find path = some (.dir entries) → Sorted entries

theorem ordered_dir {entries : List (Text × MemNode)} :
    (dir entries).Ordered ↔ Sorted entries ∧ ∀ name child, entries.lookup name = some child →
    child.Ordered := by
  constructor
  · intro h
    refine ⟨h [] entries (by rw [find]), fun name child hlookup path inner hfind => h (name :: path) inner ?_⟩
    simpa only [find, hlookup] using hfind
  · rintro ⟨hsorted, hchildren⟩ path inner hfind
    cases path with
    | nil =>
      rw [find] at hfind
      cases hfind
      exact hsorted
    | cons name path =>
      rw [find] at hfind
      cases hlookup : entries.lookup name with
      | none => rw [hlookup] at hfind; cases hfind
      | some child =>
        rw [hlookup] at hfind
        exact hchildren name child hlookup path inner hfind

theorem ordered_file (data : ℕ) : (file data).Ordered := by
  intro path entries hfind
  cases path <;> simp [find] at hfind

theorem ordered_link (target : Text) : (link target).Ordered := by
  intro path entries hfind
  cases path <;> simp [find] at hfind

theorem ordered_empty : (dir []).Ordered := ordered_dir.mpr ⟨List.Pairwise.nil, fun _ _ h => by cases h⟩

section
variable {name : Text} {node : MemNode} {entries : List (Text × MemNode)}

theorem mem_insertEntry {entry : Text × MemNode} (h : entry ∈ insertEntry name node entries) :
    entry = (name, node) ∨ entry ∈ entries := by
  induction entries with
  | nil => exact .inl (List.mem_singleton.mp h)
  | cons first rest ih =>
    obtain ⟨key, old⟩ := first
    rw [insertEntry] at h
    split at h
    · exact (List.mem_cons.mp h).imp_right (List.mem_cons_of_mem _)
    split at h
    · exact List.mem_cons.mp h
    · rcases List.mem_cons.mp h with rfl | h
      · exact .inr List.mem_cons_self
      · exact (ih h).imp_right (List.mem_cons_of_mem _)

theorem sorted_insertEntry (h : Sorted entries) : Sorted (insertEntry name node entries) := by
  induction entries with
  | nil => exact List.pairwise_singleton _ _
  | cons first rest ih =>
    obtain ⟨key, old⟩ := first
    obtain ⟨hfirst, hrest⟩ := List.pairwise_cons.mp h
    rw [insertEntry]
    split
    · rename_i hkey
      exact List.pairwise_cons.mpr ⟨fun entry he => hkey ▸ hfirst entry he, hrest⟩
    split
    · rename_i hlt
      refine List.pairwise_cons.mpr ⟨fun entry he => ?_, h⟩
      rcases List.mem_cons.mp he with rfl | he
      · exact hlt
      · exact List.lt_trans hlt (hfirst entry he)
    · rename_i hne hnot
      have hlt : key < name := Std.lt_of_le_of_ne (List.not_lt.mp hnot) hne
      refine List.pairwise_cons.mpr ⟨fun entry he => ?_, ih hrest⟩
      rcases mem_insertEntry he with rfl | he
      · exact hlt
      · exact hfirst entry he

theorem sorted_filter (keep : Text × MemNode → Bool) (h : Sorted entries) : Sorted (entries.filter keep) :=
  h.sublist List.filter_sublist

theorem insertEntry_insertEntry (first : MemNode) :
    insertEntry name node (insertEntry name first entries) = insertEntry name node entries := by
  induction entries with
  | nil => simp [insertEntry]
  | cons entry rest ih =>
    obtain ⟨key, old⟩ := entry
    by_cases hkey : key = name
    · simp [insertEntry, hkey]
    · by_cases hlt : name < key
      · simp [insertEntry, hkey, hlt]
      · simp [insertEntry, hkey, hlt, ih]

theorem key_mem_of_lookup (h : entries.lookup name = some node) : (name, node) ∈ entries := by
  induction entries with
  | nil => cases h
  | cons entry rest ih =>
    obtain ⟨key, old⟩ := entry
    rw [lookup_entry] at h
    split at h
    · rename_i hkey
      rw [hkey, Option.some.inj h]
      exact List.mem_cons_self
    · exact List.mem_cons_of_mem _ (ih h)

theorem insertEntry_first (h : ∀ entry ∈ entries, name < entry.1) :
    insertEntry name node entries = (name, node) :: entries := by
  cases entries with
  | nil => rfl
  | cons entry rest =>
    obtain ⟨key, old⟩ := entry
    have hlt : name < key := h (key, old) List.mem_cons_self
    have hne : key ≠ name := fun heq => List.lt_irrefl name (heq ▸ hlt)
    rw [insertEntry, if_neg hne, if_pos hlt]

/-- An entry that is taken out and put back is where it was. -/
theorem insertEntry_filter (hsorted : Sorted entries) (h : entries.lookup name = some node) :
    insertEntry name node (entries.filter fun e => e.1 != name) = entries := by
  induction entries with
  | nil => cases h
  | cons entry rest ih =>
    obtain ⟨key, old⟩ := entry
    obtain ⟨hfirst, hrest⟩ := List.pairwise_cons.mp hsorted
    rw [lookup_entry] at h
    split at h
    · rename_i hkey
      subst hkey
      obtain rfl := Option.some.inj h
      have hkept : rest.filter (fun e => e.1 != name) = rest := by
        apply List.filter_eq_self.mpr
        intro e he
        exact bne_iff_ne.mpr fun heq => List.lt_irrefl name (heq ▸ hfirst e he)
      rw [List.filter_cons_of_neg (by simp), hkept]
      exact insertEntry_first hfirst
    · rename_i hne
      have hlt : key < name := hfirst _ (key_mem_of_lookup h)
      rw [List.filter_cons_of_pos (by simpa using Ne.symm hne), insertEntry, if_neg (Ne.symm hne),
        if_neg (List.lt_asymm hlt), ih hrest h]

theorem insertEntry_self (hsorted : Sorted entries) (h : entries.lookup name = some node) :
    insertEntry name node entries = entries := by
  have hback := insertEntry_filter hsorted h
  rw [← hback, insertEntry_insertEntry]

end

section
variable {α : Type} {f : List (Text × MemNode) → Except Errno (α × List (Text × MemNode))}

/-- What makes maps of maps keeps the tree one of maps. -/
theorem ordered_dirMut {path : List Text} {node new : MemNode} {a : α}
    (hf : ∀ entries changed a, (dir entries).Ordered → f entries = .ok (a, changed) → (dir changed).Ordered)
    (hnode : node.Ordered) (h : node.dirMut f path = .ok (a, new)) : new.Ordered := by
  induction path generalizing node new with
  | nil =>
    cases node with
    | dir entries =>
      rw [dirMut] at h
      cases hentries : f entries with
      | error e => rw [hentries] at h; cases h
      | ok r =>
        rw [hentries] at h
        cases h
        exact hf entries r.2 r.1 hnode hentries
    | file data => cases h
    | link target => cases h
  | cons name path ih =>
    cases node with
    | dir entries =>
      rw [dirMut] at h
      cases hlookup : entries.lookup name with
      | none => rw [hlookup] at h; cases h
      | some child =>
        rw [hlookup] at h
        cases hchild : child.dirMut f path with
        | error e => simp only [hchild] at h; cases h
        | ok r =>
          simp only [hchild] at h
          cases h
          obtain ⟨hsorted, hchildren⟩ := ordered_dir.mp hnode
          refine ordered_dir.mpr ⟨sorted_insertEntry hsorted, fun n inner hinner => ?_⟩
          rw [lookup_insertEntry] at hinner
          split at hinner
          · rw [← Option.some.inj hinner]
            exact ih (hchildren name child hlookup) hchild
          · exact hchildren n inner hinner
    | file data => cases h
    | link target => cases h

end

theorem ordered_insertEntry (name : Text) {node : MemNode} {entries : List (Text × MemNode)}
    (hnode : node.Ordered) (h : (dir entries).Ordered) : (dir (insertEntry name node entries)).Ordered := by
  obtain ⟨hsorted, hchildren⟩ := ordered_dir.mp h
  refine ordered_dir.mpr ⟨sorted_insertEntry hsorted, fun n inner hinner => ?_⟩
  rw [lookup_insertEntry] at hinner
  split at hinner
  · rw [← Option.some.inj hinner]
    exact hnode
  · exact hchildren n inner hinner

theorem ordered_filter {name : Text} {entries : List (Text × MemNode)} (h : (dir entries).Ordered) :
    (dir (entries.filter fun e => e.1 != name)).Ordered := by
  obtain ⟨hsorted, hchildren⟩ := ordered_dir.mp h
  refine ordered_dir.mpr ⟨sorted_filter _ hsorted, fun n inner hinner => ?_⟩
  rw [lookup_filter] at hinner
  split at hinner
  · cases hinner
  · exact hchildren n inner hinner

end MemNode

namespace MemWorld
open MemNode

theorem ordered_detach {name : Text} {entries changed : List (Text × MemNode)} {node : MemNode}
    (h : (dir entries).Ordered) (hdetach : detach name entries = .ok (node, changed)) :
    (dir changed).Ordered ∧ node.Ordered := by
  have hlookup := (detach_ok hdetach).1
  rw [detach, hlookup] at hdetach
  cases hdetach
  exact ⟨ordered_filter h, (ordered_dir.mp h).2 name node hlookup⟩

theorem ordered_detached {name : Text} {path : List Text} {root without node : MemNode} (hroot : root.Ordered)
    (h : root.dirMut (detach name) path = .ok (node, without)) : without.Ordered ∧ node.Ordered := by
  refine ⟨ordered_dirMut (fun _ _ _ hentries hd => (ordered_detach hentries hd).1) hroot h, ?_⟩
  obtain ⟨entries, changed, hfind, hdetach, -⟩ := dirMut_ok h
  have hentries : (dir entries).Ordered := fun rest inner hinner => hroot (path ++ rest) inner (by
    rw [find_append, hfind]
    exact hinner)
  exact (ordered_detach hentries hdetach).2

/-- What was taken out of a directory can be put back there, and that makes the
tree the same again. -/
theorem attach_detached {name : Text} {path : List Text} {root without node : MemNode} (hroot : root.Ordered)
    (h : root.dirMut (detach name) path = .ok (node, without)) :
    without.dirMut (attach name node) path = .ok ((), root) := by
  induction path generalizing root without with
  | nil =>
    cases root with
    | dir entries =>
      rw [dirMut] at h
      cases hentries : detach name entries with
      | error e => rw [hentries] at h; cases h
      | ok r =>
        obtain ⟨taken, changed⟩ := r
        rw [hentries] at h
        cases h
        have hlookup := (detach_ok hentries).1
        rw [detach, hlookup] at hentries
        cases hentries
        simp only [dirMut, attach, insertEntry_filter (ordered_dir.mp hroot).1 hlookup]
        rfl
    | file data => cases h
    | link target => cases h
  | cons first path ih =>
    cases root with
    | dir entries =>
      rw [dirMut] at h
      cases hlookup : entries.lookup first with
      | none => rw [hlookup] at h; cases h
      | some child =>
        rw [hlookup] at h
        cases hchild : child.dirMut (detach name) path with
        | error e => simp only [hchild] at h; cases h
        | ok r =>
          obtain ⟨taken, less⟩ := r
          simp only [hchild] at h
          cases h
          obtain ⟨hsorted, hchildren⟩ := ordered_dir.mp hroot
          have hback := ih (hchildren first child hlookup) hchild
          have hless : (insertEntry first less entries).lookup first = some less := by
            rw [lookup_insertEntry, if_pos rfl]
          simp only [dirMut, hless, hback, Except.map, insertEntry_insertEntry,
            insertEntry_self hsorted hlookup]
    | file data => cases h
    | link target => cases h

variable {p : Width} {fs after : MemWorld p} {vfs : ℕ} {e : Errno}

theorem setRoot_self : fs.setRoot vfs (fs.roots vfs) = fs := by
  have hroots : (fun v => if v = vfs then fs.roots vfs else fs.roots v) = fs.roots := by
    funext v
    split
    · rename_i hv
      rw [hv]
    · rfl
  rw [setRoot, hroots]

theorem inDir_failed {parent : Text} {f : List (Text × MemNode) → Except Errno (List (Text × MemNode))}
    (h : fs.inDir vfs parent f = (.error e, after)) : after = fs := by
  unfold inDir at h
  split at h <;> cases h
  rfl

theorem rename_eq (source target : Text) : fs.rename vfs source target =
    if (splitParent source).2 = [] ∨ (splitParent target).2 = [] then (.error .inval, fs)
    else fs.renameIn vfs (parts (splitParent source).1) (splitParent source).2 (parts (splitParent target).1)
      (splitParent target).2 := rfl

theorem rename_failed {source target : Text} (hroot : (fs.roots vfs).Ordered)
    (h : fs.rename vfs source target = (.error e, after)) : after = fs := by
  rw [rename_eq] at h
  split at h
  · cases h
    rfl
  unfold renameIn at h
  split at h
  · cases h
    rfl
  rename_i node without hdetached
  split at h
  · cases h
  -- The destination is no directory once the source is gone, or never was one.
  rw [attach_detached hroot hdetached] at h
  cases h
  exact setRoot_self

theorem openFile_failed {path : Text} {opts : OpenOptions}
    (h : fs.openFile vfs path opts = (.error e, after)) :
    after = fs := by
  unfold openFile at h
  dsimp only at h
  split at h
  · cases h
    rfl
  split at h
  · -- A file that is there is truncated only where nothing can fail any more.
    split at h
    · cases h
      rfl
    · split at h <;> cases h
  · cases h
    rfl
  · cases h
    rfl
  · split at h
    · cases h
      rfl
    · split at h
      · rename_i hdir
        cases h
        exact inDir_failed hdir
      · cases h

theorem openFile_opened {path : Text} {opts : OpenOptions} {handle : Handle}
    (h : fs.openFile vfs path opts = (.ok handle, after)) :
    ∃ f, after.files[handle]? = some f ∧ f.writable = (opts.write || opts.append) := by
  have opened : ∀ (world : MemWorld p) data, world.openData data opts = (.ok handle, after) →
      ∃ f, after.files[handle]? = some f ∧ f.writable = (opts.write || opts.append) := by
    intro world data hopen
    cases hopen
    exact ⟨_, List.getElem?_concat_length .., rfl⟩
  unfold openFile at h
  dsimp only at h
  split at h
  · cases h
  split at h
  · split at h
    · cases h
    · split at h <;> exact opened _ _ h
  · cases h
  · cases h
  · split at h
    · cases h
    · split at h
      · cases h
      · exact opened _ _ h

theorem truncate_failed {path : Text} {len : ℕ} (h : fs.truncate vfs path len = some (.error e, after)) :
    after = fs := by
  unfold truncate at h
  split at h
  · rename_i hopen
    cases h
    exact openFile_failed hopen
  · rename_i handle opened hopen
    obtain ⟨f, hf, hwritable⟩ := openFile_opened hopen
    have hset : opened.file handle (.setLen len) = opened.setLen f len := by simp only [file, hf]
    rw [hset] at h
    rcases opened.setLen_taken hwritable len with hpanics | ⟨longer, hset⟩
    · rw [hpanics] at h
      cases h
    · rw [hset] at h
      cases h

/-- Every tree is one of maps. -/
def Ordered (fs : MemWorld p) : Prop := ∀ vfs, (fs.roots vfs).Ordered

theorem ordered_setRoot {node : MemNode} (h : fs.Ordered) (hnode : node.Ordered) :
    (fs.setRoot vfs node).Ordered := by
  intro v
  unfold setRoot
  dsimp only
  split
  · exact hnode
  · exact h v

theorem ordered_inDir {parent : Text} {f : List (Text × MemNode) → Except Errno (List (Text × MemNode))}
    (h : fs.Ordered) (hf : ∀ entries changed, (dir entries).Ordered → f entries = .ok changed →
      (dir changed).Ordered) :
    (fs.inDir vfs parent f).2.Ordered := by
  unfold inDir
  split
  · rename_i u node hdir
    refine ordered_setRoot h (ordered_dirMut (fun entries changed _ hentries hmap => ?_) (h vfs) hdir)
    cases hchanged : f entries with
    | error e => rw [hchanged] at hmap; cases hmap
    | ok r =>
      rw [hchanged] at hmap
      cases hmap
      exact hf entries _ hentries hchanged
  · exact h

theorem ordered_enter (vfs : ℕ) (parent name : Text) {node : MemNode} (h : fs.Ordered)
    (hnode : node.Ordered) :
    (fs.inDir vfs parent fun entries => .ok (insertEntry name node entries)).2.Ordered :=
  ordered_inDir h fun entries changed hentries hok => by
    cases hok
    exact ordered_insertEntry _ hnode hentries

theorem ordered_renameIn {parent into : List Text} {name final : Text} (h : fs.Ordered) :
    (fs.renameIn vfs parent name into final).2.Ordered := by
  unfold renameIn
  split
  · exact h
  rename_i node without hdetached
  obtain ⟨hwithout, hnode⟩ := ordered_detached (h vfs) hdetached
  have hattach : ∀ name entries changed (a : Unit), (dir entries).Ordered →
    attach name node entries = .ok (a, changed) →
      (dir changed).Ordered := by
    intro name entries changed a hentries hok
    cases hok
    exact ordered_insertEntry _ hnode hentries
  split
  · rename_i hmoved
    exact ordered_setRoot h (ordered_dirMut (hattach final) hwithout hmoved)
  · rw [attach_detached (h vfs) hdetached]
    exact ordered_setRoot h (h vfs)

theorem ordered_openFile (vfs : ℕ) (path : Text) (opts : OpenOptions) (h : fs.Ordered) :
    (fs.openFile vfs path opts).2.Ordered := by
  unfold openFile
  dsimp only
  split
  · exact h
  split
  · split
    · exact h
    · split <;> exact h
  · exact h
  · exact h
  · rename_i data _
    split
    · exact h
    · have hentered := ordered_enter vfs (splitParent path).1 (splitParent path).2 h
        (ordered_file fs.buffers.length)
      split
      · rename_i hdir
        rw [hdir] at hentered
        exact hentered
      · rename_i hdir
        rw [hdir] at hentered
        exact hentered

theorem ordered_create {path name parent : Text} {node : MemNode} (h : fs.Ordered) (hnode : node.Ordered) :
    (if name = [] then (.error .exist, fs)
      else if ((fs.roots vfs).find (parts path)).isSome then (.error .exist, fs)
      else fs.inDir vfs parent fun entries => .ok (insertEntry name node entries)).2.Ordered := by
  split
  · exact h
  split
  · exact h
  · exact ordered_enter vfs parent name h hnode

theorem ordered_unlink (vfs : ℕ) (path : Text) (h : fs.Ordered) : (fs.unlink vfs path).2.Ordered := by
  apply ordered_inDir h
  intro entries changed hentries hok
  split at hok
  · cases hok
  · cases hok
    exact ordered_filter hentries
  · cases hok

theorem ordered_rmdir (vfs : ℕ) (path : Text) (h : fs.Ordered) : (fs.rmdir vfs path).2.Ordered := by
  apply ordered_inDir h
  intro entries changed hentries hok
  split at hok
  · cases hok
    exact ordered_filter hentries
  · cases hok
  · cases hok
  · cases hok

theorem roots_setLen {f : MemFile} {len : ℕ} {r : Except Errno Unit} (h : fs.setLen f len = some (r, after)) :
    after.roots = fs.roots := by
  unfold setLen at h
  split at h
  · cases h
    rfl
  · split at h <;> cases h
    rfl

theorem ordered_truncate {path : Text} {len : ℕ} {r : Except Errno Unit} (h : fs.Ordered)
    (htruncate : fs.truncate vfs path len = some (r, after)) : after.Ordered := by
  have hopened := ordered_openFile vfs path ⟨false, true, false, false, false, false, 0o644⟩ h
  unfold truncate at htruncate
  split at htruncate
  · rename_i hopen
    cases htruncate
    rw [hopen] at hopened
    exact hopened
  · rename_i handle opened hopen
    rw [hopen] at hopened
    obtain ⟨f, hf, -⟩ := openFile_opened hopen
    have hset : opened.file handle (.setLen len) = opened.setLen f len := by simp only [file, hf]
    rw [hset] at htruncate
    obtain ⟨set, hlen, heq⟩ := Option.map_eq_some_iff.mp htruncate
    obtain rfl := (Prod.mk.inj heq).2
    intro v
    have hroots := congrFun (roots_setLen hlen) v
    exact hroots ▸ hopened v

/-- No call makes a directory anything but a map. -/
theorem ordered_call {call : VfsCall} {r : Except Errno call.Ans} (h : fs.Ordered)
    (hcall : fs.call vfs call = some (r, after)) : after.Ordered := by
  cases call with
  | openFile path opts =>
    have hopen := ordered_openFile vfs path opts h
    rw [Option.some.inj hcall] at hopen
    exact hopen
  | rename source target =>
    have hrename : (fs.rename vfs source target).2.Ordered := by
      rw [rename_eq]
      split
      · exact h
      · exact ordered_renameIn h
    rw [Option.some.inj hcall] at hrename
    exact hrename
  | mkdir path mode =>
    have hmade : (fs.mkdir vfs path).2.Ordered := ordered_create h ordered_empty
    rw [Option.some.inj hcall] at hmade
    exact hmade
  | symlink target link =>
    have hmade : (fs.symlink vfs target link).2.Ordered := ordered_create h (ordered_link target)
    rw [Option.some.inj hcall] at hmade
    exact hmade
  | unlink path =>
    have hgone := ordered_unlink vfs path h
    rw [Option.some.inj hcall] at hgone
    exact hgone
  | rmdir path =>
    have hgone := ordered_rmdir vfs path h
    rw [Option.some.inj hcall] at hgone
    exact hgone
  | truncate path len => exact ordered_truncate h hcall
  | stat path follow | readdir path | readlink path | setMode path mode =>
      exact (Prod.mk.inj (Option.some.inj hcall)).2 ▸ h

/-- A call of a `MemVfs` that fails leaves every tree, every buffer and every
open file as it was, whatever it was asked. -/
theorem failed_call_unchanged (fs : MemWorld p) (vfs : ℕ) (call : VfsCall) {e : Errno} {after : MemWorld p}
    (hroot : (fs.roots vfs).Ordered) (h : fs.call vfs call = some (.error e, after)) : after = fs := by
  cases call with
  | openFile path opts => exact openFile_failed (Option.some.inj h)
  | rename source target => exact rename_failed hroot (Option.some.inj h)
  | mkdir path mode =>
    have hcall : fs.mkdir vfs path = (.error e, after) := Option.some.inj h
    unfold mkdir at hcall
    dsimp only at hcall
    split at hcall
    · cases hcall
      rfl
    split at hcall
    · cases hcall
      rfl
    · exact inDir_failed hcall
  | symlink target link =>
    have hcall : fs.symlink vfs target link = (.error e, after) := Option.some.inj h
    unfold symlink at hcall
    dsimp only at hcall
    split at hcall
    · cases hcall
      rfl
    split at hcall
    · cases hcall
      rfl
    · exact inDir_failed hcall
  | unlink path => exact inDir_failed (Option.some.inj h)
  | rmdir path => exact inDir_failed (Option.some.inj h)
  | truncate path len => exact truncate_failed h
  | stat path follow | readdir path | readlink path | setMode path mode =>
    exact (Prod.mk.inj (Option.some.inj h)).2.symm

/-- A directory that is to be moved into itself is put back where it was. -/
theorem failed_call_unchanged_inside : ∃ after,
    occupied.call 0 (.rename (join [ascii "d"]) (join [ascii "d", ascii "e"])) = some (.error .noent, after) ∧
    after = occupied := by
  have hordered : (occupied.roots 0).Ordered := ordered_insertEntry (ascii "d")
    (ordered_insertEntry (ascii "x") (ordered_file 0) ordered_empty)
    (ordered_insertEntry (ascii "f") (ordered_file 1) ordered_empty)
  have hcall : occupied.call 0 (.rename (join [ascii "d"]) (join [ascii "d", ascii "e"])) =
    some (.error .noent, _) := rfl
  exact ⟨_, hcall, failed_call_unchanged occupied 0 _ hordered hcall⟩

end MemWorld
end Wasmux
