import Wasmux.Histories
import Wasmux.Restoring

/-!
# A filesystem as a map from paths

What a `MemVfs` answers, and what it becomes, can be told from what each path of
it shows: a call looks up a path or two, and what it changes is a branch that is
put in at a path, taken out there, or moved to another.
-/

set_option autoImplicit false

namespace Wasmux
open Abi

/-! ## The path of an entry -/

/-- The path of the entry that a call changes: its directory, and its name there. -/
def place (path : Text) : List Text := parts (splitParent path).1 ++ [(splitParent path).2]

theorem parts_append_cons (before rest : Text) :
    parts (before ++ slash :: rest) = parts before ++ parts rest := by
  rw [parts, List.splitOn_append_cons_self, List.filter_append]
  rfl

theorem parts_name {name : Text} (h : slash ∉ name) (hname : name ≠ []) : parts name = [name] := by
  have hsplit := splitOn_append_of_notMem h []
  rw [List.append_nil] at hsplit
  simp [parts, hsplit, hname]

/-- What `splitParent` makes of a path, with what comes up to its last slash and after it. -/
theorem splitParent_take (path : Text) : ∃ before name, path = before ++ name ∧ slash ∉ name ∧
    (∀ b init, before.reverse = b :: init → b = slash) ∧
    splitParent path = (if before.length ≤ 1 then root else before.dropLast, name) := by
  have hpath : path = (path.reverse.dropWhile fun b => b != slash).reverse ++
      (path.reverse.takeWhile fun b => b != slash).reverse := by
    rw [← List.reverse_append, List.takeWhile_append_dropWhile, List.reverse_reverse]
  refine ⟨_, _, hpath, fun hmem => ?_, fun b init hdrop => ?_, ?_⟩
  · have hplain := List.all_eq_true.mp List.all_takeWhile slash (List.mem_reverse.mp hmem)
    simp at hplain
  · rw [List.reverse_reverse] at hdrop
    have hhead := List.head_dropWhile_not (fun b => b != slash) (l := path.reverse) (by simp [hdrop])
    simpa [hdrop] using hhead
  · have hlen := congrArg List.length hpath
    rw [List.length_append] at hlen
    have htake : path.take (path.length - (path.reverse.takeWhile fun b => b != slash).reverse.length) =
        (path.reverse.dropWhile fun b => b != slash).reverse :=
      (congrArg (path.take ·) (by omega)).trans ((congrArg (List.take _) hpath).trans List.take_left)
    unfold splitParent
    simp only [htake]

theorem splitParent_eq (path : Text) : ∃ name, slash ∉ name ∧
    (path = name ∧ splitParent path = (root, name) ∨
      ∃ before, path = before ++ slash :: name ∧
      splitParent path = (if before = [] then root else before, name)) := by
  obtain ⟨before, name, hpath, hname, hslash, hsplit⟩ := splitParent_take path
  refine ⟨name, hname, ?_⟩
  rcases before.eq_nil_or_concat' with rfl | ⟨init, b, rfl⟩
  · exact .inl ⟨hpath, hsplit⟩
  · obtain rfl : b = slash := hslash b init.reverse (by simp)
    refine .inr ⟨init, by simpa using hpath, ?_⟩
    rw [hsplit]
    simp

theorem parts_of_named {path : Text} (h : (splitParent path).2 ≠ []) : parts path = place path := by
  obtain ⟨name, hslash, ⟨hpath, hsplit⟩ | ⟨before, hpath, hsplit⟩⟩ := splitParent_eq path
  · rw [hsplit] at h
    rw [place, hsplit, ← parts_name hslash h, hpath]
    rfl
  · rw [hsplit] at h
    have hbefore : parts (if before = [] then root else before) = parts before := by
      split
      · subst_vars
        rfl
      · rfl
    rw [place, hsplit, hbefore, ← parts_name hslash h, ← parts_append_cons, hpath]

/-! ## The map -/

/-- What each path of a filesystem shows. -/
abbrev Chart := List Text → Option Label

def Label.fileType : Label → FileType
  | .dir => .dir
  | .file _ => .file
  | .link _ => .symlink

def Label.stat (len : ℕ → ℕ) : Label → Stat
  | .dir => .dir
  | .file data => .file (len data)
  | .link target => .symlink target.length

namespace Chart

def room (t : Chart) (path : List Text) : Except Errno Unit :=
  match t path with
  | some .dir => .ok ()
  | some _ => .error .notdir
  | none => .error .noent

def leaf (label : Label) : Chart := fun path => if path = [] then some label else none

def Bare (t : Chart) (path : List Text) : Prop := ∀ name, t (path ++ [name]) = none

def enter (t : Chart) (path : Text) (label : Label) : Except Errno Chart :=
  (t.room (parts (splitParent path).1)).map fun _ => graft t (place path) (leaf label)

def create (t : Chart) (path : Text) (label : Label) : Except Errno Chart :=
  if (splitParent path).2 = [] ∨ t (parts path) ≠ none then .error .exist else t.enter path label

/-- What is left without a branch, if there is one and it may go. -/
def taken (t : Chart) (path : List Text) (refusal : Label → Option Errno) : Option Label → Except Errno Chart
  | none => .error .noent
  | some label => match refusal label with
    | some e => .error e
    | none => .ok (graft t path fun _ => none)

def remove (t : Chart) (path : Text) (refusal : Label → Option Errno) : Except Errno Chart :=
  (t.room (parts (splitParent path).1)).bind fun _ => t.taken (place path) refusal (t (place path))

/-- A file is opened, and made as the file of number `made` where there is none. -/
def opens (t : Chart) (made : ℕ) (path : Text) (opts : OpenOptions) : Except Errno Chart :=
  if (splitParent path).2 = [] then .error .isdir
  else match t (parts path) with
    | some (.file _) => if opts.createNew then .error .exist else .ok t
    | some .dir => .error .isdir
    | some (.link _) => .error .loop
    | none => if !opts.create && !opts.createNew then .error .noent else t.enter path (.file made)

/-- What is at one path is moved to another. -/
def move (t : Chart) (source target : Text) : Except Errno Chart :=
  if (splitParent source).2 = [] ∨ (splitParent target).2 = [] then .error .inval
  else (t.room (parts (splitParent source).1)).bind fun _ =>
    if t (place source) = none then .error .noent
    else (room (graft t (place source) fun _ => none) (parts (splitParent target).1)).map fun _ =>
      relocate t (place source) (place target)

/-- What a path shows, with the link at its end followed once. -/
def seen (t : Chart) (path : Text) (follow : Bool) : Option Label :=
  match t (parts path), follow with
  | some (.link target), true => t (parts (MemWorld.linkTarget path target))
  | label, _ => label

/-- What a map becomes by a call, or why it is refused. -/
noncomputable def perform (t : Chart) (made : ℕ) : VfsCall → Except Errno Chart
  | .openFile path opts => t.opens made path opts
  | .mkdir path _ => t.create path .dir
  | .symlink target link => t.create link (.link target)
  | .unlink path => t.remove path fun label => if label = .dir then some .isdir else none
  | .rmdir path => t.remove path fun label =>
      open Classical in if label ≠ .dir then some .notdir else if t.Bare
        (place path) then none else some .notempty
  | .rename source target => t.move source target
  | .truncate path _ => t.opens made path ⟨false, true, false, false, false, false, 0o644⟩
  | .stat path follow => if t.seen path follow = none then .error .noent else .ok t
  | .readdir path => (t.room (parts path)).map fun _ => t
  | .readlink path => match t (parts path) with
    | some (.link _) => .ok t
    | some _ => .error .inval
    | none => .error .noent
  | .setMode _ _ => .ok t

/-- The paths whose branches a call may change. -/
def places : VfsCall → List (List Text)
  | .openFile path _ | .mkdir path _ | .unlink path | .rmdir path | .symlink _ path => [place path]
  | .rename source target => [place source, place target]
  | _ => []

section
variable {t t' : Chart} {path : Text} {q : List Text} {made : ℕ}

theorem enter_elsewhere {label : Label} (h : t.enter path label = .ok t') (hq : ¬ place path <+: q) :
    t' q = t q := by
  unfold enter at h
  cases hroom : t.room (parts (splitParent path).1) with
  | error e =>
    rw [hroom] at h
    cases h
  | ok u =>
    rw [hroom] at h
    cases h
    exact graft_outside hq

theorem create_elsewhere {label : Label} (h : t.create path label = .ok t') (hq : ¬ place path <+: q) :
    t' q = t q := by
  unfold create at h
  split at h
  · cases h
  · exact enter_elsewhere h hq

theorem remove_elsewhere {refusal : Label → Option Errno} (h : t.remove path refusal = .ok t')
    (hq : ¬ place path <+: q) :
    t' q = t q := by
  unfold remove at h
  cases hroom : t.room (parts (splitParent path).1) with
  | error e =>
    rw [hroom] at h
    cases h
  | ok u =>
    have htaken : t.taken (place path) refusal (t (place path)) = .ok t' := by rwa [hroom] at h
    unfold taken at htaken
    split at htaken
    · cases htaken
    · split at htaken
      · cases htaken
      · cases htaken
        exact graft_outside hq

theorem opens_elsewhere {opts : OpenOptions} (h : t.opens made path opts = .ok t')
    (hq : ¬ place path <+: q) : t' q = t q := by
  unfold opens at h
  split at h
  · cases h
  split at h
  · split at h
    · cases h
    · cases h
      rfl
  · cases h
  · cases h
  · split at h
    · cases h
    · exact enter_elsewhere h hq

theorem move_elsewhere {source target : Text} (h : t.move source target = .ok t') (hs : ¬ place source <+: q)
    (ht : ¬ place target <+: q) : t' q = t q := by
  unfold move at h
  split at h
  · cases h
  cases hroom : t.room (parts (splitParent source).1) with
  | error e =>
    rw [hroom] at h
    cases h
  | ok u =>
    simp only [hroom, Except.bind] at h
    split at h
    · cases h
    · cases hinto : room (graft t (place source) fun _ => none) (parts (splitParent target).1) with
      | error e =>
        rw [hinto] at h
        cases h
      | ok u =>
        rw [hinto] at h
        cases h
        exact (graft_outside ht).trans (graft_outside hs)

end

/-- What is answered where a map was `t` and is `t'`, with the lengths of the
files and the files that handles are for. -/
def Answers (t t' : Chart) (len : ℕ → ℕ) (file : Handle → Option ℕ) : (call : VfsCall) → call.Ans → Prop
  | .openFile path _, handle => ∃ data, file handle = some data ∧ t' (parts path) = some (.file data)
  | .stat path follow, stat => ∃ label, t.seen path follow = some label ∧ stat = label.stat len
  | .readdir path, listing => (listing.Pairwise fun a b => a.name < b.name) ∧
      ∀ entry, entry ∈ listing ↔
        ∃ label, t (parts path ++ [entry.name]) = some label ∧ entry = ⟨entry.name, some label.fileType, 0⟩
  | .readlink path, target => t (parts path) = some (.link target)
  | _, _ => True

end Chart

/-! ## What a directory holds -/

namespace MemNode
variable {node : MemNode} {entries : List (Text × MemNode)}

/-- What is done in a directory, and what is said where there is none. -/
def within {α : Type} (f : List (Text × MemNode) → Except Errno α) : Option MemNode → Except Errno α
  | some (.dir entries) => f entries
  | some _ => .error .notdir
  | none => .error .noent

theorem within_cases (found : Option MemNode) : (∃ entries, found = some (.dir entries)) ∨
    ∃ e, ∀ {α : Type} (f : List (Text × MemNode) → Except Errno α), within f found = .error e := by
  rcases found with _ | entries | data | target
  · exact .inr ⟨.noent, fun _ => rfl⟩
  · exact .inl ⟨entries, rfl⟩
  · exact .inr ⟨.notdir, fun _ => rfl⟩
  · exact .inr ⟨.notdir, fun _ => rfl⟩

theorem room_tree (node : MemNode) (path : List Text) :
    Chart.room node.tree path = within (fun _ => .ok ()) (node.find path) := by
  unfold Chart.room tree
  rcases node.find path with _ | _ | _ | _ <;> rfl

/-- Whether a directory can be changed is decided there. -/
theorem dirMut_fst {α : Type} (f : List (Text × MemNode) → Except Errno (α × List (Text × MemNode)))
    (path : List Text) (node : MemNode) : (node.dirMut f path).map Prod.fst = within
    (fun entries => (f entries).map Prod.fst) (node.find path) := by
  induction path generalizing node with
  | nil =>
    cases node with
    | dir entries =>
      rw [dirMut, find]
      simp only [within]
      cases f entries <;> rfl
    | file data => rw [find]; rfl
    | link target => rw [find]; rfl
  | cons name path ih =>
    cases node with
    | dir entries =>
      rw [dirMut, find]
      cases hlookup : entries.lookup name with
      | none => rfl
      | some child =>
        refine Eq.trans ?_ (ih child)
        simp only
        cases child.dirMut f path <;> rfl
    | file data => rfl
    | link target => rfl

theorem tree_entry {path : List Text} (h : node.find path = some (.dir entries)) (name : Text) :
    node.tree (path ++ [name]) = (entries.lookup name).map label := by
  rw [tree_append h, tree_dir]
  cases entries.lookup name with
  | none => rfl
  | some child => exact tree_nil child

theorem find_entry {path : List Text} (h : node.find path = some (.dir entries)) (name : Text) :
    node.find (path ++ [name]) = entries.lookup name := by
  rw [find_append, h, Option.bind_some, find]
  cases entries.lookup name with
  | none => rfl
  | some child => simp only [find]

theorem bare_tree {path : List Text} (h : node.find path = some (.dir entries)) :
    Chart.Bare node.tree path ↔ entries = [] := by
  constructor
  · intro hbare
    cases entries with
    | nil => rfl
    | cons entry entries =>
      have hnone := hbare entry.1
      rw [tree_entry h, lookup_entry, if_pos rfl] at hnone
      cases hnone
  · rintro rfl name
    rw [tree_entry h]
    rfl

theorem tree_leaf (h : ∀ name rest, node.find (name :: rest) = none) : node.tree = Chart.leaf node.label := by
  funext path
  cases path with
  | nil => rw [tree_nil]; rfl
  | cons name rest => rw [tree, h]; rfl

theorem tree_dir_nil : (dir []).tree = Chart.leaf .dir := tree_leaf fun _ _ => rfl

theorem tree_file (data : ℕ) : (file data).tree = Chart.leaf (.file data) := tree_leaf fun _ _ => rfl

theorem tree_link (target : Text) : (link target).tree = Chart.leaf (.link target) := tree_leaf fun _ _ => rfl

theorem lookup_of_mem {name : Text} {child : MemNode} (hsorted : Sorted entries)
    (h : (name, child) ∈ entries) :
    entries.lookup name = some child := by
  induction entries with
  | nil => cases h
  | cons entry entries ih =>
    obtain ⟨first, old⟩ := entry
    obtain ⟨hfirst, hrest⟩ := List.pairwise_cons.mp hsorted
    rw [lookup_entry]
    rcases List.mem_cons.mp h with heq | hmem
    · cases heq
      rw [if_pos rfl]
    · have hne : name ≠ first := fun heq => List.lt_irrefl first (heq ▸ hfirst _ hmem)
      rw [if_neg hne]
      exact ih hrest hmem

end MemNode

/-! ## Calls that change a directory -/

namespace MemWorld
variable {p : Width} {fs after : MemWorld p} {vfs : ℕ}

/-- One of the trees becomes what is said and the others stay what they are, or
the refusal is as said and everything stays. -/
structure Becomes (fs : MemWorld p) (vfs : ℕ) {α : Type} (next : Except Errno Chart) (r : Except Errno α)
    (after : MemWorld p) :
    Prop where
  tree : next = r.map fun _ => (after.roots vfs).tree
  others : ∀ other ≠ vfs, after.roots other = fs.roots other
  refused : ∀ e, r = .error e → after = fs

theorem becomes_refused {α : Type} (e : Errno) : fs.Becomes vfs (.error e) (.error e : Except Errno α) fs :=
  ⟨rfl, fun _ _ => rfl, fun _ _ => rfl⟩

theorem becomes_same {α : Type} (a : α) (h : after.roots = fs.roots) :
    fs.Becomes vfs (.ok (fs.roots vfs).tree) (.ok a) after := by
  refine ⟨?_, fun other _ => congrFun h other, fun e he => by cases he⟩
  rw [h]
  rfl

theorem becomes_setRoot {α : Type} (a : α) {node : MemNode} {next : Chart} (h : node.tree = next) :
    fs.Becomes vfs (.ok next) (.ok a) (fs.setRoot vfs node) := by
  refine ⟨?_, fun other hother => if_neg hother, fun e he => by cases he⟩
  have hroot : (fs.setRoot vfs node).roots vfs = node := if_pos rfl
  rw [hroot, h]
  rfl

/-- An entry is put into a directory, or taken out of it, or it is not. -/
theorem becomes_inDir {path : Text} {f : List (Text × MemNode) → Except Errno (List (Text × MemNode))}
    (put : Option MemNode) (next : Option Label → Except Errno Chart)
    (hput : ∀ entries changed, f entries = .ok changed →
      ∀ n, changed.lookup n = if n = (splitParent path).2 then put else entries.lookup n)
    (hnext : ∀ entries, (fs.roots vfs).find (parts (splitParent path).1) = some (.dir entries) →
      next ((entries.lookup (splitParent path).2).map MemNode.label) = (f entries).map fun _ =>
        graft (fs.roots vfs).tree (place path) fun rest => put.bind fun inner => inner.tree rest) :
    fs.Becomes vfs ((Chart.room (fs.roots vfs).tree (parts (splitParent path).1)).bind fun _ => next
      ((fs.roots vfs).tree (place path)))
      (fs.inDir vfs (splitParent path).1 f).1 (fs.inDir vfs (splitParent path).1 f).2 := by
  have hfst := MemNode.dirMut_fst
    (fun entries => (f entries).map fun entries => ((), entries)) (parts (splitParent path).1)
    (fs.roots vfs)
  rw [MemNode.room_tree]
  unfold inDir
  cases hdir : (fs.roots vfs).dirMut
      (fun entries => (f entries).map fun entries => ((), entries)) (parts (splitParent path).1) with
  | error e =>
    rw [hdir] at hfst
    rcases MemNode.within_cases ((fs.roots vfs).find (parts (splitParent path).1)) with
      ⟨entries, hfind⟩ | ⟨e', hnone⟩
    · have hsays := hnext entries hfind
      rw [place, MemNode.tree_entry hfind]
      rw [hfind] at hfst
      cases hf : f entries with
      | ok changed =>
        simp only [MemNode.within, hf] at hfst
        cases hfst
      | error e' =>
        simp only [MemNode.within, hf] at hfst
        cases hfst
        rw [hf] at hsays
        rw [hfind]
        exact hsays ▸ becomes_refused e
    · rw [hnone] at hfst
      cases hfst
      rw [hnone]
      exact becomes_refused _
  | ok r =>
    obtain ⟨u, node⟩ := r
    obtain ⟨entries, changed, hfind, hf, -⟩ := MemNode.dirMut_ok hdir
    have hchanged : f entries = .ok changed := by
      cases hf' : f entries with
      | error e => rw [hf'] at hf; cases hf
      | ok _ => rw [hf'] at hf; cases hf; rfl
    have hsays := hnext entries hfind
    have htree : node.tree = graft (fs.roots vfs).tree (place path) fun rest => put.bind fun inner =>
        inner.tree rest := by
      refine MemNode.dirMut_entry put (fun entries changed a hmap => ?_) hdir
      cases hf' : f entries with
      | error e =>
        rw [hf'] at hmap
        cases hmap
      | ok _ =>
        rw [hf'] at hmap
        cases hmap
        exact hput entries _ hf'
    rw [hchanged] at hsays
    have hentry : (fs.roots vfs).tree (place path) =
        (entries.lookup (splitParent path).2).map MemNode.label :=
      MemNode.tree_entry hfind _
    rw [hfind, hentry]
    exact hsays ▸ becomes_setRoot () htree

theorem becomes_enter (fs : MemWorld p) (vfs : ℕ) (path : Text) {node : MemNode} {label : Label}
    (hnode : node.tree = Chart.leaf label) {f : List (Text × MemNode) → Except Errno (List (Text × MemNode))}
    (hf : f = fun entries => .ok (MemNode.insertEntry (splitParent path).2 node entries)) :
    fs.Becomes vfs (Chart.enter (fs.roots vfs).tree path label) (fs.inDir vfs (splitParent path).1 f).1
      (fs.inDir vfs (splitParent path).1 f).2 := by
  subst hf
  have henter : Chart.enter (fs.roots vfs).tree path label =
    (Chart.room (fs.roots vfs).tree (parts (splitParent path).1)).bind
      fun _ => .ok (graft (fs.roots vfs).tree (place path) (Chart.leaf label)) := by
    unfold Chart.enter
    cases Chart.room (fs.roots vfs).tree (parts (splitParent path).1) <;> rfl
  rw [henter]
  refine becomes_inDir (some node) (fun _ =>
    .ok (graft (fs.roots vfs).tree (place path) (Chart.leaf label))) ?_ ?_
  · intro entries changed hchanged
    cases hchanged
    exact MemNode.lookup_insertEntry _ _ _
  · intro entries _
    rw [← hnode]
    rfl

theorem becomes_create {path : Text} {node : MemNode} {label : Label} (hnode : node.tree = Chart.leaf label)
    {r : Except Errno Unit} (h : (if (splitParent path).2 = [] then (.error .exist, fs)
      else if ((fs.roots vfs).find (parts path)).isSome then (.error .exist, fs)
      else fs.inDir vfs (splitParent path).1 fun entries =>
        .ok (MemNode.insertEntry (splitParent path).2 node entries)) = (r, after)) :
    fs.Becomes vfs (Chart.create (fs.roots vfs).tree path label) r after := by
  unfold Chart.create
  split at h
  · rename_i hname
    cases h
    rw [if_pos (.inl hname)]
    exact becomes_refused _
  rename_i hname
  have hshown : (fs.roots vfs).tree (parts path) ≠ none ↔
      ((fs.roots vfs).find (parts path)).isSome = true := by
    simp [MemNode.tree, Option.isSome_iff_ne_none]
  split at h
  · rename_i hthere
    cases h
    rw [if_pos (.inr (hshown.mpr hthere))]
    exact becomes_refused _
  · rename_i hfree
    rw [if_neg fun hor => hor.elim hname fun hthere => hfree (hshown.mp hthere)]
    have hentered := becomes_enter fs vfs path hnode rfl
    rwa [h] at hentered

/-- What `unlink` does in the directory. -/
def unlinkEntry (name : Text) (entries : List (Text × MemNode)) : Except Errno (List (Text × MemNode)) :=
  match entries.lookup name with
  | some (.dir _) => .error .isdir
  | some _ => .ok (entries.filter fun e => e.1 != name)
  | none => .error .noent

/-- What `rmdir` does in the directory. -/
def rmdirEntry (name : Text) (entries : List (Text × MemNode)) : Except Errno (List (Text × MemNode)) :=
  match entries.lookup name with
  | some (.dir []) => .ok (entries.filter fun e => e.1 != name)
  | some (.dir _) => .error .notempty
  | some _ => .error .notdir
  | none => .error .noent

theorem becomes_unlink (fs : MemWorld p) (vfs : ℕ) (path : Text) :
    fs.Becomes vfs (Chart.remove (fs.roots vfs).tree path fun label => if label =
      .dir then some .isdir else none)
      (fs.unlink vfs path).1 (fs.unlink vfs path).2 := by
  have hunlink : fs.unlink vfs path = fs.inDir vfs (splitParent path).1
    (unlinkEntry (splitParent path).2) := rfl
  rw [hunlink]
  refine becomes_inDir none _ ?_ ?_
  · intro entries changed hchanged
    unfold unlinkEntry at hchanged
    split at hchanged <;> cases hchanged
    exact MemNode.lookup_filter _ _
  · intro entries _
    unfold unlinkEntry
    rcases entries.lookup (splitParent path).2 with _ | _ | _ | _ <;> rfl

theorem becomes_rmdir (fs : MemWorld p) (vfs : ℕ) (path : Text) :
    fs.Becomes vfs (Chart.remove (fs.roots vfs).tree path fun label => open Classical in
      if label ≠ .dir then some .notdir else if Chart.Bare (fs.roots vfs).tree
      (place path) then none else some .notempty)
      (fs.rmdir vfs path).1 (fs.rmdir vfs path).2 := by
  have hrmdir : fs.rmdir vfs path = fs.inDir vfs (splitParent path).1 (rmdirEntry (splitParent path).2) := rfl
  rw [hrmdir]
  refine becomes_inDir none _ ?_ ?_
  · intro entries changed hchanged
    unfold rmdirEntry at hchanged
    split at hchanged <;> cases hchanged
    exact MemNode.lookup_filter _ _
  · intro entries hparent
    unfold rmdirEntry
    rcases hlookup : entries.lookup (splitParent path).2 with _ | inner | _ | _
    · rfl
    · have hbare := MemNode.bare_tree ((MemNode.find_entry hparent (splitParent path).2).trans hlookup)
      cases inner with
      | nil => simp [Chart.taken, MemNode.label, place, hbare, Except.map]
      | cons entry inner => simp [Chart.taken, MemNode.label, place, hbare, Except.map]
    · rfl
    · rfl

theorem becomes_openFile (fs : MemWorld p) (vfs : ℕ) (path : Text) (opts : OpenOptions) :
    fs.Becomes vfs (Chart.opens (fs.roots vfs).tree fs.buffers.length path opts) (fs.openFile vfs path opts).1
      (fs.openFile vfs path opts).2 := by
  have henters := becomes_enter fs vfs path (MemNode.tree_file fs.buffers.length) rfl
  unfold openFile Chart.opens
  dsimp only
  split
  · exact becomes_refused _
  rw [MemNode.tree]
  rcases (fs.roots vfs).find (parts path) with _ | entries | data | target
  · simp only [Option.map_none]
    split
    · exact becomes_refused _
    · cases hdir : fs.inDir vfs (splitParent path).1 fun entries =>
          .ok (MemNode.insertEntry (splitParent path).2 (.file fs.buffers.length) entries) with
      | mk r after =>
        rw [hdir] at henters
        cases r with
        | error e => exact ⟨henters.tree, henters.others, fun e he => henters.refused e (by cases he; rfl)⟩
        | ok u => exact ⟨henters.tree, henters.others, fun e he => by cases he⟩
  · exact becomes_refused _
  · simp only [Option.map_some, MemNode.label]
    split
    · exact becomes_refused _
    · split
      · exact becomes_same _ rfl
      · exact becomes_same _ rfl
  · exact becomes_refused _

section
variable {parent into : List Text} {name final : Text}

theorem detach_fst (entries : List (Text × MemNode)) :
    (detach name entries).map Prod.fst = (entries.lookup name).elim (.error .noent) .ok := by
  unfold detach
  cases entries.lookup name <;> rfl

theorem renameIn_others {other : ℕ} (hother : other ≠ vfs) :
    (fs.renameIn vfs parent name into final).2.roots other = fs.roots other := by
  unfold renameIn
  repeat' split
  all_goals first | rfl | exact if_neg hother

theorem renameIn_tree : (fs.renameIn vfs parent name into final).1.map
      (fun _ => ((fs.renameIn vfs parent name into final).2.roots vfs).tree) =
    (Chart.room (fs.roots vfs).tree parent).bind fun _ =>
    if (fs.roots vfs).tree (parent ++ [name]) = none then .error .noent
      else (Chart.room (graft (fs.roots vfs).tree (parent ++ [name]) fun _ => none) into).map fun _ =>
        relocate (fs.roots vfs).tree (parent ++ [name]) (into ++ [final]) := by
  have hfst := MemNode.dirMut_fst (detach name) parent (fs.roots vfs)
  rw [MemNode.room_tree]
  unfold renameIn
  cases htake : (fs.roots vfs).dirMut (detach name) parent with
  | error e =>
    rw [htake] at hfst
    rcases MemNode.within_cases ((fs.roots vfs).find parent) with ⟨entries, hfind⟩ | ⟨e', hnone⟩
    · rw [hfind] at hfst ⊢
      have hnone : (entries.lookup name).elim (.error .noent) .ok = (.error e : Except Errno MemNode) :=
        (detach_fst entries).symm.trans hfst.symm
      rw [MemNode.tree_entry hfind]
      cases hlookup : entries.lookup name with
      | none =>
        rw [hlookup] at hnone
        cases hnone
        rfl
      | some node =>
        rw [hlookup] at hnone
        cases hnone
    · rw [hnone] at hfst
      cases hfst
      rw [hnone]
      rfl
  | ok r =>
    obtain ⟨node, without⟩ := r
    obtain ⟨entries, -, hfind, -, -⟩ := MemNode.dirMut_ok htake
    obtain ⟨hnode, hwithout⟩ := detached_tree htake
    have hthere : (fs.roots vfs).tree (parent ++ [name]) ≠ none := by
      rw [MemNode.tree, hnode]
      exact Option.some_ne_none _
    have hroom : (without.dirMut (attach final node) into).map Prod.fst = Chart.room without.tree into :=
      (MemNode.dirMut_fst (attach final node) into without).trans (MemNode.room_tree without into).symm
    rw [hfind, MemNode.within, ← hwithout, ← hroom]
    simp only [Except.bind, if_neg hthere]
    cases hput : without.dirMut (attach final node) into with
    | error e =>
      cases without.dirMut (attach name node) parent <;> rfl
    | ok r =>
      obtain ⟨u, moved⟩ := r
      have hroot : (fs.setRoot vfs moved).roots vfs = moved := if_pos rfl
      simp only [Except.map, hroot, attached_tree htake hput]

theorem becomes_rename (source target : Text) (hroot : (fs.roots vfs).Ordered) :
    fs.Becomes vfs (Chart.move (fs.roots vfs).tree source target) (fs.rename vfs source target).1
      (fs.rename vfs source target).2 where
  tree := by
    rw [rename_eq]
    unfold Chart.move
    split
    · rfl
    · exact renameIn_tree.symm
  others other hother := by
    rw [rename_eq]
    split
    · rfl
    · exact renameIn_others hother
  refused e he := rename_failed hroot (Prod.ext he rfl)

end

/-! ## Calls that only look -/

def lengths (fs : MemWorld p) (data : ℕ) : ℕ := (fs.buffer data).bytes.length

def fileOf (fs : MemWorld p) (handle : Handle) : Option ℕ := (fs.files[handle]?).map MemFile.data

theorem nodeStat_label (node : MemNode) : fs.nodeStat node = node.label.stat fs.lengths := by
  cases node <;> rfl

theorem stat_shown (path : Text) (follow : Bool) : fs.stat vfs path follow =
    ((Chart.seen (fs.roots vfs).tree path follow).map (Label.stat fs.lengths)).elim (.error .noent) .ok := by
  have hshown : ∀ path, (fs.roots vfs).tree path = ((fs.roots vfs).find path).map MemNode.label :=
    fun _ => rfl
  unfold stat Chart.seen
  rw [hshown]
  cases hfind : (fs.roots vfs).find (parts path) with
  | none => rfl
  | some node =>
    cases node with
    | dir entries => rfl
    | file data => rfl
    | link target =>
      cases follow with
      | false => rfl
      | true =>
        simp only [Option.map_some, MemNode.label, hshown]
        cases (fs.roots vfs).find (parts (linkTarget path target)) with
        | none => rfl
        | some node => exact congrArg Except.ok (nodeStat_label node)

theorem readdir_shown {path : Text} {listing : List DirEntry} (hroot : (fs.roots vfs).Ordered)
    (h : fs.readdir vfs path = .ok listing) : (listing.Pairwise fun a b => a.name < b.name) ∧
    ∀ entry, entry ∈ listing ↔ ∃ label, (fs.roots vfs).tree (parts path ++ [entry.name]) = some label ∧
      entry = ⟨entry.name, some label.fileType, 0⟩ := by
  unfold readdir at h
  split at h
  · rename_i entries hfind
    cases h
    have hsorted := hroot (parts path) entries hfind
    have hentry : ∀ (name : Text) (node : MemNode),
        entryOf (name, node) = ⟨name, some node.label.fileType, 0⟩ := by
      intro name node
      cases node <;> rfl
    constructor
    · rw [List.pairwise_map]
      refine hsorted.imp fun {a b} hlt => ?_
      rw [hentry a.1 a.2, hentry b.1 b.2]
      exact hlt
    · intro entry
      rw [MemNode.tree_entry hfind, List.mem_map]
      constructor
      · rintro ⟨⟨name, node⟩, hmem, rfl⟩
        refine ⟨node.label, ?_, ?_⟩
        · rw [hentry, MemNode.lookup_of_mem hsorted hmem]
          rfl
        · rw [hentry]
      · rintro ⟨label, hlookup, heq⟩
        obtain ⟨node, hnode, rfl⟩ := Option.map_eq_some_iff.mp hlookup
        exact ⟨(entry.name, node), MemNode.key_mem_of_lookup hnode, by rw [hentry, heq]⟩
  · cases h
  · cases h

theorem readdir_room (path : Text) :
    (fs.readdir vfs path).map (fun _ => ()) = Chart.room (fs.roots vfs).tree (parts path) := by
  rw [MemNode.room_tree]
  unfold readdir
  rcases (fs.roots vfs).find (parts path) with _ | _ | _ | _ <;> rfl

/-- A file is opened that the path shows then. -/
theorem openFile_shown {path : Text} {opts : OpenOptions} {handle : Handle}
    (h : fs.openFile vfs path opts = (.ok handle, after)) :
    ∃ data, after.fileOf handle = some data ∧ (after.roots vfs).tree (parts path) = some (.file data) := by
  have opened : ∀ (world : MemWorld p) data, (world.roots vfs).tree (parts path) = some (.file data) →
      world.openData data opts = (.ok handle, after) →
      ∃ data, after.fileOf handle = some data ∧ (after.roots vfs).tree (parts path) = some (.file data) := by
    intro world data hshown hopen
    cases hopen
    refine ⟨data, ?_, hshown⟩
    rw [fileOf, List.getElem?_concat_length]
    rfl
  have henters := becomes_enter fs vfs path (MemNode.tree_file fs.buffers.length) rfl
  unfold openFile at h
  dsimp only at h
  split at h
  · cases h
  rename_i hname
  split at h
  · rename_i data hfind
    have hshown : (fs.roots vfs).tree (parts path) = some (.file data) := by
      rw [MemNode.tree, hfind]
      rfl
    split at h
    · cases h
    · split at h
      · exact opened (fs.setBuffer data .empty) data hshown h
      · exact opened fs data hshown h
  · cases h
  · cases h
  · split at h
    · cases h
    · split at h
      · cases h
      · rename_i u entered hdir
        rw [hdir] at henters
        refine opened _ _ ?_ h
        have htree := henters.tree
        unfold Chart.enter at htree
        cases hroom : Chart.room (fs.roots vfs).tree (parts (splitParent path).1) with
        | error e => rw [hroom] at htree; cases htree
        | ok u =>
          rw [hroom] at htree
          have hgraft : graft (fs.roots vfs).tree (place path) (Chart.leaf (.file fs.buffers.length)) =
              (entered.roots vfs).tree :=
            Except.ok.inj htree
          simp only
          rw [← hgraft, parts_of_named hname, graft, if_pos (List.prefix_refl _), List.drop_length]
          rfl

/-! ## Every call -/

theorem becomes_looking {α : Type} {r : Except Errno α} {next : Except Errno Chart}
    (h : next = r.map fun _ => (fs.roots vfs).tree) : fs.Becomes vfs next r fs :=
    ⟨h, fun _ _ => rfl, fun _ _ => rfl⟩

theorem opens_found {t t' : Chart} {made : ℕ} {path : Text} {opts : OpenOptions}
    (hcreate : opts.create = false) (hnew : opts.createNew = false) (h : t.opens made path opts = .ok t') :
    (∃ data, t (parts path) = some (.file data)) ∧ t' = t := by
  unfold Chart.opens at h
  rw [hcreate, hnew] at h
  split at h
  · cases h
  split at h
  · rename_i data hfile
    cases h
    exact ⟨⟨data, hfile⟩, rfl⟩
  · cases h
  · cases h
  · cases h

theorem becomes_truncate {path : Text} {len : ℕ} {r : Except Errno Unit}
    (h : fs.truncate vfs path len = some (r, after)) :
    fs.Becomes vfs (Chart.opens (fs.roots vfs).tree fs.buffers.length path ⟨false, true, false, false,
      false, false, 0o644⟩) r
      after := by
  have hopens := becomes_openFile fs vfs path ⟨false, true, false, false, false, false, 0o644⟩
  unfold truncate at h
  split at h
  · rename_i e opened hopen
    cases h
    rw [hopen] at hopens
    exact ⟨hopens.tree, hopens.others, fun e' he => hopens.refused e' (by cases he; rfl)⟩
  · rename_i handle opened hopen
    rw [hopen] at hopens
    obtain ⟨f, hf, hwritable⟩ := openFile_opened hopen
    have hset : opened.file handle (.setLen len) = opened.setLen f len := by simp only [file, hf]
    rw [hset] at h
    obtain ⟨set, hlen, heq⟩ := Option.map_eq_some_iff.mp h
    cases heq
    rcases opened.setLen_taken hwritable len with hpanics | ⟨longer, htaken⟩
    · rw [hpanics] at hlen
      cases hlen
    · obtain rfl := Option.some.inj (htaken.symm.trans hlen)
      have hroots : longer.roots = opened.roots := roots_setLen htaken
      refine ⟨hopens.tree.trans ?_, fun other hother => ?_, fun e he => by cases he⟩
      · exact congrArg (fun roots : ℕ → MemNode => Except.ok (roots vfs).tree) hroots.symm
      · exact (congrFun hroots other).trans (hopens.others other hother)

/-- Every call makes of a tree what it makes of the map. -/
theorem becomes_call {call : VfsCall} {r : Except Errno call.Ans} (h : (fs.roots vfs).Ordered)
    (hcall : fs.call vfs call = some (r, after)) :
    fs.Becomes vfs (Chart.perform (fs.roots vfs).tree fs.buffers.length call) r after := by
  cases call with
  | openFile path opts =>
    have hbecomes := becomes_openFile fs vfs path opts
    rwa [Option.some.inj hcall] at hbecomes
  | stat path follow =>
    obtain ⟨rfl, rfl⟩ := Prod.mk.inj (Option.some.inj hcall)
    apply becomes_looking
    rw [stat_shown, Chart.perform]
    cases Chart.seen (fs.roots vfs).tree path follow <;> rfl
  | readdir path =>
    obtain ⟨rfl, rfl⟩ := Prod.mk.inj (Option.some.inj hcall)
    apply becomes_looking
    rw [Chart.perform, ← readdir_room]
    cases fs.readdir vfs path <;> rfl
  | mkdir path mode => exact becomes_create MemNode.tree_dir_nil (Option.some.inj hcall)
  | unlink path =>
    have hbecomes := becomes_unlink fs vfs path
    rwa [Option.some.inj hcall] at hbecomes
  | rmdir path =>
    have hbecomes := becomes_rmdir fs vfs path
    rwa [Option.some.inj hcall] at hbecomes
  | rename source target =>
    have hbecomes := becomes_rename source target h
    rwa [Option.some.inj hcall] at hbecomes
  | symlink target link => exact becomes_create (MemNode.tree_link target) (Option.some.inj hcall)
  | readlink path =>
    obtain ⟨rfl, rfl⟩ := Prod.mk.inj (Option.some.inj hcall)
    apply becomes_looking
    rw [Chart.perform, MemNode.tree]
    unfold readlink
    rcases (fs.roots vfs).find (parts path) with _ | _ | _ | _ <;> rfl
  | truncate path len => exact becomes_truncate hcall
  | setMode path mode =>
    obtain ⟨rfl, rfl⟩ := Prod.mk.inj (Option.some.inj hcall)
    exact becomes_same () rfl

theorem perform_elsewhere {t t' : Chart} {made : ℕ} {call : VfsCall} {q : List Text}
    (h : t.perform made call = .ok t') (hq : ∀ branch ∈ Chart.places call, ¬ branch <+: q) : t' q = t q := by
  have same : ∀ {α : Type} {r : Except Errno α}, r.map (fun _ => t) = .ok t' → t' = t := by
    intro α r hsame
    cases r with
    | error e => cases hsame
    | ok a =>
      cases hsame
      rfl
  cases call with
  | openFile path opts => exact Chart.opens_elsewhere h (hq _ List.mem_cons_self)
  | mkdir path mode => exact Chart.create_elsewhere h (hq _ List.mem_cons_self)
  | symlink target link => exact Chart.create_elsewhere h (hq _ List.mem_cons_self)
  | unlink path => exact Chart.remove_elsewhere h (hq _ List.mem_cons_self)
  | rmdir path => exact Chart.remove_elsewhere h (hq _ List.mem_cons_self)
  | rename source target =>
    exact Chart.move_elsewhere h (hq _ List.mem_cons_self) (hq _ (List.mem_cons_of_mem _ List.mem_cons_self))
  | truncate path len => rw [(opens_found rfl rfl h).2]
  | readdir path => rw [same h]
  | stat path follow =>
    rw [Chart.perform] at h
    split at h
    · cases h
    · cases h
      rfl
  | readlink path =>
    rw [Chart.perform] at h
    split at h
    · cases h
      rfl
    · cases h
    · cases h
  | setMode path mode =>
    cases h
    rfl

/-- Every call answers what the map shows. -/
theorem answers_call {call : VfsCall} {ans : call.Ans} (h : (fs.roots vfs).Ordered)
    (hcall : fs.call vfs call = some (.ok ans, after)) :
    Chart.Answers (fs.roots vfs).tree (after.roots vfs).tree fs.lengths after.fileOf call ans := by
  cases call with
  | openFile path opts => exact openFile_shown (Option.some.inj hcall)
  | stat path follow =>
    have hstat : fs.stat vfs path follow = .ok ans := (Prod.mk.inj (Option.some.inj hcall)).1
    rw [stat_shown] at hstat
    cases hseen : Chart.seen (fs.roots vfs).tree path follow with
    | none =>
      rw [hseen] at hstat
      cases hstat
    | some label =>
      rw [hseen] at hstat
      exact ⟨label, hseen, (Except.ok.inj hstat).symm⟩
  | readdir path => exact readdir_shown h (Prod.mk.inj (Option.some.inj hcall)).1
  | readlink path =>
    have hread : fs.readlink vfs path = .ok ans := (Prod.mk.inj (Option.some.inj hcall)).1
    unfold readlink at hread
    split at hread
    · rename_i target hfind
      cases hread
      have hlink : (fs.roots vfs).tree (parts path) = some (.link ans) := by
        rw [MemNode.tree, hfind]
        rfl
      exact hlink
    · cases hread
    · cases hread
  | mkdir | unlink | rmdir | rename | symlink | truncate | setMode => trivial

theorem buffers_inDir (fs : MemWorld p) (vfs : ℕ) (parent : Text)
    (f : List (Text × MemNode) → Except Errno (List (Text × MemNode))) :
    (fs.inDir vfs parent f).2.buffers = fs.buffers := by
  unfold inDir
  split <;> rfl

theorem buffers_create {path name parent : Text} {node : MemNode} :
    (if name = [] then (.error .exist, fs)
      else if ((fs.roots vfs).find (parts path)).isSome then (.error .exist, fs)
      else fs.inDir vfs parent fun entries =>
          .ok (MemNode.insertEntry name node entries)).2.buffers = fs.buffers := by
  split
  · rfl
  split
  · rfl
  · exact buffers_inDir fs vfs _ _

theorem buffers_rename (fs : MemWorld p) (vfs : ℕ) (source target : Text) :
    (fs.rename vfs source target).2.buffers = fs.buffers := by
  rw [rename_eq]
  unfold renameIn
  repeat' split
  all_goals rfl

/-- A file call is about the contents of files that there are. -/
theorem file_within {handle : Handle} {call : FileCall} {r : Except Errno call.Ans}
    (h : fs.file handle call = some (r, after)) :
    after.roots = fs.roots ∧ after.buffers.length = fs.buffers.length := by
  unfold file at h
  split at h
  · cases h
    exact ⟨rfl, rfl⟩
  rename_i f _
  cases call with
  | read len =>
    cases h
    exact ⟨rfl, rfl⟩
  | write data =>
    have hwrite : fs.writeFile handle f data = some (r, after) := h
    unfold writeFile at hwrite
    split at hwrite
    · cases hwrite
      exact ⟨rfl, rfl⟩
    dsimp only at hwrite
    split at hwrite
    · cases hwrite
    · split at hwrite <;> cases hwrite
      · exact ⟨rfl, List.length_set⟩
      · exact ⟨rfl, List.length_set⟩
  | seek target =>
    have hseek : fs.seekFile handle f target = (r, after) := Option.some.inj h
    unfold seekFile at hseek
    split at hseek <;> cases hseek
    · exact ⟨rfl, rfl⟩
    · exact ⟨rfl, rfl⟩
  | stat | close =>
    cases h
    exact ⟨rfl, rfl⟩
  | setLen len =>
    have hset : fs.setLen f len = some (r, after) := h
    unfold setLen at hset
    split at hset
    · cases hset
      exact ⟨rfl, rfl⟩
    · split at hset <;> cases hset
      exact ⟨rfl, List.length_set⟩

end MemWorld

def Chart.makes (t : Chart) : VfsCall → ℕ
  | .openFile path _ => if t (parts path) = none then 1 else 0
  | _ => 0

namespace MemWorld
variable {p : Width} {fs after : MemWorld p} {vfs : ℕ}

theorem made_openFile {path : Text} {opts : OpenOptions} {handle : Handle}
    (h : fs.openFile vfs path opts = (.ok handle, after)) :
    after.buffers.length = fs.buffers.length + Chart.makes (fs.roots vfs).tree (.openFile path opts) := by
  rw [Chart.makes, MemNode.tree]
  unfold openFile at h
  dsimp only at h
  split at h
  · cases h
  split at h
  · rename_i data hfind
    rw [hfind, Option.map_some, if_neg (Option.some_ne_none _)]
    split at h
    · cases h
    · split at h <;> cases h
      · exact List.length_set
      · rfl
  · cases h
  · cases h
  · rename_i hfind
    rw [hfind, Option.map_none, if_pos rfl]
    split at h
    · cases h
    · split at h
      · cases h
      · rename_i entered hdir
        have hbuffers := buffers_inDir fs vfs (splitParent path).1 fun entries =>
          .ok (MemNode.insertEntry (splitParent path).2 (.file fs.buffers.length) entries)
        rw [hdir] at hbuffers
        cases h
        exact List.length_append.trans (congrArg
          (fun buffers : List (Buffer p) => buffers.length + 1) hbuffers)

theorem made_call {call : VfsCall} {ans : call.Ans} (hcall : fs.call vfs call = some (.ok ans, after)) :
    after.buffers.length = fs.buffers.length + Chart.makes (fs.roots vfs).tree call := by
  cases call with
  | openFile path opts => exact made_openFile (Option.some.inj hcall)
  | mkdir path mode =>
    have hmade : (fs.mkdir vfs path).2.buffers = fs.buffers := buffers_create
    rw [Option.some.inj hcall] at hmade
    exact congrArg List.length hmade
  | symlink target link =>
    have hmade : (fs.symlink vfs target link).2.buffers = fs.buffers := buffers_create
    rw [Option.some.inj hcall] at hmade
    exact congrArg List.length hmade
  | unlink path =>
    have hgone : (fs.unlink vfs path).2.buffers = fs.buffers := buffers_inDir fs vfs _ _
    rw [Option.some.inj hcall] at hgone
    exact congrArg List.length hgone
  | rmdir path =>
    have hgone : (fs.rmdir vfs path).2.buffers = fs.buffers := buffers_inDir fs vfs _ _
    rw [Option.some.inj hcall] at hgone
    exact congrArg List.length hgone
  | rename source target =>
    have hmoved := buffers_rename fs vfs source target
    rw [Option.some.inj hcall] at hmoved
    exact congrArg List.length hmoved
  | stat | readdir | readlink | setMode =>
    exact congrArg (fun fs : MemWorld p => fs.buffers.length) (Prod.mk.inj (Option.some.inj hcall)).2.symm
  | truncate path len =>
    have htruncate : fs.truncate vfs path len = some (.ok ans, after) := hcall
    unfold truncate at htruncate
    split at htruncate
    · cases htruncate
    rename_i handle opened hopen
    obtain ⟨set, hset, heq⟩ := Option.map_eq_some_iff.mp htruncate
    obtain rfl := (Prod.mk.inj heq).2
    have hopens := (becomes_openFile fs vfs path ⟨false, true, false, false, false, false, 0o644⟩).tree
    rw [hopen] at hopens
    obtain ⟨⟨data, hfile⟩, -⟩ := opens_found rfl rfl hopens
    have hopened := made_openFile hopen
    rw [Chart.makes, hfile, if_neg (Option.some_ne_none _)] at hopened
    exact (file_within hset).2.trans hopened

end MemWorld

/-! ## Whole runs -/

/-- What every filesystem shows, and how many files were made. -/
structure Atlas where
  shown : ℕ → Chart
  made : ℕ

namespace Atlas
variable {p : Width}

def of (fs : MemWorld p) : Atlas := ⟨fun vfs => (fs.roots vfs).tree, fs.buffers.length⟩

noncomputable def next (s : Atlas) (vfs : ℕ) (call : VfsCall) : Except Errno Atlas :=
  ((s.shown vfs).perform s.made call).map fun t =>
    ⟨fun v => if v = vfs then t else s.shown v, s.made + (s.shown vfs).makes call⟩

noncomputable def step (s : Atlas) (vfs : ℕ) (call : VfsCall) : Atlas := (s.next vfs call).toOption.getD s

/-- The answer to a call is what the maps say, and so is what it leaves. -/
def Foretells (s : Atlas) (fs : MemWorld p) (vfs : ℕ) (call : VfsCall) : Prop :=
  ∀ r after, fs.call vfs call = some (r, after) → s.next vfs call = r.map (fun _ => of after) ∧
    ∀ ans, r = .ok ans → Chart.Answers (s.shown vfs) ((of after).shown vfs) fs.lengths after.fileOf call ans

theorem foretells {fs : MemWorld p} {vfs : ℕ} (h : (fs.roots vfs).Ordered) (call : VfsCall) :
    (of fs).Foretells fs vfs call := by
  intro r after hcall
  have hbecomes := MemWorld.becomes_call h hcall
  cases r with
  | error e =>
    refine ⟨?_, fun ans hans => by cases hans⟩
    have htree : (of fs).next vfs call = ((.error e : Except Errno Chart)).map _ :=
      congrArg (Except.map _) hbecomes.tree
    exact htree
  | ok ans =>
    refine ⟨?_, fun ans' hans => ?_⟩
    · have htree : (of fs).next vfs call = .ok ⟨fun v =>
        if v = vfs then (after.roots vfs).tree else (fs.roots v).tree,
          fs.buffers.length + Chart.makes (fs.roots vfs).tree call⟩ := congrArg (Except.map _) hbecomes.tree
      have hshown : (fun v => if v = vfs then (after.roots vfs).tree else (fs.roots v).tree) = fun v =>
          (after.roots v).tree := by
        funext v
        split
        · rename_i hv
          rw [hv]
        · rename_i hv
          rw [hbecomes.others v hv]
      rw [htree, hshown, ← MemWorld.made_call hcall]
      rfl
    · cases hans
      exact MemWorld.answers_call h hcall

theorem step_of {fs after : MemWorld p} {vfs : ℕ} {call : VfsCall} {r : Except Errno call.Ans}
    (h : (fs.roots vfs).Ordered) (hcall : fs.call vfs call = some (r, after)) :
    (of fs).step vfs call = of after := by
  rw [step, (foretells h call r after hcall).1]
  cases r with
  | error e => rw [(MemWorld.becomes_call h hcall).refused e rfl]; rfl
  | ok ans => rfl

/-- What a call that does not come back would have left is what there was. -/
theorem step_panics {fs : MemWorld p} {vfs : ℕ} {call : VfsCall} (hcall : fs.call vfs call = none) :
    (of fs).step vfs call = of fs := by
  cases call with
  | truncate path len =>
    have hperform : (of fs).next vfs (.truncate path len) = ((of fs).shown vfs |>.opens (of fs).made path
        ⟨false, true, false, false, false, false, 0o644⟩).map _ := rfl
    rw [step, hperform]
    cases hopens : (of fs).shown vfs |>.opens (of fs).made path ⟨false, true, false, false, false,
        false, 0o644⟩ with
    | error e => rfl
    | ok t =>
      obtain ⟨-, rfl⟩ := MemWorld.opens_found rfl rfl hopens
      have hshown : (fun v => if v = vfs then (of fs).shown vfs else (of fs).shown v) = (of fs).shown := by
        funext v
        split
        · rename_i hv
          rw [hv]
        · rfl
      exact congrArg (fun shown => Atlas.mk shown fs.buffers.length) hshown
  | _ => cases hcall

theorem step_elsewhere (s : Atlas) {asked vfs : ℕ} {call : VfsCall} {q : List Text}
    (h : asked = vfs → ∀ branch ∈ Chart.places call, ¬ branch <+: q) :
    (s.step asked call).shown vfs q = s.shown vfs q := by
  unfold step next
  cases hperform : (s.shown asked).perform s.made call with
  | error e => rfl
  | ok t =>
    show (if vfs = asked then t else s.shown vfs) q = s.shown vfs q
    by_cases hvfs : vfs = asked
    · subst hvfs
      rw [if_pos rfl]
      exact MemWorld.perform_elsewhere hperform (h rfl)
    · rw [if_neg hvfs]

end Atlas

/-! ## The kernel over them -/

section
open Effects
variable {W : Type} {p : Width} (x : Env W)

theorem vfs_memory (vfs : ℕ) (call : VfsCall) (fs : MemWorld p) (w : W) (h : fs.Ordered) :
    ((x.memory p).vfs vfs call (fs, w)).2.1.Ordered ∧
      Atlas.of ((x.memory p).vfs vfs call (fs, w)).2.1 = (Atlas.of fs).step vfs call := by
  unfold Env.memory
  dsimp only
  cases hcall : fs.call vfs call with
  | none => exact ⟨h, (Atlas.step_panics hcall).symm⟩
  | some answer => exact ⟨MemWorld.ordered_call h hcall, (Atlas.step_of (h vfs) hcall).symm⟩

theorem file_memory (handle : Handle) (call : FileCall) (fs : MemWorld p) (w : W) (h : fs.Ordered) :
    ((x.memory p).file handle call (fs, w)).2.1.Ordered ∧
      Atlas.of ((x.memory p).file handle call (fs, w)).2.1 = Atlas.of fs := by
  unfold Env.memory
  dsimp only
  cases hcall : fs.file handle call with
  | none => exact ⟨h, rfl⟩
  | some answer =>
    obtain ⟨hroots, hlength⟩ := MemWorld.file_within hcall
    refine ⟨fun vfs => ?_, ?_⟩
    · rw [hroots]
      exact h vfs
    · unfold Atlas.of
      dsimp only
      rw [hroots, hlength]

def KOp.vfsCall (k : Kernel) : KOp → Option (ℕ × VfsCall)
  | .machine index (.env (.vfs mount call)) => if (k.procs[index]?).isSome
      then (k.shared.mounts.get mount).map fun m => (m.vfs, call) else none
  | _ => none

/-- An operation leaves the maps as its call does, or alone. -/
theorem atlas_kexec (o : KOp) (k : Kernel) (fs : MemWorld p) (w : W) (h : fs.Ordered) :
    (kexec (x.memory p) o (k, fs, w)).2.2.1.Ordered ∧ Atlas.of (kexec (x.memory p) o (k, fs, w)).2.2.1 =
      (o.vfsCall k).elim (Atlas.of fs) fun asked => (Atlas.of fs).step asked.1 asked.2 := by
  cases o with
  | act a => exact ⟨h, rfl⟩
  | env c =>
    cases c with
    | closeFile handle => exact file_memory x handle .close fs w h
    | _ => exact ⟨h, rfl⟩
  | machine index o =>
    rcases hp : k.procs[index]? with _ | proc
    · rw [kexec_machine_none _ hp]
      cases o with
      | act a => exact ⟨h, rfl⟩
      | env c => cases c <;> simp [KOp.vfsCall, hp, h]
    rw [kexec_machine _ hp]
    cases o with
    | act a => exact ⟨h, rfl⟩
    | env c =>
      cases c with
      | vfs mount call =>
        have hmounts : (k.machineOf proc).shared.mounts = k.shared.mounts := rfl
        simp only [KOp.vfsCall, hp, Option.isSome_some, if_true, exec_env, EnvCall.answer, hmounts]
        cases k.shared.mounts.get mount with
        | none => exact ⟨h, rfl⟩
        | some m => exact vfs_memory x m.vfs call fs w h
      | file handle call => exact file_memory x handle call fs w h
      | random count =>
        simp only [exec_env, EnvCall.answer]
        split <;> exact ⟨h, rfl⟩
      | _ => exact ⟨h, rfl⟩

/-- The maps, kept from the calls alone. -/
noncomputable def charting : History Atlas where
  start := ⟨fun _ => Chart.leaf .dir, 0⟩
  next t o k _ := (o.vfsCall k).elim t fun asked => t.step asked.1 asked.2

variable {α : Type}

/-- A `MemVfs` is a map from paths. While the kernel runs over any of them whose
directories are maps of entries, every call is answered, and changes what there
is, as the maps say that the calls before it have left. -/
theorem memory_charted (program : Sched α) (k : Kernel) (fs : MemWorld p) (w : W) (h : fs.Ordered) :
    Program.Along (charting.exec (x.memory p)) (fun o s => s.2 = Atlas.of s.1.2.1 ∧
        ∀ vfs call, o.vfsCall s.1.1 = some (vfs, call) → s.2.Foretells s.1.2.1 vfs call)
      program ((k, fs, w), Atlas.of fs) ∧
    ∀ r s, program.run (charting.exec (x.memory p)) ((k, fs, w), Atlas.of fs) = (r, s) →
      s.2 = Atlas.of s.1.2.1 ∧ s.1.2.1.Ordered := by
  have hmeets : Program.Meets (charting.exec (x.memory p)) (fun _ _ => True)
      (fun o s => s.2 = Atlas.of s.1.2.1 ∧ ∀ vfs call, o.vfsCall s.1.1 = some (vfs, call) →
        s.2.Foretells s.1.2.1 vfs call)
      program (fun _ s => s.2 = Atlas.of s.1.2.1 ∧ s.1.2.1.Ordered) ((k, fs, w), Atlas.of fs) := by
    refine Program.meets_only (B := fun _ =>
      True) ?_ (Program.only_of_forall (fun _ => trivial) program) ⟨rfl, h⟩
    rintro o ⟨⟨k, fs, w⟩, t⟩ - ⟨ht, hordered⟩ -
    obtain rfl : t = Atlas.of fs := ht
    obtain ⟨hnext, hatlas⟩ := atlas_kexec x o k fs w hordered
    exact ⟨⟨rfl, fun vfs call _ => Atlas.foretells (hordered vfs) call⟩, hatlas.symm, hnext⟩
  obtain ⟨halong, hend⟩ := hmeets.run (Program.along_of_forall _ (fun _ _ => trivial) _ _)
  refine ⟨halong, fun r s hrun => ?_⟩
  rw [hrun] at hend
  exact hend

end

/-- A guest opens a new file, and the map shows it when the slice is over. -/
theorem memory_charted_created : ∃ (k : Kernel) (guests : List GuestRun),
    Config.oneMount.spawn Env.truncates (MemWorld.new .w64, [⟨[.syscall 56 0], some []⟩]) =
      some (k, MemWorld.new .w64, guests) ∧
    ∃ r s, (Scheduler.run 3 ⟨none, none⟩).run (charting.exec Env.truncates)
        ((k, MemWorld.new .w64, guests), Atlas.of (MemWorld.new .w64)) = (r, s) ∧
      s.2.shown 0 [ascii "f"] = some (.file 0) := by
  obtain ⟨k, guests, hspawn, hfile⟩ : ∃ (k : Kernel) (guests : List GuestRun),
      Config.oneMount.spawn Env.truncates (MemWorld.new .w64, [⟨[.syscall 56 0], some []⟩]) =
        some (k, MemWorld.new .w64, guests) ∧
      (((Scheduler.run 3 ⟨none, none⟩).run (kexec Env.truncates) (k, MemWorld.new .w64,
        guests)).2.2.1.roots 0).tree
        [ascii "f"] = some (.file 0) := ⟨_, _, rfl, rfl⟩
  obtain ⟨t, hrun⟩ := charting.run_exec Env.truncates (Scheduler.run 3 ⟨none, none⟩)
    (k, MemWorld.new .w64, guests)
    (Atlas.of (MemWorld.new .w64))
  refine ⟨k, guests, hspawn, _, _, hrun, ?_⟩
  obtain ⟨-, hend⟩ := memory_charted (Env.scripted (.startingWith
    (argWords [atFdcwd, 24, 0x42, 0, 0, 0, 0x66, 0, 3, 0, 0x80000000, 0, 0, 0]))) (Scheduler.run 3
      ⟨none, none⟩) k
    (MemWorld.new .w64) guests fun _ => MemNode.ordered_empty
  obtain ⟨ht, -⟩ := hend _ _ hrun
  exact (congrArg (fun s : Atlas => s.shown 0 [ascii "f"]) ht).trans hfile

section
open Effects
variable {W α : Type} {p : Width} (x : Env W)

/-- What a path shows is changed by a call at the path or above it, or not at all. -/
theorem memory_untouched (program : Sched α) (k : Kernel) (fs : MemWorld p) (w : W) (h : fs.Ordered) (vfs : ℕ)
    (q : List Text) (hcalls : Program.Along (kexec (x.memory p)) (fun o s =>
      ∀ call, o.vfsCall s.1 = some (vfs, call) →
      ∀ branch ∈ Chart.places call, ¬ branch <+: q) program (k, fs, w)) :
    ((program.run (kexec (x.memory p)) (k, fs, w)).2.2.1.roots vfs).tree q = (fs.roots vfs).tree q := by
  have hmeets : Program.Meets (kexec (x.memory p)) (fun o s => ∀ call, o.vfsCall s.1 = some (vfs, call) →
      ∀ branch ∈ Chart.places call, ¬ branch <+: q) (fun _ _ => True) program
      (fun _ s => s.2.1.Ordered ∧ (Atlas.of s.2.1).shown vfs q = (Atlas.of fs).shown vfs q) (k, fs, w) := by
    refine Program.meets_only (B := fun _ =>
      True) ?_ (Program.only_of_forall (fun _ => trivial) program) ⟨h, rfl⟩
    rintro o ⟨k, fs', w⟩ - ⟨hordered, hsame⟩ hcall
    obtain ⟨hnext, hatlas⟩ := atlas_kexec x o k fs' w hordered
    refine ⟨trivial, hnext, ?_⟩
    rw [hatlas, ← hsame]
    cases hasked : o.vfsCall k with
    | none => rfl
    | some asked =>
      obtain ⟨v, call⟩ := asked
      apply Atlas.step_elsewhere
      rintro rfl
      exact hcall call hasked
  exact (hmeets.run hcalls).2.2

end

/-- A guest opens a new file, and nothing is to be seen of any other. -/
theorem memory_untouched_beside : ∃ (k : Kernel) (guests : List GuestRun),
    Config.oneMount.spawn Env.truncates (MemWorld.new .w64, [⟨[.syscall 56 0], some []⟩]) =
      some (k, MemWorld.new .w64, guests) ∧
    (((Scheduler.run 3 ⟨none, none⟩).run (kexec Env.truncates) (k, MemWorld.new .w64,
      guests)).2.2.1.roots 0).tree
      [ascii "g"] = none := by
  obtain ⟨k, guests, hspawn, hcalls⟩ : ∃ (k : Kernel) (guests : List GuestRun),
      Config.oneMount.spawn Env.truncates (MemWorld.new .w64, [⟨[.syscall 56 0], some []⟩]) =
        some (k, MemWorld.new .w64, guests) ∧
      (((Scheduler.run 3 ⟨none, none⟩).trace (kexec Env.truncates) (k, MemWorld.new .w64,
        guests)).all fun v =>
        (v.op.vfsCall v.before.1).all fun asked => (Chart.places asked.2).all fun branch =>
          !branch.isPrefixOf [ascii "g"]) = true := ⟨_, _, rfl, by decide +kernel⟩
  refine ⟨k, guests, hspawn, ?_⟩
  refine (memory_untouched (Env.scripted (.startingWith
    (argWords [atFdcwd, 24, 0x42, 0, 0, 0, 0x66, 0, 3, 0, 0x80000000, 0, 0, 0]))) (Scheduler.run 3
      ⟨none, none⟩) k
    (MemWorld.new .w64) guests (fun _ => MemNode.ordered_empty) 0 [ascii "g"] ?_).trans rfl
  refine (Effects.Program.along_iff_trace _ _ _ _).mpr fun v hv call hasked branch hbranch => ?_
  have hnamed := List.all_eq_true.mp hcalls v hv
  rw [hasked] at hnamed
  have hapart : branch.isPrefixOf [ascii "g"] = false := by
    simpa using List.all_eq_true.mp hnamed branch hbranch
  intro hprefix
  rw [List.isPrefixOf_iff_prefix.mpr hprefix] at hapart
  cases hapart

end Wasmux
