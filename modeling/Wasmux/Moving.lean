import Wasmux.Canonical
import Wasmux.MemVfs

/-!
# Moving a subtree

A tree is read as what each path shows. Taking a subtree out and putting it in
somewhere else moves it and leaves every other path as it was, whatever the two
places are to each other; what a rename finds at its target is not looked at.
-/

set_option autoImplicit false

namespace Wasmux

section
variable {K α : Type} [DecidableEq K]

/-- A tree with another one in place of what it has below a path. -/
def graft (tree : List K → Option α) (place : List K) (branch : List K → Option α) :
    List K → Option α := fun path =>
  if place <+: path then branch (path.drop place.length) else tree path

def relocate (tree : List K → Option α) (source target : List K) : List K → Option α :=
  graft (graft tree source fun _ => none) target fun path => tree (source ++ path)

variable {tree branch : List K → Option α} {place : List K}

theorem graft_nil : graft tree [] branch = branch := by
  funext path
  rw [graft, if_pos List.nil_prefix]
  rfl

theorem graft_outside {path : List K} (h : ¬ place <+: path) : graft tree place branch path = tree path :=
  if_neg h

theorem graft_cons (k : K) (path : List K) :
    graft tree (k :: place) branch (k :: path) = graft (fun path => tree (k :: path)) place branch path := by
  simp [graft, List.cons_prefix_cons]

theorem graft_append (place inner : List K) :
    graft tree place (graft (fun path => tree (place ++ path)) inner branch) =
    graft tree (place ++ inner) branch := by
  funext path
  by_cases hplace : place <+: path
  · obtain ⟨rest, rfl⟩ := hplace
    simp [graft, List.prefix_append_right_inj, ← List.drop_drop]
  · have hdeep : ¬ (place ++ inner) <+: path := fun h => hplace ((List.prefix_append place inner).trans h)
    rw [graft_outside hplace, graft_outside hdeep]

end

inductive Label where
  | dir
  | file (data : ℕ)
  | link (target : Text)
  deriving DecidableEq

namespace MemNode

def label : MemNode → Label
  | .dir _ => .dir
  | .file data => .file data
  | .link target => .link target

def tree (node : MemNode) (path : List Text) : Option Label := (node.find path).map label

/-- What may be put in place of what: a directory of an empty one, and anything
else of anything else. -/
def MayReplace : MemNode → MemNode → Prop
  | .dir _, .dir entries => entries = []
  | .dir _, _ | _, .dir _ => False
  | _, _ => True

theorem lookup_entry (n name : Text) (node : MemNode) (entries : List (Text × MemNode)) :
    ((name, node) :: entries).lookup n = if n = name then some node else entries.lookup n := by
  by_cases hn : n = name
  · simp [hn]
  · rw [List.lookup_cons, beq_eq_false_iff_ne.mpr hn, if_neg hn]

theorem lookup_insertEntry (name : Text) (node : MemNode) (entries : List (Text × MemNode)) (n : Text) :
    (insertEntry name node entries).lookup n = if n = name then some node else entries.lookup n := by
  induction entries with
  | nil => exact lookup_entry n name node []
  | cons entry entries ih =>
    obtain ⟨key, old⟩ := entry
    rw [insertEntry, lookup_entry]
    split
    · subst_vars
      rw [lookup_entry]
      split <;> rfl
    split
    · rw [lookup_entry, lookup_entry]
    · rename_i hkey _
      rw [lookup_entry, ih]
      by_cases hn : n = key
      · rw [if_pos hn, if_neg (hn ▸ hkey), if_pos hn]
      · rw [if_neg hn, if_neg hn]

theorem lookup_filter (name : Text) (entries : List (Text × MemNode)) (n : Text) :
    (entries.filter fun e => e.1 != name).lookup n = if n = name then none else entries.lookup n := by
  induction entries with
  | nil => simp
  | cons entry entries ih =>
    obtain ⟨key, old⟩ := entry
    rw [List.filter_cons, lookup_entry]
    split
    · rename_i hkey
      rw [lookup_entry, ih]
      by_cases hn : n = key
      · rw [if_pos hn, if_neg (by simpa [hn] using hkey), if_pos hn]
      · rw [if_neg hn, if_neg hn]
    · rename_i hkey
      obtain rfl : key = name := by simpa using hkey
      rw [ih]
      split <;> rfl

theorem find_append (node : MemNode) (path rest : List Text) :
    node.find (path ++ rest) = (node.find path).bind fun inner => inner.find rest := by
  induction path generalizing node with
  | nil => rw [List.nil_append, find]; rfl
  | cons name path ih =>
    cases node with
    | dir entries =>
      simp only [List.cons_append, find]
      cases entries.lookup name with
      | none => rfl
      | some node => exact ih node
    | file data => rfl
    | link target => rfl

@[simp] theorem tree_nil (node : MemNode) : node.tree [] = some node.label := by
  rw [tree, find]
  rfl

theorem tree_dir (entries : List (Text × MemNode)) (name : Text) (path : List Text) :
    (dir entries).tree (name :: path) = (entries.lookup name).bind fun node => node.tree path := by
  rw [tree, find]
  cases entries.lookup name <;> rfl

theorem tree_append {node inner : MemNode} {path : List Text} (h : node.find path = some inner)
    (rest : List Text) :
    node.tree (path ++ rest) = inner.tree rest := by
  rw [tree, find_append, h]
  rfl

theorem dir_of_tree {node : MemNode} {path : List Text} (h : node.tree path = some .dir) :
    ∃ entries, node.find path = some (.dir entries) := by
  obtain ⟨inner, hfind, hlabel⟩ := Option.map_eq_some_iff.mp h
  cases inner with
  | dir entries => exact ⟨entries, hfind⟩
  | file data => cases hlabel
  | link target => cases hlabel

theorem dir_of_find {node inner : MemNode} {path : List Text} {name : Text}
    (h : node.find (path ++ [name]) = some inner) :
    ∃ entries, node.find path = some (.dir entries) ∧ entries.lookup name = some inner := by
  rw [find_append] at h
  obtain ⟨parent, hparent, hname⟩ := Option.bind_eq_some_iff.mp h
  cases parent with
  | dir entries =>
    rw [find] at hname
    cases hlookup : entries.lookup name with
    | none => rw [hlookup] at hname; cases hname
    | some node =>
      rw [hlookup] at hname
      have hnode : node.find [] = some node := by rw [find]
      exact ⟨entries, hparent, hlookup.trans (hnode.symm.trans hname)⟩
  | file data => cases hname
  | link target => cases hname

section
variable {α : Type} {f : List (Text × MemNode) → Except Errno (α × List (Text × MemNode))}

/-- What changes a directory changes the tree from there on. -/
theorem dirMut_ok {path : List Text} {node new : MemNode} {a : α} (h : node.dirMut f path = .ok (a, new)) :
    ∃ entries changed, node.find path = some (.dir entries) ∧ f entries = .ok (a, changed) ∧
      new.tree = graft node.tree path (dir changed).tree := by
  induction path generalizing node new with
  | nil =>
    cases node with
    | dir entries =>
      rw [dirMut] at h
      cases hf : f entries with
      | error e => rw [hf] at h; cases h
      | ok r =>
        rw [hf] at h
        cases h
        exact ⟨entries, r.2, by rw [find], hf, graft_nil.symm⟩
    | file data => cases h
    | link target => cases h
  | cons name path ih =>
    cases node with
    | dir entries =>
      rw [dirMut] at h
      cases hlookup : entries.lookup name with
      | none => rw [hlookup] at h; cases h
      | some child =>
        rw [hlookup] at h
        cases hchild : child.dirMut f path with
        | error e => simp only [hchild] at h; cases h
        | ok r =>
          simp only [hchild] at h
          cases h
          obtain ⟨inner, changed, hfind, hf, htree⟩ := ih hchild
          refine ⟨inner, changed, by simpa only [find, hlookup] using hfind, hf, ?_⟩
          funext q
          cases q with
          | nil =>
            rw [graft_outside (by simp), tree_nil, tree_nil]
            rfl
          | cons n q =>
            rw [tree_dir, lookup_insertEntry]
            by_cases hn : n = name
            · subst hn
              have hbelow : (fun rest => (dir entries).tree (n :: rest)) = child.tree := by
                funext rest
                rw [tree_dir, hlookup]
                rfl
              rw [if_pos rfl, graft_cons, hbelow, ← htree]
              rfl
            · rw [if_neg hn, graft_outside fun hp => hn (List.cons_prefix_cons.mp hp).1.symm, tree_dir]
    | file data => cases h
    | link target => cases h

theorem dirMut_of_dir {path : List Text} {node : MemNode} {entries changed : List (Text × MemNode)} {a : α}
    (h : node.find path = some (.dir entries)) (hf : f entries = .ok (a, changed)) :
    ∃ new, node.dirMut f path = .ok (a, new) := by
  induction path generalizing node with
  | nil =>
    rw [find] at h
    cases h
    exact ⟨.dir changed, by rw [dirMut, hf]; rfl⟩
  | cons name path ih =>
    cases node with
    | dir inner =>
      rw [find] at h
      cases hlookup : inner.lookup name with
      | none => rw [hlookup] at h; cases h
      | some child =>
        rw [hlookup] at h
        obtain ⟨new, hnew⟩ := ih h
        exact ⟨_, by simp only [dirMut, hlookup, hnew]; rfl⟩
    | file data => cases h
    | link target => cases h

/-- An entry that is put in or taken out changes the tree from its own path on. -/
theorem dirMut_entry {path : List Text} {node new : MemNode} {a : α} {name : Text} (put : Option MemNode)
    (hput : ∀ entries changed a, f entries = .ok (a, changed) →
      ∀ n, changed.lookup n = if n = name then put else entries.lookup n)
    (h : node.dirMut f path = .ok (a, new)) :
    new.tree = graft node.tree (path ++ [name]) fun rest => put.bind fun inner => inner.tree rest := by
  obtain ⟨entries, changed, hfind, hf, htree⟩ := dirMut_ok h
  rw [htree, ← graft_append]
  congr 1
  funext q
  cases q with
  | nil =>
    rw [graft_outside (by simp), tree_append hfind, tree_nil, tree_nil]
    rfl
  | cons n q =>
    rw [tree_dir, hput _ _ _ hf]
    by_cases hn : n = name
    · subst hn
      rw [if_pos rfl, graft_cons, graft_nil]
    · rw [if_neg hn, graft_outside fun hp =>
        hn (List.cons_prefix_cons.mp hp).1.symm, tree_append hfind, tree_dir]

end

end MemNode

/-! ## Paths -/

theorem parts_join {parts : List Text} (h : Folded parts) : Wasmux.parts (join parts) = parts := by
  cases parts with
  | nil => rfl
  | cons part rest =>
    have hjoin : join (part :: rest) = spell (part :: rest) := rfl
    rw [Wasmux.parts, hjoin, splitOn_spell h, List.filter_cons_of_neg (by simp), List.filter_eq_self]
    intro c hc
    have hplain := (h c hc).nonempty
    cases c with
    | nil => exact absurd rfl hplain
    | cons _ _ => rfl

theorem splitParent_root : splitParent root = (root, []) := rfl

theorem splitParent_join {init : List Text} {last : Text} (h : Folded (init ++ [last])) :
    splitParent (join (init ++ [last])) = (join init, last) := by
  have hlast : slash ∉ last := (h last (by simp)).slash
  have hjoin : join (init ++ [last]) = spell init ++ slash :: last := by simp [join_eq, spell]
  have hname : ((join (init ++ [last])).reverse.takeWhile fun b => b != slash).reverse = last := by
    have hrev : (join (init ++ [last])).reverse = last.reverse ++ slash :: (spell init).reverse := by
      simp [hjoin]
    rw [hrev, List.takeWhile_append_of_pos, List.takeWhile_cons_of_neg (by simp)]
    · simp
    · intro b hb
      have hmem := List.mem_reverse.mp hb
      exact bne_iff_ne.mpr fun heq => hlast (heq ▸ hmem)
  have hbefore : (join (init ++ [last])).take ((join (init ++ [last])).length - last.length) =
      spell init ++ [slash] := by
    have hlen : (join (init ++ [last])).length - last.length = (spell init ++ [slash]).length := by
      simp only [hjoin, List.length_append, List.length_cons, List.length_nil]
      omega
    have hsplit : join (init ++ [last]) = (spell init ++ [slash]) ++ last := by simp [hjoin]
    rw [hlen, hsplit, List.take_left]
  unfold splitParent
  simp only [hname, hbefore]
  cases init with
  | nil => rfl
  | cons part rest =>
    have hlong : ¬ (spell (part :: rest) ++ [slash]).length ≤ 1 := by simp [spell]
    rw [if_neg hlong, List.dropLast_concat]
    rfl

/-! ## Renaming -/

namespace MemWorld
variable {p : Width} (fs : MemWorld p) (vfs : ℕ)

/-- A rename that works replaces what it may replace, moves the subtree and
leaves all else as it was. -/
def RenamesWhole (source target : List Text) : Prop :=
  ∀ after, fs.rename vfs (join source) (join target) = (.ok (), after) →
    (∃ node, (fs.roots vfs).find source = some node ∧
      ∀ old, (fs.roots vfs).find target = some old → node.MayReplace old) ∧
    (after.roots vfs).tree = relocate (fs.roots vfs).tree source target ∧
    (∀ other ≠ vfs, after.roots other = fs.roots other) ∧ after.buffers = fs.buffers ∧ after.files = fs.files

/-- There is a node at each of two paths, neither the root and the second not
inside the first, and the first may not replace the second. -/
def Clobbers (root : MemNode) (source target : List Text) : Prop :=
  source ≠ [] ∧ target ≠ [] ∧ ¬ (source <+: target ∧ source ≠ target) ∧
    ∃ node old, root.find source = some node ∧ root.find target = some old ∧ ¬ node.MayReplace old

variable {fs vfs} {source target : List Text}

variable (fs vfs target) in
theorem rename_root_source (h : source = []) :
    (fs.rename vfs (join source) (join target)).1 = .error .inval := by
  subst h
  simp only [rename, join, splitParent_root, true_or, if_true]

variable (fs vfs source) in
theorem rename_root_target (h : target = []) :
    (fs.rename vfs (join source) (join target)).1 = .error .inval := by
  subst h
  simp only [rename, join, splitParent_root, or_true, if_true]

section
variable {parent into : List Text} {name final : Text}

def detach (name : Text) (entries : List (Text × MemNode)) : Except Errno (MemNode × List (Text × MemNode)) :=
  match entries.lookup name with
  | some node => .ok (node, entries.filter fun e => e.1 != name)
  | none => .error .noent

def attach (name : Text) (node : MemNode) (entries : List (Text × MemNode)) :
    Except Errno (Unit × List (Text × MemNode)) :=
  .ok ((), MemNode.insertEntry name node entries)

theorem detach_ok {entries changed : List (Text × MemNode)} {node : MemNode}
    (h : detach name entries = .ok (node, changed)) :
    entries.lookup name = some node ∧
    ∀ n, changed.lookup n = if n = name then none else entries.lookup n := by
  unfold detach at h
  cases hlookup : entries.lookup name with
  | none => rw [hlookup] at h; cases h
  | some found =>
    rw [hlookup] at h
    cases h
    exact ⟨rfl, MemNode.lookup_filter name entries⟩

theorem attach_ok {entries changed : List (Text × MemNode)} {node : MemNode} {u : Unit}
    (h : attach name node entries = .ok (u, changed)) :
    ∀ n, changed.lookup n = if n = name then some node else entries.lookup n := by
  cases h
  exact MemNode.lookup_insertEntry name node entries

theorem detached_tree {root without node : MemNode}
    (h : root.dirMut (detach name) parent = .ok (node, without)) :
    root.find (parent ++ [name]) = some node ∧ without.tree = graft root.tree (parent ++ [name]) fun _ =>
    none := by
  obtain ⟨entries, changed, hparent, hdetach, -⟩ := MemNode.dirMut_ok h
  constructor
  · rw [MemNode.find_append, hparent]
    simp only [Option.bind_some, MemNode.find, (detach_ok hdetach).1]
  · exact MemNode.dirMut_entry none (fun _ _ _ hd => (detach_ok hd).2) h

theorem attached_tree {root without moved node : MemNode}
    (htake : root.dirMut (detach name) parent = .ok (node, without))
    (hput : without.dirMut (attach final node) into = .ok ((), moved)) :
    moved.tree = relocate root.tree (parent ++ [name]) (into ++ [final]) := by
  obtain ⟨hnode, hwithout⟩ := detached_tree htake
  have hmoved : moved.tree = graft without.tree (into ++ [final]) node.tree :=
    MemNode.dirMut_entry (some node) (fun _ _ _ ha => attach_ok ha) hput
  have hbranch : node.tree = fun path => root.tree ((parent ++ [name]) ++ path) := by
    funext path
    exact (MemNode.tree_append hnode path).symm
  rw [hmoved, hwithout, hbranch, relocate]

/-- A rename between paths that are split into directory and name. -/
def renameIn (fs : MemWorld p) (vfs : ℕ) (parent : List Text) (name : Text) (into : List Text)
    (final : Text) :
    Except Errno Unit × MemWorld p :=
  match (fs.roots vfs).dirMut (detach name) parent with
  | .error e => (.error e, fs)
  | .ok (node, without) => match without.dirMut (attach final node) into with
    | .ok (_, moved) => (.ok (), fs.setRoot vfs moved)
    | .error e => match without.dirMut (attach name node) parent with
      | .ok (_, back) => (.error e, fs.setRoot vfs back)
      | .error _ => (.error e, fs.setRoot vfs without)

variable (hs : Folded (parent ++ [name])) (ht : Folded (into ++ [final]))
include hs ht

theorem rename_ok_iff {after : MemWorld p} :
    fs.rename vfs (join (parent ++ [name])) (join (into ++ [final])) = (.ok (), after) ↔
      ∃ node without moved, (fs.roots vfs).dirMut (detach name) parent = .ok (node, without) ∧
        without.dirMut (attach final node) into = .ok ((), moved) ∧ after = fs.setRoot vfs moved := by
  have hname : name ≠ [] := (hs name (by simp)).nonempty
  have hfinal : final ≠ [] := (ht final (by simp)).nonempty
  have hrename : fs.rename vfs (join (parent ++ [name])) (join (into ++ [final])) =
      fs.renameIn vfs parent name into final := by
    simp only [rename, splitParent_join hs, splitParent_join ht, parts_join hs.left, parts_join ht.left,
      hname, hfinal, or_self, if_false]
    rfl
  rw [hrename]
  unfold renameIn
  constructor
  · intro h
    cases htake : (fs.roots vfs).dirMut (detach name) parent with
    | error e => rw [htake] at h; cases h
    | ok r =>
      obtain ⟨node, without⟩ := r
      simp only [htake] at h
      cases hput : without.dirMut (attach final node) into with
      | ok r =>
        simp only [hput] at h
        cases h
        exact ⟨node, without, r.2, rfl, hput, rfl⟩
      | error e =>
        simp only [hput] at h
        split at h <;> cases h
  · rintro ⟨node, without, moved, htake, hput, rfl⟩
    simp only [htake, hput]

theorem rename_moves {after : MemWorld p}
    (h : fs.rename vfs (join (parent ++ [name])) (join (into ++ [final])) = (.ok (), after)) :
    ∃ node moved, (fs.roots vfs).find (parent ++ [name]) = some node ∧ after = fs.setRoot vfs moved ∧
      moved.tree = relocate (fs.roots vfs).tree (parent ++ [name]) (into ++ [final]) := by
  obtain ⟨node, without, moved, htake, hput, rfl⟩ := (rename_ok_iff hs ht).mp h
  exact ⟨node, moved, (detached_tree htake).1, rfl, attached_tree htake hput⟩

theorem rename_works {node old : MemNode} (hnode : (fs.roots vfs).find (parent ++ [name]) = some node)
    (hold : (fs.roots vfs).find (into ++ [final]) = some old) (hinside : ¬ parent ++ [name] <+: into) :
    ∃ after, fs.rename vfs (join (parent ++ [name])) (join (into ++ [final])) = (.ok (), after) := by
  obtain ⟨entries, hparent, hlookup⟩ := MemNode.dir_of_find hnode
  have hdetach : detach name entries = .ok (node, entries.filter fun e => e.1 != name) := by
    rw [detach, hlookup]
  obtain ⟨without, htake⟩ := MemNode.dirMut_of_dir hparent hdetach
  obtain ⟨-, hwithout⟩ := detached_tree htake
  obtain ⟨inner, hinto, -⟩ := MemNode.dir_of_find hold
  have hstill : without.tree into = some .dir := by
    rw [hwithout, graft_outside hinside, MemNode.tree, hinto]
    rfl
  obtain ⟨left, hleft⟩ := MemNode.dir_of_tree hstill
  obtain ⟨moved, hput⟩ := MemNode.dirMut_of_dir hleft (f := attach final node) rfl
  exact ⟨_, (rename_ok_iff hs ht).mpr ⟨node, without, moved, htake, hput, rfl⟩⟩

end

/-- A rename loses nothing but what it may replace if and only if it is not
asked to put a node where it may not replace what is there. -/
theorem rename_whole_iff (fs : MemWorld p) (vfs : ℕ) (source target : List Text) (hs : Folded source)
    (ht : Folded target) :
    fs.RenamesWhole vfs source target ↔ ¬ Clobbers (fs.roots vfs) source target := by
  rcases source.eq_nil_or_concat' with hroot | ⟨parent, name, rfl⟩
  · have hfails : fs.RenamesWhole vfs source target := fun after h => by
      have := rename_root_source fs vfs target hroot
      rw [h] at this
      cases this
    exact iff_of_true hfails fun hc => hc.1 hroot
  rcases target.eq_nil_or_concat' with hroot | ⟨into, final, rfl⟩
  · have hfails : fs.RenamesWhole vfs (parent ++ [name]) target := fun after h => by
      have := rename_root_target fs vfs (parent ++ [name]) hroot
      rw [h] at this
      cases this
    exact iff_of_true hfails fun hc => hc.2.1 hroot
  constructor
  · rintro hwhole ⟨-, -, hinside, node, old, hnode, hold, hnot⟩
    have houtside : ¬ parent ++ [name] <+: into := fun hp =>
    hinside ⟨hp.trans (List.prefix_append _ _), fun heq => by
      have hlen := hp.length_le
      rw [heq, List.length_append, List.length_singleton] at hlen
      omega⟩
    obtain ⟨after, hafter⟩ := rename_works hs ht hnode hold houtside
    obtain ⟨⟨found, hfound, hmay⟩, -⟩ := hwhole after hafter
    obtain rfl := Option.some.inj (hnode.symm.trans hfound)
    exact hnot (hmay old hold)
  · intro hclear after h
    obtain ⟨node, moved, hnode, rfl, hmoved⟩ := rename_moves hs ht h
    refine ⟨⟨node, hnode, fun old hold => ?_⟩, ?_, fun other hother => if_neg hother, rfl, rfl⟩
    · by_contra hnot
      refine hclear ⟨by simp, by simp, fun hin => ?_, node, old, hnode, hold, hnot⟩
      obtain ⟨_, without, _, htake, hput, -⟩ := (rename_ok_iff hs ht).mp h
      obtain ⟨left, _, hleft, -⟩ := MemNode.dirMut_ok hput
      have hgone : without.tree into = none := by
        rw [(detached_tree htake).2, graft, if_pos]
        exact (List.prefix_concat_iff.mp hin.1).resolve_left hin.2
      rw [MemNode.tree, hleft] at hgone
      cases hgone
    · rw [← hmoved]
      exact congrArg MemNode.tree (if_pos rfl)

def occupied : MemWorld .w64 :=
  ⟨fun _ => .dir [(ascii "d", .dir [(ascii "x", .file 0)]), (ascii "f", .file 1)], [.empty, .empty], []⟩

theorem folded_name {name : Text} (h : name ≠ [] ∧ name ≠ ascii "." ∧ name ≠ ascii ".." ∧ slash ∉ name) :
    Folded [name] := by
  intro part hp
  obtain rfl := List.mem_singleton.mp hp
  exact ⟨h.1, h.2.1, h.2.2.1, h.2.2.2⟩

/-- A file renamed to a name that is free. -/
theorem rename_whole_iff_free : occupied.RenamesWhole 0 [ascii "f"] [ascii "g"] :=
  (rename_whole_iff occupied 0 [ascii "f"] [ascii "g"] (folded_name (by decide))
    (folded_name (by decide))).mpr
    fun hclobbers => by
      obtain ⟨-, -, -, node, old, -, hold, -⟩ := hclobbers
      cases hold

/-- A file renamed to the name of a directory takes its place, and what the
directory held is gone. -/
theorem rename_discards : ∃ after, occupied.rename 0 (join [ascii "f"]) (join [ascii "d"]) = (.ok (), after) ∧
    (occupied.roots 0).tree [ascii "d", ascii "x"] = some (.file 0) ∧
    (after.roots 0).tree [ascii "d"] = some (.file 1) ∧ (after.roots 0).tree [ascii "d", ascii "x"] = none ∧
    ¬ occupied.RenamesWhole 0 [ascii "f"] [ascii "d"] := by
  have hrename : occupied.rename 0 (join [ascii "f"]) (join [ascii "d"]) = (.ok (), _) := rfl
  refine ⟨_, hrename, rfl, rfl, rfl, fun hwhole => ?_⟩
  obtain ⟨⟨node, hnode, hmay⟩, -⟩ := hwhole _ hrename
  obtain rfl : MemNode.file 1 = node := Option.some.inj hnode
  exact hmay _ rfl

end MemWorld
end Wasmux
