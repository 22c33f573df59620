import Wasmux.Files
import Wasmux.Shadows

/-!
# The configured namespace

Lookup and listing are computed apart, from programs, mounts and what the
mounts hold. Which configured paths can be come to from the root, one listing
after another.
-/

set_option autoImplicit false

namespace Wasmux
open Effects Abi Sys

/-- The name that a listing of one folded path has for another. -/
theorem childName_join {before : List Text} {part : Text} (hbefore : Folded before) (hpart : Plain part)
    (path : Text) :
    childName (join before) path = some part ↔ path = join (before ++ [part]) := by
  have hprefix : childPrefix (join before) ++ part = join (before ++ [part]) := by
    rw [join_eq (before ++ [part]), if_neg (by simp), spell_append]
    unfold childPrefix
    cases before with
    | nil => simp [join, root, spell]
    | cons first more =>
      have hne : join (first :: more) ≠ root := fun heq => by
        have := join_injective hbefore .nil (heq.trans (rfl : root = join []))
        cases this
      rw [if_neg hne, join_eq, if_neg (by simp)]
      simp [root, spell]
  unfold childName
  constructor
  · intro h
    split at h
    · rename_i rest hrest
      split at h
      · obtain rfl := Option.some.inj h
        rw [Mounts.stripPrefix_eq_some.mp hrest, hprefix]
      · cases h
    · cases h
  · rintro rfl
    rw [← hprefix, Mounts.stripPrefix_eq_some.mpr rfl]
    exact if_pos ⟨hpart.nonempty, hpart.slash⟩

theorem mem_listing {entries : List (Text × FileType)} {e : Text × FileType} :
    e ∈ listing entries ↔ e ∈ entries := by
  rw [listing, List.mem_dedup, List.mem_insertionSort]

/-- A name that a listing of the kernel's own has: of a program, of a directory
above one, of something generated, or of a mount point. -/
theorem mem_virtualEntries {o : Overlay} {ms : Mounts} {before : List Text} {part : Text}
    (hbefore : Folded before) (hpart : Plain part) : part ∈ (virtualEntries o ms (join before)).map Prod.fst ↔
      (∃ id, (join (before ++ [part]), id) ∈ o.programs) ∨ join (before ++ [part]) ∈ o.dirs ∨
      part ∈ (Overlay.generatedIn (join before)).map Prod.fst ∨ ∃ mount ∈ ms.list,
      mount.point = join (before ++ [part]) := by
  have hname := childName_join hbefore hpart
  simp only [virtualEntries, Overlay.entriesIn, Mounts.childrenOf, List.mem_map, mem_listing, List.mem_append,
    List.mem_filterMap, Option.map_eq_some_iff]
  constructor
  · rintro ⟨e, ((⟨p, hp, c, hc, rfl⟩ | ⟨dir, hdir, c, hc, rfl⟩) | hgen) | ⟨c, ⟨mount, hmount, hc⟩, rfl⟩, rfl⟩
    · rw [hname] at hc
      exact .inl ⟨p.2, by rw [← hc]; exact hp⟩
    · rw [hname] at hc
      exact .inr (.inl (hc ▸ hdir))
    · exact .inr (.inr (.inl ⟨e, hgen, rfl⟩))
    · exact .inr (.inr (.inr ⟨mount, hmount, (hname _).mp hc⟩))
  · rintro (⟨id, hp⟩ | hdir | ⟨e, hgen, rfl⟩ | ⟨mount, hmount, hpoint⟩)
    · exact ⟨(part, .file), .inl (.inl (.inl ⟨_, hp, part, (hname _).mpr rfl, rfl⟩)), rfl⟩
    · exact ⟨(part, .dir), .inl (.inl (.inr ⟨_, hdir, part, (hname _).mpr rfl, rfl⟩)), rfl⟩
    · exact ⟨e, .inl (.inr hgen), rfl⟩
    · exact ⟨(part, .dir), .inr ⟨part, ⟨mount, hmount, (hname _).mpr hpoint⟩, rfl⟩, rfl⟩

namespace Mounts

theorem relative_append {mparts rest : List Text} (hm : Folded mparts) (hrest : Folded rest) :
    relative (join mparts) (join (mparts ++ rest)) = some (join rest) := by
  cases mparts with
  | nil => exact relative_root _
  | cons first more =>
    have hne : join (first :: more) ≠ root := fun heq => by
      have := join_injective hm .nil (heq.trans (rfl : root = join []))
      cases this
    rw [relative_eq_some hne]
    cases rest with
    | nil => exact .inl ⟨by rw [List.append_nil], rfl⟩
    | cons part rest =>
      refine .inr ⟨part ++ spell rest, ?_, ?_⟩
      · rw [join_eq, if_neg (by simp)]
        simp [spell]
      · rw [join_eq (first :: more ++ part :: rest), if_neg (by simp), spell_append,
          join_eq (first :: more), if_neg (by simp)]
        simp [spell]

theorem relative_child {mparts before : List Text} {part : Text} (hm : Folded mparts)
    (hbefore : Folded before) (hpart : Plain part) (hpoint : join mparts ≠ join (before ++ [part])) :
    (∃ rest, Folded rest ∧ relative (join mparts) (join before) = some (join rest) ∧
      relative (join mparts) (join (before ++ [part])) = some (join (rest ++ [part]))) ∨
    (relative (join mparts) (join before) = none ∧
      relative (join mparts) (join (before ++ [part])) = none) := by
  have hchild : Folded (before ++ [part]) := hbefore.append fun c hc => by rwa [List.mem_singleton.mp hc]
  rcases hrel : relative (join mparts) (join (before ++ [part])) with _ | rel
  · rcases hup : relative (join mparts) (join before) with _ | rel
    · exact .inr ⟨rfl, rfl⟩
    · obtain ⟨rest, rfl, -⟩ := relative_join hm hbefore hup
      rw [List.append_assoc] at hrel hchild
      rw [relative_append hm hchild.right] at hrel
      cases hrel
  · obtain ⟨rest, heq, rfl⟩ := relative_join hm hchild hrel
    rcases List.eq_nil_or_concat rest with rfl | ⟨rest', last, rfl⟩
    · rw [List.append_nil] at heq
      exact absurd (congrArg join heq.symm) hpoint
    · rw [List.concat_eq_append, ← List.append_assoc] at heq
      obtain ⟨rfl, hlast⟩ := List.append_inj' heq rfl
      obtain rfl : part = last := by simpa using hlast
      refine .inl ⟨rest', hbefore.right, relative_append hm hbefore.right, ?_⟩
      rw [List.concat_eq_append]

/-- A child lies in the mount of its parent, unless it is a mount point. -/
theorem find_child {ms : Mounts} {before : List Text} {part : Text} (hbefore : Folded before)
    (hpart : Plain part) (hpoint : ∀ mount ∈ ms.list, mount.point ≠ join (before ++ [part])) :
    (∃ i rest, Folded rest ∧ ms.find (join before) = some (i, join rest) ∧
      ms.find (join (before ++ [part])) = some (i, join (rest ++ [part]))) ∨
    (ms.find (join before) = none ∧ ms.find (join (before ++ [part])) = none) := by
  have hgo : ∀ (list : List Mount) (base : ℕ), (∀ m ∈ list, m ∈ ms.list) →
      (∃ i rest, Folded rest ∧ findFrom (join before) base list = some (i, join rest) ∧
        findFrom (join (before ++ [part])) base list = some (i, join (rest ++ [part]))) ∨
      (findFrom (join before) base list = none ∧ findFrom (join (before ++ [part])) base list = none) := by
    intro list
    induction list with
    | nil => exact fun base _ => .inr ⟨rfl, rfl⟩
    | cons mount list ih =>
      intro base hlist
      have hmem := hlist mount List.mem_cons_self
      have hnormal := ms.normal mount hmem
      have hne := hpoint mount hmem
      rw [hnormal] at hne
      rw [findFrom, findFrom, hnormal]
      rcases relative_child (folded_normalize root mount.point) hbefore hpart hne with
        ⟨rest, hrest, hup, hdown⟩ | ⟨hup, hdown⟩
      · rw [hup, hdown]
        exact .inl ⟨base, rest, hrest, rfl, rfl⟩
      · rw [hup, hdown]
        exact ih (base + 1) fun m hm => hlist m (List.mem_cons_of_mem _ hm)
  exact hgo ms.list 0 fun _ => id

/-- The mount found is the longest of those that the path lies in. -/
theorem findFrom_longest {guest : Text} (base : ℕ) {list : List Mount}
    (hsorted : list.Pairwise fun a b => b.point.length ≤ a.point.length) {mount : Mount}
    (hmount : mount ∈ list) (hrel : (relative mount.point guest).isSome) :
    ∃ i found rel, findFrom guest base list = some (i, rel) ∧ list[i - base]? = some found ∧ base ≤ i ∧
      relative found.point guest = some rel ∧ mount.point.length ≤ found.point.length := by
  induction list generalizing base with
  | nil => cases hmount
  | cons first list ih =>
    obtain ⟨hfirst, hrest⟩ := List.pairwise_cons.mp hsorted
    rw [findFrom]
    rcases hhere : relative first.point guest with _ | rel
    · have hlater : mount ∈ list := by
        rcases List.mem_cons.mp hmount with rfl | h
        · rw [hhere] at hrel
          cases hrel
        · exact h
      obtain ⟨i, found, rel, hfind, hat, hle, hfound, hlen⟩ := ih (base + 1) hrest hlater
      refine ⟨i, found, rel, hfind, ?_, by omega, hfound, hlen⟩
      rw [show i - base = i - (base + 1) + 1 by omega]
      exact hat
    · refine ⟨base, first, rel, rfl, by simp, le_rfl, hhere, ?_⟩
      rcases List.mem_cons.mp hmount with rfl | h
      · exact le_rfl
      · exact hfirst mount h

theorem two_le_spell {parts : List Text} (h : Folded parts) (hne : parts ≠ []) :
    2 ≤ (spell parts).length := by
  obtain ⟨part, more, rfl⟩ := List.exists_cons_of_ne_nil hne
  have hpart := List.length_pos_iff.mpr (h part List.mem_cons_self).nonempty
  simp only [spell, List.flatMap_cons, List.length_append, List.length_cons]
  omega

/-- A mount point belongs to its own mount. -/
theorem find_point {ms : Mounts} {parts : List Text} (hparts : Folded parts) {mount : Mount}
    (hmount : mount ∈ ms.list) (hpoint : mount.point = join parts) :
    ∃ i owner, ms.find (join parts) = some (i, root) ∧ ms.get i = some owner := by
  have hrel : (relative mount.point (join parts)).isSome := by
    have := relative_append hparts .nil
    rw [List.append_nil] at this
    rw [hpoint, this]
    rfl
  obtain ⟨i, found, rel, hfind, hat, -, hfound, hlen⟩ := findFrom_longest 0 ms.sorted hmount hrel
  have hnormal := ms.normal found (List.mem_of_getElem? hat)
  obtain ⟨rest, heq, rfl⟩ := relative_join (folded_normalize root found.point) hparts (hnormal ▸ hfound)
  rw [hpoint, hnormal, heq] at hlen
  have hrest : rest = [] := by
    by_contra hne
    have hlong := two_le_spell (heq ▸ hparts).right hne
    rw [join_eq (_ ++ rest), if_neg (by simp [hne]), spell_append, List.length_append, join_eq] at hlen
    split at hlen
    · simp [root] at hlen
      omega
    · omega
  subst hrest
  exact ⟨i, found, hfind, hat⟩

end Mounts
/-- Mounts without symlinks that stand still: what kind of thing each holds at
each path, and what it answers by that. -/
structure Env.Holds {W : Type} (x : Env W) (kind : ℕ → List Text → Option FileType) : Prop where
  top : ∀ vfs, kind vfs [] = some .dir
  parent : ∀ vfs parts name, (kind vfs (parts ++ [name])).isSome → kind vfs parts = some .dir
  linkless : ∀ vfs parts, kind vfs parts ≠ some .symlink
  found : ∀ vfs parts follow w t, Folded parts → kind vfs parts = some t →
    ∃ st, (x.vfs vfs (.stat (join parts) follow) w).1 = .ok st ∧ st.fileType = t
  missing : ∀ vfs parts follow w, Folded parts → kind vfs parts = none →
    (x.vfs vfs (.stat (join parts) follow) w).1 = .error .noent
  listed : ∀ vfs parts w, Folded parts → kind vfs parts = some .dir → ∃ items,
    (x.vfs vfs (.readdir (join parts)) w).1 = .ok items ∧
    ∀ name, name ∈ items.map DirEntry.name ↔ (kind vfs (parts ++ [name])).isSome

def Mounts.holds (ms : Mounts) (kind : ℕ → List Text → Option FileType) (parts : List Text) :
    Option FileType :=
  (ms.find (join parts)).bind fun found => (ms.get found.1).bind fun mount =>
    kind mount.vfs (normalize root found.2)

def Mounts.beside (ms : Mounts) (kind : ℕ → List Text → Option FileType) (before : List Text) (part : Text) :
    Option FileType :=
  (ms.find (join before)).bind fun found => (ms.get found.1).bind fun mount =>
    kind mount.vfs (normalize root found.2 ++ [part])

section
variable {W : Type} {x : Env W} {kind : ℕ → List Text → Option FileType} {m : Machine} {w : W}

theorem holds_eq (kind : ℕ → List Text → Option FileType) {ms : Mounts} {parts rest : List Text} {i : ℕ}
    {mount : Mount} (hrest : Folded rest) (hfind : ms.find (join parts) = some (i, join rest))
    (hget : ms.get i = some mount) :
    ms.holds kind parts = kind mount.vfs rest := by
  simp only [Mounts.holds, hfind, Option.bind_some, hget, normalize_join hrest]

theorem beside_eq (kind : ℕ → List Text → Option FileType) {ms : Mounts} {parts rest : List Text} {i : ℕ}
    {mount : Mount} (hrest : Folded rest) (part : Text) (hfind : ms.find (join parts) = some (i, join rest))
    (hget : ms.get i = some mount) :
    ms.beside kind parts part = kind mount.vfs (rest ++ [part]) := by
  simp only [Mounts.beside, hfind, Option.bind_some, hget, normalize_join hrest]

theorem found_cases (ms : Mounts) {parts : List Text} (hparts : Folded parts) : ms.find (join parts) = none ∨
    ∃ i rest mount, Folded rest ∧ ms.find (join parts) = some (i, join rest) ∧ ms.get i = some mount := by
  rcases hfind : ms.find (join parts) with _ | ⟨i, rel⟩
  · exact .inl rfl
  · obtain ⟨mount, mparts, rest, hget, -, -, heq, rfl⟩ := Mounts.find_join hparts hfind
    exact .inr ⟨i, rest, mount, (heq ▸ hparts).right, rfl, hget⟩

/-- Where the kernel has no link there is none. -/
theorem Env.Holds.unlinked (hx : x.Holds kind) {parts : List Text} (hparts : Folded parts)
    (hkernel : virtualLink m.view.who (join parts) = none) : Unlinked x m (join parts) := by
  refine ⟨hkernel, fun _ _ i rel mount hfind hget _ w => ?_⟩
  obtain ⟨mount', mparts, rest, hget', -, -, heq, rfl⟩ := Mounts.find_join hparts hfind
  have hrest := (heq ▸ hparts).right
  unfold NoLink
  rcases hkind : kind mount.vfs rest with _ | t
  · have hstat := hx.missing mount.vfs rest false w hrest hkind
    rcases hanswer : x.vfs mount.vfs (.stat (join rest) false) w with ⟨e | st, w'⟩
    · rw [hanswer] at hstat
      obtain rfl := Except.error.inj hstat
      exact fun h : Errno.noent = Errno.again => by cases h
    · rw [hanswer] at hstat
      cases hstat
  · obtain ⟨st, hstat, htype⟩ := hx.found mount.vfs rest false w t hrest hkind
    rcases hanswer : x.vfs mount.vfs (.stat (join rest) false) w with ⟨e | st', w'⟩
    · rw [hanswer] at hstat
      cases hstat
    · rw [hanswer] at hstat
      obtain rfl := Except.ok.inj hstat
      intro hsymlink
      rw [htype.symm.trans hsymlink] at hkind
      exact absurd hkind (hx.linkless _ _)

/-- The walk over components of which none is a link comes behind them. -/
theorem run_walkFrom_clear (restart : List Text → Program sig Errno Node) (before done rest : List Text)
    (hclear : ∀ pre part post, done = pre ++ part :: post → Unlinked x m (join (before ++ pre ++ [part])))
    (w : W) :
    ∃ w', (Resolver.walkFrom m.view true restart before (done ++ rest)).run (exec x) (m, w) =
      (Resolver.walkFrom m.view true restart (before ++ done) rest).run (exec x) (m, w') := by
  induction done generalizing before w with
  | nil => exact ⟨w, by rw [List.append_nil, List.nil_append]⟩
  | cons part done ih =>
    have hhere : Unlinked x m (join (before ++ [part])) := by simpa using hclear [] part done rfl
    obtain ⟨w', hrun⟩ := run_asking (only_symlinkTarget m.view (join (before ++ [part]))) (x := x) m w
    rw [run_symlinkTarget hhere] at hrun
    obtain ⟨w'', hrest⟩ := ih (before ++ [part]) (fun pre next post heq => by
      have := hclear (part :: pre) next post (by rw [heq]; rfl)
      simpa using this) w'
    refine ⟨w'', ?_⟩
    rw [List.cons_append, Resolver.walkFrom, if_pos (.inr rfl), Program.run_bind_ok _ hrun]
    dsimp only
    rw [hrest, List.append_assoc]
    rfl

theorem run_walkFrom_link (restart : List Text → Program sig Errno Node) (before rest : List Text)
    (part target : Text) (hlink : virtualLink m.view.who (join (before ++ [part])) = some target) (w : W) :
    (Resolver.walkFrom m.view true restart before (part :: rest)).run (exec x) (m, w) =
      (restart (normalize (join before) target ++ rest)).run (exec x) (m, w) := by
  have hrun : (Resolver.symlinkTarget m.view (join (before ++ [part]))).run (exec x) (m, w) =
      (.ok (some target), (m, w)) := by
    unfold Resolver.symlinkTarget
    rw [hlink]
    rfl
  rw [Resolver.walkFrom, if_pos (.inr rfl), Program.run_bind_ok _ hrun]

def openedAt (path : Text) : Handler (OpenKind × Text) := do
  let v ← view
  let node ← resolve atFdcwd path true
  openNode v oRdonly 0 node

def OpensListing (x : Env W) (p : Handler (OpenKind × Text)) (s : Machine × W) (part : Text) : Prop :=
  ∃ opened guest entries pos, (p.run (exec x) s).1 = .ok (opened, guest) ∧ opened.1 = .dir entries pos ∧
    part ∈ entries.map DirEnt.name

theorem opensListing_openedAt {parts : List Text} {r : Except Errno Node} {w' : W} {part : Text}
    (hrun : (Resolver.resolve m.view root (join parts) true).run (exec x) (m, w) = (r, (m, w'))) :
    OpensListing x (openedAt (join parts)) (m, w) part ↔
      ∃ node, r = .ok node ∧ OpensListing x (openNode m.view oRdonly 0 node) (m, w') part := by
  have hbase : resolveBase m.view atFdcwd (join parts) = .ok root := if_pos (startsWithSlash_join parts)
  have hcatching := Program.run_catching (x := exec x) (δ :=
    Fault) (Resolver.resolve m.view root (join parts) true) (m, w)
  rw [hrun] at hcatching
  have hopened : (openedAt (join parts)).run (exec x) (m, w) =
      (orVfsFault r >>= openNode m.view oRdonly 0).run (exec x) (m, w') := by
    change ((lift (resolveBase m.view atFdcwd (join parts)) >>= fun base =>
      (Resolver.resolve m.view base (join parts) true).catching >>= orVfsFault) >>=
        openNode m.view oRdonly 0).run (exec x)
        (m, w) = _
    rw [hbase, lift_ok, Program.ret_bind, Program.bind_assoc]
    exact Program.run_bind_ok (exec x) hcatching
  unfold OpensListing
  rw [hopened]
  rcases r with e | node
  · constructor
    · rintro ⟨opened, guest, entries, pos, hok, -⟩
      simp only [orVfsFault, vfsFault] at hok
      split at hok <;> cases hok
    · rintro ⟨node, h, -⟩
      cases h
  · constructor
    · exact fun h => ⟨node, rfl, h⟩
    · rintro ⟨node', h, hlists⟩
      obtain rfl := Except.ok.inj h
      exact hlists

theorem wantsWrite_rdonly : wantsWrite oRdonly = false := by decide

theorem run_virtualDirents (entries : List (Text × FileType)) (s : Machine × W) : ∃ dirents t,
    (virtualDirents entries).run (exec x) s = (.ok dirents, t) ∧
    dirents.map DirEnt.name = entries.map Prod.fst := by
  induction entries generalizing s with
  | nil => exact ⟨[], s, rfl, rfl⟩
  | cons entry entries ih =>
    obtain ⟨name, type⟩ := entry
    obtain ⟨dirents, t, hrun, hnames⟩ := ih (s.1, ((EnvCall.hash name).answer x s.1.shared.mounts s.2).2)
    refine ⟨⟨((EnvCall.hash name).answer x s.1.shared.mounts s.2).1, direntKind (some type),
      name⟩ :: dirents, t,
      Program.run_bind_ok (exec x) hrun, ?_⟩
    rw [List.map_cons, List.map_cons, hnames]

theorem run_mergeVirtual (virtual : List (Text × FileType)) (entries : List DirEnt)
    (s : Machine × W) : ∃ merged t,
    (mergeVirtual virtual entries).run (exec x) s = (.ok merged, t) ∧
    ∀ part, part ∈ merged.map DirEnt.name ↔ part ∈ entries.map DirEnt.name ∨ part ∈ virtual.map Prod.fst := by
  induction virtual generalizing entries s with
  | nil => exact ⟨entries, s, rfl, fun part => by simp⟩
  | cons entry virtual ih =>
    obtain ⟨name, type⟩ := entry
    rw [mergeVirtual]
    split
    · rename_i hthere
      obtain ⟨merged, t, hrun, hnames⟩ := ih entries s
      refine ⟨merged, t, hrun, fun part => ?_⟩
      have hname : name ∈ entries.map DirEnt.name := by simpa using hthere
      rw [hnames, List.map_cons, List.mem_cons]
      refine ⟨Or.imp_right .inr, ?_⟩
      rintro (h | rfl | h)
      · exact .inl h
      · exact .inl hname
      · exact .inr h
    · obtain ⟨merged, t, hrun, hnames⟩ := ih
        (entries ++ [⟨((EnvCall.hash name).answer x s.1.shared.mounts s.2).1, direntKind (some type), name⟩])
        (s.1, ((EnvCall.hash name).answer x s.1.shared.mounts s.2).2)
      refine ⟨merged, t, hrun, fun part => ?_⟩
      rw [hnames, List.map_append, List.mem_append, List.map_cons, List.map_nil, List.mem_singleton,
        List.map_cons, List.mem_cons, or_assoc]

theorem run_listedEntries (guest : Text) (items : List DirEntry) (s : Machine × W) : ∃ dirents t,
    (listedEntries guest items).run (exec x) s = (.ok dirents, t) ∧
    dirents.map DirEnt.name = items.map DirEntry.name ∧
    t.1 = s.1 := by
  induction items generalizing s with
  | nil => exact ⟨[], s, rfl, rfl, rfl⟩
  | cons item items ih =>
    by_cases hino : item.ino = 0
    · obtain ⟨dirents, t, hrun, hnames, hsame⟩ := ih
        (s.1, ((EnvCall.hash (guest ++ root ++ item.name)).answer x s.1.shared.mounts s.2).2)
      refine ⟨⟨((EnvCall.hash (guest ++ root ++ item.name)).answer x s.1.shared.mounts s.2).1,
        direntKind item.fileType,
        item.name⟩ :: dirents, t, ?_, by rw [List.map_cons, List.map_cons, hnames], hsame⟩
      rw [listedEntries, if_pos hino]
      exact Program.run_bind_ok (exec x) hrun
    · obtain ⟨dirents, t, hrun, hnames, hsame⟩ := ih s
      refine ⟨⟨item.ino, direntKind item.fileType, item.name⟩ :: dirents, t,
        ?_, by rw [List.map_cons, List.map_cons, hnames],
        hsame⟩
      rw [listedEntries, if_neg hino]
      exact Program.run_bind_ok (exec x) hrun

theorem plain_base {part : Text} (h : Plain part) : part ∉ baseEntries.map DirEnt.name := by
  simp [baseEntries, h.dot, h.dots]

theorem opensListing_virtualDir {part guest : Text} (hpart : Plain part) :
    OpensListing x (openNode m.view oRdonly 0 (.virtualDir guest)) (m, w) part ↔
      part ∈ (virtualEntries m.shared.overlay m.shared.mounts guest).map Prod.fst := by
  obtain ⟨dirents, t, hrun, hnames⟩ := run_virtualDirents (x := x)
    (virtualEntries m.shared.overlay m.shared.mounts guest) (m, w)
  have hopened : (openNode m.view oRdonly 0 (.virtualDir guest)).run (exec x) (m, w) =
      (.ok (⟨.dir (baseEntries ++ dirents) 0, rfl⟩, guest), t) := by
    rw [openNode, wantsWrite_rdonly, if_neg (by simp)]
    exact Program.run_bind_ok (exec x) hrun
  unfold OpensListing
  rw [hopened]
  constructor
  · rintro ⟨_, _, entries, pos, h, hkind, hpart'⟩
    obtain ⟨rfl, -⟩ := Prod.mk.inj (Except.ok.inj h)
    obtain ⟨rfl, -⟩ := DescKind.dir.inj hkind
    rw [List.map_append, List.mem_append, hnames] at hpart'
    exact hpart'.resolve_left (plain_base hpart)
  · intro h
    refine ⟨_, _, _, _, rfl, rfl, ?_⟩
    rw [List.map_append, List.mem_append, hnames]
    exact .inr h

theorem not_opensListing_file {i : ℕ} {rel guest : Text} {stat : Option Stat} {part : Text}
    (hstat : ∀ st, stat = some st → st.fileType ≠ .dir) :
    ¬ OpensListing x (openFound m.view oRdonly 0 i rel guest stat >>= fun kind => .ret (kind, guest))
        (m, w) part := by
  have hdir : ¬ (stat.any fun st => st.fileType == .dir) = true := by
    cases stat with
    | none => simp
    | some st => simpa using hstat st rfl
  rintro ⟨opened, guest', entries, pos, hok, hkind, -⟩
  unfold openFound at hok
  dsimp only at hok
  rw [if_neg (fun h => h.1 (by decide)), if_neg hdir] at hok
  obtain ⟨opened', t, hopen, hret⟩ := Program.run_bind_eq_ok (exec x) (Prod.ext hok rfl : _ = (_, _))
  obtain ⟨rfl, -⟩ := Prod.mk.inj (Except.ok.inj (Prod.mk.inj hret).1)
  obtain ⟨file, t', -, hfile⟩ := Program.run_bind_eq_ok (exec x) hopen
  obtain rfl := Except.ok.inj (Prod.mk.inj hfile).1
  cases hkind

theorem opensListing_mounted (hx : x.Holds kind) {i : ℕ} {rest : List Text} {mount : Mount}
    {guest part : Text} (hget : m.shared.mounts.get i = some mount) (hrest : Folded rest)
    (hpart : Plain part) :
    OpensListing x (openNode m.view oRdonly 0 (.mounted i (join rest) guest)) (m, w) part ↔
      kind mount.vfs rest = some .dir ∧ ((kind mount.vfs (rest ++ [part])).isSome ∨
        part ∈ (virtualEntries m.shared.overlay m.shared.mounts guest).map Prod.fst) := by
  have hnode : openNode m.view oRdonly 0 (.mounted i (join rest) guest) =
      openMounted m.view oRdonly 0 i (join rest) guest >>= fun kind => .ret (kind, guest) := rfl
  have hstat : ∀ {r : Except Errno Stat} (f : Except Errno Stat → Handler OpenKind),
      (x.vfs mount.vfs (.stat (join rest) true) w).1 = r → ∃ w',
      (OpensListing x ((env (.vfs i (.stat (join rest) true)) >>= f) >>= fun kind => .ret (kind, guest))
        (m, w) part ↔
        OpensListing x (f r >>= fun kind => .ret (kind, guest)) (m, w') part) := by
    intro r f h
    refine ⟨(x.vfs mount.vfs (.stat (join rest) true) w).2, ?_⟩
    rw [← h, ← answer_vfs hget]
    rfl
  rw [hnode, openMounted_eq, wantsWrite_rdonly, Bool.false_and, if_neg (by simp)]
  rcases hkind : kind mount.vfs rest with _ | t
  · obtain ⟨w', hask⟩ := hstat _ (hx.missing mount.vfs rest true w hrest hkind)
    rw [hask]
    dsimp only
    rw [if_pos rfl]
    exact iff_of_false (not_opensListing_file fun st h => by cases h) fun h => by cases h.1
  obtain ⟨st, hst, rfl⟩ := hx.found mount.vfs rest true w t hrest hkind
  obtain ⟨w', hask⟩ := hstat _ hst
  rw [hask]
  dsimp only
  by_cases hdir : st.fileType = .dir
  · obtain ⟨items, hitems, hlisted⟩ := hx.listed mount.vfs rest w' hrest (hkind.trans (congrArg some hdir))
    have hitems' : ((EnvCall.vfs i (.readdir (join rest))).answer x m.shared.mounts w').1 = .ok items := by
      rw [answer_vfs hget]
      exact hitems
    obtain ⟨listed, t, hrun, hnames, hsame⟩ := run_listedEntries (x := x) guest items
      (m, ((EnvCall.vfs i (.readdir (join rest))).answer x m.shared.mounts w').2)
    obtain ⟨merged, u, hmerge, hmerged⟩ := run_mergeVirtual (x := x)
      (virtualEntries m.shared.overlay m.shared.mounts guest) (baseEntries ++ listed) t
    have hopened : (openFound m.view oRdonly 0 i (join rest) guest (some st) >>= fun kind =>
        (.ret (kind, guest) : Handler (OpenKind × Text))).run (exec x) (m,
            w') = (.ok (⟨.dir merged 0, rfl⟩, guest), u) := by
      have hfound : openFound m.view oRdonly 0 i (join rest) guest (some st) =
          openDir m.view i (join rest) guest := by
        unfold openFound
        dsimp only
        rw [if_neg (fun h => h.1 (by decide)), if_pos (by simp [hdir]), wantsWrite_rdonly, if_neg (by simp)]
      rw [hfound]
      change ((orVfsFault ((EnvCall.vfs i (.readdir (join rest))).answer x m.shared.mounts w').1 >>= _) >>=
        _ : Handler _).run
        (exec x) (m, _) = _
      rw [hitems', Program.bind_assoc]
      refine (Program.run_bind_ok (exec x) (p := .ret items) rfl).trans ?_
      rw [Program.bind_assoc]
      refine (Program.run_bind_ok (exec x) hrun).trans ?_
      rw [Program.bind_assoc]
      exact Program.run_bind_ok (exec x) hmerge
    unfold OpensListing
    rw [hopened]
    have hpart' : part ∈ merged.map DirEnt.name ↔ (kind mount.vfs (rest ++ [part])).isSome ∨
        part ∈ (virtualEntries m.shared.overlay m.shared.mounts guest).map Prod.fst := by
      rw [hmerged, List.map_append, List.mem_append, hnames, hlisted]
      exact or_congr_left (or_iff_right (plain_base hpart))
    rw [hdir]
    constructor
    · rintro ⟨_, _, entries, pos, h, hkind', hmem⟩
      obtain ⟨rfl, -⟩ := Prod.mk.inj (Except.ok.inj h)
      obtain ⟨rfl, -⟩ := DescKind.dir.inj hkind'
      exact ⟨rfl, hpart'.mp hmem⟩
    · exact fun h => ⟨_, _, _, _, rfl, rfl, hpart'.mpr h.2⟩
  · refine iff_of_false (not_opensListing_file ?_) fun h => hdir (Option.some.inj h.1)
    rintro st' h
    rwa [← Option.some.inj h]

theorem join_ne_root {parts : List Text} (h : Folded parts) : join parts ≠ root ↔ parts ≠ [] :=
  not_congr ⟨fun heq => join_injective h .nil heq, fun hnil => by rw [hnil]; rfl⟩

/-- What a path is without links, and whether it lists `part` then. -/
structure Leads (who : Who) (o : Overlay) (ms : Mounts) (kind : ℕ → List Text → Option FileType)
    (before : List Text) (part : Text) : Prop where
  program : o.program (join before) = none
  device : deviceOf (join before) = none
  dir : procNode who (join before) = some (.virtualDir (join before)) ∧
      part ∈ (virtualEntries o ms (join before)).map Prod.fst ∨
    procNode who (join before) = none ∧ (ms.holds kind before = some .dir ∧
        ((ms.beside kind before part).isSome ∨ part ∈ (virtualEntries o ms (join before)).map Prod.fst) ∨
      part ∈ (virtualEntries o ms (join before)).map Prod.fst ∧ (before ≠ [] ∧ o.isDir (join before) = true ∨
        ms.find (join before) = none ∧ (o.isDir (join before) = true ∨ ms.childrenOf (join before) ≠ [])))

theorem not_opensListing {p : Handler (OpenKind × Text)} {part : Text}
    (h : ∀ opened guest entries pos, (p.run (exec x) (m, w)).1 = .ok (opened, guest) →
      opened.1 ≠ .dir entries pos) :
    ¬ OpensListing x p (m, w) part := by
  rintro ⟨opened, guest, entries, pos, hok, hkind, -⟩
  exact h opened guest entries pos hok hkind

theorem opensListing_classified {before : List Text} {part : Text} {w' : W} {r : Except Errno Node}
    (hrun : (Resolver.classifyFinal m.view (join before)).run (exec x) (m, w) = (r, (m, w'))) :
    (∃ node w'', (Resolver.classifyFinal m.view (join before)).run (exec x) (m, w) = (.ok node, (m, w'')) ∧
      OpensListing x (openNode m.view oRdonly 0 node) (m, w'') part) ↔
    ∃ node, r = .ok node ∧ OpensListing x (openNode m.view oRdonly 0 node) (m, w') part := by
  constructor
  · rintro ⟨node, w'', h, hlists⟩
    obtain ⟨hr, hw⟩ := Prod.mk.inj (hrun.symm.trans h)
    obtain ⟨-, rfl⟩ := Prod.mk.inj hw
    exact ⟨node, hr, hlists⟩
  · rintro ⟨node, rfl, hlists⟩
    exact ⟨node, w', hrun, hlists⟩

theorem not_opensListing_program (id : ProgramId) (guest part : Text) :
    ¬ OpensListing x (openNode m.view oRdonly 0 (.program id guest)) (m, w) part := by
  refine not_opensListing fun opened guest' entries pos hok hkind => ?_
  rw [openNode, wantsWrite_rdonly, if_neg (by simp)] at hok
  obtain ⟨rfl, -⟩ := Prod.mk.inj (Except.ok.inj hok)
  cases hkind

theorem not_opensListing_device (device : Device) (part : Text) :
    ¬ OpensListing x (openNode m.view oRdonly 0 (.device device)) (m, w) part := by
  refine not_opensListing fun opened guest entries pos hok hkind => ?_
  obtain ⟨rfl, -⟩ := Prod.mk.inj (Except.ok.inj hok)
  cases device <;> cases hkind

theorem not_opensListing_synth (guest part : Text) :
    ¬ OpensListing x (openNode m.view oRdonly 0 (.synth guest)) (m, w) part := by
  refine not_opensListing fun opened guest' entries pos hok hkind => ?_
  rw [openNode, wantsWrite_rdonly, if_neg (by simp)] at hok
  obtain ⟨content, t, -, hret⟩ := Program.run_bind_eq_ok (exec x) (Prod.ext hok rfl : _ = (_, _))
  obtain ⟨rfl, -⟩ := Prod.mk.inj (Except.ok.inj (Prod.mk.inj hret).1)
  cases hkind

theorem opensListing_proc {who : Who} {guest part : Text} {node : Node}
    (hnode : procNode who guest = some node) (hpart : Plain part) :
    OpensListing x (openNode m.view oRdonly 0 node) (m, w) part ↔
      node = .virtualDir guest ∧
      part ∈ (virtualEntries m.shared.overlay m.shared.mounts guest).map Prod.fst := by
  rcases procNode_cases hnode with ⟨n, rfl⟩ | rfl | rfl
  · exact iff_of_false (not_opensListing_device _ _) fun h => by cases h.1
  · exact iff_of_false (not_opensListing_synth _ _) fun h => by cases h.1
  · rw [opensListing_virtualDir hpart]
    exact ⟨fun h => ⟨rfl, h⟩, And.right⟩

theorem classified_ret {guest : Text} {node : Node} {part : Text}
    (h : Resolver.classifyFinal m.view guest = .ret node) :
    (∃ node w'', (Resolver.classifyFinal m.view guest).run (exec x) (m, w) = (.ok node, (m, w'')) ∧
      OpensListing x (openNode m.view oRdonly 0 node) (m, w'') part) ↔
    OpensListing x (openNode m.view oRdonly 0 node) (m, w) part := by
  rw [h]
  constructor
  · rintro ⟨node', w'', hrun, hlists⟩
    obtain ⟨hnode, hw⟩ := Prod.mk.inj hrun
    obtain rfl := Except.ok.inj hnode
    obtain ⟨-, rfl⟩ := Prod.mk.inj hw
    exact hlists
  · exact fun hlists => ⟨node, w, rfl, hlists⟩

/-- A directory of the kernel's that a mount could have too is looked up there. -/
theorem run_shadowed (hx : x.Holds kind) {guest : Text} {i : ℕ} {rest : List Text} {mount : Mount}
    (hprogram : m.shared.overlay.program guest = none) (hdevice : deviceOf guest = none)
    (hproc : procNode m.view.who guest = none) (hrest : Folded rest)
    (hfind : m.shared.mounts.find guest = some (i, join rest)) (hget : m.shared.mounts.get i = some mount)
    (hshadow : guest ≠ root ∧ m.shared.overlay.isDir guest = true) (w : W) :
    ∃ w', (Resolver.classifyFinal m.view guest).run (exec x) (m, w) =
      (.ok (if kind mount.vfs rest = some .dir then .mounted i (join rest) guest else .virtualDir guest),
        (m, w')) := by
  refine ⟨((EnvCall.vfs i (.stat (join rest) true)).answer x m.shared.mounts w).2, ?_⟩
  unfold Resolver.classifyFinal
  rw [Machine.view_overlay, hprogram, hdevice, hproc, Machine.view_mounts, hfind]
  dsimp only
  rw [if_pos hshadow, run_ask, answer_vfs hget]
  rcases hkind : kind mount.vfs rest with _ | t
  · rw [hx.missing mount.vfs rest true w hrest hkind, if_neg (by simp)]
    rfl
  · obtain ⟨st, hstat, rfl⟩ := hx.found mount.vfs rest true w t hrest hkind
    rw [hstat]
    by_cases hdir : st.fileType = .dir
    · rw [hdir, if_pos rfl]
      dsimp only
      rw [if_pos hdir]
      rfl
    · rw [if_neg (fun h => hdir (Option.some.inj h))]
      dsimp only
      rw [if_neg hdir]
      rfl

theorem leads_free {who : Who} {o : Overlay} {ms : Mounts} {before : List Text} {part : Text}
    (hprogram : o.program (join before) = none) (hdevice : deviceOf (join before) = none)
    (hproc : procNode who (join before) = none) :
    Leads who o ms kind before part ↔
      ms.holds kind before = some .dir ∧
          ((ms.beside kind before part).isSome ∨ part ∈ (virtualEntries o ms (join before)).map Prod.fst) ∨
        part ∈ (virtualEntries o ms (join before)).map Prod.fst ∧
        (before ≠ [] ∧ o.isDir (join before) = true ∨
          ms.find (join before) = none ∧
          (o.isDir (join before) = true ∨ ms.childrenOf (join before) ≠ [])) := by
  refine ⟨fun h => ?_, fun h => ⟨hprogram, hdevice, .inr ⟨hproc, h⟩⟩⟩
  rcases h.dir with ⟨hdir, -⟩ | ⟨-, h⟩
  · cases hproc.symm.trans hdir
  · exact h

/-- Outside every mount, only the kernel's own directories can be listed. -/
theorem leads_unmounted {before : List Text} {part : Text} (hpart : Plain part)
    (hprogram : m.shared.overlay.program (join before) = none) (hdevice : deviceOf (join before) = none)
    (hproc : procNode m.view.who (join before) = none) (hfind : m.shared.mounts.find (join before) = none) :
    (∃ node w'', (Resolver.classifyFinal m.view (join before)).run (exec x) (m, w) = (.ok node, (m, w'')) ∧
      OpensListing x (openNode m.view oRdonly 0 node) (m, w'') part) ↔
    Leads m.view.who m.shared.overlay m.shared.mounts kind before part := by
  have hholds : m.shared.mounts.holds kind before = none := by simp [Mounts.holds, hfind]
  rw [leads_free hprogram hdevice hproc, hholds]
  by_cases hvirtual : m.shared.overlay.isDir (join before) = true ∨
    m.shared.mounts.childrenOf (join before) ≠ []
  · have hret : Resolver.classifyFinal m.view (join before) = .ret (.virtualDir (join before)) := by
      unfold Resolver.classifyFinal
      rw [Machine.view_overlay, hprogram, hdevice, hproc, Machine.view_mounts, hfind]
      exact if_pos hvirtual
    rw [classified_ret hret, opensListing_virtualDir hpart]
    constructor
    · exact fun h => .inr ⟨h, .inr ⟨hfind, hvirtual⟩⟩
    · rintro (⟨h, -⟩ | ⟨h, -⟩)
      · cases h
      · exact h
  · have hfail : Resolver.classifyFinal m.view (join before) = .fail .noent := by
      unfold Resolver.classifyFinal
      rw [Machine.view_overlay, hprogram, hdevice, hproc, Machine.view_mounts, hfind]
      exact if_neg hvirtual
    rw [hfail]
    constructor
    · rintro ⟨node, w'', hrun, -⟩
      cases hrun
    · rintro (⟨h, -⟩ | ⟨-, ⟨-, h⟩ | ⟨-, h⟩⟩)
      · cases h
      · exact absurd (.inl h) hvirtual
      · exact absurd h hvirtual

/-- In a mount, the mount's directory is listed where it has one, and a shadowing directory of the
kernel's elsewhere. -/
theorem leads_mounted (hx : x.Holds kind) {before rest : List Text} {part : Text} {i : ℕ} {mount : Mount}
    (hbefore : Folded before) (hpart : Plain part)
    (hprogram : m.shared.overlay.program (join before) = none) (hdevice : deviceOf (join before) = none)
    (hproc : procNode m.view.who (join before) = none) (hrest : Folded rest)
    (hfind : m.shared.mounts.find (join before) = some (i, join rest))
    (hget : m.shared.mounts.get i = some mount) :
    (∃ node w'', (Resolver.classifyFinal m.view (join before)).run (exec x) (m, w) = (.ok node, (m, w'')) ∧
      OpensListing x (openNode m.view oRdonly 0 node) (m, w'') part) ↔
    Leads m.view.who m.shared.overlay m.shared.mounts kind before part := by
  have hholds := holds_eq kind hrest hfind hget
  have hbeside := beside_eq kind hrest part hfind hget
  have hmounted : ∀ w', OpensListing x (openNode m.view oRdonly 0 (.mounted i (join rest) (join before)))
      (m, w') part ↔
      m.shared.mounts.holds kind before = some .dir ∧ ((m.shared.mounts.beside kind before part).isSome ∨
        part ∈ (virtualEntries m.shared.overlay m.shared.mounts (join before)).map Prod.fst) := fun w' => by
    rw [opensListing_mounted hx hget hrest hpart, hholds, hbeside]
  rw [leads_free hprogram hdevice hproc]
  by_cases hshadow : join before ≠ root ∧ m.shared.overlay.isDir (join before) = true
  · have hdir : before ≠ [] ∧ m.shared.overlay.isDir (join before) = true :=
      ⟨(join_ne_root hbefore).mp hshadow.1, hshadow.2⟩
    obtain ⟨w', hrun⟩ := run_shadowed hx hprogram hdevice hproc hrest hfind hget hshadow w
    rw [opensListing_classified hrun]
    by_cases hkind : kind mount.vfs rest = some .dir
    · rw [if_pos hkind]
      constructor
      · rintro ⟨node, h, hlists⟩
        obtain rfl := Except.ok.inj h
        exact .inl ((hmounted w').mp hlists)
      · rintro (h | ⟨h, -⟩)
        · exact ⟨_, rfl, (hmounted w').mpr h⟩
        · exact ⟨_, rfl, (hmounted w').mpr ⟨hholds.trans hkind, .inr h⟩⟩
    · rw [if_neg hkind]
      constructor
      · rintro ⟨node, h, hlists⟩
        obtain rfl := Except.ok.inj h
        exact .inr ⟨(opensListing_virtualDir hpart).mp hlists, .inl hdir⟩
      · rintro (⟨h, -⟩ | ⟨h, -⟩)
        · exact absurd (hholds.symm.trans h) hkind
        · exact ⟨_, rfl, (opensListing_virtualDir hpart).mpr h⟩
  · have hret : Resolver.classifyFinal m.view (join before) =
        .ret (.mounted i (join rest) (join before)) := by
      unfold Resolver.classifyFinal
      rw [Machine.view_overlay, hprogram, hdevice, hproc, Machine.view_mounts, hfind]
      exact if_neg hshadow
    rw [classified_ret hret, hmounted]
    refine ⟨.inl, ?_⟩
    rintro (h | ⟨-, ⟨hne, hdir⟩ | ⟨hnone, -⟩⟩)
    · exact h
    · exact absurd ⟨(join_ne_root hbefore).mpr hne, hdir⟩ hshadow
    · cases hfind.symm.trans hnone

theorem leads_iff (hx : x.Holds kind) {before : List Text} {part : Text} (hbefore : Folded before)
    (hpart : Plain part) :
    (∃ node w'', (Resolver.classifyFinal m.view (join before)).run (exec x) (m, w) = (.ok node, (m, w'')) ∧
      OpensListing x (openNode m.view oRdonly 0 node) (m, w'') part) ↔
    Leads m.view.who m.shared.overlay m.shared.mounts kind before part := by
  rcases hprogram : m.shared.overlay.program (join before) with _ | id
  swap
  · have hret : Resolver.classifyFinal m.view (join before) = .ret (.program id (join before)) := by
      unfold Resolver.classifyFinal
      rw [Machine.view_overlay, hprogram]
    rw [classified_ret hret]
    exact iff_of_false (not_opensListing_program _ _ _) fun h => by cases hprogram.symm.trans h.program
  rcases hdevice : deviceOf (join before) with _ | device
  swap
  · have hret : Resolver.classifyFinal m.view (join before) = .ret (.device device) := by
      unfold Resolver.classifyFinal
      rw [Machine.view_overlay, hprogram, hdevice]
    rw [classified_ret hret]
    exact iff_of_false (not_opensListing_device _ _) fun h => by cases hdevice.symm.trans h.device
  rcases hproc : procNode m.view.who (join before) with _ | node
  swap
  · have hret : Resolver.classifyFinal m.view (join before) = .ret node := by
      unfold Resolver.classifyFinal
      rw [Machine.view_overlay, hprogram, hdevice, hproc]
    rw [classified_ret hret, opensListing_proc hproc hpart]
    constructor
    · rintro ⟨rfl, hmem⟩
      exact ⟨hprogram, hdevice, .inl ⟨hproc, hmem⟩⟩
    · intro h
      rcases h.dir with ⟨hdir, hmem⟩ | ⟨hnone, -⟩
      · exact ⟨Option.some.inj (hproc.symm.trans hdir), hmem⟩
      · cases hproc.symm.trans hnone
  rcases found_cases m.shared.mounts hbefore with hfind | ⟨i, rest, mount, hrest, hfind, hget⟩
  · exact leads_unmounted hpart hprogram hdevice hproc hfind
  · exact leads_mounted hx hbefore hpart hprogram hdevice hproc hrest hfind hget

theorem not_opensListing_long {parts : List Text} {part : Text} (hlong : Mem.maxStr < (join parts).length) :
    ¬ OpensListing x (openedAt (join parts)) (m, w) part := by
  have hrun : (Resolver.resolve m.view root (join parts) true).run (exec x) (m, w) =
      (.error .nametoolong, (m, w)) := by
    rw [Resolver.resolve, if_pos hlong]
    rfl
  rw [opensListing_openedAt hrun]
  rintro ⟨node, h, -⟩
  cases h

theorem opensListing_iff (hx : x.Holds kind) {before : List Text} {part : Text} (hbefore : Folded before)
    (hpart : Plain part) (hclear : Clear x m before) : OpensListing x (openedAt (join before)) (m, w) part ↔
      (join before).length ≤ Mem.maxStr ∧
      Leads m.view.who m.shared.overlay m.shared.mounts kind before part := by
  by_cases hlong : Mem.maxStr < (join before).length
  · exact iff_of_false (not_opensListing_long hlong) fun h => absurd h.1 (not_le.mpr hlong)
  obtain ⟨w', hwalk⟩ := run_walkFrom_clear (x := x) (m := m) (Resolver.walk m.view true 39) [] before []
    (fun pre part post heq => by simpa using hclear pre part post heq) w
  rw [List.append_nil, List.nil_append] at hwalk
  have hresolve : (Resolver.resolve m.view root (join before) true).run (exec x) (m, w) =
      (Resolver.classifyFinal m.view (join before)).run (exec x) (m, w') := by
    rw [Resolver.resolve, if_neg hlong, normalize_join hbefore]
    exact hwalk
  obtain ⟨w'', hclassify⟩ := run_asking (x := x) (only_classifyFinal m.view (join before)) m w'
  rw [opensListing_openedAt (hresolve.trans hclassify), ← opensListing_classified hclassify,
    leads_iff hx hbefore hpart]
  exact ⟨fun h => ⟨by omega, h⟩, And.right⟩

/-- What a link of the kernel's is to a process whose directory and program are
the null device: that, or one of its standard streams. -/
inductive LeadsAstray : Who → List Text → Prop
  | device (pid : ℤ) : LeadsAstray ⟨ascii "/dev/null", ascii "/dev/null", pid⟩ [ascii "dev", ascii "null"]
  | stream (name : Text) : name ∈ [ascii "0", ascii "1", ascii "2"] →
    LeadsAstray ⟨ascii "/dev/null", ascii "/dev/null", 1⟩ [ascii "proc", ascii "self", ascii "fd", name]

theorem virtualLink_astray {who : Who} {guest target : Text} (h : virtualLink who guest = some target) :
    ∃ who' parts, LeadsAstray who' parts ∧ virtualLink who' guest = some (join parts) := by
  unfold virtualLink at h
  dsimp only at h
  split_ifs at h with hexe hcwd hin hout herr
  · exact ⟨_, _, .device who.pid, if_pos hexe⟩
  · refine ⟨_, _, .device who.pid, ?_⟩
    unfold virtualLink
    dsimp only
    rw [if_neg hexe, if_pos hcwd]
    rfl
  · subst hin
    exact ⟨_, _, .stream (ascii "0") (by decide), by decide⟩
  · subst hout
    exact ⟨_, _, .stream (ascii "1") (by decide), by decide⟩
  · subst herr
    exact ⟨_, _, .stream (ascii "2") (by decide), by decide⟩

theorem LeadsAstray.folded {who : Who} {parts : List Text} (h : LeadsAstray who parts) : Folded parts := by
  have hsame : parts = normalize root (join parts) := by
    cases h with
    | device => decide
    | stream name hname =>
      have : ∀ name ∈ [ascii "0", ascii "1", ascii "2"], [ascii "proc", ascii "self", ascii "fd", name] =
        normalize root (join [ascii "proc", ascii "self", ascii "fd", name]) := by decide
      exact this name hname
  rw [hsame]
  exact folded_normalize _ _

theorem LeadsAstray.unlinked {who : Who} {parts : List Text} (h : LeadsAstray who parts)
    {pre post : List Text} {part : Text} (heq : parts = pre ++ part :: post) :
    virtualLink who (join (pre ++ [part])) = none := by
  have htake : pre ++ [part] = parts.take (pre.length + 1) := by
    rw [heq, List.take_append]
    simp
  have hlt : pre.length < parts.length := by
    rw [heq]
    simp
  rw [htake]
  generalize pre.length = k at hlt
  cases h with
  | device pid =>
    have hdev : stripPrefix (ascii "/proc/" ++ decimalInt pid) (ascii "/dev") = none := by
      cases hstrip : stripPrefix (ascii "/proc/" ++ decimalInt pid) (ascii "/dev") with
      | none => rfl
      | some tail =>
        have hhead := congrArg (fun text : Text => text[1]?) (Mounts.stripPrefix_eq_some.mp hstrip)
        exact absurd hhead (by simp [ascii])
    have hk : k < 2 := hlt
    obtain rfl | rfl : k = 0 ∨ k = 1 := by omega
    · change virtualLink _ (ascii "/dev") = none
      unfold virtualLink
      dsimp only
      rw [hdev]
      decide
    · exact device_link (by decide : ascii "/dev/null" ∈ devicePaths) _
  | stream name hname =>
    have hnone : ∀ name ∈ [ascii "0", ascii "1", ascii "2"], ∀ k ∈ List.range 4,
      virtualLink ⟨ascii "/dev/null", ascii "/dev/null", 1⟩
        (join ([ascii "proc", ascii "self", ascii "fd", name].take (k + 1))) = none := by decide
    exact hnone name hname k (List.mem_range.mpr hlt)

theorem LeadsAstray.not_leads {who : Who} {parts : List Text} (h : LeadsAstray who parts) (o : Overlay)
    (ms : Mounts) (part : Text) : ¬ Leads who o ms kind parts part := by
  intro hleads
  cases h with
  | device pid => cases hleads.device
  | stream name hname =>
    have hfd : ∀ name ∈ [ascii "0", ascii "1", ascii "2"], ∃ n,
      procNode ⟨ascii "/dev/null", ascii "/dev/null", 1⟩
      (join [ascii "proc", ascii "self", ascii "fd", name]) = some (.device (.fd n)) := by
      intro name hname
      obtain rfl | rfl | rfl : name = ascii "0" ∨ name = ascii "1" ∨ name = ascii "2" := by
        simpa only [List.mem_cons, List.not_mem_nil, or_false] using hname
      · exact ⟨0, by decide⟩
      · exact ⟨1, by decide⟩
      · exact ⟨2, by decide⟩
    obtain ⟨n, hproc⟩ := hfd name hname
    rcases hleads.dir with ⟨hdir, -⟩ | ⟨hnone, -⟩
    · cases hproc.symm.trans hdir
    · cases hproc.symm.trans hnone

/-- A link of the kernel's leads some process astray. -/
theorem not_opensListing_link (hx : x.Holds kind) {pre target : List Text} {last part : Text}
    (hpath : Folded (pre ++ [last])) (hpart : Plain part) (hclear : Clear x m pre)
    (hastray : LeadsAstray m.view.who target)
    (hlink : virtualLink m.view.who (join (pre ++ [last])) = some (join target)) :
    ¬ OpensListing x (openedAt (join (pre ++ [last]))) (m, w) part := by
  by_cases hlong : Mem.maxStr < (join (pre ++ [last])).length
  · exact not_opensListing_long hlong
  have htarget := hastray.folded
  have hclear' : ∀ pre part post, target = pre ++ part :: post → Unlinked x m (join ([] ++ pre ++ [part])) :=
    fun pre part post heq => by
      have hprefix : Folded (pre ++ [part]) := by
        rw [heq, ← List.singleton_append, ← List.append_assoc] at htarget
        exact htarget.left
      exact hx.unlinked hprefix (hastray.unlinked heq)
  obtain ⟨w₁, hpre⟩ := run_walkFrom_clear (x := x) (m := m) (Resolver.walk m.view true 39) [] pre [last]
    (fun pre part post heq => by simpa using hclear pre part post heq) w
  obtain ⟨w₂, hwalk⟩ := run_walkFrom_clear (x := x)
    (m := m) (Resolver.walk m.view true 38) [] target [] hclear' w₁
  obtain ⟨w₃, hclassify⟩ := run_asking (x := x) (only_classifyFinal m.view (join target)) m w₂
  have hresolve : (Resolver.resolve m.view root (join (pre ++ [last])) true).run (exec x) (m, w) =
      (Resolver.classifyFinal m.view (join target)).run (exec x) (m, w₂) := by
    rw [Resolver.resolve, if_neg hlong, normalize_join hpath]
    refine hpre.trans ?_
    rw [List.nil_append, run_walkFrom_link _ _ _ _ _ hlink, normalize_join htarget, List.append_nil]
    rw [List.append_nil, List.nil_append] at hwalk
    exact hwalk
  rw [opensListing_openedAt (hresolve.trans hclassify), ← opensListing_classified hclassify,
    leads_iff hx htarget hpart]
  exact hastray.not_leads _ _ _

end

/-- Every component of the path is listed where the ones before it lead, for
every process. -/
def Reachable {W : Type} (x : Env W) (o : Overlay) (ms : Mounts) (w : W) (parts : List Text) : Prop :=
  ∀ m : Machine, m.shared.overlay = o → m.shared.mounts = ms → ∀ before part rest,
    parts = before ++ part :: rest →
    OpensListing x (openedAt (join before)) (m, w) part

section
variable (o : Overlay) (ms : Mounts) (kind : ℕ → List Text → Option FileType) (before : List Text)
    (part : Text)

/-- There is something of this name where it is looked for. -/
def Known : Prop :=
  (∃ id, (join (before ++ [part]), id) ∈ o.programs) ∨ o.isDir (join (before ++ [part])) = true ∨
  part ∈ (Overlay.generatedIn (join before)).map Prod.fst ∨
  (∃ mount ∈ ms.list, mount.point = join (before ++ [part])) ∨
  (∀ who, procNode who (join before) = none) ∧ (ms.beside kind before part).isSome

/-- What leads on: nothing that is the kernel's own, and a directory of the
overlay, a mount point, or a directory in the mount it lies in. -/
structure Enterable : Prop where
  short : (join (before ++ [part])).length ≤ Mem.maxStr
  program : o.program (join (before ++ [part])) = none
  device : deviceOf (join (before ++ [part])) = none
  link : ∀ who, virtualLink who (join (before ++ [part])) = none
  proc : ∀ who node, procNode who (join (before ++ [part])) = some node →
    node = .virtualDir (join (before ++ [part]))
  there : o.isDir (join (before ++ [part])) = true ∨
    (∃ mount ∈ ms.list, mount.point = join (before ++ [part])) ∨
    (∀ who, procNode who (join before) = none) ∧ (ms.beside kind before part = some .dir ∨
      (ms.beside kind before part).isSome ∧ ∀ who, (procNode who (join (before ++ [part]))).isSome)

end

/-- Every proper ancestor of a path leads on, and there is something of its name. -/
def Charted (o : Overlay) (ms : Mounts) (kind : ℕ → List Text → Option FileType) (parts : List Text) : Prop :=
  ∀ before part rest, parts = before ++ part :: rest → o.program root = none ∧
    (rest ≠ [] → Enterable o ms kind before part) ∧ (rest = [] → Known o ms kind before part)

section
variable {W : Type} {x : Env W} {o : Overlay} {ms : Mounts} {kind : ℕ → List Text → Option FileType}
    {before : List Text}
  {part : Text}

theorem isDir_new (programs : List (Text × ProgramId)) : (Overlay.new programs).isDir root = true ∧
    (Overlay.new programs).isDir (ascii "/proc/self") = true := by
  have hdirs : ∀ dir ∈ ["/", "/dev", "/proc", "/proc/self"].map ascii,
      (Overlay.new programs).isDir dir = true := by
    intro dir hdir
    have : dir ∈ (Overlay.new programs).dirs := List.mem_append_left _ hdir
    simp [Overlay.isDir, this]
  exact ⟨hdirs _ (by decide), hdirs _ (by decide)⟩

theorem program_of_mem {path : Text} {id : ProgramId} (h : (path, id) ∈ o.programs) :
    (o.program path).isSome := by
  unfold Overlay.program
  rw [List.lookup_isSome_iff]
  exact ⟨_, h, by simp⟩

/-- What the kernel generates by this name is no directory but `/proc/self` and
the one of descriptors. -/
theorem generated_cases (hbefore : Folded before)
    (h : part ∈ (Overlay.generatedIn (join before)).map Prod.fst) :
    (deviceOf (join (before ++ [part]))).isSome ∨
    (∃ who, (virtualLink who (join (before ++ [part]))).isSome) ∨
    (∃ who, procNode who (join (before ++ [part])) = some (.synth (join (before ++ [part])))) ∨
    join (before ++ [part]) = ascii "/proc/self" ∨ join (before ++ [part]) = ascii "/proc/self/fd" := by
  have hat : ∀ {parts : List Text}, Folded parts → join before = join parts → before = parts := fun hp heq =>
    join_injective hbefore hp heq
  unfold Overlay.generatedIn at h
  split_ifs at h with hdev hproc hself
  · obtain rfl := hat (folded_normalize root (ascii "/dev")) (hdev.trans (by decide))
    have hnames : ∀ part ∈ ["null", "zero", "urandom", "random", "tty", "console", "stdin", "stdout",
      "stderr"].map ascii,
      (deviceOf (join [ascii "dev", part])).isSome ∨
        (virtualLink ⟨[], [], 1⟩ (join [ascii "dev", part])).isSome := by decide
    have hpart : part ∈ ["null", "zero", "urandom", "random", "tty", "console", "stdin", "stdout",
        "stderr"].map ascii := by
      simpa using h
    rcases hnames part hpart with hdevice | hlink
    · exact .inl hdevice
    · exact .inr (.inl ⟨_, hlink⟩)
  · obtain rfl := hat (folded_normalize root (ascii "/proc")) (hproc.trans (by decide))
    have hnames : ∀ part ∈ procFiles ++ [ascii "self"],
      procNode ⟨[], [], 1⟩ (join [ascii "proc", part]) = some (.synth (join [ascii "proc", part])) ∨
        join [ascii "proc", part] = ascii "/proc/self" := by decide
    have hpart : part ∈ procFiles ++ [ascii "self"] := by simpa using h
    rcases hnames part hpart with hsynth | hself
    · exact .inr (.inr (.inl ⟨_, hsynth⟩))
    · exact .inr (.inr (.inr (.inl hself)))
  · obtain rfl := hat (folded_normalize root (ascii "/proc/self")) (hself.trans (by decide))
    have hnames : ∀ part ∈ ["exe", "cwd", "cmdline", "comm", "stat", "fd"].map ascii,
      (virtualLink ⟨[], [], 1⟩ (join [ascii "proc", ascii "self", part])).isSome ∨
      procNode ⟨[], [], 1⟩ (join [ascii "proc", ascii "self", part]) =
        some (.synth (join [ascii "proc", ascii "self", part])) ∨
      join [ascii "proc", ascii "self", part] = ascii "/proc/self/fd" := by decide
    have hpart : part ∈ ["exe", "cwd", "cmdline", "comm", "stat", "fd"].map ascii := by simpa using h
    rcases hnames part hpart with hlink | hsynth | hfd
    · exact .inr (.inl ⟨_, hlink⟩)
    · exact .inr (.inr (.inl ⟨_, hsynth⟩))
    · exact .inr (.inr (.inr (.inr hfd)))
  · cases h

theorem isDir_virtual (hbefore : Folded before) (hpart : Plain part)
    (h : o.isDir (join (before ++ [part])) = true) :
    part ∈ (virtualEntries o ms (join before)).map Prod.fst := by
  rw [mem_virtualEntries hbefore hpart]
  have hcases : join (before ++ [part]) ∈ o.dirs ∨ join (before ++ [part]) = ascii "/proc/self/fd" := by
    simpa [Overlay.isDir] using h
  rcases hcases with h | h
  · exact .inr (.inl h)
  · have hsplit : before ++ [part] = [ascii "proc", ascii "self"] ++ [ascii "fd"] :=
      join_injective (hbefore.append fun c hc => by rwa [List.mem_singleton.mp hc])
        (folded_normalize root (ascii "/proc/self/fd")) (h.trans (by decide))
    obtain ⟨rfl, hlast⟩ := List.append_inj' hsplit rfl
    obtain rfl : part = ascii "fd" := by simpa using hlast
    exact .inr (.inr (.inl (by decide)))

theorem beside_parent (hx : x.Holds kind) (hbefore : Folded before)
    (h : (ms.beside kind before part).isSome) :
    ms.holds kind before = some .dir := by
  rcases found_cases ms hbefore with hfind | ⟨i, rest, mount, hrest, hfind, hget⟩
  · simp [Mounts.beside, hfind] at h
  · rw [beside_eq kind hrest part hfind hget] at h
    rw [holds_eq kind hrest hfind hget]
    exact hx.parent _ _ _ h

variable (kind) in
theorem holds_child (hbefore : Folded before) (hpart : Plain part)
    (hpoint : ∀ mount ∈ ms.list, mount.point ≠ join (before ++ [part])) :
    ms.holds kind (before ++ [part]) = ms.beside kind before part := by
  rcases Mounts.find_child hbefore hpart hpoint with ⟨i, rest, hrest, hup, hdown⟩ | ⟨hup, hdown⟩
  · have hchild : Folded (rest ++ [part]) := hrest.append fun c hc => by rwa [List.mem_singleton.mp hc]
    simp only [Mounts.holds, Mounts.beside, hup, hdown, Option.bind_some, normalize_join hrest,
      normalize_join hchild]
  · simp only [Mounts.holds, Mounts.beside, hup, hdown, Option.bind_none]

theorem holds_point (hx : x.Holds kind) {parts : List Text} (hparts : Folded parts)
    (h : ∃ mount ∈ ms.list, mount.point = join parts) : ms.holds kind parts = some .dir := by
  obtain ⟨mount, hmount, hpoint⟩ := h
  obtain ⟨i, owner, hfind, hget⟩ := Mounts.find_point hparts hmount hpoint
  rw [holds_eq kind .nil hfind hget]
  exact hx.top _

variable (ms) in
theorem holds_root (hx : x.Holds kind) : ms.find root = none ∨ ms.holds kind [] = some .dir := by
  rcases found_cases ms .nil with hfind | ⟨i, rest, mount, hrest, hfind, hget⟩
  · exact .inl hfind
  · obtain ⟨_, mparts, rest', -, -, -, heq, hrel⟩ := Mounts.find_join .nil hfind
    obtain ⟨-, rfl⟩ := List.append_eq_nil_iff.mp heq.symm
    obtain rfl := join_injective hrest .nil hrel
    exact .inr ((holds_eq kind hrest hfind hget).trans (hx.top _))

/-- A path that has come to be entered leads on, to what is known there. -/
theorem leads_of_enterable (hx : x.Holds kind) (who : Who) (hroot : o.isDir root = true)
    (hprogram : o.program root = none) (hbefore : Folded before) (hpart : Plain part)
    (henter : ∀ up last, before = up ++ [last] → Enterable o ms kind up last)
    (hknown : Known o ms kind before part) :
    Leads who o ms kind before part := by
  have hself : o.program (join before) = none ∧ deviceOf (join before) = none := by
    rcases List.eq_nil_or_concat before with rfl | ⟨up, last, heq⟩
    · exact ⟨hprogram, by decide⟩
    · rw [List.concat_eq_append] at heq
      have := henter up last heq
      rw [heq]
      exact ⟨this.program, this.device⟩
  refine ⟨hself.1, hself.2, ?_⟩
  by_cases hvirtual : part ∈ (virtualEntries o ms (join before)).map Prod.fst
  swap
  · -- Only the mount has it, which the path then lies in.
    have hmount : (∀ who, procNode who (join before) = none) ∧ (ms.beside kind before part).isSome := by
      have hnot := fun h => hvirtual ((mem_virtualEntries hbefore hpart).mpr h)
      rcases hknown with h | h | h | h | h
      · exact absurd (.inl h) hnot
      · exact absurd (isDir_virtual hbefore hpart h) hvirtual
      · exact absurd (.inr (.inr (.inl h))) hnot
      · exact absurd (.inr (.inr (.inr h))) hnot
      · exact h
    exact .inr ⟨hmount.1 who, .inl ⟨beside_parent hx hbefore hmount.2, .inl hmount.2⟩⟩
  rcases List.eq_nil_or_concat before with rfl | ⟨up, last, heq⟩
  · refine .inr ⟨rfl, ?_⟩
    rcases holds_root ms hx with hfind | hdir
    · exact .inr ⟨hvirtual, .inr ⟨hfind, .inl hroot⟩⟩
    · exact .inl ⟨hdir, .inr hvirtual⟩
  rw [List.concat_eq_append] at heq
  subst heq
  have henterable := henter up last rfl
  cases hproc : procNode who (join (up ++ [last])) with
  | some node => exact .inl ⟨congrArg some (henterable.proc who node hproc), hvirtual⟩
  | none =>
    refine .inr ⟨rfl, ?_⟩
    have hlast : Plain last := hbefore.right last List.mem_cons_self
    by_cases hpoint : ∃ mount ∈ ms.list, mount.point = join (up ++ [last])
    · exact .inl ⟨holds_point hx hbefore hpoint, .inr hvirtual⟩
    rcases henterable.there with hdir | h | ⟨-, hdir | ⟨-, hall⟩⟩
    · exact .inr ⟨hvirtual, .inl ⟨by simp, hdir⟩⟩
    · exact absurd h hpoint
    · have hholds := holds_child kind hbefore.left hlast fun mount hmount heq => hpoint ⟨mount, hmount, heq⟩
      exact .inl ⟨hholds.trans hdir, .inr hvirtual⟩
    · have := hall who
      rw [hproc] at this
      cases this

theorem Enterable.known (h : Enterable o ms kind before part) : Known o ms kind before part := by
  rcases h.there with hdir | hpoint | ⟨hproc, hdir | ⟨hthere, -⟩⟩
  · exact .inr (.inl hdir)
  · exact .inr (.inr (.inr (.inl hpoint)))
  · exact .inr (.inr (.inr (.inr ⟨hproc, by rw [hdir]; rfl⟩)))
  · exact .inr (.inr (.inr (.inr ⟨hproc, hthere⟩)))

theorem Charted.enterable {parts rest : List Text} (h : Charted o ms kind parts) (hrest : rest ≠ [])
    (heq : parts = before ++ part :: rest) : Enterable o ms kind before part :=
  (h before part rest heq).2.1 hrest

theorem folded_split {parts rest : List Text} (hparts : Folded parts) (heq : parts = before ++ part :: rest) :
    Folded before ∧ Plain part := by
  subst heq
  exact ⟨hparts.left, hparts.right part List.mem_cons_self⟩

theorem folded_snoc (hbefore : Folded before) (hpart : Plain part) : Folded (before ++ [part]) :=
  hbefore.append fun c hc => by rwa [List.mem_singleton.mp hc]

theorem Charted.clear (hx : x.Holds kind) (m : Machine) {parts rest : List Text} (hparts : Folded parts)
    (h : Charted o ms kind parts) (heq : parts = before ++ part :: rest) : Clear x m before := by
  intro done last later hbefore
  have hsplit : parts = done ++ last :: (later ++ part :: rest) := by
    rw [heq, hbefore, List.append_assoc, List.cons_append]
  have hlast := folded_split hparts hsplit
  exact hx.unlinked (folded_snoc hlast.1 hlast.2) ((h.enterable (by simp) hsplit).link m.view.who)

theorem reachable_of_charted (hx : x.Holds kind) (programs : List (Text × ProgramId)) (w : W)
    {parts : List Text} (hparts : Folded parts) (h : Charted (.new programs) ms kind parts) :
    Reachable x (.new programs) ms w parts := by
  intro m ho hms before part rest heq
  obtain ⟨hbefore, hpart⟩ := folded_split hparts heq
  have henter : ∀ up last, before = up ++ [last] → Enterable (.new programs) ms kind up last := by
    intro up last hup
    have hsplit : parts = up ++ last :: part :: rest := by
      rw [heq, hup, List.append_assoc, List.singleton_append]
    exact h.enterable (by simp) hsplit
  have hshort : (join before).length ≤ Mem.maxStr := by
    rcases List.eq_nil_or_concat before with rfl | ⟨up, last, hup⟩
    · decide
    · rw [List.concat_eq_append] at hup
      rw [hup]
      exact (henter up last hup).short
  have hknown : Known (.new programs) ms kind before part := by
    by_cases hrest : rest = []
    · exact (h before part rest heq).2.2 hrest
    · exact (h.enterable hrest heq).known
  have hleads := leads_of_enterable hx m.view.who (isDir_new programs).1
    (h before part rest heq).1 hbefore hpart henter hknown
  rw [opensListing_iff hx hbefore hpart (h.clear hx m hparts heq), ho, hms]
  exact ⟨hshort, hleads⟩

def Machine.amid (o : Overlay) (ms : Mounts) (who : Who) : Machine :=
  ⟨{ (default : Ctx) with task := { (default : Task) with cwd := who.cwd, exe := who.exe, pid := who.pid } },
    { (Config.bare []).shared 0 with overlay := o, mounts := ms }, default⟩

theorem Reachable.opens {w : W} {parts rest : List Text} (h : Reachable x o ms w parts) (who : Who)
    (heq : parts = before ++ part :: rest) :
    OpensListing x (openedAt (join before)) (Machine.amid o ms who, w) part :=
  h (Machine.amid o ms who) rfl rfl before part rest heq

/-- On a path along which every listing leads on, no component is a link: by
induction on how many come before it, since up to it the path is then clear. -/
theorem Reachable.unlinked (hx : x.Holds kind) {w : W} {parts : List Text} (hparts : Folded parts)
    (h : Reachable x o ms w parts) (n : ℕ) : ∀ before part rest, before.length = n → rest ≠ [] →
      parts = before ++ part :: rest → ∀ who, virtualLink who (join (before ++ [part])) = none := by
  induction n using Nat.strong_induction_on with
  | h n ih =>
    intro before part rest hlength hrest heq who
    by_contra hlink
    obtain ⟨target, htarget⟩ := Option.ne_none_iff_exists'.mp hlink
    obtain ⟨who', target', hastray, hlink'⟩ := virtualLink_astray htarget
    obtain ⟨next, later, rfl⟩ := List.exists_cons_of_ne_nil hrest
    obtain ⟨hbefore, hpart⟩ := folded_split hparts heq
    have hnext : parts = (before ++ [part]) ++ next :: later := by
      rw [heq, List.append_assoc, List.singleton_append]
    have hclear : Clear x (Machine.amid o ms who') before := by
      intro done last between hsplit
      have hdone : parts = done ++ last :: (between ++ part :: next :: later) := by
        rw [heq, hsplit, List.append_assoc, List.cons_append]
      have hshorter : done.length < n := by
        rw [← hlength, hsplit, List.length_append, List.length_cons]
        omega
      have hlast := folded_split hparts hdone
      exact hx.unlinked (folded_snoc hlast.1 hlast.2)
        (ih done.length hshorter done last _ rfl (by simp) hdone who')
    exact not_opensListing_link hx (folded_snoc hbefore hpart)
      (folded_split hparts hnext).2 hclear hastray hlink'
      (h.opens who' hnext)

theorem Reachable.leads (hx : x.Holds kind) {w : W} {parts rest : List Text} (hparts : Folded parts)
    (h : Reachable x o ms w parts) (heq : parts = before ++ part :: rest) (who : Who) :
    (join before).length ≤ Mem.maxStr ∧ Leads who o ms kind before part := by
  obtain ⟨hbefore, hpart⟩ := folded_split hparts heq
  have hclear : Clear x (Machine.amid o ms who) before := by
    intro done last between hsplit
    have hdone : parts = done ++ last :: (between ++ part :: rest) := by
      rw [heq, hsplit, List.append_assoc, List.cons_append]
    have hlast := folded_split hparts hdone
    exact hx.unlinked (folded_snoc hlast.1 hlast.2)
      (h.unlinked hx hparts done.length done last _ rfl (by simp) hdone who)
  exact (opensListing_iff hx hbefore hpart hclear).mp (h.opens who heq)

theorem beside_of_leads (h : ∀ who, Leads who o ms kind before part)
    (hvirtual : part ∉ (virtualEntries o ms (join before)).map Prod.fst) :
    (∀ who, procNode who (join before) = none) ∧ (ms.beside kind before part).isSome := by
  have hmount : ∀ who, procNode who (join before) = none ∧ (ms.beside kind before part).isSome := by
    intro who
    rcases (h who).dir with ⟨-, hin⟩ | ⟨hproc, ⟨-, hthere | hin⟩ | ⟨hin, -⟩⟩
    · exact absurd hin hvirtual
    · exact ⟨hproc, hthere⟩
    · exact absurd hin hvirtual
    · exact absurd hin hvirtual
  exact ⟨fun who => (hmount who).1, (hmount ⟨[], [], 0⟩).2⟩

theorem known_of_leads (hbefore : Folded before) (hpart : Plain part)
    (h : ∀ who, Leads who o ms kind before part) :
    Known o ms kind before part := by
  by_cases hvirtual : part ∈ (virtualEntries o ms (join before)).map Prod.fst
  · rcases (mem_virtualEntries hbefore hpart).mp hvirtual with hprogram | hdir | hgenerated | hpoint
    · exact .inl hprogram
    · exact .inr (.inl (by simp [Overlay.isDir, hdir]))
    · exact .inr (.inr (.inl hgenerated))
    · exact .inr (.inr (.inr (.inl hpoint)))
  · exact .inr (.inr (.inr (.inr (beside_of_leads h hvirtual))))

/-- What is listed of the kernel's own and leads on is a directory of the
overlay or a mount point. -/
theorem dir_of_virtual {programs : List (Text × ProgramId)} (hbefore : Folded before) (hpart : Plain part)
    (hlink : ∀ who, virtualLink who (join (before ++ [part])) = none) {next : Text}
    (hon : ∀ who, Leads who (.new programs) ms kind (before ++ [part]) next)
    (hvirtual : part ∈ (virtualEntries (.new programs) ms (join before)).map Prod.fst) :
    (Overlay.new programs).isDir (join (before ++ [part])) = true ∨
      ∃ mount ∈ ms.list, mount.point = join (before ++ [part]) := by
  rcases (mem_virtualEntries hbefore hpart).mp hvirtual with ⟨id, hprogram⟩ | hdir | hgenerated | hpoint
  · have := program_of_mem hprogram
    rw [(hon ⟨[], [], 0⟩).program] at this
    cases this
  · exact .inl (by simp [Overlay.isDir, hdir])
  · rcases generated_cases hbefore hgenerated with hdevice | ⟨who, hlinked⟩ | ⟨who, hsynth⟩ | hself | hfd
    · rw [(hon ⟨[], [], 0⟩).device] at hdevice
      cases hdevice
    · rw [hlink who] at hlinked
      cases hlinked
    · rcases (hon who).dir with ⟨hdir, -⟩ | ⟨hnone, -⟩
      · cases hsynth.symm.trans hdir
      · cases hsynth.symm.trans hnone
    · exact .inl (hself ▸ (isDir_new programs).2)
    · exact .inl (by simp [Overlay.isDir, hfd])
  · exact .inr hpoint

theorem enterable_of_leads {programs : List (Text × ProgramId)} (hbefore : Folded before)
    (hpart : Plain part) (hshort : (join (before ++ [part])).length ≤ Mem.maxStr)
    (hlink : ∀ who, virtualLink who (join (before ++ [part])) = none)
    (hup : ∀ who, Leads who (.new programs) ms kind before part) {next : Text}
    (hon : ∀ who, Leads who (.new programs) ms kind (before ++ [part]) next) :
    Enterable (.new programs) ms kind before part := by
  refine ⟨hshort, (hon ⟨[], [], 0⟩).program, (hon ⟨[], [], 0⟩).device, hlink, ?_, ?_⟩
  · intro who node hnode
    rcases (hon who).dir with ⟨hdir, -⟩ | ⟨hnone, -⟩
    · exact Option.some.inj (hnode.symm.trans hdir)
    · cases hnode.symm.trans hnone
  by_cases hvirtual : part ∈ (virtualEntries (.new programs) ms (join before)).map Prod.fst
  · rcases dir_of_virtual hbefore hpart hlink hon hvirtual with hdir | hpoint
    · exact .inl hdir
    · exact .inr (.inl hpoint)
  by_cases hpoint : ∃ mount ∈ ms.list, mount.point = join (before ++ [part])
  · exact .inr (.inl hpoint)
  by_cases hdir : (Overlay.new programs).isDir (join (before ++ [part])) = true
  · exact .inl hdir
  obtain ⟨hproc, hthere⟩ := beside_of_leads hup hvirtual
  refine .inr (.inr ⟨hproc, ?_⟩)
  by_cases hall : ∀ who, (procNode who (join (before ++ [part]))).isSome
  · exact .inr ⟨hthere, hall⟩
  -- Some process finds the directory in the mount, where every process finds its parent.
  obtain ⟨who, hwho⟩ := not_forall.mp hall
  have hnone : procNode who (join (before ++ [part])) = none := by simpa using hwho
  have hpoints : ∀ mount ∈ ms.list, mount.point ≠ join (before ++ [part]) := fun mount hmount heq =>
    hpoint ⟨mount, hmount, heq⟩
  have hfound : ms.find (join (before ++ [part])) ≠ none := by
    rcases Mounts.find_child hbefore hpart hpoints with ⟨i, rest, -, -, hdown⟩ | ⟨hnowhere, -⟩
    · rw [hdown]
      simp
    · simp [Mounts.beside, hnowhere] at hthere
  rcases (hon who).dir with ⟨hsome, -⟩ | ⟨-, ⟨hholds, -⟩ | ⟨-, ⟨-, hdir'⟩ | ⟨hnowhere, -⟩⟩⟩
  · cases hnone.symm.trans hsome
  · rw [holds_child kind hbefore hpart hpoints] at hholds
    exact .inl hholds
  · exact absurd hdir' hdir
  · exact absurd hnowhere hfound

theorem charted_of_reachable (hx : x.Holds kind) (programs : List (Text × ProgramId)) {w : W}
    {parts : List Text} (hparts : Folded parts) (h : Reachable x (.new programs) ms w parts) :
    Charted (.new programs) ms kind parts := by
  intro before part rest heq
  obtain ⟨hbefore, hpart⟩ := folded_split hparts heq
  have hleads := fun who => (h.leads hx hparts heq who).2
  refine ⟨?_, fun hrest => ?_, fun _ => known_of_leads hbefore hpart hleads⟩
  · have hne : parts ≠ [] := by simp [heq]
    obtain ⟨first, more, hfirst⟩ := List.exists_cons_of_ne_nil hne
    have hroot : parts = [] ++ first :: more := hfirst
    exact (h.leads hx hparts hroot ⟨[], [], 0⟩).2.program
  · obtain ⟨next, later, rfl⟩ := List.exists_cons_of_ne_nil hrest
    have hnext : parts = (before ++ [part]) ++ next :: later := by
      rw [heq, List.append_assoc, List.singleton_append]
    exact enterable_of_leads hbefore hpart (h.leads hx hparts hnext ⟨[], [], 0⟩).1
      (h.unlinked hx hparts before.length before part _ rfl hrest heq) hleads fun who =>
      (h.leads hx hparts hnext who).2

/-- Exactly when a configured path is come to from the root: every component
before its last leads on, and there is something of its name. -/
theorem namespace_reachable_iff (hx : x.Holds kind) (programs : List (Text × ProgramId)) (ms : Mounts)
    (path : Text) (w : W) :
    Reachable x (.new programs) ms w (normalize root path) ↔
    Charted (.new programs) ms kind (normalize root path) :=
  ⟨charted_of_reachable hx programs (folded_normalize root path),
    reachable_of_charted hx programs w (folded_normalize root path)⟩

end

/-- Mounts that are empty directories. -/
def Env.hollow : Env Unit :=
  { Env.still Unit with
    vfs := fun _ call w => match call with
      | .stat path _ => (if path = root then .ok .dir else .error .noent, w)
      | .readdir _ => (.ok [], w)
      | _ => (.error .noent, w) }

theorem holds_hollow : Env.hollow.Holds fun _ parts => if parts = [] then some .dir else none where
  top vfs := by simp
  parent vfs parts name h := by simp at h
  linkless vfs parts := by
    by_cases h : parts = []
    · simp [h]
    · simp [h]
  found vfs parts follow w t hparts h := by
    by_cases hnil : parts = []
    · subst hnil
      obtain rfl : FileType.dir = t := by simpa using h
      exact ⟨.dir, rfl, rfl⟩
    · simp [hnil] at h
  missing vfs parts follow w hparts h := by
    have hne : parts ≠ [] := fun hnil => by simp [hnil] at h
    exact if_neg ((join_ne_root hparts).mpr hne)
  listed vfs parts w hparts h := ⟨[], rfl, fun name => by simp⟩

def Mounts.deep : Mounts := ⟨[⟨ascii "/a/b", 0, false⟩], by simp, by decide⟩

theorem namespace_reachable_iff_hollow :
    Reachable Env.hollow (.new [(ascii "/bin/sh", 0)]) .deep () (normalize root (ascii "/bin/sh")) ↔
      Charted (.new [(ascii "/bin/sh", 0)]) .deep (fun _ parts => if parts = [] then some .dir else none)
        (normalize root (ascii "/bin/sh")) :=
  namespace_reachable_iff holds_hollow [(ascii "/bin/sh", 0)] .deep (ascii "/bin/sh") ()

/-- The root does not list the directory above a mount point. -/
theorem deep_mount_unreachable :
    ¬ Reachable Env.hollow (.new [(ascii "/bin/sh", 0)]) .deep () (normalize root (ascii "/a/b")) := by
  intro h
  have hsplit : normalize root (ascii "/a/b") = [] ++ ascii "a" :: [ascii "b"] := by decide
  have hleads := (h.leads holds_hollow (folded_normalize root (ascii "/a/b")) hsplit ⟨[], [], 0⟩).2
  have hlisted : ascii "a" ∉ (virtualEntries (.new [(ascii "/bin/sh", 0)]) .deep root).map Prod.fst := by
    decide
  have hmount : (Mounts.deep.beside (fun _ parts =>
      if parts = [] then some .dir else none) [] (ascii "a")).isSome = false := by
    decide
  rcases hleads.dir with ⟨-, hin⟩ | ⟨-, ⟨-, hthere | hin⟩ | ⟨hin, -⟩⟩
  · exact hlisted hin
  · cases hmount.symm.trans hthere
  · exact hlisted hin
  · exact hlisted hin

end Wasmux
