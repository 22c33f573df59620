import Wasmux.Shadows

/-!
# The paths a process keeps

A working directory, an open directory and the path of a program are kept as
the guest path of the node they were resolved to, and resolved again later.
Such a path is one on which nothing is a link.
-/

set_option autoImplicit false

namespace Wasmux
open Effects Abi

def Node.stored : Node → Option Text
  | .program _ guest | .mounted _ _ guest | .virtualDir guest => some guest
  | _ => none

/-- Where a path of a call leads, and what the world is after looking. -/
def Machine.Leads {W : Type} (x : Env W) (m : Machine) (w : W) (dirfd : ℤ) (path : Text) (follow : Bool)
    (node : Node) (w' : W) : Prop :=
  ∃ base, resolveBase m.view dirfd path = .ok base ∧
    (Resolver.resolve m.view base path follow).run (exec x) (m, w) = (.ok node, (m, w'))

/-- Two machines in which a process sees the same names: it may have another
working directory, or run another program. -/
structure Machine.SameNames (m m' : Machine) : Prop where
  overlay : m'.shared.overlay = m.shared.overlay
  mounts : m'.shared.mounts = m.shared.mounts
  pid : m'.ctx.task.pid = m.ctx.task.pid

theorem splitOn_append_sep {α : Type} [DecidableEq α] (s : α) (l r : List α) :
    (l ++ s :: r).splitOn s = l.splitOn s ++ r.splitOn s := by
  induction l with
  | nil => simp [List.splitOn_cons_eq_if_modifyHead]
  | cons a l ih =>
    obtain ⟨head, rest, hsplit⟩ := List.exists_cons_of_ne_nil (List.splitOn_ne_nil s l)
    rw [List.cons_append, List.splitOn_cons_eq_if_modifyHead, List.splitOn_cons_eq_if_modifyHead, ih, hsplit]
    split <;> rfl

theorem normalize_below {guest rest : Text} (hguest : startsWithSlash guest = true)
    (hrest : startsWithSlash rest = false) (base : Text) :
    normalize guest rest = normalize base (guest ++ root ++ rest) := by
  have hwhole : startsWithSlash (guest ++ root ++ rest) = true := by
    cases guest with
    | nil => cases hguest
    | cons c guest => exact hguest
  have hsplit : (guest ++ root ++ rest).splitOn slash = guest.splitOn slash ++ rest.splitOn slash := by
    rw [List.append_assoc]
    exact splitOn_append_sep slash guest rest
  simp only [normalize, hrest, hwhole, hsplit, if_true, Bool.false_eq_true, if_false, List.foldl_append]

theorem virtualLink_none {who who' : Who} (hpid : who'.pid = who.pid) {guest : Text}
    (h : virtualLink who guest = none) : virtualLink who' guest = none := by
  unfold virtualLink at h ⊢
  rw [hpid]
  dsimp only at h ⊢
  split at h
  · cases h
  rename_i hexe
  split at h
  · cases h
  rename_i hcwd
  rw [if_neg hexe, if_neg hcwd]
  exact h

theorem procNode_congr {who who' : Who} (hpid : who'.pid = who.pid) (guest : Text) :
    procNode who' guest = procNode who guest := by
  unfold procNode procRest
  rw [hpid]

section
variable {W : Type} {x : Env W} {m m' : Machine} {here guest : Text} {node : Node}

theorem Machine.SameNames.refl (m : Machine) : m.SameNames m := ⟨rfl, rfl, rfl⟩

theorem Unlinked.same (h : Unlinked x m here) (hsame : m.SameNames m') : Unlinked x m' here := by
  refine ⟨virtualLink_none hsame.pid h.kernel, ?_⟩
  rw [hsame.overlay, hsame.mounts]
  exact h.mounts

theorem Clear.same {parts : List Text} (h : Clear x m parts) (hsame : m.SameNames m') : Clear x m' parts :=
  fun done part later heq => (h done part later heq).same hsame

theorem classifyFinal_same (hsame : m.SameNames m') (guest : Text) :
    Resolver.classifyFinal m'.view guest = Resolver.classifyFinal m.view guest := by
  have hproc : procNode m'.view.who guest = procNode m.view.who guest := procNode_congr hsame.pid guest
  unfold Resolver.classifyFinal
  rw [hproc, Machine.view_overlay, Machine.view_mounts, hsame.overlay, hsame.mounts]
  rfl

theorem run_asking_same {ε α : Type} {p : Program sig ε α} (hp : p.Only fun o => ∃ c, o = Op.env c)
    (hmounts : m'.shared.mounts = m.shared.mounts) (w : W) :
    p.run (exec x) (m', w) = ((p.run (exec x) (m, w)).1, (m', (p.run (exec x) (m, w)).2.2)) := by
  induction p generalizing w with
  | ret a => rfl
  | fail e => rfl
  | call o k ih =>
    obtain ⟨⟨c, rfl⟩, hrest⟩ := hp
    change (k (c.answer x m'.shared.mounts w).1).run (exec x) (m', (c.answer x m'.shared.mounts w).2) = _
    rw [hmounts]
    exact ih _ (hrest _) _

theorem run_resolve_eq (dirfd : ℤ) (path : Text) (follow : Bool) (w : W) :
    (resolve dirfd path follow).run (exec x) (m, w) = ((lift (resolveBase m.view dirfd path) >>= fun base =>
      (Resolver.resolve m.view base path follow).catching >>= orVfsFault :
        Handler Node)).run (exec x) (m, w) := rfl

/-- A call goes on with the node its path leads to. -/
theorem run_resolve_iff {dirfd : ℤ} {path : Text} {follow : Bool} {w : W} {t : Machine × W} :
    (resolve dirfd path follow).run (exec x) (m, w) = (.ok node, t) ↔
      ∃ w', t = (m, w') ∧ m.Leads x w dirfd path follow node w' := by
  rw [run_resolve_eq]
  unfold Machine.Leads
  cases resolveBase m.view dirfd path with
  | error e =>
    constructor
    · intro h
      cases h
    · rintro ⟨_, _, _, h, _⟩
      cases h
  | ok base =>
    obtain ⟨w', hrun⟩ := run_asking (only_resolve m.view base path follow) (x := x) m w
    generalize ((Resolver.resolve m.view base path follow).run (exec x) (m, w)).1 = r at hrun
    rw [lift_ok, Program.ret_bind, Program.run_bind, Program.run_catching, hrun]
    cases r with
    | error e =>
      constructor
      · intro h
        dsimp only [orVfsFault, vfsFault] at h
        split at h <;> cases h
      · rintro ⟨_, _, base', hbase, h⟩
        obtain rfl := Except.ok.inj hbase
        rw [hrun] at h
        cases h
    | ok found =>
      constructor
      · intro h
        obtain ⟨hnode, rfl⟩ : found = node ∧ (m, w') = t := by simpa [orVfsFault] using h
        exact ⟨w', rfl, base, rfl, hnode ▸ hrun⟩
      · rintro ⟨w'', rfl, base', hbase, h⟩
        obtain rfl := Except.ok.inj hbase
        exact congrArg (fun r : Except Errno Node × (Machine × W) => (r.1.mapError Fault.errno, r.2))
          (hrun.symm.trans h)

/-- What a path is classified as is kept by that path, if by any. -/
theorem stored_of_classify {w : W} {g : Text}
    (h : ((Resolver.classifyFinal m.view guest).run (exec x) (m, w)).1 = .ok node)
    (hg : node.stored = some g) :
    g = guest := by
  have only : ∀ found : Node, (.ok found : Except Errno Node) = .ok node →
    (∀ g, found.stored = some g → g = guest) →
      g = guest := by
    intro found heq hfound
    obtain rfl := Except.ok.inj heq
    exact hfound g hg
  have here : ∀ found : Node, found.stored = some guest → ∀ g, found.stored = some g → g = guest := by
    intro found hfound g hg
    exact Option.some.inj (hg.symm.trans hfound)
  have none : ∀ found : Node, found.stored = none → ∀ g, found.stored = some g → g = guest := by
    intro found hfound g hg
    rw [hfound] at hg
    cases hg
  unfold Resolver.classifyFinal at h
  split at h
  · exact only _ h (here _ rfl)
  split at h
  · exact only _ h (none _ rfl)
  split at h
  · rename_i found hproc
    rcases procNode_cases hproc with ⟨n, rfl⟩ | rfl | rfl
    · exact only _ h (none _ rfl)
    · exact only _ h (none _ rfl)
    · exact only _ h (here _ rfl)
  split at h
  · split at h
    · rw [run_ask] at h
      split at h
      · split at h
        · exact only _ h (here _ rfl)
        · exact only _ h (here _ rfl)
      · split at h
        · cases h
        · exact only _ h (here _ rfl)
    · exact only _ h (here _ rfl)
  · split at h
    · exact only _ h (here _ rfl)
    · cases h

/-- Mounts that stand still classify a path as they did before. -/
theorem classify_settled (hstill : x.Unchanging) (guest : Text) (w w' : W) :
    ((Resolver.classifyFinal m.view guest).run (exec x) (m, w)).1 =
      ((Resolver.classifyFinal m.view guest).run (exec x) (m, w')).1 := by
  unfold Resolver.classifyFinal
  split
  · rfl
  split
  · rfl
  split
  · rfl
  split
  · rename_i i rel hfind
    split
    · obtain ⟨mount, -, hget, -⟩ := Mounts.findFrom_eq_some hfind
      have hat : m.shared.mounts.get i = some mount := hget
      have hstat := hstill.stat mount.vfs rel true w w'
      rw [run_ask, run_ask, answer_vfs hat, answer_vfs hat, ← hstat]
      generalize (x.vfs mount.vfs (.stat rel true) w).1 = answer
      cases answer with
      | ok stat =>
        dsimp only
        split <;> rfl
      | error e =>
        dsimp only
        split <;> rfl
    · rfl
  · split <;> rfl

/-- A path that is kept is one on which nothing is a link. -/
theorem clear_of_stored (hstill : x.Unchanging) {base path g : Text} {w : W} {t : Machine × W}
    (h : (Resolver.resolve m.view base path true).run (exec x) (m, w) = (.ok node, t))
    (hg : node.stored = some g) :
    ∃ parts, g = join parts ∧ Folded parts ∧ Clear x m parts ∧
      ∀ w, ((Resolver.classifyFinal m.view g).run (exec x) (m, w)).1 = .ok node := by
  have hresult := congrArg Prod.fst h
  unfold Resolver.resolve at hresult
  split at hresult
  · cases hresult
  have hlink : ∀ target, node ≠ .virtualLink target := by
    rintro target rfl
    cases hg
  refine walk_ends hstill hlink true ?_ ?_ maxHops _ (folded_normalize base path) w hresult
  · intro parts w' hfolded hclear hclass
    obtain rfl := stored_of_classify hclass hg
    exact ⟨parts, rfl, hfolded, hclear, fun w => (classify_settled hstill _ w w').trans hclass⟩
  · intro hfollow
    cases hfollow

/-- A path that is kept leads to the same node again, whatever it is resolved
against, and a name below it to what the path written out leads to. -/
theorem resolution_canonical (hstill : x.Unchanging) (hsame : m.SameNames m') {base path g : Text} {w : W}
    {t : Machine × W} (h : (Resolver.resolve m.view base path true).run (exec x) (m, w) = (.ok node, t))
    (hg : node.stored = some g) :
    (g.length ≤ Mem.maxStr → ∀ base' follow w',
      ((Resolver.resolve m'.view base' g follow).run (exec x) (m', w')).1 = .ok node) ∧
    ∀ q, q ≠ [] → startsWithSlash q = false → q.length ≤ Mem.maxStr → (g ++ root ++ q).length ≤ Mem.maxStr →
      ∀ base' follow, Resolver.resolve m'.view g q follow = Resolver.resolve m'.view base' (g ++ root ++ q)
      follow := by
  obtain ⟨parts, rfl, hfolded, hclear, hclass⟩ := clear_of_stored hstill h hg
  constructor
  · intro hshort base' follow w'
    rw [Resolver.resolve, if_neg (Nat.not_lt.mpr hshort), normalize_join hfolded]
    refine walkFrom_clear follow _ [] _ (hclear.same hsame) (fun w => ?_) w'
    rw [classifyFinal_same hsame, List.nil_append]
    rw [run_asking_same (only_classifyFinal _ _) hsame.mounts]
    exact hclass w
  · intro q _ hq hshort hwhole base' follow
    rw [Resolver.resolve, Resolver.resolve, if_neg (Nat.not_lt.mpr hshort), if_neg (Nat.not_lt.mpr hwhole),
      normalize_below (startsWithSlash_join parts) hq base']

end

/-- The path that `/bin/0` leads to through a link. -/
theorem resolution_canonical_link :
    ((Resolver.resolve Config.oneMount.machine.view (ascii "/bin") (ascii "/x/0") false).run
      (exec Env.linkedBin)
      (Config.oneMount.machine, ())).1 = .ok (.mounted 0 (ascii "/x/0") (ascii "/x/0")) := by
  have hstill : Env.linkedBin.Unchanging := ⟨fun _ _ _ _ _ => rfl, fun _ _ _ _ => rfl⟩
  have hresult : ((Resolver.resolve Config.oneMount.machine.view root (ascii "/bin/0") true).run
    (exec Env.linkedBin)
      (Config.oneMount.machine, ())).1 = .ok (.mounted 0 (ascii "/x/0") (ascii "/x/0")) := by decide
  have hrun := Prod.ext (y := (_, _)) hresult rfl
  exact (resolution_canonical hstill (.refl _) hrun rfl).1 (by decide) (ascii "/bin") false ()

end Wasmux
