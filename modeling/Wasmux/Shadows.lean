import Wasmux.Canonical
import Wasmux.Resolve
import Wasmux.Session

/-!
# What shadows the mounts

A program or a device is what its path names as long as no component above it
is a link: one of the kernel's own, or one that a mount has there.
-/

set_option autoImplicit false

namespace Wasmux
open Effects Abi

section
variable {W : Type} (x : Env W)

/-- The content of the mounts does not depend on when it is looked at. -/
def Env.Still (x : Env W) : Prop := ∀ vfs call w w', (x.vfs vfs call w).1 = (x.vfs vfs call w').1

/-- What the mounts say of their names does not depend on when they are asked. -/
structure Env.Unchanging (x : Env W) : Prop where
  stat : ∀ vfs rel follow w w', (x.vfs vfs (.stat rel follow) w).1 = (x.vfs vfs (.stat rel follow) w').1
  readlink : ∀ vfs rel w w', (x.vfs vfs (.readlink rel) w).1 = (x.vfs vfs (.readlink rel) w').1

theorem Env.Still.unchanging {x : Env W} (h : x.Still) : x.Unchanging :=
  ⟨fun vfs rel follow => h vfs (.stat rel follow), fun vfs rel => h vfs (.readlink rel)⟩

/-- A mount that has no link at `rel`, and is ready to say so. -/
def NoLink (vfs : ℕ) (rel : Text) (w : W) : Prop :=
  match x.vfs vfs (.stat rel false) w with
  | (.error e, _) => e ≠ .again
  | (.ok stat, w') => stat.fileType = .symlink → ∃ e, (x.vfs vfs (.readlink rel) w').1 = .error e ∧ e ≠ .again

/-- Neither the kernel nor a mount has a link at `here`. -/
structure Unlinked (m : Machine) (here : Text) : Prop where
  kernel : virtualLink m.view.who here = none
  mounts : m.shared.overlay.program here = none → deviceOf here = none → ∀ i rel mount,
    m.shared.mounts.find here = some (i, rel) → m.shared.mounts.get i = some mount →
    x.hasSymlinks mount.vfs = true → ∀ w, NoLink x mount.vfs rel w

variable {x} {m : Machine} {here : Text}

theorem run_ask {ε α : Type} (c : EnvCall) (f : c.Ans → Program sig ε α) (m : Machine) (w : W) :
    (env c >>= f).run (exec x) (m, w) =
      (f (c.answer x m.shared.mounts w).1).run (exec x) (m, (c.answer x m.shared.mounts w).2) := rfl

theorem answer_vfs {mounts : Mounts} {i : ℕ} {mount : Mount} (h : mounts.get i = some mount)
    (call : VfsCall) (w : W) :
    (EnvCall.vfs i call).answer x mounts w = x.vfs mount.vfs call w := by
  simp only [EnvCall.answer, h]

theorem answer_hasSymlinks {mounts : Mounts} {i : ℕ} {mount : Mount} (h : mounts.get i = some mount) (w : W) :
    (EnvCall.hasSymlinks i).answer x mounts w = (x.hasSymlinks mount.vfs, w) := by
  simp [EnvCall.answer, h]

/-- The probe of a mount at `rel`. -/
def Resolver.probe (i : ℕ) (rel : Text) : Program sig Errno (Option Text) := do
  match ← env (.vfs i (.stat rel false)) with
  | .ok stat =>
    if stat.fileType = .symlink then
      match ← env (.vfs i (.readlink rel)) with
      | .ok target => .ret (some target)
      | .error e => if e = .again then .fail .again else .ret none
    else .ret none
  | .error e => if e = .again then .fail .again else .ret none

/-- A probe finds nothing exactly when there is no link. -/
theorem probe_none_iff {i : ℕ} {mount : Mount} (h : m.shared.mounts.get i = some mount) (rel : Text) (w : W) :
    ((Resolver.probe i rel).run (exec x) (m, w)).1 = .ok none ↔ NoLink x mount.vfs rel w := by
  unfold Resolver.probe NoLink
  rw [run_ask, answer_vfs h]
  rcases x.vfs mount.vfs (.stat rel false) w with ⟨e | stat, w'⟩
  · dsimp only
    split
    · simp_all
    · simp_all
  · dsimp only
    split
    · rename_i hlink
      rw [run_ask, answer_vfs h]
      rcases x.vfs mount.vfs (.readlink rel) w' with ⟨e | target, w''⟩
      · dsimp only
        split
        · simp_all
        · simp_all
      · simp [hlink]
    · simp_all

theorem run_asking {ε α : Type} {p : Program sig ε α} (hp : p.Only fun o => ∃ c, o = Op.env c)
    (m : Machine) (w : W) :
    ∃ w', p.run (exec x) (m, w) = ((p.run (exec x) (m, w)).1, (m, w')) := by
  have hfinal : (p.final (exec x) (m, w)).1 = m := by
    refine hp.final_keeps (exec x) (P := fun s => s.1 = m) ?_ rfl
    rintro _ s ⟨c, rfl⟩ hs
    exact hs
  exact ⟨(p.final (exec x) (m, w)).2, Prod.ext rfl (Prod.ext hfinal rfl)⟩

theorem only_ask {ε α : Type} (c : EnvCall) {f : c.Ans → Program sig ε α}
    (hf : ∀ a, (f a).Only fun o => ∃ c, o = Op.env c) :
    (env c >>= f).Only fun o => ∃ c, o = Op.env c := ⟨⟨c, rfl⟩, hf⟩

theorem only_probe (i : ℕ) (rel : Text) : (Resolver.probe i rel).Only fun o => ∃ c, o = Op.env c := by
  apply only_ask
  rintro (e | stat)
  · dsimp only
    split <;> trivial
  · dsimp only
    split
    · apply only_ask
      rintro (e | target)
      · dsimp only
        split <;> trivial
      · trivial
    · trivial

theorem only_symlinkTarget (v : View) (here : Text) :
    (Resolver.symlinkTarget v here).Only fun o => ∃ c, o = Op.env c := by
  unfold Resolver.symlinkTarget
  split
  · trivial
  split
  · trivial
  split
  · trivial
  · apply only_ask
    intro links
    split
    · exact only_probe _ _
    · trivial

theorem only_classifyFinal (v : View) (guest : Text) :
    (Resolver.classifyFinal v guest).Only fun o => ∃ c, o = Op.env c := by
  unfold Resolver.classifyFinal
  repeat' split
  any_goals trivial
  apply only_ask
  rintro (e | stat)
  · dsimp only
    split <;> trivial
  · dsimp only
    split <;> trivial

theorem only_walkFrom (v : View) (follow : Bool) {restart : List Text → Program sig Errno Node}
    (hrestart : ∀ parts, (restart parts).Only fun o => ∃ c, o = Op.env c) (before parts : List Text) :
    (Resolver.walkFrom v follow restart before parts).Only fun o => ∃ c, o = Op.env c := by
  induction parts generalizing before with
  | nil => exact only_classifyFinal v _
  | cons part rest ih =>
    unfold Resolver.walkFrom
    dsimp only
    split
    · apply Program.only_bind (only_symlinkTarget v _)
      rintro (_ | target)
      · exact ih _
      · exact hrestart _
    · split
      · trivial
      · exact ih _

theorem only_walk (v : View) (follow : Bool) (hops : ℕ) (parts : List Text) :
    (Resolver.walk v follow hops parts).Only fun o => ∃ c, o = Op.env c := by
  induction hops generalizing parts with
  | zero =>
    apply only_walkFrom v follow
    exact fun _ => trivial
  | succ hops ih => exact only_walkFrom v follow ih _ _

theorem only_resolve (v : View) (base path : Text) (follow : Bool) :
    (Resolver.resolve v base path follow).Only fun o => ∃ c, o = Op.env c := by
  unfold Resolver.resolve
  split
  · trivial
  · exact only_walk v follow _ _

/-- Looking for a link where there is none finds none. -/
theorem run_symlinkTarget (h : Unlinked x m here) (w : W) :
    ((Resolver.symlinkTarget m.view here).run (exec x) (m, w)).1 = .ok none := by
  unfold Resolver.symlinkTarget
  rw [h.kernel]
  dsimp only
  split
  · rfl
  rename_i hshadow
  obtain ⟨hprogram, hdevice⟩ : m.shared.overlay.program here = none ∧ deviceOf here = none := by
    simpa using hshadow
  split
  · rfl
  rename_i i rel hfind
  obtain ⟨mount, hget⟩ : ∃ mount, m.shared.mounts.get i = some mount := by
    obtain ⟨mount, -, hat, -⟩ := Mounts.findFrom_eq_some hfind
    exact ⟨mount, hat⟩
  rw [run_ask, answer_hasSymlinks hget]
  dsimp only
  split
  · rename_i hlinks
    exact (probe_none_iff hget rel w).mpr (h.mounts hprogram hdevice i rel mount hfind hget hlinks w)
  · rfl

/-- Finding no link says that there is none, if the mounts stand still. -/
theorem unlinked_of_none (hstill : x.Unchanging) {w : W}
    (h : ((Resolver.symlinkTarget m.view here).run (exec x) (m, w)).1 = .ok none) : Unlinked x m here := by
  unfold Resolver.symlinkTarget at h
  split at h
  · cases h
  rename_i hkernel
  refine ⟨hkernel, ?_⟩
  intro hprogram hdevice i rel mount hfind hget hlinks w'
  have hshadow : ¬ ((m.view.overlay.program here).isSome ∨ (deviceOf here).isSome) := by
    simp [hprogram, hdevice]
  rw [if_neg hshadow, Machine.view_mounts, hfind] at h
  dsimp only at h
  rw [run_ask, answer_hasSymlinks hget, if_pos hlinks] at h
  have hnone := (probe_none_iff hget rel w).mp h
  unfold NoLink at hnone ⊢
  have hstat := hstill.stat mount.vfs rel false w w'
  rcases hs : x.vfs mount.vfs (.stat rel false) w with ⟨e | stat, w₁⟩
  · rcases hs' : x.vfs mount.vfs (.stat rel false) w' with ⟨e' | stat', w₂⟩
    · simp_all
    · simp_all
  · rcases hs' : x.vfs mount.vfs (.stat rel false) w' with ⟨e' | stat', w₂⟩
    · simp_all
    · have hread := hstill.readlink mount.vfs rel w₁ w₂
      rw [hs, hs'] at hstat
      rw [hs] at hnone
      obtain rfl : stat = stat' := by simpa using hstat
      dsimp only at hnone ⊢
      rwa [← hread]

inductive Shown (m : Machine) (guest : Text) : Node → Prop
  | program (id : ProgramId) : m.shared.overlay.program guest = some id → Shown m guest (.program id guest)
  | device (d : Device) : m.shared.overlay.program guest = none → deviceOf guest = some d →
      Shown m guest (.device d)

def Clear (x : Env W) (m : Machine) (parts : List Text) : Prop :=
  ∀ done part later, parts = done ++ part :: later → Unlinked x m (join (done ++ [part]))

theorem Shown.unlinked {guest : Text} {node : Node} (h : Shown m guest node)
    (hkernel : virtualLink m.view.who guest = none) :
    Unlinked x m guest := by
  refine ⟨hkernel, fun hprogram hdevice => ?_⟩
  cases h with
  | program id hid => rw [hprogram] at hid; cases hid
  | device d _ hd => rw [hdevice] at hd; cases hd

theorem classify_shown {guest : Text} {node : Node} (h : Shown m guest node) :
    Resolver.classifyFinal m.view guest = .ret node := by
  unfold Resolver.classifyFinal
  cases h with
  | program id hid => simp [hid]
  | device d hprogram hd => simp [hprogram, hd]

theorem deviceOf_ne_fd {guest : Text} {d : Device} (h : deviceOf guest = some d) (n : ℤ) : d ≠ .fd n := by
  unfold deviceOf at h
  rintro rfl
  repeat' split at h
  all_goals cases h

theorem procNode_cases {who : Who} {guest : Text} {node : Node} (h : procNode who guest = some node) :
    (∃ n, node = .device (.fd n)) ∨ node = .synth guest ∨ node = .virtualDir guest := by
  obtain ⟨rest, -, h⟩ := Option.bind_eq_some_iff.mp h
  dsimp only at h
  split at h
  · exact .inr (.inr (Option.some.inj h).symm)
  split at h
  · obtain ⟨n, -, h⟩ := Option.bind_eq_some_iff.mp h
    exact .inl ⟨n, (Option.some.inj h).symm⟩
  split at h
  · exact .inr (.inl (Option.some.inj h).symm)
  split at h
  · exact .inr (.inr (Option.some.inj h).symm)
  · cases h

/-- A program, or one of the devices that are not descriptors. -/
def Node.isKernels : Node → Bool
  | .program _ _ => true
  | .device (.fd _) => false
  | .device _ => true
  | _ => false

/-- What a mount or a made-up directory is classified as is none of these. -/
theorem shown_of_classify {guest : Text} {node : Node} {w : W} (hnode : node.isKernels = true)
    (h : ((Resolver.classifyFinal m.view guest).run (exec x) (m, w)).1 = .ok node) : Shown m guest node := by
  have no : ∀ found : Node, found.isKernels = false → (.ok found : Except Errno Node) ≠ .ok node := by
    intro found hfound heq
    obtain rfl := by simpa using heq
    rw [hfound] at hnode
    cases hnode
  unfold Resolver.classifyFinal at h
  split at h
  · rename_i id hid
    obtain rfl : Node.program id guest = node := by simpa using h
    exact .program id hid
  rename_i hprogram
  split at h
  · rename_i d hd
    obtain rfl : Node.device d = node := by simpa using h
    exact .device d hprogram hd
  split at h
  · rename_i found hproc
    rcases procNode_cases hproc with ⟨n, rfl⟩ | rfl | rfl
    · exact absurd h (no _ rfl)
    · exact absurd h (no _ rfl)
    · exact absurd h (no _ rfl)
  split at h
  · split at h
    · rw [run_ask] at h
      split at h
      · split at h
        · exact absurd h (no _ rfl)
        · exact absurd h (no _ rfl)
      · split at h
        · cases h
        · exact absurd h (no _ rfl)
    · exact absurd h (no _ rfl)
  · split at h
    · exact absurd h (no _ rfl)
    · cases h

/-- The walk over a path on which nothing is a link. -/
theorem walkFrom_clear {node : Node} (follow : Bool) (restart : List Text → Program sig Errno Node)
    (before parts : List Text) (hclear : ∀ done part later, parts = done ++ part :: later →
      Unlinked x m (join (before ++ done ++ [part])))
    (hclass : ∀ w, ((Resolver.classifyFinal m.view (join (before ++ parts))).run (exec x) (m, w)).1 =
      .ok node) (w : W) :
    ((Resolver.walkFrom m.view follow restart before parts).run (exec x) (m, w)).1 = .ok node := by
  induction parts generalizing before w with
  | nil =>
    rw [List.append_nil] at hclass
    rw [Resolver.walkFrom]
    exact hclass w
  | cons part parts ih =>
    have hhere : Unlinked x m (join (before ++ [part])) := by simpa using hclear [] part parts rfl
    have hrest : ∀ w, ((Resolver.walkFrom m.view follow restart (before ++ [part]) parts).run
      (exec x) (m, w)).1 =
        .ok node := by
      intro w
      apply ih
      · intro done next later heq
        have := hclear (part :: done) next later (by rw [heq]; rfl)
        simpa using this
      · simpa using hclass
    rw [Resolver.walkFrom]
    split
    · obtain ⟨w', hrun⟩ := run_asking (only_symlinkTarget m.view (join (before ++ [part]))) (x := x) m w
      rw [run_symlinkTarget hhere] at hrun
      rw [Program.run_bind_ok _ hrun]
      exact hrest w'
    · rw [hhere.kernel]
      exact hrest w

theorem Clear.concat {before : List Text} {part : Text} (h : Clear x m before)
    (hhere : Unlinked x m (join (before ++ [part]))) : Clear x m (before ++ [part]) := by
  intro done next later heq
  rcases List.eq_nil_or_concat later with rfl | ⟨rest, last, rfl⟩
  · have hsame : before ++ [part] = done ++ [next] := heq
    rwa [hsame] at hhere
  · rw [List.concat_eq_append, ← List.cons_append, ← List.append_assoc] at heq
    obtain ⟨hbefore, -⟩ := List.append_inj' heq rfl
    exact h done next rest hbefore

/-- Where a walk that comes to this node can have ended, if the mounts stand
still: past a path on which nothing is a link, the last component aside where
that was not looked at. -/
theorem walkFrom_ends (hstill : x.Unchanging) {node : Node} (hnode : ∀ target, node ≠ .virtualLink target)
    {follow : Bool} {P : Prop}
    (hend : ∀ parts w, Folded parts → Clear x m parts →
      ((Resolver.classifyFinal m.view (join parts)).run (exec x) (m, w)).1 = .ok node → P)
    (hlast : follow = false → ∀ before part w, Folded (before ++ [part]) → Clear x m before →
      virtualLink m.view.who (join (before ++ [part])) = none →
      ((Resolver.classifyFinal m.view (join (before ++ [part]))).run (exec x) (m, w)).1 = .ok node → P)
    {restart : List Text → Program sig Errno Node}
    (hrestart : ∀ parts w, Folded parts → ((restart parts).run (exec x) (m, w)).1 = .ok node → P)
    (before parts : List Text) (hfolded : Folded (before ++ parts)) (hclear : Clear x m before) (w : W)
    (h : ((Resolver.walkFrom m.view follow restart before parts).run (exec x) (m, w)).1 = .ok node) : P := by
  induction parts generalizing before w with
  | nil =>
    rw [List.append_nil] at hfolded
    exact hend before w hfolded hclear h
  | cons part parts ih =>
    have hnext : Folded (before ++ [part] ++ parts) := by simpa using hfolded
    rw [Resolver.walkFrom] at h
    split at h
    · obtain ⟨w', hrun⟩ := run_asking (only_symlinkTarget m.view (join (before ++ [part]))) (x := x) m w
      rcases hfound : ((Resolver.symlinkTarget m.view (join (before ++ [part]))).run (exec x) (m, w)).1 with
      e | target
      · rw [hfound] at hrun
        rw [Program.run_bind_error _ hrun] at h
        cases h
      rw [hfound] at hrun
      rw [Program.run_bind_ok _ hrun] at h
      cases target with
      | none => exact ih (before ++ [part]) hnext (hclear.concat (unlinked_of_none hstill hfound)) w' h
      | some target =>
        refine hrestart _ w' ?_ h
        exact (folded_normalize _ _).append (hnext.right)
    · rename_i hpassed
      split at h
      · rename_i target _
        exact absurd (Except.ok.inj h).symm (hnode target)
      · rename_i hkernel
        obtain rfl : parts = [] := by
          by_contra hne
          exact hpassed (.inl hne)
        have hfollow : follow = false := by
          by_contra hne
          exact hpassed (.inr (by simpa using hne))
        exact hlast hfollow before part w (by simpa using hnext) hclear hkernel h

theorem walk_ends (hstill : x.Unchanging) {node : Node} (hnode : ∀ target, node ≠ .virtualLink target)
    (follow : Bool) {P : Prop}
    (hend : ∀ parts w, Folded parts → Clear x m parts →
      ((Resolver.classifyFinal m.view (join parts)).run (exec x) (m, w)).1 = .ok node → P)
    (hlast : follow = false → ∀ before part w, Folded (before ++ [part]) → Clear x m before →
      virtualLink m.view.who (join (before ++ [part])) = none →
      ((Resolver.classifyFinal m.view (join (before ++ [part]))).run (exec x) (m, w)).1 = .ok node → P)
    (hops : ℕ) (parts : List Text) (hfolded : Folded parts) (w : W)
    (h : ((Resolver.walk m.view follow hops parts).run (exec x) (m, w)).1 = .ok node) : P := by
  have hnil : Clear x m [] := fun done part later heq => by simp at heq
  induction hops generalizing parts w with
  | zero =>
    refine walkFrom_ends hstill hnode hend hlast ?_ [] parts hfolded hnil w h
    intro parts w _ hrun
    cases hrun
  | succ hops ih =>
    exact walkFrom_ends hstill hnode hend hlast (fun parts w hf => ih parts hf w) [] parts hfolded hnil w h

theorem clear_of_walk (hstill : x.Still) {node : Node} (hnode : node.isKernels = true)
    (follow : Bool) (hops : ℕ) (parts : List Text) (hfolded : Folded parts) (w : W)
    (h : ((Resolver.walk m.view follow hops parts).run (exec x) (m, w)).1 = .ok node) :
    ∃ parts', Folded parts' ∧ Clear x m parts' ∧ Shown m (join parts') node := by
  have hlink : ∀ target, node ≠ .virtualLink target := by
    rintro target rfl
    cases hnode
  refine walk_ends hstill.unchanging hlink follow ?_ ?_ hops parts hfolded w h
  · intro parts w hf hclear hclass
    exact ⟨parts, hf, hclear, shown_of_classify hnode hclass⟩
  · intro _ before part w hf hclear hkernel hclass
    have hshown := shown_of_classify hnode hclass
    exact ⟨_, hf, hclear.concat (hshown.unlinked hkernel), hshown⟩

def devicePaths : List Text :=
  ["/dev/null", "/dev/zero", "/dev/urandom", "/dev/random", "/dev/tty", "/dev/console"].map ascii

theorem device_mem {guest : Text} {d : Device} (h : deviceOf guest = some d) : guest ∈ devicePaths := by
  have six : ∀ name, name ∈ ["/dev/null", "/dev/zero", "/dev/urandom", "/dev/random", "/dev/tty",
    "/dev/console"] →
      ascii name ∈ devicePaths := fun name hname => List.mem_map_of_mem hname
  unfold deviceOf at h
  split at h
  · rename_i heq
    exact heq ▸ six "/dev/null" (by simp)
  split at h
  · rename_i heq
    exact heq ▸ six "/dev/zero" (by simp)
  split at h
  · rename_i heq
    rcases heq with heq | heq
    · exact heq ▸ six "/dev/urandom" (by simp)
    · exact heq ▸ six "/dev/random" (by simp)
  split at h
  · rename_i heq
    rcases heq with heq | heq
    · exact heq ▸ six "/dev/tty" (by simp)
    · exact heq ▸ six "/dev/console" (by simp)
  · cases h

theorem device_parts {guest : Text} (h : guest ∈ devicePaths) :
    ∃ name, normalize root guest = [ascii "dev", name] ∧ guest = join [ascii "dev", name] := by
  have hall : ∀ guest ∈ devicePaths, (normalize root guest).length = 2 ∧
      (normalize root guest).head? = some (ascii "dev") ∧ guest = join (normalize root guest) := by decide
  obtain ⟨hlen, hhead, hjoin⟩ := hall guest h
  obtain ⟨first, name, hparts⟩ := List.length_eq_two.mp hlen
  obtain rfl : first = ascii "dev" := by simpa [hparts] using hhead
  exact ⟨name, hparts, hparts ▸ hjoin⟩

/-- What a path is to the kernel, whatever the mounts hold. -/
inductive Claimed (m : Machine) (path : Text) : Node → Prop
  | program (id : ProgramId) : m.shared.overlay.program path = some id → Claimed m path (.program id path)
  | device (d : Device) : deviceOf path = some d → Claimed m path (.device d)

structure Shadowing (x : Env W) (m : Machine) (path : Text) (node : Node) : Prop where
  short : path.length ≤ Mem.maxStr
  folded : path = join (normalize root path)
  own : ∀ d, node = .device d → m.shared.overlay.program path = none
  clear : Clear x m (normalize root path)

theorem Shadowing.shown {path : Text} {node : Node} (h : Shadowing x m path node) (hc : Claimed m path node) :
    Shown m path node := by
  cases hc with
  | program id hid => exact .program id hid
  | device d hd => exact .device d (h.own d rfl) hd

theorem normalize_base {path : Text} (h : path = join (normalize root path)) (base : Text) :
    normalize base path = normalize root path := by
  rw [h, normalize_join (folded_normalize root path), normalize_join (folded_normalize root path)]

theorem resolve_shadowing {path : Text} {node : Node} (h : Shadowing x m path node) (hc : Claimed m path node)
    (base : Text) (follow : Bool) (w : W) :
    ((Resolver.resolve m.view base path follow).run (exec x) (m, w)).1 = .ok node := by
  have hclear : ∀ done part later, normalize root path = done ++ part :: later →
      Unlinked x m (join ([] ++ done ++ [part])) := h.clear
  have hshown : Shown m (join ([] ++ normalize root path)) node := by
    rw [List.nil_append, ← h.folded]
    exact h.shown hc
  rw [Resolver.resolve, if_neg (Nat.not_lt.mpr h.short), normalize_base h.folded]
  refine walkFrom_clear follow _ [] _ hclear (fun w => ?_) w
  rw [classify_shown hshown]
  rfl

theorem device_link {guest : Text} (h : guest ∈ devicePaths) (who : Who) : virtualLink who guest = none := by
  have hproc : ∀ rest, stripPrefix (ascii "/proc/" ++ rest) guest = none := by
    intro rest
    cases hstrip : stripPrefix (ascii "/proc/" ++ rest) guest with
    | none => rfl
    | some tail =>
      have hhead : ∀ guest ∈ devicePaths, guest[1]? = some 0x64 := by decide
      have hguest := hhead guest h
      rw [Mounts.stripPrefix_eq_some.mp hstrip] at hguest
      exact absurd hguest (by simp [ascii])
  have hself : stripPrefix (ascii "/proc/self") guest = none := hproc (ascii "self")
  have hstd : ∀ guest ∈ devicePaths, guest ≠ ascii "/dev/stdin" ∧ guest ≠ ascii "/dev/stdout" ∧
      guest ≠ ascii "/dev/stderr" := by decide
  obtain ⟨hin, hout, herr⟩ := hstd guest h
  simp [virtualLink, hself, hproc, hin, hout, herr]

theorem device_clear {guest : Text} {d : Device} (h : deviceOf guest = some d)
    (hdev : Unlinked x m (join [ascii "dev"])) : Clear x m (normalize root guest) := by
  obtain ⟨name, hname, hguest⟩ := device_parts (device_mem h)
  have hself : Unlinked x m guest :=
    ⟨device_link (device_mem h) _, fun _ hdevice => by rw [h] at hdevice; cases hdevice⟩
  intro done part later heq
  rw [hname] at heq
  rcases done with _ | ⟨first, done⟩
  · obtain ⟨rfl, -⟩ := List.cons.inj heq
    exact hdev
  · obtain ⟨rfl, heq⟩ := List.cons.inj heq
    obtain ⟨rfl, rfl, -⟩ : done = [] ∧ part = name ∧ later = [] := by
      rcases done with _ | ⟨second, done⟩
      · simpa [eq_comm] using heq
      · simp at heq
    rw [hguest] at hself
    exact hself

/-- A lookup that comes to what the kernel has at a path has met no link. -/
theorem shadowing_of_resolve (hstill : x.Still) {path : Text} {node : Node} (hc : Claimed m path node)
    {base : Text} {follow : Bool} {w : W}
    (h : ((Resolver.resolve m.view base path follow).run (exec x) (m, w)).1 = .ok node) :
    Shadowing x m path node := by
  have hnode : node.isKernels = true := by
    cases hc with
    | program id hid => rfl
    | device d hd =>
      cases d with
      | fd n => exact absurd rfl (deviceOf_ne_fd hd n)
      | _ => rfl
  have hrun := h
  unfold Resolver.resolve at h
  split at h
  · cases h
  rename_i hshort
  obtain ⟨parts, hfolded, hclear, hshown⟩ :=
    clear_of_walk hstill hnode follow maxHops _ (folded_normalize base path) w h
  have hparts : normalize root (join parts) = parts := normalize_join hfolded root
  cases hc with
  | program id hid =>
    obtain ⟨-, hpath⟩ : m.shared.overlay.program (join parts) = some id ∧ join parts = path := by
      cases hshown with
      | program id hid => exact ⟨hid, rfl⟩
    rw [hpath] at hparts
    refine ⟨Nat.le_of_not_lt hshort, ?_, ?_, ?_⟩
    · rw [hparts, hpath]
    · rintro d hd
      cases hd
    · rwa [hparts]
  | device d hd =>
    obtain ⟨hprogram, hd'⟩ : m.shared.overlay.program (join parts) = none ∧
        deviceOf (join parts) = some d := by
      cases hshown with
      | device d hprogram hd => exact ⟨hprogram, hd⟩
    obtain ⟨name, hname, -⟩ := device_parts (device_mem hd')
    have hdev : Unlinked x m (join [ascii "dev"]) := hclear [] (ascii "dev") [name] (hparts.symm.trans hname)
    obtain ⟨name', hname', hpath⟩ := device_parts (device_mem hd)
    have hfold : path = join (normalize root path) := by rw [hname', ← hpath]
    have hclear' : Clear x m (normalize root path) := device_clear hd hdev
    refine ⟨Nat.le_of_not_lt hshort, hfold, ?_, hclear'⟩
    intro d' _
    cases hid : m.shared.overlay.program path with
    | none => rfl
    | some id =>
      have hprogram : Shadowing x m path (.program id path) :=
        ⟨Nat.le_of_not_lt hshort, hfold, fun _ hd => (by cases hd), hclear'⟩
      have hfound := resolve_shadowing hprogram (.program id hid) base follow w
      rw [hrun] at hfound
      cases hfound

/-- Looking a program or a device up gives it if, and where the mounts stand
still only if, no component of its path is a link. -/
theorem shadows_iff {path : Text} {node : Node} (hc : Claimed m path node) (base : Text)
    (follow : Bool) (w : W) :
    (Shadowing x m path node →
      ((Resolver.resolve m.view base path follow).run (exec x) (m, w)).1 = .ok node) ∧
    (x.Still → ((Resolver.resolve m.view base path follow).run (exec x) (m, w)).1 = .ok node →
      Shadowing x m path node) :=
  ⟨fun h => resolve_shadowing h hc base follow w, fun hstill h => shadowing_of_resolve hstill hc h⟩

end

/-- A mount whose `/bin` is a link to its `/x`. -/
def Env.linkedBin : Env Unit :=
  { Env.still Unit with
    hasSymlinks := fun _ => true
    vfs := fun _ call w => match call with
      | .stat path _ => (.ok (if path = ascii "/bin" then .symlink 2 else .file 0), w)
      | .readlink _ => (.ok (ascii "/x"), w)
      | _ => (.error .noent, w) }

def Config.machine (c : Config) : Machine := ⟨default, c.shared 0, default⟩

theorem shadows_iff_null :
    (Shadowing Env.linkedBin Config.oneMount.machine (ascii "/dev/null") (.device .null) →
      ((Resolver.resolve Config.oneMount.machine.view root (ascii "/dev/null") true).run (exec Env.linkedBin)
        (Config.oneMount.machine, ())).1 = .ok (.device .null)) ∧
    (Env.linkedBin.Still →
      ((Resolver.resolve Config.oneMount.machine.view root (ascii "/dev/null") true).run (exec Env.linkedBin)
        (Config.oneMount.machine, ())).1 = .ok (.device .null) →
      Shadowing Env.linkedBin Config.oneMount.machine (ascii "/dev/null") (.device .null)) :=
  shadows_iff (.device .null (by decide)) root true ()

/-- A link at `/bin` takes the program's path into the mount. -/
theorem mount_shadows_program :
    Config.oneMount.machine.shared.overlay.program (ascii "/bin/0") = some 0 ∧
    ((Resolver.resolve Config.oneMount.machine.view root (ascii "/bin/0") true).run (exec Env.linkedBin)
      (Config.oneMount.machine, ())).1 = .ok (.mounted 0 (ascii "/x/0") (ascii "/x/0")) := by
  constructor
  · decide
  · decide

end Wasmux
