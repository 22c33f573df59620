import Wasmux.Accounts
import Wasmux.Kernel

/-!
# What every description is like

A property of descriptions that says something of open files alone, and of a
file only how it was opened, holds of every description once it holds of what
`openat` makes and of what new flags make of an old one.
-/

set_option autoImplicit false

namespace Wasmux
open Effects Abi

/-- `P` says something of open files alone, and of a file nothing but its flags. -/
structure Desc.AboutFiles (P : Desc → Prop) : Prop where
  other : ∀ d, (∀ file i closed, d.kind ≠ .file file i closed) → P d
  same : ∀ d e, e.flags = d.flags →
    (∀ file i closed, e.kind = .file file i closed → d.kind = .file file i closed) →
    P d → P e

def Slab.Every (P : Desc → Prop) (descs : Slab Desc) : Prop := ∀ key d, descs.get key = some d → P d

namespace Slab.Every
variable {P : Desc → Prop} {descs : Slab Desc}

theorem modify (h : descs.Every P) (key : DescKey) {f : Desc → Desc}
    (hf : ∀ d, descs.get key = some d → P d → P (f d)) : (descs.modify key f).Every P := by
  intro k d hd
  rw [Slab.get_modify] at hd
  split at hd
  · subst_vars
    obtain ⟨e, he, rfl⟩ := Option.map_eq_some_iff.mp hd
    exact hf e he (h _ e he)
  · exact h k d hd

theorem remove (h : descs.Every P) (key : DescKey) : (descs.remove key).2.Every P := by
  intro k d hd
  rw [Slab.get_remove] at hd
  split at hd
  · cases hd
  · exact h k d hd

theorem insert (h : descs.Every P) {desc : Desc} {cap : ℕ} {key : DescKey} {descs' : Slab Desc}
    (hins : descs.insert desc cap = some (key, descs')) (hdesc : P desc) : descs'.Every P := by
  obtain ⟨-, hnew, hold⟩ := Slab.insert_spec hins
  intro k d hd
  by_cases hk : k = key
  · subst hk
    obtain rfl := Option.some.inj (hnew.symm.trans hd)
    exact hdesc
  · exact h k d ((hold k hk).symm.trans hd)

end Slab.Every

abbrev Shared.Has (Q : Slab Desc → Slab Pipe → Prop) (sh : Shared) : Prop := Q sh.descs sh.pipes

/-- A description whose position is set. -/
def Desc.movedTo (pos : ℕ) (d : Desc) : Desc :=
  { d with kind := match d.kind with
      | .dir entries _ => .dir entries pos
      | .memory data _ => .memory data pos
      | kind => kind }

/-- `Q` bears what is done to the descriptions and pipes there are: references
are counted, positions move, and descriptions go. -/
structure Hardy (Q : Slab Desc → Slab Pipe → Prop) : Prop where
  recount : ∀ {descs pipes} key (f : Desc → ℕ), Q descs pipes →
    Q (descs.modify key fun d => { d with refs := f d }) pipes
  moved : ∀ {descs pipes} key pos, Q descs pipes → Q (descs.modify key (Desc.movedTo pos)) pipes
  dropped : ∀ {sh : Shared} {key d}, sh.Has Q → sh.descs.get key = some d →
    (({ sh with descs := (sh.descs.remove key).2 } : Shared).dropDesc d).2.Has Q

structure Sturdy (Q : Slab Desc → Slab Pipe → Prop) : Prop extends Hardy Q where
  piped : ∀ {descs pipes pipes' cap pipe}, Q descs pipes → pipes.insert Pipe.new cap = some (pipe, pipes') →
    Q descs pipes' ∧ ∀ {flags cap key descs'},
      descs.insert (Machine.pipeDesc (.pipeRead pipe) oRdonly flags) cap = some (key, descs') →
      Q descs' pipes' ∧
      ∀ {cap key descs''},
        descs'.insert (Machine.pipeDesc (.pipeWrite pipe) oWronly flags) cap = some (key, descs'') →
        Q descs'' pipes'

theorem Shared.setExit_pipes (sh : Shared) (pid status : ℤ) : (sh.setExit pid status).pipes = sh.pipes := by
  unfold setExit
  dsimp only
  split <;> rfl

namespace Hardy
variable {Q : Slab Desc → Slab Pipe → Prop} {sh : Shared} {m : Machine}

section
variable (hQ : Hardy Q)
include hQ

theorem releaseDesc (h : sh.Has Q) (key : DescKey) : (sh.releaseDesc key).2.Has Q := by
  have hless : Q (sh.descs.modify key fun d => { d with refs := d.refs - 1 }) sh.pipes := hQ.recount key _ h
  unfold Shared.releaseDesc
  split
  · exact h
  · rename_i d hd
    dsimp only
    split
    · exact hless
    · have hget : (sh.descs.modify key fun d => { d with refs := d.refs - 1 }).get key =
          some { d with refs := d.refs - 1 } := by
        rw [Slab.get_modify_self, hd]
        rfl
      split
      · rename_i d' descs hr
        have hremoved := (Slab.remove_get _ key).symm.trans (congrArg Prod.fst hr)
        obtain rfl := Option.some.inj (hget.symm.trans hremoved)
        have hfewer : ({ sh with descs := sh.descs.modify key fun d => { d with refs := d.refs - 1 } } :
          Shared).Has Q := hless
        have hdropped := hQ.dropped hfewer hget
        rwa [hr] at hdropped
      · exact hless

theorem releaseAll (h : sh.Has Q) (keys : List DescKey) : (sh.releaseAll keys).2.Has Q := by
  induction keys generalizing sh with
  | nil => exact h
  | cons key keys ih => exact ih (hQ.releaseDesc h key)

theorem releaseFds (h : sh.Has Q) (table : FdTable) : (sh.releaseFds table).2.Has Q := hQ.releaseAll h _

theorem addRef (h : sh.Has Q) (key : DescKey) : (sh.addRef key).Has Q := hQ.recount key _ h

theorem duplicate (h : sh.Has Q) (table : FdTable) : (sh.duplicate table).Has Q := by
  unfold Shared.duplicate
  generalize table.keys = keys
  induction keys generalizing sh with
  | nil => exact h
  | cons key keys ih => exact ih (hQ.addRef h key)

omit hQ in
theorem setExit (h : sh.Has Q) (pid status : ℤ) : (sh.setExit pid status).Has Q := by
  unfold Shared.Has
  rw [Shared.setExit_descs, Shared.setExit_pipes]
  exact h

theorem killChildren (h : sh.Has Q) (status : ℤ) (stack : List Task) (task : Task) :
    (Kernel.killChildren status stack task sh).2.2.Has Q := by
  induction stack generalizing task sh with
  | nil => exact h
  | cons parent stack ih => exact ih (setExit (hQ.releaseFds h task.fds) task.pid status) parent

theorem openDesc (h : m.shared.Has Q) {kind : OpenKind} {path : Text} {flags : ℕ}
    (hnew : ∀ {cap key descs}, m.shared.descs.insert (.new kind path flags) cap = some (key, descs) →
      Q descs m.shared.pipes)
    (cloexec : Bool) : (m.openDesc kind path flags cloexec).2.shared.Has Q := by
  unfold Machine.openDesc
  split
  · exact h
  · rename_i key descs hins
    dsimp only
    split
    · exact hnew hins
    · have hmore : ({ m.shared with descs := descs } : Shared).Has Q := hnew hins
      exact hQ.releaseDesc hmore key

theorem dup (h : m.shared.Has Q) (fd : ℤ) (cloexec : Bool) (min : ℕ) :
    (m.dup fd cloexec min).2.shared.Has Q := by
  unfold Machine.dup
  split
  · exact h
  · dsimp only
    split <;> exact hQ.addRef h _

theorem dupTo (h : m.shared.Has Q) (fd target : ℤ) (cloexec : Bool) :
    (m.dupTo fd target cloexec).2.shared.Has Q := by
  unfold Machine.dupTo
  split
  · exact h
  · dsimp only
    split
    · exact hQ.addRef h _
    · exact hQ.addRef h _
    · exact hQ.releaseDesc (hQ.addRef h _) _

theorem close (h : m.shared.Has Q) (fd : ℤ) : (m.close fd).2.shared.Has Q := by
  unfold Machine.close
  split
  · exact h
  · exact hQ.releaseDesc h _

theorem fork (h : m.shared.Has Q) : m.fork.2.shared.Has Q := by
  unfold Machine.fork
  split
  · exact h
  · rename_i pid shared hfork
    obtain ⟨-, table, rfl⟩ := Shared.forkRecord_eq hfork
    have h' : ({ m.shared with nextPid := satAddI32 m.shared.nextPid 1, table := table } : Shared).Has Q := h
    exact hQ.duplicate h' _

theorem vforkExit (h : m.shared.Has Q) (status : ℤ) : (m.vforkExit status).2.shared.Has Q := by
  unfold Machine.vforkExit
  split
  · exact h
  · exact setExit (hQ.releaseFds h _) _ _

theorem finishExec (h : m.shared.Has Q) (program : ProgramId) (exe : Text) (argv envp : List Bytes) :
    (m.finishExec program exe argv envp).2.shared.Has Q := by
  unfold Machine.finishExec
  dsimp only
  split <;> exact hQ.releaseAll h _

/-- What a handler does on the kernel's own state keeps `Q`, if `Q` bears what it
opens, what it gives other flags, the pipes it makes, and what goes through them. -/
theorem act (h : m.shared.Has Q) {a : Act}
    (hopen : ∀ kind path flags cloexec, a = .openDesc kind path flags cloexec → ∀ {cap key descs},
      m.shared.descs.insert (.new kind path flags) cap = some (key, descs) → Q descs m.shared.pipes)
    (hflags : ∀ key flags, a = .setDescFlags key flags →
      Q (m.shared.descs.modify key fun d => { d with flags := flags }) m.shared.pipes)
    (hpipe : ∀ flags, a = .pipe2 flags → (m.pipe2 flags).2.shared.Has Q)
    (htake : ∀ key count, a = .pipeTake key count →
      Q m.shared.descs (m.shared.pipes.modify key fun p => { p with data := p.data.drop count }))
    (hput : ∀ key data, a = .pipePut key data →
      Q m.shared.descs (m.shared.pipes.modify key fun p => { p with data := p.data ++ data })) :
      (a.exec m).2.shared.Has Q := by
  cases a with
  | openDesc kind path flags cloexec => exact hQ.openDesc h (hopen kind path flags cloexec rfl) cloexec
  | dup fd cloexec min => exact hQ.dup h fd cloexec min
  | dupTo fd target cloexec => exact hQ.dupTo h fd target cloexec
  | close fd => exact hQ.close h fd
  | pipe2 flags => exact hpipe flags rfl
  | fork => exact hQ.fork h
  | vforkExit status => exact hQ.vforkExit h status
  | finishExec program exe argv envp => exact hQ.finishExec h program exe argv envp
  | setDescFlags key flags => exact hflags key flags rfl
  | setDescPos key pos => exact hQ.moved key pos h
  | pipeTake key count => exact htake key count rfl
  | pipePut key data => exact hput key data rfl
  | put start data =>
    simp only [Act.exec]
    split <;> exact h
  | setCloexec fd on =>
    simp only [Act.exec]
    split <;> exact h
  | charge bytes =>
    simp only [Act.exec, Shared.chargeMemory, Machine.shared_setShared]
    split <;> exact h
  | writeOutput which data =>
    simp only [Act.exec, Shared.writeOutput, Machine.shared_setShared]
    split <;> exact h
  | _ => exact h

theorem kact {k : Kernel} (h : k.shared.Has Q) (a : KAct) : (a.exec k).2.shared.Has Q := by
  cases a with
  | finishProcess index status =>
    simp only [KAct.exec, Kernel.finishProcess]
    split
    · exact h
    · rename_i p _
      have h' : (k.shared.releaseMemory (satAddU64 p.charged p.ctx.exec.grown)).Has Q := h
      exact setExit (hQ.releaseFds (hQ.killChildren h' _ _ _) _) _ _
  | abandonSpawn =>
    rcases hspawn : k.shared.spawn with _ | ⟨spawn, rest⟩
    · simpa only [KAct.exec, hspawn] using h
    · simp only [KAct.exec, hspawn]
      have h' : ({ k.shared with spawn := rest } : Shared).Has Q := h
      exact setExit (hQ.releaseFds h' _) _ _
  | abandonExec index =>
    rcases hreq : (k.procs[index]?).bind fun p => p.ctx.execRequest with _ | spawn
    · simpa only [KAct.exec, hreq] using h
    · simp only [KAct.exec, hreq]
      exact setExit (hQ.releaseFds h _) _ _
  | attach index =>
    simp only [KAct.exec]
    repeat' split
    all_goals exact h
  | charge bytes =>
    simp only [KAct.exec, Shared.chargeMemory]
    split <;> exact h
  | launchSpawn launch =>
    simp only [KAct.exec]
    split <;> exact h
  | releaseInstance index =>
    simp only [KAct.exec]
    split <;> exact h
  | restoreJmp index buf value =>
    simp only [KAct.exec]
    repeat' split
    all_goals exact h
  | trapMessage index kind =>
    simp only [KAct.exec]
    split <;> exact h
  | whyIdle =>
    simp only [KAct.exec, Kernel.whyIdle]
    repeat' split
    all_goals exact h
  | _ => exact h

end

end Hardy

namespace Sturdy
variable {Q : Slab Desc → Slab Pipe → Prop} {sh : Shared} {m : Machine}

section
variable (hQ : Sturdy Q)
include hQ

theorem pipe2 (h : m.shared.Has Q) (flags : ℕ) : (m.pipe2 flags).2.shared.Has Q := by
  unfold Machine.pipe2
  dsimp only
  split
  · exact h
  rename_i pipe pipes hpipe
  obtain ⟨hmade, hread⟩ := hQ.piped h hpipe
  split
  · exact hmade
  rename_i readDesc descs hins
  obtain ⟨hfirst, hwrite⟩ := hread hins
  split
  · exact hfirst
  rename_i writeDesc descs' hins'
  have hsecond := hwrite hins'
  split
  · exact hsecond
  split
  · exact hsecond
  split
  · exact hsecond
  · have hsecond' : ({ m.shared with descs := descs', pipes := pipes } : Shared).Has Q := hsecond
    exact hQ.releaseDesc hsecond' _

theorem act (h : m.shared.Has Q) {a : Act}
    (hopen : ∀ kind path flags cloexec, a = .openDesc kind path flags cloexec → ∀ {cap key descs},
      m.shared.descs.insert (.new kind path flags) cap = some (key, descs) → Q descs m.shared.pipes)
    (hflags : ∀ key flags, a = .setDescFlags key flags →
      Q (m.shared.descs.modify key fun d => { d with flags := flags }) m.shared.pipes)
    (htake : ∀ key count, a = .pipeTake key count →
      Q m.shared.descs (m.shared.pipes.modify key fun p => { p with data := p.data.drop count }))
    (hput : ∀ key data, a = .pipePut key data →
      Q m.shared.descs (m.shared.pipes.modify key fun p => { p with data := p.data ++ data })) :
      (a.exec m).2.shared.Has Q :=
  hQ.toHardy.act h hopen hflags (fun flags _ => hQ.pipe2 h flags) htake hput

end

/-- A session starts with its standard streams and without a pipe. -/
theorem kernel {c : Config} {started : Instant} {k : Kernel} (hk : c.kernel started = some k)
    (hempty : Q .new .new) (hstdio : ∀ d ∈ Config.stdio, ∀ {descs cap key descs'}, Q descs .new →
      descs.insert d cap = some (key, descs') → Q descs' .new) : k.shared.Has Q := by
  have hadd : ∀ {list : List Desc} {fds fds' : FdTable} {sh sh' : Shared}, (∀ d ∈ list, d ∈ Config.stdio) →
      Q sh.descs .new → sh.pipes = .new → Config.addStdio list fds sh = some (fds', sh') → sh'.Has Q := by
    intro list
    induction list with
    | nil =>
      intro fds fds' sh sh' _ h hpipes hadd
      obtain ⟨-, rfl⟩ : fds = fds' ∧ sh = sh' := by simpa [Config.addStdio] using hadd
      unfold Shared.Has
      rwa [hpipes]
    | cons desc rest ih =>
      intro fds fds' sh sh' hlist h hpipes hadd
      unfold Config.addStdio at hadd
      split at hadd
      · cases hadd
      · rename_i key descs hins
        have hmore : Q descs .new := hstdio desc (hlist desc List.mem_cons_self) h hins
        have hpipes' : ({ sh with descs := descs } : Shared).pipes = .new := hpipes
        exact ih (fun d hd => hlist d (List.mem_cons_of_mem desc hd)) hmore hpipes' hadd
  unfold Config.kernel at hk
  dsimp only at hk
  split at hk
  · cases hk
  · rename_i fds sh hstdio'
    obtain rfl := Option.some.inj hk
    have hfinal : sh.Has Q := hadd (fun d hd => hd) hempty rfl hstdio'
    exact hfinal

end Sturdy

/-! ## Properties of every description -/

section
variable {P : Desc → Prop}

theorem sturdy_every (hP : Desc.AboutFiles P) : Sturdy fun descs _ => descs.Every P where
  recount key f h := h.modify key fun d _ => hP.same d _ rfl fun _ _ _ hkind => hkind
  moved key pos h := by
    apply h.modify key
    intro d _
    apply hP.same
    · rfl
    · intro file i closed hkind
      dsimp only [Desc.movedTo] at hkind
      split at hkind
      · cases hkind
      · cases hkind
      · exact hkind
  dropped {sh key d} h _ := by
    unfold Shared.Has
    rw [Shared.dropDesc_descs]
    exact Slab.Every.remove h key
  piped {descs pipes pipes' cap pipe} h _ := by
    have hnew : ∀ kind access flags, kind.pipe = some pipe → P (Machine.pipeDesc kind access flags) := by
      intro kind access flags hkind
      apply hP.other
      rintro file i closed rfl
      cases hkind
    refine ⟨h, fun hread => ?_⟩
    have hfirst := Slab.Every.insert h hread (hnew _ _ _ rfl)
    exact ⟨hfirst, fun hwrite => hfirst.insert hwrite (hnew _ _ _ rfl)⟩

end

namespace Slab.Every
variable {P : Desc → Prop} (hP : Desc.AboutFiles P)
include hP

theorem act {m : Machine} (h : m.shared.descs.Every P) {a : Act}
    (hopen : ∀ kind path flags cloexec, a = .openDesc kind path flags cloexec → P (.new kind path flags))
    (hflags : ∀ key flags, a = .setDescFlags key flags → ∀ d, m.shared.descs.get key = some d → P d →
      P { d with flags := flags }) : (a.exec m).2.shared.descs.Every P := by
  apply (sturdy_every hP).act h
  · intro kind path flags cloexec ha cap key descs hins
    exact h.insert hins (hopen kind path flags cloexec ha)
  · exact fun key flags ha => h.modify key (hflags key flags ha)
  · exact fun _ _ _ => h
  · exact fun _ _ _ => h

theorem kact {k : Kernel} (h : k.shared.descs.Every P) (a : KAct) : (a.exec k).2.shared.descs.Every P :=
  (sturdy_every hP).kact h a

theorem kernel {c : Config} {started : Instant} {k : Kernel} (hk : c.kernel started = some k) :
    k.shared.descs.Every P := by
  apply Sturdy.kernel (Q := fun descs _ => descs.Every P) hk
  · exact fun key d hd => by cases hd
  · intro d hd descs cap key descs' h hins
    apply Slab.Every.insert h hins
    apply hP.other
    intro file i closed hkind
    simp only [Config.stdio, List.mem_cons, List.not_mem_nil, or_false] at hd
    rcases hd with rfl | rfl | rfl <;> cases hkind

end Slab.Every
end Wasmux
