import Wasmux.Footprint
import Wasmux.Session

/-!
# References to open file descriptions

A description is counted by hand: `refs` is to be the number of descriptor
slots that name it, over the tables of every task in the kernel. Each operation
is shown to be a trade of counts against slots, with the ones that leak named.
-/

set_option autoImplicit false

namespace Wasmux
open Counting Effects

/-- How often each live description is counted. -/
def counts (descs : Slab Desc) : Ledger DescKey := fun k => (descs.get k).map Desc.refs

def queued (spawn : List Spawn) (k : DescKey) : ℕ := (spawn.map fun s => s.task.fds.holds k).sum

namespace Ctx

def below (stack : List Task) (k : DescKey) : ℕ := (stack.map fun t => t.fds.holds k).sum

def requested (request : Option Spawn) (k : DescKey) : ℕ := request.elim 0 fun s => s.task.fds.holds k

def held (c : Ctx) (k : DescKey) : ℕ :=
  c.task.fds.holds k + below c.vforkStack k + requested c.execRequest k

end Ctx

def Machine.held (m : Machine) (k : DescKey) : ℕ := m.ctx.held k + queued m.shared.spawn k

theorem counts_modify (descs : Slab Desc) (key : DescKey) (f : Desc → Desc)
    (hf : ∀ d, (f d).refs = d.refs) : counts (descs.modify key f) = counts descs := by
  funext k
  simp only [counts, Slab.get_modify]
  split
  · rcases descs.get k with _ | d <;> simp [hf]
  · rfl

theorem counts_insert {descs descs' : Slab Desc} {d : Desc} {cap : ℕ} {key : DescKey}
    (h : descs.insert d cap = some (key, descs')) (hd : d.refs = 1) :
    counts descs key = none ∧ counts descs' = fresh key (counts descs) := by
  obtain ⟨hfree, hkey, hother⟩ := Slab.insert_spec h
  refine ⟨by simp [counts, hfree], ?_⟩
  funext k
  by_cases hk : key = k
  · subst hk
    simp [counts, fresh, hkey, hd]
  · simp [counts, fresh, hk, hother k (Ne.symm hk)]

namespace Shared
variable {room leak : Prop} {need need' : Need DescKey}

theorem counts_addRef (sh : Shared) (key : DescKey) :
    counts (sh.addRef key).descs = take u32Max key (counts sh.descs) := by
  funext k
  simp only [counts, addRef, Slab.get_modify, take]
  by_cases hk : key = k
  · rcases sh.descs.get k with _ | d <;> simp [hk, satAddU32]
  · simp [hk]

theorem dropDesc_eq (sh : Shared) (d : Desc) :
    ∃ pipes, (sh.dropDesc d).2 = { sh with pipes := pipes } := by
  unfold dropDesc collectPipe
  split
  · exact ⟨_, rfl⟩
  · dsimp only
    split_ifs <;> exact ⟨_, rfl⟩
  · dsimp only
    split_ifs <;> exact ⟨_, rfl⟩
  · exact ⟨_, rfl⟩

@[simp] theorem dropDesc_descs (sh : Shared) (d : Desc) : (sh.dropDesc d).2.descs = sh.descs := by
  obtain ⟨pipes, h⟩ := sh.dropDesc_eq d
  rw [h]

theorem releaseDesc_eq (sh : Shared) (key : DescKey) :
    ∃ descs pipes, (sh.releaseDesc key).2 = { sh with descs := descs, pipes := pipes } := by
  unfold releaseDesc
  split
  · exact ⟨_, _, rfl⟩
  · dsimp only
    split
    · exact ⟨_, _, rfl⟩
    · split
      · rename_i d descs hr
        obtain ⟨pipes, h⟩ := dropDesc_eq { sh with descs := descs } d
        exact ⟨descs, pipes, h⟩
      · exact ⟨_, _, rfl⟩

theorem releaseAll_eq (keys : List DescKey) (sh : Shared) :
    ∃ descs pipes, (sh.releaseAll keys).2 = { sh with descs := descs, pipes := pipes } := by
  induction keys generalizing sh with
  | nil => exact ⟨sh.descs, sh.pipes, rfl⟩
  | cons key keys ih =>
    obtain ⟨descs, pipes, h⟩ := sh.releaseDesc_eq key
    obtain ⟨descs', pipes', h'⟩ := ih (sh.releaseDesc key).2
    refine ⟨descs', pipes', ?_⟩
    rw [releaseAll, h', h]

theorem duplicate_eq (table : FdTable) (sh : Shared) :
    ∃ descs, sh.duplicate table = { sh with descs := descs } := by
  unfold duplicate
  induction table.keys generalizing sh with
  | nil => exact ⟨sh.descs, rfl⟩
  | cons key keys ih =>
    obtain ⟨descs, h⟩ := ih (sh.addRef key)
    exact ⟨descs, h⟩

theorem counts_releaseDesc (sh : Shared) (key : DescKey) :
    counts (sh.releaseDesc key).2.descs = drop key (counts sh.descs) := by
  funext k
  unfold releaseDesc
  rcases hd : sh.descs.get key with _ | d
  · by_cases hk : key = k
    · subst hk
      simp [counts, drop, hd]
    · simp [counts, drop, hk]
  · simp only
    split
    · rename_i hr
      simp only [counts, drop, Slab.get_modify]
      by_cases hk : key = k
      · subst hk
        simp [hd, hr]
      · simp [hk]
    · rename_i hr
      have hr0 : d.refs - 1 = 0 := by simpa using hr
      rcases hrem : (sh.descs.modify key fun d => { d with refs := d.refs - 1 }).remove key
        with ⟨_ | e, descs⟩
      · have := Slab.remove_get (sh.descs.modify key fun d => { d with refs := d.refs - 1 }) key
        simp [hrem, hd] at this
      · have hget := Slab.get_remove (sh.descs.modify key fun d => { d with refs := d.refs - 1 }) key k
        rw [hrem] at hget
        simp only at hget
        simp only [counts, dropDesc_descs, drop, hget, Slab.get_modify]
        by_cases hk : key = k
        · subst hk
          simp [hd, hr0]
        · simp [hk]

@[simp] theorem releaseDesc_spawn (sh : Shared) (key : DescKey) :
    (sh.releaseDesc key).2.spawn = sh.spawn := by
  obtain ⟨descs, pipes, h⟩ := sh.releaseDesc_eq key
  rw [h]

@[simp] theorem releaseAll_spawn (ks : List DescKey) (sh : Shared) :
    (sh.releaseAll ks).2.spawn = sh.spawn := by
  obtain ⟨descs, pipes, h⟩ := releaseAll_eq ks sh
  rw [h]

@[simp] theorem releaseFds_spawn (sh : Shared) (t : FdTable) :
    (sh.releaseFds t).2.spawn = sh.spawn := releaseAll_spawn _ _

theorem trade_releaseAll (ks : List DescKey) (sh : Shared) (fits : room → ∀ k, need k ≤ u32Max)
    (h : ∀ k, need k = need' k + ks.count k) :
    Trade u32Max room leak (counts sh.descs) need (counts (sh.releaseAll ks).2.descs) need' := by
  induction ks generalizing sh need with
  | nil => exact .same fun j => by simp [h j]
  | cons k ks ih =>
    have first : Trade u32Max room leak (counts sh.descs) need
        (counts (sh.releaseDesc k).2.descs) fun j => need' j + ks.count j := by
      rw [counts_releaseDesc]
      refine .drop k (fun r => fits r k) fun j => ?_
      simp only [h j, List.count_cons, one, beq_iff_eq]
      omega
    refine first.trans (ih (sh.releaseDesc k).2 (fun r j => ?_) fun _ => rfl)
    have := fits r j
    rw [h j, List.count_cons] at this
    omega

theorem trade_releaseFds (t : FdTable) (sh : Shared) (fits : room → ∀ k, need k ≤ u32Max)
    (h : ∀ k, need k = need' k + t.holds k) :
    Trade u32Max room leak (counts sh.descs) need (counts (sh.releaseFds t).2.descs) need' :=
  trade_releaseAll _ _ fits h

theorem trade_addRefs (ks : List DescKey) (sh : Shared) (held : ∀ k ∈ ks, 0 < need k)
    (h : ∀ k, need' k = need k + ks.count k) :
    Trade u32Max room leak (counts sh.descs) need (counts (ks.foldl addRef sh).descs) need' := by
  induction ks generalizing sh need with
  | nil => exact .same fun j => by simp [h j]
  | cons k ks ih =>
    have first : Trade u32Max room leak (counts sh.descs) need (counts (sh.addRef k).descs)
        fun j => need j + one k j := by
      rw [counts_addRef]
      exact .take k (held k (by simp)) fun _ => rfl
    refine first.trans (ih (sh.addRef k) (fun j hj => ?_) fun j => ?_)
    · have := held j (by simp [hj])
      omega
    · simp only [h j, List.count_cons, one, beq_iff_eq]
      omega

theorem trade_duplicate (t : FdTable) (sh : Shared) (held : ∀ k, 0 < t.holds k → 0 < need k)
    (h : ∀ k, need' k = need k + t.holds k) :
    Trade u32Max room leak (counts sh.descs) need (counts (sh.duplicate t).descs) need' :=
  trade_addRefs _ _ (fun k hk => held k (List.count_pos_iff.mpr hk)) h

@[simp] theorem duplicate_spawn (sh : Shared) (t : FdTable) : (sh.duplicate t).spawn = sh.spawn := by
  obtain ⟨descs, h⟩ := duplicate_eq t sh
  rw [h]

theorem setExit_eq (sh : Shared) (pid status : ℤ) :
    ∃ table exits, sh.setExit pid status = { sh with table := table, exits := exits } := by
  unfold setExit
  dsimp only
  split_ifs <;> exact ⟨_, _, rfl⟩

@[simp] theorem setExit_descs (sh : Shared) (pid status : ℤ) :
    (sh.setExit pid status).descs = sh.descs := by
  obtain ⟨table, exits, h⟩ := sh.setExit_eq pid status
  rw [h]

@[simp] theorem setExit_spawn (sh : Shared) (pid status : ℤ) :
    (sh.setExit pid status).spawn = sh.spawn := by
  obtain ⟨table, exits, h⟩ := sh.setExit_eq pid status
  rw [h]

theorem forkRecord_eq {sh sh' : Shared} {parent : Task} {pid : ℤ}
    (h : sh.forkRecord parent = some (pid, sh')) :
    pid = sh.nextPid ∧ ∃ table, sh' = { sh with nextPid := satAddI32 sh.nextPid 1, table := table } := by
  unfold forkRecord allocatePid at h
  split at h
  · simp at h
  · obtain ⟨rfl, rfl⟩ := by simpa using h
    exact ⟨rfl, _, rfl⟩

end Shared

namespace Act

/-- Descriptors in hand while an act is carried out: `dup3` has the new one
before it gives up the one it replaces, and `pipe2` the read end's before the
write end's has no room. -/
def inHand : Act → ℕ
  | .dupTo _ _ _ | .pipe2 _ => 1
  | _ => 0

/-- The acts that lose count of a reference: a duplicate that found no room
after the reference was taken, and a pipe that could not be finished. -/
def leaks : Act → Machine → Prop
  | .dup fd cloexec min, m => ∃ entry e, m.ctx.task.fds.get fd = .ok entry ∧
      m.ctx.task.fds.alloc ⟨entry.desc, cloexec⟩ min m.shared.limits.openFiles = .error e
  | .dupTo fd target cloexec, m => ∃ entry e, m.ctx.task.fds.get fd = .ok entry ∧
      m.ctx.task.fds.replace target ⟨entry.desc, cloexec⟩ m.shared.limits.openFiles = .error e
  | .pipe2 flags, m => (m.shared.pipes.insert Pipe.new m.shared.limits.openFiles).isSome ∧
      ∃ e, (m.pipe2 flags).1 = .error e
  | _, _ => False

/-- Moving descriptors in a process whose `execve` is still to be carried out. -/
def strays (a : Act) (m : Machine) : Prop := m.ctx.execRequest.isSome ∧ a.moves = true

/-- An act that moves no descriptor leaves the counts and the slots alone. -/
theorem frame (a : Act) (m : Machine) (h : a.moves = false) :
    counts (a.exec m).2.shared.descs = counts m.shared.descs ∧ (a.exec m).2.held = m.held := by
  cases a with
  | put start data => simp only [exec]; split <;> exact ⟨rfl, rfl⟩
  | setCloexec fd on =>
    simp only [exec]
    split
    · rename_i fds hf
      refine ⟨rfl, funext fun k => ?_⟩
      have := FdTable.holds_setCloexec hf k
      simp [Machine.held, Ctx.held, Machine.setFds, Machine.setTask, this]
    · exact ⟨rfl, rfl⟩
  | setDescFlags key flags => exact ⟨counts_modify _ _ _ fun _ => rfl, rfl⟩
  | setDescPos key pos => exact ⟨counts_modify _ _ _ fun _ => rfl, rfl⟩
  | charge bytes =>
    simp only [exec, Shared.chargeMemory]
    split <;> exact ⟨rfl, rfl⟩
  | setAction signal action =>
    simp only [exec, Task.setAction]
    split <;> exact ⟨rfl, rfl⟩
  | writeOutput which data =>
    simp only [exec, Shared.writeOutput]
    split <;> exact ⟨rfl, rfl⟩
  | openDesc | dup | dupTo | close | pipe2 | fork | vforkExit | finishExec => simp [moves] at h
  | _ => exact ⟨rfl, rfl⟩

end Act

section
variable {room leak : Prop} (m : Machine) (rest : Need DescKey)

/-- One machine's step as a trade, with `rest` for the slots of the others. -/
def Traded (room leak : Prop) (rest : Need DescKey) (m m' : Machine) : Prop :=
  Trade u32Max room leak (counts m.shared.descs) (fun k => m.held k + rest k)
    (counts m'.shared.descs) fun k => m'.held k + rest k

theorem Traded.refl : Traded room leak rest m m := .same fun _ => rfl

theorem Traded.of_eq {m m' : Machine} {rest : Need DescKey}
    (hc : counts m'.shared.descs = counts m.shared.descs) (hh : m'.held = m.held) :
    Traded room leak rest m m' := by
  rw [Traded, hc, hh]
  exact .same fun _ => rfl

theorem traded_openDesc (kind : OpenKind) (path : Text) (flags : ℕ) (cloexec : Bool) :
    Traded room leak rest m (m.openDesc kind path flags cloexec).2 := by
  unfold Machine.openDesc
  split
  · exact .refl m rest
  · rename_i key descs hi
    obtain ⟨hfree, hc⟩ := counts_insert hi rfl
    dsimp only
    split
    · rename_i fd fds ha
      unfold Traded
      rw [show (((m.setShared { m.shared with descs := descs }).setFds fds).shared.descs) =
        descs from rfl, hc]
      refine .fresh key hfree fun k => ?_
      have := FdTable.holds_alloc ha k
      simp only [Machine.setShared] at this
      simp only [Machine.held, Ctx.held, Machine.setFds, Machine.setTask, Machine.setShared, this]
      omega
    · -- The description was new, so it is gone again.
      simp only [Traded, Machine.setShared, Machine.held, Shared.releaseDesc_spawn,
        Shared.counts_releaseDesc, hc, drop_fresh hfree]
      exact .same fun _ => rfl

theorem traded_dup (fd : ℤ) (cloexec : Bool) (min : ℕ) :
    Traded room (Act.leaks (.dup fd cloexec min) m) rest m (m.dup fd cloexec min).2 := by
  unfold Machine.dup
  split
  · exact .refl m rest
  · rename_i entry hg
    dsimp only
    split
    · rename_i fd' fds ha
      simp only [Traded, Machine.setFds, Machine.setTask, Machine.setShared, Shared.counts_addRef]
      refine .take entry.desc ?_ fun k => ?_
      · have := FdTable.holds_pos_of_get hg
        simp only [Machine.held, Ctx.held]
        omega
      · have := FdTable.holds_alloc ha k
        simp only [Machine.setShared] at this
        simp only [Machine.held, Ctx.held, Shared.addRef, this]
        omega
    · rename_i e ha
      simp only [Traded, Machine.setShared, Shared.counts_addRef]
      exact .spare ⟨entry, e, hg, ha⟩ entry.desc

theorem traded_dupTo (fd target : ℤ) (cloexec : Bool)
    (fits : room → ∀ k, m.held k + rest k + 1 ≤ u32Max) :
    Traded room (Act.leaks (.dupTo fd target cloexec) m) rest m (m.dupTo fd target cloexec).2 := by
  unfold Machine.dupTo
  split
  · exact .refl m rest
  · rename_i entry hg
    have hpos : 0 < m.held entry.desc + rest entry.desc := by
      have := FdTable.holds_pos_of_get hg
      simp only [Machine.held, Ctx.held]
      omega
    dsimp only
    split
    · rename_i e ha
      simp only [Traded, Machine.setShared, Shared.counts_addRef]
      exact .spare ⟨entry, e, hg, ha⟩ entry.desc
    · rename_i fds ha
      simp only [Traded, Machine.setFds, Machine.setTask, Machine.setShared, Shared.counts_addRef]
      refine .take entry.desc hpos fun k => ?_
      have := FdTable.holds_replace ha k
      simp only [Machine.setShared, Option.elim] at this
      simp only [Machine.held, Ctx.held, Shared.addRef]
      omega
    · rename_i old fds ha
      simp only [Traded, Machine.setFds, Machine.setTask, Machine.setShared,
        Shared.counts_releaseDesc, Shared.counts_addRef]
      refine .trans (.taken entry.desc hpos) (.drop old.desc (fun r => ?_) fun k => ?_)
      · have := fits r old.desc
        simp only [one]
        split <;> omega
      · have := FdTable.holds_replace ha k
        simp only [Machine.setShared, Option.elim] at this
        simp only [Machine.held, Ctx.held, Shared.addRef, Shared.releaseDesc_spawn]
        omega

theorem traded_close (fd : ℤ) (fits : room → ∀ k, m.held k + rest k ≤ u32Max) :
    Traded room leak rest m (m.close fd).2 := by
  unfold Machine.close
  split
  · exact .refl m rest
  · rename_i entry fds ht
    simp only [Traded, Machine.setFds, Machine.setTask, Machine.setShared, Shared.counts_releaseDesc]
    refine .drop entry.desc (fun r => fits r _) fun k => ?_
    have := FdTable.holds_take ht k
    simp only [Machine.held, Ctx.held, Shared.releaseDesc_spawn]
    omega

theorem traded_pipe2 (flags : ℕ) (fits : room → ∀ k, m.held k + rest k + 1 ≤ u32Max) :
    Traded room (Act.leaks (.pipe2 flags) m) rest m (m.pipe2 flags).2 := by
  have leaky : (m.shared.pipes.insert Pipe.new m.shared.limits.openFiles).isSome →
      ∀ e, (m.pipe2 flags).1 = .error e → Act.leaks (.pipe2 flags) m := fun h e he => ⟨h, e, he⟩
  unfold Machine.pipe2 at leaky ⊢
  dsimp only at leaky ⊢
  split
  · exact .refl m rest
  · rename_i pipe pipes hp
    rw [hp] at leaky
    dsimp only at leaky ⊢
    split
    · exact .same fun _ => rfl
    · rename_i r descs hr
      obtain ⟨hrfree, hrc⟩ := counts_insert hr rfl
      simp only [hr] at leaky
      split
      · rename_i hw
        simp only [hw] at leaky
        simp only [Traded, Machine.setShared, hrc, Machine.held]
        exact .orphan (leaky rfl _ rfl) r hrfree
      · rename_i w descs' hw
        obtain ⟨hwfree, hwc⟩ := counts_insert hw rfl
        simp only [hw] at leaky
        -- Both descriptions are there before either has a descriptor.
        split
        · rename_i e hra
          simp only [hra] at leaky
          simp only [Traded, Machine.setShared, hwc, hrc, Machine.held]
          exact .trans (.orphan (leaky rfl _ rfl) r hrfree) (.orphan (leaky rfl _ rfl) w (hrc ▸ hwfree))
        · rename_i readFd fds hra
          have hra' := FdTable.holds_alloc hra
          simp only [hra] at leaky
          split
          · rename_i writeFd fds' hwa
            have hwa' := FdTable.holds_alloc hwa
            simp only [Machine.setFds, Machine.setTask, Machine.setShared] at hra' hwa'
            simp only [Traded, Machine.setFds, Machine.setTask, Machine.setShared, hwc, hrc]
            refine .trans (.made r hrfree)
              (.fresh w (hrc ▸ hwfree) fun k => ?_)
            have h1 := hra' k
            have h2 := hwa' k
            simp only [Machine.held, Ctx.held]
            omega
          · rename_i e hwa
            simp only [hwa] at leaky
            simp only [Machine.setShared] at hra'
            split
            · rename_i e' ht
              simp only [ht] at leaky
              simp only [Traded, Machine.setFds, Machine.setTask, Machine.setShared, hwc, hrc]
              refine .trans (.made r hrfree)
                (.trans (.orphan (leaky rfl _ rfl) w (hrc ▸ hwfree)) (.same fun k => ?_))
              have h1 := hra' k
              simp only [Machine.held, Ctx.held]
              omega
            · rename_i entry fds' ht
              have ht' := FdTable.holds_take ht
              simp only [ht] at leaky
              simp only [Traded, Machine.setFds, Machine.setTask, Machine.setShared, hwc, hrc,
                Shared.counts_releaseDesc]
              refine .trans (.made r hrfree)
                (.trans (.orphan (leaky rfl _ rfl) w (hrc ▸ hwfree)) (.drop entry.desc (fun h => ?_)
                  fun k => ?_))
              · have := fits h entry.desc
                simp only [one]
                split <;> omega
              · have h1 := hra' k
                have h2 := ht' k
                simp only [Machine.setFds, Machine.setTask] at h2
                simp only [Machine.held, Ctx.held, Shared.releaseDesc_spawn]
                omega

theorem traded_fork (m : Machine) : Traded room leak rest m m.fork.2 := by
  unfold Machine.fork
  split
  · exact .refl m rest
  · rename_i pid sh hf
    obtain ⟨-, table, hsh⟩ := Shared.forkRecord_eq hf
    have hd : sh.descs = m.shared.descs := by rw [hsh]
    have hs : sh.spawn = m.shared.spawn := by rw [hsh]
    simp only [Traded, ← hd]
    refine Shared.trade_duplicate _ _ (fun k hk => ?_) fun k => ?_
    · simp only [Machine.held, Ctx.held]
      omega
    · simp only [Machine.held, Ctx.held, Ctx.below, Shared.duplicate_spawn, hs, List.map_cons,
        List.sum_cons]
      omega

theorem traded_vforkExit (status : ℤ) (fits : room → ∀ k, m.held k + rest k ≤ u32Max) :
    Traded room leak rest m (m.vforkExit status).2 := by
  unfold Machine.vforkExit
  split
  · exact .refl m rest
  · rename_i parent stack hs
    simp only [Traded, Shared.setExit_descs]
    refine Shared.trade_releaseFds _ _ fits fun k => ?_
    simp only [Machine.held, Ctx.held, hs, Ctx.below, List.map_cons, List.sum_cons,
      Shared.setExit_spawn, Shared.releaseFds_spawn]
    omega

theorem traded_finishExec (program : ProgramId) (exe : Text) (argv envp : List Bytes)
    (fits : room → ∀ k, m.held k + rest k ≤ u32Max) :
    Traded room (Act.strays (.finishExec program exe argv envp) m) rest m
      (m.finishExec program exe argv envp).2 := by
  unfold Machine.finishExec
  dsimp only
  split
  · rename_i parent stack hs
    simp only [Traded]
    refine Shared.trade_releaseAll _ _ fits fun k => ?_
    have := FdTable.holds_drainCloexec m.ctx.task.fds k
    simp only [Machine.held, Ctx.held, hs, Ctx.below, List.map_cons, List.sum_cons, queued,
      List.map_append, List.sum_append, Shared.releaseAll_spawn, List.map_nil, List.sum_nil]
    omega
  · rename_i hs
    have hreq : ∀ k, Ctx.requested (some ⟨{ m.ctx.task with fds := m.ctx.task.fds.drainCloexec.2 },
        program, exe, argv, envp⟩) k = m.ctx.task.fds.drainCloexec.2.holds k := fun _ => rfl
    have drained := FdTable.holds_drainCloexec m.ctx.task.fds
    rcases hr : m.ctx.execRequest with _ | old
    · simp only [Traded]
      refine Shared.trade_releaseAll _ _ fits fun k => ?_
      have := drained k
      simp only [Machine.held, Ctx.held, hs, hr, hreq, Shared.releaseAll_spawn, Task.new,
        FdTable.holds_new]
      simp only [Ctx.requested, Option.elim]
      omega
    · -- A request that was still there is forgotten with its table.
      refine .trans (.left (fun k => m.ctx.task.fds.holds k + queued m.shared.spawn k + rest k)
        ⟨by simp [hr], rfl⟩ fun k => ?_) (Shared.trade_releaseAll _ _ (fun r k => ?_) fun k => ?_)
      · simp only [Machine.held, Ctx.held]
        omega
      · have := fits r k
        simp only [Machine.held, Ctx.held] at this
        omega
      · have := drained k
        simp only [Machine.held, Ctx.held, hs, hreq, Shared.releaseAll_spawn, Task.new,
          FdTable.holds_new, Ctx.below, List.map_nil, List.sum_nil]
        omega

/-- Every act is a trade; only the named ones leak. -/
theorem Act.traded (a : Act) (fits : room → ∀ k, m.held k + rest k + a.inHand ≤ u32Max) :
    Traded room (a.leaks m ∨ a.strays m) rest m (a.exec m).2 := by
  have widen : ∀ {l : Prop} {m' : Machine}, (l → a.leaks m ∨ a.strays m) →
      Traded room l rest m m' → Traded room (a.leaks m ∨ a.strays m) rest m m' :=
    fun hl t => Trade.mono hl t
  by_cases hm : a.moves = true
  · cases a with
    | openDesc kind path flags cloexec => exact traded_openDesc m rest kind path flags cloexec
    | dup fd cloexec min => exact widen Or.inl (traded_dup m rest fd cloexec min)
    | dupTo fd target cloexec => exact widen Or.inl (traded_dupTo m rest fd target cloexec fits)
    | close fd => exact traded_close m rest fd fits
    | pipe2 flags => exact widen Or.inl (traded_pipe2 m rest flags fits)
    | fork => exact traded_fork rest m
    | vforkExit status => exact traded_vforkExit m rest status fits
    | finishExec program exe argv envp =>
      exact widen Or.inr (traded_finishExec m rest program exe argv envp fits)
    | _ => simp [moves] at hm
  · obtain ⟨hc, hh⟩ := frame a m (by simpa using hm)
    exact Traded.of_eq hc hh

end
end Wasmux
