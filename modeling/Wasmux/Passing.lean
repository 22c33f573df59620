import Wasmux.Effects.Contracts
import Wasmux.Handover
import Wasmux.Histories
import Wasmux.Shadows
import Wasmux.Startup

/-!
# Arguments on their way

What an `execve` is given is kept with the request, in the queue of processes
to be started or with the caller that is to be replaced, and then in the new
process for as long as it runs. Nothing that happens to the session meanwhile
changes it.
-/

set_option autoImplicit false

namespace Wasmux
open Effects Abi

structure Given where
  argv : List Bytes
  envp : List Bytes
  exe : Text
  deriving DecidableEq

def Spawn.given (s : Spawn) : Given := ⟨s.argv, s.envp, s.exe⟩

/-- Where what was given is to be found. -/
inductive Place where
  | queued (position : ℕ)
  | asked (index : ℕ)
  | running (index : ℕ)
  deriving DecidableEq

/-- A process that was started so. A `vfork` child runs what its parent does. -/
structure Ctx.Runs (c : Ctx) (g : Given) : Prop where
  argv : c.argv = g.argv
  envp : c.envp = g.envp
  exe : ∀ t ∈ c.task :: c.vforkStack, t.exe = g.exe

def Act.replaces : Act → Machine → Bool
  | .finishExec _ _ _ _, m => m.ctx.vforkStack.isEmpty
  | _, _ => false

section
variable {m : Machine} {g : Given}

theorem Ctx.Runs.like {c c' : Ctx} (h : c.Runs g) (hargv : c'.argv = c.argv) (henvp : c'.envp = c.envp)
    (hexe : c'.task.exe = c.task.exe) (hstack : c'.vforkStack = c.vforkStack) : c'.Runs g where
  argv := hargv.trans h.argv
  envp := henvp.trans h.envp
  exe := by
    intro t ht
    rcases List.mem_cons.mp ht with rfl | ht
    · exact hexe.trans (h.exe _ (List.mem_cons_self ..))
    · exact h.exe t (List.mem_cons_of_mem _ (hstack ▸ ht))

theorem Ctx.Runs.pop {c : Ctx} (h : c.Runs g) {parent : Task} {rest : List Task}
    (hs : c.vforkStack = parent :: rest) :
    Ctx.Runs { c with task := parent, vforkStack := rest } g where
  argv := h.argv
  envp := h.envp
  exe := fun t ht => h.exe t (by rw [hs]; exact List.mem_cons_of_mem _ ht)

/-- Every other act leaves a process what it was started with. -/
theorem Act.runs_exec (a : Act) (h : m.ctx.Runs g) (hstays : a.replaces m = false) :
    (a.exec m).2.ctx.Runs g := by
  by_cases hshuffles : a.shuffles = true
  · obtain ⟨fds, descs, pipes, heq⟩ := a.shuffles_exec m hshuffles
    rw [heq]
    exact h.like rfl rfl rfl rfl
  cases a with
  | openDesc | dup | dupTo | close | pipe2 => exact absurd rfl hshuffles
  | put start data => simp only [exec]; split <;> exact h
  | setCloexec fd on =>
    simp only [exec]
    split
    · exact h.like rfl rfl rfl rfl
    · exact h
  | growMem pages =>
    have hsame : ∀ mem, (m.setMem mem).ctx = m.ctx := fun _ => rfl
    have hctx := hsame (m.inst.mem.grow pages)
    exact hctx.symm ▸ h
  | setAction signal action =>
    have hexe : (m.ctx.task.setAction signal action).exe = m.ctx.task.exe := by
      simp only [Task.setAction]
      split <;> rfl
    exact h.like rfl rfl hexe rfl
  | setCwd | setUmask | setMask | grew | suspendMask | settle | setDeadline | setSignalFlag | saveSp
  | stopRewind
  | unwind => exact h.like rfl rfl rfl rfl
  | fork =>
    simp only [exec, Machine.fork]
    split
    · exact h
    · refine ⟨h.argv, h.envp, fun t ht => ?_⟩
      rcases List.mem_cons.mp ht with rfl | ht
      · exact h.exe m.ctx.task (List.mem_cons_self ..)
      · exact h.exe t ht
  | vforkExit status =>
    simp only [exec, Machine.vforkExit]
    split
    · exact h
    · rename_i parent rest hstack
      exact h.pop hstack
  | finishExec program exe argv envp =>
    simp only [exec, Machine.finishExec]
    split
    · rename_i parent rest hstack
      exact h.pop hstack
    · rename_i hstack
      simp [replaces, hstack] at hstays
  | _ => exact h

/-- Nor does any other act ask for the caller to be replaced. -/
theorem Act.request_exec (a : Act) (m : Machine) (hstays : a.replaces m = false) :
    (a.exec m).2.ctx.execRequest = m.ctx.execRequest := by
  by_cases hmoves : a.moves = false
  · exact (a.place_exec m hmoves).1
  by_cases hshuffles : a.shuffles = true
  · obtain ⟨fds, descs, pipes, heq⟩ := a.shuffles_exec m hshuffles
    rw [heq]
  cases a with
  | openDesc | dup | dupTo | close | pipe2 => exact absurd rfl hshuffles
  | fork => simp only [exec, Machine.fork]; split <;> rfl
  | vforkExit status => simp only [exec, Machine.vforkExit]; split <;> rfl
  | finishExec program exe argv envp =>
    simp only [exec, Machine.finishExec]
    split
    · rfl
    · rename_i hstack
      simp [replaces, hstack] at hstays
  | _ => exact absurd rfl hmoves

/-- The queue of processes to be started only grows at its end. -/
theorem Act.queue_exec (a : Act) (m : Machine) : m.shared.spawn <+: (a.exec m).2.shared.spawn := by
  by_cases hcivil : a.civil = false
  · rw [(a.civil_exec m hcivil).2.1]
  cases a with
  | reap => exact List.prefix_refl _
  | fork =>
    simp only [exec, Machine.fork]
    split
    · exact List.prefix_refl _
    · rename_i pid shared hfork
      obtain ⟨-, table, rfl⟩ := Shared.forkRecord_eq hfork
      rw [Shared.duplicate_spawn]
  | vforkExit status =>
    simp only [exec, Machine.vforkExit]
    split
    · exact List.prefix_refl _
    · rw [Shared.setExit_spawn, Shared.releaseFds_spawn]
  | finishExec program exe argv envp =>
    simp only [exec, Machine.finishExec]
    split
    · dsimp only
      rw [Shared.releaseAll_spawn]
      exact List.prefix_append _ _
    · dsimp only
      rw [Shared.releaseAll_spawn]
  | _ => exact absurd rfl hcivil

end

namespace Kernel

/-- What was given is found in its place. -/
def Keeps (k : Kernel) (g : Given) : Place → Prop
  | .queued position => (k.shared.spawn[position]?).map Spawn.given = some g
  | .asked index => ∃ p, k.procs[index]? = some p ∧ p.ctx.execRequest.map Spawn.given = some g
  | .running index => ∃ p, k.procs[index]? = some p ∧ p.ctx.Runs g

/-- A request with `S`, or a process it was started for, with `R`, is found in a place. -/
def Holds (k : Kernel) (S : Spawn → Prop) (R : Ctx → Prop) : Place → Prop
  | .queued position => ∃ spawn, k.shared.spawn[position]? = some spawn ∧ S spawn
  | .asked index => ∃ p spawn, k.procs[index]? = some p ∧ p.ctx.execRequest = some spawn ∧ S spawn
  | .running index => ∃ p, k.procs[index]? = some p ∧ R p.ctx

def asks (k : Kernel) (index : ℕ) : Bool := ((k.procs[index]?).bind fun p => p.ctx.execRequest).isSome

/-- Whether an operation of a process makes it give up what it runs. -/
def gives (k : Kernel) (index : ℕ) : Op → Bool
  | .env _ => false
  | .act a => (k.procs[index]?).any fun p => a.replaces (k.machineOf p)

end Kernel

/-- Where what was at `index` of a list is once the element at `gone` is out. -/
def shiftPast (gone index : ℕ) : Option ℕ :=
  if index = gone then none else some (if gone < index then index - 1 else index)

theorem getElem?_shiftPast {α : Type} {l : List α} {gone index i : ℕ} (h : shiftPast gone index = some i) :
    (l.eraseIdx gone)[i]? = l[index]? := by
  unfold shiftPast at h
  split at h
  · cases h
  obtain rfl := Option.some.inj h
  rw [List.getElem?_eraseIdx]
  split
  · split
    · omega
    · congr 1
      omega
  · split
    · rfl
    · omega

namespace Place

def past (gone : ℕ) : Place → Option Place
  | .queued position => some (.queued position)
  | .asked index => (shiftPast gone index).map .asked
  | .running index => (shiftPast gone index).map .running

def dequeued (first : Option Place) : Place → Option Place
  | .queued 0 => first
  | .queued (position + 1) => some (.queued position)
  | place => some place

def process : Place → Option ℕ
  | .queued _ => none
  | .asked index | .running index => some index

/-- The place after the process at `index` was replaced as it had asked. -/
def replaced (index : ℕ) : Place → Option Place
  | .asked i => some (if i = index then .running i else .asked i)
  | .running i => if i = index then none else some (.running i)
  | place => some place

/-- Where an operation takes what was given, if it does not end with it. -/
def next (k : Kernel) (o : KOp) (place : Place) : Option Place :=
  match o with
  | .machine index o => if k.gives index o ∧ place.process = some index then none else some place
  | .env _ => some place
  | .act a => match a with
    | .launchSpawn _ => place.dequeued (some (.running k.procs.length))
    | .abandonSpawn => place.dequeued none
    | .launchExec index _ => if k.asks index then place.replaced index else some place
    | .abandonExec index => if k.asks index then place.past index else some place
    | .finishProcess index _ => if index < k.procs.length then place.past index else some place
    | _ => some place

end Place

/-- What a process has of the request that it was started for, and keeps for as
long as it runs. -/
structure Lingers (S : Spawn → Prop) (R : Ctx → Prop) : Prop where
  started : ∀ spawn launch, S spawn → R (Kernel.procOf spawn launch).ctx
  exec : ∀ c e, R c → R { c with exec := e }
  act : ∀ (a : Act) m, R m.ctx → a.replaces m = false → R (a.exec m).2.ctx

theorem runs_procOf (spawn : Spawn) (launch : Launch) :
    (Kernel.procOf spawn launch).ctx.Runs spawn.given := by
  cases launch <;> exact ⟨rfl, rfl, fun t ht => by rw [List.mem_singleton.mp ht]; rfl⟩

theorem lingers_given (g : Given) : Lingers (fun spawn => spawn.given = g) fun c => c.Runs g where
  started spawn launch hgiven := hgiven ▸ runs_procOf spawn launch
  exec _ _ h := h.like rfl rfl rfl rfl
  act a _ h hstays := a.runs_exec h hstays

section
variable {k k' : Kernel} {S : Spawn → Prop} {R : Ctx → Prop} {place place' : Place}

/-- A process as it was, but for how it is suspended and resumed. -/
def Proc.SameTasks (p p' : Proc) : Prop := ∃ e, p'.ctx = { p.ctx with exec := e }

theorem Proc.SameTasks.refl (p : Proc) : p.SameTasks p := ⟨p.ctx.exec, rfl⟩

theorem Kernel.Holds.grows {position : ℕ} (h : k.Holds S R (.queued position))
    (hqueue : k.shared.spawn <+: k'.shared.spawn) : k'.Holds S R (.queued position) := by
  obtain ⟨spawn, hspawn, hgiven⟩ := h
  obtain ⟨more, hmore⟩ := hqueue
  have hlt : position < k.shared.spawn.length := (List.getElem?_eq_some_iff.mp hspawn).1
  refine ⟨spawn, ?_, hgiven⟩
  rw [← hmore, List.getElem?_append_left hlt]
  exact hspawn

/-- Only starting the first of the queue, or giving up on it, takes it out. -/
theorem KAct.queue_exec (a : KAct) (k : Kernel) (hlaunch : ∀ launch, a ≠ .launchSpawn launch)
    (habandon : a ≠ .abandonSpawn) : (a.exec k).2.shared.spawn = k.shared.spawn := by
  cases a with
  | launchSpawn launch => exact absurd rfl (hlaunch launch)
  | abandonSpawn => exact absurd rfl habandon
  | charge bytes =>
    simp only [exec, Shared.chargeMemory]
    split <;> rfl
  | attach index =>
    simp only [exec]
    split
    · rfl
    · split
      · rfl
      · split <;> rfl
  | releaseInstance index | trapMessage index kind =>
    simp only [exec]
    split <;> rfl
  | abandonExec index =>
    simp only [exec]
    split
    · rfl
    · dsimp only
      rw [Shared.setExit_spawn, Shared.releaseFds_spawn]
  | restoreJmp index buf value =>
    simp only [exec]
    split
    · rfl
    · split <;> rfl
  | finishProcess index status =>
    simp only [exec, Kernel.finishProcess]
    split
    · rfl
    · dsimp only
      rw [Shared.setExit_spawn, Shared.releaseFds_spawn, killChildren_spawn]
      rfl
  | whyIdle =>
    simp only [exec, Kernel.whyIdle]
    repeat' split
    all_goals rfl
  | _ => rfl

theorem Kernel.Holds.past {gone : ℕ} (h : k.Holds S R place) (hqueue : k'.shared.spawn = k.shared.spawn)
    (hprocs : k'.procs = k.procs.eraseIdx gone) (hnext : place.past gone = some place') :
    k'.Holds S R place' := by
  cases place with
  | queued position =>
    obtain rfl := Option.some.inj hnext
    rw [Kernel.Holds, hqueue]
    exact h
  | asked index =>
    obtain ⟨i, hi, rfl⟩ := Option.map_eq_some_iff.mp hnext
    obtain ⟨p, spawn, hp, hasked⟩ := h
    exact ⟨p, spawn, by rw [hprocs, getElem?_shiftPast hi, hp], hasked⟩
  | running index =>
    obtain ⟨i, hi, rfl⟩ := Option.map_eq_some_iff.mp hnext
    obtain ⟨p, hp, hruns⟩ := h
    exact ⟨p, by rw [hprocs, getElem?_shiftPast hi, hp], hruns⟩

/-- Once the first of the queue has left it, what was behind it is one place further on. -/
theorem Kernel.Holds.dequeued {first : Option Place} {spawn : Spawn} {rest : List Spawn}
    (h : k.Holds S R place) (hspawn : k.shared.spawn = spawn :: rest) (hqueue : k'.shared.spawn = rest)
    (hprocs : ∀ (i : ℕ) (p : Proc), k.procs[i]? = some p → k'.procs[i]? = some p)
    (hfirst : S spawn → ∀ place, first = some place → k'.Holds S R place)
    (hnext : place.dequeued first = some place') : k'.Holds S R place' := by
  cases place with
  | queued position =>
    obtain ⟨found, hfound, hgiven⟩ := h
    rw [hspawn] at hfound
    cases position with
    | zero =>
      obtain rfl : spawn = found := Option.some.inj hfound
      exact hfirst hgiven place' hnext
    | succ position =>
      obtain rfl := Option.some.inj hnext
      exact ⟨found, by rw [hqueue]; exact hfound, hgiven⟩
  | asked index =>
    obtain rfl := Option.some.inj hnext
    obtain ⟨p, found, hp, hasked⟩ := h
    exact ⟨p, found, hprocs index p hp, hasked⟩
  | running index =>
    obtain rfl := Option.some.inj hnext
    obtain ⟨p, hp, hruns⟩ := h
    exact ⟨p, hprocs index p hp, hruns⟩

theorem Place.dequeued_nil {first : Option Place} (h : k.Holds S R place) (hspawn : k.shared.spawn = [])
    (hnext : place.dequeued first = some place') : place' = place := by
  cases place with
  | queued position =>
    obtain ⟨found, hfound, -⟩ := h
    rw [hspawn] at hfound
    cases hfound
  | asked | running => exact (Option.some.inj hnext).symm

theorem Kernel.Holds.abandonSpawn (h : k.Holds S R place) (hnext : place.dequeued none = some place') :
    (KAct.abandonSpawn.exec k).2.Holds S R place' := by
  cases hspawn : k.shared.spawn with
  | nil =>
    rw [Place.dequeued_nil h hspawn hnext]
    simpa only [KAct.exec, hspawn] using h
  | cons spawn rest =>
    simp only [KAct.exec, hspawn]
    refine h.dequeued hspawn ?_ (fun i p hp => hp) (fun _ first hfirst => by cases hfirst) hnext
    dsimp only
    rw [Shared.setExit_spawn, Shared.releaseFds_spawn]

section
variable (hR : Lingers S R)
include hR

theorem Kernel.Holds.like (h : k.Holds S R place) (hqueue : k.shared.spawn <+: k'.shared.spawn)
    (hprocs : ∀ (i : ℕ) (p : Proc), k.procs[i]? = some p → ∃ p', k'.procs[i]? = some p' ∧ p.SameTasks p') :
    k'.Holds S R place := by
  cases place with
  | queued position => exact h.grows hqueue
  | asked index =>
    obtain ⟨p, spawn, hp, hasked⟩ := h
    obtain ⟨p', hp', e, hctx⟩ := hprocs index p hp
    exact ⟨p', spawn, hp', by rw [hctx]; exact hasked⟩
  | running index =>
    obtain ⟨p, hp, hruns⟩ := h
    obtain ⟨p', hp', e, hctx⟩ := hprocs index p hp
    exact ⟨p', hp', by rw [hctx]; exact hR.exec _ _ hruns⟩

/-- What an act of one process leaves of all that is kept. -/
theorem Kernel.Holds.act (h : k.Holds S R place) {index : ℕ} {p : Proc}
    (hp : k.procs[index]? = some p) (a : Act)
    (hstays : place.process = some index → a.replaces (k.machineOf p) = false) :
    Kernel.Holds (k.putMachine index (a.exec (k.machineOf p)).2) S R place := by
  have hat := Kernel.putMachine_proc hp (a.exec (k.machineOf p)).2
  have helse : ∀ i, i ≠ index → (k.putMachine index (a.exec (k.machineOf p)).2).procs[i]? = k.procs[i]? := by
    intro i hi
    simp only [Kernel.putMachine, Kernel.modifyProc]
    exact List.getElem?_modify_ne _ _ (Ne.symm hi)
  cases place with
  | queued position => exact h.grows (a.queue_exec (k.machineOf p))
  | asked i =>
    obtain ⟨q, spawn, hq, hasked⟩ := h
    by_cases hi : i = index
    · subst hi
      obtain rfl := Option.some.inj (hq.symm.trans hp)
      exact ⟨_, spawn, hat, by rw [a.request_exec _ (hstays rfl)]; exact hasked⟩
    · exact ⟨q, spawn, (helse i hi).trans hq, hasked⟩
  | running i =>
    obtain ⟨q, hq, hruns⟩ := h
    by_cases hi : i = index
    · subst hi
      obtain rfl := Option.some.inj (hq.symm.trans hp)
      exact ⟨_, hat, hR.act a _ hruns (hstays rfl)⟩
    · exact ⟨q, (helse i hi).trans hq, hruns⟩

theorem Kernel.Holds.launchSpawn (h : k.Holds S R place) (launch : Launch)
    (hnext : place.dequeued (some (.running k.procs.length)) = some place') :
    ((KAct.launchSpawn launch).exec k).2.Holds S R place' := by
  cases hspawn : k.shared.spawn with
  | nil =>
    rw [Place.dequeued_nil h hspawn hnext]
    simpa only [KAct.exec, hspawn] using h
  | cons spawn rest =>
    simp only [KAct.exec, hspawn]
    refine h.dequeued hspawn rfl (fun i p hp => ?_) (fun hgiven first hfirst => ?_) hnext
    · have hlt : i < k.procs.length := (List.getElem?_eq_some_iff.mp hp).1
      rw [← hp]
      exact List.getElem?_append_left hlt
    · obtain rfl := Option.some.inj hfirst
      exact ⟨_, List.getElem?_concat_length, hR.started spawn launch hgiven⟩

/-- A process that asked to be replaced runs what it asked for. -/
theorem Kernel.Holds.launchExec (h : k.Holds S R place) (index : ℕ) (launch : Launch)
    (hnext : (if k.asks index then place.replaced index else some place) = some place') :
    ((KAct.launchExec index launch).exec k).2.Holds S R place' := by
  have helse : ∀ i, i ≠ index → ((KAct.launchExec index launch).exec k).2.procs[i]? = k.procs[i]? := by
    intro i hi
    simp only [KAct.exec, Kernel.modifyProc]
    exact List.getElem?_modify_ne _ _ (Ne.symm hi)
  have hat : ∀ p, k.procs[index]? = some p →
      ((KAct.launchExec index launch).exec k).2.procs[index]? = some (Kernel.relaunch launch p) := by
    intro p hp
    simp [KAct.exec, Kernel.modifyProc, hp]
  cases place with
  | queued position =>
    have hsame : place' = .queued position := by
      split at hnext <;> exact (Option.some.inj hnext).symm
    rw [hsame]
    exact h.grows (List.prefix_refl _)
  | asked i =>
    obtain ⟨p, spawn, hp, hspawn, hgiven⟩ := h
    by_cases hi : i = index
    · subst hi
      have hasks : k.asks i = true := by simp [Kernel.asks, hp, hspawn]
      rw [if_pos hasks] at hnext
      obtain rfl : place' = .running i := by simpa [Place.replaced, eq_comm] using hnext
      refine ⟨_, hat p hp, ?_⟩
      simp only [Kernel.relaunch, hspawn]
      exact hR.started spawn launch hgiven
    · have hsame : place' = .asked i := by
        split at hnext
        · simpa [Place.replaced, hi, eq_comm] using hnext
        · exact (Option.some.inj hnext).symm
      rw [hsame]
      exact ⟨p, spawn, (helse i hi).trans hp, hspawn, hgiven⟩
  | running i =>
    obtain ⟨p, hp, hruns⟩ := h
    have hsame : place' = .running i ∧ (i = index → k.asks index = false) := by
      split at hnext
      · simp only [Place.replaced] at hnext
        split at hnext
        · cases hnext
        · rename_i hother
          exact ⟨(Option.some.inj hnext).symm, fun hi => absurd hi hother⟩
      · rename_i hasks
        exact ⟨(Option.some.inj hnext).symm, fun _ => by simpa using hasks⟩
    rw [hsame.1]
    by_cases hi : i = index
    · subst hi
      have hnone : p.ctx.execRequest = none := by simpa [Kernel.asks, hp] using hsame.2 rfl
      refine ⟨_, hat p hp, ?_⟩
      simpa only [Kernel.relaunch, hnone] using hruns
    · exact ⟨p, (helse i hi).trans hp, hruns⟩

theorem Kernel.Holds.stepped (h : k.Holds S R place) (a : KAct) (hgathers : a.gathers = false)
    (hlaunch : ∀ launch, a ≠ .launchSpawn launch) (habandon : a ≠ .abandonSpawn) :
    (a.exec k).2.Holds S R place := by
  apply h.like hR
  · rw [a.queue_exec k hlaunch habandon]
  · intro i p hp
    rcases htarget : a.target with _ | index
    · exact ⟨p, by rw [a.procs_untargeted htarget hgathers, hp], .refl p⟩
    rw [a.procs_target htarget, List.getElem?_modify, hp]
    by_cases hi : index = i
    · exact ⟨a.effect p, by simp [hi], a.effect_ctx p⟩
    · exact ⟨p, by simp [hi], .refl p⟩

/-- What was given is found where the operation took it. -/
theorem Kernel.Holds.next {W : Type} (x : Env W) {o : KOp} {w : W} (h : k.Holds S R place)
    (hnext : place.next k o = some place') : (kexec x o (k, w)).2.1.Holds S R place' := by
  cases o with
  | machine index o =>
    simp only [Place.next] at hnext
    split at hnext
    · cases hnext
    rename_i hstays
    obtain rfl := Option.some.inj hnext
    rcases hp : k.procs[index]? with _ | p
    · rw [kexec_machine_none x hp]
      exact h
    rw [kexec_machine x hp]
    cases o with
    | env c =>
      have hself := Kernel.putMachine_self hp
      simp only [exec_env]
      rw [hself]
      exact h.like hR (List.prefix_refl _) fun i p hp => ⟨p, hp, .refl p⟩
    | act a =>
      refine h.act hR hp a fun hplace => ?_
      simpa [Kernel.gives, hp, hplace] using hstays
  | env c =>
    obtain rfl := Option.some.inj hnext
    exact h
  | act a =>
    cases a with
    | launchSpawn launch => exact h.launchSpawn hR launch hnext
    | abandonSpawn => exact h.abandonSpawn hnext
    | launchExec index launch => exact h.launchExec hR index launch hnext
    | abandonExec index =>
      have hqueue := (KAct.abandonExec index).queue_exec k (fun _ he => by cases he) (fun he => by cases he)
      simp only [Place.next] at hnext
      rcases hr : (k.procs[index]?).bind fun p => p.ctx.execRequest with _ | spawn
      · rw [if_neg (by simp [Kernel.asks, hr])] at hnext
        obtain rfl := Option.some.inj hnext
        simpa only [kexec_act, KAct.exec, hr] using h
      · rw [if_pos (by simp [Kernel.asks, hr])] at hnext
        refine h.past hqueue ?_ hnext
        simp only [kexec_act, KAct.exec, hr]
    | finishProcess index status =>
      have hqueue := (KAct.finishProcess index status).queue_exec k (fun _ he => by cases he)
        (fun he => by cases he)
      simp only [Place.next] at hnext
      rcases hp : k.procs[index]? with _ | p
      · rw [if_neg (by simpa using hp)] at hnext
        obtain rfl := Option.some.inj hnext
        simpa only [kexec_act, KAct.exec, Kernel.finishProcess, hp] using h
      · rw [if_pos (List.getElem?_eq_some_iff.mp hp).1] at hnext
        refine h.past hqueue ?_ hnext
        simp only [kexec_act, KAct.exec, Kernel.finishProcess, hp]
    | beginRun =>
      obtain rfl := Option.some.inj hnext
      refine h.like hR (List.prefix_refl _) fun i p hp => ⟨{ p with parked := false }, ?_, .refl p⟩
      simp only [kexec_act, KAct.exec, List.getElem?_map, hp, Option.map_some]
    | _ =>
      obtain rfl := Option.some.inj hnext
      exact h.stepped hR _ rfl (fun _ he => by cases he) fun he => by cases he

end

theorem Kernel.keeps_iff {g : Given} : k.Keeps g place ↔ k.Holds (fun spawn => spawn.given = g)
    (fun c => c.Runs g) place := by
  cases place with
  | queued position => exact Option.map_eq_some_iff
  | asked index =>
    constructor
    · rintro ⟨p, hp, hasked⟩
      obtain ⟨spawn, hspawn, hgiven⟩ := Option.map_eq_some_iff.mp hasked
      exact ⟨p, spawn, hp, hspawn, hgiven⟩
    · rintro ⟨p, spawn, hp, hspawn, hgiven⟩
      exact ⟨p, hp, Option.map_eq_some_iff.mpr ⟨spawn, hspawn, hgiven⟩⟩
  | running index => exact Iff.rfl

theorem Kernel.Keeps.next_launchExec {index : ℕ} {launch : Launch} {g : Given}
    (h : k.Keeps g (.asked index)) :
    Place.next k (.act (.launchExec index launch)) (.asked index) = some (.running index) := by
  obtain ⟨p, hp, hasked⟩ := h
  obtain ⟨spawn, hspawn, -⟩ := Option.map_eq_some_iff.mp hasked
  simp [Place.next, Kernel.asks, hp, hspawn, Place.replaced]

theorem Kernel.Keeps.launched {index : ℕ} {g : Given} (h : k.Keeps g (.asked index)) (charged data : ℕ)
    (inst : Instance) :
    ∃ q, ((KAct.launchExec index (.guest inst charged data)).exec k).2.procs[index]? = some q ∧
    q.inst = inst := by
  obtain ⟨p, hp, hasked⟩ := h
  obtain ⟨spawn, hspawn, -⟩ := Option.map_eq_some_iff.mp hasked
  refine ⟨_, by simp [KAct.exec, Kernel.modifyProc, hp]; rfl, ?_⟩
  simp [Kernel.relaunch, hspawn, Kernel.procOf]

end

section
variable {W : Type} (x : Env W)

/-- Whatever the processes of a session, its loop and its caller do, in any
order, and where it takes what was given. -/
inductive Carried : Kernel × W → Place → Kernel × W → Place → Prop
  | here (s : Kernel × W) (place : Place) : Carried s place s place
  | op (s t : Kernel × W) (first place place' : Place) (o : KOp) : Carried s first t place →
      place.next t.1 o = some place' → Carried s first (kexec x o t).2 place'
  | input (s : Kernel × W) (k : Kernel) (w : W) (first place : Place) (data : Bytes) (closed : Bool) :
      Carried s first (k, w) place →
      Carried s first ({ k with shared := { k.shared with stdin := ⟨data, closed, false⟩ } }, w) place
  | output (s : Kernel × W) (k : Kernel) (w : W) (first place : Place) (out err : OutputBuffer) :
      Carried s first (k, w) place →
      Carried s first ({ k with shared := { k.shared with stdout := out, stderr := err } }, w) place
  | elapse (s : Kernel × W) (k : Kernel) (w w' : W) (first place : Place) : Carried s first (k, w) place →
      Carried s first (k, w') place

variable {x}

theorem Carried.holds {s t : Kernel × W} {first place : Place} {S : Spawn → Prop} {R : Ctx → Prop}
    (hR : Lingers S R) (h : Carried x s first t place) (hs : s.1.Holds S R first) : t.1.Holds S R place := by
  induction h with
  | here place => exact hs
  | op t first place place' o _ hnext ih => exact (ih hs).next hR x hnext
  | input k w first place data closed _ ih | output k w first place out err _ ih =>
    exact (ih hs).like hR (List.prefix_refl _) fun i p hp => ⟨p, hp, .refl p⟩
  | elapse k w w' first place _ ih => exact ih hs

theorem Carried.keeps {s t : Kernel × W} {first place : Place} {g : Given} (h : Carried x s first t place)
    (hs : s.1.Keeps g first) : t.1.Keeps g place :=
  Kernel.keeps_iff.mpr (h.holds (lingers_given g) (Kernel.keeps_iff.mp hs))

end

/-- The build gives no program of its own a path with a NUL in it. -/
def Shared.Laid (sh : Shared) : Prop :=
  ∀ path id image, sh.overlay.program path = some id → sh.programs[id]? = some (.guest image) → 0 ∉ path

/-- A program that is found is one that the overlay has there. -/
def Node.Listed (overlay : Overlay) (node : Node) : Prop :=
  ∀ id guest, node = .program id guest → overlay.program guest = some id

def questions : Program.Contract sig := ⟨fun o => ∃ c, o = .env c, fun _ _ => True⟩

theorem questions_env {ε α : Type} (c : EnvCall) {f : c.Ans → Program sig ε α} {Q : α → Prop}
    (hf : ∀ a, (f a).Obeys questions Q) : (env c >>= f).Obeys questions Q := ⟨⟨c, rfl⟩, fun a _ => hf a⟩

theorem procNode_program {who : Who} {guest guest' : Text} {id : ProgramId} :
    procNode who guest ≠ some (.program id guest') := by
  intro h
  obtain ⟨rest, -, h⟩ := Option.bind_eq_some_iff.mp h
  dsimp only at h
  split at h
  · cases h
  split at h
  · obtain ⟨n, -, h⟩ := Option.bind_eq_some_iff.mp h
    cases h
  split at h
  · cases h
  split at h <;> cases h

namespace Resolver
variable {v : View}

theorem questions_symlinkTarget (guest : Text) : (symlinkTarget v guest).Obeys questions fun _ => True :=
  (only_symlinkTarget v guest).obeys fun _ h => h

theorem listed_classifyFinal (guest : Text) :
    (classifyFinal v guest).Obeys questions (Node.Listed v.overlay) := by
  unfold classifyFinal
  split
  · rename_i id hid
    intro id' guest' heq
    obtain ⟨rfl, rfl⟩ := by simpa using heq
    exact hid
  split
  · exact fun _ _ heq => by cases heq
  split
  · rename_i node hnode
    intro id' guest' heq
    exact absurd (heq ▸ hnode) procNode_program
  split
  · split
    · apply questions_env
      intro r
      split
      · split <;> exact fun _ _ heq => by cases heq
      · split
        · trivial
        · exact fun _ _ heq => by cases heq
    · exact fun _ _ heq => by cases heq
  · split
    · exact fun _ _ heq => by cases heq
    · trivial

theorem listed_walkFrom (follow : Bool) {restart : List Text → Program sig Errno Node}
    (hrestart : ∀ parts, (restart parts).Obeys questions (Node.Listed v.overlay)) (before parts : List Text) :
    (walkFrom v follow restart before parts).Obeys questions (Node.Listed v.overlay) := by
  induction parts generalizing before with
  | nil => exact listed_classifyFinal _
  | cons part rest ih =>
    unfold walkFrom
    dsimp only
    split
    · apply Program.obeys_bind (questions_symlinkTarget _)
      rintro (_ | target) -
      · exact ih _
      · exact hrestart _
    · split
      · exact fun _ _ heq => by cases heq
      · exact ih _

theorem listed_walk (follow : Bool) (hops : ℕ) (parts : List Text) :
    (walk v follow hops parts).Obeys questions (Node.Listed v.overlay) := by
  induction hops generalizing parts with
  | zero =>
    apply listed_walkFrom
    exact fun _ => trivial
  | succ hops ih => exact listed_walkFrom follow ih [] parts

theorem listed_resolve (base path : Text) (follow : Bool) :
    (resolve v base path follow).Obeys questions (Node.Listed v.overlay) := by
  unfold resolve
  split
  · trivial
  · exact listed_walk follow _ _

end Resolver

section
variable {W : Type} {x : Env W}

/-- A path that leads to a program does so without changing the machine, and
the program is one of the overlay's. -/
theorem resolve_program {dirfd : ℤ} {path : Text} {follow : Bool} {m : Machine} {w : W} {id : ProgramId}
    {exe : Text} (h : ((resolve dirfd path follow).run (exec x) (m, w)).1 = .ok (.program id exe)) :
    (∃ w', (resolve dirfd path follow).run (exec x) (m, w) = (.ok (.program id exe), (m, w'))) ∧
      m.shared.overlay.program exe = some id := by
  have hview : (resolve dirfd path follow).run (exec x) (m, w) =
      ((lift (resolveBase m.view dirfd path) >>= fun base =>
      (Resolver.resolve m.view base path follow).catching >>= orVfsFault :
        Handler Node)).run (exec x) (m, w) := rfl
  rw [hview] at h ⊢
  generalize resolveBase m.view dirfd path = found at h ⊢
  rcases found with e | base
  · cases h
  rw [lift_ok, Program.ret_bind, Program.run_bind, Program.run_catching] at h ⊢
  have hmeets := Program.Obeys.meets (x := exec x) (C := fun _ _ => True) (A := fun _ _ => True)
    (I := fun s => s.1 = m)
    (fun o s hs ho _ => by
      obtain ⟨c, rfl⟩ := ho
      exact ⟨trivial, hs, trivial⟩)
    (Resolver.listed_resolve (v := m.view) base path follow) (s := (m, w)) rfl
  obtain ⟨-, hmachine, hlisted⟩ := hmeets.run (Program.along_of_forall _ (fun _ _ => trivial) _ _)
  rcases hr : (Resolver.resolve m.view base path follow).run (exec x) (m, w) with ⟨r, m', w'⟩
  rw [hr] at h hmachine hlisted
  obtain rfl : m' = m := hmachine
  rcases r with e | node
  · dsimp only [orVfsFault, vfsFault] at h
    split at h <;> cases h
  · obtain rfl : node = .program id exe := Except.ok.inj h
    exact ⟨⟨w', rfl⟩, hlisted _ rfl id exe rfl⟩

theorem run_closeAll (handles : List Handle) (m : Machine) (w : W) :
    ∃ w', (closeAll handles).run (exec x) (m, w) = (.ok (), (m, w')) := by
  induction handles generalizing w with
  | nil => exact ⟨w, rfl⟩
  | cons handle rest ih => exact ih _

theorem run_finishExec (program : ProgramId) (exe : Text) (argv envp : List Bytes) (m : Machine) (w : W) :
    ∃ w', (finishExec program exe argv envp).run (exec x) (m, w) =
      ((m.finishExec program exe argv envp).1.1.elim (.error .exec) .ok,
        ((m.finishExec program exe argv envp).2, w')) := by
  obtain ⟨w', hclose⟩ := run_closeAll (x := x) (m.finishExec program exe argv envp).1.2
    (m.finishExec program exe argv envp).2 w
  refine ⟨w', ?_⟩
  change Program.run (exec x) (closeAll (m.finishExec program exe argv envp).1.2 >>= _)
    ((m.finishExec program exe argv envp).2, w) = _
  rw [Program.run_bind, hclose]
  simp only [exec_act, Act.exec]
  rcases (m.finishExec program exe argv envp).1.1 with _ | pid <;> rfl

section
variable {m : Machine} {w : W} {number : ℤ} {a : Args} {path exe : Text} {argv envp : List Bytes}
    {id : ProgramId}

/-- An `execve` of a program, from where its arguments lie to where they are kept. -/
theorem run_execve (hcall : Nr.ofInt number = .execve) (hpath : m.inst.mem.cstr (asU32 a.a0) = .ok path)
    (hargv : m.inst.mem.cstrArray (asU32 a.a1) = .ok argv)
    (henvp : m.inst.mem.cstrArray (asU32 a.a2) = .ok envp)
    (hfound : ((resolve atFdcwd path true).run (exec x) (m, w)).1 = .ok (.program id exe)) :
    ∃ w', (handle number a).run (exec x) (m, w) =
      ((m.finishExec id exe argv envp).1.1.elim (.error .exec) .ok,
        ((m.finishExec id exe argv envp).2, w')) := by
  have hhandle : handle number a = Sys.execve a := by
    unfold handle
    rw [hcall]
  obtain ⟨⟨w₁, hresolve⟩, -⟩ := resolve_program hfound
  obtain ⟨w', hfinish⟩ := run_finishExec (x := x) id exe argv envp m w₁
  refine ⟨w', ?_⟩
  rw [hhandle, ← hfinish]
  unfold Sys.execve
  change Program.run (exec x) (lift (m.inst.mem.cstr (asU32 a.a0)) >>= _) (m, w) = _
  rw [hpath, lift_ok, Program.ret_bind]
  change Program.run (exec x) (lift (m.inst.mem.cstrArray (asU32 a.a1)) >>= _) (m, w) = _
  rw [hargv, lift_ok, Program.ret_bind]
  change Program.run (exec x) (lift (m.inst.mem.cstrArray (asU32 a.a2)) >>= _) (m, w) = _
  rw [henvp, lift_ok, Program.ret_bind]
  exact Program.run_bind_ok (exec x) hresolve

theorem flagged_shared (m : Machine) : m.flagged.shared = m.shared := by
  unfold Machine.flagged
  split
  · rfl
  · simp only [Act.exec]
    split <;> rfl

theorem finishExec_alone (m : Machine) (id : ProgramId) (exe : Text) (argv envp : List Bytes)
    (h : m.ctx.vforkStack = []) : (m.finishExec id exe argv envp).1.1 = none ∧
    (m.finishExec id exe argv envp).2.ctx.execRequest.map Spawn.given = some ⟨argv, envp, exe⟩ := by
  simp only [Machine.finishExec, h]
  exact ⟨trivial, rfl⟩

theorem finishExec_child (m : Machine) (id : ProgramId) (exe : Text) (argv envp : List Bytes)
    (h : m.ctx.vforkStack ≠ []) :
    (m.finishExec id exe argv envp).1.1 = some m.ctx.task.pid ∧
    ((m.finishExec id exe argv envp).2.shared.spawn[m.shared.spawn.length]?).map Spawn.given =
      some ⟨argv, envp, exe⟩ := by
  obtain ⟨parent, rest, hstack⟩ := List.exists_cons_of_ne_nil h
  simp only [Machine.finishExec, hstack, Shared.releaseAll_spawn, List.getElem?_concat_length]
  exact ⟨trivial, rfl⟩

/-- What is left of such a call once it is over. -/
theorem run_dispatch_execve (hcall : Nr.ofInt number = .execve)
    (hpath : m.inst.mem.cstr (asU32 a.a0) = .ok path) (hargv : m.inst.mem.cstrArray (asU32 a.a1) = .ok argv)
    (henvp : m.inst.mem.cstrArray (asU32 a.a2) = .ok envp)
    (hfound : ((resolve atFdcwd path true).run (exec x) (m.counted, w)).1 = .ok (.program id exe)) :
    ∃ (outcome : Outcome) (m' : Machine) (w' : W),
      (dispatch number a : Program sig Stop Outcome).run (exec x) (m, w) = (.ok outcome, (m', w')) ∧
      (m.ctx.vforkStack = [] → outcome = .exec ∧
        m'.ctx.execRequest.map Spawn.given = some ⟨argv, envp, exe⟩) ∧
      (m.ctx.vforkStack ≠ [] → outcome = .value m.ctx.task.pid ∧
        (m'.shared.spawn[m.shared.spawn.length]?).map Spawn.given = some ⟨argv, envp, exe⟩) := by
  obtain ⟨w', hrun⟩ := run_execve hcall (m := m.counted) hpath hargv henvp hfound
  have hdispatch := run_dispatch (ε := Stop) x number a m w
  rw [hrun] at hdispatch
  by_cases hstack : m.ctx.vforkStack = []
  · obtain ⟨hnone, hgiven⟩ := finishExec_alone m.counted id exe argv envp hstack
    rw [hnone] at hdispatch
    exact ⟨.exec, _, w', hdispatch, fun _ => ⟨rfl, hgiven⟩, fun hne => absurd hstack hne⟩
  · obtain ⟨hpid, hgiven⟩ := finishExec_child m.counted id exe argv envp hstack
    rw [hpid] at hdispatch
    refine ⟨_, _, w', hdispatch.trans (conclude_ok x _ _ _), fun hnil =>
      absurd hnil hstack, fun _ => ⟨rfl, ?_⟩⟩
    rw [flagged_shared]
    exact hgiven

end

/-- Where the `execve` of a process leaves what it is given. -/
def Kernel.entrusted (k : Kernel) (index : ℕ) (p : Proc) : Place :=
  if p.ctx.vforkStack = [] then .asked index else .queued k.shared.spawn.length

/-- The arguments of an `execve` are kept where its process left them. -/
theorem keeps_execve {k k' : Kernel} {w w' : W} {index : ℕ} {p : Proc} {number : ℤ} {a : Args}
    {path exe : Text} {argv envp : List Bytes} {id : ProgramId} {r : Except Stop Outcome}
    (hp : k.procs[index]? = some p) (hcall : Nr.ofInt number = .execve)
    (hpath : p.inst.mem.cstr (asU32 a.a0) = .ok path) (hargv : p.inst.mem.cstrArray (asU32 a.a1) = .ok argv)
    (henvp : p.inst.mem.cstrArray (asU32 a.a2) = .ok envp)
    (hfound : ((resolve atFdcwd path true).run (exec x) ((k.machineOf p).counted, w)).1 =
    .ok (.program id exe))
    (hrun : (onProc index (dispatch number a)).run (kexec x) (k, w) = (r, (k', w'))) :
    k'.Keeps ⟨argv, envp, exe⟩ (k.entrusted index p) := by
  obtain ⟨outcome, m', w'', hdispatch, halone, hchild⟩ :=
    run_dispatch_execve (m := k.machineOf p) hcall hpath hargv henvp hfound
  have hon := run_onProc hp w hdispatch
  have hk : k' = k.putMachine index m' :=
    congrArg (fun t => t.2.1) (hrun.symm.trans hon)
  subst hk
  unfold Kernel.entrusted
  split
  · rename_i hstack
    exact ⟨_, Kernel.putMachine_proc hp m', (halone hstack).2⟩
  · rename_i hstack
    exact (hchild hstack).2

theorem fillRandom_length (count : ℕ) (x : UInt64) : (fillRandom count x).1.length = count := by
  induction count generalizing x with
  | zero => rfl
  | succ count ih => exact congrArg (· + 1) (ih _)

theorem random_length (mounts : Mounts) (count : ℕ) (w : W) :
    ((EnvCall.random count).answer x mounts w).1.length = count := by
  simp only [EnvCall.answer]
  split <;> exact fillRandom_length _ _

section
variable {m : Machine} {w : W} {size : ℕ}

theorem run_args_query (hsize : size = startSize m.ctx.argv m.ctx.envp m.ctx.task.exe) (buffer : ℕ) :
    ((Import.args buffer 0 : Program sig Stop ℤ).run (exec x) (m, w)).1 = .ok (asI32 size) := by
  have hlength := startBlock_length m.ctx.argv m.ctx.envp m.ctx.task.exe
    ((EnvCall.random 16).answer x m.shared.mounts w).1 buffer (random_length _ _ _)
  rw [hsize, ← hlength]
  rfl

/-- The block itself, where there is room for it. -/
theorem run_args_fill (hsize : size = startSize m.ctx.argv m.ctx.envp m.ctx.task.exe) {buffer capacity : ℕ}
    (hroom : size ≤ capacity) (hfits : buffer + size ≤ m.inst.mem.size) : ∃ seed m' w', seed.length = 16 ∧
    (Import.args buffer capacity : Program sig Stop ℤ).run (exec x) (m, w) = (.ok (asI32 size), (m', w')) ∧
    m'.inst.mem.Holds buffer (startBlock m.ctx.argv m.ctx.envp m.ctx.task.exe seed buffer) ∧
    m'.inst.mem.size = m.inst.mem.size := by
  rcases hanswer : (EnvCall.random 16).answer x m.shared.mounts w with ⟨seed, w'⟩
  have hseed : seed.length = 16 := by
    have := random_length (x := x) m.shared.mounts 16 w
    rwa [hanswer] at this
  have hlength := startBlock_length m.ctx.argv m.ctx.envp m.ctx.task.exe seed buffer hseed
  have hsome : capacity ≠ 0 := by
    have : 0 < startSize m.ctx.argv m.ctx.envp m.ctx.task.exe := Nat.succ_pos _
    omega
  rw [← hlength] at hsize
  obtain ⟨mem, hput⟩ : ∃ mem,
      m.inst.mem.put buffer (startBlock m.ctx.argv m.ctx.envp m.ctx.task.exe seed buffer) = .ok mem :=
    ⟨_, if_pos (hsize ▸ hfits)⟩
  refine ⟨seed, m.setMem mem, w', hseed, ?_, Mem.bytes_put hput, Mem.put_size hput⟩
  unfold Import.args
  change Program.run (exec x) (env (.random 16) >>= _) (m, w) = _
  rw [run_ask, hanswer]
  change Program.run (exec x) (if capacity = 0 then _ else if capacity < List.length
    (startBlock m.ctx.argv m.ctx.envp m.ctx.task.exe seed buffer) then _ else act (.put buffer _) >>=
    _) (m, w') = _
  rw [if_neg hsome, if_neg (by omega), hsize]
  change Program.run (exec x)
    (act (.put buffer (startBlock m.ctx.argv m.ctx.envp m.ctx.task.exe seed buffer)) >>= _)
    (m, w') = _
  have hact : (act (.put buffer (startBlock m.ctx.argv m.ctx.envp m.ctx.task.exe seed buffer)) :
      Program sig Stop _).run (exec x) (m, w') = (.ok (.ok ()), (m.setMem mem, w')) := by
    simp only [act, Program.run_call, exec_act, Act.exec, hput, Program.run_ret]
  rw [Program.run_bind_ok (exec x) hact]
  rfl

end

/-- The arguments and environment of an `execve` of a program, kept wherever
the session takes them, are what the new process finds in its startup block,
wherever it puts it. -/
theorem arguments_survive {k k' : Kernel} {w w' : W} {index : ℕ} {p : Proc} {number : ℤ} {a : Args}
    {path exe : Text} {argv envp : List Bytes} {id : ProgramId} {image : ℕ} {r : Except Stop Outcome}
    (hp : k.procs[index]? = some p) (hcall : Nr.ofInt number = .execve)
    (hpath : p.inst.mem.cstr (asU32 a.a0) = .ok path) (hargv : p.inst.mem.cstrArray (asU32 a.a1) = .ok argv)
    (henvp : p.inst.mem.cstrArray (asU32 a.a2) = .ok envp)
    (hfound : ((resolve atFdcwd path true).run (exec x) ((k.machineOf p).counted, w)).1 =
    .ok (.program id exe))
    (hguest : k.shared.programs[id]? = some (.guest image)) (hlaid : k.shared.Laid)
    (hrun : (onProc index (dispatch number a)).run (kexec x) (k, w) = (r, (k', w'))) :
    ∀ (l : Kernel) (v : W) (i : ℕ) (q : Proc),
      Carried x (k', w') (k.entrusted index p) (l, v) (.running i) → l.procs[i]? = some q →
      (∀ buffer : ℕ, ((Import.args buffer 0 : Program sig Stop ℤ).run (exec x) (l.machineOf q, v)).1 =
        .ok (asI32 (startSize argv envp exe))) ∧
      ∀ buffer capacity : ℕ, q.inst.mem.size ≤ 2^32 → startSize argv envp exe ≤ capacity →
        buffer + startSize argv envp exe ≤ q.inst.mem.size →
        ∃ m v' st, (Import.args buffer capacity : Program sig Stop ℤ).run (exec x) (l.machineOf q, v) =
            (.ok (asI32 (startSize argv envp exe)), (m, v')) ∧
          m.inst.mem.startup buffer = some st ∧
          st.Carries m.inst.mem buffer (startSize argv envp exe) argv envp exe := by
  have hkeeps := keeps_execve hp hcall hpath hargv henvp hfound hrun
  have hexe : 0 ∉ exe := hlaid exe id image (resolve_program hfound).2 hguest
  intro l v i q hcarried hq
  obtain ⟨q', hq', hruns⟩ := hcarried.keeps hkeeps
  obtain rfl : q' = q := Option.some.inj (hq'.symm.trans hq)
  have hpath' : (l.machineOf q').ctx.task.exe = exe := hruns.exe _ (List.mem_cons_self ..)
  have hargv' : (l.machineOf q').ctx.argv = argv := hruns.argv
  have henvp' : (l.machineOf q').ctx.envp = envp := hruns.envp
  have hsize : startSize argv envp exe = startSize (l.machineOf q').ctx.argv (l.machineOf q').ctx.envp
      (l.machineOf q').ctx.task.exe := by
    rw [hpath', hargv', henvp']
  refine ⟨run_args_query hsize, fun buffer capacity hmem hroom hfits => ?_⟩
  obtain ⟨seed, m, v', hseed, hargs, hholds, hsame⟩ := run_args_fill (x := x) (w := v) hsize hroom hfits
  rw [hpath', hargv', henvp'] at hholds
  have hnul : ∀ s ∈ argv ++ envp, 0 ∉ s := by
    intro s hs
    rcases List.mem_append.mp hs with hs | hs
    · exact Mem.cstrArray_nul hargv s hs
    · exact Mem.cstrArray_nul henvp s hs
  have hsmall : m.inst.mem.size ≤ 2^32 := hsame ▸ hmem
  obtain ⟨st, hfound, -, hcarries⟩ := startup_block hholds hsmall hseed hnul hexe
  exact ⟨m, v', st, hargs, hfound, hcarries⟩

end

/-- A guest with a path at the start of its memory, a vector of two arguments
at eight and one of an environment at twenty. -/
def Proc.oneGuest : Proc :=
  ⟨⟨.new 1 .new, [], [], none, [], default⟩,
    ⟨.startingWith (ascii "/bin/0" ++ [0, 0] ++ toLe 4 28 ++ toLe 4 30 ++ toLe 4 0 ++ toLe 4 33 ++ toLe 4 0 ++
      ascii "0" ++ [0] ++ ascii "-c" ++ [0] ++ ascii "A=1"), 0, false⟩, none, .fresh, 0, false⟩

def Kernel.oneGuest : Kernel := ⟨(Config.bare [.guest 0]).shared 0, [Proc.oneGuest], none⟩

theorem laid_oneGuest : Kernel.oneGuest.shared.Laid := by
  have hprograms : Kernel.oneGuest.shared.overlay.programs = [(ascii "/bin/0", 0)] := by decide +kernel
  intro path id image hpath _
  rw [Overlay.program, hprograms, List.lookup_cons] at hpath
  split at hpath
  · rename_i heq
    rw [eq_of_beq heq]
    decide +kernel
  · cases hpath

/-- The process that is replaced reads its arguments and its environment back at 1024. -/
theorem arguments_survive_once :
    ∃ (l : Kernel) (q : Proc) (m : Machine) (st : Startup), l.procs[0]? = some q ∧
    ((Import.args 1024 512 : Program sig Stop ℤ).run (exec (Env.still Unit)) (l.machineOf q, ())).2.1 = m ∧
    m.inst.mem.startup 1024 = some st ∧ st.argv.map Prod.snd = [ascii "0", ascii "-c"] ∧
    st.envp.map Prod.snd = [ascii "A=1"] := by
  have hp : Kernel.oneGuest.procs[0]? = some Proc.oneGuest := rfl
  have hcall : Nr.ofInt 221 = .execve := rfl
  have hpath : Proc.oneGuest.inst.mem.cstr (asU32 0) = .ok (ascii "/bin/0") := by decide +kernel
  have hargv : Proc.oneGuest.inst.mem.cstrArray (asU32 8) = .ok [ascii "0", ascii "-c"] := by decide +kernel
  have henvp : Proc.oneGuest.inst.mem.cstrArray (asU32 20) = .ok [ascii "A=1"] := by decide +kernel
  have hfound : ((resolve atFdcwd (ascii "/bin/0") true).run (exec (Env.still Unit))
      ((Kernel.oneGuest.machineOf Proc.oneGuest).counted, ())).1 = .ok (.program 0 (ascii "/bin/0")) := by
    decide +kernel
  have hguest : Kernel.oneGuest.shared.programs[0]? = some (.guest 0) := rfl
  obtain ⟨r, k', w', hrun⟩ :
    ∃ r k' w', (onProc 0 (dispatch 221 ⟨0, 8, 20, 0, 0, 0⟩)).run (kexec (Env.still Unit))
      (Kernel.oneGuest, ()) = (r, (k', w')) := ⟨_, _, _, rfl⟩
  have hkeeps := keeps_execve hp hcall hpath hargv henvp hfound hrun
  have hsurvive := arguments_survive hp hcall hpath hargv henvp hfound hguest laid_oneGuest hrun
  have halone : Proc.oneGuest.ctx.vforkStack = [] := rfl
  rw [Kernel.entrusted, if_pos halone] at hkeeps hsurvive
  -- the loop gives the process the instance it asked for
  have hcarried := Carried.op (x := Env.still Unit) _ _ _ _ (.running 0)
    (.act (.launchExec 0 (.guest ⟨.startingWith [], 0, false⟩ 0 0))) (.here (k', w') (.asked 0))
    hkeeps.next_launchExec
  obtain ⟨q, hq, hinst⟩ := hkeeps.launched 0 0 ⟨.startingWith [], 0, false⟩
  have hsize : q.inst.mem.size = page := congrArg (fun inst => inst.mem.size) hinst
  obtain ⟨m, v', st, hargs, hfound, hcarries⟩ := (hsurvive _ _ 0 q hcarried hq).2 1024 512
    (by rw [hsize]; decide) (by decide) (by rw [hsize]; decide)
  refine ⟨_, q, m, st, ?_, congrArg (fun r => r.2.1) hargs, hfound, hcarries.arguments, hcarries.environment⟩
  exact hq

end Wasmux
