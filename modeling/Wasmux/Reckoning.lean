import Wasmux.Fifos
import Wasmux.Lineage

/-!
# References without a leak

The operations that lose count of a reference are known by name. In a session
without one of them the counts are exact: a description is counted as often as
there are descriptors that name it, and gone when none does, and a pipe counts
the descriptions of its ends, and is gone with the last.
-/

set_option autoImplicit false

namespace Wasmux
open Counting Effects Abi Sys

/-! ## Who is to be replaced has nothing open -/

/-- A process that is handed over has left its descriptors to whom it becomes. -/
def Ctx.Stripped (c : Ctx) : Prop := c.execRequest.isSome = true → ∀ key, c.task.fds.holds key = 0

/-- An act that moves no descriptors leaves them to a process. -/
theorem Act.holds_exec (a : Act) (m : Machine) (h : a.moves = false) (key : DescKey) :
    (a.exec m).2.ctx.task.fds.holds key = m.ctx.task.fds.holds key := by
  cases a with
  | openDesc | dup | dupTo | close | pipe2 | fork | vforkExit | finishExec => cases h
  | put start data => simp only [exec]; split <;> rfl
  | setCloexec fd on =>
    simp only [exec]
    split
    · rename_i fds hf
      exact FdTable.holds_setCloexec hf key
    · rfl
  | growMem pages =>
    have hsame : ∀ mem, (m.setMem mem).ctx = m.ctx := fun _ => rfl
    exact congrArg (fun ctx : Ctx => ctx.task.fds.holds key) (hsame (m.inst.mem.grow pages))
  | setAction signal action =>
    simp only [exec, Machine.setTask, Task.setAction]
    split <;> rfl
  | _ => rfl

theorem Act.stripped_exec (a : Act) {m : Machine} (hown : a.moves = true → m.ctx.execRequest = none)
    (h : m.ctx.Stripped) : (a.exec m).2.ctx.Stripped := by
  intro hsome key
  by_cases hmoves : a.moves = true
  · have hnone := hown hmoves
    by_cases hshuffles : a.shuffles = true
    · obtain ⟨fds, descs, pipes, heq⟩ := a.shuffles_exec m hshuffles
      rw [heq] at hsome
      simp [hnone] at hsome
    cases a with
    | openDesc | dup | dupTo | close | pipe2 => exact absurd rfl hshuffles
    | fork =>
      simp only [exec, Machine.fork] at hsome
      split at hsome <;> simp [hnone] at hsome
    | vforkExit status =>
      simp only [exec, Machine.vforkExit] at hsome
      split at hsome <;> simp [hnone] at hsome
    | finishExec program exe argv envp =>
      simp only [exec, Machine.finishExec] at hsome ⊢
      split at hsome
      · simp [hnone] at hsome
      · exact FdTable.holds_new key
    | _ => cases hmoves
  · have hstill : a.moves = false := by simpa using hmoves
    rw [(a.place_exec m hstill).1] at hsome
    rw [a.holds_exec m hstill]
    exact h hsome key

def Kernel.Everyone (P : Ctx → Prop) (k : Kernel) : Prop := ∀ p ∈ k.procs, P p.ctx

/-- What holds of who is started, and does not speak of what the loop changes in a process. -/
structure Ctx.Personal (P : Ctx → Prop) : Prop where
  launched : ∀ spawn launch, P (Kernel.procOf spawn launch).ctx
  exec : ∀ {ctx : Ctx} (e : ExecState), P ctx → P { ctx with exec := e }

namespace Kernel.Everyone
variable {P : Ctx → Prop} {k k' : Kernel}

theorem modify (h : k.Everyone P) {f : Proc → Proc} {index : ℕ} (hprocs : k'.procs = k.procs.modify index f)
    (hf : ∀ p, k.procs[index]? = some p → P p.ctx → P (f p).ctx) : k'.Everyone P := by
  intro q hq
  rw [hprocs] at hq
  obtain ⟨i, hi⟩ := List.mem_iff_getElem?.mp hq
  by_cases hindex : index = i
  · subst hindex
    obtain ⟨p, hp, rfl⟩ := modify_at hi
    exact hf p hp (h p (List.mem_of_getElem? hp))
  · have hsame : k.procs[i]? = some q := by simpa [List.getElem?_modify, hindex] using hi
    exact h q (List.mem_of_getElem? hsame)

theorem kact (hP : Ctx.Personal P) (h : k.Everyone P) (a : KAct) : (a.exec k).2.Everyone P := by
  cases htarget : a.target with
  | some index =>
    refine h.modify (a.procs_target htarget k) fun p _ hp => ?_
    obtain ⟨e, he⟩ := a.effect_ctx p
    rw [he]
    exact hP.exec e hp
  | none =>
    by_cases hgathers : a.gathers = true
    · cases a with
      | launchSpawn launch =>
        simp only [KAct.exec]
        split
        · exact h
        · intro p hp
          rcases List.mem_append.mp hp with hold | hnew
          · exact h p hold
          · rw [List.mem_singleton.mp hnew]
            exact hP.launched _ _
      | finishProcess index status =>
        simp only [KAct.exec, finishProcess]
        split
        · exact h
        · exact fun p hp => h p (List.mem_of_mem_eraseIdx hp)
      | abandonExec index =>
        simp only [KAct.exec]
        split
        · exact h
        · exact fun p hp => h p (List.mem_of_mem_eraseIdx hp)
      | launchExec index launch =>
        refine h.modify rfl fun p _ hp => ?_
        unfold relaunch
        split
        · exact hP.launched _ _
        · exact hp
      | beginRun =>
        intro p hp
        obtain ⟨q, hq, rfl⟩ := List.mem_map.mp hp
        exact h q hq
      | _ => cases hgathers
    · intro p hp
      rw [a.procs_untargeted htarget (by simpa using hgathers)] at hp
      exact h p hp

/-- What every act of a process leaves true of it stays true of everyone. -/
theorem kexec {W : Type} (x : Env W) (hP : Ctx.Personal P) {o : KOp} {w : W} (h : k.Everyone P)
    (hact : ∀ index a p, o = .machine index (.act a) → k.procs[index]? = some p → P p.ctx →
      P (a.exec (k.machineOf p)).2.ctx) : (kexec x o (k, w)).2.1.Everyone P := by
  cases o with
  | env c => exact h
  | act a => exact h.kact hP a
  | machine index o =>
    rcases hat : k.procs[index]? with _ | p
    · rw [kexec_machine_none x hat]
      exact h
    rw [kexec_machine x hat]
    refine h.modify rfl fun q hq hold => ?_
    obtain rfl := Option.some.inj (hat.symm.trans hq)
    cases o with
    | env c => exact hold
    | act a => exact hact index a p rfl hat hold

end Kernel.Everyone

theorem Ctx.personal_stripped : Ctx.Personal Ctx.Stripped where
  launched spawn launch hsome := by
    rw [Kernel.procOf_settled] at hsome
    cases hsome
  exec _ h := h

theorem kexec_stripped {W : Type} (x : Env W) {o : KOp} {k : Kernel} {w : W} (h : k.Everyone Ctx.Stripped)
    (htidy : o.Tidy k) : (kexec x o (k, w)).2.1.Everyone Ctx.Stripped := by
  refine Kernel.Everyone.kexec x Ctx.personal_stripped h fun index a p ho hp hstripped => ?_
  subst ho
  exact a.stripped_exec (htidy p hp).own hstripped

/-! ## Operations that lose count of nothing -/

namespace KOp

/-- An operation that keeps count: what is duplicated finds room, a pipe is made
whole or not at all, and no process ends that has just given its descriptors away. -/
def Counted : KOp → Kernel → Prop
  | .machine index (.act a), k => ∀ p, k.procs[index]? = some p → ¬ a.leaks (k.machineOf p)
  | .act (.finishProcess index _), k => ∀ p, k.procs[index]? = some p → p.ctx.execRequest = none
  | _, _ => True

theorem Counted.tight {o : KOp} {k : Kernel} (h : o.Counted k) (htidy : o.Tidy k)
    (hstripped : k.Everyone Ctx.Stripped) :
    ¬ o.leaks k := by
  intro hleaks
  cases o with
  | env c => exact hleaks
  | machine index o =>
    cases o with
    | env c => exact hleaks
    | act a =>
      obtain ⟨p, hp, hloses | ⟨hsome, hmoves⟩⟩ := hleaks
      · exact h p hp hloses
      · have hnone : p.ctx.execRequest = none := (htidy p hp).own hmoves
        have hrequest : (k.machineOf p).ctx.execRequest = p.ctx.execRequest := rfl
        rw [hrequest, hnone] at hsome
        cases hsome
  | act a =>
    cases a with
    | finishProcess index status =>
      obtain ⟨p, key, hp, hpos⟩ := hleaks
      rw [h p hp] at hpos
      exact absurd hpos (lt_irrefl 0)
    | launchExec | abandonExec =>
      obtain ⟨p, key, hp, hsome, hpos⟩ := hleaks
      rw [hstripped p (List.mem_of_getElem? hp) hsome key, htidy p hp hsome] at hpos
      exact absurd hpos (lt_irrefl 0)
    | _ => exact hleaks

end KOp

/-! ## Pipes that lose none of their ends -/

/-- A pipe counts just so many descriptions of each end, and is there while there are any. -/
def Pipe.Exactly (reads writes : ℕ) : Option Pipe → Prop
  | none => reads = 0 ∧ writes = 0
  | some p => p.readers = reads ∧ p.writers = writes ∧ 0 < reads + writes

def Metered (descs : Slab Desc) (pipes : Slab Pipe) : Prop :=
  ∀ key, Pipe.Exactly (descs.ofKind (.pipeRead key)) (descs.ofKind (.pipeWrite key)) (pipes.get key)

section
variable {descs descs' : Slab Desc} {pipes pipes' : Slab Pipe}

theorem Metered.congr (h : Metered descs pipes)
    (hreads : ∀ key, descs'.ofKind (.pipeRead key) = descs.ofKind (.pipeRead key))
    (hwrites : ∀ key, descs'.ofKind (.pipeWrite key) = descs.ofKind (.pipeWrite key)) :
    Metered descs' pipes := by
  intro key
  rw [hreads, hwrites]
  exact h key

theorem Metered.filled (h : Metered descs pipes) (key : PipeKey) (f : Pipe → Bytes) :
    Metered descs (pipes.modify key fun p => { p with data := f p }) := by
  intro pipe
  have hexact := h pipe
  rw [Slab.get_modify]
  split
  · subst_vars
    cases hp : pipes.get pipe with
    | none => rwa [hp] at hexact
    | some p => rwa [hp] at hexact
  · exact hexact

theorem exactly_collectPipe {sh : Shared} {key : PipeKey} {p : Pipe} (hp : sh.pipes.get key = some p) :
    Pipe.Exactly p.readers p.writers ((sh.collectPipe key).pipes.get key) := by
  rw [Shared.get_collectPipe, hp]
  split
  · rename_i hover
    have hnone : p.readers = 0 ∧ p.writers = 0 := by simpa using hover.2
    exact hnone
  · rename_i hlasts
    refine ⟨rfl, rfl, ?_⟩
    simp only [Option.any_some, Bool.and_eq_true, beq_iff_eq, true_and, not_and] at hlasts
    omega

theorem get_collectPipe_other {sh : Shared} {key pipe : PipeKey} (h : key ≠ pipe) :
    (sh.collectPipe key).pipes.get pipe = sh.pipes.get pipe := by
  rw [Shared.get_collectPipe, if_neg fun hover => h hover.1]

/-- An end goes that the pipe counted. -/
theorem exactly_dropped {sh : Shared} {key pipe : PipeKey} {f : Pipe → Pipe} {reads writes reads' writes' : ℕ}
    (hpipes : sh.pipes = pipes.modify key f) (h : Pipe.Exactly reads writes (pipes.get pipe))
    (hother : key ≠ pipe → reads' = reads ∧ writes' = writes) (hsame : key = pipe → 0 < reads + writes ∧
      ∀ p : Pipe, p.readers = reads → p.writers = writes → (f p).readers = reads' ∧ (f p).writers = writes') :
    Pipe.Exactly reads' writes' ((sh.collectPipe key).pipes.get pipe) := by
  by_cases hpipe : key = pipe
  · obtain ⟨hpos, hdrops⟩ := hsame hpipe
    subst hpipe
    cases hp : pipes.get key with
    | none =>
      rw [hp] at h
      obtain ⟨rfl, rfl⟩ := h
      exact absurd hpos (lt_irrefl 0)
    | some p =>
      rw [hp] at h
      obtain ⟨hreaders, hwriters, -⟩ := h
      obtain ⟨rfl, rfl⟩ := hdrops p hreaders hwriters
      apply exactly_collectPipe
      simp [hpipes, hp]
  · obtain ⟨rfl, rfl⟩ := hother hpipe
    rw [get_collectPipe_other hpipe, hpipes, Slab.get_modify, if_neg hpipe]
    exact h

/-- A description goes, and the pipe that it is an end of counts one less. -/
theorem Metered.dropped {sh : Shared} (h : Metered sh.descs sh.pipes) {key : DescKey} {d : Desc}
    (hd : sh.descs.get key = some d) :
    Metered (sh.descs.remove key).2
        (({ sh with descs := (sh.descs.remove key).2 } : Shared).dropDesc d).2.pipes := by
  intro pipe
  have hexact := h pipe
  have hreads := ofKind_remove hd (.pipeRead pipe)
  have hwrites := ofKind_remove hd (.pipeWrite pipe)
  generalize (sh.descs.remove key).2 = descs at *
  unfold Shared.dropDesc
  split
  · rename_i hkind
    simp only [hkind, reduceCtorEq, if_false] at hreads hwrites
    rwa [← hreads, ← hwrites] at hexact
  · rename_i key' hkind
    simp only [hkind, DescKind.pipeRead.injEq, reduceCtorEq, if_false] at hreads hwrites
    apply exactly_dropped rfl hexact
    · intro hother
      rw [if_neg hother] at hreads
      exact ⟨by omega, by omega⟩
    · intro hsame
      rw [if_pos hsame] at hreads
      refine ⟨by omega, fun p hreaders hwriters => ⟨?_, ?_⟩⟩
      · show p.readers - 1 = _
        omega
      · show p.writers = _
        omega
  · rename_i key' hkind
    simp only [hkind, DescKind.pipeWrite.injEq, reduceCtorEq, if_false] at hreads hwrites
    apply exactly_dropped rfl hexact
    · intro hother
      rw [if_neg hother] at hwrites
      exact ⟨by omega, by omega⟩
    · intro hsame
      rw [if_pos hsame] at hwrites
      refine ⟨by omega, fun p hreaders hwriters => ⟨?_, ?_⟩⟩
      · show p.readers = _
        omega
      · show p.writers - 1 = _
        omega
  · rename_i hfile hread hwrite
    rw [if_neg (hread pipe)] at hreads
    rw [if_neg (hwrite pipe)] at hwrites
    rwa [← hreads, ← hwrites] at hexact

theorem hardy_metered : Hardy Metered where
  recount key f h := h.congr (fun _ => ofKind_modify key fun _ _ => Iff.rfl) fun _ =>
    ofKind_modify key fun _ _ => Iff.rfl
  moved key pos h := by
    have hkind : ∀ (d : Desc) (kind : DescKind), kind.pipe.isSome = true →
        ((d.movedTo pos).kind = kind ↔ d.kind = kind) := by
      intro d kind hpipe
      obtain ⟨dkind, path, flags, refs⟩ := d
      cases dkind <;> cases kind <;> simp [Desc.movedTo, DescKind.pipe] at hpipe ⊢
    exact h.congr (fun pipe => ofKind_modify key fun d _ => hkind d _ rfl) fun pipe =>
      ofKind_modify key fun d _ => hkind d _ rfl
  dropped {sh key d} h hd := by
    rw [Shared.Has, Shared.dropDesc_descs]
    exact Metered.dropped h hd

/-- A pipe with one description of each of its ends. -/
theorem Metered.piped {descs'' : Slab Desc} {flags cap cap' cap'' : ℕ} {pipe : PipeKey} {key key' : DescKey}
    (h : Metered descs pipes) (hpipe : pipes.insert Pipe.new cap = some (pipe, pipes'))
    (hread : descs.insert (Machine.pipeDesc (.pipeRead pipe) oRdonly flags) cap' = some (key, descs'))
    (hwrite : descs'.insert (Machine.pipeDesc (.pipeWrite pipe) oWronly flags) cap'' = some (key', descs'')) :
    Metered descs'' pipes' := by
  obtain ⟨hfree, hnew, hold⟩ := Slab.insert_spec hpipe
  intro other
  rw [ofKind_insert hwrite, ofKind_insert hwrite, ofKind_insert hread, ofKind_insert hread]
  simp only [Machine.pipeDesc, Desc.new, DescKind.pipeRead.injEq, DescKind.pipeWrite.injEq,
    reduceCtorEq, if_false, Nat.add_zero]
  have hexact := h other
  by_cases hother : pipe = other
  · subst hother
    rw [hfree] at hexact
    rw [hnew, if_pos rfl]
    obtain ⟨hreads, hwrites⟩ := hexact
    simp [Pipe.Exactly, Pipe.new, hreads, hwrites]
  · rw [if_neg hother, hold other (Ne.symm hother)]
    exact hexact

/-- Who makes a pipe makes all of it, or nothing at all. -/
theorem metered_pipe2 {m : Machine} (h : m.shared.Has Metered) {flags : ℕ}
    (hwhole : ¬ Act.leaks (.pipe2 flags) m) :
    (m.pipe2 flags).2.shared.Has Metered := by
  cases hmake : m.shared.pipes.insert Pipe.new m.shared.limits.openFiles with
  | none =>
    unfold Machine.pipe2
    simp only [hmake]
    exact h
  | some made =>
    obtain ⟨pipe, pipes⟩ := made
    have hdone : ∀ e, (m.pipe2 flags).1 ≠ .error e := fun e he => hwhole ⟨by rw [hmake]; rfl, e, he⟩
    unfold Machine.pipe2 at hdone ⊢
    simp only [hmake] at hdone ⊢
    split
    · rename_i hread
      simp only [hread] at hdone
      exact absurd rfl (hdone .mfile)
    rename_i readDesc descs hread
    simp only [hread] at hdone
    split
    · rename_i hwrite
      simp only [hwrite] at hdone
      exact absurd rfl (hdone .mfile)
    rename_i writeDesc descs' hwrite
    have hmade : Metered descs' pipes := Metered.piped h hmake hread hwrite
    simp only [hwrite] at hdone
    split
    · exact hmade
    split
    · exact hmade
    split
    · exact hmade
    · rename_i _ readFd fds halloc _ e halloc' _ entry fds' htake
      simp only [halloc, halloc', htake] at hdone
      exact absurd rfl (hdone e)

theorem Metered.act {m : Machine} (h : m.shared.Has Metered) (a : Act) (hkeeps : ¬ a.leaks m) :
    (a.exec m).2.shared.Has Metered := by
  apply hardy_metered.act h
  · rintro kind path flags cloexec - cap key descs hins
    have hother : ∀ end' : DescKind, end'.pipe.isSome = true → ¬ kind.1 = end' := by
      intro end' hpipe hkind
      have hnone := kind.2
      rw [hkind] at hnone
      rw [hnone] at hpipe
      cases hpipe
    refine Metered.congr h (fun pipe => ?_) fun pipe => ?_
    · rw [ofKind_insert hins, Desc.new, if_neg (hother _ rfl), Nat.add_zero]
    · rw [ofKind_insert hins, Desc.new, if_neg (hother _ rfl), Nat.add_zero]
  · exact fun key flags _ => Metered.congr h (fun _ => ofKind_modify key fun _ _ => Iff.rfl)
      fun _ => ofKind_modify key fun _ _ => Iff.rfl
  · rintro flags rfl
    exact metered_pipe2 h hkeeps
  · exact fun key count _ => Metered.filled h key _
  · exact fun key data _ => Metered.filled h key _

end

theorem metered_kernel {c : Config} {started : Instant} {k : Kernel} (hk : c.kernel started = some k) :
    k.shared.Has Metered := by
  -- No stream of the first process is an end of a pipe.
  obtain ⟨fds, slab, rfl⟩ := Config.kernel_eq hk
  have hcounts := (fitted_kernel hk).plumbed
  exact hcounts

/-! ## Whole sessions -/

section
variable {W : Type} {x : Env W}

/-- A session in which no operation loses count. -/
structure Kernel.Reckoned (k : Kernel) : Prop where
  stripped : k.Everyone Ctx.Stripped
  metered : k.shared.Has Metered
  covers : Covers u32Max (counts k.shared.descs) k.held
  tight : 3 ≤ k.shared.limits.openFiles → Tight (counts k.shared.descs) k.held

/-- An operation with a number of descriptors that can be counted. -/
def KOp.Countable (o : KOp) (k : Kernel) : Prop := k.slots + o.inHand < 2^32

theorem reckoned_kernel {c : Config} {started : Instant} {k : Kernel} (hk : c.kernel started = some k) :
    k.Reckoned := by
  refine ⟨?_, metered_kernel hk, ?_, fun hroom => ?_⟩
  · obtain ⟨fds, slab, rfl⟩ := Config.kernel_eq hk
    exact fun p hp => absurd hp List.not_mem_nil
  · have htrade : Trade u32Max True True (fun _ => none) (fun _ => 0) (counts k.shared.descs) k.held :=
      trade_kernel hk (.inl trivial)
    exact htrade.covers fun key hkey => absurd hkey (lt_irrefl 0)
  · have hlimits : k.shared.limits = c.limits := by
      obtain ⟨fds, slab, rfl⟩ := Config.kernel_eq hk
      rfl
    rw [hlimits] at hroom
    have htrade : Trade u32Max True False (fun _ => none) (fun _ => 0) (counts k.shared.descs) k.held :=
      trade_kernel hk (.inr hroom)
    exact htrade.tight (by decide) fun key n hcount => by cases hcount

theorem Kernel.Reckoned.kexec {k : Kernel} {w : W} {o : KOp} (h : k.Reckoned) (htidy : o.Tidy k)
    (hcounted : o.Counted k) (hcountable : o.Countable k) : (kexec x o (k, w)).2.1.Reckoned := by
  have hfits : True → ∀ key, k.held key + o.inHand ≤ u32Max := by
    intro _ key
    have hslots := k.held_le_slots key
    unfold KOp.Countable at hcountable
    unfold u32Max
    omega
  have htrade : KTraded True (o.leaks k) k (Wasmux.kexec x o (k, w)).2.1 := ktraded k x w o hfits
  refine ⟨kexec_stripped x h.stripped htidy, ?_, htrade.covers h.covers, fun hroom => ?_⟩
  · cases o with
    | env c => exact h.metered
    | act a => exact hardy_metered.kact h.metered a
    | machine index o =>
      rcases hat : k.procs[index]? with _ | p
      · rw [kexec_machine_none x hat]
        exact h.metered
      rw [kexec_machine x hat]
      cases o with
      | env c => exact h.metered
      | act a => exact Metered.act (m := k.machineOf p) h.metered a (hcounted p hat)
  · have hlimits : (Wasmux.kexec x o (k, w)).2.1.shared.limits = k.shared.limits :=
      congrArg Settings.limits (settings_kexec x o (k, w))
    rw [hlimits] at hroom
    have htight := htrade.mono (hcounted.tight htidy h.stripped)
    exact Trade.tight (by decide) htight (h.tight hroom)

theorem reached_reckoned {k : Kernel} {w : W}
    (h : Reached x (fun o s => o.Counted s.1 ∧ o.Countable s.1) k w) :
    k.Reckoned := by
  have hkept : KeptTo x (fun o s => o.Counted s.1 ∧ o.Countable s.1) (fun o s => o.Tidy s.1) Kernel.Settled
      fun k index => k.Handed index := (keptTo_settled x).weaken (fun _ _ _ => trivial) fun _ _ => id
  have htidy := hkept.reached (fun c started k hk => (registered_kernel hk).2)
    (fun k data closed hk => hk.congr rfl) (fun k out err hk => hk.congr rfl) h
  refine reached_keeps (P := Kernel.Reckoned) (fun c started k => reckoned_kernel) ?_ ?_ ?_ htidy
  · exact fun o s hs hmeets => hs.kexec hmeets.2 hmeets.1.1 hmeets.1.2
  · exact fun k data closed hk => ⟨hk.stripped, hk.metered, hk.covers, hk.tight⟩
  · exact fun k out err hk => ⟨hk.stripped, hk.metered, hk.covers, hk.tight⟩

/-- References are exact, as long as no operation loses count of one: a description
is counted as often as descriptors name it, and there while one does; a pipe
counts the descriptions of its ends, and is there while there is one. -/
theorem references_exact {k : Kernel} {w : W} (h : Reached x (fun o s => o.Counted s.1 ∧ o.Countable s.1) k w)
    (hslots : k.slots < 2^32) (hroom : 3 ≤ k.shared.limits.openFiles) :
    (∀ key, (k.shared.descs.get key).map Desc.refs = if k.held key = 0 then none else some (k.held key)) ∧
      ∀ pipe, (k.shared.pipes.get pipe).map (fun p => (p.readers, p.writers)) =
        if k.shared.descs.ofKind (.pipeRead pipe) + k.shared.descs.ofKind (.pipeWrite pipe) = 0 then none
        else some (k.shared.descs.ofKind (.pipeRead pipe), k.shared.descs.ofKind (.pipeWrite pipe)) := by
  have hreckoned := reached_reckoned h
  refine ⟨fun key => ?_, fun pipe => ?_⟩
  · have htight := hreckoned.tight hroom key
    have hcovers := hreckoned.covers key
    have hheld := k.held_le_slots key
    change counts k.shared.descs key = _
    rcases hcount : counts k.shared.descs key with _ | n
    · rw [hcount] at hcovers
      split
      · rfl
      · obtain ⟨n, hn, -⟩ := hcovers (by omega)
        cases hn
    · obtain ⟨hpos, hle⟩ := htight n hcount
      obtain ⟨m, hm, hmin⟩ := hcovers (by omega)
      rw [hcount] at hm
      obtain rfl := Option.some.inj hm
      rw [if_neg (by omega)]
      unfold u32Max at hmin
      congr 1
      omega
  · have hexact := hreckoned.metered pipe
    rcases hp : k.shared.pipes.get pipe with _ | p
    · rw [hp] at hexact
      rw [if_pos (by simp [hexact.1, hexact.2])]
      rfl
    · rw [hp] at hexact
      obtain ⟨hreaders, hwriters, hpos⟩ := hexact
      rw [if_neg (by omega), ← hreaders, ← hwriters]
      rfl

end

/-- A sufficient check that an act loses count of nothing. -/
def Act.reckons : Act → Machine → Bool
  | .dup fd cloexec min, m => (m.dup fd cloexec min).1.isOk
  | .dupTo fd target cloexec, m => (m.dupTo fd target cloexec).1.isOk
  | .pipe2 flags, m => (m.pipe2 flags).1.isOk
  | _, _ => true

theorem Act.counted_of_reckons {a : Act} {m : Machine} (h : a.reckons m = true) : ¬ a.leaks m := by
  intro hleaks
  cases a with
  | dup fd cloexec min =>
    obtain ⟨entry, e, hget, halloc⟩ := hleaks
    simp [reckons, Machine.dup, hget, Machine.setShared, Shared.addRef, halloc, Except.isOk,
      Except.toBool] at h
  | dupTo fd target cloexec =>
    obtain ⟨entry, e, hget, halloc⟩ := hleaks
    simp [reckons, Machine.dupTo, hget, Machine.setShared, Shared.addRef, halloc, Except.isOk,
      Except.toBool] at h
  | pipe2 flags =>
    obtain ⟨-, e, herror⟩ := hleaks
    simp [reckons, herror, Except.isOk, Except.toBool] at h
  | _ => exact hleaks

def KOp.reckons : KOp → Kernel → Bool
  | .machine index (.act a), k => (k.procs[index]?).all fun p => a.reckons (k.machineOf p)
  | .act (.finishProcess index _), k => (k.procs[index]?).all fun p => p.ctx.execRequest.isNone
  | _, _ => true

theorem KOp.counted_of_reckons {o : KOp} {k : Kernel} (h : o.reckons k = true) : o.Counted k := by
  cases o with
  | env c => trivial
  | act a =>
    cases a with
    | finishProcess index status =>
      intro p hp
      have hnone : (k.procs[index]?).all (fun p => p.ctx.execRequest.isNone) = true := h
      rw [hp] at hnone
      simpa using hnone
    | _ => trivial
  | machine index o =>
    cases o with
    | env c => trivial
    | act a =>
      intro p hp
      have hkeeps : (k.procs[index]?).all (fun p => a.reckons (k.machineOf p)) = true := h
      rw [hp] at hkeeps
      exact Act.counted_of_reckons hkeeps

theorem along_reckoned {W α : Type} {x : Env W} {p : Sched α} {s : Kernel × W}
    (h : ((p.trace (kexec x) s).all fun v => v.op.reckons v.before.1 &&
      decide (v.before.1.slots + v.op.inHand < 2^32)) = true) :
    p.Along (kexec x) (fun o s => o.Counted s.1 ∧ o.Countable s.1) s := by
  have hcheck : ∀ (o : KOp) (s : Kernel × W), (o.reckons s.1 && decide (s.1.slots + o.inHand < 2^32)) = true →
      o.Counted s.1 ∧ o.Countable s.1 := by
    intro o s hboth
    obtain ⟨hkeeps, hslots⟩ := Bool.and_eq_true_iff.mp hboth
    have hfew : s.1.slots + o.inHand < 2^32 := of_decide_eq_true hslots
    exact ⟨KOp.counted_of_reckons hkeeps, hfew⟩
  exact Program.along_of_checks _ hcheck h

/-- A guest makes a pipe, closes the end that is written to and duplicates the other. -/
theorem references_exact_pipe : ∃ (k : Kernel) (w : List GuestRun),
    Reached Env.usesPipe (fun o s => o.Counted s.1 ∧ o.Countable s.1) k w ∧
    (k.shared.descs.get 3).map Desc.refs = some 2 ∧ (k.shared.descs.get 4).map Desc.refs = none ∧
    (k.shared.pipes.get 0).map (fun p => (p.readers, p.writers)) = some (1, 0) := by
  have hstart : Between Env.usesPipe (fun o s => o.Counted s.1 ∧ o.Countable s.1) ⟨_, none⟩ _ :=
    .start .oneMount 0 _ _ _ [⟨[.syscall 59 0, .syscall 57 24, .syscall 23 48, .setjmp 0], none⟩] rfl
      (along_reckoned (by decide +kernel)) rfl
  have hstep := Between.step _ _ _ _ 2 ⟨some 0, none⟩ .budget hstart (along_reckoned (by decide +kernel)) rfl
  obtain ⟨k, w, hreached, hslots, hroom, hopen, hclosed, hreads, hwrites⟩ :
    ∃ (k : Kernel) (w : List GuestRun),
      Reached Env.usesPipe (fun o s => o.Counted s.1 ∧ o.Countable s.1) k w ∧ k.slots < 2^32 ∧
      3 ≤ k.shared.limits.openFiles ∧ k.held 3 = 2 ∧ k.held 4 = 0 ∧ k.shared.descs.ofKind (.pipeRead 0) = 1 ∧
      k.shared.descs.ofKind (.pipeWrite 0) = 0 :=
    ⟨_, _, .between _ _ hstep, by decide +kernel, by decide +kernel, by decide +kernel, by decide +kernel,
      by decide +kernel, by decide +kernel⟩
  obtain ⟨hdescs, hpipes⟩ := references_exact hreached hslots hroom
  refine ⟨k, w, hreached, ?_, ?_, ?_⟩
  · rw [hdescs, hopen]
    rfl
  · rw [hdescs, hclosed]
    rfl
  · rw [hpipes, hreads, hwrites]
    rfl

end Wasmux
