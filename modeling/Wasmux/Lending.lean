import Wasmux.Outstanding
import Wasmux.Vfork

/-!
# What is lent is given back

A `vfork` lends the instance to the child, and a `rt_sigsuspend` lends the
process another mask while it waits. What is noted of each process is the task
it had when its call was first made, and the tasks of those that wait for it
below, as they were when they called `vfork`.
-/

set_option autoImplicit false

namespace Wasmux
open Effects Abi

/-- What is noted of the calls of a process, and of the processes whose instance it has. -/
structure Lent where
  again : Option (ℤ × Args)
  first : Task
  parents : List Task

namespace Lent

/-- A call is made, for the first time or again. -/
def called (t : Lent) (task : Task) : Lent :=
    if t.again.isSome then { t with again := none } else { t with first := task }

@[simp] theorem called_again (t : Lent) (task : Task) : (t.called task).again = none := by
  unfold called
  split
  · rfl
  · rename_i h
    simpa using h

@[simp] theorem called_parents (t : Lent) (task : Task) : (t.called task).parents = t.parents := by
  unfold called
  split <;> rfl

theorem called_first {t : Lent} (h : t.again = none) (task : Task) : (t.called task).first = task := by
  rw [called, h]
  rfl

theorem called_retry {t : Lent} {call : ℤ × Args} (h : t.again = some call) (task : Task) :
    (t.called task).first = t.first := by
  rw [called, h]
  rfl

end Lent

/-- The notes of what each process is lent. -/
def lending : Chronicle Lent where
  fresh := ⟨none, default, []⟩
  machine
    | .act .served, m, _, t => t.called m.ctx.task
    | .act .fork, m, some _, t => { t with parents := m.ctx.task :: t.parents }
    | .act (.vforkExit _), _, some _, t => { t with parents := t.parents.tail }
    | .act (.finishExec _ _ _ _), _, _, t => { t with parents := t.parents.tail }
    | _, _, _, t => t
  act
    | .attach _, p, t => { t with again := p.resume.call }
    | _, _, t => t
  command _ _ t := t

/-- Outside its calls a process has its own mask, and all the while the parents
noted are those that wait for it. -/
def lentCalls : Calls Lent where
  again := Lent.again
  idle s t := s.maskToRestore = none ∧ s.parents = t.parents
  held number _ s t := s.parents = t.parents ∧ (Nr.ofInt number ≠ .rtSigsuspend → s.maskToRestore = none) ∧
    (Nr.ofInt number = .rtSigsuspend → s.maskToRestore = some t.first.sigmask ∧
      ∃ mask, s.task = { t.first with sigmask := mask })

/-! ## One call -/

namespace Machine
variable (m : Machine)

theorem fork_exec : m.fork.2.ctx.exec = m.ctx.exec := by
  unfold fork
  split <;> rfl

theorem vforkExit_exec (status : ℤ) : (m.vforkExit status).2.ctx.exec = m.ctx.exec := by
  unfold vforkExit
  split <;> rfl

theorem finishExec_exec (program : ProgramId) (exe : Text) (argv envp : List Bytes) :
    (m.finishExec program exe argv envp).2.ctx.exec = m.ctx.exec := by
  unfold finishExec
  cases m.ctx.vforkStack <;> rfl

end Machine

/-- A mask is kept to be put back by one act, and put back by another. -/
theorem Act.maskToRestore_exec (a : Act) (m : Machine) (hmasks : (Op.act a).masks = false)
    (hsettle : a ≠ .settle) :
    (a.exec m).2.ctx.exec.maskToRestore = m.ctx.exec.maskToRestore := by
  by_cases hshuffles : a.shuffles = true
  · obtain ⟨fds, descs, pipes, heq⟩ := a.shuffles_exec m hshuffles
    rw [heq]
  cases a with
  | openDesc | dup | dupTo | close | pipe2 => exact absurd rfl hshuffles
  | suspendMask mask => cases hmasks
  | settle => exact absurd rfl hsettle
  | fork => exact congrArg ExecState.maskToRestore m.fork_exec
  | vforkExit status => exact congrArg ExecState.maskToRestore (m.vforkExit_exec status)
  | finishExec program exe argv envp =>
      exact congrArg ExecState.maskToRestore (m.finishExec_exec program exe argv envp)
  | put start data =>
    simp only [exec]
    split <;> rfl
  | setCloexec fd on =>
    simp only [exec]
    split <;> rfl
  | _ => rfl

section
variable {σ : Type}

theorem unmasked_of_after (t : Mark) (vs : List (Program.Visit sig σ))
    (h : (footprint.after t vs).masked = false) :
    t.masked = false ∧ ∀ v ∈ vs, v.op.masks = false := by
  induction vs generalizing t with
  | nil => exact ⟨h, fun v hv => by cases hv⟩
  | cons v vs ih =>
    obtain ⟨hnext, hrest⟩ := ih _ h
    have hor : t.masked = false ∧ v.op.masks = false := by
      simpa [footprint] using hnext
    refine ⟨hor.1, fun u hu => ?_⟩
    rcases List.mem_cons.mp hu with rfl | hu
    · exact hor.2
    · exact hrest u hu

end

section
variable {W : Type} {x : Env W}

theorem maskToRestore_handle {number : ℤ} (a : Args) (h : Nr.ofInt number ≠ .rtSigsuspend) (s : Machine × W) :
    ((handle number a).run (exec x) s).2.1.ctx.exec.maskToRestore = s.1.ctx.exec.maskToRestore := by
  have hended := (calm_handle number a).ended x s
  have hunmasked := (unmasked_of_after _ _ (hended.masked (Nr.kind_masks h))).2
  have halong : (handle number a).Along (exec x) (fun o _ => o.masks = false) s :=
    (Program.along_iff_trace (exec x) _ _ s).mpr hunmasked
  refine Program.final_keeps_along (exec x) (P := fun t : Machine × W =>
    t.1.ctx.exec.maskToRestore = s.1.ctx.exec.maskToRestore) ?_ rfl (Program.Along.and _ halong
      (along_gates number a s))
  rintro o t ht ⟨hmasks, hgates, -⟩
  cases o with
  | env c => exact ht
  | act b =>
    refine (b.maskToRestore_exec t.1 hmasks ?_).trans ht
    rintro rfl
    cases hgates

/-- Nothing is kept for a call that is answered. -/
theorem dispatch_settled {number : ℤ} {a : Args} {m : Machine} {w : W} {outcome : Outcome} {s : Machine × W}
    (h : (dispatch number a : Program sig Stop Outcome).run (exec x) (m, w) = (.ok outcome, s)) :
    ∃ r t, (handle number a).run (exec x) (m.counted, w) = (r, t) ∧
      ((outcome = .blocked ∧ r = .error .block ∧ s = t) ∨
        ((∃ v, outcome = .value v) ∧ s.1 = t.1.settled.flagged) ∨
        ((outcome = .exec ∧ r = .error .exec ∨ ∃ status, outcome = .exit status ∧
          r = .error (.exit status)) ∧ s = t)) := by
  rw [run_dispatch] at h
  rcases hrun : (handle number a).run (exec x) (m.counted, w) with ⟨r, n, u⟩
  rw [hrun] at h
  refine ⟨r, (n, u), rfl, ?_⟩
  rcases r with (e | _ | status | _) | value
  · rw [conclude_errno] at h
    cases h
    exact .inr (.inl ⟨⟨_, rfl⟩, rfl⟩)
  · rw [conclude_block] at h
    split at h
    · cases h
      exact .inr (.inl ⟨⟨_, rfl⟩, rfl⟩)
    · cases h
      exact .inl ⟨rfl, rfl, rfl⟩
  · cases h
    exact .inr (.inr ⟨.inr ⟨status, rfl, rfl⟩, rfl⟩)
  · cases h
    exact .inr (.inr ⟨.inl ⟨rfl, rfl⟩, rfl⟩)
  · rw [conclude_ok] at h
    cases h
    exact .inr (.inl ⟨⟨_, rfl⟩, rfl⟩)

theorem flagged_ctx (m : Machine) : m.flagged.ctx = m.ctx := by
  unfold Machine.flagged
  split
  · rfl
  · simp only [Act.exec]
    split <;> rfl

/-- The process has this task but for its mask, and has this one's mask of its own. -/
structure Ctx.Lends (c : Ctx) (first : Task) : Prop where
  task : ∃ mask, c.task = { first with sigmask := mask }
  mask : c.ownMask = first.sigmask

theorem lends_self {c : Ctx} (h : c.exec.maskToRestore = none) : c.Lends c.task := by
  refine ⟨⟨c.task.sigmask, rfl⟩, ?_⟩
  rw [Ctx.ownMask, h]
  rfl

namespace Ctx.Lends
variable {m : Machine} {first : Task}

theorem suspended (h : m.ctx.Lends first) (mask : Sigset) :
    ((Act.suspendMask mask).exec m).2.ctx.Lends first ∧
    ((Act.suspendMask mask).exec m).2.ctx.exec.maskToRestore = some first.sigmask := by
  have hown : m.ctx.exec.maskToRestore.or (some m.ctx.task.sigmask) = some first.sigmask := by
    rw [← h.mask, Ctx.ownMask]
    cases m.ctx.exec.maskToRestore <;> rfl
  obtain ⟨old, hold⟩ := h.task
  refine ⟨⟨⟨mask, ?_⟩, ?_⟩, hown⟩
  · show ({ m.ctx.task with sigmask := mask } : Task) = _
    rw [hold]
  · show (m.ctx.exec.maskToRestore.or (some m.ctx.task.sigmask)).getD mask = _
    rw [hown]
    rfl

theorem settled (h : m.ctx.Lends first) : m.settled.flagged.ctx.task = first := by
  obtain ⟨old, hold⟩ := h.task
  rw [flagged_ctx]
  show ({ m.ctx.task with sigmask := m.ctx.ownMask } : Task) = first
  rw [h.mask, hold]

end Ctx.Lends

/-- What a `rt_sigsuspend` does: it is refused, or it lends a mask and waits or is interrupted. -/
theorem run_sigsuspend (a : Args) (m : Machine) (w : W) :
    (∃ e, (Sys.rtSigsuspend a).run (exec x) (m, w) = (.error (.errno e), (m, w))) ∨
    ∃ mask f, (Sys.rtSigsuspend a).run (exec x) (m, w) = (.error f, (((Act.suspendMask mask).exec m).2, w)) ∧
      (f = .block ∨ f = .errno .intr) := by
  rcases hmask : m.inst.mem.u64 (asU32 a.a0) with e | mask
  · left
    refine ⟨e, ?_⟩
    change Program.run (exec x) (lift (m.inst.mem.u64 (asU32 a.a0)) >>= fun mask => _) (m, w) = _
    rw [hmask]
    rfl
  · right
    refine ⟨BitVec.ofNat 64 mask,
      if ((Act.suspendMask (BitVec.ofNat 64 mask)).exec m).2.view.live ≠
      0 then .errno .intr else .block, ?_, ?_⟩
    · change Program.run (exec x) (lift (m.inst.mem.u64 (asU32 a.a0)) >>= fun mask =>
        act (.suspendMask (BitVec.ofNat 64 mask)) >>= fun _ => view >>= fun v =>
          if v.live ≠ 0 then fail .intr else .fail .block : Handler ℤ) (m, w) = _
      rw [hmask]
      change Program.run (exec x) (if ((Act.suspendMask (BitVec.ofNat 64 mask)).exec m).2.view.live ≠
        0 then fail .intr
        else .fail .block : Handler ℤ) (((Act.suspendMask (BitVec.ofNat 64 mask)).exec m).2, w) = _
      split <;> rfl
    · split
      · exact .inr rfl
      · exact .inl rfl

/-! ## What is noted -/

/-- Whoever has the instance, the parents noted are those that wait for it. -/
theorem parents_lending {o : Op} (ho : o ≠ .act .served) (m : Machine) (w : W) {t : Lent}
    (h : m.ctx.vforkStack = t.parents) :
    (exec x o (m, w)).2.1.ctx.vforkStack = (lending.machine o m (exec x o (m, w)).1 t).parents ∧
      (lending.machine o m (exec x o (m, w)).1 t).again = t.again ∧
      (lending.machine o m (exec x o (m, w)).1 t).first = t.first := by
  cases o with
  | env c => exact ⟨h, rfl, rfl⟩
  | act a =>
    cases a with
    | served => exact absurd rfl ho
    | fork =>
      show m.fork.2.ctx.vforkStack = (lending.machine (.act .fork) m m.fork.1 t).parents ∧ _
      rcases m.fork_cases with ⟨hnone, hsame⟩ | ⟨hsome, henters⟩
      · rw [hsame]
        refine ⟨?_, ?_⟩
        all_goals simp only [exec_act, Act.exec, hnone]
        · exact h
        · exact ⟨rfl, rfl⟩
      · obtain ⟨pid, hpid⟩ := Option.isSome_iff_exists.mp hsome
        rw [henters.stack, h]
        simp only [exec_act, Act.exec, hpid]
        exact ⟨rfl, rfl, rfl⟩
    | vforkExit status =>
      show (m.vforkExit status).2.ctx.vforkStack = _ ∧ _
      rcases hstack : m.ctx.vforkStack with _ | ⟨parent, rest⟩
      · have hnone : m.vforkExit status = (none, m) := by
          unfold Machine.vforkExit
          rw [hstack]
        simp only [exec_act, Act.exec, hnone]
        exact ⟨hstack ▸ h, rfl, rfl⟩
      · obtain ⟨handles, hsome, hleaves⟩ : ∃ handles, (m.vforkExit status).1 = some handles ∧
            (m.vforkExit status).2.ctx.vforkStack = rest := by
          unfold Machine.vforkExit
          rw [hstack]
          exact ⟨_, rfl, rfl⟩
        simp only [exec_act, Act.exec, hsome, hleaves]
        refine ⟨?_, rfl, rfl⟩
        show rest = t.parents.tail
        rw [← h, hstack]
        rfl
    | finishExec program exe argv envp =>
      refine ⟨?_, rfl, rfl⟩
      show (m.finishExec program exe argv envp).2.ctx.vforkStack = t.parents.tail
      rw [← h]
      unfold Machine.finishExec
      cases hstack : m.ctx.vforkStack with
      | nil => exact hstack
      | cons parent rest => rfl
    | _ => exact ⟨(Act.passes_exec _ m rfl).stack.trans h, rfl, rfl⟩

theorem run_lending {number : ℤ} {a : Args} {m : Machine} {w : W} {t : Lent}
    (h : m.ctx.vforkStack = t.parents) {outcome : Outcome} {s : (Machine × W) × Lent}
    (hrun : (dispatch number a : Program sig Stop Outcome).run (lending.noting x) ((m, w), t) =
      (.ok outcome, s)) :
    s.1.1.ctx.vforkStack = s.2.parents ∧ s.2.again = none ∧ s.2.first = (t.called m.ctx.task).first := by
  have hstart : m.counted.ctx.vforkStack = (t.called m.ctx.task).parents := h.trans (t.called_parents _).symm
  have hfinal := Program.final_keeps_along (lending.noting x) (P := fun s : (Machine × W) × Lent =>
    s.1.1.ctx.vforkStack = s.2.parents ∧ s.2.again = none ∧ s.2.first = (t.called m.ctx.task).first) ?_
    (s := ((m.counted, w), t.called m.ctx.task)) ⟨hstart, t.called_again _, rfl⟩
    (Program.along_noting (along_serves (x := x) number a (m.counted, w)))
  · have hlast : ((((handle number a).catching >>= conclude : Program sig Stop Outcome)).run
      (lending.noting x)
        ((m.counted, w), t.called m.ctx.task)).2 = s := congrArg Prod.snd hrun
    rw [← hlast]
    exact hfinal
  · rintro o ⟨⟨n, u⟩, t'⟩ ⟨hstack, hagain, hfirst⟩ ho
    obtain ⟨hstack', hagain', hfirst'⟩ := parents_lending (x := x) ho n u hstack
    exact ⟨hstack', hagain'.trans hagain, hfirst'.trans hfirst⟩

/-- What is lent for a call is kept for its next attempt, and given back when it is answered. -/
theorem kept_lending {number : ℤ} {a : Args} {m : Machine} {w : W} {t : Lent}
    (h : lentCalls.Due number a m.ctx.standing t) {outcome : Outcome} {s : (Machine × W) × Lent}
    (hrun : (dispatch number a : Program sig Stop Outcome).run (lending.noting x) ((m, w), t) =
      (.ok outcome, s)) :
    (outcome = .blocked → lentCalls.held number a s.1.1.ctx.standing s.2) ∧
    (outcome ≠ .blocked → lentCalls.idle s.1.1.ctx.standing s.2) ∧
    (Nr.ofInt number = .rtSigsuspend → (∃ v, outcome = .value v) →
      s.1.1.ctx.task = (t.called m.ctx.task).first) := by
  have hstack : m.ctx.vforkStack = t.parents := by
    rcases h with ⟨-, -, hparents⟩ | ⟨-, hparents, -⟩
    · exact hparents
    · exact hparents
  obtain ⟨hparents, -, hfirst⟩ := run_lending hstack hrun
  obtain ⟨t', hnoted⟩ := lending.run_noting (x := x) (dispatch number a : Program sig Stop Outcome) (m, w) t
  have hplain : (dispatch number a : Program sig Stop Outcome).run (exec x) (m, w) = (.ok outcome, s.1) := by
    have hsame := hrun.symm.trans hnoted
    obtain ⟨hok, hs⟩ := Prod.mk.inj hsame
    exact Prod.ext hok.symm (congrArg Prod.fst hs).symm
  obtain ⟨r, u, hhandle, hends⟩ := dispatch_settled hplain
  have hsettled : s.1.1 = u.1.settled.flagged → s.1.1.ctx.exec.maskToRestore = none := by
    intro hs
    rw [hs, flagged_ctx]
    rfl
  by_cases hcall : Nr.ofInt number = .rtSigsuspend
  · -- the mask lent is the one to be put back, at the first attempt and at every other
    have hlends : m.counted.ctx.Lends (t.called m.ctx.task).first := by
      rcases h with ⟨hagain, hnone, -⟩ | ⟨hagain, -, -, hheld⟩
      · rw [Lent.called_first hagain]
        exact lends_self hnone
      · obtain ⟨hmask, htask⟩ := hheld hcall
        rw [Lent.called_retry hagain]
        refine ⟨htask, ?_⟩
        show m.ctx.exec.maskToRestore.getD _ = _
        rw [show m.ctx.exec.maskToRestore = some t.first.sigmask from hmask]
        rfl
    have hsuspend : handle number a = Sys.rtSigsuspend a := by
      unfold handle
      rw [hcall]
    rw [hsuspend] at hhandle
    obtain ⟨f, hr, hfault, hblocks, hlends'⟩ : ∃ f, r = .error f ∧ (f = .block ∨ ∃ e, f = .errno e) ∧
        (f = .block → u.1.ctx.exec.maskToRestore = some (t.called m.ctx.task).first.sigmask) ∧
        u.1.ctx.Lends (t.called m.ctx.task).first := by
      rcases run_sigsuspend (x := x) a m.counted w with ⟨e, hrun⟩ | ⟨mask, f, hrun, hf⟩
      · obtain ⟨rfl, rfl⟩ := Prod.mk.inj (hrun.symm.trans hhandle)
        exact ⟨_, rfl, .inr ⟨e, rfl⟩, Fault.noConfusion, hlends⟩
      · obtain ⟨rfl, rfl⟩ := Prod.mk.inj (hrun.symm.trans hhandle)
        obtain ⟨hlends', hmask⟩ := hlends.suspended mask
        exact ⟨f, rfl, hf.imp id fun hintr => ⟨_, hintr⟩, fun _ => hmask, hlends'⟩
    rcases hends with ⟨rfl, hblock, hs⟩ | ⟨⟨v, rfl⟩, hs⟩ | ⟨hgone, -⟩
    · refine ⟨fun _ => ⟨hparents, fun hnot => absurd hcall hnot, fun _ => ?_⟩, fun hnot =>
        absurd rfl hnot, ?_⟩
      · rw [hfirst, hs]
        exact ⟨hblocks (Except.error.inj (hr.symm.trans hblock)), hlends'.task⟩
      · rintro - ⟨v, hv⟩
        cases hv
    · refine ⟨fun hblocked => (by cases hblocked), fun _ => ⟨hsettled hs, hparents⟩, fun _ _ => ?_⟩
      rw [hs]
      exact hlends'.settled
    · rw [hr] at hgone
      rcases hgone with ⟨-, hexec⟩ | ⟨status, -, hexit⟩
      · rcases hfault with rfl | ⟨e, rfl⟩
        · cases hexec
        · cases hexec
      · rcases hfault with rfl | ⟨e, rfl⟩
        · cases hexit
        · cases hexit
  · -- no other call lends one
    have hnone : u.1.ctx.exec.maskToRestore = none := by
      have hsame := maskToRestore_handle (x := x) a hcall (m.counted, w)
      rw [hhandle] at hsame
      refine hsame.trans ?_
      rcases h with ⟨-, hnone, -⟩ | ⟨-, -, hheld, -⟩
      · exact hnone
      · exact hheld hcall
    refine ⟨fun hblocked => ⟨hparents, fun _ => ?_, fun hsame => absurd hsame hcall⟩, fun hnot =>
      ⟨?_, hparents⟩,
      fun hsame => absurd hsame hcall⟩
    · rcases hends with ⟨-, -, hs⟩ | ⟨⟨v, hv⟩, -⟩ | ⟨-, hs⟩
      · rw [hs]
        exact hnone
      · cases hblocked.symm.trans hv
      · rw [hs]
        exact hnone
    · rcases hends with ⟨hblocked, -⟩ | ⟨-, hs⟩ | ⟨-, hs⟩
      · exact absurd hblocked hnot
      · exact hsettled hs
      · rw [hs]
        exact hnone

/-- Every attempt of a call finds what the notes say. -/
theorem follows_lending (x : Env W) : lentCalls.Follows lending x fun m _ t => ∀ number a,
    t.again = none ∨ t.again = some (number, a) → lentCalls.Due number a m.ctx.standing t where
  fresh := ⟨rfl, fun _ => ⟨rfl, rfl⟩⟩
  machine o m a t ho := by
    have hsame : lending.machine o m a t = t := by
      cases o with
      | env c => rfl
      | act b =>
        cases b with
        | served | fork | vforkExit | finishExec => cases ho
        | _ => rfl
    rw [hsame]
    exact ⟨rfl, fun _ h => h, fun _ _ _ h => h⟩
  command c r t := ⟨rfl, fun _ h => h, fun _ _ _ h => h⟩
  stepped a p t := by
    cases a with
    | attach i => exact ⟨fun _ h => h, fun _ _ _ h => h⟩
    | _ => exact ⟨fun _ h => h, fun _ _ _ h => h⟩
  attach i p t := rfl
  others a p t ha := by
    cases a with
    | attach i => exact absurd rfl (ha i)
    | _ => rfl
  action _ _ _ _ h := h
  attempt m w t h := h
  due number a m w t h outcome s hrun := by
    have hstack : m.ctx.vforkStack = t.parents := by
      rcases h with ⟨-, -, hparents⟩ | ⟨-, hparents, -⟩
      · exact hparents
      · exact hparents
    obtain ⟨hblocked, hidle, -⟩ := kept_lending h hrun
    exact ⟨(run_lending hstack hrun).2.1, hblocked, hidle⟩

theorem Answers.noted {number v : ℤ} {a : Args} {m m' : Machine} {w w' : W}
    (h : Answers x number a m w v m' w') (t : Lent) :
    ∃ t', (dispatch number a : Program sig Stop Outcome).run (lending.noting x) ((m, w), t) =
      (.ok (.value v), ((m', w'), t')) := by
  obtain ⟨t', hnoted⟩ := lending.run_noting (x := x) (dispatch number a : Program sig Stop Outcome) (m, w) t
  refine ⟨t', hnoted.trans ?_⟩
  rw [h]

/-- The mask of a `rt_sigsuspend` is gone when the call is answered, however
often it was made: the process has again all that it had when it called. -/
theorem sigsuspend_restores {A : KOp → Kernel × W → Prop} {index : ℕ} {k : Kernel} {w w' : W}
    {notes : List Lent} {p : Proc} {t : Lent} {number v : ℤ} {a : Args} {m' : Machine}
    (h : Performed x lending.history A (.machine index (.act .served)) k w notes)
    (hp : k.procs[index]? = some p) (ht : notes[index]? = some t)
    (hcall : t.again = none ∨ t.again = some (number, a)) (hnumber : Nr.ofInt number = .rtSigsuspend)
    (hanswer : Answers x number a (k.machineOf p) w v m' w') :
    m'.ctx.task = (t.called p.ctx.task).first ∧ m'.ctx.exec.maskToRestore = none := by
  have hdue := (follows_lending x).performed h hp ht number a hcall
  obtain ⟨t', hrun⟩ := hanswer.noted t
  obtain ⟨-, hidle, htask⟩ := kept_lending hdue hrun
  exact ⟨htask hnumber ⟨v, rfl⟩, (hidle fun hblocked => by cases hblocked).1⟩

/-! ## Parents and children -/

/-- A call that lent nothing leaves its caller the task that its handler left. -/
theorem task_answered {number v : ℤ} {a : Args} {m m' : Machine} {w w' : W}
    (hnumber : Nr.ofInt number ≠ .rtSigsuspend) (hnone : m.ctx.exec.maskToRestore = none)
    (h : Answers x number a m w v m' w') :
    ∃ r t, (handle number a).run (exec x) (m.counted, w) = (r, t) ∧ m'.ctx.task = t.1.ctx.task ∧
      m'.ctx.vforkStack = t.1.ctx.vforkStack := by
  obtain ⟨r, t, hrun, ⟨hblocked, -⟩ | ⟨-, hs⟩ | ⟨⟨hexec, -⟩ | ⟨status, hexit, -⟩, -⟩⟩ := dispatch_settled h
  · cases hblocked
  · have hmask := maskToRestore_handle (x := x) a hnumber (m.counted, w)
    rw [hrun] at hmask
    have hs : m' = t.1.settled.flagged := hs
    refine ⟨r, t, hrun, ?_, ?_⟩
    · rw [hs]
      exact (lends_self (hmask.trans hnone)).settled
    · rw [hs, flagged_ctx]
      rfl
  · cases hexec
  · cases hexit

/-- The task of the process that waits for the caller is its caller's again. -/
structure Machine.Restores (m : Machine) (v : ℤ) (m' : Machine) : Prop where
  stack : m.ctx.vforkStack = m'.ctx.task :: m'.ctx.vforkStack
  answer : v = m.ctx.task.pid

theorem restores_exit {number v : ℤ} {a : Args} {m m' : Machine} {w w' : W}
    (hnumber : Nr.ofInt number = .exit ∨ Nr.ofInt number = .exitGroup)
    (hnone : m.ctx.exec.maskToRestore = none) (h : Answers x number a m w v m' w') : m.Restores v m' := by
  have hlends : Nr.ofInt number ≠ .rtSigsuspend := by
    rcases hnumber with hexit | hexit <;> rw [hexit] <;> decide
  obtain ⟨r, t, hrun, htask, hstack⟩ := task_answered hlends hnone h
  have hleaves := h.exit hnumber
  obtain ⟨parent, hparent, -⟩ := hleaves.stack
  refine ⟨?_, hleaves.answer⟩
  have hhandle : handle number a = Sys.exit a := by
    unfold handle
    obtain hnr | hnr := hnumber <;> rw [hnr]
  rw [hhandle] at hrun
  change Program.run (exec x) (act (.vforkExit (statusExited a.a0)) >>= _) (m.counted, w) = _ at hrun
  rw [Program.run_bind] at hrun
  change Program.run (exec x) _ ((m.counted.vforkExit (statusExited a.a0)).2, w) = _ at hrun
  dsimp only [Act.exec, exec_act] at hrun
  have hcounted : m.counted.ctx.vforkStack = parent :: m'.ctx.vforkStack := hparent
  obtain ⟨handles, hsome, hparent'⟩ : ∃ handles, (m.counted.vforkExit (statusExited a.a0)).1 = some handles ∧
      (m.counted.vforkExit (statusExited a.a0)).2.ctx.task = parent := by
    unfold Machine.vforkExit
    rw [hcounted]
    exact ⟨_, rfl, rfl⟩
  rw [hsome] at hrun
  obtain ⟨w₁, hclose⟩ := run_closeAll (x := x) handles.2 (m.counted.vforkExit (statusExited a.a0)).2 w
  change Program.run (exec x) (closeAll handles.2 >>= fun _ => _) _ = _ at hrun
  rw [Program.run_bind_ok (exec x) hclose] at hrun
  obtain ⟨-, rfl⟩ := Prod.mk.inj hrun
  rw [htask, hparent, show _ = parent from hparent']

/-- An `execve` that cannot be done leaves its caller as it is, and a child's
that can gives the instance back. -/
theorem restores_execve {number v : ℤ} {a : Args} {m m' : Machine} {w w' : W}
    (hnumber : Nr.ofInt number = .execve) (hnone : m.ctx.exec.maskToRestore = none)
    (h : Answers x number a m w v m' w') :
    ((x.Proper → v < 0) ∧ m'.ctx.task = m.ctx.task ∧ m'.ctx.vforkStack = m.ctx.vforkStack) ∨
      m.Restores v m' := by
  have hlends : Nr.ofInt number ≠ .rtSigsuspend := by
    rw [hnumber]
    decide
  obtain ⟨r, t, hrun, htask, hstack⟩ := task_answered hlends hnone h
  have hhandle : handle number a = Sys.sought a >>= Sys.start := by
    rw [← Sys.execve_eq]
    unfold handle
    rw [hnumber]
  obtain ⟨r', t', hvalue, -, hr⟩ := h.value
  obtain ⟨rfl, rfl⟩ := Prod.mk.inj (hvalue.symm.trans hrun)
  rw [hhandle, Program.run_bind] at hrun
  rcases hsought : (Sys.sought a).run (exec x) (m.counted, w) with ⟨found, n, w₁⟩
  have hnoting : m.counted.Noting n := noting_of_run (Sys.inquires_sought a) hsought
  rw [hsought] at hrun
  rcases found with f | ⟨program, g⟩
  · obtain ⟨rfl, rfl⟩ := Prod.mk.inj hrun
    left
    rw [htask, hstack, hnoting.ctx]
    refine ⟨fun hx => ?_, rfl, rfl⟩
    have hproper : f.proper := Sys.proper_sought hx a _ f (congrArg Prod.fst hsought)
    obtain hr | ⟨e, hr, rfl⟩ | ⟨-, rfl⟩ := hr
    · cases hr
    · cases hr
      exact hproper.asNeg_neg
    · decide
  · right
    obtain ⟨w₂, hstart⟩ := run_finishExec (x := x) program g.exe g.argv g.envp n w₁
    obtain ⟨rfl, rfl⟩ := Prod.mk.inj (hrun.symm.trans hstart)
    rw [finishExec_answer] at hr
    have hctx : n.ctx = m.ctx := hnoting.ctx
    split at hr
    · obtain hr | ⟨e, hr, -⟩ | ⟨hr, -⟩ := hr <;> cases hr
    · rename_i hchild
      obtain ⟨parent, rest, hparent⟩ := List.exists_cons_of_ne_nil hchild
      have hfinish : (n.finishExec program g.exe g.argv g.envp).2.ctx.task = parent ∧
          (n.finishExec program g.exe g.argv g.envp).2.ctx.vforkStack = rest := by
        unfold Machine.finishExec
        rw [hparent]
        exact ⟨rfl, rfl⟩
      refine ⟨?_, ?_⟩
      · rw [htask, hstack, hfinish.1, hfinish.2, ← hctx, hparent]
      · obtain hr | ⟨e, hr, -⟩ | ⟨hr, -⟩ := hr <;> cases hr
        rw [hctx]

/-- A child starts with its parent's task but for the pid, and its parent waits below it. -/
theorem lends_clone {number v : ℤ} {a : Args} {m m' : Machine} {w w' : W} (hnumber : Nr.ofInt number = .clone)
    (hnone : m.ctx.exec.maskToRestore = none) (h : Answers x number a m w v m' w') :
    (v < 0 ∧ m'.ctx.task = m.ctx.task ∧ m'.ctx.vforkStack = m.ctx.vforkStack) ∨
      v = 0 ∧ (∃ pid, m'.ctx.task = { m.ctx.task with pid := pid }) ∧
      m'.ctx.vforkStack = m.ctx.task :: m.ctx.vforkStack := by
  have hlends : Nr.ofInt number ≠ .rtSigsuspend := by
    rw [hnumber]
    decide
  obtain ⟨r, t, hrun, htask, hstack⟩ := task_answered hlends hnone h
  obtain ⟨r', t', hvalue, -, hr⟩ := h.value
  obtain ⟨rfl, rfl⟩ := Prod.mk.inj (hvalue.symm.trans hrun)
  have hhandle : handle number a = Sys.clone a := by
    unfold handle
    rw [hnumber]
  rw [hhandle, Sys.clone] at hrun
  have hrefused : ∀ e : Errno, e.asNeg < 0 → r' = .error (.errno e) → v < 0 := by
    intro e he herror
    rw [herror] at hr
    obtain hr | ⟨e, hr, rfl⟩ | ⟨hr, -⟩ := hr <;> cases hr
    exact he
  split at hrun
  · obtain ⟨rfl, rfl⟩ := Prod.mk.inj hrun
    exact .inl ⟨hrefused _ (by decide) rfl, htask, hstack⟩
  · change Program.run (exec x) (act .fork >>= _) (m.counted, w) = _ at hrun
    rw [Program.run_bind] at hrun
    change Program.run (exec x) _ (m.counted.fork.2, w) = _ at hrun
    dsimp only [Act.exec, exec_act] at hrun
    rcases hfork : m.counted.shared.forkRecord m.counted.ctx.task with _ | ⟨pid, shared⟩
    · have hnothing : m.counted.fork = (none, m.counted) := by
        unfold Machine.fork
        rw [hfork]
      rw [hnothing] at hrun
      obtain ⟨rfl, rfl⟩ := Prod.mk.inj hrun
      exact .inl ⟨hrefused _ (by decide) rfl, htask, hstack⟩
    · obtain ⟨hsome, hchild, hwaits⟩ : m.counted.fork.1 = some pid ∧
          m.counted.fork.2.ctx.task = { m.ctx.task with pid := pid } ∧
          m.counted.fork.2.ctx.vforkStack = m.ctx.task :: m.ctx.vforkStack := by
        unfold Machine.fork
        rw [hfork]
        exact ⟨rfl, rfl, rfl⟩
      rw [hsome] at hrun
      obtain ⟨rfl, rfl⟩ := Prod.mk.inj hrun
      right
      refine ⟨?_, ⟨pid, htask.trans hchild⟩, hstack.trans hwaits⟩
      obtain hr | ⟨e, hr, -⟩ | ⟨hr, -⟩ := hr <;> cases hr
      rfl

/-- A child cannot disturb its parent. The parents noted of a process, as they
were when they called, are those that wait for it, whatever was called since. A
`vfork` puts its caller on top of them, and an exit or an `execve` of the child
gives the instance back to the first of them, which has all it had when it
called and is answered with the pid of the child. Only a `vfork` or an `execve`
with a negative answer leaves it all as it is. -/
theorem vfork_isolates {A : KOp → Kernel × W → Prop} {index : ℕ} {k : Kernel} {w : W}
    {notes : List Lent} {p : Proc} {t : Lent}
    (h : Performed x lending.history A (.machine index (.act .served)) k w notes)
    (hp : k.procs[index]? = some p) (ht : notes[index]? = some t) : p.ctx.vforkStack = t.parents ∧
    ∀ number a v m' w', (t.again = none ∨ t.again = some (number, a)) →
    Answers x number a (k.machineOf p) w v m' w' →
      (Nr.ofInt number = .clone → (v < 0 ∧ m'.ctx.task = p.ctx.task ∧ m'.ctx.vforkStack = t.parents) ∨
        v = 0 ∧ (∃ pid, m'.ctx.task = { p.ctx.task with pid := pid }) ∧
        m'.ctx.vforkStack = p.ctx.task :: t.parents) ∧
      (Nr.ofInt number = .exit ∨ Nr.ofInt number = .exitGroup →
        t.parents = m'.ctx.task :: m'.ctx.vforkStack ∧ v = p.ctx.task.pid) ∧
      (Nr.ofInt number = .execve →
        ((x.Proper → v < 0) ∧ m'.ctx.task = p.ctx.task ∧ m'.ctx.vforkStack = t.parents) ∨
        t.parents = m'.ctx.task :: m'.ctx.vforkStack ∧ v = p.ctx.task.pid) := by
  have hdue := (follows_lending x).performed h hp ht
  have hparents : p.ctx.vforkStack = t.parents := by
    rcases hagain : t.again with _ | ⟨number, a⟩
    · rcases hdue 0 ⟨0, 0, 0, 0, 0, 0⟩ (.inl hagain) with ⟨-, -, hparents⟩ | ⟨-, hparents, -⟩
      · exact hparents
      · exact hparents
    · rcases hdue number a (.inr hagain) with ⟨-, -, hparents⟩ | ⟨-, hparents, -⟩
      · exact hparents
      · exact hparents
  refine ⟨hparents, fun number a v m' w' hcall hanswer => ?_⟩
  have hnone : Nr.ofInt number ≠ .rtSigsuspend → (k.machineOf p).ctx.exec.maskToRestore = none := by
    intro hnumber
    rcases hdue number a hcall with ⟨-, hnone, -⟩ | ⟨-, -, hheld, -⟩
    · exact hnone
    · exact hheld hnumber
  refine ⟨fun hclone => ?_, fun hexit => ?_, fun hexecve => ?_⟩
  · have hclones := lends_clone hclone (hnone (by rw [hclone]; decide)) hanswer
    rw [← hparents]
    exact hclones
  · have hrestores := restores_exit hexit
      (hnone (by rcases hexit with hexit | hexit <;> rw [hexit] <;> decide)) hanswer
    rw [← hparents]
    exact ⟨hrestores.stack, hrestores.answer⟩
  · have hrestores := restores_execve hexecve (hnone (by rw [hexecve]; decide)) hanswer
    rw [← hparents]
    exact hrestores.imp id fun hrestores => ⟨hrestores.stack, hrestores.answer⟩

end

/-- A guest that makes a child, which sets its umask and exits. -/
abbrev Env.vforks : Env (List GuestRun) :=
    Env.scripted (.startingWith (argWords [0x4100, 0, 0, 0, 0, 0, 0o77, 0, 0, 0, 0, 0]))

theorem vfork_isolates_exit :
    ∃ (k : Kernel) (w : List GuestRun) (notes : List Lent) (p : Proc) (t : Lent) (v : ℤ)
    (m' : Machine) (w' : List GuestRun),
    Performed Env.vforks lending.history (fun _ _ => True) (.machine 0 (.act .served)) k w notes ∧
    k.procs[0]? = some p ∧ notes[0]? = some t ∧ p.ctx.task.umask = 0o77 ∧
    Answers Env.vforks 94 ⟨0o77, 0, 0, 0, 0, 0⟩ (k.machineOf p) w v m' w' ∧ m'.ctx.task.umask = 0o22 ∧
    t.parents = m'.ctx.task :: m'.ctx.vforkStack ∧ v = p.ctx.task.pid := by
  have hstart : Recorded Env.vforks lending.history (fun _ _ => True) ⟨_, none⟩ _ [lending.fresh] :=
    .start (.bare [.guest 0]) 0 _ _
      [⟨[.syscall 220 0, .syscall 166 24, .syscall 94 24, .setjmp 0], none⟩] _ _ rfl
      (Program.along_of_forall _ (fun _ _ => trivial) _ _) rfl
  have hexit := Performed.running _ _ _ 2 ⟨some 0, none⟩ _ hstart
    (Program.along_of_forall _ (fun _ _ => trivial) _ _) (List.mem_of_getElem? (i := 25) rfl)
  obtain ⟨k, w, notes, p, t, hexit, hp, ht, humask, hagain, hvalue, hback⟩ :
    ∃ (k : Kernel) (w : List GuestRun) (notes : List Lent) (p : Proc) (t : Lent),
      Performed Env.vforks lending.history (fun _ _ => True) (.machine 0 (.act .served)) k w notes ∧
      k.procs[0]? = some p ∧ notes[0]? = some t ∧ p.ctx.task.umask = 0o77 ∧ t.again = none ∧
      ((dispatch 94 ⟨0o77, 0, 0, 0, 0, 0⟩ : Program sig Stop Outcome).run (exec Env.vforks)
        (k.machineOf p, w)).1 =
        .ok (.value 2) ∧
      ((dispatch 94 ⟨0o77, 0, 0, 0, 0, 0⟩ : Program sig Stop Outcome).run (exec Env.vforks) (k.machineOf p,
        w)).2.1.ctx.task.umask =
        0o22 := ⟨_, _, _, _, _, hexit, rfl, rfl, rfl, rfl, rfl, rfl⟩
  have hanswer : Answers Env.vforks 94 ⟨0o77, 0, 0, 0, 0, 0⟩ (k.machineOf p) w 2 _ _ := Prod.ext hvalue rfl
  exact ⟨k, w, notes, p, t, _, _, _, hexit, hp, ht, humask, hanswer, hback,
    ((vfork_isolates hexit hp ht).2 _ _ _ _ _ (.inl hagain) hanswer).2.1 (.inr rfl)⟩

/-- A guest that blocks a signal and waits for it, and its child, which sends it. -/
abbrev Env.suspends : Env (List GuestRun) := Env.scripted (.startingWith (argWords
  [0, 120, 0, 8, 0, 0, 0x4100, 0, 0, 0, 0, 0, 136, 0, 0, 0, 0, 0, 128, 8, 0, 0, 0, 0, 1, 15, 0, 0, 0, 0,
    0x8000, 0, 0, 0, 0x6e69622f, 0x302f]))

/-- The call has blocked twice. It is made again once the signal is pending. -/
theorem sigsuspend_restores_again :
    ∃ (k : Kernel) (w : List GuestRun) (notes : List Lent) (p : Proc) (t : Lent)
    (m' : Machine) (w' : List GuestRun),
    Performed Env.suspends lending.history (fun _ _ => True) (.machine 0 (.act .served)) k w notes ∧
    k.procs[0]? = some p ∧ notes[0]? = some t ∧ t.again = some (133, ⟨128, 8, 0, 0, 0, 0⟩) ∧
    p.ctx.task.sigmask = 0#64 ∧
    t.first.sigmask = 0x8000#64 ∧
    Answers Env.suspends 133 ⟨128, 8, 0, 0, 0, 0⟩ (k.machineOf p) w Errno.intr.asNeg m' w' ∧
    m'.ctx.task = t.first ∧ m'.ctx.exec.maskToRestore = none := by
  have hstart : Recorded Env.suspends lending.history (fun _ _ => True) ⟨_, none⟩ _ [lending.fresh] :=
    .start (.bare [.guest 0]) 0 _ _
      [⟨[.syscall 135 0, .syscall 220 24, .syscall 221 48, .syscall 133 72], none⟩,
        ⟨[.syscall 129 96, .setjmp 0], none⟩] _ _ rfl (Program.along_of_forall _ (fun _ _ => trivial) _ _) rfl
  have hblocked := hstart.step _ _ _ _ _ _ 3 ⟨some 4, none⟩ .budget (Program.along_of_forall _
    (fun _ _ => trivial) _ _) rfl
  have hsent := hblocked.step _ _ _ _ _ _ 3 ⟨some 2, none⟩ .budget (Program.along_of_forall _
    (fun _ _ => trivial) _ _) rfl
  have hsuspend := Performed.running _ _ _ 2 ⟨some 0, none⟩ _ hsent
    (Program.along_of_forall _ (fun _ _ => trivial) _ _) (List.mem_of_getElem? (i := 8) rfl)
  obtain ⟨k, w, notes, p, hsuspend, hp, hnoted, hmask, hvalue⟩ :
    ∃ (k : Kernel) (w : List GuestRun) (notes : List Lent) (p : Proc), Performed Env.suspends lending.history
        (fun _ _ => True) (.machine 0 (.act .served)) k w notes ∧
      k.procs[0]? = some p ∧
      (notes[0]?).map (fun t => (t.again, t.first.sigmask)) =
        some (some (133, ⟨128, 8, 0, 0, 0, 0⟩), 0x8000#64) ∧
      p.ctx.task.sigmask = 0#64 ∧
      ((dispatch 133 ⟨128, 8, 0, 0, 0, 0⟩ : Program sig Stop Outcome).run (exec Env.suspends)
        (k.machineOf p, w)).1 =
        .ok (.value Errno.intr.asNeg) :=
    ⟨_, _, _, _, hsuspend, rfl, by decide +kernel, by decide +kernel, by decide +kernel⟩
  obtain ⟨t, ht, hcall⟩ := Option.map_eq_some_iff.mp hnoted
  obtain ⟨hagain, hfirst⟩ := Prod.mk.inj hcall
  have hanswer : Answers Env.suspends 133 ⟨128, 8, 0, 0, 0, 0⟩ (k.machineOf p) w Errno.intr.asNeg _ _ :=
    Prod.ext hvalue rfl
  have hcalled : t.called p.ctx.task = { t with again := none } := by
    unfold Lent.called
    rw [hagain]
    rfl
  have hrestored := sigsuspend_restores hsuspend hp ht (.inr hagain) rfl hanswer
  rw [hcalled] at hrestored
  exact ⟨k, w, notes, p, t, _, _, hsuspend, hp, ht, hagain, hmask, hfirst, hanswer, hrestored⟩

end Wasmux
