import Wasmux.Errors
import Wasmux.Lineage

/-!
# An instance changes hands

A `vfork` gives the caller's instance to a child and keeps the caller below it.
An `execve` or exit of the child gives it back, and is answered with the
child's pid. No other act moves an instance from one process to another.
-/

set_option autoImplicit false

namespace Wasmux
open Effects Abi

section
variable {W : Type} {x : Env W} {m m' : Machine} {w w' : W} {r : ℤ} {a : Args}

/-- A system call is answered with a value. -/
def Answers (x : Env W) (number : ℤ) (a : Args) (m : Machine) (w : W) (v : ℤ) (m' : Machine)
    (w' : W) : Prop :=
  (dispatch number a : Program sig Stop Outcome).run (exec x) (m, w) = (.ok (.value v), m', w')

def Sigfetches (x : Env W) (m : Machine) (w : W) (d : SignalDelivery) (m' : Machine) (w' : W) : Prop :=
  ∃ out, (nextSignal out : Program sig Stop SignalDelivery).run (exec x) (m, w) = (.ok d, m', w')

/-- The same process still has its instance, with the same parents below it. -/
structure Machine.Passes (m m' : Machine) : Prop where
  pid : m'.ctx.task.pid = m.ctx.task.pid
  stack : m'.ctx.vforkStack = m.ctx.vforkStack
  next : 0 < m.shared.nextPid → 0 < m'.shared.nextPid

/-- A child has the instance now, and the process that made it waits below it. -/
structure Machine.Enters (m m' : Machine) : Prop where
  pid : 0 < m.shared.nextPid → 0 < m'.ctx.task.pid
  stack : m'.ctx.vforkStack = m.ctx.task :: m.ctx.vforkStack
  next : 0 < m.shared.nextPid → 0 < m'.shared.nextPid

/-- The child has given the instance back, and is answered for with its pid. -/
structure Machine.Leaves (m : Machine) (r : ℤ) (m' : Machine) : Prop where
  answer : r = m.ctx.task.pid
  stack : ∃ parent, m.ctx.vforkStack = parent :: m'.ctx.vforkStack ∧ m'.ctx.task.pid = parent.pid
  next : 0 < m.shared.nextPid → 0 < m'.shared.nextPid

namespace Machine

theorem Passes.refl (m : Machine) : m.Passes m := ⟨rfl, rfl, id⟩

theorem Passes.trans {m m' m'' : Machine} (h : m.Passes m') (h' : m'.Passes m'') : m.Passes m'' where
  pid := h'.pid.trans h.pid
  stack := h'.stack.trans h.stack
  next := h'.next ∘ h.next

theorem Passes.enters {m m' m'' : Machine} (h : m.Enters m') (h' : m'.Passes m'') : m.Enters m'' where
  pid hm := h'.pid ▸ h.pid hm
  stack := h'.stack.trans h.stack
  next := h'.next ∘ h.next

theorem Passes.leaves {m m' m'' : Machine} (h : m.Leaves r m') (h' : m'.Passes m'') : m.Leaves r m'' := by
  obtain ⟨parent, hstack, hpid⟩ := h.stack
  exact ⟨h.answer, ⟨parent, h'.stack ▸ hstack, h'.pid.trans hpid⟩, h'.next ∘ h.next⟩

theorem Noting.passes (h : m.Noting m') : m.Passes m' := by
  refine ⟨by rw [h.ctx], by rw [h.ctx], ?_⟩
  rw [h.shared]
  exact id

end Machine

def Act.conveys : Act → Bool
  | .fork | .vforkExit _ | .finishExec _ _ _ _ => true
  | _ => false

/-- Every other act leaves it with its process. -/
theorem Act.passes_exec (b : Act) (m : Machine) (h : b.conveys = false) : m.Passes (b.exec m).2 := by
  have hnext : 0 < m.shared.nextPid → 0 < (b.exec m).2.shared.nextPid := by
    cases b with
    | fork | vforkExit | finishExec => cases h
    | reap child => exact id
    | _ =>
      rw [(Act.pedigree_exec _ m rfl).2.1]
      exact id
  by_cases hshuffles : b.shuffles = true
  · obtain ⟨fds, descs, pipes, heq⟩ := b.shuffles_exec m hshuffles
    exact ⟨by rw [heq], by rw [heq], hnext⟩
  have hmoves : b.moves = false := by
    cases b with
    | fork | vforkExit | finishExec => cases h
    | openDesc | dup | dupTo | close | pipe2 => exact absurd rfl hshuffles
    | _ => rfl
  exact ⟨b.pid_exec m hmoves, (b.place_exec m hmoves).2, hnext⟩

namespace Machine

theorem passes_counted (m : Machine) : m.Passes m.counted := Act.passes_exec .served m rfl

theorem passes_flagged (m : Machine) : m.Passes m.flagged := by
  unfold flagged
  split
  · exact .refl m
  · exact Act.passes_exec (.put _ _) m rfl

theorem passes_concluded (m : Machine) : m.Passes m.settled.flagged :=
  (Act.passes_exec .settle m rfl).trans (passes_flagged _)

theorem nextPid_releaseAll (keys : List DescKey) (sh : Shared) :
    (sh.releaseAll keys).2.nextPid = sh.nextPid :=
  congrArg (fun c : Counting.Roll ℤ × ℤ × List (ℤ × ℤ) => c.2.1) (Shared.census_releaseAll keys sh)

theorem nextPid_duplicate (table : FdTable) (sh : Shared) : (sh.duplicate table).nextPid = sh.nextPid :=
  congrArg (fun c : Counting.Roll ℤ × ℤ × List (ℤ × ℤ) => c.2.1) (Shared.census_duplicate table sh)

theorem fork_cases (m : Machine) :
    (m.fork.1 = none ∧ m.fork.2 = m) ∨ (m.fork.1.isSome = true ∧ m.Enters m.fork.2) := by
  unfold fork
  split
  · exact .inl ⟨rfl, rfl⟩
  · rename_i pid shared hfork
    obtain ⟨rfl, table, rfl⟩ := Shared.forkRecord_eq hfork
    refine .inr ⟨rfl, id, rfl, fun h => ?_⟩
    dsimp only
    rw [nextPid_duplicate]
    unfold satAddI32 i32Max i32Min
    dsimp only
    omega

theorem vforkExit_cases (m : Machine) (status : ℤ) :
    (m.ctx.vforkStack = [] ∧ (m.vforkExit status).1 = none) ∨
    ∃ handles, (m.vforkExit status).1 = some (m.ctx.task.pid, handles) ∧
    m.Leaves m.ctx.task.pid (m.vforkExit status).2 := by
  unfold vforkExit
  cases hstack : m.ctx.vforkStack with
  | nil => exact .inl ⟨rfl, rfl⟩
  | cons parent rest =>
    refine .inr ⟨_, rfl, rfl, ⟨parent, hstack, rfl⟩, fun h => ?_⟩
    dsimp only
    rw [Shared.nextPid_setExit, Shared.releaseFds, nextPid_releaseAll]
    exact h

theorem finishExec_leaves (m : Machine) (program : ProgramId) (exe : Text) (argv envp : List Bytes)
    (h : m.ctx.vforkStack ≠ []) : m.Leaves m.ctx.task.pid (m.finishExec program exe argv envp).2 := by
  obtain ⟨parent, rest, hstack⟩ := List.exists_cons_of_ne_nil h
  unfold finishExec
  simp only [hstack]
  refine ⟨rfl, ⟨parent, hstack, rfl⟩, fun hpos => ?_⟩
  rw [nextPid_releaseAll]
  exact hpos

end Machine

/-- How a call ends that answers: with the handler's value, or refused. -/
theorem Answers.value {number v : ℤ}
    (h : Answers x number a m w v m' w') :
    ∃ r t, (handle number a).run (exec x) (m.counted, w) = (r, t) ∧ t.1.Passes m' ∧
      (r = .ok v ∨ (∃ e, r = .error (.errno e) ∧ v = e.asNeg) ∨
        (r = .error .block ∧ v = Errno.intr.asNeg)) := by
  rw [Answers, run_dispatch] at h
  rcases hrun : (handle number a).run (exec x) (m.counted, w) with ⟨r, n, u⟩
  rw [hrun] at h
  refine ⟨r, (n, u), rfl, ?_⟩
  rcases r with (e | _ | status | _) | value
  · rw [conclude_errno] at h
    cases h
    exact ⟨Machine.passes_concluded n, .inr (.inl ⟨e, rfl, rfl⟩)⟩
  · rw [conclude_block] at h
    split at h
    · cases h
      exact ⟨Machine.passes_concluded n, .inr (.inr ⟨rfl, rfl⟩)⟩
    · cases h
  · cases h
  · cases h
  · rw [conclude_ok] at h
    cases h
    exact ⟨Machine.passes_concluded n, .inl rfl⟩

theorem Sigfetches.passes {d : SignalDelivery} (h : Sigfetches x m w d m' w') : m.Passes m' := by
  obtain ⟨out, h⟩ := h
  have hkeeps := (delivers_nextSignalFrom (ε := Stop) out (nsig + 1)).final_keeps (exec x)
    (P := fun t : Machine × W => m.Passes t.1) ?_ (s := (m, w)) (.refl m)
  · change m.Passes ((nextSignal out : Program sig Stop SignalDelivery).run (exec x) (m, w)).2.1 at hkeeps
    rwa [h] at hkeeps
  · intro o t ho ht
    cases o with
    | env => exact ht
    | act a =>
      refine ht.trans (Act.passes_exec a t.1 ?_)
      cases a with
      | fork | vforkExit | finishExec => cases ho
      | _ => rfl

def vforkArgs : Args := ⟨0x4000 + 0x100 + 17, 0, 0, 0, 0, 0⟩

theorem run_vfork (m : Machine) (w : W) : (handle 220 vforkArgs).run (exec x) (m, w) =
    (m.fork.1.elim (.error (.errno .again)) fun _ => .ok 0, (m.fork.2, w)) := by
  have hclone : handle 220 vforkArgs = Sys.clone vforkArgs := rfl
  rw [hclone, Sys.clone, if_neg (by decide)]
  change Program.run (exec x) (act .fork >>= _) (m, w) = _
  rw [Program.run_bind]
  change Program.run (exec x) _ (m.fork.2, w) = _
  dsimp only [Act.exec, exec_act]
  rcases m.fork.1 with _ | pid <;> rfl

/-- A `vfork` that fails changes nothing; one that does not has the instance change hands. -/
theorem Answers.vfork {v : ℤ} (h : Answers x 220 vforkArgs m w v m' w') :
    (v < 0 ∧ m.Passes m') ∨ (v = 0 ∧ m.Enters m') := by
  obtain ⟨r, t, hrun, hpasses, hr⟩ := h.value
  rw [run_vfork] at hrun
  obtain ⟨rfl, rfl⟩ := Prod.mk.inj hrun
  have hcounted := m.passes_counted
  rcases m.counted.fork_cases with ⟨hnone, hsame⟩ | ⟨hsome, henters⟩
  · rw [hnone] at hr
    rw [hsame] at hpasses
    refine .inl ⟨?_, hcounted.trans hpasses⟩
    obtain hr | ⟨e, hr, rfl⟩ | ⟨hr, -⟩ := hr
    · cases hr
    · cases hr
      decide
    · cases hr
  · obtain ⟨pid, hpid⟩ := Option.isSome_iff_exists.mp hsome
    rw [hpid] at hr
    refine .inr ⟨?_, hpasses.enters ⟨henters.pid ∘ hcounted.next, henters.stack,
      henters.next ∘ hcounted.next⟩⟩
    obtain hr | ⟨e, hr, -⟩ | ⟨hr, -⟩ := hr <;> cases hr
    rfl

/-- Only a child that gives its instance back has an answer to its exit. -/
theorem Answers.exit {number v : ℤ} (hexit : Nr.ofInt number = .exit ∨ Nr.ofInt number = .exitGroup)
    (h : Answers x number a m w v m' w') : m.Leaves v m' := by
  obtain ⟨r, t, hrun, hpasses, hr⟩ := h.value
  have hhandle : handle number a = Sys.exit a := by
    unfold handle
    obtain hnr | hnr := hexit <;> rw [hnr]
  rw [hhandle] at hrun
  change Program.run (exec x) (act (.vforkExit (statusExited a.a0)) >>= _) (m.counted, w) = _ at hrun
  rw [Program.run_bind] at hrun
  change Program.run (exec x) _ ((m.counted.vforkExit (statusExited a.a0)).2, w) = _ at hrun
  dsimp only [Act.exec, exec_act] at hrun
  rcases m.counted.vforkExit_cases (statusExited a.a0) with ⟨-, hnone⟩ | ⟨handles, hsome, hleaves⟩
  · rw [hnone] at hrun
    cases hrun
    obtain hr | ⟨e, hr, -⟩ | ⟨hr, -⟩ := hr <;> cases hr
  · rw [hsome] at hrun
    obtain ⟨w₁, hclose⟩ := run_closeAll (x := x) handles (m.counted.vforkExit (statusExited a.a0)).2 w
    change Program.run (exec x) (closeAll handles >>= fun _ => _) _ = _ at hrun
    rw [Program.run_bind_ok (exec x) hclose] at hrun
    obtain ⟨rfl, rfl⟩ := Prod.mk.inj hrun
    have hall := hpasses.leaves hleaves
    obtain hr | ⟨e, hr, -⟩ | ⟨hr, -⟩ := hr <;> cases hr
    exact ⟨hall.answer, hall.stack, hall.next ∘ m.passes_counted.next⟩

/-- An `execve` answers a caller that is still there with a failure, and a child
that gives its instance back with the child's pid. -/
theorem Answers.execve (hx : x.Proper) {v : ℤ} (h : Answers x 221 a m w v m' w') :
    (v < 0 ∧ m.Passes m') ∨ m.Leaves v m' := by
  obtain ⟨r, t, hrun, hpasses, hr⟩ := h.value
  have hhandle : handle 221 a = Sys.sought a >>= Sys.start := Sys.execve_eq a
  rw [hhandle, Program.run_bind] at hrun
  rcases hsought : (Sys.sought a).run (exec x) (m.counted, w) with ⟨found, n, w₁⟩
  have hnoting : m.counted.Noting n := noting_of_run (Sys.inquires_sought a) hsought
  have hstill : m.Passes n := m.passes_counted.trans hnoting.passes
  rw [hsought] at hrun
  rcases found with f | ⟨program, g⟩
  · have hproper : f.proper := Sys.proper_sought hx a _ f (congrArg Prod.fst hsought)
    obtain ⟨rfl, rfl⟩ := Prod.mk.inj hrun
    refine .inl ⟨?_, hstill.trans hpasses⟩
    obtain hr | ⟨e, hr, rfl⟩ | ⟨hr, rfl⟩ := hr
    · cases hr
    · cases hr
      exact hproper.asNeg_neg
    · decide
  · right
    obtain ⟨w₂, hstart⟩ := run_finishExec (x := x) program g.exe g.argv g.envp n w₁
    obtain ⟨rfl, rfl⟩ := Prod.mk.inj (hrun.symm.trans hstart)
    rw [finishExec_answer] at hr
    split at hr
    · obtain hr | ⟨e, hr, -⟩ | ⟨hr, -⟩ := hr <;> cases hr
    · rename_i hchild
      have hall := hpasses.leaves (n.finishExec_leaves program g.exe g.argv g.envp hchild)
      obtain hr | ⟨e, hr, -⟩ | ⟨hr, -⟩ := hr <;> cases hr
      exact ⟨hstill.pid, hstill.stack ▸ hall.stack, hall.next ∘ hstill.next⟩

end

end Wasmux
