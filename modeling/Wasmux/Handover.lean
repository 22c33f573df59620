import Wasmux.Entries
import Wasmux.Census
import Wasmux.Steps

/-!
# A process handed over

An `execve` that replaces the caller leaves it without a task of its own until
the scheduler has acted on the request. Nothing else happens to the process in
between, and the register of processes stays true, as long as the guest does
not trap just then.
-/

set_option autoImplicit false

namespace Wasmux
open Counting Effects Abi

theorem Act.place_exec (a : Act) (m : Machine) (h : a.moves = false) :
    (a.exec m).2.ctx.execRequest = m.ctx.execRequest ∧ (a.exec m).2.ctx.vforkStack = m.ctx.vforkStack := by
  cases a with
  | openDesc | dup | dupTo | close | pipe2 | fork | vforkExit | finishExec => cases h
  | put start data => simp only [exec]; split <;> exact ⟨rfl, rfl⟩
  | setCloexec fd on => simp only [exec]; split <;> exact ⟨rfl, rfl⟩
  | growMem pages =>
    have hsame : ∀ mem, (m.setMem mem).ctx = m.ctx := fun _ => rfl
    have hctx := hsame (m.inst.mem.grow pages)
    exact ⟨congrArg Ctx.execRequest hctx, congrArg Ctx.vforkStack hctx⟩
  | _ => exact ⟨rfl, rfl⟩

/-- One that moves them hands the process over exactly when it says so. -/
theorem Act.hands_exec (a : Act) (m : Machine) (h : a.moves = true) (hown : m.ctx.execRequest = none) :
    (a.exec m).2.ctx.execRequest.isSome = (Op.act a).hands (a.exec m).1 ∧
      ((a.exec m).2.ctx.execRequest.isSome = true → (a.exec m).2.ctx.vforkStack = []) := by
  by_cases hshuffles : a.shuffles = true
  · obtain ⟨fds, descs, pipes, heq⟩ := a.shuffles_exec m hshuffles
    have hnone : (a.exec m).2.ctx.execRequest = none := by
      rw [heq]
      exact hown
    rw [hnone]
    refine ⟨?_, fun hsome => absurd hsome (by simp)⟩
    cases a with
    | finishExec | fork | vforkExit => cases hshuffles
    | _ => rfl
  cases a with
  | openDesc | dup | dupTo | close | pipe2 => exact absurd rfl hshuffles
  | fork =>
    simp only [exec, Machine.fork]
    split <;> simp [hown, Op.hands]
  | vforkExit status =>
    simp only [exec, Machine.vforkExit]
    split <;> simp [hown, Op.hands]
  | finishExec program exe argv envp =>
    simp only [exec, Machine.finishExec]
    split
    · simp [hown, Op.hands]
    · rename_i hstack
      simp [hstack, Op.hands]
  | _ => cases h

def Op.Orderly (o : Op) (m : Machine) : Prop := ∀ a, o = .act a → a.Orderly m

theorem Act.orderly_still (a : Act) (m : Machine) (hmoves : a.moves = false) (hreaps : a.reaps = false) :
    a.Orderly m := by
  constructor
  · intro h
    rw [hmoves] at h
    cases h
  · rintro child rfl
    cases hreaps

section
variable {W : Type} (x : Env W)

abbrev free (_ : Op) (_ : Machine × W) : Prop := True

/-- What the footprint says of handing over is so. -/
theorem meets_orderly {p : Handler ℤ} {κ : Kind} (hp : Calm κ p) (hκ : ∀ child, κ.rare (.reap child) = false)
    {s : Machine × W} (hs : s.1.ctx.execRequest = none) :
    Program.Meets (exec x) free (fun o t => o.Orderly t.1) p
      (fun r t => (r = .error .exec → t.1.ctx.vforkStack = []) ∧
        (r ≠ .error .exec → t.1.ctx.execRequest = none)) s := by
  have hmeets := Program.meets_unmarked (x := exec x) (C := free) (A := fun o t => o.Orderly t.1)
    (M := footprint) (G := fun t => t.stray = false ∧ ∀ child, .reap child ∉ t.rare)
    (R := fun t s => t.gone = s.1.ctx.execRequest.isSome ∧ (t.gone = true → s.1.ctx.vforkStack = []))
    (fun _ _ => trivial) ?_ ?_ (hp Mark.clear rfl rfl) ?_ (s := s) ?_
  · apply hmeets.mono
    rintro r t ⟨u, ⟨hgone, hstack⟩, hended⟩
    constructor
    · intro hr
      exact hstack (hended.gone.mpr hr)
    · intro hr
      have : u.gone ≠ true := fun h => hr (hended.gone.mp h)
      rw [hgone] at this
      simpa using this
  · rintro t o a ⟨hstray, hrare⟩
    simp only [footprint, Bool.or_eq_false_iff] at hstray
    exact ⟨hstray.1, fun child hchild => hrare child (List.mem_append_right _ hchild)⟩
  · rintro t o ⟨m, w⟩ ⟨hgone, hstack⟩ ⟨hstray, hrare⟩
    cases o with
    | env c =>
      refine ⟨fun a ha => (by cases ha), ?_⟩
      have hsame : (footprint.next t (.env c) (exec x (.env c) (m, w)).1).gone = t.gone := by
        simp [footprint, Op.hands]
      rw [hsame]
      exact ⟨hgone, hstack⟩
    | act a =>
      by_cases hmoves : a.moves = true
      · have hin : t.gone = false := by
          have hboth : t.stray = false ∧ t.gone = false := by simpa [footprint, Op.moves, hmoves] using hstray
          exact hboth.2
        have hown : m.ctx.execRequest = none := by simpa [hin] using hgone.symm
        obtain ⟨hhands, halone⟩ := a.hands_exec m hmoves hown
        constructor
        · rintro b hb
          obtain rfl : a = b := by simpa using hb
          refine ⟨fun _ => hown, ?_⟩
          rintro child rfl
          cases hmoves
        · have hnext : (footprint.next t (.act a) (exec x (.act a) (m, w)).1).gone =
              (a.exec m).2.ctx.execRequest.isSome := by
            rw [hhands]
            simp [footprint, hin]
          rw [hnext]
          exact ⟨rfl, halone⟩
      · have hstill : a.moves = false := by simpa using hmoves
        obtain ⟨hrequest, hplace⟩ := a.place_exec m hstill
        constructor
        · rintro b hb
          obtain rfl : a = b := by simpa using hb
          refine ⟨fun h => absurd h hmoves, ?_⟩
          rintro child rfl
          exact absurd (List.mem_append_left _ (by simp [Op.rare, Act.rare])) (hrare child)
        · have hkeeps : (Op.act a).hands (exec x (.act a) (m, w)).1 = false := by
            cases a with
            | finishExec => cases hstill
            | _ => rfl
          have hnext : (footprint.next t (.act a) (exec x (.act a) (m, w)).1).gone = t.gone := by
            simp only [footprint, hkeeps, Bool.or_false]
          rw [hnext]
          simp only [exec_act, hrequest, hplace]
          exact ⟨hgone, hstack⟩
  · rintro u r hended
    refine ⟨hended.stray, fun child hchild => ?_⟩
    rcases hended.rare _ hchild with h | h
    · simp [Mark.clear] at h
    · rw [hκ] at h
      cases h
  · rw [hs]
    exact ⟨rfl, fun h => absurd h (by simp [Mark.clear])⟩

/-- Only a child that is dead is waited for. -/
theorem meets_wait4 (a : Args) {s : Machine × W} (hs : s.1.ctx.execRequest = none) :
    Program.Meets (exec x) free (fun o t => o.Orderly t.1) (Sys.wait4 a)
      (fun r t => (r = .error .exec → t.1.ctx.vforkStack = []) ∧
        (r ≠ .error .exec → t.1.ctx.execRequest = none)) s := by
  have hstay : ∀ (p : Handler ℤ) (t : Machine × W), SteadyIn (fun _ => false) p → t.1.ctx.execRequest = none →
      Program.Meets (exec x) free (fun o t => o.Orderly t.1) p
        (fun r t => (r = .error .exec → t.1.ctx.vforkStack = []) ∧
          (r ≠ .error .exec → t.1.ctx.execRequest = none)) t := fun p t hp ht =>
    meets_orderly x (κ := .plain) (calm_steadyIn hp) (fun _ => rfl) ht
  unfold Sys.wait4
  refine meets_view fun _ => ⟨fun b hb => ?_, ?_⟩
  · obtain rfl : Act.view = b := by simpa using hb
    exact Act.orderly_still _ _ rfl rfl
  dsimp only
  apply Program.meets_ite
  · intro _
    exact hstay _ _ (steady_fail _) hs
  intro _
  have hwait : ∀ c : Prop, ∀ [Decidable c], Calm .plain (if c then return 0 else .fail .block : Handler ℤ) :=
    fun c => calm_ite (steady_ret _).calm silentH_block.calm
  split
  · exact meets_orderly x (hwait _) (fun _ => rfl) hs
  · rename_i child status hfound
    obtain ⟨r, hr, hchild⟩ := List.exists_of_findSome?_eq_some hfound
    have hmem : r ∈ s.1.shared.table.map ProcRecord.unwoken := (List.mem_filter.mp hr).1
    obtain ⟨whole, hwhole, rfl⟩ := List.mem_map.mp hmem
    have hdead : ∃ r ∈ s.1.shared.table, r.pid = child ∧ r.isAlive = false := by
      refine ⟨whole, hwhole, ?_⟩
      cases hexit : whole.exit with
      | none => simp [ProcRecord.unwoken, hexit] at hchild
      | some status' =>
        have hpid : whole.pid = child ∧ status' = status := by
          simpa [ProcRecord.unwoken, hexit] using hchild
        exact ⟨hpid.1, by simp [ProcRecord.isAlive, hexit]⟩
    refine meets_act fun _ => ⟨fun b hb => ?_, ?_⟩
    · obtain rfl : b = .reap child := by simpa using hb.symm
      refine ⟨fun h => (by cases h), fun other hother => ?_⟩
      obtain rfl : child = other := by simpa using hother
      exact hdead
    have hreport : Steady (do
        if asU32 a.a3 ≠ 0 then put (asU32 a.a3) (List.replicate 72 0)
        return child : Handler ℤ) := by
      dsimp only
      split
      · exact steady_bind (steady_put _ _) fun _ => steady_ret _
      · exact steady_ret _
    refine hstay _ _ ?_ hs
    split
    · exact steady_bind (steady_put _ _) fun _ => hreport
    · exact hreport

theorem meets_handle (number : ℤ) (a : Args) {s : Machine × W} (hs : s.1.ctx.execRequest = none) :
    Program.Meets (exec x) free (fun o t => o.Orderly t.1) (handle number a)
      (fun r t => (r = .error .exec → t.1.ctx.vforkStack = []) ∧
        (r ≠ .error .exec → t.1.ctx.execRequest = none)) s := by
  by_cases hwait : Nr.ofInt number = .wait4
  · have hhandle : handle number a = Sys.wait4 a := by
      unfold handle
      rw [hwait]
    rw [hhandle]
    exact meets_wait4 x a hs
  · apply meets_orderly x (calm_handle number a) _ hs
    intro child
    cases hnumber : Nr.ofInt number with
    | wait4 => exact absurd hnumber hwait
    | _ => rfl

structure Leaving (m : Machine) : Prop where
  alone : m.ctx.vforkStack = []
  asked : m.ctx.exec.suspension = some .exec
  saved : m.inst.unwinding = true

theorem hosts_orderly : Hosts x free (fun o t => o.Orderly t.1) (fun m => m.ctx.execRequest = none)
    (fun m => m.ctx.vforkStack = []) Leaving where
  tends a s ha hs _ := by
    have hmoves : a.moves = false := by
      cases a with
      | openDesc | dup | dupTo | close | pipe2 | fork | vforkExit | finishExec => cases ha
      | _ => rfl
    have hreaps : a.reaps = false := by
      cases a with
      | reap => cases ha
      | _ => rfl
    constructor
    · rintro b hb
      obtain rfl : a = b := by simpa using hb
      exact a.orderly_still _ hmoves hreaps
    · rw [(a.place_exec s.1 hmoves).1]
      exact hs
  random n s _ _ := fun a ha => (by cases ha)
  looks s _ _ := by
    rintro b hb
    obtain rfl : Act.view = b := by simpa using hb
    exact Act.orderly_still _ _ rfl rfl
  computes mem sp s hs _ := by
    refine ⟨?_, hs⟩
    rintro b hb
    obtain rfl : Act.compute mem sp = b := by simpa using hb
    exact Act.orderly_still _ _ rfl rfl
  waits mem sp s hs _ := by
    refine ⟨?_, hs.alone, hs.asked, hs.saved⟩
    rintro b hb
    obtain rfl : Act.compute mem sp = b := by simpa using hb
    exact Act.orderly_still _ _ rfl rfl
  handles number args s hs := meets_handle x number args hs
  leaves s hs _ := by
    refine ⟨?_, hs, rfl, rfl⟩
    rintro b hb
    obtain rfl : Act.unwind .exec = b := by simpa using hb
    exact Act.orderly_still _ _ rfl rfl
  saved m hm := hm.saved

end

namespace Kernel

/-- No process but the one at `index` has an `execve` pending. -/
def SettledBut (k : Kernel) (index : ℕ) : Prop :=
  ∀ (i : ℕ) (p : Proc), k.procs[i]? = some p → i ≠ index → p.ctx.execRequest = none

def Settled (k : Kernel) : Prop := ∀ (i : ℕ) (p : Proc), k.procs[i]? = some p → p.ctx.execRequest = none

/-- Only the process at `index` may have been handed over, with no child in it. -/
structure Handed (k : Kernel) (index : ℕ) : Prop where
  others : k.SettledBut index
  alone : ∀ p, k.procs[index]? = some p → p.ctx.execRequest.isSome → p.ctx.vforkStack = []

/-- The process at `index` is on its way out to be replaced. -/
structure LeavingAt (k : Kernel) (index : ℕ) : Prop where
  others : k.SettledBut index
  leaving : ∀ p, k.procs[index]? = some p → Leaving (k.machineOf p)

variable {k k' : Kernel} {index : ℕ}

theorem Settled.but (h : k.Settled) : k.SettledBut index := fun i p hp _ => h i p hp

theorem Settled.handed (h : k.Settled) : k.Handed index :=
  ⟨h.but, fun p hp hsome => by simp [h index p hp] at hsome⟩

theorem settled_of_but (h : k.SettledBut index)
    (hindex : ∀ p, k.procs[index]? = some p → p.ctx.execRequest = none) : k.Settled := by
  intro i p hp
  by_cases hi : i = index
  · subst hi
    exact hindex p hp
  · exact h i p hp hi

theorem Settled.congr (h : k.Settled) (hprocs : k'.procs = k.procs) : k'.Settled := by
  unfold Settled
  rw [hprocs]
  exact h

theorem Settled.modify (h : k.Settled) {f : Proc → Proc} (hprocs : k'.procs = k.procs.modify index f)
    (hf : ∀ p, (f p).ctx.execRequest = p.ctx.execRequest) : k'.Settled := by
  intro i p hp
  rw [hprocs, List.getElem?_modify] at hp
  obtain ⟨q, hq, rfl⟩ := Option.map_eq_some_iff.mp hp
  split
  · rw [hf]
    exact h i q hq
  · exact h i q hq

theorem SettledBut.modify (h : k.SettledBut index) {f : Proc → Proc}
    (hprocs : k'.procs = k.procs.modify index f) : k'.SettledBut index := by
  intro i p hp hi
  rw [hprocs, List.getElem?_modify] at hp
  exact h i p (by simpa [Ne.symm hi] using hp) hi

theorem SettledBut.erase (h : k.SettledBut index) (hprocs : k'.procs = k.procs.eraseIdx index) :
    k'.Settled := by
  intro i p hp
  rw [hprocs, List.getElem?_eraseIdx] at hp
  split at hp
  · exact h i p hp (by omega)
  · exact h (i + 1) p hp (by omega)

theorem Handed.congr (h : k.Handed index) (hprocs : k'.procs = k.procs) : k'.Handed index := by
  constructor
  · unfold SettledBut
    rw [hprocs]
    exact h.others
  · rw [hprocs]
    exact h.alone

theorem Settled.push (h : k.Settled) {p : Proc} (hp : p.ctx.execRequest = none)
    (hprocs : k'.procs = k.procs ++ [p]) : k'.Settled := by
  intro i q hq
  rw [hprocs, List.getElem?_append] at hq
  split at hq
  · exact h i q hq
  · obtain rfl : p = q := List.mem_singleton.mp (List.mem_of_getElem? hq) |>.symm
    exact hp

theorem procOf_settled (spawn : Spawn) (launch : Launch) : (procOf spawn launch).ctx.execRequest = none := by
  cases launch <;> rfl

theorem relaunch_settled (launch : Launch) (p : Proc) : (relaunch launch p).ctx.execRequest = none := by
  unfold relaunch
  split
  · exact procOf_settled _ _
  · assumption

end Kernel

/-- No guest traps between an `execve` of its process and the scheduler's acting on it. -/
def KOp.Undisturbed : KOp → Kernel → Prop
  | .act (.trapMessage index _), k => ∀ p, k.procs[index]? = some p → p.ctx.execRequest = none
  | _, _ => True

def KOp.heeds : KOp → Kernel → Bool
  | .act (.trapMessage index _), k => (k.procs[index]?).all fun p => p.ctx.execRequest.isNone
  | .machine _ (.act .fork), k => decide (k.shared.nextPid < i32Max)
  | _, _ => true

theorem KOp.undisturbed_of_heeds {o : KOp} {k : Kernel} (h : o.heeds k = true) :
    o.Undisturbed k ∧ o.Roomy k := by
  cases o with
  | env => exact ⟨trivial, trivial⟩
  | machine i o =>
    cases o with
    | env => exact ⟨trivial, trivial⟩
    | act a =>
      cases a with
      | fork =>
        have hroom : k.shared.nextPid < i32Max := of_decide_eq_true h
        exact ⟨trivial, hroom⟩
      | _ => exact ⟨trivial, trivial⟩
  | act a =>
    cases a with
    | trapMessage index kind =>
      refine ⟨fun p hp => ?_, trivial⟩
      have hcheck : (k.procs[index]?).all (fun p => p.ctx.execRequest.isNone) = true := h
      rw [hp] at hcheck
      exact Option.isNone_iff_eq_none.mp hcheck
    | _ => exact ⟨trivial, trivial⟩

section
variable {W : Type} (x : Env W)

theorem orderly_put {index : ℕ} {k : Kernel} {p : Proc} (hat : k.procs[index]? = some p) {o : Op}
    {m : Machine} (h : o.Orderly m) :
    (KOp.machine index o).Orderly (k.putMachine index m) := by
  cases o with
  | env c => trivial
  | act a =>
    intro q hq
    have hput := Kernel.putMachine_proc hat m
    obtain rfl : { p with ctx := m.ctx, inst := m.inst } = q := by
      rw [hput] at hq
      simpa using hq
    exact h a rfl

/-- Handler programs that keep the others' `execve` alone. -/
theorem meets_hosted {α : Type} {C : KOp → Kernel × W → Prop} {index : ℕ} {s : Kernel × W}
    {p : Program sig Stop α} {Q : Except Stop α → Kernel × W → Prop} (hs : s.1.Settled)
    (hnone : s.1.procs[index]? = none → ∀ r w, Q r (s.1, w)) {R : Except Stop α → Machine × W → Prop}
    (hp : ∀ proc, s.1.procs[index]? = some proc →
      Program.Meets (exec x) free (fun o t => o.Orderly t.1) p R (s.1.machineOf proc, s.2))
    (hQ : ∀ r m w k, R r (m, w) → k.SettledBut index →
      (∀ q, k.procs[index]? = some q → k.machineOf q = m) → Q r (k, w)) :
    Program.Meets (kexec x) C (fun o s => o.Orderly s.1) (onProc index p) Q s := by
  rcases hat : s.1.procs[index]? with _ | proc
  · apply meets_onProc_none hat
    · rintro (c | a) w
      · trivial
      · intro q hq
        rw [hat] at hq
        cases hq
    · exact hnone hat
  · refine meets_onProc hat (fun _ _ _ _ => trivial) (fun o m w h => orderly_put hat h) ?_ (hp proc hat)
    intro r m w hr
    apply hQ r m w _ hr (hs.but.modify rfl)
    intro q hq
    obtain ⟨q', -, rfl⟩ := Kernel.modify_at hq
    rfl

/-- Making a program ready leaves the processes as they are. -/
theorem meets_prepared {C : KOp → Kernel × W → Prop} (program : ProgramId) (argv : List Bytes)
    {I : Kernel → Prop} (hI : ∀ k k' : Kernel, k'.procs = k.procs → I k → I k') {s : Kernel × W}
    (hs : I s.1) :
    Program.Meets (kexec x) C (fun o s => o.Orderly s.1)
      (Scheduler.prepare program argv) (fun r t => ∀ a, r = .ok a → I t.1) s := by
  have hmeets := Program.meets_only (x := kexec x) (C := C)
    (A := fun o s => o.Orderly s.1) (I := fun s : Kernel × W => I s.1) ?_
    (Scheduler.only_prepare program argv) hs
  · exact hmeets.mono fun r t ht _ _ => ht
  rintro o t ho ht _
  refine ⟨?_, hI _ _ (o.prepares_procs x ho t) ht⟩
  cases o with
  | machine => cases ho
  | env c => trivial
  | act a =>
    cases a with
    | look | charge | release => trivial
    | _ => cases ho

/-- Taking a process up, or setting it on, hands nobody over. -/
theorem Kernel.Settled.resumed {k : Kernel} (hs : k.Settled) {a : KAct} (ha : a.resumes = true) :
    (a.exec k).2.Settled := by
  cases a with
  | inst => exact hs
  | setResume index | rewind index | resumeWith index | saveJmp index => exact hs.modify rfl fun _ => rfl
  | attach index =>
    simp only [KAct.exec]
    split
    · exact hs
    split
    · exact hs
    split
    · exact hs
    · exact hs.modify rfl fun _ => rfl
  | restoreJmp index buf value =>
    simp only [KAct.exec]
    split
    · exact hs
    split
    · exact hs
    · exact hs.modify rfl fun _ => rfl
  | _ => cases ha

/-- A call that answers with `exec` hands its process over, and no other does. -/
theorem meets_dispatch_orderly (index : ℕ) (number : ℤ) (args : Args) {s : Kernel × W} (hs : s.1.Settled) :
    Program.Meets (kexec x) (fun _ _ => True) (fun o s => o.Orderly s.1) (onProc index (dispatch number args))
      (fun r t => (r = .ok .exec → t.1.Handed index) ∧ (r ≠ .ok .exec → t.1.Settled)) s := by
  apply meets_hosted x hs (fun hnone r w => ⟨fun _ => hs.handed, fun _ => hs⟩)
  · exact fun proc hat => (hosts_orderly x).meets_dispatch number args (hs index proc hat)
  · intro r m w k hr hbut hm
    constructor
    · intro hexec
      refine ⟨hbut, fun q hq _ => ?_⟩
      have : (k.machineOf q).ctx.vforkStack = [] := by
        rw [hm q hq]
        exact hr.1 hexec
      exact this
    · intro hne
      apply Kernel.settled_of_but hbut
      intro q hq
      have : (k.machineOf q).ctx.execRequest = none := by
        rw [hm q hq]
        exact hr.2 hne
      exact this

/-- A guest that comes back has handed nobody over, or is about to leave for it. -/
theorem meets_runActs_orderly (index : ℕ) (acts : List GuestAct) {s : Kernel × W} (hs : s.1.Settled) :
    Program.Meets (kexec x) (fun _ _ => True) (fun o s => o.Orderly s.1) (onProc index (runActs acts))
      (fun _ t => t.1.Settled ∨ t.1.LeavingAt index) s := by
  apply meets_hosted x hs (fun hnone r w => .inl hs)
  · exact fun proc hat => (hosts_orderly x).meets_runActs acts (.inl (hs index proc hat))
  · rintro r m w k (hr | hr) hbut hm
    · left
      apply Kernel.settled_of_but hbut
      intro q hq
      have : (k.machineOf q).ctx.execRequest = none := by
        rw [hm q hq]
        exact hr
      exact this
    · right
      refine ⟨hbut, fun q hq => ?_⟩
      rw [hm q hq]
      exact hr

/-- Taking what a guest came back for tells which it is. -/
theorem Kernel.suspension_taken {k : Kernel} {index : ℕ} (hs : k.Settled ∨ k.LeavingAt index) :
    (((KAct.takeSuspension index).exec k).1 = some .exec →
      ((KAct.takeSuspension index).exec k).2.Handed index) ∧
      (((KAct.takeSuspension index).exec k).1 ≠ some .exec →
        ((KAct.takeSuspension index).exec k).2.Settled) := by
  rcases hs with hs | hs
  · have hnext : ((KAct.takeSuspension index).exec k).2.Settled := hs.modify rfl fun _ => rfl
    exact ⟨fun _ => hnext.handed, fun _ => hnext⟩
  · have hbut : ((KAct.takeSuspension index).exec k).2.SettledBut index := hs.others.modify rfl
    constructor
    · intro _
      refine ⟨hbut, fun p hp _ => ?_⟩
      obtain ⟨q, hq, rfl⟩ := Kernel.modify_at hp
      exact (hs.leaving q hq).alone
    · intro hne
      apply Kernel.settled_of_but hbut
      intro p hp
      obtain ⟨q, hq, rfl⟩ := Kernel.modify_at hp
      have hasked : q.ctx.exec.suspension = some .exec := (hs.leaving q hq).asked
      exact absurd (by simp [KAct.exec, hq, hasked]) hne

/-- A process that is handed over is replaced or gone when its turn goes on. -/
theorem meets_replaceInstance_orderly (index : ℕ) {s : Kernel × W} (hs : s.1.Handed index) :
    Program.Meets (kexec x) (fun _ _ => True) (fun o s => o.Orderly s.1) (Scheduler.replaceInstance index)
      (Leaves Kernel.Settled) s := by
  unfold Scheduler.replaceInstance
  refine meets_kact fun _ => ⟨trivial, ?_⟩
  rcases hr : ((KAct.execRequest index).exec s.1).1 with _ | spawn
  · apply leaves_ok
    apply Kernel.settled_of_but hs.others
    intro p hp
    simp only [KAct.exec, hp, Option.bind_some] at hr
    exact hr
  refine meets_kact fun _ => ⟨trivial, ?_⟩
  have hreleased : ((KAct.releaseInstance index).exec s.1).2.Handed index := by
    simp only [KAct.exec]
    split
    · exact hs
    · refine ⟨hs.others.modify rfl, fun p hp hsome => ?_⟩
      obtain ⟨q, hq, rfl⟩ := Kernel.modify_at hp
      exact hs.alone q hq hsome
  apply meets_next (P := fun _ t => t.1.Handed index)
    (meets_prepared x _ _ (fun _ _ hprocs ht => Kernel.Handed.congr ht hprocs) hreleased)
  rintro (_ | launch) t ht
  · refine meets_kact fun _ => ⟨ht.alone, meets_closeFiles (fun _ _ _ _ => trivial) _ fun w => ?_⟩
    apply leaves_ok
    simp only [KAct.exec]
    split
    · rename_i hnone
      apply Kernel.settled_of_but ht.others
      intro p hp
      simp only [hp, Option.bind_some] at hnone
      exact hnone
    · exact ht.others.erase rfl
  · refine meets_kact fun _ => ⟨ht.alone, leaves_ok _ ?_⟩
    apply Kernel.settled_of_but (ht.others.modify rfl)
    intro p hp
    obtain ⟨q, -, rfl⟩ := Kernel.modify_at hp
    exact Kernel.relaunch_settled launch q

/-- What a host command asks of its machine hands nobody over. -/
theorem Kernel.Settled.streamed {k : Kernel} (hk : k.Settled) {i : ℕ} {o : Op}
    (hstreams : o.streams) (w : W) :
    (KOp.machine i o).Orderly k ∧ (kexec x (.machine i o) (k, w)).2.1.Settled := by
  rcases hat : k.procs[i]? with _ | p
  · rw [kexec_machine_none x hat]
    refine ⟨?_, hk⟩
    cases o with
    | env c => trivial
    | act a =>
      intro q hq
      rw [hat] at hq
      cases hq
  rw [kexec_machine x hat]
  cases o with
  | env c =>
    refine ⟨trivial, Kernel.settled_of_but (hk.but.modify rfl) fun q hq => ?_⟩
    obtain ⟨q', -, rfl⟩ := Kernel.modify_at hq
    exact hk i p hat
  | act a =>
    have hmoves : a.moves = false := by
      cases a with
      | openDesc | dup | dupTo | close | pipe2 | fork | vforkExit | finishExec => cases hstreams
      | _ => rfl
    have hreaps : a.reaps = false := by
      cases a with
      | reap => cases hstreams
      | _ => rfl
    refine ⟨fun q _ => a.orderly_still _ hmoves hreaps, ?_⟩
    apply Kernel.settled_of_but (hk.but.modify rfl)
    intro q hq
    obtain ⟨q', -, rfl⟩ := Kernel.modify_at hq
    exact (a.place_exec (k.machineOf p) hmoves).1.trans (hk i p hat)

theorem meets_stepHost_orderly (turns index : ℕ) {s : Kernel × W} (hs : s.1.Settled) :
    Program.Meets (kexec x) (fun _ _ => True) (fun o s => o.Orderly s.1) (Scheduler.stepHost turns index)
      (Leaves Kernel.Settled) s := by
  have hmeets := Program.meets_only (x := kexec x) (C := fun _ _ => True)
    (A := fun o s => o.Orderly s.1) (I := fun s : Kernel × W => s.1.Settled) ?_
    (Scheduler.only_stepHost turns index) hs
  · exact hmeets.mono fun r t ht _ _ => ht
  rintro o ⟨k, w⟩ ho hk _
  cases o with
  | env c => exact ⟨trivial, hk⟩
  | machine i o => exact hk.streamed x ho.2 w
  | act a =>
    cases a with
    | host | noteHostPending => exact ⟨trivial, hk.congr rfl⟩
    | appendInput | setPhase | advance => exact ⟨trivial, hk.modify rfl fun _ => rfl⟩
    | _ => cases ho

/-- A process that traps may be left handed over. -/
theorem turnsTo_orderly : TurnsTo x (fun _ _ => True) (fun o s => o.Orderly s.1) Kernel.Settled Kernel.Handed
    Kernel.LeavingAt fun k index => k.Handed index where
  resumes a s ha hs _ := by
    refine ⟨?_, hs.resumed ha⟩
    cases a with
    | launchExec | abandonExec | finishProcess => cases ha
    | _ => trivial
  env _ _ _ _ := trivial
  calls index number args s hs := meets_dispatch_orderly x index number args hs
  enters index acts s hs := meets_runActs_orderly x index acts hs
  traps index kind s hs _ := by
    have hsame : ((KAct.trapMessage index kind).exec s.1).2.procs = s.1.procs := by
      simp only [KAct.exec]
      split <;> rfl
    refine ⟨trivial, hs.imp (fun hs => hs.congr hsame) fun hs => ?_⟩
    exact Kernel.Handed.congr ⟨hs.others, fun p hp _ => (hs.leaving p hp).alone⟩ hsame
  comes index s hs _ := ⟨trivial, Kernel.suspension_taken hs⟩
  replaces index s hs := meets_replaceInstance_orderly x index hs
  hosts turns index s hs := meets_stepHost_orderly x turns index hs

theorem turns_orderly : Turns x (fun o s => o.Undisturbed s.1) (fun o s => o.Orderly s.1) Kernel.Settled
    Kernel.Handed Kernel.LeavingAt :=
  { (turnsTo_orderly x).weaken (fun _ _ _ => trivial) fun _ _ => id with
    traps := by
      intro index kind s hs hc
      refine ⟨trivial, ?_⟩
      have hall : s.1.Settled := hs.elim id fun h => Kernel.settled_of_but h.others hc
      simp only [KAct.exec]
      split
      · exact hall
      · exact hall.congr rfl }

theorem settled_idle {a : KAct} {k : Kernel} (ha : a.idle = true) (hk : k.Settled) :
    (KOp.act a).Orderly k ∧ (a.exec k).2.Settled := by
  cases a with
  | look | forceExit => exact ⟨trivial, hk.congr rfl⟩
  | whyIdle => exact ⟨trivial, hk.congr k.whyIdle_procs⟩
  | endStep index => exact ⟨trivial, hk.modify rfl fun _ => rfl⟩
  | beginRun =>
    refine ⟨trivial, fun i p hp => ?_⟩
    obtain ⟨q, hq, rfl⟩ : ∃ q, k.procs[i]? = some q ∧ _ = p := by
      simpa [KAct.exec] using hp
    exact hk i q hq
  | _ => cases ha

theorem settled_start {C : KOp → Kernel × W → Prop} (program : ProgramId) (argv : List Bytes) {s : Kernel × W}
    (hs : s.1.Settled) : Program.Meets (kexec x) C (fun o s => o.Orderly s.1) (Scheduler.prepare program argv)
      (fun r t => ∀ launch, r = .ok launch →
        Ready C (fun o s => o.Orderly s.1) Kernel.Settled launch t) s := by
  apply (meets_prepared x program argv (fun _ _ hprocs ht => Kernel.Settled.congr ht hprocs) hs).mono
  intro r t ht launch hr
  replace ht := ht launch hr
  cases launch with
  | none =>
    refine fun _ => ⟨trivial, ?_⟩
    simp only [KAct.exec]
    split
    · exact ht
    · exact ht.congr rfl
  | some launch =>
    refine fun _ => ⟨trivial, ?_⟩
    simp only [KAct.exec]
    split
    · exact ht
    · exact ht.push (Kernel.procOf_settled _ _) rfl

theorem settled_finish {index : ℕ} {status : ℤ} {k : Kernel} (hk : k.SettledBut index) :
    (k.finishProcess index status).2.Settled := by
  simp only [Kernel.finishProcess]
  split
  · rename_i hnone
    exact Kernel.settled_of_but hk fun p hp => by rw [hnone] at hp; cases hp
  · exact hk.erase rfl

theorem kept_settled : Kept x (fun o s => o.Undisturbed s.1) (fun o s => o.Orderly s.1) Kernel.Settled where
  idle _ _ ha hs _ := settled_idle ha hs
  env _ _ _ _ := trivial
  finish index _ _ hs _ := ⟨hs index, settled_finish hs.but⟩
  start program argv _ hs _ := settled_start x program argv hs
  step turns index _ hs := (turns_orderly x).step turns index hs

end

/-- What every operation of the scheduler meets: nobody who hands a process
over, or ends in the middle of that, has a child in it. -/
def KOp.Tidy : KOp → Kernel → Prop
  | .machine index (.act a), k => ∀ p, k.procs[index]? = some p → a.Orderly (k.machineOf p)
  | .act (.launchExec index _), k | .act (.abandonExec index), k | .act (.finishProcess index _), k =>
      ∀ p, k.procs[index]? = some p → p.ctx.execRequest.isSome → p.ctx.vforkStack = []
  | _, _ => True

theorem KOp.Orderly.tidy {o : KOp} {k : Kernel} (h : o.Orderly k) : o.Tidy k := by
  cases o with
  | env c => trivial
  | machine index o =>
    cases o with
    | env c => trivial
    | act a => exact h
  | act a =>
    cases a with
    | launchExec | abandonExec => exact h
    | finishProcess index status =>
      intro p hp hsome
      rw [show p.ctx.execRequest = none from h p hp] at hsome
      cases hsome
    | _ => trivial

/-- Without a condition: who traps while it is being replaced ends
without a child in it. -/
theorem keptTo_settled {W : Type} (x : Env W) :
    KeptTo x (fun _ _ => True) (fun o s => o.Tidy s.1) Kernel.Settled
    fun k index => k.Handed index where
  idle a s ha hs _ := (settled_idle ha hs).imp_left KOp.Orderly.tidy
  env _ _ _ _ := trivial
  finish index status s hs _ := by
    have hhanded : s.1.Handed index := hs.elim (fun h => h.handed) id
    exact ⟨hhanded.alone, settled_finish hhanded.others⟩
  looks _ _ _ _ := trivial
  parks index external s hs _ := by
    refine ⟨trivial, hs.others.modify rfl, fun p hp hsome => ?_⟩
    obtain ⟨q, hq, rfl⟩ := Kernel.modify_at hp
    exact hs.alone q hq hsome
  start program argv s hs _ := by
    apply ((settled_start x program argv hs).weaken (fun _ _ => id) fun _ _ => KOp.Orderly.tidy).mono
    intro r t ht launch hr
    cases launch with
    | none => exact fun hd => (ht none hr hd).imp_left KOp.Orderly.tidy
    | some launch => exact fun hd => (ht (some launch) hr hd).imp_left KOp.Orderly.tidy
  step turns index s hs := by
    have hturns := (turnsTo_orderly x).weaken (B := fun o s => o.Tidy s.1) (fun _ _ => id) fun _ _ =>
      KOp.Orderly.tidy
    exact hturns.step turns index hs

def Shared.alivePids (sh : Shared) : List ℤ := (sh.table.filter ProcRecord.isAlive).map ProcRecord.pid

/-- Nobody is missing: who is alive is carried, once, who is not has had an
end recorded, and who ends while its parent lives is left to be waited for. -/
structure Kernel.Mustered (k : Kernel) : Prop where
  once : k.carriers.Nodup
  alive : k.shared.alivePids.Perm k.carriers
  ended : ∀ pid, 0 < pid → pid < k.shared.nextPid → pid ∈ k.carriers ∨
    ∃ status, (pid, status) ∈ k.shared.exits
  waits : ∀ r ∈ k.shared.table, ∀ parent ∈ k.shared.table, parent.pid = r.ppid → parent.isAlive = true →
    parent.pid ≠ r.pid → ∀ status, ∃ d ∈ (k.shared.setExit r.pid status).table,
      d.pid = r.pid ∧ d.ppid = r.ppid ∧ d.exit = some (r.exit.getD status)

theorem Kernel.Registered.mustered {k : Kernel} (h : k.Registered) : k.Mustered := by
  obtain ⟨honce, hperm⟩ := h.tallies.perm
  refine ⟨honce, ?_, ?_, ?_⟩
  · have halive : k.shared.alivePids = (k.shared.roll.filter Prod.snd).map Prod.fst := by
      unfold Shared.alivePids Shared.roll Shared.rollOf
      rw [List.filter_map, List.map_map]
      rfl
    rw [halive]
    exact hperm
  · intro pid hpos hbelow
    rcases h.recorded pid hpos hbelow with hcarried | hexit
    · exact .inl (List.count_pos_iff.mp hcarried)
    · exact .inr hexit
  · intro r hr parent hparent hpid hlives hother status
    exact Shared.setExit_waits h.tallies.unique hr hparent hpid hlives hother status

theorem registered_kernel {c : Config} {started : Instant} {k : Kernel} (h : c.kernel started = some k) :
    k.Registered ∧ k.Settled := by
  obtain ⟨fds, slab, rfl⟩ := Config.kernel_eq h
  refine ⟨⟨⟨List.nodup_singleton _, fun pid => ?_⟩, (by decide : (0 : ℤ) < 2), ?_,
    fun pid hpos hbelow => ?_⟩, ?_⟩
  · by_cases hpid : (1 : ℤ) = pid
    · subst hpid
      rfl
    · simp [Shared.roll, Shared.rollOf, Roll.alive, ProcRecord.new, Kernel.carriers, queue, Task.new, hpid]
  · intro pid hmem
    obtain rfl : pid = 1 := by simpa [Shared.roll, Shared.rollOf, Roll.names, ProcRecord.new] using hmem
    exact (by decide : (1 : ℤ) < 2)
  · left
    obtain rfl : pid = 1 := by
      dsimp only at hbelow
      omega
    exact (by decide : 0 < [(1 : ℤ)].count 1)
  · intro i p hp
    cases hp

/-- As long as no guest traps between an `execve` and the scheduler's acting
on it, and pids do not run out, nobody is ever missing. -/
theorem nobody_missing {W : Type} (x : Env W) {k : Kernel} {w : W}
    (h : Reached x (fun o s => o.Undisturbed s.1 ∧ o.Roomy s.1) k w) : k.Mustered := by
  have hkept : Kept x (fun o s => o.Undisturbed s.1 ∧ o.Roomy s.1)
      (fun o s => o.Orderly s.1) Kernel.Settled :=
    (kept_settled x).weaken (fun _ _ => And.left) fun _ _ => id
  have horderly := hkept.reached (fun c started k hk => (registered_kernel hk).2)
    (fun k data closed hk => hk.congr rfl) (fun k out err hk => hk.congr rfl) h
  have hregistered : k.Registered := by
    refine reached_keeps (P := Kernel.Registered) (fun c started k hk => (registered_kernel hk).1) ?_
      (fun k data closed hk => hk.congr rfl fun _ => rfl)
      (fun k out err hk => hk.congr rfl fun _ => rfl) horderly
    rintro o s hs ⟨⟨-, hroom⟩, horder⟩
    exact Kernel.registered_iff.mpr (kexec_registered x o (Kernel.registered_iff.mp hs) horder hroom.numbered)
  exact hregistered.mustered

/-- A guest with the arguments of an `execve` of its own program. -/
def Env.execsItself : Env (List GuestRun) :=
  .scripted (.startingWith (argWords [24, 0, 0, 0, 0, 0, 0x6e69622f, 0x302f]))

/-- A child is made and replaced. Its parent waits, and the child ends. -/
def handOver : List GuestRun :=
  [⟨[.syscall 220 0, .syscall 221 24, .setjmp 0], none⟩, ⟨[.setjmp 0, .setjmp 0], none⟩,
    ⟨[.syscall 93 0], none⟩]

/-- The child has been handed over, and then has ended. -/
theorem nobody_missing_replaced : ∃ (k k' : Kernel) (w w' : List GuestRun),
    Reached Env.handsOver (fun o s => o.Undisturbed s.1 ∧ o.Roomy s.1) k w ∧
    Reached Env.handsOver (fun o s => o.Undisturbed s.1 ∧ o.Roomy s.1) k' w' ∧
    k.shared.alivePids = [1, 2] ∧ k.Mustered ∧ k'.shared.alivePids = [1] ∧ k'.Mustered := by
  have hstart : Between Env.handsOver (fun o s => o.Undisturbed s.1 ∧ o.Roomy s.1) ⟨_, none⟩ _ :=
    .start (.bare [.guest 0]) 0 _ _ handOver _ rfl
      (Program.along_of_checks _ (fun _ _ => KOp.undisturbed_of_heeds) (by decide +kernel)) rfl
  have hmade := Between.step _ _ _ _ 3 ⟨some 2, none⟩ .budget hstart
    (Program.along_of_checks _ (fun _ _ => KOp.undisturbed_of_heeds) (by decide +kernel)) rfl
  have hended := Between.step _ _ _ _ 3 ⟨some 1, none⟩ .budget hmade
    (Program.along_of_checks _ (fun _ _ => KOp.undisturbed_of_heeds) (by decide +kernel)) rfl
  exact ⟨_, _, _, _, .between _ _ hmade, .between _ _ hended, rfl, nobody_missing _ (.between _ _ hmade), rfl,
    nobody_missing _ (.between _ _ hended)⟩

/-- A guest that traps while it is being replaced is alive in the table for good. -/
theorem trapped_vanishes : ∃ (k : Kernel) (w : List GuestRun),
    Reached Env.execsItself (fun _ _ => True) k w ∧ ¬ k.shared.alivePids.Perm k.carriers := by
  have hspawn : (Config.bare [.guest 0]).drive Env.execsItself [⟨[.syscall 221 0], some []⟩] 3 [] =
    some (_, _) := rfl
  refine ⟨_, _, .between _ _ (.step _ _ _ _ 3 ⟨none, none⟩ (.finished _) (between_drive hspawn)
    (Program.along_of_forall _ (fun _ _ => trivial) _ _) rfl), ?_⟩
  intro hperm
  exact absurd hperm.length_eq (by decide)

end Wasmux
