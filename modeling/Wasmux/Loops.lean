import Wasmux.Histories

/-!
# The loop over the processes

A slice is passes over the list of processes, each from its first to its last
while processes leave it. What is said when a pass has come to a place, and when
the session is over, holds of every session, if every turn takes it one place
further and what is asked around the turns keeps it.
-/

set_option autoImplicit false

namespace Wasmux
open Effects Abi

/-- The steps of the loop that take processes into the list and out of it, up and
down again, and the one that ends the session. -/
def KAct.deals : KAct → Bool
  | .attach _ | .endStep _ _ | .launchSpawn _ | .finishProcess _ _ | .abandonExec _ | .forceExit _ => true
  | _ => false

/-- What is asked between the turns. -/
def KOp.quiet : KOp → Prop
  | .machine _ _ => False
  | .env c => c.invokes = false
  | .act a => match a with
    | .look | .beginRun | .whyIdle => True
    | _ => False

/-- What is asked in a turn after the process has been taken up. -/
def KOp.midturn (index : ℕ) : KOp → Prop
  | .act (.abandonExec i) => i = index
  | .act a => a.deals = false
  | _ => True

/-- What is asked while new processes are started. -/
def KOp.starts : KOp → Prop
  | .machine _ _ => False
  | .env c => c.invokes = false
  | .act a => match a with
    | .look | .charge _ | .release _ | .launchSpawn _ | .abandonSpawn => True
    | _ => False

theorem KOp.prepares.starts {o : KOp} (h : o.prepares) : o.starts := by
  cases o with
  | machine => cases h
  | env => exact h
  | act a =>
    cases a with
    | look | charge | release => trivial
    | _ => cases h

theorem KOp.returns.midturn {index : ℕ} {o : KOp} (h : o.returns index) : o.midturn index := by
  cases o with
  | machine => trivial
  | env => trivial
  | act a =>
    cases a with
    | abandonExec i => exact h
    | attach | endStep | launchSpawn | finishProcess | forceExit => cases h
    | _ => rfl

theorem KOp.advances.midturn {index : ℕ} {o : KOp} (h : o.advances index) : o.midturn index := by
  cases o with
  | machine => trivial
  | env => trivial
  | act a =>
    cases a with
    | abandonExec | attach | endStep | launchSpawn | finishProcess | forceExit => cases h
    | _ => rfl

theorem Kernel.procs_finishProcess (k : Kernel) (i : ℕ) (status : ℤ) :
    (k.finishProcess i status).2.procs = k.procs.eraseIdx i := by
  unfold finishProcess
  cases hp : k.procs[i]? with
  | none => exact (List.eraseIdx_of_length_le (List.getElem?_eq_none_iff.mp hp)).symm
  | some p => rfl

namespace Scheduler

theorem starts_startPending (count : ℕ) : (startPending count).Only KOp.starts := by
  induction count with
  | zero => trivial
  | succ count ih =>
    refine only_kact (a := .look) trivial fun v => ?_
    split
    · trivial
    rename_i spawn hspawn
    apply Program.only_bind ((only_prepare spawn.program spawn.argv).mono fun _ => KOp.prepares.starts)
    rintro (_ | launch)
    · refine only_kact (a := .abandonSpawn) trivial fun handles => ?_
      exact Program.only_bind (only_closeFiles (fun _ => rfl) handles) fun _ => ih
    · exact only_kact (a := .launchSpawn launch) trivial fun _ => ih

theorem midturn_enter (index : ℕ) : (enter index).Only (KOp.midturn index) := by
  refine only_kact (a := .inst index) rfl fun found => ?_
  cases found with
  | none => trivial
  | some inst =>
    refine only_kenv (c := .guest inst) trivial fun run => ?_
    apply Program.only_bind (only_onProc (D := fun _ => True)
      (fun _ _ => trivial) (Program.only_of_forall (fun _ => trivial) _))
    intro _
    cases run.trap with
    | some kind => exact only_kact (a := .trapMessage index kind) rfl fun _ => trivial
    | none => exact (only_afterReturn index).mono fun _ => KOp.returns.midturn

theorem midturn_retry (index : ℕ) (number : ℤ) (args : Args) :
    (retry index number args).Only (KOp.midturn index) := by
  apply Program.only_bind (only_onProc (D := fun _ => True)
    (fun _ _ => trivial) (Program.only_of_forall (fun _ => trivial) _))
  intro outcome
  cases outcome with
  | blocked => exact only_kact (a := .setResume index _) rfl fun _ => trivial
  | exit status => trivial
  | exec => exact (only_replaceInstance index).mono fun _ => KOp.returns.midturn
  | value value => exact only_kact (a := .resumeWith index value) rfl fun _ => midturn_enter index

theorem quiet_pastDeadline : pastDeadline.Only KOp.quiet := by
  refine only_kact (a := .look) trivial fun v => ?_
  split
  · trivial
  · refine only_kenv (c := .instantMax) rfl fun max => ?_
    split
    · exact only_kenv (c := .now) rfl fun _ => trivial
    · trivial

theorem quiet_spent (budget : Budget) (served : ℕ) (started : Instant) :
    (spent budget served started).Only KOp.quiet := by
  unfold spent
  split
  · trivial
  · split
    · trivial
    · exact only_kenv (c := .now) rfl fun _ => trivial

end Scheduler

theorem Config.starts_spawnFirst (c : Config) : c.spawnFirst.Only KOp.starts := by
  apply Program.only_bind ((Scheduler.only_prepare c.program c.argv).mono fun _ => KOp.prepares.starts)
  rintro (_ | launch)
  · refine only_kact (a := .abandonSpawn) trivial fun handles => ?_
    exact Program.only_bind (only_closeFiles (fun _ => rfl) handles) fun _ => trivial
  · exact only_kact (a := .launchSpawn launch) trivial fun _ => trivial

section
variable {W τ : Type}

/-- What is said when a pass has come to a place, and of a session that is over,
with its status. -/
structure Stages (τ : Type) where
  passing : ℕ → Kernel → τ → Prop
  ended : ℤ → Kernel → τ → Prop

/-- The loop takes a session from each stage to the next, and meets `A` on the way. -/
structure Sweeps (S : Stages τ) (H : History τ) (x : Env W) (C : KOp → Kernel × W → Prop)
    (A : KOp → (Kernel × W) × τ → Prop) : Prop where
  quiet : ∀ i o k w t, o.quiet → S.passing i k t → C o (k, w) → A o ((k, w), t) ∧
    S.passing i (kexec x o (k, w)).2.1 (H.next t o k (kexec x o (k, w)).1)
  starts : ∀ o k w t, o.starts → S.passing 0 k t → C o (k, w) → A o ((k, w), t) ∧
    S.passing 0 (kexec x o (k, w)).2.1 (H.next t o k (kexec x o (k, w)).1)
  turn : ∀ turns i k w t, S.passing i k t → Program.Meets (H.exec x)
    (fun o s => C o s.1) A (Scheduler.stepAndPark turns i)
    (fun r u => ∀ a, r = .ok a → S.passing (i + 1) u.1.1 u.2) ((k, w), t)
  finish : ∀ i status k w t, S.passing (i + 1) k t → C (.act (.finishProcess i status)) (k, w) →
    A (.act (.finishProcess i status)) ((k, w), t) ∧
    S.passing i (k.finishProcess i status).2
    (H.next t (.act (.finishProcess i status)) k (k.finishProcess i status).1)
  first : ∀ status k w t, S.passing 0 k t → C (.act (.finishProcess 0 status)) (k, w) →
    A (.act (.finishProcess 0 status)) ((k, w), t) ∧
    S.passing 0 (k.finishProcess 0 status).2
    (H.next t (.act (.finishProcess 0 status)) k (k.finishProcess 0 status).1)
  force : ∀ status k w t, S.passing 0 k t → k.procs = [] → C (.act (.forceExit status)) (k, w) →
    A (.act (.forceExit status)) ((k, w), t) ∧
    S.ended (k.exitStatus.getD status) ((KAct.forceExit status).exec k).2
      (H.next t (.act (.forceExit status)) k ())
  round : ∀ i k t, S.passing i k t → k.procs.length ≤ i → S.passing 0 k t
  exits : ∀ i status k t, S.passing i k t → k.exitStatus = some status → S.ended status k t
  gone : ∀ k t, S.passing 0 k t → k.procs = [] → k.exitStatus = none → S.ended 0 k t
  looks : ∀ status k w t, S.ended status k t → C (.act .look) (k, w) → A (.act .look) ((k, w), t) ∧
    S.ended status k (H.next t (.act .look) k k.look)

def Stages.Reached (S : Stages τ) (k : Kernel) (t : τ) : Option ℤ → Prop
  | none => S.passing 0 k t
  | some status => S.ended status k t

namespace Sweeps
variable {S : Stages τ} {H : History τ} {x : Env W} {C : KOp → Kernel × W → Prop}
    {A : KOp → (Kernel × W) × τ → Prop}
  {α : Type} {Q : Except Stop α → (Kernel × W) × τ → Prop} {s : (Kernel × W) × τ} {i : ℕ}

abbrev At (S : Stages τ) (i : ℕ) (s : (Kernel × W) × τ) : Prop := S.passing i s.1.1 s.2

theorem meets_kact {a : KAct} {f : a.Ans → Sched α} (h : C (.act a) s.1 → A (.act a) s ∧
      Program.Meets (H.exec x) (fun o s => C o s.1) A (f (a.exec s.1.1).1) Q
        (((a.exec s.1.1).2, s.1.2), H.next s.2 (.act a) s.1.1 (a.exec s.1.1).1)) :
    Program.Meets (H.exec x) (fun o s => C o s.1) A (kact a >>= f) Q s := h

theorem meets_act (h : Sweeps S H x C A) {a : KAct} (ha : KOp.quiet (.act a)) {f : a.Ans → Sched α}
    (hs : At S i s) (hf : At S i (((a.exec s.1.1).2, s.1.2), H.next s.2 (.act a) s.1.1 (a.exec s.1.1).1) →
      Program.Meets (H.exec x) (fun o s => C o s.1) A (f (a.exec s.1.1).1) Q
        (((a.exec s.1.1).2, s.1.2), H.next s.2 (.act a) s.1.1 (a.exec s.1.1).1)) :
    Program.Meets (H.exec x) (fun o s => C o s.1) A (kact a >>= f) Q s := by
  refine meets_kact fun hc => ?_
  obtain ⟨hA, hnext⟩ := h.quiet i (.act a) s.1.1 s.1.2 s.2 ha hs hc
  exact ⟨hA, hf hnext⟩

theorem meets_quiet (h : Sweeps S H x C A) {p : Sched α} (hp : p.Only KOp.quiet) (hs : At S i s) :
    Program.Meets (H.exec x) (fun o s => C o s.1) A p (fun _ u => At S i u) s := by
  refine Program.meets_only (I := At S i) ?_ hp hs
  exact fun o s ho hs hc => h.quiet i o s.1.1 s.1.2 s.2 ho hs hc

theorem meets_starts (h : Sweeps S H x C A) {p : Sched α} (hp : p.Only KOp.starts) (hs : At S 0 s) :
    Program.Meets (H.exec x) (fun o s => C o s.1) A p (fun _ u => At S 0 u) s := by
  refine Program.meets_only (I := At S 0) ?_ hp hs
  exact fun o s ho hs hc => h.starts o s.1.1 s.1.2 s.2 ho hs hc

theorem meets_closeFiles (h : Sweeps S H x C A) (handles : List Handle) {procs : List Proc} (hs : At S i s)
    (hprocs : s.1.1.procs = procs) :
    Program.Meets (H.exec x) (fun o s => C o s.1) A (Scheduler.closeFiles handles)
      (fun _ u => At S i u ∧ u.1.1.procs = procs) s := by
  refine Program.meets_only (I := fun s => At S i s ∧ s.1.1.procs = procs)
    (B := fun o : KOp => ∃ handle, o = .env (.closeFile handle)) ?_
    (only_closeFiles (fun handle => ⟨handle, rfl⟩) handles) ⟨hs, hprocs⟩
  rintro - s ⟨handle, rfl⟩ ⟨hs, hprocs⟩ hc
  obtain ⟨hA, hnext⟩ := h.quiet i (.env (.closeFile handle)) s.1.1 s.1.2 s.2 rfl hs hc
  exact ⟨hA, hnext, hprocs⟩

/-- A pass comes to its end, or the session does. -/
theorem meets_pass (h : Sweeps S H x C A) (turns left : ℕ) (progressed : Bool) (hs : At S i s) :
    Program.Meets (H.exec x) (fun o s => C o s.1) A (Scheduler.pass turns left i progressed)
      (fun r u => (∀ p, r = .ok (.swept p) → At S 0 u) ∧ ∀ status, r = .ok (.finished status) →
        S.ended status u.1.1 u.2) s := by
  have hfail (u : (Kernel × W) × τ) (e : Stop) :
    (∀ p, (.error e : Except Stop Scheduler.Pass) = .ok (.swept p) → At S 0 u) ∧
      ∀ status, (.error e : Except Stop Scheduler.Pass) = .ok (.finished status) →
      S.ended status u.1.1 u.2 := by
    constructor
    · exact fun p hp => by cases hp
    · exact fun status hp => by cases hp
  induction left generalizing i progressed s with
  | zero => exact hfail s .outOfTurns
  | succ left ih =>
    refine h.meets_act (a := .look) trivial hs fun hs => Program.meets_ite (fun hend => ?_) fun _ => ?_
    · exact ⟨fun p _ => h.round i _ _ hs hend, fun status hp => by cases hp⟩
    refine Program.meets_bind (h.turn turns i _ _ _ hs) ?_ fun e u _ => hfail u e
    intro step u hu
    cases step with
    | ran | replaced | stuck => exact ih _ (hu _ rfl)
    | ended status =>
      refine meets_kact fun hc => ?_
      obtain ⟨hA, hfinished⟩ := h.finish i status _ _ _ (hu _ rfl) hc
      refine ⟨hA, Program.meets_bind (h.meets_closeFiles _ hfinished rfl) ?_ fun e u _ => hfail u e⟩
      rintro _ v ⟨hv, -⟩
      refine h.meets_act (a := .look) trivial hv fun hv => ?_
      rcases hexit : v.1.1.exitStatus with _ | st
      · have hlook : (KAct.look.exec v.1.1).1.exitStatus = none := hexit
        simp only [hlook]
        exact ih _ hv
      · have hlook : (KAct.look.exec v.1.1).1.exitStatus = some st := hexit
        simp only [hlook]
        constructor
        · exact fun p hp => by cases hp
        · intro st' hst
          cases hst
          exact h.exits i st _ _ hv hexit

/-- All processes are ended, the first in the list first. -/
theorem meets_killAll (h : Sweeps S H x C A) (status : ℤ) (count : ℕ) (hs : At S 0 s)
    (hcount : s.1.1.procs.length = count) :
    Program.Meets (H.exec x) (fun o s => C o s.1) A (Scheduler.killAll status count)
      (fun r u => ∀ a, r = .ok a → S.ended (u.1.1.exitStatus.getD status) u.1.1 u.2) s := by
  induction count generalizing s with
  | zero =>
    intro hc
    obtain ⟨hA, hover⟩ := h.force status _ _ _ hs (List.eq_nil_of_length_eq_zero hcount) hc
    refine ⟨hA, fun _ _ => ?_⟩
    show S.ended ((s.1.1.exitStatus.or (some status)).getD status) _ _
    cases hexit : s.1.1.exitStatus with
    | none =>
      rw [hexit] at hover
      exact hover
    | some st =>
      rw [hexit] at hover
      exact hover
  | succ count ih =>
    refine meets_kact fun hc => ?_
    obtain ⟨hA, hended⟩ := h.first status _ _ _ hs hc
    refine ⟨hA, Program.meets_bind (h.meets_closeFiles _ hended rfl) ?_ fun e u _ a ha => by cases ha⟩
    rintro _ u ⟨hu, hprocs⟩
    refine ih hu ?_
    rw [hprocs]
    show (s.1.1.finishProcess 0 status).2.procs.length = count
    rw [Kernel.procs_finishProcess, List.length_eraseIdx, if_pos (by omega), hcount]
    rfl

/-- Every pass of a slice begins with the first process, and so does the next slice. -/
theorem meets_passes (h : Sweeps S H x C A) (budget : Budget) (served turns : ℕ) (hs : At S 0 s) :
    Program.Meets (H.exec x) (fun o s => C o s.1) A (Scheduler.passes budget served turns)
      (fun r u => ∀ slice, r = .ok slice → S.Reached u.1.1 u.2 slice.status) s := by
  induction turns generalizing s with
  | zero => exact fun slice hslice => by cases hslice
  | succ turns ih =>
    have hfail (u : (Kernel × W) × τ) (e : Stop) (slice : Slice)
      (he : (.error e : Except Stop Slice) = .ok slice) :
        S.Reached u.1.1 u.2 slice.status := by cases he
    refine h.meets_act (a := .look) trivial hs fun hs => ?_
    refine Program.meets_bind (h.meets_starts (Scheduler.starts_startPending _) hs) ?_ fun e u _ => hfail u e
    intro _ u hu
    refine Program.meets_bind (h.meets_quiet Scheduler.quiet_pastDeadline hu) ?_ fun e u _ => hfail u e
    intro past v hv
    refine Program.meets_ite (fun _ => ?_) fun _ => ?_
    · refine h.meets_act (a := .look) trivial hv fun hv => ?_
      refine Program.meets_bind (h.meets_killAll _ _ hv rfl) ?_ fun e u _ => hfail u e
      intro _ u hu
      refine meets_kact fun hc => ?_
      obtain ⟨hA, hover⟩ := h.looks _ _ _ _ (hu _ rfl) hc
      refine ⟨hA, fun slice hslice => ?_⟩
      cases hslice
      exact hover
    · refine h.meets_act (a := .look) trivial hv fun hv => ?_
      refine Program.meets_bind (h.meets_pass turns _ false hv) ?_ fun e u _ => hfail u e
      rintro swept u ⟨hswept, hfinished⟩
      cases swept with
      | finished status =>
        intro slice hslice
        cases hslice
        exact hfinished status rfl
      | swept progressed =>
        refine h.meets_act (a := .look) trivial (hswept progressed rfl) fun hu => ?_
        refine Program.meets_ite (fun hcount => ?_) fun _ => ?_
        · intro slice hslice
          cases hslice
          have hgone : u.1.1.procs = [] := List.eq_nil_of_length_eq_zero hcount
          show S.ended (u.1.1.exitStatus.getD 0) _ _
          cases hexit : u.1.1.exitStatus with
          | none => exact h.gone _ _ hu hgone hexit
          | some status => exact h.exits 0 status _ _ hu hexit
        refine Program.meets_ite (fun _ => ?_) fun _ => ?_
        · refine h.meets_act (a := .whyIdle) trivial hu fun hu slice hslice => ?_
          cases hslice
          exact hu
        · refine Program.meets_bind (h.meets_quiet (Scheduler.quiet_spent budget _ _) hu) ?_ fun e u _ =>
            hfail u e
          intro done v hv
          refine Program.meets_ite (fun _ slice hslice => ?_) fun _ => ih hv
          cases hslice
          exact hv

theorem meets_run (h : Sweeps S H x C A) (turns : ℕ) (budget : Budget) (hs : At S 0 s) :
    Program.Meets (H.exec x) (fun o s => C o s.1) A (Scheduler.run turns budget)
      (fun r u => ∀ slice, r = .ok slice → S.Reached u.1.1 u.2 slice.status) s := by
  refine h.meets_act (a := .look) trivial hs fun hs => h.meets_act (a := .beginRun) trivial hs fun hs => ?_
  exact h.meets_passes budget _ turns hs

theorem meets_stepProcess {J : (Kernel × W) × τ → Prop} (turns : ℕ)
    (hattach : C (.act (.attach i)) s.1 → A (.act (.attach i)) s ∧
      J ((((KAct.attach i).exec s.1.1).2, s.1.2),
        H.next s.2 (.act (.attach i)) s.1.1 ((KAct.attach i).exec s.1.1).1))
    (hmid : ∀ o s, KOp.midturn i o → J s → C o s.1 → A o s ∧ J (H.exec x o s).2) :
    Program.Meets (H.exec x) (fun o s => C o s.1) A (Scheduler.stepProcess turns i) (fun _ u => J u) s := by
  refine meets_kact fun hc => ?_
  obtain ⟨hA, hJ⟩ := hattach hc
  refine ⟨hA, Program.meets_only hmid ?_ hJ⟩
  rcases ((KAct.attach i).exec s.1.1).1 with _ | _ | resume
  · trivial
  · exact (Scheduler.only_stepHost turns i).mono fun _ => KOp.advances.midturn
  cases resume with
  | fresh => exact Scheduler.midturn_enter i
  | rewind => exact only_kact (a := .rewind i) rfl fun _ => Scheduler.midturn_enter i
  | blocked number args => exact Scheduler.midturn_retry i number args

theorem meets_stepAndPark {I J : (Kernel × W) × τ → Prop} (turns : ℕ)
    (hlook : ∀ s, I s → C (.act .look) s.1 → A (.act .look) s ∧ I (H.exec x (.act .look) s).2)
    (hattach : ∀ s, I s → C (.act (.attach i)) s.1 → A (.act (.attach i)) s ∧
      J (H.exec x (.act (.attach i)) s).2)
    (hmid : ∀ o s, KOp.midturn i o → J s → C o s.1 → A o s ∧ J (H.exec x o s).2)
    (hpark : ∀ external s, J s → C (.act (.endStep i external)) s.1 → A (.act (.endStep i external)) s ∧
      J (H.exec x (.act (.endStep i external)) s).2) (hs : I s) :
    Program.Meets (H.exec x) (fun o s => C o s.1) A (Scheduler.stepAndPark turns i)
        (fun r u => ∀ a, r = .ok a → J u) s := by
  refine meets_kact fun hc => ?_
  obtain ⟨hA, hlooked⟩ := hlook s hs hc
  refine ⟨hA, Program.meets_bind (meets_stepProcess turns (fun hc => hattach _ hlooked hc) hmid)
    ?_ fun e u _ a ha => by cases ha⟩
  intro step u hu
  refine meets_kact fun hc => ?_
  obtain ⟨hA, hu⟩ := hmid (.act .look) u rfl hu hc
  refine ⟨hA, meets_kact fun hc => ?_⟩
  obtain ⟨hA, hu⟩ := hpark _ _ hu hc
  exact ⟨hA, fun _ _ => hu⟩

/-- The start of a session, and what its caller does, leaves it where it is. -/
structure Begins (S : Stages τ) (H : History τ) (x : Env W) (C : KOp → Kernel × W → Prop)
    (A : KOp → (Kernel × W) × τ → Prop) : Prop where
  start : ∀ (c : Config) started k w, c.kernel started = some k → Program.Meets (H.exec x)
    (fun o s => C o s.1) A c.spawnFirst
    (fun r u => r = .ok true → At S 0 u) ((k, w), H.start)
  input : ∀ finished (k : Kernel) data closed t, S.Reached k t finished →
    S.Reached { k with shared := { k.shared with stdin := ⟨data, closed, false⟩ } } t finished
  output : ∀ finished (k : Kernel) out err t, S.Reached k t finished →
    S.Reached { k with shared := { k.shared with stdout := out, stderr := err } } t finished

theorem recorded (h : Sweeps S H x C A) (hbegin : Begins S H x C A) {s : Session} {w : W} {t : τ}
    (hs : Recorded x H C s w t) : S.Reached s.kernel t s.finished := by
  induction hs with
  | start c started k k' w w' t hk hc hr =>
    have hend := ((hbegin.start c started k w hk).run (Program.along_noting (s := ((k, w), H.start)) hc)).2
    rw [hr] at hend
    exact hend rfl
  | elapse s w w' t _ ih => exact ih
  | step k k' w w' t t' turns budget slice _ hc hr ih =>
    have hend := ((h.meets_run turns budget (s := ((k, w), t)) ih).run (Program.along_noting
      (s := ((k, w), t)) hc)).2
    rw [hr] at hend
    exact hend slice rfl
  | writeStdin s w t bytes _ ih => exact hbegin.input _ _ _ _ _ ih
  | closeStdin s w t _ ih => exact hbegin.input _ _ _ _ _ ih
  | takeStdout s w t _ ih => exact hbegin.output _ _ _ s.kernel.shared.stderr _ ih
  | takeStderr s w t _ ih => exact hbegin.output _ _ s.kernel.shared.stdout _ _ ih

theorem performed (h : Sweeps S H x C A) (hbegin : Begins S H x C A) {o : KOp} {k : Kernel} {w : W} {t : τ}
    (ho : Performed x H C o k w t) : A o ((k, w), t) := by
  cases ho with
  | starting c started k w v hk hc hv =>
    have halong := ((hbegin.start c started k w hk).run (Program.along_noting (s := ((k, w), H.start)) hc)).1
    exact (Program.along_iff_trace _ _ _ _).mp halong v hv
  | running k w t turns budget v hs hc hv =>
    have halong := ((h.meets_run turns budget (s := ((k, w), t)) (h.recorded hbegin hs)).run
      (Program.along_noting (s := ((k, w), t)) hc)).1
    exact (Program.along_iff_trace _ _ _ _).mp halong v hv

end Sweeps
end
end Wasmux
