import Wasmux.Counting.Dealing
import Wasmux.Loops

/-!
# Who gets a turn

The loop goes over the list of processes while processes leave it: each that
is there when a pass begins, and has not left before its place was reached, gets
one turn in it. The one exception is the process behind one that died in an
`execve` of its own whose program could not be started: it is passed over.
-/

set_option autoImplicit false

namespace Wasmux
open Counting Effects Abi

/-- How many turns each process has had, where who comes new counts as the
first in the list does, and how many died for want of a program. -/
structure Turntable where
  counts : List ℕ
  unstarted : ℕ

def rotation : History Turntable where
  start := ⟨[], 0⟩
  next t o k _ := match o with
    | .act (.attach i) => { t with counts := t.counts.modify i (· + 1) }
    | .act (.launchSpawn _) =>
        if k.shared.spawn.isEmpty then t else { t with counts := t.counts ++ [t.counts.headD 0] }
    | .act (.finishProcess i _) => { t with counts := t.counts.eraseIdx i }
    | .act (.abandonExec i) => if ((k.procs[i]?).bind fun p => p.ctx.execRequest).isSome
        then ⟨t.counts.eraseIdx i, t.unstarted + 1⟩ else t
    | _ => t

structure Kernel.Passing (k : Kernel) (t : Turntable) (i : ℕ) : Prop where
  dealt : Dealt t.unstarted i t.counts
  length : t.counts.length = k.procs.length

theorem KAct.procs_length (a : KAct) (k : Kernel) (h : a.deals = false) :
    (a.exec k).2.procs.length = k.procs.length := by
  rcases ha : a.target with _ | i
  · by_cases hgathers : a.gathers = true
    · cases a with
      | beginRun => exact List.length_map _
      | launchExec i launch => exact List.length_modify _ _ _
      | launchSpawn | finishProcess | abandonExec => cases h
      | _ => cases hgathers
    · rw [a.procs_untargeted ha (by simpa using hgathers)]
  · rw [a.procs_target ha, List.length_modify]

section
variable {k : Kernel} {t : Turntable} {i : ℕ}

theorem Kernel.Passing.same (h : k.Passing t i) {k' : Kernel} (hlength : k'.procs.length = k.procs.length) :
    k'.Passing t i :=
  ⟨h.dealt, h.length.trans hlength.symm⟩

variable {W : Type} {x : Env W} {w : W}

/-- What deals with nobody leaves the pass where it is. -/
theorem Kernel.Passing.still (h : k.Passing t i) {o : KOp} (ho : ∀ a, o = .act a → a.deals = false) :
    (kexec x o (k, w)).2.1.Passing (rotation.next t o k (kexec x o (k, w)).1) i := by
  cases o with
  | env c => exact h
  | machine j o =>
    refine h.same ?_
    rcases hp : k.procs[j]? with _ | p
    · rw [kexec_machine_none x hp]
    · rw [kexec_machine x hp]
      exact List.length_modify _ _ _
  | act a =>
    have hstill := ho a rfl
    have hsame : rotation.next t (.act a) k (kexec x (.act a) (k, w)).1 = t := by
      cases a with
      | abandonExec | attach | endStep | launchSpawn | finishProcess | forceExit => cases hstill
      | _ => rfl
    rw [hsame]
    exact h.same (a.procs_length k hstill)

theorem Kernel.Passing.quiet (h : k.Passing t i) {o : KOp} (ho : o.quiet) :
    (kexec x o (k, w)).2.1.Passing (rotation.next t o k (kexec x o (k, w)).1) i := by
  apply h.still
  rintro a rfl
  cases a with
  | look | beginRun | whyIdle => rfl
  | _ => cases ho

theorem Kernel.Passing.midturn (h : k.Passing t (i + 1)) {o : KOp} (ho : o.midturn i) :
    (kexec x o (k, w)).2.1.Passing (rotation.next t o k (kexec x o (k, w)).1) (i + 1) := by
  by_cases habandon : ∃ j, o = .act (.abandonExec j)
  · obtain ⟨j, rfl⟩ := habandon
    obtain rfl : j = i := ho
    rcases hrequest : (k.procs[j]?).bind fun p => p.ctx.execRequest with _ | spawn
    · simpa [rotation, KAct.exec, hrequest] using h
    · simp only [kexec_act, KAct.exec, rotation, hrequest, Option.isSome_some, if_true]
      refine ⟨h.dealt.drop, ?_⟩
      rw [List.length_eraseIdx, List.length_eraseIdx, h.length]
  · apply h.still
    rintro a rfl
    cases a with
    | abandonExec j => exact absurd ⟨j, rfl⟩ habandon
    | _ => exact ho

/-- New processes join between two passes. -/
theorem Kernel.Passing.starts (h : k.Passing t 0) {o : KOp} (ho : o.starts) :
    (kexec x o (k, w)).2.1.Passing (rotation.next t o k (kexec x o (k, w)).1) 0 := by
  by_cases hlaunch : ∃ launch, o = .act (.launchSpawn launch)
  · obtain ⟨launch, rfl⟩ := hlaunch
    cases hspawn : k.shared.spawn with
    | nil => simpa [rotation, KAct.exec, hspawn] using h
    | cons spawn rest =>
      simp only [kexec_act, KAct.exec, rotation, hspawn, List.isEmpty_cons, Bool.false_eq_true, if_false]
      refine ⟨h.dealt.join, ?_⟩
      rw [List.length_append, List.length_append, h.length]
      rfl
  · apply h.still
    rintro a rfl
    cases a with
    | launchSpawn launch => exact absurd ⟨launch, rfl⟩ hlaunch
    | look | charge | release | abandonSpawn => rfl
    | _ => cases ho

theorem Kernel.Passing.attach (h : k.Passing t i) :
    ((KAct.attach i).exec k).2.Passing (rotation.next t (.act (.attach i)) k ((KAct.attach i).exec k).1)
      (i + 1) := by
  refine ⟨h.dealt.turn, ?_⟩
  rw [KAct.procs_target _ rfl, List.length_modify, ← h.length]
  exact List.length_modify _ _ _

theorem Kernel.Passing.erased (h : k.Passing t i) (j : ℕ) (status : ℤ) :
    (t.counts.eraseIdx j).length = (k.finishProcess j status).2.procs.length := by
  rw [k.procs_finishProcess, List.length_eraseIdx, List.length_eraseIdx, h.length]

theorem Kernel.Passing.finish (h : k.Passing t (i + 1)) (status : ℤ) :
    (k.finishProcess i status).2.Passing { t with counts := t.counts.eraseIdx i } i :=
    ⟨h.dealt.leave, h.erased i status⟩

theorem Kernel.Passing.finish_first (h : k.Passing t 0) (status : ℤ) :
    (k.finishProcess 0 status).2.Passing { t with counts := t.counts.eraseIdx 0 } 0 :=
    ⟨h.dealt.leave_first, h.erased 0 status⟩

def Turntable.Even (t : Turntable) : Prop := ∀ m ∈ t.counts, ∀ n ∈ t.counts, m ≤ n + 1 + t.unstarted

def Turntable.Level (t : Turntable) : Prop := ∀ m ∈ t.counts, ∀ n ∈ t.counts, m ≤ n + t.unstarted

def KOp.joins : KOp → Prop
  | .act (.launchSpawn _) => True
  | _ => False

theorem Kernel.Passing.even (h : k.Passing t i) : t.Even := fun _ hm _ hn => h.dealt.even hm hn

theorem Kernel.Passing.level (h : k.Passing t 0) : t.Level := fun _ hm _ hn => h.dealt.level hm hn

/-- What holds of the turns at every operation: nobody comes during a pass. -/
abbrev Evenly : KOp → (Kernel × W) × Turntable → Prop := fun o s =>
  s.2.Even ∧ s.2.counts.length = s.1.1.procs.length ∧ (o.joins → s.2.Level)

theorem Kernel.Passing.evenly (h : k.Passing t i) {o : KOp} (ho : ¬ o.joins) : Evenly o ((k, w), t) :=
  ⟨h.even, h.length, fun hjoins => absurd hjoins ho⟩

theorem KOp.quiet.stays {o : KOp} (h : o.quiet) : ¬ o.joins := by
  cases o with
  | act a =>
    cases a with
    | launchSpawn => cases h
    | _ => exact not_false
  | _ => exact not_false

theorem KOp.midturn.stays {o : KOp} (h : o.midturn i) : ¬ o.joins := by
  cases o with
  | act a =>
    cases a with
    | launchSpawn => cases h
    | _ => exact not_false
  | _ => exact not_false

end

section
variable {W : Type} (x : Env W) (C : KOp → Kernel × W → Prop)

def dealing : Stages Turntable := ⟨fun i k t => k.Passing t i, fun _ k t => ∃ i, k.Passing t i⟩

theorem sweeps_dealing : Sweeps dealing rotation x C Evenly where
  quiet i o k w t ho h _ := ⟨h.evenly ho.stays, h.quiet ho⟩
  starts o k w t ho h _ := ⟨⟨h.even, h.length, fun _ => h.level⟩, h.starts ho⟩
  turn turns i k w t h := by
    refine Sweeps.meets_stepAndPark (I := fun s => s.1.1.Passing s.2 i)
      (J := fun s => s.1.1.Passing s.2 (i + 1)) turns ?_ ?_ ?_ ?_ h
    · exact fun s hs _ => ⟨hs.evenly not_false, hs.quiet (x := x) (o := .act .look) trivial⟩
    · exact fun s hs _ => ⟨hs.evenly not_false, hs.attach⟩
    · exact fun o s ho hs _ => ⟨hs.evenly ho.stays, hs.midturn ho⟩
    · exact fun external s hs _ => ⟨hs.evenly not_false, hs.same (List.length_modify _ _ _)⟩
  finish i status k w t h _ := ⟨h.evenly not_false, h.finish status⟩
  first status k w t h _ := ⟨h.evenly not_false, h.finish_first status⟩
  force status k w t h _ _ := ⟨h.evenly not_false, 0, h.same rfl⟩
  round i k t h hend := ⟨h.dealt.round (h.length ▸ hend), h.length⟩
  exits i _ k t h _ := ⟨i, h⟩
  gone k t h _ _ := ⟨0, h⟩
  looks status k w t h _ := by
    obtain ⟨i, hi⟩ := h
    exact ⟨hi.evenly not_false, i, hi⟩

theorem begins_dealing : Sweeps.Begins dealing rotation x C Evenly where
  start c started k w hk := by
    have hstart : Sweeps.At dealing 0 ((k, w), rotation.start) := by
      obtain ⟨fds, slab, rfl⟩ := Config.kernel_eq hk
      exact ⟨dealt_nil 0 0, rfl⟩
    exact ((sweeps_dealing x C).meets_starts c.starts_spawnFirst hstart).mono fun r u hu _ => hu
  input finished k data closed t h := by
    cases finished with
    | none => exact h.same rfl
    | some status =>
      obtain ⟨i, hi⟩ := h
      exact ⟨i, hi.same rfl⟩
  output finished k out err t h := by
    cases finished with
    | none => exact h.same rfl
    | some status =>
      obtain ⟨i, hi⟩ := h
      exact ⟨i, hi.same rfl⟩

/-- The scheduler is fair. At all times no process has had more than one turn
more than another since the later of the two came, and between two slices none
at all, nor when one comes, which is why it may count as the first does. Every
process that dies for want of a program may add one. -/
theorem turns_even :
    (∀ o k w t, Performed x rotation C o k w t → t.counts.length = k.procs.length ∧
      (∀ m ∈ t.counts, ∀ n ∈ t.counts, m ≤ n + 1 + t.unstarted) ∧
      ∀ launch, o = .act (.launchSpawn launch) → ∀ m ∈ t.counts, ∀ n ∈ t.counts, m ≤ n + t.unstarted) ∧
    ∀ s w t, Recorded x rotation C s w t → s.finished = none →
      t.counts.length = s.kernel.procs.length ∧ ∀ m ∈ t.counts, ∀ n ∈ t.counts, m ≤ n + t.unstarted := by
  constructor
  · intro o k w t h
    obtain ⟨heven, hlength, hlevel⟩ := (sweeps_dealing x C).performed (begins_dealing x C) h
    refine ⟨hlength, heven, fun launch ho => hlevel ?_⟩
    rw [ho]
    trivial
  · intro s w t h hnone
    have hreached := (sweeps_dealing x C).recorded (begins_dealing x C) h
    rw [hnone] at hreached
    have hpassing : s.kernel.Passing t 0 := hreached
    exact ⟨hpassing.length, hpassing.level⟩

end

/-- Two processes, the first of which has had its second turn. -/
theorem turns_even_two : ∃ (k : Kernel) (w : List GuestRun) (t : Turntable),
    Performed Env.handsOver rotation (fun _ _ => True) (.act (.attach 1)) k w t ∧ k.procs.length = 2 ∧
    t.counts = [2, 1] ∧
    ∀ m ∈ t.counts, ∀ n ∈ t.counts, m ≤ n + 1 + t.unstarted := by
  have hstart : Recorded Env.handsOver rotation (fun _ _ => True) ⟨_, none⟩ _ ⟨[0], 0⟩ :=
    .start (.bare [.guest 0]) 0 _ _
      [⟨[.syscall 220 0, .syscall 221 24, .setjmp 0], none⟩, ⟨[.setjmp 0, .setjmp 0], none⟩,
        ⟨[.setjmp 0], none⟩] _ _ rfl
      (Program.along_of_forall _ (fun _ _ => trivial) _ _) rfl
  have hattach := Performed.running _ _ _ 3 ⟨none, none⟩ _ hstart
    (Program.along_of_forall _ (fun _ _ => trivial) _ _) (List.mem_of_getElem? (i := 60) rfl)
  obtain ⟨k, w, t, hattach, hprocs, hcounts⟩ : ∃ (k : Kernel) (w : List GuestRun) (t : Turntable),
      Performed Env.handsOver rotation (fun _ _ => True) (.act (.attach 1)) k w t ∧ k.procs.length = 2 ∧
      t.counts = [2, 1] :=
    ⟨_, _, _, hattach, rfl, rfl⟩
  exact ⟨k, w, t, hattach, hprocs, hcounts,
    ((turns_even Env.handsOver fun _ _ => True).1 _ k w t hattach).2.1⟩

end Wasmux
