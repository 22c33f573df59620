import Wasmux.Accounts
import Wasmux.Rules
import Wasmux.Session

/-!
# How long a slice lasts

A duration is compared at the end of each pass over the process list, with
what the clock shows then. It is counted from the start of the session, so an
old session has spent the whole of it before the call of `run` begins.
-/

set_option autoImplicit false

namespace Wasmux
open Effects Abi

/-- What an operation of the loop reads off the clock. -/
def KOp.reading : (o : KOp) → o.Ans → Option Instant
  | .env .now, t => some t
  | _, _ => none

namespace Scheduler
variable {W : Type} (x : Env W)

/-- What the loop reads off the clock during a run, in order. -/
def readings {α : Type} (p : Sched α) (s : Kernel × W) : List Instant :=
  (Program.trace (kexec x) p s).filterMap fun v => v.op.reading v.ans

/-- A call of `run` comes to the end of a pass, with so many calls served, and
looks at its budget. -/
def PassEnds (turns : ℕ) (budget : Budget) (s : Kernel × W) (served : ℕ) (t : Kernel × W) : Prop :=
  ∃ left, Program.Comes (kexec x) (run turns budget) s
    (spent budget served s.1.shared.started >>= fun done =>
      if done = true then .ret .budget else passes budget s.1.shared.syscalls left) t

/-- A call of `run` with a duration that gives back with `Slice::Budget` has
seen that much time pass since it began. -/
def LastsFor (turns : ℕ) (d : Duration) (s : Kernel × W) : Prop :=
  ∀ t, (run turns ⟨none, some d⟩).run (kexec x) s = (.ok .budget, t) →
    ∃ last, (readings x (run turns ⟨none, some d⟩) s).getLast? = some last ∧ (x.now s.2).1 + d ≤ last

variable {x}

theorem run_spent_duration (d : Duration) (served : ℕ) (started : Instant) (t : Kernel × W) :
    (spent ⟨none, some d⟩ served started).run (kexec x) t =
      (.ok (decide (d ≤ (x.now t.2).1 - started)), (t.1, (x.now t.2).2)) := rfl

theorem started_run {α : Type} {p : Sched α} {s t : Kernel × W} {r : Except Stop α}
    (h : p.run (kexec x) s = (r, t)) : t.1.shared.started = s.1.shared.started := by
  have hkeeps := Program.final_keeps (kexec x)
    (P := fun t : Kernel × W => t.1.shared.settings = s.1.shared.settings)
    (fun o u hu => (settings_kexec x o u).trans hu) p rfl
  rw [Program.final, h] at hkeeps
  exact congrArg Settings.started hkeeps

/-- A loop that gives back for its budget does so at the end of a pass. -/
theorem comes_spent {budget : Budget} {base turns : ℕ} {p : Sched Slice} {started : Instant}
    {s t u : Kernel × W} (hcomes : Program.Comes (kexec x) p s (passes budget base turns) t)
    (hstarted : t.1.shared.started = started)
    (h : (passes budget base turns).run (kexec x) t = (.ok .budget, u)) :
    ∃ served left v, Program.Comes (kexec x) p s (spent budget served started >>= fun done =>
        if done = true then .ret .budget else passes budget base left) v ∧
      (spent budget served started).run (kexec x) v = (.ok true, u) := by
  induction turns generalizing t with
  | zero => cases h
  | succ turns ih =>
    unfold passes at h hcomes
    obtain ⟨_, t₁, h₁, h⟩ := Program.run_bind_eq_ok _ h
    have c₁ := hcomes.after _ h₁
    obtain ⟨_, t₂, h₂, h⟩ := Program.run_bind_eq_ok _ h
    have c₂ := c₁.after _ h₂
    obtain ⟨past, t₃, h₃, h⟩ := Program.run_bind_eq_ok _ h
    have c₃ := c₂.after _ h₃
    cases past with
    | true =>
      -- a session that has run out of time ends
      simp only [if_true] at h
      obtain ⟨_, _, _, h⟩ := Program.run_bind_eq_ok _ h
      obtain ⟨_, _, _, h⟩ := Program.run_bind_eq_ok _ h
      obtain ⟨_, _, _, h⟩ := Program.run_bind_eq_ok _ h
      cases h
    | false =>
      simp only [Bool.false_eq_true, if_false] at h c₃
      obtain ⟨_, t₄, h₄, h⟩ := Program.run_bind_eq_ok _ h
      have c₄ := c₃.after _ h₄
      obtain ⟨swept, t₅, h₅, h⟩ := Program.run_bind_eq_ok _ h
      have c₅ := c₄.after _ h₅
      cases swept with
      | finished status => cases h
      | swept progressed =>
        obtain ⟨view, t₆, h₆, h⟩ := Program.run_bind_eq_ok _ h
        have c₆ := c₅.after _ h₆
        obtain ⟨rfl, rfl⟩ : t₅.1.look = view ∧ t₅ = t₆ :=
          ⟨Except.ok.inj (congrArg Prod.fst h₆), congrArg Prod.snd h₆⟩
        by_cases hnone : t₅.1.look.count = 0
        · rw [if_pos hnone] at h
          cases h
        rw [if_neg hnone] at h c₆
        cases progressed with
        | false =>
          simp only [Bool.not_false, if_true] at h
          obtain ⟨_, _, _, h⟩ := Program.run_bind_eq_ok _ h
          cases h
        | true =>
          simp only [Bool.not_true, Bool.false_eq_true, if_false] at h c₆
          have hview : t₅.1.look.started = started := by
            change t₅.1.shared.started = started
            rw [started_run h₅, started_run h₄, started_run h₃, started_run h₂, started_run h₁, hstarted]
          rw [hview] at h c₆
          obtain ⟨done, t₇, h₇, h⟩ := Program.run_bind_eq_ok _ h
          have c₇ := c₆.after _ h₇
          cases done with
          | true =>
            obtain rfl : t₇ = u := congrArg Prod.snd h
            exact ⟨_, turns, t₅, c₆, h₇⟩
          | false =>
            simp only [Bool.false_eq_true, if_false] at h c₇
            refine ih c₇ ?_ h
            rw [started_run h₇]
            exact hview

/-- The last thing read off the clock by a call that finds its duration spent. -/
theorem readings_last {turns served left : ℕ} {d : Duration} {s t : Kernel × W}
    (hcomes : Program.Comes (kexec x) (run turns ⟨none, some d⟩) s
      (spent ⟨none, some d⟩ served s.1.shared.started >>= fun done =>
        if done = true then .ret .budget else passes ⟨none, some d⟩ s.1.shared.syscalls left) t)
    (hspent : d ≤ (x.now t.2).1 - s.1.shared.started) :
    (run turns ⟨none, some d⟩).run (kexec x) s = (.ok .budget, (t.1, (x.now t.2).2)) ∧
      (readings x (run turns ⟨none, some d⟩) s).getLast? = some (x.now t.2).1 := by
  have hrun := run_spent_duration (x := x) d served s.1.shared.started t
  rw [decide_eq_true hspent] at hrun
  obtain ⟨before, htrace⟩ := hcomes.trace
  constructor
  · rw [← hcomes.run, Program.run_bind_ok _ hrun]
    rfl
  · have htail : Program.trace (kexec x) (spent ⟨none, some d⟩ served s.1.shared.started >>= fun done =>
        if done = true then .ret .budget else passes ⟨none, some d⟩ s.1.shared.syscalls left) t =
        [⟨t, .env .now, (x.now t.2).1⟩] := by
      rw [Program.trace_bind, hrun]
      rfl
    rw [readings, htrace, htail, List.filterMap_append]
    exact List.getLast?_concat

/-- A call that gives back for its duration does so at the end of a pass, with
a last look at the clock that is that far past the start of the session. -/
theorem returned_spent {turns : ℕ} {d : Duration} {s u : Kernel × W}
    (hrun : (run turns ⟨none, some d⟩).run (kexec x) s = (.ok .budget, u)) : ∃ served t,
    PassEnds x turns ⟨none, some d⟩ s served t ∧ d ≤ (x.now t.2).1 - s.1.shared.started ∧
    (readings x (run turns ⟨none, some d⟩) s).getLast? = some (x.now t.2).1 := by
  have hcall := hrun
  unfold run at hcall
  obtain ⟨v, t₁, h₁, hcall⟩ := Program.run_bind_eq_ok _ hcall
  have c₁ : Program.Comes (kexec x) (run turns ⟨none, some d⟩) s _ t₁ := Program.comes_bind _ h₁
  obtain ⟨rfl, rfl⟩ : s.1.look = v ∧ s = t₁ := ⟨Except.ok.inj (congrArg Prod.fst h₁), congrArg Prod.snd h₁⟩
  obtain ⟨_, t₂, h₂, hcall⟩ := Program.run_bind_eq_ok _ hcall
  have c₂ := c₁.after _ h₂
  obtain ⟨served, left, t, hcomes, hspent⟩ := comes_spent c₂ (started_run h₂) hcall
  have hle : d ≤ (x.now t.2).1 - s.1.shared.started := by
    rw [run_spent_duration] at hspent
    exact of_decide_eq_true (Except.ok.inj (congrArg Prod.fst hspent))
  exact ⟨served, t, ⟨left, hcomes⟩, hle, (readings_last hcomes hle).2⟩

theorem lasts_of_young {turns : ℕ} {d : Duration} {s : Kernel × W} (hsome : 0 < d)
    (hyoung : (x.now s.2).1 ≤ s.1.shared.started) : LastsFor x turns d s := by
  intro u hrun
  obtain ⟨served, t, -, hspent, hlast⟩ := returned_spent hrun
  have hlater : s.1.shared.started ≤ (x.now t.2).1 := Nat.le_of_lt (Nat.lt_of_sub_pos (hsome.trans_le hspent))
  exact ⟨_, hlast, (Nat.add_le_add_right hyoung d).trans (Nat.add_le_of_le_sub' hlater hspent)⟩

theorem short_of_old {turns served : ℕ} {d : Duration} {s t : Kernel × W}
    (hends : PassEnds x turns ⟨none, some d⟩ s served t) (hold : s.1.shared.started + d ≤ (x.now t.2).1)
    (hshort : (x.now t.2).1 < (x.now s.2).1 + d) : ¬ LastsFor x turns d s := by
  intro hlasts
  obtain ⟨left, hcomes⟩ := hends
  obtain ⟨hrun, hlast⟩ := readings_last hcomes (Nat.le_sub_of_add_le' hold)
  obtain ⟨last, hread, hle⟩ := hlasts _ hrun
  rw [hlast] at hread
  rw [← Option.some.inj hread] at hle
  exact absurd hle (not_le.mpr hshort)

/-- A call with a duration lasts for it exactly if, wherever it comes to the
end of a pass, a clock that is that far past the start of the session is that
far past the start of the call. -/
theorem duration_budget_iff (turns : ℕ) (d : Duration) (s : Kernel × W) :
    LastsFor x turns d s ↔ ∀ served t, PassEnds x turns ⟨none, some d⟩ s served t →
      d ≤ (x.now t.2).1 - s.1.shared.started → (x.now s.2).1 + d ≤ (x.now t.2).1 := by
  constructor
  · rintro h served t ⟨left, hcomes⟩ hspent
    obtain ⟨hrun, hlast⟩ := readings_last hcomes hspent
    obtain ⟨last, hread, hle⟩ := h _ hrun
    rw [hlast] at hread
    rwa [← Option.some.inj hread] at hle
  · intro h u hrun
    obtain ⟨served, t, hends, hspent, hlast⟩ := returned_spent hrun
    exact ⟨_, hlast, h served t hends hspent⟩

end Scheduler

/-- A guest that waits for its standard input. Each time it is entered takes one
unit of time. -/
def Env.ticking : Env Instant :=
  { Env.still Instant with
    now := fun w => (w, w)
    instantiate := fun _ w => (some ⟨.startingWith (argWords [0, 64, 1, 0, 0, 0]), 0, false⟩, w)
    guest := fun _ w => (⟨[.syscall 63 0], none⟩, w + 1) }

/-- A session that has been there for a while gives back at once. -/
theorem duration_budget_short : ∃ k, Between Env.ticking (fun _ _ => True) ⟨k, none⟩ 1000 ∧
    ¬ Scheduler.LastsFor Env.ticking 1 5 (k, 1000) := by
  have hdrive : (Config.bare [.guest 0]).drive Env.ticking 0 1 [] = some (_, 0) := rfl
  refine ⟨_, .elapse _ 0 1000 (between_drive hdrive), fun h => ?_⟩
  obtain ⟨last, hread, hle⟩ := h _ rfl
  have hlast : last = 1001 := Option.some.inj (hread.symm.trans rfl)
  rw [hlast] at hle
  exact absurd hle (by decide)

end Wasmux
