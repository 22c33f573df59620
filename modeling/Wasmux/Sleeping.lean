import Wasmux.Outstanding

/-!
# Sleeps last as long as they are told

A call that waits is made again and again until it is done. What is noted of
each process is where its call began: with which memory, and what the clock
showed when it was first read. The instant that the process keeps for the
retries goes by that, in every session and whatever happens in between.
-/

set_option autoImplicit false

namespace Wasmux
open Effects Abi

/-- What is noted of the call of a process: which one is made again, the memory
it was first made with, and the first reading of the clock since. -/
structure Timing where
  again : Option (ℤ × Args)
  start : Mem
  clock : Option Instant

namespace Timing

/-- A call is made, for the first time or again. -/
def called (t : Timing) (mem : Mem) : Timing :=
    if t.again.isSome then { t with again := none } else ⟨none, mem, none⟩

def after (t : Timing) (now : List Instant) : Timing := { t with clock := t.clock.or now.head? }

@[simp] theorem called_again (t : Timing) (mem : Mem) : (t.called mem).again = none := by
  unfold called
  split <;> rfl

theorem called_first {t : Timing} (h : t.again = none) (mem : Mem) : t.called mem = ⟨none, mem, none⟩ := by
  rw [called, h]
  rfl

theorem called_retry {t : Timing} {call : ℤ × Args} (h : t.again = some call) (mem : Mem) :
    t.called mem = { t with again := none } := by
  rw [called, h]
  rfl

@[simp] theorem after_nil (t : Timing) : t.after [] = t := by
  simp [after]

theorem after_append (t : Timing) (now later : List Instant) :
    t.after (now ++ later) = (t.after now).after later := by
  simp only [after, List.head?_append, Option.or_assoc]

end Timing

/-- The notes of the calls of each process. -/
def timing : Chronicle Timing where
  fresh := ⟨none, ⟨0, fun _ => 0⟩, none⟩
  machine
    | .act .served, m, _, t => t.called m.inst.mem
    | .env .now, _, now, t => t.after [now]
    | _, _, _, t => t
  act
    | .attach _, p, t => { t with again := p.resume.call }
    | _, _, t => t
  command _ _ t := t

section
variable {W : Type} (x : Env W)

/-- A timed call that is put aside keeps the instant that its time is up, counted from its first reading
of the clock. -/
structure HeldUntil (number : ℤ) (a : Args) (t : Timing) (deadline : Option Instant) : Prop where
  timeout : ∀ start, timeoutAt number a = some start → ∃ requested began limit,
    t.start.timespec start = .ok requested ∧ t.clock = some began ∧ deadline = some limit ∧
    (began + requested ≤ x.instantMax → limit = began + requested)
  untimed : (Nr.ofInt number).kind.timed = false → deadline = none

/-- At a call: if it is one with a timeout and ends with zero, then the time that
passed since its first reading of the clock is no less than the timeout, unless
there is no instant to wait for. -/
def Lasts (m : Machine) (w : W) (t : Timing) : Prop :=
  ∀ number a start requested s, (t.again = none ∨ t.again = some (number, a)) →
    timeoutAt number a = some start →
    (t.called m.inst.mem).start.timespec start = .ok requested →
    (dispatch number a : Program sig Stop Outcome).run (exec x) (m, w) = (.ok (.value 0), s) →
    ∃ began ended, ((t.called m.inst.mem).clock.toList ++
        readings x (dispatch number a : Program sig Stop Outcome) (m, w)).head? = some began ∧
      (readings x (dispatch number a : Program sig Stop Outcome) (m, w)).getLast? = some ended ∧
      (began + requested ≤ ended ↔ began + requested ≤ x.instantMax)

end

section
variable {W : Type} {x : Env W}

theorem HeldUntil.after {number : ℤ} {a : Args} {t : Timing} {deadline : Option Instant}
    (h : HeldUntil x number a t deadline) (now : List Instant) :
    HeldUntil x number a (t.after now) deadline where
  timeout start hstart := by
    obtain ⟨requested, began, limit, hrequested, hclock, hrest⟩ := h.timeout start hstart
    exact ⟨requested, began, limit, hrequested, by simp [Timing.after, hclock], hrest⟩
  untimed := h.untimed

theorem timed_of_timeoutAt {number : ℤ} {a : Args} {start : ℕ} (h : timeoutAt number a = some start) :
    (Nr.ofInt number).kind.timed = true := by
  unfold timeoutAt at h
  cases hcall : Nr.ofInt number with
  | nanosleep | clockNanosleepTime64 | ppollTime64 | pselect6Time64 => rfl
  | _ =>
    rw [hcall] at h
    cases h

/-- A process that has this call to make, for the first time or again. -/
def Due (x : Env W) (number : ℤ) (a : Args) (deadline : Option Instant) (t : Timing) : Prop :=
  (t.again = none ∧ deadline = none) ∨ (t.again = some (number, a) ∧ HeldUntil x number a t deadline)

/-- What a handler that is due leaves, if it has a timeout. -/
theorem handle_due {number : ℤ} {a : Args} {start : ℕ} {m : Machine} {w : W} {t : Timing}
    (h : Due x number a m.ctx.exec.deadline t) (hstart : timeoutAt number a = some start) :
    (((handle number a).run (exec x) (m, w)).1 = .error .block → HeldUntil x number a
      ((t.called m.inst.mem).after (readings x (handle number a) (m, w)))
      ((handle number a).run (exec x) (m, w)).2.1.ctx.exec.deadline) ∧
    ∀ requested, (t.called m.inst.mem).start.timespec start = .ok requested →
      ((handle number a).run (exec x) (m, w)).1 = .ok 0 →
      ∃ began ended, ((t.called m.inst.mem).clock.toList ++ readings x (handle number a) (m, w)).head? =
      some began ∧
        (readings x (handle number a) (m, w)).getLast? = some ended ∧
        (began + requested ≤ x.instantMax → began + requested ≤ ended) := by
  have huntimed : ¬ (Nr.ofInt number).kind.timed = false := by
    rw [timed_of_timeoutAt hstart]
    exact Bool.noConfusion
  rcases h with ⟨hfirst, hfresh⟩ | ⟨hagain, hheld⟩
  · rw [Timing.called_first hfirst]
    rcases awaits_first (x := x) (w := w) hstart hfresh with
    ⟨e, hrun⟩ | ⟨requested, limit, htime, hawaits, hhead, hlimit⟩
    · have hfails := congrArg Prod.fst hrun
      refine ⟨fun h => ?_, fun requested htime h => ?_⟩
      · cases hfails.symm.trans h
      · cases hfails.symm.trans h
    · constructor
      · refine fun _ => ⟨fun start' hstart' => ?_, fun hκ => absurd hκ huntimed⟩
        obtain rfl := Option.some.inj (hstart.symm.trans hstart')
        exact ⟨requested, _, limit, htime, hhead, hawaits.deadline, hlimit⟩
      · intro requested' htime' hok
        obtain rfl := Except.ok.inj (htime.symm.trans htime')
        obtain ⟨ended, hlast, hle⟩ := hawaits.lasts hok
        refine ⟨_, ended, hhead, hlast, fun hfits => ?_⟩
        rwa [← hlimit hfits]
  · rw [Timing.called_retry hagain]
    obtain ⟨requested, began, limit, htime, hclock, hdeadline, hlimit⟩ := hheld.timeout start hstart
    have hawaits := awaits_again (x := x) (w := w) hstart hdeadline
    constructor
    · refine fun _ => ⟨fun start' hstart' => ?_, fun hκ => absurd hκ huntimed⟩
      obtain rfl := Option.some.inj (hstart.symm.trans hstart')
      exact ⟨requested, began, limit, htime, by simp [Timing.after, hclock], hawaits.deadline, hlimit⟩
    · intro requested' htime' hok
      obtain rfl := Except.ok.inj (htime.symm.trans htime')
      obtain ⟨ended, hlast, hle⟩ := hawaits.lasts hok
      refine ⟨began, ended, by simp [hclock], hlast, fun hfits => ?_⟩
      rwa [← hlimit hfits]

theorem Due.none {number : ℤ} {a : Args} {deadline : Option Instant} {t : Timing}
    (h : Due x number a deadline t) (huntimed : (Nr.ofInt number).kind.timed = false) : deadline = none := by
  rcases h with ⟨-, hfresh⟩ | ⟨-, hheld⟩
  · exact hfresh
  · exact hheld.untimed huntimed

/-- What a call that is due leaves of the entry of its process, and when it ends with zero. -/
theorem run_due {number : ℤ} {a : Args} {m : Machine} {w : W} {t : Timing}
    (h : Due x number a m.ctx.exec.deadline t) :
    ∃ outcome s, (dispatch number a : Program sig Stop Outcome).run (exec x) (m, w) = (.ok outcome, s) ∧
      s.1.ctx.exec.suspension = m.ctx.exec.suspension ∧ s.1.inst.unwinding = m.inst.unwinding ∧
      (outcome = .blocked → HeldUntil x number a ((t.called m.inst.mem).after
        (readings x (dispatch number a : Program sig Stop Outcome) (m, w))) s.1.ctx.exec.deadline) ∧
      (outcome ≠ .blocked → s.1.ctx.exec.deadline = none) ∧
      ∀ start requested, timeoutAt number a = some start →
      (t.called m.inst.mem).start.timespec start = .ok requested →
        outcome = .value 0 → ∃ began ended, ((t.called m.inst.mem).clock.toList ++
            readings x (dispatch number a : Program sig Stop Outcome) (m, w)).head? = some began ∧
          (readings x (dispatch number a : Program sig Stop Outcome) (m, w)).getLast? = some ended ∧
          (began + requested ≤ x.instantMax → began + requested ≤ ended) := by
  rw [readings_dispatch]
  obtain ⟨hsuspension, hunwinding, huntimed⟩ := entry_handle (x := x) number a (m.counted, w)
  have htimeout := fun start (hstart : timeoutAt number a = some start) =>
    handle_due (x := x) (m := m.counted) (w := w) h hstart
  have hpauses := fun (hκ : (Nr.ofInt number).kind.timed = true) f => pauses_timed hκ a W x (m.counted, w) f
  obtain ⟨outcome, s, hconclude, hends⟩ := entry_conclude (ε := Stop) (x := x)
    ((handle number a).run (exec x) (m.counted, w)).1 ((handle number a).run (exec x) (m.counted, w)).2
  refine ⟨outcome, s, (run_dispatch x number a m w).trans hconclude, ?_⟩
  rcases hends with ⟨rfl, hblock, rfl⟩ | ⟨hnot, hentry, hzero⟩ | ⟨hnot, hnonzero, rfl, f, hf, hgone⟩
  · refine ⟨hsuspension, hunwinding, fun _ => ?_, fun hnot =>
      absurd rfl hnot, fun _ _ _ _ hzero => by cases hzero⟩
    cases hstart : timeoutAt number a with
    | some start => exact (htimeout start hstart).1 hblock
    | none =>
      refine ⟨fun start hstart' => ?_, fun hκ => (huntimed hκ).trans (h.none hκ)⟩
      rw [hstart] at hstart'
      cases hstart'
  · injection hentry with h1 h2 h3
    refine ⟨h1.trans hsuspension, h2.trans hunwinding, fun hblocked => absurd hblocked hnot, fun _ => h3, ?_⟩
    intro start requested hstart htime hvalue
    exact (htimeout start hstart).2 requested htime (hzero hvalue (hpauses (timed_of_timeoutAt hstart)))
  · have hκ : (Nr.ofInt number).kind.timed = false := by
      rw [← Bool.not_eq_true]
      exact fun hκ => hgone (hpauses hκ f hf)
    refine ⟨hsuspension, hunwinding, fun hblocked => absurd hblocked hnot, fun _ =>
      (huntimed hκ).trans (h.none hκ), ?_⟩
    exact fun _ _ _ _ hzero => absurd hzero hnonzero

/-! ## Calls and their notes -/

theorem timing_machine {o : Op} (h : o ≠ .act .served) (m : Machine) (a : o.Ans) (t : Timing) :
    timing.machine o m a t = t.after (o.reading a).toList := by
  cases o with
  | env c =>
    cases c with
    | now => rfl
    | _ => exact t.after_nil.symm
  | act b =>
    cases b with
    | served => exact absurd rfl h
    | _ => exact t.after_nil.symm

theorem run_timing {ε α : Type} {p : Program sig ε α} {s : Machine × W}
    (h : p.Along (exec x) (fun o _ => o ≠ .act .served) s) (t : Timing) : p.run (timing.noting x) (s, t) =
      ((p.run (exec x) s).1, ((p.run (exec x) s).2, t.after (readings x p s))) := by
  induction p generalizing s t with
  | ret a =>
    rw [show readings x (.ret a : Program sig ε α) s = [] from rfl, t.after_nil]
    rfl
  | fail e =>
    rw [show readings x (.fail e : Program sig ε α) s = [] from rfl, t.after_nil]
    rfl
  | call o k ih =>
    rw [readings_call, Timing.after_append, ← timing_machine h.1 s.1]
    exact ih _ h.2 _

theorem run_timing_dispatch (number : ℤ) (a : Args) (m : Machine) (w : W) (t : Timing) :
    (dispatch number a : Program sig Stop Outcome).run (timing.noting x) ((m, w), t) =
      (((dispatch number a : Program sig Stop Outcome).run (exec x) (m, w)).1,
        ((dispatch number a : Program sig Stop Outcome).run (exec x) (m, w)).2,
        (t.called m.inst.mem).after (readings x (dispatch number a : Program sig Stop Outcome) (m, w))) :=
  run_timing (along_serves number a (m.counted, w)) (t.called m.inst.mem)

theorem readings_le (hx : ∀ w, (x.now w).1 ≤ x.instantMax) {ε α : Type} (p : Program sig ε α)
    (s : Machine × W) :
    ∀ now ∈ readings x p s, now ≤ x.instantMax := by
  induction p generalizing s with
  | ret a => exact fun _ h => by cases h
  | fail e => exact fun _ h => by cases h
  | call o k ih =>
    intro now hnow
    rw [readings_call] at hnow
    rcases List.mem_append.mp hnow with hread | hrest
    · cases o with
      | act => cases hread
      | env c =>
        cases c with
        | now =>
          have hread : now ∈ [(x.now s.2).1] := hread
          rw [List.mem_singleton.mp hread]
          exact hx s.2
        | _ => cases hread
    · exact ih _ _ now hrest

theorem lasts_of_due (hx : ∀ w, (x.now w).1 ≤ x.instantMax) {m : Machine} {w : W} {t : Timing}
    (h : ∀ number a, t.again = none ∨ t.again = some (number, a) → Due x number a m.ctx.exec.deadline t) :
    Lasts x m w t := by
  intro number a start requested s hcall hstart htime hzero
  obtain ⟨outcome, s', hrun, -, -, -, -, hends⟩ := run_due (w := w) (h number a hcall)
  obtain rfl : Outcome.value 0 = outcome := Except.ok.inj (congrArg Prod.fst (hzero.symm.trans hrun))
  obtain ⟨began, ended, hbegan, hended, hlong⟩ := hends start requested hstart htime rfl
  refine ⟨began, ended, hbegan, hended, fun hle => ?_, hlong⟩
  exact hle.trans (readings_le hx _ _ ended (List.mem_of_getLast? hended))

/-- A process keeps an instant only for the call that it has outstanding. -/
def timedCalls (x : Env W) : Calls Timing where
  again := Timing.again
  idle s _ := s.deadline = none
  held number a s t := HeldUntil x number a t s.deadline

/-- Every call is made when it is due. -/
theorem follows_timing (hx : ∀ w, (x.now w).1 ≤ x.instantMax) :
    (timedCalls x).Follows timing x (Lasts x) where
  fresh := ⟨rfl, fun _ => rfl⟩
  machine o m a t ho := by
    have hserved : o ≠ .act .served := by
      rintro rfl
      cases ho
    rw [timing_machine hserved]
    exact ⟨rfl, fun _ h => h, fun _ _ _ h => h.after _⟩
  command c r t := ⟨rfl, fun _ h => h, fun _ _ _ h => h⟩
  stepped a p t := by
    refine ⟨fun _ h => h, fun number args s h => ?_⟩
    cases a with
    | attach i => exact ⟨h.timeout, h.untimed⟩
    | _ => exact h
  attach i p t := rfl
  others a p t ha := by
    cases a with
    | attach i => exact absurd rfl (ha i)
    | _ => rfl
  action _ _ _ _ h := h
  attempt m w t h := lasts_of_due hx h
  due number a m w t h outcome s hrun := by
    obtain ⟨outcome', s', hrun', -, -, hblocked, hdone, -⟩ := run_due (w := w) h
    have hnotes := run_timing_dispatch (x := x) number a m w t
    rw [hrun, hrun'] at hnotes
    obtain ⟨hok, hs⟩ := Prod.mk.inj hnotes
    obtain rfl := Except.ok.inj hok
    rw [hs]
    exact ⟨t.called_again _, hblocked, hdone⟩

theorem weaves_timing (hx : ∀ w, (x.now w).1 ≤ x.instantMax) : Weaves x timing.history
    (Places.Sees (fun _ _ _ => True) (Calls.Serves (Lasts x))) (Chronicle.Each (timedCalls x).places.rests) :=
  (follows_timing hx).connects.weaves

/-- Over a whole session, with any number of processes, calls, signals and
retries: a sleep, and a poll or a select with a timeout, that ends with zero has
lasted as long as it was told to, by the clock from its first reading to its
last, if and only if that first reading and the time asked for add up to an
instant. -/
theorem sleep_lasts_iff {C : KOp → Kernel × W → Prop} (hx : ∀ w, (x.now w).1 ≤ x.instantMax) {index : ℕ}
    {k : Kernel} {w : W} {notes : List Timing} {p : Proc} {t : Timing} {number : ℤ} {a : Args} {start : ℕ}
    {requested : Duration} {s : Machine × W}
    (h : Performed x timing.history C (.machine index (.act .served)) k w notes)
    (hp : k.procs[index]? = some p) (ht : notes[index]? = some t)
    (hcall : t.again = none ∨ t.again = some (number, a)) (hstart : timeoutAt number a = some start)
    (htime : (t.called p.inst.mem).start.timespec start = .ok requested)
    (hzero : (dispatch number a : Program sig Stop Outcome).run (exec x) (k.machineOf p, w) =
      (.ok (.value 0), s)) :
    ∃ began ended, ((t.called p.inst.mem).clock.toList ++
        readings x (dispatch number a : Program sig Stop Outcome) (k.machineOf p, w)).head? = some began ∧
      (readings x (dispatch number a : Program sig Stop Outcome) (k.machineOf p, w)).getLast? = some ended ∧
      (began + requested ≤ ended ↔ began + requested ≤ x.instantMax) :=
  (weaves_timing hx).performed h p t hp ht rfl number a start requested s hcall hstart htime hzero

end

/-- A guest that sleeps for so many seconds, given as two words. -/
def Env.sleeper (low high : ℤ) : Env Instant :=
  { Env.still Instant with
    now := fun w => (min w (2^63 * 10^9 - 1), w + 500000000)
    instantMax := 2^63 * 10^9 - 1
    instantiate := fun _ w => (some ⟨.startingWith (argWords [24, 0, 0, 0, 0, 0, low, high, 0]), 0, false⟩, w)
    guest := fun _ w => (⟨[.syscall 101 0], none⟩, w) }

theorem sleeper_inRange (low high : ℤ) (w : Instant) :
    ((Env.sleeper low high).now w).1 ≤ (Env.sleeper low high).instantMax :=
  min_le_right _ _

/-- A sleep of a second that has to be made again ends half a second after its time. -/
theorem sleep_lasts_iff_again :
    ∃ (k : Kernel) (w : Instant) (notes : List Timing) (p : Proc) (t : Timing) (s : Machine × Instant),
    Performed (Env.sleeper 1 0) timing.history (fun _ _ => True) (.machine 0 (.act .served)) k w notes ∧
    k.procs[0]? = some p ∧ notes[0]? = some t ∧ t.again = some (101, ⟨24, 0, 0, 0, 0, 0⟩) ∧
    (dispatch 101 ⟨24, 0, 0, 0, 0, 0⟩ : Program sig Stop Outcome).run (exec (Env.sleeper 1 0))
      (k.machineOf p, w) =
      (.ok (.value 0), s) ∧
    ∃ began ended, ((t.called p.inst.mem).clock.toList ++ readings (Env.sleeper 1 0)
        (dispatch 101 ⟨24, 0, 0, 0, 0, 0⟩ : Program sig Stop Outcome) (k.machineOf p, w)).head? = some began ∧
      (readings (Env.sleeper 1 0) (dispatch 101 ⟨24, 0, 0, 0, 0, 0⟩ : Program sig Stop Outcome)
        (k.machineOf p, w)).getLast? = some ended ∧
      (began + 10^9 ≤ ended ↔ began + 10^9 ≤ (Env.sleeper 1 0).instantMax) := by
  have hsleep : timeoutAt 101 ⟨24, 0, 0, 0, 0, 0⟩ = some 24 := by decide
  have hstart : Recorded (Env.sleeper 1 0) timing.history (fun _ _ => True) ⟨_, none⟩ _ [timing.fresh] :=
    .start (.bare [.guest 0]) 0 _ _ 0 _ _ rfl (Program.along_of_forall _ (fun _ _ => trivial) _ _) rfl
  have hagain := Performed.running _ _ _ 3 ⟨none, none⟩ _ hstart
    (Program.along_of_forall _ (fun _ _ => trivial) _ _) (List.mem_of_getElem? (i := 35) rfl)
  refine ⟨_, _, _, _, _, _, hagain, rfl, rfl, ?_, Prod.ext ?_ rfl,
    sleep_lasts_iff (sleeper_inRange 1 0) hagain rfl rfl (.inr ?_) hsleep ?_ (Prod.ext ?_ rfl)⟩
  · decide +kernel
  · decide +kernel
  · decide +kernel
  · decide +kernel
  · decide +kernel

/-- A sleep of as many seconds as there can be comes back at once. -/
theorem endless_sleep_returns :
    ∃ (k : Kernel) (w : Instant) (notes : List Timing) (p : Proc) (t : Timing) (s : Machine × Instant),
    Performed (Env.sleeper (-1) (2^31 - 1)) timing.history
      (fun _ _ => True) (.machine 0 (.act .served)) k w notes ∧
    k.procs[0]? = some p ∧ notes[0]? = some t ∧ t.again = none ∧ timeoutAt 101 ⟨24, 0, 0, 0, 0, 0⟩ = some 24 ∧
    (k.machineOf p).inst.mem.timespec 24 = .ok ((2^63 - 1) * 10^9) ∧
    (dispatch 101 ⟨24, 0, 0, 0, 0, 0⟩ : Program sig Stop Outcome).run (exec (Env.sleeper (-1) (2^31 - 1)))
      (k.machineOf p, w) =
      (.ok (.value 0), s) ∧
    readings (Env.sleeper (-1) (2^31 - 1))
    (dispatch 101 ⟨24, 0, 0, 0, 0, 0⟩ : Program sig Stop Outcome) (k.machineOf p, w) =
      [2000000000, 2500000000, 3000000000] ∧
    ¬ 2000000000 + (2^63 - 1) * 10^9 ≤ 3000000000 := by
  have hstart : Recorded (Env.sleeper (-1) (2^31 - 1)) timing.history
      (fun _ _ => True) ⟨_, none⟩ 2000000000 [timing.fresh] :=
    .start (.bare [.guest 0]) 0 _ _ 2000000000 _ _ rfl (Program.along_of_forall _
      (fun _ _ => trivial) _ _) rfl
  have hfirst := Performed.running _ _ _ 3 ⟨none, none⟩ _ hstart
    (Program.along_of_forall _ (fun _ _ => trivial) _ _) (List.mem_of_getElem? (i := 12) rfl)
  refine ⟨_, _, _, _, _, _, hfirst, rfl, rfl, ?_, ?_, ?_, Prod.ext ?_ rfl, ?_, by decide⟩
  · decide +kernel
  · decide +kernel
  · decide +kernel
  · decide +kernel
  · decide +kernel

end Wasmux
