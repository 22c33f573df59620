import Wasmux.Charges

/-!
# Calls with a timeout

A call that waits for no longer than it was told reads the clock when it is
first made, and keeps for its retries the instant that its time is up. It ends
with zero once a later reading is past that instant.
-/

set_option autoImplicit false

namespace Wasmux
open Effects Abi

/-- Where the timeout of a call is, if it has one that counts from when it is made. -/
def timeoutAt (number : ℤ) (a : Args) : Option ℕ :=
  match Nr.ofInt number with
  | .nanosleep => some (asU32 a.a0)
  | .clockNanosleepTime64 => if asU32 a.a1 &&& timerAbstime ≠ 0 then none else some (asU32 a.a2)
  | .ppollTime64 => if asU32 a.a2 = 0 then none else some (asU32 a.a2)
  | .pselect6Time64 => if asU32 a.a4 = 0 then none else some (asU32 a.a4)
  | _ => none

/-- What an operation of a call reads off the clock. -/
def Op.reading : (o : Op) → o.Ans → Option Instant
  | .env .now, t => some t
  | _, _ => none

section
variable {ε α β W : Type} {x : Env W}

def readings (x : Env W) (p : Program sig ε α) (s : Machine × W) : List Instant :=
  (p.trace (exec x) s).filterMap fun v => v.op.reading v.ans

theorem readings_call (o : sig.Op) (k : sig.Ans o → Program sig ε α) (s : Machine × W) :
    readings x (.call o k) s = (o.reading (exec x o s).1).toList ++ readings x (k (exec x o s).1)
      (exec x o s).2 := by
  have htrace : (Program.call o k).trace (exec x) s =
      ⟨s, o, (exec x o s).1⟩ :: (k (exec x o s).1).trace (exec x) (exec x o s).2 := rfl
  unfold readings
  rw [htrace, List.filterMap_cons]
  cases o.reading (exec x o s).1 <;> rfl

theorem readings_bind {p : Program sig ε α} {s t : Machine × W} {a : α} (h : p.run (exec x) s = (.ok a, t))
    (f : α → Program sig ε β) : readings x (p >>= f) s = readings x p s ++ readings x (f a) t := by
  unfold readings
  rw [Program.trace_bind, h, List.filterMap_append]

theorem readings_catching {δ : Type} (p : Program sig ε α) (s : Machine × W) :
    readings x (p.catching : Program sig δ _) s = readings x p s := by
  unfold readings
  rw [Program.trace_catching]

/-! ## What the operations of a call leave alone -/

def Act.gates : Act → Bool
  | .served | .settle | .setSignalFlag _ | .saveSp | .stopRewind | .unwind _ | .compute _ _ => true
  | _ => false

def Op.gates : Op → Bool
  | .act a => a.gates
  | .env _ => false

/-- What becomes of the entry of a guest that makes a call, and when the call's time is up. -/
structure Entry where
  suspension : Option Suspension
  unwinding : Bool
  deadline : Option Instant

def Machine.entry (m : Machine) : Entry := ⟨m.ctx.exec.suspension, m.inst.unwinding, m.ctx.exec.deadline⟩

theorem Act.entry_exec (a : Act) (m : Machine) (hgates : a.gates = false)
    (hset : ∀ limit, a ≠ .setDeadline limit) :
    (a.exec m).2.entry = m.entry := by
  by_cases hshuffles : a.shuffles = true
  · obtain ⟨fds, descs, pipes, heq⟩ := a.shuffles_exec m hshuffles
    rw [heq]
    rfl
  cases a with
  | openDesc | dup | dupTo | close | pipe2 => exact absurd rfl hshuffles
  | served | settle | setSignalFlag | saveSp | stopRewind | unwind | compute => cases hgates
  | setDeadline limit => exact absurd rfl (hset limit)
  | put start data =>
    simp only [exec]
    split <;> rfl
  | setCloexec fd on =>
    simp only [exec]
    split <;> rfl
  | fork =>
    simp only [exec, Machine.fork]
    split <;> rfl
  | vforkExit status =>
    simp only [exec, Machine.vforkExit]
    split <;> rfl
  | finishExec program exe argv envp =>
    simp only [exec, Machine.finishExec]
    split <;> rfl
  | _ => rfl

theorem Nr.gates_rare (n : Nr) {a : Act} (h : n.kind.rare a = true) : a.gates = false := by
  have hrare : n.kind.rare = Kind.plain.rare ∨ n.kind.rare = Act.accounts ∨ n.kind.rare = Act.reaps := by
    unfold Nr.kind
    split <;> simp
  rcases hrare with hrare | hrare | hrare
  · rw [hrare] at h
    cases h
  · rw [hrare] at h
    cases a <;> first | rfl | cases h
  · rw [hrare] at h
    cases a <;> first | rfl | cases h

/-- A call makes no rare operation but those of its kind, and sets up no wait
for an instant unless its kind may. -/
theorem Calm.along {κ : Kind} {p : Handler α} (hp : Calm κ p) (s : Machine × W) :
    p.Along (exec x) (fun o _ =>
      (∀ a ∈ o.rare, κ.rare a = true) ∧ (κ.timed = false → o.times = false)) s := by
  have hmeets := Program.meets_unmarked (x := exec x) (C := fun _ _ => True)
    (A := fun o _ => (∀ a ∈ o.rare, κ.rare a = true) ∧ (κ.timed = false → o.times = false))
    (M := footprint) (G := fun t => (∀ a ∈ t.rare, κ.rare a = true) ∧ (κ.timed = false → t.timed = false))
    (R := fun _ _ => True) (fun _ _ => trivial) ?_ ?_ (hp Mark.clear rfl rfl) ?_ (s := s) trivial
  · exact (hmeets.run (Program.along_of_forall _ (fun _ _ => trivial) _ _)).1
  · intro t o a hgood
    refine ⟨fun b hb => hgood.1 b (List.mem_append_right _ hb), fun hκ => ?_⟩
    have htimed := hgood.2 hκ
    simp only [footprint, Bool.or_eq_false_iff] at htimed
    exact htimed.1
  · intro t o s _ hgood
    refine ⟨⟨fun a ha => hgood.1 a (List.mem_append_left _ ha), fun hκ => ?_⟩, trivial⟩
    have htimed := hgood.2 hκ
    simp only [footprint, Bool.or_eq_false_iff] at htimed
    exact htimed.2
  · intro u r hended
    refine ⟨fun a ha => ?_, fun hκ => ?_⟩
    · rcases hended.rare a ha with h | h
      · simp [Mark.clear] at h
      · exact h
    · rw [hended.timed hκ]
      rfl

theorem along_gates (number : ℤ) (a : Args) (s : Machine × W) :
    (handle number a).Along (exec x) (fun o _ =>
      o.gates = false ∧ ((Nr.ofInt number).kind.timed = false → o.times = false)) s := by
  refine ((calm_handle number a).along s).mono _ fun o t ho => ⟨?_, ho.2⟩
  cases o with
  | env c => rfl
  | act b =>
    by_cases hrare : b.rare = true
    · exact Nr.gates_rare _ (ho.1 b (by simp [Op.rare, hrare]))
    · cases b <;> first | rfl | exact absurd rfl hrare

theorem entry_handle (number : ℤ) (a : Args) (s : Machine × W) :
    ((handle number a).run (exec x) s).2.1.ctx.exec.suspension = s.1.ctx.exec.suspension ∧
    ((handle number a).run (exec x) s).2.1.inst.unwinding = s.1.inst.unwinding ∧
    ((Nr.ofInt number).kind.timed = false →
      ((handle number a).run (exec x) s).2.1.ctx.exec.deadline = s.1.ctx.exec.deadline) := by
  refine Program.final_keeps_along (exec x) (P := fun t : Machine × W =>
    t.1.ctx.exec.suspension = s.1.ctx.exec.suspension ∧
    t.1.inst.unwinding = s.1.inst.unwinding ∧
    ((Nr.ofInt number).kind.timed = false → t.1.ctx.exec.deadline = s.1.ctx.exec.deadline))
    ?_ ⟨rfl, rfl, fun _ => rfl⟩ (along_gates number a s)
  rintro o t ⟨hsuspension, hunwinding, hdeadline⟩ ⟨hgates, htimes⟩
  cases o with
  | env c => exact ⟨hsuspension, hunwinding, hdeadline⟩
  | act b =>
    by_cases hset : ∀ limit, b ≠ .setDeadline limit
    · have hentry := b.entry_exec t.1 hgates hset
      injection hentry with h1 h2 h3
      exact ⟨h1.trans hsuspension, h2.trans hunwinding, fun hκ => h3.trans (hdeadline hκ)⟩
    · simp only [not_forall, not_not] at hset
      obtain ⟨limit, rfl⟩ := hset
      refine ⟨hsuspension, hunwinding, fun hκ => ?_⟩
      cases htimes hκ

end

/-! ## Waiting for an instant -/

def Op.lingers : Op → Prop
  | .act .view | .act (.put _ _) | .act .wantStdin | .act (.setWake _) => True
  | .env .now => True
  | _ => False

def Op.reports : Op → Prop
  | .act (.put _ _) => True
  | _ => False

def Fault.pauses : Fault → Prop
  | .errno e => e = .fault ∨ e = .inval
  | .block => True
  | _ => False

/-- A failure is that the call has to be made again, or that an argument is no good. -/
def Pauses {α : Type} (p : Handler α) : Prop :=
  ∀ (W : Type) (x : Env W) s f, (p.run (exec x) s).1 = .error f → f.pauses

/-- A call that waits for an instant: it ends with zero only past that. -/
structure Expires (limit : Instant) (p : Handler ℤ) : Prop where
  lingers : p.Only Op.lingers
  pauses : Pauses p
  lasts : ∀ (W : Type) (x : Env W) s t, p.run (exec x) s = (.ok 0, t) →
    ∃ ended, (readings x p s).getLast? = some ended ∧ limit ≤ ended

section
variable {α W : Type} {x : Env W} {limit : Instant}

theorem Op.reports.lingers {o : Op} (h : o.reports) : o.lingers := by
  cases o with
  | env => cases h
  | act a =>
    cases a with
    | put => trivial
    | _ => cases h

theorem readings_acts {ε : Type} {p : Program sig ε α} (hp : p.Only fun o : Op => ∃ a, o = .act a)
    (s : Machine × W) :
    readings x p s = [] := by
  induction p generalizing s with
  | ret a => rfl
  | fail e => rfl
  | call o k ih =>
    obtain ⟨a, rfl⟩ := hp.1
    have hrest := ih _ (hp.2 (exec x (.act a) s).1) (exec x (.act a) s).2
    unfold readings at hrest ⊢
    rw [Program.trace, List.filterMap_cons]
    exact hrest

theorem Op.reports.act {o : Op} (h : o.reports) : ∃ a, o = .act a := by
  cases o with
  | env => cases h
  | act a => exact ⟨a, rfl⟩

theorem run_lingers {p : Handler α} (hp : p.Only Op.lingers) (s : Machine × W) :
    (p.run (exec x) s).2.1.ctx.exec.deadline = s.1.ctx.exec.deadline := by
  refine hp.final_keeps (exec x) (P := fun t => t.1.ctx.exec.deadline = s.1.ctx.exec.deadline) ?_ rfl
  intro o t ho ht
  cases o with
  | env => exact ht
  | act a =>
    cases a with
    | view | wantStdin | setWake => exact ht
    | put start data =>
      have hentry := congrArg Entry.deadline
        ((Act.put start data).entry_exec t.1 rfl fun _ => Act.noConfusion)
      exact hentry.trans ht
    | _ => cases ho

theorem pauses_ret (a : α) : Pauses (.ret a) := fun _ _ _ _ h => by cases h

theorem pauses_act (a : Act) : Pauses (act a) := fun _ _ _ _ h => by cases h

theorem pauses_env (c : EnvCall) : Pauses (env c) := fun _ _ _ _ h => by cases h

theorem pauses_block : Pauses (.fail .block : Handler α) := by
  intro W x s f h
  obtain rfl := Except.error.inj h
  trivial

theorem Pauses.bind {β : Type} {p : Handler α} {f : α → Handler β} (hp : Pauses p) (hf : ∀ a, Pauses (f a)) :
    Pauses (p >>= f) := by
  intro W x s e h
  rcases Program.run_bind_eq_error (x := exec x) (Prod.ext h rfl) with hfirst | ⟨a, t, -, hrest⟩
  · exact hp W x s e (congrArg Prod.fst hfirst)
  · exact hf a W x t e (congrArg Prod.fst hrest)

theorem pauses_lift {r : Except Errno α} (h : ∀ e, r = .error e → e = .fault ∨ e = .inval) :
    Pauses (lift r) := by
  intro W x s f hf
  cases r with
  | ok a => cases hf
  | error e =>
    obtain rfl := Except.error.inj hf
    exact h e rfl

theorem lingers_lift (r : Except Errno α) : (lift r).Only Op.lingers := by
  cases r <;> trivial

theorem put_error {m : Mem} {start : ℕ} {data : Bytes} {e : Errno} (h : m.put start data = .error e) :
    e = .fault := by
  unfold Mem.put at h
  split at h
  · cases h
  · exact (Except.error.inj h).symm

theorem reports_put (start : ℕ) (data : Bytes) :
    (put start data).Only Op.reports ∧ Pauses (put start data) := by
  constructor
  · refine Program.only_bind (p := act (.put start data)) ⟨trivial, fun _ => trivial⟩ fun r => ?_
    cases r <;> trivial
  · intro W x s f h
    rcases hput : s.1.inst.mem.put start data with e | mem
    · have hact : (act (.put start data) : Handler _).run (exec x) s = (.ok (.error e), s) := by
        change (Except.ok ((Act.put start data).exec s.1).1, ((Act.put start data).exec s.1).2, s.2) = _
        simp only [Act.exec, hput]
      unfold put at h
      rw [Program.run_bind_ok (exec x) hact] at h
      obtain rfl := Except.error.inj h
      exact .inl (put_error hput)
    · have hact : (act (.put start data) : Handler _).run (exec x) s =
          (.ok (.ok ()), (s.1.setMem mem, s.2)) := by
        change (Except.ok ((Act.put start data).exec s.1).1, ((Act.put start data).exec s.1).2, s.2) = _
        simp only [Act.exec, hput]
      unfold put at h
      rw [Program.run_bind_ok (exec x) hact] at h
      cases h

theorem Expires.bind {p : Handler α} {f : α → Handler ℤ} (hp : p.Only Op.lingers) (hpauses : Pauses p)
    (hf : ∀ a, Expires limit (f a)) : Expires limit (p >>= f) where
  lingers := Program.only_bind hp fun a => (hf a).lingers
  pauses := Pauses.bind hpauses fun a => (hf a).pauses
  lasts W x s t h := by
    obtain ⟨a, u, hfirst, hrest⟩ := Program.run_bind_eq_ok (exec x) h
    obtain ⟨ended, hlast, hle⟩ := (hf a).lasts W x u t hrest
    refine ⟨ended, ?_, hle⟩
    rw [readings_bind hfirst, List.getLast?_append, hlast]
    rfl

theorem expires_reports {p : Handler ℤ} (hp : p.Only Op.reports) (hpauses : Pauses p)
    (hvalue : ∀ (W : Type) (x : Env W) s t, p.run (exec x) s ≠ (.ok 0, t)) : Expires limit p where
  lingers := hp.mono fun _ => Op.reports.lingers
  pauses := hpauses
  lasts W x s t h := absurd h (hvalue W x s t)

theorem expires_waitOn {done : Handler ℤ} (hdone : done.Only Op.reports) (hpauses : Pauses done) :
    Expires limit (waitOn limit done) where
  lingers := by
    refine Program.only_bind (p := env .now) ⟨trivial, fun _ => trivial⟩ fun now => ?_
    split
    · exact ⟨trivial, fun _ => trivial⟩
    · exact hdone.mono fun _ => Op.reports.lingers
  pauses := by
    refine Pauses.bind (pauses_env .now) fun now => ?_
    split
    · exact Pauses.bind (pauses_act (.setWake limit)) fun _ => pauses_block
    · exact hpauses
  lasts W x s t h := by
    have hnow : (env .now : Handler Instant).run (exec x) s = (.ok (x.now s.2).1, (s.1, (x.now s.2).2)) := rfl
    unfold waitOn at h ⊢
    rw [Program.run_bind_ok _ hnow] at h
    refine ⟨(x.now s.2).1, ?_, ?_⟩
    · rw [readings_bind hnow]
      split
      · rfl
      · rw [readings_acts (hdone.mono fun _ => Op.reports.act)]
        rfl
    · by_contra hearly
      rw [if_pos (not_le.mp hearly)] at h
      cases h

/-! ## The instant a call waits for -/

theorem run_deadline_again (after : Duration) {m : Machine} (w : W) (h : m.ctx.exec.deadline = some limit) :
    (deadline after).run (exec x) (m, w) = (.ok limit, (m, w)) := by
  have hask : (act .deadline : Handler (Option Instant)).run (exec x) (m, w) =
      (.ok (some limit), (m, w)) := by
    rw [← h]
    rfl
  unfold deadline
  rw [Program.run_bind_ok _ hask]
  rfl

/-- A first attempt waits for as long as it is to, if there is such an instant. -/
theorem run_deadline_first (after : Duration) {m : Machine} (w : W) (h : m.ctx.exec.deadline = none) :
    ∃ limit w' rest, (deadline after).run (exec x) (m, w) =
        (.ok limit, (m.setExec { m.ctx.exec with deadline := some limit }, w')) ∧
      readings x (deadline after) (m, w) = (x.now w).1 :: rest ∧
      ((x.now w).1 + after ≤ x.instantMax → limit = (x.now w).1 + after) := by
  have hask : (act .deadline : Handler (Option Instant)).run (exec x) (m, w) = (.ok none, (m, w)) := by
    rw [← h]
    rfl
  have hnow : ∀ v, (env .now : Handler Instant).run (exec x) (m, v) = (.ok (x.now v).1, (m, (x.now v).2)) :=
    fun _ => rfl
  have hmax : ∀ v, (env .instantMax : Handler Instant).run (exec x) (m, v) = (.ok x.instantMax, (m, v)) :=
    fun _ => rfl
  unfold deadline
  rw [Program.run_bind_ok _ hask, readings_bind hask]
  dsimp only
  rw [Program.run_bind_ok _ (hnow w), readings_bind (hnow w), Program.run_bind_ok _ (hmax _),
    readings_bind (hmax _)]
  by_cases hfits : (x.now w).1 + after ≤ x.instantMax
  · rw [if_pos hfits]
    exact ⟨_, _, [], rfl, rfl, fun _ => rfl⟩
  · rw [if_neg hfits]
    exact ⟨_, _, [(x.now (x.now w).2).1], rfl, rfl, fun hfits' => absurd hfits' hfits⟩

end

/-! ## The calls -/

theorem Mem.u32_error {m : Mem} {start : ℕ} {e : Errno} (h : m.u32 start = .error e) : e = .fault := by
  unfold u32 bytes at h
  split at h
  · simp [Except.map] at h
  · simpa [Except.map, eq_comm] using h

theorem except_bind_error {ε α β : Type} {r : Except ε α} {f : α → Except ε β} {e : ε}
    (h : (r >>= f) = .error e) :
    r = .error e ∨ ∃ a, r = .ok a ∧ f a = .error e := by
  cases r with
  | error e' =>
    obtain rfl : e' = e := Except.error.inj h
    exact .inl rfl
  | ok a => exact .inr ⟨a, rfl, h⟩

theorem Mem.timespec_error {m : Mem} {start : ℕ} {e : Errno} (h : m.timespec start = .error e) :
    e = .fault ∨ e = .inval := by
  unfold timespec at h
  rcases except_bind_error h with hsecs | ⟨secs, -, h⟩
  · exact .inl (u64_error hsecs)
  dsimp only at h
  split at h
  · exact .inl (Except.error.inj h).symm
  rcases except_bind_error h with hnanos | ⟨nanos, -, h⟩
  · exact .inl (u32_error hnanos)
  split at h
  · exact .inr (Except.error.inj h).symm
  · cases h

namespace Sys
variable {limit : Instant}

theorem pollEntry_error {m : Mem} {fdsAt index : ℕ} {e : Errno} (h : pollEntry m fdsAt index = .error e) :
    e = .fault := by
  unfold pollEntry at h
  rcases except_bind_error h with hfd | ⟨fd, -, h⟩
  · unfold Mem.i32At at hfd
    cases hword : m.u32 (wrapAdd fdsAt (index * 8 % 2^32)) with
    | error e' =>
      rw [hword] at hfd
      obtain rfl := Except.error.inj hfd
      exact Mem.u32_error hword
    | ok word =>
      rw [hword] at hfd
      cases hfd
  rcases except_bind_error h with hevents | ⟨events, -, h⟩
  · exact Mem.u32_error hevents
  · cases h

theorem pollEntries_error {m : Mem} {fdsAt : ℕ} {indices : List ℕ} {e : Errno}
    (h : pollEntries m fdsAt indices = .error e) :
    e = .fault := by
  induction indices with
  | nil => cases h
  | cons index rest ih =>
    rcases except_bind_error h with hentry | ⟨entry, -, h⟩
    · exact pollEntry_error hentry
    rcases except_bind_error h with hrest | ⟨more, -, h⟩
    · exact ih hrest
    · cases h

theorem readFdSet_error {m : Mem} {start : ℕ} {fds : List ℕ} {e : Errno}
    (h : readFdSet m start fds = .error e) :
    e = .fault := by
  induction fds with
  | nil => cases h
  | cons fd rest ih =>
    unfold readFdSet at h
    split at h
    · rcases except_bind_error h with hrest | ⟨more, -, h⟩
      · exact ih hrest
      · cases h
    · rcases except_bind_error h with hword | ⟨word, -, h⟩
      · exact Mem.u32_error hword
      rcases except_bind_error h with hrest | ⟨more, -, h⟩
      · exact ih hrest
      · cases h

theorem expires_sleepUntil (limit : Instant) : Expires limit (sleepUntil limit) :=
    expires_waitOn trivial (pauses_ret 0)

theorem reports_pollAnswer (results : List (ℕ × ℕ)) :
    (pollAnswer results).Only Op.reports ∧ Pauses (pollAnswer results) := by
  induction results with
  | nil => exact ⟨trivial, pauses_ret _⟩
  | cons result rest ih =>
    obtain ⟨start, revents⟩ := result
    obtain ⟨hreports, hpauses⟩ := reports_put start (toLe 2 revents)
    exact ⟨Program.only_bind hreports fun _ => ih.1, Pauses.bind hpauses fun _ => ih.2⟩

theorem reports_writeFdSet (start : ℕ) (values : List Bool) :
    (writeFdSet start values).Only Op.reports ∧ Pauses (writeFdSet start values) := by
  have hwords : ∀ indices, (writeFdWords start values indices).Only Op.reports ∧
      Pauses (writeFdWords start values indices) := by
    intro indices
    induction indices with
    | nil => exact ⟨trivial, pauses_ret _⟩
    | cons index rest ih =>
      obtain ⟨hreports, hpauses⟩ :=
        reports_put (wrapAdd start (index * 4)) (toLe 4 (fdWord ((values.drop (index * 32)).take 32)))
      exact ⟨Program.only_bind hreports fun _ => ih.1, Pauses.bind hpauses fun _ => ih.2⟩
  unfold writeFdSet
  split
  · exact ⟨trivial, pauses_ret _⟩
  · exact hwords _

theorem expires_unless {answer : Handler ℤ} (hreports : answer.Only Op.reports) (hpauses : Pauses answer)
    {ready : ℕ} (hvalue : ∀ (W : Type) (x : Env W) s t v, answer.run (exec x) s = (.ok v, t) → v = ready) :
    Expires limit (if ready = 0 then waitOn limit answer else answer) := by
  split
  · exact expires_waitOn hreports hpauses
  · rename_i hready
    refine expires_reports hreports hpauses fun W x s t h => hready ?_
    exact_mod_cast (hvalue W x s t 0 h).symm

theorem waitUntil_timed {start : ℕ} (h : start ≠ 0) (rest : Option Instant → Handler ℤ) :
    waitUntil start >>= rest =
    view >>= fun v => lift (v.mem.timespec start) >>= fun requested => deadline requested >>= fun limit =>
    rest (some limit) := by
  unfold waitUntil
  rw [if_neg h, Program.bind_assoc]
  refine congrArg (view >>= ·) (funext fun v => ?_)
  rw [Program.bind_assoc]
  refine congrArg (lift (v.mem.timespec start) >>= ·) (funext fun requested => ?_)
  rw [Program.bind_assoc]
  rfl

theorem ppoll_timed (a : Args) :
    ∃ rest : Option Instant → Handler ℤ, (∀ limit, Expires limit (rest (some limit))) ∧
    Pauses (rest none) ∧ ppoll a = waitUntil (asU32 a.a2) >>= rest := by
  refine ⟨_, fun limit => ?_, ?_, rfl⟩
  · refine Expires.bind (p := view) ⟨trivial, fun _ => trivial⟩ (pauses_act .view) fun v => ?_
    refine Expires.bind (lingers_lift _) (pauses_lift fun _ h => .inl (pollEntries_error h)) fun entries => ?_
    obtain ⟨hreports, hpauses⟩ :=
      reports_pollAnswer (entries.map fun p => (wrapAdd p.start 6, pollRevents v p))
    refine expires_unless ?_ ?_ ?_
    · exact Program.only_bind hreports fun _ => trivial
    · exact Pauses.bind hpauses fun _ => pauses_ret _
    · intro W x s t value h
      obtain ⟨_, _, -, hlast⟩ := Program.run_bind_eq_ok (exec x) h
      exact (Except.ok.inj (Prod.mk.inj hlast).1).symm
  · refine Pauses.bind (pauses_act .view) fun v => ?_
    refine Pauses.bind (pauses_lift fun _ h => .inl (pollEntries_error h)) fun entries => ?_
    dsimp only
    split
    · split
      · exact Pauses.bind (pauses_act .wantStdin) fun _ => pauses_block
      · exact pauses_block
    · exact Pauses.bind (reports_pollAnswer _).2 fun _ => pauses_ret _

theorem pselect_timed (a : Args) :
    ∃ rest : Option Instant → Handler ℤ, (∀ limit, Expires limit (rest (some limit))) ∧
    Pauses (rest none) ∧ pselect a = waitUntil (asU32 a.a4) >>= rest := by
  refine ⟨_, fun limit => ?_, ?_, rfl⟩
  · refine Expires.bind (p := view) ⟨trivial, fun _ => trivial⟩ (pauses_act .view) fun v => ?_
    refine Expires.bind (lingers_lift _) (pauses_lift fun _ h => .inl (readFdSet_error h)) fun readSet => ?_
    refine Expires.bind (lingers_lift _) (pauses_lift fun _ h => .inl (readFdSet_error h)) fun writeSet => ?_
    refine Expires.bind (lingers_lift _) (pauses_lift fun _ h => .inl (readFdSet_error h)) fun exceptSet => ?_
    have hsets := fun start values => reports_writeFdSet start values
    refine expires_unless ?_ ?_ ?_
    · exact Program.only_bind (hsets _ _).1 fun _ => Program.only_bind (hsets _ _).1 fun _ =>
        Program.only_bind (hsets _ _).1 fun _ => trivial
    · exact Pauses.bind (hsets _ _).2 fun _ => Pauses.bind (hsets _ _).2 fun _ =>
        Pauses.bind (hsets _ _).2 fun _ => pauses_ret _
    · intro W x s t value h
      obtain ⟨_, _, -, h⟩ := Program.run_bind_eq_ok (exec x) h
      obtain ⟨_, _, -, h⟩ := Program.run_bind_eq_ok (exec x) h
      obtain ⟨_, _, -, h⟩ := Program.run_bind_eq_ok (exec x) h
      exact (Except.ok.inj (Prod.mk.inj h).1).symm
  · refine Pauses.bind (pauses_act .view) fun v => ?_
    have hset := fun (m : Mem) start (fds : List ℕ) =>
    pauses_lift fun (e : Errno) (h : readFdSet m start fds = .error e) =>
      .inl (readFdSet_error h)
    refine Pauses.bind (hset _ _ _) fun readSet => Pauses.bind (hset _ _ _) fun writeSet => ?_
    refine Pauses.bind (hset _ _ _) fun exceptSet => ?_
    have hsets := fun start values => (reports_writeFdSet start values).2
    dsimp only
    split
    · exact pauses_block
    · exact Pauses.bind (hsets _ _) fun _ => Pauses.bind (hsets _ _) fun _ =>
        Pauses.bind (hsets _ _) fun _ => pauses_ret _

end Sys

/-- A call with a timeout reads it, turns it into an instant and waits for that. -/
theorem handle_timed {number : ℤ} {a : Args} {start : ℕ} (h : timeoutAt number a = some start) :
    ∃ rest : Instant → Handler ℤ, (∀ limit, Expires limit (rest limit)) ∧ handle number a =
      view >>= fun v => lift (v.mem.timespec start) >>= fun requested => deadline requested >>= rest := by
  have hview : (view : Handler View).Only Op.lingers := ⟨trivial, fun _ => trivial⟩
  unfold timeoutAt at h
  unfold handle
  split at h
  · rename_i hcall
    obtain rfl := Option.some.inj h
    rw [hcall]
    exact ⟨Sys.sleepUntil, Sys.expires_sleepUntil, rfl⟩
  · rename_i hcall
    rw [hcall]
    split at h
    · cases h
    rename_i habsolute
    obtain rfl := Option.some.inj h
    refine ⟨Sys.sleepUntil, Sys.expires_sleepUntil, ?_⟩
    change Sys.clockNanosleepTime64 a = _
    unfold Sys.clockNanosleepTime64
    simp only [if_neg habsolute]
  · rename_i hcall
    rw [hcall]
    split at h
    · cases h
    rename_i hstart
    obtain rfl := Option.some.inj h
    obtain ⟨rest, hrest, -, hppoll⟩ := Sys.ppoll_timed a
    exact ⟨fun limit => rest (some limit), hrest, hppoll.trans (Sys.waitUntil_timed hstart rest)⟩
  · rename_i hcall
    rw [hcall]
    split at h
    · cases h
    rename_i hstart
    obtain rfl := Option.some.inj h
    obtain ⟨rest, hrest, -, hpselect⟩ := Sys.pselect_timed a
    exact ⟨fun limit => rest (some limit), hrest, hpselect.trans (Sys.waitUntil_timed hstart rest)⟩
  · cases h

theorem pauses_deadline (after : Duration) : Pauses (deadline after) := by
  refine Pauses.bind (pauses_act .deadline) fun known => ?_
  cases known with
  | some limit => exact pauses_ret limit
  | none =>
    refine Pauses.bind (pauses_env .now) fun now => ?_
    refine Pauses.bind (pauses_env .instantMax) fun max => ?_
    have hset : ∀ limit, Pauses (act (.setDeadline limit) >>= fun _ => .ret limit) := fun limit =>
      Pauses.bind (pauses_act _) fun _ => pauses_ret limit
    split
    · exact hset _
    · exact Pauses.bind (pauses_env .now) hset

theorem pauses_waitUntil (start : ℕ) : Pauses (waitUntil start) := by
  unfold waitUntil
  split
  · exact pauses_ret _
  · refine Pauses.bind (pauses_act .view) fun v => ?_
    refine Pauses.bind (pauses_lift fun _ => Mem.timespec_error) fun requested => ?_
    exact Pauses.bind (pauses_deadline requested) fun _ => pauses_ret _

/-- A call that may wait for an instant ends with an error, or has to be made again. -/
theorem pauses_timed {number : ℤ} (h : (Nr.ofInt number).kind.timed = true) (a : Args) :
    Pauses (handle number a) := by
  have hsleep : ∀ after, Pauses (deadline after >>= Sys.sleepUntil) := fun after =>
    Pauses.bind (pauses_deadline after) fun limit => (Sys.expires_sleepUntil limit).pauses
  unfold handle
  cases hcall : Nr.ofInt number with
  | nanosleep =>
    refine Pauses.bind (pauses_act .view) fun v => ?_
    exact Pauses.bind (pauses_lift fun _ => Mem.timespec_error) fun requested => hsleep requested
  | clockNanosleepTime64 =>
    refine Pauses.bind (pauses_act .view) fun v => ?_
    refine Pauses.bind (pauses_lift fun _ => Mem.timespec_error) fun requested => ?_
    split
    · split
      · exact Pauses.bind (pauses_env .epoch) fun now => hsleep _
      · refine Pauses.bind (Pauses.bind (pauses_act .view) fun v => ?_) fun now => hsleep _
        exact Pauses.bind (pauses_env .now) fun _ => pauses_ret _
    · exact hsleep requested
  | ppollTime64 =>
    obtain ⟨rest, hrest, hnone, hppoll⟩ := Sys.ppoll_timed a
    change Pauses (Sys.ppoll a)
    rw [hppoll]
    refine Pauses.bind (pauses_waitUntil _) fun limit => ?_
    cases limit with
    | none => exact hnone
    | some limit => exact (hrest limit).pauses
  | pselect6Time64 =>
    obtain ⟨rest, hrest, hnone, hpselect⟩ := Sys.pselect_timed a
    change Pauses (Sys.pselect a)
    rw [hpselect]
    refine Pauses.bind (pauses_waitUntil _) fun limit => ?_
    cases limit with
    | none => exact hnone
    | some limit => exact (hrest limit).pauses
  | _ =>
    rw [hcall] at h
    cases h

section
variable {ε W : Type} {x : Env W} {number : ℤ} {a : Args} {start : ℕ} {m : Machine} {w : W}

/-- How a handler ends that waits for this instant. -/
structure Awaits (x : Env W) (p : Handler ℤ) (limit : Instant) (s : Machine × W) : Prop where
  deadline : (p.run (exec x) s).2.1.ctx.exec.deadline = some limit
  pauses : ∀ f, (p.run (exec x) s).1 = .error f → f.pauses
  lasts : (p.run (exec x) s).1 = .ok 0 → ∃ ended, (readings x p s).getLast? = some ended ∧ limit ≤ ended

theorem run_timespec_error {e : Errno} (h : m.inst.mem.timespec start = .error e)
    (rest : Duration → Handler ℤ) :
    (view >>= fun v => lift (v.mem.timespec start) >>= rest).run (exec x) (m, w) =
    (.error (.errno e), (m, w)) := by
  change ((lift (m.inst.mem.timespec start) >>= rest).run (exec x) (m, w)) = _
  rw [h]
  rfl

theorem run_timespec_ok {requested : Duration} (h : m.inst.mem.timespec start = .ok requested)
    (rest : Duration → Handler ℤ) :
    (view >>= fun v => lift (v.mem.timespec start) >>= rest).run (exec x) (m, w) =
    (rest requested).run (exec x) (m, w) ∧
    readings x (view >>= fun v => lift (v.mem.timespec start) >>= rest) (m, w) = readings x (rest requested)
      (m, w) := by
  change ((lift (m.inst.mem.timespec start) >>= rest).run (exec x) (m, w)) = _ ∧
    readings x (lift (m.inst.mem.timespec start) >>= rest) (m, w) = _
  rw [h]
  exact ⟨rfl, rfl⟩

theorem awaits_deadline {requested : Duration} {rest : Instant → Handler ℤ} {limit : Instant}
    {m' : Machine} {w' : W} (hrest : Expires limit (rest limit)) (hm' : m'.ctx.exec.deadline = some limit)
    (hrun : (deadline requested).run (exec x) (m, w) = (.ok limit, (m', w'))) :
    Awaits x (deadline requested >>= rest) limit (m, w) := by
  have hbind := Program.run_bind_ok (exec x) hrun (f := rest)
  constructor
  · rw [hbind, run_lingers hrest.lingers, hm']
  · rw [hbind]
    exact fun f hf => hrest.pauses W x _ f hf
  · rw [hbind, readings_bind hrun]
    intro hok
    obtain ⟨ended, hlast, hle⟩ := hrest.lasts W x _ _ (Prod.ext hok rfl)
    refine ⟨ended, ?_, hle⟩
    rw [List.getLast?_append, hlast]
    rfl

/-- A retry waits for the instant that is kept. -/
theorem awaits_again (h : timeoutAt number a = some start) {limit : Instant}
    (hlimit : m.ctx.exec.deadline = some limit) :
    Awaits x (handle number a) limit (m, w) := by
  obtain ⟨rest, hrest, hhandle⟩ := handle_timed h
  rw [hhandle]
  cases htime : m.inst.mem.timespec start with
  | error e =>
    have hrun := run_timespec_error (x := x) (w := w) htime fun requested => deadline requested >>= rest
    constructor
    · rw [hrun]
      exact hlimit
    · rw [hrun]
      rintro f hf
      obtain rfl := Except.error.inj hf
      exact Mem.timespec_error htime
    · rw [hrun]
      exact fun hf => by cases hf
  | ok requested =>
    obtain ⟨hrun, hreadings⟩ := run_timespec_ok (x := x) (w := w) htime fun requested =>
      deadline requested >>= rest
    have hawaits := awaits_deadline (hrest limit) hlimit (run_deadline_again (x := x) requested w hlimit)
    exact ⟨by rw [hrun]; exact hawaits.deadline, by rw [hrun]; exact hawaits.pauses,
      by rw [hrun, hreadings]; exact hawaits.lasts⟩

/-- A first attempt waits for as long as it is told, from when it reads the clock. -/
theorem awaits_first (h : timeoutAt number a = some start) (hfresh : m.ctx.exec.deadline = none) :
    (∃ e, (handle number a).run (exec x) (m, w) = (.error (.errno e), (m, w))) ∨
    ∃ requested limit, m.inst.mem.timespec start = .ok requested ∧ Awaits x (handle number a) limit (m, w) ∧
      (readings x (handle number a) (m, w)).head? = some (x.now w).1 ∧
      ((x.now w).1 + requested ≤ x.instantMax → limit = (x.now w).1 + requested) := by
  obtain ⟨rest, hrest, hhandle⟩ := handle_timed h
  rw [hhandle]
  cases htime : m.inst.mem.timespec start with
  | error e => exact .inl ⟨e, run_timespec_error htime _⟩
  | ok requested =>
    right
    obtain ⟨hrun, hreadings⟩ := run_timespec_ok (x := x) (w := w) htime fun requested =>
      deadline requested >>= rest
    obtain ⟨limit, w', more, hdeadline, hread, hlimit⟩ := run_deadline_first (x := x) requested w hfresh
    have hawaits := awaits_deadline (hrest limit) rfl hdeadline
    refine ⟨requested, limit, rfl, ?_, ?_, hlimit⟩
    · exact ⟨by rw [hrun]; exact hawaits.deadline, by rw [hrun]; exact hawaits.pauses,
        by rw [hrun, hreadings]; exact hawaits.lasts⟩
    · rw [hreadings, readings_bind hdeadline, hread]
      rfl

end

/-! ## Calls and their conclusion -/

def Op.concludes : Op → Prop
  | .act .settle | .act .view | .act (.put _ _) => True
  | _ => False

section
variable {ε W : Type} {x : Env W} {number : ℤ} {a : Args} {m : Machine} {w : W}

theorem concludes_finish : (finish : Program sig ε Unit).Only Op.concludes := by
  refine ⟨trivial, fun _ => ⟨trivial, fun v => ?_⟩⟩
  change Program.Only Op.concludes (if (v : View).signalFlag = 0 then .ret () else
    act (.put v.signalFlag (toLe 4 (if v.live ≠ 0 then 1 else 0))) >>= fun _ => .ret () : Program sig ε Unit)
  split
  · trivial
  · exact ⟨trivial, fun _ => trivial⟩

theorem concludes_conclude (r : Except Fault ℤ) : (conclude r : Program sig ε Outcome).Only Op.concludes := by
  rcases r with fault | value
  · cases fault with
    | errno e => exact Program.only_bind concludes_finish fun _ => trivial
    | block =>
      refine Program.only_bind (p := view) ⟨trivial, fun _ => trivial⟩ fun v => ?_
      split
      · exact Program.only_bind concludes_finish fun _ => trivial
      · trivial
    | exit status => trivial
    | exec => trivial
  · exact Program.only_bind concludes_finish fun _ => trivial

theorem readings_dispatch (number : ℤ) (a : Args) (m : Machine) (w : W) :
    readings x (dispatch number a : Program sig ε Outcome) (m, w) = readings x (handle number a)
      (m.counted, w) := by
  have hrun : ((handle number a).catching : Program sig ε _).run (exec x) (m.counted, w) =
      (.ok ((handle number a).run (exec x) (m.counted, w)).1,
        ((handle number a).run (exec x) (m.counted, w)).2) :=
    Program.run_catching (exec x) _ _
  change readings x (((handle number a).catching >>= conclude : Program sig ε Outcome)) (m.counted, w) = _
  rw [readings_bind hrun, readings_catching, readings_acts (p := conclude _), List.append_nil]
  refine (concludes_conclude _).mono fun o ho => ?_
  cases o with
  | env => cases ho
  | act b => exact ⟨b, rfl⟩

theorem entry_settled_flagged (m : Machine) :
    m.settled.flagged.entry = { m.entry with deadline := none } := by
  unfold Machine.flagged
  split
  · rfl
  · exact Act.entry_exec _ _ rfl fun _ => Act.noConfusion

/-- A call that does not have to be made again drops its instant, unless the process ends or is replaced. -/
theorem entry_conclude (r : Except Fault ℤ) (s : Machine × W) : ∃ outcome t,
    (conclude r : Program sig ε Outcome).run (exec x) s = (.ok outcome, t) ∧
    ((outcome = .blocked ∧ r = .error .block ∧ t = s) ∨
      (outcome ≠ .blocked ∧ t.1.entry = { s.1.entry with deadline := none } ∧
        (outcome = .value 0 → (∀ f, r = .error f → f.pauses) → r = .ok 0)) ∨
      (outcome ≠ .blocked ∧ outcome ≠ .value 0 ∧ t = s ∧ ∃ f, r = .error f ∧ ¬ f.pauses)) := by
  obtain ⟨m, w⟩ := s
  rcases r with fault | value
  · cases fault with
    | errno e =>
      refine ⟨_, _, conclude_errno x e m w,
        .inr (.inl ⟨by simp, entry_settled_flagged m, fun h hpauses => ?_⟩)⟩
      have hzero : e.asNeg = 0 := Outcome.value.inj h
      rcases hpauses _ rfl with rfl | rfl
      · exact absurd hzero (by decide)
      · exact absurd hzero (by decide)
    | block =>
      have hrun := conclude_block (ε := ε) x m w
      by_cases hlive : m.view.live ≠ 0
      · rw [if_pos hlive] at hrun
        exact ⟨_, _, hrun, .inr (.inl
          ⟨by simp, entry_settled_flagged m, fun h => absurd (Outcome.value.inj h) (by decide)⟩)⟩
      · rw [if_neg hlive] at hrun
        exact ⟨_, _, hrun, .inl ⟨rfl, rfl, rfl⟩⟩
    | exit status => exact ⟨_, _, rfl, .inr (.inr ⟨by simp, by simp, rfl, _, rfl, id⟩)⟩
    | exec => exact ⟨_, _, rfl, .inr (.inr ⟨by simp, by simp, rfl, _, rfl, id⟩)⟩
  · refine ⟨_, _, conclude_ok x value m w, .inr (.inl ⟨by simp, entry_settled_flagged m, fun h _ => ?_⟩)⟩
    rw [Outcome.value.inj h]

end
end Wasmux
