import Wasmux.Signals

/-!
# What `sigfetch` finds

A guest asks for one signal at a time until it is told that there is none, or
dies of one. Each call takes the lowest signal that is due. A signal that was
caught is no longer pending and changes at most its own action, so the calls
walk the signals that were due at first, one after another.
-/

set_option autoImplicit false

namespace Wasmux
open Effects Abi

section
variable (pending mask : Sigset) (t : Task)

instance (n : ℕ) : Decidable (Deliverable pending mask t n) :=
    inferInstanceAs (Decidable (_ ∧ _ ∧ (_ ∨ _ ∨ _)))

/-- The signals that are pending, not ignored and not blocked, lowest first. -/
def Task.due : List ℕ := (List.range' 1 63).filter fun n => Deliverable pending mask t n

theorem Task.mem_due (n : ℕ) :
    n ∈ t.due pending mask ↔ (0 < n ∧ n < nsig) ∧ Deliverable pending mask t n := by
  simp only [due, List.mem_filter, List.mem_range'_1, decide_eq_true_iff]
  exact and_congr_left fun _ => by unfold nsig; omega

theorem Task.due_sorted : (t.due pending mask).Pairwise (· < ·) :=
  List.Pairwise.filter _ List.pairwise_lt_range'

theorem Task.trailingZeros_live :
    trailingZeros (triage pending mask t).1 = ((t.due pending mask).head?).getD 64 := by
  have hfilter : (List.range 64).filter (triage pending mask t).1.getLsbD = t.due pending mask := by
    have hrange : List.range 64 = 0 :: List.range' 1 63 := rfl
    have hzero : ¬ (triage pending mask t).1.getLsbD 0 = true := by
      rw [mem_triage]
      simp
    rw [hrange, List.filter_cons_of_neg hzero, due]
    apply List.filter_congr
    intro n hn
    rw [List.mem_range'_1] at hn
    rw [Bool.eq_iff_iff, triage_getLsbD _ _ _ _ (by unfold nsig; omega), decide_eq_true_iff]
  rw [trailingZeros, ← List.head?_filter, hfilter]

theorem Task.live_eq_zero : (triage pending mask t).1 = 0 ↔ t.due pending mask = [] := by
  rw [List.eq_nil_iff_forall_not_mem]
  constructor
  · intro hl n hn
    rw [Task.mem_due, ← mem_triage, hl] at hn
    simp at hn
  · intro hd
    apply BitVec.eq_of_getLsbD_eq
    intro n _
    have hn := hd n
    rw [Task.mem_due, ← mem_triage, Bool.not_eq_true] at hn
    simpa using hn

end

/-- The buffer of a `sigfetch`, five words, lies within the memory. -/
def Fits (m : Mem) (out : ℕ) : Prop := out + 20 ≤ m.size ∧ out + 20 ≤ 2^32

/-- What musl's delivery stub reads: signal, handler, flags, `si_code` and `si_pid`. -/
structure Tells (m : Mem) (out signal : ℕ) (action : SigAction) : Prop where
  signal : m.u32 out = .ok (signal % 2^32)
  handler : m.u32 (out + 4) = .ok (action.handler % 2^32)
  flags : m.u32 (out + 8) = .ok (action.flags % 2^32)
  code : m.u32 (out + 12) = .ok 0
  sender : m.u32 (out + 16) = .ok 0

namespace Machine

/-- The signals that are due to the process. -/
def due (m : Machine) : List ℕ := m.ctx.task.due m.view.pending m.ctx.task.sigmask

/-- Those that a handler is run for: all before the first that has none. -/
def caught (m : Machine) : List ℕ := m.due.takeWhile fun n => (m.ctx.task.action n).handler ≠ sigDfl

def fetched (m : Machine) : List ℕ := m.due.take (m.caught.length + 1)

def closing (m : Machine) : SignalDelivery :=
  match m.due[m.caught.length]? with
  | none => .none
  | some n => .fatal (statusSignaled n)

theorem due_sorted (m : Machine) : m.due.Pairwise (· < ·) := Task.due_sorted _ _ _

def drop (m : Machine) (set : Sigset) : Machine := (Act.exec (.dropPending set) m).2

def discarded (m : Machine) : Machine :=
  if (triage m.view.pending m.ctx.task.sigmask m.ctx.task).2 = 0 then m
  else m.drop (triage m.view.pending m.ctx.task.sigmask m.ctx.task).2

def store (m : Machine) (start : ℕ) (data : Bytes) : Machine := (Act.exec (.put start data) m).2

def lowered (m : Machine) : Machine :=
  if m.ctx.exec.signalFlag = 0 then m else m.store m.ctx.exec.signalFlag (toLe 4 0)

def reset (m : Machine) (signal : ℕ) : Machine := m.setTask (m.ctx.task.setAction signal default)

def told (m : Machine) (out signal : ℕ) (action : SigAction) : Machine :=
  ((((m.store out (toLe 4 signal)).store (wrapAdd out 4) (toLe 4 action.handler)).store
    (wrapAdd out 8) (toLe 4 action.flags)).store (wrapAdd out 12) (toLe 4 0)).store
    (wrapAdd out 16) (toLe 4 0)

/-- One call of `next_signal`, all at once. -/
def fetch (m : Machine) (out : ℕ) : SignalDelivery × Machine :=
  match m.due with
  | [] => (.none, m.discarded.lowered)
  | n :: _ =>
    let action := m.ctx.task.action n
    let taken := m.discarded.drop (bit n)
    if action.handler = sigDfl then (.fatal (statusSignaled n), taken)
    else (.handler, (if action.flags &&& saResethand = 0 then taken else taken.reset n).told out n action)

theorem view_pending (m : Machine) :
    m.view.pending = ((m.shared.record m.ctx.task.pid).map ProcRecord.pending).getD 0 := by
  unfold View.pending View.record Shared.record
  rw [show m.view.table = m.shared.table.map ProcRecord.unwoken from rfl, List.find?_map, Option.map_map]
  rfl

theorem pending_drop (m : Machine) (set : Sigset) :
    (m.drop set).view.pending = m.view.pending &&& ~~~set := by
  simp only [view_pending, drop, Act.exec, updateSelf, setShared]
  rw [Shared.record_updateRecord]
  · cases m.shared.record m.ctx.task.pid <;> simp
  · exact fun _ => rfl

theorem discarded_ctx (m : Machine) : m.discarded.ctx = m.ctx := by
  unfold discarded
  split <;> rfl

theorem exits_discarded (m : Machine) : m.discarded.shared.exits = m.shared.exits := by
  unfold discarded
  split <;> rfl

theorem pending_discarded (m : Machine) (n : ℕ) (h : 0 < n ∧ n < nsig) :
    m.discarded.view.pending.getLsbD n = true ↔
    m.view.pending.getLsbD n = true ∧ (m.ctx.task.action n).isIgnored n = false := by
  have hdiscard := mem_discard m.view.pending m.ctx.task.sigmask m.ctx.task n
  unfold discarded
  split
  · rename_i hd
    rw [hd] at hdiscard
    simpa [h] using hdiscard
  · rw [pending_drop, BitVec.getLsbD_and, BitVec.getLsbD_not]
    cases hig : (m.ctx.task.action n).isIgnored n <;> cases hp : m.view.pending.getLsbD n <;>
      simp_all [nsig]

theorem store_ctx (m : Machine) (start : ℕ) (data : Bytes) : (m.store start data).ctx = m.ctx := by
  simp only [store, Act.exec]
  split <;> rfl

theorem store_shared (m : Machine) (start : ℕ) (data : Bytes) : (m.store start data).shared = m.shared := by
  simp only [store, Act.exec]
  split <;> rfl

theorem store_size (m : Machine) (start : ℕ) (data : Bytes) :
    (m.store start data).inst.mem.size = m.inst.mem.size := by
  simp only [store, Act.exec]
  split
  · rename_i mem hput
    exact Mem.put_size hput
  · rfl

theorem store_word (m : Machine) {start : ℕ} (n : ℕ) (h : start + 4 ≤ m.inst.mem.size) :
    (m.store start (toLe 4 n)).inst.mem.u32 start = .ok (n % 2^32) := by
  simp only [store, Act.exec]
  split
  · rename_i mem hput
    exact Mem.u32_put hput
  · rename_i e hput
    rw [Mem.put, toLe_length, if_pos h] at hput
    cases hput

theorem store_other (m : Machine) {start a : ℕ} (n : ℕ) (h : a + 4 ≤ start ∨ start + 4 ≤ a) :
    (m.store start (toLe 4 n)).inst.mem.u32 a = m.inst.mem.u32 a := by
  simp only [store, Act.exec]
  split
  · rename_i mem hput
    exact Mem.u32_put_other h hput
  · rfl

theorem told_ctx (m : Machine) (out n : ℕ) (action : SigAction) : (m.told out n action).ctx = m.ctx := by
  simp only [told, store_ctx]

theorem told_shared (m : Machine) (out n : ℕ) (action : SigAction) :
    (m.told out n action).shared = m.shared := by
  simp only [told, store_shared]

theorem fits_told (m : Machine) (out n : ℕ) (action : SigAction) {a : ℕ} :
    Fits (m.told out n action).inst.mem a ↔ Fits m.inst.mem a := by
  unfold Fits
  simp only [told, store_size]

theorem tells_told (m : Machine) {out : ℕ} (n : ℕ) (action : SigAction) (h : Fits m.inst.mem out) :
    Tells (m.told out n action).inst.mem out n action := by
  obtain ⟨hsize, hwrap⟩ := h
  have hat : ∀ k, k ≤ 16 → wrapAdd out k = out + k := fun k hk => Nat.mod_eq_of_lt (by omega)
  unfold told
  rw [hat 4 (by omega), hat 8 (by omega), hat 12 (by omega), hat 16 (by omega)]
  constructor
  all_goals
    simp (disch := (try simp only [store_size]); omega) only [store_other, store_word, Nat.zero_mod]

end Machine

theorem Task.action_setAction_of_ne (t : Task) (a : SigAction) {n k : ℤ} (h : k ≠ n) :
    (t.setAction n a).action k = t.action k := by
  unfold setAction
  by_cases hn : 0 < n
  · rw [if_pos hn]
    unfold action
    by_cases hk : k ≤ 0
    · rw [if_pos hk, if_pos hk]
    · rw [if_neg hk, if_neg hk]
      split
      · exact if_neg (by dsimp only; omega)
      · rfl
  · rw [if_neg hn]

/-- What is left of a machine whose lowest due signal was handed to a handler. -/
structure Caught (m u : Machine) (n : ℕ) : Prop where
  action : ∀ k : ℕ, u.ctx.task.action k =
    if k = n ∧ (m.ctx.task.action n).flags &&& saResethand ≠ 0 then default else m.ctx.task.action k
  mask : u.ctx.task.sigmask = m.ctx.task.sigmask
  exec : u.ctx.exec = m.ctx.exec
  pending : ∀ k, 0 < k ∧ k < nsig → (u.view.pending.getLsbD k = true ↔
    (m.view.pending.getLsbD k = true ∧ (m.ctx.task.action k).isIgnored k = false) ∧ k ≠ n)

theorem Caught.told {m u : Machine} {n : ℕ} (h : Caught m u n) (out : ℕ) (action : SigAction) :
    Caught m (u.told out n action) n := by
  refine ⟨?_, ?_, ?_, ?_⟩
  · rw [u.told_ctx]
    exact h.action
  · rw [u.told_ctx]
    exact h.mask
  · rw [u.told_ctx]
    exact h.exec
  · intro k hk
    rw [Machine.view_pending, u.told_ctx, u.told_shared, ← Machine.view_pending]
    exact h.pending k hk

namespace Machine

theorem pending_bit (m : Machine) {n : ℕ} (h : 0 < n ∧ n < nsig) (k : ℕ) :
    (m.drop (bit n)).view.pending.getLsbD k = true ↔ m.view.pending.getLsbD k = true ∧ k ≠ n := by
  rw [pending_drop, BitVec.getLsbD_and, BitVec.getLsbD_not, bit_getLsbD n k h, Bool.and_eq_true]
  refine and_congr_right fun hk => ?_
  have hlt := BitVec.lt_of_getLsbD hk
  simp [hlt]

theorem fetch_none {m : Machine} (out : ℕ) (h : m.due = []) : m.fetch out = (.none, m.discarded.lowered) := by
  rw [fetch, h]

theorem fetch_fatal {m : Machine} {n : ℕ} {rest : List ℕ} (out : ℕ) (h : m.due = n :: rest)
    (hdfl : (m.ctx.task.action n).handler = sigDfl) :
    m.fetch out = (.fatal (statusSignaled n), m.discarded.drop (bit n)) := by
  rw [fetch, h]
  exact if_pos hdfl

theorem fetch_handler {m : Machine} {n : ℕ} {rest : List ℕ} (out : ℕ) (h : m.due = n :: rest)
    (hcaught : (m.ctx.task.action n).handler ≠ sigDfl) : ∃ u : Machine, m.fetch out = (.handler, u) ∧
      Caught m u n ∧ (Fits u.inst.mem out → Tells u.inst.mem out n (m.ctx.task.action n)) := by
  suffices h : ∃ u : Machine, m.fetch out = (.handler, u.told out n (m.ctx.task.action n)) ∧ Caught m u n by
    obtain ⟨u, hfetch, hu⟩ := h
    refine ⟨_, hfetch, hu.told out _, fun hfits => ?_⟩
    rw [u.fits_told] at hfits
    exact u.tells_told n _ hfits
  have hn : 0 < n ∧ n < nsig := ((Task.mem_due _ _ _ n).mp (by rw [← due, h]; exact List.mem_cons_self)).1
  have hctx : (m.discarded.drop (bit n)).ctx = m.ctx := m.discarded_ctx
  have hpending : ∀ k, 0 < k ∧ k < nsig → _ := fun k hk =>
    (m.discarded.pending_bit hn k).trans (and_congr_left' (m.pending_discarded k hk))
  rw [fetch, h]
  dsimp only
  rw [if_neg hcaught]
  generalize m.discarded.drop (bit n) = u at hctx hpending
  by_cases hreset : (m.ctx.task.action n).flags &&& saResethand = 0
  · rw [if_pos hreset]
    refine ⟨u, rfl, ?_, by rw [hctx], by rw [hctx], hpending⟩
    intro k
    rw [if_neg fun hk => hk.2 hreset, hctx]
  · rw [if_neg hreset]
    refine ⟨u.reset n, rfl, ?_, ?_, ?_, ?_⟩
    · intro k
      change (u.ctx.task.setAction n default).action k = _
      rw [hctx]
      by_cases hk : k = n
      · rw [if_pos ⟨hk, hreset⟩, hk, Task.action_setAction _ _ n hn]
      · rw [if_neg fun h => hk h.1, Task.action_setAction_of_ne _ _ (by omega)]
    · change (u.ctx.task.setAction n default).sigmask = _
      rw [hctx]
      unfold Task.setAction
      split <;> rfl
    · change u.ctx.exec = _
      rw [hctx]
    · intro k hk
      rw [← hpending k hk, view_pending, view_pending]
      have hpid : (u.reset n).ctx.task.pid = u.ctx.task.pid := by
        simp only [reset, setTask, Task.setAction]
        split <;> rfl
      rw [hpid]
      rfl

end Machine

section
variable {ε W : Type} (x : Env W)

theorem run_putDelivery (out signal : ℕ) (action : SigAction) (m : Machine) (w : W) :
    (putDelivery out signal action >>= fun _ =>
      pure .handler : Program sig ε SignalDelivery).run (exec x) (m, w) =
      (.ok .handler, m.told out signal action, w) := rfl

theorem due_acts {m : Machine} {n : ℕ} (h : n ∈ m.due) :
    (m.ctx.task.action n).handler ≠ sigIgn ∧
      ((m.ctx.task.action n).handler = sigDfl → defaultKills n = true) := by
  obtain ⟨-, -, hacts, -⟩ := (Task.mem_due _ _ _ _).mp h
  simp only [SigAction.isIgnored, Bool.or_eq_false_iff, beq_eq_false_iff_ne,
    Bool.and_eq_false_iff] at hacts
  refine ⟨hacts.1, fun hdfl => ?_⟩
  simpa [defaultKills, hdfl] using hacts.2

/-- The loop is left in its first turn, however many more it is allowed: what is
live is never ignored at the second look. -/
theorem run_nextSignalFrom (out turns : ℕ) (m : Machine) (w : W) :
    (nextSignalFrom out (turns + 1) : Program sig ε SignalDelivery).run (exec x) (m, w) =
      (.ok (m.fetch out).1, (m.fetch out).2, w) := by
  have hlive : m.view.live = 0 ↔ m.due = [] := Task.live_eq_zero _ _ _
  have hlowest : trailingZeros m.view.live = (m.due.head?).getD 64 := Task.trailingZeros_live _ _ _
  have hdrop : ∀ p : Program sig ε SignalDelivery,
      (if (triage m.view.pending m.ctx.task.sigmask m.ctx.task).2 ≠ 0 then
        Program.call (Op.act (.dropPending (triage m.view.pending m.ctx.task.sigmask m.ctx.task).2))
          fun _ => p
        else p).run (exec x) (m, w) = p.run (exec x) (m.discarded, w) := by
    intro p
    by_cases hd : (triage m.view.pending m.ctx.task.sigmask m.ctx.task).2 = 0
    · rw [Machine.discarded, if_pos hd, if_neg (not_not.mpr hd)]
    · rw [Machine.discarded, if_neg hd, if_pos hd]
      rfl
  unfold nextSignalFrom Machine.fetch
  simp only [view, act, Program.call_bind, Program.ret_bind]
  rw [Program.run_call]
  generalize hview : (exec x (Op.act Act.view) (m, w)).1 = v
  obtain rfl : v = m.view := hview.symm
  refine (hdrop _).trans ?_
  change Program.run (exec x) (if m.view.live = 0 then _ else _) (m.discarded, w) = _
  rcases hdue : m.due with _ | ⟨n, rest⟩
  · rw [if_pos (hlive.mpr hdue)]
    change Program.run (exec x) (if m.ctx.exec.signalFlag ≠ 0 then _ else _) (m.discarded, w) = _
    dsimp only
    rw [Machine.lowered, m.discarded_ctx]
    by_cases hflag : m.ctx.exec.signalFlag = 0
    · rw [if_neg (not_not.mpr hflag), if_pos hflag]
      rfl
    · rw [if_pos hflag, if_neg hflag]
      rfl
  · obtain ⟨hign, hkills⟩ := due_acts (n := n) (hdue ▸ List.mem_cons_self)
    obtain rfl : n = trailingZeros (triage m.view.pending m.view.task.sigmask m.view.task).1 := by
      rw [← View.live, hlowest, hdue]
      rfl
    rw [if_neg fun h => by simp [hlive.mp h] at hdue]
    generalize trailingZeros (triage m.view.pending m.view.task.sigmask m.view.task).1 = n at hign hkills hdue
    change Program.run (exec x) (if (m.ctx.task.action n).handler = sigIgn then _
      else if (m.ctx.task.action n).handler = sigDfl then if defaultKills n then _ else _
      else if (m.ctx.task.action n).flags &&& saResethand ≠ 0 then _ else _) (m.discarded.drop (bit n), w) = _
    rw [if_neg hign]
    dsimp only
    generalize m.discarded.drop (bit n) = u
    by_cases hdfl : (m.ctx.task.action n).handler = sigDfl
    · rw [if_pos hdfl, if_pos (hkills hdfl), if_pos hdfl]
      rfl
    · rw [if_neg hdfl, if_neg hdfl]
      by_cases hreset : (m.ctx.task.action n).flags &&& saResethand = 0
      · rw [if_neg (not_not.mpr hreset), if_pos hreset]
        rw [run_putDelivery, m.view_task]
      · rw [if_pos hreset, if_neg hreset, Program.run_call]
        change Program.run (exec x) _ (u.reset n, w) = _
        rw [run_putDelivery, m.view_task]

end

theorem takeWhile_congr_mem {α : Type} {p q : α → Bool} {l : List α} (h : ∀ a ∈ l, p a = q a) :
    l.takeWhile p = l.takeWhile q := by
  induction l with
  | nil => rfl
  | cons a l ih =>
    rw [List.takeWhile_cons, List.takeWhile_cons, h a List.mem_cons_self, ih fun b hb =>
      h b (List.mem_cons_of_mem _ hb)]

namespace Caught
variable {m u : Machine} {n : ℕ} {rest : List ℕ}

theorem same (h : Caught m u n) {k : ℕ} (hk : k ≠ n) : u.ctx.task.action k = m.ctx.task.action k :=
  (h.action k).trans (if_neg fun hand => hk hand.1)

/-- What is due then is what was due after the signal. -/
theorem due (h : Caught m u n) (hdue : m.due = n :: rest) : u.due = rest := by
  have hsorted := m.due_sorted
  have hfilter : u.due = m.due.filter (· ≠ n) := by
    unfold Machine.due Task.due
    rw [List.filter_filter]
    apply List.filter_congr
    intro k hk
    have hsig : 0 < k ∧ k < nsig := by
      rw [List.mem_range'_1] at hk
      unfold nsig
      omega
    rw [Bool.eq_iff_iff]
    simp only [Bool.and_eq_true, decide_eq_true_iff, ne_eq]
    unfold Deliverable
    rw [h.mask, h.pending k hsig]
    by_cases hkn : k = n
    · simp [hkn]
    · rw [h.same hkn]
      tauto
  rw [hdue, List.pairwise_cons] at hsorted
  rw [hfilter, hdue, List.filter_cons_of_neg (by simp), List.filter_eq_self]
  intro k hk
  have := hsorted.1 k hk
  simp only [ne_eq, decide_eq_true_iff]
  omega

theorem caught (h : Caught m u n) (hdue : m.due = n :: rest)
    (hhandler : (m.ctx.task.action n).handler ≠ sigDfl) :
    m.caught = n :: u.caught := by
  have hrest := h.due hdue
  have hsorted := m.due_sorted
  rw [hdue, List.pairwise_cons] at hsorted
  unfold Machine.caught
  rw [hdue, hrest, List.takeWhile_cons_of_pos (by simpa using hhandler)]
  congr 1
  apply takeWhile_congr_mem
  intro k hk
  rw [h.same (hsorted.1 k hk).ne']

end Caught

section
variable {W : Type} (x : Env W)

/-- A guest asks, with a buffer for each call, until it is not told to run a
handler. Listed are the buffers that were filled, each with the machine at the time. -/
inductive Fetched : (ℕ → ℕ) → Machine × W → List (ℕ × Machine) → SignalDelivery → Machine × W → Prop
  | last {outs : ℕ → ℕ} {s : Machine × W} {d : SignalDelivery} {t : Machine × W}
      (hrun : (nextSignal (outs 0) : Program sig Stop SignalDelivery).run (exec x) s = (.ok d, t))
      (hlast : d ≠ .handler) : Fetched outs s [] d t
  | more {outs : ℕ → ℕ} {s u : Machine × W} {found : List (ℕ × Machine)} {d : SignalDelivery}
      {t : Machine × W} (hrun : (nextSignal (outs 0) : Program sig Stop SignalDelivery).run (exec x) s =
        (.ok .handler, u))
      (hrest : Fetched (fun n => outs (n + 1)) u found d t) : Fetched outs s ((outs 0, u.1) :: found) d t

end

/-- Every signal that was due is delivered once, in order. -/
structure DeliversAll (m : Machine) (found : List (ℕ × Machine)) (d : SignalDelivery)
    (t : Machine) : Prop where
  /-- Each buffer, if it lies in the memory, tells the next signal, with its action. -/
  told : List.Forall₂ (fun n c => Fits c.2.inst.mem c.1 → Tells c.2.inst.mem c.1 n (m.ctx.task.action n))
    m.caught found
  closing : d = m.closing
  pending : ∀ n, 0 < n ∧ n < nsig → (t.view.pending.getLsbD n = true ↔
    (m.view.pending.getLsbD n = true ∧ (m.ctx.task.action n).isIgnored n = false) ∧ n ∉ m.fetched)
  action : ∀ n : ℕ, t.ctx.task.action n =
    if n ∈ m.caught ∧ (m.ctx.task.action n).flags &&& saResethand ≠ 0 then default else m.ctx.task.action n
  mask : t.ctx.task.sigmask = m.ctx.task.sigmask
  flag : d = .none → m.ctx.exec.signalFlag ≠ 0 →
    ∀ word, t.inst.mem.u32 m.ctx.exec.signalFlag = .ok word → word = 0

namespace Machine
variable {m : Machine}

theorem due_of_caught {n : ℕ} (h : n ∈ m.caught) : n ∈ m.due := List.takeWhile_subset _ h

/-- Nothing is due: the flag is lowered and only what is ignored goes. -/
theorem deliversAll_none (h : m.due = []) : DeliversAll m [] .none m.discarded.lowered := by
  have hcaught : m.caught = [] := by rw [caught, h]; rfl
  have hctx : m.discarded.lowered.ctx = m.ctx := by
    unfold lowered
    split
    · exact m.discarded_ctx
    · rw [store_ctx, discarded_ctx]
  have hshared : m.discarded.lowered.shared = m.discarded.shared := by
    unfold lowered
    split
    · rfl
    · rw [store_shared]
  refine ⟨?_, ?_, ?_, ?_, by rw [hctx], ?_⟩
  · rw [hcaught]
    exact .nil
  · rw [closing, h]
    rfl
  · intro n hn
    rw [fetched, h, view_pending, hctx, hshared, ← m.discarded_ctx, ← view_pending, m.pending_discarded n hn,
      m.discarded_ctx]
    simp
  · intro n
    rw [hctx, hcaught]
    simp
  · intro _ hflag word hword
    unfold lowered at hword
    rw [m.discarded_ctx, if_neg hflag] at hword
    by_cases hfits : m.ctx.exec.signalFlag + 4 ≤ m.discarded.inst.mem.size
    · rw [store_word _ _ hfits] at hword
      exact (Except.ok.inj hword).symm
    · have hin := Mem.u32_within hword
      rw [store_size] at hin
      exact absurd hin hfits

/-- The lowest signal kills: it is taken, and the calls end. -/
theorem deliversAll_fatal {n : ℕ} {rest : List ℕ} (h : m.due = n :: rest)
    (hdfl : (m.ctx.task.action n).handler = sigDfl) :
    DeliversAll m [] (.fatal (statusSignaled n)) (m.discarded.drop (bit n)) := by
  have hn : 0 < n ∧ n < nsig := ((Task.mem_due _ _ _ n).mp (by rw [← due, h]; exact List.mem_cons_self)).1
  have hcaught : m.caught = [] := by
    rw [caught, h, List.takeWhile_cons_of_neg (by simpa using hdfl)]
  have hctx : (m.discarded.drop (bit n)).ctx = m.ctx := m.discarded_ctx
  refine ⟨?_, ?_, ?_, ?_, by rw [hctx], nofun⟩
  · rw [hcaught]
    exact .nil
  · rw [closing, hcaught, h]
    rfl
  · intro k hk
    rw [pending_bit _ hn, m.pending_discarded k hk, fetched, hcaught, h]
    simp
  · intro k
    rw [hctx, hcaught]
    simp

/-- The lowest signal has a handler: its buffer tells it, and the calls after do the rest. -/
theorem deliversAll_handler {n : ℕ} {rest : List ℕ} {out : ℕ} {u : Machine} {found : List (ℕ × Machine)}
    {d : SignalDelivery} {t : Machine} (h : m.due = n :: rest)
    (hhandler : (m.ctx.task.action n).handler ≠ sigDfl) (hu : Caught m u n)
    (htells : Fits u.inst.mem out → Tells u.inst.mem out n (m.ctx.task.action n))
    (hrest : DeliversAll u found d t) : DeliversAll m ((out, u) :: found) d t := by
  have hcaught := hu.caught h hhandler
  have hdue : m.due = n :: u.due := by rw [h, hu.due h]
  have hsorted := m.due_sorted
  rw [hdue, List.pairwise_cons] at hsorted
  have hnot : ∀ {k}, k ∈ u.due → k ≠ n := fun hk => (hsorted.1 _ hk).ne'
  have hfetched : m.fetched = n :: u.fetched := by
    rw [fetched, fetched, hcaught, hdue]
    rfl
  refine ⟨?_, ?_, ?_, ?_, hrest.mask.trans hu.mask, ?_⟩
  · rw [hcaught]
    refine .cons htells (List.forall₂_iff_zip.mpr ⟨hrest.told.length_eq, fun {k c} hkc => ?_⟩)
    have hk : k ∈ u.caught := (List.of_mem_zip hkc).1
    rw [← hu.same (hnot (due_of_caught hk))]
    exact List.forall₂_zip hrest.told hkc
  · rw [hrest.closing, closing, closing, hcaught, hdue]
    rfl
  · intro k hk
    rw [hrest.pending k hk, hu.pending k hk, hfetched, List.mem_cons]
    by_cases hkn : k = n
    · simp [hkn]
    · rw [hu.same hkn]
      tauto
  · intro k
    rw [hrest.action k, hcaught]
    simp only [List.mem_cons]
    by_cases hkn : k = n
    · have hnone : k ∉ u.caught := fun hk => hnot (due_of_caught hk) hkn
      rw [if_neg fun hk => hnone hk.1, hu.action k, hkn]
      simp
    · rw [hu.same hkn]
      simp [hkn]
  · intro hd hflag
    have hexec := hu.exec
    rw [← hexec] at hflag ⊢
    exact hrest.flag hd hflag

end Machine

section
variable {W : Type} (x : Env W)

/-- By what is due: each call that runs a handler leaves the rest. -/
theorem exists_fetched (l : List ℕ) : ∀ (outs : ℕ → ℕ) (m : Machine) (w : W), m.due = l →
    ∃ found d t, Fetched x outs (m, w) found d (t, w) ∧ DeliversAll m found d t := by
  induction l with
  | nil =>
    intro outs m w h
    refine ⟨[], .none, m.discarded.lowered, .last ?_ nofun, m.deliversAll_none h⟩
    rw [nextSignal, run_nextSignalFrom, m.fetch_none _ h]
  | cons n rest ih =>
    intro outs m w h
    by_cases hdfl : (m.ctx.task.action n).handler = sigDfl
    · refine ⟨[], .fatal (statusSignaled n), m.discarded.drop (bit n), .last ?_ nofun,
        m.deliversAll_fatal h hdfl⟩
      rw [nextSignal, run_nextSignalFrom, m.fetch_fatal _ h hdfl]
    · obtain ⟨u, hfetch, hu, htells⟩ := m.fetch_handler (outs 0) h hdfl
      obtain ⟨found, d, t, hrun, hall⟩ := ih (fun n => outs (n + 1)) u w (hu.due h)
      refine ⟨(outs 0, u) :: found, d, t, .more ?_ hrun, m.deliversAll_handler h hdfl hu htells hall⟩
      rw [nextSignal, run_nextSignalFrom, hfetch]

theorem Fetched.unique {outs : ℕ → ℕ} {s : Machine × W} {found found' : List (ℕ × Machine)}
    {d d' : SignalDelivery} {t t' : Machine × W} (h : Fetched x outs s found d t)
    (h' : Fetched x outs s found' d' t') :
    found' = found ∧ d' = d ∧ t' = t := by
  induction h generalizing found' with
  | last hrun hlast =>
    cases h' with
    | last hrun' _ =>
      obtain ⟨hd, ht⟩ := Prod.mk.inj (hrun'.symm.trans hrun)
      exact ⟨rfl, Except.ok.inj hd, ht⟩
    | more hrun' _ =>
      obtain ⟨hd, -⟩ := Prod.mk.inj (hrun'.symm.trans hrun)
      exact absurd (Except.ok.inj hd).symm hlast
  | more hrun hrest ih =>
    cases h' with
    | last hrun' hlast =>
      obtain ⟨hd, -⟩ := Prod.mk.inj (hrun.symm.trans hrun')
      exact absurd (Except.ok.inj hd).symm hlast
    | more hrun' hrest' =>
      obtain ⟨-, rfl⟩ := Prod.mk.inj (hrun'.symm.trans hrun)
      obtain ⟨rfl, rfl, rfl⟩ := ih hrest'
      exact ⟨rfl, rfl, rfl⟩

/-- A call of `next_signal` ends in the first turn of its loop, and a guest that
calls it until it is told to run no more handlers gets every signal that was due
once, in order, up to the one that kills it. -/
theorem next_signal_delivers :
    (∀ (out turns : ℕ) (s : Machine × W),
      (nextSignalFrom out (turns + 1) : Program sig Stop SignalDelivery).run (exec x) s =
      (nextSignal out : Program sig Stop SignalDelivery).run (exec x) s) ∧
    ∀ (outs : ℕ → ℕ) (s : Machine × W), (∃ found d t, Fetched x outs s found d t) ∧
      ∀ found d t, Fetched x outs s found d t → DeliversAll s.1 found d t.1 := by
  refine ⟨fun out turns s => ?_, fun outs s => ?_⟩
  · obtain ⟨m, w⟩ := s
    rw [nextSignal, run_nextSignalFrom, run_nextSignalFrom]
  · obtain ⟨m, w⟩ := s
    obtain ⟨found, d, t, hrun, hall⟩ := exists_fetched x m.due outs m w rfl
    refine ⟨⟨found, d, (t, w), hrun⟩, fun found' d' t' hrun' => ?_⟩
    obtain ⟨rfl, rfl, rfl⟩ := Fetched.unique x hrun hrun'
    exact hall

end

end Wasmux
