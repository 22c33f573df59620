import Wasmux.Session

/-!
# Signal sets on both sides of the ABI

`triage` in terms of single signals, and what becomes of a set that crosses
the boundary. A guest's `sigset_t` has signal `n` at bit `n - 1`; the kernel's
`bit` has it at bit `n`, and the words are handed over as they are.
-/

set_option autoImplicit false

namespace Wasmux
open Effects Abi

theorem bit_getLsbD (n i : ℕ) (h : 0 < n ∧ n < nsig) :
    (bit n).getLsbD i = decide (i = n) := by
  have hn : (0 : ℤ) < n ∧ (n : ℤ) < nsig := by exact_mod_cast h
  rw [bit, if_pos hn, Int.toNat_natCast, BitVec.getLsbD_shiftLeft, BitVec.getLsbD_one]
  have := h.2
  unfold nsig at this
  by_cases hi : i < 64 <;> by_cases hin : i = n <;> simp [hi, hin] <;> omega

theorem and_bit_eq_zero (s : Sigset) (n : ℕ) (h : 0 < n ∧ n < nsig) :
    s &&& bit n = 0 ↔ s.getLsbD n = false := by
  constructor
  · intro hs
    have := congrArg (fun v : Sigset => v.getLsbD n) hs
    simpa [bit_getLsbD n n h] using this
  · intro hs
    apply BitVec.eq_of_getLsbD_eq
    intro i _
    rw [BitVec.getLsbD_and, bit_getLsbD n i h]
    by_cases hi : i = n
    · subst hi
      simp [hs]
    · simp [hi]

theorem mem_signals (n : ℕ) : (n : ℤ) ∈ signals ↔ 0 < n ∧ n < nsig := by
  unfold signals nsig
  simp only [List.mem_map, List.mem_range'_1, Nat.cast_inj, exists_eq_right]
  omega

def Deliverable (pending mask : Sigset) (t : Task) (n : ℕ) : Prop :=
  pending.getLsbD n = true ∧ (t.action n).isIgnored n = false ∧
    (mask.getLsbD n = false ∨ (n : ℤ) = sigkill ∨ (n : ℤ) = sigstop)

theorem triageOne_getLsbD (pending mask : Sigset) (t : Task) (acc : Sigset × Sigset) (n i : ℕ)
    (h : 0 < n ∧ n < nsig) :
    (triageOne pending mask t acc n).1.getLsbD i = true ↔
      acc.1.getLsbD i = true ∨ (i = n ∧ Deliverable pending mask t n) := by
  unfold triageOne Deliverable
  rw [← and_bit_eq_zero mask n h]
  by_cases hp : pending &&& bit n = 0
  · rw [if_pos hp, (and_bit_eq_zero pending n h).mp hp]
    simp
  · have hp' : pending.getLsbD n = true := by
      rw [← Bool.not_eq_false]
      exact fun hf => hp ((and_bit_eq_zero pending n h).mpr hf)
    rw [if_neg hp, hp']
    by_cases hig : (t.action n).isIgnored n = true
    · simp [hig]
    · rw [if_neg hig]
      have hig' := Bool.eq_false_iff.mpr hig
      split
      · rename_i hm
        rw [BitVec.getLsbD_or, bit_getLsbD n i h, Bool.or_eq_true, decide_eq_true_iff]
        exact or_congr_right ⟨fun hi => ⟨hi, rfl, hig', hm⟩, fun hi => hi.1⟩
      · rename_i hm
        exact ⟨Or.inl, fun ha => ha.resolve_right fun hi => hm hi.2.2.2⟩

theorem triageOne_discard (pending mask : Sigset) (t : Task) (acc : Sigset × Sigset) (n i : ℕ)
    (h : 0 < n ∧ n < nsig) :
    (triageOne pending mask t acc n).2.getLsbD i = true ↔
      acc.2.getLsbD i = true ∨ (i = n ∧ pending.getLsbD n = true ∧ (t.action n).isIgnored n = true) := by
  unfold triageOne
  by_cases hp : pending &&& bit n = 0
  · rw [if_pos hp, (and_bit_eq_zero pending n h).mp hp]
    simp
  · have hp' : pending.getLsbD n = true := by
      rw [← Bool.not_eq_false]
      exact fun hf => hp ((and_bit_eq_zero pending n h).mpr hf)
    rw [if_neg hp, hp']
    by_cases hig : (t.action n).isIgnored n = true
    · rw [if_pos hig, BitVec.getLsbD_or, bit_getLsbD n i h, Bool.or_eq_true, decide_eq_true_iff, hig]
      simp
    · rw [if_neg hig]
      split <;> simp [hig]

/-- A set that every signal adds itself to by a rule of its own, once all have been walked. -/
theorem foldl_getLsbD {pending mask : Sigset} {t : Task} {adds : ℕ → Prop} {i : ℕ}
    (side : Sigset × Sigset → Sigset) (hone : ∀ acc (n : ℕ), 0 < n ∧ n < nsig →
      ((side (triageOne pending mask t acc n)).getLsbD i = true ↔ (side acc).getLsbD i = true ∨
        (i = n ∧ adds n)))
    (acc : Sigset × Sigset) :
    (side (signals.foldl (triageOne pending mask t) acc)).getLsbD i = true ↔
      (side acc).getLsbD i = true ∨ ((0 < i ∧ i < nsig) ∧ adds i) := by
  have fold : ∀ (l : List ℤ) (acc : Sigset × Sigset), (∀ z ∈ l, ∃ k : ℕ, z = k ∧ 0 < k ∧ k < nsig) →
      ((side (l.foldl (triageOne pending mask t) acc)).getLsbD i = true ↔
        (side acc).getLsbD i = true ∨ ((i : ℤ) ∈ l ∧ adds i)) := by
    intro l
    induction l with
    | nil => simp
    | cons z l ih =>
      intro acc hl
      obtain ⟨k, rfl, hk⟩ := hl z (by simp)
      rw [List.foldl_cons, ih _ fun z hz => hl z (by simp [hz]), hone acc k hk, List.mem_cons, Nat.cast_inj]
      constructor
      · rintro ((ha | ⟨rfl, hd⟩) | ⟨hi, hd⟩)
        · exact Or.inl ha
        · exact Or.inr ⟨Or.inl rfl, hd⟩
        · exact Or.inr ⟨Or.inr hi, hd⟩
      · rintro (ha | ⟨rfl | hi, hd⟩)
        · exact Or.inl (Or.inl ha)
        · exact Or.inl (Or.inr ⟨rfl, hd⟩)
        · exact Or.inr ⟨hi, hd⟩
  rw [fold signals acc, mem_signals]
  intro z hz
  simp only [signals, List.mem_map, List.mem_range'_1] at hz
  obtain ⟨k, hk, rfl⟩ := hz
  exact ⟨k, rfl, by unfold nsig; omega⟩

theorem mem_triage (pending mask : Sigset) (t : Task) (i : ℕ) :
    (triage pending mask t).1.getLsbD i = true ↔ (0 < i ∧ i < nsig) ∧ Deliverable pending mask t i := by
  unfold triage
  split
  · rename_i hp
    simp [Deliverable, hp]
  · rw [foldl_getLsbD Prod.fst fun acc n h => triageOne_getLsbD pending mask t acc n i h]
    simp

theorem mem_discard (pending mask : Sigset) (t : Task) (i : ℕ) :
    (triage pending mask t).2.getLsbD i = true ↔
      (0 < i ∧ i < nsig) ∧ pending.getLsbD i = true ∧ (t.action i).isIgnored i = true := by
  unfold triage
  split
  · rename_i hp
    simp [hp]
  · rw [foldl_getLsbD Prod.snd fun acc n h => triageOne_discard pending mask t acc n i h]
    simp

theorem triage_getLsbD (pending mask : Sigset) (t : Task) (n : ℕ) (h : 0 < n ∧ n < nsig) :
    (triage pending mask t).1.getLsbD n = true ↔ Deliverable pending mask t n := by
  rw [mem_triage]
  exact and_iff_right h

def Maskable (n : ℕ) : Prop := 0 < n ∧ n < nsig ∧ (n : ℤ) ≠ sigkill ∧ (n : ℤ) ≠ sigstop

/-- Signal `n` is treated as blocked: pending and not ignored, it is not delivered. -/
def HeldBack (mask : Sigset) (n : ℕ) : Prop :=
  ∀ (pending : Sigset) (t : Task), pending.getLsbD n = true → (t.action n).isIgnored n = false →
    (triage pending mask t).1.getLsbD n = false

theorem heldBack_iff (mask : Sigset) (n : ℕ) (h : Maskable n) :
    HeldBack mask n ↔ mask.getLsbD n = true := by
  constructor
  · intro hb
    rw [← Bool.not_eq_false]
    intro hm
    -- A task that catches the signal would have it delivered.
    let t := (Task.new 1 .new).setAction n ⟨2, 0, 0⟩
    have hact : (t.action n).isIgnored n = false := by
      rw [Task.action_setAction _ _ n ⟨h.1, h.2.1⟩]
      rfl
    have hp : (bit n).getLsbD n = true := by simp [bit_getLsbD n n ⟨h.1, h.2.1⟩]
    have hd : Deliverable (bit n) mask t n := ⟨hp, hact, Or.inl hm⟩
    rw [← triage_getLsbD _ _ _ _ ⟨h.1, h.2.1⟩, hb (bit n) t hp hact] at hd
    simp at hd
  · intro hm pending t _ _
    rw [← Bool.not_eq_true, triage_getLsbD _ _ _ _ ⟨h.1, h.2.1⟩]
    rintro ⟨-, -, hf | hk | hs⟩
    · simp [hm] at hf
    · exact h.2.2.1 hk
    · exact h.2.2.2 hs

def GuestHas (s : Sigset) (n : ℕ) : Prop := s.getLsbD (n - 1) = true

/-- A set that, read by the guest, has all or none of the signals 1 to 9, all
or none of 10 to 19, and all or none of 20 to 64. -/
def Alike (s : Sigset) : Prop :=
  ∀ n, 2 ≤ n → n ≤ 64 → n ≠ 10 → n ≠ 20 → (GuestHas s n ↔ GuestHas s (n - 1))

/-- The two readings of a word agree on what can be masked exactly when the
word is the same in either of them. `k` is the kernel's copy: it may differ at
the two bits that are no maskable signal of the kernel's. -/
theorem readings_agree_iff (s k : Sigset)
    (hk : ∀ i, i ≠ 9 → i ≠ 19 → k.getLsbD i = s.getLsbD i) :
    (∀ n, Maskable n → (k.getLsbD n = true ↔ GuestHas s n)) ↔ Alike s := by
  constructor
  · intro h n h2 h64 h10 h20
    have hm : Maskable (n - 1) := by
      refine ⟨by omega, by unfold nsig; omega, ?_, ?_⟩
      · unfold sigkill
        omega
      · unfold sigstop
        omega
    have := h (n - 1) hm
    rw [hk (n - 1) (by omega) (by omega)] at this
    exact this
  · intro h n hn
    obtain ⟨h0, h64, h9, h19⟩ := hn
    unfold sigkill at h9
    unfold sigstop at h19
    unfold nsig at h64
    have := h (n + 1) (by omega) (by omega) (by omega) (by omega)
    rw [hk n (by omega) (by omega)]
    simpa [GuestHas] using this

def setIn (m : Mem) (start : ℕ) : Sigset := BitVec.ofNat 64 ((m.u64 start).toOption.getD 0)

/-- The three calls that take or hand back a set. -/
inductive SetCall where
  | procmask (a : Args)
  | suspend (a : Args)
  | pending (a : Args)

namespace SetCall

def handler : SetCall → Handler ℤ
  | procmask a => Sys.rtSigprocmask a
  | suspend a => Sys.rtSigsuspend a
  | pending a => Sys.rtSigpending a

/-- The call got past its arguments: a `sigsuspend` waits or was interrupted,
the other two return. -/
def Served (c : SetCall) (r : Except Fault ℤ) : Prop :=
  match c with
  | suspend _ => r = .error .block ∨ r = .error (.errno .intr)
  | _ => r = .ok 0

/-- The set the guest asked to be in force, as it reads sets itself. -/
def intended (a : Args) (before : Machine) : Sigset :=
  if asU32 a.a1 = 0 then before.ctx.task.sigmask
  else (Sys.combineMask a.a0 before.ctx.task.sigmask (setIn before.inst.mem (asU32 a.a1))).getD
    before.ctx.task.sigmask

/-- Both sides mean the same by every set of the call: what is held back after
it, what was handed back, and what was taken out of the request. -/
def Agrees (c : SetCall) (before after : Machine) : Prop :=
  match c with
  | procmask a =>
    (∀ n, Maskable n → (HeldBack after.ctx.task.sigmask n ↔ GuestHas (intended a before) n)) ∧
    (asU32 a.a2 ≠ 0 → ∀ n, Maskable n →
      (GuestHas (setIn after.inst.mem (asU32 a.a2)) n ↔ HeldBack before.ctx.task.sigmask n)) ∧
    (asU32 a.a1 ≠ 0 → ∀ n, Maskable n → GuestHas (setIn before.inst.mem (asU32 a.a1)) n →
      GuestHas (Sys.requestable (setIn before.inst.mem (asU32 a.a1))) n)
  | suspend a =>
    ∀ n, Maskable n →
      (HeldBack after.ctx.task.sigmask n ↔ GuestHas (setIn before.inst.mem (asU32 a.a0)) n)
  | pending a =>
    ∀ n, Maskable n →
      (GuestHas (setIn after.inst.mem (asU32 a.a0)) n ↔ before.view.pending.getLsbD n = true)

/-- Every set of the call is one that reads alike on both sides, and a request
holds neither signal 10 nor 20, which stand where the kernel looks for
`SIGKILL` and `SIGSTOP`. -/
def Fits (c : SetCall) (before : Machine) : Prop :=
  match c with
  | procmask a =>
    Alike (intended a before) ∧ (asU32 a.a2 ≠ 0 → Alike before.ctx.task.sigmask) ∧
    (asU32 a.a1 ≠ 0 → ¬ GuestHas (setIn before.inst.mem (asU32 a.a1)) 10 ∧
      ¬ GuestHas (setIn before.inst.mem (asU32 a.a1)) 20)
  | suspend a => Alike (setIn before.inst.mem (asU32 a.a0))
  | pending _ => Alike before.view.pending

end SetCall

theorem setIn_of_u64 {m : Mem} {start n : ℕ} (h : m.u64 start = .ok n) :
    setIn m start = BitVec.ofNat 64 n := by
  rw [setIn, h]
  rfl

theorem setIn_put {m m' : Mem} {start : ℕ} {s : Sigset} (h : m.put start (toLe 8 s.toNat) = .ok m') :
    setIn m' start = s := by
  rw [setIn_of_u64 (Mem.u64_put h), Nat.mod_eq_of_lt s.isLt, BitVec.ofNat_toNat, BitVec.setWidth_eq]

section
variable {W : Type} (x : Env W)

theorem handBack_spec {start : ℕ} {s : Sigset} {m m' : Machine} {w w' : W}
    (h : (putU64 start s.toNat >>= fun _ => (.ret 0 : Handler ℤ)).run (exec x) (m, w) =
      (.ok 0, (m', w'))) : m'.ctx = m.ctx ∧ setIn m'.inst.mem start = s := by
  simp only [putU64, put, act, Program.call_bind, Program.ret_bind, Program.run_call, exec_act,
    Act.exec] at h
  split at h
  · rename_i mem hp
    obtain ⟨rfl, rfl⟩ : _ ∧ _ := by simpa using h
    exact ⟨rfl, setIn_put hp⟩
  · simp at h

/-- What a `rt_sigprocmask` that returned has done. -/
theorem rtSigprocmask_spec {a : Args} {m m' : Machine} {w w' : W}
    (h : (Sys.rtSigprocmask a).run (exec x) (m, w) = (.ok 0, (m', w'))) :
    (if asU32 a.a1 = 0 then m'.ctx.task.sigmask = m.ctx.task.sigmask
     else Sys.combineMask a.a0 m.ctx.task.sigmask
      (Sys.requestable (setIn m.inst.mem (asU32 a.a1))) = some m'.ctx.task.sigmask) ∧
    (asU32 a.a2 ≠ 0 → setIn m'.inst.mem (asU32 a.a2) = m.ctx.task.sigmask) := by
  have last : ∀ n : Machine, (if asU32 a.a2 ≠ 0 then
        putU64 (asU32 a.a2) m.ctx.task.sigmask.toNat >>= fun _ => (.ret 0 : Handler ℤ)
      else .ret 0).run (exec x) (n, w) = (.ok 0, (m', w')) →
      m'.ctx.task.sigmask = n.ctx.task.sigmask ∧
        (asU32 a.a2 ≠ 0 → setIn m'.inst.mem (asU32 a.a2) = m.ctx.task.sigmask) := by
    intro n hn
    split at hn
    · obtain ⟨hc, hs⟩ := handBack_spec x hn
      exact ⟨by rw [hc], fun _ => hs⟩
    · rename_i h0
      obtain ⟨rfl, rfl⟩ : n = m' ∧ w = w' := by simpa using hn
      exact ⟨rfl, fun hne => absurd hne h0⟩
  simp only [Sys.rtSigprocmask, view, act, Program.call_bind, Program.ret_bind, Program.run_call,
    exec_act, Act.exec] at h
  by_cases h1 : asU32 a.a1 = 0
  · simp only [h1, ne_eq, not_true_eq_false, if_false, if_true] at h ⊢
    exact last m h
  · rw [if_neg h1]
    simp only [ne_eq, h1, not_false_eq_true, if_true] at h
    rcases hu : m.inst.mem.u64 (asU32 a.a1) with e | n
    · simp [hu] at h
    · rw [setIn_of_u64 hu]
      simp only [Machine.view_mem, Machine.view_task, hu, lift_ok, Program.ret_bind] at h
      rcases hc : Sys.combineMask a.a0 m.ctx.task.sigmask (Sys.requestable (BitVec.ofNat 64 n))
        with _ | mask
      · simp [hc] at h
      · simp only [hc, Program.run_call, exec_act, Act.exec] at h
        obtain ⟨hm, hs⟩ := last _ h
        exact ⟨by rw [hm]; rfl, hs⟩

theorem rtSigsuspend_spec {a : Args} {m m' : Machine} {w w' : W} {r : Except Fault ℤ}
    (h : (Sys.rtSigsuspend a).run (exec x) (m, w) = (r, (m', w')))
    (hr : r = .error .block ∨ r = .error (.errno .intr)) :
    m'.ctx.task.sigmask = setIn m.inst.mem (asU32 a.a0) := by
  simp only [Sys.rtSigsuspend, view, act, Program.call_bind, Program.ret_bind, Program.run_call,
    exec_act, Act.exec] at h
  rcases hu : m.inst.mem.u64 (asU32 a.a0) with e | n
  · have he := Mem.u64_error hu
    subst he
    simp only [Machine.view_mem, hu, lift_error, fail_bind, run_fail, Prod.mk.injEq] at h
    rcases hr with rfl | rfl
    · simp at h
    · exact absurd h.1 (by decide)
  · rw [setIn_of_u64 hu]
    simp only [Machine.view_mem, hu, lift_ok, Program.ret_bind, Program.run_call, exec_act] at h
    by_cases hl : ((Act.suspendMask (BitVec.ofNat 64 n)).exec m).2.view.live = 0
    · simp only [Act.exec] at h hl
      simp only [hl, ne_eq, not_true_eq_false, if_false, Program.run_fail, Prod.mk.injEq] at h
      obtain ⟨-, rfl, -⟩ := h
      rfl
    · simp only [Act.exec] at h hl
      simp only [hl, ne_eq, not_false_eq_true, if_true, run_fail, Prod.mk.injEq] at h
      obtain ⟨-, rfl, -⟩ := h
      rfl

theorem rtSigpending_spec {a : Args} {m m' : Machine} {w w' : W}
    (h : (Sys.rtSigpending a).run (exec x) (m, w) = (.ok 0, (m', w'))) :
    setIn m'.inst.mem (asU32 a.a0) = m.view.pending := by
  simp only [Sys.rtSigpending, view, act, Program.call_bind, Program.ret_bind, Program.run_call,
    exec_act, Act.exec] at h
  exact (handBack_spec x h).2

end

theorem requestable_getLsbD (set : Sigset) (i : ℕ) (h : i < 64) :
    (Sys.requestable set).getLsbD i = (set.getLsbD i && !decide (i = 9) && !decide (i = 19)) := by
  have hk := bit_getLsbD 9 i (by decide)
  have hs := bit_getLsbD 19 i (by decide)
  simp only [Nat.cast_ofNat] at hk hs
  rw [Sys.requestable, sigkill, sigstop, BitVec.getLsbD_and, BitVec.getLsbD_not,
    BitVec.getLsbD_or, hk, hs, Bool.not_or, Bool.and_assoc]
  simp [h]

/-- Only these two bits can differ after the filter. -/
theorem combineMask_requestable {how : ℤ} {prev set mask : Sigset}
    (h : Sys.combineMask how prev (Sys.requestable set) = some mask) :
    ∃ s, Sys.combineMask how prev set = some s ∧
      ∀ i, i ≠ 9 → i ≠ 19 → mask.getLsbD i = s.getLsbD i := by
  have hreq : ∀ i, i ≠ 9 → i ≠ 19 → (Sys.requestable set).getLsbD i = set.getLsbD i := by
    intro i h9 h19
    by_cases hi : i < 64
    · simp [-BitVec.getLsbD_eq_getElem, requestable_getLsbD set i hi, h9, h19]
    · simp [BitVec.getLsbD_of_ge _ _ (by omega : 64 ≤ i)]
  unfold Sys.combineMask at h ⊢
  split at h
  · rename_i hb
    obtain rfl := by simpa using h
    exact ⟨_, if_pos hb, fun i h9 h19 => by simp [hreq i h9 h19]⟩
  · rename_i hb
    split at h
    · rename_i hu
      obtain rfl := by simpa using h
      exact ⟨_, by rw [if_neg hb, if_pos hu], fun i h9 h19 => by simp [hreq i h9 h19]⟩
    · rename_i hu
      split at h
      · rename_i hs
        obtain rfl := by simpa using h
        exact ⟨_, by rw [if_neg hb, if_neg hu, if_pos hs], hreq⟩
      · simp at h

/-- What the filter takes out of a request are the signals 10 and 20 of the guest. -/
theorem requestable_keeps_iff (set : Sigset) :
    (∀ n, Maskable n → GuestHas set n → GuestHas (Sys.requestable set) n) ↔
      ¬ GuestHas set 10 ∧ ¬ GuestHas set 20 := by
  constructor
  · intro h
    refine ⟨fun h10 => ?_, fun h20 => ?_⟩
    · have := h 10 ⟨by decide, by decide, by decide, by decide⟩ h10
      rw [GuestHas, requestable_getLsbD _ _ (by decide)] at this
      simp at this
    · have := h 20 ⟨by decide, by decide, by decide, by decide⟩ h20
      rw [GuestHas, requestable_getLsbD _ _ (by decide)] at this
      simp at this
  · rintro ⟨h10, h20⟩ n ⟨h0, h64, -, -⟩ hn
    unfold nsig at h64
    unfold GuestHas at *
    rw [requestable_getLsbD _ _ (by omega), hn]
    have h9 : n - 1 ≠ 9 := fun h => by
      obtain rfl : n = 10 := by omega
      exact h10 hn
    have h19 : n - 1 ≠ 19 := fun h => by
      obtain rfl : n = 20 := by omega
      exact h20 hn
    simp [h9, h19]

namespace SetCall

def machineWith (bytes : Bytes) : Machine :=
  ⟨default, (Config.bare []).shared 0, ⟨⟨page, fun a => bytes.getD (a - 8) 0⟩, 0, false⟩⟩

/-- Exactly when a call that takes or hands back a signal set means the same by
it on both sides of the ABI. -/
theorem agrees_iff_fits {W : Type} (x : Env W) (c : SetCall) (m : Machine) (w : W)
    (h : c.Served (c.handler.run (exec x) (m, w)).1) :
    c.Agrees m (c.handler.run (exec x) (m, w)).2.1 ↔ c.Fits m := by
  rcases hr : c.handler.run (exec x) (m, w) with ⟨r, m', w'⟩
  have same : ∀ s : Sigset, (∀ n, Maskable n → (s.getLsbD n = true ↔ GuestHas s n)) ↔ Alike s :=
    fun s => readings_agree_iff s s fun _ _ _ => rfl
  have held : ∀ s k : Sigset, (∀ n, Maskable n → (HeldBack k n ↔ GuestHas s n)) ↔
      ∀ n, Maskable n → (k.getLsbD n = true ↔ GuestHas s n) :=
    fun s k => forall₂_congr fun n hn => by rw [heldBack_iff k n hn]
  rw [hr] at h
  simp only
  cases c with
  | procmask a =>
    obtain rfl : r = .ok 0 := h
    obtain ⟨hmask, hold⟩ := rtSigprocmask_spec x hr
    simp only [Agrees, Fits]
    refine and_congr ?_ (and_congr ?_ ?_)
    · rw [held, intended]
      split
      · rename_i h1
        rw [if_pos h1] at hmask
        rw [hmask]
        exact same _
      · rename_i h1
        rw [if_neg h1] at hmask
        obtain ⟨s, hs, hbits⟩ := combineMask_requestable hmask
        rw [hs, Option.getD_some]
        exact readings_agree_iff s _ hbits
    · refine imp_congr_right fun h2 => ?_
      rw [hold h2, ← same]
      exact forall₂_congr fun n hn => by rw [heldBack_iff _ n hn]; exact Iff.comm
    · exact imp_congr_right fun _ => requestable_keeps_iff _
  | suspend a =>
    have hmask := rtSigsuspend_spec x hr h
    simp only [Agrees, Fits]
    rw [hmask, held]
    exact same _
  | pending a =>
    obtain rfl : r = .ok 0 := h
    simp only [Agrees, Fits]
    rw [rtSigpending_spec x hr, ← same]
    exact forall₂_congr fun n _ => Iff.comm

/-- The mask of the signals 1 to 9 means the same on both sides. -/
theorem agrees_iff_fits_nine :
    (procmask ⟨sigSetmask, 8, 0, 8, 0, 0⟩).Agrees (machineWith [0xff, 1])
      ((procmask ⟨sigSetmask, 8, 0, 8, 0, 0⟩).handler.run (exec (.still Unit))
        (machineWith [0xff, 1], ())).2.1 := by
  refine (agrees_iff_fits (.still Unit) (procmask ⟨sigSetmask, 8, 0, 8, 0, 0⟩)
    (machineWith [0xff, 1]) () rfl).mpr ?_
  have hset : setIn (machineWith [0xff, 1]).inst.mem 8 = 0x1ff := rfl
  have hmask : intended ⟨sigSetmask, 8, 0, 8, 0, 0⟩ (machineWith [0xff, 1]) = 0x1ff := rfl
  have halike : ∀ n < 65, 2 ≤ n → n ≠ 10 → n ≠ 20 →
      (((0x1ff : Sigset).getLsbD (n - 1) = true) ↔ (0x1ff : Sigset).getLsbD (n - 1 - 1) = true) := by decide
  refine ⟨?_, fun h => absurd rfl h, fun _ => ?_⟩
  · rw [hmask]
    exact fun n hlow hhigh => halike n (by omega) hlow
  · show ¬ GuestHas (setIn (machineWith [0xff, 1]).inst.mem 8) 10 ∧
      ¬ GuestHas (setIn (machineWith [0xff, 1]).inst.mem 8) 20
    rw [hset]
    unfold GuestHas
    decide

/-- A guest that sets its mask to `SIGINT` has the kernel hold `SIGHUP` back instead. -/
theorem mask_sigint_holds_sighup :
    (procmask ⟨sigSetmask, 8, 0, 8, 0, 0⟩).Served ((procmask ⟨sigSetmask, 8, 0, 8, 0, 0⟩).handler.run
        (exec (.still Unit)) (machineWith [2], ())).1 ∧
      ¬ (procmask ⟨sigSetmask, 8, 0, 8, 0, 0⟩).Agrees (machineWith [2])
        ((procmask ⟨sigSetmask, 8, 0, 8, 0, 0⟩).handler.run (exec (.still Unit))
          (machineWith [2], ())).2.1 := by
  refine ⟨rfl, fun h => ?_⟩
  have hm : Maskable 2 := ⟨by decide, by decide, by decide, by decide⟩
  have hint := (h.1 2 hm).mpr (by unfold GuestHas; decide)
  rw [heldBack_iff _ 2 hm] at hint
  revert hint
  decide

end SetCall

end Wasmux
