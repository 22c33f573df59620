import Mathlib.Data.Finset.Lattice.Fold
import Mathlib.Data.Finset.Range
import Wasmux.Effects.Fuel
import Wasmux.Draining
import Wasmux.Rotation
import Wasmux.Serving

/-!
# How much one slice serves

A budget is compared between passes over the process list. Within a pass each
guest runs until one of its calls has its stack saved, and until then every call
it makes is served: a slice is bounded where what a guest is served in one entry is.
-/

set_option autoImplicit false

namespace Wasmux
open Effects Abi

/-! ## What a budget leaves room for -/

section
variable {α β W : Type} (x : Env W)

/-- The counter and what the run serves come to no more than `bound`, but for what
the counter has no room for. -/
def Within (bound : ℕ) (p : Sched α) (s : Kernel × W) : Prop :=
    s.1.shared.syscalls + served x p s ≤ bound + overflowed x p s

/-- The run enters guests for at most `b` calls each, and never has more than `live` processes. -/
structure Modest (b live : ℕ) (p : Sched α) (s : Kernel × W) : Prop where
  entries : Entries x b p s
  people : Program.Along (kexec x) (fun _ t => t.1.procs.length ≤ live) p s

variable {x} {bound b live : ℕ} {p : Sched α} {f : α → Sched β} {s t : Kernel × W}

theorem Modest.after (h : Modest x b live (p >>= f) s) {a : α} (hrun : p.run (kexec x) s = (.ok a, t)) :
    Modest x b live (f a) t where
  entries := h.entries.later (Program.comes_bind _ hrun)
  people := ((Program.along_bind _ _ _ _ _).mp h.people).2 a t hrun

/-- A first part that ends within the bound, and what follows from there on. -/
theorem within_bind (hs : s.1.Counted) (herror : Within x bound p s)
    (hok : ∀ a t, p.run (kexec x) s = (.ok a, t) → Within x bound (f a) t) : Within x bound (p >>= f) s := by
  unfold Within served overflowed at *
  rcases hrun : p.run (kexec x) s with ⟨r, t⟩
  cases r with
  | error e =>
    rw [Program.weighed_bind_error _ _ hrun, Program.weighed_bind_error _ _ hrun]
    exact herror
  | ok a =>
    have hcount : t.1.shared.syscalls + p.weighed (kexec x) KOp.overflowing s =
        s.1.shared.syscalls + p.weighed (kexec x) KOp.serving s := by
      have hfinal := syscalls_final x p hs
      rwa [Program.final, hrun] at hfinal
    have hrest := hok a t hrun
    rw [Program.weighed_bind _ _ hrun, Program.weighed_bind _ _ hrun]
    omega

theorem within_after (hp : Scheduler.TakesAtMost 0 p) (hs : s.1.Counted) (hle : s.1.shared.syscalls ≤ bound)
    (hf : ∀ a t, p.run (kexec x) s = (.ok a, t) → t.1.Counted → t.1.shared.syscalls = s.1.shared.syscalls →
      Within x bound (f a) t) : Within x bound (p >>= f) s := by
  have hnone := hp.served_le x s
  refine within_bind hs (by unfold Within; omega) fun a t hrun => ?_
  obtain ⟨hsame, hcounted⟩ := syscalls_unserved hp hs hrun
  exact hf a t hrun hcounted hsame

theorem within_ret {a : α} (h : s.1.shared.syscalls ≤ bound) : Within x bound (.ret a) s := h

namespace Scheduler

theorem run_look {v : (KAct.look).Ans} (h : (kact .look).run (kexec x) s = (.ok v, t)) :
    v = s.1.look ∧ t = s := by
  obtain ⟨hv, rfl⟩ := Prod.mk.inj h
  exact ⟨(Except.ok.inj hv).symm, rfl⟩

/-- What comes after a pass: the slice is over, or the budget tells whether there is another one. -/
def afterPass (budget : Budget) (base : ℕ) (rest : Sched Slice) : Pass → Sched Slice
  | .finished status => return .finished status
  | .swept progressed => do
    let v ← kact .look
    if v.count = 0 then return .finished (v.exitStatus.getD 0)
    else if !progressed then return .idle (← kact .whyIdle)
    else if ← spent budget (v.syscalls - base) v.started then return .budget
    else rest

theorem passes_succ (budget : Budget) (base turns : ℕ) : passes budget base (turns + 1) = (do
    let v ← kact .look
    startPending v.spawned
    if ← pastDeadline then
      let v ← kact .look
      killAll (statusSignaled sigkill) v.count
      let v ← kact .look
      return .finished (v.exitStatus.getD (statusSignaled sigkill))
    else
      let v ← kact .look
      pass turns (v.count + 1) 0 false >>= afterPass budget base (passes budget base turns)) := rfl

theorem within_afterPass {budget : Budget} {limit base : ℕ} (hlimit : budget.syscalls = some limit)
    {rest : Sched Slice} (swept : Pass) (hs : s.1.Counted) (hbound : s.1.shared.syscalls ≤ bound)
    (hrest : ∀ t : Kernel × W, t.1.Counted → t.1.shared.syscalls ≤ base + limit → Modest x b live rest t →
      Within x bound rest t)
    (h : Modest x b live (afterPass budget base rest swept) s) :
    Within x bound (afterPass budget base rest swept) s := by
  cases swept with
  | finished status => exact within_ret hbound
  | swept progressed =>
    unfold afterPass at h ⊢
    refine within_after (takes_kact _) hs hbound fun v t ht hs₁ h₁ => ?_
    replace h := h.after ht
    obtain ⟨rfl, rfl⟩ := run_look ht
    split
    · exact within_ret hbound
    split
    · exact within_after (takes_kact _) hs hbound fun idle t ht hs₁ h₁ => within_ret (by omega)
    rename_i hcount hprogressed
    rw [if_neg hcount, if_neg hprogressed] at h
    refine within_after (takes_spent _ _ _) hs hbound fun done t ht hs₂ h₂ => ?_
    replace h := h.after ht
    cases done with
    | true => exact within_ret (by omega)
    | false =>
      have hmore := spent_more hlimit ht
      have hcount : t.1.shared.syscalls - base < limit := h₂ ▸ hmore
      exact hrest t hs₂ (by omega) h

/-- However many passes there are, the last of them starts with the budget not yet spent. -/
theorem within_passes {budget : Budget} {limit : ℕ} (hlimit : budget.syscalls = some limit) (base turns : ℕ)
    (hs : s.1.Counted) (hbase : s.1.shared.syscalls ≤ base + limit)
    (h : Modest x b live (passes budget base turns) s) :
    Within x (base + limit + (live + 1) * (b + 1)) (passes budget base turns) s := by
  induction turns generalizing s with
  | zero =>
    show s.1.shared.syscalls ≤ _
    omega
  | succ turns ih =>
    rw [passes_succ] at h ⊢
    refine within_after (takes_kact _) hs (by omega) fun v t ht hs₁ h₁ => ?_
    replace h := h.after ht
    refine within_after (takes_startPending _) hs₁ (by omega) fun _ t₂ ht hs₂ h₂ => ?_
    replace h := h.after ht
    refine within_after takes_pastDeadline hs₂ (by omega) fun past t₃ ht hs₃ h₃ => ?_
    replace h := h.after ht
    split
    · refine within_after (takes_kact _) hs₃ (by omega) fun v t₄ ht hs₄ h₄ => ?_
      refine within_after (takes_killAll _ _) hs₄ (by omega) fun _ t₅ ht hs₅ h₅ => ?_
      exact within_after (takes_kact _) hs₅ (by omega) fun v t₆ ht hs₆ h₆ => within_ret (by omega)
    · refine within_after (takes_kact _) hs₃ (by omega) fun v t₄ ht hs₄ h₄ => ?_
      rename_i hpast
      rw [if_neg hpast] at h
      have hlive := h.people.1
      replace h := h.after ht
      obtain ⟨rfl, rfl⟩ := run_look ht
      have hserved : served x (pass turns (t₄.1.look.count + 1) 0 false) t₄ ≤ (live + 1) * (b + 1) := by
        refine (serves_pass turns _ 0 false _ t₄ h.entries).trans (Nat.mul_le_mul_right _ ?_)
        exact Nat.succ_le_succ hlive
      refine within_bind hs₃ (by unfold Within; omega) fun swept t₅ ht => ?_
      have hcount := syscalls_final x (pass turns (t₄.1.look.count + 1) 0 false) hs₃
      have hcounted := counted_final x (pass turns (t₄.1.look.count + 1) 0 false) hs₃
      rw [Program.final, ht] at hcount hcounted
      have hbound : t₅.1.shared.syscalls ≤ base + limit + (live + 1) * (b + 1) := by
        replace hcount : t₅.1.shared.syscalls + _ = _ := hcount
        omega
      exact within_afterPass hlimit swept hcounted hbound (fun t ht hbase h => ih ht hbase h) (h.after ht)

end Scheduler
end

/-! ## Where a slice gives up -/

section
variable {ε : Type}

end

namespace Scheduler

end Scheduler

section
variable {W : Type} {x : Env W} {s t : Kernel × W}

namespace Scheduler

end Scheduler
end

/-! ## What more turns change -/

namespace Scheduler
open Program (Extends)

end Scheduler

/-! ## The slices of sessions -/

/-- A slice of a session, with a budget of calls. -/
structure Sliced where
  W : Type
  env : Env W
  kernel : Kernel
  world : W
  limit : ℕ
  reached : Between env (fun _ _ => True) ⟨kernel, none⟩ world

namespace Sliced
variable (s : Sliced)

def run (turns : ℕ) : Sched Slice := Scheduler.run turns ⟨some s.limit, none⟩

def served (turns : ℕ) : ℕ := Wasmux.served s.env (s.run turns) (s.kernel, s.world)

/-- It never has more than so many processes. -/
def Peopled (live : ℕ) : Prop := ∀ turns,
  Program.Along (kexec s.env) (fun _ t => t.1.procs.length ≤ live) (s.run turns) (s.kernel, s.world)

def HandsBack : Prop := ∃ turns slice, (s.run turns).result (kexec s.env) (s.kernel, s.world) = .ok slice

def operations (turns : ℕ) : ℕ := (s.run turns).operations (kexec s.env) (s.kernel, s.world)

/-- Each time it enters a guest, this is served at most `b` calls before its stack is
saved or it ends; at most as many calls come with the session's counter of calls
full; and from one call to the next there is only so much it asks for. -/
structure Brief (b : ℕ) : Prop where
  entries : ∀ turns, Entries s.env b (s.run turns) (s.kernel, s.world)
  counter : ∀ turns, overflowed s.env (s.run turns) (s.kernel, s.world) ≤ b
  moves : ∃ most : ℕ → ℕ, ∀ turns, s.operations turns ≤ most (s.served turns)

variable {s}

theorem counted (s : Sliced) : s.kernel.Counted := by
  refine between_keeps (P := Kernel.Counted) ?_ ?_ ?_ ?_ s.reached
  · intro c started k hk
    obtain ⟨fds, slab, rfl⟩ := c.kernel_eq hk
    exact Nat.zero_le _
  · exact fun o t ht _ => counted_kexec s.env o t ht
  · exact fun _ _ _ h => h
  · exact fun _ _ _ h => h

theorem served_le {b live : ℕ} (h : s.Brief b) (hlive : s.Peopled live) (turns : ℕ) :
    s.served turns ≤ s.limit + (live + 1) * (b + 1) + b := by
  have hmodest : Modest s.env b live (s.run turns) (s.kernel, s.world) := ⟨h.entries turns, hlive turns⟩
  have hwithin : Within s.env (s.kernel.shared.syscalls + s.limit + (live + 1) * (b + 1)) (s.run turns)
      (s.kernel, s.world) := by
    refine within_after (Scheduler.takes_kact _) s.counted (by show s.kernel.shared.syscalls ≤ _; omega)
      fun v t ht hs₁ h₁ => ?_
    replace hmodest := hmodest.after ht
    obtain ⟨rfl, rfl⟩ := Scheduler.run_look ht
    refine within_after (Scheduler.takes_kact _) hs₁ (by show s.kernel.shared.syscalls ≤ _; omega)
      fun _ t ht hs₂ h₂ => ?_
    exact Scheduler.within_passes rfl _ turns hs₂ (by rw [h₂]; exact Nat.le_add_right _ _) (hmodest.after ht)
  have hover := h.counter turns
  show Wasmux.served s.env (s.run turns) (s.kernel, s.world) ≤ _
  replace hwithin : s.kernel.shared.syscalls + Wasmux.served s.env (s.run turns) (s.kernel, s.world) ≤
    s.kernel.shared.syscalls + s.limit + (live + 1) * (b + 1) + overflowed s.env (s.run turns)
      (s.kernel, s.world) := hwithin
  omega

end Sliced

/-- The slices serve no more than a number that depends on the budget and the
number of processes alone, and hand control back. -/
def Bounded (slices : Set Sliced) : Prop := ∃ bound : ℕ → ℕ → ℕ, ∀ s ∈ slices, ∀ live, s.Peopled live →
  s.HandsBack ∧ ∀ turns, s.served turns ≤ bound s.limit live

/-- Where every guest makes at most `b` calls each time it is entered, so do the
guests of the slice. -/
theorem entries_of_guests {α W : Type} {x : Env W} {b : ℕ} (h : ∀ inst w, (x.guest inst w).1.calls ≤ b)
    (p : Sched α) (s : Kernel × W) : Entries x b p s := by
  intro index f u _
  unfold Scheduler.enter served
  refine (Program.weighed_bind_le (n := 0)
    (m := b) _ _ ((Scheduler.takes_kact _).served_le x u) fun found t _ => ?_).trans
    (Nat.zero_add b).le
  rcases found with _ | inst
  · exact Nat.zero_le _
  have hguest := (Scheduler.takes_kenv (.guest inst)).served_le x t
  refine (Program.weighed_bind_le (n := 0) (m := b) _ _ hguest fun run v hv => ?_).trans (Nat.zero_add b).le
  obtain rfl : (x.guest inst t.2).1 = run := Except.ok.inj (Prod.mk.inj hv).1
  refine (Program.weighed_bind_le (n := b) (m := 0) _ _ ?_ fun _ w _ => ?_).trans (Nat.add_zero b).le
  · exact ((Scheduler.takes_onProc (takes_runActs _)).served_le x v).trans (h inst t.2)
  · cases (x.guest inst t.2).1.trap with
    | some kind =>
      have hmessage : Scheduler.TakesAtMost 0 (kact (.trapMessage index kind) >>= fun _ =>
          (.ret (.ended (statusSignaled sigsegv)) : Sched ProcStep)) :=
        Program.atMost_after (Scheduler.takes_kact _) fun _ => Program.atMost_ret _
      exact hmessage.served_le x w
    | none => exact (Scheduler.takes_afterReturn index).served_le x w

section
variable {ε W : Type} (x : Env W)

def Op.serving (o : Op) (_ : Machine × W) : ℕ := if o.serves then 1 else 0

section
variable {α β : Type}

end

namespace Busy
variable {x} {count : ℕ} {k l : Kernel} {w : W}

end Busy

end

end Wasmux
