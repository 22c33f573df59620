import Wasmux.Entries
import Wasmux.Histories

/-!
# What the shared state keeps

A property of the state that the processes share is upheld if every step of
the loop keeps it, and every handler, and what else a process does on its own.
Then it holds in every state that a session passes through, and what a process
asks meets there what the handlers were shown to meet.
-/

set_option autoImplicit false

namespace Wasmux
open Effects Abi

def KOp.isLoop : KOp → Prop
  | .machine _ _ => False
  | _ => True

theorem KOp.returns.isLoop {index : ℕ} {o : KOp} (h : o.returns index) : o.isLoop := by
  cases o with
  | machine => cases h
  | env | act => trivial

theorem loop_prepare (program : ProgramId) (argv : List Bytes) :
    (Scheduler.prepare program argv).Only KOp.isLoop := by
  apply (Scheduler.only_prepare program argv).mono
  intro o ho
  exact (ho.returns : o.returns 0).isLoop

theorem loop_replaceInstance (index : ℕ) : (Scheduler.replaceInstance index).Only KOp.isLoop :=
  (Scheduler.only_replaceInstance index).mono fun _ => KOp.returns.isLoop

/-- What holds of an operation of a process where it is performed. -/
def KOp.Within {W : Type} (D : Op → Machine × W → Prop) : KOp → Kernel × W → Prop
  | .machine i o, s => ∀ p, s.1.procs[i]? = some p → D o (s.1.machineOf p, s.2)
  | _, _ => True

/-- The shared state has `P`, and an operation of a process meets `B` there. -/
def KOp.Upheld {W : Type} (P : Shared → Prop) (B : Op → Machine × W → Prop) : KOp → Kernel × W → Prop
  | .machine i o, s => P s.1.shared ∧ (KOp.machine i o).Within B s
  | .act _, s => P s.1.shared
  | .env _, _ => True

def Op.minor : Op → Bool
  | .act (.compute _ _) => true
  | o => o.tends

/-- A program keeps `P` of the shared state, and its operations meet `B`. -/
abbrev Keeping {W ε α : Type} (x : Env W) (D B : Op → Machine × W → Prop) (P : Shared → Prop)
    (p : Program sig ε α) (s : Machine × W) : Prop :=
  Program.Meets (exec x) D (fun o s => P s.1.shared ∧ B o s) p (fun _ t => P t.1.shared) s

theorem keeping_catching {W ε δ α : Type} {x : Env W} {D B : Op → Machine × W → Prop} {P : Shared → Prop}
    {p : Program sig ε α} {s : Machine × W} (h : Keeping x D B P p s) :
    Keeping x D B P (p.catching : Program sig δ (Except ε α)) s := by
  unfold Keeping
  rw [Program.meets_catching]
  exact h

/-- What upholds a property of the shared state. -/
structure Upholds {W : Type} (x : Env W) (D B : Op → Machine × W → Prop) (P : Shared → Prop) : Prop where
  loop : ∀ (a : KAct) k, P k.shared → P (a.exec k).2.shared
  minor : ∀ o s, o.minor = true → P s.1.shared → B o s ∧ P (exec x o s).2.1.shared
  reads : ∀ fd len s, P s.1.shared → Keeping x D B P (readBytes fd len) s
  writes : ∀ fd data s, P s.1.shared → Keeping x D B P (writeBytes fd data) s
  handles : ∀ number args s, P s.1.shared → Keeping x D B P (handle number args) s

namespace Upholds
variable {α W : Type} {x : Env W} {D B : Op → Machine × W → Prop} {P : Shared → Prop}

theorem hosts (h : Upholds x D B P) : Hosts x D (fun o s => P s.1.shared ∧ B o s) (fun m => P m.shared)
    (fun m => P m.shared) fun m => P m.shared ∧ m.inst.unwinding = true where
  tends a s ha hs _ := (h.minor (.act a) s (by cases a <;> first | rfl | exact ha) hs).imp_left (And.intro hs)
  random n s hs _ := ⟨hs, (h.minor (.env (.random n)) s rfl hs).1⟩
  looks s hs _ := ⟨hs.1, (h.minor (.act .view) s rfl hs.1).1⟩
  computes mem sp s hs _ := (h.minor (.act (.compute mem sp)) s rfl hs).imp_left (And.intro hs)
  waits mem sp s hs _ := by
    obtain ⟨hb, hp⟩ := h.minor (.act (.compute mem sp)) s rfl hs.1
    exact ⟨⟨hs.1, hb⟩, hp, hs.2⟩
  handles number args s hs := (h.handles number args s hs).mono fun _ _ ht => ⟨fun _ => ht, fun _ => ht⟩
  leaves s hs _ := by
    obtain ⟨hb, hp⟩ := h.minor (.act (.unwind .exec)) s rfl hs
    exact ⟨⟨hs, hb⟩, hp, rfl⟩
  saved m hm := hm.2

theorem dispatch (h : Upholds x D B P) {ε : Type} (number : ℤ) (args : Args) {s : Machine × W}
    (hs : P s.1.shared) :
    Keeping x D B P (dispatch number args : Program sig ε Outcome) s := by
  apply (h.hosts.meets_dispatch number args hs).mono
  intro r t ht
  by_cases hr : r = .ok .exec
  · exact ht.1 hr
  · exact ht.2 hr

theorem runActs (h : Upholds x D B P) {ε : Type} (acts : List GuestAct) {s : Machine × W}
    (hs : P s.1.shared) :
    Keeping x D B P (runActs acts : Program sig ε Unit) s :=
  (h.hosts.meets_runActs acts (.inl hs)).mono fun _ _ ht => ht.elim id And.left

/-- What a process does as a program over its machine, it does in the kernel. -/
theorem onProc {p : Program sig Stop α} {index : ℕ} {s : Kernel × W} (hs : P s.1.shared)
    (hp : ∀ m w, P m.shared → Keeping x D B P p (m, w)) :
    Program.Meets (kexec x) (KOp.Within D) (KOp.Upheld P B) (onProc index p) (fun _ t => P t.1.shared) s := by
  obtain ⟨k, w⟩ := s
  rcases hproc : k.procs[index]? with _ | proc
  · refine meets_onProc_none hproc ?_ fun _ _ => hs
    refine fun o w => ⟨hs, fun q hq => ?_⟩
    exact absurd (hproc.symm.trans hq) (by simp)
  · refine meets_onProc hproc ?_ ?_ ?_ (hp (k.machineOf proc) w hs)
    · intro o m w hd
      exact hd _ (Kernel.putMachine_proc hproc m)
    · intro o m w hb
      refine ⟨hb.1, fun q hq => ?_⟩
      obtain rfl := Option.some.inj ((Kernel.putMachine_proc hproc m).symm.trans hq)
      exact hb.2
    · exact fun _ _ _ ht => ht

theorem loops (h : Upholds x D B P) {p : Sched α} (hp : p.Only KOp.isLoop) {s : Kernel × W}
    (hs : P s.1.shared) :
    Program.Meets (kexec x) (KOp.Within D) (KOp.Upheld P B) p (fun _ t => P t.1.shared) s := by
  refine Program.meets_only (B := KOp.isLoop) (I := fun t : Kernel × W => P t.1.shared) ?_ hp hs
  rintro o t ho ht -
  cases o with
  | machine => cases ho
  | env c => exact ⟨trivial, ht⟩
  | act a => exact ⟨ht, h.loop a t.1 ht⟩

theorem flush (h : Upholds x D B P) (index : ℕ) (fd : ℤ) (bytes : Bytes) (turns done : ℕ) {s : Kernel × W}
    (hs : P s.1.shared) : Program.Meets (kexec x) (KOp.Within D) (KOp.Upheld P B)
      (Scheduler.flush index fd bytes turns done) (fun _ t => P t.1.shared) s := by
  induction turns generalizing done s with
  | zero => exact hs
  | succ turns ih =>
    unfold Scheduler.flush
    split
    · exact hs
    apply Program.meets_bind (onProc hs fun m w hm => keeping_catching
      (h.writes fd (bytes.drop done) (m, w) hm))
    · intro answer t ht
      refine meets_kact fun _ => ⟨ht, ?_⟩
      have ht' := h.loop (.advance index ⟨fd, bytes.drop done, answer⟩) _ ht
      rcases answer with fault | n
      · cases fault <;> exact ht'
      · dsimp only
        split
        · exact ht'
        · exact ih _ ht'
    · exact fun _ _ ht => ht

theorem flushAll (h : Upholds x D B P) (index : ℕ) {s : Kernel × W} (hs : P s.1.shared) :
    Program.Meets (kexec x) (KOp.Within D) (KOp.Upheld P B) (Scheduler.flushAll index)
    (fun _ t => P t.1.shared) s := by
  unfold Scheduler.flushAll
  refine meets_kact fun _ => ⟨hs, ?_⟩
  have hs' : P ((KAct.host index).exec s.1).2.shared := hs
  split
  · apply Program.meets_bind (h.flush index 1 _ _ _ hs')
    · rintro (_ | _) t ht
      · apply Program.meets_bind (h.flush index 2 _ _ _ ht)
        · rintro (_ | _) u hu
          · exact hu
          · exact hu
        · exact fun _ _ hu => hu
      · exact ht
    · exact fun _ _ ht => ht
  · exact hs'

theorem drain (h : Upholds x D B P) (index turns : ℕ) {s : Kernel × W} (hs : P s.1.shared) :
    Program.Meets (kexec x) (KOp.Within D) (KOp.Upheld P B) (Scheduler.drain index turns)
    (fun _ t => P t.1.shared) s := by
  induction turns generalizing s with
  | zero => exact hs
  | succ turns ih =>
    unfold Scheduler.drain
    apply Program.meets_bind (onProc hs fun m w hm => keeping_catching (h.reads 0 8192 (m, w) hm))
    · rintro (fault | r) t ht
      · cases fault <;> exact ht
      · dsimp only
        split
        · exact ht
        · exact meets_kact fun _ => ⟨ht, ih (h.loop _ _ ht)⟩
    · exact fun _ _ ht => ht

theorem invoke (h : Upholds x D B P) (index : ℕ) {s : Kernel × W} (hs : P s.1.shared) :
    Program.Meets (kexec x) (KOp.Within D) (KOp.Upheld P B) (Scheduler.invoke index)
    (fun _ t => P t.1.shared) s := by
  unfold Scheduler.invoke
  refine meets_kact fun _ => ⟨hs, ?_⟩
  have hs' : P ((KAct.host index).exec s.1).2.shared := hs
  split
  · refine meets_kenv fun _ => ⟨trivial, ?_⟩
    split
    · exact meets_kact fun _ => ⟨hs', h.flushAll index (h.loop _ _ hs')⟩
    · apply Program.meets_ite
      · exact fun _ => meets_kact fun _ => ⟨hs', h.loop _ _ hs'⟩
      · exact fun _ => meets_kact fun _ => ⟨hs', h.flushAll index (h.loop _ _ hs')⟩
  · exact hs'

theorem stepHost (h : Upholds x D B P) (turns index : ℕ) {s : Kernel × W} (hs : P s.1.shared) :
    Program.Meets (kexec x) (KOp.Within D) (KOp.Upheld P B) (Scheduler.stepHost turns index)
      (fun _ t => P t.1.shared) s := by
  unfold Scheduler.stepHost
  refine meets_kact fun _ => ⟨hs, ?_⟩
  have hs' : P ((KAct.host index).exec s.1).2.shared := hs
  split
  · exact hs'
  split
  · split
    · apply Program.meets_bind (h.drain index turns hs')
      · rintro (_ | _) t ht
        · exact h.invoke index ht
        · exact ht
      · exact fun _ _ ht => ht
    · exact h.invoke index hs'
  · exact h.flushAll index hs'

theorem turns (h : Upholds x D B P) : Turns x (KOp.Within D) (KOp.Upheld P B) (fun k => P k.shared)
    (fun k _ => P k.shared) (fun k _ => P k.shared) where
  resumes a s _ hs _ := ⟨hs, h.loop a s.1 hs⟩
  env _ _ _ _ := trivial
  calls index number args s hs := (onProc hs fun _ _ hm => h.dispatch number args hm).mono
    fun _ _ ht => ⟨fun _ => ht, fun _ => ht⟩
  enters index acts s hs := (onProc hs fun _ _ hm => h.runActs acts hm).mono fun _ _ ht => .inl ht
  traps index kind s hs _ := ⟨hs.elim id id, h.loop _ _ (hs.elim id id)⟩
  comes index s hs _ := by
    have := h.loop (.takeSuspension index) s.1 (hs.elim id id)
    exact ⟨hs.elim id id, fun _ => this, fun _ => this⟩
  replaces index s hs := (h.loops (loop_replaceInstance index) hs).mono fun _ _ ht _ _ => ht
  hosts turns index s hs := (h.stepHost turns index hs).mono fun _ _ ht _ _ => ht

theorem kept (h : Upholds x D B P) : Kept x (KOp.Within D) (KOp.Upheld P B) fun k => P k.shared where
  idle a s _ hs _ := ⟨hs, h.loop a s.1 hs⟩
  env _ _ _ _ := trivial
  finish index status s hs _ := ⟨hs, h.loop (.finishProcess index status) s.1 hs⟩
  start program argv s hs _ := by
    apply (h.loops (loop_prepare program argv) hs).mono
    rintro r t ht (_ | launch) -
    · exact fun _ => ⟨ht, h.loop .abandonSpawn t.1 ht⟩
    · exact fun _ => ⟨ht, h.loop (.launchSpawn launch) t.1 ht⟩
  step turns index s hs := h.turns.step turns index hs

theorem keeps (h : Upholds x D B P)
    (hstep : ∀ o s, P s.1.shared → B o s → P (exec x o s).2.1.shared) (o : KOp) (s : Kernel × W)
    (hs : P s.1.shared) (ho : o.Upheld P B s) : P (kexec x o s).2.1.shared := by
  obtain ⟨k, w⟩ := s
  cases o with
  | env c => exact hs
  | act a => exact h.loop a k hs
  | machine i o =>
    rcases hp : k.procs[i]? with _ | p
    · rw [kexec_machine_none x hp]
      exact hs
    · rw [kexec_machine x hp]
      exact hstep o (k.machineOf p, w) hs (ho.2 p hp)

theorem reached (h : Upholds x D B P) (hstep : ∀ o s, P s.1.shared → B o s → P (exec x o s).2.1.shared)
    (hlasting : Lasting fun k => P k.shared) {C : KOp → Kernel × W → Prop}
    (hc : ∀ o s, C o s → KOp.Within D o s) {k : Kernel} {w : W} (hk : Reached x C k w) : P k.shared := by
  have hupheld := (h.kept.weaken hc fun _ _ ha => ha).reached hlasting.init hlasting.input hlasting.output hk
  apply reached_keeps hlasting.init ?_ hlasting.input hlasting.output hupheld
  exact fun o s hs ho => h.keeps hstep o s hs ho.2

end Upholds
end Wasmux
