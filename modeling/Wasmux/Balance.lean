import Wasmux.Charges

/-!
# The balance of a session

A program that is started is charged for before it is there, and one that ends
or is replaced gives back what it was charged. Between two calls the session
counts exactly the memory that its guests have.
-/

set_option autoImplicit false

namespace Wasmux
open Counting Effects Abi

/-- The engine runs 32-bit modules: no memory starts larger than they can address. -/
structure Env.Wasm {W : Type} (x : Env W) : Prop where
  instantiate : ∀ image w inst, (x.instantiate image w).1 = some inst → inst.mem.size ≤ 2^32

namespace Launch

def charge : Launch → ℕ
  | .host _ _ => 0
  | .guest _ charged _ => charged

def size : Launch → ℕ
  | .host _ _ => 0
  | .guest inst _ _ => inst.mem.size

end Launch

theorem charge_procOf (spawn : Spawn) (launch : Launch) :
    (Kernel.procOf spawn launch).charge = launch.charge := by
  cases launch <;> rfl

theorem size_procOf (spawn : Spawn) (launch : Launch) :
    (Kernel.procOf spawn launch).inst.mem.size = launch.size := by
  cases launch <;> rfl

/-- Guest memory grows only by request, and the counter does not run over. -/
def KOp.Frugal : KOp → Kernel → Prop
  | .machine index o, k => ∀ p, k.procs[index]? = some p → o.Frugal (k.machineOf p)
  | .act (.charge bytes), k => k.shared.Fits bytes
  | _, _ => True

def KOp.rests : KOp → Bool
  | .machine _ o => o.rests
  | .act (.attach _) | .act (.endStep _ _) | .act (.finishProcess _ _) | .act (.releaseInstance _) => true
  | _ => false

def KOp.Level (o : KOp) (k : Kernel) : Prop := o.rests = true → k.Balanced

theorem klevel_of_not_rests {o : KOp} {k : Kernel} (h : o.rests = false) : o.Level k := by
  intro hrests
  rw [h] at hrests
  cases hrests

theorem klevel_of_prepares {o : KOp} (h : o.prepares) (k : Kernel) : o.Level k := by
  apply klevel_of_not_rests
  cases o with
  | machine => cases h
  | env => rfl
  | act a =>
    cases a with
    | look | charge | release => rfl
    | _ => cases h

/-- The kernel once a program was made ready: charged for it, and no more. -/
structure Kernel.Prepared (k : Kernel) (launch : Option Launch) (k' : Kernel) : Prop where
  kernel : k' = { k with shared := { k.shared with
    memoryUsed := k.shared.memoryUsed + launch.elim 0 Launch.charge } }
  sized : ∀ l, launch = some l → l.charge = l.size
  within : k'.shared.memoryUsed ≤ k'.shared.limits.memory
  counted : k'.shared.memoryUsed ≤ u64Max

section
variable {W : Type} {x : Env W} {C A : KOp → Kernel × W → Prop} {s : Kernel × W}

theorem prepared_none {k : Kernel} (hwithin : k.shared.memoryUsed ≤ k.shared.limits.memory)
    (hcounted : k.shared.memoryUsed ≤ u64Max) : k.Prepared none k :=
  ⟨rfl, fun l hl => (by cases hl), hwithin, hcounted⟩

theorem prepared_guest {k : Kernel} {inst : Instance} {bytes data : ℕ} (hsize : bytes = inst.mem.size)
    (hwithin : k.shared.memoryUsed + bytes ≤ k.shared.limits.memory)
    (hcounted : k.shared.memoryUsed + bytes ≤ u64Max) : k.Prepared (some (.guest inst bytes data))
      { k with shared := { k.shared with memoryUsed := k.shared.memoryUsed + bytes } } := by
  refine ⟨rfl, ?_, hwithin, hcounted⟩
  intro launch hlaunch
  obtain rfl := by simpa using hlaunch
  exact hsize

theorem meets_kcharge {α : Type} {bytes : ℕ} {f : Bool → Sched α} {Q : Except Stop α → Kernel × W → Prop}
    (hC : ∀ bytes s, C (.act (.charge bytes)) s → s.1.shared.Fits bytes) (hA : ∀ o s, o.prepares → A o s)
    (hrefused : Program.Meets (kexec x) C A (f false) Q s)
    (htaken : s.1.shared.memoryUsed + bytes ≤ s.1.shared.limits.memory →
      s.1.shared.memoryUsed + bytes ≤ u64Max → Program.Meets (kexec x) C A (f true) Q
        ({ s.1 with shared := { s.1.shared with memoryUsed := s.1.shared.memoryUsed + bytes } }, s.2)) :
    Program.Meets (kexec x) C A (kact (.charge bytes) >>= f) Q s := by
  apply meets_kact
  intro hc
  have hfits := hC _ _ hc
  refine ⟨hA _ _ trivial, ?_⟩
  change Program.Meets _ _ _ (f (s.1.shared.chargeMemory bytes).1) Q
    ({ s.1 with shared := (s.1.shared.chargeMemory bytes).2 }, s.2)
  rcases hcharge : s.1.shared.chargeMemory bytes with ⟨granted, sh⟩
  cases granted with
  | false =>
    have hsame : s.1.shared = sh := by
      unfold Shared.chargeMemory at hcharge
      split at hcharge
      · simpa using hcharge
      · cases hcharge
    rw [← hsame]
    exact hrefused
  | true =>
    obtain ⟨rfl, hwithin, hcounted⟩ := chargeMemory_spec hfits hcharge
    exact htaken hwithin hcounted

/-- Reserving is charging for a memory of this size, if the engine grants it. -/
theorem meets_granted (hC : ∀ bytes s, C (.act (.charge bytes)) s → s.1.shared.Fits bytes)
    (hA : ∀ o s, o.prepares → A o s) {inst : Instance} {base pages bytes data : ℕ}
    (hsize : bytes = inst.mem.size) (hwithin : s.1.shared.memoryUsed ≤ s.1.shared.limits.memory)
    (hcounted : s.1.shared.memoryUsed ≤ u64Max) :
    Program.Meets (kexec x) C A (do
      if ← kact (.charge bytes) then
        if ← kenv (.grant base pages) then
          return some (.guest inst bytes data)
        else
          kact (.release bytes)
          return none
      else return none) (fun r t => ∀ l, r = .ok l → s.1.Prepared l t.1) s := by
  have hnone : ∀ l, (.ok none : Except Stop (Option Launch)) = .ok l → s.1.Prepared l s.1 := by
    intro l hl
    obtain rfl : none = l := by simpa using hl
    exact prepared_none hwithin hcounted
  apply meets_kcharge hC hA
  · exact Program.meets_ite (fun h => (by cases h)) fun _ => hnone
  intro hlimit hroom
  refine Program.meets_ite (fun _ => ?_) fun h => absurd rfl h
  refine meets_kenv fun _ => ⟨hA _ _ (by rfl), Program.meets_ite (fun _ => ?_) fun _ => ?_⟩
  · intro l hl
    obtain rfl := by simpa using hl
    exact prepared_guest hsize hlimit hroom
  · refine meets_kact fun _ => ⟨hA _ _ trivial, ?_⟩
    have hback : ((KAct.release bytes).exec { s.1 with
      shared := { s.1.shared with memoryUsed := s.1.shared.memoryUsed + bytes } }).2 = s.1 := by
      simp [KAct.exec, Shared.releaseMemory]
    rw [hback]
    exact hnone

theorem meets_reserve (hC : ∀ bytes s, C (.act (.charge bytes)) s → s.1.shared.Fits bytes)
    (hA : ∀ o s, o.prepares → A o s) {inst : Instance} (hinst : inst.mem.size ≤ 2^32)
    (hwithin : s.1.shared.memoryUsed ≤ s.1.shared.limits.memory) (hcounted : s.1.shared.memoryUsed ≤ u64Max) :
    Program.Meets (kexec x) C A (Scheduler.reserve inst)
      (fun r t => ∀ l, r = .ok l → s.1.Prepared l t.1) s := by
  have hcharge : satAddU64 inst.mem.size (satMulU64 asyncifyPages page) = inst.mem.size +
      asyncifyPages * page := by
    have hmul : satMulU64 asyncifyPages page = asyncifyPages * page := by decide
    rw [hmul]
    apply satAddU64_eq
    unfold u64Max asyncifyPages page
    omega
  exact meets_granted hC hA (hcharge.trans (Mem.size_grow inst.mem asyncifyPages).symm) hwithin hcounted

theorem meets_prepare (hx : x.Wasm) (hC : ∀ bytes s, C (.act (.charge bytes)) s → s.1.shared.Fits bytes)
    (hA : ∀ o s, o.prepares → A o s) (program : ProgramId) (argv : List Bytes)
    (hwithin : s.1.shared.memoryUsed ≤ s.1.shared.limits.memory) (hcounted : s.1.shared.memoryUsed ≤ u64Max) :
    Program.Meets (kexec x) C A (Scheduler.prepare program argv)
      (fun r t => ∀ l, r = .ok l → s.1.Prepared l t.1) s := by
  have hnone : ∀ l, (.ok none : Except Stop (Option Launch)) = .ok l → s.1.Prepared l s.1 := by
    intro l hl
    obtain rfl : none = l := by simpa using hl
    exact prepared_none hwithin hcounted
  unfold Scheduler.prepare
  refine meets_kact fun _ => ⟨hA _ _ trivial, ?_⟩
  cases ((KAct.look).exec s.1).1.programs[program]? with
  | none => exact hnone
  | some kind =>
    cases kind with
    | host command =>
      refine meets_kenv fun _ => ⟨hA _ _ (by rfl), fun l hl => ?_⟩
      obtain rfl := by simpa using hl
      refine ⟨rfl, fun launch hlaunch => ?_, hwithin, hcounted⟩
      obtain rfl := by simpa using hlaunch
      rfl
    | guest image =>
      refine meets_kenv fun _ => ⟨hA _ _ (by rfl), ?_⟩
      cases hinst : ((KCall.instantiate image).answer x s.2).1 with
      | none => exact hnone
      | some inst => exact meets_reserve hC hA (hx.instantiate image s.2 inst hinst) hwithin hcounted

end

/-- A process whose instance is gone, and paid back for, with an `execve` pending. -/
structure Kernel.Vacated (k : Kernel) (index : ℕ) : Prop where
  used : k.shared.memoryUsed = k.chargeBut index
  sized : ∀ p ∈ k.procs.eraseIdx index, p.charge = p.inst.mem.size
  asked : ∃ p spawn, k.procs[index]? = some p ∧ p.ctx.execRequest = some spawn
  within : k.shared.memoryUsed ≤ k.shared.limits.memory
  counted : k.shared.memoryUsed ≤ u64Max

namespace Kernel
variable {k k' : Kernel} {index : ℕ}

theorem Vacated.erase (h : k.Vacated index) (hprocs : k'.procs = k.procs.eraseIdx index)
    (haccount : k'.shared.account = k.shared.account) : k'.Balanced := by
  have hused : k'.shared.memoryUsed = k.shared.memoryUsed := congrArg Account.memoryUsed haccount
  have hlimits : k'.shared.limits = k.shared.limits := congrArg Account.limits haccount
  constructor
  · rw [hused, hprocs]; exact h.used
  · rw [hprocs]; exact h.sized
  · rw [hused, hlimits]; exact h.within
  · rw [hused]; exact h.counted

theorem Vacated.launch (h : k.Vacated index) {launch : Launch} (hk : k.Prepared (some launch) k') :
    ((KAct.launchExec index launch).exec k').2.Balanced := by
  obtain ⟨rfl, hsized, hwithin, hcounted⟩ := hk
  obtain ⟨p, spawn, hat, hasked⟩ := h.asked
  have hnew : relaunch launch p = procOf spawn launch := by
    unfold relaunch
    rw [hasked]
  have hsum := sum_eraseIdx Proc.charge k.procs index p hat
  have hmod := sum_modify Proc.charge (relaunch launch) k.procs index p hat
  rw [hnew, charge_procOf] at hmod
  have hused := h.used
  unfold chargeBut at hused
  constructor
  · simp only [KAct.exec, modifyProc, Option.elim]
    omega
  · intro q hq
    obtain ⟨i, hi⟩ := List.mem_iff_getElem?.mp hq
    simp only [KAct.exec, modifyProc, List.getElem?_modify] at hi
    obtain ⟨r, hr, rfl⟩ := Option.map_eq_some_iff.mp hi
    split
    · rename_i hindex
      subst hindex
      rw [hat] at hr
      obtain rfl : p = r := by simpa using hr
      rw [hnew, charge_procOf, size_procOf]
      exact hsized launch rfl
    · rename_i hindex
      exact h.sized r (List.mem_eraseIdx_iff_getElem?.mpr ⟨i, Ne.symm hindex, hr⟩)
  · exact hwithin
  · exact hcounted

/-- A new process joins the others. -/
theorem Balanced.launch (h : k.Balanced) {launch : Launch} (hspawn : k.shared.spawn ≠ [])
    (hk : k.Prepared (some launch) k') : ((KAct.launchSpawn launch).exec k').2.Balanced := by
  obtain ⟨rfl, hsized, hwithin, hcounted⟩ := hk
  rcases hs : k.shared.spawn with _ | ⟨spawn, rest⟩
  · exact absurd hs hspawn
  have hused := h.used
  constructor
  · simp only [KAct.exec, hs, Option.elim, List.map_append, List.map_cons, List.map_nil, List.sum_append,
      List.sum_cons, List.sum_nil, charge_procOf]
    omega
  · intro q hq
    simp only [KAct.exec, hs, List.mem_append, List.mem_singleton] at hq
    rcases hq with hq | rfl
    · exact h.sized q hq
    · rw [charge_procOf, size_procOf]
      exact hsized launch rfl
  · simp only [KAct.exec, hs]
    exact hwithin
  · simp only [KAct.exec, hs]
    exact hcounted

/-- What a process was charged is given back, to the byte. -/
theorem Balanced.vacate (h : k.Balanced) {p : Proc} {spawn : Spawn} (hat : k.procs[index]? = some p)
    (hasked : p.ctx.execRequest = some spawn) : ((KAct.releaseInstance index).exec k).2.Vacated index := by
  have hsum := sum_eraseIdx Proc.charge k.procs index p hat
  have hused := h.used
  have hcounted := h.counted
  have hcharge : satAddU64 p.charged p.ctx.exec.grown = p.charge := satAddU64_eq (by
    change p.charge ≤ _
    omega)
  simp only [KAct.exec, hat, hcharge, modifyProc, Shared.releaseMemory]
  constructor
  · simp only [chargeBut, List.eraseIdx_modify_of_eq]
    omega
  · simp only [List.eraseIdx_modify_of_eq]
    exact fun q hq => h.sized q (List.mem_of_mem_eraseIdx hq)
  · simp only [List.getElem?_modify, hat, if_true, Option.map_eq_map, Option.map_some]
    exact ⟨_, spawn, rfl, hasked⟩
  · exact le_trans (Nat.sub_le _ _) h.within
  · exact le_trans (Nat.sub_le _ _) h.counted

theorem Balanced.release (h : k.Balanced) (index : ℕ) :
    ((KAct.releaseInstance index).exec k).2.shared.memoryUsed +
      ((k.procs[index]?).map fun p => p.inst.mem.size).getD 0 = k.shared.memoryUsed := by
  rcases hat : k.procs[index]? with _ | p
  · simp only [KAct.exec, hat]
    rfl
  have hsum := sum_eraseIdx Proc.charge k.procs index p hat
  have hsize := h.sized p (List.mem_of_getElem? hat)
  have hused := h.used
  have hcounted := h.counted
  have hcharge : satAddU64 p.charged p.ctx.exec.grown = p.charge := satAddU64_eq (by
    change p.charge ≤ _
    omega)
  simp only [KAct.exec, hat, hcharge, Shared.releaseMemory, Option.map_some, Option.getD_some]
  omega

/-- When a process ends the session counts less by what the process had. -/
theorem Balanced.finish (h : k.Balanced) (index : ℕ) (status : ℤ) :
    (k.finishProcess index status).2.Balanced ∧ (k.finishProcess index status).2.shared.memoryUsed +
      ((k.procs[index]?).map fun p => p.inst.mem.size).getD 0 = k.shared.memoryUsed := by
  have haccount := account_finishProcess k index status
  rcases hat : k.procs[index]? with _ | p
  · have hsame : k.finishProcess index status = ([], k) := by simp only [finishProcess, hat]
    rw [hsame]
    exact ⟨h, rfl⟩
  rw [hat] at haccount
  have hsum := sum_eraseIdx Proc.charge k.procs index p hat
  have hsize := h.sized p (List.mem_of_getElem? hat)
  have hwithin := h.within
  have hcounted := h.counted
  have htotal := h.used
  have hcharge : satAddU64 p.charged p.ctx.exec.grown = p.charge := satAddU64_eq (by
    change p.charge ≤ _
    omega)
  dsimp only at haccount
  rw [hcharge] at haccount
  have hused : (k.finishProcess index status).2.shared.memoryUsed = k.shared.memoryUsed - p.charge :=
    congrArg Account.memoryUsed haccount
  have hlimits : (k.finishProcess index status).2.shared.limits = k.shared.limits :=
    congrArg Account.limits haccount
  have hprocs : (k.finishProcess index status).2.procs = k.procs.eraseIdx index := by
    simp only [finishProcess, hat]
  constructor
  · constructor
    · rw [hused, hprocs]
      omega
    · rw [hprocs]
      exact fun q hq => h.sized q (List.mem_of_mem_eraseIdx hq)
    · rw [hused, hlimits]
      omega
    · rw [hused]
      omega
  · rw [hused]
    simp only [Option.map_some, Option.getD_some]
    omega

end Kernel

section
variable {W : Type} {x : Env W}

theorem meets_balanced {α : Type} {index : ℕ} {p : Program sig Stop α} {s : Kernel × W} (hs : s.1.Balanced)
    (hp : ∀ proc, s.1.procs[index]? = some proc → Program.Meets (exec x) (fun o t => o.Frugal t.1)
      (fun o t => o.Level proc.charged (s.1.chargeBut index) t.1) p
      (fun _ t => t.1.Balanced proc.charged (s.1.chargeBut index)) (s.1.machineOf proc, s.2)) :
    Program.Meets (kexec x) (fun o s => o.Frugal s.1) (fun o s => o.Level s.1) (onProc index p)
      (fun _ t => t.1.Balanced) s := by
  rcases hat : s.1.procs[index]? with _ | proc
  · exact meets_onProc_none hat (fun _ _ _ => hs) fun _ _ => hs
  · refine meets_onProc hat ?_ ?_ ?_ (hp proc hat)
    · intro o m w hc
      exact hc _ (Kernel.putMachine_proc hat m)
    · intro o m w ho hrests
      exact Kernel.balanced_put hs hat (ho hrests)
    · intro _ m w hm
      exact Kernel.balanced_put hs hat hm

theorem Kernel.Balanced.resumes {k : Kernel} (hk : k.Balanced) {a : KAct} (ha : a.resumes = true) :
    (a.exec k).2.Balanced := by
  cases a with
  | inst => exact hk
  | setResume index | rewind index | resumeWith index | saveJmp index =>
    exact hk.modify rfl rfl fun _ _ => ⟨rfl, rfl⟩
  | attach index =>
    simp only [KAct.exec]
    split
    · exact hk
    split
    · exact hk
    split
    · exact hk.congr rfl rfl
    · exact hk.modify rfl rfl fun _ _ => ⟨rfl, rfl⟩
  | restoreJmp index buf value =>
    simp only [KAct.exec]
    split
    · exact hk
    · rename_i q key snapshot sp hfound
      obtain ⟨q', hat, hq'⟩ := Option.bind_eq_some_iff.mp hfound
      obtain ⟨entry, -, hentry⟩ := Option.map_eq_some_iff.mp hq'
      obtain rfl : q' = q := congrArg Prod.fst hentry
      split
      · exact hk
      · rename_i mem hput
        refine hk.modify rfl rfl fun p hp => ⟨rfl, ?_⟩
        rw [hat] at hp
        obtain rfl : q' = p := by simpa using hp
        exact Mem.put_size hput
  | _ => cases ha

theorem Kernel.Balanced.advances {k : Kernel} (hk : k.Balanced) {index : ℕ} {o : KOp}
    (ho : o.advances index) (w : W) :
    (kexec x o (k, w)).2.1.Balanced := by
  cases o with
  | env c => exact hk
  | act a =>
    cases a with
    | host | noteHostPending => exact hk.congr rfl rfl
    | appendInput | setPhase | advance => exact hk.modify rfl rfl fun _ _ => ⟨rfl, rfl⟩
    | _ => cases ho
  | machine i o =>
    obtain ⟨-, hstreams⟩ := ho
    rcases hat : k.procs[i]? with _ | p
    · rw [kexec_machine_none x hat]
      exact hk
    · rw [kexec_machine x hat]
      cases o with
      | env c => exact Kernel.balanced_put hk hat (hk.machine hat)
      | act a =>
        have hlight : a.light = true := by
          cases a <;> first | rfl | cases hstreams
        exact Kernel.balanced_put hk hat (a.balanced_exec hlight (hk.machine hat))

theorem turns_balanced (hx : x.Wasm) : Turns x (fun o s => o.Frugal s.1) (fun o s => o.Level s.1)
    Kernel.Balanced (fun k _ => k.Balanced) (fun k _ => k.Balanced) where
  resumes a s ha hs _ := ⟨fun _ => hs, hs.resumes ha⟩
  env _ _ _ _ := klevel_of_not_rests rfl
  calls index number args s hs := by
    refine (meets_balanced hs fun proc hat => ?_).mono fun _ _ ht => ⟨fun _ => ht, fun _ => ht⟩
    refine ((hosts_balanced x).meets_dispatch number args (hs.machine hat)).mono fun r t ht => ?_
    by_cases hr : r = .ok .exec
    · exact ht.1 hr
    · exact ht.2 hr
  enters index acts s hs := by
    refine (meets_balanced hs fun proc hat => ?_).mono fun _ _ ht => .inl ht
    refine ((hosts_balanced x).meets_runActs acts (.inl (hs.machine hat))).mono fun _ _ ht => ?_
    exact ht.elim id And.left
  traps index kind s hs _ := by
    refine ⟨klevel_of_not_rests rfl, ?_⟩
    simp only [KAct.exec]
    split
    · exact hs.elim id id
    · exact (hs.elim id id).congr rfl rfl
  comes index s hs _ := by
    have hnext : ((KAct.takeSuspension index).exec s.1).2.Balanced :=
      (hs.elim id id).modify rfl rfl fun _ _ => ⟨rfl, rfl⟩
    exact ⟨klevel_of_not_rests rfl, fun _ => hnext, fun _ => hnext⟩
  replaces index s hs := by
    unfold Scheduler.replaceInstance
    refine meets_kact fun _ => ⟨klevel_of_not_rests rfl, ?_⟩
    rcases hr : ((KAct.execRequest index).exec s.1).1 with _ | spawn
    · exact leaves_ok _ hs
    obtain ⟨p, hat, hasked⟩ := Option.bind_eq_some_iff.mp hr
    have hvacant := hs.vacate hat hasked
    refine meets_kact fun _ => ⟨fun _ => hs, ?_⟩
    change Program.Meets _ _ _ _ _ (((KAct.releaseInstance index).exec s.1).2, s.2)
    generalize ((KAct.releaseInstance index).exec s.1).2 = k at hvacant ⊢
    apply meets_next (meets_prepare hx (fun _ _ hc => hc) (fun o s ho =>
      klevel_of_prepares ho s.1) _ _ hvacant.within hvacant.counted)
    rintro (_ | launch) t ht
    · refine meets_kact fun _ =>
        ⟨klevel_of_not_rests rfl, meets_closeFiles (fun _ _ _ _ => klevel_of_not_rests rfl) _ ?_⟩
      intro w
      apply leaves_ok
      obtain rfl : t.1 = k := ht.kernel
      obtain ⟨q, spawn', hq, hasked'⟩ := hvacant.asked
      simp only [KAct.exec, hq, Option.bind_some, hasked']
      exact hvacant.erase rfl (Shared.account_of_outer
        ((Shared.outer_setExit _ _ _).trans (Shared.outer_releaseFds _ _)))
    · refine meets_kact fun _ => ⟨klevel_of_not_rests rfl, leaves_ok _ ?_⟩
      exact hvacant.launch ht
  hosts turns index s hs := by
    have hmeets := Program.meets_only (x := kexec x) (C := fun o s => o.Frugal s.1)
      (A := fun o s => o.Level s.1) (I := fun s : Kernel × W => s.1.Balanced) ?_
      (Scheduler.only_stepHost turns index) hs
    · exact hmeets.mono fun r t ht _ _ => ht
    rintro o ⟨k, w⟩ ho hk _
    exact ⟨fun _ => hk, hk.advances ho w⟩

/-- Between any two steps of the loop the balance holds. -/
theorem kept_balanced (hx : x.Wasm) :
    Kept x (fun o s => o.Frugal s.1) (fun o s => o.Level s.1) Kernel.Balanced where
  idle a s ha hs _ := by
    refine ⟨fun _ => hs, ?_⟩
    cases a with
    | look | forceExit => exact hs.congr rfl rfl
    | whyIdle => exact hs.congr (KAct.account_exec .whyIdle s.1 rfl) s.1.whyIdle_procs
    | endStep index => exact hs.modify rfl rfl fun _ _ => ⟨rfl, rfl⟩
    | beginRun =>
      constructor
      · simp only [KAct.exec, List.map_map]
        exact hs.used
      · intro p hp
        obtain ⟨q, hq, rfl⟩ := List.mem_map.mp hp
        exact hs.sized q hq
      · exact hs.within
      · exact hs.counted
    | _ => cases ha
  env _ _ _ _ := klevel_of_not_rests rfl
  finish index status s hs _ := ⟨fun _ => hs, (hs.finish index status).1⟩
  start program argv s hs hspawn := by
    refine (meets_prepare hx (fun _ _ hc => hc) (fun o s ho =>
      klevel_of_prepares ho s.1) program argv hs.within hs.counted).mono ?_
    intro r t ht launch hr
    replace ht := ht launch hr
    cases launch with
    | none =>
      refine fun _ => ⟨klevel_of_not_rests rfl, ?_⟩
      obtain heq : t.1 = s.1 := ht.kernel
      rw [heq]
      refine hs.congr (KAct.account_exec .abandonSpawn s.1 rfl) ?_
      simp only [KAct.exec]
      split <;> rfl
    | some launch => exact fun _ => ⟨klevel_of_not_rests rfl, hs.launch hspawn ht⟩
  step turns index s hs := (turns_balanced hx).step turns index hs

end

/-- Where a session can be between two calls of its guests: its caller has
control, or a slice has come to a point where no call is under way. -/
inductive Resting {W : Type} (x : Env W) (C : KOp → Kernel × W → Prop) : Kernel → W → Prop
  | between (s : Session) (w : W) : Between x C s w → Resting x C s.kernel w
  | within (k : Kernel) (w : W) (turns : ℕ) (budget : Budget) (v : Program.Visit ksig (Kernel × W)) :
      Between x C ⟨k, none⟩ w → Program.Along (kexec x) C (Scheduler.run turns budget) (k, w) →
      v ∈ (Scheduler.run turns budget).trace (kexec x) (k, w) → v.op.rests = true →
      Resting x C v.before.1 v.before.2

theorem balanced_kernel {c : Config} {started : Instant} {k : Kernel} (h : c.kernel started = some k) :
    k.Balanced := by
  obtain ⟨fds, slab, rfl⟩ := c.kernel_eq h
  exact ⟨rfl, fun p hp => (by cases hp), Nat.zero_le _, Nat.zero_le _⟩

theorem Resting.balanced {W : Type} {x : Env W} (hx : x.Wasm) {k : Kernel} {w : W}
    (h : Resting x (fun o s => o.Frugal s.1) k w) : k.Balanced := by
  have hbetween : ∀ {s : Session} {w : W}, Between x (fun o s => o.Frugal s.1) s w →
      s.kernel.Balanced := fun hs =>
    ((kept_balanced hx).between (fun _ _ _ => balanced_kernel) (fun _ _ _ hk => hk.congr rfl rfl)
      (fun _ _ _ hk => hk.congr rfl rfl) hs).1
  cases h with
  | between s w hs => exact hbetween hs
  | within k w turns budget v hs hc hv hrests =>
    obtain ⟨hlevel, -⟩ := ((kept_balanced hx).run turns budget (s := (k, w)) (hbetween hs)).run hc
    exact (Program.along_iff_trace _ _ _ _).mp hlevel v hv hrests

/-- The session counts the memory its guests have, to the byte and within its
limit, and a process that ends or is replaced gives back what it had. -/
theorem memory_exact {W : Type} (x : Env W) (hx : x.Wasm) {k : Kernel} {w : W}
    (h : Resting x (fun o s => o.Frugal s.1) k w) :
    k.shared.memoryUsed = (k.procs.map fun p => p.charged + p.ctx.exec.grown).sum ∧
      k.shared.memoryUsed = (k.procs.map fun p => p.inst.mem.size).sum ∧
      k.shared.memoryUsed ≤ k.shared.limits.memory ∧
      (∀ index status, (k.finishProcess index status).2.shared.memoryUsed +
        ((k.procs[index]?).map fun p => p.inst.mem.size).getD 0 = k.shared.memoryUsed) ∧
      ∀ index, ((KAct.releaseInstance index).exec k).2.shared.memoryUsed +
        ((k.procs[index]?).map fun p => p.inst.mem.size).getD 0 = k.shared.memoryUsed := by
  have hk := h.balanced hx
  have hsizes : (k.procs.map fun p => p.inst.mem.size) = k.procs.map Proc.charge :=
    List.map_congr_left fun p hp => (hk.sized p hp).symm
  refine ⟨hk.used, ?_, hk.within, fun index status => (hk.finish index status).2, hk.release⟩
  rw [hsizes]
  exact hk.used

/-- `Op.Frugal` as a check, for sessions whose limit the counter reaches past. -/
def Op.scrimps : Op → Machine → Bool
  | .act (.charge _), m => decide (m.shared.limits.memory < u64Max)
  | .act (.compute mem _), m => decide (mem.size ≤ m.inst.mem.size)
  | _, _ => true

theorem Op.frugal_of_scrimps {o : Op} {m : Machine} (h : o.scrimps m = true) : o.Frugal m := by
  cases o with
  | env => trivial
  | act a =>
    cases a with
    | charge bytes => exact .inl (of_decide_eq_true h)
    | compute mem sp =>
      have hsize : mem.size ≤ m.inst.mem.size := of_decide_eq_true h
      exact hsize
    | _ => trivial

def KOp.scrimps : KOp → Kernel → Bool
  | .machine index o, k => (k.procs[index]?).all fun p => o.scrimps (k.machineOf p)
  | .act (.charge _), k => decide (k.shared.limits.memory < u64Max)
  | _, _ => true

theorem KOp.frugal_of_scrimps {o : KOp} {k : Kernel} (h : o.scrimps k = true) : o.Frugal k := by
  cases o with
  | env => trivial
  | machine index o =>
    intro p hp
    have hcheck : (k.procs[index]?).all (fun p => o.scrimps (k.machineOf p)) = true := h
    rw [hp] at hcheck
    exact Op.frugal_of_scrimps hcheck
  | act a =>
    cases a with
    | charge bytes => exact .inl (of_decide_eq_true h)
    | _ => trivial

/-- Guests of one page with the arguments of a `vfork`, of an `execve` of their
own program and of a `brk` into their eighteenth page. -/
abbrev Env.expands : Env (List GuestRun) :=
  .scripted (.startingWith (argWords [0x4100, 0, 0, 0, 0, 0, 72, 0, 0, 0, 0, 0, 0x110001, 0, 0, 0, 0, 0,
    0x6e69622f, 0x302f]))

theorem expands_wasm : Env.expands.Wasm where
  instantiate image w inst h := by
    obtain rfl : _ = inst := Option.some.inj h
    exact (by decide : page ≤ 2^32)

/-- A child moves its parent's break and ends. Another is replaced and moves its own. -/
def expansion : List GuestRun :=
  [⟨[.syscall 220 0, .syscall 214 48, .syscall 93 48, .syscall 220 0, .syscall 221 24, .setjmp 0], none⟩,
    ⟨[.setjmp 0, .setjmp 0], none⟩, ⟨[.syscall 214 48, .setjmp 0], none⟩]

theorem memory_exact_grown : ∃ (k : Kernel) (w : List GuestRun),
    Resting Env.expands (fun o s => o.Frugal s.1) k w ∧
    k.procs.map (fun p => p.ctx.exec.grown) = [page, page] ∧
    k.shared.memoryUsed = (k.procs.map fun p => p.inst.mem.size).sum := by
  have hstart : Between Env.expands (fun o s => o.Frugal s.1) ⟨_, none⟩ _ :=
    .start (.bare [.guest 0]) 0 _ _ expansion _ rfl
      (Program.along_of_checks _ (fun _ _ => KOp.frugal_of_scrimps) (by decide +kernel)) rfl
  have hstep := Between.step _ _ _ _ 3 ⟨some 6, none⟩ .budget hstart
    (Program.along_of_checks _ (fun _ _ => KOp.frugal_of_scrimps) (by decide +kernel)) rfl
  exact ⟨_, _, .between _ _ hstep, by decide +kernel, (memory_exact _ expands_wasm (.between _ _ hstep)).2.1⟩

end Wasmux
