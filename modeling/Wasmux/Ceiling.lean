import Wasmux.Balance
import Wasmux.Heap
import Wasmux.Histories

/-!
# What one process may have

Memory is made when a program is started, and grown by `brk` and `mmap`. Each
of the three looks at another quantity, and only `mmap` at the one that the
limit is about.
-/

set_option autoImplicit false

namespace Wasmux
open Effects Abi

/-- Memory is grown as `R` allows, of the size that it has, the pages asked for
and the limit of one process, and a guest by itself leaves no more than that limit. -/
def Op.Growing {W : Type} (R : ℕ → ℕ → ℕ → Prop) : Op → Machine × W → Prop
  | .act (.growMem pages), s => R s.1.inst.mem.size pages s.1.shared.limits.memoryPerProcess
  | .act (.compute mem _), s => mem.size ≤ s.1.shared.limits.memoryPerProcess
  | _, _ => True

/-- All of the new pages fit under the limit. -/
def within (size pages limit : ℕ) : Prop := size + pages * page ≤ limit

/-- The limit does not lie inside the last of the new pages. -/
def unbroken (size pages limit : ℕ) : Prop := size + pages * page ≤ limit ∨ limit ≤ size + (pages - 1) * page

theorem Op.growing_of_rare {W : Type} {R : ℕ → ℕ → ℕ → Prop} {κ : Kind}
    (hκ : ∀ a, κ.rare a = true → a.weighs = false) {o : Op} (h : ∀ a ∈ o.rare, κ.rare a = true)
    (s : Machine × W) : o.Growing R s := by
  cases o with
  | env => trivial
  | act a =>
    cases a with
    | growMem pages => cases hκ _ (h (.growMem pages) List.mem_cons_self)
    | compute mem sp => cases hκ _ (h (.compute mem sp) List.mem_cons_self)
    | _ => trivial

section
variable {ε α W : Type} {x : Env W} {C : Op → Machine × W → Prop} {R F : ℕ → ℕ → ℕ → Prop}

theorem meets_growing_calm {κ : Kind} {p : Handler α} (hp : Calm κ p)
    (hκ : ∀ a, κ.rare a = true → a.weighs = false) (s : Machine × W) :
    Program.Meets (exec x) C (Op.Growing R) p (fun _ _ => True) s :=
  hp.meets_kind (I := fun _ => True) (fun _ t h _ _ => ⟨Op.growing_of_rare hκ h t, trivial⟩) trivial

abbrev Grants (C : Op → Machine × W → Prop) (F : ℕ → ℕ → ℕ → Prop) : Prop := ∀ pages (t : Machine × W),
  C (.act (.growMem pages)) t → F t.1.inst.mem.size pages t.1.shared.limits.memoryPerProcess

/-- Memory is grown when the session and the engine both allow it. -/
theorem meets_growing_chargeAndGrow {pages : ℕ} {s : Machine × W} (hC : Grants C F)
    (h : s.1.Affords x s.2 pages → F s.1.inst.mem.size pages s.1.shared.limits.memoryPerProcess →
      R s.1.inst.mem.size pages s.1.shared.limits.memoryPerProcess) :
    Program.Meets (exec x) C (Op.Growing R) (chargeAndGrow pages) (fun _ _ => True) s := by
  obtain ⟨m, w⟩ := s
  refine meets_act fun _ => ⟨trivial, ?_⟩
  refine Program.meets_ite (fun hcharged => ?_) fun _ => trivial
  have hlimits := limits_chargeMemory m.shared (satMulU64 pages page)
  refine Program.meets_bind (P := fun _ _ => True) ?_ ?_ fun _ _ _ => trivial
  · refine meets_view fun _ => ⟨trivial, meets_env fun _ => ⟨trivial, ?_⟩⟩
    refine Program.meets_ite (fun hgranted => ?_) fun _ => trivial
    refine meets_act fun hc => ⟨?_, trivial⟩
    have hfits : F m.inst.mem.size pages
        (m.shared.chargeMemory (satMulU64 pages page)).2.limits.memoryPerProcess :=
      hC _ _ hc
    change R m.inst.mem.size pages (m.shared.chargeMemory (satMulU64 pages page)).2.limits.memoryPerProcess
    rw [hlimits] at hfits ⊢
    exact h ⟨hcharged, hgranted⟩ hfits
  · rintro (_ | previous) t -
    · exact meets_act fun _ => ⟨trivial, trivial⟩
    · exact meets_act fun _ => ⟨trivial, trivial⟩

theorem within_of_break {size request limit : ℕ} (hsize : size < request) (hrequest : request ≤ limit)
    (h : unbroken size (divCeil (request - size) page) limit) :
    within size (divCeil (request - size) page) limit := by
  rcases h with hfits | hbreaks
  · exact hfits
  · have hpages : divCeil (request - size) page = (request - size - 1) / page + 1 := by
      unfold divCeil page
      omega
    have hlast := Nat.div_mul_le_self (request - size - 1) page
    rw [hpages, Nat.add_sub_cancel] at hbreaks
    omega

theorem meets_growing_brk (a : Args) {s : Machine × W} (hC : Grants C F)
    (h : s.1.inst.mem.size < asU32 a.a0 → asU32 a.a0 ≤ s.1.shared.limits.memoryPerProcess →
      s.1.Affords x s.2 (divCeil (asU32 a.a0 - s.1.inst.mem.size) page) →
      F s.1.inst.mem.size (divCeil (asU32 a.a0 - s.1.inst.mem.size) page) s.1.shared.limits.memoryPerProcess →
      R s.1.inst.mem.size (divCeil (asU32 a.a0 - s.1.inst.mem.size) page)
      s.1.shared.limits.memoryPerProcess) :
    Program.Meets (exec x) C (Op.Growing R) (Sys.brk a) (fun _ _ => True) s := by
  refine meets_view fun _ => ⟨trivial, ?_⟩
  refine Program.meets_ite (fun _ => trivial) fun hasked => ?_
  obtain ⟨-, habove, hbelow⟩ : ¬ asU32 a.a0 = 0 ∧ ¬ asU32 a.a0 ≤ s.1.inst.mem.size ∧
    ¬ s.1.shared.limits.memoryPerProcess < asU32 a.a0 := by simpa [not_or] using hasked
  refine Program.meets_bind (meets_growing_chargeAndGrow hC fun hafford => ?_) ?_ fun _ _ _ => trivial
  · exact h (not_le.mp habove) (not_lt.mp hbelow) hafford
  · rintro (_ | previous) t - <;> trivial

/-- A mapping is granted with all its pages within the limit. -/
theorem meets_growing_mmap (hx : x.Paged) (a : Args) {s : Machine × W} (hC : Grants C F)
    (h : ∀ size pages limit, within size pages limit → R size pages limit) :
    Program.Meets (exec x) C (Op.Growing R) (Sys.mmap a) (fun _ _ => True) s := by
  have hstay : ∀ (p : Handler ℤ) (t : Machine × W), Calm { Kind.plain with loose := true } p →
      Program.Meets (exec x) C (Op.Growing R) p (fun _ _ => True) t := fun p t hp =>
    meets_growing_calm hp (fun _ h => by cases h) t
  unfold Sys.mmap
  dsimp only
  refine Program.meets_ite (fun _ => trivial) fun _ => ?_
  refine Program.meets_ite (fun _ => trivial) fun _ => ?_
  refine meets_view fun _ => ⟨trivial, ?_⟩
  refine Program.meets_ite (fun _ => trivial) fun hlimit => ?_
  apply Program.meets_bind (meets_growing_chargeAndGrow (R := R) hC ?_)
  · rintro (_ | previous) t -
    · trivial
    apply hstay
    refine calm_ite (steady_ret _).calm (calm_bind (silentH_lift _) fun r => ?_)
    split
    · refine calm_loose rfl (steady_catching_readMapping _ _ _).within fun r => ?_
      refine calm_bind (silentH_orVfsFault _) fun buffer => ?_
      exact (steady_bind (steady_put _ _) fun _ => steady_ret _).calm
    · exact (steady_fail _).calm
  · exact fun _ _ _ => trivial
  · rintro ⟨-, hgranted⟩ -
    apply h
    have hroom := hx.grant _ _ _ hgranted
    have hbytes : satMulU64 (divCeil (asU32 a.a1) page) page = divCeil (asU32 a.a1) page * page :=
      min_eq_right (pages_bound (asU32_lt a.a1))
    have hsum : satAddU64 s.1.inst.mem.size (divCeil (asU32 a.a1) page * page) =
        s.1.inst.mem.size + divCeil (asU32 a.a1) page * page := by
      apply satAddU64_eq
      unfold u64Max
      omega
    rw [hbytes] at hlimit
    have hwithin := not_lt.mp hlimit
    exact hsum.symm.trans_le hwithin

/-- No other call grows memory. -/
theorem meets_growing_handle (hx : x.Paged) (number : ℤ) (a : Args) {s : Machine × W} (hC : Grants C F)
    (hmap : ∀ size pages limit, within size pages limit → R size pages limit)
    (hbrk : Nr.ofInt number = .brk → s.1.inst.mem.size < asU32 a.a0 →
      asU32 a.a0 ≤ s.1.shared.limits.memoryPerProcess →
      s.1.Affords x s.2 (divCeil (asU32 a.a0 - s.1.inst.mem.size) page) →
      F s.1.inst.mem.size (divCeil (asU32 a.a0 - s.1.inst.mem.size) page) s.1.shared.limits.memoryPerProcess →
      R s.1.inst.mem.size (divCeil (asU32 a.a0 - s.1.inst.mem.size) page)
      s.1.shared.limits.memoryPerProcess) :
    Program.Meets (exec x) C (Op.Growing R) (handle number a) (fun _ _ => True) s := by
  have hcalm := calm_handle number a
  cases hnumber : Nr.ofInt number with
  | brk =>
    have hhandle : handle number a = Sys.brk a := by unfold handle; rw [hnumber]
    rw [hhandle]
    exact meets_growing_brk a hC (hbrk hnumber)
  | mmap =>
    have hhandle : handle number a = Sys.mmap a := by unfold handle; rw [hnumber]
    rw [hhandle]
    exact meets_growing_mmap hx a hC hmap
  | wait4 =>
    rw [hnumber] at hcalm
    refine meets_growing_calm hcalm (fun b hb => ?_) s
    cases b with
    | reap => rfl
    | _ => cases hb
  | _ =>
    rw [hnumber] at hcalm
    exact meets_growing_calm hcalm (fun _ h => by cases h) s

theorem meets_within_handle (hx : x.Paged) (number : ℤ) (a : Args) (s : Machine × W) :
    Program.Meets (exec x) (Op.Growing unbroken) (Op.Growing within) (handle number a)
    (fun _ _ => True) s := by
  apply meets_growing_handle hx number a (F := unbroken) (fun _ _ h => h)
  · exact fun _ _ _ h => h
  · exact fun _ habove hbelow _ => within_of_break habove hbelow

theorem growing_of_tends {a : Act} (h : a.tends = true) (s : Machine × W) : (Op.act a).Growing R s := by
  cases a with
  | growMem | compute => cases h
  | _ => trivial

theorem hosts_within (hx : x.Paged) :
    Hosts x (Op.Growing unbroken) (Op.Growing within) (fun _ => True) (fun _ => True)
    fun m => m.inst.unwinding = true where
  tends _ s ha _ _ := ⟨growing_of_tends ha s, trivial⟩
  random _ _ _ _ := trivial
  looks _ _ _ := trivial
  computes _ _ _ _ hc := ⟨hc, trivial⟩
  waits _ _ _ hs hc := ⟨hc, hs⟩
  handles number args s _ := (meets_within_handle hx number args s).mono fun _ _ _ =>
    ⟨fun _ => trivial, fun _ => trivial⟩
  leaves _ _ _ := ⟨trivial, rfl⟩
  saved _ hm := hm

/-- A program is given memory within the limit, and grows it so that no page
it asks for has the limit inside it. -/
def KOp.Fits (x : Env W) : KOp → Kernel × W → Prop
  | .machine i o, s => ∀ p, s.1.procs[i]? = some p → o.Growing unbroken (s.1.machineOf p, s.2)
  | .env (.grant base pages), s => (x.grant base pages s.2).1 = true →
    within base pages s.1.shared.limits.memoryPerProcess
  | _, _ => True

/-- What is asked for, or launched, is within the limit. -/
def KOp.Bounded : KOp → Kernel × W → Prop
  | .machine i o, s => ∀ p, s.1.procs[i]? = some p → o.Growing within (s.1.machineOf p, s.2)
  | .act (.launchSpawn launch), s | .act (.launchExec _ launch), s =>
    launch.size ≤ s.1.shared.limits.memoryPerProcess
  | _, _ => True

def KAct.launches : KAct → Bool
  | .launchSpawn _ | .launchExec _ _ => true
  | _ => false

theorem bounded_act {a : KAct} (h : a.launches = false) (s : Kernel × W) : (KOp.act a).Bounded s := by
  cases a with
  | launchSpawn | launchExec => cases h
  | _ => trivial

theorem meets_bounded {α : Type} {index : ℕ} {p : Program sig Stop α} {s : Kernel × W}
    (hp : ∀ t : Machine × W, Program.Meets (exec x) (Op.Growing unbroken) (Op.Growing within) p
      (fun _ _ => True) t) :
    Program.Meets (kexec x) (KOp.Fits x) KOp.Bounded (onProc index p) (fun _ _ => True) s := by
  obtain ⟨k, w⟩ := s
  rcases hproc : k.procs[index]? with _ | proc
  · refine meets_onProc_none hproc ?_ fun _ _ => trivial
    refine fun o w q hq => ?_
    exact absurd (hproc.symm.trans hq) (by simp)
  · refine meets_onProc hproc ?_ ?_ (fun _ _ _ _ => trivial) (hp (k.machineOf proc, w))
    · intro o m w hc
      exact hc _ (Kernel.putMachine_proc hproc m)
    · intro o m w ho q hq
      obtain rfl := Option.some.inj ((Kernel.putMachine_proc hproc m).symm.trans hq)
      exact ho

theorem bounded_none (t : Kernel × W) (launch : Launch)
    (h : (.ok none : Except Stop (Option Launch)) = .ok (some launch)) :
    launch.size ≤ t.1.shared.limits.memoryPerProcess := by cases h

/-- Memory that the engine grants a program is within the limit. -/
theorem meets_bounded_granted {inst : Instance} {base pages bytes data : ℕ}
    (hsize : inst.mem.size = base + pages * page) (s : Kernel × W) :
    Program.Meets (kexec x) (KOp.Fits x) KOp.Bounded (do
      if ← kact (.charge bytes) then
        if ← kenv (.grant base pages) then
          return some (.guest inst bytes data)
        else
          kact (.release bytes)
          return none
      else return none : Sched (Option Launch)) (fun r t =>
          ∀ launch, r = .ok (some launch) → launch.size ≤ t.1.shared.limits.memoryPerProcess) s := by
  refine meets_kact fun _ => ⟨trivial, ?_⟩
  refine Program.meets_ite (fun _ => ?_) fun _ => bounded_none _
  refine meets_kenv fun hfits => ⟨trivial, ?_⟩
  refine Program.meets_ite (fun hgranted => ?_) fun _ => meets_kact fun _ => ⟨trivial, bounded_none _⟩
  intro launch hlaunch
  obtain rfl := Option.some.inj (Except.ok.inj hlaunch)
  exact hsize.trans_le (hfits hgranted)

theorem meets_bounded_reserve (inst : Instance) (s : Kernel × W) :
    Program.Meets (kexec x) (KOp.Fits x) KOp.Bounded (Scheduler.reserve inst)
      (fun r t => ∀ launch, r = .ok (some launch) → launch.size ≤ t.1.shared.limits.memoryPerProcess) s :=
  meets_bounded_granted (Mem.size_grow inst.mem asyncifyPages) s

/-- A program made ready is within the limit. -/
theorem meets_bounded_prepare (program : ProgramId) (argv : List Bytes) (s : Kernel × W) :
    Program.Meets (kexec x) (KOp.Fits x) KOp.Bounded (Scheduler.prepare program argv)
      (fun r t => ∀ launch, r = .ok (some launch) → launch.size ≤ t.1.shared.limits.memoryPerProcess) s := by
  unfold Scheduler.prepare
  refine meets_kact fun _ => ⟨trivial, ?_⟩
  cases ((KAct.look).exec s.1).1.programs[program]? with
  | none => exact bounded_none _
  | some kind =>
    cases kind with
    | host command =>
      refine meets_kenv fun _ => ⟨trivial, ?_⟩
      rintro launch hlaunch
      obtain rfl := Option.some.inj (Except.ok.inj hlaunch)
      exact Nat.zero_le _
    | guest image =>
      refine meets_kenv fun _ => ⟨trivial, ?_⟩
      cases ((KCall.instantiate image).answer x s.2).1 with
      | none => exact bounded_none _
      | some inst => exact meets_bounded_reserve inst _

/-- What is launched and what is asked for is within the limit throughout. -/
theorem turns_bounded (hx : x.Paged) : Turns x (KOp.Fits x) KOp.Bounded (fun _ => True) (fun _ _ => True)
    fun _ _ => True where
  resumes a s ha _ _ := ⟨bounded_act (by cases a <;> first | rfl | cases ha) s, trivial⟩
  env _ _ _ _ := trivial
  calls index number args s _ := by
    refine (meets_bounded fun t => ?_).mono fun _ _ _ => ⟨fun _ => trivial, fun _ => trivial⟩
    exact ((hosts_within hx).meets_dispatch number args trivial).mono fun _ _ _ => trivial
  enters index acts s _ := by
    refine (meets_bounded fun t => ?_).mono fun _ _ _ => .inl trivial
    exact ((hosts_within hx).meets_runActs acts (.inl trivial)).mono fun _ _ _ => trivial
  traps _ _ _ _ _ := ⟨trivial, trivial⟩
  comes _ _ _ _ := ⟨trivial, fun _ => trivial, fun _ => trivial⟩
  replaces index s _ := by
    have hleaves : ∀ (r : Except Stop ProcStep) (t : Kernel × W), Leaves (fun _ => True) r t :=
      fun _ _ _ _ => trivial
    unfold Scheduler.replaceInstance
    refine meets_kact fun _ => ⟨trivial, ?_⟩
    cases ((KAct.execRequest index).exec s.1).1 with
    | none => exact hleaves (.ok (.ended (statusExited 126))) s
    | some spawn =>
      refine meets_kact fun _ => ⟨trivial, ?_⟩
      apply meets_next (P := fun prepared t => ∀ launch, prepared = some launch →
        launch.size ≤ t.1.shared.limits.memoryPerProcess)
        ((meets_bounded_prepare spawn.program spawn.argv _).mono ?_)
      · rintro (_ | launch) t ht
        · refine meets_kact fun _ => ⟨trivial, meets_closeFiles (fun _ _ _ _ => trivial) _ fun w => ?_⟩
          exact hleaves (.ok .stuck) (((KAct.abandonExec index).exec t.1).2, w)
        · exact meets_kact fun _ =>
            ⟨ht launch rfl, hleaves (.ok .replaced) (((KAct.launchExec index launch).exec t.1).2, t.2)⟩
      · rintro r t hr prepared rfl launch rfl
        exact hr launch rfl
  hosts turns index s _ := by
    refine (Program.meets_only (I := fun _ => True) ?_ (Scheduler.only_stepHost turns index) trivial).mono
      fun _ _ _ _ _ => trivial
    rintro o t ho - -
    refine ⟨?_, trivial⟩
    cases o with
    | env => trivial
    | act a => exact bounded_act (by cases a <;> first | rfl | cases ho) t
    | machine i o =>
      obtain ⟨-, hstreams⟩ := ho
      intro p _
      cases o with
      | env => trivial
      | act a =>
        cases a with
        | growMem | compute => cases hstreams
        | _ => trivial

theorem kept_bounded (hx : x.Paged) : Kept x (KOp.Fits x) KOp.Bounded fun _ => True where
  idle a s ha _ _ := ⟨bounded_act (by cases a <;> first | rfl | cases ha) s, trivial⟩
  env _ _ _ _ := trivial
  finish _ _ _ _ _ := ⟨trivial, trivial⟩
  start program argv s _ _ := by
    apply (meets_bounded_prepare program argv s).mono
    rintro r t ht (_ | launch) rfl
    · exact fun _ => ⟨trivial, trivial⟩
    · exact fun _ => ⟨ht launch rfl, trivial⟩
  step turns index _ hs := (turns_bounded hx).step turns index hs

end

def Kernel.Capped (k : Kernel) : Prop := ∀ p ∈ k.procs, p.inst.mem.size ≤ k.shared.limits.memoryPerProcess

theorem KAct.size_effect (a : KAct) (p : Proc) : (a.effect p).inst.mem.size = p.inst.mem.size := by
  cases a with
  | attach index =>
    simp only [effect]
    split <;> rfl
  | restoreJmp index buf value =>
    simp only [effect]
    split
    · rfl
    · split
      · rfl
      · rename_i mem hput
        exact Mem.put_size hput
  | _ => rfl

namespace Kernel.Capped
variable {k : Kernel}

theorem modify (h : k.Capped) {k' : Kernel} (index : ℕ) {f : Proc → Proc}
    (hlimits : k'.shared.limits = k.shared.limits) (hprocs : k'.procs = k.procs.modify index f)
    (hf : ∀ p, k.procs[index]? = some p → (f p).inst.mem.size ≤ k.shared.limits.memoryPerProcess) :
    k'.Capped := by
  intro q hq
  rw [hprocs] at hq
  rw [hlimits]
  obtain ⟨i, hi⟩ := List.getElem?_of_mem hq
  rw [List.getElem?_modify] at hi
  split at hi
  · rename_i heq
    subst heq
    obtain ⟨p, hp, rfl⟩ := Option.map_eq_some_iff.mp hi
    exact hf p hp
  · obtain ⟨p, hp, rfl⟩ := Option.map_eq_some_iff.mp hi
    exact h p (List.mem_of_getElem? hp)

theorem sub (h : k.Capped) {k' : Kernel} (hlimits : k'.shared.limits = k.shared.limits)
    (hprocs : ∀ p ∈ k'.procs, p ∈ k.procs) : k'.Capped := by
  intro p hp
  rw [hlimits]
  exact h p (hprocs p hp)

/-- The steps of the loop keep every process within the limit, if what they launch is. -/
theorem kact (h : k.Capped) {a : KAct} {W : Type} {w : W} (hlaunch : (KOp.act a).Bounded (k, w)) :
    (a.exec k).2.Capped := by
  have hlimits := a.limits_exec k
  cases htarget : a.target with
  | some i =>
    refine h.modify i hlimits (a.procs_target htarget k) fun p hp => ?_
    rw [a.size_effect]
    exact h p (List.mem_of_getElem? hp)
  | none =>
    cases hgathers : a.gathers with
    | false => exact h.sub hlimits fun p hp => (a.procs_untargeted htarget hgathers k) ▸ hp
    | true =>
      cases a with
      | launchSpawn launch =>
        have hsize : launch.size ≤ k.shared.limits.memoryPerProcess := hlaunch
        simp only [KAct.exec] at hlimits ⊢
        split
        · exact h
        · rename_i spawn rest _
          intro p hp
          rcases List.mem_append.mp hp with hp | hp
          · exact h p hp
          · obtain rfl := List.mem_singleton.mp hp
            exact (size_procOf spawn launch).trans_le hsize
      | finishProcess index status =>
        refine h.sub hlimits fun p hp => ?_
        simp only [KAct.exec, Kernel.finishProcess] at hp
        split at hp
        · exact hp
        · exact List.mem_of_mem_eraseIdx hp
      | abandonExec index =>
        refine h.sub hlimits fun p hp => ?_
        simp only [KAct.exec] at hp
        split at hp
        · exact hp
        · exact List.mem_of_mem_eraseIdx hp
      | launchExec index launch =>
        have hsize : launch.size ≤ k.shared.limits.memoryPerProcess := hlaunch
        refine h.modify index hlimits (f := Kernel.relaunch launch) rfl fun p hp => ?_
        unfold Kernel.relaunch
        split
        · exact (size_procOf _ launch).trans_le hsize
        · exact h p (List.mem_of_getElem? hp)
      | beginRun =>
        intro p hp
        obtain ⟨q, hq, rfl⟩ := List.mem_map.mp hp
        exact h q hq
      | _ => cases hgathers

end Kernel.Capped

section
variable {W : Type} {x : Env W}

theorem Op.size_exec {o : Op} {s : Machine × W} (hgrows : o.Growing within s)
    (h : s.1.inst.mem.size ≤ s.1.shared.limits.memoryPerProcess) :
    (exec x o s).2.1.inst.mem.size ≤ s.1.shared.limits.memoryPerProcess := by
  cases o with
  | env => exact h
  | act a =>
    cases hweighs : a.weighs with
    | false => exact (congrArg Prod.snd (a.weight_exec s.1 hweighs)).trans_le h
    | true =>
      cases a with
      | growMem pages => exact (Mem.size_grow s.1.inst.mem pages).trans_le hgrows
      | compute mem sp => exact max_le h hgrows
      | grew bytes => exact h
      | _ => cases hweighs

theorem Op.limits_exec (o : Op) (s : Machine × W) : (exec x o s).2.1.shared.limits = s.1.shared.limits :=
  congrArg Settings.limits (o.settings_exec x s)

theorem kexec_capped (o : KOp) (s : Kernel × W) (h : s.1.Capped) (hc : o.Bounded s) :
    (kexec x o s).2.1.Capped := by
  obtain ⟨k, w⟩ := s
  cases o with
  | env => exact h
  | act a => exact h.kact hc
  | machine i o =>
    rcases hp : k.procs[i]? with _ | p
    · rw [kexec_machine_none x hp]
      exact h
    · rw [kexec_machine x hp]
      refine h.modify i ?_ rfl fun q hq => ?_
      · exact o.limits_exec (k.machineOf p, w)
      · exact Op.size_exec (hc p hp) (h p (List.mem_of_getElem? hp))

theorem reached_capped (hx : x.Paged) {k : Kernel} {w : W} (h : Reached x (KOp.Fits x) k w) : k.Capped := by
  have hbounded := (kept_bounded hx).reached (fun _ _ _ _ => trivial) (fun _ _ _ _ => trivial)
    (fun _ _ _ _ => trivial) h
  refine reached_keeps (P := Kernel.Capped) ?_ (fun o s hs hc => kexec_capped o s hs hc.2)
    (fun _ _ _ hk => hk)
    (fun _ _ _ hk => hk) hbounded
  intro c started k hk p hp
  obtain ⟨fds, slab, rfl⟩ := c.kernel_eq hk
  cases hp

/-- A `brk` to a break within the limit, in a page that is not, which the session
and the engine have the memory for. -/
def Machine.Oversteps (x : Env W) (m : Machine) (w : W) (number : ℤ) (a : Args) : Prop :=
  Nr.ofInt number = .brk ∧ m.inst.mem.size < asU32 a.a0 ∧ asU32 a.a0 ≤ m.shared.limits.memoryPerProcess ∧
    m.shared.limits.memoryPerProcess < m.inst.mem.size + divCeil (asU32 a.a0 - m.inst.mem.size) page * page ∧
    m.Affords x w (divCeil (asU32 a.a0 - m.inst.mem.size) page)

variable {ε : Type} {number : ℤ} {a : Args} {m : Machine} {w : W}

theorem affords_counted {pages : ℕ} : m.counted.Affords x w pages ↔ m.Affords x w pages := by
  have hsame : (m.counted.shared.chargeMemory (satMulU64 pages page)).1 =
      (m.shared.chargeMemory (satMulU64 pages page)).1 := by
    unfold Shared.chargeMemory
    simp only [apply_ite Prod.fst]
    rfl
  unfold Machine.Affords
  rw [hsame]
  exact Iff.rfl

theorem along_of_not_oversteps (hx : x.Paged) (h : ¬ m.Oversteps x w number a) :
    Program.Along (exec x) (Op.Growing unbroken) (dispatch number a : Program sig ε Outcome) (m, w) := by
  have hmeets : Program.Meets (exec x) (fun _ _ => True) (Op.Growing unbroken)
      (dispatch number a : Program sig ε Outcome) (fun _ _ => True) (m, w) := by
    refine meets_act fun _ => ⟨trivial, ?_⟩
    refine Program.meets_bind (P := fun _ _ => True) ?_ (fun r t _ => ?_) fun _ _ _ => trivial
    · rw [Program.meets_catching]
      refine meets_growing_handle hx number a (F := fun _ _ _ => True)
        (fun _ _ _ => trivial) (fun _ _ _ => Or.inl) ?_
      intro hnumber habove hbelow hafford _
      by_contra hbreaks
      obtain ⟨hover, -⟩ := not_or.mp hbreaks
      exact h ⟨hnumber, habove, hbelow, not_le.mp hover, affords_counted.mp hafford⟩
    · refine Program.meets_only (I := fun _ => True)
        (fun o t ho _ _ => ⟨?_, trivial⟩) (tends_conclude r) trivial
      cases o with
      | env => trivial
      | act b => exact growing_of_tends ho t
  exact (hmeets.run (Program.along_of_forall _ (fun _ _ => trivial) _ _)).1

theorem run_brk_affords (habove : m.inst.mem.size < asU32 a.a0)
    (hbelow : asU32 a.a0 ≤ m.shared.limits.memoryPerProcess)
    (h : m.Affords x w (divCeil (asU32 a.a0 - m.inst.mem.size) page)) : ∃ v m' w',
    (Sys.brk a).run (exec x) (m, w) = (.ok v, (m', w')) ∧
    m'.inst.mem.size = m.inst.mem.size + divCeil (asU32 a.a0 - m.inst.mem.size) page * page := by
  obtain ⟨m', w', hgrow, hsize⟩ := run_chargeAndGrow h
  refine ⟨asI32 (asU32 a.a0), m', w', ?_, hsize⟩
  rw [run_brk, if_neg (not_or.mpr ⟨by omega, not_or.mpr ⟨not_le.mpr habove, not_lt.mpr hbelow⟩⟩)]
  exact Program.run_bind_ok (exec x) hgrow

theorem size_of_oversteps (h : m.Oversteps x w number a) : m.shared.limits.memoryPerProcess <
    ((dispatch number a : Program sig ε Outcome).run (exec x) (m, w)).2.1.inst.mem.size := by
  obtain ⟨hnumber, habove, hbelow, hover, hafford⟩ := h
  obtain ⟨v, m', w', hbrk, hsize⟩ :=
    run_brk_affords (m := m.counted) habove hbelow (affords_counted.mpr hafford)
  have hrun : (dispatch number a : Program sig ε Outcome).run (exec x) (m, w) =
      (conclude (.ok v) : Program sig ε Outcome).run (exec x) (m', w') := by
    change ((handle number a).catching >>= conclude : Program sig ε Outcome).run (exec x) (m.counted, w) = _
    rw [Program.run_bind, Program.run_catching, handle_brk hnumber, hbrk]
  rw [hrun]
  calc m.shared.limits.memoryPerProcess
      < m.inst.mem.size + divCeil (asU32 a.a0 - m.inst.mem.size) page * page := hover
    _ = m'.inst.mem.size := hsize.symm
    _ ≤ _ := size_le_run x _ (m', w')

theorem size_le_of_along {α : Type} {p : Program sig ε α}
    (h : m.inst.mem.size ≤ m.shared.limits.memoryPerProcess)
    (halong : Program.Along (exec x) (Op.Growing within) p (m, w)) :
    (p.run (exec x) (m, w)).2.1.inst.mem.size ≤ m.shared.limits.memoryPerProcess := by
  have hkeeps := Program.final_keeps_along (exec x) (P := fun t : Machine × W =>
    t.1.shared.limits = m.shared.limits ∧
    t.1.inst.mem.size ≤ t.1.shared.limits.memoryPerProcess) ?_ ⟨rfl, h⟩ halong
  · obtain ⟨hlimits, hsize⟩ := hkeeps
    rw [hlimits] at hsize
    exact hsize
  · rintro o t ⟨hlimits, hsize⟩ hgrows
    have hkept := o.limits_exec (x := x) t
    refine ⟨hkept.trans hlimits, ?_⟩
    rw [hkept]
    exact Op.size_exec hgrows hsize

theorem along_within (hx : x.Paged)
    (h : Program.Along (exec x) (Op.Growing unbroken) (dispatch number a : Program sig ε Outcome) (m, w)) :
    Program.Along (exec x) (Op.Growing within) (dispatch number a : Program sig ε Outcome) (m, w) :=
  (((hosts_within hx).meets_dispatch number a (s := (m, w)) trivial).run h).1

theorem size_dispatch_iff (hx : x.Paged) (h : m.inst.mem.size ≤ m.shared.limits.memoryPerProcess) :
    ((dispatch number a : Program sig ε Outcome).run (exec x) (m, w)).2.1.inst.mem.size ≤
      m.shared.limits.memoryPerProcess ↔ ¬ m.Oversteps x w number a := by
  constructor
  · exact fun hle hover => absurd hle (not_le.mpr (size_of_oversteps hover))
  · exact fun hnot => size_le_of_along h (along_within hx (along_of_not_oversteps hx hnot))

/-- Memory is given within the limit if and only if what is asked for is. -/
theorem granted_fits_iff {inst : Instance} {base pages bytes data : ℕ}
    (hsize : inst.mem.size = base + pages * page) {s t : Kernel × W} {launch : Launch} (h : (do
      if ← kact (.charge bytes) then
        if ← kenv (.grant base pages) then
          return some (.guest inst bytes data)
        else
          kact (.release bytes)
          return none
      else return none : Sched (Option Launch)).run (kexec x) s = (.ok (some launch), t)) :
    launch.size ≤ s.1.shared.limits.memoryPerProcess ↔
        within base pages s.1.shared.limits.memoryPerProcess := by
  obtain ⟨charged, s₁, -, h⟩ := Program.run_bind_eq_ok (kexec x) h
  cases charged with
  | false => cases h
  | true =>
    obtain ⟨granted, s₂, -, h⟩ := Program.run_bind_eq_ok (kexec x) h
    cases granted with
    | false => cases h
    | true =>
      obtain ⟨h, -⟩ := Prod.mk.inj h
      obtain rfl := Option.some.inj (Except.ok.inj h)
      exact iff_of_eq (congrArg (· ≤ s.1.shared.limits.memoryPerProcess) hsize)

theorem reserve_fits_iff {inst : Instance} {s t : Kernel × W} {launch : Launch}
    (h : (Scheduler.reserve inst).run (kexec x) s = (.ok (some launch), t)) :
    launch.size ≤ s.1.shared.limits.memoryPerProcess ↔
      within inst.mem.size asyncifyPages s.1.shared.limits.memoryPerProcess :=
  granted_fits_iff (Mem.size_grow inst.mem asyncifyPages) h

/-- No process outgrows its limit in a run where every program starts within it,
guests by themselves stay within it, and no page that is asked for has it inside.
A call asks for such a page, and leaves its process past the limit, exactly when
it oversteps; a program starts past it exactly when its own memory with the
scratch area is. -/
theorem memory_bounded_iff (hx : x.Paged) :
    (∀ k w, Reached x (KOp.Fits x) k w → k.Capped) ∧
    (∀ m w number a, m.inst.mem.size ≤ m.shared.limits.memoryPerProcess →
      (Program.Along (exec x) (Op.Growing unbroken) (dispatch number a : Program sig Stop Outcome) (m, w) ↔
        ¬ m.Oversteps x w number a) ∧
      (((dispatch number a : Program sig Stop Outcome).run (exec x) (m, w)).2.1.inst.mem.size ≤
        m.shared.limits.memoryPerProcess ↔ ¬ m.Oversteps x w number a)) ∧
    ∀ inst s launch t, (Scheduler.reserve inst).run (kexec x) s = (.ok (some launch), t) →
      (launch.size ≤ s.1.shared.limits.memoryPerProcess ↔
        within inst.mem.size asyncifyPages s.1.shared.limits.memoryPerProcess) := by
  refine ⟨fun k w h => reached_capped hx h, fun m w number a h => ⟨⟨fun halong => ?_, ?_⟩, ?_⟩, ?_⟩
  · exact (size_dispatch_iff hx h).mp (size_le_of_along h (along_within hx halong))
  · exact along_of_not_oversteps hx
  · exact size_dispatch_iff hx h
  · exact fun inst s launch t h => reserve_fits_iff h

end

/-- A guest of one page that moves its break into its eighteenth, with an engine
whose memories grow as far as addresses reach. -/
def Env.growing : Env (List GuestRun) :=
  { Env.scripted (.startingWith (argWords [0x110001, 0, 0, 0, 0, 0])) with
    grant := fun size pages w => (decide (size + pages * page ≤ 2^32), w) }

theorem growing_paged : Env.growing.Paged where
  instantiate := by
    intro image w inst h
    obtain rfl : (⟨.startingWith (argWords [0x110001, 0, 0, 0, 0, 0]), 0, false⟩ : Instance) = inst :=
      Option.some.inj h
    exact ⟨dvd_refl page, (by decide : page ≤ 2^32)⟩
  grant := fun size pages w h => of_decide_eq_true h

def Config.limited (limit : ℕ) : Config :=
    { Config.bare [.guest 0] with limits := ⟨2^32, limit, 64, 64, 2^20, none⟩ }

/-- A check for runs where all that is asked for fits. -/
def KOp.ample : KOp → Kernel → Bool
  | .machine i (.act (.growMem pages)), k => (k.procs[i]?).all fun p =>
    decide (p.inst.mem.size + pages * page ≤ k.shared.limits.memoryPerProcess)
  | .machine _ (.act (.compute mem _)), k => decide (mem.size ≤ k.shared.limits.memoryPerProcess)
  | .env (.grant base pages), k => decide (base + pages * page ≤ k.shared.limits.memoryPerProcess)
  | _, _ => true

theorem KOp.fits_of_ample {W : Type} {x : Env W} {o : KOp} {s : Kernel × W} (h : o.ample s.1 = true) :
    o.Fits x s := by
  cases o with
  | env c =>
    cases c with
    | grant base pages =>
      have hfits : base + pages * page ≤ s.1.shared.limits.memoryPerProcess := of_decide_eq_true h
      exact fun _ => hfits
    | _ => trivial
  | act => trivial
  | machine i o =>
    intro p hp
    cases o with
    | env => trivial
    | act a =>
      cases a with
      | growMem pages =>
        have hcheck : (s.1.procs[i]?).all (fun p =>
          decide (p.inst.mem.size + pages * page ≤ s.1.shared.limits.memoryPerProcess)) = true := h
        rw [hp] at hcheck
        exact .inl (of_decide_eq_true hcheck)
      | compute mem sp =>
        have hsize : mem.size ≤ s.1.shared.limits.memoryPerProcess := of_decide_eq_true h
        exact hsize
      | _ => trivial

/-- The guest has moved its break into the last page that it may have. -/
theorem memory_bounded_iff_grown : ∃ (k : Kernel) (w : List GuestRun),
    Reached Env.growing (KOp.Fits Env.growing) k w ∧ k.shared.limits.memoryPerProcess = 0x120000 ∧
    k.procs.map (fun p => p.inst.mem.size) = [0x120000] ∧ k.Capped := by
  have hstart : Between Env.growing (KOp.Fits Env.growing) ⟨_, none⟩ _ :=
    .start (Config.limited 0x120000) 0 _ _ [⟨[.syscall 214 0, .setjmp 0], none⟩] _ rfl
      (Program.along_of_checks _ (fun _ _ => KOp.fits_of_ample) (by decide +kernel)) rfl
  have hstep := Between.step _ _ _ _ 3 ⟨some 1, none⟩ .budget hstart
    (Program.along_of_checks _ (fun _ _ => KOp.fits_of_ample) (by decide +kernel)) rfl
  exact ⟨_, _, .between _ _ hstep, by decide +kernel, by decide +kernel,
    (memory_bounded_iff growing_paged).1 _ _ (.between _ _ hstep)⟩

/-- A program that is larger than the limit is started, and one within it moves
its break past it. -/
theorem memory_outgrown :
    (∃ (k : Kernel) (w : List GuestRun), Reached Env.growing (fun _ _ => True) k w ∧
      k.shared.limits.memoryPerProcess = 0x10000 ∧ ¬ k.Capped) ∧
    ∃ (k : Kernel) (w : List GuestRun), Reached Env.growing (fun _ _ => True) k w ∧
      k.shared.limits.memoryPerProcess = 0x110001 ∧ ¬ k.Capped := by
  have hover : ∀ {k : Kernel} {p : Proc}, k.procs[0]? = some p →
      k.shared.limits.memoryPerProcess < p.inst.mem.size → ¬ k.Capped := fun hp hsize hcapped =>
    absurd (hcapped _ (List.mem_of_getElem? hp)) (not_le.mpr hsize)
  constructor
  · have hstart : Between Env.growing (fun _ _ => True) ⟨_, none⟩ _ :=
      .start (Config.limited 0x10000) 0 _ _ [] _ rfl (Program.along_of_forall _ (fun _ _ => trivial) _ _) rfl
    exact ⟨_, _, .between _ _ hstart, rfl, hover rfl (by decide +kernel)⟩
  · have hspawn : (Config.limited 0x110001).drive Env.growing [⟨[.syscall 214 0, .setjmp 0], none⟩] 3
      [⟨some 1, none⟩] =
      some (_, _) := rfl
    exact ⟨_, _, .between _ _ (between_drive hspawn), rfl, hover rfl (by decide +kernel)⟩

end Wasmux
