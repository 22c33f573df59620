import Wasmux.Accounts
import Wasmux.Entries
import Wasmux.Steps

/-!
# What memory is charged for

Each instance is charged for its memory, to the byte: when it is started, and
when its heap grows. What the session counts as used is the sum, and it stays
within the limit.
-/

set_option autoImplicit false

namespace Wasmux
open Counting Effects Abi

section
variable {α W : Type} {x : Env W} {C : Op → Machine × W → Prop}

/-- A call makes no rare act but those of its kind, and keeps what these and
the common ones keep. -/
theorem Calm.meets_kind {κ : Kind} {p : Handler α} (hp : Calm κ p) {A : Op → Machine × W → Prop}
    {I : Machine × W → Prop} (h : ∀ o s, (∀ a ∈ o.rare, κ.rare a = true) → I s → C o s →
      A o s ∧ I (exec x o s).2) {s : Machine × W} (hs : I s) :
    Program.Meets (exec x) C A p (fun _ t => I t) s := by
  have hmeets := Program.meets_unmarked (x := exec x) (C := C) (A := fun o _ => ∀ a ∈ o.rare, κ.rare a = true)
    (M := footprint) (G := fun t => ∀ a ∈ t.rare, κ.rare a = true) (R := fun _ _ => True)
    (fun _ _ => trivial) ?_ ?_ (hp Mark.clear rfl rfl) ?_ (s := s) trivial
  · have hkeeps := Program.meets_invariant (x := exec x) (C := fun o s => C o s ∧ ∀ a ∈ o.rare,
      κ.rare a = true) (A := A)
      (fun o t ht hc => h o t hc.2 ht hc.1) p hs
    exact ((hmeets.cut hkeeps).weaken (fun _ _ => id) fun _ _ => And.right).mono fun _ _ => And.right
  · intro t o a hgood b hb
    exact hgood b (List.mem_append_right _ hb)
  · intro t o s _ hgood
    exact ⟨fun a ha => hgood a (List.mem_append_left _ ha), trivial⟩
  · intro u r hended a ha
    rcases hended.rare a ha with h | h
    · simp [Mark.clear] at h
    · exact h

end

/-- There is room in the counter for a charge, or a limit below its end. -/
def Shared.Fits (sh : Shared) (bytes : ℕ) : Prop := sh.limits.memory < u64Max ∨ sh.memoryUsed + bytes ≤ u64Max

theorem satAddU64_eq {a b : ℕ} (h : a + b ≤ u64Max) : satAddU64 a b = a + b := min_eq_right h

theorem chargeMemory_spec {sh sh' : Shared} {bytes : ℕ} (hfits : sh.Fits bytes)
    (h : sh.chargeMemory bytes = (true, sh')) :
    sh' = { sh with memoryUsed := sh.memoryUsed + bytes } ∧ sh.memoryUsed + bytes ≤ sh.limits.memory ∧
      sh.memoryUsed + bytes ≤ u64Max := by
  unfold Shared.chargeMemory at h
  split at h
  · cases h
  · rename_i hlimit
    have hsum : sh.memoryUsed + bytes ≤ u64Max := by
      by_contra hover
      have hsat : satAddU64 sh.memoryUsed bytes = u64Max := min_eq_left (by omega)
      rcases hfits with hbelow | hroom <;> omega
    rw [satAddU64_eq hsum] at h hlimit
    obtain ⟨-, rfl⟩ := by simpa using h
    exact ⟨rfl, by omega, hsum⟩

/-- What a machine weighs: what its heap grew by, and how large its memory is. -/
def Machine.weight (m : Machine) : ℕ × ℕ := (m.ctx.exec.grown, m.inst.mem.size)

def Act.weighs : Act → Bool
  | .growMem _ | .grew _ | .compute _ _ => true
  | _ => false

theorem Act.weight_exec (a : Act) (m : Machine) (h : a.weighs = false) : (a.exec m).2.weight = m.weight := by
  by_cases hshuffles : a.shuffles = true
  · obtain ⟨fds, descs, pipes, heq⟩ := a.shuffles_exec m hshuffles
    rw [heq]
    rfl
  cases a with
  | openDesc | dup | dupTo | close | pipe2 => exact absurd rfl hshuffles
  | growMem | grew | compute => cases h
  | put start data =>
    simp only [exec]
    split
    · rename_i mem hput
      exact congrArg (Prod.mk m.ctx.exec.grown) (Mem.put_size hput)
    · rfl
  | setCloexec fd on => simp only [exec]; split <;> rfl
  | fork =>
    simp only [exec, Machine.fork]
    split <;> rfl
  | vforkExit status =>
    simp only [exec, Machine.vforkExit]
    split <;> rfl
  | finishExec program exe argv envp =>
    simp only [exec, Machine.finishExec]
    split <;> rfl
  | unwind why =>
    have hput : ∀ (mem : Mem) start data, ((mem.put start data).toOption.getD mem).size = mem.size := by
      intro mem start data
      cases hp : mem.put start data with
      | error e => rfl
      | ok mem' => exact Mem.put_size hp
    refine congrArg (Prod.mk m.ctx.exec.grown) ?_
    simp only [exec, Machine.unwind, hput]
  | _ => rfl

/-- One process in a session: what it was charged for is what it has, and with
what the others were charged it is what the session counts. -/
structure Machine.Balanced (charged rest : ℕ) (m : Machine) : Prop where
  used : m.shared.memoryUsed = charged + m.ctx.exec.grown + rest
  sized : charged + m.ctx.exec.grown = m.inst.mem.size
  within : m.shared.memoryUsed ≤ m.shared.limits.memory
  counted : m.shared.memoryUsed ≤ u64Max

theorem Machine.Balanced.congr {charged rest : ℕ} {m m' : Machine} (h : m.Balanced charged rest)
    (hused : m'.shared.memoryUsed = m.shared.memoryUsed) (hlimits : m'.shared.limits = m.shared.limits)
    (hweight : m'.weight = m.weight) : m'.Balanced charged rest := by
  obtain ⟨hgrown, hsize⟩ : m'.ctx.exec.grown = m.ctx.exec.grown ∧ m'.inst.mem.size = m.inst.mem.size := by
    simpa [weight] using hweight
  constructor
  · rw [hused, hgrown]; exact h.used
  · rw [hgrown, hsize]; exact h.sized
  · rw [hused, hlimits]; exact h.within
  · rw [hused]; exact h.counted

def Act.light (a : Act) : Bool := !a.weighs && !a.accounts

theorem Act.balanced_exec {charged rest : ℕ} (a : Act) {m : Machine} (hlight : a.light = true)
    (h : m.Balanced charged rest) : (a.exec m).2.Balanced charged rest := by
  have hweighs : a.weighs = false := by
    cases a <;> first | rfl | cases hlight
  by_cases hserved : a = .served
  · subst hserved
    exact h.congr rfl rfl rfl
  · have hcounts : a.counts = false := by
      cases a <;> first | rfl | exact absurd rfl hserved | cases hlight
    have haccount := a.account_exec m hcounts
    refine h.congr ?_ ?_ (a.weight_exec m hweighs)
    · exact congrArg Account.memoryUsed haccount
    · exact congrArg Account.limits haccount

section
variable {W : Type} (x : Env W)

/-- Guest memory grows only by request, and the counter does not run over. -/
def Op.Frugal : Op → Machine → Prop
  | .act (.charge bytes), m => m.shared.Fits bytes
  | .act (.compute mem _), m => mem.size ≤ m.inst.mem.size
  | _, _ => True

def Op.rests : Op → Bool
  | .act .served | .act (.compute _ _) => true
  | _ => false

def Op.Level (charged rest : ℕ) (o : Op) (m : Machine) : Prop := o.rests = true → m.Balanced charged rest

variable {charged rest : ℕ}

/-- A handler that only does what its kind allows keeps the balance, unless
its kind is to change it. -/
theorem meets_light {α : Type} {p : Handler α} {κ : Kind} (hp : Calm κ p)
    (hκ : ∀ a, κ.rare a = true → a.light = true ∧ (Op.act a).rests = false) {s : Machine × W}
    (hs : s.1.Balanced charged rest) :
    Program.Meets (exec x) (fun o t => o.Frugal t.1) (fun o t => o.Level charged rest t.1) p
      (fun _ t => t.1.Balanced charged rest) s := by
  refine hp.meets_kind (I := fun t => t.1.Balanced charged rest) ?_ hs
  rintro o ⟨m, w⟩ hgood hm -
  cases o with
  | env c => exact ⟨fun h => (by cases h), hm⟩
  | act a =>
    by_cases hrare : a.rare = true
    · have hallowed : κ.rare a = true := hgood a (by simp [Op.rare, hrare])
      obtain ⟨hlight, hrests⟩ := hκ a hallowed
      refine ⟨fun h => ?_, a.balanced_exec hlight hm⟩
      rw [hrests] at h
      cases h
    · refine ⟨fun h => ?_, a.balanced_exec ?_ hm⟩
      · cases a <;> first | exact absurd rfl hrare | cases h
      · cases a <;> first | rfl | exact absurd rfl hrare

/-- A machine that was charged for more than it has yet. -/
structure Machine.Owing (charged rest bytes : ℕ) (m : Machine) : Prop where
  used : m.shared.memoryUsed = charged + m.ctx.exec.grown + rest + bytes
  sized : charged + m.ctx.exec.grown = m.inst.mem.size
  within : m.shared.memoryUsed ≤ m.shared.limits.memory
  counted : m.shared.memoryUsed ≤ u64Max

theorem Machine.Owing.grow {bytes : ℕ} {m : Machine} (h : m.Owing charged rest bytes) {mem : Mem}
    (hmem : mem.size = m.inst.mem.size + bytes) :
    ((Act.grew bytes).exec (m.setMem mem)).2.Balanced charged rest := by
  obtain ⟨hused, hsized, hwithin, hcounted⟩ := h
  have hsum : m.ctx.exec.grown + bytes ≤ u64Max := by omega
  have hgrown : ((Act.grew bytes).exec (m.setMem mem)).2.ctx.exec.grown = m.ctx.exec.grown + bytes :=
    satAddU64_eq hsum
  have hsize : ((Act.grew bytes).exec (m.setMem mem)).2.inst.mem.size = m.inst.mem.size + bytes := hmem
  constructor
  · rw [hgrown]
    change m.shared.memoryUsed = _
    omega
  · rw [hgrown, hsize]
    omega
  · exact hwithin
  · exact hcounted

theorem Machine.Owing.release {bytes : ℕ} {m : Machine} (h : m.Owing charged rest bytes) :
    ((Act.release bytes).exec m).2.Balanced charged rest := by
  obtain ⟨hused, hsized, hwithin, hcounted⟩ := h
  have hleft : ((Act.release bytes).exec m).2.shared.memoryUsed = m.shared.memoryUsed - bytes := rfl
  constructor
  · rw [hleft]
    change _ = charged + m.ctx.exec.grown + rest
    omega
  · exact hsized
  · rw [hleft]
    exact le_trans (Nat.sub_le _ _) hwithin
  · rw [hleft]
    exact le_trans (Nat.sub_le _ _) hcounted

theorem meets_memGrow {C A : Op → Machine × W → Prop} {pages : ℕ} {m : Machine} {w : W}
    {Q : Except Fault (Option ℕ) → Machine × W → Prop}
    (hA : ∀ o s, o.rests = false → A o s) (hnone : ∀ w, Q (.ok none) (m, w))
    (hsome : ∀ n mem w, mem.size = m.inst.mem.size + pages * page → Q (.ok (some n)) (m.setMem mem, w)) :
    Program.Meets (exec x) C A (memGrow pages) Q (m, w) := by
  refine meets_view fun _ => ⟨hA _ _ rfl, meets_env fun _ => ⟨hA _ _ rfl, ?_⟩⟩
  apply Program.meets_ite
  · intro _
    exact meets_act fun _ => ⟨hA _ _ rfl, hsome _ _ _ (Mem.size_grow _ _)⟩
  · intro _
    exact hnone _

theorem level_of_not_rests {o : Op} {m : Machine} (h : o.rests = false) : o.Level charged rest m := by
  intro hrests
  rw [h] at hrests
  cases hrests

/-- A charge that is refused changes nothing, and one that is taken is owed for. -/
theorem meets_charge {ε α : Type} {bytes : ℕ} {f : Bool → Program sig ε α}
    {Q : Except ε α → Machine × W → Prop} {C A : Op → Machine × W → Prop} {s : Machine × W}
    (hC : ∀ o t, C o t → o.Frugal t.1) (hA : ∀ o s, o.rests = false → A o s) (hs : s.1.Balanced charged rest)
    (hrefused : Program.Meets (exec x) C A (f false) Q s)
    (htaken : ∀ m, m.Owing charged rest bytes → Program.Meets (exec x) C A (f true) Q (m, s.2)) :
    Program.Meets (exec x) C A (act (.charge bytes) >>= f) Q s := by
  apply meets_act
  intro hc
  have hfits : s.1.shared.Fits bytes := hC _ _ hc
  refine ⟨hA _ _ rfl, ?_⟩
  change Program.Meets _ _ _ (f (s.1.shared.chargeMemory bytes).1) Q
    (s.1.setShared (s.1.shared.chargeMemory bytes).2, s.2)
  rcases hcharge : s.1.shared.chargeMemory bytes with ⟨granted, sh⟩
  cases granted with
  | false =>
    have hsame : s.1.shared = sh := by
      unfold Shared.chargeMemory at hcharge
      split at hcharge
      · simpa using hcharge
      · cases hcharge
    rw [← hsame]
    exact hrefused
  | true =>
    obtain ⟨rfl, hwithin, hcounted⟩ := chargeMemory_spec hfits hcharge
    exact htaken _ ⟨congrArg (· + bytes) hs.used, hs.sized, hwithin, hcounted⟩

/-- Memory is charged and grown by the same amount, or neither. -/
theorem meets_chargeAndGrow {pages : ℕ} (hpages : pages * page ≤ u64Max) {s : Machine × W}
    (hs : s.1.Balanced charged rest) :
    Program.Meets (exec x) (fun o t => o.Frugal t.1) (fun o t => o.Level charged rest t.1)
      (chargeAndGrow pages) (fun _ t => t.1.Balanced charged rest) s := by
  have hbytes : satMulU64 pages page = pages * page := min_eq_right hpages
  unfold chargeAndGrow
  rw [hbytes]
  apply meets_charge x (fun _ _ => id) (fun _ _ => level_of_not_rests) hs
  · exact Program.meets_ite (fun h => (by cases h)) fun _ => hs
  intro m howing
  refine Program.meets_ite (fun _ => ?_) fun h => absurd rfl h
  refine Program.meets_bind (P := fun r t => match r with
    | .ok none => t.1.Owing charged rest (pages * page)
    | .ok (some _) => ((Act.grew (pages * page)).exec t.1).2.Balanced charged rest
    | .error _ => False) ?_ ?_ fun e t h => h.elim
  · apply meets_memGrow x fun _ _ => level_of_not_rests
    · exact fun w => howing
    · exact fun n mem w hmem => howing.grow hmem
  · rintro (_ | previous) t ht
    · exact meets_act fun _ => ⟨level_of_not_rests rfl, ht.release⟩
    · exact meets_act fun _ => ⟨level_of_not_rests rfl, ht⟩

theorem pages_bound {n : ℕ} (h : n < 2^32) : divCeil n page * page ≤ u64Max := by
  have hdiv := Nat.div_mul_le_self (n + (page - 1)) page
  unfold divCeil u64Max
  unfold page at hdiv ⊢
  omega

theorem asU32_lt (n : ℤ) : asU32 n < 2^32 := by
  unfold asU32
  omega

theorem light_of_reaps (a : Act) (h : a.reaps = true) : a.light = true ∧ (Op.act a).rests = false := by
  cases a with
  | reap => exact ⟨rfl, rfl⟩
  | _ => cases h

theorem meets_brk (a : Args) {s : Machine × W} (hs : s.1.Balanced charged rest) :
    Program.Meets (exec x) (fun o t => o.Frugal t.1) (fun o t => o.Level charged rest t.1) (Sys.brk a)
      (fun _ t => t.1.Balanced charged rest) s := by
  unfold Sys.brk
  refine meets_view fun _ => ⟨fun h => (by cases h), ?_⟩
  apply Program.meets_ite
  · exact fun _ => hs
  intro _
  apply Program.meets_bind (meets_chargeAndGrow x
    (pages_bound (lt_of_le_of_lt (Nat.sub_le _ _) (asU32_lt a.a0))) hs)
  · rintro (_ | previous) t ht
    · exact ht
    · exact ht
  · exact fun _ _ ht => ht

theorem meets_mmap (a : Args) {s : Machine × W} (hs : s.1.Balanced charged rest) :
    Program.Meets (exec x) (fun o t => o.Frugal t.1) (fun o t => o.Level charged rest t.1) (Sys.mmap a)
      (fun _ t => t.1.Balanced charged rest) s := by
  have hstay : ∀ (p : Handler ℤ) (t : Machine × W), Calm { Kind.plain with loose := true } p →
      t.1.Balanced charged rest → Program.Meets (exec x) (fun o t => o.Frugal t.1)
        (fun o t => o.Level charged rest t.1) p (fun _ t => t.1.Balanced charged rest) t :=
    fun p t hp ht => meets_light x hp (fun a ha => (by cases ha)) ht
  unfold Sys.mmap
  dsimp only
  apply Program.meets_ite
  · exact fun _ => hs
  intro _
  apply Program.meets_ite
  · exact fun _ => hs
  intro _
  refine meets_view fun _ => ⟨fun h => (by cases h), ?_⟩
  apply Program.meets_ite
  · exact fun _ => hs
  intro _
  apply Program.meets_bind (meets_chargeAndGrow x (pages_bound (asU32_lt _)) hs)
  · rintro (_ | previous) t ht
    · exact ht
    apply hstay _ _ _ ht
    refine calm_ite (steady_ret _).calm (calm_bind (silentH_lift _) fun r => ?_)
    split
    · refine calm_loose rfl (steady_catching_readMapping _ _ _).within fun r => ?_
      refine calm_bind (silentH_orVfsFault _) fun buffer => ?_
      exact (steady_bind (steady_put _ _) fun _ => steady_ret _).calm
    · exact (steady_fail _).calm
  · exact fun _ _ ht => ht

/-- Every call keeps the balance. -/
theorem meets_handle_balanced (number : ℤ) (a : Args) {s : Machine × W} (hs : s.1.Balanced charged rest) :
    Program.Meets (exec x) (fun o t => o.Frugal t.1) (fun o t => o.Level charged rest t.1) (handle number a)
      (fun _ t => t.1.Balanced charged rest) s := by
  have hcalm := calm_handle number a
  cases hnumber : Nr.ofInt number with
  | brk =>
    have hhandle : handle number a = Sys.brk a := by unfold handle; rw [hnumber]
    rw [hhandle]
    exact meets_brk x a hs
  | mmap =>
    have hhandle : handle number a = Sys.mmap a := by unfold handle; rw [hnumber]
    rw [hhandle]
    exact meets_mmap x a hs
  | wait4 =>
    rw [hnumber] at hcalm
    exact meets_light x hcalm light_of_reaps hs
  | _ =>
    rw [hnumber] at hcalm
    exact meets_light x hcalm (fun b hb => (by cases hb)) hs

theorem light_of_tends {a : Act} (h : a.tends = true) : a.light = true := by
  cases a <;> first | rfl | cases h

theorem balanced_compute {m : Machine} (h : m.Balanced charged rest) {mem : Mem} (sp : ℕ)
    (hmem : mem.size ≤ m.inst.mem.size) : ((Act.compute mem sp).exec m).2.Balanced charged rest := by
  refine h.congr rfl rfl ?_
  exact congrArg (Prod.mk m.ctx.exec.grown) (max_eq_left hmem)

theorem hosts_balanced : Hosts x (fun o t => o.Frugal t.1) (fun o t => o.Level charged rest t.1)
    (Machine.Balanced charged rest) (Machine.Balanced charged rest)
    (fun m => m.Balanced charged rest ∧ m.inst.unwinding = true) where
  tends a _ ha hs _ := ⟨fun _ => hs, a.balanced_exec (light_of_tends ha) hs⟩
  random _ _ _ _ := level_of_not_rests rfl
  looks _ _ _ := level_of_not_rests rfl
  computes _ sp _ hs hc := ⟨fun _ => hs, balanced_compute hs sp hc⟩
  waits _ sp _ hs hc := ⟨fun _ => hs.1, balanced_compute hs.1 sp hc, hs.2⟩
  handles number args _ hs :=
    (meets_handle_balanced x number args hs).mono fun _ _ ht => ⟨fun _ => ht, fun _ => ht⟩
  leaves _ hs _ := ⟨level_of_not_rests rfl, (Act.unwind .exec).balanced_exec rfl hs, rfl⟩
  saved _ hm := hm.2

end

def Proc.charge (p : Proc) : ℕ := p.charged + p.ctx.exec.grown

/-- The session counts what its processes were charged for, which is what they have. -/
structure Kernel.Balanced (k : Kernel) : Prop where
  used : k.shared.memoryUsed = (k.procs.map Proc.charge).sum
  sized : ∀ p ∈ k.procs, p.charge = p.inst.mem.size
  within : k.shared.memoryUsed ≤ k.shared.limits.memory
  counted : k.shared.memoryUsed ≤ u64Max

namespace Kernel
variable {k k' : Kernel} {index : ℕ} {p : Proc}

def chargeBut (k : Kernel) (index : ℕ) : ℕ := ((k.procs.eraseIdx index).map Proc.charge).sum

theorem Balanced.congr (h : k.Balanced) (haccount : k'.shared.account = k.shared.account)
    (hprocs : k'.procs = k.procs) : k'.Balanced := by
  have hused : k'.shared.memoryUsed = k.shared.memoryUsed := congrArg Account.memoryUsed haccount
  have hlimits : k'.shared.limits = k.shared.limits := congrArg Account.limits haccount
  constructor
  · rw [hused, hprocs]; exact h.used
  · rw [hprocs]; exact h.sized
  · rw [hused, hlimits]; exact h.within
  · rw [hused]; exact h.counted

theorem Balanced.machine (h : k.Balanced) (hat : k.procs[index]? = some p) :
    (k.machineOf p).Balanced p.charged (k.chargeBut index) := by
  have hsum := sum_eraseIdx Proc.charge k.procs index p hat
  constructor
  · change k.shared.memoryUsed = p.charge + _
    rw [h.used, chargeBut]
    omega
  · exact h.sized p (List.mem_of_getElem? hat)
  · exact h.within
  · exact h.counted

theorem mem_modify {f : Proc → Proc} {q : Proc} (hat : k.procs[index]? = some p)
    (hq : q ∈ k.procs.modify index f) : q = f p ∨ q ∈ k.procs := by
  obtain ⟨i, hi⟩ := List.mem_iff_getElem?.mp hq
  rw [List.getElem?_modify] at hi
  obtain ⟨r, hr, rfl⟩ := Option.map_eq_some_iff.mp hi
  split
  · rename_i hindex
    subst hindex
    rw [hat] at hr
    obtain rfl : p = r := by simpa using hr
    exact .inl rfl
  · exact .inr (List.mem_of_getElem? hr)

theorem balanced_put (h : k.Balanced) (hat : k.procs[index]? = some p) {m : Machine}
    (hm : m.Balanced p.charged (k.chargeBut index)) :
    (k.putMachine index m).Balanced := by
  have hsum := sum_eraseIdx Proc.charge k.procs index p hat
  have hput := sum_modify Proc.charge (fun p => { p with ctx := m.ctx, inst := m.inst }) k.procs index p hat
  have hnew : Proc.charge { p with ctx := m.ctx, inst := m.inst } = p.charged + m.ctx.exec.grown := rfl
  rw [hnew] at hput
  constructor
  · have hused := hm.used
    unfold chargeBut at hused
    dsimp only [putMachine, modifyProc]
    omega
  · intro q hq
    rcases mem_modify hat hq with rfl | hq
    · exact hm.sized
    · exact h.sized q hq
  · exact hm.within
  · exact hm.counted

/-- Changing a process without touching what it was charged for or has. -/
theorem Balanced.modify (h : k.Balanced) {f : Proc → Proc} (hprocs : k'.procs = k.procs.modify index f)
    (haccount : k'.shared.account = k.shared.account)
    (hf : ∀ p, k.procs[index]? = some p → (f p).charge = p.charge ∧ (f p).inst.mem.size = p.inst.mem.size) :
    k'.Balanced := by
  rcases hat : k.procs[index]? with _ | p
  · refine h.congr haccount ?_
    rw [hprocs, List.modify_eq_self (by simpa using hat)]
  · have hused : k'.shared.memoryUsed = k.shared.memoryUsed := congrArg Account.memoryUsed haccount
    have hlimits : k'.shared.limits = k.shared.limits := congrArg Account.limits haccount
    obtain ⟨hcharge, hsize⟩ := hf p hat
    have hsum := sum_modify Proc.charge f k.procs index p hat
    constructor
    · rw [hused, hprocs, h.used]
      omega
    · intro q hq
      rw [hprocs] at hq
      rcases mem_modify hat hq with rfl | hq
      · rw [hcharge, hsize]
        exact h.sized p (List.mem_of_getElem? hat)
      · exact h.sized q hq
    · rw [hused, hlimits]; exact h.within
    · rw [hused]; exact h.counted

end Kernel

end Wasmux
