import Wasmux.Hosts
import Wasmux.Signals

/-!
# Signals sent to a host command

A guest fetches its signals itself. A host command has nobody to do it for it,
so it is for the scheduler to end it when a signal is pending that kills. Its
steps end with the status that its phase holds, which is one of an exit.
-/

set_option autoImplicit false

namespace Wasmux
open Effects Abi

/-- Signal `n` kills a task that nothing delivers it to: it is neither ignored
nor blocked and kills by default, or it is `SIGKILL`. -/
def Task.DiesOf (t : Task) (n : ℕ) : Prop := (0 < n ∧ n < nsig) ∧
  ((n : ℤ) = sigkill ∨ defaultKills n = true ∧ (t.action n).isIgnored n = false ∧ t.sigmask.getLsbD n = false)

/-- Signal `n` would kill the process at `index` if it were pending. -/
def Exposed (k : Kernel) (index n : ℕ) : Prop :=
  ∃ p r, k.procs[index]? = some p ∧ k.shared.record p.ctx.task.pid = some r ∧ p.ctx.task.DiesOf n

/-- Signal `n` is pending at the process at `index`, and kills. -/
def Condemned (k : Kernel) (index n : ℕ) : Prop :=
  ∃ p r, k.procs[index]? = some p ∧ k.shared.record p.ctx.task.pid = some r ∧ p.ctx.task.DiesOf n ∧
    r.pending.getLsbD n = true

/-- The operations that call a host command, or hand on what it wrote. -/
def KOp.attends : KOp → Prop
  | .env (.command _ _ _) => True
  | .machine _ (.env (.file _ (.write _))) => True
  | .machine _ (.act (.pipePut _ _)) => True
  | .machine _ (.act (.writeOutput _ _)) => True
  | _ => False

section
variable {W : Type} (x : Env W)

/-- Wherever in a step a signal is pending that kills, what is left of the step
ends the process by such a signal, and serves it no more. -/
def KillReaches (turns index : ℕ) (s : Kernel × W) : Prop :=
  ∀ q t, Program.Comes (kexec x) (Scheduler.stepProcess turns index) s q t → ∀ n, Condemned t.1 index n →
    (∃ m, Condemned t.1 index m ∧ (q.run (kexec x) t).1 = .ok (.ended (statusSignaled m))) ∧
    ∀ v ∈ q.trace (kexec x) t, ¬ v.op.attends

/-- A signal that kills is pending when the step starts, or its own writes raise one. -/
def Endangered (turns index : ℕ) (s : Kernel × W) : Prop := (∃ n, Condemned s.1 index n) ∨
  ∃ (n : ℕ) (rest : _ → Sched ProcStep) (t : Kernel × W),
  Program.Comes (kexec x) (Scheduler.stepProcess turns index) s
    (.call (KOp.machine index (.act (.raise n))) rest) t ∧ Exposed t.1 index n

end

/-! ## The status a host command ends with -/

def Phase.Courteous : Phase → Prop
  | .reading _ => True
  | .flushing status _ _ _ _ => ∃ code, status = statusExited code

/-- What a host process is to end with is the status of an exit. -/
def Kernel.Courteous (k : Kernel) : Prop := ∀ p ∈ k.procs, ∀ h, p.host = some h → h.phase.Courteous

def KOp.Courteous : KOp → Prop
  | .act (.setPhase _ phase) => phase.Courteous
  | _ => True

theorem Kernel.Phase.advance_courteous {fd : ℤ} {n : ℕ} {phase : Wasmux.Phase} (h : phase.Courteous) :
    (Phase.advance fd n phase).Courteous := by
  cases phase with
  | reading buffer => trivial
  | flushing status stdout stderr outDone errDone =>
    simp only [advance]
    split <;> exact h

theorem Kernel.Courteous.modifyHost {k : Kernel} (h : k.Courteous) (index : ℕ)
    {f : Wasmux.Phase → Wasmux.Phase} (hf : ∀ phase : Wasmux.Phase, phase.Courteous → (f phase).Courteous) :
    (k.modifyHost index f).Courteous := by
  intro p hp host hhost
  obtain ⟨j, hj⟩ := List.mem_iff_getElem?.mp hp
  simp only [Kernel.modifyHost, Kernel.modifyProc, List.getElem?_modify] at hj
  obtain ⟨q, hq, rfl⟩ := Option.map_eq_some_iff.mp hj
  have hq := h q (List.mem_of_getElem? hq)
  by_cases hij : index = j
  · rw [if_pos hij] at hhost
    obtain ⟨was, hwas, rfl⟩ := Option.map_eq_some_iff.mp hhost
    exact hf _ (hq was hwas)
  · rw [if_neg hij] at hhost
    exact hq host hhost

theorem Kernel.Courteous.back {k k' : Kernel} (h : k.Courteous)
    (hback : ∀ p ∈ k'.procs, ∀ phase, p.Emits phase → ∃ q ∈ k.procs, q.Emits phase) : k'.Courteous := by
  intro p hp host hhost
  cases hphase : host.phase with
  | reading buffer => trivial
  | flushing status stdout stderr outDone errDone =>
    obtain ⟨q, hq, -, host', hhost', hsame⟩ := hback p hp _ ⟨rfl, host, hhost, hphase⟩
    rw [← hsame]
    exact h q hq host' hhost'

theorem KAct.exec_courteous (a : KAct) (ha : (KOp.act a).Courteous) {k : Kernel} (hk : k.Courteous) :
    (a.exec k).2.Courteous := by
  by_cases hmute : (KOp.act a).mute
  · apply hk.back
    intro p hp phase hemits
    obtain ⟨q, hq, hwas, -⟩ := KAct.emits_back hmute hp hemits
    exact ⟨q, hq, hwas⟩
  · cases a with
    | setPhase i phase => exact hk.modifyHost i fun _ _ => ha
    | advance i offer => exact hk.modifyHost i fun _ => Kernel.Phase.advance_courteous
    | _ => exact absurd trivial hmute

section
variable {α W : Type} (x : Env W)

theorem kexec_courteous (o : KOp) (s : Kernel × W) (hs : s.1.Courteous) (ho : o.Courteous) :
    (kexec x o s).2.1.Courteous := by
  cases o with
  | act a => exact a.exec_courteous ho hs
  | env | machine =>
    apply hs.back
    intro p hp phase hemits
    obtain ⟨q, hq, hwas, -⟩ := emits_back x (by trivial) hp hemits
    exact ⟨q, hq, hwas⟩

theorem meets_courteous {p : Sched α} (hp : p.Only KOp.Courteous) {s : Kernel × W} (hs : s.1.Courteous) :
    Program.Meets (kexec x) (fun _ _ => True) (fun o _ => o.Courteous) p (fun _ t => t.1.Courteous) s := by
  refine Program.meets_only (B := KOp.Courteous) (I := fun t : Kernel × W => t.1.Courteous) ?_ hp hs
  intro o t ho ht _
  exact ⟨ho, kexec_courteous x o t ht ho⟩

end

theorem KOp.mute.courteous {o : KOp} (h : o.mute) : o.Courteous := by
  cases o with
  | machine | env => trivial
  | act a =>
    cases a with
    | setPhase => cases h
    | _ => trivial

theorem KOp.transfers.courteous {index : ℕ} {o : KOp} (h : o.transfers index) : o.Courteous := by
  cases o with
  | machine | env => trivial
  | act a =>
    cases a with
    | host | appendInput | advance => trivial
    | _ => cases h

namespace Scheduler

theorem courteous_prepare (program : ProgramId) (argv : List Bytes) :
    (prepare program argv).Only KOp.Courteous :=
  (only_prepare program argv).mono fun _ ho => ho.mute.courteous

theorem courteous_flushAll (index : ℕ) : (flushAll index).Only KOp.Courteous :=
  (only_flushAll index).mono fun _ => KOp.transfers.courteous

theorem courteous_drain (index turns : ℕ) : (drain index turns).Only KOp.Courteous :=
  (only_drain index turns).mono fun _ => KOp.transfers.courteous

theorem courteous_invoke (index : ℕ) : (invoke index).Only KOp.Courteous := by
  refine only_kact (a := .host index) trivial ?_
  intro view
  split
  · apply only_kenv trivial
    rintro (e | exit)
    · dsimp only
      split
      · exact only_kact trivial fun _ => trivial
      · exact only_kact ⟨_, rfl⟩ fun _ => courteous_flushAll index
    · exact only_kact ⟨_, rfl⟩ fun _ => courteous_flushAll index
  · trivial

theorem courteous_stepHost (turns index : ℕ) : (stepHost turns index).Only KOp.Courteous := by
  refine only_kact (a := .host index) trivial ?_
  intro view
  split
  · trivial
  · split
    · split
      · apply Program.only_bind (courteous_drain index turns)
        rintro (_ | _)
        · exact courteous_invoke index
        · trivial
      · exact courteous_invoke index
    · exact courteous_flushAll index

theorem courteous_stepProcess (turns index : ℕ) : (stepProcess turns index).Only KOp.Courteous :=
  only_stepProcess turns index (fun _ ho => ho.mute.courteous) (courteous_stepHost turns index)

end Scheduler

section
variable {W : Type} (x : Env W)

theorem kept_courteous : Kept x (fun _ _ => True) (fun o _ => o.Courteous) Kernel.Courteous where
  idle a s ha hs _ := by
    have hcourteous : (KOp.act a).Courteous := by
      cases a with
      | setPhase => cases ha
      | _ => trivial
    exact ⟨hcourteous, a.exec_courteous hcourteous hs⟩
  env c s _ _ := trivial
  finish index status s hs _ := ⟨trivial, (KAct.finishProcess index status).exec_courteous trivial hs⟩
  start program argv s hs _ := by
    apply (meets_courteous x (Scheduler.courteous_prepare program argv) hs).mono
    rintro r t ht (_ | launch) - -
    · exact ⟨trivial, KAct.abandonSpawn.exec_courteous trivial ht⟩
    · exact ⟨trivial, (KAct.launchSpawn launch).exec_courteous trivial ht⟩
  step turns index s hs :=
    (meets_courteous x (Scheduler.courteous_stepProcess turns index) hs).mono fun _ _ ht _ _ => ht

theorem courteous_reached {k : Kernel} {w : W} (h : Reached x (fun _ _ => True) k w) : k.Courteous := by
  have hinit : ∀ (c : Config) started k, c.kernel started = some k → k.Courteous := by
    intro c started k hk
    obtain ⟨fds, slab, rfl⟩ := c.kernel_eq hk
    intro p hp
    cases hp
  have hreached := (kept_courteous x).reached hinit (fun _ _ _ hk => hk) (fun _ _ _ hk => hk) h
  exact reached_keeps hinit (fun o s hs ho => kexec_courteous x o s hs ho.2) (fun _ _ _ hk => hk)
    (fun _ _ _ hk => hk) hreached

/-- A step of a host process that ends it does so with the status of an exit. -/
abbrev EndsItself (r : Except Stop ProcStep) (_ : Kernel × W) : Prop :=
  ∀ status, r = .ok (.ended status) → ∃ code, status = statusExited code

theorem meets_free {α : Type} (p : Sched α) (s : Kernel × W) :
    Program.Meets (kexec x) (fun _ _ => True) (fun _ _ => True) p (fun _ _ => True) s :=
  Program.meets_of_run (Program.along_of_forall _ (fun _ _ => trivial) _ _) trivial

theorem flushAll_ends (index : ℕ) {s : Kernel × W} (hs : s.1.Courteous) :
    Program.Meets (kexec x) (fun _ _ => True) (fun _ _ => True) (Scheduler.flushAll index) EndsItself s := by
  unfold Scheduler.flushAll
  refine meets_kact fun _ => ⟨trivial, ?_⟩
  have hview : ∀ view, ((KAct.host index).exec s.1).1 = some view → view.host.phase.Courteous := by
    intro view hview
    obtain ⟨p, hp, hh⟩ := Option.bind_eq_some_iff.mp hview
    obtain ⟨h, hhost, rfl⟩ := Option.map_eq_some_iff.mp hh
    exact hs p (List.mem_of_getElem? hp) h hhost
  generalize ((KAct.host index).exec s.1).1 = view at hview ⊢
  split
  · rename_i status stdout stderr outDone errDone argv envp cwd comm
    have hstatus : ∃ code, status = statusExited code := hview _ rfl
    apply Program.meets_bind (meets_free x _ _)
    · rintro (_ | _) t -
      · apply Program.meets_bind (meets_free x _ _)
        · rintro (_ | _) u -
          · exact fun _ h => by cases h; exact hstatus
          · exact fun _ h => by cases h
        · exact fun _ _ _ _ h => by cases h
      · exact fun _ h => by cases h
    · exact fun _ _ _ _ h => by cases h
  · exact fun _ h => by cases h

theorem invoke_ends (index : ℕ) {s : Kernel × W} (hs : s.1.Courteous) :
    Program.Meets (kexec x) (fun _ _ => True) (fun _ _ => True) (Scheduler.invoke index) EndsItself s := by
  have hflush : ∀ phase (t : Kernel × W), phase.Courteous → t.1.Courteous →
    Program.Meets (kexec x) (fun _ _ => True)
      (fun _ _ => True) (kact (.setPhase index phase) >>= fun _ => Scheduler.flushAll index) EndsItself t :=
    fun phase t hphase ht => meets_kact fun _ =>
      ⟨trivial, flushAll_ends x index ((KAct.setPhase index phase).exec_courteous hphase ht)⟩
  unfold Scheduler.invoke
  refine meets_kact fun _ => ⟨trivial, ?_⟩
  generalize ((KAct.host index).exec s.1).1 = view
  have hs' : ((KAct.host index).exec s.1).2.Courteous := hs
  split
  · refine meets_kenv fun _ => ⟨trivial, ?_⟩
    split
    · exact hflush _ _ ⟨_, rfl⟩ hs'
    · apply Program.meets_ite
      · exact fun _ => meets_kact fun _ => ⟨trivial, fun _ h => by cases h⟩
      · exact fun _ => hflush _ _ ⟨_, rfl⟩ hs'
  · exact fun _ h => by cases h

theorem stepHost_ends (turns index : ℕ) {s : Kernel × W} (hs : s.1.Courteous) :
    Program.Meets (kexec x) (fun _ _ => True)
    (fun _ _ => True) (Scheduler.stepHost turns index) EndsItself s := by
  unfold Scheduler.stepHost
  refine meets_kact fun _ => ⟨trivial, ?_⟩
  generalize ((KAct.host index).exec s.1).1 = view
  have hs' : ((KAct.host index).exec s.1).2.Courteous := hs
  split
  · exact fun _ h => by cases h
  split
  · split
    · have hdrain := (meets_courteous x (Scheduler.courteous_drain index turns)
        (s := (((KAct.host index).exec s.1).2, s.2)) hs').weaken (fun _ _ h => h) fun _ _ _ => trivial
      apply Program.meets_bind hdrain
      · rintro (_ | _) t ht
        · exact invoke_ends x index ht
        · exact fun _ h => by cases h
      · exact fun _ _ _ _ h => by cases h
    · exact invoke_ends x index hs'
  · exact flushAll_ends x index hs'

theorem stepProcess_ends (turns index : ℕ) {s : Kernel × W} {p : Proc} {host : HostProc}
    (hp : s.1.procs[index]? = some p) (hhost : p.host = some host) (hs : s.1.Courteous) :
    Program.Meets (kexec x) (fun _ _ => True) (fun _ _ =>
        True) (Scheduler.stepProcess turns index) EndsItself s := by
  unfold Scheduler.stepProcess
  refine meets_kact fun _ => ⟨trivial, ?_⟩
  have hs' := (KAct.attach index).exec_courteous trivial hs
  obtain ⟨-, hnone | hsome⟩ := attach_host hp hhost
  · rw [hnone]
    exact fun _ h => by cases h
  · rw [hsome]
    exact stepHost_ends x turns index hs'

theorem statusSignaled_ne_exited {n : ℕ} (h : 0 < n ∧ n < nsig) (code : ℤ) :
    statusSignaled n ≠ statusExited code := by
  unfold nsig at h
  have hn : asU32 n = n := by
    unfold asU32
    omega
  intro heq
  unfold statusSignaled statusExited at heq
  rw [hn, Int.natCast_inj, Nat.shiftLeft_eq] at heq
  rw [show 0x7f = 2 ^ 7 - 1 by rfl, Nat.and_two_pow_sub_one_eq_mod] at heq
  omega

end

/-! ## What becomes of pending signals in a step -/

theorem ProcRecord.raise_pid (r : ProcRecord) (sig : ℤ) : (r.raise sig).pid = r.pid := by
  unfold raise
  split <;> rfl

theorem ProcRecord.pending_raise (r : ProcRecord) (sig : ℤ) (n : ℕ) : (r.raise sig).pending.getLsbD n = true ↔
    r.pending.getLsbD n = true ∨ sig = n ∧ 0 < n ∧ n < nsig := by
  unfold raise
  by_cases hsig : 0 < sig ∧ sig < nsig
  · obtain ⟨m, rfl⟩ := Int.eq_ofNat_of_zero_le hsig.1.le
    have hm : 0 < m ∧ m < nsig := by exact_mod_cast hsig
    rw [if_pos hsig, BitVec.getLsbD_or, bit_getLsbD m n hm]
    simp only [Bool.or_eq_true, decide_eq_true_eq, Nat.cast_inj]
    constructor
    · rintro (h | rfl)
      · exact .inl h
      · exact .inr ⟨rfl, hm⟩
    · rintro (h | ⟨rfl, -⟩)
      · exact .inl h
      · exact .inr rfl
  · rw [if_neg hsig]
    constructor
    · exact .inl
    · rintro (h | ⟨rfl, hn⟩)
      · exact h
      · exact absurd (by exact_mod_cast hn) hsig

theorem Act.table_streams (a : Act) (m : Machine) (h : a.streams = true) (hraise : ∀ sig, a ≠ .raise sig) :
    (a.exec m).2.shared.table = m.shared.table := by
  cases a with
  | raise sig => exact absurd rfl (hraise sig)
  | put start data =>
    simp only [exec]
    split <;> rfl
  | writeOutput which data =>
    simp only [exec, Machine.setShared, Shared.writeOutput]
    split <;> rfl
  | view | setDescPos | stdinTake | pipeTake | pipePut | wantStdin | noteVfsPending => rfl
  | _ => cases h

theorem Condemned.congr {k k' : Kernel} {index n : ℕ} (h : Condemned k' index n)
    (hprocs : ∀ q, k'.procs[index]? = some q → ∃ p, k.procs[index]? = some p ∧ q.ctx.task = p.ctx.task)
    (htable : k'.shared.table = k.shared.table) : Condemned k index n := by
  obtain ⟨q, r, hq, hr, hdies, hpending⟩ := h
  obtain ⟨p, hp, htask⟩ := hprocs q hq
  rw [htask] at hr hdies
  refine ⟨p, r, hp, ?_, hdies, hpending⟩
  simpa only [Shared.record, htable] using hr

section
variable {W : Type} (x : Env W)

/-- A signal comes to be pending in a step of a host process only where the
process raises it. -/
theorem condemned_back {index n : ℕ} {o : KOp} (ho : o.advances index) {s : Kernel × W}
    (h : Condemned (kexec x o s).2.1 index n) :
    Condemned s.1 index n ∨ o = .machine index (.act (.raise n)) ∧ Exposed s.1 index n := by
  obtain ⟨k, w⟩ := s
  cases o with
  | env c => exact .inl h
  | act a =>
    left
    cases a with
    | host => exact h
    | noteHostPending => exact h
    | appendInput i chunk | setPhase i phase | advance i offer =>
      obtain rfl : i = index := ho
      apply h.congr
      · intro q hq
        obtain ⟨p, hp, rfl⟩ := Kernel.modify_at hq
        exact ⟨p, hp, rfl⟩
      · rfl
    | _ => cases ho
  | machine i o =>
    obtain ⟨rfl, hstreams⟩ := ho
    rcases hp : k.procs[i]? with _ | p
    · rw [kexec_machine_none x hp] at h
      exact .inl h
    rw [kexec_machine x hp] at h
    have hat := Kernel.putMachine_proc hp (exec x o (k.machineOf p, w)).2.1
    have hctx : (exec x o (k.machineOf p, w)).2.1.ctx = p.ctx := by
      cases o with
      | env c => rfl
      | act a => exact a.ctx_streams _ hstreams
    by_cases hraise : ∃ sig, o = .act (.raise sig)
    · obtain ⟨sig, rfl⟩ := hraise
      obtain ⟨q, r, hq, hr, hdies, hpending⟩ := h
      obtain rfl := Option.some.inj (hq.symm.trans hat)
      dsimp only at hr hdies
      rw [hctx] at hr hdies
      have hrecord : ((k.shared.record p.ctx.task.pid).map fun r => r.raise sig) = some r :=
        (Shared.record_updateRecord _ _ _ fun r => r.raise_pid sig).symm.trans hr
      obtain ⟨r', hr', rfl⟩ := Option.map_eq_some_iff.mp hrecord
      rcases (r'.pending_raise sig n).mp hpending with hwas | ⟨rfl, hn⟩
      · exact .inl ⟨p, r', hp, hr', hdies, hwas⟩
      · exact .inr ⟨rfl, p, r', hp, hr', hdies⟩
    · left
      apply h.congr
      · intro q hq
        obtain rfl := Option.some.inj (hq.symm.trans hat)
        exact ⟨p, hp, congrArg Ctx.task hctx⟩
      · cases o with
        | env c => rfl
        | act a => exact a.table_streams _ hstreams fun sig heq => hraise ⟨sig, by rw [heq]⟩

theorem condemned_comes {index n : ℕ} {p q : Sched ProcStep} {s t : Kernel × W}
    (hp : p.Only (KOp.advances index)) (h : Program.Comes (kexec x) p s q t) (hn : Condemned t.1 index n) :
    Condemned s.1 index n ∨
      ∃ rest u, Program.Comes (kexec x) p s (.call (KOp.machine index (.act (.raise n))) rest) u ∧
        Exposed u.1 index n := by
  induction h with
  | here p s => exact .inl hn
  | later o f s q t hcomes ih =>
    rcases ih (hp.2 _) hn with hat | ⟨rest, u, hraise, hexposed⟩
    · rcases condemned_back x hp.1 hat with hwas | ⟨rfl, hexposed⟩
      · exact .inl hwas
      · exact .inr ⟨f, s, .here _ _, hexposed⟩
    · exact .inr ⟨rest, u, .later _ _ _ _ _ hraise, hexposed⟩

/-- Where a step of a host process has come to, if a signal is pending there
that kills, it was pending at the start or is raised on the way. -/
theorem endangered_of_condemned {turns index n : ℕ} {k : Kernel} {w : W} {p : Proc} {host : HostProc}
    {q : Sched ProcStep} {t : Kernel × W} (hp : k.procs[index]? = some p) (hhost : p.host = some host)
    (h : Program.Comes (kexec x) (Scheduler.stepProcess turns index) (k, w) q t)
    (hn : Condemned t.1 index n) :
    Endangered x turns index (k, w) := by
  obtain ⟨hkernel, hanswer⟩ := attach_host hp hhost
  obtain ⟨f, hstep, hparked, hturn⟩ :
    ∃ f, Scheduler.stepProcess turns index = .call (KOp.act (.attach index)) f ∧
      f none = .ret .stuck ∧ f (some .host) = Scheduler.stepHost turns index := ⟨_, rfl, rfl, rfl⟩
  have honly : (f ((KAct.attach index).exec k).1).Only (KOp.advances index) := by
    rcases hanswer with hnone | hsome
    · rw [hnone, hparked]
      trivial
    · rw [hsome, hturn]
      exact Scheduler.only_stepHost turns index
  unfold Endangered
  rw [hstep] at h ⊢
  cases h with
  | here => exact .inl ⟨n, hn⟩
  | later _ _ _ _ _ hlater =>
    rcases condemned_comes x honly hlater hn with hat | ⟨rest, u, hraise, hexposed⟩
    · left
      refine ⟨n, ?_⟩
      have hat : Condemned ((KAct.attach index).exec k).2 index n := hat
      rwa [hkernel] at hat
    · exact .inr ⟨n, rest, u, .later _ _ _ _ _ hraise, hexposed⟩

theorem raised_condemns {index n : ℕ} {s : Kernel × W} (h : Exposed s.1 index n) :
    Condemned (kexec x (.machine index (.act (.raise n))) s).2.1 index n := by
  obtain ⟨k, w⟩ := s
  obtain ⟨p, r, hp, hr, hdies⟩ := h
  rw [kexec_machine x hp]
  refine ⟨_, r.raise n, Kernel.putMachine_proc hp _, ?_, hdies, ?_⟩
  · refine (Shared.record_updateRecord _ _ _ fun r => r.raise_pid n).trans ?_
    exact congrArg (Option.map _) hr
  · exact (r.pending_raise n n).mpr (.inr ⟨rfl, hdies.1⟩)

theorem not_killReaches {turns index n : ℕ} {s t : Kernel × W} {q : Sched ProcStep}
    (hcomes : Program.Comes (kexec x) (Scheduler.stepProcess turns index) s q t) (hn : Condemned t.1 index n)
    (hends : EndsItself ((Scheduler.stepProcess turns index).run (kexec x) s).1 s) :
    ¬ KillReaches x turns index s := by
  intro hkill
  obtain ⟨⟨m, ⟨_, _, _, _, hdies, _⟩, hresult⟩, -⟩ := hkill q t hcomes n hn
  rw [hcomes.run] at hresult
  obtain ⟨code, hcode⟩ := hends _ hresult
  exact statusSignaled_ne_exited hdies.1 code hcode

/-- A host command is reached by the signals that kill it exactly in the steps
in which there are none. -/
theorem kill_reaches_iff {k : Kernel} {w : W} {index : ℕ} {p : Proc} {host : HostProc}
    (h : Reached x (fun _ _ => True) k w) (hp : k.procs[index]? = some p) (hhost : p.host = some host)
    (turns : ℕ) :
    KillReaches x turns index (k, w) ↔ ¬ Endangered x turns index (k, w) := by
  have hends := ((stepProcess_ends x turns index (s := (k, w)) hp hhost (courteous_reached x h)).run
    (Program.along_of_forall _ (fun _ _ => trivial) _ _)).2
  constructor
  · intro hkill hdanger
    rcases hdanger with ⟨n, hn⟩ | ⟨n, rest, t, hcomes, hexposed⟩
    · exact not_killReaches x (.here _ _) hn hends hkill
    · exact not_killReaches x hcomes.next (raised_condemns x hexposed) hends hkill
  · intro hsafe q t hcomes n hn
    exact absurd (endangered_of_condemned x hp hhost hcomes hn) hsafe

end

theorem kill_reaches_iff_waiting : ∃ k : Kernel, Reached Env.waits (fun _ _ => True) k () ∧
    (KillReaches Env.waits 3 0 (k, ()) ↔ ¬ Endangered Env.waits 3 0 (k, ())) := by
  have hspawn : Config.closedStdin.drive Env.waits () 3 [] = some (_, _) := rfl
  exact ⟨_, .between _ _ (between_drive hspawn),
    kill_reaches_iff Env.waits (.between _ _ (between_drive hspawn)) rfl rfl 3⟩

/-- A guest that sends itself `SIGTERM` and then becomes a host command, with
the arguments of both calls. -/
def Env.execsSignalled : Env (List GuestRun) :=
  { Env.scripted (.startingWith (argWords [1, 15, 0, 0, 0, 0, 48, 0, 0, 0, 0, 0, 0x6e69622f, 0x312f])) with
    command := fun _ _ w => (.ok ⟨0, ascii "done", []⟩, w) }

/-- The command is called all the same, and ends with the status it returned. -/
theorem sigterm_passes_by : ∃ (k : Kernel) (w : List GuestRun) (p : Proc) (host : HostProc),
    Reached Env.execsSignalled (fun _ _ => True) k w ∧ k.procs[0]? = some p ∧ p.host = some host ∧
    Condemned k 0 15 ∧
    ((Scheduler.stepProcess 3 0).run (kexec Env.execsSignalled) (k, w)).1 = .ok (.ended (statusExited 0)) ∧
    ¬ KillReaches Env.execsSignalled 3 0 (k, w) := by
  have hrun : (Config.bare [.guest 0, .host 0]).drive Env.execsSignalled
    [⟨[.syscall 129 0, .syscall 221 24], none⟩] 3
    [⟨some 0, none⟩] = some (_, _) := rfl
  have hdies : Task.DiesOf default 15 := ⟨by decide, .inr ⟨rfl, rfl, rfl⟩⟩
  refine ⟨_, _, _, _, .between _ _ (between_drive hrun), rfl, rfl, ⟨_, _, rfl, rfl, hdies, rfl⟩, rfl, ?_⟩
  apply not_killReaches _ (.here _ _) ⟨_, _, rfl, rfl, hdies, rfl⟩
  intro status hstatus
  exact ⟨0, (ProcStep.ended.inj (Except.ok.inj hstatus)).symm⟩

end Wasmux
