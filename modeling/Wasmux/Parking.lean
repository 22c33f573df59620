import Wasmux.Accounts
import Wasmux.Loops
import Wasmux.Retries

/-!
# Who is left alone

A filesystem or a host command that answers "come back later" raises a flag, and
the process at whose place a flag was raised is left alone for the rest of the
slice. A flag that is up already cannot be raised: a process that asks in such a
step is tried again in the next pass.
-/

set_option autoImplicit false

namespace Wasmux
open Effects Abi

/-- The flags that tell the caller what to wait for: filesystems and host commands. -/
def Shared.flags (sh : Shared) : Bool × Bool := (sh.vfsPending, sh.hostPending)

def raised (before after : Bool × Bool) : Bool := (after.1 && !before.1) || (after.2 && !before.2)

def up (flags : Bool × Bool) : Bool := flags.1 || flags.2

theorem raised_self (flags : Bool × Bool) : raised flags flags = false := by
  obtain ⟨vfs, host⟩ := flags
  cases vfs <;> cases host <;> rfl

theorem raised_of_down {before after : Bool × Bool} (hbefore : up before = false) :
    raised before after = up after := by
  obtain ⟨vfs, host⟩ := before
  obtain ⟨rfl, rfl⟩ : vfs = false ∧ host = false := Bool.or_eq_false_iff.mp hbefore
  simp [raised, up]

/-- What is noted of a process in a slice: that a step of it raised a flag, that it
was told to come back later, and that it was told so in a step that began with a
flag up. -/
structure Spell where
  turned : Bool
  asked : Bool
  late : Bool

def Spell.fresh : Spell := ⟨false, false, false⟩

/-- Filesystems are asked again: what `vfs_fault` does with an `EAGAIN`. -/
def Op.defers : Op → Bool
  | .act .noteVfsPending => true
  | _ => false

/-- The notes on all processes, how the flags were when the last step began, and
whether anybody was told in it to come back later. -/
structure Watch where
  before : Bool × Bool
  asking : Bool
  spells : List Spell

/-- A step has ended, and found the flags like this. -/
def Watch.ended (t : Watch) (flags : Bool × Bool) (s : Spell) : Spell :=
  ⟨s.turned || raised t.before flags, s.asked || t.asking, s.late || (t.asking && up t.before)⟩

def watching : History Watch where
  start := ⟨(false, false), false, []⟩
  next t o k a := match o, a with
    | .machine i o, _ => { t with asking := t.asking || (o.defers && (k.procs[i]?).isSome) }
    | .env (.command _ _ _), answer => { t with asking := t.asking || deferred answer }
    | .act .beginRun, _ => { t with spells := t.spells.map fun _ => .fresh }
    | .act (.attach _), _ => { t with before := k.shared.flags, asking := false }
    | .act (.endStep i _), _ => { t with spells := t.spells.modify i (t.ended k.shared.flags) }
    | .act (.launchSpawn _), _ =>
        if k.shared.spawn.isEmpty then t else { t with spells := t.spells ++ [.fresh] }
    | .act (.launchExec i _), _ => if ((k.procs[i]?).bind fun p => p.ctx.execRequest).isSome
        then { t with spells := t.spells.modify i fun _ => .fresh } else t
    | .act (.finishProcess i _), _ => { t with spells := t.spells.eraseIdx i }
    | .act (.abandonExec i), _ => if ((k.procs[i]?).bind fun p => p.ctx.execRequest).isSome
        then { t with spells := t.spells.eraseIdx i } else t
    | _, _ => t

/-- Who is left alone raised a flag, and who was told to come back has done so or came late. -/
structure Proc.Told (p : Proc) (s : Spell) : Prop where
  parked : p.parked = s.turned
  asked : s.turned = true → s.asked = true
  told : s.asked = true → s.turned = true ∨ s.late = true

theorem Proc.told_fresh {p : Proc} (hparked : p.parked = false) : p.Told .fresh where
  parked := hparked
  asked h := by cases h
  told h := by cases h

theorem Proc.Told.congr {p q : Proc} {s : Spell} (h : p.Told s) (hparked : q.parked = p.parked) :
    q.Told s where
  parked := hparked.trans h.parked
  asked := h.asked
  told := h.told

def Kernel.Told (k : Kernel) (t : Watch) : Prop := List.Forall₂ Proc.Told k.procs t.spells

/-! ## What raises a flag -/

theorem Shared.flags_of_outer {sh sh' : Shared} (h : sh'.outer = sh.outer) : sh'.flags = sh.flags := by
  have hflags : sh'.outer.flags = sh.outer.flags := congrArg Shared.flags h
  exact hflags

theorem Act.flags_exec (a : Act) (m : Machine) (h : (Op.act a).defers = false) :
    (a.exec m).2.shared.flags = m.shared.flags := by
  by_cases hmoves : a.moves = true
  · exact Shared.flags_of_outer (a.outer_exec m hmoves)
  cases a with
  | noteVfsPending => cases h
  | growMem pages => exact congrArg Shared.flags (m.shared_setMem _)
  | put start data => simp only [exec]; split <;> rfl
  | setCloexec fd on => simp only [exec]; split <;> rfl
  | charge bytes => simp only [exec, Shared.chargeMemory]; split <;> rfl
  | writeOutput which data => simp only [exec, Shared.writeOutput]; split <;> rfl
  | openDesc | dup | dupTo | close | pipe2 | fork | vforkExit | finishExec => exact absurd rfl hmoves
  | _ => rfl

theorem Kernel.flags_finishProcess (k : Kernel) (index : ℕ) (status : ℤ) :
    (k.finishProcess index status).2.shared.flags = k.shared.flags := by
  unfold finishProcess
  cases k.procs[index]? with
  | none => rfl
  | some p =>
    refine Eq.trans (Shared.flags_of_outer ((Shared.outer_setExit _ _ _).trans
      ((Shared.outer_releaseFds _ _).trans (Shared.outer_killChildren _ _ _ _)))) ?_
    rfl

def KAct.signals : KAct → Bool
  | .noteHostPending | .whyIdle => true
  | _ => false

theorem KAct.flags_exec (a : KAct) (k : Kernel) (h : a.signals = false) :
    (a.exec k).2.shared.flags = k.shared.flags := by
  cases a with
  | noteHostPending | whyIdle => cases h
  | attach index =>
    simp only [exec]
    repeat' split
    all_goals rfl
  | charge bytes => simp only [exec, Shared.chargeMemory]; split <;> rfl
  | launchSpawn launch => simp only [exec]; split <;> rfl
  | abandonSpawn =>
    simp only [exec]
    split
    · rfl
    · exact Shared.flags_of_outer ((Shared.outer_setExit _ _ _).trans (Shared.outer_releaseFds _ _))
  | abandonExec index =>
    simp only [exec]
    split
    · rfl
    · exact Shared.flags_of_outer ((Shared.outer_setExit _ _ _).trans (Shared.outer_releaseFds _ _))
  | releaseInstance index => simp only [exec]; split <;> rfl
  | restoreJmp index buf value =>
    simp only [exec]
    repeat' split
    all_goals rfl
  | trapMessage index kind => simp only [exec]; split <;> rfl
  | finishProcess index status => exact k.flags_finishProcess index status
  | _ => rfl

theorem Kernel.procOf_parked (spawn : Spawn) (launch : Launch) : (procOf spawn launch).parked = false := by
  cases launch <;> rfl

/-! ## A step -/

/-- In a step that began with the flags `before`: they have changed only if the
process was told to come back later, and then one of them is up. -/
structure Kernel.Stepping (before : Bool × Bool) (k : Kernel) (t : Watch) : Prop where
  told : k.Told t
  began : t.before = before
  same : t.asking = false → k.shared.flags = before
  asked : t.asking = true → up k.shared.flags = true

def Kernel.Awake (k : Kernel) (i : ℕ) : Prop := ∀ p, k.procs[i]? = some p → p.parked = false

/-- What is asked in a turn before the process may be replaced, but for the call
of a command. -/
def KOp.stirs (index : ℕ) : KOp → Prop
  | .machine i _ => i = index
  | .env (.command _ _ _) => False
  | .env _ => True
  | .act a => match a with
    | .inst i | .host i | .rewind i | .resumeWith i _ | .setResume i _ | .trapMessage i _
    | .appendInput i _ | .setPhase i _ | .advance i _ => i = index
    | _ => False

/-- What is asked of the process at `index`, or to enter it. -/
def KOp.concerns (index : ℕ) : KOp → Prop
  | .machine i _ => i = index
  | .env (.command i _ _) => i = index
  | .act a => match a with
    | .inst i | .host i => i = index
    | _ => False
  | _ => False

theorem KOp.stirs.concerns {index i : ℕ} {o : KOp} (h : o.stirs index) (ho : o.concerns i) : i = index := by
  cases o with
  | machine j o => exact ho.symm.trans h
  | env c =>
    cases c with
    | command j c call => cases h
    | _ => cases ho
  | act a =>
    cases a with
    | inst j | host j => exact ho.symm.trans h
    | _ => cases ho

theorem KOp.unconcerned {B : KOp → Prop} (hmachine : ∀ j o, ¬ B (.machine j o))
    (hcommand : ∀ j c call, ¬ B (.env (.command j c call))) (hinst : ∀ j, ¬ B (.act (.inst j)))
    (hhost : ∀ j, ¬ B (.act (.host j))) {i : ℕ} {o : KOp} (h : B o) : ¬ o.concerns i := by
  intro ho
  cases o with
  | machine j o => exact hmachine j o h
  | env c =>
    cases c with
    | command j c call => exact hcommand j c call h
    | _ => cases ho
  | act a =>
    cases a with
    | inst j => exact hinst j h
    | host j => exact hhost j h
    | _ => cases ho

theorem KOp.returns.unconcerned {index i : ℕ} {o : KOp} (h : o.returns index) : ¬ o.concerns i :=
  KOp.unconcerned (B := KOp.returns index) (fun _ _ => id) (fun _ _ _ hc => by cases hc) (fun _ => id)
    (fun _ => id) h

theorem KOp.quiet.unconcerned {i : ℕ} {o : KOp} (h : o.quiet) : ¬ o.concerns i :=
  KOp.unconcerned (B := KOp.quiet) (fun _ _ => id) (fun _ _ _ hc => by cases hc) (fun _ => id) (fun _ => id) h

theorem KOp.starts.unconcerned {i : ℕ} {o : KOp} (h : o.starts) : ¬ o.concerns i :=
  KOp.unconcerned (B := KOp.starts) (fun _ _ => id) (fun _ _ _ hc => by cases hc) (fun _ => id)
    (fun _ => id) h

section
variable {W : Type} {x : Env W} {k : Kernel} {w : W} {t : Watch} {before : Bool × Bool} {index : ℕ}

theorem KAct.effect_parked (a : KAct) (p : Proc) (h : ∀ i external, a ≠ .endStep i external) :
    (a.effect p).parked = p.parked := by
  cases a with
  | attach i => simp only [effect]; split <;> rfl
  | endStep i external => exact absurd rfl (h i external)
  | restoreJmp i buf value =>
    simp only [effect]
    repeat' split
    all_goals rfl
  | _ => rfl

theorem Kernel.Told.modify (h : k.Told t) {k' : Kernel} {i : ℕ} {f : Proc → Proc}
    (hprocs : k'.procs = k.procs.modify i f) (hf : ∀ p, (f p).parked = p.parked) : k'.Told t := by
  unfold Told
  rw [hprocs]
  have hsame := forall₂_modify h i (f := f) (g := id) fun p s _ _ hp => hp.congr (hf p)
  rwa [List.modify_id] at hsame

theorem Kernel.Awake.modify (h : k.Awake index) {k' : Kernel} {i : ℕ} {f : Proc → Proc}
    (hprocs : k'.procs = k.procs.modify i f) (hf : ∀ p, (f p).parked = p.parked) : k'.Awake index := by
  intro q hq
  rw [hprocs] at hq
  by_cases hi : i = index
  · subst hi
    obtain ⟨p, hp, rfl⟩ := modify_at hq
    exact (hf p).trans (h p hp)
  · rw [List.getElem?_modify_ne _ _ hi] at hq
    exact h q hq

theorem Kernel.Told.target (h : k.Told t) {a : KAct} {i : ℕ} (ha : a.target = some i)
    (hends : ∀ i external, a ≠ .endStep i external) : (a.exec k).2.Told t :=
  h.modify (a.procs_target ha k) fun p => a.effect_parked p hends

theorem Op.flags_exec (o : Op) (m : Machine) (w : W) (h : o.defers = false) :
    (exec x o (m, w)).2.1.shared.flags = m.shared.flags := by
  cases o with
  | env => rfl
  | act a => exact a.flags_exec m h

/-- A machine of a process is put back with its mark, and with a flag up if it was
told to come back. -/
theorem Kernel.Stepping.machine (h : k.Stepping before t) (i : ℕ) (o : Op) (a : o.Ans) :
    (kexec x (.machine i o) (k, w)).2.1.Stepping before (watching.next t (.machine i o) k a) := by
  cases hp : k.procs[i]? with
  | none =>
    rw [kexec_machine_none x hp]
    simpa [watching, hp] using h
  | some p =>
    rw [kexec_machine x hp]
    have htold : (k.putMachine i (exec x o (k.machineOf p, w)).2.1).Told t := h.told.modify rfl fun _ => rfl
    cases hdefers : o.defers with
    | true =>
      obtain rfl : o = .act .noteVfsPending := by
        cases o with
        | env => cases hdefers
        | act b => cases b <;> first | rfl | cases hdefers
      refine ⟨htold, h.began, fun hno => ?_, fun _ => rfl⟩
      simp [watching, hdefers, hp] at hno
    | false =>
      have hflags := o.flags_exec (x := x) (k.machineOf p) w hdefers
      have hnotes : watching.next t (.machine i o) k a = t := by simp [watching, hdefers]
      rw [hnotes]
      exact ⟨htold, h.began, fun hno => hflags.trans (h.same hno), fun hyes =>
        (congrArg up hflags).trans (h.asked hyes)⟩

theorem Kernel.Stepping.act (h : k.Stepping before t) (a : KAct) {t' : Watch} (hsignals : a.signals = false)
    (htold : (a.exec k).2.Told t') (hbegan : t'.before = t.before) (hasking : t'.asking = t.asking) :
    (a.exec k).2.Stepping before t' := by
  have hflags := a.flags_exec k hsignals
  refine ⟨htold, hbegan.trans h.began, fun hno => ?_, fun hyes => ?_⟩
  · exact hflags.trans (h.same (hasking.symm.trans hno))
  · exact (congrArg up hflags).trans (h.asked (hasking.symm.trans hyes))

theorem Kernel.Stepping.target (h : k.Stepping before t) {a : KAct} {i : ℕ} (htarget : a.target = some i)
    (hsignals : a.signals = false) (hends : ∀ i external, a ≠ .endStep i external) :
    (a.exec k).2.Stepping before t :=
  h.act a hsignals (h.told.target htarget hends) rfl rfl

theorem Kernel.Awake.target (h : k.Awake index) {a : KAct} {i : ℕ} (htarget : a.target = some i)
    (hends : ∀ i external, a ≠ .endStep i external) : (a.exec k).2.Awake index :=
  h.modify (a.procs_target htarget k) fun p => a.effect_parked p hends

/-- What stirs a process keeps the step in order, and the process awake. -/
theorem Kernel.Stepping.stirs (h : k.Stepping before t) (hawake : k.Awake index) {o : KOp}
    (ho : o.stirs index) :
    (kexec x o (k, w)).2.1.Stepping before (watching.next t o k (kexec x o (k, w)).1) ∧
      (kexec x o (k, w)).2.1.Awake index := by
  cases o with
  | machine i o =>
    refine ⟨h.machine i o _, ?_⟩
    cases hp : k.procs[i]? with
    | none =>
      rw [kexec_machine_none x hp]
      exact hawake
    | some p =>
      rw [kexec_machine x hp]
      exact hawake.modify rfl fun _ => rfl
  | env c =>
    cases c with
    | command => cases ho
    | _ => exact ⟨h, hawake⟩
  | act a =>
    cases a with
    | inst | host => exact ⟨h, hawake⟩
    | rewind | resumeWith | setResume | appendInput | setPhase | advance =>
      constructor
      · exact h.target rfl rfl fun _ _ heq => by cases heq
      · exact hawake.target rfl fun _ _ heq => by cases heq
    | trapMessage i kind =>
      have hprocs : ((KAct.trapMessage i kind).exec k).2.procs = k.procs := by
        simp only [KAct.exec]
        split <;> rfl
      constructor
      · refine h.act _ rfl ?_ rfl rfl
        unfold Kernel.Told
        rw [hprocs]
        exact h.told
      · unfold Kernel.Awake
        rw [kexec_act, hprocs]
        exact hawake
    | _ => cases ho

/-- The process is replaced, or leaves the list with its notes. -/
theorem Kernel.Stepping.returns (h : k.Stepping before t) {o : KOp} (ho : o.returns index) :
    (kexec x o (k, w)).2.1.Stepping before (watching.next t o k (kexec x o (k, w)).1) := by
  cases o with
  | machine => cases ho
  | env c =>
    cases c with
    | command => cases ho
    | _ => exact h
  | act a =>
    cases a with
    | look | execRequest => exact h
    | release bytes => exact h.act (.release bytes) rfl h.told rfl rfl
    | charge bytes => exact h.act (.charge bytes) rfl h.told rfl rfl
    | takeSuspension | saveJmp | setResume | releaseInstance | restoreJmp =>
      exact h.target rfl rfl fun _ _ heq => by cases heq
    | launchExec i launch =>
      cases hrequest : (k.procs[i]?).bind fun p => p.ctx.execRequest with
      | none =>
        have hnext : watching.next t (.act (.launchExec i launch)) k () = t := by simp [watching, hrequest]
        rw [kexec_act, hnext]
        refine h.act (.launchExec i launch) rfl ?_ rfl rfl
        have hsame : k.procs.modify i (Kernel.relaunch launch) = k.procs := by
          apply modify_self
          intro p hp
          have hnone : p.ctx.execRequest = none := by simpa [hp] using hrequest
          simp only [Kernel.relaunch, hnone]
        unfold Kernel.Told
        rw [show ((KAct.launchExec i launch).exec k).2.procs =
          k.procs.modify i (Kernel.relaunch launch) from rfl, hsame]
        exact h.told
      | some spawn =>
        refine h.act (.launchExec i launch) rfl ?_ (by simp [watching, hrequest])
          (by simp [watching, hrequest])
        unfold Kernel.Told
        simp only [watching, hrequest, Option.isSome_some, if_true]
        apply forall₂_modify h.told i
        intro p s hp _ _
        have hsome : p.ctx.execRequest = some spawn := by simpa [hp] using hrequest
        simp only [Kernel.relaunch, hsome]
        exact Proc.told_fresh (Kernel.procOf_parked spawn launch)
    | abandonExec i =>
      cases hrequest : (k.procs[i]?).bind fun p => p.ctx.execRequest with
      | none => simpa [watching, KAct.exec, hrequest] using h
      | some spawn =>
        refine h.act (.abandonExec i) rfl ?_ (by simp [watching, hrequest]) (by simp [watching, hrequest])
        simp only [Kernel.Told, watching, KAct.exec, hrequest, Option.isSome_some, if_true]
        exact forall₂_eraseIdx h.told i
    | _ => cases ho

end

/-! ## A turn -/

abbrev Restful {W : Type} (o : KOp) (s : (Kernel × W) × Watch) : Prop :=
  s.1.1.Told s.2 ∧ ∀ i, o.concerns i → s.1.1.Awake i

section
variable {W α : Type} {x : Env W} {C : KOp → Kernel × W → Prop} {before : Bool × Bool} {index : ℕ}
  {s : (Kernel × W) × Watch} {Q : Except Stop α → (Kernel × W) × Watch → Prop}

theorem Kernel.Stepping.restful (h : s.1.1.Stepping before s.2) (hawake : s.1.1.Awake index) {o : KOp}
    (ho : o.stirs index) : Restful o s := ⟨h.told, fun _ hi => (ho.concerns hi) ▸ hawake⟩

theorem meets_stirs {p : Sched α} (hp : p.Only (KOp.stirs index)) (h : s.1.1.Stepping before s.2)
    (hawake : s.1.1.Awake index) : Program.Meets (watching.exec x) (fun o s => C o s.1) Restful p
      (fun _ u => u.1.1.Stepping before u.2 ∧ u.1.1.Awake index) s := by
  refine Program.meets_only
    (I := fun u : (Kernel × W) × Watch => u.1.1.Stepping before u.2 ∧ u.1.1.Awake index) ?_ hp
    ⟨h, hawake⟩
  exact fun _ _ ho hs _ => ⟨hs.1.restful hs.2 ho, hs.1.stirs hs.2 ho⟩

theorem meets_returns {p : Sched α} (hp : p.Only (KOp.returns index)) (h : s.1.1.Stepping before s.2) :
    Program.Meets (watching.exec x) (fun o s => C o s.1) Restful p
    (fun _ u => u.1.1.Stepping before u.2) s := by
  refine Program.meets_only (I := fun u : (Kernel × W) × Watch => u.1.1.Stepping before u.2) ?_ hp h
  exact fun _ _ ho hs _ => ⟨⟨hs.told, fun _ hi => absurd hi ho.unconcerned⟩, hs.returns ho⟩

theorem meets_stir {a : KAct} {f : a.Ans → Sched α} (ho : KOp.stirs index (.act a))
    (h : s.1.1.Stepping before s.2) (hawake : s.1.1.Awake index)
    (hf : ∀ u : (Kernel × W) × Watch, u.1.1.Stepping before u.2 → u.1.1.Awake index →
      Program.Meets (watching.exec x) (fun o s => C o s.1) Restful (f (a.exec s.1.1).1) Q u) :
    Program.Meets (watching.exec x) (fun o s => C o s.1) Restful (kact a >>= f) Q s := by
  refine Sweeps.meets_kact fun _ => ⟨h.restful hawake ho, ?_⟩
  obtain ⟨hnext, hstays⟩ := h.stirs (x := x) (w := s.1.2) hawake ho
  exact hf _ hnext hstays

/-- A guest is entered while it is awake, and may be replaced when it comes back. -/
theorem meets_enter (h : s.1.1.Stepping before s.2) (hawake : s.1.1.Awake index) :
    Program.Meets (watching.exec x) (fun o s => C o s.1) Restful (Scheduler.enter index)
      (fun _ u => u.1.1.Stepping before u.2) s := by
  refine meets_stir (a := .inst index) rfl h hawake fun u hu hawake => ?_
  cases ((KAct.inst index).exec s.1.1).1 with
  | none => exact hu
  | some inst =>
    have hguest : (kenv (.guest inst)).Only (KOp.stirs index) := ⟨trivial, fun _ => trivial⟩
    refine Program.meets_bind (meets_stirs hguest hu hawake) ?_ fun e v hv => hv.1
    rintro run v ⟨hv, hawake⟩
    have hacts : (onProc index (runActs run.acts)).Only (KOp.stirs index) :=
      only_onProc (D := fun _ => True) (fun _ _ => rfl) (Program.only_of_forall (fun _ => trivial) _)
    refine Program.meets_bind (meets_stirs hacts hv hawake) ?_ fun e v hv => hv.1
    rintro - v ⟨hv, hawake⟩
    cases run.trap with
    | some kind => exact meets_stir (a := .trapMessage index kind) rfl hv hawake fun u hu _ => hu
    | none => exact meets_returns (Scheduler.only_afterReturn index) hv

theorem meets_retry (number : ℤ) (args : Args) (h : s.1.1.Stepping before s.2) (hawake : s.1.1.Awake index) :
    Program.Meets (watching.exec x) (fun o s => C o s.1) Restful (Scheduler.retry index number args)
      (fun _ u => u.1.1.Stepping before u.2) s := by
  have hcall : (onProc index (dispatch number args)).Only (KOp.stirs index) :=
    only_onProc (D := fun _ => True) (fun _ _ => rfl) (Program.only_of_forall (fun _ => trivial) _)
  refine Program.meets_bind (meets_stirs hcall h hawake) ?_ fun e v hv => hv.1
  rintro outcome v ⟨hv, hawake⟩
  cases outcome with
  | blocked => exact meets_stir (a := .setResume index _) rfl hv hawake fun u hu _ => hu
  | exit status => exact hv
  | exec => exact meets_returns (Scheduler.only_replaceInstance index) hv
  | value value =>
    exact meets_stir (a := .resumeWith index value) rfl hv hawake fun u hu hawake => meets_enter hu hawake

theorem KOp.transfers.stirs {o : KOp} (h : o.transfers index) : o.stirs index := by
  cases o with
  | machine => exact h.1
  | env => cases h
  | act a =>
    cases a with
    | host | appendInput | advance => exact h
    | _ => cases h

theorem stepping_deferred (h : s.1.1.Told s.2) (hbegan : s.2.before = before) (hawake : s.1.1.Awake index)
    (hasking : s.2.asking = true) : Program.Meets (watching.exec x) (fun o s => C o s.1) Restful
      (kact .noteHostPending >>= fun _ => .ret .stuck : Sched ProcStep)
      (fun _ u => u.1.1.Stepping before u.2 ∧ u.1.1.Awake index) s := by
  have hup : up ((KAct.noteHostPending.exec s.1.1).2.shared.flags) = true := Bool.or_true _
  refine Sweeps.meets_kact fun _ =>
    ⟨⟨h, fun _ hi => by cases hi⟩, ⟨h, hbegan, fun hno => ?_, fun _ => hup⟩, hawake⟩
  cases hasking.symm.trans hno

theorem stepping_flushAll (h : s.1.1.Stepping before s.2) (hawake : s.1.1.Awake index) :
    Program.Meets (watching.exec x) (fun o s => C o s.1) Restful (Scheduler.flushAll index)
      (fun _ u => u.1.1.Stepping before u.2 ∧ u.1.1.Awake index) s :=
  meets_stirs ((Scheduler.only_flushAll index).mono fun _ => KOp.transfers.stirs) h hawake

theorem stepping_invoke (h : s.1.1.Stepping before s.2) (hawake : s.1.1.Awake index) :
    Program.Meets (watching.exec x) (fun o s => C o s.1) Restful (Scheduler.invoke index)
      (fun _ u => u.1.1.Stepping before u.2 ∧ u.1.1.Awake index) s := by
  refine meets_stir (a := .host index) rfl h hawake fun u hu hawake => ?_
  have hanswers : ∀ phase (v : (Kernel × W) × Watch), v.1.1.Stepping before v.2 → v.1.1.Awake index →
      Program.Meets (watching.exec x) (fun o s => C o s.1) Restful
        (kact (.setPhase index phase) >>= fun _ => Scheduler.flushAll index)
        (fun _ u => u.1.1.Stepping before u.2 ∧ u.1.1.Awake index) v :=
    fun phase v hv hawake => meets_stir (a := .setPhase index phase) rfl hv hawake fun v hv hawake =>
      stepping_flushAll hv hawake
  split
  · rename_i command reads buffer argv envp cwd comm _
    obtain ⟨⟨k, w⟩, t⟩ := u
    refine fun _ => ⟨⟨hu.told, fun i hi => by rwa [show i = index from hi.symm]⟩, ?_⟩
    have hexec : watching.exec x (.env (.command index command ⟨argv, envp, cwd, buffer⟩)) ((k, w), t) =
        ((x.command command ⟨argv, envp, cwd, buffer⟩ w).1,
          ((k, (x.command command ⟨argv, envp, cwd, buffer⟩ w).2),
          { t with asking := t.asking || deferred (x.command command ⟨argv, envp, cwd, buffer⟩ w).1 })) := rfl
    rw [hexec]
    rcases x.command command ⟨argv, envp, cwd, buffer⟩ w with ⟨answer, w'⟩
    cases answer with
    | error e =>
      by_cases hagain : e = .again
      · subst hagain
        exact stepping_deferred
          (s := ((k, w'), { t with asking := t.asking || true })) hu.told hu.began hawake (Bool.or_true _)
      · have hsame : (t.asking || deferred (.error e)) = t.asking := by simp [deferred, hagain]
        dsimp only
        rw [hsame]
        exact Program.meets_ite (fun h => absurd h hagain) fun _ => hanswers _ ((k, w'), t) hu hawake
    | ok exit =>
      dsimp only
      rw [show (t.asking || deferred (.ok exit)) = t.asking from Bool.or_false _]
      exact hanswers _ ((k, w'), t) hu hawake
  · exact ⟨hu, hawake⟩

theorem stepping_stepHost (turns : ℕ) (h : s.1.1.Stepping before s.2) (hawake : s.1.1.Awake index) :
    Program.Meets (watching.exec x) (fun o s => C o s.1) Restful (Scheduler.stepHost turns index)
      (fun _ u => u.1.1.Stepping before u.2 ∧ u.1.1.Awake index) s := by
  refine meets_stir (a := .host index) rfl h hawake fun u hu hawake => ?_
  split
  · exact ⟨hu, hawake⟩
  · split
    · split
      · have hdrain := (Scheduler.only_drain index turns).mono fun _ => KOp.transfers.stirs
        refine Program.meets_bind (meets_stirs hdrain hu hawake) ?_ fun e v hv => hv
        rintro drained v ⟨hv, hawake⟩
        cases drained with
        | all => exact stepping_invoke hv hawake
        | blocked => exact ⟨hv, hawake⟩
      · exact stepping_invoke hu hawake
    · exact stepping_flushAll hu hawake

theorem Kernel.Told.attach {k : Kernel} {t : Watch} (h : k.Told t) (i : ℕ) :
    ((KAct.attach i).exec k).2.Stepping k.shared.flags { t with before := k.shared.flags, asking := false } ∧
      (((KAct.attach i).exec k).1 ≠ none → ((KAct.attach i).exec k).2.Awake i) := by
  have htold : ((KAct.attach i).exec k).2.Told { t with before := k.shared.flags, asking := false } :=
    h.target (a := .attach i) rfl fun _ _ heq => by cases heq
  refine ⟨⟨htold, rfl, fun _ => (KAct.attach i).flags_exec k rfl, fun hyes => by cases hyes⟩,
    fun htaken => ?_⟩
  cases hp : k.procs[i]? with
  | none => exact absurd (by simp only [KAct.exec, hp]) htaken
  | some p =>
    have hawake : k.Awake i := by
      intro q hq
      obtain rfl : p = q := Option.some.inj (hp.symm.trans hq)
      cases hparked : p.parked with
      | false => rfl
      | true => exact absurd (by simp only [KAct.exec, hp, hparked, if_true]) htaken
    exact hawake.target (a := .attach i) rfl fun _ _ heq => by cases heq

theorem meets_watchedTurn (turns : ℕ) (h : s.1.1.Told s.2) :
    Program.Meets (watching.exec x) (fun o s => C o s.1) Restful
    (Scheduler.stepProcess turns index) (fun _ u => u.1.1.Stepping s.1.1.shared.flags u.2) s := by
  refine Sweeps.meets_kact fun _ => ⟨⟨h, fun _ hi => by cases hi⟩, ?_⟩
  obtain ⟨hstep, hawake⟩ := h.attach index
  rcases htaken : ((KAct.attach index).exec s.1.1).1 with _ | _ | resume
  · exact hstep
  · refine (stepping_stepHost turns hstep (hawake ?_)).mono fun _ _ hu => hu.1
    rw [htaken]
    exact Option.some_ne_none _
  have hup : ((KAct.attach index).exec s.1.1).2.Awake index :=
    hawake (by rw [htaken]; exact Option.some_ne_none _)
  cases resume with
  | fresh => exact meets_enter hstep hup
  | rewind => exact meets_stir (a := .rewind index) rfl hstep hup fun u hu hawake => meets_enter hu hawake
  | blocked number args => exact meets_retry number args hstep hup

/-- The step is over, and the process at its place left alone if a flag was raised in it. -/
theorem Kernel.Stepping.endStep {k : Kernel} {t : Watch} (h : k.Stepping before t) (i : ℕ) {external : Bool}
    (hexternal : external = raised before k.shared.flags) :
    ((KAct.endStep i external).exec k).2.Told (watching.next t (.act (.endStep i external)) k ()) := by
  apply forall₂_modify h.told i
  intro p s _ _ hp
  subst hexternal
  unfold Watch.ended
  rw [h.began]
  constructor
  · rw [hp.parked]
  · intro hturned
    rcases Bool.or_eq_true_iff.mp hturned with hold | hnew
    · exact Bool.or_eq_true_iff.mpr (.inl (hp.asked hold))
    · refine Bool.or_eq_true_iff.mpr (.inr ?_)
      by_contra hno
      rw [h.same (Bool.eq_false_iff.mpr hno), raised_self] at hnew
      cases hnew
  · intro hasked
    rcases Bool.or_eq_true_iff.mp hasked with hold | hnew
    · rcases hp.told hold with hturned | hlate
      · exact .inl (Bool.or_eq_true_iff.mpr (.inl hturned))
      · exact .inr (Bool.or_eq_true_iff.mpr (.inl hlate))
    · cases hbefore : up before with
      | true => exact .inr (by simp [hnew])
      | false =>
        refine .inl (Bool.or_eq_true_iff.mpr (.inr ?_))
        rw [raised_of_down hbefore]
        exact h.asked hnew

end

/-! ## The session -/

section
variable {W : Type} (x : Env W) (C : KOp → Kernel × W → Prop)

def waiting : Stages Watch := ⟨fun _ k t => k.Told t, fun _ k t => k.Told t⟩

theorem Kernel.Told.quiet {k : Kernel} {w : W} {t : Watch} (h : k.Told t) {o : KOp} (ho : o.quiet) :
    (kexec x o (k, w)).2.1.Told (watching.next t o k (kexec x o (k, w)).1) := by
  cases o with
  | machine => cases ho
  | env c =>
    cases c with
    | command => cases ho
    | _ => exact h
  | act a =>
    cases a with
    | look => exact h
    | beginRun =>
      have hold : List.Forall₂ (fun _ _ => True) k.procs t.spells := h.imp fun _ _ _ => trivial
      simp only [Kernel.Told, watching, kexec_act, KAct.exec, List.forall₂_map_left_iff,
        List.forall₂_map_right_iff]
      exact hold.imp fun _ _ _ => Proc.told_fresh rfl
    | whyIdle =>
      unfold Kernel.Told
      rw [kexec_act, KAct.exec, k.whyIdle_procs]
      exact h
    | _ => cases ho

theorem Kernel.Told.starts {k : Kernel} {w : W} {t : Watch} (h : k.Told t) {o : KOp} (ho : o.starts) :
    (kexec x o (k, w)).2.1.Told (watching.next t o k (kexec x o (k, w)).1) := by
  cases o with
  | machine => cases ho
  | env c =>
    cases c with
    | command => cases ho
    | _ => exact h
  | act a =>
    cases a with
    | look | charge | release => exact h
    | abandonSpawn =>
      simp only [kexec_act, KAct.exec]
      split
      · exact h
      · exact h
    | launchSpawn launch =>
      cases hspawn : k.shared.spawn with
      | nil => simpa [watching, KAct.exec, hspawn] using h
      | cons spawn rest =>
        simp only [kexec_act, KAct.exec, watching, hspawn, List.isEmpty_cons, Bool.false_eq_true, if_false]
        exact forall₂_push h (Proc.told_fresh (Kernel.procOf_parked spawn launch))
    | _ => cases ho

theorem Kernel.Told.finish {k : Kernel} {t : Watch} (h : k.Told t) (i : ℕ) (status : ℤ) :
    (k.finishProcess i status).2.Told { t with spells := t.spells.eraseIdx i } := by
  unfold Told
  rw [k.procs_finishProcess]
  exact forall₂_eraseIdx h i

theorem sweeps_waiting : Sweeps waiting watching x C Restful where
  quiet _ _ _ _ _ ho h _ := ⟨⟨h, fun _ hi => absurd hi ho.unconcerned⟩, Kernel.Told.quiet x h ho⟩
  starts _ _ _ _ ho h _ := ⟨⟨h, fun _ hi => absurd hi ho.unconcerned⟩, Kernel.Told.starts x h ho⟩
  turn turns i k w t h := by
    refine Sweeps.meets_kact fun _ => ⟨⟨h, fun _ hi => by cases hi⟩, ?_⟩
    refine Program.meets_bind (meets_watchedTurn turns h) ?_ fun e u _ a ha => by cases ha
    intro step u hu
    refine Sweeps.meets_kact fun _ => ⟨⟨hu.told, fun _ hi => by cases hi⟩, ?_⟩
    exact Sweeps.meets_kact fun _ => ⟨⟨hu.told, fun _ hi => by cases hi⟩, fun _ _ => hu.endStep i rfl⟩
  finish i status k w t h _ := ⟨⟨h, fun _ hi => by cases hi⟩, Kernel.Told.finish h i status⟩
  first status k w t h _ := ⟨⟨h, fun _ hi => by cases hi⟩, Kernel.Told.finish h 0 status⟩
  force status k w t h _ _ := ⟨⟨h, fun _ hi => by cases hi⟩, h⟩
  round _ _ _ h _ := h
  exits _ _ _ _ h _ := h
  gone _ _ h _ _ := h
  looks status k w t h _ := ⟨⟨h, fun _ hi => by cases hi⟩, h⟩

theorem begins_waiting : Sweeps.Begins waiting watching x C Restful where
  start c started k w hk := by
    have hstart : Sweeps.At waiting 0 ((k, w), watching.start) := by
      obtain ⟨fds, slab, rfl⟩ := Config.kernel_eq hk
      exact .nil
    exact ((sweeps_waiting x C).meets_starts c.starts_spawnFirst hstart).mono fun r u hu _ => hu
  input finished k data closed t h := by
    cases finished <;> exact h
  output finished k out err t h := by
    cases finished <;> exact h

/-- Who has to wait for the caller is left alone until the slice is over: nothing
is asked of a process that is parked, which is one at whose place a flag was
raised, and who was told to come back later is parked, or was told so in a step
that began with a flag up. Nobody else is. -/
theorem parked_rests {o : KOp} {k : Kernel} {w : W} {t : Watch} (h : Performed x watching C o k w t) :
    (∀ (i : ℕ) (p : Proc), o.concerns i → k.procs[i]? = some p → p.parked = false) ∧
    t.spells.length = k.procs.length ∧
    ∀ (i : ℕ) (p : Proc) (s : Spell), k.procs[i]? = some p → t.spells[i]? = some s →
      p.parked = s.turned ∧ (p.parked = true → s.asked = true) ∧
      (s.asked = true → p.parked = true ∨ s.late = true) := by
  obtain ⟨htold, hawake⟩ := (sweeps_waiting x C).performed (begins_waiting x C) h
  refine ⟨fun i p hi hp => hawake i hi p hp, htold.length_eq.symm, fun i p s hp hs => ?_⟩
  obtain ⟨s', hs', hp⟩ := forall₂_at htold hp
  obtain rfl := Option.some.inj (hs'.symm.trans hs)
  rw [hp.parked]
  exact ⟨rfl, hp.asked, hp.told⟩

end

/-- A host command has no answer yet, and the slice comes to its end. -/
theorem parked_rests_waiting : ∃ (k : Kernel) (t : Watch) (p : Proc) (s : Spell),
    Performed Env.waits watching (fun _ _ => True) (.act .whyIdle) k () t ∧ k.procs[0]? = some p ∧
    t.spells[0]? = some s ∧ s.asked = true ∧ s.late = false ∧ p.parked = true := by
  have hstart : Recorded Env.waits watching (fun _ _ => True) ⟨_, none⟩ () _ :=
    .start .closedStdin 0 _ _ () _ _ rfl (Program.along_of_forall _ (fun _ _ => trivial) _ _) rfl
  have hidle := Performed.running _ _ _ 3 ⟨none, none⟩ _ hstart (Program.along_of_forall _
    (fun _ _ => trivial) _ _)
    (List.mem_of_getElem? (i := 17) rfl)
  obtain ⟨k, t, p, s, hidle, hp, hs, hasked, hlate⟩ : ∃ (k : Kernel) (t : Watch) (p : Proc) (s : Spell),
      Performed Env.waits watching (fun _ _ => True) (.act .whyIdle) k () t ∧ k.procs[0]? = some p ∧
      t.spells[0]? = some s ∧ s.asked = true ∧ s.late = false := ⟨_, _, _, _, hidle, rfl, rfl, rfl, rfl⟩
  obtain ⟨-, -, hmarks⟩ := parked_rests Env.waits (fun _ _ => True) hidle
  refine ⟨k, t, p, s, hidle, hp, hs, hasked, hlate, ?_⟩
  rcases (hmarks 0 p s hp hs).2.2 hasked with hparked | hlate'
  · exact hparked
  · rw [hlate] at hlate'
    cases hlate'

end Wasmux
