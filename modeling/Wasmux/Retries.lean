import Wasmux.Histories

/-!
# The retries of a host command

A command that answered `EAGAIN` is called again with what it was given, and
with whatever its standard input has handed over since.
-/

set_option autoImplicit false

namespace Wasmux
open Effects Abi

/-- What is noted of a process: its last call of a command, if that was
answered `EAGAIN`, and what it has read from standard input since. -/
def retries : Chronicle (Option (Invocation × Bytes)) where
  fresh := none
  machine _ _ _ t := t
  act a _ t := match a with
    | .appendInput _ chunk => t.map fun (call, more) => (call, more ++ chunk)
    | _ => t
  command call answer _ := match answer with
    | .error .again => some (call, [])
    | _ => none

def Proc.invocation (p : Proc) (stdin : Bytes) : Invocation := ⟨p.ctx.argv, p.ctx.envp, p.ctx.task.cwd, stdin⟩

def Phase.isFlushing : Phase → Bool
  | .reading _ => false
  | .flushing _ _ _ _ _ => true

/-- The operations on a host process, as its steps perform them. -/
def KOp.Hosted : KOp → Kernel → Prop
  | .machine i o, k => o.streams ∨ ∀ p, k.procs[i]? = some p → p.host = none
  | .env (.command i _ call), k => ∃ p h, k.procs[i]? = some p ∧ p.host = some h ∧
      h.phase = .reading call.stdin ∧ call = p.invocation call.stdin
  | .act (.setPhase _ phase), _ => phase.isFlushing = true
  | _, _ => True

/-- A process whose last call is to be repeated still has all it was given. -/
def Repeats (p : Proc) (t : Option (Invocation × Bytes)) : Prop := ∀ call more, t = some (call, more) →
  ∃ h, p.host = some h ∧ call = p.invocation call.stdin ∧
    (h.phase = .reading (call.stdin ++ more) ∨ h.phase.isFlushing = true)

theorem Act.ctx_streams (a : Act) (m : Machine) (h : a.streams = true) : (a.exec m).2.ctx = m.ctx := by
  cases a with
  | put start data =>
    simp only [exec]
    split <;> rfl
  | view | setDescPos | stdinTake | pipeTake | pipePut | writeOutput | raise | wantStdin | noteVfsPending =>
      rfl
  | _ => cases h

theorem retries_keeps {W : Type} (x : Env W) : retries.Keeps x (fun o s => o.Hosted s.1) Repeats where
  fresh _ _ call more h := by cases h
  begin p t hR := hR
  machine i o k w p t hp hR ha := by
    rintro call more rfl
    obtain ⟨h, hhost, hcall, hphase⟩ := hR call more rfl
    have hstreams : o.streams := ha.resolve_right fun hguest => by
      have := hguest p hp
      rw [this] at hhost
      cases hhost
    refine ⟨h, hhost, hcall.trans ?_, hphase⟩
    cases o with
    | env c => rfl
    | act a =>
      have hctx : (a.exec (k.machineOf p)).2.ctx = p.ctx := a.ctx_streams _ hstreams
      simp only [Proc.invocation, exec_act, hctx]
  command i c call k w p t hp hR ha := by
    rintro call' more heq
    obtain ⟨q, h, hq, hhost, hphase, hcall⟩ := ha
    obtain rfl : q = p := Option.some.inj (hq.symm.trans hp)
    have hagain : call' = call ∧ more = [] := by
      simp only [retries] at heq
      split at heq
      · simpa [eq_comm] using heq
      · cases heq
    obtain ⟨rfl, rfl⟩ := hagain
    exact ⟨h, hhost, hcall, .inl (by simpa using hphase)⟩
  act a i k w p t htarget hp hR ha := by
    cases a with
    | appendInput j chunk =>
      rintro call more heq
      obtain ⟨⟨call', more'⟩, rfl, heq⟩ := Option.map_eq_some_iff.mp heq
      obtain ⟨rfl, rfl⟩ := by simpa using heq
      obtain ⟨h, hhost, hcall, hphase⟩ := hR _ _ rfl
      refine ⟨_, congrArg (Option.map _) hhost, hcall, ?_⟩
      rcases hphase with hphase | hphase
      · left
        simp [hphase]
      · right
        cases hwas : h.phase with
        | reading buffer => simp [hwas, Phase.isFlushing] at hphase
        | flushing => simp [hwas, Phase.isFlushing]
    | setPhase j phase =>
      rintro call more rfl
      obtain ⟨h, hhost, hcall, -⟩ := hR call more rfl
      exact ⟨{ h with phase := phase }, by simp [KAct.effect, hhost], hcall, .inr ha⟩
    | advance j offer =>
      rintro call more rfl
      obtain ⟨h, hhost, hcall, hphase⟩ := hR call more rfl
      refine ⟨{ h with phase := Kernel.Phase.advance offer.fd offer.count h.phase }, by
        simp [KAct.effect, hhost], hcall, ?_⟩
      rcases hphase with hphase | hphase
      · left
        simp [hphase, Kernel.Phase.advance]
      · right
        cases hwas : h.phase with
        | reading buffer => simp [hwas, Phase.isFlushing] at hphase
        | flushing =>
          simp only [Kernel.Phase.advance]
          split <;> rfl
    | attach j =>
      simp only [KAct.effect]
      split <;> exact hR
    | endStep | releaseInstance | setResume | rewind | resumeWith | takeSuspension | saveJmp => exact hR
    | restoreJmp j buf value =>
      simp only [KAct.effect]
      repeat' split
      all_goals exact hR
    | _ => cases htarget

/-- The operations that are about no host process, whatever the state. -/
def KOp.plain : KOp → Prop
  | .machine _ _ => False
  | .env c => c.invokes = false
  | .act (.setPhase _ phase) => phase.isFlushing = true
  | .act _ => True

section
variable {α W : Type} (x : Env W)

theorem KOp.plain.hosted {o : KOp} (h : o.plain) (k : Kernel) : o.Hosted k := by
  cases o with
  | machine => cases h
  | env c =>
    cases c with
    | command => cases h
    | _ => trivial
  | act a =>
    cases a with
    | setPhase => exact h
    | _ => trivial

theorem meets_plain {p : Sched α} (hp : p.Only KOp.plain) (s : Kernel × W) :
    Program.Meets (kexec x) (fun _ _ => True) (fun o s => o.Hosted s.1) p (fun _ _ => True) s :=
  Program.meets_only (I := fun _ => True) (fun _ _ ho _ _ => ⟨ho.hosted _, trivial⟩) hp trivial

theorem meets_transfers {index : ℕ} {p : Sched α} (hp : p.Only (KOp.transfers index)) (s : Kernel × W) :
    Program.Meets (kexec x) (fun _ _ => True) (fun o s => o.Hosted s.1) p (fun _ _ => True) s := by
  apply Program.meets_only (I := fun _ => True) _ hp trivial
  intro o s ho _ _
  refine ⟨?_, trivial⟩
  cases o with
  | machine => exact .inl ho.2
  | env => cases ho
  | act a =>
    cases a with
    | host | appendInput | advance => trivial
    | _ => cases ho

/-- Whether the process at `index`, if there is one, is a guest. -/
def Kernel.GuestAt (k : Kernel) (index : ℕ) : Prop := ∀ p, k.procs[index]? = some p → p.host = none

theorem Kernel.GuestAt.modify {k : Kernel} {index : ℕ} (h : k.GuestAt index) {f : Proc → Proc}
    (hf : ∀ p, (f p).host = p.host) : (k.modifyProc index f).GuestAt index := by
  intro q hq
  obtain ⟨p, hp, rfl⟩ := modify_at hq
  exact (hf p).trans (h p hp)

theorem meets_guest {index : ℕ} (p : Program sig Stop α) {s : Kernel × W} (h : s.1.GuestAt index) :
    Program.Meets (kexec x) (fun _ _ => True) (fun o s => o.Hosted s.1) (onProc index p)
      (fun _ t => t.1.GuestAt index) s := by
  refine Program.meets_only (B := fun o => ∃ o', o = KOp.machine index o')
    (I := fun t : Kernel × W => t.1.GuestAt index) ?_ ?_ h
  · rintro _ ⟨k, w⟩ ⟨o, rfl⟩ hs -
    refine ⟨.inr hs, ?_⟩
    intro q hq
    rcases hp : k.procs[index]? with _ | p
    · rw [kexec_machine_none x hp] at hq
      exact hs q hq
    · rw [kexec_machine x hp] at hq
      obtain rfl := Option.some.inj ((Kernel.putMachine_proc hp _).symm.trans hq)
      exact hs p hp
  · exact only_onProc (D := fun _ => True) (fun o _ => ⟨o, rfl⟩) (Program.only_of_forall (fun _ => trivial) p)

theorem KOp.returns.plain {index : ℕ} {o : KOp} (h : o.returns index) : o.plain := by
  cases o with
  | machine => cases h
  | env => exact h
  | act a =>
    cases a with
    | setPhase => cases h
    | _ => trivial

theorem plain_prepare (program : ProgramId) (argv : List Bytes) :
    (Scheduler.prepare program argv).Only KOp.plain := by
  apply (Scheduler.only_prepare program argv).mono
  intro o ho
  exact (ho.returns : o.returns 0).plain

theorem plain_replaceInstance (index : ℕ) : (Scheduler.replaceInstance index).Only KOp.plain :=
  (Scheduler.only_replaceInstance index).mono fun _ => KOp.returns.plain

theorem plain_afterReturn (index : ℕ) : (Scheduler.afterReturn index).Only KOp.plain :=
  (Scheduler.only_afterReturn index).mono fun _ => KOp.returns.plain

/-- A command is called with what its process is found to have. -/
theorem meets_invoke (index : ℕ) (s : Kernel × W) :
    Program.Meets (kexec x) (fun _ _ => True) (fun o s => o.Hosted s.1) (Scheduler.invoke index)
      (fun _ _ => True) s := by
  have hflush : ∀ phase t, Phase.isFlushing phase = true → Program.Meets (kexec x) (fun _ _ => True)
      (fun o s => o.Hosted s.1) (kact (.setPhase index phase) >>= fun _ => Scheduler.flushAll index)
      (fun _ _ => True) t := fun phase t hphase =>
    meets_kact fun _ => ⟨hphase, meets_transfers x (Scheduler.only_flushAll index) _⟩
  unfold Scheduler.invoke
  refine meets_kact fun _ => ⟨trivial, ?_⟩
  rcases hp : s.1.procs[index]? with _ | p
  · have hnone : ((KAct.host index).exec s.1).1 = none := by simp [KAct.exec, hp]
    rw [hnone]
    trivial
  rcases hh : p.host with _ | ⟨command, reads, phase⟩
  · have hnone : ((KAct.host index).exec s.1).1 = none := by simp [KAct.exec, hp, hh]
    rw [hnone]
    trivial
  have hsome : ((KAct.host index).exec s.1).1 =
      some ⟨⟨command, reads, phase⟩, p.ctx.argv, p.ctx.envp, p.ctx.task.cwd, p.ctx.task.comm⟩ := by
    simp [KAct.exec, hp, hh]
  rw [hsome]
  cases phase with
  | flushing => trivial
  | reading buffer =>
    refine meets_kenv fun _ => ⟨⟨p, _, hp, hh, rfl, rfl⟩, ?_⟩
    generalize (KCall.command index command ⟨p.ctx.argv, p.ctx.envp, p.ctx.task.cwd, buffer⟩).answer x
      s.2 = answer
    obtain ⟨answer, w⟩ := answer
    rcases answer with e | exit
    · apply Program.meets_ite
      · exact fun _ => meets_kact fun _ => ⟨trivial, trivial⟩
      · exact fun _ => hflush _ _ rfl
    · exact hflush _ _ rfl

theorem meets_stepHost (turns index : ℕ) (s : Kernel × W) :
    Program.Meets (kexec x) (fun _ _ => True) (fun o s => o.Hosted s.1) (Scheduler.stepHost turns index)
      (fun _ _ => True) s := by
  unfold Scheduler.stepHost
  refine meets_kact fun _ => ⟨trivial, ?_⟩
  generalize ((KAct.host index).exec s.1).1 = view
  rcases view with _ | ⟨⟨command, reads, phase⟩, argv, envp, cwd, comm⟩
  · trivial
  cases phase with
  | flushing => exact meets_transfers x (Scheduler.only_flushAll index) _
  | reading buffer =>
    apply Program.meets_ite
    · intro _
      apply Program.meets_bind (meets_transfers x (Scheduler.only_drain index turns) _)
      · rintro (_ | _) t _
        · exact meets_invoke x index t
        · trivial
      · exact fun _ _ _ => trivial
    · exact fun _ => meets_invoke x index _

/-- Entering a guest. -/
theorem meets_enterGuest (index : ℕ) {s : Kernel × W} (h : s.1.GuestAt index) :
    Program.Meets (kexec x) (fun _ _ => True) (fun o s => o.Hosted s.1) (Scheduler.enter index)
      (fun _ _ => True) s := by
  unfold Scheduler.enter
  refine meets_kact fun _ => ⟨trivial, ?_⟩
  generalize ((KAct.inst index).exec s.1).1 = inst
  rcases inst with _ | inst
  · trivial
  refine meets_kenv fun _ => ⟨trivial, ?_⟩
  generalize (KCall.guest inst).answer x s.2 = answer
  obtain ⟨run, w⟩ := answer
  dsimp only
  apply Program.meets_bind (meets_guest x (runActs run.acts) (s := (s.1, w)) h)
  · intro _ t _
    cases run.trap with
    | some kind => exact meets_kact fun _ => ⟨trivial, trivial⟩
    | none => exact meets_plain x (plain_afterReturn index) t
  · exact fun _ _ _ => trivial

theorem meets_stepProcess (turns index : ℕ) (s : Kernel × W) :
    Program.Meets (kexec x) (fun _ _ => True) (fun o s => o.Hosted s.1) (Scheduler.stepProcess turns index)
      (fun _ _ => True) s := by
  unfold Scheduler.stepProcess
  refine meets_kact fun _ => ⟨trivial, ?_⟩
  have hguest : ∀ resume, ((KAct.attach index).exec s.1).1 = some (.guest resume) →
      ((KAct.attach index).exec s.1).2.GuestAt index := by
    intro resume hresume q hq
    rw [KAct.procs_target _ (by rfl : (KAct.attach index).target = some index)] at hq
    obtain ⟨p, hp, rfl⟩ := Kernel.modify_at hq
    cases hparked : p.parked with
    | true => simp [KAct.exec, hp, hparked] at hresume
    | false =>
      cases hhost : p.host with
      | some host => simp [KAct.exec, hp, hparked, hhost] at hresume
      | none => simp [KAct.effect, hparked, hhost]
  generalize ((KAct.attach index).exec s.1).2 = k at hguest ⊢
  generalize ((KAct.attach index).exec s.1).1 = attached at hguest ⊢
  rcases attached with _ | _ | resume
  · trivial
  · exact meets_stepHost x turns index _
  replace hguest := hguest resume rfl
  cases resume with
  | fresh => exact meets_enterGuest x index hguest
  | rewind =>
    exact meets_kact fun _ => ⟨trivial, meets_enterGuest x index (hguest.modify fun _ => rfl)⟩
  | blocked number args =>
    apply Program.meets_bind (meets_guest x (dispatch number args) (s := (k, s.2)) hguest)
    · intro outcome t ht
      cases outcome with
      | blocked => exact meets_kact fun _ => ⟨trivial, trivial⟩
      | exit status => trivial
      | exec => exact meets_plain x (plain_replaceInstance index) t
      | value value =>
        exact meets_kact fun _ => ⟨trivial, meets_enterGuest x index (Kernel.GuestAt.modify ht fun _ => rfl)⟩
    · exact fun _ _ _ => trivial

theorem kept_hosted : Kept x (fun _ _ => True) (fun o s => o.Hosted s.1) (fun _ => True) where
  idle a s ha _ _ := by
    cases a with
    | look | beginRun | endStep | forceExit | whyIdle => exact ⟨trivial, trivial⟩
    | _ => cases ha
  env c s hcall _ := by
    cases c with
    | command => cases hcall
    | _ => trivial
  finish _ _ _ _ _ := ⟨trivial, trivial⟩
  start program argv s _ _ := by
    apply (meets_plain x (plain_prepare program argv) s).mono
    rintro r t - (_ | launch) -
    · exact fun _ => ⟨trivial, trivial⟩
    · exact fun _ => ⟨trivial, trivial⟩
  step turns index s _ := (meets_stepProcess x turns index s).mono fun _ _ _ _ _ => trivial

/-- A command that answered `EAGAIN` is next called with what it was called with
then if and only if its standard input has handed over nothing in between. -/
theorem retry_identical_iff {index command : ℕ} {call last : Invocation} {more : Bytes} {k : Kernel} {w : W}
    {notes : List (Option (Invocation × Bytes))}
    (h : Performed x retries.history (fun _ _ => True) (.env (.command index command call)) k w notes)
    (hlast : notes[index]? = some (some (last, more))) : call = last ↔ more = [] := by
  have hlasting : Lasting fun _ => True :=
    ⟨fun _ _ _ _ => trivial, fun _ _ _ _ => trivial, fun _ _ _ _ => trivial⟩
  obtain ⟨heach, p, host, hp, hhost, hphase, hcall⟩ :=
    h.holds (retries_keeps x).chronicled (kept_hosted x) hlasting
  obtain ⟨t, ht, hR⟩ := forall₂_at heach hp
  obtain rfl := Option.some.inj (hlast.symm.trans ht)
  obtain ⟨host', hhost', hwas, hread⟩ := hR last more rfl
  obtain rfl := Option.some.inj (hhost.symm.trans hhost')
  rcases hread with hread | hflushing
  · obtain hstdin : call.stdin = last.stdin ++ more := by simpa [hphase] using hread
    rw [hcall, hwas, hstdin]
    simp [Proc.invocation]
  · simp [hphase, Phase.isFlushing] at hflushing

end

/-- One host command that reads its standard input and never has an answer. -/
def Env.waits : Env Unit :=
  { Env.still Unit with
    readsStdin := fun _ _ w => (true, w)
    command := fun _ _ w => (.error .again, w) }

def Config.closedStdin : Config := { bare [.host 0] with stdinClosed := true }

theorem retry_identical_iff_waiting :
    ∃ (index command : ℕ) (call last : Invocation) (more : Bytes) (k : Kernel)
      (notes : List (Option (Invocation × Bytes))),
    Performed Env.waits retries.history (fun _ _ => True) (.env (.command index command call)) k () notes ∧
    notes[index]? = some (some (last, more)) ∧ (call = last ↔ more = []) := by
  have hstart : Recorded Env.waits retries.history (fun _ _ => True) ⟨_, none⟩ () [none] :=
    .start .closedStdin 0 _ _ () _ _ rfl (Program.along_of_forall _ (fun _ _ => trivial) _ _) rfl
  have hwait := Recorded.step _ _ _ _ _ _ 3 ⟨none, none⟩ (.idle .host) hstart
    (Program.along_of_forall _ (fun _ _ => trivial) _ _) rfl
  have hagain := Performed.running _ _ _ 3 ⟨none, none⟩ _ hwait
    (Program.along_of_forall _ (fun _ _ => trivial) _ _) (List.mem_of_getElem? (i := 11) rfl)
  exact ⟨_, _, _, _, _, _, _, hagain, rfl, retry_identical_iff Env.waits hagain rfl⟩

/-- What is written to standard input after the command was called is in the
retry, and was not in the call. -/
theorem retry_differs : ∃ (index command : ℕ) (call last : Invocation) (more : Bytes) (k : Kernel)
    (notes : List (Option (Invocation × Bytes))),
    Performed Env.waits retries.history (fun _ _ => True) (.env (.command index command call)) k () notes ∧
    notes[index]? = some (some (last, more)) ∧ last.stdin = [] ∧ call.stdin = [1] := by
  have hstart : Recorded Env.waits retries.history (fun _ _ => True) ⟨_, none⟩ () [none] :=
    .start .closedStdin 0 _ _ () _ _ rfl (Program.along_of_forall _ (fun _ _ => trivial) _ _) rfl
  have hwait := Recorded.step _ _ _ _ _ _ 3 ⟨none, none⟩ (.idle .host) hstart
    (Program.along_of_forall _ (fun _ _ => trivial) _ _) rfl
  have hagain := Performed.running _ _ _ 3 ⟨none, none⟩ _ (.writeStdin _ _ _ [1] hwait)
    (Program.along_of_forall _ (fun _ _ => trivial) _ _) (List.mem_of_getElem? (i := 14) rfl)
  refine ⟨_, _, _, ⟨[ascii "0"], [], root, []⟩, [1], _, _, hagain, ?_, rfl, ?_⟩
  · decide +kernel
  · decide +kernel

end Wasmux
