import Wasmux.Retries

/-!
# Host commands that have answered

What a host command that has answered still has to write, and to end with, is
there from its answer on. Only the steps of its own process move it on.
-/

set_option autoImplicit false

namespace Wasmux
open Effects Abi

/-- The process is a host command that has come this far with its output. -/
def Proc.Emits (p : Proc) (phase : Phase) : Prop :=
    phase.isFlushing = true ∧ ∃ h, p.host = some h ∧ h.phase = phase

def KOp.mute : KOp → Prop
  | .act (.setPhase _ _) | .act (.advance _ _) => False
  | _ => True

theorem KOp.tends.mute {index : ℕ} {o : KOp} (h : o.tends index) : o.mute := by
  cases o with
  | machine | env => trivial
  | act a =>
    cases a with
    | setPhase | advance => exact h.elim id id
    | _ => trivial

theorem KOp.prepares.mute {o : KOp} (h : o.prepares) : o.mute :=
  (h.returns.tends : o.tends 0).mute

theorem KAct.effect_emits {a : KAct} (ha : (KOp.act a).mute) {p : Proc} {phase : Phase}
    (h : (a.effect p).Emits phase) : p.Emits phase := by
  obtain ⟨hflushing, host, hhost, hphase⟩ := h
  cases a with
  | setPhase | advance => cases ha
  | appendInput i chunk =>
    obtain ⟨host', hwas, rfl⟩ := Option.map_eq_some_iff.mp hhost
    refine ⟨hflushing, host', hwas, ?_⟩
    subst hphase
    rcases hcase : host'.phase with buffer | ⟨status, stdout, stderr, outDone, errDone⟩
    · simp [hcase, Phase.isFlushing] at hflushing
    · rfl
  | attach i =>
    simp only [effect] at hhost
    split at hhost
    · exact ⟨hflushing, host, hhost, hphase⟩
    · exact ⟨hflushing, host, hhost, hphase⟩
  | restoreJmp i buf value =>
    refine ⟨hflushing, host, ?_, hphase⟩
    simp only [effect] at hhost
    repeat' split at hhost
    all_goals exact hhost
  | _ => exact ⟨hflushing, host, hhost, hphase⟩

theorem Kernel.procOf_emits (spawn : Spawn) (launch : Launch) (phase : Phase) :
    ¬ (procOf spawn launch).Emits phase := by
  rintro ⟨hflushing, host, hhost, hphase⟩
  cases launch with
  | host command reads =>
    obtain rfl := Option.some.inj hhost
    subst hphase
    cases hflushing
  | guest inst charged data => cases hhost

theorem KAct.emits_back {a : KAct} (ha : (KOp.act a).mute) {k : Kernel} {p : Proc} {phase : Phase}
    (hp : p ∈ (a.exec k).2.procs) (h : p.Emits phase) :
    ∃ q ∈ k.procs, q.Emits phase ∧ q.ctx.task.pid = p.ctx.task.pid := by
  rcases htarget : a.target with _ | i
  · cases hgathers : a.gathers with
    | false =>
      rw [a.procs_untargeted htarget hgathers] at hp
      exact ⟨p, hp, h, rfl⟩
    | true =>
      cases a with
      | launchSpawn launch =>
        simp only [exec] at hp
        split at hp
        · exact ⟨p, hp, h, rfl⟩
        · rcases List.mem_append.mp hp with hp | hp
          · exact ⟨p, hp, h, rfl⟩
          · obtain rfl := List.mem_singleton.mp hp
            exact absurd h (Kernel.procOf_emits _ _ _)
      | finishProcess i status =>
        simp only [exec, Kernel.finishProcess] at hp
        split at hp
        · exact ⟨p, hp, h, rfl⟩
        · exact ⟨p, List.mem_of_mem_eraseIdx hp, h, rfl⟩
      | abandonExec i =>
        simp only [exec] at hp
        split at hp
        · exact ⟨p, hp, h, rfl⟩
        · exact ⟨p, List.mem_of_mem_eraseIdx hp, h, rfl⟩
      | launchExec i launch =>
        obtain ⟨j, hj⟩ := List.mem_iff_getElem?.mp hp
        simp only [exec, Kernel.modifyProc, List.getElem?_modify] at hj
        obtain ⟨q, hq, rfl⟩ := Option.map_eq_some_iff.mp hj
        have hq := List.mem_of_getElem? hq
        by_cases hij : i = j
        · rw [if_pos hij] at h ⊢
          unfold Kernel.relaunch at h ⊢
          cases hreq : q.ctx.execRequest with
          | some spawn =>
            rw [hreq] at h
            exact absurd h (Kernel.procOf_emits _ _ _)
          | none =>
            rw [hreq] at h
            exact ⟨q, hq, h, rfl⟩
        · rw [if_neg hij] at h ⊢
          exact ⟨q, hq, h, rfl⟩
      | beginRun =>
        obtain ⟨q, hq, rfl⟩ := List.mem_map.mp hp
        exact ⟨q, hq, h, rfl⟩
      | _ => cases hgathers
  · rw [a.procs_target htarget] at hp
    obtain ⟨j, hj⟩ := List.mem_iff_getElem?.mp hp
    rw [List.getElem?_modify] at hj
    obtain ⟨q, hq, rfl⟩ := Option.map_eq_some_iff.mp hj
    refine ⟨q, List.mem_of_getElem? hq, ?_⟩
    by_cases hij : i = j
    · rw [if_pos hij] at h ⊢
      exact ⟨a.effect_emits ha h, congrArg Task.pid (a.effect_place q).2.symm⟩
    · rw [if_neg hij] at h ⊢
      exact ⟨h, rfl⟩

theorem attach_host {k : Kernel} {index : ℕ} {p : Proc} {host : HostProc} (hp : k.procs[index]? = some p)
    (hhost : p.host = some host) : ((KAct.attach index).exec k).2 = k ∧
      (((KAct.attach index).exec k).1 = none ∨ ((KAct.attach index).exec k).1 = some .host) := by
  cases hparked : p.parked with
  | true => simp [KAct.exec, hp, hparked]
  | false => simp [KAct.exec, hp, hparked, hhost]

section
variable {W : Type} (x : Env W)

/-- What a process has to write after an operation that moves no output on, it
had to write before. -/
theorem emits_back {o : KOp} (ho : o.mute) {s : Kernel × W} {p : Proc} {phase : Phase}
    (hp : p ∈ (kexec x o s).2.1.procs) (h : p.Emits phase) :
    ∃ q ∈ s.1.procs, q.Emits phase ∧ (o.Hosted s.1 → q.ctx.task.pid = p.ctx.task.pid) := by
  obtain ⟨k, w⟩ := s
  cases o with
  | env c => exact ⟨p, hp, h, fun _ => rfl⟩
  | act a =>
    obtain ⟨q, hq, hemits, hpid⟩ := KAct.emits_back ho hp h
    exact ⟨q, hq, hemits, fun _ => hpid⟩
  | machine i o =>
    rcases hat : k.procs[i]? with _ | q
    · rw [kexec_machine_none x hat] at hp
      exact ⟨p, hp, h, fun _ => rfl⟩
    · rw [kexec_machine x hat] at hp
      obtain ⟨j, hj⟩ := List.mem_iff_getElem?.mp hp
      simp only [Kernel.putMachine, Kernel.modifyProc, List.getElem?_modify] at hj
      obtain ⟨q', hq', rfl⟩ := Option.map_eq_some_iff.mp hj
      refine ⟨q', List.mem_of_getElem? hq', ?_⟩
      by_cases hij : i = j
      · subst hij
        obtain rfl := Option.some.inj (hat.symm.trans hq')
        rw [if_pos rfl] at h ⊢
        refine ⟨h, fun hhosted => ?_⟩
        obtain hstreams | hguest := hhosted
        · cases o with
          | env c => rfl
          | act a =>
            have hctx : (a.exec (k.machineOf q)).2.ctx = q.ctx := a.ctx_streams _ hstreams
            simp only [exec_act, hctx]
        · obtain ⟨-, host, hhost, -⟩ := h
          exact absurd (hhost.symm.trans (hguest q hat)) (by simp)
      · rw [if_neg hij] at h ⊢
        exact ⟨h, fun _ => rfl⟩

end
end Wasmux
