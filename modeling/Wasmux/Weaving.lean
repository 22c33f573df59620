import Wasmux.Effects.Woven
import Wasmux.Histories

/-!
# The loop around the turns

All that a session asks for is either asked in the turn of a process, or it is
one of the operations around the turns. What these operations keep, and every
turn from its start to its end, a session keeps along with its history.
-/

set_option autoImplicit false

namespace Wasmux
open Effects Abi

def KAct.steers : KAct → Bool
  | .takeSuspension _ => true
  | a => a.resumes

def KOp.around : KOp → Prop
  | .machine _ o => o.streams
  | .env _ => True
  | .act a => a.steers = false

inductive Turning : (β : Type) → Sched β → Prop
  | step (turns index : ℕ) : Turning ProcStep (Scheduler.stepProcess turns index)

theorem KOp.prepares.around {o : KOp} (h : o.prepares) : o.around := by
  cases o with
  | machine => cases h
  | env => trivial
  | act a =>
    cases a with
    | look | charge | release => rfl
    | _ => cases h

theorem KOp.advances.around {index : ℕ} {o : KOp} (h : o.advances index) : o.around := by
  cases o with
  | machine => exact h.2
  | env => trivial
  | act a =>
    cases a with
    | host | appendInput | setPhase | advance | noteHostPending => rfl
    | _ => cases h

namespace Scheduler

theorem around_prepare (program : ProgramId) (argv : List Bytes) : (prepare program argv).Only KOp.around :=
  (only_prepare program argv).mono fun _ => KOp.prepares.around

theorem around_closeFiles (handles : List Handle) : (closeFiles handles).Only KOp.around :=
  only_closeFiles (fun _ => trivial) handles

theorem around_replaceInstance (index : ℕ) : (replaceInstance index).Only KOp.around := by
  refine only_kact (a := .execRequest index) rfl ?_
  rintro (_ | spawn)
  · trivial
  refine only_kact rfl fun _ => ?_
  apply Program.only_bind (around_prepare spawn.program spawn.argv)
  rintro (_ | launch)
  · refine only_kact (a := .abandonExec index) rfl ?_
    intro handles
    exact Program.only_bind (around_closeFiles handles) fun _ => trivial
  · exact only_kact rfl fun _ => trivial

theorem around_startPending (count : ℕ) : (startPending count).Only KOp.around := by
  induction count with
  | zero => trivial
  | succ count ih =>
    refine only_kact (a := .look) rfl fun v => ?_
    split
    · trivial
    · apply Program.only_bind (around_prepare _ _)
      rintro (_ | launch)
      · refine only_kact (a := .abandonSpawn) rfl fun handles => ?_
        exact Program.only_bind (around_closeFiles handles) fun _ => ih
      · exact only_kact rfl fun _ => ih

theorem around_killAll (status : ℤ) (count : ℕ) : (killAll status count).Only KOp.around := by
  induction count with
  | zero => exact ⟨rfl, fun _ => trivial⟩
  | succ count ih =>
    refine only_kact (a := .finishProcess 0 status) rfl fun handles => ?_
    exact Program.only_bind (around_closeFiles handles) fun _ => ih

theorem around_pastDeadline : pastDeadline.Only KOp.around := by
  refine only_kact (a := .look) rfl fun v => ?_
  split
  · trivial
  · refine only_kenv trivial fun max => ?_
    split
    · exact only_kenv trivial fun _ => trivial
    · trivial

theorem around_spent (budget : Budget) (served : ℕ) (started : Instant) :
    (spent budget served started).Only KOp.around := by
  unfold spent
  split
  · trivial
  split
  · trivial
  · exact only_kenv trivial fun _ => trivial

theorem woven_kact {α : Type} {a : KAct} (ha : a.steers = false) {f : a.Ans → Sched α}
    (hf : ∀ r, (f r).Woven KOp.around Turning) : (kact a >>= f).Woven KOp.around Turning := .call _ _ ha hf

theorem woven_pass (turns left index : ℕ) (progressed : Bool) :
    (pass turns left index progressed).Woven KOp.around Turning := by
  induction left generalizing index progressed with
  | zero => exact .fail _
  | succ left ih =>
    refine woven_kact (a := .look) rfl fun v => ?_
    split
    · exact .ret _
    have hstep : (stepAndPark turns index).Woven KOp.around Turning := by
      refine woven_kact (a := .look) rfl fun before => ?_
      refine .block _ _ _ (.step turns index) fun step => ?_
      exact woven_kact (a := .look) rfl fun after => woven_kact rfl fun _ => .ret _
    apply hstep.bind
    intro step
    cases step with
    | ran | replaced | stuck => exact ih _ _
    | ended status =>
      refine woven_kact (a := .finishProcess index status) rfl fun handles => ?_
      apply (Program.woven_only (around_closeFiles handles)).bind
      intro _
      refine woven_kact (a := .look) rfl fun v => ?_
      split
      · exact .ret _
      · exact ih _ _

theorem woven_passes (budget : Budget) (served turns : ℕ) :
    (passes budget served turns).Woven KOp.around Turning := by
  induction turns with
  | zero => exact .fail _
  | succ turns ih =>
    refine woven_kact (a := .look) rfl fun v => ?_
    apply (Program.woven_only (around_startPending v.spawned)).bind
    intro _
    apply (Program.woven_only around_pastDeadline).bind
    intro past
    split
    · refine woven_kact (a := .look) rfl fun v => ?_
      apply (Program.woven_only (around_killAll _ v.count)).bind
      exact fun _ => woven_kact (a := .look) rfl fun _ => .ret _
    · refine woven_kact (a := .look) rfl fun v => ?_
      apply (woven_pass turns (v.count + 1) 0 false).bind
      intro swept
      cases swept with
      | finished status => exact .ret _
      | swept progressed =>
        refine woven_kact (a := .look) rfl fun v => ?_
        split
        · exact .ret _
        split
        · exact woven_kact (a := .whyIdle) rfl fun _ => .ret _
        · apply (Program.woven_only (around_spent budget _ _)).bind
          intro done
          split
          · exact .ret _
          · exact ih

theorem woven_run (turns : ℕ) (budget : Budget) : (run turns budget).Woven KOp.around Turning :=
  woven_kact (a := .look) rfl fun _ => woven_kact (a := .beginRun) rfl fun _ => woven_passes _ _ _

end Scheduler

theorem Config.around_spawnFirst (c : Config) : c.spawnFirst.Only KOp.around := by
  apply Program.only_bind (Scheduler.around_prepare c.program c.argv)
  rintro (_ | launch)
  · refine only_kact (a := .abandonSpawn) rfl fun handles => ?_
    exact Program.only_bind (Scheduler.around_closeFiles handles) fun _ => trivial
  · exact only_kact rfl fun _ => trivial

section
variable {W τ : Type} {x : Env W} {H : History τ} {C : KOp → Kernel × W → Prop}
    {D : KOp → (Kernel × W) × τ → Prop}
  {J : Kernel → τ → Prop}

/-- What makes `J` hold of a session and its history between turns: it holds at
the start, and what is around the turns keeps it, and every turn as a whole
does. On the way everything asked meets `D`. -/
structure Weaves (x : Env W) (H : History τ) (D : KOp → (Kernel × W) × τ → Prop)
    (J : Kernel → τ → Prop) : Prop where
  around : Chronicled x H (fun o _ => o.around) J
  meets : ∀ o s t, o.around → J s.1 t → D o (s, t)
  turn : ∀ turns index s t, J s.1 t → Program.Meets (H.exec x)
    (fun _ _ => True) D (Scheduler.stepProcess turns index)
    (fun r u => ∀ a, r = .ok a → J u.1.1 u.2) (s, t)

namespace Weaves

theorem woven (h : Weaves x H D J) {α : Type} {p : Sched α} (hp : p.Woven KOp.around Turning)
    {s : (Kernel × W) × τ} (hs : J s.1.1 s.2) : Program.Along (H.exec x) D p s ∧
      ∀ a, (p.run (H.exec x) s).1 = .ok a → J (p.run (H.exec x) s).2.1.1 (p.run (H.exec x) s).2.2 := by
  have hmeets : Program.Meets (H.exec x) (fun _ _ => True) D p
      (fun r u => ∀ a, r = .ok a → J u.1.1 u.2) s := by
    refine hp.meets (J := fun s : (Kernel × W) × τ => J s.1.1 s.2) ?_ ?_ hs
    · exact fun o s ho hJ _ => ⟨h.meets o s.1 s.2 ho hJ, h.around.next o s.1 s.2 hJ ho⟩
    · rintro _ _ ⟨turns, index⟩ s hJ
      exact h.turn turns index s.1 s.2 hJ
  exact hmeets.run (Program.along_of_forall _ (fun _ _ => trivial) _ _)

theorem recorded (h : Weaves x H D J) {s : Session} {w : W} {t : τ} (hs : Recorded x H C s w t) :
    J s.kernel t := by
  induction hs with
  | start c started k k' w w' t hk hc hr =>
    have hend := (h.woven (Program.woven_only c.around_spawnFirst)
      (s := ((k, w), H.start)) (h.around.init c started k hk)).2
    rw [hr] at hend
    exact hend true rfl
  | elapse s w w' t _ ih => exact ih
  | step k k' w w' t t' turns budget slice _ hc hr ih =>
    have hend := (h.woven (Scheduler.woven_run turns budget) (s := ((k, w), t)) ih).2
    rw [hr] at hend
    exact hend slice rfl
  | writeStdin s w t bytes _ ih => exact (h.around.lasting t).1 _ _ _ ih
  | closeStdin s w t _ ih => exact (h.around.lasting t).1 _ _ _ ih
  | takeStdout s w t _ ih => exact (h.around.lasting t).2 _ _ s.kernel.shared.stderr ih
  | takeStderr s w t _ ih => exact (h.around.lasting t).2 _ s.kernel.shared.stdout _ ih

theorem performed (h : Weaves x H D J) {o : KOp} {k : Kernel} {w : W} {t : τ} (ho : Performed x H C o k w t) :
    D o ((k, w), t) := by
  cases ho with
  | starting c started k w v hk hc hv =>
    have halong := (h.woven (Program.woven_only c.around_spawnFirst)
      (s := ((k, w), H.start)) (h.around.init c started k hk)).1
    exact (Program.along_iff_trace _ _ _ _).mp halong v hv
  | running k w t turns budget v hs hc hv =>
    have halong := (h.woven (Scheduler.woven_run turns budget) (s := ((k, w), t)) (h.recorded hs)).1
    exact (Program.along_iff_trace _ _ _ _).mp halong v hv

end Weaves
end

theorem meets_around {W τ α : Type} {x : Env W} {H : History τ} {D : KOp → (Kernel × W) × τ → Prop}
    {J : Kernel → τ → Prop} (hkeep : Chronicled x H (fun o _ => o.around) J)
    (hD : ∀ o s t, o.around → J s.1 t → D o (s, t)) {p : Sched α}
    (hp : p.Only KOp.around) {s : (Kernel × W) × τ} (hs : J s.1.1 s.2) :
    Program.Meets (H.exec x) (fun _ _ => True) D p (fun _ u => J u.1.1 u.2) s := by
  refine Program.meets_only (I := fun s : (Kernel × W) × τ => J s.1.1 s.2) ?_ hp hs
  exact fun o s ho hJ _ => ⟨hD o s.1 s.2 ho hJ, hkeep.next o s.1 s.2 hJ ho⟩

theorem modify_of_set {α : Type} {l : List α} {i : ℕ} (f : α → α) (a : α) (h : i < l.length) :
    (l.set i a).modify i f = l.set i (f a) := by
  apply List.ext_getElem?
  intro j
  rw [List.getElem?_modify, List.getElem?_set, List.getElem?_set]
  by_cases hij : i = j
  · subst hij
    simp [h]
  · simp [hij]

namespace Chronicle
variable {τ α W : Type} {H : Chronicle τ} {x : Env W}

/-- What is noted of one process while a handler's program runs. -/
def noting (H : Chronicle τ) (x : Env W) : Program.Exec sig ((Machine × W) × τ) :=
  Program.noting (exec x) fun t o s a => H.machine o s.1 a t

theorem run_noting (p : Program sig Stop α) (s : Machine × W) (t : τ) : ∃ t',
    p.run (H.noting x) (s, t) = ((p.run (exec x) s).1, (p.run (exec x) s).2, t') :=
  Program.run_noting p (s, t)

/-- A handler's program, run as operations of one process, meets there with the
history what it meets of its machine with the notes. -/
theorem meets_onProc {index : ℕ} {k : Kernel} {proc : Proc} {w : W} {ts : List τ} {t : τ}
    {p : Program sig Stop α} {A : KOp → (Kernel × W) × List τ → Prop} {B : Op → (Machine × W) × τ → Prop}
    {R : Except Stop α → (Machine × W) × τ → Prop} {Q : Except Stop α → (Kernel × W) × List τ → Prop}
    (h : k.procs[index]? = some proc) (ht : ts[index]? = some t)
    (hA : ∀ o m w t, B o ((m, w), t) →
      A (.machine index o) ((k.putMachine index m, w), ts.set index t))
    (hQ : ∀ r m w t, R r ((m, w), t) → Q r ((k.putMachine index m, w), ts.set index t))
    (hp : Program.Meets (H.noting x) (fun _ _ => True) B p R ((k.machineOf proc, w), t)) :
    Program.Meets (H.history.exec x) (fun _ _ => True) A (onProc index p) Q ((k, w), ts) := by
  have hlen : index < ts.length := (List.getElem?_eq_some_iff.mp ht).1
  have along : ∀ (p : Program sig Stop α) m w t, Program.Meets (H.noting x)
    (fun _ _ => True) B p R ((m, w), t) →
      Program.Meets (H.history.exec x) (fun _ _ => True) A (onProc index p) Q
        ((k.putMachine index m, w), ts.set index t) := by
    intro p
    induction p with
    | ret a => exact fun m w t hp => hQ _ _ _ _ hp
    | fail e => exact fun m w t hp => hQ _ _ _ _ hp
    | call o c ih =>
      intro m w t hp hc
      have hproc : (k.putMachine index m).procs[index]? =
        some { proc with ctx := m.ctx, inst := m.inst } := Kernel.putMachine_proc h m
      obtain ⟨ha, hnext⟩ := hp trivial
      refine ⟨hA _ _ _ _ ha, ?_⟩
      have hmachine : H.history.exec x (.machine index o) ((k.putMachine index m, w), ts.set index t) =
          ((exec x o (m, w)).1, ((k.putMachine index (exec x o (m, w)).2.1, (exec x o (m, w)).2.2),
            ts.set index (H.machine o m (exec x o (m, w)).1 t))) := by
        have hkexec := kexec_machine x hproc o w
        rw [Kernel.putMachine_putMachine] at hkexec
        unfold History.exec Program.noting
        rw [hkexec]
        simp only [history, hproc]
        rw [modify_of_set _ _ hlen]
        rfl
      rw [hmachine]
      exact ih _ _ _ _ hnext
  have hnotes : ts.set index t = ts := by
    obtain ⟨hlt, rfl⟩ := List.getElem?_eq_some_iff.mp ht
    exact List.set_getElem_self hlt
  have hmeets := along p (k.machineOf proc) w t hp
  rwa [Kernel.putMachine_self h, hnotes] at hmeets

/-- One process in the middle of its turn: of it and its notes `P` holds, and `R` of the others. -/
structure Amid (R P : Proc → τ → Prop) (index : ℕ) (k : Kernel) (ts : List τ) : Prop where
  here : ∃ p t, k.procs[index]? = some p ∧ ts[index]? = some t ∧ P p t
  rest : ∀ i p t, i ≠ index → k.procs[i]? = some p → ts[i]? = some t → R p t
  length : k.procs.length = ts.length

section
variable {R P Q : Proc → τ → Prop} {index : ℕ} {k : Kernel} {ts : List τ}

theorem amid_of_each {proc : Proc} (h : Each R k ts) (hp : k.procs[index]? = some proc) :
    Amid R (fun p t => p = proc ∧ R p t) index k ts where
  here := by
    obtain ⟨t, ht, hR⟩ := forall₂_at h hp
    exact ⟨proc, t, hp, ht, rfl, hR⟩
  rest i p t _ hp ht := by
    obtain ⟨t', ht', hR⟩ := forall₂_at h hp
    obtain rfl := Option.some.inj (ht.symm.trans ht')
    exact hR
  length := h.length_eq

theorem Amid.each (h : Amid R P index k ts) (hPR : ∀ p t, P p t → R p t) : Each R k ts := by
  obtain ⟨p, t, hp, ht, hP⟩ := h.here
  refine List.forall₂_iff_get.mpr ⟨h.length, fun i hi hi' => ?_⟩
  have hpi : k.procs[i]? = some (k.procs.get ⟨i, hi⟩) := List.getElem?_eq_getElem hi
  have hti : ts[i]? = some (ts.get ⟨i, hi'⟩) := List.getElem?_eq_getElem hi'
  by_cases hindex : i = index
  · subst hindex
    obtain rfl := Option.some.inj (hp.symm.trans hpi)
    obtain rfl := Option.some.inj (ht.symm.trans hti)
    exact hPR _ _ hP
  · exact h.rest i _ _ hindex hpi hti

theorem Amid.mono (h : Amid R P index k ts) (hPQ : ∀ p t, P p t → Q p t) : Amid R Q index k ts where
  here := by
    obtain ⟨p, t, hp, ht, hP⟩ := h.here
    exact ⟨p, t, hp, ht, hPQ p t hP⟩
  rest := h.rest
  length := h.length

theorem Amid.modify (h : Amid R P index k ts) {k' : Kernel} {f : Proc → Proc} {g : τ → τ}
    (hk : k'.procs = k.procs.modify index f)
    (hfg : ∀ p t, k.procs[index]? = some p → P p t → Q (f p) (g t)) :
    Amid R Q index k' (ts.modify index g) where
  here := by
    obtain ⟨p, t, hp, ht, hP⟩ := h.here
    exact ⟨f p, g t, by simp [hk, hp], by simp [ht], hfg p t hp hP⟩
  rest i p t hi hp ht := by
    rw [hk, List.getElem?_modify_ne _ _ (Ne.symm hi)] at hp
    rw [List.getElem?_modify_ne _ _ (Ne.symm hi)] at ht
    exact h.rest i p t hi hp ht
  length := by simp [hk, h.length]

theorem Amid.acted {a : KAct} (ha : a.target = some index) (h : Amid R P index k ts)
    (hPQ : ∀ p t, k.procs[index]? = some p → P p t → Q (a.effect p) (H.act a p t)) :
    Amid R Q index (a.exec k).2 (H.acted k ts a) := by
  obtain ⟨p, t, hp, -, -⟩ := h.here
  rw [H.acted_target ha, hp]
  apply h.modify (a.procs_target ha k)
  intro q t hq hP
  obtain rfl := Option.some.inj (hp.symm.trans hq)
  exact hPQ _ _ hp hP

theorem Amid.seen {a : KAct} (ha : a.target = none) (hgathers : a.gathers = false) (h : Amid R P index k ts) :
    Amid R P index (a.exec k).2 (H.acted k ts a) := by
  obtain ⟨hhere, hrest, hlength⟩ := h
  constructor
  · rwa [H.acted_untargeted ha hgathers, a.procs_untargeted ha hgathers]
  · rwa [H.acted_untargeted ha hgathers, a.procs_untargeted ha hgathers]
  · rwa [H.acted_untargeted ha hgathers, a.procs_untargeted ha hgathers]

/-- A handler's program of the process in its turn. -/
theorem Amid.meets_onProc {w : W} {p : Program sig Stop α} {A : KOp → (Kernel × W) × List τ → Prop}
    {B : Op → (Machine × W) × τ → Prop} (Q : Except Stop α → Proc → τ → Prop) (h : Amid R P index k ts)
    (hA : ∀ o k w ts p t, k.procs[index]? = some p → ts[index]? = some t → B o ((k.machineOf p, w), t) →
      A (.machine index o) ((k, w), ts))
    (hp : ∀ proc t, k.procs[index]? = some proc → P proc t →
      Program.Meets (H.noting x) (fun _ _ => True) B p
      (fun r s => Q r { proc with ctx := s.1.1.ctx, inst := s.1.1.inst } s.2)
        ((k.machineOf proc, w), t)) :
    Program.Meets (H.history.exec x) (fun _ _ => True) A (onProc index p)
      (fun r s => Amid R (Q r) index s.1.1 s.2) ((k, w), ts) := by
  obtain ⟨proc, t, hproc, ht, hP⟩ := h.here
  have hlen : index < ts.length := (List.getElem?_eq_some_iff.mp ht).1
  refine H.meets_onProc hproc ht ?_ ?_ (hp proc t hproc hP)
  · intro o m w t hB
    refine hA o _ w _ _ t (Kernel.putMachine_proc hproc m) (List.getElem?_set_self hlen) ?_
    exact hB
  · intro r m w t hQ
    refine ⟨⟨_, t, Kernel.putMachine_proc hproc m, List.getElem?_set_self hlen, hQ⟩, ?_, ?_⟩
    · intro i p u hi hpi hui
      have hpi' : (k.procs.modify index _)[i]? = some p := hpi
      rw [List.getElem?_modify_ne _ _ (Ne.symm hi)] at hpi'
      rw [List.getElem?_set_ne (Ne.symm hi)] at hui
      exact h.rest i p u hi hpi' hui
    · simp [Kernel.putMachine, Kernel.modifyProc, h.length]

end

section
variable {A : KOp → (Kernel × W) × List τ → Prop} {Q : Except Stop α → (Kernel × W) × List τ → Prop}
  {k : Kernel} {w : W} {ts : List τ}

theorem meets_kact {a : KAct} {f : a.Ans → Sched α} (hA : A (.act a) ((k, w), ts))
    (h : Program.Meets (H.history.exec x) (fun _ _ =>
      True) A (f (a.exec k).1) Q (((a.exec k).2, w), H.acted k ts a)) :
    Program.Meets (H.history.exec x) (fun _ _ => True) A (kact a >>= f) Q ((k, w), ts) := fun _ => ⟨hA, h⟩

theorem meets_guest {inst : Instance} {f : GuestRun → Sched α} (hA : A (.env (.guest inst)) ((k, w), ts))
    (h : ∀ run w, Program.Meets (H.history.exec x) (fun _ _ => True) A (f run) Q ((k, w), ts)) :
    Program.Meets (H.history.exec x) (fun _ _ => True) A (kenv (.guest inst) >>= f) Q ((k, w), ts) :=
      fun _ => ⟨hA, h _ _⟩

end

end Chronicle
end Wasmux
