import Wasmux.Weaving

/-!
# The turn of a process

A turn takes a process from rest into its guest and back to rest, or has a call
made again that the process has put aside. What is said of a process and its
notes at each of these places holds in a whole session, when every leg of the
way leads from one of them to the next.
-/

set_option autoImplicit false

namespace Wasmux
open Effects Abi

/-- The steps of a turn that ask why its guest came back, save its stack or put it back. -/
def KAct.jumps : KAct → Bool
  | .takeSuspension _ | .saveJmp _ _ _ | .restoreJmp _ _ _ => true
  | _ => false

theorem KAct.jumps_of_steers {a : KAct} (h : a.steers = false) : a.jumps = false := by
  cases a with
  | takeSuspension | saveJmp | restoreJmp => cases h
  | _ => rfl

/-- What is said of a process and its notes: at rest, in its guest, and with a
call to make again. -/
structure Places (τ : Type) where
  rests : Proc → τ → Prop
  enters : Ctx → Instance → τ → Prop
  retries : ℤ → Args → Ctx → Instance → τ → Prop

namespace Places
variable {τ W : Type} (S : Places τ) (H : Chronicle τ) (D : KAct → Proc → τ → Prop)

/-- A call that was made again has this outcome. -/
def Answered (index : ℕ) (number : ℤ) (args : Args) (p : Proc) (t : τ) : Outcome → Prop
  | .blocked => S.rests { p with resume := .blocked number args }
      (H.act (.setResume index (.blocked number args)) p t)
  | .value value =>
    S.enters { p.ctx with exec := { p.ctx.exec with resumeValue := value, rewinding := true } } p.inst
      (H.act (.resumeWith index value) p t)
  | .exit _ | .exec => S.rests p t

/-- The guest has come back, and this was the reason. -/
def Returned (index : ℕ) (p : Proc) (t : τ) : Option Suspension → Prop
  | none | some (.exit _) | some .exec => S.rests p t
  | some (.setjmp buf sp) => D (.saveJmp index buf sp) p t ∧
    S.rests ((KAct.saveJmp index buf sp).effect p) (H.act (.saveJmp index buf sp) p t)
  | some (.longjmp buf value) => D (.restoreJmp index buf value) p t ∧
    S.rests ((KAct.restoreJmp index buf value).effect p) (H.act (.restoreJmp index buf value) p t)
  | some (.blocked number args) =>
    S.rests { p with resume := .blocked number args } (H.act (.setResume index (.blocked number args)) p t)

/-- Every leg of a turn leads from one place to the next. On the way, `B` holds
at what the process asks, and `D` at what is done to it. -/
structure Connects (x : Env W) (B : Op → (Machine × W) × τ → Prop) : Prop where
  keeps : H.Keeps x (fun o _ => o.around) S.rests
  streams : ∀ o s t, o.streams → B o (s, t)
  others : ∀ a p t, a.jumps = false → D a p t
  parked : ∀ i (p : Proc) t, S.rests p t → S.rests p (H.act (.attach i) p t)
  fresh : ∀ i p t, S.rests p t → p.resume = .fresh → S.enters p.ctx p.inst (H.act (.attach i) p t)
  rewind : ∀ i p t, S.rests p t → p.resume = .rewind →
    S.enters { p.ctx with exec := { p.ctx.exec with rewinding := true } } p.inst
      (H.act (.rewind i) { p with resume := .fresh } (H.act (.attach i) p t))
  blocked : ∀ i p t number args, S.rests p t → p.resume = .blocked number args →
    S.retries number args p.ctx p.inst (H.act (.attach i) p t)
  guest : ∀ g m w t, S.enters m.ctx m.inst t → Program.Meets (H.noting x) (fun _ _ => True) B
    (guestAct g : Program sig Stop Unit) (fun _ s => S.enters s.1.1.ctx s.1.1.inst s.2) ((m, w), t)
  again : ∀ index number args (p : Proc) (m : Machine) w t, p.resume = .fresh → m.ctx = p.ctx →
    m.inst = p.inst →
    S.retries number args p.ctx p.inst t → Program.Meets (H.noting x) (fun _ _ => True) B
      (dispatch number args : Program sig Stop Outcome)
      (fun r s => ∀ outcome, r = .ok outcome →
        S.Answered H index number args { p with ctx := s.1.1.ctx, inst := s.1.1.inst } s.2 outcome)
      ((m, w), t)
  ends : ∀ (p : Proc) t, p.resume = .fresh → S.enters p.ctx p.inst t → S.rests p t
  leaves : ∀ i (p : Proc) t, p.resume = .fresh → S.enters p.ctx p.inst t → D (.takeSuspension i) p t
  returns : ∀ i (p : Proc) t, p.resume = .fresh → S.enters p.ctx p.inst t →
    S.Returned H D i ((KAct.takeSuspension i).effect p) (H.act (.takeSuspension i) p t) p.ctx.exec.suspension

def Sees (B : Op → (Machine × W) × τ → Prop) : KOp → (Kernel × W) × List τ → Prop
  | .machine i o, s => ∀ p t, s.1.1.procs[i]? = some p → s.2[i]? = some t →
      B o ((s.1.1.machineOf p, s.1.2), t)
  | .act a, s => ∀ i p t, a.target = some i → s.1.1.procs[i]? = some p → s.2[i]? = some t → D a p t
  | .env _, _ => True

namespace Connects
variable {S H D} {x : Env W} {B : Op → (Machine × W) × τ → Prop} {index : ℕ} {k : Kernel} {w : W}
    {ts : List τ}

theorem sees_around (h : S.Connects H D x B) (o : KOp) (s : (Kernel × W) × List τ) (ho : o.around) :
    Sees D B o s := by
  cases o with
  | machine i o => exact fun p t _ _ => h.streams o _ t ho
  | env => trivial
  | act a => exact fun i p t _ _ _ => h.others a p t (KAct.jumps_of_steers ho)

theorem sees_act (h : S.Connects H D x B) {a : KAct} (ha : a.jumps = false) (s : (Kernel × W) × List τ) :
    Sees D B (.act a) s := fun _ p t _ _ _ => h.others a p t ha

theorem sees_machine (o : Op) (k : Kernel) (w : W) (ts : List τ) (p : Proc) (t : τ)
    (hp : k.procs[index]? = some p)
    (ht : ts[index]? = some t) (hB : B o ((k.machineOf p, w), t)) :
    Sees D B (.machine index o) ((k, w), ts) := by
  intro q u hq hu
  obtain rfl := Option.some.inj (hp.symm.trans hq)
  obtain rfl := Option.some.inj (ht.symm.trans hu)
  exact hB

theorem meets_runActs (h : S.Connects H D x B) (acts : List GuestAct) {m : Machine} {t : τ}
    (hs : S.enters m.ctx m.inst t) :
    Program.Meets (H.noting x) (fun _ _ => True) B (runActs acts : Program sig Stop Unit)
      (fun _ s => S.enters s.1.1.ctx s.1.1.inst s.2) ((m, w), t) := by
  induction acts generalizing m w t with
  | nil => exact hs
  | cons g rest ih =>
    exact Program.meets_bind (h.guest g m w t hs) (fun _ _ hnext => ih hnext) fun _ _ hnext => hnext

abbrev Over (S : Places τ) {α : Type} (_ : Except Stop α) (s : (Kernel × W) × List τ) : Prop :=
  Chronicle.Each S.rests s.1.1 s.2

theorem over_around (h : S.Connects H D x B) {α : Type} {p : Sched α} (hp : p.Only KOp.around)
    (hs : Chronicle.Each S.rests k ts) :
    Program.Meets (H.history.exec x) (fun _ _ => True) (Sees D B) p (Over S) ((k, w), ts) :=
  meets_around h.keeps.chronicled (fun o s t ho _ => h.sees_around o (s, t) ho) hp hs

abbrev In (S : Places τ) (p : Proc) (t : τ) : Prop := p.resume = .fresh ∧ S.enters p.ctx p.inst t

theorem rests_of_in (h : S.Connects H D x B) (hs : Chronicle.Amid S.rests (In S) index k ts) :
    Chronicle.Each S.rests k ts := hs.each fun p t hp => h.ends p t hp.1 hp.2

/-- The guest comes back, and what it has asked for is done. -/
theorem meets_afterReturn (h : S.Connects H D x B) (hs : Chronicle.Amid S.rests (In S) index k ts) :
    Program.Meets (H.history.exec x) (fun _ _ => True) (Sees D B) (Scheduler.afterReturn index) (Over S)
      ((k, w), ts) := by
  obtain ⟨proc, t, hproc, ht, -, -⟩ := hs.here
  have hanswer : ((KAct.takeSuspension index).exec k).1 = proc.ctx.exec.suspension := by
    simp [KAct.exec, hproc]
  have htaken : Chronicle.Amid S.rests (fun p t => S.Returned H D index p t proc.ctx.exec.suspension) index
      ((KAct.takeSuspension index).exec k).2 (H.acted k ts (.takeSuspension index)) := by
    refine hs.acted rfl fun p t hp hin => ?_
    obtain rfl := Option.some.inj (hproc.symm.trans hp)
    exact h.returns index proc t hin.1 hin.2
  refine Chronicle.meets_kact ?_ ?_
  · intro i p t hi hp ht
    obtain rfl : index = i := Option.some.inj hi
    obtain ⟨q, u, hq, hu, hin⟩ := hs.here
    obtain rfl := Option.some.inj (hp.symm.trans hq)
    obtain rfl := Option.some.inj (ht.symm.trans hu)
    exact h.leaves index p t hin.1 hin.2
  rw [hanswer]
  revert htaken
  generalize ((KAct.takeSuspension index).exec k).2 = k'
  generalize H.acted k ts (.takeSuspension index) = ts'
  intro htaken
  rcases hsuspension : proc.ctx.exec.suspension with
    _ | ⟨buf, sp⟩ | ⟨buf, value⟩ | ⟨number, args⟩ | status | _
  all_goals rw [hsuspension] at htaken
  · exact htaken.each fun p t hp => hp
  · refine Chronicle.meets_kact ?_ ((htaken.acted rfl fun p t _ hp => hp.2).each fun p t hp => hp)
    intro i p t hi hp ht
    obtain rfl : index = i := Option.some.inj hi
    obtain ⟨q, u, hq, hu, hD, -⟩ := htaken.here
    obtain rfl := Option.some.inj (hp.symm.trans hq)
    obtain rfl := Option.some.inj (ht.symm.trans hu)
    exact hD
  · have hjumped : Chronicle.Each S.rests ((KAct.restoreJmp index buf value).exec k').2
        (H.acted k' ts' (.restoreJmp index buf value)) :=
        (htaken.acted rfl fun p t _ hp => hp.2).each fun p t hp => hp
    refine Chronicle.meets_kact ?_ (Program.meets_ite (fun _ => hjumped) fun _ => hjumped)
    intro i p t hi hp ht
    obtain rfl : index = i := Option.some.inj hi
    obtain ⟨q, u, hq, hu, hD, -⟩ := htaken.here
    obtain rfl := Option.some.inj (hp.symm.trans hq)
    obtain rfl := Option.some.inj (ht.symm.trans hu)
    exact hD
  · refine Chronicle.meets_kact (h.sees_act rfl _) ?_
    exact (htaken.acted rfl fun p t _ hp => hp).each fun p t hp => hp
  · exact htaken.each fun p t hp => hp
  · exact h.over_around (Scheduler.around_replaceInstance index) (htaken.each fun p t hp => hp)

theorem meets_enter (h : S.Connects H D x B) (hs : Chronicle.Amid S.rests (In S) index k ts) :
    Program.Meets (H.history.exec x)
    (fun _ _ => True) (Sees D B) (Scheduler.enter index) (Over S) ((k, w), ts) := by
  refine Chronicle.meets_kact (h.sees_act rfl _) ?_
  split
  · exact h.rests_of_in hs
  refine Chronicle.meets_guest trivial fun run w => ?_
  refine Program.meets_bind (P := fun _ s => Chronicle.Amid S.rests (In S) index s.1.1 s.2)
    (hs.meets_onProc (fun _ => In S) sees_machine ?_) ?_ ?_
  · rintro proc t hproc ⟨hresume, hin⟩
    exact (h.meets_runActs (m := k.machineOf proc) run.acts hin).mono fun _ s hs => ⟨hresume, hs⟩
  · rintro - ⟨⟨k, w⟩, ts⟩ hk
    cases run.trap with
    | none => exact h.meets_afterReturn hk
    | some kind => exact Chronicle.meets_kact (h.sees_act rfl _) (h.rests_of_in (hk.seen (H := H) rfl rfl))
  · exact fun e s hk => h.rests_of_in hk

/-- A call is made again. -/
theorem meets_retry (h : S.Connects H D x B) {number : ℤ} {args : Args}
    (hs : Chronicle.Amid S.rests
      (fun p t => p.resume = .fresh ∧ S.retries number args p.ctx p.inst t) index k ts) :
    Program.Meets (H.history.exec x) (fun _ _ => True) (Sees D B) (Scheduler.retry index number args)
      (fun r s => ∀ a, r = .ok a → Over S r s) ((k, w), ts) := by
  refine Program.meets_bind (P := fun r s => Chronicle.Amid S.rests (fun p t => p.resume = .fresh ∧
      ∀ outcome, r = .ok outcome → S.Answered H index number args p t outcome) index s.1.1 s.2)
    (hs.meets_onProc (fun r p t => p.resume = .fresh ∧
      ∀ outcome, r = .ok outcome → S.Answered H index number args p t outcome) sees_machine ?_) ?_ ?_
  · rintro proc t hproc ⟨hresume, hretries⟩
    have hagain := h.again index number args proc (k.machineOf proc) w t hresume rfl rfl hretries
    exact hagain.mono fun r s hr => ⟨hresume, hr⟩
  · rintro outcome ⟨⟨k, w⟩, ts⟩ hk
    have hanswered : Chronicle.Amid S.rests (fun p t =>
      p.resume = .fresh ∧ S.Answered H index number args p t outcome)
        index k ts := hk.mono fun p t hp => ⟨hp.1, hp.2 outcome rfl⟩
    cases outcome with
    | blocked =>
      refine Chronicle.meets_kact (h.sees_act rfl _) fun _ _ => ?_
      exact (hanswered.acted rfl fun p t _ hp => hp.2).each fun p t hp => hp
    | exit status => exact fun _ _ => hanswered.each fun p t hp => hp.2
    | exec =>
      refine (h.over_around (Scheduler.around_replaceInstance index)
        (hanswered.each fun p t hp => hp.2)).mono ?_
      exact fun r s hr _ _ => hr
    | value value =>
      refine Chronicle.meets_kact (h.sees_act rfl _) ((h.meets_enter ?_).mono fun r s hr _ _ => hr)
      exact hanswered.acted rfl fun p t _ hp => ⟨hp.1, hp.2⟩
  · exact fun e s _ a ha => by cases ha

/-- A turn of a process. -/
theorem meets_stepProcess (h : S.Connects H D x B) (turns index : ℕ) (hs : Chronicle.Each S.rests k ts) :
    Program.Meets (H.history.exec x) (fun _ _ => True) (Sees D B) (Scheduler.stepProcess turns index)
      (fun r s => ∀ a, r = .ok a → Over S r s) ((k, w), ts) := by
  refine Chronicle.meets_kact (h.sees_act rfl _) ?_
  rcases hproc : k.procs[index]? with _ | proc
  · have hanswer : (KAct.attach index).exec k = (none, k) := by simp only [KAct.exec, hproc]
    have hnotes : H.acted k ts (.attach index) = ts := by rw [H.acted_target rfl, hproc]
    rw [hanswer, hnotes]
    exact fun _ _ => hs
  have hattached {P : Proc → τ → Prop} (hP : ∀ t, S.rests proc t →
      P ((KAct.attach index).effect proc) (H.act (.attach index) proc t)) :
      Chronicle.Amid S.rests P index ((KAct.attach index).exec k).2 (H.acted k ts (.attach index)) := by
    refine (Chronicle.amid_of_each hs hproc).acted rfl ?_
    rintro p t - ⟨rfl, ht⟩
    exact hP t ht
  by_cases hparked : proc.parked = true
  · have hanswer : ((KAct.attach index).exec k).1 = none := by simp [KAct.exec, hproc, hparked]
    have hsame : (KAct.attach index).effect proc = proc := by simp [KAct.effect, hparked]
    rw [hanswer]
    refine fun _ _ => (hattached fun t ht => ?_).each fun p t hp => hp
    rw [hsame]
    exact h.parked index proc t ht
  cases hhost : proc.host with
  | some host =>
    have hanswer : ((KAct.attach index).exec k).1 = some .host := by simp [KAct.exec, hproc, hparked, hhost]
    have hsame : (KAct.attach index).effect proc = proc := by simp [KAct.effect, hhost]
    rw [hanswer]
    refine (h.over_around ((Scheduler.only_stepHost turns index).mono fun _ => KOp.advances.around) ?_).mono
      fun r s hr _ _ => hr
    refine (hattached fun t ht => ?_).each fun p t hp => hp
    rw [hsame]
    exact h.parked index proc t ht
  | none =>
    have hanswer : ((KAct.attach index).exec k).1 = some (.guest proc.resume) := by
      simp [KAct.exec, hproc, hparked, hhost]
    have hfresh : (KAct.attach index).effect proc = { proc with resume := .fresh } := by
      simp [KAct.effect, hhost, hparked]
    rw [hanswer]
    cases hresume : proc.resume with
    | fresh =>
      refine (h.meets_enter (hattached fun t ht => ?_)).mono fun r s hr _ _ => hr
      rw [hfresh]
      exact ⟨rfl, h.fresh index proc t ht hresume⟩
    | rewind =>
      have hrewound : Chronicle.Amid S.rests (fun p t => p.resume = .fresh ∧ S.enters
          { p.ctx with exec := { p.ctx.exec with rewinding := true } } p.inst
          (H.act (.rewind index) p t)) index
          ((KAct.attach index).exec k).2 (H.acted k ts (.attach index)) := by
        refine hattached fun t ht => ?_
        rw [hfresh]
        exact ⟨rfl, h.rewind index proc t ht hresume⟩
      refine Chronicle.meets_kact (h.sees_act rfl _) ((h.meets_enter ?_).mono fun r s hr _ _ => hr)
      exact hrewound.acted rfl fun p t _ hp => hp
    | blocked number args =>
      refine h.meets_retry (hattached fun t ht => ?_)
      rw [hfresh]
      exact ⟨rfl, h.blocked index proc t number args ht hresume⟩

theorem weaves (h : S.Connects H D x B) : Weaves x H.history (Sees D B) (Chronicle.Each S.rests) where
  around := h.keeps.chronicled
  meets o s _ ho _ := h.sees_around o (s, _) ho
  turn turns index s _ hs := (h.meets_stepProcess (w := s.2) turns index hs).mono fun _ _ hr a ha => hr a ha

end Connects
end Places
end Wasmux
