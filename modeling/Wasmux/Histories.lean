import Mathlib.Data.List.Forall2
import Wasmux.Effects.History
import Wasmux.Steps

/-!
# Sessions with a history

What is noted of a session while it runs, operation by operation. The notes of
a `Chronicle` are kept for each process: they come with it, move with it down
the list of processes, and go with it.
-/

set_option autoImplicit false

namespace Wasmux
open Effects Abi

structure History (τ : Type) where
  start : τ
  next : τ → (o : KOp) → Kernel → o.Ans → τ

/-- What holds when a session starts, whatever its caller does between two steps. -/
structure Lasting (I : Kernel → Prop) : Prop where
  init : ∀ (c : Config) started k, c.kernel started = some k → I k
  input : ∀ (k : Kernel) data closed, I k →
    I { k with shared := { k.shared with stdin := ⟨data, closed, false⟩ } }
  output : ∀ (k : Kernel) out err, I k → I { k with shared := { k.shared with stdout := out, stderr := err } }

section
variable {W τ : Type} (x : Env W) (H : History τ) (C : KOp → Kernel × W → Prop)

def History.exec : Program.Exec ksig ((Kernel × W) × τ) :=
  Program.noting (kexec x) fun t o s a => H.next t o s.1 a

theorem History.run_exec {α : Type} (p : Sched α) (s : Kernel × W) (t : τ) : ∃ t',
    p.run (H.exec x) (s, t) = ((p.run (kexec x) s).1, (p.run (kexec x) s).2, t') :=
    Program.run_noting p (s, t)

/-- `Between` with the history of the session. -/
inductive Recorded : Session → W → τ → Prop
  | start (c : Config) (started : Instant) (k k' : Kernel) (w w' : W) (t : τ) :
      c.kernel started = some k → Program.Along (kexec x) C c.spawnFirst (k, w) →
      c.spawnFirst.run (H.exec x) ((k, w), H.start) = (.ok true, ((k', w'), t)) → Recorded ⟨k', none⟩ w' t
  | elapse (s : Session) (w w' : W) (t : τ) : Recorded s w t → Recorded s w' t
  | step (k k' : Kernel) (w w' : W) (t t' : τ) (turns : ℕ) (budget : Budget) (slice : Slice) :
      Recorded ⟨k, none⟩ w t → Program.Along (kexec x) C (Scheduler.run turns budget) (k, w) →
      (Scheduler.run turns budget).run (H.exec x) ((k, w), t) = (.ok slice, ((k', w'), t')) →
      Recorded ⟨k', slice.status⟩ w' t'
  | writeStdin (s : Session) (w : W) (t : τ) (bytes : Bytes) :
      Recorded s w t → Recorded (s.writeStdin bytes) w t
  | closeStdin (s : Session) (w : W) (t : τ) : Recorded s w t → Recorded s.closeStdin w t
  | takeStdout (s : Session) (w : W) (t : τ) : Recorded s w t → Recorded s.takeStdout.2 w t
  | takeStderr (s : Session) (w : W) (t : τ) : Recorded s w t → Recorded s.takeStderr.2 w t

/-- The operations a session performs, each with the state and the history it
is performed in. -/
inductive Performed : KOp → Kernel → W → τ → Prop
  | starting (c : Config) (started : Instant) (k : Kernel) (w : W)
      (v : Program.Visit ksig ((Kernel × W) × τ)) :
      c.kernel started = some k → Program.Along (kexec x) C c.spawnFirst (k, w) →
      v ∈ c.spawnFirst.trace (H.exec x) ((k, w), H.start) →
      Performed v.op v.before.1.1 v.before.1.2 v.before.2
  | running (k : Kernel) (w : W) (t : τ) (turns : ℕ) (budget : Budget)
      (v : Program.Visit ksig ((Kernel × W) × τ)) :
      Recorded x H C ⟨k, none⟩ w t → Program.Along (kexec x) C (Scheduler.run turns budget) (k, w) →
      v ∈ (Scheduler.run turns budget).trace (H.exec x) ((k, w), t) →
      Performed v.op v.before.1.1 v.before.1.2 v.before.2

variable {x} {H} {C}

theorem Recorded.between {s : Session} {w : W} {t : τ} (h : Recorded x H C s w t) : Between x C s w := by
  induction h with
  | start c started k k' w w' t hk hc hr =>
    obtain ⟨t', ht⟩ := H.run_exec x c.spawnFirst (k, w) H.start
    have hrun := hr.symm.trans ht
    simp only [Prod.mk.injEq] at hrun
    exact .start c started k k' w w' hk hc (Prod.ext hrun.1.symm hrun.2.1.symm)
  | elapse s w w' t _ ih => exact .elapse s w w' ih
  | step k k' w w' t t' turns budget slice _ hc hr ih =>
    obtain ⟨t'', ht⟩ := H.run_exec x (Scheduler.run turns budget) (k, w) t
    have hrun := hr.symm.trans ht
    simp only [Prod.mk.injEq] at hrun
    exact .step k k' w w' turns budget slice ih hc (Prod.ext hrun.1.symm hrun.2.1.symm)
  | writeStdin s w t bytes _ ih => exact .writeStdin s w bytes ih
  | closeStdin s w t _ ih => exact .closeStdin s w ih
  | takeStdout s w t _ ih => exact .takeStdout s w ih
  | takeStderr s w t _ ih => exact .takeStderr s w ih

theorem Recorded.mono {D : KOp → Kernel × W → Prop} (hd : ∀ o s, C o s → D o s) {s : Session} {w : W} {t : τ}
    (h : Recorded x H C s w t) : Recorded x H D s w t := by
  induction h with
  | start c started k k' w w' t hk hc hr =>
      exact .start c started k k' w w' t hk (Program.Along.mono _ hd hc) hr
  | elapse s w w' t _ ih => exact .elapse s w w' t ih
  | step k k' w w' t t' turns budget slice _ hc hr ih =>
      exact .step k k' w w' t t' turns budget slice ih (Program.Along.mono _ hd hc) hr
  | writeStdin s w t bytes _ ih => exact .writeStdin s w t bytes ih
  | closeStdin s w t _ ih => exact .closeStdin s w t ih
  | takeStdout s w t _ ih => exact .takeStdout s w t ih
  | takeStderr s w t _ ih => exact .takeStderr s w t ih

theorem Performed.mono {D : KOp → Kernel × W → Prop} (hd : ∀ o s, C o s → D o s) {o : KOp} {k : Kernel}
    {w : W} {t : τ} (h : Performed x H C o k w t) : Performed x H D o k w t := by
  cases h with
  | starting c started k w v hk hc hv => exact .starting c started k w v hk (Program.Along.mono _ hd hc) hv
  | running k w t turns budget v hs hc hv =>
      exact .running k w t turns budget v (hs.mono hd) (Program.Along.mono _ hd hc) hv

variable {A : KOp → Kernel × W → Prop} {I : Kernel → Prop} {T : Kernel → ℕ → Prop} {J : Kernel → τ → Prop}

theorem KeptTo.recorded (h : KeptTo x C A I T) (hI : Lasting I) {s : Session} {w : W} {t : τ}
    (hs : Recorded x H C s w t) :
    Recorded x H (fun o s => C o s ∧ A o s) s w t := by
  induction hs with
  | start c started k k' w w' t hk hc hr =>
    have ha := ((h.spawnFirst c (s := (k, w)) (hI.init c started k hk) (Config.kernel_spawn hk)).run hc).1
    exact .start c started k k' w w' t hk (hc.and _ ha) hr
  | elapse s w w' t _ ih => exact .elapse s w w' t ih
  | step k k' w w' t t' turns budget slice hs hc hr ih =>
    have hstart := (h.between hI.init hI.input hI.output hs.between).1
    have ha := ((h.run turns budget (s := (k, w)) hstart).run hc).1
    exact .step k k' w w' t t' turns budget slice ih (hc.and _ ha) hr
  | writeStdin s w t bytes _ ih => exact .writeStdin s w t bytes ih
  | closeStdin s w t _ ih => exact .closeStdin s w t ih
  | takeStdout s w t _ ih => exact .takeStdout s w t ih
  | takeStderr s w t _ ih => exact .takeStderr s w t ih

theorem KeptTo.performed (h : KeptTo x C A I T) (hI : Lasting I) {o : KOp} {k : Kernel} {w : W} {t : τ}
    (ho : Performed x H C o k w t) : Performed x H (fun o s => C o s ∧ A o s) o k w t := by
  cases ho with
  | starting c started k w v hk hc hv =>
    have ha := ((h.spawnFirst c (s := (k, w)) (hI.init c started k hk) (Config.kernel_spawn hk)).run hc).1
    exact .starting c started k w v hk (hc.and _ ha) hv
  | running k w t turns budget v hs hc hv =>
    have hstart := (h.between hI.init hI.input hI.output hs.between).1
    have ha := ((h.run turns budget (s := (k, w)) hstart).run hc).1
    exact .running k w t turns budget v (h.recorded hI hs) (hc.and _ ha) hv

/-- What makes `J` hold of a session and its history: it holds at the start, an
operation that meets `A` keeps it, and so does the caller. -/
structure Chronicled (x : Env W) (H : History τ) (A : KOp → Kernel × W → Prop)
    (J : Kernel → τ → Prop) : Prop where
  lasting : ∀ t, (∀ (k : Kernel) data closed, J k t →
      J { k with shared := { k.shared with stdin := ⟨data, closed, false⟩ } } t) ∧
    ∀ (k : Kernel) out err, J k t → J { k with shared := { k.shared with stdout := out, stderr := err } } t
  init : ∀ (c : Config) started k, c.kernel started = some k → J k H.start
  next : ∀ o s t, J s.1 t → A o s → J (kexec x o s).2.1 (H.next t o s.1 (kexec x o s).1)

theorem Recorded.keeps (hJ : Chronicled x H C J) {s : Session} {w : W} {t : τ} (h : Recorded x H C s w t) :
    J s.kernel t := by
  induction h with
  | start c started k k' w w' t hk hc hr =>
    have := Program.noting_keeps (J := fun s t => J s.1 t) hJ.next
      (s := ((k, w), H.start)) (hJ.init c started k hk) hc
    simp only [← History.exec.eq_def] at this
    rwa [hr] at this
  | elapse s w w' t _ ih => exact ih
  | step k k' w w' t t' turns budget slice hs hc hr ih =>
    have := Program.noting_keeps (J := fun s t => J s.1 t) hJ.next (s := ((k, w), t)) ih hc
    simp only [← History.exec.eq_def] at this
    rwa [hr] at this
  | writeStdin s w t bytes _ ih => exact (hJ.lasting t).1 _ _ _ ih
  | closeStdin s w t _ ih => exact (hJ.lasting t).1 _ _ _ ih
  | takeStdout s w t _ ih => exact (hJ.lasting t).2 _ _ s.kernel.shared.stderr ih
  | takeStderr s w t _ ih => exact (hJ.lasting t).2 _ s.kernel.shared.stdout _ ih

theorem Performed.keeps (hJ : Chronicled x H C J) {o : KOp} {k : Kernel} {w : W} {t : τ}
    (h : Performed x H C o k w t) :
    J k t ∧ C o (k, w) := by
  cases h with
  | starting c started k w v hk hc hv =>
    exact Program.noting_visit (J := fun s t => J s.1 t) hJ.next (hJ.init c started k hk) hc hv
  | running k w t turns budget v hs hc hv =>
    exact Program.noting_visit (J := fun s t => J s.1 t) hJ.next (hs.keeps hJ) hc hv

theorem Performed.holds (hJ : Chronicled x H A J) (hkept : Kept x C A I) (hI : Lasting I) {o : KOp}
    {k : Kernel} {w : W} {t : τ} (h : Performed x H C o k w t) : J k t ∧ A o (k, w) :=
  ((hkept.loose.performed hI h).mono fun _ _ => And.right).keeps hJ

end

def History.blank : History Unit := ⟨(), fun _ _ _ _ => ()⟩

theorem chronicled_blank {W : Type} {x : Env W} {A : KOp → Kernel × W → Prop} :
    Chronicled x .blank A fun _ _ => True where
  lasting _ := ⟨fun _ _ _ _ => trivial, fun _ _ _ _ => trivial⟩
  init _ _ _ _ := trivial
  next _ _ _ _ _ := trivial

def KAct.target : KAct → Option ℕ
  | .attach i | .endStep i _ | .releaseInstance i | .setResume i _ | .rewind i | .resumeWith i _
  | .takeSuspension i | .saveJmp i _ _ | .restoreJmp i _ _ | .appendInput i _ | .setPhase i _ | .advance
      i _ => some i
  | _ => none

/-- What it does to that process. -/
def KAct.effect : KAct → Proc → Proc
  | .attach _, p => if p.parked || p.host.isSome then p else { p with resume := .fresh }
  | .endStep _ external, p => { p with parked := p.parked || external }
  | .releaseInstance _, p =>
    { p with charged := 0, ctx := { p.ctx with exec := { p.ctx.exec with grown := 0 } } }
  | .setResume _ resume, p => { p with resume := resume }
  | .rewind _, p => { p with ctx := { p.ctx with exec := { p.ctx.exec with rewinding := true } } }
  | .resumeWith _ value, p =>
    { p with ctx := { p.ctx with exec := { p.ctx.exec with resumeValue := value, rewinding := true } } }
  | .takeSuspension _, p => { p with
      ctx := { p.ctx with exec := { p.ctx.exec with suspension := none } }
      inst := { p.inst with unwinding := p.inst.unwinding && p.ctx.exec.suspension.isNone } }
  | .saveJmp _ buf sp, p => { p with
      resume := .rewind
      ctx := { p.ctx with exec := { p.ctx.exec with
        jmpBufs := (buf, Kernel.readAsyncifyStack p.inst.mem p.ctx.exec.asyncifyData, sp) ::
          p.ctx.exec.jmpBufs.filter fun e => e.1 != buf
        resumeValue := 0
        resumeSp := sp } } }
  | .restoreJmp _ buf value, p => match p.ctx.exec.jmpBufs.find? fun e => e.1 == buf with
    | none => p
    | some (_, snapshot, sp) => match p.inst.mem.put p.ctx.exec.asyncifyData snapshot with
      | .error _ => p
      | .ok mem => { p with
          resume := .rewind
          inst := { p.inst with mem := mem }
          ctx := { p.ctx with exec := { p.ctx.exec with resumeValue := value, resumeSp := sp } } }
  | .appendInput _ chunk, p => { p with host := p.host.map fun h => { h with phase := match h.phase with
      | .reading buffer => .reading (buffer ++ chunk)
      | phase => phase } }
  | .setPhase _ phase, p => { p with host := p.host.map fun h => { h with phase := phase } }
  | .advance _ offer, p => { p with
      host := p.host.map fun h => { h with phase := Kernel.Phase.advance offer.fd offer.count h.phase } }
  | _, p => p

theorem modify_eq {α : Type} {l : List α} {i : ℕ} {f g : α → α} (h : ∀ a, l[i]? = some a → f a = g a) :
    l.modify i f = l.modify i g := by
  apply List.ext_getElem?
  intro j
  simp only [List.getElem?_modify]
  by_cases hij : i = j
  · subst hij
    cases ha : l[i]? with
    | none => rfl
    | some a => simp [h a ha]
  · simp [hij]

theorem modify_self {α : Type} {l : List α} {i : ℕ} {f : α → α} (h : ∀ a, l[i]? = some a → f a = a) :
    l.modify i f = l := (modify_eq (g := id) h).trans (List.modify_id i l)

theorem KAct.procs_target (a : KAct) {i : ℕ} (h : a.target = some i) (k : Kernel) :
    (a.exec k).2.procs = k.procs.modify i (a.effect) := by
  cases a with
  | attach index =>
    obtain rfl : index = i := Option.some.inj h
    rcases hp : k.procs[index]? with _ | p
    · rw [modify_self fun p hat => by rw [hp] at hat; cases hat]
      simp only [exec, hp]
    have hat : ∀ q, k.procs[index]? = some q → q = p := fun q hq => Option.some.inj (hq.symm.trans hp)
    cases hparked : p.parked with
    | true =>
      rw [modify_self fun q hq => by simp [hat q hq, effect, hparked]]
      simp [exec, hp, hparked]
    | false =>
      rcases hhost : p.host with _ | host
      · simp only [exec, hp, hparked, hhost]
        exact modify_eq fun q hq => by simp [hat q hq, effect, hparked, hhost]
      · rw [modify_self fun q hq => by simp [hat q hq, effect, hhost]]
        simp [exec, hp, hparked, hhost]
  | restoreJmp index buf value =>
    obtain rfl : index = i := Option.some.inj h
    rcases hp : k.procs[index]? with _ | p
    · rw [modify_self fun p hat => by rw [hp] at hat; cases hat]
      simp only [exec, hp, Option.bind_none]
    have hat : ∀ q, k.procs[index]? = some q → q = p := fun q hq => Option.some.inj (hq.symm.trans hp)
    rcases hfind : p.ctx.exec.jmpBufs.find? fun e => e.1 == buf with _ | ⟨buf', snapshot, sp⟩
    · rw [modify_self fun q hq => by simp [hat q hq, effect, hfind]]
      simp [exec, hp, hfind]
    rcases hput : p.inst.mem.put p.ctx.exec.asyncifyData snapshot with e | mem
    · rw [modify_self fun q hq => by simp [hat q hq, effect, hfind, hput]]
      simp [exec, hp, hfind, hput]
    · simp only [exec, hp, hfind, hput, Option.bind_some, Option.map_some]
      exact modify_eq fun q hq => by simp [hat q hq, effect, hfind, hput]
  | releaseInstance index =>
    obtain rfl : index = i := Option.some.inj h
    rcases hp : k.procs[index]? with _ | p
    · rw [modify_self fun p hat => by rw [hp] at hat; cases hat]
      simp only [exec, hp]
    · simp only [exec, hp]
      rfl
  | endStep | setResume | rewind | resumeWith | takeSuspension | saveJmp | appendInput | setPhase
  | advance =>
    obtain rfl : _ = i := Option.some.inj h
    rfl
  | _ => cases h

theorem KAct.effect_ctx (a : KAct) (p : Proc) :
    ∃ e, (a.effect p).ctx = { p.ctx with exec := e } := by
  cases a with
  | attach index =>
    simp only [effect]
    split <;> exact ⟨p.ctx.exec, rfl⟩
  | restoreJmp index buf value =>
    simp only [effect]
    split
    · exact ⟨p.ctx.exec, rfl⟩
    · split
      · exact ⟨p.ctx.exec, rfl⟩
      · exact ⟨_, rfl⟩
  | rewind | resumeWith | takeSuspension | saveJmp | releaseInstance => exact ⟨_, rfl⟩
  | _ => exact ⟨p.ctx.exec, rfl⟩

theorem KAct.effect_place (a : KAct) (p : Proc) :
    (a.effect p).ctx.execRequest = p.ctx.execRequest ∧ (a.effect p).ctx.task = p.ctx.task := by
  obtain ⟨e, he⟩ := a.effect_ctx p
  rw [he]
  exact ⟨rfl, rfl⟩

/-- The steps that put a process in the list, take one out or put one in the
place of another, and the one that is about all of them. -/
def KAct.gathers : KAct → Bool
  | .launchSpawn _ | .finishProcess _ _ | .abandonExec _ | .launchExec _ _ | .beginRun => true
  | _ => false

theorem KAct.procs_untargeted (a : KAct) (h : a.target = none) (hgathers : a.gathers = false) (k : Kernel) :
    (a.exec k).2.procs = k.procs := by
  cases a with
  | launchSpawn | finishProcess | abandonExec | launchExec | beginRun => cases hgathers
  | abandonSpawn => simp only [exec]; split <;> rfl
  | trapMessage index kind => simp only [exec]; split <;> rfl
  | whyIdle => exact k.whyIdle_procs
  | look | charge | release | execRequest | inst | host | noteHostPending | forceExit => rfl
  | _ => cases h

def deferred : Except Errno HostExit → Bool
  | .error e => decide (e = .again)
  | .ok _ => false

structure Chronicle (τ : Type) where
  fresh : τ
  machine : (o : Op) → Machine → o.Ans → τ → τ
  act : KAct → Proc → τ → τ
  command : Invocation → Except Errno HostExit → τ → τ

namespace Chronicle
variable {τ : Type} (H : Chronicle τ)

/-- The notes after a step of the loop. -/
def acted (k : Kernel) (ts : List τ) : KAct → List τ
  | .launchSpawn _ => if k.shared.spawn.isEmpty then ts else ts ++ [H.fresh]
  | .finishProcess i _ => ts.eraseIdx i
  | .abandonExec i => if ((k.procs[i]?).bind fun p => p.ctx.execRequest).isSome then ts.eraseIdx i else ts
  | .launchExec i _ => match (k.procs[i]?).bind fun p => p.ctx.execRequest with
    | none => ts
    | some _ => ts.modify i fun _ => H.fresh
  | a => match a.target with
    | none => ts
    | some i => match k.procs[i]? with
      | none => ts
      | some p => ts.modify i (H.act a p)

def history : History (List τ) where
  start := []
  next ts o k a := match o, a with
    | .machine i o, a => match k.procs[i]? with
      | none => ts
      | some p => ts.modify i (H.machine o (k.machineOf p) a)
    | .env (.command i _ call), a => ts.modify i (H.command call a)
    | .env _, _ => ts
    | .act a, _ => H.acted k ts a

def Each (R : Proc → τ → Prop) (k : Kernel) (ts : List τ) : Prop := List.Forall₂ R k.procs ts

/-- What makes `R` hold of every process and its notes. -/
structure Keeps {W : Type} (x : Env W) (A : KOp → Kernel × W → Prop) (R : Proc → τ → Prop) : Prop where
  fresh : ∀ spawn launch, R (Kernel.procOf spawn launch) H.fresh
  begin : ∀ p t, R p t → R { p with parked := false } t
  machine : ∀ i o k w p t, k.procs[i]? = some p → R p t → A (.machine i o) (k, w) →
    R { p with ctx := (exec x o (k.machineOf p, w)).2.1.ctx, inst := (exec x o (k.machineOf p, w)).2.1.inst }
      (H.machine o (k.machineOf p) (exec x o (k.machineOf p, w)).1 t)
  command : ∀ i c call k w p t, k.procs[i]? = some p → R p t → A (.env (.command i c call)) (k, w) →
    R p (H.command call (x.command c call w).1 t)
  act : ∀ a i k w p t, a.target = some i → k.procs[i]? = some p → R p t → A (.act a) (k, w) →
    R (a.effect p) (H.act a p t)

end Chronicle

section
variable {α β : Type} {R : α → β → Prop} {l : List α} {m : List β}

theorem forall₂_modify (h : List.Forall₂ R l m) (i : ℕ) {f : α → α} {g : β → β}
    (hfg : ∀ a b, l[i]? = some a → m[i]? = some b → R a b → R (f a) (g b)) :
    List.Forall₂ R (l.modify i f) (m.modify i g) := by
  induction h generalizing i with
  | nil => simp
  | @cons a b l m hab hlm ih =>
    cases i with
    | zero => exact .cons (hfg a b rfl rfl hab) hlm
    | succ i => exact .cons hab (ih i hfg)

theorem forall₂_eraseIdx (h : List.Forall₂ R l m) (i : ℕ) : List.Forall₂ R (l.eraseIdx i) (m.eraseIdx i) := by
  induction h generalizing i with
  | nil => simp
  | cons hab hlm ih =>
    cases i with
    | zero => exact hlm
    | succ i => exact .cons hab (ih i)

theorem forall₂_push (h : List.Forall₂ R l m) {a : α} {b : β} (hab : R a b) :
    List.Forall₂ R (l ++ [a]) (m ++ [b]) := List.rel_append h (.cons hab .nil)

theorem forall₂_at (h : List.Forall₂ R l m) {i : ℕ} {a : α} (ha : l[i]? = some a) :
    ∃ b, m[i]? = some b ∧ R a b := by
  induction h generalizing i with
  | nil => simp at ha
  | @cons a' b l m hab hlm ih =>
    cases i with
    | zero =>
      obtain rfl : a' = a := by simpa using ha
      exact ⟨b, rfl, hab⟩
    | succ i => exact ih ha

end

namespace Chronicle
variable {τ W : Type} {H : Chronicle τ} {x : Env W} {A : KOp → Kernel × W → Prop} {R : Proc → τ → Prop}

theorem acted_target (H : Chronicle τ) {a : KAct} {i : ℕ} (ha : a.target = some i) (k : Kernel)
    (ts : List τ) :
    H.acted k ts a = match k.procs[i]? with
      | none => ts
      | some p => ts.modify i (H.act a p) := by
  cases a with
  | attach | endStep | releaseInstance | setResume | rewind | resumeWith | takeSuspension | saveJmp
  | restoreJmp
  | appendInput | setPhase | advance =>
    obtain rfl : _ = i := Option.some.inj ha
    rfl
  | _ => cases ha

theorem acted_untargeted (H : Chronicle τ) {a : KAct} (ha : a.target = none) (hgathers : a.gathers = false)
    (k : Kernel) (ts : List τ) : H.acted k ts a = ts := by
  cases a with
  | launchSpawn | finishProcess | abandonExec | launchExec | beginRun => cases hgathers
  | look | charge | release | abandonSpawn | execRequest | inst | trapMessage | host | noteHostPending
  | forceExit | whyIdle => rfl
  | _ => cases ha

theorem Keeps.targeted (h : H.Keeps x A R) {a : KAct} {i : ℕ} (ha : a.target = some i) {k : Kernel} {w : W}
    {ts : List τ} (hs : Each R k ts) (hA : A (.act a) (k, w)) : Each R (a.exec k).2 (H.acted k ts a) := by
  unfold Each
  rw [a.procs_target ha k, H.acted_target ha]
  rcases hp : k.procs[i]? with _ | p
  · rw [modify_self fun p hat => by rw [hp] at hat; cases hat]
    exact hs
  · apply forall₂_modify hs i
    intro q t hq _ hR
    obtain rfl : q = p := Option.some.inj (hq.symm.trans hp)
    exact h.act a i k w q t ha hq hR hA

/-- Steps that put a process in the list or take one out do so with its notes. -/
theorem Keeps.gathered (h : H.Keeps x A R) {a : KAct} (ha : a.gathers = true) {k : Kernel} {ts : List τ}
    (hs : Each R k ts) : Each R (a.exec k).2 (H.acted k ts a) := by
  cases a with
  | launchSpawn launch =>
    rcases hspawn : k.shared.spawn with _ | ⟨spawn, rest⟩
    · simpa [Each, acted, KAct.exec, hspawn] using hs
    · simp only [Each, acted, KAct.exec, hspawn, List.isEmpty_cons, Bool.false_eq_true, if_false]
      exact forall₂_push hs (h.fresh spawn launch)
  | finishProcess i status =>
    simp only [Each, acted, KAct.exec, Kernel.finishProcess]
    rcases hp : k.procs[i]? with _ | p
    · rw [List.getElem?_eq_none_iff, hs.length_eq] at hp
      rw [List.eraseIdx_of_length_le hp]
      exact hs
    · exact forall₂_eraseIdx hs i
  | abandonExec i =>
    rcases hr : (k.procs[i]?).bind fun p => p.ctx.execRequest with _ | spawn
    · simpa [Each, acted, KAct.exec, hr] using hs
    · simp only [Each, acted, KAct.exec, hr, Option.isSome_some, if_true]
      exact forall₂_eraseIdx hs i
  | launchExec i launch =>
    rcases hr : (k.procs[i]?).bind fun p => p.ctx.execRequest with _ | spawn
    · have hsame : (k.procs.modify i (Kernel.relaunch launch)) = k.procs := by
        apply modify_self
        intro p hp
        have hnone : p.ctx.execRequest = none := by simpa [hp] using hr
        simp only [Kernel.relaunch, hnone]
      simp only [Each, acted, KAct.exec, Kernel.modifyProc, hr, hsame]
      exact hs
    · simp only [Each, acted, KAct.exec, Kernel.modifyProc, hr]
      apply forall₂_modify hs i
      intro p t hp _ _
      have hsome : p.ctx.execRequest = some spawn := by simpa [hp] using hr
      simp only [Kernel.relaunch, hsome]
      exact h.fresh spawn launch
  | beginRun =>
    simp only [Each, acted, KAct.target, KAct.exec, List.forall₂_map_left_iff]
    exact hs.imp fun p t => h.begin p t
  | _ => cases ha

theorem Keeps.chronicled (h : H.Keeps x A R) : Chronicled x H.history A (Each R) where
  lasting ts := ⟨fun k _ _ hk => hk, fun k _ _ hk => hk⟩
  init c started k hk := by
    obtain ⟨fds, slab, rfl⟩ := c.kernel_eq hk
    exact .nil
  next o s ts hs ha := by
    obtain ⟨k, w⟩ := s
    cases o with
    | machine i o =>
      rcases hp : k.procs[i]? with _ | p
      · rw [kexec_machine_none x hp]
        simpa only [history, hp] using hs
      · rw [kexec_machine x hp]
        simp only [history, hp]
        apply forall₂_modify hs i
        intro q t hq _ hR
        obtain rfl : q = p := Option.some.inj (hq.symm.trans hp)
        exact h.machine i o k w q t hq hR ha
    | env call =>
      cases call with
      | command i c call =>
        have := forall₂_modify hs i (f := id) (g := H.command call (x.command c call w).1) fun p t hp _ hR =>
          h.command i c call k w p t hp hR ha
        rwa [List.modify_id] at this
      | _ => exact hs
    | act a =>
      by_cases hgathers : a.gathers = true
      · exact h.gathered hgathers hs
      rcases htarget : a.target with _ | i
      · have hacted : H.history.next ts (.act a) k (a.exec k).1 = ts :=
          H.acted_untargeted htarget (by simpa using hgathers) k ts
        simp only [kexec_act, hacted, Each]
        rw [a.procs_untargeted htarget (by simpa using hgathers)]
        exact hs
      · exact h.targeted htarget hs ha

end Chronicle
end Wasmux
