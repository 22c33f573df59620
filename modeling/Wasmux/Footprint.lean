import Wasmux.Dispatch

/-!
# What each handler leaves behind

A monitor watches the operations of a call: whether anything was taken that a
second call would find gone, whether the process gave itself up to an `execve`,
and whether it set itself up to wait. Each handler is one of three kinds. A
silent one leaves no mark, a steady one always finishes, and a calm one that
has to wait has marked nothing before.
-/

set_option autoImplicit false

namespace Wasmux
open Effects Abi

/-- The acts that only look, or that note how a process waits. -/
def Act.keeps : Act → Bool
  | .view | .deadline | .served | .noteVfsPending | .wantStdin | .setDeadline _ | .setWake _
  | .suspendMask _ => true
  | _ => false

def Act.moves : Act → Bool
  | .openDesc _ _ _ _ | .dup _ _ _ | .dupTo _ _ _ | .close _ | .pipe2 _ | .fork | .vforkExit _
  | .finishExec _ _ _ _ => true
  | _ => false

/-- The acts that few calls have a use for: those on the accounting of memory,
the reaping of a child, and what only the way in and out of a call does. -/
def Act.rare : Act → Bool
  | .growMem _ | .charge _ | .release _ | .grew _ | .reap _ | .dropPending _ | .served | .settle
  | .setSignalFlag _ | .saveSp | .stopRewind | .unwind _ | .compute _ _ => true
  | _ => false

def Act.accounts : Act → Bool
  | .growMem _ | .charge _ | .release _ | .grew _ => true
  | _ => false

def Act.reaps : Act → Bool
  | .reap _ => true
  | _ => false

def VfsCall.changes : VfsCall → Bool
  | .openFile _ opts => opts.create || opts.truncate
  | .stat _ _ | .readdir _ | .readlink _ => false
  | _ => true

/-- The calls that move a file's position or change what is in it. -/
def FileCall.changes : FileCall → Bool
  | .stat => false
  | _ => true

namespace Op

/-- Whether an operation took something. A file that the call opened itself,
one of `own`, is no one else's. -/
def consumes (own : List Handle) : (o : Op) → o.Ans → Bool
  | .act a, _ => !a.keeps
  | .env (.vfs _ call), r => call.changes && r.isOk
  | .env (.file h call), r => call.changes && r.isOk && !own.contains h
  | .env _, _ => false

def opens : (o : Op) → o.Ans → List Handle
  | .env (.vfs _ (.openFile _ _)), .ok h => [h]
  | _, _ => []

/-- Whether the calling process was handed to the scheduler to be replaced. -/
def hands : (o : Op) → o.Ans → Bool
  | .act (.finishExec _ _ _ _), r => r.1.isNone
  | _, _ => false

def moves : Op → Bool
  | .act a => a.moves
  | _ => false

def times : Op → Bool
  | .act (.setDeadline _) | .act (.setWake _) => true
  | _ => false

def wants : Op → Bool
  | .act .wantStdin => true
  | _ => false

/-- Whether an operation lends the process another signal mask. -/
def masks : Op → Bool
  | .act (.suspendMask _) => true
  | _ => false

def rare : Op → List Act
  | .act a => if a.rare then [a] else []
  | .env _ => []

/-- An operation that never leaves a mark. -/
def silent : Op → Bool
  | .act .view | .act .deadline | .act .noteVfsPending => true
  | .act _ => false
  | .env (.vfs _ (.openFile _ _)) => false
  | .env (.vfs _ call) => !call.changes
  | .env (.file _ call) => !call.changes
  | .env _ => true

end Op

structure Mark where
  own : List Handle
  busy : Bool
  gone : Bool
  stray : Bool
  timed : Bool
  wanted : Bool
  masked : Bool
  rare : List Act

def Mark.clear : Mark := ⟨[], false, false, false, false, false, false, []⟩

def footprint : Program.Monitor sig Mark where
  allows _ _ := True
  next t o a :=
    { own := o.opens a ++ t.own
      busy := t.busy || o.consumes t.own a
      gone := t.gone || o.hands a
      stray := t.stray || (t.gone && o.moves)
      timed := t.timed || o.times
      wanted := t.wanted || o.wants
      masked := t.masked || o.masks
      rare := o.rare ++ t.rare }

theorem Mark.unmarked (t : Mark) :
    (⟨[] ++ t.own, t.busy || false, t.gone || false, t.stray || (t.gone && false), t.timed || false,
      t.wanted || false, t.masked || false, [] ++ t.rare⟩ : Mark) = t := by
  simp

theorem footprint_silent (t : Mark) (o : Op) (a : o.Ans) (h : o.silent = true) :
    footprint.next t o a = t := by
  cases o with
  | env c =>
    cases c with
    | vfs mount call =>
      cases call with
      | stat | readdir | readlink => exact t.unmarked
      | _ => cases h
    | file handle call =>
      cases call with
      | stat => exact t.unmarked
      | _ => cases h
    | _ => exact t.unmarked
  | act b =>
    cases b with
    | view | deadline | noteVfsPending => exact t.unmarked
    | _ => cases h

section
variable {α β ε : Type}

def Silent (p : Program sig ε α) : Prop := ∀ t, p.Sat footprint t fun u _ => u = t

def Stays (r : Except Fault α) : Prop := r ≠ .error .exec ∧ ∀ status, r ≠ .error (.exit status)

@[simp] theorem stays_ok (a : α) : Stays (.ok a) := ⟨by simp, by simp⟩

@[simp] theorem stays_errno (e : Errno) : Stays (.error (.errno e) : Except Fault α) := ⟨by simp, by simp⟩

@[simp] theorem stays_block : Stays (.error .block : Except Fault α) := ⟨by simp, by simp⟩

theorem Stays.error {e : Fault} (h : Stays (.error e : Except Fault α)) :
    Stays (.error e : Except Fault β) := by
  simpa [Stays] using h

/-- Nothing is marked, and an error is one for the caller or a wait. -/
def SilentH (p : Handler α) : Prop :=
  ∀ t, p.Sat footprint t fun u r => u = t ∧ Stays r

/-- What a step that finishes leaves of the marks: the process stays as it is,
and the rare acts are some of `R`. -/
structure Level (R : Act → Bool) (t u : Mark) : Prop where
  gone : u.gone = false
  stray : u.stray = t.stray
  timed : u.timed = t.timed
  wanted : u.wanted = t.wanted
  masked : u.masked = t.masked
  rare : ∀ a ∈ u.rare, a ∈ t.rare ∨ R a = true

/-- The call comes to an end, with rare acts of `R` alone. -/
def SteadyIn (R : Act → Bool) (p : Handler α) : Prop := ∀ t : Mark, t.gone = false →
  p.Sat footprint t fun u r => Level R t u ∧ Stays r ∧ r ≠ .error .block

/-- The call comes to an end, and the process stays as it is. -/
abbrev Steady (p : Handler α) : Prop := SteadyIn (fun _ => false) p

/-- Marks that differ in the waiting alone, and no handing over. -/
def Patient (p : Handler α) : Prop := ∀ t : Mark, p.Sat footprint t fun u r =>
  (∃ timed, u = { t with timed := timed }) ∧ Stays r

/-- What a call may do that others may not: wait for an instant, take
something before it has to wait, hand the process over, wait under a mask of its
own, and end the process. -/
structure Kind where
  timed : Bool
  loose : Bool
  hands : Bool
  masks : Bool
  quits : Bool
  rare : Act → Bool

def Kind.plain : Kind := ⟨false, false, false, false, false, fun _ => false⟩

/-- What holds of a call's marks at its end: a process that was handed over
moved nothing after that, and one that has to wait has taken nothing before. -/
structure Ended (κ : Kind) (t u : Mark) (r : Except Fault α) : Prop where
  stray : u.stray = false
  gone : u.gone = true ↔ r = .error .exec
  hands : κ.hands = false → r ≠ .error .exec
  quits : κ.quits = false → ∀ status, r ≠ .error (.exit status)
  timed : κ.timed = false → u.timed = t.timed
  wanted : κ.loose = false → u.wanted = true → t.wanted = true ∨ r = .error .block
  busy : κ.loose = false → r = .error .block → u.busy = t.busy
  masked : κ.masks = false → u.masked = t.masked
  rare : ∀ a ∈ u.rare, a ∈ t.rare ∨ κ.rare a = true

def Calm (κ : Kind) (p : Handler α) : Prop := ∀ t : Mark, t.gone = false →
  t.stray = false → p.Sat footprint t (Ended κ t)

theorem silent_ret (a : α) : Silent (.ret a : Program sig ε α) := fun _ => rfl

theorem silent_fail (e : ε) : Silent (.fail e : Program sig ε α) := fun _ => rfl

theorem silent_call {o : Op} {k : o.Ans → Program sig ε α} (h : o.silent = true)
    (hk : ∀ a, Silent (k a)) : Silent (.call o k : Program sig ε α) := by
  intro t a _
  rw [footprint_silent t o a h]
  exact hk a t

theorem silent_env (c : EnvCall) (h : (Op.env c).silent = true) :
    Silent (env c : Program sig ε c.Ans) := silent_call h fun _ => silent_ret _

theorem silent_bind {p : Program sig ε α} {f : α → Program sig ε β} (hp : Silent p)
    (hf : ∀ a, Silent (f a)) : Silent (p >>= f) := by
  intro t
  rw [Program.sat_bind]
  refine (hp t).mono fun u r hu => ?_
  subst hu
  cases r with
  | ok a => exact hf a u
  | error e => rfl

theorem silentH_catching {p : Program sig ε α} (hp : Silent p) :
    SilentH (p.catching : Handler (Except ε α)) := by
  intro t
  rw [Program.sat_catching]
  exact (hp t).mono fun u r hu => ⟨hu, by simp⟩

theorem silentH_ret (a : α) : SilentH (.ret a : Handler α) := fun _ => ⟨rfl, by simp⟩

theorem silentH_fail (e : Errno) : SilentH (fail e : Handler α) := fun _ => ⟨rfl, by simp⟩

theorem silentH_block : SilentH (.fail .block : Handler α) := fun _ => ⟨rfl, by simp⟩

theorem silentH_call {o : Op} {k : o.Ans → Handler α} (h : o.silent = true)
    (hk : ∀ a, SilentH (k a)) : SilentH (.call o k : Handler α) := by
  intro t a _
  rw [footprint_silent t o a h]
  exact hk a t

theorem silentH_bind {p : Handler α} {f : α → Handler β} (hp : SilentH p)
    (hf : ∀ a, SilentH (f a)) : SilentH (p >>= f) := by
  intro t
  rw [Program.sat_bind]
  refine (hp t).mono fun u r hu => ?_
  obtain ⟨rfl, he⟩ := hu
  cases r with
  | ok a => exact hf a u
  | error e => exact ⟨rfl, he.error⟩

theorem silentH_act (a : Act) (h : (Op.act a).silent = true) : SilentH (act a) :=
  silentH_call h fun _ => silentH_ret _

theorem silentH_env (c : EnvCall) (h : (Op.env c).silent = true) : SilentH (env c) :=
  silentH_call h fun _ => silentH_ret _

theorem silentH_view : SilentH view := silentH_act _ rfl

theorem silentH_lift (x : Except Errno α) : SilentH (lift x) := by
  cases x with
  | ok a => exact silentH_ret a
  | error e => exact silentH_fail e

theorem silentH_vfsFault (e : Errno) : SilentH (vfsFault e : Handler α) := by
  unfold vfsFault
  split
  · exact silentH_call rfl fun _ => silentH_block
  · exact silentH_fail e

theorem silentH_orVfsFault (x : Except Errno α) : SilentH (orVfsFault x) := by
  cases x with
  | ok a => exact silentH_ret a
  | error e => exact silentH_vfsFault e

theorem silentH_vfsAsk (mount : ℕ) (call : VfsCall) (h : (Op.env (.vfs mount call)).silent = true) :
    SilentH (vfsAsk mount call) := silentH_call h fun _ => silentH_orVfsFault _

theorem silentH_fileStat (handle : Handle) : SilentH (fileAsk handle .stat) :=
  silentH_call rfl fun _ => silentH_orVfsFault _

variable {R : Act → Bool}

theorem Level.refl {t : Mark} (h : t.gone = false) : Level R t t :=
  ⟨h, rfl, rfl, rfl, rfl, fun _ => Or.inl⟩

theorem Level.trans {t u v : Mark} (h : Level R t u) (h' : Level R u v) : Level R t v :=
  ⟨h'.gone, h'.stray.trans h.stray, h'.timed.trans h.timed, h'.wanted.trans h.wanted,
    h'.masked.trans h.masked, fun a ha => (h'.rare a ha).elim (h.rare a) Or.inr⟩

theorem steady_ret (a : α) : Steady (.ret a : Handler α) :=
  fun _ h => ⟨.refl h, by simp⟩

theorem steady_fail (e : Errno) : Steady (fail e : Handler α) :=
  fun _ h => ⟨.refl h, by simp⟩

theorem steadyIn_bind {p : Handler α} {f : α → Handler β} (hp : SteadyIn R p)
    (hf : ∀ a, SteadyIn R (f a)) : SteadyIn R (p >>= f) := by
  intro t h
  rw [Program.sat_bind]
  refine (hp t h).mono fun u r hr => ?_
  obtain ⟨hl, he, hb⟩ := hr
  cases r with
  | ok a => exact (hf a u hl.gone).mono fun v r' hr' => ⟨hl.trans hr'.1, hr'.2⟩
  | error e => exact ⟨hl, he.error, by simpa using hb⟩

theorem steady_bind {p : Handler α} {f : α → Handler β} (hp : Steady p) (hf : ∀ a, Steady (f a)) :
    Steady (p >>= f) := steadyIn_bind hp hf

theorem steady_ite {c : Prop} [Decidable c] {p q : Handler α} (hp : Steady p) (hq : Steady q) :
    Steady (if c then p else q) := by
  split
  · exact hp
  · exact hq

theorem steadyIn_call {o : Op} {k : o.Ans → Handler α} (hh : ∀ a, o.hands a = false)
    (ht : o.times = false) (hw : o.wants = false) (hm : o.masks = false)
    (hr : ∀ a ∈ o.rare, R a = true) (hk : ∀ a, SteadyIn R (k a)) :
    SteadyIn R (.call o k : Handler α) := by
  intro t h a _
  have hlevel : Level R t (footprint.next t o a) :=
    ⟨by simp [footprint, h, hh], by simp [footprint, h], by simp [footprint, ht],
      by simp [footprint, hw], by simp [footprint, hm], fun b hb => by
        rcases List.mem_append.mp hb with hb | hb
        · exact .inr (hr b hb)
        · exact .inl hb⟩
  exact (hk a _ hlevel.gone).mono fun u r hr => ⟨hlevel.trans hr.1, hr.2⟩

theorem steady_call {o : Op} {k : o.Ans → Handler α} (hh : ∀ a, o.hands a = false)
    (ht : o.times = false) (hw : o.wants = false) (hm : o.masks = false) (hr : o.rare = [])
    (hk : ∀ a, Steady (k a)) : Steady (.call o k : Handler α) :=
  steadyIn_call hh ht hw hm (fun a ha => by simp [hr] at ha) hk

theorem steady_env (c : EnvCall) : Steady (env c) :=
  steady_call (fun _ => rfl) rfl rfl rfl rfl fun _ => steady_ret _

theorem steady_act (a : Act) (hh : ∀ r, (Op.act a).hands r = false) (ht : (Op.act a).times = false)
    (hw : (Op.act a).wants = false) (hm : (Op.act a).masks = false) (hr : (Op.act a).rare = []) :
    Steady (act a) :=
  steady_call hh ht hw hm hr fun _ => steady_ret _

theorem Steady.within {p : Handler α} (hp : Steady p) : SteadyIn R p := fun t hg =>
  (hp t hg).mono fun _ _ hr =>
    ⟨⟨hr.1.gone, hr.1.stray, hr.1.timed, hr.1.wanted, hr.1.masked, fun a ha =>
      .inl ((hr.1.rare a ha).resolve_right Bool.false_ne_true)⟩, hr.2⟩

theorem steadyIn_act (a : Act) (hh : ∀ r, (Op.act a).hands r = false)
    (ht : (Op.act a).times = false) (hw : (Op.act a).wants = false)
    (hm : (Op.act a).masks = false) (hr : R a = true) : SteadyIn R (act a) :=
  steadyIn_call hh ht hw hm (fun b hb => by
    obtain ⟨-, rfl⟩ : a.rare = true ∧ b = a := by simpa [Op.rare] using hb
    exact hr) fun _ => (steady_ret _).within

theorem steady_view : Steady view := steady_act _ (fun _ => rfl) rfl rfl rfl rfl

theorem steady_lift (x : Except Errno α) : Steady (lift x) := by
  cases x with
  | ok a => exact steady_ret a
  | error e => exact steady_fail e

theorem steady_put (start : ℕ) (data : Bytes) : Steady (put start data) :=
  steady_bind (steady_act _ (fun _ => rfl) rfl rfl rfl rfl) fun _ => steady_lift _

theorem SilentH.patient {p : Handler α} (hp : SilentH p) : Patient p := fun t =>
  (hp t).mono fun _ _ hr => ⟨⟨t.timed, hr.1⟩, hr.2⟩

theorem patient_bind {p : Handler α} {f : α → Handler β} (hp : Patient p)
    (hf : ∀ a, Patient (f a)) : Patient (p >>= f) := by
  intro t
  rw [Program.sat_bind]
  refine (hp t).mono fun u r hr => ?_
  obtain ⟨⟨timed, rfl⟩, he⟩ := hr
  cases r with
  | ok a =>
    refine (hf a _).mono fun v r' hr' => ?_
    obtain ⟨⟨timed', rfl⟩, he'⟩ := hr'
    exact ⟨⟨timed', rfl⟩, he'⟩
  | error e => exact ⟨⟨timed, rfl⟩, he.error⟩

variable {κ : Kind}

theorem SilentH.calm {p : Handler α} (hp : SilentH p) : Calm κ p := fun t hg hs =>
  (hp t).mono fun u r hr => by
    obtain ⟨rfl, he⟩ := hr
    exact ⟨hs, by simp [hg, he.1], fun _ => he.1, fun _ => he.2, fun _ => rfl, fun _ =>
      Or.inl, fun _ _ => rfl,
      fun _ => rfl, fun _ => Or.inl⟩

theorem calm_steadyIn {p : Handler α} (hp : SteadyIn κ.rare p) : Calm κ p := fun t hg hs =>
  (hp t hg).mono fun u r hr => by
    obtain ⟨hl, he, hb⟩ := hr
    exact ⟨hl.stray.trans hs, by simp [hl.gone, he.1], fun _ => he.1, fun _ => he.2, fun _ => hl.timed,
      fun _ h => .inl (hl.wanted ▸ h), fun _ h => absurd h hb, fun _ => hl.masked, hl.rare⟩

theorem Steady.calm {p : Handler α} (hp : Steady p) : Calm κ p := calm_steadyIn hp.within

theorem calm_ite {c : Prop} [Decidable c] {p q : Handler α} (hp : Calm κ p) (hq : Calm κ q) :
    Calm κ (if c then p else q) := by
  split
  · exact hp
  · exact hq

theorem calm_patient {p : Handler α} {f : α → Handler β} (hκ : κ.timed = true) (hp : Patient p)
    (hf : ∀ a, Calm κ (f a)) : Calm κ (p >>= f) := by
  intro t hg hs
  rw [Program.sat_bind]
  refine (hp t).mono fun u r hr => ?_
  obtain ⟨⟨timed, rfl⟩, he⟩ := hr
  cases r with
  | ok a =>
    refine (hf a { t with timed := timed } hg hs).mono fun v r' hr' => ?_
    exact ⟨hr'.stray, hr'.gone, hr'.hands, hr'.quits, fun h => by simp [hκ] at h, hr'.wanted, hr'.busy,
      hr'.masked, hr'.rare⟩
  | error e =>
    obtain ⟨hexec, hexit⟩ := he.error (β := β)
    exact ⟨hs, by simp [hg, hexec], fun _ => hexec, fun _ => hexit, fun h => by simp [hκ] at h,
      fun _ => Or.inl, fun _ _ => rfl, fun _ => rfl, fun _ => Or.inl⟩

theorem ended_bind {p : Handler α} {f : α → Handler β} {t : Mark} (hg : t.gone = false)
    (hs : t.stray = false) (hp : p.Sat footprint t fun u r => u = t ∧ Stays r)
    (hf : ∀ a, (f a).Sat footprint t (Ended κ t)) : (p >>= f).Sat footprint t (Ended κ t) := by
  rw [Program.sat_bind]
  refine hp.mono fun u r hr => ?_
  obtain ⟨rfl, he⟩ := hr
  cases r with
  | ok a => exact hf a
  | error e =>
    obtain ⟨hexec, hexit⟩ := he.error (β := β)
    exact ⟨hs, by simp [hg, hexec], fun _ => hexec, fun _ => hexit, fun _ => rfl, fun _ => Or.inl,
      fun _ _ => rfl, fun _ => rfl, fun _ => Or.inl⟩

/-- A call may look before it starts. -/
theorem calm_bind {p : Handler α} {f : α → Handler β} (hp : SilentH p) (hf : ∀ a, Calm κ (f a)) :
    Calm κ (p >>= f) := fun t hg hs => ended_bind hg hs (hp t) fun a => hf a t hg hs

/-- A call may finish once it no longer has to wait. -/
theorem calm_thenIn {p : Handler α} {f : α → Handler β} (hp : Calm κ p)
    (hf : ∀ a, SteadyIn κ.rare (f a)) : Calm κ (p >>= f) := by
  intro t hg hs
  rw [Program.sat_bind]
  refine (hp t hg hs).mono fun u r hr => ?_
  cases r with
  | ok a =>
    have hgone : u.gone = false := by simpa using hr.gone
    refine (hf a u hgone).mono fun v r' hr' => ?_
    obtain ⟨hl, he, hb⟩ := hr'
    refine ⟨hl.stray.trans hr.stray, by simp [hl.gone, he.1], fun _ => he.1, fun _ => he.2,
      fun h => hl.timed.trans (hr.timed h), fun h hv => ?_, fun _ h => absurd h hb,
      fun h => hl.masked.trans (hr.masked h), fun b hb => (hl.rare b hb).elim (hr.rare b) Or.inr⟩
    exact (hr.wanted h (hl.wanted ▸ hv)).imp_right fun h => by simp at h
  | error e =>
    refine ⟨hr.stray, by simpa using hr.gone, fun h => by simpa using hr.hands h, fun h => by
      simpa using hr.quits h, hr.timed,
      fun hl h => ?_, fun hl h => ?_, hr.masked, hr.rare⟩
    · exact (hr.wanted hl h).imp_right fun h => by simpa using h
    · exact hr.busy hl (by simpa using h)

theorem calm_then {p : Handler α} {f : α → Handler β} (hp : Calm κ p) (hf : ∀ a, Steady (f a)) :
    Calm κ (p >>= f) := calm_thenIn hp fun a => (hf a).within

/-- Only a loose call goes on to where it may wait after it has taken something. -/
theorem calm_loose {p : Handler α} {f : α → Handler β} (hκ : κ.loose = true)
    (hp : SteadyIn κ.rare p) (hf : ∀ a, Calm κ (f a)) : Calm κ (p >>= f) := by
  intro t hg hs
  rw [Program.sat_bind]
  refine (hp t hg).mono fun u r hr => ?_
  obtain ⟨hl, he, hb⟩ := hr
  cases r with
  | ok a =>
    refine (hf a u hl.gone (hl.stray.trans hs)).mono fun v r' hr' => ?_
    exact ⟨hr'.stray, hr'.gone, hr'.hands, hr'.quits, fun h => (hr'.timed h).trans hl.timed,
      fun h => by simp [hκ] at h, fun h => by simp [hκ] at h,
      fun h => (hr'.masked h).trans hl.masked, fun b hb => (hr'.rare b hb).elim (hl.rare b) Or.inr⟩
  | error e =>
    obtain ⟨hexec, hexit⟩ := he.error (β := β)
    exact ⟨hl.stray.trans hs, by simp [hl.gone, hexec], fun _ => hexec, fun _ => hexit,
      fun _ => hl.timed, fun h => by simp [hκ] at h, fun h => by simp [hκ] at h,
      fun _ => hl.masked, hl.rare⟩

/-- A call that ends its process has not waited before. -/
theorem calm_quits {p : Handler α} {f : α → Handler β} (hκ : κ.quits = true) (hp : Steady p)
    (hf : ∀ a, Steady (f a) ∨ ∃ status, f a = .fail (.exit status)) : Calm κ (p >>= f) := by
  intro t hg hs
  rw [Program.sat_bind]
  refine Program.Sat.mono (fun u r hr => ?_) (hp.within (R := κ.rare) t hg)
  obtain ⟨hl, he, hb⟩ := hr
  have hends : ∀ {v : Mark} {r : Except Fault β}, Level κ.rare t v → r ≠ .error .exec → r ≠ .error .block →
      Ended κ t v r := fun hl hexec hb =>
    ⟨hl.stray.trans hs, by simp [hl.gone, hexec], fun _ => hexec, fun h => by
      simp [hκ] at h, fun _ => hl.timed,
      fun _ h => .inl (hl.wanted ▸ h), fun _ h => absurd h hb, fun _ => hl.masked, hl.rare⟩
  cases r with
  | ok a =>
    rcases hf a with h | ⟨status, h⟩
    · exact (h.within u hl.gone).mono fun v r' hr' => hends (hl.trans hr'.1) hr'.2.1.1 hr'.2.2
    · simp only [h]
      exact hends hl (by simp) (by simp)
  | error e => exact hends hl he.error.1 (by simpa using hb)

theorem calm_vfsAsk (mount : ℕ) (call : VfsCall) : Calm κ (vfsAsk mount call) := by
  intro t hg hs r _
  cases r with
  | ok a =>
    exact ⟨by simp [footprint, hg, hs], by simp [footprint, hg, Op.hands], fun _ => by simp, fun _ => by simp,
      fun _ => by simp [footprint, Op.times], fun _ h => by simpa [footprint, Op.wants] using h,
      fun _ h => by simp at h, fun _ => by simp [footprint, Op.masks], fun _ => Or.inl⟩
  | error e =>
    have hnext : footprint.next t (.env (.vfs mount call)) (.error e) = t := by
      cases call with
      | openFile path opts =>
        rcases opts with ⟨_, _, _, _ | _, _, _ | _, _⟩ <;> exact t.unmarked
      | _ => exact t.unmarked
    rw [hnext]
    exact (silentH_vfsFault e).calm t hg hs

theorem calm_fileAsk (handle : Handle) (call : FileCall) : Calm κ (fileAsk handle call) := by
  intro t hg hs r _
  cases r with
  | ok a =>
    exact ⟨by simp [footprint, hg, hs], by simp [footprint, hg, Op.hands], fun _ => by simp, fun _ => by simp,
      fun _ => by simp [footprint, Op.times], fun _ h => by simpa [footprint, Op.wants] using h,
      fun _ h => by simp at h, fun _ => by simp [footprint, Op.masks], fun _ => Or.inl⟩
  | error e =>
    have hnext : footprint.next t (.env (.file handle call)) (.error e) = t := by
      cases call <;> exact t.unmarked
    rw [hnext]
    exact (silentH_vfsFault e).calm t hg hs

theorem footprint_own (t : Mark) (handle : Handle) (call : FileCall) (h : handle ∈ t.own)
    (r : Except Errno call.Ans) : footprint.next t (.env (.file handle call)) r = t := by
  have : Op.consumes t.own (.env (.file handle call)) r = false := by simp [Op.consumes, h]
  simp only [footprint, this]
  exact t.unmarked

theorem sat_ownFile (t : Mark) (handle : Handle) (call : FileCall) (h : handle ∈ t.own) :
    (fileAsk handle call).Sat footprint t fun u r => u = t ∧ Stays r := by
  intro r _
  rw [footprint_own t handle call h r]
  exact silentH_orVfsFault r t

end
end Wasmux
