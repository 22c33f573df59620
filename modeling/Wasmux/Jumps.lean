import Mathlib.Logic.Function.Basic
import Wasmux.Heap
import Wasmux.Outstanding

/-!
# How a guest comes back

An import that saves the stack is returned from later, when the stack is put
back: a `setjmp` once at first and once for each `longjmp` to it, and a call
when it is answered. What is noted of each process is what every `jmp_buf` was
filled with last, and what the import that is to be returned from has to give.
-/

set_option autoImplicit false

namespace Wasmux
open Effects Abi

/-- What a `jmp_buf` was filled with: where the saved stack lay, its bytes, and
the stack pointer of the `setjmp`. -/
structure Snapshot where
  base : ℕ
  bytes : Bytes
  sp : ℕ

/-- What is noted of a process: what each `jmp_buf` was filled with, where the
stack pointer was when a `setjmp` asked and when a call was put aside, and the
value and the stack pointer that the guest comes back with. -/
structure Jumped where
  saved : ℕ → Option Snapshot
  asked : ℕ
  parked : ℕ
  due : ℤ × ℕ

/-- The notes of the jumps of each process. -/
def jumping : Chronicle Jumped where
  fresh := ⟨fun _ => none, 0, 0, (0, 0)⟩
  machine
    | .act (.unwind (.setjmp _ _)), m, _, t => { t with asked := m.inst.sp }
    | .act .saveSp, m, _, t => { t with parked := m.inst.sp }
    | _, _, _, t => t
  act
    | .saveJmp _ buf _, p, t => { t with
        saved := Function.update t.saved buf
          (some ⟨p.ctx.exec.asyncifyData,
            Kernel.readAsyncifyStack p.inst.mem p.ctx.exec.asyncifyData, t.asked⟩)
        due := (0, t.asked) }
    | .restoreJmp _ buf value, p, t => match t.saved buf with
      | none => t
      | some s => if s.base + s.bytes.length ≤ p.inst.mem.size then { t with due := (value, s.sp) } else t
    | .resumeWith _ value, _, t => { t with due := (value, t.parked) }
    | _, _, t => t
  command _ _ t := t

/-! ## What is there to come back with -/

/-- A process keeps what the notes say, and every saved stack has a place to be put back. -/
structure Poised (exec : ExecState) (mem : Mem) (resume : Resume) (t : Jumped) : Prop where
  bufs : ∀ buf, (exec.jmpBufs.find? fun e => e.1 == buf).map
    (fun e => ⟨exec.asyncifyData, e.2.1, e.2.2⟩) = t.saved buf
  room : ∀ buf s, t.saved buf = some s → s.bytes = [] ∨ s.base + s.bytes.length ≤ mem.size
  due : exec.rewinding = true ∨ resume = .rewind → t.due = (exec.resumeValue, exec.resumeSp)
  asked : ∀ buf sp, exec.suspension = some (.setjmp buf sp) → sp = t.asked
  parked : outstanding exec.suspension resume ≠ none → exec.resumeSp = t.parked

/-- What of a process says how its guest comes back. -/
structure ExecState.Same (e e' : ExecState) : Prop where
  data : e'.asyncifyData = e.asyncifyData
  rewinding : e'.rewinding = e.rewinding
  value : e'.resumeValue = e.resumeValue
  sp : e'.resumeSp = e.resumeSp
  suspension : e'.suspension = e.suspension
  bufs : e'.jmpBufs = e.jmpBufs

theorem same_refl (e : ExecState) : e.Same e := ⟨rfl, rfl, rfl, rfl, rfl, rfl⟩

theorem Poised.same {e e' : ExecState} {mem mem' : Mem} {resume : Resume} {t : Jumped}
    (h : Poised e mem resume t) (hsame : e.Same e') (hsize : mem.size ≤ mem'.size) :
    Poised e' mem' resume t where
  bufs := by
    rw [hsame.bufs, hsame.data]
    exact h.bufs
  room buf s hsaved := (h.room buf s hsaved).imp id fun hroom => hroom.trans hsize
  due := by
    rw [hsame.rewinding, hsame.value, hsame.sp]
    exact h.due
  asked := hsame.suspension ▸ h.asked
  parked := by
    rw [hsame.suspension, hsame.sp]
    exact h.parked

/-- The operations that leave alone how a guest comes back. -/
def Act.straight : Act → Bool
  | .saveSp | .stopRewind | .unwind _ => false
  | _ => true

def Op.straight : Op → Prop
  | .act a => a.straight = true
  | .env _ => True

theorem Act.same_exec (a : Act) (m : Machine) (h : a.straight = true) :
    m.ctx.exec.Same (a.exec m).2.ctx.exec := by
  by_cases hshuffles : a.shuffles = true
  · obtain ⟨fds, descs, pipes, heq⟩ := a.shuffles_exec m hshuffles
    rw [heq]
    exact same_refl _
  cases a with
  | openDesc | dup | dupTo | close | pipe2 => exact absurd rfl hshuffles
  | saveSp | stopRewind | unwind => cases h
  | fork =>
    have hexec : ((Act.fork).exec m).2.ctx.exec = m.ctx.exec := by
      simp only [exec, Machine.fork]
      split <;> rfl
    rw [hexec]
    exact same_refl _
  | vforkExit status =>
    have hexec : ((Act.vforkExit status).exec m).2.ctx.exec = m.ctx.exec := by
      simp only [exec, Machine.vforkExit]
      split <;> rfl
    rw [hexec]
    exact same_refl _
  | finishExec program exe argv envp =>
    have hexec : ((Act.finishExec program exe argv envp).exec m).2.ctx.exec = m.ctx.exec := by
      simp only [exec, Machine.finishExec]
      cases m.ctx.vforkStack <;> rfl
    rw [hexec]
    exact same_refl _
  | put start data =>
    simp only [exec]
    split <;> exact same_refl _
  | setCloexec fd on =>
    simp only [exec]
    split <;> exact same_refl _
  | _ => exact ⟨rfl, rfl, rfl, rfl, rfl, rfl⟩

theorem jumping_straight {o : Op} (h : o.straight) (m : Machine) (a : o.Ans) (t : Jumped) :
    jumping.machine o m a t = t := by
  cases o with
  | env c => rfl
  | act b =>
    cases b with
    | saveSp | stopRewind | unwind => cases h
    | _ => rfl

section
variable {W : Type} {x : Env W}

theorem Op.concludes.straight {o : Op} (h : o.concludes) : o.straight := by
  cases o with
  | env => cases h
  | act a =>
    cases a with
    | saveSp | stopRewind | unwind => cases h
    | _ => rfl

theorem along_straight (number : ℤ) (a : Args) (s : Machine × W) :
    (dispatch number a : Program sig Stop Outcome).Along (exec x) (fun o _ => o.straight) s := by
  refine ⟨rfl, ?_⟩
  show ((handle number a).catching >>= conclude : Program sig Stop Outcome).Along (exec x)
    (fun o _ => o.straight) _
  rw [Program.along_bind, Program.along_catching]
  refine ⟨(along_gates number a _).mono _ ?_, fun r t _ => ?_⟩
  · rintro o t ⟨hgates, -⟩
    cases o with
    | env => trivial
    | act b =>
      cases b with
      | saveSp | stopRewind | unwind => cases hgates
      | _ => rfl
  · exact ((concludes_conclude r).along _ t).mono _ fun o _ ho => ho.straight

/-- A guest whose stack is put back reaches the import it left. -/
def Arrives (o : Op) (s : (Machine × W) × Jumped) : Prop := o = .act .stopRewind →
  s.1.1.ctx.exec.rewinding = true ∧ s.2.due = (s.1.1.ctx.exec.resumeValue, s.1.1.ctx.exec.resumeSp)

variable {m : Machine} {w : W} {t : Jumped} {resume : Resume} {α : Type}

theorem meets_straight {p : Program sig Stop α} (hp : p.Along (exec x) (fun o _ => o.straight) (m, w))
    (h : Poised m.ctx.exec m.inst.mem resume t) :
    Program.Meets (jumping.noting x) (fun _ _ => True) Arrives p (fun _ s => s.2 = t ∧
      Poised s.1.1.ctx.exec s.1.1.inst.mem resume t ∧ m.ctx.exec.Same s.1.1.ctx.exec) ((m, w), t) := by
  have halong : p.Along (jumping.noting x) (fun o _ => o.straight) ((m, w), t) :=
    Program.along_noting (s := ((m, w), t)) hp
  apply Program.meets_of_run
  · refine halong.mono _ ?_
    rintro o s ho rfl
    cases ho
  · refine Program.final_keeps_along (jumping.noting x) (P := fun s : (Machine × W) × Jumped => s.2 = t ∧
      Poised s.1.1.ctx.exec s.1.1.inst.mem resume t ∧ m.ctx.exec.Same s.1.1.ctx.exec) ?_ ⟨rfl, h,
      same_refl _⟩ halong
    rintro o ⟨⟨n, u⟩, t'⟩ ⟨rfl, hpoised, hsame⟩ ho
    have hnotes : (jumping.noting x o ((n, u), t')).2.2 = t' := jumping_straight ho n _ t'
    refine ⟨hnotes, ?_⟩
    have hnext : n.ctx.exec.Same (exec x o (n, u)).2.1.ctx.exec := by
      cases o with
      | env c => exact same_refl _
      | act b => exact b.same_exec n ho
    refine ⟨hpoised.same hnext (size_le_exec (x := x) o (n, u)), ?_⟩
    exact ⟨hnext.data.trans hsame.data, hnext.rewinding.trans hsame.rewinding, hnext.value.trans hsame.value,
      hnext.sp.trans hsame.sp, hnext.suspension.trans hsame.suspension, hnext.bufs.trans hsame.bufs⟩

/-! ## What a guest does -/

/-- A guest whose stack is not being put back has its stack saved. -/
theorem poised_unwind {why : Suspension} (h : Poised m.ctx.exec m.inst.mem .fresh t)
    (hjmp : ∀ buf sp, why = .setjmp buf sp → sp = m.inst.sp)
    (hcall : why.call ≠ none → m.ctx.exec.resumeSp = t.parked) :
    Poised (m.unwind why).ctx.exec (m.unwind why).inst.mem .fresh
        (jumping.machine (.act (.unwind why)) m () t) := by
  have hsize : m.inst.mem.size ≤ (m.unwind why).inst.mem.size := 
    size_le_exec (x := Env.still Unit) (.act (.unwind why)) (m, ())
  have hnotes : (jumping.machine (.act (.unwind why)) m () t).saved = t.saved ∧
      (jumping.machine (.act (.unwind why)) m () t).parked = t.parked ∧
      (jumping.machine (.act (.unwind why)) m () t).due = t.due := by
    cases why <;> exact ⟨rfl, rfl, rfl⟩
  obtain ⟨hsaved, hparked, hdue⟩ := hnotes
  refine ⟨?_, ?_, ?_, ?_, ?_⟩
  · rw [hsaved]
    exact h.bufs
  · rw [hsaved]
    exact fun buf s hbuf => (h.room buf s hbuf).imp id fun hroom => hroom.trans hsize
  · rw [hdue]
    exact h.due
  · intro buf sp hsuspension
    obtain rfl : why = .setjmp buf sp := Option.some.inj hsuspension
    exact hjmp buf sp rfl
  · rw [hparked]
    intro houtstanding
    apply hcall
    intro hnone
    apply houtstanding
    show ((some why).bind Suspension.call).or none = none
    rw [Option.bind_some, hnone]
    rfl

theorem meets_look {f : View → Program sig Stop α} {Q : Except Stop α → (Machine × W) × Jumped → Prop}
    (h : Program.Meets (jumping.noting x) (fun _ _ => True) Arrives (f m.view) Q ((m, w), t)) :
    Program.Meets (jumping.noting x) (fun _ _ => True) Arrives (view >>= f) Q ((m, w), t) :=
  fun _ => ⟨(fun heq => by cases heq), h⟩

theorem meets_unwind {why : Suspension} (h : Poised m.ctx.exec m.inst.mem .fresh t)
    (hjmp : ∀ buf sp, why = .setjmp buf sp → sp = m.inst.sp)
    (hcall : why.call ≠ none → m.ctx.exec.resumeSp = t.parked) (v : α) :
    Program.Meets (jumping.noting x) (fun _ _ => True) Arrives
      (act (.unwind why) >>= fun _ => .ret v : Program sig Stop α)
      (fun _ s => Poised s.1.1.ctx.exec s.1.1.inst.mem .fresh s.2) ((m, w), t) :=
  fun _ => ⟨(fun heq => by cases heq), poised_unwind h hjmp hcall⟩

theorem meets_stopRewind (h : Poised m.ctx.exec m.inst.mem .fresh t)
    (hrewinding : m.ctx.exec.rewinding = true) :
    Program.Meets (jumping.noting x) (fun _ _ => True) Arrives (Import.finishRewind : Program sig Stop ℤ)
      (fun _ s => Poised s.1.1.ctx.exec s.1.1.inst.mem .fresh s.2) ((m, w), t) := by
  refine fun _ => ⟨fun _ => ⟨hrewinding, h.due (.inl hrewinding)⟩, ?_⟩
  exact {
    bufs := h.bufs
    room := h.room
    due := fun hcomes => by rcases hcomes with hcomes | hcomes <;> cases hcomes
    asked := h.asked
    parked := h.parked }

theorem meets_blocked (number : ℤ) (a : Args) (h : Poised m.ctx.exec m.inst.mem .fresh t)
    (hrewinding : m.ctx.exec.rewinding = false) (v : α) :
    Program.Meets (jumping.noting x) (fun _ _ => True) Arrives
      (act .saveSp >>= fun _ => act (.unwind (.blocked number a)) >>= fun _ => .ret v : Program sig Stop α)
      (fun _ s => Poised s.1.1.ctx.exec s.1.1.inst.mem .fresh s.2) ((m, w), t) := by
  have hsaved : Poised ((Act.saveSp).exec m).2.ctx.exec ((Act.saveSp).exec m).2.inst.mem .fresh { t with
    parked := m.inst.sp } := {
    bufs := h.bufs
    room := h.room
    due := fun hcomes => by
      rcases hcomes with hcomes | hcomes
      · cases hrewinding.symm.trans hcomes
      · cases hcomes
    asked := h.asked
    parked := fun _ => rfl }
  refine fun _ => ⟨(fun heq => by cases heq), ?_⟩
  exact meets_unwind hsaved (fun _ _ => Suspension.noConfusion) (fun _ => rfl) v

theorem meets_syscall (number argsPtr : ℕ) (h : Poised m.ctx.exec m.inst.mem .fresh t) :
    Program.Meets (jumping.noting x) (fun _ _ => True) Arrives
    (Import.syscall number argsPtr : Program sig Stop ℤ)
      (fun _ s => Poised s.1.1.ctx.exec s.1.1.inst.mem .fresh s.2) ((m, w), t) := by
  apply meets_look
  refine Program.meets_ite (fun hrewinding => meets_stopRewind h hrewinding) fun hnot => ?_
  have hrewinding : m.ctx.exec.rewinding = false := eq_false_of_ne_true hnot
  cases Import.readArgs m.view.mem argsPtr with
  | error e => exact h
  | ok args =>
    refine Program.meets_bind (meets_straight (along_straight (asI32 number) args (m, w)) h) ?_ ?_
    · rintro outcome ⟨⟨m', w'⟩, t'⟩ ⟨rfl, hpoised, hsame⟩
      cases outcome with
      | value value => exact hpoised
      | blocked => exact meets_blocked _ _ hpoised (hsame.rewinding.trans hrewinding) _
      | exit status =>
        exact meets_unwind hpoised (fun _ _ => Suspension.noConfusion) (fun hcall => absurd rfl hcall) _
      | exec =>
        exact meets_unwind hpoised (fun _ _ => Suspension.noConfusion) (fun hcall => absurd rfl hcall) _
    · exact fun e s hs => hs.1 ▸ hs.2.1

theorem meets_setjmp (buf : ℕ) (h : Poised m.ctx.exec m.inst.mem .fresh t) :
    Program.Meets (jumping.noting x) (fun _ _ => True) Arrives (Import.setjmp buf : Program sig Stop ℤ)
      (fun _ s => Poised s.1.1.ctx.exec s.1.1.inst.mem .fresh s.2) ((m, w), t) := by
  apply meets_look
  refine Program.meets_ite (fun hrewinding => meets_stopRewind h hrewinding) fun _ => ?_
  refine meets_unwind h ?_ (fun hcall => absurd rfl hcall) 0
  intro buf' sp heq
  injection heq with hbuf hsp
  exact hsp.symm

theorem straight_args (buffer capacity : ℕ) :
    (Import.args buffer capacity : Program sig Stop ℤ).Only Op.straight := by
  refine Program.only_bind (p := view) ⟨rfl, fun _ => trivial⟩ fun v => ?_
  refine Program.only_bind (p := env (.random 16)) ⟨trivial, fun _ => trivial⟩ fun seed => ?_
  refine Program.only_ite trivial (Program.only_ite trivial ?_)
  refine Program.only_bind (p := act (.put buffer _)) ⟨rfl, fun _ => trivial⟩ fun r => ?_
  cases r <;> trivial

theorem Op.delivers.straight {o : Op} (h : o.delivers) : o.straight := by
  cases o with
  | env => cases h
  | act a =>
    cases a with
    | saveSp | stopRewind | unwind => cases h
    | _ => rfl

theorem meets_sigfetch (out : ℕ) (h : Poised m.ctx.exec m.inst.mem .fresh t) :
    Program.Meets (jumping.noting x) (fun _ _ => True) Arrives (Import.sigfetch out : Program sig Stop ℤ)
      (fun _ s => Poised s.1.1.ctx.exec s.1.1.inst.mem .fresh s.2) ((m, w), t) := by
  have hnext : (nextSignal out : Program sig Stop SignalDelivery).Only Op.straight :=
    (delivers_nextSignalFrom out _).mono fun _ => Op.delivers.straight
  refine Program.meets_bind (meets_straight (hnext.along _ _) h) ?_ ?_
  · rintro d ⟨⟨m', w'⟩, t'⟩ ⟨rfl, hpoised, -⟩
    cases d with
    | none => exact hpoised
    | handler => exact hpoised
    | fatal status =>
      exact meets_unwind hpoised (fun _ _ => Suspension.noConfusion) (fun hcall => absurd rfl hcall) 0
  · exact fun e s hs => hs.1 ▸ hs.2.1

theorem meets_guestAct (g : GuestAct) (h : Poised m.ctx.exec m.inst.mem .fresh t) :
    Program.Meets (jumping.noting x) (fun _ _ => True) Arrives (guestAct g : Program sig Stop Unit)
      (fun _ s => Poised s.1.1.ctx.exec s.1.1.inst.mem .fresh s.2) ((m, w), t) := by
  have hdone : ∀ {β : Type} {p : Program sig Stop β}, Program.Meets (jumping.noting x)
    (fun _ _ => True) Arrives p
      (fun _ s => Poised s.1.1.ctx.exec s.1.1.inst.mem .fresh s.2) ((m, w), t) →
      Program.Meets (jumping.noting x)
      (fun _ _ => True) Arrives (p >>= fun _ => .ret () : Program sig Stop Unit)
        (fun _ s => Poised s.1.1.ctx.exec s.1.1.inst.mem .fresh s.2) ((m, w), t) :=
    fun hp => Program.meets_bind hp (fun _ _ hs => hs) fun _ _ hs => hs
  have hstraight : ∀ {p : Program sig Stop Unit}, p.Only Op.straight →
      Program.Meets (jumping.noting x) (fun _ _ => True)
      Arrives p (fun _ s => Poised s.1.1.ctx.exec s.1.1.inst.mem .fresh s.2) ((m, w), t) :=
    fun hp => (meets_straight (hp.along _ _) h).mono fun _ _ hs => hs.1 ▸ hs.2.1
  apply meets_look
  cases g with
  | compute mem sp => exact hstraight (p := act (.compute mem sp)) ⟨rfl, fun _ => trivial⟩
  | syscall number argsPtr =>
    exact Program.meets_ite (fun _ => h) fun _ => hdone (meets_syscall number argsPtr h)
  | setjmp buf => exact Program.meets_ite (fun _ => h) fun _ => hdone (meets_setjmp buf h)
  | longjmp buf value =>
    refine Program.meets_ite (fun _ => h) fun _ => ?_
    exact meets_unwind h (fun _ _ => Suspension.noConfusion) (fun hcall => absurd rfl hcall) ()
  | init flag =>
    exact Program.meets_ite (fun _ => h) fun _ => hstraight (p := Import.init flag) ⟨rfl, fun _ => trivial⟩
  | args buffer capacity =>
    refine Program.meets_ite (fun _ => h) fun _ => ?_
    exact hstraight (Program.only_bind (straight_args buffer capacity) fun _ => trivial)
  | sigfetch out => exact Program.meets_ite (fun _ => h) fun _ => hdone (meets_sigfetch out h)

/-! ## Turns -/

def jumpPlaces : Places Jumped where
  rests p t := Poised p.ctx.exec p.inst.mem p.resume t
  enters ctx inst t := Poised ctx.exec inst.mem .fresh t
  retries number a ctx inst t := Poised ctx.exec inst.mem (.blocked number a) t

/-- What holds when a guest has come back, and when its stack is saved. -/
def Lands : KAct → Proc → Jumped → Prop
  | .takeSuspension _, p, t => Poised p.ctx.exec p.inst.mem .fresh t
  | .saveJmp _ _ sp, _, t => sp = t.asked
  | _, _, _ => True

theorem find_filter_ne {α : Type} (l : List (ℕ × α)) {buf other : ℕ} (h : other ≠ buf) :
    ((l.filter fun e => e.1 != buf).find? fun e => e.1 == other) = l.find? fun e => e.1 == other := by
  induction l with
  | nil => rfl
  | cons e rest ih =>
    by_cases hbuf : e.1 = buf
    · have hother : e.1 ≠ other := fun heq => h (heq.symm.trans hbuf)
      simp [hbuf, ih, h.symm]
    · by_cases hother : e.1 = other
      · simp [hother, h]
      · simp [hbuf, hother, ih]

/-- A saved stack is a part of the memory it was saved from. -/
theorem readAsyncifyStack_room (mem : Mem) (data : ℕ) : Kernel.readAsyncifyStack mem data = [] ∨
    data + (Kernel.readAsyncifyStack mem data).length ≤ mem.size := by
  unfold Kernel.readAsyncifyStack
  split
  · exact .inl rfl
  rename_i header hheader
  dsimp only
  split
  · exact .inl rfl
  rename_i hlimit
  rw [Mem.bytes]
  split
  · rename_i hle
    right
    show data + (mem.read data (ofLe (header.take 4) - data)).length ≤ mem.size
    simpa [Mem.read] using hle
  · exact .inl rfl

namespace Poised
variable {exec : ExecState} {mem : Mem} {t : Jumped} {resume : Resume}

theorem taken (h : Poised exec mem resume t) : Poised { exec with suspension := none } mem .fresh t where
  bufs := h.bufs
  room := h.room
  due hcomes := h.due (.inl (hcomes.resolve_right Resume.noConfusion))
  asked _ _ hnone := by cases hnone
  parked hnone := absurd rfl hnone

/-- The stack of a `setjmp` has been saved. -/
theorem saved (h : Poised exec mem resume t) (buf : ℕ) (hsuspension : exec.suspension = none) :
    Poised { exec with
    jmpBufs := (buf, Kernel.readAsyncifyStack mem exec.asyncifyData, t.asked) ::
      exec.jmpBufs.filter fun e => e.1 != buf
    resumeValue := 0
    resumeSp := t.asked } mem .rewind { t with
    saved := Function.update t.saved buf
      (some ⟨exec.asyncifyData, Kernel.readAsyncifyStack mem exec.asyncifyData, t.asked⟩)
    due := (0, t.asked) } where
  bufs other := by
    by_cases hother : other = buf
    · subst hother
      simp
    · show _ = Function.update t.saved buf _ other
      rw [Function.update_of_ne hother, ← h.bufs other,
        List.find?_cons_of_neg (by simpa using Ne.symm hother), find_filter_ne _ hother]
  room other s hsaved := by
    have hsaved : Function.update t.saved buf _ other = some s := hsaved
    by_cases hother : other = buf
    · subst hother
      rw [Function.update_self] at hsaved
      obtain rfl := Option.some.inj hsaved
      exact readAsyncifyStack_room mem exec.asyncifyData
    · rw [Function.update_of_ne hother] at hsaved
      exact h.room other s hsaved
  due _ := rfl
  asked _ _ hsome := by
    have hsome : exec.suspension = _ := hsome
    cases hsuspension.symm.trans hsome
  parked houtstanding := by
    apply absurd _ houtstanding
    show (exec.suspension.bind Suspension.call).or none = none
    rw [hsuspension]
    rfl

/-- The stack of the `setjmp` is put back, if there is one and there is room. -/
theorem restored (h : Poised exec mem .fresh t) (hsuspension : exec.suspension = none) (p : Proc)
    (hctx : p.ctx.exec = exec) (hmem : p.inst.mem = mem) (hresume : p.resume = .fresh) (index buf : ℕ)
    (value : ℤ) :
    jumpPlaces.rests ((KAct.restoreJmp index buf value).effect p)
        (jumping.act (.restoreJmp index buf value) p t) := by
  subst hctx hmem
  have hsame : jumpPlaces.rests p t := by
    show Poised p.ctx.exec p.inst.mem p.resume t
    rw [hresume]
    exact h
  have hbuf := h.bufs buf
  rcases hfind : p.ctx.exec.jmpBufs.find? fun e => e.1 == buf with _ | ⟨found, bytes, sp⟩
  · rw [hfind] at hbuf
    have hbuf : t.saved buf = none := hbuf.symm
    simp only [KAct.effect, hfind, jumping, hbuf]
    exact hsame
  · rw [hfind] at hbuf
    have hbuf : t.saved buf = some ⟨p.ctx.exec.asyncifyData, bytes, sp⟩ := hbuf.symm
    by_cases hroom : p.ctx.exec.asyncifyData + bytes.length ≤ p.inst.mem.size
    · have hput : p.inst.mem.put p.ctx.exec.asyncifyData bytes =
        .ok (p.inst.mem.write p.ctx.exec.asyncifyData bytes) := if_pos hroom
      simp only [KAct.effect, hfind, hput, jumping, hbuf, if_pos hroom]
      exact {
        bufs := h.bufs
        room := h.room
        due := fun _ => rfl
        asked := h.asked
        parked := fun houtstanding => by
          apply absurd _ houtstanding
          show (p.ctx.exec.suspension.bind Suspension.call).or none = none
          rw [hsuspension]
          rfl }
    · have hput : p.inst.mem.put p.ctx.exec.asyncifyData bytes = .error .fault := if_neg hroom
      simp only [KAct.effect, hfind, hput, jumping, hbuf, if_neg hroom]
      exact hsame

end Poised

theorem outstanding_blocked (suspension : Option Suspension) (number : ℤ) (a : Args) :
    outstanding suspension (.blocked number a) ≠ none := by
  unfold outstanding
  cases suspension.bind Suspension.call with
  | none => exact Option.some_ne_none _
  | some call => exact Option.some_ne_none _

theorem Op.streams.straight {o : Op} (h : o.streams) : o.straight := by
  cases o with
  | env => trivial
  | act a =>
    cases a with
    | saveSp | stopRewind | unwind => cases h
    | _ => rfl

/-- A new process has nothing to come back with. -/
theorem poised_procOf (spawn : Spawn) (launch : Launch) :
    jumpPlaces.rests (Kernel.procOf spawn launch) jumping.fresh := by
  have hexec : (Kernel.procOf spawn launch).ctx.exec.jmpBufs = [] ∧
      (Kernel.procOf spawn launch).ctx.exec.rewinding = false ∧
      (Kernel.procOf spawn launch).ctx.exec.suspension = none ∧ (Kernel.procOf spawn launch).resume =
      .fresh := by
    cases launch <;> exact ⟨rfl, rfl, rfl, rfl⟩
  obtain ⟨hbufs, hrewinding, hsuspension, hresume⟩ := hexec
  constructor
  · intro buf
    rw [hbufs]
    rfl
  · intro _ _ hnone
    exact absurd hnone.symm (Option.some_ne_none _)
  · rintro (hcomes | hcomes)
    · cases hrewinding.symm.trans hcomes
    · cases hresume.symm.trans hcomes
  · intro _ _ hsome
    cases hsuspension.symm.trans hsome
  · intro hsome
    apply absurd _ hsome
    rw [hsuspension, hresume]
    rfl

/-- What is around the turns leaves alone how a guest comes back. -/
theorem keeps_jumping (x : Env W) : jumping.Keeps x (fun o _ => o.around) jumpPlaces.rests where
  fresh := poised_procOf
  begin _ _ h := h
  command _ _ _ _ _ _ _ _ h _ := h
  machine i o k w p t _ h ho := by
    have hstraight : o.straight := Op.streams.straight ho
    rw [jumping_straight hstraight]
    have hsame : p.ctx.exec.Same (exec x o (k.machineOf p, w)).2.1.ctx.exec := by
      cases o with
      | env c => exact same_refl _
      | act a => exact a.same_exec (k.machineOf p) hstraight
    exact Poised.same h hsame (size_le_exec (x := x) o (k.machineOf p, w))
  act a i k w p t ha _ h ho := by
    cases a with
    | endStep | appendInput | setPhase | advance => exact h
    | releaseInstance => exact Poised.same h ⟨rfl, rfl, rfl, rfl, rfl, rfl⟩ le_rfl
    | attach | setResume | rewind | resumeWith | takeSuspension | saveJmp | restoreJmp => cases ho
    | _ => cases ha

namespace Poised
variable {exec : ExecState} {mem : Mem} {t : Jumped}

theorem fresh_of_parked {resume : Resume} (h : Poised exec mem resume t)
    (hparked : exec.resumeSp = t.parked) : Poised exec mem .fresh t where
  bufs := h.bufs
  room := h.room
  due hcomes := h.due (hcomes.imp id fun heq => by cases heq)
  asked := h.asked
  parked _ := hparked

theorem answered {index : ℕ} {number : ℤ} {args : Args} {p : Proc} (hresume : p.resume = .fresh)
    (h : Poised p.ctx.exec p.inst.mem (.blocked number args) t) (outcome : Outcome) :
    jumpPlaces.Answered jumping index number args p t outcome := by
  have hparked : p.ctx.exec.resumeSp = t.parked := h.parked (outstanding_blocked _ _ _)
  have hfresh := h.fresh_of_parked hparked
  have hrests : jumpPlaces.rests p t := by
    show Poised _ _ p.resume _
    rw [hresume]
    exact hfresh
  cases outcome with
  | blocked => exact h
  | exit | exec => exact hrests
  | value value =>
    exact ⟨hfresh.bufs, hfresh.room, fun _ =>
      congrArg (Prod.mk value) hparked.symm, hfresh.asked, fun _ => hparked⟩

/-- The guest has come back, and this is done about it. -/
theorem returned {i : ℕ} {p : Proc} (hresume : p.resume = .fresh)
    (h : Poised p.ctx.exec p.inst.mem .fresh t) :
    jumpPlaces.Returned jumping Lands i ((KAct.takeSuspension i).effect p)
      (jumping.act (.takeSuspension i) p t) p.ctx.exec.suspension := by
  have htaken : jumpPlaces.rests ((KAct.takeSuspension i).effect p) t := by
    show Poised _ _ p.resume _
    rw [hresume]
    exact h.taken
  cases hsuspension : p.ctx.exec.suspension with
  | none => exact htaken
  | some why =>
    cases why with
    | setjmp buf sp =>
      obtain rfl := h.asked buf sp hsuspension
      exact ⟨rfl, h.taken.saved buf rfl⟩
    | longjmp buf value =>
      exact ⟨trivial, h.taken.restored rfl ((KAct.takeSuspension i).effect p) rfl rfl hresume i buf value⟩
    | blocked number args =>
      have hparked : p.ctx.exec.resumeSp = t.parked := by
        apply h.parked
        rw [outstanding, hsuspension]
        exact Option.some_ne_none _
      exact ⟨h.bufs, h.room, fun hcomes => h.due (.inl (hcomes.resolve_right Resume.noConfusion)),
        fun _ _ hnone => absurd hnone.symm (Option.some_ne_none _), fun _ => hparked⟩
    | exit status => exact htaken
    | exec => exact htaken

end Poised

/-- Every leg of a turn. -/
theorem connects_jumping (x : Env W) : jumpPlaces.Connects jumping Lands x Arrives where
  keeps := keeps_jumping x
  streams o s t ho := by
    rintro rfl
    cases ho
  others a p t ha := by
    cases a with
    | takeSuspension | saveJmp | restoreJmp => cases ha
    | _ => trivial
  parked i p t h := h
  fresh i p t h hresume := by
    have h : Poised p.ctx.exec p.inst.mem p.resume t := h
    rw [hresume] at h
    exact h
  rewind i p t h hresume := by
    have h : Poised p.ctx.exec p.inst.mem p.resume t := h
    rw [hresume] at h
    exact ⟨h.bufs, h.room, fun _ => h.due (.inr rfl), h.asked, h.parked⟩
  blocked i p t number args h hresume := by
    have h : Poised p.ctx.exec p.inst.mem p.resume t := h
    rw [hresume] at h
    exact h
  guest g m w t h := meets_guestAct g h
  again index number args p m w t hresume hctx hinst h := by
    have h : Poised p.ctx.exec p.inst.mem (.blocked number args) t := h
    rw [← hctx, ← hinst] at h
    refine (meets_straight (along_straight number args (m, w)) h).mono ?_
    rintro r ⟨⟨m', w'⟩, t'⟩ ⟨rfl, hpoised, -⟩ outcome -
    exact Poised.answered (p := { p with ctx := m'.ctx, inst := m'.inst }) hresume hpoised outcome
  ends p t hresume h := by
    show Poised _ _ p.resume _
    rw [hresume]
    exact h
  leaves i p t _ h := h
  returns i p t hresume h := Poised.returned hresume h

variable {A : KOp → Kernel × W → Prop} {index : ℕ} {k : Kernel} {notes : List Jumped} {p : Proc}

/-- What is done for a `longjmp` once its guest has come back. -/
theorem run_afterReturn_longjmp {buf : ℕ} {value : ℤ} {k' k'' : Kernel} {back : Bool}
    (hanswer : (KAct.takeSuspension index).exec k = (some (.longjmp buf value), k'))
    (hback : (KAct.restoreJmp index buf value).exec k' = (back, k'')) :
    (Scheduler.afterReturn index).run (kexec x) (k, w) =
      (.ok (if back then .ran else .ended (statusSignaled sigsegv)), k'', w) := by
  have htake : (kact (.takeSuspension index)).run (kexec x) (k, w) =
      (.ok (some (.longjmp buf value)), k', w) := by
    show (Except.ok ((KAct.takeSuspension index).exec k).1, ((KAct.takeSuspension index).exec k).2, w) = _
    rw [hanswer]
  have hrestore : (kact (.restoreJmp index buf value)).run (kexec x) (k', w) = (.ok back, k'', w) := by
    show (Except.ok ((KAct.restoreJmp index buf value).exec k').1,
      ((KAct.restoreJmp index buf value).exec k').2, w) = _
    rw [hback]
  unfold Scheduler.afterReturn
  rw [Program.run_bind_ok (kexec x) htake]
  dsimp only
  rw [Program.run_bind_ok (kexec x) hrestore]
  cases back <;> rfl

/-- `longjmp` restores exactly what its `setjmp` saved. In every session, whatever
the process did in between, the bytes that the `jmp_buf` was filled with last are
put back where they were and can be read there, and the guest comes back with the
value given and with the stack pointer that the `setjmp` saw. A `jmp_buf` that was
never filled restores nothing, and the process ends. -/
theorem longjmp_restores {buf : ℕ} {value : ℤ}
    (h : Performed x jumping.history A (.act (.takeSuspension index)) k w notes)
    (hp : k.procs[index]? = some p) (ht : notes[index]? = some t)
    (hjump : p.ctx.exec.suspension = some (.longjmp buf value)) :
    (t.saved buf = none → (Scheduler.afterReturn index).run (kexec x) (k, w) =
      (.ok (.ended (statusSignaled sigsegv)), ((KAct.takeSuspension index).exec k).2, w)) ∧
    ∀ s, t.saved buf = some s → s.bytes ≠ [] → ∃ mem, p.inst.mem.put s.base s.bytes = .ok mem ∧
      mem.bytes s.base s.bytes.length = .ok s.bytes ∧ (Scheduler.afterReturn index).run (kexec x) (k, w) =
        (.ok .ran, ((KAct.takeSuspension index).exec k).2.modifyProc index fun p => { p with
          resume := .rewind
          inst := { p.inst with mem := mem }
          ctx := { p.ctx with exec := { p.ctx.exec with resumeValue := value, resumeSp := s.sp } } }, w) := by
  have hlands : Poised p.ctx.exec p.inst.mem .fresh t :=
    (connects_jumping x).weaves.performed h index p t rfl hp ht
  obtain ⟨k', hk'⟩ : ∃ k', k' = ((KAct.takeSuspension index).exec k).2 := ⟨_, rfl⟩
  have hanswer : (KAct.takeSuspension index).exec k = (some (.longjmp buf value), k') := by
    rw [hk', ← hjump]
    simp only [KAct.exec, hp, Option.bind_some]
  obtain ⟨q, hq, hbufs, hdata, hmem⟩ :
    ∃ q, k'.procs[index]? = some q ∧ q.ctx.exec.jmpBufs = p.ctx.exec.jmpBufs ∧
      q.ctx.exec.asyncifyData = p.ctx.exec.asyncifyData ∧ q.inst.mem = p.inst.mem := by
    subst hk'
    simp [KAct.exec, Kernel.modifyProc, hp]
  rw [← hk']
  have hbuf := hlands.bufs buf
  rw [← hbufs, ← hdata] at hbuf
  cases hfind : q.ctx.exec.jmpBufs.find? fun e => e.1 == buf with
  | none =>
    have hempty : t.saved buf = none := by
      rw [← hbuf, hfind]
      rfl
    have hnothing : (KAct.restoreJmp index buf value).exec k' = (false, k') := by
      simp only [KAct.exec, hq, Option.bind_some, hfind, Option.map_none]
    refine ⟨fun _ => run_afterReturn_longjmp hanswer hnothing, fun s hs => ?_⟩
    cases hempty.symm.trans hs
  | some found =>
    obtain ⟨found, bytes, sp⟩ := found
    have hfilled : t.saved buf = some ⟨q.ctx.exec.asyncifyData, bytes, sp⟩ := by
      rw [← hbuf, hfind]
      rfl
    refine ⟨fun hnone => (by cases hfilled.symm.trans hnone), fun s hs hne => ?_⟩
    obtain rfl := Option.some.inj (hfilled.symm.trans hs)
    have hroom := (hlands.room buf _ hs).resolve_left hne
    have hput : p.inst.mem.put q.ctx.exec.asyncifyData bytes =
        .ok (p.inst.mem.write q.ctx.exec.asyncifyData bytes) :=
      if_pos hroom
    refine ⟨_, hput, Mem.bytes_put hput, ?_⟩
    apply (run_afterReturn_longjmp hanswer ?_).trans
    · rw [if_pos rfl]
    · simp only [KAct.exec, hq, Option.bind_some, hfind, Option.map_some, hmem, hput]

/-- A guest whose stack is put back reaches the import it left, which returns
what is due: zero after a `setjmp`, the value of a `longjmp`, or the answer of
the call that was made again, each with the stack pointer that goes with it. A
stack pointer of zero counts as none, and leaves the guest's as it is. -/
theorem rewind_returns (h : Performed x jumping.history A (.machine index (.act .stopRewind)) k w notes)
    (hp : k.procs[index]? = some p) (ht : notes[index]? = some t) : p.ctx.exec.rewinding = true ∧
      ((Act.stopRewind).exec (k.machineOf p)).1 = t.due.1 ∧
      (t.due.2 ≠ 0 → ((Act.stopRewind).exec (k.machineOf p)).2.inst.sp = t.due.2) ∧
      (t.due.2 = 0 → ((Act.stopRewind).exec (k.machineOf p)).2.inst.sp = p.inst.sp) := by
  obtain ⟨hrewinding, hdue⟩ := (connects_jumping x).weaves.performed h p t hp ht rfl
  rw [hdue]
  exact ⟨hrewinding, rfl, fun hne => if_pos hne, fun heq => if_neg (not_not_intro heq)⟩

end

/-- A guest that saves its stack and comes back to it from further down, and what it finds then. -/
def jumpScript : List GuestRun := [
  ⟨[.compute (.startingWith []) 512, .setjmp 16], none⟩,
  ⟨[.setjmp 16, .compute (.startingWith []) 256, .longjmp 16 7], none⟩,
  ⟨[.setjmp 16], none⟩]

theorem longjmp_restores_once :
    ∃ (k : Kernel) (w : List GuestRun) (notes : List Jumped) (p : Proc) (t : Jumped) (s : Snapshot),
    Performed (Env.scripted (.startingWith [])) jumping.history
      (fun _ _ => True) (.act (.takeSuspension 0)) k w notes ∧
    k.procs[0]? = some p ∧ notes[0]? = some t ∧ p.ctx.exec.suspension = some (.longjmp 16 7) ∧
    t.saved 16 = some s ∧
    s.sp = 512 ∧ s.bytes = toLe 4 0x10008 ++ toLe 4 0x110000 ∧
    ((Scheduler.afterReturn 0).run (kexec (Env.scripted (.startingWith []))) (k, w)).1 = .ok .ran := by
  have hstart : Recorded (Env.scripted (.startingWith [])) jumping.history
      (fun _ _ => True) ⟨_, none⟩ _ [jumping.fresh] :=
    .start (.bare [.guest 0]) 0 _ _ jumpScript _ _ rfl (Program.along_of_forall _
      (fun _ _ => trivial) _ _) rfl
  have hback := Performed.running _ _ _ 3 ⟨none, none⟩ _ hstart
    (Program.along_of_forall _ (fun _ _ => trivial) _ _) (List.mem_of_getElem? (i := 37) rfl)
  obtain ⟨k, w, notes, p, t, s, hback, hp, ht, hjump, hs, hsp, hbytes⟩ : ∃ (k : Kernel) (w : List GuestRun)
      (notes : List Jumped) (p : Proc) (t : Jumped) (s : Snapshot),
      Performed (Env.scripted (.startingWith [])) jumping.history
        (fun _ _ => True) (.act (.takeSuspension 0)) k w notes ∧
      k.procs[0]? = some p ∧ notes[0]? = some t ∧ p.ctx.exec.suspension = some (.longjmp 16 7) ∧
      t.saved 16 = some s ∧
      s.sp = 512 ∧ s.bytes = toLe 4 0x10008 ++ toLe 4 0x110000 :=
    ⟨_, _, _, _, _, _, hback, rfl, rfl, rfl, rfl, rfl, by decide +kernel⟩
  obtain ⟨mem, -, -, hrun⟩ := (longjmp_restores hback hp ht hjump).2 s hs (by rw [hbytes]; decide)
  exact ⟨k, w, notes, p, t, s, hback, hp, ht, hjump, hs, hsp, hbytes, by rw [hrun]⟩

theorem rewind_returns_value :
    ∃ (k : Kernel) (w : List GuestRun) (notes : List Jumped) (p : Proc) (t : Jumped),
    Performed (Env.scripted (.startingWith [])) jumping.history
      (fun _ _ => True) (.machine 0 (.act .stopRewind)) k w notes ∧
    k.procs[0]? = some p ∧ notes[0]? = some t ∧ p.inst.sp = 256 ∧ t.due = (7, 512) ∧
    ((Act.stopRewind).exec (k.machineOf p)).1 = 7 ∧
    ((Act.stopRewind).exec (k.machineOf p)).2.inst.sp = 512 := by
  have hstart : Recorded (Env.scripted (.startingWith [])) jumping.history
      (fun _ _ => True) ⟨_, none⟩ _ [jumping.fresh] :=
    .start (.bare [.guest 0]) 0 _ _ jumpScript _ _ rfl (Program.along_of_forall _
      (fun _ _ => trivial) _ _) rfl
  have hstop := Performed.running _ _ _ 3 ⟨none, none⟩ _ hstart
    (Program.along_of_forall _ (fun _ _ => trivial) _ _) (List.mem_of_getElem? (i := 54) rfl)
  obtain ⟨k, w, notes, p, t, hstop, hp, ht, hsp, hdue⟩ : ∃ (k : Kernel) (w : List GuestRun)
      (notes : List Jumped) (p : Proc) (t : Jumped),
      Performed (Env.scripted (.startingWith [])) jumping.history
        (fun _ _ => True) (.machine 0 (.act .stopRewind)) k w notes ∧
      k.procs[0]? = some p ∧ notes[0]? = some t ∧ p.inst.sp = 256 ∧ t.due = (7, 512) :=
    ⟨_, _, _, _, _, hstop, rfl, rfl, rfl, rfl⟩
  obtain ⟨-, hvalue, hback, -⟩ := rewind_returns hstop hp ht
  rw [hdue] at hvalue hback
  exact ⟨k, w, notes, p, t, hstop, hp, ht, hsp, hdue, hvalue, hback (by decide)⟩

end Wasmux
