import Wasmux.Polling

/-!
# What goes through a pipe

A history of a pipe is a list of the calls that read from it and wrote to it,
with anything in between that leaves its contents alone. Whatever the processes,
the descriptors and the order: what was read and what is still there is what
was written.
-/

set_option autoImplicit false

namespace Wasmux
open Effects Abi Sys

/-- A call of `readBytes` or `writeBytes`, with the description it was made on
and the machine before and after. -/
inductive PipeCall where
  | read (before : Machine) (desc : Desc) (len : ℕ) (result : Except Fault (ℕ × Bytes)) (after : Machine)
  | write (before : Machine) (desc : Desc) (data : Bytes) (result : Except Fault ℕ) (after : Machine)

namespace PipeCall

def machine : PipeCall → Machine
  | .read m _ _ _ _ | .write m _ _ _ _ => m

def machineAfter : PipeCall → Machine
  | .read _ _ _ _ m | .write _ _ _ _ m => m

def before : PipeCall → Shared
  | .read m _ _ _ _ | .write m _ _ _ _ => m.shared

def after : PipeCall → Shared
  | .read _ _ _ _ m | .write _ _ _ _ m => m.shared

/-- The bytes that were read. -/
def got : PipeCall → Bytes
  | .read _ _ _ (.ok (n, buf)) _ => buf.take n
  | _ => []

/-- The bytes that were accepted. -/
def put : PipeCall → Bytes
  | .write _ _ data (.ok n) _ => data.take n
  | _ => []

/-- The call was made on an end of this pipe, by a descriptor that was open on it. -/
def Happens {W : Type} (x : Env W) (key : PipeKey) : PipeCall → Prop
  | .read m desc len r m' => ∃ fd entry w w', openFd m.view fd = .ok (entry, desc) ∧
      desc.kind = .pipeRead key ∧
    (readBytes fd len).run (exec x) (m, w) = (r, (m', w'))
  | .write m desc data r m' => ∃ fd entry w w', openFd m.view fd = .ok (entry, desc) ∧
      desc.kind = .pipeWrite key ∧
    (writeBytes fd data).run (exec x) (m, w) = (r, (m', w'))

end PipeCall

/-- The calls on a pipe since it was empty, in any order and by anyone. -/
inductive Traffic {W : Type} (x : Env W) (key : PipeKey) : List PipeCall → Shared → Prop
  | made (sh : Shared) (p : Pipe) : sh.pipes.get key = some p → p.data = [] → Traffic x key [] sh
  | call (log : List PipeCall) (c : PipeCall) : Traffic x key log c.before → c.Happens x key →
      Traffic x key (log ++ [c]) c.after
  | other (log : List PipeCall) (sh sh' : Shared) (p p' : Pipe) :
      Traffic x key log sh → sh.pipes.get key = some p →
      sh'.pipes.get key = some p' → p'.data = p.data → Traffic x key log sh'

section
variable {W : Type} {x : Env W} {key : PipeKey} {m m' : Machine} {w w' : W} {fd : ℤ}
  {entry : Fd} {desc : Desc} {p : Pipe}

theorem get_pipeTake (hpipe : m.shared.pipes.get key = some p) (count : ℕ) :
    (Act.exec (.pipeTake key count) m).1 = p.data.take count ∧
    (Act.exec (.pipeTake key count) m).2.shared.pipes.get key =
      some { p with data := p.data.drop count } := by
  constructor
  · simp only [Act.exec, hpipe, Option.map_some, Option.getD_some]
  · simp only [Act.exec, Machine.shared_setShared, Slab.get_modify_self, hpipe, Option.map_some]

theorem get_pipePut (hpipe : m.shared.pipes.get key = some p) (data : Bytes) :
    (Act.exec (.pipePut key data) m).2.shared.pipes.get key = some { p with data := p.data ++ data } := by
  simp only [Act.exec, Machine.shared_setShared, Slab.get_modify_self, hpipe, Option.map_some]

theorem take_fitBuffer {len n : ℕ} {bytes : Bytes} (hn : n ≤ len) :
    (fitBuffer len (bytes.take n)).take (bytes.take n).length =
    bytes.take n := by
  unfold fitBuffer
  have hle : (bytes.take n).length ≤ n := List.length_take_le n bytes
  rw [List.take_of_length_le (hle.trans hn), List.take_left]

/-- What a read of a pipe does. -/
theorem readPipe_cases (hopen : openFd m.view fd = .ok (entry, desc)) (hkind : desc.kind = .pipeRead key)
    (hpipe : m.shared.pipes.get key = some p) {len : ℕ} {r : Except Fault (ℕ × Bytes)}
    (hrun : (readBytes fd len).run (exec x) (m, w) = (r, (m', w'))) :
    (len = 0 ∧ r = .ok (0, []) ∧ m' = m) ∨
    (len ≠ 0 ∧ desc.readable = false ∧ r = .error (.errno .badf) ∧ m' = m) ∨
    (len ≠ 0 ∧ desc.readable = true ∧ p.data = [] ∧ p.writers = 0 ∧
      r = .ok (0, List.replicate len 0) ∧ m' = m) ∨
    (len ≠ 0 ∧ desc.readable = true ∧ p.data = [] ∧ p.writers ≠ 0 ∧
      r = .error (if desc.isNonblocking then .errno .again else .block) ∧ m' = m) ∨
    (len ≠ 0 ∧ desc.readable = true ∧ p.data ≠ [] ∧
      r = .ok ((p.data.take (min p.data.length len)).length,
        fitBuffer len (p.data.take (min p.data.length len))) ∧
      m' = (Act.exec (.pipeTake key (min p.data.length len)) m).2) := by
  by_cases hlen : len = 0
  · subst hlen
    left
    obtain ⟨rfl, rfl, -⟩ : r = .ok (0, []) ∧ m' = m ∧ w' = w := by
      simpa [readBytes, Program.run, eq_comm] using hrun
    exact ⟨rfl, rfl, rfl⟩
  right
  by_cases hreadable : desc.readable = true
  · right
    rw [run_readBytes (s := (m, w)) hopen hreadable hlen] at hrun
    have hview : m.view.pipes.get key = some p := hpipe
    unfold readDesc at hrun
    simp only [hkind, hview] at hrun
    by_cases hdata : p.data = []
    · rw [if_pos hdata] at hrun
      by_cases hwriters : p.writers = 0
      · rw [if_pos hwriters] at hrun
        simp only [Program.run, Prod.mk.injEq] at hrun
        exact .inl ⟨hlen, hreadable, hdata, hwriters, hrun.1.symm, hrun.2.1.symm⟩
      · rw [if_neg hwriters] at hrun
        right
        left
        refine ⟨hlen, hreadable, hdata, hwriters, ?_⟩
        cases hnon : desc.isNonblocking with
        | true =>
          simp only [hnon, if_true, fail, Program.run, Prod.mk.injEq] at hrun
          exact ⟨hrun.1.symm, hrun.2.1.symm⟩
        | false =>
          simp only [hnon, Bool.false_eq_true, if_false, Program.run, Prod.mk.injEq] at hrun
          exact ⟨hrun.1.symm, hrun.2.1.symm⟩
    · rw [if_neg hdata] at hrun
      obtain ⟨htaken, -⟩ := get_pipeTake hpipe (min p.data.length len)
      have hends : r = .ok ((Act.exec (.pipeTake key (min p.data.length len)) m).1.length,
          fitBuffer len (Act.exec (.pipeTake key (min p.data.length len)) m).1) ∧
          m' = (Act.exec (.pipeTake key (min p.data.length len)) m).2 := by
        have hparts := Prod.mk.inj hrun
        exact ⟨hparts.1.symm, (congrArg Prod.fst hparts.2).symm⟩
      rw [htaken] at hends
      exact .inr (.inr ⟨hlen, hreadable, hdata, hends⟩)
  · left
    rw [Bool.not_eq_true] at hreadable
    refine ⟨hlen, hreadable, ?_⟩
    rw [readBytes_eq, if_neg hlen] at hrun
    change (lift (openFd m.view fd) >>= _ : Handler (ℕ × Bytes)).run (exec x) (m, w) = _ at hrun
    rw [hopen, lift_ok, Program.ret_bind] at hrun
    simp only [hreadable, Bool.not_false, if_true] at hrun
    have hparts := Prod.mk.inj hrun
    exact ⟨hparts.1.symm, (congrArg Prod.fst hparts.2).symm⟩

/-- What a write to a pipe does. -/
theorem writePipe_cases (hopen : openFd m.view fd = .ok (entry, desc)) (hkind : desc.kind = .pipeWrite key)
    (hpipe : m.shared.pipes.get key = some p) {data : Bytes} {r : Except Fault ℕ}
    (hrun : (writeBytes fd data).run (exec x) (m, w) = (r, (m', w'))) :
    (desc.writable = false ∧ r = .error (.errno .badf) ∧ m' = m) ∨
    (desc.writable = true ∧ p.readers = 0 ∧ r = .error (.errno .pipe) ∧
      m' = (Act.exec (.raise sigpipe) m).2) ∨
    (desc.writable = true ∧ p.readers ≠ 0 ∧ p.room = 0 ∧
      r = .error (if desc.isNonblocking then .errno .again else .block) ∧ m' = m) ∨
    (desc.writable = true ∧ p.readers ≠ 0 ∧ p.room ≠ 0 ∧ r = .ok (min p.room data.length) ∧
      m' = (Act.exec (.pipePut key (data.take (min p.room data.length))) m).2) := by
  by_cases hwritable : desc.writable = true
  · right
    have hview : m.view.pipes.get key = some p := hpipe
    rw [run_writeBytes (s := (m, w)) hopen hwritable hkind hview data] at hrun
    by_cases hreaders : p.readers = 0
    · rw [if_pos hreaders] at hrun
      have hparts := Prod.mk.inj hrun
      exact .inl ⟨hwritable, hreaders, hparts.1.symm, (congrArg Prod.fst hparts.2).symm⟩
    rw [if_neg hreaders] at hrun
    by_cases hroom : p.room = 0
    · rw [if_pos hroom] at hrun
      right
      left
      refine ⟨hwritable, hreaders, hroom, ?_⟩
      cases hnon : desc.isNonblocking with
      | true =>
        simp only [hnon, if_true, fail, Program.run, Prod.mk.injEq] at hrun
        exact ⟨hrun.1.symm, hrun.2.1.symm⟩
      | false =>
        simp only [hnon, Bool.false_eq_true, if_false, Program.run, Prod.mk.injEq] at hrun
        exact ⟨hrun.1.symm, hrun.2.1.symm⟩
    · rw [if_neg hroom] at hrun
      have hparts := Prod.mk.inj hrun
      exact .inr (.inr ⟨hwritable, hreaders, hroom, hparts.1.symm, (congrArg Prod.fst hparts.2).symm⟩)
  · left
    rw [Bool.not_eq_true] at hwritable
    refine ⟨hwritable, ?_⟩
    unfold writeBytes at hrun
    change (lift (openFd m.view fd) >>= _ : Handler ℕ).run (exec x) (m, w) = _ at hrun
    rw [hopen, lift_ok, Program.ret_bind] at hrun
    simp only [hwritable, Bool.not_false, if_true] at hrun
    have hparts := Prod.mk.inj hrun
    exact ⟨hparts.1.symm, (congrArg Prod.fst hparts.2).symm⟩

/-- A call takes what it answers from the front of a pipe, or puts what it accepts at the end. -/
theorem PipeCall.Happens.moves {c : PipeCall} (h : c.Happens x key) (hpipe : c.before.pipes.get key = some p)
    (hcap : p.data.length ≤ pipeCapacity) : ∃ data, c.after.pipes.get key = some { p with data := data } ∧
      c.got ++ data = p.data ++ c.put ∧ data.length ≤ pipeCapacity := by
  cases c with
  | read m desc len r m' =>
    obtain ⟨fd, entry, w, w', hopen, hkind, hrun⟩ := h
    have hstays : PipeCall.got (.read m desc len r m') = [] → m' = m → ∃ data,
        m'.shared.pipes.get key = some { p with data := data } ∧
        PipeCall.got (.read m desc len r m') ++ data = p.data ++ [] ∧ data.length ≤ pipeCapacity := by
      rintro hgot rfl
      exact ⟨p.data, hpipe, by rw [hgot, List.nil_append, List.append_nil], hcap⟩
    rcases readPipe_cases hopen hkind hpipe hrun with ⟨-, rfl, hm⟩ | ⟨-, -, rfl, hm⟩ | ⟨-, -, -, -, rfl, hm⟩ |
      ⟨-, -, -, -, rfl, hm⟩ | ⟨-, -, -, rfl, rfl⟩
    · exact hstays rfl hm
    · exact hstays rfl hm
    · exact hstays rfl hm
    · exact hstays rfl hm
    · obtain ⟨-, hget⟩ := get_pipeTake hpipe (min p.data.length len)
      refine ⟨_, hget, ?_, ?_⟩
      · change (fitBuffer len _).take _ ++ _ = p.data ++ []
        rw [take_fitBuffer (Nat.min_le_right _ _), List.append_nil, List.take_append_drop]
      · rw [List.length_drop]
        omega
  | write m desc data r m' =>
    obtain ⟨fd, entry, w, w', hopen, hkind, hrun⟩ := h
    have hstays : PipeCall.put (.write m desc data r m') = [] → m'.shared.pipes = m.shared.pipes → ∃ left,
        m'.shared.pipes.get key = some { p with data := left } ∧
        [] ++ left = p.data ++ PipeCall.put (.write m desc data r m') ∧ left.length ≤ pipeCapacity := by
      intro hput hm
      rw [hm]
      exact ⟨p.data, hpipe, by rw [hput, List.nil_append, List.append_nil], hcap⟩
    rcases writePipe_cases hopen hkind hpipe hrun with
      ⟨-, rfl, rfl⟩ | ⟨-, -, rfl, rfl⟩ | ⟨-, -, -, rfl, rfl⟩ |
      ⟨-, -, -, rfl, rfl⟩
    · exact hstays rfl rfl
    · exact hstays rfl rfl
    · exact hstays rfl rfl
    · refine ⟨_, get_pipePut hpipe _, rfl, ?_⟩
      rw [List.length_append, List.length_take, Pipe.room]
      omega

/-- A pipe hands over what was put into it, once and in order, and holds no more than it can. -/
theorem Traffic.fifo {log : List PipeCall} {sh : Shared} (h : Traffic x key log sh) :
    ∃ p, sh.pipes.get key = some p ∧
    log.flatMap PipeCall.got ++ p.data = log.flatMap PipeCall.put ∧ p.data.length ≤ pipeCapacity := by
  induction h with
  | made sh p hpipe hempty =>
    refine ⟨p, hpipe, ?_, ?_⟩
    · rw [hempty]
      rfl
    · rw [hempty]
      exact Nat.zero_le _
  | call log c _ hc ih =>
    obtain ⟨p, hpipe, hstream, hcap⟩ := ih
    obtain ⟨data, hafter, hmoves, hcap'⟩ := hc.moves hpipe hcap
    refine ⟨_, hafter, ?_, hcap'⟩
    calc (log ++ [c]).flatMap PipeCall.got ++ data
        = log.flatMap PipeCall.got ++ (c.got ++ data) := by simp
      _ = (log.flatMap PipeCall.got ++ p.data) ++ c.put := by rw [hmoves, List.append_assoc]
      _ = (log ++ [c]).flatMap PipeCall.put := by rw [hstream]; simp
  | other log sh sh' p p' _ hpipe hafter hsame ih =>
    obtain ⟨q, hq, hstream, hcap⟩ := ih
    obtain rfl := Option.some.inj (hpipe.symm.trans hq)
    refine ⟨p', hafter, ?_, ?_⟩
    · rw [hsame]
      exact hstream
    · rw [hsame]
      exact hcap

end

/-! ## Where a history comes from -/

def Unmoved (pipes₀ pipes : Slab Pipe) : Prop :=
  ∀ key p, pipes.get key = some p → p.data = [] ∨ ∃ q, pipes₀.get key = some q ∧ p.data = q.data

theorem unmoved_modify {pipes₀ pipes : Slab Pipe} (h : Unmoved pipes₀ pipes) (key : PipeKey) {f : Pipe → Pipe}
    (hf : ∀ p, (f p).data = p.data) : Unmoved pipes₀ (pipes.modify key f) := by
  intro k p hp
  rw [Slab.get_modify] at hp
  split at hp
  · obtain ⟨q, hq, rfl⟩ := Option.map_eq_some_iff.mp hp
    rw [hf]
    exact h k q hq
  · exact h k p hp

theorem unmoved_collect {pipes₀ : Slab Pipe} {sh : Shared} (h : Unmoved pipes₀ sh.pipes) (key : PipeKey) :
    Unmoved pipes₀ (sh.collectPipe key).pipes := by
  intro k p hp
  rw [Shared.get_collectPipe] at hp
  split at hp
  · cases hp
  · exact h k p hp

theorem unmoved_dropDesc {pipes₀ : Slab Pipe} (sh : Shared) (h : Unmoved pipes₀ sh.pipes) (d : Desc) :
    Unmoved pipes₀ (sh.dropDesc d).2.pipes := by
  unfold Shared.dropDesc
  split
  · exact h
  · apply unmoved_collect
    exact unmoved_modify h _ fun _ => rfl
  · apply unmoved_collect
    exact unmoved_modify h _ fun _ => rfl
  · exact h

theorem sturdy_unmoved (pipes₀ : Slab Pipe) : Sturdy fun _ pipes => Unmoved pipes₀ pipes where
  recount _ _ h := h
  moved _ _ h := h
  dropped {sh key d} h _ := unmoved_dropDesc { sh with descs := (sh.descs.remove key).2 } h d
  piped {descs pipes pipes' cap pipe} h hpipe := by
    have hmade : Unmoved pipes₀ pipes' := by
      obtain ⟨-, hnew, hold⟩ := Slab.insert_spec hpipe
      intro k p hp
      by_cases hk : k = pipe
      · subst hk
        obtain rfl := Option.some.inj (hnew.symm.trans hp)
        exact .inl rfl
      · exact h k p ((hold k hk).symm.trans hp)
    exact ⟨hmade, fun _ => ⟨hmade, fun _ => hmade⟩⟩

def Shared.Accounted {W : Type} (x : Env W) (sh : Shared) : Prop :=
  ∀ key p, sh.pipes.get key = some p → ∃ log, Traffic x key log sh

theorem Shared.Accounted.unmoved {W : Type} {x : Env W} {sh sh' : Shared} (h : sh.Accounted x)
    (hsame : Unmoved sh.pipes sh'.pipes) : sh'.Accounted x := by
  intro key p hp
  rcases hsame key p hp with hempty | ⟨q, hq, hdata⟩
  · exact ⟨[], .made sh' p hp hempty⟩
  · obtain ⟨log, hlog⟩ := h key q hq
    exact ⟨log, .other log sh sh' q p hlog hq hp hdata⟩

theorem Shared.Accounted.call {W : Type} {x : Env W} {c : PipeCall} {key : PipeKey} {p : Pipe}
    (h : c.before.Accounted x) (hc : c.Happens x key) (hpipe : c.before.pipes.get key = some p)
    (hothers : ∀ k, k ≠ key → c.after.pipes.get k = c.before.pipes.get k) : c.after.Accounted x := by
  intro k q hq
  by_cases hk : k = key
  · subst hk
    obtain ⟨log, hlog⟩ := h k p hpipe
    exact ⟨log ++ [c], .call log c hlog hc⟩
  · have hsame := (hothers k hk).symm.trans hq
    obtain ⟨log, hlog⟩ := h k q hsame
    exact ⟨log, .other log c.before c.after q q hlog hsame hq rfl⟩

def Op.pipeless : Op → Prop
  | .act (.pipeTake _ _) | .act (.pipePut _ _) => False
  | _ => True

theorem Op.mild.pipeless {o : Op} (h : o.mild) : o.pipeless := by
  cases o with
  | env => trivial
  | act a => cases a <;> trivial

section
variable {α W : Type} {x : Env W}

theorem Op.pipeless.unmoved {o : Op} (h : o.pipeless) (s : Machine × W) :
    Unmoved s.1.shared.pipes (exec x o s).2.1.shared.pipes := by
  have hself : Unmoved s.1.shared.pipes s.1.shared.pipes := fun key p hp => .inr ⟨p, hp, rfl⟩
  cases o with
  | env c => exact hself
  | act a =>
    apply (sturdy_unmoved s.1.shared.pipes).act hself
    · exact fun _ _ _ _ _ _ _ _ _ => hself
    · exact fun _ _ _ => hself
    · rintro key count rfl
      cases h
    · rintro key data rfl
      cases h

/-- The operation is all that the call `c` does to its pipe. -/
def Op.Moves (x : Env W) (key : PipeKey) (c : PipeCall) (o : Op) (s : Machine × W) : Prop :=
  c.Happens x key ∧ c.machine = s.1 ∧ c.machineAfter = (exec x o s).2.1 ∧ match o with
    | .act (.pipeTake pipe count) => pipe = key ∧ c.got = ((Act.pipeTake pipe count).exec s.1).1 ∧ c.put = []
    | .act (.pipePut pipe data) => pipe = key ∧ c.got = [] ∧ c.put = data
    | _ => False

theorem Op.Moves.before {key : PipeKey} {c : PipeCall} {o : Op} {s : Machine × W} (h : o.Moves x key c s) :
    c.before = s.1.shared := by
  obtain ⟨-, hmachine, -⟩ := h
  rw [← hmachine]
  cases c <;> rfl

theorem Op.Moves.after {key : PipeKey} {c : PipeCall} {o : Op} {s : Machine × W} (h : o.Moves x key c s) :
    c.after = (exec x o s).2.1.shared := by
  obtain ⟨-, -, hmachine, -⟩ := h
  rw [← hmachine]
  cases c <;> rfl

theorem Op.Moves.others {key : PipeKey} {c : PipeCall} {o : Op} {s : Machine × W} (h : o.Moves x key c s)
    {k : PipeKey} (hk : k ≠ key) : (exec x o s).2.1.shared.pipes.get k = s.1.shared.pipes.get k := by
  obtain ⟨-, -, -, hop⟩ := h
  cases o with
  | env => cases hop
  | act a =>
    cases a with
    | pipeTake pipe count =>
      obtain ⟨rfl, -⟩ := hop
      exact (Slab.get_modify _ pipe k _).trans (if_neg (Ne.symm hk))
    | pipePut pipe data =>
      obtain ⟨rfl, -⟩ := hop
      exact (Slab.get_modify _ pipe k _).trans (if_neg (Ne.symm hk))
    | _ => cases hop

/-- What moves no bytes keeps `P`, and so do the calls on pipes that are there.
On the way every operation meets `B`. -/
structure Channels (x : Env W) (B : Op → Machine × W → Prop) (P : Shared → Prop) : Prop where
  loop : ∀ (a : KAct) k, P k.shared → P (a.exec k).2.shared
  pipeless : ∀ (o : Op) s, o.pipeless → P s.1.shared → B o s ∧ P (exec x o s).2.1.shared
  moves : ∀ (o : Op) s key c p, P s.1.shared → o.Moves x key c s → s.1.shared.pipes.get key = some p →
    B o s ∧ P (exec x o s).2.1.shared

namespace Channels
variable {B : Op → Machine × W → Prop} {P : Shared → Prop} (h : Channels x B P) {s : Machine × W}

abbrev Keeps (x : Env W) (B : Op → Machine × W → Prop) (P : Shared → Prop) {ε : Type} (p : Program sig ε α)
    (s : Machine × W) : Prop := Keeping x (fun _ _ => True) B P p s

include h

theorem only {ε : Type} {p : Program sig ε α} (hp : p.Only Op.pipeless) (hs : P s.1.shared) :
    Keeps x B P p s := by
  apply Program.meets_only (I := fun t : Machine × W => P t.1.shared) _ hp hs
  intro o t ho ht _
  obtain ⟨hb, hkeeps⟩ := h.pipeless o t ho ht
  exact ⟨⟨ht, hb⟩, hkeeps⟩

theorem mild {ε : Type} {p : Program sig ε α} (hp : p.Only (Op.lawful Op.mild)) (hs : P s.1.shared) :
    Keeps x B P p s :=
  h.only (hp.mono fun _ ho => ho.of.pipeless) hs

theorem look {ε : Type} {f : View → Program sig ε α} (hs : P s.1.shared) (hf : Keeps x B P (f s.1.view) s) :
    Keeps x B P (view >>= f) s := meets_view fun _ => ⟨⟨hs, (h.pipeless (.act .view) s trivial hs).1⟩, hf⟩

theorem readBytes (fd : ℤ) (len : ℕ) (hs : P s.1.shared) : Keeps x B P (readBytes fd len) s := by
  by_cases hlen : len = 0
  · rw [readBytes_eq, if_pos hlen]
    exact hs
  cases hopen : openFd s.1.view fd with
  | error e =>
    rw [readBytes_eq, if_neg hlen]
    apply h.look hs
    rw [hopen]
    exact hs
  | ok r =>
    obtain ⟨entry, desc⟩ := r
    have hcall := fun hreadable => run_readBytes (x := x) hopen hreadable hlen
    rw [readBytes_eq, if_neg hlen]
    apply h.look hs
    rw [hopen, lift_ok, Program.ret_bind]
    refine Program.meets_ite (fun _ => hs) fun hreadable => ?_
    have hcall := hcall (by simpa using hreadable)
    unfold readDesc at hcall ⊢
    cases hkind : desc.kind with
    | pipeRead key =>
      dsimp only
      cases hpipe : s.1.view.pipes.get key with
      | none => exact hs
      | some p =>
        refine Program.meets_ite (fun _ => ?_) fun hdata => ?_
        · exact Program.meets_ite (fun _ => hs) fun _ => Program.meets_ite (fun _ => hs) fun _ => hs
        · simp only [hkind, hpipe, hdata, if_false] at hcall
          have hthere : s.1.shared.pipes.get key = some p := hpipe
          let taken := (Act.pipeTake key (min p.data.length len)).exec s.1
          have hmoves : (Op.act (.pipeTake key (min p.data.length len))).Moves x key
              (.read s.1 desc len (.ok (taken.1.length, fitBuffer len taken.1)) taken.2) s := by
            refine ⟨⟨fd, entry, s.2, _, hopen, hkind, hcall⟩, rfl, rfl, rfl, ?_, rfl⟩
            obtain ⟨htaken, -⟩ := get_pipeTake hthere (min p.data.length len)
            change (fitBuffer len taken.1).take taken.1.length = taken.1
            rw [show taken.1 = _ from htaken]
            exact take_fitBuffer (Nat.min_le_right _ _)
          obtain ⟨hb, hkeeps⟩ := h.moves _ s key _ p hs hmoves hthere
          exact meets_act fun _ => ⟨⟨hs, hb⟩, hkeeps⟩
    | file file mount closed =>
      apply h.mild _ hs
      exact Program.only_bind (mild_of_domestic (domestic_fileAsk _ _ rfl)) fun _ => trivial
    | memory data pos =>
      apply h.only _ hs
      exact ⟨trivial, fun _ => trivial⟩
    | random =>
      apply h.only _ hs
      exact ⟨trivial, fun _ => trivial⟩
    | stdin =>
      refine Program.meets_ite (fun _ => ?_) fun _ => ?_
      · refine Program.meets_ite (fun _ => hs) fun _ => Program.meets_ite (fun _ => hs) fun _ => ?_
        apply h.only _ hs
        exact ⟨trivial, fun _ => trivial⟩
      · apply h.only _ hs
        exact ⟨trivial, fun _ => trivial⟩
    | _ => exact hs

theorem writeBytes (fd : ℤ) (data : Bytes) (hs : P s.1.shared) : Keeps x B P (writeBytes fd data) s := by
  cases hopen : openFd s.1.view fd with
  | error e =>
    apply h.look hs
    rw [hopen]
    exact hs
  | ok r =>
    obtain ⟨entry, desc⟩ := r
    have hcall := fun hwritable (key : PipeKey) (hkind : desc.kind = .pipeWrite key) p hpipe =>
      run_writeBytes (x := x) (p := p) hopen hwritable hkind hpipe data
    apply h.look hs
    rw [hopen, lift_ok, Program.ret_bind]
    refine Program.meets_ite (fun _ => hs) fun hwritable => ?_
    have hcall := hcall (by simpa using hwritable)
    cases hkind : desc.kind with
    | pipeWrite key =>
      dsimp only
      cases hpipe : s.1.view.pipes.get key with
      | none => exact hs
      | some p =>
        have hcall := hcall key hkind p hpipe
        refine Program.meets_ite (fun _ => ?_) fun hreaders => ?_
        · apply h.only _ hs
          exact ⟨trivial, fun _ => trivial⟩
        refine Program.meets_ite (fun _ => Program.meets_ite (fun _ => hs) fun _ => hs) fun hroom => ?_
        simp only [hreaders, hroom, if_false] at hcall
        have hmoves : (Op.act (.pipePut key (data.take (min p.room data.length)))).Moves x key
            (.write s.1 desc data (.ok (min p.room data.length))
              ((Act.pipePut key (data.take (min p.room data.length))).exec s.1).2) s :=
          ⟨⟨fd, entry, s.2, _, hopen, hkind, hcall⟩, rfl, rfl, rfl, rfl, rfl⟩
        obtain ⟨hb, hkeeps⟩ := h.moves _ s key _ p hs hmoves hpipe
        exact meets_act fun _ => ⟨⟨hs, hb⟩, hkeeps⟩
    | file file mount closed =>
      refine Program.meets_ite (fun _ => hs) fun _ => ?_
      apply h.only _ hs
      exact ⟨trivial, fun r => (mild_orVfsFault r).mono fun _ ho => ho.of.pipeless⟩
    | stdout which =>
      apply h.only _ hs
      exact ⟨trivial, fun _ => trivial⟩
    | _ => exact hs

theorem read (fd : ℤ) (start length : ℕ) (hs : P s.1.shared) : Keeps x B P (read fd start length) s := by
  refine Program.meets_ite (fun _ => hs) fun _ => ?_
  apply Program.meets_bind (h.readBytes fd _ hs)
  · rintro ⟨produced, staging⟩ t ht
    apply h.mild _ ht
    exact Program.only_bind (mild_of_domestic (domestic_put _ _)) fun _ => trivial
  · exact fun _ _ ht => ht

theorem write (fd : ℤ) (start length : ℕ) (hs : P s.1.shared) : Keeps x B P (write fd start length) s := by
  apply h.look hs
  cases s.1.view.mem.bytes start length with
  | error e => exact hs
  | ok data =>
    rw [lift_ok, Program.ret_bind]
    exact Program.meets_bind (h.writeBytes fd data hs) (fun _ _ ht => ht) fun _ _ ht => ht

omit h in
theorem admits : Admits ⟨Op.pipeless, fun _ _ => True⟩ fun _ _ => True where
  mild _ ho := ho.pipeless
  other _ _ _ _ := trivial
  device _ _ := trivial
  file _ _ _ i rel := (mild_vfsAsk i (.openFile rel _)).obeys fun _ ho => ho.of.pipeless
  opens _ _ _ _ _ := trivial

theorem openat (a : Args) (hs : P s.1.shared) : Keeps x B P (openat a) s := by
  apply ((admits.openat a).meets (I := fun t : Machine × W => P t.1.shared) _ hs).mono fun _ _ ht => ht.1
  intro o t ht hasks _
  obtain ⟨hb, hkeeps⟩ := h.pipeless o t hasks ht
  exact ⟨⟨ht, hb⟩, hkeeps, trivial⟩

theorem tuning {ε : Type} {p : Program sig ε α} (hp : Tuning x (fun _ _ => True) p s) (hs : P s.1.shared) :
    Keeps x B P p s := by
  apply tuning_keeping hp _ hs
  intro o t ht _ htunes
  have hpipeless : o.pipeless := by
    obtain hmild | ⟨key, flags, rfl, -⟩ := htunes
    · exact hmild.pipeless
    · trivial
  exact h.pipeless o t hpipeless ht

omit h in
theorem pipeless_ftruncate (a : Args) : (ftruncate a).Only Op.pipeless := by
  have hmild : ∀ {β : Type} {p : Handler β}, p.Only (Op.lawful Op.mild) → p.Only Op.pipeless := fun hp =>
    hp.mono fun _ ho => ho.of.pipeless
  refine Program.only_bind (p := view) ⟨trivial, fun _ => trivial⟩ fun v =>
    Program.only_bind (hmild (mild_lift _)) ?_
  rintro ⟨entry, desc⟩
  dsimp only
  split
  · split
    · trivial
    · exact Program.only_bind ⟨trivial, fun r => hmild (mild_orVfsFault r)⟩ fun _ => trivial
  · trivial

theorem handle (number : ℤ) (a : Args) (hs : P s.1.shared) : Keeps x B P (handle number a) s := by
  by_cases hmild : (Nr.ofInt number).mild = true
  · exact h.mild (mild_handle number a hmild) hs
  have hloop : ∀ o s, P s.1.shared → o = Op.act .view → B o s := by
    rintro o s hs rfl
    exact (h.pipeless (.act .view) s trivial hs).1
  unfold Wasmux.handle
  cases hnr : Nr.ofInt number with
  | read => exact h.read _ _ _ hs
  | readv =>
    exact meets_vectorLoop (fun _ ht => ⟨ht, hloop _ _ ht rfl⟩) (fun _ _ _ ht => h.read _ _ _ ht) _ _ _ _ hs
  | write => exact h.write _ _ _ hs
  | writev =>
    exact meets_vectorLoop (fun _ ht => ⟨ht, hloop _ _ ht rfl⟩) (fun _ _ _ ht => h.write _ _ _ ht) _ _ _ _ hs
  | ftruncate => exact h.only (pipeless_ftruncate a) hs
  | openat => exact h.openat a hs
  | fcntl => exact h.tuning (tuning_fcntl a s) hs
  | ioctl => exact h.tuning (tuning_ioctl a s) hs
  | _ => exact absurd (by rw [hnr]; rfl) hmild

theorem upholds : Upholds x (fun _ _ => True) B P where
  loop := h.loop
  minor o s ho hs := by
    have hpipeless : o.pipeless := by
      cases o with
      | env => trivial
      | act a => cases a <;> trivial
    exact h.pipeless o s hpipeless hs
  reads fd len _ hs := h.readBytes fd len hs
  writes fd data _ hs := h.writeBytes fd data hs
  handles number args _ hs := h.handle number args hs

end Channels

def Op.Accounts (x : Env W) (o : Op) (s : Machine × W) : Prop := (exec x o s).2.1.shared.Accounted x

theorem channels_accounted (x : Env W) : Channels x (Op.Accounts x) (Shared.Accounted x) where
  loop a k hk := hk.unmoved ((sturdy_unmoved k.shared.pipes).kact (fun _ p hp => .inr ⟨p, hp, rfl⟩) a)
  pipeless o s ho hs := by
    have haccounts : o.Accounts x s := hs.unmoved (ho.unmoved s)
    exact ⟨haccounts, haccounts⟩
  moves o s key c p hs hmoves hpipe := by
    have hothers := fun k (hk : k ≠ key) => hmoves.others hk
    have hbefore := hmoves.before
    have hafter := hmoves.after
    obtain ⟨hc, -⟩ := hmoves
    rw [← hafter, ← hbefore] at hothers
    rw [← hbefore] at hs hpipe
    have haccounts : o.Accounts x s := by
      have hcalled := hs.call hc hpipe hothers
      rwa [hafter] at hcalled
    exact ⟨haccounts, haccounts⟩

theorem upholds_accounted (x : Env W) : Upholds x (fun _ _ => True) (Op.Accounts x) (Shared.Accounted x) :=
  (channels_accounted x).upholds

theorem reached_accounted {k : Kernel} {w : W} (h : Reached x (fun _ _ => True) k w) :
    k.shared.Accounted x := by
  refine (upholds_accounted x).reached (fun _ _ _ ho => ho) ?_ ?_ h
  · refine ⟨?_, fun _ _ _ hk => hk.unmoved ?_, fun _ _ _ hk => hk.unmoved ?_⟩
    · intro c started k hk key p hp
      obtain ⟨fds, slab, rfl⟩ := c.kernel_eq hk
      cases hp
    · exact fun _ p hp => .inr ⟨p, hp, rfl⟩
    · exact fun _ p hp => .inr ⟨p, hp, rfl⟩
  · rintro (⟨i, o⟩ | c | a) s -
    · exact fun _ _ => trivial
    · trivial
    · trivial

end
end Wasmux
