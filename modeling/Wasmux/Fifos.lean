import Wasmux.Counting.Flow
import Wasmux.Traffic

/-!
# Pipes are queues

What went through a pipe is noted from its making on, whoever reads and writes
it and through whatever descriptors. A step that moves no bytes leaves the
contents of every pipe alone, and the two that do take from its front and put
at its end. So what was read and what is still there is what was written.
-/

set_option autoImplicit false

namespace Wasmux
open Effects Abi Sys Counting

/-- A pipe that is there has what it had, and a new one has nothing. -/
def Unfilled (before pipes : Slab Pipe) : Prop :=
  ∀ key p, pipes.get key = some p → p.data = ((before.get key).map Pipe.data).getD []

section
variable {before pipes : Slab Pipe}

theorem unfilled_self (pipes : Slab Pipe) : Unfilled pipes pipes := by
  intro key p hp
  rw [hp]
  rfl

theorem Unfilled.recount (h : Unfilled before pipes) (key : PipeKey) {f : Pipe → Pipe}
    (hf : ∀ p, (f p).data = p.data) : Unfilled before (pipes.modify key f) := by
  intro k p hp
  rw [Slab.get_modify] at hp
  by_cases hk : key = k
  · rw [if_pos hk] at hp
    obtain ⟨q, hq, rfl⟩ := Option.map_eq_some_iff.mp hp
    rw [hf]
    exact h k q hq
  · rw [if_neg hk] at hp
    exact h k p hp

theorem Unfilled.collect {sh : Shared} (h : Unfilled before sh.pipes) (key : PipeKey) :
    Unfilled before (sh.collectPipe key).pipes := by
  intro k p hp
  rw [Shared.get_collectPipe] at hp
  by_cases hgone : key = k ∧ (sh.pipes.get key).any fun p => p.readers == 0 && p.writers == 0
  · rw [if_pos hgone] at hp
    cases hp
  · rw [if_neg hgone] at hp
    exact h k p hp

theorem hardy_unfilled (before : Slab Pipe) : Hardy fun _ pipes => Unfilled before pipes where
  recount _ _ h := h
  moved _ _ h := h
  dropped {sh key d} h _ := by
    show Unfilled before (Shared.dropDesc _ d).2.pipes
    unfold Shared.dropDesc
    split
    · exact h
    · apply Unfilled.collect
      exact h.recount _ fun _ => rfl
    · apply Unfilled.collect
      exact h.recount _ fun _ => rfl
    · exact h

theorem unfilled_insert {cap : ℕ} {key : PipeKey} (h : before.insert Pipe.new cap = some (key, pipes)) :
    Unfilled before pipes := by
  obtain ⟨hfree, hnew, hold⟩ := Slab.insert_spec h
  intro k p hp
  by_cases hk : k = key
  · subst hk
    obtain rfl := Option.some.inj (hnew.symm.trans hp)
    rw [hfree]
    rfl
  · exact unfilled_self before k p ((hold k hk).symm.trans hp)

theorem unfilled_pipe2 (m : Machine) (flags : ℕ) : (m.pipe2 flags).2.shared.Has fun _ =>
    Unfilled m.shared.pipes := by
  unfold Machine.pipe2
  dsimp only
  split
  · exact unfilled_self _
  rename_i key pipes hmade
  have h : Unfilled m.shared.pipes pipes := unfilled_insert hmade
  split
  · exact h
  split
  · exact h
  rename_i descs' _
  split
  · exact h
  split
  · exact h
  split
  · exact h
  · have hmade' : ({ m.shared with descs := descs', pipes := pipes } : Shared).Has fun _ =>
      Unfilled m.shared.pipes := h
    exact (hardy_unfilled _).releaseDesc hmade' _

end

section
variable {W : Type} {x : Env W}

theorem Op.pipeless.unfilled {o : Op} (h : o.pipeless) (s : Machine × W) :
    Unfilled s.1.shared.pipes (exec x o s).2.1.shared.pipes := by
  have hself := unfilled_self s.1.shared.pipes
  cases o with
  | env c => exact hself
  | act a =>
    apply (hardy_unfilled s.1.shared.pipes).act hself
    · exact fun _ _ _ _ _ _ _ _ _ => hself
    · exact fun _ _ _ => hself
    · exact fun flags _ => unfilled_pipe2 s.1 flags
    · intro key count ha
      subst ha
      cases h
    · intro key data ha
      subst ha
      cases h

/-! ## The calls that move bytes -/

/-- An operation that moves bytes is all that a call on a pipe does to it. -/
def Op.Called (x : Env W) (o : Op) (s : Machine × W) : Prop := o.pipeless ∨
  ∃ key c p, o.Moves x key c s ∧ s.1.shared.pipes.get key = some p

theorem channels_called (x : Env W) : Channels x (Op.Called x) fun _ => True where
  loop _ _ _ := trivial
  pipeless _ _ ho _ := ⟨.inl ho, trivial⟩
  moves _ _ key c p _ hmoves hp := ⟨.inr ⟨key, c, p, hmoves, hp⟩, trivial⟩

theorem kept_called (x : Env W) : Kept x (fun _ _ => True) (KOp.Within (Op.Called x)) fun _ => True := by
  apply (channels_called x).upholds.kept.weaken
  · intro o s _
    cases o with
    | machine i o => exact fun _ _ => trivial
    | env => trivial
    | act => trivial
  · intro o s ho
    cases o with
    | machine i o => exact ho.2
    | env => trivial
    | act => trivial

def Op.flow (key : PipeKey) : (o : Op) → o.Ans → Flow UInt8 → Flow UInt8
  | .act (.pipeTake pipe _), taken, f => if pipe = key then f.take taken else f
  | .act (.pipePut pipe data), _, f => if pipe = key then f.give data else f
  | _, _, f => f

theorem Op.flow_pipeless {o : Op} (h : o.pipeless) (key : PipeKey) (a : o.Ans) (f : Flow UInt8) :
    o.flow key a f = f := by
  cases o with
  | env => rfl
  | act act =>
    cases act with
    | pipeTake => cases h
    | pipePut => cases h
    | _ => rfl

theorem Op.Moves.flow {key : PipeKey} {c : PipeCall} {o : Op} {s : Machine × W} (h : o.Moves x key c s)
    (f : Flow UInt8) :
    o.flow key (exec x o s).1 f = (f.take c.got).give c.put := by
  obtain ⟨-, -, -, hop⟩ := h
  cases o with
  | env => cases hop
  | act a =>
    cases a with
    | pipeTake pipe count =>
      obtain ⟨rfl, hgot, hput⟩ := hop
      rw [hgot, hput, Flow.give_nil]
      exact if_pos rfl
    | pipePut pipe data =>
      obtain ⟨rfl, hgot, hput⟩ := hop
      rw [hgot, hput, Flow.take_nil]
      exact if_pos rfl
    | _ => cases hop

theorem Op.Moves.flow_other {key pipe : PipeKey} {c : PipeCall} {o : Op} {s : Machine × W}
    (h : o.Moves x pipe c s) (hkey : key ≠ pipe) (a : o.Ans) (f : Flow UInt8) : o.flow key a f = f := by
  obtain ⟨-, -, -, hop⟩ := h
  cases o with
  | env => cases hop
  | act act =>
    cases act with
    | pipeTake other count =>
      obtain ⟨rfl, -⟩ := hop
      exact if_neg (Ne.symm hkey)
    | pipePut other data =>
      obtain ⟨rfl, -⟩ := hop
      exact if_neg (Ne.symm hkey)
    | _ => cases hop

/-- What went through each pipe since it was made. -/
def flows : History (PipeKey → Flow UInt8) where
  start _ := .empty
  next t o k a key :=
    let f := if (k.shared.pipes.get key).isSome then t key else .empty
    match o, a with
    | .machine i o, a => if (k.procs[i]?).isSome then o.flow key a f else f
    | .env _, _ => f
    | .act _, _ => f

/-- What went through a pipe accounts for what it has, which is no more than it can hold. -/
def Pipe.Accounts (p : Pipe) (f : Flow UInt8) : Prop := f.Holds p.data ∧ p.data.length ≤ pipeCapacity

def Kernel.Flowing (k : Kernel) (t : PipeKey → Flow UInt8) : Prop :=
  ∀ key p, k.shared.pipes.get key = some p → p.Accounts (t key)

section
variable {k : Kernel} {t : PipeKey → Flow UInt8}

theorem Kernel.Flowing.unfilled (h : k.Flowing t) {pipes : Slab Pipe} (hsame : Unfilled k.shared.pipes pipes)
    {key : PipeKey} {p : Pipe} (hp : pipes.get key = some p) :
    p.Accounts (if (k.shared.pipes.get key).isSome then t key else .empty) := by
  unfold Pipe.Accounts
  rw [hsame key p hp]
  cases hold : k.shared.pipes.get key with
  | none => exact ⟨Flow.holds_empty, Nat.zero_le _⟩
  | some q => exact h key q hold

/-- One that takes from the front of a pipe what a call reads, or puts at its end what one writes. -/
theorem Kernel.Flowing.moved (h : k.Flowing t) {s : Machine × W} {o : Op} (hs : s.1.shared = k.shared)
    {pipe : PipeKey} {c : PipeCall} {q : Pipe} (hmoves : o.Moves x pipe c s)
    (hq : s.1.shared.pipes.get pipe = some q) {key : PipeKey} {p : Pipe}
    (hp : (exec x o s).2.1.shared.pipes.get key = some p) :
    p.Accounts (o.flow key (exec x o s).1 (if (k.shared.pipes.get key).isSome then t key else .empty)) := by
  by_cases hkey : key = pipe
  · subst hkey
    rw [hmoves.flow]
    have hbefore := hmoves.before
    have hafter := hmoves.after
    obtain ⟨hc, -⟩ := hmoves
    have hk : k.shared.pipes.get key = some q := hs ▸ hq
    obtain ⟨hholds, hcap⟩ := h key q hk
    rw [← hbefore] at hq
    obtain ⟨data, hdata, hqueue, hcap'⟩ := hc.moves hq hcap
    rw [← hafter, hdata] at hp
    obtain rfl := Option.some.inj hp
    rw [hk]
    exact ⟨hholds.exchange hqueue, hcap'⟩
  · rw [hmoves.flow_other hkey]
    rw [hmoves.others hkey, hs] at hp
    exact h.unfilled (unfilled_self _) hp

end

theorem chronicled_flows (x : Env W) : Chronicled x flows (KOp.Within (Op.Called x)) Kernel.Flowing where
  lasting _ := ⟨fun _ _ _ h => h, fun _ _ _ h => h⟩
  init c started k hk key p hp := by
    obtain ⟨fds, slab, rfl⟩ := c.kernel_eq hk
    cases hp
  next o s t hs ha := by
    obtain ⟨k, w⟩ := s
    intro key p hp
    cases o with
    | env c => exact hs.unfilled (unfilled_self _) hp
    | act a => exact hs.unfilled ((hardy_unfilled k.shared.pipes).kact (unfilled_self _) a) hp
    | machine i o =>
      cases hproc : k.procs[i]? with
      | none =>
        rw [kexec_machine_none x hproc] at hp
        simp only [flows, hproc, Option.isSome_none, Bool.false_eq_true, if_false]
        exact hs.unfilled (unfilled_self _) hp
      | some proc =>
        rw [kexec_machine x hproc] at hp ⊢
        simp only [flows, hproc, Option.isSome_some, if_true]
        have hpipes : (exec x o (k.machineOf proc, w)).2.1.shared.pipes.get key = some p := hp
        rcases ha proc hproc with hnone | ⟨pipe, c, q, hmoves, hq⟩
        · rw [Op.flow_pipeless hnone]
          exact hs.unfilled (hnone.unfilled (k.machineOf proc, w)) hpipes
        · exact hs.moved (s := (k.machineOf proc, w)) rfl hmoves hq hpipes

/-- Whoever reads and writes a pipe, through whatever descriptors and in whatever
order: what was read since it was made, and then what is still there, is what
was written, and no more is there than it can hold. What moves bytes is always
a call on an end of the pipe, which reports just what it moved. -/
theorem pipes_are_queues {o : KOp} {k : Kernel} {w : W} {t : PipeKey → Flow UInt8}
    (h : Performed x flows (fun _ _ => True) o k w t) :
    (∀ key p, k.shared.pipes.get key = some p →
      (t key).taken ++ p.data = (t key).given ∧ p.data.length ≤ pipeCapacity) ∧
    ∀ i p key, k.procs[i]? = some p →
      (∀ count, o = .machine i (.act (.pipeTake key count)) → ∃ c : PipeCall, c.Happens x key ∧
        c.machine = k.machineOf p ∧ c.machineAfter = ((Act.pipeTake key count).exec (k.machineOf p)).2 ∧
        c.got = ((Act.pipeTake key count).exec (k.machineOf p)).1 ∧ c.put = []) ∧
      ∀ data, o = .machine i (.act (.pipePut key data)) → ∃ c : PipeCall, c.Happens x key ∧
        c.machine = k.machineOf p ∧ c.machineAfter = ((Act.pipePut key data).exec (k.machineOf p)).2 ∧
        c.got = [] ∧ c.put = data := by
  obtain ⟨hflowing, hcalled⟩ := h.holds (chronicled_flows x) (kept_called x)
    ⟨fun _ _ _ _ => trivial, fun _ _ _ _ => trivial, fun _ _ _ _ => trivial⟩
  refine ⟨fun key p hp => hflowing key p hp, fun i p key hproc => ⟨?_, ?_⟩⟩
  · intro count ho
    subst ho
    rcases hcalled p hproc with hnone | ⟨pipe, c, q, ⟨hc, hmachine, hafter, hpipe, hgot, hput⟩, -⟩
    · cases hnone
    · subst hpipe
      exact ⟨c, hc, hmachine, hafter, hgot, hput⟩
  · intro data ho
    subst ho
    rcases hcalled p hproc with hnone | ⟨pipe, c, q, ⟨hc, hmachine, hafter, hpipe, hgot, hput⟩, -⟩
    · cases hnone
    · subst hpipe
      exact ⟨c, hc, hmachine, hafter, hgot, hput⟩

end

/-- A guest that makes a pipe, writes three bytes to it and reads one. -/
abbrev Env.usesPipe : Env (List GuestRun) :=
  Env.scripted (.startingWith (argWords [100, 0, 0, 0, 0, 0, 4, 0, 3, 0, 0, 0, 3, 120, 1, 0, 0, 0]))

theorem pipes_are_queues_once :
    ∃ (o : KOp) (k : Kernel) (w : List GuestRun) (t : PipeKey → Flow UInt8) (p : Pipe),
    Performed Env.usesPipe flows (fun _ _ => True) o k w t ∧ k.shared.pipes.get 0 = some p ∧
    (t 0).taken = [100] ∧ p.data = [0, 0] ∧ (t 0).taken ++ p.data = (t 0).given := by
  have hstart : Recorded Env.usesPipe flows (fun _ _ => True) ⟨_, none⟩ _ _ :=
    .start .oneMount 0 _ _ [⟨[.syscall 59 0, .syscall 64 24, .syscall 63 48, .setjmp 0], none⟩] _ _ rfl
      (Program.along_of_forall _ (fun _ _ => trivial) _ _) rfl
  have hstep := Recorded.step _ _ _ _ _ _ 2 ⟨some 0, none⟩ .budget hstart
    (Program.along_of_forall _ (fun _ _ => trivial) _ _) rfl
  have hnext := Performed.running _ _ _ 2 ⟨some 0, none⟩ _ hstep
    (Program.along_of_forall _ (fun _ _ => trivial) _ _) (List.mem_of_getElem? (i := 0) rfl)
  exact ⟨_, _, _, _, _, hnext,
    rfl, by decide +kernel, by decide +kernel, ((pipes_are_queues hnext).1 0 _ rfl).1⟩

/-! ## How a pipe ends -/

/-- There is no description of this kind. -/
def Slab.Lacks (descs : Slab Desc) (kind : DescKind) : Prop := ∀ key d, descs.get key = some d → d.kind ≠ kind

theorem lacks_iff {descs : Slab Desc} {kind : DescKind} : descs.Lacks kind ↔ descs.ofKind kind = 0 := by
  constructor
  · intro hlacks
    by_contra hsome
    obtain ⟨key, d, hd, hkind⟩ := Slab.countP_pos.mp (Nat.pos_of_ne_zero hsome)
    exact hlacks key d hd (of_decide_eq_true hkind)
  · intro hnone key d hd hkind
    have hpos := ofKind_pos hd
    rw [hkind, hnone] at hpos
    exact absurd hpos (Nat.lt_irrefl 0)

section
variable {W : Type} {x : Env W} {k : Kernel} {w : W} {p : Proc} {fd : ℤ} {entry : Fd} {desc : Desc}
    {key : PipeKey}

/-- What a read of at least one byte finds in a pipe: bytes, of which it takes as
many as it may, or nothing. It is the end only when nobody can write any more. -/
theorem read_ends (h : Reached x (fun _ _ => True) k w)
    (hopen : openFd (k.machineOf p).view fd = .ok (entry, desc)) (hkind : desc.kind = .pipeRead key)
    {len : ℕ} (hlen : len ≠ 0) {r : Except Fault (ℕ × Bytes)} {s : Machine × W}
    (hrun : (readBytes fd len).run (exec x) (k.machineOf p, w) = (r, s)) :
    ∃ q, k.shared.pipes.get key = some q ∧
      (q.data ≠ [] ∧ (∃ n buf, r = .ok (n, buf) ∧ n = min q.data.length len ∧ buf.take n = q.data.take n ∧
          s.1.shared.pipes.get key = some { q with data := q.data.drop n }) ∨
        q.data = [] ∧ r = .ok (0, List.replicate len 0) ∧ k.shared.descs.Lacks (.pipeWrite key) ∨
        q.data = [] ∧ r = .error (if desc.isNonblocking then .errno .again else .block)) := by
  have hfitted := reached_fitted h
  have hat : k.shared.descs.get entry.desc = some desc := openFd_desc hopen
  have hreadable : desc.readable = true := by
    have hsuits := hfitted.suits entry.desc desc hat
    rwa [Desc.Suits, hkind] at hsuits
  obtain ⟨q, hq⟩ := hfitted.plumbed.there hat (by rw [hkind]; rfl : desc.kind.pipe = some key)
  refine ⟨q, hq, ?_⟩
  have hpipe : (k.machineOf p).shared.pipes.get key = some q := hq
  rcases readPipe_cases hopen hkind hpipe hrun with
    ⟨hzero, -⟩ | ⟨-, hnot, -⟩ | ⟨-, -, hempty, hwriters, hr, -⟩ |
    ⟨-, -, hempty, -, hr, -⟩ | ⟨-, -, hdata, hr, hs⟩
  · exact absurd hzero hlen
  · rw [hreadable] at hnot
    cases hnot
  · right
    left
    refine ⟨hempty, hr, lacks_iff.mpr ?_⟩
    have hcounts := hfitted.plumbed key
    rw [hq] at hcounts
    obtain ⟨-, hle, -⟩ := hcounts
    omega
  · exact .inr (.inr ⟨hempty, hr⟩)
  · left
    have hlength : (q.data.take (min q.data.length len)).length = min q.data.length len := by simp
    refine ⟨hdata, _, _, hr, hlength, ?_, ?_⟩
    · rw [take_fitBuffer (Nat.min_le_right _ _), hlength]
    · rw [hs, (get_pipeTake hpipe _).2, hlength]

end

/-- The write end is closed. -/
theorem read_ends_closed : ∃ (k : Kernel) (w : List GuestRun) (p : Proc),
    Reached Env.usesPipe (fun _ _ => True) k w ∧ k.procs[0]? = some p ∧
    ((readBytes 3 5).run (exec Env.usesPipe) (k.machineOf p, w)).1 = .ok (0, List.replicate 5 0) ∧
    k.shared.descs.Lacks (.pipeWrite 0) := by
  obtain ⟨k, w, p, entry, desc, s, hreached, hp, hopen, hkind, hrun⟩ :
    ∃ (k : Kernel) (w : List GuestRun) (p : Proc) (entry : Fd) (desc : Desc) (s : Machine × List GuestRun),
      Reached Env.usesPipe (fun _ _ => True) k w ∧
      k.procs[0]? = some p ∧ openFd (k.machineOf p).view 3 = .ok (entry, desc) ∧ desc.kind = .pipeRead 0 ∧
      (readBytes 3 5).run (exec Env.usesPipe) (k.machineOf p, w) = (.ok (0, List.replicate 5 0), s) := by
    have hdrive : Config.oneMount.drive Env.usesPipe [⟨[.syscall 59 0, .syscall 57 24, .setjmp 0], none⟩] 2
      [⟨some 0, none⟩] = some (_, _) := rfl
    exact ⟨_, _, _, _, _, _, .between _ _ (between_drive hdrive), rfl, rfl, rfl, rfl⟩
  refine ⟨k, w, p, hreached, hp, congrArg Prod.fst hrun, ?_⟩
  obtain ⟨q, -, ⟨hdata, n, buf, hr, hn, -⟩ | ⟨-, -, hlacks⟩ | ⟨-, hr⟩⟩ :=
    read_ends hreached hopen hkind (by decide) hrun
  · obtain ⟨rfl, rfl⟩ := Prod.mk.inj (Except.ok.inj hr)
    have hnone : q.data.length = 0 := by omega
    exact absurd (List.length_eq_zero_iff.mp hnone) hdata
  · exact hlacks
  · cases hr

section
variable {W : Type} {x : Env W} {k : Kernel} {w : W} {p : Proc} {fd : ℤ} {entry : Fd} {desc : Desc}
    {key : PipeKey}

/-- A write finds the pipe broken just when nobody can read it, and then the writer is told by a signal
too. -/
theorem write_breaks (h : Reached x (fun _ _ => True) k w)
    (hopen : openFd (k.machineOf p).view fd = .ok (entry, desc)) (hkind : desc.kind = .pipeWrite key)
    {data : Bytes} {r : Except Fault ℕ} {s : Machine × W}
    (hrun : (writeBytes fd data).run (exec x) (k.machineOf p, w) = (r, s)) :
    (r = .error (.errno .pipe) ↔ k.shared.descs.Lacks (.pipeRead key)) ∧
    (r = .error (.errno .pipe) → s.1 = ((Act.raise sigpipe).exec (k.machineOf p)).2) := by
  have hfitted := reached_fitted h
  have hat : k.shared.descs.get entry.desc = some desc := openFd_desc hopen
  have hwritable : desc.writable = true := by
    have hsuits := hfitted.suits entry.desc desc hat
    rwa [Desc.Suits, hkind] at hsuits
  obtain ⟨q, hq⟩ := hfitted.plumbed.there hat (by rw [hkind]; rfl : desc.kind.pipe = some key)
  have hpipe : (k.machineOf p).shared.pipes.get key = some q := hq
  have hreaders : k.shared.descs.ofKind (.pipeRead key) = q.readers := by
    have hcounts := hfitted.plumbed key
    rw [hq] at hcounts
    have hpos := ofKind_pos hat
    rw [hkind] at hpos
    exact hcounts.2.2 hpos
  rw [lacks_iff, hreaders]
  rcases writePipe_cases hopen hkind hpipe hrun with
    ⟨hnot, -⟩ | ⟨-, hnone, hr, hs⟩ | ⟨-, hsome, -, hr, -⟩ | ⟨-, hsome, -, hr, -⟩
  · rw [hwritable] at hnot
    cases hnot
  · exact ⟨⟨fun _ => hnone, fun _ => hr⟩, fun _ => hs⟩
  · have hne : r ≠ .error (.errno .pipe) := by
      rw [hr]
      cases desc.isNonblocking with
      | true => decide
      | false => decide
    exact ⟨⟨fun hbroken => absurd hbroken hne, fun hzero => absurd hzero hsome⟩, fun hbroken =>
      absurd hbroken hne⟩
  · have hne : r ≠ .error (.errno .pipe) := by
      intro hbroken
      rw [hr] at hbroken
      cases hbroken
    exact ⟨⟨fun hbroken => absurd hbroken hne, fun hzero => absurd hzero hsome⟩, fun hbroken =>
      absurd hbroken hne⟩

end

/-- The read end is closed. -/
theorem write_breaks_closed : ∃ (k : Kernel) (w : List GuestRun) (p : Proc),
    Reached Env.usesPipe (fun _ _ => True) k w ∧ k.procs[0]? = some p ∧
    ((writeBytes 4 [1]).run (exec Env.usesPipe) (k.machineOf p, w)).1 = .error (.errno .pipe) ∧
    k.shared.descs.Lacks (.pipeRead 0) := by
  obtain ⟨k, w, p, entry, desc, s, hreached, hp, hopen, hkind, hrun⟩ :
    ∃ (k : Kernel) (w : List GuestRun) (p : Proc) (entry : Fd) (desc : Desc) (s : Machine × List GuestRun),
      Reached Env.usesPipe (fun _ _ => True) k w ∧
      k.procs[0]? = some p ∧ openFd (k.machineOf p).view 4 = .ok (entry, desc) ∧ desc.kind = .pipeWrite 0 ∧
      (writeBytes 4 [1]).run (exec Env.usesPipe) (k.machineOf p, w) = (.error (.errno .pipe), s) := by
    have hdrive : Config.oneMount.drive Env.usesPipe [⟨[.syscall 59 0, .syscall 57 48, .setjmp 0], none⟩] 2
      [⟨some 0, none⟩] = some (_, _) := rfl
    exact ⟨_, _, _, _, _, _, .between _ _ (between_drive hdrive), rfl, rfl, rfl, rfl⟩
  exact ⟨k, w, p, hreached, hp, congrArg Prod.fst hrun, (write_breaks hreached hopen hkind hrun).1.mp rfl⟩

end Wasmux
