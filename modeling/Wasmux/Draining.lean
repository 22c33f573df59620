import Wasmux.Retries
import Wasmux.Seeking

/-!
# Reading standard input to its end

A step of a host command that reads standard input reads until there is nothing
more, or until it has to wait. What descriptor 0 can still give it at once is a
number of bytes, unless it is a device that never runs dry.
-/

set_option autoImplicit false

namespace Wasmux
open Effects Abi

section
variable {W : Type}

/-- What files promise: the bytes a read answers with are no longer ahead of it. -/
def Env.Dwindles (x : Env W) (left : W → Handle → ℕ) : Prop := ∀ handle len w n buf,
  (x.file handle (.read len) w).1 = .ok (n, buf) →
  left (x.file handle (.read len) w).2 handle + n ≤ left w handle

/-- How many bytes a description can still give without anyone's help. -/
def Desc.ahead (left : W → Handle → ℕ) (sh : Shared) (w : W) (d : Desc) : ℕ :=
  match d.kind with
  | .file file _ _ => left w file
  | .memory data pos => data.length - pos
  | .stdin => sh.stdin.data.length
  | .pipeRead key => ((sh.pipes.get key).map fun p => p.data.length).getD 0
  | _ => 0

def Machine.input (m : Machine) : Option Desc := (openFd m.view 0).toOption.map Prod.snd

def ahead (left : W → Handle → ℕ) (s : Machine × W) : ℕ :=
    (s.1.input.map (Desc.ahead left s.1.shared s.2)).getD 0

def DescKind.isEndless : DescKind → Bool
  | .zero | .random => true
  | _ => false

/-- Descriptor 0 is open for reading on `/dev/zero` or a device of random bytes. -/
def Machine.Endless (m : Machine) : Prop :=
    ∃ d, m.input = some d ∧ d.readable = true ∧ d.kind.isEndless = true

def Phase.buffered : Phase → ℕ
  | .reading buffer => buffer.length
  | .flushing _ _ _ _ _ => 0

def Kernel.buffered (k : Kernel) (index : ℕ) : ℕ :=
  (((k.procs[index]?).bind Proc.host).map fun h => h.phase.buffered).getD 0

/-- A step of the host command at `index` returns as soon as it may make so many
reads, and never holds more than so much input. -/
def StepEnds (x : Env W) (index : ℕ) (s : Kernel × W) : Prop := ∃ bound, ∀ turns, bound < turns →
  (∃ step, ((Scheduler.stepHost turns index).run (kexec x) s).1 = .ok step) ∧
  ∀ t, Program.Reaches (kexec x) (Scheduler.stepHost turns index) s t → t.1.buffered index ≤ bound

end

/-! ## One read -/

section
variable {W : Type} {x : Env W} {left : W → Handle → ℕ} {s : Machine × W}

theorem input_eq {m : Machine} {entry : Fd} {d : Desc} (h : openFd m.view 0 = .ok (entry, d)) :
    m.input = some d := by
  simp only [Machine.input, h]
  rfl

theorem ahead_eq {m : Machine} {w : W} {d : Desc} (h : m.input = some d) :
    ahead left (m, w) = d.ahead left m.shared w := by
  simp only [ahead, h]
  rfl

theorem not_endless {m : Machine} {d : Desc} (h : m.input = some d) (hkind : d.kind.isEndless = false) :
    ¬ m.Endless := by
  rintro ⟨d', hd', -, hendless⟩
  obtain rfl := Option.some.inj (h.symm.trans hd')
  exact absurd hendless (by simp [hkind])

theorem run_fileAsk_again {file : Handle} {call : FileCall} (h : (x.file file call s.2).1 = .error .again) :
    ∃ t, (fileAsk file call).run (exec x) s = (.error .block, t) := by
  have hask : (env (.file file call) : Handler (Except Errno call.Ans)).run (exec x) s =
      (.ok (.error .again), s.1, (x.file file call s.2).2) :=
    congrArg (fun r => (Except.ok r, s.1, (x.file file call s.2).2)) h
  exact ⟨_, Program.run_bind_ok (exec x) hask⟩

/-- A read through an open description that is not endless leaves one open that
is not, and as many bytes fewer ahead as it answers. -/
theorem readDesc_dwindles (hx : x.Dwindles left) {m : Machine} {w : W} {entry : Fd} {d : Desc} {len : ℕ}
    (hopen : openFd m.view 0 = .ok (entry, d)) (hkind : d.kind.isEndless = false) {n : ℕ} {buf : Bytes}
    {t : Machine × W} (hrun : (readDesc m.view entry.desc d len).run (exec x) (m, w) = (.ok (n, buf), t))
    (hn : n ≠ 0) :
    ∃ d', t.1.input = some d' ∧ d'.kind.isEndless = false ∧
        d'.ahead left t.1.shared t.2 + n ≤ d.ahead left m.shared w := by
  have hinput := input_eq hopen
  obtain ⟨kind, path, flags, refs⟩ := d
  unfold readDesc at hrun
  cases kind with
  | file file mount closed =>
    dsimp only at hrun
    rcases hanswer : (x.file file (.read len) w).1 with e | ⟨n', buf'⟩
    · by_cases hagain : e = .again
      · subst hagain
        obtain ⟨t', hblock⟩ := run_fileAsk_again (s := (m, w)) hanswer
        rw [Program.run_bind_error (exec x) hblock] at hrun
        cases hrun
      · rw [Program.run_bind_error (exec x) (run_fileAsk_error hanswer hagain)] at hrun
        cases hrun
    · rw [Program.run_bind_ok (exec x) (run_fileAsk_ok hanswer)] at hrun
      cases hrun
      exact ⟨_, hinput, hkind, hx file len w n' buf' hanswer⟩
  | memory data pos =>
    obtain ⟨hentry, hdesc⟩ := openFd_ok_iff.mp hopen
    cases hrun
    refine ⟨⟨.memory data (min pos data.length + min (data.drop (min pos data.length)).length len), path,
      flags, refs⟩,
      @input_eq _ entry _ (openFd_ok_iff.mpr ⟨hentry, ?_⟩), rfl, ?_⟩
    · change (m.shared.descs.modify entry.desc _).get entry.desc = _
      rw [Slab.get_modify_self, show m.shared.descs.get entry.desc = _ from hdesc]
      rfl
    · simp only [Desc.ahead, List.length_drop]
      omega
  | stdin =>
    dsimp only at hrun
    by_cases hempty : m.view.stdin = []
    · rw [if_pos hempty] at hrun
      split at hrun
      · cases hrun
        exact absurd rfl hn
      · split at hrun
        · cases hrun
        · cases hrun
    · rw [if_neg hempty] at hrun
      cases hrun
      refine ⟨_, hinput, hkind, ?_⟩
      have := lineLength_le_length m.shared.stdin.data len
      change (m.shared.stdin.data.drop _).length + (m.shared.stdin.data.take _).length ≤
        m.shared.stdin.data.length
      simp only [List.length_drop, List.length_take]
      omega
  | pipeRead key =>
    dsimp only at hrun
    rcases hpipe : m.view.pipes.get key with _ | pipe
    · rw [hpipe] at hrun
      cases hrun
    · rw [hpipe] at hrun
      dsimp only at hrun
      by_cases hempty : pipe.data = []
      · rw [if_pos hempty] at hrun
        split at hrun
        · cases hrun
          exact absurd rfl hn
        · split at hrun
          · cases hrun
          · cases hrun
      · rw [if_neg hempty] at hrun
        cases hrun
        refine ⟨_, hinput, hkind, ?_⟩
        have hpipe : m.shared.pipes.get key = some pipe := hpipe
        change (((m.shared.pipes.modify key _).get key).map _).getD 0 +
          (((m.shared.pipes.get key).map _).getD []).length ≤
          ((m.shared.pipes.get key).map _).getD 0
        rw [Slab.get_modify_self, hpipe]
        simp only [Option.map_some, Option.getD_some, List.length_drop, List.length_take]
        omega
  | null =>
    cases hrun
    exact absurd rfl hn
  | zero | random => cases hkind
  | dir | pipeWrite | stdout => cases hrun

theorem run_looking {α : Type} (f : View → Handler α) (s : Machine × W) :
    (view >>= f).run (exec x) s = (f s.1.view).run (exec x) s :=
  Program.run_bind_ok (exec x) (p := view) (t := s) (a := s.1.view) rfl

/-- A read of descriptor 0 takes what it answers from what is ahead. -/
theorem read_dwindles (hx : x.Dwindles left) {m : Machine} {w : W} {len : ℕ} (hend : ¬ m.Endless) {n : ℕ}
    {buf : Bytes} {t : Machine × W} (hrun : (readBytes 0 len).run (exec x) (m, w) = (.ok (n, buf), t))
    (hn : n ≠ 0) :
    ¬ t.1.Endless ∧ ahead left t + n ≤ ahead left (m, w) := by
  rw [readBytes_eq] at hrun
  split at hrun
  · cases hrun
    exact absurd rfl hn
  rw [run_looking] at hrun
  rcases hopen : openFd m.view 0 with e | ⟨entry, d⟩
  · rw [show openFd (m, w).1.view 0 = .error e from hopen] at hrun
    cases hrun
  · rw [show openFd (m, w).1.view 0 = .ok (entry, d) from hopen, lift_ok, Program.ret_bind] at hrun
    by_cases hreadable : d.readable = true
    · rw [if_neg (by simp [hreadable])] at hrun
      have hkind : d.kind.isEndless = false := by
        rw [Bool.eq_false_iff]
        exact fun hendless => hend ⟨d, input_eq hopen, hreadable, hendless⟩
      obtain ⟨d', hinput, hkind', hahead⟩ := readDesc_dwindles hx hopen hkind hrun hn
      refine ⟨not_endless hinput hkind', ?_⟩
      rw [ahead_eq (w := t.2) hinput, ahead_eq (input_eq hopen)]
      exact hahead
    · rw [if_pos (by simp [hreadable])] at hrun
      cases hrun

theorem read_endless {m : Machine} {w : W} {len : ℕ} (hlen : len ≠ 0) (hend : m.Endless) : ∃ buf w',
    (readBytes 0 len).run (exec x) (m, w) = (.ok (len, buf), m, w') := by
  obtain ⟨d, hinput, hreadable, hkind⟩ := hend
  rcases hopen : openFd m.view 0 with e | ⟨entry, d'⟩
  · simp [Machine.input, hopen, Except.toOption] at hinput
  · obtain rfl : d' = d := Option.some.inj ((input_eq hopen).symm.trans hinput)
    rw [readBytes_eq, if_neg hlen, run_looking, show openFd (m, w).1.view 0 =
      .ok (entry, d') from hopen, lift_ok, Program.ret_bind, if_neg (by simp [hreadable])]
    unfold readDesc
    cases hcase : d'.kind with
    | zero => exact ⟨_, _, rfl⟩
    | random => exact ⟨_, _, rfl⟩
    | _ => simp [hcase, DescKind.isEndless] at hkind

end

/-! ## The loop -/

section
variable {W : Type} {x : Env W} {left : W → Handle → ℕ} {k : Kernel} {index : ℕ} {proc : Proc}

theorem buffered_eq (h : k.procs[index]? = some proc) :
    k.buffered index = (proc.host.map fun h => h.phase.buffered).getD 0 := by
  simp only [Kernel.buffered, h, Option.bind_some]

theorem buffered_machine (o : Op) (s : Kernel × W) :
    (kexec x (.machine index o) s).2.1.buffered index = s.1.buffered index := by
  obtain ⟨k, w⟩ := s
  rcases hp : k.procs[index]? with _ | p
  · rw [kexec_machine_none x hp]
  · rw [kexec_machine x hp]
    exact (buffered_eq (Kernel.putMachine_proc hp _)).trans (buffered_eq hp).symm

theorem append_at (hp : k.procs[index]? = some proc) (chunk : Bytes) :
    ((KAct.appendInput index chunk).exec k).2.procs[index]? =
      some ((KAct.appendInput index chunk).effect proc) := by
  rw [KAct.procs_target (.appendInput index chunk) rfl, List.getElem?_modify_eq, hp]
  rfl

theorem buffered_append (hp : k.procs[index]? = some proc) (chunk : Bytes) :
    ((KAct.appendInput index chunk).exec k).2.buffered index ≤ k.buffered index + chunk.length := by
  rw [buffered_eq hp, buffered_eq (append_at hp chunk)]
  rcases hhost : proc.host with _ | ⟨command, reads, phase⟩
  · simp [KAct.effect, hhost]
  · cases phase with
    | reading buffer => simp [KAct.effect, hhost, Phase.buffered]
    | flushing => simp [KAct.effect, hhost, Phase.buffered]

theorem length_prefixOrEmpty_le (chunk : Bytes) (n : ℕ) : (prefixOrEmpty chunk n).length ≤ n := by
  unfold prefixOrEmpty
  split
  · exact List.length_take_le _ _
  · exact Nat.zero_le _

/-- One read of the loop, and the kernel it leaves. -/
theorem meets_reads (bound : ℕ) (w : W) (hp : k.procs[index]? = some proc) (hheld : k.buffered index ≤ bound)
    {r : Except Fault (ℕ × Bytes)} {m : Machine} {w' : W}
    (hread : (readBytes 0 8192).run (exec x) (k.machineOf proc, w) = (r, m, w')) :
    Program.Meets (kexec x) (fun _ _ => True) (fun _ s => s.1.buffered index ≤ bound)
      (onProc index (readBytes 0 8192).catching) (fun r' t => r' = .ok r ∧ t.2 = w' ∧
        t.1.buffered index = k.buffered index ∧ ∃ q, t.1.procs[index]? = some q ∧
        t.1.machineOf q = m) (k, w) := by
  have hkeeps : Program.Meets (kexec x) (fun _ _ => True) (fun _ s => s.1.buffered index ≤ bound)
      (onProc index (readBytes 0 8192).catching : Sched _)
      (fun _ t => t.1.buffered index ≤ bound) (k, w) := by
    refine Program.meets_only (B := fun o => ∃ o', o = KOp.machine index o')
      (I := fun t : Kernel × W => t.1.buffered index ≤ bound) ?_
      (only_onProc (D := fun _ => True) (fun o _ =>
        ⟨o, rfl⟩) (Program.only_of_forall (fun _ => trivial) _)) hheld
    rintro _ s ⟨o, rfl⟩ hs -
    refine ⟨hs, ?_⟩
    rwa [buffered_machine]
  have hcatch : ((readBytes 0 8192).catching : Program sig Stop _).run (exec x) (k.machineOf proc, w) =
      (.ok r, m, w') := by
    rw [Program.run_catching, hread]
  have hrun := run_onProc hp w hcatch
  apply Program.meets_of_run (hkeeps.run (Program.along_of_forall _ (fun _ _ => trivial) _ _)).1
  rw [hrun]
  have hat := Kernel.putMachine_proc hp m
  exact ⟨rfl, rfl, (buffered_eq hat).trans (buffered_eq hp).symm, _, hat, rfl⟩

/-- With more reads than there are bytes ahead, the loop comes to an end. -/
theorem drain_meets (hx : x.Dwindles left) (bound turns : ℕ) : ∀ {k : Kernel} {w : W} {proc : Proc},
    k.procs[index]? = some proc → ¬ (k.machineOf proc).Endless → ahead left (k.machineOf proc, w) < turns →
    k.buffered index + ahead left (k.machineOf proc, w) ≤ bound →
    Program.Meets (kexec x) (fun _ _ => True)
    (fun _ s => s.1.buffered index ≤ bound) (Scheduler.drain index turns)
      (fun r t => (∃ a, r = .ok a) ∧ t.1.buffered index ≤ bound) (k, w) := by
  induction turns with
  | zero => exact fun _ _ h _ => absurd h (Nat.not_lt_zero _)
  | succ turns ih =>
    intro k w proc hp hend hturns hbound
    unfold Scheduler.drain
    rcases hread : (readBytes 0 8192).run (exec x) (k.machineOf proc, w) with ⟨r, m, w'⟩
    apply Program.meets_bind (meets_reads bound w hp (by omega) hread)
    · rintro r' ⟨k', w''⟩ ⟨hr, hw, hsame, q, hq, hm⟩
      obtain rfl := Except.ok.inj hr
      obtain rfl : w'' = w' := hw
      dsimp only at hsame hq hm
      subst hm
      have hstop : k'.buffered index ≤ bound := by omega
      rcases r' with fault | ⟨n, chunk⟩
      · cases fault <;> exact ⟨⟨_, rfl⟩, hstop⟩
      · dsimp only
        by_cases hn : n = 0
        · rw [if_pos hn]
          exact ⟨⟨_, rfl⟩, hstop⟩
        · rw [if_neg hn]
          obtain ⟨hend', hahead⟩ := read_dwindles hx hend hread hn
          have happend := buffered_append hq (prefixOrEmpty chunk n)
          have hchunk := length_prefixOrEmpty_le chunk n
          refine meets_kact fun _ => ⟨hstop, ?_⟩
          apply ih (append_at hq _)
          · exact hend'
          · change ahead left (k'.machineOf q, w'') < turns
            omega
          · change _ + ahead left (k'.machineOf q, w'') ≤ bound
            omega
    · rintro e t ⟨he, -⟩
      cases he

theorem drain_endless (turns : ℕ) : ∀ {k : Kernel} {w : W} {proc : Proc}, k.procs[index]? = some proc →
    (k.machineOf proc).Endless → ((Scheduler.drain index turns).run (kexec x) (k, w)).1 =
    .error .outOfTurns := by
  induction turns with
  | zero => exact fun _ _ => rfl
  | succ turns ih =>
    intro k w proc hp hend
    obtain ⟨buf, w', hread⟩ := read_endless (x := x) (w := w) (show (8192 : ℕ) ≠ 0 by decide) hend
    have hcatch : ((readBytes 0 8192).catching : Program sig Stop _).run (exec x) (k.machineOf proc, w) =
        (.ok (.ok (8192, buf)), k.machineOf proc, w') := by
      rw [Program.run_catching, hread]
    have hrun := run_onProc hp w hcatch
    unfold Scheduler.drain
    rw [Program.run_bind_ok (kexec x) hrun]
    dsimp only
    rw [if_neg (by decide)]
    exact ih (append_at (Kernel.putMachine_proc hp _) _) hend

end

/-- What a step of the host command at `index` asks for once it has its input. -/
def KOp.concludes (index : ℕ) : KOp → Prop
  | .machine i o => i = index ∧ o.streams
  | .env _ => True
  | .act a => match a with
    | .host i | .advance i _ => i = index
    | .setPhase i phase => i = index ∧ phase.isFlushing = true
    | .noteHostPending => True
    | _ => False

theorem KOp.emits.concludes {index : ℕ} {o : KOp} (h : o.emits index) : o.concludes index := by
  cases o with
  | machine => exact h
  | env => trivial
  | act a =>
    cases a with
    | host | advance => exact h
    | _ => cases h

theorem total_kact {α : Type} {a : KAct} {f : a.Ans → Sched α} (hf : ∀ r, (f r).Total) :
    (kact a >>= f).Total := hf

theorem total_kenv {α : Type} {c : KCall} {f : c.Ans → Sched α} (hf : ∀ r, (f r).Total) :
    (kenv c >>= f).Total := hf

namespace Scheduler

theorem concludes_flushAll (index : ℕ) : (flushAll index).Only (KOp.concludes index) :=
  (emits_flushAll index).mono fun _ => KOp.emits.concludes

theorem concludes_invoke (index : ℕ) : (invoke index).Only (KOp.concludes index) := by
  refine only_kact (a := .host index) rfl ?_
  intro view
  split
  · apply only_kenv trivial
    rintro (e | exit)
    · dsimp only
      split
      · exact only_kact trivial fun _ => trivial
      · exact only_kact ⟨rfl, rfl⟩ fun _ => concludes_flushAll index
    · exact only_kact ⟨rfl, rfl⟩ fun _ => concludes_flushAll index
  · trivial

theorem total_flush (index : ℕ) (fd : ℤ) (bytes : Bytes) (turns done : ℕ) :
    (flush index fd bytes turns done).Total := by
  induction turns generalizing done with
  | zero => trivial
  | succ turns ih =>
    unfold flush
    split
    · trivial
    apply Program.total_bind (Program.total_relabel (Program.total_catching _))
    intro answer
    refine total_kact fun _ => ?_
    rcases answer with fault | n
    · cases fault <;> trivial
    · dsimp only
      split
      · trivial
      · exact ih _

theorem total_flushAll (index : ℕ) : (flushAll index).Total := by
  refine total_kact (a := .host index) ?_
  intro view
  split
  · apply Program.total_bind (total_flush _ _ _ _ _)
    rintro (_ | _)
    · apply Program.total_bind (total_flush _ _ _ _ _)
      rintro (_ | _) <;> trivial
    · trivial
  · trivial

theorem total_invoke (index : ℕ) : (invoke index).Total := by
  refine total_kact (a := .host index) ?_
  intro view
  split
  · apply total_kenv
    rintro (e | exit)
    · dsimp only
      split
      · exact total_kact fun _ => trivial
      · exact total_kact fun _ => total_flushAll index
    · exact total_kact fun _ => total_flushAll index
  · trivial

end Scheduler

section
variable {W : Type} {x : Env W} {left : W → Handle → ℕ} {k : Kernel} {index : ℕ} {proc : Proc}
    {host : HostProc}

theorem buffered_target {a : KAct} (htarget : a.target = some index)
    (heffect : ∀ p h, p.host = some h → ∃ h', (a.effect p).host = some h' ∧
      h'.phase.buffered ≤ h.phase.buffered)
    (hnone : ∀ p, p.host = none → (a.effect p).host = none) :
    (a.exec k).2.buffered index ≤ k.buffered index := by
  unfold Kernel.buffered
  rw [a.procs_target htarget, List.getElem?_modify_eq]
  rcases k.procs[index]? with _ | p
  · exact le_refl _
  rcases hhost : p.host with _ | h
  · simp [hnone p hhost]
  · obtain ⟨h', hh', hle⟩ := heffect p h hhost
    simpa [hh', hhost] using hle

theorem buffered_concludes {o : KOp} (ho : o.concludes index) (s : Kernel × W) :
    (kexec x o s).2.1.buffered index ≤ s.1.buffered index := by
  cases o with
  | env c => exact le_refl _
  | machine i o =>
    obtain ⟨rfl, -⟩ := ho
    exact (buffered_machine o s).le
  | act a =>
    cases a with
    | host | noteHostPending => exact le_refl _
    | setPhase i phase =>
      obtain ⟨rfl, hphase⟩ := ho
      refine buffered_target (a := .setPhase i phase) rfl (fun p h hhost => ?_) fun p hhost => ?_
      · refine ⟨{ h with phase := phase }, by simp [KAct.effect, hhost], ?_⟩
        cases phase with
        | reading => cases hphase
        | flushing => exact Nat.zero_le _
      · simp [KAct.effect, hhost]
    | advance i offer =>
      obtain rfl : i = index := ho
      refine buffered_target (a := .advance i offer) rfl (fun p h hhost => ?_) fun p hhost => ?_
      · refine ⟨{ h with phase := Kernel.Phase.advance offer.fd offer.count h.phase }, by
          simp [KAct.effect, hhost], ?_⟩
        cases h.phase with
        | reading => exact le_refl _
        | flushing =>
          simp only [Kernel.Phase.advance]
          split <;> exact le_refl _
      · simp [KAct.effect, hhost]
    | _ => cases ho

theorem concludes_meets {α : Type} {p : Sched α} (honly : p.Only (KOp.concludes index))
    (htotal : p.Total) {bound : ℕ} {s : Kernel × W} (hs : s.1.buffered index ≤ bound) :
    Program.Meets (kexec x) (fun _ _ => True) (fun _ s => s.1.buffered index ≤ bound) p
      (fun r t => (∃ a, r = .ok a) ∧ t.1.buffered index ≤ bound) s := by
  have hkeeps : Program.Meets (kexec x) (fun _ _ => True) (fun _ s => s.1.buffered index ≤ bound) p
      (fun _ t => t.1.buffered index ≤ bound) s :=
    Program.meets_only (B := KOp.concludes index) (I := fun t : Kernel × W => t.1.buffered index ≤ bound)
      (fun o t ho ht _ => ⟨ht, (buffered_concludes ho t).trans ht⟩) honly hs
  obtain ⟨halong, hfinal⟩ := hkeeps.run (Program.along_of_forall _ (fun _ _ => trivial) _ _)
  exact Program.meets_of_run halong ⟨htotal.run_ok (kexec x) s, hfinal⟩

/-- The state a step of a host command starts from is one in which it would read
without end. -/
def Kernel.Spins (k : Kernel) (index : ℕ) : Prop := ∃ p h buffer, k.procs[index]? = some p ∧ p.host = some h ∧
  h.readsStdin = true ∧ h.phase = .reading buffer ∧ (k.machineOf p).Endless

theorem stepHost_meets (hx : x.Dwindles left) {w : W} (hp : k.procs[index]? = some proc)
    (hhost : proc.host = some host) (hspins : ¬ k.Spins index) {turns : ℕ}
    (hturns : ahead left (k.machineOf proc, w) < turns) :
    Program.Meets (kexec x) (fun _ _ => True)
      (fun _ s => s.1.buffered index ≤ k.buffered index + ahead left (k.machineOf proc, w))
      (Scheduler.stepHost turns index)
      (fun r t => (∃ a, r = .ok a) ∧
        t.1.buffered index ≤ k.buffered index + ahead left (k.machineOf proc, w)) (k, w) := by
  have hstart : k.buffered index ≤ k.buffered index + ahead left (k.machineOf proc, w) := Nat.le_add_right _ _
  unfold Scheduler.stepHost
  refine meets_kact fun _ => ⟨hstart, ?_⟩
  have hview : ((KAct.host index).exec k).1 =
      some ⟨host, proc.ctx.argv, proc.ctx.envp, proc.ctx.task.cwd, proc.ctx.task.comm⟩ := by
    simp [KAct.exec, hp, hhost]
  rw [hview]
  dsimp only
  cases hphase : host.phase with
  | flushing =>
    exact concludes_meets (Scheduler.concludes_flushAll index) (Scheduler.total_flushAll index) hstart
  | reading buffer =>
    apply Program.meets_ite
    · intro hreads
      have hend : ¬ (k.machineOf proc).Endless :=
        fun hendless => hspins ⟨proc, host, buffer, hp, hhost, hreads, hphase, hendless⟩
      apply Program.meets_bind (drain_meets hx _ turns hp hend hturns (le_refl _))
      · rintro (_ | _) t ⟨-, ht⟩
        · exact concludes_meets (Scheduler.concludes_invoke index) (Scheduler.total_invoke index) ht
        · exact ⟨⟨_, rfl⟩, ht⟩
      · rintro e t ⟨⟨a, ha⟩, -⟩
        cases ha
    · exact fun _ => concludes_meets (Scheduler.concludes_invoke index) (Scheduler.total_invoke index) hstart

theorem stepHost_spins (hspins : k.Spins index) (turns : ℕ) (w : W) :
    ((Scheduler.stepHost turns index).run (kexec x) (k, w)).1 = .error .outOfTurns := by
  obtain ⟨p, h, buffer, hp, hhost, hreads, hphase, hendless⟩ := hspins
  have hview : ((KAct.host index).exec k).1 = some ⟨h, p.ctx.argv, p.ctx.envp, p.ctx.task.cwd,
      p.ctx.task.comm⟩ := by
    simp [KAct.exec, hp, hhost]
  have hlook : (kact (.host index) : Sched _).run (kexec x) (k, w) =
      (.ok (some ⟨h, p.ctx.argv, p.ctx.envp, p.ctx.task.cwd, p.ctx.task.comm⟩), (k, w)) :=
    congrArg (fun view => (Except.ok view, (k, w))) hview
  have hdrain := drain_endless (x := x) (w := w) turns hp hendless
  rcases hrun : (Scheduler.drain index turns).run (kexec x) (k, w) with ⟨r, t⟩
  rw [hrun] at hdrain
  obtain rfl : r = .error .outOfTurns := hdrain
  unfold Scheduler.stepHost
  rw [Program.run_bind_ok (kexec x) hlook]
  dsimp only
  rw [hphase]
  dsimp only
  rw [if_pos hreads, Program.run_bind_error (kexec x) hrun]

/-- A step of a host command returns with what there was to read, unless it
reads from a device that never ends. -/
theorem drain_ends_iff (hx : x.Dwindles left) {w : W} (hp : k.procs[index]? = some proc)
    (hhost : proc.host = some host) :
    StepEnds x index (k, w) ↔ ¬ k.Spins index := by
  constructor
  · rintro ⟨bound, hends⟩ ⟨p, h, buffer, hp, hhost, hreads, hphase, hendless⟩
    obtain ⟨⟨step, hstep⟩, -⟩ := hends (bound + 1) (Nat.lt_succ_self bound)
    rw [stepHost_spins ⟨p, h, buffer, hp, hhost, hreads, hphase, hendless⟩] at hstep
    cases hstep
  · intro hspins
    refine ⟨k.buffered index + ahead left (k.machineOf proc, w), fun turns hturns => ?_⟩
    have hmore : ahead left (k.machineOf proc, w) < turns := by omega
    obtain ⟨halong, hok, hfinal⟩ := (stepHost_meets hx hp hhost hspins hmore).run
      (Program.along_of_forall _ (fun _ _ => trivial) _ _)
    exact ⟨hok, fun t ht => Program.reaches_along (kexec x) halong hfinal ht⟩

end

/-! ## Files in memory -/

def MemWorld.aheadOf {W : Type} {p : Width} (s : MemWorld p × W) (handle : Handle) : ℕ :=
  ((s.1.files[handle]?).map fun f => (s.1.buffer f.data).bytes.length - f.pos).getD 0

theorem dwindles_memory {W : Type} {p : Width} (x : Env W) : (x.memory p).Dwindles MemWorld.aheadOf := by
  rintro handle len ⟨fs, w⟩ n buf hok
  rcases hf : fs.files[handle]? with _ | f
  · simp only [Env.memory, MemWorld.file, hf] at hok
    cases hok
  · have hcall : (x.memory p).file handle (.read len) (fs, w) =
        ((fs.readFile handle f len).1, (fs.readFile handle f len).2, w) := by
      simp only [Env.memory, MemWorld.file, hf]
    obtain ⟨hanswer, new, hafter, hcursor⟩ := MemWorld.readFile_eq fs handle f len
    rw [hcall] at hok ⊢
    obtain ⟨rfl, -⟩ := Prod.mk.inj (Except.ok.inj (hanswer.symm.trans hok))
    have hlt := (List.getElem?_eq_some_iff.mp hf).1
    have hnew : MemWorld.aheadOf (fs.setFile handle new, w) handle = (fs.buffer new.data).bytes.length -
        new.pos := by
      simp only [MemWorld.aheadOf, MemWorld.setFile, List.getElem?_set_self hlt, Option.map_some,
        Option.getD_some]
      rfl
    have hold : MemWorld.aheadOf (fs, w) handle = (fs.buffer f.data).bytes.length - f.pos := by
      simp only [MemWorld.aheadOf, hf, Option.map_some, Option.getD_some]
    have hdata : new.data = f.data := congrArg Cursor.data hcursor
    have hpos : new.pos = _ := congrArg Cursor.pos hcursor
    rw [hafter, hnew, hold, hdata, hpos]
    simp only [List.length_take, List.length_drop]
    omega

/-- A guest that becomes a host command which reads its standard input. -/
def Env.redirects (words : List ℤ) : Env (List GuestRun) :=
  { Env.scripted (.startingWith (argWords words)) with readsStdin := fun _ _ w => (true, w) }

def Config.redirected : Config :=
  { bare [.guest 0, .host 0] with mounts := oneMount.mounts }

/-- A guest that closes descriptor 0, makes a file, writes to it, goes back to
its start, and becomes the command. -/
def Env.redirectsFile : Env (MemWorld .w64 × List GuestRun) :=
  (Env.redirects [0, 0, 0, 0, 0, 0, atFdcwd, 96, 0x42, 0, 0, 0, 0, 96, 7, 0, 0, 0, 100, 0, 0, 0, 0, 0,
    0x66, 0x6e69622f, 0x312f]).memory .w64

theorem drain_ends_iff_file : ∃ (k : Kernel) (w : MemWorld .w64 × List GuestRun) (p : Proc),
    Reached Env.redirectsFile (fun _ _ => True) k w ∧ k.procs[0]? = some p ∧
    ahead MemWorld.aheadOf (k.machineOf p, w) = 7 ∧ (StepEnds Env.redirectsFile 0 (k, w) ↔ ¬ k.Spins 0) := by
  have hrun : Config.redirected.drive Env.redirectsFile (MemWorld.new .w64, [⟨[.syscall 57 0, .syscall 56 24,
    .syscall 64 48, .syscall 62 0, .syscall 221 72], none⟩]) 3 [⟨some 0, none⟩] = some (_, _) := rfl
  exact ⟨_, _, _, .between _ _ (between_drive hrun), rfl, rfl, drain_ends_iff (dwindles_memory _) rfl rfl⟩

/-- A guest that closes descriptor 0, opens `/dev/zero`, and becomes the command. -/
def Env.redirectsZero : Env (List GuestRun) :=
  Env.redirects [0, 0, 0, 0, 0, 0, atFdcwd, 72, 0, 0, 0, 0, 84, 0, 0, 0, 0, 0, 0x7665642f, 0x72657a2f,
    0x6f, 0x6e69622f, 0x312f]

/-- The command never has the whole of its input. -/
theorem dev_zero_spins : ∃ (k : Kernel) (w : List GuestRun) (p : Proc) (host : HostProc),
    Reached Env.redirectsZero (fun _ _ => True) k w ∧ k.procs[0]? = some p ∧ p.host = some host ∧
    host.readsStdin = true ∧ ¬ StepEnds Env.redirectsZero 0 (k, w) := by
  have hrun : Config.redirected.drive Env.redirectsZero
    [⟨[.syscall 57 0, .syscall 56 24, .syscall 221 48], none⟩] 3
    [⟨some 0, none⟩] = some (_, _) := rfl
  refine ⟨_, _, _, _, .between _ _ (between_drive hrun), rfl, rfl, rfl, ?_⟩
  rintro ⟨bound, hends⟩
  obtain ⟨⟨step, hstep⟩, -⟩ := hends (bound + 1) (Nat.lt_succ_self bound)
  rw [stepHost_spins ⟨_, _, _, rfl, rfl, rfl, rfl, _, rfl, rfl, rfl⟩] at hstep
  cases hstep

end Wasmux
