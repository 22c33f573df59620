import Wasmux.Accounts
import Wasmux.Counting.Flow
import Wasmux.Histories
import Wasmux.Polling

/-!
# What a session is fed

The standard input is one queue for the whole session. Its caller adds to the
end, any process takes from the front, and nothing else a session does changes
what is in it.
-/

set_option autoImplicit false

namespace Wasmux
open Effects Abi Sys Counting

/-- What a session has from its caller: the standard input, and the terminal. -/
def Shared.inlets (sh : Shared) : Bytes × Bool × Option Terminal :=
    (sh.stdin.data, sh.stdin.closed, sh.terminal)

theorem Shared.inlets_of_outer {sh sh' : Shared} (h : sh'.outer = sh.outer) : sh'.inlets = sh.inlets := by
  have hinlets := congrArg Shared.inlets h
  exact hinlets

def Act.draws : Act → Bool
  | .stdinTake _ | .setTermios _ => true
  | _ => false

theorem Act.inlets_exec (a : Act) (m : Machine) (h : a.draws = false) :
    (a.exec m).2.shared.inlets = m.shared.inlets := by
  by_cases hmoves : a.moves = true
  · exact Shared.inlets_of_outer (a.outer_exec m hmoves)
  cases a with
  | stdinTake | setTermios => cases h
  | openDesc | dup | dupTo | close | pipe2 | fork | vforkExit | finishExec => exact absurd rfl hmoves
  | growMem pages => exact congrArg Shared.inlets (m.shared_setMem _)
  | put start data =>
    simp only [exec]
    split <;> rfl
  | setCloexec fd on =>
    simp only [exec]
    split <;> rfl
  | charge bytes =>
    simp only [exec, Shared.chargeMemory]
    split <;> rfl
  | writeOutput which data =>
    simp only [exec, Shared.writeOutput]
    split <;> rfl
  | _ => rfl

theorem KAct.inlets_exec (a : KAct) (k : Kernel) : (a.exec k).2.shared.inlets = k.shared.inlets := by
  cases a with
  | finishProcess index status =>
    simp only [exec, Kernel.finishProcess]
    cases k.procs[index]? with
    | none => rfl
    | some p =>
      exact (Shared.inlets_of_outer ((Shared.outer_setExit _ _ _).trans
        ((Shared.outer_releaseFds _ _).trans (Shared.outer_killChildren _ _ _ _)))).trans rfl
  | abandonSpawn =>
    simp only [exec]
    split
    · rfl
    · exact Shared.inlets_of_outer ((Shared.outer_setExit _ _ _).trans (Shared.outer_releaseFds _ _))
  | abandonExec index =>
    simp only [exec]
    split
    · rfl
    · exact Shared.inlets_of_outer ((Shared.outer_setExit _ _ _).trans (Shared.outer_releaseFds _ _))
  | charge bytes =>
    simp only [exec, Shared.chargeMemory]
    split <;> rfl
  | launchSpawn | releaseInstance | trapMessage =>
    simp only [exec]
    split <;> rfl
  | attach | restoreJmp =>
    simp only [exec]
    repeat' split
    all_goals rfl
  | whyIdle =>
    simp only [exec, Kernel.whyIdle]
    repeat' split
    all_goals rfl
  | _ => rfl

/-- What the processes have taken of the standard input. -/
def intake : History Bytes where
  start := []
  next taken o k a := match o, a with
    | .machine i (.act (.stdinTake _)), bytes => if (k.procs[i]?).isSome then taken ++ bytes else taken
    | _, _ => taken

section
variable {W : Type} {x : Env W}

/-- One step takes what it answers from the front of the standard input. -/
theorem intake_next (o : KOp) (s : Kernel × W) (taken : Bytes) :
    intake.next taken o s.1 (kexec x o s).1 ++ (kexec x o s).2.1.shared.stdin.data =
    taken ++ s.1.shared.stdin.data := by
  obtain ⟨k, w⟩ := s
  have hsame : ∀ {sh : Shared}, sh.inlets = k.shared.inlets →
      taken ++ sh.stdin.data = taken ++ k.shared.stdin.data :=
    fun h => congrArg (taken ++ ·) (congrArg Prod.fst h)
  cases o with
  | env c => rfl
  | act a => exact hsame (a.inlets_exec k)
  | machine i o =>
    cases hp : k.procs[i]? with
    | none =>
      have hnext : intake.next taken (.machine i o) k (kexec x (.machine i o) (k, w)).1 = taken := by
        cases o with
        | env => rfl
        | act a =>
          cases a with
          | stdinTake count =>
            simp only [intake, hp]
            rfl
          | _ => rfl
      rw [hnext, kexec_machine_none x hp]
    | some p =>
      rw [kexec_machine x hp]
      cases o with
      | env => rfl
      | act a =>
        by_cases hdraws : a.draws = true
        · cases a with
          | stdinTake count =>
            simp only [intake, hp, Option.isSome_some, if_true, List.append_assoc]
            exact congrArg (taken ++ ·) (List.take_append_drop _ _)
          | setTermios => rfl
          | _ => cases hdraws
        · rw [Bool.not_eq_true] at hdraws
          have hnext : intake.next taken (.machine i (.act a)) k (a.exec (k.machineOf p)).1 = taken := by
            cases a with
            | stdinTake => cases hdraws
            | _ => rfl
          show intake.next taken (.machine i (.act a)) k (a.exec (k.machineOf p)).1 ++ _ = _
          rw [hnext]
          exact hsame (a.inlets_exec (k.machineOf p) hdraws)

theorem intake_final {α : Type} (p : Sched α) (k : Kernel) (w : W) (taken : Bytes) :
    ((p.run (intake.exec x) ((k, w), taken)).2.2 ++
      (p.run (intake.exec x) ((k, w), taken)).2.1.1.shared.stdin.data) =
      taken ++ k.shared.stdin.data := by
  apply Program.noting_keeps (A := fun _ _ => True)
    (J := fun (s : Kernel × W) (t : Bytes) => t ++ s.1.shared.stdin.data = taken ++ k.shared.stdin.data)
  · intro o s t ht _
    exact (intake_next o s t).trans ht
  · rfl
  · exact Program.along_of_forall _ (fun _ _ => trivial) _ _

variable (x)

/-- A session, what its processes have taken of the standard input, and what the
caller has fed to it, from the start on. -/
inductive Fed : Session → W → Flow UInt8 → Prop
  | start (c : Config) (started : Instant) (k k' : Kernel) (w w' : W) (taken : Bytes) :
      c.kernel started = some k →
      c.spawnFirst.run (intake.exec x) ((k, w), []) = (.ok true, ((k', w'), taken)) →
      Fed ⟨k', none⟩ w' ⟨taken, c.stdin⟩
  | elapse (s : Session) (w w' : W) (f : Flow UInt8) : Fed s w f → Fed s w' f
  | step (k k' : Kernel) (w w' : W) (f : Flow UInt8) (taken : Bytes) (turns : ℕ) (budget : Budget)
      (slice : Slice) :
      Fed ⟨k, none⟩ w f →
      (Scheduler.run turns budget).run (intake.exec x) ((k, w), f.taken) = (.ok slice, ((k', w'), taken)) →
      Fed ⟨k', slice.status⟩ w' { f with taken := taken }
  | writeStdin (s : Session) (w : W) (f : Flow UInt8) (bytes : Bytes) :
      Fed s w f → Fed (s.writeStdin bytes) w (f.give bytes)
  | closeStdin (s : Session) (w : W) (f : Flow UInt8) : Fed s w f → Fed s.closeStdin w f
  | takeStdout (s : Session) (w : W) (f : Flow UInt8) : Fed s w f → Fed s.takeStdout.2 w f
  | takeStderr (s : Session) (w : W) (f : Flow UInt8) : Fed s w f → Fed s.takeStderr.2 w f

variable {x}

/-- Whichever processes read the standard input, and whenever its caller feeds it:
what was read and then what is still there is what was fed. -/
theorem fed_delivered {s : Session} {w : W} {f : Flow UInt8} (h : Fed x s w f) :
    f.taken ++ s.kernel.shared.stdin.data = f.given := by
  induction h with
  | start c started k k' w w' taken hk hr =>
    have hfinal := intake_final (x := x) c.spawnFirst k w []
    rw [hr] at hfinal
    obtain ⟨fds, slab, rfl⟩ := c.kernel_eq hk
    exact hfinal
  | elapse s w w' f _ ih => exact ih
  | step k k' w w' f taken turns budget slice _ hr ih =>
    have hfinal := intake_final (x := x) (Scheduler.run turns budget) k w f.taken
    rw [hr] at hfinal
    exact hfinal.trans ih
  | writeStdin s w f bytes _ ih =>
    show f.taken ++ (s.kernel.shared.stdin.data ++ bytes) = f.given ++ bytes
    rw [← List.append_assoc, ih]
  | closeStdin s w f _ ih => exact ih
  | takeStdout s w f _ ih => exact ih
  | takeStderr s w f _ ih => exact ih

end

/-- A guest that reads up to five bytes of the standard input. -/
abbrev Env.readsInput : Env (List GuestRun) := Env.scripted (.startingWith (argWords [0, 120, 5, 0, 0, 0]))

abbrev Config.twoLines : Config := { Config.oneMount with stdin := [97, 10, 98] }

theorem fed_delivered_once : ∃ (s : Session) (w : List GuestRun) (f : Flow UInt8), Fed Env.readsInput s w f ∧
    f.taken = [97, 10] ∧ f.given = [97, 10, 98, 99] ∧ f.taken ++ s.kernel.shared.stdin.data = f.given := by
  have hstart : Fed Env.readsInput ⟨_, none⟩ _ _ :=
    .start .twoLines 0 _ _ [⟨[.syscall 63 0, .setjmp 0], none⟩] _ _ rfl rfl
  have hread := Fed.writeStdin _ _ _ [99] (.step _ _ _ _ _ _ 2 ⟨some 0, none⟩ .budget hstart rfl)
  exact ⟨_, _, _, hread, by decide +kernel, by decide +kernel, fed_delivered hread⟩

/-! ## One line at a time -/

/-- What a read of at most `count` bytes may have of the standard input: the
bytes from the front on, and none past a newline. -/
structure FirstLine (data : Bytes) (count : ℕ) (line : Bytes) : Prop where
  front : line <+: data
  fits : line.length ≤ count
  single : 0x0A ∉ line.dropLast
  whole : line.length = count ∨ line = data ∨ line.getLast? = some 0x0A

theorem firstLine_take (data : Bytes) (count : ℕ) :
    FirstLine data count (data.take (Machine.lineLength data count)) := by
  have hfront := List.take_prefix (Machine.lineLength data count) data
  have hfits := (List.length_take_le _ data).trans (lineLength_le data count)
  cases hfind : (data.take count).findIdx? fun b => b == 0x0A with
  | none =>
    have hlength : Machine.lineLength data count = (data.take count).length := by
      rw [Machine.lineLength, hfind]
    have hwindow : data.take (Machine.lineLength data count) = data.take count := by
      rw [hlength, List.length_take, List.take_eq_take_iff]
      omega
    rw [List.findIdx?_eq_none_iff] at hfind
    rw [hwindow] at hfront hfits ⊢
    refine ⟨hfront, hfits, fun hmem => ?_, ?_⟩
    · exact absurd (hfind _ (List.dropLast_subset _ hmem)) (by decide)
    · by_cases hlong : count ≤ data.length
      · exact .inl (List.length_take_of_le hlong)
      · exact .inr (.inl (List.take_of_length_le (by omega)))
  | some i =>
    have hlength : Machine.lineLength data count = i + 1 := by
      rw [Machine.lineLength, hfind]
    obtain ⟨hlt, hnewline, hbefore⟩ := List.findIdx?_eq_some_iff_getElem.mp hfind
    rw [List.length_take] at hlt
    rw [hlength] at hfront hfits ⊢
    have hlast : (data.take (i + 1)).length = i + 1 := List.length_take_of_le (by omega)
    refine ⟨hfront, hfits, ?_, .inr (.inr ?_)⟩
    · intro hmem
      rw [List.dropLast_eq_take, hlast, Nat.add_sub_cancel, List.take_take,
        Nat.min_eq_left (Nat.le_succ i)] at hmem
      obtain ⟨j, hj, hat⟩ := List.mem_iff_getElem.mp hmem
      rw [List.length_take] at hj
      rw [List.getElem_take] at hat
      have hnot := hbefore j (by omega)
      rw [List.getElem_take, hat] at hnot
      exact hnot (by decide)
    · rw [List.getLast?_eq_getElem?, hlast, Nat.add_sub_cancel, List.getElem?_take_of_lt (Nat.lt_succ_self i),
        List.getElem?_eq_getElem (by omega : i < data.length)]
      rw [List.getElem_take, beq_iff_eq] at hnewline
      rw [hnewline]

section
variable {W : Type} {x : Env W} {k : Kernel} {w : W} {p : Proc} {fd : ℤ} {entry : Fd} {desc : Desc}

/-- A read of the standard input takes a line, or as much of one as there is or
as it may. It finds the end only when the caller has closed it. -/
theorem stdin_read (h : Reached x (fun _ _ => True) k w)
    (hopen : openFd (k.machineOf p).view fd = .ok (entry, desc)) (hkind : desc.kind = .stdin) {len : ℕ}
    (hlen : len ≠ 0) {r : Except Fault (ℕ × Bytes)} {s : Machine × W}
    (hrun : (readBytes fd len).run (exec x) (k.machineOf p, w) = (r, s)) :
    (∃ line, line ≠ [] ∧ FirstLine k.shared.stdin.data len line ∧ r = .ok (line.length, fitBuffer len line) ∧
      k.shared.stdin.data = line ++ s.1.shared.stdin.data) ∨
    (k.shared.stdin.data = [] ∧ k.shared.stdin.closed = true ∧ r = .ok (0, List.replicate len 0)) ∨
    (k.shared.stdin.data = [] ∧ k.shared.stdin.closed = false ∧
      r = .error (if desc.isNonblocking then .errno .again else .block)) := by
  have hat : k.shared.descs.get entry.desc = some desc := openFd_desc hopen
  have hreadable : desc.readable = true := by
    have hsuits := (reached_fitted h).suits entry.desc desc hat
    rwa [Desc.Suits, hkind] at hsuits
  have hview : (k.machineOf p).view.stdin = k.shared.stdin.data := rfl
  have hclosed : (k.machineOf p).view.stdinClosed = k.shared.stdin.closed := rfl
  rw [run_readBytes (s := (k.machineOf p, w)) hopen hreadable hlen] at hrun
  unfold readDesc at hrun
  simp only [hkind] at hrun
  by_cases hdata : k.shared.stdin.data = []
  · right
    simp only [hview, hclosed, hdata, if_true] at hrun
    cases hend : k.shared.stdin.closed with
    | true =>
      simp only [hend, if_true] at hrun
      exact .inl ⟨hdata, rfl, (Prod.mk.inj hrun).1.symm⟩
    | false =>
      simp only [hend, Bool.false_eq_true, if_false] at hrun
      refine .inr ⟨hdata, rfl, ?_⟩
      cases hnon : desc.isNonblocking with
      | true =>
        simp only [hnon, if_true] at hrun
        exact (Prod.mk.inj hrun).1.symm
      | false =>
        simp only [hnon, Bool.false_eq_true, if_false] at hrun
        exact (Prod.mk.inj hrun).1.symm
  · left
    simp only [hview, hdata, if_false] at hrun
    obtain ⟨hr, hs⟩ := Prod.mk.inj hrun
    refine ⟨k.shared.stdin.data.take (Machine.lineLength k.shared.stdin.data len), ?_, firstLine_take _ _,
      hr.symm, ?_⟩
    · have hpos := lineLength_pos hdata hlen
      intro hnone
      rcases List.take_eq_nil_iff.mp hnone with hzero | hempty
      · omega
      · exact hdata hempty
    · rw [← hs]
      exact (List.take_append_drop _ _).symm

end

theorem stdin_read_line : ∃ (k : Kernel) (w : List GuestRun) (p : Proc) (line : Bytes),
    Reached Env.readsInput (fun _ _ => True) k w ∧ k.procs[0]? = some p ∧ FirstLine [97, 10, 98] 5 line ∧
    ((readBytes 0 5).run (exec Env.readsInput) (k.machineOf p, w)).1 =
    .ok (line.length, fitBuffer 5 line) := by
  obtain ⟨k, w, p, entry, desc, s, hreached, hp, hopen, hkind, hdata, hrun⟩ :
    ∃ (k : Kernel) (w : List GuestRun) (p : Proc) (entry : Fd) (desc : Desc) (s : Machine × List GuestRun),
      Reached Env.readsInput (fun _ _ => True) k w ∧
      k.procs[0]? = some p ∧ openFd (k.machineOf p).view 0 = .ok (entry, desc) ∧ desc.kind = .stdin ∧
      k.shared.stdin.data = [97, 10, 98] ∧
      (readBytes 0 5).run (exec Env.readsInput) (k.machineOf p, w) = (.ok (2, [97, 10, 0, 0, 0]), s) := by
    have hdrive : Config.twoLines.drive Env.readsInput [] 2 [] = some (_, _) := rfl
    exact ⟨_, _, _, _, _, _, .between _ _ (between_drive hdrive), rfl, rfl, rfl, rfl, rfl⟩
  rcases stdin_read hreached hopen hkind (by decide) hrun with
    ⟨line, -, hline, hr, -⟩ | ⟨hempty, -⟩ | ⟨hempty, -⟩
  · rw [hdata] at hline
    exact ⟨k, w, p, line, hreached, hp, hline, (congrArg Prod.fst hrun).trans hr⟩
  · rw [hdata] at hempty
    cases hempty
  · rw [hdata] at hempty
    cases hempty

end Wasmux
