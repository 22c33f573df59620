import Wasmux.Faults
import Wasmux.Plumbing

/-!
# What a poll says

`poll_one` computes by itself what a read or a write would find. The two agree
on pipes and on the standard streams, for as long as a pipe outlives its ends.
-/

set_option autoImplicit false

namespace Wasmux
open Effects Abi

def DescKind.isSource : DescKind → Bool
  | .pipeRead _ | .stdin => true
  | _ => false

def DescKind.isSink : DescKind → Bool
  | .pipeWrite _ | .stdout _ => true
  | _ => false

/-- Nothing is left to be read here, and nothing more comes. -/
def View.AtEnd (v : View) : DescKind → Prop
  | .pipeRead key => ∃ pipe, v.pipes.get key = some pipe ∧ pipe.data = [] ∧ pipe.writers = 0
  | .stdin => v.stdin = [] ∧ v.stdinClosed = true
  | _ => False

section
variable {W : Type} (x : Env W) (s : Machine × W) (fd : ℤ) (key : DescKey)

/-- A poll for reading is right about a read of `len` bytes. -/
structure PolledRead (kind : DescKind) (len : ℕ) : Prop where
  ready : pollOne s.1.view key pollin &&& (pollin ||| pollhup) ≠ 0 ↔
    ((readBytes fd len).run (exec x) s).1 ≠ .error .block
  answers : ((readBytes fd len).run (exec x) s).1 ≠ .error .block →
    ∃ n buf, ((readBytes fd len).run (exec x) s).1 = .ok (n, buf) ∧ (0 < n ∨ n = 0 ∧ s.1.view.AtEnd kind)
  hangup : pollOne s.1.view key pollin &&& pollhup ≠ 0 → pollOne s.1.view key pollin &&& pollin = 0 →
    ∃ buf, ((readBytes fd len).run (exec x) s).1 = .ok (0, buf)

/-- A poll for writing is right about a write of `data`. -/
structure PolledWrite (data : Bytes) : Prop where
  ready : pollOne s.1.view key pollout &&& (pollout ||| pollerr) ≠ 0 ↔
    ((writeBytes fd data).run (exec x) s).1 ≠ .error .block
  broken : pollOne s.1.view key pollout &&& pollerr ≠ 0 →
    ((writeBytes fd data).run (exec x) s).1 = .error (.errno .pipe)

end

section
variable {W : Type} {x : Env W} {s : Machine × W} {fd : ℤ} {entry : Fd} {desc : Desc}

theorem run_readBytes (hopen : openFd s.1.view fd = .ok (entry, desc))
    (hreadable : desc.readable = true) {len : ℕ} (hlen : len ≠ 0) :
    (readBytes fd len).run (exec x) s = (readDesc s.1.view entry.desc desc len).run (exec x) s := by
  rw [readBytes_eq, if_neg hlen]
  change (lift (openFd s.1.view fd) >>= _ : Handler (ℕ × Bytes)).run (exec x) s = _
  rw [hopen, lift_ok, Program.ret_bind]
  simp only [hreadable, Bool.not_true, Bool.false_eq_true, if_false]
  rfl

/-- What a description of a kind is ready for, asked or not. -/
def View.readiness (v : View) : DescKind → ℕ
  | .pipeRead key => match v.pipes.get key with
    | some pipe => if pipe.data ≠ [] then pollin else if pipe.writers = 0 then pollhup else 0
    | none => 0
  | .pipeWrite key => match v.pipes.get key with
    | some pipe => if pipe.readers = 0 then pollerr else if 0 < pipe.room then pollout else 0
    | none => 0
  | .stdin => if v.stdin ≠ [] ∨ v.stdinClosed then pollin else 0
  | .stdout _ => pollout
  | _ => pollin ||| pollout

theorem pollOne_eq {v : View} {key : DescKey} (events : ℕ) (hdesc : v.descs.get key = some desc) :
    pollOne v key events = v.readiness desc.kind &&& (events ||| pollhup ||| pollerr ||| pollnval) := by
  unfold pollOne
  rw [hdesc]
  rfl

/-! ## Reading -/

theorem polledRead_ready {key : DescKey} {kind : DescKind} {len n : ℕ} {buf : Bytes}
    (hpoll : pollOne s.1.view key pollin = pollin ∨ pollOne s.1.view key pollin = pollhup ∧ n = 0)
    (hrun : ((readBytes fd len).run (exec x) s).1 = .ok (n, buf)) (hn : 0 < n ∨ n = 0 ∧ s.1.view.AtEnd kind) :
    PolledRead x s fd key kind len where
  ready := by
    rw [hrun]
    refine ⟨fun _ h => (by cases h), fun _ => ?_⟩
    rcases hpoll with hin | ⟨hhup, -⟩
    · rw [hin]
      decide
    · rw [hhup]
      decide
  answers _ := ⟨n, buf, hrun, hn⟩
  hangup hhup _ := by
    rcases hpoll with hin | ⟨-, rfl⟩
    · rw [hin] at hhup
      exact absurd rfl hhup
    · exact ⟨buf, hrun⟩

theorem polledRead_waiting {key : DescKey} {kind : DescKind} {len : ℕ}
    (hpoll : pollOne s.1.view key pollin = 0)
    (hrun : ((readBytes fd len).run (exec x) s).1 = .error .block) : PolledRead x s fd key kind len where
  ready := by
    rw [hrun, hpoll, Nat.zero_and]
    exact ⟨fun h => absurd rfl h, fun h => absurd rfl h⟩
  answers h := absurd hrun h
  hangup h := by
    rw [hpoll, Nat.zero_and] at h
    exact absurd rfl h

theorem polledRead_pipe (hopen : openFd s.1.view fd = .ok (entry, desc))
    (hblocking : desc.isNonblocking = false) (hreadable : desc.readable = true) {key : PipeKey}
    (hkind : desc.kind = .pipeRead key) {pipe : Pipe} (hpipe : s.1.view.pipes.get key = some pipe) {len : ℕ}
    (hlen : len ≠ 0) :
    PolledRead x s fd entry.desc desc.kind len := by
  have hrun := run_readBytes (x := x) hopen hreadable hlen
  have hpoll := pollOne_eq pollin (openFd_desc hopen)
  unfold View.readiness at hpoll
  unfold readDesc at hrun
  simp only [hkind, hpipe] at hrun hpoll
  by_cases hdata : pipe.data = []
  · simp only [hdata, if_true, ne_eq, not_true, if_false, hblocking, Bool.false_eq_true] at hrun hpoll
    by_cases hwriters : pipe.writers = 0
    · simp only [hwriters, if_true] at hrun hpoll
      apply polledRead_ready (n := 0) (.inr ⟨hpoll, rfl⟩)
      · rw [hrun]
        rfl
      · rw [hkind]
        exact .inr ⟨rfl, pipe, hpipe, hdata, hwriters⟩
    · simp only [hwriters, if_false] at hrun hpoll
      apply polledRead_waiting
      · rw [hpoll]
        rfl
      · rw [hrun]
        rfl
  · simp only [hdata, if_false, ne_eq, not_false_iff, if_true] at hrun hpoll
    have htaken : (Act.exec (.pipeTake key (min pipe.data.length len)) s.1).1 =
    pipe.data.take (min pipe.data.length len) := by
      have hsame : s.1.shared.pipes.get key = some pipe := hpipe
      simp only [Act.exec, hsame, Option.map_some, Option.getD_some]
    have hpos := List.length_pos_iff.mpr hdata
    apply polledRead_ready (.inl hpoll)
    · rw [hrun]
      rfl
    · left
      change 0 < (Act.exec (.pipeTake key (min pipe.data.length len)) s.1).1.length
      rw [htaken, List.length_take]
      omega

theorem polledRead_stdin (hopen : openFd s.1.view fd = .ok (entry, desc))
    (hblocking : desc.isNonblocking = false) (hreadable : desc.readable = true) (hkind : desc.kind = .stdin)
    {len : ℕ} (hlen : len ≠ 0) :
    PolledRead x s fd entry.desc desc.kind len := by
  have hrun := run_readBytes (x := x) hopen hreadable hlen
  have hpoll := pollOne_eq pollin (openFd_desc hopen)
  unfold View.readiness at hpoll
  unfold readDesc at hrun
  simp only [hkind] at hrun hpoll
  by_cases hdata : s.1.view.stdin = []
  · simp only [hdata, if_true, ne_eq, not_true, false_or, hblocking, Bool.false_eq_true,
      if_false] at hrun hpoll
    by_cases hclosed : s.1.view.stdinClosed = true
    · simp only [hclosed, if_true] at hrun hpoll
      apply polledRead_ready (n := 0) (.inl hpoll)
      · rw [hrun]
        rfl
      · rw [hkind]
        exact .inr ⟨rfl, hdata, hclosed⟩
    · simp only [hclosed] at hrun hpoll
      apply polledRead_waiting
      · rw [hpoll]
        rfl
      · rw [hrun]
        rfl
  · simp only [hdata, if_false, ne_eq, not_false_iff, true_or, if_true] at hrun hpoll
    have hpos := lineLength_pos hdata hlen
    have hle := lineLength_le_length s.1.view.stdin len
    apply polledRead_ready (.inl hpoll)
    · rw [hrun]
      rfl
    · left
      change 0 < (s.1.view.stdin.take (Machine.lineLength s.1.view.stdin len)).length
      rw [List.length_take]
      omega

/-! ## Writing -/

theorem run_writeBytes (hopen : openFd s.1.view fd = .ok (entry, desc)) (hwritable : desc.writable = true)
    {key : PipeKey} (hkind : desc.kind = .pipeWrite key) {p : Pipe}
    (hpipe : s.1.view.pipes.get key = some p) (data : Bytes) :
    (writeBytes fd data).run (exec x) s = (if p.readers = 0 then
        act (.raise sigpipe) >>= fun _ => fail .pipe
      else if p.room = 0 then
        if desc.isNonblocking then fail .again else .fail .block
      else
        act (.pipePut key (data.take (min p.room data.length))) >>= fun _ => .ret (min p.room data.length) :
      Handler ℕ).run (exec x) s := by
  unfold writeBytes
  change (lift (openFd s.1.view fd) >>= _ : Handler ℕ).run (exec x) s = _
  rw [hopen, lift_ok, Program.ret_bind]
  have hsame : (exec x (.act .view) s).1.pipes.get key = some p := hpipe
  simp only [hwritable, Bool.not_true, Bool.false_eq_true, if_false, hkind, hsame]

theorem polledWrite_pipe (hopen : openFd s.1.view fd = .ok (entry, desc))
    (hblocking : desc.isNonblocking = false) (hwritable : desc.writable = true) {key : PipeKey}
    (hkind : desc.kind = .pipeWrite key) {pipe : Pipe} (hpipe : s.1.view.pipes.get key = some pipe)
    (data : Bytes) : PolledWrite x s fd entry.desc data := by
  have hrun := run_writeBytes (x := x) hopen hwritable hkind hpipe data
  have hpoll := pollOne_eq pollout (openFd_desc hopen)
  unfold View.readiness at hpoll
  simp only [hkind, hpipe] at hpoll
  by_cases hreaders : pipe.readers = 0
  · simp only [hreaders, if_true] at hrun hpoll
    have hfails : ((writeBytes fd data).run (exec x) s).1 = .error (.errno .pipe) := by
      rw [hrun]
      rfl
    refine ⟨?_, fun _ => hfails⟩
    rw [hpoll, hfails]
    exact ⟨fun _ h => (by cases h), fun _ => by decide⟩
  by_cases hroom : pipe.room = 0
  · simp only [hreaders, hroom, lt_irrefl, if_false, if_true, hblocking, Bool.false_eq_true] at hrun hpoll
    have hblocks : ((writeBytes fd data).run (exec x) s).1 = .error .block := by
      rw [hrun]
      rfl
    refine ⟨?_, fun h => ?_⟩
    · rw [hpoll, hblocks]
      exact ⟨fun h => absurd rfl h, fun h => absurd rfl h⟩
    · rw [hpoll] at h
      exact absurd rfl h
  · simp only [hreaders, hroom, Nat.pos_of_ne_zero hroom, if_false, if_true] at hrun hpoll
    have hputs : ((writeBytes fd data).run (exec x) s).1 = .ok (min pipe.room data.length) := by
      rw [hrun]
      rfl
    refine ⟨?_, fun h => ?_⟩
    · rw [hpoll, hputs]
      exact ⟨fun _ h => (by cases h), fun _ => by decide⟩
    · rw [hpoll] at h
      exact absurd rfl h

/-- A write to the standard output fails or succeeds, and does not wait. -/
theorem polledWrite_stdout (hopen : openFd s.1.view fd = .ok (entry, desc)) {which : ℕ}
    (hkind : desc.kind = .stdout which) (data : Bytes) : PolledWrite x s fd entry.desc data := by
  have hpoll := pollOne_eq pollout (openFd_desc hopen)
  unfold View.readiness at hpoll
  simp only [hkind] at hpoll
  have hnever : ((writeBytes fd data).run (exec x) s).1 ≠ .error .block := by
    unfold writeBytes
    change ((lift (openFd s.1.view fd) >>= _ : Handler ℕ).run (exec x) s).1 ≠ _
    rw [hopen, lift_ok, Program.ret_bind]
    simp only [hkind]
    split
    · exact fun h => by cases h
    · exact fun h => by cases h
  refine ⟨?_, fun h => ?_⟩
  · rw [hpoll]
    exact ⟨fun _ => hnever, fun _ => by decide⟩
  · rw [hpoll] at h
    exact absurd rfl h

/-- Wherever a session comes, a poll of a pipe or a standard stream that is not
nonblocking is right about what a read or a write would find. -/
theorem poll_tells_truth {k : Kernel} {w : W} {p : Proc} (h : Reached x (fun _ _ => True) k w)
    (hopen : openFd (k.machineOf p).view fd = .ok (entry, desc)) (hblocking : desc.isNonblocking = false) :
    (desc.kind.isSource = true → ∀ len ≠ 0, PolledRead x (k.machineOf p, w) fd entry.desc desc.kind len) ∧
    (desc.kind.isSink = true → ∀ data, PolledWrite x (k.machineOf p, w) fd entry.desc data) := by
  have hfitted := reached_fitted h
  have hsuits := hfitted.suits entry.desc desc (openFd_desc hopen)
  have hpipe : ∀ key, desc.kind.pipe = some key → ∃ pipe, (k.machineOf p).view.pipes.get key = some pipe :=
      fun key hkey =>
    hfitted.plumbed.there (openFd_desc hopen) hkey
  unfold Desc.Suits at hsuits
  constructor
  · intro hsource len hlen
    cases hkind : desc.kind with
    | pipeRead key =>
      rw [hkind] at hsuits
      obtain ⟨pipe, hpipe⟩ := hpipe key (by rw [hkind]; rfl)
      rw [← hkind]
      exact polledRead_pipe (s := (k.machineOf p, w)) hopen hblocking hsuits hkind hpipe hlen
    | stdin =>
      rw [hkind] at hsuits
      rw [← hkind]
      exact polledRead_stdin (s := (k.machineOf p, w)) hopen hblocking hsuits hkind hlen
    | _ => simp [hkind, DescKind.isSource] at hsource
  · intro hsink data
    cases hkind : desc.kind with
    | pipeWrite key =>
      rw [hkind] at hsuits
      obtain ⟨pipe, hpipe⟩ := hpipe key (by rw [hkind]; rfl)
      exact polledWrite_pipe (s := (k.machineOf p, w)) hopen hblocking hsuits hkind hpipe data
    | stdout which => exact polledWrite_stdout (s := (k.machineOf p, w)) hopen hkind data
    | _ => simp [hkind, DescKind.isSink] at hsink

end

/-- A guest that makes a pipe and writes three bytes to it. -/
abbrev Env.pipesThree : Env (List GuestRun) :=
    Env.scripted (.startingWith (argWords [100, 0, 0, 0, 0, 0, 4, 0, 3, 0, 0, 0]))

/-- The poll says that the bytes are there, and a read of five does not block. -/
theorem poll_tells_truth_pipe : ∃ (k : Kernel) (w : List GuestRun) (p : Proc) (entry : Fd) (desc : Desc),
    Reached Env.pipesThree (fun _ _ => True) k w ∧ k.procs[0]? = some p ∧
    openFd (k.machineOf p).view 3 = .ok (entry, desc) ∧
    desc.kind = .pipeRead 0 ∧ pollOne (k.machineOf p).view entry.desc pollin = pollin ∧
    ((readBytes 3 5).run (exec Env.pipesThree) (k.machineOf p, w)).1 ≠ .error .block := by
  have hstart : Between Env.pipesThree (fun _ _ => True) ⟨_, none⟩ _ :=
    .start .oneMount 0 _ _ _ [⟨[.syscall 59 0, .syscall 64 24, .setjmp 0], none⟩] rfl
      (Program.along_of_forall _ (fun _ _ => trivial) _ _) rfl
  have hstep := Between.step _ _ _ _ 2 ⟨some 0, none⟩ .budget hstart
    (Program.along_of_forall _ (fun _ _ => trivial) _ _) rfl
  obtain ⟨k, w, p, entry, desc, hreached, hp, hopen, hblocking, hkind, hpoll⟩ :
    ∃ (k : Kernel) (w : List GuestRun) (p : Proc) (entry : Fd) (desc : Desc),
      Reached Env.pipesThree (fun _ _ => True) k w ∧ k.procs[0]? = some p ∧
      openFd (k.machineOf p).view 3 = .ok (entry, desc) ∧ desc.isNonblocking = false ∧
      desc.kind = .pipeRead 0 ∧
      pollOne (k.machineOf p).view entry.desc pollin = pollin :=
    ⟨_, _, _, _, _, .between _ _ hstep, rfl, rfl, by decide +kernel, by decide +kernel, by decide +kernel⟩
  have hread := (poll_tells_truth hreached hopen hblocking).1 (by rw [hkind]; rfl) 5 (by decide)
  refine ⟨k, w, p, entry, desc, hreached, hp, hopen, hkind, hpoll, hread.ready.mp ?_⟩
  rw [hpoll]
  decide

end Wasmux
