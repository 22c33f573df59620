import Wasmux.Launching

/-!
# What a script says

The first line of a script names its interpreter and an argument for it. An
`execve` goes by as much of that line as the first read hands over.
-/

set_option autoImplicit false

namespace Wasmux
open Effects Abi

/-- The interpreter, and the argument for it, on the first line of a file. -/
def firstLine (content : Bytes) : Option (Text × Option Text) :=
  (shebang content).map fun line =>
    ((splitAtSpace line).1, ((splitAtSpace line).2.map trim).filter fun extra => extra ≠ [])

def toldArgv (told : Text × Option Text) (path : Text) (argv : List Bytes) : List Bytes :=
  told.1 :: told.2.toList ++ path :: argv.drop 1

theorem toldArgv_inj {told other : Text × Option Text} {path : Text} {argv : List Bytes}
    (h : toldArgv told path argv = toldArgv other path argv) : told = other := by
  obtain ⟨interpreter, extra⟩ := told
  obtain ⟨interpreter', extra'⟩ := other
  have hlen := congrArg List.length h
  simp only [toldArgv, List.cons_append, List.cons.injEq] at h
  obtain ⟨rfl, hrest⟩ := h
  cases extra with
  | none =>
    cases extra' with
    | none => rfl
    | some text => simp [toldArgv] at hlen
  | some text =>
    cases extra' with
    | none => simp [toldArgv] at hlen
    | some text' =>
      obtain rfl : text = text' := (List.cons.inj hrest).1
      rfl

/-! ## Lines -/

theorem takeWhile_stops {α : Type} {p : α → Bool} {l : List α} {a : α} (ha : a ∈ l) (hp : p a = false)
    (rest : List α) :
    (l ++ rest).takeWhile p = l.takeWhile p := by
  induction l with
  | nil => cases ha
  | cons b l ih =>
    rw [List.cons_append, List.takeWhile_cons, List.takeWhile_cons]
    split
    · rename_i hb
      rcases List.mem_cons.mp ha with rfl | hmem
      · rw [hp] at hb
        cases hb
      · rw [ih hmem]
    · rfl

/-- A head that reaches past the first line has the line. -/
theorem shebang_of_line {head : Bytes} (h : 0x0A ∈ head) (rest : Bytes) :
    shebang (head ++ rest) = shebang head := by
  have hmark : ascii "#!" = [0x23, 0x21] := rfl
  unfold shebang stripPrefix
  rw [hmark]
  rcases head with _ | ⟨a, _ | ⟨b, more⟩⟩
  · cases h
  · obtain rfl : 0x0A = a := List.mem_singleton.mp h
    rfl
  · simp only [List.cons_append, List.isPrefixOf_cons_cons, List.isPrefixOf_nil_left, Bool.and_true]
    by_cases hstart : (0x23 == a && (0x21 == b)) = true
    · rw [if_pos hstart, if_pos hstart]
      obtain ⟨ha, hb⟩ : 0x23 = a ∧ 0x21 = b := by simpa using hstart
      have hmore : 0x0A ∈ more := by
        subst ha hb
        simpa using h
      have htake := takeWhile_stops (p := fun c => c != 0x0A) hmore rfl rest
      simp only [List.length_cons, List.length_nil, List.drop_succ_cons, List.drop_zero, htake]
    · rw [if_neg hstart, if_neg hstart]

/-- A character that is no white space and takes one byte. -/
def printable (b : Byte) : Prop := 0x21 ≤ b ∧ b ≤ 0x7E

theorem spaceWidth_printable {b : Byte} (h : printable b) (rest : Text) : spaceWidth (b :: rest) = 0 := by
  have hspace : ¬ ((0x09 ≤ b ∧ b ≤ 0x0D) ∨ b = 0x20) := by
    rintro (⟨-, hle⟩ | rfl)
    · exact absurd (UInt8.le_trans h.1 hle) (by decide)
    · exact absurd h.1 (by decide)
  have hlead : ∀ c : Byte, ¬ c ≤ 0x7E → b ≠ c := by
    rintro c hc rfl
    exact hc h.2
  unfold spaceWidth
  dsimp only
  rw [if_neg hspace]
  split
  · rw [if_neg fun hb => hlead 0xC2 (by decide) hb.1]
    split
    · rw [if_neg fun hb => hlead 0xE1 (by decide) hb.1, if_neg fun hb => hlead 0xE2 (by decide) hb.1,
        if_neg fun hb => hlead 0xE2 (by decide) hb.1, if_neg fun hb => hlead 0xE3 (by decide) hb.1]
    · rfl
  · rfl

theorem trimStart_printable {b : Byte} (h : printable b) (rest : Text) :
    trimStart (b :: rest) = b :: rest := by
  rw [trimStart, List.length_cons, trimStartFrom, if_pos (spaceWidth_printable h rest)]

theorem trimEnd_printable {text : Text} (h : ∀ b ∈ text, printable b) (rest : Text) :
    trimEnd (text ++ rest) = text ++ trimEnd rest := by
  induction text with
  | nil => rfl
  | cons b text ih =>
    rw [List.cons_append, trimEnd, trimStart_printable (h b List.mem_cons_self),
      if_neg (List.cons_ne_nil _ _), ih fun c hc => h c (List.mem_cons_of_mem b hc), List.cons_append]

theorem splitAtSpace_printable {text : Text} (h : ∀ b ∈ text, printable b) (rest : Text) :
    splitAtSpace (text ++ 0x20 :: rest) = (text, some rest) := by
  induction text with
  | nil => rfl
  | cons b text ih =>
    rw [List.cons_append, splitAtSpace,
      if_neg (not_not.mpr (spaceWidth_printable (h b List.mem_cons_self) _)), ih fun c hc =>
      h c (List.mem_cons_of_mem b hc)]

theorem lossyFrom_ascii {text : Text} (h : ∀ b ∈ text, b ≤ 0x7F) (turns : ℕ) (hturns : text.length ≤ turns) :
    lossyFrom turns text = text := by
  induction text generalizing turns with
  | nil => cases turns <;> rfl
  | cons b text ih =>
    cases turns with
    | zero => simp at hturns
    | succ turns =>
      have hspan : seqSpan b text = (1, true) := by
        have hwidth : seqWidth b = 1 := if_pos (h b List.mem_cons_self)
        unfold seqSpan
        rw [hwidth]
        cases text <;> rfl
      rw [lossyFrom, hspan]
      have hrest := ih (fun c hc => h c (List.mem_cons_of_mem b hc)) turns (by simpa using hturns)
      simp only [if_true, List.take_succ_cons, List.take_zero, List.drop_succ_cons, List.drop_zero, hrest,
        List.singleton_append]

/-- A line of an interpreter, a space and an argument says just that. -/
theorem firstLine_plain {interpreter extra tail : Text} (hi : ∀ b ∈ interpreter, printable b)
    (hne : interpreter ≠ []) (he : ∀ b ∈ extra, printable b) (hextra : extra ≠ [])
    (htail : ∀ b rest, tail = b :: rest → b = 0x0A) :
    firstLine (ascii "#!" ++ (interpreter ++ 0x20 :: extra) ++ tail) = some (interpreter, some extra) := by
  have hbytes : ∀ b ∈ interpreter ++ 0x20 :: extra, b ≤ 0x7F ∧ (b != 0x0A) = true := by
    intro b hb
    have hprintable : ∀ c, printable c → c ≤ 0x7F ∧ (c != 0x0A) = true := fun c hc =>
      ⟨UInt8.le_trans hc.2 (by decide), bne_iff_ne.mpr fun heq => by
        rw [heq] at hc
        exact absurd hc.1 (by decide)⟩
    rcases List.mem_append.mp hb with hb | hb
    · exact hprintable b (hi b hb)
    · rcases List.mem_cons.mp hb with rfl | hb
      · decide
      · exact hprintable b (he b hb)
  have hline : (interpreter ++ 0x20 :: extra ++ tail).takeWhile
      (fun b => b != 0x0A) = interpreter ++ 0x20 :: extra := by
    rw [List.takeWhile_append_of_pos fun b hb => (hbytes b hb).2]
    cases tail with
    | nil => simp
    | cons b rest =>
      rw [htail b rest rfl, List.takeWhile_cons, if_neg (by decide), List.append_nil]
  have hstart : stripPrefix (ascii "#!") (ascii "#!" ++ (interpreter ++ 0x20 :: extra) ++ tail) =
      some (interpreter ++ 0x20 :: extra ++ tail) := by
    have hmark : ascii "#!" = [0x23, 0x21] := rfl
    rw [hmark]
    rfl
  have htrimExtra : trim extra = extra := by
    obtain ⟨c, cs, rfl⟩ := List.exists_cons_of_ne_nil hextra
    rw [trim, trimStart_printable (he c List.mem_cons_self)]
    have hend := trimEnd_printable he []
    rwa [List.append_nil, trimEnd, List.append_nil] at hend
  have htrim : trim (interpreter ++ 0x20 :: extra) = interpreter ++ 0x20 :: extra := by
    have hlast : trimEnd (0x20 :: extra) = 0x20 :: extra := by
      have hstays : trimStart (0x20 :: extra) = trimStart extra := rfl
      have hend := trimEnd_printable he []
      rw [List.append_nil, trimEnd, List.append_nil] at hend
      obtain ⟨c, cs, rfl⟩ := List.exists_cons_of_ne_nil hextra
      rw [trimEnd, hstays, trimStart_printable (he c List.mem_cons_self), if_neg (List.cons_ne_nil _ _), hend]
    obtain ⟨c, cs, rfl⟩ := List.exists_cons_of_ne_nil hne
    rw [trim, List.cons_append, trimStart_printable (hi c List.mem_cons_self), ← List.cons_append,
      trimEnd_printable hi, hlast]
  have hshebang : shebang (ascii "#!" ++ (interpreter ++ 0x20 :: extra) ++ tail) =
      some (interpreter ++ 0x20 :: extra) := by
    have hlossy : fromUtf8Lossy (interpreter ++ 0x20 :: extra) = interpreter ++ 0x20 :: extra :=
      lossyFrom_ascii (fun b hb => (hbytes b hb).1) _ (le_refl _)
    unfold shebang
    simp only [hstart, hline, hlossy, htrim]
    exact if_neg (by simp)
  rw [firstLine, hshebang, Option.map_some, splitAtSpace_printable hi, Option.map_some, htrimExtra,
    Option.filter_some, if_pos (by simpa using hextra)]

/-! ## Starting what is told -/

namespace Sys

def interpreted (path : Text) (argv envp : List Bytes) (told : Text × Option Text) :
    Handler (ProgramId × Given) := do
  match ← resolve atFdcwd told.1 true with
  | .program id guest => return (id, ⟨toldArgv told path argv, envp, guest⟩)
  | _ => fail .noexec

theorem interpreter_none {head : Bytes} (h : firstLine head = none) (path : Text) (argv envp : List Bytes) :
    interpreter path argv envp head = fail .noexec := by
  unfold interpreter
  rw [Option.map_eq_none_iff.mp h]

theorem interpreter_some {head : Bytes} {told : Text × Option Text} (h : firstLine head = some told)
    (path : Text) (argv envp : List Bytes) :
    interpreter path argv envp head = interpreted path argv envp told := by
  obtain ⟨line, hline, rfl⟩ := Option.map_eq_some_iff.mp h
  unfold interpreter
  rw [hline]
  rfl

end Sys

section
variable {W : Type} {x : Env W} {m m' : Machine} {w w' : W} {number : ℤ} {a : Args} {path rel guest : Text}
  {argv envp : List Bytes} {mount : ℕ} {s : Machine × W} {r : Except Fault ℤ} {content : Bytes}
  {told : Text × Option Text}

/-- An `execve` of a file that tells of an interpreter starts the program that
this is, with the arguments it is to have, or fails and leaves the caller as it was. -/
def EndsAsTold (x : Env W) (m : Machine) (s : Machine × W) (mount : ℕ) (rel path : Text)
    (argv envp : List Bytes) (told : Text × Option Text) (r : Except Fault ℤ) (m' : Machine) : Prop :=
  (∃ f, f ≠ .exec ∧ r = .error f ∧ m.Noting m') ∨
  ∃ head t, (Sys.mountedHead mount rel).run (exec x) s = (.ok head, t) ∧
    ∃ id guest, ((resolve atFdcwd told.1 true).run (exec x) t).1 = .ok (.program id guest) ∧
      r = (if m.ctx.vforkStack = [] then .error .exec else .ok m.ctx.task.pid) ∧
      m' = (t.1.finishExec id guest (toldArgv told path argv) envp).2

theorem finishExec_argv {id id' : ProgramId} {exe exe' : Text} {argv' envp' : List Bytes}
    (h : (m.finishExec id exe argv envp).2 = (m.finishExec id' exe' argv' envp').2) : argv = argv' := by
  unfold Machine.finishExec at h
  dsimp only at h
  cases hstack : m.ctx.vforkStack with
  | nil =>
    simp only [hstack] at h
    have hrequest := congrArg (fun m => m.ctx.execRequest.map Spawn.argv) h
    exact Option.some.inj hrequest
  | cons parent rest =>
    simp only [hstack] at h
    have hqueue := congrArg (fun m => m.shared.spawn.getLast?.map Spawn.argv) h
    simpa using hqueue

/-- An `execve` of what is mounted goes by the head of it. -/
theorem run_execve_mounted (hcall : Nr.ofInt number = .execve)
    (hpath : m.inst.mem.cstr (asU32 a.a0) = .ok path) (hargv : m.inst.mem.cstrArray (asU32 a.a1) = .ok argv)
    (henvp : m.inst.mem.cstrArray (asU32 a.a2) = .ok envp)
    (hfound : (resolve atFdcwd path true).run (exec x) (m, w) = (.ok (.mounted mount rel guest), s)) :
    (handle number a).run (exec x) (m, w) =
      (Sys.mountedHead mount rel >>= fun head => Sys.interpreter path argv envp head >>= Sys.start).run
      (exec x) s := by
  have hhandle : handle number a = Sys.sought a >>= Sys.start := by
    unfold handle
    rw [hcall]
    exact Sys.execve_eq a
  rw [hhandle, ← Program.bind_assoc]
  unfold Sys.sought
  change Program.run (exec x) ((lift (m.inst.mem.cstr (asU32 a.a0)) >>= _) >>= Sys.start) (m, w) = _
  rw [hpath, lift_ok, Program.ret_bind]
  change Program.run (exec x) ((lift (m.inst.mem.cstrArray (asU32 a.a1)) >>= _) >>= Sys.start) (m, w) = _
  rw [hargv, lift_ok, Program.ret_bind]
  change Program.run (exec x) ((lift (m.inst.mem.cstrArray (asU32 a.a2)) >>= _) >>= Sys.start) (m, w) = _
  rw [henvp, lift_ok, Program.ret_bind, Program.bind_assoc]
  exact Program.run_bind_ok (exec x) hfound

variable (path argv envp) in
theorem run_interpreted {t : Machine × W} {id : ProgramId}
    (h : ((resolve atFdcwd told.1 true).run (exec x) t).1 = .ok (.program id guest)) :
    ∃ w', (Sys.interpreted path argv envp told >>= Sys.start).run (exec x) t =
      (if t.1.ctx.vforkStack = [] then .error .exec else .ok t.1.ctx.task.pid,
        ((t.1.finishExec id guest (toldArgv told path argv) envp).2, w')) := by
  obtain ⟨m, w⟩ := t
  obtain ⟨⟨w₁, hresolve⟩, -⟩ := resolve_program h
  obtain ⟨w', hfinish⟩ := run_finishExec (x := x) id guest (toldArgv told path argv) envp m w₁
  refine ⟨w', ?_⟩
  rw [← finishExec_answer, ← hfinish]
  unfold Sys.interpreted
  rw [Program.bind_assoc]
  exact Program.run_bind_ok (exec x) hresolve

variable (path argv envp) in
/-- Nothing else is started. -/
theorem refused_interpreted {t : Machine × W}
    (h : ∀ id guest, ((resolve atFdcwd told.1 true).run (exec x) t).1 ≠ .ok (.program id guest)) :
    ∃ f t', f.refuses ∧ (Sys.interpreted path argv envp told >>= Sys.start).run (exec x) t = (.error f, t') ∧
      t.1.Noting t'.1 := by
  unfold Sys.interpreted
  rw [Program.bind_assoc]
  cases hrun : (resolve atFdcwd told.1 true).run (exec x) t with
  | mk found t' =>
    have hnoting := noting_of_run (inquires_of_looks (looks_resolve _ _ _)) hrun
    cases found with
    | error f =>
      have hrefuses := (refuses_resolve _ _ _).run_error (exec x) (congrArg Prod.fst hrun)
      exact ⟨f, t', hrefuses, Program.run_bind_error (exec x) hrun, hnoting⟩
    | ok node =>
      rw [Program.run_bind_ok (exec x) hrun]
      cases node with
      | program id guest => exact absurd (congrArg Prod.fst hrun) (h id guest)
      | _ => exact ⟨.errno .noexec, t', trivial, rfl, hnoting⟩

theorem Fault.refuses.not_exec {f : Fault} (h : f.refuses) : f ≠ .exec := by
  rintro rfl
  exact h

theorem endsAsTold_iff {head : Bytes} {t : Machine × W} {other : Text × Option Text}
    (hhead : (Sys.mountedHead mount rel).run (exec x) s = (.ok head, t)) (hnoting : m.Noting t.1)
    (hrun : (Sys.interpreted path argv envp other >>= Sys.start).run (exec x) t = (r, (m', w'))) :
    EndsAsTold x m s mount rel path argv envp told r m' ↔
      other = told ∨ ∀ id guest, ((resolve atFdcwd other.1 true).run (exec x) t).1 ≠
      .ok (.program id guest) := by
  by_cases hprogram : ∃ id guest, ((resolve atFdcwd other.1 true).run (exec x) t).1 = .ok (.program id guest)
  · obtain ⟨id, guest, hfound⟩ := hprogram
    obtain ⟨w₁, hstarts⟩ := run_interpreted path argv envp hfound
    obtain ⟨hr, hend⟩ := Prod.mk.inj (hrun.symm.trans hstarts)
    obtain ⟨rfl, -⟩ := Prod.mk.inj hend
    rw [hnoting.ctx] at hr
    constructor
    · rintro (⟨f, hf, hfails, -⟩ | ⟨head', t', hhead', id', guest', -, -, hm⟩)
      · rw [hr] at hfails
        split at hfails
        · exact absurd (Except.error.inj hfails).symm hf
        · cases hfails
      · obtain ⟨-, rfl⟩ := Prod.mk.inj (hhead.symm.trans hhead')
        exact .inl (toldArgv_inj (finishExec_argv hm))
    · rintro (rfl | hnone)
      · exact .inr ⟨head, t, hhead, id, guest, hfound, hr, rfl⟩
      · exact absurd hfound (hnone id guest)
  · have hnone : ∀ id guest, ((resolve atFdcwd other.1 true).run (exec x) t).1 ≠ .ok (.program id guest) :=
      fun id guest hfound => hprogram ⟨id, guest, hfound⟩
    obtain ⟨f, t', hrefuses, hfails, hsame⟩ := refused_interpreted path argv envp hnone
    obtain ⟨rfl, rfl⟩ := Prod.mk.inj (hrun.symm.trans hfails)
    exact iff_of_true (.inl ⟨f, hrefuses.not_exec, rfl, hnoting.trans hsame⟩) (.inr hnone)

/-- An `execve` of a script ends as the whole first line tells if and only if
what the first read hands over tells the same, or of no program. It does if
that reaches past the line, or is the whole file. -/
theorem script_told_iff (hcall : Nr.ofInt number = .execve) (hpath : m.inst.mem.cstr (asU32 a.a0) = .ok path)
    (hargv : m.inst.mem.cstrArray (asU32 a.a1) = .ok argv)
    (henvp : m.inst.mem.cstrArray (asU32 a.a2) = .ok envp)
    (hfound : (resolve atFdcwd path true).run (exec x) (m, w) = (.ok (.mounted mount rel guest), s))
    (hscript : firstLine content = some told) (hrun : (handle number a).run (exec x) (m, w) = (r, (m', w'))) :
    (EndsAsTold x m s mount rel path argv envp told r m' ↔
      ∀ head t other, (Sys.mountedHead mount rel).run (exec x) s = (.ok head, t) →
      firstLine head = some other →
        other = told ∨ ∀ id guest, ((resolve atFdcwd other.1 true).run (exec x) t).1 ≠
        .ok (.program id guest)) ∧
    ((∀ head t, (Sys.mountedHead mount rel).run (exec x) s = (.ok head, t) →
      head <+: content ∧ (0x0A ∈ head ∨ head = content)) →
      EndsAsTold x m s mount rel path argv envp told r m') := by
  have hiff : EndsAsTold x m s mount rel path argv envp told r m' ↔
      ∀ head t other, (Sys.mountedHead mount rel).run (exec x) s = (.ok head, t) →
      firstLine head = some other →
        other = told ∨ ∀ id guest, ((resolve atFdcwd other.1 true).run (exec x) t).1 ≠
        .ok (.program id guest) := by
    have hbefore : m.Noting s.1 :=
      noting_of_run (s := (m, w)) (inquires_of_looks (looks_resolve _ _ _)) hfound
    rw [run_execve_mounted hcall hpath hargv henvp hfound] at hrun
    cases hhead : (Sys.mountedHead mount rel).run (exec x) s with
    | mk found t =>
      have hnoting : m.Noting t.1 := hbefore.trans (noting_of_run (Sys.inquires_mountedHead mount rel) hhead)
      cases found with
      | error f =>
        rw [Program.run_bind_error (exec x) hhead] at hrun
        obtain ⟨rfl, rfl⟩ := Prod.mk.inj hrun
        have hrefuses := (Sys.refuses_mountedHead mount rel).run_error (exec x) (congrArg Prod.fst hhead)
        refine iff_of_true (.inl ⟨f, hrefuses.not_exec, rfl, hnoting⟩) fun head t' other hrun' => ?_
        cases hrun'
      | ok head =>
        rw [Program.run_bind_ok (exec x) hhead] at hrun
        cases hline : firstLine head with
        | none =>
          rw [Sys.interpreter_none hline] at hrun
          obtain ⟨rfl, rfl⟩ := Prod.mk.inj hrun
          have hnot : Fault.errno .noexec ≠ .exec := nofun
          refine iff_of_true (.inl ⟨_, hnot, rfl, hnoting⟩) fun head' t' other hrun' hother => ?_
          obtain rfl := Except.ok.inj (Prod.mk.inj hrun').1
          cases hline.symm.trans hother
        | some other =>
          rw [Sys.interpreter_some hline] at hrun
          rw [endsAsTold_iff hhead hnoting hrun]
          constructor
          · intro h head' t' other' hrun' hother
            obtain ⟨rfl, rfl⟩ : head = head' ∧ t = t' := by simpa using hrun'
            obtain rfl := Option.some.inj (hline.symm.trans hother)
            exact h
          · exact fun h => h head _ other rfl hline
  refine ⟨hiff, fun hwhole => hiff.mpr fun head t other hhead hother => .inl ?_⟩
  obtain ⟨⟨rest, hrest⟩, hline | hall⟩ := hwhole head t hhead
  · have hsame : firstLine (head ++ rest) = firstLine head :=
      congrArg (Option.map _) (shebang_of_line hline rest)
    rw [hrest] at hsame
    exact Option.some.inj (hother.symm.trans (hsame.symm.trans hscript))
  · rw [hall] at hother
    exact Option.some.inj (hother.symm.trans hscript)

end

/-- A store with one file, that a read hands over from its start. -/
def Env.script (content : Bytes) : Env Unit :=
  { Env.still Unit with
    vfs := fun _ call w => match call with
      | .stat path _ => (if path = ascii "/s" then .ok (.file content.length) else .error .noent, w)
      | .openFile _ _ => (.ok (0 : ℕ), w)
      | _ => (.error .noent, w)
    file := fun _ call w => match call with
      | .read len => (.ok ((content.take len).length, content.take len), w)
      | .close => (.ok (), w)
      | _ => (.error .badf, w) }

/-- A process with the path of the file at four, and a vector of it alone at eight. -/
def Machine.script : Machine :=
  { Config.oneMount.machine with
    inst := ⟨.startingWith ([0, 0, 0, 0] ++ ascii "/s" ++ [0, 0] ++ toLe 4 4 ++ toLe 4 0), 0, false⟩ }

theorem script_arguments : Machine.script.inst.mem.cstr (asU32 4) = .ok (ascii "/s") ∧
    Machine.script.inst.mem.cstrArray (asU32 8) = .ok [ascii "/s"] ∧
    Machine.script.inst.mem.cstrArray (asU32 0) = .ok [] := by decide +kernel

theorem execve_number : Nr.ofInt 221 = .execve := by decide

/-- A line of an interpreter and an argument of so many characters. -/
def lineOf (n : ℕ) : Bytes := ascii "#!" ++ (ascii "/bin/0" ++ 0x20 :: List.replicate n 0x61)

theorem firstLine_lineOf (n : ℕ) (tail : Bytes) (htail : ∀ b rest, tail = b :: rest → b = 0x0A) :
    firstLine (lineOf (n + 1) ++ tail) = some (ascii "/bin/0", some (List.replicate (n + 1) 0x61)) := by
  have hletters : ∀ b ∈ ascii "/bin/0", printable b := by
    unfold printable
    decide +kernel
  have ha : printable 0x61 := ⟨by decide, by decide⟩
  refine firstLine_plain hletters (by decide) (fun b hb => ?_) (by simp) htail
  rw [(List.mem_replicate.mp hb).2]
  exact ha

/-- A script whose line is read whole runs as told. -/
theorem script_told_iff_short : ∃ (s t : Machine × Unit) (r : Except Fault ℤ),
    (resolve atFdcwd (ascii "/s") true).run (exec (Env.script (lineOf 1))) (.script, ()) =
      (.ok (.mounted 0 (ascii "/s") (ascii "/s")), s) ∧
    (handle 221 ⟨4, 8, 0, 0, 0, 0⟩).run (exec (Env.script (lineOf 1))) (.script, ()) = (r, t) ∧
    EndsAsTold (Env.script (lineOf 1)) .script s 0 (ascii "/s") (ascii "/s") [ascii "/s"] []
    (ascii "/bin/0", some [0x61]) r t.1 := by
  have hresolve : ((resolve atFdcwd (ascii "/s") true).run (exec (Env.script (lineOf 1))) (.script, ())).1 =
      .ok (.mounted 0 (ascii "/s") (ascii "/s")) := by decide +kernel
  have hread : ((Sys.mountedHead 0 (ascii "/s")).run (exec (Env.script (lineOf 1)))
      ((resolve atFdcwd (ascii "/s") true).run (exec (Env.script (lineOf 1))) (.script, ())).2).1 =
      .ok (lineOf 1) := by
    decide +kernel
  cases hfound : (resolve atFdcwd (ascii "/s") true).run (exec (Env.script (lineOf 1)))
    (.script, ()) with | mk found s
  rw [hfound] at hresolve hread
  cases hrun : (handle 221 ⟨4, 8, 0, 0, 0, 0⟩).run (exec (Env.script (lineOf 1))) (.script, ()) with | mk r t
  obtain rfl : found = .ok (.mounted 0 (ascii "/s") (ascii "/s")) := hresolve
  have htold : firstLine (lineOf 1) = some (ascii "/bin/0", some [0x61]) := by
    have hline := firstLine_lineOf 0 [] fun b rest h => by cases h
    rwa [List.append_nil] at hline
  obtain ⟨hpath, hargv, henvp⟩ := script_arguments
  have hwhole := (script_told_iff execve_number hpath hargv henvp hfound htold hrun).2
  refine ⟨s, t, r, rfl, rfl, hwhole fun head t' hhead => ?_⟩
  obtain rfl : lineOf 1 = head := Except.ok.inj (hread.symm.trans (congrArg Prod.fst hhead))
  exact ⟨List.prefix_refl _, .inr rfl⟩

/-- The interpreter of a script with a longer line is started with what the
first 256 bytes have of the argument. -/
theorem script_truncated : ∃ (s t : Machine × Unit) (r : Except Fault ℤ),
    firstLine (lineOf 300 ++ [0x0A]) = some (ascii "/bin/0", some (List.replicate 300 0x61)) ∧
    (resolve atFdcwd (ascii "/s") true).run (exec (Env.script (lineOf 300 ++ [0x0A]))) (.script, ()) =
      (.ok (.mounted 0 (ascii "/s") (ascii "/s")), s) ∧
    (handle 221 ⟨4, 8, 0, 0, 0, 0⟩).run (exec (Env.script (lineOf 300 ++ [0x0A]))) (.script, ()) = (r, t) ∧
    t.1.ctx.execRequest.map Spawn.argv = some [ascii "/bin/0", List.replicate 247 0x61, ascii "/s"] ∧
    ¬ EndsAsTold (Env.script (lineOf 300 ++ [0x0A])) .script s 0 (ascii "/s") (ascii "/s") [ascii "/s"] []
      (ascii "/bin/0", some (List.replicate 300 0x61)) r t.1 := by
  have hresolve : ((resolve atFdcwd (ascii "/s") true).run (exec (Env.script (lineOf 300 ++ [0x0A])))
    (.script, ())).1 =
      .ok (.mounted 0 (ascii "/s") (ascii "/s")) := by decide +kernel
  have hread : ((Sys.mountedHead 0 (ascii "/s")).run (exec (Env.script (lineOf 300 ++ [0x0A])))
      ((resolve atFdcwd (ascii "/s") true).run (exec (Env.script (lineOf 300 ++ [0x0A])))
        (.script, ())).2).1 =
        .ok (lineOf 247) := by decide +kernel
  have hprogram : ((resolve atFdcwd (ascii "/bin/0") true).run (exec (Env.script (lineOf 300 ++ [0x0A])))
      ((Sys.mountedHead 0 (ascii "/s")).run (exec (Env.script (lineOf 300 ++ [0x0A])))
        ((resolve atFdcwd (ascii "/s") true).run (exec (Env.script (lineOf 300 ++ [0x0A])))
          (.script, ())).2).2).1 =
          .ok (.program 0 (ascii "/bin/0")) := by decide +kernel
  have hargv' : ((handle 221 ⟨4, 8, 0, 0, 0, 0⟩).run (exec (Env.script (lineOf 300 ++ [0x0A])))
      (.script, ())).2.1.ctx.execRequest.map Spawn.argv =
        some [ascii "/bin/0", List.replicate 247 0x61, ascii "/s"] := by decide +kernel
  cases hfound : (resolve atFdcwd (ascii "/s") true).run (exec (Env.script (lineOf 300 ++ [0x0A])))
      (.script, ()) with
  | mk found s
  rw [hfound] at hresolve hread hprogram
  obtain rfl : found = .ok (.mounted 0 (ascii "/s") (ascii "/s")) := hresolve
  cases hhead : (Sys.mountedHead 0 (ascii "/s")).run (exec (Env.script (lineOf 300 ++ [0x0A])))
    s with | mk head t'
  rw [hhead] at hread hprogram
  obtain rfl : head = .ok (lineOf 247) := hread
  cases hrun : (handle 221 ⟨4, 8, 0, 0, 0, 0⟩).run (exec (Env.script (lineOf 300 ++ [0x0A])))
    (.script, ()) with | mk r t
  rw [hrun] at hargv'
  have htold := firstLine_lineOf 299 [0x0A] fun b rest h => (List.cons.inj h).1.symm
  have hother : firstLine (lineOf 247) = some (ascii "/bin/0", some (List.replicate 247 0x61)) := by
    have hline := firstLine_lineOf 246 [] fun b rest h => by cases h
    rwa [List.append_nil] at hline
  refine ⟨s, t, r, htold, rfl, rfl, hargv', fun hends => ?_⟩
  have hnoting := (noting_of_run (inquires_of_looks (looks_resolve _ _ _)) hfound).trans
    (noting_of_run (Sys.inquires_mountedHead 0 (ascii "/s")) hhead)
  obtain ⟨hpath, hargv, henvp⟩ := script_arguments
  rw [run_execve_mounted execve_number hpath hargv henvp hfound, Program.run_bind_ok _ hhead,
    Sys.interpreter_some hother] at hrun
  rcases (endsAsTold_iff hhead hnoting hrun).mp hends with hsame | hnone
  · have hlen := congrArg List.length (Option.some.inj (Prod.mk.inj hsame).2)
    rw [List.length_replicate, List.length_replicate] at hlen
    omega
  · exact hnone 0 (ascii "/bin/0") hprogram

end Wasmux
