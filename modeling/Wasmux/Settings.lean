import Wasmux.Feeding
import Wasmux.Waiting

/-!
# The terminal is a register

A process that sets the terminal hands over 36 bytes, and whoever asks for the
settings later is given these bytes back, until somebody sets it again.
-/

set_option autoImplicit false

namespace Wasmux
open Effects Abi Sys

theorem toLe_ofLe (bytes : Bytes) : toLe bytes.length (ofLe bytes) = bytes := by
  induction bytes with
  | nil => rfl
  | cons b rest ih =>
    have hlow : (b.toNat + 256 * ofLe rest) % 256 = b.toNat := by
      rw [Nat.add_mul_mod_self_left, Nat.mod_eq_of_lt b.toNat_lt]
    have hhigh : (b.toNat + 256 * ofLe rest) / 256 = ofLe rest := by
      rw [Nat.add_mul_div_left _ _ (by decide), Nat.div_eq_of_lt b.toNat_lt, Nat.zero_add]
    rw [List.length_cons, ofLe, toLe, hlow, hhigh, ih]
    congr 1
    exact UInt8.ofNat_toNat

namespace Termios

/-- The four words and the control characters have the width they have in a `struct termios`. -/
structure Fits (t : Termios) : Prop where
  iflag : t.iflag < 256 ^ 4
  oflag : t.oflag < 256 ^ 4
  cflag : t.cflag < 256 ^ 4
  lflag : t.lflag < 256 ^ 4
  cc : t.cc.length = nccsKernel

theorem fits_cooked : cooked.Fits := by
  constructor <;> decide

theorem encode_length {t : Termios} (h : t.Fits) : t.encode.length = termiosBytes := by
  simp only [encode, List.length_append, toLe_length, h.cc, List.length_singleton]
  rfl

theorem word_at (before after : Bytes) {n : ℕ} (hn : n < 256 ^ 4) :
    ofLe (((before ++ (toLe 4 n ++ after)).drop before.length).take 4) = n := by
  rw [List.drop_left, List.take_left' (toLe_length 4 n), ofLe_toLe, Nat.mod_eq_of_lt hn]

/-- What is encoded is read back as it was. -/
theorem decode_encode {t : Termios} (h : t.Fits) : decode t.encode = some t := by
  have hlength := encode_length h
  have hfirst : t.encode = [] ++
      (toLe 4 t.iflag ++ (toLe 4 t.oflag ++ toLe 4 t.cflag ++ toLe 4 t.lflag ++ [t.line] ++ t.cc)) := by
    simp [encode]
  have hsecond : t.encode = toLe 4 t.iflag ++
      (toLe 4 t.oflag ++ (toLe 4 t.cflag ++ toLe 4 t.lflag ++ [t.line] ++ t.cc)) := by
    simp [encode]
  have hthird : t.encode = (toLe 4 t.iflag ++ toLe 4 t.oflag) ++
      (toLe 4 t.cflag ++ (toLe 4 t.lflag ++ [t.line] ++ t.cc)) := by
    simp [encode]
  have hfourth : t.encode = (toLe 4 t.iflag ++ toLe 4 t.oflag ++ toLe 4 t.cflag) ++
      (toLe 4 t.lflag ++ ([t.line] ++ t.cc)) := by
    simp [encode]
  have hflags : (toLe 4 t.iflag ++ toLe 4 t.oflag ++ toLe 4 t.cflag ++ toLe 4 t.lflag).length = 16 := by
    simp [toLe_length]
  have hline : t.encode[16]? = some t.line := by
    rw [encode, List.append_assoc, List.getElem?_append_right hflags.le, hflags]
    rfl
  have hcc : (t.encode.drop 17).take nccsKernel = t.cc := by
    rw [encode, List.drop_left' (by simp [toLe_length]), List.take_of_length_le h.cc.le]
  have hwords : ofLe ((t.encode.drop 0).take 4) = t.iflag ∧ ofLe ((t.encode.drop 4).take 4) = t.oflag ∧
      ofLe ((t.encode.drop 8).take 4) = t.cflag ∧ ofLe ((t.encode.drop 12).take 4) = t.lflag := by
    refine ⟨?_, ?_, ?_, ?_⟩
    · rw [hfirst]
      exact word_at [] _ h.iflag
    · rw [hsecond]
      exact word_at (toLe 4 t.iflag) _ h.oflag
    · rw [hthird]
      exact word_at (toLe 4 t.iflag ++ toLe 4 t.oflag) _ h.cflag
    · rw [hfourth]
      exact word_at (toLe 4 t.iflag ++ toLe 4 t.oflag ++ toLe 4 t.cflag) _ h.lflag
  obtain ⟨hiflag, hoflag, hcflag, hlflag⟩ := hwords
  unfold decode
  dsimp only
  rw [if_neg (by omega), hline, hiflag, hoflag, hcflag, hlflag, hcc]
  rfl

theorem take_then_drop (bytes : Bytes) (start count : ℕ) :
    (bytes.drop start).take count ++ bytes.drop (start + count) = bytes.drop start := by
  rw [← List.drop_drop, List.take_append_drop]

/-- The bytes that were handed over are the ones that are given back. -/
theorem encode_decode {bytes : Bytes} {t : Termios} (hlength : bytes.length = termiosBytes)
    (h : decode bytes = some t) :
    t.encode = bytes := by
  have hsize : bytes.length = 36 := hlength
  have hword : ∀ start, start + 4 ≤ 36 →
      toLe 4 (ofLe ((bytes.drop start).take 4)) = (bytes.drop start).take 4 := by
    intro start hstart
    have hfour : ((bytes.drop start).take 4).length = 4 := by
      rw [List.length_take, List.length_drop]
      omega
    have hback := toLe_ofLe ((bytes.drop start).take 4)
    rwa [hfour] at hback
  have hline : bytes[16]? = some bytes[16] := List.getElem?_eq_getElem (by omega)
  unfold decode at h
  dsimp only at h
  rw [if_neg (by omega), hline] at h
  obtain rfl := Option.some.inj h
  have hcc : (bytes.drop 17).take nccsKernel = bytes.drop 17 := by
    apply List.take_of_length_le
    rw [List.length_drop]
    exact le_of_eq (by omega : bytes.length - 17 = 19)
  show toLe 4 _ ++ toLe 4 _ ++ toLe 4 _ ++ toLe 4 _ ++ [bytes[16]] ++ (bytes.drop 17).take nccsKernel = bytes
  rw [hcc, hword 0 (by decide), hword 4 (by decide), hword 8 (by decide), hword 12 (by decide)]
  simp only [List.append_assoc, List.singleton_append]
  rw [← List.drop_eq_getElem_cons, take_then_drop bytes 12 4, take_then_drop bytes 8 4,
    take_then_drop bytes 4 4, take_then_drop bytes 0 4, List.drop_zero]

/-- A terminal starts with settings that can be read back. -/
example : decode cooked.encode = some cooked := decode_encode fits_cooked

end Termios

def Kernel.terminalRaw (k : Kernel) : Bool := k.shared.terminal.any fun t => t.termios.raw

def Kernel.terminalSignals (k : Kernel) : Bool := k.shared.terminal.any fun t => t.termios.signals

/-- What the terminal was last set to. -/
def settings : History (Option Termios) where
  start := none
  next t o k _ := match o with
    | .machine i (.act (.setTermios next)) => if (k.procs[i]?).isSome then some next else t
    | _ => t

def Kernel.SetTo (k : Kernel) (t : Option Termios) : Prop :=
  ∀ terminal last, k.shared.terminal = some terminal → t = some last → terminal.termios = last

section
variable {W : Type} {x : Env W} {k : Kernel} {w : W} {t : Option Termios}

theorem Kernel.SetTo.same (h : k.SetTo t) {k' : Kernel} (hsame : k'.shared.inlets = k.shared.inlets) :
    k'.SetTo t := by
  have hterminal : k'.shared.terminal = k.shared.terminal := congrArg (fun a => a.2.2) hsame
  intro terminal last
  rw [hterminal]
  exact h terminal last

theorem settings_next {i : ℕ} {a : Act} (h : ∀ next, a ≠ .setTermios next) (ans : a.Ans) :
    settings.next t (.machine i (.act a)) k ans = t := by
  cases a with
  | setTermios next => exact absurd rfl (h next)
  | _ => rfl

theorem chronicled_settings (x : Env W) : Chronicled x settings (fun _ _ => True) Kernel.SetTo where
  lasting _ := ⟨fun _ _ _ h => h, fun _ _ _ h => h⟩
  init _ _ _ _ terminal last _ hnone := by cases hnone
  next o s t h _ := by
    obtain ⟨k, w⟩ := s
    cases o with
    | env c => exact h
    | act a => exact h.same (a.inlets_exec k)
    | machine i o =>
      cases o with
      | env c =>
        rcases hp : k.procs[i]? with _ | p
        · rw [kexec_machine_none x hp]
          exact h
        · rw [kexec_machine x hp]
          exact h
      | act a =>
        rcases hp : k.procs[i]? with _ | p
        · have hsame : settings.next t (.machine i (.act a)) k
              (kexec x (.machine i (.act a)) (k, w)).1 = t := by
            cases a with
            | setTermios next => simp only [settings, hp, Option.isSome_none, Bool.false_eq_true, if_false]
            | _ => rfl
          rw [hsame, kexec_machine_none x hp]
          exact h
        rw [kexec_machine x hp]
        by_cases hdraws : a.draws = true
        · cases a with
          | stdinTake count => exact h
          | setTermios next =>
            intro terminal last hterminal hlast
            have hnext : settings.next t (.machine i (.act (.setTermios next))) k () = some next := by
              simp only [settings, hp, Option.isSome_some, if_true]
            obtain rfl := Option.some.inj (hnext.symm.trans hlast)
            obtain ⟨old, -, rfl⟩ := Option.map_eq_some_iff.mp hterminal
            rfl
          | _ => cases hdraws
        · rw [Bool.not_eq_true] at hdraws
          show Kernel.SetTo _ (settings.next t (.machine i (.act a)) k _)
          rw [settings_next fun next heq => by subst heq; cases hdraws]
          exact h.same (a.inlets_exec (k.machineOf p) hdraws)

/-! ## Setting and asking -/

theorem run_tcgets {m m' : Machine} {w' : W} {terminal : Terminal} {argument : ℕ} {v : ℤ}
    (hrun : (terminalIoctl m.view terminal tcgets argument).run (exec x) (m, w) = (.ok v, (m', w'))) :
    ∃ mem, m.inst.mem.put argument terminal.termios.encode = .ok mem ∧ v = 0 ∧ m' = m.setMem mem ∧
        w' = w := by
  have hget : terminalIoctl m.view terminal tcgets argument =
      put argument terminal.termios.encode >>= fun _ => .ret 0 := rfl
  rw [hget] at hrun
  cases hput : m.inst.mem.put argument terminal.termios.encode with
  | error e =>
    rw [Program.run_bind_error (exec x) (run_put_error hput w)] at hrun
    cases hrun
  | ok mem =>
    rw [Program.run_bind_ok (exec x) (run_put_ok hput w)] at hrun
    have hstate := congrArg Prod.snd hrun
    have hvalue := Except.ok.inj (congrArg Prod.fst hrun)
    exact ⟨mem, rfl, hvalue.symm, (congrArg Prod.fst hstate).symm, (congrArg Prod.snd hstate).symm⟩

def setsTerminal (request : ℕ) : Prop := request = tcsets ∨ request = tcsetsw ∨ request = tcsetsf

/-- Setting decodes what the guest hands over and makes it the settings, and that is all. -/
theorem run_setsTerminal {m m' : Machine} {w' : W} {terminal : Terminal} {request argument : ℕ} {v : ℤ}
    (hrequest : setsTerminal request)
    (hrun : (terminalIoctl m.view terminal request argument).run (exec x) (m, w) = (.ok v, (m', w'))) :
    ∃ bytes next, m.inst.mem.bytes argument termiosBytes = .ok bytes ∧ next.encode = bytes ∧ v = 0 ∧
      m' = m.setShared { m.shared with terminal := m.shared.terminal.map fun t =>
        { t with termios := next } } ∧
      w' = w := by
  have hothers : request ≠ tiocgwinsz ∧ request ≠ tiocgpgrp ∧ request ≠ tcgets := by
    rcases hrequest with rfl | rfl | rfl <;> decide
  unfold terminalIoctl at hrun
  unfold setsTerminal at hrequest
  rw [if_neg hothers.1, if_neg hothers.2.1, if_neg hothers.2.2, if_pos hrequest] at hrun
  change Program.run (exec x) (lift (m.inst.mem.bytes argument termiosBytes) >>= fun bytes => _)
    (m, w) = _ at hrun
  cases hbytes : m.inst.mem.bytes argument termiosBytes with
  | error e =>
    rw [hbytes] at hrun
    cases hrun
  | ok bytes =>
    have hlift : (lift (Except.ok bytes) : Handler Bytes).run (exec x) (m, w) = (.ok bytes, (m, w)) := rfl
    rw [hbytes, Program.run_bind_ok (exec x) hlift] at hrun
    cases hdecode : Termios.decode bytes with
    | none =>
      simp only [hdecode] at hrun
      cases hrun
    | some next =>
      simp only [hdecode] at hrun
      have hvalue : (0 : ℤ) = v := Except.ok.inj (congrArg Prod.fst hrun)
      have hstate : ((Act.setTermios next).exec m).2 = m' := congrArg (fun r => r.2.1) hrun
      have hworld : w = w' := congrArg (fun r => r.2.2) hrun
      have hencode := Termios.encode_decode (Mem.length_bytes hbytes) hdecode
      exact ⟨bytes, next, rfl, hencode, hvalue.symm, hstate.symm, hworld.symm⟩

/-- Only a standard stream of a session with a terminal answers such a request. -/
theorem run_ioctl {a : Args} {m m' : Machine} {w' : W} {v : ℤ}
    (hrequest : asU32 a.a1 = tcgets ∨ setsTerminal (asU32 a.a1))
    (hrun : (Sys.ioctl a).run (exec x) (m, w) = (.ok v, (m', w'))) :
    ∃ terminal, m.shared.terminal = some terminal ∧
      (terminalIoctl m.view terminal (asU32 a.a1) (asU32 a.a2)).run (exec x) (m, w) = (.ok v, (m', w')) := by
  have hothers : ¬ (asU32 a.a1 = fioclex ∨ asU32 a.a1 = fionclex) ∧ asU32 a.a1 ≠ fionbio ∧
      asU32 a.a1 ≠ fionread := by
    rcases hrequest with heq | heq | heq | heq <;> rw [heq] <;> decide
  unfold Sys.ioctl at hrun
  change Program.run (exec x) (lift (m.view.task.fds.get a.a0) >>= fun entry => _) (m, w) = _ at hrun
  rcases hentry : m.view.task.fds.get a.a0 with e | entry
  · rw [hentry] at hrun
    cases hrun
  have hlift : (lift (Except.ok entry) : Handler Fd).run (exec x) (m, w) = (.ok entry, (m, w)) := rfl
  rw [hentry, Program.run_bind_ok (exec x) hlift, if_neg hothers.1, if_neg hothers.2.1] at hrun
  change Program.run (exec x) (lift (openFd m.view a.a0) >>= fun opened => _) (m, w) = _ at hrun
  rcases hopen : openFd m.view a.a0 with e | opened
  · rw [hopen] at hrun
    cases hrun
  have hlift : (lift (Except.ok opened) : Handler (Fd × Desc)).run (exec x) (m, w) = (.ok opened, (m, w)) :=
    rfl
  rw [hopen, Program.run_bind_ok (exec x) hlift] at hrun
  dsimp only at hrun
  rw [if_neg hothers.2.2] at hrun
  have hview : (exec x (.act .view) (m, w)).1 = m.view := rfl
  have hhas : m.view.terminal = m.shared.terminal := rfl
  rw [hview, hhas] at hrun
  cases hterminal : m.shared.terminal with
  | none =>
    simp only [hterminal] at hrun
    cases hrun
  | some terminal =>
    simp only [hterminal] at hrun
    by_cases hstream : opened.2.isStdStream = true
    · rw [if_pos hstream] at hrun
      exact ⟨terminal, rfl, hrun⟩
    · rw [if_neg hstream] at hrun
      cases hrun

/-- The terminal is a register of the whole session. Who asks for the settings is
given the very bytes that somebody handed over last and nothing else of his
changes, who hands over 36 bytes sets it to these and nothing else, and the
caller of the session sees the same. -/
theorem terminal_register {index : ℕ} {p : Proc} {a : Args} {m' : Machine} {w' : W} {v : ℤ}
    (h : Performed x settings (fun _ _ => True) (.machine index (.act .served)) k w t)
    (hrun : (Sys.ioctl a).run (exec x) (k.machineOf p, w) = (.ok v, (m', w'))) :
    (∀ last, t = some last → k.shared.terminal.isSome = true →
      k.terminalRaw = last.raw ∧ k.terminalSignals = last.signals) ∧
    (asU32 a.a1 = tcgets → ∃ terminal mem, k.shared.terminal = some terminal ∧
      p.inst.mem.put (asU32 a.a2) terminal.termios.encode = .ok mem ∧ v = 0 ∧
      m' = (k.machineOf p).setMem mem ∧ w' = w ∧
      ∀ last, t = some last → terminal.termios = last ∧
        m'.inst.mem.bytes (asU32 a.a2) last.encode.length = .ok last.encode) ∧
    (setsTerminal (asU32 a.a1) → ∃ bytes next, p.inst.mem.bytes (asU32 a.a2) termiosBytes = .ok bytes ∧
      next.encode = bytes ∧ v = 0 ∧ m' = (k.machineOf p).setShared
        { k.shared with terminal := k.shared.terminal.map fun t => { t with termios := next } } ∧
        w' = w) := by
  have hset := (h.keeps (chronicled_settings x)).1
  refine ⟨fun last hlast hsome => ?_, ?_, ?_⟩
  · obtain ⟨terminal, hterminal⟩ := Option.isSome_iff_exists.mp hsome
    obtain rfl := hset terminal last hterminal hlast
    rw [Kernel.terminalRaw, Kernel.terminalSignals, hterminal]
    exact ⟨rfl, rfl⟩
  · intro hget
    obtain ⟨terminal, hterminal, hrequest⟩ := run_ioctl (.inl hget) hrun
    rw [hget] at hrequest
    obtain ⟨mem, hput, hvalue, hstate, hworld⟩ := run_tcgets hrequest
    refine ⟨terminal, mem, hterminal, hput, hvalue, hstate, hworld, fun last hlast => ?_⟩
    have hlatest := hset terminal last hterminal hlast
    rw [hstate, ← hlatest]
    exact ⟨rfl, Mem.bytes_put hput⟩
  · intro hsets
    obtain ⟨terminal, -, hrequest⟩ := run_ioctl (.inr hsets) hrun
    exact run_setsTerminal hsets hrequest

end

/-- A guest that takes over line editing and asks how the terminal is set then. -/
abbrev Env.setsTerminal : Env (List GuestRun) :=
  Env.scripted (.startingWith (argWords [0, 0x5402, 200, 0, 0, 0, 0, 0x5401, 300, 0, 0, 0]))

abbrev Config.atTerminal : Config := { Config.bare [.guest 0] with terminal := some (.new 80 24) }

theorem terminal_register_raw :
    ∃ (k : Kernel) (w : List GuestRun) (t : Option Termios) (p : Proc) (m' : Machine)
    (w' : List GuestRun) (last : Termios),
    Performed Env.setsTerminal settings (fun _ _ => True) (.machine 0 (.act .served)) k w t ∧
    k.procs[0]? = some p ∧
    (Sys.ioctl ⟨0, 0x5401, 300, 0, 0, 0⟩).run (exec Env.setsTerminal) (k.machineOf p, w) = (.ok 0, (m', w')) ∧
    t = some last ∧ k.terminalRaw = true ∧ last.raw = true ∧
    m'.inst.mem.bytes 300 last.encode.length = .ok last.encode := by
  have hstart : Recorded Env.setsTerminal settings (fun _ _ => True) ⟨_, none⟩ _ none :=
    .start .atTerminal 0 _ _ [⟨[.syscall 29 0, .syscall 29 24, .setjmp 0], none⟩] _ _ rfl
      (Program.along_of_forall _ (fun _ _ => trivial) _ _) rfl
  have hserved := Performed.running _ _ _ 2 ⟨some 0, none⟩ _ hstart (Program.along_of_forall _
    (fun _ _ => trivial) _ _)
    (List.mem_of_getElem? (i := 19) rfl)
  obtain ⟨k, w, t, p, m', w', last, hserved, hp, hrun, hlast, hsome, hraw⟩ :
    ∃ (k : Kernel) (w : List GuestRun) (t : Option Termios) (p : Proc) (m' : Machine) (w' : List GuestRun)
      (last : Termios),
      Performed Env.setsTerminal settings (fun _ _ => True) (.machine 0 (.act .served)) k w t ∧
      k.procs[0]? = some p ∧
      (Sys.ioctl ⟨0, 0x5401, 300, 0, 0, 0⟩).run (exec Env.setsTerminal) (k.machineOf p, w) =
      (.ok 0, (m', w')) ∧
      t = some last ∧ k.shared.terminal.isSome = true ∧ last.raw = true :=
    ⟨_, _, _, _, _, _, _, hserved, rfl, rfl, rfl, rfl, by decide +kernel⟩
  obtain ⟨hsees, hget, -⟩ := terminal_register hserved hrun
  obtain ⟨terminal, mem, -, -, -, -, -, hback⟩ := hget rfl
  exact ⟨k, w, t, p, m', w', last, hserved, hp, hrun, hlast, (hsees last hlast hsome).1.trans hraw, hraw,
    (hback last hlast).2⟩

end Wasmux
