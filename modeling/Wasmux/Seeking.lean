import Wasmux.Arrays
import Wasmux.Faults

/-!
# Positions of files

`lseek` asks the file to move before it looks at where that is, and takes a
negative offset from the start for zero.
-/

set_option autoImplicit false

namespace Wasmux
open Effects Abi

/-- An offset that 32 bits hold. -/
def SeekFrom.Near : SeekFrom → Prop
  | .start n => n < 2^31
  | .fromEnd d | .current d => -2^31 ≤ d ∧ d < 2^31

section
variable {W : Type}

/-- A file, of which a state of the world shows the position and the length,
moves where a seek leads if an `i64` holds that, and otherwise refuses to move. -/
def Env.SeeksTo (x : Env W) (file : Handle) (pos len : W → ℕ) (w : W) (target : SeekFrom) : Prop :=
  if 0 ≤ ByteFiles.destination (len w) (pos w) target ∧
    ByteFiles.destination (len w) (pos w) target ≤ i64Max then
    (x.file file (.seek target) w).1 = .ok (ByteFiles.destination (len w) (pos w) target).toNat ∧
      pos (x.file file (.seek target) w).2 = (ByteFiles.destination (len w) (pos w) target).toNat
  else
    (∃ e, e ≠ .again ∧ (x.file file (.seek target) w).1 = .error e) ∧
      pos (x.file file (.seek target) w).2 = pos w

/-- What the offset of an `lseek` counts from. -/
def seekBase (position length : ℕ) (whence : ℤ) : Option ℕ :=
  if whence = seekSet then some 0
  else if whence = seekCur then some position
  else if whence = seekEnd then some length
  else none

/-- The outcome of an `lseek` whose offset counts from `base`: the position it
asks for is answered and taken, or there is an error and the file stays where it
was because that is negative or no `i32`. -/
def SeeksRight (x : Env W) (a : Args) (pos : W → ℕ) (base : ℕ) (s : Machine × W) : Prop :=
  if 0 ≤ base + a.a1 ∧ base + a.a1 ≤ i32Max then
    ((Sys.lseek a).run (exec x) s).1 = .ok (base + a.a1) ∧
      (pos ((Sys.lseek a).run (exec x) s).2.2 : ℤ) = base + a.a1
  else
    (∃ e, ((Sys.lseek a).run (exec x) s).1 = .error (.errno e)) ∧
      pos ((Sys.lseek a).run (exec x) s).2.2 = pos s.2

end

section
variable {W : Type} {x : Env W} {s : Machine × W}

theorem run_fileAsk_ok {file : Handle} {call : FileCall} {r : call.Ans}
    (h : (x.file file call s.2).1 = .ok r) :
    (fileAsk file call).run (exec x) s = (.ok r, s.1, (x.file file call s.2).2) := by
  have hask : (env (.file file call) : Handler (Except Errno call.Ans)).run (exec x) s =
      (.ok (.ok r), s.1, (x.file file call s.2).2) :=
    congrArg (fun r => (Except.ok r, s.1, (x.file file call s.2).2)) h
  exact Program.run_bind_ok (exec x) hask

theorem run_fileAsk_error {file : Handle} {call : FileCall} {e : Errno}
    (h : (x.file file call s.2).1 = .error e) (he : e ≠ .again) :
    (fileAsk file call).run (exec x) s = (.error (.errno e), s.1, (x.file file call s.2).2) := by
  have hask : (env (.file file call) : Handler (Except Errno call.Ans)).run (exec x) s =
      (.ok (.error e), s.1, (x.file file call s.2).2) :=
    congrArg (fun r => (Except.ok r, s.1, (x.file file call s.2).2)) h
  refine (Program.run_bind_ok (exec x) hask).trans ?_
  rw [orVfsFault, vfsFault, if_neg he]
  rfl

variable {a : Args} {entry : Fd} {desc : Desc} {file : Handle} {mount : ℕ} {closed : Bool}

theorem run_lseek_file (hopen : openFd s.1.view a.a0 = .ok (entry, desc))
    (hkind : desc.kind = .file file mount closed) {target : SeekFrom}
    (hto : Sys.seekTarget a.a1 a.a2 = some target) :
    (Sys.lseek a).run (exec x) s = ((fileAsk file (.seek target) : Handler ℕ) >>= fun position =>
      if i32Max < position then fail .overflow else .ret (asI32 position)).run (exec x) s := by
  unfold Sys.lseek
  refine (Program.run_bind_ok (exec x) (p := view) (t := s) (a := s.1.view) rfl).trans ?_
  rw [hopen, lift_ok, Program.ret_bind]
  dsimp only
  rw [hkind]
  dsimp only
  rw [hto]
  rfl

variable {pos len : W → ℕ}

/-- A seek that works is reported where an `i32` holds the position. -/
theorem lseek_moves (hopen : openFd s.1.view a.a0 = .ok (entry, desc))
    (hkind : desc.kind = .file file mount closed) {target : SeekFrom}
    (hto : Sys.seekTarget a.a1 a.a2 = some target) (hseeks : x.SeeksTo file pos len s.2 target)
    (hlow : 0 ≤ ByteFiles.destination (len s.2) (pos s.2) target)
    (hhigh : ByteFiles.destination (len s.2) (pos s.2) target ≤ i64Max) :
    ((Sys.lseek a).run (exec x) s).1 = (if i32Max < ByteFiles.destination (len s.2) (pos s.2) target
      then .error (.errno .overflow) else .ok (ByteFiles.destination (len s.2) (pos s.2) target)) ∧
    (pos ((Sys.lseek a).run (exec x) s).2.2 : ℤ) = ByteFiles.destination (len s.2) (pos s.2) target := by
  rw [Env.SeeksTo, if_pos ⟨hlow, hhigh⟩] at hseeks
  obtain ⟨hanswer, hpos⟩ := hseeks
  rw [run_lseek_file hopen hkind hto, Program.run_bind_ok (exec x) (run_fileAsk_ok hanswer)]
  have hnat := Int.toNat_of_nonneg hlow
  rw [hnat]
  split
  · exact ⟨rfl, by rw [← hnat, ← hpos]; rfl⟩
  · rename_i hsmall
    have hexact : asI32 (ByteFiles.destination (len s.2) (pos s.2) target) =
        ByteFiles.destination (len s.2) (pos s.2) target := by
      unfold asI32 i32Max at *
      omega
    exact ⟨by rw [hexact]; rfl, by rw [← hnat, ← hpos]; rfl⟩

theorem lseek_refused (hopen : openFd s.1.view a.a0 = .ok (entry, desc))
    (hkind : desc.kind = .file file mount closed) {target : SeekFrom}
    (hto : Sys.seekTarget a.a1 a.a2 = some target) (hseeks : x.SeeksTo file pos len s.2 target)
    (hout : ¬ (0 ≤ ByteFiles.destination (len s.2) (pos s.2) target ∧
      ByteFiles.destination (len s.2) (pos s.2) target ≤ i64Max)) :
    (∃ e, ((Sys.lseek a).run (exec x) s).1 = .error (.errno e)) ∧ pos ((Sys.lseek a).run (exec x) s).2.2 =
    pos s.2 := by
  rw [Env.SeeksTo, if_neg hout] at hseeks
  obtain ⟨⟨e, hagain, hanswer⟩, hpos⟩ := hseeks
  rw [run_lseek_file hopen hkind hto, Program.run_bind_error (exec x) (run_fileAsk_error hanswer hagain)]
  exact ⟨⟨e, rfl⟩, hpos⟩

/-- What an `lseek` asks of its file: a negative offset from the start is zero. -/
theorem seekTarget_of_base {base position length : ℕ} (hoffset : -2^31 ≤ a.a1 ∧ a.a1 < 2^31)
    (hbase : seekBase position length a.a2 = some base) :
    ∃ target, Sys.seekTarget a.a1 a.a2 = some target ∧ target.Near ∧
      ByteFiles.destination length position target = if a.a2 = seekSet then max a.a1 0 else base + a.a1 := by
  unfold seekBase at hbase
  unfold Sys.seekTarget
  by_cases hset : a.a2 = seekSet
  · refine ⟨.start (max a.a1 0).toNat, if_pos hset, ?_, ?_⟩
    · change (max a.a1 0).toNat < 2^31
      omega
    · rw [if_pos hset]
      exact Int.toNat_of_nonneg (le_max_right _ _)
  rw [if_neg hset] at hbase
  by_cases hcur : a.a2 = seekCur
  · rw [if_pos hcur] at hbase
    obtain rfl := Option.some.inj hbase
    refine ⟨.current a.a1, ?_, hoffset, ?_⟩
    · rw [if_neg hset, if_pos hcur]
    · rw [if_neg hset]
      rfl
  rw [if_neg hcur] at hbase
  by_cases hend : a.a2 = seekEnd
  · rw [if_pos hend] at hbase
    obtain rfl := Option.some.inj hbase
    refine ⟨.fromEnd a.a1, ?_, hoffset, ?_⟩
    · rw [if_neg hset, if_neg hcur, if_pos hend]
    · rw [if_neg hset]
      rfl
  · rw [if_neg hend] at hbase
    cases hbase

/-- An `lseek` of a file that seeks as it is told is right if and only if its
offset is not negative from the start, and does not lead to a position that the
file can have and an `i32` cannot, other than where it is. -/
theorem lseek_right_iff (hopen : openFd s.1.view a.a0 = .ok (entry, desc))
    (hkind : desc.kind = .file file mount closed) (hoffset : -2^31 ≤ a.a1 ∧ a.a1 < 2^31)
    (hseeks : ∀ target : SeekFrom, target.Near → x.SeeksTo file pos len s.2 target) {base : ℕ}
    (hbase : seekBase (pos s.2) (len s.2) a.a2 = some base) :
    SeeksRight x a pos base s ↔ ¬ (a.a2 = seekSet ∧ a.a1 < 0) ∧
      ¬ (i32Max < base + a.a1 ∧ base + a.a1 ≤ i64Max ∧ base + a.a1 ≠ pos s.2) := by
  obtain ⟨target, hto, hnear, hwhere⟩ := seekTarget_of_base hoffset hbase
  have hmax : i32Max < i64Max := by decide
  have hpositive : 0 ≤ i32Max := by decide
  have hstart : a.a2 = seekSet → base = 0 := fun hset => by
    rw [seekBase, if_pos hset] at hbase
    exact (Option.some.inj hbase).symm
  have hshort : a.a1 ≤ i32Max := Int.le_sub_one_of_lt hoffset.2
  unfold SeeksRight
  by_cases hmoves : 0 ≤ ByteFiles.destination (len s.2) (pos s.2) target ∧
      ByteFiles.destination (len s.2) (pos s.2) target ≤ i64Max
  · obtain ⟨hanswer, hpos⟩ := lseek_moves hopen hkind hto (hseeks target hnear) hmoves.1 hmoves.2
    rw [hanswer]
    by_cases hset : a.a2 = seekSet
    -- From the start, the offset itself or zero.
    · rw [if_pos hset] at hwhere
      have hbase0 := hstart hset
      subst hbase0
      have hfits : ¬ i32Max < ByteFiles.destination (len s.2) (pos s.2) target := by omega
      rw [if_neg hfits]
      by_cases hneg : a.a1 < 0
      · rw [if_neg (by omega)]
        refine iff_of_false ?_ fun h => h.1 ⟨hset, hneg⟩
        rintro ⟨⟨e, he⟩, -⟩
        cases he
      · rw [if_pos (by omega)]
        have hsame : ByteFiles.destination (len s.2) (pos s.2) target = ((0 : ℕ) : ℤ) + a.a1 := by omega
        rw [hsame]
        refine iff_of_true ⟨rfl, by rw [hpos, hsame]⟩ ⟨fun h => hneg h.2, fun h => ?_⟩
        omega
    · rw [if_neg hset] at hwhere
      rw [hwhere] at hmoves hpos ⊢
      by_cases hsmall : base + a.a1 ≤ i32Max
      · rw [if_neg (not_lt.mpr hsmall), if_pos ⟨hmoves.1, hsmall⟩]
        exact iff_of_true ⟨rfl, hpos⟩ ⟨fun h => hset h.1, fun h => by omega⟩
      · rw [if_pos (not_le.mp hsmall), if_neg fun h => hsmall h.2]
        constructor
        · rintro ⟨-, hstays⟩
          refine ⟨fun h => hset h.1, fun h => h.2.2 ?_⟩
          rw [← hstays, hpos]
        · rintro ⟨-, hnot⟩
          refine ⟨⟨_, rfl⟩, ?_⟩
          omega
  · obtain ⟨herror, hpos⟩ := lseek_refused hopen hkind hto (hseeks target hnear) hmoves
    have hset : a.a2 ≠ seekSet := by
      intro hset
      rw [if_pos hset] at hwhere
      omega
    rw [if_neg hset] at hwhere
    rw [if_neg (by omega)]
    refine iff_of_true ⟨herror, hpos⟩ ⟨fun h => hset h.1, fun h => hmoves ?_⟩
    omega

end

/-! ## Files in memory -/

section
variable {W : Type} {p : Width}

def MemWorld.posOf (handle : Handle) (s : MemWorld p × W) : ℕ := ((s.1.files[handle]?).map MemFile.pos).getD 0

def MemWorld.lenOf (handle : Handle) (s : MemWorld p × W) : ℕ :=
  ((s.1.files[handle]?).map fun f => (s.1.buffer f.data).bytes.length).getD 0

/-- A file in memory seeks as it is told, short of the greatest position there is. -/
theorem seeks_memory (x : Env W) {fs : MemWorld p} {handle : Handle} {f : MemFile}
    (hf : fs.files[handle]? = some f) (hpos : f.pos + 2^31 < 2^63)
    (hlen : (fs.buffer f.data).bytes.length + 2^31 < 2^63) (w : W) {target : SeekFrom} (ht : target.Near) :
    (x.memory p).SeeksTo handle (MemWorld.posOf handle) (MemWorld.lenOf handle) (fs, w) target := by
  have hposOf : MemWorld.posOf handle (fs, w) = f.pos := by
    simp only [MemWorld.posOf, hf, Option.map_some, Option.getD_some]
  have hlenOf : MemWorld.lenOf handle (fs, w) = (fs.buffer f.data).bytes.length := by
    simp only [MemWorld.lenOf, hf, Option.map_some, Option.getD_some]
  have hcall : (x.memory p).file handle (.seek target) (fs, w) =
      ((fs.seekFile handle f target).1, (fs.seekFile handle f target).2, w) := by
    simp only [Env.memory, MemWorld.file, hf]
  have hmax : i64Max = 2^63 - 1 := rfl
  have hsame : fs.seekTarget f target = ByteFiles.destination (fs.buffer f.data).bytes.length f.pos target ∧
      ByteFiles.destination (fs.buffer f.data).bytes.length f.pos target ≤ i64Max := by
    cases target with
    | start n =>
      have hn : n < 2^31 := ht
      simp only [MemWorld.seekTarget, asI64, ByteFiles.destination]
      omega
    | fromEnd d =>
      have hd : -2^31 ≤ d ∧ d < 2^31 := ht
      simp only [MemWorld.seekTarget, satAddI64, i64Min, ByteFiles.destination]
      omega
    | current d =>
      have hd : -2^31 ≤ d ∧ d < 2^31 := ht
      simp only [MemWorld.seekTarget, asI64, satAddI64, i64Min, ByteFiles.destination]
      omega
  unfold Env.SeeksTo
  rw [hposOf, hlenOf, hcall]
  split
  · rename_i hin
    obtain ⟨hanswer, new, hafter, hcursor⟩ :=
    MemWorld.seekFile_eq fs handle f (show ¬ fs.seekTarget f target < 0 by omega)
    rw [hsame.1] at hanswer hcursor
    refine ⟨hanswer, ?_⟩
    rw [hafter]
    have hlt := (List.getElem?_eq_some_iff.mp hf).1
    have hnew : MemWorld.posOf handle (fs.setFile handle new, w) = new.pos := by
      simp only [MemWorld.posOf, MemWorld.setFile, List.getElem?_set_self hlt, Option.map_some,
        Option.getD_some]
    exact hnew.trans (congrArg Cursor.pos hcursor)
  · have hneg : fs.seekTarget f target < 0 := by omega
    rw [MemWorld.seekFile, dif_pos hneg]
    exact ⟨⟨.inval, by decide, rfl⟩, hposOf⟩

end

/-- Guests over an empty `MemVfs`, with the arguments of an `openat` of a new file
at address zero. -/
def Env.createsFile : Env (MemWorld .w64 × List GuestRun) :=
  (Env.scripted (.startingWith (argWords [atFdcwd, 24, 0x42, 0, 0, 0, 0x66, 0]))).memory .w64

theorem reached_createsFile :
    ∃ (k : Kernel) (w : MemWorld .w64 × List GuestRun) (p : Proc) (entry : Fd) (desc : Desc),
    Reached Env.createsFile (fun _ _ => True) k w ∧ k.procs[0]? = some p ∧
    openFd (k.machineOf p).view 3 = .ok (entry, desc) ∧ desc.kind = .file 0 0 false ∧
    (∀ target : SeekFrom, target.Near →
      Env.createsFile.SeeksTo 0 (MemWorld.posOf 0) (MemWorld.lenOf 0) w target) ∧
    ((Sys.lseek ⟨3, -1, 0, 0, 0, 0⟩).run (exec Env.createsFile) (k.machineOf p, w)).1 = .ok 0 := by
  have hopen : Config.oneMount.drive Env.createsFile (MemWorld.new .w64,
    [⟨[.syscall 56 0, .setjmp 0], none⟩]) 2
      [⟨some 0, none⟩] = some (_, _) := rfl
  refine ⟨_, _, _, _, _, .between _ _ (between_drive hopen), rfl, rfl, rfl, fun target ht => ?_, rfl⟩
  exact seeks_memory _ rfl (by decide) (by decide) _ ht

/-- A position past the end of the new file. -/
theorem lseek_right_iff_past : ∃ (k : Kernel) (w : MemWorld .w64 × List GuestRun) (p : Proc),
    k.procs[0]? = some p ∧ SeeksRight Env.createsFile ⟨3, 5, 0, 0, 0, 0⟩ (MemWorld.posOf 0) 0
      (k.machineOf p, w) := by
  obtain ⟨k, w, p, entry, desc, -, hp, hopen, hkind, hseeks, -⟩ := reached_createsFile
  refine ⟨k, w, p, hp, (lseek_right_iff hopen hkind (by decide) hseeks rfl).mpr ⟨by decide, fun h => ?_⟩⟩
  exact absurd h.1 (by decide)

/-- A position before the start of it is taken for the start. -/
theorem lseek_clamps : ∃ (k : Kernel) (w : MemWorld .w64 × List GuestRun) (p : Proc),
    Reached Env.createsFile (fun _ _ => True) k w ∧ k.procs[0]? = some p ∧
    ((Sys.lseek ⟨3, -1, 0, 0, 0, 0⟩).run (exec Env.createsFile) (k.machineOf p, w)).1 = .ok 0 ∧
    ¬ SeeksRight Env.createsFile ⟨3, -1, 0, 0, 0, 0⟩ (MemWorld.posOf 0) 0 (k.machineOf p, w) := by
  obtain ⟨k, w, p, entry, desc, hreached, hp, -, -, -, hanswer⟩ := reached_createsFile
  refine ⟨k, w, p, hreached, hp, hanswer, fun h => ?_⟩
  rw [SeeksRight, if_neg (by decide), hanswer] at h
  obtain ⟨⟨e, he⟩, -⟩ := h
  cases he

end Wasmux
