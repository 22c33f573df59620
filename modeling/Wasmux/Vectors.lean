import Wasmux.Modes

/-!
# readv and writev

The loop over an iovec array against the calls it stands for: a guest that goes
through the array itself, one `read` or `write` for each segment.
-/

set_option autoImplicit false

namespace Wasmux
open Effects Abi Sys

/-- How the calls for one segment after another come to an end. -/
inductive Ending where
  /-- There are no more segments, or one was moved in part. -/
  | done
  /-- The call for a segment fails. -/
  | failed (fault : Fault)
  /-- The entry of a segment lies outside memory. -/
  | cut (e : Errno)

/-- The abstract behaviour: the segments from `index` on, `count` of them, one
call after another up to the first that is moved in part. Answers how many
bytes the calls moved. -/
def oneByOne (io : ℕ → ℕ → Handler ℤ) (vector : ℕ) : ℕ → ℕ → Handler (ℕ × Ending)
  | 0, _ => .ret (0, .done)
  | count + 1, index => do
    let v ← view
    let entry := wrapAdd vector (index * 8 % 2^32)
    match v.mem.u32 entry with
    | .error e => .ret (0, .cut e)
    | .ok start => match v.mem.u32 (wrapAdd entry 4) with
      | .error e => .ret (0, .cut e)
      | .ok len =>
        if len = 0 then oneByOne io vector count (index + 1)
        else match ← (io start len).catching with
          | .error fault => .ret (0, .failed fault)
          | .ok moved =>
            if asU32 moved < len then .ret (asU32 moved, .done)
            else do
              let rest ← oneByOne io vector count (index + 1)
              .ret (asU32 moved + rest.1, rest.2)

/-- The loop after the call for a segment of `len` bytes. -/
def afterLoop (io : ℕ → ℕ → Handler ℤ) (vector count index : ℕ) (total : ℤ) (len : ℕ) :
    Except Fault ℤ → Handler ℤ
  | .ok moved =>
    if asU32 moved < len then .ret (satAddI32 total moved)
    else vectorLoop io vector count (index + 1) (satAddI32 total moved)
  | .error fault => if 0 < total then .ret total else .fail fault

/-- The calls after the one for a segment of `len` bytes. -/
def afterCall (io : ℕ → ℕ → Handler ℤ) (vector count index len : ℕ) : Except Fault ℤ → Handler (ℕ × Ending)
  | .ok moved =>
    if asU32 moved < len then .ret (asU32 moved, .done)
    else oneByOne io vector count (index + 1) >>= fun rest => .ret (asU32 moved + rest.1, rest.2)
  | .error fault => .ret (0, .failed fault)

theorem vectorLoop_succ (io : ℕ → ℕ → Handler ℤ) (vector count index : ℕ) (total : ℤ) :
    vectorLoop io vector (count + 1) index total = view >>= fun v =>
      lift (v.mem.u32 (wrapAdd vector (index * 8 % 2^32))) >>= fun start =>
      lift (v.mem.u32 (wrapAdd (wrapAdd vector (index * 8 % 2^32)) 4)) >>= fun len =>
        if len = 0 then vectorLoop io vector count (index + 1) total
        else (io start len).catching >>= afterLoop io vector count index total len := by
  rfl

theorem run_oneByOne_succ {W : Type} (x : Env W) (io : ℕ → ℕ → Handler ℤ) {vector : ℕ} (count : ℕ)
    {index start len : ℕ} {s : Machine × W}
    (hstart : s.1.inst.mem.u32 (wrapAdd vector (index * 8 % 2^32)) = .ok start)
    (hlen : s.1.inst.mem.u32 (wrapAdd (wrapAdd vector (index * 8 % 2^32)) 4) = .ok len) :
    (oneByOne io vector (count + 1) index).run (exec x) s =
      (if len = 0 then oneByOne io vector count (index + 1)
        else (io start len).catching >>= afterCall io vector count index len :
        Handler (ℕ × Ending)).run (exec x) s := by
  conv_lhs => unfold oneByOne
  rw [Program.run_bind_ok (exec x) (p := view) (t := s) (a := s.1.view) rfl]
  dsimp only [Machine.view_mem]
  rw [hstart]
  dsimp only
  rw [hlen]
  dsimp only
  split
  · rfl
  · refine congrArg (fun f => ((io start len).catching >>= f).run (exec x) s) (funext fun r => ?_)
    cases r <;> rfl

section
variable {W : Type} {x : Env W} {io : ℕ → ℕ → Handler ℤ} {vector : ℕ}

/-- What one turn of the loop is, and of the calls. -/
inductive Turn (x : Env W) (io : ℕ → ℕ → Handler ℤ) (vector index : ℕ) (s : Machine × W) : Prop where
  | cut (e : Errno)
      (loop : ∀ count total, (vectorLoop io vector (count + 1) index total).run (exec x) s =
        (.error (.errno e), s))
      (calls : ∀ count, (oneByOne io vector (count + 1) index).run (exec x) s = (.ok (0, .cut e), s))
  | skipped
      (loop : ∀ count total, (vectorLoop io vector (count + 1) index total).run (exec x) s =
        (vectorLoop io vector count (index + 1) total).run (exec x) s)
      (calls : ∀ count, (oneByOne io vector (count + 1) index).run (exec x) s =
        (oneByOne io vector count (index + 1)).run (exec x) s)
  | failed (fault : Fault) (t : Machine × W)
      (loop : ∀ count total, (vectorLoop io vector (count + 1) index total).run (exec x) s =
        (if 0 < total then .ok total else .error fault, t))
      (calls : ∀ count, (oneByOne io vector (count + 1) index).run (exec x) s = (.ok (0, .failed fault), t))
  | short (start len : ℕ) (moved : ℤ) (t : Machine × W)
      (call : (io start len).run (exec x) s = (.ok moved, t))
      (loop : ∀ count total, (vectorLoop io vector (count + 1) index total).run (exec x) s =
        (.ok (satAddI32 total moved), t))
      (calls : ∀ count, (oneByOne io vector (count + 1) index).run (exec x) s = (.ok (asU32 moved, .done), t))
  | whole (start len : ℕ) (moved : ℤ) (t : Machine × W)
      (call : (io start len).run (exec x) s = (.ok moved, t))
      (loop : ∀ count total, (vectorLoop io vector (count + 1) index total).run (exec x) s =
        (vectorLoop io vector count (index + 1) (satAddI32 total moved)).run (exec x) t)
      (calls : ∀ count n ending u, (oneByOne io vector count (index + 1)).run (exec x) t =
        (.ok (n, ending), u) →
        (oneByOne io vector (count + 1) index).run (exec x) s = (.ok (asU32 moved + n, ending), u))

variable (x io vector) in
theorem turn (index : ℕ) (s : Machine × W) : Turn x io vector index s := by
  have hloop : ∀ count total, (vectorLoop io vector (count + 1) index total).run (exec x) s =
      (lift (s.1.inst.mem.u32 (wrapAdd vector (index * 8 % 2^32))) >>= fun start =>
        lift (s.1.inst.mem.u32 (wrapAdd (wrapAdd vector (index * 8 % 2^32)) 4)) >>= fun len =>
          if len = 0 then vectorLoop io vector count (index + 1) total
          else (io start len).catching >>= afterLoop io vector count index total len).run (exec x) s :=
              fun count total => by
    rw [vectorLoop_succ, Program.run_bind_ok (exec x) (p := view) (t := s) (a := s.1.view) rfl]
    rfl
  rcases hstart : s.1.inst.mem.u32 (wrapAdd vector (index * 8 % 2^32)) with e | start
  · refine .cut e (fun count total => ?_) fun count => ?_
    · rw [hloop, hstart]
      rfl
    · unfold oneByOne
      rw [Program.run_bind_ok (exec x) (p := view) (t := s) (a := s.1.view) rfl]
      dsimp only [Machine.view_mem]
      rw [hstart]
      rfl
  rcases hlen : s.1.inst.mem.u32 (wrapAdd (wrapAdd vector (index * 8 % 2^32)) 4) with e | len
  · refine .cut e (fun count total => ?_) fun count => ?_
    · rw [hloop, hstart, hlen]
      rfl
    · unfold oneByOne
      rw [Program.run_bind_ok (exec x) (p := view) (t := s) (a := s.1.view) rfl]
      dsimp only [Machine.view_mem]
      rw [hstart]
      dsimp only
      rw [hlen]
      rfl
  have hcalls := fun count => run_oneByOne_succ x io count hstart hlen
  by_cases hempty : len = 0
  · refine .skipped (fun count total => ?_) fun count => ?_
    · rw [hloop, hstart, hlen, lift_ok, Program.ret_bind, lift_ok, Program.ret_bind, if_pos hempty]
    · rw [hcalls, if_pos hempty]
  have hcatching := Program.run_catching (x := exec x) (δ := Fault) (io start len) s
  rcases hio : (io start len).run (exec x) s with ⟨fault | moved, t⟩
  · rw [hio] at hcatching
    refine .failed fault t (fun count total => ?_) fun count => ?_
    · rw [hloop, hstart, hlen, lift_ok, Program.ret_bind, lift_ok, Program.ret_bind, if_neg hempty,
        Program.run_bind_ok (exec x) hcatching]
      unfold afterLoop
      dsimp only
      split <;> rfl
    · rw [hcalls, if_neg hempty, Program.run_bind_ok (exec x) hcatching]
      rfl
  · rw [hio] at hcatching
    have hmoved : ∀ count total, (vectorLoop io vector (count + 1) index total).run (exec x) s =
        (if asU32 moved < len then .ret (satAddI32 total moved)
          else vectorLoop io vector count (index + 1) (satAddI32 total moved) :
          Handler ℤ).run (exec x) t := by
      intro count total
      rw [hloop, hstart, hlen, lift_ok, Program.ret_bind, lift_ok, Program.ret_bind, if_neg hempty,
        Program.run_bind_ok (exec x) hcatching]
      rfl
    by_cases hshort : asU32 moved < len
    · refine .short start len moved t hio (fun count total => ?_) fun count => ?_
      · rw [hmoved, if_pos hshort]
        rfl
      · rw [hcalls, if_neg hempty, Program.run_bind_ok (exec x) hcatching]
        unfold afterCall
        dsimp only
        rw [if_pos hshort]
        rfl
    · refine .whole start len moved t hio (fun count total => ?_) fun count n ending u hrest => ?_
      · rw [hmoved, if_neg hshort]
      · rw [hcalls, if_neg hempty, Program.run_bind_ok (exec x) hcatching]
        unfold afterCall
        dsimp only
        rw [if_neg hshort, Program.run_bind_ok (exec x) hrest]
        rfl

variable (x io vector) in
theorem run_oneByOne (count index : ℕ) (s : Machine × W) :
    ∃ n ending t, (oneByOne io vector count index).run (exec x) s = (.ok (n, ending), t) := by
  induction count generalizing index s with
  | zero => exact ⟨0, .done, s, rfl⟩
  | succ count ih =>
    cases turn x io vector index s with
    | cut e _ calls => exact ⟨_, _, _, calls count⟩
    | skipped _ calls =>
      rw [calls count]
      exact ih (index + 1) s
    | failed fault t _ calls => exact ⟨_, _, _, calls count⟩
    | short start len moved t _ _ calls => exact ⟨_, _, _, calls count⟩
    | whole start len moved t _ _ calls =>
      obtain ⟨n, ending, u, hrest⟩ := ih (index + 1) t
      exact ⟨_, _, _, calls count n ending u hrest⟩

theorem state_vectorLoop (count index : ℕ) (total : ℤ) (s : Machine × W) :
    ((vectorLoop io vector count index total).run (exec x) s).2 =
    ((oneByOne io vector count index).run (exec x) s).2 := by
  induction count generalizing index total s with
  | zero => rfl
  | succ count ih =>
    cases turn x io vector index s with
    | cut e loop calls => rw [loop count total, calls count]
    | skipped loop calls =>
      rw [loop count total, calls count]
      exact ih (index + 1) total s
    | failed fault t loop calls => rw [loop count total, calls count]
    | short start len moved t _ loop calls => rw [loop count total, calls count]
    | whole start len moved t _ loop calls =>
      obtain ⟨n, ending, u, hrest⟩ := run_oneByOne x io vector count (index + 1) t
      rw [loop count total, calls count n ending u hrest, ih (index + 1) _ t, hrest]

theorem vectorLoop_le {count index : ℕ} {total : ℤ} {s t : Machine × W} {r : ℤ} (htotal : total ≤ i32Max)
    (h : (vectorLoop io vector count index total).run (exec x) s = (.ok r, t)) : r ≤ i32Max := by
  have hsat : ∀ a b : ℤ, satAddI32 a b ≤ i32Max := fun a b => max_le (by decide) (min_le_left _ _)
  induction count generalizing index total s with
  | zero =>
    cases h
    exact htotal
  | succ count ih =>
    cases turn x io vector index s with
    | cut e loop _ => cases (loop count total).symm.trans h
    | skipped loop _ => exact ih htotal ((loop count total).symm.trans h)
    | failed fault u loop _ =>
      have := (loop count total).symm.trans h
      split at this
      · cases this
        exact htotal
      · cases this
    | short start len moved u _ loop _ =>
      cases (loop count total).symm.trans h
      exact hsat _ _
    | whole start len moved u _ loop _ => exact ih (hsat _ _) ((loop count total).symm.trans h)

/-- An entry outside memory is an error, whatever was moved before. -/
theorem vectorLoop_cut {count index n : ℕ} (total : ℤ) {s u : Machine × W} {e : Errno}
    (h : (oneByOne io vector count index).run (exec x) s = (.ok (n, .cut e), u)) :
    ((vectorLoop io vector count index total).run (exec x) s).1 = .error (.errno e) := by
  induction count generalizing index total n s with
  | zero => cases h
  | succ count ih =>
    cases turn x io vector index s with
    | cut e' loop calls =>
      cases (calls count).symm.trans h
      rw [loop count total]
    | skipped loop calls =>
      rw [loop count total]
      exact ih _ ((calls count).symm.trans h)
    | failed fault t loop calls => cases (calls count).symm.trans h
    | short start len moved t _ loop calls => cases (calls count).symm.trans h
    | whole start len moved t _ loop calls =>
      obtain ⟨n', ending, u', hrest⟩ := run_oneByOne x io vector count (index + 1) t
      cases (calls count n' ending u' hrest).symm.trans h
      rw [loop count total]
      exact ih _ hrest

/-- The call for a segment answers a count as the guest's `ssize_t`. -/
def Counts (x : Env W) (io : ℕ → ℕ → Handler ℤ) : Prop := ∀ start len s moved t,
  (io start len).run (exec x) s = (.ok moved, t) → i32Min ≤ moved ∧ moved ≤ i32Max

theorem satAddI32_asU32 {total moved : ℤ} (htotal : 0 ≤ total) (hmoved : i32Min ≤ moved ∧ moved ≤ i32Max)
    (hfits : total + asU32 moved < 2^31) : satAddI32 total moved = total + asU32 moved := by
  unfold satAddI32 asU32 i32Min i32Max at *
  omega

/-- Short of the largest count nothing is lost: the loop answers what was moved,
or has moved nothing, or meets an entry outside memory. -/
theorem vectorLoop_exact (hio : Counts x io) {count index n : ℕ} {total : ℤ} {s u : Machine × W}
    {ending : Ending} (htotal : 0 ≤ total)
    (h : (oneByOne io vector count index).run (exec x) s = (.ok (n, ending), u)) (hfits : total + n < 2^31) :
    ((vectorLoop io vector count index total).run (exec x) s).1 = .ok (total + n) ∨
    (total + n = 0 ∧ ∃ fault, ((vectorLoop io vector count index total).run (exec x) s).1 = .error fault) ∨
    ∃ e, ending = .cut e := by
  induction count generalizing index total n s with
  | zero =>
    cases h
    exact .inl (congrArg Except.ok (by simp))
  | succ count ih =>
    cases turn x io vector index s with
    | cut e loop calls =>
      cases (calls count).symm.trans h
      exact .inr (.inr ⟨e, rfl⟩)
    | skipped loop calls =>
      rw [loop count total]
      exact ih htotal ((calls count).symm.trans h) hfits
    | failed fault t loop calls =>
      cases (calls count).symm.trans h
      rw [loop count total]
      by_cases hpos : 0 < total
      · rw [if_pos hpos]
        exact .inl (congrArg Except.ok (by simp))
      · rw [if_neg hpos]
        exact .inr (.inl ⟨by push_cast; omega, fault, rfl⟩)
    | short start len moved t hcall loop calls =>
      cases (calls count).symm.trans h
      rw [loop count total]
      exact .inl (congrArg Except.ok (satAddI32_asU32 htotal (hio start len s moved _ hcall) hfits))
    | whole start len moved t hcall loop calls =>
      obtain ⟨n', ending', u', hrest⟩ := run_oneByOne x io vector count (index + 1) t
      cases (calls count n' ending' u' hrest).symm.trans h
      have hsum := satAddI32_asU32 htotal (hio start len s moved t hcall) (by push_cast at hfits; omega)
      rw [loop count total, hsum]
      have hsame : total + (asU32 moved + n' : ℕ) = total + asU32 moved + n' := by
        push_cast
        exact (add_assoc _ _ _).symm
      rw [hsame] at hfits ⊢
      exact ih (by omega) hrest hfits

/-- The call leaves behind what the calls for its segments leave, fails or
blocks only if they moved nothing, and otherwise answers how much they moved. -/
def Exact (x : Env W) (p : Handler ℤ) (calls : Handler (ℕ × Ending)) (s : Machine × W) : Prop :=
  ∃ n ending, (calls.run (exec x) s).1 = .ok (n, ending) ∧ (p.run (exec x) s).2 = (calls.run (exec x) s).2 ∧
    (∀ fault, (p.run (exec x) s).1 = .error fault → n = 0) ∧ ∀ r, (p.run (exec x) s).1 = .ok r → r = n

/-- The calls move something and then come to an entry outside memory, or move
more than an `ssize_t` holds. -/
def Miscounts (x : Env W) (calls : Handler (ℕ × Ending)) (s : Machine × W) : Prop :=
  ∃ n ending, (calls.run (exec x) s).1 = .ok (n, ending) ∧ ((0 < n ∧ ∃ e, ending = .cut e) ∨ 2^31 ≤ n)

theorem exact_vectorLoop (hio : Counts x io) (count index : ℕ) (s : Machine × W) :
    Exact x (vectorLoop io vector count index 0) (oneByOne io vector count index) s ↔
      ¬ Miscounts x (oneByOne io vector count index) s := by
  obtain ⟨n, ending, u, hcalls⟩ := run_oneByOne x io vector count index s
  constructor
  · rintro ⟨n', ending', hcalls', -, herror, hok⟩ ⟨n'', ending'', hcalls'', hbad⟩
    obtain ⟨rfl, rfl⟩ := Prod.mk.inj (Except.ok.inj (hcalls'.symm.trans hcalls''))
    rcases hrun : (vectorLoop io vector count index 0).run (exec x) s with ⟨fault | r, t⟩
    · have hnone := herror fault (congrArg Prod.fst hrun)
      rcases hbad with ⟨hpos, -⟩ | hlarge <;> omega
    · have hr := hok r (congrArg Prod.fst hrun)
      have hle := vectorLoop_le (by decide : (0 : ℤ) ≤ i32Max) hrun
      rcases hbad with ⟨-, e, rfl⟩ | hlarge
      · rw [hcalls] at hcalls'
        cases hcalls'
        have hcut := vectorLoop_cut 0 hcalls
        rw [hrun] at hcut
        cases hcut
      · unfold i32Max at hle
        omega
  · intro hnot
    refine ⟨n, ending, congrArg Prod.fst hcalls, state_vectorLoop count index 0 s, ?_⟩
    have hfits : n < 2^31 := by
      by_contra hlarge
      exact hnot ⟨n, ending, congrArg Prod.fst hcalls, .inr (by omega)⟩
    rcases vectorLoop_exact hio (le_refl (0 : ℤ)) hcalls (by omega) with
      hanswer | ⟨hnone, fault, hfails⟩ | ⟨e, rfl⟩
    · rw [hanswer]
      refine ⟨fun fault h => (by cases h), fun r h => ?_⟩
      rw [← Except.ok.inj h, zero_add]
    · rw [hfails]
      exact ⟨fun _ _ => by omega, fun r h => (by cases h)⟩
    · rw [vectorLoop_cut _ hcalls]
      refine ⟨fun _ _ => ?_, fun r h => (by cases h)⟩
      by_contra hmoved
      exact hnot ⟨n, .cut e, congrArg Prod.fst hcalls, .inl ⟨by omega, e, rfl⟩⟩

theorem asI32_bounds (z : ℤ) : i32Min ≤ asI32 z ∧ asI32 z ≤ i32Max := by
  unfold asI32 i32Min i32Max
  omega

theorem counts_read (fd : ℤ) : Counts x (Sys.read fd) := by
  intro start len s moved t h
  unfold Sys.read at h
  split at h
  · cases h
    decide
  · obtain ⟨r, u, -, h⟩ := Program.run_bind_eq_ok (exec x) h
    obtain ⟨-, u', -, h⟩ := Program.run_bind_eq_ok (exec x) h
    obtain ⟨hmoved, -⟩ := Prod.mk.inj h
    rw [← Except.ok.inj hmoved]
    exact asI32_bounds _

theorem counts_write (fd : ℤ) : Counts x (write fd) := by
  intro start len s moved t h
  unfold write at h
  obtain ⟨v, u, -, h⟩ := Program.run_bind_eq_ok (exec x) h
  obtain ⟨data, u', -, h⟩ := Program.run_bind_eq_ok (exec x) h
  obtain ⟨n, u'', -, h⟩ := Program.run_bind_eq_ok (exec x) h
  obtain ⟨hmoved, -⟩ := Prod.mk.inj h
  rw [← Except.ok.inj hmoved]
  exact asI32_bounds _

/-- One call after another for the segments that a `readv` or `writev` is given. -/
def segmentCalls (io : ℕ → ℕ → Handler ℤ) (a : Args) : Handler (ℕ × Ending) :=
  oneByOne io (asU32 a.a1) (max a.a2 0).toNat 0

/-- In every state and for all arguments, a `readv` or `writev` is exact unless
an entry outside memory follows what is moved, or too much is. -/
theorem vectored_exact_iff (a : Args) (s : Machine × W) :
    (Exact x (readv a) (segmentCalls (Sys.read a.a0) a) s ↔
      ¬ Miscounts x (segmentCalls (Sys.read a.a0) a) s) ∧
    (Exact x (writev a) (segmentCalls (write a.a0) a) s ↔ ¬ Miscounts x (segmentCalls (write a.a0) a) s) :=
  ⟨exact_vectorLoop (counts_read a.a0) _ _ s, exact_vectorLoop (counts_write a.a0) _ _ s⟩

end

/-- A guest that reads the last entry of its memory from standard input, and
then reads by it. -/
def Config.typesEntry : Config := { Config.bare [.guest 0] with stdin := [0, 0, 0, 0, 1, 0, 0, 0, 7] }

/-- A byte is read, and the call answers `EFAULT` for the entry after it. -/
theorem readv_faults : ∃ (k : Kernel) (w : List GuestRun) (p : Proc),
    Reached (Env.scripted (.startingWith (argWords [0, 0x10FFF8, 8, 0, 0, 0]))) (fun _ _ => True) k w ∧
    k.procs[0]? = some p ∧
    ¬ Exact (Env.scripted (.startingWith (argWords [0, 0x10FFF8, 8, 0, 0, 0])))
    (readv ⟨0, 0x10FFF8, 2, 0, 0, 0⟩)
      (segmentCalls (Sys.read 0) ⟨0, 0x10FFF8, 2, 0, 0, 0⟩) (k.machineOf p, w) := by
  have hspawn : Config.typesEntry.drive (Env.scripted (.startingWith (argWords [0, 0x10FFF8, 8, 0, 0, 0])))
      [⟨[.syscall 63 0, .setjmp 0], none⟩] 3 [⟨some 1, none⟩] = some (_, _) := rfl
  refine ⟨_, _, _, .between _ _ (between_drive hspawn), rfl, ?_⟩
  rintro ⟨n, ending, hcalls, -, herror, -⟩
  have hnone := herror (.errno .fault) rfl
  obtain ⟨hmoved, -⟩ := Prod.mk.inj
    (Except.ok.inj (hcalls.symm.trans (rfl : _ = Except.ok (1, Ending.cut .fault))))
  omega

end Wasmux
