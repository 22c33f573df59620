import Wasmux.Arrays
import Wasmux.Modes

/-!
# Where a write lands

A file is told when it is opened whether what it takes goes to its end.
`fcntl` changes what the description says of that, and not what the file does.
-/

set_option autoImplicit false

namespace Wasmux
open Effects Abi Sys

namespace ByteFiles

/-- Where bytes are to go, if at the end or else at the position of a handle. -/
def place (w : ByteFiles) (c : Cursor) (append : Bool) : ℕ :=
    if append then (w.contents c.data).length else c.pos

/-- A file has taken these bytes at its end, or else at the position of the handle. -/
def Took (before after : ByteFiles) (handle : Handle) (append : Bool) (bytes : Bytes) : Prop :=
  ∃ c, before.cursors handle = some c ∧
    after.contents c.data = splice (before.contents c.data) (before.place c append) bytes

/-- It is all one at which of the two places a file takes these bytes. -/
def Indifferent (w : ByteFiles) (handle : Handle) (bytes : Bytes) : Prop :=
  ∃ c, w.cursors handle = some c ∧
    splice (w.contents c.data) (w.place c true) bytes = splice (w.contents c.data) (w.place c false) bytes

/-- What was taken as one flag has it was taken as another has it, if they are
the same or the place is all one. -/
theorem took_iff {before after : ByteFiles} {handle : Handle} {mode : Bool} {bytes : Bytes}
    (h : before.Took after handle mode bytes) (append : Bool) :
    before.Took after handle append bytes ↔ append = mode ∨ before.Indifferent handle bytes := by
  obtain ⟨c, hc, hafter⟩ := h
  have htook : before.Took after handle append bytes ↔
      splice (before.contents c.data) (before.place c mode) bytes =
        splice (before.contents c.data) (before.place c append) bytes := by
    constructor
    · rintro ⟨c', hc', hafter'⟩
      obtain rfl : c = c' := Option.some.inj (hc.symm.trans hc')
      exact hafter.symm.trans hafter'
    · exact fun hsame => ⟨c, hc, hafter.trans hsame⟩
  have hone : before.Indifferent handle bytes ↔
      splice (before.contents c.data) (before.place c true) bytes =
        splice (before.contents c.data) (before.place c false) bytes := by
    constructor
    · rintro ⟨c', hc', hsame⟩
      obtain rfl : c = c' := Option.some.inj (hc.symm.trans hc')
      exact hsame
    · exact fun hsame => ⟨c, hc, hsame⟩
  rw [htook, hone]
  cases mode <;> cases append <;> simp [eq_comm]

theorem took_ask {w after : ByteFiles} {handle : Handle} {c : Cursor} {bytes : Bytes} {n : ℕ}
    (hc : w.cursors handle = some c) (h : w.ask handle (.write bytes) = (.ok n, after)) :
    n = bytes.length ∧ w.Took after handle c.append bytes := by
  simp only [ask, hc] at h
  split at h
  · cases h
  · obtain ⟨rfl, rfl⟩ := by simpa using h
    exact ⟨rfl, c, hc, Function.update_self ..⟩

end ByteFiles

def Desc.appends (d : Desc) : Bool := d.flags &&& oAppend != 0

/-- A description says of the end of its file what the file was opened with. -/
def Desc.AppendsAs (mode : Handle → Bool) (d : Desc) : Prop :=
    ∀ file i closed, d.kind = .file file i closed → d.appends = mode file

theorem aboutFiles_appendsAs (mode : Handle → Bool) : Desc.AboutFiles (Desc.AppendsAs mode) where
  other _ h file i closed hkind := absurd hkind (h file i closed)
  same d e hflags hkind h file i closed he := by
    rw [← h file i closed (hkind file i closed he), Desc.appends, Desc.appends, hflags]

section
variable {W : Type} (x : Env W) (see : W → ByteFiles) (mode : Handle → Bool)

/-- A store, seen as arrays, honours `append`: `mode` is what a file was opened
with, and what the file takes goes to its end by that. -/
def Op.Honours : Op → Machine × W → Prop
  | .env (.vfs i (.openFile path opts)), (m, w) => ∀ file,
    ((EnvCall.vfs i (.openFile path opts)).answer x m.shared.mounts w).1 = .ok file → mode file = opts.append
  | .env (.file file (.write data)), (m, w) => ∀ n after,
    (EnvCall.file file (.write data)).answer x m.shared.mounts w = (.ok n, after) →
      (see w).Took (see after) file (mode file) (data.take n)
  | _, _ => True

/-- A write through a description puts its bytes where the flags of that say. -/
def Op.Lands : Op → Machine × W → Prop
  | .env (.file file (.write data)), (m, w) => ∀ n after,
    (EnvCall.file file (.write data)).answer x m.shared.mounts w = (.ok n, after) →
      ∀ key d i closed, m.shared.descs.get key = some d → d.kind = .file file i closed →
        (see w).Took (see after) file d.appends (data.take n)
  | _, _ => True

/-- What is written goes through a description that says what the file was
opened with, or it is all one. -/
def Op.Agrees : Op → Machine × W → Prop
  | .env (.file file (.write data)), (m, w) => ∀ n after,
    (EnvCall.file file (.write data)).answer x m.shared.mounts w = (.ok n, after) →
      ∀ key d i closed, m.shared.descs.get key = some d → d.kind = .file file i closed →
        d.appends = mode file ∨ (see w).Indifferent file (data.take n)
  | _, _ => True

end

/-- No description of a file has `O_APPEND` switched. -/
def Op.Unswitching {W : Type} : Op → Machine × W → Prop
  | .act (.setDescFlags key flags), s => ∀ d file i closed, s.1.shared.descs.get key = some d →
    d.kind = .file file i closed → (flags &&& oAppend != 0) = d.appends
  | _, _ => True

section
variable {W : Type} {x : Env W} {see : W → ByteFiles} {mode : Handle → Bool}

theorem lands_iff {o : Op} {s : Machine × W} (h : o.Honours x see mode s) :
    o.Lands x see s ↔ o.Agrees x see mode s := by
  cases o with
  | act => exact Iff.rfl
  | env c =>
    cases c with
    | file file call =>
      cases call with
      | write data =>
        refine forall_congr' fun n => forall_congr' fun after => forall_congr' fun hanswer => ?_
        refine forall_congr' fun key => forall_congr' fun d => forall_congr' fun i =>
          forall_congr' fun closed => ?_
        exact forall_congr' fun _ => forall_congr' fun _ => ByteFiles.took_iff (h n after hanswer) d.appends
      | _ => exact Iff.rfl
    | _ => exact Iff.rfl

end

namespace MemWorld

def Knows {p : Width} (fs : MemWorld p) (mode : Handle → Bool) : Prop :=
    ∀ handle f, fs.files[handle]? = some f → f.append = mode handle

theorem openData_append {p : Width} {fs after : MemWorld p} {data : ℕ} {opts : OpenOptions} {handle : Handle}
    (h : fs.openData data opts = (.ok handle, after)) :
    ∃ f, after.files[handle]? = some f ∧ f.append = opts.append := by
  cases h
  exact ⟨_, List.getElem?_concat_length .., rfl⟩

theorem openFile_append {p : Width} {fs after : MemWorld p} {vfs : ℕ} {path : Text} {opts : OpenOptions}
    {handle : Handle} (h : fs.openFile vfs path opts = (.ok handle, after)) :
    ∃ f, after.files[handle]? = some f ∧ f.append = opts.append := by
  unfold openFile at h
  dsimp only at h
  split at h
  · cases h
  · split at h
    · split at h
      · cases h
      · split at h
        · exact openData_append h
        · exact openData_append h
    · cases h
    · cases h
    · split at h
      · cases h
      · split at h
        · cases h
        · exact openData_append h

theorem writeStart_lt {p : Width} (fs : MemWorld p) (f : MemFile) : fs.writeStart f < 2^63 := by
  unfold writeStart
  split
  · exact Buffer.length_lt _
  · exact f.reached

/-- On 64 bits a file takes what it is given the way it was opened. -/
theorem write_took {fs after : MemWorld .w64} (hb : fs.Backed) {handle : Handle} {f : MemFile}
    (hf : fs.files[handle]? = some f) {data : Bytes} {n : ℕ}
    (h : fs.file handle (.write data) = some (.ok n, after)) :
    fs.arrays.Took after.arrays handle f.append (data.take n) := by
  have hfits : fs.Representable handle (.write data) := by
    intro g hg hw
    obtain rfl : f = g := Option.some.inj (hf.symm.trans hg)
    have hwrites : fs.writeFile handle f data = some (.ok n, after) := (file_of_open hf _).symm.trans h
    obtain ⟨-, grown, -, spliced, hspliced, -⟩ := writeFile_some hw hwrites
    have hexact : Width.w64.usize (fs.writeStart f) = fs.writeStart f :=
      Nat.mod_eq_of_lt ((fs.writeStart_lt f).trans (by decide))
    rw [hexact] at hspliced
    exact (Buffer.splice_le hspliced).trans grown.held
  obtain ⟨r, after', hcall, hasks⟩ := (asArray_write hf (hb f (List.mem_of_getElem? hf)) data).mpr hfits
  obtain ⟨rfl, rfl⟩ : r = .ok n ∧ after' = after := by simpa using hcall.symm.trans h
  rcases hasks with ⟨⟨e, he⟩, -⟩ | hask
  · cases he
  · obtain ⟨rfl, htook⟩ := ByteFiles.took_ask (arrays_cursor hf) hask
    rw [List.take_length]
    exact htook

end MemWorld

/-- A `MemVfs` on 64 bits honours `append` in every step before and after which
`mode` is what its files were opened with. -/
theorem honours_memory {W : Type} (x : Env W) {mode : Handle → Bool} {o : Op} {m : Machine}
    {fs : MemWorld .w64} {w : W} (hb : fs.Backed) (hbefore : fs.Knows mode)
    (hafter : (exec (x.memory .w64) o (m, fs, w)).2.2.1.Knows mode) :
    o.Honours (x.memory .w64) (fun t => t.1.arrays) mode (m, fs, w) := by
  cases o with
  | act => trivial
  | env c =>
    cases c with
    | vfs i call =>
      cases call with
      | openFile path opts =>
        intro file hfile
        have hknows : ((EnvCall.vfs i (.openFile path opts)).answer (x.memory .w64) m.shared.mounts
            (fs, w)).2.1.Knows mode :=
          hafter
        simp only [EnvCall.answer] at hfile hknows
        split at hfile
        · rename_i mnt hmnt
          simp only [hmnt] at hknows
          have hopen : fs.openFile mnt.vfs path opts = (.ok file, (fs.openFile mnt.vfs path opts).2) :=
            Prod.ext hfile rfl
          obtain ⟨f, hf, happend⟩ := MemWorld.openFile_append hopen
          exact (hknows file f hf).symm.trans happend
        · cases hfile
      | _ => trivial
    | file file call =>
      cases call with
      | write data =>
        intro n after hanswer
        cases hcall : fs.file file (.write data) with
        | none => simp [EnvCall.answer, Env.memory, hcall] at hanswer
        | some r =>
          have hsame : (r.1, r.2, w) = (.ok n, after) := by
            simpa [EnvCall.answer, Env.memory, hcall] using hanswer
          obtain ⟨hn, rfl⟩ := Prod.mk.inj hsame
          cases hf : fs.files[file]? with
          | none =>
            rw [MemWorld.file, hf] at hcall
            obtain rfl := Option.some.inj hcall
            cases hn
          | some f =>
            rw [← hbefore file f hf]
            exact MemWorld.write_took hb hf (hcall.trans (congrArg some (Prod.ext hn rfl)))
      | _ => trivial
    | _ => trivial

section
variable {W : Type} {x : Env W} {see : W → ByteFiles} {mode : Handle → Bool}

abbrev Shared.AppendsAs (mode : Handle → Bool) (sh : Shared) : Prop := sh.descs.Every (Desc.AppendsAs mode)

theorem Shared.AppendsAs.agrees {s : Machine × W} (h : s.1.shared.AppendsAs mode) (o : Op) :
    o.Agrees x see mode s := by
  cases o with
  | act => trivial
  | env c =>
    cases c with
    | file file call =>
      cases call with
      | write data => exact fun _ _ _ key d i closed hd hkind => .inl (h key d hd file i closed hkind)
      | _ => trivial
    | _ => trivial

end

def Op.opensNone : Op → Prop
  | .act (.openDesc _ _ _ _) => False
  | _ => True

theorem Op.unmounted.opensNone {o : Op} (h : o.unmounted) : o.opensNone := by
  cases o with
  | env => trivial
  | act a =>
    cases a with
    | openDesc => exact h
    | _ => trivial

theorem Op.modest.opensNone {lengths : Bool} {o : Op} (h : o.modest lengths) : o.opensNone := by
  cases o with
  | env => trivial
  | act a =>
    cases a with
    | openDesc => exact h
    | _ => trivial

theorem opensNone_act (a : Act) (ha : a.streams = true) : (Op.act a).opensNone := by
  cases a with
  | openDesc => cases ha
  | _ => trivial

theorem opensNone_writeBytes (fd : ℤ) (data : Bytes) : (writeBytes fd data).Only Op.opensNone :=
  writeBytes_only opensNone_act (fun _ _ => trivial) fd data

/-- `openat` alone makes a description of what was opened. -/
theorem opensNone_handle (number : ℤ) (a : Args) (h : Nr.ofInt number ≠ .openat) :
    (handle number a).Only Op.opensNone := by
  have hunmounted : ∀ {p : Handler ℤ}, p.Only (Op.lawful Op.unmounted) → p.Only Op.opensNone := fun hp =>
    hp.mono fun _ ho => ho.of.opensNone
  by_cases hmild : (Nr.ofInt number).mild = true
  · exact (mild_handle number a hmild).mono fun _ ho => (ho.of.modest true).opensNone
  unfold handle
  cases hnr : Nr.ofInt number with
  | read => exact hunmounted (unmounted_read _ _ _)
  | readv => exact hunmounted (unmounted_readv a)
  | write => exact write_only opensNone_act (fun _ _ => trivial) _ _ _
  | writev =>
    apply only_vectorLoop trivial lift_only
    exact fun _ _ => write_only opensNone_act (fun _ _ => trivial) _ _ _
  | ftruncate => exact (modest_ftruncate a).mono fun _ => Op.modest.opensNone
  | fcntl => exact hunmounted (unmounted_fcntl a)
  | ioctl => exact hunmounted (unmounted_ioctl a)
  | openat => exact absurd hnr h
  | _ => exact absurd (by rw [hnr]; rfl) hmild

/-- What `openat` may ask, and what it may rely on. -/
def attaching (mode : Handle → Bool) : Program.Contract sig where
  asks
    | .act (.openDesc kind path flags _) => (Desc.new kind path flags).AppendsAs mode
    | .act (.setDescFlags _ _) => False
    | _ => True
  gives
    | .env (.vfs _ (.openFile _ opts)), .ok file => mode file = opts.append
    | _, _ => True

theorem append_status (flags : ℕ) :
    (flags &&& (oAccmode ||| oAppend ||| oNonblock)) &&& oAppend = flags &&& oAppend := by
  rw [Nat.and_assoc]
  congr 1

theorem admits_attaching (mode : Handle → Bool) : Admits (attaching mode) fun flags kind =>
    ∀ file i closed, kind = .file file i closed → (flags &&& oAppend != 0) = mode file where
  mild o ho := by
    cases o with
    | env => trivial
    | act a =>
      cases a with
      | openDesc | setDescFlags => cases ho
      | _ => trivial
  other _ _ h _ file i closed hkind := absurd hkind (h file i closed)
  device _ _ _ _ _ hkind := absurd hkind deviceKind_file
  file flags bits umask i rel := by
    refine obeys_env trivial ?_
    rintro (e | file) hmode
    · apply Program.obeys_ite
      · exact fun _ => obeys_act trivial fun _ _ => trivial
      · exact fun _ => trivial
    · intro file' i' closed hkind
      obtain ⟨rfl, -⟩ := DescKind.file.inj hkind
      exact hmode.symm
  opens flags kind path cloexec hkind file i closed hfile := by
    rw [← hkind file i closed hfile, Desc.appends, Desc.new, append_status]

section
variable {α W : Type} {x : Env W} {see : W → ByteFiles} {mode : Handle → Bool}

/-- A program that keeps what the descriptions say true, in a store that honours
`append` and as long as no flag is switched. -/
abbrev KeepsAppends (x : Env W) (see : W → ByteFiles) (mode : Handle → Bool) {ε : Type} (p : Program sig ε α)
    (s : Machine × W) : Prop :=
  Keeping x (fun o s => o.Honours x see mode s ∧ o.Unswitching s)
    (fun _ _ => True) (Shared.AppendsAs mode) p s

theorem keepsAppends_step {o : Op} {s : Machine × W} (hopen : o.opensNone) (ho : o.Unswitching s)
    (hs : s.1.shared.AppendsAs mode) : (exec x o s).2.1.shared.AppendsAs mode := by
  cases o with
  | env c => exact hs
  | act a =>
    apply Slab.Every.act (aboutFiles_appendsAs mode) hs
    · rintro kind path flags cloexec rfl
      cases hopen
    · rintro key flags rfl d hd hmode file i closed hkind
      exact (ho d file i closed hd hkind).trans (hmode file i closed hkind)

theorem keepsAppends_only {ε : Type} {p : Program sig ε α} (hp : p.Only Op.opensNone) {s : Machine × W}
    (hs : s.1.shared.AppendsAs mode) : KeepsAppends x see mode p s :=
  Program.meets_only (I := fun t : Machine × W => t.1.shared.AppendsAs mode)
    (fun _ _ ho ht hc => ⟨⟨ht, trivial⟩, keepsAppends_step ho hc.2 ht⟩) hp hs

/-- What obeys the contract of opening keeps it. -/
theorem keepsAppends_obeys {ε : Type} {p : Program sig ε α} (hp : p.Obeys (attaching mode) fun _ => True)
    {s : Machine × W} (hs : s.1.shared.AppendsAs mode) : KeepsAppends x see mode p s := by
  refine (hp.meets (I := fun t : Machine × W => t.1.shared.AppendsAs mode) ?_ hs).mono fun _ _ ht => ht.1
  intro o t ht hasks hc
  cases o with
  | env c =>
    refine ⟨⟨ht, trivial⟩, ht, ?_⟩
    cases c with
    | vfs i call =>
      cases call with
      | openFile path opts =>
        change (attaching mode).gives (.env (.vfs i (.openFile path opts)))
          ((EnvCall.vfs i (.openFile path opts)).answer x t.1.shared.mounts t.2).1
        have hfile : ∀ file, ((EnvCall.vfs i (.openFile path opts)).answer x t.1.shared.mounts t.2).1 =
          .ok file →
            mode file = opts.append := hc.1
        generalize ((EnvCall.vfs i (.openFile path opts)).answer x t.1.shared.mounts t.2).1 = answer at hfile
        cases answer with
        | ok file => exact hfile file rfl
        | error e => trivial
      | _ => trivial
    | _ => trivial
  | act a =>
    refine ⟨⟨ht, trivial⟩, ?_, by cases a <;> trivial⟩
    apply Slab.Every.act (aboutFiles_appendsAs mode) ht
    · rintro kind path flags cloexec rfl
      exact hasks
    · rintro key flags rfl
      cases hasks

theorem keepsAppends_handle (number : ℤ) (a : Args) {s : Machine × W} (hs : s.1.shared.AppendsAs mode) :
    KeepsAppends x see mode (handle number a) s := by
  by_cases hopen : Nr.ofInt number = .openat
  · have hhandle : handle number a = openat a := by
      unfold handle
      rw [hopen]
    rw [hhandle]
    exact keepsAppends_obeys ((admits_attaching mode).openat a) hs
  · exact keepsAppends_only (opensNone_handle number a hopen) hs

theorem upholds_appends (x : Env W) (see : W → ByteFiles) (mode : Handle → Bool) :
    Upholds x (fun o s => o.Honours x see mode s ∧ o.Unswitching s)
    (fun _ _ => True) (Shared.AppendsAs mode) where
  loop a k hk := hk.kact (aboutFiles_appendsAs mode) a
  minor o s ho hs := by
    refine ⟨trivial, keepsAppends_step (x := x) ?_ ?_ hs⟩
    · cases o with
      | env => trivial
      | act a => cases a <;> trivial
    · cases o with
      | env => trivial
      | act a => cases a <;> trivial
  reads fd len s hs := keepsAppends_only ((unmounted_readBytes fd len).mono fun _ ho => ho.of.opensNone) hs
  writes fd data s hs := keepsAppends_only (opensNone_writeBytes fd data) hs
  handles number args s hs := keepsAppends_handle number args hs

theorem lasting_appends (mode : Handle → Bool) : Lasting fun k => k.shared.AppendsAs mode where
  init _ _ _ hk := Slab.Every.kernel (aboutFiles_appendsAs mode) hk
  input _ _ _ hk := hk
  output _ _ _ hk := hk

end

/-- A store that is arrays, with one file that guests may open for writing. At
address zero are the arguments of an `openat` that does. -/
def Env.logged (more : List ℤ) : Env (ByteFiles × List GuestRun) :=
  { Env.still (ByteFiles × List GuestRun) with
    instantiate := fun _ w =>
      (some ⟨.startingWith (argWords ([atFdcwd, 24, 2, 0, 0, 0, 0x66, 0] ++ more)), 0, false⟩, w)
    guest := fun _ w => (w.2.headD ⟨[], none⟩, (w.1, w.2.tail))
    vfs := fun _ call w => match call with
      | .openFile _ opts => (if opts.append then .error .inval else .ok (0 : ℕ), w)
      | .stat _ _ => (.ok (.file 3), w)
      | _ => (.error .noent, w)
    file := fun handle call w =>
      if (w.1.cursors handle).any Cursor.append then (.error .badf, w)
      else ((w.1.ask handle call).1, (w.1.ask handle call).2, w.2) }

/-- The store honours `append`, as no file is opened with it. -/
theorem within_logged (more : List ℤ) (o : KOp) (s : Kernel × ByteFiles × List GuestRun) :
    o.Within (Op.Honours (Env.logged more) Prod.fst fun _ => false) s := by
  cases o with
  | env | act => trivial
  | machine index o =>
    intro p _
    cases o with
    | act => trivial
    | env c =>
      cases c with
      | vfs i call =>
        cases call with
        | openFile path opts =>
          intro file hfile
          simp only [EnvCall.answer] at hfile
          split at hfile
          · cases happend : opts.append with
            | false => rfl
            | true => simp [Env.logged, happend] at hfile
          · cases hfile
        | _ => trivial
      | file file call =>
        cases call with
        | write data =>
          intro n after hanswer
          cases hc : s.2.1.cursors file with
          | none => simp [EnvCall.answer, Env.logged, ByteFiles.ask, hc] at hanswer
          | some c =>
            cases happend : c.append with
            | true => simp [EnvCall.answer, Env.logged, hc, happend] at hanswer
            | false =>
              have hask : ((s.2.1.ask file (.write data)).1, (s.2.1.ask file (.write data)).2, s.2.2) =
                  (.ok n, after) := by
                simpa [EnvCall.answer, Env.logged, hc, happend] using hanswer
              obtain ⟨hn, hafter⟩ := Prod.mk.inj hask
              obtain ⟨rfl, htook⟩ := ByteFiles.took_ask hc (Prod.ext hn rfl)
              rw [happend] at htook
              rw [← hafter, List.take_length]
              exact htook
        | _ => trivial
      | _ => trivial

def threeBytes : ByteFiles :=
    ⟨fun _ => [97, 98, 99], fun h => if h = 0 then some ⟨0, 0, false, true⟩ else none⟩

/-- The operations that leave the flags of descriptions alone. -/
def KOp.setsNoFlags : KOp → Bool
  | .machine _ (.act (.setDescFlags _ _)) => false
  | _ => true

theorem within_unswitching {W : Type} {o : KOp} (h : o.setsNoFlags = true) (s : Kernel × W) :
    o.Within Op.Unswitching s := by
  cases o with
  | env | act => trivial
  | machine index o =>
    intro p _
    cases o with
    | env => trivial
    | act a =>
      cases a with
      | setDescFlags => cases h
      | _ => trivial

section
variable {W : Type} {x : Env W} {see : W → ByteFiles} {mode : Handle → Bool}

/-- In every run over a store that honours `append`, a write lands where the
flags of its description say if and only if those say what the file was opened
with, or it is all one. As long as no flag is switched it does. -/
theorem append_lands_iff {index : ℕ} {o : Op} {k : Kernel} {w : W} {p : Proc}
    (h : Performed x .blank (KOp.Within (Op.Honours x see mode)) (.machine index o) k w ())
    (hp : k.procs[index]? = some p) :
    (o.Lands x see (k.machineOf p, w) ↔ o.Agrees x see mode (k.machineOf p, w)) ∧
    (Performed x .blank (KOp.Within fun o s =>
      o.Honours x see mode s ∧ o.Unswitching s) (.machine index o) k w () →
      k.shared.AppendsAs mode ∧ o.Lands x see (k.machineOf p, w)) := by
  have hlands : o.Lands x see (k.machineOf p, w) ↔ o.Agrees x see mode (k.machineOf p, w) :=
    lands_iff ((h.keeps chronicled_blank).2 p hp)
  refine ⟨hlands, fun hsteady => ?_⟩
  have hkept := (hsteady.holds chronicled_blank (upholds_appends x see mode).kept (lasting_appends mode)).2
  have happends : k.shared.AppendsAs mode := hkept.1
  exact ⟨happends, hlands.mpr (Shared.AppendsAs.agrees (s := (k.machineOf p, w)) happends o)⟩

end

theorem along_logged (more : List ℤ) {ε α : Type} (p : Program ksig ε α)
    (s : Kernel × ByteFiles × List GuestRun)
    (h : (p.trace (kexec (Env.logged more)) s).all (fun v => v.op.setsNoFlags) = true) :
    Program.Along (kexec (Env.logged more)) (KOp.Within fun o s =>
      o.Honours (Env.logged more) Prod.fst (fun _ => false) s ∧ o.Unswitching s) p s := by
  refine (Program.along_iff_trace _ _ _ _).mpr fun v hv => ?_
  have hsets : v.op.setsNoFlags = true := List.all_eq_true.mp h v hv
  have hhonours := within_logged more v.op v.before
  have hunswitching := within_unswitching hsets v.before
  generalize v.op = o at hhonours hunswitching
  cases o with
  | env | act => trivial
  | machine index o => exact fun p hp => ⟨hhonours p hp, hunswitching p hp⟩

/-- A guest opens the file without `append`, and writes to it as it was opened. -/
theorem append_lands_iff_position : ∃ (k : Kernel) (w : ByteFiles × List GuestRun) (p : Proc),
    k.procs[0]? = some p ∧ k.shared.AppendsAs (fun _ => false) ∧
    (Op.env (.file 0 (.write [0x66]))).Lands (Env.logged [3, 24, 1, 0, 0, 0]) Prod.fst
      (k.machineOf p, w) := by
  have hstart : Recorded (Env.logged [3, 24, 1, 0, 0, 0]) .blank (KOp.Within fun o s =>
      o.Honours (Env.logged [3, 24, 1, 0, 0, 0]) Prod.fst (fun _ => false) s ∧ o.Unswitching s) ⟨_, none⟩
      (threeBytes, [⟨[.syscall 56 0, .syscall 64 32, .setjmp 0], none⟩]) () :=
    .start .oneMount 0 _ _ _ _ _ rfl (along_logged _ _ _ rfl) rfl
  have hwrite := Performed.running _ _ _ 3 ⟨some 1, none⟩ _ hstart (along_logged _ _ _ rfl)
    (List.mem_of_getElem? (i := 26) rfl)
  obtain ⟨data, k, w, p, hwrite, hp, rfl⟩ :
    ∃ (data : Bytes) (k : Kernel) (w : ByteFiles × List GuestRun) (p : Proc),
      Performed (Env.logged [3, 24, 1, 0, 0, 0]) .blank (KOp.Within fun o s =>
        o.Honours (Env.logged [3, 24, 1, 0, 0, 0]) Prod.fst (fun _ => false) s ∧ o.Unswitching s)
        (.machine 0 (.env (.file 0 (.write data)))) k w () ∧ k.procs[0]? = some p ∧ data = [0x66] :=
    ⟨_, _, _, _, hwrite, rfl, by decide +kernel⟩
  have hhonours := hwrite.mono
    (D := KOp.Within (Op.Honours (Env.logged [3, 24, 1, 0, 0, 0]) Prod.fst fun _ => false))
    fun o s _ => within_logged _ o s
  exact ⟨k, w, p, hp, (append_lands_iff hhonours hp).2 hwrite⟩

/-- A guest sets `O_APPEND` after it opened the file, and what it writes then
goes over the first byte. -/
theorem append_overwrites :
    ∃ (data : Bytes) (k : Kernel) (w after : ByteFiles × List GuestRun) (p : Proc) (d : Desc)
    (i : ℕ) (closed : Bool),
    Performed (Env.logged [3, 4, 1024, 0, 0, 0, 3, 24, 1, 0, 0, 0]) .blank
      (KOp.Within (Op.Honours (Env.logged [3, 4, 1024, 0, 0, 0, 3, 24, 1, 0, 0, 0]) Prod.fst fun _ => false))
      (.machine 0 (.env (.file 0 (.write data)))) k w () ∧
    k.procs[0]? = some p ∧ k.shared.descs.get 3 = some d ∧ d.kind = .file 0 i closed ∧ d.appends = true ∧
    (EnvCall.file 0 (.write data)).answer (Env.logged [3, 4, 1024, 0, 0, 0, 3, 24, 1, 0, 0, 0])
    k.shared.mounts w =
      (.ok 1, after) ∧
    w.1.contents 0 = [97, 98, 99] ∧ data = [0x66] ∧ after.1.contents 0 = [0x66, 98, 99] ∧
    ¬ (Op.env (.file 0 (.write data))).Lands (Env.logged [3, 4, 1024, 0, 0, 0, 3, 24, 1, 0, 0, 0]) Prod.fst
      (k.machineOf p, w) := by
  have hstart : Recorded (Env.logged [3, 4, 1024, 0, 0, 0, 3, 24, 1, 0, 0, 0]) .blank
      (KOp.Within (Op.Honours (Env.logged [3, 4, 1024, 0, 0, 0, 3, 24, 1, 0, 0, 0]) Prod.fst
        fun _ => false)) ⟨_, none⟩
      (threeBytes, [⟨[.syscall 56 0, .syscall 25 32, .syscall 64 56, .setjmp 0], none⟩]) () :=
    .start .oneMount 0 _ _ _ _ _ rfl (Program.along_of_forall _ (within_logged _) _ _) rfl
  have hwrite := Performed.running _ _ _ 3 ⟨some 1, none⟩ _ hstart
    (Program.along_of_forall _ (within_logged _) _ _)
    (List.mem_of_getElem? (i := 33) rfl)
  refine ⟨_, _, _, _, _, _, _, _, hwrite, rfl, rfl, rfl, rfl, rfl,
    rfl, by decide +kernel, by decide +kernel, fun hlands => ?_⟩
  obtain ⟨c, hc, hafter⟩ := hlands 1 _ rfl 3 _ _ _ rfl rfl
  obtain rfl := Option.some.inj hc
  revert hafter
  decide +kernel

end Wasmux
