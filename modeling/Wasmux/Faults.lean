import Wasmux.Modes

/-!
# Results that cannot be handed over

`read`, `getdents64`, `wait4` and `pipe2` take effect first and write guest
memory last. When that fails, what they took is gone.
-/

set_option autoImplicit false

namespace Wasmux
open Effects Abi Sys

theorem Slab.modify_self {α : Type} {s : Slab α} {k : ℕ} {f : α → α} (h : ∀ v, s.get k = some v → f v = v) :
    s.modify k f = s := by
  have hslots : (s.modify k f).slots = s.slots := by
    refine List.ext_getElem? fun j => ?_
    simp only [modify, List.getElem?_modify]
    by_cases hj : k = j
    · subst hj
      rcases hslot : s.slots[k]? with _ | _ | v
      · rfl
      · simp
      · simp [h v (get_eq_some.mpr hslot)]
    · simp [hj]
  cases s
  simp only [modify, Slab.mk.injEq, and_true] at hslots ⊢
  exact hslots

/-- Bytes are taken out of a file, or random ones are drawn. -/
def Op.Draws {W : Type} (x : Env W) : Op → Machine × W → Prop
  | .env (.file file (.read len)), s =>
    ∃ n buf, ((EnvCall.file file (.read len)).answer x s.1.shared.mounts s.2).1 = .ok (n, buf) ∧ 0 < n
  | .env (.random _), _ => True
  | _, _ => False

def Op.draws : Op → Bool
  | .env (.file _ (.read _)) | .env (.random _) => true
  | _ => false

theorem Op.Draws.draws {W : Type} {x : Env W} {o : Op} {s : Machine × W} (h : o.Draws x s) :
    o.draws = true := by
  unfold Op.Draws at h
  split at h
  · rfl
  · rfl
  · exact h.elim

section
variable {W α β : Type} (x : Env W)

def Intact (p : Handler α) (s : Machine × W) : Prop :=
  Program.Along (exec x) (fun o s => ¬ o.Draws x s) p s ∧ (p.run (exec x) s).2.1 = s.1

/-- The program leaves everything as it was when its error is `EFAULT`. -/
def FaultsWhole (p : Handler α) (s : Machine × W) : Prop :=
  (p.run (exec x) s).1 = .error (.errno .fault) → Intact x p s

variable {x} {s : Machine × W}

theorem along_frugal {p : Handler α} (hp : p.Only fun o : Op => o.draws = false) :
    Program.Along (exec x) (fun o s => ¬ o.Draws x s) p s := by
  have hmeets := Program.meets_only (x := exec x) (C := fun _ _ => True) (A := fun o s => ¬ o.Draws x s)
    (I := fun _ => True) (fun o t ho _ _ => ⟨fun h => (by cases ho.symm.trans h.draws), trivial⟩) hp
    (s := s) trivial
  exact (hmeets.run (Program.along_of_forall _ (fun _ _ => trivial) _ _)).1

theorem intact_frugal {p : Handler α} (hp : p.Only fun o : Op => o.draws = false) :
    Intact x p s ↔ (p.run (exec x) s).2.1 = s.1 := ⟨And.right, fun h => ⟨along_frugal hp, h⟩⟩

theorem run_put (start : ℕ) (data : Bytes) (s : Machine × W) :
    (start + data.length ≤ s.1.inst.mem.size ∧ ∃ m, m.shared = s.1.shared ∧
      m.inst.mem.size = s.1.inst.mem.size ∧
      (put start data).run (exec x) s = (.ok (), (m, s.2))) ∨
    (s.1.inst.mem.size < start + data.length ∧
      (put start data).run (exec x) s = (.error (.errno .fault), s)) := by
  have hrun : (put start data).run (exec x) s = (lift (Act.exec (.put start data) s.1).1).run (exec x)
      ((Act.exec (.put start data) s.1).2, s.2) := rfl
  rw [hrun]
  simp only [Act.exec, Mem.put]
  by_cases hfits : start + data.length ≤ s.1.inst.mem.size
  · rw [if_pos hfits]
    exact .inl ⟨hfits, s.1.setMem (s.1.inst.mem.write start data), rfl, rfl, rfl⟩
  · rw [if_neg hfits]
    exact .inr ⟨by omega, rfl⟩

theorem only_put {P : Op → Prop} (start : ℕ) (data : Bytes) (h : P (.act (.put start data))) :
    (put start data).Only P := by
  refine Program.only_bind (p := act (.put start data)) ⟨h, fun _ => trivial⟩ fun r => ?_
  cases r <;> trivial

/-- Something is taken first, and put into memory then. -/
theorem faultsWhole_put {p : Handler α} (start : ℕ) (data : α → Bytes) (f : α → β)
    (hmem : (p.run (exec x) s).2.1.inst.mem = s.1.inst.mem) :
    FaultsWhole x (p >>= fun a => put start (data a) >>= fun _ => .ret (f a)) s ↔ FaultsWhole x p s ∧
      ∀ a, (p.run (exec x) s).1 = .ok a → s.1.inst.mem.size < start + (data a).length → Intact x p s := by
  have hput : ∀ a t, Program.Along (exec x) (fun o s => ¬ o.Draws x s)
      (put start (data a) >>= fun _ => (.ret (f a) : Handler β)) t := fun a t =>
    along_frugal (Program.only_bind (only_put start (data a) rfl) fun _ => trivial)
  have hintact : ∀ {t : Machine × W},
    ((p >>= fun a => put start (data a) >>= fun _ => .ret (f a)).run (exec x) s).2 = t →
      (p.run (exec x) s).2.1 = t.1 →
      (Intact x (p >>= fun a => put start (data a) >>= fun _ => .ret (f a)) s ↔ Intact x p s) := by
    intro t ht hsame
    unfold Intact
    rw [Program.along_bind, ht, ← hsame]
    exact ⟨fun h => ⟨h.1.1, h.2⟩, fun h => ⟨⟨h.1, fun a t _ => hput a t⟩, h.2⟩⟩
  rcases hrun : p.run (exec x) s with ⟨e | a, t⟩
  · have hwhole := Program.run_bind_error (exec x)
      (f := fun a => put start (data a) >>= fun _ => .ret (f a)) hrun
    unfold FaultsWhole
    rw [hintact (congrArg Prod.snd hwhole) (by rw [hrun]), hwhole, hrun]
    exact ⟨fun h => ⟨fun he => h (congrArg Except.error (Except.error.inj he)), fun a ha => (by cases ha)⟩,
      fun h he => h.1 (congrArg Except.error (Except.error.inj he))⟩
  · rw [hrun] at hmem
    have hwhole := Program.run_bind_ok (exec x)
      (f := fun a => put start (data a) >>= fun _ => .ret (f a)) hrun
    rcases run_put (x := x) start (data a) t with ⟨hfits, m, -, -, hput⟩ | ⟨hout, hput⟩
    · have hok := hwhole.trans (Program.run_bind_ok (exec x) hput)
      unfold FaultsWhole
      rw [hok, hrun]
      refine ⟨fun _ => ⟨fun h => (by cases h), fun b hb hout => ?_⟩, fun _ h => (by cases h)⟩
      obtain rfl := Except.ok.inj hb
      rw [hmem] at hfits
      exact absurd hfits (by omega)
    · have hfails := hwhole.trans (Program.run_bind_error (exec x) hput)
      unfold FaultsWhole
      rw [hintact (congrArg Prod.snd hfails) (by rw [hrun]), hfails, hrun]
      rw [hmem] at hout
      refine ⟨fun h => ⟨fun h => (by cases h), fun b hb _ => h rfl⟩, fun h _ => h.2 a rfl hout⟩

theorem intact_view {f : View → Handler α} : Intact x (view >>= f) s ↔ Intact x (f s.1.view) s :=
  ⟨fun h => ⟨h.1.2, h.2⟩, fun h => ⟨⟨id, h.1⟩, h.2⟩⟩

/-- What `readBytes` does with an open description. -/
def readDesc (v : View) (key : DescKey) (desc : Desc) (len : ℕ) : Handler (ℕ × Bytes) :=
  match desc.kind with
  | .file file _ _ => fileAsk file (.read len) >>= fun r => .ret (r.1, fitBuffer len r.2)
  | .memory data pos =>
    act (.setDescPos key (min pos data.length + min (data.drop (min pos data.length)).length len)) >>=
        fun _ =>
      .ret (min (data.drop (min pos data.length)).length len,
        fitBuffer len ((data.drop (min pos data.length)).take
          (min (data.drop (min pos data.length)).length len)))
  | .null => .ret (0, List.replicate len 0)
  | .zero => .ret (len, List.replicate len 0)
  | .random => env (.random len) >>= fun bytes => .ret (len, fitBuffer len bytes)
  | .dir _ _ => fail .isdir
  | .pipeWrite _ | .stdout _ => fail .badf
  | .stdin =>
    if v.stdin = [] then
      if v.stdinClosed then .ret (0, List.replicate len 0)
      else if desc.isNonblocking then fail .again
      else act .wantStdin >>= fun _ => .fail .block
    else act (.stdinTake len) >>= fun bytes => .ret (bytes.length, fitBuffer len bytes)
  | .pipeRead key =>
    match v.pipes.get key with
    | none => fail .badf
    | some pipe =>
      if pipe.data = [] then
        if pipe.writers = 0 then .ret (0, List.replicate len 0)
        else if desc.isNonblocking then fail .again
        else .fail .block
      else act (.pipeTake key (min pipe.data.length len)) >>= fun bytes =>
        .ret (bytes.length, fitBuffer len bytes)

theorem readBytes_eq (fd : ℤ) (len : ℕ) : readBytes fd len = if len = 0 then .ret (0, []) else
    view >>= fun v => lift (openFd v fd) >>= fun r =>
      if !r.2.readable then fail .badf else readDesc v r.1.desc r.2 len := by
  unfold readBytes
  split
  · rfl
  refine congrArg (Program.bind (view : Handler View)) (funext fun v => ?_)
  refine congrArg (Program.bind (lift (openFd v fd))) (funext fun r => ?_)
  obtain ⟨entry, ⟨kind, path, flags, refs⟩⟩ := r
  cases kind <;> rfl

/-- A position set to what it is changes nothing, and nothing else does. -/
theorem setDescPos_eq {m : Machine} {key : DescKey} {desc : Desc} {pos : ℕ} (pos' : ℕ)
    (hdesc : m.shared.descs.get key = some desc)
    (hkind : (∃ data, desc.kind = .memory data pos) ∨ ∃ entries, desc.kind = .dir entries pos) :
    (Act.exec (.setDescPos key pos') m).2 = m ↔ pos' = pos := by
  constructor
  · intro hsame
    have hget := congrArg (fun m : Machine => m.shared.descs.get key) hsame
    change (m.shared.descs.modify key _).get key = _ at hget
    rw [Slab.get_modify_self, hdesc, Option.map_some] at hget
    have hpos := congrArg Desc.kind (Option.some.inj hget)
    rcases hkind with ⟨data, hkind⟩ | ⟨entries, hkind⟩
    · simpa [hkind] using hpos
    · simpa [hkind] using hpos
  · rintro rfl
    simp only [Act.exec]
    rw [Slab.modify_self]
    · rfl
    intro d hd
    obtain rfl := Option.some.inj (hdesc.symm.trans hd)
    obtain ⟨kind, path, flags, refs⟩ := desc
    rcases hkind with ⟨data, hkind⟩ | ⟨entries, hkind⟩
    · obtain rfl : kind = .memory data pos' := hkind
      rfl
    · obtain rfl : kind = .dir entries pos' := hkind
      rfl

/-- A read of up to `len` bytes through this description takes something away, and answers `n`. -/
def Machine.Yields (x : Env W) (m : Machine) (w : W) (desc : Desc) (len n : ℕ) : Prop :=
  match desc.kind with
  | .file file _ _ => 0 < n ∧ ∃ buf, ((EnvCall.file file (.read len)).answer x m.shared.mounts w).1 =
      .ok (n, buf)
  | .memory data pos => n = min (data.length - pos) len ∧ min pos data.length + n ≠ pos
  | .random => n = len
  | .stdin => n = Machine.lineLength m.shared.stdin.data len ∧ m.shared.stdin.data ≠ []
  | .pipeRead key => ∃ pipe, m.shared.pipes.get key = some pipe ∧ n = min pipe.data.length len ∧
      pipe.data ≠ []
  | _ => False

theorem lineLength_le_length (data : Bytes) (count : ℕ) : Machine.lineLength data count ≤ data.length := by
  unfold Machine.lineLength
  dsimp only
  split
  · rename_i i hi
    have := (List.findIdx?_eq_some_iff_getElem.mp hi).1
    rw [List.length_take] at this
    omega
  · rw [List.length_take]
    omega

theorem lineLength_pos {data : Bytes} {count : ℕ} (hdata : data ≠ []) (hcount : count ≠ 0) :
    0 < Machine.lineLength data count := by
  unfold Machine.lineLength
  dsimp only
  split
  · omega
  · rw [List.length_take]
    have := List.length_pos_iff.mpr hdata
    omega

theorem length_fitBuffer (len : ℕ) (buf : Bytes) : (fitBuffer len buf).length = len := by
  simp [fitBuffer]
  omega

/-- A program that reads answers with a buffer of `len` bytes, and takes something away
just when it is one of these. -/
structure Reading (x : Env W) (p : Handler (ℕ × Bytes)) (s : Machine × W) (len : ℕ)
    (yields : ℕ → Prop) : Prop where
  mem : (p.run (exec x) s).2.1.inst.mem = s.1.inst.mem
  error : ∀ e, (p.run (exec x) s).1 = .error (.errno e) → Intact x p s
  ok : ∀ a, (p.run (exec x) s).1 = .ok a → a.2.length = len ∧ (Intact x p s ↔ ¬ yields a.1)
  answer : ∀ n, yields n → ∃ buf, (p.run (exec x) s).1 = .ok (n, buf)

theorem reading_intact {p : Handler (ℕ × Bytes)} {len : ℕ} {yields : ℕ → Prop} (hp : Intact x p s)
    (hok : ∀ a, (p.run (exec x) s).1 = .ok a → a.2.length = len) (hnot : ∀ n, ¬ yields n) :
    Reading x p s len yields where
  mem := congrArg (fun m => m.inst.mem) hp.2
  error := fun _ _ => hp
  ok := fun a ha => ⟨hok a ha, iff_of_true hp (hnot _)⟩
  answer := fun n hn => absurd hn (hnot n)

theorem reading_block {p : Handler (ℕ × Bytes)} {len : ℕ} {yields : ℕ → Prop}
    (hp : (p.run (exec x) s).1 = .error .block) (hmem : (p.run (exec x) s).2.1.inst.mem = s.1.inst.mem)
    (hnot : ∀ n, ¬ yields n) : Reading x p s len yields where
  mem := hmem
  error := fun e he => by cases hp.symm.trans he
  ok := fun a ha => by cases hp.symm.trans ha
  answer := fun n hn => absurd hn (hnot n)

theorem reading_taken {p : Handler (ℕ × Bytes)} {len n : ℕ} {yields : ℕ → Prop} {buf : Bytes}
    (hp : (p.run (exec x) s).1 = .ok (n, buf)) (hmem : (p.run (exec x) s).2.1.inst.mem = s.1.inst.mem)
    (hlen : buf.length = len) (htaken : Intact x p s ↔ ¬ yields n) (honly : ∀ n', yields n' → n' = n) :
    Reading x p s len yields where
  mem := hmem
  error := fun e he => by cases hp.symm.trans he
  ok := fun a ha => by
    obtain rfl := Except.ok.inj (hp.symm.trans ha)
    exact ⟨hlen, htaken⟩
  answer := fun n' hn' => ⟨buf, by rw [hp, honly n' hn']⟩

section
variable {m : Machine} {w : W} {key : DescKey} {desc : Desc} {len : ℕ}

theorem reading_file {file : Handle} {i : ℕ} {closed : Bool} (hkind : desc.kind = .file file i closed) :
    Reading x (readDesc m.view key desc len) (m, w) len (m.Yields x w desc len) := by
  unfold readDesc Machine.Yields
  simp only [hkind]
  have hrun : ∀ f : ℕ × Bytes → Handler (ℕ × Bytes), (fileAsk file (.read len) >>= f).run (exec x) (m, w) =
      ((orVfsFault ((EnvCall.file file (.read len)).answer x m.shared.mounts w).1) >>= f).run (exec x)
        (m, ((EnvCall.file file (.read len)).answer x m.shared.mounts w).2) := fun f => rfl
  rcases hanswer : ((EnvCall.file file (.read len)).answer x m.shared.mounts w).1 with e | r
  · have hspares : ¬ (Op.env (.file file (.read len))).Draws x (m, w) := by
      rintro ⟨n, buf, h, -⟩
      cases hanswer.symm.trans h
    have hnot : ∀ n, ¬ (0 < n ∧ ∃ buf, (Except.error e : Except Errno (FileCall.Ans (.read len))) =
        .ok (n, buf)) := by
      rintro n ⟨-, buf, h⟩
      cases h
    by_cases hagain : e = .again
    · subst hagain
      exact reading_block (by rw [hrun, hanswer]; rfl) (by rw [hrun, hanswer]; rfl) hnot
    · have hfault : (orVfsFault (.error e) : Handler (ℕ × Bytes)) = fail e := if_neg hagain
      refine reading_intact ⟨⟨hspares, ?_⟩, ?_⟩ (fun a ha => ?_) hnot
      · change Program.Along _ _
          (orVfsFault ((EnvCall.file file (.read len)).answer x m.shared.mounts w).1 >>= _) _
        rw [hanswer, hfault]
        trivial
      · rw [hrun, hanswer, hfault]
        rfl
      · rw [hrun, hanswer, hfault] at ha
        cases ha
  · obtain ⟨n, buf⟩ := r
    have hok : (fileAsk file (.read len) >>= fun r =>
      (.ret (r.1, fitBuffer len r.2) : Handler (ℕ × Bytes))).run (exec x)
        (m, w) = (.ok (n, fitBuffer len buf),
          (m, ((EnvCall.file file (.read len)).answer x m.shared.mounts w).2)) := by
      rw [hrun, hanswer]
      rfl
    refine reading_taken (by rw [hok]) (by rw [hok]) (length_fitBuffer _ _) ?_ ?_
    · have htakes : (Op.env (.file file (.read len))).Draws x (m, w) ↔ 0 < n := by
        refine ⟨?_, fun hn => ⟨n, buf, hanswer, hn⟩⟩
        rintro ⟨n', buf', h, hn⟩
        obtain ⟨rfl, -⟩ := Prod.mk.inj (Except.ok.inj (hanswer.symm.trans h))
        exact hn
      refine ⟨fun h hyields => h.1.1 (htakes.mpr hyields.1), fun hnot => ⟨⟨fun h => ?_, ?_⟩, by rw [hok]⟩⟩
      · exact hnot ⟨htakes.mp h, buf, rfl⟩
      · change Program.Along _ _
          (orVfsFault ((EnvCall.file file (.read len)).answer x m.shared.mounts w).1 >>= _) _
        rw [hanswer]
        trivial
    · rintro n' ⟨-, buf', h⟩
      exact (Prod.mk.inj (Except.ok.inj h)).1.symm

theorem reading_memory {data : Bytes} {pos : ℕ} (hdesc : m.shared.descs.get key = some desc)
    (hkind : desc.kind = .memory data pos) :
    Reading x (readDesc m.view key desc len) (m, w) len (m.Yields x w desc len) := by
  unfold readDesc Machine.Yields
  simp only [hkind]
  have hcount : min (data.drop (min pos data.length)).length len = min (data.length - pos) len := by
    rw [List.length_drop]
    omega
  rw [hcount]
  refine reading_taken rfl rfl (length_fitBuffer _ _) ?_ fun n' hn' => hn'.1
  have hfrugal : (act (.setDescPos key (min pos data.length + min (data.length - pos) len)) >>= fun _ =>
      (.ret (min (data.length - pos) len,
        fitBuffer len ((data.drop (min pos data.length)).take (min (data.length - pos) len))) :
          Handler (ℕ × Bytes))).Only fun o : Op => o.draws = false := ⟨rfl, fun _ => trivial⟩
  refine (intact_frugal hfrugal).trans ((setDescPos_eq _ hdesc (.inl ⟨data, hkind⟩)).trans ?_)
  exact ⟨fun hsame h => h.2 hsame, fun hnot => by_contra fun hmoves => hnot ⟨rfl, hmoves⟩⟩

theorem reading_stdin (hlen : len ≠ 0) (hkind : desc.kind = .stdin) :
    Reading x (readDesc m.view key desc len) (m, w) len (m.Yields x w desc len) := by
  unfold readDesc Machine.Yields
  simp only [hkind]
  by_cases hempty : m.view.stdin = []
  · have hnot : ∀ n, ¬ (n = Machine.lineLength m.shared.stdin.data len ∧ m.shared.stdin.data ≠ []) :=
      fun n h => h.2 hempty
    rw [if_pos hempty]
    split
    · exact reading_intact ⟨trivial, rfl⟩ (fun a ha => by cases ha; exact List.length_replicate) hnot
    · split
      · exact reading_intact ⟨trivial, rfl⟩ (fun a ha => by cases ha) hnot
      · exact reading_block rfl rfl hnot
  · rw [if_neg hempty]
    have hdata : m.shared.stdin.data ≠ [] := hempty
    have hcount : (m.shared.stdin.data.take (Machine.lineLength m.shared.stdin.data len)).length =
        Machine.lineLength m.shared.stdin.data len := List.length_take_of_le (lineLength_le_length _ _)
    refine reading_taken rfl rfl (length_fitBuffer _ _) (iff_of_false
      (fun h => ?_) fun hnot => hnot ⟨hcount, hdata⟩)
      fun n' hn' => hn'.1.trans hcount.symm
    have hlength := congrArg (fun m : Machine => m.shared.stdin.data.length) h.2
    change (m.shared.stdin.data.drop _).length = m.shared.stdin.data.length at hlength
    rw [List.length_drop] at hlength
    have := lineLength_pos hdata hlen
    have := List.length_pos_iff.mpr hdata
    omega

theorem reading_pipe {pipeKey : PipeKey} (hlen : len ≠ 0) (hkind : desc.kind = .pipeRead pipeKey) :
    Reading x (readDesc m.view key desc len) (m, w) len (m.Yields x w desc len) := by
  unfold readDesc Machine.Yields
  simp only [hkind]
  cases hpipe : m.view.pipes.get pipeKey with
  | none =>
    refine reading_intact ⟨trivial, rfl⟩ (fun a ha => by cases ha) ?_
    rintro n ⟨pipe, h, -⟩
    cases hpipe.symm.trans h
  | some pipe =>
    dsimp only
    by_cases hempty : pipe.data = []
    · have hnot : ∀ n, ¬ ∃ pipe, m.shared.pipes.get pipeKey = some pipe ∧ n = min pipe.data.length len ∧
          pipe.data ≠ [] := by
        rintro n ⟨pipe', h, -, hdata⟩
        obtain rfl := Option.some.inj (hpipe.symm.trans h)
        exact hdata hempty
      rw [if_pos hempty]
      split
      · exact reading_intact ⟨trivial, rfl⟩ (fun a ha => by cases ha; exact List.length_replicate) hnot
      · split
        · exact reading_intact ⟨trivial, rfl⟩ (fun a ha => by cases ha) hnot
        · exact reading_block rfl rfl hnot
    · rw [if_neg hempty]
      have hbytes : (Act.exec (.pipeTake pipeKey (min pipe.data.length len)) m).1 =
      pipe.data.take (min pipe.data.length len) := by
        change ((m.shared.pipes.get pipeKey).map _).getD [] = _
        rw [show m.shared.pipes.get pipeKey = some pipe from hpipe]
        rfl
      have hcount : (Act.exec (.pipeTake pipeKey (min pipe.data.length len)) m).1.length =
          min pipe.data.length len := by
        rw [hbytes, List.length_take]
        omega
      refine reading_taken rfl rfl (length_fitBuffer _ _) (iff_of_false (fun h => ?_) fun hnot => ?_) ?_
      · have hdata := congrArg (fun m : Machine => (m.shared.pipes.get pipeKey).map
          fun p => p.data.length) h.2
        change ((m.shared.pipes.modify pipeKey _).get pipeKey).map _ = _ at hdata
        rw [Slab.get_modify_self, show m.shared.pipes.get pipeKey = some pipe from hpipe] at hdata
        have hlength := Option.some.inj hdata
        dsimp only at hlength
        rw [List.length_drop] at hlength
        have := List.length_pos_iff.mpr hempty
        omega
      · exact hnot ⟨pipe, hpipe, hcount, hempty⟩
      · rintro n' ⟨pipe', h, hn, -⟩
        obtain rfl := Option.some.inj (hpipe.symm.trans h)
        exact hn.trans hcount.symm

theorem reading_readDesc (hlen : len ≠ 0) (hdesc : m.shared.descs.get key = some desc) :
    Reading x (readDesc m.view key desc len) (m, w) len (m.Yields x w desc len) := by
  cases hkind : desc.kind with
  | file => exact reading_file hkind
  | memory => exact reading_memory hdesc hkind
  | stdin => exact reading_stdin hlen hkind
  | pipeRead => exact reading_pipe hlen hkind
  | random =>
    unfold readDesc Machine.Yields
    simp only [hkind]
    exact reading_taken rfl rfl (length_fitBuffer _ _) (iff_of_false
      (fun h => h.1.1 trivial) fun h => h rfl) fun n' hn' => hn'
  | null | zero =>
    unfold readDesc Machine.Yields
    simp only [hkind]
    exact reading_intact ⟨trivial, rfl⟩ (fun a ha => by cases ha; exact List.length_replicate) fun _ => id
  | dir | pipeWrite | stdout =>
    unfold readDesc Machine.Yields
    simp only [hkind]
    exact reading_intact ⟨trivial, rfl⟩ (fun a ha => by cases ha) fun _ => id

end

def Machine.HandsOver (x : Env W) (m : Machine) (w : W) (fd : ℤ) (len n : ℕ) : Prop :=
  ∃ entry desc, openFd m.view fd = .ok (entry, desc) ∧ desc.readable = true ∧ m.Yields x w desc len n

theorem reading_readBytes {m : Machine} {w : W} {fd : ℤ} {len : ℕ} (hlen : len ≠ 0) :
    Reading x (readBytes fd len) (m, w) len (m.HandsOver x w fd len) := by
  have hview : ∀ {f : View → Handler (ℕ × Bytes)}, Reading x (f m.view) (m, w) len (m.HandsOver x w fd len) →
      Reading x (view >>= f) (m, w) len (m.HandsOver x w fd len) := fun h =>
    ⟨h.mem, fun e he => intact_view.mpr (h.error e he),
      fun a ha => ⟨(h.ok a ha).1, intact_view.trans (h.ok a ha).2⟩, h.answer⟩
  rw [readBytes_eq, if_neg hlen]
  apply hview
  rcases hopen : openFd m.view fd with e | r
  · refine reading_intact ⟨trivial, rfl⟩ (fun a ha => by cases ha) ?_
    rintro n ⟨entry, desc, h, -⟩
    cases hopen.symm.trans h
  · rw [lift_ok, Program.ret_bind]
    by_cases hreadable : r.2.readable = true
    · rw [if_neg (by simp [hreadable])]
      have hdesc : m.shared.descs.get r.1.desc = some r.2 := openFd_desc hopen
      have hsame : m.HandsOver x w fd len = m.Yields x w r.2 len := by
        funext n
        refine propext ⟨?_, fun h => ⟨r.1, r.2, hopen, hreadable, h⟩⟩
        rintro ⟨entry, desc, h, -, hyields⟩
        obtain rfl := Except.ok.inj (hopen.symm.trans h)
        exact hyields
      rw [hsame]
      exact reading_readDesc hlen hdesc
    · rw [if_pos (by simp [hreadable])]
      refine reading_intact ⟨trivial, rfl⟩ (fun a ha => by cases ha) ?_
      rintro n ⟨entry, desc, h, hr, -⟩
      obtain rfl := Except.ok.inj (hopen.symm.trans h)
      exact hreadable hr

/-- What is copied of the `n` bytes a read claims to have put into `len`. -/
def copied (len n : ℕ) : ℕ := if n ≤ len then n else 0

theorem length_prefixOrEmpty (buf : Bytes) (n : ℕ) : (prefixOrEmpty buf n).length = copied buf.length n := by
  unfold prefixOrEmpty copied
  split
  · rw [List.length_take]
    omega
  · rfl

theorem faultsWhole_read (fd : ℤ) (start length : ℕ) (m : Machine) (w : W) :
    FaultsWhole x (read fd start length) (m, w) ↔
    ¬ (length ≠ 0 ∧ ∃ n, m.HandsOver x w fd (min length (2^20)) n ∧
      m.inst.mem.size < start + copied (min length (2^20)) n) := by
  unfold Sys.read
  split
  · rename_i hzero
    exact iff_of_true (fun h => by cases h) fun h => h.1 hzero
  · rename_i hlength
    have hreading : Reading x (readBytes fd (min length (2^20))) (m, w) (min length (2^20))
        (m.HandsOver x w fd (min length (2^20))) :=
      reading_readBytes (by omega)
    refine (faultsWhole_put start (fun r : ℕ × Bytes => prefixOrEmpty r.2 r.1)
      (fun r => asI32 r.1) hreading.mem).trans ?_
    constructor
    · rintro ⟨-, hwhole⟩ ⟨-, n, hyields, hout⟩
      obtain ⟨buf, hok⟩ := hreading.answer n hyields
      obtain ⟨hbuf, hintact⟩ := hreading.ok _ hok
      refine hintact.mp (hwhole _ hok ?_) hyields
      rw [length_prefixOrEmpty, hbuf]
      exact hout
    · intro hnot
      refine ⟨hreading.error .fault, fun r hok hout => ?_⟩
      obtain ⟨hbuf, hintact⟩ := hreading.ok r hok
      rw [length_prefixOrEmpty, hbuf] at hout
      exact hintact.mpr fun hyields => hnot ⟨hlength, r.1, hyields, hout⟩

/-- The directory entries that fit are passed over, and cannot be handed over. -/
def Machine.SkipsEntries (m : Machine) (a : Args) : Prop :=
  ∃ entry desc entries pos block next, openFd m.view a.a0 = .ok (entry, desc) ∧ desc.kind = .dir entries pos ∧
    direntBlock (asU32 a.a2) (entries.drop pos) pos [] = some (block, next) ∧ next ≠ pos ∧
    m.inst.mem.size < asU32 a.a1 + block.length

theorem frugal_lift (r : Except Errno α) : (lift r).Only fun o : Op => o.draws = false := by
  cases r <;> trivial

theorem frugal_put (start : ℕ) (data : Bytes) : (put start data).Only fun o : Op => o.draws = false :=
    only_put start data rfl

theorem faultsWhole_frugal {p : Handler α} (hp : p.Only fun o : Op => o.draws = false) : FaultsWhole x p s ↔
    ((p.run (exec x) s).1 = .error (.errno .fault) → (p.run (exec x) s).2.1 = s.1) :=
  imp_congr_right fun _ => intact_frugal hp

/-- What `getdents64` does with an open description. -/
def listEntries (a : Args) (key : DescKey) (desc : Desc) : Handler ℤ :=
  match desc.kind with
  | .dir entries pos =>
    match direntBlock (asU32 a.a2) (entries.drop pos) pos [] with
    | none => fail .inval
    | some (block, next) => do
      act (.setDescPos key next)
      put (asU32 a.a1) block
      return asI32 block.length
  | _ => fail .notdir

theorem getdents64_eq (a : Args) : getdents64 a = view >>= fun v => lift (openFd v a.a0) >>= fun r =>
    listEntries a r.1.desc r.2 := rfl

theorem frugal_listEntries (a : Args) (key : DescKey) (desc : Desc) :
    (listEntries a key desc).Only fun o : Op => o.draws = false := by
  unfold listEntries
  split
  · split
    · trivial
    · refine Program.only_bind (p := act _) ⟨rfl, fun _ => trivial⟩ fun _ => ?_
      exact Program.only_bind (frugal_put _ _) fun _ => trivial
  · trivial

theorem faultsWhole_getdents64 (a : Args) (m : Machine) (w : W) :
    FaultsWhole x (getdents64 a) (m, w) ↔ ¬ m.SkipsEntries a := by
  have hfrugal : (getdents64 a).Only fun o : Op => o.draws = false := by
    rw [getdents64_eq]
    refine Program.only_bind (p := view) ⟨rfl, fun _ => trivial⟩ fun v => ?_
    exact Program.only_bind (frugal_lift _) fun r => frugal_listEntries a r.1.desc r.2
  rw [faultsWhole_frugal hfrugal, getdents64_eq]
  change ((Program.run (exec x) (lift (openFd m.view a.a0) >>= _) (m, w)).1 = _ → (Program.run (exec x)
    (lift (openFd m.view a.a0) >>= _) (m, w)).2.1 = m) ↔ _
  rcases hopen : openFd m.view a.a0 with e | ⟨entry, desc⟩
  · refine iff_of_true (fun _ => rfl) ?_
    rintro ⟨entry, desc, _, _, _, _, h, -⟩
    cases hopen.symm.trans h
  have hdesc : m.shared.descs.get entry.desc = some desc := openFd_desc hopen
  rw [lift_ok, Program.ret_bind]
  have hdir : m.SkipsEntries a ↔ ∃ entries pos block next, desc.kind = .dir entries pos ∧
      direntBlock (asU32 a.a2) (entries.drop pos) pos [] = some (block, next) ∧ next ≠ pos ∧
      m.inst.mem.size < asU32 a.a1 + block.length := by
    constructor
    · rintro ⟨entry', desc', entries, pos, block, next, h, hskips⟩
      obtain ⟨-, rfl⟩ := Prod.mk.inj (Except.ok.inj (hopen.symm.trans h))
      exact ⟨entries, pos, block, next, hskips⟩
    · rintro ⟨entries, pos, block, next, hskips⟩
      exact ⟨entry, desc, entries, pos, block, next, hopen, hskips⟩
  rw [hdir]
  unfold listEntries
  dsimp only
  cases hkind : desc.kind with
  | dir entries pos =>
    dsimp only
    rcases hblock : direntBlock (asU32 a.a2) (entries.drop pos) pos [] with _ | ⟨block, next⟩
    · refine iff_of_true (fun h => by cases h) ?_
      rintro ⟨_, _, block, next, h, hblock', -⟩
      cases h
      cases hblock.symm.trans hblock'
    · have hskips : (∃ entries' pos' block' next', DescKind.dir entries pos = .dir entries' pos' ∧
          direntBlock (asU32 a.a2) (entries'.drop pos') pos' [] = some (block', next') ∧ next' ≠ pos' ∧
          m.inst.mem.size < asU32 a.a1 + block'.length) ↔ next ≠ pos ∧
          m.inst.mem.size < asU32 a.a1 + block.length := by
        constructor
        · rintro ⟨_, _, block', next', h, hblock', hmoves⟩
          cases h
          obtain ⟨rfl, rfl⟩ := Prod.mk.inj (Option.some.inj (hblock.symm.trans hblock'))
          exact hmoves
        · exact fun hmoves => ⟨entries, pos, block, next, rfl, hblock, hmoves⟩
      rw [hskips]
      have hmoved := setDescPos_eq next hdesc (.inr ⟨entries, hkind⟩)
      change ((Program.run (exec x) (put (asU32 a.a1) block >>= _)
        ((Act.exec (.setDescPos entry.desc next) m).2, w)).1 = _ →
        (Program.run (exec x) (put (asU32 a.a1) block >>= _) ((Act.exec (.setDescPos entry.desc next) m).2,
          w)).2.1 = m) ↔ _
      rcases run_put (x := x) (asU32 a.a1) block ((Act.exec (.setDescPos entry.desc next) m).2, w) with
        ⟨hfits, m', -, -, hput⟩ | ⟨hout, hput⟩
      · rw [Program.run_bind_ok (exec x) hput]
        exact iff_of_true (fun h => by cases h) fun h => absurd h.2 (not_lt.mpr hfits)
      · rw [Program.run_bind_error (exec x) hput]
        exact ⟨fun h hskips => hskips.1 (hmoved.mp (h rfl)), fun hnot _ =>
          hmoved.mpr (by_contra fun hmoves => hnot ⟨hmoves, hout⟩)⟩
  | _ =>
    refine iff_of_true (fun _ => rfl) ?_
    rintro ⟨_, _, _, _, h, -⟩
    cases h

/-- A child that has ended is found, and one of the pointers leads outside memory. -/
def Machine.ReapsUnheard (m : Machine) (a : Args) : Prop :=
  (∃ r ∈ m.shared.table, r.ppid = m.ctx.task.pid ∧
    waitMatches a.a0 (((m.shared.record m.ctx.task.pid).map ProcRecord.pgid).getD m.ctx.task.pid) r = true ∧
    r.exit.isSome = true) ∧
  (asU32 a.a1 ≠ 0 ∧ m.inst.mem.size < asU32 a.a1 + 4 ∨ asU32 a.a3 ≠ 0 ∧ m.inst.mem.size < asU32 a.a3 + 72)

def hearChild (a : Args) (found : ℤ × ℤ) : Handler ℤ := do
  if asU32 a.a1 ≠ 0 then putU32 (asU32 a.a1) (asU32 found.2)
  if asU32 a.a3 ≠ 0 then put (asU32 a.a3) (List.replicate 72 0)
  return found.1

/-- The program writes memory and nothing else, and when it faults depends on
the size of memory alone. -/
structure Puts (x : Env W) (p : Handler α) (faults : ℕ → Prop) : Prop where
  shared : ∀ s, (p.run (exec x) s).2.1.shared = s.1.shared
  fault : ∀ s, (p.run (exec x) s).1 = .error (.errno .fault) ↔ faults s.1.inst.mem.size

theorem puts_ret (a : α) : Puts x (.ret a) fun _ => False :=
    ⟨fun _ => rfl, fun _ => ⟨fun h => (by cases h), False.elim⟩⟩

theorem puts_put {p : Handler α} {faults : ℕ → Prop} (start : ℕ) (data : Bytes) (hp : Puts x p faults) :
    Puts x (put start data >>= fun _ => p) fun size => size < start + data.length ∨ faults size := by
  constructor
  · intro s
    rcases run_put (x := x) start data s with ⟨-, m, hshared, -, hput⟩ | ⟨-, hput⟩
    · rw [Program.run_bind_ok (exec x) hput, hp.shared]
      exact hshared
    · rw [Program.run_bind_error (exec x) hput]
  · intro s
    rcases run_put (x := x) start data s with ⟨hfits, m, -, hsize, hput⟩ | ⟨hout, hput⟩
    · rw [Program.run_bind_ok (exec x) hput, hp.fault]
      dsimp only
      rw [hsize]
      exact ⟨.inr, fun h => h.resolve_left (by omega)⟩
    · rw [Program.run_bind_error (exec x) hput]
      exact iff_of_true rfl (.inl hout)

theorem not_whole_of_puts {p : Handler α} {faults : ℕ → Prop} (m m' : Machine) {w : W} (hp : Puts x p faults)
    (hsize : m'.inst.mem.size = m.inst.mem.size) (hdone : m'.shared ≠ m.shared) :
    ((p.run (exec x) (m', w)).1 = .error (.errno .fault) → (p.run (exec x) (m', w)).2.1 = m) ↔
    ¬ faults m.inst.mem.size := by
  rw [hp.fault, hsize]
  refine ⟨fun h hfaults => hdone ?_, fun hnot hfaults => absurd hfaults hnot⟩
  rw [← h hfaults]
  exact (hp.shared (m', w)).symm

theorem Puts.congr {p : Handler α} {faults faults' : ℕ → Prop} (h : Puts x p faults)
    (hsame : ∀ size, faults size ↔ faults' size) :
    Puts x p faults' := ⟨h.shared, fun s => (h.fault s).trans (hsame _)⟩

theorem puts_when {p q : Handler α} {faults : ℕ → Prop} {start : ℕ} (data : Bytes) (hp : Puts x p faults)
    (hq : q = if start ≠ 0 then put start data >>= fun _ => p else p) :
    Puts x q fun size => start ≠ 0 ∧ size < start + data.length ∨ faults size := by
  rw [hq]
  split
  · rename_i hstart
    exact (puts_put start data hp).congr fun size => by simp [hstart]
  · rename_i hstart
    exact hp.congr fun size => by simp [hstart]

theorem puts_hearChild (a : Args) (found : ℤ × ℤ) : Puts x (hearChild a found) fun size =>
    asU32 a.a1 ≠ 0 ∧ size < asU32 a.a1 + 4 ∨ asU32 a.a3 ≠ 0 ∧ size < asU32 a.a3 + 72 := by
  have husage : Puts x (do
      if asU32 a.a3 ≠ 0 then put (asU32 a.a3) (List.replicate 72 0)
      return found.1 : Handler ℤ) fun size => asU32 a.a3 ≠ 0 ∧ size < asU32 a.a3 + (List.replicate 72
          (0 : UInt8)).length ∨ False := by
    refine puts_when _ (puts_ret found.1) ?_
    split <;> rfl
  have hstatus : Puts x (hearChild a found) _ := puts_when (toLe 4 (asU32 found.2)) husage (by
    unfold hearChild
    split <;> rfl)
  exact hstatus.congr fun size => by rw [toLe_length, List.length_replicate, or_false]

/-- There is room for a pipe, two descriptions and two descriptors. -/
def Machine.PipeRoom (m : Machine) (flags : ℕ) : Prop :=
  ∃ pipe pipes readDesc descs writeDesc descs' readFd fds writeFd fds',
    m.shared.pipes.insert Pipe.new m.shared.limits.openFiles = some (pipe, pipes) ∧
    m.shared.descs.insert (Machine.pipeDesc (.pipeRead pipe) oRdonly flags) m.descCap =
    some (readDesc, descs) ∧
    descs.insert (Machine.pipeDesc (.pipeWrite pipe) oWronly flags) m.descCap = some (writeDesc, descs') ∧
    m.ctx.task.fds.alloc ⟨readDesc, flags &&& oCloexec != 0⟩ 0 m.shared.limits.openFiles = .ok (readFd, fds) ∧
    fds.alloc ⟨writeDesc, flags &&& oCloexec != 0⟩ 0 m.shared.limits.openFiles = .ok (writeFd, fds')

theorem FdTable.alloc_mfile {t : FdTable} {entry : Fd} {min max : ℕ} {e : Errno}
    (h : t.alloc entry min max = .error e) :
    e = .mfile := by
  unfold alloc at h
  generalize t.slots.length + 1 = turns at h
  induction turns generalizing min with
  | zero =>
    cases h
    rfl
  | succ turns ih =>
    unfold allocFrom at h
    split at h
    · cases h
      rfl
    · split at h
      · cases h
      · exact ih h
      · cases h
        rfl

/-- With room the pipe is there, and without it there is no error but `EMFILE`. -/
theorem pipe2_cases (m : Machine) (flags : ℕ) :
    (m.PipeRoom flags ∧ (∃ fds, (m.pipe2 flags).1 = .ok fds) ∧ (m.pipe2 flags).2.inst = m.inst ∧
      (m.pipe2 flags).2.shared ≠ m.shared) ∨
    (¬ m.PipeRoom flags ∧ (m.pipe2 flags).1 = .error .mfile) := by
  by_cases hroom : m.PipeRoom flags
  · refine .inl ⟨hroom, ?_⟩
    obtain ⟨pipe, pipes, readDesc, descs, writeDesc, descs', readFd, fds, writeFd, fds', hpipe, hread,
      hwrite, hreadFd,
      hwriteFd⟩ := hroom
    have hmade : m.pipe2 flags = (.ok (readFd, writeFd),
        (m.setShared { m.shared with pipes := pipes, descs := descs' }).setFds fds') := by
      simp only [Machine.descCap] at hread hwrite
      simp only [Machine.pipe2, Machine.descCap, Machine.setShared, Machine.setFds, Machine.setTask, hpipe,
        hread, hwrite, hreadFd, hwriteFd]
    rw [hmade]
    refine ⟨⟨_, rfl⟩, rfl, fun hsame => ?_⟩
    obtain ⟨hfree, hnew, -⟩ := Slab.insert_spec hpipe
    have hget := congrArg (fun sh : Shared => sh.pipes.get pipe) hsame
    change pipes.get pipe = m.shared.pipes.get pipe at hget
    rw [hfree, hnew] at hget
    cases hget
  · refine .inr ⟨hroom, ?_⟩
    unfold Machine.pipe2
    dsimp only
    split
    · rfl
    rename_i pipe pipes hpipe
    split
    · rfl
    rename_i readDesc descs hread
    split
    · rfl
    rename_i writeDesc descs' hwrite
    split
    · rename_i e halloc
      exact congrArg Except.error (FdTable.alloc_mfile halloc)
    rename_i readFd fds hreadFd
    split
    · rename_i writeFd fds' hwriteFd
      exact absurd ⟨pipe, pipes, readDesc, descs, writeDesc, descs', readFd, fds, writeFd, fds', hpipe,
        hread, hwrite, hreadFd,
        hwriteFd⟩ hroom
    · rename_i e halloc
      split
      · exact congrArg Except.error (FdTable.alloc_mfile halloc)
      · exact congrArg Except.error (FdTable.alloc_mfile halloc)

/-- The pipe is made, and its descriptors cannot be handed over. -/
def Machine.PipesUnheard (m : Machine) (a : Args) : Prop :=
  m.PipeRoom (asU32 a.a1) ∧
  (m.inst.mem.size < asU32 a.a0 + 4 ∨ m.inst.mem.size < wrapAdd (asU32 a.a0) 4 + 4)

def waited (v : View) (a : Args) : List ProcRecord :=
  v.table.filter fun r => r.ppid == v.task.pid &&
    waitMatches a.a0 (((v.record v.task.pid).map ProcRecord.pgid).getD v.task.pid) r

def waitFor (v : View) (a : Args) : Handler ℤ :=
  if waited v a = [] then fail .child
  else match (waited v a).findSome? fun r => r.exit.map fun status => (r.pid, status) with
    | none => if asU32 a.a2 &&& wnohang ≠ 0 then return 0 else .fail .block
    | some found => act (.reap found.1) >>= fun _ => hearChild a found

theorem wait4_eq (a : Args) : wait4 a = view >>= fun v => waitFor v a := by
  unfold wait4
  congr 1
  funext v
  change (if waited v a = [] then _ else _) = waitFor v a
  unfold waitFor
  congr 1
  unfold waited
  generalize List.findSome? (fun r : ProcRecord => r.exit.map fun status => (r.pid, status)) _ = found
  rcases found with _ | ⟨child, status⟩ <;> rfl

theorem mem_waited {m : Machine} {a : Args} {r : ProcRecord} : r ∈ waited m.view a ↔
    ∃ r' ∈ m.shared.table, r'.unwoken = r ∧ r'.ppid = m.ctx.task.pid ∧
      waitMatches a.a0 (((m.shared.record m.ctx.task.pid).map ProcRecord.pgid).getD m.ctx.task.pid)
      r' = true := by
  have hgroup : (m.view.record m.ctx.task.pid).map ProcRecord.pgid =
      (m.shared.record m.ctx.task.pid).map ProcRecord.pgid := by
    change ((m.shared.table.map ProcRecord.unwoken).find? _).map _ = (m.shared.table.find? _).map _
    rw [List.find?_map, Option.map_map]
    rfl
  unfold waited
  rw [Machine.view_task, hgroup, List.mem_filter]
  change r ∈ m.shared.table.map ProcRecord.unwoken ∧ _ ↔ _
  rw [List.mem_map, Bool.and_eq_true, beq_iff_eq]
  constructor
  · rintro ⟨⟨r', hr', rfl⟩, hppid, hmatches⟩
    exact ⟨r', hr', rfl, hppid, hmatches⟩
  · rintro ⟨r', hr', rfl, hppid, hmatches⟩
    exact ⟨⟨r', hr', rfl⟩, hppid, hmatches⟩

theorem frugal_hearChild (a : Args) (found : ℤ × ℤ) : (hearChild a found).Only fun o : Op =>
    o.draws = false := by
  unfold hearChild
  dsimp only
  split
  · refine Program.only_bind (frugal_put _ _) fun _ => ?_
    split
    · exact Program.only_bind (frugal_put _ _) fun _ => trivial
    · trivial
  · split
    · exact Program.only_bind (frugal_put _ _) fun _ => trivial
    · trivial

theorem faultsWhole_wait4 (a : Args) (m : Machine) (w : W) :
    FaultsWhole x (wait4 a) (m, w) ↔ ¬ m.ReapsUnheard a := by
  have hfrugal : (wait4 a).Only fun o : Op => o.draws = false := by
    rw [wait4_eq]
    refine Program.only_bind (p := view) ⟨rfl, fun _ => trivial⟩ fun v => ?_
    unfold waitFor
    split
    · trivial
    · split
      · split <;> trivial
      · exact Program.only_bind (p := act _) ⟨rfl, fun _ => trivial⟩ fun _ => frugal_hearChild a _
  rw [faultsWhole_frugal hfrugal, wait4_eq]
  change ((Program.run (exec x) (waitFor m.view a) (m, w)).1 = _ →
    (Program.run (exec x) (waitFor m.view a) (m, w)).2.1 = m) ↔ _
  unfold waitFor
  split
  · rename_i hnone
    refine iff_of_true (fun h => by cases h) ?_
    rintro ⟨⟨r, hr, hppid, hmatches, -⟩, -⟩
    have := mem_waited.mpr ⟨r, hr, rfl, hppid, hmatches⟩
    rw [hnone] at this
    cases this
  split
  · rename_i hfound
    refine iff_of_true (fun h => by split at h <;> cases h) ?_
    rintro ⟨⟨r, hr, hppid, hmatches, hexit⟩, -⟩
    obtain ⟨status, hstatus⟩ := Option.isSome_iff_exists.mp hexit
    have := List.findSome?_eq_none_iff.mp hfound r.unwoken (mem_waited.mpr ⟨r, hr, rfl, hppid, hmatches⟩)
    rw [show r.unwoken.exit = some status from hstatus] at this
    cases this
  · rename_i found hfound
    obtain ⟨_, hr, hstatus⟩ := List.exists_of_findSome?_eq_some hfound
    obtain ⟨r, hmem, rfl, hppid, hmatches⟩ := mem_waited.mp hr
    obtain ⟨status, hexit, rfl⟩ := Option.map_eq_some_iff.mp hstatus
    have hexited : r.exit = some status := hexit
    have hreaped : ((Act.exec (.reap r.pid) m).2).shared ≠ m.shared := by
      intro hsame
      have htable := congrArg (fun sh : Shared => r ∈ sh.table) hsame
      change (r ∈ m.shared.table.filter fun r' => r'.pid != r.pid) = (r ∈ m.shared.table) at htable
      have := htable.mpr hmem
      simp at this
    refine (not_whole_of_puts m (Act.exec (.reap r.pid) m).2 (puts_hearChild a (r.pid, status)) rfl
      hreaped).trans (not_congr ?_)
    exact ⟨fun h => ⟨⟨r, hmem, hppid, hmatches, by simp [hexited]⟩, h⟩, And.right⟩

theorem faultsWhole_pipe2 (a : Args) (m : Machine) (w : W) :
    FaultsWhole x (pipe2 a) (m, w) ↔ ¬ m.PipesUnheard a := by
  have hfrugal : (pipe2 a).Only fun o : Op => o.draws = false := by
    refine Program.only_bind (p := act _) ⟨rfl, fun _ => trivial⟩ fun r => ?_
    refine Program.only_bind (frugal_lift _) fun fds => ?_
    refine Program.only_bind (frugal_put _ _) fun _ => ?_
    exact Program.only_bind (frugal_put _ _) fun _ => trivial
  rw [faultsWhole_frugal hfrugal]
  have hrun : (pipe2 a).run (exec x) (m, w) = (lift (m.pipe2 (asU32 a.a1)).1 >>= fun fds =>
      putU32 (asU32 a.a0) (asU32 fds.1) >>= fun _ =>
          putU32 (wrapAdd (asU32 a.a0) 4) (asU32 fds.2) >>= fun _ =>
        (.ret 0 : Handler ℤ)).run (exec x) ((m.pipe2 (asU32 a.a1)).2, w) := rfl
  rw [hrun]
  rcases pipe2_cases m (asU32 a.a1) with ⟨hroom, ⟨fds, hfds⟩, hinst, hshared⟩ | ⟨hroom, herror⟩
  · have hputs := puts_put (x := x) (asU32 a.a0) (toLe 4 (asU32 fds.1))
      (puts_put (wrapAdd (asU32 a.a0) 4) (toLe 4 (asU32 fds.2)) (puts_ret (0 : ℤ)))
    rw [hfds, lift_ok, Program.ret_bind]
    refine (not_whole_of_puts _ _ hputs (by rw [hinst]) hshared).trans (not_congr ?_)
    rw [toLe_length, toLe_length, or_false]
    exact ⟨fun h => ⟨hroom, h⟩, And.right⟩
  · rw [herror]
    exact iff_of_true (fun h => by cases h) fun h => hroom h.1

/-- The call takes effect, and faults then. -/
def Machine.FaultsLate (x : Env W) (m : Machine) (w : W) (nr : Nr) (a : Args) : Prop :=
  match nr with
  | .read => asU32 a.a2 ≠ 0 ∧ ∃ n, m.HandsOver x w a.a0 (min (asU32 a.a2) (2^20)) n ∧
    m.inst.mem.size < asU32 a.a1 + copied (min (asU32 a.a2) (2^20)) n
  | .getdents64 => m.SkipsEntries a
  | .wait4 => m.ReapsUnheard a
  | .pipe2 => m.PipesUnheard a
  | _ => False

/-- The calls whose result goes into guest memory once it has been taken. -/
def Nr.hands : Nr → Bool
  | .read | .getdents64 | .wait4 | .pipe2 => true
  | _ => false

/-- In every state: such a call that answers `EFAULT` leaves everything as it
was, unless it is one that takes effect before it faults. -/
theorem fault_consumes_nothing_iff {number : ℤ} (hn : (Nr.ofInt number).hands = true) (a : Args)
    (m : Machine) (w : W) :
    FaultsWhole x (handle number a) (m, w) ↔ ¬ m.FaultsLate x w (Nr.ofInt number) a := by
  unfold handle
  cases h : Nr.ofInt number with
  | read => exact faultsWhole_read a.a0 (asU32 a.a1) (asU32 a.a2) m w
  | getdents64 => exact faultsWhole_getdents64 a m w
  | wait4 => exact faultsWhole_wait4 a m w
  | pipe2 => exact faultsWhole_pipe2 a m w
  | _ => rw [h] at hn; cases hn

end

/-- At the end of its input a read into memory that is not there takes nothing. -/
theorem fault_consumes_nothing_iff_ended : ∃ (k : Kernel) (w : List GuestRun) (p : Proc),
    Reached (Env.scripted (.startingWith [])) (fun _ _ => True) k w ∧ k.procs[0]? = some p ∧
    ((handle 63 ⟨0, -1, 1, 0, 0, 0⟩).run (exec (Env.scripted (.startingWith []))) (k.machineOf p, w)).1 =
      .error (.errno .fault) ∧
    FaultsWhole (Env.scripted (.startingWith [])) (handle 63 ⟨0, -1, 1, 0, 0, 0⟩) (k.machineOf p, w) := by
  have hstart : Between (Env.scripted (.startingWith [])) (fun _ _ => True) ⟨_, none⟩ _ :=
    .start (Config.bare [.guest 0]) 0 _ _ [] _ rfl (Program.along_of_forall _ (fun _ _ => trivial) _ _) rfl
  refine ⟨_, _, _, .between _ _ (.closeStdin _ _ hstart), rfl, rfl, ?_⟩
  refine (fault_consumes_nothing_iff rfl ⟨0, -1, 1, 0, 0, 0⟩ _ _).mpr ?_
  rintro ⟨-, n, ⟨entry, desc, hopen, -, hyields⟩, -⟩
  cases hopen
  exact hyields.2 rfl

/-- A guest reads the byte that was typed into memory that is not there. -/
theorem fault_consumes_input : ∃ (k : Kernel) (w : List GuestRun) (p : Proc),
    Reached (Env.scripted (.startingWith [])) (fun _ _ => True) k w ∧ k.procs[0]? = some p ∧
    ¬ FaultsWhole (Env.scripted (.startingWith [])) (handle 63 ⟨0, -1, 1, 0, 0, 0⟩) (k.machineOf p, w) := by
  have hstart : Between (Env.scripted (.startingWith [])) (fun _ _ => True) ⟨_, none⟩ _ :=
    .start (Config.bare [.guest 0]) 0 _ _ [] _ rfl (Program.along_of_forall _ (fun _ _ => trivial) _ _) rfl
  refine ⟨_, _, _, .between _ _ (.writeStdin _ _ [1] hstart), rfl, fun h => ?_⟩
  have hsame := congrArg (fun m : Machine => m.shared.stdin.data) (h rfl).2
  cases hsame

end Wasmux
