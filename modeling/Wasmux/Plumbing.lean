import Wasmux.Modes

/-!
# Pipes and their ends

No pipe has more descriptions of an end than it counts, so that a pipe is there
for as long as one of its ends is open. Who holds an end may use it: what is
read from may be read, and what is written to may be written.
-/

set_option autoImplicit false

namespace Wasmux
open Effects Abi Sys

def Slab.ofKind (descs : Slab Desc) (kind : DescKind) : ℕ := descs.countP fun d => decide (d.kind = kind)

/-- What a pipe counts, with so many descriptions of each end. While the pipe is
written to, it counts its readers exactly. -/
def Pipe.Counts (reads writes : ℕ) : Option Pipe → Prop
  | none => reads = 0 ∧ writes = 0
  | some p => reads ≤ p.readers ∧ writes ≤ p.writers ∧ (0 < writes → reads = p.readers)

def Plumbed (descs : Slab Desc) (pipes : Slab Pipe) : Prop :=
  ∀ key, Pipe.Counts (descs.ofKind (.pipeRead key)) (descs.ofKind (.pipeWrite key)) (pipes.get key)

/-- An end of a pipe has the access mode of its kind, and what reads the standard
input may read it. -/
def Desc.Suits (d : Desc) : Prop :=
  match d.kind with
  | .pipeRead _ | .stdin => d.readable = true
  | .pipeWrite _ => d.writable = true
  | _ => True

/-- Descriptions that suit their kinds, and pipes that count them. -/
structure Fitted (descs : Slab Desc) (pipes : Slab Pipe) : Prop where
  suits : descs.Every Desc.Suits
  plumbed : Plumbed descs pipes

section
variable {descs descs' : Slab Desc} {pipes pipes' : Slab Pipe}

theorem ofKind_modify (key : DescKey) {f : Desc → Desc} {kind : DescKind}
    (hf : ∀ d, descs.get key = some d → ((f d).kind = kind ↔ d.kind = kind)) :
    (descs.modify key f).ofKind kind = descs.ofKind kind := by
  apply Slab.countP_modify
  intro d hd
  exact decide_eq_decide.mpr (hf d hd)

theorem ofKind_insert {desc : Desc} {cap : ℕ} {key : DescKey} (h : descs.insert desc cap = some (key, descs'))
    (kind : DescKind) : descs'.ofKind kind = descs.ofKind kind + if desc.kind = kind then 1 else 0 := by
  have hcount := Slab.countP_insert (fun d : Desc => decide (d.kind = kind)) h
  simp only [decide_eq_true_eq] at hcount
  exact hcount

theorem ofKind_remove {key : DescKey} {d : Desc} (h : descs.get key = some d) (kind : DescKind) :
    (descs.remove key).2.ofKind kind + (if d.kind = kind then 1 else 0) = descs.ofKind kind := by
  have hcount := Slab.countP_remove (fun d : Desc => decide (d.kind = kind)) descs key
  rw [h] at hcount
  simp only [Option.any_some, decide_eq_true_eq] at hcount
  exact hcount

theorem ofKind_pos {key : DescKey} {d : Desc} (h : descs.get key = some d) : 0 < descs.ofKind d.kind :=
  Slab.countP_pos.mpr ⟨key, d, h, decide_eq_true rfl⟩

/-- A pipe is there while one of its ends is. -/
theorem Plumbed.there (h : Plumbed descs pipes) {key : DescKey} {d : Desc} (hd : descs.get key = some d)
    {pipe : PipeKey} (hkind : d.kind.pipe = some pipe) : ∃ p, pipes.get pipe = some p := by
  have hpos := ofKind_pos hd
  have hcounts := h pipe
  cases hp : pipes.get pipe with
  | some p => exact ⟨p, rfl⟩
  | none =>
    rw [hp] at hcounts
    obtain ⟨hreads, hwrites⟩ := hcounts
    cases hk : d.kind with
    | pipeRead key' =>
      obtain rfl : key' = pipe := by simpa [hk, DescKind.pipe] using hkind
      rw [hk, hreads] at hpos
      cases hpos
    | pipeWrite key' =>
      obtain rfl : key' = pipe := by simpa [hk, DescKind.pipe] using hkind
      rw [hk, hwrites] at hpos
      cases hpos
    | _ => simp [hk, DescKind.pipe] at hkind

theorem Plumbed.modify (h : Plumbed descs pipes) (key : DescKey) {f : Desc → Desc}
    (hf : ∀ d pipe, (f d).kind.pipe = some pipe ∨ d.kind.pipe = some pipe → (f d).kind = d.kind) :
    Plumbed (descs.modify key f) pipes := by
  intro pipe
  have hsame : ∀ kind : DescKind, kind.pipe = some pipe →
      (descs.modify key f).ofKind kind = descs.ofKind kind := by
    intro kind hkind
    apply ofKind_modify
    intro d _
    constructor
    · rintro rfl
      exact (hf d pipe (.inl hkind)).symm
    · rintro rfl
      exact hf d pipe (.inr hkind)
  rw [hsame _ rfl, hsame _ rfl]
  exact h pipe

theorem Plumbed.filled (h : Plumbed descs pipes) (key : PipeKey) (f : Pipe → Bytes) :
    Plumbed descs (pipes.modify key fun p => { p with data := f p }) := by
  intro pipe
  have hcounts := h pipe
  rw [Slab.get_modify]
  split
  · subst_vars
    cases hp : pipes.get pipe with
    | none => rwa [hp] at hcounts
    | some p => rwa [hp] at hcounts
  · exact hcounts

end

theorem Shared.get_collectPipe (sh : Shared) (key pipe : PipeKey) : (sh.collectPipe key).pipes.get pipe =
    if key = pipe ∧ (sh.pipes.get key).any (fun p =>
      p.readers == 0 && p.writers == 0) then none else sh.pipes.get pipe := by
  unfold collectPipe
  by_cases hover : (sh.pipes.get key).any (fun p => p.readers == 0 && p.writers == 0)
  · rw [if_pos hover]
    dsimp only
    rw [Slab.get_remove]
    simp [hover]
  · simp [hover]

theorem counts_collectPipe {sh : Shared} {key pipe : PipeKey} {reads writes : ℕ}
    (h : Pipe.Counts reads writes (sh.pipes.get pipe)) :
    Pipe.Counts reads writes ((sh.collectPipe key).pipes.get pipe) := by
  rw [Shared.get_collectPipe]
  split
  · rename_i hover
    obtain ⟨rfl, hover⟩ := hover
    cases hp : sh.pipes.get key with
    | none => simp [hp] at hover
    | some p =>
      rw [hp] at h hover
      obtain ⟨hreads, hwrites, -⟩ := h
      simp only [Option.any_some, Bool.and_eq_true, beq_iff_eq] at hover
      exact ⟨by omega, by omega⟩
  · exact h

theorem counts_pipes {pipes : Slab Pipe} {key pipe : PipeKey} {f : Pipe → Pipe}
    {reads writes reads' writes' : ℕ} (h : Pipe.Counts reads writes (pipes.get pipe))
    (hreads : reads' ≤ reads) (hwrites : writes' ≤ writes)
    (hother : key ≠ pipe → reads' = reads ∧ writes' = writes) (hsame : key = pipe →
      ∀ p, Pipe.Counts reads writes (some p) → Pipe.Counts reads' writes' (some (f p))) :
    Pipe.Counts reads' writes' ((pipes.modify key f).get pipe) := by
  rw [Slab.get_modify]
  by_cases hpipe : key = pipe
  · rw [if_pos hpipe]
    cases hp : pipes.get pipe with
    | none =>
      rw [hp] at h
      obtain ⟨rfl, rfl⟩ := h
      exact ⟨Nat.le_zero.mp hreads, Nat.le_zero.mp hwrites⟩
    | some p =>
      rw [hp] at h
      exact hsame hpipe p h
  · rw [if_neg hpipe]
    obtain ⟨rfl, rfl⟩ := hother hpipe
    exact h

/-- A description goes, and the pipe that it is an end of counts one less. -/
theorem Plumbed.dropped {sh : Shared} (h : Plumbed sh.descs sh.pipes) {key : DescKey} {d : Desc}
    (hd : sh.descs.get key = some d) :
    Plumbed (sh.descs.remove key).2
        (({ sh with descs := (sh.descs.remove key).2 } : Shared).dropDesc d).2.pipes := by
  intro pipe
  have hcounts := h pipe
  have hreads := ofKind_remove hd (.pipeRead pipe)
  have hwrites := ofKind_remove hd (.pipeWrite pipe)
  generalize (sh.descs.remove key).2 = descs at *
  unfold Shared.dropDesc
  split
  · rename_i hkind
    simp only [hkind, reduceCtorEq, if_false] at hreads hwrites
    rwa [← hreads, ← hwrites] at hcounts
  · rename_i key' hkind
    apply counts_collectPipe
    simp only [hkind, DescKind.pipeRead.injEq, reduceCtorEq, if_false] at hreads hwrites
    apply counts_pipes hcounts
    · omega
    · omega
    · intro hother
      rw [if_neg hother] at hreads
      exact ⟨by omega, by omega⟩
    · rintro rfl p ⟨hle, hle', hexact⟩
      rw [if_pos rfl] at hreads
      simp only [Pipe.Counts]
      omega
  · rename_i key' hkind
    apply counts_collectPipe
    simp only [hkind, DescKind.pipeWrite.injEq, reduceCtorEq, if_false] at hreads hwrites
    apply counts_pipes hcounts
    · omega
    · omega
    · intro hother
      rw [if_neg hother] at hwrites
      exact ⟨by omega, by omega⟩
    · rintro rfl p ⟨hle, hle', hexact⟩
      rw [if_pos rfl] at hwrites
      simp only [Pipe.Counts]
      omega
  · rename_i hfile hread hwrite
    rw [if_neg (hread pipe)] at hreads
    rw [if_neg (hwrite pipe)] at hwrites
    rwa [← hreads, ← hwrites] at hcounts

/-- A pipe is made, then the end that is read from, then the one that is written to. -/
theorem Plumbed.piped {descs : Slab Desc} {pipes pipes' : Slab Pipe} {cap : ℕ} {pipe : PipeKey}
    (h : Plumbed descs pipes) (hpipe : pipes.insert Pipe.new cap = some (pipe, pipes')) :
    Plumbed descs pipes' ∧
      ∀ {flags cap key descs'}, descs.insert (Machine.pipeDesc (.pipeRead pipe) oRdonly flags) cap =
      some (key, descs') →
        Plumbed descs' pipes' ∧ ∀ {cap key descs''},
          descs'.insert (Machine.pipeDesc (.pipeWrite pipe) oWronly flags) cap = some (key, descs'') →
          Plumbed descs'' pipes' := by
  obtain ⟨hfree, hnew, hold⟩ := Slab.insert_spec hpipe
  have hnone : descs.ofKind (.pipeRead pipe) = 0 ∧ descs.ofKind (.pipeWrite pipe) = 0 := by
    have hcounts := h pipe
    rwa [hfree] at hcounts
  have hmore : ∀ descs' : Slab Desc,
    (∀ other, other ≠ pipe → descs'.ofKind (.pipeRead other) = descs.ofKind (.pipeRead other) ∧
      descs'.ofKind (.pipeWrite other) = descs.ofKind (.pipeWrite other)) →
      Pipe.Counts (descs'.ofKind (.pipeRead pipe)) (descs'.ofKind (.pipeWrite pipe)) (some Pipe.new) →
      Plumbed descs' pipes' := by
    intro descs' hsame hthis other
    by_cases hother : other = pipe
    · subst hother
      rw [hnew]
      exact hthis
    · obtain ⟨hreads, hwrites⟩ := hsame other hother
      rw [hreads, hwrites, hold other hother]
      exact h other
  refine ⟨hmore descs (fun _ _ => ⟨rfl, rfl⟩) ?_, fun {flags cap key descs'} hread => ?_⟩
  · simp only [hnone, Pipe.Counts, Pipe.new]
    omega
  have hreads := fun kind => ofKind_insert hread kind
  refine ⟨hmore descs' ?_ ?_, fun {cap key descs''} hwrite => ?_⟩
  · intro other hother
    rw [hreads, hreads]
    simp [Machine.pipeDesc, Desc.new, Ne.symm hother]
  · rw [hreads, hreads, hnone.1, hnone.2]
    simp [Machine.pipeDesc, Desc.new, Pipe.Counts, Pipe.new]
  have hwrites := fun kind => ofKind_insert hwrite kind
  apply hmore descs''
  · intro other hother
    rw [hwrites, hwrites, hreads, hreads]
    simp [Machine.pipeDesc, Desc.new, Ne.symm hother]
  · rw [hwrites, hwrites, hreads, hreads, hnone.1, hnone.2]
    simp [Machine.pipeDesc, Desc.new, Pipe.Counts, Pipe.new]

theorem accmode_pipeDesc (access flags : ℕ) :
    (access ||| (flags &&& oNonblock)) &&& oAccmode = access &&& oAccmode := by
  have hrest : (flags &&& oNonblock) &&& oAccmode = 0 := by
    rw [Nat.and_assoc]
    exact Nat.and_zero flags
  rw [Nat.and_or_distrib_right, hrest, Nat.or_zero]

theorem suits_pipeRead (pipe : PipeKey) (flags : ℕ) :
    (Machine.pipeDesc (.pipeRead pipe) oRdonly flags).Suits := by
  change Desc.readable _ = true
  rw [Desc.readable, Machine.pipeDesc, Desc.new, accmode_pipeDesc]
  rfl

theorem suits_pipeWrite (pipe : PipeKey) (flags : ℕ) :
    (Machine.pipeDesc (.pipeWrite pipe) oWronly flags).Suits := by
  change Desc.writable _ = true
  rw [Desc.writable, Machine.pipeDesc, Desc.new, accmode_pipeDesc]
  rfl

theorem sturdy_fitted : Sturdy Fitted where
  recount key f h := ⟨h.suits.modify key fun _ _ hd => hd, h.plumbed.modify key fun _ _ _ => rfl⟩
  moved key pos h := by
    refine ⟨h.suits.modify key fun d _ hd => ?_, h.plumbed.modify key fun d pipe hpipe => ?_⟩
    · obtain ⟨kind, path, flags, refs⟩ := d
      cases kind <;> exact hd
    · obtain ⟨kind, path, flags, refs⟩ := d
      cases kind <;> first | rfl | simp [Desc.movedTo, DescKind.pipe] at hpipe
  dropped {sh key d} h hd := by
    refine ⟨?_, ?_⟩
    · rw [Shared.dropDesc_descs]
      exact Slab.Every.remove h.suits key
    · rw [Shared.dropDesc_descs]
      exact h.plumbed.dropped hd
  piped {descs pipes pipes' cap pipe} h hpipe := by
    obtain ⟨hmade, hread⟩ := h.plumbed.piped hpipe
    refine ⟨⟨h.suits, hmade⟩, fun {flags cap key descs'} hins => ?_⟩
    obtain ⟨hfirst, hwrite⟩ := hread hins
    have hsuits := h.suits.insert hins (suits_pipeRead pipe flags)
    exact ⟨⟨hsuits, hfirst⟩, fun hins' => ⟨hsuits.insert hins' (suits_pipeWrite pipe flags), hwrite hins'⟩⟩

theorem fitted_kernel {c : Config} {started : Instant} {k : Kernel} (hk : c.kernel started = some k) :
    k.shared.Has Fitted := by
  apply Sturdy.kernel (Q := Fitted) hk
  · refine ⟨?_, fun pipe => ⟨rfl, rfl⟩⟩
    intro key d hd
    cases hd
  · intro d hd descs cap key descs' h hins
    simp only [Config.stdio, List.mem_cons, List.not_mem_nil, or_false] at hd
    refine ⟨h.suits.insert hins ?_, fun pipe => ?_⟩
    · rcases hd with rfl | rfl | rfl
      · rfl
      · trivial
      · trivial
    · rw [ofKind_insert hins, ofKind_insert hins]
      have hother : ∀ kind : DescKind, kind.pipe = some pipe → d.kind ≠ kind := by
        rintro kind hkind rfl
        rcases hd with rfl | rfl | rfl <;> cases hkind
      rw [if_neg (hother _ rfl), if_neg (hother _ rfl)]
      exact h.plumbed pipe

/-- The standard input is opened to be read, and a description keeps its access mode. -/
def Op.Suits {W : Type} : Op → Machine × W → Prop
  | .act (.openDesc kind _ flags _), _ => kind.1 = .stdin → flags &&& oAccmode = oRdonly
  | .act (.setDescFlags key flags), s => ∀ d, s.1.shared.descs.get key = some d →
      flags &&& oAccmode = d.flags &&& oAccmode
  | _, _ => True

section
variable {α W : Type} {x : Env W} {C : Op → Machine × W → Prop}

theorem fitted_openDesc {descs descs' : Slab Desc} {pipes : Slab Pipe} (h : Fitted descs pipes)
    {kind : OpenKind} {path : Text} {flags cap : ℕ} {key : DescKey}
    (hsuits : kind.1 = .stdin → flags &&& oAccmode = oRdonly)
    (hins : descs.insert (.new kind path flags) cap = some (key, descs')) : Fitted descs' pipes := by
  have hother : ∀ pipe, kind.1 ≠ .pipeRead pipe ∧ kind.1 ≠ .pipeWrite pipe := by
    intro pipe
    have hnone := kind.2
    refine ⟨fun hkind => ?_, fun hkind => ?_⟩
    · rw [hkind] at hnone
      cases hnone
    · rw [hkind] at hnone
      cases hnone
  refine ⟨h.suits.insert hins ?_, fun pipe => ?_⟩
  · unfold Desc.Suits
    split
    · rename_i pipe hkind
      exact absurd hkind (hother pipe).1
    · rename_i hkind
      simp [Desc.readable, Desc.new, hsuits hkind]
    · rename_i pipe hkind
      exact absurd hkind (hother pipe).2
    · trivial
  · rw [ofKind_insert hins, ofKind_insert hins]
    simp only [Desc.new, hother pipe, if_false, Nat.add_zero]
    exact h.plumbed pipe

theorem Op.Suits.fitted {o : Op} {s : Machine × W} (ho : o.Suits s) (hs : s.1.shared.Has Fitted) :
    (exec x o s).2.1.shared.Has Fitted := by
  cases o with
  | env c => exact hs
  | act a =>
    apply sturdy_fitted.act hs
    · rintro kind path flags cloexec rfl cap key descs hins
      exact fitted_openDesc hs ho hins
    · rintro key flags rfl
      refine ⟨hs.suits.modify key fun d hd hsuits => ?_, hs.plumbed.modify key fun _ _ _ => rfl⟩
      unfold Desc.Suits Desc.readable Desc.writable at hsuits ⊢
      dsimp only
      rw [ho d hd]
      exact hsuits
    · exact fun key count _ => ⟨hs.suits, hs.plumbed.filled key _⟩
    · exact fun key data _ => ⟨hs.suits, hs.plumbed.filled key _⟩

theorem Op.modest.suits {lengths : Bool} {o : Op} (h : o.modest lengths) (s : Machine × W) : o.Suits s := by
  cases o with
  | env => trivial
  | act a => cases a <;> trivial

theorem Op.streams.suits {o : Op} (h : o.streams) (s : Machine × W) : o.Suits s := by
  cases o with
  | env => trivial
  | act a => cases a <;> trivial

theorem Op.Tunes.suits {o : Op} {s : Machine × W} (h : o.Tunes s) : o.Suits s := by
  obtain hmild | ⟨key, flags, rfl, hflags⟩ := h
  · exact (hmild.modest false).suits s
  · exact hflags

abbrev Fitting (x : Env W) (C : Op → Machine × W → Prop) {ε : Type} (p : Program sig ε α)
    (s : Machine × W) : Prop :=
  Keeping x C Op.Suits (Shared.Has Fitted) p s

theorem fitting_only {ε : Type} {A : Op → Prop} {p : Program sig ε α} (hp : p.Only A)
    (h : ∀ (o : Op) (s : Machine × W), A o → o.Suits s) {s : Machine × W} (hs : s.1.shared.Has Fitted) :
    Fitting x C p s :=
  Program.meets_only (I := fun t : Machine × W => t.1.shared.Has Fitted)
    (fun o t ho ht _ => ⟨⟨ht, h o t ho⟩, (h o t ho).fitted ht⟩) hp hs

theorem fitting_tuning {ε : Type} {p : Program sig ε α} {s : Machine × W} (hp : Tuning x C p s)
    (hs : s.1.shared.Has Fitted) : Fitting x C p s := by
  apply tuning_keeping hp ?_ hs
  intro o t ht _ htunes
  exact ⟨htunes.suits, htunes.suits.fitted ht⟩

/-- What `openat` may ask. -/
def seating : Program.Contract sig where
  asks
    | .act (.openDesc kind _ flags _) => kind.1 = .stdin → flags &&& oAccmode = oRdonly
    | .act (.setDescFlags _ _) => False
    | _ => True
  gives _ _ := True

theorem admits_seating : Admits seating fun flags kind => kind = .stdin → flags &&& oAccmode = oRdonly where
  mild o ho := by
    cases o with
    | env => trivial
    | act a => cases a <;> trivial
  other _ _ _ h hkind := absurd hkind h
  device flags device hkind := by
    cases device with
    | tty =>
      by_contra hmode
      simp [deviceKind, hmode] at hkind
    | _ => cases hkind
  file flags bits umask i rel := by
    refine obeys_env trivial ?_
    rintro (e | file) -
    · apply Program.obeys_ite
      · exact fun _ => obeys_act trivial fun _ _ => trivial
      · exact fun _ => trivial
    · exact fun hkind => by cases hkind
  opens flags kind path cloexec h hkind := (accmode_status flags).trans (h hkind)

theorem fitting_openat (a : Args) {s : Machine × W} (hs : s.1.shared.Has Fitted) :
    Fitting x C (openat a) s := by
  refine ((admits_seating.openat a).meets (I := fun t : Machine × W => t.1.shared.Has Fitted) ?_ hs).mono
    fun _ _ ht => ht.1
  intro o t ht hasks _
  have hsuits : o.Suits t := by
    cases o with
    | env => trivial
    | act a => cases a <;> trivial
  exact ⟨⟨ht, hsuits⟩, hsuits.fitted ht, trivial⟩

theorem fitting_handle (number : ℤ) (a : Args) {s : Machine × W} (hs : s.1.shared.Has Fitted) :
    Fitting x C (handle number a) s := by
  have hstreams : ∀ {p : Handler ℤ}, p.Only Op.streams → Fitting x C p s := fun hp =>
    fitting_only hp (fun _ t ho => ho.suits t) hs
  by_cases hmild : (Nr.ofInt number).mild = true
  · exact fitting_only (mild_handle number a hmild) (fun _ t ho => (ho.of.modest false).suits t) hs
  unfold handle
  cases hnr : Nr.ofInt number with
  | read => exact hstreams (only_read _ _ _)
  | readv => exact hstreams (only_vectorLoop (A := Op.streams) rfl only_lift
      (fun _ _ => only_read _ _ _) _ _ _ _)
  | write => exact hstreams (only_write _ _ _)
  | writev => exact hstreams (only_vectorLoop (A := Op.streams) rfl only_lift
      (fun _ _ => only_write _ _ _) _ _ _ _)
  | ftruncate => exact fitting_only (modest_ftruncate a) (fun _ t ho => ho.suits t) hs
  | openat => exact fitting_openat a hs
  | fcntl => exact fitting_tuning (tuning_fcntl a s) hs
  | ioctl => exact fitting_tuning (tuning_ioctl a s) hs
  | _ => exact absurd (by rw [hnr]; rfl) hmild

theorem upholds_fitted (x : Env W) : Upholds x (fun _ _ => True) Op.Suits (Shared.Has Fitted) where
  loop a _ hk := sturdy_fitted.kact hk a
  minor o s ho hs := by
    have hsuits : o.Suits s := by
      cases o with
      | env => trivial
      | act a => cases a <;> trivial
    exact ⟨hsuits, hsuits.fitted hs⟩
  reads fd len s hs := fitting_only (only_readBytes fd len) (fun _ t ho => ho.suits t) hs
  writes fd data s hs := fitting_only (only_writeBytes fd data) (fun _ t ho => ho.suits t) hs
  handles number args s hs := fitting_handle number args hs

theorem reached_fitted {k : Kernel} {w : W} (h : Reached x (fun _ _ => True) k w) : k.shared.Has Fitted := by
  refine (upholds_fitted x).reached (fun _ _ hs ho => ho.fitted hs) ?_ ?_ h
  · exact ⟨fun _ _ _ hk => fitted_kernel hk, fun _ _ _ hk => hk, fun _ _ _ hk => hk⟩
  · rintro (⟨i, o⟩ | c | a) s -
    · exact fun _ _ => trivial
    · trivial
    · trivial

end

end Wasmux
