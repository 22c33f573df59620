import Wasmux.Canonical
import Wasmux.Resolve

/-!
# The rounds of a resolution

The resolver's loop one turn at a time. A turn looks at one component; a link
starts the next round from the root, on a path that may be longer. Neither the
index nor the path measures the way to the end, but the links that may still be
followed and then the components that are left do.
-/

set_option autoImplicit false

namespace Wasmux
open Effects

namespace Resolver

structure Cursor where
  parts : List Text
  index : ℕ
  hops : ℕ

namespace Cursor

def start (base path : Text) : Cursor := ⟨normalize base path, 0, 0⟩

def here (c : Cursor) : Text := join (c.parts.take (c.index + 1))

def next (c : Cursor) : Cursor := { c with index := c.index + 1 }

def splice (c : Cursor) (target : Text) : Cursor :=
  ⟨normalize (join (c.parts.take c.index)) target ++ c.parts.drop (c.index + 1), 0, c.hops + 1⟩

/-- Whether a component is probed: the last one is only on request. -/
def Probes (c : Cursor) (follow : Bool) : Prop := c.index + 1 < c.parts.length ∨ follow = true

instance (c : Cursor) (follow : Bool) : Decidable (c.Probes follow) :=
  inferInstanceAs (Decidable (c.index + 1 < c.parts.length ∨ follow = true))

end Cursor

/-- One turn of the loop: it finds a node, or goes on. -/
def turn (v : View) (follow : Bool) (c : Cursor) : Program sig Errno (Node ⊕ Cursor) :=
  if c.parts.length ≤ c.index then do
    return .inl (← classifyFinal v (join c.parts))
  else if c.Probes follow then do
    match ← symlinkTarget v c.here with
    | some target => if maxHops < c.hops + 1 then .fail .loop else return .inr (c.splice target)
    | none => return .inr c.next
  else match virtualLink v.who c.here with
    | some target => return .inl (.virtualLink target)
    | none => return .inr c.next

section
variable {W : Type} (x : Env W) (v : View) (follow : Bool)

/-- The loop, left to itself, comes to this result. -/
inductive Ends : Cursor → Machine × W → Except Errno Node → Machine × W → Prop
  | found (c : Cursor) (s : Machine × W) (node : Node) (t : Machine × W) :
      (turn v follow c).run (exec x) s = (.ok (.inl node), t) → Ends c s (.ok node) t
  | failed (c : Cursor) (s : Machine × W) (e : Errno) (t : Machine × W) :
      (turn v follow c).run (exec x) s = (.error e, t) → Ends c s (.error e) t
  | on (c c' : Cursor) (s t : Machine × W) (r : Except Errno Node) (u : Machine × W) :
      (turn v follow c).run (exec x) s = (.ok (.inr c'), t) → Ends c' t r u → Ends c s r u

/-- What was probed: in the rounds that ended at a link, and in this one. -/
structure Probed where
  past : List (List Text)
  current : List Text

/-- A turn from `c` to `c'` probes, or passes the last component by. -/
def Probed.turn (p : Probed) (c c' : Cursor) : Probed :=
  if c.hops < c'.hops then ⟨p.past ++ [p.current ++ [c.here]], []⟩
  else if c.Probes follow then { p with current := p.current ++ [c.here] }
  else p

/-- Where the loop has come to, and what it has probed by then. -/
inductive Looped (base path : Text) (s : Machine × W) : Cursor → Machine × W → Probed → Prop
  | start : Looped base path s (.start base path) s ⟨[], []⟩
  | turn (c c' : Cursor) (t u : Machine × W) (p : Probed) : Looped base path s c t p →
      (turn v follow c).run (exec x) t = (.ok (.inr c'), u) → Looped base path s c' u (p.turn follow c c')

variable {x} {v} {follow}

theorem turn_end {c : Cursor} (h : c.parts.length ≤ c.index) :
    turn v follow c = (classifyFinal v (join c.parts) >>= fun node => .ret (.inl node)) := by
  rw [turn, if_pos h]
  rfl

theorem turn_probes {c : Cursor} (h : c.index < c.parts.length) (hprobes : c.Probes follow) :
    turn v follow c = (symlinkTarget v c.here >>= fun found => match found with
      | some target => if maxHops < c.hops + 1 then .fail .loop else .ret (.inr (c.splice target))
      | none => .ret (.inr c.next)) := by
  rw [turn, if_neg (Nat.not_le.mpr h), if_pos hprobes]
  rfl

theorem turn_last {c : Cursor} (h : c.index < c.parts.length) (hlast : ¬ c.Probes follow) :
    turn v follow c = match virtualLink v.who c.here with
      | some target => .ret (.inl (.virtualLink target))
      | none => .ret (.inr c.next) := by
  rw [turn, if_neg (Nat.not_le.mpr h), if_neg hlast]
  rfl

/-- A turn that goes on looked at a component. It followed a link there, or
moves on to the next. -/
theorem turn_on {c c' : Cursor} {s t : Machine × W}
    (h : (turn v follow c).run (exec x) s = (.ok (.inr c'), t)) :
    c.index < c.parts.length ∧
    (c' = c.next ∨ c.Probes follow ∧ c.hops < maxHops ∧ ∃ target, c' = c.splice target) := by
  by_cases hend : c.parts.length ≤ c.index
  · rw [turn_end hend] at h
    obtain ⟨node, u, _, h⟩ := Program.run_bind_eq_ok _ h
    cases h
  have hlt : c.index < c.parts.length := Nat.not_le.mp hend
  refine ⟨hlt, ?_⟩
  by_cases hprobes : c.Probes follow
  · rw [turn_probes hlt hprobes] at h
    obtain ⟨found, u, _, h⟩ := Program.run_bind_eq_ok _ h
    cases found with
    | none =>
      obtain ⟨rfl, _⟩ : c.next = c' ∧ u = t := by simpa using h
      exact .inl rfl
    | some target =>
      dsimp only at h
      split at h
      · cases h
      · rename_i hhops
        obtain ⟨rfl, _⟩ : c.splice target = c' ∧ u = t := by simpa using h
        exact .inr ⟨hprobes, by omega, target, rfl⟩
  · rw [turn_last hlt hprobes] at h
    split at h
    · cases h
    · obtain ⟨rfl, _⟩ : c.next = c' ∧ s = t := by simpa using h
      exact .inl rfl

theorem turn_link {c : Cursor} {s t : Machine × W} {target : Text} (h : c.index < c.parts.length)
    (hprobes : c.Probes follow) (hlink : (symlinkTarget v c.here).run (exec x) s = (.ok (some target), t)) :
    (turn v follow c).run (exec x) s =
      if c.hops < maxHops then (.ok (.inr (c.splice target)), t) else (.error .loop, t) := by
  rw [turn_probes h hprobes, Program.run_bind_ok _ hlink]
  dsimp only
  by_cases hhops : c.hops < maxHops
  · rw [if_neg (by omega), if_pos hhops]
    rfl
  · rw [if_pos (by omega), if_neg hhops]
    rfl

/-- The loop comes to one result. -/
theorem Ends.unique {c : Cursor} {s t t' : Machine × W} {r r' : Except Errno Node}
    (h : Ends x v follow c s r t) (h' : Ends x v follow c s r' t') : r = r' ∧ t = t' := by
  induction h with
  | found c s node t hrun =>
    cases h' with
    | found _ _ node' t' hrun' => simp_all
    | failed _ _ e t' hrun' => simp_all
    | on _ c' _ t' _ _ hrun' => simp_all
  | failed c s e t hrun =>
    cases h' with
    | found _ _ node' t' hrun' => simp_all
    | failed _ _ e' t' hrun' => simp_all
    | on _ c' _ t' _ _ hrun' => simp_all
  | on c c' s t r u hrun _ ih =>
    cases h' with
    | found _ _ node' t' hrun' => simp_all
    | failed _ _ e' t' hrun' => simp_all
    | on _ c'' _ t' _ _ hrun' hends' =>
      obtain ⟨hc, ht⟩ : c' = c'' ∧ t = t' := by simpa using hrun.symm.trans hrun'
      subst hc ht
      exact ih hends'

/-- A cursor with these components behind it and those ahead. -/
def Cursor.at (before rest : List Text) (hops : ℕ) : Cursor := ⟨before ++ rest, before.length, hops⟩

theorem at_here (before rest : List Text) (part : Text) (hops : ℕ) :
    (Cursor.at before (part :: rest) hops).here = join (before ++ [part]) := by
  have htake : (before ++ part :: rest).take (before.length + 1) = before ++ [part] := by
    rw [List.take_length_add_append]
    rfl
  exact congrArg join htake

theorem at_next (before rest : List Text) (part : Text) (hops : ℕ) :
    (Cursor.at before (part :: rest) hops).next = .at (before ++ [part]) rest hops := by
  simp [Cursor.at, Cursor.next]

theorem at_splice (before rest : List Text) (part target : Text) (hops : ℕ) :
    (Cursor.at before (part :: rest) hops).splice target = .at [] (normalize (join before) target ++ rest)
      (hops + 1) := by
  simp [Cursor.at, Cursor.splice]

theorem at_probes (before rest : List Text) (part : Text) (hops : ℕ) :
    (Cursor.at before (part :: rest) hops).Probes follow ↔ rest ≠ [] ∨ follow = true := by
  have hlen : before.length + 1 < (before ++ part :: rest).length ↔ rest ≠ [] := by
    rw [List.length_append, List.length_cons, ← List.length_pos_iff]
    omega
  exact or_congr hlen Iff.rfl

/-- The walk is what the loop does, when the walk that is restarted is. -/
theorem ends_walkFrom {restart : List Text → Program sig Errno Node} {hops : ℕ}
    (hrestart : ∀ parts s, if hops < maxHops then
      Ends x v follow (.at [] parts (hops + 1)) s ((restart parts).run (exec x) s).1
        ((restart parts).run (exec x) s).2
      else restart parts = .fail .loop)
    (before rest : List Text) (s : Machine × W) :
    Ends x v follow (.at before rest hops) s ((walkFrom v follow restart before rest).run (exec x) s).1
      ((walkFrom v follow restart before rest).run (exec x) s).2 := by
  induction rest generalizing before s with
  | nil =>
    have hturn : turn v follow (.at before [] hops) =
        (classifyFinal v (join before) >>= fun node => .ret (.inl node)) := by
      rw [turn_end (by simp [Cursor.at])]
      simp [Cursor.at]
    rw [walkFrom]
    rcases hrun : (classifyFinal v (join before)).run (exec x) s with ⟨e | node, t⟩
    · exact .failed _ _ _ _ (by rw [hturn, Program.run_bind_error _ hrun])
    · exact .found _ _ _ _ (by rw [hturn, Program.run_bind_ok _ hrun]; rfl)
  | cons part rest ih =>
    have hlt : (Cursor.at before (part :: rest) hops).index <
        (Cursor.at before (part :: rest) hops).parts.length := by
      simp [Cursor.at]
    rw [walkFrom]
    by_cases hprobes : rest ≠ [] ∨ follow = true
    · have hc : (Cursor.at before (part :: rest) hops).Probes follow :=
        (at_probes before rest part hops).mpr hprobes
      have hturn := turn_probes (v := v) hlt hc
      rw [at_here, at_next] at hturn
      rw [if_pos hprobes]
      rcases hrun : (symlinkTarget v (join (before ++ [part]))).run (exec x) s with ⟨e | found, t⟩
      · rw [Program.run_bind_error _ hrun]
        exact .failed _ _ _ _ (by rw [hturn, Program.run_bind_error _ hrun])
      rw [Program.run_bind_ok _ hrun]
      cases found with
      | none =>
        exact .on _ _ _ _ _ _ (by rw [hturn, Program.run_bind_ok _ hrun]; rfl) (ih (before ++ [part]) t)
      | some target =>
        have hlink := turn_link hlt hc (by rw [at_here]; exact hrun)
        rw [at_splice] at hlink
        have hnext := hrestart (normalize (join before) target ++ rest) t
        by_cases hhops : hops < maxHops
        · rw [if_pos hhops] at hnext
          exact .on _ _ _ _ _ _ (hlink.trans (if_pos hhops)) hnext
        · rw [if_neg hhops] at hnext
          dsimp only
          rw [hnext]
          exact .failed _ _ _ _ (hlink.trans (if_neg hhops))
    · have hc : ¬ (Cursor.at before (part :: rest) hops).Probes follow :=
        mt (at_probes before rest part hops).mp hprobes
      have hturn := turn_last (v := v) hlt hc
      rw [at_here, at_next] at hturn
      rw [if_neg hprobes]
      cases hlink : virtualLink v.who (join (before ++ [part])) with
      | some target => exact .found _ _ _ _ (by rw [hturn, hlink]; rfl)
      | none => exact .on _ _ _ _ _ _ (by rw [hturn, hlink]; rfl) (ih (before ++ [part]) s)

theorem ends_walk (hops : ℕ) (hle : hops ≤ maxHops) (parts : List Text) (s : Machine × W) :
    Ends x v follow (.at [] parts (maxHops - hops)) s ((walk v follow hops parts).run (exec x) s).1
      ((walk v follow hops parts).run (exec x) s).2 := by
  induction hops generalizing parts s with
  | zero =>
    refine ends_walkFrom (fun parts s => ?_) [] parts s
    rw [if_neg (by omega)]
  | succ hops ih =>
    refine ends_walkFrom (fun parts s => ?_) [] parts s
    rw [if_pos (by omega)]
    have hsucc : maxHops - (hops + 1) + 1 = maxHops - hops := by omega
    rw [hsucc]
    exact ih (by omega) parts s

/-- A longer prefix of a path is longer. -/
theorem join_take_lt {parts : List Text} {i j : ℕ} (hij : i < j) (hj : j ≤ parts.length) (hi : 0 < i) :
    (join (parts.take i)).length < (join (parts.take j)).length := by
  have hne : ∀ k, 0 < k → 0 < parts.length → parts.take k ≠ [] := by
    intro k hk hlen h
    have := congrArg List.length h
    rw [List.length_take, List.length_nil] at this
    omega
  have hsplit := (List.take_append_drop i (parts.take j)).symm
  rw [List.take_take, min_eq_left hij.le] at hsplit
  obtain ⟨part, rest, hdrop⟩ : ∃ part rest, (parts.take j).drop i = part :: rest := by
    apply List.exists_cons_of_ne_nil
    intro h
    have := congrArg List.length h
    rw [List.length_drop, List.length_take, List.length_nil] at this
    omega
  rw [join_eq, join_eq, if_neg (hne i hi (by omega)), if_neg (hne j (by omega) (by omega)), hsplit,
    spell_append, hdrop, List.length_append]
  have : 0 < (spell (part :: rest)).length := by simp [spell]
  omega

/-- What holds of the probes wherever the loop has come to. -/
structure Sparing (c : Cursor) (p : Probed) : Prop where
  hops : c.hops ≤ maxHops
  links : p.past.length = c.hops
  past : ∀ round ∈ p.past, round.Nodup
  current : p.current.Nodup
  behind : ∀ text ∈ p.current, ∃ i, i < c.index ∧ i < c.parts.length ∧ text = join (c.parts.take (i + 1))

theorem Sparing.fresh {c : Cursor} {p : Probed} (h : Sparing c p) (hlt : c.index < c.parts.length) :
    (p.current ++ [c.here]).Nodup := by
  rw [List.nodup_append]
  refine ⟨h.current, List.nodup_singleton _, fun text htext other hother heq => ?_⟩
  obtain rfl := List.mem_singleton.mp hother
  obtain ⟨i, hi, hlen, rfl⟩ := h.behind text htext
  have : (join (c.parts.take (i + 1))).length < (join (c.parts.take (c.index + 1))).length :=
    join_take_lt (by omega) (by omega) (by omega)
  rw [heq] at this
  exact absurd this (Nat.lt_irrefl _)

theorem looped_sparing {base path : Text} {s : Machine × W} {c : Cursor} {t : Machine × W} {p : Probed}
    (h : Looped x v follow base path s c t p) : Sparing c p := by
  induction h with
  | start => exact ⟨Nat.zero_le _, rfl, fun _ h => absurd h List.not_mem_nil, List.nodup_nil,
      fun _ h => absurd h List.not_mem_nil⟩
  | turn c c' t u p _ hrun ih =>
    obtain ⟨hlt, rfl | ⟨_, hhops, target, rfl⟩⟩ := turn_on hrun
    · have hsame : ¬ c.hops < c.next.hops := Nat.lt_irrefl _
      rw [Probed.turn, if_neg hsame]
      have hbehind : ∀ text ∈ p.current, ∃ i, i < c.next.index ∧ i < c.next.parts.length ∧
          text = join (c.next.parts.take (i + 1)) := by
        intro text htext
        obtain ⟨i, hi, hlen, heq⟩ := ih.behind text htext
        exact ⟨i, Nat.lt_succ_of_lt hi, hlen, heq⟩
      split
      · refine ⟨ih.hops, ih.links, ih.past, ih.fresh hlt, fun text htext => ?_⟩
        rcases List.mem_append.mp htext with htext | htext
        · exact hbehind text htext
        · exact ⟨c.index, Nat.lt_succ_self _, hlt, List.mem_singleton.mp htext⟩
      · exact ⟨ih.hops, ih.links, ih.past, ih.current, hbehind⟩
    · have hmore : c.hops < (c.splice target).hops := Nat.lt_succ_self _
      rw [Probed.turn, if_pos hmore]
      refine ⟨hhops, ?_, fun round hround => ?_, List.nodup_nil, fun _ h => absurd h List.not_mem_nil⟩
      · rw [List.length_append, ih.links]
        rfl
      · rcases List.mem_append.mp hround with hround | hround
        · exact ih.past round hround
        · rw [List.mem_singleton.mp hround]
          exact ih.fresh hlt

end

/-- What a call of the resolver comes to, by its loop. -/
def Returns {W : Type} (x : Env W) (v : View) (follow : Bool) (base path : Text) (s : Machine × W)
    (r : Except Errno Node × (Machine × W)) : Prop :=
  if Mem.maxStr < path.length then r = (.error .nametoolong, s)
  else Ends x v follow (.start base path) s r.1 r.2

/-- Resolution comes to its end on every filesystem: it follows no more than
`maxHops` links, gives up when it meets one more, and between two links probes
no prefix twice. -/
theorem resolution_ends {W : Type} (x : Env W) (v : View) (follow : Bool) (base path : Text)
    (s : Machine × W) :
    Returns x v follow base path s ((resolve v base path follow).run (exec x) s) ∧
      ∀ c t p, Looped x v follow base path s c t p →
        c.hops ≤ maxHops ∧ p.past.length = c.hops ∧ (∀ round ∈ p.past, round.Nodup) ∧
        p.current.Nodup ∧ (c.index < c.parts.length → (p.current ++ [c.here]).Nodup) ∧
        ∀ target u, c.index < c.parts.length → c.Probes follow →
          (symlinkTarget v c.here).run (exec x) t = (.ok (some target), u) →
          (turn v follow c).run (exec x) t =
            if c.hops < maxHops then (.ok (.inr (c.splice target)), u) else (.error .loop, u) := by
  constructor
  · unfold Returns resolve
    split
    · rfl
    · have hends := @ends_walk _ x v follow maxHops (le_refl _) (normalize base path) s
      rwa [Nat.sub_self] at hends
  · intro c t p h
    have hspare := looped_sparing h
    exact ⟨hspare.hops, hspare.links, hspare.past, hspare.current, hspare.fresh, fun _ _ => turn_link⟩

end Resolver
end Wasmux
