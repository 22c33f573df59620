import Wasmux.Path

/-!
# Folded paths

Folding leaves components that it would leave alone, and a path of such
components folds back into them. A mount is found by the components of its
point, and what is left of them is the path inside the mount.
-/

set_option autoImplicit false

namespace Wasmux

theorem splitOn_append_of_notMem {α : Type} [DecidableEq α] {s : α} {p : List α} (h : s ∉ p) (rest : List α) :
    (p ++ rest).splitOn s = (rest.splitOn s).modifyHead (p ++ ·) := by
  induction p with
  | nil =>
    rw [List.nil_append]
    cases rest.splitOn s <;> rfl
  | cons c p ih =>
    have hc : c ≠ s := fun heq => h (heq ▸ List.mem_cons_self)
    rw [List.cons_append, List.splitOn_cons_eq_if_modifyHead, ih fun hm => h (List.mem_cons_of_mem c hm)]
    simp [hc, List.modifyHead_modifyHead, Function.comp_def]

theorem notMem_of_mem_splitOn {α : Type} [DecidableEq α] {s : α} {l c : List α}
    (h : c ∈ l.splitOn s) : s ∉ c := by
  induction l generalizing c with
  | nil =>
    obtain rfl : c = [] := by simpa using h
    exact List.not_mem_nil
  | cons a l ih =>
    rw [List.splitOn_cons_eq_if_modifyHead] at h
    by_cases ha : a = s
    · rcases List.mem_cons.mp (by simpa [ha] using h) with rfl | h
      · exact List.not_mem_nil
      · exact ih h
    · obtain ⟨head, rest, hsplit⟩ := List.exists_cons_of_ne_nil (List.splitOn_ne_nil s l)
      rw [hsplit] at h ih
      rcases List.mem_cons.mp (by simpa [ha] using h) with rfl | h
      · simpa [Ne.symm ha] using ih List.mem_cons_self
      · exact ih (List.mem_cons_of_mem head h)

/-- A component that folding leaves alone. -/
structure Plain (part : Text) : Prop where
  nonempty : part ≠ []
  dot : part ≠ ascii "."
  dots : part ≠ ascii ".."
  slash : slash ∉ part

/-- Components as folding leaves them. -/
def Folded (parts : List Text) : Prop := ∀ part ∈ parts, Plain part

namespace Folded
variable {parts rest : List Text}

theorem nil : Folded [] := fun _ h => absurd h List.not_mem_nil

theorem append (h : Folded parts) (hr : Folded rest) : Folded (parts ++ rest) := fun part hp =>
  (List.mem_append.mp hp).elim (h part) (hr part)

theorem left (h : Folded (parts ++ rest)) : Folded parts := fun part hp =>
    h part (List.mem_append_left rest hp)

theorem right (h : Folded (parts ++ rest)) : Folded rest := fun part hp =>
    h part (List.mem_append_right parts hp)

theorem dropLast (h : Folded parts) : Folded parts.dropLast := fun part hp =>
    h part (List.mem_of_mem_dropLast hp)

theorem component (h : Folded parts) {c : Text} (hc : slash ∉ c) : Folded (foldComponent parts c) := by
  unfold foldComponent
  split
  · exact h
  split
  · exact h.dropLast
  · rename_i hskip hpop
    apply h.append
    intro part hp
    obtain rfl := List.mem_singleton.mp hp
    exact ⟨fun he => hskip (.inl he), fun he => hskip (.inr he), hpop, hc⟩

theorem foldl (h : Folded parts) {components : List Text} (hc : ∀ c ∈ components, slash ∉ c) :
    Folded (components.foldl foldComponent parts) := by
  induction components generalizing parts with
  | nil => exact h
  | cons c components ih =>
    exact ih (h.component (hc c List.mem_cons_self)) fun d hd => hc d (List.mem_cons_of_mem c hd)

end Folded

theorem folded_normalize (base path : Text) : Folded (normalize base path) := by
  have hsplit : ∀ text : Text, ∀ c ∈ text.splitOn slash, slash ∉ c := fun _ _ => notMem_of_mem_splitOn
  unfold normalize
  apply Folded.foldl _ (hsplit path)
  split
  · exact .nil
  · exact Folded.nil.foldl (hsplit base)

/-- Components as they stand in a path, each behind its slash. -/
def spell (parts : List Text) : Text := parts.flatMap fun part => slash :: part

theorem spell_append (parts rest : List Text) : spell (parts ++ rest) = spell parts ++ spell rest :=
  List.flatMap_append

theorem join_eq (parts : List Text) : join parts = if parts = [] then root else spell parts := rfl

theorem splitOn_spell {parts : List Text} (h : Folded parts) : (spell parts).splitOn slash = [] :: parts := by
  induction parts with
  | nil => rfl
  | cons part parts ih =>
    have hpart : slash ∉ part := (h part List.mem_cons_self).slash
    have hrest := ih fun p hp => h p (List.mem_cons_of_mem part hp)
    have hspell : spell (part :: parts) = slash :: (part ++ spell parts) := rfl
    rw [hspell, List.splitOn_cons_eq_if_modifyHead, splitOn_append_of_notMem hpart, hrest]
    simp

theorem foldl_folded {parts : List Text} (h : Folded parts) (before : List Text) :
    parts.foldl foldComponent before = before ++ parts := by
  induction parts generalizing before with
  | nil => simp
  | cons part parts ih =>
    have hp := h part List.mem_cons_self
    have hstep : foldComponent before part = before ++ [part] := by
      simp [foldComponent, hp.nonempty, hp.dot, hp.dots]
    rw [List.foldl_cons, hstep, ih fun p hm => h p (List.mem_cons_of_mem part hm)]
    simp

theorem startsWithSlash_join (parts : List Text) : startsWithSlash (join parts) = true := by
  cases parts with
  | nil => rfl
  | cons part parts => simp [join, startsWithSlash]

theorem normalize_join {parts : List Text} (h : Folded parts) (base : Text) :
    normalize base (join parts) = parts := by
  unfold normalize
  rw [startsWithSlash_join, if_pos rfl]
  cases parts with
  | nil => rfl
  | cons part parts =>
    have hjoin : join (part :: parts) = spell (part :: parts) := rfl
    rw [hjoin, splitOn_spell h, List.foldl_cons]
    exact foldl_folded h []

theorem join_injective {parts rest : List Text} (h : Folded parts) (hr : Folded rest)
    (heq : join parts = join rest) :
    parts = rest := by
  rw [← normalize_join h root, heq, normalize_join hr root]

/-- A path without the slash that stands for the root alone. -/
def bare (path : Text) : Text := if path = root then [] else path

theorem bare_join {parts : List Text} (h : Folded parts) : bare (join parts) = spell parts := by
  cases parts with
  | nil => rfl
  | cons part parts =>
    have hne : join (part :: parts) ≠ root := fun heq =>
      absurd (join_injective h .nil (heq : join (part :: parts) = join [])) (List.cons_ne_nil _ _)
    rw [bare, if_neg hne]
    rfl

/-- A path that can be used as a key: it starts with a slash, ends in none
unless it is the root, and its components are names. -/
structure Canonical (path : Text) : Prop where
  absolute : startsWithSlash path = true
  trailing : path = root ∨ path.getLast? ≠ some slash
  names : path = root ∨ ∀ c ∈ (path.drop 1).splitOn slash, c ≠ [] ∧ c ≠ ascii "." ∧ c ≠ ascii ".."

theorem canonical_join {parts : List Text} (h : Folded parts) : Canonical (join parts) := by
  rcases parts.eq_nil_or_concat' with rfl | ⟨init, last, rfl⟩
  · exact ⟨rfl, .inl rfl, .inl rfl⟩
  have hlast : Plain last := h last (by simp)
  have hjoin : join (init ++ [last]) = spell (init ++ [last]) := by simp [join_eq]
  have hspell : spell (init ++ [last]) = spell init ++ slash :: last := by simp [spell]
  refine ⟨startsWithSlash_join _, .inr ?_, .inr ?_⟩
  · rw [hjoin, hspell]
    intro heq
    obtain ⟨c, cs, rfl⟩ := List.exists_cons_of_ne_nil hlast.nonempty
    rw [List.getLast?_append_of_ne_nil _ (List.cons_ne_nil _ _), List.getLast?_cons_cons] at heq
    exact hlast.slash (List.mem_of_getLast? heq)
  · intro c hc
    have hsplit := splitOn_spell h
    have hhead : spell (init ++ [last]) = slash :: (spell (init ++ [last])).drop 1 := by
      cases init <;> simp [spell]
    rw [hhead, List.splitOn_cons_eq_if_modifyHead, if_pos (beq_self_eq_true slash)] at hsplit
    rw [hjoin, (List.cons.inj hsplit).2] at hc
    have hplain := h c hc
    exact ⟨hplain.nonempty, hplain.dot, hplain.dots⟩

/-- What is left of a folded path below a mount point. -/
theorem relative_join {mparts parts : List Text} (hm : Folded mparts) (h : Folded parts) {rel : Text}
    (hrel : Mounts.relative (join mparts) (join parts) = some rel) :
    ∃ rest, parts = mparts ++ rest ∧ rel = join rest := by
  by_cases hroot : join mparts = root
  · obtain rfl : mparts = [] := join_injective hm .nil hroot
    obtain rfl : join parts = rel := by simpa [Mounts.relative, hroot] using hrel
    exact ⟨parts, rfl, rfl⟩
  have hspell : join mparts = spell mparts := by
    cases mparts with
    | nil => exact absurd rfl hroot
    | cons part mparts => rfl
  rcases (Mounts.relative_eq_some hroot).mp hrel with ⟨heq, rfl⟩ | ⟨tail, rfl, heq⟩
  · exact ⟨[], by simpa using join_injective h hm heq, rfl⟩
  · obtain ⟨mpart, ms, rfl⟩ := List.exists_cons_of_ne_nil fun hnil => hroot (congrArg join hnil)
    rw [hspell] at heq
    have hparts : parts ≠ [] := by
      rintro rfl
      have hlen := congrArg List.length heq
      simp [join, root, spell] at hlen
    have hwhole : join parts = spell parts := if_neg hparts
    rw [hwhole] at heq
    have hsplit := congrArg (List.splitOn slash) heq
    rw [splitOn_spell h, List.splitOn_append_cons_self, splitOn_spell hm] at hsplit
    have hrest : parts = mpart :: ms ++ tail.splitOn slash := (List.cons.inj hsplit).2
    refine ⟨tail.splitOn slash, hrest, ?_⟩
    rw [hrest, spell_append] at heq
    have htail : spell (tail.splitOn slash) = slash :: tail := List.append_cancel_left heq
    rw [join_eq, if_neg (List.splitOn_ne_nil slash tail), htail]

namespace Mounts

theorem findFrom_eq_some {guest : Text} {base : ℕ} {list : List Mount} {i : ℕ} {rel : Text}
    (h : findFrom guest base list = some (i, rel)) :
    ∃ mount, base ≤ i ∧ list[i - base]? = some mount ∧ relative mount.point guest = some rel := by
  induction list generalizing base with
  | nil => cases h
  | cons mount list ih =>
    rw [findFrom] at h
    split at h
    · rename_i rel' hrel
      obtain ⟨rfl, rfl⟩ : base = i ∧ rel' = rel := by simpa using h
      exact ⟨mount, Nat.le_refl _, by simp, hrel⟩
    · obtain ⟨found, hle, hat, hrel⟩ := ih h
      refine ⟨found, by omega, ?_, hrel⟩
      rw [show i - base = i - (base + 1) + 1 by omega]
      exact hat

theorem find_join {ms : Mounts} {parts : List Text} (h : Folded parts) {i : ℕ} {rel : Text}
    (hfind : ms.find (join parts) = some (i, rel)) : ∃ mount mparts rest, ms.get i = some mount ∧
      mount.point = join mparts ∧ Folded mparts ∧ parts = mparts ++ rest ∧ rel = join rest := by
  obtain ⟨mount, -, hat, hrel⟩ := findFrom_eq_some hfind
  have hget : ms.get i = some mount := hat
  have hnormal := ms.normal mount (List.mem_of_getElem? hat)
  have hfolded := folded_normalize root mount.point
  rw [hnormal] at hrel
  obtain ⟨rest, hparts, hrest⟩ := relative_join hfolded h hrel
  exact ⟨mount, _, rest, hget, hnormal, hfolded, hparts, hrest⟩

end Mounts
end Wasmux
