import Mathlib.Data.List.Pairwise
import Wasmux.Namespace

/-!
# The mount that owns a path

The table is sorted by the length of the points and searched for the first that
the path lies in. What is found is told by components alone: the mount with the
most of them that the path starts with.
-/

set_option autoImplicit false

namespace Wasmux

def components (path : Text) : List Text := (path.splitOn slash).filter fun name => name ≠ []

/-- The path lies in the directory at `point`, or is it: its first names are those of `point`. -/
def LiesIn (point guest : Text) : Prop := components point <+: components guest

/-- The mount, of all in the list, with the longest point that the path lies in. -/
structure Owns (list : List Mount) (mount : Mount) (guest : Text) : Prop where
  listed : mount ∈ list
  lies : LiesIn mount.point guest
  longest : ∀ other ∈ list, other ≠ mount → LiesIn other.point guest →
    (components other.point).length < (components mount.point).length

theorem components_join {parts : List Text} (h : Folded parts) : components (join parts) = parts := by
  unfold components
  cases parts with
  | nil => rfl
  | cons part parts =>
    have hjoin : join (part :: parts) = spell (part :: parts) := rfl
    rw [hjoin, splitOn_spell h, List.filter_cons_of_neg (by simp)]
    exact List.filter_eq_self.mpr fun name hname => by simpa using (h name hname).nonempty

theorem liesIn_join {mparts parts : List Text} (hm : Folded mparts) (h : Folded parts) :
    LiesIn (join mparts) (join parts) ↔ mparts <+: parts := by
  rw [LiesIn, components_join hm, components_join h]

theorem relative_isSome_iff {mparts parts : List Text} (hm : Folded mparts) (h : Folded parts) :
    (Mounts.relative (join mparts) (join parts)).isSome ↔ mparts <+: parts := by
  constructor
  · intro hsome
    obtain ⟨rel, hrel⟩ := Option.isSome_iff_exists.mp hsome
    obtain ⟨rest, rfl, -⟩ := relative_join hm h hrel
    exact List.prefix_append mparts rest
  · rintro ⟨rest, rfl⟩
    rw [Mounts.relative_append hm h.right]
    rfl

theorem length_lt_of_liesIn {parts near far : List Text} (hfar : Folded far) (h : near <+: parts)
    (h' : far <+: parts) (hlonger : (join far).length ≤ (join near).length) (hne : far ≠ near) :
    far.length < near.length := by
  rcases List.prefix_or_prefix_of_prefix h h' with ⟨rest, rfl⟩ | hfront
  · have hrest : rest ≠ [] := fun hnil => hne (by rw [hnil, List.append_nil])
    have hlong := Mounts.two_le_spell hfar.right hrest
    rw [join_eq (near ++ rest), if_neg (by simp [hrest]), spell_append, List.length_append,
      join_eq] at hlonger
    split at hlonger
    · rename_i hroot
      simp [root, hroot] at hlonger
      omega
    · omega
  · exact lt_of_le_of_ne hfront.length_le fun heq => hne (hfront.eq_of_length heq)

namespace Mounts

theorem findFrom_eq_none {guest : Text} {base : ℕ} {list : List Mount} :
    findFrom guest base list = none ↔ ∀ mount ∈ list, relative mount.point guest = none := by
  induction list generalizing base with
  | nil => simp [findFrom]
  | cons mount list ih =>
    rw [findFrom]
    cases hrel : relative mount.point guest with
    | none => simp [hrel, ih]
    | some rel => simp [hrel]

/-- In a table made of normal and distinct points, registered in any order, a
normal path is found in the mount that owns it, under what is left of it below
the point; it is found in none exactly if it lies in none. -/
theorem find_owner (list : List Mount) (hnormal : ∀ m ∈ list, m.point = join (normalize root m.point))
    (hdistinct : list.Pairwise fun a b => a.point ≠ b.point) {guest : Text}
    (hguest : guest = join (normalize root guest)) :
    (∀ i rel, (new list hnormal).find guest = some (i, rel) → ∃ mount, (new list hnormal).get i = some mount ∧
      Owns list mount guest ∧ startsWithSlash rel = true ∧ bare mount.point ++ bare rel = bare guest) ∧
    ((new list hnormal).find guest = none ↔ ∀ m ∈ list, ¬ LiesIn m.point guest) := by
  have hparts := folded_normalize root guest
  generalize normalize root guest = parts at hguest hparts
  subst hguest
  have hmem : ∀ m, m ∈ (new list hnormal).list ↔ m ∈ list := fun m => List.mem_insertionSort longer
  have hlies : ∀ m ∈ list, (relative m.point (join parts)).isSome ↔ LiesIn m.point (join parts) := by
    intro m hm
    rw [hnormal m hm, liesIn_join (folded_normalize root m.point) hparts]
    exact relative_isSome_iff (folded_normalize root m.point) hparts
  constructor
  · intro i rel hfind
    obtain ⟨mount, mparts, rest, hget, hpoint, hmparts, heq, rfl⟩ := find_join hparts hfind
    have hlisted : mount ∈ list := (hmem mount).mp (List.mem_of_getElem? hget)
    refine ⟨mount, hget, ⟨hlisted, ?_, fun other hother hne hin => ?_⟩, startsWithSlash_join rest, ?_⟩
    · rw [hpoint, liesIn_join hmparts hparts, heq]
      exact List.prefix_append mparts rest
    · obtain ⟨j, found, rel, hfind', hat, -, -, hlonger⟩ :=
        findFrom_longest 0 (new list hnormal).sorted ((hmem other).mpr hother) ((hlies other hother).mpr hin)
      obtain ⟨rfl, -⟩ : i = j ∧ join rest = rel := by
        have hsame := hfind.symm.trans hfind'
        simpa using hsame
      obtain rfl : mount = found := Option.some.inj (hget.symm.trans hat)
      have hother' := hnormal other hother
      have hfar := folded_normalize root other.point
      rw [hother', hpoint] at hlonger
      have hsymm : Std.Symm fun a b : Mount => a.point ≠ b.point := ⟨fun _ _ h => Ne.symm h⟩
      have hapart : other.point ≠ mount.point := hdistinct.forall hother hlisted hne
      rw [hother', liesIn_join hfar hparts] at hin
      rw [hother', hpoint, components_join hfar, components_join hmparts]
      refine length_lt_of_liesIn hfar (heq ▸ List.prefix_append mparts rest) hin hlonger fun hsame =>
        hapart ?_
      rw [hother', hpoint, hsame]
    · rw [hpoint, heq, bare_join hmparts, bare_join (heq ▸ hparts).right, bare_join (heq ▸ hparts),
        spell_append]
  · rw [find, findFrom_eq_none]
    constructor
    · intro h m hm hin
      have hsome := (hlies m hm).mpr hin
      rw [h m ((hmem m).mpr hm)] at hsome
      cases hsome
    · intro h m hm
      rw [← Option.not_isSome_iff_eq_none, hlies m ((hmem m).mp hm)]
      exact h m ((hmem m).mp hm)

/-- A mount at the root and two others, one inside the other. -/
def nested : List Mount := [⟨root, 0, false⟩, ⟨ascii "/work", 1, false⟩, ⟨ascii "/work/deep", 2, true⟩]

theorem nested_normal : ∀ m ∈ nested, m.point = join (normalize root m.point) := by decide +kernel

/-- `/workshop` is not in the mount at `/work`, though its text starts with that. -/
theorem find_owner_workshop :
    (new nested nested_normal).find (ascii "/workshop") = some (2, ascii "/workshop") ∧
    (∀ i rel, (new nested nested_normal).find (ascii "/workshop") = some (i, rel) →
      ∃ mount, (new nested nested_normal).get i = some mount ∧ Owns nested mount (ascii "/workshop") ∧
        startsWithSlash rel = true ∧ bare mount.point ++ bare rel = bare (ascii "/workshop")) ∧
    ((new nested nested_normal).find (ascii "/workshop") = none ↔
      ∀ m ∈ nested, ¬ LiesIn m.point (ascii "/workshop")) :=
  ⟨by decide +kernel, find_owner nested nested_normal (by decide +kernel) (by decide +kernel)⟩

end Mounts
end Wasmux
