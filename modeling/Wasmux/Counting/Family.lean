import Wasmux.Counting.Roll

/-!
# A roll with parents

A family lists names, each with the name of a parent, and marks those that are
alive. Who is bereaved by a death goes to an heir. A family is rooted when
each parent is at the top or alive.
-/

set_option autoImplicit false

namespace Counting

structure Member (κ : Type) where
  name : κ
  parent : κ
  alive : Bool

abbrev Family (κ : Type) := List (Member κ)

namespace Family
variable {κ : Type}

/-- The roll of a family, which does not say who the parents are. -/
def roll (family : Family κ) : Roll κ := family.map fun m => (m.name, m.alive)

def living (family : Family κ) : ℕ := family.countP Member.alive

theorem living_cons (m : Member κ) (family : Family κ) :
    living (m :: family) = living family + if m.alive = true then 1 else 0 := by
  rw [living, living, List.countP_cons]

variable [DecidableEq κ]

def retire (k : κ) : Family κ → Family κ
  | [] => []
  | m :: rest => if m.name = k then { m with alive := false } :: rest else m :: retire k rest

def adopt (k heir : κ) (family : Family κ) : Family κ :=
  family.map fun m => if m.parent = k then { m with parent := heir } else m

def strike (k : κ) (family : Family κ) : Family κ := family.filter fun m => decide (m.name ≠ k)

def bereave (k heir : κ) (family : Family κ) : Family κ := adopt k heir (retire k family)

def Rooted (top : κ → Prop) (family : Family κ) : Prop :=
  ∀ m ∈ family, top m.parent ∨ ∃ q ∈ family, q.name = m.parent ∧ q.alive = true

variable {family : Family κ} {top : κ → Prop} {k heir : κ}

theorem roll_retire (k : κ) (family : Family κ) : (family.retire k).roll = family.roll.retire k := by
  induction family with
  | nil => rfl
  | cons m rest ih =>
    unfold retire
    by_cases hm : m.name = k
    · simp [hm, roll, Roll.retire]
    · simpa [hm, roll, Roll.retire] using ih

theorem roll_adopt (k heir : κ) (family : Family κ) : (family.adopt k heir).roll = family.roll := by
  unfold roll adopt
  rw [List.map_map]
  apply List.map_congr_left
  intro m _
  by_cases hm : m.parent = k
  · simp [hm]
  · simp [hm]

theorem roll_bereave (k heir : κ) (family : Family κ) :
    (family.bereave k heir).roll = family.roll.retire k := by
  rw [bereave, roll_adopt, roll_retire]

theorem living_retire (k : κ) (family : Family κ) : (family.retire k).living ≤ family.living := by
  induction family with
  | nil => exact le_rfl
  | cons m rest ih =>
    unfold retire
    by_cases hm : m.name = k
    · rw [if_pos hm, living_cons, living_cons]
      simp
    · rw [if_neg hm, living_cons, living_cons]
      omega

theorem living_adopt (k heir : κ) (family : Family κ) : (family.adopt k heir).living = family.living := by
  unfold living adopt
  rw [List.countP_map]
  apply List.countP_congr
  intro m _
  simp only [Function.comp_apply]
  split <;> rfl

theorem living_bereave (k heir : κ) (family : Family κ) : (family.bereave k heir).living ≤ family.living := by
  rw [bereave, living_adopt]
  exact living_retire k family

theorem living_strike (k : κ) (family : Family κ) : (family.strike k).living ≤ family.living :=
  List.Sublist.countP_le List.filter_sublist

theorem mem_retire {m : Member κ} (h : m ∈ family.retire k) :
    ∃ q ∈ family, q.name = m.name ∧ q.parent = m.parent := by
  induction family with
  | nil => cases h
  | cons first rest ih =>
    unfold retire at h
    by_cases hfirst : first.name = k
    · rw [if_pos hfirst] at h
      rcases List.mem_cons.mp h with rfl | hrest
      · exact ⟨first, List.mem_cons_self, rfl, rfl⟩
      · exact ⟨m, List.mem_cons_of_mem _ hrest, rfl, rfl⟩
    · rw [if_neg hfirst] at h
      rcases List.mem_cons.mp h with rfl | hrest
      · exact ⟨m, List.mem_cons_self, rfl, rfl⟩
      · obtain ⟨q, hq, hsame⟩ := ih hrest
        exact ⟨q, List.mem_cons_of_mem _ hq, hsame⟩

theorem retire_other {q : Member κ} (hq : q ∈ family) (hne : q.name ≠ k) : q ∈ family.retire k := by
  induction family with
  | nil => cases hq
  | cons first rest ih =>
    unfold retire
    by_cases hfirst : first.name = k
    · rw [if_pos hfirst]
      rcases List.mem_cons.mp hq with rfl | hrest
      · exact absurd hfirst hne
      · exact List.mem_cons_of_mem _ hrest
    · rw [if_neg hfirst]
      rcases List.mem_cons.mp hq with rfl | hrest
      · exact List.mem_cons_self
      · exact List.mem_cons_of_mem _ (ih hrest)

theorem Rooted.bereave (h : Rooted top family) (hheir : top heir) : Rooted top (family.bereave k heir) := by
  intro m hm
  obtain ⟨left, hleft, rfl⟩ := List.mem_map.mp hm
  by_cases hparent : left.parent = k
  · rw [if_pos hparent]
    exact .inl hheir
  · rw [if_neg hparent]
    obtain ⟨was, hwas, -, hsame⟩ := mem_retire hleft
    rcases h was hwas with htop | ⟨q, hq, hname, halive⟩
    · exact .inl (hsame ▸ htop)
    · right
      have hother : q.name ≠ k := fun heq => hparent (by rw [← hsame, ← hname, heq])
      refine ⟨_, List.mem_map_of_mem (retire_other hq hother), ?_, ?_⟩
      · rw [← hsame, ← hname]
        split <;> rfl
      · split <;> exact halive

theorem Rooted.strike (h : Rooted top family) (hdead : family.roll.alive k = 0) :
    Rooted top (family.strike k) := by
  intro m hm
  rcases h m (List.mem_of_mem_filter hm) with htop | ⟨q, hq, hname, halive⟩
  · exact .inl htop
  · right
    refine ⟨q, List.mem_filter.mpr ⟨hq, ?_⟩, hname, halive⟩
    rw [decide_eq_true_iff]
    intro heq
    have := List.countP_eq_zero.mp hdead (q.name, q.alive) (List.mem_map_of_mem hq)
    simp [heq, halive] at this

theorem Rooted.enrol {parent : κ} (h : Rooted top family)
    (hparent : top parent ∨ 0 < family.roll.alive parent) :
    Rooted top (family ++ [⟨k, parent, true⟩]) := by
  intro m hm
  have hthere : ∀ p, (top p ∨ ∃ q ∈ family, q.name = p ∧ q.alive = true) →
      top p ∨ ∃ q ∈ family ++ [⟨k, parent, true⟩], q.name = p ∧ q.alive = true := by
    rintro p (htop | ⟨q, hq, hsame⟩)
    · exact .inl htop
    · exact .inr ⟨q, List.mem_append_left _ hq, hsame⟩
  apply hthere
  rcases List.mem_append.mp hm with hold | hnew
  · exact h m hold
  · obtain rfl := List.mem_singleton.mp hnew
    refine hparent.imp_right fun hpos => ?_
    obtain ⟨e, he, hmarks⟩ := List.countP_pos_iff.mp hpos
    obtain ⟨q, hq, rfl⟩ := List.mem_map.mp he
    exact ⟨q, hq, by simpa using hmarks⟩

end Family
end Counting
