import Mathlib.Data.List.Basic

/-!
# What goes through a queue

A queue that is filled at its end and emptied from its front hands over what
was put in, once and in order, however the two take turns.
-/

set_option autoImplicit false

namespace Counting

/-- What was taken out of a queue so far, and what was put in. -/
structure Flow (α : Type) where
  taken : List α
  given : List α

namespace Flow
variable {α : Type}

def empty : Flow α := ⟨[], []⟩

def take (f : Flow α) (items : List α) : Flow α := { f with taken := f.taken ++ items }

def give (f : Flow α) (items : List α) : Flow α := { f with given := f.given ++ items }

/-- What was put in and not taken out is what the queue has. -/
def Holds (f : Flow α) (queue : List α) : Prop := f.taken ++ queue = f.given

theorem holds_empty : (empty : Flow α).Holds [] := rfl

theorem Holds.exchange {f : Flow α} {queue rest got put : List α} (h : f.Holds queue)
    (hqueue : got ++ rest = queue ++ put) : ((f.take got).give put).Holds rest := by
  show f.taken ++ got ++ rest = f.given ++ put
  calc f.taken ++ got ++ rest = f.taken ++ (queue ++ put) := by rw [List.append_assoc, hqueue]
    _ = f.given ++ put := by rw [← List.append_assoc, h]

@[simp] theorem take_nil (f : Flow α) : f.take [] = f := by simp [take]

@[simp] theorem give_nil (f : Flow α) : f.give [] = f := by simp [give]

end Flow
end Counting
