import PullQuery.Row
import PullQuery.Tid

/-!
# Tuple slots

The current row of an executor node: either borrowed from storage, where it is found at a
location, or owned by the node that built it.
-/

namespace PullQuery

/-- The current row of a node. -/
inductive Slot where
  | empty
  | borrowed (tid : Tid) (row : Row)
  | owned (tid? : Option Tid) (row : Row)
deriving DecidableEq

namespace Slot

instance : Inhabited Slot := ⟨empty⟩

def row? : Slot → Option Row
  | empty => none
  | borrowed _ row => some row
  | owned _ row => some row

/-- The location of the row in storage, as far as it is known. -/
def tid? : Slot → Option Tid
  | empty => none
  | borrowed tid _ => some tid
  | owned tid? _ => tid?

def isEmpty : Slot → Bool
  | empty => true
  | _ => false

def isBorrowed : Slot → Bool
  | borrowed .. => true
  | _ => false

/-- Takes a copy of a borrowed row, so that the slot no longer depends on storage. -/
def materialize : Slot → Slot
  | borrowed tid row => owned (some tid) row
  | s => s

@[simp]
theorem row?_materialize (s : Slot) : s.materialize.row? = s.row? := by
  cases s <;> rfl

@[simp]
theorem tid?_materialize (s : Slot) : s.materialize.tid? = s.tid? := by
  cases s <;> rfl

end Slot

end PullQuery
