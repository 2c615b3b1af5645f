/-!
# Errors of a statement

The errors that end the execution of a statement, with their texts. Causes that belong to
one part of the library have types of their own there and enter here as messages.
-/

namespace PullQuery

/-- An error that execution reports. -/
inductive Error where
  /-- An operation was asked of a node whose state does not allow it. -/
  | invalidState (node operation state : String)
  | storage (message : String)
  | memoryBudgetExceeded (requested used budget : Nat)
  | expression (message : String)
  | capabilityNotSupported (node capability : String)
  | invalidPlan (message : String)
  /-- The statement was interrupted. -/
  | canceled
deriving DecidableEq, Repr

namespace Error

/-- The text reported to the user. -/
def message : Error → String
  | invalidState node operation state =>
    "invalid state: cannot " ++ operation ++ " a " ++ node ++ " node that is " ++ state
  | storage m => "storage error: " ++ m
  | memoryBudgetExceeded requested used budget =>
    "memory budget exceeded: requested " ++ toString requested ++ " bytes with "
      ++ toString used ++ " of " ++ toString budget ++ " in use"
  | expression m => "expression error: " ++ m
  | capabilityNotSupported node capability => node ++ " node does not support " ++ capability
  | invalidPlan m => "invalid plan: " ++ m
  | canceled => "canceling statement due to user request"

/-- Whether the statement cannot go on: all errors but a refused reservation of memory. -/
def isFatal : Error → Bool
  | memoryBudgetExceeded .. => false
  | _ => true

end Error

/-! ## Outcomes -/

section Outcome

variable {ε α β : Type} {f : α → β} {g : α → Except ε β} {x : Except ε α}

theorem exceptMap_eq_ok_iff {b : β} : x.map f = .ok b ↔ ∃ a, x = .ok a ∧ f a = b := by
  cases x <;> simp [Except.map]

theorem exceptMap_eq_error_iff {e : ε} : x.map f = .error e ↔ x = .error e := by
  cases x <;> simp [Except.map]

theorem exceptBind_eq_ok_iff {b : β} : x.bind g = .ok b ↔ ∃ a, x = .ok a ∧ g a = .ok b := by
  cases x <;> simp [Except.bind]

theorem exists_exceptBind_eq_error_iff :
    (∃ e, x.bind g = .error e) ↔ (∃ e, x = .error e) ∨ ∃ a, x = .ok a ∧ ∃ e, g a = .error e := by
  cases x <;> simp [Except.bind]

/-- If there are results for all elements of a list, these are the results. -/
theorem mem_iff_of_map_eq_map_ok {as : List α} {bs : List β} (h : as.map g = bs.map .ok) {b : β} :
    b ∈ bs ↔ ∃ a ∈ as, g a = .ok b := by
  have hmem : .ok b ∈ as.map g ↔ (.ok b : Except ε β) ∈ bs.map .ok := by rw [h]
  simpa [List.mem_map] using hmem.symm

end Outcome

end PullQuery
