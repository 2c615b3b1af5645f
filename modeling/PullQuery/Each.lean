/-!
# One value for each element of a list

`Each P xs` holds a value of the type `P x` for each element `x` of `xs`, in order. It gives the
inputs of a node their states.
-/

namespace PullQuery

/-- A value for each element of a list. -/
inductive Each {α : Type} (P : α → Type) : List α → Type where
  | nil : Each P []
  | cons {a : α} {as : List α} (head : P a) (tail : Each P as) : Each P (a :: as)

end PullQuery
