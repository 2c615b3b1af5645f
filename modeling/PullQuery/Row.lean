import PullQuery.Value

/-!
# Rows

The column values of one tuple.
-/

namespace PullQuery

/-- A row of column values. -/
structure Row where
  values : List Value
deriving DecidableEq

namespace Row

def empty : Row := ⟨[]⟩

instance : Inhabited Row := ⟨empty⟩

def arity (r : Row) : Nat := r.values.length

def isEmpty (r : Row) : Bool := r.values.isEmpty

def get? (r : Row) (i : Nat) : Option Value := r.values[i]?

/-- Rows are equal when their values are equal as keys, column by column. -/
instance : BEq Row := ⟨fun r s => r.values == s.values⟩

/-- The memory charged for a row beside its values. -/
def fixedSize : Nat := 24

/-- The memory charged for a row. -/
def size (r : Row) : Nat := fixedSize + sumBy Value.size r.values

end Row

end PullQuery
