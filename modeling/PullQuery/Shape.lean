import PullQuery.Count

/-!
# Column types and row shapes

A shape declares the names and types of a row's columns.

## Main definitions

* `DataType`: the column types, with their widths and names
* `Shape`: the columns of a row, with `Shape.position`, `Shape.renamed`, `Shape.width`
-/

namespace PullQuery

/-- The types of non-null values. -/
inductive DataType where
  | boolean
  | int32
  | int64
  | float64
  | string
  | bytes
deriving DecidableEq, Repr

namespace DataType

/-- The width in bytes, for types whose values all have the same width. -/
def fixedWidth? : DataType → Option Nat
  | boolean => some 1
  | int32 => some 4
  | int64 => some 8
  | float64 => some 8
  | string => none
  | bytes => none

/-- The width assumed when memory is planned. Values of variable width are assumed short. -/
def width (t : DataType) : Nat := t.fixedWidth?.getD 32

def name : DataType → String
  | boolean => "boolean"
  | int32 => "int4"
  | int64 => "int8"
  | float64 => "float8"
  | string => "text"
  | bytes => "bytea"

end DataType

/-- A named and typed column. -/
structure Column where
  name : String
  type : DataType
deriving DecidableEq, Repr

/-- The columns of a row, in order. -/
structure Shape where
  columns : List Column
deriving DecidableEq, Repr

namespace Shape

def empty : Shape := ⟨[]⟩

/-- The number of columns. -/
def arity (s : Shape) : Nat := s.columns.length

/-- The position of the first column with a given name. -/
def position (s : Shape) (name : String) : Option Nat :=
  s.columns.findIdx? (·.name == name)

/-- The first columns take the given names in order; the others keep theirs. -/
def renameColumns : List Column → List String → List Column
  | [], _ => []
  | cs, [] => cs
  | c :: cs, n :: ns => { c with name := n } :: renameColumns cs ns

def renamed (s : Shape) (names : List String) : Shape := ⟨renameColumns s.columns names⟩

/-- The width assumed for a row when memory is planned. -/
def width (s : Shape) : Nat := sumBy (·.type.width) s.columns

theorem length_renameColumns (cs : List Column) (ns : List String) :
    (renameColumns cs ns).length = cs.length := by
  fun_induction renameColumns cs ns <;> simp_all

@[simp]
theorem arity_renamed (s : Shape) (names : List String) : (s.renamed names).arity = s.arity :=
  length_renameColumns s.columns names

end Shape

end PullQuery
