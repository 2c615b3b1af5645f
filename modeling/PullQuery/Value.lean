import PullQuery.Binary64.Shortest
import PullQuery.Shape

/-!
# Values

The values a column may hold. Equality and order are those of keys: the NaN equals itself
and is the greatest float, the two zeros are equal, NULL equals NULL and is the least value,
and values of different types order by their types.

## Main definitions

* `Value`: the values, with `Value.type?`, `Value.size`, `Value.toText`
* the instances `BEq Value` and `Ord Value`

## Main results

* `Value.compare_eq_eq_iff`: order and equality agree
* the instance `Std.TransOrd Value`: the order is total
-/

namespace PullQuery

/-- A column value. -/
inductive Value where
  | null
  | boolean (b : Bool)
  | int32 (i : Int32)
  | int64 (i : Int64)
  | float64 (x : Binary64)
  | string (s : String)
  | bytes (data : List UInt8)
deriving DecidableEq

namespace Value

instance : Inhabited Value := ⟨null⟩

/-- The type of a value; NULL has none. -/
def type? : Value → Option DataType
  | null => none
  | boolean _ => some .boolean
  | int32 _ => some .int32
  | int64 _ => some .int64
  | float64 _ => some .float64
  | string _ => some .string
  | bytes _ => some .bytes

def isNull : Value → Bool
  | null => true
  | _ => false

/-! ## Views -/

def toBool? : Value → Option Bool
  | boolean b => some b
  | _ => none

def toInt32? : Value → Option Int32
  | int32 i => some i
  | _ => none

/-- The integer of either width. -/
def toInt64? : Value → Option Int64
  | int32 i => some i.toInt64
  | int64 i => some i
  | _ => none

def toBinary64? : Value → Option Binary64
  | float64 x => some x
  | _ => none

def toString? : Value → Option String
  | string s => some s
  | _ => none

def toBytes? : Value → Option (List UInt8)
  | bytes data => some data
  | _ => none

/-! ## Memory and text -/

/-- The bytes a value takes beside its fixed part. -/
def payloadSize : Value → Nat
  | string s => s.utf8ByteSize
  | bytes data => data.length
  | _ => 0

/-- The memory charged for the fixed part of a value. -/
def fixedSize : Nat := 32

/-- The memory charged for a value. -/
def size (v : Value) : Nat := fixedSize + v.payloadSize

/-- The text of a value in messages. -/
def toText : Value → String
  | null => "NULL"
  | boolean b => if b then "true" else "false"
  | int32 i => toString i.toInt
  | int64 i => toString i.toInt
  | float64 x => x.toText
  | string s => "'" ++ s ++ "'"
  | bytes data => "<" ++ toString data.length ++ " bytes>"

/-! ## Equality and order -/

/-- Equality of keys. -/
def same : Value → Value → Bool
  | null, null => true
  | boolean a, boolean b => a == b
  | int32 a, int32 b => a == b
  | int64 a, int64 b => a == b
  | float64 a, float64 b => a.sameNumber b
  | string a, string b => a == b
  | bytes a, bytes b => a == b
  | _, _ => false

instance : BEq Value := ⟨same⟩

/-- The place of a value's type in the order; NULL comes first. -/
def typeRank : Value → Nat
  | null => 0
  | boolean _ => 1
  | int32 _ => 2
  | int64 _ => 3
  | float64 _ => 4
  | string _ => 5
  | bytes _ => 6

/-- The order of keys. Values of one type compare by their contents, strings by code points
and byte strings by bytes. -/
def order : Value → Value → Ordering
  | boolean a, boolean b => compare a b
  | int32 a, int32 b => compare a b
  | int64 a, int64 b => compare a b
  | float64 a, float64 b => compare a b
  | string a, string b => compare a b
  | bytes a, bytes b => compare a b
  | a, b => compare a.typeRank b.typeRank

instance : Ord Value := ⟨order⟩

theorem beq_def (a b : Value) : (a == b) = same a b := rfl

theorem compare_def (a b : Value) : compare a b = order a b := rfl

theorem compare_eq_eq_iff {a b : Value} : compare a b = .eq ↔ (a == b) = true := by
  cases a <;> cases b <;>
    simp [compare_def, beq_def, order, same, typeRank, Binary64.compare_eq_eq_iff]

/-- Values of different types compare as their types do. -/
theorem order_of_typeRank_ne {a b : Value} (h : a.typeRank ≠ b.typeRank) :
    order a b = compare a.typeRank b.typeRank := by
  cases a <;> cases b <;> simp_all [order, typeRank]

/-- The order of types decides between any two values it can. -/
theorem typeRank_le_of_isLE {a b : Value} (h : (order a b).isLE = true) :
    a.typeRank ≤ b.typeRank := by
  by_cases hr : a.typeRank = b.typeRank
  · exact Nat.le_of_eq hr
  · rw [order_of_typeRank_ne hr] at h
    exact Nat.isLE_compare.mp h

theorem isLE_of_typeRank_lt {a b : Value} (h : a.typeRank < b.typeRank) :
    (order a b).isLE = true := by
  rw [order_of_typeRank_ne (Nat.ne_of_lt h)]
  exact Nat.isLE_compare.mpr (Nat.le_of_lt h)

theorem order_swap (a b : Value) : order a b = (order b a).swap := by
  by_cases h : a.typeRank = b.typeRank
  · cases a <;> cases b <;> simp only [typeRank, reduceCtorEq] at h <;>
      first | rfl | (simp only [order]; exact Std.OrientedCmp.eq_swap)
  · rw [order_of_typeRank_ne h, order_of_typeRank_ne (Ne.symm h)]
    exact Std.OrientedCmp.eq_swap

theorem order_isLE_trans {a b c : Value} (hab : (order a b).isLE = true)
    (hbc : (order b c).isLE = true) : (order a c).isLE = true := by
  have h₁ := typeRank_le_of_isLE hab
  have h₂ := typeRank_le_of_isLE hbc
  by_cases hac : a.typeRank < c.typeRank
  · exact isLE_of_typeRank_lt hac
  -- Otherwise all three types are one, and its own order is transitive.
  · have hb : a.typeRank = b.typeRank := by omega
    have hc : b.typeRank = c.typeRank := by omega
    cases a <;> cases b <;> simp [typeRank] at hb <;> cases c <;> simp [typeRank] at hc <;>
      first
      | rfl
      | (simp only [order] at hab hbc ⊢; exact Std.TransCmp.isLE_trans hab hbc)

instance : Std.TransOrd Value where
  eq_swap {a b} := order_swap a b
  isLE_trans := order_isLE_trans

/-! ## Optional values -/

/-- A missing value is NULL. -/
def ofOption {α : Type} (inject : α → Value) : Option α → Value
  | some a => inject a
  | none => null

end Value

end PullQuery
