import PullQuery.Error
import PullQuery.Tid

/-!
# Storage faults

What a storage may answer instead of serving a request, and how a statement reports it.
-/

namespace PullQuery

/-- Why a storage did not serve a request. -/
inductive StorageFault where
  /-- An encoded tuple identifier has the wrong size. -/
  | tidSize (size : Nat)
  /-- No tuple may be stored at this location. -/
  | invalidLocation (tid : Tid)
  | occupied (tid : Tid)
  | notFound (tid : Tid)
  /-- A tuple that was there when a scan began is gone. -/
  | vanished (tid : Tid)
  /-- The scan cannot remember positions. -/
  | noPositioning
  /-- A remembered position is not one of the scan. -/
  | unknownPosition (tid : Tid)
  /-- An index was asked about a column that it does not cover. -/
  | otherColumn (index : String) (covered asked : Nat)
  | tooManyColumns
  | valueTooLarge
  | truncated
  | invalidText
  | unknownTag (tag : Nat)
  /-- A capacity limit of the spill space refuses more data. -/
  | spaceExhausted (held capacity : Nat)
  /-- A fault that an underlying storage states in its own words. -/
  | reported (message : String)
deriving DecidableEq, Repr

namespace StorageFault

def message : StorageFault → String
  | tidSize size =>
    "tuple identifier must be " ++ toString Tid.encodedSize ++ " bytes, got " ++ toString size
  | invalidLocation tid => "invalid tuple location " ++ tid.toText
  | occupied tid => "tuple " ++ tid.toText ++ " already exists"
  | notFound tid => "tuple " ++ tid.toText ++ " not found"
  | vanished tid => "tuple " ++ tid.toText ++ " vanished during scan"
  | noPositioning => "scan does not support positioning"
  | unknownPosition tid => "cannot restore to unknown tuple " ++ tid.toText
  | otherColumn index covered asked =>
    "index " ++ index ++ " is on column " ++ toString covered
      ++ ", qualifier references column " ++ toString asked
  | tooManyColumns => "row has too many columns to spill"
  | valueTooLarge => "value too large to spill"
  | truncated => "truncated spill data"
  | invalidText => "spilled string is not valid UTF-8"
  | unknownTag tag => "unknown spilled value tag " ++ toString tag
  | spaceExhausted held capacity =>
    "spill space exhausted: " ++ toString held ++ " of " ++ toString capacity ++ " bytes in use"
  | reported m => m

/-- The fault as an error of the statement that met it. -/
def toError (fault : StorageFault) : Error := .storage fault.message

end StorageFault

/-- Reads an encoded tuple identifier. -/
def Tid.decode (bytes : List UInt8) : Except StorageFault Tid :=
  match Tid.ofBytes? bytes with
  | some tid => .ok tid
  | none => .error (.tidSize bytes.length)

end PullQuery
