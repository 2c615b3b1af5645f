import PullQuery.Proofs.Node.Steps

/-!
# Requests to a tree of nodes

A tree is used by asking its root for one thing after another, in any order; requests that fail
leave a tree that goes on being used. In between, the statement may be interrupted or go on.

## Main definitions

* `NodeRequest`, `NodeAnswer`, `NodeRequest.serve`
* `NodeAnswer.error?`: the error that a request has failed with
* `Node.run`: a tree after requests in turn
* `Node.answers`: what it answers to them

## Main results

* `Node.run_induction`: what every request keeps, a run keeps
-/

namespace PullQuery

/-- What is asked of a hash node alone. -/
inductive HashRequest where
  /-- Builds the table. -/
  | build
  | load (batch : Nat)
  | lookup (hash : UInt32)

/-- What is asked of the root of a tree, or happens to the statement meanwhile. -/
inductive NodeRequest where
  | init (flags : Flags)
  | next
  | bitmap
  | rescan (params? : Option (List Value))
  | mark
  | restore
  | finish
  | hash (request : HashRequest)
  /-- The statement is interrupted, or its interrupt is taken back. -/
  | interrupt (set : Bool)

/-- What a tree answers. -/
inductive NodeAnswer where
  | outcome (result : Except Error Unit)
  | row (result : Except Error (Option Slot))
  | bitmap (result : Except Error TidBitmap)
  | found (result : Except Error HashLookup)
  /-- The root is not a hash node. -/
  | notHash

/-- Whether a request has succeeded. -/
def NodeAnswer.isOk : NodeAnswer → Bool
  | outcome result => result.isOk
  | row result => result.isOk
  | bitmap result => result.isOk
  | found result => result.isOk
  | notHash => false

namespace NodeAnswer

/-- The error that a request has failed with. -/
def error? : NodeAnswer → Option Error
  | outcome (.error e) => some e
  | row (.error e) => some e
  | bitmap (.error e) => some e
  | found (.error e) => some e
  | _ => none

variable {e : Error}

@[simp] theorem error?_outcome {r : Except Error Unit} :
    (outcome r).error? = some e ↔ r = .error e := by
  cases r <;> simp [error?]

@[simp] theorem error?_row {r : Except Error (Option Slot)} :
    (row r).error? = some e ↔ r = .error e := by
  cases r <;> simp [error?]

@[simp] theorem error?_bitmap {r : Except Error TidBitmap} :
    (bitmap r).error? = some e ↔ r = .error e := by
  cases r <;> simp [error?]

@[simp] theorem error?_found {r : Except Error HashLookup} :
    (found r).error? = some e ↔ r = .error e := by
  cases r <;> simp [error?]

end NodeAnswer

/-- Carries out a request to a hash node. -/
def HashRequest.serve (ctx : Context) (build : HashBuild) (op : Operator)
    (n : Node (.hash build op)) (w : Session) :
    HashRequest → NodeAnswer × Node (.hash build op) × Session
  | .build =>
    let (result, n, w) := Node.buildTable ctx build op n w
    (.outcome result, n, w)
  | .load batch =>
    match n with
    | .hash s input =>
      let (result, s) := HashBuild.loadBatch s batch
      (.outcome result, .hash s input, w)
  | .lookup hash =>
    match n with
    | .hash s input => (.found (HashBuild.lookup s hash), .hash s input, w)

/-- Carries out a request. -/
def NodeRequest.serve (ctx : Context) (op : Operator) (n : Node op) (w : Session) :
    NodeRequest → NodeAnswer × Node op × Session
  | .init flags =>
    let (result, n) := n.init ctx op flags
    (.outcome result, n, w)
  | .next =>
    let (result, n, w) := n.next ctx op w
    (.row result, n, w)
  | .bitmap =>
    let (result, n) := n.buildBitmap ctx op
    (.bitmap result, n, w)
  | .rescan params? =>
    let (result, n) := n.rescan params? op
    (.outcome result, n, w)
  | .mark =>
    let (result, n) := n.markPos op
    (.outcome result, n, w)
  | .restore =>
    let (result, n) := n.restorePos op
    (.outcome result, n, w)
  | .finish => (.outcome (.ok ()), n.finish op, w)
  | .hash request =>
    match op, n with
    | .hash build op, n => request.serve ctx build op n w
    | _, n => (.notHash, n, w)
  | .interrupt set => (.outcome (.ok ()), n, { w with interrupted := set })

namespace Node

variable {ctx : Context} {op : Operator}

/-- A tree after requests in turn, whether they succeed or not. -/
def run (ctx : Context) (op : Operator) : List NodeRequest → Node op → Session → Node op × Session
  | [], n, w => (n, w)
  | r :: rs, n, w => run ctx op rs (r.serve ctx op n w).2.1 (r.serve ctx op n w).2.2

/-- What a tree answers to requests in turn. -/
def answers (ctx : Context) (op : Operator) : List NodeRequest → Node op → Session → List NodeAnswer
  | [], _, _ => []
  | r :: rs, n, w =>
    (r.serve ctx op n w).1 ::
      answers ctx op rs (r.serve ctx op n w).2.1 (r.serve ctx op n w).2.2

/-- What every request keeps holds after any requests. -/
theorem run_induction {motive : Node op → Session → Prop} {rs : List NodeRequest}
    (hserve : ∀ r ∈ rs, ∀ n w, motive n w →
      motive (r.serve ctx op n w).2.1 (r.serve ctx op n w).2.2)
    {n : Node op} {w : Session} (h : motive n w) :
    motive (run ctx op rs n w).1 (run ctx op rs n w).2 := by
  induction rs generalizing n w with
  | nil => exact h
  | cons r rs ih =>
    refine ih ?_ (hserve r (List.mem_cons_self ..) n w h)
    intro r' hr'
    exact hserve r' (List.mem_cons_of_mem r hr')

end Node

end PullQuery
