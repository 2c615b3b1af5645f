import PullQuery.Error

/-!
# The life of a node

A node is unstarted until it is initialized, active while it returns rows, exhausted once it
has returned the last one, and ended for good once it is released. Restarting makes an active
or exhausted node active again.

## Main definitions

* `NodeKind`, `NodeState`
* `NodeState.start`, `NodeState.exhaust`, `NodeState.restart`, `NodeState.finish`
* `Capabilities`, `Flags`, `Flags.check`: what a node can do and what is asked of it
-/

namespace PullQuery

inductive NodeKind where
  | seqScan
  | bitmapIndexScan
  | bitmapAnd
  | bitmapOr
  | subqueryScan
  | hash
deriving DecidableEq, Repr

namespace NodeKind

def name : NodeKind → String
  | seqScan => "SeqScan"
  | bitmapIndexScan => "BitmapIndexScan"
  | bitmapAnd => "BitmapAnd"
  | bitmapOr => "BitmapOr"
  | subqueryScan => "SubqueryScan"
  | hash => "Hash"

end NodeKind

inductive NodeState where
  | unstarted
  | active
  | exhausted
  | ended
deriving DecidableEq, Repr

namespace NodeState

def name : NodeState → String
  | unstarted => "unstarted"
  | active => "active"
  | exhausted => "exhausted"
  | ended => "ended"

def isExhausted (s : NodeState) : Bool := s == exhausted

def isEnded (s : NodeState) : Bool := s == ended

/-- Whether the node has been initialized and not been released. -/
def isRunning : NodeState → Bool
  | active => true
  | exhausted => true
  | _ => false

/-- The error of an operation that the state does not allow. -/
def refuse (s : NodeState) (kind : NodeKind) (operation : String) : Error :=
  .invalidState kind.name operation s.name

/-- Checks that a node has not been initialized. -/
def ensureUnstarted (s : NodeState) (kind : NodeKind) : Except Error Unit :=
  if s = unstarted then .ok () else .error (s.refuse kind "init")

/-- Checks that a node has been initialized and not been released. -/
def ensureRunning (s : NodeState) (kind : NodeKind) (operation : String) : Except Error Unit :=
  if s.isRunning then .ok () else .error (s.refuse kind operation)

theorem ensureUnstarted_eq_ok_iff {s : NodeState} {kind : NodeKind} :
    s.ensureUnstarted kind = .ok () ↔ s = unstarted := by
  unfold ensureUnstarted
  split <;> simp_all

theorem ensureRunning_eq_ok_iff {s : NodeState} {kind : NodeKind} {operation : String} :
    s.ensureRunning kind operation = .ok () ↔ s.isRunning = true := by
  unfold ensureRunning
  split <;> simp_all

/-- An unstarted node becomes active. -/
def start (s : NodeState) (kind : NodeKind) : Except Error NodeState :=
  (s.ensureUnstarted kind).map fun _ => active

/-- An active node becomes exhausted. -/
def exhaust (s : NodeState) : NodeState := if s = active then exhausted else s

/-- A running node goes on running when it is exhausted. -/
theorem isRunning_exhaust {s : NodeState} (h : s.isRunning = true) :
    s.exhaust.isRunning = true := by
  unfold exhaust
  split
  · rfl
  · exact h

theorem exhaust_eq_unstarted_iff {s : NodeState} : s.exhaust = unstarted ↔ s = unstarted := by
  cases s <;> decide

/-- A running node becomes active. -/
def restart (s : NodeState) (kind : NodeKind) (operation : String) : Except Error NodeState :=
  (s.ensureRunning kind operation).map fun _ => active

/-- Any node becomes ended; tells whether it was not. -/
def finish (s : NodeState) : Bool × NodeState := (!s.isEnded, ended)

end NodeState

/-- The optional operations of a node. -/
structure Capabilities where
  backward : Bool := false
  markRestore : Bool := false
deriving DecidableEq, Repr

/-- What the user of a node is going to do with it. -/
structure Flags where
  backward : Bool := false
  mark : Bool := false
  rewind : Bool := false
deriving DecidableEq, Repr

namespace Flags

/-- Checks that a node can do what is going to be asked of it. -/
def check (f : Flags) (kind : NodeKind) (c : Capabilities) : Except Error Unit :=
  if f.backward && !c.backward then .error (.capabilityNotSupported kind.name "backward scan")
  else if f.mark && !c.markRestore then .error (.capabilityNotSupported kind.name "mark/restore")
  else .ok ()

/-- What a node that reads its input once, from the first row to the last, asks of it. -/
def ofInput (f : Flags) : Flags := { rewind := f.rewind }

end Flags

end PullQuery
