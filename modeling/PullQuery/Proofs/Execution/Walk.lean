import PullQuery.Execution
import PullQuery.Proofs.Node.Pulls

/-!
# Executing scans

Executing subquery scans over a sequential scan of a heap amounts to a walk over the versions of
the heap: the rows of the visible versions that the condition accepts, each put through the
projections from the innermost to the outermost. The first evaluation that fails on the walk
ends both.

## Main definitions

* `Plan.layered`: subquery scans over a sequential scan
* `walk`: the rows of a walk

## Main results

* `collectRows_of_ready`: the rows that a tree returns are made of the versions ahead of it
* `execute_layered`: executing a plan is a walk
-/

namespace PullQuery

/-! ## Walks -/

/-- Subquery scans over a sequential scan of a heap, the innermost first. -/
def Plan.layered (heap : Heap) (direction : Direction) (qual? : Option Expr)
    (layers : List SubqueryScan) : Plan :=
  layers.foldl (fun p layer => .subqueryScan p layer.projection? layer.shape)
    (.seqScan (.ofHeap heap) direction qual?)

/-- What the projections of layers make of a row, the innermost first. -/
def projectThrough (params : List Value) : List SubqueryScan → Row → Except EvalError Row
  | [], row => .ok row
  | layer :: layers, row =>
    match layer.projection? with
    | none => projectThrough params layers row
    | some es =>
      match Expr.evalAll row params es with
      | .error e => .error e
      | .ok vs => projectThrough params layers ⟨vs⟩

/-- The rows of a walk over versions: of those that are visible and satisfy a condition, put
through the projections of layers. -/
def walk (ctx : Context) (qual? : Option Expr) (layers : List SubqueryScan) :
    List HeapTuple → Except EvalError (List Row)
  | [] => .ok []
  | t :: ts =>
    if ctx.oracle.sees ctx.snapshot t then
      match qual?.elim (.ok true) (·.holds t.row ctx.params) with
      | .error e => .error e
      | .ok false => walk ctx qual? layers ts
      | .ok true =>
        match projectThrough ctx.params layers t.row with
        | .error e => .error e
        | .ok row => (walk ctx qual? layers ts).map (row :: ·)
    else walk ctx qual? layers ts

/-! ## Layers of operators -/

/-- The slot that takes the place of an input slot behind layers, the innermost first. -/
def passThrough (params : List Value) (layers : List SubqueryScan) (input : Slot) :
    Except EvalError Slot :=
  layers.foldlM (fun slot (layer : SubqueryScan) => layer.pass params slot) input

/-- Slots are put through layers as their rows are. -/
theorem passThrough_row? (params : List Value) (layers : List SubqueryScan) {slot : Slot}
    {row : Row} (hrow : slot.row? = some row) :
    (passThrough params layers slot).map Slot.row? =
      (projectThrough params layers row).map some := by
  induction layers generalizing slot row with
  | nil =>
    show Except.ok slot.row? = _
    rw [hrow]
    rfl
  | cons layer layers ih =>
    rw [passThrough, List.foldlM_cons, projectThrough, SubqueryScan.pass]
    rcases hprojection : layer.projection? with _ | es
    · exact ih hrow
    · simp only [hrow, Option.getD_some]
      rcases Expr.evalAll row params es with e | vs
      · rfl
      · exact ih (rfl : (Slot.owned slot.tid? ⟨vs⟩).row? = some ⟨vs⟩)

namespace Operator

/-- Subquery scans over an operator, the innermost first. -/
def layered (op : Operator) (layers : List SubqueryScan) : Operator :=
  layers.foldl (fun op layer => .subquery layer op) op

variable {ctx : Context} {params : List Value} {op : Operator} {layers : List SubqueryScan}

theorem layered_of_ofPlan {p : Plan}
    (h : ofPlan (layers.foldl (fun p layer => .subqueryScan p layer.projection? layer.shape) p) =
      .ok op) : ∃ inner, ofPlan p = .ok inner ∧ op = inner.layered layers := by
  induction layers generalizing p with
  | nil => exact ⟨op, h, rfl⟩
  | cons layer layers ih =>
    obtain ⟨outer, houter, rfl⟩ := ih h
    rw [ofPlan] at houter
    rcases hinner : ofPlan p with f | inner
    · simp [hinner] at houter
    · rw [hinner] at houter
      simp only at houter
      split at houter
      · contradiction
      · obtain rfl := Except.ok.inj houter
        exact ⟨inner, rfl, rfl⟩

theorem isScan_layered (layers : List SubqueryScan) (h : op.IsScan) :
    (op.layered layers).IsScan := by
  induction layers generalizing op with
  | nil => exact h
  | cons layer layers ih =>
    have houter : (subquery layer op).IsScan := h
    exact ih houter

theorem reliable_layered (layers : List SubqueryScan) (h : op.Reliable) :
    (op.layered layers).Reliable := by
  induction layers generalizing op with
  | nil => exact h
  | cons layer layers ih =>
    have houter : (subquery layer op).Reliable := h
    exact ih houter

theorem versions_layered (op : Operator) (layers : List SubqueryScan) :
    (op.layered layers).versions = op.versions := by
  induction layers generalizing op with
  | nil => rfl
  | cons layer layers ih => exact ih (.subquery layer op)

theorem outcome_layered (t : HeapTuple) :
    (op.layered layers).outcome ctx params t =
      (op.outcome ctx params t).map (·.bind (passThrough params layers)) := by
  induction layers generalizing op with
  | nil =>
    have hid : (·.bind (passThrough params [])) = @id (Except EvalError Slot) := by
      funext r
      cases r <;> rfl
    rw [hid, Option.map_id]
    rfl
  | cons layer layers ih =>
    rw [layered, List.foldl_cons, ← layered, ih, outcome, Option.map_map]
    congr 1
    funext r
    cases r <;> rfl

end Operator

/-! ## Collecting rows -/

/-- The rows made of versions, up to the first error. -/
def collectOutcomes (outcome : HeapTuple → Option (Except EvalError Slot)) :
    List HeapTuple → Except EvalError (List Row)
  | [] => .ok []
  | t :: ts =>
    match outcome t with
    | none => collectOutcomes outcome ts
    | some (.error e) => .error e
    | some (.ok slot) => (collectOutcomes outcome ts).map (slot.row?.getD .empty :: ·)

/-- The rows that begin with an answer, up to the first error. -/
def rowsFrom (rows : Except Error (List Row)) :
    Except Error (Option Slot) → Except Error (List Row)
  | .error e => .error e
  | .ok none => .ok []
  | .ok (some slot) => rows.map (slot.row?.getD .empty :: ·)

/-- The rows made of all versions begin with what a pull answers. -/
theorem Pull.collectOutcomes_eq {outcome : HeapTuple → Option (Except EvalError Slot)}
    {ts ts' : List HeapTuple} {r : Except Error (Option Slot)} (h : Pull outcome False ts r ts') :
    (collectOutcomes outcome ts).mapError EvalError.toError =
      rowsFrom ((collectOutcomes outcome ts').mapError EvalError.toError) r := by
  induction h with
  | done => rfl
  | skip h _ ih => rw [← ih, collectOutcomes, h]
  | @row t ts slot h =>
    rw [collectOutcomes, h]
    rcases collectOutcomes outcome ts with e | rows
    · rfl
    · rfl
  | fail h => rw [collectOutcomes, h]; rfl
  | fault h => contradiction

section Collect

variable {ctx : Context} {op : Operator}

/-- The rows that a tree returns are made of the versions that are ahead of it. -/
theorem collectRows_of_ready (hreliable : op.Reliable) {limit : Nat} {n : Node op}
    {rest : List HeapTuple} {w : Session} (hn : n.Ready ctx.params op rest) (hw : w.Calm ctx)
    (hlimit : rest.length < limit) :
    (collectRows ctx op limit n w).1 =
      (collectOutcomes (op.outcome ctx ctx.params) rest).mapError EvalError.toError := by
  induction limit generalizing n rest w with
  | zero => omega
  | succ limit ih =>
    obtain ⟨rest', hpull, hready, hcalm⟩ := hn.next ctx w
    rw [show (¬ op.Reliable) = False from eq_false (not_not_intro hreliable)] at hpull
    rw [hpull.collectOutcomes_eq, collectRows, hw.checkInterrupt]
    rcases hnext : n.next ctx op w with ⟨r, n', w'⟩
    rw [hnext] at hpull hready hcalm
    rcases r with e | _ | slot
    · rfl
    · rfl
    · obtain ⟨t, -, ht⟩ := hpull.exists_outcome rfl
      obtain ⟨row, hrow⟩ := Operator.exists_row_of_outcome ht
      have hshorter := hpull.length_lt rfl
      have hrest := ih hready (hcalm hw) (by omega)
      simp only [hrow, rowsFrom, Option.getD_some]
      rw [← hrest]

end Collect

section Execute

variable {ctx : Context} {heap : Heap} {direction : Direction} {qual? : Option Expr}
  {layers : List SubqueryScan} {w : Session}

/-- What layers over a sequential scan make of versions are the rows of a walk. -/
theorem collectOutcomes_layered (ts : List HeapTuple) :
    collectOutcomes ((Operator.seqScan ⟨.ofHeap heap, direction, qual?⟩).layered layers
      |>.outcome ctx ctx.params) ts = walk ctx qual? layers ts := by
  induction ts with
  | nil => rfl
  | cons t ts ih =>
    have haccepts : SeqScan.accepts ⟨.ofHeap heap, direction, qual?⟩ ctx.params t.row =
        qual?.elim (.ok true) (·.holds t.row ctx.params) := by
      cases qual? <;> rfl
    rw [collectOutcomes, walk, ih, Operator.outcome_layered, Operator.outcome, SeqScan.outcome,
      ← haccepts]
    by_cases hsees : ctx.oracle.sees ctx.snapshot t = true
    · rw [if_pos hsees, if_pos hsees]
      rcases SeqScan.accepts ⟨.ofHeap heap, direction, qual?⟩ ctx.params t.row with e | _ | _
      · rfl
      · rfl
      · have hrow := passThrough_row? ctx.params layers
          (rfl : (Slot.borrowed t.tid t.row).row? = some t.row)
        simp only [Option.map_some, Except.bind]
        rcases hpass : passThrough ctx.params layers (.borrowed t.tid t.row) with e | slot
        · rw [hpass] at hrow
          rw [exceptMap_eq_error_iff.mp hrow.symm]
        · rw [hpass] at hrow
          obtain ⟨row, hproject, hslot⟩ := exceptMap_eq_ok_iff.mp hrow.symm
          simp only [hproject, ← hslot, Option.getD_some]
    · rw [if_neg hsees, if_neg hsees]
      rfl

/-- The rows of an execution are those that the tree of the plan returns. -/
theorem execute_rows {flags : Flags} {p : Plan} {op : Operator} (h : Operator.ofPlan p = .ok op) :
    (execute ctx flags p w).map QueryOutput.rows = (runTree ctx flags op w).1 := by
  rw [execute, h]
  rcases hrun : runTree ctx flags op w with ⟨_ | _, n⟩
  · simp only [hrun]
    rfl
  · simp only [hrun]
    rfl

/-- Executing subquery scans over a sequential scan is a walk over the versions of the heap,
unless the plan is refused. -/
theorem execute_layered (hw : w.Calm ctx) :
    (execute ctx {} (Plan.layered heap direction qual? layers) w).map QueryOutput.rows =
      match Operator.ofPlan (Plan.layered heap direction qual? layers) with
      | .error f => .error f.toError
      | .ok _ => (walk ctx qual? layers (heap.inOrder direction)).mapError EvalError.toError := by
  rcases hplan : Operator.ofPlan (Plan.layered heap direction qual? layers) with f | op
  · rw [execute, hplan]
    rfl
  · obtain ⟨inner, hinner, rfl⟩ := Operator.layered_of_ofPlan hplan
    obtain rfl := Except.ok.inj hinner
    have hscan : (Operator.seqScan ⟨.ofHeap heap, direction, qual?⟩).IsScan := trivial
    have hreliable : (Operator.seqScan ⟨.ofHeap heap, direction, qual?⟩).Reliable :=
      Relation.reliable_ofHeap heap
    obtain ⟨n, hinit⟩ := Node.exists_init ctx (Operator.isScan_layered layers hscan)
      (Operator.reliable_layered layers hreliable)
    have hready := Node.ready_init (Operator.isScan_layered layers hscan) hinit
    rw [Operator.versions_layered] at hready
    rw [execute_rows hplan, runTree, hinit]
    dsimp only
    rw [collectRows_of_ready (Operator.reliable_layered layers hreliable) hready hw
      (Nat.lt_succ_of_le (Nat.le_of_eq hready.rowsAhead_eq.symm)), collectOutcomes_layered]
    rfl

/-- Three numbers, of which one is NULL. -/
def numbers : Heap :=
  ((({ name := "numbers", shape := ⟨[⟨"x", .int64⟩]⟩ } : Heap).insert ⟨[.int64 1]⟩ 2).2.insert
    ⟨[.null]⟩ 2).2.insert ⟨[.int64 3]⟩ 2 |>.2

/-- The positive numbers against their order, doubled; the outer scan only names them. -/
theorem execute_layered_doubles :
    Session.Calm {} {} ∧
      (execute {} {} (.layered numbers .backward
          (some (.binary (.comparison .gt) (.column 0) (.literal (.int64 0))))
          [⟨some [.binary (.arithmetic .add) (.column 0) (.column 0)], ⟨[⟨"y", .int64⟩]⟩⟩,
            ⟨none, ⟨[⟨"z", .int64⟩]⟩⟩]) {}).map QueryOutput.rows =
        .ok [⟨[.int64 6]⟩, ⟨[.int64 2]⟩] := by
  have hcalm : Session.Calm {} {} := ⟨rfl, fun _ => rfl⟩
  exact ⟨hcalm, (execute_layered hcalm).trans (by decide)⟩

end Execute

end PullQuery
