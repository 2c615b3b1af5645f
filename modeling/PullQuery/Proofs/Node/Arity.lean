import PullQuery.Proofs.Expr.Truth
import PullQuery.Proofs.Node.Refusals

/-!
# The columns of rows

A plan that is accepted declares the number of columns of the rows at each of its nodes. If its
relations only store rows with as many columns as they declare, each node returns rows with as many
columns as it declares, in whatever state it is. So an expression of the plan fails for a column
only if the rows that it is evaluated for do not declare that column.

## Main definitions

* `Operator.StoresDeclared`: the relations store rows with as many columns as they declare
* `Operator.Checked`: what is checked of a plan
* `Operator.readArity`: the columns of the rows that the expressions of a node are evaluated for

## Main results

* `Expr.noColumn_of_eval`: an expression fails for columns that a row does not have
* `Node.ne_row_of_bitmap`, `Node.ne_row_of_hash`: nodes that return no rows
* `Node.arity_of_next`: the rows of all other nodes
* `Operator.noColumn_of_raisesAt`: columns that are not there
* `Node.declared_arity`
-/

namespace PullQuery

/-! ## Expressions -/

namespace Value

variable {l r : Value} {i a : Nat}

theorem ofInt32?_ne_noColumn (n : Int) : ofInt32? n ≠ .error (.noColumn i a) := by
  unfold ofInt32?
  split <;> simp

theorem ofInt64?_ne_noColumn (n : Int) : ofInt64? n ≠ .error (.noColumn i a) := by
  unfold ofInt64?
  split <;> simp

theorem compareAs_ne_noColumn : l.compareAs r ≠ .error (.noColumn i a) := by
  unfold compareAs
  split
  · simp
  · split
    · simp
    · split <;> simp

theorem connect_ne_noColumn (op : Connective) : l.connect op r ≠ .error (.noColumn i a) := by
  unfold connect
  split <;> simp

theorem onInt_bind_ne_noColumn (op : Arithmetic) (x y : Int) {f : Int → Except EvalError Value}
    (hf : ∀ n, f n ≠ .error (.noColumn i a)) :
    (op.onInt x y).bind f ≠ .error (.noColumn i a) := by
  cases op with
  | div =>
    rw [Arithmetic.onInt]
    split
    · simp [Except.bind]
    · exact hf _
  | _ => exact hf _

theorem arithmetic_ne_noColumn (op : Arithmetic) :
    l.arithmetic op r ≠ .error (.noColumn i a) := by
  unfold arithmetic
  split
  · exact onInt_bind_ne_noColumn op _ _ ofInt32?_ne_noColumn
  · split
    · exact onInt_bind_ne_noColumn op _ _ ofInt64?_ne_noColumn
    · split
      · next x y _ _ =>
        intro h
        have hfloat := exceptMap_eq_error_iff.mp h
        cases op with
        | div =>
          rw [Arithmetic.onBinary64] at hfloat
          split at hfloat <;> simp at hfloat
        | _ => simp [Arithmetic.onBinary64] at hfloat
      · simp

end Value

theorem BinaryOp.apply_ne_noColumn (op : BinaryOp) (l r : Value) {i a : Nat} :
    op.apply l r ≠ .error (.noColumn i a) := by
  unfold apply
  split
  · simp
  · cases op with
    | comparison c => exact fun h => Value.compareAs_ne_noColumn (exceptMap_eq_error_iff.mp h)
    | connective c => exact Value.connect_ne_noColumn c
    | arithmetic a => exact Value.arithmetic_ne_noColumn a

theorem UnaryOp.apply_ne_noColumn (op : UnaryOp) (v : Value) {i a : Nat} :
    op.apply v ≠ .error (.noColumn i a) := by
  cases op with
  | isNull => simp [apply]
  | isNotNull => simp [apply]
  | not =>
    rw [apply]
    split
    · simp
    · cases v <;> simp [Value.invert]
  | neg =>
    rw [apply]
    split
    · simp
    · cases v with
      | int32 n => exact Value.ofInt32?_ne_noColumn _
      | int64 n => exact Value.ofInt64?_ne_noColumn _
      | _ => simp [Value.negate]

namespace Expr

variable {row : Row} {params : List Value} {i a : Nat}

/-- An expression fails for a column only if the row does not have it. -/
theorem noColumn_of_eval {e : Expr} (h : e.eval row params = .error (.noColumn i a)) :
    a = row.arity ∧ row.arity ≤ i := by
  induction e with
  | column j =>
    rw [eval] at h
    split at h
    · contradiction
    · next hnone =>
      obtain ⟨rfl, rfl⟩ := EvalError.noColumn.inj (Except.error.inj h)
      exact ⟨rfl, List.getElem?_eq_none_iff.mp hnone⟩
  | literal v => contradiction
  | param j =>
    rw [eval] at h
    split at h <;> simp at h
  | binary op l r ihl ihr =>
    rw [eval] at h
    split at h
    · next x hl =>
      obtain rfl := Except.error.inj h
      exact ihl hl
    · split at h
      · contradiction
      · split at h
        · next x hr =>
          obtain rfl := Except.error.inj h
          exact ihr hr
        · exact absurd h (op.apply_ne_noColumn _ _)
  | unary op e ih =>
    rw [eval] at h
    split at h
    · next x he =>
      obtain rfl := Except.error.inj h
      exact ih he
    · exact absurd h (op.apply_ne_noColumn _)

theorem noColumn_of_evalAll {es : List Expr}
    (h : evalAll row params es = .error (.noColumn i a)) : a = row.arity ∧ row.arity ≤ i := by
  induction es with
  | nil => contradiction
  | cons e es ih =>
    rw [evalAll] at h
    split at h
    · next x he =>
      obtain rfl := Except.error.inj h
      exact noColumn_of_eval he
    · exact ih (exceptMap_eq_error_iff.mp h)

theorem noColumn_of_holds {e : Expr} (h : e.holds row params = .error (.noColumn i a)) :
    a = row.arity ∧ row.arity ≤ i := by
  unfold holds at h
  split at h
  · next x he =>
    obtain rfl := Except.error.inj h
    exact noColumn_of_eval he
  · contradiction
  · contradiction
  · simp at h

/-- Expressions that read no column do not fail for one: they would fail for every row. -/
theorem evalAll_ne_noColumn {es : List Expr} (hes : ∀ e ∈ es, e.isRowIndependent = true) :
    evalAll row params es ≠ .error (.noColumn i a) := by
  intro h
  -- The error counts the columns of the row, and is the same for a row of none and a row of one.
  have hnone := (noColumn_of_evalAll ((evalAll_eq_of_isRowIndependent hes .empty row).trans h)).1
  have hone :=
    (noColumn_of_evalAll ((evalAll_eq_of_isRowIndependent hes ⟨[.null]⟩ row).trans h)).1
  exact absurd (hnone.symm.trans hone) (by decide)

end Expr

/-! ## Plans that are accepted -/

mutual

/-- Whether no qualifier of an index scan reads a column. -/
def BitmapOp.RowIndependent : BitmapOp → Prop
  | .indexScan scan => ∀ e ∈ scan.qual.args, e.isRowIndependent = true
  | .combine _ inputs => BitmapOp.AllRowIndependent inputs

def BitmapOp.AllRowIndependent : List BitmapOp → Prop
  | [] => True
  | op :: ops => op.RowIndependent ∧ BitmapOp.AllRowIndependent ops

end

theorem IndexScan.args_of_ofQual {index : BitmapIndex} {qual : IndexQual} {scan : IndexScan}
    (h : ofQual index qual = .ok scan) : ∀ e ∈ scan.qual.args, e.isRowIndependent = true := by
  unfold ofQual at h
  split at h
  · contradiction
  · split at h
    · next hargs =>
      obtain rfl := Except.ok.inj h
      exact List.all_eq_true.mp hargs
    · contradiction

namespace BitmapOp

mutual

theorem rowIndependent_of_ofInput {parent : Combination} {op : BitmapOp} :
    {p : Plan} → ofInput parent p = .ok op → op.RowIndependent
  | .bitmapIndexScan index qual, h => by
    rw [ofInput] at h
    obtain ⟨scan, hscan, rfl⟩ := exceptMap_eq_ok_iff.mp h
    exact IndexScan.args_of_ofQual hscan
  | .bitmapCombine how inputs, h => by
    rw [ofInput] at h
    split at h
    · contradiction
    · obtain ⟨ops, hops, rfl⟩ := exceptMap_eq_ok_iff.mp h
      exact allRowIndependent_of_ofInputs hops
  | .seqScan .., h => nomatch h
  | .subqueryScan .., h => nomatch h
  | .hash .., h => nomatch h

theorem allRowIndependent_of_ofInputs {parent : Combination} {ops : List BitmapOp} :
    {ps : List Plan} → ofInputs parent ps = .ok ops → AllRowIndependent ops
  | [], h => by
    obtain rfl := Except.ok.inj h
    trivial
  | p :: ps, h => by
    rw [ofInputs] at h
    split at h
    · contradiction
    · next op hop =>
      obtain ⟨ops, hops, rfl⟩ := exceptMap_eq_ok_iff.mp h
      exact ⟨rowIndependent_of_ofInput hop, allRowIndependent_of_ofInputs hops⟩

end

mutual

theorem not_raises_noColumn {i a : Nat} : {op : BitmapOp} → op.RowIndependent →
    ¬ op.Raises (.noColumn i a)
  | .indexScan _, hargs, ⟨_, hkeys⟩ =>
    Expr.evalAll_ne_noColumn hargs (exceptMap_eq_error_iff.mp hkeys)
  | .combine _ _, hinputs, hraises => not_anyRaises_noColumn hinputs hraises

theorem not_anyRaises_noColumn {i a : Nat} : {ops : List BitmapOp} → AllRowIndependent ops →
    ¬ AnyRaises (.noColumn i a) ops
  | [], _, hraises => hraises
  | _ :: _, ⟨hfirst, hothers⟩, hraises =>
    hraises.elim (not_raises_noColumn hfirst) (not_anyRaises_noColumn hothers)

end

end BitmapOp

namespace Operator

/-- What is checked of a plan: a subquery scan declares as many columns as it returns, and the
qualifiers of index scans read none. -/
def Checked : Operator → Prop
  | seqScan _ => True
  | bitmap op => op.RowIndependent
  | subquery scan op =>
    (scan.projection?.map List.length).getD op.shape.arity = scan.shape.arity ∧ Checked op
  | hash _ op => Checked op

theorem checked_of_ofPlan : {p : Plan} → {op : Operator} → ofPlan p = .ok op → op.Checked
  | .seqScan .., op, h => by
    obtain rfl := Except.ok.inj h
    trivial
  | .bitmapIndexScan index qual, op, h => by
    rw [ofPlan] at h
    obtain ⟨scan, hscan, rfl⟩ := exceptMap_eq_ok_iff.mp h
    exact IndexScan.args_of_ofQual hscan
  | .bitmapCombine how inputs, op, h => by
    rw [ofPlan] at h
    split at h
    · contradiction
    · obtain ⟨ops, hops, rfl⟩ := exceptMap_eq_ok_iff.mp h
      exact BitmapOp.allRowIndependent_of_ofInputs hops
  | .subqueryScan input projection? shape, op, h => by
    rw [ofPlan] at h
    split at h
    · contradiction
    · next op' hinput =>
      dsimp only at h
      split at h
      · contradiction
      · next hproduced =>
        obtain rfl := Except.ok.inj h
        exact ⟨Decidable.not_not.mp hproduced, checked_of_ofPlan hinput⟩
  | .hash input keys keepNulls estimatedRows, op, h => by
    rw [ofPlan] at h
    split at h
    · contradiction
    · obtain ⟨op', hinput, rfl⟩ := exceptMap_eq_ok_iff.mp h
      have hchecked : op'.Checked := checked_of_ofPlan hinput
      exact hchecked

/-- Whether all relations store rows with as many columns as they declare. -/
def StoresDeclared (op : Operator) : Prop :=
  ∀ scan, (seqScan scan).Within op →
    ∀ t ∈ scan.relation.heap.tuples, t.row.arity = scan.relation.shape.arity

theorem Within.trans {op₁ op₂ op₃ : Operator} (h : op₁.Within op₂) (h' : op₂.Within op₃) :
    op₁.Within op₃ := by
  induction h' with
  | refl => exact h
  | subquery scan _ ih => exact .subquery scan ih
  | hash build _ ih => exact .hash build ih

variable {op op' : Operator}

theorem Checked.within (h : op.Checked) (hwithin : op'.Within op) : op'.Checked := by
  induction hwithin with
  | refl => exact h
  | subquery scan _ ih => exact ih h.2
  | hash build _ ih => exact ih h

theorem StoresDeclared.within (h : op.StoresDeclared) (hwithin : op'.Within op) :
    op'.StoresDeclared := fun scan hscan => h scan (hscan.trans hwithin)

end Operator

/-! ## Rows -/

variable {ctx : Context}

/-- A row that a scan fetches is one of a stored version. -/
theorem SeqScan.slot_of_fetchUpTo {n : SeqScan} {limit : Nat} {scan : RelationScan}
    {s s' : State} {w w' : Session}
    (h : n.fetchUpTo ctx limit scan s w = (.ok true, s', w')) :
    ∃ t ∈ n.relation.heap.tuples, s'.slot = .borrowed t.tid t.row := by
  induction limit generalizing scan s w with
  | zero => simp [fetchUpTo] at h
  | succ limit ih =>
    rw [fetchUpTo] at h
    split at h
    · simp at h
    · simp at h
    · next t scan' hfetch =>
      dsimp only at h
      split at h
      · exact ih h
      · split at h
        · simp at h
        · exact ih h
        · obtain ⟨-, rfl, -⟩ := Prod.mk.inj h
          exact ⟨t, RelationScan.mem_of_fetch hfetch, rfl⟩

theorem SeqScan.slot_of_fetch {n : SeqScan} {s s' : State} {w w' : Session}
    (h : n.fetch ctx s w = (.ok true, s', w')) :
    ∃ t ∈ n.relation.heap.tuples, s'.slot = .borrowed t.tid t.row := by
  unfold fetch at h
  split at h
  · simp at h
  · exact slot_of_fetchUpTo h

/-- The row that a subquery scan shows for a row of its input has the columns that are declared. -/
theorem SubqueryScan.arity_of_project {n : SubqueryScan} {s s' : State} {input : Slot} {row : Row}
    (hrow : input.row? = some row)
    (hdeclared : (n.projection?.map List.length).getD row.arity = n.shape.arity)
    (h : n.project s input = (.ok (), s')) :
    ∃ row', (n.shownSlot s' input).row? = some row' ∧ row'.arity = n.shape.arity := by
  unfold project at h
  unfold shownSlot
  split at h
  · next hprojection =>
    rw [hprojection] at hdeclared
    exact ⟨row, hrow, hdeclared⟩
  · next es hprojection =>
    rw [hprojection] at hdeclared
    rw [hrow] at h
    dsimp only at h
    split at h
    · simp at h
    · next vs heval =>
      obtain ⟨-, rfl⟩ := Prod.mk.inj h
      exact ⟨⟨vs⟩, rfl, (Expr.length_of_evalAll heval).trans hdeclared⟩

namespace Node

variable {op : Operator} {n : Node op} {w : Session} {slot : Slot}

theorem ne_row_of_bitmap {op : BitmapOp} (n : Node (.bitmap op)) :
    (n.next ctx (.bitmap op) w).1 ≠ .ok (some slot) := by
  cases n with | bitmap s
  rw [next]
  split
  · simp
  · simp
  · split <;> simp

theorem ne_row_of_hash {build : HashBuild} (n : Node (.hash build op)) :
    (n.next ctx (.hash build op) w).1 ≠ .ok (some slot) := by
  cases n with | hash s input
  rw [next]
  split
  · simp
  · simp
  · split <;> simp

/-- A node that returns a row, in whatever state it is, returns one with the columns that are
declared. -/
theorem arity_of_next (hop : op.Checked) (hstored : op.StoresDeclared)
    (h : (n.next ctx op w).1 = .ok (some slot)) :
    ∃ row, slot.row? = some row ∧ row.arity = op.shape.arity := by
  induction op generalizing w slot with
  | seqScan scan =>
    cases n with | seqScan s
    rw [next] at h
    split at h
    · simp at h
    · simp at h
    · split at h
      · simp at h
      · simp at h
      · next s' w' hfetch =>
        obtain ⟨t, ht, hslot⟩ := SeqScan.slot_of_fetch hfetch
        have hshown : s'.slot = slot := by simpa using h
        exact ⟨t.row, by rw [← hshown, hslot]; rfl, hstored scan .refl t ht⟩
  | bitmap op => exact absurd h (ne_row_of_bitmap n)
  | subquery scan op ih =>
    cases n with | subquery s input
    rw [next] at h
    split at h
    · simp at h
    · simp at h
    · split at h
      · simp at h
      · simp at h
      · next slot' input' w' hnext =>
        obtain ⟨row, hrow, harity⟩ :=
          ih hop.2 (hstored.within (.subquery scan .refl)) (congrArg Prod.fst hnext)
        split at h
        · simp at h
        · next s' hproject =>
          have hshown : scan.shownSlot s' slot' = slot := by simpa using h
          rw [← hshown]
          exact SubqueryScan.arity_of_project hrow (harity ▸ hop.1) hproject
  | hash build op => exact absurd h (ne_row_of_hash n)

end Node

/-! ## Columns that are not there -/

namespace Operator

/-- The columns that are declared of the rows which the expressions of the root are evaluated
for. -/
def readArity : Operator → Nat
  | seqScan scan => scan.relation.shape.arity
  | bitmap _ => 0
  | subquery _ op => op.shape.arity
  | hash _ op => op.shape.arity

variable {op : Operator} {i a : Nat}

theorem arity_of_yields (hop : op.Checked) (hstored : op.StoresDeclared) {row : Row}
    (h : op.Yields row) : row.arity = op.shape.arity := by
  obtain ⟨ctx, n, w, slot, hnext, hrow⟩ := h
  obtain ⟨row', hrow', harity⟩ := Node.arity_of_next hop hstored hnext
  obtain rfl := Option.some.inj (hrow.symm.trans hrow')
  exact harity

/-- An expression fails for a column only if the rows that it is evaluated for do not declare it. -/
theorem noColumn_of_raisesAt (hop : op.Checked) (hstored : op.StoresDeclared)
    (h : op.RaisesAt (.noColumn i a)) : a = op.readArity ∧ op.readArity ≤ i := by
  cases op with
  | seqScan scan =>
    obtain ⟨t, ht, params, haccepts⟩ := h
    rw [readArity, ← hstored scan .refl t ht]
    unfold SeqScan.accepts at haccepts
    split at haccepts
    · contradiction
    · exact Expr.noColumn_of_holds haccepts
  | bitmap op => exact absurd h (BitmapOp.not_raises_noColumn hop)
  | subquery scan op =>
    obtain ⟨row, hyields, es, -, params, heval⟩ := h
    rw [readArity, ← arity_of_yields hop.2 (hstored.within (.subquery scan .refl)) hyields]
    exact Expr.noColumn_of_evalAll heval
  | hash build op =>
    obtain ⟨row, hyields, params, hhash⟩ := h
    have hinput : op.Checked := hop
    rw [readArity, ← arity_of_yields hinput (hstored.within (.hash build .refl)) hyields]
    exact Expr.noColumn_of_evalAll (exceptMap_eq_error_iff.mp hhash)

end Operator

/-! ## Runs -/

namespace Node

variable {op : Operator} {n : Node op} {w : Session}

/-- An error of an expression comes from an evaluation at one of the nodes of a tree. -/
theorem exists_raisesAt {r : NodeRequest} {m : String} (h : Leads op (fresh op) n)
    (he : (r.serve ctx op n w).1.error? = some (.expression m)) :
    ∃ (x : EvalError) (op' : Operator), m = x.message ∧ op'.Within op ∧ op'.RaisesAt x := by
  by_cases hallowed : r.AllowedIn n.base.state
  · obtain ⟨x, ⟨op', hwithin, hraises⟩, hm⟩ := (foreseen_of_leads h hallowed he).exists_raised
    exact ⟨x, op', hm, hwithin, hraises⟩
  · obtain ⟨capability, hrefused⟩ | ⟨operation, hrefused⟩ := refused_of_not_allowed hallowed he
    · contradiction
    · contradiction

theorem arity_of_collectRows (hop : op.Checked) (hstored : op.StoresDeclared) {limit : Nat}
    {rows : List Row} (h : (collectRows ctx op limit n w).1 = .ok rows) :
    ∀ row ∈ rows, row.arity = op.shape.arity := by
  induction limit generalizing n w rows with
  | zero =>
    obtain rfl := Except.ok.inj h
    exact nofun
  | succ limit ih =>
    rw [collectRows] at h
    split at h
    · contradiction
    · split at h
      · contradiction
      · obtain rfl := Except.ok.inj h
        exact nofun
      · next slot n' w' hnext =>
        obtain ⟨row, hrow, harity⟩ := arity_of_next hop hstored (congrArg Prod.fst hnext)
        rw [hrow] at h
        obtain ⟨rows', hrows, rfl⟩ := exceptMap_eq_ok_iff.mp h
        exact List.forall_mem_cons.mpr ⟨harity, ih hrows⟩

/-- Whatever plan is accepted, if its relations store rows with as many columns as they declare:
bitmap and hash nodes return no rows, and any node of the plan, in whatever state it is, returns
rows with as many columns as it declares. An evaluation at a node fails for a column only if the
rows that it is made for do not declare that column, and whatever is asked of the tree in a run, an
expression fails for such an evaluation at one of its nodes. -/
theorem declared_arity {p : Plan} (hp : Operator.ofPlan p = .ok op)
    (hstored : op.StoresDeclared) :
    (∀ op' : Operator, op'.kind ∈ [NodeKind.bitmapIndexScan, .bitmapAnd, .bitmapOr, .hash] →
      ∀ ctx (n : Node op') w slot, (n.next ctx op' w).1 ≠ .ok (some slot)) ∧
    (∀ op' : Operator, op'.Within op → ∀ ctx (n : Node op') w slot,
      (n.next ctx op' w).1 = .ok (some slot) →
        ∃ row, slot.row? = some row ∧ row.arity = op'.shape.arity) ∧
    (∀ op' : Operator, op'.Within op → ∀ i a, op'.RaisesAt (.noColumn i a) →
      a = op'.readArity ∧ op'.readArity ≤ i) ∧
    (∀ n, Leads op (fresh op) n → ∀ ctx (r : NodeRequest) w m,
      (r.serve ctx op n w).1.error? = some (.expression m) →
        ∃ (x : EvalError) (op' : Operator),
          m = x.message ∧ op'.Within op ∧ op'.RaisesAt x) ∧
    ∀ ctx flags w out, execute ctx flags p w = .ok out →
      ∀ row ∈ out.rows, row.arity = op.shape.arity := by
  have hop := Operator.checked_of_ofPlan hp
  refine ⟨?_, ?_, ?_, fun n hn ctx r w m => exists_raisesAt hn, ?_⟩
  · intro op' hkind ctx n w slot
    cases op' with
    | seqScan scan => simp [Operator.kind] at hkind
    | bitmap op => exact ne_row_of_bitmap n
    | subquery scan op => simp [Operator.kind] at hkind
    | hash build op => exact ne_row_of_hash n
  -- Both hypotheses hold of every operator below as well.
  · intro op' hwithin ctx n w slot hnext
    exact arity_of_next (hop.within hwithin) (hstored.within hwithin) hnext
  · intro op' hwithin i a hraises
    exact Operator.noColumn_of_raisesAt (hop.within hwithin) (hstored.within hwithin) hraises
  · intro ctx flags w out hexecute
    rw [execute, hp] at hexecute
    obtain ⟨rows, hrows, rfl⟩ := exceptMap_eq_ok_iff.mp hexecute
    have hrun : (runTree ctx flags op w).1 = .ok rows := hrows
    rw [runTree] at hrun
    split at hrun
    · contradiction
    · exact arity_of_collectRows hop hstored hrun

/-- A number beside itself. -/
def pairedNumber : Plan :=
  .subqueryScan (.seqScan (.ofHeap oneNumber) .forward none) (some [.column 0, .column 0])
    ⟨[⟨"x", .int64⟩, ⟨"y", .int64⟩]⟩

/-- The operators of the plan. -/
def pairedOperator : Operator :=
  .subquery ⟨some [.column 0, .column 0], ⟨[⟨"x", .int64⟩, ⟨"y", .int64⟩]⟩⟩
    (.seqScan ⟨.ofHeap oneNumber, .forward, none⟩)

theorem declared_arity_pairedNumber :
    Operator.ofPlan pairedNumber = .ok pairedOperator ∧ pairedOperator.StoresDeclared ∧
      ∃ out, execute {} {} pairedNumber {} = .ok out ∧ out.rows.length = 1 ∧
        ∀ row ∈ out.rows, row.arity = 2 := by
  have hplan : Operator.ofPlan pairedNumber = .ok pairedOperator := rfl
  have hstored : pairedOperator.StoresDeclared := by
    rintro scan (_ | ⟨_, hscan⟩)
    cases hscan
    intro t ht
    obtain rfl := List.mem_singleton.mp ht
    rfl
  have hrows := (declared_arity hplan hstored).2.2.2.2 {} {} {}
  exact ⟨hplan, hstored, _, rfl, rfl, hrows _ rfl⟩

end Node

end PullQuery
