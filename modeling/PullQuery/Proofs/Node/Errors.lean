import PullQuery.Proofs.Node.Conservation
import PullQuery.Proofs.Node.Restart

/-!
# The errors of a running tree

What a running tree can fail with is known beforehand: faults of its storage, errors of evaluating
one of its expressions for a row that the node below returns, an interrupt, operations that it
cannot do, and four misuses that leave it running. All else that its nodes check holds: an input
runs as the node above it does, the scan is open, and a node that returns a row shows it.

## Main definitions

* `Operator.Yields`: an operator returns a row
* `Operator.RaisesAt`, `Operator.Raises`: where the errors of evaluation in a tree come from
* `Error.Foreseen`: the errors that a tree can fail with
* `Error.Internal`: the errors of checks that hold already

## Main results

* `Error.Foreseen.not_internal`, `Error.Foreseen.ne_refuse`
* `HashBuild.foreseen_drain`, `HashBuild.foreseen_build`: a hash node fails as its input fails
* `Node.foreseen_init`: a new tree that is initialized
* `Node.Runs.foreseen_next`, `Node.Runs.foreseen_rescan`, `Node.Runs.foreseen_buildBitmap`,
  `Node.Runs.foreseen_markPos`, `Node.Runs.foreseen_restorePos`: a running tree
-/

namespace PullQuery

variable {ctx : Context}

/-! ## Errors of evaluation -/

/-- Whether an operator, in whatever state, returns a row. -/
def Operator.Yields (op : Operator) (row : Row) : Prop :=
  ∃ (ctx : Context) (n : Node op) (w : Session) (slot : Slot),
    (n.next ctx op w).1 = .ok (some slot) ∧ slot.row? = some row

/-- Whether an error of evaluation comes from the qualifier of an index scan. -/
def IndexScan.Raises (scan : IndexScan) (x : EvalError) : Prop :=
  ∃ params, scan.qual.keys params = .error x

mutual

/-- Whether an error of evaluation comes from a tree of bitmap nodes. -/
def BitmapOp.Raises (x : EvalError) : BitmapOp → Prop
  | .indexScan scan => scan.Raises x
  | .combine _ inputs => BitmapOp.AnyRaises x inputs

def BitmapOp.AnyRaises (x : EvalError) : List BitmapOp → Prop
  | [] => False
  | op :: ops => op.Raises x ∨ BitmapOp.AnyRaises x ops

end

namespace Operator

/-- Whether an operator is one of those of a tree. -/
inductive Within (op' : Operator) : Operator → Prop where
  | refl : Within op' op'
  | subquery {op : Operator} (scan : SubqueryScan) (h : Within op' op) :
    Within op' (.subquery scan op)
  | hash {op : Operator} (build : HashBuild) (h : Within op' op) : Within op' (.hash build op)

/-- Whether an error of evaluation comes from the root of a tree: from the condition of a scan for
a stored row, or from a projection or the keys of a hash node for a row that the input returns. -/
def RaisesAt (x : EvalError) : Operator → Prop
  | seqScan scan => ∃ t ∈ scan.relation.heap.tuples, ∃ params, scan.accepts params t.row = .error x
  | bitmap op => op.Raises x
  | subquery scan op => ∃ row, op.Yields row ∧ ∃ es, scan.projection? = some es ∧
    ∃ params, Expr.evalAll row params es = .error x
  | hash build op => ∃ row, op.Yields row ∧ ∃ params, build.hashRow params build.keys row = .error x

/-- Whether an error of evaluation comes from a tree. -/
def Raises (x : EvalError) (op : Operator) : Prop := ∃ op', Within op' op ∧ op'.RaisesAt x

variable {x : EvalError} {op : Operator}

theorem Raises.subquery (h : op.Raises x) (scan : SubqueryScan) :
    (Operator.subquery scan op).Raises x := by
  obtain ⟨op', hwithin, hraises⟩ := h
  exact ⟨op', .subquery scan hwithin, hraises⟩

theorem Raises.hash (h : op.Raises x) (build : HashBuild) : (Operator.hash build op).Raises x := by
  obtain ⟨op', hwithin, hraises⟩ := h
  exact ⟨op', .hash build hwithin, hraises⟩

end Operator

/-! ## Errors that are foreseen -/

/-- The errors that a tree can answer with, where `raised` are those of evaluation. -/
inductive Error.Foreseen (raised : EvalError → Prop) : Error → Prop where
  | storage (fault : StorageFault) : Foreseen raised fault.toError
  | expression {x : EvalError} (h : raised x) : Foreseen raised x.toError
  | canceled : Foreseen raised .canceled
  | unsupported (kind : NodeKind) (capability : String) :
    Foreseen raised (.capabilityNotSupported kind.name capability)
  /-- There is no position to return to. -/
  | unmarked : Foreseen raised
    (.invalidState NodeKind.seqScan.name "restore a position on" "unmarked")
  /-- Building the table has failed before. -/
  | aborted : Foreseen raised (.invalidState NodeKind.hash.name "build" "aborted")
  | notBuilt : Foreseen raised HashBuild.notBuilt
  /-- The table has no such batch. -/
  | noBatch : Foreseen raised
    (.invalidState NodeKind.hash.name "load a batch into" "partitioned into fewer batches")

/-- The errors of checks that hold whenever they are made: a reservation of memory that is refused
in the end, a running scan that is not open, and a row that was returned but is not there. -/
inductive Error.Internal : Error → Prop where
  | refused (requested used budget : Nat) : Internal (.memoryBudgetExceeded requested used budget)
  | notOpen : Internal SeqScan.notOpen
  | noInputRow (kind : NodeKind) (operation : String) :
    Internal (.invalidState kind.name operation "missing a child row")
  | noRow (kind : NodeKind) (operation : String) :
    Internal (.invalidState kind.name operation "missing a row")

namespace Error

variable {P Q : EvalError → Prop} {e : Error}

theorem Foreseen.mono (hPQ : ∀ x, P x → Q x) (h : e.Foreseen P) : e.Foreseen Q := by
  cases h with
  | storage fault => exact .storage fault
  | expression hx => exact .expression (hPQ _ hx)
  | canceled => exact .canceled
  | unsupported kind capability => exact .unsupported kind capability
  | unmarked => exact .unmarked
  | aborted => exact .aborted
  | notBuilt => exact .notBuilt
  | noBatch => exact .noBatch

/-- The texts for a state under which a misuse is reported. -/
def misuses : List String :=
  ["unmarked", "aborted", "not built", "partitioned into fewer batches"]

theorem Foreseen.state_mem {node operation state : String}
    (h : (Error.invalidState node operation state).Foreseen P) : state ∈ misuses := by
  generalize he : Error.invalidState node operation state = e at h
  cases h with
  | unmarked => simp [(Error.invalidState.inj he).2.2, misuses]
  | aborted => simp [(Error.invalidState.inj he).2.2, misuses]
  | notBuilt => simp [(Error.invalidState.inj he).2.2, misuses]
  | noBatch => simp [(Error.invalidState.inj he).2.2, misuses]
  | _ => contradiction

/-- An error of an expression is foreseen for an evaluation that fails. -/
theorem Foreseen.exists_raised {m : String} (h : (Error.expression m).Foreseen P) :
    ∃ x, P x ∧ m = x.message := by
  generalize he : Error.expression m = e at h
  cases h with
  | expression hx => exact ⟨_, hx, Error.expression.inj he⟩
  | _ => contradiction

theorem Foreseen.not_internal (h : e.Foreseen P) : ¬ e.Internal := by
  intro hinternal
  cases hinternal with
  | refused requested used budget => cases h
  | notOpen => exact absurd h.state_mem (by decide)
  | noInputRow kind operation => exact absurd h.state_mem (by decide)
  | noRow kind operation => exact absurd h.state_mem (by decide)

/-- No error that is foreseen is that of a node whose state does not allow what is asked of it. -/
theorem Foreseen.ne_refuse (h : e.Foreseen P) (s : NodeState) (kind : NodeKind)
    (operation : String) : e ≠ s.refuse kind operation := by
  rintro rfl
  have hstate : s.name ∈ misuses := Foreseen.state_mem h
  revert hstate
  cases s <;> decide

end Error

/-! ## Bitmap nodes -/

theorem IndexScan.foreseen_collect {scan : IndexScan} {P : EvalError → Prop} {keys : List Value}
    {m : TidBitmap} {calls : Nat} {e : Error} (h : (scan.collect keys m calls).1 = .error e) :
    e.Foreseen P := by
  induction keys generalizing m calls with
  | nil => simp [collect] at h
  | cons key keys ih =>
    rw [collect] at h
    split at h
    · next fault _ =>
      obtain rfl := Except.error.inj h
      exact .storage fault
    · exact ih h

theorem IndexScan.foreseen_build {scan : IndexScan} {c : BitmapCell} {e : Error}
    (h : (scan.build ctx c).1 = .error e) : e.Foreseen scan.Raises := by
  unfold build at h
  split at h
  · contradiction
  · split at h
    · next x hkeys =>
      obtain rfl := Except.error.inj h
      exact .expression ⟨_, hkeys⟩
    · split at h
      · next e' calls hcollect =>
        obtain rfl := Except.error.inj h
        exact foreseen_collect (congrArg Prod.fst hcollect)
      · contradiction

namespace BitmapNode

mutual

/-- While its nodes are running, no node of a tree is refused a bitmap by its input. -/
theorem foreseen_build {e : Error} : {op : BitmapOp} → {s : BitmapNode op} →
    Throughout (·.base.state.isRunning) op s → (build ctx op s).1 = .error e →
    e.Foreseen (BitmapOp.Raises · op)
  | .indexScan _, .indexScan _, _, h => IndexScan.foreseen_build h
  | .combine how inputs, .combine c ss, hrunning, h => by
    rw [build] at h
    split at h
    · contradiction
    · split at h
      · next e' ss' hinputs =>
        obtain rfl := Except.error.inj h
        exact foreseen_buildAll hrunning.2 (congrArg Prod.fst hinputs)
      · contradiction

theorem foreseen_buildAll {e : Error} {how : Combination} : {acc? : Option TidBitmap} →
    {ops : List BitmapOp} → {ss : Each BitmapNode ops} →
    AllThroughout (·.base.state.isRunning) ops ss → (buildAll ctx how acc? ops ss).1 = .error e →
    e.Foreseen (BitmapOp.AnyRaises · ops)
  | _, [], .nil, _, h => by simp [buildAll] at h
  | acc?, op :: ops, .cons s ss, ⟨hfirst, hothers⟩, h => by
    rw [buildAll, NodeState.ensureRunning_eq_ok_iff.mpr hfirst.cell] at h
    dsimp only at h
    split at h
    · next e' s' hbuild =>
      obtain rfl := Except.error.inj h
      exact (foreseen_build hfirst (congrArg Prod.fst hbuild)).mono fun x hx => .inl hx
    · split at h
      · contradiction
      · exact (foreseen_buildAll hothers h).mono fun x hx => .inr hx

end

end BitmapNode

/-! ## Scans -/

theorem HeapScan.mem_of_fetch {h : Heap} {s s' : HeapScan} {d : Direction} {t : HeapTuple}
    (hfetch : s.fetch h d = (.ok (some t), s')) : t ∈ h.tuples := by
  unfold fetch at hfetch
  dsimp only at hfetch
  split at hfetch
  · split at hfetch
    · simp at hfetch
    · split at hfetch
      · simp at hfetch
      · next t' hfound =>
        obtain rfl : t' = t := by simpa using (Prod.mk.inj hfetch).1
        exact (Heap.get?_eq_some_iff.mp hfound).1
  · simp at hfetch

theorem RelationScan.mem_of_fetch {r : Relation} {s s' : RelationScan} {d : Direction}
    {t : HeapTuple} (hfetch : s.fetch r d = (.ok (some t), s')) : t ∈ r.heap.tuples := by
  unfold fetch at hfetch
  dsimp only at hfetch
  split at hfetch
  · simp at hfetch
  · rcases hscan : s.scan.fetch r.heap d with ⟨result, scan⟩
    rw [hscan] at hfetch
    obtain ⟨rfl, -⟩ := Prod.mk.inj hfetch
    exact HeapScan.mem_of_fetch hscan

namespace SeqScan

variable {n : SeqScan} {s : State} {e : Error}

theorem foreseen_fetchUpTo {limit : Nat} {scan : RelationScan} {w : Session}
    (h : (n.fetchUpTo ctx limit scan s w).1 = .error e) :
    e.Foreseen (Operator.Raises · (.seqScan n)) := by
  induction limit generalizing scan s w with
  | zero => simp [fetchUpTo] at h
  | succ limit ih =>
    rw [fetchUpTo] at h
    split at h
    · next fault scan' _ =>
      obtain rfl := Except.error.inj h
      exact .storage fault
    · simp at h
    · next t scan' hfetch =>
      dsimp only at h
      split at h
      · exact ih h
      · split at h
        · next x haccepts =>
          obtain rfl := Except.error.inj h
          exact .expression ⟨_, .refl, t, RelationScan.mem_of_fetch hfetch, _, haccepts⟩
        · exact ih h
        · simp at h

/-- A fetch of an open scan fails for its storage or its condition. -/
theorem foreseen_fetch {w : Session} (hopen : s.scan?.isSome = true)
    (h : (n.fetch ctx s w).1 = .error e) : e.Foreseen (Operator.Raises · (.seqScan n)) := by
  obtain ⟨scan, hscan⟩ := Option.isSome_iff_exists.mp hopen
  simp only [fetch, hscan] at h
  exact foreseen_fetchUpTo h

variable {P : EvalError → Prop}

theorem foreseen_rescan (hopen : s.scan?.isSome = true) (h : (n.rescan s).1 = .error e) :
    e.Foreseen P := by
  obtain ⟨scan, hscan⟩ := Option.isSome_iff_exists.mp hopen
  simp only [rescan, hscan] at h
  split at h
  · next fault _ _ =>
    obtain rfl := Except.error.inj h
    exact .storage fault
  · simp at h

theorem foreseen_mark (hopen : s.scan?.isSome = true) (h : (n.mark s).1 = .error e) :
    e.Foreseen P := by
  obtain ⟨scan, hscan⟩ := Option.isSome_iff_exists.mp hopen
  simp only [mark, hscan] at h
  split at h
  · next fault _ =>
    obtain rfl := Except.error.inj h
    exact .storage fault
  · simp at h

theorem foreseen_restore (hopen : s.scan?.isSome = true) (h : (n.restore s).1 = .error e) :
    e.Foreseen P := by
  obtain ⟨scan, hscan⟩ := Option.isSome_iff_exists.mp hopen
  simp only [restore, hscan] at h
  split at h
  · obtain rfl := Except.error.inj h
    exact .unmarked
  · split at h
    · next fault _ =>
      obtain rfl := Except.error.inj h
      exact .storage fault
    · simp at h

end SeqScan

/-- A row that is there fails to be projected for its evaluation alone. -/
theorem SubqueryScan.foreseen_project {n : SubqueryScan} {s : State} {input : Slot} {row : Row}
    {P : EvalError → Prop} {e : Error} (hrow : input.row? = some row)
    (hraised : ∀ es, n.projection? = some es → ∀ params x, Expr.evalAll row params es = .error x →
      P x)
    (h : (n.project s input).1 = .error e) : e.Foreseen P := by
  unfold project at h
  split at h
  · contradiction
  · next es hprojection =>
    rw [hrow] at h
    dsimp only at h
    split at h
    · next x heval =>
      obtain rfl := Except.error.inj h
      exact .expression (hraised es hprojection _ x heval)
    · contradiction

/-! ## Hash nodes -/

theorem Session.foreseen_checkInterrupt {w : Session} {P : EvalError → Prop} {e : Error}
    (h : w.checkInterrupt = .error e) : e.Foreseen P := by
  unfold checkInterrupt at h
  split at h
  · obtain rfl := Except.error.inj h
    exact .canceled
  · contradiction

namespace HashBuild

variable {n : HashBuild} {P : EvalError → Prop} {e : Error}

theorem foreseen_absorb {t : HashTable} {s : State} {row : Row}
    (hraised : ∀ params x, n.hashRow params n.keys row = .error x → P x)
    (h : (n.absorb t s row).1 = .error e) : e.Foreseen P := by
  unfold absorb at h
  split at h
  · next x hhash =>
    obtain rfl := Except.error.inj h
    exact .expression (hraised _ x hhash)
  · contradiction
  · split at h
    · next fault _ _ =>
      obtain rfl := Except.error.inj h
      exact .storage fault
    · contradiction

section Input

variable {σ : Type} {next : σ → Session → Except Error (Option Slot) × σ × Session} {Q : σ → Prop}

/-- Reading an input fails as the input fails, for an interrupt, or for one of its rows. -/
theorem foreseen_drain (hnext : ∀ i w, Q i → Q (next i w).2.1)
    (herror : ∀ i w e, Q i → (next i w).1 = .error e → e.Foreseen P)
    (hrow : ∀ i w slot, Q i → (next i w).1 = .ok (some slot) →
      ∃ row, slot.row? = some row ∧ ∀ params x, n.hashRow params n.keys row = .error x → P x)
    {limit : Nat} {t : HashTable} {s : State} {i : σ} {w : Session} (hi : Q i)
    (h : (n.drain next limit t s i w).1 = .error e) : e.Foreseen P := by
  -- Of the input only the invariant `Q` is known, so the induction is on the rows that are read.
  induction limit generalizing t s i w with
  | zero => simp [drain] at h
  | succ limit ih =>
    have hleft := hnext i w hi
    have hfails := herror i w e hi
    have hreturns := hrow i w
    rw [drain] at h
    generalize next i w = x at hleft hfails hreturns h
    obtain ⟨e' | _ | slot, i₁, w₁⟩ := x
    · obtain rfl := Except.error.inj h
      exact hfails rfl
    · simp at h
    · obtain ⟨row, hslot, hraised⟩ := hreturns slot hi rfl
      dsimp only at h
      split at h
      · next e' hinterrupt =>
        obtain rfl := Except.error.inj h
        exact Session.foreseen_checkInterrupt hinterrupt
      · rw [hslot] at h
        dsimp only at h
        split at h
        · next e' s' habsorb =>
          obtain rfl := Except.error.inj h
          exact foreseen_absorb hraised (congrArg Prod.fst habsorb)
        · exact ih hleft h

theorem foreseen_build (hnext : ∀ i w, Q i → Q (next i w).2.1)
    (herror : ∀ i w e, Q i → (next i w).1 = .error e → e.Foreseen P)
    (hrow : ∀ i w slot, Q i → (next i w).1 = .ok (some slot) →
      ∃ row, slot.row? = some row ∧ ∀ params x, n.hashRow params n.keys row = .error x → P x)
    {width limit : Nat} {s : State} {i : σ} {w : Session} (hi : Q i)
    (hrunning : s.base.state.isRunning = true)
    (h : (n.build ctx width next limit s i w).1 = .error e) : e.Foreseen P := by
  rw [build, NodeState.ensureRunning_eq_ok_iff.mpr hrunning] at h
  dsimp only at h
  split at h
  · obtain rfl := Except.error.inj h
    exact .aborted
  · split at h
    · contradiction
    · split at h
      · next e' s' i' w' hdrain =>
        obtain rfl := Except.error.inj h
        exact foreseen_drain hnext herror hrow hi (congrArg Prod.fst hdrain)
      · contradiction

end Input

end HashBuild

theorem HashTable.foreseen_loadBatch {t : HashTable} {batch : Nat} {P : EvalError → Prop}
    {e : Error} (h : (t.loadBatch batch).1 = .error e) : e.Foreseen P := by
  unfold loadBatch at h
  split at h
  · obtain rfl := Except.error.inj h
    exact .noBatch
  · split at h
    · contradiction
    · split at h
      · next fault _ _ =>
        obtain rfl := Except.error.inj h
        exact .storage fault
      · contradiction

namespace HashBuild

variable {P : EvalError → Prop} {s : State} {e : Error}

theorem foreseen_rewind (h : (rewind s).1 = .error e) : e.Foreseen P := by
  unfold rewind at h
  split at h
  · contradiction
  · exact HashTable.foreseen_loadBatch h

theorem foreseen_loadBatch {batch : Nat} (hrunning : s.base.state.isRunning = true)
    (h : (loadBatch s batch).1 = .error e) : e.Foreseen P := by
  rw [loadBatch, NodeState.ensureRunning_eq_ok_iff.mpr hrunning] at h
  dsimp only at h
  split at h
  · obtain rfl := Except.error.inj h
    exact .notBuilt
  · split at h
    · next e' _ hload =>
      obtain rfl := Except.error.inj h
      exact HashTable.foreseen_loadBatch (congrArg Prod.fst hload)
    · contradiction

theorem foreseen_lookup {hash : UInt32} (hrunning : s.base.state.isRunning = true)
    (h : lookup s hash = .error e) : e.Foreseen P := by
  rw [lookup, NodeState.ensureRunning_eq_ok_iff.mpr hrunning] at h
  dsimp only at h
  split at h
  · obtain rfl := Except.error.inj h
    exact .notBuilt
  · contradiction

end HashBuild

/-! ## Trees -/

theorem Flags.foreseen_check {f : Flags} {kind : NodeKind} {c : Capabilities} {P : EvalError → Prop}
    {e : Error} (h : f.check kind c = .error e) : e.Foreseen P := by
  unfold check at h
  split at h
  · obtain rfl := Except.error.inj h
    exact .unsupported kind "backward scan"
  · split at h
    · obtain rfl := Except.error.inj h
      exact .unsupported kind "mark/restore"
    · contradiction

/-- A tree of bitmap nodes is refused for its flags alone. -/
theorem BitmapNode.foreseen_init {flags : Flags} {op : BitmapOp} {P : EvalError → Prop} {e : Error}
    (h : (init ctx flags op (fresh op)).1 = .error e) : e.Foreseen P := by
  rcases hcheck : flags.check op.kind {} with e' | ⟨⟩
  · have hrefused : (init ctx flags op (fresh op)).1 = .error e' := by
      cases op with
      | indexScan scan =>
        rw [fresh, init_indexScan]
        simp only [hcheck]
        rfl
      | combine how inputs =>
        rw [fresh, init_combine]
        simp only [hcheck]
        rfl
    obtain rfl := Except.error.inj (h.symm.trans hrefused)
    exact Flags.foreseen_check hcheck
  · rw [init_of_blank (Flags.check_eq_ok_of hcheck) (blank_fresh op)] at h
    contradiction

namespace Node

variable {params : List Value} {P : EvalError → Prop} {e : Error}

/-- A new tree is refused for its flags, or because its storage opens no scan. -/
theorem foreseen_init {op : Operator} {flags : Flags}
    (h : ((fresh op).init ctx op flags).1 = .error e) : e.Foreseen P := by
  induction op generalizing flags with
  | seqScan scan =>
    rw [fresh, init_seqScan, admitInit_blank] at h
    split at h
    · next e' hcheck =>
      obtain rfl := Except.error.inj h
      exact Flags.foreseen_check hcheck
    · rcases hstart : RelationScan.start scan.relation scan.direction with fault | rs
      · simp only [SeqScan.openScan, hstart] at h
        obtain rfl := Except.error.inj h
        exact .storage fault
      · simp [SeqScan.openScan, hstart] at h
  | bitmap op => exact BitmapNode.foreseen_init h
  | subquery scan op ih =>
    rw [fresh, init_subquery, admitInit_blank] at h
    split at h
    · next e' hcheck =>
      obtain rfl := Except.error.inj h
      exact Flags.foreseen_check hcheck
    · dsimp only at h
      split at h
      · next e' input hinput =>
        obtain rfl := Except.error.inj h
        exact ih (congrArg Prod.fst hinput)
      · contradiction
  | hash build op ih =>
    rw [fresh, init_hash, admitInit_blank] at h
    split at h
    · next e' hcheck =>
      obtain rfl := Except.error.inj h
      exact Flags.foreseen_check hcheck
    · dsimp only at h
      split at h
      · next e' input hinput =>
        obtain rfl := Except.error.inj h
        exact ih (congrArg Prod.fst hinput)
      · contradiction

/-- A row that a node returns is there, and is one that its operator returns. -/
theorem exists_yields {op : Operator} {n : Node op} {w : Session} {slot : Slot}
    (h : (n.next ctx op w).1 = .ok (some slot)) : ∃ row, slot.row? = some row ∧ op.Yields row := by
  obtain ⟨row, hrow⟩ := (returned_next ctx n w).row slot h
  exact ⟨row, hrow, ctx, n, w, slot, h, hrow⟩

theorem admitFetch_of_runs {b : NodeBase} (h : b.Runs params) (op : Operator) :
    admitFetch op b = .ok (!b.state.isExhausted) := by
  rw [admitFetch, h.ensureRunning]
  rfl

namespace Runs

variable {op : Operator} {n : Node op} {w : Session}

/-- The scan of a running node is open, so that it is not is never reported. -/
theorem isOpen {scan : SeqScan} {s : SeqScan.State} (h : Runs params (.seqScan scan) (.seqScan s)) :
    s.base.Runs params ∧ s.scan?.isSome = true := by
  obtain ⟨hbase, rs, -, hscan, -⟩ := h
  exact ⟨hbase, Option.isSome_of_eq_some hscan⟩

/-- Building a table fails as asking the input for rows fails, or for one of its rows. -/
theorem foreseen_build {build : HashBuild} {s : HashBuild.State} {width limit : Nat}
    (hbase : s.base.Runs params) (hinput : Runs params op n)
    (hnext : ∀ i w e, Runs params op i → (Node.next ctx op i w).1 = .error e →
      e.Foreseen (Operator.Raises · op))
    (h : (build.build ctx width (Node.next ctx op) limit s n w).1 = .error e) :
    e.Foreseen (Operator.Raises · (.hash build op)) := by
  refine HashBuild.foreseen_build (fun i w hi => hi.next) ?_ ?_ hinput hbase.running h
  · intro i w e hi he
    exact (hnext i w e hi he).mono fun x hx => hx.hash build
  · intro i w slot hi hslot
    obtain ⟨row, hrow, hyields⟩ := exists_yields hslot
    exact ⟨row, hrow, fun params x hx => ⟨_, .refl, row, hyields, params, hx⟩⟩

/-- A running tree that is asked for a row fails for its storage, an evaluation, or an
interrupt. -/
theorem foreseen_next (h : Runs params op n) (he : (n.next ctx op w).1 = .error e) :
    e.Foreseen (Operator.Raises · op) := by
  induction op generalizing w e with
  | seqScan scan =>
    cases n with | seqScan s
    obtain ⟨hbase, hopen⟩ := isOpen h
    rw [Node.next, admitFetch_of_runs hbase] at he
    split at he
    · contradiction
    · contradiction
    · split at he
      · next e' s' w' hfetch =>
        obtain rfl := Except.error.inj he
        exact SeqScan.foreseen_fetch hopen (congrArg Prod.fst hfetch)
      · contradiction
      · contradiction
  | bitmap op =>
    cases n with | bitmap s
    have hrunning : BitmapNode.Throughout (·.base.state.isRunning) op s :=
      BitmapNode.Throughout.mono (fun c hc => hc.running) h
    rw [Node.next, admitFetch_of_runs (BitmapNode.Throughout.cell h)] at he
    split at he
    · contradiction
    · contradiction
    · split at he
      · next e' s' hbuild =>
        obtain rfl := Except.error.inj he
        exact (BitmapNode.foreseen_build hrunning (congrArg Prod.fst hbuild)).mono
          fun x hx => ⟨_, .refl, hx⟩
      · contradiction
  | subquery scan op ih =>
    cases n with | subquery s input
    obtain ⟨hbase, hinput⟩ := h
    rw [Node.next, admitFetch_of_runs hbase] at he
    split at he
    · contradiction
    · contradiction
    · split at he
      · next e' input' w' hnext =>
        obtain rfl := Except.error.inj he
        exact (ih hinput (congrArg Prod.fst hnext)).mono fun x hx => hx.subquery scan
      · contradiction
      · next slot input' w' hnext =>
        -- The input has returned a row, so there is one to project.
        obtain ⟨row, hrow, hyields⟩ := exists_yields (congrArg Prod.fst hnext)
        split at he
        · next e' s' hproject =>
          obtain rfl := Except.error.inj he
          refine SubqueryScan.foreseen_project hrow ?_ (congrArg Prod.fst hproject)
          intro es hes params x hx
          exact ⟨_, .refl, row, hyields, es, hes, params, hx⟩
        · contradiction
  | hash build op ih =>
    cases n with | hash s input
    obtain ⟨hbase, hinput⟩ := h
    rw [Node.next, admitFetch_of_runs hbase] at he
    split at he
    · contradiction
    · contradiction
    · split at he
      · next e' s' input' w' hbuild =>
        obtain rfl := Except.error.inj he
        exact foreseen_build hbase hinput (fun i w e hi => ih hi) (congrArg Prod.fst hbuild)
      · contradiction

/-- A running tree fails to start again for its storage. -/
theorem foreseen_rescan {params? : Option (List Value)} (h : Runs params op n)
    (he : (n.rescan params? op).1 = .error e) : e.Foreseen P := by
  induction op with
  | seqScan scan =>
    cases n with | seqScan s
    obtain ⟨hbase, hopen⟩ := isOpen h
    rw [Node.rescan_seqScan, hbase.ensureRunning] at he
    dsimp only at he
    split at he
    · next e' s' hrescan =>
      obtain rfl := Except.error.inj he
      refine SeqScan.foreseen_rescan ?_ (congrArg Prod.fst hrescan)
      exact hopen
    · contradiction
  | bitmap op =>
    cases n with | bitmap s
    obtain ⟨s', hrescan, -⟩ := BitmapNode.Runs.rescan params? h
    rw [Node.rescan, hrescan] at he
    contradiction
  | subquery scan op ih =>
    cases n with | subquery s input
    obtain ⟨hbase, hinput⟩ := h
    rw [Node.rescan_subquery, hbase.ensureRunning] at he
    dsimp only at he
    split at he
    · next e' input' hrescan =>
      obtain rfl := Except.error.inj he
      exact ih hinput (congrArg Prod.fst hrescan)
    · contradiction
  | hash build op ih =>
    cases n with | hash s input
    obtain ⟨hbase, hinput⟩ := h
    rw [Node.rescan_hash, hbase.ensureRunning] at he
    dsimp only at he
    -- Either the table is built again from the input, or it goes back to its first batch.
    split at he
    · split at he
      · next e' input' hrescan =>
        obtain rfl := Except.error.inj he
        exact ih hinput (congrArg Prod.fst hrescan)
      · contradiction
    · split at he
      · next e' s' hrewind =>
        obtain rfl := Except.error.inj he
        exact HashBuild.foreseen_rewind (congrArg Prod.fst hrewind)
      · contradiction

theorem foreseen_buildBitmap (h : Runs params op n) (he : (n.buildBitmap ctx op).1 = .error e) :
    e.Foreseen (Operator.Raises · op) := by
  unfold Node.buildBitmap at he
  dsimp only at he
  rw [h.base.ensureRunning] at he
  cases n with
  | bitmap s =>
    have hrunning : BitmapNode.Throughout (·.base.state.isRunning) _ s :=
      BitmapNode.Throughout.mono (fun c hc => hc.running) h
    exact (BitmapNode.foreseen_build hrunning he).mono fun x hx => ⟨_, .refl, hx⟩
  | seqScan s =>
    obtain rfl := Except.error.inj he
    exact .unsupported _ "bitmap output"
  | subquery s input =>
    obtain rfl := Except.error.inj he
    exact .unsupported _ "bitmap output"
  | hash s input =>
    obtain rfl := Except.error.inj he
    exact .unsupported _ "bitmap output"

theorem foreseen_admitPosition {b : NodeBase} {operation : String} (h : b.Runs params)
    (he : admitPosition op b operation = .error e) : e.Foreseen P := by
  rw [admitPosition, h.ensureRunning] at he
  split at he
  · contradiction
  · obtain rfl := Except.error.inj he
    exact .unsupported op.kind "mark/restore"

theorem foreseen_markPos (h : Runs params op n) (he : (n.markPos op).1 = .error e) :
    e.Foreseen P := by
  induction op with
  | seqScan scan =>
    cases n with | seqScan s
    obtain ⟨hbase, hopen⟩ := isOpen h
    rw [Node.markPos] at he
    split at he
    · next e' hadmit =>
      obtain rfl := Except.error.inj he
      exact foreseen_admitPosition hbase hadmit
    · exact SeqScan.foreseen_mark hopen he
  | bitmap op =>
    cases n with | bitmap s
    obtain rfl := Except.error.inj he
    exact .unsupported _ "mark/restore"
  | subquery scan op ih =>
    cases n with | subquery s input
    obtain ⟨hbase, hinput⟩ := h
    rw [Node.markPos] at he
    split at he
    · next e' hadmit =>
      obtain rfl := Except.error.inj he
      exact foreseen_admitPosition hbase hadmit
    · exact ih hinput he
  | hash build op =>
    cases n with | hash s input
    obtain rfl := Except.error.inj he
    exact .unsupported _ "mark/restore"

theorem foreseen_restorePos (h : Runs params op n) (he : (n.restorePos op).1 = .error e) :
    e.Foreseen P := by
  induction op with
  | seqScan scan =>
    cases n with | seqScan s
    obtain ⟨hbase, hopen⟩ := isOpen h
    rw [Node.restorePos_seqScan] at he
    split at he
    · next e' hadmit =>
      obtain rfl := Except.error.inj he
      exact foreseen_admitPosition hbase hadmit
    · split at he
      · next e' s' hrestore =>
        obtain rfl := Except.error.inj he
        exact SeqScan.foreseen_restore hopen (congrArg Prod.fst hrestore)
      · contradiction
  | bitmap op =>
    cases n with | bitmap s
    obtain rfl := Except.error.inj he
    exact .unsupported _ "mark/restore"
  | subquery scan op ih =>
    cases n with | subquery s input
    obtain ⟨hbase, hinput⟩ := h
    rw [Node.restorePos_subquery] at he
    split at he
    · next e' hadmit =>
      obtain rfl := Except.error.inj he
      exact foreseen_admitPosition hbase hadmit
    · split at he
      · next e' input' hrestore =>
        obtain rfl := Except.error.inj he
        exact ih hinput (congrArg Prod.fst hrestore)
      · contradiction
  | hash build op =>
    cases n with | hash s input
    obtain rfl := Except.error.inj he
    exact .unsupported _ "mark/restore"

end Runs

end Node

end PullQuery
