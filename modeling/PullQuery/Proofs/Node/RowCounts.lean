import PullQuery.Proofs.Node.Coherence

/-!
# What leaves the rows of a tree uncounted

Rows are counted when they are asked for. Setting a tree up, starting it again, remembering
positions and releasing it move no rows and leave what every node has counted of them.

## Main definitions

* `Counters.SameRows`: two nodes have counted the same rows
* `Node.KeepsRows`: the nodes of two trees have
* `NodeRequest.asksForRows`: the requests that move rows

## Main results

* `Node.keepsRows_init`, `Node.keepsRows_finish`, `Node.keepsRows_rescan`
* `Node.keepsRows_markPos`, `Node.keepsRows_restorePos`, `Node.keepsRows_buildBitmap`
* `Node.keepsRows_serve`
-/

namespace PullQuery

/-- Whether counters agree in the rows that were returned, read, and passed over. -/
structure Counters.SameRows (c c' : Counters) : Prop where
  rowsOut : c'.rowsOut = c.rowsOut
  tuplesFetched : c'.tuplesFetched = c.tuplesFetched
  rowsInvisible : c'.rowsInvisible = c.rowsInvisible
  rowsFiltered : c'.rowsFiltered = c.rowsFiltered

/-- Whether a base has counted the same rows as another one. -/
def NodeBase.SameRows (b b' : NodeBase) : Prop := b.counters.SameRows b'.counters

namespace NodeBase

theorem SameRows.of_eq {b b' : NodeBase} (h : b'.counters = b.counters) : b.SameRows b' := by
  constructor <;> rw [h]

theorem SameRows.refl (b : NodeBase) : b.SameRows b := .of_eq rfl

theorem SameRows.countLoop {b b' : NodeBase} (h : b.SameRows b') : b.SameRows b'.countLoop :=
  ⟨h.rowsOut, h.tuplesFetched, h.rowsInvisible, h.rowsFiltered⟩

end NodeBase

/-! ## Bitmap nodes -/

namespace BitmapNode

variable {ctx : Context}

theorem sameRows_init (ctx : Context) (flags : Flags) (op : BitmapOp) (s : BitmapNode op) :
    s.cell.base.SameRows (init ctx flags op s).2.cell.base := by
  cases s with
  | indexScan c =>
    rw [init_indexScan]
    split
    · exact .refl _
    · split
      · exact .refl _
      · exact .countLoop (.of_eq rfl)
  | combine c ss =>
    rw [init_combine]
    split
    · exact .refl _
    · split
      · exact .refl _
      · split
        · exact .of_eq rfl
        · exact .countLoop (.of_eq rfl)

theorem sameRows_finish (op : BitmapOp) (s : BitmapNode op) :
    s.cell.base.SameRows (finish op s).cell.base := by
  cases s with
  | indexScan c =>
    rw [finish_indexScan]
    split
    · exact .refl _
    · exact .of_eq rfl
  | combine c ss =>
    rw [finish_combine]
    split
    · exact .refl _
    · exact .of_eq rfl

theorem sameRows_rescan (params? : Option (List Value)) (op : BitmapOp) (s : BitmapNode op) :
    s.cell.base.SameRows (rescan params? op s).2.cell.base := by
  cases s with
  | indexScan c =>
    rw [rescan_indexScan]
    split
    · exact .refl _
    · exact .countLoop (.of_eq rfl)
  | combine c ss =>
    rw [rescan_combine]
    split
    · exact .refl _
    · dsimp only
      split
      · exact .of_eq rfl
      · exact .countLoop (.of_eq rfl)

/-- Making a bitmap counts calls of indexes and blocks, but no rows. -/
theorem sameRows_build (ctx : Context) (op : BitmapOp) (s : BitmapNode op) :
    s.cell.base.SameRows (build ctx op s).2.cell.base := by
  cases s with
  | @indexScan scan c =>
    rw [build]
    exact indexScan_build_keeps (P := fun c' => c.base.SameRows c'.base)
      (fun _ _ h => ⟨h.rowsOut, h.tuplesFetched, h.rowsInvisible, h.rowsFiltered⟩)
      (fun _ _ h => ⟨h.rowsOut, h.tuplesFetched, h.rowsInvisible, h.rowsFiltered⟩) scan (.refl _)
  | combine c ss =>
    rw [build]
    split
    · exact .refl _
    · split
      · exact .refl _
      · exact ⟨rfl, rfl, rfl, rfl⟩

theorem sameRows_exhausted {op : BitmapOp} (s : BitmapNode op) :
    s.cell.base.SameRows s.exhausted.cell.base := by
  cases s with
  | indexScan c => exact .of_eq rfl
  | combine c ss => exact .of_eq rfl

end BitmapNode

/-! ## Trees -/

namespace Node

/-- Whether each node of a tree has counted the same rows as in another state. Below the root of
a tree of bitmap nodes no rows are counted. -/
def KeepsRows : (op : Operator) → Node op → Node op → Prop
  | .seqScan _, seqScan s, seqScan s' => s.base.SameRows s'.base
  | .bitmap _, bitmap s, bitmap s' => s.cell.base.SameRows s'.cell.base
  | .subquery _ op, subquery s input, subquery s' input' =>
    s.base.SameRows s'.base ∧ KeepsRows op input input'
  | .hash _ op, hash s input, hash s' input' =>
    s.base.SameRows s'.base ∧ KeepsRows op input input'

theorem KeepsRows.refl : {op : Operator} → (n : Node op) → KeepsRows op n n
  | .seqScan _, seqScan s => NodeBase.SameRows.refl s.base
  | .bitmap _, bitmap s => NodeBase.SameRows.refl s.cell.base
  | .subquery _ _, subquery s input => ⟨.refl s.base, .refl input⟩
  | .hash _ _, hash s input => ⟨.refl s.base, .refl input⟩

theorem KeepsRows.base {op : Operator} {n n' : Node op} (h : KeepsRows op n n') :
    n.base.SameRows n'.base := by
  cases n with
  | seqScan s => cases n' with | seqScan s' => exact h
  | bitmap s => cases n' with | bitmap s' => exact h
  | subquery s input => cases n' with | subquery s' input' => exact h.1
  | hash s input => cases n' with | hash s' input' => exact h.1

variable {ctx : Context} {op : Operator}

theorem keepsRows_init (n : Node op) (flags : Flags) : KeepsRows op n (n.init ctx op flags).2 := by
  induction op generalizing flags with
  | seqScan scan =>
    cases n with | seqScan s
    rw [init_seqScan]
    split
    · exact .refl _
    · have hopened : s.base.SameRows
          (scan.openScan { s with base := s.base.takeParams ctx.params }).2.base := by
        unfold SeqScan.openScan
        split
        · exact .of_eq rfl
        · exact .of_eq rfl
      generalize scan.openScan { s with base := s.base.takeParams ctx.params } = x at hopened ⊢
      obtain ⟨r, s'⟩ := x
      rcases r with e | _
      · exact hopened
      · exact hopened.countLoop
  | bitmap op =>
    cases n with | bitmap s
    exact BitmapNode.sameRows_init ctx flags op s
  | subquery scan op ih =>
    cases n with | subquery s input
    have hinput := ih input flags
    rw [init_subquery]
    split
    · exact .refl _
    · generalize init ctx op input flags = x at hinput ⊢
      obtain ⟨r, input'⟩ := x
      rcases r with e | _
      · exact ⟨.of_eq rfl, hinput⟩
      · exact ⟨.countLoop (.of_eq rfl), hinput⟩
  | hash build op ih =>
    cases n with | hash s input
    have hinput := ih input flags.ofInput
    rw [init_hash]
    split
    · exact .refl _
    · generalize init ctx op input flags.ofInput = x at hinput ⊢
      obtain ⟨r, input'⟩ := x
      rcases r with e | _
      · exact ⟨.of_eq rfl, hinput⟩
      · exact ⟨.countLoop (.of_eq rfl), hinput⟩

theorem keepsRows_finish (n : Node op) : KeepsRows op n (n.finish op) := by
  induction op with
  | seqScan scan =>
    cases n with | seqScan s
    rw [finish_seqScan]
    split
    · exact .refl _
    · exact NodeBase.SameRows.of_eq rfl
  | bitmap op =>
    cases n with | bitmap s
    exact BitmapNode.sameRows_finish op s
  | subquery scan op ih =>
    cases n with | subquery s input
    rw [finish_subquery]
    split
    · exact .refl _
    · exact ⟨.of_eq rfl, ih input⟩
  | hash build op ih =>
    cases n with | hash s input
    rw [finish_hash]
    split
    · exact .refl _
    · exact ⟨.of_eq rfl, ih input⟩

/-- Starting again counts a loop, but no rows. -/
theorem keepsRows_rescan (n : Node op) (params? : Option (List Value)) :
    KeepsRows op n (n.rescan params? op).2 := by
  induction op with
  | seqScan scan =>
    cases n with | seqScan s
    rw [rescan_seqScan]
    split
    · exact .refl _
    -- The state and the parameters change, the counters of rows do not.
    · have hrestarted : s.base.SameRows
          (scan.rescan { s with base := s.base.restarted params? }).2.base := by
        rw [scan.base_rescan]
        exact .of_eq rfl
      generalize scan.rescan { s with base := s.base.restarted params? } = x at hrestarted ⊢
      obtain ⟨r, s'⟩ := x
      rcases r with e | _
      · exact hrestarted
      · exact hrestarted.countLoop
  | bitmap op =>
    cases n with | bitmap s
    exact BitmapNode.sameRows_rescan params? op s
  | subquery scan op ih =>
    cases n with | subquery s input
    have hinput := ih input
    rw [rescan_subquery]
    split
    · exact .refl _
    · generalize rescan params? op input = x at hinput ⊢
      obtain ⟨r, input'⟩ := x
      rcases r with e | _
      · exact ⟨.of_eq rfl, hinput⟩
      · exact ⟨.countLoop (.of_eq rfl), hinput⟩
  | hash build op ih =>
    cases n with | hash s input
    have hinput := ih input
    rw [rescan_hash]
    split
    · exact .refl _
    · dsimp only
      split
      · generalize rescan params? op input = x at hinput ⊢
        obtain ⟨r, input'⟩ := x
        rcases r with e | _
        · exact ⟨.of_eq rfl, hinput⟩
        · exact ⟨.countLoop (.of_eq rfl), hinput⟩
      · -- The table is rewound, and the input is left alone.
        have hrewound : s.base.SameRows
            (HashBuild.rewind { s with base := s.base.restarted params? }).2.base := by
          rw [HashBuild.base_rewind]
          exact .of_eq rfl
        generalize HashBuild.rewind { s with base := s.base.restarted params? } = x at hrewound ⊢
        obtain ⟨r, s'⟩ := x
        rcases r with e | _
        · exact ⟨hrewound, .refl input⟩
        · exact ⟨hrewound.countLoop, .refl input⟩

theorem keepsRows_markPos (n : Node op) : KeepsRows op n (n.markPos op).2 := by
  induction op with
  | seqScan scan =>
    cases n with | seqScan s
    rw [markPos]
    split
    · exact .refl _
    · exact NodeBase.SameRows.of_eq (congrArg NodeBase.counters (scan.base_mark s))
  | bitmap op =>
    cases n with | bitmap s
    exact .refl _
  | subquery scan op ih =>
    cases n with | subquery s input
    rw [markPos]
    split
    · exact .refl _
    · exact ⟨.refl s.base, ih input⟩
  | hash build op =>
    cases n with | hash s input
    exact .refl (hash s input)

theorem keepsRows_restorePos (n : Node op) : KeepsRows op n (n.restorePos op).2 := by
  induction op with
  | seqScan scan =>
    cases n with | seqScan s
    rw [restorePos_seqScan]
    split
    · exact .refl _
    · have hrestored : s.base.SameRows (scan.restore s).2.base :=
        .of_eq (congrArg NodeBase.counters (scan.base_restore s))
      generalize scan.restore s = x at hrestored ⊢
      obtain ⟨r, s'⟩ := x
      rcases r with e | _
      · exact hrestored
      · exact ⟨hrestored.rowsOut, hrestored.tuplesFetched, hrestored.rowsInvisible,
          hrestored.rowsFiltered⟩
  | bitmap op =>
    cases n with | bitmap s
    exact .refl _
  | subquery scan op ih =>
    cases n with | subquery s input
    have hinput := ih input
    rw [restorePos_subquery]
    split
    · exact .refl _
    · generalize restorePos op input = x at hinput ⊢
      obtain ⟨r, input'⟩ := x
      rcases r with e | _
      · exact ⟨.of_eq rfl, hinput⟩
      · exact ⟨.of_eq rfl, hinput⟩
  | hash build op =>
    cases n with | hash s input
    exact .refl (hash s input)

theorem keepsRows_buildBitmap (n : Node op) : KeepsRows op n (n.buildBitmap ctx op).2 := by
  cases op with
  | bitmap op =>
    cases n with | bitmap s
    rw [buildBitmap]
    split
    · exact .refl _
    · exact BitmapNode.sameRows_build ctx op s
  | seqScan scan =>
    rw [buildBitmap_left (by simp)]
    exact .refl n
  | subquery scan op =>
    rw [buildBitmap_left (by simp)]
    exact .refl n
  | hash build op =>
    rw [buildBitmap_left (by simp)]
    exact .refl n

/-- Loading a batch counts bytes and memory, but no rows. -/
theorem keepsRows_loadBatch {build : HashBuild} (s : HashBuild.State) (input : Node op)
    (batch : Nat) :
    KeepsRows (.hash build op) (hash s input) (hash (HashBuild.loadBatch s batch).2 input) := by
  refine ⟨?_, .refl input⟩
  unfold HashBuild.loadBatch
  split
  · exact .refl _
  · split
    · exact .refl _
    · split
      · exact .of_eq rfl
      · exact ⟨rfl, rfl, rfl, rfl⟩

end Node

/-- Whether a request asks for rows, be it for a table that is built from them. -/
def NodeRequest.asksForRows : NodeRequest → Bool
  | .next => true
  | .hash .build => true
  | _ => false

/-- A request that asks for no rows leaves all of them uncounted. -/
theorem Node.keepsRows_serve {ctx : Context} {op : Operator} (n : Node op) (w : Session)
    {r : NodeRequest} (hr : r.asksForRows = false) :
    KeepsRows op n (r.serve ctx op n w).2.1 := by
  cases r with
  | init flags => exact keepsRows_init n flags
  | next => contradiction
  | bitmap => exact keepsRows_buildBitmap n
  | rescan params? => exact keepsRows_rescan n params?
  | mark => exact keepsRows_markPos n
  | restore => exact keepsRows_restorePos n
  | finish => exact keepsRows_finish n
  | interrupt set => exact .refl n
  | hash request =>
    cases n with
    | seqScan s => exact .refl _
    | bitmap s => exact .refl _
    | subquery s input => exact .refl _
    | hash s input =>
      cases request with
      | build => contradiction
      | load batch => exact keepsRows_loadBatch s input batch
      | lookup hash => exact .refl _

end PullQuery
