import PullQuery.Proofs.Node.Requests

/-!
# Trees that do not run

A tree that has not been initialized, or has been released, refuses what is asked of it and stays
as it is. It changes only when it is initialized, which is done once, or released, which is done
for good.

## Main definitions

* `Node.Refused`: the errors of a node that does not do what it is asked

## Main results

* `Node.next_of_idle`, `Node.rescan_of_idle`, `Node.init_of_ne`: with what it refuses
* `Node.serve_of_idle`: what does not run changes only when it is initialized or released
* `Node.serve_of_ended`: what has been released does not change
-/

namespace PullQuery

variable {ctx : Context}

theorem NodeState.ensureRunning_of_idle {s : NodeState} (h : s.isRunning = false) (kind : NodeKind)
    (operation : String) : s.ensureRunning kind operation = .error (s.refuse kind operation) := by
  rw [ensureRunning, h, if_neg Bool.false_ne_true]

theorem NodeState.ensureUnstarted_of_ne {s : NodeState} (h : s ≠ .unstarted) (kind : NodeKind) :
    s.ensureUnstarted kind = .error (s.refuse kind "init") := if_neg h

namespace Node

variable {op : Operator} {n : Node op}

/-- Whether an error is that of a node which does not do what it is asked. -/
def Refused (op : Operator) (s : NodeState) (e : Error) : Prop :=
  (∃ capability, e = .capabilityNotSupported op.kind.name capability) ∨
    ∃ operation, e = s.refuse op.kind operation

theorem admitFetch_of_idle {b : NodeBase} (h : b.state.isRunning = false) (op : Operator) :
    admitFetch op b = .error (b.state.refuse op.kind "fetch from") := by
  rw [admitFetch, NodeState.ensureRunning_of_idle h]
  rfl

theorem admitPosition_of_idle {b : NodeBase} (h : b.state.isRunning = false) (op : Operator)
    (operation : String) :
    ∃ e, admitPosition op b operation = .error e ∧ Refused op b.state e := by
  unfold admitPosition
  split
  · exact ⟨_, NodeState.ensureRunning_of_idle h op.kind operation, .inr ⟨operation, rfl⟩⟩
  · exact ⟨_, rfl, .inl ⟨"mark/restore", rfl⟩⟩

theorem next_of_idle (h : n.base.state.isRunning = false) (w : Session) :
    n.next ctx op w = (.error (n.base.state.refuse op.kind "fetch from"), n, w) := by
  cases n with
  | seqScan s =>
    rw [next, admitFetch_of_idle (b := s.base) h]
    rfl
  | bitmap s =>
    rw [next, admitFetch_of_idle (b := s.cell.base) h]
    rfl
  | subquery s input =>
    rw [next, admitFetch_of_idle (b := s.base) h]
    rfl
  | hash s input =>
    rw [next, admitFetch_of_idle (b := s.base) h]
    rfl

theorem buildBitmap_of_idle (h : n.base.state.isRunning = false) :
    n.buildBitmap ctx op = (.error (n.base.state.refuse op.kind "build a bitmap from"), n) := by
  unfold buildBitmap
  dsimp only
  rw [NodeState.ensureRunning_of_idle h]

theorem rescan_of_idle (h : n.base.state.isRunning = false) (params? : Option (List Value)) :
    n.rescan params? op = (.error (n.base.state.refuse op.kind "rescan"), n) := by
  cases n with
  | seqScan s =>
    rw [rescan_seqScan, NodeState.ensureRunning_of_idle (s := s.base.state) h]
    rfl
  | bitmap s =>
    cases s with
    | indexScan c =>
      rw [rescan, BitmapNode.rescan_indexScan,
        NodeState.ensureRunning_of_idle (s := c.base.state) h]
      rfl
    | combine c ss =>
      rw [rescan, BitmapNode.rescan_combine, NodeState.ensureRunning_of_idle (s := c.base.state) h]
      rfl
  | subquery s input =>
    rw [rescan_subquery, NodeState.ensureRunning_of_idle (s := s.base.state) h]
    rfl
  | hash s input =>
    rw [rescan_hash, NodeState.ensureRunning_of_idle (s := s.base.state) h]
    rfl

theorem markPos_of_idle (h : n.base.state.isRunning = false) :
    ∃ e, n.markPos op = (.error e, n) ∧ Refused op n.base.state e := by
  cases n with
  | @seqScan scan s =>
    obtain ⟨e, hadmit, hrefused⟩ :=
      admitPosition_of_idle (b := s.base) h (.seqScan scan) "mark a position on"
    exact ⟨e, by rw [markPos, hadmit], hrefused⟩
  | bitmap s => exact ⟨_, rfl, .inl ⟨"mark/restore", rfl⟩⟩
  | @subquery scan op s input =>
    obtain ⟨e, hadmit, hrefused⟩ :=
      admitPosition_of_idle (b := s.base) h (.subquery scan op) "mark a position on"
    exact ⟨e, by rw [markPos, hadmit], hrefused⟩
  | hash s input => exact ⟨_, rfl, .inl ⟨"mark/restore", rfl⟩⟩

theorem restorePos_of_idle (h : n.base.state.isRunning = false) :
    ∃ e, n.restorePos op = (.error e, n) ∧ Refused op n.base.state e := by
  cases n with
  | @seqScan scan s =>
    obtain ⟨e, hadmit, hrefused⟩ :=
      admitPosition_of_idle (b := s.base) h (.seqScan scan) "restore a position on"
    exact ⟨e, by rw [restorePos_seqScan, hadmit], hrefused⟩
  | bitmap s => exact ⟨_, rfl, .inl ⟨"mark/restore", rfl⟩⟩
  | @subquery scan op s input =>
    obtain ⟨e, hadmit, hrefused⟩ :=
      admitPosition_of_idle (b := s.base) h (.subquery scan op) "restore a position on"
    exact ⟨e, by rw [restorePos_subquery, hadmit], hrefused⟩
  | hash s input => exact ⟨_, rfl, .inl ⟨"mark/restore", rfl⟩⟩

theorem serve_hash_of_idle {build : HashBuild} {n : Node (.hash build op)}
    (h : n.base.state.isRunning = false) (r : HashRequest) (w : Session) :
    ∃ answer operation, r.serve ctx build op n w = (answer, n, w) ∧
      answer.error? = some (n.base.state.refuse .hash operation) := by
  cases n with | hash s input
  have hrefused := NodeState.ensureRunning_of_idle (s := s.base.state) h .hash
  cases r with
  | build =>
    refine ⟨.outcome (.error (s.base.state.refuse .hash "build")), "build", ?_, rfl⟩
    rw [HashRequest.serve, buildTable, HashBuild.build, hrefused]
  | load batch =>
    refine ⟨.outcome (.error (s.base.state.refuse .hash "load a batch into")),
      "load a batch into", ?_, rfl⟩
    rw [HashRequest.serve, HashBuild.loadBatch, hrefused]
  | lookup hash =>
    refine ⟨.found (.error (s.base.state.refuse .hash "probe")), "probe", ?_, rfl⟩
    rw [HashRequest.serve, HashBuild.lookup, hrefused]

/-- A tree is only initialized once. -/
theorem init_of_ne (h : n.base.state ≠ .unstarted) (flags : Flags) :
    n.init ctx op flags = (.error (n.base.state.refuse op.kind "init"), n) := by
  cases n with
  | seqScan s =>
    rw [init_seqScan, admitInit, NodeState.ensureUnstarted_of_ne (s := s.base.state) h]
    rfl
  | bitmap s =>
    cases s with
    | indexScan c =>
      rw [init, BitmapNode.init_indexScan, NodeState.ensureUnstarted_of_ne (s := c.base.state) h]
      rfl
    | combine c ss =>
      rw [init, BitmapNode.init_combine, NodeState.ensureUnstarted_of_ne (s := c.base.state) h]
      rfl
  | subquery s input =>
    rw [init_subquery, admitInit, NodeState.ensureUnstarted_of_ne (s := s.base.state) h]
    rfl
  | hash s input =>
    rw [init_hash, admitInit, NodeState.ensureUnstarted_of_ne (s := s.base.state) h]
    rfl

/-- A tree that was released is left alone. -/
theorem finish_of_ended (h : n.base.state = .ended) : n.finish op = n := by
  have hstate : n.base.state.isEnded = true := congrArg NodeState.isEnded h
  cases n with
  | seqScan s => rw [finish_seqScan, if_pos (c := s.base.state.isEnded = true) hstate]
  | bitmap s =>
    cases s with
    | indexScan c =>
      rw [finish, BitmapNode.finish_indexScan, if_pos (c := c.base.state.isEnded = true) hstate]
    | combine c ss =>
      rw [finish, BitmapNode.finish_combine, if_pos (c := c.base.state.isEnded = true) hstate]
  | subquery s input => rw [finish_subquery, if_pos (c := s.base.state.isEnded = true) hstate]
  | hash s input => rw [finish_hash, if_pos (c := s.base.state.isEnded = true) hstate]

/-- A tree that does not run changes only when it is initialized or released. -/
theorem serve_of_idle (h : n.base.state.isRunning = false) {r : NodeRequest}
    (hinit : ∀ flags, r ≠ .init flags) (hfinish : r ≠ .finish) (w : Session) :
    (r.serve ctx op n w).2.1 = n := by
  cases r with
  | init flags => exact absurd rfl (hinit flags)
  | next => exact congrArg (·.2.1) (next_of_idle h w)
  | bitmap => exact congrArg Prod.snd (buildBitmap_of_idle h)
  | rescan params? => exact congrArg Prod.snd (rescan_of_idle h params?)
  | mark =>
    obtain ⟨e, hmark, -⟩ := markPos_of_idle h
    exact congrArg Prod.snd hmark
  | restore =>
    obtain ⟨e, hrestore, -⟩ := restorePos_of_idle h
    exact congrArg Prod.snd hrestore
  | finish => exact absurd rfl hfinish
  | hash request =>
    cases op with
    | hash build op =>
      obtain ⟨answer, operation, hserve, -⟩ := serve_hash_of_idle h request w
      exact congrArg (·.2.1) hserve
    | seqScan scan => rfl
    | bitmap op => rfl
    | subquery scan op => rfl
  | interrupt set => rfl

/-- Nothing changes a tree that was released. -/
theorem serve_of_ended (h : n.base.state = .ended) (r : NodeRequest) (w : Session) :
    (r.serve ctx op n w).2.1 = n := by
  have hidle : n.base.state.isRunning = false := congrArg NodeState.isRunning h
  cases r with
  | init flags => exact congrArg Prod.snd (init_of_ne (by simp [h]) flags)
  | finish => exact finish_of_ended h
  | _ => exact serve_of_idle hidle (by simp) (by simp) w

end Node

end PullQuery
