import PullQuery.Node.Tree

/-!
# The steps of a node's life

An operation looks at the state of its node before it does its work, and setting up a node and
returning to a position look once more when the work is done. Nothing that they do in between
touches the state, so the second look never fails: an operation is determined by the first look
and by its work.

## Main results

* `Node.init_seqScan`, `Node.init_subquery`, `Node.init_hash`: a node that may be initialized
  is started when its input is set up
* `Node.rescan_seqScan`, `Node.rescan_subquery`, `Node.rescan_hash`
* `Node.restorePos_seqScan`, `Node.restorePos_subquery`
* `Node.finish_seqScan`, `Node.finish_subquery`, `Node.finish_hash`: a node that has ended is
  left alone
* the same for the nodes of a tree of bitmap nodes
-/

namespace PullQuery

/-! ## Work that leaves the base alone -/

namespace SeqScan

theorem base_openScan (n : SeqScan) (s : State) : (n.openScan s).2.base = s.base := by
  unfold openScan
  split
  · rfl
  · rfl

theorem base_rescan (n : SeqScan) (s : State) : (n.rescan s).2.base = s.base := by
  unfold rescan
  dsimp only
  split
  · rfl
  · split
    · rfl
    · rfl

theorem base_mark (n : SeqScan) (s : State) : (n.mark s).2.base = s.base := by
  unfold mark
  split
  · rfl
  · split
    · rfl
    · rfl

theorem base_restore (n : SeqScan) (s : State) : (n.restore s).2.base = s.base := by
  unfold restore
  split
  · rfl
  · dsimp only
    split
    · rfl
    · split
      · rfl
      · rfl

end SeqScan

/-! ## Bases -/

namespace NodeBase

variable {b : NodeBase} {kind : NodeKind} {operation : String}

theorem start_of_unstarted (h : b.state = .unstarted) : b.start kind = .ok b.started := by
  rw [start_eq, NodeState.ensureUnstarted_eq_ok_iff.mpr h]
  rfl

theorem restart_of_running (h : b.state.isRunning = true) (params? : Option (List Value)) :
    b.restart kind operation params? = .ok (b.restarted params?) := by
  rw [restart_eq, NodeState.ensureRunning_eq_ok_iff.mpr h]
  rfl

/-- Ending distinguishes a node that has ended already, whose base does not change, from one that
ends now. -/
theorem match_finish {α : Type} (b : NodeBase) (again first : NodeBase → α) :
    (match b.finish with
      | (false, base) => again base
      | (true, base) => first base) =
      if b.state.isEnded then again b else first b.ended := by
  rw [finish_eq]
  cases hstate : b.state.isEnded with
  | false => rfl
  | true => exact congrArg again (ended_of_isEnded hstate)

end NodeBase

/-! ## Bitmap nodes -/

namespace BitmapCell

/-- The cell of a node that starts again. -/
def restarted (c : BitmapCell) (params? : Option (List Value)) : BitmapCell :=
  { base := c.base.restarted params?, bitmap? := none }

/-- The cell of a node that is released. -/
def ended (c : BitmapCell) : BitmapCell := { base := c.base.ended, bitmap? := none }

end BitmapCell

namespace BitmapNode

variable {ctx : Context} {flags : Flags} {params? : Option (List Value)}

theorem init_indexScan {scan : IndexScan} {c : BitmapCell} :
    init ctx flags (.indexScan scan) (indexScan c) =
      match c.base.state.ensureUnstarted (BitmapOp.indexScan scan).kind with
      | .error e => (.error e, indexScan c)
      | .ok () =>
        match flags.check (BitmapOp.indexScan scan).kind {} with
        | .error e => (.error e, indexScan c)
        | .ok () =>
          (.ok (), indexScan { c with base := (c.base.takeParams ctx.params).started }) := by
  rw [init]
  cases hstate : c.base.state.ensureUnstarted (BitmapOp.indexScan scan).kind with
  | error e => rfl
  | ok u =>
    have hunstarted : (c.base.takeParams ctx.params).state = .unstarted :=
      NodeState.ensureUnstarted_eq_ok_iff.mp hstate
    cases flags.check (BitmapOp.indexScan scan).kind {} with
    | error e => rfl
    | ok u =>
      dsimp only
      rw [NodeBase.start_of_unstarted hunstarted]

theorem init_combine {how : Combination} {inputs : List BitmapOp} {c : BitmapCell}
    {states : Each BitmapNode inputs} :
    init ctx flags (.combine how inputs) (combine c states) =
      match c.base.state.ensureUnstarted (BitmapOp.combine how inputs).kind with
      | .error e => (.error e, combine c states)
      | .ok () =>
        match flags.check (BitmapOp.combine how inputs).kind {} with
        | .error e => (.error e, combine c states)
        | .ok () =>
          match initAll ctx flags.ofInput inputs states with
          | (.error e, states) =>
            (.error e, combine { c with base := c.base.takeParams ctx.params } states)
          | (.ok (), states) =>
            (.ok (), combine { c with base := (c.base.takeParams ctx.params).started } states) := by
  rw [init]
  cases hstate : c.base.state.ensureUnstarted (BitmapOp.combine how inputs).kind with
  | error e => rfl
  | ok u =>
    have hunstarted : (c.base.takeParams ctx.params).state = .unstarted :=
      NodeState.ensureUnstarted_eq_ok_iff.mp hstate
    cases flags.check (BitmapOp.combine how inputs).kind {} with
    | error e => rfl
    | ok u =>
      dsimp only
      rcases initAll ctx flags.ofInput inputs states with ⟨e | u, states'⟩
      · rfl
      · dsimp only
        rw [NodeBase.start_of_unstarted hunstarted]

theorem finish_indexScan {scan : IndexScan} {c : BitmapCell} :
    finish (.indexScan scan) (indexScan c) =
      if c.base.state.isEnded then indexScan c else indexScan c.ended := by
  rw [finish]
  exact c.base.match_finish (fun base => indexScan { c with base }) _

theorem finish_combine {how : Combination} {inputs : List BitmapOp} {c : BitmapCell}
    {states : Each BitmapNode inputs} :
    finish (.combine how inputs) (combine c states) =
      if c.base.state.isEnded then combine c states
      else combine c.ended (finishAll inputs states) := by
  rw [finish]
  exact c.base.match_finish (fun base => combine { c with base } states) _

theorem rescan_indexScan {scan : IndexScan} {c : BitmapCell} :
    rescan params? (.indexScan scan) (indexScan c) =
      match c.base.state.ensureRunning (BitmapOp.indexScan scan).kind "rescan" with
      | .error e => (.error e, indexScan c)
      | .ok () =>
        let c := c.restarted params?
        (.ok (), indexScan { c with base := c.base.countLoop }) := by
  rw [rescan, NodeBase.restart_eq]
  cases c.base.state.ensureRunning (BitmapOp.indexScan scan).kind "rescan" <;> rfl

theorem rescan_combine {how : Combination} {inputs : List BitmapOp} {c : BitmapCell}
    {states : Each BitmapNode inputs} :
    rescan params? (.combine how inputs) (combine c states) =
      match c.base.state.ensureRunning (BitmapOp.combine how inputs).kind "rescan" with
      | .error e => (.error e, combine c states)
      | .ok () =>
        let c := c.restarted params?
        match rescanAll params? inputs states with
        | (.error e, states) => (.error e, combine c states)
        | (.ok (), states) => (.ok (), combine { c with base := c.base.countLoop } states) := by
  rw [rescan, NodeBase.restart_eq]
  cases c.base.state.ensureRunning (BitmapOp.combine how inputs).kind "rescan" <;> rfl

end BitmapNode

/-! ## Trees -/

namespace Node

variable {ctx : Context} {flags : Flags} {params? : Option (List Value)} {op : Operator}
  {b : NodeBase}

theorem unstarted_of_admitInit (h : admitInit op b flags = .ok ()) : b.state = .unstarted := by
  unfold admitInit at h
  split at h
  · cases h
  · next hstate => exact NodeState.ensureUnstarted_eq_ok_iff.mp hstate

theorem running_of_admitPosition {operation : String} (h : admitPosition op b operation = .ok ()) :
    b.state.isRunning = true := by
  unfold admitPosition at h
  split at h
  · exact NodeState.ensureRunning_eq_ok_iff.mp h
  · cases h

theorem init_seqScan {scan : SeqScan} {s : SeqScan.State} :
    init ctx (.seqScan scan) (seqScan s) flags =
      match admitInit (.seqScan scan) s.base flags with
      | .error e => (.error e, seqScan s)
      | .ok () =>
        match scan.openScan { s with base := s.base.takeParams ctx.params } with
        | (.error e, s) => (.error e, seqScan s)
        | (.ok (), s) => (.ok (), seqScan { s with base := s.base.started }) := by
  rw [init]
  cases hadmit : admitInit (.seqScan scan) s.base flags with
  | error e => rfl
  | ok u =>
    have hbase := scan.base_openScan { s with base := s.base.takeParams ctx.params }
    dsimp only
    generalize scan.openScan { s with base := s.base.takeParams ctx.params } = x at hbase ⊢
    obtain ⟨e | u, s'⟩ := x
    · rfl
    -- Opening the scan has left the state alone, so that the node is unstarted still.
    · have hunstarted : s'.base.state = .unstarted :=
        (congrArg NodeBase.state hbase).trans (unstarted_of_admitInit hadmit)
      dsimp only
      rw [NodeBase.start_of_unstarted hunstarted]

theorem init_subquery {scan : SubqueryScan} {s : SubqueryScan.State} {input : Node op} :
    init ctx (.subquery scan op) (subquery s input) flags =
      match admitInit (.subquery scan op) s.base flags with
      | .error e => (.error e, subquery s input)
      | .ok () =>
        let s := { s with base := s.base.takeParams ctx.params }
        match init ctx op input flags with
        | (.error e, input) => (.error e, subquery s input)
        | (.ok (), input) => (.ok (), subquery { s with base := s.base.started } input) := by
  rw [init]
  cases hadmit : admitInit (.subquery scan op) s.base flags with
  | error e => rfl
  | ok u =>
    have hunstarted : (s.base.takeParams ctx.params).state = .unstarted :=
      unstarted_of_admitInit hadmit
    dsimp only
    rcases init ctx op input flags with ⟨e | u, input'⟩
    · rfl
    · dsimp only
      rw [NodeBase.start_of_unstarted hunstarted]

theorem init_hash {build : HashBuild} {s : HashBuild.State} {input : Node op} :
    init ctx (.hash build op) (hash s input) flags =
      match admitInit (.hash build op) s.base flags with
      | .error e => (.error e, hash s input)
      | .ok () =>
        let s := { s with base := s.base.takeParams ctx.params }
        match init ctx op input flags.ofInput with
        | (.error e, input) => (.error e, hash s input)
        | (.ok (), input) => (.ok (), hash { s with base := s.base.started } input) := by
  rw [init]
  cases hadmit : admitInit (.hash build op) s.base flags with
  | error e => rfl
  | ok u =>
    have hunstarted : (s.base.takeParams ctx.params).state = .unstarted :=
      unstarted_of_admitInit hadmit
    dsimp only
    rcases init ctx op input flags.ofInput with ⟨e | u, input'⟩
    · rfl
    · dsimp only
      rw [NodeBase.start_of_unstarted hunstarted]

theorem finish_seqScan {scan : SeqScan} {s : SeqScan.State} :
    finish (.seqScan scan) (seqScan s) =
      if s.base.state.isEnded then seqScan s
      else seqScan { SeqScan.release s with base := s.base.ended } := by
  rw [finish]
  exact s.base.match_finish (fun base => seqScan { s with base }) _

theorem finish_subquery {scan : SubqueryScan} {s : SubqueryScan.State} {input : Node op} :
    finish (.subquery scan op) (subquery s input) =
      if s.base.state.isEnded then subquery s input
      else subquery { base := s.base.ended, slot := .empty } (finish op input) := by
  rw [finish]
  exact s.base.match_finish (fun base => subquery { s with base } input) _

theorem finish_hash {build : HashBuild} {s : HashBuild.State} {input : Node op} :
    finish (.hash build op) (hash s input) =
      if s.base.state.isEnded then hash s input
      else hash { HashBuild.reset s with base := s.base.ended } (finish op input) := by
  rw [finish]
  exact s.base.match_finish (fun base => hash { s with base } input) _

theorem rescan_seqScan {scan : SeqScan} {s : SeqScan.State} :
    rescan params? (.seqScan scan) (seqScan s) =
      match s.base.state.ensureRunning .seqScan "rescan" with
      | .error e => (.error e, seqScan s)
      | .ok () =>
        match scan.rescan { s with base := s.base.restarted params? } with
        | (.error e, s) => (.error e, seqScan s)
        | (.ok (), s) => (.ok (), seqScan { s with base := s.base.countLoop }) := by
  rw [rescan, NodeBase.restart_eq]
  cases s.base.state.ensureRunning .seqScan "rescan" <;> rfl

theorem rescan_subquery {scan : SubqueryScan} {s : SubqueryScan.State} {input : Node op} :
    rescan params? (.subquery scan op) (subquery s input) =
      match s.base.state.ensureRunning .subqueryScan "rescan" with
      | .error e => (.error e, subquery s input)
      | .ok () =>
        let s : SubqueryScan.State := { base := s.base.restarted params?, slot := .empty }
        match rescan params? op input with
        | (.error e, input) => (.error e, subquery s input)
        | (.ok (), input) => (.ok (), subquery { s with base := s.base.countLoop } input) := by
  rw [rescan, NodeBase.restart_eq]
  cases s.base.state.ensureRunning .subqueryScan "rescan" <;> rfl

theorem rescan_hash {build : HashBuild} {s : HashBuild.State} {input : Node op} :
    rescan params? (.hash build op) (hash s input) =
      match s.base.state.ensureRunning .hash "rescan" with
      | .error e => (.error e, hash s input)
      | .ok () =>
        let s := { s with base := s.base.restarted params? }
        if HashBuild.rebuilds s params? then
          let s := HashBuild.reset s
          match rescan params? op input with
          | (.error e, input) => (.error e, hash s input)
          | (.ok (), input) => (.ok (), hash { s with base := s.base.countLoop } input)
        else
          match HashBuild.rewind s with
          | (.error e, s) => (.error e, hash s input)
          | (.ok (), s) => (.ok (), hash { s with base := s.base.countLoop } input) := by
  rw [rescan, NodeBase.restart_eq]
  cases s.base.state.ensureRunning .hash "rescan" <;> rfl

theorem restorePos_seqScan {scan : SeqScan} {s : SeqScan.State} :
    restorePos (.seqScan scan) (seqScan s) =
      match admitPosition (.seqScan scan) s.base "restore a position on" with
      | .error e => (.error e, seqScan s)
      | .ok () =>
        match scan.restore s with
        | (.error e, s) => (.error e, seqScan s)
        | (.ok (), s) => (.ok (), seqScan { s with base := s.base.restarted none }) := by
  rw [restorePos]
  cases hadmit : admitPosition (.seqScan scan) s.base "restore a position on" with
  | error e => rfl
  | ok u =>
    have hbase := scan.base_restore s
    dsimp only
    generalize scan.restore s = x at hbase ⊢
    obtain ⟨e | u, s'⟩ := x
    · rfl
    -- Going back has left the state alone, so that the node is running still.
    · have hrunning : s'.base.state.isRunning = true :=
        (congrArg (·.state.isRunning) hbase).trans (running_of_admitPosition hadmit)
      dsimp only
      rw [NodeBase.restart_of_running hrunning]

theorem restorePos_subquery {scan : SubqueryScan} {s : SubqueryScan.State} {input : Node op} :
    restorePos (.subquery scan op) (subquery s input) =
      match admitPosition (.subquery scan op) s.base "restore a position on" with
      | .error e => (.error e, subquery s input)
      | .ok () =>
        match restorePos op input with
        | (.error e, input) => (.error e, subquery { s with slot := .empty } input)
        | (.ok (), input) =>
          (.ok (), subquery { base := s.base.restarted none, slot := .empty } input) := by
  rw [restorePos]
  cases hadmit : admitPosition (.subquery scan op) s.base "restore a position on" with
  | error e => rfl
  | ok u =>
    dsimp only
    rcases restorePos op input with ⟨e | u, input'⟩
    · rfl
    · dsimp only
      rw [NodeBase.restart_of_running (running_of_admitPosition hadmit)]

end Node

end PullQuery
