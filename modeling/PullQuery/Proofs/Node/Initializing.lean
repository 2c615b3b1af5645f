import PullQuery.Proofs.Node.Running

/-!
# Initializing a tree

A tree that has not been initialized is blank: nothing has happened to its nodes, save that those
above one that failed may have been given parameter values. However often initializing failed, the
tree answers the next time as a new one does, and becomes the same running tree.

## Main definitions

* `Node.Throughout`: all nodes of a tree have a property
* `NodeBase.Blank`, `Node.Blank`: the tree has not been initialized, though it may have been tried

## Main results

* `Node.throughout_iff`: the nodes of a tree are those that its description lists
* `BitmapNode.init_of_blank`: the inputs of a combination are all set up
* `Node.init_blank_cases`, `Node.Blank.init_eq`
-/

namespace PullQuery

variable {ctx : Context}

/-- What is asked of the input of a node that reads it once, bitmap nodes can do. -/
theorem Flags.check_ofInput (f : Flags) (kind : NodeKind) : f.ofInput.check kind {} = .ok () := rfl

/-- Bitmap nodes of all kinds are refused for the same flags. -/
theorem Flags.check_eq_ok_of {f : Flags} {kind : NodeKind} (h : f.check kind {} = .ok ())
    (kind' : NodeKind) : f.check kind' {} = .ok () := by
  unfold check at h ⊢
  split at h
  · contradiction
  · next hbackward =>
    split at h
    · contradiction
    · next hmark => rw [if_neg hbackward, if_neg hmark]

/-- Whether a node has not been initialized, though it may have been given parameter values. -/
def NodeBase.Blank (b : NodeBase) : Prop := ∃ params, b = { params }

theorem NodeBase.Blank.unstarted {b : NodeBase} (h : b.Blank) :
    b.state = .unstarted ∧ b.counters.loops = 0 := by
  obtain ⟨params, rfl⟩ := h
  exact ⟨rfl, rfl⟩

/-- The parameter values of a blank node are replaced when it is initialized. -/
theorem NodeBase.Blank.takeParams {b : NodeBase} (h : b.Blank) (params : List Value) :
    b.takeParams params = { params } := by
  obtain ⟨old, rfl⟩ := h
  rfl

/-! ## Bitmap nodes -/

/-- Whether a bitmap node has not been initialized. -/
structure BitmapCell.Blank (c : BitmapCell) : Prop where
  base : c.base.Blank
  bitmap_eq : c.bitmap? = none

namespace BitmapNode

section Throughout

variable {P : NodeBase → Prop}

mutual

theorem throughout_iff : {op : BitmapOp} → {s : BitmapNode op} → {depth : Nat} →
    (Throughout (fun c => P c.base) op s ↔ ∀ x ∈ describe depth op s, P x.2.2)
  | .indexScan _, .indexScan c, _ => by simp [Throughout, describe]
  | .combine _ inputs, .combine c ss, depth => by
    rw [describe, List.forall_mem_cons, Throughout, allThroughout_iff]

theorem allThroughout_iff : {ops : List BitmapOp} → {ss : Each BitmapNode ops} → {depth : Nat} →
    (AllThroughout (fun c => P c.base) ops ss ↔ ∀ x ∈ describeAll depth ops ss, P x.2.2)
  | [], .nil, _ => by simp [AllThroughout, describeAll]
  | op :: ops, .cons s ss, depth => by
    rw [describeAll, List.forall_mem_append, AllThroughout, throughout_iff, allThroughout_iff]

end

end Throughout

mutual

theorem blank_fresh : (op : BitmapOp) → Throughout BitmapCell.Blank op (fresh op)
  | .indexScan _ => ⟨⟨[], rfl⟩, rfl⟩
  | .combine _ inputs => ⟨⟨⟨[], rfl⟩, rfl⟩, blank_freshAll inputs⟩

theorem blank_freshAll : (ops : List BitmapOp) → AllThroughout BitmapCell.Blank ops (freshAll ops)
  | [] => trivial
  | op :: ops => ⟨blank_fresh op, blank_freshAll ops⟩

end

/-- A blank bitmap node that is initialized. -/
def startedCell (ctx : Context) : BitmapCell :=
  { base := NodeBase.started { params := ctx.params } }

mutual

/-- The bitmap nodes of a tree that has been initialized. -/
def opened (ctx : Context) : (op : BitmapOp) → BitmapNode op
  | .indexScan _ => .indexScan (startedCell ctx)
  | .combine _ inputs => .combine (startedCell ctx) (openedAll ctx inputs)

def openedAll (ctx : Context) : (ops : List BitmapOp) → Each BitmapNode ops
  | [] => .nil
  | op :: ops => .cons (opened ctx op) (openedAll ctx ops)

end

theorem started_of_blank {c : BitmapCell} (h : c.Blank) :
    { c with base := (c.base.takeParams ctx.params).started } = startedCell ctx := by
  rw [h.base.takeParams, h.bitmap_eq]
  rfl

mutual

/-- The inputs of a combination are only asked for what they can do, so they are all set up. -/
theorem init_of_blank {flags : Flags} (hflags : ∀ kind, flags.check kind {} = .ok ()) :
    {op : BitmapOp} → {s : BitmapNode op} → Throughout BitmapCell.Blank op s →
    init ctx flags op s = (.ok (), opened ctx op)
  | .indexScan _, .indexScan c, h => by
    rw [init_indexScan, NodeState.ensureUnstarted_eq_ok_iff.mpr h.base.unstarted.1]
    simp only [hflags]
    rw [started_of_blank h]
    rfl
  | .combine how inputs, .combine c ss, ⟨hcell, hstates⟩ => by
    rw [init_combine, NodeState.ensureUnstarted_eq_ok_iff.mpr hcell.base.unstarted.1]
    simp only [hflags, initAll_of_blank flags.check_ofInput hstates]
    rw [started_of_blank hcell]
    rfl

theorem initAll_of_blank {flags : Flags} (hflags : ∀ kind, flags.check kind {} = .ok ()) :
    {ops : List BitmapOp} → {ss : Each BitmapNode ops} → AllThroughout BitmapCell.Blank ops ss →
    initAll ctx flags ops ss = (.ok (), openedAll ctx ops)
  | [], .nil, _ => rfl
  | op :: ops, .cons s ss, ⟨hfirst, hothers⟩ => by
    rw [initAll, init_of_blank hflags hfirst]
    simp only [initAll_of_blank hflags hothers]
    rfl

end

/-- A blank tree is refused for its flags or set up as a whole. -/
theorem init_blank_cases (ctx : Context) (flags : Flags) (op : BitmapOp) :
    (∃ e, ∀ s : BitmapNode op, Throughout BitmapCell.Blank op s →
        init ctx flags op s = (.error e, s)) ∨
      ∀ s : BitmapNode op, Throughout BitmapCell.Blank op s →
        init ctx flags op s = (.ok (), opened ctx op) := by
  rcases hcheck : flags.check op.kind {} with e | ⟨⟩
  · refine .inl ⟨e, ?_⟩
    intro s hs
    have hstate : s.cell.base.state.ensureUnstarted op.kind = .ok () :=
      NodeState.ensureUnstarted_eq_ok_iff.mpr hs.cell.base.unstarted.1
    cases s with
    | indexScan c =>
      rw [cell] at hstate
      rw [init_indexScan, hstate, hcheck]
    | combine c ss =>
      rw [cell] at hstate
      rw [init_combine, hstate, hcheck]
  · exact .inr fun s hs => init_of_blank (Flags.check_eq_ok_of hcheck) hs

end BitmapNode

/-! ## Trees -/

namespace Node

/-- Whether all nodes of a tree have a property. -/
def Throughout (P : NodeBase → Prop) : (op : Operator) → Node op → Prop
  | .seqScan _, .seqScan s => P s.base
  | .bitmap op, .bitmap s => BitmapNode.Throughout (fun c => P c.base) op s
  | .subquery _ op, .subquery s input => P s.base ∧ Throughout P op input
  | .hash _ op, .hash s input => P s.base ∧ Throughout P op input

section Throughout

variable {P Q : NodeBase → Prop}

theorem throughout_iff : {op : Operator} → {n : Node op} → {depth : Nat} →
    (Throughout P op n ↔ ∀ x ∈ n.describe depth op, P x.2.2)
  | .seqScan _, .seqScan s, _ => by simp [Throughout, describe]
  | .bitmap op, .bitmap s, _ => BitmapNode.throughout_iff
  | .subquery _ op, .subquery s input, depth => by
    rw [describe, List.forall_mem_cons, Throughout, throughout_iff]
  | .hash _ op, .hash s input, depth => by
    rw [describe, List.forall_mem_cons, Throughout, throughout_iff]

theorem Throughout.base {op : Operator} {n : Node op} (h : Throughout P op n) : P n.base := by
  cases n with
  | seqScan s => exact h
  | bitmap s => exact BitmapNode.Throughout.cell h
  | subquery s input => exact h.1
  | hash s input => exact h.1

theorem Throughout.mono (hPQ : ∀ b, P b → Q b) : {op : Operator} → {n : Node op} →
    Throughout P op n → Throughout Q op n
  | .seqScan _, .seqScan s, h => hPQ s.base h
  | .bitmap _, .bitmap _, h => BitmapNode.Throughout.mono (fun c => hPQ c.base) h
  | .subquery _ _, .subquery s _, h => ⟨hPQ s.base h.1, h.2.mono hPQ⟩
  | .hash _ _, .hash s _, h => ⟨hPQ s.base h.1, h.2.mono hPQ⟩

end Throughout

/-! ### Blank trees -/

/-- Whether a tree has not been initialized, though it may have been tried. -/
def Blank : (op : Operator) → Node op → Prop
  | .seqScan _, .seqScan s => ∃ params, s = { base := { params } }
  | .bitmap op, .bitmap s => BitmapNode.Throughout BitmapCell.Blank op s
  | .subquery _ op, .subquery s input => (∃ params, s = { base := { params } }) ∧ Blank op input
  | .hash _ op, .hash s input => (∃ params, s = { base := { params } }) ∧ Blank op input

theorem blank_fresh : (op : Operator) → Blank op (fresh op)
  | .seqScan _ => ⟨[], rfl⟩
  | .bitmap op => BitmapNode.blank_fresh op
  | .subquery _ op => ⟨⟨[], rfl⟩, blank_fresh op⟩
  | .hash _ op => ⟨⟨[], rfl⟩, blank_fresh op⟩

theorem Blank.throughout : {op : Operator} → {n : Node op} → Blank op n →
    Throughout NodeBase.Blank op n
  | .seqScan _, .seqScan _, h => h.imp fun _ hs => congrArg SeqScan.State.base hs
  | .bitmap _, .bitmap _, h => BitmapNode.Throughout.mono (fun _ hc => hc.base) h
  | .subquery _ _, .subquery _ _, h =>
    ⟨h.1.imp fun _ hs => congrArg SubqueryScan.State.base hs, h.2.throughout⟩
  | .hash _ _, .hash _ _, h =>
    ⟨h.1.imp fun _ hs => congrArg HashBuild.State.base hs, h.2.throughout⟩

/-- A node that has not been initialized is refused for its flags alone. -/
theorem admitInit_blank (op : Operator) (params : List Value) (flags : Flags) :
    admitInit op { params } flags = flags.check op.kind op.capabilities := rfl

/-- Initializing a blank tree fails whatever was tried before, and leaves it blank; or it gives
the same tree whatever was tried before. -/
theorem init_blank_cases (ctx : Context) (op : Operator) (flags : Flags) :
    (∃ e, ∀ n, Blank op n → ∃ n', n.init ctx op flags = (.error e, n') ∧ Blank op n') ∨
      ∃ n', ∀ n, Blank op n → n.init ctx op flags = (.ok (), n') := by
  induction op generalizing flags with
  | seqScan scan =>
    rcases hcheck : flags.check (Operator.seqScan scan).kind (Operator.seqScan scan).capabilities
      with e | ⟨⟩
    · refine .inl ⟨e, ?_⟩
      rintro (s | _ | _ | _) ⟨params, rfl⟩
      simp only [init_seqScan, admitInit_blank, hcheck]
      exact ⟨_, rfl, params, rfl⟩
    · rcases hstart : RelationScan.start scan.relation scan.direction with e | rs
      · refine .inl ⟨e.toError, ?_⟩
        rintro (s | _ | _ | _) ⟨params, rfl⟩
        simp only [init_seqScan, admitInit_blank, hcheck, SeqScan.openScan, hstart]
        exact ⟨_, rfl, ctx.params, rfl⟩
      · refine .inr ⟨.seqScan
          { base := NodeBase.started { params := ctx.params }, scan? := some rs }, ?_⟩
        rintro (s | _ | _ | _) ⟨params, rfl⟩
        simp only [init_seqScan, admitInit_blank, hcheck, SeqScan.openScan, hstart]
        rfl
  | bitmap op =>
    rcases BitmapNode.init_blank_cases ctx flags op with ⟨e, hinit⟩ | hinit
    · refine .inl ⟨e, ?_⟩
      rintro (_ | s | _ | _) hs
      exact ⟨.bitmap s, by rw [init, hinit s hs], hs⟩
    · refine .inr ⟨.bitmap (.opened ctx op), ?_⟩
      rintro (_ | s | _ | _) hs
      rw [init, hinit s hs]
  | subquery scan op ih =>
    rcases hcheck : flags.check (Operator.subquery scan op).kind
      (Operator.subquery scan op).capabilities with e | ⟨⟩
    · refine .inl ⟨e, ?_⟩
      rintro (_ | _ | ⟨s, input⟩ | _) ⟨⟨params, rfl⟩, hinput⟩
      simp only [init_subquery, admitInit_blank, hcheck]
      exact ⟨_, rfl, ⟨params, rfl⟩, hinput⟩
    · rcases ih flags with ⟨e, hfails⟩ | ⟨input', hsucceeds⟩
      · refine .inl ⟨e, ?_⟩
        rintro (_ | _ | ⟨s, input⟩ | _) ⟨⟨params, rfl⟩, hinput⟩
        obtain ⟨input', hinit, hblank⟩ := hfails input hinput
        simp only [init_subquery, admitInit_blank, hcheck, hinit]
        exact ⟨_, rfl, ⟨ctx.params, rfl⟩, hblank⟩
      · refine .inr ⟨.subquery { base := NodeBase.started { params := ctx.params } } input', ?_⟩
        rintro (_ | _ | ⟨s, input⟩ | _) ⟨⟨params, rfl⟩, hinput⟩
        simp only [init_subquery, admitInit_blank, hcheck, hsucceeds input hinput]
        rfl
  | hash build op ih =>
    rcases hcheck : flags.check (Operator.hash build op).kind (Operator.hash build op).capabilities
      with e | ⟨⟩
    · refine .inl ⟨e, ?_⟩
      rintro (_ | _ | _ | ⟨s, input⟩) ⟨⟨params, rfl⟩, hinput⟩
      simp only [init_hash, admitInit_blank, hcheck]
      exact ⟨_, rfl, ⟨params, rfl⟩, hinput⟩
    · rcases ih flags.ofInput with ⟨e, hfails⟩ | ⟨input', hsucceeds⟩
      · refine .inl ⟨e, ?_⟩
        rintro (_ | _ | _ | ⟨s, input⟩) ⟨⟨params, rfl⟩, hinput⟩
        obtain ⟨input', hinit, hblank⟩ := hfails input hinput
        simp only [init_hash, admitInit_blank, hcheck, hinit]
        exact ⟨_, rfl, ⟨ctx.params, rfl⟩, hblank⟩
      · refine .inr ⟨.hash { base := NodeBase.started { params := ctx.params } } input', ?_⟩
        rintro (_ | _ | _ | ⟨s, input⟩) ⟨⟨params, rfl⟩, hinput⟩
        simp only [init_hash, admitInit_blank, hcheck, hsucceeds input hinput]
        rfl

/-- A tree that is still blank answers when it is initialized as a new one does, and becomes the
same tree. -/
theorem Blank.init_eq {op : Operator} {n : Node op} (h : Blank op n) (ctx : Context)
    (flags : Flags) : (n.init ctx op flags).1 = ((fresh op).init ctx op flags).1 ∧
      ((n.init ctx op flags).1 = .ok () → n.init ctx op flags = (fresh op).init ctx op flags) := by
  rcases init_blank_cases ctx op flags with ⟨e, hfails⟩ | ⟨n', hsucceeds⟩
  · obtain ⟨n₁, hinit, -⟩ := hfails n h
    obtain ⟨n₂, hnew, -⟩ := hfails (fresh op) (blank_fresh op)
    rw [hinit, hnew]
    exact ⟨rfl, nofun⟩
  · rw [hsucceeds n h, hsucceeds (fresh op) (blank_fresh op)]
    exact ⟨rfl, fun _ => rfl⟩

end Node

end PullQuery
