import PullQuery.Proofs.Node.Idle
import PullQuery.Proofs.Node.Initializing
import PullQuery.Proofs.Node.Restart

/-!
# The nodes of a tree live together

Whatever is asked of the root of a tree, in whatever contexts, and whatever fails: as long as the
root is unstarted, so are all nodes; while it is running, all nodes are running; and once it is
ended, all nodes are ended, for good.

## Main definitions

* `Node.AllRunning`: all nodes of a tree are running
* `Node.Coherent`: the nodes of a tree live together
* `Node.Leads`: requests in any contexts lead from one state of a tree to another

## Main results

* `Node.Runs.allRunning`, `Node.ended_finish`
* `Node.Coherent.serve`: what every request keeps
* `Node.coherent_of_leads`, `Node.runs_of_leads`, `Node.lifecycle_of_leads`
* `Node.running_induction`: what every use keeps, while the tree runs
-/

namespace PullQuery

variable {ctx : Context}

theorem NodeState.ne_of_isRunning {s : NodeState} (h : s.isRunning = true) :
    s ≠ .unstarted ∧ s ≠ .ended := by
  constructor
  · rintro rfl
    contradiction
  · rintro rfl
    contradiction

/-! ## Bitmap nodes -/

namespace BitmapNode

mutual

theorem ended_finish : {op : BitmapOp} → {s : BitmapNode op} →
    Throughout (·.base.state.isEnded = false) op s →
    Throughout (·.base.state = .ended) op (finish op s)
  | .indexScan _, .indexScan c, h => by
    have hstate : c.base.state.isEnded = false := h
    rw [finish_indexScan, hstate, if_neg Bool.false_ne_true]
    rfl
  | .combine how inputs, .combine c ss, ⟨hcell, hstates⟩ => by
    rw [finish_combine, hcell, if_neg Bool.false_ne_true]
    exact ⟨rfl, ended_finishAll hstates⟩

theorem ended_finishAll : {ops : List BitmapOp} → {ss : Each BitmapNode ops} →
    AllThroughout (·.base.state.isEnded = false) ops ss →
    AllThroughout (·.base.state = .ended) ops (finishAll ops ss)
  | [], .nil, _ => trivial
  | _ :: _, .cons _ _, h => ⟨ended_finish h.1, ended_finishAll h.2⟩

end

end BitmapNode

/-! ## Trees -/

namespace Node

/-- Releasing a tree ends all nodes that are not ended. -/
theorem ended_finish : {op : Operator} → {n : Node op} →
    Throughout (·.state.isEnded = false) op n → Throughout (·.state = .ended) op (n.finish op)
  | .seqScan _, .seqScan s, h => by
    have hstate : s.base.state.isEnded = false := h
    rw [finish_seqScan, hstate, if_neg Bool.false_ne_true]
    rfl
  | .bitmap _, .bitmap _, h => BitmapNode.ended_finish h
  | .subquery _ _, .subquery s input, h => by
    rw [finish_subquery, h.1, if_neg Bool.false_ne_true]
    exact ⟨rfl, ended_finish h.2⟩
  | .hash _ _, .hash s input, h => by
    rw [finish_hash, h.1, if_neg Bool.false_ne_true]
    exact ⟨rfl, ended_finish h.2⟩

/-- Whether all nodes of a tree have been initialized and none has been released. -/
def AllRunning (op : Operator) (n : Node op) : Prop := Throughout (·.state.isRunning) op n

theorem Runs.throughout {params : List Value} : {op : Operator} → {n : Node op} →
    Runs params op n → Throughout (·.Runs params) op n
  | .seqScan _, .seqScan _, h => h.1
  | .bitmap _, .bitmap _, h => h
  | .subquery _ _, .subquery _ _, h => ⟨h.1, h.2.throughout⟩
  | .hash _ _, .hash _ _, h => ⟨h.1, h.2.throughout⟩

theorem Runs.allRunning {params : List Value} {op : Operator} {n : Node op}
    (h : Runs params op n) : AllRunning op n :=
  h.throughout.mono fun _ hb => hb.running

/-! ### Any requests -/

/-- Whether the nodes of a tree are where its root is in its life. -/
inductive Coherent (op : Operator) (n : Node op) : Prop where
  | blank (h : Blank op n)
  | running (h : AllRunning op n)
  | ended (h : Throughout (·.state = .ended) op n)

theorem serve_init {op : Operator} (n : Node op) (flags : Flags) (w : Session) :
    (NodeRequest.serve ctx op n w (.init flags)).2.1 = (n.init ctx op flags).2 := rfl

/-- Whether requests in turn, each in a context and a session of its own, lead from one state of
a tree to another. -/
inductive Leads (op : Operator) (n : Node op) : Node op → Prop where
  | refl : Leads op n n
  | serve {n' : Node op} (h : Leads op n n') (ctx : Context) (r : NodeRequest) (w : Session) :
      Leads op n (r.serve ctx op n' w).2.1

section WhileRunning

variable {op : Operator} {motive : Node op → Prop} {n : Node op}
  (hall : ∀ n, motive n → AllRunning op n)
  (hinit : ∀ ctx flags n, (fresh op).init ctx op flags = (.ok (), n) → motive n)
  (hserve : ∀ n, motive n → ∀ (ctx : Context) (r : NodeRequest), r.IsUse → ∀ w,
    motive (r.serve ctx op n w).2.1)

include hall hinit hserve

/-- Every request leaves the nodes of a tree together, also if it fails for some of them, and
keeps what is true of trees that have been initialized and kept by every use of them. -/
theorem Coherent.serve (h : Coherent op n) (hmotive : n.base.state.isRunning = true → motive n)
    (r : NodeRequest) (w : Session) :
    Coherent op (r.serve ctx op n w).2.1 ∧
      ((r.serve ctx op n w).2.1.base.state.isRunning = true →
        motive (r.serve ctx op n w).2.1) := by
  cases h with
  | blank h =>
    have hunstarted : n.base.state = .unstarted := h.throughout.base.unstarted.1
    have hidle : n.base.state.isRunning = false := congrArg NodeState.isRunning hunstarted
    -- The root refuses everything else than to be set up or released.
    cases r with
    | init flags =>
      rw [serve_init]
      rcases init_blank_cases ctx op flags with ⟨e, hfails⟩ | ⟨n', hsucceeds⟩
      · obtain ⟨n', hfailed, hblank⟩ := hfails n h
        have hunstarted' : n'.base.state = .unstarted := hblank.throughout.base.unstarted.1
        rw [hfailed, hunstarted']
        exact ⟨.blank hblank, nofun⟩
      · have hnew : motive n' := hinit ctx flags n' (hsucceeds (fresh op) (blank_fresh op))
        rw [hsucceeds n h]
        exact ⟨.running (hall n' hnew), fun _ => hnew⟩
    | finish =>
      have hended := ended_finish (h.throughout.mono fun b hb =>
        congrArg NodeState.isEnded hb.unstarted.1)
      refine ⟨.ended hended, ?_⟩
      exact fun hrunning => absurd hended.base (NodeState.ne_of_isRunning hrunning).2
    | _ =>
      rw [serve_of_idle hidle (by simp) (by simp)]
      exact ⟨.blank h, hmotive⟩
  | running h =>
    have huse : ∀ r : NodeRequest, r.IsUse → motive (r.serve ctx op n w).2.1 :=
      fun r hr => hserve n (hmotive h.base) ctx r hr w
    cases r with
    | init flags =>
      rw [serve_init, init_of_ne (NodeState.ne_of_isRunning h.base).1]
      exact ⟨.running h, hmotive⟩
    | finish =>
      have hended := ended_finish (h.mono fun b hb =>
        beq_false_of_ne (NodeState.ne_of_isRunning hb).2)
      refine ⟨.ended hended, ?_⟩
      exact fun hrunning => absurd hended.base (NodeState.ne_of_isRunning hrunning).2
    | _ =>
      refine ⟨.running (hall _ (huse _ ?_)), fun _ => huse _ ?_⟩
      · trivial
      · trivial
  | ended h =>
    rw [serve_of_ended h.base]
    exact ⟨.ended h, hmotive⟩

theorem coherent_induction (h : Leads op (fresh op) n) :
    Coherent op n ∧ (n.base.state.isRunning = true → motive n) := by
  induction h with
  | refl =>
    have hunstarted : (fresh op).base.state = .unstarted :=
      (blank_fresh op).throughout.base.unstarted.1
    rw [hunstarted]
    exact ⟨.blank (blank_fresh op), nofun⟩
  | serve _ ctx r w ih => exact ih.1.serve hall hinit hserve ih.2 r w

end WhileRunning

theorem coherent_and_runs_of_leads {op : Operator} {n : Node op} (h : Leads op (fresh op) n) :
    Coherent op n ∧ (n.base.state.isRunning = true → ∃ params, Runs params op n) := by
  refine coherent_induction (motive := fun n => ∃ params, Runs params op n) ?_ ?_ ?_ h
  · rintro n ⟨params, hruns⟩
    exact hruns.allRunning
  · intro ctx flags n hinit
    exact ⟨ctx.params, (pristine_of_init hinit).runs⟩
  · rintro n ⟨params, hruns⟩ ctx r hr w
    exact hruns.serve hr w

theorem coherent_of_leads {op : Operator} {n : Node op} (h : Leads op (fresh op) n) :
    Coherent op n :=
  (coherent_and_runs_of_leads h).1

/-- A tree that was new once and is running has its scans open. -/
theorem runs_of_leads {op : Operator} {n : Node op} (h : Leads op (fresh op) n)
    (hrunning : n.base.state.isRunning = true) : ∃ params, Runs params op n :=
  (coherent_and_runs_of_leads h).2 hrunning

/-- What holds of a tree that has been initialized, and is kept by every use of it, holds as long
as the tree runs. -/
theorem running_induction {op : Operator} {motive : Node op → Prop}
    (hinit : ∀ ctx flags n, (fresh op).init ctx op flags = (.ok (), n) → motive n)
    (hserve : ∀ n, motive n → ∀ (ctx : Context) (r : NodeRequest), r.IsUse → ∀ w,
      motive (r.serve ctx op n w).2.1)
    {n : Node op} (h : Leads op (fresh op) n) (hrunning : n.base.state.isRunning = true) :
    motive n := by
  have hboth := coherent_induction
    (motive := fun n => motive n ∧ ∃ params, Runs params op n) ?_ ?_ ?_ h
  · exact (hboth.2 hrunning).1
  · rintro n ⟨-, params, hruns⟩
    exact hruns.allRunning
  · intro ctx flags n hnew
    exact ⟨hinit ctx flags n hnew, ctx.params, (pristine_of_init hnew).runs⟩
  · rintro n ⟨hn, params, hruns⟩ ctx r hr w
    exact ⟨hserve n hn ctx r hr w, hruns.serve hr w⟩

/-- Nothing leads away from a tree that was released. -/
theorem eq_of_leads_of_ended {op : Operator} {n n' : Node op} (h : Leads op n n')
    (hended : n.base.state = .ended) : n' = n := by
  induction h with
  | refl => rfl
  | serve _ ctx r w ih =>
    subst ih
    exact serve_of_ended hended r w

/-- Whatever requests were made of a tree, in whatever contexts: as long as the root is
unstarted, so are all nodes, none has counted a loop, and the tree is initialized as if it were
new; while the root is running, all nodes are; once it is ended, all nodes are, for good. -/
theorem lifecycle_of_leads {op : Operator} {n : Node op} (h : Leads op (fresh op) n) :
    (n.base.state = .unstarted →
      (∀ x ∈ n.describe 0 op, x.2.2.state = .unstarted ∧ x.2.2.counters.loops = 0) ∧
      ∀ ctx flags, (n.init ctx op flags).1 = ((fresh op).init ctx op flags).1 ∧
        ((n.init ctx op flags).1 = .ok () → n.init ctx op flags = (fresh op).init ctx op flags)) ∧
    (n.base.state.isRunning = true → ∀ x ∈ n.describe 0 op, x.2.2.state.isRunning = true) ∧
    (n.base.state = .ended →
      (∀ x ∈ n.describe 0 op, x.2.2.state = .ended) ∧ ∀ n', Leads op n n' → n' = n) := by
  cases coherent_of_leads h with
  | blank h =>
    have hstate : n.base.state = .unstarted := h.throughout.base.unstarted.1
    refine ⟨fun _ => ⟨?_, h.init_eq⟩, ?_, ?_⟩
    · exact throughout_iff.mp (h.throughout.mono fun b hb => hb.unstarted)
    · simp [hstate, NodeState.isRunning]
    · simp [hstate]
  | running h =>
    obtain ⟨hne, hne'⟩ := NodeState.ne_of_isRunning h.base
    refine ⟨?_, fun _ => throughout_iff.mp h, ?_⟩
    · intro hstate
      exact absurd hstate hne
    · intro hstate
      exact absurd hstate hne'
  | ended h =>
    have hstate : n.base.state = .ended := h.base
    refine ⟨?_, ?_, fun _ => ⟨throughout_iff.mp h, ?_⟩⟩
    · simp [hstate]
    · simp [hstate, NodeState.isRunning]
    · intro n' hn'
      exact eq_of_leads_of_ended hn' hstate

/-- A hash node over a relation whose storage opens no scans. -/
def hashedUnopened : Operator :=
  .hash HashBuild.byFirst
    (.seqScan ⟨{ heap := oneNumber, faults := { onOpen? := some "closed" } }, .forward, none⟩)

/-- Initializing fails below the root; another tree is used and released. -/
theorem lifecycle_of_leads_hashed :
    (∃ n, Leads hashedUnopened (fresh hashedUnopened) n ∧ n.base.params = [.null] ∧
      ∀ x ∈ n.describe 0 hashedUnopened, x.2.2.state = .unstarted ∧ x.2.2.counters.loops = 0) ∧
    ∃ n, Leads hashedNumber (fresh hashedNumber) n ∧ n.base.state = .exhausted ∧
      (∀ x ∈ n.describe 0 hashedNumber, x.2.2.state.isRunning = true) ∧
      ∀ x ∈ (n.finish hashedNumber).describe 0 hashedNumber, x.2.2.state = .ended := by
  have hfailed :=
    (Leads.refl (n := fresh hashedUnopened)).serve { params := [.null] } (.init {}) {}
  have hread := ((Leads.refl (n := fresh hashedNumber)).serve {} (.init {}) {}).serve {} .next {}
  have hreleased := hread.serve {} .finish {}
  refine ⟨⟨_, hfailed, rfl, ?_⟩, _, hread, rfl, ?_, ?_⟩
  · exact ((lifecycle_of_leads hfailed).1 rfl).1
  · exact (lifecycle_of_leads hread).2.1 rfl
  · exact ((lifecycle_of_leads hreleased).2.2 rfl).1

end Node

end PullQuery
