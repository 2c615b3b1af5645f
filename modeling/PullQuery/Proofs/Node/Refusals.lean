import PullQuery.Execution
import PullQuery.Proofs.Hash.Reservations
import PullQuery.Proofs.Node.Coherence
import PullQuery.Proofs.Node.Errors

/-!
# What the root of a tree refuses

A request that the state of the root does not allow is refused by the root. Any other request is
allowed by the states of all nodes, and no node below the root refuses what it is asked for the
state that it is in. No request whatever fails for a check that holds already: that memory can be
reserved in the end, that a running scan is open, that a row which was returned is there.

## Main definitions

* `NodeRequest.AllowedIn`: the state of a node allows a request

## Main results

* `Node.refused_of_not_allowed`: what the root refuses
* `Node.foreseen_of_leads`, `Node.foreseen_execute`: what else fails
* `Node.no_internal_error`
-/

namespace PullQuery

variable {ctx : Context}

/-! ## Requests -/

/-- Whether the state of a node allows what is asked of it. -/
def NodeRequest.AllowedIn (s : NodeState) : NodeRequest → Prop
  | init _ => s = .unstarted
  | finish => True
  | interrupt _ => True
  | _ => s.isRunning = true

theorem NodeRequest.AllowedIn.of_isRunning {r : NodeRequest} {s s' : NodeState}
    (h : r.AllowedIn s) (hs : s.isRunning = true) (hs' : s'.isRunning = true) : r.AllowedIn s' := by
  cases r with
  | init flags => exact absurd h (NodeState.ne_of_isRunning hs).1
  | finish => trivial
  | interrupt set => trivial
  | _ => exact hs'

namespace Node

variable {op : Operator} {n : Node op} {r : NodeRequest} {w : Session} {e : Error}

/-! ### Requests that the root refuses -/

theorem Refused.not_internal {s : NodeState} (h : Refused op s e) : ¬ e.Internal := by
  rintro hinternal
  obtain ⟨capability, rfl⟩ | ⟨operation, rfl⟩ := h
  · cases hinternal
  · generalize hrefused : s.refuse op.kind operation = e at hinternal
    cases hinternal with
    | refused requested used budget => contradiction
    | _ => cases s <;> simp [NodeState.refuse, NodeState.name, SeqScan.notOpen] at hrefused

/-- A request that the state of the root does not allow fails with an error of the root. -/
theorem refused_of_not_allowed (hallowed : ¬ r.AllowedIn n.base.state)
    (he : (r.serve ctx op n w).1.error? = some e) : Refused op n.base.state e := by
  cases r with
  | init flags =>
    have hinit := NodeAnswer.error?_outcome.mp he
    rw [init_of_ne hallowed] at hinit
    exact .inr ⟨"init", (Except.error.inj hinit).symm⟩
  | next =>
    have hnext := NodeAnswer.error?_row.mp he
    rw [next_of_idle (Bool.not_eq_true _ ▸ hallowed)] at hnext
    exact .inr ⟨"fetch from", (Except.error.inj hnext).symm⟩
  | bitmap =>
    have hbuild : (n.buildBitmap ctx op).1 = .error e := NodeAnswer.error?_bitmap.mp he
    rw [buildBitmap_of_idle (Bool.not_eq_true _ ▸ hallowed)] at hbuild
    exact .inr ⟨"build a bitmap from", (Except.error.inj hbuild).symm⟩
  | rescan params? =>
    have hrescan := NodeAnswer.error?_outcome.mp he
    rw [rescan_of_idle (Bool.not_eq_true _ ▸ hallowed)] at hrescan
    exact .inr ⟨"rescan", (Except.error.inj hrescan).symm⟩
  | mark =>
    obtain ⟨e', hmark, hrefused⟩ := markPos_of_idle (n := n) (Bool.not_eq_true _ ▸ hallowed)
    have hanswer := NodeAnswer.error?_outcome.mp he
    rw [hmark] at hanswer
    obtain rfl := Except.error.inj hanswer
    exact hrefused
  | restore =>
    obtain ⟨e', hrestore, hrefused⟩ :=
      restorePos_of_idle (n := n) (Bool.not_eq_true _ ▸ hallowed)
    have hanswer := NodeAnswer.error?_outcome.mp he
    rw [hrestore] at hanswer
    obtain rfl := Except.error.inj hanswer
    exact hrefused
  | hash request =>
    cases op with
    | hash build op =>
      obtain ⟨answer, operation, hserve, hanswer⟩ :=
        serve_hash_of_idle (n := n) (Bool.not_eq_true _ ▸ hallowed) request w
      have hhash : (request.serve ctx build op n w).1.error? = some e := he
      rw [hserve, hanswer] at hhash
      exact .inr ⟨operation, (Option.some.inj hhash).symm⟩
    | seqScan scan => cases he
    | bitmap op => cases he
    | subquery scan op => cases he
  | finish => exact absurd trivial hallowed
  | interrupt set => exact absurd trivial hallowed

/-! ### Requests that the root allows -/

theorem Runs.foreseen_hash {params : List Value} {build : HashBuild} {n : Node (.hash build op)}
    (h : Runs params (.hash build op) n) (request : HashRequest)
    (he : (request.serve ctx build op n w).1.error? = some e) :
    e.Foreseen (Operator.Raises · (.hash build op)) := by
  cases n with | hash s input
  obtain ⟨hbase, hinput⟩ := h
  cases request with
  | build =>
    have hbuild := NodeAnswer.error?_outcome.mp he
    exact foreseen_build hbase hinput (fun i w e hi => hi.foreseen_next) hbuild
  | load batch => exact HashBuild.foreseen_loadBatch hbase.running (NodeAnswer.error?_outcome.mp he)
  | lookup hash => exact HashBuild.foreseen_lookup hbase.running (NodeAnswer.error?_found.mp he)

/-- A request that the state of the root allows fails with a foreseen error. -/
theorem foreseen_of_leads (h : Leads op (fresh op) n) (hallowed : r.AllowedIn n.base.state)
    (he : (r.serve ctx op n w).1.error? = some e) : e.Foreseen (Operator.Raises · op) := by
  have hruns := runs_of_leads h
  cases r with
  | init flags =>
    have hstate : n.base.state = .unstarted := hallowed
    have hinit := NodeAnswer.error?_outcome.mp he
    -- A tree that has not been started is initialized as a new one is.
    cases coherent_of_leads h with
    | blank hblank =>
      rw [(hblank.init_eq ctx flags).1] at hinit
      exact foreseen_init hinit
    | running hrunning => exact absurd hstate (NodeState.ne_of_isRunning hrunning.base).1
    | ended hended => exact absurd (hstate.symm.trans hended.base) (by decide)
  | next =>
    obtain ⟨params, hruns⟩ := hruns hallowed
    exact hruns.foreseen_next (NodeAnswer.error?_row.mp he)
  | bitmap =>
    obtain ⟨params, hruns⟩ := hruns hallowed
    exact hruns.foreseen_buildBitmap (NodeAnswer.error?_bitmap.mp he)
  | rescan params? =>
    obtain ⟨params, hruns⟩ := hruns hallowed
    exact hruns.foreseen_rescan (NodeAnswer.error?_outcome.mp he)
  | mark =>
    obtain ⟨params, hruns⟩ := hruns hallowed
    exact hruns.foreseen_markPos (NodeAnswer.error?_outcome.mp he)
  | restore =>
    obtain ⟨params, hruns⟩ := hruns hallowed
    exact hruns.foreseen_restorePos (NodeAnswer.error?_outcome.mp he)
  | finish => cases he
  | hash request =>
    obtain ⟨params, hruns⟩ := hruns hallowed
    cases op with
    | hash build op => exact hruns.foreseen_hash request he
    | seqScan scan => cases he
    | bitmap op => cases he
    | subquery scan op => cases he
  | interrupt set => cases he

/-- What the state of the root allows, the states of all nodes do. -/
theorem allowed_of_leads (h : Leads op (fresh op) n) (hallowed : r.AllowedIn n.base.state) :
    ∀ x ∈ n.describe 0 op, r.AllowedIn x.2.2.state := by
  refine (throughout_iff (P := fun b => r.AllowedIn b.state)).mp ?_
  -- The nodes are started together, are running together, and are finished together.
  cases coherent_of_leads h with
  | blank hblank =>
    have hroot : n.base.state = .unstarted := hblank.throughout.base.unstarted.1
    refine hblank.throughout.mono fun b hb => ?_
    rwa [hb.unstarted.1, ← hroot]
  | running hrunning =>
    exact hrunning.mono fun b hb => hallowed.of_isRunning hrunning.base hb
  | ended hended =>
    have hroot : n.base.state = .ended := hended.base
    refine hended.mono fun b hb => ?_
    rwa [hb, ← hroot]

/-! ## Executions -/

theorem Runs.foreseen_collectRows {params : List Value} (h : Runs params op n) {limit : Nat}
    (he : (collectRows ctx op limit n w).1 = .error e) : e.Foreseen (Operator.Raises · op) := by
  induction limit generalizing n w with
  | zero => simp [collectRows] at he
  | succ limit ih =>
    have hleft : Runs params op (Node.next ctx op n w).2.1 := h.next
    rw [collectRows] at he
    split at he
    · next e' hinterrupt =>
      obtain rfl := Except.error.inj he
      exact Session.foreseen_checkInterrupt hinterrupt
    · split at he
      · next e' n' w' hnext =>
        obtain rfl := Except.error.inj he
        exact h.foreseen_next (congrArg Prod.fst hnext)
      · contradiction
      · next slot n' w' hnext =>
        obtain ⟨row, hrow, -⟩ := exists_yields (congrArg Prod.fst hnext)
        rw [hnext] at hleft
        rw [hrow] at he
        exact ih hleft (exceptMap_eq_error_iff.mp he)

/-- The execution of a plan fails with a foreseen error. -/
theorem foreseen_execute {p : Plan} (hp : Operator.ofPlan p = .ok op) {flags : Flags}
    (he : execute ctx flags p w = .error e) : e.Foreseen (Operator.Raises · op) := by
  rw [execute, hp] at he
  have hrun : (runTree ctx flags op w).1 = .error e := exceptMap_eq_error_iff.mp he
  unfold runTree at hrun
  split at hrun
  · next e' n' hinit =>
    obtain rfl := Except.error.inj hrun
    exact foreseen_init (congrArg Prod.fst hinit)
  · next n' hinit => exact (pristine_of_init hinit).runs.foreseen_collectRows hrun

/-- Probing fails for the number of keys or for an evaluation. -/
theorem not_internal_probeHash? {build : HashBuild} {s : HashBuild.State} {row : Row}
    {keys : List Expr} (h : build.probeHash? s row keys = .error e) : ¬ e.Internal := by
  unfold HashBuild.probeHash? at h
  split at h
  · obtain rfl := Except.error.inj h
    exact nofun
  · split at h
    · next x _ =>
      obtain rfl := Except.error.inj h
      exact nofun
    · contradiction

/-- Whatever plan is accepted, and whatever was asked of its tree before: no request fails for a
check that holds already, nor does the execution of the plan. A request that the state of the root
allows, the states of all nodes allow, and it fails with a foreseen error, which is not that of a
node whose state does not allow what it is asked. Reservations of memory that are refused are
answered by the table. -/
theorem no_internal_error {p : Plan} (hp : Operator.ofPlan p = .ok op) :
    (∀ n, Leads op (fresh op) n → ∀ ctx (r : NodeRequest) w,
      (∀ e, (r.serve ctx op n w).1.error? = some e → ¬ e.Internal) ∧
      (r.AllowedIn n.base.state →
        (∀ x ∈ n.describe 0 op, r.AllowedIn x.2.2.state) ∧
        ∀ e, (r.serve ctx op n w).1.error? = some e →
          e.Foreseen (Operator.Raises · op) ∧
          ∀ (s : NodeState) kind operation, e ≠ s.refuse kind operation)) ∧
    (∀ ctx flags w e, execute ctx flags p w = .error e → ¬ e.Internal) ∧
    (∀ (build : HashBuild) s row keys e,
      build.probeHash? s row keys = .error e → ¬ e.Internal) ∧
    ∀ (t : HashTable) (x : SpilledTuple),
      t.placeReserved t.splitsLeft x = HashTable.reported (t.route x) := by
  refine ⟨?_, ?_, fun _ _ _ _ _ => not_internal_probeHash?, ?_⟩
  · intro n hn ctx r w
    refine ⟨?_, fun hallowed => ⟨allowed_of_leads hn hallowed, ?_⟩⟩
    · intro e he
      by_cases hallowed : r.AllowedIn n.base.state
      · exact (foreseen_of_leads hn hallowed he).not_internal
      · exact (refused_of_not_allowed hallowed he).not_internal
    · intro e he
      have hforeseen := foreseen_of_leads hn hallowed he
      exact ⟨hforeseen, hforeseen.ne_refuse⟩
  · intro ctx flags w e he
    exact (foreseen_execute hp he).not_internal
  · intro t x
    exact t.placeReserved_eq le_rfl x

/-- The statement is interrupted before a hash node has built its table. -/
theorem no_internal_error_interrupted :
    Operator.ofPlan (.hash (.seqScan (.ofHeap oneNumber) .forward none) [.column 0] false 0) =
        .ok hashedNumber ∧
      ∃ n, Leads hashedNumber (fresh hashedNumber) n ∧ NodeRequest.next.AllowedIn n.base.state ∧
        (NodeRequest.next.serve {} hashedNumber n { interrupted := true }).1.error? =
          some .canceled ∧
        ¬ Error.Internal .canceled ∧
        ∀ (s : NodeState) kind operation, Error.canceled ≠ s.refuse kind operation := by
  have hinit := (Leads.refl (n := fresh hashedNumber)).serve {} (.init {}) {}
  have hplan : Operator.ofPlan
      (.hash (.seqScan (.ofHeap oneNumber) .forward none) [.column 0] false 0) =
        .ok hashedNumber := rfl
  obtain ⟨hinternal, hallowed⟩ :=
    (no_internal_error hplan).1 _ hinit {} .next { interrupted := true }
  exact ⟨hplan, _, hinit, rfl, rfl, hinternal _ rfl, ((hallowed rfl).2 _ rfl).2⟩

end Node

end PullQuery
