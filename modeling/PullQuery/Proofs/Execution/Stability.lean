import PullQuery.Proofs.Execution.Walk
import PullQuery.Proofs.Heap.Locations

/-!
# A snapshot of a changing heap

Transactions that had not finished when a snapshot was taken go on changing the heap: they insert
versions and stamp versions as deleted. A scan under the snapshot returns the same rows before and
after, if none of them stamps a version that the snapshot saw deleted. Such a stamp takes the
place of the one before it, and the version is visible again.

## Main definitions

* `HeapChange`, `Heap.change?`: changes that succeed
* `Snapshot.Outside`: transactions that a snapshot has not seen finish
* `HeapChange.revives`, `Heap.revivesAny`: changes that bring a deleted version back
* `scanRows`: what a scan of a heap returns

## Main results

* `scanRows_eq`: a scan returns the rows of the visible versions that its condition accepts
* `Heap.visibleRows_serve_of_not_revives`, `Heap.length_visibleRows_serve_of_revives`: one change
* `scanRows_change_iff`: scans are stable exactly if no deleted version is brought back
* `not_scanRows_stable_deletedAgain`: a run that brings one back
-/

namespace PullQuery

/-! ## Rows of a scan -/

/-- The rows of the versions that an oracle sees. -/
def visibleRows (sees : HeapTuple → Bool) (ts : List HeapTuple) : List Row :=
  (ts.filter sees).map (·.row)

/-- The rows that a condition accepts, up to the first that it cannot be evaluated on. -/
def acceptedRows (qual? : Option Expr) (params : List Value) :
    List Row → Except EvalError (List Row)
  | [] => .ok []
  | row :: rows =>
    match qual?.elim (.ok true) (·.holds row params) with
    | .error e => .error e
    | .ok false => acceptedRows qual? params rows
    | .ok true => (acceptedRows qual? params rows).map (row :: ·)

theorem acceptedRows_none (params : List Value) (rows : List Row) :
    acceptedRows none params rows = .ok rows := by
  induction rows with
  | nil => rfl
  | cons row rows ih =>
    rw [acceptedRows, ih]
    rfl

section Rows

variable {sees : HeapTuple → Bool} {t : HeapTuple} {ts : List HeapTuple}

theorem visibleRows_cons_of_pos (h : sees t = true) :
    visibleRows sees (t :: ts) = t.row :: visibleRows sees ts := by
  rw [visibleRows, List.filter_cons_of_pos h]
  rfl

theorem visibleRows_cons_of_neg (h : ¬ sees t = true) :
    visibleRows sees (t :: ts) = visibleRows sees ts := by
  rw [visibleRows, List.filter_cons_of_neg h]
  rfl

theorem visibleRows_concat_of_neg (h : ¬ sees t = true) :
    visibleRows sees (ts ++ [t]) = visibleRows sees ts := by
  simp [visibleRows, h]

theorem visibleRows_reverse : visibleRows sees ts.reverse = (visibleRows sees ts).reverse := by
  rw [visibleRows, List.filter_reverse, List.map_reverse]
  rfl

theorem length_visibleRows : (visibleRows sees ts).length = ts.countP sees := by
  rw [visibleRows, List.length_map, List.countP_eq_length_filter]

/-- A walk without projections depends on the visible rows alone. -/
theorem walk_eq_acceptedRows {ctx : Context} {qual? : Option Expr} (ts : List HeapTuple) :
    walk ctx qual? [] ts =
      acceptedRows qual? ctx.params (visibleRows (ctx.oracle.sees ctx.snapshot) ts) := by
  induction ts with
  | nil => rfl
  | cons t ts ih =>
    rw [walk]
    by_cases hsees : ctx.oracle.sees ctx.snapshot t = true
    · rw [if_pos hsees, visibleRows_cons_of_pos hsees, acceptedRows, ← ih]
      rfl
    · rw [if_neg hsees, visibleRows_cons_of_neg hsees, ih]

end Rows

/-- The rows that a scan of a heap returns. -/
def scanRows (ctx : Context) (direction : Direction) (qual? : Option Expr) (heap : Heap) :
    Except Error (List Row) :=
  (execute ctx {} (.seqScan (.ofHeap heap) direction qual?) {}).map QueryOutput.rows

/-- A scan returns the rows of the visible versions that its condition accepts. -/
theorem scanRows_eq {ctx : Context} (hctx : ∀ k, ctx.oracle.interrupts k = false)
    (direction : Direction) (qual? : Option Expr) (heap : Heap) :
    scanRows ctx direction qual? heap =
      (acceptedRows qual? ctx.params
        (visibleRows (ctx.oracle.sees ctx.snapshot) (heap.inOrder direction))).mapError
          EvalError.toError := by
  have hscan : (Operator.seqScan ⟨.ofHeap heap, direction, qual?⟩).IsScan := trivial
  have hreliable : (Operator.seqScan ⟨.ofHeap heap, direction, qual?⟩).Reliable :=
    Relation.reliable_ofHeap heap
  have hplan : Operator.ofPlan (.seqScan (.ofHeap heap) direction qual?) =
      .ok (.seqScan ⟨.ofHeap heap, direction, qual?⟩) := rfl
  obtain ⟨n, hinit⟩ := Node.exists_init ctx hscan hreliable
  have hready := Node.ready_init hscan hinit
  have hcalm : Session.Calm ctx {} := ⟨rfl, hctx⟩
  have hlimit := Nat.lt_succ_of_le (Nat.le_of_eq hready.rowsAhead_eq.symm)
  rw [scanRows, execute_rows hplan, runTree, hinit]
  dsimp only
  rw [collectRows_of_ready hreliable hready hcalm hlimit]
  -- The scan is the case without layers.
  have hwalk : collectOutcomes ((Operator.seqScan ⟨.ofHeap heap, direction, qual?⟩).layered []
      |>.outcome ctx ctx.params) (heap.inOrder direction) =
        walk ctx qual? [] (heap.inOrder direction) :=
    collectOutcomes_layered (heap.inOrder direction)
  rw [← walk_eq_acceptedRows, ← hwalk]
  rfl

/-! ## Changes -/

/-- A change that a transaction makes to a heap. -/
inductive HeapChange where
  | insert (row : Row) (x : TxId)
  | delete (tid : Tid) (x : TxId)

/-- The transaction that makes a change. -/
def HeapChange.tx : HeapChange → TxId
  | insert _ x => x
  | delete _ x => x

namespace Heap

/-- The heap after a change, if it succeeds. -/
def serve? (h : Heap) : HeapChange → Option Heap
  | .insert row x => if h.hasRoom then some (h.insert row x).2 else none
  | .delete tid x => (h.delete tid x).toOption

/-- The heap after changes in turn, if all succeed. -/
def change? : List HeapChange → Heap → Option Heap
  | [], h => some h
  | c :: cs, h => (h.serve? c).bind (change? cs)

end Heap

/-! ## Visibility after changes -/

/-- Whether a transaction is neither the snapshot's own nor had finished when it was taken. -/
structure Snapshot.Outside (s : Snapshot) (x : TxId) : Prop where
  ne_none : x ≠ TxId.none
  ne_current : x ≠ s.current
  unfinished : s.sawFinished x = false

/-- Whether a snapshot sees the insertion of a version. -/
def seesInsertion (aborted : List TxId) (s : Snapshot) (t : HeapTuple) : Bool :=
  s.isOwn t.xmin || committedBefore aborted s t.xmin

/-- Whether a change stamps a version that the snapshot saw deleted. -/
def HeapChange.revives (aborted : List TxId) (s : Snapshot) (h : Heap) : HeapChange → Bool
  | insert _ _ => false
  | delete tid _ => (h.get? tid).any fun t => seesInsertion aborted s t && !isVisible aborted s t

/-- Whether one of the changes in turn stamps a version that the snapshot saw deleted. -/
def Heap.revivesAny (aborted : List TxId) (s : Snapshot) : List HeapChange → Heap → Bool
  | [], _ => false
  | c :: cs, h => c.revives aborted s h || (h.serve? c).any (revivesAny aborted s cs)

section Visibility

variable {aborted : List TxId} {s : Snapshot} {x : TxId} {t : HeapTuple} {ts : List HeapTuple}
  {tid : Tid}

namespace Snapshot.Outside

theorem isOwn_eq (h : s.Outside x) : s.isOwn x = false := by
  rw [Snapshot.isOwn, beq_false_of_ne h.ne_current, Bool.and_false]

theorem committedBefore_eq (h : s.Outside x) : committedBefore aborted s x = false := by
  rw [committedBefore, h.unfinished, Bool.and_false]

/-- A version that is inserted later is not seen. -/
theorem not_isVisible_insert (h : s.Outside x) (hany : s.isAny = false) (tid : Tid) (row : Row) :
    ¬ isVisible aborted s ⟨tid, x, TxId.none, row⟩ = true := by
  simp [isVisible, hany, h.isOwn_eq, h.committedBefore_eq]

/-- A version that is stamped later is seen if its insertion is. -/
theorem isVisible_stamp (h : s.Outside x) (hany : s.isAny = false) (t : HeapTuple) :
    isVisible aborted s { t with xmax := x } = seesInsertion aborted s t := by
  simp [isVisible, seesInsertion, hany, h.isOwn_eq, h.committedBefore_eq]

end Snapshot.Outside

theorem seesInsertion_of_isVisible (hany : s.isAny = false) (h : isVisible aborted s t = true) :
    seesInsertion aborted s t = true := by
  rw [isVisible, hany, Bool.false_or, Bool.and_eq_true] at h
  exact h.1

/-- Whether a version is seen once the version at a location has been stamped. -/
theorem isVisible_stamped (hx : s.Outside x) (hany : s.isAny = false) (t : HeapTuple) :
    isVisible aborted s (if t.tid = tid then { t with xmax := x } else t) =
      if t.tid = tid then seesInsertion aborted s t else isVisible aborted s t := by
  split
  · exact hx.isVisible_stamp hany t
  · rfl

/-- Stamping a version that was not seen deleted changes nothing that is seen. -/
theorem visibleRows_stamp (hx : s.Outside x) (hany : s.isAny = false)
    (h : ∀ t ∈ ts, t.tid = tid → seesInsertion aborted s t = true → isVisible aborted s t = true) :
    visibleRows (isVisible aborted s) (HeapTuple.stamp tid x ts) =
      visibleRows (isVisible aborted s) ts := by
  induction ts with
  | nil => rfl
  | cons t ts ih =>
    have hrest := ih fun u hu => h u (List.mem_cons_of_mem t hu)
    have hrow : (if t.tid = tid then { t with xmax := x } else t).row = t.row := by
      split <;> rfl
    have hsame : isVisible aborted s (if t.tid = tid then { t with xmax := x } else t) =
        isVisible aborted s t := by
      rw [isVisible_stamped hx hany]
      split
      · next htid =>
        -- Its insertion is seen exactly if it is seen itself.
        apply Bool.eq_iff_iff.mpr
        constructor
        · exact h t (List.mem_cons_self ..) htid
        · exact seesInsertion_of_isVisible hany
      · rfl
    have hcons : HeapTuple.stamp tid x (t :: ts) =
        (if t.tid = tid then { t with xmax := x } else t) :: HeapTuple.stamp tid x ts := rfl
    rw [hcons]
    by_cases hsees : isVisible aborted s t = true
    · rw [visibleRows_cons_of_pos (hsame.trans hsees), visibleRows_cons_of_pos hsees, hrow, hrest]
    · rw [visibleRows_cons_of_neg (hsame ▸ hsees), visibleRows_cons_of_neg hsees, hrest]

theorem countP_stamp (hx : s.Outside x) (hany : s.isAny = false) (ts : List HeapTuple) :
    (HeapTuple.stamp tid x ts).countP (isVisible aborted s) =
      ts.countP fun t =>
        if t.tid = tid then seesInsertion aborted s t else isVisible aborted s t := by
  rw [HeapTuple.stamp, List.countP_map]
  apply List.countP_congr
  intro t _
  rw [Function.comp_apply, isVisible_stamped hx hany]

/-- Stamping a version that was seen deleted brings its row back. -/
theorem length_visibleRows_stamp (hx : s.Outside x) (hany : s.isAny = false) (ht : t ∈ ts)
    (hinsertion : seesInsertion aborted s t = true) (hgone : isVisible aborted s t = false) :
    (visibleRows (isVisible aborted s) ts).length <
      (visibleRows (isVisible aborted s) (HeapTuple.stamp t.tid x ts)).length := by
  rw [length_visibleRows, length_visibleRows, countP_stamp hx hany]
  have hmono : ∀ us : List HeapTuple, us.countP (isVisible aborted s) ≤
      us.countP fun u =>
        if u.tid = t.tid then seesInsertion aborted s u else isVisible aborted s u := by
    intro us
    apply List.countP_mono_left
    intro u _ hu
    split
    · exact seesInsertion_of_isVisible hany hu
    · exact hu
  obtain ⟨before, after, rfl⟩ := List.append_of_mem ht
  rw [List.countP_append, List.countP_append, List.countP_cons_of_neg (by simp [hgone]),
    List.countP_cons_of_pos (by simp [hinsertion])]
  have hbefore := hmono before
  have hafter := hmono after
  omega

/-! ### One change -/

namespace Heap

variable {c : HeapChange} {h h' : Heap}

theorem tuples_serve_delete (hserve : h.serve? (.delete tid x) = some h') :
    h'.tuples = HeapTuple.stamp tid x h.tuples := by
  rw [serve?] at hserve
  rcases hdelete : h.delete tid x with e | h₁
  · rw [hdelete] at hserve
    contradiction
  · rw [hdelete] at hserve
    obtain rfl := Option.some.inj hserve
    exact tuples_delete hdelete

/-- A change that brings no deleted version back leaves the rows that are seen as they are. -/
theorem visibleRows_serve_of_not_revives (hany : s.isAny = false) (hc : s.Outside c.tx)
    (hserve : h.serve? c = some h') (hrevives : c.revives aborted s h = false) :
    visibleRows (isVisible aborted s) h'.tuples = visibleRows (isVisible aborted s) h.tuples := by
  cases c with
  | insert row x =>
    rw [serve?] at hserve
    split at hserve
    · next hroom =>
      obtain rfl := Option.some.inj hserve
      -- The new version stands behind all the others and is not seen.
      rw [tuples_insert hroom]
      exact visibleRows_concat_of_neg (hc.not_isVisible_insert hany _ _)
    · contradiction
  | delete tid x =>
    rw [tuples_serve_delete hserve]
    apply visibleRows_stamp hc hany
    rintro t ht rfl hinsertion
    rw [HeapChange.revives, get?_of_mem ht, Option.any_some, hinsertion, Bool.true_and] at hrevives
    simpa using hrevives

/-- A change that brings a deleted version back makes one more row visible. -/
theorem length_visibleRows_serve_of_revives (hany : s.isAny = false) (hc : s.Outside c.tx)
    (hserve : h.serve? c = some h') (hrevives : c.revives aborted s h = true) :
    (visibleRows (isVisible aborted s) h.tuples).length <
      (visibleRows (isVisible aborted s) h'.tuples).length := by
  cases c with
  | insert row x => contradiction
  | delete tid x =>
    rcases hget : h.get? tid with _ | t
    · simp [HeapChange.revives, hget] at hrevives
    · rw [HeapChange.revives, hget, Option.any_some, Bool.and_eq_true,
        Bool.not_eq_true'] at hrevives
      obtain ⟨hmem, rfl⟩ := get?_eq_some_iff.mp hget
      rw [tuples_serve_delete hserve]
      exact length_visibleRows_stamp hc hany hmem hrevives.1 hrevives.2

/-! ### Any changes -/

/-- Changes leave the rows that are seen as they are, unless one brings a deleted version back;
then there are more of them. -/
theorem visibleRows_change (aborted : List TxId) {cs : List HeapChange} (hany : s.isAny = false)
    (hcs : ∀ c ∈ cs, s.Outside c.tx) (hchange : h.change? cs = some h') :
    if h.revivesAny aborted s cs then
      (visibleRows (isVisible aborted s) h.tuples).length <
        (visibleRows (isVisible aborted s) h'.tuples).length
    else
      visibleRows (isVisible aborted s) h'.tuples = visibleRows (isVisible aborted s) h.tuples := by
  induction cs generalizing h with
  | nil =>
    obtain rfl := Option.some.inj hchange
    rfl
  | cons c cs ih =>
    obtain ⟨h₁, hserve, hrest⟩ := Option.bind_eq_some_iff.mp hchange
    have hc := hcs c (List.mem_cons_self ..)
    have htail := ih (fun d hd => hcs d (List.mem_cons_of_mem c hd)) hrest
    rw [revivesAny, hserve, Option.any_some]
    rcases hrevives : c.revives aborted s h with _ | _
    · -- The first change shows nowhere, and the others decide.
      rw [Bool.false_or, ← visibleRows_serve_of_not_revives hany hc hserve hrevives]
      exact htail
    · -- The row that came back stays visible.
      have hmore := length_visibleRows_serve_of_revives hany hc hserve hrevives
      rw [Bool.true_or, if_pos rfl]
      split at htail
      · exact Nat.lt_trans hmore htail
      · rwa [htail]

end Heap

end Visibility

/-- Scans under a snapshot return the same rows before and after changes by transactions that had
not finished when it was taken, exactly if none of the changes stamps a version that the snapshot
saw deleted. -/
theorem scanRows_change_iff {ctx : Context} {aborted : List TxId}
    (horacle : ctx.oracle = .mvcc aborted) (hany : ctx.snapshot.isAny = false)
    {cs : List HeapChange} (hcs : ∀ c ∈ cs, ctx.snapshot.Outside c.tx) {h h' : Heap}
    (hchange : h.change? cs = some h') :
    (∀ direction qual?, scanRows ctx direction qual? h' = scanRows ctx direction qual? h) ↔
      h.revivesAny aborted ctx.snapshot cs = false := by
  have hsees : ctx.oracle.sees ctx.snapshot = isVisible aborted ctx.snapshot := by
    rw [horacle]
    rfl
  have hcalm : ∀ k, ctx.oracle.interrupts k = false := by
    intro k
    rw [horacle]
    rfl
  have hrows := Heap.visibleRows_change aborted hany hcs hchange
  constructor
  · intro hstable
    -- A scan without a condition returns all rows that are seen.
    have hall : visibleRows (isVisible aborted ctx.snapshot) h'.tuples =
        visibleRows (isVisible aborted ctx.snapshot) h.tuples := by
      have hsame := hstable .forward none
      rw [scanRows_eq hcalm, scanRows_eq hcalm, acceptedRows_none, acceptedRows_none,
        hsees] at hsame
      exact Except.ok.inj hsame
    rw [hall] at hrows
    by_contra hrevives
    rw [Bool.not_eq_false] at hrevives
    rw [if_pos hrevives] at hrows
    exact Nat.lt_irrefl _ hrows
  · intro hrevives direction qual?
    rw [hrevives, if_neg Bool.false_ne_true] at hrows
    have hordered : visibleRows (isVisible aborted ctx.snapshot) (h'.inOrder direction) =
        visibleRows (isVisible aborted ctx.snapshot) (h.inOrder direction) := by
      cases direction with
      | forward => exact hrows
      | backward =>
        rw [Heap.inOrder, Heap.inOrder, visibleRows_reverse, visibleRows_reverse, hrows]
    rw [scanRows_eq hcalm, scanRows_eq hcalm, hsees, hordered]

/-- A snapshot that was taken while transaction 12 was in progress. -/
def during12 : Context := { snapshot := .ofBounds 10 20 [12], oracle := .mvcc [] }

/-- Two versions, of which the first was deleted long ago. -/
def firstDeleted : Heap :=
  let empty : Heap := { name := "t", shape := ⟨[⟨"a", .int64⟩]⟩ }
  ((empty.store ⟨⟨0, 1⟩, 5, 6, ⟨[.int64 1]⟩⟩ (by decide)).insert ⟨[.int64 2]⟩ 5).2

/-- The second version is deleted, and another one inserted. -/
def secondReplaced : List HeapChange := [.delete ⟨0, 2⟩ 12, .insert ⟨[.int64 3]⟩ 25]

theorem scanRows_change_secondReplaced :
    (∀ c ∈ secondReplaced, during12.snapshot.Outside c.tx) ∧
    ∃ h', firstDeleted.change? secondReplaced = some h' ∧
      ∀ direction qual?,
        scanRows during12 direction qual? h' = scanRows during12 direction qual? firstDeleted := by
  have hcs : ∀ c ∈ secondReplaced, during12.snapshot.Outside c.tx := by
    intro c hc
    rcases List.mem_pair.mp hc with rfl | rfl
    · exact ⟨by decide, by decide, by decide⟩
    · exact ⟨by decide, by decide, by decide⟩
  exact ⟨hcs, _, rfl, (scanRows_change_iff rfl rfl hcs rfl).mpr (by decide)⟩

/-- A transaction that deletes the first version once more brings it back. -/
theorem not_scanRows_stable_deletedAgain :
    during12.snapshot.Outside 25 ∧
    during12.snapshot.sawFinished 6 = true ∧
    scanRows during12 .forward none firstDeleted = .ok [⟨[.int64 2]⟩] ∧
    ∃ h', firstDeleted.change? [.delete ⟨0, 1⟩ 25] = some h' ∧
      scanRows during12 .forward none h' = .ok [⟨[.int64 1]⟩, ⟨[.int64 2]⟩] :=
  ⟨⟨by decide, by decide, by decide⟩, by decide, rfl, _, rfl, rfl⟩

end PullQuery
