import Mathlib.Data.List.Perm.Basic
import PullQuery.Node.BitmapScan
import PullQuery.Proofs.Expr.Truth
import PullQuery.Proofs.Index.Coverage

/-!
# Index scans and predicates

An index scan stands for a predicate on rows: the comparison of a column with an argument, or
the disjunction of equalities with several. Its bitmap has every row that satisfies the
predicate through an argument of the type of its key. A row whose key equals an argument of
another type, as an integer of other width does, satisfies the predicate as well; the index
leaves such keys out.

## Main definitions

* `IndexQual.test`: the comparison of a row with one argument
* `IndexQual.Means`: whether an expression is the predicate of a qualifier
* `IndexQual.SameType`: whether an argument has the type of a row's key

## Main results

* `pairwise_distinctKeys`: each key is looked up once
* `IndexScan.candidate_of_holds`: no row that satisfies the predicate within its type is missed
-/

namespace PullQuery

/-! ## Distinct keys -/

section DistinctKeys

variable {vs : List Value} {v : Value}

theorem mem_of_mem_sortedDistinct (h : v ∈ sortedDistinct vs) : v ∈ vs :=
  mem_sortBy.mp ((dropRepeats_sublist _ _).subset h)

theorem exists_mem_sortedDistinct (h : v ∈ vs) : ∃ k ∈ sortedDistinct vs, (v == k) = true :=
  exists_of_mem_dropRepeats Value.beq_refl (mem_sortBy.mpr h)

/-- The values increase strictly. -/
theorem pairwise_sortedDistinct (vs : List Value) :
    (sortedDistinct vs).Pairwise fun v w => compare v w = .lt := by
  have hsorted : (sortBy (fun v w : Value => (compare v w).isLE) vs).Pairwise
      fun v w => (compare v w).isLE := by
    apply pairwise_sortBy
    · intro v w
      have hswap : compare w v = (compare v w).swap := Std.OrientedCmp.eq_swap
      rw [hswap]
      cases compare v w <;> rfl
    · exact fun _ _ _ => Std.TransCmp.isLE_trans
  refine (pairwise_dropRepeats ?_ hsorted).imp ?_
  · -- A value between two equal ones is equal to them.
    intro u v w huv hvw hwu
    rw [← Value.compare_eq_eq_iff] at hwu ⊢
    rw [Std.TransCmp.congr_right hwu] at hvw
    exact Std.OrientedCmp.isLE_antisymm hvw huv
  · rintro v w ⟨hle, hne⟩
    rw [← Value.compare_eq_eq_iff, Std.OrientedCmp.eq_comm] at hne
    exact (Ordering.isLE_iff_eq_lt_or_eq_eq.mp hle).resolve_right hne

theorem of_mem_distinctKeys (h : v ∈ distinctKeys vs) : v ∈ vs ∧ v.isNull = false := by
  have hmem := mem_of_mem_sortedDistinct h
  simpa using List.mem_filter.mp hmem

/-- Each value other than NULL equals one of the keys. -/
theorem exists_mem_distinctKeys (h : v ∈ vs) (hnull : v.isNull = false) :
    ∃ k ∈ distinctKeys vs, (v == k) = true := by
  have hmem : v ∈ vs.filter fun v => !v.isNull := by
    rw [List.mem_filter, hnull, Bool.not_false]
    exact ⟨h, rfl⟩
  exact exists_mem_sortedDistinct hmem

/-- The keys increase strictly. -/
theorem pairwise_distinctKeys (vs : List Value) :
    (distinctKeys vs).Pairwise fun v w => compare v w = .lt := pairwise_sortedDistinct _

end DistinctKeys

/-! ## Predicates of qualifiers -/

/-- The comparison of expressions that a scan key stands for. -/
def ScanOp.comparison : ScanOp → Comparison
  | eq => .eq
  | lt => .lt
  | le => .le
  | gt => .gt
  | ge => .ge

theorem ScanOp.holds_eq (op : ScanOp) (v w : Value) :
    op.holds v w = op.comparison.holds (compare v w) := by
  cases op with
  | eq =>
    rw [holds, comparison, Comparison.holds, Bool.eq_iff_iff, ← Value.compare_eq_eq_iff,
      Ordering.isEq_iff_eq_eq]
  | _ => rfl

/-- Whether an expression is a disjunction of the equalities of a column with the arguments, in
order. -/
inductive AnyEqual (column : Nat) : List Expr → Expr → Prop where
  | none : AnyEqual column [] (.literal (.boolean false))
  | one (arg : Expr) : AnyEqual column [arg] (.equal (.column column) arg)
  | or {as bs : List Expr} {l r : Expr} (hl : AnyEqual column as l) (hr : AnyEqual column bs r) :
    AnyEqual column (as ++ bs) (.binary (.connective .or) l r)

namespace IndexQual

/-- The comparison of a row with one argument. -/
def test (q : IndexQual) (arg : Expr) : Expr :=
  .binary (.comparison q.op.comparison) (.column q.column) arg

/-- Whether an expression is the predicate of a qualifier. -/
def Means (q : IndexQual) (e : Expr) : Prop :=
  match q with
  | comparison column op arg => e = .binary (.comparison op.comparison) (.column column) arg
  | inList column args => AnyEqual column args e

/-- Whether an argument has the type of a row's key. -/
def SameType (q : IndexQual) (row : Row) (params : List Value) (arg : Expr) : Prop :=
  ∃ v w, row.get? q.column = some v ∧ arg.eval row params = .ok w ∧ v.type? = w.type?

variable {q : IndexQual} {row : Row} {params : List Value} {arg e : Expr}

theorem exists_of_anyEqual {column : Nat} {args : List Expr} (he : AnyEqual column args e)
    (h : e.eval row params = .ok (.boolean true)) :
    ∃ a ∈ args, (Expr.equal (.column column) a).eval row params = .ok (.boolean true) := by
  induction he with
  | none => simp [Expr.eval] at h
  | one arg => exact ⟨arg, List.mem_singleton_self arg, h⟩
  | or _ _ ihl ihr =>
    rcases Expr.operand_of_or h with h | h
    · obtain ⟨a, ha, heval⟩ := ihl h
      exact ⟨a, List.mem_append_left _ ha, heval⟩
    · obtain ⟨a, ha, heval⟩ := ihr h
      exact ⟨a, List.mem_append_right _ ha, heval⟩

/-- A row that satisfies the predicate satisfies it through one of the arguments. -/
theorem exists_test_of_means (he : q.Means e) (h : e.holds row params = .ok true) :
    ∃ a ∈ q.args, (q.test a).holds row params = .ok true := by
  cases q with
  | comparison column op arg =>
    obtain rfl : e = _ := he
    exact ⟨arg, List.mem_singleton_self arg, h⟩
  | inList column args =>
    obtain ⟨a, ha, heval⟩ := exists_of_anyEqual he (Expr.holds_eq_true_iff.mp h)
    exact ⟨a, ha, Expr.holds_eq_true_iff.mpr heval⟩

/-! ## Keys -/

theorem keys_of_evalAll {vs : List Value} (hvs : Expr.evalAll .empty params q.args = .ok vs) :
    q.keys params = .ok (distinctKeys vs) := by
  rw [keys, hvs]
  rfl

/-- The keys are the values of the arguments other than NULL, as far as keys tell values apart. -/
theorem keys_eq_ok {keys : List Value} (h : q.keys params = .ok keys) :
    ∃ vs, Expr.evalAll .empty params q.args = .ok vs ∧ (∀ k ∈ keys, k.isNull = false) ∧
      ∀ v ∈ vs, v.isNull = false → ∃ k ∈ keys, (v == k) = true := by
  obtain ⟨vs, hvs, rfl⟩ := exceptMap_eq_ok_iff.mp h
  exact ⟨vs, hvs, fun k hk => (of_mem_distinctKeys hk).2,
    fun v hv hnull => exists_mem_distinctKeys hv hnull⟩

/-- Each argument with a value other than NULL is among the keys. -/
theorem exists_key {keys : List Value} (h : q.keys params = .ok keys) (harg : arg ∈ q.args)
    {w : Value} (hw : arg.eval .empty params = .ok w) (hnull : w.isNull = false) :
    ∃ k ∈ keys, (w == k) = true := by
  obtain ⟨vs, hvs, -, hkeys⟩ := keys_eq_ok h
  obtain ⟨v, hv, heval⟩ := Expr.mem_of_evalAll hvs harg
  obtain rfl := Except.ok.inj (heval.symm.trans hw)
  exact hkeys v hv hnull

/-- Keys are missing only if an argument has no value. -/
theorem exists_of_keys_error {err : EvalError} (h : q.keys params = .error err) :
    ∃ a ∈ q.args, a.eval .empty params = .error err :=
  Expr.exists_of_evalAll_error (exceptMap_eq_error_iff.mp h)

/-- A row that satisfies a comparison within its type has a key in the index's sense of it. -/
theorem holds_of_test (h : (q.test arg).holds row params = .ok true)
    (htype : q.SameType row params arg) :
    ∃ v w, row.get? q.column = some v ∧ arg.eval row params = .ok w ∧ v.isNull = false ∧
      w.isNull = false ∧ v.type? = w.type? ∧ q.op.holds v w = true := by
  obtain ⟨v, w, o, hv, hw, hvnull, hwnull, hcompare, ho⟩ :=
    Expr.operands_of_comparison (Expr.holds_eq_true_iff.mp h)
  obtain ⟨v', w', hv', hw', htype⟩ := htype
  -- Both facts are about the same column and the same argument.
  have hget : (Expr.column q.column).eval row params = .ok v' := by rw [Expr.eval, hv']
  obtain rfl := Except.ok.inj (hget.symm.trans hv)
  obtain rfl := Except.ok.inj (hw'.symm.trans hw)
  rw [Value.compareAs_of_type_eq htype hvnull] at hcompare
  obtain rfl := Except.ok.inj hcompare
  exact ⟨v', w', hv', hw, hvnull, hwnull, htype, (q.op.holds_eq v' w').trans ho⟩

end IndexQual

namespace IndexScan

variable {x : OrderedIndex} {q : IndexQual}

/-- Collecting loses no candidate and finds those of every key. -/
theorem exists_collect (hcolumn : q.column = x.column) (keys : List Value) (m : TidBitmap)
    (calls : Nat) :
    ∃ m' n, collect ⟨x.toBitmapIndex, q⟩ keys m calls = (.ok m', n) ∧
      (∀ t, m.HasCandidate t → m'.HasCandidate t) ∧
      ∀ k ∈ keys, k.isNull = false → ∀ t ∈ x.matching ⟨q.column, q.op, k⟩, m'.HasCandidate t := by
  induction keys generalizing m calls with
  | nil => exact ⟨m, calls, rfl, fun _ h => h, fun _ hk => nomatch hk⟩
  | cons key keys ih =>
    obtain ⟨found, hbuild, hfound⟩ := OrderedIndex.exists_build
      (k := ⟨q.column, q.op, key⟩) hcolumn
    obtain ⟨m', n, hcollect, hkept, hkeys⟩ := ih (m.union found) (calls + 1)
    have hindex : x.toBitmapIndex.build ⟨q.column, q.op, key⟩ = .ok found := hbuild
    -- What one key finds is united with the bitmap so far, and later keys only add to it.
    refine ⟨m', n, ?_, ?_, ?_⟩
    · rw [collect, hindex]
      exact hcollect
    · intro t h
      exact hkept t (h.union_left found)
    · intro k hk hnull t ht
      rcases List.mem_cons.mp hk with rfl | hk
      · exact hkept t ((hfound hnull t ht).union_right m)
      · exact hkeys k hk hnull t ht

/-- A scan without a bitmap collects one for its keys and counts the calls. -/
theorem build_of_keys (scan : IndexScan) (ctx : Context) {c : BitmapCell} (hc : c.bitmap? = none)
    {keys : List Value} (hkeys : scan.qual.keys c.base.params = .ok keys) :
    let collected := scan.collect keys (.empty ctx.config.bitmapLimits) 0
    (scan.build ctx c).1 = collected.1 ∧
      (scan.build ctx c).2.base.counters.indexCalls =
        c.base.counters.indexCalls + collected.2 := by
  intro collected
  rcases hcollect : scan.collect keys (.empty ctx.config.bitmapLimits) 0 with ⟨_ | _, calls⟩
  · simp [build, hc, hkeys, collected, hcollect, BitmapCell.countCalls]
  · simp [build, hc, hkeys, collected, hcollect, BitmapCell.countCalls, BitmapCell.record]

/-- A scan with keys makes a bitmap of the rows under them. -/
theorem exists_build (hcolumn : q.column = x.column) (ctx : Context) {c : BitmapCell}
    (hc : c.bitmap? = none) {keys : List Value} (hkeys : q.keys c.base.params = .ok keys) :
    ∃ m, (build ⟨x.toBitmapIndex, q⟩ ctx c).1 = .ok m ∧
      ∀ k ∈ keys, ∀ t ∈ x.matching ⟨q.column, q.op, k⟩, m.HasCandidate t := by
  obtain ⟨m, n, hcollect, -, hfound⟩ :=
    exists_collect hcolumn keys (.empty ctx.config.bitmapLimits) 0
  obtain ⟨_, -, hnull, -⟩ := IndexQual.keys_eq_ok hkeys
  refine ⟨m, ?_, fun k hk => hfound k hk (hnull k hk)⟩
  rw [(build_of_keys ⟨x.toBitmapIndex, q⟩ ctx hc hkeys).1, hcollect]

theorem build_of_keys_error {ctx : Context} {c : BitmapCell} {err : EvalError}
    (hc : c.bitmap? = none) (hkeys : q.keys c.base.params = .error err) :
    (build ⟨x.toBitmapIndex, q⟩ ctx c).1 = .error err.toError := by
  rw [build, hc]
  dsimp only
  rw [hkeys]

/-- A scan of an index that covers some rows makes its bitmap unless an argument has no value,
whatever row it is evaluated on; then it fails with the error of that argument. A row that
satisfies the predicate of the scan does so through an argument; and it is a candidate of the
bitmap if one of the arguments through which it does has the type of its key. -/
theorem candidate_of_holds {rows : List (Tid × Row)} (hcovers : x.Covers rows)
    (hcolumn : q.column = x.column) (hargs : ∀ a ∈ q.args, a.isRowIndependent = true)
    {e : Expr} (he : q.Means e) (ctx : Context) {c : BitmapCell} (hc : c.bitmap? = none) :
    (∀ r ∈ rows, e.holds r.2 c.base.params = .ok true →
      ∃ a ∈ q.args, (q.test a).holds r.2 c.base.params = .ok true) ∧
    match (build ⟨x.toBitmapIndex, q⟩ ctx c).1 with
    | .ok m => ∀ r ∈ rows, e.holds r.2 c.base.params = .ok true →
        ∀ a ∈ q.args, (q.test a).holds r.2 c.base.params = .ok true →
          q.SameType r.2 c.base.params a → m.HasCandidate r.1
    | .error failure => ∃ a ∈ q.args, ∃ err, failure = err.toError ∧
        ∀ row, a.eval row c.base.params = .error err := by
  refine ⟨fun _ _ hholds => IndexQual.exists_test_of_means he hholds, ?_⟩
  rcases hkeys : q.keys c.base.params with err | keys
  · -- Arguments do not read rows, so that they have no value for any row.
    rw [build_of_keys_error hc hkeys]
    obtain ⟨a, ha, heval⟩ := IndexQual.exists_of_keys_error hkeys
    refine ⟨a, ha, err, rfl, ?_⟩
    intro row
    exact (Expr.eval_eq_of_isRowIndependent (hargs a ha) row .empty).trans heval
  · obtain ⟨m, hbuild, hfound⟩ := exists_build hcolumn ctx hc hkeys
    rw [hbuild]
    intro r hr _ a ha htest hsame
    obtain ⟨v, w, hv, hw, hvnull, hwnull, htype, hop⟩ := IndexQual.holds_of_test htest hsame
    -- The argument has the same value without a row, and a key that equals it.
    rw [Expr.eval_eq_of_isRowIndependent (hargs a ha) r.2 .empty] at hw
    obtain ⟨k, hk, hsamekey⟩ := IndexQual.exists_key hkeys ha hw hwnull
    rw [hcolumn] at hv
    refine hfound k hk r.1 (hcovers.mem_matching hr hv hvnull ?_ ?_)
    · exact (q.op.holds_congr_right hsamekey v) ▸ hop
    · exact htype.trans (Value.type?_eq_of_beq hsamekey)

/-- Two rows with the same number as an integer of either width. -/
def mixedRows : List (Tid × Row) := [(⟨0, 1⟩, ⟨[.int32 5]⟩), (⟨0, 2⟩, ⟨[.int64 5]⟩)]

/-- An index on these rows. -/
def mixedIndex : OrderedIndex := OrderedIndex.indexRows { name := "a_idx", column := 0 } mixedRows

theorem covers_mixedIndex : mixedIndex.Covers mixedRows := by
  have hempty : OrderedIndex.Covers { name := "a_idx", column := 0 } [] := fun _ hr => nomatch hr
  exact hempty.indexRows mixedRows

/-- The rows equal to a number of the greater width. -/
def wideQual : IndexQual := .comparison 0 .eq (.literal (.int64 5))

theorem candidate_of_holds_wide :
    ∃ m, (build ⟨mixedIndex.toBitmapIndex, wideQual⟩ {} {}).1 = .ok m ∧
      m.HasCandidate ⟨0, 2⟩ := by
  have h := (candidate_of_holds covers_mixedIndex (q := wideQual) rfl (by decide) rfl {}
    (c := {}) rfl).2
  rcases hbuild : (build ⟨mixedIndex.toBitmapIndex, wideQual⟩ {} {}).1 with err | m
  · obtain ⟨a, ha, err, -, heval⟩ := hbuild ▸ h
    obtain rfl := List.mem_singleton.mp ha
    have hvalue : (Expr.literal (.int64 5)).eval .empty [] = .ok (.int64 5) := rfl
    have hboth := hvalue.symm.trans (heval .empty)
    contradiction
  · rw [hbuild] at h
    exact ⟨m, rfl, h (⟨0, 2⟩, ⟨[.int64 5]⟩) (.tail _ (.head _)) (by decide) _
      (List.mem_singleton_self _) (by decide) ⟨_, _, rfl, rfl, rfl⟩⟩

/-- The row with the number in the lesser width satisfies the predicate and is missed. -/
theorem not_candidate_of_narrow :
    mixedIndex.Covers mixedRows ∧ (⟨0, 1⟩, ⟨[.int32 5]⟩) ∈ mixedRows ∧
    wideQual.Means (.binary (.comparison .eq) (.column 0) (.literal (.int64 5))) ∧
    Expr.holds ⟨[.int32 5]⟩ [] (.binary (.comparison .eq) (.column 0) (.literal (.int64 5))) =
      .ok true ∧
    ∃ m, (build ⟨mixedIndex.toBitmapIndex, wideQual⟩ {} {}).1 = .ok m ∧
      ¬ m.HasCandidate ⟨0, 1⟩ :=
  ⟨covers_mixedIndex, .head _, rfl, by decide, _, rfl, not_not_intro rfl⟩

end IndexScan

end PullQuery
