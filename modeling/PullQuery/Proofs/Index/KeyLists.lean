import Mathlib.Data.Set.Card
import PullQuery.Proofs.Bitmap.Additions
import PullQuery.Proofs.Bitmap.Unions
import PullQuery.Proofs.Index.Multiset
import PullQuery.Proofs.Index.Scan

/-!
# Lists of keys

A scan for the rows whose key is one of several depends only on the set of these keys. Arguments
in another order, repeated, equal to one another or NULL make no difference to its bitmap, not
even to what the memory limits make of it, nor to how often it calls the index.

## Main definitions

* `Key`: values as an index tells them apart
* `keySet`: the keys of a list of values

## Main results

* `map_of_distinctKeys_congr`, `length_distinctKeys`: the keys that a scan looks up
* `OrderedIndex.build_congr`: equal values are answered alike
* `IndexScan.known_build_le_iff`: what a scan knows about a block
* `IndexScan.build_determined_by_keySet`
-/

namespace PullQuery

/-! ## Values as keys -/

/-- The values that are equal as keys, such as the two zeros. -/
def Value.sameKey : Setoid Value where
  r v w := (v == w) = true
  iseqv :=
    { refl := Value.beq_refl
      symm := Value.beq_symm
      trans := fun {u _ _} huv hvw => (Value.beq_congr_right hvw u) ▸ huv }

/-- A value as an index tells it apart from others. -/
def Key : Type := Quotient Value.sameKey

namespace Key

variable {v w : Value}

def of (v : Value) : Key := Quotient.mk Value.sameKey v

theorem of_eq_of_iff : of v = of w ↔ (v == w) = true :=
  ⟨Quotient.exact, fun h => Quotient.sound h⟩

instance : Ord Key where
  compare := Quotient.lift₂ compare fun _ _ _ _ hv hw =>
    (Std.TransCmp.congr_left (Value.compare_eq_eq_iff.mpr hv)).trans
      (Std.TransCmp.congr_right (Value.compare_eq_eq_iff.mpr hw))

theorem compare_of (v w : Value) : compare (of v) (of w) = compare v w := rfl

instance : Std.OrientedOrd Key where
  eq_swap {k l} := by
    induction k, l using Quotient.inductionOn₂ with
    | _ v w => exact (compare_of v w).trans Std.OrientedCmp.eq_swap

end Key

/-- The keys of values. NULL is no key. -/
def keySet (vs : List Value) : Set Key := {k | ∃ v ∈ vs, v.isNull = false ∧ Key.of v = k}

variable {vs ws : List Value} {v w : Value}

/-- Values have the same keys if each value other than NULL equals one on the other side. -/
theorem keySet_eq_iff :
    keySet vs = keySet ws ↔
      (∀ v ∈ vs, v.isNull = false → ∃ w ∈ ws, (v == w) = true) ∧
        ∀ w ∈ ws, w.isNull = false → ∃ v ∈ vs, (w == v) = true := by
  have hsubset : ∀ vs ws : List Value, keySet vs ⊆ keySet ws ↔
      ∀ v ∈ vs, v.isNull = false → ∃ w ∈ ws, (v == w) = true := by
    intro vs ws
    constructor
    · intro h v hv hnull
      obtain ⟨w, hw, -, hwv⟩ := h ⟨v, hv, hnull, rfl⟩
      exact ⟨w, hw, Key.of_eq_of_iff.mp hwv.symm⟩
    · rintro h _ ⟨v, hv, hnull, rfl⟩
      obtain ⟨w, hw, hvw⟩ := h v hv hnull
      -- An equal value has the same type, so that it is not NULL either.
      exact ⟨w, hw, Value.isNull_eq_of_type? (Value.type?_eq_of_beq hvw) ▸ hnull,
        (Key.of_eq_of_iff.mpr hvw).symm⟩
  rw [Set.Subset.antisymm_iff, hsubset, hsubset]

/-! ## The keys that a scan looks up -/

theorem mem_map_distinctKeys_iff {k : Key} : k ∈ (distinctKeys vs).map Key.of ↔ k ∈ keySet vs := by
  rw [List.mem_map]
  constructor
  · rintro ⟨v, hv, rfl⟩
    obtain ⟨hmem, hnull⟩ := of_mem_distinctKeys hv
    exact ⟨v, hmem, hnull, rfl⟩
  · rintro ⟨v, hv, hnull, rfl⟩
    obtain ⟨w, hw, hvw⟩ := exists_mem_distinctKeys hv hnull
    exact ⟨w, hw, (Key.of_eq_of_iff.mpr hvw).symm⟩

theorem pairwise_map_distinctKeys (vs : List Value) :
    ((distinctKeys vs).map Key.of).Pairwise fun k l => compare k l = .lt :=
  List.pairwise_map.mpr (pairwise_distinctKeys vs)

theorem nodup_map_distinctKeys (vs : List Value) : ((distinctKeys vs).map Key.of).Nodup := by
  refine (pairwise_map_distinctKeys vs).imp ?_
  rintro k _ hlt rfl
  exact Std.OrientedCmp.not_lt_of_lt hlt hlt

/-- Values with the same keys give the same keys in the same order. -/
theorem map_of_distinctKeys_congr (h : keySet vs = keySet ws) :
    (distinctKeys vs).map Key.of = (distinctKeys ws).map Key.of := by
  have hperm : ((distinctKeys vs).map Key.of).Perm ((distinctKeys ws).map Key.of) := by
    rw [List.perm_ext_iff_of_nodup (nodup_map_distinctKeys vs) (nodup_map_distinctKeys ws)]
    intro k
    rw [mem_map_distinctKeys_iff, mem_map_distinctKeys_iff, h]
  refine hperm.eq_of_pairwise ?_ (pairwise_map_distinctKeys vs) (pairwise_map_distinctKeys ws)
  intro k l _ _ hkl hlk
  exact absurd hlk (Std.OrientedCmp.not_lt_of_lt hkl)

theorem length_distinctKeys (vs : List Value) : (distinctKeys vs).length = (keySet vs).ncard := by
  classical
  have hset : keySet vs = (((distinctKeys vs).map Key.of).toFinset : Set Key) := by
    ext k
    rw [← mem_map_distinctKeys_iff, Finset.mem_coe, List.mem_toFinset]
  rw [hset, Set.ncard_coe_finset, List.toFinset_card_of_nodup (nodup_map_distinctKeys vs),
    List.length_map]

/-! ## Answers to keys -/

/-- An index answers equal values alike. -/
theorem OrderedIndex.build_congr {x : OrderedIndex} {column : Nat} {op : ScanOp}
    (h : (v == w) = true) : x.build ⟨column, op, v⟩ = x.build ⟨column, op, w⟩ := by
  have hmatching : x.matching ⟨column, op, v⟩ = x.matching ⟨column, op, w⟩ := by
    simp only [matching, ScanKey.contains_range, op.holds_congr_right h, Value.type?_eq_of_beq h]
  rw [build, build, hmatching, Value.isNull_eq_of_type? (Value.type?_eq_of_beq h)]

namespace IndexScan

variable {x : OrderedIndex} {q : IndexQual} {scan : IndexScan} {ctx : Context} {c : BitmapCell}
  {limit : Nat} {m : TidBitmap}

/-- Equal keys are collected alike, whatever arguments they are from. -/
theorem collect_congr {column : Nat} {xs ys : List Expr} {keys keys' : List Value}
    (h : keys.map Key.of = keys'.map Key.of) (m : TidBitmap) (calls : Nat) :
    collect ⟨x.toBitmapIndex, .inList column xs⟩ keys m calls =
      collect ⟨x.toBitmapIndex, .inList column ys⟩ keys' m calls := by
  induction keys generalizing keys' m calls with
  | nil =>
    obtain rfl := List.map_eq_nil_iff.mp h.symm
    rfl
  | cons key keys ih =>
    obtain ⟨key', keys', rfl, hkey, hkeys⟩ := List.map_eq_cons_iff.mp h.symm
    have hbuild : x.toBitmapIndex.build ⟨column, .eq, key⟩ =
        x.toBitmapIndex.build ⟨column, .eq, key'⟩ :=
      OrderedIndex.build_congr (Key.of_eq_of_iff.mp hkey.symm)
    simp only [collect, IndexQual.column, IndexQual.op, hbuild]
    split
    · rfl
    · exact ih hkeys.symm _ _

/-- What is collected is the union of the answers of the index, one for each key. -/
theorem collect_eq_ok {keys : List Value} {m m' : TidBitmap} {calls n : Nat}
    (h : scan.collect keys m calls = (.ok m', n)) :
    n = calls + keys.length ∧ ∃ answers : List TidBitmap,
      keys.map (fun key => scan.index.build ⟨scan.qual.column, scan.qual.op, key⟩) =
        answers.map .ok ∧
      m' = answers.foldl TidBitmap.union m := by
  induction keys generalizing m calls with
  | nil =>
    obtain ⟨hm, rfl⟩ := Prod.mk.inj h
    exact ⟨rfl, [], rfl, (Except.ok.inj hm).symm⟩
  | cons key keys ih =>
    rw [collect] at h
    split at h
    · simp at h
    · next answer hanswer =>
      obtain ⟨rfl, answers, hanswers, rfl⟩ := ih h
      refine ⟨?_, answer :: answers, ?_, rfl⟩
      · rw [List.length_cons]
        omega
      · rw [List.map_cons, List.map_cons, hanswer, hanswers]

/-- Without a limit on entries, a scan knows of a block the least that says all that the answers
of the index to the values of the arguments do. -/
theorem known_build_le_iff (hlimits : ctx.config.bitmapLimits = ⟨limit, maxCount⟩)
    (hc : c.bitmap? = none) (hvs : Expr.evalAll .empty c.base.params q.args = .ok vs)
    (hm : (build ⟨x.toBitmapIndex, q⟩ ctx c).1 = .ok m) :
    m.Uniform limit ∧ ∀ block u, m.known limit block ≤ u ↔
      ∀ v ∈ vs, v.isNull = false → ∀ answer,
        x.build ⟨q.column, q.op, v⟩ = .ok answer → answer.known limit block ≤ u := by
  obtain ⟨hresult, -⟩ :=
    build_of_keys ⟨x.toBitmapIndex, q⟩ ctx hc (IndexQual.keys_of_evalAll hvs)
  obtain ⟨-, answers, hanswers, rfl⟩ := collect_eq_ok (Prod.ext (hresult.symm.trans hm) rfl)
  have hempty : (TidBitmap.empty ctx.config.bitmapLimits).Uniform limit :=
    hlimits ▸ TidBitmap.uniform_empty limit
  refine ⟨hempty.foldl_union answers, fun block u => ?_⟩
  rw [hempty.known_foldl_union_le_iff, TidBitmap.known_empty]
  simp only [bot_le, true_and, mem_iff_of_map_eq_map_ok hanswers]
  -- The keys are some of the values, and a value that is left out is answered as its key.
  constructor
  · intro h v hv hnull answer hanswer
    obtain ⟨k, hk, hvk⟩ := exists_mem_distinctKeys hv hnull
    exact h answer ⟨k, hk, (OrderedIndex.build_congr hvk).symm.trans hanswer⟩
  · rintro h answer ⟨k, hk, hanswer⟩
    obtain ⟨hmem, hnull⟩ := of_mem_distinctKeys hk
    exact h k hmem hnull answer hanswer

/-- A scan for one argument knows of a block what the answer to its value does. -/
theorem known_single_le_iff {column : Nat} {op : ScanOp} {arg : Expr} {block : UInt32}
    {u : PageEntry.Known limit} (hlimits : ctx.config.bitmapLimits = ⟨limit, maxCount⟩)
    (hc : c.bitmap? = none) (hv : arg.eval .empty c.base.params = .ok v)
    (hm : (build ⟨x.toBitmapIndex, .comparison column op arg⟩ ctx c).1 = .ok m) :
    m.known limit block ≤ u ↔ (v.isNull = false → ∀ answer,
      x.build ⟨column, op, v⟩ = .ok answer → answer.known limit block ≤ u) := by
  have hvs : Expr.evalAll .empty c.base.params (IndexQual.comparison column op arg).args =
      .ok [v] := Expr.evalAll_singleton hv
  rw [(known_build_le_iff hlimits hc hvs hm).2, List.forall_mem_singleton]
  rfl

/-- Without a limit on entries, a scan for several keys makes the union of what scans for the single
arguments make. -/
theorem exists_union_of_singles {column : Nat} {xs : List Expr} (hcolumn : column = x.column)
    (hlimits : ctx.config.bitmapLimits = ⟨limit, maxCount⟩) (hc : c.bitmap? = none)
    (hvs : Expr.evalAll .empty c.base.params xs = .ok vs)
    (hm : (build ⟨x.toBitmapIndex, .inList column xs⟩ ctx c).1 = .ok m) :
    ∃ ms : List TidBitmap,
      xs.map (fun arg => (build ⟨x.toBitmapIndex, .comparison column .eq arg⟩ ctx c).1) =
        ms.map .ok ∧
      (m == ms.foldl TidBitmap.union (.empty ctx.config.bitmapLimits)) = true := by
  have hsingle : ∀ arg ∈ xs, ∃ n,
      (build ⟨x.toBitmapIndex, .comparison column .eq arg⟩ ctx c).1 = .ok n := by
    intro arg harg
    obtain ⟨v, -, hv⟩ := Expr.mem_of_evalAll hvs harg
    obtain ⟨n, hn, -⟩ := exists_build (q := .comparison column .eq arg) hcolumn ctx hc
      (IndexQual.keys_of_evalAll (Expr.evalAll_singleton hv))
    exact ⟨n, hn⟩
  -- On the column of the index no single scan fails.
  obtain ⟨ms, hms⟩ : ∃ ms : List TidBitmap, ms.map .ok = xs.map fun arg =>
      (build ⟨x.toBitmapIndex, .comparison column .eq arg⟩ ctx c).1 := by
    rw [← Set.mem_range, Set.range_list_map]
    intro r hr
    obtain ⟨arg, harg, rfl⟩ := List.mem_map.mp hr
    obtain ⟨n, hn⟩ := hsingle arg harg
    exact ⟨n, hn.symm⟩
  obtain ⟨huniform, hknown⟩ := known_build_le_iff (q := .inList column xs) hlimits hc hvs hm
  have hempty : (TidBitmap.empty ctx.config.bitmapLimits).Uniform limit :=
    hlimits ▸ TidBitmap.uniform_empty limit
  refine ⟨ms, hms.symm, huniform.beq_of_known (hempty.foldl_union ms) fun block => ?_⟩
  -- Both sides know the least that says all that the answers to the arguments do.
  refine eq_of_forall_ge_iff fun u => ?_
  rw [hknown, hempty.known_foldl_union_le_iff, TidBitmap.known_empty]
  simp only [bot_le, true_and, mem_iff_of_map_eq_map_ok hms.symm,
    mem_iff_of_map_eq_map_ok (Expr.map_eval_of_evalAll hvs)]
  constructor
  · rintro h n ⟨arg, harg, hn⟩
    obtain ⟨v, -, hv⟩ := Expr.mem_of_evalAll hvs harg
    exact (known_single_le_iff hlimits hc hv hn).mpr (h v ⟨arg, harg, hv⟩)
  · rintro h v ⟨arg, harg, hv⟩
    obtain ⟨n, hn⟩ := hsingle arg harg
    exact (known_single_le_iff hlimits hc hv hn).mp (h n ⟨arg, harg, hn⟩)

/-- A scan for several keys makes the same bitmap, or fails alike, for all arguments that have the
same set of values other than NULL. On the column of the index, and no plan may name another, it
makes one with a call of the index for each element of this set; and if the bitmap has no limit on
its entries, it is the union of those that scans for the single arguments make. -/
theorem build_determined_by_keySet {column : Nat} {xs ys : List Expr} {vs ws : List Value}
    {ctx' : Context} {c' : BitmapCell}
    (hlimits : ctx.config.bitmapLimits = ctx'.config.bitmapLimits)
    (hc : c.bitmap? = none) (hc' : c'.bitmap? = none)
    (hvs : Expr.evalAll .empty c.base.params xs = .ok vs)
    (hws : Expr.evalAll .empty c'.base.params ys = .ok ws) (hsame : keySet vs = keySet ws) :
    let built := build ⟨x.toBitmapIndex, .inList column xs⟩ ctx c
    let built' := build ⟨x.toBitmapIndex, .inList column ys⟩ ctx' c'
    let single := fun arg => (build ⟨x.toBitmapIndex, .comparison column .eq arg⟩ ctx c).1
    built.1 = built'.1 ∧
    (column = x.column →
      built.2.base.counters.indexCalls = c.base.counters.indexCalls + (keySet vs).ncard ∧
      built'.2.base.counters.indexCalls = c'.base.counters.indexCalls + (keySet vs).ncard ∧
      ∃ m, built.1 = .ok m ∧ (ctx.config.bitmapLimits.maxEntries = maxCount →
        ∃ ms : List TidBitmap, xs.map single = ms.map .ok ∧
          (m == ms.foldl TidBitmap.union (.empty ctx.config.bitmapLimits)) = true)) := by
  intro built built' single
  obtain ⟨hresult, hcalls⟩ :=
    build_of_keys ⟨x.toBitmapIndex, .inList column xs⟩ ctx hc (IndexQual.keys_of_evalAll hvs)
  obtain ⟨hresult', hcalls'⟩ :=
    build_of_keys ⟨x.toBitmapIndex, .inList column ys⟩ ctx' hc' (IndexQual.keys_of_evalAll hws)
  -- Both scans look up equal keys in one order.
  have hcongr : ∀ m, collect ⟨x.toBitmapIndex, .inList column ys⟩ (distinctKeys ws) m 0 =
      collect ⟨x.toBitmapIndex, .inList column xs⟩ (distinctKeys vs) m 0 := fun m =>
    collect_congr (map_of_distinctKeys_congr hsame.symm) m 0
  rw [← hlimits, hcongr] at hresult' hcalls'
  refine ⟨hresult.trans hresult'.symm, fun hcolumn => ?_⟩
  obtain ⟨m, n, hcollect, -, -⟩ := exists_collect (q := .inList column xs) hcolumn
    (distinctKeys vs) (.empty ctx.config.bitmapLimits) 0
  obtain ⟨rfl, -⟩ := collect_eq_ok hcollect
  rw [hcollect, Nat.zero_add, length_distinctKeys] at hcalls hcalls'
  rw [hcollect] at hresult
  refine ⟨hcalls, hcalls', m, hresult, fun hentries => ?_⟩
  exact exists_union_of_singles hcolumn (congrArg (BitmapLimits.mk _) hentries) hc hvs hresult

/-- A five and a zero. -/
def fiveAndZero : List Expr := [.literal (.int64 5), .literal (.float64 (.ofBits 0))]

/-- The other zero, NULL, and the five from a parameter and once more. -/
def zeroAndFives : List Expr :=
  [.literal (.float64 (.ofBits 0x8000000000000000)), .param 0, .literal .null, .literal (.int64 5)]

theorem build_determined_by_keySet_zeros :
    let ctx : Context := { config := { bitmapLimits := .unbounded } }
    let c : BitmapCell := { base := { params := [.int64 5] } }
    let built := fun args => build ⟨mixedIndex.toBitmapIndex, .inList 0 args⟩ ctx c
    (built fiveAndZero).1 = (built zeroAndFives).1 ∧
      (built fiveAndZero).2.base.counters.indexCalls = 2 ∧
      (built zeroAndFives).2.base.counters.indexCalls = 2 ∧
      ∃ m, (built fiveAndZero).1 = .ok m ∧ ∃ ms : List TidBitmap,
        fiveAndZero.map (fun arg =>
          (build ⟨mixedIndex.toBitmapIndex, .comparison 0 .eq arg⟩ ctx c).1) = ms.map .ok ∧
        (m == ms.foldl TidBitmap.union (.empty .unbounded)) = true := by
  intro ctx c built
  have hvs : Expr.evalAll .empty [.int64 5] fiveAndZero =
      .ok [.int64 5, .float64 (.ofBits 0)] := rfl
  have hws : Expr.evalAll .empty [.int64 5] zeroAndFives =
      .ok [.float64 (.ofBits 0x8000000000000000), .int64 5, .null, .int64 5] := rfl
  have hsame : keySet [.int64 5, .float64 (.ofBits 0)] =
      keySet [.float64 (.ofBits 0x8000000000000000), .int64 5, .null, .int64 5] :=
    keySet_eq_iff.mpr ⟨by decide, by decide⟩
  have hlimits : ctx.config.bitmapLimits = ctx.config.bitmapLimits := rfl
  have hc : c.bitmap? = none := rfl
  obtain ⟨hresult, hbuilt⟩ :=
    build_determined_by_keySet (x := mixedIndex) hlimits hc hc hvs hws hsame
  obtain ⟨hcalls, hcalls', m, hm, hunion⟩ := hbuilt rfl
  rw [← length_distinctKeys] at hcalls hcalls'
  exact ⟨hresult, hcalls, hcalls', m, hm, hunion rfl⟩

end IndexScan

end PullQuery
