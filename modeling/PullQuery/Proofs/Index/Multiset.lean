import PullQuery.Proofs.Bitmap.Additions
import PullQuery.Proofs.Index.Coverage
import PullQuery.Proofs.Requests

/-!
# An ordered index is a multiset of keys with tuples

What an index answers depends only on which tuples it was given under which keys and how often,
and not on how it keeps them. Keys count as the same if they are equal as keys, so that the two
zeros are one key.

## Main definitions

* `SameHoldings`: two lists of keys with tuples are the same multiset
* `IndexEntry.holdings`: the keys with tuples of an index
* `IndexRequest`: what is asked of an index
* `ScanKey.Finds`: what a scan key finds among keys with tuples

## Main results

* `OrderedIndex.simulates_serve`: one request
* `OrderedIndex.SameHoldings.mem_matching_iff`
* `OrderedIndex.serves_multiset`: any requests, and every scan key after them
-/

namespace PullQuery

/-! ## Keys with tuples -/

/-- Whether a key with a tuple is this tuple under an equal key. -/
def isHolding (key : Value) (tid : Tid) (p : Value × Tid) : Bool := key == p.1 && p.2 == tid

theorem isHolding_iff {key : Value} {tid : Tid} {p : Value × Tid} :
    isHolding key tid p = true ↔ (key == p.1) = true ∧ p.2 = tid :=
  Bool.and_eq_true_iff.trans (and_congr_right fun _ => beq_iff_eq)

theorem Value.beq_congr_right {v w : Value} (h : (v == w) = true) (u : Value) :
    (u == v) = (u == w) := by
  have hcompare : compare u v = compare u w :=
    Std.TransCmp.congr_right (compare_eq_eq_iff.mpr h)
  rw [Bool.eq_iff_iff, ← compare_eq_eq_iff, hcompare, compare_eq_eq_iff]

theorem Value.beq_symm {v w : Value} (h : (v == w) = true) : (w == v) = true := by
  rw [Value.beq_congr_right h]
  exact w.beq_refl

/-- Whether two lists of keys with tuples are the same multiset. -/
structure SameHoldings (ps qs : List (Value × Tid)) : Prop where
  length_eq : ps.length = qs.length
  countP_eq : ∀ key tid, ps.countP (isHolding key tid) = qs.countP (isHolding key tid)

namespace SameHoldings

variable {ps qs rs : List (Value × Tid)} {k k' : Value} {tid : Tid}

theorem of_perm (h : ps.Perm qs) : SameHoldings ps qs where
  length_eq := h.length_eq
  countP_eq _ _ := h.countP_eq _

theorem symm (h : SameHoldings ps qs) : SameHoldings qs ps where
  length_eq := h.length_eq.symm
  countP_eq key t := (h.countP_eq key t).symm

theorem trans (h : SameHoldings ps qs) (h' : SameHoldings qs rs) : SameHoldings ps rs where
  length_eq := h.length_eq.trans h'.length_eq
  countP_eq key t := (h.countP_eq key t).trans (h'.countP_eq key t)

/-- The same tuple under equal keys may be added on both sides, or taken away. -/
theorem cons_iff (hk : (k == k') = true) :
    SameHoldings ((k, tid) :: ps) ((k', tid) :: qs) ↔ SameHoldings ps qs := by
  have hcons : ∀ key t, isHolding key t (k, tid) = isHolding key t (k', tid) := by
    intro key t
    rw [isHolding, isHolding, Value.beq_congr_right hk]
  constructor
  · intro h
    refine ⟨Nat.succ.inj h.length_eq, fun key t => ?_⟩
    have hcount := h.countP_eq key t
    rw [List.countP_cons, List.countP_cons, hcons] at hcount
    exact Nat.add_right_cancel hcount
  · intro h
    refine ⟨congrArg Nat.succ h.length_eq, fun key t => ?_⟩
    rw [List.countP_cons, List.countP_cons, hcons, h.countP_eq]

/-- What one side has the other has under an equal key. -/
theorem exists_mem (h : SameHoldings ps qs) (hp : (k, tid) ∈ ps) :
    ∃ k', (k == k') = true ∧ (k', tid) ∈ qs := by
  have hpos : 0 < ps.countP (isHolding k tid) :=
    List.countP_pos_iff.mpr ⟨(k, tid), hp, isHolding_iff.mpr ⟨k.beq_refl, rfl⟩⟩
  rw [h.countP_eq] at hpos
  obtain ⟨⟨k', t⟩, hq, hof⟩ := List.countP_pos_iff.mp hpos
  obtain ⟨hk, rfl⟩ := isHolding_iff.mp hof
  exact ⟨k', hk, hq⟩

end SameHoldings

/-! ## Entries -/

namespace IndexEntry

variable {key : Value} {tid : Tid} {es fs : List IndexEntry}

/-- The keys with tuples of entries. -/
def holdings (es : List IndexEntry) : List (Value × Tid) :=
  es.flatMap fun e => e.tids.map fun t => (e.key, t)

theorem holdings_cons (e : IndexEntry) (es : List IndexEntry) :
    holdings (e :: es) = e.tids.map (fun t => (e.key, t)) ++ holdings es := rfl

theorem mem_holdings : (key, tid) ∈ holdings es ↔ ∃ e ∈ es, e.key = key ∧ tid ∈ e.tids := by
  simp only [holdings, List.mem_flatMap, List.mem_map, Prod.mk.injEq]
  constructor
  · rintro ⟨e, he, t, ht, rfl, rfl⟩
    exact ⟨e, he, rfl, ht⟩
  · rintro ⟨e, he, rfl, ht⟩
    exact ⟨e, he, tid, ht, rfl, rfl⟩

theorem length_holdings (es : List IndexEntry) :
    (holdings es).length = tupleCount es := by
  unfold tupleCount
  induction es with
  | nil => rfl
  | cons e es ih => rw [holdings_cons, List.length_append, List.length_map, ih, sumBy_cons]

/-- An insertion adds the tuple under an equal key. -/
theorem holdings_insert (key : Value) (tid : Tid) (es : List IndexEntry) :
    ∃ k, (key == k) = true ∧ (holdings (insert key tid es)).Perm ((k, tid) :: holdings es) := by
  induction es with
  | nil => exact ⟨key, key.beq_refl, .refl _⟩
  | cons e es ih =>
    unfold insert
    split
    · exact ⟨key, key.beq_refl, .refl _⟩
    · next heq =>
      refine ⟨e.key, Value.compare_eq_eq_iff.mp heq, ?_⟩
      simp only [holdings_cons, List.map_append, List.map_cons, List.map_nil, List.append_assoc]
      exact List.perm_middle
    · obtain ⟨k, hk, hperm⟩ := ih
      refine ⟨k, hk, ?_⟩
      rw [holdings_cons, holdings_cons]
      exact (hperm.append_left _).trans List.perm_middle

theorem removeOne_perm {ts us : List Tid} (h : removeOne tid ts = some us) :
    ts.Perm (tid :: us) := by
  induction ts generalizing us with
  | nil => contradiction
  | cons t ts ih =>
    unfold removeOne at h
    split at h
    · next ht =>
      subst ht
      obtain rfl := Option.some.inj h
      rcases hlast : ts.getLast? with _ | last
      · rw [List.getLast?_eq_none_iff.mp hlast]
      · -- The last element comes to the front, and all others keep their places.
        obtain ⟨init, rfl⟩ := List.getLast?_eq_some_iff.mp hlast
        rw [List.dropLast_concat]
        exact (List.perm_append_singleton last init).cons t
    · obtain ⟨vs, hvs, rfl⟩ := Option.map_eq_some_iff.mp h
      exact ((ih hvs).cons t).trans (.swap tid t vs)

theorem not_mem_of_removeOne {ts : List Tid} (h : removeOne tid ts = none) : tid ∉ ts := by
  induction ts with
  | nil => exact List.not_mem_nil
  | cons t ts ih =>
    unfold removeOne at h
    split at h
    · contradiction
    · next ht =>
      rw [List.mem_cons, not_or]
      exact ⟨Ne.symm ht, ih (Option.map_eq_none_iff.mp h)⟩

/-- A removal takes away the tuple under an equal key. -/
theorem holdings_remove (h : remove key tid es = some fs) :
    ∃ k, (key == k) = true ∧ (holdings es).Perm ((k, tid) :: holdings fs) := by
  induction es generalizing fs with
  | nil => contradiction
  | cons e es ih =>
    unfold remove at h
    split at h
    · next hkey =>
      obtain ⟨tids, htids, rfl⟩ := Option.map_eq_some_iff.mp h
      refine ⟨e.key, hkey, ?_⟩
      have hperm := ((removeOne_perm htids).map fun t => (e.key, t)).append_right (holdings es)
      -- An entry without tuples has nothing and may be left out.
      rcases tids with _ | ⟨t, ts⟩
      · exact hperm
      · exact hperm
    · obtain ⟨gs, hgs, rfl⟩ := Option.map_eq_some_iff.mp h
      obtain ⟨k, hk, hperm⟩ := ih hgs
      refine ⟨k, hk, ?_⟩
      rw [holdings_cons, holdings_cons]
      exact (hperm.append_left _).trans List.perm_middle

/-- A removal that finds nothing was of a tuple that is not there under any equal key. -/
theorem not_isHolding_of_remove (hs : Sorted es) (h : remove key tid es = none) :
    ∀ p ∈ holdings es, isHolding key tid p = false := by
  induction es with
  | nil => exact fun p hp => absurd hp List.not_mem_nil
  | cons e es ih =>
    have ⟨hfirst, hrest⟩ := List.pairwise_cons.mp hs
    intro p hp
    rw [Bool.eq_false_iff, ne_eq, isHolding_iff]
    rintro ⟨hpkey, rfl⟩
    rw [holdings_cons, List.mem_append] at hp
    unfold remove at h
    split at h
    -- The entry for the key does not hold the tuple.
    · next hkey =>
      have hnot := not_mem_of_removeOne (Option.map_eq_none_iff.mp h)
      rcases hp with hp | hp
      · obtain ⟨t, ht, rfl⟩ := List.mem_map.mp hp
        exact hnot ht
      · -- Behind the entry for the key all keys are greater.
        obtain ⟨f, hf, hfkey, -⟩ := mem_holdings.mp hp
        have hlt := hfirst f hf
        have hkeys : (e.key == f.key) = true := by
          rw [hfkey, Value.beq_congr_right (Value.beq_symm hpkey)]
          exact Value.beq_symm hkey
        rw [Value.compare_eq_eq_iff.mpr hkeys] at hlt
        contradiction
    · next hkey =>
      rcases hp with hp | hp
      · obtain ⟨t, ht, rfl⟩ := List.mem_map.mp hp
        exact hkey hpkey
      · have hnot := ih hrest (Option.map_eq_none_iff.mp h) p hp
        rw [isHolding_iff.mpr ⟨hpkey, rfl⟩] at hnot
        contradiction

end IndexEntry

/-! ## Requests -/

/-- What is asked of an index beside scan keys. -/
inductive IndexRequest where
  | insert (key : Value) (tid : Tid)
  | remove (key : Value) (tid : Tid)

/-- Serves a request, and says whether a tuple was removed. -/
def OrderedIndex.serve (x : OrderedIndex) : IndexRequest → Bool × OrderedIndex
  | .insert key tid => (false, x.insert key tid)
  | .remove key tid =>
    match x.remove key tid with
    | none => (false, x)
    | some x' => (true, x')

/-- Serves a request on a list of keys with tuples. -/
def serveHoldings (held : List (Value × Tid)) : IndexRequest → Bool × List (Value × Tid)
  | .insert key tid => (false, if key.isNull then held else (key, tid) :: held)
  | .remove key tid => (held.any (isHolding key tid), held.eraseP (isHolding key tid))

/-- The first key with a tuple that passes a test is the one that is erased. -/
theorem exists_perm_eraseP {p : Value × Tid → Bool} {held : List (Value × Tid)}
    (h : ∃ a ∈ held, p a = true) : ∃ a, p a = true ∧ held.Perm (a :: held.eraseP p) := by
  obtain ⟨a, ha, hpa⟩ := h
  obtain ⟨b, front, back, -, hpb, hheld, herase⟩ := List.exists_of_eraseP ha hpa
  refine ⟨b, hpb, ?_⟩
  rw [herase]
  exact hheld ▸ List.perm_middle

/-! ## Indexes -/

/-- Whether a scan key finds a tuple: under a key that it admits, of the type of its argument. -/
def ScanKey.Finds (k : ScanKey) (held : List (Value × Tid)) (t : Tid) : Prop :=
  ∃ key, (key, t) ∈ held ∧ k.admits key = true ∧ key.type? = k.argument.type?

namespace ScanKey

variable {k : ScanKey} {held : List (Value × Tid)} {t : Tid}

/-- A scan key without an argument finds nothing. -/
theorem not_finds_of_isNull (h : k.argument.isNull = true) : ¬ k.Finds held t := by
  rintro ⟨key, -, hadmits, -⟩
  simp [admits, h] at hadmits

/-- Beside an argument only the comparison and the type decide. -/
theorem finds_iff (h : k.argument.isNull = false) :
    k.Finds held t ↔ ∃ key, (key, t) ∈ held ∧ k.op.holds key k.argument = true ∧
      key.type? = k.argument.type? := by
  refine exists_congr fun key => and_congr_right fun _ => and_congr_left fun htype => ?_
  rw [admits, Value.isNull_eq_of_type? htype, h]
  rfl

end ScanKey

namespace OrderedIndex

variable {x x' : OrderedIndex} {held : List (Value × Tid)} {key : Value} {tid : Tid}

/-- The keys with tuples of an index. -/
def holdings (x : OrderedIndex) : List (Value × Tid) := IndexEntry.holdings x.entries

theorem size_eq_length (x : OrderedIndex) : x.size = x.holdings.length :=
  x.size_eq.trans (IndexEntry.length_holdings x.entries).symm

/-- A removal takes away the tuple under an equal key. -/
theorem holdings_remove (h : x.remove key tid = some x') :
    ∃ k, (key == k) = true ∧ x.holdings.Perm ((k, tid) :: x'.holdings) := by
  unfold remove at h
  split at h
  · contradiction
  · next entries hentries =>
    obtain rfl := Option.some.inj h
    exact IndexEntry.holdings_remove hentries

/-- A removal that finds nothing was of a tuple that is not there under any equal key. -/
theorem not_isHolding_of_remove (h : x.remove key tid = none) :
    ∀ p ∈ x.holdings, ¬ isHolding key tid p = true := by
  unfold remove at h
  split at h
  · next hentries =>
    intro p hp
    exact Bool.eq_false_iff.mp (IndexEntry.not_isHolding_of_remove x.sorted hentries p hp)
  · contradiction

/-- An index answers each request as the keys with tuples that it has. -/
theorem simulates_serve :
    Simulates (fun x held => SameHoldings x.holdings held) serve serveHoldings := by
  intro x held h r
  cases r with
  | insert key tid =>
    refine ⟨rfl, ?_⟩
    simp only [serve, serveHoldings, insert]
    split
    · exact h
    · obtain ⟨k, hk, hperm⟩ := IndexEntry.holdings_insert key tid x.entries
      exact (SameHoldings.of_perm hperm).trans ((SameHoldings.cons_iff (Value.beq_symm hk)).mpr h)
  | remove key tid =>
    rw [serve, serveHoldings]
    split
    · next hnone =>
      have hcount := h.countP_eq key tid
      rw [List.countP_eq_zero.mpr (not_isHolding_of_remove hnone)] at hcount
      have hheld : ∀ p ∈ held, ¬ isHolding key tid p = true := List.countP_eq_zero.mp hcount.symm
      -- Nothing is found on the other side either, and nothing is erased there.
      rw [List.any_eq_false.mpr hheld, List.eraseP_of_forall_not hheld]
      exact ⟨rfl, h⟩
    · next x' hsome =>
      obtain ⟨k, hk, hperm⟩ := holdings_remove hsome
      have hold : SameHoldings ((k, tid) :: x'.holdings) held :=
        (SameHoldings.of_perm hperm.symm).trans h
      -- The other side has the tuple, too, and loses it under whichever equal key comes first.
      obtain ⟨k₁, hk₁, hmem⟩ := hold.exists_mem (List.mem_cons_self ..)
      have hfound : ∃ a ∈ held, isHolding key tid a = true :=
        ⟨_, hmem, isHolding_iff.mpr ⟨(Value.beq_congr_right hk₁ key) ▸ hk, rfl⟩⟩
      obtain ⟨⟨k₂, t⟩, hfirst, herase⟩ := exists_perm_eraseP hfound
      obtain ⟨hk₂, rfl⟩ := isHolding_iff.mp hfirst
      have hkeys : (k == k₂) = true := by
        rw [← Value.beq_congr_right hk₂]
        exact Value.beq_symm hk
      rw [List.any_eq_true.mpr hfound]
      exact ⟨rfl, (SameHoldings.cons_iff hkeys).mp (hold.trans (SameHoldings.of_perm herase))⟩

theorem isSome_remove_iff (h : SameHoldings x.holdings held) (key : Value) (tid : Tid) :
    (x.remove key tid).isSome = true ↔ ∃ p ∈ held, (key == p.1) = true ∧ p.2 = tid := by
  have hanswer := (simulates_serve h (.remove key tid)).1
  have hserve : (x.serve (.remove key tid)).1 = (x.remove key tid).isSome := by
    rw [serve]
    split
    · next hnone => rw [hnone]; rfl
    · next hsome => rw [hsome]; rfl
  rw [← hserve, hanswer, serveHoldings, List.any_eq_true]
  simp only [isHolding_iff]

/-! ## Scan keys -/

/-- The tuples that an index hands out for a scan key are those that it finds. -/
theorem mem_matching_iff (h : SameHoldings x.holdings held) {k : ScanKey}
    (hk : k.argument.isNull = false) (t : Tid) : t ∈ x.matching k ↔ k.Finds held t := by
  rw [mem_matching, ScanKey.finds_iff hk]
  constructor
  · rintro ⟨e, he, hholds, htype, ht⟩
    obtain ⟨key, hkey, hmem⟩ := h.exists_mem (IndexEntry.mem_holdings.mpr ⟨e, he, rfl, ht⟩)
    exact ⟨key, hmem, k.op.holds_congr_left hkey _ ▸ hholds,
      (Value.type?_eq_of_beq hkey).symm.trans htype⟩
  · rintro ⟨key, hmem, hholds, htype⟩
    obtain ⟨key', hkey, hmem'⟩ := h.symm.exists_mem hmem
    obtain ⟨e, he, rfl, ht⟩ := IndexEntry.mem_holdings.mp hmem'
    exact ⟨e, he, k.op.holds_congr_left hkey _ ▸ hholds,
      (Value.type?_eq_of_beq hkey).symm.trans htype, ht⟩

/-- Whether a bitmap is the answer of an index for the tuples with a property. -/
structure Answers (granularity : Granularity) (limits : BitmapLimits) (found : Tid → Prop)
    (m : TidBitmap) : Prop where
  /-- Without limits, an index of tuples says of each tuple whether it has the property. -/
  exactly : granularity = .tuple → limits = .unbounded → ∀ t,
    (found t → m.lookup t = .exact) ∧ (¬ found t → m.lookup t = .absent)
  /-- An index of blocks has those with such tuples, as lossy pages. -/
  lossily : granularity = .page → ∀ block,
    ((∃ t, found t ∧ t.block = block) → m.page? block = some .lossy) ∧
      ((¬ ∃ t, found t ∧ t.block = block) → m.page? block = none)
  /-- No tuple with the property is ruled out. -/
  candidate : ∀ t, found t → m.lookup t ≠ .absent
  /-- No other tuple is an exact candidate. -/
  sure : ∀ t, m.lookup t = .exact → found t

theorem answers_empty {granularity : Granularity} {limits : BitmapLimits} {found : Tid → Prop}
    (h : ∀ t, ¬ found t) : Answers granularity limits found (.empty limits) where
  exactly _ _ t := ⟨fun ht => absurd ht (h t), fun _ => rfl⟩
  lossily _ _ := ⟨fun ⟨t, ht, _⟩ => absurd ht (h t), fun _ => rfl⟩
  candidate t ht := absurd ht (h t)
  sure t ht := absurd ht (TidBitmap.not_isExact_empty limits t)

theorem answers_addTids (limits : BitmapLimits) {ts : List Tid} {found : Tid → Prop}
    (h : ∀ t, t ∈ ts ↔ found t) :
    Answers .tuple limits found ((TidBitmap.empty limits).addTids ts) where
  exactly _ hlimits t := by
    rw [hlimits, TidBitmap.lookup_addTids_unbounded, ← h]
    exact ⟨fun ht => if_pos ht, fun ht => if_neg ht⟩
  lossily := nofun
  candidate t ht := TidBitmap.hasCandidate_addTids ((h t).mpr ht) _
  sure t ht := by
    rcases TidBitmap.IsExact.of_addTids ht with hempty | hmem
    · exact absurd hempty (TidBitmap.not_isExact_empty limits t)
    · exact (h t).mp hmem

theorem answers_addBlocks (limits : BitmapLimits) {ts : List Tid} {found : Tid → Prop}
    (h : ∀ t, t ∈ ts ↔ found t) :
    Answers .page limits found
      (ts.foldl (fun m t => m.addBlock t.block) (TidBitmap.empty limits)) where
  exactly := nofun
  lossily _ block := by
    have hblock : (∃ t ∈ ts, t.block = block) ↔ ∃ t, found t ∧ t.block = block :=
      exists_congr fun t => and_congr_left fun _ => h t
    rw [TidBitmap.page?_addBlocks, ← hblock]
    exact ⟨fun hb => if_pos hb, fun hb => if_neg hb⟩
  candidate t ht := TidBitmap.hasCandidate_addBlocks ((h t).mpr ht) _
  sure t ht := by
    -- A page of the bitmap is lossy, which makes no tuple exact.
    obtain ⟨s, hpage, -⟩ := TidBitmap.isExact_iff.mp ht
    rw [TidBitmap.page?_addBlocks] at hpage
    split at hpage <;> simp at hpage

/-- An index answers every scan key on its column for the tuples that it finds. -/
theorem exists_answer (h : SameHoldings x.holdings held) {k : ScanKey}
    (hcolumn : k.column = x.column) :
    ∃ m, x.build k = .ok m ∧ (k.argument.isNull = true → m = .empty x.limits) ∧
      Answers x.granularity x.limits (k.Finds held) m := by
  rw [build, if_neg (not_not_intro hcolumn)]
  split
  · next hnull =>
    exact ⟨_, rfl, fun _ => rfl, answers_empty fun _ => ScanKey.not_finds_of_isNull hnull⟩
  · next hargument =>
    have hmatching := fun t => mem_matching_iff h (Bool.eq_false_iff.mpr hargument) t
    rcases x.granularity with _ | _
    · exact ⟨_, rfl, fun hnull => absurd hnull hargument, answers_addTids x.limits hmatching⟩
    · exact ⟨_, rfl, fun hnull => absurd hnull hargument, answers_addBlocks x.limits hmatching⟩

/-! ## Any requests -/

/-- A request changes nothing but the entries and their number. -/
theorem serve_settings (x : OrderedIndex) (r : IndexRequest) :
    (x.serve r).2.column = x.column ∧ (x.serve r).2.granularity = x.granularity ∧
      (x.serve r).2.limits = x.limits := by
  cases r with
  | insert key tid =>
    rw [serve, insert]
    split <;> exact ⟨rfl, rfl, rfl⟩
  | remove key tid =>
    rw [serve]
    split
    · exact ⟨rfl, rfl, rfl⟩
    · next x' hsome =>
      unfold remove at hsome
      split at hsome
      · contradiction
      · obtain rfl := Option.some.inj hsome
        exact ⟨rfl, rfl, rfl⟩

/-- Whatever was inserted into a new index and removed from it, it answers as the multiset of the
keys with tuples that were inserted and not removed. It has as many tuples, removes those that
the multiset has, and answers every scan key on its column for the tuples that are found in the
multiset; without an argument there are none. -/
theorem serves_multiset (name : String) (column : Nat) (granularity : Granularity)
    (limits : BitmapLimits) (rs : List IndexRequest) :
    let new : OrderedIndex := { name, column, granularity, limits }
    let x := (serveAll serve rs new).2
    let held := (serveAll serveHoldings rs []).2
    (serveAll serve rs new).1 = (serveAll serveHoldings rs []).1 ∧
    x.size = held.length ∧
    (∀ key tid, (x.remove key tid).isSome = true ↔ ∃ p ∈ held, (key == p.1) = true ∧ p.2 = tid) ∧
    ∀ k : ScanKey, k.column = column → ∃ m, x.build k = .ok m ∧
      (k.argument.isNull = true → m = .empty limits) ∧
      Answers granularity limits (k.Finds held) m := by
  intro new x held
  have hnew : SameHoldings new.holdings [] := .of_perm (.refl _)
  obtain ⟨hanswers, h⟩ := simulates_serve.serveAll rs hnew
  have hsettings : x.column = column ∧ x.granularity = granularity ∧ x.limits = limits := by
    refine serveAll_induction (P := fun x : OrderedIndex =>
      x.column = column ∧ x.granularity = granularity ∧ x.limits = limits) ?_ rs ⟨rfl, rfl, rfl⟩
    -- The settings that a request finds are those that it leaves.
    rintro y ⟨rfl, rfl, rfl⟩ r
    exact y.serve_settings r
  obtain ⟨hcolumn, hgranularity, hlimits⟩ := hsettings
  refine ⟨hanswers, x.size_eq_length.trans h.length_eq, isSome_remove_iff h, ?_⟩
  intro k hk
  rw [← hgranularity, ← hlimits]
  exact exists_answer h (hk.trans hcolumn.symm)

/-- Two tuples come in and one of them goes. -/
def comingAndGoing : List IndexRequest :=
  [.insert (.int64 5) ⟨0, 1⟩, .insert (.int64 7) ⟨0, 2⟩, .remove (.int64 5) ⟨0, 1⟩]

theorem serves_multiset_comingAndGoing :
    let x := (serveAll serve comingAndGoing { name := "a", column := 0, limits := .unbounded }).2
    x.size = 1 ∧ (x.remove (.int64 7) ⟨0, 2⟩).isSome = true ∧
      ∃ m, x.build ⟨0, .ge, .int64 6⟩ = .ok m ∧ m.lookup ⟨0, 2⟩ = .exact := by
  obtain ⟨-, hsize, hremove, hbuild⟩ := serves_multiset "a" 0 .tuple .unbounded comingAndGoing
  obtain ⟨m, hm, -, hanswers⟩ := hbuild ⟨0, .ge, .int64 6⟩ rfl
  have hfinds : ScanKey.Finds ⟨0, .ge, .int64 6⟩ [(.int64 7, ⟨0, 2⟩)] ⟨0, 2⟩ :=
    ⟨.int64 7, List.mem_singleton_self _, by decide, rfl⟩
  exact ⟨hsize, (hremove _ _).mpr ⟨(.int64 7, ⟨0, 2⟩), List.mem_singleton_self _, by decide, rfl⟩,
    m, hm, (hanswers.exactly rfl rfl ⟨0, 2⟩).1 hfinds⟩

end OrderedIndex

end PullQuery
