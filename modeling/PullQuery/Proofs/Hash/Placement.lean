import PullQuery.Proofs.Hash.Building
import PullQuery.Proofs.Hash.Ledger
import PullQuery.Proofs.Hash.Memory
import PullQuery.Proofs.Hash.Requests

/-!
# Where the rows of a hash table are

After requests that all succeed, the rows in memory are those of the current batch, every file has
rows of its own batch alone, the buckets list the positions of the rows in memory, and each row
that was inserted is in just one of these places. Doubling the batches moves a hash at most to the
partner of its batch.

## Main definitions

* `HashTable.Succeeds`: requests that all succeed lead from one table to another
* `HashTable.Located`: each row is in its place

## Main results

* `HashTable.batchOf_split`: what a split does to the batch of a hash
* `HashTable.Holds.located`: a table whose rows are in their batches is located
* `HashTable.located_of_succeeds`
-/

namespace PullQuery

/-! ## Positions -/

theorem pairwise_hashPositions (hash : UInt32) (xs : List SpilledTuple) :
    (hashPositions hash xs).Pairwise (· < ·) := by
  have hall : (xs.zipIdx.map Prod.snd).Pairwise (· < ·) := by
    rw [List.zipIdx_map_snd]
    exact List.pairwise_lt_range'
  exact hall.sublist (List.filter_sublist.map Prod.snd)

theorem mem_hashPositions_iff {hash : UInt32} {xs : List SpilledTuple} {i : Nat} :
    i ∈ hashPositions hash xs ↔ ∃ x, xs[i]? = some x ∧ x.hash = hash := by
  simp only [hashPositions, List.mem_map, List.mem_filter, decide_eq_true_eq, Prod.exists,
    List.mem_zipIdx_iff_getElem?, exists_eq_right]

/-! ## Files -/

/-- The tuples of all files are as many as the files count. -/
theorem SpillStore.Sound.length_contents {s : SpillStore} (hs : s.Sound) :
    s.contents.length = sumBy (·.2.tuples) s.files := by
  have hcount : ∀ f ∈ s.files, (SpilledTuple.readAll f.2.data).1.length = f.2.tuples := by
    rintro ⟨b, f⟩ hf
    have hfile : s.file b = f := by
      rw [file, Assoc.find?_eq_some_of_mem s.batches_nodup hf, Option.getD_some]
    have hsize : (s.file b).tuples = (s.tuples b).length := (hs b).2
    rw [tuples, hfile] at hsize
    exact hsize.symm
  unfold contents
  generalize s.files = fs at hcount ⊢
  induction fs with
  | nil => rfl
  | cons f fs ih =>
    rw [List.flatMap_cons, List.length_append, sumBy_cons, hcount f (List.mem_cons_self ..),
      ih fun f' hf' => hcount f' (List.mem_cons_of_mem f hf')]

namespace HashTable

variable {t t' : HashTable} {rows : List SpilledTuple}

/-! ## Splits -/

/-- A split doubles the batches, whether it succeeds or not. The buckets and the limit of batches
stay as they are. -/
theorem logs_split (t : HashTable) :
    t.split.2.logBuckets = t.logBuckets ∧ t.split.2.logMaxBatches = t.logMaxBatches ∧
      t.split.2.logBatches = t.logBatches + 1 := by
  -- Every row that is moved on the way leaves the numbers as they are.
  have hsettled : (forEach settle t.resident
        { t.clearResident with logBatches := t.logBatches + 1 }).2.logBuckets = t.logBuckets ∧
      (forEach settle t.resident
        { t.clearResident with logBatches := t.logBatches + 1 }).2.logMaxBatches =
          t.logMaxBatches ∧
      (forEach settle t.resident
        { t.clearResident with logBatches := t.logBatches + 1 }).2.logBatches =
          t.logBatches + 1 := by
    refine forEach_keeps (P := fun t₁ => t₁.logBuckets = t.logBuckets ∧
      t₁.logMaxBatches = t.logMaxBatches ∧ t₁.logBatches = t.logBatches + 1) ?_ t.resident
      ⟨rfl, rfl, rfl⟩
    intro t₁ x h
    unfold settle
    split
    · exact h
    · have hsame := sameMemory_spill t₁ (t₁.batchOf x.hash) x
      exact ⟨hsame.logBuckets.trans h.1, hsame.logMaxBatches.trans h.2.1,
        hsame.logBatches.trans h.2.2⟩
  rw [split]
  split
  · next hsettle =>
    rw [hsettle] at hsettled
    exact hsettled
  · next t₁ hsettle =>
    rw [hsettle] at hsettled
    have hsame := sameMemory_refileAll (List.range t.batchCount) t₁
    have hfiles := And.intro (hsame.logBuckets.trans hsettled.1)
      (And.intro (hsame.logMaxBatches.trans hsettled.2.1) (hsame.logBatches.trans hsettled.2.2))
    dsimp only
    split
    · next hrefile =>
      rw [hrefile] at hfiles
      exact hfiles
    · next hrefile =>
      rw [hrefile] at hfiles
      split <;> exact hfiles

theorem batchCount_split (t : HashTable) : t.split.2.batchCount = t.batchCount * 2 := by
  rw [batchCount, (logs_split t).2.2, Nat.shiftLeft_succ, Nat.mul_comm, batchCount]

/-- A remainder by the double of a number is the remainder by the number, or that much more. -/
theorem mod_double_cases (a n : Nat) : a % (n * 2) = a % n ∨ a % (n * 2) = a % n + n := by
  rw [Nat.mod_mul]
  rcases Nat.mod_two_eq_zero_or_one (a / n) with h | h
  · exact .inl (by rw [h, Nat.mul_zero, Nat.add_zero])
  · exact .inr (by rw [h, Nat.mul_one])

/-- A split leaves a hash in its batch or moves it to the new partner, as many batches behind as
there were. -/
theorem batchOf_split (t : HashTable) (hash : UInt32) :
    t.split.2.batchOf hash = t.batchOf hash ∨
      t.split.2.batchOf hash = t.batchOf hash + t.batchCount := by
  rw [batchOf, (logs_split t).1, batchCount_split]
  exact mod_double_cases _ t.batchCount

/-! ## Places -/

/-- Whether each row of a table is in its place, and in one place only. -/
structure Located (t : HashTable) : Prop where
  /-- The rows in memory are those of the current batch. -/
  resident : ∀ x ∈ t.resident, t.batchOf x.hash = t.current
  /-- A file has rows of its batch alone, which is another one than the current batch. -/
  file : ∀ b, ∀ x ∈ t.store.tuples b, t.batchOf x.hash = b ∧ b ≠ t.current ∧ b < t.batchCount
  /-- A file counts its rows. -/
  batchSize_eq : ∀ b, t.store.batchSize b = (t.store.tuples b).length
  /-- The files of the current batch and behind the last batch are empty. -/
  batchSize_eq_zero : ∀ b, b = t.current ∨ t.batchCount ≤ b → t.store.batchSize b = 0
  /-- The bucket of a hash lists the positions of its rows in memory. -/
  mem_positions_iff : ∀ hash i, i ∈ t.positions hash ↔
    ∃ x, t.resident[i]? = some x ∧ x.hash = hash
  /-- A bucket lists positions in increasing order. -/
  pairwise_positions : ∀ hash, (t.positions hash).Pairwise (· < ·)
  /-- There are buckets for the hashes of rows in memory alone. -/
  bucket_iff : ∀ hash, (Assoc.find? hash t.buckets).isSome ↔ ∃ x ∈ t.resident, x.hash = hash
  /-- The rows in memory and in files are as many as were inserted. -/
  total_eq : t.resident.length + sumBy (·.2.tuples) t.store.files = t.total

theorem Indexed.find?_isSome_iff (h : t.Indexed) (hash : UInt32) :
    (Assoc.find? hash t.buckets).isSome ↔ ∃ x ∈ t.resident, x.hash = hash := by
  have hrows : rowsWith hash t.resident = [] ↔ ∀ x ∈ t.resident, x.hash ≠ hash := by
    simp [rowsWith, List.filter_eq_nil_iff]
  rw [h hash]
  split
  · next hnil =>
    have hnone := hrows.mp (hashPositions_eq_nil_iff.mp hnil)
    refine iff_of_false Bool.false_ne_true ?_
    rintro ⟨x, hx, hhash⟩
    exact hnone x hx hhash
  · next hsome =>
    refine iff_of_true rfl ?_
    by_contra hnone
    refine hsome (hashPositions_eq_nil_iff.mpr (hrows.mpr ?_))
    intro x hx hhash
    exact hnone ⟨x, hx, hhash⟩

namespace Holds

theorem batchOf_of_mem_resident (h : t.Holds rows) {x : SpilledTuple} (hx : x ∈ t.resident) :
    t.batchOf x.hash = t.current := by
  rw [← batchRows_current, h.batchRows_eq] at hx
  exact of_decide_eq_true (List.mem_filter.mp hx).2

/-- The file of the current batch has no rows, so what is in a file is there on purpose. -/
theorem of_mem_tuples (h : t.Holds rows) {b : Nat} {x : SpilledTuple}
    (hx : x ∈ t.store.tuples b) : t.batchOf x.hash = b ∧ b ≠ t.current ∧ b < t.batchCount := by
  have hother : b ≠ t.current := by
    rintro rfl
    rw [h.current_file] at hx
    contradiction
  have hbatch := h.batchOf_of_mem_tuples hother x hx
  exact ⟨hbatch, hother, hbatch ▸ t.batchOf_lt x.hash⟩

/-- If the rows of a table are in their batches and none is missing, each is in its place. -/
theorem located (h : t.Holds rows) (htotal : t.stored.length = t.total) : t.Located where
  resident _ hx := h.batchOf_of_mem_resident hx
  file _ _ hx := h.of_mem_tuples hx
  batchSize_eq b := (h.sound.store b).2
  batchSize_eq_zero b hb := by
    rw [h.sound.store.batchSize_eq_zero_iff, List.eq_nil_iff_forall_not_mem]
    intro x hx
    obtain ⟨-, hother, hlt⟩ := h.of_mem_tuples hx
    obtain hcurrent | hbeyond := hb
    · exact hother hcurrent
    · exact Nat.not_le.mpr hlt hbeyond
  mem_positions_iff hash i := by
    rw [h.sound.index.positions_eq]
    exact mem_hashPositions_iff
  pairwise_positions hash := by
    rw [h.sound.index.positions_eq]
    exact pairwise_hashPositions hash t.resident
  bucket_iff := h.sound.index.find?_isSome_iff
  total_eq := by rw [← htotal, stored, List.length_append, h.sound.store.length_contents]

end Holds

/-! ## Requests that succeed -/

/-- Bringing a batch into memory inserts no row. -/
theorem total_switchTo (t : HashTable) (batch : Nat) : (t.switchTo batch).2.total = t.total := by
  have hspilled : (forEach (fun t' x => t'.spill t.current x) t.resident
      { t.clearResident with isFixed := true }).2.total = t.total :=
    forEach_keeps (P := fun t₁ => t₁.total = t.total)
      (fun t₁ x h => (unmoved_spill t₁ t.current x).total.trans h) t.resident rfl
  rw [switchTo]
  split
  · next hspill =>
    rw [hspill] at hspilled
    exact hspilled
  · next hspill =>
    rw [hspill] at hspilled
    split
    · exact hspilled
    · exact forEach_keeps (P := fun t₁ => t₁.total = t.total)
        (fun t₁ x h => (unmoved_place t₁.splitsLeft t₁ x).total.trans h) _ hspilled

/-- A request that succeeds stores the rows that it counts. -/
theorem length_stored_serve (h : t.Holds rows) (htotal : t.stored.length = t.total)
    {r : TableRequest} (hr : r.serve t = (.ok (), t')) : t'.stored.length = t'.total := by
  cases r with
  | insert x =>
    have hinsert := serve_insert_eq_ok hr
    have hstored := (hinsert ▸ accounts_insert h.sound x).stored_of_ok.length_eq
    have hcount := total_insert t x
    rw [hinsert] at hcount
    rw [hcount, ← hstored, List.length_append, htotal]
    exact Nat.add_comm 1 t.total
  | load batch =>
    obtain ⟨-, ⟨-, rfl⟩ | ⟨-, hswitch⟩⟩ := loadBatch_eq_ok hr
    · exact htotal
    · have hstored := (hswitch ▸ accounts_switchTo h.sound batch).stored_of_ok.length_eq
      have hcount := total_switchTo t batch
      rw [hswitch] at hcount
      rw [hcount, ← hstored, List.nil_append, htotal]

/-- Whether requests in turn that all succeed lead from one table to another. -/
inductive Succeeds (t : HashTable) : HashTable → Prop where
  | refl : Succeeds t t
  | serve {t₁ t₂ : HashTable} (h : Succeeds t t₁) (r : TableRequest)
    (hr : r.serve t₁ = (.ok (), t₂)) : Succeeds t t₂

theorem Succeeds.serve_of_isOk {t₁ : HashTable} (h : Succeeds t t₁) (r : TableRequest)
    (hr : (r.serve t₁).1.isOk = true) : Succeeds t (r.serve t₁).2 := by
  refine h.serve r (Prod.ext ?_ rfl)
  cases hanswer : (r.serve t₁).1 with
  | ok => rfl
  | error e => simp [hanswer, Except.isOk, Except.toBool] at hr

/-- Whatever the sizes of a new table and the capacity of its files are, after requests that all
succeed each row is in its place. No split moves a hash elsewhere than to the partner of its
batch. -/
theorem located_of_succeeds {c : HashTableConfig} {capacity? : Option Nat}
    (h : Succeeds (ofConfig c { capacity? }) t) :
    t.Located ∧ ∀ (u : HashTable) (hash : UInt32),
      u.split.2.batchOf hash = u.batchOf hash ∨
        u.split.2.batchOf hash = u.batchOf hash + u.batchCount := by
  -- What the requests keep: the rows are those of some list, and the table has counted them.
  suffices hrows : (∃ rows, t.Holds rows) ∧ t.stored.length = t.total by
    obtain ⟨⟨rows, hholds⟩, htotal⟩ := hrows
    exact ⟨hholds.located htotal, batchOf_split⟩
  induction h with
  | refl => exact ⟨⟨[], holds_ofConfig c capacity?⟩, rfl⟩
  | serve _ r hr ih =>
    obtain ⟨⟨rows, hholds⟩, htotal⟩ := ih
    exact ⟨⟨_, hholds.serve hr⟩, length_stored_serve hholds htotal hr⟩

/-- The second row splits the table and goes to a file, and the last request switches to its
batch. -/
theorem located_of_succeeds_switched :
    ∃ t, Succeeds (ofConfig (.single 100 4) {}) t ∧ t.Located ∧ t.current = 1 ∧ t.total = 2 ∧
      t.resident.length = 1 ∧ t.store.batchSize 0 = 1 := by
  have hnew : Succeeds (ofConfig (.single 100 4) {}) (ofConfig (.single 100 4) {}) := .refl
  have hfirst := hnew.serve_of_isOk (.insert ⟨0, ⟨[.int32 1]⟩⟩) (by decide)
  have hsecond := hfirst.serve_of_isOk (.insert ⟨1024, ⟨[.int32 2]⟩⟩) (by decide)
  have hloaded := hsecond.serve_of_isOk (.load 1) (by decide)
  refine ⟨_, hloaded, (located_of_succeeds hloaded).1, ?_⟩
  decide

end HashTable

end PullQuery
