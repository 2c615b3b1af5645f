import PullQuery.Proofs.Hash.Memory
import PullQuery.Proofs.Hash.Requests

/-!
# The budget of a hash table

After any requests, failed ones included, a table knows the memory of the rows that it holds. It
has gone above its budget only if it may not be split any more, and then it never will be again.

## Main definitions

* `TableRequest.switches`, `HashTable.switches`: requests begin to switch batches

## Main results

* `HashTable.Budgeted.serve`: one request
* `HashTable.budget_run`: requests in turn to a new table
-/

namespace PullQuery

/-- Whether a request to a table begins to switch batches. -/
def TableRequest.switches (t : HashTable) : TableRequest → Bool
  | insert _ => false
  | load batch => decide (batch < t.batchCount) && decide (batch ≠ t.current)

namespace HashTable

variable {t : HashTable}

/-- Whether one of some requests in turn begins to switch batches. -/
def switches : List TableRequest → HashTable → Bool
  | [], _ => false
  | r :: rs, t => r.switches t || switches rs (r.serve t).2

theorem Budgeted.loadBatch (h : t.Budgeted) (batch : Nat) :
    (t.loadBatch batch).2.Budgeted ∧
      Ages ((TableRequest.load batch).switches t) t (t.loadBatch batch).2 := by
  rw [HashTable.loadBatch, TableRequest.switches]
  split
  · next hrange =>
    have hnone : ¬ batch < t.batchCount := Nat.not_lt.mpr hrange
    simpa [hnone] using ⟨h, Ages.refl t⟩
  · next hrange =>
    have hbatch : batch < t.batchCount := Nat.lt_of_not_le hrange
    split
    · next hcurrent => simpa [hcurrent] using ⟨h, Ages.refl t⟩
    · next hother =>
      have hswitch := budgeted_switchTo t batch
      simp only [hbatch, hother, ne_eq, not_false_eq_true, decide_true, Bool.and_self]
      split
      · next heq =>
        rw [heq] at hswitch
        exact hswitch
      · next heq =>
        rw [heq] at hswitch
        exact hswitch

theorem Budgeted.serve (h : t.Budgeted) (r : TableRequest) :
    (r.serve t).2.Budgeted ∧ Ages (r.switches t) t (r.serve t).2 := by
  cases r with
  | insert x =>
    have hinsert := h.insert x
    rw [TableRequest.serve]
    split
    · next heq =>
      rw [heq] at hinsert
      exact hinsert
    · next heq =>
      rw [heq] at hinsert
      exact hinsert
  | load batch => exact h.loadBatch batch

theorem Budgeted.run (h : t.Budgeted) (rs : List TableRequest) :
    (HashTable.run rs t).Budgeted ∧ Ages (switches rs t) t (HashTable.run rs t) := by
  induction rs generalizing t with
  | nil => exact ⟨h, .refl t⟩
  | cons r rs ih =>
    obtain ⟨hserved, hages⟩ := h.serve r
    obtain ⟨hrun, hages'⟩ := ih hserved
    exact ⟨hrun, hages.trans hages'⟩

theorem run_append (rs later : List TableRequest) (t : HashTable) :
    HashTable.run (rs ++ later) t = HashTable.run later (HashTable.run rs t) := by
  induction rs generalizing t with
  | nil => rfl
  | cons r rs ih => exact ih _

theorem budgeted_ofConfig (c : HashTableConfig) (store : SpillStore) :
    (ofConfig c store).Budgeted where
  used_eq := rfl
  used_le_peak := le_rfl
  closed hpeak := absurd hpeak (Nat.not_lt_zero _)

theorem batchCount_le_nextPowerOfTwo {n : Nat} (h : t.logBatches ≤ ceilLog2 n) :
    t.batchCount ≤ nextPowerOfTwo n := by
  simp only [batchCount, nextPowerOfTwo, Nat.one_shiftLeft]
  exact Nat.pow_le_pow_right (by decide) h

theorem nextPowerOfTwo_le_batchCount {n : Nat} (h : ceilLog2 n ≤ t.logBatches) :
    nextPowerOfTwo n ≤ t.batchCount := by
  simp only [batchCount, nextPowerOfTwo, Nat.one_shiftLeft]
  exact Nat.pow_le_pow_right (by decide) h

/-- After any requests to a new table, whether they failed or not, the memory in use is that of the
rows in memory and never was above the peak, and there are no more batches than allowed. Once the
peak is above the budget, growth has been given up, or there are as many batches as there may be,
or a request has begun to switch batches; this stays so whatever is asked later, and the number of
batches does not change any more. -/
theorem budget_run (c : HashTableConfig) (store : SpillStore) (rs : List TableRequest) :
    let t := run rs (ofConfig c store)
    t.used = sumBy SpilledTuple.size t.resident ∧
      t.used ≤ t.peak ∧
      t.batchCount.isPowerOfTwo ∧
      t.batchCount ≤ max (nextPowerOfTwo c.batches) (nextPowerOfTwo c.maxBatches) ∧
      (c.workMem < t.peak → ∀ later : List TableRequest,
        ((run (rs ++ later) (ofConfig c store)).growth = false ∨
          nextPowerOfTwo c.maxBatches ≤ (run (rs ++ later) (ofConfig c store)).batchCount ∨
          switches (rs ++ later) (ofConfig c store) = true) ∧
        (run (rs ++ later) (ofConfig c store)).batchCount = t.batchCount) := by
  intro t
  have hnew := budgeted_ofConfig c store
  obtain ⟨hbudgeted, hages⟩ := hnew.run rs
  refine ⟨hbudgeted.used_eq, hbudgeted.used_le_peak, ⟨t.logBatches, Nat.one_shiftLeft _⟩, ?_, ?_⟩
  · have hlog : t.logBatches ≤ max (ceilLog2 c.batches) (ceilLog2 c.maxBatches) :=
      hages.logBatches_le_max
    rcases le_max_iff.mp hlog with hlog | hlog
    · exact le_max_of_le_left (batchCount_le_nextPowerOfTwo hlog)
    · exact le_max_of_le_right (batchCount_le_nextPowerOfTwo hlog)
  · intro hpeak later
    have hwork : t.workMem = c.workMem := hages.workMem
    -- Going beyond the budget is possible only when no batch can be added any more.
    have hclosed : t.Closed := hbudgeted.closed (hwork.trans_lt hpeak)
    obtain ⟨-, hlater⟩ := hbudgeted.run later
    obtain ⟨-, hall⟩ := hnew.run (rs ++ later)
    rw [run_append] at hall ⊢
    refine ⟨?_, ?_⟩
    · obtain hgrowth | hmax | hfixed := hlater.closed hclosed
      · exact .inl hgrowth
      · refine .inr (.inl ?_)
        have hmax' : (run later t).logMaxBatches = ceilLog2 c.maxBatches := hall.logMaxBatches
        rw [hmax'] at hmax
        exact nextPowerOfTwo_le_batchCount hmax
      · refine .inr (.inr ?_)
        rw [hall.isFixed] at hfixed
        exact hfixed
    · rw [batchCount, batchCount, hlater.final hclosed]

/-- A table with memory for one of these rows. -/
def roomForOne : HashTableConfig :=
  { workMem := 100, maxBatches := 64, batches := 1, buckets := 1024 }

/-- Three rows of which the first and the last have the same hash. -/
def sameHashAgain : List TableRequest :=
  [.insert ⟨0, ⟨[.int64 1]⟩⟩, .insert ⟨1024, ⟨[.int64 2]⟩⟩, .insert ⟨0, ⟨[.int64 3]⟩⟩]

/-- The first split finds only the first row in memory and does not move it, so that growth is
given up. The third row is kept above the budget. -/
theorem budget_run_sameHashAgain :
    roomForOne.workMem < (run sameHashAgain (ofConfig roomForOne {})).peak ∧
      (run sameHashAgain (ofConfig roomForOne {})).growth = false ∧
      ∀ later, (run (sameHashAgain ++ later) (ofConfig roomForOne {})).batchCount = 2 := by
  have hpeak : roomForOne.workMem < (run sameHashAgain (ofConfig roomForOne {})).peak := by decide
  obtain ⟨-, -, -, -, hlater⟩ := budget_run roomForOne {} sameHashAgain
  refine ⟨hpeak, by decide, ?_⟩
  intro later
  exact (hlater hpeak later).2.trans (by decide)

end HashTable

end PullQuery
