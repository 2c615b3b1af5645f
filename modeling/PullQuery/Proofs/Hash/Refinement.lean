import Mathlib.Data.List.Perm.Basic
import PullQuery.Proofs.Hash.Requests
import PullQuery.Proofs.Hash.Unlimited

/-!
# A hash table is a map from hashes to lists of rows

Over files without a limit, a table of any sizes answers look-ups as the map that has under
each hash all rows inserted with it, in order of insertion, however the rows were moved between
memory and files meanwhile.

## Main definitions

* `HashTable.AnswersAs`: a table answers as the map of some rows

## Main results

* `HashTable.answersAs_run_ofConfig`: it does so after any requests
-/

namespace PullQuery

namespace HashTable

variable {t : HashTable} {rows : List SpilledTuple}

/-- Whether a table answers as the map that has under each hash the rows with it, in order, and
accepts every request that makes sense. -/
structure AnswersAs (t : HashTable) (rows : List SpilledTuple) : Prop where
  /-- A look-up that finds rows finds all of them. -/
  found : ∀ hash xs, t.lookup hash = .found xs → xs = rowsWith hash rows ∧ rowsWith hash rows ≠ []
  /-- A look-up finds nothing only if there is nothing. -/
  noMatch : ∀ hash, t.lookup hash = .noMatch → rowsWith hash rows = []
  /-- A look-up that names a batch can be answered once that batch is loaded. -/
  notLoaded : ∀ hash b, t.lookup hash = .notLoaded b → b = t.batchOf hash ∧ b ≠ t.current ∧
    ∃ t', t.loadBatch b = (.ok (), t') ∧ t'.lookup hash =
      if rowsWith hash rows = [] then .noMatch else .found (rowsWith hash rows)
  insert : ∀ x, x.Storable → (t.insert x).1 = .ok ()
  load : ∀ b < t.batchCount, (t.loadBatch b).1 = .ok ()

theorem unlimited_ofConfig (c : HashTableConfig) : (ofConfig c {}).Unlimited :=
  ⟨(holds_ofConfig c none).sound, rfl, fun _ hy => nomatch hy⟩

/-- A request keeps an unlimited table and adds its rows. -/
theorem Unlimited.serve (ht : t.Unlimited) (h : t.Holds rows) (r : TableRequest)
    (hr : ∀ x ∈ r.rows, x.Storable) :
    (r.serve t).2.Unlimited ∧ (r.serve t).2.Holds (rows ++ r.rows) := by
  cases r with
  | insert x =>
    obtain ⟨t₁, hinsert, h₁⟩ := ht.insert (hr x (List.mem_singleton_self x))
    have hserve : (TableRequest.insert x).serve t = (.ok (), t₁) := by
      rw [TableRequest.serve, hinsert]
    rw [hserve]
    exact ⟨h₁, h.serve hserve⟩
  | load batch =>
    by_cases hbatch : batch < t.batchCount
    · obtain ⟨t₁, hload, h₁⟩ := ht.loadBatch hbatch
      have hserve : (TableRequest.load batch).serve t = (.ok (), t₁) := hload
      rw [hserve]
      exact ⟨h₁, h.serve hserve⟩
    · -- There is no such batch, and nothing happens.
      obtain ⟨e, hload⟩ := loadBatch_out_of_range (Nat.not_lt.mp hbatch)
      rw [TableRequest.serve, hload, TableRequest.rows, List.append_nil]
      exact ⟨ht, h⟩

/-- After any requests an unlimited table holds just the rows inserted, each in its batch. -/
theorem Unlimited.run (rs : List TableRequest) (ht : t.Unlimited) (h : t.Holds rows)
    (hrs : ∀ x ∈ inserted rs, x.Storable) :
    (HashTable.run rs t).Unlimited ∧ (HashTable.run rs t).Holds (rows ++ inserted rs) := by
  induction rs generalizing t rows with
  | nil => exact ⟨ht, by rwa [inserted, List.flatMap_nil, List.append_nil]⟩
  | cons r rs ih =>
    rw [inserted, List.flatMap_cons] at hrs
    have hfirst : ∀ x ∈ r.rows, x.Storable := by
      intro x hx
      exact hrs x (List.mem_append_left _ hx)
    have hothers : ∀ x ∈ inserted rs, x.Storable := by
      intro x hx
      exact hrs x (List.mem_append_right _ hx)
    obtain ⟨ht₁, h₁⟩ := ht.serve h r hfirst
    have hrun := ih ht₁ h₁ hothers
    rw [HashTable.run, inserted, List.flatMap_cons, ← List.append_assoc]
    exact hrun

/-- A table with all its rows in their batches answers as the map. -/
theorem Holds.answersAs (h : t.Holds rows) (ht : t.Unlimited) : t.AnswersAs rows where
  found hash xs hlookup := by
    by_cases hb : t.batchOf hash = t.current
    · rw [h.lookup_current hb] at hlookup
      split at hlookup
      · simp at hlookup
      · next hrows =>
        obtain rfl := HashLookup.found.inj hlookup
        exact ⟨rfl, hrows⟩
    · obtain ⟨hnone, -⟩ | hnone := h.lookup_other hb <;> simp [hnone] at hlookup
  noMatch hash hlookup := by
    by_cases hb : t.batchOf hash = t.current
    · rw [h.lookup_current hb] at hlookup
      split at hlookup
      · assumption
      · simp at hlookup
    · -- An empty file means that there are no rows at all in the batch.
      obtain ⟨-, hrows⟩ | hnone := h.lookup_other hb
      · exact hrows
      · simp [hnone] at hlookup
  notLoaded hash b hlookup := by
    by_cases hb : t.batchOf hash = t.current
    · rw [h.lookup_current hb] at hlookup
      split at hlookup <;> simp at hlookup
    · obtain ⟨hnone, -⟩ | hnone := h.lookup_other hb
      · simp [hnone] at hlookup
      · obtain rfl := HashLookup.notLoaded.inj (hnone.symm.trans hlookup)
        obtain ⟨t₁, hload, -⟩ := ht.loadBatch (t.batchOf_lt hash)
        exact ⟨rfl, hb, t₁, hload, h.lookup_loadBatch hload⟩
  insert x hx := by
    obtain ⟨t₁, hinsert, -⟩ := ht.insert hx
    rw [hinsert]
  load b hb := by
    obtain ⟨t₁, hload, -⟩ := ht.loadBatch hb
    rw [hload]

/-- After any requests to a new table over files without a limit, the table answers as the map
of the rows inserted, as long as these can be written to files. -/
theorem answersAs_run_ofConfig (c : HashTableConfig) (rs : List TableRequest)
    (hrs : ∀ x ∈ inserted rs, x.Storable) : (run rs (ofConfig c {})).AnswersAs (inserted rs) := by
  obtain ⟨ht, h⟩ := (unlimited_ofConfig c).run rs (holds_ofConfig c none) hrs
  exact h.answersAs ht

/-- Requests that split a table and switch its batches. -/
def splittingRequests : List TableRequest :=
  [.insert ⟨0, ⟨[.int32 1]⟩⟩, .insert ⟨1024, ⟨[.int32 2]⟩⟩, .load 1, .insert ⟨0, ⟨[.int32 3]⟩⟩]

theorem answersAs_run_splitting :
    (∀ x ∈ inserted splittingRequests, x.Storable) ∧
      (run splittingRequests (ofConfig (.single 100 4) {})).AnswersAs
        (inserted splittingRequests) :=
  ⟨by decide, answersAs_run_ofConfig (.single 100 4) splittingRequests (by decide)⟩

end HashTable

end PullQuery
