import PullQuery.Proofs.Hash.Budget
import PullQuery.Proofs.Hash.Transfers
import PullQuery.Proofs.Node.WholeInput

/-!
# The counters of a hash node and its table

A hash node takes over the counters of its table when it has built it. Loading a batch takes over
the bytes alone, and a restart that keeps the table takes over nothing, though both may write rows
to files. So the node has counted all that its table wrote but the rows that have left memory
since. The batches and the peak of the memory are right at any time: neither changes the batches,
and the batch that a restart brings back fitted into memory when the table was built.

## Main definitions

* `HashBuild.Uncounted`: what a node has not counted, `HashBuild.Uncounted.after`
* `HashBuild.Tallies`: the counters of a node against its table
* `Node.InStep`: the counters of a node are those of its table

## Main results

* `HashBuild.tallies_install`, `HashBuild.Tallies.noteLoad`, `HashBuild.Tallies.rewind`
* `Node.Tallied.serve`: what a request that succeeds leaves uncounted
* `Node.inStep_run_iff`
-/

namespace PullQuery

namespace HashBuild

variable {n : HashBuild} {s s₁ : State} {t t' : HashTable} {ctx : Context} {c : Counters}

/-! ## What is not counted -/

/-- The rows that a node has not counted as written, and those whose bytes it has not counted. -/
structure Uncounted where
  rows : List SpilledTuple := []
  bytes : List SpilledTuple := []

/-- What is not counted after a request that succeeds; `t` is the table before. -/
def Uncounted.after (u : Uncounted) (t : HashTable) : NodeRequest → Uncounted
  -- The bytes are taken over from the table, but not the rows.
  | .hash (.load batch) => { rows := u.rows ++ t.leaving batch }
  -- The table is kept and its first batch comes back, and nothing is taken over.
  | .rescan none => ⟨u.rows ++ t.leaving 0, u.bytes ++ t.leaving 0⟩
  | .rescan (some _) => {}
  | _ => u

variable {u : Uncounted}

/-- Whether counters are those of a table, but for what is not counted. -/
structure Tallies (c : Counters) (t : HashTable) (u : Uncounted) : Prop where
  holds : ∃ rows, t.Holds rows
  /-- The first batch was in memory once. -/
  first_le_peak : sumBy SpilledTuple.size (t.batchRows 0) ≤ t.peak
  batches : c.batches = t.batchCount
  peak : t.peak ≤ c.peakMemory
  spilled : c.spilledTuples + u.rows.length = t.spilled
  bytes : c.spillBytes + sumBy SpilledTuple.encodedSize u.bytes = t.store.bytesWritten

namespace Tallies

/-- Loading a batch counts bytes and memory. -/
theorem noteLoad {batch : Nat} (h : Tallies s.base.counters t u)
    (hl : t.loadBatch batch = (.ok (), t')) :
    Tallies (s.noteLoad t').base.counters t' (u.after t (.hash (.load batch))) := by
  obtain ⟨rows, hholds⟩ := h.holds
  have hwrites := hholds.writes_loadBatch hl
  refine ⟨⟨rows, (hholds.loadBatch hl).1⟩, ?_, ?_, Nat.le_max_right .., ?_, Nat.add_zero _⟩
  · rw [hholds.batchRows_loadBatch hl]
    exact h.first_le_peak.trans (HashTable.peak_le_loadBatch hl)
  · exact h.batches.trans (hholds.batchCount_loadBatch hl).symm
  · show s.base.counters.spilledTuples + (u.rows ++ t.leaving batch).length = t'.spilled
    rw [hwrites.spilled, ← h.spilled, List.length_append, Nat.add_assoc]

/-- Bringing the first batch back takes no more memory than there was, so that the peak stays
right without being taken over. -/
theorem rewind (h : Tallies c t u) (hl : t.loadBatch 0 = (.ok (), t')) :
    Tallies c t' (u.after t (.rescan none)) := by
  obtain ⟨rows, hholds⟩ := h.holds
  have hwrites := hholds.writes_loadBatch hl
  refine ⟨⟨rows, (hholds.loadBatch hl).1⟩, ?_, ?_, ?_, ?_, ?_⟩
  · rw [hholds.batchRows_loadBatch hl]
    exact h.first_le_peak.trans (HashTable.peak_le_loadBatch hl)
  · exact h.batches.trans (hholds.batchCount_loadBatch hl).symm
  · have hpeak := hholds.peak_loadBatch_le hl
    rw [Nat.max_eq_left h.first_le_peak] at hpeak
    exact hpeak.trans h.peak
  · show c.spilledTuples + (u.rows ++ t.leaving 0).length = t'.spilled
    rw [hwrites.spilled, ← h.spilled, List.length_append, Nat.add_assoc]
  · show c.spillBytes + sumBy SpilledTuple.encodedSize (u.bytes ++ t.leaving 0) = _
    rw [hwrites.bytesWritten, ← h.bytes, sumBy_append, Nat.add_assoc]

end Tallies

section Build

variable {σ : Type} {next : σ → Session → Except Error (Option Slot) × σ × Session}

theorem budgeted_of_absorb {row : Row} (ht : t.Budgeted) {t₁ : HashTable}
    (h : n.absorb t s row = (.ok t₁, s₁)) : t₁.Budgeted := by
  unfold absorb at h
  split at h
  · simp at h
  · obtain rfl := Except.ok.inj (Prod.mk.inj h).1
    exact ht
  · next hash _ =>
    have hinserted := (ht.insert ⟨hash, row⟩).1
    split at h
    · simp at h
    · next hinsert =>
      rw [hinsert] at hinserted
      obtain rfl := Except.ok.inj (Prod.mk.inj h).1
      exact hinserted

/-- All is counted once a table is built. -/
theorem tallies_install {width limit : Nat} {i i₁ : σ} {w w₁ : Session}
    (h : n.drain next limit (n.emptyTable ctx width) s i w = (.ok t, s₁, i₁, w₁)) :
    Tallies (s₁.install t).base.counters t {} := by
  have hcurrent : t.current = 0 := current_of_drain h
  have hbudgeted : t.Budgeted := by
    refine table_of_drain (Q := fun _ => True) (fun _ _ _ => trivial) ?_ trivial
      (HashTable.budgeted_ofConfig _ _) h
    intro _ _ _ _ _ _ _ t' s' t₂ s₂ ht' habsorb
    exact budgeted_of_absorb ht' habsorb
  refine ⟨holds_of_drain h, ?_, rfl, Nat.le_max_right .., Nat.add_zero _, Nat.add_zero _⟩
  rw [← hcurrent, HashTable.batchRows_current, ← hbudgeted.used_eq]
  exact hbudgeted.used_le_peak

end Build

end HashBuild

/-! ## Requests -/

namespace Node

open HashBuild (Uncounted Tallies)

variable {ctx : Context} {op : Operator} {build : HashBuild} {n n' : Node (.hash build op)}
  {s : HashBuild.State} {input : Node op} {u : Uncounted} {r : NodeRequest} {w : Session}

/-- Whether the counters of a hash node are those of its table, if it has one, but for what is
not counted. -/
def Tallied (n : Node (.hash build op)) (u : Uncounted) : Prop :=
  ∀ t, n.hashState.table? = some t → Tallies n.base.counters t u

/-- What a hash node has not counted after a request that succeeds. Without a table there is
nothing to count. -/
def uncountedAfter (n : Node (.hash build op)) (u : Uncounted) (r : NodeRequest) : Uncounted :=
  match n.hashState.table? with
  | none => {}
  | some t => u.after t r

theorem tallied_of_none (h : n.hashState.table? = none) : n.Tallied u := by
  intro t ht
  rw [h] at ht
  contradiction

namespace Tallied

/-- A request that leaves the table alone leaves as much uncounted as there was. -/
theorem keep (h : n'.Tallied u) (ht : n'.hashState.table? = n.hashState.table?)
    (hr : ∀ t, u.after t r = u) : n'.Tallied (n.uncountedAfter u r) := by
  rw [uncountedAfter]
  split
  · next hnone => exact tallied_of_none (ht.trans hnone)
  · next t _ => rwa [hr t]

theorem countLoop (h : (hash s input : Node (.hash build op)).Tallied u) :
    (hash { s with base := s.base.countLoop } input : Node (.hash build op)).Tallied u := by
  intro t ht
  obtain ⟨hholds, hfirst, hbatches, hpeak, hspilled, hbytes⟩ := h t ht
  exact ⟨hholds, hfirst, hbatches, hpeak, hspilled, hbytes⟩

theorem init (h : n.Tallied u) (flags : Flags) :
    (n.init ctx (.hash build op) flags).2.Tallied (n.uncountedAfter u (.init flags)) := by
  cases n with | hash s input
  rw [Node.init_hash]
  split
  · exact h.keep rfl fun _ => rfl
  · dsimp only
    split
    · exact keep h rfl fun _ => rfl
    · exact keep h.countLoop rfl fun _ => rfl

/-- All is counted once a table is built, and nothing is done if it is there. -/
theorem of_build {limit : Nat} (h : (hash s input : Node (.hash build op)).Tallied u)
    {s' : HashBuild.State} {input' : Node op} {w' : Session}
    (hb : build.build ctx op.shape.width (Node.next ctx op) limit s input w =
      (.ok (), s', input', w')) (hr : ∀ t, u.after t r = u) :
    (hash s' input' : Node (.hash build op)).Tallied
      ((hash s input : Node (.hash build op)).uncountedAfter u r) := by
  obtain ⟨-, rfl, -, -⟩ | ⟨-, -, ht, ⟨e, _, -, hfails, -⟩ | ⟨t, s₁, hdrain, -, rfl⟩⟩ :=
    HashBuild.build_cases hb
  · exact keep h rfl hr
  · simp at hfails
  · rw [uncountedAfter]
    simp only [hashState, ht]
    rintro t' ⟨⟩
    exact HashBuild.tallies_install hdrain

theorem next (h : n.Tallied u) (hok : (n.next ctx (.hash build op) w).1.isOk = true) :
    (n.next ctx (.hash build op) w).2.1.Tallied (n.uncountedAfter u .next) := by
  cases n with | hash s input
  rw [Node.next] at hok ⊢
  rcases hfetch : admitFetch (.hash build op) s.base with e | _ | _
  · rw [hfetch] at hok
    contradiction
  · exact keep h rfl fun _ => rfl
  · rcases hb : build.build ctx op.shape.width (Node.next ctx op) (rowsAhead op input + 1) s input w
      with ⟨e | _, s', input', w'⟩
    · simp only [hfetch, hb] at hok
      contradiction
    · have hbuilt := of_build (r := .next) h hb fun _ => rfl
      simp only
      exact hbuilt

/-- A restart gives the table up or loads its first batch. -/
theorem rescan (h : n.Tallied u) {params? : Option (List Value)}
    (hok : (n.rescan params? (.hash build op)).1.isOk = true) :
    (n.rescan params? (.hash build op)).2.Tallied (n.uncountedAfter u (.rescan params?)) := by
  cases n with | hash s input
  rcases hrun : s.base.state.ensureRunning .hash "rescan" with e | _
  · rw [Node.rescan_hash, hrun] at hok
    contradiction
  · rcases hrebuilds : HashBuild.rebuilds s params? with _ | _
    · obtain ⟨rfl, t, ht⟩ := HashBuild.of_not_rebuilds hrebuilds
      rw [Node.rescan_hash, hrun] at hok ⊢
      dsimp only at hok ⊢
      rw [HashBuild.rebuilds_base, hrebuilds, if_neg Bool.false_ne_true, HashBuild.rewind] at hok ⊢
      simp only [ht] at hok ⊢
      rcases hload : t.loadBatch 0 with ⟨e | _, t'⟩
      · rw [hload] at hok
        contradiction
      -- Going back to the first batch may spill rows that the counters do not see.
      · have hloaded : (hash { s with table? := some t', base := s.base.restarted none } input :
            Node (.hash build op)).Tallied
              ((hash s input : Node (.hash build op)).uncountedAfter u (.rescan none)) := by
          rintro t₁ ⟨⟩
          rw [uncountedAfter]
          simp only [hashState, ht]
          exact (h t ht).rewind hload
        exact hloaded.countLoop
    -- The table is dropped, so that there is nothing to tally.
    · refine tallied_of_none ?_
      rw [Node.rescan_hash, hrun]
      simp only [HashBuild.rebuilds_base, hrebuilds, if_true]
      split
      · rfl
      · rfl

/-- Loading a batch takes bytes and memory over. -/
theorem load (h : (hash s input : Node (.hash build op)).Tallied u) {batch : Nat}
    (hok : (HashBuild.loadBatch s batch).1.isOk = true) :
    (hash (HashBuild.loadBatch s batch).2 input : Node (.hash build op)).Tallied
      ((hash s input : Node (.hash build op)).uncountedAfter u (.hash (.load batch))) := by
  rw [HashBuild.loadBatch] at hok ⊢
  split at hok
  · contradiction
  · split at hok
    · contradiction
    · next t ht =>
      split at hok
      · contradiction
      · next t' hload =>
        rintro t₁ ⟨⟩
        rw [uncountedAfter]
        simp only [hashState, ht]
        exact (h t ht).noteLoad hload

/-- What a request that succeeds leaves uncounted. -/
theorem serve (h : n.Tallied u) (hok : (r.serve ctx (.hash build op) n w).1.isOk = true) :
    (r.serve ctx (.hash build op) n w).2.1.Tallied (n.uncountedAfter u r) := by
  cases r with
  | init flags => exact h.init flags
  | next => exact h.next hok
  | bitmap =>
    change (n.buildBitmap ctx (.hash build op)).2.Tallied _
    rw [buildBitmap_left (by simp)]
    exact h.keep rfl fun _ => rfl
  | rescan params? => exact h.rescan hok
  | mark => cases n with | hash s input => exact keep h rfl fun _ => rfl
  | restore => cases n with | hash s input => exact keep h rfl fun _ => rfl
  | finish =>
    cases n with | hash s input
    change (Node.finish (.hash build op) (hash s input)).Tallied _
    rw [Node.finish_hash]
    split
    · exact keep h rfl fun _ => rfl
    · exact tallied_of_none rfl
  | hash request =>
    cases n with | hash s input
    cases request with
    | build =>
      rcases hb : build.build ctx op.shape.width (Node.next ctx op) (rowsAhead op input + 1) s
        input w with ⟨e | _, s', input', w'⟩
      · simp [NodeRequest.serve, HashRequest.serve, buildTable, hb, NodeAnswer.isOk] at hok
        contradiction
      · have hbuilt := of_build (r := .hash .build) h hb fun _ => rfl
        simpa only [NodeRequest.serve, HashRequest.serve, buildTable, hb] using hbuilt
    | load batch => exact load h hok
    | lookup hash => exact keep h rfl fun _ => rfl
  | interrupt set => exact h.keep rfl fun _ => rfl

end Tallied

/-! ## Runs -/

/-- What a hash node has not counted after requests in turn that succeed. -/
def uncounted (ctx : Context) :
    List NodeRequest → Node (.hash build op) → Session → Uncounted → Uncounted
  | [], _, _, u => u
  | r :: rs, n, w, u =>
    uncounted ctx rs (r.serve ctx (.hash build op) n w).2.1 (r.serve ctx (.hash build op) n w).2.2
      (n.uncountedAfter u r)

theorem Tallied.run (rs : List NodeRequest) (h : n.Tallied u)
    (hok : ∀ a ∈ answers ctx (.hash build op) rs n w, a.isOk = true) :
    (run ctx (.hash build op) rs n w).1.Tallied (uncounted ctx rs n w u) := by
  induction rs generalizing n w u with
  | nil => exact h
  | cons r rs ih =>
    refine ih (h.serve (hok _ (List.mem_cons_self ..))) ?_
    intro a ha
    exact hok a (List.mem_cons_of_mem _ ha)

/-- Whether the counters of a hash node are those of its table, if it has one. -/
def InStep (n : Node (.hash build op)) : Prop :=
  ∀ t, n.hashState.table? = some t →
    n.base.counters.batches = t.batchCount ∧
      n.base.counters.spilledTuples = t.spilled ∧
      n.base.counters.spillBytes = t.store.bytesWritten ∧
      t.peak ≤ n.base.counters.peakMemory

/-- After requests that succeed, the batches and the peak of the memory are those of the table,
and what it wrote is counted but for the rows that have left memory since it was built and, among
the bytes, since a batch was loaded last. So the counters are in step just if there are none. -/
theorem inStep_run_iff (ctx : Context) (build : HashBuild) (op : Operator) (rs : List NodeRequest)
    (w : Session)
    (hok : ∀ a ∈ answers ctx (.hash build op) rs (fresh (.hash build op)) w, a.isOk = true)
    {t : HashTable}
    (ht : (run ctx (.hash build op) rs (fresh (.hash build op)) w).1.hashState.table? = some t) :
    let n := (run ctx (.hash build op) rs (fresh (.hash build op)) w).1
    let u := uncounted ctx rs (fresh (.hash build op)) w {}
    n.base.counters.batches = t.batchCount ∧
      t.peak ≤ n.base.counters.peakMemory ∧
      n.base.counters.spilledTuples + u.rows.length = t.spilled ∧
      n.base.counters.spillBytes + sumBy SpilledTuple.encodedSize u.bytes =
        t.store.bytesWritten ∧
      (InStep n ↔ u.rows = [] ∧ u.bytes = []) := by
  intro n u
  have hfresh : (fresh (.hash build op)).Tallied {} := tallied_of_none rfl
  have htallies : Tallies n.base.counters t u := hfresh.run rs hok t ht
  refine ⟨htallies.batches, htallies.peak, htallies.spilled, htallies.bytes, ?_, ?_⟩
  · intro hstep
    obtain ⟨-, hspilled, hbytes, -⟩ := hstep t ht
    have hrows : u.rows.length = 0 := by
      have hcounted := htallies.spilled
      omega
    have hnone : sumBy SpilledTuple.encodedSize u.bytes = 0 := by
      have hcounted := htallies.bytes
      omega
    refine ⟨List.eq_nil_of_length_eq_zero hrows, ?_⟩
    -- No row is encoded in no bytes.
    cases hu : u.bytes with
    | nil => rfl
    | cons x xs =>
      rw [hu, sumBy_cons, SpilledTuple.encodedSize] at hnone
      omega
  · rintro ⟨hrows, hbytes⟩ t' ht'
    obtain rfl : t = t' := Option.some.inj (ht.symm.trans ht')
    have hspilled := htallies.spilled
    have hwritten := htallies.bytes
    rw [hrows, List.length_nil, Nat.add_zero] at hspilled
    rw [hbytes, sumBy_nil, Nat.add_zero] at hwritten
    exact ⟨htallies.batches, hspilled, hwritten, htallies.peak⟩

/-! ### Batches that are switched -/

/-- A hash node that begins with two batches, over a scan of two numbers. Their hashes are of
different batches. -/
def hashedInTwo : Operator :=
  .hash { HashBuild.byFirst with estimatedRows := 3 }
    (.seqScan ⟨.ofHeap (oneNumber.insert ⟨[.int64 2]⟩ 2).2, .forward, none⟩)

/-- Memory for one of the numbers. -/
def inLittleMemory : Context := { config := { workMem := 100, maxBatches := 2 } }

/-- Nothing is uncounted once the table is built. -/
theorem inStep_run_built :
    (∀ a ∈ answers inLittleMemory hashedInTwo [.init {}, .hash .build] (fresh hashedInTwo) {},
        a.isOk = true) ∧
      InStep
        (run inLittleMemory hashedInTwo [.init {}, .hash .build] (fresh hashedInTwo) {}).1 := by
  have hok : ∀ a ∈ answers inLittleMemory hashedInTwo [.init {}, .hash .build]
      (fresh hashedInTwo) {}, a.isOk = true := List.all_eq_true.mp (by decide +kernel)
  obtain ⟨-, -, -, -, hstep⟩ := inStep_run_iff inLittleMemory _ _ _ {} hok rfl
  exact ⟨hok, hstep.mpr ⟨rfl, rfl⟩⟩

/-- The second batch is loaded, and the node is started again. -/
def loadedAndRestarted : List NodeRequest :=
  [.init {}, .hash .build, .hash (.load 1), .rescan none]

/-- One row leaves memory for the second batch, and the other one when the first batch comes back.
The node has counted neither. -/
theorem not_inStep_loadedAndRestarted :
    (∀ a ∈ answers inLittleMemory hashedInTwo loadedAndRestarted (fresh hashedInTwo) {},
        a.isOk = true) ∧
      ¬ InStep (run inLittleMemory hashedInTwo loadedAndRestarted (fresh hashedInTwo) {}).1 := by
  refine ⟨List.all_eq_true.mp (by decide +kernel), ?_⟩
  intro hstep
  generalize hn : (run inLittleMemory hashedInTwo loadedAndRestarted (fresh hashedInTwo) {}).1 = n
    at hstep
  have hcounted : n.base.counters.spilledTuples = 1 := by
    rw [← hn]
    decide +kernel
  have hwritten : n.hashState.table?.map (·.spilled) = some 3 := by
    rw [← hn]
    decide +kernel
  obtain ⟨t, ht, hspilled⟩ := Option.map_eq_some_iff.mp hwritten
  obtain ⟨-, hsame, -⟩ := hstep t ht
  have hthree : (1 : Nat) = 3 := hcounted.symm.trans (hsame.trans hspilled)
  exact absurd hthree (by decide)

end Node

end PullQuery
