import PullQuery.Proofs.Node.Likeness

/-!
# Observing a tree

A consumer pulls rows from a tree, or it takes its bitmap, or it has its table built, looks up
hashes and loads batches. Alike trees cannot be told apart in this way.

## Main definitions

* `Observation`, `Observation.requests`

## Main results

* `Node.Alike.answers_eq`: alike trees give the same answers to every observation
-/

namespace PullQuery

variable {ctx : Context}

/-- What a consumer does with a tree: it asks for rows, or for the bitmap, or it builds the
table and goes on with requests to it. -/
inductive Observation where
  | rows (count : Nat)
  | bitmap
  | table (requests : List HashRequest)

/-- The requests of an observation. -/
def Observation.requests : Observation → List NodeRequest
  | rows count => .replicate count .next
  | bitmap => [.bitmap]
  | table requests => (.build :: requests).map .hash

theorem Observation.not_isInit (o : Observation) : ∀ r ∈ o.requests, ¬ r.IsInit := by
  cases o with
  | rows count =>
    intro r hr
    rw [List.eq_of_mem_replicate hr]
    exact id
  | bitmap =>
    intro r hr
    rw [List.mem_singleton.mp hr]
    exact id
  | table requests =>
    intro r hr
    obtain ⟨request, -, rfl⟩ := List.mem_map.mp hr
    exact id

namespace HashBuild.Finished

variable {s s' : HashBuild.State}

theorem lookup_eq (h : Finished s s') (hbase : s.base.Alike s'.base) (hash : UInt32) :
    lookup s hash = lookup s' hash := by
  unfold lookup
  rw [← hbase.state_eq]
  rcases s.base.state.ensureRunning .hash "probe" with e | _
  · rfl
  · cases h with
    | aborted ht ht' ha ha' => rw [ht, ht']
    | built ht ht' ha ha' htables =>
      rw [ht, ht']
      exact congrArg Except.ok (htables.lookup_eq hash)

theorem loadBatch (h : Finished s s') (hbase : s.base.Alike s'.base) (batch : Nat) :
    (loadBatch s batch).1 = (loadBatch s' batch).1 ∧
      (loadBatch s batch).2.base.Alike (loadBatch s' batch).2.base ∧
      Finished (loadBatch s batch).2 (loadBatch s' batch).2 := by
  unfold HashBuild.loadBatch
  rw [← hbase.state_eq]
  rcases s.base.state.ensureRunning .hash "load a batch into" with e | _
  · exact ⟨rfl, hbase, h⟩
  · cases h with
    | aborted ht ht' ha ha' =>
      rw [ht, ht']
      exact ⟨rfl, hbase, .aborted ht ht' ha ha'⟩
    | @built t t' ht ht' ha ha' htables =>
      obtain ⟨hanswer, hafter⟩ := htables.loadBatch batch
      rw [ht, ht']
      dsimp only
      generalize t.loadBatch batch = x at hanswer hafter ⊢
      generalize t'.loadBatch batch = y at hanswer hafter ⊢
      obtain ⟨r, t₁⟩ := x
      obtain ⟨r', t₁'⟩ := y
      obtain rfl : r = r' := hanswer
      rcases r with e | _
      · exact ⟨rfl, hbase, .built rfl rfl ha ha' hafter⟩
      · exact ⟨rfl, ⟨hbase.state_eq, hbase.params_eq⟩, .built rfl rfl ha ha' hafter⟩

end HashBuild.Finished

namespace Node

variable {c : Company} {op : Operator} {w w' : Session}

theorem Alike.answers_rows (hop : op.Reliable) {n n' : Node op} (h : Alike ctx c op n n')
    (hw : c.Keeps ctx w w') (count : Nat) :
    answers ctx op (Observation.rows count).requests n w =
      answers ctx op (Observation.rows count).requests n' w' := by
  induction count generalizing n n' w w' with
  | zero => rfl
  | succ count ih =>
    obtain ⟨hanswer, hleft, hsession⟩ := Alike.next hop n n' w w' h hw
    rw [Observation.requests, List.replicate_succ, answers, answers]
    exact congrArg₂ List.cons (congrArg NodeAnswer.row hanswer) (ih hleft hsession)

theorem answers_finished {build : HashBuild} {s s' : HashBuild.State} {input input' : Node op}
    (h : HashBuild.Finished s s') (hbase : s.base.Alike s'.base)
    (hrun : s.base.state.isRunning = true) (rs : List HashRequest) :
    answers ctx (.hash build op) (rs.map .hash) (hash s input) w =
      answers ctx (.hash build op) (rs.map .hash) (hash s' input') w' := by
  induction rs generalizing s s' with
  | nil => rfl
  | cons r rs ih =>
    cases r with
    | build =>
      obtain ⟨r, hbuild, hbuild'⟩ := h.exists_build hrun (hbase.state_eq ▸ hrun) build ctx
        op.shape.width (next ctx op)
      rw [List.map_cons, answers, answers]
      simp only [NodeRequest.serve, HashRequest.serve, buildTable, hbuild, hbuild']
      exact congrArg _ (ih h hbase hrun)
    | load batch =>
      obtain ⟨hanswer, hbase', hafter⟩ := h.loadBatch hbase batch
      have hrun' : (HashBuild.loadBatch s batch).2.base.state.isRunning = true :=
        (HashBuild.loadBatch_alike s batch).state_eq ▸ hrun
      exact congrArg₂ List.cons (congrArg NodeAnswer.outcome hanswer) (ih hafter hbase' hrun')
    | lookup hash =>
      exact congrArg₂ List.cons (congrArg NodeAnswer.found (h.lookup_eq hbase hash))
        (ih h hbase hrun)

/-- Alike hash nodes build alike and find alike. -/
theorem Alike.answers_table {build : HashBuild} (hop : op.Reliable) {n n' : Node (.hash build op)}
    (h : Alike ctx c (.hash build op) n n') (hrun : n.base.state.isRunning = true)
    (hw : c.Keeps ctx w w') (rs : List HashRequest) :
    answers ctx (.hash build op) (Observation.table rs).requests n w =
      answers ctx (.hash build op) (Observation.table rs).requests n' w' := by
  cases n with | hash s input
  cases n' with | hash s' input'
  obtain ⟨hbase, hhash⟩ := h
  have hlimit : ∀ i i', Alike ctx c op i i' → rowsAhead op i + 1 = rowsAhead op i' + 1 := by
    intro i i' hi
    rw [hi.rowsAhead_eq]
  rcases hx : build.build ctx op.shape.width (Node.next ctx op) (rowsAhead op input + 1) s input
    w with ⟨r, s₁, input₁, w₁⟩
  rcases hy : build.build ctx op.shape.width (Node.next ctx op) (rowsAhead op input' + 1) s' input'
    w' with ⟨r', s₁', input₁', w₁'⟩
  obtain ⟨hanswer, hbase₁, hfinished, -⟩ :=
    hhash.build (Alike.next hop) hlimit hbase hrun hw hx hy
  obtain rfl : r = r' := hanswer
  have hrun₁ : s₁.base.state.isRunning = true := by
    have hlife : s.base.Alike (build.build ctx op.shape.width (Node.next ctx op)
        (rowsAhead op input + 1) s input w).2.1.base := HashBuild.build_alike
    rw [hx] at hlife
    exact hlife.state_eq ▸ hrun
  rw [Observation.requests, List.map_cons, answers, answers]
  simp only [NodeRequest.serve, HashRequest.serve, buildTable, hx, hy]
  exact congrArg _ (answers_finished hfinished hbase₁ hrun₁ rs)

/-- Other nodes refuse what is asked of hash nodes. -/
theorem answers_of_not_hash (hop : ∀ build input, op ≠ .hash build input) (n : Node op)
    (rs : List HashRequest) :
    answers ctx op (rs.map .hash) n w = rs.map fun _ => .notHash := by
  induction rs with
  | nil => rfl
  | cons r rs ih =>
    cases n with
    | hash s input => exact absurd rfl (hop _ _)
    | seqScan s => exact congrArg (List.cons _) ih
    | bitmap s => exact congrArg (List.cons _) ih
    | subquery s input => exact congrArg (List.cons _) ih

/-- The answers to any observation of alike trees are the same. -/
theorem Alike.answers_eq (hop : op.Reliable) {n n' : Node op} (h : Alike ctx c op n n')
    (hrun : n.base.state.isRunning = true) (hw : c.Keeps ctx w w') (o : Observation) :
    answers ctx op o.requests n w = answers ctx op o.requests n' w' := by
  cases o with
  | rows count => exact h.answers_rows hop hw count
  | bitmap => exact congrArg (fun r => [NodeAnswer.bitmap r]) h.buildBitmap_eq
  | table rs =>
    cases op with
    | hash build op =>
      have hinput : op.Reliable := hop
      exact Alike.answers_table hinput h hrun hw rs
    | seqScan scan =>
      have hother : ∀ build input, Operator.seqScan scan ≠ .hash build input := by simp
      exact (answers_of_not_hash hother n _).trans (answers_of_not_hash hother n' _).symm
    | bitmap op =>
      have hother : ∀ build input, Operator.bitmap op ≠ .hash build input := by simp
      exact (answers_of_not_hash hother n _).trans (answers_of_not_hash hother n' _).symm
    | subquery scan op =>
      have hother : ∀ build input, Operator.subquery scan op ≠ .hash build input := by simp
      exact (answers_of_not_hash hother n _).trans (answers_of_not_hash hother n' _).symm

end Node

end PullQuery
