import PullQuery.Proofs.Hash.Refinement
import PullQuery.Proofs.Node.Running

/-!
# What requests leave of a tree

Whatever is asked of a tree, its nodes run with the same parameter values and its scans stand
before versions of their relations. A hash node that has no table and has not failed to build it
has not touched its input; and if rows can be stored, a table that it has is the one that it
built from its input as that was when it had just been started.

## Main definitions

* `Node.Runs`: the tree is running
* `Node.Pristine`: it has just been initialized
* `Node.LikeNew`: it has just been started, and may have kept tables
* `Node.Sound`: its tables were built from inputs that had just been started

## Main results

* `Node.pristine_of_init`
* `Node.Runs.next`, `Node.Sound.next`
-/

namespace PullQuery

variable {ctx : Context} {params : List Value}

/-- Whether the rows that hash nodes read can be written to files. -/
def Operator.RowsStorable (ctx : Context) (params : List Value) : Operator → Prop
  | seqScan _ => True
  | bitmap _ => True
  | subquery _ op => RowsStorable ctx params op
  | hash _ op => RowsStorable ctx params op ∧
    ∀ t ∈ op.versions, ∀ slot row hash, op.outcome ctx params t = some (.ok slot) →
      slot.row? = some row → SpilledTuple.Storable ⟨hash, row⟩

/-! ## Hash nodes -/

namespace HashBuild

variable {σ : Type}

/-- Whether a table came out of an input that had just been started, but for batches that were
loaded since. -/
structure Kept (n : HashBuild) (ctx : Context) (width : Nat)
    (next : σ → Session → Except Error (Option Slot) × σ × Session) (limit : σ → Nat)
    (params : List Value) (P : σ → Prop) (t : HashTable) : Prop where
  unlimited : t.Unlimited
  origin : ∃ s₀ i₀ w₀ t₀ s₁ i₁ w₁, s₀.base.params = params ∧ P i₀ ∧
    n.drain next (limit i₀) (n.emptyTable ctx width) s₀ i₀ w₀ = (.ok t₀, s₁, i₁, w₁) ∧
    t₀.Unlimited ∧ t₀.current = 0 ∧ t₀.Alike t

variable {n : HashBuild} {width : Nat}
  {next : σ → Session → Except Error (Option Slot) × σ × Session} {limit : σ → Nat}
  {P : σ → Prop} {t t' : HashTable}

/-- Loading a batch keeps where a table came from. -/
theorem Kept.loadBatch (h : n.Kept ctx width next limit params P t) {batch : Nat}
    (hbatch : batch < t.batchCount) :
    ∃ t', t.loadBatch batch = (.ok (), t') ∧ t'.current = batch ∧
      n.Kept ctx width next limit params P t' := by
  obtain ⟨t', hload, hunlimited⟩ := h.unlimited.loadBatch hbatch
  obtain ⟨s₀, i₀, w₀, t₀, s₁, i₁, w₁, hparams, hi, hdrain, ht₀, hcurrent, halike⟩ := h.origin
  obtain ⟨rows, -, hholds⟩ := halike.rows
  exact ⟨t', hload, (hholds.loadBatch hload).2.1, hunlimited, s₀, i₀, w₀, t₀, s₁, i₁, w₁,
    hparams, hi, hdrain, ht₀, hcurrent, halike.loadBatch hload⟩

/-- What a hash node has to show for its history. -/
inductive Sound (kept : HashTable → Prop) (input likeNew : Prop) : State → Prop where
  /-- It has no table, and if it has not failed, it has not touched its input. -/
  | unbuilt {s : State} (ht : s.table? = none) (hinput : input)
    (hlikeNew : s.aborted = false → likeNew) : Sound kept input likeNew s
  | built {s : State} {t : HashTable} (ht : s.table? = some t) (ha : s.aborted = false)
    (hkept : kept t) : Sound kept input likeNew s

/-- Whether a hash node is as new, but for a table that it has kept. -/
inductive LikeNew (kept : HashTable → Prop) (input likeNew : Prop) : State → Prop where
  | unbuilt {s : State} (ht : s.table? = none) (ha : s.aborted = false) (hlikeNew : likeNew) :
    LikeNew kept input likeNew s
  | built {s : State} {t : HashTable} (ht : s.table? = some t) (ha : s.aborted = false)
    (hinput : input) (hcurrent : t.current = 0) (hkept : kept t) : LikeNew kept input likeNew s

end HashBuild

/-! ## Trees -/

namespace Node

/-- Whether a tree is running with parameter values. -/
def Runs (params : List Value) : (op : Operator) → Node op → Prop
  | .seqScan scan, .seqScan s => s.base.Runs params ∧
    ∃ rs rest, s.scan? = some rs ∧ rs.At scan.relation scan.direction rest
  | .bitmap op, .bitmap s => BitmapNode.Runs params op s
  | .subquery _ op, .subquery s input => s.base.Runs params ∧ Runs params op input
  | .hash _ op, .hash s input => s.base.Runs params ∧ Runs params op input

/-- Whether a tree has just been initialized. -/
def Pristine (params : List Value) : (op : Operator) → Node op → Prop
  | .seqScan scan, .seqScan s => s.base.Starts params ∧
    ∃ rs, s.scan? = some rs ∧
      rs.At scan.relation scan.direction (scan.relation.heap.inOrder scan.direction)
  | .bitmap op, .bitmap s => BitmapNode.Pristine params op s
  | .subquery _ op, .subquery s input => s.base.Starts params ∧ Pristine params op input
  | .hash _ op, .hash s input =>
    s.base.Starts params ∧ s.table? = none ∧ s.aborted = false ∧ Pristine params op input

/-- Whether a table of a hash node came out of an input that had just been started. -/
def Kept (ctx : Context) (params : List Value) (build : HashBuild) (op : Operator)
    (P : Node op → Prop) (t : HashTable) : Prop :=
  build.Kept ctx op.shape.width (next ctx op) (fun input => rowsAhead op input + 1) params P t

/-- Whether a tree has just been started, and differs from a pristine one in tables at most that
it has kept. -/
def LikeNew (ctx : Context) (params : List Value) : (op : Operator) → Node op → Prop
  | .seqScan scan, .seqScan s => s.base.Starts params ∧
    ∃ rs, s.scan? = some rs ∧
      rs.At scan.relation scan.direction (scan.relation.heap.inOrder scan.direction)
  | .bitmap op, .bitmap s => BitmapNode.Pristine params op s
  | .subquery _ op, .subquery s input => s.base.Starts params ∧ LikeNew ctx params op input
  | .hash build op, .hash s input => s.base.Starts params ∧
    HashBuild.LikeNew (Kept ctx params build op (LikeNew ctx params op)) (Runs params op input)
      (LikeNew ctx params op input) s

/-- Whether the hash nodes of a tree have built their tables from inputs that had just been
started. -/
def Sound (ctx : Context) (params : List Value) : (op : Operator) → Node op → Prop
  | .seqScan _, .seqScan _ => True
  | .bitmap _, .bitmap _ => True
  | .subquery _ op, .subquery _ input => Sound ctx params op input
  | .hash build op, .hash s input =>
    HashBuild.Sound (Kept ctx params build op (LikeNew ctx params op)) (Sound ctx params op input)
      (LikeNew ctx params op input) s

/-- Whether no hash node of a tree has a table. -/
def Untabled : (op : Operator) → Node op → Prop
  | .seqScan _, .seqScan _ => True
  | .bitmap _, .bitmap _ => True
  | .subquery _ op, .subquery _ input => Untabled op input
  | .hash _ op, .hash s input => s.table? = none ∧ Untabled op input

theorem Pristine.likeNew : {op : Operator} → {n : Node op} → Pristine params op n →
    LikeNew ctx params op n
  | .seqScan _, .seqScan _, h => h
  | .bitmap _, .bitmap _, h => h
  | .subquery _ _, .subquery _ _, h => ⟨h.1, h.2.likeNew⟩
  | .hash _ _, .hash _ _, h => ⟨h.1, .unbuilt h.2.1 h.2.2.1 h.2.2.2.likeNew⟩

theorem LikeNew.runs : {op : Operator} → {n : Node op} → LikeNew ctx params op n →
    Runs params op n
  | .seqScan _, .seqScan _, h => by
    obtain ⟨hbase, rs, hscan, hat⟩ := h
    exact ⟨hbase.runs, rs, _, hscan, hat⟩
  | .bitmap _, .bitmap _, h => BitmapNode.Pristine.runs h
  | .subquery _ _, .subquery _ _, h => ⟨h.1.runs, h.2.runs⟩
  | .hash _ _, .hash _ _, h => by
    obtain ⟨hbase, hhash⟩ := h
    cases hhash with
    | unbuilt ht ha hinput => exact ⟨hbase.runs, hinput.runs⟩
    | built ht ha hinput hcurrent hkept => exact ⟨hbase.runs, hinput⟩

theorem LikeNew.sound : {op : Operator} → {n : Node op} → LikeNew ctx params op n →
    Sound ctx params op n
  | .seqScan _, .seqScan _, _ => trivial
  | .bitmap _, .bitmap _, _ => trivial
  | .subquery _ _, .subquery _ _, h => by
    have hinput := LikeNew.sound h.2
    exact hinput
  | .hash _ _, .hash _ _, h => by
    obtain ⟨-, hhash⟩ := h
    cases hhash with
    | unbuilt ht ha hinput => exact .unbuilt ht hinput.sound fun _ => hinput
    | built ht ha hinput hcurrent hkept => exact .built ht ha hkept

theorem Runs.base {op : Operator} {n : Node op} (h : Runs params op n) : n.base.Runs params := by
  cases n with
  | seqScan s => exact h.1
  | bitmap s => exact BitmapNode.Throughout.cell h
  | subquery s input => exact h.1
  | hash s input => exact h.1

/-- A tree that is initialized is pristine. -/
theorem pristine_of_init {flags : Flags} : {op : Operator} → {n : Node op} →
    (fresh op).init ctx op flags = (.ok (), n) → Pristine ctx.params op n
  | .seqScan scan, n, h => by
    rw [fresh, init_seqScan] at h
    split at h
    · simp at h
    · rw [SeqScan.openScan] at h
      rcases hstart : RelationScan.start scan.relation scan.direction with e | rs
      · simp [hstart] at h
      · simp only [hstart] at h
        obtain rfl := (Prod.mk.inj h).2
        exact ⟨NodeBase.starts_started _ _, rs, rfl, RelationScan.at_start hstart⟩
  | .bitmap op, n, h => by
    rw [fresh, init] at h
    obtain ⟨hok, rfl⟩ := Prod.mk.inj h
    exact BitmapNode.pristine_of_init op (Prod.ext hok rfl)
  | .subquery scan op, n, h => by
    rw [fresh, init_subquery] at h
    split at h
    · simp at h
    · dsimp only at h
      split at h
      · simp at h
      · next input hinput =>
        obtain rfl := (Prod.mk.inj h).2
        exact ⟨NodeBase.starts_started _ _, pristine_of_init hinput⟩
  | .hash build op, n, h => by
    rw [fresh, init_hash] at h
    split at h
    · simp at h
    · dsimp only at h
      split at h
      · simp at h
      · next input hinput =>
        obtain rfl := (Prod.mk.inj h).2
        exact ⟨NodeBase.starts_started _ _, rfl, rfl, pristine_of_init hinput⟩

/-! ## Rows -/

/-- A row that a running tree returns is made of a version that it reads. -/
theorem Runs.exists_version {op : Operator} {n : Node op} {w : Session} {slot : Slot}
    (h : Runs params op n) (hnext : (n.next ctx op w).1 = .ok (some slot)) :
    ∃ t ∈ op.versions, op.outcome ctx params t = some (.ok slot) := by
  induction op generalizing slot with
  | seqScan scan =>
    cases n with | seqScan s
    obtain ⟨hbase, rs, rest, hscan, hat⟩ := h
    rw [Node.next] at hnext
    rcases hadmits : admitFetch (.seqScan scan) s.base with e | _ | _
    · simp [hadmits] at hnext
    · simp [hadmits] at hnext
    · rw [hadmits] at hnext
      simp only [SeqScan.fetch, SeqScan.rowsAhead, hscan, HeapScan.At.ahead_eq hat] at hnext
      rcases hfetch : scan.fetchUpTo ctx (rest.length + 1) rs s w with ⟨r, s', w'⟩
      obtain ⟨rest', rs', hpull, -⟩ := scan.pull_fetchUpTo hat (Nat.lt_succ_self _) hfetch
      rw [hbase.params_eq] at hpull
      rw [hfetch] at hnext
      rcases r with e | _ | _
      · simp at hnext
      · simp at hnext
      -- A row that is pulled from the versions ahead is the outcome of one of them.
      · obtain ⟨t, ht, houtcome⟩ := hpull.exists_outcome hnext
        exact ⟨t, hat.rest_subset ht, houtcome⟩
  | bitmap op =>
    cases n with | bitmap s
    rw [Node.next] at hnext
    split at hnext
    · simp at hnext
    · simp at hnext
    · split at hnext
      · simp at hnext
      · simp at hnext
  | subquery scan op ih =>
    cases n with | subquery s input
    obtain ⟨hbase, hinput⟩ := h
    rw [Node.next] at hnext
    split at hnext
    · simp at hnext
    · simp at hnext
    · have hrow : ∀ row, (Node.next ctx op input w).1 = .ok (some row) →
          ∃ t ∈ op.versions, op.outcome ctx params t = some (.ok row) := fun row => ih hinput
      generalize Node.next ctx op input w = x at hrow hnext
      obtain ⟨r, input', w'⟩ := x
      rcases r with e | _ | row
      · simp at hnext
      · simp at hnext
      -- The version behind the row of the input is the one behind the row that it is projected to.
      · obtain ⟨t, ht, houtcome⟩ := hrow row rfl
        have hexists := Operator.exists_row_of_outcome houtcome
        refine ⟨t, ht, ?_⟩
        rw [Operator.outcome, houtcome, ← hbase.params_eq]
        rcases hpass : scan.pass s.base.params row with e | slot'
        · simp [SubqueryScan.project_of_pass_error hexists hpass] at hnext
        · obtain ⟨s', hproject, hshown, -⟩ := SubqueryScan.project_of_pass hexists hpass
          simp only [hproject, Except.ok.injEq, Option.some.injEq] at hnext
          rw [← hnext, hshown]
          exact congrArg some hpass
  | hash build op ih =>
    cases n with | hash s input
    rw [Node.next] at hnext
    split at hnext
    · simp at hnext
    · simp at hnext
    · split at hnext
      · simp at hnext
      · simp at hnext

theorem Runs.build (build : HashBuild) {op : Operator} {s : HashBuild.State} {input : Node op}
    (width limit : Nat) (w : Session) (hbase : s.base.Runs params) (hinput : Runs params op input)
    (hnext : ∀ i w, Runs params op i → Runs params op (next ctx op i w).2.1) :
    (build.build ctx width (next ctx op) limit s input w).2.1.base.Runs params ∧
      Runs params op (build.build ctx width (next ctx op) limit s input w).2.2.1 := by
  refine ⟨hbase.congr HashBuild.build_alike, ?_⟩
  rcases hbuild : build.build ctx width (next ctx op) limit s input w with ⟨r, s', input', w'⟩
  exact HashBuild.input_of_build hnext hinput hbuild

/-- Asking for a row leaves a tree running. -/
theorem Runs.next {op : Operator} {n : Node op} {w : Session} (h : Runs params op n) :
    Runs params op (n.next ctx op w).2.1 := by
  induction op generalizing w with
  | seqScan scan =>
    cases n with | seqScan s
    obtain ⟨hbase, rs, rest, hscan, hat⟩ := h
    rw [Node.next]
    split
    · exact ⟨hbase, rs, rest, hscan, hat⟩
    · exact ⟨hbase, rs, rest, hscan, hat⟩
    -- The fetch leaves the scan before other versions, and the state and parameters as they are.
    · simp only [SeqScan.fetch, SeqScan.rowsAhead, hscan, HeapScan.At.ahead_eq hat]
      rcases hfetch : scan.fetchUpTo ctx (rest.length + 1) rs s w with ⟨r, s', w'⟩
      obtain ⟨rest', rs', -, hscan', hat', hparams, hstate, -⟩ :=
        scan.pull_fetchUpTo hat (Nat.lt_succ_self _) hfetch
      have hbase' : s'.base.Runs params := hbase.congr ⟨hstate.symm, hparams.symm⟩
      rcases r with e | _ | _
      · exact ⟨hbase', rs', rest', hscan', hat'⟩
      · exact ⟨hbase'.exhausted, rs', rest', hscan', hat'⟩
      · exact ⟨⟨hbase'.running, hbase'.params_eq⟩, rs', rest', hscan', hat'⟩
  | bitmap op =>
    cases n with | bitmap s
    have hbuild : BitmapNode.Runs params op (BitmapNode.build ctx op s).2 := BitmapNode.Runs.build h
    rw [Node.next]
    split
    · exact h
    · exact h
    · generalize BitmapNode.build ctx op s = x at hbuild ⊢
      obtain ⟨r, s'⟩ := x
      rcases r with e | m
      · exact hbuild
      · exact BitmapNode.Runs.exhausted hbuild
  | subquery scan op ih =>
    cases n with | subquery s input
    obtain ⟨hbase, hinput⟩ := h
    rw [Node.next]
    split
    · exact ⟨hbase, hinput⟩
    · exact ⟨hbase, hinput⟩
    · have hleft := ih (w := w) hinput
      generalize Node.next ctx op input w = x at hleft ⊢
      obtain ⟨r, input', w'⟩ := x
      rcases r with e | _ | row
      · exact ⟨hbase, hleft⟩
      · exact ⟨hbase.exhausted, hleft⟩
      -- Projecting touches the slot alone.
      · have hsame := scan.base_project s row
        dsimp only
        generalize scan.project s row = y at hsame ⊢
        obtain ⟨r, s'⟩ := y
        have hbase' : s'.base.Runs params := by rwa [hsame]
        rcases r with e | _
        · exact ⟨hbase', hleft⟩
        · exact ⟨⟨hbase'.running, hbase'.params_eq⟩, hleft⟩
  | hash build op ih =>
    cases n with | hash s input
    obtain ⟨hbase, hinput⟩ := h
    rw [Node.next]
    split
    · exact ⟨hbase, hinput⟩
    · exact ⟨hbase, hinput⟩
    · obtain ⟨hbase', hleft⟩ := Runs.build build op.shape.width (rowsAhead op input + 1) w hbase
        hinput fun i w hi => ih hi
      generalize build.build ctx op.shape.width (Node.next ctx op) (rowsAhead op input + 1) s input
        w = x at hbase' hleft ⊢
      obtain ⟨r, s', input', w'⟩ := x
      rcases r with e | _
      · exact ⟨hbase', hleft⟩
      · exact ⟨hbase'.exhausted, hleft⟩

/-! ## Tables -/

/-- Building leaves a hash node sound. -/
theorem Sound.build {build : HashBuild} {op : Operator} {s : HashBuild.State} {input : Node op}
    {w : Session} (hcapacity : ctx.spillCapacity? = none)
    (hrows : (Operator.hash build op).RowsStorable ctx params)
    (hbase : s.base.Runs params) (hinput : Runs params op input)
    (hnext : ∀ i w, Runs params op i → Sound ctx params op i →
      Sound ctx params op (next ctx op i w).2.1)
    (h : Sound ctx params (.hash build op) (hash s input))
    {x : Except Error Unit × HashBuild.State × Node op × Session}
    (hx : build.build ctx op.shape.width (next ctx op) (rowsAhead op input + 1) s input w = x) :
    Sound ctx params (.hash build op) (hash x.2.1 x.2.2.1) := by
  cases h with
  | built ht ha hkept =>
    rw [HashBuild.build_of_table hbase.running ha ht] at hx
    subst hx
    exact .built ht ha hkept
  | unbuilt ht hsound hlikeNew =>
    rcases ha : s.aborted with _ | _
    · rw [HashBuild.build_of_none hbase.running ha ht] at hx
      have hlikeNew := hlikeNew ha
      have hboth : ∀ i w, Runs params op i ∧ Sound ctx params op i →
          Runs params op (Node.next ctx op i w).2.1 ∧
            Sound ctx params op (Node.next ctx op i w).2.1 :=
        fun i w hi => ⟨hi.1.next, hnext i w hi.1 hi.2⟩
      rcases hdrain : build.drain (Node.next ctx op) (rowsAhead op input + 1)
        (build.emptyTable ctx op.shape.width) s input w with ⟨r, s', input', w'⟩
      have hcont := HashBuild.continues_of_drain hdrain
      have hleft := (HashBuild.continues_drain build (build.emptyTable ctx op.shape.width) s
        (rowsAhead op input + 1) w hboth ⟨hinput, hsound⟩).2
      rw [hdrain] at hx hleft
      rcases r with e | t
      · -- The failure is remembered, so nothing is left to show about the input.
        subst hx
        exact .unbuilt (hcont.table_eq.trans ht) hleft.2 nofun
      · subst hx
        have hempty : (build.emptyTable ctx op.shape.width).Unlimited := by
          rw [HashBuild.emptyTable, hcapacity]
          exact HashTable.unlimited_ofConfig _
        -- Every row of the input is the outcome of a version, and these can be stored.
        have hstorable : ∀ i w slot row hash, Runs params op i →
            (Node.next ctx op i w).1 = .ok (some slot) → slot.row? = some row →
            SpilledTuple.Storable ⟨hash, row⟩ := by
          intro i w slot row hash hi hslot hrow
          obtain ⟨u, hu, houtcome⟩ := hi.exists_version hslot
          exact hrows.2 u hu slot row hash houtcome hrow
        have hunlimited :=
          HashBuild.unlimited_of_drain (fun i w hi => hi.next) hstorable hinput hempty hdrain
        have hcurrent := HashBuild.current_of_drain hdrain
        obtain ⟨rows, hholds⟩ := HashBuild.holds_of_drain hdrain
        exact .built rfl (hcont.aborted_eq.trans ha) ⟨hunlimited, s, input, w, t, s', input', w',
          hbase.params_eq, hlikeNew, hdrain, hunlimited, hcurrent, .refl hholds⟩
    · rw [HashBuild.build_of_aborted hbase.running ha] at hx
      subst hx
      exact .unbuilt ht hsound hlikeNew

/-- Asking for a row leaves a tree sound. -/
theorem Sound.next {op : Operator} (hcapacity : ctx.spillCapacity? = none)
    (hrows : op.RowsStorable ctx params) {n : Node op} {w : Session} (hn : Runs params op n)
    (h : Sound ctx params op n) : Sound ctx params op (n.next ctx op w).2.1 := by
  induction op generalizing w with
  | seqScan scan =>
    cases n with | seqScan s
    rw [Node.next]
    split
    · trivial
    · trivial
    · split <;> trivial
  | bitmap op =>
    cases n with | bitmap s
    rw [Node.next]
    split
    · trivial
    · trivial
    · split <;> trivial
  | subquery scan op ih =>
    cases n with | subquery s input
    have hleft := ih hrows (w := w) hn.2 h
    rw [Node.next]
    split
    · exact h
    · exact h
    · generalize Node.next ctx op input w = x at hleft ⊢
      obtain ⟨r, input', w'⟩ := x
      rcases r with e | _ | row
      · exact hleft
      · exact hleft
      · dsimp only
        split
        · exact hleft
        · exact hleft
  | hash build op ih =>
    cases n with | hash s input
    -- Nodes without a table below them have nothing to keep; a hash node keeps what its build does.
    have hbuild := Sound.build (w := w) hcapacity hrows hn.1 hn.2
      (fun i w hi hsound => ih hrows.1 hi hsound) h rfl
    rw [Node.next]
    split
    · exact h
    · exact h
    · generalize build.build ctx op.shape.width (Node.next ctx op) (rowsAhead op input + 1) s input
        w = x at hbuild ⊢
      obtain ⟨r, s', input', w'⟩ := x
      rcases r with e | _
      · exact hbuild
      · cases hbuild with
        | built ht ha hkept => exact .built ht ha hkept
        | unbuilt ht hsound hlikeNew => exact .unbuilt ht hsound hlikeNew

end Node

end PullQuery
