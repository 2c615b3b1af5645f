import PullQuery.Proofs.Execution.Walk
import PullQuery.Proofs.Node.Restart

/-!
# Tables and the input that they are built from

A hash node over a tree of scans builds its table from all versions that lie ahead of the scan,
or not at all: a failure in the middle of building is remembered until the node is started
again. Starting again puts all versions ahead, unless the storage refuses; then the scan stays
where it stands while the failure is forgotten, and the next table is built from what is left.

## Main definitions

* `HashBuild.keyed`: the rows of a table for rows of the input
* `HashBuild.Filled`: a table holds what is made of some versions
* `Node.Fed`: what a hash node has made of its input
* `Node.HoldsWhole`, `Node.RescansSucceed`

## Main results

* `Node.Ready.drain`: building reads all versions that lie ahead
* `Node.Fed.serve`: what requests make of a hash node and its input
* `Node.filled_of_run`
-/

namespace PullQuery

variable {ctx : Context} {params : List Value}

/-! ## Pulls -/

namespace Pull

variable {outcome : HeapTuple → Option (Except EvalError Slot)} {faulty : Prop}
  {ts ts' : List HeapTuple} {r : Except Error (Option Slot)}

theorem suffix (h : Pull outcome faulty ts r ts') : ts' <:+ ts := by
  induction h with
  | done => exact List.suffix_refl _
  | skip _ _ ih => exact ih.trans (List.suffix_cons ..)
  | row => exact List.suffix_cons ..
  | fail => exact List.suffix_cons ..
  | fault => exact List.suffix_refl _

/-- Where no row is returned, nothing is made of the versions ahead. -/
theorem collectOutcomes_of_end (h : Pull outcome faulty ts r ts') (hr : r = .ok none) :
    collectOutcomes outcome ts = .ok [] := by
  induction h with
  | done => rfl
  | skip hnone _ ih =>
    rw [collectOutcomes, hnone]
    exact ih hr
  | row => simp at hr
  | fail => contradiction
  | fault => contradiction

/-- What is made of the versions ahead begins with the row that is returned. -/
theorem collectOutcomes_of_row (h : Pull outcome faulty ts r ts') {slot : Slot} {row : Row}
    (hr : r = .ok (some slot)) (hrow : slot.row? = some row) {rows : List Row}
    (hrows : collectOutcomes outcome ts' = .ok rows) :
    collectOutcomes outcome ts = .ok (row :: rows) := by
  induction h with
  | done => simp at hr
  | skip hnone _ ih =>
    rw [collectOutcomes, hnone]
    exact ih hr hrows
  | row hsome =>
    obtain rfl := Option.some.inj (Except.ok.inj hr)
    rw [collectOutcomes, hsome]
    simp only [hrows, hrow]
    rfl
  | fail => contradiction
  | fault => contradiction

end Pull

/-! ## Tables -/

namespace HashBuild

/-- The rows of a table for rows of the input: each under the hash of its keys, without those
that a NULL key takes out. -/
def keyed (n : HashBuild) (params : List Value) : List Row → Except EvalError (List SpilledTuple)
  | [] => .ok []
  | row :: rows =>
    match n.hashRow params n.keys row with
    | .error e => .error e
    | .ok hash? => (keyed n params rows).map (hash?.toList.map (⟨·, row⟩) ++ ·)

/-- Whether a table holds just the rows that a tree of scans makes of versions, as far as their
keys are usable. -/
def Filled (n : HashBuild) (ctx : Context) (op : Operator) (params : List Value)
    (ts : List HeapTuple) (t : HashTable) : Prop :=
  ∃ rows tuples, collectOutcomes (op.outcome ctx params) ts = .ok rows ∧
    n.keyed params rows = .ok tuples ∧ n.Contains params t tuples

end HashBuild

namespace Node

/-- Building reads all versions that lie ahead of the input. -/
theorem Ready.drain (build : HashBuild) {op : Operator} {limit : Nat} {t t' : HashTable}
    {tuples : List SpilledTuple} {s s' : HashBuild.State} {input input' : Node op}
    {w w' : Session} {rest : List HeapTuple} (hinput : Ready params op input rest)
    (hlimit : rest.length < limit) (hs : s.base.params = params)
    (ht : build.Contains params t tuples)
    (h : build.drain (Node.next ctx op) limit t s input w = (.ok t', s', input', w')) :
    ∃ rows added, collectOutcomes (op.outcome ctx params) rest = .ok rows ∧
      build.keyed params rows = .ok added ∧ build.Contains params t' (tuples ++ added) := by
  induction limit generalizing t tuples s input w rest with
  | zero => omega
  | succ limit ih =>
    obtain ⟨rest', hpull, hready, -⟩ := hinput.next ctx w
    obtain ⟨hend, rfl, -⟩ | ⟨slot, row, input₁, w₁, t₁, s₁, hnext, -, hrow, habsorb, hrest⟩ :=
      HashBuild.drain_ok_cases h
    · rw [hend] at hpull
      exact ⟨[], [], hpull.collectOutcomes_of_end rfl, rfl, by rwa [List.append_nil]⟩
    · rw [hnext] at hpull hready
      have hcounted : build.Contains s.countFetched.base.params t tuples := hs ▸ ht
      obtain ⟨hlife, hash?, hhash, ht₁⟩ := hcounted.absorb habsorb
      have hs' : s.countFetched.base.params = params := hs
      have hs₁ : s₁.base.params = params := hlife.params.trans hs'
      rw [hs'] at hhash ht₁
      have hshorter : rest'.length < limit := by
        have hlength := hpull.length_lt rfl
        omega
      obtain ⟨rows, added, hrows, hadded, hcontains⟩ := ih hready hshorter hs₁ ht₁ hrest
      refine ⟨row :: rows, hash?.toList.map (⟨·, row⟩) ++ added,
        hpull.collectOutcomes_of_row rfl hrow hrows, ?_, ?_⟩
      · rw [HashBuild.keyed, hhash]
        simp only [hadded]
        rfl
      · rwa [← List.append_assoc]

/-! ## What a hash node has made of its input -/

section Fed

variable {op : Operator}

def hashState {build : HashBuild} : Node (.hash build op) → HashBuild.State
  | hash s _ => s

def hashInput {build : HashBuild} : Node (.hash build op) → Node op
  | hash _ input => input

/-- Whether a hash node over a tree of scans has read nothing of its input since it was started
before some versions, or has failed, or has a table of what is made of them. -/
structure Fed {build : HashBuild} (ctx : Context) (params : List Value) (source : List HeapTuple)
    (n : Node (.hash build op)) : Prop where
  base : n.hashState.base.Runs params
  source_suffix : source <:+ op.versions
  ready : ∃ rest, rest <:+ op.versions ∧ Ready params op n.hashInput rest ∧
    (n.hashState.table? = none → n.hashState.aborted = false → rest = source)
  table : ∀ t, n.hashState.table? = some t →
    n.hashState.aborted = false ∧ t.current = 0 ∧ build.Filled ctx op params source t

variable {source : List HeapTuple}

/-- Counters and whether it is exhausted make no difference to what a node has made of its
input. -/
theorem Fed.congr {build : HashBuild} {s s' : HashBuild.State} {input : Node op}
    (h : Fed ctx params source (hash s input : Node (.hash build op))) (hbase : s'.base.Runs params)
    (ht : s'.table? = s.table?) (ha : s'.aborted = s.aborted) :
    Fed ctx params source (hash s' input : Node (.hash build op)) := by
  obtain ⟨rest, hrest, hinput, hunread⟩ := h.ready
  refine ⟨hbase, h.source_suffix, ⟨rest, hrest, hinput, ?_⟩, ?_⟩
  · intro hnone hfine
    exact hunread (ht.symm.trans hnone) (ha.symm.trans hfine)
  · intro t htable
    obtain ⟨hfine, hcurrent, hfilled⟩ := h.table t (ht.symm.trans htable)
    exact ⟨ha.trans hfine, hcurrent, hfilled⟩

/-- Building fills a table from the versions that the input was started before, or fails for
good. -/
theorem Fed.build {build : HashBuild} {s : HashBuild.State} {input : Node op} {w : Session}
    (h : Fed ctx params source (hash s input : Node (.hash build op)))
    {x : Except Error Unit × HashBuild.State × Node op × Session}
    (hx : build.build ctx op.shape.width (Node.next ctx op) (rowsAhead op input + 1) s input w =
      x) :
    Fed ctx params source (hash x.2.1 x.2.2.1 : Node (.hash build op)) := by
  have hbase : s.base.Runs params := h.base
  obtain ⟨rest, hrest, (hinput : Ready params op input rest), hunread⟩ := h.ready
  rcases ha : s.aborted with _ | _
  · rcases ht : s.table? with _ | t
    · rw [HashBuild.build_of_none hbase.running ha ht] at hx
      -- Without a table and without a failure, nothing of the input has been read yet.
      obtain rfl : rest = source := hunread ht ha
      have hkeeps : ∀ i w, (∃ ts, ts <:+ op.versions ∧ Ready params op i ts) →
          ∃ ts, ts <:+ op.versions ∧ Ready params op (Node.next ctx op i w).2.1 ts := by
        rintro i w ⟨ts, hts, hi⟩
        obtain ⟨ts', hpull, hi', -⟩ := hi.next ctx w
        exact ⟨ts', hpull.suffix.trans hts, hi'⟩
      rcases hdrain : build.drain (Node.next ctx op) (rowsAhead op input + 1)
        (build.emptyTable ctx op.shape.width) s input w with ⟨r, s', input', w'⟩
      have hcont := HashBuild.continues_of_drain hdrain
      have hbase' : s'.base.Runs params := hbase.congr hcont.alike
      have hleft := (HashBuild.continues_drain build (build.emptyTable ctx op.shape.width) s
        (rowsAhead op input + 1) w hkeeps ⟨rest, hrest, hinput⟩).2
      rw [hdrain] at hx hleft
      obtain ⟨rest', hrest', hinput'⟩ := hleft
      rcases r with e | t
      · -- The input is partly read, which the failure remembers.
        subst hx
        have hnone : s'.table? = none := hcont.table_eq.trans ht
        refine ⟨hbase', hrest, ⟨rest', hrest', hinput', ?_⟩, ?_⟩
        · intro _ hfine
          contradiction
        · intro t htable
          have habsurd := hnone.symm.trans htable
          contradiction
      · subst hx
        have hlimit : rest.length < rowsAhead op input + 1 := by
          rw [hinput.rowsAhead_eq]
          exact Nat.lt_succ_self _
        -- The input has been read to its end, and the table holds what it returned.
        obtain ⟨rows, added, hrows, hadded, hcontains⟩ := hinput.drain build hlimit hbase.params_eq
          (build.contains_emptyTable ctx op.shape.width params) hdrain
        have hcurrent : t.current = 0 := HashBuild.current_of_drain hdrain
        refine ⟨⟨hbase'.running, hbase'.params_eq⟩, hrest, ⟨rest', hrest', hinput', ?_⟩, ?_⟩
        · intro hnone
          contradiction
        · intro t' htable
          obtain rfl : t = t' := Option.some.inj htable
          exact ⟨hcont.aborted_eq.trans ha, hcurrent, rows, added, hrows, hadded, hcontains⟩
    · rw [HashBuild.build_of_table hbase.running ha ht] at hx
      subst hx
      exact h
  · rw [HashBuild.build_of_aborted hbase.running ha] at hx
    subst hx
    exact h

theorem Fed.next {build : HashBuild} {n : Node (.hash build op)} {w : Session}
    (h : Fed ctx params source n) :
    Fed ctx params source (n.next ctx (.hash build op) w).2.1 := by
  cases n with | hash s input
  have hbuild := h.build (w := w) rfl
  rw [Node.next]
  split
  · exact h
  · exact h
  · generalize build.build ctx op.shape.width (Node.next ctx op) (rowsAhead op input + 1) s input
      w = x at hbuild ⊢
    obtain ⟨r, s', input', w'⟩ := x
    rcases r with e | _
    · exact hbuild
    · exact hbuild.congr hbuild.base.exhausted rfl rfl

/-- A hash node that starts again is started before all versions if it reads its input again,
unless the storage fails; then it is started before the versions that were ahead. -/
theorem Fed.rescan {build : HashBuild} {n : Node (.hash build op)} (h : Fed ctx params source n)
    (params? : Option (List Value)) :
    ∃ source', Fed ctx (params?.getD params) source' (n.rescan params? (.hash build op)).2 ∧
      ((n.rescan params? (.hash build op)).1 = .ok () →
        source' = if HashBuild.rebuilds n.hashState params? then op.versions else source) := by
  cases n with | hash s input
  have hbase : s.base.Runs params := h.base
  have hbase' := hbase.restarted params?
  obtain ⟨rest, hrest, (hinput : Ready params op input rest), -⟩ := h.ready
  rw [Node.rescan_hash, hbase.ensureRunning]
  dsimp only [hashState]
  rw [HashBuild.rebuilds_base]
  rcases hrebuilds : HashBuild.rebuilds s params? with _ | _
  · -- The table is kept, and its first batch is in memory already.
    obtain ⟨rfl, t, ht⟩ := HashBuild.of_not_rebuilds hrebuilds
    obtain ⟨ha, hcurrent, hfilled⟩ := h.table t ht
    have hload : t.loadBatch 0 = (.ok (), t) := by
      rw [HashTable.loadBatch, if_neg (Nat.not_le.mpr t.batchCount_pos), if_pos hcurrent.symm]
    simp only [HashBuild.rewind, ht, hload]
    refine ⟨source, h.congr hbase'.countLoop.runs ht.symm rfl, fun _ => ?_⟩
    rw [hrebuilds]
    rfl
  · -- Nothing is left of the table and of a failure to build it, whatever the input does.
    have hunread : ∀ {b : NodeBase} {input' : Node op} {ts : List HeapTuple},
        b.Starts (params?.getD params) → ts <:+ op.versions →
        Ready (params?.getD params) op input' ts →
        Fed ctx (params?.getD params) ts (hash { base := b } input' : Node (.hash build op)) := by
      intro b input' ts hb hsource hready
      refine ⟨hb.runs, hsource, ⟨ts, hsource, hready, fun _ _ => rfl⟩, ?_⟩
      intro t htable
      contradiction
    simp only [if_true]
    rcases hinner : input.rescan params? op with ⟨e | _, input'⟩
    · obtain ⟨hok, -⟩ | ⟨-, -, hready⟩ := hinput.rescan hinner
      · contradiction
      · refine ⟨rest, hunread hbase' hrest hready, ?_⟩
        intro hok
        contradiction
    -- The input has started again, and is unread as a whole.
    · obtain ⟨-, hready⟩ | ⟨hfail, -⟩ := hinput.rescan hinner
      · exact ⟨op.versions, hunread hbase'.countLoop (List.suffix_refl _) hready,
          fun _ => (if_pos hrebuilds).symm⟩
      · contradiction

/-- A hash node over a tree of scans that has been initialized is started before all versions. -/
theorem fed_of_init {build : HashBuild} (hop : op.IsScan) {flags : Flags}
    {n : Node (.hash build op)}
    (h : (fresh (.hash build op)).init ctx (.hash build op) flags = (.ok (), n)) :
    Fed ctx ctx.params op.versions n := by
  rw [fresh, init_hash] at h
  split at h
  · simp at h
  · dsimp only at h
    split at h
    · simp at h
    · next input hinput =>
      obtain rfl := (Prod.mk.inj h).2
      have hready := ready_init hop hinput
      refine ⟨(NodeBase.starts_started _ _).runs, List.suffix_refl _,
        ⟨op.versions, List.suffix_refl _, hready, fun _ _ => rfl⟩, ?_⟩
      intro t htable
      contradiction

end Fed

end Node

/-! ## Runs -/

/-- Whether a request loads a batch of a hash table. -/
def NodeRequest.IsLoad : NodeRequest → Prop
  | hash (.load _) => True
  | _ => False

namespace Node

section Runs

variable {op : Operator} {source : List HeapTuple}

/-- Whether every restart in a run succeeds. -/
def RescansSucceed (ctx : Context) (op : Operator) : List NodeRequest → Node op → Session → Prop
  | [], _, _ => True
  | r :: rs, n, w => (∀ params?, r = .rescan params? → (n.rescan params? op).1 = .ok ()) ∧
    RescansSucceed ctx op rs (r.serve ctx op n w).2.1 (r.serve ctx op n w).2.2

/-- Whether a table of a hash node holds just the usable rows of the whole input. -/
def HoldsWhole (ctx : Context) {build : HashBuild} (n : Node (.hash build op)) : Prop :=
  ∀ t, n.hashState.table? = some t →
    build.Filled ctx op n.hashState.base.params op.versions t

/-- Requests other than loading batches leave a node that was started before some versions, the
same ones or all, unless the storage fails a restart. -/
theorem Fed.serve {build : HashBuild} {n : Node (.hash build op)} {w : Session} {r : NodeRequest}
    (h : Fed ctx params source n) (hr : r.IsUse) (hload : ¬ r.IsLoad) :
    ∃ params' source', Fed ctx params' source' (r.serve ctx (.hash build op) n w).2.1 ∧
      ((∀ params?, r = .rescan params? → (n.rescan params? (.hash build op)).1 = .ok ()) →
        source' = source ∨ source' = op.versions) := by
  cases r with
  | init flags => contradiction
  | finish => contradiction
  | next => exact ⟨params, source, h.next, fun _ => .inl rfl⟩
  | bitmap =>
    refine ⟨params, source, ?_, fun _ => .inl rfl⟩
    change Fed ctx params source (n.buildBitmap ctx (.hash build op)).2
    rwa [buildBitmap_left (by simp)]
  | rescan params? =>
    obtain ⟨source', hfed, hsource⟩ := h.rescan params?
    refine ⟨_, source', hfed, fun hsucceed => ?_⟩
    rw [hsource (hsucceed params? rfl)]
    split
    · exact .inr rfl
    · exact .inl rfl
  | mark => cases n with | hash s input => exact ⟨params, source, h, fun _ => .inl rfl⟩
  | restore => cases n with | hash s input => exact ⟨params, source, h, fun _ => .inl rfl⟩
  | hash request =>
    cases n with | hash s input
    cases request with
    | build => exact ⟨params, source, h.build rfl, fun _ => .inl rfl⟩
    | load batch => exact absurd trivial hload
    | lookup hash => exact ⟨params, source, h, fun _ => .inl rfl⟩
  | interrupt set => exact ⟨params, source, h, fun _ => .inl rfl⟩

/-- A node that was started before all versions stays so as long as no restart fails. -/
theorem Fed.run {build : HashBuild} {n : Node (.hash build op)} {w : Session}
    {rs : List NodeRequest} (h : Fed ctx params source n)
    (hrs : ∀ r ∈ rs, r.IsUse ∧ ¬ r.IsLoad) :
    ∃ params' source', Fed ctx params' source' (run ctx (.hash build op) rs n w).1 ∧
      (RescansSucceed ctx (.hash build op) rs n w → source = op.versions →
        source' = op.versions) := by
  induction rs generalizing n w params source with
  | nil => exact ⟨params, source, h, fun _ hsource => hsource⟩
  | cons r rs ih =>
    obtain ⟨hr, hload⟩ := hrs r (List.mem_cons_self ..)
    obtain ⟨params₁, source₁, hfed, hsource₁⟩ := h.serve (w := w) hr hload
    obtain ⟨params₂, source₂, hfed₂, hsource₂⟩ := ih (w := (r.serve ctx _ n w).2.2) hfed
      fun r' hr' => hrs r' (List.mem_cons_of_mem r hr')
    refine ⟨params₂, source₂, hfed₂, fun hsucceed hsource => hsource₂ hsucceed.2 ?_⟩
    rcases hsource₁ hsucceed.1 with hsame | hall
    · exact hsame.trans hsource
    · exact hall

theorem Fed.holdsWhole {build : HashBuild} {n : Node (.hash build op)}
    (h : Fed ctx params source n) (hsource : source = op.versions) : HoldsWhole ctx n := by
  intro t ht
  obtain ⟨-, -, hfilled⟩ := h.table t ht
  rwa [h.base.params_eq, ← hsource]

/-- Whatever fails, a table holds what is made of the last versions of the input, and it holds
what is made of all of them if no restart has failed, or none since one that succeeded when the
input was to be read again. -/
theorem filled_of_run {build : HashBuild} (hop : op.IsScan) {flags : Flags}
    {n₀ n : Node (.hash build op)}
    (hinit : (fresh (.hash build op)).init ctx (.hash build op) flags = (.ok (), n₀))
    {rs : List NodeRequest} (hrs : ∀ r ∈ rs, r.IsUse ∧ ¬ r.IsLoad) {w : Session}
    (hn : (run ctx (.hash build op) rs n₀ w).1 = n) :
    (∀ t, n.hashState.table? = some t → ∃ ts, ts <:+ op.versions ∧
        build.Filled ctx op n.hashState.base.params ts t) ∧
      (RescansSucceed ctx (.hash build op) rs n₀ w → HoldsWhole ctx n) ∧
      ∀ params? n₁, n.rescan params? (.hash build op) = (.ok (), n₁) →
        HashBuild.rebuilds n.hashState params? = true →
        ∀ rs' w', (∀ r ∈ rs', r.IsUse ∧ ¬ r.IsLoad) →
          RescansSucceed ctx (.hash build op) rs' n₁ w' →
            HoldsWhole ctx (run ctx (.hash build op) rs' n₁ w').1 := by
  obtain ⟨params, source, hfed, hwhole⟩ := (fed_of_init hop hinit).run (w := w) hrs
  rw [hn] at hfed
  refine ⟨?_, fun hsucceed => hfed.holdsWhole (hwhole hsucceed rfl), ?_⟩
  · intro t ht
    obtain ⟨-, -, hfilled⟩ := hfed.table t ht
    rw [hfed.base.params_eq]
    exact ⟨source, hfed.source_suffix, hfilled⟩
  · intro params? n₁ hrescan hrebuilds rs' w' hrs' hsucceed
    obtain ⟨source₁, hfed₁, hsource₁⟩ := hfed.rescan params?
    rw [hrescan] at hfed₁ hsource₁
    have hall : source₁ = op.versions := (hsource₁ rfl).trans (if_pos hrebuilds)
    obtain ⟨params₂, source₂, hfed₂, hwhole₂⟩ := hfed₁.run (w := w') hrs'
    exact hfed₂.holdsWhole (hwhole₂ hsucceed hall)

/-! ### Storage that fails -/

/-- A scan of one number. -/
def scanFaulty (faults : StorageFaults) : Operator :=
  .seqScan ⟨{ heap := oneNumber, faults }, .forward, none⟩

/-- A hash node over it. -/
def hashedFaulty (faults : StorageFaults) : Operator :=
  .hash HashBuild.byFirst (scanFaulty faults)

/-- The node once it is initialized. -/
def startedFaulty (faults : StorageFaults) : Node (hashedFaulty faults) :=
  ((fresh (hashedFaulty faults)).init {} (hashedFaulty faults) {}).2

/-- The node builds its table, is started again, and builds its table. -/
def twice (params? : Option (List Value)) : List NodeRequest :=
  [.hash .build, .rescan params?, .hash .build]

theorem twice_uses {params? : Option (List Value)} : ∀ r ∈ twice params?, r.IsUse ∧ ¬ r.IsLoad := by
  simp [twice, NodeRequest.IsUse, NodeRequest.IsLoad]

/-- The first fetch fails. -/
def failedFetch : StorageFaults where
  onFetch? k := if k = 1 then some "disk failed" else none

theorem filled_failedFetch :
    answers {} (hashedFaulty failedFetch) (twice none) (startedFaulty failedFetch) {} =
        [.outcome (.error (.storage "disk failed")), .outcome (.ok ()), .outcome (.ok ())] ∧
      HoldsWhole {}
        (run {} (hashedFaulty failedFetch) (twice none) (startedFaulty failedFetch) {}).1 := by
  refine ⟨rfl, ?_⟩
  have hinit : (fresh (hashedFaulty failedFetch)).init {} (hashedFaulty failedFetch) {} =
      (.ok (), startedFaulty failedFetch) := rfl
  have hsucceed : RescansSucceed {} (hashedFaulty failedFetch) (twice none)
      (startedFaulty failedFetch) {} := by
    refine ⟨?_, ?_, ?_, trivial⟩
    · rintro params? ⟨⟩
    · rintro params? ⟨⟩
      rfl
    · rintro params? ⟨⟩
  have hscan : (scanFaulty failedFetch).IsScan := trivial
  obtain ⟨-, hwhole, -⟩ := filled_of_run hscan hinit twice_uses (w := {}) rfl
  exact hwhole hsucceed

/-- Every restart fails. -/
def failedRescan : StorageFaults where
  onRescan? _ := some "disk failed"

/-- A restart that fails leaves the scan at its end and forgets the table, so that the next
table is built from nothing. -/
theorem not_holdsWhole_failedRescan :
    answers {} (hashedFaulty failedRescan) (twice (some [])) (startedFaulty failedRescan) {} =
        [.outcome (.ok ()), .outcome (.error (.storage "disk failed")), .outcome (.ok ())] ∧
      ¬ HoldsWhole {}
        (run {} (hashedFaulty failedRescan) (twice (some []))
          (startedFaulty failedRescan) {}).1 := by
  refine ⟨rfl, ?_⟩
  intro hwhole
  obtain ⟨rows, tuples, hrows, htuples, hcontains⟩ := hwhole _ rfl
  obtain rfl : [⟨[.int64 1]⟩] = rows := Except.ok.inj hrows
  obtain rfl : [_] = tuples := Except.ok.inj htuples
  -- The table holds no row.
  have hlength := hcontains.stored.length_eq
  contradiction

end Runs

end Node

end PullQuery
