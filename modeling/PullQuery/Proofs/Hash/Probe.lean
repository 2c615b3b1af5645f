import Mathlib.Data.List.Perm.Basic
import PullQuery.Node.HashBuild
import PullQuery.Proofs.Expr.Truth
import PullQuery.Proofs.Hash.Batches
import PullQuery.Proofs.Hash.KeyHash
import PullQuery.Proofs.Hash.Ledger

/-!
# Probing a hash node

A row of the other side finds every row of the table with equal keys, as long as the hashes are
the same. The hash of a probe is taken as that of the build, so that they are the same for
equal keys unless zeros of opposite signs make them differ.

## Main definitions

* `HashBuild.Contains`: a table holds rows under the hashes of their keys
* `HashBuild.Reaches`: a node after batches were loaded
* `HashBuild.FindsRow`: a node finds a row under a hash

## Main results

* `HashBuild.drain_ok_cases`, `HashBuild.build_cases`: what reading the input does
* `HashBuild.probe_finds_iff`: when a probe with equal keys finds a row
-/

namespace PullQuery

namespace HashBuild

variable {n : HashBuild} {s s' : State} {t : HashTable} {rows : List SpilledTuple}
  {x : SpilledTuple}

/-! ## Building -/

/-- Whether a table holds just the given rows, each under the hash of its keys. -/
structure Contains (n : HashBuild) (params : List Value) (t : HashTable)
    (rows : List SpilledTuple) : Prop where
  holds : t.Holds rows
  stored : rows.Perm t.stored
  hashed : ∀ x ∈ rows, n.hashRow params n.keys x.row = .ok (some x.hash)

theorem contains_emptyTable (n : HashBuild) (ctx : Context) (width : Nat) (params : List Value) :
    n.Contains params (n.emptyTable ctx width) [] where
  holds := HashTable.holds_ofConfig _ _
  stored := .refl _
  hashed _ hx := absurd hx List.not_mem_nil

/-- Whether two states of a node differ in no more than counters and the table. -/
structure SameLife (s s' : State) : Prop where
  state : s'.base.state = s.base.state
  params : s'.base.params = s.base.params

theorem SameLife.trans {s₁ s₂ s₃ : State} (h : SameLife s₁ s₂) (h' : SameLife s₂ s₃) :
    SameLife s₁ s₃ := ⟨h'.state.trans h.state, h'.params.trans h.params⟩

/-- A row that is absorbed is under the hash of its keys, unless it has none. -/
theorem Contains.absorb {row : Row} {t' : HashTable} (h : n.Contains s.base.params t rows)
    (ha : n.absorb t s row = (.ok t', s')) :
    SameLife s s' ∧ ∃ hash?, n.hashRow s.base.params n.keys row = .ok hash? ∧
      n.Contains s.base.params t' (rows ++ hash?.toList.map (⟨·, row⟩)) := by
  rw [HashBuild.absorb] at ha
  split at ha
  · simp at ha
  · -- A row without a hash is left out.
    next hnone =>
    obtain ⟨ht, rfl⟩ := Prod.mk.inj ha
    obtain rfl := Except.ok.inj ht
    exact ⟨⟨rfl, rfl⟩, none, hnone, by simpa using h⟩
  · next hash hhash =>
    split at ha
    · simp at ha
    · next t₁ hinsert =>
      obtain ⟨ht, rfl⟩ := Prod.mk.inj ha
      obtain rfl := Except.ok.inj ht
      have hledger := (hinsert ▸ HashTable.accounts_insert h.holds.sound ⟨hash, row⟩).stored_of_ok
      refine ⟨⟨rfl, rfl⟩, some hash, hhash, h.holds.insert hinsert, ?_, ?_⟩
      · exact (List.perm_append_singleton _ _).trans ((h.stored.cons _).trans hledger)
      · intro x hx
        rcases List.mem_append.mp hx with hx | hx
        · exact h.hashed x hx
        · obtain rfl := List.mem_singleton.mp hx
          exact hhash

section Input

variable {σ : Type} {next : σ → Session → Except Error (Option Slot) × σ × Session}
  {limit : Nat} {input input' : σ} {w w' : Session}

/-- Reading the input with success comes to its end, or it takes a row over and goes on. -/
theorem drain_ok_cases {t' : HashTable}
    (h : n.drain next (limit + 1) t s input w = (.ok t', s', input', w')) :
    (next input w = (.ok none, input', w') ∧ t' = t ∧ s' = s) ∨
      ∃ slot row input₁ w₁ t₁ s₁, next input w = (.ok (some slot), input₁, w₁) ∧
        w₁.checkInterrupt = .ok () ∧ slot.row? = some row ∧
        n.absorb t s.countFetched row = (.ok t₁, s₁) ∧
        n.drain next limit t₁ s₁ input₁ w₁ = (.ok t', s', input', w') := by
  rw [HashBuild.drain] at h
  split at h
  · simp at h
  · next hnext =>
    cases h
    exact .inl ⟨hnext, rfl, rfl⟩
  · next slot input₁ w₁ hnext =>
    split at h
    · simp at h
    · next hgoes =>
      split at h
      · simp at h
      · next row hrow =>
        split at h
        · simp at h
        · next t₁ s₁ habsorb =>
          exact .inr ⟨slot, row, input₁, w₁, t₁, s₁, hnext, hgoes, hrow, habsorb, h⟩

/-- Building is refused, finds the table there, or reads the input, which fails for good or
makes a table. -/
theorem build_cases {ctx : Context} {width : Nat} {r : Except Error Unit}
    (h : n.build ctx width next limit s input w = (r, s', input', w')) :
    (((∃ e, r = .error e) ∨ r = .ok () ∧ s.table?.isSome = true) ∧
        s' = s ∧ input' = input ∧ w' = w) ∨
      (s.base.state.isRunning = true ∧ s.aborted = false ∧ s.table? = none ∧
        ((∃ e s₁, n.drain next limit (n.emptyTable ctx width) s input w =
            (.error e, s₁, input', w') ∧ r = .error e ∧ s' = { s₁ with aborted := true }) ∨
          ∃ t s₁, n.drain next limit (n.emptyTable ctx width) s input w =
            (.ok t, s₁, input', w') ∧ r = .ok () ∧ s' = s₁.install t)) := by
  rw [HashBuild.build] at h
  split at h
  · next e _ =>
    cases h
    exact .inl ⟨.inl ⟨e, rfl⟩, rfl, rfl, rfl⟩
  · next hrunning =>
    split at h
    · cases h
      exact .inl ⟨.inl ⟨_, rfl⟩, rfl, rfl, rfl⟩
    · next hfine =>
      split at h
      · next htable =>
        cases h
        exact .inl ⟨.inr ⟨rfl, htable⟩, rfl, rfl, rfl⟩
      -- Only here is the input read.
      · next hnone =>
        refine .inr ⟨NodeState.ensureRunning_eq_ok_iff.mp hrunning, by simpa using hfine,
          by simpa using hnone, ?_⟩
        split at h
        · next e s₁ _ _ hdrain =>
          cases h
          exact .inl ⟨e, s₁, hdrain, rfl, rfl⟩
        · next t s₁ _ _ hdrain =>
          cases h
          exact .inr ⟨t, s₁, hdrain, rfl, rfl⟩

theorem Contains.drain {t' : HashTable} (h : n.Contains s.base.params t rows)
    (hd : n.drain next limit t s input w = (.ok t', s', input', w')) :
    SameLife s s' ∧ ∃ rows', n.Contains s.base.params t' rows' := by
  induction limit generalizing t rows s input w with
  | zero =>
    cases hd
    exact ⟨⟨rfl, rfl⟩, rows, h⟩
  | succ limit ih =>
    obtain ⟨-, rfl, rfl⟩ | ⟨_, row, _, _, t₁, s₁, -, -, -, habsorb, hrest⟩ := drain_ok_cases hd
    · exact ⟨⟨rfl, rfl⟩, rows, h⟩
    · have hcounted : n.Contains s.countFetched.base.params t rows := h
      obtain ⟨hlife, hash?, -, h₁⟩ := hcounted.absorb habsorb
      have hlife' : SameLife s s₁ := ⟨hlife.state, hlife.params⟩
      -- Hashes are taken with the same parameters all along.
      have hparams : s.base.params = s₁.base.params := hlife'.params.symm
      obtain ⟨hlife₂, rows₂, h₂⟩ := ih (hparams ▸ h₁) hrest
      exact ⟨hlife'.trans hlife₂, rows₂, hparams ▸ h₂⟩

/-- The table of a node that was built holds rows under the hashes of their keys. -/
theorem contains_of_build {ctx : Context} {width : Nat} (hnone : s.table? = none)
    (hb : n.build ctx width next limit s input w = (.ok (), s', input', w')) :
    s.base.state.isRunning = true ∧ SameLife s s' ∧
      ∃ t rows, s'.table? = some t ∧ n.Contains s.base.params t rows := by
  obtain ⟨hkept, -⟩ | ⟨hrun, -, -, ⟨e, _, -, hfails, -⟩ | ⟨t, s₁, hdrain, -, rfl⟩⟩ :=
    build_cases hb
  · simp [hnone] at hkept
  · simp at hfails
  · obtain ⟨hlife, rows, h⟩ := (contains_emptyTable n ctx width s.base.params).drain hdrain
    exact ⟨hrun, ⟨hlife.state, hlife.params⟩, t, rows, rfl, h⟩

end Input

/-! ## Loading -/

/-- Whether a state of a node is reached from another by loading batches. -/
inductive Reaches (s : State) : State → Prop where
  | refl : Reaches s s
  | load {s₁ s₂ : State} {batch : Nat} (h : Reaches s s₁)
    (hload : loadBatch s₁ batch = (.ok (), s₂)) : Reaches s s₂
  | rewind {s₁ s₂ : State} (h : Reaches s s₁) (hrewind : rewind s₁ = (.ok (), s₂)) : Reaches s s₂

theorem loadBatch_eq_of_running (hrun : s.base.state.isRunning = true) (ht : s.table? = some t)
    (batch : Nat) : loadBatch s batch =
      match t.loadBatch batch with
      | (.error e, t) => (.error e, { s with table? := some t })
      | (.ok (), t) => (.ok (), s.noteLoad t) := by
  have hensure : s.base.state.ensureRunning .hash "load a batch into" = .ok () := if_pos hrun
  rcases hload : t.loadBatch batch with ⟨e | _, t'⟩ <;>
    simp only [loadBatch, hensure, ht, hload]

/-- Loading batches keeps the rows of the table. -/
theorem Reaches.holds (h : Reaches s s') (hrun : s.base.state.isRunning = true)
    (ht : s.table? = some t) (hholds : t.Holds rows) :
    SameLife s s' ∧ ∃ t', s'.table? = some t' ∧ t'.Holds rows := by
  induction h with
  | refl => exact ⟨⟨rfl, rfl⟩, t, ht, hholds⟩
  | load h hload ih =>
    next s₁ s₂ batch =>
    obtain ⟨hlife, t₁, ht₁, h₁⟩ := ih
    rw [loadBatch_eq_of_running (hlife.state ▸ hrun) ht₁] at hload
    split at hload
    · simp at hload
    · next t₂ hload₂ =>
      obtain rfl := (Prod.mk.inj hload).2
      exact ⟨hlife.trans ⟨rfl, rfl⟩, t₂, rfl, (h₁.loadBatch hload₂).1⟩
  | rewind h hrewind ih =>
    -- Rewinding a node that has a table loads the first batch.
    obtain ⟨hlife, t₁, ht₁, h₁⟩ := ih
    rw [HashBuild.rewind, ht₁] at hrewind
    obtain ⟨hok, rfl⟩ := Prod.mk.inj hrewind
    have hload : t₁.loadBatch 0 = (.ok (), (t₁.loadBatch 0).2) := Prod.ext hok rfl
    exact ⟨hlife.trans ⟨rfl, rfl⟩, _, rfl, (h₁.loadBatch hload).1⟩

/-! ## Finding -/

/-- Whether a node finds a row under a hash: at once, or once the batch that the look-up names
is loaded. Only the files can make that loading fail. -/
def FindsRow (s : State) (hash : UInt32) (row : Row) : Prop :=
  match lookup s hash with
  | .ok (.found rows) => row ∈ rows
  | .ok (.notLoaded batch) =>
    match loadBatch s batch with
    | (.ok (), s) => ∃ rows, lookup s hash = .ok (.found rows) ∧ row ∈ rows
    | (.error e, _) => ∃ fault : StorageFault, e = fault.toError
  | _ => False

theorem lookup_eq_of_running (hrun : s.base.state.isRunning = true) (ht : s.table? = some t)
    (hash : UInt32) : lookup s hash = .ok (t.lookup hash) := by
  rw [lookup, NodeState.ensureRunning, if_pos hrun]
  simp only [ht]

/-- Loading a batch that exists fails only as the files do. -/
theorem loadBatch_error {batch : Nat} {e : Error} (hbatch : batch < t.batchCount)
    {t' : HashTable} (h : t.loadBatch batch = (.error e, t')) :
    ∃ fault : StorageFault, e = fault.toError := by
  rw [HashTable.loadBatch, if_neg (Nat.not_le.mpr hbatch)] at h
  split at h
  · simp at h
  · split at h
    · next fault t₁ _ => exact ⟨fault, (Except.error.inj (Prod.mk.inj h).1).symm⟩
    · simp at h

/-- A running node whose table holds a row finds it under its hash. -/
theorem findsRow_of_holds (hrun : s.base.state.isRunning = true) (ht : s.table? = some t)
    (h : t.Holds rows) (hx : x ∈ rows) : FindsRow s x.hash x.row := by
  have hmem : x.row ∈ rowsWith x.hash rows :=
    List.mem_map.mpr ⟨x, List.mem_filter.mpr ⟨hx, decide_eq_true rfl⟩, rfl⟩
  have hrows := List.ne_nil_of_mem hmem
  rw [FindsRow, lookup_eq_of_running hrun ht]
  by_cases hb : t.batchOf x.hash = t.current
  · rw [h.lookup_current hb, if_neg hrows]
    exact hmem
  · obtain ⟨-, hnone⟩ | hlookup := h.lookup_other hb
    · exact absurd hnone hrows
    · -- The look-up names the batch of the row, which is then loaded.
      rw [hlookup]
      dsimp only
      rw [loadBatch_eq_of_running hrun ht]
      rcases hload : t.loadBatch (t.batchOf x.hash) with ⟨e | _, t₁⟩
      · exact loadBatch_error (t.batchOf_lt x.hash) hload
      · refine ⟨rowsWith x.hash rows, ?_, hmem⟩
        have hrun' : (s.noteLoad t₁).base.state.isRunning = true := hrun
        have ht' : (s.noteLoad t₁).table? = some t₁ := rfl
        rw [lookup_eq_of_running hrun' ht', h.lookup_loadBatch hload, if_neg hrows]

/-- The hash of a probe by its keys. -/
theorem probeHash?_eq {probeKeys : List Expr} {probe : Row} {ws : List Value}
    (hlength : probeKeys.length = n.keys.length)
    (hws : Expr.evalAll probe s.base.params probeKeys = .ok ws) :
    n.probeHash? s probe probeKeys = .ok (n.hasher.hashValues? ws) := by
  rw [probeHash?, if_neg (not_not_intro hlength), hashRow, hws]
  rfl

/-- With hashes that separate the two zeros, one of two equal keys has the hash of the other
exactly if they are the same value. Once a node is built, and whatever batches are loaded then, a
probe whose keys equal those of a stored row has the hash of that row exactly if the zeros among
the keys do not make the hashes differ; and under the hash of the row, the row is found. -/
theorem probe_finds_iff {σ : Type}
    {next : σ → Session → Except Error (Option Slot) × σ × Session} {limit width : Nat}
    {input input' : σ} {w w' : Session} {ctx : Context} (hzeros : n.hasher.SeparatesZeros)
    (hnone : s.table? = none)
    (hbuild : n.build ctx width next limit s input w = (.ok (), s', input', w'))
    (ht : s'.table? = some t) (hx : x ∈ t.stored) {later : State} (hlater : Reaches s' later)
    {probeKeys : List Expr} {probe : Row} {vs ws : List Value}
    (hvs : Expr.evalAll x.row s.base.params n.keys = .ok vs)
    (hws : Expr.evalAll probe later.base.params probeKeys = .ok ws) (heq : (vs == ws) = true) :
    (∀ v w : Value, (v == w) = true → (n.hasher.hashValue v = n.hasher.hashValue w ↔ v = w)) ∧
    (n.probeHash? later probe probeKeys = .ok (some x.hash) ↔ n.hasher.zeroSkew 0 vs ws = 0) ∧
    FindsRow later x.hash x.row := by
  obtain ⟨hrun, hlife, t₁, rows, ht₁, h⟩ := contains_of_build hnone hbuild
  obtain rfl := Option.some.inj (ht₁.symm.trans ht)
  have hxrows : x ∈ rows := h.stored.mem_iff.mpr hx
  obtain ⟨hlife', t₂, ht₂, h₂⟩ := hlater.holds (hlife.state ▸ hrun) ht h.holds
  refine ⟨fun _ _ => hzeros.hashValue_eq_iff, ?_,
    findsRow_of_holds ((hlife.trans hlife').state ▸ hrun) ht₂ h₂ hxrows⟩
  have hlength : probeKeys.length = n.keys.length := by
    rw [← Expr.length_of_evalAll hws, ← Expr.length_of_evalAll hvs, List.length_eq_of_beq heq]
  -- The row is stored under the hash of its keys, and the probe is hashed as the row was.
  have hhash : n.hasher.hashValues? vs = some x.hash := by
    have hhashed := h.hashed x hxrows
    rw [hashRow, hvs] at hhashed
    exact Except.ok.inj hhashed
  rw [probeHash?_eq hlength hws, ← KeyHasher.hashValues?_eq_some_iff heq hhash]
  exact ⟨Except.ok.inj, congrArg Except.ok⟩

/-- An input that returns the rows of a list. -/
def nextOf : List Row → Session → Except Error (Option Slot) × List Row × Session
  | [], w => (.ok none, [], w)
  | row :: rows, w => (.ok (some (.owned none row)), rows, w)

/-- A hash node with one key. -/
def byFirst : HashBuild := { keys := [.column 0], hasher := .folding false, estimatedRows := 0 }

/-- The node is built from one row, whose key is a zero. -/
def builtFromZero : Except Error Unit × State × List Row × Session :=
  byFirst.build {} 0 nextOf 2 { base := { state := .active } } [⟨[.float64 .zero]⟩] {}

theorem probe_finds_zero :
    byFirst.hasher.SeparatesZeros ∧
      byFirst.probeHash? builtFromZero.2.1 ⟨[.float64 .zero]⟩ [.column 0] =
        .ok (some (Value.float64 .zero).keyHash) ∧
      FindsRow builtFromZero.2.1 (Value.float64 .zero).keyHash ⟨[.float64 .zero]⟩ := by
  have hbuild : builtFromZero = (.ok (), builtFromZero.2.1, [], {}) := rfl
  have hstored : Expr.evalAll ⟨[.float64 .zero]⟩ [] [.column 0] = .ok [.float64 .zero] := rfl
  have hprobe : Expr.evalAll ⟨[.float64 .zero]⟩ builtFromZero.2.1.base.params [.column 0] =
      .ok [.float64 .zero] := rfl
  have hzeros : byFirst.hasher.SeparatesZeros := KeyHasher.separatesZeros_folding false
  obtain ⟨-, hhash, hfinds⟩ := probe_finds_iff
    (x := ⟨(Value.float64 .zero).keyHash, ⟨[.float64 .zero]⟩⟩) hzeros rfl hbuild rfl (.head _) .refl
    hstored hprobe (by decide)
  exact ⟨hzeros, hhash.mpr (byFirst.hasher.zeroSkew_self _), hfinds⟩

/-- The negative zero equals the key of the stored row, and a probe by it finds nothing. -/
theorem probe_misses_negativeZero :
    (Value.float64 .zero == Value.float64 .negativeZero) = true ∧
    (∃ t, builtFromZero.2.1.table? = some t ∧
      t.stored = [⟨(Value.float64 .zero).keyHash, ⟨[.float64 .zero]⟩⟩]) ∧
    ∃ hash, byFirst.probeHash? builtFromZero.2.1 ⟨[.float64 .negativeZero]⟩ [.column 0] =
        .ok (some hash) ∧
      hash ≠ (Value.float64 .zero).keyHash ∧
      lookup builtFromZero.2.1 hash = .ok .noMatch :=
  ⟨by decide, ⟨_, rfl, rfl⟩, _, rfl, by decide, rfl⟩

end HashBuild

end PullQuery
