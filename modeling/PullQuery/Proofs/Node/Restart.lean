import PullQuery.Proofs.Node.Observations
import PullQuery.Proofs.Node.Settled

/-!
# Starting again

A tree that is started again answers every observation as a new tree would that is initialized
with the same parameter values, whatever was asked of it before and whatever failed. With new
parameter values, nothing of what it has made is left. Without, a hash node keeps its table,
which answers like the one that it would build again; only an interrupt of the statement can
tell the two apart, since a table that is kept is not built.

## Main definitions

* `NodeRequest.IsUse`: the requests between setting up and releasing
* `Node.RestartsAs`: a tree that is started again is like a new one

## Main results

* `Node.LikeNew.alike`: a tree that has just been started cannot be told from a pristine one
* `Node.Runs.rescan`, `Node.Runs.rescan_pristine`, `Node.Sound.rescan_none`
* `Node.Runs.serve`, `Node.Settled.serve`: what every request keeps
* `Node.restartsAs_of_run`
-/

namespace PullQuery

variable {ctx : Context} {params : List Value} {c : Company}

theorem HashBuild.base_rewind (s : HashBuild.State) : (rewind s).2.base = s.base := by
  unfold rewind
  split
  · rfl
  · rfl

@[simp] theorem HashBuild.rebuilds_base (s : HashBuild.State) (b : NodeBase)
    (params? : Option (List Value)) : rebuilds { s with base := b } params? = rebuilds s params? :=
  rfl

/-- A hash node that does not read its input again has a table and no new parameter values. -/
theorem HashBuild.of_not_rebuilds {s : HashBuild.State} {params? : Option (List Value)}
    (h : rebuilds s params? = false) : params? = none ∧ ∃ t, s.table? = some t := by
  rw [rebuilds, Bool.or_eq_false_iff] at h
  exact ⟨by simpa using h.1, Option.isSome_iff_exists.mp (by simpa using h.2)⟩

namespace Node

/-! ## Trees that have just been started -/

theorem Pristine.alike : {op : Operator} → {n n' : Node op} → Pristine params op n →
    Pristine params op n' → Alike ctx c op n n'
  | .seqScan _, .seqScan _, .seqScan _, h, h' => by
    obtain ⟨hbase, rs, hscan, hat⟩ := h
    obtain ⟨hbase', rs', hscan', hat'⟩ := h'
    exact ⟨hbase.alike hbase', rs, rs', _, hscan, hscan', hat, hat'⟩
  | .bitmap _, .bitmap _, .bitmap _, h, h' => BitmapNode.Pristine.alike h h'
  | .subquery .., .subquery .., .subquery .., h, h' => ⟨h.1.alike h'.1, h.2.alike h'.2⟩
  | .hash .., .hash .., .hash .., h, h' =>
    ⟨h.1.alike h'.1, .unbuilt h.2.1 h'.2.1 h.2.2.1 h'.2.2.1 (h.2.2.2.alike h'.2.2.2)⟩

theorem Pristine.runs {op : Operator} {n : Node op} (h : Pristine params op n) :
    Runs params op n := (h.likeNew : LikeNew {} params op n).runs

/-- A table that was kept is one that a pristine input gives again. -/
theorem rebuilds_of_kept {build : HashBuild} {op : Operator} (hop : op.Reliable)
    {P : Node op → Prop} {t : HashTable} {s : HashBuild.State} {input : Node op}
    (hkept : Kept ctx params build op P t) (hcurrent : t.current = 0)
    (hs : s.base.params = params) (hinput : ∀ i, P i → Alike ctx .calm op i input) :
    build.Rebuilds ctx op.shape.width (next ctx op) (rowsAhead op input + 1) t s input := by
  intro w hw
  obtain ⟨s₀, i₀, w₀, t₀, s₁, i₁, w₁, hparams, hi₀, hdrain, ht₀, hfirst, halike⟩ := hkept.origin
  have hlike := hinput i₀ hi₀
  -- Building from the old input succeeds in a calm session as it did before.
  obtain ⟨v₁, hcalmly, hv₁⟩ := HashBuild.drain_of_calm (next_of_calm op) build hdrain hw
  -- And so does building from the new input, which returns the same rows.
  obtain ⟨hanswer, -, -, hsession⟩ := HashBuild.drain_agree (n := build)
    (t := build.emptyTable ctx op.shape.width) (Alike.next hop) (rowsAhead op i₀ + 1) hlike
    (⟨hw, hw⟩ : Company.calm.Keeps ctx w w) (hparams.trans hs.symm)
  rw [hcalmly, hlike.rowsAhead_eq] at hanswer
  rw [hlike.rowsAhead_eq] at hsession
  rcases hagain : build.drain (next ctx op) (rowsAhead op input + 1)
    (build.emptyTable ctx op.shape.width) s input w with ⟨r, s₂, i₂, w₂⟩
  rw [hagain] at hanswer hsession
  obtain rfl : .ok t₀ = r := hanswer
  exact ⟨t₀, s₂, i₂, w₂, rfl, hsession, .inr ⟨halike.symm, hcurrent.trans hfirst.symm,
    hkept.unlimited, ht₀⟩⟩

/-- A tree that has just been started and may have kept its tables cannot be told from a
pristine one, as long as the statement is not interrupted. -/
theorem LikeNew.alike {op : Operator} (hop : op.Reliable) {n n' : Node op}
    (h : LikeNew ctx params op n) (h' : Pristine params op n') : Alike ctx .calm op n n' := by
  induction op with
  | seqScan scan =>
    cases n with | seqScan s
    cases n' with | seqScan s'
    exact Pristine.alike h h'
  | bitmap op =>
    cases n with | bitmap s
    cases n' with | bitmap s'
    exact BitmapNode.Pristine.alike h h'
  | subquery scan op ih =>
    cases n with | subquery s input
    cases n' with | subquery s' input'
    exact ⟨h.1.alike h'.1, ih hop h.2 h'.2⟩
  | hash build op ih =>
    cases n with | hash s input
    cases n' with | hash s' input'
    obtain ⟨hbase, hhash⟩ := h
    obtain ⟨hbase', ht', ha', hinput'⟩ := h'
    refine ⟨hbase.alike hbase', ?_⟩
    cases hhash with
    | unbuilt ht ha hinput => exact .unbuilt ht ht' ha ha' (ih hop hinput hinput')
    | built ht ha hinput hcurrent hkept =>
      have hreliable : op.Reliable := hop
      have hagain := rebuilds_of_kept hreliable hkept hcurrent hbase'.params_eq
        fun i hi => ih hop hi hinput'
      exact .kept ht ht' ha ha' rfl hagain

/-! ## Rescans -/

/-- A tree goes on running when it is started again, whether that succeeds or fails. -/
theorem Runs.rescan {op : Operator} {params? : Option (List Value)} {n : Node op}
    (h : Runs params op n) : Runs (params?.getD params) op (n.rescan params? op).2 := by
  induction op with
  | seqScan scan =>
    cases n with | seqScan s
    obtain ⟨hbase, rs, rest, hscan, hat⟩ := h
    have hbase' := hbase.restarted params?
    rw [Node.rescan_seqScan, hbase.ensureRunning]
    simp only [SeqScan.rescan, hscan]
    obtain ⟨e, rs', -, hfail, hat'⟩ | ⟨rs', hok, hat'⟩ := hat.rescan
    · rw [hfail]
      exact ⟨hbase'.runs, rs', rest, rfl, hat'⟩
    · rw [hok]
      exact ⟨hbase'.countLoop.runs, rs', _, rfl, hat'⟩
  | bitmap op =>
    cases n with | bitmap s
    obtain ⟨s', hrescan, hpristine⟩ := BitmapNode.Runs.rescan params? h
    rw [Node.rescan, hrescan]
    exact BitmapNode.Pristine.runs hpristine
  | subquery scan op ih =>
    cases n with | subquery s input
    obtain ⟨hbase, hinput⟩ := h
    have hbase' := hbase.restarted params?
    have hleft := ih hinput
    rw [Node.rescan_subquery, hbase.ensureRunning]
    dsimp only
    generalize Node.rescan params? op input = x at hleft ⊢
    obtain ⟨r, input'⟩ := x
    rcases r with e | _
    · exact ⟨hbase'.runs, hleft⟩
    · exact ⟨hbase'.countLoop.runs, hleft⟩
  | hash build op ih =>
    cases n with | hash s input
    obtain ⟨hbase, hinput⟩ := h
    have hbase' := hbase.restarted params?
    have hleft := ih hinput
    rw [Node.rescan_hash, hbase.ensureRunning]
    dsimp only
    split
    · generalize Node.rescan params? op input = x at hleft ⊢
      obtain ⟨r, input'⟩ := x
      rcases r with e | _
      · exact ⟨hbase'.runs, hleft⟩
      · exact ⟨hbase'.countLoop.runs, hleft⟩
    -- A table that is kept is rewound, and the input is not asked.
    · next hkeeps =>
      obtain ⟨rfl, -⟩ := HashBuild.of_not_rebuilds (Bool.not_eq_true _ ▸ hkeeps)
      have hbase₁ := HashBuild.base_rewind { s with base := s.base.restarted none }
      generalize HashBuild.rewind { s with base := s.base.restarted none } = x at hbase₁ ⊢
      obtain ⟨r, s'⟩ := x
      have hbase₂ : s'.base.Starts params := hbase₁.symm ▸ hbase'
      rcases r with e | _
      · exact ⟨hbase₂.runs, hinput⟩
      · exact ⟨hbase₂.countLoop.runs, hinput⟩

/-- With new parameter values, or without tables, a tree over reliable storage starts again as
a pristine one. -/
theorem Runs.rescan_pristine {op : Operator} (hop : op.Reliable) {n : Node op}
    (h : Runs params op n) (params? : Option (List Value))
    (htables : params?.isSome = true ∨ Untabled op n) :
    ∃ n', n.rescan params? op = (.ok (), n') ∧ Pristine (params?.getD params) op n' := by
  induction op with
  | seqScan scan =>
    cases n with | seqScan s
    obtain ⟨hbase, rs, rest, hscan, hat⟩ := h
    rw [Node.rescan_seqScan, hbase.ensureRunning]
    simp only [SeqScan.rescan, hscan]
    obtain ⟨e, rs', hfaulty, -⟩ | ⟨rs', hok, hat'⟩ := hat.rescan
    · exact absurd hop hfaulty
    · rw [hok]
      exact ⟨_, rfl, (hbase.restarted params?).countLoop, rs', rfl, hat'⟩
  | bitmap op =>
    cases n with | bitmap s
    obtain ⟨s', hrescan, hpristine⟩ := BitmapNode.Runs.rescan params? h
    rw [Node.rescan, hrescan]
    exact ⟨_, rfl, hpristine⟩
  | subquery scan op ih =>
    cases n with | subquery s input
    obtain ⟨input', hrescan, hpristine⟩ := ih hop h.2 htables
    rw [Node.rescan_subquery, h.1.ensureRunning]
    simp only [hrescan]
    exact ⟨_, rfl, (h.1.restarted params?).countLoop, hpristine⟩
  | hash build op ih =>
    cases n with | hash s input
    obtain ⟨input', hrescan, hpristine⟩ := ih hop h.2 (htables.imp id And.right)
    have hrebuilds : HashBuild.rebuilds s params? = true := by
      rw [HashBuild.rebuilds, Bool.or_eq_true]
      exact htables.imp id fun ht => Option.isNone_iff_eq_none.mpr ht.1
    rw [Node.rescan_hash, h.1.ensureRunning]
    simp only [HashBuild.rebuilds_base, hrebuilds, hrescan, if_true]
    exact ⟨_, rfl, (h.1.restarted params?).countLoop, rfl, rfl, hpristine⟩

/-- Without new parameter values, a tree over reliable storage starts again as one that is like
new. -/
theorem Sound.rescan_none {op : Operator} (hop : op.Reliable) {n : Node op}
    (hn : Runs params op n) (h : Sound ctx params op n) :
    ∃ n', n.rescan none op = (.ok (), n') ∧ LikeNew ctx params op n' := by
  induction op with
  | seqScan scan =>
    cases n with | seqScan s
    obtain ⟨n', hrescan, hpristine⟩ := hn.rescan_pristine hop none (.inr trivial)
    exact ⟨n', hrescan, hpristine.likeNew⟩
  | bitmap op =>
    cases n with | bitmap s
    obtain ⟨n', hrescan, hpristine⟩ := hn.rescan_pristine hop none (.inr trivial)
    exact ⟨n', hrescan, hpristine.likeNew⟩
  | subquery scan op ih =>
    cases n with | subquery s input
    obtain ⟨input', hrescan, hlikeNew⟩ := ih hop hn.2 h
    rw [Node.rescan_subquery, hn.1.ensureRunning]
    simp only [hrescan]
    exact ⟨_, rfl, (hn.1.restarted none).countLoop, hlikeNew⟩
  | hash build op ih =>
    cases n with | hash s input
    have hbase := (hn.1.restarted none).countLoop
    rw [Node.rescan_hash, hn.1.ensureRunning]
    cases h with
    | unbuilt ht hsound hlikeNew =>
      obtain ⟨input', hrescan, hagain⟩ := ih hop hn.2 hsound
      simp only [HashBuild.rebuilds, ht, hrescan]
      exact ⟨_, rfl, hbase, .unbuilt rfl rfl hagain⟩
    | @built t ht ha hkept =>
      -- The table is kept and goes back to its first batch.
      obtain ⟨t', hload, hcurrent, hkept'⟩ := HashBuild.Kept.loadBatch hkept t.batchCount_pos
      simp only [HashBuild.rebuilds, ht, HashBuild.rewind, hload]
      exact ⟨_, rfl, hbase, .built rfl ha hn.2 hcurrent hkept'⟩

/-! ## Requests -/

/-- Only bitmap nodes change when they are asked for a bitmap. -/
theorem buildBitmap_left {op : Operator} (hop : ∀ bitmap, op ≠ .bitmap bitmap) (n : Node op) :
    (n.buildBitmap ctx op).2 = n := by
  cases n with
  | bitmap s => exact absurd rfl (hop _)
  | seqScan s =>
    simp only [buildBitmap]
    split <;> rfl
  | subquery s input =>
    simp only [buildBitmap]
    split <;> rfl
  | hash s input =>
    simp only [buildBitmap]
    split <;> rfl

theorem Runs.buildBitmap {op : Operator} {n : Node op} (h : Runs params op n) :
    Runs params op (n.buildBitmap ctx op).2 := by
  cases op with
  | bitmap op =>
    cases n with | bitmap s
    simp only [Node.buildBitmap]
    split
    · exact h
    · exact BitmapNode.Runs.build h
  | seqScan scan => rwa [buildBitmap_left (by simp)]
  | subquery scan op => rwa [buildBitmap_left (by simp)]
  | hash build op => rwa [buildBitmap_left (by simp)]

theorem Sound.buildBitmap {op : Operator} {n : Node op} (h : Sound ctx params op n) :
    Sound ctx params op (n.buildBitmap ctx op).2 := by
  cases op with
  | bitmap op =>
    cases n with | bitmap s
    simp only [Node.buildBitmap]
    split <;> trivial
  | seqScan scan => rwa [buildBitmap_left (by simp)]
  | subquery scan op => rwa [buildBitmap_left (by simp)]
  | hash build op => rwa [buildBitmap_left (by simp)]

theorem Runs.markPos {op : Operator} {n : Node op} (h : Runs params op n) :
    Runs params op (n.markPos op).2 := by
  induction op with
  | seqScan scan =>
    cases n with | seqScan s
    obtain ⟨hbase, rs, rest, hscan, hat⟩ := h
    rw [Node.markPos]
    split
    · exact ⟨hbase, rs, rest, hscan, hat⟩
    · simp only [SeqScan.mark, hscan]
      split
      · exact ⟨hbase, rs, rest, hscan, hat⟩
      · exact ⟨hbase, rs, rest, rfl, hat⟩
  | subquery scan op ih =>
    cases n with | subquery s input
    rw [Node.markPos]
    split
    · exact h
    · exact ⟨h.1, ih h.2⟩
  | bitmap op => cases n with | bitmap s => exact h
  | hash build op => cases n with | hash s input => exact h

theorem Sound.markPos {op : Operator} {n : Node op} (h : Sound ctx params op n) :
    Sound ctx params op (n.markPos op).2 := by
  induction op with
  | seqScan scan =>
    cases n with | seqScan s
    rw [Node.markPos]
    split <;> trivial
  | subquery scan op ih =>
    cases n with | subquery s input
    rw [Node.markPos]
    split
    · exact h
    · exact ih h
  | bitmap op => cases n with | bitmap s => exact h
  | hash build op => cases n with | hash s input => exact h

theorem Runs.restorePos {op : Operator} {n : Node op} (h : Runs params op n) :
    Runs params op (n.restorePos op).2 := by
  induction op with
  | seqScan scan =>
    cases n with | seqScan s
    obtain ⟨hbase, rs, rest, hscan, hat⟩ := h
    rw [Node.restorePos_seqScan]
    split
    · exact ⟨hbase, rs, rest, hscan, hat⟩
    · unfold SeqScan.restore
      rcases s.mark? with _ | p
      · exact ⟨hbase, rs, rest, hscan, hat⟩
      · simp only [hscan]
        rcases hrestore : rs.restore scan.relation p with e | rs'
        · exact ⟨hbase, rs, rest, rfl, hat⟩
        · obtain ⟨rest', hat'⟩ := hat.restore hrestore
          exact ⟨(hbase.restarted none).runs, rs', rest', rfl, hat'⟩
  | subquery scan op ih =>
    cases n with | subquery s input
    have hleft := ih h.2
    rw [Node.restorePos_subquery]
    split
    · exact h
    · generalize Node.restorePos op input = x at hleft ⊢
      obtain ⟨r, input'⟩ := x
      rcases r with e | _
      · exact ⟨h.1, hleft⟩
      · exact ⟨(h.1.restarted none).runs, hleft⟩
  | bitmap op => cases n with | bitmap s => exact h
  | hash build op => cases n with | hash s input => exact h

theorem Sound.restorePos {op : Operator} {n : Node op} (h : Sound ctx params op n) :
    Sound ctx params op (n.restorePos op).2 := by
  induction op with
  | seqScan scan =>
    cases n with | seqScan s
    rw [Node.restorePos_seqScan]
    split
    · trivial
    · split <;> trivial
  | subquery scan op ih =>
    cases n with | subquery s input
    have hleft := ih h
    rw [Node.restorePos_subquery]
    split
    · exact h
    · generalize Node.restorePos op input = x at hleft ⊢
      obtain ⟨r, input'⟩ := x
      rcases r with e | _
      · exact hleft
      · exact hleft
  | bitmap op => cases n with | bitmap s => exact h
  | hash build op => cases n with | hash s input => exact h

/-- Loading a batch leaves a hash node sound. -/
theorem Sound.loadBatch {build : HashBuild} {op : Operator} {s : HashBuild.State} {input : Node op}
    (hrun : s.base.state.isRunning = true)
    (h : Sound ctx params (.hash build op) (hash s input)) (batch : Nat) :
    Sound ctx params (.hash build op) (hash (HashBuild.loadBatch s batch).2 input) := by
  unfold HashBuild.loadBatch
  rw [NodeState.ensureRunning_eq_ok_iff.mpr hrun]
  cases h with
  | unbuilt ht hsound hlikeNew =>
    rw [ht]
    exact .unbuilt ht hsound hlikeNew
  | @built t ht ha hkept =>
    rw [ht]
    by_cases hbatch : batch < t.batchCount
    · obtain ⟨t', hload, -, hkept'⟩ := HashBuild.Kept.loadBatch hkept hbatch
      simp only [hload]
      exact .built rfl ha hkept'
    · -- There is no such batch.
      have hload : ∃ e, t.loadBatch batch = (.error e, t) := by
        rw [HashTable.loadBatch, if_pos (Nat.not_lt.mp hbatch)]
        exact ⟨_, rfl⟩
      obtain ⟨e, hload⟩ := hload
      simp only [hload]
      exact .built rfl ha hkept

end Node

/-- Whether a request neither sets up a tree nor releases it. -/
def NodeRequest.IsUse : NodeRequest → Prop
  | init _ => False
  | finish => False
  | _ => True

namespace Node

/-- A request to a hash node leaves all nodes running. -/
theorem Runs.serve_hash {build : HashBuild} {op : Operator} {n : Node (.hash build op)}
    (h : Runs params (.hash build op) n) (r : HashRequest) (w : Session) :
    Runs params (.hash build op) (r.serve ctx build op n w).2.1 := by
  cases n with | hash s input
  obtain ⟨hbase, hinput⟩ := h
  cases r with
  | build => exact Runs.build build _ _ w hbase hinput fun i w hi => hi.next
  | load batch => exact ⟨hbase.congr (HashBuild.loadBatch_alike s batch), hinput⟩
  | lookup hash => exact ⟨hbase, hinput⟩

/-- A running tree goes on running, whatever is asked of it but to be released. -/
theorem Runs.serve {op : Operator} {n : Node op} (h : Runs params op n) {r : NodeRequest}
    (hr : r.IsUse) (w : Session) : ∃ params', Runs params' op (r.serve ctx op n w).2.1 := by
  cases r with
  | init flags => contradiction
  | finish => contradiction
  | next => exact ⟨params, h.next⟩
  | bitmap => exact ⟨params, h.buildBitmap⟩
  | rescan params? => exact ⟨_, h.rescan⟩
  | mark => exact ⟨params, h.markPos⟩
  | restore => exact ⟨params, h.restorePos⟩
  | hash request =>
    cases op with
    | hash build op => exact ⟨params, h.serve_hash request w⟩
    | seqScan scan => exact ⟨params, h⟩
    | bitmap op => exact ⟨params, h⟩
    | subquery scan op => exact ⟨params, h⟩
  | interrupt set => exact ⟨params, h⟩

/-- Whether a tree is running, with tables that it has built from inputs that had just been
started if rows can be stored. -/
def Settled (ctx : Context) (op : Operator) (n : Node op) : Prop :=
  ∃ params, Runs params op n ∧
    (ctx.spillCapacity? = none → op.RowsStorable ctx params → Sound ctx params op n)

theorem Settled.rescan {op : Operator} (hop : op.Reliable) {n : Node op} (h : Settled ctx op n)
    (params? : Option (List Value)) : Settled ctx op (n.rescan params? op).2 := by
  obtain ⟨params, hruns, hsound⟩ := h
  refine ⟨params?.getD params, hruns.rescan, fun hcapacity hrows => ?_⟩
  cases params? with
  | none =>
    obtain ⟨n', hrescan, hlikeNew⟩ := (hsound hcapacity hrows).rescan_none hop hruns
    rw [hrescan]
    exact hlikeNew.sound
  | some p =>
    obtain ⟨n', hrescan, hpristine⟩ := hruns.rescan_pristine hop (some p) (.inl rfl)
    rw [hrescan]
    exact hpristine.likeNew.sound

theorem Settled.serve_hash {build : HashBuild} {op : Operator} {n : Node (.hash build op)}
    (h : Settled ctx (.hash build op) n) (r : HashRequest) (w : Session) :
    Settled ctx (.hash build op) (r.serve ctx build op n w).2.1 := by
  obtain ⟨params, hruns, hsound⟩ := h
  refine ⟨params, hruns.serve_hash r w, fun hcapacity hrows => ?_⟩
  cases n with | hash s input
  obtain ⟨hbase, hinput⟩ := hruns
  have hs := hsound hcapacity hrows
  cases r with
  | build =>
    exact Sound.build hcapacity hrows hbase hinput
      (fun i w hi hsound => hsound.next hcapacity hrows.1 hi) hs rfl
  | load batch => exact Sound.loadBatch hbase.running hs batch
  | lookup hash => exact hs

/-- Every request leaves a tree settled. -/
theorem Settled.serve {op : Operator} (hop : op.Reliable) {n : Node op} {w : Session}
    {r : NodeRequest} (hr : r.IsUse) (h : Settled ctx op n) :
    Settled ctx op (r.serve ctx op n w).2.1 := by
  cases r with
  | init flags => contradiction
  | finish => contradiction
  | next =>
    obtain ⟨params, hruns, hsound⟩ := h
    exact ⟨params, hruns.next, fun hcapacity hrows =>
      (hsound hcapacity hrows).next hcapacity hrows hruns⟩
  | bitmap =>
    obtain ⟨params, hruns, hsound⟩ := h
    exact ⟨params, hruns.buildBitmap, fun hcapacity hrows => (hsound hcapacity hrows).buildBitmap⟩
  | rescan params? => exact h.rescan hop params?
  | mark =>
    obtain ⟨params, hruns, hsound⟩ := h
    exact ⟨params, hruns.markPos, fun hcapacity hrows => (hsound hcapacity hrows).markPos⟩
  | restore =>
    obtain ⟨params, hruns, hsound⟩ := h
    exact ⟨params, hruns.restorePos, fun hcapacity hrows => (hsound hcapacity hrows).restorePos⟩
  | hash request =>
    cases op with
    | hash build op => exact h.serve_hash request w
    | seqScan scan => exact h
    | bitmap op => exact h
    | subquery scan op => exact h
  | interrupt set => exact h

/-! ## Restarts -/

/-- Whether a tree that is started again answers every observation in some sessions as a new
tree does that is initialized with the parameter values. -/
def RestartsAs (ctx : Context) (op : Operator) (flags : Flags) (n : Node op)
    (params? : Option (List Value)) (sessions : Session → Prop) : Prop :=
  ∃ n' new, n.rescan params? op = (.ok (), n') ∧
    (fresh op).init (ctx.withParams (params?.getD n.base.params)) op flags = (.ok (), new) ∧
    ∀ (o : Observation) w, sessions w → answers ctx op o.requests n' w =
      answers (ctx.withParams (params?.getD n.base.params)) op o.requests new w

theorem restartsAs_of_alike {op : Operator} (hop : op.Reliable) {flags : Flags}
    {n₀ n n' : Node op} {params? : Option (List Value)} {sessions : Session → Prop}
    (hinit : (fresh op).init ctx op flags = (.ok (), n₀))
    (hrescan : n.rescan params? op = (.ok (), n')) (hrun : n'.base.state.isRunning = true)
    (halike : ∀ new, Pristine (params?.getD n.base.params) op new → Alike ctx c op n' new)
    (hsessions : ∀ w, sessions w → c.Keeps ctx w w) :
    RestartsAs ctx op flags n params? sessions := by
  rcases hnew : (fresh op).init (ctx.withParams (params?.getD n.base.params)) op flags with ⟨r, new⟩
  have hok : r = .ok () := by
    have hsame : ((fresh op).init (ctx.withParams (params?.getD n.base.params)) op flags).1 =
        ((fresh op).init ctx op flags).1 := init_withParams op (fresh op) flags
    rwa [hnew, hinit] at hsame
  subst hok
  refine ⟨n', new, hrescan, hnew, fun o w hw => ?_⟩
  have hanswers := (halike new (pristine_of_init hnew)).answers_eq hop hrun (hsessions w hw) o
  exact hanswers.trans (answers_withParams o.not_isInit new).symm

/-- A tree that is started again after any requests is like a new one: with new parameter
values, or without tables, always; and with tables that it has kept, unless the statement is
interrupted, if rows can be stored. -/
theorem restartsAs_of_run {op : Operator} (hop : op.Reliable) {flags : Flags} {n₀ : Node op}
    (hinit : (fresh op).init ctx op flags = (.ok (), n₀)) {rs : List NodeRequest}
    (hrs : ∀ r ∈ rs, r.IsUse) {w : Session} {n : Node op} (hn : (run ctx op rs n₀ w).1 = n) :
    (∀ p, RestartsAs ctx op flags n (some p) fun _ => True) ∧
      (Untabled op n → RestartsAs ctx op flags n none fun _ => True) ∧
      (ctx.spillCapacity? = none → op.RowsStorable ctx n.base.params →
        RestartsAs ctx op flags n none (·.Calm ctx)) := by
  have hpristine := pristine_of_init hinit
  have hsettled : Settled ctx op n := by
    rw [← hn]
    refine run_induction (motive := fun n _ => Settled ctx op n) ?_ ?_
    · intro r hr n w hn
      exact hn.serve hop (hrs r hr)
    · exact ⟨ctx.params, hpristine.runs, fun _ _ => hpristine.likeNew.sound⟩
  obtain ⟨params, hruns, hsound⟩ := hsettled
  have hparams : n.base.params = params := hruns.base.params_eq
  -- Without a table that is kept, nothing of what was done before is left.
  have hrescans : ∀ params?, params?.isSome = true ∨ Untabled op n →
      RestartsAs ctx op flags n params? fun _ => True := by
    intro params? htables
    obtain ⟨n', hrescan, hpristine'⟩ := hruns.rescan_pristine hop params? htables
    rw [← hparams] at hpristine'
    exact restartsAs_of_alike (c := .inStep) hop hinit hrescan hpristine'.runs.base.running
      (fun new hnew => hpristine'.alike hnew) fun w _ => rfl
  refine ⟨fun p => hrescans (some p) (.inl rfl), fun htables => hrescans none (.inr htables), ?_⟩
  intro hcapacity hrows
  rw [hparams] at hrows
  -- A kept table answers like the one that a new tree builds, if nothing interrupts it.
  obtain ⟨n', hrescan, hlikeNew⟩ := (hsound hcapacity hrows).rescan_none hop hruns
  refine restartsAs_of_alike (c := .calm) hop hinit hrescan hlikeNew.runs.base.running ?_ ?_
  · intro new hnew
    rw [Option.getD_none, hparams] at hnew
    exact hlikeNew.alike hop hnew
  · intro w hw
    exact ⟨hw, hw⟩

/-! ### A table that is kept -/

/-- A heap with one number. -/
def oneNumber : Heap :=
  (({ name := "numbers", shape := ⟨[⟨"x", .int64⟩]⟩ } : Heap).insert
    ⟨[.int64 1]⟩ 2).2

/-- A hash node over a sequential scan of one number. -/
def hashedNumber : Operator :=
  .hash HashBuild.byFirst (.seqScan ⟨.ofHeap oneNumber, .forward, none⟩)

/-- The node once it has built its table. -/
def builtNumber : Node hashedNumber :=
  (run {} hashedNumber [.hash .build] ((fresh hashedNumber).init {} hashedNumber {}).2 {}).1

theorem hashedNumber_rowsStorable (params : List Value) : hashedNumber.RowsStorable {} params := by
  refine ⟨trivial, ?_⟩
  intro t ht slot row hash houtcome hrow
  obtain rfl := List.mem_singleton.mp ht
  obtain rfl := Except.ok.inj (Option.some.inj houtcome)
  obtain rfl := Option.some.inj hrow
  have hstorable : SpilledTuple.Storable ⟨0, ⟨[.int64 1]⟩⟩ := by decide
  exact hstorable

theorem restartsAs_builtNumber :
    hashedNumber.RowsStorable {} builtNumber.base.params ∧
      (∀ p, RestartsAs {} hashedNumber {} builtNumber (some p) fun _ => True) ∧
      RestartsAs {} hashedNumber {} builtNumber none (·.Calm {}) := by
  have hreliable : hashedNumber.Reliable := Relation.reliable_ofHeap _
  have hinit : (fresh hashedNumber).init {} hashedNumber {} =
      (.ok (), ((fresh hashedNumber).init {} hashedNumber {}).2) := rfl
  have huses : ∀ r ∈ [NodeRequest.hash .build], r.IsUse := by
    intro r hr
    rw [List.mem_singleton.mp hr]
    trivial
  have hstorable := hashedNumber_rowsStorable builtNumber.base.params
  obtain ⟨hnew, -, hkept⟩ :=
    restartsAs_of_run hreliable hinit huses (w := {}) (n := builtNumber) rfl
  exact ⟨hstorable, hnew, hkept rfl hstorable⟩

/-- In a statement that has been interrupted, building is canceled, but a table that was kept is
there. -/
theorem not_restartsAs_interrupted :
    hashedNumber.RowsStorable {} builtNumber.base.params ∧
      ¬ RestartsAs {} hashedNumber {} builtNumber none fun _ => True := by
  refine ⟨hashedNumber_rowsStorable _, ?_⟩
  rintro ⟨n', new, hrescan, hnew, hanswers⟩
  obtain rfl : (builtNumber.rescan none hashedNumber).2 = n' := congrArg Prod.snd hrescan
  obtain rfl : ((fresh hashedNumber).init {} hashedNumber {}).2 = new := congrArg Prod.snd hnew
  have hsame := hanswers (.table []) { interrupted := true } trivial
  have hkept : answers {} hashedNumber (Observation.table []).requests
      (builtNumber.rescan none hashedNumber).2 { interrupted := true } =
    [.outcome (.ok ())] := rfl
  have hcanceled : answers {} hashedNumber (Observation.table []).requests
      ((fresh hashedNumber).init {} hashedNumber {}).2 { interrupted := true } =
    [.outcome (.error .canceled)] := rfl
  have hanswer := hkept.symm.trans (hsame.trans hcanceled)
  simp at hanswer

end Node

end PullQuery
