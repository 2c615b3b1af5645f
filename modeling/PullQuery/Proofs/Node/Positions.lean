import PullQuery.Proofs.Node.Coherence

/-!
# Returning to a position

A chain of subquery scans over a sequential scan whose relation keeps positions remembers where it
stands, in whatever state it is running: before the first row, after the last one, or behind a
row that could not be evaluated. Whatever is asked of it afterwards but to remember another
position, to start again or to be released, it can return to the position as often as it likes,
and goes on from there as it would have gone on at first.

## Main definitions

* `HeapScan.Recalls`, `RelationScan.Recalls`: a position is one before some versions
* `Relation.Positioned`, `Operator.Positioned`: scans keep positions
* `Node.Marked`: a tree remembers a position before some versions
* `Node.Resumes`: requests that leave the remembered position alone lead to a state

## Main results

* `HeapScan.At.mark`: a position that is remembered is where the scan stands
* `Node.ready_of_leads`: a running tree stands before some versions
* `Node.Ready.markPos`, `Node.Ready.restorePos`
* `Node.replays_of_resumes`
-/

namespace PullQuery

/-! ## Heaps -/

namespace HeapScan

variable {h : Heap} {d : Direction} {s : HeapScan} {rest : List HeapTuple}

/-- Whether a scan that returns to a position stands before these versions, wherever it stood. -/
def Recalls (h : Heap) (d : Direction) (p : ScanPosition) (rest : List HeapTuple) : Prop :=
  ∀ s rest', At h d s rest' → ∃ s', s.restore h p = .ok s' ∧ At h d s' rest

/-- The position of a scan leads every scan of the heap to the same place. -/
theorem At.restore_position {s' : HeapScan} {rest' : List HeapTuple} (hs : At h d s rest)
    (hs' : At h d s' rest') (hpositions : h.positioning = true) :
    s'.restore h s.position = .ok { s' with cursor := s.cursor } := by
  unfold HeapScan.restore position
  rw [if_pos hpositions]
  rcases hcursor : s.cursor with _ | i | _
  · rfl
  · have hwithin : i < h.tuples.length := by
      have hcursorWithin := hs.within
      rwa [hcursor] at hcursorWithin
    have hlt : i < h.locations.length := h.length_locations ▸ hwithin
    have hfound : Keyed.indexOf? id h.locations[i] h.locations = some i :=
      Heap.indexOf?_locations_eq_some_iff.mpr (List.getElem?_eq_getElem hlt)
    simp only [hs.locations, hs'.locations, List.getElem?_eq_getElem hlt, Option.elim_some, hfound]
  · rfl

/-- A position that is remembered is where the scan stands. -/
theorem At.mark (hs : At h d s rest) (hpositions : h.positioning = true) :
    ∃ p, s.mark h = .ok p ∧ Recalls h d p rest := by
  refine ⟨s.position, if_pos hpositions, ?_⟩
  intro s' rest' hs'
  -- What lies ahead depends on the cursor alone.
  exact ⟨_, hs.restore_position hs' hpositions, hs'.locations, hs'.direction, hs.within, hs.rest_eq⟩

end HeapScan

/-! ## Relations -/

/-- Whether the scans of a relation keep positions, and its storage never fails. -/
structure Relation.Positioned (r : Relation) : Prop where
  reliable : r.Reliable
  claims : r.claimsPositioning = true
  keeps : r.keepsPositions = true
  heap : r.heap.positioning = true

theorem Relation.positioned_ofHeap {h : Heap} (hpositions : h.positioning = true) :
    (Relation.ofHeap h).Positioned where
  reliable := reliable_ofHeap h
  claims := hpositions
  keeps := rfl
  heap := hpositions

namespace RelationScan

variable {r : Relation} {d : Direction} {s : RelationScan} {rest : List HeapTuple}

/-- Whether a scan that returns to a position stands before these versions, wherever it stood. -/
def Recalls (r : Relation) (d : Direction) (p : ScanPosition) (rest : List HeapTuple) : Prop :=
  ∀ s rest', At r d s rest' → ∃ s', s.restore r p = .ok s' ∧ At r d s' rest

theorem At.mark (hs : At r d s rest) (hr : r.Positioned) :
    ∃ p, s.mark r = .ok p ∧ Recalls r d p rest := by
  obtain ⟨p, hmark, hrecalls⟩ := HeapScan.At.mark hs hr.heap
  refine ⟨p, ?_, ?_⟩
  · rw [RelationScan.mark, if_pos hr.keeps, hmark]
  · intro s' rest' hs'
    obtain ⟨scan, hrestore, hat⟩ := hrecalls s'.scan rest' hs'
    refine ⟨{ s' with scan }, ?_, hat⟩
    rw [RelationScan.restore, if_pos hr.keeps, hrestore]
    rfl

end RelationScan

/-! ## Scans -/

theorem SeqScan.mark_fetchUpTo {ctx : Context} (n : SeqScan) (limit : Nat) (scan : RelationScan)
    (s : State) (w : Session) : (n.fetchUpTo ctx limit scan s w).2.1.mark? = s.mark? := by
  induction limit generalizing scan s w with
  | zero => rfl
  | succ limit ih =>
    rw [fetchUpTo]
    split
    · rfl
    · rfl
    · -- A version that is invisible or filtered out is counted, and the search goes on behind it.
      dsimp only
      split
      · rw [ih]
        rfl
      · split
        · rfl
        · rw [ih]
          rfl
        · rfl

theorem SeqScan.mark_fetch {ctx : Context} (n : SeqScan) (s : State) (w : Session) :
    (n.fetch ctx s w).2.1.mark? = s.mark? := by
  unfold fetch
  split
  · rfl
  · exact n.mark_fetchUpTo _ _ s w

/-- Whether the operators are subquery scans over a sequential scan that keeps positions. -/
def Operator.Positioned : Operator → Prop
  | seqScan scan => scan.relation.Positioned
  | subquery _ op => Positioned op
  | bitmap _ => False
  | hash .. => False

namespace Operator.Positioned

theorem isScan {op : Operator} (h : op.Positioned) : op.IsScan := by
  induction op with
  | seqScan scan => trivial
  | subquery scan op ih => exact ih h
  | bitmap op => contradiction
  | hash build op => contradiction

theorem reliable {op : Operator} (h : op.Positioned) : op.Reliable := by
  induction op with
  | seqScan scan => exact Relation.Positioned.reliable h
  | subquery scan op ih => exact ih h
  | bitmap op => contradiction
  | hash build op => contradiction

theorem markRestore {op : Operator} (h : op.Positioned) : op.capabilities.markRestore = true := by
  induction op with
  | seqScan scan => exact Relation.Positioned.claims h
  | subquery scan op ih => exact ih h
  | bitmap op => contradiction
  | hash build op => contradiction

theorem ne_bitmap {op : Operator} (h : op.Positioned) (b : BitmapOp) : op ≠ .bitmap b := by
  rintro rfl
  contradiction

end Operator.Positioned

/-! ## Requests -/

namespace NodeRequest

/-- Whether a request moves a scan, or changes what position it remembers. -/
def Moves : NodeRequest → Prop
  | next => True
  | rescan _ => True
  | mark => True
  | restore => True
  | finish => True
  | _ => False

/-- Whether a request leaves a remembered position alone. -/
def KeepsMark : NodeRequest → Prop
  | mark => False
  | rescan _ => False
  | finish => False
  | _ => True

theorem KeepsMark.ne_finish {r : NodeRequest} (h : r.KeepsMark) : r ≠ finish := by
  rintro rfl
  exact h

end NodeRequest

/-! ## Trees -/

variable {ctx : Context} {params : List Value}

namespace Node

/-- Whether a tree remembers a position before these versions. -/
def Marked (rest : List HeapTuple) : (op : Operator) → Node op → Prop
  | .seqScan scan, .seqScan s =>
    ∃ p, s.mark? = some p ∧ RelationScan.Recalls scan.relation scan.direction p rest
  | .subquery _ op, .subquery _ input => Marked rest op input
  | .bitmap _, .bitmap _ => False
  | .hash _ _, .hash _ _ => False

variable {op : Operator} {n : Node op} {rest rest' : List HeapTuple}

theorem admitPosition_of_ready {b : NodeBase} (hop : op.Positioned) (h : b.IsReady params rest)
    (operation : String) : admitPosition op b operation = .ok () := by
  rw [admitPosition, if_pos hop.markRestore]
  exact NodeState.ensureRunning_eq_ok_iff.mpr h.running

/-- A tree that stands before some versions can remember this position. -/
theorem Ready.markPos (hop : op.Positioned) (h : Ready params op n rest) :
    ∃ n', n.markPos op = (.ok (), n') ∧ Ready params op n' rest ∧ Marked rest op n' := by
  induction op with
  | seqScan scan =>
    cases n with | seqScan s
    obtain ⟨hbase, rs, hscan, hat⟩ := h
    obtain ⟨p, hmark, hrecalls⟩ := hat.mark hop
    refine ⟨.seqScan { s with mark? := some p }, ?_, ⟨hbase, rs, hscan, hat⟩, p, rfl, hrecalls⟩
    rw [Node.markPos, admitPosition_of_ready hop hbase]
    simp only [SeqScan.mark, hscan, hmark]
  | subquery scan op ih =>
    cases n with | subquery s input
    obtain ⟨hbase, hinput⟩ := h
    obtain ⟨input', hmark, hready, hmarked⟩ := ih hop hinput
    refine ⟨.subquery s input', ?_, ⟨hbase, hready⟩, hmarked⟩
    rw [Node.markPos, admitPosition_of_ready hop hbase]
    simp only [hmark]
  | bitmap op => contradiction
  | hash build op => contradiction

/-- A tree that remembers a position can return to it, and is active then. -/
theorem Ready.restorePos (hop : op.Positioned) (h : Ready params op n rest')
    (hmarked : Marked rest op n) :
    ∃ n', n.restorePos op = (.ok (), n') ∧ Ready params op n' rest ∧ Marked rest op n' ∧
      n'.base.state = .active := by
  induction op with
  | seqScan scan =>
    cases n with | seqScan s
    obtain ⟨hbase, rs, hscan, hat⟩ := h
    obtain ⟨p, hmark, hrecalls⟩ := hmarked
    obtain ⟨rs', hrestore, hat'⟩ := hrecalls rs rest' hat
    rw [Node.restorePos_seqScan, admitPosition_of_ready hop hbase]
    simp only [SeqScan.restore, hmark, hscan, hrestore]
    exact ⟨_, rfl, ⟨hbase.restarted none, rs', rfl, hat'⟩, ⟨p, rfl, hrecalls⟩, rfl⟩
  | subquery scan op ih =>
    cases n with | subquery s input
    obtain ⟨hbase, hinput⟩ := h
    obtain ⟨input', hrestore, hready, hmarked', -⟩ := ih hop hinput hmarked
    rw [Node.restorePos_subquery, admitPosition_of_ready hop hbase]
    simp only [hrestore]
    exact ⟨_, rfl, ⟨hbase.restarted none, hready⟩, hmarked', rfl⟩
  | bitmap op => contradiction
  | hash build op => contradiction

/-- A tree that fails to return to a position stands where it stood, and one that does not fail
before some versions. -/
theorem Ready.restorePos_cases (hop : op.Positioned) (h : Ready params op n rest) :
    (∃ e n', n.restorePos op = (.error e, n') ∧ Ready params op n' rest) ∨
      ∃ n' rest', n.restorePos op = (.ok (), n') ∧ Ready params op n' rest' := by
  induction op with
  | seqScan scan =>
    cases n with | seqScan s
    obtain ⟨hbase, rs, hscan, hat⟩ := h
    rw [Node.restorePos_seqScan, admitPosition_of_ready hop hbase]
    rcases hmark : s.mark? with _ | p
    · -- There is no position to return to.
      simp only [SeqScan.restore, hmark]
      exact .inl ⟨_, _, rfl, hbase, rs, hscan, hat⟩
    · simp only [SeqScan.restore, hmark, hscan]
      rcases hrestore : rs.restore scan.relation p with e | rs'
      · exact .inl ⟨_, _, rfl, hbase, rs, rfl, hat⟩
      · obtain ⟨rest', hat'⟩ := hat.restore hrestore
        exact .inr ⟨_, rest', rfl, hbase.restarted none, rs', rfl, hat'⟩
  | subquery scan op ih =>
    cases n with | subquery s input
    obtain ⟨hbase, hinput⟩ := h
    rw [Node.restorePos_subquery, admitPosition_of_ready hop hbase]
    obtain ⟨e, input', hrestore, hready⟩ | ⟨input', rest', hrestore, hready⟩ := ih hop hinput
    · simp only [hrestore]
      exact .inl ⟨_, _, rfl, hbase, hready⟩
    · simp only [hrestore]
      exact .inr ⟨_, rest', rfl, hbase.restarted none, hready⟩
  | bitmap op => contradiction
  | hash build op => contradiction

/-- Asking for rows leaves the remembered position alone. -/
theorem Marked.next (hmarked : Marked rest op n) (w : Session) :
    Marked rest op (n.next ctx op w).2.1 := by
  induction op generalizing w with
  | seqScan scan =>
    cases n with | seqScan s
    rw [Node.next]
    split
    · exact hmarked
    · exact hmarked
    -- Fetching moves the scan and leaves the mark.
    · have hmark : (scan.fetch ctx s w).2.1.mark? = s.mark? := scan.mark_fetch s w
      generalize scan.fetch ctx s w = x at hmark ⊢
      obtain ⟨r, s', w'⟩ := x
      obtain ⟨p, hp, hrecalls⟩ := hmarked
      rcases r with e | _ | _
      · exact ⟨p, hmark.trans hp, hrecalls⟩
      · exact ⟨p, hmark.trans hp, hrecalls⟩
      · exact ⟨p, hmark.trans hp, hrecalls⟩
  | subquery scan op ih =>
    cases n with | subquery s input
    have hinput : Marked rest op (Node.next ctx op input w).2.1 := ih hmarked w
    rw [Node.next]
    split
    · exact hmarked
    · exact hmarked
    · generalize Node.next ctx op input w = x at hinput ⊢
      obtain ⟨r, input', w'⟩ := x
      rcases r with e | _ | row
      · exact hinput
      · exact hinput
      · dsimp only
        generalize scan.project s row = y
        obtain ⟨r, s'⟩ := y
        rcases r with e | _
        · exact hinput
        · exact hinput
  | bitmap op => cases n with | bitmap s => contradiction
  | hash build op => cases n with | hash s input => contradiction

/-! ## Any requests -/

theorem Ready.isRunning (h : Ready params op n rest) : n.base.state.isRunning = true := by
  cases n with
  | seqScan s => exact h.1.running
  | subquery s input => exact h.1.running
  | bitmap s => contradiction
  | hash s input => contradiction

/-- A request that moves nothing leaves a running tree of scans as it is. -/
theorem Ready.serve_eq (hop : op.Positioned) (h : Ready params op n rest) {r : NodeRequest}
    (hr : ¬ r.Moves) (w : Session) : (r.serve ctx op n w).2.1 = n := by
  cases r with
  | init flags =>
    exact congrArg Prod.snd (init_of_ne (NodeState.ne_of_isRunning h.isRunning).1 flags)
  | bitmap => exact buildBitmap_left hop.ne_bitmap n
  | hash request =>
    cases op with
    | hash build op => contradiction
    | bitmap op => contradiction
    | seqScan scan => rfl
    | subquery scan op => rfl
  | interrupt set => rfl
  | _ => exact absurd trivial hr

/-- A tree of scans that stands before some versions goes on to do so, unless it is released. Its
parameter values are the same until it starts again. -/
theorem Ready.serve (hop : op.Positioned) (h : Ready params op n rest) {r : NodeRequest}
    (hr : r ≠ .finish) (ctx : Context) (w : Session) :
    ∃ params' rest', Ready params' op (r.serve ctx op n w).2.1 rest' ∧
      (r.KeepsMark → params' = params) := by
  -- Each request that moves the tree has a lemma of its own, and the others leave it as it is.
  by_cases hmoves : r.Moves
  · cases r with
    | next =>
      obtain ⟨rest', -, hready, -⟩ := h.next ctx w
      exact ⟨params, rest', hready, fun _ => rfl⟩
    | rescan params? =>
      rw [NodeRequest.serve]
      rcases hrescan : n.rescan params? op with ⟨answer, n'⟩
      obtain ⟨-, hready⟩ | ⟨-, -, hready⟩ := h.rescan hrescan
      · exact ⟨_, _, hready, False.elim⟩
      · exact ⟨_, _, hready, False.elim⟩
    | mark =>
      obtain ⟨n', hmark, hready, -⟩ := h.markPos hop
      rw [NodeRequest.serve, hmark]
      exact ⟨params, rest, hready, False.elim⟩
    | restore =>
      rw [NodeRequest.serve]
      obtain ⟨e, n', hrestore, hready⟩ | ⟨n', rest', hrestore, hready⟩ := h.restorePos_cases hop
      · rw [hrestore]
        exact ⟨params, rest, hready, fun _ => rfl⟩
      · rw [hrestore]
        exact ⟨params, rest', hready, fun _ => rfl⟩
    | finish => contradiction
    | _ => exact False.elim hmoves
  · rw [h.serve_eq hop hmoves]
    exact ⟨params, rest, h, fun _ => rfl⟩

/-- A request that leaves the remembered position alone leaves it remembered. -/
theorem Marked.serve (hop : op.Positioned) (hmarked : Marked rest op n)
    (h : Ready params op n rest') {r : NodeRequest} (hr : r.KeepsMark) (w : Session) :
    Marked rest op (r.serve ctx op n w).2.1 := by
  by_cases hmoves : r.Moves
  · cases r with
    | next => exact hmarked.next w
    | restore =>
      obtain ⟨n', hrestore, -, hmarked', -⟩ := h.restorePos hop hmarked
      rw [NodeRequest.serve, hrestore]
      exact hmarked'
    | mark => contradiction
    | rescan params? => contradiction
    | finish => contradiction
    | _ => exact False.elim hmoves
  · rw [h.serve_eq hop hmoves]
    exact hmarked

/-- A tree that was new once and is running stands before some versions. -/
theorem ready_of_leads (hop : op.Positioned) (h : Leads op (fresh op) n)
    (hrunning : n.base.state.isRunning = true) : ∃ params rest, Ready params op n rest := by
  refine running_induction (motive := fun n => ∃ params rest, Ready params op n rest) ?_ ?_ h
    hrunning
  · intro ctx flags n hinit
    exact ⟨_, _, ready_init hop.isScan hinit⟩
  · rintro n ⟨params, rest, hready⟩ ctx r hr w
    have hne : r ≠ .finish := by
      rintro rfl
      contradiction
    obtain ⟨params', rest', hready', -⟩ := hready.serve hop hne ctx w
    exact ⟨params', rest', hready'⟩

/-! ## Going on from a position -/

/-- Trees that stand before the same versions return the same from there on. -/
theorem Ready.answers_next (hop : op.Positioned) {n' : Node op} (h : Ready params op n rest)
    (h' : Ready params op n' rest) (ctx : Context) (k : Nat) (w w' : Session) :
    answers ctx op (List.replicate k .next) n w =
      answers ctx op (List.replicate k .next) n' w' := by
  induction k generalizing n n' rest w w' with
  | zero => rfl
  | succ k ih =>
    obtain ⟨left, hpull, hleft, -⟩ := h.next ctx w
    obtain ⟨left', hpull', hleft', -⟩ := h'.next ctx w'
    obtain ⟨hanswer, rfl⟩ := hpull.unique hpull' (not_not_intro hop.reliable)
    rw [List.replicate_succ, answers, answers, NodeRequest.serve, NodeRequest.serve]
    exact congr (congrArg (fun r => List.cons (NodeAnswer.row r)) hanswer) (ih hleft hleft' _ _)

/-- Whether requests that leave a remembered position alone, each in a context and a session of
its own, lead from one state of a tree to another. -/
inductive Resumes (op : Operator) (n : Node op) : Node op → Prop where
  | refl : Resumes op n n
  | serve {n' : Node op} (h : Resumes op n n') (ctx : Context) {r : NodeRequest}
      (hr : r.KeepsMark) (w : Session) : Resumes op n (r.serve ctx op n' w).2.1

/-- A position stays remembered until another one is, or the tree starts again or is released. -/
theorem Resumes.marked (hop : op.Positioned) {n' : Node op} (h : Resumes op n n')
    (hready : Ready params op n rest') (hmarked : Marked rest op n) :
    (∃ rest', Ready params op n' rest') ∧ Marked rest op n' := by
  induction h with
  | refl => exact ⟨⟨rest', hready⟩, hmarked⟩
  | serve _ ctx hr w ih =>
    obtain ⟨⟨rest'', hready'⟩, hmarked'⟩ := ih
    obtain ⟨params', left, hleft, hparams⟩ := hready'.serve hop hr.ne_finish ctx w
    rw [hparams hr] at hleft
    exact ⟨⟨left, hleft⟩, hmarked'.serve hop hready' hr w⟩

/-- In whatever state a tree of scans that keep positions is running, it can remember its
position. Whatever is asked of it afterwards, but to remember another position, to start again or
to be released, it can return to the position, is active then, and returns from there on what it
would have returned at first. -/
theorem replays_of_resumes (hop : op.Positioned) (h : Leads op (fresh op) n)
    (hrunning : n.base.state.isRunning = true) :
    ∃ n₁, n.markPos op = (.ok (), n₁) ∧ ∀ n₂, Resumes op n₁ n₂ →
      ∃ n₃, n₂.restorePos op = (.ok (), n₃) ∧ n₃.base.state = .active ∧
        ∀ ctx k w w', answers ctx op (List.replicate k .next) n₃ w =
          answers ctx op (List.replicate k .next) n w' := by
  obtain ⟨params, rest, hready⟩ := ready_of_leads hop h hrunning
  obtain ⟨n₁, hmark, hready₁, hmarked⟩ := hready.markPos hop
  refine ⟨n₁, hmark, ?_⟩
  -- The tree may be anywhere by now, but the position it remembers is before the same versions.
  intro n₂ hresumes
  obtain ⟨⟨rest', hready₂⟩, hmarked₂⟩ := hresumes.marked hop hready₁ hmarked
  obtain ⟨n₃, hrestore, hready₃, -, hactive⟩ := hready₂.restorePos hop hmarked₂
  refine ⟨n₃, hrestore, hactive, ?_⟩
  intro ctx k w w'
  exact hready₃.answers_next hop hready ctx k w w'

/-- A heap of three numbers on two blocks. -/
def threeNumbers : Heap :=
  let empty : Heap := { name := "numbers", shape := ⟨[⟨"x", .int64⟩]⟩ }
  ((((empty.withTuplesPerPage 2).insert ⟨[.int64 1]⟩ 2).2.insert ⟨[.int64 2]⟩ 2).2.insert ⟨[.int64 3]⟩ 2).2

/-- A subquery scan that doubles the numbers from the last to the first. -/
def doubledNumbers : Operator :=
  .subquery ⟨some [.binary (.arithmetic .add) (.column 0) (.column 0)], ⟨[⟨"y", .int64⟩]⟩⟩
    (.seqScan ⟨.ofHeap threeNumbers, .backward, none⟩)

/-- The mark is behind the first of three rows. Once all rows have been read, the two behind the
mark are read again. -/
theorem replays_of_resumes_doubled :
    doubledNumbers.Positioned ∧ ∃ n, Leads doubledNumbers (fresh doubledNumbers) n ∧
      n.base.state.isRunning = true ∧ n.slot doubledNumbers = .owned (some ⟨1, 1⟩) ⟨[.int64 6]⟩ ∧
      ∃ n₁, n.markPos doubledNumbers = (.ok (), n₁) ∧
        ∃ n₂, Resumes doubledNumbers n₁ n₂ ∧ n₂.base.state = .exhausted ∧
          ∃ n₃, n₂.restorePos doubledNumbers = (.ok (), n₃) ∧
            answers {} doubledNumbers [.next, .next, .next] n₃ {} =
              [.row (.ok (some (.owned (some ⟨0, 2⟩) ⟨[.int64 4]⟩))),
                .row (.ok (some (.owned (some ⟨0, 1⟩) ⟨[.int64 2]⟩))), .row (.ok none)] := by
  have hop : doubledNumbers.Positioned := Relation.positioned_ofHeap rfl
  have hread := ((Leads.refl (n := fresh doubledNumbers)).serve {} (.init {}) {}).serve {} .next {}
  obtain ⟨n₁, hmark, hreplays⟩ := replays_of_resumes hop hread rfl
  have hleft : Resumes doubledNumbers n₁ _ :=
    ((Resumes.refl.serve {} (r := .next) trivial {}).serve {} (r := .next) trivial {}).serve {}
      (r := .next) trivial {}
  obtain ⟨n₃, hrestore, -, hanswers⟩ := hreplays _ hleft
  refine ⟨hop, _, hread, rfl, rfl, n₁, hmark, _, hleft, ?_, n₃, hrestore, ?_⟩
  · rw [show n₁ = _ from congrArg Prod.snd hmark.symm]
    rfl
  · exact (hanswers {} 3 {} {}).trans rfl

end Node

end PullQuery
