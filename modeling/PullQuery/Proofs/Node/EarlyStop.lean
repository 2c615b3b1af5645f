import PullQuery.Proofs.Bitmap.Intersections
import PullQuery.Proofs.Node.BitmapTrees

/-!
# Intersections that stop early

A node that intersects the bitmaps of its inputs asks them in turn and stops at the first one that
leaves no candidate, with the empty bitmap as its answer. This is the intersection of all the
inputs, except for the blocks that a lossy page of a later input would bring back. What it answers
depends on nothing but the bitmaps that its inputs have, however often it has been asked and started
again.

## Main definitions

* `Combination.gather`: what the bitmaps of inputs in turn make, up to the one that settles it
* `BitmapNode.inputAnswers`: what the inputs of a node answer when they are asked for their bitmaps
* `BitmapNode.Faithful`: a bitmap that is kept is what the inputs make

## Main results

* `BitmapNode.fst_buildAll`: what is made of the inputs depends on their answers alone
* `BitmapNode.build_build`: a tree that is asked again answers as before
* `BitmapNode.Faithful.serve`: any request
* `BitmapNode.absent_alike_iff_not_revives`: the same tuples are absent as without the stop, unless
  their block comes back
-/

namespace PullQuery

/-! ## Inputs in turn -/

namespace Combination

/-- What the answers of inputs in turn make of the bitmap of the inputs before them. No input behind
a settled result matters. -/
def gather (how : Combination) (limits : BitmapLimits) :
    Option TidBitmap → List (Except Error TidBitmap) → Except Error TidBitmap
  | acc?, [] => .ok (acc?.getD (.empty limits))
  | _, .error e :: _ => .error e
  | acc?, .ok m :: answers =>
    let acc := how.step limits acc? m
    if how.isSettled acc then .ok (.empty limits) else how.gather limits (some acc) answers

variable {limits : BitmapLimits} {m : TidBitmap} {ms : List TidBitmap}

/-- As long as there are candidates, an intersection goes on to the last input. -/
theorem gather_and_of_not_dies (h : ¬ m.Dies ms) :
    Combination.and.gather limits none ((m :: ms).map .ok) = .ok (ms.foldl TidBitmap.inter m) := by
  induction ms generalizing m with
  | nil =>
    rw [TidBitmap.dies_nil_iff, Bool.not_eq_false] at h
    simp [gather, step, isSettled, h]
  | cons n ns ih =>
    rw [TidBitmap.dies_cons_iff, not_or, Bool.not_eq_false] at h
    rw [List.foldl_cons, ← ih h.2]
    simp [gather, step, isSettled, h.1]

/-- An intersection that loses its last candidate stops with the empty bitmap. -/
theorem gather_and_of_dies (h : m.Dies ms) :
    Combination.and.gather limits none ((m :: ms).map .ok) = .ok (.empty limits) := by
  induction ms generalizing m with
  | nil =>
    rw [TidBitmap.dies_nil_iff] at h
    simp [gather, step, isSettled, h]
  | cons n ns ih =>
    cases hm : m.hasCandidates with
    | false => simp [gather, step, isSettled, hm]
    | true =>
      rw [TidBitmap.dies_cons_iff, hm] at h
      rw [← ih (h.resolve_left Bool.noConfusion)]
      simp [gather, step, isSettled, hm]

/-- An intersection that stops early says the same of a tuple as that of all bitmaps, unless the
tuple's block comes back after the last candidate was lost. What it does not rule out, the other
does not rule out either. -/
theorem lookup_gather_and (limits : BitmapLimits) (ms : List TidBitmap) (t : Tid) :
    ∃ m, Combination.and.gather limits none (ms.map .ok) = .ok m ∧
      ((m.lookup t = .absent ↔ (TidBitmap.interAll limits ms).lookup t = .absent) ↔
        ¬ TidBitmap.Revives ms t.block) ∧
      (m.lookup t ≠ .absent → m.lookup t = (TidBitmap.interAll limits ms).lookup t) := by
  rcases ms with _ | ⟨m, ms⟩
  · refine ⟨.empty limits, rfl, ?_, fun _ => rfl⟩
    have hnot : ¬ TidBitmap.Revives [] t.block := nofun
    exact iff_of_true Iff.rfl hnot
  · by_cases hdies : m.Dies ms
    · refine ⟨.empty limits, gather_and_of_dies hdies, ?_, fun hsome => absurd rfl hsome⟩
      rw [← TidBitmap.lookup_interAll_ne_absent_iff limits hdies, ne_eq, not_not]
      exact ⟨fun h => h.mp rfl, fun h => iff_of_true rfl h⟩
    · refine ⟨_, gather_and_of_not_dies hdies, ?_, fun _ => rfl⟩
      have hnot : ¬ TidBitmap.Revives (m :: ms) t.block := fun h => hdies h.dies
      exact iff_of_true Iff.rfl hnot

end Combination

namespace BitmapNode

variable {ctx : Context} {t : Tid}

/-- What an input answers when it is asked for its bitmap. -/
def answer (ctx : Context) (op : BitmapOp) (s : BitmapNode op) : Except Error TidBitmap :=
  match s.cell.base.state.ensureRunning op.kind "build a bitmap from" with
  | .error e => .error e
  | .ok () => (build ctx op s).1

/-- What inputs answer when they are asked for their bitmaps. -/
def inputAnswers (ctx : Context) :
    (ops : List BitmapOp) → Each BitmapNode ops → List (Except Error TidBitmap)
  | [], .nil => []
  | op :: ops, .cons s ss => answer ctx op s :: inputAnswers ctx ops ss

/-- What is made of inputs depends on their answers alone. -/
theorem fst_buildAll (ctx : Context) (how : Combination) : (ops : List BitmapOp) →
    (ss : Each BitmapNode ops) → (acc? : Option TidBitmap) →
      (buildAll ctx how acc? ops ss).1 =
        how.gather ctx.config.bitmapLimits acc? (inputAnswers ctx ops ss)
  | [], .nil, _ => rfl
  | op :: ops, .cons s ss, acc? => by
    rw [buildAll, inputAnswers, answer]
    rcases s.cell.base.state.ensureRunning op.kind "build a bitmap from" with e | _
    · rfl
    · dsimp only
      rcases build ctx op s with ⟨e | m, s'⟩
      · rfl
      · rw [Combination.gather]
        dsimp only
        split
        · rfl
        · exact fst_buildAll ctx how ops ss _

/-! ## Asking again -/

/-- Making a bitmap leaves the root in its state. -/
theorem state_build (ctx : Context) {op : BitmapOp} (s : BitmapNode op) :
    (build ctx op s).2.cell.base.state = s.cell.base.state := by
  cases s with
  | @indexScan scan c =>
    show (scan.build ctx c).2.base.state = c.base.state
    unfold IndexScan.build
    split
    · rfl
    · split
      · rfl
      · split <;> rfl
  | combine c states =>
    rw [build]
    split
    · rfl
    · split <;> rfl

theorem answer_build_of {op : BitmapOp} {s : BitmapNode op}
    (h : (build ctx op (build ctx op s).2).1 = (build ctx op s).1) :
    answer ctx op (build ctx op s).2 = answer ctx op s := by
  rw [answer, answer, state_build, h]

mutual

/-- A tree that is asked again answers as before. -/
theorem build_build (ctx : Context) : {op : BitmapOp} → (s : BitmapNode op) →
    (build ctx op (build ctx op s).2).1 = (build ctx op s).1
  | .indexScan scan, .indexScan c => indexScan_build_build ctx scan c
  | .combine how inputs, .combine c states => by
    have hanswers := inputAnswers_buildAll ctx how none states
    have hagain := fst_buildAll ctx how inputs (buildAll ctx how none inputs states).2 none
    rw [hanswers, ← fst_buildAll] at hagain
    rcases hc : c.bitmap? with _ | m
    -- No bitmap is kept: it is made, and kept for the next time, or the inputs fail.
    · rw [build, hc]
      rcases hbuild : buildAll ctx how none inputs states with ⟨e | m, states'⟩
      · -- The inputs, asked again, fail as before.
        rw [hbuild] at hagain
        dsimp only at hagain ⊢
        rw [build, hc]
        dsimp only
        rcases hbuild' : buildAll ctx how none inputs states' with ⟨e' | m', states''⟩
        all_goals
          rw [hbuild'] at hagain
          exact hagain
      · rfl
    · simp only [build, hc]

theorem inputAnswers_buildAll (ctx : Context) (how : Combination) : (acc? : Option TidBitmap) →
    {ops : List BitmapOp} → (ss : Each BitmapNode ops) →
      inputAnswers ctx ops (buildAll ctx how acc? ops ss).2 = inputAnswers ctx ops ss
  | _, [], .nil => rfl
  | acc?, op :: ops, .cons s ss => by
    have hfirst := answer_build_of (build_build ctx s)
    rw [buildAll]
    split
    · rfl
    · split
      · next hbuild =>
        rw [hbuild] at hfirst
        rw [inputAnswers, inputAnswers, hfirst]
      · next hbuild =>
        rw [hbuild] at hfirst
        dsimp only
        split
        · rw [inputAnswers, inputAnswers, hfirst]
        · rw [inputAnswers, inputAnswers, hfirst, inputAnswers_buildAll ctx how _ ss]

end

/-! ## Kept bitmaps -/

variable {how : Combination} {inputs : List BitmapOp}

/-- Whether a bitmap that the root keeps is what its inputs make. A root that is not started keeps
none. -/
def Faithful (ctx : Context) : BitmapNode (.combine how inputs) → Prop
  | .combine c states =>
    (c.base.state = .unstarted → c.bitmap? = none) ∧
      ∀ m, c.bitmap? = some m →
        how.gather ctx.config.bitmapLimits none (inputAnswers ctx inputs states) = .ok m

theorem faithful_of_none {c : BitmapCell} {states : Each BitmapNode inputs}
    (h : c.bitmap? = none) :
    Faithful ctx (combine c states : BitmapNode (.combine how inputs)) := by
  refine ⟨fun _ => h, ?_⟩
  intro m hm
  rw [h] at hm
  contradiction

namespace Faithful

variable {s : BitmapNode (.combine how inputs)}

/-- The answer of a root is what its inputs make, whether it keeps it or not. -/
theorem fst_build {c : BitmapCell} {states : Each BitmapNode inputs}
    (h : Faithful ctx (combine c states : BitmapNode (.combine how inputs))) :
    (BitmapNode.build ctx (.combine how inputs) (.combine c states)).1 =
      how.gather ctx.config.bitmapLimits none (inputAnswers ctx inputs states) := by
  rw [BitmapNode.build]
  rcases hc : c.bitmap? with _ | m
  · rw [← fst_buildAll]
    rcases buildAll ctx how none inputs states with ⟨e | m, states'⟩ <;> rfl
  · exact (h.2 m hc).symm

theorem build (h : Faithful ctx s) (hrun : s.cell.base.state.isRunning = true) :
    Faithful ctx (BitmapNode.build ctx (.combine how inputs) s).2 := by
  cases s with
  | combine c states =>
    have hmade := fst_buildAll ctx how inputs states none
    have hanswers := inputAnswers_buildAll ctx how none states
    rw [BitmapNode.build]
    rcases hc : c.bitmap? with _ | m
    · rcases hbuild : buildAll ctx how none inputs states with ⟨e | m, states'⟩
      · exact faithful_of_none hc
      · rw [hbuild] at hmade hanswers
        refine ⟨?_, ?_⟩
        · intro hstate
          change c.base.state = .unstarted at hstate
          change c.base.state.isRunning = true at hrun
          rw [hstate] at hrun
          contradiction
        · -- What is recorded was made of inputs that answer as before.
          rintro _ ⟨⟩
          rw [hanswers, ← hmade]
    · exact h

theorem exhausted (h : Faithful ctx s) : Faithful ctx s.exhausted := by
  cases s with
  | combine c states =>
    refine ⟨?_, h.2⟩
    intro hstate
    exact h.1 (NodeState.exhaust_eq_unstarted_iff.mp hstate)

theorem init {flags : Flags} (h : Faithful ctx s) :
    Faithful ctx (BitmapNode.init ctx flags (.combine how inputs) s).2 := by
  cases s with
  | combine c states =>
    rw [BitmapNode.init_combine]
    split
    · exact h
    · next hstate =>
      have hnone : c.bitmap? = none := h.1 (NodeState.ensureUnstarted_eq_ok_iff.mp hstate)
      split
      · exact h
      · split <;> exact faithful_of_none hnone

theorem finish (h : Faithful ctx s) :
    Faithful ctx (BitmapNode.finish (.combine how inputs) s) := by
  cases s with
  | combine c states =>
    rw [BitmapNode.finish_combine]
    split
    · exact h
    · exact faithful_of_none rfl

theorem rescan {params? : Option (List Value)} (h : Faithful ctx s) :
    Faithful ctx (BitmapNode.rescan params? (.combine how inputs) s).2 := by
  cases s with
  | combine c states =>
    rw [BitmapNode.rescan_combine]
    split
    · exact h
    · dsimp only
      split <;> exact faithful_of_none rfl

/-- No request makes a root keep a bitmap that its inputs would not make. -/
theorem serve {n : Node (.bitmap (.combine how inputs))} (h : Faithful ctx (ofNode n))
    (r : NodeRequest) (w : Session) :
    Faithful ctx (ofNode (r.serve ctx (.bitmap (.combine how inputs)) n w).2.1) := by
  have hserved : Served ctx (.combine how inputs) (ofNode n)
      (ofNode (r.serve ctx (.bitmap (.combine how inputs)) n w).2.1) := served_serve n r w
  generalize ofNode (r.serve ctx (.bitmap (.combine how inputs)) n w).2.1 = s' at hserved ⊢
  cases hserved with
  | same => exact h
  | init flags => exact h.init
  | finish => exact h.finish
  | rescan params? => exact h.rescan
  | build hrun => exact h.build hrun
  | drain hrun => exact (h.build hrun).exhausted

end Faithful

theorem buildBitmap_of_isRunning {op : BitmapOp} (s : BitmapNode op)
    (h : s.cell.base.state.isRunning = true) :
    Node.buildBitmap ctx (.bitmap op) (.bitmap s) =
      ((build ctx op s).1, .bitmap (build ctx op s).2) := by
  have hrun : (Node.bitmap s).base.state.isRunning = true := h
  rw [Node.buildBitmap, NodeState.ensureRunning_eq_ok_iff.mpr hrun]

/-- However a tree that intersects its inputs was used: if its root runs and all inputs have
bitmaps, it makes a bitmap. A tuple is ruled out by this one and by the intersection of all of them
alike, unless its block comes back after the last candidate was lost. What the tree does not rule
out, it says as the intersection does. -/
theorem absent_alike_iff_not_revives {inputs : List BitmapOp} (ctx : Context)
    (rs : List NodeRequest) (w : Session) {c : BitmapCell} {states : Each BitmapNode inputs}
    (hrun : (Node.run ctx (.bitmap (.combine .and inputs)) rs
      (Node.fresh (.bitmap (.combine .and inputs))) w).1 = .bitmap (.combine c states))
    (hrunning : c.base.state.isRunning = true) {ms : List TidBitmap}
    (hinputs : inputAnswers ctx inputs states = ms.map .ok) (t : Tid) :
    ∃ m n', Node.buildBitmap ctx (.bitmap (.combine .and inputs)) (.bitmap (.combine c states)) =
        (.ok m, n') ∧
      ((m.lookup t = .absent ↔
          (TidBitmap.interAll ctx.config.bitmapLimits ms).lookup t = .absent) ↔
        ¬ TidBitmap.Revives ms t.block) ∧
      (m.lookup t ≠ .absent →
        m.lookup t = (TidBitmap.interAll ctx.config.bitmapLimits ms).lookup t) := by
  have hfaithful : Faithful ctx (ofNode (Node.run ctx (.bitmap (.combine .and inputs)) rs
      (Node.fresh (.bitmap (.combine .and inputs))) w).1) :=
    Node.run_induction (motive := fun n _ => Faithful ctx (ofNode n))
      (fun r _ n w h => h.serve r w) (faithful_of_none rfl)
  rw [hrun] at hfaithful
  obtain ⟨m, hgather, hlookup⟩ := Combination.lookup_gather_and ctx.config.bitmapLimits ms t
  have hanswer : (build ctx (.combine .and inputs) (.combine c states)).1 = .ok m := by
    rw [hfaithful.fst_build, hinputs, hgather]
  refine ⟨m, .bitmap (build ctx (.combine .and inputs) (.combine c states)).2, ?_, hlookup⟩
  have hroot : (combine c states : BitmapNode (.combine .and inputs)).cell.base.state.isRunning =
      true := hrunning
  rw [buildBitmap_of_isRunning _ hroot, hanswer]

/-- An index on a column that has one number in all rows. It answers with whole blocks. -/
def blockIndex : OrderedIndex :=
  OrderedIndex.insert
    { name := "p_idx", column := 1, granularity := .page }
    (.int32 1) ⟨0, 1⟩

/-- Two numbers that no row has together, and a number that some row on their block has. -/
def revivingInputs : List BitmapOp :=
  [.indexScan ⟨numberIndex.toBitmapIndex, .comparison 0 .eq (.literal (.int32 5))⟩,
    .indexScan ⟨numberIndex.toBitmapIndex, .comparison 0 .eq (.literal (.int32 6))⟩,
    .indexScan ⟨blockIndex.toBitmapIndex, .comparison 1 .eq (.literal (.int32 1))⟩]

/-- All three have a page for their block, the last one a lossy page. -/
theorem revives_revivingInputs : ∃ c states ms,
    (Node.run {} (.bitmap (.combine .and revivingInputs)) [.init {}]
      (Node.fresh (.bitmap (.combine .and revivingInputs))) {}).1 = .bitmap (.combine c states) ∧
    c.base.state.isRunning = true ∧ inputAnswers {} revivingInputs states = ms.map .ok ∧
    TidBitmap.Revives ms 0 := by
  refine ⟨_, _, [_, _, _], rfl, rfl, rfl, ?_⟩
  obtain ⟨m, n', hbuild, hagree, -⟩ :=
    @absent_alike_iff_not_revives revivingInputs {} [.init {}] {} _ _ rfl rfl [_, _, _] rfl ⟨0, 2⟩
  by_contra hnot
  obtain rfl : TidBitmap.empty {} = m := Except.ok.inj (congrArg Prod.fst hbuild)
  have habsent := (hagree.mpr hnot).mp rfl
  exact absurd habsent (by decide)

/-- The node rules a tuple out that the intersection of all its inputs has as a candidate. -/
theorem not_absent_alike_revivingInputs : ∃ c states m n' ms,
    (Node.run {} (.bitmap (.combine .and revivingInputs)) [.init {}]
      (Node.fresh (.bitmap (.combine .and revivingInputs))) {}).1 = .bitmap (.combine c states) ∧
    c.base.state.isRunning = true ∧ inputAnswers {} revivingInputs states = ms.map .ok ∧
    Node.buildBitmap {} (.bitmap (.combine .and revivingInputs)) (.bitmap (.combine c states)) =
      (.ok m, n') ∧
    m.lookup ⟨0, 2⟩ = .absent ∧
    (TidBitmap.interAll ({} : Context).config.bitmapLimits ms).lookup ⟨0, 2⟩ = .recheck :=
  ⟨_, _, _, _, [_, _, _], rfl, rfl, rfl, rfl, rfl, rfl⟩

end BitmapNode

end PullQuery
