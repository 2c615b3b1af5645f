import Mathlib.Data.List.Perm.Basic
import PullQuery.Proofs.Bitmap.Exactness
import PullQuery.Proofs.Node.Requests

/-!
# What the bitmap of a tree says of a tuple

A tree of bitmap nodes is a formula over its index scans. Its bitmap has every tuple for which
the formula is true when each scan stands for "its bitmap does not rule the tuple out"; and a
tuple is an exact candidate only if the formula is true when each scan stands for "its bitmap
has the tuple as an exact candidate". This survives the loss of exactness at any node, the
inputs that an intersection without candidates leaves out, and bitmaps that are kept.

## Main definitions

* `BitmapNode.Formula`: the formula of a tree over the bitmaps of its scans
* `BitmapNode.Represents`: a bitmap says neither too little nor too much for the formula
* `BitmapNode.Consistent`: the bitmaps that a tree keeps are such bitmaps

## Main results

* `BitmapNode.built_build`: what a tree makes represents its formula
* `BitmapNode.represents_of_buildBitmap`: after any requests to the root
-/

namespace PullQuery

/-! ## Connectives -/

namespace Combination

variable {how : Combination} {p p' q q' r : Prop} {m : TidBitmap} {t : Tid}

/-- The connective of a combination. -/
def join (how : Combination) (p q : Prop) : Prop :=
  match how with
  | and => p ∧ q
  | or => p ∨ q

/-- The formula of no inputs. -/
def unit (how : Combination) : Prop :=
  match how with
  | and => True
  | or => False

theorem join_unit_left : how.join how.unit p ↔ p := by
  cases how <;> simp [join, unit]

theorem join_unit_right : how.join p how.unit ↔ p := by
  cases how <;> simp [join, unit]

theorem join_assoc : how.join (how.join p q) r ↔ how.join p (how.join q r) := by
  cases how
  · exact and_assoc
  · exact or_assoc

theorem join_mono (hp : p → p') (hq : q → q') : how.join p q → how.join p' q' := by
  cases how
  · exact And.imp hp hq
  · exact Or.imp hp hq

theorem join_congr (hp : p ↔ p') (hq : q ↔ q') : how.join p q ↔ how.join p' q' :=
  ⟨join_mono hp.mp hq.mp, join_mono hp.mpr hq.mpr⟩

/-- What is true of the bitmap of the inputs so far; of none, the formula of no inputs. -/
def ofAcc (how : Combination) (acc? : Option TidBitmap) (holds : TidBitmap → Prop) : Prop :=
  match acc? with
  | none => how.unit
  | some acc => holds acc

theorem hasCandidate_step {limits : BitmapLimits} {acc? : Option TidBitmap}
    (h : how.join (how.ofAcc acc? (·.HasCandidate t)) (m.HasCandidate t)) :
    (how.step limits acc? m).HasCandidate t := by
  cases how with
  | and =>
    rcases acc? with _ | acc
    · exact h.2
    · exact h.1.inter h.2
  | or =>
    rcases acc? with _ | acc
    · exact (join_unit_left.mp h).union_right _
    · rcases h with h | h
      · exact h.union_left m
      · exact h.union_right acc

theorem isExact_of_step {limits : BitmapLimits} {acc? : Option TidBitmap}
    (h : (how.step limits acc? m).IsExact t) :
    how.join (how.ofAcc acc? (·.IsExact t)) (m.IsExact t) := by
  cases how with
  | and =>
    rcases acc? with _ | acc
    · exact ⟨trivial, h⟩
    · exact h.of_inter
  | or =>
    rcases acc? with _ | acc
    · rcases TidBitmap.IsExact.of_union h with h | h
      · exact absurd h (TidBitmap.not_isExact_empty limits t)
      · exact .inr h
    · exact TidBitmap.IsExact.of_union h

/-- A result that no input can change has no candidate. -/
theorem not_hasCandidate_of_isSettled (h : how.isSettled m = true) : ¬ m.HasCandidate t := by
  intro hcandidate
  cases how with
  | and => simp [isSettled, hcandidate.hasCandidates] at h
  | or => contradiction

end Combination

/-! ## Trees with inputs -/

namespace BitmapOp

mutual

/-- Whether every combination in a tree has inputs. -/
def HasInputs : BitmapOp → Prop
  | indexScan _ => True
  | combine _ inputs => inputs ≠ [] ∧ AllHaveInputs inputs

def AllHaveInputs : List BitmapOp → Prop
  | [] => True
  | op :: ops => HasInputs op ∧ AllHaveInputs ops

end

mutual

theorem hasInputs_of_ofInput {parent : Combination} {op : BitmapOp} :
    {p : Plan} → ofInput parent p = .ok op → op.HasInputs
  | .bitmapIndexScan index qual, h => by
    rw [ofInput] at h
    obtain ⟨scan, -, rfl⟩ := exceptMap_eq_ok_iff.mp h
    exact trivial
  | .bitmapCombine how inputs, h => by
    rw [ofInput] at h
    split at h
    · contradiction
    · next hempty =>
      obtain ⟨ops, hops, rfl⟩ := exceptMap_eq_ok_iff.mp h
      exact allHaveInputs_of_ofInputs hempty hops
  | .seqScan .., h => nomatch h
  | .subqueryScan .., h => nomatch h
  | .hash .., h => nomatch h

theorem allHaveInputs_of_ofInputs {parent : Combination} {ops : List BitmapOp} :
    {ps : List Plan} → ¬ ps.isEmpty → ofInputs parent ps = .ok ops →
      ops ≠ [] ∧ AllHaveInputs ops
  | [], hempty, _ => absurd rfl hempty
  | p :: ps, _, h => by
    rw [ofInputs] at h
    split at h
    · contradiction
    · next op hop =>
      obtain ⟨ops, hops, rfl⟩ := exceptMap_eq_ok_iff.mp h
      refine ⟨List.cons_ne_nil _ _, hasInputs_of_ofInput hop, ?_⟩
      rcases ps with _ | ⟨p', ps⟩
      · obtain rfl := Except.ok.inj hops
        exact trivial
      · have hmore : ¬ (p' :: ps).isEmpty := Bool.false_ne_true
        exact (allHaveInputs_of_ofInputs hmore hops).2

end

/-- A plan that is accepted has inputs everywhere. -/
theorem hasInputs_of_ofPlan {p : Plan} {op : BitmapOp}
    (h : Operator.ofPlan p = .ok (.bitmap op)) : op.HasInputs := by
  cases p with
  | bitmapIndexScan index qual =>
    obtain ⟨scan, -, hscan⟩ := exceptMap_eq_ok_iff.mp h
    obtain rfl := Operator.bitmap.inj hscan
    exact trivial
  | bitmapCombine how inputs =>
    rw [Operator.ofPlan] at h
    split at h
    · contradiction
    · next hempty =>
      obtain ⟨ops, hops, hcombine⟩ := exceptMap_eq_ok_iff.mp h
      obtain rfl := Operator.bitmap.inj hcombine
      exact allHaveInputs_of_ofInputs hempty hops
  | seqScan relation direction qual? => simp [Operator.ofPlan] at h
  | subqueryScan input projection? shape =>
    rw [Operator.ofPlan] at h
    split at h
    · contradiction
    · dsimp only at h
      split at h <;> simp at h
  | hash input keys keepNulls estimatedRows =>
    rw [Operator.ofPlan] at h
    split at h
    · contradiction
    · obtain ⟨input, -, hhash⟩ := exceptMap_eq_ok_iff.mp h
      simp at hhash

end BitmapOp

namespace BitmapNode

variable {ctx : Context} {t : Tid}

/-! ## Formulas -/

mutual

/-- The formula of a tree, in which each scan stands for a statement about the bitmap that it
makes. -/
def Formula (ctx : Context) (atom : Except Error TidBitmap → Prop) :
    (op : BitmapOp) → BitmapNode op → Prop
  | .indexScan scan, indexScan c => atom (scan.build ctx c).1
  | .combine how inputs, combine _ states => FormulaOf ctx atom how inputs states

/-- The formulas of inputs, joined. -/
def FormulaOf (ctx : Context) (atom : Except Error TidBitmap → Prop) (how : Combination) :
    (ops : List BitmapOp) → Each BitmapNode ops → Prop
  | [], .nil => how.unit
  | op :: ops, .cons s ss => how.join (Formula ctx atom op s) (FormulaOf ctx atom how ops ss)

end

/-- A scan makes no bitmap that rules the tuple out. -/
def Possible (t : Tid) (answer : Except Error TidBitmap) : Prop :=
  ∀ m, answer = .ok m → m.HasCandidate t

/-- A scan makes a bitmap that has the tuple as an exact candidate. -/
def Certain (t : Tid) (answer : Except Error TidBitmap) : Prop :=
  ∃ m, answer = .ok m ∧ m.IsExact t

/-- Whether a bitmap has the candidates of a tree's formula, and exact ones only of it. -/
structure Represents (ctx : Context) (op : BitmapOp) (s : BitmapNode op) (m : TidBitmap) :
    Prop where
  hasCandidate : ∀ t, Formula ctx (Possible t) op s → m.HasCandidate t
  certain : ∀ t, m.IsExact t → Formula ctx (Certain t) op s

mutual

/-- Whether the bitmaps that a tree keeps represent the formulas of their nodes. -/
def Consistent (ctx : Context) : (op : BitmapOp) → BitmapNode op → Prop
  | .indexScan _, indexScan _ => True
  | .combine how inputs, combine c states =>
    (c.base.state = .unstarted → c.bitmap? = none) ∧
      (∀ m, c.bitmap? = some m → Represents ctx (.combine how inputs) (combine c states) m) ∧
      AllConsistent ctx inputs states

def AllConsistent (ctx : Context) : (ops : List BitmapOp) → Each BitmapNode ops → Prop
  | [], .nil => True
  | op :: ops, .cons s ss => Consistent ctx op s ∧ AllConsistent ctx ops ss

end

/-! ## Building -/

/-- A scan that is asked again answers as before. -/
theorem indexScan_build_build (ctx : Context) (scan : IndexScan) (c : BitmapCell) :
    (scan.build ctx (scan.build ctx c).2).1 = (scan.build ctx c).1 := by
  rcases hc : c.bitmap? with _ | m
  · rcases hkeys : scan.qual.keys c.base.params with e | keys
    · simp [IndexScan.build, hc, hkeys]
    · -- A failure is counted, and the next attempt meets it again.
      rcases hcollect : scan.collect keys (.empty ctx.config.bitmapLimits) 0 with ⟨e | m, calls⟩
      · simp [IndexScan.build, hc, hkeys, hcollect, BitmapCell.countCalls]
      · simp [IndexScan.build, hc, hkeys, hcollect, BitmapCell.record]
  · simp [IndexScan.build, hc]

/-- What building the bitmap of a tree does. -/
structure Built (ctx : Context) (op : BitmapOp) (s : BitmapNode op)
    (r : Except Error TidBitmap × BitmapNode op) : Prop where
  consistent : Consistent ctx op r.2
  formula : ∀ atom, Formula ctx atom op r.2 ↔ Formula ctx atom op s
  represents : ∀ m, r.1 = .ok m → Represents ctx op s m

/-- What combining the bitmaps of inputs with those of the inputs before them does. -/
structure BuiltAll (ctx : Context) (how : Combination) (acc? : Option TidBitmap)
    (ops : List BitmapOp) (ss : Each BitmapNode ops)
    (r : Except Error TidBitmap × Each BitmapNode ops) : Prop where
  consistent : AllConsistent ctx ops r.2
  formula : ∀ atom, FormulaOf ctx atom how ops r.2 ↔ FormulaOf ctx atom how ops ss
  hasCandidate : ∀ m, r.1 = .ok m → ∀ t,
    how.join (how.ofAcc acc? (·.HasCandidate t)) (FormulaOf ctx (Possible t) how ops ss) →
      m.HasCandidate t
  certain : ∀ m, r.1 = .ok m → ∀ t, m.IsExact t →
    how.join (how.ofAcc acc? (·.IsExact t)) (FormulaOf ctx (Certain t) how ops ss)

mutual

theorem built_build (ctx : Context) : (op : BitmapOp) → (s : BitmapNode op) → op.HasInputs →
    Consistent ctx op s → s.cell.base.state.isRunning = true → Built ctx op s (build ctx op s)
  | .indexScan scan, indexScan c, _, _, _ => by
    refine ⟨trivial, fun atom => ?_, fun m hm => ⟨fun t h => h m hm, fun t h => ⟨m, hm, h⟩⟩⟩
    show atom (scan.build ctx (scan.build ctx c).2).1 ↔ atom (scan.build ctx c).1
    rw [indexScan_build_build]
  | .combine how inputs, combine c states, hinputs, hs, hrun => by
    obtain ⟨hfresh, hkept, hstates⟩ := hs
    rw [build]
    split
    · next m hm =>
      refine ⟨⟨hfresh, hkept, hstates⟩, fun _ => .rfl, ?_⟩
      rintro _ ⟨⟩
      exact hkept m hm
    · next hnone =>
      have hall := builtAll_buildAll ctx how none inputs states hinputs.2
        (fun _ => hinputs.1) hstates
      split
      · next e states' hbuild =>
        rw [hbuild] at hall
        refine ⟨⟨fun _ => hnone, ?_, hall.consistent⟩, hall.formula, nofun⟩
        intro m hm
        rw [hnone] at hm
        contradiction
      · next m states' hbuild =>
        rw [hbuild] at hall
        have hrepresents : Represents ctx (.combine how inputs) (combine c states) m :=
          ⟨fun t h => hall.hasCandidate m rfl t (Combination.join_unit_left.mpr h),
            fun t h => Combination.join_unit_left.mp (hall.certain m rfl t h)⟩
        refine ⟨⟨?_, ?_, hall.consistent⟩, hall.formula, ?_⟩
        · intro hstate
          simp [BitmapCell.record, cell] at hstate hrun
          simp [hstate, NodeState.isRunning] at hrun
        · -- The bitmap is kept beside inputs whose formula is the same as before.
          rintro _ ⟨⟩
          exact ⟨fun t h => hrepresents.hasCandidate t ((hall.formula _).mp h),
            fun t h => (hall.formula _).mpr (hrepresents.certain t h)⟩
        · rintro _ ⟨⟩
          exact hrepresents

theorem builtAll_buildAll (ctx : Context) (how : Combination) (acc? : Option TidBitmap) :
    (ops : List BitmapOp) → (ss : Each BitmapNode ops) → BitmapOp.AllHaveInputs ops →
      (acc? = none → ops ≠ []) → AllConsistent ctx ops ss →
      BuiltAll ctx how acc? ops ss (buildAll ctx how acc? ops ss)
  | [], .nil, _, hacc, _ => by
    rcases acc? with _ | acc
    · exact absurd rfl (hacc rfl)
    · refine ⟨trivial, fun _ => .rfl, ?_, ?_⟩
      · rintro _ ⟨⟩ t h
        exact Combination.join_unit_right.mp h
      · rintro _ ⟨⟩ t h
        exact Combination.join_unit_right.mpr h
  | op :: ops, .cons s ss, hinputs, _, hstates => by
    rw [buildAll]
    split
    · exact ⟨hstates, fun _ => .rfl, nofun, nofun⟩
    · next hrun =>
      have hbuilt := built_build ctx op s hinputs.1 hstates.1
        (NodeState.ensureRunning_eq_ok_iff.mp hrun)
      split
      · next e s' hbuild =>
        rw [hbuild] at hbuilt
        refine ⟨⟨hbuilt.consistent, hstates.2⟩, fun atom => ?_, nofun, nofun⟩
        exact Combination.join_congr (hbuilt.formula atom) .rfl
      · next m s' hbuild =>
        rw [hbuild] at hbuilt
        have hm := hbuilt.represents m rfl
        -- The bitmap so far stands for the inputs before and the one that was just built.
        have hstep : ∀ t, how.join (how.ofAcc acc? (·.HasCandidate t))
            (Formula ctx (Possible t) op s) →
            (how.step ctx.config.bitmapLimits acc? m).HasCandidate t := fun t h =>
          Combination.hasCandidate_step (Combination.join_mono id (hm.hasCandidate t) h)
        dsimp only
        split
        · next hsettled =>
          refine ⟨⟨hbuilt.consistent, hstates.2⟩, fun atom => ?_, ?_, ?_⟩
          · exact Combination.join_congr (hbuilt.formula atom) .rfl
          · -- A candidate would have kept the intersection from being settled.
            rintro _ ⟨⟩ t h
            rcases how with _ | _
            · exact absurd (hstep t ⟨h.1, h.2.1⟩)
                (Combination.not_hasCandidate_of_isSettled hsettled)
            · contradiction
          · rintro _ ⟨⟩ t h
            exact absurd h (TidBitmap.not_isExact_empty _ t)
        · have hrest := builtAll_buildAll ctx how
            (some (how.step ctx.config.bitmapLimits acc? m)) ops ss hinputs.2 nofun hstates.2
          refine ⟨⟨hbuilt.consistent, hrest.consistent⟩, fun atom => ?_, ?_, ?_⟩
          · exact Combination.join_congr (hbuilt.formula atom) (hrest.formula atom)
          · intro m' hm' t h
            refine hrest.hasCandidate m' hm' t ?_
            exact Combination.join_mono (hstep t) id (Combination.join_assoc.mpr h)
          · intro m' hm' t h
            have hstep' := Combination.join_mono
              (fun h' => Combination.join_mono id (hm.certain t) (Combination.isExact_of_step h'))
              id (hrest.certain m' hm' t h)
            exact Combination.join_assoc.mp hstep'

end

/-! ## Setting up, starting again and releasing -/

mutual

theorem consistent_fresh (ctx : Context) : (op : BitmapOp) → Consistent ctx op (fresh op)
  | .indexScan _ => trivial
  | .combine _ inputs => ⟨fun _ => rfl, nofun, allConsistent_freshAll ctx inputs⟩

theorem allConsistent_freshAll (ctx : Context) :
    (ops : List BitmapOp) → AllConsistent ctx ops (freshAll ops)
  | [] => trivial
  | op :: ops => ⟨consistent_fresh ctx op, allConsistent_freshAll ctx ops⟩

end

/-- A combination that keeps no bitmap has nothing to represent. -/
theorem consistent_combine {how : Combination} {inputs : List BitmapOp} {c : BitmapCell}
    {states : Each BitmapNode inputs} (hc : c.bitmap? = none)
    (h : AllConsistent ctx inputs states) :
    Consistent ctx (.combine how inputs) (combine c states) := by
  refine ⟨fun _ => hc, ?_, h⟩
  intro m hm
  rw [hc] at hm
  contradiction

mutual

theorem Consistent.init {flags : Flags} : {op : BitmapOp} → {s : BitmapNode op} →
    Consistent ctx op s → Consistent ctx op (BitmapNode.init ctx flags op s).2
  | .indexScan _, indexScan _, _ => by
    rw [BitmapNode.init_indexScan]
    split
    · exact trivial
    · split <;> exact trivial
  | .combine _ inputs, combine c states, h => by
    rw [BitmapNode.init_combine]
    split
    · exact h
    · next hstate =>
      split
      · exact h
      · -- A node that is not started keeps no bitmap.
        have hunstarted := NodeState.ensureUnstarted_eq_ok_iff.mp hstate
        have hall :
            AllConsistent ctx inputs (BitmapNode.initAll ctx flags.ofInput inputs states).2 :=
          h.2.2.initAll
        split
        all_goals
          next hinit =>
          rw [hinit] at hall
          exact consistent_combine (h.1 hunstarted) hall

theorem AllConsistent.initAll {flags : Flags} : {ops : List BitmapOp} →
    {ss : Each BitmapNode ops} → AllConsistent ctx ops ss →
      AllConsistent ctx ops (BitmapNode.initAll ctx flags ops ss).2
  | [], .nil, _ => trivial
  | op :: _, .cons s _, h => by
    have hfirst : Consistent ctx op (BitmapNode.init ctx flags op s).2 := h.1.init
    rw [BitmapNode.initAll]
    split
    · next hinit =>
      rw [hinit] at hfirst
      exact ⟨hfirst, h.2⟩
    · next hinit =>
      rw [hinit] at hfirst
      exact ⟨hfirst, h.2.initAll⟩

end

mutual

theorem Consistent.finish : {op : BitmapOp} → {s : BitmapNode op} → Consistent ctx op s →
    Consistent ctx op (BitmapNode.finish op s)
  | .indexScan _, indexScan _, _ => by
    rw [BitmapNode.finish_indexScan]
    split <;> exact trivial
  | .combine _ _, combine _ _, h => by
    rw [BitmapNode.finish_combine]
    split
    · exact h
    · exact consistent_combine rfl h.2.2.finishAll

theorem AllConsistent.finishAll : {ops : List BitmapOp} → {ss : Each BitmapNode ops} →
    AllConsistent ctx ops ss → AllConsistent ctx ops (BitmapNode.finishAll ops ss)
  | [], .nil, _ => trivial
  | _ :: _, .cons _ _, h => ⟨h.1.finish, h.2.finishAll⟩

end

mutual

theorem Consistent.rescan {params? : Option (List Value)} : {op : BitmapOp} →
    {s : BitmapNode op} → Consistent ctx op s →
      Consistent ctx op (BitmapNode.rescan params? op s).2
  | .indexScan _, indexScan _, _ => by
    rw [BitmapNode.rescan_indexScan]
    split <;> exact trivial
  | .combine _ inputs, combine _ states, h => by
    rw [BitmapNode.rescan_combine]
    split
    · exact h
    · -- The bitmap is dropped before the inputs are started again.
      have hall : AllConsistent ctx inputs (BitmapNode.rescanAll params? inputs states).2 :=
        h.2.2.rescanAll
      dsimp only
      split
      all_goals
        next hrescan =>
        rw [hrescan] at hall
        exact consistent_combine rfl hall

theorem AllConsistent.rescanAll {params? : Option (List Value)} : {ops : List BitmapOp} →
    {ss : Each BitmapNode ops} → AllConsistent ctx ops ss →
      AllConsistent ctx ops (BitmapNode.rescanAll params? ops ss).2
  | [], .nil, _ => trivial
  | op :: _, .cons s _, h => by
    have hfirst : Consistent ctx op (BitmapNode.rescan params? op s).2 := h.1.rescan
    rw [BitmapNode.rescanAll]
    split
    · next hrescan =>
      rw [hrescan] at hfirst
      exact ⟨hfirst, h.2⟩
    · next hrescan =>
      rw [hrescan] at hfirst
      exact ⟨hfirst, h.2.rescanAll⟩

end

theorem Consistent.exhausted {op : BitmapOp} {s : BitmapNode op} (h : Consistent ctx op s) :
    Consistent ctx op s.exhausted := by
  cases s with
  | indexScan c => exact trivial
  | combine c states =>
    refine ⟨?_, fun m hm => ⟨(h.2.1 m hm).hasCandidate, (h.2.1 m hm).certain⟩, h.2.2⟩
    intro hstate
    exact h.1 (NodeState.exhaust_eq_unstarted_iff.mp hstate)

/-! ## Requests -/

/-- The state of a tree whose root is a bitmap node. -/
def ofNode {op : BitmapOp} : Node (.bitmap op) → BitmapNode op
  | .bitmap s => s

/-- What a request to the root can do to a tree. -/
inductive Served (ctx : Context) (op : BitmapOp) (s : BitmapNode op) : BitmapNode op → Prop where
  | same : Served ctx op s s
  | init (flags : Flags) : Served ctx op s (BitmapNode.init ctx flags op s).2
  | finish : Served ctx op s (BitmapNode.finish op s)
  | rescan (params? : Option (List Value)) : Served ctx op s (BitmapNode.rescan params? op s).2
  | build (hrun : s.cell.base.state.isRunning = true) :
    Served ctx op s (BitmapNode.build ctx op s).2
  /-- A running tree makes its bitmap and is exhausted. -/
  | drain (hrun : s.cell.base.state.isRunning = true) :
    Served ctx op s (BitmapNode.build ctx op s).2.exhausted

theorem served_serve {op : BitmapOp} (n : Node (.bitmap op)) (r : NodeRequest) (w : Session) :
    Served ctx op (ofNode n) (ofNode (r.serve ctx (.bitmap op) n w).2.1) := by
  cases n with
  | bitmap s =>
    cases r with
    | init flags => exact .init flags
    | next =>
      show Served ctx op s (ofNode (Node.next ctx (.bitmap op) (.bitmap s) w).2.1)
      rw [Node.next]
      split
      · exact .same
      · exact .same
      · next hadmits =>
        obtain ⟨_, hrun, -⟩ := exceptMap_eq_ok_iff.mp hadmits
        have hrun := NodeState.ensureRunning_eq_ok_iff.mp hrun
        have hbuild : Served ctx op s (BitmapNode.build ctx op s).2 := .build hrun
        have hdrain : Served ctx op s (BitmapNode.build ctx op s).2.exhausted := .drain hrun
        split
        · next hfailed =>
          rw [hfailed] at hbuild
          exact hbuild
        · next hmade =>
          rw [hmade] at hdrain
          exact hdrain
    | bitmap =>
      show Served ctx op s (ofNode (Node.buildBitmap ctx (.bitmap op) (.bitmap s)).2)
      rw [Node.buildBitmap]
      split
      · exact .same
      · next hrun => exact .build (NodeState.ensureRunning_eq_ok_iff.mp hrun)
    | rescan params? => exact .rescan params?
    | mark => exact .same
    | restore => exact .same
    | finish => exact .finish
    | hash request => exact .same
    | interrupt set => exact .same

/-- Every request leaves a tree whose bitmaps represent the formulas of their nodes. -/
theorem Consistent.serve {op : BitmapOp} (hinputs : op.HasInputs) {n : Node (.bitmap op)}
    (h : Consistent ctx op (ofNode n)) (r : NodeRequest) (w : Session) :
    Consistent ctx op (ofNode (r.serve ctx (.bitmap op) n w).2.1) := by
  have hserved : Served ctx op (ofNode n) (ofNode (r.serve ctx (.bitmap op) n w).2.1) :=
    served_serve n r w
  generalize ofNode (r.serve ctx (.bitmap op) n w).2.1 = s' at hserved ⊢
  cases hserved with
  | same => exact h
  | init flags => exact h.init
  | finish => exact h.finish
  | rescan params? => exact h.rescan
  | build hrun => exact (built_build ctx op _ hinputs h hrun).consistent
  | drain hrun => exact (built_build ctx op _ hinputs h hrun).consistent.exhausted

/-- Of any tree of bitmap nodes that a plan gives, and after any requests to its root: if the
root makes a bitmap, a tuple is not ruled out for which the formula is true of the scans whose
bitmaps do not rule it out, and for an exact candidate the formula is true of the scans whose
bitmaps have it as one. -/
theorem represents_of_buildBitmap {p : Plan} {op : BitmapOp}
    (hp : Operator.ofPlan p = .ok (.bitmap op)) (ctx : Context) (rs : List NodeRequest)
    (w : Session) {n n' : Node (.bitmap op)}
    (hrun : (Node.run ctx (.bitmap op) rs (Node.fresh (.bitmap op)) w).1 = n) {m : TidBitmap}
    (hbuild : Node.buildBitmap ctx (.bitmap op) n = (.ok m, n')) (t : Tid) :
    (Formula ctx (Possible t) op (ofNode n) → m.lookup t ≠ .absent) ∧
      (m.lookup t = .exact → Formula ctx (Certain t) op (ofNode n)) := by
  have hinputs := BitmapOp.hasInputs_of_ofPlan hp
  have hconsistent : Consistent ctx op (ofNode n) := by
    rw [← hrun]
    exact Node.run_induction (motive := fun n _ => Consistent ctx op (ofNode n))
      (fun r _ n w h => h.serve hinputs r w) (consistent_fresh ctx op)
  cases n with
  | bitmap s =>
    rw [Node.buildBitmap] at hbuild
    split at hbuild
    · simp at hbuild
    · next hrunning =>
      have hbuilt := built_build ctx op s hinputs hconsistent
        (NodeState.ensureRunning_eq_ok_iff.mp hrunning)
      have hm := hbuilt.represents m (Prod.mk.inj hbuild).1
      exact ⟨hm.hasCandidate t, hm.certain t⟩

/-- An index on a number in each of two rows. -/
def numberIndex : OrderedIndex :=
  OrderedIndex.insert (OrderedIndex.insert
    { name := "n_idx", column := 0 } (.int32 5) ⟨0, 1⟩)
    (.int32 6) ⟨0, 2⟩

/-- A scan of this index. -/
def numberScan (op : ScanOp) (n : Int32) : Plan :=
  .bitmapIndexScan numberIndex.toBitmapIndex (.comparison 0 op (.literal (.int32 n)))

/-- The numbers from 5 that are 5 or 7. -/
def nestedPlan : Plan :=
  .bitmapCombine .and [numberScan .ge 5, .bitmapCombine .or [numberScan .eq 7, numberScan .eq 5]]

theorem represents_of_buildBitmap_nested :
    ∃ op n m n', Operator.ofPlan nestedPlan = .ok (.bitmap op) ∧
      (Node.run {} (.bitmap op) [.init {}] (Node.fresh (.bitmap op)) {}).1 = n ∧
      Node.buildBitmap {} (.bitmap op) n = (.ok m, n') ∧ m.lookup ⟨0, 1⟩ = .exact ∧
      Formula {} (Certain ⟨0, 1⟩) op (ofNode n) :=
  ⟨_, _, _, _, rfl, rfl, rfl, rfl,
    (represents_of_buildBitmap (p := nestedPlan) rfl {} [.init {}] {} rfl rfl ⟨0, 1⟩).2 rfl⟩

end BitmapNode

end PullQuery
