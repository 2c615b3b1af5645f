import Mathlib.Data.List.Perm.Basic
import PullQuery.Proofs.Node.Steps
import PullQuery.Proofs.Heap.Position

/-!
# Pulling rows from a tree of scans

A chain of subquery scans over a sequential scan makes of each row version nothing, a row, or an
error of evaluation. Such a tree stands before the versions that are still ahead of its scan.
Asked for a row, it passes over versions that give nothing and takes the next one that gives
something; if the storage fails, it takes none.

## Main definitions

* `Operator.outcome`: what a tree makes of a version
* `Pull`: what asking for a row does to the versions ahead
* `Node.Ready`: the tree is running and stands before some versions

## Main results

* `Node.Ready.next`: asking for a row is a pull
* `Node.ready_init`, `Node.Ready.rescan`
-/

namespace PullQuery

/-! ## Outcomes -/

/-- What a sequential scan makes of a version. -/
def SeqScan.outcome (n : SeqScan) (ctx : Context) (params : List Value) (t : HeapTuple) :
    Option (Except EvalError Slot) :=
  if ctx.oracle.sees ctx.snapshot t then
    match n.accepts params t.row with
    | .error e => some (.error e)
    | .ok true => some (.ok (.borrowed t.tid t.row))
    | .ok false => none
  else none

/-- The row that takes the place of a row of the input. -/
def SubqueryScan.pass (n : SubqueryScan) (params : List Value) (input : Slot) :
    Except EvalError Slot :=
  match n.projection? with
  | none => .ok input
  | some es =>
    (Expr.evalAll (input.row?.getD .empty) params es).map fun vs => .owned input.tid? ⟨vs⟩

namespace Operator

/-- What a tree of scans makes of a version: nothing, a row, or an error. -/
def outcome (ctx : Context) (params : List Value) :
    Operator → HeapTuple → Option (Except EvalError Slot)
  | seqScan scan, t => scan.outcome ctx params t
  | subquery scan op, t => (outcome ctx params op t).map (·.bind (scan.pass params))
  | bitmap _, _ => none
  | hash .., _ => none

/-- The versions that a tree of scans reads, in order. -/
def versions : Operator → List HeapTuple
  | seqScan scan => scan.relation.heap.inOrder scan.direction
  | subquery _ op => versions op
  | bitmap _ => []
  | hash .. => []

/-- Whether the operators are subquery scans over a sequential scan. -/
def IsScan : Operator → Prop
  | seqScan _ => True
  | subquery _ op => IsScan op
  | bitmap _ => False
  | hash .. => False

/-- Whether the storage never fails a request. -/
def Reliable : Operator → Prop
  | seqScan scan => scan.relation.Reliable
  | subquery _ op => Reliable op
  | bitmap _ => True
  | hash _ op => Reliable op

theorem exists_row_of_outcome {ctx : Context} {params : List Value} {op : Operator}
    {t : HeapTuple} {slot : Slot} (h : op.outcome ctx params t = some (.ok slot)) :
    ∃ row, slot.row? = some row := by
  induction op generalizing slot with
  | seqScan scan =>
    rw [outcome, SeqScan.outcome] at h
    split at h
    · split at h
      · simp at h
      · obtain rfl := Except.ok.inj (Option.some.inj h)
        exact ⟨t.row, rfl⟩
      · contradiction
    · contradiction
  | subquery scan op ih =>
    obtain ⟨input, hinput, hpass⟩ := Option.map_eq_some_iff.mp h
    rcases input with e | input
    · contradiction
    · change scan.pass params input = .ok slot at hpass
      unfold SubqueryScan.pass at hpass
      split at hpass
      · obtain rfl := Except.ok.inj hpass
        exact ih hinput
      · obtain ⟨vs, -, rfl⟩ := exceptMap_eq_ok_iff.mp hpass
        exact ⟨_, rfl⟩
  | bitmap op => contradiction
  | hash build op => contradiction

end Operator

/-! ## Pulls -/

/-- What asking for a row does: the answer, and the versions ahead before and after. -/
inductive Pull (outcome : HeapTuple → Option (Except EvalError Slot)) (faulty : Prop) :
    List HeapTuple → Except Error (Option Slot) → List HeapTuple → Prop where
  /-- Nothing is ahead. -/
  | done : Pull outcome faulty [] (.ok none) []
  | skip {t : HeapTuple} {ts ts' : List HeapTuple} {r : Except Error (Option Slot)}
    (h : outcome t = none) (hrest : Pull outcome faulty ts r ts') :
    Pull outcome faulty (t :: ts) r ts'
  | row {t : HeapTuple} {ts : List HeapTuple} {slot : Slot} (h : outcome t = some (.ok slot)) :
    Pull outcome faulty (t :: ts) (.ok (some slot)) ts
  | fail {t : HeapTuple} {ts : List HeapTuple} {e : EvalError}
    (h : outcome t = some (.error e)) : Pull outcome faulty (t :: ts) (.error e.toError) ts
  /-- The storage fails, and no version is taken. -/
  | fault {ts : List HeapTuple} (h : faulty) (e : StorageFault) :
    Pull outcome faulty ts (.error e.toError) ts

namespace Pull

variable {outcome : HeapTuple → Option (Except EvalError Slot)} {faulty : Prop}
  {ts ts' : List HeapTuple} {r : Except Error (Option Slot)} {slot : Slot}

theorem exists_outcome (h : Pull outcome faulty ts r ts') (hr : r = .ok (some slot)) :
    ∃ t ∈ ts, outcome t = some (.ok slot) := by
  induction h with
  | done => simp at hr
  | skip _ _ ih =>
    obtain ⟨t, ht, hslot⟩ := ih hr
    exact ⟨t, List.mem_cons_of_mem _ ht, hslot⟩
  | row h =>
    obtain rfl := Option.some.inj (Except.ok.inj hr)
    exact ⟨_, List.mem_cons_self .., h⟩
  | fail => contradiction
  | fault => contradiction

/-- Where the storage does not fail, only one thing can happen. -/
theorem unique {r' : Except Error (Option Slot)} {us : List HeapTuple}
    (h : Pull outcome faulty ts r ts') (h' : Pull outcome faulty ts r' us) (hfaulty : ¬ faulty) :
    r = r' ∧ ts' = us := by
  induction h with
  | done =>
    cases h' with
    | done => exact ⟨rfl, rfl⟩
    | fault hf => exact absurd hf hfaulty
  | skip hnone _ ih =>
    cases h' with
    | skip _ hrest => exact ih hrest
    | row hrow => simp [hnone] at hrow
    | fail hfail => simp [hnone] at hfail
    | fault hf => exact absurd hf hfaulty
  | row hrow =>
    cases h' with
    | skip hnone _ => simp [hnone] at hrow
    | row hrow' =>
      obtain rfl := Except.ok.inj (Option.some.inj (hrow.symm.trans hrow'))
      exact ⟨rfl, rfl⟩
    | fail hfail => simp [hrow] at hfail
    | fault hf => exact absurd hf hfaulty
  | fail hfail =>
    cases h' with
    | skip hnone _ => simp [hnone] at hfail
    | row hrow => simp [hfail] at hrow
    | fail hfail' =>
      obtain rfl := Except.error.inj (Option.some.inj (hfail.symm.trans hfail'))
      exact ⟨rfl, rfl⟩
    | fault hf => exact absurd hf hfaulty
  | fault hf => exact absurd hf hfaulty

theorem nil_of_none (h : Pull outcome faulty ts r ts') (hr : r = .ok none) : ts' = [] := by
  induction h with
  | done => rfl
  | skip _ _ ih => exact ih hr
  | row => simp at hr
  | fail => contradiction
  | fault => contradiction

theorem length_lt (h : Pull outcome faulty ts r ts') (hr : r = .ok (some slot)) :
    ts'.length < ts.length := by
  induction h with
  | done => simp at hr
  | skip _ _ ih => exact Nat.lt_succ_of_lt (ih hr)
  | row => exact Nat.lt_succ_self _
  | fail => contradiction
  | fault => contradiction

/-- The answer once a row is replaced by what is made of it. -/
def passOn (f : Slot → Except EvalError Slot) :
    Except Error (Option Slot) → Except Error (Option Slot)
  | .ok (some slot) =>
    match f slot with
    | .error e => .error e.toError
    | .ok slot => .ok (some slot)
  | r => r

/-- A pull from what is made of the outcomes. -/
theorem passOn_outcome (f : Slot → Except EvalError Slot) (h : Pull outcome faulty ts r ts') :
    Pull (fun t => (outcome t).map (·.bind f)) faulty ts (passOn f r) ts' := by
  induction h with
  | done => exact .done
  | skip h _ ih => exact .skip (by simp [h]) ih
  | @row t ts slot h =>
    rcases hf : f slot with e | slot'
    · have hfail : (outcome t).map (·.bind f) = some (.error e) := by simp [h, Except.bind, hf]
      simpa [passOn, hf] using (Pull.fail hfail : Pull _ faulty (t :: ts) _ ts)
    · have hrow : (outcome t).map (·.bind f) = some (.ok slot') := by simp [h, Except.bind, hf]
      simpa [passOn, hf] using (Pull.row hrow : Pull _ faulty (t :: ts) _ ts)
  | fail h => exact .fail (by simp [h, Except.bind])
  | fault h e => exact .fault h e

end Pull

/-! ## Sessions -/

namespace Session

/-- Whether the statement is not interrupted and its oracle will not interrupt it. -/
structure Calm (ctx : Context) (w : Session) : Prop where
  interrupted : w.interrupted = false
  interrupts : ∀ k, ctx.oracle.interrupts k = false

/-- The session once the oracle has been asked about versions. -/
def afterAsking (ctx : Context) (w : Session) (ts : List HeapTuple) : Session :=
  ts.foldl (fun w t => (w.sees ctx t).2) w

variable {ctx : Context} {w : Session}

theorem Calm.sees (h : w.Calm ctx) (t : HeapTuple) : (w.sees ctx t).2.Calm ctx :=
  ⟨by simp [Session.sees, h.interrupted, h.interrupts], h.interrupts⟩

theorem Calm.afterAsking (h : w.Calm ctx) (ts : List HeapTuple) :
    (w.afterAsking ctx ts).Calm ctx := by
  induction ts generalizing w with
  | nil => exact h
  | cons t ts ih => exact ih (h.sees t)

theorem checkInterrupt_eq_ok_iff : w.checkInterrupt = .ok () ↔ w.interrupted = false := by
  simp [checkInterrupt]

theorem Calm.checkInterrupt (h : w.Calm ctx) : w.checkInterrupt = .ok () :=
  checkInterrupt_eq_ok_iff.mpr h.interrupted

end Session

/-! ## Standing before versions -/

/-- Whether a node is running with parameter values, and exhausted only at the end. -/
structure NodeBase.IsReady (b : NodeBase) (params : List Value) (rest : List HeapTuple) :
    Prop where
  params_eq : b.params = params
  running : b.state.isRunning = true
  rest_eq : b.state.isExhausted = true → rest = []

/-- Whether a tree of scans is running with parameter values and stands before versions. -/
def Node.Ready (params : List Value) : (op : Operator) → Node op → List HeapTuple → Prop
  | .seqScan scan, .seqScan s, rest =>
    s.base.IsReady params rest ∧
      ∃ rs, s.scan? = some rs ∧ rs.At scan.relation scan.direction rest
  | .subquery _ op, .subquery s input, rest =>
    s.base.IsReady params rest ∧ Ready params op input rest
  | .bitmap _, _, _ => False
  | .hash .., _, _ => False

variable {ctx : Context} {params : List Value}

namespace NodeBase.IsReady

variable {b : NodeBase} {rest rest' : List HeapTuple}

theorem admitFetch (h : b.IsReady params rest) (op : Operator) :
    Node.admitFetch op b = .ok (!b.state.isExhausted) := by
  rw [Node.admitFetch, NodeState.ensureRunning_eq_ok_iff.mpr h.running]
  rfl

/-- A node that is not exhausted stays so while versions are taken. -/
theorem of_active (h : b.IsReady params rest) (hactive : b.state.isExhausted = false)
    {b' : NodeBase} (hparams : b'.params = b.params) (hstate : b'.state = b.state) :
    b'.IsReady params rest' where
  params_eq := hparams.trans h.params_eq
  running := hstate ▸ h.running
  rest_eq hexhausted := by
    rw [hstate, hactive] at hexhausted
    contradiction

theorem exhausted (h : b.IsReady params rest) : b.exhausted.IsReady params [] where
  params_eq := h.params_eq
  running := NodeState.isRunning_exhaust h.running
  rest_eq _ := rfl

theorem restarted (h : b.IsReady params rest) (params? : Option (List Value)) :
    (b.restarted params?).IsReady (params?.getD params) rest' where
  params_eq := by rw [NodeBase.restarted, h.params_eq]
  running := rfl
  rest_eq := nofun

theorem countLoop (h : b.IsReady params rest) : b.countLoop.IsReady params rest :=
  ⟨h.params_eq, h.running, h.rest_eq⟩

end NodeBase.IsReady

/-! ## Rows -/

/-- Fetching from a scan is a pull, which asks the oracle about every version that it takes. -/
theorem SeqScan.pull_fetchUpTo (n : SeqScan) {limit : Nat} {rs : RelationScan} {s : State}
    {w : Session} {rest : List HeapTuple} (hat : rs.At n.relation n.direction rest)
    (hlimit : rest.length < limit) {r : Except Error Bool} {s' : State} {w' : Session}
    (h : n.fetchUpTo ctx limit rs s w = (r, s', w')) :
    ∃ rest' rs', Pull (n.outcome ctx s.base.params) (¬ n.relation.Reliable) rest
        (r.map fun found => if found then some s'.slot else none) rest' ∧
      s'.scan? = some rs' ∧ rs'.At n.relation n.direction rest' ∧
      s'.base.params = s.base.params ∧ s'.base.state = s.base.state ∧
      ∃ asked, rest = asked ++ rest' ∧ w' = w.afterAsking ctx asked := by
  induction limit generalizing rs s w rest with
  | zero => omega
  | succ limit ih =>
    rw [fetchUpTo] at h
    obtain ⟨e, rs', hfaulty, hfetch, hat'⟩ | ⟨rs', hfetch, hat'⟩ := hat.fetch
    · rw [hfetch] at h
      obtain ⟨rfl, rfl, rfl⟩ := by simpa using h
      exact ⟨rest, rs', .fault hfaulty e, rfl, hat', rfl, rfl, [], rfl, rfl⟩
    · rw [hfetch] at h
      cases rest with
      | nil =>
        obtain ⟨rfl, rfl, rfl⟩ := by simpa using h
        exact ⟨[], rs', .done, rfl, hat', rfl, rfl, [], rfl, rfl⟩
      | cons t rest =>
        have hlimit' : rest.length < limit := Nat.lt_of_succ_lt_succ hlimit
        simp only [List.head?_cons, List.tail_cons] at h hat'
        rcases hsees : w.sees ctx t with ⟨visible, w₁⟩
        have hvisible : ctx.oracle.sees ctx.snapshot t = visible := congrArg Prod.fst hsees
        have hasked : w₁ = w.afterAsking ctx [t] := (congrArg Prod.snd hsees).symm
        rw [hsees] at h
        cases visible with
        | false =>
          -- The version is passed over, and the search goes on behind it.
          obtain ⟨rest', rs₂, hpull, hscan, hat₂, hparams, hstate, asked, rfl, rfl⟩ :=
            ih hat' hlimit' h
          refine ⟨rest', rs₂, .skip ?_ hpull, hscan, hat₂, hparams, hstate, t :: asked, rfl, ?_⟩
          · simp [outcome, hvisible]
          · rw [hasked]
            rfl
        | true =>
          have hparams : ((s.moved rs').countFetched).base.params = s.base.params := rfl
          simp only [hparams] at h
          rcases haccepts : n.accepts s.base.params t.row with e | _ | _
          · rw [haccepts] at h
            obtain ⟨rfl, rfl, rfl⟩ := by simpa using h
            refine ⟨rest, rs', .fail ?_, rfl, hat', rfl, rfl, [t], rfl, hasked⟩
            simp [outcome, hvisible, haccepts]
          · rw [haccepts] at h
            obtain ⟨rest', rs₂, hpull, hscan, hat₂, hparams, hstate, asked, rfl, rfl⟩ :=
              ih hat' hlimit' h
            refine ⟨rest', rs₂, .skip ?_ hpull, hscan, hat₂, hparams, hstate, t :: asked, rfl, ?_⟩
            · simp [outcome, hvisible, haccepts]
            · rw [hasked]
              rfl
          · rw [haccepts] at h
            obtain ⟨rfl, rfl, rfl⟩ := by simpa using h
            refine ⟨rest, rs', .row ?_, rfl, hat', rfl, rfl, [t], rfl, hasked⟩
            simp [outcome, hvisible, haccepts]

namespace SubqueryScan

variable {scan : SubqueryScan} {s : State} {input : Slot}

theorem project_of_pass_error (hrow : ∃ row, input.row? = some row) {e : EvalError}
    (h : scan.pass s.base.params input = .error e) :
    scan.project s input = (.error e.toError, s) := by
  obtain ⟨row, hrow⟩ := hrow
  unfold pass at h
  unfold project
  rcases hprojection : scan.projection? with _ | es
  · rw [hprojection] at h
    contradiction
  · rw [hprojection, hrow, Option.getD_some] at h
    have hvalues := exceptMap_eq_error_iff.mp h
    simp only [hrow, hvalues]

theorem project_of_pass (hrow : ∃ row, input.row? = some row) {slot : Slot}
    (h : scan.pass s.base.params input = .ok slot) :
    ∃ s', scan.project s input = (.ok (), s') ∧ scan.shownSlot s' input = slot ∧
      s'.base = s.base := by
  obtain ⟨row, hrow⟩ := hrow
  unfold pass at h
  unfold project shownSlot
  rcases hprojection : scan.projection? with _ | es
  · rw [hprojection] at h
    obtain rfl := Except.ok.inj h
    exact ⟨s, rfl, rfl, rfl⟩
  · rw [hprojection, hrow, Option.getD_some] at h
    obtain ⟨vs, hvalues, rfl⟩ := exceptMap_eq_ok_iff.mp h
    refine ⟨{ s with slot := .owned input.tid? ⟨vs⟩ }, ?_, rfl, rfl⟩
    simp only [hrow, hvalues]

end SubqueryScan

namespace Node

/-- Asking for a row is a pull. -/
theorem Ready.next {op : Operator} {n : Node op} {rest : List HeapTuple}
    (h : Ready params op n rest) (ctx : Context) (w : Session) :
    ∃ rest', Pull (op.outcome ctx params) (¬ op.Reliable) rest (n.next ctx op w).1 rest' ∧
      Ready params op (n.next ctx op w).2.1 rest' ∧
      (w.Calm ctx → (n.next ctx op w).2.2.Calm ctx) := by
  induction op generalizing rest w with
  | seqScan scan =>
    cases n with | seqScan s
    obtain ⟨hbase, rs, hscan, hat⟩ := h
    rw [Node.next, hbase.admitFetch]
    rcases hactive : s.base.state.isExhausted with _ | _
    -- As many fetches are allowed as versions lie ahead, and one more to see the end.
    · have hlimit : rest.length < scan.rowsAhead s + 1 := by
        rw [SeqScan.rowsAhead, hscan]
        exact Nat.lt_succ_of_le (Nat.le_of_eq (HeapScan.At.ahead_eq hat).symm)
      simp only [Bool.not_false, SeqScan.fetch, hscan]
      rcases hfetch : scan.fetchUpTo ctx (scan.rowsAhead s + 1) rs s w with ⟨r, s', w'⟩
      obtain ⟨rest', rs', hpull, hscan', hat', hparams, hstate, asked, -, rfl⟩ :=
        scan.pull_fetchUpTo hat hlimit hfetch
      have hcalm : w.Calm ctx → (w.afterAsking ctx asked).Calm ctx := (·.afterAsking asked)
      rw [hbase.params_eq] at hpull
      rcases r with e | _ | _
      · exact ⟨rest', hpull, ⟨hbase.of_active hactive hparams hstate, rs', hscan', hat'⟩, hcalm⟩
      · obtain rfl := hpull.nil_of_none rfl
        have hbase' : s'.base.IsReady params [] := hbase.of_active hactive hparams hstate
        exact ⟨[], hpull, ⟨hbase'.exhausted, rs', hscan', hat'⟩, hcalm⟩
      · exact ⟨rest', hpull, ⟨hbase.of_active hactive hparams hstate, rs', hscan', hat'⟩, hcalm⟩
    -- An exhausted scan has no versions ahead and returns nothing without looking.
    · obtain rfl := hbase.rest_eq hactive
      exact ⟨[], .done, ⟨hbase, rs, hscan, hat⟩, id⟩
  | subquery scan op ih =>
    cases n with | subquery s input
    obtain ⟨hbase, hinput⟩ := h
    rw [Node.next, hbase.admitFetch]
    rcases hactive : s.base.state.isExhausted with _ | _
    · obtain ⟨rest', hpull, hready, hcalm⟩ := ih hinput w
      -- What the input pulls is passed on through the projection.
      have hpull' := hpull.passOn_outcome (scan.pass params)
      rcases hnext : input.next ctx op w with ⟨r, input', w'⟩
      rw [hnext] at hpull hpull' hready hcalm
      rcases r with e | _ | row
      · simp only [Bool.not_false]
        exact ⟨rest', hpull', ⟨hbase.of_active hactive rfl rfl, hready⟩, hcalm⟩
      · obtain rfl := hpull.nil_of_none rfl
        simp only [Bool.not_false]
        exact ⟨[], hpull', ⟨hbase.exhausted, hready⟩, hcalm⟩
      · obtain ⟨t, -, ht⟩ := hpull.exists_outcome rfl
        have hrow := Operator.exists_row_of_outcome ht
        simp only [Bool.not_false]
        rcases hpass : scan.pass params row with e | slot
        · rw [← hbase.params_eq] at hpass
          rw [SubqueryScan.project_of_pass_error hrow hpass]
          rw [hbase.params_eq] at hpass
          rw [Pull.passOn, hpass] at hpull'
          exact ⟨rest', hpull', ⟨hbase.of_active hactive rfl rfl, hready⟩, hcalm⟩
        · rw [← hbase.params_eq] at hpass
          obtain ⟨s', hproject, hshown, hbase'⟩ := SubqueryScan.project_of_pass hrow hpass
          rw [hproject]
          rw [hbase.params_eq] at hpass
          rw [Pull.passOn, hpass, ← hshown] at hpull'
          have hparams : s'.base.params = s.base.params := congrArg NodeBase.params hbase'
          have hstate : s'.base.state = s.base.state := congrArg NodeBase.state hbase'
          exact ⟨rest', hpull', ⟨hbase.of_active hactive hparams hstate, hready⟩, hcalm⟩
    · obtain rfl := hbase.rest_eq hactive
      exact ⟨[], .done, ⟨hbase, hinput⟩, id⟩
  | bitmap op => cases n with | bitmap s => contradiction
  | hash build op => cases n with | hash s input => contradiction

theorem Ready.rowsAhead_eq {op : Operator} {n : Node op} {rest : List HeapTuple}
    (h : Ready params op n rest) : n.rowsAhead op = rest.length := by
  induction op with
  | seqScan scan =>
    cases n with | seqScan s
    obtain ⟨-, rs, hscan, hat⟩ := h
    rw [Node.rowsAhead, SeqScan.rowsAhead, hscan]
    exact HeapScan.At.ahead_eq hat
  | subquery scan op ih => cases n with | subquery s input => exact ih h.2
  | bitmap op => cases n with | bitmap s => contradiction
  | hash build op => cases n with | hash s input => contradiction

/-! ## Starting -/

/-- A tree that has been initialized stands before all versions. -/
theorem ready_init {op : Operator} (hop : op.IsScan) {n n' : Node op} {flags : Flags}
    (h : n.init ctx op flags = (.ok (), n')) : Ready ctx.params op n' op.versions := by
  induction op with
  | seqScan scan =>
    cases n with | seqScan s
    rw [init_seqScan] at h
    split at h
    · simp at h
    · rw [SeqScan.openScan] at h
      rcases hstart : RelationScan.start scan.relation scan.direction with e | rs
      · simp [hstart] at h
      · simp only [hstart, Prod.mk.injEq, true_and] at h
        subst h
        exact ⟨⟨rfl, rfl, nofun⟩, rs, rfl, RelationScan.at_start hstart⟩
  | subquery scan op ih =>
    cases n with | subquery s input
    rw [init_subquery] at h
    split at h
    · simp at h
    · rcases hinit : input.init ctx op flags with ⟨_ | _, input'⟩
      · simp [hinit] at h
      · simp only [hinit, Prod.mk.injEq, true_and] at h
        subst h
        exact ⟨⟨rfl, rfl, nofun⟩, ih hop hinit⟩
  | bitmap op => contradiction
  | hash build op => contradiction

/-- Nothing keeps a tree over reliable storage from being initialized, if nothing special is
asked of it. -/
theorem exists_init (ctx : Context) {op : Operator} (hop : op.IsScan) (hreliable : op.Reliable) :
    ∃ n, (fresh op).init ctx op {} = (.ok (), n) := by
  induction op with
  | seqScan scan =>
    obtain ⟨rs, hstart⟩ := RelationScan.exists_start (d := scan.direction) hreliable
    rw [fresh, init_seqScan, show admitInit (.seqScan scan) {} {} = .ok () from rfl]
    simp only [SeqScan.openScan, hstart]
    exact ⟨_, rfl⟩
  | subquery scan op ih =>
    obtain ⟨input, hinput⟩ := ih hop hreliable
    rw [fresh, init_subquery, show admitInit (.subquery scan op) {} {} = .ok () from rfl]
    simp only [hinput]
    exact ⟨_, rfl⟩
  | bitmap op => contradiction
  | hash build op => contradiction

/-- A tree that starts again stands before all versions, unless the storage fails: then it
stands where it stood. The parameter values are the new ones in either case. -/
theorem Ready.rescan {op : Operator} {n n' : Node op} {rest : List HeapTuple}
    {params? : Option (List Value)} (h : Ready params op n rest) {r : Except Error Unit}
    (hrescan : n.rescan params? op = (r, n')) :
    r = .ok () ∧ Ready (params?.getD params) op n' op.versions ∨
      r ≠ .ok () ∧ ¬ op.Reliable ∧ Ready (params?.getD params) op n' rest := by
  induction op generalizing r with
  | seqScan scan =>
    cases n with | seqScan s
    obtain ⟨hbase, rs, hscan, hat⟩ := h
    rw [Node.rescan_seqScan, NodeState.ensureRunning_eq_ok_iff.mpr hbase.running] at hrescan
    simp only [SeqScan.rescan, hscan] at hrescan
    obtain ⟨e, rs', hfaulty, hfail, hat'⟩ | ⟨rs', hok, hat'⟩ := hat.rescan
    · rw [hfail] at hrescan
      obtain ⟨rfl, rfl⟩ := Prod.mk.inj hrescan
      exact .inr ⟨nofun, hfaulty, hbase.restarted params?, rs', rfl, hat'⟩
    · rw [hok] at hrescan
      obtain ⟨rfl, rfl⟩ := Prod.mk.inj hrescan
      exact .inl ⟨rfl, (hbase.restarted params?).countLoop, rs', rfl, hat'⟩
  | subquery scan op ih =>
    cases n with | subquery s input
    obtain ⟨hbase, hinput⟩ := h
    rw [Node.rescan_subquery, NodeState.ensureRunning_eq_ok_iff.mpr hbase.running] at hrescan
    rcases hinner : input.rescan params? op with ⟨_ | _, input'⟩
    · simp only [hinner] at hrescan
      obtain ⟨rfl, rfl⟩ := Prod.mk.inj hrescan
      obtain ⟨hok, -⟩ | ⟨-, hfaulty, hready⟩ := ih hinput hinner
      · contradiction
      · exact .inr ⟨nofun, hfaulty, hbase.restarted params?, hready⟩
    · simp only [hinner] at hrescan
      obtain ⟨rfl, rfl⟩ := Prod.mk.inj hrescan
      obtain ⟨-, hready⟩ | ⟨hfail, -⟩ := ih hinput hinner
      · exact .inl ⟨rfl, (hbase.restarted params?).countLoop, hready⟩
      · contradiction
  | bitmap op => cases n with | bitmap s => contradiction
  | hash build op => cases n with | hash s input => contradiction

end Node

end PullQuery
