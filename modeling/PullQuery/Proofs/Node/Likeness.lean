import PullQuery.Proofs.Hash.Building
import PullQuery.Proofs.Node.Contexts

/-!
# Nodes that cannot be told apart

Two trees of the same operators are alike if they differ in nothing that a consumer can see: in
counters, in how a scan came to where it stands, or in how the rows of a hash table came to
their batches. Alike trees answer alike and stay alike. A hash node that has kept its table is
also like one that would build such a table, as long as nothing can cancel the building.

## Main definitions

* `Company`: how two statements go on side by side
* `BitmapNode.Alike`, `HashBuild.Alike`, `Node.Alike`

## Main results

* `HashBuild.Alike.build`, `Node.Alike.next`, `Node.Alike.buildBitmap`
-/

namespace PullQuery

variable {ctx : Context}

/-! ## Side by side -/

/-- How two statements go on side by side: in step with each other, or both calmly. -/
inductive Company where
  | inStep
  | calm

/-- Whether two sessions go on side by side. -/
def Company.Keeps (ctx : Context) : Company → Session → Session → Prop
  | inStep, w, w' => w = w'
  | calm, w, w' => w.Calm ctx ∧ w'.Calm ctx

namespace Company.Keeps

variable {c : Company} {w w' : Session}

theorem afterAsking (h : c.Keeps ctx w w') (ts : List HeapTuple) :
    c.Keeps ctx (w.afterAsking ctx ts) (w'.afterAsking ctx ts) := by
  cases c with
  | inStep => exact congrArg (Session.afterAsking ctx · ts) h
  | calm => exact ⟨h.1.afterAsking ts, h.2.afterAsking ts⟩

theorem checkInterrupt_eq (h : c.Keeps ctx w w') : w.checkInterrupt = w'.checkInterrupt := by
  cases c with
  | inStep => exact congrArg Session.checkInterrupt h
  | calm => rw [h.1.checkInterrupt, h.2.checkInterrupt]

end Company.Keeps

/-- Whether two results agree: the answers are the same, what is left is related, and the
sessions go on side by side. -/
structure Agree {α σ : Type} (ctx : Context) (c : Company) (P : σ → σ → Prop)
    (x y : α × σ × Session) : Prop where
  answer : x.1 = y.1
  left : P x.2.1 y.2.1
  session : c.Keeps ctx x.2.2 y.2.2

/-- Whether two bases differ in no more than counters. -/
structure NodeBase.Alike (b b' : NodeBase) : Prop where
  state_eq : b.state = b'.state
  params_eq : b.params = b'.params

namespace NodeBase.Alike

variable {b b' b'' : NodeBase}

theorem refl (b : NodeBase) : b.Alike b := ⟨rfl, rfl⟩

theorem symm (h : b.Alike b') : b'.Alike b := ⟨h.state_eq.symm, h.params_eq.symm⟩

theorem trans (h : b.Alike b') (h' : b'.Alike b'') : b.Alike b'' :=
  ⟨h.state_eq.trans h'.state_eq, h.params_eq.trans h'.params_eq⟩

theorem exhausted (h : b.Alike b') : b.exhausted.Alike b'.exhausted :=
  ⟨congrArg NodeState.exhaust h.state_eq, h.params_eq⟩

theorem admitFetch_eq (h : b.Alike b') (op : Operator) :
    Node.admitFetch op b = Node.admitFetch op b' := by
  rw [Node.admitFetch, h.state_eq]
  rfl

end NodeBase.Alike

theorem HashBuild.SameLife.alike {s s' : HashBuild.State} (h : SameLife s s') :
    s.base.Alike s'.base := ⟨h.state.symm, h.params.symm⟩

theorem HashBuild.loadBatch_alike (s : HashBuild.State) (batch : Nat) :
    s.base.Alike (loadBatch s batch).2.base := by
  unfold loadBatch
  split
  · exact .refl _
  · split
    · exact .refl _
    · split
      · exact .refl _
      · exact ⟨rfl, rfl⟩

/-! ## Bitmap nodes -/

/-- Whether two cells differ in no more than counters. -/
structure BitmapCell.Alike (c c' : BitmapCell) : Prop where
  base : c.base.Alike c'.base
  bitmap_eq : c.bitmap? = c'.bitmap?

namespace BitmapNode

mutual

/-- Whether two trees differ in no more than counters. -/
def Alike : (op : BitmapOp) → BitmapNode op → BitmapNode op → Prop
  | .indexScan _, .indexScan c, .indexScan c' => c.Alike c'
  | .combine _ inputs, .combine c ss, .combine c' ss' => c.Alike c' ∧ AllAlike inputs ss ss'

def AllAlike : (ops : List BitmapOp) → Each BitmapNode ops → Each BitmapNode ops → Prop
  | [], .nil, .nil => True
  | op :: ops, .cons s ss, .cons s' ss' => Alike op s s' ∧ AllAlike ops ss ss'

end

theorem Alike.cell {op : BitmapOp} {s s' : BitmapNode op} (h : Alike op s s') :
    s.cell.Alike s'.cell := by
  cases s with
  | indexScan c => cases s' with | indexScan c' => exact h
  | combine c ss => cases s' with | combine c' ss' => exact h.1

theorem Alike.exhausted {op : BitmapOp} {s s' : BitmapNode op} (h : Alike op s s') :
    Alike op s.exhausted s'.exhausted := by
  cases s with
  | indexScan c => cases s' with | indexScan c' => exact ⟨h.base.exhausted, h.bitmap_eq⟩
  | combine c ss =>
    cases s' with | combine c' ss' => exact ⟨⟨h.1.base.exhausted, h.1.bitmap_eq⟩, h.2⟩

theorem indexScan_build_alike (scan : IndexScan) {c c' : BitmapCell} (h : c.Alike c') :
    (scan.build ctx c).1 = (scan.build ctx c').1 ∧
      (scan.build ctx c).2.Alike (scan.build ctx c').2 := by
  rw [IndexScan.build, IndexScan.build, ← h.bitmap_eq, ← h.base.params_eq]
  rcases hbitmap : c.bitmap? with _ | m
  · rcases scan.qual.keys c.base.params with e | keys
    · exact ⟨rfl, h⟩
    · dsimp only
      rcases scan.collect keys (.empty ctx.config.bitmapLimits) 0 with ⟨e | m, calls⟩
      · exact ⟨rfl, ⟨h.base.state_eq, h.base.params_eq⟩, h.bitmap_eq⟩
      · exact ⟨rfl, ⟨h.base.state_eq, h.base.params_eq⟩, rfl⟩
  · exact ⟨rfl, h⟩

mutual

/-- Alike trees make the same bitmap and stay alike. -/
theorem Alike.build (ctx : Context) : {op : BitmapOp} → {s s' : BitmapNode op} → Alike op s s' →
    (build ctx op s).1 = (build ctx op s').1 ∧ Alike op (build ctx op s).2 (build ctx op s').2
  | .indexScan scan, .indexScan c, .indexScan c', h => indexScan_build_alike scan h
  | .combine how inputs, .combine c ss, .combine c' ss', ⟨hcell, hstates⟩ => by
    rw [build, build, ← hcell.bitmap_eq]
    rcases hbitmap : c.bitmap? with _ | m
    · obtain ⟨hanswer, hleft⟩ := hstates.buildAll ctx how none
      generalize BitmapNode.buildAll ctx how none inputs ss = x at hanswer hleft ⊢
      generalize BitmapNode.buildAll ctx how none inputs ss' = y at hanswer hleft ⊢
      obtain ⟨r, ss₁⟩ := x
      obtain ⟨r', ss₁'⟩ := y
      obtain rfl : r = r' := hanswer
      rcases r with e | m
      · exact ⟨rfl, hcell, hleft⟩
      · exact ⟨rfl, ⟨⟨hcell.base.state_eq, hcell.base.params_eq⟩, rfl⟩, hleft⟩
    · exact ⟨rfl, hcell, hstates⟩

theorem AllAlike.buildAll (ctx : Context) (how : Combination) : (acc? : Option TidBitmap) →
    {ops : List BitmapOp} → {ss ss' : Each BitmapNode ops} → AllAlike ops ss ss' →
    (buildAll ctx how acc? ops ss).1 = (buildAll ctx how acc? ops ss').1 ∧
      AllAlike ops (buildAll ctx how acc? ops ss).2 (buildAll ctx how acc? ops ss').2
  | _, [], .nil, .nil, _ => ⟨rfl, trivial⟩
  | acc?, op :: ops, .cons s ss, .cons s' ss', ⟨hfirst, hothers⟩ => by
    rw [BitmapNode.buildAll, BitmapNode.buildAll, ← hfirst.cell.base.state_eq]
    rcases s.cell.base.state.ensureRunning op.kind "build a bitmap from" with e | _
    · exact ⟨rfl, hfirst, hothers⟩
    · obtain ⟨hanswer, hleft⟩ := hfirst.build ctx
      generalize BitmapNode.build ctx op s = x at hanswer hleft ⊢
      generalize BitmapNode.build ctx op s' = y at hanswer hleft ⊢
      obtain ⟨r, s₁⟩ := x
      obtain ⟨r', s₁'⟩ := y
      obtain rfl : r = r' := hanswer
      rcases r with e | m
      · exact ⟨rfl, hleft, hothers⟩
      · dsimp only
        split
        · exact ⟨rfl, hleft, hothers⟩
        · obtain ⟨hanswer, hrest⟩ := hothers.buildAll ctx how
            (some (how.step ctx.config.bitmapLimits acc? m))
          exact ⟨hanswer, hleft, hrest⟩

end

end BitmapNode

/-! ## Hash nodes -/

namespace HashBuild

variable {σ : Type} {next : σ → Session → Except Error (Option Slot) × σ × Session}
  {n : HashBuild} {s s' s'' : State} {t : HashTable} {c : Company} {P : σ → σ → Prop}

/-- Whether every call of the input by related states agrees. -/
def Bisimulates (ctx : Context) (c : Company) (P : σ → σ → Prop)
    (next : σ → Session → Except Error (Option Slot) × σ × Session) : Prop :=
  ∀ i i' w w', P i i' → c.Keeps ctx w w' → Agree ctx c P (next i w) (next i' w')

/-- Reading related inputs gives the same table. -/
theorem drain_agree (hnext : Bisimulates ctx c P next) (limit : Nat) {i i' : σ} {w w' : Session}
    (hi : P i i') (hw : c.Keeps ctx w w') (hs : s.base.params = s'.base.params) :
    (n.drain next limit t s i w).1 = (n.drain next limit t s' i' w').1 ∧
      P (n.drain next limit t s i w).2.2.1 (n.drain next limit t s' i' w').2.2.1 ∧
      c.Keeps ctx (n.drain next limit t s i w).2.2.2 (n.drain next limit t s' i' w').2.2.2 := by
  induction limit generalizing t s s' i i' w w' with
  | zero => exact ⟨rfl, hi, hw⟩
  | succ limit ih =>
    rw [drain, drain]
    obtain ⟨hanswer, hleft, hsession⟩ := hnext i i' w w' hi hw
    generalize next i w = x at hanswer hleft hsession ⊢
    generalize next i' w' = y at hanswer hleft hsession ⊢
    obtain ⟨r, i₁, w₁⟩ := x
    obtain ⟨r', i₁', w₁'⟩ := y
    -- The inputs answer the same, so both tables take the same row or both builds end here.
    obtain rfl : r = r' := hanswer
    rcases r with e | _ | slot
    · exact ⟨rfl, hleft, hsession⟩
    · exact ⟨rfl, hleft, hsession⟩
    · have hcheck : w₁.checkInterrupt = w₁'.checkInterrupt := hsession.checkInterrupt_eq
      dsimp only
      rw [← hcheck]
      rcases w₁.checkInterrupt with e | _
      · exact ⟨rfl, hleft, hsession⟩
      · rcases slot.row? with _ | row
        · exact ⟨rfl, hleft, hsession⟩
        · have hcounted : s.countFetched.base.params = s'.countFetched.base.params := hs
          have habsorb := absorb_eq n t hcounted row
          have hparams := (continues_absorb n t s.countFetched row).params
          have hparams' := (continues_absorb n t s'.countFetched row).params
          dsimp only
          generalize n.absorb t s.countFetched row = x at habsorb hparams ⊢
          generalize n.absorb t s'.countFetched row = y at habsorb hparams' ⊢
          obtain ⟨r, s₁⟩ := x
          obtain ⟨r', s₁'⟩ := y
          obtain rfl : r = r' := habsorb
          rcases r with e | t₁
          · exact ⟨rfl, hleft, hsession⟩
          · exact ih hleft hsession (hparams.trans (hcounted.trans hparams'.symm))

/-- Whether building from an input calmly gives a table like a given one. -/
def Rebuilds (n : HashBuild) (ctx : Context) (width : Nat)
    (next : σ → Session → Except Error (Option Slot) × σ × Session) (limit : Nat)
    (t : HashTable) (s : State) (i : σ) : Prop :=
  ∀ w : Session, w.Calm ctx → ∃ t' s₁ i₁ w₁,
    n.drain next limit (n.emptyTable ctx width) s i w = (.ok t', s₁, i₁, w₁) ∧ w₁.Calm ctx ∧
      t.Equivalent t'

/-- Whether two hash nodes are done with building, with the same outcome. -/
inductive Finished : State → State → Prop where
  /-- Both have failed. -/
  | aborted {s s' : State} (ht : s.table? = none) (ht' : s'.table? = none)
    (ha : s.aborted = true) (ha' : s'.aborted = true) : Finished s s'
  /-- Both have tables that answer alike. -/
  | built {s s' : State} {t t' : HashTable} (ht : s.table? = some t) (ht' : s'.table? = some t')
    (ha : s.aborted = false) (ha' : s'.aborted = false) (htables : t.Equivalent t') :
    Finished s s'

theorem Finished.exhausted (h : Finished s s') :
    Finished { s with base := s.base.exhausted } { s' with base := s'.base.exhausted } := by
  cases h with
  | aborted ht ht' ha ha' => exact .aborted ht ht' ha ha'
  | built ht ht' ha ha' htables => exact .built ht ht' ha ha' htables

theorem build_alike {width limit : Nat} {i : σ} {w : Session} :
    s.base.Alike (n.build ctx width next limit s i w).2.1.base := by
  rcases hbuild : n.build ctx width next limit s i w with ⟨r, s', i', w'⟩
  obtain ⟨-, rfl, -, -⟩ | ⟨-, -, -, ⟨e, s₁, hdrain, -, rfl⟩ | ⟨t, s₁, hdrain, -, rfl⟩⟩ :=
    build_cases hbuild
  · exact .refl _
  · exact (continues_of_drain hdrain).alike
  · have hcont := (continues_of_drain hdrain).alike
    exact ⟨hcont.state_eq, hcont.params_eq⟩

/-- Building again has the same outcome and changes nothing. -/
theorem Finished.exists_build (h : Finished s s') (hrun : s.base.state.isRunning = true)
    (hrun' : s'.base.state.isRunning = true) (n : HashBuild) (ctx : Context) (width : Nat)
    (next : σ → Session → Except Error (Option Slot) × σ × Session) :
    ∃ r, (∀ limit i w, n.build ctx width next limit s i w = (r, s, i, w)) ∧
      ∀ limit i w, n.build ctx width next limit s' i w = (r, s', i, w) := by
  cases h with
  | aborted ht ht' ha ha' =>
    exact ⟨_, fun limit i w => build_of_aborted hrun ha,
      fun limit i w => build_of_aborted hrun' ha'⟩
  | built ht ht' ha ha' htables =>
    exact ⟨_, fun limit i w => build_of_table hrun ha ht,
      fun limit i w => build_of_table hrun' ha' ht'⟩

/-- Whether two hash nodes cannot be told apart. -/
inductive Alike (n : HashBuild) (ctx : Context) (c : Company) (width : Nat)
    (next : σ → Session → Except Error (Option Slot) × σ × Session) (limit : σ → Nat)
    (P : σ → σ → Prop) : State → σ → State → σ → Prop where
  /-- Neither has a table; both would build it from related inputs. -/
  | unbuilt {s s' : State} {i i' : σ} (ht : s.table? = none) (ht' : s'.table? = none)
    (ha : s.aborted = false) (ha' : s'.aborted = false) (hi : P i i') :
    Alike n ctx c width next limit P s i s' i'
  | finished {s s' : State} {i i' : σ} (h : Finished s s') :
    Alike n ctx c width next limit P s i s' i'
  /-- The first has kept a table such as the second would build. -/
  | kept {s s' : State} {i i' : σ} {t : HashTable} (ht : s.table? = some t)
    (ht' : s'.table? = none) (ha : s.aborted = false) (ha' : s'.aborted = false)
    (hc : c = .calm) (hrebuilds : n.Rebuilds ctx width next (limit i') t s' i') :
    Alike n ctx c width next limit P s i s' i'

/-- Alike nodes build their tables alike. -/
theorem Alike.build {width : Nat} {limit : σ → Nat} (hnext : Bisimulates ctx c P next)
    (hlimit : ∀ i i', P i i' → limit i = limit i') {i i' : σ} {w w' : Session}
    (h : Alike n ctx c width next limit P s i s' i') (hs : s.base.Alike s'.base)
    (hrun : s.base.state.isRunning = true) (hw : c.Keeps ctx w w')
    {x y : Except Error Unit × State × σ × Session}
    (hx : n.build ctx width next (limit i) s i w = x)
    (hy : n.build ctx width next (limit i') s' i' w' = y) :
    x.1 = y.1 ∧ x.2.1.base.Alike y.2.1.base ∧ Finished x.2.1 y.2.1 ∧
      c.Keeps ctx x.2.2.2 y.2.2.2 := by
  have hrun' : s'.base.state.isRunning = true := hs.state_eq ▸ hrun
  cases h with
  | unbuilt ht ht' ha ha' hi =>
    rw [build_of_none hrun ha ht] at hx
    rw [build_of_none hrun' ha' ht', ← hlimit i i' hi] at hy
    obtain ⟨hanswer, hleft, hsession⟩ :=
      drain_agree (n := n) (t := n.emptyTable ctx width) hnext (limit i) hi hw hs.params_eq
    rcases hd : n.drain next (limit i) (n.emptyTable ctx width) s i w with ⟨r, s₁, i₁, w₁⟩
    rcases hd' : n.drain next (limit i) (n.emptyTable ctx width) s' i' w' with ⟨r', s₁', i₁', w₁'⟩
    have hcont := continues_of_drain hd
    have hcont' := continues_of_drain hd'
    rw [hd] at hx hanswer hleft hsession
    rw [hd'] at hy hanswer hleft hsession
    obtain rfl : r = r' := hanswer
    have hbase : s₁.base.Alike s₁'.base := hcont.alike.symm.trans (hs.trans hcont'.alike)
    rcases r with e | t
    · subst hx hy
      exact ⟨rfl, hbase, .aborted (hcont.table_eq.trans ht) (hcont'.table_eq.trans ht') rfl rfl,
        hsession⟩
    · subst hx hy
      exact ⟨rfl, ⟨hbase.state_eq, hbase.params_eq⟩,
        .built rfl rfl (hcont.aborted_eq.trans ha) (hcont'.aborted_eq.trans ha') (.inl rfl),
        hsession⟩
  | finished h =>
    obtain ⟨r, hbuild, hbuild'⟩ := h.exists_build hrun hrun' n ctx width next
    rw [hbuild] at hx
    rw [hbuild'] at hy
    subst hx hy
    exact ⟨rfl, hs, h, hw⟩
  | kept ht ht' ha ha' hc hrebuilds =>
    -- The first keeps its table while the second builds one. The inputs part here, but neither
    -- node reads its input again.
    subst hc
    obtain ⟨t', s₁, i₁, w₁, hdrain, hcalm, htables⟩ := hrebuilds w' hw.2
    have hcont := continues_of_drain hdrain
    rw [build_of_table hrun ha ht] at hx
    rw [build_of_none hrun' ha' ht', hdrain] at hy
    subst hx hy
    have hbase : s.base.Alike s₁.base := hs.trans hcont.alike
    exact ⟨rfl, ⟨hbase.state_eq, hbase.params_eq⟩,
      .built ht rfl ha (hcont.aborted_eq.trans ha') htables, hw.1, hcalm⟩

end HashBuild

/-! ## Trees -/

theorem SubqueryScan.base_project (scan : SubqueryScan) (s : State) (input : Slot) :
    (scan.project s input).2.base = s.base := by
  unfold project
  split
  · rfl
  · split
    · rfl
    · split
      · rfl
      · rfl

/-- Subquery scans with the same parameter values make the same of a row. -/
theorem SubqueryScan.project_alike (scan : SubqueryScan) {s s' : State}
    (h : s.base.params = s'.base.params) (input : Slot) :
    (scan.project s input).1 = (scan.project s' input).1 ∧
      ((scan.project s input).1 = .ok () → scan.shownSlot (scan.project s input).2 input =
        scan.shownSlot (scan.project s' input).2 input) := by
  unfold project shownSlot
  rw [← h]
  rcases scan.projection? with _ | es
  · exact ⟨rfl, fun _ => rfl⟩
  · rcases input.row? with _ | row
    · exact ⟨rfl, nofun⟩
    · dsimp only
      rcases Expr.evalAll row s.base.params es with e | vs
      · exact ⟨rfl, nofun⟩
      · exact ⟨rfl, fun _ => rfl⟩

namespace Node

/-- Whether two trees cannot be told apart. -/
def Alike (ctx : Context) (c : Company) : (op : Operator) → Node op → Node op → Prop
  | .seqScan scan, .seqScan s, .seqScan s' =>
    s.base.Alike s'.base ∧ ∃ rs rs' rest, s.scan? = some rs ∧ s'.scan? = some rs' ∧
      rs.At scan.relation scan.direction rest ∧ rs'.At scan.relation scan.direction rest
  | .bitmap op, .bitmap s, .bitmap s' => BitmapNode.Alike op s s'
  | .subquery _ op, .subquery s input, .subquery s' input' =>
    s.base.Alike s'.base ∧ Alike ctx c op input input'
  | .hash build op, .hash s input, .hash s' input' =>
    s.base.Alike s'.base ∧ build.Alike ctx c op.shape.width (next ctx op)
      (fun input => rowsAhead op input + 1) (Alike ctx c op) s input s' input'

variable {c : Company}

theorem Alike.base : {op : Operator} → {n n' : Node op} → Alike ctx c op n n' →
    n.base.Alike n'.base
  | .seqScan _, .seqScan _, .seqScan _, h => h.1
  | .bitmap _, .bitmap _, .bitmap _, h => BitmapNode.Alike.cell h |>.base
  | .subquery .., .subquery .., .subquery .., h => h.1
  | .hash .., .hash .., .hash .., h => h.1

theorem Alike.rowsAhead_eq : {op : Operator} → {n n' : Node op} → Alike ctx c op n n' →
    n.rowsAhead op = n'.rowsAhead op
  | .seqScan scan, .seqScan s, .seqScan s', ⟨_, rs, rs', rest, hscan, hscan', hat, hat'⟩ => by
    rw [rowsAhead, rowsAhead, SeqScan.rowsAhead, SeqScan.rowsAhead, hscan, hscan']
    exact (HeapScan.At.ahead_eq hat).trans (HeapScan.At.ahead_eq hat').symm
  | .bitmap _, .bitmap _, .bitmap _, _ => rfl
  | .subquery .., .subquery .., .subquery .., h => h.2.rowsAhead_eq
  | .hash .., .hash .., .hash .., _ => rfl

/-- Scans of a reliable relation that stand before the same versions return the same rows. -/
theorem Alike.next_seqScan {scan : SeqScan} (hreliable : scan.relation.Reliable) :
    HashBuild.Bisimulates ctx c (Alike ctx c (.seqScan scan)) (next ctx (.seqScan scan)) := by
  intro n n' w w' hn hw
  cases n with | seqScan s
  cases n' with | seqScan s'
  obtain ⟨hbase, rs, rs', rest, hscan, hscan', hat, hat'⟩ := hn
  rw [Node.next, Node.next, ← hbase.admitFetch_eq]
  rcases admitFetch (.seqScan scan) s.base with e | _ | _
  · exact ⟨rfl, ⟨hbase, rs, rs', rest, hscan, hscan', hat, hat'⟩, hw⟩
  · exact ⟨rfl, ⟨hbase, rs, rs', rest, hscan, hscan', hat, hat'⟩, hw⟩
  · have hahead := HeapScan.At.ahead_eq hat
    have hahead' := HeapScan.At.ahead_eq hat'
    simp only [SeqScan.fetch, SeqScan.rowsAhead, hscan, hscan', hahead, hahead']
    rcases hx : scan.fetchUpTo ctx (rest.length + 1) rs s w with ⟨r, s₁, w₁⟩
    rcases hy : scan.fetchUpTo ctx (rest.length + 1) rs' s' w' with ⟨r', s₁', w₁'⟩
    obtain ⟨rest₁, rs₁, hpull, hscan₁, hat₁, hparams, hstate, asked, hasked, rfl⟩ :=
      scan.pull_fetchUpTo hat (Nat.lt_succ_self _) hx
    obtain ⟨rest₁', rs₁', hpull', hscan₁', hat₁', hparams', hstate', asked', hasked', rfl⟩ :=
      scan.pull_fetchUpTo hat' (Nat.lt_succ_self _) hy
    rw [← hbase.params_eq] at hpull' hparams'
    rw [← hbase.state_eq] at hstate'
    obtain ⟨hanswer, rfl⟩ := hpull.unique hpull' (not_not_intro hreliable)
    obtain rfl : asked = asked' := List.append_cancel_right (hasked.symm.trans hasked')
    have hbase₁ : s₁.base.Alike s₁'.base :=
      ⟨hstate.trans hstate'.symm, hparams.trans hparams'.symm⟩
    have hscans : ∃ rs rs' rest, s₁.scan? = some rs ∧ s₁'.scan? = some rs' ∧
        rs.At scan.relation scan.direction rest ∧ rs'.At scan.relation scan.direction rest :=
      ⟨rs₁, rs₁', rest₁, hscan₁, hscan₁', hat₁, hat₁'⟩
    rcases r with e | _ | _
    · rcases r' with e' | _ | _
      · obtain rfl : e = e' := Except.error.inj hanswer
        exact ⟨rfl, ⟨hbase₁, hscans⟩, hw.afterAsking asked⟩
      · contradiction
      · contradiction
    · rcases r' with e' | _ | _
      · contradiction
      · exact ⟨rfl, ⟨hbase₁.exhausted, hscans⟩, hw.afterAsking asked⟩
      · simp [Except.map] at hanswer
    · rcases r' with e' | _ | _
      · contradiction
      · simp [Except.map] at hanswer
      · exact ⟨hanswer, ⟨⟨hbase₁.state_eq, hbase₁.params_eq⟩, hscans⟩, hw.afterAsking asked⟩

/-- Alike trees return the same rows and stay alike. -/
theorem Alike.next {op : Operator} (hop : op.Reliable) :
    HashBuild.Bisimulates ctx c (Alike ctx c op) (next ctx op) := by
  induction op with
  | seqScan scan => exact Alike.next_seqScan hop
  | bitmap op =>
    intro n n' w w' hn hw
    cases n with | bitmap s
    cases n' with | bitmap s'
    rw [Node.next, Node.next, ← hn.cell.base.admitFetch_eq]
    rcases admitFetch (.bitmap op) s.cell.base with e | _ | _
    · exact ⟨rfl, hn, hw⟩
    · exact ⟨rfl, hn, hw⟩
    · obtain ⟨hanswer, hleft⟩ := BitmapNode.Alike.build ctx hn
      dsimp only
      generalize BitmapNode.build ctx op s = x at hanswer hleft ⊢
      generalize BitmapNode.build ctx op s' = y at hanswer hleft ⊢
      obtain ⟨r, s₁⟩ := x
      obtain ⟨r', s₁'⟩ := y
      obtain rfl : r = r' := hanswer
      rcases r with e | m
      · exact ⟨rfl, hleft, hw⟩
      · exact ⟨rfl, BitmapNode.Alike.exhausted hleft, hw⟩
  | subquery scan op ih =>
    intro n n' w w' hn hw
    cases n with | subquery s input
    cases n' with | subquery s' input'
    obtain ⟨hbase, hinput⟩ := hn
    rw [Node.next, Node.next, ← hbase.admitFetch_eq]
    rcases admitFetch (.subquery scan op) s.base with e | _ | _
    · exact ⟨rfl, ⟨hbase, hinput⟩, hw⟩
    · exact ⟨rfl, ⟨hbase, hinput⟩, hw⟩
    -- Both inputs answer the same, so that both scans project the same row or none.
    · obtain ⟨hanswer, hleft, hsession⟩ := ih hop input input' w w' hinput hw
      dsimp only
      generalize Node.next ctx op input w = x at hanswer hleft hsession ⊢
      generalize Node.next ctx op input' w' = y at hanswer hleft hsession ⊢
      obtain ⟨r, input₁, w₁⟩ := x
      obtain ⟨r', input₁', w₁'⟩ := y
      obtain rfl : r = r' := hanswer
      rcases r with e | _ | row
      · exact ⟨rfl, ⟨hbase, hleft⟩, hsession⟩
      · exact ⟨rfl, ⟨hbase.exhausted, hleft⟩, hsession⟩
      · obtain ⟨hprojected, hshown⟩ := SubqueryScan.project_alike scan hbase.params_eq row
        have hsame := scan.base_project s row
        have hsame' := scan.base_project s' row
        dsimp only
        generalize scan.project s row = x at hprojected hshown hsame ⊢
        generalize scan.project s' row = y at hprojected hshown hsame' ⊢
        obtain ⟨r, s₁⟩ := x
        obtain ⟨r', s₁'⟩ := y
        obtain rfl : r = r' := hprojected
        have hbase₁ : s₁.base.Alike s₁'.base := by rwa [hsame, hsame']
        rcases r with e | _
        · exact ⟨rfl, ⟨hbase₁, hleft⟩, hsession⟩
        · refine ⟨congrArg (Except.ok ∘ some) (hshown rfl), ⟨?_, hleft⟩, hsession⟩
          exact ⟨hbase₁.state_eq, hbase₁.params_eq⟩
  | hash build op ih =>
    intro n n' w w' hn hw
    cases n with | hash s input
    cases n' with | hash s' input'
    obtain ⟨hbase, hhash⟩ := hn
    rw [Node.next, Node.next, ← hbase.admitFetch_eq]
    rcases hadmits : admitFetch (.hash build op) s.base with e | _ | _
    · exact ⟨rfl, ⟨hbase, hhash⟩, hw⟩
    · exact ⟨rfl, ⟨hbase, hhash⟩, hw⟩
    -- A build asks its input again and again, which the induction hypothesis covers as a whole.
    · have hrun : s.base.state.isRunning = true := by
        obtain ⟨⟨⟩, hensure, -⟩ := exceptMap_eq_ok_iff.mp hadmits
        exact NodeState.ensureRunning_eq_ok_iff.mp hensure
      have hlimit : ∀ i i', Alike ctx c op i i' → rowsAhead op i + 1 = rowsAhead op i' + 1 := by
        intro i i' hi
        rw [hi.rowsAhead_eq]
      obtain ⟨hanswer, hbase₁, hhash₁, hsession⟩ :=
        hhash.build (ih hop) hlimit hbase hrun hw rfl rfl
      dsimp only at hanswer hbase₁ hhash₁ hsession ⊢
      generalize build.build ctx op.shape.width (Node.next ctx op) (rowsAhead op input + 1) s
        input w = x at hanswer hbase₁ hhash₁ hsession ⊢
      generalize build.build ctx op.shape.width (Node.next ctx op) (rowsAhead op input' + 1) s'
        input' w' = y at hanswer hbase₁ hhash₁ hsession ⊢
      obtain ⟨r, s₁, input₁, w₁⟩ := x
      obtain ⟨r', s₁', input₁', w₁'⟩ := y
      obtain rfl : r = r' := hanswer
      rcases r with e | _
      · exact ⟨rfl, ⟨hbase₁, .finished hhash₁⟩, hsession⟩
      · exact ⟨rfl, ⟨hbase₁.exhausted, .finished hhash₁.exhausted⟩, hsession⟩

/-- Alike trees make the same bitmap. -/
theorem Alike.buildBitmap_eq {op : Operator} {n n' : Node op} (h : Alike ctx c op n n') :
    (n.buildBitmap ctx op).1 = (n'.buildBitmap ctx op).1 := by
  have hstate := h.base.state_eq
  cases n with
  | bitmap s =>
    cases n' with | bitmap s'
    simp only [buildBitmap, ← hstate]
    split
    · rfl
    · exact (BitmapNode.Alike.build ctx h).1
  | seqScan s =>
    cases n' with | seqScan s'
    simp only [buildBitmap, ← hstate]
    split
    · rfl
    · rfl
  | subquery s input =>
    cases n' with | subquery s' input'
    simp only [buildBitmap, ← hstate]
    split
    · rfl
    · rfl
  | hash s input =>
    cases n' with | hash s' input'
    simp only [buildBitmap, ← hstate]
    split
    · rfl
    · rfl

end Node

end PullQuery
