import PullQuery.Proofs.Node.Likeness

/-!
# Running trees of bitmap nodes

A tree that has been initialized runs with the parameter values that it was given, whatever is
asked of it. Started again, it is as if it had just been initialized with those values or with
new ones.

## Main definitions

* `NodeBase.Runs`, `NodeBase.Starts`
* `BitmapNode.Runs`: the tree is running
* `BitmapNode.Pristine`: it has just been initialized

## Main results

* `BitmapNode.pristine_of_init`, `BitmapNode.Runs.rescan`
* `BitmapNode.Pristine.alike`: pristine trees cannot be told apart
-/

namespace PullQuery

variable {ctx : Context} {params : List Value}

/-! ## Bases -/

/-- Whether a node is running with parameter values. -/
structure NodeBase.Runs (b : NodeBase) (params : List Value) : Prop where
  running : b.state.isRunning = true
  params_eq : b.params = params

/-- Whether a node is about to return its first row. -/
structure NodeBase.Starts (b : NodeBase) (params : List Value) : Prop where
  state_eq : b.state = .active
  params_eq : b.params = params

namespace NodeBase

variable {b b' : NodeBase}

theorem Starts.runs (h : b.Starts params) : b.Runs params :=
  ⟨by rw [h.state_eq]; rfl, h.params_eq⟩

theorem Starts.alike (h : b.Starts params) (h' : b'.Starts params) : b.Alike b' :=
  ⟨h.state_eq.trans h'.state_eq.symm, h.params_eq.trans h'.params_eq.symm⟩

theorem starts_started (b : NodeBase) (params : List Value) :
    (b.takeParams params).started.Starts params := ⟨rfl, rfl⟩

theorem Runs.congr (h : b.Runs params) (hb : b.Alike b') : b'.Runs params :=
  ⟨hb.state_eq ▸ h.running, hb.params_eq.symm.trans h.params_eq⟩

theorem Runs.exhausted (h : b.Runs params) : b.exhausted.Runs params :=
  ⟨NodeState.isRunning_exhaust h.running, h.params_eq⟩

theorem Runs.restarted (h : b.Runs params) (params? : Option (List Value)) :
    (b.restarted params?).Starts (params?.getD params) :=
  ⟨rfl, by rw [NodeBase.restarted, h.params_eq]⟩

theorem Starts.countLoop (h : b.Starts params) : b.countLoop.Starts params :=
  ⟨h.state_eq, h.params_eq⟩

theorem Runs.ensureRunning (h : b.Runs params) (kind : NodeKind) (operation : String) :
    b.state.ensureRunning kind operation = .ok () :=
  NodeState.ensureRunning_eq_ok_iff.mpr h.running

end NodeBase

/-! ## Bitmap nodes -/

/-- Whether a bitmap node is about to make its bitmap. -/
structure BitmapCell.Starts (c : BitmapCell) (params : List Value) : Prop where
  base : c.base.Starts params
  bitmap_eq : c.bitmap? = none

namespace BitmapNode

mutual

/-- Whether all nodes of a tree have a property. -/
def Throughout (P : BitmapCell → Prop) : (op : BitmapOp) → BitmapNode op → Prop
  | .indexScan _, .indexScan c => P c
  | .combine _ inputs, .combine c ss => P c ∧ AllThroughout P inputs ss

def AllThroughout (P : BitmapCell → Prop) :
    (ops : List BitmapOp) → Each BitmapNode ops → Prop
  | [], .nil => True
  | op :: ops, .cons s ss => Throughout P op s ∧ AllThroughout P ops ss

end

/-- Whether a tree is running with parameter values. -/
def Runs (params : List Value) (op : BitmapOp) (s : BitmapNode op) : Prop :=
  Throughout (·.base.Runs params) op s

/-- Whether a tree has just been initialized. -/
def Pristine (params : List Value) (op : BitmapOp) (s : BitmapNode op) : Prop :=
  Throughout (·.Starts params) op s

section Throughout

variable {P Q : BitmapCell → Prop}

theorem Throughout.cell {op : BitmapOp} {s : BitmapNode op} (h : Throughout P op s) : P s.cell := by
  cases s with
  | indexScan c => exact h
  | combine c ss => exact h.1

mutual

theorem Throughout.mono (hPQ : ∀ c, P c → Q c) : {op : BitmapOp} → {s : BitmapNode op} →
    Throughout P op s → Throughout Q op s
  | .indexScan _, .indexScan c, h => hPQ c h
  | .combine _ _, .combine c _, h => ⟨hPQ c h.1, AllThroughout.mono hPQ h.2⟩

theorem AllThroughout.mono (hPQ : ∀ c, P c → Q c) : {ops : List BitmapOp} →
    {ss : Each BitmapNode ops} → AllThroughout P ops ss → AllThroughout Q ops ss
  | [], .nil, _ => trivial
  | _ :: _, .cons _ _, h => ⟨Throughout.mono hPQ h.1, AllThroughout.mono hPQ h.2⟩

end

theorem indexScan_build_keeps (hcalls : ∀ c n, P c → P (c.countCalls n))
    (hrecord : ∀ c m, P c → P (c.record m)) (scan : IndexScan) {c : BitmapCell} (h : P c) :
    P (scan.build ctx c).2 := by
  unfold IndexScan.build
  split
  · exact h
  · split
    · exact h
    · split
      · exact hcalls _ _ h
      · exact hrecord _ _ (hcalls _ _ h)

mutual

theorem Throughout.build (hcalls : ∀ c n, P c → P (c.countCalls n))
    (hrecord : ∀ c m, P c → P (c.record m)) : {op : BitmapOp} → {s : BitmapNode op} →
    Throughout P op s → Throughout P op (build ctx op s).2
  | .indexScan scan, .indexScan _, h => indexScan_build_keeps hcalls hrecord scan h
  | .combine how inputs, .combine c ss, ⟨hcell, hstates⟩ => by
    rw [BitmapNode.build]
    split
    · exact ⟨hcell, hstates⟩
    · have hleft : AllThroughout P inputs (BitmapNode.buildAll ctx how none inputs ss).2 :=
        hstates.buildAll hcalls hrecord
      generalize BitmapNode.buildAll ctx how none inputs ss = x at hleft ⊢
      obtain ⟨r, ss₁⟩ := x
      rcases r with e | m
      · exact ⟨hcell, hleft⟩
      · exact ⟨hrecord c m hcell, hleft⟩

theorem AllThroughout.buildAll (hcalls : ∀ c n, P c → P (c.countCalls n))
    (hrecord : ∀ c m, P c → P (c.record m)) {how : Combination} {acc? : Option TidBitmap} :
    {ops : List BitmapOp} → {ss : Each BitmapNode ops} → AllThroughout P ops ss →
    AllThroughout P ops (buildAll ctx how acc? ops ss).2
  | [], .nil, _ => trivial
  | op :: ops, .cons s ss, ⟨hfirst, hothers⟩ => by
    rw [BitmapNode.buildAll]
    split
    · exact ⟨hfirst, hothers⟩
    · have hleft := hfirst.build hcalls hrecord
      generalize BitmapNode.build ctx op s = x at hleft ⊢
      obtain ⟨r, s₁⟩ := x
      rcases r with e | m
      · exact ⟨hleft, hothers⟩
      · dsimp only
        split
        · exact ⟨hleft, hothers⟩
        · exact ⟨hleft, hothers.buildAll hcalls hrecord⟩

end

end Throughout

theorem Pristine.runs {op : BitmapOp} {s : BitmapNode op} (h : Pristine params op s) :
    Runs params op s := Throughout.mono (fun _ hc => hc.base.runs) h

theorem Runs.build {op : BitmapOp} {s : BitmapNode op} (h : Runs params op s) :
    Runs params op (build ctx op s).2 :=
  Throughout.build (fun _ _ hc => ⟨hc.running, hc.params_eq⟩)
    (fun _ _ hc => ⟨hc.running, hc.params_eq⟩) h

theorem Runs.exhausted {op : BitmapOp} {s : BitmapNode op} (h : Runs params op s) :
    Runs params op s.exhausted := by
  cases s with
  | indexScan c => exact NodeBase.Runs.exhausted h
  | combine c ss => exact ⟨h.1.exhausted, h.2⟩

mutual

theorem pristine_of_init {flags : Flags} : (op : BitmapOp) → {s : BitmapNode op} →
    init ctx flags op (fresh op) = (.ok (), s) → Pristine ctx.params op s
  | .indexScan scan, s, h => by
    rw [fresh, init_indexScan] at h
    split at h
    · simp at h
    · split at h
      · simp at h
      · obtain rfl := (Prod.mk.inj h).2
        exact ⟨NodeBase.starts_started _ _, rfl⟩
  | .combine how inputs, s, h => by
    rw [fresh, init_combine] at h
    split at h
    · simp at h
    · split at h
      · simp at h
      · split at h
        · simp at h
        · next states hstates =>
          obtain rfl := (Prod.mk.inj h).2
          exact ⟨⟨NodeBase.starts_started _ _, rfl⟩, pristine_of_initAll inputs hstates⟩

theorem pristine_of_initAll {flags : Flags} : (ops : List BitmapOp) →
    {ss : Each BitmapNode ops} → initAll ctx flags ops (freshAll ops) = (.ok (), ss) →
    AllThroughout (·.Starts ctx.params) ops ss
  | [], .nil, _ => trivial
  | op :: ops, ss, h => by
    rw [freshAll, initAll] at h
    split at h
    · simp at h
    · next s hfirst =>
      obtain ⟨hothers, rfl⟩ := Prod.mk.inj h
      exact ⟨pristine_of_init op hfirst, pristine_of_initAll ops (Prod.ext hothers rfl)⟩

end

mutual

/-- A running tree starts again as a pristine one. -/
theorem Runs.rescan (params? : Option (List Value)) : {op : BitmapOp} → {s : BitmapNode op} →
    Runs params op s →
    ∃ s', rescan params? op s = (.ok (), s') ∧ Pristine (params?.getD params) op s'
  | .indexScan scan, .indexScan c, h => by
    rw [BitmapNode.rescan_indexScan, NodeBase.Runs.ensureRunning h]
    exact ⟨_, rfl, (NodeBase.Runs.restarted h params?).countLoop, rfl⟩
  | .combine how inputs, .combine c ss, ⟨hcell, hstates⟩ => by
    obtain ⟨ss', hrescan, hpristine⟩ := AllThroughout.rescanAll params? hstates
    rw [BitmapNode.rescan_combine, hcell.ensureRunning]
    simp only [hrescan]
    exact ⟨_, rfl, ⟨(hcell.restarted params?).countLoop, rfl⟩, hpristine⟩

theorem AllThroughout.rescanAll (params? : Option (List Value)) : {ops : List BitmapOp} →
    {ss : Each BitmapNode ops} → AllThroughout (·.base.Runs params) ops ss →
    ∃ ss', rescanAll params? ops ss = (.ok (), ss') ∧
      AllThroughout (·.Starts (params?.getD params)) ops ss'
  | [], .nil, _ => ⟨.nil, rfl, trivial⟩
  | op :: ops, .cons s ss, ⟨hfirst, hothers⟩ => by
    obtain ⟨s', hrescan, hpristine⟩ := Runs.rescan params? hfirst
    obtain ⟨ss', hrescans, hpristines⟩ := AllThroughout.rescanAll params? hothers
    rw [BitmapNode.rescanAll, hrescan]
    simp only [hrescans]
    exact ⟨_, rfl, hpristine, hpristines⟩

end

mutual

theorem Pristine.alike : {op : BitmapOp} → {s s' : BitmapNode op} → Pristine params op s →
    Pristine params op s' → Alike op s s'
  | .indexScan _, .indexScan _, .indexScan _, h, h' =>
    ⟨h.base.alike h'.base, h.bitmap_eq.trans h'.bitmap_eq.symm⟩
  | .combine _ _, .combine _ _, .combine _ _, h, h' =>
    ⟨⟨h.1.base.alike h'.1.base, h.1.bitmap_eq.trans h'.1.bitmap_eq.symm⟩,
      AllThroughout.alike h.2 h'.2⟩

theorem AllThroughout.alike : {ops : List BitmapOp} → {ss ss' : Each BitmapNode ops} →
    AllThroughout (·.Starts params) ops ss → AllThroughout (·.Starts params) ops ss' →
    AllAlike ops ss ss'
  | [], .nil, .nil, _, _ => trivial
  | _ :: _, .cons _ _, .cons _ _, h, h' => ⟨Pristine.alike h.1 h'.1, h.2.alike h'.2⟩

end

end BitmapNode

end PullQuery
