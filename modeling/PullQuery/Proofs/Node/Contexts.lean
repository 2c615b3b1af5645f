import PullQuery.Proofs.Hash.Probe
import PullQuery.Proofs.Node.Pulls
import PullQuery.Proofs.Node.Requests

/-!
# What nodes make of their context

The parameter values of a context are read when a tree is initialized and not again. And the
state of the statement decides no more than whether building a table is canceled: what succeeds
succeeds with the same result in every statement that is not interrupted.

## Main results

* `Node.init_withParams`, `Node.answers_withParams`: whether a tree can be initialized, and what
  it answers to requests then, does not depend on the parameter values of the context
* `Node.next_of_calm`, `HashBuild.drain_of_calm`: successes do not depend on the session
-/

namespace PullQuery

/-- The context with other parameter values. -/
def Context.withParams (ctx : Context) (params : List Value) : Context := { ctx with params }

variable {ctx : Context} {params : List Value} {w v : Session}

/-! ## Parameter values -/

theorem SeqScan.fetchUpTo_withParams (n : SeqScan) (limit : Nat) (rs : RelationScan) (s : State) :
    n.fetchUpTo (ctx.withParams params) limit rs s w = n.fetchUpTo ctx limit rs s w := by
  induction limit generalizing rs s w with
  | zero => rfl
  | succ limit ih =>
    simp only [fetchUpTo, ih]
    rfl

namespace BitmapNode

mutual

theorem build_withParams : (op : BitmapOp) → (s : BitmapNode op) →
    build (ctx.withParams params) op s = build ctx op s
  | .indexScan _, .indexScan _ => rfl
  | .combine how inputs, .combine c states => by
    rw [build, build, buildAll_withParams how none inputs states]

theorem buildAll_withParams (how : Combination) : (acc? : Option TidBitmap) →
    (ops : List BitmapOp) → (ss : Each BitmapNode ops) →
    buildAll (ctx.withParams params) how acc? ops ss = buildAll ctx how acc? ops ss
  | _, [], .nil => rfl
  | acc?, op :: ops, .cons s ss => by
    rw [buildAll, buildAll, build_withParams op s]
    simp only [fun acc? ss => buildAll_withParams how acc? ops ss]
    rfl

end

mutual

theorem init_withParams (flags : Flags) : (op : BitmapOp) → (s : BitmapNode op) →
    (init (ctx.withParams params) flags op s).1 = (init ctx flags op s).1
  | .indexScan scan, .indexScan c => by
    rw [init_indexScan, init_indexScan]
    split
    · rfl
    · split
      · rfl
      · rfl
  | .combine how inputs, .combine c ss => by
    have hinputs := initAll_withParams flags.ofInput inputs ss
    rw [init_combine, init_combine]
    split
    · rfl
    · split
      · rfl
      · generalize initAll (ctx.withParams params) flags.ofInput inputs ss = x at hinputs ⊢
        generalize initAll ctx flags.ofInput inputs ss = y at hinputs ⊢
        obtain ⟨r, ss₁⟩ := x
        obtain ⟨r', ss₁'⟩ := y
        obtain rfl : r = r' := hinputs
        rcases r with e | _
        · rfl
        · rfl

theorem initAll_withParams (flags : Flags) : (ops : List BitmapOp) → (ss : Each BitmapNode ops) →
    (initAll (ctx.withParams params) flags ops ss).1 = (initAll ctx flags ops ss).1
  | [], .nil => rfl
  | op :: ops, .cons s ss => by
    have hfirst := init_withParams flags op s
    have hothers := initAll_withParams flags ops ss
    rw [initAll, initAll]
    generalize init (ctx.withParams params) flags op s = x at hfirst ⊢
    generalize init ctx flags op s = y at hfirst ⊢
    obtain ⟨r, s₁⟩ := x
    obtain ⟨r', s₁'⟩ := y
    obtain rfl : r = r' := hfirst
    rcases r with e | _
    · rfl
    · exact hothers

end

end BitmapNode

namespace Node

/-- Whether a tree can be initialized does not depend on the parameter values. -/
theorem init_withParams : (op : Operator) → (n : Node op) → (flags : Flags) →
    (n.init (ctx.withParams params) op flags).1 = (n.init ctx op flags).1
  | .seqScan scan, .seqScan s, flags => by
    rw [init_seqScan, init_seqScan]
    split
    · rfl
    · unfold SeqScan.openScan
      rcases RelationScan.start scan.relation scan.direction with e | rs
      · rfl
      · rfl
  | .bitmap op, .bitmap s, flags => BitmapNode.init_withParams flags op s
  | .subquery scan op, .subquery s input, flags => by
    have hinput := init_withParams op input flags
    rw [init_subquery, init_subquery]
    split
    · rfl
    · dsimp only
      generalize input.init (ctx.withParams params) op flags = x at hinput ⊢
      generalize input.init ctx op flags = y at hinput ⊢
      obtain ⟨r, input₁⟩ := x
      obtain ⟨r', input₁'⟩ := y
      obtain rfl : r = r' := hinput
      rcases r with e | _
      · rfl
      · rfl
  | .hash build op, .hash s input, flags => by
    have hinput := init_withParams op input flags.ofInput
    rw [init_hash, init_hash]
    split
    · rfl
    · dsimp only
      generalize input.init (ctx.withParams params) op flags.ofInput = x at hinput ⊢
      generalize input.init ctx op flags.ofInput = y at hinput ⊢
      obtain ⟨r, input₁⟩ := x
      obtain ⟨r', input₁'⟩ := y
      obtain rfl : r = r' := hinput
      rcases r with e | _
      · rfl
      · rfl

theorem next_withParams : (op : Operator) → next (ctx.withParams params) op = next ctx op
  | .seqScan scan => by
    funext n w
    cases n with | seqScan s
    simp only [next, SeqScan.fetch, scan.fetchUpTo_withParams]
  | .bitmap op => by
    funext n w
    cases n with | bitmap s
    rw [next, next, BitmapNode.build_withParams]
  | .subquery scan op => by
    funext n w
    cases n with | subquery s input
    rw [next, next, next_withParams op]
  | .hash build op => by
    funext n w
    cases n with | hash s input
    rw [next, next, next_withParams op]
    rfl

theorem buildTable_withParams (build : HashBuild) (op : Operator) (n : Node (.hash build op)) :
    buildTable (ctx.withParams params) build op n w = buildTable ctx build op n w := by
  cases n with | hash s input
  rw [buildTable, buildTable, next_withParams op]
  rfl

theorem buildBitmap_withParams (op : Operator) (n : Node op) :
    n.buildBitmap (ctx.withParams params) op = n.buildBitmap ctx op := by
  cases n with
  | bitmap s => simp only [buildBitmap, BitmapNode.build_withParams]
  | seqScan s => rfl
  | subquery s input => rfl
  | hash s input => rfl

end Node

namespace NodeRequest

/-- Whether a request is about setting up a tree. -/
def IsInit : NodeRequest → Prop
  | init _ => True
  | _ => False

theorem serve_withParams {r : NodeRequest} (hr : ¬ r.IsInit) (op : Operator) (n : Node op) :
    r.serve (ctx.withParams params) op n w = r.serve ctx op n w := by
  cases r with
  | init flags => exact absurd trivial hr
  | next => rw [serve, serve, Node.next_withParams]
  | bitmap => rw [serve, serve, Node.buildBitmap_withParams]
  | hash request =>
    cases n with
    | hash s input =>
      cases request with
      | build => simp only [serve, HashRequest.serve, Node.buildTable_withParams]
      | load batch => rfl
      | lookup hash => rfl
    | seqScan s => rfl
    | bitmap s => rfl
    | subquery s input => rfl
  | _ => rfl

end NodeRequest

/-- Apart from setting up, the answers do not depend on the parameter values of the context. -/
theorem Node.answers_withParams {op : Operator} {rs : List NodeRequest}
    (hrs : ∀ r ∈ rs, ¬ r.IsInit) (n : Node op) :
    answers (ctx.withParams params) op rs n w = answers ctx op rs n w := by
  induction rs generalizing n w with
  | nil => rfl
  | cons r rs ih =>
    have hfirst := hrs r (List.mem_cons_self ..)
    have hothers : ∀ r' ∈ rs, ¬ r'.IsInit := by
      intro r' hr'
      exact hrs r' (List.mem_cons_of_mem r hr')
    rw [answers, answers, NodeRequest.serve_withParams hfirst, ih hothers]

/-! ## Sessions -/

/-- Fetching rows from a scan does not depend on the session, and calms it no more than it was. -/
theorem SeqScan.fetchUpTo_of_calm (n : SeqScan) {limit : Nat} {rs : RelationScan} {s s' : State}
    {r : Except Error Bool} {w' : Session} (h : n.fetchUpTo ctx limit rs s w = (r, s', w'))
    (hv : v.Calm ctx) : ∃ v', n.fetchUpTo ctx limit rs s v = (r, s', v') ∧ v'.Calm ctx := by
  induction limit generalizing rs s w v with
  | zero =>
    obtain ⟨rfl, hstate⟩ := Prod.mk.inj h
    obtain ⟨rfl, -⟩ := Prod.mk.inj hstate
    exact ⟨v, rfl, hv⟩
  | succ limit ih =>
    rw [fetchUpTo] at h ⊢
    rcases hfetch : rs.fetch n.relation n.direction with ⟨e | _ | t, rs'⟩
    · rw [hfetch] at h
      obtain ⟨rfl, rfl, -⟩ := by simpa using h
      exact ⟨v, rfl, hv⟩
    · rw [hfetch] at h
      obtain ⟨rfl, rfl, -⟩ := by simpa using h
      exact ⟨v, rfl, hv⟩
    · rw [hfetch] at h
      have hcalm := hv.sees t
      simp only [Session.sees] at h hcalm ⊢
      rcases hvisible : ctx.oracle.sees ctx.snapshot t with _ | _
      · rw [hvisible] at h
        exact ih h hcalm
      · rw [hvisible] at h
        dsimp only at h ⊢
        rcases haccepts : n.accepts ((s.moved rs').countFetched).base.params t.row with e | _ | _
        · rw [haccepts] at h
          obtain ⟨rfl, rfl, -⟩ := by simpa using h
          exact ⟨_, rfl, hcalm⟩
        · rw [haccepts] at h
          exact ih h hcalm
        · rw [haccepts] at h
          obtain ⟨rfl, rfl, -⟩ := by simpa using h
          exact ⟨_, rfl, hcalm⟩

/-- Whether what succeeds with `next` succeeds with the same result in a calm session. -/
def SucceedsCalmly {σ : Type} (ctx : Context)
    (next : σ → Session → Except Error (Option Slot) × σ × Session) : Prop :=
  ∀ n w v r n' w', next n w = (.ok r, n', w') → v.Calm ctx →
    ∃ v', next n v = (.ok r, n', v') ∧ v'.Calm ctx

theorem HashBuild.drain_of_calm {σ : Type}
    {next : σ → Session → Except Error (Option Slot) × σ × Session}
    (hnext : SucceedsCalmly ctx next) (n : HashBuild) {limit : Nat} {t t' : HashTable}
    {s s' : State} {input input' : σ} {w' : Session}
    (h : n.drain next limit t s input w = (.ok t', s', input', w')) (hv : v.Calm ctx) :
    ∃ v', n.drain next limit t s input v = (.ok t', s', input', v') ∧ v'.Calm ctx := by
  induction limit generalizing t s input w v with
  | zero =>
    obtain ⟨rfl, rfl, rfl, -⟩ := by simpa [drain] using h
    exact ⟨v, rfl, hv⟩
  | succ limit ih =>
    obtain ⟨hend, rfl, rfl⟩ | ⟨slot, row, input₁, w₁, t₁, s₁, hrow, -, hslot, habsorb, hrest⟩ :=
      drain_ok_cases h
    · obtain ⟨v', hend', hv'⟩ := hnext _ _ _ _ _ _ hend hv
      exact ⟨v', by rw [drain, hend'], hv'⟩
    · obtain ⟨v₁, hrow', hv₁⟩ := hnext _ _ _ _ _ _ hrow hv
      rw [drain, hrow']
      simp only [hv₁.checkInterrupt, hslot, habsorb]
      exact ih hrest hv₁

theorem HashBuild.build_of_calm {σ : Type}
    {next : σ → Session → Except Error (Option Slot) × σ × Session}
    (hnext : SucceedsCalmly ctx next) (n : HashBuild) {width limit : Nat}
    {s s' : State} {input input' : σ} {w' : Session}
    (h : n.build ctx width next limit s input w = (.ok (), s', input', w')) (hv : v.Calm ctx) :
    ∃ v', n.build ctx width next limit s input v = (.ok (), s', input', v') ∧ v'.Calm ctx := by
  rw [build] at h ⊢
  split at h
  · simp at h
  · split at h
    · simp at h
    · next haborted =>
      rw [if_neg haborted]
      split at h
      · next htable =>
        obtain ⟨rfl, rfl, -⟩ := by simpa using h
        exact ⟨v, by rw [if_pos htable], hv⟩
      · next htable =>
        rw [if_neg htable]
        split at h
        · simp at h
        · next t₁ s₁ input₁ w₁ hdrain =>
          obtain ⟨rfl, rfl, -⟩ := by simpa using h
          obtain ⟨v₁, hdrain', hv₁⟩ := drain_of_calm hnext n hdrain hv
          exact ⟨v₁, by rw [hdrain'], hv₁⟩

/-- What succeeds succeeds with the same result in every calm session. -/
theorem Node.next_of_calm : (op : Operator) → SucceedsCalmly ctx (next ctx op)
  | .seqScan scan => by
    intro n w v r n' w' h hv
    cases n with | seqScan s
    rw [next] at h ⊢
    rcases hadmits : admitFetch (.seqScan scan) s.base with e | _ | _
    · simp [hadmits] at h
    -- An exhausted scan does not look at the session.
    · rw [hadmits] at h
      obtain ⟨rfl, rfl, -⟩ := by simpa using h
      exact ⟨v, rfl, hv⟩
    · rw [hadmits] at h
      rcases hscan : s.scan? with _ | rs
      · simp [SeqScan.fetch, hscan] at h
      · simp only [SeqScan.fetch, hscan] at h ⊢
        rcases hfetch : scan.fetchUpTo ctx (scan.rowsAhead s + 1) rs s w with ⟨_ | _ | _, s₁, w₁⟩
        · simp [hfetch] at h
        · obtain ⟨v₁, hfetch', hv₁⟩ := scan.fetchUpTo_of_calm hfetch hv
          rw [hfetch] at h
          obtain ⟨rfl, rfl, -⟩ := by simpa using h
          exact ⟨v₁, by rw [hfetch'], hv₁⟩
        · obtain ⟨v₁, hfetch', hv₁⟩ := scan.fetchUpTo_of_calm hfetch hv
          rw [hfetch] at h
          obtain ⟨rfl, rfl, -⟩ := by simpa using h
          exact ⟨v₁, by rw [hfetch'], hv₁⟩
  | .bitmap op => by
    intro n w v r n' w' h hv
    cases n with | bitmap s
    rw [next] at h ⊢
    split at h
    · simp at h
    · obtain ⟨rfl, rfl, -⟩ := by simpa using h
      exact ⟨v, rfl, hv⟩
    · split at h
      · simp at h
      · obtain ⟨rfl, rfl, -⟩ := by simpa using h
        exact ⟨v, rfl, hv⟩
  | .subquery scan op => by
    intro n w v r n' w' h hv
    cases n with | subquery s input
    rw [next] at h ⊢
    split at h
    · simp at h
    · obtain ⟨rfl, rfl, -⟩ := by simpa using h
      exact ⟨v, rfl, hv⟩
    · split at h
      · simp at h
      · next input₁ w₁ hinput =>
        obtain ⟨v₁, hinput', hv₁⟩ := next_of_calm op _ _ _ _ _ _ hinput hv
        obtain ⟨rfl, rfl, -⟩ := by simpa using h
        exact ⟨v₁, by simp only [hinput'], hv₁⟩
      · next row input₁ w₁ hinput =>
        obtain ⟨v₁, hinput', hv₁⟩ := next_of_calm op _ _ _ _ _ _ hinput hv
        simp only [hinput']
        split at h
        · simp at h
        · obtain ⟨rfl, rfl, -⟩ := by simpa using h
          exact ⟨v₁, rfl, hv₁⟩
  | .hash build op => by
    intro n w v r n' w' h hv
    cases n with | hash s input
    rw [next] at h ⊢
    split at h
    · simp at h
    · obtain ⟨rfl, rfl, -⟩ := by simpa using h
      exact ⟨v, rfl, hv⟩
    · split at h
      · simp at h
      · next s₁ input₁ w₁ hbuild =>
        obtain ⟨v₁, hbuild', hv₁⟩ := HashBuild.build_of_calm (next_of_calm op) build hbuild hv
        obtain ⟨rfl, rfl, -⟩ := by simpa using h
        exact ⟨v₁, by simp only [hbuild'], hv₁⟩

end PullQuery
