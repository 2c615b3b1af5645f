import PullQuery.Proofs.Node.RowCounts

/-!
# Rows are conserved

Every row version that a scan reads is returned, passed over as invisible or filtered, or stops a
fetch because its condition cannot be evaluated. Every row that an input returns is taken over by
the node above it, unless it cannot be projected; a hash node reads it into its table or filters
it. So the counters of the nodes of a tree balance, through failures, restarts, and positions
that are restored, as long as the statement is not interrupted.

What is not counted is kept in a journal beside the tree: failed conditions and projections, and
the rows of all tables that were built.

## Main definitions

* `Journal`: what has happened at the nodes of a tree
* `Node.note`: the journal after a row was asked for
* `Node.Balanced`: the counters of a tree balance
* `Node.Lossless`: each row that a hash node has read is in a table or filtered

## Main results

* `HashBuild.build_noting`: keeping a journal changes nothing
* `Node.returned_next`: a node counts the rows that it returns
* `Node.Balanced.next`, `Node.Lossless.next`: what asking for a row keeps
* `Node.Balanced.serve`, `Node.Lossless.serve`: any request
* `Node.rows_conserved`
-/

namespace PullQuery

variable {ctx : Context}

/-! ## Journals -/

/-- What has happened at the nodes of a tree that their counters do not tell. -/
inductive Journal : Operator → Type where
  /-- How many fetches failed because the condition could not be evaluated. -/
  | seqScan {scan : SeqScan} (failed : Nat) : Journal (.seqScan scan)
  | bitmap {op : BitmapOp} : Journal (.bitmap op)
  /-- How many rows of the input could not be projected. -/
  | subquery {scan : SubqueryScan} {op : Operator} (failed : Nat) (input : Journal op) :
      Journal (.subquery scan op)
  /-- How many rows were inserted into the tables that were built. -/
  | hash {build : HashBuild} {op : Operator} (stored : Nat) (input : Journal op) :
      Journal (.hash build op)

/-- The journal of a tree to which nothing has happened. -/
def Journal.blank : (op : Operator) → Journal op
  | .seqScan _ => seqScan 0
  | .bitmap _ => bitmap
  | .subquery _ op => subquery 0 (blank op)
  | .hash _ op => hash 0 (blank op)

namespace HashBuild

/-- The rows of a table that has been built meanwhile. -/
def State.newRows (s s' : State) : Nat :=
  match s.table?, s'.table? with
  | none, some t => t.total
  | _, _ => 0

section Noting

variable {σ γ : Type} (next : σ → Session → Except Error (Option Slot) × σ × Session)
  (note : σ → Session → γ → γ)

/-- An input with a journal beside it, in which every call is noted. -/
def noting (input : σ × γ) (w : Session) :
    Except Error (Option Slot) × (σ × γ) × Session :=
  let (result, left, w') := next input.1 w
  (result, (left, note input.1 w input.2), w')

variable {next note} in
theorem noting_eq_iff {i i' : σ} {l l' : γ} {w w' : Session} {r : Except Error (Option Slot)} :
    noting next note (i, l) w = (r, (i', l'), w') ↔ next i w = (r, i', w') ∧ note i w l = l' := by
  rcases hcalled : next i w with ⟨r₁, i₁, w₁⟩
  simp only [noting, hcalled, Prod.mk.injEq]
  tauto

theorem drain_noting (n : HashBuild) (limit : Nat) (t : HashTable) (s : State) (i : σ) (l : γ)
    (w : Session) :
    ∃ l', n.drain (noting next note) limit t s (i, l) w =
      ((n.drain next limit t s i w).1, (n.drain next limit t s i w).2.1,
        ((n.drain next limit t s i w).2.2.1, l'), (n.drain next limit t s i w).2.2.2) := by
  induction limit generalizing t s i l w with
  | zero => exact ⟨l, rfl⟩
  | succ limit ih =>
    rw [drain, drain, noting]
    rcases next i w with ⟨e | _ | slot, i₁, w₁⟩
    · exact ⟨note i w l, rfl⟩
    · exact ⟨note i w l, rfl⟩
    · dsimp only
      split
      · exact ⟨note i w l, rfl⟩
      · split
        · exact ⟨note i w l, rfl⟩
        · split
          · exact ⟨note i w l, rfl⟩
          · exact ih ..

/-- Building does the same over an input with a journal beside it. -/
theorem build_noting (n : HashBuild) (ctx : Context) (width limit : Nat) (s : State) (i : σ) (l : γ)
    (w : Session) :
    ∃ l', n.build ctx width (noting next note) limit s (i, l) w =
      ((n.build ctx width next limit s i w).1, (n.build ctx width next limit s i w).2.1,
        ((n.build ctx width next limit s i w).2.2.1, l'),
        (n.build ctx width next limit s i w).2.2.2) := by
  rw [build, build]
  split
  · exact ⟨l, rfl⟩
  · split
    · exact ⟨l, rfl⟩
    · split
      · exact ⟨l, rfl⟩
      · obtain ⟨l', hdrain⟩ := n.drain_noting next note limit
          (n.emptyTable ctx width) s i l w
        rw [hdrain]
        rcases n.drain next limit (n.emptyTable ctx width) s i w with ⟨e | t, s', i', w'⟩
        · exact ⟨l', rfl⟩
        · exact ⟨l', rfl⟩

end Noting

end HashBuild

namespace Node

/-- The journal of a hash node after a build, for the way the input notes its calls. -/
def noteBuild (ctx : Context) (build : HashBuild) (op : Operator)
    (note : Node op → Session → Journal op → Journal op) (s : HashBuild.State) (input : Node op)
    (w : Session) (stored : Nat) (l : Journal op) : Journal (.hash build op) :=
  match build.build ctx op.shape.width (HashBuild.noting (next ctx op) note)
      (rowsAhead op input + 1) s (input, l) w with
  | (_, s', (_, l'), _) => .hash (stored + s.newRows s') l'

/-- The journal after a row was asked for. -/
def note (ctx : Context) :
    (op : Operator) → Node op → Session → Journal op → Journal op
  | .seqScan scan, seqScan s, w, .seqScan failed =>
    match admitFetch (.seqScan scan) s.base with
    | .ok true =>
      match (scan.fetch ctx s w).1 with
      -- Storage fails before there is a version to count.
      | .error (.expression _) => .seqScan (failed + 1)
      | _ => .seqScan failed
    | _ => .seqScan failed
  | .bitmap _, _, _, l => l
  | .subquery scan op, subquery s input, w, .subquery failed l =>
    match admitFetch (.subquery scan op) s.base with
    | .ok true =>
      match (next ctx op input w).1 with
      | .ok (some row) =>
        .subquery (if (scan.project s row).1.isOk then failed else failed + 1)
          (note ctx op input w l)
      | _ => .subquery failed (note ctx op input w l)
    | _ => .subquery failed l
  | .hash build op, hash s input, w, .hash stored l =>
    match admitFetch (.hash build op) s.base with
    | .ok true => noteBuild ctx build op (note ctx op) s input w stored l
    | _ => .hash stored l

end Node

/-! ## Scans -/

/-- Whether of all versions that were read is known what became of them, when the conditions of
`failed` of them could not be evaluated. -/
def Counters.Accounts (c : Counters) (failed : Nat) : Prop :=
  c.tuplesFetched = c.rowsOut + c.rowsInvisible + c.rowsFiltered + failed

namespace SeqScan

/-- How many versions a fetch has read without passing over them. -/
def taken : Except Error Bool → Nat
  | .ok true => 1
  | .error (.expression _) => 1
  | _ => 0

/-- What a fetch makes of a state. -/
structure Fetched (s : State) (x : Except Error Bool × State × Session) : Prop where
  rowsOut : x.2.1.base.counters.rowsOut = s.base.counters.rowsOut
  accounts : ∀ failed, s.base.counters.Accounts failed →
    x.2.1.base.counters.Accounts (failed + taken x.1)
  row : x.1 = .ok true → ∃ row, x.2.1.slot.row? = some row

theorem fetched_fetchUpTo (n : SeqScan) (ctx : Context) (limit : Nat) (scan : RelationScan)
    (s : State) (w : Session) : Fetched s (n.fetchUpTo ctx limit scan s w) := by
  -- A version that is passed over is counted twice, on both sides of the balance.
  induction limit generalizing scan s w with
  | zero => exact ⟨rfl, fun _ h => h, fun h => by simp [fetchUpTo] at h⟩
  | succ limit ih =>
    rw [fetchUpTo]
    split
    · exact ⟨rfl, fun _ h => h, fun h => by simp at h⟩
    · exact ⟨rfl, fun _ h => h, fun h => by simp at h⟩
    · next t scan _ =>
      dsimp only
      split
      · next w _ =>
        obtain ⟨hrows, haccounts, hrow⟩ := ih scan (s.moved scan).countFetched.countInvisible w
        refine ⟨hrows, fun failed h => haccounts failed ?_, hrow⟩
        show s.base.counters.tuplesFetched + 1 = s.base.counters.rowsOut +
          (s.base.counters.rowsInvisible + 1) + s.base.counters.rowsFiltered + failed
        rw [h]
        omega
      · next w _ =>
        split
        · refine ⟨rfl, fun failed h => ?_, fun h => by simp at h⟩
          exact congrArg (· + 1) h
        · obtain ⟨hrows, haccounts, hrow⟩ := ih scan (s.moved scan).countFetched.countFiltered w
          refine ⟨hrows, fun failed h => haccounts failed ?_, hrow⟩
          show s.base.counters.tuplesFetched + 1 = s.base.counters.rowsOut +
            s.base.counters.rowsInvisible + (s.base.counters.rowsFiltered + 1) + failed
          rw [h]
          omega
        · exact ⟨rfl, fun failed h => congrArg (· + 1) h, fun _ => ⟨t.row, rfl⟩⟩

theorem fetched_fetch (n : SeqScan) (ctx : Context) (s : State) (w : Session) :
    Fetched s (n.fetch ctx s w) := by
  unfold fetch
  split
  · exact ⟨rfl, fun _ h => h, fun h => by simp at h⟩
  · exact n.fetched_fetchUpTo ctx _ _ s w

end SeqScan

/-! ## Rows that are returned -/

/-- The row that a subquery scan shows is that of its input, or was projected from it. -/
theorem SubqueryScan.exists_row_of_project (n : SubqueryScan) {s s' : State} {input : Slot}
    (h : n.project s input = (.ok (), s')) (hrow : ∃ row, input.row? = some row) :
    ∃ row, (n.shownSlot s' input).row? = some row := by
  unfold project at h
  unfold shownSlot
  split at h
  · exact hrow
  · split at h
    · simp at h
    · split at h
      · simp at h
      · next vs _ =>
        obtain rfl := (Prod.mk.inj h).2
        exact ⟨⟨vs⟩, rfl⟩

theorem SubqueryScan.rowsOut_of_project {n : SubqueryScan} {s s' : State} {input : Slot}
    {r : Except Error Unit} (h : n.project s input = (r, s')) :
    s'.base.counters.rowsOut = s.base.counters.rowsOut := by
  have hbase := n.base_project s input
  rw [h] at hbase
  exact congrArg (·.counters.rowsOut) hbase

namespace Node

variable {op : Operator}

/-- How many rows an answer returns. -/
def returned : Except Error (Option Slot) → Nat
  | .ok (some _) => 1
  | _ => 0

theorem rowsOut_build {σ : Type} (ctx : Context)
    (next : σ → Session → Except Error (Option Slot) × σ × Session) (build : HashBuild)
    (width limit : Nat) (s : HashBuild.State) (i : σ) (w : Session) :
    (build.build ctx width next limit s i w).2.1.base.counters.rowsOut =
      s.base.counters.rowsOut := by
  rcases hbuild : build.build ctx width next limit s i w with ⟨r, s', i', w'⟩
  obtain ⟨-, rfl, -, -⟩ | ⟨-, -, -, ⟨e, s₁, hdrain, -, rfl⟩ | ⟨t, s₁, hdrain, -, rfl⟩⟩ :=
    HashBuild.build_cases hbuild
  · rfl
  · exact (HashBuild.continues_of_drain hdrain).rowsOut_eq
  · exact (HashBuild.continues_of_drain hdrain).rowsOut_eq

/-- What an answer tells of the node that gives it: it has counted a row that it returns, and
what it returns is a row. -/
structure Returned (n : Node op) (x : Except Error (Option Slot) × Node op × Session) : Prop where
  rowsOut : x.2.1.base.counters.rowsOut = n.base.counters.rowsOut + returned x.1
  row : ∀ slot, x.1 = .ok (some slot) → ∃ row, slot.row? = some row

section Returned

variable {n n' : Node op} {w : Session}

theorem Returned.of_error {e : Error}
    (h : n'.base.counters.rowsOut = n.base.counters.rowsOut) : n.Returned (.error e, n', w) :=
  ⟨h, fun slot hslot => by simp at hslot⟩

theorem Returned.of_none (h : n'.base.counters.rowsOut = n.base.counters.rowsOut) :
    n.Returned (.ok none, n', w) :=
  ⟨h, fun slot hslot => by simp at hslot⟩

theorem Returned.of_some {slot : Slot}
    (h : n'.base.counters.rowsOut = n.base.counters.rowsOut + 1)
    (hrow : ∃ row, slot.row? = some row) : n.Returned (.ok (some slot), n', w) := by
  refine ⟨h, ?_⟩
  rintro _ ⟨⟩
  exact hrow

end Returned

theorem returned_next (ctx : Context) (n : Node op) (w : Session) :
    n.Returned (n.next ctx op w) := by
  induction op generalizing w with
  | seqScan scan =>
    cases n with | seqScan s
    rw [next]
    split
    · exact .of_error rfl
    · exact .of_none rfl
    · obtain ⟨hrows, -, hrow⟩ := scan.fetched_fetch ctx s w
      generalize scan.fetch ctx s w = x at hrows hrow ⊢
      obtain ⟨r, s', w'⟩ := x
      rcases r with e | _ | _
      · exact .of_error hrows
      · exact .of_none hrows
      · exact .of_some (congrArg (· + 1) hrows) (hrow rfl)
  | bitmap op =>
    cases n with | bitmap s
    rw [next]
    split
    · exact .of_error rfl
    · exact .of_none rfl
    · have hbuilt := (BitmapNode.sameRows_build ctx op s).rowsOut
      generalize BitmapNode.build ctx op s = x at hbuilt ⊢
      obtain ⟨r, s'⟩ := x
      rcases r with e | m
      · exact .of_error hbuilt
      · exact .of_none ((BitmapNode.sameRows_exhausted s').rowsOut.trans hbuilt)
  | subquery scan op ih =>
    cases n with | subquery s input
    rw [next]
    split
    · exact .of_error rfl
    · exact .of_none rfl
    -- The input returns a row if any; the scan counts it only when it can be projected.
    · have hinput := (ih input w).row
      generalize next ctx op input w = x at hinput ⊢
      obtain ⟨r, input', w'⟩ := x
      rcases r with e | _ | row
      · exact .of_error rfl
      · exact .of_none rfl
      · dsimp only
        rcases hproject : scan.project s row with ⟨e | _, s'⟩
        · exact .of_error (SubqueryScan.rowsOut_of_project hproject)
        · exact .of_some (congrArg (· + 1) (SubqueryScan.rowsOut_of_project hproject))
            (scan.exists_row_of_project hproject (hinput row rfl))
  | hash build op =>
    cases n with | hash s input
    rw [next]
    split
    · exact .of_error rfl
    · exact .of_none rfl
    · have hbuilt := rowsOut_build ctx (next ctx op) build op.shape.width
        (rowsAhead op input + 1) s input w
      generalize build.build ctx op.shape.width (next ctx op) (rowsAhead op input + 1) s input w = x
        at hbuilt ⊢
      obtain ⟨r, s', input', w'⟩ := x
      rcases r with e | _
      · exact .of_error hbuilt
      · exact .of_none hbuilt

/-! ## The balance -/

/-- Whether the counters of a tree balance: of all versions that its scan has read is known what
became of them, each row that the input of a subquery scan has returned was returned by the scan
or could not be projected, and a hash node has read each row that its input has returned. -/
def Balanced : (op : Operator) → Node op → Journal op → Prop
  | .seqScan _, seqScan s, .seqScan failed => s.base.counters.Accounts failed
  | .bitmap _, _, _ => True
  | .subquery _ op, subquery s input, .subquery failed l =>
    s.base.counters.rowsOut + failed = input.base.counters.rowsOut ∧ Balanced op input l
  | .hash _ op, hash s input, .hash _ l =>
    s.base.counters.tuplesFetched = input.base.counters.rowsOut ∧ Balanced op input l

/-- Whether each row that a hash node of a tree has read was filtered or inserted into a table. -/
def Lossless : (op : Operator) → Node op → Journal op → Prop
  | .seqScan _, _, _ => True
  | .bitmap _, _, _ => True
  | .subquery _ op, subquery _ input, .subquery _ l => Lossless op input l
  | .hash _ op, hash s input, .hash stored l =>
    s.base.counters.tuplesFetched = s.base.counters.rowsFiltered + stored ∧ Lossless op input l

@[simp] theorem balanced_bitmap (op : BitmapOp) (n : Node (.bitmap op)) (l : Journal (.bitmap op)) :
    Balanced (.bitmap op) n l := by
  cases n with | bitmap s
  trivial

@[simp] theorem lossless_seqScan (scan : SeqScan) (n : Node (.seqScan scan))
    (l : Journal (.seqScan scan)) : Lossless (.seqScan scan) n l := by
  cases n with | seqScan s
  trivial

@[simp] theorem lossless_bitmap (op : BitmapOp) (n : Node (.bitmap op)) (l : Journal (.bitmap op)) :
    Lossless (.bitmap op) n l := by
  cases n with | bitmap s
  trivial

theorem base_fresh (op : Operator) : (fresh op).base = {} := by
  cases op with
  | bitmap op => cases op <;> rfl
  | _ => rfl

theorem balanced_blank : (op : Operator) → Balanced op (fresh op) (.blank op)
  | .seqScan _ => rfl
  | .bitmap _ => trivial
  | .subquery _ op => ⟨by rw [base_fresh], balanced_blank op⟩
  | .hash _ op => ⟨by rw [base_fresh], balanced_blank op⟩

theorem lossless_blank : (op : Operator) → Lossless op (fresh op) (.blank op)
  | .seqScan _ => trivial
  | .bitmap _ => trivial
  | .subquery _ op => lossless_blank op
  | .hash _ op => ⟨rfl, lossless_blank op⟩

/-! ## What a call of the input keeps -/

theorem fetched_absorb (build : HashBuild) (t : HashTable) (s : HashBuild.State) (row : Row) :
    (build.absorb t s row).2.base.counters.tuplesFetched = s.base.counters.tuplesFetched := by
  unfold HashBuild.absorb
  split
  · rfl
  · rfl
  · split
    · rfl
    · rfl

/-- A row that is taken over is filtered, or it is in the table. -/
theorem filtered_absorb {build : HashBuild} {t t' : HashTable} {s s' : HashBuild.State} {row : Row}
    (h : build.absorb t s row = (.ok t', s')) :
    s'.base.counters.rowsFiltered + t'.total = s.base.counters.rowsFiltered + t.total + 1 := by
  unfold HashBuild.absorb at h
  split at h
  · simp at h
  · cases h
    show s.base.counters.rowsFiltered + 1 + t.total = _
    omega
  · next hash _ =>
    have htotal := t.total_insert ⟨hash, row⟩
    split at h
    · simp at h
    · next hinsert =>
      cases h
      rw [hinsert] at htotal
      rw [htotal, Nat.add_assoc]

/-- A fetch reads the row that it returns, or the version whose condition cannot be evaluated,
beside those that it passes over. -/
theorem Balanced.next_seqScan {scan : SeqScan} {n : Node (.seqScan scan)}
    {l : Journal (.seqScan scan)} {w : Session} (h : Balanced (.seqScan scan) n l) :
    Balanced (.seqScan scan) (n.next ctx (.seqScan scan) w).2.1
      (note ctx (.seqScan scan) n w l) := by
  cases n with | seqScan s
  cases l with | seqScan failed
  rw [Node.next, note]
  rcases admitFetch (.seqScan scan) s.base with e | _ | _
  · exact h
  · exact h
  · have haccounts := (scan.fetched_fetch ctx s w).accounts failed h
    dsimp only
    generalize scan.fetch ctx s w = x at haccounts ⊢
    obtain ⟨r, s', w'⟩ := x
    rcases r with e | _ | _
    · cases e <;> exact haccounts
    · exact haccounts
    · have htaken : s'.base.counters.tuplesFetched = s'.base.counters.rowsOut +
        s'.base.counters.rowsInvisible + s'.base.counters.rowsFiltered + (failed + 1) := haccounts
      show s'.base.counters.tuplesFetched = s'.base.counters.rowsOut + 1 +
        s'.base.counters.rowsInvisible + s'.base.counters.rowsFiltered + failed
      omega

section BalancedInput

variable {build : HashBuild} {limit : Nat} {t : HashTable} {s s' : HashBuild.State}
  {input input' : Node op} {l l' : Journal op} {w w' : Session}
  (hnext : ∀ i w l, Balanced op i l → (next ctx op i w).2.2.interrupted = false →
    Balanced op (next ctx op i w).2.1 (note ctx op i w l))

include hnext

/-- Reading the input counts each row that it returns, unless the statement is interrupted
between the two. -/
theorem Balanced.drain {r : Except Error HashTable} (hinput : Balanced op input l)
    (hread : s.base.counters.tuplesFetched = input.base.counters.rowsOut)
    (h : build.drain (HashBuild.noting (next ctx op) (note ctx op)) limit t s (input, l) w =
      (r, s', (input', l'), w')) (hw : w'.interrupted = false) :
    s'.base.counters.tuplesFetched = input'.base.counters.rowsOut ∧ Balanced op input' l' := by
  induction limit generalizing t s input l w with
  | zero =>
    cases h
    exact ⟨hread, hinput⟩
  | succ limit ih =>
    obtain ⟨hcounted, hreturned⟩ := returned_next ctx input w
    have hleft := hnext input w l hinput
    rw [HashBuild.drain, HashBuild.noting] at h
    generalize next ctx op input w = x at h hcounted hreturned hleft
    obtain ⟨result, input₁, w₁⟩ := x
    rcases result with e | _ | slot
    · cases h
      exact ⟨hread.trans hcounted.symm, hleft hw⟩
    · cases h
      exact ⟨hread.trans hcounted.symm, hleft hw⟩
    · dsimp only at h
      split at h
      · -- The row is lost to an interrupt, which is still set in the end.
        next hinterrupt =>
        cases h
        simp [Session.checkInterrupt_eq_ok_iff.mpr hw] at hinterrupt
      -- A row is counted before it is hashed and stored, whether these succeed or not.
      · next hgoes =>
        have hw₁ := Session.checkInterrupt_eq_ok_iff.mp hgoes
        obtain ⟨row, hrow⟩ := hreturned slot rfl
        rw [hrow] at h
        dsimp only at h
        have hfetched := fetched_absorb build t s.countFetched row
        have hread₁ : s.base.counters.tuplesFetched + 1 = input₁.base.counters.rowsOut := by
          rw [hread]
          exact hcounted.symm
        split at h
        · next habsorb =>
          cases h
          rw [habsorb] at hfetched
          exact ⟨hfetched.trans hread₁, hleft hw₁⟩
        · next habsorb =>
          rw [habsorb] at hfetched
          exact ih (hleft hw₁) (hfetched.trans hread₁) h

theorem Balanced.build_noted {r : Except Error Unit} {stored : Nat}
    (h : Balanced (.hash build op) (hash s input : Node (.hash build op)) (.hash stored l))
    (hbuild : build.build ctx op.shape.width (next ctx op) (rowsAhead op input + 1) s input w =
      (r, s', input', w')) (hw : w'.interrupted = false) :
    Balanced (.hash build op) (hash s' input' : Node (.hash build op))
      (noteBuild ctx build op (note ctx op) s input w stored l) := by
  obtain ⟨l', hnoted⟩ := build.build_noting (next ctx op) (note ctx op) ctx op.shape.width
    (rowsAhead op input + 1) s input l w
  rw [hbuild] at hnoted
  rw [noteBuild, hnoted]
  dsimp only at hnoted ⊢
  obtain ⟨-, rfl, hleft, -⟩ | ⟨-, -, -, ⟨e, s₁, hdrain, -, rfl⟩ | ⟨t, s₁, hdrain, -, rfl⟩⟩ :=
    HashBuild.build_cases hnoted
  · cases hleft
    exact h
  · obtain ⟨hread, hleft⟩ := h.2.drain hnext h.1 hdrain hw
    exact ⟨hread, hleft⟩
  · obtain ⟨hread, hleft⟩ := h.2.drain hnext h.1 hdrain hw
    exact ⟨hread, hleft⟩

/-- The row that a subquery scan asks for is passed on, or it cannot be projected. -/
theorem Balanced.next_subquery {scan : SubqueryScan} {n : Node (.subquery scan op)}
    {l : Journal (.subquery scan op)} (h : Balanced (.subquery scan op) n l)
    (hw : (n.next ctx (.subquery scan op) w).2.2.interrupted = false) :
    Balanced (.subquery scan op) (n.next ctx (.subquery scan op) w).2.1
      (note ctx (.subquery scan op) n w l) := by
  cases n with | subquery s input
  cases l with | subquery failed l
  obtain ⟨hrows, hinput⟩ := h
  have hcounted := (returned_next ctx input w).rowsOut
  have hleft := hnext input w l hinput
  rw [Node.next] at hw ⊢
  rw [note]
  generalize admitFetch (.subquery scan op) s.base = r at hw ⊢
  rcases r with e | _ | _
  · exact ⟨hrows, hinput⟩
  · exact ⟨hrows, hinput⟩
  · dsimp only at hw ⊢
    generalize Node.next ctx op input w = x at hw hcounted hleft ⊢
    obtain ⟨result, input', w'⟩ := x
    rcases result with e | _ | row
    · exact ⟨hrows.trans hcounted.symm, hleft hw⟩
    · exact ⟨hrows.trans hcounted.symm, hleft hw⟩
    · dsimp only at hw hcounted hleft ⊢
      -- The input has counted the row, and either the scan or the journal does.
      have hone : input'.base.counters.rowsOut = input.base.counters.rowsOut + 1 := hcounted
      rcases hproject : scan.project s row with ⟨e | _, s'⟩
      · have hout := SubqueryScan.rowsOut_of_project hproject
        rw [hproject] at hw
        refine ⟨?_, hleft hw⟩
        show s'.base.counters.rowsOut + (failed + 1) = input'.base.counters.rowsOut
        omega
      · have hout := SubqueryScan.rowsOut_of_project hproject
        rw [hproject] at hw
        refine ⟨?_, hleft hw⟩
        show s'.base.counters.rowsOut + 1 + failed = input'.base.counters.rowsOut
        omega

theorem Balanced.next_hash {n : Node (.hash build op)} {l : Journal (.hash build op)}
    (h : Balanced (.hash build op) n l)
    (hw : (n.next ctx (.hash build op) w).2.2.interrupted = false) :
    Balanced (.hash build op) (n.next ctx (.hash build op) w).2.1
      (note ctx (.hash build op) n w l) := by
  cases n with | hash s input
  cases l with | hash stored l
  rw [Node.next] at hw ⊢
  rw [note]
  generalize admitFetch (.hash build op) s.base = r at hw ⊢
  rcases r with e | _ | _
  · exact h
  · exact h
  · dsimp only at hw ⊢
    rcases hbuild : build.build ctx op.shape.width (Node.next ctx op) (rowsAhead op input + 1) s
      input w with ⟨e | _, s', input', w'⟩
    · rw [hbuild] at hw
      exact h.build_noted hnext hbuild hw
    · rw [hbuild] at hw
      have hbuilt := h.build_noted hnext hbuild hw
      -- That the node is exhausted then, its counters do not tell.
      generalize noteBuild ctx build op (note ctx op) s input w stored l = l' at hbuilt ⊢
      cases l' with | hash stored' l'
      exact ⟨hbuilt.1, hbuilt.2⟩

end BalancedInput

section LosslessInput

variable {build : HashBuild} {limit : Nat} {t t' : HashTable} {s s' : HashBuild.State}
  {input input' : Node op} {l l' : Journal op} {w w' : Session}
  (hnext : ∀ i w l, Lossless op i l → (next ctx op i w).1.isOk = true →
    Lossless op (next ctx op i w).2.1 (note ctx op i w l))

include hnext

/-- Reading the whole input filters each row or inserts it into the table. -/
theorem Lossless.drain (hinput : Lossless op input l)
    (h : build.drain (HashBuild.noting (next ctx op) (note ctx op)) limit t s (input, l) w =
      (.ok t', s', (input', l'), w')) :
    s'.base.counters.tuplesFetched + (s.base.counters.rowsFiltered + t.total) =
        s.base.counters.tuplesFetched + (s'.base.counters.rowsFiltered + t'.total) ∧
      Lossless op input' l' := by
  induction limit generalizing t s input l w with
  | zero =>
    cases h
    exact ⟨rfl, hinput⟩
  | succ limit ih =>
    have hleft := hnext input w l hinput
    obtain ⟨hend, rfl, rfl⟩ | ⟨slot, row, ⟨input₁, l₁⟩, w₁, t₁, s₁, hrow, -, -, habsorb, hrest⟩ :=
      HashBuild.drain_ok_cases h
    · obtain ⟨hnone, rfl⟩ := HashBuild.noting_eq_iff.mp hend
      rw [hnone] at hleft
      exact ⟨rfl, hleft rfl⟩
    · obtain ⟨hsome, rfl⟩ := HashBuild.noting_eq_iff.mp hrow
      rw [hsome] at hleft
      have hfetched : s₁.base.counters.tuplesFetched = s.base.counters.tuplesFetched + 1 := by
        have hkept := fetched_absorb build t s.countFetched row
        rwa [habsorb] at hkept
      have hfiltered : s₁.base.counters.rowsFiltered + t₁.total =
        s.base.counters.rowsFiltered + t.total + 1 := filtered_absorb (s := s.countFetched) habsorb
      obtain ⟨hcounts, hend⟩ := ih (hleft rfl) hrest
      exact ⟨by omega, hend⟩

/-- The rows of a new table are noted. -/
theorem Lossless.build_noted {stored : Nat}
    (h : Lossless (.hash build op) (hash s input : Node (.hash build op)) (.hash stored l))
    (hbuild : build.build ctx op.shape.width (next ctx op) (rowsAhead op input + 1) s input w =
      (.ok (), s', input', w')) :
    Lossless (.hash build op) (hash s' input' : Node (.hash build op))
      (noteBuild ctx build op (note ctx op) s input w stored l) := by
  obtain ⟨l', hnoted⟩ := build.build_noting (next ctx op) (note ctx op) ctx op.shape.width
    (rowsAhead op input + 1) s input l w
  rw [hbuild] at hnoted
  rw [noteBuild, hnoted]
  dsimp only at hnoted ⊢
  obtain ⟨hkept, rfl, hleft, -⟩ | ⟨-, -, hnone, ⟨e, s₁, -, hfails, -⟩ | ⟨t, s₁, hdrain, -, rfl⟩⟩ :=
    HashBuild.build_cases hnoted
  · -- The table that is there is no new one.
    have htable : s'.table?.isSome = true := by simpa using hkept
    obtain ⟨t, ht⟩ := Option.isSome_iff_exists.mp htable
    have hnew : s'.newRows s' = 0 := by rw [HashBuild.State.newRows, ht]
    cases hleft
    rw [hnew]
    exact h
  · simp at hfails
  · have hnew : s.newRows (s₁.install t) = t.total := by
      rw [HashBuild.State.newRows, hnone]
      rfl
    obtain ⟨hcounts, hleft⟩ := h.2.drain hnext hdrain
    rw [hnew]
    refine ⟨?_, hleft⟩
    have hstored : s.base.counters.tuplesFetched = s.base.counters.rowsFiltered + stored := h.1
    have hempty : (build.emptyTable ctx op.shape.width).total = 0 := rfl
    show s₁.base.counters.tuplesFetched = s₁.base.counters.rowsFiltered + (stored + t.total)
    omega

theorem Lossless.next_subquery {scan : SubqueryScan} {n : Node (.subquery scan op)}
    {l : Journal (.subquery scan op)} (h : Lossless (.subquery scan op) n l)
    (hok : (n.next ctx (.subquery scan op) w).1.isOk = true) :
    Lossless (.subquery scan op) (n.next ctx (.subquery scan op) w).2.1
      (note ctx (.subquery scan op) n w l) := by
  cases n with | subquery s input
  cases l with | subquery failed l
  have hleft := hnext input w l h
  rw [Node.next] at hok ⊢
  rw [note]
  generalize admitFetch (.subquery scan op) s.base = r at hok ⊢
  rcases r with e | _ | _
  · exact h
  · exact h
  · dsimp only at hok ⊢
    generalize Node.next ctx op input w = x at hok hleft ⊢
    obtain ⟨result, input', w'⟩ := x
    rcases result with e | _ | row
    · simp [Except.isOk, Except.toBool] at hok
    · exact hleft rfl
    · dsimp only at hleft ⊢
      rcases scan.project s row with ⟨e | _, s'⟩
      · exact hleft rfl
      · exact hleft rfl

theorem Lossless.next_hash {n : Node (.hash build op)} {l : Journal (.hash build op)}
    (h : Lossless (.hash build op) n l)
    (hok : (n.next ctx (.hash build op) w).1.isOk = true) :
    Lossless (.hash build op) (n.next ctx (.hash build op) w).2.1
      (note ctx (.hash build op) n w l) := by
  cases n with | hash s input
  cases l with | hash stored l
  rw [Node.next] at hok ⊢
  rw [note]
  generalize admitFetch (.hash build op) s.base = r at hok ⊢
  rcases r with e | _ | _
  · exact h
  · exact h
  · dsimp only at hok ⊢
    rcases hbuild : build.build ctx op.shape.width (Node.next ctx op) (rowsAhead op input + 1) s
      input w with ⟨e | _, s', input', w'⟩
    · rw [hbuild] at hok
      simp [Except.isOk, Except.toBool] at hok
    · have hbuilt := h.build_noted hnext hbuild
      generalize noteBuild ctx build op (note ctx op) s input w stored l = l' at hbuilt ⊢
      cases l' with | hash stored' l'
      exact ⟨hbuilt.1, hbuilt.2⟩

end LosslessInput

/-! ## Asking for rows -/

variable {n : Node op} {l : Journal op} {w : Session}

/-- Asking for a row keeps the balance, unless the statement is interrupted. -/
theorem Balanced.next (h : Balanced op n l) (hw : (n.next ctx op w).2.2.interrupted = false) :
    Balanced op (n.next ctx op w).2.1 (note ctx op n w l) := by
  induction op generalizing w with
  | seqScan scan => exact h.next_seqScan
  | bitmap op => exact balanced_bitmap ..
  | subquery scan op ih => exact h.next_subquery (fun i w l hi hw => ih hi hw) hw
  | hash build op ih => exact h.next_hash (fun i w l hi hw => ih hi hw) hw

/-- Asking for a row with success loses no rows. -/
theorem Lossless.next (h : Lossless op n l) (hok : (n.next ctx op w).1.isOk = true) :
    Lossless op (n.next ctx op w).2.1 (note ctx op n w l) := by
  induction op generalizing w with
  | seqScan scan => exact lossless_seqScan ..
  | bitmap op => exact lossless_bitmap ..
  | subquery scan op ih => exact h.next_subquery (fun i w l hi hok => ih hi hok) hok
  | hash build op ih => exact h.next_hash (fun i w l hi hok => ih hi hok) hok

/-! ## Requests -/

/-- What is known of the rows that were returned, read and passed over stays known when they are
not counted. -/
theorem Balanced.keep {n' : Node op} (h : Balanced op n l) (hkeep : KeepsRows op n n') :
    Balanced op n' l := by
  induction op with
  | seqScan scan =>
    cases n with | seqScan s
    cases n' with | seqScan s'
    cases l with | seqScan failed
    have haccounts : s.base.counters.Accounts failed := h
    obtain ⟨hout, hfetched, hinvisible, hfiltered⟩ := hkeep
    show s'.base.counters.Accounts failed
    rw [Counters.Accounts, hout, hfetched, hinvisible, hfiltered]
    exact haccounts
  | bitmap op => exact balanced_bitmap ..
  | subquery scan op ih =>
    cases n with | subquery s input
    cases n' with | subquery s' input'
    cases l with | subquery failed l
    refine ⟨?_, ih h.2 hkeep.2⟩
    rw [hkeep.1.rowsOut, hkeep.2.base.rowsOut]
    exact h.1
  | hash build op ih =>
    cases n with | hash s input
    cases n' with | hash s' input'
    cases l with | hash stored l
    refine ⟨?_, ih h.2 hkeep.2⟩
    rw [hkeep.1.tuplesFetched, hkeep.2.base.rowsOut]
    exact h.1

theorem Lossless.keep {n' : Node op} (h : Lossless op n l) (hkeep : KeepsRows op n n') :
    Lossless op n' l := by
  induction op with
  | seqScan scan => exact lossless_seqScan ..
  | bitmap op => exact lossless_bitmap ..
  | subquery scan op ih =>
    cases n with | subquery s input
    cases n' with | subquery s' input'
    cases l with | subquery failed l
    exact ih h hkeep.2
  | hash build op ih =>
    cases n with | hash s input
    cases n' with | hash s' input'
    cases l with | hash stored l
    refine ⟨?_, ih h.2 hkeep.2⟩
    rw [hkeep.1.tuplesFetched, hkeep.1.rowsFiltered]
    exact h.1

end Node

/-- The journal after a request. -/
def NodeRequest.note (ctx : Context) (op : Operator) (n : Node op) (w : Session) (l : Journal op) :
    NodeRequest → Journal op
  | .next => n.note ctx op w l
  | .hash .build =>
    match op, n, l with
    | .hash build op, .hash s input, .hash stored l =>
      Node.noteBuild ctx build op (Node.note ctx op) s input w stored l
    | _, _, l => l
  | _ => l

namespace Node

/-- A request keeps the balance, whether it succeeds or not, unless the statement is
interrupted. -/
theorem Balanced.serve (r : NodeRequest) (h : Balanced op n l)
    (hw : (r.serve ctx op n w).2.2.interrupted = false) :
    Balanced op (r.serve ctx op n w).2.1 (r.note ctx op n w l) := by
  match r with
  | .next => exact h.next hw
  | .hash .build =>
    cases n with
    | seqScan s => exact h
    | bitmap s => exact h
    | subquery s input => exact h
    | @hash build op s input =>
      cases l with | hash stored l
      exact h.build_noted (fun i w l hi hw => hi.next hw) rfl hw
  | .init _ | .bitmap | .rescan _ | .mark | .restore | .finish | .interrupt _ | .hash (.load _)
  | .hash (.lookup _) => exact h.keep (n.keepsRows_serve w rfl)

/-- A request that succeeds loses no rows. -/
theorem Lossless.serve (r : NodeRequest) (h : Lossless op n l)
    (hok : (r.serve ctx op n w).1.isOk = true) :
    Lossless op (r.serve ctx op n w).2.1 (r.note ctx op n w l) := by
  match r with
  | .next => exact h.next hok
  | .hash .build =>
    cases n with
    | seqScan s => exact h
    | bitmap s => exact h
    | subquery s input => exact h
    | @hash build op s input =>
      cases l with | hash stored l
      rcases hb : build.build ctx op.shape.width (Node.next ctx op) (rowsAhead op input + 1) s
        input w with ⟨e | _, s', input', w'⟩
      · simp [NodeRequest.serve, HashRequest.serve, buildTable, hb, NodeAnswer.isOk, Except.isOk,
          Except.toBool] at hok
      · have hbuilt := h.build_noted (fun i w l hi hok => hi.next hok) hb
        change Lossless (.hash build op) (buildTable ctx build op (hash s input) w).2.1
          (noteBuild ctx build op (note ctx op) s input w stored l)
        rw [buildTable, hb]
        exact hbuilt
  | .init _ | .bitmap | .rescan _ | .mark | .restore | .finish | .interrupt _ | .hash (.load _)
  | .hash (.lookup _) => exact h.keep (n.keepsRows_serve w rfl)

/-! ## Runs -/

/-- The sessions after requests in turn. -/
def sessions (ctx : Context) (op : Operator) : List NodeRequest → Node op → Session → List Session
  | [], _, _ => []
  | r :: rs, n, w =>
    (r.serve ctx op n w).2.2 ::
      sessions ctx op rs (r.serve ctx op n w).2.1 (r.serve ctx op n w).2.2

/-- The journal after requests in turn. -/
def journal (ctx : Context) (op : Operator) :
    List NodeRequest → Node op → Session → Journal op → Journal op
  | [], _, _, l => l
  | r :: rs, n, w, l =>
    journal ctx op rs (r.serve ctx op n w).2.1 (r.serve ctx op n w).2.2 (r.note ctx op n w l)

theorem Balanced.run (rs : List NodeRequest) (h : Balanced op n l)
    (hw : ∀ w' ∈ sessions ctx op rs n w, w'.interrupted = false) :
    Balanced op (run ctx op rs n w).1 (journal ctx op rs n w l) := by
  induction rs generalizing n w l with
  | nil => exact h
  | cons r rs ih =>
    refine ih (h.serve r (hw _ (List.mem_cons_self ..))) ?_
    intro w' hmem
    exact hw w' (List.mem_cons_of_mem _ hmem)

theorem Lossless.run (rs : List NodeRequest) (h : Lossless op n l)
    (hok : ∀ a ∈ answers ctx op rs n w, a.isOk = true) :
    Lossless op (run ctx op rs n w).1 (journal ctx op rs n w l) := by
  induction rs generalizing n w l with
  | nil => exact h
  | cons r rs ih =>
    refine ih (h.serve r (hok _ (List.mem_cons_self ..))) ?_
    intro a hmem
    exact hok a (List.mem_cons_of_mem _ hmem)

/-- The counters of all nodes of a tree balance after any requests during which the statement is
not interrupted. If all of them succeed, no hash node has lost a row. -/
theorem rows_conserved (ctx : Context) (op : Operator) (rs : List NodeRequest) (w : Session)
    (hw : ∀ w' ∈ sessions ctx op rs (fresh op) w, w'.interrupted = false) :
    Balanced op (run ctx op rs (fresh op) w).1 (journal ctx op rs (fresh op) w (.blank op)) ∧
      ((∀ a ∈ answers ctx op rs (fresh op) w, a.isOk = true) →
        Lossless op (run ctx op rs (fresh op) w).1
          (journal ctx op rs (fresh op) w (.blank op))) :=
  ⟨(balanced_blank op).run rs hw, (lossless_blank op).run rs⟩

/-- A hash node over a subquery scan that doubles two numbers. -/
def hashedDoubles : Operator :=
  .hash HashBuild.byFirst
    (.subquery ⟨some [.binary (.arithmetic .add) (.column 0) (.column 0)], ⟨[⟨"y", .int64⟩]⟩⟩
      (.seqScan ⟨.ofHeap (oneNumber.insert ⟨[.int64 2]⟩ 2).2, .forward, none⟩))

/-- The table is built, forgotten with the parameter values, and built again. -/
def builtTwice : List NodeRequest := [.init {}, .next, .next, .rescan (some []), .hash .build]

theorem rows_conserved_builtTwice :
    (∀ w' ∈ sessions {} hashedDoubles builtTwice (fresh hashedDoubles) {},
        w'.interrupted = false) ∧
      (∀ a ∈ answers {} hashedDoubles builtTwice (fresh hashedDoubles) {}, a.isOk = true) ∧
      Lossless hashedDoubles (run {} hashedDoubles builtTwice (fresh hashedDoubles) {}).1
        (journal {} hashedDoubles builtTwice (fresh hashedDoubles) {} (.blank hashedDoubles)) := by
  have hw : ∀ w' ∈ sessions {} hashedDoubles builtTwice (fresh hashedDoubles) {},
      w'.interrupted = false := by decide +kernel
  have hok : ∀ a ∈ answers {} hashedDoubles builtTwice (fresh hashedDoubles) {}, a.isOk = true :=
    List.all_eq_true.mp (by decide +kernel)
  exact ⟨hw, hok, (rows_conserved {} hashedDoubles builtTwice {} hw).2 hok⟩

end Node

end PullQuery
