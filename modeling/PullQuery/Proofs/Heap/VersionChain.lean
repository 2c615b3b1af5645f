import Mathlib.Data.List.Chain
import PullQuery.Heap.Visibility

/-!
# Chains of versions

The versions of a row form a chain: each is stamped as deleted by the transaction that inserted
the next one. If the transactions whose changes a snapshot counts come first in the chain, it
sees the version of the last of them and no other. So an insertion and a deletion by the same
transaction are seen or not seen together.

## Main definitions

* `Snapshot.Counts`: transactions whose changes a snapshot counts
* `VersionChain`: chains of versions

## Main results

* `isVisible_iff`: a version is seen if its insertion counts and its deletion does not
* `filter_isVisible_of_counts`, `not_isVisible_of_not_counts`: the version that is seen
* `one_version_visible`
-/

namespace PullQuery

/-- Whether a snapshot counts the changes of a transaction: its own, and those of transactions
that had finished when it was taken and were not aborted. -/
def Snapshot.Counts (aborted : List TxId) (s : Snapshot) (x : TxId) : Prop :=
  x = s.current ∨ x ∉ aborted ∧ s.sawFinished x = true

/-- Whether versions follow each other: each is deleted by the transaction that inserts the next
one, and the last is not deleted. -/
inductive VersionChain : List HeapTuple → Prop where
  | last {t : HeapTuple} (hxmin : t.xmin ≠ TxId.none) (hxmax : t.xmax = TxId.none) :
    VersionChain [t]
  | cons {t u : HeapTuple} {ts : List HeapTuple} (hxmin : t.xmin ≠ TxId.none)
    (hxmax : t.xmax = u.xmin) (hrest : VersionChain (u :: ts)) : VersionChain (t :: u :: ts)

variable {aborted : List TxId} {s : Snapshot} {t : HeapTuple} {ts : List HeapTuple}

theorem VersionChain.xmin_ne (h : VersionChain ts) : ∀ t ∈ ts, t.xmin ≠ TxId.none := by
  induction h with
  | last hxmin hxmax =>
    intro t ht
    obtain rfl := List.mem_singleton.mp ht
    exact hxmin
  | cons hxmin hxmax hrest ih =>
    intro t ht
    rcases List.mem_cons.mp ht with rfl | ht
    · exact hxmin
    · exact ih t ht

/-! ## One version -/

theorem Snapshot.counts_iff {x : TxId} (hx : x ≠ TxId.none) :
    (s.isOwn x || committedBefore aborted s x) = true ↔ s.Counts aborted x := by
  simp [Snapshot.isOwn, committedBefore, Snapshot.Counts, TxId.isNone, hx]

/-- A version is seen if its insertion counts and it has no deletion that does. -/
theorem isVisible_iff (hany : s.isAny = false) (hxmin : t.xmin ≠ TxId.none) :
    isVisible aborted s t = true ↔
      s.Counts aborted t.xmin ∧ (t.xmax = TxId.none ∨ ¬ s.Counts aborted t.xmax) := by
  rw [isVisible, hany, Bool.false_or, Bool.and_eq_true, Snapshot.counts_iff hxmin,
    Bool.or_eq_true, TxId.isNone, beq_iff_eq]
  refine and_congr_right fun _ => ?_
  by_cases hxmax : t.xmax = TxId.none
  · simp [hxmax]
  · rw [← Snapshot.counts_iff hxmax]
    simp [hxmax]

/-! ## Chains -/

/-- Whether the transactions that a snapshot counts come first: each of them that is not the
first transaction has a predecessor that counts. -/
def CountsFirst (aborted : List TxId) (s : Snapshot) (ts : List HeapTuple) : Prop :=
  ts.IsChain fun t u => s.Counts aborted u.xmin → s.Counts aborted t.xmin

/-- If the first transaction does not count, then none does. -/
theorem CountsFirst.not_counts (h : CountsFirst aborted s (t :: ts))
    (hfirst : ¬ s.Counts aborted t.xmin) : ∀ u ∈ t :: ts, ¬ s.Counts aborted u.xmin := by
  induction ts generalizing t with
  | nil =>
    intro u hu
    obtain rfl := List.mem_singleton.mp hu
    exact hfirst
  | cons v ts ih =>
    obtain ⟨hstep, hrest⟩ := List.isChain_cons_cons.mp h
    have hsecond : ¬ s.Counts aborted v.xmin := fun hcounts => hfirst (hstep hcounts)
    intro u hu
    rcases List.mem_cons.mp hu with rfl | hu
    · exact hfirst
    · exact ih hrest hsecond u hu

/-- If the first transaction does not count, then no version is seen. -/
theorem not_isVisible_of_not_counts (hany : s.isAny = false) (hchain : VersionChain (t :: ts))
    (hcounts : CountsFirst aborted s (t :: ts)) (hfirst : ¬ s.Counts aborted t.xmin) :
    ∀ u ∈ t :: ts, isVisible aborted s u = false := by
  intro u hu
  rw [Bool.eq_false_iff]
  intro hvisible
  rw [isVisible_iff hany (hchain.xmin_ne u hu)] at hvisible
  exact hcounts.not_counts hfirst u hu hvisible.1

/-- If the first transaction counts, then the version of the last one that counts is seen, and no
other. -/
theorem filter_isVisible_of_counts (hany : s.isAny = false) (hchain : VersionChain (t :: ts))
    (hcounts : CountsFirst aborted s (t :: ts)) (hfirst : s.Counts aborted t.xmin) :
    ∃ before seen after, t :: ts = before ++ seen :: after ∧ s.Counts aborted seen.xmin ∧
      (∀ u ∈ after, ¬ s.Counts aborted u.xmin) ∧
      (t :: ts).filter (isVisible aborted s) = [seen] := by
  induction ts generalizing t with
  | nil =>
    cases hchain with
    | last hxmin hxmax =>
      have hvisible : isVisible aborted s t = true :=
        (isVisible_iff hany hxmin).mpr ⟨hfirst, .inl hxmax⟩
      exact ⟨[], t, [], rfl, hfirst, by simp, by simp [hvisible]⟩
  | cons u ts ih =>
    cases hchain with
    | cons hxmin hxmax hrest =>
      have hlater : CountsFirst aborted s (u :: ts) := (List.isChain_cons_cons.mp hcounts).2
      have hseen : isVisible aborted s t = true ↔ s.Counts aborted t.xmin ∧
          (u.xmin = TxId.none ∨ ¬ s.Counts aborted u.xmin) := hxmax ▸ isVisible_iff hany hxmin
      by_cases hsecond : s.Counts aborted u.xmin
      · -- The deletion of the first version counts, as the insertion of the second does.
        obtain ⟨before, seen, after, hsplit, hlast, hafter, hfilter⟩ := ih hrest hlater hsecond
        have hgone : ¬ isVisible aborted s t = true := fun hvisible =>
          (hseen.mp hvisible).2.elim (hrest.xmin_ne u (List.mem_cons_self ..))
            (fun hnot => hnot hsecond)
        refine ⟨t :: before, seen, after, ?_, hlast, hafter, ?_⟩
        · rw [hsplit, List.cons_append]
        · rw [List.filter_cons_of_neg hgone, hfilter]
      · -- The deletion does not count, and neither does anything behind it.
        have hvisible : isVisible aborted s t = true := hseen.mpr ⟨hfirst, .inr hsecond⟩
        have hnone := not_isVisible_of_not_counts hany hrest hlater hsecond
        refine ⟨[], t, u :: ts, rfl, hfirst, hlater.not_counts hsecond, ?_⟩
        rw [List.filter_cons_of_pos hvisible, List.filter_eq_nil_iff.mpr]
        simpa using hnone

/-- Of a chain of versions whose transactions that a snapshot counts come first, the snapshot sees
exactly one version, that of the last transaction that counts; if the first does not count, it
sees none. -/
theorem one_version_visible (aborted : List TxId) {s : Snapshot} (hany : s.isAny = false)
    {t : HeapTuple} {ts : List HeapTuple} (hchain : VersionChain (t :: ts))
    (hcounts : CountsFirst aborted s (t :: ts)) :
    (s.Counts aborted t.xmin →
      ∃ before seen after, t :: ts = before ++ seen :: after ∧ s.Counts aborted seen.xmin ∧
        (∀ u ∈ after, ¬ s.Counts aborted u.xmin) ∧
        (t :: ts).filter (isVisible aborted s) = [seen]) ∧
    (¬ s.Counts aborted t.xmin → (t :: ts).filter (isVisible aborted s) = []) := by
  constructor
  · exact filter_isVisible_of_counts hany hchain hcounts
  · intro hfirst
    have hnone := not_isVisible_of_not_counts hany hchain hcounts hfirst
    exact List.filter_eq_nil_iff.mpr fun u hu => Bool.eq_false_iff.mp (hnone u hu)

/-- A snapshot for transaction 12, taken while 14 was in progress. -/
def for12 : Snapshot := (Snapshot.ofBounds 10 20 [14]).withCurrent 12

/-- Transaction 5 inserted a row, 12 changed it, and 14 did so again. -/
def changedTwice : List HeapTuple :=
  [⟨⟨0, 1⟩, 5, 12, ⟨[.int64 1]⟩⟩, ⟨⟨0, 2⟩, 12, 14, ⟨[.int64 2]⟩⟩,
    ⟨⟨0, 3⟩, 14, TxId.none, ⟨[.int64 3]⟩⟩]

theorem one_version_visible_changedTwice :
    for12.isAny = false ∧ VersionChain changedTwice ∧ CountsFirst [] for12 changedTwice ∧
      for12.Counts [] 5 ∧
      ∃ seen, for12.Counts [] seen.xmin ∧ changedTwice.filter (isVisible [] for12) = [seen] := by
  have hchain : VersionChain changedTwice :=
    .cons (by decide) rfl (.cons (by decide) rfl (.last (by decide) rfl))
  have hfirst : for12.Counts [] 5 := .inr ⟨by decide, by decide⟩
  have hcounts : CountsFirst [] for12 changedTwice :=
    List.isChain_cons_cons.mpr ⟨fun _ => hfirst,
      List.isChain_cons_cons.mpr ⟨fun _ => .inl rfl, List.isChain_singleton _⟩⟩
  obtain ⟨-, seen, -, -, hseen, -, hfilter⟩ := (one_version_visible [] rfl hchain hcounts).1 hfirst
  exact ⟨rfl, hchain, hcounts, hfirst, seen, hseen, hfilter⟩

end PullQuery
