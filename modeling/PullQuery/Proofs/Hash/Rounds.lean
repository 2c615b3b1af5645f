import PullQuery.Proofs.Hash.Reservations

/-!
# Placing a row in rounds

A row is placed in rounds. A round ends with the row in memory or in its file, or it doubles the
batches and another one follows. Rounds come to an end whatever the row and the budget are: each
doubling uses up one of those that the table has left. A doubling moves the rows of each file that
there was before it at most once.

## Main definitions

* `HashTable.Round`, `HashTable.round`: what one round comes to
* `HashTable.Rounds`: rounds up to an answer, with the tables that are doubled meanwhile
* `HashTable.visits`, `HashTable.splitOver`: the files that a doubling takes

## Main results

* `HashTable.split_eq_splitOver`, `HashTable.nodup_visits`: each file is taken at most once
* `HashTable.Rounds.length_le`, `HashTable.exists_rounds`, `HashTable.Rounds.unique`
* `HashTable.placement_terminates`
-/

namespace PullQuery

namespace HashTable

variable {t t' : HashTable} {x : SpilledTuple}

/-! ## Files that a doubling takes -/

/-- Moves the rows of given files in turn. -/
def refileEach : List Nat → HashTable → Except StorageFault Unit × HashTable
  | [], t => (.ok (), t)
  | b :: bs, t =>
    match t.refile b with
    | (.error e, t) => (.error e, t)
    | (.ok (), t) => refileEach bs t

/-- The files among given ones that `refileAll` takes, in order. -/
def takenFiles : List Nat → HashTable → List Nat
  | [], _ => []
  | b :: bs, t =>
    if b = t.current ∨ t.store.batchSize b = 0 then takenFiles bs t
    else
      b ::
        match t.refile b with
        | (.error _, _) => []
        | (.ok (), t) => takenFiles bs t

theorem refileAll_eq_refileEach (bs : List Nat) (t : HashTable) :
    refileAll bs t = refileEach (takenFiles bs t) t := by
  induction bs generalizing t with
  | nil => rfl
  | cons b bs ih =>
    rw [refileAll, takenFiles]
    split
    · exact ih t
    · rw [refileEach]
      rcases t.refile b with ⟨e | ⟨⟩, t₁⟩
      · rfl
      · exact ih t₁

theorem takenFiles_sublist (bs : List Nat) (t : HashTable) : (takenFiles bs t).Sublist bs := by
  induction bs generalizing t with
  | nil => exact .slnil
  | cons b bs ih =>
    rw [takenFiles]
    split
    · exact (ih t).cons b
    · refine .cons_cons b ?_
      split
      · exact List.nil_sublist bs
      · exact ih _

theorem ne_current_of_mem_takenFiles {b : Nat} {bs : List Nat} (h : b ∈ takenFiles bs t) :
    b ≠ t.current := by
  induction bs generalizing t with
  | nil => contradiction
  | cons c bs ih =>
    rw [takenFiles] at h
    split at h
    · exact ih h
    · next hother =>
      rcases List.mem_cons.mp h with rfl | h
      · exact fun hcurrent => hother (.inl hcurrent)
      · split at h
        · contradiction
        · next t₁ hrefile =>
          have hsame := (unmoved_refile t c).current
          rw [hrefile] at hsame
          exact hsame ▸ ih h

/-- Doubles the batches and moves the rows in memory. -/
def resettle (t : HashTable) : Except StorageFault Unit × HashTable :=
  forEach settle t.resident { t.clearResident with logBatches := t.logBatches + 1 }

/-- Doubles the batches, moves the rows in memory and then those of given files. -/
def splitOver (files : List Nat) (t : HashTable) : Except StorageFault Unit × HashTable :=
  match t.resettle with
  | (.error e, t') => (.error e, t')
  | (.ok (), t') =>
    let useless := t'.resident.length = t.resident.length ∨ t'.resident.length = 0
    match refileEach files t' with
    | (.error e, t') => (.error e, t')
    | (.ok (), t') => (.ok (), if useless then { t' with growth := false } else t')

/-- The files that a doubling takes, in order. -/
def visits (t : HashTable) : List Nat :=
  match t.resettle with
  | (.error _, _) => []
  | (.ok (), t') => takenFiles (List.range t.batchCount) t'

/-- A doubling moves the rows of the files that it takes, and of no others. -/
theorem split_eq_splitOver (t : HashTable) : t.split = t.splitOver t.visits := by
  rw [split, splitOver, visits, ← resettle]
  rcases t.resettle with ⟨e | ⟨⟩, t₁⟩
  · rfl
  · dsimp only
    generalize hrefiled : refileAll (List.range t.batchCount) t₁ = refiled
    rw [refileAll_eq_refileEach] at hrefiled
    subst hrefiled
    rfl

theorem visits_sublist (t : HashTable) : t.visits.Sublist (List.range t.batchCount) := by
  rw [visits]
  split
  · exact List.nil_sublist _
  · exact takenFiles_sublist _ _

/-- No file is taken twice. -/
theorem nodup_visits (t : HashTable) : t.visits.Nodup :=
  t.visits_sublist.nodup List.nodup_range

/-- The files that are taken are those of old batches that are not in memory. -/
theorem of_mem_visits {b : Nat} (h : b ∈ t.visits) : b < t.batchCount ∧ b ≠ t.current := by
  refine ⟨List.mem_range.mp (t.visits_sublist.subset h), ?_⟩
  have hkeeps : t.resettle.2.current = t.current :=
    forEach_keeps (P := fun t₁ => t₁.current = t.current)
      (fun t₁ x h => (unmoved_settle t₁ x).current.trans h) t.resident rfl
  rw [visits] at h
  split at h
  · contradiction
  · next hsettle =>
    rw [hsettle] at hkeeps
    exact hkeeps ▸ ne_current_of_mem_takenFiles h

/-! ## Rounds -/

/-- What a round of placing a row comes to. -/
inductive Round where
  /-- The row is in memory or in its file, or cannot be written to it. -/
  | placed (answer : Except StorageFault Unit × HashTable)
  /-- The batches are doubled, or this has failed. -/
  | doubled (answer : Except StorageFault Unit × HashTable)

/-- Puts a row into its file or into memory that is reserved for it. After a refused reservation a
table that can grow is doubled, and any other one keeps the row all the same. -/
def round (t : HashTable) (x : SpilledTuple) : Round :=
  if t.batchOf x.hash ≠ t.current then .placed (t.spill (t.batchOf x.hash) x)
  else
    match t.reserve x.size with
    | .ok () => .placed (.ok (), t.keep x)
    | .error _ => if t.canGrow then .doubled t.split else .placed (.ok (), t.keep x)

/-- Rounds up to an answer: another round follows when the batches are doubled. The list has the
tables that are doubled on the way, also the one whose doubling fails. -/
inductive Rounds (x : SpilledTuple) :
    HashTable → List HashTable → Except StorageFault Unit × HashTable → Prop where
  | placed {t answer} (h : t.round x = .placed answer) : Rounds x t [] answer
  | failed {t t' : HashTable} {e} (h : t.round x = .doubled (.error e, t')) :
    Rounds x t [t] (.error e, t')
  | again {t t' : HashTable} {ds answer} (h : t.round x = .doubled (.ok (), t'))
    (hrest : Rounds x t' ds answer) : Rounds x t (t :: ds) answer

theorem round_of_ne (h : t.batchOf x.hash ≠ t.current) :
    t.round x = .placed (t.spill (t.batchOf x.hash) x) := if_pos h

theorem round_of_mustSplit (h : t.MustSplit x) (hleft : 0 < t.splitsLeft) :
    t.round x = .doubled t.split := by
  obtain ⟨hcurrent, hfull, hgrowth⟩ := h
  have hgrow : t.canGrow = true := by rw [canGrow_eq, hgrowth, decide_eq_true hleft, Bool.and_self]
  rw [round, if_neg (not_not.mpr hcurrent), reserve_of_lt hfull]
  exact if_pos hgrow

theorem round_of_not_mustSplit (hcurrent : t.batchOf x.hash = t.current)
    (h : t.MustSplit x → t.splitsLeft = 0) : t.round x = .placed (.ok (), t.keep x) := by
  rw [round, if_neg (not_not.mpr hcurrent)]
  rcases Nat.lt_or_ge t.workMem (t.used + x.size) with hfull | hroom
  · have hgrow : ¬ t.canGrow = true := by
      rw [canGrow_eq, Bool.and_eq_true, decide_eq_true_eq, not_and, Nat.not_lt, Nat.le_zero]
      exact fun hgrowth => h ⟨hcurrent, hfull, hgrowth⟩
    rw [reserve_of_lt hfull]
    exact if_neg hgrow
  · rw [reserve_of_le hroom]

/-- What a round may do: it writes the row to its file, it keeps the row in memory, or it doubles a
table that has splits left. -/
theorem round_cases (t : HashTable) (x : SpilledTuple) :
    (t.batchOf x.hash ≠ t.current ∧ t.round x = .placed (t.spill (t.batchOf x.hash) x)) ∨
    (t.batchOf x.hash = t.current ∧ t.round x = .placed (.ok (), t.keep x)) ∨
    (0 < t.splitsLeft ∧ t.round x = .doubled t.split) := by
  by_cases hcurrent : t.batchOf x.hash = t.current
  · by_cases hmust : t.MustSplit x ∧ 0 < t.splitsLeft
    · exact .inr (.inr ⟨hmust.2, round_of_mustSplit hmust.1 hmust.2⟩)
    · refine .inr (.inl ⟨hcurrent, round_of_not_mustSplit hcurrent fun h => ?_⟩)
      exact Nat.le_zero.mp (Nat.not_lt.mp fun hleft => hmust ⟨h, hleft⟩)
  · exact .inl ⟨hcurrent, round_of_ne hcurrent⟩

theorem of_round_doubled {answer : Except StorageFault Unit × HashTable}
    (h : t.round x = .doubled answer) : t.split = answer ∧ 0 < t.splitsLeft := by
  obtain ⟨-, hround⟩ | ⟨-, hround⟩ | ⟨hleft, hround⟩ := round_cases t x <;>
    cases hround.symm.trans h
  exact ⟨rfl, hleft⟩

namespace Rounds

variable {ds ds' : List HashTable} {answer answer' : Except StorageFault Unit × HashTable}

/-- What a round comes to decides how the rounds go on. -/
theorem unique (h : Rounds x t ds answer) (h' : Rounds x t ds' answer') :
    ds' = ds ∧ answer' = answer := by
  induction h generalizing ds' with
  | placed h =>
    rcases h' with h' | h' | ⟨h', -⟩ <;> cases h.symm.trans h'
    exact ⟨rfl, rfl⟩
  | failed h =>
    rcases h' with h' | h' | ⟨h', -⟩ <;> cases h.symm.trans h'
    exact ⟨rfl, rfl⟩
  | again h _ ih =>
    rcases h' with h' | h' | ⟨h', hrest'⟩ <;> cases h.symm.trans h'
    obtain ⟨rfl, rfl⟩ := ih hrest'
    exact ⟨rfl, rfl⟩

/-- Each doubling uses up one of the splits that are left. -/
theorem length_le (h : Rounds x t ds answer) : ds.length ≤ t.splitsLeft := by
  induction h with
  | placed _ => exact Nat.zero_le _
  | failed h => exact (of_round_doubled h).2
  | @again t t' _ _ h _ ih =>
    obtain ⟨hsplit, hleft⟩ := of_round_doubled h
    have hused : t'.splitsLeft = t.splitsLeft - 1 := by rw [← splitsLeft_split, hsplit]
    rw [List.length_cons]
    omega

/-- A table that is doubled has fewer batches than the limit, which stays the same. -/
theorem of_mem (h : Rounds x t ds answer) {d : HashTable} (hd : d ∈ ds) :
    d.logMaxBatches = t.logMaxBatches ∧ d.logBatches < d.logMaxBatches := by
  induction h with
  | placed _ => contradiction
  | failed h =>
    obtain rfl := List.mem_singleton.mp hd
    exact ⟨rfl, Nat.lt_of_sub_pos (of_round_doubled h).2⟩
  | @again t t' _ _ h _ ih =>
    obtain ⟨hsplit, hleft⟩ := of_round_doubled h
    rcases List.mem_cons.mp hd with rfl | hd
    · exact ⟨rfl, Nat.lt_of_sub_pos hleft⟩
    · have hmax : t'.logMaxBatches = t.logMaxBatches := by
        rw [← (logs_split t).2.1, hsplit]
      obtain ⟨hmax', hless⟩ := ih hd
      exact ⟨hmax'.trans hmax, hless⟩

/-- The table that was given, or one that a doubling has left, keeps the row, writes it to its file
or is refused by the file, or fails to be doubled. -/
theorem answer_cases (h : Rounds x t ds answer) :
    ∃ u : HashTable, (u = t ∨ ∃ d ∈ ds, d.split = (.ok (), u)) ∧
      (answer = (.ok (), u.keep x) ∨ answer = u.spill (u.batchOf x.hash) x ∨
        answer = u.split ∧ answer.1.isOk = false) := by
  induction h with
  | @placed t answer h =>
    refine ⟨t, .inl rfl, ?_⟩
    obtain ⟨-, hround⟩ | ⟨-, hround⟩ | ⟨-, hround⟩ := round_cases t x <;> cases hround.symm.trans h
    · exact .inr (.inl rfl)
    · exact .inl rfl
  | @failed t _ _ h => exact ⟨t, .inl rfl, .inr (.inr ⟨(of_round_doubled h).1.symm, rfl⟩)⟩
  | @again t t' ds _ h _ ih =>
    obtain ⟨u, hu, hanswer⟩ := ih
    refine ⟨u, .inr ?_, hanswer⟩
    rcases hu with rfl | ⟨d, hd, hsplit⟩
    · exact ⟨t, List.mem_cons_self .., (of_round_doubled h).1⟩
    · exact ⟨d, List.mem_cons_of_mem t hd, hsplit⟩

end Rounds

/-- Rounds come to an end with the answer of `route`. -/
theorem exists_rounds (t : HashTable) (x : SpilledTuple) : ∃ ds, Rounds x t ds (t.route x) := by
  -- The recursion is on the splits that are left: a doubling uses up one of them.
  rcases hroute : t.route x with ⟨r, t'⟩
  obtain ⟨hother, hspill⟩ | ⟨hcurrent, hnone, rfl, rfl⟩ | ⟨hmust, left, hleft, hsplit⟩ :=
    place_cases hroute
  · exact ⟨[], .placed (hspill ▸ round_of_ne hother)⟩
  · exact ⟨[], .placed (round_of_not_mustSplit hcurrent hnone)⟩
  · have hround := round_of_mustSplit hmust (by omega)
    obtain ⟨e, hfails, rfl⟩ | ⟨t₁, hsplits, hplace⟩ := hsplit
    · rw [hfails] at hround
      exact ⟨[t], .failed hround⟩
    · rw [hsplits] at hround
      have hused : t₁.splitsLeft = t.splitsLeft - 1 := by rw [← splitsLeft_split, hsplits]
      rw [hleft, Nat.add_sub_cancel] at hused
      obtain ⟨ds, hrest⟩ := exists_rounds t₁ x
      rw [route, hused, hplace] at hrest
      exact ⟨t :: ds, .again hround hrest⟩
termination_by t.splitsLeft

/-- The splits that are left are the binary logarithm of how many times the batches fit the
limit. -/
theorem splitsLeft_eq_log2 (t : HashTable) :
    t.splitsLeft = Nat.log2 ((1 <<< t.logMaxBatches) / t.batchCount) := by
  rw [splitsLeft, batchCount, Nat.one_shiftLeft, Nat.one_shiftLeft]
  rcases Nat.lt_or_ge t.logMaxBatches t.logBatches with hlt | hle
  · rw [Nat.div_eq_of_lt (Nat.pow_lt_pow_right (by decide) hlt), Nat.log2_zero]
    omega
  · rw [Nat.pow_div hle (by decide), Nat.log2_two_pow]

/-- Whatever a table holds and whatever row is placed in it, of any size and with any budget, the
rounds come to an end, in just one way and with the answer of `route`. The batches are doubled no
more often than the limit allows, each time to twice as many, and a doubling takes each old file at
most once. In the end the row is in memory or in its file, or a file could not be read or
written. -/
theorem placement_terminates (t : HashTable) (x : SpilledTuple) :
    ∃ ds, Rounds x t ds (t.route x) ∧
      (∀ ds' answer, Rounds x t ds' answer → ds' = ds ∧ answer = t.route x) ∧
      ds.length ≤ Nat.log2 ((1 <<< t.logMaxBatches) / t.batchCount) ∧
      (∀ d ∈ ds, d.batchCount < d.split.2.batchCount ∧
        d.split.2.batchCount ≤ 1 <<< t.logMaxBatches ∧
        d.split = d.splitOver d.visits ∧ d.visits.Nodup ∧
        ∀ b ∈ d.visits, b < d.batchCount ∧ b ≠ d.current) ∧
      ∃ u : HashTable, (u = t ∨ ∃ d ∈ ds, d.split = (.ok (), u)) ∧
        (t.route x = (.ok (), u.keep x) ∨ t.route x = u.spill (u.batchOf x.hash) x ∨
          t.route x = u.split ∧ (t.route x).1.isOk = false) := by
  obtain ⟨ds, hrounds⟩ := exists_rounds t x
  refine ⟨ds, hrounds, fun _ _ h => hrounds.unique h, ?_, ?_, hrounds.answer_cases⟩
  · rw [← splitsLeft_eq_log2]
    exact hrounds.length_le
  · intro d hd
    obtain ⟨hmax, hless⟩ := hrounds.of_mem hd
    refine ⟨?_, ?_, split_eq_splitOver d, nodup_visits d, fun _ => of_mem_visits⟩
    · have hpos := batchCount_pos d
      rw [batchCount_split]
      omega
    · rw [batchCount, (logs_split d).2.2, ← hmax, Nat.one_shiftLeft, Nat.one_shiftLeft]
      exact Nat.pow_le_pow_right (by decide) hless

-- An empty table without a budget is doubled once, which moves nothing, and keeps the row.
example : ((ofConfig (.single 0 4) {}).route ⟨0, ⟨[.int32 1]⟩⟩).2.batchCount = 2 := by decide

end HashTable

end PullQuery
