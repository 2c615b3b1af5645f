import Mathlib.Data.List.Perm.Basic
import PullQuery.Proofs.Hash.Rows

/-!
# The ledger of a hash table

What becomes of the rows of a table when rows are moved or added, also when the operation
fails on the way. An operation that succeeds keeps every row; one that fails keeps every row
but those that it had in hand and those it had not come to.

## Main definitions

* `HashTable.Accounts`: an outcome accounts for all rows, lost ones included

## Main results

* `HashTable.Accounts.forEach`: rows that are moved in turn
* `HashTable.accounts_split`, `HashTable.accounts_insert`, `HashTable.accounts_switchTo`
-/

namespace PullQuery

namespace HashTable

variable {t t₁ t₂ : HashTable} {xs ys : List SpilledTuple} {x : SpilledTuple}

/-- Whether the outcome `r` of adding the rows `xs` to `t` accounts for all rows: those that
are not stored afterwards are lost, and rows are lost exactly if the operation fails. -/
structure Accounts (xs : List SpilledTuple) (t : HashTable)
    (r : Except StorageFault Unit × HashTable) : Prop where
  sound : r.2.Sound
  balance : ∃ lost, (xs ++ t.stored).Perm (lost ++ r.2.stored) ∧ (r.1 = .ok () ↔ lost = [])

namespace Accounts

variable {r : Except StorageFault Unit × HashTable}

theorem ok (hs : t₁.Sound) (hperm : (xs ++ t.stored).Perm t₁.stored) :
    Accounts xs t (.ok (), t₁) :=
  ⟨hs, [], hperm, by simp⟩

theorem error {e : StorageFault} (lost : List SpilledTuple) (hs : t₁.Sound)
    (hperm : (xs ++ t.stored).Perm (lost ++ t₁.stored)) (hlost : lost ≠ []) :
    Accounts xs t (.error e, t₁) :=
  ⟨hs, lost, hperm, by simp [hlost]⟩

theorem stored_of_ok (h : Accounts xs t (.ok (), t₁)) : (xs ++ t.stored).Perm t₁.stored := by
  obtain ⟨lost, hperm, hlost⟩ := h.balance
  obtain rfl := hlost.mp rfl
  exact hperm

theorem lost_of_error {e : StorageFault} (h : Accounts xs t (.error e, t₁)) :
    ∃ lost, lost ≠ [] ∧ (xs ++ t.stored).Perm (lost ++ t₁.stored) := by
  obtain ⟨lost, hperm, hlost⟩ := h.balance
  exact ⟨lost, by simpa using hlost, hperm⟩

/-- The same rows may come from elsewhere. -/
theorem of_perm (h : Accounts xs t₁ r) (hperm : (ys ++ t.stored).Perm (xs ++ t₁.stored)) :
    Accounts ys t r := by
  obtain ⟨lost, hbalance, hlost⟩ := h.balance
  exact ⟨h.sound, lost, hperm.trans hbalance, hlost⟩

/-- An operation that goes on where one has succeeded. -/
theorem bind (h : Accounts xs t (.ok (), t₁)) (h' : Accounts ys t₁ r) :
    Accounts (ys ++ xs) t r :=
  h'.of_perm (by rw [List.append_assoc]; exact h.stored_of_ok.append_left ys)

/-- Rows that are added in turn. After the first failure the row in hand and those behind it
are lost. -/
theorem forEach {op : HashTable → SpilledTuple → Except StorageFault Unit × HashTable}
    (hop : ∀ t x, t.Sound → Accounts [x] t (op t x)) (ht : t.Sound) (xs : List SpilledTuple) :
    Accounts xs t (HashTable.forEach op xs t) := by
  induction xs generalizing t with
  | nil => exact .ok ht (.refl _)
  | cons x xs ih =>
    have hx := hop t x ht
    rw [HashTable.forEach]
    split
    · next e t₁ heq =>
      rw [heq] at hx
      obtain ⟨lost, hlost, hperm⟩ := hx.lost_of_error
      -- What the row in hand has cost, and all that was to come after it.
      refine .error (xs ++ lost) hx.sound ?_ (by simp [hlost])
      rw [List.append_assoc]
      exact List.perm_middle.symm.trans (hperm.append_left xs)
    · next t₁ heq =>
      rw [heq] at hx
      exact (hx.bind (ih hx.sound)).of_perm
        ((List.perm_append_singleton x xs).symm.append_right _)

end Accounts

/-! ## Single rows -/

theorem accounts_keep (h : t.Sound) (x : SpilledTuple) : Accounts [x] t (.ok (), t.keep x) := by
  refine .ok (h.keep x) ?_
  change (x :: (t.resident ++ t.store.contents)).Perm (t.resident ++ [x] ++ t.store.contents)
  rw [List.append_assoc]
  exact List.perm_middle.symm

theorem accounts_spill (h : t.Sound) (batch : Nat) (x : SpilledTuple) :
    Accounts [x] t (t.spill batch x) := by
  rcases hs : t.spill batch x with ⟨e | _, t₁⟩
  · obtain rfl := spill_eq_error hs
    exact .error [x] h (.refl _) (List.cons_ne_nil _ _)
  · have hsound := (Gains.spill h hs).sound
    obtain ⟨store, hstore, rfl⟩ := spill_eq_ok hs
    refine .ok hsound ?_
    change (x :: (t.resident ++ t.store.contents)).Perm (t.resident ++ store.contents)
    have hnew := (h.store.contents_append hstore).symm.append_left t.resident
    exact List.perm_middle.symm.trans hnew

theorem accounts_settle (h : t.Sound) (x : SpilledTuple) : Accounts [x] t (t.settle x) := by
  unfold settle
  split
  · exact accounts_keep h x
  · exact accounts_spill h _ x

/-! ## Splits -/

/-- The rows of a file that is emptied are in hand. -/
theorem stored_perm_clear (t : HashTable) (batch : Nat) :
    t.stored.Perm (t.store.tuples batch ++ { t with store := t.store.clear batch }.stored) := by
  have htaken := (t.store.contents_clear batch).symm.append_left t.resident
  exact htaken.trans (List.perm_append_comm_assoc _ _ _)

theorem accounts_refile (h : t.Sound) (batch : Nat) : Accounts [] t (t.refile batch) := by
  rw [refile, h.store.takeBatch_eq]
  have hcleared : Sound { t with store := t.store.clear batch } := ⟨h.store.clear batch, h.index⟩
  have hmoved := Accounts.forEach (fun t x ht => accounts_spill ht (t.batchOf x.hash) x) hcleared
    (t.store.tuples batch)
  exact hmoved.of_perm (stored_perm_clear t batch)

theorem accounts_refileAll (h : t.Sound) (bs : List Nat) : Accounts [] t (refileAll bs t) := by
  induction bs generalizing t with
  | nil => exact .ok h (.refl _)
  | cons b bs ih =>
    rw [refileAll]
    split
    · exact ih h
    · have hfile := accounts_refile h b
      split
      · next e t₁ heq => exact heq ▸ hfile
      · next t₁ heq =>
        rw [heq] at hfile
        exact hfile.bind (ih hfile.sound)

/-- Without its resident rows a table is sound, and they are in hand. -/
theorem Sound.clearResident (h : t.Sound) : t.clearResident.Sound :=
  ⟨h.store, indexed_clearResident t⟩

theorem accounts_split (h : t.Sound) : Accounts [] t t.split := by
  rw [split]
  -- The rows in memory are in hand as soon as it is emptied.
  have hempty : Sound { t.clearResident with logBatches := t.logBatches + 1 } :=
    ⟨h.clearResident.store, h.clearResident.index⟩
  have hresident : Accounts [] t _ :=
    (Accounts.forEach (fun t x ht => accounts_settle ht x) hempty t.resident).of_perm (.refl _)
  split
  · next e t₁ heq => exact heq ▸ hresident
  · next t₁ heq =>
    rw [heq] at hresident
    have hfiles := hresident.bind (accounts_refileAll hresident.sound (List.range t.batchCount))
    dsimp only
    split
    · next e t₂ heq => exact heq ▸ hfiles
    · next t₂ heq =>
      rw [heq] at hfiles
      refine .ok ?_ (hfiles.stored_of_ok.trans ?_)
      -- Whether growth is given up makes no difference to the rows.
      · split <;> exact ⟨hfiles.sound.store, hfiles.sound.index⟩
      · split <;> exact .refl _

/-! ## Rows that come in -/

theorem accounts_place (splits : Nat) (h : t.Sound) (x : SpilledTuple) :
    Accounts [x] t (place splits t x) := by
  induction splits using Nat.strongRecOn generalizing t with
  | ind splits ih =>
    rcases hp : place splits t x with ⟨r, t'⟩
    obtain ⟨-, hspill⟩ | ⟨-, -, rfl, rfl⟩ | ⟨-, n, rfl, ⟨e, hsplit, rfl⟩ | ⟨t₁, hsplit, hrest⟩⟩ :=
      place_cases hp
    · exact hspill ▸ accounts_spill h _ x
    · exact accounts_keep h x
    · -- The row in hand is lost with those that the split has lost.
      have hlost := hsplit ▸ accounts_split h
      obtain ⟨lost, -, hperm⟩ := hlost.lost_of_error
      exact .error (x :: lost) hlost.sound (hperm.cons x) (List.cons_ne_nil _ _)
    · have hkept := hsplit ▸ accounts_split h
      exact hkept.bind (hrest ▸ ih n (Nat.lt_succ_self n) hkept.sound)

theorem accounts_route (h : t.Sound) (x : SpilledTuple) : Accounts [x] t (t.route x) :=
  accounts_place t.splitsLeft h x

theorem accounts_insert (h : t.Sound) (x : SpilledTuple) : Accounts [x] t (t.insert x) :=
  (accounts_route (t := { t with total := t.total + 1 }) ⟨h.store, h.index⟩ x).of_perm (.refl _)

/-! ## Batches that come in -/

theorem accounts_switchTo (h : t.Sound) (batch : Nat) : Accounts [] t (t.switchTo batch) := by
  rw [switchTo]
  have hempty : Sound { t.clearResident with isFixed := true } :=
    ⟨h.clearResident.store, h.clearResident.index⟩
  have hresident : Accounts [] t _ :=
    (Accounts.forEach (fun t' x ht => accounts_spill ht t.current x) hempty t.resident).of_perm
      (.refl _)
  split
  · next e t₁ heq => exact heq ▸ hresident
  · next t₁ heq =>
    rw [heq] at hresident
    have hs₁ : t₁.Sound := hresident.sound
    simp only [hs₁.store.takeBatch_eq]
    have hcleared : Sound { t₁ with current := batch, store := t₁.store.clear batch } :=
      ⟨hs₁.store.clear batch, hs₁.index⟩
    have hloaded := Accounts.forEach (fun t x ht => accounts_route ht x) hcleared
      (t₁.store.tuples batch)
    have hrest : Accounts [] t₁ _ := hloaded.of_perm (stored_perm_clear t₁ batch)
    exact hresident.bind hrest

end HashTable

end PullQuery
