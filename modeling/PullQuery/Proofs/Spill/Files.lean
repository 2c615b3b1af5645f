import Mathlib.Data.List.Perm.Basic
import PullQuery.Proofs.Spill.RoundTrip
import PullQuery.Spill.Store

/-!
# Spill files as lists of tuples

A store that was only written to through `append` and `takeBatch` is sound: each of its files
holds the encodings of a list of tuples. On such stores appending adds a tuple at the end of
one list, and taking a batch returns its list and empties it.

## Main definitions

* `SpillStore.tuples`: the tuples in the file of a batch
* `SpillStore.contents`: the tuples in all files
* `SpillStore.Sound`

## Main results

* `SpillStore.Sound.tuples_append`, `SpillStore.Sound.takeBatch_eq`, `SpillStore.tuples_clear`
* `SpillStore.Sound.contents_append`, `SpillStore.contents_clear`: what becomes of all tuples
-/

namespace PullQuery

open SpilledTuple (readAll encodeAll)

/-! ## Replacing one list among many -/

/-- Writing a key exchanges its old elements for its new ones. -/
theorem Assoc.count_flatMap_put {κ β γ : Type} [DecidableEq κ] [DecidableEq γ] (g : β → List γ)
    (key : κ) (value : β) (xs : List (κ × β)) (a : γ) :
    ((put key value xs).flatMap fun x => g x.2).count a +
        (((find? key xs).map g).getD []).count a =
      (xs.flatMap fun x => g x.2).count a + (g value).count a := by
  induction xs with
  | nil => simp [put, find?]
  | cons x xs ih =>
    unfold put find?
    split
    · -- This element is the one that is replaced; all others stay.
      simp only [List.flatMap_cons, List.count_append, Option.map_some, Option.getD_some]
      omega
    · simp only [List.flatMap_cons, List.count_append]
      omega

namespace SpillStore

variable {s s' : SpillStore} {x : SpilledTuple} {batch : Nat}

/-- The tuples in the file of a batch, in order. -/
def tuples (s : SpillStore) (batch : Nat) : List SpilledTuple := (readAll (s.file batch).data).1

/-- The tuples in all files. -/
def contents (s : SpillStore) : List SpilledTuple := s.files.flatMap fun f => (readAll f.2.data).1

/-- Whether each file holds the encodings of its tuples and counts them. -/
def Sound (s : SpillStore) : Prop :=
  ∀ b, encodeAll (s.tuples b) = .ok (s.file b).data ∧ s.batchSize b = (s.tuples b).length

theorem tuples_eq {ts : List SpilledTuple} (h : encodeAll ts = .ok (s.file batch).data) :
    s.tuples batch = ts := by
  rw [tuples, SpilledTuple.readAll_encodeAll h]

/-- A list of tuples for each file shows that a store is sound. -/
theorem sound_of_files (ts : Nat → List SpilledTuple)
    (hdata : ∀ b, encodeAll (ts b) = .ok (s.file b).data)
    (hsize : ∀ b, (s.file b).tuples = (ts b).length) : s.Sound := by
  intro b
  rw [tuples_eq (hdata b)]
  exact ⟨hdata b, hsize b⟩

/-- When the file of one batch is exchanged, its old tuples go and its new ones come. -/
theorem count_contents_of_put (s s' : SpillStore) {f : BatchFile}
    (h : s'.files = Assoc.put batch f s.files) (y : SpilledTuple) :
    s'.contents.count y + (s.tuples batch).count y =
      s.contents.count y + (s'.tuples batch).count y := by
  have hcount :=
    Assoc.count_flatMap_put (fun f : BatchFile => (readAll f.data).1) batch f s.files y
  have hold : ((Assoc.find? batch s.files).map fun f => (readAll f.data).1).getD [] =
      s.tuples batch := by
    rw [tuples, file]
    cases Assoc.find? batch s.files <;> rfl
  have hnew : s'.tuples batch = (readAll f.data).1 := by
    rw [tuples, file, h, Assoc.find?_put, if_pos rfl, Option.getD_some]
  -- What `put` takes away and adds are the old and the new tuples of this file.
  rw [hold] at hcount
  rw [contents, h, hnew]
  exact hcount

/-! ## The empty store -/

theorem sound_empty (capacity? : Option Nat) : Sound { capacity? } :=
  sound_of_files (fun _ => []) (fun _ => rfl) fun _ => rfl

theorem tuples_empty (capacity? : Option Nat) (b : Nat) : tuples { capacity? } b = [] := rfl

/-! ## Appending -/

theorem append_eq_ok (h : s.append batch x = .ok s') :
    ∃ bytes, x.encode = .ok bytes ∧ s' = s.write batch bytes := by
  unfold append at h
  split at h
  · contradiction
  · next bytes hbytes =>
    split at h
    · contradiction
    · exact ⟨bytes, hbytes, (Except.ok.inj h).symm⟩

theorem capacity_append (h : s.append batch x = .ok s') : s'.capacity? = s.capacity? := by
  obtain ⟨bytes, -, rfl⟩ := append_eq_ok h
  rfl

/-- Without a capacity every storable tuple is accepted. -/
theorem exists_append (hs : s.capacity? = none) (hx : x.Storable) (batch : Nat) :
    ∃ s', s.append batch x = .ok s' := by
  obtain ⟨bytes, hbytes⟩ := SpilledTuple.exists_encode_iff.mpr hx
  exact ⟨s.write batch bytes, by simp [append, hbytes, exceeds, hs]⟩

namespace Sound

theorem encodeAll_append (hs : s.Sound) (h : s.append batch x = .ok s') (b : Nat) :
    encodeAll (if b = batch then s.tuples b ++ [x] else s.tuples b) = .ok (s'.file b).data := by
  obtain ⟨bytes, hbytes, rfl⟩ := append_eq_ok h
  rw [file_write]
  split
  · next hb =>
    subst hb
    refine SpilledTuple.encodeAll_append (hs b).1 ?_
    exact SpilledTuple.encodeAll_cons_eq_ok.mpr ⟨bytes, [], hbytes, rfl, by simp⟩
  · exact (hs b).1

/-- Appending adds a tuple at the end of one file. -/
theorem tuples_append (hs : s.Sound) (h : s.append batch x = .ok s') (b : Nat) :
    s'.tuples b = if b = batch then s.tuples b ++ [x] else s.tuples b :=
  tuples_eq (hs.encodeAll_append h b)

theorem append (hs : s.Sound) (h : s.append batch x = .ok s') : s'.Sound := by
  refine sound_of_files _ (hs.encodeAll_append h) ?_
  intro b
  have hsize : (s.file b).tuples = (s.tuples b).length := (hs b).2
  obtain ⟨bytes, -, rfl⟩ := append_eq_ok h
  rw [file_write]
  split
  · next hb => simp [← hb, hsize]
  · exact hsize

theorem contents_append (hs : s.Sound) (h : s.append batch x = .ok s') :
    s'.contents.Perm (x :: s.contents) := by
  have hnew := hs.tuples_append h batch
  rw [if_pos rfl] at hnew
  obtain ⟨bytes, -, rfl⟩ := append_eq_ok h
  apply List.perm_iff_count.mpr
  intro y
  have hcount := count_contents_of_put s (s.write batch bytes) rfl y
  simp only [hnew, List.count_append, List.count_cons, List.count_nil] at hcount ⊢
  omega

theorem storable (hs : s.Sound) {b : Nat} : ∀ y ∈ s.tuples b, y.Storable :=
  SpilledTuple.storable_of_encodeAll (hs b).1

theorem batchSize_eq_zero_iff (hs : s.Sound) {b : Nat} :
    s.batchSize b = 0 ↔ s.tuples b = [] := by
  rw [(hs b).2, List.length_eq_zero_iff]

/-! ## Taking -/

/-- The file of a sound store can always be read. -/
theorem takeBatch_eq (hs : s.Sound) (batch : Nat) :
    s.takeBatch batch = (.ok (s.tuples batch), s.clear batch) := by
  rw [takeBatch, SpilledTuple.readAll_encodeAll (hs batch).1]

end Sound

theorem tuples_clear (s : SpillStore) (batch b : Nat) :
    (s.clear batch).tuples b = if b = batch then [] else s.tuples b := by
  rw [tuples, file_clear]
  split <;> rfl

theorem Sound.clear (hs : s.Sound) (batch : Nat) : (s.clear batch).Sound := by
  intro b
  rw [tuples_clear, batchSize, file_clear]
  split
  · exact ⟨rfl, rfl⟩
  · exact hs b

theorem contents_clear (s : SpillStore) (batch : Nat) :
    (s.tuples batch ++ (s.clear batch).contents).Perm s.contents := by
  apply List.perm_iff_count.mpr
  intro y
  have hcount := count_contents_of_put s (s.clear batch) rfl y
  simp only [tuples_clear, if_pos, List.count_nil, List.count_append] at hcount ⊢
  omega

end SpillStore

end PullQuery
