import Mathlib.Data.List.Perm.Basic
import PullQuery.Proofs.Requests
import PullQuery.Proofs.Spill.Files

/-!
# A spill store is a family of queues

A store answers as if it kept, for each batch, the queue of the tuples that it accepted for the
batch and has not handed out. What it counts are tuples that wait in queues and the bytes that
accepted tuples take.

## Main definitions

* `SpilledTuple.encodedSize`: how many bytes a tuple takes
* `SpillRequest`: what is asked of a store
* `SpillQueues`: queues of tuples that answer the same requests
* `SpillStore.Keeps`: a store keeps the tuples of queues

## Main results

* `SpilledTuple.length_encode`
* `SpillStore.simulates_serve`: one request
* `SpillStore.keeps_queues`: any requests
-/

namespace PullQuery

/-! ## Sums -/

theorem sumBy_map {α β : Type} (size : β → Nat) (f : α → β) (xs : List α) :
    sumBy size (xs.map f) = sumBy (fun x => size (f x)) xs := by
  induction xs with
  | nil => rfl
  | cons x xs ih => rw [List.map_cons, sumBy_cons, sumBy_cons, ih]

/-- The elements that pass a test and the others make up the whole. -/
theorem sumBy_filter_add {α : Type} (size : α → Nat) (p : α → Bool) (xs : List α) :
    sumBy size (xs.filter p) + sumBy size (xs.filter fun x => !p x) = sumBy size xs := by
  induction xs with
  | nil => rfl
  | cons x xs ih =>
    rcases hx : p x with _ | _ <;> simp [hx] <;> omega

/-! ## Sizes -/

/-- How many bytes a value takes. -/
def Value.encodedSize : Value → Nat
  | null => 1
  | boolean _ => 2
  | int32 _ => 5
  | int64 _ => 9
  | float64 _ => 9
  | string s => 5 + s.utf8ByteSize
  | bytes data => 5 + data.length

theorem length_encodeData {data bytes : List UInt8} (h : encodeData data = .ok bytes) :
    bytes.length = 4 + data.length := by
  unfold encodeData at h
  split at h
  · obtain rfl := Except.ok.inj h
    rw [List.length_append, length_littleEndian]
  · contradiction

theorem Value.length_encode {v : Value} {bytes : List UInt8} (h : v.encode = .ok bytes) :
    bytes.length = v.encodedSize := by
  cases v with
  | string s =>
    obtain ⟨data, hdata, rfl⟩ := exceptMap_eq_ok_iff.mp h
    rw [List.length_cons, length_encodeData hdata, length_utf8Bytes, encodedSize]
    omega
  | bytes data =>
    obtain ⟨encoded, hdata, rfl⟩ := exceptMap_eq_ok_iff.mp h
    rw [List.length_cons, length_encodeData hdata, encodedSize]
    omega
  | _ =>
    obtain rfl := Except.ok.inj h
    simp [encodedSize]

theorem length_encodeValues {vs : List Value} {bytes : List UInt8}
    (h : encodeValues vs = .ok bytes) : bytes.length = sumBy Value.encodedSize vs := by
  induction vs generalizing bytes with
  | nil =>
    obtain rfl := Except.ok.inj h
    rfl
  | cons v vs ih =>
    rw [encodeValues] at h
    split at h
    · contradiction
    · next front hfront =>
      obtain ⟨back, hback, rfl⟩ := exceptMap_eq_ok_iff.mp h
      rw [List.length_append, Value.length_encode hfront, ih hback, sumBy_cons]

namespace SpilledTuple

/-- How many bytes a tuple takes. -/
def encodedSize (t : SpilledTuple) : Nat := 6 + sumBy Value.encodedSize t.row.values

theorem length_encode {t : SpilledTuple} {bytes : List UInt8} (h : t.encode = .ok bytes) :
    bytes.length = t.encodedSize := by
  rw [encode] at h
  split at h
  · obtain ⟨values, hvalues, rfl⟩ := exceptMap_eq_ok_iff.mp h
    simp only [List.length_append, length_littleEndian, length_encodeValues hvalues, encodedSize]
    omega
  · contradiction

theorem length_encodeAll {ts : List SpilledTuple} {bytes : List UInt8}
    (h : encodeAll ts = .ok bytes) : bytes.length = sumBy encodedSize ts := by
  induction ts generalizing bytes with
  | nil =>
    obtain rfl := Except.ok.inj h
    rfl
  | cons t ts ih =>
    obtain ⟨front, back, hfront, hback, rfl⟩ := encodeAll_cons_eq_ok.mp h
    rw [List.length_append, length_encode hfront, ih hback, sumBy_cons]

end SpilledTuple

/-! ## Requests -/

/-- What is asked of a store of tuples. -/
inductive SpillRequest where
  | append (batch : Nat) (t : SpilledTuple)
  | take (batch : Nat)

/-- Serves a request, and gives the tuples that are handed out. A failure to append leaves the
store as it was. -/
def SpillStore.serve (s : SpillStore) :
    SpillRequest → Except StorageFault (List SpilledTuple) × SpillStore
  | .append batch t =>
    match s.append batch t with
    | .error e => (.error e, s)
    | .ok s' => (.ok [], s')
  | .take batch => s.takeBatch batch

/-- Queues of tuples, one for each batch. -/
structure SpillQueues where
  /-- The most bytes that the waiting tuples may take. -/
  capacity? : Option Nat
  /-- The tuples in all queues with their batches, in order of arrival. -/
  waiting : List (Nat × SpilledTuple) := []
  /-- All tuples that ever came in. -/
  accepted : List SpilledTuple := []

namespace SpillQueues

/-- The queue of a batch. -/
def queue (q : SpillQueues) (batch : Nat) : List SpilledTuple :=
  (q.waiting.filter fun x => x.1 = batch).map (·.2)

/-- The bytes that the waiting tuples take. -/
def held (q : SpillQueues) : Nat := sumBy (·.2.encodedSize) q.waiting

/-- The bytes that all tuples take that ever came in. -/
def written (q : SpillQueues) : Nat := sumBy SpilledTuple.encodedSize q.accepted

/-- Whether so many bytes more would exceed the capacity. -/
def Full (q : SpillQueues) (bytes : Nat) : Prop := ∃ c, q.capacity? = some c ∧ c < q.held + bytes

instance (q : SpillQueues) (bytes : Nat) : Decidable (q.Full bytes) :=
  match h : q.capacity? with
  | none => isFalse (by simp [Full, h])
  | some c => decidable_of_iff (c < q.held + bytes) (by simp [Full, h])

/-- A tuple that arrives goes to the end of its queue, if there is room. -/
def arrive (q : SpillQueues) (batch : Nat) (t : SpilledTuple) : SpillQueues :=
  { q with waiting := q.waiting ++ [(batch, t)], accepted := q.accepted ++ [t] }

/-- All tuples of a queue leave. -/
def leave (q : SpillQueues) (batch : Nat) : SpillQueues :=
  { q with waiting := q.waiting.filter fun x => x.1 ≠ batch }

/-- Serves a request as a store does. -/
def serve (q : SpillQueues) : SpillRequest → Except StorageFault (List SpilledTuple) × SpillQueues
  | .append batch t =>
    match t.encode with
    | .error e => (.error e, q)
    | .ok _ =>
      if q.Full t.encodedSize then (.error (.spaceExhausted q.held (q.capacity?.getD 0)), q)
      else (.ok [], q.arrive batch t)
  | .take batch => (.ok (q.queue batch), q.leave batch)

theorem capacity_serve (q : SpillQueues) (r : SpillRequest) :
    (q.serve r).2.capacity? = q.capacity? := by
  cases r with
  | append batch t =>
    rw [serve]
    split
    · rfl
    · split <;> rfl
  | take batch => rfl

theorem queue_arrive (q : SpillQueues) (batch : Nat) (t : SpilledTuple) (b : Nat) :
    (q.arrive batch t).queue b = if b = batch then q.queue b ++ [t] else q.queue b := by
  by_cases hb : b = batch
  · simp [queue, arrive, hb]
  · simp [queue, arrive, hb, Ne.symm hb]

theorem held_arrive (q : SpillQueues) (batch : Nat) (t : SpilledTuple) :
    (q.arrive batch t).held = q.held + t.encodedSize := by
  simp [held, arrive, sumBy_append]

theorem written_arrive (q : SpillQueues) (batch : Nat) (t : SpilledTuple) :
    (q.arrive batch t).written = q.written + t.encodedSize := by
  simp [written, arrive, sumBy_append]

theorem queue_leave (q : SpillQueues) (batch b : Nat) :
    (q.leave batch).queue b = if b = batch then [] else q.queue b := by
  rw [queue, leave, List.filter_filter]
  split
  · next hb =>
    subst hb
    simp
  · next hb =>
    rw [queue]
    congr 2
    funext x
    by_cases hx : x.1 = b <;> simp [hx, hb]

theorem held_leave (q : SpillQueues) (batch : Nat) :
    sumBy SpilledTuple.encodedSize (q.queue batch) + (q.leave batch).held = q.held := by
  have hsplit := sumBy_filter_add (·.2.encodedSize) (fun x => decide (x.1 = batch)) q.waiting
  simp only [← decide_not] at hsplit
  rw [queue, sumBy_map]
  exact hsplit

end SpillQueues

/-! ## Stores and queues -/

namespace SpillStore

variable {s s' : SpillStore} {q : SpillQueues} {batch : Nat} {t : SpilledTuple}

/-- When the file of one batch is exchanged, its old bytes go and its new ones come. -/
theorem bytesHeld_of_put (s s' : SpillStore) {f : BatchFile}
    (h : s'.files = Assoc.put batch f s.files) :
    s'.bytesHeld + (s.file batch).data.length = s.bytesHeld + f.data.length := by
  have hput := Assoc.sumBy_put (fun f : BatchFile => f.data.length) batch f s.files
  have hold : Assoc.sizeAt (fun f : BatchFile => f.data.length) batch s.files =
      (s.file batch).data.length := by
    rw [Assoc.sizeAt, file]
    cases Assoc.find? batch s.files <;> rfl
  rw [hold] at hput
  rw [bytesHeld, h]
  exact hput

theorem bytesHeld_write (s : SpillStore) (batch : Nat) (bytes : List UInt8) :
    (s.write batch bytes).bytesHeld = s.bytesHeld + bytes.length := by
  have hput := bytesHeld_of_put s (s.write batch bytes) rfl
  rw [List.length_append] at hput
  omega

theorem bytesHeld_clear (s : SpillStore) (batch : Nat) :
    (s.file batch).data.length + (s.clear batch).bytesHeld = s.bytesHeld := by
  have hput := bytesHeld_of_put s (s.clear batch) rfl
  rw [List.length_nil] at hput
  omega

/-- Whether a store keeps the tuples of queues. -/
structure Keeps (s : SpillStore) (q : SpillQueues) : Prop where
  sound : s.Sound
  tuples : ∀ b, s.tuples b = q.queue b
  capacity : s.capacity? = q.capacity?
  bytesHeld : s.bytesHeld = q.held
  bytesWritten : s.bytesWritten = q.written
  fits : ∀ c, q.capacity? = some c → q.held ≤ c

namespace Keeps

theorem empty (capacity? : Option Nat) : Keeps { capacity? } { capacity? } where
  sound := sound_empty capacity?
  tuples _ := rfl
  capacity := rfl
  bytesHeld := rfl
  bytesWritten := rfl
  fits _ _ := Nat.zero_le _

theorem exceeds_iff (h : s.Keeps q) (bytes : Nat) : s.exceeds bytes = true ↔ q.Full bytes := by
  unfold exceeds SpillQueues.Full
  rw [h.capacity, h.bytesHeld]
  split
  · next hnone => simp [hnone]
  · next c hsome => simp [hsome]

/-- A tuple is refused if it cannot be written or there is no room for it. -/
theorem append_eq (h : s.Keeps q) (batch : Nat) (t : SpilledTuple) :
    s.append batch t =
      match t.encode with
      | .error e => .error e
      | .ok bytes =>
        if q.Full t.encodedSize then .error (.spaceExhausted q.held (q.capacity?.getD 0))
        else .ok (s.write batch bytes) := by
  unfold append
  rcases hbytes : t.encode with e | bytes
  · rfl
  · dsimp only
    rw [SpilledTuple.length_encode hbytes, h.bytesHeld, h.capacity]
    exact if_congr (h.exceeds_iff t.encodedSize) rfl rfl

/-- A tuple that is accepted goes to the end of its queue. -/
theorem arrive (h : s.Keeps q) (happend : s.append batch t = .ok s')
    (hroom : ¬ q.Full t.encodedSize) : s'.Keeps (q.arrive batch t) := by
  obtain ⟨bytes, hbytes, rfl⟩ := append_eq_ok happend
  have hsize := SpilledTuple.length_encode hbytes
  refine ⟨h.sound.append happend, ?_, h.capacity, ?_, ?_, ?_⟩
  · intro b
    rw [h.sound.tuples_append happend, q.queue_arrive, h.tuples]
  · rw [bytesHeld_write, q.held_arrive, h.bytesHeld, hsize]
  · rw [q.written_arrive, ← h.bytesWritten, ← hsize]
    rfl
  · intro c hc
    rw [q.held_arrive]
    exact Nat.not_lt.mp fun hlt => hroom ⟨c, hc, hlt⟩

/-- A batch that is taken leaves an empty queue. -/
theorem leave (h : s.Keeps q) (batch : Nat) : (s.clear batch).Keeps (q.leave batch) := by
  have hfile := SpilledTuple.length_encodeAll (h.sound batch).1
  rw [h.tuples] at hfile
  have hclear := bytesHeld_clear s batch
  have hleave := q.held_leave batch
  have hheld := h.bytesHeld
  refine ⟨h.sound.clear batch, ?_, h.capacity, by omega, h.bytesWritten, ?_⟩
  · intro b
    rw [tuples_clear, q.queue_leave, h.tuples]
  · intro c hc
    have hfits := h.fits c hc
    omega

end Keeps

/-- A store answers each request as the queues whose tuples it keeps, and goes on to keep
them. -/
theorem simulates_serve : Simulates Keeps SpillStore.serve SpillQueues.serve := by
  intro s q h r
  cases r with
  | append batch t =>
    have happend := h.append_eq batch t
    rw [serve, SpillQueues.serve]
    rcases hbytes : t.encode with e | bytes
    · rw [hbytes] at happend
      rw [happend]
      exact ⟨rfl, h⟩
    · rw [hbytes] at happend
      by_cases hfull : q.Full t.encodedSize
      · simp only [if_pos hfull] at happend ⊢
        rw [happend]
        exact ⟨rfl, h⟩
      · simp only [if_neg hfull] at happend ⊢
        rw [happend]
        exact ⟨rfl, h.arrive happend hfull⟩
  | take batch =>
    rw [serve, SpillQueues.serve, h.sound.takeBatch_eq, h.tuples]
    exact ⟨rfl, h.leave batch⟩

/-- A failure to append leaves the store as it was. -/
theorem serve_append_eq_error {e : StorageFault} (h : (s.serve (.append batch t)).1 = .error e) :
    s.append batch t = .error e ∧ (s.serve (.append batch t)).2 = s := by
  rw [serve] at h ⊢
  split at h
  · next hfault => exact ⟨hfault.trans (congrArg Except.error (Except.error.inj h)), rfl⟩
  · contradiction

/-- A store that keeps the tuples of queues refuses those that cannot be written or for which
there is no room. -/
theorem Keeps.append_fails_iff (h : s.Keeps q) (batch : Nat) (t : SpilledTuple) :
    (∃ e, s.append batch t = .error e) ↔ ¬ t.Storable ∨ q.Full t.encodedSize := by
  rw [h.append_eq, ← SpilledTuple.exists_encode_iff]
  rcases t.encode with e | bytes
  · simp
  · by_cases hfull : q.Full t.encodedSize <;> simp [hfull]

/-- Whatever is asked of a new store of any capacity, it answers as queues that keep each
accepted tuple in its batch until the batch is taken. The counts of the store are those of the
queues, the waiting tuples never exceed the capacity, and a tuple is refused just if it cannot
be written or would exceed it. -/
theorem keeps_queues (capacity? : Option Nat) (rs : List SpillRequest) :
    let s := (serveAll SpillStore.serve rs { capacity? }).2
    let q := (serveAll SpillQueues.serve rs { capacity? }).2
    (serveAll SpillStore.serve rs { capacity? }).1 =
      (serveAll SpillQueues.serve rs { capacity? }).1 ∧
    (∀ b, (s.takeBatch b).1 = .ok (q.queue b) ∧ s.batchSize b = (q.queue b).length) ∧
    s.bytesHeld = q.held ∧ s.bytesWritten = q.written ∧
    (∀ c, capacity? = some c → s.bytesHeld ≤ c) ∧
    ∀ b t, ((∃ e, (s.serve (.append b t)).1 = .error e) ↔
        ¬ t.Storable ∨ ∃ c, capacity? = some c ∧ c < s.bytesHeld + t.encodedSize) ∧
      ∀ e, (s.serve (.append b t)).1 = .error e → (s.serve (.append b t)).2 = s := by
  intro s q
  obtain ⟨hanswers, h⟩ := simulates_serve.serveAll rs (Keeps.empty capacity?)
  have hcapacity : q.capacity? = capacity? := by
    refine serveAll_induction (P := fun q : SpillQueues => q.capacity? = capacity?) ?_ rs rfl
    intro q hq r
    rw [q.capacity_serve, hq]
  refine ⟨hanswers, ?_, h.bytesHeld, h.bytesWritten, ?_, ?_⟩
  · -- What is taken or counted is read back from the file, which holds the queue.
    intro b
    rw [h.sound.takeBatch_eq, (h.sound b).2, h.tuples]
    exact ⟨rfl, rfl⟩
  · intro c hc
    rw [h.bytesHeld]
    exact h.fits c (hcapacity.trans hc)
  · -- The queues are full just if the store is, for it holds as many bytes.
    intro b t
    refine ⟨?_, fun e he => (serve_append_eq_error he).2⟩
    have hfails := h.append_fails_iff b t
    rw [SpillQueues.Full, hcapacity, ← h.bytesHeld] at hfails
    rw [← hfails]
    constructor
    · rintro ⟨e, he⟩
      exact ⟨e, (serve_append_eq_error he).1⟩
    · rintro ⟨e, he⟩
      exact ⟨e, by rw [serve, he]⟩

/-- A tuple of seven bytes fits ten bytes once. -/
theorem keeps_queues_ten :
    let s := (serveAll SpillStore.serve [.append 3 ⟨0, ⟨[.null]⟩⟩] ⟨some 10, [], 0, .nil⟩).2
    (s.takeBatch 3).1 = .ok [⟨0, ⟨[.null]⟩⟩] ∧ s.bytesHeld ≤ 10 ∧
      (s.serve (.append 1 ⟨0, ⟨[.null]⟩⟩)).2 = s :=
  have h := keeps_queues (some 10) [.append 3 ⟨0, ⟨[.null]⟩⟩]
  ⟨(h.2.1 3).1, h.2.2.2.2.1 10 rfl, (h.2.2.2.2.2 1 ⟨0, ⟨[.null]⟩⟩).2 (.spaceExhausted 7 10) rfl⟩

end SpillStore

end PullQuery
