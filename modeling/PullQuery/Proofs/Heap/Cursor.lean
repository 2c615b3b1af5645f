import Mathlib.Logic.Function.Basic
import PullQuery.Proofs.Heap.Position
import PullQuery.Proofs.Requests

/-!
# A scan is a cursor over sorted versions

A scan of a heap with `n` versions answers as a number that runs from -1 to `n`: a fetch moves it
by one and stops at either end, a restart puts it to the end where the scan began, and a position
that was remembered is the number at that time. The scan keeps its place as a cursor with two
ends and names it by locations.

## Main definitions

* `ScanRequest`, `ScanAnswer`: what is asked of a scan
* `ScanClient`: a scan with the positions that are remembered of it
* `Zipper`: a number over the versions that answers the same requests
* `ScanClient.Sound`, `ScanClient.Follows`: a scan of a heap, and one that stands where a zipper
  does

## Main results

* `HeapScan.fetch_eq`: what a fetch returns, and where it leads
* `answers_fetches`: fetches in turn return the versions in order
* `simulates_zipper`: one request
* `answers_as_zipper`: any requests
-/

namespace PullQuery

/-! ## Requests -/

/-- What is asked of a scan. -/
inductive ScanRequest where
  | fetch (d : Direction)
  | rescan
  /-- Remembers the position in a slot. -/
  | mark (slot : Nat)
  /-- Returns to the position in a slot. -/
  | restore (slot : Nat)
  /-- Returns to a position from anywhere. -/
  | restoreTo (p : ScanPosition)

/-- What a scan answers. -/
inductive ScanAnswer where
  | fetched (result : Except StorageFault (Option HeapTuple))
  | restarted
  | marked (result : Except StorageFault ScanPosition)
  | restored (result : Except StorageFault Unit)
  /-- There is no position in the slot. -/
  | unmarked

/-- A scan with the positions that are remembered of it. -/
structure ScanClient where
  scan : HeapScan
  marks : Nat → Option ScanPosition := fun _ => none

namespace ScanClient

/-- The scan of a heap before its first fetch. -/
def start (h : Heap) (d : Direction) : ScanClient := { scan := .start h d }

/-- Returns to a position. A failure leaves the scan where it stands. -/
def restoreTo (h : Heap) (c : ScanClient) (p : ScanPosition) : ScanAnswer × ScanClient :=
  match c.scan.restore h p with
  | .error e => (.restored (.error e), c)
  | .ok scan => (.restored (.ok ()), { c with scan })

/-- Serves a request. -/
def serve (h : Heap) (c : ScanClient) : ScanRequest → ScanAnswer × ScanClient
  | .fetch d => (.fetched (c.scan.fetch h d).1, { c with scan := (c.scan.fetch h d).2 })
  | .rescan => (.restarted, { c with scan := c.scan.rescan })
  | .mark slot =>
    match c.scan.mark h with
    | .error e => (.marked (.error e), c)
    | .ok p => (.marked (.ok p), { c with marks := Function.update c.marks slot (some p) })
  | .restore slot =>
    match c.marks slot with
    | none => (.unmarked, c)
    | some p => c.restoreTo h p
  | .restoreTo p => c.restoreTo h p

end ScanClient

/-! ## Zippers -/

/-- A place among versions: at one of them, before the first at -1, or behind the last at their
number. -/
structure Zipper where
  position : Int
  marks : Nat → Option Int := fun _ => none

namespace Zipper

/-- Where a zipper over `n` versions begins. -/
def start (n : Nat) : Direction → Zipper
  | .forward => { position := -1 }
  | .backward => { position := n }

/-- One step over `n` versions, which stops at the ends. -/
def step (n : Nat) (p : Int) : Direction → Int
  | .forward => min (p + 1) n
  | .backward => max (p - 1) (-1)

/-- The version at a place. -/
def version? (ts : List HeapTuple) (p : Int) : Option HeapTuple :=
  if p < 0 then none else ts[p.toNat]?

/-- The position by which a place is remembered. -/
def named (ts : List HeapTuple) (p : Int) : ScanPosition :=
  match version? ts p with
  | some t => .onTuple t.tid
  | none => if p < 0 then .beforeStart else .afterEnd

/-- The place with a position, if there is one. A version stands behind those of lower
locations. -/
def place? (ts : List HeapTuple) : ScanPosition → Except StorageFault Int
  | .beforeStart => .ok (-1)
  | .afterEnd => .ok ts.length
  | .onTuple tid =>
    if ∃ t ∈ ts, t.tid = tid then .ok (ts.countP (·.tid < tid)) else .error (.unknownPosition tid)

/-- Serves a request over versions for a scan in a direction. -/
def serve (ts : List HeapTuple) (d : Direction) (z : Zipper) : ScanRequest → ScanAnswer × Zipper
  | .fetch e =>
    let p := step ts.length z.position e
    (.fetched (.ok (version? ts p)), { z with position := p })
  | .rescan => (.restarted, { z with position := (start ts.length d).position })
  | .mark slot =>
    (.marked (.ok (named ts z.position)),
      { z with marks := Function.update z.marks slot (some z.position) })
  | .restore slot =>
    match z.marks slot with
    | none => (.unmarked, z)
    | some p => (.restored (.ok ()), { z with position := p })
  | .restoreTo p =>
    match place? ts p with
    | .error e => (.restored (.error e), z)
    | .ok p => (.restored (.ok ()), { z with position := p })

/-- Whether a place is at one of `n` versions or at an end. -/
def InRange (n : Nat) (p : Int) : Prop := -1 ≤ p ∧ p ≤ n

variable {ts : List HeapTuple} {p : Int}

@[simp]
theorem version?_before : version? ts (-1) = none := if_pos (by decide)

@[simp]
theorem version?_natCast (i : Nat) : version? ts i = ts[i]? := by
  rw [version?, if_neg (by omega), Int.toNat_natCast]

/-- A place is named by its location, or as an end. -/
theorem InRange.named_cases (h : InRange ts.length p) :
    (p = -1 ∧ named ts p = .beforeStart) ∨
      (∃ (i : Nat) (hi : i < ts.length), p = i ∧ named ts p = .onTuple ts[i].tid) ∨
      (p = ts.length ∧ named ts p = .afterEnd) := by
  obtain ⟨hlow, hhigh⟩ := h
  by_cases hneg : p < 0
  · obtain rfl : p = -1 := by omega
    exact .inl ⟨rfl, by simp [named]⟩
  · obtain ⟨i, rfl⟩ := Int.eq_ofNat_of_zero_le (Int.not_lt.mp hneg)
    by_cases hi : i < ts.length
    · exact .inr (.inl ⟨i, hi, rfl, by simp [named, hi]⟩)
    · obtain rfl : i = ts.length := by omega
      exact .inr (.inr ⟨rfl, by simp [named]⟩)

end Zipper

/-! ## Places of cursors -/

namespace Cursor

variable {n : Nat} {c : Cursor}

/-- The place of a cursor over `n` elements. -/
def place (n : Nat) : Cursor → Int
  | beforeStart => -1
  | .onIndex i => i
  | afterEnd => n

theorem place_start (n : Nat) (d : Direction) :
    (start d).place n = (Zipper.start n d).position := by
  cases d <;> rfl

theorem Within.inRange (h : c.Within n) : Zipper.InRange n (c.place n) := by
  unfold Zipper.InRange
  cases c with
  | beforeStart =>
    simp only [place]
    omega
  | onIndex i =>
    have hi : i < n := h
    simp only [place]
    omega
  | afterEnd =>
    simp only [place]
    omega

/-- Over elements, a step moves the place by one, unless it is at an end. -/
theorem Within.place_step (h : c.Within n) (hn : 0 < n) (d : Direction) :
    (c.step n d).place n = Zipper.step n (c.place n) d := by
  cases c with
  | beforeStart =>
    cases d with
    | forward =>
      simp only [Cursor.step, if_pos hn, place, Zipper.step]
      omega
    | backward => rfl
  | afterEnd =>
    cases d with
    | forward =>
      simp only [Cursor.step, place, Zipper.step]
      omega
    | backward =>
      simp only [Cursor.step, if_pos hn, place, Zipper.step]
      omega
  | onIndex i =>
    have hi : i < n := h
    cases d with
    | forward =>
      simp only [Cursor.step, Zipper.step]
      split <;> simp only [place] <;> omega
    | backward =>
      simp only [Cursor.step, Zipper.step]
      split <;> simp only [place] <;> omega

end Cursor

namespace Heap

/-- A version stands behind those of lower locations. -/
theorem countP_lt (h : Heap) {i : Nat} (hi : i < h.tuples.length) :
    h.tuples.countP (·.tid < h.tuples[i].tid) = i := by
  have hsorted := List.pairwise_iff_getElem.mp h.pairwise_tuples
  -- All versions before this one have lower locations, and none of the others has.
  have hbefore : (h.tuples.take i).countP (·.tid < h.tuples[i].tid) = i := by
    rw [List.countP_eq_length.mpr, List.length_take_of_le (Nat.le_of_lt hi)]
    intro t ht
    obtain ⟨j, hj, rfl⟩ := List.mem_take_iff_getElem.mp ht
    simpa using hsorted j i (by omega) hi (by omega)
  have hbehind : (h.tuples.drop i).countP (·.tid < h.tuples[i].tid) = 0 := by
    rw [List.countP_eq_zero]
    intro t ht
    obtain ⟨j, hj, rfl⟩ := List.mem_drop_iff_getElem.mp ht
    simp only [decide_eq_true_eq]
    intro hlt
    rcases Nat.eq_zero_or_pos j with rfl | hpos
    · exact Tid.lt_irrefl _ hlt
    · exact Tid.lt_irrefl _ (Tid.lt_trans hlt (hsorted i (i + j) hi (by omega) (by omega)))
  calc h.tuples.countP (·.tid < h.tuples[i].tid)
      = (h.tuples.take i ++ h.tuples.drop i).countP (·.tid < h.tuples[i].tid) := by
        rw [List.take_append_drop]
    _ = i := by rw [List.countP_append, hbefore, hbehind, Nat.add_zero]

/-- A place is found again by the position that names it. -/
theorem place?_named (h : Heap) {p : Int} (hp : Zipper.InRange h.tuples.length p) :
    Zipper.place? h.tuples (Zipper.named h.tuples p) = .ok p := by
  rcases hp.named_cases with ⟨rfl, hnamed⟩ | ⟨i, hi, rfl, hnamed⟩ | ⟨rfl, hnamed⟩
  · rw [hnamed, Zipper.place?]
  · rw [hnamed, Zipper.place?, if_pos ⟨_, List.getElem_mem hi, rfl⟩, h.countP_lt hi]
  · rw [hnamed, Zipper.place?]

end Heap

/-! ## One request -/

namespace HeapScan

variable {h : Heap} {d : Direction} {s : HeapScan} {rest : List HeapTuple}

/-- A fetch moves the cursor, returns the version there, and counts its block. -/
theorem At.fetch_eq (hs : At h d s rest) (e : Direction) :
    let s' := { s with cursor := s.cursor.step h.tuples.length e }
    let t? := Zipper.version? h.tuples (s'.cursor.place h.tuples.length)
    s.fetch h e = (.ok t?, t?.elim s' fun t => s'.visitBlock t.tid.block) := by
  intro s' t?
  have hwithin := hs.within.step e
  have hlength : s.locations.length = h.tuples.length := by rw [hs.locations, h.length_locations]
  unfold fetch
  rw [hlength]
  -- Only where the step leads to an index there is a version, and it is still stored.
  rcases hcursor : s.cursor.step h.tuples.length e with _ | i | _
  · simp [t?, s', hcursor, Cursor.place]
  · rw [hcursor] at hwithin
    have hi : i < h.tuples.length := hwithin
    obtain ⟨hlocation, hfound⟩ := Heap.get?_of_getElem? (List.getElem?_eq_getElem hi)
    simp [t?, s', hcursor, Cursor.place, hs.locations, hlocation, hfound, hi]
  · simp [t?, s', hcursor, Cursor.place]

theorem At.fetch_fst (hs : At h d s rest) (e : Direction) :
    (s.fetch h e).1 = .ok (Zipper.version? h.tuples
      ((s.cursor.step h.tuples.length e).place h.tuples.length)) := by
  rw [hs.fetch_eq e]

/-- A fetch moves the cursor by a step, over the same locations. -/
theorem At.fetch_snd (hs : At h d s rest) (e : Direction) :
    (s.fetch h e).2.cursor = s.cursor.step h.tuples.length e ∧
      (s.fetch h e).2.locations = s.locations ∧ (s.fetch h e).2.direction = s.direction := by
  rw [hs.fetch_eq e]
  dsimp only
  -- If there is a version, then its block is counted, which shows in none of the three.
  rcases Zipper.version? h.tuples _ with _ | t
  · exact ⟨rfl, rfl, rfl⟩
  · simp

/-- A fetch in either direction leaves a scan between versions. -/
theorem At.fetch_any (hs : At h d s rest) (e : Direction) :
    ∃ rest', At h d (s.fetch h e).2 rest' := by
  obtain ⟨hcursor, hlocations, hdirection⟩ := hs.fetch_snd e
  exact ⟨_, hlocations.trans hs.locations, hdirection.trans hs.direction,
    hcursor ▸ hs.within.step e, rfl⟩

/-- The position of a scan names its place. -/
theorem At.position_eq (hs : At h d s rest) :
    s.position = Zipper.named h.tuples (s.cursor.place h.tuples.length) := by
  have hwithin := hs.within
  unfold HeapScan.position
  rcases hcursor : s.cursor with _ | i | _
  · simp [Cursor.place, Zipper.named]
  · rw [hcursor] at hwithin
    have hi : i < h.tuples.length := hwithin
    simp [Cursor.place, Zipper.named, hs.locations, Heap.locations, hi]
  · have hend : ¬ (h.tuples.length : Int) < 0 := by omega
    simp [Cursor.place, Zipper.named, hend]

/-- A scan returns to the place with a position, or fails if there is none. -/
theorem At.restore_eq (hs : At h d s rest) (hpositions : h.positioning = true)
    (p : ScanPosition) :
    (∃ e, Zipper.place? h.tuples p = .error e ∧ s.restore h p = .error e) ∨
      ∃ c : Cursor, Zipper.place? h.tuples p = .ok (c.place h.tuples.length) ∧
        s.restore h p = .ok { s with cursor := c } := by
  unfold HeapScan.restore
  rw [if_pos hpositions]
  cases p with
  | beforeStart => exact .inr ⟨.beforeStart, rfl, rfl⟩
  | afterEnd => exact .inr ⟨.afterEnd, rfl, rfl⟩
  | onTuple tid =>
    dsimp only
    split
    · next i hfound =>
      rw [hs.locations, Heap.indexOf?_locations_eq_some_iff] at hfound
      obtain ⟨hi, htid⟩ := List.getElem?_eq_some_iff.mp hfound
      have hlt : i < h.tuples.length := h.length_locations ▸ hi
      obtain rfl : h.tuples[i].tid = tid := by simpa [Heap.locations] using htid
      refine .inr ⟨.onIndex i, ?_, rfl⟩
      rw [Zipper.place?, if_pos ⟨_, List.getElem_mem hlt, rfl⟩, h.countP_lt hlt]
      rfl
    · next hmissing =>
      refine .inl ⟨_, ?_, rfl⟩
      rw [hs.locations, Heap.indexOf?_locations_eq_none_iff] at hmissing
      have hnone : ¬ ∃ t ∈ h.tuples, t.tid = tid := by simpa [Heap.locations] using hmissing
      rw [Zipper.place?, if_neg hnone]

end HeapScan

variable {h : Heap} {d : Direction}

namespace ScanClient

variable {c : ScanClient} {z : Zipper}

/-- Whether a scan of a heap in a direction stands between versions. -/
def Sound (h : Heap) (d : Direction) (c : ScanClient) : Prop :=
  ∃ rest, HeapScan.At h d c.scan rest

theorem sound_start (h : Heap) (d : Direction) : (start h d).Sound h d :=
  ⟨_, HeapScan.at_start h d⟩

theorem Sound.restoreTo (hc : c.Sound h d) (p : ScanPosition) : (c.restoreTo h p).2.Sound h d := by
  obtain ⟨rest, hat⟩ := hc
  unfold ScanClient.restoreTo
  split
  · exact ⟨rest, hat⟩
  · next hrestore => exact hat.restore hrestore

/-- Whatever is asked of it, a scan stays between versions. -/
theorem Sound.serve (hc : c.Sound h d) (r : ScanRequest) : (c.serve h r).2.Sound h d := by
  have ⟨rest, hat⟩ := hc
  cases r with
  | fetch e => exact hat.fetch_any e
  | rescan => exact ⟨_, hat.rescan⟩
  | mark slot =>
    rw [ScanClient.serve]
    split <;> exact hc
  | restore slot =>
    rw [ScanClient.serve]
    split
    · exact hc
    · exact hc.restoreTo _
  | restoreTo p => exact hc.restoreTo p

/-- A fetch never fails, and returns nothing from an empty heap. -/
theorem Sound.fetched_of_serve (hc : c.Sound h d) (r : ScanRequest)
    {result : Except StorageFault (Option HeapTuple)} (hr : (c.serve h r).1 = .fetched result) :
    ∃ t?, result = .ok t? ∧ (h.tuples = [] → t? = none) := by
  obtain ⟨rest, hat⟩ := hc
  cases r with
  | fetch e =>
    obtain rfl := ScanAnswer.fetched.inj hr
    rw [hat.fetch_eq e]
    refine ⟨_, rfl, fun hempty => ?_⟩
    simp [Zipper.version?, hempty]
  | rescan => contradiction
  | mark slot =>
    rw [ScanClient.serve] at hr
    split at hr <;> contradiction
  | restore slot =>
    rw [ScanClient.serve] at hr
    split at hr
    · contradiction
    · rw [ScanClient.restoreTo] at hr
      split at hr <;> contradiction
  | restoreTo p =>
    rw [ScanClient.serve, ScanClient.restoreTo] at hr
    split at hr <;> contradiction

/-- Whether a scan stands where a zipper does, and its positions name the places that the zipper
remembers. -/
structure Follows (h : Heap) (d : Direction) (c : ScanClient) (z : Zipper) : Prop where
  sound : c.Sound h d
  position : c.scan.cursor.place h.tuples.length = z.position
  marks : ∀ slot, c.marks slot = (z.marks slot).map (Zipper.named h.tuples)
  inRange : ∀ slot p, z.marks slot = some p → Zipper.InRange h.tuples.length p

theorem follows_start (h : Heap) (d : Direction) :
    Follows h d (start h d) (.start h.tuples.length d) where
  sound := sound_start h d
  position := Cursor.place_start _ d
  marks slot := by cases d <;> rfl
  inRange slot p hp := by cases d <;> contradiction

theorem Follows.inRange_position (hc : Follows h d c z) :
    Zipper.InRange h.tuples.length z.position := by
  obtain ⟨rest, hat⟩ := hc.sound
  rw [← hc.position]
  exact hat.within.inRange

/-- A scan and a zipper return to a position alike. -/
theorem Follows.restoreTo (hc : Follows h d c z) (hpositions : h.positioning = true)
    (p : ScanPosition) :
    (c.restoreTo h p).1 = (z.serve h.tuples d (.restoreTo p)).1 ∧
      Follows h d (c.restoreTo h p).2 (z.serve h.tuples d (.restoreTo p)).2 := by
  obtain ⟨rest, hat⟩ := hc.sound
  have hsound := hc.sound.restoreTo p
  rcases hat.restore_eq hpositions p with ⟨e, hplace, hrestore⟩ | ⟨cursor, hplace, hrestore⟩
  · simp only [ScanClient.restoreTo, Zipper.serve, hplace, hrestore]
    exact ⟨trivial, hc⟩
  · simp only [ScanClient.restoreTo, Zipper.serve, hplace, hrestore] at hsound ⊢
    exact ⟨trivial, hsound, rfl, hc.marks, hc.inRange⟩

/-- Over versions, a scan that keeps positions answers each request as the zipper that it
follows. -/
theorem simulates_zipper (hne : h.tuples ≠ []) (hpositions : h.positioning = true) :
    Simulates (Follows h d) (ScanClient.serve h) (Zipper.serve h.tuples d) := by
  intro c z hc r
  obtain ⟨rest, hat⟩ := hc.sound
  have hsound := hc.sound.serve r
  cases r with
  | fetch e =>
    have hstep := hat.within.place_step (List.length_pos_iff.mpr hne) e
    rw [hc.position] at hstep
    refine ⟨?_, hsound, ?_, hc.marks, hc.inRange⟩
    · rw [ScanClient.serve, hat.fetch_fst e, hstep]
      rfl
    · rw [ScanClient.serve, (hat.fetch_snd e).1, hstep]
      rfl
  | rescan =>
    refine ⟨rfl, hsound, ?_, hc.marks, hc.inRange⟩
    show (Cursor.start c.scan.direction).place h.tuples.length = _
    rw [hat.direction, Cursor.place_start]
    rfl
  | mark slot =>
    -- The position of the scan names the place of the zipper, so that the slots stay alike.
    have hmark : c.scan.mark h = .ok (Zipper.named h.tuples z.position) := by
      rw [HeapScan.mark, if_pos hpositions, hat.position_eq, hc.position]
    rw [ScanClient.serve, hmark] at hsound ⊢
    refine ⟨rfl, hsound, hc.position, ?_, ?_⟩
    · intro other
      by_cases hother : other = slot
      · subst hother
        simp [Zipper.serve]
      · simpa [Zipper.serve, hother] using hc.marks other
    · intro other p hp
      by_cases hother : other = slot
      · subst hother
        obtain rfl : z.position = p := by simpa [Zipper.serve] using hp
        exact hc.inRange_position
      · exact hc.inRange other p (by simpa [Zipper.serve, hother] using hp)
  | restore slot =>
    rw [ScanClient.serve, hc.marks slot, Zipper.serve]
    rcases hslot : z.marks slot with _ | p
    · exact ⟨rfl, hc⟩
    · -- The position that was remembered is the place that the zipper remembers.
      have hreturn := hc.restoreTo hpositions (Zipper.named h.tuples p)
      rw [Zipper.serve, h.place?_named (hc.inRange slot p hslot)] at hreturn
      exact hreturn
  | restoreTo p => exact hc.restoreTo hpositions p

/-! ## Any requests -/

/-- Fetches in turn return the versions that lie ahead, and nothing behind the last. -/
theorem answers_fetches {rest : List HeapTuple} (hc : HeapScan.At h d c.scan rest) (k : Nat) :
    (serveAll (ScanClient.serve h) (List.replicate k (.fetch d)) c).1 =
      (List.range k).map fun i => .fetched (.ok rest[i]?) := by
  induction k generalizing c rest with
  | zero => rfl
  | succ k ih =>
    rw [List.replicate_succ, List.range_succ_eq_map, List.map_cons, List.map_map, serveAll]
    cases rest with
    | nil =>
      obtain ⟨s', hfetch, hat⟩ := hc.fetch_nil
      simp only [ScanClient.serve, hfetch]
      rw [ih hat]
      simp [Function.comp_def]
    | cons t rest =>
      obtain ⟨s', hfetch, hat⟩ := hc.fetch_cons
      simp only [ScanClient.serve, hfetch]
      rw [ih hat]
      simp [Function.comp_def]

/-- Whatever is asked of a new scan of a heap, no fetch fails, and fetches from an empty heap
return nothing. If the heap has versions and keeps positions, the scan answers as a number that
runs from -1 to their number, and stands there. -/
theorem answers_as_zipper (h : Heap) (d : Direction) (rs : List ScanRequest) :
    let served := serveAll (ScanClient.serve h) rs (.start h d)
    let zipped := serveAll (Zipper.serve h.tuples d) rs (.start h.size d)
    (∀ result, .fetched result ∈ served.1 →
      ∃ t?, result = .ok t? ∧ (h.isEmpty = true → t? = none)) ∧
    (h.isEmpty = false → h.positioning = true →
      served.1 = zipped.1 ∧
      served.2.scan.cursor.place h.size = zipped.2.position ∧
      -1 ≤ zipped.2.position ∧ zipped.2.position ≤ h.size) := by
  rw [h.size_eq_length]
  intro served zipped
  constructor
  · have hfetched : ∀ a ∈ served.1, ∀ result, a = .fetched result →
        ∃ t?, result = .ok t? ∧ (h.isEmpty = true → t? = none) := by
      refine forall_mem_serveAll (P := Sound h d) (fun c hc r => ⟨?_, hc.serve r⟩) rs
        (sound_start h d)
      intro result hr
      rw [Heap.isEmpty_iff]
      exact hc.fetched_of_serve r hr
    intro result hresult
    exact hfetched _ hresult result rfl
  · intro hversions hpositions
    have hne : h.tuples ≠ [] := fun hnil => by
      rw [Heap.isEmpty_iff.mpr hnil] at hversions
      contradiction
    obtain ⟨hanswers, hlast⟩ := (simulates_zipper hne hpositions).serveAll rs (follows_start h d)
    exact ⟨hanswers, hlast.position, hlast.inRange_position⟩

/-- Two versions on different blocks. -/
def twoBlocks : Heap :=
  let empty : Heap := { name := "t", shape := ⟨[⟨"a", .int64⟩]⟩ }
  (((empty.withTuplesPerPage 1).insert ⟨[.int64 1]⟩ 1).2.insert ⟨[.int64 2]⟩ 1).2

/-- A scan goes over the last version and back, and returns to the first. -/
def thereAndBack : List ScanRequest :=
  [.fetch .forward, .mark 0, .fetch .forward, .fetch .forward, .fetch .backward, .restore 0,
    .restoreTo (.onTuple ⟨7, 7⟩), .fetch .backward]

theorem answers_as_zipper_thereAndBack :
    twoBlocks.isEmpty = false ∧ twoBlocks.positioning = true ∧
    (serveAll (ScanClient.serve twoBlocks) thereAndBack (start twoBlocks .forward)).1 =
      (serveAll (Zipper.serve twoBlocks.tuples .forward) thereAndBack (.start 2 .forward)).1 ∧
    (serveAll (ScanClient.serve twoBlocks) thereAndBack
      (start twoBlocks .forward)).2.scan.cursor.place 2 = -1 := by
  obtain ⟨-, hzipped⟩ := answers_as_zipper twoBlocks .forward thereAndBack
  obtain ⟨hanswers, hplace, -⟩ := hzipped rfl rfl
  exact ⟨rfl, rfl, hanswers, hplace.trans (by decide +kernel)⟩

end ScanClient

end PullQuery
