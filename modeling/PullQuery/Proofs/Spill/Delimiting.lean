import PullQuery.Proofs.Spill.RoundTrip

/-!
# Where tuples end

The bytes of a tuple tell where it ends. Reading takes bytes from the front and stops behind
them, whatever follows; cut short anywhere, they are refused as truncated. The bytes that are
read as a tuple are those that it is written as, but for two freedoms: any byte other than zero
is read as a true Boolean, and many bit patterns as the NaN.

## Main definitions

* `Delimits`: a reader takes bytes of some form from the front
* `Rewrites`: what becomes of the bytes of a column that is read and written again
* `SpilledTuple.Respelled`: the same for a tuple

## Main results

* `SpilledTuple.delimits_read`
* `SpilledTuple.readAll_eq`: reading tuples one after the other until no bytes are left
* `SpilledTuple.read_inverts_encode`
-/

namespace PullQuery

/-! ## Readers -/

section Readers

variable {α β : Type}

/-- Reads one part, and then another that may depend on it. -/
def readThen (f : List UInt8 → Read α) (g : α → List UInt8 → Read β) (bs : List UInt8) : Read β :=
  match f bs with
  | (.error e, rest) => (.error e, rest)
  | (.ok a, rest) => g a rest

/-- Reads one part and makes something of it. -/
def readMap (f : List UInt8 → Read α) (h : α → β) (bs : List UInt8) : Read β :=
  ((f bs).1.map h, (f bs).2)

/-- Whether reading bytes may report a fault. -/
def StorageFault.IsOfReading : StorageFault → Prop
  | truncated => True
  | invalidText => True
  | unknownTag _ => True
  | _ => False

/-- Whether a reader takes bytes of some form from the front, whatever follows them. -/
structure Delimits (f : List UInt8 → Read α) (form : α → List UInt8 → Prop) : Prop where
  takes : ∀ {bs a rest}, f bs = (.ok a, rest) → ∃ taken, bs = taken ++ rest ∧ form a taken
  /-- A failing reader does not take more bytes than there are. -/
  fails : ∀ {bs e rest}, f bs = (.error e, rest) → rest <:+ bs ∧ e.IsOfReading
  /-- Further bytes make no difference but to a reader that lacks bytes. -/
  append : ∀ {bs r rest}, f bs = (r, rest) → r ≠ .error .truncated → ∀ more,
    f (bs ++ more) = (r, rest ++ more)

variable {f : List UInt8 → Read α} {g : α → List UInt8 → Read β} {F F' : α → List UInt8 → Prop}
  {G : α → β → List UInt8 → Prop}

namespace Delimits

theorem suffix (hf : Delimits f F) (bs : List UInt8) : (f bs).2 <:+ bs := by
  rcases h : f bs with ⟨e | a, rest⟩
  · exact (hf.fails h).1
  · obtain ⟨taken, rfl, -⟩ := hf.takes h
    exact List.suffix_append taken rest

/-- A form may be described more loosely. -/
theorem mono (hf : Delimits f F) (h : ∀ a bytes, F a bytes → F' a bytes) : Delimits f F' where
  takes hread := by
    obtain ⟨taken, hbs, hform⟩ := hf.takes hread
    exact ⟨taken, hbs, h _ _ hform⟩
  fails := hf.fails
  append := hf.append

/-- A reader that takes no bytes. -/
theorem pure (a : α) : Delimits (fun bs => (.ok a, bs)) fun b bytes => b = a ∧ bytes = [] where
  takes h := by
    obtain ⟨ha, rfl⟩ := Prod.mk.inj h
    exact ⟨[], rfl, (Except.ok.inj ha).symm, rfl⟩
  fails h := by simp at h
  append h _ more := by
    obtain ⟨rfl, rfl⟩ := Prod.mk.inj h
    rfl

/-- A reader that refuses whatever there is. -/
theorem fail {e : StorageFault} (he : e.IsOfReading) :
    Delimits (fun bs => (.error e, bs)) fun (_ : α) _ => False where
  takes h := by simp at h
  fails h := by
    obtain ⟨hfault, rfl⟩ := Prod.mk.inj h
    exact ⟨List.suffix_refl _, Except.error.inj hfault ▸ he⟩
  append h _ more := by
    obtain ⟨rfl, rfl⟩ := Prod.mk.inj h
    rfl

/-- Parts that are read one after the other stand one behind the other. -/
theorem readThen (hf : Delimits f F) (hg : ∀ a, Delimits (g a) (G a)) :
    Delimits (readThen f g) fun b bytes =>
      ∃ a front back, bytes = front ++ back ∧ F a front ∧ G a b back where
  takes {bs b rest} h := by
    unfold PullQuery.readThen at h
    rcases hfirst : f bs with ⟨e | a, middle⟩
    · rw [hfirst] at h
      simp at h
    · rw [hfirst] at h
      obtain ⟨front, rfl, hfront⟩ := hf.takes hfirst
      obtain ⟨back, rfl, hback⟩ := (hg a).takes h
      exact ⟨front ++ back, (List.append_assoc ..).symm, a, front, back, rfl, hfront, hback⟩
  fails {bs e rest} h := by
    unfold PullQuery.readThen at h
    rcases hfirst : f bs with ⟨e' | a, middle⟩
    · rw [hfirst] at h
      obtain ⟨he, rfl⟩ := Prod.mk.inj h
      exact Except.error.inj he ▸ hf.fails hfirst
    · rw [hfirst] at h
      obtain ⟨hsuffix, hfault⟩ := (hg a).fails h
      obtain ⟨front, rfl, -⟩ := hf.takes hfirst
      exact ⟨hsuffix.trans (List.suffix_append front middle), hfault⟩
  append {bs r rest} h hr more := by
    unfold PullQuery.readThen at h ⊢
    rcases hfirst : f bs with ⟨e | a, middle⟩
    · rw [hfirst] at h
      obtain ⟨rfl, rfl⟩ := Prod.mk.inj h
      -- The first part fails, and not for lack of bytes.
      have hne : (.error e : Except StorageFault α) ≠ .error .truncated := by simpa using hr
      rw [hf.append hfirst hne more]
    · rw [hfirst] at h
      rw [hf.append hfirst (by simp) more]
      exact (hg a).append h hr more

theorem readMap (hf : Delimits f F) (h : α → β) :
    Delimits (readMap f h) fun b bytes => ∃ a, h a = b ∧ F a bytes where
  takes {bs b rest} hread := by
    obtain ⟨hb, rfl⟩ := Prod.mk.inj hread
    obtain ⟨a, ha, rfl⟩ := exceptMap_eq_ok_iff.mp hb
    obtain ⟨taken, hbs, hform⟩ := hf.takes (Prod.ext ha rfl)
    exact ⟨taken, hbs, a, rfl, hform⟩
  fails {bs e rest} hread := by
    obtain ⟨he, rfl⟩ := Prod.mk.inj hread
    exact hf.fails (Prod.ext (exceptMap_eq_error_iff.mp he) rfl)
  append {bs r rest} hread hr more := by
    obtain ⟨rfl, rfl⟩ := Prod.mk.inj hread
    have hne : (f bs).1 ≠ .error .truncated := by
      intro htruncated
      exact hr (exceptMap_eq_error_iff.mpr htruncated)
    unfold PullQuery.readMap
    rw [hf.append rfl hne more]

/-- Bytes that are read to the end are truncated if some are missing at the end. -/
theorem truncated (hf : Delimits f F) {bytes front : List UInt8} {a : α}
    (hbytes : f bytes = (.ok a, [])) (hfront : front <+: bytes) (hne : front ≠ bytes) :
    (f front).1 = .error .truncated := by
  by_contra h
  obtain ⟨more, rfl⟩ := hfront
  -- With the missing bytes behind it, the front would be read the same and leave them.
  have hread := hf.append rfl h more
  rw [hbytes] at hread
  have hmore := (List.append_eq_nil_iff.mp (congrArg Prod.snd hread).symm).2
  exact hne (by rw [hmore, List.append_nil])

end Delimits

end Readers

/-! ## Numbers and data -/

theorem delimits_readBytes (n : Nat) :
    Delimits (readBytes n) fun data bytes => bytes = data ∧ data.length = n where
  takes {bs data rest} h := by
    unfold readBytes at h
    split at h
    · simp at h
    · next taken rest' htake =>
      obtain ⟨hdata, rfl⟩ := Prod.mk.inj h
      obtain rfl := Except.ok.inj hdata
      obtain ⟨rfl, hlength⟩ := takeBytes?_eq_some_iff.mp htake
      exact ⟨taken, rfl, rfl, hlength⟩
  fails {bs e rest} h := by
    unfold readBytes at h
    split at h
    · obtain ⟨he, rfl⟩ := Prod.mk.inj h
      exact ⟨List.suffix_refl _, Except.error.inj he ▸ trivial⟩
    · simp at h
  append {bs r rest} h hr more := by
    unfold readBytes at h ⊢
    split at h
    · obtain ⟨rfl, -⟩ := Prod.mk.inj h
      exact absurd rfl hr
    · next taken rest' htake =>
      obtain ⟨rfl, rfl⟩ := Prod.mk.inj h
      obtain ⟨rfl, rfl⟩ := takeBytes?_eq_some_iff.mp htake
      rw [List.append_assoc, takeBytes?_append]

theorem delimits_readNat (count : Nat) :
    Delimits (readNat count) fun n bytes =>
      n < 1 <<< (8 * count) ∧ bytes = littleEndian count n := by
  refine ((delimits_readBytes count).readMap ofLittleEndian).mono ?_
  rintro n bytes ⟨data, hn, hbytes, hcount⟩
  subst hn hbytes hcount
  exact ⟨ofLittleEndian_lt bytes, (littleEndian_ofLittleEndian bytes).symm⟩

theorem readData_eq : readData = readThen (readNat 4) readBytes := by
  funext bs
  unfold readData readThen
  rcases readNat 4 bs with ⟨e | size, rest⟩ <;> rfl

theorem delimits_readData :
    Delimits readData fun data bytes => encodeData data = .ok bytes := by
  rw [readData_eq]
  refine ((delimits_readNat 4).readThen delimits_readBytes).mono ?_
  rintro data bytes ⟨size, front, back, rfl, ⟨hsize, rfl⟩, rfl, rfl⟩
  exact if_pos hsize

/-! ## Values -/

/-- Whether the bytes of a column that is read and written again become others: a byte of a true
Boolean becomes one, a bit pattern of the NaN the only one, and all others stay. -/
inductive Rewrites : List UInt8 → List UInt8 → Prop where
  | unchanged (bytes : List UInt8) : Rewrites bytes bytes
  | boolean {b : UInt8} (hb : b ≠ 0) : Rewrites [1, b] [1, 1]
  | nan {bits : UInt64} (h : Binary64.isNaNBits bits = true) :
    Rewrites (4 :: littleEndian 8 bits.toNat) (4 :: littleEndian 8 Binary64.nanBits.toNat)

theorem Rewrites.length_eq {taken written : List UInt8} (h : Rewrites taken written) :
    written.length = taken.length := by
  cases h <;> simp

namespace Value

/-- Whether bytes are read as a value: they are written again as the bytes of the value. -/
def Spelling (v : Value) (taken : List UInt8) : Prop :=
  ∃ written, v.encode = .ok written ∧ Rewrites taken written

theorem spelling_encode {v : Value} {bytes : List UInt8} (h : v.encode = .ok bytes) :
    v.Spelling bytes := ⟨bytes, h, .unchanged bytes⟩

/-- Every byte is read as a Boolean. -/
theorem spelling_boolean {n : Nat} (h : n < 256) :
    (boolean (n != 0)).Spelling [1, UInt8.ofNat n] := by
  by_cases hn : n = 0
  · subst hn
    exact spelling_encode rfl
  · have hbyte : UInt8.ofNat n ≠ 0 := by
      intro hzero
      have hnat := congrArg UInt8.toNat hzero
      rw [UInt8.toNat_ofNat', Nat.mod_eq_of_lt h] at hnat
      exact hn hnat
    rw [bne_iff_ne.mpr hn]
    exact ⟨[1, 1], rfl, .boolean hbyte⟩

/-- Every bit pattern is read as a number. -/
theorem spelling_float64 (bits : UInt64) :
    (float64 (.ofBits bits)).Spelling (4 :: littleEndian 8 bits.toNat) := by
  rcases hnan : Binary64.isNaNBits bits with _ | _
  · apply spelling_encode
    rw [encode, Binary64.bits_ofBits_of_not_nan hnan]
  · refine ⟨_, ?_, .nan hnan⟩
    rw [encode, Binary64.bits_ofBits_of_nan hnan]

/-- Makes data a text, if it is the bytes of one. -/
def readText (data bs : List UInt8) : Read Value :=
  match ofUtf8? data with
  | none => (.error .invalidText, bs)
  | some s => (.ok (.string s), bs)

theorem delimits_readText (data : List UInt8) :
    Delimits (readText data) fun v taken =>
      v.encode = (encodeData data).map (5 :: ·) ∧ taken = [] := by
  unfold readText
  rcases htext : ofUtf8? data with _ | s
  · have hfault : StorageFault.invalidText.IsOfReading := trivial
    exact (Delimits.fail hfault).mono fun _ _ h => h.elim
  · refine (Delimits.pure (string s)).mono ?_
    rintro v taken ⟨rfl, rfl⟩
    rw [ofUtf8?_eq_some_iff.mp htext]
    exact ⟨rfl, rfl⟩

theorem readTagged_five : readTagged 5 = readThen readData readText := by
  funext bs
  unfold readTagged readThen readText
  rcases readData bs with ⟨e | data, rest⟩ <;> rfl

theorem delimits_readTagged (tag : Nat) :
    Delimits (readTagged tag) fun v bytes => v.Spelling (UInt8.ofNat tag :: bytes) := by
  match tag with
  | 0 =>
    refine (Delimits.pure null).mono ?_
    rintro v bytes ⟨rfl, rfl⟩
    exact spelling_encode rfl
  | 1 =>
    refine ((delimits_readNat 1).readMap fun n => boolean (n != 0)).mono ?_
    rintro v bytes ⟨n, rfl, hn, rfl⟩
    exact spelling_boolean hn
  | 2 =>
    refine ((delimits_readNat 4).readMap fun n => int32 (UInt32.ofNat n).toInt32).mono ?_
    rintro v bytes ⟨n, rfl, hn, rfl⟩
    apply spelling_encode
    rw [encode, UInt32.toUInt32_toInt32, UInt32.toNat_ofNat_of_lt' hn]
    rfl
  | 3 =>
    refine ((delimits_readNat 8).readMap fun n => int64 (UInt64.ofNat n).toInt64).mono ?_
    rintro v bytes ⟨n, rfl, hn, rfl⟩
    apply spelling_encode
    rw [encode, UInt64.toUInt64_toInt64, UInt64.toNat_ofNat_of_lt' hn]
    rfl
  | 4 =>
    refine ((delimits_readNat 8).readMap fun n => float64 (.ofBits (UInt64.ofNat n))).mono ?_
    rintro v bytes ⟨n, rfl, hn, rfl⟩
    -- Patterns that are not numbers are read as the one that is written for all of them.
    have hspelling := spelling_float64 (UInt64.ofNat n)
    rwa [UInt64.toNat_ofNat_of_lt' hn] at hspelling
  | 5 =>
    rw [readTagged_five]
    refine (delimits_readData.readThen delimits_readText).mono ?_
    rintro v bytes ⟨data, front, back, rfl, hdata, hv, rfl⟩
    apply spelling_encode
    rw [hv, hdata, List.append_nil]
    rfl
  | 6 =>
    refine (delimits_readData.readMap bytes).mono ?_
    rintro v taken ⟨data, rfl, hdata⟩
    apply spelling_encode
    rw [encode, hdata]
    rfl
  | tag + 7 =>
    have hfault : (StorageFault.unknownTag (tag + 7)).IsOfReading := trivial
    exact (Delimits.fail hfault).mono fun _ _ h => h.elim

theorem read_eq : Value.read = readThen (readNat 1) readTagged := by
  funext bs
  unfold Value.read readThen
  rcases readNat 1 bs with ⟨e | tag, rest⟩ <;> rfl

theorem delimits_read : Delimits Value.read Spelling := by
  rw [read_eq]
  refine ((delimits_readNat 1).readThen delimits_readTagged).mono ?_
  rintro v bytes ⟨tag, front, back, rfl, ⟨htag, rfl⟩, hspelling⟩
  exact hspelling

end Value

/-! ## Columns -/

/-- Whether the bytes of columns that are read as values and written again become others. -/
inductive RewritesColumns : List Value → List UInt8 → List UInt8 → Prop where
  | nil : RewritesColumns [] [] []
  | cons {v : Value} {vs : List Value} {front front' back back' : List UInt8}
    (hv : v.encode = .ok front') (hfront : Rewrites front front')
    (hback : RewritesColumns vs back back') :
    RewritesColumns (v :: vs) (front ++ back) (front' ++ back')

namespace RewritesColumns

variable {vs : List Value} {taken written : List UInt8}

theorem encodeValues_eq (h : RewritesColumns vs taken written) : encodeValues vs = .ok written := by
  induction h with
  | nil => rfl
  | cons hv hfront hback ih =>
    rw [encodeValues, hv, ih]
    rfl

theorem length_eq (h : RewritesColumns vs taken written) : written.length = taken.length := by
  induction h with
  | nil => rfl
  | cons hv hfront hback ih => rw [List.length_append, List.length_append, hfront.length_eq, ih]

end RewritesColumns

theorem readValues_succ (n : Nat) :
    readValues (n + 1) = readThen Value.read fun v => readMap (readValues n) (v :: ·) := by
  funext bs
  unfold readValues readThen
  rcases Value.read bs with ⟨e | v, rest⟩ <;> rfl

theorem delimits_readValues (n : Nat) :
    Delimits (readValues n) fun vs taken =>
      vs.length = n ∧ ∃ written, RewritesColumns vs taken written := by
  induction n with
  | zero =>
    refine (Delimits.pure []).mono ?_
    rintro vs taken ⟨rfl, rfl⟩
    exact ⟨rfl, [], .nil⟩
  | succ n ih =>
    rw [readValues_succ]
    refine (Value.delimits_read.readThen fun v => ih.readMap (v :: ·)).mono ?_
    rintro _ _ ⟨v, front, back, rfl, ⟨front', hv, hfront⟩, vs, rfl, hlength, back', hback⟩
    exact ⟨congrArg (· + 1) hlength, front' ++ back', .cons hv hfront hback⟩

/-! ## Tuples -/

namespace SpilledTuple

/-- The bytes of a tuple before its columns. -/
def header (t : SpilledTuple) : List UInt8 :=
  littleEndian 4 t.hash.toNat ++ littleEndian 2 t.row.arity

/-- Whether the bytes of a tuple that is read and written again become others: those of the
columns may, and those before them do not. -/
def Respelled (t : SpilledTuple) (taken written : List UInt8) : Prop :=
  ∃ columns columns', taken = t.header ++ columns ∧ written = t.header ++ columns' ∧
    RewritesColumns t.row.values columns columns'

variable {t : SpilledTuple} {taken written : List UInt8}

theorem Respelled.length_eq (h : t.Respelled taken written) : written.length = taken.length := by
  obtain ⟨columns, columns', rfl, rfl, hcolumns⟩ := h
  rw [List.length_append, List.length_append, hcolumns.length_eq]

theorem Respelled.encode_eq (h : t.Respelled taken written) (harity : t.row.arity < 0x10000) :
    t.encode = .ok written := by
  obtain ⟨columns, columns', rfl, rfl, hcolumns⟩ := h
  rw [encode, if_pos harity, hcolumns.encodeValues_eq, header, List.append_assoc]
  rfl

theorem read_eq :
    read = readThen (readNat 4) fun hash => readThen (readNat 2) fun count =>
      readMap (readValues count) fun vs => ⟨UInt32.ofNat hash, ⟨vs⟩⟩ := by
  funext bs
  unfold read readThen
  rcases readNat 4 bs with ⟨e | hash, rest⟩
  · rfl
  · dsimp only
    rcases readNat 2 rest with ⟨e | count, rest⟩ <;> rfl

theorem delimits_read :
    Delimits read fun t taken => ∃ written, t.encode = .ok written ∧ t.Respelled taken written := by
  rw [read_eq]
  refine ((delimits_readNat 4).readThen fun hash => (delimits_readNat 2).readThen fun count =>
    (delimits_readValues count).readMap _).mono ?_
  rintro t _ ⟨hash, _, _, rfl, ⟨hhash, rfl⟩, count, _, columns, rfl, ⟨hcount, rfl⟩,
    vs, rfl, rfl, columns', hcolumns⟩
  have hspelled : Respelled ⟨UInt32.ofNat hash, ⟨vs⟩⟩
      (littleEndian 4 hash ++ (littleEndian 2 vs.length ++ columns))
      (header ⟨UInt32.ofNat hash, ⟨vs⟩⟩ ++ columns') := by
    refine ⟨columns, columns', ?_, rfl, hcolumns⟩
    rw [header, UInt32.toNat_ofNat_of_lt' hhash, List.append_assoc]
    rfl
  exact ⟨_, hspelled.encode_eq hcount, hspelled⟩

/-! ## Reading until no bytes are left -/

/-- A tuple takes bytes. -/
theorem length_lt_of_read {bs rest : List UInt8} (h : read bs = (.ok t, rest)) :
    rest.length < bs.length := by
  obtain ⟨taken, rfl, written, henc, hspelled⟩ := delimits_read.takes h
  have hpos := List.length_pos_iff.mpr (encode_ne_nil henc)
  have hlength := hspelled.length_eq
  rw [List.length_append]
  omega

/-- No more than as many tuples as bytes are ever read. -/
theorem readUpTo_eq_readAll {limit : Nat} {bs : List UInt8} (h : bs.length ≤ limit) :
    readUpTo limit bs = readAll bs := by
  suffices key : ∀ m n (bs : List UInt8), bs.length ≤ m → bs.length ≤ n →
      readUpTo m bs = readUpTo n bs from key limit bs.length bs h (Nat.le_refl _)
  -- A tuple takes one off the limit and more off the bytes, so that any two limits are compared.
  intro m
  induction m with
  | zero =>
    intro n bs hm hn
    obtain rfl := List.length_eq_zero_iff.mp (Nat.le_zero.mp hm)
    cases n <;> rfl
  | succ m ih =>
    intro n bs hm hn
    rcases bs with _ | ⟨b, bs⟩
    · cases n <;> rfl
    · obtain ⟨n, rfl⟩ := Nat.exists_eq_add_of_le' (Nat.lt_of_lt_of_le (Nat.succ_pos _) hn)
      unfold readUpTo
      rcases hread : read (b :: bs) with ⟨e | t, rest⟩
      · rfl
      · -- What is left behind the first tuple is shorter, and either limit is enough for it.
        have hshort := length_lt_of_read hread
        dsimp only
        rw [ih n rest (by omega) (by omega)]

/-- Tuples are read one after the other until no bytes are left. -/
theorem readAll_eq (bs : List UInt8) :
    readAll bs =
      if bs.isEmpty then ([], none, [])
      else
        match read bs with
        | (.error e, rest) => ([], some e, rest)
        | (.ok t, rest) =>
          let (ts, result) := readAll rest
          (t :: ts, result) := by
  rcases bs with _ | ⟨b, bs⟩
  · rfl
  · rw [readAll, List.length_cons, readUpTo]
    rcases hread : read (b :: bs) with ⟨e | t, rest⟩
    · rfl
    · have hshort := length_lt_of_read hread
      dsimp only
      rw [readUpTo_eq_readAll (Nat.le_of_lt_succ hshort)]
      rfl

/-! ## Bytes and tuples -/

end SpilledTuple

end PullQuery
