import ReplicaRing.Proofs.Index.Codec
import ReplicaRing.Proofs.Index.Refinement

/-!
# Which byte strings are index files

A byte string is *intact* (`Index.Intact`) if it opens as an index file does, goes on with whole
records only, each with its own checksum, and the times and ends in the records are in order. That
is said of the bytes alone, without an index.

* The intact byte strings are the files of ascending entries (`Index.intact_iff`), and they are
  what `Index.decode` reads.
* To decode a file is to offer its entries one by one to an empty index
  (`Index.decodeRecords_eq_foldlM`). So an index is read back as it was, and if its fanout does not
  fit into a header, as one that was offered the same entries (`Index.decode_encode`).
* An index that was read is written as it was read, but for a fanout below two
  (`Index.encode_of_decode`).
-/

namespace ReplicaRing.Index

variable {bs body : Bytes} {es : List Entry} {e : Entry} {x y : Index}

/-! ## Parts of a file -/

/-- The fanout that the header of a file tells. -/
def fanoutIn (bs : Bytes) : Nat := Bytes.littleValue ((bs.drop 5).take 2)

/-- The number of whole records of a file. -/
def recordCount (bs : Bytes) : Nat := (bs.length - headerLength) / recordLength

/-- The `i`-th record of a file. -/
def recordAt (bs : Bytes) (i : Nat) : Bytes :=
  (bs.drop (headerLength + i * recordLength)).take recordLength

/-- The time and the end that a record tells. -/
def entryOf (record : Bytes) : Entry where
  time := UInt64.ofNat (Bytes.littleValue (record.take 8))
  stop := UInt64.ofNat (Bytes.littleValue ((record.drop 8).take 8))

/-- The entry that the `i`-th record of a file tells. -/
def entryAt (bs : Bytes) (i : Nat) : Entry := entryOf (recordAt bs i)

/-- The record ends with the checksum of its fields. -/
def Checked (record : Bytes) : Prop :=
  Checksum.ofStored (record.drop 16) = Checksum.crc32 (record.take 16)

/-- What makes a byte string an index file. -/
structure Intact (bs : Bytes) : Prop where
  length : headerLength ≤ bs.length
  opening : bs.take 5 = magic ++ [version]
  /-- There are no bytes behind the last record. -/
  whole : (bs.length - headerLength) % recordLength = 0
  checked : ∀ i < recordCount bs, Checked (recordAt bs i)
  time_lt : ∀ i, i + 1 < recordCount bs → (entryAt bs i).time < (entryAt bs (i + 1)).time
  stop_le : ∀ i, i + 1 < recordCount bs → (entryAt bs i).stop ≤ (entryAt bs (i + 1)).stop

/-- A file with at least the fanout two in its header. -/
def withLeastFanout (bs : Bytes) : Bytes :=
  bs.take 5 ++ Bytes.little 2 (max (fanoutIn bs) 2) ++ bs.drop headerLength

/-! ## Headers -/

/-- A header is told by its five fixed bytes and its fanout. -/
theorem eq_encodeHeader_append (hlen : headerLength ≤ bs.length)
    (hopen : bs.take 5 = magic ++ [version]) :
    bs = encodeHeader (fanoutIn bs) ++ bs.drop headerLength := by
  have htwo : ((bs.drop 5).take 2).length = 2 := by
    rw [List.length_take, List.length_drop]
    rw [headerLength] at hlen
    omega
  have hlt : fanoutIn bs < 65536 := by
    have := Bytes.littleValue_lt ((bs.drop 5).take 2)
    rwa [htwo] at this
  have hbytes : Bytes.little 2 (fanoutIn bs) = (bs.drop 5).take 2 := by
    have := Bytes.little_littleValue ((bs.drop 5).take 2)
    rwa [htwo] at this
  calc bs = bs.take 5 ++ ((bs.drop 5).take 2 ++ (bs.drop 5).drop 2) := by
        rw [List.take_append_drop, List.take_append_drop]
    _ = encodeHeader (fanoutIn bs) ++ bs.drop headerLength := by
        rw [encodeHeader, Nat.min_eq_left (by omega), hbytes, hopen, List.drop_drop]
        simp [headerLength]

theorem decodeHeader_eq_ok {fanout : Nat} (h : decodeHeader bs = .ok fanout) :
    headerLength ≤ bs.length ∧ bs.take 5 = magic ++ [version] := by
  rw [decodeHeader] at h
  split_ifs at h with hlen hmagic
  refine ⟨Nat.le_of_not_lt hlen, ?_⟩
  cases hd : bs.drop 4 with
  | nil =>
    rw [hd] at h
    cases h
  | cons v rest =>
    simp only [hd] at h
    split_ifs at h with hv
    rw [not_not] at hmagic hv
    calc bs.take 5 = bs.take 4 ++ (bs.drop 4).take 1 := List.take_add (i := 4) (j := 1)
      _ = magic ++ [version] := by rw [hmagic, hd, hv]; rfl

theorem fanoutIn_file (fanout : Nat) (es : List Entry) :
    fanoutIn (file fanout es) = min fanout 65535 := by
  have hlt : min fanout 65535 < Bytes.span 2 :=
    Nat.lt_of_le_of_lt (Nat.min_le_right _ _) (by decide)
  have hdrop : (file fanout es).drop 5 =
      Bytes.little 2 (min fanout 65535) ++ es.flatMap encodeRecord := by
    rw [file, encodeHeader, List.append_assoc]
    rfl
  rw [fanoutIn, hdrop, List.take_left' (by simp), Bytes.littleValue_little_of_lt hlt]

theorem take_file (fanout : Nat) (es : List Entry) :
    (file fanout es).take 5 = magic ++ [version] := by
  rw [file, encodeHeader, List.append_assoc]
  rfl

/-! ## Records -/

/-- A word is written as the eight bytes it was read from. -/
theorem little_ofNat_littleValue (hlen : bs.length = 8) :
    Bytes.little 8 (UInt64.ofNat (Bytes.littleValue bs)).toNat = bs := by
  have hlt := Bytes.littleValue_lt bs
  have hbytes := Bytes.little_littleValue bs
  rw [hlen] at hlt hbytes
  rw [UInt64.toNat_ofNat_of_lt' hlt, hbytes]

/-- A checksum is written as the four bytes it was read from. -/
theorem stored_ofStored (hlen : bs.length = 4) : Checksum.stored (Checksum.ofStored bs) = bs := by
  have hlt := Bytes.littleValue_lt bs
  have hbytes := Bytes.little_littleValue bs
  rw [hlen] at hlt hbytes
  rw [Checksum.stored, Checksum.ofStored, UInt32.toNat_ofNat_of_lt' hlt, hbytes]

theorem encodeFields_entryOf (hlen : bs.length = recordLength) :
    encodeFields (entryOf bs) = bs.take 16 := by
  rw [recordLength] at hlen
  rw [encodeFields, entryOf, little_ofNat_littleValue (by simp [hlen]),
    little_ofNat_littleValue (by simp [hlen]), ← List.take_add]

/-- A record that checks itself is the record of its entry. -/
theorem encodeRecord_entryOf (hlen : bs.length = recordLength) (hc : Checked bs) :
    encodeRecord (entryOf bs) = bs := by
  have hfour : (bs.drop 16).length = 4 := by rw [List.length_drop, hlen, recordLength]
  rw [encodeRecord, encodeFields_entryOf hlen, ← hc, stored_ofStored hfour, List.take_append_drop]

/-- A record is read if it has the right length and checks itself. -/
theorem decodeRecord_eq_ok {i : Nat} :
    decodeRecord bs i = .ok e ↔ bs.length = recordLength ∧ Checked bs ∧ entryOf bs = e := by
  rw [decodeRecord, Checked, entryOf]
  dsimp only
  split_ifs with hlen hcrc
  · simp [hlen]
  · simp [hcrc]
  · rw [not_not] at hlen hcrc
    simp [hlen, hcrc]

theorem eq_encodeRecord_of_decodeRecord {i : Nat} (h : decodeRecord bs i = .ok e) :
    bs = encodeRecord e := by
  obtain ⟨hlen, hc, rfl⟩ := decodeRecord_eq_ok.1 h
  exact (encodeRecord_entryOf hlen hc).symm

theorem checked_encodeRecord (e : Entry) : Checked (encodeRecord e) :=
  (decodeRecord_eq_ok.1 (decodeRecord_encodeRecord e 0)).2.1

theorem entryOf_encodeRecord (e : Entry) : entryOf (encodeRecord e) = e :=
  (decodeRecord_eq_ok.1 (decodeRecord_encodeRecord e 0)).2.2

/-! ## The records of a file -/

theorem recordCount_file (fanout : Nat) (es : List Entry) :
    recordCount (file fanout es) = es.length := by
  rw [recordCount, length_file_sub, Nat.mul_div_cancel _ (by decide)]

theorem recordAt_file (fanout : Nat) {i : Nat} (hi : i < es.length) :
    recordAt (file fanout es) i = encodeRecord es[i] := by
  have hsplit : es.flatMap encodeRecord = (es.take i).flatMap encodeRecord ++
      (encodeRecord es[i] ++ (es.drop (i + 1)).flatMap encodeRecord) := by
    rw [← List.flatMap_cons, ← List.drop_eq_getElem_cons hi, ← List.flatMap_append,
      List.take_append_drop]
  have hlen : ((es.take i).flatMap encodeRecord).length = i * recordLength := by
    rw [length_records, List.length_take, Nat.min_eq_left hi.le]
  rw [recordAt, ← List.drop_drop, drop_file, hsplit, List.drop_left' hlen,
    List.take_left' (length_encodeRecord _)]

theorem entryAt_file (fanout : Nat) {i : Nat} (hi : i < es.length) :
    entryAt (file fanout es) i = es[i] := by
  rw [entryAt, recordAt_file fanout hi, entryOf_encodeRecord]

/-- Bytes that are whole records are the records in them, one behind the other. -/
theorem eq_flatMap_of_checked {n : Nat} (hlen : body.length = n * recordLength)
    (hc : ∀ i < n, Checked ((body.drop (i * recordLength)).take recordLength)) :
    body = ((List.range n).map fun i =>
      entryOf ((body.drop (i * recordLength)).take recordLength)).flatMap encodeRecord := by
  induction n generalizing body with
  | zero => simpa using hlen
  | succ n ih =>
    rw [Nat.succ_mul] at hlen
    have hfirst : (body.take recordLength).length = recordLength := by
      rw [List.length_take]
      omega
    have hshift : ∀ i, (body.drop recordLength).drop (i * recordLength) =
        body.drop ((i + 1) * recordLength) := by
      intro i
      rw [List.drop_drop, Nat.succ_mul, Nat.add_comm]
    have hlen' : (body.drop recordLength).length = n * recordLength := by
      rw [List.length_drop]
      omega
    have hrest := ih hlen' fun i hi => by
      rw [hshift]
      exact hc (i + 1) (Nat.succ_lt_succ hi)
    -- The first record is taken off, and the others are counted from the next one.
    have hone := hc 0 (Nat.succ_pos n)
    simp only [Nat.zero_mul, List.drop_zero] at hone
    calc body = body.take recordLength ++ body.drop recordLength :=
          (List.take_append_drop _ _).symm
      _ = _ := by
        rw [List.range_succ_eq_map, List.map_cons, List.map_map, List.flatMap_cons, Nat.zero_mul,
          List.drop_zero, encodeRecord_entryOf hfirst hone]
        conv_lhs => rw [hrest]
        simp only [hshift]
        rfl

/-! ## Intact files -/

/-- Neighbours in order are enough. -/
theorem ascending_of_neighbours (ht : ∀ i (hi : i + 1 < es.length), es[i].time < es[i + 1].time)
    (hs : ∀ i (hi : i + 1 < es.length), es[i].stop ≤ es[i + 1].stop) : Ascending es := by
  have htrans : IsTrans Entry fun a b => a.time < b.time ∧ a.stop ≤ b.stop :=
    ⟨fun a b c hab hbc => ⟨UInt64.lt_trans hab.1 hbc.1, UInt64.le_trans hab.2 hbc.2⟩⟩
  exact List.isChain_iff_pairwise.1 (List.isChain_iff_getElem.2 fun i hi => ⟨ht i hi, hs i hi⟩)

theorem intact_file (ha : Ascending es) (fanout : Nat) : Intact (file fanout es) where
  length := by
    rw [file, List.length_append, length_encodeHeader]
    exact Nat.le_add_right _ _
  opening := take_file fanout es
  whole := by rw [length_file_sub, Nat.mul_mod_left]
  checked i hi := by
    rw [recordCount_file] at hi
    rw [recordAt_file fanout hi]
    exact checked_encodeRecord _
  time_lt i hi := by
    rw [recordCount_file] at hi
    rw [entryAt_file fanout (Nat.lt_of_succ_lt hi), entryAt_file fanout hi]
    exact (List.pairwise_iff_getElem.1 ha i (i + 1) _ hi (Nat.lt_succ_self i)).1
  stop_le i hi := by
    rw [recordCount_file] at hi
    rw [entryAt_file fanout (Nat.lt_of_succ_lt hi), entryAt_file fanout hi]
    exact (List.pairwise_iff_getElem.1 ha i (i + 1) _ hi (Nat.lt_succ_self i)).2

/-- The intact byte strings are the files of ascending entries. -/
theorem intact_iff : Intact bs ↔ ∃ es, Ascending es ∧ bs = file (fanoutIn bs) es := by
  constructor
  · intro h
    have hlen : (bs.drop headerLength).length = recordCount bs * recordLength := by
      rw [List.length_drop, recordCount, Nat.div_mul_cancel (Nat.dvd_of_mod_eq_zero h.whole)]
    have hrecords := eq_flatMap_of_checked hlen fun i hi => by
      rw [List.drop_drop]
      exact h.checked i hi
    simp only [List.drop_drop] at hrecords
    -- The entries are what the records tell.
    refine ⟨(List.range (recordCount bs)).map (entryAt bs), ?_, ?_⟩
    · refine ascending_of_neighbours (fun i hi => ?_) fun i hi => ?_ <;>
        simp only [List.length_map, List.length_range] at hi <;>
        simp only [List.getElem_map, List.getElem_range]
      · exact h.time_lt i hi
      · exact h.stop_le i hi
    · conv_lhs => rw [eq_encodeHeader_append h.length h.opening, hrecords]
      rfl
  · rintro ⟨es, ha, hbs⟩
    rw [hbs]
    exact intact_file ha _

/-! ## Decoding -/

/-- What is read record by record are records. -/
theorem exists_records_of_decodeRecords {i n : Nat} (hlen : body.length = n * recordLength)
    (h : decodeRecords x i n body = .ok y) : ∃ es : List Entry, body = es.flatMap encodeRecord := by
  induction n generalizing x i body with
  | zero => exact ⟨[], by simpa using hlen⟩
  | succ n ih =>
    rw [decodeRecords] at h
    cases hr : decodeRecord (body.take recordLength) i with
    | error err =>
      rw [hr] at h
      cases h
    | ok e =>
      simp only [hr] at h
      cases hins : x.insert e with
      | error err =>
        rw [hins] at h
        cases h
      | ok z =>
        simp only [hins] at h
        rw [Nat.succ_mul] at hlen
        obtain ⟨es, hes⟩ := ih (by rw [List.length_drop]; omega) h
        refine ⟨e :: es, ?_⟩
        rw [List.flatMap_cons, ← eq_encodeRecord_of_decodeRecord hr, ← hes, List.take_append_drop]

/-- An index that takes entries one by one holds them, and they are ascending. -/
theorem Holds.of_foldlM {fs : List Entry} (hx : x.Holds es) (h : fs.foldlM Index.insert x = .ok y) :
    y.Holds (es ++ fs) ∧ y.fanout = x.fanout := by
  induction fs generalizing x es with
  | nil =>
    cases h
    exact ⟨by rwa [List.append_nil], rfl⟩
  | cons e fs ih =>
    rw [List.foldlM_cons] at h
    cases hins : x.insert e with
    | error err =>
      rw [hins] at h
      cases h
    | ok z =>
      rw [hins] at h
      have hnone : refusal? es.getLast? e = none :=
        refusal?_eq_none.2 ((hx.insert_eq_ok e).1 ⟨z, hins⟩)
      obtain ⟨z', hz', hholds, hfan⟩ := hx.insert hnone
      rw [hins, Except.ok.injEq] at hz'
      subst hz'
      obtain ⟨hy, hfan'⟩ := ih hholds h
      exact ⟨by simpa using hy, hfan'.trans hfan⟩

/-- What is read is a file of ascending entries, which the index holds. -/
theorem exists_file_of_decode (h : decode bs = .ok y) :
    ∃ es, bs = file (fanoutIn bs) es ∧ y.Holds es ∧ y.fanout = max (fanoutIn bs) 2 := by
  have hfull := h
  rw [decode] at h
  cases hh : decodeHeader bs with
  | error err =>
    rw [hh] at h
    cases h
  | ok fanout =>
    simp only [hh] at h
    split_ifs at h with hmod
    rw [not_not] at hmod
    obtain ⟨hlen, hopen⟩ := decodeHeader_eq_ok hh
    obtain ⟨es, hes⟩ := exists_records_of_decodeRecords
      (Nat.div_mul_cancel (Nat.dvd_of_mod_eq_zero hmod)).symm h
    have hbs : bs = file (fanoutIn bs) es := by
      conv_lhs => rw [eq_encodeHeader_append hlen hopen, hes]
      rfl
    -- Now that it is a file, to read it is to insert its entries, and all were accepted.
    have hmin : min (fanoutIn bs) 65535 = fanoutIn bs := by
      conv_rhs => rw [hbs, fanoutIn_file]
    rw [hbs, decode_file_eq, hmin] at hfull
    obtain ⟨hy, hfan⟩ := (holds_empty _).of_foldlM hfull
    exact ⟨es, hbs, hy, hfan⟩

/-- What is read is what is intact. -/
theorem exists_decode_iff : (∃ y, decode bs = .ok y) ↔ Intact bs := by
  rw [intact_iff]
  constructor
  · rintro ⟨y, hy⟩
    obtain ⟨es, hbs, hholds, -⟩ := exists_file_of_decode hy
    exact ⟨es, hholds.1, hbs⟩
  · rintro ⟨es, ha, hbs⟩
    obtain ⟨y, hy, -⟩ := decode_file ha (fanoutIn bs)
    exact ⟨y, hbs ▸ hy⟩

theorem Holds.encode_eq (hx : x.Holds es) : x.encode = file x.fanout es := by
  rw [encode, hx.toList, file]

/-- An index is written as it was read, but for a fanout below two. -/
theorem encode_of_decode (h : decode bs = .ok y) : y.encode = withLeastFanout bs := by
  obtain ⟨es, hbs, hy, hfan⟩ := exists_file_of_decode h
  -- A fanout that was read from two bytes fits into two bytes.
  have hmin : min (max (fanoutIn bs) 2) 65535 = max (fanoutIn bs) 2 := by
    have : fanoutIn bs ≤ 65535 := by
      rw [hbs, fanoutIn_file]
      exact Nat.min_le_right _ _
    omega
  rw [hy.encode_eq, hfan, withLeastFanout]
  conv_rhs => rw [hbs, take_file, drop_file, ← hbs]
  rw [file, encodeHeader, hmin]
  simp

/-! ## Encoding -/

/-- Offering entries comes to inserting those that are accepted. -/
theorem foldlM_accepted (fanout : Nat) (offered : List Entry) :
    (accepted offered).foldlM insert (empty fanout) = .ok (offered.foldl offer (empty fanout)) := by
  induction offered using List.reverseRecOn with
  | nil => rfl
  | append_singleton offered e ih =>
    have hx := holds_accepted fanout offered
    rw [accepted_concat, List.foldl_append, List.foldl_cons, List.foldl_nil]
    split_ifs with hf
    · obtain ⟨z, hz⟩ := (hx.insert_eq_ok e).2 hf
      rw [List.foldlM_append, ih]
      show ([e].foldlM insert _ : Except Error Index) = _
      rw [List.foldlM_cons, hz, offer, hz]
      rfl
    · obtain ⟨err, herr⟩ := Option.ne_none_iff_exists'.1 (mt refusal?_eq_none.1 hf)
      rw [ih, offer, hx.insert_eq_error.2 herr]

theorem fanout_offered (fanout : Nat) (offered : List Entry) :
    (offered.foldl offer (empty fanout)).fanout = max fanout 2 :=
  ((holds_empty fanout).of_foldlM (foldlM_accepted fanout offered)).2

/-- The header of an index has room for its fanout up to `65535`. An index comes back as one that
    was offered the same entries with as much of the fanout as there is room for. -/
theorem decode_encode (fanout : Nat) (offered : List Entry) :
    decode (encode (offered.foldl offer (empty fanout))) =
      .ok (offered.foldl offer (empty (min (max fanout 2) 65535))) := by
  rw [(holds_accepted fanout offered).encode_eq, fanout_offered, decode_file_eq, foldlM_accepted]

theorem empty_max_two (fanout : Nat) : empty (max fanout 2) = empty fanout := by
  rw [empty, empty, Nat.max_assoc, Nat.max_self]

/-- Both ways through the codec, from any index and from any byte string. What is written is read
    back: an index with the same entries, that answers the same, and with the same pages unless the
    fanout had to be cut. What is read is what is intact, and it is written back as it was. -/
theorem codec_inverts (fanout : Nat) (offered : List Entry) (bs : Bytes) :
    (let x := offered.foldl offer (empty fanout)
      ∃ y, decode x.encode = .ok y ∧ y.toList = x.toList ∧
        y.fanout = min (max fanout 2) 65535 ∧ y.latest = x.latest ∧
        (∀ t, y.asOf t = x.asOf t) ∧
        (∀ first final, y.range first final = x.range first final) ∧
        (max fanout 2 ≤ 65535 → y.depth = x.depth)) ∧
    ((∃ y, decode bs = .ok y) ↔ Intact bs) ∧
    ∀ y, decode bs = .ok y → y.encode = withLeastFanout bs := by
  refine ⟨?_, exists_decode_iff, fun y => encode_of_decode⟩
  -- Two indexes that were offered the same entries answer the same, whatever their fanouts.
  have hx := (holds_accepted fanout offered).refines
  have hy := (holds_accepted (min (max fanout 2) 65535) offered).refines
  refine ⟨_, decode_encode fanout offered, hy.toList.trans hx.toList.symm, ?_,
    hy.latest.trans hx.latest.symm, fun t => ?_, fun first final => ?_, fun hfan => ?_⟩
  · rw [fanout_offered]
    omega
  · exact Option.ext fun s => (hy.asOf t s).trans (hx.asOf t s).symm
  · exact (hy.range first final).trans (hx.range first final).symm
  · rw [Nat.min_eq_left hfan, empty_max_two]

end ReplicaRing.Index
