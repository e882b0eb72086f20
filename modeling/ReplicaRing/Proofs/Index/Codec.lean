import ReplicaRing.Proofs.Index.Answers
import ReplicaRing.Index.Codec

/-!
# Index files are read back

A file of a header and the records of some entries in order (`Index.file`) is the only thing
a log ever writes where the index of a key is looked for. Both ways of reading it agree:

* the whole file decodes to an index that holds the entries (`Index.decode_file`);
* its tail tells the last entry and where the one before it ends (`Index.readTip_file`).
-/

namespace ReplicaRing.Index

/-- The index file with the given entries. -/
def file (fanout : Nat) (es : List Entry) : Bytes := encodeHeader fanout ++ es.flatMap encodeRecord

/-- The last value that the entries tell of. -/
def tipOf (es : List Entry) : Option Tip :=
  es.getLast?.map fun e => ⟨e.time, stopOf es.dropLast, e.stop⟩

@[simp] theorem tipOf_nil : tipOf [] = none := rfl

@[simp] theorem tipOf_concat (es : List Entry) (e : Entry) :
    tipOf (es ++ [e]) = some ⟨e.time, stopOf es, e.stop⟩ := by
  simp [tipOf]

/-- A file grows by a record at its end. -/
theorem file_concat (fanout : Nat) (es : List Entry) (e : Entry) :
    file fanout (es ++ [e]) = file fanout es ++ encodeRecord e := by
  simp [file]

/-! ## Records -/

@[simp] theorem length_encodeHeader (fanout : Nat) :
    (encodeHeader fanout).length = headerLength := by
  simp [encodeHeader, magic, headerLength]

@[simp] theorem length_encodeFields (e : Entry) : (encodeFields e).length = 16 := by
  simp [encodeFields]

@[simp] theorem length_encodeRecord (e : Entry) : (encodeRecord e).length = recordLength := by
  simp [encodeRecord, recordLength, Checksum.stored]

theorem length_records (es : List Entry) :
    (es.flatMap encodeRecord).length = es.length * recordLength := by
  induction es with
  | nil => rfl
  | cons e es ih =>
    rw [List.flatMap_cons, List.length_append, ih, length_encodeRecord, List.length_cons,
      Nat.succ_mul, Nat.add_comm]

theorem ofStored_stored (crc : UInt32) : Checksum.ofStored (Checksum.stored crc) = crc := by
  rw [Checksum.ofStored, Checksum.stored, Bytes.littleValue_little_of_lt (UInt32.toNat_lt crc),
    UInt32.ofNat_toNat]

/-- A word is read back from its eight bytes. -/
theorem ofNat_littleValue_little (n : UInt64) :
    UInt64.ofNat (Bytes.littleValue (Bytes.little 8 n.toNat)) = n := by
  rw [Bytes.littleValue_little_of_lt (UInt64.toNat_lt n), UInt64.ofNat_toNat]

theorem decodeRecord_encodeRecord (e : Entry) (i : Nat) :
    decodeRecord (encodeRecord e) i = .ok e := by
  have hfields : (encodeRecord e).take 16 = encodeFields e := List.take_left' (by simp)
  have hcrc : (encodeRecord e).drop 16 = Checksum.stored (Checksum.crc32 (encodeFields e)) :=
    List.drop_left' (by simp)
  have htime : (encodeRecord e).take 8 = Bytes.little 8 e.time.toNat := by
    rw [encodeRecord, encodeFields, List.append_assoc]
    exact List.take_left' (by simp)
  have hstop : ((encodeRecord e).drop 8).take 8 = Bytes.little 8 e.stop.toNat := by
    rw [encodeRecord, encodeFields, List.append_assoc, List.drop_left' (by simp)]
    exact List.take_left' (by simp)
  rw [decodeRecord, if_neg (by simp)]
  simp only [hfields, hcrc, ofStored_stored, ne_eq, not_true_eq_false, if_false, htime, hstop,
    ofNat_littleValue_little]

theorem decodeHeader_append (fanout : Nat) (bs : Bytes) :
    decodeHeader (encodeHeader fanout ++ bs) = .ok (min fanout 65535) := by
  have hlt : min fanout 65535 < Bytes.span 2 :=
    Nat.lt_of_le_of_lt (Nat.min_le_right _ _) (by decide)
  have hlen : ¬(encodeHeader fanout ++ bs).length < headerLength := by
    rw [List.length_append, length_encodeHeader]
    omega
  have hmagic : (encodeHeader fanout ++ bs).take 4 = magic := by
    rw [encodeHeader, List.append_assoc]
    exact List.take_left' rfl
  have hrest : (encodeHeader fanout ++ bs).drop 4 =
      version :: (Bytes.little 2 (min fanout 65535) ++ bs) := by
    rw [encodeHeader, List.append_assoc]
    exact List.drop_left' rfl
  have htwo : (Bytes.little 2 (min fanout 65535) ++ bs).take 2 = Bytes.little 2 (min fanout 65535) :=
    List.take_left' (by simp)
  rw [decodeHeader, if_neg hlen, if_neg (by simp [hmagic])]
  simp only [hrest, htwo, Bytes.littleValue_little_of_lt hlt, ne_eq, not_true_eq_false, if_false]

/-! ## Whole files -/

/-- An entry that comes next in order may follow. -/
theorem Ascending.refusal?_eq_none {es fs : List Entry} {e : Entry}
    (h : Ascending (es ++ e :: fs)) : refusal? es.getLast? e = none := by
  cases hl : es.getLast? with
  | none => rfl
  | some l =>
    obtain ⟨ht, hs⟩ := (List.pairwise_append.1 h).2.2 l (List.mem_of_getLast? hl) e
      List.mem_cons_self
    simp only [refusal?]
    rw [if_neg (UInt64.not_le.2 ht), if_neg (UInt64.not_lt.2 hs)]

/-- Entries in order are inserted one by one. -/
theorem Holds.exists_foldlM {x : Index} {es fs : List Entry} (hx : x.Holds es)
    (ha : Ascending (es ++ fs)) :
    ∃ y, fs.foldlM Index.insert x = .ok y ∧ y.Holds (es ++ fs) := by
  induction fs generalizing x es with
  | nil => exact ⟨x, rfl, by rwa [List.append_nil]⟩
  | cons e fs ih =>
    obtain ⟨x₁, hins, hx₁, -⟩ := hx.insert ha.refusal?_eq_none
    obtain ⟨y, hy, hholds⟩ := ih hx₁ (by simpa using ha)
    refine ⟨y, ?_, by simpa using hholds⟩
    rw [List.foldlM_cons, hins]
    exact hy

/-- To decode bytes that begin with records is to insert their entries one by one, and to go on
    with the bytes behind them. -/
theorem decodeRecords_append (x : Index) (i : Nat) (es : List Entry) (n : Nat) (rest : Bytes) :
    decodeRecords x i (es.length + n) (es.flatMap encodeRecord ++ rest) =
      es.foldlM insert x >>= fun y => decodeRecords y (i + es.length) n rest := by
  induction es generalizing x i with
  | nil => rw [List.length_nil, Nat.zero_add]; rfl
  | cons e es ih =>
    rw [List.length_cons, Nat.add_right_comm, decodeRecords, List.flatMap_cons, List.append_assoc,
      List.take_left' (by simp), List.drop_left' (by simp), decodeRecord_encodeRecord,
      List.foldlM_cons]
    cases hins : x.insert e with
    | error err => simp only [hins]; rfl
    | ok z =>
      simp only [hins]
      rw [ih z (i + 1), Nat.add_right_comm i, Nat.add_assoc i]
      rfl

/-- To decode records is to insert their entries one by one. -/
theorem decodeRecords_eq_foldlM (x : Index) (i : Nat) (es : List Entry) :
    decodeRecords x i es.length (es.flatMap encodeRecord) = es.foldlM insert x := by
  have h := decodeRecords_append x i es 0 []
  rw [List.append_nil, Nat.add_zero] at h
  rw [h]
  cases es.foldlM insert x <;> rfl

theorem drop_file (fanout : Nat) (es : List Entry) :
    (file fanout es).drop headerLength = es.flatMap encodeRecord :=
  List.drop_left' (length_encodeHeader fanout)

theorem decode_file_eq (fanout : Nat) (es : List Entry) :
    decode (file fanout es) = es.foldlM insert (empty (min fanout 65535)) := by
  rw [decode, file, decodeHeader_append, ← file]
  simp only [drop_file, length_records, Nat.mul_mod_left, ne_eq, not_true_eq_false, if_false,
    Nat.mul_div_cancel es.length (show 0 < recordLength by decide)]
  exact decodeRecords_eq_foldlM _ 0 es

/-- An index file decodes to an index that holds its entries. -/
theorem decode_file {es : List Entry} (ha : Ascending es) (fanout : Nat) :
    ∃ x, decode (file fanout es) = .ok x ∧ x.Holds es := by
  rw [decode_file_eq]
  exact (holds_empty _).exists_foldlM ha

theorem length_file_sub (fanout : Nat) (es : List Entry) :
    (file fanout es).length - headerLength = es.length * recordLength := by
  rw [file, List.length_append, length_encodeHeader, length_records, Nat.add_sub_cancel_left]

theorem tipOfTwo_encodeRecord {b l : Entry} (h : refusal? (some b) l = none) (count : Nat) :
    tipOfTwo count (encodeRecord b) (encodeRecord l) = .ok ⟨l.time, b.stop, l.stop⟩ := by
  simp only [tipOfTwo, decodeRecord_encodeRecord, h]

/-- The tail of an index file with two entries or more is that of the last two. -/
theorem readTip_file_concat (fanout : Nat) (es : List Entry) (b l : Entry) :
    readTip (file fanout (es ++ [b] ++ [l])) =
      (tipOfTwo (es.length + 2) (encodeRecord b) (encodeRecord l)).map some := by
  have hlen : (es ++ [b] ++ [l]).length = es.length + 2 := by simp
  have hmod : (es.length + 2) * recordLength % recordLength = 0 := Nat.mul_mod_left _ _
  have hdiv : (es.length + 2) * recordLength / recordLength = es.length + 2 :=
    Nat.mul_div_cancel _ (by decide)
  have htail : (file fanout (es ++ [b] ++ [l])).drop
      ((file fanout (es ++ [b] ++ [l])).length - 2 * recordLength) =
      encodeRecord b ++ encodeRecord l := by
    rw [file_concat, file_concat, List.append_assoc]
    refine List.drop_left' ?_
    simp only [List.length_append, length_encodeRecord]
    omega
  rw [readTip, length_file_sub, hlen, file, decodeHeader_append, ← file]
  simp only [hmod, hdiv, ne_eq, not_true_eq_false, if_false, htail,
    List.take_left' (length_encodeRecord b), List.drop_left' (length_encodeRecord b)]

/-- The tail of an index file tells the last of its entries. -/
theorem readTip_file {es : List Entry} (ha : Ascending es) (fanout : Nat) :
    readTip (file fanout es) = .ok (tipOf es) := by
  rcases List.eq_nil_or_concat es with rfl | ⟨es, l, rfl⟩
  · rw [readTip, length_file_sub, file, decodeHeader_append, ← file]
    rfl
  rw [List.concat_eq_append] at *
  rcases List.eq_nil_or_concat es with rfl | ⟨es, b, rfl⟩
  · have hbody : (file fanout [l]).drop headerLength = encodeRecord l := by
      rw [drop_file, List.flatMap_singleton]
    have hmod : [l].length * recordLength % recordLength = 0 := Nat.mul_mod_left _ _
    have hdiv : [l].length * recordLength / recordLength = 1 := Nat.mul_div_cancel 1 (by decide)
    rw [List.nil_append, readTip, length_file_sub, file, decodeHeader_append, ← file]
    simp only [hmod, hdiv, ne_eq, not_true_eq_false, if_false, hbody, decodeRecord_encodeRecord]
    rfl
  rw [List.concat_eq_append] at *
  have hlast : refusal? (some b) l = none := by
    have := ha.refusal?_eq_none
    rwa [List.getLast?_concat] at this
  rw [readTip_file_concat, tipOfTwo_encodeRecord hlast, tipOf_concat, stopOf_concat]
  rfl

/-- Whatever the entries of an index file are, if there are any it does not tell of none. -/
theorem readTip_file_ne_none {es : List Entry} (hne : es ≠ []) (fanout : Nat) :
    readTip (file fanout es) ≠ .ok none := by
  have hmod : es.length * recordLength % recordLength = 0 := Nat.mul_mod_left _ _
  have hdiv : es.length * recordLength / recordLength = es.length :=
    Nat.mul_div_cancel _ (by decide)
  rw [readTip, length_file_sub, file, decodeHeader_append, ← file]
  simp only [hmod, hdiv, ne_eq, not_true_eq_false, if_false]
  split
  · rename_i h
    exact absurd (List.length_eq_zero_iff.1 h) hne
  · split <;> nofun
  · cases tipOfTwo _ _ _ <;> nofun

end ReplicaRing.Index
