import ReplicaRing.Proofs.Checksum
import ReplicaRing.Proofs.Index.Intact

/-!
# Damaged index files

No byte of an index file can be changed unnoticed, but for the two that hold the fanout, and a file
cannot be cut unnoticed inside its header or a record. What is found is told by where the damage is
(`Index.Damage.Locates`, `Index.Damage.Measures`): the records before a damaged one are read as they
were, and the damaged one is refused for its checksum before anything is made of it.

Main statement: the file of an index of any size, with one byte changed or cut to a length that
leaves a part of a record, is refused as corrupt (`Index.decode_damaged`).
-/

namespace ReplicaRing.Index

variable {bs record rest : Bytes} {es : List Entry} {i j n : Nat} {b : UInt8}

/-! ## Records -/

theorem decodeRecord_of_not_checked (hlen : record.length = recordLength) (h : ¬Checked record)
    (i : Nat) : ∃ expected got, decodeRecord record i =
      .error (.corrupt (.recordChecksum i expected got)) := by
  refine ⟨Checksum.ofStored (record.drop 16), Checksum.crc32 (record.take 16), ?_⟩
  rw [decodeRecord, if_neg (not_not.2 hlen)]
  exact if_pos h

/-- A record with one byte changed does not check itself. -/
theorem Checked.not_set (hlen : record.length = recordLength) (hc : Checked record)
    (hi : i < recordLength) (hb : record[i]? ≠ some b) : ¬Checked (record.set i b) := by
  rw [← hlen] at hi
  rw [Checked] at hc ⊢
  rw [List.take_set, List.drop_set]
  intro h
  by_cases hfield : i < 16
  · -- The checksum is the same, but not that of the fields.
    have hi' : i < (record.take 16).length := by
      rw [List.length_take]
      omega
    rw [if_pos hfield, hc] at h
    refine Checksum.crc32_set_ne hi' (fun hget => hb ?_) h.symm
    rw [← hget, List.getElem_take, List.getElem?_eq_getElem hi]
  · -- The fields are the same, but not their checksum.
    have hfour : (record.drop 16).length = 4 := by rw [List.length_drop, hlen, recordLength]
    have hi' : i - 16 < (record.drop 16).length := by
      rw [List.length_drop]
      omega
    have htake : (record.take 16).set i b = record.take 16 :=
      List.set_eq_of_length_le (by rw [List.length_take]; omega)
    rw [if_neg hfield, htake, ← hc] at h
    have hsame := congrArg Checksum.stored h
    rw [stored_ofStored (by rw [List.length_set, hfour]), stored_ofStored hfour] at hsame
    have hget := List.getElem?_set_self (a := b) hi'
    rw [hsame, List.getElem?_drop, Nat.add_sub_cancel' (Nat.le_of_not_lt hfield)] at hget
    exact hb hget

/-- Behind records in order one that does not check itself is refused, whatever comes after it. -/
theorem decode_of_not_checked (ha : Ascending es) (fanout : Nat)
    (hlen : record.length = recordLength) (hc : ¬Checked record)
    (hrest : rest.length = n * recordLength) :
    ∃ expected got, decode (encodeHeader fanout ++ (es.flatMap encodeRecord ++ (record ++ rest))) =
      .error (.corrupt (.recordChecksum es.length expected got)) := by
  obtain ⟨expected, got, hbad⟩ := decodeRecord_of_not_checked hlen hc es.length
  have hnil : Ascending ([] ++ es) := ha
  obtain ⟨y, hy, -⟩ := (holds_empty (min fanout 65535)).exists_foldlM hnil
  have hbody : (es.flatMap encodeRecord ++ (record ++ rest)).length =
      (es.length + (n + 1)) * recordLength := by
    rw [List.length_append, List.length_append, length_records, hlen, hrest, Nat.add_mul,
      Nat.succ_mul]
    omega
  refine ⟨expected, got, ?_⟩
  rw [decode, decodeHeader_append]
  simp only [List.drop_left' (length_encodeHeader fanout), hbody, Nat.mul_mod_left, ne_eq,
    not_true_eq_false, if_false, Nat.mul_div_cancel _ (show 0 < recordLength by decide)]
  rw [decodeRecords_append, hy]
  show decodeRecords y (0 + es.length) (n + 1) (record ++ rest) = _
  rw [decodeRecords, List.take_left' hlen, Nat.zero_add, hbad]

/-- Every byte of the records is one of a record. -/
theorem exists_record (hj : j < es.length * recordLength) :
    ∃ es₁ e es₂ r, es = es₁ ++ e :: es₂ ∧ r < recordLength ∧ j = es₁.length * recordLength + r := by
  have hlt : j / recordLength < es.length := Nat.div_lt_of_lt_mul (by rwa [Nat.mul_comm])
  refine ⟨es.take (j / recordLength), es[j / recordLength], es.drop (j / recordLength + 1),
    j % recordLength, ?_, Nat.mod_lt _ (by decide), ?_⟩
  · rw [List.cons_getElem_drop_succ, List.take_append_drop]
  · rw [List.length_take, Nat.min_eq_left hlt.le, Nat.div_add_mod']

/-! ## One byte changed -/

/-- The damage is found where byte `i` has become `b`. -/
def Damage.Locates (i : Nat) (b : UInt8) : Damage → Prop
  | .badMagic => i < 4
  | .unsupportedVersion v => i = 4 ∧ v = b
  | .recordChecksum number _ _ =>
    headerLength ≤ i ∧ number = (i - headerLength) / Index.recordLength
  | _ => False

/-- A header is read from the left: the magic word comes first, and then the version. -/
theorem decodeHeader_cons {word : Bytes} (hword : word.length = 4) (v : UInt8)
    (hrest : 2 ≤ rest.length) :
    decodeHeader (word ++ v :: rest) =
      if word ≠ magic then .error (.corrupt .badMagic)
      else if v ≠ version then .error (.corrupt (.unsupportedVersion v))
      else .ok (Bytes.littleValue (rest.take 2)) := by
  have hlen : ¬(word ++ v :: rest).length < headerLength := by
    rw [List.length_append, List.length_cons, hword, headerLength]
    omega
  rw [decodeHeader, if_neg hlen, List.take_left' hword, List.drop_left' hword]

/-- A file begins with the magic word and the version, and the fanout comes after them. -/
theorem exists_file_eq (fanout : Nat) (es : List Entry) :
    ∃ rest, file fanout es = magic ++ version :: rest ∧ 2 ≤ rest.length := by
  refine ⟨Bytes.little 2 (min fanout 65535) ++ es.flatMap encodeRecord, ?_, by simp⟩
  rw [file, encodeHeader, List.append_assoc]
  rfl

theorem decode_set_magic (fanout : Nat) (es : List Entry) (hi : i < 4)
    (hb : (file fanout es)[i]? ≠ some b) :
    decode ((file fanout es).set i b) = .error (.corrupt .badMagic) := by
  obtain ⟨rest, hfile, hrest⟩ := exists_file_eq fanout es
  rw [hfile, List.getElem?_append_left hi] at hb
  have hmagic : magic.set i b ≠ magic := fun h =>
    hb (h ▸ List.getElem?_set_self hi)
  rw [hfile, List.set_append_left _ _ hi, decode, decodeHeader_cons (by simp [magic]) _ hrest,
    if_pos hmagic]

theorem decode_set_version (fanout : Nat) (es : List Entry) (hb : (file fanout es)[4]? ≠ some b) :
    decode ((file fanout es).set 4 b) = .error (.corrupt (.unsupportedVersion b)) := by
  obtain ⟨rest, hfile, hrest⟩ := exists_file_eq fanout es
  have hset : (file fanout es).set 4 b = magic ++ b :: rest := by rw [hfile]; rfl
  have hv : b ≠ version := by
    rintro rfl
    exact hb (by rw [hfile]; rfl)
  rw [hset, decode, decodeHeader_cons rfl _ hrest, if_neg (not_not.2 rfl), if_pos hv]

theorem decode_set_record (ha : Ascending es) (fanout : Nat) (hi : headerLength ≤ i)
    (hlt : i < (file fanout es).length) (hb : (file fanout es)[i]? ≠ some b) :
    ∃ expected got, decode ((file fanout es).set i b) =
      .error (.corrupt (.recordChecksum ((i - headerLength) / recordLength) expected got)) := by
  have hj : i - headerLength < es.length * recordLength := by
    rw [← length_file_sub fanout es]
    omega
  obtain ⟨es₁, e, es₂, r, rfl, hr, hir⟩ := exists_record hj
  obtain rfl : i = (encodeHeader fanout).length + ((es₁.flatMap encodeRecord).length + r) := by
    rw [length_encodeHeader, length_records]
    omega
  have hnum : (es₁.length * recordLength + r) / recordLength = es₁.length := by
    rw [Nat.add_comm, Nat.add_mul_div_right _ _ (by decide), Nat.div_eq_of_lt hr, Nat.zero_add]
  have hfile : file fanout (es₁ ++ e :: es₂) = encodeHeader fanout ++
      (es₁.flatMap encodeRecord ++ (encodeRecord e ++ es₂.flatMap encodeRecord)) := by
    rw [file, List.flatMap_append, List.flatMap_cons]
  have hrlen : r < (encodeRecord e).length := by rwa [length_encodeRecord]
  rw [hfile, List.getElem?_append_right (Nat.le_add_right _ _), Nat.add_sub_cancel_left,
    List.getElem?_append_right (Nat.le_add_right _ _), Nat.add_sub_cancel_left,
    List.getElem?_append_left hrlen] at hb
  rw [hir, hnum, hfile, List.set_append_right _ _ (Nat.le_add_right _ _), Nat.add_sub_cancel_left,
    List.set_append_right _ _ (Nat.le_add_right _ _), Nat.add_sub_cancel_left,
    List.set_append_left _ _ hrlen]
  exact decode_of_not_checked (List.pairwise_append.1 ha).1 fanout
    (by rw [List.length_set, length_encodeRecord])
    ((checked_encodeRecord e).not_set (length_encodeRecord e) hr hb) (length_records es₂)

/-! ## Bytes cut off -/

/-- The damage is found where a file was cut to `n` bytes. -/
def Damage.Measures (n : Nat) : Damage → Prop
  | .shortHeader length => n < headerLength ∧ length = n
  | .trailing length => headerLength ≤ n ∧ length = (n - headerLength) % Index.recordLength
  | _ => False

theorem decode_take_of_lt (hn : n < headerLength) (hle : n ≤ bs.length) :
    decode (bs.take n) = .error (.corrupt (.shortHeader n)) := by
  have hlen : (bs.take n).length = n := by rw [List.length_take, Nat.min_eq_left hle]
  rw [decode, decodeHeader, if_pos (by rwa [hlen]), hlen]

theorem decode_take_of_le (fanout : Nat) (es : List Entry) (hn : headerLength ≤ n)
    (hle : n ≤ (file fanout es).length) (hmod : (n - headerLength) % recordLength ≠ 0) :
    decode ((file fanout es).take n) =
      .error (.corrupt (.trailing ((n - headerLength) % recordLength))) := by
  have hlen : ((file fanout es).take n).length = n := by rw [List.length_take, Nat.min_eq_left hle]
  have hdrop : (((file fanout es).take n).drop headerLength).length = n - headerLength := by
    rw [List.length_drop, hlen]
  have hhead : (file fanout es).take n = encodeHeader fanout ++
      (es.flatMap encodeRecord).take (n - headerLength) := by
    rw [file, List.take_append, List.take_of_length_le (by rwa [length_encodeHeader]),
      length_encodeHeader]
  rw [decode]
  simp only [hdrop, if_pos hmod]
  rw [hhead, decodeHeader_append]

/-- **No damage to an index file is read as history.** Whatever was offered to an index, its file is
    refused as corrupt if one byte of it outside the fanout is another one, or if it is cut inside
    the header or a record; and what is reported is the place of the damage. -/
theorem decode_damaged (fanout : Nat) (offered : List Entry) :
    let image := encode (offered.foldl offer (empty fanout))
    (∀ i b, (hi : i < image.length) → image[i] ≠ b → i < 5 ∨ headerLength ≤ i →
      ∃ damage : Damage, damage.Locates i b ∧ decode (image.set i b) = .error (.corrupt damage)) ∧
    ∀ n ≤ image.length, (∀ k, n ≠ headerLength + k * recordLength) →
      ∃ damage : Damage, damage.Measures n ∧ decode (image.take n) = .error (.corrupt damage) := by
  have hx := holds_accepted fanout offered
  rw [hx.encode_eq]
  generalize (offered.foldl offer (empty fanout)).fanout = fanout
  constructor
  · intro i b hi hb hplace
    rw [ne_eq, ← Option.some.injEq, ← List.getElem?_eq_getElem hi] at hb
    rcases hplace with hfive | hseven
    · rcases Nat.lt_succ_iff_lt_or_eq.1 hfive with hfour | rfl
      · exact ⟨.badMagic, hfour, decode_set_magic fanout _ hfour hb⟩
      · exact ⟨.unsupportedVersion b, ⟨rfl, rfl⟩, decode_set_version fanout _ hb⟩
    · obtain ⟨expected, got, h⟩ := decode_set_record hx.1 fanout hseven hi hb
      exact ⟨.recordChecksum _ expected got, ⟨hseven, rfl⟩, h⟩
  · intro n hn hcut
    by_cases hshort : n < headerLength
    · exact ⟨.shortHeader n, ⟨hshort, rfl⟩, decode_take_of_lt hshort hn⟩
    · have hle := Nat.le_of_not_lt hshort
      refine ⟨.trailing _, ⟨hle, rfl⟩, decode_take_of_le fanout _ hle hn fun hmod => ?_⟩
      refine hcut ((n - headerLength) / recordLength) ?_
      rw [Nat.div_mul_cancel (Nat.dvd_of_mod_eq_zero hmod), Nat.add_sub_cancel' hle]

/-- Two values, one of them at the last time there is. -/
def samplePair : List Entry := [⟨10, 3⟩, ⟨18446744073709551615, 3⟩]

/-- The last time is changed by its lowest byte, and the file is cut inside the second record. -/
theorem decode_damaged_samplePair :
    let image := encode (samplePair.foldl offer (empty 2))
    (∃ hi : 27 < image.length, image[27] ≠ 0xFE ∧
      ∃ damage : Damage, damage.Locates 27 0xFE ∧
        decode (image.set 27 0xFE) = .error (.corrupt damage)) ∧
    (46 ≤ image.length ∧ (∀ k, 46 ≠ headerLength + k * recordLength) ∧
      ∃ damage : Damage, damage.Measures 46 ∧ decode (image.take 46) = .error (.corrupt damage)) := by
  have hget : (encode (samplePair.foldl offer (empty 2)))[27]? = some 0xFF := by decide +kernel
  obtain ⟨hi, hget⟩ := List.getElem?_eq_some_iff.1 hget
  have hb : (encode (samplePair.foldl offer (empty 2)))[27] ≠ 0xFE := by
    rw [hget]
    decide
  have hn : 46 ≤ (encode (samplePair.foldl offer (empty 2))).length := by decide +kernel
  have hcut : ∀ k, 46 ≠ headerLength + k * recordLength := fun k => by
    rw [headerLength, recordLength]
    omega
  exact ⟨⟨hi, hb, (decode_damaged 2 samplePair).1 27 0xFE hi hb (.inr (by decide))⟩, hn, hcut,
    (decode_damaged 2 samplePair).2 46 hn hcut⟩

end ReplicaRing.Index
