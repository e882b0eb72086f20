import ReplicaRing.Proofs.Catalog.File
import ReplicaRing.Proofs.Checksum
import ReplicaRing.Proofs.Index.Intact

/-!
# Damaged catalog files

A catalog file is one frame, and no byte of it can be changed unnoticed. The length is looked at
before the checksum (`Catalog.unframe_parts`): so a file that is too short or too long is refused
for its length, like one whose length field has been changed; any other changed byte is found by the
checksum. The payload of such a file is not looked at at all, and nothing is loaded.

Main statement: `Catalog.load_damaged`.
-/

namespace ReplicaRing

/-- What is found of a frame with `n` bytes of payload in which byte `i` has become another one. -/
def Corruption.Locates (n i : Nat) : Corruption → Prop
  | .frameChecksum expected got => (i < 4 ∨ 8 ≤ i) ∧ expected ≠ got
  | .frameLength declared found => (4 ≤ i ∧ i < 8) ∧ found = n ∧ declared ≠ n
  | _ => False

/-- What is found of a frame with `n` bytes of payload that has become `m` bytes long. -/
def Corruption.Measures (n m : Nat) : Corruption → Prop
  | .shortFrame length => m < 8 ∧ length = m
  | .frameLength declared found => 8 ≤ m ∧ declared = n ∧ found = m - 8
  | _ => False

namespace Catalog

variable {crc len p bs more : Bytes} {path : Path} {disk : FileTree} {es : List Replica} {i n : Nat}
  {b : UInt8}

/-! ## Frames -/

theorem set_ne_self {α : Type} {xs : List α} {x : α} (hi : i < xs.length) (hx : xs[i] ≠ x) :
    xs.set i x ≠ xs := fun h => by
  have hget := List.getElem?_set_self (a := x) hi
  rw [h, List.getElem?_eq_getElem hi, Option.some.injEq] at hget
  exact hx hget

/-- A frame is read in three parts: the length decides first, and then the checksum. -/
theorem unframe_parts (hcrc : crc.length = 4) (hlen : len.length = 4) (path : Path) (p : Bytes) :
    unframe path (crc ++ (len ++ p)) =
      if p.length ≠ Bytes.littleValue len then
        .error (.corrupt path (.frameLength (Bytes.littleValue len) p.length))
      else if Checksum.crc32 p ≠ Checksum.ofStored crc then
        .error (.corrupt path (.frameChecksum (Checksum.ofStored crc) (Checksum.crc32 p)))
      else .ok p := by
  have hshort : ¬(crc ++ (len ++ p)).length < 8 := by
    rw [List.length_append, List.length_append, hcrc, hlen]
    omega
  have hdrop : (crc ++ (len ++ p)).drop 8 = p := by
    rw [← List.append_assoc]
    exact List.drop_left' (by rw [List.length_append, hcrc, hlen])
  rw [unframe, if_neg hshort]
  simp only [List.take_left' hcrc, List.drop_left' hcrc, List.take_left' hlen, hdrop]

/-- The checksum and the length of a payload, as they are stored. -/
theorem frame_eq (p : Bytes) :
    frame p = Checksum.stored (Checksum.crc32 p) ++ (Bytes.little 4 p.length ++ p) := by
  rw [frame, List.append_assoc]

theorem length_stored (crc : UInt32) : (Checksum.stored crc).length = 4 := Bytes.length_little _ _

theorem length_frame (p : Bytes) : (frame p).length = 8 + p.length := by
  rw [frame_eq, List.length_append, List.length_append, length_stored, Bytes.length_little]
  omega

theorem littleValue_length (h : p.length < 2 ^ 32) :
    Bytes.littleValue (Bytes.little 4 p.length) = p.length :=
  Bytes.littleValue_little_of_lt h

/-! ## One byte changed -/

/-- Another checksum is not that of the payload. -/
theorem unframe_set_crc (h : p.length < 2 ^ 32) (hi : i < 4) (hne : (frame p).set i b ≠ frame p) :
    ∃ reason : Corruption, reason.Locates p.length i ∧
      unframe path ((frame p).set i b) = .error (.corrupt path reason) := by
  have hfour := length_stored (Checksum.crc32 p)
  rw [frame_eq, List.set_append_left _ _ (by omega)] at hne ⊢
  set crc := (Checksum.stored (Checksum.crc32 p)).set i b
  have hlen : crc.length = 4 := by rw [List.length_set, hfour]
  have hcrc : Checksum.ofStored crc ≠ Checksum.crc32 p := fun e => hne (by
    rw [← e, Index.stored_ofStored hlen])
  refine ⟨.frameChecksum (Checksum.ofStored crc) (Checksum.crc32 p), ⟨.inl hi, hcrc⟩, ?_⟩
  rw [unframe_parts hlen (Bytes.length_little _ _), littleValue_length h, if_neg (not_not.2 rfl),
    if_pos hcrc.symm]

/-- Another length is not that of the payload. -/
theorem unframe_set_length (hi : 4 ≤ i) (hi' : i < 8) (hne : (frame p).set i b ≠ frame p) :
    ∃ reason : Corruption, reason.Locates p.length i ∧
      unframe path ((frame p).set i b) = .error (.corrupt path reason) := by
  have hfour := length_stored (Checksum.crc32 p)
  have hfour' := Bytes.length_little 4 p.length
  rw [frame_eq, List.set_append_right _ _ (by omega), List.set_append_left _ _ (by omega)] at hne ⊢
  set len := (Bytes.little 4 p.length).set (i - (Checksum.stored (Checksum.crc32 p)).length) b
  have hlen : len.length = 4 := by rw [List.length_set, hfour']
  have hdeclared : Bytes.littleValue len ≠ p.length := fun e => hne (by
    rw [← e, ← hlen, Bytes.little_littleValue])
  refine ⟨.frameLength (Bytes.littleValue len) p.length, ⟨⟨hi, hi'⟩, rfl, hdeclared⟩, ?_⟩
  rw [unframe_parts hfour hlen, if_pos hdeclared.symm]

/-- Another payload does not have the checksum. -/
theorem unframe_set_payload (h : p.length < 2 ^ 32) (hi : 8 ≤ i) (hlt : i < (frame p).length)
    (hb : (frame p)[i] ≠ b) :
    ∃ reason : Corruption, reason.Locates p.length i ∧
      unframe path ((frame p).set i b) = .error (.corrupt path reason) := by
  have hfour := length_stored (Checksum.crc32 p)
  have hfour' := Bytes.length_little 4 p.length
  have hi' : i - 4 - 4 < p.length := by
    rw [length_frame] at hlt
    omega
  have hb' : p[i - 4 - 4] ≠ b := by
    rw [ne_eq, ← Option.some.injEq, ← List.getElem?_eq_getElem, frame_eq,
      List.getElem?_append_right (by omega), List.getElem?_append_right (by omega), hfour,
      hfour', List.getElem?_eq_getElem hi', Option.some.injEq] at hb
    exact hb
  have hcrc := Checksum.crc32_set_ne hi' hb'
  refine ⟨.frameChecksum (Checksum.crc32 p) (Checksum.crc32 (p.set (i - 4 - 4) b)),
    ⟨.inr hi, hcrc.symm⟩, ?_⟩
  rw [frame_eq, List.set_append_right _ _ (by omega), List.set_append_right _ _ (by omega), hfour,
    hfour', unframe_parts hfour hfour', List.length_set, littleValue_length h,
    if_neg (not_not.2 rfl), Index.ofStored_stored, if_pos hcrc]

theorem unframe_set (h : p.length < 2 ^ 32) (hi : i < (frame p).length) (hb : (frame p)[i] ≠ b) :
    ∃ reason : Corruption, reason.Locates p.length i ∧
      unframe path ((frame p).set i b) = .error (.corrupt path reason) := by
  have hne := set_ne_self hi hb
  rcases Nat.lt_or_ge i 4 with hfour | hfour
  · exact unframe_set_crc h hfour hne
  · rcases Nat.lt_or_ge i 8 with height | height
    · exact unframe_set_length hfour height hne
    · exact unframe_set_payload h height hi hb

/-! ## Another length -/

/-- A frame that is behind its header not as long as it says is refused for its length. -/
theorem unframe_of_length (h : p.length < 2 ^ 32) {p' : Bytes} (hp : p'.length ≠ p.length) :
    unframe path (Checksum.stored (Checksum.crc32 p) ++ (Bytes.little 4 p.length ++ p')) =
      .error (.corrupt path (.frameLength p.length p'.length)) := by
  rw [unframe_parts (length_stored _) (Bytes.length_little _ _), littleValue_length h, if_pos hp]

theorem unframe_take (h : p.length < 2 ^ 32) (hn : n < (frame p).length) :
    ∃ reason : Corruption, reason.Measures p.length n ∧
      unframe path ((frame p).take n) = .error (.corrupt path reason) := by
  have hlen : ((frame p).take n).length = n := by
    rw [List.length_take, Nat.min_eq_left hn.le]
  rcases Nat.lt_or_ge n 8 with hshort | hlong
  · exact ⟨.shortFrame n, ⟨hshort, rfl⟩, by rw [unframe, if_pos (by rwa [hlen]), hlen]⟩
  · rw [length_frame] at hn
    have htake : (frame p).take n = Checksum.stored (Checksum.crc32 p) ++
        (Bytes.little 4 p.length ++ p.take (n - 8)) := by
      rw [frame_eq, List.take_append, List.take_append, length_stored, Bytes.length_little,
        Nat.sub_sub, List.take_of_length_le (by rw [length_stored]; omega),
        List.take_of_length_le (by rw [Bytes.length_little]; omega)]
    have hcut : (p.take (n - 8)).length = n - 8 := by
      rw [List.length_take]
      omega
    refine ⟨.frameLength p.length (n - 8), ⟨hlong, rfl, rfl⟩, ?_⟩
    rw [htake, unframe_of_length h (by omega), hcut]

theorem unframe_append (h : p.length < 2 ^ 32) (hmore : more ≠ []) :
    ∃ reason : Corruption, reason.Measures p.length (frame p ++ more).length ∧
      unframe path (frame p ++ more) = .error (.corrupt path reason) := by
  have hpos := List.length_pos_iff.2 hmore
  refine ⟨.frameLength p.length (p ++ more).length, ⟨?_, rfl, ?_⟩, ?_⟩
  · rw [List.length_append, length_frame]
    omega
  · rw [List.length_append, List.length_append, length_frame]
    omega
  · rw [frame_eq, List.append_assoc, List.append_assoc, unframe_of_length h]
    rw [List.length_append]
    omega

/-! ## Catalogs -/

/-- What is refused as a frame is refused as a catalog. -/
theorem load_of_unframe {e : StorageError} (hread : disk.read path = .ok bs)
    (h : unframe path bs = .error e) : load disk path = .error e := by
  rw [load, hread]
  simp only [decode, h]
  rfl

/-- **A damaged catalog is reported.** The file of a catalog with any entries is refused as corrupt
    if one byte of it is another one, if it is cut to any length, or if any bytes have been added to
    it; and what is reported is the place of the damage, or the length. -/
theorem load_damaged (h : (payload es).length < 2 ^ 32) :
    (∀ i b, (hi : i < (encode es).length) → (encode es)[i] ≠ b →
      disk.read path = .ok ((encode es).set i b) →
      ∃ reason : Corruption, reason.Locates (payload es).length i ∧
        load disk path = .error (.corrupt path reason)) ∧
    (∀ n < (encode es).length, disk.read path = .ok ((encode es).take n) →
      ∃ reason : Corruption, reason.Measures (payload es).length n ∧
        load disk path = .error (.corrupt path reason)) ∧
    ∀ more, more ≠ [] → disk.read path = .ok (encode es ++ more) →
      ∃ reason : Corruption, reason.Measures (payload es).length (encode es ++ more).length ∧
        load disk path = .error (.corrupt path reason) := by
  refine ⟨fun i b hi hb hread => ?_, fun n hn hread => ?_, fun more hmore hread => ?_⟩
  · obtain ⟨reason, hreason, hbad⟩ := unframe_set h hi hb
    exact ⟨reason, hreason, load_of_unframe hread hbad⟩
  · obtain ⟨reason, hreason, hbad⟩ := unframe_take h hn
    exact ⟨reason, hreason, load_of_unframe hread hbad⟩
  · obtain ⟨reason, hreason, hbad⟩ := unframe_append h hmore
    exact ⟨reason, hreason, load_of_unframe hread hbad⟩

/-- The second copy of a key, which is the only entry. -/
def sampleEntries : List Replica := [⟨⟨"a", .ofNat 7⟩, 2⟩]

/-- The file of a catalog holds `bs`. -/
def diskOf (bs : Bytes) : FileTree := ⟨[([fileName], .file bs)]⟩

theorem read_diskOf (bs : Bytes) : (diskOf bs).read [fileName] = .ok bs := rfl

/-- The length is changed by its highest byte, the last byte is cut off, and one is added. -/
theorem load_damaged_sampleEntries :
    (payload sampleEntries).length < 2 ^ 32 ∧
      (∃ hi : 7 < (encode sampleEntries).length, (encode sampleEntries)[7] ≠ 1 ∧
        ∃ reason : Corruption, reason.Locates (payload sampleEntries).length 7 ∧
          load (diskOf ((encode sampleEntries).set 7 1)) [fileName] =
            .error (.corrupt [fileName] reason)) ∧
      (95 < (encode sampleEntries).length ∧
        ∃ reason : Corruption, reason.Measures (payload sampleEntries).length 95 ∧
          load (diskOf ((encode sampleEntries).take 95)) [fileName] =
            .error (.corrupt [fileName] reason)) ∧
      ∃ reason : Corruption,
        reason.Measures (payload sampleEntries).length (encode sampleEntries ++ [0]).length ∧
          load (diskOf (encode sampleEntries ++ [0])) [fileName] =
            .error (.corrupt [fileName] reason) := by
  have h : (payload sampleEntries).length < 2 ^ 32 := by decide +kernel
  have hget : (encode sampleEntries)[7]? = some 0 := by decide +kernel
  obtain ⟨hi, hget⟩ := List.getElem?_eq_some_iff.1 hget
  have hb : (encode sampleEntries)[7] ≠ 1 := by
    rw [hget]
    decide
  have hn : 95 < (encode sampleEntries).length := by decide +kernel
  exact ⟨h, ⟨hi, hb, (load_damaged h).1 7 1 hi hb (read_diskOf _)⟩,
    ⟨hn, (load_damaged h).2.1 95 hn (read_diskOf _)⟩,
    (load_damaged h).2.2 [0] (List.cons_ne_nil _ _) (read_diskOf _)⟩

end Catalog

end ReplicaRing
