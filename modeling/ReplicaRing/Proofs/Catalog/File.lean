import ReplicaRing.Proofs.Catalog
import ReplicaRing.Proofs.Json

/-!
# Catalog files are read back

A catalog file holds the entries of a catalog as JSON behind a checksum and a length
(`Catalog.encode`). Four bytes tell the length, so a payload of `2 ^ 32` bytes or more is not
read back: its file is refused (`Catalog.decode_encode_of_ge`). All shorter ones are, whatever
the names and ranks of the entries (`Catalog.decode_encode`).
-/

namespace ReplicaRing

/-! ## Replicas -/

/-- What is written item by item is read item by item. -/
theorem mapM_map_eq_some {α β : Type} {f : α → β} {g : β → Option α} {xs : List α}
    (h : ∀ x ∈ xs, g (f x) = some x) : (xs.map f).mapM g = some xs := by
  induction xs with
  | nil => rfl
  | cons x xs ih =>
    rw [List.map_cons, List.mapM_cons, h x List.mem_cons_self,
      ih fun y hy => h y (List.mem_cons_of_mem _ hy)]
    rfl

open Json (Plain)

theorem Point.plain_toJson (p : Point) : Plain p.toJson := by
  refine .array fun v hv => ?_
  obtain ⟨b, -, rfl⟩ := List.mem_map.1 hv
  exact .number _

theorem Point.ofBytes_bytes (p : Point) : Point.ofBytes p.bytes = p := by
  have hspan : Bytes.span 20 = Point.count := by decide
  ext
  rw [ofBytes, bytes, Bytes.bigValue, Bytes.big, List.reverse_reverse,
    Bytes.littleValue_little_of_lt (hspan ▸ p.isLt)]
  exact Nat.mod_eq_of_lt p.isLt

theorem Point.ofJson?_toJson (p : Point) : Point.ofJson? p.toJson = some p := by
  have hlen : p.bytes.length = 20 := by simp [bytes]
  have hitems : (p.bytes.map fun b => Json.ofNat b.toNat).mapM
      (fun v => (v.nat? 256).map UInt8.ofNat) = some p.bytes :=
    mapM_map_eq_some fun b _ => by simp [Json.nat?_ofNat b.toNat_lt]
  simp only [ofJson?, toJson, hitems, Option.bind_eq_bind, Option.bind_some, hlen, if_true,
    ofBytes_bytes]

/-- A record of two fields whose names need no escapes. -/
theorem Json.fields?_pair {a b : String} (hab : a ≠ b)
    (ha : escape (Bytes.ofString a) = Bytes.ofString a)
    (hb : escape (Bytes.ofString b) = Bytes.ofString b) (v w : Json) :
    fields? [a, b] (.object [(Bytes.ofString a, v), (Bytes.ofString b, w)]) = some [v, w] := by
  have ha' := unquote?_escape a
  have hb' := unquote?_escape b
  rw [ha] at ha'
  rw [hb] at hb'
  simp [fields?, ha', hb', hab, hab.symm]

theorem Json.plain_pair {a b : String}
    (ha : escape (Bytes.ofString a) = Bytes.ofString a)
    (hb : escape (Bytes.ofString b) = Bytes.ofString b) {v w : Json} (hv : Plain v)
    (hw : Plain w) : Plain (.object [(Bytes.ofString a, v), (Bytes.ofString b, w)]) := by
  refine .object ?_ ?_
  · simp only [List.forall_mem_cons]
    exact ⟨⟨_, ha.symm⟩, ⟨_, hb.symm⟩, nofun⟩
  · simp only [List.forall_mem_cons]
    exact ⟨hv, hw, nofun⟩

theorem Key.plain_toJson (key : Key) : Plain key.toJson :=
  Json.plain_pair (by decide) (by decide) (.string _) key.point.plain_toJson

theorem Key.ofJson?_toJson (key : Key) : Key.ofJson? key.toJson = some key := by
  rw [ofJson?, toJson, Json.fields?_pair (by decide) (by decide) (by decide)]
  simp [Json.text?_ofText, Point.ofJson?_toJson]

theorem Replica.plain_toJson (r : Replica) : Plain r.toJson :=
  Json.plain_pair (by decide) (by decide) r.key.plain_toJson (.number _)

/-- A replica is read back from its record, whatever its name, point and rank. -/
theorem Replica.ofJson?_toJson (r : Replica) : Replica.ofJson? r.toJson = some r := by
  rw [ofJson?, toJson, Json.fields?_pair (by decide) (by decide) (by decide)]
  simp [Key.ofJson?_toJson, Json.nat?_ofNat r.rank.toNat_lt]

/-! ## Catalogs -/

namespace Catalog

variable {es : List Replica}

/-- The list of entries is read back from the payload. -/
theorem parse_payload (es : List Replica) : parse (payload es) = some es := by
  have hplain : Plain (.array (es.map Replica.toJson)) := by
    refine .array fun v hv => ?_
    obtain ⟨r, -, rfl⟩ := List.mem_map.1 hv
    exact r.plain_toJson
  rw [parse, payload, Json.parse_write hplain]
  exact mapM_map_eq_some fun r _ => r.ofJson?_toJson

/-- The bytes of the file tell the entries. -/
theorem encode_injective : Function.Injective encode := by
  intro es fs h
  have hpayload : ∀ es, (encode es).drop 8 = payload es := fun es =>
    List.drop_left' (by simp [Checksum.stored])
  have hparse := congrArg parse ((hpayload es).symm.trans ((congrArg _ h).trans (hpayload fs)))
  rw [parse_payload, parse_payload] at hparse
  exact Option.some.inj hparse

theorem place_of_lt {r : Replica} (h : ∀ s ∈ es, s.name < r.name) : place r es = es ++ [r] := by
  induction es with
  | nil => rfl
  | cons s es ih =>
    have hs := h s List.mem_cons_self
    rw [place, if_neg (String.lt_asymm hs), if_neg (String.ne_of_lt hs).symm,
      ih fun t ht => h t (List.mem_cons_of_mem _ ht), List.cons_append]

/-- Entries in order are put in their places as they are. -/
theorem foldl_place (h : Sorted es) : es.foldl (fun es r => place r es) [] = es := by
  induction es using List.reverseRecOn with
  | nil => rfl
  | append_singleton es r ih =>
    obtain ⟨hs, -, hlt⟩ := List.pairwise_append.1 h
    rw [List.foldl_append, ih hs]
    exact place_of_lt fun s hs => hlt s hs r (List.mem_singleton_self r)

/-- The length that a frame tells of its payload is taken modulo `2 ^ 32`. -/
theorem unframe_frame (path : Path) (p : Bytes) :
    unframe path (frame p) = if p.length < 2 ^ 32 then .ok p
      else .error (.corrupt path (.frameLength (p.length % 2 ^ 32) p.length)) := by
  have hcrc : (frame p).take 4 = Checksum.stored (Checksum.crc32 p) := by
    rw [frame, List.append_assoc]
    exact List.take_left' (by simp [Checksum.stored])
  have hlen : ((frame p).drop 4).take 4 = Bytes.little 4 p.length := by
    rw [frame, List.append_assoc, List.drop_left' (by simp [Checksum.stored])]
    exact List.take_left' (by simp)
  have hrest : (frame p).drop 8 = p := List.drop_left' (by simp [Checksum.stored])
  have hlong : ¬(frame p).length < 8 := by
    simp only [frame, Checksum.stored, List.length_append, Bytes.length_little]
    omega
  have hspan : Bytes.span 4 = 2 ^ 32 := by decide
  rw [unframe, if_neg hlong]
  simp only [hcrc, hlen, hrest, Index.ofStored_stored, Bytes.littleValue_little, hspan]
  by_cases h : p.length < 2 ^ 32
  · rw [Nat.mod_eq_of_lt h]
    simp only [ne_eq, not_true_eq_false, if_false, if_pos h]
  · have hne : p.length ≠ p.length % 2 ^ 32 := by
      have := Nat.mod_lt p.length (Nat.two_pow_pos 32)
      omega
    rw [if_pos hne, if_neg h]

/-- A file is read back as long as four bytes tell the length of its payload. -/
theorem decode_encode (path : Path) (hs : Sorted es) (h : (payload es).length < 2 ^ 32) :
    decode path (encode es) = .ok es := by
  rw [decode, encode, unframe_frame, if_pos h]
  simp only [parse_payload, foldl_place hs]

/-- A file that is too long is refused, and no other entries are read from it. -/
theorem decode_encode_of_ge (path : Path) (h : ¬(payload es).length < 2 ^ 32) :
    decode path (encode es) = .error (.corrupt path
      (.frameLength ((payload es).length % 2 ^ 32) (payload es).length)) := by
  rw [decode, encode, unframe_frame, if_neg h]

end Catalog

end ReplicaRing
