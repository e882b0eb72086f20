import ReplicaRing.Log
import ReplicaRing.Proofs.Index.Codec

/-!
# Histories

What a log is to remember of a key is its *history* (`Log.History`): the values written to
it, with their times, in order. A history answers every question by itself
(`Log.History.latest`, `asOf`, `range`, `tip`).

On disk a history is two files: its bytes one value behind the other, and its entries.

* The tip of the entries is the tip of the history (`Log.History.tipOf_entries`).
* The spans of the entries tell where in the data file the values are
  (`Log.History.valuesIn_spansFrom`).
* An index that holds the entries finds the spans of what the history answers
  (`Log.History.asOf_span`, `range_spans`).
-/

namespace ReplicaRing.Log

/-! ## Words -/

theorem wordAfter?_of_lt {w : UInt64} {n : Nat} (h : w.toNat + n < 2 ^ 64) :
    wordAfter? w n = some (w + UInt64.ofNat n) := if_pos h

theorem wordAfter?_eq_none {w : UInt64} {n : Nat} :
    wordAfter? w n = none ↔ ¬w.toNat + n < 2 ^ 64 := by
  rw [wordAfter?, ite_eq_right_iff]
  exact ⟨fun h hlt => absurd (h hlt) (by simp), fun h hlt => absurd hlt h⟩

theorem eq_add_of_wordAfter? {w v : UInt64} {n : Nat} (h : wordAfter? w n = some v) :
    v = w + UInt64.ofNat n := by
  by_cases hlt : w.toNat + n < 2 ^ 64
  · exact Option.some.inj (h.symm.trans (wordAfter?_of_lt hlt))
  · cases h.symm.trans (wordAfter?_eq_none.2 hlt)

/-! ## Writes -/

/-- A value with the time it was written at. -/
structure Write where
  time : Time
  value : Bytes
deriving DecidableEq, Repr

/-- What was written to a key, the earliest first. -/
abbrev History := List Write

namespace History

/-! ## Questions -/

/-- The last value. -/
def latest (h : History) : Option Bytes := h.getLast?.map (·.value)

theorem latest_concat (h : History) (w : Write) : latest (h ++ [w]) = some w.value := by
  rw [latest, List.getLast?_concat, Option.map_some]

/-- The value with the greatest time up to `t`. -/
def asOf (h : History) (t : Time) : Option Bytes :=
  latest (h.filter (·.time ≤ t))

/-- The values written at `first` or later, up to `final`. -/
def range (h : History) (first final : Time) : List Bytes :=
  (h.filter fun w => first ≤ w.time ∧ w.time ≤ final).map (·.value)

/-- All bytes, one value behind the other. -/
def bytes (h : History) : Bytes := h.flatMap (·.value)

/-- The last time, and where among the bytes the last value is. -/
def tip (h : History) : Option Index.Tip :=
  h.getLast?.map fun w =>
    ⟨w.time, UInt64.ofNat (bytes h.dropLast).length, UInt64.ofNat (bytes h).length⟩

/-- Times strictly increase. -/
def Ordered (h : History) : Prop := h.Pairwise fun a b => a.time < b.time

/-- Every place among the bytes has an offset. -/
def Addressable (h : History) : Prop := (bytes h).length < 2 ^ 64

instance (h : History) : Decidable (Addressable h) := inferInstanceAs (Decidable (_ < _))

/-! ## Entries -/

/-- The entries of writes whose bytes begin at `n`. -/
def entriesFrom (n : Nat) : History → List Index.Entry
  | [] => []
  | w :: h => ⟨w.time, UInt64.ofNat (n + w.value.length)⟩ :: entriesFrom (n + w.value.length) h

/-- The entries that tell where the values end. -/
def entries (h : History) : List Index.Entry := entriesFrom 0 h

variable {h g : History} {w : Write} {n : Nat} {t : Time}

@[simp] theorem bytes_nil : bytes [] = [] := rfl

@[simp] theorem bytes_append (h g : History) : bytes (h ++ g) = bytes h ++ bytes g :=
  List.flatMap_append

@[simp] theorem bytes_singleton (w : Write) : bytes [w] = w.value := List.flatMap_singleton _ _

@[simp] theorem bytes_cons (w : Write) (h : History) : bytes (w :: h) = w.value ++ bytes h := rfl

@[simp] theorem entries_nil : entries [] = [] := rfl

theorem entriesFrom_append (n : Nat) (h g : History) :
    entriesFrom n (h ++ g) = entriesFrom n h ++ entriesFrom (n + (bytes h).length) g := by
  induction h generalizing n with
  | nil => rfl
  | cons w h ih =>
    rw [List.cons_append, entriesFrom, entriesFrom, ih, List.cons_append, bytes_cons,
      List.length_append, Nat.add_assoc]

theorem entries_append (h g : History) :
    entries (h ++ g) = entries h ++ entriesFrom (bytes h).length g := by
  rw [entries, entriesFrom_append, Nat.zero_add, entries]

theorem entries_concat (h : History) (w : Write) :
    entries (h ++ [w]) = entries h ++ [⟨w.time, UInt64.ofNat (bytes (h ++ [w])).length⟩] := by
  rw [entries_append, entriesFrom, entriesFrom, bytes_append, bytes_singleton, List.length_append]

/-- Every entry has the time of a write. -/
theorem exists_of_mem_entriesFrom {e : Index.Entry} (he : e ∈ entriesFrom n h) :
    ∃ w ∈ h, w.time = e.time := by
  induction h generalizing n with
  | nil => nomatch he
  | cons w h ih =>
    rcases List.mem_cons.1 he with rfl | he
    · exact ⟨w, List.mem_cons_self, rfl⟩
    · obtain ⟨w', hw', ht⟩ := ih he
      exact ⟨w', List.mem_cons_of_mem _ hw', ht⟩

/-- Values end behind the bytes before them. -/
theorem le_toNat_stop {e : Index.Entry} (he : e ∈ entriesFrom n h)
    (hn : n + (bytes h).length < 2 ^ 64) : n ≤ e.stop.toNat := by
  induction h generalizing n with
  | nil => nomatch he
  | cons w h ih =>
    rw [bytes_cons, List.length_append] at hn
    rcases List.mem_cons.1 he with rfl | he
    · rw [UInt64.toNat_ofNat_of_lt' (by show _ < 2 ^ 64; omega)]
      omega
    · have := ih he (by omega)
      omega

theorem ascending_entriesFrom (ho : h.Ordered) (hn : n + (bytes h).length < 2 ^ 64) :
    Index.Ascending (entriesFrom n h) := by
  induction h generalizing n with
  | nil => exact .nil
  | cons w h ih =>
    rw [bytes_cons, List.length_append] at hn
    obtain ⟨hw, ho⟩ := List.pairwise_cons.1 ho
    refine List.pairwise_cons.2 ⟨fun e he => ⟨?_, ?_⟩, ih ho (by omega)⟩
    · obtain ⟨w', hw', ht⟩ := exists_of_mem_entriesFrom he
      exact ht ▸ hw w' hw'
    · have := le_toNat_stop he (by omega)
      rw [UInt64.le_iff_toNat_le, UInt64.toNat_ofNat_of_lt' (by show _ < 2 ^ 64; omega)]
      exact this

/-- A history is told by its entries and its bytes, whatever there is behind them. -/
theorem eq_of_entriesFrom {junk junk' : Bytes} (he : entriesFrom n h = entriesFrom n g)
    (hb : bytes h ++ junk = bytes g ++ junk') (hh : n + (bytes h).length < 2 ^ 64)
    (hg : n + (bytes g).length < 2 ^ 64) : h = g := by
  induction h generalizing g n with
  | nil =>
    cases g with
    | nil => rfl
    | cons u g => cases he
  | cons w h ih =>
    cases g with
    | nil => cases he
    | cons u g =>
      simp only [entriesFrom, List.cons.injEq, Index.Entry.mk.injEq] at he
      obtain ⟨⟨ht, hstop⟩, he⟩ := he
      simp only [bytes_cons, List.length_append] at hh hg
      -- Both values begin at `n`, and no end wraps round, so equal ends are equal lengths.
      have hlen : w.value.length = u.value.length := by
        have := congrArg UInt64.toNat hstop
        rw [UInt64.toNat_ofNat_of_lt' (by show _ < 2 ^ 64; omega),
          UInt64.toNat_ofNat_of_lt' (by show _ < 2 ^ 64; omega)] at this
        omega
      rw [bytes_cons, bytes_cons, List.append_assoc, List.append_assoc] at hb
      obtain ⟨hv, hb⟩ := List.append_inj hb hlen
      have hwu : w = u := by
        cases w
        cases u
        cases ht
        cases hv
        rfl
      rw [hwu, ih (hlen ▸ he) hb (by omega) (by omega)]

/-- One more value has offsets if it ends before the words do. -/
theorem addressable_concat (ha : h.Addressable) {w : Write} : Addressable (h ++ [w]) ↔
    (UInt64.ofNat (bytes h).length).toNat + w.value.length < 2 ^ 64 := by
  rw [UInt64.toNat_ofNat_of_lt' ha, Addressable, bytes_append, bytes_singleton, List.length_append]

theorem ascending_entries (ho : h.Ordered) (ha : h.Addressable) : Index.Ascending (entries h) :=
  ascending_entriesFrom ho (by rwa [Nat.zero_add])

@[simp] theorem stopOf_entries (h : History) :
    Index.stopOf (entries h) = UInt64.ofNat (bytes h).length := by
  rcases List.eq_nil_or_concat h with rfl | ⟨h, w, rfl⟩
  · rfl
  · rw [List.concat_eq_append, entries_concat, Index.stopOf_concat]

/-- The entries tell the tip. -/
@[simp] theorem tipOf_entries (h : History) : Index.tipOf (entries h) = h.tip := by
  rcases List.eq_nil_or_concat h with rfl | ⟨h, w, rfl⟩
  · rfl
  · rw [List.concat_eq_append, entries_concat, Index.tipOf_concat, stopOf_entries, tip]
    simp

@[simp] theorem tip_nil : tip [] = none := rfl

@[simp] theorem tip_concat (h : History) (w : Write) :
    tip (h ++ [w]) = some ⟨w.time, UInt64.ofNat (bytes h).length,
      UInt64.ofNat (bytes (h ++ [w])).length⟩ := by
  simp [tip]

@[simp] theorem tip_eq_none : h.tip = none ↔ h = [] := by
  rw [tip, Option.map_eq_none_iff, List.getLast?_eq_none_iff]

/-! ## Cuts -/

/-- An ordered history is cut in two by what is true up to some time. -/
theorem Ordered.eq_filter_append (ho : h.Ordered) {p : Write → Bool}
    (hp : ∀ a b, a.time < b.time → p b = true → p a = true) :
    h = h.filter p ++ h.filter fun w => !p w :=
  Index.eq_filter_append_of_pairwise ho hp

/-- The last write of an ordered history is the latest. -/
theorem Ordered.time_le_last (ho : h.Ordered) {l : Write} (hl : h.getLast? = some l) :
    ∀ v ∈ h, v.time ≤ l.time := by
  obtain ⟨h, rfl⟩ := List.getLast?_eq_some_iff.1 hl
  intro v hv
  rcases List.mem_append.1 hv with hv | hv
  · exact UInt64.le_of_lt ((List.pairwise_append.1 ho).2.2 v hv l (List.mem_singleton_self l))
  · rw [List.mem_singleton.1 hv]
    exact UInt64.le_refl _

theorem asOf_of_last_le (ho : h.Ordered) {l : Write} (hl : h.getLast? = some l)
    (ht : l.time ≤ t) : h.asOf t = h.latest := by
  rw [asOf, List.filter_eq_self.2 fun v hv =>
    decide_eq_true (UInt64.le_trans (ho.time_le_last hl v hv) ht)]

/-- What `asOf` finds has the greatest time up to `t`. -/
theorem asOf_eq_some {v : Bytes} (ho : h.Ordered) (hv : h.asOf t = some v) :
    ∃ w ∈ h, w.value = v ∧ w.time ≤ t ∧ ∀ u ∈ h, u.time ≤ t → u.time ≤ w.time := by
  rw [asOf, latest, Option.map_eq_some_iff] at hv
  obtain ⟨w, hw, rfl⟩ := hv
  obtain ⟨hwh, hwt⟩ := List.mem_filter.1 (List.mem_of_getLast? hw)
  refine ⟨w, hwh, rfl, of_decide_eq_true hwt, fun u hu hut => ?_⟩
  exact Ordered.time_le_last (List.Pairwise.filter _ ho) hw u
    (List.mem_filter.2 ⟨hu, decide_eq_true hut⟩)

theorem asOf_eq_none : h.asOf t = none ↔ ∀ u ∈ h, t < u.time := by
  rw [asOf, latest, Option.map_eq_none_iff, List.getLast?_eq_none_iff, List.filter_eq_nil_iff]
  simp [UInt64.not_le]

theorem Ordered.concat (ho : h.Ordered) (hw : ∀ l, h.getLast? = some l → l.time < w.time) :
    Ordered (h ++ [w]) := by
  refine List.pairwise_append.2 ⟨ho, List.pairwise_singleton _ _, fun a ha b hb => ?_⟩
  rw [List.mem_singleton.1 hb]
  rcases List.eq_nil_or_concat h with rfl | ⟨h, l, rfl⟩
  · nomatch ha
  · rw [List.concat_eq_append] at *
    have hl := hw l List.getLast?_concat
    rcases List.mem_append.1 ha with ha | ha
    · exact UInt64.lt_trans ((List.pairwise_append.1 ho).2.2 a ha l (by simp)) hl
    · rwa [List.mem_singleton.1 ha]

/-! ## Finding values -/

/-- The span of the last value. -/
theorem getLast?_spansFrom_entries (h : History) :
    (Index.spansFrom 0 (entries h)).getLast? = h.tip.map (·.span) := by
  rcases List.eq_nil_or_concat h with rfl | ⟨h, w, rfl⟩
  · rfl
  · rw [List.concat_eq_append, entries_concat, Index.getLast?_spansFrom_concat, stopOf_entries,
      tip_concat]
    rfl

/-- The span of an entry has the length of its value. -/
theorem toNat_length_span {m : Nat} (hm : n + m < 2 ^ 64) :
    (Index.Span.length ⟨UInt64.ofNat n, UInt64.ofNat (n + m)⟩).toNat = m := by
  have hle : UInt64.ofNat n ≤ UInt64.ofNat (n + m) := by
    rw [UInt64.le_iff_toNat_le, UInt64.toNat_ofNat_of_lt' (by show _ < 2 ^ 64; omega),
      UInt64.toNat_ofNat_of_lt' hm]
    omega
  rw [Index.Span.length, UInt64.toNat_sub_of_le _ _ hle,
    UInt64.toNat_ofNat_of_lt' hm, UInt64.toNat_ofNat_of_lt' (by show _ < 2 ^ 64; omega),
    Nat.add_sub_cancel_left]

theorem isEmpty_span {m : Nat} (hm : n + m < 2 ^ 64) :
    Index.Span.isEmpty ⟨UInt64.ofNat n, UInt64.ofNat (n + m)⟩ = decide (m = 0) := by
  rw [Index.Span.isEmpty, decide_eq_decide]
  constructor
  · intro h
    have hlen := toNat_length_span hm
    rw [Index.Span.length, h, UInt64.sub_self] at hlen
    exact hlen.symm
  · rintro rfl
    rfl

theorem slice_append (pre v rest : Bytes) (hlen : pre.length + v.length < 2 ^ 64) :
    slice (pre ++ (v ++ rest))
      ⟨UInt64.ofNat pre.length, UInt64.ofNat (pre.length + v.length)⟩ = .ok v := by
  have hstart : (UInt64.ofNat pre.length).toNat = pre.length :=
    UInt64.toNat_ofNat_of_lt' (by show _ < 2 ^ 64; omega)
  rw [slice]
  simp only [toNat_length_span hlen, hstart, List.drop_left, List.take_left, Nat.lt_irrefl, if_false]

/-- The values of some writes are found behind the bytes of those before. -/
theorem valuesIn_spansFrom (g h : History) (rest : Bytes) (ha : Addressable (g ++ h)) :
    valuesIn (bytes g ++ (bytes h ++ rest))
      (Index.spansFrom (UInt64.ofNat (bytes g).length) (entriesFrom (bytes g).length h)) =
      .ok (h.map (·.value)) := by
  induction h generalizing g with
  | nil => rfl
  | cons w h ih =>
    have hlen : (bytes g).length + w.value.length < 2 ^ 64 := by
      rw [Addressable, bytes_append, bytes_cons] at ha
      simp only [List.length_append] at ha
      omega
    have hnext := ih (g ++ [w]) (by simpa using ha)
    rw [bytes_append, bytes_singleton, List.length_append, List.append_assoc] at hnext
    rw [entriesFrom, Index.spansFrom, valuesIn, bytes_cons, List.append_assoc,
      slice_append _ _ _ hlen, hnext, List.map_cons]
    rw [isEmpty_span hlen]
    by_cases hv : w.value = []
    · simp [Except.map, hv]
    · simp [Except.map, hv]

/-- Tombstones need no data file. -/
theorem valuesIn_of_all_isEmpty {spans : List Index.Span} (h : spans.all (·.isEmpty) = true)
    (bs : Bytes) : valuesIn bs spans = .ok (spans.map fun _ => []) := by
  induction spans with
  | nil => rfl
  | cons s ss ih =>
    rw [List.all_cons, Bool.and_eq_true] at h
    rw [valuesIn, if_pos h.1, ih h.2]
    rfl

/-! ## Finding spans -/

variable {x : Index}

/-- A search by time finds the span of the last value up to then. -/
theorem asOf_span (ho : h.Ordered) (hx : x.Holds h.entries) (t : Time) :
    x.asOf t = (tip (h.filter (·.time ≤ t))).map (·.span) ∧
      ∃ later, h = h.filter (·.time ≤ t) ++ later := by
  have hcut := ho.eq_filter_append (p := fun w => decide (w.time ≤ t)) fun a b hab hb =>
    decide_eq_true (UInt64.le_trans (UInt64.le_of_lt hab) (of_decide_eq_true hb))
  refine ⟨?_, _, hcut⟩
  rw [hcut, entries_append] at hx
  rw [← getLast?_spansFrom_entries]
  refine hx.asOf (fun e he => ?_) fun e he => ?_
  · obtain ⟨w, hw, ht⟩ := exists_of_mem_entriesFrom he
    exact ht ▸ of_decide_eq_true (List.mem_filter.1 hw).2
  · obtain ⟨w, hw, ht⟩ := exists_of_mem_entriesFrom he
    have := (List.mem_filter.1 hw).2
    rw [Bool.not_eq_true', decide_eq_false_iff_not, UInt64.not_le] at this
    exact ht ▸ this

/-- A search by a stretch of time finds the spans of the values written in it. -/
theorem range_spans (ho : h.Ordered) (hx : x.Holds h.entries) (first final : Time) :
    ∃ earlier mid later, h = earlier ++ (mid ++ later) ∧ h.range first final = mid.map (·.value) ∧
      x.range first final =
        Index.spansFrom (UInt64.ofNat (bytes earlier).length)
          (entriesFrom (bytes earlier).length mid) := by
  -- The history is in order, so each filter cuts it in two.
  set earlier := h.filter (·.time < first) with hearlier
  set rest := h.filter fun w => !decide (w.time < first) with hrest
  have hcut₁ : h = earlier ++ rest := ho.eq_filter_append fun a b hab hb =>
    decide_eq_true (UInt64.lt_trans hab (of_decide_eq_true hb))
  have hro : Ordered rest := List.Pairwise.filter _ ho
  set mid := rest.filter (·.time ≤ final) with hmid
  set later := rest.filter fun w => !decide (w.time ≤ final) with hlater
  have hcut₂ : rest = mid ++ later := hro.eq_filter_append fun a b hab hb =>
    decide_eq_true (UInt64.le_trans (UInt64.le_of_lt hab) (of_decide_eq_true hb))
  refine ⟨earlier, mid, later, by rw [← hcut₂, ← hcut₁], ?_, ?_⟩
  · rw [range, hmid, hrest, List.filter_filter]
    congr 1
    refine List.filter_congr fun w _ => ?_
    rw [Bool.and_comm (decide (w.time ≤ final)), ← decide_not, ← Bool.decide_and]
    simp only [UInt64.not_lt]
  · rw [hcut₁, hcut₂, entries_append, entriesFrom_append] at hx
    rw [← stopOf_entries]
    refine hx.range (fun e he => ?_) (fun e he => ?_) fun e he => ?_
    · obtain ⟨w, hw, ht⟩ := exists_of_mem_entriesFrom he
      exact ht ▸ of_decide_eq_true (List.mem_filter.1 hw).2
    · obtain ⟨w, hw, ht⟩ := exists_of_mem_entriesFrom he
      obtain ⟨hw, hle⟩ := List.mem_filter.1 hw
      have hge := (List.mem_filter.1 hw).2
      rw [Bool.not_eq_true', decide_eq_false_iff_not, UInt64.not_lt] at hge
      exact ht ▸ ⟨hge, of_decide_eq_true hle⟩
    · obtain ⟨w, hw, ht⟩ := exists_of_mem_entriesFrom he
      have := (List.mem_filter.1 hw).2
      rw [Bool.not_eq_true', decide_eq_false_iff_not, UInt64.not_le] at this
      exact ht ▸ this

end History

end ReplicaRing.Log
