import Mathlib.Data.List.FinRange
import ReplicaRing.Proofs.Index.Answers

/-!
# An index refines a list of entries

Seen from outside, an index is a list of entries, the last of which decides what may follow
(`Index.Follows`). Of the entries offered to it an index keeps those that may follow the ones
kept before (`Index.accepted`).

Main statement: an index that started empty answers as that list does, whatever its fanout
and whatever was offered to it (`Index.refines_accepted`). The list answers by plain search
(`Index.Refines`), with no pages, keys or links between leaves.
-/

namespace ReplicaRing.Index

variable {x : Index} {es : List Entry} {e : Entry} {t : Time}

/-! ## Offering entries -/

/-- The entry is later than the last of `es` and does not end before it. -/
def Follows (es : List Entry) (e : Entry) : Prop :=
  ∀ l ∈ es.getLast?, l.time < e.time ∧ l.stop ≤ e.stop

instance (es : List Entry) (e : Entry) : Decidable (Follows es e) :=
  inferInstanceAs (Decidable (∀ l ∈ es.getLast?, _))

/-- Those of the entries offered one by one that follow the ones kept before. -/
def accepted (offered : List Entry) : List Entry :=
  offered.foldl (fun es e => if Follows es e then es ++ [e] else es) []

/-- The index after an entry was offered to it. A refused entry leaves it as it was. -/
def offer (x : Index) (e : Entry) : Index :=
  match x.insert e with
  | .ok y => y
  | .error _ => x

theorem accepted_concat (offered : List Entry) (e : Entry) :
    accepted (offered ++ [e]) =
      if Follows (accepted offered) e then accepted offered ++ [e] else accepted offered := by
  rw [accepted, List.foldl_append]
  rfl

theorem refusal?_eq_some {last : Option Entry} {err : Error} :
    refusal? last e = some err ↔ ∃ l ∈ last,
      e.time ≤ l.time ∧ err = .nonMonotonic l.time e.time ∨
      l.time < e.time ∧ e.stop < l.stop ∧ err = .offsetRegression l.stop e.stop := by
  cases last with
  | none => simp [refusal?]
  | some l =>
    simp only [refusal?, Option.mem_some_iff, exists_eq_left']
    split_ifs with htime hstop
    · simp [htime, UInt64.not_lt.2 htime, eq_comm]
    · simp [htime, UInt64.not_le.1 htime, hstop, eq_comm]
    · simp [htime, hstop]

theorem refusal?_eq_none : refusal? es.getLast? e = none ↔ Follows es e := by
  rw [Option.eq_none_iff_forall_ne_some, Follows]
  cases es.getLast? with
  | none => simp [refusal?]
  | some l =>
    simp only [refusal?, Option.mem_some_iff, forall_eq']
    split_ifs with htime hstop
    · simp [UInt64.not_lt.2 htime]
    · simp [UInt64.not_le.2 hstop]
    · simp [UInt64.not_le.1 htime, UInt64.not_lt.1 hstop]

/-- An index that holds the accepted entries goes on to do so. -/
theorem Holds.offer (hx : x.Holds es) (e : Entry) :
    (x.offer e).Holds (if Follows es e then es ++ [e] else es) := by
  rw [Index.offer]
  split_ifs with hf
  · obtain ⟨y, hy, hes, -⟩ := hx.insert (refusal?_eq_none.2 hf)
    rwa [hy]
  · obtain ⟨err, herr⟩ := Option.ne_none_iff_exists'.1 (mt refusal?_eq_none.1 hf)
    rw [Index.insert, hx.last?, herr]
    exact hx

theorem holds_accepted (fanout : Nat) (offered : List Entry) :
    (offered.foldl offer (empty fanout)).Holds (accepted offered) := by
  induction offered using List.reverseRecOn with
  | nil => exact holds_empty fanout
  | append_singleton offered e ih =>
    rw [accepted_concat, List.foldl_append]
    exact ih.offer e

/-! ## Spans by position -/

/-- The span of the entry at position `i`: from the end of the entry before it, or from zero if
    there is none, to its own end. -/
def spanOf (es : List Entry) (i : Fin es.length) : Span where
  start := if i.val = 0 then 0 else es[i.val - 1].stop
  stop := es[i].stop

theorem getElem?_spansFrom (start : Offset) (es : List Entry) (i : Nat) :
    (spansFrom start es)[i]? =
      es[i]?.map fun e => ⟨((es.take i).getLast?.map (·.stop)).getD start, e.stop⟩ := by
  induction es generalizing start i with
  | nil => rfl
  | cons e es ih =>
    cases i with
    | zero => rfl
    | succ i =>
      rw [spansFrom, List.getElem?_cons_succ, ih, List.getElem?_cons_succ, List.take_succ_cons,
        List.getLast?_cons]
      cases (es.take i).getLast? <;> rfl

theorem getElem?_spansFrom_zero (es : List Entry) (i : Fin es.length) :
    (spansFrom 0 es)[i.val]? = some (spanOf es i) := by
  rw [getElem?_spansFrom, List.getElem?_eq_getElem i.2, List.getLast?_take, spanOf]
  split_ifs with hi
  · rfl
  · rw [List.getElem?_eq_getElem (by omega)]
    rfl

theorem map_spanOf (es : List Entry) :
    (List.finRange es.length).map (spanOf es) = spansFrom 0 es := by
  refine List.ext_getElem? fun i => ?_
  by_cases hi : i < es.length
  · rw [getElem?_spansFrom_zero es ⟨i, hi⟩]
    simp [hi]
  · rw [List.getElem?_eq_none (by simpa using hi), List.getElem?_eq_none (by simpa using hi)]

/-- The spans of some of the entries are the spans beside them. -/
theorem map_spanOf_filter (es : List Entry) (p : Entry → Bool) :
    ((List.finRange es.length).filter fun i => p es[i]).map (spanOf es) =
      ((es.zip (spansFrom 0 es)).filter fun r => p r.1).map (·.2) := by
  have hzip : es.zip (spansFrom 0 es) =
      (List.finRange es.length).map fun i => (es[i], spanOf es i) := by
    have hes : (List.finRange es.length).map (fun i => es[i]) = es := List.map_getElem_finRange es
    exact (congrArg₂ List.zip hes.symm (map_spanOf es).symm).trans List.zip_map'
  rw [hzip, List.filter_map, List.map_map]
  rfl

theorem spanOf_length (earlier : List Entry) (e : Entry) (later : List Entry) :
    spanOf (earlier ++ [e] ++ later) ⟨earlier.length, by simp⟩ =
      ⟨stopOf earlier, e.stop⟩ := by
  rcases List.eq_nil_or_concat earlier with rfl | ⟨earlier, l, rfl⟩
  · rfl
  · simp [spanOf, stopOf]

/-! ## What the list answers -/

/-- The index does what the list of its entries would. -/
structure Refines (x : Index) (es : List Entry) : Prop where
  /-- The entries that follow are accepted, and no others. -/
  insert_ok (e : Entry) : (∃ y, x.insert e = .ok y) ↔ Follows es e
  /-- Of the two reasons to refuse an entry its time comes first. -/
  insert_error (e : Entry) (err : Error) : x.insert e = .error err ↔ ∃ l ∈ es.getLast?,
    e.time ≤ l.time ∧ err = .nonMonotonic l.time e.time ∨
    l.time < e.time ∧ e.stop < l.stop ∧ err = .offsetRegression l.stop e.stop
  toList : x.toList = es
  size : x.size = es.length
  last? : x.last? = es.getLast?
  latest : x.latest = (List.finRange es.length).getLast?.map (spanOf es)
  /-- In force at `t` is what has the greatest time up to `t`, if anything has. -/
  asOf (t : Time) (s : Span) : x.asOf t = some s ↔ ∃ i : Fin es.length, es[i].time ≤ t ∧
    (∀ j : Fin es.length, es[j].time ≤ t → es[j].time ≤ es[i].time) ∧ s = spanOf es i
  range (first final : Time) : x.range first final =
    ((List.finRange es.length).filter fun i => first ≤ es[i].time ∧ es[i].time ≤ final).map
      (spanOf es)

theorem Ascending.time_le_last {init : List Entry} {l : Entry} (ha : Ascending (init ++ [l])) :
    ∀ e ∈ init ++ [l], e.time ≤ l.time := by
  intro e he
  rcases List.mem_append.1 he with he | he
  · exact UInt64.le_of_lt ((List.pairwise_append.1 ha).2.2 e he l (by simp)).1
  · rw [List.mem_singleton.1 he]
    exact UInt64.le_refl _

theorem Ascending.injective_time (ha : Ascending es) {i j : Fin es.length}
    (h : es[i].time = es[j].time) : i = j := by
  have hlt := List.pairwise_iff_getElem.1 ha
  rcases lt_trichotomy i j with hij | hij | hij
  · exact absurd h (UInt64.ne_of_lt (hlt i j i.2 j.2 hij).1)
  · exact hij
  · exact absurd h.symm (UInt64.ne_of_lt (hlt j i j.2 i.2 hij).1)

theorem Holds.insert_eq_ok (hx : x.Holds es) (e : Entry) :
    (∃ y, x.insert e = .ok y) ↔ Follows es e := by
  constructor
  · rintro ⟨y, hy⟩
    rw [Index.insert, hx.last?] at hy
    cases hr : refusal? es.getLast? e with
    | none => exact refusal?_eq_none.1 hr
    | some err =>
      rw [hr] at hy
      cases hy
  · intro hf
    obtain ⟨y, hy, -⟩ := hx.insert (refusal?_eq_none.2 hf)
    exact ⟨y, hy⟩

theorem Holds.insert_eq_error (hx : x.Holds es) {e : Entry} {err : Error} :
    x.insert e = .error err ↔ refusal? es.getLast? e = some err := by
  cases hr : refusal? es.getLast? e with
  | none =>
    obtain ⟨y, hy, -⟩ := hx.insert hr
    simp [hy]
  | some err' => simp [Index.insert, hx.last?, hr]

/-- The span in force at `t` is that of the greatest time up to `t`. -/
theorem Holds.asOf_eq_some (hx : x.Holds es) (t : Time) (s : Span) :
    x.asOf t = some s ↔ ∃ i : Fin es.length, es[i].time ≤ t ∧
      (∀ j : Fin es.length, es[j].time ≤ t → es[j].time ≤ es[i].time) ∧ s = spanOf es i := by
  obtain ⟨upTo, later, rfl, hupTo, hlater⟩ : ∃ upTo later, es = upTo ++ later ∧
      (∀ e ∈ upTo, e.time ≤ t) ∧ ∀ e ∈ later, t < e.time :=
    ⟨_, _, eq_filter_append_of_pairwise hx.1 (p := fun e => e.time ≤ t) fun a b hab hb =>
        decide_eq_true (UInt64.le_trans (UInt64.le_of_lt hab.1) (of_decide_eq_true hb)),
      by simp, by simp [UInt64.not_le]⟩
  rw [hx.asOf hupTo hlater]
  rcases List.eq_nil_or_concat' upTo with rfl | ⟨earlier, e, rfl⟩
  · refine ⟨nofun, fun ⟨i, hi, _⟩ => absurd hi ?_⟩
    exact UInt64.not_le.2 (hlater _ (List.getElem_mem _))
  rw [getLast?_spansFrom_concat, ← spanOf_length earlier e later, Option.some.injEq]
  set es := earlier ++ [e] ++ later with hes
  -- The entry in force is the last one up to `t`.
  let i : Fin es.length := ⟨earlier.length, by simp [es]⟩
  have hi : es[i] = e := by simp [i, es]
  have hit : es[i].time ≤ t := hi.symm ▸ hupTo e (by simp)
  have hmax : ∀ j : Fin es.length, es[j].time ≤ t → es[j].time ≤ es[i].time := by
    intro j hj
    rw [hi]
    rcases List.mem_append.1 (List.getElem_mem j.2) with hmem | hmem
    · exact Ascending.time_le_last (List.pairwise_append.1 hx.1).1 _ hmem
    · exact absurd hj (UInt64.not_le.2 (hlater _ hmem))
  constructor
  · rintro rfl
    exact ⟨i, hit, hmax, rfl⟩
  · rintro ⟨j, hjt, hj, rfl⟩
    rw [hx.1.injective_time (UInt64.le_antisymm (hmax j hjt) (hj i hit))]

/-- The spans of a stretch of time are those of the entries in it. -/
theorem Holds.range_eq (hx : x.Holds es) (first final : Time) : x.range first final =
    ((List.finRange es.length).filter fun i => first ≤ es[i].time ∧ es[i].time ≤ final).map
      (spanOf es) := by
  obtain ⟨earlier, rest, rfl, hearlier, hrest⟩ : ∃ earlier rest, es = earlier ++ rest ∧
      (∀ e ∈ earlier, e.time < first) ∧ ∀ e ∈ rest, first ≤ e.time :=
    ⟨_, _, eq_filter_append_of_pairwise hx.1 (p := fun e => e.time < first) fun a b hab hb =>
        decide_eq_true (UInt64.lt_trans hab.1 (of_decide_eq_true hb)),
      by simp, by simp [UInt64.not_lt]⟩
  obtain ⟨mid, later, rfl, hmid, hlater⟩ : ∃ mid later, rest = mid ++ later ∧
      (∀ e ∈ mid, e.time ≤ final) ∧ ∀ e ∈ later, final < e.time :=
    ⟨_, _, eq_filter_append_of_pairwise (List.pairwise_append.1 hx.1).2.1
        (p := fun e => e.time ≤ final) fun a b hab hb =>
        decide_eq_true (UInt64.le_trans (UInt64.le_of_lt hab.1) (of_decide_eq_true hb)),
      by simp, by simp [UInt64.not_le]⟩
  rw [List.forall_mem_append] at hrest
  rw [hx.range hearlier (fun e he => ⟨hrest.1 e he, hmid e he⟩) hlater]
  refine Eq.trans ?_ (map_spanOf_filter _ fun e => first ≤ e.time ∧ e.time ≤ final).symm
  rw [spansFrom_append, spansFrom_append, List.zip_append (by simp), List.zip_append (by simp),
    List.filter_append, List.filter_append]
  rw [List.filter_eq_nil_iff.2 fun r hr => ?_, List.filter_eq_self.2 fun r hr => ?_,
    List.filter_eq_nil_iff.2 fun r hr => ?_, List.nil_append, List.append_nil,
    List.map_snd_zip (length_spansFrom _ _).le, stopOf]
  · exact fun h => UInt64.not_le.2 (hlater _ (List.of_mem_zip hr).1) (of_decide_eq_true h).2
  · exact decide_eq_true ⟨hrest.1 _ (List.of_mem_zip hr).1, hmid _ (List.of_mem_zip hr).1⟩
  · exact fun h => UInt64.not_le.2 (hearlier _ (List.of_mem_zip hr).1) (of_decide_eq_true h).1

theorem Holds.refines (hx : x.Holds es) : Refines x es where
  insert_ok := hx.insert_eq_ok
  insert_error e err := hx.insert_eq_error.trans refusal?_eq_some
  toList := hx.toList
  size := by
    obtain ⟨-, h, s, hx⟩ := hx
    exact hx.size
  last? := hx.last?
  latest := by rw [hx.latest, ← map_spanOf, List.getLast?_map]
  asOf := hx.asOf_eq_some
  range := hx.range_eq

/-- An index that started empty answers as the list of the accepted entries does, whatever it
    was offered. -/
theorem refines_accepted (fanout : Nat) (offered : List Entry) :
    Refines (offered.foldl offer (empty fanout)) (accepted offered) :=
  (holds_accepted fanout offered).refines

end ReplicaRing.Index
