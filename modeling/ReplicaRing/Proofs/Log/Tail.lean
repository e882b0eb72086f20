import ReplicaRing.Log
import ReplicaRing.Proofs.Index.Intact

/-!
# The tail of an index file

The last value of a key is found at the end of its index file, in one or two records, without the
rest being looked at. Main statement: whatever the file is, the tail tells nothing but what the
whole index would (`Log.tail_agrees`). It may tell a tip where the index is damaged further up,
but it finds no damage where there is none, and no tip it tells ends before it starts.
-/

namespace ReplicaRing

namespace Index

variable {bs : Bytes} {es : List Entry} {x : Index} {tip : Option Tip} {t : Tip}

/-- The last value that the index tells of is `tip`. -/
def LastIs (x : Index) : Option Tip → Prop
  | none => x.toList = []
  | some tip => x.last?.map (·.time) = some tip.time ∧ x.latest = some tip.span

theorem Holds.lastIs (hx : x.Holds es) : x.LastIs (tipOf es) := by
  rcases List.eq_nil_or_concat' es with rfl | ⟨es, e, rfl⟩
  · exact hx.toList
  · rw [tipOf_concat]
    refine ⟨?_, ?_⟩
    · rw [hx.last?, List.getLast?_concat, Option.map_some]
    · rw [hx.latest, getLast?_spansFrom_concat]

/-- Where the whole file can be read its tail tells the same. -/
theorem readTip_of_decode (h : decode bs = .ok x) :
    ∃ tip, readTip bs = .ok tip ∧ x.LastIs tip := by
  obtain ⟨es, hbs, hx, -⟩ := exists_file_of_decode h
  refine ⟨tipOf es, ?_, hx.lastIs⟩
  rw [hbs]
  exact readTip_file hx.1 _

theorem start_le_stop_of_tipOfTwo {count : Nat} {before last : Bytes}
    (h : tipOfTwo count before last = .ok t) : t.span.start ≤ t.span.stop := by
  rw [tipOfTwo] at h
  cases hl : decodeRecord last (count - 1) with
  | error e =>
    rw [hl] at h
    cases h
  | ok l =>
    cases hb : decodeRecord before (count - 2) with
    | error e =>
      simp only [hl, hb] at h
      cases h
    | ok b =>
      simp only [hl, hb] at h
      cases hr : refusal? (some b) l with
      | some e =>
        rw [hr] at h
        cases h
      | none =>
        -- The record before the last was compared with it.
        rw [hr] at h
        cases h
        have hf : Follows [b] l := refusal?_eq_none.1 hr
        exact (hf b rfl).2

/-- A tip starts where it ends or before, whatever the bytes are that tell it. -/
theorem start_le_stop_of_readTip (h : readTip bs = .ok (some t)) : t.span.start ≤ t.span.stop := by
  rw [readTip] at h
  cases hh : decodeHeader bs with
  | error e =>
    rw [hh] at h
    cases h
  | ok fanout =>
    simp only [hh] at h
    split_ifs at h
    split at h
    · cases h
    · -- A single value starts at zero.
      split at h
      · cases h
      · cases h
        exact UInt64.zero_le
    · cases ht : tipOfTwo _ _ _ with
      | error e =>
        rw [ht] at h
        cases h
      | ok t' =>
        rw [ht] at h
        cases h
        exact start_le_stop_of_tipOfTwo ht

end Index

namespace Log

open Index

variable {disk : FileTree} {path p : Path} {reason : Corruption}

/-- A tail that is damaged is the tail of a file that is. -/
theorem indexAt_of_tipAt_corrupt (h : tipAt disk path = .error (.corrupt p reason)) :
    ∃ reason', indexAt disk path = .error (.corrupt p reason') := by
  rw [tipAt] at h
  cases hr : disk.read path with
  | error e =>
    rw [hr] at h
    cases e <;> cases h
  | ok bs =>
    rw [hr] at h
    simp only [indexAt, hr]
    cases hd : decode bs with
    | error e =>
      cases ht : readTip bs with
      | error e' =>
        simp only [ht] at h
        cases h
        exact ⟨_, rfl⟩
      | ok tip =>
        simp only [ht] at h
        cases h
    | ok x =>
      -- The whole file can be read, so its tail is not damaged.
      obtain ⟨tip, ht, -⟩ := readTip_of_decode hd
      simp only [ht] at h
      cases h

/-- The tail of an index file and the whole of it agree. -/
theorem tail_agrees (disk : FileTree) (path : Path) :
    (∀ bs x, disk.read path = .ok bs → decode bs = .ok x →
      ∃ tip, tipAt disk path = .ok tip ∧ x.LastIs tip) ∧
    (∀ p reason, tipAt disk path = .error (.corrupt p reason) →
      ∃ reason', indexAt disk path = .error (.corrupt p reason')) ∧
    ∀ tip, tipAt disk path = .ok (some tip) → tip.span.start ≤ tip.span.stop ∧
      tip.span.start.toNat + tip.span.length.toNat = tip.span.stop.toNat := by
  refine ⟨fun bs x hr hd => ?_, fun p reason => indexAt_of_tipAt_corrupt, fun tip h => ?_⟩
  · obtain ⟨tip, ht, hlast⟩ := readTip_of_decode hd
    refine ⟨tip, ?_, hlast⟩
    rw [tipAt, hr]
    simp only [ht]
  · have hle : tip.span.start ≤ tip.span.stop := by
      rw [tipAt] at h
      cases hr : disk.read path with
      | error e =>
        rw [hr] at h
        cases e <;> cases h
      | ok bs =>
        simp only [hr] at h
        cases ht : readTip bs with
        | error e =>
          simp only [ht] at h
          cases h
        | ok tip' =>
          simp only [ht] at h
          cases h
          exact start_le_stop_of_readTip ht
    refine ⟨hle, ?_⟩
    rw [Span.length, UInt64.toNat_sub_of_le _ _ hle]
    exact Nat.add_sub_of_le hle

end Log

end ReplicaRing
