import ReplicaRing.Proofs.Log.Crash
import ReplicaRing.Proofs.Log.Faults

/-!
# Stamps move forward

A write at some reading of the clock is stamped with a time after all times of its key. There is
one time without a time after it, the last of all, and an append may have written it: then there is
no stamp, and the write breaks off before it touches a file. So does a write of a value that would
end past the last offset.

A log that comes of appends (`Log.Filled`) keeps the histories of all its keys: an append is a call
that the histories allow, or it leaves the files alone (`Log.Keeps.exists_append` and
`exists_appendNow` are the steps, `Log.Filled.keeps` the run).

Main statement: a stamped write moves the time of its key forward, or is refused and changes
nothing, if and only if there is a time after the last one of the key and room for the value; and
otherwise it breaks off (`Log.moves_forward_iff`).
-/

namespace ReplicaRing.Log

open FileTree

variable {K : Set String} {H : String → History} {log log' : Log} {key : String} {value : Bytes}
  {t now : Time}

/-! ## Appends -/

/-- Behind the last value that the index file of the key tells of there is room for `value`: the
    place where it ends has an offset. -/
def Roomy (log : Log) (key : String) (value : Bytes) : Prop :=
  ∀ tip, (log.storedTip key).1 = .ok tip →
    tip.elim 0 (fun tip => tip.span.stop.toNat) + value.length < 2 ^ 64

/-- The index file of the key does not tell of the last time there is. -/
def NotAtLast (log : Log) (key : String) : Prop :=
  ∀ tip, (log.storedTip key).1 = .ok (some tip) → tip.time.toNat ≠ 2 ^ 64 - 1

/-- The logs that come of appends, with any times and any readings of the clock. -/
inductive Filled (K : Set String) : Log → Prop
  /-- An empty directory is opened. -/
  | opened {t disk : FileTree} {root : Path} {fanout capacity : Nat} {flush : FlushPolicy}
      {tally : Tally} {log : Log} (hv : Vacant t root)
      (h : openAt t root fanout capacity flush tally = (.ok log, disk)) : Filled K log
  /-- The files are opened again, with any settings. -/
  | reopened {log log' : Log} {disk : FileTree} {fanout capacity : Nat} {flush : FlushPolicy}
      {tally : Tally} (hr : Filled K log)
      (h : openAt log.disk log.root fanout capacity flush tally = (.ok log', disk)) :
      Filled K log'
  | append {log : Log} {key : String} (value : Bytes) (t : Time) (hr : Filled K log)
      (hkey : key ∈ K) : Filled K (log.append key value t).2
  | appendNow {log : Log} {key : String} (value : Bytes) (now : Time) (hr : Filled K log)
      (hkey : key ∈ K) : Filled K (log.appendNow key value now).2

/-- A write at `now` moves the time of the key forward: its stamp is later than all times in the
    index, and its value is the last one of an index that can be read. Or it is refused, and the
    files are as before. It does not break off. -/
structure MovesForward (log : Log) (key : String) (value : Bytes) (now : Time) : Prop where
  later : ∀ tip log', log.appendNow key value now = (.ok tip, log') →
    (∀ x, (log.loadIndex key).1 = .ok (some x) → ∀ e ∈ x.toList, e.time < tip.time) ∧
      (log'.readLatest key).1 = .ok (some value) ∧ ∃ x, (log'.loadIndex key).1 = .ok (some x)
  refused : ∀ e log', log.appendNow key value now = (.error e, log') →
    e ≠ .overflow ∧ log'.disk = log.disk

/-- A write at `now` breaks off, and the files are as before. -/
def BreaksOff (log : Log) (key : String) (value : Bytes) (now : Time) : Prop :=
  ∃ log', log.appendNow key value now = (.error .overflow, log') ∧ log'.disk = log.disk

theorem OnDisk.roomy_iff (hd : OnDisk K log.disk log.root H) (hkey : key ∈ K) (value : Bytes)
    (t : Time) : log.Roomy key value ↔ History.Addressable (H key ++ [⟨t, value⟩]) := by
  have ha := (hd.stored key hkey).addressable
  rw [Roomy, hd.storedTip_eq hkey, History.Addressable, History.bytes_append,
    History.bytes_singleton, List.length_append]
  simp only [Except.ok.injEq, forall_eq']
  rcases List.eq_nil_or_concat (H key) with hnil | ⟨g, w, hg⟩
  · rw [hnil, History.tip_nil]
    exact Iff.rfl
  · rw [hg, List.concat_eq_append] at ha ⊢
    rw [History.tip_concat, Option.elim_some, UInt64.toNat_ofNat_of_lt' ha]

/-! ## What an append leaves alone -/

theorem touches_append (log : Log) (key : String) (value : Bytes) (t : Time) :
    Touches key log (log.append key value t).2 := by
  have h := (safe_appendPlan log key value t).ends _ _
    (Plan.ends_run false (appendPlan key value t) log)
  rwa [run_appendPlan] at h

theorem touches_appendNow (log : Log) (key : String) (value : Bytes) (now : Time) :
    Touches key log (log.appendNow key value now).2 := by
  have h := (safe_appendNowPlan log key value now).ends _ _
    (Plan.ends_run false (appendNowPlan key value now) log)
  rw [run_appendNowPlan] at h
  exact h.grown.touches

/-! ## Stamped writes -/

/-- A stamped write is one that the histories allow if the index file says so. -/
theorem Keeps.admissible_appendNow_iff (hk : Keeps K log H) (hkey : key ∈ K) (value : Bytes)
    (now : Time) : (Call.appendNow key value now).Admissible K H ↔
      log.NotAtLast key ∧ log.Roomy key value := by
  have htip : (log.storedTip key).1 = .ok (H key).tip :=
    congrArg Prod.fst (hk.onDisk.storedTip_eq hkey)
  have hlast : log.NotAtLast key ↔ ∀ l, (H key).getLast? = some l → l.time.toNat ≠ 2 ^ 64 - 1 := by
    rw [NotAtLast, htip]
    simp [History.tip]
  rw [hlast, and_comm, Call.Admissible, and_iff_right hkey, and_congr_left_iff]
  intro hmax
  obtain ⟨t, hstamp⟩ := exists_stamp hmax now
  rw [Call.onHistories_appendNow hstamp, extend_snd_self, hk.onDisk.roomy_iff hkey value t]

/-- If the histories allow it, a stamped write is carried out and moves the time of the key
    forward. -/
theorem Keeps.movesForward (hk : Keeps K log H) (hK : Distinct K)
    (ha : (Call.appendNow key value now).Admissible K H) : log.MovesForward key value now := by
  obtain ⟨hkey, ha, hmax⟩ := ha
  obtain ⟨t, hstamp⟩ := exists_stamp hmax now
  rw [Call.onHistories_appendNow hstamp, extend_snd_self] at ha
  have ho := (hk.onDisk.stored key hkey).ordered.concat (w := ⟨t, value⟩) (lt_of_stamp hstamp)
  obtain ⟨tip, log', happ, htip, hk', -, -⟩ :=
    hk.appendNow hkey hK (w := ⟨t, value⟩) hstamp ho ha
  have hH : Function.update H key (H key ++ [⟨t, value⟩]) key = H key ++ [⟨t, value⟩] :=
    Function.update_self ..
  refine ⟨?_, fun e log'' h => by cases happ.symm.trans h⟩
  rintro tip' log'' h
  obtain ⟨rfl, rfl⟩ : tip = tip' ∧ log' = log'' := by simpa using happ.symm.trans h
  refine ⟨fun x hx e he => ?_, ?_, ?_⟩
  · -- Every entry has the time of a write before this one.
    obtain ⟨x', log₁, hx', -, hholds⟩ := hk.loadIndex hkey
    rw [hx', Except.ok.injEq] at hx
    subst hx
    obtain ⟨y, rfl, hy⟩ : ∃ y : Index, x = y ∧ y.Holds (H key).entries := by simpa using hholds
    rw [hy.toList] at he
    obtain ⟨v, hv, hve⟩ := History.exists_of_mem_entriesFrom he
    have htime : tip.time = t := by
      rw [History.tip_concat, Option.some.injEq] at htip
      rw [← htip]
    rw [← hve, htime]
    exact (List.pairwise_append.1 ho).2.2 v hv ⟨t, value⟩ (List.mem_singleton_self _)
  · obtain ⟨log₁, hr, -⟩ := hk'.readLatest hkey
    rw [hr, hH, History.latest_concat]
  · obtain ⟨x, log₁, hx, -, hx'⟩ := hk'.loadIndex hkey
    rcases hx' with ⟨-, hnil⟩ | ⟨y, rfl, -⟩
    · rw [hH] at hnil
      exact absurd hnil (by simp)
    · exact ⟨y, by rw [hx]⟩

theorem BreaksOff.not_movesForward (h : log.BreaksOff key value now) :
    ¬log.MovesForward key value now := by
  obtain ⟨log', happ, -⟩ := h
  exact fun hf => (hf.refused _ _ happ).1 rfl

/-- If they do not, it breaks off. -/
theorem Keeps.breaksOff (hk : Keeps K log H) (hkey : key ∈ K)
    (h : ¬(log.NotAtLast key ∧ log.Roomy key value)) (now : Time) :
    log.BreaksOff key value now := by
  rcases hk.appendNow_admissible_or hkey value now with ha | ⟨log', happ, hs⟩
  · exact absurd ((hk.admissible_appendNow_iff hkey value now).1 ha) h
  · exact ⟨log', happ, hs.disk⟩

/-! ## Runs -/

namespace Keeps

variable (hk : Keeps K log H) (hK : Distinct K) (hkey : key ∈ K)

include hk hK hkey

theorem exists_append (value : Bytes) (t : Time) :
    ∃ H', Keeps K (log.append key value t).2 H' := by
  rcases hk.append_admissible_or hkey value t with ha | ⟨log', happ, hs⟩
  · exact ⟨_, (hk.call hK _ ha).2.1⟩
  · exact ⟨H, by rw [happ]; exact hs.keeps⟩

theorem exists_appendNow (value : Bytes) (now : Time) :
    ∃ H', Keeps K (log.appendNow key value now).2 H' := by
  rcases hk.appendNow_admissible_or hkey value now with ha | ⟨log', happ, hs⟩
  · exact ⟨_, (hk.call hK _ ha).2.1⟩
  · exact ⟨H, by rw [happ]; exact hs.keeps⟩

end Keeps

/-- A log that comes of appends keeps histories. -/
theorem Filled.keeps (hr : Filled K log) (hK : Distinct K) : ∃ H, Keeps K log H := by
  induction hr with
  | opened hv h =>
    obtain ⟨log, ho, hk, -⟩ := hv.openAt (K := K) _ _ _ _
    cases ho.symm.trans h
    exact ⟨_, hk⟩
  | reopened hr h ih =>
    obtain ⟨H, hk⟩ := ih
    obtain ⟨log', ho, hk', -⟩ := hk.onDisk.openAt _ _ _ _
    cases ho.symm.trans h
    exact ⟨H, hk'⟩
  | append value t hr hkey ih =>
    obtain ⟨H, hk⟩ := ih
    exact hk.exists_append hK hkey value t
  | appendNow value now hr hkey ih =>
    obtain ⟨H, hk⟩ := ih
    exact hk.exists_appendNow hK hkey value now

/-- A stamped write moves the time of its key forward, or is refused and changes nothing, if and
    only if the last time that the index file tells of is not the last of all and the value has
    room behind the others. Otherwise it breaks off, and changes nothing either. -/
theorem moves_forward_iff (hr : Filled K log) (hK : Distinct K) (hkey : key ∈ K) (value : Bytes)
    (now : Time) :
    (log.MovesForward key value now ↔ log.NotAtLast key ∧ log.Roomy key value) ∧
      (¬log.MovesForward key value now ↔ log.BreaksOff key value now) := by
  obtain ⟨H, hk⟩ := hr.keeps hK
  by_cases h : log.NotAtLast key ∧ log.Roomy key value
  · have hf := hk.movesForward hK ((hk.admissible_appendNow_iff hkey value now).2 h)
    exact ⟨iff_of_true hf h, iff_of_false (not_not_intro hf) fun hb => hb.not_movesForward hf⟩
  · have hb := hk.breaksOff hkey h now
    exact ⟨iff_of_false hb.not_movesForward h, iff_of_true hb.not_movesForward hb⟩

/-- One value of a key, at a given time. -/
def filledLog (t : Time) : Log := (freshLog.append "k" [97] t).2

theorem filled_filledLog (t : Time) : Filled {"k"} (filledLog t) :=
  .append [97] t (.opened (vacant_empty ["logs"]) rfl) rfl

/-- A clock that was turned back. -/
theorem moves_forward_iff_filledLog :
    Filled {"k"} (filledLog 5) ∧ Distinct {"k"} ∧
      ((filledLog 5).MovesForward "k" [98] 3 ↔
        (filledLog 5).NotAtLast "k" ∧ (filledLog 5).Roomy "k" [98]) ∧
      (¬(filledLog 5).MovesForward "k" [98] 3 ↔ (filledLog 5).BreaksOff "k" [98] 3) :=
  ⟨filled_filledLog 5, Set.injOn_singleton _ _,
    moves_forward_iff (filled_filledLog 5) (Set.injOn_singleton _ _) rfl [98] 3⟩

/-- After a write at the last of all times a stamped write breaks off. -/
theorem breaks_off_after_last :
    Filled {"k"} (filledLog 18446744073709551615) ∧
      ((freshLog.append "k" [97] 18446744073709551615).1.toOption =
        some ⟨18446744073709551615, 0, 1⟩) ∧
      (filledLog 18446744073709551615).BreaksOff "k" [98] 3 ∧
      ¬(filledLog 18446744073709551615).MovesForward "k" [98] 3 := by
  have hlast : ¬(filledLog 18446744073709551615).NotAtLast "k" := fun h =>
    h ⟨18446744073709551615, 0, 1⟩ (by decide +kernel) rfl
  obtain ⟨H, hk⟩ := (filled_filledLog 18446744073709551615).keeps (Set.injOn_singleton _ _)
  have hb : (filledLog 18446744073709551615).BreaksOff "k" [98] 3 :=
    hk.breaksOff rfl (fun h => hlast h.1) 3
  exact ⟨filled_filledLog _, by decide +kernel, hb, hb.not_movesForward⟩

end ReplicaRing.Log
