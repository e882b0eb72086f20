import ReplicaRing.Proofs.Log.Write

/-!
# A log refines its histories

Seen from outside, a log is a map from keys to histories. The calls that can be made of it
(`Log.Call`) are also made of such a map (`Log.Call.onHistories`), where they are plain:
a write is put behind the others if it is later, and a read looks through the history.

Main statement: a log opened on an empty directory answers every sequence of calls as the map
without writes does (`Log.answers_eq`), reopenings among them, whatever the fanout, the
capacity of the cache and the flush policy.

The calls are those that the log is made for (`Log.Call.Admissible`): keys have distinct
digests, a key whose last time is the last time there is is not stamped any more, and a
data file does not outgrow the offsets.
-/

namespace ReplicaRing.Log

open FileTree

variable {K : Set String} {H : String → History} {log : Log} {key : String} {w : Write}

/-! ## Calls -/

/-- What a log can be asked to do. -/
inductive Call
  | append (key : String) (value : Bytes) (time : Time)
  | appendNow (key : String) (value : Bytes) (now : Time)
  | readLatest (key : String)
  | readAsOf (key : String) (time : Time)
  | readRange (key : String) (first final : Time)
  | latestTip (key : String)
  | has (key : String)
  /-- Opens the files of the log again. -/
  | reopen (fanout cacheCapacity : Nat) (flush : FlushPolicy)

/-- What a log answers. -/
inductive Answer
  | written (r : Except StorageError Index.Tip)
  | value (r : Except StorageError (Option Bytes))
  | values (r : Except StorageError (List Bytes))
  | tip (r : Except StorageError (Option Index.Tip))
  | found (b : Bool)
  | opened (r : Except StorageError Unit)

/-- The answer of a log, and the log after it. -/
def Call.run (log : Log) : Call → Answer × Log
  | append key value time => (log.append key value time).map .written id
  | appendNow key value now => (log.appendNow key value now).map .written id
  | readLatest key => (log.readLatest key).map .value id
  | readAsOf key time => (log.readAsOf key time).map .value id
  | readRange key first final => (log.readRange key first final).map .values id
  | latestTip key => (log.latestTip key).map .tip id
  | has key => (.found (log.has key), log)
  | reopen fanout capacity flush =>
    match openAt log.disk log.root fanout capacity flush log.tally with
    | (.ok log, _) => (.opened (.ok ()), log)
    | (.error e, disk) => (.opened (.error e), { log with disk })

/-- A write put behind the others of its key. -/
def extend (H : String → History) (key : String) (w : Write) : Answer × (String → History) :=
  (.written (.ok ⟨w.time, UInt64.ofNat (H key).bytes.length,
      UInt64.ofNat ((H key).bytes.length + w.value.length)⟩),
    Function.update H key (H key ++ [w]))

theorem extend_snd_self (H : String → History) (key : String) (w : Write) :
    (extend H key w).2 key = H key ++ [w] :=
  Function.update_self _ _ _

/-- The answer of a map from keys to histories, and the map after it. -/
def Call.onHistories (H : String → History) : Call → Answer × (String → History)
  | append key value time =>
    match (H key).getLast? with
    | some l =>
      if l.time < time then extend H key ⟨time, value⟩
      else (.written (.error (.index (.nonMonotonic l.time time))), H)
    | none => extend H key ⟨time, value⟩
  | appendNow key value now =>
    match (H key).getLast? with
    | some l => extend H key ⟨max now (l.time + 1), value⟩
    | none => extend H key ⟨now, value⟩
  | readLatest key => (.value (.ok (H key).latest), H)
  | readAsOf key time => (.value (.ok ((H key).asOf time)), H)
  | readRange key first final => (.values (.ok ((H key).range first final)), H)
  | latestTip key => (.tip (.ok (H key).tip), H)
  | has key => (.found (!(H key).isEmpty), H)
  | reopen _ _ _ => (.opened (.ok ()), H)

/-- The log is made for the call: its key is one of `K`, there is a time after the last one
    of the key if one is needed, and all bytes have offsets. -/
def Call.Admissible (K : Set String) (H : String → History) (c : Call) : Prop :=
  match c with
  | append key _ _ => key ∈ K ∧ ((c.onHistories H).2 key).Addressable
  | appendNow key _ _ => key ∈ K ∧ ((c.onHistories H).2 key).Addressable ∧
      ∀ l, (H key).getLast? = some l → l.time.toNat ≠ 2 ^ 64 - 1
  | readLatest key | readAsOf key _ | readRange key _ _ | latestTip key | has key => key ∈ K
  | reopen _ _ _ => True

/-- The answers of a log to calls, one after the other. -/
def answers (log : Log) : List Call → List Answer
  | [] => []
  | c :: cs => (c.run log).1 :: answers (c.run log).2 cs

/-- The log after calls. -/
def after (log : Log) : List Call → Log
  | [] => log
  | c :: cs => after (c.run log).2 cs

/-- The answers of a map from keys to histories. -/
def answersOf (H : String → History) : List Call → List Answer
  | [] => []
  | c :: cs => (c.onHistories H).1 :: answersOf (c.onHistories H).2 cs

/-- The map after calls. -/
def historiesAfter (H : String → History) : List Call → String → History
  | [] => H
  | c :: cs => historiesAfter (c.onHistories H).2 cs

/-- Every call is admissible when it is made. -/
def AllAdmissible (K : Set String) (H : String → History) : List Call → Prop
  | [] => True
  | c :: cs => c.Admissible K H ∧ AllAdmissible K (c.onHistories H).2 cs

/-! ## Writes -/

namespace Keeps

variable (hk : Keeps K log H) (hkey : key ∈ K)

include hk hkey

theorem publishedTip :
    ∃ log', log.publishedTip key = (.ok (H key).tip, log') ∧ Still K H log log' := by
  obtain ⟨log₁, hst, hs⟩ := hk.storedTip hkey
  rw [Log.publishedTip, hst]
  cases ht : (H key).tip with
  | none => exact ⟨log₁, rfl, hs⟩
  | some tip =>
    refine ⟨_, rfl, ⟨⟨hs.keeps.onDisk, fun k hkK tip' hp => ?_⟩, hs.disk, hs.root, hs.fanout⟩⟩
    rcases Cache.of_peek_publish hp with ⟨hne, hp⟩ | ⟨rfl, hp⟩
    · exact hs.keeps.cached k hkK tip' hp
    · rcases hp with rfl | ⟨hp, -⟩
      · exact ht
      · exact hs.keeps.cached k hkK tip' hp

/-- An append that is too late is refused, and nothing changes. -/
theorem append_refused {l : Write} (hl : (H key).getLast? = some l) (value : Bytes) {t : Time}
    (ht : ¬l.time < t) : ∃ log', log.append key value t =
      (.error (.index (.nonMonotonic l.time t)), log') ∧ Still K H log log' := by
  obtain ⟨log₁, hp, hs⟩ := hk.publishedTip hkey
  refine ⟨log₁, ?_, hs⟩
  rw [Log.append, hp, History.tip, hl]
  simp [Option.filter, UInt64.not_lt.1 ht]

theorem append (hK : Distinct K) (ho : History.Ordered (H key ++ [w]))
    (ha : History.Addressable (H key ++ [w])) :
    ∃ tip log', log.append key w.value w.time = (.ok tip, log') ∧
      History.tip (H key ++ [w]) = some tip ∧
      Keeps K log' (Function.update H key (H key ++ [w])) ∧ log'.root = log.root ∧
      log.disk.run (log.writeSteps key (H key).tip w.value w.time) = (.ok (), log'.disk) := by
  obtain ⟨log₁, hp, hs⟩ := hk.publishedTip hkey
  obtain ⟨tip, log₂, hw, htip, hk₂, hroot, -, hrun⟩ := hs.keeps.write hK hkey ho ha
  refine ⟨tip, log₂, ?_, htip, hk₂, hroot.trans hs.root, ?_⟩
  · have hnone : (H key).tip.filter (fun tip => decide (w.time ≤ tip.time)) = none := by
      rw [Option.filter_eq_none_iff]
      intro tip ht
      simpa [UInt64.not_le] using History.time_tip_lt ho ht
    rw [Log.append, hp]
    simp only [hnone]
    exact hw
  · rw [← hs.writeSteps_eq, ← hs.disk]
    exact hrun

theorem appendNow (hK : Distinct K) {now : Time} (hw : stamp (H key).tip now = some w.time)
    (ho : History.Ordered (H key ++ [w])) (ha : History.Addressable (H key ++ [w])) :
    ∃ tip log', log.appendNow key w.value now = (.ok tip, log') ∧
      History.tip (H key ++ [w]) = some tip ∧
      Keeps K log' (Function.update H key (H key ++ [w])) ∧ log'.root = log.root ∧
      log.disk.run (log.writeSteps key (H key).tip w.value w.time) = (.ok (), log'.disk) := by
  obtain ⟨log₁, hp, hs⟩ := hk.publishedTip hkey
  obtain ⟨tip, log₂, hwr, htip, hk₂, hroot, -, hrun⟩ := hs.keeps.write hK hkey ho ha
  refine ⟨tip, log₂, ?_, htip, hk₂, hroot.trans hs.root, ?_⟩
  · rw [Log.appendNow, hp]
    simp only [hw]
    exact hwr
  · rw [← hs.writeSteps_eq, ← hs.disk]
    exact hrun

/-- There is room for what is appended, or it is later than the last value and the call breaks
    off; then nothing changes. -/
theorem append_admissible_or (value : Bytes) (t : Time) :
    (Call.append key value t).Admissible K H ∨
      ∃ log', log.append key value t = (.error .overflow, log') ∧ Still K H log log' := by
  have hstored := hk.onDisk.stored key hkey
  by_cases ha : History.Addressable (H key ++ [⟨t, value⟩])
  · refine .inl ⟨hkey, ?_⟩
    rw [Call.onHistories]
    split
    · split
      · rwa [extend_snd_self]
      · exact hstored.addressable
    · rwa [extend_snd_self]
  by_cases hlate : ∃ l, (H key).getLast? = some l ∧ t ≤ l.time
  · obtain ⟨l, hl, hle⟩ := hlate
    refine .inl ⟨hkey, ?_⟩
    rw [Call.onHistories, hl]
    simp only [if_neg (UInt64.not_lt.2 hle)]
    exact hstored.addressable
  · obtain ⟨log', hp, hs⟩ := hk.publishedTip hkey
    have hnone : (H key).tip.filter (fun tip => decide (t ≤ tip.time)) = none := by
      rw [Option.filter_eq_none_iff]
      intro tip ht hle
      rw [History.tip, Option.map_eq_some_iff] at ht
      obtain ⟨l, hl, rfl⟩ := ht
      exact hlate ⟨l, hl, of_decide_eq_true hle⟩
    refine .inr ⟨log', ?_, hs⟩
    rw [Log.append, hp]
    simp only [hnone]
    exact write_overflow hstored.addressable ha

end Keeps

/-- There is no stamp only if there is no time after the last one. -/
theorem stamp_eq_none_iff {h : History} {now : Time} :
    stamp h.tip now = none ↔ ∃ l, h.getLast? = some l ∧ l.time.toNat = 2 ^ 64 - 1 := by
  rw [stamp.eq_def, History.tip]
  cases hl : h.getLast? with
  | none => simp
  | some l =>
    have hnow := now.toNat_lt
    have htime := l.time.toNat_lt
    simp only [Option.map_some, Option.some.injEq, exists_eq_left']
    split
    · rw [wordAfter?_eq_none]
      omega
    · rename_i h
      simp only [reduceCtorEq, false_iff]
      rw [UInt64.not_le, UInt64.lt_iff_toNat_lt] at h
      omega

/-- A stamp is later than the last time, as long as there is a later one. -/
theorem stamp_eq {h : History} {l : Write} (hl : h.getLast? = some l)
    (hmax : l.time.toNat ≠ 2 ^ 64 - 1) (now : Time) :
    stamp h.tip now = some (max now (l.time + 1)) ∧ l.time < max now (l.time + 1) := by
  have hlt : l.time.toNat < 2 ^ 64 := UInt64.toNat_lt l.time
  -- The last time is not the greatest there is, so one more does not wrap round.
  have hsucc : (l.time + 1).toNat = l.time.toNat + 1 := by
    rw [UInt64.toNat_add]
    exact Nat.mod_eq_of_lt (by show _ + 1 < _; omega)
  have hl₁ : l.time < l.time + 1 := by
    rw [UInt64.lt_iff_toNat_lt, hsucc]
    omega
  rw [History.tip, hl]
  have hmax' : max now (l.time + 1) = if now ≤ l.time + 1 then l.time + 1 else now := rfl
  show (if now ≤ l.time then wordAfter? l.time 1 else some now) = _ ∧ _
  rw [hmax', wordAfter?_of_lt (by omega)]
  by_cases hle : now ≤ l.time
  · rw [if_pos hle, if_pos (UInt64.le_of_lt (UInt64.lt_of_le_of_lt hle hl₁))]
    exact ⟨rfl, hl₁⟩
  · have hlt := UInt64.not_le.1 hle
    have hge : l.time + 1 ≤ now := by
      rw [UInt64.lt_iff_toNat_lt] at hlt
      rw [UInt64.le_iff_toNat_le, hsucc]
      omega
    have hnow : (if now ≤ l.time + 1 then l.time + 1 else now) = now := by
      split
      · rename_i h
        exact UInt64.le_antisymm hge h
      · rfl
    rw [if_neg hle, hnow]
    exact ⟨rfl, hlt⟩

theorem exists_stamp {h : History} (hmax : ∀ l, h.getLast? = some l → l.time.toNat ≠ 2 ^ 64 - 1)
    (now : Time) : ∃ t, stamp h.tip now = some t := by
  rw [← Option.ne_none_iff_exists', Ne, stamp_eq_none_iff]
  rintro ⟨l, hl, htime⟩
  exact hmax l hl htime

theorem lt_of_stamp {h : History} {now t : Time} (hs : stamp h.tip now = some t) :
    ∀ l, h.getLast? = some l → l.time < t := by
  intro l hl
  have hmax : l.time.toNat ≠ 2 ^ 64 - 1 := fun hmax => by
    rw [stamp_eq_none_iff.2 ⟨l, hl, hmax⟩] at hs
    cases hs
  obtain ⟨hst, hlt⟩ := stamp_eq hl hmax now
  rwa [Option.some.inj (hs.symm.trans hst)]

/-- So is a time that an append accepts. -/
theorem lt_of_filter_tip {h : History} {t : Time}
    (hf : (h.tip.filter fun tip => decide (t ≤ tip.time)) = none) :
    ∀ l, h.getLast? = some l → l.time < t := fun l hl => by
  simpa using Option.filter_eq_none_iff.1 hf ⟨l.time, _, _⟩ (Option.map_eq_some_iff.2 ⟨l, hl, rfl⟩)

/-- A write is put behind the others of its key with its stamp. -/
theorem Call.onHistories_appendNow {now t : Time} (hs : stamp (H key).tip now = some t)
    (value : Bytes) : (Call.appendNow key value now).onHistories H = extend H key ⟨t, value⟩ := by
  rw [onHistories]
  cases hl : (H key).getLast? with
  | none =>
    rw [History.tip, hl] at hs
    obtain rfl : now = t := Option.some.inj hs
    rfl
  | some l =>
    have hmax : l.time.toNat ≠ 2 ^ 64 - 1 := fun hmax => by
      rw [stamp_eq_none_iff.2 ⟨l, hl, hmax⟩] at hs
      cases hs
    rw [(stamp_eq hl hmax now).1] at hs
    obtain rfl := Option.some.inj hs
    rfl

/-- There is a stamp and room for a value that is written now, or the call breaks off; then nothing
    changes. -/
theorem Keeps.appendNow_admissible_or (hk : Keeps K log H) (hkey : key ∈ K) (value : Bytes)
    (now : Time) : (Call.appendNow key value now).Admissible K H ∨
      ∃ log', log.appendNow key value now = (.error .overflow, log') ∧ Still K H log log' := by
  obtain ⟨log', hp, hs⟩ := hk.publishedTip hkey
  cases hstamp : stamp (H key).tip now with
  | none =>
    refine .inr ⟨log', ?_, hs⟩
    rw [Log.appendNow, hp]
    simp only [hstamp]
  | some t =>
    by_cases ha : History.Addressable (H key ++ [⟨t, value⟩])
    · refine .inl ⟨hkey, ?_, fun l hl hmax => ?_⟩
      · rwa [Call.onHistories_appendNow hstamp, extend_snd_self]
      · rw [stamp_eq_none_iff.2 ⟨l, hl, hmax⟩] at hstamp
        cases hstamp
    · refine .inr ⟨log', ?_, hs⟩
      rw [Log.appendNow, hp]
      simp only [hstamp]
      exact write_overflow (hk.onDisk.stored key hkey).addressable ha

/-! ## Openings -/

theorem dirSpot_concat (root : Path) {folder : String} (hf : IsFolder folder) :
    DirSpot root (root ++ [folder]) :=
  .inr ⟨folder, hf, List.prefix_refl _, by simp⟩

theorem openAt_of_apply {t t₁ : FileTree} {root : Path}
    (h : (Step.makeDirs (root ++ ["data"])).apply t = .ok t₁) (hm₁ : t.Makes (root ++ ["data"]) t₁)
    (hd : OnDisk K t₁ root H) (fanout capacity : Nat) (flush : FlushPolicy) (tally : Tally) :
    ∃ log, openAt t root fanout capacity flush tally = (.ok log, log.disk) ∧ Keeps K log H ∧
      log.root = root ∧ ∀ p, FileSpot root p → log.disk.get? p = t.get? p := by
  obtain ⟨t₂, ht₂, hm⟩ := apply_makeDirs (hd.layout.clear (dirSpot_concat root (.inr rfl)))
  refine ⟨⟨t₂, root, fanout, flush, .empty capacity, tally⟩, ?_,
    ⟨hd.makes (dirSpot_concat root (.inr rfl)) hm, fun k _ tip hp => ?_⟩, rfl, fun p hp => ?_⟩
  · rw [openAt, run_cons_of_apply h, run_cons_of_apply ht₂]
    rfl
  · cases hp
  · rw [hm.get?_of_not_above ((dirSpot_concat root (.inr rfl)).not_above hp),
      hm₁.get?_of_not_above ((dirSpot_concat root (.inl rfl)).not_above hp)]

/-- Opening the files of a log gives a log that keeps the histories they tell. -/
theorem OnDisk.openAt {t : FileTree} {root : Path} (hd : OnDisk K t root H)
    (fanout capacity : Nat) (flush : FlushPolicy) (tally : Tally) :
    ∃ log, Log.openAt t root fanout capacity flush tally = (.ok log, log.disk) ∧ Keeps K log H ∧
      log.root = root ∧ ∀ p, FileSpot root p → log.disk.get? p = t.get? p := by
  obtain ⟨t₁, ht₁, hm⟩ := apply_makeDirs (hd.layout.clear (dirSpot_concat root (.inl rfl)))
  exact openAt_of_apply ht₁ hm (hd.makes (dirSpot_concat root (.inl rfl)) hm) fanout capacity
    flush tally

/-- Nothing is below `root`, and no file is in the way to it. -/
structure Vacant (t : FileTree) (root : Path) : Prop where
  clear : t.Clear root
  vacant : ∀ p, root <+: p → p ≠ root → t.get? p = none

theorem vacant_empty (root : Path) : Vacant .empty root where
  clear q _ bs h := by
    rw [FileTree.get?] at h
    split at h <;> cases h
  vacant p hp hne := by
    rw [FileTree.get?, if_neg]
    · rfl
    · rintro rfl
      exact hne (List.prefix_nil.1 hp).symm

theorem Vacant.makes {t t' : FileTree} {root : Path} (hv : Vacant t root) (hm : t.Makes root t') :
    Vacant t' root where
  clear q hq bs h := by
    rw [hm q, if_pos hq] at h
    cases h
  vacant p hp hne := by
    rw [hm.get?_of_not_above fun h => hne (h.eq_of_length
      (Nat.le_antisymm h.length_le hp.length_le)), hv.vacant p hp hne]

/-- A new directory tells that nothing was written. -/
theorem Vacant.onDisk {t t' : FileTree} {root : Path} (hv : Vacant t root)
    (hm : t.Makes root t') : OnDisk K t' root fun _ => [] := by
  have hget : ∀ p, root <+: p → p ≠ root → t'.get? p = none := (hv.makes hm).vacant
  have hroot : ∀ p, p <+: root → t'.get? p = some .dir := fun p hp => by rw [hm p, if_pos hp]
  have hfile : ∀ key folder, t'.get? (filePath root key folder) = none := fun key folder => by
    refine hget _ (fileSpot_filePath root key folder).root_above fun h => ?_
    refine (fileSpot_filePath root key folder).not_above_root ?_
    rw [h]
  refine ⟨⟨hroot, fun p bs hp hf => ?_, fun p hp hd => ?_, fun p hp hn => ?_⟩, fun k _ => ?_⟩
  · by_cases hpr : p = root
    · rw [hpr, hroot root (List.prefix_refl _)] at hf
      cases hf
    · rw [hget p hp hpr] at hf
      cases hf
  · by_cases hpr : p = root
    · exact .inl (hpr ▸ List.prefix_refl _)
    · rw [hget p hp hpr] at hd
      cases hd
  · by_cases hpr : p = root
    · intro q hq _
      exact hroot q (hpr ▸ hq)
    · exact absurd (hget p hp hpr) hn
  · exact ⟨.nil, Nat.two_pow_pos 64, .inl ⟨hfile k "data", rfl⟩, .inl ⟨hfile k "index", rfl⟩⟩

theorem Vacant.openAt {t : FileTree} {root : Path} (hv : Vacant t root)
    (fanout capacity : Nat) (flush : FlushPolicy) (tally : Tally) :
    ∃ log, Log.openAt t root fanout capacity flush tally = (.ok log, log.disk) ∧
      Keeps K log (fun _ => []) ∧ log.root = root ∧
      ∀ name, ¬IsFolder name → log.disk.get? (root ++ [name]) = none := by
  have hclear : t.Clear (root ++ ["data"]) := by
    intro q hq bs hf
    rcases List.prefix_concat_iff.1 hq with rfl | hq
    · rw [hv.vacant _ (List.prefix_append _ _) (by simp)] at hf
      cases hf
    · exact hv.clear q hq bs hf
  obtain ⟨t₁, ht₁, hm₁⟩ := apply_makeDirs hclear
  -- The directory itself might have been made first.
  obtain ⟨t', -, hm'⟩ := exists_makeDirs hv.clear
  have hm : t'.Makes (root ++ ["data"]) t₁ := by
    intro q
    rw [hm₁ q]
    split
    · rfl
    · rename_i hq
      rw [hm'.get?_of_not_above fun h => hq (h.trans (List.prefix_append _ _))]
  obtain ⟨log, ho, hk, hroot, hget⟩ := openAt_of_apply ht₁ hm₁
    ((hv.onDisk hm').makes (dirSpot_concat root (.inl rfl)) hm) fanout capacity flush tally
  refine ⟨log, ho, hk, hroot, fun name hn => ?_⟩
  rw [hget _ ⟨List.prefix_append _ _, .inr ⟨name, hn, rfl⟩⟩,
    hv.vacant _ (List.prefix_append _ _) (by simp)]

/-! ## Runs -/

/-- The tip that `extend` answers is that of the longer history. -/
theorem extend_fst {tip : Index.Tip} (h : History.tip (H key ++ [w]) = some tip) :
    (extend H key w).1 = .written (.ok tip) := by
  rw [History.tip_concat, Option.some.injEq, History.bytes_append, History.bytes_singleton,
    List.length_append] at h
  rw [extend, h]

/-- The log answers the call as its histories do, and keeps them as the call leaves them. -/
def Call.Answered (K : Set String) (log : Log) (H : String → History) (c : Call) : Prop :=
  (c.run log).1 = (c.onHistories H).1 ∧ Keeps K (c.run log).2 (c.onHistories H).2 ∧
    (c.run log).2.root = log.root

theorem Keeps.call_append (hk : Keeps K log H) (hK : Distinct K) {value : Bytes} {t : Time}
    (ha : (Call.append key value t).Admissible K H) :
    (Call.append key value t).Answered K log H := by
  obtain ⟨hkey, ha⟩ := ha
  by_cases hnew : ∀ l, (H key).getLast? = some l → l.time < t
  · have hH : (Call.append key value t).onHistories H = extend H key ⟨t, value⟩ := by
      rw [Call.onHistories]
      cases hl : (H key).getLast? with
      | none => rfl
      | some l => exact if_pos (hnew l hl)
    have ho := (hk.onDisk.stored key hkey).ordered.concat (w := ⟨t, value⟩) hnew
    rw [hH, extend_snd_self] at ha
    obtain ⟨tip, log', happ, htip, hk', hroot, -⟩ := hk.append hkey hK ho ha
    rw [Call.Answered, hH, Call.run, happ, extend_fst htip]
    exact ⟨rfl, hk', hroot⟩
  · push Not at hnew
    obtain ⟨l, hl, ht⟩ := hnew
    have hH : (Call.append key value t).onHistories H =
        (.written (.error (.index (.nonMonotonic l.time t))), H) := by
      rw [Call.onHistories, hl]
      exact if_neg ht
    obtain ⟨log', href, hs⟩ := hk.append_refused hkey hl value ht
    rw [Call.Answered, hH, Call.run, href]
    exact ⟨rfl, hs.keeps, hs.root⟩

theorem Keeps.call_appendNow (hk : Keeps K log H) (hK : Distinct K) {value : Bytes} {now : Time}
    (ha : (Call.appendNow key value now).Admissible K H) :
    (Call.appendNow key value now).Answered K log H := by
  obtain ⟨hkey, ha, hmax⟩ := ha
  obtain ⟨t, hstamp⟩ := exists_stamp hmax now
  have hH := Call.onHistories_appendNow hstamp value
  have ho := (hk.onDisk.stored key hkey).ordered.concat (w := ⟨t, value⟩) (lt_of_stamp hstamp)
  rw [hH, extend_snd_self] at ha
  obtain ⟨tip, log', happ, htip, hk', hroot, -⟩ :=
    hk.appendNow (w := ⟨t, value⟩) hkey hK hstamp ho ha
  rw [Call.Answered, hH, Call.run, happ, extend_fst htip]
  exact ⟨rfl, hk', hroot⟩

/-- A log that keeps histories answers a call as they do, and keeps them as the call leaves
    them. -/
theorem Keeps.call (hk : Keeps K log H) (hK : Distinct K) (c : Call) (ha : c.Admissible K H) :
    (c.run log).1 = (c.onHistories H).1 ∧ Keeps K (c.run log).2 (c.onHistories H).2 ∧
      (c.run log).2.root = log.root := by
  cases c with
  | append key value t => exact hk.call_append hK ha
  | appendNow key value now => exact hk.call_appendNow hK ha
  | readLatest key =>
    obtain ⟨log', hr, hs⟩ := hk.readLatest ha
    rw [Call.run, hr]
    exact ⟨rfl, hs.keeps, hs.root⟩
  | readAsOf key t =>
    obtain ⟨log', hr, hs⟩ := hk.readAsOf ha t
    rw [Call.run, hr]
    exact ⟨rfl, hs.keeps, hs.root⟩
  | readRange key first final =>
    obtain ⟨log', hr, hs⟩ := hk.readRange ha first final
    rw [Call.run, hr]
    exact ⟨rfl, hs.keeps, hs.root⟩
  | latestTip key =>
    obtain ⟨log', hr, hs⟩ := hk.latestTip ha
    rw [Call.run, hr]
    exact ⟨rfl, hs.keeps, hs.root⟩
  | has key => exact ⟨by rw [Call.run, hk.has_eq ha]; rfl, hk, rfl⟩
  | reopen fanout capacity flush =>
    obtain ⟨log', ho, hk', hroot, -⟩ := hk.onDisk.openAt fanout capacity flush log.tally
    rw [Call.run, ho]
    exact ⟨rfl, hk', hroot⟩

/-- So it does with calls one after the other. -/
theorem Keeps.calls (hk : Keeps K log H) (hK : Distinct K) (cs : List Call)
    (ha : AllAdmissible K H cs) :
    log.answers cs = answersOf H cs ∧ Keeps K (log.after cs) (historiesAfter H cs) := by
  induction cs generalizing log H with
  | nil => exact ⟨rfl, hk⟩
  | cons c cs ih =>
    obtain ⟨hc, hk', -⟩ := hk.call hK c ha.1
    obtain ⟨hcs, hk''⟩ := ih hk' ha.2
    exact ⟨by rw [answers, answersOf, hc, hcs], hk''⟩

/-- A log opened on an empty directory answers all calls as the map without writes does. An
    append that is refused leaves the files as they are. -/
theorem answers_eq {t : FileTree} {root : Path} (hv : Vacant t root) (hK : Distinct K)
    (fanout capacity : Nat) (flush : FlushPolicy) (tally : Tally) (cs : List Call)
    (ha : AllAdmissible K (fun _ => []) cs) :
    ∃ log, openAt t root fanout capacity flush tally = (.ok log, log.disk) ∧
      log.answers cs = answersOf (fun _ => []) cs ∧
      ∀ key ∈ K, ∀ l, (historiesAfter (fun _ => []) cs key).getLast? = some l →
        ∀ value time, ¬l.time < time →
          ((log.after cs).append key value time).2.disk = (log.after cs).disk := by
  obtain ⟨log, ho, hk, -⟩ := hv.openAt (K := K) fanout capacity flush tally
  obtain ⟨hans, hk'⟩ := hk.calls hK cs ha
  refine ⟨log, ho, hans, fun key hkey l hl value time ht => ?_⟩
  obtain ⟨log', happ, hs⟩ := hk'.append_refused hkey hl value ht
  rw [happ]
  exact hs.disk

/-- Two keys, an append that is refused, a clock that stands still, and a reopening between
    writes and reads. -/
def sampleCalls : List Call :=
  [.append "a" [1, 2] 5, .append "b" [3] 5, .append "a" [4] 5, .appendNow "a" [] 5,
    .reopen 3 1 .always, .appendNow "a" [6] 2, .readAsOf "a" 6, .readRange "a" 0 9, .readLatest "b",
    .latestTip "a"]

theorem distinct_sample : Distinct {"a", "b"} := by
  have hne : Digest.sha1 (Bytes.ofString "a") ≠ Digest.sha1 (Bytes.ofString "b") := by
    decide +kernel
  rintro _ (rfl | rfl) _ (rfl | rfl) h
  · rfl
  · exact absurd h hne
  · exact absurd h.symm hne
  · rfl

theorem answers_sampleCalls :
    Vacant .empty ["logs"] ∧ Distinct {"a", "b"} ∧
      AllAdmissible {"a", "b"} (fun _ => []) sampleCalls ∧
      ∃ log, openAt .empty ["logs"] 2 1 .batch .zero = (.ok log, log.disk) ∧
        log.answers sampleCalls = answersOf (fun _ => []) sampleCalls ∧
        ∀ key ∈ ({"a", "b"} : Set String),
          ∀ l, (historiesAfter (fun _ => []) sampleCalls key).getLast? = some l →
            ∀ value time, ¬l.time < time →
              ((log.after sampleCalls).append key value time).2.disk =
                (log.after sampleCalls).disk := by
  have ha : AllAdmissible {"a", "b"} (fun _ => []) sampleCalls := by
    refine ⟨⟨.inl rfl, ?_⟩, ⟨.inr rfl, ?_⟩, ⟨.inl rfl, ?_⟩, ⟨.inl rfl, ?_, ?_⟩, trivial,
      ⟨.inl rfl, ?_, ?_⟩, .inl rfl, .inl rfl, .inr rfl, .inl rfl, trivial⟩
    case refine_5 | refine_7 =>
      rintro l ⟨⟩
      decide
    all_goals decide
  exact ⟨vacant_empty _, distinct_sample, ha,
    answers_eq (vacant_empty _) distinct_sample 2 1 .batch .zero sampleCalls ha⟩

end ReplicaRing.Log
