import ReplicaRing.Proofs.Log.Disk

/-!
# A log answers as its histories do

A log *keeps* histories if its files tell them and its cache knows no tip but theirs
(`Log.Keeps`). All reads of such a log answer as the histories do, whatever is in the cache,
and leave the log keeping them, with the files as they were (`Log.Still`).

The tip of a key is found in two ways, in the cache and at the end of the index file, and
the place of a value in a third, with the whole index: `Log.Keeps.latestTip`, `storedTip` and
`loadIndex` say that they agree.
-/

namespace ReplicaRing

/-! ## The cache -/

namespace Cache

variable {c : Cache} {key k : String} {tip tip' : Index.Tip}

theorem lookup_promote (slots : List (String × Index.Tip)) :
    (promote slots key tip).lookup k = if k = key then some tip else slots.lookup k := by
  rw [promote, List.lookup_cons]
  by_cases h : k = key
  · simp [h]
  · have hb : (k == key) = false := by simpa using h
    simp only [hb, lookup_filter_ne, if_neg h]

theorem fst_get (c : Cache) (key : String) : (c.get key).1 = c.peek key := by
  rw [get]
  cases c.peek key <;> rfl

/-- A lookup changes no tip. -/
theorem peek_get (c : Cache) (key k : String) : (c.get key).2.peek k = c.peek k := by
  rw [get]
  cases hp : c.peek key with
  | none => rfl
  | some tip =>
    show (promote c.slots key tip).lookup k = c.slots.lookup k
    rw [lookup_promote]
    split
    · rename_i h
      rw [h]
      exact hp.symm
    · rfl

theorem lookup_take {slots : List (String × Index.Tip)} {n : Nat}
    (h : (slots.take n).lookup k = some tip) : slots.lookup k = some tip := by
  induction slots generalizing n with
  | nil =>
    rw [List.take_nil] at h
    exact h
  | cons s slots ih =>
    obtain ⟨a, v⟩ := s
    cases n with
    | zero => cases h
    | succ n =>
      rw [List.take_succ_cons, List.lookup_cons] at h
      rw [List.lookup_cons]
      split at h
      · exact h
      · exact ih h

/-- After a publication a key has its old tip, or it is the published key and has the
    published tip, unless that is no later than its old one. -/
theorem of_peek_publish (h : (c.publish key tip).peek k = some tip') :
    k ≠ key ∧ c.peek k = some tip' ∨
      k = key ∧ (tip' = tip ∨ c.peek key = some tip' ∧ ¬tip'.time < tip.time) := by
  rw [publish] at h
  cases hp : c.peek key with
  | none =>
    simp only [hp] at h
    have h := lookup_take h
    rw [List.lookup_cons] at h
    by_cases hk : k = key
    · refine .inr ⟨hk, .inl ?_⟩
      simpa [hk, eq_comm] using h
    · have hb : (k == key) = false := by simpa using hk
      rw [hb] at h
      exact .inl ⟨hk, h⟩
  | some old =>
    simp only [hp] at h
    have h : (promote c.slots key (if old.time < tip.time then tip else old)).lookup k =
      some tip' := h
    rw [lookup_promote] at h
    by_cases hk : k = key
    · rw [if_pos hk, Option.some.injEq] at h
      refine .inr ⟨hk, ?_⟩
      split at h
      · exact .inl h.symm
      · rename_i hlt
        exact .inr ⟨by rw [h], h ▸ hlt⟩
    · rw [if_neg hk] at h
      exact .inl ⟨hk, h⟩

end Cache

namespace Log

open FileTree

/-- The files of the log tell the histories of the keys in `K`, and the cache knows no other
    tips. -/
structure Keeps (K : Set String) (log : Log) (H : String → History) : Prop where
  onDisk : OnDisk K log.disk log.root H
  cached : ∀ k ∈ K, ∀ tip, log.cache.peek k = some tip → (H k).tip = some tip

/-- The log `log'` keeps the histories with the files of `log`. -/
structure Still (K : Set String) (H : String → History) (log log' : Log) : Prop where
  keeps : Keeps K log' H
  disk : log'.disk = log.disk
  root : log'.root = log.root
  fanout : log'.fanout = log.fanout

/-- The logs differ in nothing but what was counted. -/
def Recounted (log log' : Log) : Prop := ∃ tally, log' = { log with tally }

variable {K : Set String} {H : String → History} {log log' log'' : Log} {key : String}

theorem Recounted.refl (log : Log) : Recounted log log := ⟨log.tally, rfl⟩

theorem Recounted.enter (log : Log) (phase : String) : Recounted log (log.enter phase) := ⟨_, rfl⟩

theorem Still.trans (h : Still K H log log') (h' : Still K H log' log'') : Still K H log log'' :=
  ⟨h'.keeps, h'.disk.trans h.disk, h'.root.trans h.root, h'.fanout.trans h.fanout⟩

/-! ## Reading files -/

namespace OnDisk

variable (hd : OnDisk K log.disk log.root H) (hkey : key ∈ K)

include hd

/-- A file that is missing is not found, and no file is in its place. -/
theorem clear_of_none {folder : String} (hf : IsFolder folder)
    (h : log.disk.get? (filePath log.root key folder) = none) :
    log.disk.Clear (filePath log.root key folder) := by
  intro q hq bs hbs
  rw [filePath_eq] at hq h
  rcases List.prefix_concat_iff.1 hq with rfl | hq
  · rw [h] at hbs
    cases hbs
  · exact hd.layout.clear (dirSpot_folderOf log.root key hf) q hq bs hbs

theorem rooted_of_some {folder : String} {e : Item}
    (h : log.disk.get? (filePath log.root key folder) = some e) :
    log.disk.Rooted (filePath log.root key folder) :=
  hd.layout.rooted _ (fileSpot_filePath _ _ _).root_above (by simp [h])

include hkey

/-- The end of the index file tells the tip of the history. -/
theorem storedTip_eq : log.storedTip key = (.ok (H key).tip, log.enter "index_read") := by
  have hs := hd.stored key hkey
  rw [Log.storedTip]
  show (tipAt log.disk (filePath log.root key "index"), _) = _
  rw [tipAt]
  rcases hs.index with ⟨hg, hnil⟩ | ⟨hne, fanout, hg⟩
  · rw [read_missing (hd.clear_of_none (.inr rfl) hg) hg, hnil]
    rfl
  · rw [read_of_get? (hd.rooted_of_some hg) hg]
    simp only [Index.readTip_file (History.ascending_entries hs.ordered hs.addressable),
      History.tipOf_entries]

/-- The index file decodes to an index that holds the entries of the history. -/
theorem exists_loadIndex : ∃ x, log.loadIndex key = (.ok x, log.enter "index_read") ∧
    (x = none ∧ H key = [] ∨ ∃ y : Index, x = some y ∧ y.Holds (H key).entries) := by
  have hs := hd.stored key hkey
  rw [Log.loadIndex]
  show ∃ x, (indexAt log.disk (filePath log.root key "index"), _) = _ ∧ _
  rw [indexAt]
  rcases hs.index with ⟨hg, hnil⟩ | ⟨hne, fanout, hg⟩
  · rw [read_missing (hd.clear_of_none (.inr rfl) hg) hg]
    exact ⟨none, rfl, .inl ⟨rfl, hnil⟩⟩
  · obtain ⟨y, hy, hholds⟩ :=
      Index.decode_file (History.ascending_entries hs.ordered hs.addressable) fanout
    rw [read_of_get? (hd.rooted_of_some hg) hg]
    simp only [hy]
    exact ⟨some y, rfl, .inr ⟨y, rfl, hholds⟩⟩

/-- The data file has the values of some writes where their spans say. -/
theorem exists_valuesAt {g : History} (h : History) {later : History}
    (hH : H key = g ++ (h ++ later)) :
    ∃ log', log.valuesAt key (Index.spansFrom (UInt64.ofNat g.bytes.length)
      (History.entriesFrom g.bytes.length h)) = (.ok (h.map (·.value)), log') ∧
      Recounted log log' := by
  have hs := hd.stored key hkey
  have ha : History.Addressable (g ++ h) := by
    have := hs.addressable
    rw [History.Addressable, hH, ← List.append_assoc, History.bytes_append,
      List.length_append] at this
    exact Nat.lt_of_le_of_lt (Nat.le_add_right _ _) this
  set spans := Index.spansFrom (UInt64.ofNat g.bytes.length)
    (History.entriesFrom g.bytes.length h) with hspans
  rw [Log.valuesAt]
  by_cases hall : spans.all (·.isEmpty) = true
  · -- Only empty values: the data file is not opened.
    refine ⟨log, ?_, .refl log⟩
    have := History.valuesIn_spansFrom g h [] ha
    rw [History.valuesIn_of_all_isEmpty hall] at this
    rw [if_pos hall, this]
  · rw [if_neg hall]
    refine ⟨log.enter "data_read", ?_, .enter log _⟩
    have hne : H key ≠ [] := by
      intro hnil
      rw [hH, List.append_eq_nil_iff, List.append_eq_nil_iff] at hnil
      obtain ⟨-, rfl, -⟩ := hnil
      exact hall rfl
    rcases hs.data with ⟨-, hnil⟩ | ⟨junk, hg⟩
    · exact absurd hnil hne
    · have hread : (log.enter "data_read").disk.read ((log.enter "data_read").dataPath key) =
          .ok ((H key).bytes ++ junk) := read_of_get? (hd.rooted_of_some hg) hg
      have hv := History.valuesIn_spansFrom g h (later.bytes ++ junk) ha
      simp only [hread, hH, History.bytes_append, List.append_assoc, hspans, hv]

/-- The value of the last of some writes is where their tip says. -/
theorem exists_valueAt? {g later : History} (hH : H key = g ++ later) :
    ∃ log', log.valueAt? key (g.tip.map (·.span)) = (.ok g.latest, log') ∧ Recounted log log' := by
  rcases List.eq_nil_or_concat g with rfl | ⟨g, w, rfl⟩
  · exact ⟨log, rfl, .refl log⟩
  · rw [List.concat_eq_append] at *
    obtain ⟨log', hv, hcount⟩ := hd.exists_valuesAt hkey [w] (by rw [hH, List.append_assoc])
    refine ⟨log', ?_, hcount⟩
    rw [History.tip_concat]
    rw [History.entriesFrom, History.entriesFrom, Index.spansFrom, Index.spansFrom] at hv
    simp only [Option.map_some, Log.valueAt?, Log.valueAt, History.bytes_append,
      History.bytes_singleton, List.length_append, hv]
    simp [Except.map, History.latest]

end OnDisk

namespace Keeps

variable (hk : Keeps K log H) (hkey : key ∈ K)

include hk

/-- What is counted does not matter. -/
theorem recounted (h : Recounted log log') : Still K H log log' := by
  obtain ⟨tally, rfl⟩ := h
  exact ⟨⟨hk.onDisk, hk.cached⟩, rfl, rfl, rfl⟩

include hkey

theorem has_eq : log.has key = !(H key).isEmpty := by
  rw [has, indexPath]
  rcases (hk.onDisk.stored key hkey).index with ⟨hg, hnil⟩ | ⟨hne, fanout, hg⟩
  · rw [has_missing (hk.onDisk.clear_of_none (.inr rfl) hg) hg, hnil]
    rfl
  · rw [has_of_get? (hk.onDisk.rooted_of_some hg) hg]
    simp [hne]

theorem storedTip : ∃ log', log.storedTip key = (.ok (H key).tip, log') ∧ Still K H log log' :=
  ⟨_, hk.onDisk.storedTip_eq hkey, hk.recounted (.enter log _)⟩

theorem loadIndex : ∃ x log', log.loadIndex key = (.ok x, log') ∧ Still K H log log' ∧
    (x = none ∧ H key = [] ∨ ∃ y : Index, x = some y ∧ y.Holds (H key).entries) := by
  obtain ⟨x, hx, hx'⟩ := hk.onDisk.exists_loadIndex hkey
  exact ⟨x, _, hx, hk.recounted (.enter log _), hx'⟩

theorem valuesAt {g : History} (h : History) {later : History} (hH : H key = g ++ (h ++ later)) :
    ∃ log', log.valuesAt key (Index.spansFrom (UInt64.ofNat g.bytes.length)
      (History.entriesFrom g.bytes.length h)) = (.ok (h.map (·.value)), log') ∧
      Still K H log log' := by
  obtain ⟨log', hv, hcount⟩ := hk.onDisk.exists_valuesAt hkey h hH
  exact ⟨log', hv, hk.recounted hcount⟩

theorem valueAt? {g later : History} (hH : H key = g ++ later) :
    ∃ log', log.valueAt? key (g.tip.map (·.span)) = (.ok g.latest, log') ∧ Still K H log log' := by
  obtain ⟨log', hv, hcount⟩ := hk.onDisk.exists_valueAt? hkey hH
  exact ⟨log', hv, hk.recounted hcount⟩

/-! ## Reading keys -/

/-- The cache knows the tip of the history, or nothing. -/
theorem cached_eq : ∃ tip log', log.cached key = (tip, log') ∧ Still K H log log' ∧
    (tip = none ∨ ∃ t, tip = some t ∧ (H key).tip = some t) := by
  refine ⟨_, _, rfl, ⟨⟨hk.onDisk, fun k hkK tip hp => ?_⟩, rfl, rfl, rfl⟩, ?_⟩
  · have hp : (log.cache.get key).2.peek k = some tip := hp
    rw [Cache.peek_get] at hp
    exact hk.cached k hkK tip hp
  · show (log.cache.get key).1 = none ∨ ∃ t, (log.cache.get key).1 = some t ∧ _
    rw [Cache.fst_get]
    cases hp : log.cache.peek key with
    | none => exact .inl rfl
    | some t => exact .inr ⟨t, rfl, hk.cached key hkey t hp⟩

/-- Wherever the tip is looked for, it is that of the history. -/
theorem latestTip : ∃ log', log.latestTip key = (.ok (H key).tip, log') ∧ Still K H log log' := by
  obtain ⟨tip, log₁, hc, hs₁, htip⟩ := hk.cached_eq hkey
  rw [Log.latestTip, hc]
  rcases htip with rfl | ⟨t, rfl, ht⟩
  · obtain ⟨log₂, hst, hs₂⟩ := hs₁.keeps.storedTip hkey
    exact ⟨log₂, hst, hs₁.trans hs₂⟩
  · exact ⟨log₁, by rw [ht], hs₁⟩

theorem readLatest :
    ∃ log', log.readLatest key = (.ok (H key).latest, log') ∧ Still K H log log' := by
  obtain ⟨log₁, ht, hs₁⟩ := hk.latestTip hkey
  obtain ⟨log₂, hv, hs₂⟩ := hs₁.keeps.valueAt? hkey (g := H key) (List.append_nil _).symm
  refine ⟨log₂, ?_, hs₁.trans hs₂⟩
  rw [Log.readLatest, ht]
  exact hv

theorem readAsOfIndex (t : Time) :
    ∃ log', log.readAsOfIndex key t = (.ok ((H key).asOf t), log') ∧ Still K H log log' := by
  obtain ⟨x, log₁, hx, hs₁, hx'⟩ := hk.loadIndex hkey
  rw [Log.readAsOfIndex, hx]
  rcases hx' with ⟨rfl, hnil⟩ | ⟨y, rfl, hy⟩
  · exact ⟨log₁, by rw [hnil]; rfl, hs₁⟩
  · obtain ⟨hspan, later, hcut⟩ :=
      History.asOf_span (hk.onDisk.stored key hkey).ordered hy t
    obtain ⟨log₂, hv, hs₂⟩ := hs₁.keeps.valueAt? hkey hcut
    refine ⟨log₂, ?_, hs₁.trans hs₂⟩
    simp only [Option.bind_some, hspan]
    exact hv

theorem readAsOf (t : Time) :
    ∃ log', log.readAsOf key t = (.ok ((H key).asOf t), log') ∧ Still K H log log' := by
  obtain ⟨tip, log₁, hc, hs₁, htip⟩ := hk.cached_eq hkey
  rw [Log.readAsOf, hc]
  rcases htip with rfl | ⟨tip, rfl, htip⟩
  · obtain ⟨log₂, hr, hs₂⟩ := hs₁.keeps.readAsOfIndex hkey t
    exact ⟨log₂, hr, hs₁.trans hs₂⟩
  · by_cases hle : tip.time ≤ t
    · obtain ⟨log₂, hv, hs₂⟩ := hs₁.keeps.valueAt? hkey (g := H key) (List.append_nil _).symm
      refine ⟨log₂, ?_, hs₁.trans hs₂⟩
      have hlast : ∃ l, (H key).getLast? = some l ∧ l.time = tip.time := by
        rw [History.tip, Option.map_eq_some_iff] at htip
        obtain ⟨l, hl, rfl⟩ := htip
        exact ⟨l, hl, rfl⟩
      obtain ⟨l, hl, htime⟩ := hlast
      rw [htip] at hv
      simp only [if_pos hle]
      rw [History.asOf_of_last_le (hk.onDisk.stored key hkey).ordered hl (htime ▸ hle)]
      exact hv
    · obtain ⟨log₂, hr, hs₂⟩ := hs₁.keeps.readAsOfIndex hkey t
      refine ⟨log₂, ?_, hs₁.trans hs₂⟩
      simp only [if_neg hle]
      exact hr

theorem readRange (first final : Time) :
    ∃ log', log.readRange key first final = (.ok ((H key).range first final), log') ∧
      Still K H log log' := by
  obtain ⟨x, log₁, hx, hs₁, hx'⟩ := hk.loadIndex hkey
  rw [Log.readRange, hx]
  rcases hx' with ⟨rfl, hnil⟩ | ⟨y, rfl, hy⟩
  · exact ⟨log₁, by rw [hnil]; rfl, hs₁⟩
  · obtain ⟨earlier, mid, later, hcut, hrange, hspans⟩ :=
      History.range_spans (hk.onDisk.stored key hkey).ordered hy first final
    obtain ⟨log₂, hv, hs₂⟩ := hs₁.keeps.valuesAt hkey _ hcut
    refine ⟨log₂, ?_, hs₁.trans hs₂⟩
    rw [hrange]
    simp only [hspans]
    exact hv

end Keeps

end Log

end ReplicaRing
