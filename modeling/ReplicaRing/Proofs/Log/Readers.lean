import ReplicaRing.Proofs.Log.Threads
import ReplicaRing.Proofs.Log.World

/-!
# Readers among writers

A reader learns of a history from the cache or from an index file. While it goes on to the data
file, writers may cut off what no index tells of, write more, and put new index files in place.
None of that moves the bytes that the reader is after: they belong to a history that is
committed, and what is committed only gets longer.

So a reader answers as some history does that is no shorter than the one published when it
began, and no longer than the one committed when it ended (`Log.right_read`).
-/

namespace ReplicaRing.Log

open FileTree

variable {K : Set String} {root : Path} {key : String} {g h mid : History} {w : World}
  {α β : Type} {post : α → World → Prop}

/-- An access that only looks is right if the rest is. -/
theorem right_look_bind {x : Access Log β} {f : β → Plan Log α}
    (h : ∀ w₁, Sound K root w₁ → Grows w w₁ → Untouched w₁.log (x.run w₁.log).2 ∧
      (reading K root).Right post (f (x.run w₁.log).1) { w₁ with log := (x.run w₁.log).2 }) :
    (reading K root).Right post (Plan.access x >>= f) w :=
  Protocol.right_access_bind fun w₁ hs hr =>
    ⟨{ w₁ with log := (x.run w₁.log).2 }, rfl, hs.untouched (h w₁ hs hr).1,
      ⟨(h w₁ hs hr).1, rfl, rfl⟩, (h w₁ hs hr).2⟩

theorem right_look {x : Access Log α}
    (h : ∀ w₁, Sound K root w₁ → Grows w w₁ → Untouched w₁.log (x.run w₁.log).2 ∧
      post (x.run w₁.log).1 { w₁ with log := (x.run w₁.log).2 }) :
    (reading K root).Right post (Plan.access x) w :=
  right_look_bind (f := pure) h

/-- What is committed remains so. -/
theorem right_remember {p : Plan Log α} (hp : (reading K root).Right post p w)
    (h : g <+: w.committed key) :
    (reading K root).Right (fun a w' => post a w' ∧ g <+: w'.committed key) p w :=
  hp.remember h (fun _ _ h hr => h.trans (hr.committed key)) fun _ _ h hg => by
    rwa [hg.committed]

theorem Sound.addressable (hs : Sound K root w) (hkey : key ∈ K) (h : g <+: w.committed key) :
    g.Addressable := by
  obtain ⟨rest, hrest⟩ := h
  have ha := (hs.onDisk.stored key hkey).addressable
  rw [History.Addressable, ← hrest, History.bytes_append, List.length_append] at ha
  exact Nat.lt_of_le_of_lt (Nat.le_add_right _ _) ha

theorem Sound.ordered (hs : Sound K root w) (hkey : key ∈ K) (h : g <+: w.committed key) :
    g.Ordered :=
  List.Pairwise.sublist h.sublist (hs.onDisk.stored key hkey).ordered

/-! ## Values -/

/-- The value of a committed write is where its span says. -/
theorem right_span (hkey : key ∈ K) (hs : Sound K root w) {v : Write}
    (h : g ++ [v] <+: w.committed key) :
    (reading K root).Right (fun r _ => r = .ok v.value) (spanPlan key
      ⟨UInt64.ofNat g.bytes.length, UInt64.ofNat (g.bytes.length + v.value.length)⟩) w := by
  have hlen : g.bytes.length + v.value.length < 2 ^ 64 := by
    have := hs.addressable hkey h
    rwa [History.Addressable, History.bytes_append, History.bytes_singleton,
      List.length_append] at this
  rw [spanPlan, History.isEmpty_span hlen]
  by_cases hv : v.value.length = 0
  · rw [if_pos (decide_eq_true hv), List.length_eq_zero_iff.1 hv]
    exact Protocol.right_pure rfl
  · rw [if_neg (by simpa using hv)]
    refine right_look fun w₁ hs₁ hr => ?_
    -- What is committed by now still begins with what was committed when the span was found.
    obtain ⟨rest, hrest⟩ := h.trans (hr.committed key)
    have hne : w₁.committed key ≠ [] := by
      rw [← hrest]
      simp
    obtain ⟨junk, hread⟩ := hs₁.read_data hkey hne
    rw [← hrest, History.bytes_append, History.bytes_append, History.bytes_singleton,
      List.append_assoc, List.append_assoc] at hread
    simp only [spanAccess, hread]
    exact ⟨.refl _, History.slice_append _ _ _ hlen⟩

/-- So are those of some writes, one after the other. -/
theorem right_valuesIn (hkey : key ∈ K) (hs : Sound K root w) (h : g ++ mid <+: w.committed key) :
    (reading K root).Right (fun r _ => r = .ok (mid.map (·.value)))
      (valuesInPlan key (Index.spansFrom (UInt64.ofNat g.bytes.length)
        (History.entriesFrom g.bytes.length mid))) w := by
  induction mid generalizing g w with
  | nil => exact Protocol.right_pure rfl
  | cons v mid ih =>
    have hv : g ++ [v] <+: w.committed key := by
      refine List.IsPrefix.trans ?_ h
      rw [List.prefix_append_right_inj]
      exact ⟨mid, rfl⟩
    rw [History.entriesFrom, Index.spansFrom, valuesInPlan]
    refine (right_remember (right_span hkey hs hv) h).bind hs fun r w₁ hs₁ hr => ?_
    obtain ⟨rfl, h₁⟩ := hr
    have hrest : g ++ [v] ++ mid <+: w₁.committed key := by
      rwa [List.append_assoc]
    have := ih hs₁ hrest
    rw [History.bytes_append, History.bytes_singleton, List.length_append] at this
    refine this.bind hs₁ fun r w₂ _ hr => ?_
    subst hr
    exact Protocol.right_pure rfl

theorem right_valuesAt (hkey : key ∈ K) (hs : Sound K root w) (h : g ++ mid <+: w.committed key) :
    (reading K root).Right (fun r _ => r = .ok (mid.map (·.value)))
      (valuesAtPlan key (Index.spansFrom (UInt64.ofNat g.bytes.length)
        (History.entriesFrom g.bytes.length mid))) w := by
  rw [valuesAtPlan]
  split
  · rename_i hall
    have := History.valuesIn_spansFrom g mid [] (hs.addressable hkey h)
    rw [History.valuesIn_of_all_isEmpty hall] at this
    exact Protocol.right_pure this
  · rename_i hall
    refine right_look_bind fun w₁ hs₁ hr => ?_
    have h₁ := h.trans (hr.committed key)
    have hne : w₁.committed key ≠ [] := by
      intro hnil
      rw [hnil, List.prefix_nil, List.append_eq_nil_iff] at h₁
      obtain ⟨-, rfl⟩ := h₁
      exact hall rfl
    obtain ⟨junk, hread⟩ := hs₁.read_data hkey hne
    have hread' : (w₁.log.enter "data_read").disk.read ((w₁.log.enter "data_read").dataPath key) =
        .ok ((w₁.committed key).bytes ++ junk) := hread
    simp only [openAccess, hread']
    have hu : Untouched w₁.log (w₁.log.enter "data_read") := .enter _
    exact ⟨hu, right_valuesIn hkey (hs₁.untouched hu) h₁⟩

/-- The last value of a committed history is where its tip says. -/
theorem right_valueAt? (hkey : key ∈ K) (hs : Sound K root w) (h : g <+: w.committed key) :
    (reading K root).Right (fun r _ => r = .ok g.latest)
      (valueAt?Plan key (g.tip.map (·.span))) w := by
  rcases List.eq_nil_or_concat g with rfl | ⟨g, v, rfl⟩
  · exact Protocol.right_pure rfl
  · rw [List.concat_eq_append] at *
    have hv : (reading K root).Right (fun r _ => r = .ok ([v].map (·.value))) (valuesAtPlan key
        (Index.spansFrom (UInt64.ofNat (History.bytes g).length)
          (History.entriesFrom (History.bytes g).length [v]))) w :=
      right_valuesAt hkey hs h
    rw [History.tip_concat]
    rw [History.entriesFrom, History.entriesFrom, Index.spansFrom, Index.spansFrom] at hv
    rw [Option.map_some, valueAt?Plan, History.bytes_append, History.bytes_singleton,
      List.length_append]
    refine hv.bind hs fun r w₁ _ hr => ?_
    subst hr
    exact Protocol.right_pure (by simp [Except.map, History.latest])

/-! ## Reads -/

/-- A lookup in the cache finds nothing or the tip of a history that has been published. -/
theorem cached_cases (hs : Sound K root w) (hkey : key ∈ K) :
    Untouched w.log (w.log.cached key).2 ∧ ((w.log.cached key).1 = none ∨
      ∃ g : History, (w.log.cached key).1 = g.tip ∧ g ≠ [] ∧ w.published key <+: g ∧
        g <+: w.committed key) := by
  refine ⟨(looked_cached w.log key).toUntouched, ?_⟩
  have hpeek : (w.log.cached key).1 = w.log.cache.peek key := Cache.fst_get w.log.cache key
  rw [hpeek]
  cases hp : w.log.cache.peek key with
  | none => exact .inl rfl
  | some tip =>
    obtain ⟨g, hpub, hcom, htip⟩ := hs.cached key hkey tip hp
    refine .inr ⟨g, htip.symm, ?_, hpub, hcom⟩
    rintro rfl
    cases htip

/-- The answer is that of a history between the one that is published in `w` and the one that
    is committed. -/
def Between (key : String) (w : World) (answers : History → α → Prop) (a : α) (w' : World) : Prop :=
  ∃ g, w.published key <+: g ∧ g <+: w'.committed key ∧ answers g a

theorem right_latestTip (hkey : key ∈ K) :
    (reading K root).Right (Between key w fun g r => r = .ok g.tip) (latestTipPlan key) w := by
  rw [latestTipPlan]
  refine right_look_bind fun w₁ hs₁ hr₁ => ?_
  obtain ⟨hu, hc⟩ := cached_cases hs₁ hkey
  refine ⟨hu, ?_⟩
  simp only
  rcases hc with hnone | ⟨g, hg, hne, hpub, hcom⟩
  · -- The index file tells all that is committed when it is read.
    rw [hnone]
    refine right_look fun w₂ hs₂ hr₂ => ⟨.enter _, w₂.committed key, ?_, List.prefix_refl _, ?_⟩
    · exact (hr₁.published key).trans ((hr₂.published key).trans (hs₂.prefixed key))
    · exact hs₂.tipAt_eq hkey
  · obtain ⟨tip, htip⟩ := Option.ne_none_iff_exists'.1 (mt History.tip_eq_none.1 hne)
    rw [hg, htip]
    exact Protocol.right_pure ⟨g, (hr₁.published key).trans hpub, hcom,
      congrArg Except.ok htip.symm⟩

theorem right_readLatest (hkey : key ∈ K) (hs : Sound K root w) :
    (reading K root).Right (Between key w fun g r => r = .ok g.latest) (readLatestPlan key) w := by
  rw [readLatestPlan]
  refine (right_latestTip hkey).bind hs fun r w₁ hs₁ hr => ?_
  obtain ⟨g, hpub, hcom, rfl⟩ := hr
  exact (right_remember (right_valueAt? hkey hs₁ hcom) hcom).mono fun r w₂ h =>
    ⟨g, hpub, h.2, h.1⟩

/-- The index file tells that nothing is committed, or is an index of all that is. The reader
    answers as that history does. -/
theorem right_index_bind (hkey : key ∈ K) {answers : History → α → Prop}
    {f : Except StorageError (Option Index) → Plan Log α}
    (hnone : ∃ a, f (.ok none) = pure a ∧ answers [] a)
    (hsome : ∀ w₁ (y : Index), Sound K root w₁ → y.Holds (w₁.committed key).entries →
      (reading K root).Right (fun a _ => answers (w₁.committed key) a) (f (.ok (some y))) w₁) :
    (reading K root).Right (Between key w answers) (Plan.access (indexAccess key) >>= f) w := by
  refine right_look_bind fun w₁ hs₁ hr => ⟨.enter _, ?_⟩
  have hs₂ := hs₁.untouched (.enter "index_read")
  have hpub := (hr.published key).trans (hs₁.prefixed key)
  obtain ⟨x, hx, hcases⟩ := hs₁.indexAt_eq hkey
  have hx' : ((indexAccess key).run w₁.log).1 = .ok x := hx
  rw [hx']
  rcases hcases with ⟨rfl, hnil⟩ | ⟨y, rfl, hy⟩
  · obtain ⟨a, ha, hans⟩ := hnone
    rw [ha]
    exact Protocol.right_pure ⟨w₁.committed key, hpub, List.prefix_refl _, hnil.symm ▸ hans⟩
  · exact (right_remember (hsome _ y hs₂ hy) (List.prefix_refl (w₁.committed key))).mono
      fun a w₂ h => ⟨w₁.committed key, hpub, h.2, h.1⟩

theorem right_readAsOfIndex (hkey : key ∈ K) (t : Time) :
    (reading K root).Right (Between key w fun g r => r = .ok (g.asOf t))
      (readAsOfIndexPlan key t) w := by
  rw [readAsOfIndexPlan]
  refine right_index_bind hkey ⟨_, rfl, rfl⟩ fun w₁ y hs₁ hy => ?_
  obtain ⟨hspan, later, hcut⟩ :=
    History.asOf_span (hs₁.ordered hkey (List.prefix_refl _)) hy t
  have hfound : (w₁.committed key).filter (fun v => v.time ≤ t) <+: w₁.committed key :=
    ⟨later, hcut.symm⟩
  simp only [Option.bind_some, hspan]
  exact right_valueAt? hkey hs₁ hfound

theorem right_readAsOf (hkey : key ∈ K) (t : Time) :
    (reading K root).Right (Between key w fun g r => r = .ok (g.asOf t)) (readAsOfPlan key t) w := by
  rw [readAsOfPlan]
  refine right_look_bind fun w₁ hs₁ hr₁ => ?_
  obtain ⟨hu, hc⟩ := cached_cases hs₁ hkey
  have hs₂ := hs₁.untouched hu
  refine ⟨hu, ?_⟩
  have hindex : (reading K root).Right (Between key w fun g r => r = .ok (g.asOf t))
      (readAsOfIndexPlan key t) { w₁ with log := (w₁.log.cached key).2 } := by
    refine (right_readAsOfIndex hkey t).mono fun r w₂ h => ?_
    obtain ⟨g, hpub, h⟩ := h
    exact ⟨g, (hr₁.published key).trans hpub, h⟩
  simp only
  rcases hc with hnone | ⟨g, hg, hne, hpub, hcom⟩
  · rw [hnone]
    exact hindex
  · obtain ⟨tip, htip⟩ := Option.ne_none_iff_exists'.1 (mt History.tip_eq_none.1 hne)
    rw [hg, htip]
    simp only
    split
    · rename_i hle
      have hv := right_remember (right_valueAt? hkey hs₂ hcom) hcom
      rw [htip] at hv
      refine hv.mono fun r w₂ h => ⟨g, (hr₁.published key).trans hpub, h.2, ?_⟩
      -- All writes of the history are up to the time that is asked for.
      obtain ⟨l, hl, hlt⟩ : ∃ l, g.getLast? = some l ∧ l.time = tip.time := by
        rw [History.tip, Option.map_eq_some_iff] at htip
        obtain ⟨l, hl, rfl⟩ := htip
        exact ⟨l, hl, rfl⟩
      rw [History.asOf_of_last_le (hs₁.ordered hkey hcom) hl (hlt ▸ hle)]
      exact h.1
    · exact hindex

theorem right_readRange (hkey : key ∈ K) (first final : Time) :
    (reading K root).Right (Between key w fun g r => r = .ok (g.range first final))
      (readRangePlan key first final) w := by
  rw [readRangePlan]
  refine right_index_bind hkey ⟨_, rfl, rfl⟩ fun w₁ y hs₁ hy => ?_
  obtain ⟨earlier, mid, later, hcut, hrange, hspans⟩ :=
    History.range_spans (hs₁.ordered hkey (List.prefix_refl _)) hy first final
  have hfound : earlier ++ mid <+: w₁.committed key :=
    ⟨later, by rw [hcut, List.append_assoc]⟩
  simp only [hspans]
  exact (right_valuesAt hkey hs₁ hfound).mono fun r _ hr =>
    hr.trans (congrArg Except.ok hrange.symm)

/-- **A read answers as some history does** that is no shorter than the one published when it
    begins, and no longer than the one committed when it ends. -/
theorem right_read {task : Task} (hread : task.isAppend = false) (hkey : task.key ∈ K)
    (hs : Sound K root w) :
    (reading K root).Right (Between task.key w fun g a => a = (task.onHistory g).1) task.plan w := by
  have hdone : ∀ {β : Type} {p : Plan Log β} {answers : History → β → Prop} {f : β → Answer},
      (reading K root).Right (Between task.key w answers) p w →
      (∀ g b, answers g b → f b = (task.onHistory g).1) →
      (reading K root).Right (Between task.key w fun g a => a = (task.onHistory g).1)
        (p >>= fun b => pure (f b)) w := by
    intro β p answers f hp hf
    refine hp.bind hs fun b w₁ _ ⟨g, hpub, hcom, hb⟩ => ?_
    exact Protocol.right_pure ⟨g, hpub, hcom, hf g b hb⟩
  cases task with
  | append key value time => cases hread
  | appendNow key value now => cases hread
  | readLatest key => exact hdone (right_readLatest hkey hs) fun g r hr => by rw [hr]; rfl
  | readAsOf key time => exact hdone (right_readAsOf hkey time) fun g r hr => by rw [hr]; rfl
  | readRange key first final =>
    exact hdone (right_readRange hkey first final) fun g r hr => by rw [hr]; rfl

end ReplicaRing.Log
