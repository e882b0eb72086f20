import ReplicaRing.Proofs.Log.Alike
import ReplicaRing.Proofs.Store.Lived

/-!
# Calls about different keys

Two calls that are no reads, about different keys of a store that was opened and used, give each the
same answer in either order, and leave the same list of keys, the same files and the same answers to
every read of every key, whatever room there is in the cache (`Store.calls_commute`).

What a call makes of the store is told by what belongs to its key alone, and putting a replica in
its place and laying files over a tree may be done in either order for two keys. The cache may know
less of the two keys in one order than in the other, but what it knows of them is their last tips: a
key whose tip has been driven out is read from its files, and answers the same. Of other keys, which
failures may have left with an earlier tip, it knows the same in either order.
-/

namespace ReplicaRing.Store

open FileTree Log

variable {K : Set String} {late : Bool} {root : Path} {H : String → History}
  {s s' s₁ s₂ s₁₂ s₂₁ : Store} {key k : String} {c d : Call} {h : History} {x : Index.Tip}

/-! ## Two calls -/

namespace Undergoes

variable {a b : String} {e e' : Effect}

/-- A key that is touched is known with its tip. -/
theorem peek_self (h : s.Undergoes key e s') (hf : s.log.cache.Fits) (he : e.tip = some x) :
    s'.log.cache.peek key = some x := by
  rw [Cache.peek, h.slots, he]
  exact Cache.lookup_touch_self hf.capacity_pos

/-- Another key may have made room. -/
theorem peek_of_ne (h : s.Undergoes key e s') (hne : k ≠ key)
    (hp : s'.log.cache.peek k = some x) : s.log.cache.peek k = some x := by
  rw [Cache.peek, h.slots] at hp
  cases he : e.tip with
  | none => rwa [he] at hp
  | some y =>
    rw [he] at hp
    exact Cache.lookup_touch_of_ne hp hne

/-- The index files of other keys are as before. -/
theorem get?_of_ne (h : s.Undergoes key e s') (hpath : s.catalog.path = metaPath s.log.root)
    (hK : Distinct K) (hkey : key ∈ K) (hk : k ∈ K) (hne : k ≠ key) :
    s'.disk.get? (s.log.indexPath k) = s.disk.get? (s.log.indexPath k) := by
  rw [h.files _ (hpath ▸ filePath_ne_beside _ _ _ _), indexPath,
    filesOver_of_not_territory (not_territory hK hk hkey hne (.inr rfl)), Option.none_or]

/-- Another key is listed as before. -/
theorem replica?_of_ne (h : s.Undergoes key e s') (hs : Catalog.Sorted s.catalog.entries)
    (hname : ∀ r ∈ e.entry, r.name = key) (hne : k ≠ key) : s'.replica? k = s.replica? k := by
  rw [replica?, replica?, Catalog.get?, Catalog.get?, h.entries]
  exact Catalog.find?_edited_of_ne hs fun r hr he => hne (he.symm.trans (hname r hr))

/-- So a call about another key makes the same of the store as before, and answers the same. -/
theorem effect_eq (h : s.Undergoes key e s') (hs : Steady K root H s) (hK : Distinct K)
    (hname : ∀ r ∈ e.entry, r.name = key) (hkey : key ∈ K) (hc : c.about ∈ K)
    (hne : c.about ≠ key) (g : History) :
    c.effect s' g = c.effect s g ∧ c.answer s' g = c.answer s g := by
  have hheld := h.replica?_of_ne hs.sorted hname hne
  have hfiles : s'.log.filesAfter c.about = s.log.filesAfter c.about := by
    funext g w
    exact filesAfter_congr h.root h.fanout (h.get?_of_ne hs.path hK hkey hc hne) g w
  constructor
  · rw [Call.effect, Call.effect, hheld, hfiles]
  · cases c with
    | setRank key rank => exact congrArg (fun q => Except.ok (Option.isSome q)) hheld
    | _ => rfl

section Order

variable (h₁ : s.Undergoes a e s₁) (h₁₂ : s₁.Undergoes b e' s₁₂) (h₂ : s.Undergoes b e' s₂)
  (h₂₁ : s₂.Undergoes a e s₂₁)

include h₁ h₁₂ h₂ h₂₁

theorem entries_comm (hs : Catalog.Sorted s.catalog.entries) (hname : ∀ r ∈ e.entry, r.name = a)
    (hname' : ∀ r ∈ e'.entry, r.name = b) (hne : a ≠ b) :
    s₂₁.catalog.entries = s₁₂.catalog.entries := by
  rw [h₁₂.entries, h₁.entries, h₂₁.entries, h₂.entries]
  exact Catalog.edited_comm hs fun q hq r hr he =>
    hne ((hname r hr).symm.trans (he.symm.trans (hname' q hq)))

theorem files_comm (hes : s₂₁.catalog.entries = s₁₂.catalog.entries) (hK : Distinct K)
    (ha : a ∈ K) (hb : b ∈ K) (hne : a ≠ b) (p : Path) :
    s₂₁.disk.get? p = s₁₂.disk.get? p := by
  by_cases hp : p = s.catalog.path
  · have hf₁ := h₁.file
    have hf₂ := h₂.file
    have hf₁₂ := h₁₂.file
    have hf₂₁ := h₂₁.file
    rw [h₁.path] at hf₁₂
    rw [h₂.path] at hf₂₁
    rw [hp, hf₁₂, hf₂₁, hf₁, hf₂, hes]
    -- If only one of the calls stores entries, they are those that are there in the end.
    have hlast := h₁₂.entries
    have hlast' := h₂₁.entries
    rw [hes] at hlast'
    cases he : e.entry <;> cases he' : e'.entry
    · rfl
    · rw [he] at hlast'
      rw [hlast']
      rfl
    · rw [he'] at hlast
      rw [hlast]
      rfl
    · rfl
  · have hp₁ : p ≠ s₁.catalog.path := h₁.path ▸ hp
    have hp₂ : p ≠ s₂.catalog.path := h₂.path ▸ hp
    rw [h₁₂.files p hp₁, h₂₁.files p hp₂, h₁.files p hp, h₂.files p hp, h₁.root, h₂.root]
    exact or_left_comm (filesOver_disjoint hK ha hb hne p)

/-- Which of the two keys is touched last is not seen at any other, nor if only one is touched. -/
theorem peek_comm (hf : s.log.cache.Fits) (hne : a ≠ b)
    (hk : e.tip = none ∨ e'.tip = none ∨ k ≠ a ∧ k ≠ b) :
    s₂₁.log.cache.peek k = s₁₂.log.cache.peek k := by
  rw [Cache.peek, Cache.peek, h₁₂.slots, h₁.slots, h₂₁.slots, h₂.slots, h₁.capacity, h₂.capacity]
  cases he : e.tip with
  | none => rfl
  | some x =>
    cases he' : e'.tip with
    | none => rfl
    | some y =>
      rw [he, he'] at hk
      have hk := (hk.resolve_left (by simp)).resolve_left (by simp)
      exact Cache.lookup_touch_comm hf.nodup hf.capacity_pos hne.symm y x (.inr hk.symm)

end Order

end Undergoes

/-- The stores list the same keys and have the same files. -/
structure Alike (s s' : Store) : Prop where
  keySet : s'.keySet = s.keySet
  files : ∀ p, s'.disk.get? p = s.disk.get? p

/-- The stores answer every read of the key alike. -/
structure ReadsAlike (key : String) (s s' : Store) : Prop where
  get : (s'.get key).1 = (s.get key).1
  getAsOf : ∀ t, (s'.getAsOf key t).1 = (s.getAsOf key t).1
  getRange : ∀ first final, (s'.getRange key first final).1 = (s.getRange key first final).1

theorem readsAlike_of_log (h : Log.ReadsAlike key s.log s'.log) : ReadsAlike key s s' := by
  have h' : Log.ReadsAlike key (s.count .storeGets).log (s'.count .storeGets).log :=
    ⟨⟨h.files.root, h.files.files⟩, h.known⟩
  exact ⟨h'.fst_readLatest, h'.fst_readAsOf, h'.files.fst_readRange key⟩

theorem ReadsAlike.symm (h : ReadsAlike key s s') : ReadsAlike key s' s :=
  ⟨h.get.symm, fun t => (h.getAsOf t).symm, fun first final => (h.getRange first final).symm⟩

/-- The cache knows of the key nothing but the last tip. -/
def Current (key : String) (h : History) (s : Store) : Prop :=
  ∀ tip, s.log.cache.peek key = some tip → h.tip = some tip

/-- Stores that tell the same history of a key, and know of it nothing but the last tip, answer as
    the history does. -/
theorem Steady.readsAlike (hs : Steady K root H s) (hs' : Steady K root H s') (hkey : key ∈ K)
    (hc : Current key (H key) s) (hc' : Current key (H key) s') : ReadsAlike key s s' := by
  have hkeeps : ∀ {s}, Steady K root H s → Current key (H key) s →
      Log.Keeps {key} (s.count .storeGets).log H := fun hs hc =>
    ⟨⟨hs.tells.onDisk_root.layout, fun k hk => hk ▸ hs.tells.onDisk_root.stored key hkey⟩,
      fun k hk => hk ▸ hc⟩
  have hk := hkeeps hs hc
  have hk' := hkeeps hs' hc'
  refine ⟨?_, fun t => ?_, fun first final => ?_⟩
  · obtain ⟨log₁, hr, -⟩ := hk.readLatest rfl
    obtain ⟨log₁', hr', -⟩ := hk'.readLatest rfl
    show ((s'.count .storeGets).log.readLatest key).1 = ((s.count .storeGets).log.readLatest key).1
    rw [hr, hr']
  · obtain ⟨log₁, hr, -⟩ := hk.readAsOf rfl t
    obtain ⟨log₁', hr', -⟩ := hk'.readAsOf rfl t
    show ((s'.count .storeGets).log.readAsOf key t).1 = ((s.count .storeGets).log.readAsOf key t).1
    rw [hr, hr']
  · obtain ⟨log₁, hr, -⟩ := hk.readRange rfl first final
    obtain ⟨log₁', hr', -⟩ := hk'.readRange rfl first final
    show ((s'.count .storeGets).log.readRange key first final).1 =
      ((s.count .storeGets).log.readRange key first final).1
    rw [hr, hr']

/-- What is put in its place has the name of the key. -/
theorem name_of_effect {r : Replica} (hr : r ∈ (c.effect s h).entry) : r.name = c.about :=
  name_of_placed? hr

theorem Call.histories_of_ne (H : String → History) (hne : key ≠ c.about) :
    c.histories H key = H key :=
  Function.update_of_ne hne _ _

theorem Call.histories_comm (H : String → History) (hne : c.about ≠ d.about) :
    c.histories (d.histories H) = d.histories (c.histories H) := by
  rw [histories, histories_of_ne H hne, histories, histories.eq_def (c.histories H),
    histories_of_ne H hne.symm, histories, Function.update_comm hne]

/-- A call answers after another one, about another key, as if it came first, and makes the same of
    the store. -/
theorem Ends.exists_then (h : Ends K root H s c s₁) (hs : Steady K root H s) (hK : Distinct K)
    (hcK : c.about ∈ K) (hdK : d.about ∈ K) (hne : c.about ≠ d.about) (hd : d.Changes) :
    ∃ s₁₂, d.run s₁ = (d.answer s (H d.about), s₁₂) ∧
      s₁.Undergoes d.about (d.effect s (H d.about)) s₁₂ ∧
      Steady K root (d.histories (c.histories H)) s₁₂ := by
  obtain ⟨s₁₂, h₁₂⟩ := h.steady.exists_run hK d hdK hd
  have hsame := h.undergoes.effect_eq hs hK (fun r => name_of_effect) hcK hdK hne.symm (H d.about)
  have hrun := h₁₂.run
  have hundergoes := h₁₂.undergoes
  rw [Call.histories_of_ne H hne.symm] at hrun hundergoes
  rw [hsame.1] at hundergoes
  rw [hsame.2] at hrun
  exact ⟨s₁₂, hrun, hundergoes, h₁₂.steady⟩

/-- A key that is touched is read alike after another call and before it: what the cache knows of
    it is its last tip, if another key has not driven it out. -/
theorem Ends.readsAlike (h₁ : Ends K root H s c s₁) (hs : Steady K root H s) (hcK : c.about ∈ K)
    (hne : c.about ≠ d.about) {e : Effect} (hu₁₂ : s₁.Undergoes d.about e s₁₂)
    (hs₁₂ : Steady K root (d.histories (c.histories H)) s₁₂) (hs₂ : s₂.log.cache.Fits)
    (hu₂₁ : s₂.Undergoes c.about (c.effect s (H c.about)) s₂₁)
    (hs₂₁ : Steady K root (d.histories (c.histories H)) s₂₁)
    (hx : (c.effect s (H c.about)).tip = some x) : ReadsAlike c.about s₁₂ s₂₁ := by
  have htip : (d.histories (c.histories H) c.about).tip = some x := by
    rw [Call.histories_of_ne _ hne, Call.histories, Function.update_self]
    exact Call.tip_history hx
  refine hs₁₂.readsAlike hs₂₁ hcK (fun tip hp => ?_) fun tip hp => ?_
  · have hp₁ := hu₁₂.peek_of_ne hne hp
    rw [htip, ← hp₁, h₁.undergoes.peek_self hs.fits hx]
  · rw [htip, ← hp, hu₂₁.peek_self hs₂ hx]

/-- **Calls about different keys commute.** Each answers the same whether it comes first or second,
    and either way the store lists the same keys, has the same files in the end and answers every
    read of every key alike. The calls themselves are left alone, but anything may have failed
    before. -/
theorem calls_commute (hs : Lived K late root (.opened s)) (hK : Distinct K) (hcK : c.about ∈ K)
    (hdK : d.about ∈ K) (hne : c.about ≠ d.about) (hc : c.Changes) (hd : d.Changes) :
    (c.run (d.run s).2).1 = (c.run s).1 ∧ (d.run (c.run s).2).1 = (d.run s).1 ∧
      Alike (d.run (c.run s).2).2 (c.run (d.run s).2).2 ∧
      ∀ key, ReadsAlike key (d.run (c.run s).2).2 (c.run (d.run s).2).2 := by
  obtain ⟨H, hs⟩ := hs.steady hK
  obtain ⟨s₁, h₁⟩ := hs.exists_run hK c hcK hc
  obtain ⟨s₂, h₂⟩ := hs.exists_run hK d hdK hd
  obtain ⟨s₁₂, hrun₁₂, hu₁₂, hs₁₂⟩ := h₁.exists_then hs hK hcK hdK hne hd
  obtain ⟨s₂₁, hrun₂₁, hu₂₁, hs₂₁⟩ := h₂.exists_then hs hK hdK hcK hne.symm hc
  rw [h₁.run, h₂.run]
  dsimp only
  rw [hrun₁₂, hrun₂₁]
  have hentries := h₁.undergoes.entries_comm hu₁₂ h₂.undergoes hu₂₁ hs.sorted
    (fun r => name_of_effect) (fun r => name_of_effect) hne
  have hfiles := h₁.undergoes.files_comm hu₁₂ h₂.undergoes hu₂₁ hentries hK hcK hdK hne
  refine ⟨rfl, rfl, ⟨hentries, hfiles⟩, fun key => ?_⟩
  by_cases hkey : (c.effect s (H c.about)).tip = none ∨ (d.effect s (H d.about)).tip = none ∨
      key ≠ c.about ∧ key ≠ d.about
  · have hroot : s₂₁.log.root = s₁₂.log.root := hs₂₁.root_eq.trans hs₁₂.root_eq.symm
    exact readsAlike_of_log ⟨⟨hroot, hfiles⟩,
      h₁.undergoes.peek_comm hu₁₂ h₂.undergoes hu₂₁ hs.fits hne hkey⟩
  · -- Both keys are touched, and it is one of them that is read.
    obtain ⟨hx, hy, hkey⟩ : (c.effect s (H c.about)).tip ≠ none ∧
        (d.effect s (H d.about)).tip ≠ none ∧ (key = c.about ∨ key = d.about) := by
      simpa only [not_or, not_and_or, not_not] using hkey
    obtain ⟨x, hx⟩ := Option.ne_none_iff_exists'.1 hx
    obtain ⟨y, hy⟩ := Option.ne_none_iff_exists'.1 hy
    have hcomm := Call.histories_comm H hne
    rcases hkey with rfl | rfl
    · exact h₁.readsAlike hs hcK hne hu₁₂ hs₁₂ h₂.steady.fits hu₂₁ (hcomm ▸ hs₂₁) hx
    · exact (h₂.readsAlike hs hdK hne.symm hu₂₁ hs₂₁ h₁.steady.fits hu₁₂ (hcomm ▸ hs₁₂) hy).symm

/-- A new store whose cache has room for one key. -/
def sampleNarrow : Store :=
  { sampleStore with log := { sampleStore.log with cache := .empty 1 } }

/-- A key that is put first. -/
def sampleA : Replica := ⟨⟨"a", .ofNat 7⟩, 2⟩

/-- Another key. -/
def sampleB : Replica := ⟨⟨"b", .ofNat 9⟩, 2⟩

/-- The store after the first key was put. -/
def samplePut : Store := ((Call.put sampleA [97] 5).run sampleNarrow).2

theorem lived_samplePut : Lived {"a", "b"} true ["n"] (.opened samplePut) := by
  have hopen : openAt .empty { dataDir := ["n"], cacheCapacity := 1 } .zero =
      (.ok sampleNarrow, sampleNarrow.disk) := rfl
  have h := Plan.ends_run true (openPlan { dataDir := ["n"], cacheCapacity := 1 } .zero) .empty
  rw [run_openPlan, hopen] at h
  exact (Lived.opened (.fresh (vacant_empty _)) rfl h).run (.call (.put sampleA [97] 5)) (.inl rfl)

/-- A tombstone is written to the key at an early time, and the other key is put. -/
theorem calls_commute_samplePut :
    Lived {"a", "b"} true ["n"] (.opened samplePut) ∧ Distinct {"a", "b"} ∧
      samplePut.log.cache.capacity = 1 ∧
      ((Call.delete "a" 3).run ((Call.put sampleB [98] 3).run samplePut).2).1 =
        ((Call.delete "a" 3).run samplePut).1 ∧
      ((Call.put sampleB [98] 3).run ((Call.delete "a" 3).run samplePut).2).1 =
        ((Call.put sampleB [98] 3).run samplePut).1 ∧
      Alike ((Call.put sampleB [98] 3).run ((Call.delete "a" 3).run samplePut).2).2
        ((Call.delete "a" 3).run ((Call.put sampleB [98] 3).run samplePut).2).2 ∧
      ∀ key, ReadsAlike key
        ((Call.put sampleB [98] 3).run ((Call.delete "a" 3).run samplePut).2).2
        ((Call.delete "a" 3).run ((Call.put sampleB [98] 3).run samplePut).2).2 := by
  have hne : (Call.delete "a" 3).about ≠ (Call.put sampleB [98] 3).about := by decide
  exact ⟨lived_samplePut, distinct_sample, by decide +kernel,
    calls_commute lived_samplePut distinct_sample (.inl rfl) (.inr rfl) hne trivial trivial⟩

end ReplicaRing.Store
