import ReplicaRing.Proofs.Log.Kept
import ReplicaRing.Proofs.Ranks
import ReplicaRing.Proofs.Store.Listed

/-!
# What a store keeps when files fail

Whatever fails when a store is called, its files tell some histories still, and all ranks on its
list are such as it was given (`Store.Keeps.safe_call`).

The store of a node is asked for writes while there is room for them, with ranks of its chains
(`Store.Call.Fits`). Any access may fail meanwhile, the process may stop at any point, and the
store may be opened again (`Store.Served`). So all its ranks are those of chains
(`Store.Served.fit`), and a write that is left alone is carried out. But a key may be listed that
has no value: its listing was stored, and then the write of its value failed.
-/

namespace ReplicaRing.Store

open FileTree Log

variable {K : Set String} {late : Bool} {root p : Path} {n : Rank} {P : Rank → Prop} {s s' : Store}
  {t t' : FileTree} {log' : Log} {H H' : String → History} {key : String} {value : Bytes}
  {now : Time} {α : Type}

/-! ## Room -/

/-- There is room for a value behind the tip that the index file tells of: a time after that of
    the tip, and offsets. -/
def HasRoom (s : Store) (key : String) (value : Bytes) : Prop :=
  ∀ tip ∈ (tipAt s.disk (s.log.indexPath key)).toOption,
    (∀ t ∈ tip, t.time.toNat ≠ 2 ^ 64 - 1) ∧ (startBehind tip).toNat + value.length < 2 ^ 64

instance : Decidable (s.HasRoom key value) := inferInstanceAs (Decidable (∀ _ ∈ _, _ ∧ _))

/-- The room there is for a value is room behind its history. -/
theorem hasRoom_of_tells (ht : Tells K root s.log H) (hkey : key ∈ K)
    (hroom : s.HasRoom key value) : (H key).HasRoom value := by
  have htold : tipAt s.disk (s.log.indexPath key) = .ok (H key).tip := ht.sound.tipAt_eq hkey
  obtain ⟨hlater, hlen⟩ := hroom (H key).tip (by rw [htold]; rfl)
  rw [startBehind_tip, UInt64.toNat_ofNat_of_lt' (ht.onDisk.stored key hkey).addressable] at hlen
  refine ⟨fun l hl => ?_, hlen⟩
  obtain ⟨tip, htip, htime⟩ : ∃ tip, (H key).tip = some tip ∧ tip.time = l.time := by
    rw [History.tip, hl]
    exact ⟨_, rfl, rfl⟩
  exact htime ▸ hlater tip htip

/-- There is room for what is written, and the rank is one of a chain. -/
def Call.Fits (n : Rank) (s : Store) : Call → Prop
  | put r value _ | putReplica r value _ => ChainRank n r.rank ∧ s.HasRoom r.name value
  | delete key _ => s.HasRoom key []
  | setRank _ rank => ChainRank n rank
  | get _ => True

/-- The rank that a call gives, if any, is one of `P`. -/
def Call.RankIn (P : Rank → Prop) : Call → Prop
  | put r _ _ | putReplica r _ _ => P r.rank
  | setRank _ rank => P rank
  | delete _ _ | get _ => True

theorem Call.rankIn_true (c : Call) : c.RankIn fun _ => True := by
  cases c <;> trivial

theorem Call.Fits.rankIn {c : Call} (hc : c.Fits n s) : c.RankIn (ChainRank n) := by
  cases c with
  | put r value now => exact hc.1
  | putReplica r value now => exact hc.1
  | setRank key rank => exact hc
  | delete key now => trivial
  | get key => trivial

/-! ## Stores -/

/-- The files tell some histories, as soon as there are some. -/
def Settled (K : Set String) (root : Path) (t : FileTree) : Prop :=
  Vacant t root ∨ ∃ H, OnDisk K t root H

/-- The log tells the histories, and all ranks are of `P`. -/
structure Keeps (K : Set String) (root : Path) (P : Rank → Prop) (H : String → History)
    (s : Store) : Prop where
  tells : Tells K root s.log H
  path_eq : s.catalog.path = metaPath root
  ranks : Catalog.AllRanks P s.catalog s.disk

/-- What is left of such a store when the process stops. -/
structure Left (K : Set String) (root : Path) (P : Rank → Prop) (t : FileTree) : Prop where
  settled : Settled K root t
  ranks : Catalog.RanksOnFile P (metaPath root) t

/-- A change to the catalog touches no file of a log. -/
theorem onDisk_of_beside (hd : OnDisk K t root H) (hb : Catalog.Beside (metaPath root) t t') :
    OnDisk K t' root H := by
  have htemp : ∀ i, tempName (metaPath root) i =
      root ++ [Catalog.fileName ++ ".tmp-" ++ toString i] := Catalog.tempName_fileName root
  refine hd.frame (S := fun p => ∃ name, ¬IsFolder name ∧ p = root ++ [name]) ?_ ?_
    (fun p hp => hb.frame p ?_ fun i h => ?_) hb.dirs
  · rintro p ⟨name, hn, rfl⟩
    exact ⟨fileSpot_beside root hn, fun k folder _ => filePath_ne_beside root k folder name⟩
  · rintro p ⟨name, -, rfl⟩ -
    exact hd.layout.rooted_beside name
  · rintro rfl
    exact hp ⟨_, Catalog.not_isFolder_fileName, rfl⟩
  · exact hp ⟨_, Catalog.not_isFolder_tempName i, h.trans (htemp i)⟩

namespace Keeps

variable (hk : Keeps K root P H s)

include hk

theorem left : Left K root P s.disk :=
  ⟨.inr ⟨H, hk.tells.onDisk⟩, hk.path_eq ▸ hk.ranks.file⟩

theorem count (m : Metric) : Keeps K root P H (s.count m) :=
  ⟨hk.tells.untouched ⟨rfl, rfl, fun _ => rfl⟩, hk.path_eq, hk.ranks⟩

/-- The log may do what it does in its own files. -/
theorem onLog (ht : Tells K root log' H')
    (hg : log'.disk.get? (metaPath root) = s.disk.get? (metaPath root)) :
    Keeps K root P H' { s with log := log' } :=
  ⟨ht, hk.path_eq, hk.ranks.sorted, hk.ranks.memory,
    hk.ranks.file.congr (by rw [hk.path_eq]; exact hg)⟩

theorem untouched (h : Untouched s.log log') : Keeps K root P H { s with log := log' } :=
  hk.onLog (hk.tells.untouched h) (by rw [h.disk]; rfl)

/-- What belongs to a key is not the file of the catalog. -/
theorem onTouched (ht : Tells K root log' H') (h : Touches key s.log log') :
    Keeps K root P H' { s with log := log' } :=
  hk.onLog ht (h.frame _ (hk.tells.root_eq ▸ not_territory_metaPath _ key))

theorem hasRoom (hkey : key ∈ K) (hroom : s.HasRoom key value) : (H key).HasRoom value :=
  hasRoom_of_tells hk.tells hkey hroom

/-! ## Calls -/

/-- Changing the catalog leaves the histories as they are. -/
theorem safe_catalog {change : Catalog → Plan FileTree (Except StorageError α × Catalog)}
    (h : Plan.Safe late (Catalog.RanksPass P s.catalog s.disk)
      (fun r t' => Catalog.RanksStay P s.catalog s.disk r.2 t') (change s.catalog)
      s.disk) :
    Plan.Safe late (fun s' => Left K root P s'.disk) (fun _ s' => Keeps K root P H s')
      (catalogPlan change) s := by
  have hbeside : ∀ {t'}, Catalog.Beside s.catalog.path s.disk t' → OnDisk K t' root H :=
    fun hb => onDisk_of_beside hk.tells.onDisk (hk.path_eq ▸ hb)
  refine (safe_catalogPlan h).mono (fun s' hp => ?_) ?_
  · exact ⟨.inr ⟨H, hbeside hp.beside⟩, hk.path_eq ▸ hp.file⟩
  · rintro a s' ⟨hs, hs'⟩
    refine ⟨?_, hs.path.trans hk.path_eq, hs.ranks⟩
    rw [hs']
    exact hk.tells.onto (hbeside hs.beside)

/-- Accesses to the log that touch only what belongs to a key leave such a store, if the log tells
    some histories. -/
theorem safe_within {p : Plan Log α}
    (ht : Plan.Safe late (Telling K root) (fun _ => Telling K root) p s.log)
    (hg : Plan.Safe late (Touches key s.log) (fun _ => Touches key s.log) p s.log) :
    Plan.Safe late (fun s' => Left K root P s'.disk) (fun _ s' => ∃ H', Keeps K root P H' s')
      (p.within logFocus) s := by
  refine (Plan.safe_within logFocus (ht.and hg)).mono ?_ ?_
  · rintro _ ⟨log', ⟨⟨H', ht'⟩, hg'⟩, rfl⟩
    exact (hk.onTouched ht' hg').left
  · rintro r _ ⟨log', ⟨⟨H', ht'⟩, hg'⟩, rfl⟩
    exact ⟨H', hk.onTouched ht' hg'⟩

/-- A value is appended, or part of it. -/
theorem safe_appendNow (hK : Distinct K) (hkey : key ∈ K) (value : Bytes) (now : Time) :
    Plan.Safe late (fun s' => Left K root P s'.disk) (fun _ s' => ∃ H', Keeps K root P H' s')
      ((appendNowPlan key value now).within logFocus) s :=
  hk.safe_within (hk.tells.safe_appendNow_telling hK hkey value now)
    ((safe_appendNowPlan s.log key value now).mono (fun _ h => h.touches)
      fun _ _ h => h.grown.touches)

/-- A change to the catalog and the write of a value leave a store that keeps histories. -/
theorem safe_write {change : Catalog → Plan FileTree (Except StorageError α × Catalog)}
    (hK : Distinct K) (hkey : key ∈ K)
    (h : Plan.Safe late (Catalog.RanksPass P s.catalog s.disk)
      (fun r t' => Catalog.RanksStay P s.catalog s.disk r.2 t') (change s.catalog) s.disk)
    (value : Bytes) (now : Time) :
    Plan.Safe late (fun s' => Left K root P s'.disk) (fun _ s' => ∃ H', Keeps K root P H' s')
      (writePlan change key value now) s := by
  refine (hk.safe_catalog h).bind fun r s₁ h₁ hl => ?_
  cases r with
  | error e => exact Plan.safe_pure hl ⟨H, h₁⟩
  | ok a =>
    refine (h₁.safe_appendNow hK hkey value now).bind fun r s₂ h₂ hl => ?_
    obtain ⟨H', h₂⟩ := h₂
    cases r with
    | error e => exact Plan.safe_pure hl ⟨H', h₂⟩
    | ok tip => exact Plan.safe_act_bind hl (Plan.safe_pure hl ⟨H', h₂.count _⟩)

theorem safe_delete (hK : Distinct K) (hkey : key ∈ K) (now : Time) :
    Plan.Safe late (fun s' => Left K root P s'.disk) (fun _ s' => ∃ H', Keeps K root P H' s')
      (deletePlan key now) s := by
  have htip : Plan.Safe late (fun s' => Left K root P s'.disk)
      (fun _ s' => ∃ H', Keeps K root P H' s') ((publishedTipPlan key).within logFocus) s :=
    hk.safe_within ((hk.tells.safe_publishedTip hkey).mono (fun _ h => ⟨H, h⟩)
        fun _ _ h => ⟨H, h.1⟩)
      ((safe_publishedTipPlan s.log key).mono (fun _ h => h.touches) fun _ _ h => h.1.touches)
  rw [deletePlan]
  refine htip.bind fun r s₁ h₁ hl => ?_
  obtain ⟨H₁, h₁⟩ := h₁
  rcases r with e | _ | tip
  · exact Plan.safe_pure hl ⟨H₁, h₁⟩
  · exact Plan.safe_pure hl ⟨H₁, h₁⟩
  · refine (h₁.safe_appendNow hK hkey [] now).bind fun r s₂ h₂ hl => ?_
    obtain ⟨H', h₂⟩ := h₂
    cases r with
    | error e => exact Plan.safe_pure hl ⟨H', h₂⟩
    | ok tip => exact Plan.safe_act_bind hl (Plan.safe_pure hl ⟨H', h₂.count _⟩)

/-- What only looks at the log changes neither histories nor ranks. -/
theorem safe_look {p : Plan Log α} (hp : p.Preserves (Looked (s.count .storeGets).log)) :
    Plan.Safe late (fun s' => Left K root P s'.disk) (fun _ s' => ∃ H', Keeps K root P H' s')
      (do Plan.touch (·.count .storeGets); p.within logFocus) s := by
  have hk' := hk.count .storeGets
  refine Plan.safe_act_bind hk.left ?_
  refine (Plan.safe_within logFocus (hp.safe (.refl _))).mono ?_ ?_
  · rintro _ ⟨log', h, rfl⟩
    exact (hk'.untouched h.toUntouched).left
  · rintro r _ ⟨log', h, rfl⟩
    exact ⟨H, hk'.untouched h.toUntouched⟩

theorem path_ne_nil : s.catalog.path ≠ [] := by
  rw [hk.path_eq, metaPath]
  simp

theorem safe_call (hK : Distinct K) (c : Call) (hkey : c.about ∈ K) (hc : c.RankIn P) :
    Plan.Safe late (fun s' => Left K root P s'.disk) (fun _ s' => ∃ H', Keeps K root P H' s')
      c.plan s := by
  cases c with
  | put r value now =>
    exact hk.safe_write hK hkey (hk.ranks.safe_insert hk.path_ne_nil hc) value now
  | putReplica r value now =>
    exact hk.safe_write hK hkey (hk.ranks.safe_upsert hk.path_ne_nil hc) value now
  | delete key now => exact hk.safe_delete hK hkey now
  | setRank key rank =>
    exact (hk.safe_catalog (hk.ranks.safe_setRank hk.path_ne_nil key hc)).mono (fun _ => id)
      fun _ _ h => ⟨H, h⟩
  | get key => exact hk.safe_look (preserves_readLatestPlan (fun _ _ h h₀ => h₀.trans h) key)

end Keeps

/-! ## Opening -/

theorem Settled.makes (h : Settled K root t) (hp : DirSpot root p) (hm : t.Makes p t') :
    Settled K root t' := by
  rcases h with hv | ⟨H, hd⟩
  swap
  · exact .inr ⟨H, hd.makes hp hm⟩
  rcases hp with hp | ⟨folder, hf, hp, hlen⟩
  · by_cases hpr : p = root
    · exact .inr ⟨_, hv.onDisk (hpr ▸ hm)⟩
    · refine .inl ⟨fun q hq bs hg => ?_, fun q hq hne => ?_⟩
      · rw [hm q] at hg
        split at hg
        · cases hg
        · exact hv.clear q hq bs hg
      · rw [hm.get?_of_not_above fun h => hpr (hp.eq_of_length_le ?_), hv.vacant q hq hne]
        exact hq.length_le.trans h.length_le
  · -- The root might have been made first.
    obtain ⟨t₀, -, hm₀⟩ := exists_makeDirs hv.clear
    have hroot : root <+: p := (List.prefix_append root [folder]).trans hp
    have hm' : t₀.Makes p t' := fun q => by
      rw [hm q]
      split
      · rfl
      · rename_i hq
        rw [hm₀.get?_of_not_above fun h => hq (h.trans hroot)]
    exact .inr ⟨_, (hv.onDisk hm₀).makes (.inr ⟨folder, hf, hp, hlen⟩) hm'⟩

/-- Making the directories of a store leaves its files as they are. -/
theorem Left.attempt {st : FileTree.Step} {res : Except StepError Unit} (hl : Left K root P t)
    (hs : st ∈ folders root) (hg : (attempt st).Gives late t res t') : Left K root P t' := by
  have hfile := FileTree.Step.get?_of_gives hg (not_touches_of_folders hs (fileSpot_metaPath root))
  refine ⟨?_, hl.ranks.congr hfile⟩
  obtain ⟨p, rfl, hp⟩ := exists_of_folders hs
  rcases makes_of_gives hg with rfl | ⟨j, hm⟩
  · exact hl.settled
  · exact hl.settled.makes (hp.upward (List.take_prefix j p)) hm

/-- When the directories of a store are there, its files tell some histories. -/
theorem Settled.exists_onDisk (h : Settled K root t) (hd : t.get? (root ++ ["index"]) = some .dir) :
    ∃ H, OnDisk K t root H := by
  refine h.resolve_left fun hv => ?_
  rw [hv.vacant _ (List.prefix_append _ _) (by simp)] at hd
  cases hd

/-- A store that is opened keeps what is left, and its cache knows nothing. -/
theorem Left.safe_openPlan {options : StoreOptions} (ho : options.dataDir = root) (tally : Tally)
    (hl : Left K root P t) :
    Plan.Safe late (Left K root P) (fun r _ => ∀ s, r = .ok s →
        s.log.cache = .empty options.cacheCapacity ∧ ∃ H, Keeps K root P H s)
      (openPlan options tally) t := by
  subst ho
  rw [openPlan]
  refine (((safe_attemptAll hl fun st hs t₁ res t₂ h₁ hg => h₁.attempt hs hg).and
    (safe_attemptAll_run t _)).mono (fun _ => And.left) fun _ _ => id).bind fun res t₁ ht₁ hl₁ => ?_
  obtain ⟨-, hrun⟩ := ht₁
  cases res with
  | error e => exact Plan.safe_pure hl₁ (by simp)
  | ok u =>
    refine ((Catalog.safe_loadPlan (metaPath options.dataDir) t₁).mono (fun _ ht => ht ▸ hl₁)
      fun _ _ => id).bind fun res t₂ hload _ => ?_
    obtain ⟨rfl, hload⟩ := hload
    cases res with
    | error e => exact Plan.safe_pure hl₁ (by simp)
    | ok c =>
      have hdirs : ∀ r, r <+: options.dataDir ++ ["index"] → t₂.get? r = some .dir := fun r =>
        dir_of_folders (hrun rfl)
      obtain ⟨H, hd⟩ := hl₁.settled.exists_onDisk (hdirs _ (List.prefix_refl _))
      obtain ⟨es, hs, hf, hes⟩ := hl₁.ranks
      obtain rfl : c = ⟨metaPath options.dataDir, es⟩ := by
        rcases hload with hload | ⟨e, hload⟩
        · exact eq_of_load hs hf (fun r hr => hdirs r (hr.trans (List.prefix_append _ _)))
            hload.symm
        · cases hload
      refine Plan.safe_ask_bind (Plan.safe_pure hl₁ fun s h => ?_)
      cases h
      exact ⟨rfl, H, ⟨rfl, hd, fun _ _ _ h => by cases h⟩, rfl, hs, hes, es, hs, hf, hes⟩

/-! ## Runs -/

/-- What can come to be of the store of a node, in the directory `root`, in a ring with `n` copies
    of each key. -/
inductive Served (K : Set String) (late : Bool) (root : Path) (n : Rank) : Phase → Prop
  /-- There is nothing yet. -/
  | fresh {t : FileTree} (hv : Vacant t root) : Served K late root n (.closed t)
  /-- The store is opened, with any settings. -/
  | opened {t t' : FileTree} {s : Store} {options : StoreOptions} {tally : Tally}
      (hs : Served K late root n (.closed t)) (ho : options.dataDir = root)
      (h : Plan.Ends late (openPlan options tally) t (.ok s) t') :
      Served K late root n (.opened s)
  /-- It cannot be opened, or the process stops in the middle of that. -/
  | unopened {t t' : FileTree} {options : StoreOptions} {tally : Tally}
      (hs : Served K late root n (.closed t)) (ho : options.dataDir = root)
      (h : Plan.Stops late (openPlan options tally) t t') : Served K late root n (.closed t')
  /-- A call is made, and anything may fail. -/
  | call {s s' : Store} (c : Call) (hkey : c.about ∈ K) (hc : c.Fits n s)
      {a : Except StorageError c.Answer} (hs : Served K late root n (.opened s))
      (h : Plan.Ends late c.plan s a s') : Served K late root n (.opened s')
  /-- Something is read or counted. -/
  | read {s : Store} {log' : Log} (hs : Served K late root n (.opened s))
      (h : Untouched s.log log') : Served K late root n (.opened { s with log := log' })
  /-- The process stops in the middle of a call. -/
  | stopped {s s' : Store} (c : Call) (hkey : c.about ∈ K) (hc : c.Fits n s)
      (hs : Served K late root n (.opened s)) (h : Plan.Stops late c.plan s s') :
      Served K late root n (.closed s'.disk)

/-- The store lists every key with an index file, it keeps histories, and all ranks are those of
    chains. -/
def Phase.Fit (K : Set String) (late : Bool) (root : Path) (n : Rank) : Phase → Prop
  | closed t => Recoverable K root t ∧ Left K root (ChainRank n) t
  | opened s => Lists K late root s ∧ ∃ H, Keeps K root (ChainRank n) H s

theorem left_of_vacant (hv : Vacant t root) : Left K root P t := by
  have hl : Shelved K root t [] := shelved_of_vacant hv
  exact ⟨.inl hv, [], .nil, hl.filed, by simp⟩

/-- Whatever is done and whatever fails, the store stays so. -/
theorem Served.fit {p : Phase} (hs : Served K late root n p) (hK : Distinct K) :
    p.Fit K late root n := by
  induction hs with
  | fresh hv => exact ⟨⟨[], shelved_of_vacant hv⟩, left_of_vacant hv⟩
  | opened _ ho h ih =>
    obtain ⟨⟨es, hs⟩, hl⟩ := ih
    exact ⟨((safe_openPlan ho _ hs).ends _ _ h _ rfl).1,
      ((hl.safe_openPlan ho _).ends _ _ h _ rfl).2⟩
  | unopened _ ho h ih =>
    obtain ⟨⟨es, hs⟩, hl⟩ := ih
    exact ⟨(safe_openPlan ho _ hs).stops _ h, (hl.safe_openPlan ho _).stops _ h⟩
  | call c hkey hc _ h ih =>
    obtain ⟨hl, H, hk⟩ := ih
    exact ⟨(hl.safe_call hK c hkey).ends _ _ h, (hk.safe_call hK c hkey hc.rankIn).ends _ _ h⟩
  | read _ h ih =>
    obtain ⟨hl, H, hk⟩ := ih
    exact ⟨hl.untouched h, H, hk.untouched h⟩
  | stopped c hkey hc _ h ih =>
    obtain ⟨hl, H, hk⟩ := ih
    exact ⟨(hl.safe_call hK c hkey).stops _ h, (hk.safe_call hK c hkey hc.rankIn).stops _ h⟩

/-- A replica is listed, and then the write of its value fails. -/
def listedOnly (s : Store) (r : Replica) : Store :=
  let s := (s.ofCatalog (s.catalog.upsert s.disk r)).2
  { s with log := s.log.enter "index_read" }

/-- A store may be left with a replica that is listed only. -/
theorem Served.listedOnly {r : Replica} {previous : Option Rank}
    (hs : Served K late root n (.opened s)) (hkey : r.name ∈ K)
    (hc : (Call.putReplica r value now).Fits n s)
    (hup : (s.catalog.upsert s.disk r).1 = .ok previous) :
    Served K late root n (.opened (s.listedOnly r)) := by
  set s₁ := (s.ofCatalog (s.catalog.upsert s.disk r)).2 with hs₁
  have hlist : Plan.Ends late (catalogPlan (·.upsertPlan r)) s (.ok previous) s₁ := by
    have h := Plan.ends_run late (catalogPlan (·.upsertPlan r)) s
    rw [run_catalogPlan (Catalog.run_upsertPlan s.catalog r s.disk), ← hs₁] at h
    rwa [← hup]
  -- The end of the index file cannot be read.
  have hfail : Plan.Ends late (appendListedPlan r.name value now) s₁ (.error (.io .shortRead))
      { s₁ with log := s₁.log.enter "index_read" } :=
    .next (.inr ⟨_, ⟨⟨_, rfl⟩, rfl⟩, rfl⟩) .done
  exact .call (.putReplica r value now) hkey hc hs (hlist.bind hfail)

end ReplicaRing.Store
