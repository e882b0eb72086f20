import ReplicaRing.Proofs.Cache
import ReplicaRing.Proofs.Catalog
import ReplicaRing.Proofs.Log.Plan

/-!
# What a log touches when files fail

Nothing is asked here of the files that a log finds; whatever they hold, and whatever fails:

* a read leaves the files as they are, and no key gets a tip in the cache (`Log.Looked`,
  `Log.safe_readLatestPlan`);
* a write to a key touches only what belongs to the key (`Log.Territory`), and its index file is
  the old one or the old one with one more record (`Log.safe_appendNowPlan`);
* the cache has one slot for each key that it knows (`Log.Fits`).
-/

namespace ReplicaRing.Log

open FileTree

variable {late : Bool} {log log' log'' log₁ : Log} {key : String} {root r : Path} {ε α : Type}

/-! ## Territories -/

/-- The path belongs to the files of the key, their temporary files or the directories above. -/
inductive Territory (root : Path) (key : String) (r : Path) : Prop
  | dataFolder (h : r <+: folderOf (filePath root key "data"))
  | indexFolder (h : r <+: folderOf (filePath root key "index"))
  | data (h : r = filePath root key "data")
  | index (h : r = filePath root key "index")
  | temp (i : Nat) (h : r = tempName (filePath root key "index") i)

theorem not_prefix_folderOf_data (root : Path) (key key' folder : String) :
    ¬filePath root key folder <+: folderOf (filePath root key' "data") :=
  (dirSpot_folderOf root key' (.inl rfl)).not_above (fileSpot_filePath root key folder)

theorem not_prefix_folderOf_index (root : Path) (key key' folder : String) :
    ¬filePath root key folder <+: folderOf (filePath root key' "index") :=
  (dirSpot_folderOf root key' (.inr rfl)).not_above (fileSpot_filePath root key folder)

/-- Keys with different digests have nothing but directories in common. -/
theorem not_territory {K : Set String} {k folder : String} (hK : Distinct K) (hk : k ∈ K)
    (hkey : key ∈ K) (hne : k ≠ key) (hf : IsFolder folder) :
    ¬Territory root key (filePath root k folder) := by
  rintro (h | h | h | h | ⟨i, h⟩)
  · exact not_prefix_folderOf_data root k key folder h
  · exact not_prefix_folderOf_index root k key folder h
  · exact hK.filePath_ne hk hkey hne root folder "data" h
  · exact hK.filePath_ne hk hkey hne root folder "index" h
  · exact tempName_ne_filePath root key k i hf h.symm

/-- What lies right below the root, under no name of a folder, belongs to no key. -/
theorem not_territory_beside {name : String} (hn : ¬IsFolder name) :
    ¬Territory root key (root ++ [name]) := by
  have hlen : (tempName (filePath root key "index") 0).length = root.length + 4 := by
    rw [tempName_filePath, List.length_append, folderOf, List.length_dropLast, length_filePath]
    rfl
  rintro (h | h | h | h | ⟨i, h⟩)
  · exact (dirSpot_folderOf root key (.inl rfl)).not_above (fileSpot_beside root hn) h
  · exact (dirSpot_folderOf root key (.inr rfl)).not_above (fileSpot_beside root hn) h
  · exact filePath_ne_beside root key "data" name h.symm
  · exact filePath_ne_beside root key "index" name h.symm
  · have := congrArg List.length h
    rw [tempName_filePath, List.length_append, List.length_append, folderOf, List.length_dropLast,
      length_filePath] at this
    simp at this

/-! ## What is touched -/

/-- The files are the same, and so are the keys with a tip in the cache. -/
structure Untouched (log log' : Log) : Prop where
  root : log'.root = log.root
  disk : log'.disk = log.disk
  cache : ∀ k, log'.cache.peek k = log.cache.peek k

/-- Nothing differs but what belongs to the key. -/
structure Touches (key : String) (log log' : Log) : Prop where
  root : log'.root = log.root
  frame : ∀ r, ¬Territory log.root key r → log'.disk.get? r = log.disk.get? r
  cache : ∀ k, k ≠ key → log'.cache.peek k ≠ none → log.cache.peek k ≠ none

theorem Untouched.refl (log : Log) : Untouched log log := ⟨rfl, rfl, fun _ => rfl⟩

theorem Untouched.enter (phase : String) : Untouched log (log.enter phase) := ⟨rfl, rfl, fun _ => rfl⟩

theorem Untouched.trans (h : Untouched log log') (h' : Untouched log' log'') :
    Untouched log log'' :=
  ⟨h'.root.trans h.root, h'.disk.trans h.disk, fun k => (h'.cache k).trans (h.cache k)⟩

theorem Untouched.touches (h : Untouched log log') (key : String) : Touches key log log' :=
  ⟨h.root, fun _ _ => by rw [h.disk], fun k _ => by rw [h.cache]; exact id⟩

theorem Touches.trans (h : Touches key log log') (h' : Touches key log' log'') :
    Touches key log log'' where
  root := h'.root.trans h.root
  frame r hr := (h'.frame r (h.root ▸ hr)).trans (h.frame r hr)
  cache k hk hp := h.cache k hk (h'.cache k hk hp)

theorem Touches.publish (key : String) (tip : Index.Tip) (log : Log) :
    Touches key log { log with cache := log.cache.publish key tip } where
  root := rfl
  frame _ _ := rfl
  cache k hk hp := by
    obtain ⟨tip', hp⟩ := Option.ne_none_iff_exists'.1 hp
    rcases Cache.of_peek_publish hp with ⟨-, h⟩ | ⟨rfl, -⟩
    · rw [h]
      nofun
    · exact absurd rfl hk

/-! ## Reads -/

theorem gives_tipAccess {res : Except StorageError (Option Index.Tip)}
    (h : (tipAccess key).Gives late log res log') : log' = log.enter "index_read" ∧
      (res = tipAt log.disk (log.indexPath key) ∨ ∃ e, res = .error e) := by
  rcases h with h | ⟨⟨e, rfl⟩, rfl⟩
  · obtain ⟨rfl, rfl⟩ := Prod.mk.inj h
    exact ⟨rfl, .inl rfl⟩
  · exact ⟨rfl, .inr ⟨_, rfl⟩⟩

/-- The log was looked at: the files are the same, and the cache has the same tips, in whatever
    order. -/
structure Looked (log log' : Log) : Prop extends Untouched log log' where
  fits : log.cache.Fits → log'.cache.Fits

theorem Looked.refl (log : Log) : Looked log log := ⟨.refl log, id⟩

theorem Looked.enter (phase : String) : Looked log (log.enter phase) := ⟨.enter phase, id⟩

theorem Looked.trans (h : Looked log log') (h' : Looked log' log'') : Looked log log'' :=
  ⟨h.toUntouched.trans h'.toUntouched, fun hf => h'.fits (h.fits hf)⟩

theorem looked_cached (log : Log) (key : String) : Looked log (log.cached key).2 where
  root := rfl
  disk := rfl
  cache k := Cache.peek_get log.cache key k
  fits hf := hf.get key

theorem looked_of_tipAccess {res : Except StorageError (Option Index.Tip)}
    (h : (tipAccess key).Gives late log res log') : Looked log log' :=
  (gives_tipAccess h).1 ▸ .enter _

theorem looked_of_indexAccess {res : Except StorageError (Option Index)}
    (h : (indexAccess key).Gives late log res log') : Looked log log' := by
  rcases h with h | ⟨-, rfl⟩
  · obtain ⟨-, rfl⟩ := Prod.mk.inj h
    exact .enter _
  · exact .enter _

theorem looked_of_openAccess {res : Except StorageError Unit}
    (h : (openAccess key).Gives late log res log') : Looked log log' := by
  rcases h with h | ⟨-, rfl⟩
  · simp only [openAccess] at h
    split at h <;> exact (Prod.mk.inj h).2 ▸ .enter _
  · exact .enter _

theorem looked_of_spanAccess {span : Index.Span} {res : Except StorageError Bytes}
    (h : (spanAccess key span).Gives late log res log') : Looked log log' := by
  rcases h with h | ⟨-, rfl⟩
  · simp only [spanAccess] at h
    split at h <;> exact (Prod.mk.inj h).2 ▸ .refl log
  · exact .refl _

theorem looked_of_baseAccess {path : Path} {hasTip : Bool} {res : Except IoError Bytes}
    (h : (baseAccess path hasTip).Gives late log res log') : Looked log log' := by
  rcases h with h | ⟨-, rfl⟩
  · obtain ⟨-, rfl⟩ := Prod.mk.inj h
    exact .refl _
  · exact .refl _

section Looks

/-! What does not go by what was looked at is preserved by every read. -/

variable {I : Log → Prop} (hI : ∀ log log', Looked log log' → I log → I log')

include hI

theorem preserves_look {x : Access Log α}
    (hx : ∀ late log a log', x.Gives late log a log' → Looked log log') :
    (Plan.access x).Preserves I :=
  Plan.preserves_access fun late log a log' h hg => hI log log' (hx late log a log' hg) h

theorem preserves_cached (key : String) : (Plan.act fun log => log.cached key).Preserves I :=
  Plan.preserves_act fun log => hI _ _ (looked_cached log key)

theorem preserves_spanPlan (key : String) (span : Index.Span) :
    (spanPlan key span).Preserves I := by
  rw [spanPlan]
  split
  · exact Plan.preserves_pure _
  · exact preserves_look hI fun _ _ _ _ => looked_of_spanAccess

theorem preserves_valuesInPlan (key : String) (spans : List Index.Span) :
    (valuesInPlan key spans).Preserves I := by
  induction spans with
  | nil => exact Plan.preserves_pure _
  | cons span spans ih =>
    rw [valuesInPlan]
    refine (preserves_spanPlan hI key span).bind fun r => ?_
    cases r with
    | error e => exact Plan.preserves_pure _
    | ok v => exact ih.bind fun _ => Plan.preserves_pure _

theorem preserves_valuesAtPlan (key : String) (spans : List Index.Span) :
    (valuesAtPlan key spans).Preserves I := by
  rw [valuesAtPlan]
  split
  · exact Plan.preserves_pure _
  · refine (preserves_look hI fun _ _ _ _ => looked_of_openAccess).bind fun r => ?_
    cases r with
    | error e => exact Plan.preserves_pure _
    | ok u => exact preserves_valuesInPlan hI key spans

theorem preserves_valueAt?Plan (key : String) (span : Option Index.Span) :
    (valueAt?Plan key span).Preserves I := by
  cases span with
  | none => exact Plan.preserves_pure _
  | some span =>
    exact (preserves_valuesAtPlan hI key [span]).bind fun _ => Plan.preserves_pure _

theorem preserves_readLatestPlan (key : String) : (readLatestPlan key).Preserves I := by
  have htip : (latestTipPlan key).Preserves I := by
    refine (preserves_cached hI key).bind fun tip => ?_
    cases tip with
    | none => exact preserves_look hI fun _ _ _ _ => looked_of_tipAccess
    | some tip => exact Plan.preserves_pure _
  refine htip.bind fun r => ?_
  cases r with
  | error e => exact Plan.preserves_pure _
  | ok tip => exact preserves_valueAt?Plan hI key _

theorem preserves_readAsOfPlan (key : String) (t : Time) : (readAsOfPlan key t).Preserves I := by
  have hindex : (readAsOfIndexPlan key t).Preserves I := by
    refine (preserves_look hI fun _ _ _ _ => looked_of_indexAccess).bind fun r => ?_
    cases r with
    | error e => exact Plan.preserves_pure _
    | ok x => exact preserves_valueAt?Plan hI key _
  refine (preserves_cached hI key).bind fun tip => ?_
  cases tip with
  | none => exact hindex
  | some tip =>
    dsimp only
    split
    · exact preserves_valueAt?Plan hI key _
    · exact hindex

theorem preserves_readRangePlan (key : String) (first final : Time) :
    (readRangePlan key first final).Preserves I := by
  refine (preserves_look hI fun _ _ _ _ => looked_of_indexAccess).bind fun r => ?_
  rcases r with e | - | x
  · exact Plan.preserves_pure _
  · exact Plan.preserves_pure _
  · exact preserves_valuesAtPlan hI key _

end Looks

theorem safe_valueAt?Plan (h : Untouched log log₁) (span : Option Index.Span) :
    Plan.Safe late (Untouched log) (fun _ => Untouched log) (valueAt?Plan key span) log₁ :=
  (preserves_valueAt?Plan (fun _ _ h h₀ => h₀.trans h.toUntouched) key span).safe h

/-- A read finds a value only if the key has a tip, in the cache or in its index file. -/
theorem safe_readLatestPlan (log : Log) (key : String) :
    Plan.Safe late (Untouched log) (fun r log' => Untouched log log' ∧
        ∀ v, r = .ok (some v) → log.cache.peek key ≠ none ∨
          ∃ tip, tipAt log.disk (log.indexPath key) = .ok (some tip)) (readLatestPlan key) log := by
  -- The tip is looked for in the cache and then in the file; without one no value is read.
  have htip : Plan.Safe late (Untouched log) (fun r log' => Untouched log log' ∧
      ∀ tip, r = .ok (some tip) → log.cache.peek key ≠ none ∨
        tipAt log.disk (log.indexPath key) = .ok (some tip)) (latestTipPlan key) log := by
    rw [latestTipPlan]
    have h₁ := (looked_cached log key).toUntouched
    refine Plan.safe_act_bind (.refl log) ?_
    have hpeek : (log.cached key).1 = log.cache.peek key := Cache.fst_get log.cache key
    rw [hpeek]
    cases hp : log.cache.peek key with
    | some tip => exact Plan.safe_pure h₁ ⟨h₁, fun _ _ => .inl (by simp)⟩
    | none =>
      refine Plan.safe_access h₁ fun res log₂ hx => ?_
      obtain ⟨rfl, hres⟩ := gives_tipAccess hx
      have h₂ := h₁.trans (.enter "index_read")
      refine ⟨h₂, h₂, ?_⟩
      rintro tip rfl
      rcases hres with h | ⟨e, h⟩
      · exact .inr h.symm
      · cases h
  rw [readLatestPlan]
  refine htip.bind fun res log₁ h₁ _ => ?_
  cases res with
  | error e => exact Plan.safe_pure h₁.1 ⟨h₁.1, by simp⟩
  | ok tip =>
    cases tip with
    | none => exact Plan.safe_pure h₁.1 ⟨h₁.1, by simp⟩
    | some tip =>
      refine (safe_valueAt?Plan h₁.1 _).mono (fun _ => id) fun r log' h => ⟨h, fun v _ => ?_⟩
      exact (h₁.2 tip rfl).imp_right fun h => ⟨tip, h⟩

/-- The files are the same, and the key gets a tip in the cache only if it has one in its index
    file. -/
structure Consulted (key : String) (log log' : Log) : Prop where
  touches : Touches key log log'
  disk : log'.disk = log.disk
  cache : log'.cache.peek key ≠ none →
    log.cache.peek key ≠ none ∨ ∃ tip, tipAt log.disk (log.indexPath key) = .ok (some tip)

theorem Untouched.consulted (h : Untouched log log') (key : String) : Consulted key log log' :=
  ⟨h.touches key, h.disk, fun hp => .inl (h.cache key ▸ hp)⟩

/-- The tip that is published is the one in the index file. -/
theorem safe_publishedTipPlan (log : Log) (key : String) :
    Plan.Safe late (Consulted key log) (fun r log' => Consulted key log log' ∧
        ∀ tip, r = .ok tip → tipAt log.disk (log.indexPath key) = .ok tip)
      (publishedTipPlan key) log := by
  rw [publishedTipPlan]
  refine Plan.safe_access_bind ((Untouched.refl log).consulted key) fun res log₁ hx => ?_
  obtain ⟨rfl, hres⟩ := gives_tipAccess hx
  have h₁ : Consulted key log (log.enter "index_read") := (Untouched.enter _).consulted key
  have htip : ∀ tip, res = .ok tip → tipAt log.disk (log.indexPath key) = .ok tip := by
    rintro tip rfl
    rcases hres with h | ⟨e, h⟩
    · exact h.symm
    · cases h
  split
  · rename_i tip
    have h₂ : Consulted key log { log.enter "index_read" with
        cache := (log.enter "index_read").cache.publish key tip } :=
      ⟨h₁.touches.trans (.publish key tip _), rfl, fun _ => .inr ⟨tip, htip _ rfl⟩⟩
    exact Plan.safe_act_bind h₁ (Plan.safe_pure h₂ ⟨h₂, htip⟩)
  · exact Plan.safe_pure h₁ ⟨h₁, htip⟩

/-! ## Writes -/

/-- What is touched belongs to the key, and its index file is as before. -/
structure Unindexed (key : String) (log log' : Log) : Prop where
  touches : Touches key log log'
  index : log'.disk.get? (log.indexPath key) = log.disk.get? (log.indexPath key)

/-- What is touched belongs to the key, and its index file is as before or one of `P`. -/
structure Grown (key : String) (P : Bytes → Prop) (log log' : Log) : Prop where
  touches : Touches key log log'
  index : log'.disk.get? (log.indexPath key) = log.disk.get? (log.indexPath key) ∨
    ∃ bs, P bs ∧ log'.disk.get? (log.indexPath key) = some (.file bs)

/-- So it is, and if all went well its index file is one of `P`. -/
structure Written (key : String) (P : Bytes → Prop) (log : Log) (r : Except ε α)
    (log' : Log) : Prop where
  grown : Grown key P log log'
  done : ∀ a, r = .ok a → ∃ bs, P bs ∧ log'.disk.get? (log.indexPath key) = some (.file bs)

variable {P P' : Bytes → Prop}

theorem Unindexed.grown (h : Unindexed key log log') : Grown key P log log' :=
  ⟨h.touches, .inl h.index⟩

theorem Unindexed.then_grown (h : Unindexed key log log') (h' : Grown key P log' log'') :
    Grown key P log log'' := by
  refine ⟨h.touches.trans h'.touches, ?_⟩
  have := h'.index
  rw [indexPath, h.touches.root] at this
  exact this.imp_left fun e => e.trans h.index

theorem Grown.then_unindexed (h : Grown key P log log') (h' : Unindexed key log' log'') :
    Grown key P log log'' := by
  refine ⟨h.touches.trans h'.touches, ?_⟩
  have := h'.index
  rw [indexPath, h.touches.root, ← indexPath] at this
  rw [this]
  exact h.index

theorem Unindexed.then_written {r : Except ε α} (h : Unindexed key log log')
    (h' : Written key P log' r log'') : Written key P log r log'' := by
  refine ⟨h.then_grown h'.grown, fun a ha => ?_⟩
  have := h'.done a ha
  rwa [indexPath, h.touches.root] at this

theorem Untouched.unindexed (h : Untouched log log') : Unindexed key log log' :=
  ⟨h.touches key, by rw [h.disk]⟩

theorem Grown.refl (log : Log) : Grown key P log log := (Untouched.refl log).unindexed.grown

/-- The path is the data file of the key or above it. -/
def AboveData (root : Path) (key : String) (r : Path) : Prop :=
  r <+: folderOf (filePath root key "data") ∨ r = filePath root key "data"

theorem touches_dataSteps {path : Path} {start : Offset} {value : Bytes} {s : Step}
    (hs : s ∈ dataSteps path start value) (h : s.Touches r) : r <+: folderOf path ∨ r = path := by
  simp only [dataSteps, List.mem_cons, List.not_mem_nil, or_false] at hs
  rcases hs with rfl | rfl | rfl | rfl
  · exact .inl h
  · exact .inr h
  · exact .inr h
  · exact .inr h

/-- The steps on the data file touch neither the index file nor anything of another key. -/
theorem safe_writeDataPlan (log : Log) (key : String) (start : Offset) (value : Bytes) :
    Plan.Safe late (Unindexed key log) (fun _ => Unindexed key log)
      (writeDataPlan key start value) log := by
  rw [writeDataPlan]
  refine Plan.safe_act_bind (Untouched.refl log).unindexed (Plan.safe_ask_bind ?_)
  set log₁ := log.enter "data_write" with hlog₁
  have hsteps : Plan.Safe late
      (fun t => ∀ r, ¬AboveData log.root key r → t.get? r = log.disk.get? r)
      (fun _ t => ∀ r, ¬AboveData log.root key r → t.get? r = log.disk.get? r)
      (attemptAll (dataSteps (log₁.dataPath key) start value)) log₁.disk :=
    safe_attemptAll (fun _ _ => rfl) fun s hs t₁ res t₂ ht hg r hr => by
      rw [← ht r hr]
      exact Step.get?_of_gives hg fun h => hr (touches_dataSteps hs h)
  have hframe : ∀ t : FileTree, (∀ r, ¬AboveData log.root key r → t.get? r = log.disk.get? r) →
      Unindexed key log { log₁ with disk := t } := by
    refine fun t ht => ⟨⟨rfl, fun r hr => ht r fun h => hr ?_, fun _ _ => id⟩, ht _ fun h => ?_⟩
    · exact h.elim .dataFolder .data
    · exact h.elim (not_prefix_folderOf_data _ _ _ _) (dataPath_ne_indexPath _ _ _).symm
  have hfiles : Plan.Safe late (Unindexed key log) (fun _ => Unindexed key log)
      ((attemptAll (dataSteps (log₁.dataPath key) start value)).within diskFocus) log₁ := by
    refine (Plan.safe_within diskFocus (s := log₁) hsteps).mono ?_ ?_
    · rintro _ ⟨t, ht, rfl⟩
      exact hframe t ht
    · rintro _ _ ⟨t, ht, rfl⟩
      exact hframe t ht
  refine hfiles.bind fun res log₂ h₂ _ => ?_
  cases res with
  | ok u => exact Plan.safe_pure h₂ h₂
  | error e => exact Plan.safe_pure h₂ h₂

/-- An index file with one more record, that of `e`. It begins with the one before if there is
    one, or else with a header. -/
def OneMore (log : Log) (key : String) (hasTip : Bool) (e : Index.Entry) (bs : Bytes) : Prop :=
  ∃ old, (if hasTip then log.disk.get? (log.indexPath key) = some (.file old)
      else ∃ fanout, old = Index.encodeHeader fanout) ∧
    bs = old ++ Index.encodeRecord e

theorem gives_baseAccess {path : Path} {hasTip : Bool} {old : Bytes}
    (h : (baseAccess path hasTip).Gives late log (.ok old) log') :
    if hasTip then log.disk.get? path = some (.file old)
    else ∃ fanout, old = Index.encodeHeader fanout := by
  rcases h with h | ⟨⟨e, h⟩, -⟩
  · have hold : log.indexBase path hasTip = .ok old := (Prod.mk.inj h).1
    rw [indexBase] at hold
    cases hasTip with
    | true => exact get?_of_read hold
    | false => exact ⟨_, (Except.ok.inj hold).symm⟩
  · cases h

theorem safe_recordPlan {old : Bytes} {e : Index.Entry} {i : Nat} (h₁ : Unindexed key log log₁)
    (hP : P (old ++ Index.encodeRecord e)) :
    Plan.Safe late (Grown key P log) (Written key P log)
      (recordPlan (filePath log.root key "index") old e
        (tempName (filePath log.root key "index") i)) log₁ := by
  have hpath := filePath_ne_nil log.root key "index"
  set path := filePath log.root key "index" with hpathdef
  have hne := ne_tempName hpath i
  set temp := tempName path i with htemp
  have hgrown : ∀ {t : FileTree}, (∀ r, r ≠ temp → r ≠ path → t.get? r = log₁.disk.get? r) →
      (t.get? path = log₁.disk.get? path ∨ t.get? path = some (.file (old ++ Index.encodeRecord e))) →
      Grown key P log { log₁ with disk := t } := by
    intro t hf hp
    refine h₁.then_grown ⟨⟨rfl, fun r hr => hf r ?_ ?_, fun _ _ => id⟩, ?_⟩
    · rintro rfl
      exact hr (.temp i (by rw [htemp, hpathdef, h₁.touches.root]))
    · rintro rfl
      exact hr (.index (by rw [hpathdef, h₁.touches.root]))
    · rw [indexPath, h₁.touches.root]
      exact hp.imp_right fun h => ⟨_, hP, h⟩
  have hrepl : Plan.Safe late _ _ (attemptAll (replaceWith temp path [old, Index.encodeRecord e]))
      log₁.disk := safe_replace hne (tempName_ne_nil _ i) hpath _
  have hflat : [old, Index.encodeRecord e].flatten = old ++ Index.encodeRecord e := by simp
  rw [hflat] at hrepl
  have hfiles : Plan.Safe late (Grown key P log) (fun r log' => Written key P log r log')
      ((attemptAll (indexSteps temp path old e)).within diskFocus) log₁ := by
    refine (Plan.safe_within diskFocus hrepl).mono ?_ ?_
    · rintro _ ⟨t, ht, rfl⟩
      exact hgrown ht.frame ht.either
    · rintro r _ ⟨t, ht, rfl⟩
      exact ⟨hgrown ht.frame ht.replacing.either, fun u hu => ⟨_, hP, ht.done hu⟩⟩
  rw [recordPlan]
  refine hfiles.bind fun res log₂ h₂ ha => ?_
  cases res with
  | ok u => exact Plan.safe_pure ha ⟨ha, fun _ _ => h₂.done () rfl⟩
  | error err =>
    -- The temporary file is removed, if that can be done; the index file is another one.
    refine Plan.safe_access_bind ha fun u log₃ hx => ?_
    obtain ⟨t, hg, rfl⟩ := Access.gives_within hx
    have h₃ : Grown key P log { log₂ with disk := t } := by
      have hroot := ha.touches.root
      refine ha.then_unindexed ⟨⟨rfl, fun r hr => get?_of_discard hg ?_, fun _ _ => id⟩,
        get?_of_discard hg ?_⟩
      · rintro rfl
        exact hr (.temp i (by rw [htemp, hpathdef, hroot]))
      · rw [indexPath, hroot]
        exact hne
    exact Plan.safe_pure h₃ ⟨h₃, by simp⟩

/-- The steps on the index file leave it as it is or add a record to it. -/
theorem safe_writeIndexPlan (log : Log) (key : String) (e : Index.Entry) (hasTip : Bool) :
    Plan.Safe late (Grown key (OneMore log key hasTip e) log)
      (Written key (OneMore log key hasTip e) log) (writeIndexPlan key e hasTip) log := by
  rw [writeIndexPlan]
  refine Plan.safe_act_bind (Grown.refl log) (Plan.safe_ask_bind ?_)
  have h₁ : Unindexed key log (log.enter "index_write") := (Untouched.enter _).unindexed
  refine Plan.safe_access_bind h₁.grown fun res log₂ hx => ?_
  obtain ⟨t, hg, rfl⟩ := Access.gives_within hx
  have hframe : ∀ r, ¬r <+: folderOf (filePath log.root key "index") → t.get? r = log.disk.get? r :=
    fun r hr => Step.get?_of_gives hg hr
  have hidx : t.get? (filePath log.root key "index") =
      log.disk.get? (filePath log.root key "index") :=
    hframe _ (not_prefix_folderOf_index _ _ _ _)
  have h₂ : Unindexed key log { log.enter "index_write" with disk := t } :=
    ⟨⟨rfl, fun r hr => hframe r fun h => hr (.indexFolder h), fun _ _ => id⟩, hidx⟩
  cases res with
  | error err => exact Plan.safe_pure h₂.grown ⟨h₂.grown, by simp⟩
  | ok u =>
    refine Plan.safe_ask_bind (Plan.safe_access_bind h₂.grown fun res log₃ hx => ?_)
    -- Reading the old index changes nothing, even if it fails.
    obtain rfl : log₃ = { log.enter "index_write" with disk := t } := by
      rcases hx with hx | ⟨-, rfl⟩
      · exact (Prod.mk.inj hx).2.symm
      · rfl
    cases res with
    | error err => exact Plan.safe_pure h₂.grown ⟨h₂.grown, by simp⟩
    | ok old =>
      have hold : OneMore log key hasTip e (old ++ Index.encodeRecord e) :=
        ⟨old, by rw [indexPath, ← hidx]; exact gives_baseAccess hx, rfl⟩
      exact safe_recordPlan h₂ hold

theorem Grown.mono (h : Grown key P log log') (hP : ∀ bs, P bs → P' bs) : Grown key P' log log' :=
  ⟨h.touches, h.index.imp_right fun ⟨bs, hbs, hg⟩ => ⟨bs, hP bs hbs, hg⟩⟩

theorem Written.mono {r : Except ε α} (h : Written key P log r log') (hP : ∀ bs, P bs → P' bs) :
    Written key P' log r log' :=
  ⟨h.grown.mono hP, fun a ha => (h.done a ha).imp fun _ ⟨hbs, hg⟩ => ⟨hP _ hbs, hg⟩⟩

theorem Unindexed.oneMore {hasTip : Bool} {e : Index.Entry} {bs : Bytes}
    (h : Unindexed key log log') (hm : OneMore log' key hasTip e bs) :
    OneMore log key hasTip e bs := by
  obtain ⟨old, hold, hbs⟩ := hm
  refine ⟨old, ?_, hbs⟩
  rwa [← h.index, indexPath, ← h.touches.root]

theorem safe_writeSpanPlan (log : Log) (key : String) (hasTip : Bool) (value : Bytes)
    (new : Index.Tip) :
    Plan.Safe late (Grown key (OneMore log key hasTip ⟨new.time, new.span.stop⟩) log)
      (Written key (OneMore log key hasTip ⟨new.time, new.span.stop⟩) log)
      (writeSpanPlan key hasTip value new) log := by
  rw [writeSpanPlan]
  refine ((safe_writeDataPlan log key _ value).mono (fun _ h => h.grown) fun _ _ h => h).bind
    fun res log₁ h₁ ha => ?_
  cases res with
  | error e => exact Plan.safe_pure ha ⟨ha, by simp⟩
  | ok u =>
    refine ((safe_writeIndexPlan log₁ key _ _).mono
      (fun _ h => h₁.then_grown (h.mono fun _ => h₁.oneMore))
      fun _ _ h => h₁.then_written (h.mono fun _ => h₁.oneMore)).bind fun res log₂ h₂ ha => ?_
    cases res with
    | error e => exact Plan.safe_pure ha ⟨ha, by simp⟩
    | ok u =>
      have h₃ := ha.then_unindexed ⟨Touches.publish key new log₂, rfl⟩
      exact Plan.safe_act_bind ha (Plan.safe_pure h₃ ⟨h₃, fun _ _ => h₂.done () rfl⟩)

theorem safe_writePlan (log : Log) (key : String) (tip : Option Index.Tip) (value : Bytes)
    (t : Time) :
    Plan.Safe late
      (Grown key (OneMore log key tip.isSome ⟨t, startBehind tip + UInt64.ofNat value.length⟩) log)
      (Written key (OneMore log key tip.isSome ⟨t, startBehind tip + UInt64.ofNat value.length⟩) log)
      (writePlan key tip value t) log := by
  rw [writePlan]
  cases hstop : wordAfter? (startBehind tip) value.length with
  | none => exact Plan.safe_pure (.refl log) ⟨.refl log, by simp⟩
  | some stop =>
    obtain rfl := eq_add_of_wordAfter? hstop
    exact safe_writeSpanPlan log key tip.isSome value ⟨t, startBehind tip, _⟩

/-- What an appended value makes of the index file: the last record is that of the value. -/
def Appended (log : Log) (key : String) (value : Bytes) (bs : Bytes) : Prop :=
  ∃ tip t, tipAt log.disk (log.indexPath key) = .ok tip ∧
    OneMore log key tip.isSome ⟨t, startBehind tip + UInt64.ofNat value.length⟩ bs

/-- Whatever fails when a value is appended, nothing of another key is touched, and the index
    file is the old one or has one more record. -/
theorem safe_appendNowPlan (log : Log) (key : String) (value : Bytes) (now : Time) :
    Plan.Safe late (Grown key (Appended log key value) log) (Written key (Appended log key value) log)
      (appendNowPlan key value now) log := by
  rw [appendNowPlan]
  have hun : ∀ log', Consulted key log log' → Unindexed key log log' :=
    fun log' h => ⟨h.touches, by rw [h.disk]⟩
  refine ((safe_publishedTipPlan log key).mono (fun log' h => (hun log' h).grown)
    fun _ _ h => h).bind fun res log₁ h₁ ha => ?_
  cases res with
  | error e => exact Plan.safe_pure ha ⟨ha, by simp⟩
  | ok tip =>
    have hlog := hun log₁ h₁.1
    dsimp only
    cases stamp tip now with
    | none => exact Plan.safe_pure ha ⟨ha, by simp⟩
    | some t =>
      have hP : ∀ bs, OneMore log₁ key tip.isSome
          ⟨t, startBehind tip + UInt64.ofNat value.length⟩ bs → Appended log key value bs :=
        fun bs h => ⟨tip, _, h₁.2 tip rfl, hlog.oneMore h⟩
      exact (safe_writePlan log₁ key tip value t).mono (fun _ h => hlog.then_grown (h.mono hP))
        fun _ _ h => hlog.then_written (h.mono hP)

/-- Nor is anything of another key touched when a value is appended at a given time. -/
theorem safe_appendPlan (log : Log) (key : String) (value : Bytes) (t : Time) :
    Plan.Safe late (Touches key log) (fun _ => Touches key log) (appendPlan key value t) log := by
  rw [appendPlan]
  refine ((safe_publishedTipPlan log key).mono (fun _ h => h.touches) fun _ _ h => h.1.touches).bind
    fun res log₁ h₁ ha => ?_
  cases res with
  | error e => exact Plan.safe_pure ha h₁
  | ok tip =>
    dsimp only
    split
    · exact Plan.safe_pure ha h₁
    · exact (safe_writePlan log₁ key tip value t).mono (fun _ h => h₁.trans h.touches)
        fun _ _ h => h₁.trans h.grown.touches

/-! ## Slots -/

/-- The cache has one slot for each key that it knows, and no more than it has room for. -/
def Fits (log : Log) : Prop := log.cache.Fits

theorem Fits.looked (hf : log.Fits) (h : Looked log log') : log'.Fits := h.fits hf

theorem preserves_publish (key : String) (tip : Index.Tip) : (publish key tip).Preserves Fits :=
  Plan.preserves_act fun _ hf => Cache.Fits.publish hf key tip

theorem preserves_publishedTipPlan (key : String) : (publishedTipPlan key).Preserves Fits := by
  refine (preserves_look (fun _ _ h hf => hf.looked h) fun _ _ _ _ => looked_of_tipAccess).bind
    fun r => ?_
  rcases r with e | - | tip
  · exact Plan.preserves_pure _
  · exact Plan.preserves_pure _
  · exact (preserves_publish key tip).bind fun _ => Plan.preserves_pure _

/-- What is done to the files does not matter here. -/
theorem preserves_diskFocus (p : Plan FileTree α) : (p.within diskFocus).Preserves Fits :=
  Plan.preserves_within diskFocus (fun _ _ => id) p

theorem preserves_enter (phase : String) :
    (Plan.touch fun log : Log => log.enter phase).Preserves Fits :=
  Plan.preserves_act fun _ => id

theorem preserves_writeDataPlan (key : String) (start : Offset) (value : Bytes) :
    (writeDataPlan key start value).Preserves Fits := by
  refine (preserves_enter _).bind fun _ => (Plan.preserves_ask _).bind fun path => ?_
  refine (preserves_diskFocus _).bind fun r => ?_
  cases r <;> exact Plan.preserves_pure _

theorem preserves_recordPlan (path : Path) (old : Bytes) (e : Index.Entry) (temp : Path) :
    (recordPlan path old e temp).Preserves Fits := by
  refine (preserves_diskFocus _).bind fun r => ?_
  cases r with
  | ok u => exact Plan.preserves_pure _
  | error err =>
    exact (preserves_diskFocus (.access (FileTree.discard temp))).bind fun _ =>
      Plan.preserves_pure _

theorem preserves_writeIndexPlan (key : String) (e : Index.Entry) (hasTip : Bool) :
    (writeIndexPlan key e hasTip).Preserves Fits := by
  refine (preserves_enter _).bind fun _ => (Plan.preserves_ask _).bind fun path => ?_
  refine (preserves_diskFocus (.access (attempt (.makeDirs (folderOf path))))).bind fun r => ?_
  cases r with
  | error err => exact Plan.preserves_pure _
  | ok u =>
    refine (Plan.preserves_ask _).bind fun temp => ?_
    have hbase : (Plan.access (baseAccess path hasTip)).Preserves Fits :=
      preserves_look (fun _ _ h hf => hf.looked h) fun _ log _ _ => looked_of_baseAccess
    refine hbase.bind fun r => ?_
    cases r with
    | error err => exact Plan.preserves_pure _
    | ok old => exact preserves_recordPlan path old e temp

theorem preserves_writePlan (key : String) (tip : Option Index.Tip) (value : Bytes) (t : Time) :
    (writePlan key tip value t).Preserves Fits := by
  rw [writePlan]
  split
  · exact Plan.preserves_pure _
  · refine (preserves_writeDataPlan key _ value).bind fun r => ?_
    cases r with
    | error e => exact Plan.preserves_pure _
    | ok u =>
      refine (preserves_writeIndexPlan key _ _).bind fun r => ?_
      cases r with
      | error e => exact Plan.preserves_pure _
      | ok u => exact (preserves_publish key _).bind fun _ => Plan.preserves_pure _

theorem preserves_appendPlan (key : String) (value : Bytes) (t : Time) :
    (appendPlan key value t).Preserves Fits := by
  refine (preserves_publishedTipPlan key).bind fun r => ?_
  cases r with
  | error e => exact Plan.preserves_pure _
  | ok tip =>
    dsimp only
    split
    · exact Plan.preserves_pure _
    · exact preserves_writePlan key tip value t

theorem preserves_appendNowPlan (key : String) (value : Bytes) (now : Time) :
    (appendNowPlan key value now).Preserves Fits := by
  refine (preserves_publishedTipPlan key).bind fun r => ?_
  cases r with
  | error e => exact Plan.preserves_pure _
  | ok tip =>
    dsimp only
    split
    · exact Plan.preserves_pure _
    · exact preserves_writePlan key tip value _

end ReplicaRing.Log
