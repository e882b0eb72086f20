import ReplicaRing.Proofs.Log.Overlay

/-!
# Logs that are read alike

What a log answers is told by what the paths name and by the tip that its cache knows of the key,
if any (`Log.ReadsAlike`). How the files are listed, what else the cache knows and in which order,
and what has been counted is not seen.
-/

namespace ReplicaRing.Log

open FileTree

variable {log log' : Log} {key : String}

/-- The files of both logs are in the same places and hold the same. -/
structure SameFiles (log log' : Log) : Prop where
  root : log'.root = log.root
  files : ∀ p, log'.disk.get? p = log.disk.get? p

/-- And so the caches know the same of the key. -/
structure ReadsAlike (key : String) (log log' : Log) : Prop where
  files : SameFiles log log'
  known : log'.cache.peek key = log.cache.peek key

theorem storedTip_eq (log : Log) (key : String) : log.storedTip key =
    (tipAt log.disk (log.indexPath key), log.enter "index_read") := rfl

theorem loadIndex_eq (log : Log) (key : String) : log.loadIndex key =
    (indexAt log.disk (log.indexPath key), log.enter "index_read") := rfl

/-! ## Files -/

namespace SameFiles

variable (h : SameFiles log log')

include h

/-- What is counted does not matter. -/
theorem recounted {log₁ log₁' : Log} (h₁ : Recounted log log₁) (h₁' : Recounted log' log₁') :
    SameFiles log₁ log₁' := by
  obtain ⟨tally, rfl⟩ := h₁
  obtain ⟨tally', rfl⟩ := h₁'
  exact ⟨h.root, h.files⟩

theorem tipAt_eq (key : String) :
    tipAt log'.disk (log'.indexPath key) = tipAt log.disk (log.indexPath key) := by
  rw [indexPath, indexPath, h.root, tipAt, tipAt, read_congr h.files]

theorem indexAt_eq (key : String) :
    indexAt log'.disk (log'.indexPath key) = indexAt log.disk (log.indexPath key) := by
  rw [indexPath, indexPath, h.root, indexAt, indexAt, read_congr h.files]

theorem fst_valuesAt (key : String) (spans : List Index.Span) :
    (log'.valuesAt key spans).1 = (log.valuesAt key spans).1 := by
  have hread : (log'.enter "data_read").disk.read ((log'.enter "data_read").dataPath key) =
      (log.enter "data_read").disk.read ((log.enter "data_read").dataPath key) := by
    show log'.disk.read (filePath log'.root key "data") =
      log.disk.read (filePath log.root key "data")
    rw [h.root, read_congr h.files]
  rw [valuesAt, valuesAt]
  split
  · rfl
  · dsimp only
    rw [hread]
    split <;> rfl

theorem fst_valueAt? (key : String) (span : Option Index.Span) :
    (log'.valueAt? key span).1 = (log.valueAt? key span).1 := by
  cases span with
  | none => rfl
  | some span =>
    have hvalues := h.fst_valuesAt key [span]
    simp only [valueAt?, valueAt, hvalues]

theorem fst_readRange (key : String) (first final : Time) :
    (log'.readRange key first final).1 = (log.readRange key first final).1 := by
  rw [readRange, readRange, loadIndex_eq, loadIndex_eq, h.indexAt_eq]
  rcases indexAt log.disk (log.indexPath key) with e | - | x
  · rfl
  · rfl
  · exact (h.recounted (.enter log _) (.enter log' _)).fst_valuesAt key _

theorem fst_readAsOfIndex (key : String) (t : Time) :
    (log'.readAsOfIndex key t).1 = (log.readAsOfIndex key t).1 := by
  rw [readAsOfIndex, readAsOfIndex, loadIndex_eq, loadIndex_eq, h.indexAt_eq]
  cases indexAt log.disk (log.indexPath key) with
  | error e => rfl
  | ok x => exact (h.recounted (.enter log _) (.enter log' _)).fst_valueAt? key _

end SameFiles

/-! ## Keys -/

namespace ReadsAlike

variable (h : ReadsAlike key log log')

include h

/-- The cache is asked first; the log after that has the same files still. -/
theorem exists_cached : ∃ tip log₁ log₁', log.cached key = (tip, log₁) ∧
    log'.cached key = (tip, log₁') ∧ SameFiles log₁ log₁' := by
  have htip : (log'.cached key).1 = (log.cached key).1 := by
    show (log'.cache.get key).1 = (log.cache.get key).1
    rw [Cache.fst_get, Cache.fst_get, h.known]
  exact ⟨(log.cached key).1, (log.cached key).2, (log'.cached key).2, rfl, Prod.ext htip rfl,
    h.files.root, h.files.files⟩

theorem fst_readLatest : (log'.readLatest key).1 = (log.readLatest key).1 := by
  obtain ⟨tip, log₁, log₁', hc, hc', hfiles⟩ := h.exists_cached
  rw [readLatest, readLatest, latestTip, latestTip, hc, hc']
  cases tip with
  | some tip => exact hfiles.fst_valueAt? key _
  | none =>
    dsimp only
    rw [storedTip_eq, storedTip_eq, hfiles.tipAt_eq key]
    cases tipAt log₁.disk (log₁.indexPath key) with
    | error e => rfl
    | ok tip => exact (hfiles.recounted (.enter log₁ _) (.enter log₁' _)).fst_valueAt? key _

theorem fst_readAsOf (t : Time) : (log'.readAsOf key t).1 = (log.readAsOf key t).1 := by
  obtain ⟨tip, log₁, log₁', hc, hc', hfiles⟩ := h.exists_cached
  rw [readAsOf, readAsOf, hc, hc']
  cases tip with
  | none => exact hfiles.fst_readAsOfIndex key t
  | some tip =>
    dsimp only
    split
    · exact hfiles.fst_valueAt? key _
    · exact hfiles.fst_readAsOfIndex key t

end ReadsAlike

end ReplicaRing.Log
