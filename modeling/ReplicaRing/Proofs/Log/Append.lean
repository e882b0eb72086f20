import ReplicaRing.Proofs.Log.Kept
import ReplicaRing.Proofs.Log.Overlay

/-!
# What an append makes of a log

An append lays two files over the tree and brings its key to the front of the cache; nothing else
of the log changes but what is counted (`Log.Leaves`). Files, tip and answer are told by the
history of the key, its index file and the fanout of the log alone (`Log.Appended`), so it does not
matter what happens to other keys.

That is so of every append of a value now that is left alone, whatever failed before
(`Log.Tells.exists_appendNow_leaves`). If there is no stamp or no room for the value, it becomes no
write (`Log.History.write?`): the key is touched, no file is laid over the tree, and the append
breaks off.
-/

namespace ReplicaRing.Log

open FileTree
open Index (Tip)

variable {K : Set String} {H : String → History} {h : History} {t : FileTree} {root : Path}
  {log log' log'' log₁ log₂ : Log} {key k : String} {value : Bytes} {now : Time} {w : Write}
  {files : Option (Bytes × Bytes)} {tip : Option Tip} {new : Tip}

/-! ## What is left -/

/-- The data file and the index file of a key, if it is written to. -/
def filesOver (root : Path) (key : String) (files : Option (Bytes × Bytes)) :
    Path → Option Item :=
  files.elim (fun _ => none) fun f => keyFiles root key f.1 f.2

/-- Two keys have nothing but directories in common. -/
theorem filesOver_disjoint {files' : Option (Bytes × Bytes)} (hK : Distinct K) (hkey : key ∈ K)
    (hk : k ∈ K) (hne : key ≠ k) (p : Path) :
    filesOver root key files p = none ∨ filesOver root k files' p = none ∨
      filesOver root key files p = filesOver root k files' p := by
  cases files with
  | none => exact .inl rfl
  | some f =>
    cases files' with
    | none => exact .inr (.inl rfl)
    | some f' => exact keyFiles_disjoint hK hkey hk hne p

theorem filesOver_of_not_territory {p : Path} (h : ¬Territory root key p) :
    filesOver root key files p = none := by
  cases files with
  | none => rfl
  | some f => exact keyFiles_of_not_territory h

/-- These files are laid over the tree, and the key is touched in the cache with this tip; each may
    be missing. -/
structure Leaves (key : String) (files : Option (Bytes × Bytes)) (tip : Option Tip)
    (log log' : Log) : Prop where
  root : log'.root = log.root
  fanout : log'.fanout = log.fanout
  capacity : log'.cache.capacity = log.cache.capacity
  slots : log'.cache.slots =
    tip.elim log.cache.slots (Cache.touch log.cache.capacity log.cache.slots key)
  files : log.disk.Overlaid (filesOver log.root key files) log'.disk

theorem Leaves.enter (log : Log) (key phase : String) :
    Leaves key none none log (log.enter phase) :=
  ⟨rfl, rfl, rfl, rfl, fun _ => (Option.none_or).symm⟩

/-- What is done to the same key first is not seen any more in the cache. -/
theorem Leaves.then (h : Leaves key none tip log log₁) (hf : log.cache.Fits)
    (h' : Leaves key files (some new) log₁ log₂) : Leaves key files (some new) log log₂ where
  root := h'.root.trans h.root
  fanout := h'.fanout.trans h.fanout
  capacity := h'.capacity.trans h.capacity
  slots := by
    rw [h'.slots, h.slots, h.capacity]
    cases tip with
    | none => rfl
    | some tip => exact Cache.touch_touch hf.capacity_pos
  files p := by
    have h' := h'.files p
    rwa [h.root, h.files.get?_of_none rfl] at h'

/-- Paths that belong to no file of the key name what they did. -/
theorem Leaves.frame {p : Path} (h : Leaves key files tip log log')
    (hp : ¬Territory log.root key p) : log'.disk.get? p = log.disk.get? p :=
  h.files.get?_of_none (filesOver_of_not_territory hp)

theorem Leaves.fits (h : Leaves key files tip log log') (hf : log.cache.Fits) :
    log'.cache.Fits := by
  cases tip with
  | none =>
    exact ⟨h.slots ▸ hf.nodup, h.slots ▸ h.capacity ▸ hf.length_le, h.capacity ▸ hf.capacity_pos⟩
  | some tip => exact hf.touched h.capacity h.slots

/-! ## The tip of a key -/

/-- A cache that knows of a beginning of the history learns of its tip. -/
theorem raised_eq (ho : h.Ordered) (htip : h.tip = some new)
    (hknown : ∀ old, log.cache.peek key = some old → ∃ g : History, g <+: h ∧ g.tip = some old) :
    log.cache.raised key new = new := by
  rw [Cache.raised]
  cases hpeek : log.cache.peek key with
  | none => rfl
  | some old =>
    obtain ⟨g, hg, hold⟩ := hknown old hpeek
    rcases List.eq_nil_or_concat h with rfl | ⟨h', w, rfl⟩
    · cases htip
    rw [List.concat_eq_append] at ho htip hg
    rcases List.prefix_concat_iff.1 hg with rfl | hg
    · obtain rfl := Option.some.inj (hold.symm.trans htip)
      exact ite_self _
    · have hlt := History.time_tip_lt (ho.sublist (hg.sublist.append_right [w])) hold
      rw [History.tip_concat, Option.some.injEq] at htip
      subst htip
      exact if_pos hlt

/-- Looking up the tip brings the key to the front of the cache, if it has been written to. -/
theorem Tells.exists_publishedTip_leaves (ht : Tells K root log H) (hf : log.cache.Fits)
    (hkey : key ∈ K) :
    ∃ log', log.publishedTip key = (.ok (H key).tip, log') ∧ Tells K root log' H ∧
      Leaves key none (H key).tip log log' := by
  obtain ⟨log', hp, ht', -⟩ := ht.exists_publishedTip hkey
  refine ⟨log', hp, ht', ?_⟩
  rw [Log.publishedTip, ht.onDisk_root.storedTip_eq hkey] at hp
  cases htip : (H key).tip with
  | none =>
    rw [htip] at hp
    obtain rfl := (Prod.mk.inj hp).2
    exact .enter log key _
  | some tip =>
    rw [htip] at hp
    obtain rfl := (Prod.mk.inj hp).2
    refine ⟨rfl, rfl, Cache.capacity_publish _ _ _, ?_, fun _ => (Option.none_or).symm⟩
    show (log.cache.publish key tip).slots = _
    rw [Cache.slots_publish hf,
      raised_eq (ht.onDisk.stored key hkey).ordered htip (ht.cached key hkey)]
    rfl

/-! ## Writing -/

/-- The index file of a key, or the header it begins with. -/
def indexBefore (log : Log) (key : String) : Bytes :=
  match log.disk.get? (log.indexPath key) with
  | some (.file bs) => bs
  | _ => Index.encodeHeader log.fanout

/-- The data file and the index file of a key after the write. -/
def filesAfter (log : Log) (key : String) (h : History) (w : Write) : Bytes × Bytes :=
  (h.bytes ++ w.value, log.indexBefore key ++
    Index.encodeRecord ⟨w.time, UInt64.ofNat (History.bytes (h ++ [w])).length⟩)

/-- So they are told by the index file and the fanout of the log. -/
theorem filesAfter_congr (hroot : log'.root = log.root) (hfanout : log'.fanout = log.fanout)
    (h : log'.disk.get? (log.indexPath key) = log.disk.get? (log.indexPath key)) (g : History)
    (w : Write) : log'.filesAfter key g w = log.filesAfter key g w := by
  rw [filesAfter, filesAfter, indexBefore, indexBefore, indexPath, hroot, ← indexPath, h, hfanout]

theorem Leaves.filesAfter_eq (h : Leaves key none tip log log') (g : History) (w : Write) :
    log'.filesAfter key g w = log.filesAfter key g w :=
  filesAfter_congr h.root h.fanout (h.files.get?_of_none rfl) g w

/-- A write behind the history leaves its files and its tip. -/
theorem Tells.exists_write_leaves (ht : Tells K root log H) (hf : log.cache.Fits) (hK : Distinct K)
    (hkey : key ∈ K) (ho : History.Ordered (H key ++ [w]))
    (ha : History.Addressable (H key ++ [w])) :
    ∃ new log', log.write key (H key).tip w.value w.time = (.ok new, log') ∧
      History.tip (H key ++ [w]) = some new ∧
      Leaves key (some (log.filesAfter key (H key) w)) (some new) log log' ∧
      Tells K root log' (grown H key w) := by
  obtain ⟨new, t₁, t₂, i, fanout, hnew, hw, -, hd₁, hr₁, hdata₁, hm⟩ :=
    ht.onDisk_root.exists_write hK hkey ha
  have hdata₂ : t₂.get? (log.dataPath key) = some (.file ((H key).bytes ++ w.value)) := by
    rw [dataPath, hm, if_neg (dataPath_ne_indexPath _ _ _),
      if_neg (tempName_ne_filePath _ _ _ _ (.inl rfl)).symm, hdata₁]
  have hindex₂ : t₂.get? (log.indexPath key) = some (.file (log.filesAfter key (H key) w).2) := by
    obtain ⟨old, hold, hg⟩ := (added_of_write hw).index
    have hstop : startBehind (H key).tip + UInt64.ofNat w.value.length =
        UInt64.ofNat (History.bytes (H key ++ [w])).length := by
      rw [startBehind_tip, History.bytes_append, History.bytes_singleton, List.length_append,
        UInt64.ofNat_add]
    have hbefore : old = log.indexBefore key := by
      rw [indexBefore]
      rcases (ht.onDisk_root.stored key hkey).index with ⟨hi, hnil⟩ | ⟨hne, fanout, hi⟩
      · rw [hnil] at hold
        rw [indexPath, hi]
        exact hold
      · have hsome : (H key).tip.isSome = true := by
          rwa [Option.isSome_iff_ne_none, ne_eq, History.tip_eq_none]
        rw [if_pos hsome] at hold
        rw [hold]
    rw [filesAfter, ← hbefore, ← hstop]
    exact hg
  have htip : History.tip (H key ++ [w]) = some new := by rw [History.tip_concat, hnew]
  -- Left alone, the plan of the write ends so too.
  have hrun := Plan.ends_run false (writePlan key (H key).tip w.value w.time) log
  rw [run_writePlan, hw] at hrun
  refine ⟨new, _, hw, htip, ⟨rfl, rfl, Cache.capacity_publish _ _ _, ?_,
    overlaid_write hw hdata₂ hindex₂⟩, ((ht.safe_write hK hkey ho ha).ends _ _ hrun).done new rfl⟩
  show (log.cache.publish key new).slots = _
  rw [Cache.slots_publish hf, raised_eq ho htip fun old hold =>
    (ht.cached key hkey old hold).imp fun g hg => ⟨hg.1.trans (List.prefix_append _ _), hg.2⟩]
  rfl

/-! ## Appending -/

/-- The write that a value becomes behind the history, if there are a stamp and room for it. -/
def History.write? (h : History) (value : Bytes) (now : Time) : Option Write :=
  ((stamp h.tip now).map fun t => ⟨t, value⟩).filter fun w => History.Addressable (h ++ [w])

theorem History.write?_eq_some : h.write? value now = some w ↔
    stamp h.tip now = some w.time ∧ w.value = value ∧ History.Addressable (h ++ [w]) := by
  rw [write?, Option.filter_eq_some_iff, Option.map_eq_some_iff, decide_eq_true_eq, ← and_assoc]
  refine and_congr_left fun _ => ⟨?_, fun ⟨ht, hv⟩ => ⟨w.time, ht, hv ▸ rfl⟩⟩
  rintro ⟨t, ht, rfl⟩
  exact ⟨ht, rfl⟩

theorem History.write?_eq_none : h.write? value now = none ↔
    ∀ t, stamp h.tip now = some t → ¬History.Addressable (h ++ [⟨t, value⟩]) := by
  simp [write?, Option.filter_eq_none_iff]

/-- What becomes of a log when a value is appended that becomes the write `w`, if any: the key has
    a longer history, or the call breaks off. -/
structure Concludes (K : Set String) (root : Path) (H : String → History) (key : String)
    (w : Option Write) (log : Log) (r : Except StorageError Tip) (log' : Log) : Prop where
  answer : r.map (·.time) = w.elim (.error .overflow) fun w => .ok w.time
  leaves : Leaves key (w.map (log.filesAfter key (H key))) (History.tip (H key ++ w.toList)) log log'
  tells : Tells K root log' (Function.update H key (H key ++ w.toList))

theorem Concludes.map_true {w : Option Write} {r : Except StorageError Tip}
    (h : Concludes K root H key w log r log') :
    (r.map fun _ => true) = w.elim (.error .overflow) fun _ => .ok true := by
  have hr := congrArg (Except.map fun _ => true) h.answer
  cases r <;> cases w <;> exact hr

/-- The key is touched when the call breaks off, and has the history that it had. -/
theorem Leaves.concludes (hl : Leaves key none (H key).tip log log') (ht : Tells K root log' H) :
    Concludes K root H key none log (.error .overflow) log' where
  answer := rfl
  leaves := by
    rw [Option.toList_none, List.append_nil]
    exact hl
  tells := by
    rw [Option.toList_none, List.append_nil, Function.update_eq_self]
    exact ht

namespace Tells

variable (ht : Tells K root log H) (hf : log.cache.Fits) (hK : Distinct K) (hkey : key ∈ K)

include ht hf hK hkey

/-- An append of a value now leaves the files and the tip of the write that the value becomes. -/
theorem exists_appendNow_leaves (value : Bytes) (now : Time) :
    ∃ r log', log.appendNow key value now = (r, log') ∧
      Concludes K root H key ((H key).write? value now) log r log' := by
  obtain ⟨log₁, hp, ht₁, hl⟩ := ht.exists_publishedTip_leaves hf hkey
  rw [Log.appendNow, hp]
  cases hw : (H key).write? value now with
  | some w =>
    obtain ⟨hstamp, rfl, ha⟩ := History.write?_eq_some.1 hw
    simp only [hstamp]
    have ho := (ht.onDisk.stored key hkey).ordered.concat (lt_of_stamp hstamp)
    obtain ⟨new, log', hwrite, htip, hl', ht'⟩ :=
      ht₁.exists_write_leaves (hl.fits hf) hK hkey ho ha
    rw [hl.filesAfter_eq] at hl'
    refine ⟨_, log', hwrite, ?_, ?_, ht'⟩
    · rw [History.tip_concat, Option.some.injEq] at htip
      rw [← htip]
      rfl
    · rw [Option.toList_some, htip]
      exact hl.then hf hl'
  | none =>
    refine ⟨_, log₁, ?_, hl.concludes ht₁⟩
    cases hstamp : stamp (H key).tip now with
    | none => simp only [hstamp]
    | some t =>
      simp only [hstamp]
      exact write_overflow (ht.onDisk.stored key hkey).addressable
        (History.write?_eq_none.1 hw t hstamp)

end Tells

end ReplicaRing.Log
