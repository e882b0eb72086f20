import ReplicaRing.Proofs.Index.Intact
import ReplicaRing.Proofs.Log.Spared
import ReplicaRing.Proofs.Log.Stamps

/-!
# The files of a key, byte by byte

A write that succeeds adds the value behind the bytes that the index file tells of, and a record
to the index file; what else the files hold does not matter (`Log.added_of_write`).

A log that no one else writes to has no other bytes in its files. After any calls, the data file
of a key is its values one behind the other, and the index file is a header and a record for each
of them (`Log.Exact`). The header has the fanout of the log when the key was first written to
(`Log.firstFanout`); later openings with other fanouts do not matter (`Log.image_of_append`).
-/

namespace ReplicaRing.Log

open FileTree

variable {K : Set String} {H : String → History} {t t' : FileTree} {root path : Path}
  {log log' : Log} {key k : String} {value : Bytes} {time now : Time} {start : Offset}
  {tip tip' : Option Index.Tip} {w : Write} {c : Call}

/-! ## What a write leaves behind -/

/-- The path holds a file with the bytes, or nothing if they are none. -/
def HoldsBytes (t : FileTree) (p : Path) (bs : Bytes) : Prop :=
  t.get? p = some (.file bs) ∨ t.get? p = none ∧ bs = []

/-- The steps on the data file put the value behind its first bytes. -/
theorem data_of_run (hpath : ¬path <+: folderOf path)
    (h : t.run (dataSteps path start value) = (.ok (), t')) :
    ∃ old, HoldsBytes t path old ∧ start.toNat ≤ old.length ∧
      t'.get? path = some (.file (old.take start.toNat ++ value)) := by
  obtain ⟨t₁, h₁, h⟩ := exists_of_run_cons h
  obtain ⟨t₂, h₂, h⟩ := exists_of_run_cons h
  obtain ⟨t₃, h₃, h⟩ := exists_of_run_cons h
  obtain ⟨t₄, h₄, h⟩ := exists_of_run_cons h
  obtain rfl : t₄ = t' := (Prod.mk.inj h).2
  obtain ⟨old, ho, hg₂⟩ := file_of_openFile (ioStep_eq_ok h₂)
  rw [get?_of_makeDirs (ioStep_eq_ok h₁) hpath] at ho
  rw [Step.apply] at h₃
  split at h₃
  · cases h₃
  · rename_i bs hread
    obtain rfl : bs = old := by
      rw [get?_of_read hread, Option.some.injEq, Item.file.injEq] at hg₂
      exact hg₂
    split at h₃
    · cases h₃
    · rename_i hlen
      cases h₃
      refine ⟨bs, ho, Nat.not_lt.1 hlen, get?_of_add h₄ ?_⟩
      rw [get?_set _ (ne_nil_of_get? hg₂ (by simp)), if_pos rfl]

/-- The steps on the index file put the old bytes and a record in its place. -/
theorem index_of_run {old : Bytes} {e : Index.Entry} {i : Nat} (hpath : path ≠ [])
    (h : t.run (indexSteps (tempName path i) path old e) = (.ok (), t')) :
    t'.get? path = some (.file (old ++ Index.encodeRecord e)) ∧
      ∀ p, p ≠ tempName path i → p ≠ path → t'.get? p = t.get? p := by
  have hsafe : Plan.Safe false _ _ (attemptAll (indexSteps (tempName path i) path old e)) t :=
    safe_replace (ne_tempName hpath i) (tempName_ne_nil _ i) hpath [old, Index.encodeRecord e]
  have hrepl := hsafe.ends _ _ (Plan.ends_run _ _ _)
  rw [run_attemptAll, h] at hrepl
  exact ⟨by simpa using hrepl.done rfl, hrepl.frame⟩

/-- What a write behind the value that `tip` tells of makes of the files of the key. -/
structure Added (key : String) (tip : Option Index.Tip) (value : Bytes) (time : Time)
    (log log' : Log) : Prop where
  fanout : log'.fanout = log.fanout
  data : ∃ old, HoldsBytes log.disk (log.dataPath key) old ∧ (startBehind tip).toNat ≤ old.length ∧
    log'.disk.get? (log.dataPath key) = some (.file (old.take (startBehind tip).toNat ++ value))
  index : ∃ old, (if tip.isSome then log.disk.get? (log.indexPath key) = some (.file old)
      else old = Index.encodeHeader log.fanout) ∧
    log'.disk.get? (log.indexPath key) = some (.file (old ++
      Index.encodeRecord ⟨time, startBehind tip + UInt64.ofNat value.length⟩))

theorem of_writeData (h : log.writeData key start value = (.ok (), log')) :
    log'.root = log.root ∧ log'.fanout = log.fanout ∧
      log.disk.run (dataSteps (log.dataPath key) start value) = (.ok (), log'.disk) ∧
      log'.disk.get? (log.indexPath key) = log.disk.get? (log.indexPath key) := by
  have hindex : (log.disk.run (dataSteps (log.dataPath key) start value)).2.get?
      (log.indexPath key) = log.disk.get? (log.indexPath key) := get?_run fun s hs ht =>
      (touches_dataSteps hs ht).elim (not_prefix_folderOf_data _ _ _ _)
        (dataPath_ne_indexPath _ _ _).symm
  rw [writeData] at h
  dsimp only [enter, dataPath] at h hindex ⊢
  split at h
  · rename_i hrun
    cases h
    rw [hrun] at hindex
    exact ⟨rfl, rfl, hrun, hindex⟩
  · cases h

theorem of_writeIndex {e : Index.Entry} {hasTip : Bool}
    (h : log.writeIndex key e hasTip = (.ok (), log')) :
    log'.fanout = log.fanout ∧
      (∃ old, (if hasTip then log.disk.get? (log.indexPath key) = some (.file old)
          else old = Index.encodeHeader log.fanout) ∧
        log'.disk.get? (log.indexPath key) = some (.file (old ++ Index.encodeRecord e))) ∧
      log'.disk.get? (log.dataPath key) = log.disk.get? (log.dataPath key) := by
  rw [writeIndex] at h
  dsimp only [enter, indexPath] at h
  split at h
  · cases h
  · rename_i disk hm
    have hmade : ∀ folder, disk.get? (filePath log.root key folder) =
        log.disk.get? (filePath log.root key folder) := fun folder =>
      get?_of_makeDirs hm (not_prefix_folderOf_index _ _ _ _)
    split at h
    · cases h
    · rename_i old hold
      split at h
      · rename_i hrun
        cases h
        obtain ⟨i, hi⟩ := exists_freshTemp disk (filePath log.root key "index")
        rw [hi] at hrun
        obtain ⟨hg, hframe⟩ := index_of_run (filePath_ne_nil _ _ _) hrun
        refine ⟨rfl, ⟨old, ?_, hg⟩, ?_⟩
        · rw [indexBase] at hold
          split
          · rename_i htip
            rw [if_pos htip] at hold
            rw [indexPath, ← hmade]
            exact get?_of_read hold
          · rename_i htip
            rw [if_neg htip] at hold
            exact (Except.ok.inj hold).symm
        · rw [dataPath, hframe _ (tempName_ne_filePath _ _ _ _ (.inl rfl)).symm
            (dataPath_ne_indexPath _ _ _), hmade]
      · cases h

/-- A write that succeeds, on any files. -/
theorem added_of_write {new : Index.Tip} (h : log.write key tip value time = (.ok new, log')) :
    Added key tip value time log log' := by
  rw [write] at h
  split at h
  · cases h
  rename_i stop hstop
  obtain rfl := eq_add_of_wordAfter? hstop
  rw [writeSpan] at h
  split at h
  · cases h
  · rename_i log₁ hdata
    obtain ⟨hroot, hfan, hrun, hkept⟩ := of_writeData hdata
    split at h
    · cases h
    · rename_i log₂ hindex
      cases h
      obtain ⟨hfan', ⟨old', hold', hg'⟩, hsame⟩ := of_writeIndex hindex
      obtain ⟨old, hold, hlen, hg⟩ := data_of_run (not_prefix_folderOf_data _ _ _ _) hrun
      rw [indexPath, hroot, ← indexPath] at hold' hg'
      rw [dataPath, hroot, ← dataPath] at hsame
      rw [hkept, hfan] at hold'
      exact ⟨hfan'.trans hfan, ⟨old, hold, hlen, hsame.trans hg⟩, ⟨old', hold', hg'⟩⟩

/-- So it is with a call that writes, behind the last value that the index file tells of. -/
theorem added_of_append {new : Index.Tip} (htip : tipAt log.disk (log.indexPath key) = .ok tip)
    (h : log.append key value time = (.ok new, log')) : Added key tip value time log log' := by
  obtain ⟨cache, tally, hp⟩ := log.exists_publishedTip key
  rw [append, hp, htip] at h
  dsimp only at h
  split at h
  · cases h
  · have hadd := added_of_write h
    exact ⟨hadd.fanout, hadd.data, hadd.index⟩

theorem added_of_appendNow {new : Index.Tip} (htip : tipAt log.disk (log.indexPath key) = .ok tip)
    (hstamp : stamp tip now = some time) (h : log.appendNow key value now = (.ok new, log')) :
    Added key tip value time log log' := by
  obtain ⟨cache, tally, hp⟩ := log.exists_publishedTip key
  rw [appendNow, hp, htip] at h
  simp only [hstamp] at h
  have hadd := added_of_write h
  exact ⟨hadd.fanout, hadd.data, hadd.index⟩

/-! ## Exact files -/

/-- The files of the key hold its history and no other bytes, and the index file has the fanout. -/
structure Exact (t : FileTree) (root : Path) (key : String) (fanout : Nat) (h : History) :
    Prop where
  missing : h = [] → ∀ folder, IsFolder folder → t.get? (filePath root key folder) = none
  data : h ≠ [] → t.get? (filePath root key "data") = some (.file h.bytes)
  index : h ≠ [] → t.get? (filePath root key "index") = some (.file (Index.file fanout h.entries))

variable {fanout fanout' : Nat} {h : History} {F : String → Nat}

theorem Exact.congr (hx : Exact t root key fanout h)
    (hg : ∀ folder, IsFolder folder →
      t'.get? (filePath root key folder) = t.get? (filePath root key folder))
    (hf : h ≠ [] → fanout = fanout') : Exact t' root key fanout' h where
  missing hnil folder hfolder := (hg folder hfolder).trans (hx.missing hnil folder hfolder)
  data hne := (hg "data" (.inl rfl)).trans (hx.data hne)
  index hne := hf hne ▸ (hg "index" (.inr rfl)).trans (hx.index hne)

/-- Before a write the data file holds the bytes of the history, and all of them are kept. -/
theorem Exact.take_data {old : Bytes} (hx : Exact t root key fanout h) (ha : h.Addressable)
    (ho : HoldsBytes t (filePath root key "data") old) :
    old.take (startBehind h.tip).toNat = h.bytes := by
  by_cases hnil : h = []
  · rw [hnil]
    rfl
  · have hstart : (startBehind h.tip).toNat = h.bytes.length := by
      rw [startBehind_tip]
      exact UInt64.toNat_ofNat_of_lt' ha
    rcases ho with ho | ⟨ho, -⟩
    · rw [hx.data hnil, Option.some.injEq, Item.file.injEq] at ho
      rw [← ho, hstart, List.take_length]
    · rw [hx.data hnil] at ho
      cases ho

/-- A write makes the files longer by the value and by a record. -/
theorem Exact.added (hx : Exact log.disk log.root key fanout h)
    (hadd : Added key h.tip w.value w.time log log') (ha : History.Addressable (h ++ [w])) :
    Exact log'.disk log.root key (if h = [] then log.fanout else fanout) (h ++ [w]) := by
  have hlen : h.bytes.length + w.value.length < 2 ^ 64 := by
    rwa [History.Addressable, History.bytes_append, History.bytes_singleton,
      List.length_append] at ha
  refine ⟨by simp, fun _ => ?_, fun _ => ?_⟩
  · obtain ⟨old, ho, -, hg⟩ := hadd.data
    rw [hx.take_data (show h.bytes.length < 2 ^ 64 by omega) ho] at hg
    rw [History.bytes_append, History.bytes_singleton]
    exact hg
  · obtain ⟨old, ho, hg⟩ := hadd.index
    have hstop : startBehind h.tip + UInt64.ofNat w.value.length =
        UInt64.ofNat (History.bytes (h ++ [w])).length := by
      rw [startBehind_tip,
        History.bytes_append, History.bytes_singleton, List.length_append, UInt64.ofNat_add]
    have hold : old = Index.file (if h = [] then log.fanout else fanout) h.entries := by
      by_cases hnil : h = []
      · rw [if_pos hnil]
        simpa [hnil, Index.file] using ho
      · have hsome : h.tip.isSome = true := by
          rwa [Option.isSome_iff_ne_none, ne_eq, History.tip_eq_none]
        rw [if_pos hsome, indexPath, hx.index hnil, Option.some.injEq, Item.file.injEq] at ho
        rw [if_neg hnil, ho]
    rw [← file_entries_concat, ← hold, ← hstop]
    exact hg

/-- A write to one key leaves the files of the others alone. -/
theorem exact_of_added (hx : ∀ k ∈ K, Exact log.disk log.root k (F k) (H k)) (hK : Distinct K)
    (hkey : key ∈ K) (htouch : Touches key log log')
    (hadd : Added key (H key).tip w.value w.time log log')
    (ha : History.Addressable (H key ++ [w])) :
    ∀ k ∈ K, Exact log'.disk log.root k (if H k = [] then log.fanout else F k)
      (Function.update H key (H key ++ [w]) k) := by
  intro k hk
  by_cases hkk : k = key
  · subst hkk
    rw [Function.update_self]
    exact (hx k hk).added hadd ha
  · rw [Function.update_of_ne hkk]
    exact (hx k hk).congr (fun folder hf => htouch.frame _ (not_territory hK hk hkey hkk hf))
      fun hne => (if_neg hne).symm

/-! ## Calls -/

/-- Opening a log makes no files and changes none. -/
theorem of_openAt {capacity : Nat} {flush : FlushPolicy} {tally : Tally}
    (h : openAt t root fanout capacity flush tally = (.ok log, t')) :
    log.fanout = fanout ∧ log.root = root ∧
      ∀ p, FileSpot root p → log.disk.get? p = t.get? p := by
  rw [openAt] at h
  split at h
  · cases h
  · rename_i hrun
    cases h
    refine ⟨rfl, rfl, fun p hp => ?_⟩
    have hspot : ∀ folder, IsFolder folder → ¬p <+: root ++ [folder] := fun folder hf =>
      (dirSpot_concat root hf).not_above hp
    have hget : (t.run [.makeDirs (root ++ ["data"]), .makeDirs (root ++ ["index"])]).2.get? p =
        t.get? p := get?_run fun s hs ht => by
        simp only [List.mem_cons, List.not_mem_nil, or_false] at hs
        rcases hs with rfl | rfl
        · exact hspot "data" (.inl rfl) ht
        · exact hspot "index" (.inr rfl) ht
    rwa [hrun] at hget

/-- The key that a call writes to. -/
def Call.target? : Call → Option String
  | .append key _ _ | .appendNow key _ _ => some key
  | _ => none

/-- The fanout of the log after a call. -/
def Call.fanoutAfter (fanout : Nat) : Call → Nat
  | .reopen fanout _ _ => fanout
  | _ => fanout

/-- The fanout of the log when the calls first write to the key, if they do. -/
def firstFanout (key : String) (fanout : Nat) : List Call → Nat
  | [] => fanout
  | c :: cs => if c.target? = some key then fanout else firstFanout key (c.fanoutAfter fanout) cs

/-- The first write to a key is never refused. -/
theorem onHistories_eq_nil (H : String → History) (c : Call) (k : String) :
    (c.onHistories H).2 k = [] ↔ H k = [] ∧ c.target? ≠ some k := by
  have hextend : ∀ key w, (extend H key w).2 k = [] ↔ H k = [] ∧ some key ≠ some k := by
    intro key w
    rw [extend]
    by_cases hkk : k = key
    · simp [hkk]
    · simp [Function.update_of_ne hkk, Ne.symm hkk]
  cases c with
  | append key value t =>
    rw [Call.onHistories]
    cases hl : (H key).getLast? with
    | none => exact hextend key _
    | some l =>
      dsimp only
      split
      · exact hextend key _
      · -- A refused append is not the first one.
        have hne : H key ≠ [] := by
          rintro hnil
          rw [hnil] at hl
          cases hl
        refine ⟨fun hk => ⟨hk, fun he => hne ?_⟩, And.left⟩
        obtain rfl : key = k := Option.some.inj he
        exact hk
  | appendNow key value now =>
    rw [Call.onHistories]
    cases (H key).getLast? with
    | none => exact hextend key _
    | some l => exact hextend key _
  | _ => simp [Call.onHistories, Call.target?]

/-- Where nothing is written, the files are as exact as before. -/
theorem exact_of_files (hx : ∀ k ∈ K, Exact log.disk log.root k (F k) (H k))
    (hg : ∀ p, FileSpot log.root p → log'.disk.get? p = log.disk.get? p) :
    ∀ k ∈ K, Exact log'.disk log.root k (if H k = [] then log.fanout else F k) (H k) :=
  fun k hk => (hx k hk).congr (fun folder _ => hg _ (fileSpot_filePath log.root k folder))
    fun hne => (if_neg hne).symm

theorem OnDisk.tipAt_eq (hd : OnDisk K log.disk log.root H) (hkey : key ∈ K) :
    tipAt log.disk (log.indexPath key) = .ok (H key).tip :=
  congrArg Prod.fst (hd.storedTip_eq hkey)

/-- What a call makes of exact files; a call that writes puts one more write into those of its
    key. -/
structure Steps (K : Set String) (H : String → History) (F : String → Nat) (c : Call)
    (log log' : Log) : Prop where
  fanout : log'.fanout = c.fanoutAfter log.fanout
  exact : ∀ k ∈ K, Exact log'.disk log.root k (if H k = [] then log.fanout else F k)
    ((c.onHistories H).2 k)

theorem Still.steps (hs : Still K H log log')
    (hx : ∀ k ∈ K, Exact log.disk log.root k (F k) (H k)) (hH : (c.onHistories H).2 = H)
    (hfan : ∀ n, c.fanoutAfter n = n) : Steps K H F c log log' := by
  refine ⟨hs.fanout.trans (hfan _).symm, ?_⟩
  rw [hH]
  exact exact_of_files hx fun _ _ => by rw [hs.disk]

/-- A write that is accepted, if the log makes it as it is to be made. -/
theorem Keeps.steps_extend (hk : Keeps K log H) (hK : Distinct K)
    (hx : ∀ k ∈ K, Exact log.disk log.root k (F k) (H k)) (hkey : key ∈ K)
    (hc : c.Admissible K H) (hH : c.onHistories H = extend H key w)
    (hfan : ∀ n, c.fanoutAfter n = n) (htouch : Touches key log (c.run log).2)
    (hadd : ∀ new, (c.run log).1 = .written (.ok new) →
      Added key (H key).tip w.value w.time log (c.run log).2)
    (ha : History.Addressable ((c.onHistories H).2 key)) : Steps K H F c log (c.run log).2 := by
  have hans := (hk.call hK c hc).1
  rw [hH, extend] at hans
  have hadd := hadd _ hans
  have hgrown : (extend H key w).2 key = H key ++ [w] := Function.update_self _ _ _
  rw [hH, hgrown] at ha
  refine ⟨hadd.fanout.trans (hfan _).symm, ?_⟩
  rw [hH]
  exact exact_of_added hx hK hkey htouch hadd ha

/-- Every call keeps the files exact. -/
theorem Keeps.steps (hk : Keeps K log H) (hK : Distinct K)
    (hx : ∀ k ∈ K, Exact log.disk log.root k (F k) (H k)) (c : Call) (hc : c.Admissible K H) :
    Steps K H F c log (c.run log).2 := by
  cases c with
  | append key value t =>
    have htip := hk.onDisk.tipAt_eq hc.1
    have haccept : (Call.append key value t).onHistories H = extend H key ⟨t, value⟩ →
        Steps K H F (.append key value t) log ((Call.append key value t).run log).2 := fun hH =>
      hk.steps_extend hK hx hc.1 hc hH (fun _ => rfl) (touches_append log key value t)
        (fun _ hr => added_of_append htip (Prod.ext (Answer.written.inj hr) rfl)) hc.2
    cases hl : (H key).getLast? with
    | none => exact haccept (by simp only [Call.onHistories, hl])
    | some l =>
      by_cases ht : l.time < t
      · exact haccept (by simp only [Call.onHistories, hl, if_pos ht])
      · -- A write that is no later than the last one is refused, and the history stays.
        obtain ⟨log', href, hs⟩ := hk.append_refused hc.1 hl value ht
        rw [Call.run, href]
        exact hs.steps hx (by simp only [Call.onHistories, hl, if_neg ht]) fun _ => rfl
  | appendNow key value now =>
    have htip := hk.onDisk.tipAt_eq hc.1
    obtain ⟨t, hstamp⟩ := exists_stamp hc.2.2 now
    exact hk.steps_extend hK hx hc.1 hc (Call.onHistories_appendNow hstamp value) (fun _ => rfl)
      (touches_appendNow log key value now)
      (fun _ hr => added_of_appendNow htip hstamp (Prod.ext (Answer.written.inj hr) rfl)) hc.2.1
  | readLatest key =>
    obtain ⟨log', hr, hs⟩ := hk.readLatest hc
    rw [Call.run, hr]
    exact hs.steps hx rfl fun _ => rfl
  | readAsOf key t =>
    obtain ⟨log', hr, hs⟩ := hk.readAsOf hc t
    rw [Call.run, hr]
    exact hs.steps hx rfl fun _ => rfl
  | readRange key first final =>
    obtain ⟨log', hr, hs⟩ := hk.readRange hc first final
    rw [Call.run, hr]
    exact hs.steps hx rfl fun _ => rfl
  | latestTip key =>
    obtain ⟨log', hr, hs⟩ := hk.latestTip hc
    rw [Call.run, hr]
    exact hs.steps hx rfl fun _ => rfl
  | has key => exact ⟨rfl, exact_of_files hx fun _ _ => rfl⟩
  | reopen fanout capacity flush =>
    obtain ⟨log', ho, -, -, hg⟩ := hk.onDisk.openAt fanout capacity flush log.tally
    rw [Call.run, ho]
    exact ⟨(of_openAt ho).1, exact_of_files hx hg⟩

/-! ## Runs -/

/-- Calls keep the files exact. A key that is not written to yet gets the fanout of the log when
    it is. -/
theorem Keeps.exact_after (hk : Keeps K log H) (hK : Distinct K)
    (hx : ∀ k ∈ K, Exact log.disk log.root k (F k) (H k)) (cs : List Call)
    (ha : AllAdmissible K H cs) :
    (log.after cs).root = log.root ∧ ∀ k ∈ K, Exact (log.after cs).disk log.root k
      (if H k = [] then firstFanout k log.fanout cs else F k) (historiesAfter H cs k) := by
  induction cs generalizing log H F with
  | nil => exact ⟨rfl, exact_of_files hx fun _ _ => rfl⟩
  | cons c cs ih =>
    obtain ⟨-, hk', hroot⟩ := hk.call hK c ha.1
    have hs := hk.steps hK hx c ha.1
    obtain ⟨hroot', hx'⟩ := ih hk' (hroot.symm ▸ hs.exact) ha.2
    refine ⟨hroot'.trans hroot, fun k hkK => ?_⟩
    have hkx := hx' k hkK
    rw [hroot, hs.fanout] at hkx
    refine hkx.congr (fun _ _ => rfl) fun _ => ?_
    by_cases hH : H k = []
    · by_cases ht : c.target? = some k
      · rw [if_neg fun h => ((onHistories_eq_nil H c k).1 h).2 ht, if_pos hH, if_pos hH,
          firstFanout, if_pos ht]
      · rw [if_pos ((onHistories_eq_nil H c k).2 ⟨hH, ht⟩), if_pos hH, firstFanout, if_neg ht]
    · rw [if_neg fun h => hH ((onHistories_eq_nil H c k).1 h).1, if_neg hH, if_neg hH]

theorem after_append (log : Log) (cs cs' : List Call) :
    log.after (cs ++ cs') = (log.after cs).after cs' := by
  induction cs generalizing log with
  | nil => rfl
  | cons c cs ih => exact ih _

theorem historiesAfter_append (H : String → History) (cs cs' : List Call) :
    historiesAfter H (cs ++ cs') = historiesAfter (historiesAfter H cs) cs' := by
  induction cs generalizing H with
  | nil => rfl
  | cons c cs ih => exact ih _

theorem allAdmissible_append (H : String → History) (cs cs' : List Call) :
    AllAdmissible K H (cs ++ cs') ↔
      AllAdmissible K H cs ∧ AllAdmissible K (historiesAfter H cs) cs' := by
  induction cs generalizing H with
  | nil => simp [AllAdmissible, historiesAfter]
  | cons c cs ih => simp [AllAdmissible, historiesAfter, ih, and_assoc]

/-- A call that writes to the key puts its value behind the others, if it is not refused. -/
theorem onHistories_of_ok {tip : Index.Tip}
    (hc : c = .append key value time ∨ c = .appendNow key value time)
    (hok : (c.onHistories H).1 = .written (.ok tip)) :
    ∃ w, w.value = value ∧ (c.onHistories H).2 key = H key ++ [w] := by
  have hextend : ∀ t, (extend H key ⟨t, value⟩).2 key = H key ++ [⟨t, value⟩] := fun t =>
    Function.update_self _ _ _
  rcases hc with rfl | rfl
  · rw [Call.onHistories] at hok ⊢
    cases hl : (H key).getLast? with
    | none => exact ⟨_, rfl, hextend time⟩
    | some l =>
      by_cases ht : l.time < time
      · exact ⟨⟨time, value⟩, rfl, by simp only [if_pos ht, hextend]⟩
      · simp only [hl, if_neg ht] at hok
        cases hok
  · rw [Call.onHistories]
    cases (H key).getLast? with
    | none => exact ⟨_, rfl, hextend time⟩
    | some l => exact ⟨_, rfl, hextend _⟩

theorem two_le_firstFanout (hf : 2 ≤ fanout) {cs : List Call}
    (hcs : ∀ f capacity flush, Call.reopen f capacity flush ∈ cs → 2 ≤ f) :
    2 ≤ firstFanout key fanout cs := by
  induction cs generalizing fanout with
  | nil => exact hf
  | cons c cs ih =>
    rw [firstFanout]
    split
    · exact hf
    · refine ih ?_ fun f capacity flush h => hcs f capacity flush (List.mem_cons_of_mem _ h)
      cases c with
      | reopen f capacity flush => exact hcs f capacity flush List.mem_cons_self
      | _ => exact hf

/-- The file of entries is written as it is read, but for a fanout below two. -/
theorem encode_of_decode_file {y : Index} (hf : 2 ≤ fanout) {es : List Index.Entry}
    (h : Index.decode (Index.file fanout es) = .ok y) : y.encode = Index.file fanout es := by
  have hmax : max (min fanout 65535) 2 = min fanout 65535 := by omega
  rw [Index.encode_of_decode h, Index.withLeastFanout, Index.fanoutIn_file, hmax, Index.take_file,
    Index.drop_file, Index.file, Index.encodeHeader]
  simp

/-! ## Images -/

/-- The files of the key hold its values, and the header and the records of an index with the
    fanout. The index is written as it is read. -/
structure Image (log : Log) (key : String) (fanout : Nat) (h : History) : Prop where
  data : log.disk.get? (log.dataPath key) = some (.file (h.flatMap (·.value)))
  index : log.disk.get? (log.indexPath key) =
    some (.file (Index.encodeHeader fanout ++ h.entries.flatMap Index.encodeRecord))
  encoded : ∃ x, (log.loadIndex key).1 = .ok (some x) ∧
    log.disk.get? (log.indexPath key) = some (.file x.encode)

/-- The two files of the key differ by bytes at their ends; those of the data file are the value. -/
structure Lengthened (key : String) (value : Bytes) (log log' : Log) : Prop where
  data : ∃ old, HoldsBytes log.disk (log.dataPath key) old ∧
    log'.disk.get? (log.dataPath key) = some (.file (old ++ value))
  index : ∃ old more, HoldsBytes log.disk (log.indexPath key) old ∧
    log'.disk.get? (log.indexPath key) = some (.file (old ++ more))

theorem Exact.image (hx : Exact log.disk log.root key fanout h) (hd : OnDisk K log.disk log.root H)
    (hkey : key ∈ K) (hh : H key = h) (hne : h ≠ []) (hf : 2 ≤ fanout) :
    Image log key fanout h := by
  obtain ⟨x, hload, hx' | ⟨y, rfl, -⟩⟩ := hd.exists_loadIndex hkey
  · exact absurd (hh.symm.trans hx'.2) hne
  · refine ⟨hx.data hne, hx.index hne, y, congrArg Prod.fst hload, ?_⟩
    have hread := read_of_get? (hd.rooted_of_some (hx.index hne)) (hx.index hne)
    have hdec : indexAt log.disk (filePath log.root key "index") = .ok (some y) :=
      congrArg Prod.fst hload
    rw [indexAt, hread] at hdec
    dsimp only at hdec
    split at hdec
    · cases hdec
    · rename_i x hdec'
      obtain rfl : x = y := Option.some.inj (Except.ok.inj hdec)
      rw [encode_of_decode_file hf hdec']
      exact hx.index hne

/-- An empty directory holds the files of keys that nothing was written to. -/
theorem Vacant.exact {capacity : Nat} {flush : FlushPolicy} {tally : Tally} (hv : Vacant t root)
    (h : Log.openAt t root fanout capacity flush tally = (.ok log, t')) (key : String) :
    Exact log.disk log.root key fanout [] := by
  obtain ⟨-, hroot, hget⟩ := of_openAt h
  refine ⟨fun _ folder _ => ?_, fun hne => absurd rfl hne, fun hne => absurd rfl hne⟩
  have hspot := fileSpot_filePath root key folder
  rw [hroot, hget _ hspot]
  refine hv.vacant _ hspot.root_above fun he => hspot.not_above_root ?_
  rw [he]

/-- Exact files grow at their ends when a write is put behind the others. -/
theorem Exact.lengthened (hx : Exact log.disk log.root key fanout h)
    (hx' : Exact log'.disk log.root key (if h = [] then fanout' else fanout) (h ++ [w])) :
    Lengthened key w.value log log' := by
  have hne : h ++ [w] ≠ [] := by simp
  have hdata := hx'.data hne
  have hindex := hx'.index hne
  rw [History.bytes_append, History.bytes_singleton] at hdata
  rw [← file_entries_concat] at hindex
  by_cases hnil : h = []
  · subst hnil
    exact ⟨⟨[], .inr ⟨hx.missing rfl _ (.inl rfl), rfl⟩, hdata⟩,
      ⟨[], _, .inr ⟨hx.missing rfl _ (.inr rfl), rfl⟩, hindex⟩⟩
  · rw [if_neg hnil] at hindex
    exact ⟨⟨_, .inl (hx.data hnil), hdata⟩, ⟨_, _, .inl (hx.index hnil), hindex⟩⟩

/-- After a write to a log that was opened on an empty directory, with any calls in between, the
    files of the key hold its values and an index of them, and no other bytes; and the write has
    made them longer and nothing else. -/
theorem image_of_append (hv : Vacant t root) (hK : Distinct K) {capacity : Nat}
    {flush : FlushPolicy} {tally : Tally}
    (hopen : openAt t root fanout capacity flush tally = (.ok log, t')) (hf : 2 ≤ fanout)
    (cs : List Call) (hcs : ∀ f capacity flush, Call.reopen f capacity flush ∈ cs → 2 ≤ f)
    (ha : AllAdmissible K (fun _ => []) (cs ++ [c]))
    (hc : c = .append key value time ∨ c = .appendNow key value time) {new : Index.Tip}
    (hok : (c.run (log.after cs)).1 = .written (.ok new)) :
    Image (log.after (cs ++ [c])) key (firstFanout key fanout (cs ++ [c]))
        (historiesAfter (fun _ => []) (cs ++ [c]) key) ∧
      Lengthened key value (log.after cs) (log.after (cs ++ [c])) := by
  obtain ⟨hacs, hac, -⟩ := (allAdmissible_append _ cs [c]).1 ha
  have hkey : key ∈ K := by
    rcases hc with rfl | rfl
    · exact hac.1
    · exact hac.1
  obtain ⟨log₀, ho, hk, -⟩ := hv.openAt (K := K) fanout capacity flush tally
  obtain rfl : log₀ = log := Except.ok.inj (Prod.mk.inj (ho.symm.trans hopen)).1
  have hx : ∀ k ∈ K, Exact log₀.disk log₀.root k fanout [] := fun k _ => hv.exact hopen k
  obtain ⟨hroot, hx₁⟩ := hk.exact_after hK hx cs hacs
  obtain ⟨hroot', hx₂⟩ := hk.exact_after hK hx (cs ++ [c]) ha
  have hk₁ := (hk.calls hK cs hacs).2
  have hk₂ := (hk.calls hK (cs ++ [c]) ha).2
  obtain ⟨w, rfl, hw⟩ := onHistories_of_ok hc ((hk₁.call hK c hac).1.symm.trans hok)
  have hH : historiesAfter (fun _ => []) (cs ++ [c]) key =
      historiesAfter (fun _ => []) cs key ++ [w] := by
    rw [historiesAfter_append]
    exact hw
  constructor
  · have hx₂ := hx₂ key hkey
    rw [if_pos rfl, (of_openAt hopen).1, ← hroot'] at hx₂
    refine hx₂.image hk₂.onDisk hkey rfl (by simp [hH]) (two_le_firstFanout hf ?_)
    intro f capacity flush hmem
    rcases List.mem_append.1 hmem with hmem | hmem
    · exact hcs f capacity flush hmem
    · rw [← List.mem_singleton.1 hmem] at hc
      simp at hc
  · rw [after_append]
    rw [← hroot] at hx₁
    have hstep := (hk₁.steps hK hx₁ c hac).exact key hkey
    rw [hw] at hstep
    exact (hx₁ key hkey).lengthened hstep

theorem run_appendNow (log : Log) (key : String) (value : Bytes) (now : Time) :
    ((Call.appendNow key value now).run log).1 = .written (log.appendNow key value now).1 :=
  rfl

/-- A write that is refused, a tombstone and a reopening with another fanout. -/
def sampleGrowth : List Call :=
  [.append "a" [1, 2] 5, .append "a" [4] 5, .appendNow "a" [] 5, .reopen 3 1 .always]

theorem image_of_append_sampleGrowth :
    AllAdmissible {"a"} (fun _ => []) (sampleGrowth ++ [.appendNow "a" [6] 2]) ∧
      ((freshLog.after sampleGrowth).appendNow "a" [6] 2).1 = .ok ⟨7, 2, 3⟩ ∧
      Image (freshLog.after (sampleGrowth ++ [.appendNow "a" [6] 2])) "a"
          (firstFanout "a" 2 (sampleGrowth ++ [.appendNow "a" [6] 2]))
          (historiesAfter (fun _ => []) (sampleGrowth ++ [.appendNow "a" [6] 2]) "a") ∧
        Lengthened "a" [6] (freshLog.after sampleGrowth)
          (freshLog.after (sampleGrowth ++ [.appendNow "a" [6] 2])) := by
  have hopen : openAt .empty ["logs"] 2 1 .batch .zero = (.ok freshLog, freshLog.disk) := rfl
  have ha : AllAdmissible {"a"} (fun _ => []) (sampleGrowth ++ [.appendNow "a" [6] 2]) := by
    refine ⟨⟨rfl, ?_⟩, ⟨rfl, ?_⟩, ⟨rfl, ?_, ?_⟩, trivial, ⟨rfl, ?_, ?_⟩, trivial⟩
    case refine_4 | refine_6 =>
      rintro l ⟨⟩
      decide
    all_goals decide
  have hok : ((freshLog.after sampleGrowth).appendNow "a" [6] 2).1 = .ok ⟨7, 2, 3⟩ := by
    decide +kernel
  refine ⟨ha, hok, image_of_append (vacant_empty _) (Set.injOn_singleton _ _) hopen (by decide)
    sampleGrowth ?_ ha (.inr rfl) ((run_appendNow _ _ _ _).trans (congrArg Answer.written hok))⟩
  intro f capacity flush h
  obtain ⟨rfl, -⟩ := by simpa [sampleGrowth] using h
  decide

end ReplicaRing.Log
