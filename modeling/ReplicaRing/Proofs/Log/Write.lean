import ReplicaRing.Proofs.Log.Read

/-!
# What a write does to the files

A write runs nine steps. All but the last leave the histories on disk as they are, whether
they are carried out or cut off within (`Log.Goes`): they add to the data file behind the
bytes that the index tells of (`Log.goes_data`), and build the new index file under the name
of a temporary one. The last step moves it to its place, and with it the history of the key
is longer by the write (`Log.goes_index`).
-/

namespace ReplicaRing.Log

open FileTree

variable {K : Set String} {H : String → History} {t t₁ : FileTree} {root p : Path} {key : String}
  {Q : FileTree → Prop} {s : Step} {ss : List Step}

/-- The steps can be carried out, `Q` is true then, and wherever they are cut off before the
    end the files tell the histories `H`. -/
def Goes (K : Set String) (root : Path) (H : String → History) (t : FileTree) (ss : List Step)
    (Q : FileTree → Prop) : Prop :=
  ∃ t', t.run ss = (.ok (), t') ∧ Q t' ∧
    ∀ t'' rest, Interrupted t ss t'' rest → rest ≠ [] → OnDisk K t'' root H

theorem Goes.nil (h : Q t) : Goes K root H t [] Q := by
  refine ⟨t, rfl, h, fun t'' rest hi hne => ?_⟩
  cases hi
  exact absurd rfl hne

theorem Goes.cons (hd : OnDisk K t root H) (hs : s.apply t = .ok t₁)
    (hpart : ∀ t'', Part t s t'' → OnDisk K t'' root H) (h : Goes K root H t₁ ss Q) :
    Goes K root H t (s :: ss) Q := by
  obtain ⟨t', hrun, hQ, hcut⟩ := h
  refine ⟨t', by rw [run_cons_of_apply hs, hrun], hQ, fun t'' rest hi hne => ?_⟩
  cases hi with
  | here => exact hd
  | within hp => exact hpart t'' hp
  | after hs' hi =>
    rw [hs] at hs'
    cases hs'
    exact hcut t'' rest hi hne

theorem Goes.mono {Q' : FileTree → Prop} (h : Goes K root H t ss Q) (hQ : ∀ t', Q t' → Q' t') :
    Goes K root H t ss Q' := by
  obtain ⟨t', hrun, h', hcut⟩ := h
  exact ⟨t', hrun, hQ t' h', hcut⟩

theorem Goes.append {ss' : List Step} {Q' : FileTree → Prop} (h : Goes K root H t ss Q)
    (h' : ∀ t', Q t' → Goes K root H t' ss' Q') : Goes K root H t (ss ++ ss') Q' := by
  obtain ⟨t₁, hrun, hQ, hcut⟩ := h
  obtain ⟨t₂, hrun', hQ', hcut'⟩ := h' t₁ hQ
  refine ⟨t₂, by rw [run_append, hrun]; exact hrun', hQ', fun t'' rest hi hne => ?_⟩
  rcases hi.append_cases with ⟨r, hr, hi⟩ | ⟨t₁', hrun'', hi⟩
  · exact hcut t'' r hi hr
  · rw [hrun, Prod.mk.injEq] at hrun''
    exact hcut' t'' rest (hrun''.2 ▸ hi) hne

/-! ## Steps -/

theorem Goes.makeDirs (hd : OnDisk K t root H) (hp : DirSpot root p)
    (h : ∀ t₁, t.Makes p t₁ → OnDisk K t₁ root H → Goes K root H t₁ ss Q) :
    Goes K root H t (.makeDirs p :: ss) Q := by
  have hc := hd.layout.clear hp
  obtain ⟨t₁, ht₁, hm⟩ := apply_makeDirs hc
  refine .cons hd ht₁ (fun t'' hpart => ?_) (h t₁ hm (hd.makes hp hm))
  cases hpart with
  | makeDirs i ht'' =>
    have hi := List.take_prefix i p
    obtain ⟨t₂, ht₂, hm'⟩ := exists_makeDirs (hc.mono hi)
    rw [ht₂, Except.ok.injEq] at ht''
    exact ht'' ▸ hd.makes (hp.upward hi) hm'

theorem Goes.create (hd : OnDisk K t root H) (hK : Distinct K) (hkey : key ∈ K)
    (hr : t.Rooted (filePath root key "data"))
    (h : ∀ t₁ junk, t₁.get? (filePath root key "data") = some (.file ((H key).bytes ++ junk)) →
      t₁.Rooted (filePath root key "data") → OnDisk K t₁ root H → Goes K root H t₁ ss Q) :
    Goes K root H t (.create (filePath root key "data") :: ss) Q := by
  have hnd := hd.layout.ne_dir (fileSpot_filePath root key "data")
  obtain ⟨t₁, ht₁, hw⟩ := apply_create hr hnd
  have hr₁ := hr.writes hnd hw
  obtain ⟨junk, hw⟩ : ∃ junk,
      t.Writes (filePath root key "data") ((H key).bytes ++ junk) t₁ := by
    rcases (hd.stored key hkey).data with ⟨hg, hh⟩ | ⟨junk, hg⟩
    · rw [hg] at hw
      exact ⟨[], by rwa [hh]⟩
    · rw [hg] at hw
      exact ⟨junk, hw⟩
  exact .cons hd ht₁ nofun (h t₁ junk hw.get?_self hr₁ (hd.writes_data hK hkey hr hw))

/-- The steps on the data file put a value right behind the bytes of the history. -/
theorem goes_data (hd : OnDisk K t root H) (hK : Distinct K) (hkey : key ∈ K) (value : Bytes) :
    Goes K root H t
      (dataSteps (filePath root key "data") (UInt64.ofNat (H key).bytes.length) value)
      fun t' => OnDisk K t' root H ∧
        t'.get? (filePath root key "data") = some (.file ((H key).bytes ++ value)) := by
  have ha := (hd.stored key hkey).addressable
  refine .makeDirs hd (dirSpot_folderOf root key (.inl rfl)) fun t₁ hm hd₁ => ?_
  have hr₁ : t₁.Rooted (filePath root key "data") := by
    rw [filePath_eq]
    exact hm.rooted
  refine .create hd₁ hK hkey hr₁ fun t₂ junk hg₂ hr₂ hd₂ => ?_
  have hlen : (UInt64.ofNat (H key).bytes.length).toNat = (H key).bytes.length :=
    UInt64.toNat_ofNat_of_lt' ha
  have hnd : ∀ {t : FileTree} {bs : Bytes}, t.get? (filePath root key "data") = some (.file bs) →
      t.get? (filePath root key "data") ≠ some .dir := fun h => by
    rw [h]
    nofun
  obtain ⟨t₃, ht₃, hw₃⟩ := apply_cut hr₂ hg₂ (n := (H key).bytes.length) (by simp)
  rw [List.take_left] at hw₃
  rw [← hlen] at ht₃
  have hr₃ := hr₂.writes (hnd hg₂) hw₃
  have hw : t₂.Writes (filePath root key "data") ((H key).bytes ++ []) t₃ := by
    rwa [List.append_nil]
  have hd₃ : OnDisk K t₃ root H := hd₂.writes_data hK hkey hr₂ hw
  refine .cons hd₂ ht₃ nofun ?_
  obtain ⟨t₄, ht₄, hw₄⟩ := apply_add hr₃ hw₃.get?_self value
  refine .cons hd₃ ht₄ (fun t'' hpart => ?_)
    (.nil ⟨hd₃.writes_data hK hkey hr₃ hw₄, hw₄.get?_self⟩)
  -- Some of the bytes of the value are there.
  cases hpart with
  | add i ht'' =>
    obtain ⟨t₅, ht₅, hw₅⟩ := apply_add hr₃ hw₃.get?_self (value.take i)
    rw [ht₅, Except.ok.injEq] at ht''
    exact ht'' ▸ hd₃.writes_data hK hkey hr₃ hw₅

/-- In directories that are there, an index file is put together under the name of a temporary
    one and then moved to its place. -/
theorem goes_indexSteps (hd : OnDisk K t root H) (key : String) (old : Bytes) (e : Index.Entry)
    (i : Nat) (hr : t.Rooted (tempName (filePath root key "index") i))
    (hri : t.Rooted (filePath root key "index")) :
    Goes K root H t
      (indexSteps (tempName (filePath root key "index") i) (filePath root key "index") old e)
      fun t' => ∃ t₁, OnDisk K t₁ root H ∧ t₁.Rooted (filePath root key "index") ∧
        t₁.get? (filePath root key "data") = t.get? (filePath root key "data") ∧
        t₁.Moves (tempName (filePath root key "index") i) (filePath root key "index")
          (old ++ Index.encodeRecord e) t' := by
  set temp := tempName (filePath root key "index") i
  have hdt : filePath root key "data" ≠ temp := (tempName_ne_filePath root key key i (.inl rfl)).symm
  have htd : ∀ {t : FileTree}, OnDisk K t root H → t.get? temp ≠ some .dir := fun hd =>
    hd.layout.ne_dir (fileSpot_tempName root key "index" i)
  obtain ⟨t₂, ht₂, hw₂⟩ := apply_clear hr (htd hd)
  have hr₂ := hr.writes (htd hd) hw₂
  have hd₂ := hd.writes_temp hr hw₂
  refine .cons hd ht₂ nofun ?_
  -- Whatever bytes are in the temporary file, the histories are the same.
  have hpart : ∀ {t t'' : FileTree} {bs more : Bytes}, OnDisk K t root H → t.Rooted temp →
      t.get? temp = some (.file bs) → Part t (.add temp more) t'' → OnDisk K t'' root H := by
    intro t t'' bs more hd hr hg hpart
    cases hpart with
    | add j ht'' =>
      obtain ⟨t', ht', hw⟩ := apply_add hr hg (more.take j)
      rw [ht', Except.ok.injEq] at ht''
      exact ht'' ▸ hd.writes_temp hr hw
  obtain ⟨t₃, ht₃, hw₃⟩ := apply_add hr₂ hw₂.get?_self old
  rw [List.nil_append] at hw₃
  have hr₃ := hr₂.writes (htd hd₂) hw₃
  have hd₃ := hd₂.writes_temp hr₂ hw₃
  refine .cons hd₂ ht₃ (fun t'' h => hpart hd₂ hr₂ hw₂.get?_self h) ?_
  obtain ⟨t₄, ht₄, hw₄⟩ := apply_add hr₃ hw₃.get?_self (Index.encodeRecord e)
  have hr₄ := hr₃.writes (htd hd₃) hw₄
  have hd₄ := hd₃.writes_temp hr₃ hw₄
  refine .cons hd₃ ht₄ (fun t'' h => hpart hd₃ hr₃ hw₃.get?_self h) ?_
  have hri₄ := ((hri.writes (htd hd) hw₂).writes (htd hd₂) hw₃).writes (htd hd₃) hw₄
  have hdata₄ : t₄.get? (filePath root key "data") = t.get? (filePath root key "data") := by
    rw [hw₄.get?_of_ne hdt, hw₃.get?_of_ne hdt, hw₂.get?_of_ne hdt]
  obtain ⟨t₅, ht₅, hm₅⟩ := apply_rename hr₄ hri₄ hw₄.get?_self
    (hd₄.layout.ne_dir (fileSpot_filePath root key "index"))
  exact .cons hd₄ ht₅ nofun (.nil ⟨t₄, hd₄, hri₄, hdata₄, hm₅⟩)

theorem rooted_of_dirs {folder : String}
    (hd : ∀ q, q <+: folderOf (filePath root key folder) → t.get? q = some .dir) :
    t.Rooted (filePath root key folder) := by
  rw [filePath_eq]
  exact rooted_concat hd

theorem rooted_tempName (hd : ∀ q, q <+: folderOf (filePath root key "index") → t.get? q = some .dir)
    (i : Nat) : t.Rooted (tempName (filePath root key "index") i) := by
  rw [tempName_filePath]
  exact rooted_concat hd

/-- The steps on the index file put together a file under the name of a temporary one, and then
    move it to its place. -/
theorem goes_record (hd : OnDisk K t root H) (key : String) (old : Bytes) (e : Index.Entry)
    (i : Nat) :
    Goes K root H t (.makeDirs (folderOf (filePath root key "index")) ::
      indexSteps (tempName (filePath root key "index") i) (filePath root key "index") old e)
      fun t' => ∃ t₁, OnDisk K t₁ root H ∧ t₁.Rooted (filePath root key "index") ∧
        t₁.get? (filePath root key "data") = t.get? (filePath root key "data") ∧
        t₁.Moves (tempName (filePath root key "index") i) (filePath root key "index")
          (old ++ Index.encodeRecord e) t' := by
  refine .makeDirs hd (dirSpot_folderOf root key (.inr rfl)) fun t₁ hm hd₁ => ?_
  have hdata : t₁.get? (filePath root key "data") = t.get? (filePath root key "data") :=
    hm.get?_of_not_above ((dirSpot_folderOf root key (.inr rfl)).not_above
      (fileSpot_filePath root key "data"))
  have hdirs : ∀ q, q <+: folderOf (filePath root key "index") → t₁.get? q = some .dir :=
    fun q hq => by rw [hm q, if_pos hq]
  rw [← hdata]
  exact goes_indexSteps hd₁ key old e i (rooted_tempName hdirs i) (rooted_of_dirs hdirs)

/-- The entries of a history as they stand in its index file, and one more. -/
theorem file_entries_concat (h : History) (w : Write) (fanout : Nat) :
    Index.file fanout h.entries ++ Index.encodeRecord
      ⟨w.time, UInt64.ofNat (History.bytes (h ++ [w])).length⟩ =
    Index.file fanout (History.entries (h ++ [w])) := by
  rw [← Index.file_concat, ← History.entries_concat]

/-- The move of an index file that has a record more makes the history of the key longer by the
    write `w`, if it is later than the others and its value is there. -/
theorem OnDisk.moves_record {i fanout : Nat} {w : Write} (hd : OnDisk K t root H) (hK : Distinct K)
    (hkey : key ∈ K) (ho : History.Ordered (H key ++ [w]))
    (ha : History.Addressable (H key ++ [w])) (hr : t.Rooted (filePath root key "index"))
    (hdata : t.get? (filePath root key "data") = some (.file ((H key).bytes ++ w.value)))
    (hm : t.Moves (tempName (filePath root key "index") i) (filePath root key "index")
      (Index.file fanout (H key).entries ++ Index.encodeRecord
        ⟨w.time, UInt64.ofNat (History.bytes (H key ++ [w])).length⟩) t₁) :
    OnDisk K t₁ root (Function.update H key (H key ++ [w])) := by
  rw [file_entries_concat] at hm
  have hdata' : t.get? (filePath root key "data") =
      some (.file (History.bytes (H key ++ [w]) ++ [])) := by
    rw [hdata, History.bytes_append, History.bytes_singleton, List.append_nil]
  exact hd.moves_index hK hkey ho ha hr hdata' hm

/-- The steps on the index file, when the value `w` is already there, end with the history of
    the key longer by `w`. -/
theorem goes_index (hd : OnDisk K t root H) (hK : Distinct K) (hkey : key ∈ K) {w : Write}
    (ho : History.Ordered (H key ++ [w])) (ha : History.Addressable (H key ++ [w]))
    (hdata : t.get? (filePath root key "data") = some (.file ((H key).bytes ++ w.value)))
    (i fanout : Nat) :
    Goes K root H t (.makeDirs (folderOf (filePath root key "index")) ::
      indexSteps (tempName (filePath root key "index") i) (filePath root key "index")
        (Index.file fanout (H key).entries)
        ⟨w.time, UInt64.ofNat (History.bytes (H key ++ [w])).length⟩)
      fun t' => OnDisk K t' root (Function.update H key (H key ++ [w])) := by
  refine (goes_record hd key _ _ i).mono ?_
  rintro t' ⟨t₁, hd₁, hr, hdata₁, hm⟩
  exact hd₁.moves_record hK hkey ho ha hr (hdata₁.trans hdata) hm

/-! ## Writing a key -/

/-- The steps of writing `value` at time `t` behind the value that `tip` tells of. The name of
    the temporary file and what is copied into it depend on the files at the moment the
    index is turned to. -/
def writeSteps (log : Log) (key : String) (tip : Option Index.Tip) (value : Bytes) (t : Time) :
    List Step :=
  let start := startBehind tip
  let data := dataSteps (log.dataPath key) start value
  let path := log.indexPath key
  let disk := (log.disk.run (data ++ [.makeDirs (folderOf path)])).2
  let old := match { log with disk }.indexBase path tip.isSome with
    | .ok old => old
    | .error _ => []
  data ++ .makeDirs (folderOf path) ::
    indexSteps (disk.freshTemp path) path old ⟨t, start + UInt64.ofNat value.length⟩

variable {log : Log} {w : Write}

/-- The steps depend on nothing but the files. -/
theorem Still.writeSteps_eq {log' : Log} (h : Still K H log log') (key : String)
    (tip : Option Index.Tip) (value : Bytes) (t : Time) :
    log'.writeSteps key tip value t = log.writeSteps key tip value t := by
  simp only [writeSteps, dataPath, indexPath, indexBase, h.disk, h.root, h.fanout]

/-- A history ends where its tip does. -/
theorem startBehind_tip (h : History) : startBehind h.tip = UInt64.ofNat h.bytes.length := by
  rcases List.eq_nil_or_concat h with rfl | ⟨h, w, rfl⟩
  · rfl
  · rw [List.concat_eq_append, History.tip_concat]
    rfl

/-- The index file is read off the disk, or begun, with the entries of the history. -/
theorem indexBase_eq (log : Log) (hd : OnDisk K log.disk log.root H) (hkey : key ∈ K) :
    ∃ fanout, log.indexBase (filePath log.root key "index") (H key).tip.isSome =
      .ok (Index.file fanout (H key).entries) := by
  rw [indexBase]
  rcases (hd.stored key hkey).index with ⟨-, hnil⟩ | ⟨hne, fanout, hg⟩
  · exact ⟨log.fanout, by rw [hnil]; simp [Index.file]⟩
  · have hsome : (H key).tip.isSome = true := by
      rw [Option.isSome_iff_ne_none, ne_eq, History.tip_eq_none]
      exact hne
    have hr := hd.layout.rooted _ (fileSpot_filePath log.root key "index").root_above (by simp [hg])
    exact ⟨fanout, by rw [if_pos hsome, read_of_get? hr hg]⟩

/-- The files go from the histories before the write to those after it. -/
theorem Keeps.goes_write (hk : Keeps K log H) (hK : Distinct K) (hkey : key ∈ K)
    (ho : History.Ordered (H key ++ [w])) (ha : History.Addressable (H key ++ [w])) :
    Goes K log.root H log.disk (log.writeSteps key (H key).tip w.value w.time)
      fun t' => OnDisk K t' log.root (Function.update H key (H key ++ [w])) := by
  have hdata := goes_data hk.onDisk hK hkey w.value
  obtain ⟨t₁, hrun, ⟨hd₁, hg₁⟩, hcut⟩ := id hdata
  obtain ⟨t₂, ht₂, hm⟩ := apply_makeDirs (hd₁.layout.clear (dirSpot_folderOf log.root key (.inr rfl)))
  have hd₂ := hd₁.makes (dirSpot_folderOf log.root key (.inr rfl)) hm
  obtain ⟨fanout, hold⟩ := indexBase_eq { log with disk := t₂ } hd₂ hkey
  have hrun₂ : log.disk.run (dataSteps (log.dataPath key) (UInt64.ofNat (H key).bytes.length)
      w.value ++ [.makeDirs (folderOf (log.indexPath key))]) = (.ok (), t₂) := by
    rw [run_append, dataPath, hrun, indexPath]
    exact run_cons_of_apply ht₂
  have hstop : UInt64.ofNat (H key).bytes.length + UInt64.ofNat w.value.length =
      UInt64.ofNat (History.bytes (H key ++ [w])).length := by
    rw [History.bytes_append, History.bytes_singleton, List.length_append, UInt64.ofNat_add]
  simp only [writeSteps, startBehind_tip, hrun₂, hstop]
  rw [indexPath, hold]
  exact hdata.append fun t' h => goes_index h.1 hK hkey ho ha h.2 _ fanout

/-- The time of a tip is before that of a write that may follow. -/
theorem History.time_tip_lt {h : History} {tip : Index.Tip} (ho : History.Ordered (h ++ [w]))
    (ht : h.tip = some tip) : tip.time < w.time := by
  rw [History.tip, Option.map_eq_some_iff] at ht
  obtain ⟨l, hl, rfl⟩ := ht
  exact (List.pairwise_append.1 ho).2.2 l (List.mem_of_getLast? hl) w (List.mem_singleton_self w)

theorem writeData_eq {start : Offset} {value : Bytes} {t : FileTree}
    (h : (log.enter "data_write").disk.run
      (dataSteps ((log.enter "data_write").dataPath key) start value) = (.ok (), t)) :
    log.writeData key start value = (.ok (), { log.enter "data_write" with disk := t }) := by
  simp only [writeData, h]

theorem writeIndex_eq {e : Index.Entry} {hasTip : Bool} {old : Bytes} {t₁ t₂ : FileTree}
    (h₁ : (log.enter "index_write").disk.makeDirs
      (folderOf ((log.enter "index_write").indexPath key)) = .ok t₁)
    (hold : { log.enter "index_write" with disk := t₁ }.indexBase
      ((log.enter "index_write").indexPath key) hasTip = .ok old)
    (h₂ : t₁.run (indexSteps (t₁.freshTemp ((log.enter "index_write").indexPath key))
      ((log.enter "index_write").indexPath key) old e) = (.ok (), t₂)) :
    log.writeIndex key e hasTip = (.ok (), { log.enter "index_write" with disk := t₂ }) := by
  simp only [writeIndex, h₁, hold, h₂]

/-- A write carries out its steps one after the other, as long as none fails. -/
theorem writeSpan_eq {hasTip : Bool} {new : Index.Tip} {value old : Bytes} {t₁ t₂ t₃ : FileTree}
    (h₁ : log.disk.run (dataSteps (log.dataPath key) new.span.start value) = (.ok (), t₁))
    (h₂ : t₁.makeDirs (folderOf (log.indexPath key)) = .ok t₂)
    (hold : { log with disk := t₂ }.indexBase (log.indexPath key) hasTip = .ok old)
    (h₃ : t₂.run (indexSteps (t₂.freshTemp (log.indexPath key)) (log.indexPath key) old
      ⟨new.time, new.span.stop⟩) = (.ok (), t₃)) :
    log.writeSpan key hasTip value new = (.ok new,
      { (log.enter "data_write").enter "index_write" with
        disk := t₃
        cache := log.cache.publish key new }) := by
  have hdata : log.writeData key new.span.start value =
      (.ok (), { log.enter "data_write" with disk := t₁ }) := writeData_eq h₁
  have hindex : { log.enter "data_write" with disk := t₁ }.writeIndex key
      ⟨new.time, new.span.stop⟩ hasTip =
      (.ok (), { (log.enter "data_write").enter "index_write" with disk := t₃ }) :=
    writeIndex_eq h₂ hold h₃
  simp only [writeSpan, hdata, hindex]
  rfl

/-- A value behind a history ends before the words do if its bytes have offsets. -/
theorem wordAfter?_startBehind {h : History} (ha : h.Addressable)
    (hw : History.Addressable (h ++ [w])) : wordAfter? (startBehind h.tip) w.value.length =
      some (UInt64.ofNat (History.bytes (h ++ [w])).length) := by
  rw [startBehind_tip, wordAfter?_of_lt ((History.addressable_concat ha).1 hw),
    History.bytes_append, History.bytes_singleton, List.length_append, UInt64.ofNat_add]

/-- A value whose bytes have none breaks the write off before it touches anything. -/
theorem write_overflow {h : History} (ha : h.Addressable)
    (hw : ¬History.Addressable (h ++ [w])) :
    log.write key h.tip w.value w.time = (.error .overflow, log) := by
  rw [write, startBehind_tip, wordAfter?_eq_none.2 (mt (History.addressable_concat ha).2 hw)]

/-- A write behind the history of a key is carried out, whatever its time: the value is there
    when the index file with a record more is moved to its place. -/
theorem OnDisk.exists_write (hd : OnDisk K log.disk log.root H) (hK : Distinct K) (hkey : key ∈ K)
    (ha : History.Addressable (H key ++ [w])) :
    ∃ tip t₁ t₂ i fanout, tip = ⟨w.time, UInt64.ofNat (H key).bytes.length,
        UInt64.ofNat (History.bytes (H key ++ [w])).length⟩ ∧
      log.write key (H key).tip w.value w.time = (.ok tip,
        { (log.enter "data_write").enter "index_write" with
          disk := t₂
          cache := log.cache.publish key tip }) ∧
      log.disk.run (log.writeSteps key (H key).tip w.value w.time) = (.ok (), t₂) ∧
      OnDisk K t₁ log.root H ∧ t₁.Rooted (filePath log.root key "index") ∧
      t₁.get? (filePath log.root key "data") = some (.file ((H key).bytes ++ w.value)) ∧
      t₁.Moves (tempName (filePath log.root key "index") i) (filePath log.root key "index")
        (Index.file fanout (H key).entries ++ Index.encodeRecord
          ⟨w.time, UInt64.ofNat (History.bytes (H key ++ [w])).length⟩) t₂ := by
  obtain ⟨t₁, h₁, ⟨hd₁, hg₁⟩, -⟩ := goes_data hd hK hkey w.value
  obtain ⟨t₂, h₂, hm⟩ := exists_makeDirs (hd₁.layout.clear (dirSpot_folderOf log.root key (.inr rfl)))
  have hd₂ := hd₁.makes (dirSpot_folderOf log.root key (.inr rfl)) hm
  obtain ⟨fanout, hold⟩ := indexBase_eq { log with disk := t₂ } hd₂ hkey
  have hstop : UInt64.ofNat (H key).bytes.length + UInt64.ofNat w.value.length =
      UInt64.ofNat (History.bytes (H key ++ [w])).length := by
    rw [History.bytes_append, History.bytes_singleton, List.length_append, UInt64.ofNat_add]
  obtain ⟨i, hi⟩ := exists_freshTemp t₂ (filePath log.root key "index")
  obtain ⟨t₃, h₃, ⟨t', hd', hr', hdata', hm'⟩, -⟩ := goes_record hd₁ key
    (Index.file fanout (H key).entries)
    ⟨w.time, UInt64.ofNat (History.bytes (H key ++ [w])).length⟩ i
  have h₂' : (Step.makeDirs (folderOf (filePath log.root key "index"))).apply t₁ = .ok t₂ := by
    rw [Step.apply, h₂]
    rfl
  have h₃' := h₃
  rw [run_cons_of_apply h₂', ← hi] at h₃
  have hrun₂ : log.disk.run (dataSteps (log.dataPath key) (UInt64.ofNat (H key).bytes.length)
      w.value ++ [.makeDirs (folderOf (log.indexPath key))]) = (.ok (), t₂) := by
    rw [run_append, dataPath, h₁, indexPath]
    exact run_cons_of_apply h₂'
  refine ⟨_, t', t₃, i, fanout, rfl, ?_, ?_, hd', hr', hdata'.trans hg₁, hm'⟩
  · rw [write, wordAfter?_startBehind (hd.stored key hkey).addressable ha, startBehind_tip]
    exact writeSpan_eq h₁ h₂ hold h₃
  · simp only [writeSteps, startBehind_tip, hrun₂]
    rw [indexPath, hold, hi, run_append, dataPath, h₁, hstop]
    exact h₃'

theorem Keeps.write (hk : Keeps K log H) (hK : Distinct K) (hkey : key ∈ K)
    (ho : History.Ordered (H key ++ [w])) (ha : History.Addressable (H key ++ [w])) :
    ∃ tip log', log.write key (H key).tip w.value w.time = (.ok tip, log') ∧
      History.tip (H key ++ [w]) = some tip ∧
      Keeps K log' (Function.update H key (H key ++ [w])) ∧ log'.root = log.root ∧
      log'.fanout = log.fanout ∧
      log.disk.run (log.writeSteps key (H key).tip w.value w.time) = (.ok (), log'.disk) := by
  obtain ⟨tip, t₁, t₂, i, fanout, htip, hw, hrun, hd₁, hr₁, hdata₁, hm⟩ :=
    hk.onDisk.exists_write hK hkey ha
  have htip' : History.tip (H key ++ [w]) = some tip := by rw [History.tip_concat, htip]
  refine ⟨tip, _, hw, htip', ⟨hd₁.moves_record hK hkey ho ha hr₁ hdata₁ hm, ?_⟩, rfl, rfl, hrun⟩
  intro k hkK tip' hp
  rcases Cache.of_peek_publish hp with ⟨hne, hp⟩ | ⟨rfl, hp⟩
  · rw [Function.update_of_ne hne]
    exact hk.cached k hkK tip' hp
  · rw [Function.update_self]
    rcases hp with rfl | ⟨hp, hlt⟩
    · exact htip'
    · -- The old tip is earlier than the new one.
      have hbefore := History.time_tip_lt ho (hk.cached k hkK tip' hp)
      rw [htip] at hlt
      exact absurd hbefore hlt

end ReplicaRing.Log
