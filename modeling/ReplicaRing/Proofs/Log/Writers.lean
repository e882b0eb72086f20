import ReplicaRing.Proofs.Log.Readers

/-!
# Writers among others

A writer holds the locks of its key, so that nobody else touches the files of the key while it
goes on. It puts its value behind the bytes of what is committed (`Log.right_data`), builds a new
index file beside the old one and moves it there: with that, its write is committed
(`Log.right_commit`). Only then the cache is told of it: with that, it is published
(`Log.right_publish`).

So a writer that finds a history answers as that history does, and leaves the history that
comes of it (`Log.right_append`).
-/

namespace ReplicaRing.Log

open FileTree

variable {K : Set String} {root p : Path} {key : String} {h : History} {w w' : World}
  {α β : Type} {post : α → World → Prop} {v : Write} {value : Bytes}

/-! ## Accesses -/

/-- The world with other files. -/
def World.onto (w : World) (disk : FileTree) : World := { w with log := { w.log with disk } }

theorem Sound.onto (hs : Sound K root w) {t : FileTree} (ht : OnDisk K t root w.committed) :
    Sound K root (w.onto t) :=
  ⟨hs.root_eq, ht, hs.prefixed, hs.cached⟩

theorem Untouched.writes {log' : Log} (hu : Untouched w.log log') (root : Path) (key : String)
    (value : Bytes) : Writes root key value w { w with log := log' } where
  frame r _ := by
    show log'.disk.get? r = _
    rw [hu.disk]
  dirs r hr := by
    show log'.disk.get? r = _
    rwa [hu.disk]
  others _ _ := ⟨rfl, rfl⟩
  committed := .inl rfl
  published := List.prefix_refl _

/-- What changes only files of the key, and makes no directory a file, is for a writer to do. -/
theorem writes_onto {t : FileTree}
    (hf : ∀ r, ¬Territory root key r → t.get? r = w.log.disk.get? r)
    (hd : ∀ r, w.log.disk.get? r = some .dir → t.get? r = some .dir) :
    Writes root key value w (w.onto t) :=
  ⟨hf, hd, fun _ _ => ⟨rfl, rfl⟩, .inl rfl, List.prefix_refl _⟩

/-- An access of a writer that only looks is right if the rest is. -/
theorem right_write_look {x : Access Log β} {f : β → Plan Log α}
    (h : ∀ w₁, Sound K root w₁ → Around root key w w₁ → Untouched w₁.log (x.run w₁.log).2 ∧
      (writing K root key value).Right post (f (x.run w₁.log).1)
        { w₁ with log := (x.run w₁.log).2 }) :
    (writing K root key value).Right post (Plan.access x >>= f) w :=
  Protocol.right_access_bind fun w₁ hs hr =>
    ⟨{ w₁ with log := (x.run w₁.log).2 }, rfl, hs.untouched (h w₁ hs hr).1,
      (h w₁ hs hr).1.writes root key value, (h w₁ hs hr).2⟩

/-- A step on files is an access. -/
theorem right_attempt {s : Step} {f : Except StepError Unit → Plan Log α}
    (h : ∀ w₁, Sound K root w₁ → Around root key w w₁ → ∃ t w₂, s.apply w₁.log.disk = .ok t ∧
      w₂.log = { w₁.log with disk := t } ∧ Sound K root w₂ ∧ Writes root key value w₁ w₂ ∧
        (writing K root key value).Right post (f (.ok ())) w₂) :
    (writing K root key value).Right post (Plan.access ((attempt s).within diskFocus) >>= f) w := by
  refine Protocol.right_access_bind fun w₁ hs hr => ?_
  obtain ⟨t, w₂, ht, hlog, hs₂, hw, hright⟩ := h w₁ hs hr
  have hrun : ((attempt s).within diskFocus).run w₁.log = (.ok (), { w₁.log with disk := t }) := by
    simp only [Access.within, attempt, diskFocus, ht]
  refine ⟨w₂, ?_, hs₂, hw, ?_⟩
  · show w₂.log = (((attempt s).within diskFocus).run w₁.log).2
    rw [hrun, hlog]
  · show (writing K root key value).Right post (f (((attempt s).within diskFocus).run w₁.log).1) w₂
    rw [hrun]
    exact hright

theorem within_attemptAll_cons (s : Step) (ss : List Step) (v : Focus Log FileTree) :
    (attemptAll (s :: ss)).within v = (Plan.access ((attempt s).within v) >>= fun r =>
      Plan.within v (match r with
        | .ok () => attemptAll ss
        | .error e => pure (.error e))) :=
  rfl

/-! ## Steps -/

/-- The file at `p` has been written, one of the files of the key; the others are as they were. -/
structure Wrote (root : Path) (key : String) (p : Path) (bs : Bytes) (w w' : World) : Prop where
  here : w'.log.disk.get? p = some (.file bs)
  files : ∀ r, OwnFile root key r → r ≠ p → w'.log.disk.get? r = w.log.disk.get? r
  dirs : ∀ r, w.log.disk.get? r = some .dir → w'.log.disk.get? r = some .dir
  committed : w'.committed key = w.committed key
  published : w'.published key = w.published key

/-- The directory that a file of the key is to be in is made. -/
theorem right_makeDirs {folder : String} (hf : IsFolder folder)
    {f : Except StepError Unit → Plan Log α}
    (h : ∀ w₁, Sound K root w₁ → Around root key w w₁ →
      (∀ q, q <+: folderOf (filePath root key folder) → w₁.log.disk.get? q = some .dir) →
      (writing K root key value).Right post (f (.ok ())) w₁) :
    (writing K root key value).Right post (Plan.access ((attempt
      (.makeDirs (folderOf (filePath root key folder)))).within diskFocus) >>= f) w := by
  refine right_attempt fun w₁ hs hr => ?_
  have hspot := dirSpot_folderOf root key hf
  obtain ⟨t, ht, hm⟩ := apply_makeDirs (hs.onDisk.layout.clear hspot)
  have hd : ∀ r, w₁.log.disk.get? r = some .dir → t.get? r = some .dir := fun r hr => by
    rw [hm r, hr, ite_self]
  have hfile : ∀ r, OwnFile root key r → t.get? r = w₁.log.disk.get? r := fun r hr =>
    hm.get?_of_not_above (hspot.not_above hr.fileSpot)
  have hter : ∀ r, ¬Territory root key r → t.get? r = w₁.log.disk.get? r := by
    refine fun r hr => hm.get?_of_not_above fun h => hr ?_
    rcases hf with rfl | rfl
    · exact .dataFolder h
    · exact .indexFolder h
  have hs' := hs.onto (hs.onDisk.makes hspot hm)
  refine ⟨t, w₁.onto t, ht, rfl, hs', writes_onto hter hd, h _ hs' ?_ fun q hq => ?_⟩
  · exact hr.trans ⟨hfile, hd, rfl, rfl⟩
  · exact (hm q).trans (if_pos hq)

/-- A file of the key keeps what is in it while the others go on. -/
theorem Around.file {bs : Bytes} (hr : Around root key w w') (hs : Sound K root w')
    (hp : OwnFile root key p) (hg : w.log.disk.get? p = some (.file bs)) :
    w'.log.disk.get? p = some (.file bs) ∧ w'.log.disk.Rooted p := by
  have hg' := (hr.files p hp).trans hg
  exact ⟨hg', hs.onDisk.layout.rooted _ hp.fileSpot.root_above (by simp [hg'])⟩

/-- A file of the key is written that no index tells of. -/
theorem right_wrote {s : Step} {ss : List Step} {Q : Bytes → Prop}
    {post : Except StepError Unit → World → Prop} (hp : OwnFile root key p)
    (hter : Territory root key p)
    (hs : ∀ w₁, Sound K root w₁ → Around root key w w₁ → ∃ t bs, s.apply w₁.log.disk = .ok t ∧
      w₁.log.disk.Writes p bs t ∧ Q bs ∧ OnDisk K t root w₁.committed)
    (h : ∀ w₁ bs, Sound K root w₁ → Q bs → Wrote root key p bs w w₁ →
      (writing K root key value).Right post ((attemptAll ss).within diskFocus) w₁) :
    (writing K root key value).Right post ((attemptAll (s :: ss)).within diskFocus) w := by
  rw [within_attemptAll_cons]
  refine right_attempt fun w₁ hs₁ hr => ?_
  obtain ⟨t, bs, ht, hw, hQ, hd⟩ := hs w₁ hs₁ hr
  have hdirs : ∀ r, w₁.log.disk.get? r = some .dir → t.get? r = some .dir := by
    intro r hr
    rw [hw.get?_of_ne, hr]
    rintro rfl
    exact hs₁.onDisk.layout.ne_dir hp.fileSpot hr
  have hs₂ := hs₁.onto hd
  refine ⟨t, w₁.onto t, ht, rfl, hs₂, writes_onto (fun r hr => ?_) hdirs, h _ bs hs₂ hQ ⟨hw.get?_self,
    fun r hown hne => ?_, fun r hd => hdirs r (hr.dirs r hd), hr.committed, hr.published⟩⟩
  · exact hw.get?_of_ne fun h => hr (h ▸ hter)
  · exact (hw.get?_of_ne hne).trans (hr.files r hown)

/-- The data file is made if it is missing. It begins with the bytes of what is committed. -/
theorem right_create (hK : Distinct K) (hkey : key ∈ K) (hw : w.committed key = h)
    (hdirs : ∀ q, q <+: folderOf (filePath root key "data") → w.log.disk.get? q = some .dir)
    {ss : List Step} {post : Except StepError Unit → World → Prop}
    (hnext : ∀ w₁ junk, Sound K root w₁ →
      Wrote root key (filePath root key "data") (h.bytes ++ junk) w w₁ →
      (writing K root key value).Right post ((attemptAll ss).within diskFocus) w₁) :
    (writing K root key value).Right post
      ((attemptAll (.create (filePath root key "data") :: ss)).within diskFocus) w := by
  refine right_wrote (Q := fun bs => ∃ junk, bs = h.bytes ++ junk) .data (.data rfl)
    (fun w₁ hs₁ hr₁ => ?_) fun w₁ bs hs₁ hQ hwr₁ => hQ.elim fun junk hQ =>
      hnext w₁ junk hs₁ (hQ ▸ hwr₁)
  have hcom : w₁.committed key = h := hr₁.committed.trans hw
  have hroot : w₁.log.disk.Rooted (filePath root key "data") :=
    rooted_of_dirs fun q hq => hr₁.dirs q (hdirs q hq)
  obtain ⟨t, ht, hwr⟩ := apply_create hroot
    (hs₁.onDisk.layout.ne_dir (fileSpot_filePath root key "data"))
  obtain ⟨junk, hwr⟩ : ∃ junk,
      w₁.log.disk.Writes (filePath root key "data") ((w₁.committed key).bytes ++ junk) t := by
    rcases (hs₁.onDisk.stored key hkey).data with ⟨hg, hh⟩ | ⟨junk, hg⟩
    · rw [hg] at hwr
      exact ⟨[], by rwa [hh]⟩
    · rw [hg] at hwr
      exact ⟨junk, hwr⟩
  exact ⟨t, _, ht, hwr, ⟨junk, by rw [hcom]⟩, hs₁.onDisk.writes_data hK hkey hroot hwr⟩

/-- What no index tells of is cut off. -/
theorem right_cut (hK : Distinct K) (hkey : key ∈ K) (hw : w.committed key = h) {junk : Bytes}
    (hdata : w.log.disk.get? (filePath root key "data") = some (.file (h.bytes ++ junk)))
    {ss : List Step} {post : Except StepError Unit → World → Prop}
    (hnext : ∀ w₁, Sound K root w₁ → Wrote root key (filePath root key "data") h.bytes w w₁ →
      (writing K root key value).Right post ((attemptAll ss).within diskFocus) w₁) :
    (writing K root key value).Right post ((attemptAll (.cut (filePath root key "data")
      (UInt64.ofNat h.bytes.length).toNat :: ss)).within diskFocus) w := by
  refine right_wrote (Q := (· = h.bytes)) .data (.data rfl)
    (fun w₁ hs₁ hr₁ => ?_) fun w₁ bs hs₁ hQ hwr₁ => hnext w₁ hs₁ (hQ ▸ hwr₁)
  have hcom : w₁.committed key = h := hr₁.committed.trans hw
  obtain ⟨hg, hroot⟩ := hr₁.file hs₁ .data hdata
  have hlen : (UInt64.ofNat h.bytes.length).toNat = h.bytes.length :=
    UInt64.toNat_ofNat_of_lt' (hcom ▸ (hs₁.onDisk.stored key hkey).addressable)
  obtain ⟨t, ht, hwr⟩ := apply_cut hroot hg (n := h.bytes.length) (by simp)
  rw [List.take_left] at hwr
  have hwr' : w₁.log.disk.Writes (filePath root key "data") ((w₁.committed key).bytes ++ []) t := by
    rwa [List.append_nil, hcom]
  exact ⟨t, _, by rw [hlen]; exact ht, hwr, rfl, hs₁.onDisk.writes_data hK hkey hroot hwr'⟩

/-- The value is added behind the bytes of what is committed. -/
theorem right_add (hK : Distinct K) (hkey : key ∈ K) (hw : w.committed key = h) {more : Bytes}
    (hdata : w.log.disk.get? (filePath root key "data") = some (.file h.bytes))
    {ss : List Step} {post : Except StepError Unit → World → Prop}
    (hnext : ∀ w₁, Sound K root w₁ →
      Wrote root key (filePath root key "data") (h.bytes ++ more) w w₁ →
      (writing K root key value).Right post ((attemptAll ss).within diskFocus) w₁) :
    (writing K root key value).Right post
      ((attemptAll (.add (filePath root key "data") more :: ss)).within diskFocus) w := by
  refine right_wrote (Q := (· = h.bytes ++ more)) .data (.data rfl)
    (fun w₁ hs₁ hr₁ => ?_) fun w₁ bs hs₁ hQ hwr₁ => hnext w₁ hs₁ (hQ ▸ hwr₁)
  have hcom : w₁.committed key = h := hr₁.committed.trans hw
  obtain ⟨hg, hroot⟩ := hr₁.file hs₁ .data hdata
  obtain ⟨t, ht, hwr⟩ := apply_add hroot hg more
  have hwr' : w₁.log.disk.Writes (filePath root key "data") ((w₁.committed key).bytes ++ more) t := by
    rwa [hcom]
  exact ⟨t, _, ht, hwr, rfl, hs₁.onDisk.writes_data hK hkey hroot hwr'⟩

/-- The value is put behind the bytes of what is committed. -/
theorem right_data (hK : Distinct K) (hkey : key ∈ K) (hw : w.committed key = h) (value : Bytes) :
    (writing K root key value).Right
      (fun r w' => r = .ok () ∧ w'.committed key = h ∧ w'.published key = w.published key ∧
        w'.log.disk.get? (filePath root key "data") = some (.file (h.bytes ++ value)))
      ((attemptAll (dataSteps (filePath root key "data") (UInt64.ofNat h.bytes.length) value)).within
        diskFocus) w := by
  rw [dataSteps, within_attemptAll_cons]
  refine right_makeDirs (.inl rfl) fun w₁ _ hr₁ hdirs => ?_
  have hw₁ : w₁.committed key = h := hr₁.committed.trans hw
  refine right_create hK hkey hw₁ hdirs fun w₂ junk _ hwr₂ => ?_
  have hw₂ : w₂.committed key = h := hwr₂.committed.trans hw₁
  refine right_cut hK hkey hw₂ hwr₂.here fun w₃ _ hwr₃ => ?_
  have hw₃ : w₃.committed key = h := hwr₃.committed.trans hw₂
  refine right_add hK hkey hw₃ hwr₃.here fun w₄ _ hwr₄ => ?_
  refine Protocol.right_pure ⟨rfl, hwr₄.committed.trans hw₃, ?_, hwr₄.here⟩
  rw [hwr₄.published, hwr₃.published, hwr₂.published, hr₁.published]

/-! ## Committing -/

/-- What is committed may get longer with the files. -/
theorem Sound.commit (hs : Sound K root w) {t : FileTree} {g : History}
    (hd : OnDisk K t root (Function.update w.committed key g)) (hg : w.committed key <+: g) :
    Sound K root ⟨{ w.log with disk := t }, Function.update w.committed key g, w.published⟩ := by
  have hgrow : ∀ k, w.committed k <+: Function.update w.committed key g k := by
    intro k
    by_cases hk : k = key
    · rwa [hk, Function.update_self]
    · rw [Function.update_of_ne hk]
  exact ⟨hs.root_eq, hd, fun k => (hs.prefixed k).trans (hgrow k), fun k hk tip hp =>
    (hs.cached k hk tip hp).imp fun g ⟨hpub, hg, htip⟩ => ⟨hpub, hg.trans (hgrow k), htip⟩⟩

/-- With the move of the new index file the write is committed. -/
theorem right_commit (hK : Distinct K) (hkey : key ∈ K) (hw : w.committed key = h)
    (ho : History.Ordered (h ++ [v])) (ha : History.Addressable (h ++ [v])) {i fanout : Nat}
    (hdata : w.log.disk.get? (filePath root key "data") = some (.file (h.bytes ++ v.value)))
    (htemp : w.log.disk.get? (tempName (filePath root key "index") i) =
      some (.file (Index.file fanout (History.entries (h ++ [v])))))
    (hdirs : ∀ q, q <+: folderOf (filePath root key "index") → w.log.disk.get? q = some .dir)
    {ss : List Step} {post : Except StepError Unit → World → Prop}
    (hnext : ∀ w₁, Sound K root w₁ → w₁.committed key = h ++ [v] →
      w₁.published key = w.published key →
      (writing K root key v.value).Right post ((attemptAll ss).within diskFocus) w₁) :
    (writing K root key v.value).Right post ((attemptAll (.rename
      (tempName (filePath root key "index") i) (filePath root key "index") :: ss)).within diskFocus)
      w := by
  rw [within_attemptAll_cons]
  refine right_attempt fun w₁ hs₁ hr₁ => ?_
  have hcom : w₁.committed key = h := hr₁.committed.trans hw
  obtain ⟨htemp₁, hroot₁⟩ := hr₁.file hs₁ (.temp i) htemp
  have hdata₁ := (hr₁.files _ .data).trans hdata
  have hroot : w₁.log.disk.Rooted (filePath root key "index") :=
    rooted_of_dirs fun q hq => hr₁.dirs q (hdirs q hq)
  have hnd := hs₁.onDisk.layout.ne_dir (fileSpot_filePath root key "index")
  obtain ⟨t, ht, hm⟩ := apply_rename hroot₁ hroot htemp₁ hnd
  have hdisk : OnDisk K t root (Function.update w₁.committed key (h ++ [v])) := by
    have hdata₂ : w₁.log.disk.get? (filePath root key "data") =
        some (.file (History.bytes (w₁.committed key ++ [v]) ++ [])) := by
      rw [hcom, hdata₁, History.bytes_append, History.bytes_singleton, List.append_nil]
    have hdisk := hs₁.onDisk.moves_index hK hkey (hcom ▸ ho) (hcom ▸ ha) hroot hdata₂
      (by rw [hcom]; exact hm)
    rwa [hcom] at hdisk
  have hs₂ := hs₁.commit hdisk (hcom ▸ List.prefix_append h [v])
  refine ⟨t, _, ht, rfl, hs₂, ⟨fun r hr => ?_, fun r hr => ?_, fun k hk => ?_, .inr ⟨v.time, ?_⟩,
    List.prefix_refl _⟩, hnext _ hs₂ (Function.update_self _ _ _) hr₁.published⟩
  · -- A move changes nothing but the two files.
    exact (hm r).trans ((if_neg fun h => hr (.index h)).trans (if_neg fun h => hr (.temp i h)))
  · refine ((hm r).trans ((if_neg ?_).trans (if_neg ?_))).trans hr
    · rintro rfl
      exact hnd hr
    · rintro rfl
      rw [htemp₁] at hr
      cases hr
  · exact ⟨Function.update_of_ne hk _ _, rfl⟩
  · rw [hcom]
    exact Function.update_self _ _ _

/-- The new index file is built beside the old one and moved there. -/
theorem right_indexSteps (hK : Distinct K) (hkey : key ∈ K) (hw : w.committed key = h)
    (ho : History.Ordered (h ++ [v])) (ha : History.Addressable (h ++ [v])) (i fanout : Nat)
    (hdata : w.log.disk.get? (filePath root key "data") = some (.file (h.bytes ++ v.value)))
    (hdirs : ∀ q, q <+: folderOf (filePath root key "index") → w.log.disk.get? q = some .dir) :
    (writing K root key v.value).Right
      (fun r w' => r = .ok () ∧ w'.committed key = h ++ [v] ∧ w'.published key = w.published key)
      ((attemptAll (indexSteps (tempName (filePath root key "index") i) (filePath root key "index")
        (Index.file fanout h.entries)
        ⟨v.time, UInt64.ofNat (History.bytes (h ++ [v])).length⟩)).within diskFocus) w := by
  set temp := tempName (filePath root key "index") i with htempdef
  have hown : OwnFile root key temp := .temp i
  have hter : Territory root key temp := .temp i rfl
  have hne : filePath root key "data" ≠ temp :=
    (tempName_ne_filePath root key key i (.inl rfl)).symm
  rw [indexSteps]
  refine right_wrote (Q := (· = [])) hown hter (fun w₁ hs₁ hr₁ => ?_) fun w₁ bs hs₁ hQ hwr₁ => ?_
  · have hroot : w₁.log.disk.Rooted temp := by
      rw [htempdef, tempName_filePath]
      exact rooted_concat fun q hq => hr₁.dirs q (hdirs q hq)
    obtain ⟨t, ht, hwr⟩ := apply_clear hroot (hs₁.onDisk.layout.ne_dir hown.fileSpot)
    exact ⟨t, [], ht, hwr, rfl, hs₁.onDisk.writes_temp hroot hwr⟩
  subst hQ
  -- Adding to the temporary file, whatever is in it, goes well.
  have hadd : ∀ {w₁ w₂ : World} {bs : Bytes} (more : Bytes),
      w₁.log.disk.get? temp = some (.file bs) → Sound K root w₂ → Around root key w₁ w₂ →
      ∃ t bs', (Step.add temp more).apply w₂.log.disk = .ok t ∧
        w₂.log.disk.Writes temp bs' t ∧ bs' = bs ++ more ∧ OnDisk K t root w₂.committed := by
    intro w₁ w₂ bs more hg hs hr
    obtain ⟨hg₂, hroot⟩ := hr.file hs hown hg
    obtain ⟨t, ht, hwr⟩ := apply_add hroot hg₂ more
    exact ⟨t, _, ht, hwr, rfl, hs.onDisk.writes_temp hroot hwr⟩
  refine right_wrote hown hter (fun w₂ hs₂ hr₂ => hadd (Index.file fanout h.entries) hwr₁.here hs₂ hr₂)
    fun w₂ bs hs₂ hQ hwr₂ => ?_
  subst hQ
  refine right_wrote hown hter (fun w₃ hs₃ hr₃ => hadd _ hwr₂.here hs₃ hr₃)
    fun w₃ bs hs₃ hQ hwr₃ => ?_
  subst hQ
  have hcom₃ : w₃.committed key = h := by
    rw [hwr₃.committed, hwr₂.committed, hwr₁.committed, hw]
  have hdata₃ : w₃.log.disk.get? (filePath root key "data") = some (.file (h.bytes ++ v.value)) := by
    rw [hwr₃.files _ .data hne, hwr₂.files _ .data hne, hwr₁.files _ .data hne, hdata]
  have htemp₃ : w₃.log.disk.get? temp =
      some (.file (Index.file fanout (History.entries (h ++ [v])))) := by
    rw [hwr₃.here, List.nil_append, ← Index.file_concat, ← History.entries_concat]
  refine right_commit hK hkey hcom₃ ho ha hdata₃ htemp₃
    (fun q hq => hwr₃.dirs q (hwr₂.dirs q (hwr₁.dirs q (hdirs q hq)))) fun w₄ hs₄ hcom₄ hpub₄ => ?_
  refine Protocol.right_pure ⟨rfl, hcom₄, ?_⟩
  rw [hpub₄, hwr₃.published, hwr₂.published, hwr₁.published]

/-! ## Publishing -/

/-- A beginning of a history whose last time is no earlier is all of it. -/
theorem History.eq_of_prefix_of_tip {g h : History} (ho : h.Ordered) (hp : g <+: h)
    {a b : Index.Tip} (hg : g.tip = some a) (hh : h.tip = some b) (hab : ¬a.time < b.time) :
    g = h := by
  obtain ⟨rest, rfl⟩ := hp
  rcases List.eq_nil_or_concat rest with rfl | ⟨rest, l, rfl⟩
  · rw [List.append_nil]
  · rw [List.concat_eq_append, ← List.append_assoc] at *
    rw [History.tip, Option.map_eq_some_iff] at hg
    obtain ⟨l', hl', rfl⟩ := hg
    rw [History.tip_concat, Option.some.injEq] at hh
    subst hh
    exact absurd ((List.pairwise_append.1 ho).2.2 l'
      (List.mem_append_left _ (List.mem_of_getLast? hl')) l (List.mem_singleton_self l)) hab

/-- The cache may be told of the tip of what is committed. -/
theorem Sound.publish (hs : Sound K root w) (hw : w.committed key = h) {tip : Index.Tip}
    (htip : h.tip = some tip) :
    Sound K root ⟨{ w.log with cache := w.log.cache.publish key tip }, w.committed,
      Function.update w.published key h⟩ := by
  refine ⟨hs.root_eq, hs.onDisk, fun k => ?_, fun k hk tip' hp => ?_⟩
  · show Function.update w.published key h k <+: w.committed k
    by_cases hkk : k = key
    · rw [hkk, Function.update_self, hw]
    · rw [Function.update_of_ne hkk]
      exact hs.prefixed k
  · show ∃ g : History, Function.update w.published key h k <+: g ∧ g <+: w.committed k ∧ _
    rcases Cache.of_peek_publish hp with ⟨hne, hp⟩ | ⟨rfl, hp⟩
    · rw [Function.update_of_ne hne]
      exact hs.cached k hk tip' hp
    · rw [Function.update_self, hw]
      refine ⟨h, List.prefix_refl _, List.prefix_refl _, ?_⟩
      rcases hp with rfl | ⟨hp, hnlt⟩
      · exact htip
      · -- The tip in the cache is no earlier than that of the committed history.
        obtain ⟨g, -, hg, hgtip⟩ := hs.cached k hk tip' hp
        rw [hw] at hg
        have ho : h.Ordered := hw ▸ (hs.onDisk.stored k hk).ordered
        rwa [← History.eq_of_prefix_of_tip ho hg hgtip htip hnlt]

/-- When the cache is told of the tip of what is committed, that is published. -/
theorem right_publish (hw : w.committed key = h) {tip : Index.Tip}
    (htip : h.tip = some tip) {f : Unit → Plan Log α}
    (hnext : ∀ w₁, Sound K root w₁ → w₁.committed key = h → w₁.published key = h →
      (writing K root key value).Right post (f ()) w₁) :
    (writing K root key value).Right post (publish key tip >>= f) w := by
  refine Protocol.right_access_bind fun w₁ hs₁ hr₁ => ?_
  have hcom : w₁.committed key = h := hr₁.committed.trans hw
  have hpub : w₁.published key <+: h := hcom ▸ hs₁.prefixed key
  have hs₂ := hs₁.publish hcom htip
  refine ⟨_, rfl, hs₂, ⟨fun _ _ => rfl, fun _ => id, fun k hk => ⟨rfl, Function.update_of_ne hk _ _⟩,
    .inl rfl, ?_⟩, hnext _ hs₂ hcom (Function.update_self _ _ _)⟩
  show w₁.published key <+: Function.update w₁.published key h key
  rwa [Function.update_self]

/-! ## Writing -/

theorem right_writeDataPlan (hK : Distinct K) (hkey : key ∈ K) (hw : w.committed key = h)
    (value : Bytes) :
    (writing K root key value).Right
      (fun r w' => r = .ok () ∧ w'.committed key = h ∧ w'.published key = w.published key ∧
        w'.log.disk.get? (filePath root key "data") = some (.file (h.bytes ++ value)))
      (writeDataPlan key (UInt64.ofNat h.bytes.length) value) w := by
  rw [writeDataPlan]
  refine right_write_look fun w₁ hs₁ hr₁ => ⟨.enter _,
    right_write_look fun w₂ hs₂ hr₂ => ⟨.refl _, ?_⟩⟩
  have hr : Around root key w w₂ := by
    refine Around.trans (hr₁.trans ?_) hr₂
    exact ⟨fun _ _ => rfl, fun _ => id, rfl, rfl⟩
  have hpath : w₂.log.dataPath key = filePath root key "data" := by rw [dataPath, hs₂.root_eq]
  simp only [hpath]
  refine (right_data hK hkey (hr.committed.trans hw) value).bind hs₂ fun r w₃ hs₃ hr₃ => ?_
  obtain ⟨rfl, hcom₃, hpub₃, hdata₃⟩ := hr₃
  exact Protocol.right_pure ⟨rfl, hcom₃, hpub₃.trans hr.published, hdata₃⟩

theorem right_writeIndexPlan (hK : Distinct K) (hkey : key ∈ K) (hw : w.committed key = h)
    (ho : History.Ordered (h ++ [v]))
    (ha : History.Addressable (h ++ [v]))
    (hdata : w.log.disk.get? (filePath root key "data") = some (.file (h.bytes ++ v.value))) :
    (writing K root key v.value).Right
      (fun r w' => r = .ok () ∧ w'.committed key = h ++ [v] ∧ w'.published key = w.published key)
      (writeIndexPlan key ⟨v.time, UInt64.ofNat (History.bytes (h ++ [v])).length⟩ h.tip.isSome)
      w := by
  rw [writeIndexPlan]
  refine right_write_look fun w₁ hs₁ hr₁ => ⟨.enter _,
    right_write_look fun w₂ hs₂ hr₂ => ⟨.refl _, ?_⟩⟩
  have hr₂ : Around root key w w₂ := by
    refine Around.trans (hr₁.trans ?_) hr₂
    exact ⟨fun _ _ => rfl, fun _ => id, rfl, rfl⟩
  have hpath : w₂.log.indexPath key = filePath root key "index" := by rw [indexPath, hs₂.root_eq]
  simp only [hpath]
  refine right_makeDirs (.inr rfl) fun w₃ hs₃ hr₃ hdirs => ?_
  refine right_write_look fun w₄ hs₄ hr₄ => ⟨.refl _, ?_⟩
  obtain ⟨i, hi⟩ := exists_freshTemp w₄.log.disk (filePath root key "index")
  refine right_write_look fun w₅ hs₅ hr₅ => ⟨.refl _, ?_⟩
  have hr₅ : Around root key w₃ w₅ := hr₄.trans hr₅
  have hr : Around root key w w₅ := (hr₂.trans hr₃).trans hr₅
  have hcom : w₅.committed key = h := hr.committed.trans hw
  obtain ⟨fanout, hold⟩ := indexBase_eq w₅.log (hs₅.root_eq ▸ hs₅.onDisk) hkey
  rw [hs₅.root_eq, hcom] at hold
  simp only [baseAccess, hold, hi]
  refine (right_indexSteps hK hkey hcom ho ha i fanout ((hr.files _ .data).trans hdata)
    fun q hq => hr₅.dirs q (hdirs q hq)).bind hs₅ fun r w₆ hs₆ hr₆ => ?_
  obtain ⟨rfl, hcom₆, hpub₆⟩ := hr₆
  exact Protocol.right_pure ⟨rfl, hcom₆, hpub₆.trans hr.published⟩

/-- A write is committed and published, and tells where its value is. -/
theorem right_writePlan (hK : Distinct K) (hkey : key ∈ K) (hs : Sound K root w)
    (hw : w.committed key = h) (ho : History.Ordered (h ++ [v]))
    (ha : History.Addressable (h ++ [v])) :
    (writing K root key v.value).Right
      (fun r w' => History.tip (h ++ [v]) = r.toOption ∧ w'.committed key = h ++ [v] ∧
        w'.published key = h ++ [v])
      (writePlan key h.tip v.value v.time) w := by
  have hah : h.Addressable := hw ▸ (hs.onDisk.stored _ hkey).addressable
  rw [writePlan, wordAfter?_startBehind hah ha, startBehind_tip]
  dsimp only
  rw [writeSpanPlan]
  refine (right_writeDataPlan hK hkey hw v.value).bind hs fun r w₁ hs₁ hr => ?_
  obtain ⟨rfl, hcom₁, -, hdata₁⟩ := hr
  refine (right_writeIndexPlan hK hkey hcom₁ ho ha hdata₁).bind hs₁ fun r w₂ hs₂ hr => ?_
  obtain ⟨rfl, hcom₂, -⟩ := hr
  have htip := History.tip_concat h v
  refine right_publish hcom₂ htip fun w₃ hs₃ hcom₃ hpub₃ => ?_
  exact Protocol.right_pure ⟨htip, hcom₃, hpub₃⟩

/-- A writer learns the tip of what is committed, and publishes it. -/
theorem right_publishedTip (hkey : key ∈ K) (hw : w.committed key = h) :
    (writing K root key value).Right
      (fun r w' => r = .ok h.tip ∧ w'.committed key = h ∧ w'.published key = h)
      (publishedTipPlan key) w := by
  rw [publishedTipPlan]
  refine right_write_look fun w₁ hs₁ hr₁ => ⟨.enter _, ?_⟩
  have hcom : w₁.committed key = h := hr₁.committed.trans hw
  have htip : ((tipAccess key).run w₁.log).1 = .ok h.tip := hcom ▸ hs₁.tipAt_eq hkey
  simp only [htip]
  cases ht : h.tip with
  | none =>
    -- There is nothing to publish.
    have hnil : h = [] := History.tip_eq_none.1 ht
    have hpub : w₁.published key = h := by
      rw [hnil, ← List.prefix_nil, ← hnil, ← hcom]
      exact hs₁.prefixed key
    exact Protocol.right_pure ⟨rfl, hcom, hpub⟩
  | some tip =>
    have hcom' : World.committed
        ⟨((tipAccess key).run w₁.log).2, w₁.committed, w₁.published⟩ key = h := hcom
    exact right_publish hcom' ht fun w₂ hs₂ hcom₂ hpub₂ => Protocol.right_pure ⟨rfl, hcom₂, hpub₂⟩

/-! ## Appends -/

namespace Task

/-- An append that is later than all that is there is put behind it. -/
theorem onHistory_append {value : Bytes} {t : Time} (hnew : ∀ l, h.getLast? = some l → l.time < t) :
    (append key value t).onHistory h =
      ((extend (fun _ => h) key ⟨t, value⟩).1, h ++ [⟨t, value⟩]) := by
  rw [onHistory, call, Call.onHistories]
  cases hl : h.getLast? with
  | none => simp [extend, Task.key]
  | some l => simp [extend, Task.key, hnew l hl]

/-- An append that is not is refused. -/
theorem onHistory_append_refused {value : Bytes} {t : Time} {l : Write} (hl : h.getLast? = some l)
    (hold : ¬l.time < t) :
    (append key value t).onHistory h = (.written (.error (.index (.nonMonotonic l.time t))), h) := by
  rw [onHistory, call, Call.onHistories]
  simp [hl, hold]

/-- An append that is stamped is put behind what is there. -/
theorem onHistory_appendNow {value : Bytes} {now t : Time}
    (hs : stamp h.tip now = some t) : (appendNow key value now).onHistory h =
      ((extend (fun _ => h) key ⟨t, value⟩).1, h ++ [⟨t, value⟩]) := by
  rw [onHistory, call, Call.onHistories_appendNow (H := fun _ => h) hs]
  simp [extend, Task.key]

end Task

/-- The answer is that of the history `h`, and what comes of `h` is committed and published. -/
structure Follows (task : Task) (h : History) (a : Answer) (w : World) : Prop where
  answer : a = (task.onHistory h).1
  committed : w.committed task.key = (task.onHistory h).2
  published : w.published task.key = (task.onHistory h).2

theorem right_write (task : Task) (hK : Distinct K) (hkey : task.key ∈ K) (hs : Sound K root w)
    (hw : w.committed task.key = h) (ho : History.Ordered (h ++ [v]))
    (ha : (task.onHistory h).2.Addressable)
    (hext : task.onHistory h = ((extend (fun _ => h) task.key v).1, h ++ [v])) :
    (writing K root task.key v.value).Right (fun r => Follows task h (.written r))
      (writePlan task.key h.tip v.value v.time) w := by
  rw [hext] at ha
  refine (right_writePlan hK hkey hs hw ho ha).mono fun r w₁ hr => ?_
  obtain ⟨htip, hcom, hpub⟩ := hr
  refine ⟨?_, by rw [hcom, hext], by rw [hpub, hext]⟩
  rw [hext]
  cases r with
  | error e =>
    rw [History.tip_concat] at htip
    cases htip
  | ok tip =>
    have hfst : (extend (fun _ => h) task.key v).1 = .written (.ok tip) := extend_fst htip
    exact hfst.symm

/-- An append that is no later than the last one is refused, and another is written. -/
theorem right_appendPlan {t : Time} (hK : Distinct K) (hkey : key ∈ K) (hs : Sound K root w)
    (hw : w.committed key = h) (ha : ((Task.append key value t).onHistory h).2.Addressable) :
    (writing K root key value).Right (fun r => Follows (.append key value t) h (.written r))
      (appendPlan key value t) w := by
  have ho : h.Ordered := hw ▸ (hs.onDisk.stored _ hkey).ordered
  rw [appendPlan]
  refine (right_publishedTip hkey hw).bind hs fun r w₁ hs₁ hr => ?_
  obtain ⟨rfl, hcom₁, hpub₁⟩ := hr
  by_cases hnew : ∀ l, h.getLast? = some l → l.time < t
  · have ho' := ho.concat (w := ⟨t, value⟩) hnew
    have hnone : h.tip.filter (fun tip => decide (t ≤ tip.time)) = none := by
      rw [Option.filter_eq_none_iff]
      intro tip htip
      simpa [UInt64.not_le] using History.time_tip_lt ho' htip
    simp only [hnone]
    exact right_write (.append key value t) hK hkey hs₁ hcom₁ ho' ha (Task.onHistory_append hnew)
  · obtain ⟨l, hl, hold⟩ : ∃ l, h.getLast? = some l ∧ ¬l.time < t := by simpa using hnew
    have htip : h.tip.filter (fun tip => decide (t ≤ tip.time)) = h.tip := by
      rw [History.tip, hl]
      simp [Option.filter, UInt64.not_lt.1 hold]
    simp only [htip]
    rw [History.tip, hl]
    have hans : (Task.append key value t).onHistory h =
        (.written (.error (.index (.nonMonotonic l.time t))), h) :=
      Task.onHistory_append_refused hl hold
    exact Protocol.right_pure ⟨by rw [hans], by rw [hans]; exact hcom₁, by rw [hans]; exact hpub₁⟩

/-- An append that is stamped is written. -/
theorem right_appendNowPlan {now : Time} (hK : Distinct K) (hkey : key ∈ K) (hs : Sound K root w)
    (hw : w.committed key = h) (ha : ((Task.appendNow key value now).onHistory h).2.Addressable)
    (hmax : ∀ l, h.getLast? = some l → l.time.toNat ≠ 2 ^ 64 - 1) :
    (writing K root key value).Right (fun r => Follows (.appendNow key value now) h (.written r))
      (appendNowPlan key value now) w := by
  have ho : h.Ordered := hw ▸ (hs.onDisk.stored _ hkey).ordered
  obtain ⟨t, hstamp⟩ := exists_stamp hmax now
  rw [appendNowPlan]
  refine (right_publishedTip hkey hw).bind hs fun r w₁ hs₁ hr => ?_
  obtain ⟨rfl, hcom₁, -⟩ := hr
  simp only [hstamp]
  exact right_write (.appendNow key value now) hK hkey hs₁ hcom₁ (ho.concat (lt_of_stamp hstamp)) ha
    (Task.onHistory_appendNow hstamp)

/-- **An append answers as the history does that is committed when it begins**, and leaves the
    one that comes of it. -/
theorem right_append {task : Task} (hvalue : task.value? = some value) (hK : Distinct K)
    (ha : task.call.Admissible K fun _ => h) (hs : Sound K root w)
    (hw : w.committed task.key = h) :
    (writing K root task.key value).Right (Follows task h) task.plan w := by
  cases task with
  | readLatest | readAsOf | readRange => cases hvalue
  | append key value' t =>
    obtain rfl : value' = value := Option.some.inj hvalue
    obtain ⟨hkey, ha⟩ := ha
    exact (right_appendPlan hK hkey hs hw ha).bind hs fun r w' _ hr => Protocol.right_pure hr
  | appendNow key value' now =>
    obtain rfl : value' = value := Option.some.inj hvalue
    obtain ⟨hkey, ha, hmax⟩ := ha
    exact (right_appendNowPlan hK hkey hs hw ha hmax).bind hs fun r w' _ hr =>
      Protocol.right_pure hr

end ReplicaRing.Log
