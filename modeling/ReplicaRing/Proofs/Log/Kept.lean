import ReplicaRing.Proofs.Log.Writers

/-!
# What a log keeps when files fail

Whatever fails in the middle of a write, the files of a log tell some histories: those from
before the write, or those after it. The cache may then know less than the files, for a failure
may be late; but what it knows are tips of beginnings of those histories (`Log.Tells`).

* Such a log can be written to, and if nothing fails the write is there
  (`Log.Tells.exists_appendNow`).
* Whatever fails, it is such a log after the write (`Log.Tells.safe_appendNow`).
* A key of it is read without a value just if its history is empty (`Log.Tells.exists_readLatest`).
-/

namespace ReplicaRing.Log

open FileTree

variable {K : Set String} {late : Bool} {H : String → History} {t t' : FileTree} {root p : Path}
  {log log' : Log} {key : String} {value : Bytes} {now time : Time} {w : Write} {i : Nat} {ε α : Type}

/-! ## Files -/

namespace OnDisk

/-- What differs is where files may be that belong to no key. -/
theorem frame {S : Path → Prop} (hd : OnDisk K t root H)
    (hS : ∀ p, S p → FileSpot root p ∧
      ∀ k folder, IsFolder folder → filePath root k folder ≠ p)
    (hr : ∀ p, S p → t'.get? p ≠ none → t.Rooted p)
    (hf : ∀ p, ¬S p → t'.get? p = t.get? p)
    (hdirs : ∀ p, t'.get? p = some .dir → t.get? p = some .dir) : OnDisk K t' root H := by
  -- No directory is where only files may be.
  have hdir : ∀ p, t.get? p = some .dir → t'.get? p = some .dir := fun p hp => by
    rw [hf p fun h => hd.layout.ne_dir (hS p h).1 hp, hp]
  refine ⟨⟨fun p hp => hdir p (hd.layout.root_dir p hp), fun p bs hp hg => ?_,
    fun p hp hg => hd.layout.dir_spot p hp (hdirs p hg), fun p hp hg => ?_⟩, fun k hk => ?_⟩
  · by_cases h : S p
    · exact (hS p h).1
    · exact hd.layout.file_spot p bs hp (hf p h ▸ hg)
  · have hrooted : t.Rooted p := by
      by_cases h : S p
      · exact hr p h hg
      · exact hd.layout.rooted p hp (hf p h ▸ hg)
    exact fun q hq hne => hdir q (hrooted q hq hne)
  · exact (hd.stored k hk).congr fun folder hfolder =>
      hf _ fun h => (hS _ h).2 k folder hfolder rfl

/-- A temporary file may be removed. -/
theorem discard {u : Unit} (hd : OnDisk K t root H)
    (hg : (FileTree.discard (tempName (filePath root key "index") i)).Gives late t u t') :
    OnDisk K t' root H := by
  set temp := tempName (filePath root key "index") i
  rcases hg with hg | hg
  · cases hg
    have hne : temp ≠ [] := tempName_ne_nil _ i
    refine hd.frame (S := (· = temp)) ?_ (fun p hp hg => ?_) (fun p hp => get?_erase_of_ne t hp)
      fun p => dir_of_erase
    · rintro p rfl
      exact ⟨fileSpot_tempName root key "index" i, fun k folder hf =>
        (tempName_ne_filePath root key k i hf).symm⟩
    · refine absurd ?_ hg
      rw [hp, get?_erase t hne, if_pos rfl]
  · exact hg ▸ hd

/-- Directories may be made, or some of them. -/
theorem attempt_makeDirs {res : Except StepError Unit} (hd : OnDisk K t root H) (hp : DirSpot root p)
    (hg : (attempt (.makeDirs p)).Gives late t res t') : OnDisk K t' root H := by
  rcases makes_of_gives hg with rfl | ⟨j, hm⟩
  · exact hd
  · exact hd.makes (hp.upward (List.take_prefix j p)) hm

end OnDisk

theorem Goes.uncons {Q : FileTree → Prop} {s : Step} {ss : List Step}
    (h : Goes K root H t (s :: ss) Q) :
    OnDisk K t root H ∧ (∀ t'', Part t s t'' → OnDisk K t'' root H) ∧
      ∃ t₁, s.apply t = .ok t₁ ∧ Goes K root H t₁ ss Q := by
  obtain ⟨t', hrun, hQ, hcut⟩ := h
  obtain ⟨t₁, hs, hrun⟩ := exists_of_run_cons hrun
  exact ⟨hcut t _ .here (by simp), fun t'' hp => hcut t'' _ (.within hp) (by simp), t₁, hs, t',
    hrun, hQ, fun t'' rest hi hne => hcut t'' rest (.after hs hi) hne⟩

/-- Steps that lead from some histories to others tell one or the other, whatever fails. -/
theorem Goes.safe {Q : FileTree → Prop} {ss : List Step} (h : Goes K root H t ss Q) :
    Plan.Safe late (fun t' => OnDisk K t' root H ∨ Q t')
      (fun res t' => (res = .ok () → Q t') ∧ (OnDisk K t' root H ∨ Q t')) (attemptAll ss) t := by
  induction ss generalizing t with
  | nil =>
    obtain ⟨t', hrun, hQ, -⟩ := h
    cases hrun
    exact Plan.safe_pure (.inr hQ) ⟨fun _ => hQ, .inr hQ⟩
  | cons s ss ih =>
    obtain ⟨hd, hpart, t₁, hs, h₁⟩ := h.uncons
    refine Plan.safe_access_bind (.inl hd) fun res t₂ hg => ?_
    cases res with
    | ok u =>
      obtain rfl : t₁ = t₂ := Except.ok.inj (hs.symm.trans (apply_of_gives hg))
      exact ih h₁
    | error e =>
      have h₂ : OnDisk K t₂ root H ∨ Q t₂ := by
        rcases left_of_gives hg with rfl | hp | ⟨ha, -⟩
        · exact .inl hd
        · exact .inl (hpart t₂ hp)
        · obtain rfl : t₁ = t₂ := Except.ok.inj (hs.symm.trans ha)
          exact (ih h₁).stops _ .here
      exact Plan.safe_pure h₂ ⟨by simp, h₂⟩

/-! ## Logs -/

/-- The files of the log tell the histories, and its cache knows tips of beginnings of them. -/
structure Tells (K : Set String) (root : Path) (log : Log) (H : String → History) : Prop where
  root_eq : log.root = root
  onDisk : OnDisk K log.disk root H
  cached : ∀ k ∈ K, ∀ tip, log.cache.peek k = some tip → ∃ g : History, g <+: H k ∧ g.tip = some tip

/-- There is room for a value behind the history: a time after its last one, and offsets. -/
structure History.HasRoom (h : History) (value : Bytes) : Prop where
  later : ∀ l, h.getLast? = some l → l.time.toNat ≠ 2 ^ 64 - 1
  addressable : h.bytes.length + value.length < 2 ^ 64

/-- The write that a value becomes behind the history, if there is a stamp for it. -/
def History.next (h : History) (value : Bytes) (now : Time) : Write :=
  ⟨(stamp h.tip now).getD now, value⟩

theorem History.HasRoom.stamp_eq {h : History} (hr : h.HasRoom value) (now : Time) :
    stamp h.tip now = some (h.next value now).time := by
  obtain ⟨t, hstamp⟩ := exists_stamp hr.later now
  rw [History.next, hstamp, Option.getD_some]

theorem History.HasRoom.ordered {h : History} (hr : h.HasRoom value) (ho : h.Ordered) (now : Time) :
    History.Ordered (h ++ [h.next value now]) :=
  ho.concat (lt_of_stamp (hr.stamp_eq now))

theorem History.HasRoom.concat {h : History} (hr : h.HasRoom value) (now : Time) :
    History.Addressable (h ++ [h.next value now]) := by
  rw [History.Addressable, History.bytes_append, History.bytes_singleton, List.length_append]
  exact hr.addressable

/-- What is published does not matter here. -/
theorem Sound.tells {world : World} (hs : Sound K root world) :
    Tells K root world.log world.committed :=
  ⟨hs.root_eq, hs.onDisk, fun k hk tip hp =>
    (hs.cached k hk tip hp).imp fun _ => And.right⟩

namespace Tells

variable (ht : Tells K root log H)

include ht

/-- It is as if nothing had been published. -/
theorem sound : Sound K root ⟨log, H, fun _ => []⟩ :=
  ⟨ht.root_eq, ht.onDisk, fun _ => List.nil_prefix, fun k hk tip hp =>
    (ht.cached k hk tip hp).imp fun _ => And.intro List.nil_prefix⟩

theorem onDisk_root : OnDisk K log.disk log.root H := ht.root_eq ▸ ht.onDisk

theorem untouched (h : Untouched log log') : Tells K root log' H := (ht.sound.untouched h).tells

theorem onto (hd : OnDisk K t root H) : Tells K root { log with disk := t } H :=
  (ht.sound.onto hd).tells

theorem publish {tip : Index.Tip} (htip : (H key).tip = some tip) :
    Tells K root { log with cache := log.cache.publish key tip } H :=
  (ht.sound.publish rfl htip).tells

/-- What the files tell of a key may get longer. -/
theorem extend {g : History} (hg : H key <+: g)
    (hd : OnDisk K t root (Function.update H key g)) :
    Tells K root { log with disk := t } (Function.update H key g) :=
  (ht.sound.commit hd hg).tells

/-- A tip that is published is that of the history. -/
theorem safe_publishedTip (hkey : key ∈ K) :
    Plan.Safe late (fun log' => Tells K root log' H)
      (fun r log' => Tells K root log' H ∧ ∀ tip, r = .ok tip → tip = (H key).tip)
      (publishedTipPlan key) log := by
  rw [publishedTipPlan]
  refine Plan.safe_access_bind ht fun res log₁ hx => ?_
  obtain ⟨rfl, hres⟩ := gives_tipAccess hx
  have h₁ := ht.untouched (.enter "index_read")
  have htip : ∀ tip, res = .ok tip → tip = (H key).tip := by
    rintro tip rfl
    rcases hres with h | ⟨e, h⟩
    · rw [ht.sound.tipAt_eq hkey] at h
      exact Except.ok.inj h
    · cases h
  split
  · rename_i tip
    have h₂ := h₁.publish (htip (some tip) rfl).symm
    exact Plan.safe_act_bind h₁ (Plan.safe_pure h₂ ⟨h₂, htip⟩)
  · exact Plan.safe_pure h₁ ⟨h₁, htip⟩

/-- A value may be put into the data file behind the bytes of the history, or part of it. -/
theorem safe_writeData (hK : Distinct K) (hkey : key ∈ K) (value : Bytes) :
    Plan.Safe late (fun log' => Tells K root log' H)
      (fun r log' => Tells K root log' H ∧ (r = .ok () →
        log'.disk.get? (filePath root key "data") = some (.file ((H key).bytes ++ value))))
      (writeDataPlan key (UInt64.ofNat (H key).bytes.length) value) log := by
  rw [writeDataPlan]
  have h₁ := ht.untouched (.enter "data_write")
  refine Plan.safe_act_bind ht (Plan.safe_ask_bind ?_)
  have hpath : (log.enter "data_write").dataPath key = filePath root key "data" := by
    rw [dataPath, h₁.root_eq]
  rw [hpath]
  have hfiles : Plan.Safe late (fun log' => Tells K root log' H)
      (fun r log' => Tells K root log' H ∧ (r = .ok () →
        log'.disk.get? (filePath root key "data") = some (.file ((H key).bytes ++ value))))
      ((attemptAll (dataSteps (filePath root key "data") (UInt64.ofNat (H key).bytes.length)
        value)).within diskFocus) (log.enter "data_write") := by
    refine (Plan.safe_within (s := log.enter "data_write") diskFocus
      (goes_data h₁.onDisk hK hkey value).safe).mono ?_ ?_
    · rintro _ ⟨t, hd, rfl⟩
      exact h₁.onto (hd.elim id And.left)
    · rintro res _ ⟨t, ⟨hok, hd⟩, rfl⟩
      exact ⟨h₁.onto (hd.elim id And.left), fun hres => (hok hres).2⟩
  refine hfiles.bind fun res log₂ h₂ ha => ?_
  cases res with
  | ok u => exact Plan.safe_pure ha ⟨ha, fun _ => h₂.2 rfl⟩
  | error e => exact Plan.safe_pure ha ⟨ha, by simp⟩

end Tells

/-- The histories after the write `w`. -/
def grown (H : String → History) (key : String) (w : Write) : String → History :=
  Function.update H key (H key ++ [w])

/-- The log tells the histories from before the write `w`, or those after it. -/
def TellsEither (K : Set String) (root : Path) (H : String → History) (key : String) (w : Write)
    (log : Log) : Prop :=
  Tells K root log H ∨ Tells K root log (grown H key w)

/-- So it does, and if all went well it tells those after it. -/
structure Takes (K : Set String) (root : Path) (H : String → History) (key : String) (w : Write)
    (r : Except ε α) (log : Log) : Prop where
  either : TellsEither K root H key w log
  done : ∀ a, r = .ok a → Tells K root log (grown H key w)

/-- The log tells some histories. -/
def Telling (K : Set String) (root : Path) (log : Log) : Prop := ∃ H, Tells K root log H

theorem TellsEither.telling (h : TellsEither K root H key w log) : Telling K root log :=
  h.elim (fun h => ⟨H, h⟩) fun h => ⟨grown H key w, h⟩

theorem TellsEither.onto (h : TellsEither K root H key w log)
    (hd : ∀ H, OnDisk K log.disk root H → OnDisk K t root H) :
    TellsEither K root H key w { log with disk := t } :=
  h.imp (fun h => h.onto (hd _ h.onDisk)) fun h => h.onto (hd _ h.onDisk)

theorem Tells.takes_error (ht : Tells K root log H) (e : ε) :
    Takes K root H key w (.error e : Except ε α) log :=
  ⟨.inl ht, by simp⟩

namespace Tells

variable (ht : Tells K root log H)

include ht

/-- The new index file is put together and moved to its place. If that fails, the temporary file
    is removed, or it stays. -/
theorem safe_record (hK : Distinct K) (hkey : key ∈ K) (ho : History.Ordered (H key ++ [w]))
    (ha : History.Addressable (H key ++ [w])) (i fanout : Nat)
    (hdata : log.disk.get? (filePath root key "data") = some (.file ((H key).bytes ++ w.value)))
    (hdirs : ∀ q, q <+: folderOf (filePath root key "index") → log.disk.get? q = some .dir) :
    Plan.Safe late (TellsEither K root H key w) (Takes K root H key w)
      (recordPlan (filePath root key "index") (Index.file fanout (H key).entries)
        ⟨w.time, UInt64.ofNat (History.bytes (H key ++ [w])).length⟩
        (tempName (filePath root key "index") i)) log := by
  have hgoes : Goes K root H log.disk (indexSteps (tempName (filePath root key "index") i)
      (filePath root key "index") (Index.file fanout (H key).entries)
      ⟨w.time, UInt64.ofNat (History.bytes (H key ++ [w])).length⟩)
      fun t' => OnDisk K t' root (grown H key w) := by
    refine (goes_indexSteps ht.onDisk key _ _ i (rooted_tempName hdirs i)
      (rooted_of_dirs hdirs)).mono ?_
    rintro t' ⟨t₁, hd₁, hr, hdata₁, hm⟩
    exact hd₁.moves_record hK hkey ho ha hr (hdata₁.trans hdata) hm
  have hlog : ∀ t, OnDisk K t root (grown H key w) →
      Tells K root { log with disk := t } (grown H key w) := fun t hd =>
    ht.extend (List.prefix_append _ _) hd
  have hfiles : Plan.Safe late (TellsEither K root H key w) (Takes K root H key w)
      ((attemptAll (indexSteps (tempName (filePath root key "index") i)
        (filePath root key "index") (Index.file fanout (H key).entries)
        ⟨w.time, UInt64.ofNat (History.bytes (H key ++ [w])).length⟩)).within diskFocus) log := by
    refine (Plan.safe_within diskFocus hgoes.safe).mono ?_ ?_
    · rintro _ ⟨t, hd, rfl⟩
      exact hd.imp ht.onto (hlog t)
    · rintro res _ ⟨t, ⟨hok, hd⟩, rfl⟩
      exact ⟨hd.imp ht.onto (hlog t), fun _ hres => hlog t (hok hres)⟩
  rw [recordPlan]
  refine hfiles.bind fun res log₁ h₁ hal => ?_
  cases res with
  | ok u => exact Plan.safe_pure hal ⟨hal, fun _ _ => h₁.done () rfl⟩
  | error e =>
    -- Whether the temporary file is removed or stays, no history goes by it.
    refine Plan.safe_access_bind hal fun u log₂ hx => ?_
    obtain ⟨t, hg, rfl⟩ := Access.gives_within hx
    have h₂ : TellsEither K root H key w { log₁ with disk := t } := hal.onto fun H hd => hd.discard hg
    exact Plan.safe_pure h₂ ⟨h₂, by simp⟩

/-- The steps on the index file leave the histories as they are, or make that of the key longer. -/
theorem safe_writeIndex (hK : Distinct K) (hkey : key ∈ K) (ho : History.Ordered (H key ++ [w]))
    (ha : History.Addressable (H key ++ [w]))
    (hdata : log.disk.get? (filePath root key "data") = some (.file ((H key).bytes ++ w.value))) :
    Plan.Safe late (TellsEither K root H key w) (Takes K root H key w)
      (writeIndexPlan key ⟨w.time, UInt64.ofNat (History.bytes (H key ++ [w])).length⟩
        (H key).tip.isSome) log := by
  rw [writeIndexPlan]
  have h₁ := ht.untouched (.enter "index_write")
  refine Plan.safe_act_bind (.inl ht) (Plan.safe_ask_bind ?_)
  have hpath : (log.enter "index_write").indexPath key = filePath root key "index" := by
    rw [indexPath, h₁.root_eq]
  rw [hpath]
  have hspot : DirSpot root (folderOf (filePath root key "index")) :=
    dirSpot_folderOf root key (.inr rfl)
  refine Plan.safe_access_bind (.inl h₁) fun res log₂ hx => ?_
  obtain ⟨t, hg, rfl⟩ := Access.gives_within hx
  cases res with
  | error e =>
    have h₂ := h₁.onto (h₁.onDisk.attempt_makeDirs hspot hg)
    exact Plan.safe_pure (.inl h₂) (h₂.takes_error _)
  | ok u =>
    obtain ⟨t₁, hs, hm⟩ := apply_makeDirs (h₁.onDisk.layout.clear hspot)
    obtain rfl : t₁ = t := Except.ok.inj (hs.symm.trans (apply_of_gives hg))
    have h₂ := h₁.onto (h₁.onDisk.makes hspot hm)
    set log₂ : Log := { log.enter "index_write" with disk := t₁ }
    obtain ⟨i, hi⟩ := exists_freshTemp t₁ (filePath root key "index")
    obtain ⟨fanout, hold⟩ := indexBase_eq log₂ h₂.onDisk_root hkey
    rw [h₂.root_eq] at hold
    refine Plan.safe_ask_bind (Plan.safe_access_bind (.inl h₂) fun res log₃ hx => ?_)
    -- Reading changes nothing; what is read, if it is read, is the index of the history so far.
    have hlog : log₃ = log₂ ∧ ∀ old, res = .ok old → old = Index.file fanout (H key).entries := by
      rcases hx with hx | ⟨⟨e, rfl⟩, rfl⟩
      · obtain ⟨rfl, rfl⟩ := Prod.mk.inj hx
        exact ⟨rfl, fun old h => (Except.ok.inj (hold.symm.trans h)).symm⟩
      · exact ⟨rfl, by simp⟩
    obtain ⟨rfl, hres⟩ := hlog
    cases res with
    | error e => exact Plan.safe_pure (.inl h₂) (h₂.takes_error _)
    | ok old =>
      obtain rfl := hres old rfl
      have hdata₂ : t₁.get? (filePath root key "data") = some (.file ((H key).bytes ++ w.value)) :=
        (hm.get?_of_not_above (hspot.not_above (fileSpot_filePath root key "data"))).trans hdata
      have hrecord : Plan.Safe late _ _ _ log₂ :=
        h₂.safe_record hK hkey ho ha i fanout hdata₂ fun q hq => (hm q).trans (if_pos hq)
      rw [← hi] at hrecord
      exact hrecord

theorem safe_write (hK : Distinct K) (hkey : key ∈ K) (ho : History.Ordered (H key ++ [w]))
    (ha : History.Addressable (H key ++ [w])) :
    Plan.Safe late (TellsEither K root H key w) (Takes K root H key w)
      (writePlan key (H key).tip w.value w.time) log := by
  rw [writePlan, wordAfter?_startBehind (ht.onDisk.stored key hkey).addressable ha, startBehind_tip]
  dsimp only
  rw [writeSpanPlan]
  refine ((ht.safe_writeData hK hkey w.value).mono (fun _ => .inl) fun _ _ => id).bind
    fun res log₁ h₁ _ => ?_
  cases res with
  | error e => exact Plan.safe_pure (.inl h₁.1) (h₁.1.takes_error e)
  | ok u =>
    refine (h₁.1.safe_writeIndex hK hkey ho ha (h₁.2 rfl)).bind fun res log₂ h₂ hal => ?_
    cases res with
    | error e => exact Plan.safe_pure hal ⟨hal, by simp⟩
    | ok u =>
      have htip : (grown H key w key).tip = some ⟨w.time,
          UInt64.ofNat (H key).bytes.length, UInt64.ofNat (History.bytes (H key ++ [w])).length⟩ := by
        rw [grown, Function.update_self]
        exact History.tip_concat (H key) w
      have h₃ := (h₂.done () rfl).publish htip
      exact Plan.safe_act_bind hal (Plan.safe_pure (.inr h₃) ⟨.inr h₃, fun _ _ => h₃⟩)

/-- Whatever fails when a value is appended, the log tells the histories from before or those
    after it; and those after it, if it is told to be there. -/
theorem safe_appendNow (hK : Distinct K) (hkey : key ∈ K) (hroom : (H key).HasRoom value)
    (now : Time) :
    Plan.Safe late (TellsEither K root H key ((H key).next value now))
      (Takes K root H key ((H key).next value now)) (appendNowPlan key value now) log := by
  rw [appendNowPlan]
  refine ((ht.safe_publishedTip hkey).mono (fun _ => .inl) fun _ _ => id).bind
    fun res log₁ h₁ _ => ?_
  cases res with
  | error e => exact Plan.safe_pure (.inl h₁.1) (h₁.1.takes_error e)
  | ok tip =>
    obtain rfl := h₁.2 tip rfl
    simp only [hroom.stamp_eq now]
    exact h₁.1.safe_write (w := (H key).next value now) hK hkey
      (hroom.ordered (ht.onDisk.stored key hkey).ordered now) (hroom.concat now)

/-- So it tells some histories, whether there is room for the value or not. -/
theorem safe_write_telling (hK : Distinct K) (hkey : key ∈ K)
    (hlater : ∀ l, (H key).getLast? = some l → l.time < time) (value : Bytes) :
    Plan.Safe late (Telling K root) (fun _ => Telling K root)
      (writePlan key (H key).tip value time) log := by
  have hs := ht.onDisk.stored key hkey
  by_cases ha : History.Addressable (H key ++ [⟨time, value⟩])
  · exact (ht.safe_write (w := ⟨time, value⟩) hK hkey (hs.ordered.concat hlater) ha).mono
      (fun _ => TellsEither.telling) fun _ _ h => h.either.telling
  · have hover := mt (History.addressable_concat hs.addressable (w := ⟨time, value⟩)).2 ha
    rw [writePlan, startBehind_tip, wordAfter?_eq_none.2 hover]
    exact Plan.safe_pure ⟨H, ht⟩ ⟨H, ht⟩

theorem safe_append_telling (hK : Distinct K) (hkey : key ∈ K) (value : Bytes) (time : Time) :
    Plan.Safe late (Telling K root) (fun _ => Telling K root) (appendPlan key value time) log := by
  rw [appendPlan]
  refine ((ht.safe_publishedTip hkey).mono (fun _ h => ⟨H, h⟩) fun _ _ => id).bind
    fun res log₁ h₁ hal => ?_
  cases res with
  | error e => exact Plan.safe_pure hal hal
  | ok tip =>
    obtain rfl := h₁.2 tip rfl
    dsimp only
    cases hfilter : (H key).tip.filter fun tip => decide (time ≤ tip.time) with
    | some tip => exact Plan.safe_pure hal hal
    | none => exact h₁.1.safe_write_telling hK hkey (lt_of_filter_tip hfilter) value

theorem safe_appendNow_telling (hK : Distinct K) (hkey : key ∈ K) (value : Bytes) (now : Time) :
    Plan.Safe late (Telling K root) (fun _ => Telling K root) (appendNowPlan key value now) log := by
  rw [appendNowPlan]
  refine ((ht.safe_publishedTip hkey).mono (fun _ h => ⟨H, h⟩) fun _ _ => id).bind
    fun res log₁ h₁ hal => ?_
  cases res with
  | error e => exact Plan.safe_pure hal hal
  | ok tip =>
    obtain rfl := h₁.2 tip rfl
    dsimp only
    cases hstamp : stamp (H key).tip now with
    | none => exact Plan.safe_pure hal hal
    | some time => exact h₁.1.safe_write_telling hK hkey (lt_of_stamp hstamp) value

/-! ## When nothing fails -/

/-- What is published is the tip of the history, if it has one. -/
theorem exists_publishedTip (hkey : key ∈ K) :
    ∃ log', log.publishedTip key = (.ok (H key).tip, log') ∧ Tells K root log' H ∧
      ((H key).tip = none → Untouched log log') := by
  have hs := ht.onDisk_root.storedTip_eq hkey
  have h₁ := ht.untouched (.enter "index_read")
  rw [Log.publishedTip, hs]
  cases htip : (H key).tip with
  | none => exact ⟨_, rfl, h₁, fun _ => .enter _⟩
  | some tip => exact ⟨_, rfl, h₁.publish htip, by simp⟩

/-- A value is appended. -/
theorem exists_appendNow (hK : Distinct K) (hkey : key ∈ K) (hroom : (H key).HasRoom value)
    (now : Time) :
    ∃ tip log', log.appendNow key value now = (.ok tip, log') ∧
      Tells K root log' (grown H key ((H key).next value now)) := by
  obtain ⟨log₁, hp, h₁, -⟩ := ht.exists_publishedTip hkey
  obtain ⟨tip, -, t₂, -, -, -, hw, -⟩ := h₁.onDisk_root.exists_write hK hkey (hroom.concat now)
  have happ : log.appendNow key value now =
      log₁.write key (H key).tip value ((H key).next value now).time := by
    rw [appendNow, hp]
    simp only [hroom.stamp_eq now]
  replace happ := happ.trans hw
  -- Left alone, the plan of the append ends so too.
  have hrun := Plan.ends_run false (appendNowPlan key value now) log
  rw [run_appendNowPlan, happ] at hrun
  exact ⟨tip, _, happ, ((ht.safe_appendNow hK hkey hroom now).ends _ _ hrun).done tip rfl⟩

/-- The value that is read is the last one of a beginning of the history, and there is one if the
    history has one. -/
theorem exists_readLatest (hkey : key ∈ K) :
    ∃ g log', log.readLatest key = (.ok (History.latest g), log') ∧ Untouched log log' ∧
      g <+: H key ∧ (g = [] → H key = []) := by
  obtain ⟨hu, hc⟩ := cached_cases ht.sound hkey
  obtain ⟨g, log₁, htip, hu₁, hg, hnil⟩ : ∃ g log₁, log.latestTip key = (.ok (History.tip g), log₁) ∧
      Untouched log log₁ ∧ g <+: H key ∧ (g = [] → H key = []) := by
    rw [latestTip]
    rcases hc with hnone | ⟨g, hg, hne, -, hcom⟩
    · have hs := (ht.untouched hu).onDisk_root.storedTip_eq hkey
      have hpair : log.cached key = (none, (log.cached key).2) := Prod.ext hnone rfl
      rw [hpair]
      exact ⟨H key, _, hs, hu.trans (.enter _), List.prefix_refl _, id⟩
    · obtain ⟨tip, htip⟩ := Option.ne_none_iff_exists'.1 (mt History.tip_eq_none.1 hne)
      have hpair : log.cached key = (some tip, (log.cached key).2) :=
        Prod.ext (hg.trans htip) rfl
      rw [hpair]
      exact ⟨g, _, by rw [htip], hu, hcom, fun h => absurd h hne⟩
  obtain ⟨later, hlater⟩ := hg
  have h₁ := ht.untouched hu₁
  obtain ⟨log₂, hv, tally, rfl⟩ := h₁.onDisk_root.exists_valueAt? hkey hlater.symm
  refine ⟨g, { log₁ with tally }, ?_, hu₁.trans ⟨rfl, rfl, fun _ => rfl⟩, ⟨later, hlater⟩, hnil⟩
  rw [readLatest, htip]
  exact hv

end Tells

end ReplicaRing.Log
