import ReplicaRing.Proofs.Log.Faults
import ReplicaRing.Proofs.Log.Refinement
import ReplicaRing.Proofs.Protocol

/-!
# What threads of a log do to each other

Of the history of a key, some is *committed*: the index file tells of it. Of that, some is
*published*: the cache has been told of it. A world (`Log.World`) is a log with both. It is sound
if the files tell the committed histories, and a tip in the cache is that of a history between
the published and the committed one (`Log.Sound`).

* A reader leaves everything as it is, and can rely on both histories to only get longer
  (`Log.reading`).
* A writer of a key touches nothing but the files of the key and the directories above them, and
  can rely on the others to leave alone the files of the key and both its histories
  (`Log.writing`).

What one of them does is what the others can rely on (`Log.Writes.around`, `Log.Writes.grows`
and so on).
-/

namespace ReplicaRing.Log

open FileTree

variable {K : Set String} {root r : Path} {key k : String} {h g : History}

/-! ## The files of a key -/

/-- The path is that of a file of the key. -/
inductive OwnFile (root : Path) (key : String) : Path → Prop
  | data : OwnFile root key (filePath root key "data")
  | index : OwnFile root key (filePath root key "index")
  | temp (i : Nat) : OwnFile root key (tempName (filePath root key "index") i)

/-- The name of a temporary file tells the digest of the key. -/
theorem tempName_inj {i j : Nat}
    (h : tempName (filePath root k "index") i = tempName (filePath root key "index") j) :
    Digest.sha1 (Bytes.ofString k) = Digest.sha1 (Bytes.ofString key) := by
  rw [tempName_filePath, tempName_filePath] at h
  have hlast := (List.append_inj h (by simp [folderOf])).2
  rw [List.cons.injEq] at hlast
  have hlist := congrArg String.toList hlast.1
  simp only [fileName, String.toList_append, List.append_assoc] at hlist
  have hhex := (List.append_inj hlist (by simp [Digest.length_sha1])).1
  exact hexDigits_injective (by simpa using hhex)

theorem OwnFile.fileSpot (h : OwnFile root key r) : FileSpot root r := by
  cases h with
  | data => exact fileSpot_filePath root key "data"
  | index => exact fileSpot_filePath root key "index"
  | temp i => exact fileSpot_tempName root key "index" i

/-- No file of one key belongs to another. -/
theorem OwnFile.not_territory (h : OwnFile root k r) (hK : Distinct K) (hk : k ∈ K) (hkey : key ∈ K)
    (hne : k ≠ key) : ¬Territory root key r := by
  cases h with
  | data => exact Log.not_territory hK hk hkey hne (.inl rfl)
  | index => exact Log.not_territory hK hk hkey hne (.inr rfl)
  | temp i =>
    have hspot := fileSpot_tempName root k "index" i
    rintro (h | h | h | h | ⟨j, h⟩)
    · exact (dirSpot_folderOf root key (.inl rfl)).not_above hspot h
    · exact (dirSpot_folderOf root key (.inr rfl)).not_above hspot h
    · exact tempName_ne_filePath root k key i (.inl rfl) h
    · exact tempName_ne_filePath root k key i (.inr rfl) h
    · exact hne (hK hk hkey (tempName_inj h))

/-! ## Worlds -/

/-- A log with the histories that are committed and published. -/
structure World where
  log : Log
  committed : String → History
  published : String → History

/-- The files tell what is committed, and the cache knows tips of nothing else, and of no less
    than what is published. -/
structure Sound (K : Set String) (root : Path) (w : World) : Prop where
  root_eq : w.log.root = root
  onDisk : OnDisk K w.log.disk root w.committed
  prefixed : ∀ k, w.published k <+: w.committed k
  cached : ∀ k ∈ K, ∀ tip, w.log.cache.peek k = some tip →
    ∃ g : History, w.published k <+: g ∧ g <+: w.committed k ∧ g.tip = some tip

/-- Histories get longer. -/
structure Grows (w w' : World) : Prop where
  committed : ∀ k, w.committed k <+: w'.committed k
  published : ∀ k, w.published k <+: w'.published k

/-- What a reader does. -/
structure Reads (w w' : World) : Prop where
  untouched : Untouched w.log w'.log
  committed : w'.committed = w.committed
  published : w'.published = w.published

/-- What a writer of the key does, with a value to be appended. -/
structure Writes (root : Path) (key : String) (value : Bytes) (w w' : World) : Prop where
  frame : ∀ r, ¬Territory root key r → w'.log.disk.get? r = w.log.disk.get? r
  dirs : ∀ r, w.log.disk.get? r = some .dir → w'.log.disk.get? r = some .dir
  others : ∀ k, k ≠ key → w'.committed k = w.committed k ∧ w'.published k = w.published k
  committed : w'.committed key = w.committed key ∨
    ∃ t, w'.committed key = w.committed key ++ [⟨t, value⟩]
  published : w.published key <+: w'.published key

/-- What happens around a writer of the key. -/
structure Around (root : Path) (key : String) (w w' : World) : Prop where
  files : ∀ r, OwnFile root key r → w'.log.disk.get? r = w.log.disk.get? r
  dirs : ∀ r, w.log.disk.get? r = some .dir → w'.log.disk.get? r = some .dir
  committed : w'.committed key = w.committed key
  published : w'.published key = w.published key

variable {w w' w₁ w₂ w₃ : World} {value : Bytes}

theorem Grows.refl (w : World) : Grows w w :=
  ⟨fun _ => List.prefix_refl _, fun _ => List.prefix_refl _⟩

theorem Grows.trans (h : Grows w₁ w₂) (h' : Grows w₂ w₃) : Grows w₁ w₃ :=
  ⟨fun k => (h.committed k).trans (h'.committed k), fun k => (h.published k).trans (h'.published k)⟩

theorem Around.refl (root : Path) (key : String) (w : World) : Around root key w w :=
  ⟨fun _ _ => rfl, fun _ => id, rfl, rfl⟩

theorem Around.trans (h : Around root key w₁ w₂) (h' : Around root key w₂ w₃) :
    Around root key w₁ w₃ :=
  ⟨fun r hr => (h'.files r hr).trans (h.files r hr), fun r hr => h'.dirs r (h.dirs r hr),
    h'.committed.trans h.committed, h'.published.trans h.published⟩

theorem Reads.grows (h : Reads w w') : Grows w w' := by
  constructor <;> intro k
  · rw [h.committed]
  · rw [h.published]

theorem Reads.around (h : Reads w w') (root : Path) (key : String) : Around root key w w' := by
  refine ⟨fun r _ => ?_, fun r hr => ?_, ?_, ?_⟩
  · rw [h.untouched.disk]
  · rwa [h.untouched.disk]
  · rw [h.committed]
  · rw [h.published]

theorem Writes.grows (h : Writes root key value w w') : Grows w w' := by
  constructor <;> intro k <;> by_cases hk : k = key
  · subst hk
    rcases h.committed with h | ⟨t, h⟩
    · rw [h]
    · exact h ▸ List.prefix_append _ _
  · rw [(h.others k hk).1]
  · exact hk ▸ h.published
  · rw [(h.others k hk).2]

theorem Writes.around (h : Writes root key value w w') (hK : Distinct K) (hk : k ∈ K) (hkey : key ∈ K)
    (hne : k ≠ key) : Around root k w w' :=
  ⟨fun r hr => h.frame r (hr.not_territory hK hk hkey hne), h.dirs, (h.others k hne).1,
    (h.others k hne).2⟩

/-- What a reader may do and rely on. -/
def reading (K : Set String) (root : Path) : Protocol Log World where
  state := World.log
  sound := Sound K root
  rely := Grows
  guar := Reads
  rely_refl := Grows.refl
  rely_trans := Grows.trans

/-- What a writer of the key may do and rely on. -/
def writing (K : Set String) (root : Path) (key : String) (value : Bytes) :
    Protocol Log World where
  state := World.log
  sound := Sound K root
  rely := Around root key
  guar := Writes root key value
  rely_refl := Around.refl root key
  rely_trans := Around.trans

/-! ## What is true of sound worlds -/

namespace Sound

variable (hs : Sound K root w)

include hs

/-- What is not looked at does not matter. -/
theorem untouched {log' : Log} (h : Untouched w.log log') :
    Sound K root { w with log := log' } where
  root_eq := h.root.trans hs.root_eq
  onDisk := by
    show OnDisk K log'.disk root w.committed
    rw [h.disk]
    exact hs.onDisk
  prefixed := hs.prefixed
  cached k hk tip hp := hs.cached k hk tip (h.cache k ▸ hp)

/-- The index file of a key tells the tip of what is committed. -/
theorem tipAt_eq (hkey : key ∈ K) :
    tipAt w.log.disk (w.log.indexPath key) = .ok (w.committed key).tip :=
  congrArg Prod.fst (OnDisk.storedTip_eq (hs.root_eq ▸ hs.onDisk) hkey)

/-- The index file of a key decodes to the entries of what is committed. -/
theorem indexAt_eq (hkey : key ∈ K) :
    ∃ x, indexAt w.log.disk (w.log.indexPath key) = .ok x ∧
      (x = none ∧ w.committed key = [] ∨
        ∃ y : Index, x = some y ∧ y.Holds (w.committed key).entries) := by
  obtain ⟨x, h, hx⟩ := OnDisk.exists_loadIndex (hs.root_eq ▸ hs.onDisk) hkey
  exact ⟨x, congrArg Prod.fst h, hx⟩

/-- The data file of a key that has been written to begins with the bytes of what is committed. -/
theorem read_data (hkey : key ∈ K) (hne : w.committed key ≠ []) :
    ∃ junk, w.log.disk.read (w.log.dataPath key) = .ok ((w.committed key).bytes ++ junk) := by
  rcases (hs.onDisk.stored key hkey).data with ⟨-, hnil⟩ | ⟨junk, hg⟩
  · exact absurd hnil hne
  · rw [dataPath, hs.root_eq]
    have hr := hs.onDisk.layout.rooted _ (fileSpot_filePath root key "data").root_above (by simp [hg])
    exact ⟨junk, read_of_get? hr hg⟩

end Sound

end ReplicaRing.Log
