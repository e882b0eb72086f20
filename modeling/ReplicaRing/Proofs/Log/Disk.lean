import Mathlib.Data.Set.Function
import ReplicaRing.Proofs.FileTree
import ReplicaRing.Proofs.Log.History

/-!
# Histories on disk

The files of a log lie below its root, each in a directory three levels down
(`Log.Layout`). The two files of a key tell its history (`Log.Stored`): the data file begins
with the bytes of the history, and the index file holds its entries; a key that was never
written to has no index file. Behind the bytes, the data file may hold others that no entry
tells of, and there may be temporary files.

Keys have files of their own as long as their digests differ (`Log.filePath_inj`), and a
temporary file is no file of any key (`Log.tempName_ne_filePath`). So a change to the files
of one key leaves all others as they are (`Log.OnDisk.writes_data`, `moves_index`).
-/

namespace ReplicaRing.Log

open FileTree

variable {t t' : FileTree} {root p q : Path} {bs : Bytes}

/-! ## The layout of the files -/

/-- The directories that the files of keys are in. -/
def IsFolder (folder : String) : Prop := folder = "data" ∨ folder = "index"

/-- Where a file may be: in a directory of the log, or right below `root` but under the name of
    none of them, where a store keeps its catalog. -/
def FileSpot (root p : Path) : Prop :=
  root <+: p ∧ (p.length = root.length + 4 ∨ ∃ name, ¬IsFolder name ∧ p = root ++ [name])

/-- Where a directory may be. -/
def DirSpot (root p : Path) : Prop :=
  p <+: root ∨ ∃ folder, IsFolder folder ∧ root ++ [folder] <+: p ∧ p.length < root.length + 4

/-- Below `root` there are files and directories where they may be, each in directories. -/
structure Layout (t : FileTree) (root : Path) : Prop where
  root_dir : ∀ q, q <+: root → t.get? q = some .dir
  file_spot : ∀ p bs, root <+: p → t.get? p = some (.file bs) → FileSpot root p
  dir_spot : ∀ p, root <+: p → t.get? p = some .dir → DirSpot root p
  rooted : ∀ p, root <+: p → t.get? p ≠ none → t.Rooted p

theorem DirSpot.upward (hp : DirSpot root p) (hq : q <+: p) : DirSpot root q := by
  rcases hp with hp | ⟨folder, hf, hp, hlen⟩
  · exact .inl (hq.trans hp)
  · rcases List.prefix_or_prefix_of_prefix hq hp with h | h
    · rcases List.prefix_concat_iff.1 h with rfl | h
      · exact .inr ⟨folder, hf, List.prefix_refl _, Nat.lt_of_le_of_lt hp.length_le hlen⟩
      · exact .inl h
    · exact .inr ⟨folder, hf, h, Nat.lt_of_le_of_lt hq.length_le hlen⟩

/-- No file may be where a directory may be, or above. -/
theorem DirSpot.not_above (hp : DirSpot root p) (hq : FileSpot root q) : ¬q <+: p := by
  intro h
  obtain ⟨-, hq⟩ := hq
  have hlong : root.length < q.length := by
    rcases hq with hlen | ⟨x, -, rfl⟩
    · omega
    · simp
  rcases hp.upward h with h | ⟨folder, hf, h, hlen⟩
  · have := h.length_le
    omega
  · rcases hq with hlen' | ⟨x, hx, rfl⟩
    · omega
    · rw [List.prefix_append_right_inj, List.cons_prefix_cons] at h
      exact hx (h.1 ▸ hf)

theorem FileSpot.root_above (hp : FileSpot root p) : root <+: p := hp.1

theorem FileSpot.not_above_root (hp : FileSpot root p) : ¬p <+: root :=
  DirSpot.not_above (.inl (List.prefix_refl root)) hp

namespace Layout

/-- No file is in the way of a directory. -/
theorem clear (hl : Layout t root) (hp : DirSpot root p) : t.Clear p := by
  intro q hq bs hf
  by_cases hr : root <+: q
  · exact hp.not_above (hl.file_spot q bs hr hf) hq
  · rcases hp.upward hq with h | ⟨folder, -, h, -⟩
    · rw [hl.root_dir q h] at hf
      cases hf
    · exact hr ((List.prefix_append root [folder]).trans h)

theorem ne_dir (hl : Layout t root) (hp : FileSpot root p) : t.get? p ≠ some .dir := fun h =>
  (hl.dir_spot p hp.root_above h).not_above hp (List.prefix_refl p)

theorem makes (hl : Layout t root) (hp : DirSpot root p) (hm : t.Makes p t') : Layout t' root where
  root_dir q hq := by rw [hm q, hl.root_dir q hq, ite_self]
  file_spot q bs hq hf := by
    rw [hm q] at hf
    split at hf
    · cases hf
    · exact hl.file_spot q bs hq hf
  dir_spot q hq hd := by
    rw [hm q] at hd
    split at hd
    · rename_i hqp
      exact hp.upward hqp
    · exact hl.dir_spot q hq hd
  rooted q hq hn := by
    intro r hr hne
    rw [hm r]
    split
    · rfl
    · rename_i hrp
      rw [hm q, if_neg fun h => hrp (hr.trans h)] at hn
      exact hl.rooted q hq hn r hr hne

theorem writes (hl : Layout t root) (hr : t.Rooted p) (hp : FileSpot root p)
    (hw : t.Writes p bs t') : Layout t' root where
  root_dir q hq := by
    rw [hw.get?_of_ne, hl.root_dir q hq]
    rintro rfl
    exact hp.not_above_root hq
  file_spot q bs' hq hf := by
    rw [hw q] at hf
    split at hf
    · rename_i h
      exact h ▸ hp
    · exact hl.file_spot q bs' hq hf
  dir_spot q hq hd := by
    rw [hw q] at hd
    split at hd
    · cases hd
    · exact hl.dir_spot q hq hd
  rooted q hq hn := by
    refine Rooted.writes ?_ (hl.ne_dir hp) hw
    rw [hw q] at hn
    split at hn
    · rename_i h
      exact h ▸ hr
    · exact hl.rooted q hq hn

theorem moves (hl : Layout t root) (hr : t.Rooted q) (hp : FileSpot root p)
    (hq : FileSpot root q) (hm : t.Moves p q bs t') : Layout t' root where
  root_dir r hrr := by
    rw [hm r, if_neg, if_neg, hl.root_dir r hrr]
    · rintro rfl
      exact hp.not_above_root hrr
    · rintro rfl
      exact hq.not_above_root hrr
  file_spot r bs' hr hf := by
    rw [hm r] at hf
    split at hf
    · rename_i h
      exact h ▸ hq
    · split at hf
      · cases hf
      · exact hl.file_spot r bs' hr hf
  dir_spot r hr hd := by
    rw [hm r] at hd
    split at hd
    · cases hd
    · split at hd
      · cases hd
      · exact hl.dir_spot r hr hd
  rooted r hrr hn := by
    refine Rooted.moves ?_ (hl.ne_dir hp) (hl.ne_dir hq) hm
    rw [hm r] at hn
    split at hn
    · rename_i h
      exact h ▸ hr
    · split at hn
      · exact absurd rfl hn
      · exact hl.rooted r hrr hn

end Layout

/-! ## The paths of keys -/

variable {key key' folder folder' : String}

/-- The name of a file of a key. -/
def fileName (key folder : String) : String :=
  String.ofList (Bytes.hexDigits (Digest.sha1 (Bytes.ofString key))) ++ "." ++ folder

theorem filePath_eq (root : Path) (key folder : String) :
    filePath root key folder = folderOf (filePath root key folder) ++ [fileName key folder] := by
  simp [filePath, folderOf, fileName]

@[simp] theorem length_filePath (root : Path) (key folder : String) :
    (filePath root key folder).length = root.length + 4 := by
  simp [filePath]

theorem filePath_ne_nil (root : Path) (key folder : String) : filePath root key folder ≠ [] :=
  List.ne_nil_of_length_pos (by simp)

theorem fileSpot_filePath (root : Path) (key folder : String) :
    FileSpot root (filePath root key folder) :=
  ⟨List.prefix_append _ _, .inl (length_filePath root key folder)⟩

theorem dirSpot_folderOf (root : Path) (key : String) (hf : IsFolder folder) :
    DirSpot root (folderOf (filePath root key folder)) := by
  refine .inr ⟨folder, hf, ?_, ?_⟩
  · rw [folderOf, filePath, List.dropLast_append_of_ne_nil (by simp)]
    exact (List.prefix_append_right_inj root).2 ⟨_, rfl⟩
  · rw [folderOf, List.length_dropLast, length_filePath]
    omega

@[simp] theorem length_hexDigits (bs : Bytes) : (Bytes.hexDigits bs).length = 2 * bs.length := by
  induction bs with
  | nil => rfl
  | cons b bs ih =>
    rw [Bytes.hexDigits] at *
    rw [List.flatMap_cons, List.length_append, ih, List.length_cons]
    simp
    omega

theorem hexDigits_injective : Function.Injective Bytes.hexDigits := fun a b h => by
  have := congrArg Bytes.ofHexDigits? h
  rwa [Bytes.ofHexDigits?_hexDigits, Bytes.ofHexDigits?_hexDigits, Option.some.injEq] at this

theorem length_fileName (key folder : String) :
    (fileName key folder).length = 41 + folder.length := by
  rw [fileName, String.length_append, String.length_append, String.length_ofList, length_hexDigits,
    Digest.length_sha1]
  rfl

/-- A path tells its folder and the digest of its key. -/
theorem filePath_inj (h : filePath root key folder = filePath root key' folder') :
    folder = folder' ∧
      Digest.sha1 (Bytes.ofString key) = Digest.sha1 (Bytes.ofString key') := by
  simp only [filePath, List.append_cancel_left_eq, List.cons.injEq] at h
  obtain ⟨rfl, -, -, h, -⟩ := h
  refine ⟨rfl, hexDigits_injective (String.ofList_injective ?_)⟩
  exact (String.append_left_inj _).1 ((String.append_left_inj _).1 h)

theorem dataPath_ne_indexPath (root : Path) (key key' : String) :
    filePath root key "data" ≠ filePath root key' "index" := fun h =>
  absurd (filePath_inj h).1 (by decide)

/-! ## Temporary files -/

theorem tempName_filePath (root : Path) (key folder : String) (i : Nat) :
    tempName (filePath root key folder) i = folderOf (filePath root key folder) ++
      [fileName key folder ++ ".tmp-" ++ toString i] := by
  rw [tempName, folderOf, filePath_eq root key folder]
  simp

theorem fileSpot_tempName (root : Path) (key folder : String) (i : Nat) :
    FileSpot root (tempName (filePath root key folder) i) := by
  rw [tempName_filePath]
  refine ⟨?_, .inl ?_⟩
  · rw [folderOf, filePath, List.dropLast_append_of_ne_nil (by simp), List.append_assoc]
    exact List.prefix_append _ _
  · rw [List.length_append, folderOf, List.length_dropLast, length_filePath]
    rfl

/-- The name of a temporary file is longer than that of any file of a key. -/
theorem tempName_ne_filePath (root : Path) (key key' : String) (i : Nat) (hf : IsFolder folder) :
    tempName (filePath root key "index") i ≠ filePath root key' folder := by
  intro h
  rw [tempName_filePath, filePath_eq root key' folder] at h
  have hlast := (List.append_inj h (by simp [folderOf])).2
  rw [List.cons.injEq] at hlast
  have hlen := congrArg String.length hlast.1
  rw [String.length_append, String.length_append, length_fileName, length_fileName] at hlen
  have hfolder : folder.length ≤ 5 := by
    rcases hf with rfl | rfl <;> decide
  have h5 : "index".length = 5 := by decide
  have htmp : ".tmp-".length = 5 := by decide
  omega

/-! ## The files of keys -/

/-- The files of `key` tell the history `h`. -/
structure Stored (t : FileTree) (root : Path) (key : String) (h : History) : Prop where
  ordered : h.Ordered
  addressable : h.Addressable
  /-- Behind the bytes of the history there may be others. -/
  data : t.get? (filePath root key "data") = none ∧ h = [] ∨
    ∃ junk, t.get? (filePath root key "data") = some (.file (h.bytes ++ junk))
  index : t.get? (filePath root key "index") = none ∧ h = [] ∨ h ≠ [] ∧
    ∃ fanout, t.get? (filePath root key "index") = some (.file (Index.file fanout h.entries))

/-- The files below `root` tell the histories of the keys in `K`. -/
structure OnDisk (K : Set String) (t : FileTree) (root : Path) (H : String → History) :
    Prop where
  layout : Layout t root
  stored : ∀ k ∈ K, Stored t root k (H k)

/-- No two of the keys have the same digest. -/
def Distinct (K : Set String) : Prop := Set.InjOn (fun k => Digest.sha1 (Bytes.ofString k)) K

variable {K : Set String} {H : String → History} {h : History}

theorem Distinct.filePath_ne (hK : Distinct K) (hk : key ∈ K) (hk' : key' ∈ K) (hne : key ≠ key')
    (root : Path) (folder folder' : String) :
    filePath root key folder ≠ filePath root key' folder' := fun h =>
  hne (hK hk hk' (filePath_inj h).2)

/-- The files of a key tell one history. -/
theorem Stored.unique {g : History} (hs : Stored t root key h) (hs' : Stored t root key g) :
    h = g := by
  rcases hs.index with ⟨hi, rfl⟩ | ⟨hne, fanout, hi⟩ <;>
    rcases hs'.index with ⟨hi', rfl⟩ | ⟨hne', fanout', hi'⟩
  · rfl
  · rw [hi] at hi'
    cases hi'
  · rw [hi] at hi'
    cases hi'
  · -- The index file decodes to the entries of both.
    rw [hi, Option.some.injEq, Item.file.injEq] at hi'
    obtain ⟨x, hx, hh⟩ :=
      Index.decode_file (History.ascending_entries hs.ordered hs.addressable) fanout
    obtain ⟨y, hy, hg⟩ :=
      Index.decode_file (History.ascending_entries hs'.ordered hs'.addressable) fanout'
    rw [hi', hy, Except.ok.injEq] at hx
    have he : h.entries = g.entries := by rw [← hh.toList, ← hx, hg.toList]
    rcases hs.data with ⟨-, hnil⟩ | ⟨junk, hd⟩
    · exact absurd hnil hne
    rcases hs'.data with ⟨-, hnil⟩ | ⟨junk', hd'⟩
    · exact absurd hnil hne'
    rw [hd, Option.some.injEq, Item.file.injEq] at hd'
    refine History.eq_of_entriesFrom he hd' ?_ ?_
    · rw [Nat.zero_add]
      exact hs.addressable
    · rw [Nat.zero_add]
      exact hs'.addressable

theorem Stored.congr (hs : Stored t root key h)
    (hg : ∀ folder, IsFolder folder →
      t'.get? (filePath root key folder) = t.get? (filePath root key folder)) :
    Stored t' root key h where
  ordered := hs.ordered
  addressable := hs.addressable
  data := by
    rw [hg "data" (.inl rfl)]
    exact hs.data
  index := by
    rw [hg "index" (.inr rfl)]
    exact hs.index

namespace OnDisk

variable (hd : OnDisk K t root H)

include hd

/-- New directories are seen nowhere. -/
theorem makes (hp : DirSpot root p) (hm : t.Makes p t') : OnDisk K t' root H where
  layout := hd.layout.makes hp hm
  stored k hk := (hd.stored k hk).congr fun folder _ =>
    hm.get?_of_not_above (hp.not_above (fileSpot_filePath root k folder))

/-- Temporary files are not looked at. -/
theorem writes_temp {i : Nat} (hr : t.Rooted (tempName (filePath root key "index") i))
    (hw : t.Writes (tempName (filePath root key "index") i) bs t') : OnDisk K t' root H where
  layout := hd.layout.writes hr (fileSpot_tempName _ _ _ _) hw
  stored k hk := (hd.stored k hk).congr fun _ hf =>
    hw.get?_of_ne (tempName_ne_filePath root key k i hf).symm

/-- What stands in the data file behind the bytes of the history is not looked at. -/
theorem writes_data (hK : Distinct K) (hkey : key ∈ K) {junk : Bytes}
    (hr : t.Rooted (filePath root key "data"))
    (hw : t.Writes (filePath root key "data") ((H key).bytes ++ junk) t') :
    OnDisk K t' root H where
  layout := hd.layout.writes hr (fileSpot_filePath _ _ _) hw
  stored k hk := by
    by_cases hkk : k = key
    · subst hkk
      have hs := hd.stored k hk
      refine ⟨hs.ordered, hs.addressable, .inr ⟨junk, hw.get?_self⟩, ?_⟩
      rw [hw.get?_of_ne (dataPath_ne_indexPath root k k).symm]
      exact hs.index
    · exact (hd.stored k hk).congr fun folder _ =>
        hw.get?_of_ne (hK.filePath_ne hk hkey hkk root folder "data")

/-- The move of a temporary file over the index file of a key is the moment at which a write
    counts. -/
theorem moves_index (hK : Distinct K) (hkey : key ∈ K) {i fanout : Nat} {w : Write} {junk : Bytes}
    (ho : History.Ordered (H key ++ [w])) (ha : History.Addressable (H key ++ [w]))
    (hr : t.Rooted (filePath root key "index"))
    (hdata : t.get? (filePath root key "data") =
      some (.file (History.bytes (H key ++ [w]) ++ junk)))
    (hm : t.Moves (tempName (filePath root key "index") i) (filePath root key "index")
      (Index.file fanout (History.entries (H key ++ [w]))) t') :
    OnDisk K t' root (Function.update H key (H key ++ [w])) where
  layout := hd.layout.moves hr (fileSpot_tempName _ _ _ _) (fileSpot_filePath _ _ _) hm
  stored k hk := by
    have hother : ∀ folder, IsFolder folder →
        filePath root k folder ≠ filePath root key "index" →
        t'.get? (filePath root k folder) = t.get? (filePath root k folder) := by
      intro folder hf hne
      rw [hm, if_neg hne, if_neg (tempName_ne_filePath root key k i hf).symm]
    by_cases hkk : k = key
    · subst hkk
      rw [Function.update_self]
      refine ⟨ho, ha, .inr ⟨junk, ?_⟩, .inr ⟨by simp, fanout, ?_⟩⟩
      · rw [hother "data" (.inl rfl) (dataPath_ne_indexPath root k k), hdata]
      · rw [hm, if_pos rfl]
    · rw [Function.update_of_ne hkk]
      exact (hd.stored k hk).congr fun folder hf =>
        hother folder hf (hK.filePath_ne hk hkey hkk root folder "index")

end OnDisk

end ReplicaRing.Log
