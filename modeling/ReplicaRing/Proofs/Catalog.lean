import ReplicaRing.Catalog
import ReplicaRing.Proofs.Log.Disk

/-!
# Changes to a catalog

The entries of a catalog are in order of their names (`Catalog.Sorted`), one for each name.
A replica put in its place is found under its name, and nothing else changes
(`Catalog.find?_place`).

A catalog that lies beside the logs of its store can always be stored, and the logs do not
notice (`Catalog.exists_store`).
-/

namespace ReplicaRing

/-! ## Entries -/

namespace Catalog

variable {es : List Replica} {r s : Replica} {name : String}

/-- The names of the entries increase. -/
def Sorted (es : List Replica) : Prop := es.Pairwise fun r s => r.name < s.name

theorem lt_or_eq_or_gt (a b : String) : a < b ∨ a = b ∨ b < a := by
  by_cases h : a < b
  · exact .inl h
  · by_cases h' : b < a
    · exact .inr (.inr h')
    · exact .inr (.inl (String.le_antisymm (String.not_lt.1 h') (String.not_lt.1 h)))

theorem find?_eq_none (h : ∀ s ∈ es, name < s.name) : find? es name = none := by
  rw [find?, List.find?_eq_none]
  intro s hs
  simpa using (String.ne_of_lt (h s hs)).symm

theorem find?_place (hs : Sorted es) (r : Replica) (name : String) :
    find? (place r es) name = if name = r.name then some r else find? es name := by
  induction es with
  | nil =>
    by_cases h : name = r.name
    · simp [place, find?, h]
    · simp [place, find?, h, Ne.symm h]
  | cons s es ih =>
    obtain ⟨hlt, hs'⟩ := List.pairwise_cons.1 hs
    rw [place]
    by_cases hrs : r.name < s.name
    · rw [if_pos hrs]
      by_cases h : name = r.name
      · simp [find?, h]
      · simp [find?, h, Ne.symm h]
    · rw [if_neg hrs]
      by_cases heq : r.name = s.name
      · rw [if_pos heq]
        by_cases h : name = r.name
        · simp [find?, h]
        · have hsn : ¬s.name = name := fun e => h (by rw [heq, e])
          simp [find?, h, Ne.symm h, hsn]
      · rw [if_neg heq]
        have ih := ih hs'
        rw [find?] at ih ⊢
        by_cases h : s.name = name
        · have hne : ¬name = r.name := fun e => heq (by rw [h, e])
          rw [List.find?_cons_of_pos (by simpa using h), if_neg hne, find?,
            List.find?_cons_of_pos (by simpa using h)]
        · rw [List.find?_cons_of_neg (by simpa using h), ih, find?, find?,
            List.find?_cons_of_neg (by simpa using h)]

theorem mem_place (h : s ∈ place r es) : s = r ∨ s ∈ es := by
  induction es with
  | nil => exact .inl (List.mem_singleton.1 h)
  | cons t es ih =>
    rw [place] at h
    split at h
    · rcases List.mem_cons.1 h with h | h
      · exact .inl h
      · exact .inr h
    · split at h
      · rcases List.mem_cons.1 h with h | h
        · exact .inl h
        · exact .inr (List.mem_cons_of_mem _ h)
      · rcases List.mem_cons.1 h with rfl | h
        · exact .inr List.mem_cons_self
        · rcases ih h with h | h
          · exact .inl h
          · exact .inr (List.mem_cons_of_mem _ h)

theorem sorted_place (hs : Sorted es) (r : Replica) : Sorted (place r es) := by
  induction es with
  | nil => exact List.pairwise_singleton _ _
  | cons s es ih =>
    obtain ⟨hlt, hs'⟩ := List.pairwise_cons.1 hs
    rw [place]
    split
    · rename_i h
      refine List.pairwise_cons.2 ⟨fun t ht => ?_, hs⟩
      rcases List.mem_cons.1 ht with rfl | ht
      · exact h
      · exact String.lt_trans h (hlt t ht)
    · rename_i h
      split
      · rename_i heq
        exact List.pairwise_cons.2 ⟨fun t ht => heq ▸ hlt t ht, hs'⟩
      · rename_i hne
        refine List.pairwise_cons.2 ⟨fun t ht => ?_, ih hs'⟩
        rcases mem_place ht with rfl | ht
        · rcases lt_or_eq_or_gt s.name t.name with h' | h' | h'
          · exact h'
          · exact absurd h'.symm hne
          · exact absurd h' h
        · exact hlt t ht

theorem mem_of_find? (h : find? es name = some r) : r ∈ es ∧ r.name = name := by
  rw [find?] at h
  exact ⟨List.mem_of_find?_eq_some h, by simpa using List.find?_some h⟩

theorem find?_of_mem (hs : Sorted es) (hr : r ∈ es) : find? es r.name = some r := by
  induction es with
  | nil => nomatch hr
  | cons s es ih =>
    obtain ⟨hlt, hs'⟩ := List.pairwise_cons.1 hs
    rcases List.mem_cons.1 hr with rfl | hr
    · simp [find?]
    · have hne : ¬s.name = r.name := String.ne_of_lt (hlt r hr)
      rw [find?, List.find?_cons_of_neg (by simpa using hne)]
      exact ih hs' hr

theorem nodup_names (h : Sorted es) : (es.map (·.name)).Nodup :=
  (List.pairwise_map.2 h).imp fun h => String.ne_of_lt h

end Catalog

/-! ## The file -/

namespace Log

open FileTree

variable {K : Set String} {H : String → History} {t t' : FileTree} {root : Path} {name : String}
  {bs : Bytes}

theorem fileSpot_beside (root : Path) (hn : ¬IsFolder name) : FileSpot root (root ++ [name]) :=
  ⟨List.prefix_append _ _, .inr ⟨name, hn, rfl⟩⟩

theorem Layout.rooted_beside (hl : Layout t root) (name : String) : t.Rooted (root ++ [name]) :=
  rooted_concat hl.root_dir

theorem filePath_ne_beside (root : Path) (key folder name : String) :
    filePath root key folder ≠ root ++ [name] := fun h => by
  have := congrArg List.length h
  rw [length_filePath, List.length_append, List.length_singleton] at this
  omega

/-- What lies beside the logs is not looked at. -/
theorem OnDisk.writes_beside (hd : OnDisk K t root H) (hn : ¬IsFolder name)
    (hw : t.Writes (root ++ [name]) bs t') : OnDisk K t' root H where
  layout := hd.layout.writes (hd.layout.rooted_beside name) (fileSpot_beside root hn) hw
  stored k hk := (hd.stored k hk).congr fun folder _ =>
    hw.get?_of_ne (filePath_ne_beside root k folder name)

theorem OnDisk.moves_beside {name' : String} (hd : OnDisk K t root H) (hn : ¬IsFolder name)
    (hn' : ¬IsFolder name') (hm : t.Moves (root ++ [name]) (root ++ [name']) bs t') :
    OnDisk K t' root H where
  layout := hd.layout.moves (hd.layout.rooted_beside name') (fileSpot_beside root hn)
    (fileSpot_beside root hn') hm
  stored k hk := (hd.stored k hk).congr fun folder _ => by
    rw [hm, if_neg (filePath_ne_beside root k folder name'),
      if_neg (filePath_ne_beside root k folder name)]

end Log

namespace Catalog

open FileTree Log

variable {K : Set String} {H : String → History} {t : FileTree} {root : Path}

theorem not_isFolder_fileName : ¬IsFolder fileName := by
  rintro (h | h) <;> exact absurd h (by decide)

theorem tempName_fileName (root : Path) (i : Nat) :
    tempName (root ++ [fileName]) i = root ++ [fileName ++ ".tmp-" ++ toString i] := by
  rw [tempName, List.dropLast_concat]
  simp

theorem not_isFolder_tempName (i : Nat) : ¬IsFolder (fileName ++ ".tmp-" ++ toString i) := by
  have hlen : 17 ≤ (fileName ++ ".tmp-" ++ toString i).length := by
    rw [String.length_append, String.length_append]
    have h₁ : fileName.length = 12 := by decide
    have h₂ : ".tmp-".length = 5 := by decide
    omega
  rintro (h | h)
  · rw [h] at hlen
    exact absurd hlen (by decide)
  · rw [h] at hlen
    exact absurd hlen (by decide)

/-- A catalog beside the logs is stored, and the logs are as before. -/
theorem exists_store {c : Catalog} (hd : OnDisk K t root H) (hc : c.path = root ++ [fileName])
    (es : List Replica) :
    ∃ t', c.store t es = (.ok (), { c with entries := es }, t') ∧ OnDisk K t' root H := by
  obtain ⟨i, hi⟩ : ∃ i, t.freshTemp c.path = root ++ [fileName ++ ".tmp-" ++ toString i] := by
    rw [freshTemp, hc]
    exact ⟨_, tempName_fileName root _⟩
  set temp := fileName ++ ".tmp-" ++ toString i
  have hn : ¬IsFolder temp := not_isFolder_tempName i
  have hnd : ∀ {t : FileTree}, OnDisk K t root H → ∀ {name : String}, ¬IsFolder name →
      t.get? (root ++ [name]) ≠ some .dir := fun hd _ hn =>
    hd.layout.ne_dir (fileSpot_beside root hn)
  obtain ⟨t₁, ht₁, hw₁⟩ := apply_clear (hd.layout.rooted_beside temp) (hnd hd hn)
  have hd₁ := hd.writes_beside hn hw₁
  obtain ⟨t₂, ht₂, hw₂⟩ := apply_add (hd₁.layout.rooted_beside temp) hw₁.get?_self (encode es)
  have hd₂ := hd₁.writes_beside hn hw₂
  obtain ⟨t₃, ht₃, hm₃⟩ := apply_rename (hd₂.layout.rooted_beside temp)
    (hd₂.layout.rooted_beside fileName) hw₂.get?_self (hnd hd₂ not_isFolder_fileName)
  refine ⟨t₃, ?_, hd₂.moves_beside hn not_isFolder_fileName hm₃⟩
  have hrun : t.run (replaceSteps (root ++ [temp]) c.path (encode es)) = (.ok (), t₃) := by
    rw [replaceSteps, run_cons_of_apply ht₁, run_cons_of_apply ht₂, hc, run_cons_of_apply ht₃,
      run_nil]
  rw [store, hi]
  simp only [hrun]

end Catalog

end ReplicaRing
