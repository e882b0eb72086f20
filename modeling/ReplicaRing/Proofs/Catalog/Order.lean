import ReplicaRing.Proofs.Catalog
import ReplicaRing.Proofs.Log.Overlay

/-!
# The order of changes to a catalog

Entries in order are told by what is found under each name (`Catalog.eq_of_find?`), so replicas of
different names may be put in their places in either order (`Catalog.place_comm`). When entries are
stored, their file is laid over the tree and nothing else is (`Catalog.exists_store_overlaid`).
-/

namespace ReplicaRing.Catalog

open FileTree Log

variable {K : Set String} {H : String → History} {t : FileTree} {root : Path} {c : Catalog}
  {es fs : List Replica} {r q : Replica} {entry entry' : Option Replica}

/-- What is found under each name tells the entries. -/
theorem eq_of_find? (hs : Sorted es) (hs' : Sorted fs)
    (h : ∀ name, find? es name = find? fs name) : es = fs := by
  have hnodup : ∀ {es}, Sorted es → es.Nodup := fun hs => (nodup_names hs).of_map
  have hmem : ∀ r, r ∈ es ↔ r ∈ fs := fun r =>
    ⟨fun hr => (mem_of_find? ((h r.name).symm.trans (find?_of_mem hs hr))).1,
      fun hr => (mem_of_find? ((h r.name).trans (find?_of_mem hs' hr))).1⟩
  exact ((List.perm_ext_iff_of_nodup (hnodup hs) (hnodup hs')).2 hmem).eq_of_pairwise
    (fun x y _ _ hxy hyx => absurd (String.lt_trans hxy hyx) (String.lt_irrefl _)) hs hs'

theorem place_comm (hs : Sorted es) (hne : r.name ≠ q.name) :
    place r (place q es) = place q (place r es) := by
  refine eq_of_find? (sorted_place (sorted_place hs q) r) (sorted_place (sorted_place hs r) q)
    fun name => ?_
  rw [find?_place (sorted_place hs q), find?_place (sorted_place hs r), find?_place hs,
    find?_place hs]
  by_cases hr : name = r.name
  · rw [if_pos hr, if_neg fun hq => hne (hr.symm.trans hq), if_pos hr]
  · rw [if_neg hr, if_neg hr]

/-- The entries with a replica in its place, if there is one to be put there. -/
def edited (es : List Replica) (entry : Option Replica) : List Replica :=
  entry.elim es fun r => place r es

theorem find?_edited_of_ne {name : String} (hs : Sorted es) (hne : ∀ r ∈ entry, r.name ≠ name) :
    find? (edited es entry) name = find? es name := by
  cases entry with
  | none => rfl
  | some r => exact (find?_place hs r name).trans (if_neg (hne r rfl).symm)

theorem edited_comm (hs : Sorted es) (hne : ∀ r ∈ entry, ∀ q ∈ entry', r.name ≠ q.name) :
    edited (edited es entry) entry' = edited (edited es entry') entry := by
  cases entry with
  | none => rfl
  | some r =>
    cases entry' with
    | none => rfl
    | some q => exact place_comm hs (hne r rfl q rfl).symm

/-- A catalog beside the logs is stored. -/
theorem exists_store_overlaid (hd : OnDisk K t root H) (hc : c.path = root ++ [fileName])
    (es : List Replica) :
    ∃ t', c.store t es = (.ok (), { c with entries := es }, t') ∧ OnDisk K t' root H ∧
      t.Overlaid (oneFile c.path (encode es)) t' := by
  obtain ⟨t', hst, hd'⟩ := exists_store hd hc es
  have hpath : c.path ≠ [] := by simp [hc]
  refine ⟨t', hst, hd', ?_⟩
  rw [store] at hst
  split at hst
  · rename_i hrun
    obtain ⟨-, -, rfl⟩ := hst
    have hlaid := overlaid_replaced [encode es] hpath hrun
    rwa [List.flatten_singleton] at hlaid
  · cases hst

end ReplicaRing.Catalog
