import ReplicaRing.Proofs.Catalog.Plan

/-!
# A catalog is a durable map

Seen from outside, a catalog is a map from names to replicas. The calls that can be made of it
(`Catalog.Call`) are also made of such a map (`Catalog.Call.onMap`), where they are plain.

Main statement: on a directory that was empty, whatever calls were made, whichever of their
accesses to files failed, and however often the catalog was opened again, the catalog answers as
the map does, or with an error that changes nothing; and opening its file again gives the same
entries (`Catalog.durable`).

A failure is not late here: the file that is moved stays where it was when a move fails. And the
payload of the file is shorter than `2 ^ 32` bytes, as longer ones are not read back
(`Catalog.decode_encode_of_ge`).
-/

namespace ReplicaRing.Catalog

open FileTree

variable {point : String → Point} {dir : Path} {c c' : Catalog} {t t' : FileTree}
  {es : List Replica} {α : Type}

/-! ## Calls -/

/-- What a catalog can be asked to do. -/
inductive Call
  | insert (name : String) (rank : Rank)
  | upsert (name : String) (rank : Rank)
  | setRank (name : String) (rank : Rank)
  /-- The file is opened again. -/
  | reopen

/-- What a catalog answers. -/
inductive Answer
  | added (b : Bool)
  | previous (rank : Option Rank)
  | found (b : Bool)
  | opened
deriving DecidableEq

/-- The replica of the given name, whose point is a function of it. -/
def replicaOf (point : String → Point) (name : String) (rank : Rank) : Replica :=
  ⟨⟨name, point name⟩, rank⟩

/-- The answer of a catalog, and the catalog and the files after it. -/
def Call.run (point : String → Point) (c : Catalog) (t : FileTree) :
    Call → Except StorageError Answer × Catalog × FileTree
  | insert name rank => (c.insert t (replicaOf point name rank)).map (·.map .added) id
  | upsert name rank => (c.upsert t (replicaOf point name rank)).map (·.map .previous) id
  | setRank name rank => (c.setRank t name rank).map (·.map .found) id
  | reopen =>
    match load t c.path with
    | .ok c => (.ok .opened, c, t)
    | .error e => (.error e, c, t)

/-- The answer of a map from names to replicas, and the map after it. -/
def Call.onMap (point : String → Point) (m : String → Option Replica) :
    Call → Answer × (String → Option Replica)
  | insert name rank =>
    match m name with
    | some _ => (.added false, m)
    | none => (.added true, Function.update m name (some (replicaOf point name rank)))
  | upsert name rank =>
    (.previous ((m name).map (·.rank)), Function.update m name (some (replicaOf point name rank)))
  | setRank name rank =>
    match m name with
    | some r => (.found true, Function.update m name (some { r with rank }))
    | none => (.found false, m)
  | reopen => (.opened, m)

/-- The accesses of a call. -/
def Call.plan (point : String → Point) (c : Catalog) :
    Call → Plan FileTree (Except StorageError Answer × Catalog)
  | insert name rank => do
    return (← c.insertPlan (replicaOf point name rank)).map (·.map .added) id
  | upsert name rank => do
    return (← c.upsertPlan (replicaOf point name rank)).map (·.map .previous) id
  | setRank name rank => do return (← c.setRankPlan name rank).map (·.map .found) id
  | reopen => do
    match ← loadPlan c.path with
    | .ok c => return (.ok .opened, c)
    | .error e => return (.error e, c)

/-- Left alone, the accesses of a call do what the call does. -/
theorem Call.run_plan (point : String → Point) (c : Catalog) (t : FileTree) (call : Call) :
    (call.plan point c).run t =
      (((call.run point c t).1, (call.run point c t).2.1), (call.run point c t).2.2) := by
  cases call with
  | insert name rank => simp [plan, run, run_insertPlan]
  | upsert name rank => simp [plan, run, run_upsertPlan]
  | setRank name rank => simp [plan, run, run_setRankPlan]
  | reopen =>
    rw [plan, Plan.run_bind, run_loadPlan, run]
    cases load t c.path <;> rfl

/-! ## Memory and file -/

/-- The file of the catalog holds its entries, or is missing if it has none. -/
def Filed (c : Catalog) (t : FileTree) : Prop :=
  t.get? c.path = none ∧ c.entries = [] ∨ t.get? c.path = some (.file (encode c.entries))

/-- The entries are in order, and points are where the names say. -/
structure Proper (point : String → Point) (es : List Replica) : Prop where
  sorted : Sorted es
  points : ∀ r ∈ es, r.key.point = point r.name

/-- The catalog lies in the directory `dir`, which holds nothing but files, and its own file
    holds its entries. -/
structure Durable (point : String → Point) (dir : Path) (c : Catalog) (t : FileTree) : Prop where
  path : c.path = dir ++ [fileName]
  dirs : ∀ q, q <+: dir → t.get? q = some .dir
  files : ∀ name, t.get? (dir ++ [name]) ≠ some .dir
  proper : Proper point c.entries
  filed : Filed c t
  short : (payload c.entries).length < 2 ^ 32

theorem Proper.place (h : Proper point es) (name : String) (rank : Rank) :
    Proper point (place (replicaOf point name rank) es) where
  sorted := sorted_place h.sorted _
  points r hr := by
    rcases mem_place hr with rfl | hr
    · rfl
    · exact h.points r hr

/-- A listed replica is the one its name and rank tell. -/
theorem Proper.eq_replicaOf (h : Proper point es) {name : String} {r : Replica}
    (hr : find? es name = some r) : r = replicaOf point name r.rank := by
  obtain ⟨hmem, rfl⟩ := mem_of_find? hr
  obtain ⟨⟨name, p⟩, rank⟩ := r
  simp only [replicaOf, Replica.mk.injEq, Key.mk.injEq, and_true]
  exact ⟨rfl, h.points _ hmem⟩

/-- Putting a listed replica in its place again changes nothing. -/
theorem Proper.update_replicaOf (h : Proper point es) {name : String} {r : Replica}
    (hr : find? es name = some r) :
    Function.update (find? es) name (some (replicaOf point name r.rank)) = find? es := by
  rw [← h.eq_replicaOf hr, ← hr, Function.update_eq_self]

/-- The map after a replica has been put in its place. -/
theorem Proper.find?_place (h : Proper point es) (r : Replica) :
    find? (Catalog.place r es) = Function.update (find? es) r.name (some r) := by
  funext name
  rw [Catalog.find?_place h.sorted, Function.update_apply]

namespace Durable

variable (hd : Durable point dir c t)

include hd

theorem path_ne_nil : c.path ≠ [] := by
  rw [hd.path]
  simp

theorem rooted (name : String) : t.Rooted (dir ++ [name]) := rooted_concat hd.dirs

/-- Opening the file again gives the same catalog. -/
theorem load_eq : load t (dir ++ [fileName]) = .ok c := by
  obtain ⟨path, es⟩ := c
  obtain rfl : path = dir ++ [fileName] := hd.path
  rw [load]
  rcases hd.filed with ⟨hnone, hnil⟩ | hfile
  · rw [read_missing ((hd.rooted fileName).clear (by simp [hnone])) hnone]
    obtain rfl : es = [] := hnil
    rfl
  · rw [read_of_get? (hd.rooted fileName) hfile]
    simp only [decode_encode _ hd.proper.sorted hd.short]
    rfl

/-- What is written beside the catalog does not matter to it. -/
theorem beside (hb : Beside c.path t t') (hp : c'.path = c.path) (hc : Proper point c'.entries)
    (hf : Filed c' t') (hs : (payload c'.entries).length < 2 ^ 32) : Durable point dir c' t' where
  path := hp.trans hd.path
  dirs q hq := by
    have hlen : ∀ name, q ≠ dir ++ [name] := by
      rintro name rfl
      have := hq.length_le
      simp at this
    rw [hb.frame q (hd.path ▸ hlen fileName) fun i => ?_, hd.dirs q hq]
    rw [hd.path, tempName, List.dropLast_concat]
    exact hlen _
  files name h := hd.files name (hb.dirs _ h)
  proper := hc
  filed := hf
  short := hs

/-- Nothing is in the way of a change. -/
theorem exists_store (es : List Replica) : ∃ c' t', c.store t es = (.ok (), c', t') := by
  obtain ⟨i, hi⟩ := exists_freshTemp t c.path
  obtain ⟨temp, htemp⟩ : ∃ name, tempName c.path i = dir ++ [name] := by
    rw [hd.path, tempName, List.dropLast_concat]
    exact ⟨_, rfl⟩
  have hne : dir ++ [fileName] ≠ dir ++ [temp] := by
    rw [← hd.path, ← htemp]
    exact ne_tempName hd.path_ne_nil i
  have hr : t.Rooted (dir ++ [temp]) := hd.rooted temp
  have hrf : t.Rooted (dir ++ [fileName]) := hd.rooted fileName
  obtain ⟨t₁, ht₁, hw₁⟩ := apply_clear hr (hd.files temp)
  have hg₁ : t₁.get? (dir ++ [temp]) ≠ some .dir := by
    simp [hw₁.get?_self]
  obtain ⟨t₂, ht₂, hw₂⟩ := apply_add (hr.writes (hd.files temp) hw₁) hw₁.get?_self (encode es)
  have hfile : t₂.get? (dir ++ [fileName]) ≠ some .dir := by
    rw [hw₂.get?_of_ne hne, hw₁.get?_of_ne hne]
    exact hd.files fileName
  obtain ⟨t₃, ht₃, -⟩ := apply_rename ((hr.writes (hd.files temp) hw₁).writes hg₁ hw₂)
    ((hrf.writes (hd.files temp) hw₁).writes hg₁ hw₂) hw₂.get?_self hfile
  rw [store, hi, htemp, hd.path]
  simp only [replaceSteps, run_cons_of_apply ht₁, run_cons_of_apply ht₂, run_cons_of_apply ht₃,
    run_nil]
  exact ⟨_, _, rfl⟩

end Durable

/-! ## What becomes of a call -/

/-- The answer of a catalog is that of the map it is, and so is the catalog after it; or the
    answer is an error, and neither memory nor file has changed. -/
structure Follows (point : String → Point) (call : Call) (c : Catalog) (t : FileTree)
    (r : Except StorageError Answer × Catalog) (t' : FileTree) : Prop where
  beside : Beside c.path t t'
  path : r.2.path = c.path
  done : ∀ a, r.1 = .ok a → (a, find? r.2.entries) = call.onMap point (find? c.entries) ∧
    Proper point r.2.entries ∧ Filed r.2 t'
  failed : ∀ e, r.1 = .error e → r.2 = c ∧ t'.get? c.path = t.get? c.path

theorem follows_pure {call : Call} {a : Answer} (hd : Durable point dir c t)
    (h : (a, find? c.entries) = call.onMap point (find? c.entries)) :
    Plan.Safe false (fun _ => True) (Follows point call c t) (pure (.ok a, c)) t := by
  refine Plan.safe_pure trivial ⟨.refl _ t, rfl, fun b hb => ?_, nofun⟩
  cases hb
  exact ⟨h, hd.proper, hd.filed⟩

theorem follows_change {call : Call} {b : α} {f : α → Answer} (hd : Durable point dir c t)
    (he : Proper point es) (h : (f b, find? es) = call.onMap point (find? c.entries)) :
    Plan.Safe false (fun _ => True) (Follows point call c t)
      (do return (← c.changePlan es b).map (·.map f) id) t := by
  refine ((safe_changePlan hd.path_ne_nil b).mono (fun _ _ => trivial) fun _ _ => id).map ?_
  rintro ⟨res, c'⟩ t' hc
  cases res with
  | ok b' =>
    obtain ⟨rfl, hc', hfile⟩ := hc.done b' rfl
    obtain rfl : c' = { c with entries := es } := hc'
    refine ⟨hc.beside, rfl, fun a ha => ?_, nofun⟩
    cases ha
    exact ⟨h, he, .inr hfile⟩
  | error e =>
    obtain ⟨hc', hfile⟩ := hc.failed e rfl
    obtain rfl : c' = c := hc'
    refine ⟨hc.beside, rfl, nofun, fun _ _ => ⟨rfl, ?_⟩⟩
    exact hfile.resolve_right fun h => absurd h.1 (by decide)

/-- Whatever fails during a call, the catalog follows the map. -/
theorem Durable.safe_call (hd : Durable point dir c t) (call : Call) :
    Plan.Safe false (fun _ => True) (Follows point call c t) (call.plan point c) t := by
  cases call with
  | insert name rank =>
    rw [Call.plan, insertPlan]
    show Plan.Safe _ _ _ ((match find? c.entries name with | some _ => _ | none => _) >>= _) t
    cases hf : find? c.entries name with
    | some r => exact follows_pure hd (by simp [Call.onMap, hf])
    | none =>
      refine follows_change hd (hd.proper.place name rank) ?_
      simp [Call.onMap, hf, hd.proper.find?_place, replicaOf, Replica.name]
  | upsert name rank =>
    rw [Call.plan, upsertPlan]
    show Plan.Safe _ _ _
      ((if (find? c.entries name).map (·.rank) = some rank then _ else _) >>= _) t
    split
    · rename_i hsame
      obtain ⟨r, hr, rfl⟩ := Option.map_eq_some_iff.1 hsame
      exact follows_pure hd (by rw [Call.onMap, hd.proper.update_replicaOf hr]; rfl)
    · refine follows_change hd (hd.proper.place name rank) ?_
      simp [Call.onMap, hd.proper.find?_place, replicaOf, Replica.name]
  | setRank name rank =>
    rw [Call.plan, setRankPlan]
    cases hf : find? c.entries name with
    | none => exact follows_pure hd (by simp [Call.onMap, hf])
    | some r =>
      have hplace : ({ r with rank } : Replica) = replicaOf point name rank := by
        rw [hd.proper.eq_replicaOf hf]
        rfl
      have hmap : Call.onMap point (find? c.entries) (.setRank name rank) =
          (.found true,
            Function.update (find? c.entries) name (some (replicaOf point name rank))) := by
        rw [Call.onMap, hf]
        simp only [hplace]
      dsimp only
      split
      · rename_i hsame
        subst hsame
        exact follows_pure hd (by rw [hmap, hd.proper.update_replicaOf hf])
      · rw [hplace]
        refine follows_change hd (hd.proper.place name rank) ?_
        rw [hmap, hd.proper.find?_place]
        rfl
  | reopen =>
    -- The file has the entries of the catalog, so these are what is loaded.
    have hload := hd.load_eq
    rw [← hd.path] at hload
    refine ((safe_loadPlan c.path t).mono (fun _ _ => trivial) fun _ _ => id).bind ?_
    rintro r t' ⟨rfl, h⟩ -
    cases r with
    | ok c' =>
      rcases h with h | ⟨e, h⟩
      · rw [hload, Except.ok.injEq] at h
        subst h
        exact follows_pure hd rfl
      · cases h
    | error e => exact Plan.safe_pure trivial ⟨.refl _ _, rfl, by simp, fun _ _ => ⟨rfl, rfl⟩⟩

/-- If nothing fails, no call does. -/
theorem Durable.run_eq_ok (hd : Durable point dir c t) (call : Call) :
    ∃ a, (call.run point c t).1 = .ok a := by
  cases call with
  | insert name rank =>
    obtain ⟨c', t', h⟩ := hd.exists_store (place (replicaOf point name rank) c.entries)
    rw [Call.run, insert, h]
    split <;> exact ⟨_, rfl⟩
  | upsert name rank =>
    obtain ⟨c', t', h⟩ := hd.exists_store (place (replicaOf point name rank) c.entries)
    rw [Call.run, upsert, h]
    split <;> exact ⟨_, rfl⟩
  | setRank name rank =>
    rw [Call.run, setRank]
    split
    · exact ⟨_, rfl⟩
    · rename_i r _
      obtain ⟨c', t', h⟩ := hd.exists_store (place { r with rank } c.entries)
      rw [h]
      split <;> exact ⟨_, rfl⟩
  | reopen =>
    rw [Call.run, hd.path, hd.load_eq]
    exact ⟨_, rfl⟩

/-! ## Runs -/

/-- The catalogs that can come to be in the directory `dir`, with the files. -/
inductive Reached (point : String → Point) (dir : Path) : Catalog → FileTree → Prop
  /-- A catalog is opened in an empty directory. -/
  | opened {t : FileTree} {c : Catalog} (hdirs : ∀ q, q <+: dir → t.get? q = some .dir)
      (hempty : ∀ p, dir <+: p → p ≠ dir → t.get? p = none)
      (h : load t (dir ++ [fileName]) = .ok c) : Reached point dir c t
  /-- A call is made, and anything may fail but what it does to the file. -/
  | call {c c' : Catalog} {t t' : FileTree} {r : Except StorageError Answer} (call : Call)
      (hr : Reached point dir c t) (h : Plan.Ends false (call.plan point c) t (r, c') t')
      (hs : (payload c'.entries).length < 2 ^ 32) : Reached point dir c' t'

/-- A catalog in an empty directory has no entries. -/
theorem durable_opened (hdirs : ∀ q, q <+: dir → t.get? q = some .dir)
    (hempty : ∀ p, dir <+: p → p ≠ dir → t.get? p = none)
    (h : load t (dir ++ [fileName]) = .ok c) : Durable point dir c t := by
  have hnone : ∀ name, t.get? (dir ++ [name]) = none := fun name =>
    hempty _ (List.prefix_append _ _) (by simp)
  have hr : t.Rooted (dir ++ [fileName]) := rooted_concat hdirs
  rw [load, read_missing (hr.clear (by simp [hnone])) (hnone fileName)] at h
  cases h
  have hshort : (payload []).length < 2 ^ 32 := by
    show 2 < _
    norm_num
  exact ⟨rfl, hdirs, fun name => by simp [hnone], ⟨.nil, by simp⟩, .inl ⟨hnone fileName, rfl⟩, hshort⟩

theorem Durable.call (hd : Durable point dir c t) {call : Call} {r : Except StorageError Answer}
    (h : Plan.Ends false (call.plan point c) t (r, c') t')
    (hs : (payload c'.entries).length < 2 ^ 32) : Durable point dir c' t' := by
  have hf := (hd.safe_call call).ends _ _ h
  cases r with
  | ok a =>
    obtain ⟨-, hp, hfile⟩ := hf.done a rfl
    exact hd.beside hf.beside hf.path hp hfile hs
  | error e =>
    obtain ⟨hc, hfile⟩ := hf.failed e rfl
    obtain rfl : c' = c := hc
    refine hd.beside hf.beside rfl hd.proper ?_ hs
    rw [Filed, hfile]
    exact hd.filed

theorem Reached.toDurable (hr : Reached point dir c t) : Durable point dir c t := by
  induction hr with
  | opened hdirs hempty h => exact durable_opened hdirs hempty h
  | call _ _ h hs ih => exact ih.call h hs

/-- **A catalog is a durable map.** It answers every call as the map from names to replicas does
    that it is, or with an error after which memory and file are as before; it answers so
    if nothing fails. After every call the entries are in order of their names, no two of one
    name, and opening the file again gives just them. -/
theorem durable (hr : Reached point dir c t) :
    load t (dir ++ [fileName]) = .ok c ∧ Sorted c.entries ∧
    ∀ call : Call, (∃ a, (call.run point c t).1 = .ok a) ∧
      ∀ r c' t', Plan.Ends false (call.plan point c) t (r, c') t' →
        (match r with
          | .ok a => (a, find? c'.entries) = call.onMap point (find? c.entries)
          | .error _ => c' = c ∧ t'.get? (dir ++ [fileName]) = t.get? (dir ++ [fileName])) ∧
        Sorted c'.entries ∧
        ((payload c'.entries).length < 2 ^ 32 → load t' (dir ++ [fileName]) = .ok c') := by
  have hd := hr.toDurable
  refine ⟨hd.load_eq, hd.proper.sorted, fun call => ⟨hd.run_eq_ok call, fun r c' t' h => ?_⟩⟩
  have hf := (hd.safe_call call).ends _ _ h
  refine ⟨?_, ?_, fun hs => (hd.call h hs).load_eq⟩
  · cases r with
    | ok a => exact (hf.done a rfl).1
    | error e =>
      rw [← hd.path]
      exact hf.failed e rfl
  · cases r with
    | ok a => exact (hf.done a rfl).2.1.sorted
    | error e =>
      obtain rfl : c' = c := (hf.failed e rfl).1
      exact hd.proper.sorted

/-- A tree with an empty directory. -/
def sampleTree : FileTree := ⟨[(["meta"], .dir)]⟩

/-- The call that lists a name with a quote and a line break in it. -/
def sampleCall : Call := .insert "\"é\n" 2

/-- One replica is listed, and the catalog is opened again. -/
theorem durable_sample :
    ∃ c t, Reached (fun _ => .ofNat 7) ["meta"] c t ∧ c.entries.length = 1 ∧
      load t ["meta", fileName] = .ok c ∧ Sorted c.entries ∧
      ∀ call : Call, (∃ a, (call.run (fun _ => .ofNat 7) c t).1 = .ok a) ∧
        ∀ r c' t', Plan.Ends false (call.plan (fun _ => .ofNat 7) c) t (r, c') t' →
          (match r with
            | .ok a => (a, find? c'.entries) = call.onMap (fun _ => .ofNat 7) (find? c.entries)
            | .error _ => c' = c ∧ t'.get? ["meta", fileName] = t.get? ["meta", fileName]) ∧
          Sorted c'.entries ∧
          ((payload c'.entries).length < 2 ^ 32 → load t' ["meta", fileName] = .ok c') := by
  have hdirs : ∀ q, q <+: ["meta"] → sampleTree.get? q = some .dir := by
    intro q hq
    rcases List.prefix_cons_iff.1 hq with rfl | ⟨s, rfl, hs⟩
    · rfl
    · rw [List.prefix_nil.1 hs]
      rfl
  have hempty : ∀ p, ["meta"] <+: p → p ≠ ["meta"] → sampleTree.get? p = none := by
    rintro p ⟨s, rfl⟩ hne
    cases s with
    | nil => exact absurd rfl hne
    | cons a s => rfl
  have hopen : Reached (fun _ => .ofNat 7) ["meta"] ⟨["meta", fileName], []⟩ sampleTree :=
    .opened hdirs hempty rfl
  have hcall := Plan.ends_run false (sampleCall.plan (fun _ => .ofNat 7) ⟨["meta", fileName], []⟩)
    sampleTree
  have hcount : ((sampleCall.plan (fun _ => .ofNat 7) ⟨["meta", fileName], []⟩).run
      sampleTree).1.2.entries.length = 1 := by decide +kernel
  have hlen : (payload ((sampleCall.plan (fun _ => .ofNat 7) ⟨["meta", fileName], []⟩).run
      sampleTree).1.2.entries).length < 200 := by decide +kernel
  obtain ⟨r, c, t, hrun⟩ : ∃ r c t, (sampleCall.plan (fun _ => .ofNat 7)
      ⟨["meta", fileName], []⟩).run sampleTree = ((r, c), t) := ⟨_, _, _, rfl⟩
  rw [hrun] at hcall hcount hlen
  have hr := hopen.call sampleCall hcall (Nat.lt_trans hlen (by norm_num))
  exact ⟨c, t, hr, hcount, durable hr⟩

end ReplicaRing.Catalog
