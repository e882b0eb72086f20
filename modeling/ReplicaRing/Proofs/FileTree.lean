import Mathlib.Tactic
import ReplicaRing.FileTree

/-!
# Steps on a tree of files

What the operations of a file tree do, told path by path. A path is *rooted* if all
above it are directories (`FileTree.Rooted`), and *clear* if no file is on the way to it
or at it (`FileTree.Clear`): to a rooted path a file can be written, along a clear one
directories can be made.

* An operation that succeeds changes one path (`FileTree.Writes`), moves one
  (`FileTree.Moves`) or makes directories (`FileTree.Makes`), and leaves all other paths
  alone.
* A run of steps may be cut off at any point (`FileTree.Interrupted`): before a step, or
  within one that makes several directories or adds several bytes.
-/

namespace ReplicaRing.FileTree

/-- All above `p` are directories. -/
def Rooted (t : FileTree) (p : Path) : Prop := ∀ q, q <+: p → q ≠ p → t.get? q = some .dir

/-- Neither `p` nor anything above it is a file. -/
def Clear (t : FileTree) (p : Path) : Prop := ∀ q, q <+: p → ∀ bs, t.get? q ≠ some (.file bs)

/-- `t'` is `t` with the file `bs` at `p`. -/
def Writes (t : FileTree) (p : Path) (bs : Bytes) (t' : FileTree) : Prop :=
  ∀ q, t'.get? q = if q = p then some (.file bs) else t.get? q

/-- `t'` is `t` with the file `bs` at `q` instead of whatever is at `p`. -/
def Moves (t : FileTree) (p q : Path) (bs : Bytes) (t' : FileTree) : Prop :=
  ∀ r, t'.get? r = if r = q then some (.file bs) else if r = p then none else t.get? r

/-- `t'` is `t` with the directory `p` and all above it. -/
def Makes (t : FileTree) (p : Path) (t' : FileTree) : Prop :=
  ∀ q, t'.get? q = if q <+: p then some .dir else t.get? q

variable {t t' : FileTree} {p q : Path} {bs : Bytes}

@[simp] theorem get?_nil (t : FileTree) : t.get? [] = some .dir := by simp [get?]

theorem ne_nil_of_get? {e : Item} (h : t.get? p = some e) (he : e ≠ .dir) : p ≠ [] := by
  rintro rfl
  rw [get?_nil, Option.some.injEq] at h
  exact he h.symm

/-! ## Ways through the tree -/

theorem mem_above : q ∈ above p ↔ q <+: p ∧ q ≠ p := by
  rw [above, List.mem_map]
  constructor
  · rintro ⟨i, hi, rfl⟩
    refine ⟨List.take_prefix i p, fun h => ?_⟩
    have := congrArg List.length h
    rw [List.length_take] at this
    have := List.mem_range.1 hi
    omega
  · rintro ⟨h, hne⟩
    refine ⟨q.length, ?_, (List.prefix_iff_eq_take.1 h).symm⟩
    exact List.mem_range.2 (lt_of_le_of_ne h.length_le fun e => hne (h.eq_of_length e))

theorem walk_eq_ok {ps : List Path} (h : ∀ q ∈ ps, t.get? q = some .dir) :
    t.walk ps = .ok () := by
  induction ps with
  | nil => rfl
  | cons p ps ih =>
    rw [walk, h p List.mem_cons_self]
    exact ih fun q hq => h q (List.mem_cons_of_mem _ hq)

/-- Where no file is in the way, the walk comes through or finds something missing. -/
theorem walk_eq_ok_or_notFound (ps : List Path) (h : ∀ q ∈ ps, ∀ bs, t.get? q ≠ some (.file bs)) :
    t.walk ps = .ok () ∨ t.walk ps = .error .notFound := by
  induction ps with
  | nil => exact .inl rfl
  | cons p ps ih =>
    rw [walk]
    match hp : t.get? p with
    | none => exact .inr rfl
    | some (.file bs) => exact absurd hp (h p List.mem_cons_self bs)
    | some .dir => exact ih fun q hq => h q (List.mem_cons_of_mem _ hq)

theorem Rooted.reach (h : t.Rooted p) : t.reach p = .ok () :=
  walk_eq_ok fun q hq => h q (mem_above.1 hq).1 (mem_above.1 hq).2

theorem Rooted.clear (h : t.Rooted p) (hp : ∀ bs, t.get? p ≠ some (.file bs)) : t.Clear p := by
  intro q hq bs hf
  by_cases hqp : q = p
  · exact hp bs (hqp ▸ hf)
  · rw [h q hq hqp] at hf
    cases hf

theorem Clear.mono (h : t.Clear p) (hq : q <+: p) : t.Clear q :=
  fun r hr => h r (hr.trans hq)

theorem find_of_get? {e : Item} (h : t.Rooted p) (hp : t.get? p = some e) : t.find p = .ok e := by
  rw [find, h.reach]
  simp [hp]

theorem find_missing (h : t.Clear p) (hp : t.get? p = none) : t.find p = .error .notFound := by
  rw [find]
  rcases walk_eq_ok_or_notFound (above p) fun q hq => h q (mem_above.1 hq).1 with hw | hw
  · rw [reach, hw]
    simp [hp]
  · rw [reach, hw]

theorem read_of_get? (h : t.Rooted p) (hp : t.get? p = some (.file bs)) : t.read p = .ok bs := by
  rw [read, find_of_get? h hp]

theorem read_missing (h : t.Clear p) (hp : t.get? p = none) : t.read p = .error .notFound := by
  rw [read, find_missing h hp]

theorem has_of_get? {e : Item} (h : t.Rooted p) (hp : t.get? p = some e) : t.has p = true := by
  rw [has, find_of_get? h hp]
  rfl

theorem has_missing (h : t.Clear p) (hp : t.get? p = none) : t.has p = false := by
  rw [has, find_missing h hp]
  rfl

/-! ## What changes leave alone -/

theorem Writes.get?_self (h : t.Writes p bs t') : t'.get? p = some (.file bs) := by simp [h p]

theorem Writes.get?_of_ne (h : t.Writes p bs t') (hq : q ≠ p) : t'.get? q = t.get? q := by
  simp [h q, hq]

theorem Writes.trans {t'' : FileTree} {bs' : Bytes} (h : t.Writes p bs t')
    (h' : t'.Writes p bs' t'') : t.Writes p bs' t'' := by
  intro q
  rw [h' q, h q]
  split <;> rfl

/-- What is rooted stays rooted when a file is written, as a directory is not written over. -/
theorem Rooted.writes (h : t.Rooted q) (hp : t.get? p ≠ some .dir) (hw : t.Writes p bs t') :
    t'.Rooted q := by
  intro r hr hrq
  rw [hw.get?_of_ne fun e => hp (e ▸ h r hr hrq)]
  exact h r hr hrq

theorem Rooted.moves {r : Path} (h : t.Rooted r) (hp : t.get? p ≠ some .dir)
    (hq : t.get? q ≠ some .dir) (hm : t.Moves p q bs t') : t'.Rooted r := by
  intro s hs hsr
  have hd := h s hs hsr
  have hsq : s ≠ q := fun e => hq (e ▸ hd)
  have hsp : s ≠ p := fun e => hp (e ▸ hd)
  rw [hm s, if_neg hsq, if_neg hsp, hd]

theorem Makes.get?_of_not_above (h : t.Makes p t') (hq : ¬q <+: p) : t'.get? q = t.get? q := by
  simp [h q, hq]

/-- A path is rooted if it leads into a directory. -/
theorem rooted_concat {name : String} (h : ∀ q, q <+: p → t.get? q = some .dir) :
    t.Rooted (p ++ [name]) :=
  fun q hq hne => h q ((List.prefix_concat_iff.1 hq).resolve_left hne)

/-- A path is rooted once the directory it is in has been made. -/
theorem Makes.rooted {name : String} (h : t.Makes p t') : t'.Rooted (p ++ [name]) :=
  rooted_concat fun q hq => by rw [h q, if_pos hq]

/-! ## Operations -/

theorem writes_set (hp : p ≠ []) : t.Writes p bs (t.set p (.file bs)) := get?_set t hp (.file bs)

theorem exists_openFile (h : t.Rooted p) (hp : t.get? p ≠ some .dir) :
    ∃ t', t.openFile p = .ok t' ∧
      t.Writes p (match t.get? p with | some (.file bs) => bs | _ => []) t' := by
  match hg : t.get? p with
  | none =>
    have hne : p ≠ [] := by
      rintro rfl
      simp at hg
    refine ⟨t.set p (.file []), ?_, writes_set hne⟩
    rw [openFile, find_missing (h.clear (by simp [hg])) hg]
    simp [h.reach]
  | some (.file bs) =>
    refine ⟨t, by rw [openFile, find_of_get? h hg], fun q => ?_⟩
    split
    · rename_i hq
      rw [hq, hg]
    · rfl
  | some .dir => exact absurd hg hp

theorem exists_writeFile (h : t.Rooted p) (hp : t.get? p ≠ some .dir) (bs : Bytes) :
    ∃ t', t.writeFile p bs = .ok t' ∧ t.Writes p bs t' := by
  obtain ⟨t₁, ho, hw⟩ := exists_openFile h hp
  refine ⟨t₁.set p (.file bs), by rw [writeFile, ho], hw.trans (writes_set ?_)⟩
  exact ne_nil_of_get? hw.get?_self nofun

theorem exists_modifyFile (h : t.Rooted p) (hp : t.get? p = some (.file bs))
    (f : Bytes → Bytes) : ∃ t', t.modifyFile p f = .ok t' ∧ t.Writes p (f bs) t' :=
  ⟨t.set p (.file (f bs)), by rw [modifyFile, read_of_get? h hp],
    writes_set (ne_nil_of_get? hp nofun)⟩

theorem exists_rename (hp : t.Rooted p) (hq : t.Rooted q) (hpf : t.get? p = some (.file bs))
    (hqd : t.get? q ≠ some .dir) : ∃ t', t.rename p q = .ok t' ∧ t.Moves p q bs t' := by
  have hpn : p ≠ [] := ne_nil_of_get? hpf nofun
  have hqn : q ≠ [] := by
    rintro rfl
    exact hqd (get?_nil t)
  refine ⟨(t.erase p).set q (.file bs), ?_, fun r => ?_⟩
  · rw [rename, read_of_get? hp hpf]
    match hg : t.get? q with
    | none =>
      rw [find_missing (hq.clear (by simp [hg])) hg]
      simp [hq.reach]
    | some (.file _) => rw [find_of_get? hq hg]
    | some .dir => exact absurd hg hqd
  · rw [get?_set _ hqn, get?_erase _ hpn]

theorem exists_makeDirsAlong (ps : List Path) (hne : ∀ q ∈ ps, q ≠ [])
    (h : ∀ q ∈ ps, ∀ bs, t.get? q ≠ some (.file bs)) :
    ∃ t', t.makeDirsAlong ps = .ok t' ∧
      ∀ q, t'.get? q = if q ∈ ps then some .dir else t.get? q := by
  induction ps generalizing t with
  | nil => exact ⟨t, rfl, by simp⟩
  | cons p ps ih =>
    have hps : ∀ q ∈ ps, q ≠ [] := fun q hq => hne q (List.mem_cons_of_mem _ hq)
    match hp : t.get? p with
    | some (.file bs) => exact absurd hp (h p List.mem_cons_self bs)
    | some .dir =>
      obtain ⟨t', ht', hg⟩ := ih hps fun q hq => h q (List.mem_cons_of_mem _ hq)
      refine ⟨t', by rw [makeDirsAlong, hp]; exact ht', fun q => ?_⟩
      rw [hg q]
      by_cases hq : q = p
      · subst hq
        simp [hp]
      · simp [hq]
    | none =>
      have hs := get?_set t (hne p List.mem_cons_self) .dir
      obtain ⟨t', ht', hg⟩ := ih (t := t.set p .dir) hps fun q hq bs => by
        rw [hs q]
        split
        · nofun
        · exact h q (List.mem_cons_of_mem _ hq) bs
      refine ⟨t', by rw [makeDirsAlong, hp]; exact ht', fun q => ?_⟩
      rw [hg q, hs q]
      by_cases hq : q = p <;> simp [hq]

theorem exists_makeDirs (h : t.Clear p) : ∃ t', t.makeDirs p = .ok t' ∧ t.Makes p t' := by
  have hmem : ∀ q, q ∈ ((List.range p.length).map fun i => p.take (i + 1)) ↔ q <+: p ∧ q ≠ [] := by
    intro q
    rw [List.mem_map]
    constructor
    · rintro ⟨i, hi, rfl⟩
      have := List.mem_range.1 hi
      refine ⟨List.take_prefix (i + 1) p, fun h => ?_⟩
      rw [List.take_eq_nil_iff] at h
      rcases h with h | rfl
      · omega
      · simp at this
    · rintro ⟨hq, hne⟩
      have := hq.length_le
      have := List.length_pos_iff.2 hne
      refine ⟨q.length - 1, List.mem_range.2 (by omega), ?_⟩
      rw [Nat.sub_add_cancel (by omega)]
      exact (List.prefix_iff_eq_take.1 hq).symm
  obtain ⟨t', ht', hg⟩ := exists_makeDirsAlong _ (fun q hq => ((hmem q).1 hq).2) fun q hq =>
    h q ((hmem q).1 hq).1
  refine ⟨t', ht', fun q => ?_⟩
  rw [hg q]
  -- The root is not made, but it is a directory anyway.
  by_cases hq : q = []
  · simp [hq, hmem]
  · simp [hmem, hq]

/-! ## Steps -/

theorem apply_makeDirs (h : t.Clear p) :
    ∃ t', (Step.makeDirs p).apply t = .ok t' ∧ t.Makes p t' := by
  obtain ⟨t', ht, hm⟩ := exists_makeDirs h
  exact ⟨t', by rw [Step.apply, ht]; rfl, hm⟩

theorem apply_create (h : t.Rooted p) (hp : t.get? p ≠ some .dir) :
    ∃ t', (Step.create p).apply t = .ok t' ∧
      t.Writes p (match t.get? p with | some (.file bs) => bs | _ => []) t' := by
  obtain ⟨t', ht, hw⟩ := exists_openFile h hp
  exact ⟨t', by rw [Step.apply, ht]; rfl, hw⟩

theorem apply_cut {n : Nat} (h : t.Rooted p) (hp : t.get? p = some (.file bs))
    (hn : n ≤ bs.length) :
    ∃ t', (Step.cut p n).apply t = .ok t' ∧ t.Writes p (bs.take n) t' := by
  refine ⟨t.set p (.file (bs.take n)), ?_, writes_set (ne_nil_of_get? hp nofun)⟩
  rw [Step.apply, read_of_get? h hp]
  simp [Nat.not_lt.2 hn]

theorem apply_clear (h : t.Rooted p) (hp : t.get? p ≠ some .dir) :
    ∃ t', (Step.clear p).apply t = .ok t' ∧ t.Writes p [] t' := by
  obtain ⟨t', ht, hw⟩ := exists_writeFile h hp []
  exact ⟨t', by rw [Step.apply, ht]; rfl, hw⟩

theorem apply_add (h : t.Rooted p) (hp : t.get? p = some (.file bs)) (more : Bytes) :
    ∃ t', (Step.add p more).apply t = .ok t' ∧ t.Writes p (bs ++ more) t' := by
  obtain ⟨t', ht, hw⟩ := exists_modifyFile h hp (· ++ more)
  exact ⟨t', by rw [Step.apply, ht]; rfl, hw⟩

theorem apply_rename (hp : t.Rooted p) (hq : t.Rooted q) (hpf : t.get? p = some (.file bs))
    (hqd : t.get? q ≠ some .dir) :
    ∃ t', (Step.rename p q).apply t = .ok t' ∧ t.Moves p q bs t' := by
  obtain ⟨t', ht, hm⟩ := exists_rename hp hq hpf hqd
  exact ⟨t', by rw [Step.apply, ht]; rfl, hm⟩

theorem run_cons_of_apply {s : Step} {ss : List Step} (h : s.apply t = .ok t') :
    t.run (s :: ss) = t'.run ss := by
  rw [run, h]

theorem exists_freshTemp (t : FileTree) (path : Path) : ∃ i, t.freshTemp path = tempName path i :=
  ⟨_, rfl⟩

/-! ## Interruptions -/

/-- What a step leaves behind that is cut off within: some of the directories it makes, or
    some of the bytes it adds. -/
inductive Part (t : FileTree) : Step → FileTree → Prop
  | makeDirs {p : Path} {t' : FileTree} (i : Nat) (h : t.makeDirs (p.take i) = .ok t') :
      Part t (.makeDirs p) t'
  | add {p : Path} {bs : Bytes} {t' : FileTree} (i : Nat)
      (h : (Step.add p (bs.take i)).apply t = .ok t') : Part t (.add p bs) t'

/-- What a run of steps leaves behind that is cut off, and the steps it has still before it;
    the first of them may have begun. -/
inductive Interrupted : FileTree → List Step → FileTree → List Step → Prop
  | here {t : FileTree} {ss : List Step} : Interrupted t ss t ss
  | within {t t' : FileTree} {s : Step} {ss : List Step} (h : Part t s t') :
      Interrupted t (s :: ss) t' (s :: ss)
  | after {t t₁ t' : FileTree} {s : Step} {ss rest : List Step} (h : s.apply t = .ok t₁)
      (h' : Interrupted t₁ ss t' rest) : Interrupted t (s :: ss) t' rest

/-- A run that is not cut off before its end is carried out. -/
theorem Interrupted.run_eq {ss : List Step} (h : Interrupted t ss t' []) :
    t.run ss = (.ok (), t') := by
  generalize hr : ([] : List Step) = rest at h
  induction h with
  | here =>
    subst hr
    rfl
  | within => cases hr
  | after h h' ih => rw [run_cons_of_apply h, ih hr]

/-- A run of two parts is cut off in the first, or in the second after the first has been
    carried out. -/
theorem Interrupted.append_cases {ss ss' rest : List Step}
    (h : Interrupted t (ss ++ ss') t' rest) :
    (∃ r, r ≠ [] ∧ Interrupted t ss t' r) ∨
      ∃ t₁, t.run ss = (.ok (), t₁) ∧ Interrupted t₁ ss' t' rest := by
  induction ss generalizing t with
  | nil => exact .inr ⟨t, rfl, h⟩
  | cons s ss ih =>
    cases h with
    | here => exact .inl ⟨s :: ss, List.cons_ne_nil _ _, .here⟩
    | within hp => exact .inl ⟨s :: ss, List.cons_ne_nil _ _, .within hp⟩
    | after hs h' =>
      rcases ih h' with ⟨r, hr, hi⟩ | ⟨t₁, hrun, hi⟩
      · exact .inl ⟨r, hr, .after hs hi⟩
      · exact .inr ⟨t₁, by rw [run_cons_of_apply hs, hrun], hi⟩

/-- A run may be cut off after any number of its steps. -/
theorem Interrupted.of_take {ss : List Step} {n : Nat} (h : t.run (ss.take n) = (.ok (), t')) :
    Interrupted t ss t' (ss.drop n) := by
  induction n generalizing t ss with
  | zero =>
    rw [List.take_zero, run_nil, Prod.mk.injEq] at h
    exact h.2 ▸ .here
  | succ n ih =>
    cases ss with
    | nil =>
      rw [List.take_nil, run_nil, Prod.mk.injEq] at h
      exact h.2 ▸ .here
    | cons s ss =>
      rw [List.take_succ_cons, run] at h
      cases hs : s.apply t with
      | error e =>
        rw [hs, Prod.mk.injEq] at h
        cases h.1
      | ok t₁ =>
        rw [hs] at h
        exact .after hs (ih h)

/-- What is to come of a run is the end of it. -/
theorem Interrupted.suffix {ss rest : List Step} (h : Interrupted t ss t' rest) : rest <:+ ss := by
  induction h with
  | here => exact List.suffix_refl _
  | within => exact List.suffix_refl _
  | after h h' ih => exact ih.trans (List.suffix_cons _ _)

end ReplicaRing.FileTree
