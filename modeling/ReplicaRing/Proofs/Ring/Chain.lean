import Mathlib.Tactic
import ReplicaRing.Ring.Event

/-!
# The ring seen from a key

A walk clockwise from a key meets the members of the ring in the order of the key's *chain*
(`Members.chain`): first its owner, then the owner's successor, and so on once round.

* The owner of a key is the head of its chain (`Members.owner_eq_head`).
* The neighbours of a member are its neighbours in the chain, where the last member comes
  before the first (`Members.successor_eq`, `Members.predecessor_eq`).
* A member that fails is taken out of the chain (`Members.chain_erase`), and one that joins is
  put in somewhere (`Members.exists_chain_insert`).
-/

namespace ReplicaRing.Members

variable {m : Members} {p q k : Point} {as bs : List Point}

/-- The members in the order in which a walk clockwise from `k` meets them. -/
def chain (m : Members) (k : Point) : List Point :=
  m.toList.filter (k ≤ ·) ++ m.toList.filter (· < k)

theorem not_le_iff_lt {p q : Point} : ¬p ≤ q ↔ q < p := Nat.not_le

/-- The members in order begin with those before the key. -/
theorem toList_eq (m : Members) (k : Point) :
    m.toList = m.toList.filter (· < k) ++ m.toList.filter (k ≤ ·) := by
  have hs := m.sorted
  generalize m.toList = l at hs
  induction l with
  | nil => rfl
  | cons a l ih =>
    obtain ⟨ha, hl⟩ := List.pairwise_cons.1 hs
    by_cases hak : a < k
    · have hka : ¬k ≤ a := not_le_iff_lt.2 hak
      rw [List.filter_cons_of_pos (by simpa), List.filter_cons_of_neg (by simpa), List.cons_append,
        ← ih hl]
    · have hall : ∀ b ∈ a :: l, k ≤ b := by
        intro b hb
        have hka : k ≤ a := Nat.le_of_not_lt hak
        rcases List.mem_cons.1 hb with rfl | hb
        · exact hka
        · exact Nat.le_of_lt (Nat.lt_of_le_of_lt hka (ha b hb))
      have hnot : ∀ b ∈ a :: l, ¬b < k := fun b hb => Nat.not_lt.2 (hall b hb)
      rw [List.filter_eq_nil_iff.2 fun b hb => by simpa using hnot b hb,
        List.filter_eq_self.2 fun b hb => by simpa using hall b hb, List.nil_append]

@[simp] theorem mem_chain : p ∈ m.chain k ↔ p ∈ m := by
  rw [chain, List.mem_append, List.mem_filter, List.mem_filter, mem_def]
  have : k ≤ p ∨ p < k := Nat.lt_or_ge p.val k.val |>.symm
  simp only [decide_eq_true_eq]
  tauto

theorem nodup_toList (m : Members) : m.toList.Nodup :=
  m.sorted.imp fun {a b} (h : a < b) => by
    rintro rfl
    exact Nat.lt_irrefl _ h

theorem chain_perm (m : Members) (k : Point) : (m.chain k).Perm m.toList := by
  rw [chain]
  conv_rhs => rw [m.toList_eq k]
  exact List.perm_append_comm

theorem nodup_chain (m : Members) (k : Point) : (m.chain k).Nodup :=
  (m.chain_perm k).nodup_iff.2 m.nodup_toList

@[simp] theorem length_chain (m : Members) (k : Point) : (m.chain k).length = m.size :=
  (m.chain_perm k).length_eq

theorem notMem_of_chain (h : m.chain k = as ++ p :: bs) : p ∉ bs := by
  have hn := m.nodup_chain k
  rw [h] at hn
  exact (List.nodup_cons.1 (List.nodup_append.1 hn).2.1).1

theorem ne_of_chain (h : m.chain k = as ++ q :: p :: bs) : q ≠ p := fun e =>
  notMem_of_chain h (e ▸ List.mem_cons_self)

theorem notMem_of_head (h : m.chain k = p :: bs) : p ∉ bs :=
  notMem_of_chain (show m.chain k = [] ++ p :: bs from h)

theorem ne_of_head (h : m.chain k = q :: p :: bs) : q ≠ p := fun e =>
  notMem_of_head h (e ▸ List.mem_cons_self)

theorem exists_chain_eq_cons (h : 1 ≤ m.size) (k : Point) : ∃ p bs, m.chain k = p :: bs := by
  refine List.exists_cons_of_length_pos ?_
  rw [length_chain]
  exact h

theorem exists_head_chain (h : m.chain k = as ++ p :: bs) : ∃ o, (m.chain k).head? = some o := by
  rw [h]
  cases as <;> exact ⟨_, rfl⟩

/-- Chains that begin with the same member begin with the same owner. -/
theorem head?_eq_of_chain {m' : Members} {cs : List Point} (h : m.chain k = as ++ p :: bs)
    (h' : m'.chain k = as ++ p :: cs) : (m'.chain k).head? = (m.chain k).head? := by
  rw [h, h']
  cases as <;> rfl

/-- A member that comes after another one is not the owner. -/
theorem ne_of_head_chain {o : Point} (h : m.chain k = as ++ q :: p :: bs)
    (ho : (m.chain k).head? = some o) : o ≠ p := by
  rintro rfl
  rw [h] at ho
  cases as with
  | nil =>
    cases ho
    exact ne_of_chain h rfl
  | cons a as =>
    cases ho
    exact notMem_of_head h (by simp)

/-- The owner of a key is the head of its chain. -/
theorem owner_eq_head (m : Members) (k : Point) : m.owner k = (m.chain k).head? := by
  rw [owner, chain, List.head?_append, ← List.head?_filter]
  cases h : (m.toList.filter (k ≤ ·)).head? with
  | some a => rfl
  | none =>
    rw [List.head?_eq_none_iff] at h
    have := m.toList_eq k
    rw [h, List.append_nil] at this
    rw [Option.none_or, Option.none_or, ← this]

theorem owns_eq {o : Point} (h : (m.chain k).head? = some o) (p : Point) :
    (m.view p).owns k = decide (o = p) := by
  rw [View.owns, view]
  simp only [owner_eq_head, h, Option.getD_some]

/-- A member that fails is taken out of the chain. -/
theorem chain_erase (m : Members) (p k : Point) :
    (m.erase p).chain k = (m.chain k).filter fun q => q ≠ p := by
  rw [chain, chain, erase, List.filter_append, List.filter_filter, List.filter_filter,
    List.filter_filter, List.filter_filter]
  simp only [Bool.and_comm]

theorem chain_erase_of_chain (h : m.chain k = as ++ p :: bs) : (m.erase p).chain k = as ++ bs := by
  have hn := m.nodup_chain k
  rw [h, List.nodup_append, List.nodup_cons] at hn
  obtain ⟨-, ⟨hb, -⟩, hab⟩ := hn
  have ha : p ∉ as := fun hp => hab p hp p List.mem_cons_self rfl
  have hfilter : ∀ l : List Point, p ∉ l → l.filter (fun q => decide (q ≠ p)) = l := fun l hl =>
    List.filter_eq_self.2 fun q hq => by simpa using ne_of_mem_of_not_mem hq hl
  rw [chain_erase, h, List.filter_append, List.filter_cons_of_neg (by simp), hfilter as ha,
    hfilter bs hb]

theorem chain_erase_of_head (h : m.chain k = p :: bs) : (m.erase p).chain k = bs :=
  chain_erase_of_chain (show m.chain k = [] ++ p :: bs from h)

theorem exists_place {l : List Point} (hp : p ∉ l) :
    ∃ l₁ l₂, l = l₁ ++ l₂ ∧ place p l = l₁ ++ p :: l₂ := by
  induction l with
  | nil => exact ⟨[], [], rfl, rfl⟩
  | cons a l ih =>
    rw [List.mem_cons, not_or] at hp
    rw [place]
    split
    · exact ⟨[], a :: l, rfl, rfl⟩
    · rw [if_neg hp.1]
      obtain ⟨l₁, l₂, hl, hpl⟩ := ih hp.2
      exact ⟨a :: l₁, l₂, by rw [hl]; rfl, by rw [hpl]; rfl⟩

/-- A member that joins is put into the chain. -/
theorem exists_chain_insert (hp : p ∉ m) (k : Point) :
    ∃ as bs, m.chain k = as ++ bs ∧ (m.insert p).chain k = as ++ p :: bs := by
  obtain ⟨l₁, l₂, hl, hpl⟩ := exists_place hp
  have hins : (m.insert p).toList = l₁ ++ p :: l₂ := hpl
  rw [chain, chain, hins, hl]
  by_cases hkp : k ≤ p
  · have hpk : ¬p < k := Nat.not_lt.2 hkp
    refine ⟨l₁.filter (k ≤ ·), l₂.filter (k ≤ ·) ++ (l₁ ++ l₂).filter (· < k), ?_, ?_⟩
    · simp
    · simp [hkp, hpk]
  · have hpk : p < k := not_le_iff_lt.1 hkp
    refine ⟨(l₁ ++ l₂).filter (k ≤ ·) ++ l₁.filter (· < k), l₂.filter (· < k), ?_, ?_⟩
    · simp
    · simp [hkp, hpk]

theorem size_insert (hp : p ∉ m) : (m.insert p).size = m.size + 1 := by
  obtain ⟨as, bs, hold, hnew⟩ := exists_chain_insert hp p
  rw [← length_chain m p, ← length_chain (m.insert p) p, hold, hnew, List.length_append,
    List.length_append, List.length_cons]
  rfl

theorem size_erase (hp : p ∈ m) : (m.erase p).size + 1 = m.size := by
  obtain ⟨as, bs, h⟩ := List.append_of_mem (mem_chain.2 hp : p ∈ m.chain p)
  rw [← length_chain m p, ← length_chain (m.erase p) p, h, chain_erase_of_chain h,
    List.length_append, List.length_append, List.length_cons]
  rfl

/-- A node that joins comes before the owner of the key or behind some member. -/
theorem chain_insert_cases (hp : p ∉ m) (hsize : 1 ≤ m.size) (k : Point) :
    (∃ q bs, m.chain k = q :: bs ∧ (m.insert p).chain k = p :: q :: bs) ∨
      ∃ as q bs, m.chain k = as ++ q :: bs ∧ (m.insert p).chain k = as ++ q :: p :: bs := by
  obtain ⟨as, bs, hold, hnew⟩ := exists_chain_insert hp k
  rcases List.eq_nil_or_concat' as with rfl | ⟨as, q, rfl⟩
  · obtain ⟨q, cs, hcons⟩ := exists_chain_eq_cons hsize k
    obtain rfl : bs = q :: cs := hold.symm.trans hcons
    exact .inl ⟨q, cs, hold, hnew⟩
  · rw [List.append_assoc, List.singleton_append] at hold hnew
    exact .inr ⟨as, q, bs, hold, hnew⟩

/-- A member that is not alone is the owner of the key or comes behind some member. -/
theorem chain_cases (hp : p ∈ m) (hsize : 2 ≤ m.size) (k : Point) :
    (∃ q bs, m.chain k = p :: q :: bs) ∨ ∃ as q bs, m.chain k = as ++ q :: p :: bs := by
  obtain ⟨as, bs, h⟩ := List.append_of_mem (mem_chain (k := k).2 hp)
  rcases List.eq_nil_or_concat' as with rfl | ⟨as, q, rfl⟩
  · have hleft : 1 ≤ (m.erase p).size := by
      have := size_erase hp
      omega
    obtain ⟨q, cs, hcons⟩ := exists_chain_eq_cons hleft k
    obtain rfl : bs = q :: cs := (chain_erase_of_chain h).symm.trans hcons
    exact .inl ⟨q, cs, h⟩
  · rw [List.append_assoc, List.singleton_append] at h
    exact .inr ⟨as, q, bs, h⟩

/-! ## Neighbours -/

theorem mem_of_successor (h : m.successor p = some q) : q ∈ m := by
  rw [successor, Option.filter_eq_some_iff, Option.or_eq_some_iff] at h
  rcases h.1 with h | ⟨-, h⟩
  · exact List.mem_of_find?_eq_some h
  · exact List.mem_of_head? h

theorem mem_of_predecessor (h : m.predecessor p = some q) : q ∈ m := by
  rw [predecessor, Option.filter_eq_some_iff, Option.or_eq_some_iff] at h
  rcases h.1 with h | ⟨-, h⟩
  · exact List.mem_reverse.1 (List.mem_of_find?_eq_some h)
  · exact List.mem_of_getLast? h

/-- The member after `p`, or after the last the first. -/
theorem successor_of_toList (h : m.toList = as ++ p :: bs) : m.successor p = (bs ++ as).head? := by
  have hs := m.sorted
  rw [h, List.pairwise_append, List.pairwise_cons] at hs
  obtain ⟨-, ⟨hb, -⟩, ha⟩ := hs
  -- The points are in order: those before `p` are less, and the one behind it is the next greater.
  have has : as.find? (fun q => decide (p < q)) = none := by
    rw [List.find?_eq_none]
    intro q hq
    have : q < p := ha q hq p List.mem_cons_self
    rw [decide_eq_true_eq]
    exact Nat.not_lt.2 (Nat.le_of_lt this)
  have hpp : ¬p < p := Nat.lt_irrefl _
  rw [successor, h, List.find?_append, has, Option.none_or, List.find?_cons_of_neg (by simpa)]
  cases bs with
  | cons b bs =>
    have hpb : p < b := hb b List.mem_cons_self
    have hne : b ≠ p := by
      rintro rfl
      exact hpp hpb
    simp [hpb, hne, Option.filter]
  | nil =>
    cases as with
    | nil => simp [Option.filter]
    | cons a as =>
      have hne : a ≠ p := by
        rintro rfl
        exact hpp (ha a List.mem_cons_self a List.mem_cons_self)
      simp [hne, Option.filter]

/-- The member before `p`, or before the first the last. -/
theorem predecessor_of_toList (h : m.toList = as ++ p :: bs) :
    m.predecessor p = (bs ++ as).getLast? := by
  have hs := m.sorted
  rw [h, List.pairwise_append, List.pairwise_cons] at hs
  obtain ⟨-, ⟨hb, -⟩, ha⟩ := hs
  have hbs : bs.reverse.find? (fun q => decide (q < p)) = none := by
    rw [List.find?_eq_none]
    intro q hq
    have : p < q := hb q (List.mem_reverse.1 hq)
    rw [decide_eq_true_eq]
    exact Nat.not_lt.2 (Nat.le_of_lt this)
  have hpp : ¬p < p := Nat.lt_irrefl _
  have hrev : (as ++ p :: bs).reverse = bs.reverse ++ p :: as.reverse := by simp
  rw [predecessor, h, hrev, List.find?_append, hbs, Option.none_or,
    List.find?_cons_of_neg (by simpa)]
  rcases List.eq_nil_or_concat as with rfl | ⟨as, a, rfl⟩
  · rcases List.eq_nil_or_concat bs with rfl | ⟨bs, b, rfl⟩
    · simp [Option.filter]
    · have hne : b ≠ p := by
        rintro rfl
        exact hpp (hb b (by simp))
      simp only [List.concat_eq_append, List.reverse_nil, List.find?_nil, Option.none_or,
        List.nil_append, List.append_nil]
      rw [← List.cons_append, List.getLast?_concat, List.getLast?_concat]
      simp [hne, Option.filter]
  · have hap : a < p := ha a (by simp) p List.mem_cons_self
    have hne : a ≠ p := by
      rintro rfl
      exact hpp hap
    rw [List.concat_eq_append, ← List.append_assoc, List.getLast?_concat]
    simp [hap, hne, Option.filter]

/-- The chain is the list of members, cut in two with the parts exchanged. -/
theorem exists_toList_of_chain (h : m.chain k = as ++ p :: bs) :
    ∃ as' bs', m.toList = as' ++ p :: bs' ∧ bs' ++ as' = bs ++ as := by
  have hl := m.toList_eq k
  rw [chain, List.append_eq_append_iff] at h
  rcases h with ⟨c, has, hB⟩ | ⟨c, hA, hc⟩
  · refine ⟨c, bs ++ m.toList.filter (k ≤ ·), ?_, ?_⟩
    · conv_lhs => rw [hl, hB]
      simp
    · rw [has]
      simp
  · cases c with
    | nil =>
      refine ⟨[], bs ++ m.toList.filter (k ≤ ·), ?_, ?_⟩
      · conv_lhs => rw [hl, ← List.nil_append (m.toList.filter (· < k)), ← hc]
        simp
      · rw [hA]
        simp
    | cons a c =>
      rw [List.cons_append, List.cons.injEq] at hc
      obtain ⟨rfl, rfl⟩ := hc
      refine ⟨m.toList.filter (· < k) ++ as, c, ?_, by simp⟩
      conv_lhs => rw [hl, hA]
      simp

/-- The successor of a member is the next one of the chain, and that of the last is the
    first. -/
theorem successor_eq (h : m.chain k = as ++ p :: bs) : m.successor p = (bs ++ as).head? := by
  obtain ⟨as', bs', hl, he⟩ := exists_toList_of_chain h
  rw [successor_of_toList hl, he]

/-- The predecessor of a member is the one before it in the chain, and that of the first is
    the last. -/
theorem predecessor_eq (h : m.chain k = as ++ p :: bs) :
    m.predecessor p = (bs ++ as).getLast? := by
  obtain ⟨as', bs', hl, he⟩ := exists_toList_of_chain h
  rw [predecessor_of_toList hl, he]

theorem successor_of_head (h : m.chain k = p :: bs) : m.successor p = bs.head? := by
  have h : m.chain k = [] ++ p :: bs := h
  rw [successor_eq h, List.append_nil]

theorem predecessor_of_head (h : m.chain k = p :: bs) : m.predecessor p = bs.getLast? := by
  have h : m.chain k = [] ++ p :: bs := h
  rw [predecessor_eq h, List.append_nil]

theorem successor_of_chain (h : m.chain k = as ++ p :: q :: bs) : m.successor p = some q :=
  successor_eq h

theorem exists_successor_of_chain (h : m.chain k = as ++ q :: p :: bs) :
    ∃ s, m.successor p = some s := by
  rw [successor_eq (show m.chain k = (as ++ [q]) ++ p :: bs by rw [h]; simp)]
  exact Option.ne_none_iff_exists'.1 (by simp)

theorem predecessor_of_chain (h : m.chain k = as ++ q :: p :: bs) : m.predecessor p = some q := by
  rw [List.append_cons] at h
  rw [predecessor_eq h, ← List.append_assoc, List.getLast?_concat]

/-- No member is in the chain twice. -/
theorem eq_of_getElem?_chain {i j : Nat} (hi : (m.chain k)[i]? = some p)
    (hj : (m.chain k)[j]? = some p) : i = j :=
  (List.getElem?_inj (List.getElem?_eq_some_iff.1 hi).1 (m.nodup_chain k)).1 (hi.trans hj.symm)

/-- The successor of a member is the next one of the chain, round past its end. A lone member
    has none. -/
theorem successor_of_getElem? {i : Nat} (hp : (m.chain k)[i]? = some p) :
    m.successor p = ((m.chain k)[(i + 1) % m.size]?).filter fun q => q ≠ p := by
  obtain ⟨hi, hpi⟩ := List.getElem?_eq_some_iff.1 hp
  have hsplit : m.chain k = (m.chain k).take i ++ p :: (m.chain k).drop (i + 1) := by
    rw [← hpi, List.cons_getElem_drop_succ, List.take_append_drop]
  -- A member is in the chain once, so the filter only matters at the place of `p` itself.
  have hother : ∀ j, j ≠ i →
      ((m.chain k)[j]?).filter (fun q => decide (q ≠ p)) = (m.chain k)[j]? := by
    intro j hj
    cases hq : (m.chain k)[j]? with
    | none => rfl
    | some q =>
      have hne : q ≠ p := fun h => hj (eq_of_getElem?_chain (h ▸ hq) hp)
      rw [Option.filter_some, if_pos (by simpa using hne)]
  rw [successor_eq hsplit, List.head?_append, List.head?_drop, List.head?_take]
  rw [length_chain] at hi
  by_cases hlast : i + 1 = m.size
  · rw [hlast, Nat.mod_self, List.getElem?_eq_none (by rw [length_chain]), Option.none_or]
    by_cases hz : i = 0
    · subst hz
      rw [if_pos rfl, hp, Option.filter_some, if_neg (by simp)]
    · rw [if_neg hz, hother 0 (Ne.symm hz), List.head?_eq_getElem?]
  · have hlt : i + 1 < (m.chain k).length := by
      rw [length_chain]
      omega
    rw [Nat.mod_eq_of_lt (by omega), hother (i + 1) (by omega), List.getElem?_eq_getElem hlt,
      Option.some_or]

/-- The next node of a chain is the next one along the chain of the key, unless the ring has one
    member only. -/
theorem nextHop_of_getElem? {i : Nat} (hp : (m.chain k)[i]? = some p) :
    (m.view p).nextHop = if m.size = 1 then none else (m.chain k)[(i + 1) % m.size]? := by
  have hi : i < m.size := by
    rw [← length_chain m k]
    exact (List.getElem?_eq_some_iff.1 hp).1
  rw [View.nextHop, view, successor_of_getElem? hp, Option.filter_filter]
  by_cases hone : m.size = 1
  · obtain rfl : i = 0 := by omega
    rw [if_pos hone, hone, Nat.mod_one, hp, Option.filter_some, if_neg (by simp)]
  · have hlt : (i + 1) % m.size < (m.chain k).length := by
      rw [length_chain]
      exact Nat.mod_lt _ (by omega)
    have hne : (m.chain k)[(i + 1) % m.size] ≠ p := fun h => by
      have := eq_of_getElem?_chain ((List.getElem?_eq_getElem hlt).trans (congrArg some h)) hp
      rcases Nat.lt_or_ge (i + 1) m.size with hlt' | hge
      · rw [Nat.mod_eq_of_lt hlt'] at this
        omega
      · obtain hi' : i + 1 = m.size := by omega
        rw [hi', Nat.mod_self] at this
        omega
    rw [if_neg hone, List.getElem?_eq_getElem hlt, Option.filter_some, if_pos (by simpa using hne)]

/-- The first node of the chain is the one that owns the key. -/
theorem owns_of_getElem? {i : Nat} (hp : (m.chain k)[i]? = some p) :
    (m.view p).owns k = decide (i = 0) := by
  obtain ⟨o, ho⟩ : ∃ o, (m.chain k).head? = some o :=
    ⟨_, List.head?_eq_some_head (List.ne_nil_of_mem (List.mem_of_getElem? hp))⟩
  rw [owns_eq ho, decide_eq_decide]
  rw [List.head?_eq_getElem?] at ho
  constructor
  · rintro rfl
    exact eq_of_getElem?_chain hp ho
  · rintro rfl
    exact Option.some.inj (ho.symm.trans hp)

/-- The node that a walk from successor to successor, from the owner of a key on, meets after
    `i` steps. -/
def step (m : Members) (k : Point) : Nat → Option Point
  | 0 => m.owner k
  | i + 1 => (m.step k i).bind m.successor

/-- The chain is what that walk meets before it comes back to the owner. -/
theorem step_eq {i : Nat} (hi : i < m.size) : m.step k i = (m.chain k)[i]? := by
  induction i with
  | zero => rw [step, owner_eq_head, List.head?_eq_getElem?]
  | succ i ih =>
    rw [← length_chain m k] at hi ih
    have hsplit : m.chain k = (m.chain k).take i ++ (m.chain k)[i] :: (m.chain k).drop (i + 1) := by
      rw [List.cons_getElem_drop_succ, List.take_append_drop]
    rw [step, ih (Nat.lt_of_succ_lt hi), List.getElem?_eq_getElem (Nat.lt_of_succ_lt hi),
      Option.bind_some, successor_eq hsplit, List.head?_append, List.head?_drop,
      List.getElem?_eq_getElem hi, Option.some_or]

/-- Before a new member comes the one that came before its successor. -/
theorem predecessor_insert (hp : p ∉ m) {s : Point} (hs : (m.insert p).successor p = some s) :
    (m.insert p).predecessor p = some ((m.predecessor s).getD s) := by
  obtain ⟨as, bs, hm, hi⟩ := exists_chain_insert hp p
  rw [successor_eq hi] at hs
  rw [predecessor_eq hi]
  cases bs with
  | cons b bs =>
    cases hs
    rw [predecessor_eq hm, List.cons_append, List.getLast?_cons]
  | nil =>
    cases as with
    | nil => cases hs
    | cons a as =>
      cases hs
      rw [List.append_nil] at hm
      rw [predecessor_of_head hm, List.nil_append, List.getLast?_cons]

/-! ## Arcs -/

theorem owner_eq_of_toList (h : m.toList = as ++ p :: bs) :
    m.owner k = some p ↔
      (k ≤ p ∧ ∀ q ∈ as, q < k) ∨ (as = [] ∧ ∀ q ∈ p :: bs, q < k) := by
  have hs := m.nodup_toList
  rw [h, List.nodup_append] at hs
  have hpa : p ∉ as := fun hp => hs.2.2 p hp p List.mem_cons_self rfl
  have hpb : p ∉ bs := (List.nodup_cons.1 hs.2.1).1
  rw [owner, h, Option.or_eq_some_iff]
  refine or_congr ⟨fun hf => ?_, fun ⟨hkp, has⟩ => ?_⟩ ?_
  · -- The members before the first one that is not before the key.
    obtain ⟨hkp, cs, ds, he, hcs⟩ := List.find?_eq_some_iff_append.1 hf
    obtain ⟨rfl, -, -⟩ := (List.append_cons_inj_of_notMem hpa hpb).1 he
    exact ⟨by simpa using hkp, fun q hq => not_le_iff_lt.1 (by simpa using hcs q hq)⟩
  · refine List.find?_eq_some_iff_append.2 ⟨by simpa using hkp, as, bs, rfl, fun q hq => ?_⟩
    simpa using not_le_iff_lt.2 (has q hq)
  · -- No member is behind the key, and the first one of all owns it.
    have hhead : (as ++ p :: bs).head? = some p ↔ as = [] := by
      cases as with
      | nil => exact iff_of_true rfl rfl
      | cons a as =>
        rw [List.cons_append, List.head?_cons, Option.some.injEq]
        exact iff_of_false (fun e => hpa (e ▸ List.mem_cons_self)) (List.cons_ne_nil _ _)
    rw [hhead, List.find?_eq_none, and_comm]
    refine and_congr_right fun has => ?_
    subst has
    simp only [List.nil_append, decide_eq_true_eq, not_le_iff_lt]

/-- The arc goes round past the last point. -/
theorem inArc_of_gt {l : Point} (h : p < l) :
    k.inArc l p false true = true ↔ k ≤ p ∨ l < k := by
  have hpl : p.val < l.val := h
  have hcmp : compare l p = .gt := Nat.compare_eq_gt.2 hpl
  have hne : ¬l = p := fun e => Nat.lt_irrefl _ (e ▸ hpl)
  rw [Point.inArc, hcmp]
  by_cases hkl : k = l
  · subst hkl
    simp only [if_true, hne, decide_false, Bool.false_and, Bool.or_false, Point.le_def,
      Point.lt_def]
    exact ⟨nofun, by omega⟩
  · rw [if_neg hkl]
    by_cases hkp : k = p
    · subst hkp
      exact iff_of_true (if_pos rfl) (.inl (Nat.le_refl _))
    · have hkp' : k.val ≠ p.val := fun e => hkp (Point.ext e)
      rw [if_neg hkp]
      simp only [gt_iff_lt, Point.lt_def, Point.le_def, Bool.or_eq_true, decide_eq_true_eq]
      omega

theorem inArc_of_lt {l : Point} (h : l < p) :
    k.inArc l p false true = true ↔ l < k ∧ k ≤ p := by
  have hlp : l.val < p.val := h
  have hcmp : compare l p = .lt := Nat.compare_eq_lt.2 hlp
  have hne : ¬l = p := fun e => Nat.lt_irrefl _ (e ▸ hlp)
  rw [Point.inArc, hcmp]
  by_cases hkl : k = l
  · subst hkl
    simp only [if_true, hne, decide_false, Bool.false_and, Bool.or_false, Point.le_def,
      Point.lt_def]
    exact ⟨nofun, by omega⟩
  · rw [if_neg hkl]
    by_cases hkp : k = p
    · subst hkp
      exact iff_of_true (if_pos rfl) ⟨h, Nat.le_refl _⟩
    · have hkp' : k.val ≠ p.val := fun e => hkp (Point.ext e)
      rw [if_neg hkp]
      simp only [Point.lt_def, Point.le_def, Bool.and_eq_true, decide_eq_true_eq]
      omega

/-- A member owns the arc that begins after its predecessor and ends with it. -/
theorem inArc_predecessor {l : Point} (hp : p ∈ m) (hl : m.predecessor p = some l) :
    k.inArc l p false true = true ↔ m.owner k = some p := by
  obtain ⟨as, bs, h⟩ := List.append_of_mem (mem_def.1 hp)
  have hs := m.sorted
  rw [h, List.pairwise_append, List.pairwise_cons] at hs
  obtain ⟨has, ⟨hb, hbs⟩, hab⟩ := hs
  rw [owner_eq_of_toList h]
  rw [predecessor_of_toList h] at hl
  rcases List.eq_nil_or_concat as with rfl | ⟨as, a, rfl⟩
  · rcases List.eq_nil_or_concat bs with rfl | ⟨bs, b, rfl⟩
    · cases hl
    · -- `p` is the first point of the ring: its arc begins after the last one and goes round.
      rw [List.concat_eq_append] at hl hb hbs ⊢
      rw [List.append_nil, List.getLast?_concat, Option.some.injEq] at hl
      subst hl
      have hpb : p < b := hb b (by simp)
      have hmax : ∀ q ∈ bs, q < b := fun q hq =>
        (List.pairwise_append.1 hbs).2.2 q hq b (List.mem_singleton_self b)
      rw [inArc_of_gt hpb]
      refine or_congr ⟨fun h => ⟨h, fun q hq => absurd hq List.not_mem_nil⟩, And.left⟩
        ⟨fun hbk => ⟨rfl, fun q hq => ?_⟩, fun h => h.2 b (by simp)⟩
      rw [List.mem_cons, List.mem_append, List.mem_singleton] at hq
      rcases hq with rfl | hq | rfl
      · exact Nat.lt_trans hpb hbk
      · exact Nat.lt_trans (hmax q hq) hbk
      · exact hbk
  · -- `p` has a point before it, and its arc is the stretch between the two.
    rw [List.concat_eq_append] at hl has hab ⊢
    rw [← List.append_assoc, List.getLast?_concat, Option.some.injEq] at hl
    subst hl
    have hmax : ∀ q ∈ as, q < a := fun q hq =>
      (List.pairwise_append.1 has).2.2 q hq a (List.mem_singleton_self a)
    rw [inArc_of_lt (hab a (by simp) p List.mem_cons_self)]
    constructor
    · rintro ⟨h', h''⟩
      refine .inl ⟨h'', fun q hq => ?_⟩
      rw [List.mem_append, List.mem_singleton] at hq
      rcases hq with hq | rfl
      · exact Nat.lt_trans (hmax q hq) h'
      · exact h'
    · rintro (⟨h', h''⟩ | ⟨h', -⟩)
      · exact ⟨h'' a (by simp), h'⟩
      · simp at h'

end ReplicaRing.Members
