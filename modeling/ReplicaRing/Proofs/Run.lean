import ReplicaRing.Proofs.Cluster

/-!
# Runs of a cluster

Moves are made one after the other (`Cluster.after`). As long as they are admissible, and there
is room for what they write, every one succeeds, and the rows are those of the start, moved
(`Cluster.Shows.run`): what a run does to a key is known from `Row.moves`.

What is seen of a key from outside is its rank and its last value on every node
(`Cluster.rankAt`, `Cluster.valueAt`), which the row tells (`Cluster.Shows.rankAt_eq`,
`Cluster.Shows.valueAt_eq`), and what a read of it answers (`Cluster.Shows.reads`).
-/

namespace ReplicaRing

open Timed

namespace Cluster

/-! ## Making moves -/

/-- A move is made: what comes of it, unless it is dropped or breaks off, and the cluster after
    it. -/
def make (c : Cluster) (mv : Move) : Option Answer × Cluster :=
  match mv.perform.run c with
  | (.done _ a, c) => (some a, c)
  | (.dropped, c) | (.broken, c) => (none, c)

/-- The cluster after some moves. -/
def after (c : Cluster) (mvs : List Move) : Cluster := mvs.foldl (fun c mv => (c.make mv).2) c

/-- What comes of some moves. -/
def answers (c : Cluster) : List Move → List (Option Answer)
  | [] => []
  | mv :: mvs => (c.make mv).1 :: answers (c.make mv).2 mvs

/-- Each of the moves is admissible when it is made. -/
def AllAdmissible (E : Setting) (m : Members) : List Move → Prop
  | [] => True
  | mv :: mvs => mv.Admissible E m ∧ AllAdmissible E (mv.members m) mvs

instance instDecidableAllAdmissible {E : Setting} [DecidablePred (· ∈ E.keys)] :
    (m : Members) → (mvs : List Move) → Decidable (AllAdmissible E m mvs)
  | _, [] => inferInstanceAs (Decidable True)
  | m, mv :: mvs =>
    have : Decidable (AllAdmissible E (mv.members m) mvs) := instDecidableAllAdmissible _ mvs
    inferInstanceAs (Decidable (mv.Admissible E m ∧ AllAdmissible E (mv.members m) mvs))

/-- The last value of a key after a move; deletions leave a tombstone. -/
def Move.write (key : String) (last : Option Bytes) : Move → Option Bytes
  | .put _ key' value => if key = key' then some value else last
  | .delete _ key' => if key = key' then last.map fun _ => [] else last
  | _ => last

/-- What was last written to a key in a run from the beginning. -/
def lastWrite (key : String) (mvs : List Move) : Option Bytes := mvs.foldl (Move.write key) none

/-- All went well: the request got a reply, or every notification was handled. -/
def Answer.Succeeds : Answer → Prop
  | .set => True
  | .handled results => ∀ r ∈ results, r = some (.ok .done)
  | .reply r => ∃ reply, r = .ok reply

/-! ## What is seen of a key -/

/-- The rank under which the node at `p` lists a key. -/
def rankAt (c : Cluster) (key : String) (p : Point) : Option Nat :=
  (c.peers.find? p).bind fun node => (node.store.replica? key).map (·.rank.toNat)

/-- The last value of a key on the node at `p`. -/
def valueAt (c : Cluster) (key : String) (p : Point) : Option Bytes :=
  (c.peers.find? p).bind fun node =>
    match (node.store.get key).1 with
    | .ok v => v
    | .error _ => none

/-- Any client reads that the last value of the key is `v`. -/
def Reads (c : Cluster) (key : String) (v : Option Bytes) : Prop :=
  ∀ via, (c.make (.get via key)).1 = some (.reply (.ok (.value v)))

end Cluster

namespace Row

/-- The row of a key after some moves. -/
def moves (E : Setting) (m : Members) (key : String) (row : Row) : List Cluster.Move → Row
  | [] => row
  | mv :: mvs => moves E (mv.members m) key (row.move E m key mv) mvs

/-- Only members hold copies, and only such as have a place in a chain. -/
def Kept (E : Setting) (m : Members) (row : Row) : Prop :=
  ∀ q c, row q = some c → q ∈ m ∧ 1 ≤ c.rank ∧ c.rank ≤ E.copies.toNat

theorem Kept.eq_none {E : Setting} {m : Members} {row : Row} {p : Point} (hkept : row.Kept E m)
    (hp : p ∉ m) : row p = none := by
  cases hc : row p with
  | none => rfl
  | some c => exact absurd (hkept p c hc).1 hp

end Row

namespace Cluster

variable {E : Setting} {b : Nat} {c c' : Cluster} {rows : String → Row} {mvs : List Move}
  {mv : Move} {key : String} {p : Point}

theorem make_of_prompt {a : Answer} (h : Prompt mv.perform c a c') : c.make mv = (some a, c') := by
  rw [make, Timed.run, h 0 none nofun]

theorem Move.succeeds_expected (E : Setting) (m : Members) (rows : String → Row) (mv : Move) :
    (mv.expected E m rows).Succeeds := by
  cases mv with
  | clock _ => trivial
  | join p =>
    intro r hr
    obtain ⟨_, _, h⟩ := List.mem_map.1 hr
    exact h.symm
  | fail p =>
    intro r hr
    obtain ⟨_, _, h⟩ := List.mem_map.1 hr
    exact h.symm
  | put _ _ _ => exact ⟨_, rfl⟩
  | delete _ _ => exact ⟨_, rfl⟩
  | get _ _ => exact ⟨_, rfl⟩

/-- What was never written stays so until it is put. -/
theorem Move.write_none (hput : ∀ via value, mv ≠ .put via key value) : mv.write key none = none := by
  cases mv with
  | put via key' value =>
    have hne : key ≠ key' := fun e => hput via value (e ▸ rfl)
    rw [Move.write, if_neg hne]
  | delete via key' =>
    rw [Move.write]
    split <;> rfl
  | _ => rfl

/-- A run succeeds and moves the rows. -/
theorem Shows.run (hs : c.Shows E b rows) (hadm : AllAdmissible E c.members mvs)
    (hbudget : b + mvs.length * cost E ≤ E.budget) :
    (c.after mvs).members = mvs.foldl Move.members c.members ∧
      (c.after mvs).Shows E (b + mvs.length * cost E)
        (fun key => (rows key).moves E c.members key mvs) ∧
      ∀ a ∈ c.answers mvs, ∃ a', a = some a' ∧ a'.Succeeds := by
  induction mvs generalizing c b rows with
  | nil =>
    exact ⟨rfl, hs.mono (Nat.le_add_right _ _), fun a ha => absurd ha List.not_mem_nil⟩
  | cons mv mvs ih =>
    rw [List.length_cons, Nat.succ_mul] at hbudget ⊢
    obtain ⟨c', h, hm, hs'⟩ := hs.perform hadm.1 (by omega)
    have hmake := make_of_prompt h
    obtain ⟨hm'', hs'', ha⟩ := ih hs' (hm.symm ▸ hadm.2) (by omega)
    have hafter : c.after (mv :: mvs) = c'.after mvs := by
      rw [after, List.foldl_cons, hmake]
      rfl
    rw [hafter, hm'', hm]
    refine ⟨rfl, ?_, ?_⟩
    · rw [hm] at hs''
      have hadd : b + (mvs.length * cost E + cost E) = b + cost E + mvs.length * cost E := by omega
      rw [hadd]
      exact hs''
    · intro a h'
      rw [answers, hmake, List.mem_cons] at h'
      rcases h' with rfl | h'
      · exact ⟨_, rfl, mv.succeeds_expected E _ _⟩
      · exact ha a h'

theorem after_append (c : Cluster) (mvs mvs' : List Move) :
    c.after (mvs ++ mvs') = (c.after mvs).after mvs' :=
  List.foldl_append

theorem allAdmissible_append {m : Members} {mvs mvs' : List Move} :
    AllAdmissible E m (mvs ++ mvs') ↔
      AllAdmissible E m mvs ∧ AllAdmissible E (mvs.foldl Move.members m) mvs' := by
  induction mvs generalizing m with
  | nil => exact (and_iff_right trivial).symm
  | cons mv mvs ih =>
    rw [List.cons_append, AllAdmissible, AllAdmissible, ih, List.foldl_cons, and_assoc]

theorem Shows.kept (hs : c.Shows E b rows) (key : String) : (rows key).Kept E c.members := by
  intro q copy hc
  by_cases hq : q ∈ c.members
  · obtain ⟨node, -, hn⟩ := hs.peers.member q hq
    have ha := hn.store.allows key copy hc
    exact ⟨hq, ha.one_le_rank, ha.rank_le⟩
  · rw [hs.peers.rows_other q hq] at hc
    cases hc

/-- What every move keeps of the row of a key, a run keeps. -/
theorem Shows.run_row (P : Members → Row → Option Bytes → Prop) (key : String)
    {last : Option Bytes}
    (hstep : ∀ m row last mv, mv ∈ mvs → row.Kept E m → mv.Admissible E m → P m row last →
      P (mv.members m) (row.move E m key mv) (mv.write key last))
    (hs : c.Shows E b rows) (hadm : AllAdmissible E c.members mvs)
    (hbudget : b + mvs.length * cost E ≤ E.budget) (h : P c.members (rows key) last) :
    P (mvs.foldl Move.members c.members) ((rows key).moves E c.members key mvs)
      (mvs.foldl (Move.write key) last) := by
  induction mvs generalizing c b rows last with
  | nil => exact h
  | cons mv mvs ih =>
    rw [List.length_cons, Nat.succ_mul] at hbudget
    obtain ⟨c', -, hm, hs'⟩ := hs.perform hadm.1 (by omega)
    have h' := hstep _ _ _ mv List.mem_cons_self (hs.kept key) hadm.1 h
    rw [← hm] at h'
    have hrec := ih (fun m row last mv hmv => hstep m row last mv (List.mem_cons_of_mem _ hmv)) hs'
      (hm.symm ▸ hadm.2) (by omega) h'
    rw [hm] at hrec
    exact hrec

/-- The cluster without nodes holds nothing. -/
theorem shows_empty {o : ClusterOptions} {now : Time} (hspace : o.space = E.space)
    (hcopies : o.copies = E.copies) (hlistening : o.listening = false)
    (hnow : now.toNat ≤ E.latest) :
    (Cluster.empty o .calm now).Shows E 0 fun _ _ => none where
  space := hspace
  copies := hcopies
  listening := hlistening
  chaos := rfl
  now_le := hnow
  peers := ⟨fun _ h => absurd h List.not_mem_nil, fun _ h => absurd h List.not_mem_nil,
    fun _ _ => rfl, fun _ _ _ => rfl⟩

theorem Shows.rankAt_eq (hs : c.Shows E b rows) (key : String) (p : Point) :
    c.rankAt key p = (rows key p).map (·.rank) := by
  by_cases hp : p ∈ c.members
  · obtain ⟨node, hf, hn⟩ := hs.peers.member p hp
    rw [rankAt, hf, Option.bind_some]
    cases hc : rows key p with
    | none => rw [hn.store.replica?_eq_none.2 hc]; rfl
    | some copy =>
      obtain ⟨r, hr, -, hrank⟩ := hn.store.replica?_eq_some hc
      rw [hr, Option.map_some, Option.map_some, hrank]
  · rw [rankAt, hs.peers.other p hp, hs.peers.rows_other p hp]
    rfl

theorem Shows.valueAt_eq (hs : c.Shows E b rows) (hkey : key ∈ E.keys) (p : Point) :
    c.valueAt key p = (rows key p).map (·.value) := by
  by_cases hp : p ∈ c.members
  · obtain ⟨node, hf, hn⟩ := hs.peers.member p hp
    obtain ⟨store', hg, -⟩ := hn.store.get hkey
    rw [valueAt, hf, Option.bind_some, hg]
  · rw [valueAt, hs.peers.other p hp, hs.peers.rows_other p hp]
    rfl

/-- What is read is what the owner holds. -/
theorem Shows.reads (hs : c.Shows E b rows) (hkey : key ∈ E.keys) (hsize : 1 ≤ c.members.size)
    {o : Point} (ho : (c.members.chain (E.point key)).head? = some o) (v : Option Bytes) :
    c.Reads key v ↔ (rows key o).map (·.value) = v := by
  have htarget : ∀ via, Row.target E c.members key via = o := by
    intro via
    rw [Row.target, Members.owner_eq_head, ho, Option.getD_some]
  have hmake : ∀ via, (c.make (.get via key)).1 =
      some (.reply (.ok (.value ((rows key o).map (·.value))))) := by
    intro via
    obtain ⟨c', h, -⟩ := hs.request via (fun _ _ => rfl)
      (Peers.deliver_getObject hs.site_calm hs.peers (target_mem key via hsize)
        hkey)
    rw [htarget] at h
    have hperform : Prompt (Move.get via key).perform c _ c' := h.bind (prompt_pure _ _)
    rw [make_of_prompt hperform]
  constructor
  · intro h
    have h := (hmake o).symm.trans (h o)
    simp only [Option.some.injEq, Answer.reply.injEq, Except.ok.injEq, Reply.value.injEq] at h
    exact h
  · rintro rfl via
    exact hmake via

/-! ## A small ring -/

/-- A ring of 16 bits keeps two copies of the key `c`. -/
def sampleSetting : Setting where
  keys := {"c"}
  distinct a ha b hb _ := by
    rw [Set.mem_singleton_iff.1 ha, Set.mem_singleton_iff.1 hb]
  space := ⟨16, by decide, by decide⟩
  copies := 2
  two_le_copies := by decide
  latest := 0
  longest := 8
  budget := 100
  latest_add_budget_lt := by decide
  longest_mul_budget_lt := by decide

instance : DecidablePred (· ∈ sampleSetting.keys) := fun key =>
  inferInstanceAs (Decidable (key = "c"))

/-- Its members. -/
def sampleA : Point := .ofNat 0x1000
def sampleB : Point := .ofNat 0x5000
def sampleC : Point := .ofNat 0x9000

/-- Two values of the key. -/
def sampleOld : Bytes := [0x6f, 0x6c, 0x64]
def sampleNew : Bytes := [0x6e, 0x65, 0x77]

def sampleOptions : ClusterOptions where
  space := sampleSetting.space
  copies := sampleSetting.copies
  rpcTimeout := 500
  clientTimeout := 500
  chainLength := 2
  home := ["ring"]

/-- A run from the cluster without nodes. -/
theorem shows_after_sample {mvs : List Move} (hadm : AllAdmissible sampleSetting .empty mvs)
    (hbudget : mvs.length * cost sampleSetting ≤ sampleSetting.budget) :
    let c := (Cluster.empty sampleOptions .calm 0).after mvs
    c.members = mvs.foldl Move.members .empty ∧
      c.Shows sampleSetting (mvs.length * cost sampleSetting)
        fun key => Row.moves sampleSetting .empty key (fun _ => none) mvs := by
  have hs : (Cluster.empty sampleOptions .calm 0).Shows sampleSetting 0 fun _ _ => none :=
    shows_empty rfl rfl rfl (by decide)
  obtain ⟨hm, hs, -⟩ := hs.run hadm (by rwa [Nat.zero_add])
  exact ⟨hm, Nat.zero_add (mvs.length * cost sampleSetting) ▸ hs⟩

/-- A key is put on a ring of three nodes. -/
def sampleThree : List Move :=
  [.join sampleA, .join sampleB, .join sampleC, .put sampleA "c" sampleOld]

end Cluster

end ReplicaRing
