import ReplicaRing.Proofs.Log.Refinement

/-!
# Writes are atomic under crashes

A crash cuts off the steps of a write at any point (`FileTree.Interrupted`). The log opened on
the files left behind keeps the histories from before the write, or those after it, and the
latter just when the last step, the move of the index file, has been carried out.

A log is *reached* (`Log.Reached`) by opening an empty directory, by calls, and by crashes
with the opening after them. So a crash may follow another, and find the bytes and temporary
files that it left.

Main statements:

* a reached log keeps its histories (`Log.Reached.keeps`);
* what a crash within a write leaves behind answers all calls as one of the two histories
  does (`Log.crash_atomic`).
-/

namespace ReplicaRing.Log

open FileTree

variable {K : Set String} {H : String → History} {log log' : Log} {key : String} {w : Write}

/-- The write `w` comes later than all that was written to the key, and its bytes have
    offsets. -/
structure Newer (H : String → History) (key : String) (w : Write) : Prop where
  later : ∀ l, (H key).getLast? = some l → l.time < w.time
  addressable : History.Addressable (H key ++ [w])

/-- The step moves a file over another. -/
def isMove : Step → Bool
  | .rename _ _ => true
  | _ => false

/-- The histories after a write that was cut off with the steps `rest` still before it: they
    have grown if and only if the move of the index file was carried out. -/
def afterCrash (H : String → History) (key : String) (w : Write) (rest : List Step) :
    String → History :=
  if rest.any isMove then H else Function.update H key (H key ++ [w])

/-- The logs that can come to be, with what was written to them. -/
inductive Reached (K : Set String) : Log → (String → History) → Prop
  /-- An empty directory is opened. -/
  | opened {t disk : FileTree} {root : Path} {fanout capacity : Nat} {flush : FlushPolicy}
      {tally : Tally} {log : Log} (hv : Vacant t root)
      (h : openAt t root fanout capacity flush tally = (.ok log, disk)) :
      Reached K log fun _ => []
  /-- A call is made. -/
  | call {log : Log} {H : String → History} (c : Call) (hr : Reached K log H)
      (ha : c.Admissible K H) : Reached K (c.run log).2 (c.onHistories H).2
  /-- A write is cut off, and the files it leaves are opened. -/
  | crash {log log' : Log} {H : String → History} {key : String} {w : Write}
      {t disk : FileTree} {rest : List Step} {fanout capacity : Nat} {flush : FlushPolicy}
      {tally : Tally} (hr : Reached K log H) (hkey : key ∈ K) (hw : Newer H key w)
      (hi : Interrupted log.disk (log.writeSteps key (H key).tip w.value w.time) t rest)
      (h : openAt t log.root fanout capacity flush tally = (.ok log', disk)) :
      Reached K log' (afterCrash H key w rest)

/-- The move is the last of the steps of a write. -/
theorem any_isMove {tip : Option Index.Tip} {value : Bytes} {t : Time} {rest : List Step}
    (hs : rest <:+ log.writeSteps key tip value t) (hne : rest ≠ []) : rest.any isMove = true := by
  obtain ⟨ss, hss⟩ := hs
  have hlast := congrArg List.getLast? hss
  rw [List.getLast?_append_of_ne_nil _ hne] at hlast
  obtain ⟨p, q, hpq⟩ : ∃ p q, rest.getLast? = some (.rename p q) := by
    rw [hlast]
    simp [writeSteps, indexSteps]
  exact List.any_eq_true.2 ⟨_, List.mem_of_getLast? hpq, rfl⟩

theorem Newer.ordered (hw : Newer H key w) (ho : (H key).Ordered) :
    History.Ordered (H key ++ [w]) :=
  ho.concat hw.later

/-- Whatever a crash within a write leaves behind, it tells one of the two histories. -/
theorem Keeps.onDisk_afterCrash (hk : Keeps K log H) (hK : Distinct K) (hkey : key ∈ K)
    (hw : Newer H key w) {t : FileTree} {rest : List Step}
    (hi : Interrupted log.disk (log.writeSteps key (H key).tip w.value w.time) t rest) :
    OnDisk K t log.root (afterCrash H key w rest) := by
  obtain ⟨t', hrun, hdone, hcut⟩ :=
    hk.goes_write hK hkey (hw.ordered (hk.onDisk.stored key hkey).ordered) hw.addressable
  rw [afterCrash]
  by_cases hne : rest = []
  · subst hne
    rw [hi.run_eq, Prod.mk.injEq] at hrun
    rw [if_neg (by simp), hrun.2]
    exact hdone
  · rw [if_pos (any_isMove hi.suffix hne)]
    exact hcut t rest hi hne

/-- A reached log keeps what was written to it. -/
theorem Reached.keeps (hr : Reached K log H) (hK : Distinct K) : Keeps K log H := by
  induction hr with
  | opened hv h =>
    obtain ⟨log', h', hk, -⟩ := hv.openAt (K := K) _ _ _ _
    rw [h', Prod.mk.injEq, Except.ok.injEq] at h
    exact h.1 ▸ hk
  | call c _ ha ih => exact (ih.call hK c ha).2.1
  | crash _ hkey hw hi h ih =>
    obtain ⟨log', h', hk, -⟩ := (ih.onDisk_afterCrash hK hkey hw hi).openAt _ _ _ _
    rw [h', Prod.mk.injEq, Except.ok.injEq] at h
    exact h.1 ▸ hk

/-- **A crash leaves no write half done.** The steps of a write are those that `append`, or
    `appendNow` with a stamp that comes to the same time, carries out. Wherever they are cut
    off, the files left behind can be opened, and the log there answers every further
    sequence of calls as the old histories do, or, if and only if the move has taken place,
    as those extended by the write. -/
theorem crash_atomic (hr : Reached K log H) (hK : Distinct K) (hkey : key ∈ K)
    (hw : Newer H key w) {t : FileTree} {rest : List Step}
    (hi : Interrupted log.disk (log.writeSteps key (H key).tip w.value w.time) t rest)
    (fanout capacity : Nat) (flush : FlushPolicy) (tally : Tally) :
    (log.disk.run (log.writeSteps key (H key).tip w.value w.time) =
        (.ok (), (log.append key w.value w.time).2.disk) ∧
      ∀ now, stamp (H key).tip now = some w.time →
        log.disk.run (log.writeSteps key (H key).tip w.value w.time) =
          (.ok (), (log.appendNow key w.value now).2.disk)) ∧
    ∃ log', openAt t log.root fanout capacity flush tally = (.ok log', log'.disk) ∧
      ∀ cs, AllAdmissible K (afterCrash H key w rest) cs →
        log'.answers cs = answersOf (afterCrash H key w rest) cs := by
  have hk := hr.keeps hK
  have ho := hw.ordered (hk.onDisk.stored key hkey).ordered
  refine ⟨⟨?_, fun now hnow => ?_⟩, ?_⟩
  · obtain ⟨tip, log', happ, -, -, -, hrun⟩ := hk.append hkey hK ho hw.addressable
    rw [happ, hrun]
  · obtain ⟨tip, log', happ, -, -, -, hrun⟩ := hk.appendNow hkey hK hnow ho hw.addressable
    rw [happ, hrun]
  · obtain ⟨log', h', hk', -⟩ :=
      (hk.onDisk_afterCrash hK hkey hw hi).openAt fanout capacity flush tally
    exact ⟨log', h', fun cs ha => (hk'.calls hK cs ha).1⟩

/-- A log opened on an empty directory. -/
def freshLog : Log := (openAt .empty ["logs"] 2 1 .batch .zero).1.toOption.getD
  ⟨.empty, [], 0, .batch, .empty 0, .zero⟩

/-- The first write of a key is cut off when three of its steps have been carried out. -/
theorem crash_atomic_first_write :
    ∃ t rest, rest.length = 6 ∧ Reached {"a"} freshLog (fun _ => []) ∧ Distinct {"a"} ∧
      Newer (fun _ => []) "a" ⟨7, [1, 2, 3]⟩ ∧
      Interrupted freshLog.disk (freshLog.writeSteps "a" none [1, 2, 3] 7) t rest ∧
      ∃ log', openAt t freshLog.root 5 1 .always .zero = (.ok log', log'.disk) ∧
        ∀ cs, AllAdmissible {"a"} (afterCrash (fun _ => []) "a" ⟨7, [1, 2, 3]⟩ rest) cs →
          log'.answers cs = answersOf (afterCrash (fun _ => []) "a" ⟨7, [1, 2, 3]⟩ rest) cs := by
  have hopen : openAt .empty ["logs"] 2 1 .batch .zero = (.ok freshLog, freshLog.disk) := rfl
  have hr : Reached {"a"} freshLog (fun _ => []) := .opened (vacant_empty _) hopen
  have hK : Distinct {"a"} := Set.injOn_singleton _ _
  have hw : Newer (fun _ => []) "a" ⟨7, [1, 2, 3]⟩ := ⟨nofun, by decide⟩
  have hok :
      (freshLog.disk.run ((freshLog.writeSteps "a" none [1, 2, 3] 7).take 3)).1.isOk = true := by
    decide +kernel
  have hlen : ((freshLog.writeSteps "a" none [1, 2, 3] 7).drop 3).length = 6 := rfl
  cases hrun : freshLog.disk.run ((freshLog.writeSteps "a" none [1, 2, 3] 7).take 3) with
  | mk r t =>
    rw [hrun] at hok
    cases r with
    | error e => cases hok
    | ok u =>
      have hi := Interrupted.of_take hrun
      exact ⟨t, _, hlen, hr, hK, hw, hi,
        (crash_atomic hr hK rfl hw hi 5 1 .always .zero).2⟩

end ReplicaRing.Log
