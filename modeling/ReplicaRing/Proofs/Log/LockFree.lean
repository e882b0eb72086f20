import ReplicaRing.Proofs.Log.Crash
import ReplicaRing.Proofs.Log.Writers

/-!
# Reads without locks

Each access of a thread keeps to what the threads have agreed on, so that every run of a machine
passes through sound worlds, in which each thread is where it should be (`Log.Machine.Inv`). One
step preserves that (`Log.Machine.Inv.step`), and so does a run (`Log.Machine.Inv.run`).

Main statement: whatever appends are going on, a read returns as soon as it has had turns
enough, and answers as a history does that is no shorter than what was published when it began,
and no longer than what was committed when it returned (`Log.read_sees_prefix`).
-/

namespace ReplicaRing.Log

variable {K : Set String} {H : String → History} {log : Log} {root : Path} {m : Machine}
  {w w' : World} {th th' : Thread} {task : Task} {floor : Nat → History} {base : History}
  {i j : Nat}

/-! ## One thread -/

/-- The answer is that of a history no shorter than `base`, and no longer than what is
    committed. -/
def Answers (task : Task) (base : History) (a : Answer) (w : World) : Prop :=
  ∃ g, base <+: g ∧ g <+: w.committed task.key ∧ a = (task.onHistory g).1

/-- The answer is that of a history, and what comes of it is published. -/
def Told (task : Task) (a : Answer) (w : World) : Prop :=
  ∃ h, a = (task.onHistory h).1 ∧ (task.onHistory h).2 <+: w.published task.key

theorem Follows.told {h : History} {a : Answer} (hf : Follows task h a w) : Told task a w :=
  ⟨h, hf.answer, hf.published ▸ List.prefix_refl _⟩

namespace Thread

/-- The thread is within an append. -/
def writes : Thread → Bool
  | running task _ => task.isAppend
  | _ => false

/-- The thread has begun. -/
def begun : Thread → Bool
  | waiting _ => false
  | _ => true

/-- The thread is where it should be, if it is not to miss anything of the history `base`. -/
inductive Ok (K : Set String) (root : Path) (base : History) (w : World) : Thread → Prop
  | waiting {task : Task} (h : base <+: w.published task.key) : Ok K root base w (.waiting task)
  | inRead {task : Task} {rest : Plan Log Answer} (hread : task.isAppend = false)
      (hkey : task.key ∈ K) (h : (reading K root).Right (Answers task base) rest w) :
      Ok K root base w (.running task rest)
  | inAppend {task : Task} {value : Bytes} {h : History} {rest : Plan Log Answer}
      (hvalue : task.value? = some value) (hkey : task.key ∈ K)
      (h : (writing K root task.key value).Right (Follows task h) rest w) :
      Ok K root base w (.running task rest)
  | answered {task : Task} {a : Answer} (hread : task.isAppend = false) (hkey : task.key ∈ K)
      (h : Answers task base a w) : Ok K root base w (.returned task a)
  | told {task : Task} {a : Answer} (hwrite : task.isAppend = true) (h : Told task a w) :
      Ok K root base w (.returned task a)

/-- A thread stays where it should be while the others go on. -/
theorem Ok.mono (h : th.Ok K root base w) (hg : Grows w w')
    (ha : th.writes = true → Around root th.task.key w w') : th.Ok K root base w' := by
  cases h with
  | waiting h => exact .waiting (h.trans (hg.published _))
  | inRead hread hkey h =>
    refine .inRead hread hkey (Protocol.Right.rely h hg ?_)
    rintro a ⟨g, hb, hc, ha⟩
    exact ⟨g, hb, hc.trans (hg.committed _), ha⟩
  | @inAppend task value _ _ hvalue hkey h =>
    have har : Around root task.key w w' := ha (by rw [writes, Task.isAppend, hvalue]; rfl)
    refine .inAppend hvalue hkey (Protocol.Right.rely h har ?_)
    exact fun a hf => ⟨hf.answer, har.committed.trans hf.committed, har.published.trans hf.published⟩
  | answered hread hkey h =>
    obtain ⟨g, hb, hc, ha⟩ := h
    exact .answered hread hkey ⟨g, hb, hc.trans (hg.committed _), ha⟩
  | told hwrite h =>
    obtain ⟨h, ha, hp⟩ := h
    exact .told hwrite ⟨h, ha, hp.trans (hg.published _)⟩

end Thread

/-! ## All threads -/

namespace Machine

/-- What is true in every run of a machine that began with the histories `H`. The `i`-th thread
    is not to miss anything of the history `floor i`. -/
structure Inv (K : Set String) (root : Path) (H : String → History) (floor : Nat → History)
    (m : Machine) (w : World) : Prop where
  log : w.log = m.log
  sound : Sound K root w
  threads : ∀ (i : Nat) (th : Thread), m.threads[i]? = some th → th.Ok K root (floor i) w
  /-- No two threads are within appends to one key. -/
  alone : ∀ (i j : Nat) (th th' : Thread), m.threads[i]? = some th → m.threads[j]? = some th' →
    th.writes = true → th'.writes = true → th.task.key = th'.task.key → i = j
  /-- What is committed comes from appends that have begun. -/
  sources : ∀ k, ∀ v ∈ w.committed k, v ∈ H k ∨
    ∃ th ∈ m.threads, th.begun = true ∧ th.task.key = k ∧ th.task.value? = some v.value

/-- The invariant is kept if one thread gets on, and the others keep their places. -/
theorem Inv.set (h : Inv K root H floor m w) (hi : m.threads[i]? = some th)
    (hok : th'.Ok K root (floor i) w') (htask : th'.task = th.task) (hbegun : th'.begun = true)
    (hs : Sound K root w') (hg : Grows w w')
    (hothers : ∀ (j : Nat) (th₂ : Thread), j ≠ i → m.threads[j]? = some th₂ → th₂.writes = true →
      Around root th₂.task.key w w' ∧ (th'.writes = true → th₂.task.key ≠ th.task.key))
    (hsources : ∀ k, ∀ v ∈ w'.committed k, v ∈ w.committed k ∨
      th.task.key = k ∧ th.task.value? = some v.value) :
    Inv K root H floor ⟨w'.log, m.threads.set i th'⟩ w' := by
  have hlt : i < m.threads.length := (List.getElem?_eq_some_iff.1 hi).1
  have hself : (m.threads.set i th')[i]? = some th' := List.getElem?_set_self hlt
  have hne : ∀ {j}, j ≠ i → (m.threads.set i th')[j]? = m.threads[j]? := fun hj =>
    List.getElem?_set_ne (Ne.symm hj)
  refine ⟨rfl, hs, fun j th₂ hj => ?_, fun j j' th₂ th₂' hj hj' hw hw' hkey => ?_, fun k v hv => ?_⟩
  · by_cases hji : j = i
    · subst hji
      rw [hself, Option.some.injEq] at hj
      exact hj ▸ hok
    · rw [hne hji] at hj
      exact (h.threads j th₂ hj).mono hg fun hw => (hothers j th₂ hji hj hw).1
  · -- Only the thread that got on can have begun an append just now.
    by_cases hji : j = i <;> by_cases hji' : j' = i
    · rw [hji, hji']
    · rw [hji, hself, Option.some.injEq] at hj
      rw [hne hji'] at hj'
      subst hj
      exact absurd (hkey.symm.trans (congrArg Task.key htask)) ((hothers j' th₂' hji' hj' hw').2 hw)
    · rw [hji', hself, Option.some.injEq] at hj'
      rw [hne hji] at hj
      subst hj'
      exact absurd (hkey.trans (congrArg Task.key htask)) ((hothers j th₂ hji hj hw).2 hw')
    · rw [hne hji] at hj
      rw [hne hji'] at hj'
      exact h.alone j j' th₂ th₂' hj hj' hw hw' hkey
  · have hmem : th' ∈ m.threads.set i th' := List.mem_of_getElem? hself
    rcases hsources k v hv with hv | ⟨hk, hvalue⟩
    · refine (h.sources k v hv).imp id ?_
      rintro ⟨th₂, hth₂, hb, hk, hvalue⟩
      obtain ⟨j, hj⟩ := List.getElem?_of_mem hth₂
      by_cases hji : j = i
      · rw [hji, hi, Option.some.injEq] at hj
        subst hj
        exact ⟨th', hmem, hbegun, htask ▸ hk, htask ▸ hvalue⟩
      · exact ⟨th₂, List.mem_of_getElem? ((hne hji).trans hj), hb, hk, hvalue⟩
    · exact .inr ⟨th', hmem, hbegun, htask ▸ hk, htask ▸ hvalue⟩

/-- The log is made for the call of each thread, with the history that the files tell when the
    thread begins. -/
def Admissible (K : Set String) : Machine → List Nat → Prop
  | _, [] => True
  | m, i :: schedule =>
    (∀ task, m.threads[i]? = some (.waiting task) → m.free task = true →
      task.key ∈ K ∧ ∀ h, Stored m.log.disk m.log.root task.key h →
        task.call.Admissible K fun _ => h) ∧ Admissible K (m.step i) schedule

/-- A thread that is free to begin an append is alone with its key. -/
theorem key_ne_of_free (hf : m.free task = true) (hw : task.isAppend = true)
    (hj : m.threads[j]? = some th) (hth : th.writes = true) : th.task.key ≠ task.key := by
  intro hkey
  cases th with
  | waiting task' => cases hth
  | returned task' a => cases hth
  | running task' rest =>
    have happ : task'.isAppend = true := hth
    have hlocks := List.all_eq_true.1 hf _ (List.mem_of_getElem? hj)
    simp only [Thread.locks, Task.locks, happ, hw, if_true, List.all_cons, Bool.and_eq_true] at hlocks
    have hkey' : task'.key = task.key := hkey
    rw [hkey'] at hlocks
    -- The data file of the key is among the locks of both.
    simp at hlocks

/-- A thread that begins is where it should be. -/
theorem Inv.begins (h : Inv K root H floor m w) (hK : Distinct K)
    (hi : m.threads[i]? = some (.waiting task)) (hf : m.free task = true) (hkey : task.key ∈ K)
    (ha : ∀ h, Stored m.log.disk m.log.root task.key h → task.call.Admissible K fun _ => h) :
    Inv K root H floor ⟨m.log, m.threads.set i (.running task task.plan)⟩ w := by
  have hok : (Thread.running task task.plan).Ok K root (floor i) w := by
    obtain ⟨hfloor⟩ := h.threads i _ hi
    cases hvalue : task.value? with
    | none =>
      have hread : task.isAppend = false := by rw [Task.isAppend, hvalue]; rfl
      refine .inRead hread hkey ((right_read hread hkey h.sound).mono fun a w₁ hb => ?_)
      obtain ⟨g, hp, hc, ha⟩ := hb
      exact ⟨g, hfloor.trans hp, hc, ha⟩
    | some value =>
      have hstored := h.sound.onDisk.stored _ hkey
      rw [← h.sound.root_eq, h.log] at hstored
      exact .inAppend hvalue hkey (right_append hvalue hK (ha _ hstored) h.sound rfl)
  have hset := h.set hi hok rfl rfl h.sound (.refl w)
    (fun j th₂ _ hth₂ hw => ⟨.refl _ _ _, fun happ => key_ne_of_free hf happ hth₂ hw⟩)
    fun k v hv => .inl hv
  rwa [h.log] at hset

/-- So is a read that makes an access. -/
theorem Inv.reads {β : Type} {x : Access Log β} {rest : β → Plan Log Answer}
    (h : Inv K root H floor m w) (hi : m.threads[i]? = some (.running task (.next x rest)))
    (hread : task.isAppend = false) (hkey : task.key ∈ K)
    (hright : (reading K root).Right (Answers task (floor i)) (.next x rest) w) :
    ∃ w', Inv K root H floor
        ⟨(x.run m.log).2, m.threads.set i (.running task (rest (x.run m.log).1))⟩ w' ∧
      Grows w w' := by
  obtain ⟨w₂, hst, hs₂, hg, h₂⟩ := hright w h.sound (.refl w)
  have hok : (Thread.running task (rest (x.run w.log).1)).Ok K root (floor i) w₂ :=
    .inRead hread hkey h₂
  have hset := h.set hi hok rfl rfl hs₂ hg.grows
    (fun j th₂ _ _ _ => ⟨hg.around _ _, fun happ => absurd (hread.symm.trans happ) (by simp)⟩)
    fun k v hv => .inl (hg.committed ▸ hv)
  have hlog : w₂.log = (x.run w.log).2 := hst
  rw [hlog, h.log] at hset
  exact ⟨w₂, hset, hg.grows⟩

/-- The key of a thread within an append is one of `K`. -/
theorem Inv.key_mem (h : Inv K root H floor m w) (hi : m.threads[i]? = some th)
    (hw : th.writes = true) : th.task.key ∈ K := by
  cases h.threads i th hi with
  | inRead hread => exact absurd (hread.symm.trans hw) (by simp)
  | inAppend hvalue hkey => exact hkey
  | waiting | answered | told => cases hw

/-- So is an append that makes an access. -/
theorem Inv.appends {β : Type} {x : Access Log β} {rest : β → Plan Log Answer} {value : Bytes}
    {g : History} (h : Inv K root H floor m w) (hK : Distinct K)
    (hi : m.threads[i]? = some (.running task (.next x rest)))
    (hvalue : task.value? = some value) (hkey : task.key ∈ K)
    (hright : (writing K root task.key value).Right (Follows task g) (.next x rest) w) :
    ∃ w', Inv K root H floor
        ⟨(x.run m.log).2, m.threads.set i (.running task (rest (x.run m.log).1))⟩ w' ∧
      Grows w w' := by
  obtain ⟨w₂, hst, hs₂, hg, h₂⟩ := hright w h.sound (.refl _ _ w)
  have hg : Writes root task.key value w w₂ := hg
  have hok : (Thread.running task (rest (x.run w.log).1)).Ok K root (floor i) w₂ :=
    .inAppend hvalue hkey h₂
  have happ : task.isAppend = true := by rw [Task.isAppend, hvalue]; rfl
  have hset := h.set hi hok rfl rfl hs₂ hg.grows (fun j th₂ hj hth₂ hw => ?_) fun k v hv => ?_
  · have hlog : w₂.log = (x.run w.log).2 := hst
    rw [hlog, h.log] at hset
    exact ⟨w₂, hset, hg.grows⟩
  · -- The others that are within appends hold the locks of other keys.
    have hne : th₂.task.key ≠ task.key := fun hkey₂ =>
      hj (h.alone j i th₂ _ hth₂ hi hw happ hkey₂)
    exact ⟨hg.around hK (h.key_mem hth₂ hw) hkey hne, fun _ => hne⟩
  · by_cases hk : k = task.key
    · subst hk
      rcases hg.committed with heq | ⟨t, heq⟩
      · exact .inl (heq ▸ hv)
      · rw [heq, List.mem_append, List.mem_singleton] at hv
        refine hv.imp id fun hv => ⟨rfl, ?_⟩
        rw [hv]
        exact hvalue
    · exact .inl ((hg.others k hk).1 ▸ hv)

/-- So is one that returns. -/
theorem Inv.returns {a : Answer} (h : Inv K root H floor m w)
    (hi : m.threads[i]? = some (.running task (.done a))) :
    Inv K root H floor ⟨m.log, m.threads.set i (.returned task a)⟩ w := by
  have hok : (Thread.returned task a).Ok K root (floor i) w := by
    cases h.threads i _ hi with
    | inRead hread hkey hright => exact .answered hread hkey hright
    | inAppend hvalue hkey hright =>
      exact .told (by rw [Task.isAppend, hvalue]; rfl) (Follows.told hright)
  have hset := h.set hi hok rfl rfl h.sound (.refl w)
    (fun j th₂ _ _ _ => ⟨.refl _ _ _, fun hw => by cases hw⟩) fun k v hv => .inl hv
  rwa [h.log] at hset

/-- One step of a thread preserves the invariant. -/
theorem Inv.step (h : Inv K root H floor m w) (hK : Distinct K)
    (ha : ∀ task, m.threads[i]? = some (.waiting task) → m.free task = true →
      task.key ∈ K ∧ ∀ h, Stored m.log.disk m.log.root task.key h →
        task.call.Admissible K fun _ => h) :
    ∃ w', Inv K root H floor (m.step i) w' ∧ Grows w w' := by
  rw [Machine.step]
  split
  case h_1 task hi =>
    by_cases hf : m.free task = true
    · rw [if_pos hf]
      obtain ⟨hkey, ha⟩ := ha task hi hf
      exact ⟨w, h.begins hK hi hf hkey ha, .refl w⟩
    · rw [if_neg hf]
      exact ⟨w, h, .refl w⟩
  case h_2 task x rest hi =>
    cases h.threads i _ hi with
    | inRead hread hkey hright => exact h.reads hi hread hkey hright
    | inAppend hvalue hkey hright => exact h.appends hK hi hvalue hkey hright
  case h_3 task a hi => exact ⟨w, h.returns hi, .refl w⟩
  case h_4 => exact ⟨w, h, .refl w⟩

/-- So does a run. -/
theorem Inv.run {schedule : List Nat} (h : Inv K root H floor m w) (hK : Distinct K)
    (ha : m.Admissible K schedule) :
    ∃ w', Inv K root H floor (m.run schedule) w' ∧ Grows w w' := by
  induction schedule generalizing m w with
  | nil => exact ⟨w, h, .refl w⟩
  | cons i schedule ih =>
    obtain ⟨w₁, h₁, hg₁⟩ := h.step hK ha.1
    obtain ⟨w₂, h₂, hg₂⟩ := ih h₁ ha.2
    exact ⟨w₂, h₂, hg₁.trans hg₂⟩

theorem Admissible.of_append {s s' : List Nat} (h : m.Admissible K (s ++ s')) :
    m.Admissible K s ∧ (m.run s).Admissible K s' := by
  induction s generalizing m with
  | nil => exact ⟨trivial, h⟩
  | cons i s ih => exact ⟨⟨h.1, (ih h.2).1⟩, (ih h.2).2⟩

/-- If only reads are still to begin, their keys are all that matters. -/
theorem admissible_of_reads (h : ∀ (j : Nat) (task : Task), m.threads[j]? = some (.waiting task) →
    task.isAppend = false ∧ task.key ∈ K) (schedule : List Nat) : m.Admissible K schedule := by
  induction schedule generalizing m with
  | nil => trivial
  | cons i schedule ih =>
    refine ⟨fun task hi _ => ?_, ih fun j task hj => h j task (waiting_of_step hj)⟩
    obtain ⟨hread, hkey⟩ := h i task hi
    refine ⟨hkey, fun g _ => ?_⟩
    cases task with
    | append | appendNow => cases hread
    | readLatest | readAsOf | readRange => exact hkey

/-- A thread that has not begun is not to miss anything that is published. -/
theorem Inv.raise (h : Inv K root H floor m w) (hi : m.threads[i]? = some (.waiting task)) :
    Inv K root H (Function.update floor i (w.published task.key)) m w := by
  refine { h with threads := fun j th hj => ?_ }
  by_cases hji : j = i
  · subst hji
    rw [hi, Option.some.injEq] at hj
    subst hj
    rw [Function.update_self]
    exact .waiting (List.prefix_refl _)
  · rw [Function.update_of_ne hji]
    exact h.threads j th hj

/-- A machine that starts on a log that keeps histories has the invariant. -/
theorem inv_start (hk : Keeps K log H) (tasks : List Task) :
    Inv K log.root H (fun _ => []) (start log tasks) ⟨log, H, H⟩ where
  log := rfl
  sound := ⟨rfl, hk.onDisk, fun _ => List.prefix_refl _, fun k hkey tip hp =>
    ⟨H k, List.prefix_refl _, List.prefix_refl _, hk.cached k hkey tip hp⟩⟩
  threads i th hi := by
    obtain ⟨task, -, rfl⟩ := List.mem_map.1 (List.mem_of_getElem? hi)
    exact .waiting List.nil_prefix
  alone i j th th' hi _ hw := by
    obtain ⟨task, -, rfl⟩ := List.mem_map.1 (List.mem_of_getElem? hi)
    cases hw
  sources k v hv := .inl hv

end Machine

/-! ## What a read sees -/

/-- What a read has seen that began in the machine `mb` and returned the answer `a` in `me`, when
    the run has come to `mf`. -/
structure Sees (H : String → History) (root : Path) (task : Task) (a : Answer)
    (mb me mf : Machine) (g h final : History) : Prop where
  /-- It answers as the history `g`. -/
  answer : a = (task.onHistory g).1
  /-- The files told the history `h` when it returned, and tell the history `final` now. -/
  onDisk : Stored me.log.disk root task.key h ∧ Stored mf.log.disk root task.key final
  /-- It has not seen what was committed later, and nothing that it has seen is lost. -/
  known : g <+: h ∧ h <+: final
  /-- It has seen what was there before all threads, -/
  old : H task.key <+: g
  /-- and what comes of the appends that had returned when it began: each of them was answered as
      a history is, and `g` begins with the history after it. -/
  returned : ∀ other b, Thread.returned other b ∈ mb.threads → other.isAppend = true →
    other.key = task.key → ∃ f, b = (other.onHistory f).1 ∧ (other.onHistory f).2 <+: g
  /-- All that there is was there before the threads, or comes from one of their appends. -/
  sources : ∀ v ∈ final, v ∈ H task.key ∨
    ∃ th ∈ mf.threads, th.begun = true ∧ th.task.key = task.key ∧ th.task.value? = some v.value

/-- **A read takes no locks, and misses nothing.** Threads append to a log and read from it, one
    access at a time in any order. A read returns, whatever the others do, if only it gets turns.
    It answers as a history of its key does that begins the last one, contains whatever was
    written by appends that had returned when the read began, and nothing that was committed
    after the read returned. -/
theorem read_sees_prefix (hr : Reached K log H) (hK : Distinct K) {tasks : List Task}
    {before : List Nat} (hread : task.isAppend = false)
    (hbegin : ((Machine.start log tasks).run before).threads[i]? = some (.waiting task)) :
    (∀ σ, Machine.Recurs σ i → ∃ n a,
      ((Machine.start log tasks).run (before ++ Machine.turns σ n)).threads[i]? =
        some (.returned task a)) ∧
    ∀ during after a, (Machine.start log tasks).Admissible K (before ++ (during ++ after)) →
      ((Machine.start log tasks).run (before ++ during)).threads[i]? = some (.returned task a) →
      ∃ g h final, Sees H log.root task a ((Machine.start log tasks).run before)
        ((Machine.start log tasks).run (before ++ during))
        ((Machine.start log tasks).run (before ++ (during ++ after))) g h final := by
  refine ⟨fun σ hσ => ?_, fun during after a ha hend => ?_⟩
  · obtain ⟨n, a, hret⟩ := Machine.exists_returned_of_read hread hbegin hσ
    exact ⟨n, a, by rwa [Machine.run_append]⟩
  · -- Before the read begins, its floor is raised to all that is published then.
    obtain ⟨hab, ha⟩ := ha.of_append
    obtain ⟨hae, haf⟩ := ha.of_append
    obtain ⟨wb, hb, hgb⟩ := (Machine.inv_start (hr.keeps hK) tasks).run hK hab
    obtain ⟨we, he, -⟩ := (hb.raise hbegin).run hK hae
    obtain ⟨wf, hf, hgf⟩ := he.run hK haf
    rw [Machine.run_append] at hend
    rw [Machine.run_append, Machine.run_append, Machine.run_append]
    cases he.threads i _ hend with
    | told hwrite => exact absurd (hread.symm.trans hwrite) (by simp)
    | answered _ hkey h =>
      obtain ⟨g, hg, hknown, hans⟩ := h
      rw [Function.update_self] at hg
      refine ⟨g, we.committed task.key, wf.committed task.key, hans, ⟨?_, ?_⟩,
        ⟨hknown, hgf.committed _⟩, (hgb.published _).trans hg, ?_, hf.sources task.key⟩
      · exact he.log ▸ he.sound.onDisk.stored _ hkey
      · exact hf.log ▸ hf.sound.onDisk.stored _ hkey
      · intro other b hmem hwrite hother
        obtain ⟨j, hj⟩ := List.getElem?_of_mem hmem
        cases hb.threads j _ hj with
        | answered hread' => exact absurd (hread'.symm.trans hwrite) (by simp)
        | told _ h =>
          obtain ⟨f, hf, hpub⟩ := h
          exact ⟨f, hf, (hother ▸ hpub).trans hg⟩

/-- An append and a read of one key. -/
def sampleRace : List Task := [.append "a" [1, 2, 3] 7, .readLatest "a"]

/-- The append begins, and then the two take turns until the read has returned. -/
theorem read_sees_prefix_sampleRace :
    Reached {"a"} freshLog (fun _ => []) ∧ Distinct {"a"} ∧
    ((Machine.start freshLog sampleRace).run [0]).threads[1]? = some (.waiting (.readLatest "a")) ∧
    ∃ n a,
      (Machine.start freshLog sampleRace).Admissible {"a"}
        ([0] ++ (Machine.turns (· % 2) n ++ [0])) ∧
      ((Machine.start freshLog sampleRace).run ([0] ++ Machine.turns (· % 2) n)).threads[1]? =
        some (.returned (.readLatest "a") a) ∧
      ∃ g h final, Sees (fun _ => []) freshLog.root (.readLatest "a") a
        ((Machine.start freshLog sampleRace).run [0])
        ((Machine.start freshLog sampleRace).run ([0] ++ Machine.turns (· % 2) n))
        ((Machine.start freshLog sampleRace).run ([0] ++ (Machine.turns (· % 2) n ++ [0])))
        g h final := by
  have hopen : openAt .empty ["logs"] 2 1 .batch .zero = (.ok freshLog, freshLog.disk) := rfl
  have hr : Reached {"a"} freshLog (fun _ => []) := .opened (vacant_empty _) hopen
  have hK : Distinct {"a"} := Set.injOn_singleton _ _
  have hbegin : ((Machine.start freshLog sampleRace).run [0]).threads[1]? =
      some (.waiting (.readLatest "a")) :=
    Machine.step_of_ne _ (by decide)
  obtain ⟨hreturns, hsees⟩ := read_sees_prefix hr hK rfl hbegin
  have hturns : Machine.Recurs (· % 2) 1 := fun n => by
    refine ⟨2 * n + 1, by omega, ?_⟩
    show (2 * n + 1) % 2 = 1
    omega
  obtain ⟨n, a, hend⟩ := hreturns _ hturns
  have ha : (Machine.start freshLog sampleRace).Admissible {"a"}
      ([0] ++ (Machine.turns (· % 2) n ++ [0])) := by
    refine ⟨fun task htask _ => ?_, Machine.admissible_of_reads (fun j task hj => ?_) _⟩
    · obtain rfl : Task.append "a" [1, 2, 3] 7 = task := by
        simpa [Machine.start, sampleRace] using htask
      -- The files of a fresh log tell no other history than the empty one.
      refine ⟨rfl, fun h hs => ⟨rfl, ?_⟩⟩
      obtain rfl : h = [] := hs.unique ((hr.keeps hK).onDisk.stored "a" rfl)
      decide
    · match j, hj with
      | 0, hj => simp [Machine.step, Machine.start, sampleRace, Machine.free, Thread.locks] at hj
      | 1, hj =>
        obtain rfl : Task.readLatest "a" = task := by
          simpa [Machine.start, sampleRace] using Machine.waiting_of_step hj
        exact ⟨rfl, rfl⟩
      | j + 2, hj => simpa [Machine.start, sampleRace] using Machine.waiting_of_step hj
  exact ⟨hr, hK, hbegin, n, a, ha, hend, hsees _ [0] a ha hend⟩

end ReplicaRing.Log
