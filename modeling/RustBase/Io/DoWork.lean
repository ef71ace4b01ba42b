import RustBase.Io.TaskTrace
import RustBase.Support.Until

/-!
# Io — when `do_work` returns

The contract of `MessagePumpDelegate` asks `do_work` to run every task that is ready *now*.  The two
loops of `IoTaskRunner::do_work` look at the queues again after every task they run, so they take up
what became ready meanwhile as well: a task that posts another one, as the wake of a fused runtime's
task does, keeps the first loop going.

The history of a call is the tasks that were ready when it began, those that became ready while the
loop that takes them was still going (`late`), those it ran, and the number of its steps.  When a
call returns, it has run the first two, each once (`ran_perm`); and its steps are bounded by their
number (`steps_le`).

**`do_work_prompt_iff`**: a call returns with the tasks run that were ready when it began exactly
when none became ready meanwhile.
-/

namespace RustIo
open Support RustTask

/-- The first loop of `do_work` is going. -/
def IoPhase.firstLoop : IoPhase → Bool
  | .immediate | .runTask _ => true
  | _ => false

/-- A task that is pushed to the immediate queue, if the call comes to it. -/
def IoPhase.takes (id : ℕ) (y : IoPhase) : List ℕ := if y.firstLoop then [id] else []

/-- A task that is pushed to the heap, if the call comes to it whatever the clock says next. -/
def IoPhase.takesDelayed (t : IoDelayedTask) : IoPhase → List ℕ
  | .delayedPop now => if t.deadline ≤ now then [t.id] else []
  | _ => []

/-- The tasks that are ready: the immediate ones and the delayed ones that are due. -/
def IoTaskRunner.ready (x : IoTaskRunner) (now : Instant) : List ℕ :=
  x.tasks ++ (x.delayedTasks.filter (fun t => t.deadline ≤ now)).map IoDelayedTask.id

/-- A call of `do_work`. -/
structure WorkCall where
  ready : List ℕ
  late : List ℕ
  ran : List ℕ
  steps : ℕ
  deriving DecidableEq

namespace WorkCall

/-- `do_work` is called. -/
def called (s : IoState) : WorkCall := ⟨s.runner.ready s.clock, [], [], 0⟩

/-- The tasks that take part in the call. -/
def tasks (c : WorkCall) : List ℕ := c.ready ++ c.late

/-- The delayed tasks that are due at a reading of the clock and did not take part before. -/
def due (c : WorkCall) (s : IoState) (now : Instant) : List ℕ :=
  ((s.runner.delayedTasks.filter (fun t => t.deadline ≤ now)).map IoDelayedTask.id).filter
    (fun id => id ∉ c.tasks)

def addLate (c : WorkCall) (ids : List ℕ) : WorkCall := { c with late := c.late ++ ids }

/-- A step of `do_work` that runs the tasks given. -/
def step (c : WorkCall) (ids : List ℕ) : WorkCall :=
  { c with ran := c.ran ++ ids, steps := c.steps + 1 }

def record (x : IoState × IoTrace) : IoState.Action → WorkCall → WorkCall
  | .io .endBatch, _ | .io (.epollInterrupted _ _), _ => called x.1
  | .io .popTask, c => c.step x.1.runner.tasks.head?.toList
  | .io (.popDelayed _ t), c => c.step [t.id]
  | .io (.taskReturns _), c | .io (.noDelayed _), c | .io (.delayedReturns _), c | .io .peek, c =>
      c.step []
  | .io .readNow, c => (c.addLate (c.due x.1 x.1.clock)).step []
  | .poster _ (.push id), c => c.addLate (x.1.phase.takes id)
  | .poster _ (.pushDelayed t), c => c.addLate (x.1.phase.takesDelayed t)
  | _, c => c

end WorkCall

abbrev CallState := (IoState × IoTrace) × WorkCall

/-- The IO thread with the history of its queues and of the call of `do_work`. -/
def callMachine : Machine CallState IoState.Action :=
  traceMachine.withHistory ⟨[], [], [], 0⟩ WorkCall.record

instance : ∀ x a, Decidable (callMachine.Enabled x a) :=
  fun x a => inferInstanceAs (Decidable (x.1.1.Enabled a))

/-! ### The tasks of a call -/

/-- A delayed task that is due at the time given. -/
def IoTaskRunner.DueAt (x : IoTaskRunner) (now : Instant) (id : ℕ) : Prop :=
  ∃ t ∈ x.delayedTasks, t.id = id ∧ t.deadline ≤ now

theorem IoTaskRunner.DueAt.mono {x x' : IoTaskRunner} {now now' : Instant} {id : ℕ}
    (h : x.DueAt now id) (hd : ∀ t ∈ x.delayedTasks, t ∈ x'.delayedTasks) (hn : now ≤ now') :
    x'.DueAt now' id := by
  obtain ⟨t, ht, hid, hle⟩ := h
  exact ⟨t, hd t ht, hid, Nat.le_trans hle hn⟩

/-- The call is going to run the task. -/
def IoPhase.Pending (x : IoTaskRunner) (clock : Instant) (id : ℕ) : IoPhase → Prop
  | .immediate | .runTask _ => id ∈ x.tasks ∨ x.DueAt clock id
  | .delayedNow | .runDelayed _ => x.DueAt clock id
  | .delayedPop now => x.DueAt now id
  | _ => False

theorem IoPhase.Pending.mono {y : IoPhase} {x x' : IoTaskRunner} {clock clock' : Instant} {id : ℕ}
    (h : y.Pending x clock id) (ht : ∀ i ∈ x.tasks, i ∈ x'.tasks)
    (hd : ∀ t ∈ x.delayedTasks, t ∈ x'.delayedTasks) (hc : clock ≤ clock') :
    y.Pending x' clock' id := by
  cases y with
  | immediate | runTask => exact h.imp (ht id) fun h => h.mono hd hc
  | delayedNow | runDelayed => exact IoTaskRunner.DueAt.mono h hd hc
  | delayedPop now => exact IoTaskRunner.DueAt.mono h hd (Nat.le_refl now)
  | _ => exact h

/-- What the call takes next is one of its tasks. -/
def IoPhase.Listed (x : IoTaskRunner) (l : List ℕ) : IoPhase → Prop
  | .immediate | .runTask _ => ∀ id ∈ x.tasks, id ∈ l
  | .delayedPop now => ∀ id, x.DueAt now id → id ∈ l
  | _ => True

def IoState.Pending (s : IoState) (id : ℕ) : Prop := s.phase.Pending s.runner s.clock id

def IoState.Listed (s : IoState) (l : List ℕ) : Prop := s.phase.Listed s.runner l

/-- The steps that `do_work` may have taken in a phase, beyond three for every task it ran. -/
def IoPhase.cost : IoPhase → ℕ
  | .runTask _ => 0
  | .immediate | .runDelayed _ => 1
  | .delayedNow => 2
  | .delayedPop _ => 3
  | .peek => 4
  | _ => 5

/-- Outside `do_work` a call has nothing left to do. -/
theorem IoPhase.outside {y : IoPhase} (hy : y.inDoWork = false) :
    y.cost = 5 ∧ (∀ x clock id, ¬ y.Pending x clock id) ∧ ∀ x l, y.Listed x l := by
  cases y with
  | immediate | runTask | delayedNow | delayedPop | runDelayed | peek => cases hy
  | _ => exact ⟨rfl, fun _ _ _ hp => hp, fun _ _ => trivial⟩

namespace WorkCall

variable {s s' : IoState} {h h' : IoTrace} {c : WorkCall} {a : IoState.Action}

theorem record_silent {x : IoState × IoTrace} (hs : a.silent = true) (c : WorkCall) :
    record x a c = c := by
  cases a with
  | io a => cases a <;> first | rfl | cases hs
  | poster p a => cases a <;> first | rfl | cases hs
  | _ => rfl

@[simp] theorem tasks_addLate (c : WorkCall) (ids : List ℕ) :
    (c.addLate ids).tasks = c.tasks ++ ids := by
  simp [tasks, addLate]

@[simp] theorem addLate_nil (c : WorkCall) : c.addLate [] = c := by
  simp [addLate]

theorem mem_due {now : Instant} {id : ℕ} :
    id ∈ c.due s now ↔ s.runner.DueAt now id ∧ id ∉ c.tasks := by
  rw [due, List.mem_filter, List.mem_map, decide_eq_true_iff]
  refine and_congr_left' ⟨?_, ?_⟩
  · rintro ⟨t, hm, hid⟩
    obtain ⟨hm, hd⟩ := List.mem_filter.mp hm
    exact ⟨t, hm, hid, of_decide_eq_true hd⟩
  · rintro ⟨t, hm, hid, hd⟩
    exact ⟨t, List.mem_filter.mpr ⟨hm, decide_eq_true hd⟩, hid⟩

structure Inv (s : IoState) (h : IoTrace) (c : WorkCall) : Prop where
  sub : ∀ id ∈ c.tasks, id ∈ h.ids
  nodup : c.tasks.Nodup
  ran_nodup : c.ran.Nodup
  ran_tasks : ∀ id ∈ c.ran, id ∈ c.tasks
  ran_sub : ∀ id ∈ c.ran, id ∈ h.ranIds
  covered : ∀ id ∈ c.tasks, id ∈ c.ran ∨ s.Pending id
  listed : s.Listed c.tasks
  steps : c.steps + 1 ≤ 3 * c.ran.length + s.phase.cost

namespace Inv

/-- A step that is not one of `do_work` and adds nothing to the call. -/
theorem keep (hi : c.Inv s h) (hp : ∀ id, s.Pending id → s'.Pending id) (hl : s'.Listed c.tasks)
    (hs : s.phase.cost ≤ s'.phase.cost) : c.Inv s' (IoTrace.record s a h) where
  sub id hid := IoTrace.ids_record s a (hi.sub id hid)
  nodup := hi.nodup
  ran_nodup := hi.ran_nodup
  ran_tasks := hi.ran_tasks
  ran_sub id hid := IoTrace.ranIds_record s a (hi.ran_sub id hid)
  covered id hid := (hi.covered id hid).imp_right (hp id)
  listed := hl
  steps := Nat.le_trans hi.steps (Nat.add_le_add_left hs _)

/-- A step of `do_work` that runs nothing. -/
theorem advance (hi : c.Inv s h) (hp : ∀ id, s.Pending id → s'.Pending id) (hl : s'.Listed c.tasks)
    (hs : s.phase.cost + 1 ≤ s'.phase.cost) : (c.step []).Inv s' (IoTrace.record s a h) := by
  have ran : (c.step []).ran = c.ran := List.append_nil _
  have kept : c.Inv s' (IoTrace.record s a h) := hi.keep hp hl (Nat.le_of_succ_le hs)
  refine ⟨kept.sub, kept.nodup, ran ▸ kept.ran_nodup, ran ▸ kept.ran_tasks, ran ▸ kept.ran_sub,
    ran ▸ kept.covered, kept.listed, ?_⟩
  rw [ran]
  change c.steps + 1 + 1 ≤ _
  have := hi.steps
  omega

/-- A step of `do_work` that takes a task to run it. -/
theorem take (hi : c.Inv s h) {id : ℕ} (hid : id ∈ c.tasks) (hn : id ∉ h.ranIds)
    (hr : id ∈ (IoTrace.record s a h).ranIds)
    (hp : ∀ i, s.Pending i → i = id ∨ s'.Pending i) (hl : s'.Listed c.tasks)
    (hs : s.phase.cost + 1 ≤ 3 + s'.phase.cost) : (c.step [id]).Inv s' (IoTrace.record s a h) where
  sub i hi' := IoTrace.ids_record s a (hi.sub i hi')
  nodup := hi.nodup
  ran_nodup := by
    refine List.nodup_append.mpr ⟨hi.ran_nodup, List.nodup_singleton id, fun i hm j hj => ?_⟩
    obtain rfl := List.mem_singleton.mp hj
    rintro rfl
    exact hn (hi.ran_sub _ hm)
  ran_tasks i hm := by
    rcases List.mem_append.mp hm with hm | hm
    · exact hi.ran_tasks i hm
    · exact List.mem_singleton.mp hm ▸ hid
  ran_sub i hm := by
    rcases List.mem_append.mp hm with hm | hm
    · exact IoTrace.ranIds_record s a (hi.ran_sub i hm)
    · exact List.mem_singleton.mp hm ▸ hr
  covered i hm := by
    rcases hi.covered i hm with hm | hm
    · exact .inl (List.mem_append_left _ hm)
    · rcases hp i hm with rfl | hm
      · exact .inl (List.mem_append_right _ List.mem_cons_self)
      · exact .inr hm
  listed := hl
  steps := by
    change c.steps + 1 + 1 ≤ 3 * (c.ran ++ [id]).length + _
    rw [List.length_append, List.length_singleton]
    have := hi.steps
    omega

/-- Tasks become ready while the loop that takes them is going. -/
theorem late (hi : c.Inv s h) {ids : List ℕ} (hids : ids.Nodup) (hnew : ∀ id ∈ ids, id ∉ c.tasks)
    (hsub : ∀ id ∈ ids, id ∈ (IoTrace.record s a h).ids) (hpend : ∀ id ∈ ids, s'.Pending id)
    (hp : ∀ id, s.Pending id → s'.Pending id) (hl : s'.Listed (c.tasks ++ ids))
    (hs : s.phase.cost ≤ s'.phase.cost) : (c.addLate ids).Inv s' (IoTrace.record s a h) where
  sub id hid := by
    rw [tasks_addLate] at hid
    rcases List.mem_append.mp hid with hid | hid
    · exact IoTrace.ids_record s a (hi.sub id hid)
    · exact hsub id hid
  nodup := by
    rw [tasks_addLate]
    refine List.nodup_append.mpr ⟨hi.nodup, hids, fun i hm j hj => ?_⟩
    rintro rfl
    exact hnew i hj hm
  ran_nodup := hi.ran_nodup
  ran_tasks id hm := by
    rw [tasks_addLate]
    exact List.mem_append_left _ (hi.ran_tasks id hm)
  ran_sub id hm := IoTrace.ranIds_record s a (hi.ran_sub id hm)
  covered id hid := by
    rw [tasks_addLate] at hid
    rcases List.mem_append.mp hid with hid | hid
    · exact (hi.covered id hid).imp_right (hp id)
    · exact .inr (hpend id hid)
  listed := by
    rw [tasks_addLate]
    exact hl
  steps := Nat.le_trans hi.steps (Nat.add_le_add_left hs _)

/-! ### The steps -/

/-- Steps that leave the queues and the phase of the call alone. -/
theorem silent (hi : c.Inv s h) (hf : s.Frame s') : c.Inv s' (IoTrace.record s a h) := by
  rcases hf.phase with he | ⟨h₁, h₂⟩
  · refine hi.keep (fun id hp => ?_) ?_ (by rw [he])
    · rw [IoState.Pending, he]
      exact hp.mono (fun i hm => hf.tasks ▸ hm) (fun t hm => hf.delayedTasks ▸ hm) hf.clock
    · have listed := hi.listed
      rw [IoState.Listed] at listed ⊢
      rw [he]
      revert listed
      cases s.phase <;>
        simp only [IoPhase.Listed, IoTaskRunner.DueAt, hf.tasks, hf.delayedTasks, imp_self]
  · -- the call is over, and the next one has not begun
    obtain ⟨cost, not_pending, -⟩ := IoPhase.outside h₁
    obtain ⟨cost', -, listed⟩ := IoPhase.outside h₂
    exact hi.keep (fun id hp => absurd hp (not_pending _ _ id)) (listed _ _) (by rw [cost, cost'])

/-- A call begins. -/
theorem called (hi : h.Inv s) (hph : s'.phase = .immediate) (hr : s'.runner = s.runner)
    (hc : s'.clock = s.clock) : (called s).Inv s' h := by
  have tasks : (WorkCall.called s).tasks = s.runner.ready s.clock := List.append_nil _
  have sublist : (s.runner.ready s.clock).Sublist s.runner.ids :=
    (List.filter_sublist.map _).append_left _
  refine ⟨fun id hid => ?_, ?_, .nil, nofun, nofun, fun id hid => .inr ?_, ?_, ?_⟩
  · rw [tasks] at hid
    exact hi.perm_ids.subset (List.mem_append_right _ (sublist.subset hid))
  · rw [tasks]
    exact sublist.nodup (List.nodup_append.mp hi.nodup_ids).2.1
  · rw [tasks] at hid
    rw [IoState.Pending, hph, hr, hc]
    refine (List.mem_append.mp hid).imp_right fun hid => ?_
    obtain ⟨t, ht, rfl⟩ := List.mem_map.mp hid
    obtain ⟨hm, hd⟩ := List.mem_filter.mp ht
    exact ⟨t, hm, rfl, of_decide_eq_true hd⟩
  · rw [tasks, IoState.Listed, hph, hr]
    exact fun id hid => List.mem_append_left _ hid
  · rw [hph]
    exact Nat.le_refl 1

theorem popTask (hi : c.Inv s h) (ht : h.Inv s) (ha : s.phase = .immediate) :
    (record (s, h) (.io .popTask) c).Inv (s.ioNext .popTask)
      (IoTrace.record s (.io .popTask) h) := by
  have listed : s.phase.Listed s.runner c.tasks := hi.listed
  have pending : ∀ {i : ℕ}, s.Pending i → i ∈ s.runner.tasks ∨ s.runner.DueAt s.clock i := by
    intro i hp
    rw [IoState.Pending, ha] at hp
    exact hp
  rw [ha] at listed
  simp only [record]
  cases hq : s.runner.tasks with
  | nil =>
      have hn : s.ioNext .popTask = s.setPhase .delayedNow := by simp only [IoState.ioNext, hq]
      rw [hn]
      refine hi.advance (fun i hp => ?_) trivial (by rw [ha]; exact Nat.le_refl 2)
      rcases pending hp with hp | hp
      · rw [hq] at hp
        cases hp
      · exact hp
  | cons id ids =>
      have mem : id ∈ s.runner.tasks := hq ▸ List.mem_cons_self
      refine hi.take (listed id mem) (ht.not_mem_ranIds (List.mem_append_left _ mem)) ?_
        (fun i hp => ?_) ?_ ?_
      · refine List.mem_append_left _ (List.mem_append_right _ ?_)
        rw [hq]
        exact List.mem_cons_self
      · simp only [IoState.ioNext, hq]
        rcases pending hp with hp | hp
        · rw [hq] at hp
          exact (List.mem_cons.mp hp).imp_right .inl
        · exact .inr (.inr hp)
      · simp only [IoState.ioNext, hq]
        exact fun i hm => listed i (hq ▸ List.mem_cons_of_mem _ hm)
      · simp only [IoState.ioNext, hq]
        rw [ha]
        exact Nat.le_succ 2

/-- A reading of the clock adds the tasks that have become due. -/
theorem readNow (hi : c.Inv s h) (ht : h.Inv s) (ha : s.phase = .delayedNow) :
    (record (s, h) (.io .readNow) c).Inv (s.ioNext .readNow)
      (IoTrace.record s (.io .readNow) h) := by
  have pending : ∀ {i : ℕ}, s.Pending i ↔ s.runner.DueAt s.clock i := by
    intro i
    rw [IoState.Pending, ha]
    exact Iff.rfl
  have queued : (s.runner.delayedTasks.map IoDelayedTask.id).Nodup :=
    (List.nodup_append.mp (List.nodup_append.mp ht.nodup_ids).2.1).2.1
  have added : (c.addLate (c.due s s.clock)).Inv s h := by
    refine hi.late (a := .io .readNow) ?_ (fun id hid => (mem_due.mp hid).2) (fun id hid => ?_)
      (fun id hid => pending.mpr (mem_due.mp hid).1) (fun _ hp => hp) ?_ (Nat.le_refl _)
    · exact ((List.filter_sublist.map _).nodup queued).filter _
    · obtain ⟨⟨t, hm, rfl, -⟩, -⟩ := mem_due.mp hid
      exact ht.perm_ids.subset (List.mem_append_right _
        (List.mem_append_right _ (List.mem_map_of_mem hm)))
    · rw [IoState.Listed, ha]
      trivial
  refine added.advance (fun id hp => pending.mp hp) ?_ (by rw [ha]; exact Nat.le_refl 3)
  rw [tasks_addLate]
  intro id hd
  by_cases hm : id ∈ c.tasks
  · exact List.mem_append_left _ hm
  · exact List.mem_append_right _ (mem_due.mpr ⟨hd, hm⟩)

theorem popDelayed (hi : c.Inv s h) (ht : h.Inv s) {now : Instant} {t : IoDelayedTask}
    (ha : s.IoEnabled (.popDelayed now t)) :
    (record (s, h) (.io (.popDelayed now t)) c).Inv (s.ioNext (.popDelayed now t))
      (IoTrace.record s (.io (.popDelayed now t)) h) := by
  obtain ⟨hph, htop, hdue⟩ := ha
  have listed : s.phase.Listed s.runner c.tasks := hi.listed
  rw [hph] at listed
  refine hi.take (listed t.id ⟨t, htop.1, rfl, hdue⟩) ?_ ?_ (fun i hp => ?_) trivial
    (by rw [hph]; exact Nat.le_refl 4)
  · exact ht.not_mem_ranIds (List.mem_append_right _ (List.mem_map_of_mem htop.1))
  · refine List.mem_append_right _ (List.mem_map.mpr ⟨t, ?_, rfl⟩)
    exact List.mem_map.mpr ⟨_, List.mem_append_right _ List.mem_cons_self, rfl⟩
  · rw [IoState.Pending, hph] at hp
    obtain ⟨u, hu, rfl, hd⟩ := hp
    by_cases he : u = t
    · exact .inl (he ▸ rfl)
    · refine .inr ⟨u, (List.mem_erase_of_ne he).mpr hu, rfl, ?_⟩
      exact Nat.le_trans hd (ht.reading now hph)

theorem noDelayed (hi : c.Inv s h) {now : Instant} (ha : s.IoEnabled (.noDelayed now)) :
    (record (s, h) (.io (.noDelayed now)) c).Inv (s.ioNext (.noDelayed now))
      (IoTrace.record s (.io (.noDelayed now)) h) := by
  obtain ⟨hph, hnone⟩ := ha
  refine hi.advance (fun i hp => ?_) trivial (by rw [hph]; exact Nat.le_refl 4)
  rw [IoState.Pending, hph] at hp
  obtain ⟨t, ht, -, hd⟩ := hp
  exact absurd hd (Nat.not_le_of_lt (hnone t ht))

/-- A task pushed while the first loop is going takes part in the call. -/
theorem push (hi : c.Inv s h) (ht : h.Inv s) {p : ThreadId} {id : ℕ} (ha : s.posters p = .push id) :
    (record (s, h) (.poster p (.push id)) c).Inv (s.posterNext p (.push id))
      (IoTrace.record s (.poster p (.push id)) h) := by
  have mono : ∀ i, s.Pending i → (s.posterNext p (.push id)).Pending i := fun i hp =>
    hp.mono (fun _ hm => List.mem_append_left _ hm) (fun _ hm => hm) (Nat.le_refl _)
  have listed : s.phase.Listed s.runner c.tasks := hi.listed
  cases hl : s.phase.firstLoop with
  | false =>
      simp only [record, IoPhase.takes, hl, if_neg Bool.false_ne_true, addLate_nil]
      refine hi.keep mono ?_ (Nat.le_refl _)
      change s.phase.Listed _ c.tasks
      revert listed hl
      cases s.phase with
      | immediate | runTask => exact fun _ hl => by cases hl
      | _ => exact fun hl _ => hl
  | true =>
      simp only [record, IoPhase.takes, hl, if_pos]
      have old : id ∉ c.tasks := fun hm =>
        ht.posts.carried_new p id (by rw [ha]; rfl) (hi.sub id hm)
      refine hi.late (List.nodup_singleton id) (fun i hm => List.mem_singleton.mp hm ▸ old)
        (fun i hm => ?_) (fun i hm => ?_) mono ?_ (Nat.le_refl _)
      · exact List.mem_append_left _ (List.mem_append_right _ hm)
      · change s.phase.Pending _ s.clock i
        have mem : i ∈ s.runner.tasks ++ [id] := List.mem_append_right _ hm
        revert hl
        cases s.phase with
        | immediate | runTask => exact fun _ => .inl mem
        | _ => exact fun hl => by cases hl
      · change s.phase.Listed _ (c.tasks ++ [id])
        revert listed hl
        cases s.phase with
        | immediate | runTask =>
            intro listed _ i hm
            rcases List.mem_append.mp hm with hm | hm
            · exact List.mem_append_left _ (listed i hm)
            · exact List.mem_append_right _ hm
        | _ => exact fun _ hl => by cases hl

/-- A task pushed after a reading of the clock at which it is due takes part in the call. -/
theorem pushDelayed (hi : c.Inv s h) (ht : h.Inv s) {p : ThreadId} {t : IoDelayedTask}
    (ha : s.posters p = .pushDelayed t) :
    (record (s, h) (.poster p (.pushDelayed t)) c).Inv (s.posterNext p (.pushDelayed t))
      (IoTrace.record s (.poster p (.pushDelayed t)) h) := by
  have mono : ∀ i, s.Pending i → (s.posterNext p (.pushDelayed t)).Pending i := fun i hp =>
    hp.mono (fun _ hm => hm) (fun _ hm => List.mem_cons_of_mem _ hm) (Nat.le_refl _)
  have listed : s.phase.Listed s.runner c.tasks := hi.listed
  cases hph : s.phase with
  | delayedPop now =>
      rw [hph] at listed
      by_cases hd : t.deadline ≤ now
      · simp only [record, IoPhase.takesDelayed, hph, if_pos hd]
        have old : t.id ∉ c.tasks := fun hm =>
          ht.posts.carried_new p t.id (by rw [ha]; rfl) (hi.sub t.id hm)
        refine hi.late (List.nodup_singleton _) (fun i hm => List.mem_singleton.mp hm ▸ old)
          (fun i hm => ?_) (fun i hm => ?_) mono ?_ (Nat.le_refl _)
        · obtain rfl := List.mem_singleton.mp hm
          exact List.mem_append_right _ (List.mem_map_of_mem
            (List.mem_append_right _ List.mem_cons_self))
        · obtain rfl := List.mem_singleton.mp hm
          change s.phase.Pending _ s.clock t.id
          rw [hph]
          exact ⟨t, List.mem_cons_self, rfl, hd⟩
        · change s.phase.Listed _ _
          rw [hph]
          rintro i ⟨u, hu, rfl, hud⟩
          rcases List.mem_cons.mp hu with rfl | hu
          · exact List.mem_append_right _ List.mem_cons_self
          · exact List.mem_append_left _ (listed u.id ⟨u, hu, rfl, hud⟩)
      · simp only [record, IoPhase.takesDelayed, hph, if_neg hd, addLate_nil]
        refine hi.keep mono ?_ (Nat.le_refl _)
        change s.phase.Listed _ _
        rw [hph]
        rintro i ⟨u, hu, rfl, hud⟩
        rcases List.mem_cons.mp hu with rfl | hu
        · exact absurd hud hd
        · exact listed u.id ⟨u, hu, rfl, hud⟩
  | _ =>
      simp only [record, IoPhase.takesDelayed, hph, addLate_nil]
      refine hi.keep mono ?_ (Nat.le_refl _)
      change s.phase.Listed _ _
      rw [hph] at listed ⊢
      exact listed

theorem next (hi : c.Inv s h) (ht : h.Inv s) (ha : s.Enabled a) :
    (record (s, h) a c).Inv (s.next a) (IoTrace.record s a h) := by
  by_cases hs : a.silent = true
  · rw [record_silent hs]
    exact hi.silent (IoState.frame_silent ha hs)
  -- a task returns
  have back : ∀ {x y : IoPhase}, s.phase = x →
      (∀ r clock id, x.Pending r clock id → y.Pending r clock id) →
      (∀ r l, x.Listed r l → y.Listed r l) → x.cost + 1 ≤ y.cost →
      (c.step []).Inv (s.setPhase y) (IoTrace.record s a h) := by
    intro x y hx hp hl hc
    refine hi.advance (fun id h => hp _ _ id ?_) (hl _ _ ?_) (by rw [hx]; exact hc)
    · rw [← hx]
      exact h
    · rw [← hx]
      exact hi.listed
  cases a with
  | io a =>
      cases a with
      | popTask => exact hi.popTask ht ha
      | taskReturns id =>
          exact back ha.1 (fun _ _ _ h => h) (fun _ _ h => h) (Nat.le_refl 1)
      | readNow => exact hi.readNow ht ha
      | popDelayed now t => exact hi.popDelayed ht ha
      | noDelayed now => exact hi.noDelayed ha
      | delayedReturns id =>
          exact back ha.1 (fun _ _ _ h => h) (fun _ _ h => h) (Nat.le_refl 2)
      | peek => exact back ha (fun _ _ _ h => h) (fun _ _ h => h) (Nat.le_refl 5)
      | endBatch => exact called ht rfl rfl rfl
      | epollInterrupted => exact called ht rfl rfl rfl
      | _ => exact absurd rfl hs
  | poster p a =>
      cases a with
      | post delay =>
          simp only [record, IoState.next, IoState.posterNext]
          split
          · exact hi
          · exact ⟨hi.sub, hi.nodup, hi.ran_nodup, hi.ran_tasks, hi.ran_sub, hi.covered, hi.listed,
              hi.steps⟩
      | push id => exact hi.push ht ha
      | pushDelayed t => exact hi.pushDelayed ht ha
      | _ => exact absurd rfl hs
  | _ => exact absurd rfl hs

end Inv

end WorkCall

theorem reachable_call {x : CallState} (hx : callMachine.Reachable x) :
    x.2.Inv x.1.1 x.1.2 := by
  refine hx.invariant (I := fun x => x.2.Inv x.1.1 x.1.2) ?_ fun x a hr hi _ ha =>
    hi.next (reachable_trace hr.of_withHistory) ha
  rintro ⟨⟨s, h⟩, c⟩ ⟨⟨⟨wakeFd, isOpen, -, rfl⟩, rfl⟩, rfl⟩
  exact .called (.init wakeFd isOpen) rfl rfl rfl

namespace WorkCall

variable {s : IoState} {h : IoTrace} {c : WorkCall}

/-- A call that is over has run its tasks, each once. -/
theorem Inv.ran_perm (hi : c.Inv s h) (hs : s.phase.inDoWork = false) : c.ran.Perm c.tasks := by
  refine (List.perm_ext_iff_of_nodup hi.ran_nodup hi.nodup).mpr fun id =>
    ⟨hi.ran_tasks id, fun hid => ?_⟩
  rcases hi.covered id hid with hr | hp
  · exact hr
  · exact absurd hp ((IoPhase.outside hs).2.1 _ _ id)

/-- The steps of a call are bounded by the number of its tasks. -/
theorem Inv.steps_le (hi : c.Inv s h) : c.steps ≤ 3 * c.tasks.length + 4 := by
  have cost : s.phase.cost ≤ 5 := by cases s.phase <;> simp [IoPhase.cost]
  have ran : c.ran.length ≤ c.tasks.length :=
    (List.subperm_of_subset hi.ran_nodup hi.ran_tasks).length_le
  have := hi.steps
  omega

end WorkCall

/-! ### A call from its beginning on -/

/-- A step of `do_work` itself. -/
def IoState.Action.ofDoWork : IoState.Action → Bool
  | .io .popTask | .io (.taskReturns _) | .io .readNow | .io (.popDelayed _ _) | .io (.noDelayed _)
  | .io (.delayedReturns _) | .io .peek => true
  | _ => false

namespace CallState

variable {x : CallState} {a : IoState.Action}

def inDoWork (x : CallState) : Bool := x.1.1.phase.inDoWork

/-- The step makes a task ready for a loop of the call that is still going: one is pushed that the
first loop comes to, or that is due at the reading of the clock that the second loop goes by; or the
clock is read when a task is due that was not ready when `do_work` was called. -/
def Disturbs (x : CallState) : IoState.Action → Prop
  | .poster _ (.push _) => x.1.1.phase.firstLoop = true
  | .poster _ (.pushDelayed t) => ∃ now, x.1.1.phase = .delayedPop now ∧ t.deadline ≤ now
  | .io .readNow => ∃ t ∈ x.1.1.runner.delayedTasks, t.deadline ≤ x.1.1.clock ∧ t.id ∉ x.2.ready
  | _ => False

/-- What a step does to the call that is under way. -/
structure Goes (x : CallState) (a : IoState.Action) : Prop where
  ready : (callMachine.next x a).2.ready = x.2.ready
  late : x.2.late <+: (callMachine.next x a).2.late
  steps : (callMachine.next x a).2.steps = x.2.steps + if a.ofDoWork then 1 else 0
  phase : (callMachine.next x a).inDoWork = true ∨
    ∃ d, (callMachine.next x a).1.1.phase = .quitCheck d

theorem goes (hx : x.inDoWork = true) (ha : callMachine.Enabled x a) : x.Goes a := by
  obtain ⟨⟨s, h⟩, c⟩ := x
  have hs : s.phase.inDoWork = true := hx
  have ha : s.Enabled a := ha
  by_cases hsil : a.silent = true
  · -- the history of the call does not see the step
    have he : (callMachine.next ((s, h), c) a).2 = c := WorkCall.record_silent hsil c
    have hd : a.ofDoWork = false := by
      cases a with
      | io a => cases a <;> first | rfl | cases hsil
      | _ => rfl
    have late : c.late ++ [] = (callMachine.next ((s, h), c) a).2.late := by
      rw [he, List.append_nil]
    refine ⟨by rw [he], ⟨[], late⟩, by rw [he, hd]; rfl, .inl ?_⟩
    change (s.next a).phase.inDoWork = true
    rcases (IoState.frame_silent ha hsil).phase with hp | ⟨hp, -⟩
    · rw [hp]
      exact hs
    · rw [hp] at hs
      cases hs
  have step : ∀ {ids : List ℕ}, (callMachine.next ((s, h), c) a).2 = c.step ids →
      a.ofDoWork = true → ((s.next a).phase.inDoWork = true ∨
        ∃ d, (s.next a).phase = .quitCheck d) → Goes ((s, h), c) a := by
    intro ids he ho hp
    have late : c.late ++ [] = (callMachine.next ((s, h), c) a).2.late := by
      rw [he, List.append_nil]
      rfl
    refine ⟨by rw [he]; rfl, ⟨[], late⟩, ?_, hp⟩
    rw [he, ho]
    rfl
  cases a with
  | io a =>
      cases a with
      | popTask =>
          refine step rfl rfl (.inl ?_)
          simp only [IoState.next, IoState.ioNext]
          split <;> rfl
      | readNow =>
          exact ⟨rfl, List.prefix_append _ _, rfl, .inl rfl⟩
      | peek => exact step rfl rfl (.inr ⟨_, rfl⟩)
      | taskReturns | popDelayed | noDelayed | delayedReturns => exact step rfl rfl (.inl rfl)
      | endBatch | epollInterrupted =>
          have hb : s.phase = _ := ha
          rw [hb] at hs
          cases hs
      | _ => exact absurd rfl hsil
  | poster p a =>
      cases a with
      | post delay =>
          refine ⟨rfl, List.prefix_rfl, rfl, .inl ?_⟩
          change (s.posterNext p (.post delay)).phase.inDoWork = true
          simp only [IoState.posterNext]
          split <;> exact hs
      | push | pushDelayed => exact ⟨rfl, List.prefix_append _ _, rfl, .inl hs⟩
      | _ => exact absurd rfl hsil
  | _ => exact absurd rfl hsil

/-- A task joins a call of which none has joined before exactly at a step that disturbs it. -/
theorem late_next (hx : x.inDoWork = true) (ha : callMachine.Enabled x a) (hl : x.2.late = []) :
    (callMachine.next x a).2.late = [] ↔ ¬ x.Disturbs a := by
  obtain ⟨⟨s, h⟩, c⟩ := x
  have hl : c.late = [] := hl
  have nothing : (callMachine.next ((s, h), c) a).2.late = c.late → ¬ Disturbs ((s, h), c) a →
      ((callMachine.next ((s, h), c) a).2.late = [] ↔ ¬ Disturbs ((s, h), c) a) :=
    fun he hd => iff_of_true (he.trans hl) hd
  by_cases hsil : a.silent = true
  · refine nothing (congrArg WorkCall.late (WorkCall.record_silent hsil c)) ?_
    cases a with
    | io a => cases a <;> first | exact id | cases hsil
    | poster p a => cases a <;> first | exact id | cases hsil
    | _ => exact id
  cases a with
  | io a =>
      cases a with
      | readNow =>
          change c.late ++ c.due s s.clock = [] ↔ ¬ ∃ t ∈ s.runner.delayedTasks, _
          have tasks : c.tasks = c.ready := by rw [WorkCall.tasks, hl, List.append_nil]
          rw [hl, List.nil_append, List.eq_nil_iff_forall_not_mem]
          refine ⟨?_, fun hn id hm => hn ?_⟩
          · rintro hn ⟨t, ht, hd, hr⟩
            exact hn t.id (WorkCall.mem_due.mpr ⟨⟨t, ht, rfl, hd⟩, tasks ▸ hr⟩)
          · obtain ⟨⟨t, ht, rfl, hd⟩, hr⟩ := WorkCall.mem_due.mp hm
            exact ⟨t, ht, hd, tasks ▸ hr⟩
      | popTask | taskReturns | popDelayed | noDelayed | delayedReturns | peek =>
          exact nothing rfl id
      | endBatch | epollInterrupted =>
          have hs : s.phase.inDoWork = true := hx
          have hb : s.phase = _ := ha
          rw [hb] at hs
          cases hs
      | _ => exact absurd rfl hsil
  | poster p a =>
      cases a with
      | post delay => exact nothing rfl id
      | push i =>
          change c.late ++ s.phase.takes i = [] ↔ ¬ s.phase.firstLoop = true
          rw [hl, List.nil_append, IoPhase.takes]
          cases s.phase.firstLoop <;> simp
      | pushDelayed t =>
          change c.late ++ s.phase.takesDelayed t = [] ↔ ¬ ∃ now, s.phase = .delayedPop now ∧ _
          rw [hl, List.nil_append]
          cases s.phase <;> simp [IoPhase.takesDelayed]
      | _ => exact absurd rfl hsil
  | _ => exact absurd rfl hsil

/-! ### Runs -/

variable {as : ℕ → IoState.Action} {n m : ℕ}

/-- The state after the first `n` steps. -/
def after (x : CallState) (as : ℕ → IoState.Action) (n : ℕ) : CallState :=
  trace callMachine.next x as n

/-- The call goes on up to the step given. -/
def GoesOn (x : CallState) (as : ℕ → IoState.Action) (n : ℕ) : Prop :=
  ∀ m < n, (x.after as m).inDoWork = true

/-- The steps are a run. -/
def Runs (x : CallState) (as : ℕ → IoState.Action) : Prop :=
  ∀ n, callMachine.Enabled (x.after as n) (as n)

/-- The IO thread is scheduled, and the tasks it runs return: it does not stay in `do_work` without
taking steps of it. -/
def Fair (x : CallState) (as : ℕ → IoState.Action) : Prop :=
  (∀ n, (x.after as n).inDoWork = true) → ∀ n, ∃ m, n ≤ m ∧ (as m).ofDoWork = true

/-- The call returns, and has run the tasks that were ready when it began. -/
def Prompt (x : CallState) (as : ℕ → IoState.Action) : Prop :=
  ∃ n, x.GoesOn as n ∧ (∃ d, (x.after as n).1.1.phase = .quitCheck d) ∧
    (x.after as n).2.ran.Perm x.2.ready

/-- No task becomes ready for the call while it is going. -/
def Undisturbed (x : CallState) (as : ℕ → IoState.Action) : Prop :=
  ∀ n, x.GoesOn as (n + 1) → ¬ (x.after as n).Disturbs (as n)

theorem reachable_after (hx : callMachine.Reachable x) (hr : x.Runs as) (n : ℕ) :
    callMachine.Reachable (x.after as n) := by
  induction n with
  | zero => exact hx
  | succ n ih => exact ih.run (.more .refl trivial (hr n))

theorem goes_after (hr : x.Runs as) (hg : x.GoesOn as (n + 1)) : (x.after as n).Goes (as n) :=
  goes (hg n (Nat.lt_succ_self n)) (hr n)

theorem GoesOn.of_le (hg : x.GoesOn as n) (hm : m ≤ n) : x.GoesOn as m :=
  fun k hk => hg k (Nat.lt_of_lt_of_le hk hm)

theorem ready_after (hr : x.Runs as) (hg : x.GoesOn as n) : (x.after as n).2.ready = x.2.ready := by
  induction n with
  | zero => rfl
  | succ n ih => exact (goes_after hr hg).ready.trans (ih (hg.of_le (Nat.le_succ n)))

theorem late_after (hr : x.Runs as) (hg : x.GoesOn as n) (hm : m ≤ n) :
    (x.after as m).2.late <+: (x.after as n).2.late := by
  induction n with
  | zero => obtain rfl : m = 0 := Nat.le_zero.mp hm; exact List.prefix_rfl
  | succ n ih =>
      rcases Nat.le_succ_iff.mp hm with hm | rfl
      · exact (ih (hg.of_le (Nat.le_succ n)) hm).trans (goes_after hr hg).late
      · exact List.prefix_rfl

theorem late_of_undisturbed (hr : x.Runs as) (hu : x.Undisturbed as) (hl : x.2.late = [])
    (hg : x.GoesOn as n) : (x.after as n).2.late = [] := by
  induction n with
  | zero => exact hl
  | succ n ih =>
      exact (late_next (hg n (Nat.lt_succ_self n)) (hr n) (ih (hg.of_le (Nat.le_succ n)))).mpr
        (hu n hg)

theorem steps_mono (hr : x.Runs as) (hg : x.GoesOn as n) (hm : m ≤ n) :
    (x.after as m).2.steps ≤ (x.after as n).2.steps := by
  induction n with
  | zero => obtain rfl : m = 0 := Nat.le_zero.mp hm; exact Nat.le_refl _
  | succ n ih =>
      rcases Nat.le_succ_iff.mp hm with hm | rfl
      · refine Nat.le_trans (ih (hg.of_le (Nat.le_succ n)) hm) ?_
        exact (goes_after hr hg).steps ▸ Nat.le_add_right _ _
      · exact Nat.le_refl _

/-- A call that never returns takes more and more steps. -/
theorem steps_unbounded (hr : x.Runs as) (hf : x.Fair as)
    (hall : ∀ n, (x.after as n).inDoWork = true) (k : ℕ) :
    ∃ n, k ≤ (x.after as n).2.steps := by
  have goesOn : ∀ n, x.GoesOn as n := fun _ m _ => hall m
  induction k with
  | zero => exact ⟨0, Nat.zero_le _⟩
  | succ k ih =>
      obtain ⟨n, hn⟩ := ih
      obtain ⟨m, hm, ho⟩ := hf hall n
      have step := (goes_after hr (goesOn (m + 1))).steps
      rw [ho] at step
      have mono := steps_mono hr (goesOn m) hm
      refine ⟨m + 1, ?_⟩
      change k + 1 ≤ (callMachine.next (x.after as m) (as m)).2.steps
      rw [step]
      exact Nat.succ_le_succ (Nat.le_trans hn mono)

/-- A call that is not disturbed returns. -/
theorem returns_of_undisturbed (hx : callMachine.Reachable x) (hr : x.Runs as) (hf : x.Fair as)
    (hl : x.2.late = []) (hu : x.Undisturbed as) : ∃ n, (x.after as n).inDoWork = false := by
  by_contra hall
  replace hall : ∀ n, (x.after as n).inDoWork = true := fun n => by
    cases hn : (x.after as n).inDoWork with
    | true => rfl
    | false => exact absurd ⟨n, hn⟩ hall
  have goesOn : ∀ n, x.GoesOn as n := fun _ m _ => hall m
  obtain ⟨n, hn⟩ := steps_unbounded hr hf hall (3 * x.2.ready.length + 5)
  have bound := (reachable_call (reachable_after hx hr n)).steps_le
  rw [WorkCall.tasks, late_of_undisturbed hr hu hl (goesOn n), List.append_nil,
    ready_after hr (goesOn n)] at bound
  omega

/-- While the IO thread is in `do_work` and in no `register_fd`, a step of `do_work` is enabled. -/
theorem exists_ofDoWork {s : IoState} (hs : s.phase.inDoWork = true) (hreg : s.registering = none) :
    ∃ a, a.ofDoWork = true ∧ s.Enabled a := by
  cases hph : s.phase with
  | immediate => exact ⟨.io .popTask, rfl, hph⟩
  | runTask id => exact ⟨.io (.taskReturns id), rfl, hph, hreg⟩
  | delayedNow => exact ⟨.io .readNow, rfl, hph⟩
  | delayedPop now =>
      have least := lawful_nextDeadline s.runner
      cases hd : s.runner.nextDeadline with
      | none =>
          have empty : s.runner.delayedTasks = [] := least.none_iff.mp hd
          refine ⟨.io (.noDelayed now), rfl, hph, fun t ht => ?_⟩
          rw [empty] at ht
          cases ht
      | some d =>
          obtain ⟨t, ht, hdt⟩ := least.mem d hd
          by_cases hle : d ≤ now
          · refine ⟨.io (.popDelayed now t), rfl, hph, ⟨ht, fun u hu => ?_⟩, hdt ▸ hle⟩
            rw [IoDelayedTask.Le, hdt]
            exact least.least d hd u hu
          · refine ⟨.io (.noDelayed now), rfl, hph, fun u hu => ?_⟩
            exact Nat.lt_of_lt_of_le (Nat.lt_of_not_le hle) (least.least d hd u hu)
  | runDelayed id => exact ⟨.io (.delayedReturns id), rfl, hph, hreg⟩
  | peek => exact ⟨.io .peek, rfl, hph⟩
  | _ => rw [hph] at hs; cases hs

/-- What joins a call has run when it returns. -/
theorem undisturbed_of_prompt (hx : callMachine.Reachable x) (hr : x.Runs as) (h : x.Prompt as) :
    x.Undisturbed as := by
  obtain ⟨n, hg, ⟨d, hd⟩, hp⟩ := h
  have outside : (x.after as n).inDoWork = false := by rw [inDoWork, hd]; rfl
  have late : (x.after as n).2.late = [] := by
    have ran := (reachable_call (reachable_after hx hr n)).ran_perm outside
    rw [WorkCall.tasks, ready_after hr hg] at ran
    have length := (hp.symm.trans ran).length_eq
    rw [List.length_append] at length
    exact List.eq_nil_of_length_eq_zero (by omega)
  intro k hk
  have hkn : k < n := by
    by_contra hlt
    rw [hk n (by omega)] at outside
    cases outside
  have upTo : ∀ j ≤ n, (x.after as j).2.late = [] := fun j hj =>
    List.prefix_nil.mp (late ▸ late_after hr hg hj)
  exact (late_next (hg k hkn) (hr k) (upTo k (Nat.le_of_lt hkn))).mp (upTo (k + 1) hkn)

theorem prompt_of_undisturbed (hx : callMachine.Reachable x) (hr : x.Runs as) (hf : x.Fair as)
    (hb : x.inDoWork = true) (hl : x.2.late = []) (hu : x.Undisturbed as) : x.Prompt as := by
  classical
  have ends := returns_of_undisturbed hx hr hf hl hu
  have outside := Nat.find_spec ends
  have hg : x.GoesOn as (Nat.find ends) := fun m hm => by
    cases hn : (x.after as m).inDoWork with
    | true => rfl
    | false => exact absurd hn (Nat.find_min ends hm)
  refine ⟨Nat.find ends, hg, ?_, ?_⟩
  · cases hn : Nat.find ends with
    | zero =>
        rw [hn, show x.after as 0 = x from rfl, hb] at outside
        cases outside
    | succ n =>
        rw [hn] at hg outside
        rcases (goes_after hr hg).phase with hp | hp
        · exact absurd (hp.symm.trans outside) Bool.true_eq_false_eq_False
        · exact hp
  · have ran := (reachable_call (reachable_after hx hr _)).ran_perm outside
    rw [WorkCall.tasks, late_of_undisturbed hr hu hl hg, List.append_nil, ready_after hr hg] at ran
    exact ran

/-- **`do_work` and what becomes ready meanwhile.**  Of a call of `do_work`, from its beginning on,
under any posts by the tasks it runs and by other threads, any passing of time and any choice among
equal deadlines: it is never stuck, and it returns with the tasks run that were ready when it began,
and no others, exactly when no task becomes ready for it while it is going. -/
theorem do_work_prompt_iff {x : CallState} {as : ℕ → IoState.Action} (hx : callMachine.Reachable x)
    (hb : x.1.1.phase = .immediate) (hc : x.2 = .called x.1.1) (hr : x.Runs as) (hf : x.Fair as) :
    (∀ n, (x.after as n).inDoWork = true → (x.after as n).1.1.registering = none →
      ∃ a, a.ofDoWork = true ∧ callMachine.Enabled (x.after as n) a) ∧
    (x.Prompt as ↔ x.Undisturbed as) := by
  have hin : x.inDoWork = true := by rw [inDoWork, hb]; rfl
  have hl : x.2.late = [] := by rw [hc]; rfl
  exact ⟨fun n hn hreg => exists_ofDoWork hn hreg, undisturbed_of_prompt hx hr,
    prompt_of_undisturbed hx hr hf hin hl⟩

/-! ### Two calls -/

/-- The first call finds nothing, a task is posted, and its wake-up brings about the second call. -/
def wakeRun : List IoState.Action :=
  [.io .popTask, .io .readNow, .io (.noDelayed 0), .io .peek, .io (.checkQuit none),
   .io (.computeTimeout none), .poster 0 (.post none), .poster 0 (.push 0), .poster 0 .write,
   .io (.epollReturns (-1) 0 [⟨epollIn, 0⟩]), .io (.handle ⟨epollIn, 0⟩ []), .io .endBatch]

/-- `do_work` has been called with one task ready. -/
def woken : CallState :=
  callMachine.runList ((.new 0 fun _ => true, .empty), ⟨[], [], [], 0⟩) wakeRun

theorem reachable_woken : callMachine.Reachable woken := by
  have run : callMachine.Follows (fun _ _ => True)
      ((.new 0 fun _ => true, .empty), ⟨[], [], [], 0⟩) wakeRun := by
    decide +kernel
  exact .of_follows ⟨init_trace rfl, rfl⟩ run

/-- The task posts nothing. -/
def quietRun (n : ℕ) : IoState.Action :=
  [.io .popTask, .io (.taskReturns 0), .io .popTask, .io .readNow, .io (.noDelayed 0),
    IoState.Action.io .peek].getD n (.tick 0)

theorem quietRun_prompt : woken.2.ready = [0] ∧ woken.Prompt quietRun := by
  have runs : woken.Runs quietRun := by
    intro n
    rcases n with _ | _ | _ | _ | _ | _ | n
    iterate 6 decide +kernel
    trivial
  have fair : woken.Fair quietRun := fun h => absurd (h 6) (by decide +kernel)
  have empty : (woken.after quietRun 3).1.1.runner.delayedTasks = [] := by decide +kernel
  have quiet : woken.Undisturbed quietRun := by
    rintro (_ | _ | _ | _ | n) -
    iterate 3 exact id
    · rintro ⟨t, ht, -⟩
      rw [empty] at ht
      cases ht
    · rcases n with _ | _ | n <;> exact id
  refine ⟨by decide +kernel, ?_⟩
  exact (do_work_prompt_iff reachable_woken (by decide +kernel) (by decide +kernel) runs fair).2.mpr
    quiet

/-- A task that posts another one whenever it runs, as a task of a fused runtime does that awaits
`yield_now` in a loop: its wake posts it again. -/
def spinRun : ℕ → IoState.Action
  | 0 => .io .popTask
  | n + 1 =>
      match n % 5 with
      | 0 => .poster 0 (.post none)
      | 1 => .poster 0 (.push (n / 5 + 1))
      | 2 => .poster 0 .write
      | 3 => .io (.taskReturns (n / 5))
      | _ => .io .popTask

/-- The task with the number given is running, the last one posted, and nothing is queued. -/
structure Spins (k : ℕ) (x : CallState) : Prop where
  phase : x.1.1.phase = .runTask k
  tasks : x.1.1.runner.tasks = []
  poster : x.1.1.posters 0 = .idle
  registering : x.1.1.registering = none
  shutdown : x.1.1.runner.shutdown = false
  nextId : x.1.1.nextId = k + 1
  ran : x.2.ran.length = k + 1

/-- The steps of one round. -/
def round (k : ℕ) : List IoState.Action :=
  [.poster 0 (.post none), .poster 0 (.push (k + 1)), .poster 0 .write, .io (.taskReturns k),
    .io .popTask]

/-- The IO thread stays in `do_work`, and only the task that is running posts. -/
def Enclosed (x : CallState) : IoState.Action → Prop
  | .poster _ _ => ∃ k, x.1.1.phase = .runTask k
  | _ => x.inDoWork = true

theorem Spins.round {k : ℕ} (h : Spins k x) :
    callMachine.Follows Enclosed x (round k) ∧ Spins (k + 1) (callMachine.runList x (round k)) := by
  obtain ⟨⟨⟨wakeFd, table, kernel, quit, ⟨tasks, delayedTasks, shutdown⟩, alive, clock, nextId,
    phase, registering, posters, snapshot, log⟩, h'⟩, c⟩ := x
  obtain ⟨rfl, rfl, hp, rfl, rfl, rfl, hr⟩ := h
  refine ⟨⟨⟨k, rfl⟩, hp, ⟨k, rfl⟩, rfl, ⟨k, rfl⟩, rfl, rfl, ⟨rfl, rfl⟩, rfl, rfl, trivial⟩,
    rfl, rfl, rfl, rfl, rfl, rfl, ?_⟩
  change (((c.ran ++ []) ++ [k + 1]) : List ℕ).length = k + 1 + 1
  rw [List.append_nil, List.length_append, hr]
  rfl

theorem spinRun_round (k : ℕ) :
    [spinRun (5 * k + 1), spinRun (5 * k + 2), spinRun (5 * k + 3), spinRun (5 * k + 4),
      spinRun (5 * k + 5)] = CallState.round k := by
  simp [spinRun, CallState.round, Nat.mul_add_div]

theorem spins (k : ℕ) : Spins k (woken.after spinRun (5 * k + 1)) := by
  induction k with
  | zero =>
      exact ⟨by decide +kernel, by decide +kernel, by decide +kernel, by decide +kernel,
        by decide +kernel, by decide +kernel, by decide +kernel⟩
  | succ k ih =>
      have h := ih.round.2
      rw [← spinRun_round] at h
      exact h

/-- Every step of the run is one of a round. -/
theorem spinRun_step (n : ℕ) :
    Enclosed (woken.after spinRun n) (spinRun n) ∧
      callMachine.Enabled (woken.after spinRun n) (spinRun n) := by
  cases n with
  | zero =>
      have first : woken.inDoWork = true := by decide +kernel
      exact ⟨first, by decide +kernel⟩
  | succ n =>
      have h := (spins (n / 5)).round.1
      rw [← spinRun_round] at h
      obtain ⟨c₀, e₀, c₁, e₁, c₂, e₂, c₃, e₃, c₄, e₄, -⟩ := h
      have hn : n + 1 = 5 * (n / 5) + (n % 5 + 1) := by omega
      have hlt : n % 5 < 5 := Nat.mod_lt n (by decide)
      rw [hn]
      generalize n / 5 = k at *
      generalize n % 5 = r at *
      rcases r with _ | _ | _ | _ | _ | r
      · exact ⟨c₀, e₀⟩
      · exact ⟨c₁, e₁⟩
      · exact ⟨c₂, e₂⟩
      · exact ⟨c₃, e₃⟩
      · exact ⟨c₄, e₄⟩
      · omega

theorem inDoWork_of_enclosed (h : x.Enclosed a) : x.inDoWork = true := by
  cases a with
  | poster p a =>
      obtain ⟨k, hk⟩ := h
      rw [inDoWork, hk]
      rfl
  | _ => exact h

/-- One task is ready when `do_work` is called, and nothing is posted but by the tasks that it runs:
it runs more and more of them and never returns. -/
theorem spinRun_never_returns :
    woken.2.ready = [0] ∧ woken.Runs spinRun ∧ woken.Fair spinRun ∧
      (∀ n, Enclosed (woken.after spinRun n) (spinRun n)) ∧
      (∀ n, (woken.after spinRun n).inDoWork = true) ∧
      (∀ k, ∃ n, (woken.after spinRun n).2.ran.length = k + 1) ∧ ¬ woken.Prompt spinRun := by
  have stays : ∀ n, (woken.after spinRun n).inDoWork = true := fun n =>
    inDoWork_of_enclosed (spinRun_step n).1
  refine ⟨by decide +kernel, fun n => (spinRun_step n).2, fun _ n => ?_,
    fun n => (spinRun_step n).1, stays, fun k => ⟨_, (spins k).ran⟩, ?_⟩
  · refine ⟨5 * n + 5, by omega, ?_⟩
    have last : spinRun (5 * n + 5) = .io .popTask :=
      congrArg (fun l => l.getD 4 (.tick 0)) (spinRun_round n)
    rw [last]
    rfl
  · rintro ⟨n, -, ⟨d, hd⟩, -⟩
    have h := stays n
    rw [inDoWork, hd] at h
    cases h

end CallState

end RustIo
