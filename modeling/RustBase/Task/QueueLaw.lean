import RustBase.Support.Before
import RustBase.Support.Machine
import RustBase.Task.Sequence

/-!
# Task — the queue law of a sequence

A `Sequence` under any calls of `push_task`, `push_delayed_task` and `take_task`, with a clock that
does not go back.  `pushed` are the tasks pushed, with the numbers they were given and the ready
times of the delayed ones, and `taken` those that `take_task` returned, with the time it read.

The order of a run is that of `flow`, the tasks taken followed by the immediate queue: it grows only
at its end, by an immediate task when it is pushed and by the expired delayed ones when `take_task`
flushes them.

**`queue_law`** puts together what the queues promise: nothing is lost or taken twice, immediate
tasks are first in first out, delayed tasks are never early and come in the order of their ready
times, and `take_task` returns a task exactly when there is a ready one.
-/

namespace RustTask
open Support

structure SequenceHistory where
  seq : Sequence
  now : Instant
  pushed : List (Task × Option Instant)
  taken : List (Task × Instant)

inductive SequenceOp where
  | pushTask (task : Task)
  | pushDelayedTask (task : Task) (readyTime : Instant)
  | takeTask (now : Instant)
  deriving DecidableEq

namespace SequenceHistory

def new (traits : TaskTraits) : SequenceHistory := ⟨.new traits, 0, [], []⟩

def Enabled (s : SequenceHistory) : SequenceOp → Prop
  | .pushTask _ | .pushDelayedTask _ _ => True
  | .takeTask now => s.now ≤ now

/-- The task as `push_task` numbers it. -/
def number (s : SequenceHistory) (task : Task) : Task :=
  { task with sequenceNum := s.seq.nextSequenceNum }

def next (s : SequenceHistory) : SequenceOp → SequenceHistory
  | .pushTask task =>
      { s with seq := s.seq.pushTask task, pushed := s.pushed ++ [(s.number task, none)] }
  | .pushDelayedTask task r =>
      { s with
        seq := s.seq.pushDelayedTask task r
        pushed := s.pushed ++ [(s.number task, some r)] }
  | .takeTask now =>
      { s with
        seq := (s.seq.takeTask now).2
        now := now
        taken := s.taken ++ (s.seq.takeTask now).1.toList.map (·, now) }

instance (s : SequenceHistory) : ∀ a, Decidable (s.Enabled a)
  | .pushTask _ | .pushDelayedTask _ _ => inferInstanceAs (Decidable True)
  | .takeTask _ => inferInstanceAs (Decidable (_ ≤ _))

end SequenceHistory

def sequenceMachine (traits : TaskTraits) : Machine SequenceHistory SequenceOp where
  Init s := s = .new traits
  Enabled s := s.Enabled
  next s := s.next

instance (traits : TaskTraits) (s : SequenceHistory) (a : SequenceOp) :
    Decidable ((sequenceMachine traits).Enabled s a) :=
  inferInstanceAs (Decidable (s.Enabled a))

namespace SequenceHistory

variable {s s' : SequenceHistory} {a b : Task} {d d₁ d₂ : DelayedTask}

def takenTasks (s : SequenceHistory) : List Task := s.taken.map (·.1)

/-- The tasks in the order in which they are, or are going to be, taken. -/
def flow (s : SequenceHistory) : List Task := s.takenTasks ++ s.seq.immediateQueue

/-- The delayed tasks that have expired. -/
def expired (s : SequenceHistory) (now : Instant) : List DelayedTask :=
  (s.seq.delayedQueue.popWhile (fun d => d.readyTime ≤ now)).1

/-! ### What a step does to the flow -/

theorem flow_pushTask (s : SequenceHistory) (task : Task) :
    (s.next (.pushTask task)).flow = s.flow ++ [s.number task] := by
  simp [flow, next, takenTasks, Sequence.pushTask, number]

theorem flow_pushDelayedTask (s : SequenceHistory) (task : Task) (r : Instant) :
    (s.next (.pushDelayedTask task r)).flow = s.flow := rfl

/-- `take_task` appends what it flushes; the task it takes moves within the flow. -/
theorem flow_takeTask (s : SequenceHistory) (now : Instant) :
    (s.next (.takeTask now)).flow = s.flow ++ (s.expired now).map DelayedTask.task := by
  have split : ∀ q : List Task, q.head?.toList ++ q.tail = q := by
    intro q
    cases q <;> rfl
  change (s.taken ++ _).map (·.1) ++ _ = s.takenTasks ++ s.seq.immediateQueue ++ _
  rw [List.map_append, List.map_map, List.append_assoc, List.append_assoc]
  change s.takenTasks ++ ((s.seq.takeTask now).1.toList.map id ++
    (s.seq.takeTask now).2.immediateQueue) = _
  rw [List.map_id]
  exact congrArg _ (split _)

theorem delayedQueue_takeTask (s : SequenceHistory) (now : Instant) :
    (s.next (.takeTask now)).seq.delayedQueue =
      (s.seq.delayedQueue.popWhile (fun d => d.readyTime ≤ now)).2 := rfl

/-! ### The invariant -/

structure Inv (s : SequenceHistory) : Prop where
  length : s.seq.nextSequenceNum = s.pushed.length
  number : ∀ (i : ℕ) (p : Task × Option Instant), s.pushed[i]? = some p → p.1.sequenceNum = i
  perm : (s.flow ++ s.seq.delayedQueue.elems.map DelayedTask.task).Perm (s.pushed.map (·.1))
  delayed : ∀ d ∈ s.seq.delayedQueue,
    d.task.sequenceNum = d.sequenceNum ∧ s.pushed[d.sequenceNum]? = some (d.task, some d.readyTime)
  mem_flow : ∀ (i : ℕ) (a : Task), s.pushed[i]? = some (a, none) → a ∈ s.flow
  fifo : ∀ (i j : ℕ) (a b : Task), i < j → s.pushed[i]? = some (a, none) →
    s.pushed[j]? = some (b, none) → Before s.flow a b
  due : ∀ (i : ℕ) (a : Task) (r : Instant), s.pushed[i]? = some (a, some r) → a ∈ s.flow → r ≤ s.now
  taken_due : ∀ (a : Task) (t : Instant), (a, t) ∈ s.taken →
    ∀ (i : ℕ) (r : Instant), s.pushed[i]? = some (a, some r) → r ≤ t

namespace Inv

theorem init (traits : TaskTraits) : Inv (.new traits) where
  length := rfl
  number i p h := by simp [SequenceHistory.new] at h
  perm := by simp [SequenceHistory.new, flow, takenTasks, Sequence.new, MinHeap.empty]
  delayed d hd := by simp [SequenceHistory.new, Sequence.new] at hd
  mem_flow i a h := by simp [SequenceHistory.new] at h
  fifo i j a b _ h := by simp [SequenceHistory.new] at h
  due i a r h := by simp [SequenceHistory.new] at h
  taken_due a t h := by simp [SequenceHistory.new] at h

/-- The tasks pushed are told apart by their numbers. -/
theorem nodup (h : s.Inv) : (s.pushed.map (·.1)).Nodup := by
  refine List.Nodup.of_map Task.sequenceNum ?_
  have range : (s.pushed.map (·.1)).map Task.sequenceNum = List.range s.pushed.length := by
    refine List.ext_getElem? fun i => ?_
    rw [List.map_map, List.getElem?_map]
    cases hi : s.pushed[i]? with
    | none =>
        have := List.getElem?_eq_none_iff.mp hi
        rw [Option.map_none, List.getElem?_eq_none (by simpa using this)]
    | some p =>
        have hlt := (List.getElem?_eq_some_iff.mp hi).1
        simp [h.number i p hi, hlt]
  rw [range]
  exact List.nodup_range

theorem nodup_queues (h : s.Inv) :
    (s.flow ++ s.seq.delayedQueue.elems.map DelayedTask.task).Nodup :=
  h.perm.nodup_iff.mpr h.nodup

theorem nodup_flow (h : s.Inv) : s.flow.Nodup := (List.nodup_append.mp h.nodup_queues).1

/-- A task in the flow is not delayed any more. -/
theorem not_mem_flow (h : s.Inv) (hd : d ∈ s.seq.delayedQueue) : d.task ∉ s.flow := by
  intro hf
  exact (List.nodup_append.mp h.nodup_queues).2.2 _ hf _ (List.mem_map_of_mem hd) rfl

/-- A task that is queued or taken was pushed before. -/
theorem number_lt (h : s.Inv) (ha : a ∈ s.flow) : a.sequenceNum < s.pushed.length := by
  obtain ⟨p, hp, rfl⟩ := List.mem_map.mp (h.perm.subset (List.mem_append_left _ ha))
  obtain ⟨i, hi, rfl⟩ := List.mem_iff_getElem.mp hp
  rw [h.number i _ (List.getElem?_eq_getElem hi)]
  exact hi

/-- The task that is pushed next has a number that none has yet. -/
theorem number_not_mem_flow (h : s.Inv) (task : Task) : s.number task ∉ s.flow := by
  intro hf
  have lt := h.number_lt hf
  rw [SequenceHistory.number, h.length] at lt
  exact absurd lt (Nat.lt_irrefl _)

theorem number_concat (h : s.Inv) {task : Task} {r : Option Instant} {i : ℕ}
    {p : Task × Option Instant} (hp : (s.pushed ++ [(s.number task, r)])[i]? = some p) :
    p.1.sequenceNum = i := by
  rcases getElem?_concat.mp hp with hp | ⟨rfl, rfl⟩
  · exact h.number i p hp
  · exact h.length

theorem pushTask (h : s.Inv) (task : Task) : (s.next (.pushTask task)).Inv where
  length := by simp [SequenceHistory.next, Sequence.pushTask, h.length]
  number _ _ := h.number_concat
  perm := by
    have pushed : (s.next (.pushTask task)).pushed.map (·.1) =
        s.pushed.map (·.1) ++ [s.number task] := by
      simp [SequenceHistory.next]
    rw [flow_pushTask, pushed, List.append_assoc]
    refine (List.perm_append_comm.append_left _).trans ?_
    rw [← List.append_assoc]
    exact h.perm.append_right _
  delayed d hd := by
    obtain ⟨hn, hp⟩ := h.delayed d hd
    exact ⟨hn, getElem?_concat.mpr (.inl hp)⟩
  mem_flow i a ha := by
    rw [flow_pushTask]
    rcases getElem?_concat.mp ha with ha | ⟨-, e⟩
    · exact List.mem_append_left _ (h.mem_flow i a ha)
    · cases e
      exact List.mem_append_right _ List.mem_cons_self
  fifo i j a b hij ha hb := by
    rw [flow_pushTask]
    rcases getElem?_concat.mp hb with hb | ⟨rfl, e⟩
    · have ha : s.pushed[i]? = some (a, none) := by
        rcases getElem?_concat.mp ha with ha | ⟨rfl, -⟩
        · exact ha
        · have := (List.getElem?_eq_some_iff.mp hb).1
          omega
      exact (h.fifo i j a b hij ha hb).append_right _
    · cases e
      rcases getElem?_concat.mp ha with ha | ⟨rfl, -⟩
      · exact .of_mem (h.mem_flow i a ha) List.mem_cons_self
      · exact absurd hij (Nat.lt_irrefl _)
  due i a r ha hf := by
    rcases getElem?_concat.mp ha with ha | ⟨-, e⟩
    · rw [flow_pushTask] at hf
      rcases List.mem_append.mp hf with hf | hf
      · exact h.due i a r ha hf
      · -- the task pushed has the next number
        obtain rfl := List.mem_singleton.mp hf
        have num : s.seq.nextSequenceNum = i := h.number i _ ha
        have := (List.getElem?_eq_some_iff.mp ha).1
        have := h.length
        omega
    · cases e
  taken_due a t hm i r ha := by
    rcases getElem?_concat.mp ha with ha | ⟨-, e⟩
    · exact h.taken_due a t hm i r ha
    · cases e

theorem pushDelayedTask (h : s.Inv) (task : Task) (r : Instant) :
    (s.next (.pushDelayedTask task r)).Inv where
  length := by simp [SequenceHistory.next, Sequence.pushDelayedTask, h.length]
  number _ _ := h.number_concat
  perm := by
    have queue : ((s.next (.pushDelayedTask task r)).seq.delayedQueue.elems.map
        DelayedTask.task).Perm (s.seq.delayedQueue.elems.map DelayedTask.task ++ [s.number task]) :=
      ((MinHeap.perm_push _ _).map _).trans (List.perm_append_singleton _ _).symm
    have pushed : (s.next (.pushDelayedTask task r)).pushed.map (·.1) =
        s.pushed.map (·.1) ++ [s.number task] := by
      simp [SequenceHistory.next]
    rw [flow_pushDelayedTask, pushed]
    refine (queue.append_left _).trans ?_
    rw [← List.append_assoc]
    exact h.perm.append_right _
  delayed d hd := by
    rcases MinHeap.mem_push.mp hd with rfl | hd
    · exact ⟨rfl, getElem?_concat.mpr (.inr ⟨h.length, rfl⟩)⟩
    · obtain ⟨hn, hp⟩ := h.delayed d hd
      exact ⟨hn, getElem?_concat.mpr (.inl hp)⟩
  mem_flow i a ha := by
    rcases getElem?_concat.mp ha with ha | ⟨-, e⟩
    · exact h.mem_flow i a ha
    · cases e
  fifo i j a b hij ha hb := by
    rcases getElem?_concat.mp ha with ha | ⟨-, e⟩
    · rcases getElem?_concat.mp hb with hb | ⟨-, e⟩
      · exact h.fifo i j a b hij ha hb
      · cases e
    · cases e
  due i a r' ha hf := by
    rcases getElem?_concat.mp ha with ha | ⟨rfl, e⟩
    · exact h.due i a r' ha hf
    · cases e
      exact absurd hf (h.number_not_mem_flow task)
  taken_due a t hm i r' ha := by
    rcases getElem?_concat.mp ha with ha | ⟨rfl, e⟩
    · exact h.taken_due a t hm i r' ha
    · cases e
      have mem : s.number task ∈ s.flow :=
        List.mem_append_left _ (List.mem_map_of_mem (f := (·.1)) hm)
      exact absurd mem (h.number_not_mem_flow task)

/-- The number of a delayed task gives back its ready time. -/
theorem readyTime_eq (h : s.Inv) (hd : d ∈ s.seq.delayedQueue) {i : ℕ} {r : Instant}
    (hp : s.pushed[i]? = some (d.task, some r)) : r = d.readyTime := by
  obtain ⟨hn, hp'⟩ := h.delayed d hd
  have num : d.task.sequenceNum = i := h.number i _ hp
  rw [← hn, num, hp] at hp'
  cases hp'
  rfl

theorem due_takeTask (h : s.Inv) {now : Instant} (hnow : s.now ≤ now) {i : ℕ} {r : Instant}
    (ha : s.pushed[i]? = some (a, some r)) (hf : a ∈ (s.next (.takeTask now)).flow) : r ≤ now := by
  rw [flow_takeTask] at hf
  rcases List.mem_append.mp hf with hf | hf
  · exact Nat.le_trans (h.due i a r ha hf) hnow
  · obtain ⟨d, hd, rfl⟩ := List.mem_map.mp hf
    obtain ⟨hm, hr⟩ := MinHeap.of_mem_taken hd
    rw [h.readyTime_eq hm ha]
    exact of_decide_eq_true hr

theorem takeTask (h : s.Inv) {now : Instant} (hnow : s.now ≤ now) :
    (s.next (.takeTask now)).Inv where
  length := h.length
  number := h.number
  perm := by
    rw [flow_takeTask, delayedQueue_takeTask, List.append_assoc, ← List.map_append]
    change (s.flow ++ ((s.seq.delayedQueue.popWhile _).1 ++ _).map _).Perm _
    rw [MinHeap.popWhile_append]
    exact h.perm
  delayed d hd := h.delayed d (MinHeap.mem_of_mem_popWhile hd)
  mem_flow i a ha := by
    rw [flow_takeTask]
    exact List.mem_append_left _ (h.mem_flow i a ha)
  fifo i j a b hij ha hb := by
    rw [flow_takeTask]
    exact (h.fifo i j a b hij ha hb).append_right _
  due i a r ha hf := h.due_takeTask hnow ha hf
  taken_due a t hm i r ha := by
    rcases List.mem_append.mp hm with hm | hm
    · exact h.taken_due a t hm i r ha
    · obtain ⟨b, hb, e⟩ := List.mem_map.mp hm
      obtain ⟨e₁, e₂⟩ := Prod.mk.inj e
      rw [← e₂]
      refine h.due_takeTask hnow ha (List.mem_append_left _ (List.mem_map.mpr ⟨(b, now), ?_, e₁⟩))
      exact List.mem_append_right _ (List.mem_map.mpr ⟨b, hb, rfl⟩)

theorem next (h : s.Inv) {op : SequenceOp} (ho : s.Enabled op) : (s.next op).Inv := by
  cases op with
  | pushTask task => exact h.pushTask task
  | pushDelayedTask task r => exact h.pushDelayedTask task r
  | takeTask now => exact h.takeTask ho

end Inv

theorem inv_of_reachable {traits : TaskTraits} (h : (sequenceMachine traits).Reachable s) :
    s.Inv := by
  refine h.invariant (I := Inv) (fun s hi => ?_) fun _ _ _ hi _ ho => hi.next ho
  obtain rfl : s = .new traits := hi
  exact .init traits

/-! ### Delayed tasks and what comes before them -/

/-- A task in the flow while `d` is delayed, until `d` follows it. -/
def Leads (s : SequenceHistory) (a : Task) (d : DelayedTask) : Prop :=
  a ∈ s.flow ∧ d ∈ s.seq.delayedQueue ∨ Before s.flow a d.task

/-- Two delayed tasks in the order of the queue, until the first leads. -/
def Ranked (s : SequenceHistory) (d₁ d₂ : DelayedTask) : Prop :=
  d₁ ∈ s.seq.delayedQueue ∧ d₂ ∈ s.seq.delayedQueue ∨ s.Leads d₁.task d₂

theorem Leads.next (h : s.Leads a d) (op : SequenceOp) : (s.next op).Leads a d := by
  rcases h with ⟨ha, hd⟩ | hb
  · cases op with
    | pushTask task => exact .inl ⟨flow_pushTask s task ▸ List.mem_append_left _ ha, hd⟩
    | pushDelayedTask task r => exact .inl ⟨ha, MinHeap.mem_push.mpr (.inr hd)⟩
    | takeTask now =>
        rcases MinHeap.mem_popWhile (p := fun d => d.readyTime ≤ now) hd with hd | hd
        · exact .inr (flow_takeTask s now ▸ .of_mem ha (List.mem_map_of_mem hd))
        · exact .inl ⟨flow_takeTask s now ▸ List.mem_append_left _ ha, hd⟩
  · refine .inr ?_
    cases op with
    | pushTask task => exact flow_pushTask s task ▸ hb.append_right _
    | pushDelayedTask task r => exact hb
    | takeTask now => exact flow_takeTask s now ▸ hb.append_right _

theorem Ranked.next (h : s.Ranked d₁ d₂) (hlt : ¬ d₂.Le d₁) (op : SequenceOp) :
    (s.next op).Ranked d₁ d₂ := by
  rcases h with ⟨h₁, h₂⟩ | hl
  · cases op with
    | pushTask task => exact .inl ⟨h₁, h₂⟩
    | pushDelayedTask task r =>
        exact .inl ⟨MinHeap.mem_push.mpr (.inr h₁), MinHeap.mem_push.mpr (.inr h₂)⟩
    | takeTask now =>
        have ne : d₁ ≠ d₂ := by
          rintro rfl
          exact hlt (Std.Refl.refl d₁)
        rcases MinHeap.mem_popWhile (p := fun d => d.readyTime ≤ now) h₁ with hd₁ | hd₁
        · rcases MinHeap.mem_popWhile (p := fun d => d.readyTime ≤ now) h₂ with hd₂ | hd₂
          · -- both are flushed, in the order of the heap
            have before := Before.of_pairwise (MinHeap.sorted_taken _ _) hd₁ hd₂ hlt ne
            exact .inr (.inr (flow_takeTask s now ▸ (before.map _).append_left _))
          · refine .inr (.inl ⟨flow_takeTask s now ▸ ?_, hd₂⟩)
            exact List.mem_append_right _ (List.mem_map_of_mem hd₁)
        · rcases MinHeap.mem_popWhile (p := fun d => d.readyTime ≤ now) h₂ with hd₂ | hd₂
          · exact absurd (MinHeap.le_of_taken hd₂ hd₁) hlt
          · exact .inl ⟨hd₁, hd₂⟩
  · exact .inr (hl.next op)

/-- A delayed task that was taken follows what leads it. -/
theorem Leads.before_taken (h : s.Leads a d) (hi : s.Inv) (hd : d.task ∈ s.takenTasks) :
    Before s.takenTasks a d.task := by
  rcases h with ⟨-, hq⟩ | hb
  · exact absurd (List.mem_append_left _ hd) (hi.not_mem_flow hq)
  · exact Before.of_append hi.nodup_flow hb hd

/-! ### The law -/

/-- `take_task` returns a task exactly when there is one that is ready. -/
theorem isSome_takeTask (x : Sequence) (now : Instant) :
    (x.takeTask now).1.isSome = true ↔ x.hasReadyTasks now = true := by
  have flushed : (x.takeTask now).1 = (x.immediateQueue ++
      (x.delayedQueue.elems.takeWhile (fun d => decide (d.readyTime ≤ now))).map
        DelayedTask.task).head? := rfl
  rw [flushed, Sequence.hasReadyTasks, MinHeap.peek]
  cases x.immediateQueue with
  | cons a q => simp
  | nil =>
      cases x.delayedQueue.elems with
      | nil => simp
      | cons d q =>
          by_cases hd : d.readyTime ≤ now <;> simp [hd]

/-- What the two queues of a sequence promise of a run. -/
structure Lawful (traits : TaskTraits) (s : SequenceHistory) : Prop where
  /-- nothing is lost, and nothing is taken twice -/
  perm : (s.takenTasks ++ s.seq.immediateQueue ++
    s.seq.delayedQueue.elems.map DelayedTask.task).Perm (s.pushed.map (·.1))
  nodup : (s.pushed.map (·.1)).Nodup
  fifo : ∀ (i j : ℕ) (a b : Task), i < j → s.pushed[i]? = some (a, none) →
    s.pushed[j]? = some (b, none) → b ∈ s.takenTasks → Before s.takenTasks a b
  not_early : ∀ (a : Task) (t : Instant), (a, t) ∈ s.taken → ∀ r, (a, some r) ∈ s.pushed → r ≤ t
  /-- a delayed task is queued with its ready time and the number of its push -/
  queued : ∀ d ∈ s.seq.delayedQueue, s.pushed[d.sequenceNum]? = some (d.task, some d.readyTime)
  /-- first by ready time, then by push -/
  by_time : ∀ d₁ ∈ s.seq.delayedQueue, ∀ d₂ ∈ s.seq.delayedQueue,
    (d₁.readyTime < d₂.readyTime ∨
      d₁.readyTime = d₂.readyTime ∧ d₁.sequenceNum < d₂.sequenceNum) →
    ∀ s', (sequenceMachine traits).Run (fun _ _ => True) s s' → d₂.task ∈ s'.takenTasks →
      Before s'.takenTasks d₁.task d₂.task
  /-- an immediate task that was pushed before the flush comes before what is flushed -/
  immediate_first : ∀ a, (a, none) ∈ s.pushed → ∀ d ∈ s.seq.delayedQueue,
    ∀ s', (sequenceMachine traits).Run (fun _ _ => True) s s' → d.task ∈ s'.takenTasks →
      Before s'.takenTasks a d.task
  ready : ∀ now, (s.seq.takeTask now).1.isSome = true ↔ s.seq.hasReadyTasks now = true

/-- **The queue law**, of every state that calls of the two pushes and of `take_task` reach. -/
theorem queue_law {traits : TaskTraits} {s : SequenceHistory}
    (hs : (sequenceMachine traits).Reachable s) : s.Lawful traits := by
  have h := inv_of_reachable hs
  have index : ∀ {p : Task × Option Instant}, p ∈ s.pushed → ∃ i : ℕ, s.pushed[i]? = some p := by
    intro p hp
    obtain ⟨i, hi, rfl⟩ := List.mem_iff_getElem.mp hp
    exact ⟨i, List.getElem?_eq_getElem hi⟩
  refine ⟨h.perm, h.nodup, fun i j a b hij ha hb hm => ?_, fun a t hm r hr => ?_,
    fun d hd => (h.delayed d hd).2, fun d₁ h₁ d₂ h₂ hlt s' hr hm => ?_,
    fun a ha d hd s' hr hm => ?_, isSome_takeTask s.seq⟩
  · exact .of_append h.nodup_flow (h.fifo i j a b hij ha hb) hm
  · obtain ⟨i, hi⟩ := index hr
    exact h.taken_due a t hm i r hi
  · have h' := inv_of_reachable (hs.run hr)
    have not_le : ¬ d₂.Le d₁ := LexLe.not_of_lt hlt
    have ranked : s'.Ranked d₁ d₂ :=
      hr.keeps (I := fun s => s.Ranked d₁ d₂) (fun s op h _ => h.next not_le op) (.inl ⟨h₁, h₂⟩)
    rcases ranked with ⟨-, hq⟩ | hl
    · exact absurd (List.mem_append_left _ hm) (h'.not_mem_flow hq)
    · exact hl.before_taken h' hm
  · obtain ⟨i, hi⟩ := index ha
    have leads : s'.Leads a d :=
      hr.keeps (I := fun s => s.Leads a d) (fun s op h _ => h.next op)
        (.inl ⟨h.mem_flow i a hi, hd⟩)
    exact leads.before_taken (inv_of_reachable (hs.run hr)) hm

/-- Two delayed tasks due at 5, an immediate one, and a `take_task` at 7. -/
def delayedRun : List SequenceOp :=
  [.pushDelayedTask (.new (.plain 0)) 5, .pushDelayedTask (.new (.plain 1)) 5,
    .pushTask (.new (.plain 2)), .takeTask 7, .takeTask 7]

theorem queue_law_delayed :
    ∃ s, (sequenceMachine .default).Reachable s ∧
      s.takenTasks.map (·.callback.id) = [2, 0] ∧ s.Lawful .default := by
  have run : (sequenceMachine .default).Follows (fun _ _ => True) (.new .default) delayedRun := by
    decide +kernel
  have hs := Machine.ReachableBy.of_follows rfl run
  exact ⟨_, hs, by decide +kernel, queue_law hs⟩

end SequenceHistory

end RustTask
