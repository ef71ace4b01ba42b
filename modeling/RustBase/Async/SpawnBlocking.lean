import RustBase.Async.Offload

/-!
# Async — spawned jobs

`spawn_blocking(f)` is `spawn(offload(f))`: a task awaits the `Offload`, so the waker in the cell is
the task's, and the waker of the `JoinHandle` is invoked when the task completes.

`AsyncTask` is the `async_task` crate: any implementation whose tasks, seen through `view`, move
between the stages its documentation names.

**`finished_job_resolves_iff`**: whichever way a job is handed over, its end always reaches the
awaiter exactly when the job does not panic.
-/

namespace RustAsync
open Support

/-! ### Tasks -/

/-- Where `async_task` has a task. -/
inductive TaskStage where
  | idle
  /-- its `Runnable` was passed to the schedule function -/
  | scheduled
  /-- `Runnable::run` polls it, and whether its waker was invoked meanwhile -/
  | running (woken : Bool)
  | completed
  deriving DecidableEq

/-- What the documentation of `async_task` says of a task. -/
structure TaskView (T : Type*) where
  stage : TaskStage
  output : Option T
  awaiter : Option WakerId

namespace TaskView

variable {T : Type*}

def spawned : TaskView T := ⟨.scheduled, none, none⟩

def wake (t : TaskView T) : TaskView T :=
  match t.stage with
  | .idle => { t with stage := .scheduled }
  | .running _ => { t with stage := .running true }
  | .scheduled | .completed => t

def run (t : TaskView T) : TaskView T := { t with stage := .running false }

/-- The poll of the future returned `Poll::Pending`. -/
def pending (t : TaskView T) : TaskView T :=
  { t with stage := if t.stage = .running true then .scheduled else .idle }

def complete (_ : TaskView T) (v : T) : TaskView T := ⟨.completed, some v, none⟩

/-- `Task::poll`. -/
def poll (t : TaskView T) (w : WakerId) : TaskView T × Option T :=
  match t.output with
  | some v => ({ t with output := none }, some v)
  | none => ({ t with awaiter := some w }, none)

end TaskView

/-- An implementation of `async_task` that behaves as documented. -/
structure AsyncTask (T : Type*) where
  State : Type*
  view : State → TaskView T
  spawn : State
  wake : State → State
  run : State → State
  pending : State → State
  /-- the poll returned the output; the waker is the awaiter's -/
  complete : State → T → State × Option WakerId
  poll : State → WakerId → State × Option T
  view_spawn : view spawn = .spawned
  view_wake : ∀ t, view (wake t) = (view t).wake
  view_run : ∀ t, view (run t) = (view t).run
  view_pending : ∀ t, view (pending t) = (view t).pending
  view_complete : ∀ t v, view (complete t v).1 = (view t).complete v
  complete_awaiter : ∀ t v, (complete t v).2 = (view t).awaiter
  view_poll : ∀ t w, view (poll t w).1 = ((view t).poll w).1
  poll_output : ∀ t w, (poll t w).2 = ((view t).poll w).2

/-- The tasks that are what the documentation says of them. -/
def AsyncTask.documented (T : Type*) : AsyncTask T where
  State := TaskView T
  view t := t
  spawn := .spawned
  wake := .wake
  run := .run
  pending := .pending
  complete t v := (t.complete v, t.awaiter)
  poll := TaskView.poll
  view_spawn := rfl
  view_wake _ := rfl
  view_run _ := rfl
  view_pending _ := rfl
  view_complete _ _ := rfl
  complete_awaiter _ _ := rfl
  view_poll _ _ := rfl
  poll_output _ _ := rfl

/-- The waker `Runnable::run` polls the task with. -/
def taskWaker : WakerId := 0

/-- The acts of the pool worker that has the job. -/
def HandoverAct.ofPool {T : Type*} : HandoverAct T → Bool
  | .start | .finish | .store _ | .wake _ => true
  | .poll _ | .check _ | .drop => false

/-- A waker is invoked. -/
def HandoverAct.wakes {T : Type*} : HandoverAct T → Bool
  | .wake (some _) => true
  | _ => false

/-! ### The machine -/

/-- `spawn(offload(f))`. -/
structure SpawnBlocking {T : Type*} (A : AsyncTask T) where
  inner : Handover T
  task : A.State
  /-- the awaiter of the task that completed, until it is woken -/
  notifying : Option WakerId
  /-- the `JoinHandle` -/
  handle : Polled T

inductive SpawnAct (T : Type*) where
  /-- `Runnable::run` begins to poll the `Offload` -/
  | run
  /-- that poll locks the cell and returns -/
  | check
  | pool (a : HandoverAct T)
  | notify (w : WakerId)
  /-- a poll of the `JoinHandle` -/
  | await (w : WakerId)
  | detach

namespace SpawnBlocking

variable {T : Type*} {A : AsyncTask T} (f : Job T)

def init (A : AsyncTask T) : SpawnBlocking A := ⟨.init .offload, A.spawn, none, .unpolled⟩

def stage (s : SpawnBlocking A) : TaskStage := (A.view s.task).stage

def Enabled (s : SpawnBlocking A) : SpawnAct T → Prop
  | .run => s.stage = .scheduled
  | .check => s.inner.future = .polling taskWaker
  | .pool a => a.ofPool = true ∧ s.inner.Enabled f a
  | .notify w => s.notifying = some w
  | .await _ | .detach => s.handle.resting = true

def next (s : SpawnBlocking A) : SpawnAct T → SpawnBlocking A
  | .run => { s with inner := s.inner.next f (.poll taskWaker), task := A.run s.task }
  | .check =>
      let inner := s.inner.next f (.check taskWaker)
      match inner.future with
      | .ready v =>
          { s with inner, task := (A.complete s.task v).1, notifying := (A.complete s.task v).2 }
      | _ => { s with inner, task := A.pending s.task }
  | .pool a =>
      { s with inner := s.inner.next f a, task := if a.wakes then A.wake s.task else s.task }
  | .notify w => { s with notifying := none, handle := s.handle.invoke (some w) }
  | .await w =>
      { s with
        task := (A.poll s.task w).1
        handle := match (A.poll s.task w).2 with
          | some v => .ready v
          | none => .pending w false }
  | .detach => { s with handle := .dropped }

end SpawnBlocking

def spawnBlockingMachine {T : Type*} (A : AsyncTask T) (f : Job T) :
    Machine (SpawnBlocking A) (SpawnAct T) where
  Init s := s = .init A
  Enabled s := s.Enabled f
  next s := s.next f

namespace SpawnBlocking

variable {T : Type*} {A : AsyncTask T} {f : Job T} {s : SpawnBlocking A}

/-- The task is polled, or about to be. -/
def Polling (s : SpawnBlocking A) : Prop := s.stage = .scheduled ∨ ∃ b, s.stage = .running b

/-- The value of the job is on its way to the task: a poll of the task will find it in the cell, or
the thread that ran the job is about to wake the task for it. -/
def Delivering (s : SpawnBlocking A) : Prop :=
  (∃ v, s.inner.job = .returned v) ∧ (s.inner.cell.waker = some taskWaker ∨ s.Polling) ∨
    s.inner.job = .waking (some taskWaker) ∨ s.inner.cell.value.isSome = true ∧ s.Polling

/-- The waker of the awaiter is about to be invoked. -/
def AboutToWake (s : SpawnBlocking A) (w : WakerId) : Prop :=
  s.notifying = some w ∨ (A.view s.task).awaiter = some w ∧ s.Delivering

def Resolved (s : SpawnBlocking A) : Prop :=
  s.inner.job.ended = true → ∀ w b, s.handle = .pending w b → b = true ∨ s.AboutToWake w

/-- What the stage of the task says of the `Offload`. -/
def Staged : TaskStage → Polled T → Prop
  | .idle, p => p = .pending taskWaker false
  | .scheduled, p => p = .unpolled ∨ ∃ b, p = .pending taskWaker b
  | .running _, p => p = .polling taskWaker
  | .completed, p => ∃ v, p = .ready v

/-- The `Offload` of a task that is not complete is neither ready nor dropped. -/
theorem Staged.live {t : TaskStage} {p : Polled T} (h : Staged t p) (ht : t ≠ .completed) :
    (∀ v, p ≠ .ready v) ∧ p ≠ .dropped := by
  cases t with
  | idle => rw [show p = _ from h]; simp
  | scheduled => rcases h with rfl | ⟨b, rfl⟩ <;> simp
  | running b => rw [show p = _ from h]; simp
  | completed => exact absurd rfl ht

structure Inv (s : SpawnBlocking A) : Prop where
  inner : s.inner.Inv
  staged : Staged s.stage s.inner.future
  no_output : s.stage ≠ .completed → (A.view s.task).output = none
  output : s.stage = .completed → (A.view s.task).output.isSome = true ∨ s.handle.resting = false
  awaited : ∀ w b, s.handle = .pending w b → b = true ∨
    (s.stage = .completed ∧ s.notifying = some w ∨
      s.stage ≠ .completed ∧ (A.view s.task).awaiter = some w)

@[simp] theorem TaskView.output_wake (t : TaskView T) : t.wake.output = t.output := by
  unfold TaskView.wake
  split <;> rfl

@[simp] theorem TaskView.awaiter_wake (t : TaskView T) : t.wake.awaiter = t.awaiter := by
  unfold TaskView.wake
  split <;> rfl

theorem TaskView.completed_wake (t : TaskView T) :
    t.wake.stage = .completed ↔ t.stage = .completed := by
  obtain ⟨stage, output, awaiter⟩ := t
  cases stage <;> simp [TaskView.wake]

/-- A waker the pool worker invokes is the task's, so an idle task is scheduled. -/
theorem Staged.invoke {t : TaskView T} {h : Handover T} {o : Option WakerId} (hi : h.Inv)
    (hj : h.job = .waking o) (hs : Staged t.stage h.future) :
    Staged (if o.isSome then t.wake else t).stage (h.future.invoke o) := by
  obtain ⟨job, cell, future⟩ := h
  obtain rfl : job = .waking o := hj
  obtain ⟨stage, output, awaiter⟩ := t
  cases stage with
  | idle =>
      obtain rfl : future = .pending taskWaker false := hs
      obtain rfl : o = some taskWaker := (hi.2 _ _ rfl).2
      exact .inr ⟨_, rfl⟩
  | scheduled =>
      rcases hs with rfl | ⟨b, rfl⟩
      · cases o <;> exact .inl rfl
      · cases o <;> exact .inr ⟨_, rfl⟩
  | running b =>
      obtain rfl : future = .polling taskWaker := hs
      cases o <;> rfl
  | completed =>
      obtain ⟨v, rfl⟩ := hs
      cases o <;> exact ⟨v, rfl⟩

namespace Inv

theorem init (A : AsyncTask T) : Inv (.init A) where
  inner := .init .offload
  staged := by
    simp only [stage, SpawnBlocking.init, A.view_spawn]
    exact .inl rfl
  no_output _ := by simp only [SpawnBlocking.init, A.view_spawn, TaskView.spawned]
  output h := by simp [stage, SpawnBlocking.init, A.view_spawn, TaskView.spawned] at h
  awaited w b h := by cases h

/-- Steps of the task and of the worker that neither complete the task nor touch its awaiter. -/
theorem step (h : s.Inv) {inner : Handover T} {task : A.State} (hi : inner.Inv)
    (hs : Staged (A.view task).stage inner.future)
    (hc : (A.view task).stage = .completed ↔ s.stage = .completed)
    (ho : (A.view task).output = (A.view s.task).output)
    (ha : (A.view task).awaiter = (A.view s.task).awaiter) : Inv { s with inner, task } where
  inner := hi
  staged := hs
  no_output hn := ho.trans (h.no_output fun e => hn (hc.mpr e))
  output hn := by
    rcases h.output (hc.mp hn) with hs | hr
    · exact .inl (by rw [ho]; exact hs)
    · exact .inr hr
  awaited w b hw := by
    rcases h.awaited w b hw with hb | ⟨hd, hn⟩ | ⟨hd, haw⟩
    · exact .inl hb
    · exact .inr (.inl ⟨hc.mpr hd, hn⟩)
    · exact .inr (.inr ⟨fun e => hd (hc.mp e), ha.trans haw⟩)

/-- While a poll is under way, or none has begun, the task is not complete. -/
theorem not_completed (h : s.Inv) (hf : ∀ v, s.inner.future ≠ .ready v) :
    s.stage ≠ .completed := by
  intro hc
  have hst := h.staged
  rw [hc] at hst
  obtain ⟨v, hv⟩ := hst
  exact hf v hv

theorem run (h : s.Inv) (hs : s.stage = .scheduled) : (s.next f .run).Inv := by
  have resting : s.inner.future.resting = true := by
    have hst := h.staged
    rw [hs] at hst
    rcases hst with hf | ⟨b, hf⟩ <;> rw [hf] <;> rfl
  have view : A.view (A.run s.task) = (A.view s.task).run := A.view_run _
  refine h.step (h.inner.poll (f := f) resting taskWaker) ?_ ?_ ?_ ?_
  · rw [view]; rfl
  · rw [view, hs]
    constructor <;> intro e <;> cases e
  · rw [view]; rfl
  · rw [view]; rfl

/-- A poll of the task that finds no value leaves it to be woken, or to be polled again. -/
theorem check_pending (h : s.Inv) (hf : s.inner.future = .polling taskWaker)
    (hp : (s.inner.next f (.check taskWaker)).future = .pending taskWaker false) :
    (s.next f .check).Inv := by
  have eq : s.next f .check =
      { s with inner := s.inner.next f (.check taskWaker), task := A.pending s.task } := by
    simp only [SpawnBlocking.next, hp]
  have view : A.view (A.pending s.task) = (A.view s.task).pending := A.view_pending _
  have before : s.stage ≠ .completed := h.not_completed fun v hv => by rw [hf] at hv; cases hv
  rw [eq]
  refine h.step (h.inner.check hf) ?_ ?_ ?_ ?_
  · rw [view, hp]
    simp only [TaskView.pending]
    split
    · exact .inr ⟨false, rfl⟩
    · rfl
  · refine ⟨fun hc => ?_, fun hc => absurd hc before⟩
    rw [view] at hc
    simp only [TaskView.pending] at hc
    split at hc <;> cases hc
  · rw [view]; rfl
  · rw [view]; rfl

/-- A poll of the task that finds the value completes it, and takes the awaiter. -/
theorem check_ready (h : s.Inv) (hf : s.inner.future = .polling taskWaker) {v : T}
    (hv : (s.inner.next f (.check taskWaker)).future = .ready v) : (s.next f .check).Inv := by
  have eq : s.next f .check =
      { s with
        inner := s.inner.next f (.check taskWaker)
        task := (A.complete s.task v).1
        notifying := (A.complete s.task v).2 } := by
    simp only [SpawnBlocking.next, hv]
  have before : s.stage ≠ .completed := h.not_completed fun v hv => by rw [hf] at hv; cases hv
  have view : A.view (A.complete s.task v).1 = ⟨.completed, some v, none⟩ := A.view_complete _ _
  rw [eq]
  refine ⟨h.inner.check (f := f) hf, ?_, fun hn => ?_, fun _ => ?_, fun w b hw => ?_⟩
  · simp only [stage, view]
    exact ⟨v, hv⟩
  · simp only [stage, view, ne_eq, not_true_eq_false] at hn
  · simp only [view, Option.isSome_some, true_or]
  · rcases h.awaited w b hw with hb | ⟨hd, -⟩ | ⟨-, haw⟩
    · exact .inl hb
    · exact absurd hd before
    · refine .inr (.inl ⟨?_, (A.complete_awaiter _ _).trans haw⟩)
      simp only [stage, view]

theorem check (h : s.Inv) (hf : s.inner.future = .polling taskWaker) :
    (s.next f .check).Inv := by
  cases hv : s.inner.cell.value with
  | some v =>
      refine h.check_ready (v := v) hf ?_
      simp [Handover.next, Handover.check, ResultCell.poll, hv]
  | none =>
      refine h.check_pending hf ?_
      simp [Handover.next, Handover.check, ResultCell.poll, hv]

theorem pool (h : s.Inv) (hf : f ≠ .panics) {a : HandoverAct T} (hp : a.ofPool = true)
    (ha : s.inner.Enabled f a) : (s.next f (.pool a)).Inv := by
  have inner := h.inner.next hf ha
  cases a with
  | poll _ | check _ | drop => cases hp
  | start | finish | store _ => exact h.step inner h.staged Iff.rfl rfl rfl
  | wake o =>
      have staged := h.staged.invoke h.inner ha
      cases o with
      | none => exact h.step inner staged Iff.rfl rfl rfl
      | some w =>
          have view : A.view (A.wake s.task) = (A.view s.task).wake := A.view_wake _
          change Inv { s with inner := s.inner.next f (.wake (some w)), task := A.wake s.task }
          refine h.step inner ?_ ?_ ?_ ?_
          · rw [view]; exact staged
          · rw [view]; exact TaskView.completed_wake _
          · rw [view]; exact TaskView.output_wake _
          · rw [view]; exact TaskView.awaiter_wake _

theorem notify (h : s.Inv) {w : WakerId} (hn : s.notifying = some w) :
    (s.next f (.notify w)).Inv := by
  refine ⟨h.inner, h.staged, h.no_output, fun hc => (h.output hc).imp_right fun hr => ?_, ?_⟩
  · cases hh : s.handle with
    | pending _ _ | unpolled => rw [hh] at hr; cases hr
    | polling _ | ready _ | dropped => simp only [SpawnBlocking.next, hh]; rfl
  · intro w' b hw
    cases hh : s.handle with
    | pending w'' b' =>
        simp only [SpawnBlocking.next, hh, Polled.invoke, Polled.pending.injEq] at hw
        obtain ⟨rfl, rfl⟩ := hw
        rcases h.awaited w'' b' hh with hb | ⟨-, hn'⟩ | haw
        · exact .inl (by simp [hb])
        · obtain rfl : w = w'' := Option.some.inj (hn.symm.trans hn')
          exact .inl (by simp)
        · exact .inr (.inr haw)
    | unpolled | polling _ | ready _ | dropped =>
        simp only [SpawnBlocking.next, hh, Polled.invoke] at hw
        cases hw

theorem await (h : s.Inv) (hr : s.handle.resting = true) (w : WakerId) :
    (s.next f (.await w)).Inv := by
  have view : A.view (A.poll s.task w).1 = ((A.view s.task).poll w).1 := A.view_poll _ _
  cases ho : (A.view s.task).output with
  | some v =>
      have out : (A.poll s.task w).2 = some v := by
        rw [A.poll_output]; simp [TaskView.poll, ho]
      have view' : A.view (A.poll s.task w).1 = { A.view s.task with output := none } := by
        rw [view]; simp [TaskView.poll, ho]
      have ready : (s.next f (.await w)).handle = .ready v := by simp only [SpawnBlocking.next, out]
      refine ⟨h.inner, ?_, fun _ => ?_, fun _ => .inr (by rw [ready]; rfl), fun w' b hw => ?_⟩
      · simp only [stage, SpawnBlocking.next, view']; exact h.staged
      · simp only [SpawnBlocking.next, view']
      · rw [ready] at hw; cases hw
  | none =>
      have out : (A.poll s.task w).2 = none := by
        rw [A.poll_output]; simp [TaskView.poll, ho]
      have view' : A.view (A.poll s.task w).1 = { A.view s.task with awaiter := some w } := by
        rw [view]; simp [TaskView.poll, ho]
      have parked : (s.next f (.await w)).handle = .pending w false := by
        simp only [SpawnBlocking.next, out]
      have before : s.stage ≠ .completed := by
        intro hc
        rcases h.output hc with hs | hn
        · rw [ho] at hs; cases hs
        · rw [hr] at hn; cases hn
      have same : (s.next f (.await w)).stage = s.stage := by
        simp only [stage, SpawnBlocking.next, view']
      refine ⟨h.inner, ?_, fun _ => ?_, fun hc => ?_, fun w' b hw => ?_⟩
      · rw [same]; exact h.staged
      · simp only [SpawnBlocking.next, view']; exact ho
      · rw [same] at hc; exact absurd hc before
      · rw [parked] at hw
        cases hw
        refine .inr (.inr ⟨by rw [same]; exact before, ?_⟩)
        simp only [SpawnBlocking.next, view']

theorem next (hf : f ≠ .panics) (h : s.Inv) {a : SpawnAct T} (ha : s.Enabled f a) :
    (s.next f a).Inv := by
  cases a with
  | run => exact h.run ha
  | check => exact h.check ha
  | pool a => exact h.pool hf ha.1 ha.2
  | notify w => exact h.notify ha
  | await w => exact h.await ha w
  | detach =>
      refine ⟨h.inner, h.staged, h.no_output, fun _ => .inr rfl, fun w b hw => ?_⟩
      cases hw

/-- What the job returned is on its way to a task that is not complete. -/
theorem delivering (h : s.Inv) (he : s.inner.job.ended = true) (hc : s.stage ≠ .completed) :
    s.Delivering := by
  obtain ⟨hr, hd⟩ := h.staged.live hc
  have polled (hp : s.Polling) : s.Delivering := by
    rcases h.inner.value_of_ended he hr hd with hv | hv
    · exact .inl ⟨hv, .inr hp⟩
    · exact .inr (.inr ⟨hv, hp⟩)
  have staged := h.staged
  cases hs : s.stage with
  | idle =>
      rw [hs] at staged
      rcases h.inner.resolved he _ _ staged with hb | ⟨hv, hw⟩ | hw
      · cases hb
      · exact .inl ⟨hv, .inl hw⟩
      · exact .inr (.inl hw)
  | scheduled => exact polled (.inl hs)
  | running b => exact polled (.inr ⟨b, hs⟩)
  | completed => exact absurd hs hc

theorem resolved (h : s.Inv) : s.Resolved := by
  intro he w b hp
  rcases h.awaited w b hp with hb | ⟨-, hn⟩ | ⟨hc, haw⟩
  · exact .inl hb
  · exact .inr (.inl hn)
  · exact .inr (.inr ⟨haw, h.delivering he hc⟩)

end Inv

theorem inv_of_reachable (hf : f ≠ .panics) (h : (spawnBlockingMachine A f).Reachable s) :
    s.Inv := by
  refine h.invariant (I := Inv) (fun s hi => ?_) fun _ _ _ hi _ ha => hi.next hf ha
  obtain rfl : s = .init A := hi
  exact .init A

/-- The task waits for the job, the awaiter for the task, and the job panics. -/
def panicRun : List (SpawnAct T) := [.run, .check, .await 1, .pool .start, .pool .finish]

theorem not_resolved_of_panics (A : AsyncTask T) :
    ∃ s : SpawnBlocking A, (spawnBlockingMachine A .panics).Reachable s ∧ s.inner.Lost ∧
      ¬ s.Resolved := by
  have hi : (spawnBlockingMachine A .panics).Init (.init A) := rfl
  have ends : (Job.panics : Job T) ≠ .diverges := by
    intro h
    cases h
  have spawned : (SpawnBlocking.init A).stage = .scheduled := congrArg _ A.view_spawn
  -- the task has no output when the `JoinHandle` is polled
  have waits : (A.poll (A.pending (A.run A.spawn)) 1).2 = none := by
    rw [A.poll_output, A.view_pending, A.view_run, A.view_spawn]
    rfl
  have ended : (spawnBlockingMachine A .panics).runList (.init A) panicRun =
      ⟨⟨.panicked, ⟨none, some taskWaker⟩, .pending taskWaker false⟩,
        (A.poll (A.pending (A.run A.spawn)) 1).1, none,
        match (A.poll (A.pending (A.run A.spawn)) 1).2 with
        | some v => .ready v
        | none => .pending 1 false⟩ := rfl
  have run := Machine.ReachableBy.of_follows (C := fun _ _ => True) (l := panicRun) hi
    ⟨trivial, spawned, trivial, rfl, trivial, rfl, trivial, ⟨rfl, rfl⟩, trivial,
      ⟨rfl, rfl, ends⟩, trivial⟩
  rw [ended, waits] at run
  refine ⟨_, run, ⟨rfl, rfl, fun v hf => by cases hf⟩, fun h => ?_⟩
  rcases h rfl 1 false rfl with hb | hn | ⟨-, ⟨⟨v, hv⟩, -⟩ | hw | ⟨hv, -⟩⟩
  · cases hb
  · cases hn
  · cases hv
  · cases hw
  · cases hv

theorem resolves_iff (A : AsyncTask T) (f : Job T) :
    (∀ s, (spawnBlockingMachine A f).Reachable s → s.Resolved) ↔ f ≠ .panics := by
  refine ⟨?_, fun hf s hs => (inv_of_reachable hf hs).resolved⟩
  rintro h rfl
  obtain ⟨s, hs, -, hn⟩ := not_resolved_of_panics A
  exact hn (h s hs)

end SpawnBlocking

/-- **The end of a job reaches the awaiter exactly when the job does not panic**, whichever of
`offload`, `fs_blocking` and `spawn_blocking` it was handed to. -/
theorem finished_job_resolves_iff {T : Type*} (f : Job T) :
    (∀ p, (∀ s, (handoverMachine p f).Reachable s → s.Resolved) ↔ f ≠ .panics) ∧
      ∀ A : AsyncTask T,
        (∀ s, (spawnBlockingMachine A f).Reachable s → s.Resolved) ↔ f ≠ .panics :=
  ⟨fun p => Handover.resolves_iff p f, fun A => SpawnBlocking.resolves_iff A f⟩

/-- A job that panics while its future is pending. -/
theorem panicking_job_not_resolved :
    (∀ p, ∃ s, (handoverMachine p (.panics : Job ℕ)).Reachable s ∧ s.Lost ∧ ¬ s.Resolved) ∧
      ∃ s, (spawnBlockingMachine (.documented ℕ) .panics).Reachable s ∧ s.inner.Lost ∧
        ¬ s.Resolved :=
  ⟨Handover.not_resolved_of_panics, SpawnBlocking.not_resolved_of_panics _⟩

end RustAsync
