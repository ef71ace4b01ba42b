import Mathlib.Algebra.Group.Nat.Defs
import RustBase.Support.Structures

/-!
# Task — traits, tasks and sequences

The data of `rust_task`: the traits a task is posted with, a task as a posted callback, and the
`Sequence`, the queue of tasks that run one at a time.

A callback is opaque: it is the number of the post it came with, and whether `ThreadPool::wrap` put
the shutdown bookkeeping around it.  Instants and durations are nanoseconds, and `instantAdd` is
`Instant + Duration`, which panics when the sum is not representable.

`BinaryHeap<Reverse<DelayedTask>>` is a `MinHeap` for the order of `Ord for DelayedTask`: earlier
`ready_time` first, then smaller `sequence_num`.
-/

namespace RustTask
open Support

/-! ### Traits -/

inductive TaskPriority where
  | bestEffort
  | userVisible
  | userBlocking
  deriving DecidableEq

inductive TaskShutdownBehavior where
  | continueOnShutdown
  | skipOnShutdown
  | blockShutdown
  deriving DecidableEq

inductive ThreadPolicy where
  | preferBackground
  | mustUseForeground
  deriving DecidableEq

structure TaskTraits where
  priority : TaskPriority
  shutdownBehavior : TaskShutdownBehavior
  threadPolicy : ThreadPolicy
  mayBlock : Bool
  deriving DecidableEq

/-- `impl Default for TaskTraits`. -/
def TaskTraits.default : TaskTraits where
  priority := .userVisible
  shutdownBehavior := .skipOnShutdown
  threadPolicy := .preferBackground
  mayBlock := false

/-- `#[derive(Ord)]` orders the variants as they are written. -/
def TaskPriority.rank : TaskPriority → ℕ
  | .bestEffort => 0
  | .userVisible => 1
  | .userBlocking => 2

/-! ### Time -/

/-- Nanoseconds since some origin. -/
abbrev Instant := ℕ

/-- The largest `Instant`: `i64` seconds and the nanoseconds below the next one. -/
def instantMax : Instant := (2 ^ 63 - 1) * 10 ^ 9 + 999999999

/-- `Instant + Duration`; `none` is the panic on overflow. -/
def instantAdd (now delay : ℕ) : Option Instant :=
  if now + delay ≤ instantMax then some (now + delay) else none

/-! ### Tasks -/

/-- A boxed callback: the poster's closure, known by the number of its post, or that closure inside
the one `ThreadPool::wrap` builds. -/
inductive Callback where
  | plain (id : ℕ)
  | wrapped (traits : TaskTraits) (id : ℕ)
  deriving DecidableEq

namespace Callback

def id : Callback → ℕ
  | plain i | wrapped _ i => i

/-- The callback counts as blocking shutdown until `after_run_task`. -/
def blocks : Callback → Bool
  | plain _ => false
  | wrapped t _ => t.shutdownBehavior = .blockShutdown

end Callback

/-- `Task`, less the `posted_from` and `delayed_run_time` that nothing reads. -/
structure Task where
  callback : Callback
  sequenceNum : ℕ
  deriving DecidableEq

/-- `Task::new`. -/
def Task.new (callback : Callback) : Task := ⟨callback, 0⟩

structure DelayedTask where
  readyTime : Instant
  sequenceNum : ℕ
  task : Task
  deriving DecidableEq

/-- `Ord for DelayedTask`. -/
abbrev DelayedTask.Le : DelayedTask → DelayedTask → Prop :=
  LexLe DelayedTask.readyTime DelayedTask.sequenceNum

inductive RunStatus where
  | disallowed
  | allowedNotSaturated
  | allowedSaturated
  deriving DecidableEq

/-! ### Sequences -/

/-- `Sequence` and its `SequenceInner`. -/
structure Sequence where
  immediateQueue : List Task
  delayedQueue : MinHeap DelayedTask DelayedTask.Le
  nextSequenceNum : ℕ
  hasWorker : Bool
  traits : TaskTraits

namespace Sequence

def new (traits : TaskTraits) : Sequence where
  immediateQueue := []
  delayedQueue := .empty
  nextSequenceNum := 0
  hasWorker := false
  traits := traits

def pushTask (x : Sequence) (task : Task) : Sequence :=
  { x with
    nextSequenceNum := x.nextSequenceNum + 1
    immediateQueue := x.immediateQueue ++ [{ task with sequenceNum := x.nextSequenceNum }] }

def pushDelayedTask (x : Sequence) (task : Task) (readyTime : Instant) : Sequence :=
  { x with
    nextSequenceNum := x.nextSequenceNum + 1
    delayedQueue := x.delayedQueue.push
      ⟨readyTime, x.nextSequenceNum, { task with sequenceNum := x.nextSequenceNum }⟩ }

/-- Moves the expired delayed tasks, earliest first, to the end of the immediate queue. -/
def flushReadyDelayedTasks (x : Sequence) (now : Instant) : Sequence :=
  let (ready, rest) := x.delayedQueue.popWhile (fun d => d.readyTime ≤ now)
  { x with
    delayedQueue := rest
    immediateQueue := x.immediateQueue ++ ready.map DelayedTask.task }

def hasReadyTasks (x : Sequence) (now : Instant) : Bool :=
  !x.immediateQueue.isEmpty || x.delayedQueue.peek.any (fun d => d.readyTime ≤ now)

/-- The swap on `has_worker`. -/
def willRunTask (x : Sequence) : RunStatus × Sequence :=
  (if x.hasWorker then .disallowed else .allowedNotSaturated, { x with hasWorker := true })

def takeTask (x : Sequence) (now : Instant) : Option Task × Sequence :=
  let x := x.flushReadyDelayedTasks now
  (x.immediateQueue.head?, { x with immediateQueue := x.immediateQueue.tail })

/-- The first half of `did_process_task`: the store that clears `has_worker`. -/
def clearHasWorker (x : Sequence) : Sequence := { x with hasWorker := false }

/-- The second half of `did_process_task`, with the inner lock held. -/
def didProcessTask (x : Sequence) (now : Instant) : Bool :=
  !x.immediateQueue.isEmpty || x.delayedQueue.peek.any (fun d => d.readyTime ≤ now)

/-- `x` holds a task that is ready at `now`. -/
def Ready (x : Sequence) (now : Instant) : Prop :=
  x.immediateQueue ≠ [] ∨ ∃ d ∈ x.delayedQueue, d.readyTime ≤ now

/-- The readiness check looks at the earliest delayed task only, which is enough. -/
theorem didProcessTask_iff {x : Sequence} {now : Instant} :
    x.didProcessTask now = true ↔ x.Ready now := by
  have peek_iff : x.delayedQueue.peek.any (fun d => decide (d.readyTime ≤ now)) = true ↔
      ∃ d ∈ x.delayedQueue, d.readyTime ≤ now := by
    refine ⟨fun h => ?_, fun ⟨d, hd, hr⟩ => ?_⟩
    · cases hp : x.delayedQueue.peek with
      | none => rw [hp] at h; cases h
      | some d => rw [hp] at h; exact ⟨d, MinHeap.mem_of_peek hp, of_decide_eq_true h⟩
    · obtain ⟨m, hm, hle⟩ := MinHeap.peek_le hd
      have hmr : m.readyTime ≤ now := hle.fst_le.trans hr
      simp [hm, hmr]
  simp [didProcessTask, Ready, peek_iff]

end Sequence

end RustTask
