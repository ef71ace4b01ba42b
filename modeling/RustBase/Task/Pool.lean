import RustBase.Support.Machine
import RustBase.Task.Sequence

/-!
# Task — the thread pool

The whole pool as a machine: the threads that post, the workers of `worker_loop`, the timer thread
of `timer_loop`, the threads that call `ThreadPool::shutdown`, and the objects they share.  A thread
is at a phase, the point of the source it has reached; a step is one critical section, one atomic
access or one system event, and any thread may take the next one.

* A worker that is handed a source goes through `will_run_task`, `take_task`, the callback and
  `did_process_task`, whose store and whose readiness check are two steps.
* A post is a thread of its own, also when a running callback makes it: its steps interleave with
  everything, the callback's own steps included.
* `push_task_source` pushes under the lock and notifies after it, so a notification is a step of its
  own; so it is in `add_sequence`, `join_all` and `DelayedTaskManager::shutdown`.
* The clock only moves forward (`tick`), and every `Instant::now()` reads it.
* A callback may unwind (`callbackPanics`), which ends its worker; `NoPanic` are the steps that do
  not.

Reference counts, the `TaskMonitor` and the thread-local environment of a worker are left out: no
branch of these functions depends on them (`ReplyPool` adds what replies need of them).  `log` is a
history variable: no step reads it.
-/

namespace RustTask
open Support

abbrev Tid := ℕ

/-- A sequence by its address. -/
abbrev SeqId := ℕ

/-! ### The shared objects -/

/-- `QueueEntry`: `TaskSourceSortKey` and the source. -/
structure QueueEntry where
  priority : TaskPriority
  readyTime : Instant
  taskSource : SeqId
  deriving DecidableEq

/-- `Ord for QueueEntry`: higher priority is greater; at equal priority the earlier one is. -/
def QueueEntry.Le (a b : QueueEntry) : Prop :=
  a.priority.rank < b.priority.rank ∨
    a.priority.rank = b.priority.rank ∧ b.readyTime ≤ a.readyTime

instance : DecidableRel QueueEntry.Le := fun _ _ => inferInstanceAs (Decidable (_ ∨ _ ∧ _))

/-- `ThreadGroup`, with the `BinaryHeap` of its `PriorityQueue` as the list of its entries. -/
structure ThreadGroup where
  priorityQueue : List QueueEntry
  handles : List Tid
  condvar : Condvar Tid
  shutdown : Bool

structure DelayedEntry where
  readyTime : Instant
  id : ℕ
  sequence : SeqId
  deriving DecidableEq

/-- `Ord for DelayedEntry`. -/
abbrev DelayedEntry.Le : DelayedEntry → DelayedEntry → Prop :=
  LexLe DelayedEntry.readyTime DelayedEntry.id

/-- `DelayedTaskManager`; only the timer thread waits on its condition variable. -/
structure DelayedTaskManager where
  heap : MinHeap DelayedEntry DelayedEntry.Le
  handle : Bool
  condvar : Condvar Unit
  shutdown : Bool

structure TaskTracker where
  shutdownStarted : Bool
  numTasksBlockingShutdown : ℕ
  shutdownDone : Condvar Tid

namespace TaskTracker

def new : TaskTracker := ⟨false, 0, .new⟩

def willPostTask (x : TaskTracker) (traits : TaskTraits) : Bool × TaskTracker :=
  if x.shutdownStarted then
    (traits.shutdownBehavior = .continueOnShutdown, x)
  else if traits.shutdownBehavior = .blockShutdown then
    (true, { x with numTasksBlockingShutdown := x.numTasksBlockingShutdown + 1 })
  else (true, x)

def afterRunTask (x : TaskTracker) (traits : TaskTraits) : TaskTracker :=
  if traits.shutdownBehavior = .blockShutdown then
    let n := x.numTasksBlockingShutdown - 1
    { x with
      numTasksBlockingShutdown := n
      shutdownDone := if n = 0 then x.shutdownDone.notifyAll else x.shutdownDone }
  else x

end TaskTracker

/-! ### The phases of the threads -/

/-- How far a callback has come: called; inside the poster's closure; that closure has returned. -/
inductive Stage where
  | entered
  | body
  | returned
  deriving DecidableEq

/-- A thread in `worker_loop`. -/
inductive WorkerPhase where
  | off
  /-- in `get_work`, at the top of its loop -/
  | getWork
  /-- in `condvar.wait` -/
  | waiting
  /-- has the source; `will_run_task` is next -/
  | popped (q : SeqId)
  /-- has claimed the sequence; `take_task` is next -/
  | claimed (q : SeqId)
  /-- has taken a task; calling it is next -/
  | took (q : SeqId) (t : Task)
  | running (q : SeqId) (t : Task) (stage : Stage)
  /-- the store of `did_process_task` is next -/
  | ran (q : SeqId)
  /-- the check of `did_process_task` is next -/
  | cleared (q : SeqId)
  /-- the check was true; pushing the source again is next -/
  | rePush (q : SeqId)
  | notifying
  | exited
  /-- unwound out of the callback `t` -/
  | dead (q : SeqId) (t : Task)
  deriving DecidableEq

/-- The thread has ended: `join` returns. -/
def WorkerPhase.ended : WorkerPhase → Bool
  | .exited | .dead _ _ => true
  | _ => false

/-- Where a post puts its task: a `Sequence` of its own, or a sequenced runner's. -/
inductive Dest where
  | own (traits : TaskTraits)
  | runner (q : SeqId)
  deriving DecidableEq

/-- A thread that posts. -/
inductive PosterPhase where
  | idle
  /-- `will_post_task` is next -/
  | gate (traits : TaskTraits) (id : ℕ) (delay : Option ℕ)
  /-- `Instant::now() + delay` is next -/
  | readClock (dest : Dest) (callback : Callback) (delay : ℕ)
  /-- `push_task`, or `push_delayed_task` at the given time, is next -/
  | push (dest : Dest) (callback : Callback) (readyTime : Option Instant)
  | pushSource (q : SeqId)
  | addSequence (q : SeqId) (readyTime : Instant)
  | notifyGroup
  | notifyTimer
  | panicked
  deriving DecidableEq

/-- A posting function after its gate: the delayed ones read the clock first. -/
def PosterPhase.deliver (dest : Dest) (callback : Callback) : Option ℕ → PosterPhase
  | none => .push dest callback none
  | some delay => .readClock dest callback delay

/-- The thread in `timer_loop`. -/
inductive TimerPhase where
  | top
  | waiting
  /-- in `wait_timeout`, with the timeout and the clock reading it was computed from -/
  | timedWaiting (timeout : ℕ) (now : Instant)
  | pushSource (q : SeqId)
  | notifying
  | exited
  deriving DecidableEq

/-- In one of the two waits of `timer_loop`. -/
def TimerPhase.inWait : TimerPhase → Bool
  | .waiting | .timedWaiting _ _ => true
  | _ => false

/-- A thread in `ThreadPool::shutdown`. -/
inductive CloserPhase where
  | idle
  /-- `TaskTracker::shutdown`: the first critical section is next -/
  | mark
  /-- `TaskTracker::shutdown`: the test of the `while` loop is next -/
  | await
  /-- `TaskTracker::shutdown`: in `shutdown_done.wait` -/
  | waiting
  /-- `join_all`: the store to the shutdown flag is next -/
  | joinSet
  | joinNotify
  | joinTake
  | joining (handles : List Tid)
  /-- `DelayedTaskManager::shutdown`: setting `shutdown` is next -/
  | timerSet
  | timerNotify
  | timerTake
  | timerJoin (handle : Bool)
  | returned
  deriving DecidableEq

/-- The way a task is posted: `ThreadPool::post_task`, a `PooledParallelTaskRunner` or a
`PooledSequencedTaskRunner`. -/
inductive Path where
  | pool (traits : TaskTraits)
  | parallel (traits : TaskTraits)
  | sequenced (q : SeqId)
  deriving DecidableEq

inductive Event where
  /-- the post `id` was let in: `will_post_task` was true, or a runner took it -/
  | accepted (id : ℕ) (path : Path)
  /-- the post `id` returned `false` -/
  | rejected (id : ℕ)
  /-- `push_task` gave the task the number `n` in `q` -/
  | pushed (q : SeqId) (n : ℕ)
  | pushedDelayed (q : SeqId) (n : ℕ) (readyTime : Instant)
  /-- a worker called the callback of task `n` of `q` -/
  | started (w : Tid) (q : SeqId) (n : ℕ)
  /-- the poster's closure began -/
  | ran (id : ℕ)
  /-- the wrapper returned without calling the poster's closure -/
  | skipped (id : ℕ)
  /-- the boxed callback returned -/
  | finished (id : ℕ)
  deriving DecidableEq

structure Pool where
  seqs : SeqId → Sequence
  nextSeq : SeqId
  /-- the sequences that a `PooledSequencedTaskRunner` owns -/
  runners : List SeqId
  group : ThreadGroup
  delayed : DelayedTaskManager
  nextEntryId : ℕ
  tracker : TaskTracker
  clock : Instant
  nextPost : ℕ
  workers : Tid → WorkerPhase
  posters : Tid → PosterPhase
  timer : TimerPhase
  closers : Tid → CloserPhase
  log : List Event

namespace Pool

/-- `ThreadPool::new(n)`. -/
def new (n : ℕ) : Pool where
  seqs := fun _ => .new .default
  nextSeq := 0
  runners := []
  group := ⟨[], List.range n, .new, false⟩
  delayed := ⟨.empty, true, .new, false⟩
  nextEntryId := 0
  tracker := .new
  clock := 0
  nextPost := 0
  workers := fun w => if w < n then .getWork else .off
  posters := fun _ => .idle
  timer := .top
  closers := fun _ => .idle
  log := []

def setSeq (s : Pool) (q : SeqId) (x : Sequence) : Pool :=
  { s with seqs := Function.update s.seqs q x }

theorem seqs_setSeq_self (s : Pool) (q : SeqId) (x : Sequence) : (s.setSeq q x).seqs q = x :=
  Function.update_self ..

theorem seqs_setSeq_of_ne {s : Pool} {q r : SeqId} {x : Sequence} (h : r ≠ q) :
    (s.setSeq q x).seqs r = s.seqs r :=
  Function.update_of_ne h ..

def setWorker (s : Pool) (w : Tid) (x : WorkerPhase) : Pool :=
  { s with workers := Function.update s.workers w x }

def setPoster (s : Pool) (p : Tid) (x : PosterPhase) : Pool :=
  { s with posters := Function.update s.posters p x }

def setTimer (s : Pool) (x : TimerPhase) : Pool := { s with timer := x }

def setCloser (s : Pool) (c : Tid) (x : CloserPhase) : Pool :=
  { s with closers := Function.update s.closers c x }

def emit (s : Pool) (e : Event) : Pool := { s with log := s.log ++ [e] }

/-- `Arc::new(Sequence::new(traits))`, at the next free address. -/
def newSequence (s : Pool) (traits : TaskTraits) : Pool :=
  { s with nextSeq := s.nextSeq + 1 }.setSeq s.nextSeq (.new traits)

/-- The critical section of `push_task_source`: `get_sort_key` reads the clock. -/
def pushTaskSource (s : Pool) (q : SeqId) : Pool :=
  { s with group := { s.group with
      priorityQueue := ⟨(s.seqs q).traits.priority, s.clock, q⟩ :: s.group.priorityQueue } }

/-- `condvar.notify_one()` on the group's condition variable. -/
def notifyGroup (s : Pool) (choice : Option Tid) : Pool :=
  { s with group := { s.group with condvar := s.group.condvar.notifyOne choice } }

/-- `condvar.notify_one()` on the timer's condition variable. -/
def notifyTimer (s : Pool) : Pool :=
  { s with delayed := { s.delayed with condvar := s.delayed.condvar.notifyAll } }

/-! ### The worker -/

/-- The steps of `worker_loop`. -/
inductive WorkerAct where
  /-- `run_worker_on_current_thread` -/
  | attach
  | getWorkExit
  | getWorkPop (e : QueueEntry)
  | getWorkWait
  | wakeSpuriously
  | resume
  | willRunTask (q : SeqId)
  | takeTask (q : SeqId)
  | callTask (q : SeqId) (t : Task)
  | enterCallback (q : SeqId) (t : Task)
  | callbackReturns (q : SeqId) (t : Task)
  | callbackPanics (q : SeqId) (t : Task)
  | afterRunTask (q : SeqId) (t : Task)
  | clearHasWorker (q : SeqId)
  | didProcessTask (q : SeqId)
  | rePush (q : SeqId)
  | notify (choice : Option Tid)
  deriving DecidableEq

def WorkerEnabled (s : Pool) (w : Tid) : WorkerAct → Prop
  | .attach => s.workers w = .off
  | .getWorkExit => s.workers w = .getWork ∧ s.group.shutdown = true
  | .getWorkPop e =>
      s.workers w = .getWork ∧ s.group.shutdown = false ∧
        IsTop QueueEntry.Le s.group.priorityQueue e
  | .getWorkWait =>
      s.workers w = .getWork ∧ s.group.shutdown = false ∧ s.group.priorityQueue = []
  | .wakeSpuriously => w ∈ s.group.condvar.waiters
  | .resume => s.workers w = .waiting ∧ w ∉ s.group.condvar.waiters
  | .willRunTask q => s.workers w = .popped q
  | .takeTask q => s.workers w = .claimed q
  | .callTask q t => s.workers w = .took q t
  | .enterCallback q t => s.workers w = .running q t .entered
  | .callbackReturns q t | .callbackPanics q t => s.workers w = .running q t .body
  | .afterRunTask q t => s.workers w = .running q t .returned
  | .clearHasWorker q => s.workers w = .ran q
  | .didProcessTask q => s.workers w = .cleared q
  | .rePush q => s.workers w = .rePush q
  | .notify c => s.workers w = .notifying ∧ s.group.condvar.CanNotify c

instance (s : Pool) (w : Tid) : ∀ a, Decidable (s.WorkerEnabled w a)
  | .attach | .willRunTask _ | .takeTask _ | .callTask _ _ | .enterCallback _ _
  | .callbackReturns _ _ | .callbackPanics _ _ | .afterRunTask _ _ | .clearHasWorker _
  | .didProcessTask _ | .rePush _ => inferInstanceAs (Decidable (_ = _))
  | .getWorkExit | .resume | .notify _ => inferInstanceAs (Decidable (_ ∧ _))
  | .getWorkPop _ | .getWorkWait => inferInstanceAs (Decidable (_ ∧ _ ∧ _))
  | .wakeSpuriously => inferInstanceAs (Decidable (_ ∈ _))

/-- The first instructions of a callback.  `ThreadPool::wrap`'s closure reads `shutdown_started` and
may return at once; any other callback is the poster's closure. -/
def enterCallback (s : Pool) (w : Tid) (q : SeqId) (t : Task) : Pool :=
  match t.callback with
  | .wrapped traits id =>
      if s.tracker.shutdownStarted ∧ traits.shutdownBehavior = .skipOnShutdown then
        ((s.setWorker w (.ran q)).emit (.skipped id)).emit (.finished id)
      else (s.setWorker w (.running q t .body)).emit (.ran id)
  | .plain id => (s.setWorker w (.running q t .body)).emit (.ran id)

/-- The poster's closure returns: to `ThreadPool::wrap`'s closure, or to `worker_loop`. -/
def callbackReturns (s : Pool) (w : Tid) (q : SeqId) (t : Task) : Pool :=
  match t.callback with
  | .wrapped _ _ => s.setWorker w (.running q t .returned)
  | .plain id => (s.setWorker w (.ran q)).emit (.finished id)

/-- `tracker.after_run_task(&traits)`, the last instruction of `ThreadPool::wrap`'s closure. -/
def afterRunTask (s : Pool) (w : Tid) (q : SeqId) (t : Task) : Pool :=
  match t.callback with
  | .wrapped traits id =>
      ({ s with tracker := s.tracker.afterRunTask traits }.setWorker w (.ran q)).emit (.finished id)
  | .plain _ => s

def workerNext (s : Pool) (w : Tid) : WorkerAct → Pool
  | .attach => s.setWorker w .getWork
  | .getWorkExit => s.setWorker w .exited
  | .getWorkPop e =>
      { s with group := { s.group with
          priorityQueue := s.group.priorityQueue.erase e } }.setWorker w (.popped e.taskSource)
  | .getWorkWait =>
      { s with group := { s.group with
          condvar := s.group.condvar.wait w } }.setWorker w .waiting
  | .wakeSpuriously =>
      { s with group := { s.group with condvar := s.group.condvar.wake w } }
  | .resume => s.setWorker w .getWork
  | .willRunTask q =>
      let (status, x) := (s.seqs q).willRunTask
      (s.setSeq q x).setWorker w (match status with
        | .disallowed => .getWork
        | _ => .claimed q)
  | .takeTask q =>
      let (task, x) := (s.seqs q).takeTask s.clock
      (s.setSeq q x).setWorker w (match task with
        | some t => .took q t
        | none => .ran q)
  | .callTask q t => (s.setWorker w (.running q t .entered)).emit (.started w q t.sequenceNum)
  | .enterCallback q t => s.enterCallback w q t
  | .callbackReturns q t => s.callbackReturns w q t
  | .callbackPanics q t => s.setWorker w (.dead q t)
  | .afterRunTask q t => s.afterRunTask w q t
  | .clearHasWorker q => (s.setSeq q (s.seqs q).clearHasWorker).setWorker w (.cleared q)
  | .didProcessTask q =>
      s.setWorker w (if (s.seqs q).didProcessTask s.clock then .rePush q else .getWork)
  | .rePush q => (s.pushTaskSource q).setWorker w .notifying
  | .notify c => (s.notifyGroup c).setWorker w .getWork

/-! ### The poster -/

inductive PosterAct where
  /-- enters one of the six posting functions; `delay` makes it a `post_delayed_task` -/
  | post (path : Path) (delay : Option ℕ)
  | willPostTask (traits : TaskTraits) (id : ℕ) (delay : Option ℕ)
  | readyTime (dest : Dest) (callback : Callback) (delay : ℕ)
  | push (dest : Dest) (callback : Callback) (readyTime : Option Instant)
  | pushSource (q : SeqId)
  | addSequence (q : SeqId) (readyTime : Instant)
  | notifyGroup (choice : Option Tid)
  | notifyTimer
  deriving DecidableEq

def PosterEnabled (s : Pool) (p : Tid) : PosterAct → Prop
  | .post path _ => s.posters p = .idle ∧ (match path with
      | .sequenced q => q ∈ s.runners
      | _ => True)
  | .willPostTask traits id delay => s.posters p = .gate traits id delay
  | .readyTime dest cb delay => s.posters p = .readClock dest cb delay
  | .push dest cb r => s.posters p = .push dest cb r
  | .pushSource q => s.posters p = .pushSource q
  | .addSequence q r => s.posters p = .addSequence q r
  | .notifyGroup c => s.posters p = .notifyGroup ∧ s.group.condvar.CanNotify c
  | .notifyTimer => s.posters p = .notifyTimer

instance (s : Pool) (p : Tid) : ∀ a, Decidable (s.PosterEnabled p a)
  | .post (.sequenced _) _ => inferInstanceAs (Decidable (_ ∧ _ ∈ _))
  | .post (.pool _) _ | .post (.parallel _) _ => inferInstanceAs (Decidable (_ ∧ True))
  | .willPostTask _ _ _ | .readyTime _ _ _ | .push _ _ _ | .pushSource _ | .addSequence _ _
  | .notifyTimer => inferInstanceAs (Decidable (_ = _))
  | .notifyGroup _ => inferInstanceAs (Decidable (_ ∧ _))

/-- The first instructions of a posting function.  `ThreadPool`'s own go through the tracker and
wrap the callback; the runners' do neither. -/
def post (s : Pool) (p : Tid) (path : Path) (delay : Option ℕ) : Pool :=
  let id := s.nextPost
  let s := { s with nextPost := id + 1 }
  match path with
  | .pool traits => s.setPoster p (.gate traits id delay)
  | .parallel traits =>
      (s.setPoster p (.deliver (.own traits) (.plain id) delay)).emit (.accepted id path)
  | .sequenced q =>
      (s.setPoster p (.deliver (.runner q) (.plain id) delay)).emit (.accepted id path)

def willPostTask (s : Pool) (p : Tid) (traits : TaskTraits) (id : ℕ) (delay : Option ℕ) : Pool :=
  let (ok, tracker) := s.tracker.willPostTask traits
  if ok then
    ({ s with tracker := tracker }.setPoster p
      (.deliver (.own traits) (.wrapped traits id) delay)).emit (.accepted id (.pool traits))
  else ({ s with tracker := tracker }.setPoster p .idle).emit (.rejected id)

/-- The sequence a post pushes to.  A sequence of the post's own is made here: until its source is
pushed no other thread has it. -/
def destSeq (s : Pool) : Dest → SeqId
  | .own _ => s.nextSeq
  | .runner q => q

def openDest (s : Pool) : Dest → Pool
  | .own traits => s.newSequence traits
  | .runner _ => s

def pushTask (s : Pool) (p : Tid) (dest : Dest) (callback : Callback) (ready : Option Instant) :
    Pool :=
  let q := s.destSeq dest
  let s := s.openDest dest
  let x := s.seqs q
  match ready with
  | none =>
      ((s.setSeq q (x.pushTask (.new callback))).setPoster p (.pushSource q)).emit
        (.pushed q x.nextSequenceNum)
  | some r =>
      ((s.setSeq q (x.pushDelayedTask (.new callback) r)).setPoster p (.addSequence q r)).emit
        (.pushedDelayed q x.nextSequenceNum r)

def posterNext (s : Pool) (p : Tid) : PosterAct → Pool
  | .post path delay => s.post p path delay
  | .willPostTask traits id delay => s.willPostTask p traits id delay
  | .readyTime dest cb delay =>
      s.setPoster p (match instantAdd s.clock delay with
        | some r => .push dest cb (some r)
        | none => .panicked)
  | .push dest cb r => s.pushTask p dest cb r
  | .pushSource q => (s.pushTaskSource q).setPoster p .notifyGroup
  | .addSequence q r =>
      { s with
        nextEntryId := s.nextEntryId + 1
        delayed := { s.delayed with heap := s.delayed.heap.push ⟨r, s.nextEntryId, q⟩ } }.setPoster
        p .notifyTimer
  | .notifyGroup c => (s.notifyGroup c).setPoster p .idle
  | .notifyTimer => s.notifyTimer.setPoster p .idle

/-! ### The timer thread -/

inductive TimerAct where
  | exit
  | wait
  | pop (e : DelayedEntry)
  | waitTimeout (e : DelayedEntry)
  /-- the timeout of `wait_timeout`, or a spurious wake-up -/
  | wakeUp
  | resume
  | pushSource (q : SeqId)
  | notify (choice : Option Tid)
  deriving DecidableEq

def TimerEnabled (s : Pool) : TimerAct → Prop
  | .exit => s.timer = .top ∧ s.delayed.shutdown = true
  | .wait => s.timer = .top ∧ s.delayed.shutdown = false ∧ s.delayed.heap.peek = none
  | .pop e =>
      s.timer = .top ∧ s.delayed.shutdown = false ∧ s.delayed.heap.peek = some e ∧
        e.readyTime ≤ s.clock
  | .waitTimeout e =>
      s.timer = .top ∧ s.delayed.shutdown = false ∧ s.delayed.heap.peek = some e ∧
        s.clock < e.readyTime
  | .wakeUp => () ∈ s.delayed.condvar.waiters
  | .resume => s.timer.inWait = true ∧ () ∉ s.delayed.condvar.waiters
  | .pushSource q => s.timer = .pushSource q
  | .notify c => s.timer = .notifying ∧ s.group.condvar.CanNotify c

instance (s : Pool) : ∀ a, Decidable (s.TimerEnabled a)
  | .exit | .resume | .notify _ => inferInstanceAs (Decidable (_ ∧ _))
  | .wait => inferInstanceAs (Decidable (_ ∧ _ ∧ _))
  | .pop _ | .waitTimeout _ => inferInstanceAs (Decidable (_ ∧ _ ∧ _ ∧ _))
  | .wakeUp => inferInstanceAs (Decidable (_ ∈ _))
  | .pushSource _ => inferInstanceAs (Decidable (_ = _))

/-- The timer thread blocks. -/
def timerBlock (s : Pool) (x : TimerPhase) : Pool :=
  { s with delayed := { s.delayed with condvar := s.delayed.condvar.wait () } }.setTimer x

def timerNext (s : Pool) : TimerAct → Pool
  | .exit => s.setTimer .exited
  | .wait => s.timerBlock .waiting
  | .pop e =>
      { s with delayed := { s.delayed with heap := s.delayed.heap.pop } }.setTimer
        (.pushSource e.sequence)
  | .waitTimeout e => s.timerBlock (.timedWaiting (e.readyTime - s.clock) s.clock)
  | .wakeUp => { s with delayed := { s.delayed with condvar := s.delayed.condvar.wake () } }
  | .resume => s.setTimer .top
  | .pushSource q => (s.pushTaskSource q).setTimer .notifying
  | .notify c => (s.notifyGroup c).setTimer .top

/-! ### Shutdown -/

inductive CloserAct where
  | shutdown
  | mark
  | waitDone
  | wakeSpuriously
  | resume
  | doneWaiting
  | joinSet
  | joinNotify
  | joinTake
  | join (w : Tid) (handles : List Tid)
  | joined
  | timerSet
  | timerNotify
  | timerTake
  | timerJoin (handle : Bool)
  deriving DecidableEq

def CloserEnabled (s : Pool) (c : Tid) : CloserAct → Prop
  | .shutdown => s.closers c = .idle
  | .mark => s.closers c = .mark
  | .waitDone => s.closers c = .await ∧ 0 < s.tracker.numTasksBlockingShutdown
  | .doneWaiting => s.closers c = .await ∧ s.tracker.numTasksBlockingShutdown = 0
  | .wakeSpuriously => c ∈ s.tracker.shutdownDone.waiters
  | .resume => s.closers c = .waiting ∧ c ∉ s.tracker.shutdownDone.waiters
  | .joinSet => s.closers c = .joinSet
  | .joinNotify => s.closers c = .joinNotify
  | .joinTake => s.closers c = .joinTake
  | .join w hs => s.closers c = .joining (w :: hs) ∧ (s.workers w).ended = true
  | .joined => s.closers c = .joining []
  | .timerSet => s.closers c = .timerSet
  | .timerNotify => s.closers c = .timerNotify
  | .timerTake => s.closers c = .timerTake
  | .timerJoin h => s.closers c = .timerJoin h ∧ (h = true → s.timer = .exited)

instance (s : Pool) (c : Tid) : ∀ a, Decidable (s.CloserEnabled c a)
  | .shutdown | .mark | .joinSet | .joinNotify | .joinTake | .joined | .timerSet | .timerNotify
  | .timerTake => inferInstanceAs (Decidable (_ = _))
  | .waitDone | .doneWaiting | .resume | .join _ _ => inferInstanceAs (Decidable (_ ∧ _))
  | .wakeSpuriously => inferInstanceAs (Decidable (_ ∈ _))
  | .timerJoin _ => inferInstanceAs (Decidable (_ ∧ (_ → _)))

/-- The first critical section of `TaskTracker::shutdown`. -/
def markShutdown (s : Pool) (c : Tid) : Pool :=
  { s with tracker := { s.tracker with shutdownStarted := true } }.setCloser c
    (if s.tracker.numTasksBlockingShutdown = 0 then .joinSet else .await)

def closerNext (s : Pool) (c : Tid) : CloserAct → Pool
  | .shutdown => s.setCloser c .mark
  | .mark => s.markShutdown c
  | .waitDone =>
      { s with tracker := { s.tracker with
          shutdownDone := s.tracker.shutdownDone.wait c } }.setCloser c .waiting
  | .wakeSpuriously =>
      { s with tracker := { s.tracker with shutdownDone := s.tracker.shutdownDone.wake c } }
  | .resume => s.setCloser c .await
  | .doneWaiting => s.setCloser c .joinSet
  | .joinSet => { s with group := { s.group with shutdown := true } }.setCloser c .joinNotify
  | .joinNotify =>
      { s with group := { s.group with
          condvar := s.group.condvar.notifyAll } }.setCloser c .joinTake
  | .joinTake =>
      { s with group := { s.group with handles := [] } }.setCloser c (.joining s.group.handles)
  | .join _ hs => s.setCloser c (.joining hs)
  | .joined => s.setCloser c .timerSet
  | .timerSet => { s with delayed := { s.delayed with shutdown := true } }.setCloser c .timerNotify
  | .timerNotify => s.notifyTimer.setCloser c .timerTake
  | .timerTake =>
      { s with delayed := { s.delayed with handle := false } }.setCloser c
        (.timerJoin s.delayed.handle)
  | .timerJoin _ => s.setCloser c .returned

/-! ### The machine -/

inductive Action where
  | worker (w : Tid) (a : WorkerAct)
  | poster (p : Tid) (a : PosterAct)
  | timer (a : TimerAct)
  | closer (c : Tid) (a : CloserAct)
  /-- `create_sequenced_task_runner` -/
  | createRunner (traits : TaskTraits)
  | tick (d : ℕ)
  deriving DecidableEq

def Enabled (s : Pool) : Action → Prop
  | .worker w a => s.WorkerEnabled w a
  | .poster p a => s.PosterEnabled p a
  | .timer a => s.TimerEnabled a
  | .closer c a => s.CloserEnabled c a
  | .createRunner _ | .tick _ => True

instance (s : Pool) : ∀ a, Decidable (s.Enabled a)
  | .worker w a => inferInstanceAs (Decidable (s.WorkerEnabled w a))
  | .poster p a => inferInstanceAs (Decidable (s.PosterEnabled p a))
  | .timer a => inferInstanceAs (Decidable (s.TimerEnabled a))
  | .closer c a => inferInstanceAs (Decidable (s.CloserEnabled c a))
  | .createRunner _ | .tick _ => inferInstanceAs (Decidable True)

def createRunner (s : Pool) (traits : TaskTraits) : Pool :=
  { s.newSequence traits with runners := s.nextSeq :: s.runners }

def next (s : Pool) : Action → Pool
  | .worker w a => s.workerNext w a
  | .poster p a => s.posterNext p a
  | .timer a => s.timerNext a
  | .closer c a => s.closerNext c a
  | .createRunner traits => s.createRunner traits
  | .tick d => { s with clock := s.clock + d }

end Pool

/-- The pool with any number of built-in workers. -/
def poolMachine : Machine Pool Pool.Action where
  Init := fun s => ∃ n, s = Pool.new n
  Enabled := Pool.Enabled
  next := Pool.next

instance : ∀ s a, Decidable (poolMachine.Enabled s a) :=
  fun s a => inferInstanceAs (Decidable (s.Enabled a))

/-- The step is a callback that unwinds. -/
def Pool.Action.panics : Pool.Action → Bool
  | .worker _ (.callbackPanics _ _) => true
  | _ => false

/-- No callback unwinds. -/
def NoPanic (_ : Pool) (a : Pool.Action) : Prop := a.panics = false

instance : ∀ s a, Decidable (NoPanic s a) := fun _ _ => inferInstanceAs (Decidable (_ = _))

end RustTask
