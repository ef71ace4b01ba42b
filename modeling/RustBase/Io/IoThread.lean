import RustBase.Io.EpollPump
import RustBase.Support.Structures
import RustBase.Task.Sequence

/-!
# Io — the IO thread

`IoTaskRunner` driven by `EpollMessagePump::run`, as a machine: the IO thread, the threads that post
to it or stop it, and what the rest of the process does to descriptors and watches.

* The phases of the IO thread follow `run` and `do_work`.  The two loops of `do_work`, the peek at
  the next deadline, the test of `quit` and the computation of the timeout are steps of their own.
* A batch of events is handled one event at a time.  The event of the eventfd is the drain; another
  one is looked up by its descriptor, and its calls are made one after the other.
* While a task or a callback runs, the IO thread may call `register_fd` any number of times.  Its
  `epoll_ctl` and its insertion are two steps (`registering` is between them).
* `unregister_fd` is one critical section and is called by any thread at any time, with any
  generation; descriptors are closed, and their numbers reused, at any time; a watcher is dropped at
  any time.
* `epoll_wait` reports descriptors of the interest list with events of their mask, or an error; or
  nothing at a timeout; or is interrupted; or fails.

`snapshot` (the table when `epoll_wait` returned last) and `log` are history variables.
-/

namespace RustIo
open Support RustTask

abbrev ThreadId := ℕ

/-! ### The runner -/

/-- `DelayedTask` of `io_task_runner.rs`; the callback is known by its post. -/
structure IoDelayedTask where
  deadline : Instant
  id : ℕ
  deriving DecidableEq

/-- `Ord for DelayedTask`: the earlier deadline is the greater one. -/
def IoDelayedTask.Le (a b : IoDelayedTask) : Prop := b.deadline ≤ a.deadline

instance : DecidableRel IoDelayedTask.Le := fun _ _ => inferInstanceAs (Decidable (_ ≤ _))

/-- The queues of `IoTaskRunner`; the heap is the list of its elements. -/
structure IoTaskRunner where
  tasks : List ℕ
  delayedTasks : List IoDelayedTask
  shutdown : Bool

/-- The deadline `do_work` returns. -/
def IoTaskRunner.nextDeadline (x : IoTaskRunner) : Option Instant :=
  (x.delayedTasks.map IoDelayedTask.deadline).min?

/-- Nanoseconds of a millisecond. -/
def millisecond : ℕ := 1000000

/-- `timeout_ms`: -1 waits for ever. -/
def timeoutMs (deadline : Option Instant) (now : Instant) : ℤ :=
  match deadline with
  | none => -1
  | some d => if d ≤ now then 0 else (min ((d - now) / millisecond) (2 ^ 31 - 1) : ℕ)

/-! ### The phases -/

/-- The IO thread. -/
inductive IoPhase where
  /-- `do_work`: `tasks.pop_front()` is next -/
  | immediate
  | runTask (id : ℕ)
  /-- `do_work`: `Instant::now()` of the second loop is next -/
  | delayedNow
  /-- `do_work`: the critical section of the second loop is next -/
  | delayedPop (now : Instant)
  | runDelayed (id : ℕ)
  /-- `do_work`: the last critical section is next -/
  | peek
  | quitCheck (deadline : Option Instant)
  | timeout (deadline : Option Instant)
  /-- in `epoll_wait`, with the timeout and the clock reading it was computed from -/
  | wait (timeout : ℤ) (now : Instant)
  /-- the events still to be handled -/
  | batch (evs : List EpollEvent)
  /-- the calls still to be made for an event, and the events after it -/
  | calls (cs : List Call) (evs : List EpollEvent)
  | inCallback (c : Call) (cs : List Call) (evs : List EpollEvent)
  | exited
  deriving DecidableEq

/-- Code of the runner's users is running. -/
def IoPhase.userCode : IoPhase → Bool
  | .runTask _ | .runDelayed _ | .inCallback _ _ _ => true
  | _ => false

/-- The events of the batch that are still to be handled. -/
def IoPhase.pendingEvents : IoPhase → List EpollEvent
  | .batch evs | .calls _ evs | .inCallback _ _ evs => evs
  | _ => []

/-- A thread that posts to the runner, or stops it. -/
inductive IoPosterPhase where
  | idle
  | push (id : ℕ)
  /-- `Instant::now() + delay` is next -/
  | readClock (id : ℕ) (delay : ℕ)
  | pushDelayed (t : IoDelayedTask)
  /-- the task is pushed; `schedule_work` is next -/
  | write
  /-- `quit`: the store is next -/
  | quitStore
  | quitWrite
  | panicked
  deriving DecidableEq

inductive IoEvent where
  | registered (fd : Fd) (e : WatchEntry)
  /-- `unregister_fd` returned `true` -/
  | cancelled (fd : Fd) (generation : ℕ)
  /-- the dispatch loop removed a one-shot entry whose watcher was alive -/
  | consumed (fd : Fd) (e : WatchEntry)
  | called (c : Call)
  | ran (id : ℕ)
  deriving DecidableEq

structure IoState where
  wakeFd : Fd
  table : WatchTable
  kernel : Kernel
  quit : Bool
  runner : IoTaskRunner
  alive : WatcherId → Bool
  clock : Instant
  nextId : ℕ
  phase : IoPhase
  registering : Option (Fd × WatchEntry)
  posters : ThreadId → IoPosterPhase
  snapshot : Fd → Option WatchEntry
  log : List IoEvent

namespace IoState

/-- `IoTaskRunner::new`, with the descriptors that are open then. -/
def new (wakeFd : Fd) (isOpen : Fd → Bool) : IoState where
  wakeFd := wakeFd
  table := .new
  kernel := ⟨isOpen, Function.update (fun _ => none) wakeFd (some epollIn), 0⟩
  quit := false
  runner := ⟨[], [], false⟩
  alive := fun _ => true
  clock := 0
  nextId := 0
  phase := .immediate
  registering := none
  posters := fun _ => .idle
  snapshot := fun _ => none
  log := []

def setPhase (s : IoState) (x : IoPhase) : IoState := { s with phase := x }

def setPoster (s : IoState) (p : ThreadId) (x : IoPosterPhase) : IoState :=
  { s with posters := Function.update s.posters p x }

def emit (s : IoState) (e : IoEvent) : IoState := { s with log := s.log ++ [e] }

/-! ### The IO thread -/

inductive IoAct where
  | popTask
  | taskReturns (id : ℕ)
  | readNow
  | popDelayed (now : Instant) (t : IoDelayedTask)
  | noDelayed (now : Instant)
  | delayedReturns (id : ℕ)
  | peek
  | checkQuit (deadline : Option Instant)
  | computeTimeout (deadline : Option Instant)
  | epollReturns (timeout : ℤ) (now : Instant) (evs : List EpollEvent)
  | epollInterrupted (timeout : ℤ) (now : Instant)
  | epollFails (timeout : ℤ) (now : Instant)
  | handle (ev : EpollEvent) (evs : List EpollEvent)
  | endBatch
  | call (c : Call) (cs : List Call) (evs : List EpollEvent)
  | endCalls (evs : List EpollEvent)
  | callbackReturns (c : Call) (cs : List Call) (evs : List EpollEvent)
  /-- `register_fd` up to its `epoll_ctl`, which succeeds or not -/
  | registerCtl (fd : Fd) (persistent : Bool) (mode : WatchMode) (watcher : WatcherId) (ok : Bool)
  | registerInsert (fd : Fd) (e : WatchEntry)
  deriving DecidableEq

/-- An event as `epoll_wait` may report it: of a descriptor on the interest list, with events of its
mask or an error; of the eventfd only while its counter is not zero. -/
def Reported (s : IoState) (ev : EpollEvent) : Prop :=
  (∃ mask ∈ s.kernel.interest ev.fd, Reportable mask ev.events) ∧
    (ev.fd = s.wakeFd → s.kernel.eventfd ≠ 0)

instance (s : IoState) (ev : EpollEvent) : Decidable (s.Reported ev) :=
  inferInstanceAs (Decidable ((∃ mask ∈ s.kernel.interest ev.fd, _) ∧ (_ → _)))

def IoEnabled (s : IoState) : IoAct → Prop
  | .popTask => s.phase = .immediate
  | .taskReturns id => s.phase = .runTask id ∧ s.registering = none
  | .readNow => s.phase = .delayedNow
  | .popDelayed now t => s.phase = .delayedPop now ∧
      IsTop IoDelayedTask.Le s.runner.delayedTasks t ∧ t.deadline ≤ now
  | .noDelayed now => s.phase = .delayedPop now ∧ ∀ t ∈ s.runner.delayedTasks, now < t.deadline
  | .delayedReturns id => s.phase = .runDelayed id ∧ s.registering = none
  | .peek => s.phase = .peek
  | .checkQuit d => s.phase = .quitCheck d
  | .computeTimeout d => s.phase = .timeout d
  | .epollReturns t now evs => s.phase = .wait t now ∧ (evs = [] → 0 ≤ t) ∧ evs.length ≤ 64 ∧
      (evs.map EpollEvent.fd).Nodup ∧ ∀ ev ∈ evs, s.Reported ev
  | .epollInterrupted t now | .epollFails t now => s.phase = .wait t now
  | .handle ev evs => s.phase = .batch (ev :: evs)
  | .endBatch => s.phase = .batch []
  | .call c cs evs => s.phase = .calls (c :: cs) evs
  | .endCalls evs => s.phase = .calls [] evs
  | .callbackReturns c cs evs => s.phase = .inCallback c cs evs ∧ s.registering = none
  | .registerCtl fd _ _ _ ok => s.phase.userCode = true ∧ s.registering = none ∧ fd ≠ s.wakeFd ∧
      (ok = true → s.kernel.isOpen fd = true)
  | .registerInsert fd e => s.registering = some (fd, e)

instance (s : IoState) : ∀ a, Decidable (s.IoEnabled a)
  | .popTask | .readNow | .peek | .checkQuit _ | .computeTimeout _ | .epollInterrupted _ _
  | .epollFails _ _ | .handle _ _ | .endBatch | .call _ _ _ | .endCalls _ | .registerInsert _ _ =>
      inferInstanceAs (Decidable (_ = _))
  | .taskReturns _ | .delayedReturns _ | .callbackReturns _ _ _ =>
      inferInstanceAs (Decidable (_ ∧ _))
  | .popDelayed _ _ => inferInstanceAs (Decidable (_ ∧ IsTop _ _ _ ∧ _))
  | .noDelayed _ => inferInstanceAs (Decidable (_ ∧ ∀ t ∈ _, _ < _))
  | .epollReturns _ _ evs =>
      inferInstanceAs (Decidable (_ ∧ (_ → _) ∧ _ ∧ _ ∧ ∀ ev ∈ evs, s.Reported ev))
  | .registerCtl _ _ _ _ _ => inferInstanceAs (Decidable (_ ∧ _ ∧ _ ∧ (_ → _)))

/-- The critical section of the dispatch loop for an event of a watched descriptor. -/
def dispatch (s : IoState) (ev : EpollEvent) (evs : List EpollEvent) : IoState :=
  match s.table.watches ev.fd with
  | none => s.setPhase (.batch evs)
  | some e =>
      let watcher := s.alive e.watcher
      let s := if e.persistent then s
        else { s with table := s.table.remove ev.fd, kernel := s.kernel.ctlDel ev.fd }
      let s := if !e.persistent && watcher then s.emit (.consumed ev.fd e) else s
      s.setPhase (.calls (if watcher then calls ev.fd ev.events e else []) evs)

def ioNext (s : IoState) : IoAct → IoState
  | .popTask =>
      match s.runner.tasks with
      | [] => s.setPhase .delayedNow
      | id :: ids =>
          ({ s with runner := { s.runner with tasks := ids } }.setPhase (.runTask id)).emit
            (.ran id)
  | .taskReturns _ => s.setPhase .immediate
  | .readNow => s.setPhase (.delayedPop s.clock)
  | .popDelayed _ t =>
      ({ s with runner := { s.runner with
          delayedTasks := s.runner.delayedTasks.erase t } }.setPhase (.runDelayed t.id)).emit
        (.ran t.id)
  | .noDelayed _ => s.setPhase .peek
  | .delayedReturns _ => s.setPhase .delayedNow
  | .peek => s.setPhase (.quitCheck s.runner.nextDeadline)
  | .checkQuit d => s.setPhase (if s.quit then .exited else .timeout d)
  | .computeTimeout d => s.setPhase (.wait (timeoutMs d s.clock) s.clock)
  | .epollReturns _ _ evs => { s with snapshot := s.table.watches }.setPhase (.batch evs)
  | .epollInterrupted _ _ => s.setPhase .immediate
  | .epollFails _ _ => s.setPhase .exited
  | .handle ev evs =>
      if ev.fd = s.wakeFd then { s with kernel := s.kernel.eventfdRead }.setPhase (.batch evs)
      else s.dispatch ev evs
  | .endBatch => s.setPhase .immediate
  | .call c cs evs => (s.setPhase (.inCallback c cs evs)).emit (.called c)
  | .endCalls evs => s.setPhase (.batch evs)
  | .callbackReturns _ cs evs => s.setPhase (.calls cs evs)
  | .registerCtl fd persistent mode watcher ok =>
      let e : WatchEntry := ⟨watcher, persistent, mode, s.table.generationCounter⟩
      let s := { s with table := { s.table with
        generationCounter := s.table.generationCounter + 1 } }
      if ok then
        { s with
          kernel := s.kernel.ctlAdd fd (modeToEpollEvents mode)
          registering := some (fd, e) }
      else s
  | .registerInsert fd e =>
      { s with table := s.table.insert fd e, registering := none }.emit (.registered fd e)

/-! ### The posters -/

inductive IoPosterAct where
  /-- enters `post_task`, or `post_delayed_task` with a delay -/
  | post (delay : Option ℕ)
  | push (id : ℕ)
  | readClock (id : ℕ) (delay : ℕ)
  | pushDelayed (t : IoDelayedTask)
  | write
  /-- enters `IoTaskRunner::shutdown`, or its `Drop`, which leaves the flag alone -/
  | stop (flag : Bool)
  | quitStore
  | quitWrite
  deriving DecidableEq

def PosterEnabled (s : IoState) (p : ThreadId) : IoPosterAct → Prop
  | .post _ | .stop _ => s.posters p = .idle
  | .push id => s.posters p = .push id
  | .readClock id delay => s.posters p = .readClock id delay
  | .pushDelayed t => s.posters p = .pushDelayed t
  | .write => s.posters p = .write
  | .quitStore => s.posters p = .quitStore
  | .quitWrite => s.posters p = .quitWrite

instance (s : IoState) (p : ThreadId) : ∀ a, Decidable (s.PosterEnabled p a)
  | .post _ | .stop _ | .push _ | .readClock _ _ | .pushDelayed _ | .write | .quitStore
  | .quitWrite => inferInstanceAs (Decidable (_ = _))

def posterNext (s : IoState) (p : ThreadId) : IoPosterAct → IoState
  | .post delay =>
      if s.runner.shutdown then s
      else { s with nextId := s.nextId + 1 }.setPoster p (match delay with
        | none => .push s.nextId
        | some d => .readClock s.nextId d)
  | .push id =>
      { s with runner := { s.runner with tasks := s.runner.tasks ++ [id] } }.setPoster p .write
  | .readClock id delay => s.setPoster p (match instantAdd s.clock delay with
      | some d => .pushDelayed ⟨d, id⟩
      | none => .panicked)
  | .pushDelayed t =>
      { s with runner := { s.runner with
          delayedTasks := t :: s.runner.delayedTasks } }.setPoster p .write
  | .write => { s with kernel := s.kernel.eventfdWrite }.setPoster p .idle
  | .stop flag =>
      { s with runner := { s.runner with
          shutdown := s.runner.shutdown || flag } }.setPoster p .quitStore
  | .quitStore => { s with quit := true }.setPoster p .quitWrite
  | .quitWrite => { s with kernel := s.kernel.eventfdWrite }.setPoster p .idle

/-! ### The machine -/

inductive Action where
  | io (a : IoAct)
  | poster (p : ThreadId) (a : IoPosterAct)
  /-- `unregister_fd`, by any thread -/
  | unregister (fd : Fd) (generation : ℕ)
  | openFd (fd : Fd)
  | closeFd (fd : Fd)
  | dropWatcher (w : WatcherId)
  | tick (d : ℕ)
  deriving DecidableEq

def Enabled (s : IoState) : Action → Prop
  | .io a => s.IoEnabled a
  | .poster p a => s.PosterEnabled p a
  | .openFd fd => s.kernel.isOpen fd = false
  | .closeFd fd => s.kernel.isOpen fd = true ∧ fd ≠ s.wakeFd
  | .unregister _ _ | .dropWatcher _ | .tick _ => True

instance (s : IoState) : ∀ a, Decidable (s.Enabled a)
  | .io a => inferInstanceAs (Decidable (s.IoEnabled a))
  | .poster p a => inferInstanceAs (Decidable (s.PosterEnabled p a))
  | .openFd _ => inferInstanceAs (Decidable (_ = _))
  | .closeFd _ => inferInstanceAs (Decidable (_ ∧ _))
  | .unregister _ _ | .dropWatcher _ | .tick _ => inferInstanceAs (Decidable True)

def unregister (s : IoState) (fd : Fd) (generation : ℕ) : IoState :=
  if s.table.Matches fd generation then
    { s with table := s.table.remove fd, kernel := s.kernel.ctlDel fd }.emit
      (.cancelled fd generation)
  else s

def next (s : IoState) : Action → IoState
  | .io a => s.ioNext a
  | .poster p a => s.posterNext p a
  | .unregister fd generation => s.unregister fd generation
  | .openFd fd => { s with kernel := s.kernel.openFd fd }
  | .closeFd fd => { s with kernel := s.kernel.closeFd fd }
  | .dropWatcher w => { s with alive := Function.update s.alive w false }
  | .tick d => { s with clock := s.clock + d }

end IoState

/-- The IO thread with any eventfd and any descriptors open at the start. -/
def ioMachine : Machine IoState IoState.Action where
  Init := fun s => ∃ wakeFd isOpen, isOpen wakeFd = true ∧ s = IoState.new wakeFd isOpen
  Enabled := IoState.Enabled
  next := IoState.next

instance : ∀ s a, Decidable (ioMachine.Enabled s a) :=
  fun s a => inferInstanceAs (Decidable (s.Enabled a))

end RustIo
