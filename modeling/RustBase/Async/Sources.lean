import RustBase.Async.Parked

/-!
# Async — many sources on one IO thread

The I/O objects that share a reactor, each with its `Source`; their arm tasks stand in one queue,
and the pump has one table for all of them.  Numbers of descriptors are given out again when they
have been closed.

* Dropping an object closes its descriptor first and drops its `Arc` of the `Source` after that.
  Arm tasks and the dispatch loop have an `Arc` of their own for as long as they last.
* Whoever drops the last one drops the `FdWatchController`, which takes the watch away: a thread,
  between any two steps of the others, or the IO thread.
* An arm task tells the kernel before it takes the lock of the table, as `register_fd` does.

Objects of other reactors only open and close descriptors here: they are never polled.
-/

namespace RustAsync
open Support RustIo

/-- How far the life of an I/O object is. -/
inductive ObjectStage where
  | absent
  | live
  /-- the descriptor is closed; dropping `source` is next -/
  | closed
  /-- the object is gone, and others hold the `Source` -/
  | released
  /-- nobody holds the `Source`; dropping its controller is next -/
  | dropping
  | gone
  deriving DecidableEq

/-- A `Weak` of the source can be upgraded. -/
def ObjectStage.strong : ObjectStage → Bool
  | .live | .closed | .released => true
  | .absent | .dropping | .gone => false

structure IoObject where
  fd : Fd
  stage : ObjectStage
  source : SourceState
  controller : FdWatchController

inductive LoopPhase where
  | idle
  /-- in an arm task; `epoll_ctl` is next -/
  | adding (i : WatcherId) (mode : WatchMode)
  /-- the insertion into the table is next -/
  | inserting (i : WatcherId) (mode : WatchMode) (generation : ℕ)
  /-- the end of an arm task -/
  | leaving (i : WatcherId)
  /-- the calls still to be made -/
  | calling (i : WatcherId) (ds : List Direction)
  | waking (i : WatcherId) (d : Direction) (w : Option WakerId) (ds : List Direction)
  deriving DecidableEq

namespace LoopPhase

/-- The source that the IO thread has an `Arc` of. -/
def holds : LoopPhase → Option WatcherId
  | .idle => none
  | .adding i _ | .inserting i _ _ | .leaving i | .calling i _ | .waking i _ _ _ => some i

/-- The arm task that is not done. -/
def arming : LoopPhase → Option (WatcherId × WatchMode)
  | .adding i mode | .inserting i mode _ => some (i, mode)
  | .idle | .leaving _ | .calling _ _ | .waking _ _ _ _ => none

/-- The source whose registration the kernel knows and the table does not. -/
def staged : LoopPhase → Option WatcherId
  | .inserting i _ _ => some i
  | .idle | .adding _ _ | .leaving _ | .calling _ _ | .waking _ _ _ _ => none

end LoopPhase

structure SourcesState where
  objects : WatcherId → IoObject
  /-- the arm tasks queued -/
  armTasks : List (WatcherId × WatchMode)
  table : WatchTable
  kernel : Kernel
  phase : LoopPhase

inductive SourcesAct where
  /-- a descriptor is opened, and an object made of it -/
  | create (i : WatcherId) (fd : Fd)
  | poll (i : WatcherId) (d : Direction) (w : WakerId)
  | close (i : WatcherId)
  | release (i : WatcherId)
  /-- a thread drops the controller -/
  | unregister (i : WatcherId)
  /-- an arm task begins, and stops its own watch -/
  | armStart (i : WatcherId) (mode : WatchMode) (rest : List (WatcherId × WatchMode))
  | add (i : WatcherId) (mode : WatchMode) (ok : Bool)
  | insert (i : WatcherId) (mode : WatchMode) (generation : ℕ)
  | leave (i : WatcherId)
  | dispatch (fd : Fd) (flags : UInt32)
  | call (i : WatcherId) (d : Direction) (ds : List Direction)
  | wake (i : WatcherId) (d : Direction) (w : Option WakerId) (ds : List Direction)
  | dispatchDone (i : WatcherId)
  deriving DecidableEq

namespace SourcesState

def init (kernel : Kernel) : SourcesState where
  objects _ := ⟨0, .absent, .new, .new⟩
  armTasks := []
  table := .new
  kernel := kernel
  phase := .idle

variable (s : SourcesState)

def fd (i : WatcherId) : Fd := (s.objects i).fd

def source (i : WatcherId) : SourceState := (s.objects i).source

def stage (i : WatcherId) : ObjectStage := (s.objects i).stage

def Enabled : SourcesAct → Prop
  | .create i fd => s.stage i = .absent ∧ s.kernel.isOpen fd = false
  | .poll i _ _ | .close i => s.stage i = .live
  | .release i => s.stage i = .closed
  | .unregister i => s.stage i = .dropping
  | .armStart i mode rest => s.phase = .idle ∧ s.armTasks = (i, mode) :: rest
  | .add i mode ok => s.phase = .adding i mode ∧ (ok = true → s.kernel.isOpen (s.fd i) = true)
  | .insert i mode g => s.phase = .inserting i mode g
  | .leave i => s.phase = .leaving i
  | .dispatch fd flags => s.phase = .idle ∧ ∃ e ∈ s.table.watches fd, meets flags e.mode = true
  | .call i d ds => s.phase = .calling i (d :: ds)
  | .wake i d w ds => s.phase = .waking i d w ds
  | .dispatchDone i => s.phase = .calling i []

instance : ∀ a, Decidable (s.Enabled a)
  | .poll _ _ _ | .close _ | .release _ | .unregister _ | .insert _ _ _ | .leave _ | .call _ _ _
  | .wake _ _ _ _ | .dispatchDone _ => inferInstanceAs (Decidable (_ = _))
  | .create _ _ | .armStart _ _ _ | .add _ _ _ | .dispatch _ _ =>
      inferInstanceAs (Decidable (_ ∧ _))

def setObject (i : WatcherId) (o : IoObject) : SourcesState :=
  { s with objects := Function.update s.objects i o }

/-- `Source::new`. -/
def create (i : WatcherId) (fd : Fd) : SourcesState :=
  { s.setObject i ⟨fd, .live, .new, .new⟩ with kernel := s.kernel.openFd fd }

/-- The state of the source after one of its critical sections, and the arm task it posts. -/
def setSource (i : WatcherId) (x : SourceState) (mode : Option WatchMode) : SourcesState :=
  { s.setObject i { s.objects i with source := x } with
    armTasks := s.armTasks ++ (mode.map (i, ·)).toList }

/-- `stop_watching_file_descriptor` on the controller of the source. -/
def stop (i : WatcherId) : SourcesState :=
  let o := s.objects i
  let (c, table, removed) := o.controller.stopWatchingFileDescriptor s.table
  { s.setObject i { o with controller := c } with
    table := table
    kernel := if removed then s.kernel.ctlDel o.fd else s.kernel }

def setStage (i : WatcherId) (x : ObjectStage) : SourcesState :=
  s.setObject i { s.objects i with stage := x }

def setPhase (p : LoopPhase) : SourcesState := { s with phase := p }

/-- Somebody besides the object holds the source. -/
def Held (i : WatcherId) : Prop := i ∈ s.armTasks.map Prod.fst ∨ s.phase.holds = some i

instance (i : WatcherId) : Decidable (s.Held i) := inferInstanceAs (Decidable (_ ∨ _))

/-- The IO thread drops its `Arc`. -/
def letGo (i : WatcherId) : SourcesState :=
  let s := s.setPhase .idle
  if s.stage i = .released ∧ ¬ s.Held i then (s.stop i).setStage i .gone else s

/-- `register_fd`, up to `epoll_ctl`. -/
def add (i : WatcherId) (mode : WatchMode) (ok : Bool) : SourcesState :=
  let g := s.table.generationCounter
  { s with
    table := { s.table with generationCounter := g + 1 }
    kernel := if ok then s.kernel.ctlAdd (s.fd i) (modeToEpollEvents mode) else s.kernel
    phase := if ok then .inserting i mode g else .leaving i }

/-- The rest of `watch_file_descriptor`. -/
def insert (i : WatcherId) (mode : WatchMode) (g : ℕ) : SourcesState :=
  { s.setObject i { s.objects i with controller := .attach (s.fd i) g } with
    table := s.table.insert (s.fd i) ⟨i, false, mode, g⟩
    phase := .leaving i }

/-- The dispatch loop handles an event, up to the calls; the entries of sources are one-shot. -/
def dispatch (fd : Fd) (flags : UInt32) : SourcesState :=
  match s.table.watches fd with
  | none => s
  | some e =>
      { s with
        table := s.table.remove fd
        kernel := s.kernel.ctlDel fd
        phase :=
          if (s.stage e.watcher).strong then
            .calling e.watcher ((calls fd flags e).map Call.direction)
          else .idle }

def next : SourcesAct → SourcesState
  | .create i fd => s.create i fd
  | .poll i d w =>
      let (x, mode, _) := (s.source i).poll d w
      s.setSource i x mode
  | .close i => { s.setStage i .closed with kernel := s.kernel.closeFd (s.fd i) }
  | .release i => s.setStage i (if s.Held i then .released else .dropping)
  | .unregister i => (s.stop i).setStage i .gone
  | .armStart i mode rest => { s.stop i with armTasks := rest, phase := .adding i mode }
  | .add i mode ok => s.add i mode ok
  | .insert i mode g => s.insert i mode g
  | .leave i | .dispatchDone i => s.letGo i
  | .dispatch fd flags => s.dispatch fd flags
  | .call i d ds =>
      let (x, mode, w) := (s.source i).onFileReady d
      (s.setSource i x mode).setPhase (.waking i d w ds)
  | .wake i _ _ ds => s.setPhase (.calling i ds)

/-- `epoll_ctl` does not fail for an open descriptor, no controller is dropped while a source of the
same number is being registered, and the dispatch of a source whose object has been dropped posts no
arm task. -/
def Tidy : SourcesAct → Prop
  | .add i _ ok => s.kernel.isOpen (s.fd i) = true → ok = true
  | .unregister i => ∀ j ∈ s.phase.staged, s.fd j ≠ s.fd i
  | .call i d _ => s.stage i = .live ∨ ((s.source i).onFileReady d).2.1 = none
  | _ => True

instance : ∀ a, Decidable (s.Tidy a)
  | .add _ _ _ => inferInstanceAs (Decidable (_ → _))
  | .unregister _ => inferInstanceAs (Decidable (∀ j ∈ _, _))
  | .call _ _ _ => inferInstanceAs (Decidable (_ ∨ _))
  | .create _ _ | .poll _ _ _ | .close _ | .release _ | .armStart _ _ _ | .insert _ _ _ | .leave _
  | .dispatch _ _ | .wake _ _ _ _ | .dispatchDone _ => inferInstanceAs (Decidable True)

end SourcesState

/-- A pump that watches nothing, and no object yet. -/
def sourcesMachine : Machine SourcesState SourcesAct where
  Init s := ∃ kernel : Kernel, (∀ fd, kernel.interest fd = none) ∧ s = .init kernel
  Enabled := SourcesState.Enabled
  next := SourcesState.next

instance : ∀ s a, Decidable (sourcesMachine.Enabled s a) :=
  fun s a => inferInstanceAs (Decidable (s.Enabled a))

end RustAsync
