import RustBase.Io.WatchController

/-!
# Async — Source

One `Source` of the reactor: its state, which the lock of the source protects, the arm tasks
it has posted to its IO thread, in the order they run, and the pump's entry for its descriptor.

* A poll is one critical section: it stores the waker and posts the arm task under the lock.
* So is the part of an `FdWatcher` method that has the lock; the waker it takes is woken after it.
* An arm task is one step of the IO thread.  It touches the controller and the table, which
  no poll does.
* The dispatch of the descriptor is made of the steps of the IO thread that `SourcePhase` tells
  apart; polls of other threads come in between.

The `reactor` of the source is set by its first arm and never changes, so all its arm tasks go to
one IO thread.  The source stays alive, as the object that owns the descriptor does.
-/

namespace RustAsync
open Support RustIo

/-- A `Waker`. -/
abbrev WakerId := ℕ

/-! ### The state under the lock -/

structure SourceState where
  readWaker : Option WakerId
  writeWaker : Option WakerId
  readReady : Bool
  writeReady : Bool
  armed : Option WatchMode
  deriving DecidableEq

namespace SourceState

def new : SourceState := ⟨none, none, false, false, none⟩

def waker (x : SourceState) : Direction → Option WakerId
  | .read => x.readWaker
  | .write => x.writeWaker

def setWaker (x : SourceState) (d : Direction) (w : Option WakerId) : SourceState :=
  match d with
  | .read => { x with readWaker := w }
  | .write => { x with writeWaker := w }

def ready (x : SourceState) : Direction → Bool
  | .read => x.readReady
  | .write => x.writeReady

def setReady (x : SourceState) (d : Direction) (b : Bool) : SourceState :=
  match d with
  | .read => { x with readReady := b }
  | .write => { x with writeReady := b }

/-- The mode that asks for the directions waited on. -/
def desired (x : SourceState) : Option WatchMode :=
  match x.readWaker.isSome, x.writeWaker.isSome with
  | true, true => some .readWrite
  | true, false => some .read
  | false, true => some .write
  | false, false => none

/-- `update_arm`, with the mode of the arm task it posts. -/
def updateArm (x : SourceState) : SourceState × Option WatchMode :=
  if x.desired ≠ x.armed then ({ x with armed := x.desired }, x.desired) else (x, none)

/-- `poll_readable` and `poll_writable`: `true` is `Poll::Ready`. -/
def poll (x : SourceState) (d : Direction) (w : WakerId) :
    SourceState × Option WatchMode × Bool :=
  if x.ready d then (x.setReady d false, none, true)
  else
    let (x, mode) := (x.setWaker d (some w)).updateArm
    (x, mode, false)

def pollReadable (x : SourceState) (w : WakerId) : SourceState × Option WatchMode × Bool :=
  x.poll .read w

def pollWritable (x : SourceState) (w : WakerId) : SourceState × Option WatchMode × Bool :=
  x.poll .write w

/-- The critical section of an `FdWatcher` method, with the waker it takes. -/
def onFileReady (x : SourceState) (d : Direction) :
    SourceState × Option WatchMode × Option WakerId :=
  let w := x.waker d
  let (x, mode) := ((({ x with armed := none } : SourceState).setReady d true).setWaker d
    none).updateArm
  (x, mode, w)

def onFileCanReadWithoutBlocking (x : SourceState) :
    SourceState × Option WatchMode × Option WakerId :=
  x.onFileReady .read

def onFileCanWriteWithoutBlocking (x : SourceState) :
    SourceState × Option WatchMode × Option WakerId :=
  x.onFileReady .write

/-! Wakers and `armed`. -/

theorem waker_setWaker (x : SourceState) (d : Direction) (w : Option WakerId) :
    (x.setWaker d w).waker = Function.update x.waker d w := by
  funext d'
  cases d <;> cases d' <;> rfl

theorem waker_setReady (x : SourceState) (d : Direction) (b : Bool) :
    (x.setReady d b).waker = x.waker := by
  funext d'
  cases d <;> cases d' <;> rfl

theorem waker_updateArm (x : SourceState) : x.updateArm.1.waker = x.waker := by
  unfold updateArm
  split <;> rfl

/-- The mode asks for a direction exactly if it is waited on. -/
theorem covers_desired {x : SourceState} {d : Direction} (h : (x.waker d).isSome) :
    ∃ m, x.desired = some m ∧ m.covers d = true := by
  obtain ⟨r, w, _, _, _⟩ := x
  cases d <;> cases r <;> cases w <;> simp_all [waker, desired, WatchMode.covers]

theorem desired_congr {x y : SourceState} (h : x.waker = y.waker) : x.desired = y.desired := by
  have hr : x.readWaker = y.readWaker := congrFun h .read
  have hw : x.writeWaker = y.writeWaker := congrFun h .write
  simp only [desired, hr, hw]

/-- After `update_arm` the source is armed for what it waits on. -/
theorem armed_updateArm (x : SourceState) : x.updateArm.1.armed = x.desired := by
  unfold updateArm
  split
  · rfl
  · rename_i h
    exact (not_not.mp h).symm

/-- A change of `armed` is posted. -/
theorem mode_updateArm (x : SourceState) :
    x.updateArm.2 = none ∧ x.updateArm.1.armed = x.armed ∨
      x.updateArm.2 = x.updateArm.1.armed := by
  unfold updateArm
  split
  · exact .inr rfl
  · exact .inl ⟨rfl, rfl⟩

end SourceState

/-! ### The machine -/

/-- The dispatch of the descriptor. -/
inductive SourcePhase where
  | idle
  /-- the calls of the `FdWatcher` methods still to be made -/
  | calling (cs : List Call)
  /-- the method has released the lock; `wake` is next -/
  | waking (d : Direction) (w : Option WakerId) (cs : List Call)
  deriving DecidableEq

/-- The calls still to be made. -/
def SourcePhase.calls : SourcePhase → List Call
  | .idle => []
  | .calling cs | .waking _ _ cs => cs

inductive SourceEvent where
  /-- a poll stored the waker and returned `Poll::Pending` -/
  | parked (d : Direction) (w : WakerId)
  /-- a poll returned `Poll::Ready` -/
  | polledReady (d : Direction)
  | woke (d : Direction) (w : WakerId)
  deriving DecidableEq

structure ReactorState where
  fd : Fd
  /-- the source as a watcher -/
  id : WatcherId
  source : SourceState
  controller : FdWatchController
  /-- the modes of the arm tasks queued -/
  armTasks : List WatchMode
  /-- the pump's -/
  table : WatchTable
  phase : SourcePhase
  log : List SourceEvent

inductive SourceAct where
  | poll (d : Direction) (w : WakerId)
  /-- the IO thread runs the first arm task; `ok` says whether `register_fd` succeeds -/
  | arm (mode : WatchMode) (rest : List WatchMode) (ok : Bool)
  /-- the dispatch loop handles an event, up to the calls -/
  | dispatch (flags : UInt32)
  | call (c : Call) (cs : List Call)
  | wake (d : Direction) (w : Option WakerId) (cs : List Call)
  | dispatchDone

/-- `register_fd` succeeds. -/
def SourceAct.Registers : SourceAct → Prop
  | .arm _ _ ok => ok = true
  | _ => True

instance : ∀ a : SourceAct, Decidable a.Registers
  | .arm _ _ _ => inferInstanceAs (Decidable (_ = _))
  | .poll _ _ | .dispatch _ | .call _ _ | .wake _ _ _ | .dispatchDone =>
      inferInstanceAs (Decidable True)

/-- The steps that end a dispatch. -/
def SourceAct.InDispatch : SourceAct → Prop
  | .call _ _ | .wake _ _ _ | .dispatchDone => True
  | _ => False

namespace ReactorState

def init (fd : Fd) (id : WatcherId) (table : WatchTable) : ReactorState where
  fd := fd
  id := id
  source := .new
  controller := .new
  armTasks := []
  table := table
  phase := .idle
  log := []

/-- A dispatch reports a direction that the entry asks for. -/
def Enabled (s : ReactorState) : SourceAct → Prop
  | .poll _ _ => True
  | .arm mode rest _ => s.phase = .idle ∧ s.armTasks = mode :: rest
  | .dispatch flags =>
      s.phase = .idle ∧ ∃ e ∈ s.table.watches s.fd, meets flags e.mode = true
  | .call c cs => s.phase = .calling (c :: cs)
  | .wake d w cs => s.phase = .waking d w cs
  | .dispatchDone => s.phase = .calling []

instance (s : ReactorState) : ∀ a, Decidable (s.Enabled a)
  | .poll _ _ => inferInstanceAs (Decidable True)
  | .arm _ _ _ | .dispatch _ => inferInstanceAs (Decidable (_ ∧ _))
  | .call _ _ | .wake _ _ _ | .dispatchDone => inferInstanceAs (Decidable (_ = _))

def poll (s : ReactorState) (d : Direction) (w : WakerId) : ReactorState :=
  let (x, mode, ready) := s.source.poll d w
  { s with
    source := x
    armTasks := s.armTasks ++ mode.toList
    log := s.log ++ [if ready then .polledReady d else .parked d w] }

/-- The task `arm` posts. -/
def arm (s : ReactorState) (mode : WatchMode) (rest : List WatchMode) (ok : Bool) : ReactorState :=
  let w := s.controller.watchFileDescriptor s.table s.fd false mode s.id ok
  { s with controller := w.1, table := w.2.1, armTasks := rest }

def dispatch (s : ReactorState) (flags : UInt32) : ReactorState :=
  match s.table.watches s.fd with
  | none => s
  | some e =>
      { s with
        table := if e.persistent then s.table else s.table.remove s.fd
        phase := .calling (calls s.fd flags e) }

def call (s : ReactorState) (c : Call) (cs : List Call) : ReactorState :=
  let (x, mode, w) := s.source.onFileReady c.direction
  { s with
    source := x
    armTasks := s.armTasks ++ mode.toList
    phase := .waking c.direction w cs }

def next (s : ReactorState) : SourceAct → ReactorState
  | .poll d w => s.poll d w
  | .arm mode rest ok => s.arm mode rest ok
  | .dispatch flags => s.dispatch flags
  | .call c cs => s.call c cs
  | .wake d w cs =>
      { s with phase := .calling cs, log := s.log ++ (w.map (SourceEvent.woke d)).toList }
  | .dispatchDone => { s with phase := .idle }

theorem poll_of_ready {s : ReactorState} {d : Direction} (w : WakerId)
    (h : s.source.ready d = true) :
    s.poll d w = { s with
      source := s.source.setReady d false
      log := s.log ++ [.polledReady d] } := by
  simp [poll, SourceState.poll, h]

theorem poll_of_not_ready {s : ReactorState} {d : Direction} (w : WakerId)
    (h : s.source.ready d = false) :
    s.poll d w = { s with
      source := (s.source.setWaker d (some w)).updateArm.1
      armTasks := s.armTasks ++ (s.source.setWaker d (some w)).updateArm.2.toList
      log := s.log ++ [.parked d w] } := by
  simp [poll, SourceState.poll, h]

/-- The waker stored after a poll: it stores its own, for its direction, unless it returned
`Poll::Ready`. -/
theorem poll_cases (s : ReactorState) (d : Direction) (w : WakerId) :
    (s.poll d w).log = s.log ++ [.polledReady d] ∧ (s.poll d w).source.waker = s.source.waker ∨
      (s.poll d w).log = s.log ++ [.parked d w] ∧
        (s.poll d w).source.waker = Function.update s.source.waker d (some w) := by
  cases hd : s.source.ready d with
  | true =>
      rw [poll_of_ready w hd]
      exact .inl ⟨rfl, SourceState.waker_setReady ..⟩
  | false =>
      rw [poll_of_not_ready w hd]
      refine .inr ⟨rfl, ?_⟩
      rw [SourceState.waker_updateArm, SourceState.waker_setWaker]

/-- A call takes the waker of its direction. -/
theorem waker_call (s : ReactorState) (c : Call) (cs : List Call) :
    (s.call c cs).source.waker = Function.update s.source.waker c.direction none := by
  simp only [call, SourceState.onFileReady]
  rw [SourceState.waker_updateArm, SourceState.waker_setWaker, SourceState.waker_setReady]
  rfl

theorem log_next (s : ReactorState) (a : SourceAct) : ∃ k, (s.next a).log = s.log ++ k := by
  cases a with
  | poll d w => exact ⟨_, rfl⟩
  | wake d w cs => exact ⟨_, rfl⟩
  | dispatch flags =>
      refine ⟨[], ?_⟩
      simp only [next, dispatch, List.append_nil]
      split <;> rfl
  | _ => exact ⟨[], (List.append_nil _).symm⟩

end ReactorState

/-- A new source over a pump that does not watch its descriptor. -/
def sourceMachine : Machine ReactorState SourceAct where
  Init s := ∃ fd id table, table.watches fd = none ∧ s = .init fd id table
  Enabled := ReactorState.Enabled
  next := ReactorState.next

instance (s : ReactorState) (a : SourceAct) : Decidable (sourceMachine.Enabled s a) :=
  inferInstanceAs (Decidable (s.Enabled a))

end RustAsync
