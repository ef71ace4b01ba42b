import RustBase.Io.WatchController

/-!
# Net — SocketPosix

One `SocketPosix` on the IO thread: its four slots for pending operations, its two watch
controllers, the pump's table, the timeouts it has scheduled, and the dispatch of its descriptor.

* A callback is the number of the call that passed it in; `results` are the callbacks invoked, with
  what they were given.
* The answers of the system calls are chosen by the environment: they are arguments of the actions.
  So is whether `register_fd` succeeds.
* Callbacks run in tail position, so what a callback does is the next actions.  An operation with a
  timeout schedules it after the call; no timeout fires before the code that made the call is
  done, so it is scheduled with the call here.
* A timeout fires at any time after it was scheduled, but not while the descriptor is dispatched.

The socket stays alive: the pump and the timeouts only have a `Weak` to it.
-/

namespace RustNet
open Support RustIo

/-! ### Data -/

abbrev Errno := ℕ

def eagain : Errno := 11
def einprogress : Errno := 115

abbrev CallbackId := ℕ

inductive ReadOp where
  | readIfReady (cb : CallbackId)
  | read (len : ℕ) (cb : CallbackId)
  deriving DecidableEq

structure WriteOp where
  buf : List UInt8
  cb : CallbackId
  deriving DecidableEq

inductive SocketError where
  | os (errno : Errno)
  | timedOut
  deriving DecidableEq

/-- What a callback is invoked with. -/
inductive Outcome where
  | connected
  | readable
  | data (bytes : List UInt8)
  | written (n : ℕ)
  /-- the socket of the client, by its descriptor -/
  | accepted (fd : Fd)
  | failed (e : SocketError)
  deriving DecidableEq

/-- The `io::Result` made of the answer of a system call. -/
def outcome {α : Type} (f : α → Outcome) : Except Errno α → Outcome
  | .ok a => f a
  | .error e => .failed (.os e)

structure SocketPosix where
  fd : Option Fd
  readWatcher : FdWatchController
  writeWatcher : FdWatchController
  pendingRead : Option ReadOp
  pendingWrite : Option WriteOp
  pendingConnect : Option CallbackId
  pendingAccept : Option CallbackId
  connectGen : ℕ
  readGen : ℕ
  writeGen : ℕ

namespace SocketPosix

def fromFd (fd : Fd) : SocketPosix where
  fd := some fd
  readWatcher := .new
  writeWatcher := .new
  pendingRead := none
  pendingWrite := none
  pendingConnect := none
  pendingAccept := none
  connectGen := 0
  readGen := 0
  writeGen := 0

def watcher (x : SocketPosix) : Direction → FdWatchController
  | .read => x.readWatcher
  | .write => x.writeWatcher

def setWatcher (x : SocketPosix) (d : Direction) (c : FdWatchController) : SocketPosix :=
  match d with
  | .read => { x with readWatcher := c }
  | .write => { x with writeWatcher := c }

theorem watcher_setWatcher (x : SocketPosix) (d : Direction) (c : FdWatchController) :
    (x.setWatcher d c).watcher = Function.update x.watcher d c := by
  funext d'
  cases d <;> cases d' <;> rfl

/-- An operation that waits for the direction is pending. -/
def PendingIn (x : SocketPosix) : Direction → Prop
  | .read => x.pendingRead.isSome ∨ x.pendingAccept.isSome
  | .write => x.pendingWrite.isSome ∨ x.pendingConnect.isSome

/-- Two operations that wait for the direction are pending. -/
def BothPending (x : SocketPosix) : Direction → Prop
  | .read => x.pendingRead.isSome ∧ x.pendingAccept.isSome
  | .write => x.pendingWrite.isSome ∧ x.pendingConnect.isSome

instance (x : SocketPosix) : ∀ d, Decidable (x.PendingIn d)
  | .read | .write => inferInstanceAs (Decidable (_ ∨ _))

instance (x : SocketPosix) : ∀ d, Decidable (x.BothPending d)
  | .read | .write => inferInstanceAs (Decidable (_ ∧ _))

theorem PendingIn.eq_read {x : SocketPosix} {d : Direction} (hn : ¬ x.PendingIn .write)
    (h : x.PendingIn d) : d = .read := by
  cases d with
  | read => rfl
  | write => exact absurd h hn

theorem PendingIn.eq_write {x : SocketPosix} {d : Direction} (hn : ¬ x.PendingIn .read)
    (h : x.PendingIn d) : d = .write := by
  cases d with
  | read => exact absurd h hn
  | write => rfl

theorem fd_setWatcher (x : SocketPosix) (d : Direction) (c : FdWatchController) :
    (x.setWatcher d c).fd = x.fd := by
  cases d <;> rfl

theorem pendingIn_setWatcher (x : SocketPosix) (d : Direction) (c : FdWatchController)
    (d' : Direction) : (x.setWatcher d c).PendingIn d' ↔ x.PendingIn d' := by
  cases d <;> cases d' <;> exact Iff.rfl

end SocketPosix

inductive TimeoutKind where
  | connect
  | read
  | write
  deriving DecidableEq

/-- A delayed task that calls `fire_connect_timeout`, `fire_read_timeout` or `fire_write_timeout`
with `my_gen`. -/
structure Timeout where
  kind : TimeoutKind
  gen : ℕ
  deriving DecidableEq

/-- The dispatch of the socket's descriptor. -/
inductive DispatchPhase where
  | idle
  /-- the calls of the `FdWatcher` methods still to be made -/
  | calling (cs : List Call)
  | inCallback (cs : List Call)
  deriving DecidableEq

/-- Code of the socket's users may run. -/
def DispatchPhase.userCode : DispatchPhase → Bool
  | .calling _ => false
  | .idle | .inCallback _ => true

/-- What the kernel would answer the system calls of the `FdWatcher` methods. -/
structure Syscalls where
  accept : Except Errno Fd
  read : Except Errno (List UInt8)
  write : Except Errno ℕ
  /-- `check_connect_error` -/
  connectError : Except Errno Unit

structure SocketState where
  socket : SocketPosix
  /-- the socket as a watcher -/
  id : WatcherId
  /-- the pump's -/
  table : WatchTable
  timeouts : List Timeout
  phase : DispatchPhase
  nextCallback : CallbackId
  results : List (CallbackId × Outcome)

namespace SocketState

def init (fd : Fd) (id : WatcherId) (table : WatchTable) : SocketState where
  socket := .fromFd fd
  id := id
  table := table
  timeouts := []
  phase := .idle
  nextCallback := 0
  results := []

/-! ### Operations -/

def complete (s : SocketState) (cb : CallbackId) (o : Outcome) : SocketState :=
  { s with results := s.results ++ [(cb, o)] }

/-- `watch_file_descriptor` through the controller of the direction. -/
def arm (s : SocketState) (d : Direction) (ok : Bool) : SocketState :=
  match s.socket.fd with
  | none => s
  | some fd =>
      let w := (s.socket.watcher d).watchFileDescriptor s.table fd false d.mode s.id ok
      { s with socket := s.socket.setWatcher d w.1, table := w.2.1 }

def armRead (s : SocketState) (ok : Bool) : SocketState := s.arm .read ok
def armWrite (s : SocketState) (ok : Bool) : SocketState := s.arm .write ok

/-- `stop_watching_file_descriptor` of the controller of the direction. -/
def stop (s : SocketState) (d : Direction) : SocketState :=
  let w := (s.socket.watcher d).stopWatchingFileDescriptor s.table
  { s with socket := s.socket.setWatcher d w.1, table := w.2.1 }

/-- The call takes the next callback. -/
def takeCallback (s : SocketState) : SocketState := { s with nextCallback := s.nextCallback + 1 }

def scheduleTimeout (s : SocketState) (t : Timeout) : SocketState :=
  { s with timeouts := t :: s.timeouts }

def connect (s : SocketState) (r : Except Errno Unit) (ok : Bool) : SocketState :=
  let cb := s.nextCallback
  let s := { s.takeCallback with socket.connectGen := s.socket.connectGen + 1 }
  match r with
  | .ok () => s.complete cb .connected
  | .error e =>
      if e = einprogress then
        armWrite { s with socket.pendingConnect := some cb } ok
      else s.complete cb (.failed (.os e))

def connectWithTimeout (s : SocketState) (r : Except Errno Unit) (ok : Bool) : SocketState :=
  (s.connect r ok).scheduleTimeout ⟨.connect, s.socket.connectGen + 1⟩

def readIfReady (s : SocketState) (ok : Bool) : SocketState :=
  let cb := s.nextCallback
  let s := { s.takeCallback with socket.readGen := s.socket.readGen + 1 }
  armRead { s with socket.pendingRead := some (.readIfReady cb) } ok

def readIfReadyWithTimeout (s : SocketState) (ok : Bool) : SocketState :=
  (s.readIfReady ok).scheduleTimeout ⟨.read, s.socket.readGen + 1⟩

def read (s : SocketState) (len : ℕ) (r : Except Errno (List UInt8)) (ok : Bool) : SocketState :=
  let cb := s.nextCallback
  let s := { s.takeCallback with socket.readGen := s.socket.readGen + 1 }
  match r with
  | .ok bytes => s.complete cb (.data bytes)
  | .error e =>
      if e = eagain then armRead { s with socket.pendingRead := some (.read len cb) } ok
      else s.complete cb (.failed (.os e))

def readWithTimeout (s : SocketState) (len : ℕ) (r : Except Errno (List UInt8)) (ok : Bool) :
    SocketState :=
  (s.read len r ok).scheduleTimeout ⟨.read, s.socket.readGen + 1⟩

def write (s : SocketState) (buf : List UInt8) (r : Except Errno ℕ) (ok : Bool) : SocketState :=
  let cb := s.nextCallback
  let s := { s.takeCallback with socket.writeGen := s.socket.writeGen + 1 }
  match r with
  | .ok n => s.complete cb (.written n)
  | .error e =>
      if e = eagain then armWrite { s with socket.pendingWrite := some ⟨buf, cb⟩ } ok
      else s.complete cb (.failed (.os e))

def writeWithTimeout (s : SocketState) (buf : List UInt8) (r : Except Errno ℕ) (ok : Bool) :
    SocketState :=
  (s.write buf r ok).scheduleTimeout ⟨.write, s.socket.writeGen + 1⟩

def accept (s : SocketState) (r : Except Errno Fd) (ok : Bool) : SocketState :=
  let cb := s.nextCallback
  let s := s.takeCallback
  match r with
  | .ok fd => s.complete cb (.accepted fd)
  | .error e =>
      if e = eagain then armRead { s with socket.pendingAccept := some cb } ok
      else s.complete cb (.failed (.os e))

def cancelAccept (s : SocketState) : SocketState :=
  stop { s with socket.pendingAccept := none } .read

def cancelRead (s : SocketState) : SocketState :=
  stop { s with socket.pendingRead := none } .read

def cancelWrite (s : SocketState) : SocketState :=
  stop { s with socket.pendingWrite := none } .write

def close (s : SocketState) : SocketState :=
  let s := (s.stop .read).stop .write
  { s with
    socket.pendingRead := none
    socket.pendingWrite := none
    socket.pendingConnect := none
    socket.pendingAccept := none
    socket.fd := none }

/-! ### Timeouts -/

def fireConnectTimeout (s : SocketState) (gen : ℕ) : SocketState :=
  if s.socket.connectGen ≠ gen then s
  else match s.socket.pendingConnect with
    | none => s
    | some cb =>
        (stop { s with socket.pendingConnect := none } .write).complete cb (.failed .timedOut)

def fireReadTimeout (s : SocketState) (gen : ℕ) : SocketState :=
  if s.socket.readGen ≠ gen then s
  else match s.socket.pendingRead with
    | none => s
    | some (.readIfReady cb) | some (.read _ cb) =>
        (stop { s with socket.pendingRead := none } .read).complete cb (.failed .timedOut)

def fireWriteTimeout (s : SocketState) (gen : ℕ) : SocketState :=
  if s.socket.writeGen ≠ gen then s
  else match s.socket.pendingWrite with
    | none => s
    | some ⟨_, cb⟩ =>
        (stop { s with socket.pendingWrite := none } .write).complete cb (.failed .timedOut)

def fire (s : SocketState) (t : Timeout) : SocketState :=
  match t.kind with
  | .connect => s.fireConnectTimeout t.gen
  | .read => s.fireReadTimeout t.gen
  | .write => s.fireWriteTimeout t.gen

/-! ### Dispatch -/

def onFileCanReadWithoutBlocking (s : SocketState) (sys : Syscalls) : SocketState :=
  match s.socket.pendingAccept with
  | some cb => complete { s with socket.pendingAccept := none } cb (outcome .accepted sys.accept)
  | none =>
      let s' : SocketState := { s with socket.pendingRead := none }
      match s.socket.pendingRead with
      | some (.readIfReady cb) => s'.complete cb .readable
      | some (.read _ cb) => s'.complete cb (outcome .data sys.read)
      | none => s'

def onFileCanWriteWithoutBlocking (s : SocketState) (sys : Syscalls) : SocketState :=
  match s.socket.pendingConnect with
  | some cb =>
      complete { s with socket.pendingConnect := none } cb
        (outcome (fun _ => .connected) sys.connectError)
  | none =>
      let s' : SocketState := { s with socket.pendingWrite := none }
      match s.socket.pendingWrite with
      | some ⟨_, cb⟩ => s'.complete cb (outcome .written sys.write)
      | none => s'

/-- The method a call is of. -/
def call (s : SocketState) (d : Direction) (sys : Syscalls) : SocketState :=
  match d with
  | .read => s.onFileCanReadWithoutBlocking sys
  | .write => s.onFileCanWriteWithoutBlocking sys

/-- The pump's entry for the descriptor. -/
def entry (s : SocketState) : Option WatchEntry := s.socket.fd.bind s.table.watches

/-- The dispatch loop handles an event of the descriptor, up to the calls. -/
def dispatch (s : SocketState) (flags : UInt32) : SocketState :=
  match s.socket.fd with
  | none => s
  | some fd =>
      match s.table.watches fd with
      | none => s
      | some e =>
          { s with
            table := if e.persistent then s.table else s.table.remove fd
            phase := .calling (calls fd flags e) }

end SocketState

/-! ### The machine -/

/-- `timed` operations are those with a timeout; `ok` says whether `register_fd`, if it is called,
succeeds. -/
inductive SocketAct where
  | connect (timed : Bool) (r : Except Errno Unit) (ok : Bool)
  | readIfReady (timed : Bool) (ok : Bool)
  | read (timed : Bool) (len : ℕ) (r : Except Errno (List UInt8)) (ok : Bool)
  | write (timed : Bool) (buf : List UInt8) (r : Except Errno ℕ) (ok : Bool)
  | accept (r : Except Errno Fd) (ok : Bool)
  | cancelAccept
  | cancelRead
  | cancelWrite
  | close
  | fire (t : Timeout)
  | dispatch (flags : UInt32)
  /-- the next method is called, up to the callback -/
  | call (c : Call) (cs : List Call) (sys : Syscalls)
  /-- the method called last returns -/
  | callDone (cs : List Call)
  /-- no call is left to be made -/
  | dispatchDone

/-- `register_fd` succeeds. -/
def SocketAct.Registers : SocketAct → Prop
  | .connect _ _ ok | .readIfReady _ ok | .read _ _ _ ok | .write _ _ _ ok | .accept _ ok =>
      ok = true
  | _ => True

instance : ∀ a : SocketAct, Decidable a.Registers
  | .connect _ _ _ | .readIfReady _ _ | .read _ _ _ _ | .write _ _ _ _ | .accept _ _ =>
      inferInstanceAs (Decidable (_ = _))
  | .cancelAccept | .cancelRead | .cancelWrite | .close | .fire _ | .dispatch _ | .call _ _ _
  | .callDone _ | .dispatchDone => inferInstanceAs (Decidable True)

namespace SocketState

/-- The operations assert that the socket is open. -/
def Enabled (s : SocketState) : SocketAct → Prop
  | .connect _ _ _ | .readIfReady _ _ | .read _ _ _ _ | .write _ _ _ _ | .accept _ _ =>
      s.phase.userCode = true ∧ s.socket.fd.isSome
  | .cancelAccept | .cancelRead | .cancelWrite | .close => s.phase.userCode = true
  | .fire t => s.phase = .idle ∧ t ∈ s.timeouts
  | .dispatch _ => s.phase = .idle ∧ s.socket.fd.isSome
  | .call c cs _ => s.phase = .calling (c :: cs)
  | .callDone cs => s.phase = .inCallback cs
  | .dispatchDone => s.phase = .calling []

instance (s : SocketState) : ∀ a, Decidable (s.Enabled a)
  | .connect _ _ _ | .readIfReady _ _ | .read _ _ _ _ | .write _ _ _ _ | .accept _ _
  | .fire _ | .dispatch _ => inferInstanceAs (Decidable (_ ∧ _))
  | .cancelAccept | .cancelRead | .cancelWrite | .close
  | .call _ _ _ | .callDone _ | .dispatchDone => inferInstanceAs (Decidable (_ = _))

def next (s : SocketState) : SocketAct → SocketState
  | .connect timed r ok => if timed then s.connectWithTimeout r ok else s.connect r ok
  | .readIfReady timed ok => if timed then s.readIfReadyWithTimeout ok else s.readIfReady ok
  | .read timed len r ok => if timed then s.readWithTimeout len r ok else s.read len r ok
  | .write timed buf r ok => if timed then s.writeWithTimeout buf r ok else s.write buf r ok
  | .accept r ok => s.accept r ok
  | .cancelAccept => s.cancelAccept
  | .cancelRead => s.cancelRead
  | .cancelWrite => s.cancelWrite
  | .close => s.close
  | .fire t => fire { s with timeouts := s.timeouts.erase t } t
  | .dispatch flags => s.dispatch flags
  | .call c cs sys => { s.call c.direction sys with phase := .inCallback cs }
  | .callDone cs => { s with phase := .calling cs }
  | .dispatchDone => { s with phase := .idle }

end SocketState

/-- One open socket over a pump that does not watch its descriptor yet. -/
def socketMachine : Machine SocketState SocketAct where
  Init s := ∃ fd id table, table.watches fd = none ∧ s = .init fd id table
  Enabled := SocketState.Enabled
  next := SocketState.next

instance (s : SocketState) (a : SocketAct) : Decidable (socketMachine.Enabled s a) :=
  inferInstanceAs (Decidable (s.Enabled a))

end RustNet
