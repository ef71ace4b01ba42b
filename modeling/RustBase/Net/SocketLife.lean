import Mathlib.Data.List.Perm.Basic
import RustBase.Net.Operations

/-!
# Net — the life of a socket

A `SocketPosix` from `new` or `from_fd` to its drop, with what `TcpClientSocket` and
`TcpServerSocket` do with it, and the history of its descriptors and callbacks.

* `open` stores the descriptor it gets over whatever is there.  `TcpClientSocket::connect` and
  `TcpServerSocket::listen` begin with it, every time they are called, and return early when a later
  call fails.  The answers of the system calls are arguments of the actions; `socket(2)` answers
  with a number that is not open.
* After an `open` the pump may still have an entry for the socket under an old number
  (`dispatchOld`).
* The socket is dropped when no dispatch has it.  Its fields go with it: the callbacks stored are
  dropped and the controllers stop.  What is left of its timeouts does nothing then.
-/

namespace RustNet
open Support RustIo

/-! ### History -/

/-- The operations with what has become of them. -/
@[ext] structure OpsLog where
  ops : Ops
  /-- the callbacks of the operations cancelled -/
  cancelled : List CallbackId
  /-- the callbacks stored whose watch could not be registered -/
  unwatched : List CallbackId
  /-- the operation that has a generation -/
  owner : TimeoutKind → ℕ → Option CallbackId

namespace OpsLog

/-- The callbacks of the slots that a step of the operations empties. -/
def cancels (x : OpsLog) : OpsAct → List CallbackId
  | .cancel ks => ks.filterMap x.ops.slot
  | _ => []

/-- The callback a step of the operations stores. -/
def stores (x : OpsLog) : OpsAct → List CallbackId
  | .start _ true _ _ => [x.ops.nextCallback]
  | _ => []

/-- The operation that starts claims the next generation of its kind. -/
def claims (x : OpsLog) : OpsAct → TimeoutKind → ℕ → Option CallbackId
  | .start k _ _ _ =>
      match k.timeout? with
      | some t => Function.update x.owner t
          (Function.update (x.owner t) (x.ops.gen t + 1) (some x.ops.nextCallback))
      | none => x.owner
  | _ => x.owner

/-- `registers`: the watch is registered, if one is asked for. -/
def next (x : OpsLog) (a : OpsAct) (registers : Bool) : OpsLog where
  ops := x.ops.next a
  cancelled := x.cancelled ++ x.cancels a
  unwatched := if registers then x.unwatched else x.unwatched ++ x.stores a
  owner := x.claims a

theorem unwatched_next (x : OpsLog) {a : OpsAct} (h : x.stores a = []) (registers : Bool) :
    (x.next a registers).unwatched = x.unwatched := by
  cases registers <;> simp [next, h]

theorem next_idle (x : OpsLog) (registers : Bool) : x.next .idle registers = x :=
  OpsLog.ext rfl (List.append_nil _) (x.unwatched_next rfl registers) rfl

end OpsLog

/-- The step closes the descriptor. -/
def SocketAct.closes : SocketAct → Bool
  | .close => true
  | _ => false

/-- `SocketPosix::new`. -/
def SocketPosix.new : SocketPosix := { fromFd 0 with fd := none }

structure SocketLife where
  state : SocketState
  dropped : Bool
  /-- the descriptors got from `socket(2)`, or adopted -/
  obtained : List Fd
  /-- the descriptors given to `close(2)` -/
  closed : List Fd
  cancelled : List CallbackId
  unwatched : List CallbackId
  owner : TimeoutKind → ℕ → Option CallbackId

namespace SocketLife

def new (id : WatcherId) (table : WatchTable) : SocketLife where
  state := { SocketState.init 0 id table with socket := .new }
  dropped := false
  obtained := []
  closed := []
  cancelled := []
  unwatched := []
  owner := fun _ _ => none

def fromFd (fd : Fd) (id : WatcherId) (table : WatchTable) : SocketLife :=
  { new id table with state := .init fd id table, obtained := [fd] }

def fd (s : SocketLife) : Option Fd := s.state.socket.fd

def log (s : SocketLife) : OpsLog where
  ops := s.state.ops
  cancelled := s.cancelled
  unwatched := s.unwatched
  owner := s.owner

/-- A step of the socket. -/
def apply (s : SocketLife) (a : SocketAct) : SocketLife :=
  let log := s.log.next (s.state.act a) a.Registers
  { state := s.state.next a
    dropped := s.dropped
    obtained := s.obtained
    closed := if a.closes then s.closed ++ s.fd.toList else s.closed
    cancelled := log.cancelled
    unwatched := log.unwatched
    owner := log.owner }

/-- `SocketPosix::open`. -/
def openSocket (s : SocketLife) : Except Errno Fd → SocketLife
  | .ok fd => { s with state.socket.fd := some fd, obtained := s.obtained ++ [fd] }
  | .error _ => s

/-- A call whose callback is invoked with the error of an earlier call. -/
def refuse (s : SocketLife) (e : Errno) : SocketLife :=
  { s with state := s.state.takeCallback.complete s.state.nextCallback (.failed (.os e)) }

/-- `TcpClientSocket::connect` and `connect_with_timeout`; whether `TCP_NODELAY` is set does not
matter. -/
def tcpConnect (s : SocketLife) (timed : Bool) (opened : Except Errno Fd) (r : Except Errno Unit)
    (ok : Bool) : SocketLife :=
  match opened with
  | .error e => s.refuse e
  | .ok fd => (s.openSocket (.ok fd)).apply (.connect timed r ok)

/-- `SocketPosix::bind`. -/
def bind (s : SocketLife) (_ : Except Errno Unit) : SocketLife := s

/-- `SocketPosix::listen`. -/
def listen (s : SocketLife) (_ : Except Errno Unit) : SocketLife := s

/-- `TcpServerSocket::listen`. -/
def tcpListen (s : SocketLife) (opened : Except Errno Fd)
    (options bound listening : Except Errno Unit) : SocketLife :=
  match opened with
  | .error _ => s
  | .ok fd =>
      let s := s.openSocket (.ok fd)
      match options with
      | .error _ => s
      | .ok _ =>
          let s := s.bind bound
          match bound with
          | .error _ => s
          | .ok _ => s.listen listening

/-- The dispatch loop handles an event of a descriptor the socket had before, up to the calls. -/
def dispatchOld (s : SocketLife) (fd : Fd) (flags : UInt32) : SocketLife :=
  match s.state.table.watches fd with
  | none => s
  | some e =>
      { s with
        state.table := if e.persistent then s.state.table else s.state.table.remove fd
        state.phase := .calling (calls fd flags e) }

/-- `Drop for SocketPosix`, and the drop of its fields. -/
def drop (s : SocketLife) : SocketLife := { s.apply .close with dropped := true }

end SocketLife

/-! ### The machine -/

inductive LifeAct where
  | op (a : SocketAct)
  | openSocket (opened : Except Errno Fd)
  | bind (r : Except Errno Unit)
  | listen (r : Except Errno Unit)
  | tcpConnect (timed : Bool) (opened : Except Errno Fd) (r : Except Errno Unit) (ok : Bool)
  | tcpListen (opened : Except Errno Fd) (options bound listening : Except Errno Unit)
  | dispatchOld (fd : Fd) (flags : UInt32)
  | drop

namespace SocketLife

/-- A descriptor that the socket has not open. -/
def Fresh (s : SocketLife) : Except Errno Fd → Prop
  | .ok fd => fd ∉ s.obtained.diff s.closed
  | .error _ => True

instance (s : SocketLife) : ∀ o, Decidable (s.Fresh o)
  | .ok _ => inferInstanceAs (Decidable (_ ∉ _))
  | .error _ => inferInstanceAs (Decidable True)

def Enabled (s : SocketLife) : LifeAct → Prop
  | .op a => s.dropped = false ∧ s.state.Enabled a
  | .openSocket o | .tcpConnect _ o _ _ | .tcpListen o _ _ _ =>
      s.dropped = false ∧ s.state.phase.userCode = true ∧ s.Fresh o
  | .bind _ | .listen _ => s.dropped = false ∧ s.state.phase.userCode = true ∧ s.fd.isSome
  | .dispatchOld fd _ => s.dropped = false ∧ s.state.phase = .idle ∧ s.fd ≠ some fd ∧
      ∃ e ∈ s.state.table.watches fd, e.watcher = s.state.id
  | .drop => s.dropped = false ∧ s.state.phase = .idle

instance (s : SocketLife) : ∀ a, Decidable (s.Enabled a)
  | .op _ | .drop => inferInstanceAs (Decidable (_ ∧ _))
  | .openSocket _ | .tcpConnect _ _ _ _ | .tcpListen _ _ _ _ | .bind _ | .listen _ =>
      inferInstanceAs (Decidable (_ ∧ _ ∧ _))
  | .dispatchOld _ _ => inferInstanceAs (Decidable (_ ∧ _ ∧ _ ∧ _))

def next (s : SocketLife) : LifeAct → SocketLife
  | .op a => s.apply a
  | .openSocket o => s.openSocket o
  | .bind r => s.bind r
  | .listen r => s.listen r
  | .tcpConnect timed o r ok => s.tcpConnect timed o r ok
  | .tcpListen o options bound listening => s.tcpListen o options bound listening
  | .dispatchOld fd flags => s.dispatchOld fd flags
  | .drop => s.drop

end SocketLife

/-- One socket, new or made from a descriptor. -/
def lifeMachine : Machine SocketLife LifeAct where
  Init s := ∃ id table, s = .new id table ∨ ∃ fd, s = .fromFd fd id table
  Enabled := SocketLife.Enabled
  next := SocketLife.next

instance : ∀ s a, Decidable (lifeMachine.Enabled s a) :=
  fun s a => inferInstanceAs (Decidable (s.Enabled a))

/-! ### The operations in a life -/

namespace SocketLife

/-- The step of the operations that a step is. -/
def act (s : SocketLife) : LifeAct → OpsAct
  | .op a => s.state.act a
  | .tcpConnect timed (.ok _) r ok => s.state.act (.connect timed r ok)
  | .tcpConnect _ (.error e) _ _ => .start .accept false false (.failed (.os e))
  | .drop => s.state.act .close
  | .openSocket _ | .bind _ | .listen _ | .tcpListen _ _ _ _ | .dispatchOld _ _ => .idle

end SocketLife

/-- `register_fd` succeeds. -/
def LifeAct.registers : LifeAct → Bool
  | .op a => a.Registers
  | .tcpConnect _ _ _ ok => ok
  | _ => true

namespace SocketLife

theorem log_apply (s : SocketLife) (a : SocketAct) :
    (s.apply a).log = s.log.next (s.state.act a) a.Registers :=
  OpsLog.ext (s.state.ops_next a) rfl rfl rfl

theorem log_openSocket (s : SocketLife) (o : Except Errno Fd) : (s.openSocket o).log = s.log := by
  cases o <;> rfl

/-- Whatever fails after `open`, the descriptor stays. -/
theorem tcpListen_eq (s : SocketLife) (o : Except Errno Fd)
    (options bound listening : Except Errno Unit) :
    s.tcpListen o options bound listening = s.openSocket o := by
  cases o with
  | error e => rfl
  | ok fd =>
      cases options with
      | error e => rfl
      | ok u => cases bound <;> rfl

theorem log_dispatchOld (s : SocketLife) (fd : Fd) (flags : UInt32) :
    (s.dispatchOld fd flags).log = s.log := by
  unfold dispatchOld
  split <;> rfl

theorem log_refuse (s : SocketLife) (e : Errno) (registers : Bool) :
    (s.refuse e).log = s.log.next (.start .accept false false (.failed (.os e))) registers :=
  OpsLog.ext rfl (List.append_nil _).symm (s.log.unwatched_next rfl registers).symm rfl

/-- A step in the life of the socket is a step of its operations. -/
theorem log_next (s : SocketLife) (a : LifeAct) :
    (s.next a).log = s.log.next (s.act a) a.registers := by
  cases a with
  | op a => exact s.log_apply a
  | openSocket o => exact (s.log_openSocket o).trans (OpsLog.next_idle ..).symm
  | bind r | listen r => exact (OpsLog.next_idle ..).symm
  | tcpConnect timed o r ok =>
      cases o with
      | error e => exact s.log_refuse e ok
      | ok fd =>
          have h := (s.openSocket (.ok fd)).log_apply (.connect timed r ok)
          rw [s.log_openSocket] at h
          exact h.trans (congrArg (s.log.next _) Bool.decide_eq_true)
  | tcpListen o options bound listening =>
      have h := s.tcpListen_eq o options bound listening
      exact (congrArg log h).trans ((s.log_openSocket o).trans (OpsLog.next_idle ..).symm)
  | dispatchOld fd flags => exact (s.log_dispatchOld fd flags).trans (OpsLog.next_idle ..).symm
  | drop => exact s.log_apply .close

end SocketLife

end RustNet
