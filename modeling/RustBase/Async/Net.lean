import RustBase.Async.Source
import RustBase.Support.FileContent

/-!
# Async — the operations on a descriptor

Every operation of `net.rs` and of `os/unix/net.rs` is the same loop: make the non-blocking call,
and when it says `WouldBlock`, poll the source for the direction of the call and go round again
when that is ready.  It is written in two forms.

* As an `async fn` (`read`, `write`, `accept`, `send_to`, `recv_from`, `send`, `recv`): the future
  stays in the `await` and polls the source first when it is polled again.
* As a poll function (`poll_read`, `poll_write`, `Incoming::poll_next`): nothing is kept between two
  polls, and each one makes the call first.  The next poll may be for another buffer.

A `Socket` says what the calls do to the kernel's side of the descriptor, and what the peer does to
it.  Any number of tasks have operations on the descriptor, through clones or shared references;
between any two steps of a task the others, the peer and the IO thread may take theirs.  A future
may be dropped whenever it is not being polled, which does nothing else.
-/

namespace RustAsync
open Support RustIo

/-- The kernel's side of a non-blocking descriptor: `ι` are the calls with their arguments, `ρ` what
they return, and `ε` what the other end does. -/
structure Socket (κ ι ρ ε : Type*) where
  direction : ι → Direction
  /-- `none` is `ErrorKind::WouldBlock`, which leaves everything as it is -/
  call : ι → κ → Option (ρ × κ)
  env : ε → κ → κ

inductive OpForm where
  | future
  | poll
  deriving DecidableEq

/-- An operation of a task, with the waker of its last poll. -/
inductive NetPhase (ι : Type*) where
  | idle
  /-- the call is next -/
  | trying (f : OpForm) (x : ι) (w : WakerId)
  /-- the call said `WouldBlock`; the poll of the source is next -/
  | blocked (f : OpForm) (x : ι) (w : WakerId)
  /-- the poll of the operation returned `Poll::Pending` -/
  | suspended (f : OpForm) (x : ι) (w : WakerId)
  deriving DecidableEq

inductive NetEvent (ι ρ ε : Type*) where
  /-- a poll of the operation begins -/
  | polled (t : ℕ) (x : ι)
  | blocked (t : ℕ) (x : ι)
  | done (t : ℕ) (x : ι) (r : ρ)
  /-- the source was ready, and the loop goes round -/
  | retried (t : ℕ) (x : ι)
  | cancelled (t : ℕ) (x : ι)
  | peer (e : ε)
  /-- an `FdWatcher` method of the source is called -/
  | callback (d : Direction)
  deriving DecidableEq

structure NetState (κ ι ρ ε : Type*) where
  reactor : ReactorState
  kernel : κ
  ops : ℕ → NetPhase ι
  log : List (NetEvent ι ρ ε)

inductive NetAct (κ ι ρ ε : Type*) where
  | start (t : ℕ) (f : OpForm) (x : ι) (w : WakerId)
  /-- the `await` is polled again -/
  | resumeFuture (t : ℕ) (x : ι) (w w' : WakerId)
  /-- the poll function is called again -/
  | resumePoll (t : ℕ) (x x' : ι) (w w' : WakerId)
  | finish (t : ℕ) (f : OpForm) (x : ι) (w : WakerId) (r : ρ) (k : κ)
  | wouldBlock (t : ℕ) (f : OpForm) (x : ι) (w : WakerId)
  /-- the poll of the source returns `Poll::Ready` -/
  | ready (t : ℕ) (f : OpForm) (x : ι) (w : WakerId)
  /-- the poll of the source returns `Poll::Pending` -/
  | park (t : ℕ) (f : OpForm) (x : ι) (w : WakerId)
  | cancel (t : ℕ) (f : OpForm) (x : ι) (w : WakerId)
  | env (e : ε)
  /-- a step of the IO thread -/
  | io (a : SourceAct)

/-- The steps of the IO thread. -/
def SourceAct.IsIo : SourceAct → Prop
  | .poll _ _ => False
  | _ => True

instance : ∀ a : SourceAct, Decidable a.IsIo
  | .poll _ _ => inferInstanceAs (Decidable False)
  | .arm _ _ _ | .dispatch _ | .call _ _ | .wake _ _ _ | .dispatchDone =>
      inferInstanceAs (Decidable True)

def SourceAct.callback : SourceAct → Option Direction
  | .call c _ => some c.direction
  | _ => none

namespace NetState

variable {κ ι ρ ε : Type*} (S : Socket κ ι ρ ε)

def init (reactor : ReactorState) (kernel : κ) : NetState κ ι ρ ε where
  reactor := reactor
  kernel := kernel
  ops _ := .idle
  log := []

def Enabled (s : NetState κ ι ρ ε) : NetAct κ ι ρ ε → Prop
  | .start t _ _ _ => s.ops t = .idle
  | .resumeFuture t x w _ => s.ops t = .suspended .future x w
  | .resumePoll t x _ w _ => s.ops t = .suspended .poll x w
  | .finish t f x w r k => s.ops t = .trying f x w ∧ S.call x s.kernel = some (r, k)
  | .wouldBlock t f x w => s.ops t = .trying f x w ∧ S.call x s.kernel = none
  | .ready t f x w =>
      s.ops t = .blocked f x w ∧ s.reactor.source.ready (S.direction x) = true
  | .park t f x w =>
      s.ops t = .blocked f x w ∧ s.reactor.source.ready (S.direction x) = false
  | .cancel t f x w => s.ops t = .suspended f x w
  | .env _ => True
  | .io a => a.IsIo ∧ s.reactor.Enabled a

variable {S} in
/-- The task moves to the phase, and the event is written down. -/
def move (s : NetState κ ι ρ ε) (t : ℕ) (p : NetPhase ι) (e : List (NetEvent ι ρ ε)) :
    NetState κ ι ρ ε :=
  { s with ops := Function.update s.ops t p, log := s.log ++ e }

/-- The poll of the source for the direction of the call. -/
def pollSource (s : NetState κ ι ρ ε) (x : ι) (w : WakerId) : NetState κ ι ρ ε :=
  { s with reactor := s.reactor.poll (S.direction x) w }

def next (s : NetState κ ι ρ ε) : NetAct κ ι ρ ε → NetState κ ι ρ ε
  | .start t f x w => s.move t (.trying f x w) [.polled t x]
  | .resumeFuture t x _ w' => s.move t (.blocked .future x w') [.polled t x]
  | .resumePoll t _ x' _ w' => s.move t (.trying .poll x' w') [.polled t x']
  | .finish t _ x _ r k => { s.move t .idle [.done t x r] with kernel := k }
  | .wouldBlock t f x w => s.move t (.blocked f x w) [.blocked t x]
  | .ready t f x w => (s.pollSource S x w).move t (.trying f x w) [.retried t x]
  | .park t f x w => (s.pollSource S x w).move t (.suspended f x w) []
  | .cancel t _ x _ => s.move t .idle [.cancelled t x]
  | .env e => { s with kernel := S.env e s.kernel, log := s.log ++ [.peer e] }
  | .io a =>
      { s with
        reactor := s.reactor.next a
        log := s.log ++ (a.callback.map NetEvent.callback).toList }

end NetState

/-- No operation has begun, and the pump does not watch the descriptor. -/
def netMachine {κ ι ρ ε : Type*} (S : Socket κ ι ρ ε) (k₀ : κ) :
    Machine (NetState κ ι ρ ε) (NetAct κ ι ρ ε) where
  Init s := ∃ r, sourceMachine.Init r ∧ s = .init r k₀
  Enabled := NetState.Enabled S
  next := NetState.next S

section Decidable

variable {κ ι ρ ε : Type*} [DecidableEq κ] [DecidableEq ι] [DecidableEq ρ] (S : Socket κ ι ρ ε)

instance NetState.decidableEnabled (s : NetState κ ι ρ ε) : ∀ a, Decidable (s.Enabled S a)
  | .start _ _ _ _ | .resumeFuture _ _ _ _ | .resumePoll _ _ _ _ _ | .cancel _ _ _ _ =>
      inferInstanceAs (Decidable (_ = _))
  | .finish _ _ _ _ _ _ | .wouldBlock _ _ _ _ | .ready _ _ _ _ | .park _ _ _ _ | .io _ =>
      inferInstanceAs (Decidable (_ ∧ _))
  | .env _ => inferInstanceAs (Decidable True)

instance netMachine.decidable (k₀ : κ) (s : NetState κ ι ρ ε) (a : NetAct κ ι ρ ε) :
    Decidable ((netMachine S k₀).Enabled s a) :=
  inferInstanceAs (Decidable (s.Enabled S a))

end Decidable

/-! ### The latches of the source -/

namespace SourceState

theorem ready_setReady (x : SourceState) (d : Direction) (b : Bool) :
    (x.setReady d b).ready = Function.update x.ready d b := by
  funext d'
  cases d <;> cases d' <;> rfl

theorem ready_setWaker (x : SourceState) (d : Direction) (w : Option WakerId) :
    (x.setWaker d w).ready = x.ready := by
  funext d'
  cases d <;> cases d' <;> rfl

theorem ready_updateArm (x : SourceState) : x.updateArm.1.ready = x.ready := by
  unfold updateArm
  split <;> rfl

end SourceState

namespace ReactorState

variable {s : ReactorState}

/-- A poll that returns `Poll::Ready` takes the latch. -/
theorem ready_poll (s : ReactorState) (d : Direction) (w : WakerId) :
    (s.poll d w).source.ready = Function.update s.source.ready d false := by
  cases hd : s.source.ready d with
  | true =>
      rw [poll_of_ready w hd]
      exact SourceState.ready_setReady ..
  | false =>
      rw [poll_of_not_ready w hd]
      refine (SourceState.ready_updateArm _).trans ?_
      rw [SourceState.ready_setWaker, ← hd, Function.update_eq_self]

/-- A call of an `FdWatcher` method sets the latch. -/
theorem ready_call (s : ReactorState) (c : Call) (cs : List Call) :
    (s.call c cs).source.ready = Function.update s.source.ready c.direction true := by
  simp only [call, SourceState.onFileReady]
  rw [SourceState.ready_updateArm, SourceState.ready_setWaker, SourceState.ready_setReady]
  rfl

/-- No other step of the IO thread touches the source. -/
theorem source_next (s : ReactorState) {a : SourceAct} (hio : a.IsIo) (ha : a.callback = none) :
    (s.next a).source = s.source := by
  cases a with
  | poll d w => cases hio
  | call c cs => cases ha
  | dispatch flags =>
      simp only [next, dispatch]
      split <;> rfl
  | arm mode rest ok => rfl
  | wake d w cs => rfl
  | dispatchDone => rfl

end ReactorState

/-! ### A TCP stream -/

structure TcpKernel where
  /-- received and not yet read -/
  inbound : Bytes
  /-- all that was ever received -/
  arrived : Bytes
  /-- the peer has shut down its side, or the connection is gone -/
  eof : Bool
  /-- what the send buffer has room for -/
  room : ℕ
  writeShut : Bool
  /-- `SO_ERROR` -/
  error : Option IoError
  reset : Bool
  /-- the next call transfers at most one byte more than this -/
  limit : ℕ
  deriving DecidableEq

inductive TcpCall where
  | read (len : ℕ)
  | write (buf : Bytes)
  /-- `shutdown(Shutdown::Write)`, which is `poll_close` -/
  | shutdownWrite
  deriving DecidableEq

/-- What the peer and the network do. -/
inductive TcpPeer where
  | send (bs : Bytes)
  | fin
  | reset (e : IoError)
  /-- some of what was sent is acknowledged -/
  | drain (n : ℕ)
  | setLimit (n : ℕ)
  deriving DecidableEq

def epipe : IoError := 32
def enotconn : IoError := 107

namespace TcpKernel

def new (room : ℕ) : TcpKernel := ⟨[], [], false, room, false, none, false, 0⟩

def direction : TcpCall → Direction
  | .read _ => .read
  | .write _ | .shutdownWrite => .write

/-- The bytes the call transferred, or its error. -/
def call : TcpCall → TcpKernel → Option (Except IoError Bytes × TcpKernel)
  | .read len, k =>
      if k.inbound ≠ [] then
        let n := min len (k.limit + 1)
        some (.ok (k.inbound.take n), { k with inbound := k.inbound.drop n })
      else match k.error with
        | some e => some (.error e, { k with error := none })
        | none => if k.eof then some (.ok [], k) else none
  | .write buf, k =>
      match k.error with
      | some e => some (.error e, { k with error := none })
      | none =>
          if k.writeShut then some (.error epipe, k)
          else if buf = [] then some (.ok [], k)
          else if k.room = 0 then none
          else
            let n := min k.room (k.limit + 1)
            some (.ok (buf.take n), { k with room := k.room - (buf.take n).length })
  | .shutdownWrite, k =>
      if k.reset then some (.error enotconn, k) else some (.ok [], { k with writeShut := true })

/-- Nothing arrives after the end of the stream. -/
def env : TcpPeer → TcpKernel → TcpKernel
  | .send bs, k =>
      if k.eof then k else { k with inbound := k.inbound ++ bs, arrived := k.arrived ++ bs }
  | .fin, k => { k with eof := true }
  | .reset e, k => { k with eof := true, writeShut := true, error := some e, reset := true }
  | .drain n, k => { k with room := k.room + n }
  | .setLimit n, k => { k with limit := n }

end TcpKernel

/-- `Async`, which is also `TcpStream`, and `UnixStream`. -/
def tcpStream : Socket TcpKernel TcpCall (Except IoError Bytes) TcpPeer where
  direction := TcpKernel.direction
  call := TcpKernel.call
  env := TcpKernel.env

/-! ### A listener -/

/-- A connection, by its number. -/
abbrev ConnId := ℕ

structure ListenKernel where
  /-- established and not yet accepted -/
  backlog : List ConnId
  arrived : List ConnId
  /-- what the next `accept4` fails with -/
  error : Option IoError
  /-- the connections for which `set_nonblocking` fails -/
  refuses : List (ConnId × IoError)
  deriving DecidableEq

inductive Accepted where
  | conn (c : ConnId)
  /-- `Async::new` failed, and its stream was dropped -/
  | closed (c : ConnId) (e : IoError)
  | failed (e : IoError)
  deriving DecidableEq

inductive ListenPeer where
  | connect (c : ConnId)
  | fail (e : IoError)
  deriving DecidableEq

namespace ListenKernel

def new (refuses : List (ConnId × IoError)) : ListenKernel := ⟨[], [], none, refuses⟩

/-- `accept` and one round of `Incoming::poll_next`. -/
def call (_ : Unit) (k : ListenKernel) : Option (Accepted × ListenKernel) :=
  match k.error, k.backlog with
  | some e, _ => some (.failed e, { k with error := none })
  | none, [] => none
  | none, c :: cs =>
      match k.refuses.lookup c with
      | some e => some (.closed c e, { k with backlog := cs })
      | none => some (.conn c, { k with backlog := cs })

def env : ListenPeer → ListenKernel → ListenKernel
  | .connect c, k => { k with backlog := k.backlog ++ [c], arrived := k.arrived ++ [c] }
  | .fail e, k => { k with error := some e }

end ListenKernel

/-- `TcpListener` and `UnixListener`. -/
def listener : Socket ListenKernel Unit Accepted ListenPeer where
  direction _ := .read
  call := ListenKernel.call
  env := ListenKernel.env

end RustAsync
