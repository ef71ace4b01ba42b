import RustBase.Async.Net
import RustBase.Async.Parked
import RustBase.Net.SockAddr

/-!
# Async — connecting

`Async::connect` resolves the address on the blocking pool and tries what it gets in turn: each
attempt opens a socket, starts the connection, makes an `Async` of it with a `Source` of its own,
waits until that is writable and asks for `SO_ERROR`.

* The calls answer as they like; what the network does to the handshake of the socket, and the steps
  of the IO thread on its source, come in between.
* `epoll` does not report a socket whose handshake is under way.
* The future may be dropped where it waits: for the resolver, or for the socket.

**`connect_outcome`**: the addresses are tried in their order up to the first that accepts; what is
returned has accepted, or is the error of the last one; no other socket is left open; and the wake-up
that the attempt waits for is not lost.
-/

namespace RustAsync
open Support RustIo
open RustNet (SocketAddr)

inductive ConnectError where
  | os (e : IoError)
  /-- of kind `ErrorKind::InvalidInput` -/
  | invalidInput (text : String)
  deriving DecidableEq

/-- What the kernel knows of the connection of a socket. -/
inductive Handshake where
  | unbegun
  | pending
  | established
  /-- refused, or reset; `SO_ERROR` is still to be taken -/
  | failed (e : IoError)
  deriving DecidableEq

/-- What `connect(2)` answers. -/
inductive ConnectReply where
  | ok
  | inProgress
  | error (e : IoError)
  deriving DecidableEq

/-- The socket of `connect_one`, and the loop around it. -/
structure Attempt where
  fd : Fd
  addr : SocketAddr
  rest : List SocketAddr
  lastErr : Option IoError
  deriving DecidableEq

inductive ConnectPhase where
  | resolving
  /-- at the head of the loop -/
  | loop (rest : List SocketAddr) (lastErr : Option IoError)
  /-- in `start_connect`; `connect(2)` is next -/
  | starting (c : Attempt)
  /-- `set_nonblocking` is next -/
  | wrapping (c : Attempt)
  /-- the first poll of `writable` is next -/
  | writable (c : Attempt)
  | parked (c : Attempt) (w : WakerId)
  /-- `take_socket_error` is next -/
  | asking (c : Attempt)
  | returned (r : Except ConnectError Fd)
  | dropped
  deriving DecidableEq

namespace ConnectPhase

/-- The attempt has its source. -/
def sourced : ConnectPhase → Option Attempt
  | .writable c | .parked c _ | .asking c => some c
  | .resolving | .loop _ _ | .starting _ | .wrapping _ | .returned _ | .dropped => none

/-- The attempt whose source is to be polled. -/
def awaits : ConnectPhase → Option Attempt
  | .writable c | .parked c _ => some c
  | .resolving | .loop _ _ | .starting _ | .wrapping _ | .asking _ | .returned _ | .dropped => none

/-- `connect(2)` has been called. -/
def begun : ConnectPhase → Bool
  | .wrapping _ | .writable _ | .parked _ _ | .asking _ => true
  | .resolving | .loop _ _ | .starting _ | .returned _ | .dropped => false

/-- The future waits. -/
def suspended : ConnectPhase → Bool
  | .resolving | .parked _ _ => true
  | .loop _ _ | .starting _ | .wrapping _ | .writable _ | .asking _ | .returned _ | .dropped => false

/-- The socket that the call, or its result, owns. -/
def socket : ConnectPhase → Option Fd
  | .starting c | .wrapping c | .writable c | .parked c _ | .asking c => some c.fd
  | .returned (.ok fd) => some fd
  | .resolving | .loop _ _ | .returned (.error _) | .dropped => none

end ConnectPhase

structure ConnectState where
  phase : ConnectPhase
  /-- what the resolver has answered -/
  resolved : Option (Except IoError (List SocketAddr))
  /-- the attempts that are over, and their errors -/
  tried : List (SocketAddr × Option IoError)
  /-- the sockets that were opened and not closed -/
  opened : List Fd
  /-- of the last socket -/
  handshake : Handshake
  /-- the last socket has been connected -/
  accepted : Bool
  /-- the source of the last socket -/
  reactor : ReactorState

inductive ConnectAct where
  | resolve (r : Except IoError (List SocketAddr))
  | cancel
  | socket (a : SocketAddr) (rest : List SocketAddr) (lastErr : Option IoError) (r : Except IoError Fd)
  /-- the loop is over -/
  | exhausted (lastErr : Option IoError)
  | connect (c : Attempt) (r : ConnectReply)
  | setNonblocking (c : Attempt) (r : Except IoError Unit)
  /-- a poll of `writable`, the first one or by a poll of the future that waits -/
  | poll (c : Attempt) (w : WakerId)
  | getsockopt (c : Attempt) (r : Except IoError Unit)
  /-- the handshake ends, or the connection is reset -/
  | settle (r : Option IoError)
  | io (a : SourceAct)

/-- The dispatch loop handles an event. -/
def SourceAct.dispatches : SourceAct → Bool
  | .dispatch _ => true
  | .poll _ _ | .arm _ _ _ | .call _ _ | .wake _ _ _ | .dispatchDone => false

namespace ConnectState

def init : ConnectState where
  phase := .resolving
  resolved := none
  tried := []
  opened := []
  handshake := .unbegun
  accepted := false
  reactor := .init 0 0 .new

def Enabled (s : ConnectState) : ConnectAct → Prop
  | .resolve _ => s.phase = .resolving
  | .cancel => s.phase.suspended = true
  | .socket a rest l r => s.phase = .loop (a :: rest) l ∧ ∀ fd ∈ s.opened, r ≠ .ok fd
  | .exhausted l => s.phase = .loop [] l
  | .connect c _ => s.phase = .starting c
  | .setNonblocking c _ => s.phase = .wrapping c
  | .poll c _ => s.phase.awaits = some c
  | .getsockopt c _ => s.phase = .asking c
  | .settle _ => s.handshake = .pending ∨ s.handshake = .established
  | .io a =>
      s.phase.sourced.isSome = true ∧ a.IsIo ∧ s.reactor.Enabled a ∧
        (a.dispatches = true → s.handshake ≠ .pending)

instance (s : ConnectState) : ∀ a, Decidable (s.Enabled a)
  | .resolve _ | .cancel | .exhausted _ | .connect _ _ | .setNonblocking _ _ | .poll _ _
  | .getsockopt _ _ => inferInstanceAs (Decidable (_ = _))
  | .socket _ _ _ _ | .io _ => inferInstanceAs (Decidable (_ ∧ _))
  | .settle _ => inferInstanceAs (Decidable (_ ∨ _))

/-- The attempt is over, and its socket is dropped. -/
def fail (s : ConnectState) (c : Attempt) (e : IoError) : ConnectState :=
  { s with
    phase := .loop c.rest (some e)
    opened := s.opened.erase c.fd
    tried := s.tried ++ [(c.addr, some e)] }

/-- `take_socket_error` and the match on it. -/
def takeSocketError (s : ConnectState) (c : Attempt) : Except IoError Unit → ConnectState
  | .error e => s.fail c e
  | .ok _ =>
      match s.handshake with
      | .failed e => s.fail c e
      | .unbegun | .pending | .established =>
          { s with phase := .returned (.ok c.fd), tried := s.tried ++ [(c.addr, none)] }

def next (s : ConnectState) : ConnectAct → ConnectState
  | .resolve (.error e) =>
      { s with phase := .returned (.error (.os e)), resolved := some (.error e) }
  | .resolve (.ok l) => { s with phase := .loop l none, resolved := some (.ok l) }
  | .cancel => { s with phase := .dropped, opened := s.opened.filter (s.phase.socket ≠ some ·) }
  | .socket a rest _ (.error e) =>
      { s with phase := .loop rest (some e), tried := s.tried ++ [(a, some e)] }
  | .socket a rest l (.ok fd) =>
      { s with
        phase := .starting ⟨fd, a, rest, l⟩
        opened := fd :: s.opened
        handshake := .unbegun
        accepted := false }
  | .exhausted (some e) => { s with phase := .returned (.error (.os e)) }
  | .exhausted none =>
      { s with phase := .returned (.error (.invalidInput "could not resolve to any address")) }
  | .connect c .ok => { s with phase := .wrapping c, handshake := .established, accepted := true }
  | .connect c .inProgress => { s with phase := .wrapping c, handshake := .pending }
  | .connect c (.error e) => s.fail c e
  | .setNonblocking c (.error e) => s.fail c e
  | .setNonblocking c (.ok _) =>
      { s with phase := .writable c, reactor := .init c.fd s.tried.length .new }
  | .poll c w =>
      { s with
        phase := if s.reactor.source.ready .write then .asking c else .parked c w
        reactor := s.reactor.poll .write w }
  | .getsockopt c r => s.takeSocketError c r
  | .settle none => { s with handshake := .established, accepted := true }
  | .settle (some e) => { s with handshake := .failed e }
  | .io a => { s with reactor := s.reactor.next a }

end ConnectState

/-- A call of `connect`.  Each source is alone on its pump, as a live one is. -/
def connectMachine : Machine ConnectState ConnectAct where
  Init s := s = .init
  Enabled := ConnectState.Enabled
  next := ConnectState.next

instance : ∀ s a, Decidable (connectMachine.Enabled s a) :=
  fun s a => inferInstanceAs (Decidable (s.Enabled a))

/-! ### The loop -/

/-- The addresses still to be tried, the one of the attempt under way included, and `last_err`. -/
def ConnectPhase.todo : ConnectPhase → Option (List SocketAddr × Option IoError)
  | .loop rest l => some (rest, l)
  | .starting c | .wrapping c | .writable c | .parked c _ | .asking c =>
      some (c.addr :: c.rest, c.lastErr)
  | .resolving | .returned _ | .dropped => none

theorem ConnectPhase.of_awaits {p : ConnectPhase} {c : Attempt} (h : p.awaits = some c) :
    p = .writable c ∨ ∃ w, p = .parked c w := by
  cases p <;> cases h
  · exact .inl rfl
  · exact .inr ⟨_, rfl⟩

namespace ConnectState

variable {s : ConnectState}

/-- The error of the last attempt. -/
def lastError (tried : List (SocketAddr × Option IoError)) : Option IoError :=
  tried.getLast?.bind Prod.snd

/-- All attempts so far have failed. -/
def Failed (s : ConnectState) : Prop := ∀ x ∈ s.tried, x.2 ≠ none

/-- The addresses up to the last one tried, which alone has not failed. -/
def FirstSuccess (s : ConnectState) : Prop :=
  ∃ before a rest, s.tried = before ++ [(a, none)] ∧ (∀ x ∈ before, x.2 ≠ none) ∧
    s.resolved = some (.ok (before.map Prod.fst ++ a :: rest))

/-- The error of the resolver, or that of the last address. -/
def LastError (s : ConnectState) (e : ConnectError) : Prop :=
  (∃ e', s.resolved = some (.error e') ∧ s.tried = [] ∧ e = .os e') ∨
    s.resolved = some (.ok (s.tried.map Prod.fst)) ∧ s.Failed ∧
      match lastError s.tried with
      | some e' => e = .os e'
      | none => s.tried = [] ∧ e = .invalidInput "could not resolve to any address"

structure Books (s : ConnectState) : Prop where
  opened : s.opened = s.phase.socket.toList
  resolving : s.phase = .resolving → s.tried = []
  todo : ∀ rest l, s.phase.todo = some (rest, l) →
    s.resolved = some (.ok (s.tried.map Prod.fst ++ rest)) ∧ s.Failed ∧ l = lastError s.tried
  ok : ∀ fd, s.phase = .returned (.ok fd) → s.FirstSuccess
  error : ∀ e, s.phase = .returned (.error e) → s.LastError e

namespace Books

/-- The call goes on with the same addresses. -/
theorem go (h : s.Books) {p : ConnectPhase} {x : Handshake} {b : Bool} {r : ReactorState}
    (ht : p.todo = s.phase.todo) (hs : p.todo.isSome = true) (ho : p.socket = s.phase.socket) :
    Books { s with phase := p, handshake := x, accepted := b, reactor := r } where
  opened := h.opened.trans (congrArg _ ho.symm)
  resolving hp := by cases hp; cases hs
  todo rest l hp := h.todo rest l (ht ▸ hp)
  ok fd hp := by cases hp; cases hs
  error e hp := by cases hp; cases hs

/-- The attempt has failed, with no socket or with one that is closed. -/
theorem fail (h : s.Books) {a : SocketAddr} {rest : List SocketAddr} {l : Option IoError}
    (ht : s.phase.todo = some (a :: rest, l)) {e : IoError} {o : List Fd} (ho : o = []) :
    Books { s with phase := .loop rest (some e), opened := o, tried := s.tried ++ [(a, some e)] } := by
  obtain ⟨hr, hf, -⟩ := h.todo _ _ ht
  refine ⟨ho, nofun, fun rest' l' hp => ?_, nofun, nofun⟩
  cases hp
  refine ⟨?_, fun x hx => ?_, ?_⟩
  · simpa using hr
  · rcases List.mem_append.mp hx with hx | hx
    · exact hf x hx
    · rw [List.mem_singleton.mp hx]
      exact nofun
  · simp [lastError]

theorem fail_attempt (h : s.Books) {c : Attempt} (ho : s.phase.socket = some c.fd)
    (ht : s.phase.todo = some (c.addr :: c.rest, c.lastErr)) {e : IoError} :
    (s.fail c e).Books := by
  refine h.fail ht ?_
  rw [h.opened, ho]
  simp

theorem takeSocketError (h : s.Books) {c : Attempt} (hp : s.phase = .asking c)
    (r : Except IoError Unit) : (s.takeSocketError c r).Books := by
  have failed : ∀ e, (s.fail c e).Books := fun e =>
    h.fail_attempt (by rw [hp]; rfl) (by rw [hp]; rfl)
  have returned : Books { s with
      phase := .returned (.ok c.fd)
      tried := s.tried ++ [(c.addr, none)] } := by
    obtain ⟨hr, hf, -⟩ := h.todo _ _ (by rw [hp]; rfl)
    refine ⟨?_, nofun, nofun, fun fd _ => ⟨s.tried, c.addr, c.rest, rfl, hf, hr⟩, nofun⟩
    rw [h.opened, hp]
    rfl
  unfold ConnectState.takeSocketError
  cases r with
  | error e => exact failed e
  | ok u =>
      cases hh : s.handshake with
      | failed e => exact failed e
      | unbegun => simpa only [hh] using returned
      | pending => simpa only [hh] using returned
      | established => simpa only [hh] using returned

theorem next (h : s.Books) {a : ConnectAct} (ha : s.Enabled a) : (s.next a).Books := by
  cases a with
  | resolve r =>
      have none : s.tried = [] := h.resolving ha
      have opened : s.opened = [] := h.opened.trans (by rw [show s.phase = _ from ha]; rfl)
      cases r with
      | error e => exact ⟨opened, nofun, nofun, nofun, fun e' he => .inl ⟨e, rfl, none, by cases he; rfl⟩⟩
      | ok l =>
          refine ⟨opened, nofun, fun rest l' hp => ?_, nofun, nofun⟩
          cases hp
          change some (Except.ok l) = some (Except.ok (s.tried.map Prod.fst ++ l)) ∧ s.Failed ∧
            Option.none = lastError s.tried
          simp [Failed, none, lastError]
  | cancel =>
      refine ⟨?_, nofun, nofun, nofun, nofun⟩
      change s.opened.filter _ = []
      rw [h.opened]
      cases hs : s.phase.socket <;> simp
  | socket a rest l r =>
      obtain ⟨hp, -⟩ := ha
      have todo : s.phase.todo = some (a :: rest, l) := by rw [hp]; rfl
      have opened : s.opened = [] := h.opened.trans (by rw [hp]; rfl)
      cases r with
      | error e => exact h.fail todo opened
      | ok fd =>
          refine ⟨congrArg _ opened, nofun, fun rest' l' hp => ?_, nofun, nofun⟩
          exact h.todo rest' l' (todo.trans hp)
  | exhausted l =>
      have hp : s.phase = .loop [] l := ha
      obtain ⟨hr, hf, hl⟩ := h.todo _ _ (by rw [hp]; rfl)
      rw [List.append_nil] at hr
      have opened : s.opened = [] := h.opened.trans (by rw [hp]; rfl)
      cases l with
      | some e =>
          refine ⟨opened, nofun, nofun, nofun, fun e' he => .inr ⟨hr, hf, ?_⟩⟩
          cases he
          change match lastError s.tried with | some e' => _ | none => _
          rw [← hl]
      | none =>
          refine ⟨opened, nofun, nofun, nofun, fun e' he => .inr ⟨hr, hf, ?_⟩⟩
          cases he
          change match lastError s.tried with | some e' => _ | none => _
          rw [← hl]
          refine ⟨?_, rfl⟩
          -- the last attempt, if there is one, has an error
          cases ht : s.tried.getLast? with
          | none => exact List.getLast?_eq_none_iff.mp ht
          | some x =>
              rw [lastError, ht] at hl
              exact absurd hl.symm (hf x (List.mem_of_getLast? ht))
  | connect c r =>
      have hp : s.phase = .starting c := ha
      cases r with
      | ok => exact h.go (by rw [hp]; rfl) rfl (by rw [hp]; rfl)
      | inProgress => exact h.go (by rw [hp]; rfl) rfl (by rw [hp]; rfl)
      | error e => exact h.fail_attempt (by rw [hp]; rfl) (by rw [hp]; rfl)
  | setNonblocking c r =>
      have hp : s.phase = .wrapping c := ha
      cases r with
      | ok u => exact h.go (by rw [hp]; rfl) rfl (by rw [hp]; rfl)
      | error e => exact h.fail_attempt (by rw [hp]; rfl) (by rw [hp]; rfl)
  | poll c w =>
      have same : s.phase.todo = some (c.addr :: c.rest, c.lastErr) ∧ s.phase.socket = some c.fd := by
        rcases ConnectPhase.of_awaits ha with hp | ⟨w, hp⟩ <;> rw [hp] <;> exact ⟨rfl, rfl⟩
      simp only [ConnectState.next]
      split
      · exact h.go same.1.symm rfl same.2.symm
      · exact h.go same.1.symm rfl same.2.symm
  | getsockopt c r => exact h.takeSocketError ha r
  | settle r =>
      cases r <;> exact ⟨h.opened, h.resolving, h.todo, h.ok, h.error⟩
  | io a => exact ⟨h.opened, h.resolving, h.todo, h.ok, h.error⟩

end Books

/-! ### The handshake -/

/-- What is known of the handshake. -/
structure Heard (s : ConnectState) : Prop where
  begun : s.phase.begun = true → s.handshake ≠ .unbegun
  accepted : s.handshake = .established → s.accepted = true
  /-- the source has heard of its end -/
  latch : s.phase.sourced.isSome = true →
    s.reactor.source.ready .write = true ∨ s.reactor.phase ≠ .idle → s.handshake ≠ .pending
  asking : ∀ c, s.phase = .asking c → s.handshake ≠ .pending
  ok : ∀ fd, s.phase = .returned (.ok fd) → s.accepted = true

namespace Heard

/-- The attempt is over. -/
theorem fail (h : s.Heard) (c : Attempt) (e : IoError) : (s.fail c e).Heard :=
  ⟨nofun, h.accepted, nofun, nofun, nofun⟩

/-- A step of the IO thread that is not a dispatch does not wake from nothing. -/
theorem latch_io {r : ReactorState} {a : SourceAct} (hio : a.IsIo) (ha : r.Enabled a)
    (hd : a.dispatches = false)
    (h : (r.next a).source.ready .write = true ∨ (r.next a).phase ≠ .idle) :
    r.source.ready .write = true ∨ r.phase ≠ .idle := by
  cases a with
  | poll d w => cases hio
  | dispatch flags => cases hd
  | arm mode rest ok => exact h
  | call c cs => exact .inr (by rw [show r.phase = _ from ha]; exact nofun)
  | wake d w cs => exact .inr (by rw [show r.phase = _ from ha]; exact nofun)
  | dispatchDone => exact .inr (by rw [show r.phase = _ from ha]; exact nofun)

theorem next (h : s.Heard) {a : ConnectAct} (ha : s.Enabled a) : (s.next a).Heard := by
  cases a with
  | resolve r => cases r <;> exact ⟨nofun, h.accepted, nofun, nofun, nofun⟩
  | cancel => exact ⟨nofun, h.accepted, nofun, nofun, nofun⟩
  | socket a rest l r =>
      cases r with
      | error e => exact ⟨nofun, h.accepted, nofun, nofun, nofun⟩
      | ok fd => exact ⟨nofun, nofun, nofun, nofun, nofun⟩
  | exhausted l => cases l <;> exact ⟨nofun, h.accepted, nofun, nofun, nofun⟩
  | connect c r =>
      cases r with
      | ok => exact ⟨nofun, fun _ => rfl, nofun, nofun, nofun⟩
      | inProgress => exact ⟨nofun, nofun, nofun, nofun, nofun⟩
      | error e => exact h.fail c e
  | setNonblocking c r =>
      cases r with
      | error e => exact h.fail c e
      | ok u =>
          have begun := h.begun (by rw [show s.phase = _ from ha]; rfl)
          refine ⟨fun _ => begun, h.accepted, fun _ hl => ?_, nofun, nofun⟩
          rcases hl with hl | hl
          · cases hl
          · exact absurd rfl hl
  | poll c w =>
      have live : s.phase.begun = true ∧ s.phase.sourced.isSome = true := by
        rcases ConnectPhase.of_awaits ha with hp | ⟨w, hp⟩ <;> rw [hp] <;> exact ⟨rfl, rfl⟩
      have begun := h.begun live.1
      simp only [ConnectState.next]
      cases hr : s.reactor.source.ready .write with
      | true =>
          have settled := h.latch live.2 (.inl hr)
          exact ⟨fun _ => begun, h.accepted, fun _ _ => settled, fun _ _ => settled, nofun⟩
      | false =>
          refine ⟨fun _ => begun, h.accepted, fun _ hl => h.latch live.2 (hl.imp_left ?_), nofun, nofun⟩
          intro hl
          rw [ReactorState.ready_poll, Function.update_self] at hl
          cases hl
  | getsockopt c r =>
      have hp : s.phase = .asking c := ha
      have begun := h.begun (by rw [hp]; rfl)
      have settled := h.asking c hp
      cases r with
      | error e => exact h.fail c e
      | ok u =>
          simp only [ConnectState.next, takeSocketError]
          split
          next e he => exact h.fail c e
          next he => exact absurd he begun
          next he => exact absurd he settled
          next he => exact ⟨nofun, fun _ => h.accepted he, nofun, nofun, fun _ _ => h.accepted he⟩
  | settle r =>
      cases r with
      | none => exact ⟨fun _ => nofun, fun _ => rfl, fun _ _ => nofun, fun _ _ => nofun, fun _ _ => rfl⟩
      | some e => exact ⟨fun _ => nofun, nofun, fun _ _ => nofun, fun _ _ => nofun, h.ok⟩
  | io a =>
      obtain ⟨live, hio, ha, hd⟩ := ha
      refine ⟨h.begun, h.accepted, fun hl hr => ?_, h.asking, h.ok⟩
      cases hda : a.dispatches with
      | true => exact hd hda
      | false => exact h.latch hl (latch_io hio ha hda hr)

end Heard

/-! ### The wake-up -/

/-- The waker of the last poll is stored, or has been taken by the call that set the latch. -/
def Waits (s : ConnectState) : Prop :=
  ∀ c w, s.phase = .parked c w → s.reactor.source.waker .write = some w ∨
    s.reactor.source.ready .write = true ∧
      ((∃ cs, s.reactor.phase = .waking .write (some w) cs) ∨ .woke .write w ∈ s.reactor.log)

theorem waits_io {r : ReactorState} {w : WakerId} {a : SourceAct} (hio : a.IsIo) (ha : r.Enabled a)
    (h : r.source.waker .write = some w ∨ r.source.ready .write = true ∧
      ((∃ cs, r.phase = .waking .write (some w) cs) ∨ .woke .write w ∈ r.log)) :
    (r.next a).source.waker .write = some w ∨ (r.next a).source.ready .write = true ∧
      ((∃ cs, (r.next a).phase = .waking .write (some w) cs) ∨ .woke .write w ∈ (r.next a).log) := by
  obtain ⟨k, hk⟩ := r.log_next a
  have logged : .woke .write w ∈ r.log → .woke .write w ∈ (r.next a).log := fun hm => by
    rw [hk]
    exact List.mem_append_left k hm
  cases hc : a.callback with
  | some d =>
      cases a with
      | call c cs =>
          simp only [ReactorState.next, ReactorState.waker_call, ReactorState.ready_call]
          by_cases hd : Direction.write = c.direction
          · rw [← hd, Function.update_self, Function.update_self]
            rcases h with h | ⟨hr, ⟨cs', hp⟩ | hm⟩
            · exact .inr ⟨rfl, .inl ⟨cs, by rw [hd] at h ⊢; rw [← h]; rfl⟩⟩
            · rw [show r.phase = _ from ha] at hp
              cases hp
            · exact .inr ⟨rfl, .inr (logged hm)⟩
          · rw [Function.update_of_ne hd, Function.update_of_ne hd]
            refine h.imp_right fun hrw => ⟨hrw.1, .inr ?_⟩
            rcases hrw.2 with ⟨cs', hp⟩ | hm
            · rw [show r.phase = _ from ha] at hp
              cases hp
            · exact logged hm
      | poll d w => cases hio
      | _ => cases hc
  | none =>
      rw [r.source_next hio hc]
      refine h.imp_right fun hrw => ⟨hrw.1, ?_⟩
      rcases hrw.2 with ⟨cs', hp⟩ | hm
      · cases a with
        | wake d w' cs =>
            rw [show r.phase = _ from ha] at hp
            cases hp
            exact .inr (List.mem_append_right _ (List.mem_singleton_self _))
        | poll d w => cases hio
        | call c cs => cases hc
        | arm mode rest ok => rw [ha.1] at hp; cases hp
        | dispatch flags => rw [ha.1] at hp; cases hp
        | dispatchDone => rw [show r.phase = _ from ha] at hp; cases hp
      · exact .inr (logged hm)

theorem Waits.next (h : s.Waits) {a : ConnectAct} (ha : s.Enabled a) : (s.next a).Waits := by
  intro c w hp
  cases a with
  | resolve r => cases r <;> cases hp
  | cancel => cases hp
  | socket a rest l r => cases r <;> cases hp
  | exhausted l => cases l <;> cases hp
  | connect c r => cases r <;> cases hp
  | setNonblocking c r => cases r <;> cases hp
  | poll c' w' =>
      simp only [ConnectState.next] at hp ⊢
      cases hr : s.reactor.source.ready .write with
      | true => rw [hr] at hp; cases hp
      | false =>
          rw [hr] at hp
          cases hp
          rw [ReactorState.poll_of_not_ready _ hr]
          refine .inl ?_
          rw [SourceState.waker_updateArm, SourceState.waker_setWaker, Function.update_self]
  | getsockopt c r =>
      cases r with
      | error e => cases hp
      | ok u =>
          simp only [ConnectState.next, takeSocketError] at hp
          split at hp <;> cases hp
  | settle r => cases r <;> exact h c w hp
  | io a => exact waits_io ha.2.1 ha.2.2.1 (h c w hp)

/-! ### Whole runs -/

end ConnectState

/-- `register_fd` succeeds. -/
def ConnectAct.Registers : ConnectAct → Prop
  | .io a => a.Registers
  | _ => True

instance : ∀ a : ConnectAct, Decidable a.Registers
  | .io a => inferInstanceAs (Decidable a.Registers)
  | .resolve _ | .cancel | .socket _ _ _ _ | .exhausted _ | .connect _ _ | .setNonblocking _ _
  | .poll _ _ | .getsockopt _ _ | .settle _ => inferInstanceAs (Decidable True)

namespace ConnectState

variable {s : ConnectState} {C : ConnectState → ConnectAct → Prop}

theorem books_of_reachable (h : connectMachine.ReachableBy C s) : s.Books := by
  refine h.invariant ?_ fun _ _ _ hi _ ha => hi.next ha
  rintro s rfl
  exact ⟨rfl, fun _ => rfl, nofun, nofun, nofun⟩

theorem heard_of_reachable (h : connectMachine.ReachableBy C s) : s.Heard := by
  refine h.invariant ?_ fun _ _ _ hi _ ha => hi.next ha
  rintro s rfl
  exact ⟨nofun, nofun, nofun, nofun, nofun⟩

theorem waits_of_reachable (h : connectMachine.ReachableBy C s) : s.Waits := by
  refine h.invariant ?_ fun _ _ _ hi _ ha => hi.next ha
  rintro s rfl
  exact nofun

/-- The last source is one of its own. -/
theorem reactor_reachable (h : connectMachine.ReachableBy (fun _ a => a.Registers) s) :
    sourceMachine.ReachableBy (fun _ a => a.Registers) s.reactor := by
  have fresh : ∀ fd id, sourceMachine.ReachableBy (fun _ a => a.Registers)
      (.init fd id .new) := fun fd id => .of_init ⟨fd, id, .new, rfl, rfl⟩
  refine h.invariant (I := fun s => sourceMachine.ReachableBy (fun _ a => a.Registers) s.reactor)
    ?_ fun s a _ hi hC ha => ?_
  · rintro s rfl
    exact fresh 0 0
  · cases a with
    | resolve r => cases r <;> exact hi
    | cancel => exact hi
    | socket a rest l r => cases r <;> exact hi
    | exhausted l => cases l <;> exact hi
    | connect c r => cases r <;> exact hi
    | setNonblocking c r =>
        cases r with
        | error e => exact hi
        | ok u => exact fresh _ _
    | poll c w => exact hi.run (.more (a := SourceAct.poll .write w) .refl trivial trivial)
    | getsockopt c r =>
        cases r with
        | error e => exact hi
        | ok u =>
            simp only [connectMachine, ConnectState.next, takeSocketError]
            split <;> exact hi
    | settle r => cases r <;> exact hi
    | io a => exact hi.run (.more .refl hC ha.2.2.1)

end ConnectState

/-- **`Async::connect`.**  In every run, whatever the resolver, the calls and the network answer, and
wherever the future is dropped:

* no socket is open but that of the attempt under way, or of the connection that was returned;
* a connection that is returned has been accepted, and is that of the first address that was not
  refused; an error is the resolver's, or the last address's, all of which were tried in their order;
* when all registrations succeed: while it waits with nothing under way on the IO thread, writability
  is asked for, or the waker of its last poll has been woken and the next poll will find the latch. -/
theorem connect_outcome {s : ConnectState} (h : connectMachine.Reachable s) :
    s.opened = s.phase.socket.toList ∧
    (∀ fd, s.phase = .returned (.ok fd) → s.accepted = true ∧ s.FirstSuccess) ∧
    (∀ e, s.phase = .returned (.error e) → s.LastError e) ∧
    (connectMachine.ReachableBy (fun _ a => a.Registers) s → ∀ c w, s.phase = .parked c w →
      s.reactor.phase = .idle → s.reactor.Armed .write ∨
        s.reactor.source.ready .write = true ∧ .woke .write w ∈ s.reactor.log) := by
  have books := ConnectState.books_of_reachable h
  refine ⟨books.opened, fun fd hp => ?_, books.error, fun h c w hp hi => ?_⟩
  · exact ⟨(ConnectState.heard_of_reachable h).ok fd hp, books.ok fd hp⟩
  · rcases ConnectState.waits_of_reachable h c w hp with hw | ⟨hr, ⟨cs, hc⟩ | hm⟩
    · have inv : s.reactor.Inv := by
        refine (ConnectState.reactor_reachable h).invariant ?_ fun s a _ hs hr ha => hs.next ha hr
        rintro s ⟨fd, id, table, -, rfl⟩
        exact .init fd id table
      exact .inl (inv.armed_of_waker hi (by rw [hw]; rfl))
    · rw [hi] at hc
      cases hc
    · exact .inr ⟨hr, hm⟩

/-- Port `n` of the loopback address. -/
def localPort (n : UInt16) : SocketAddr := .v4 ⟨[127, 0, 0, 1], rfl⟩ n

/-- A socket is waited for, once its connection has been begun with the given answer and handshake. -/
def awaitRun (c : Attempt) (id : WatcherId) (w : WakerId) (r : ConnectReply)
    (o : Option IoError) : List ConnectAct :=
  [.connect c r, .setNonblocking c (.ok ()), .poll c w, .io (.arm .write [] true), .settle o,
    .io (.dispatch epollHup), .io (.call ⟨c.fd, id, 0, .write⟩ []), .io (.wake .write (some w) []),
    .io .dispatchDone, .poll c w, .getsockopt c (.ok ())]

/-- The first address refuses, and the second one accepts. -/
def connectRun : List ConnectAct :=
  [.resolve (.ok [localPort 80, localPort 81]),
    .socket (localPort 80) [localPort 81] none (.ok 7)] ++
  awaitRun ⟨7, localPort 80, [localPort 81], none⟩ 0 5 .inProgress (some 111) ++
  [.socket (localPort 81) [] (some 111) (.ok 7)] ++
  awaitRun ⟨7, localPort 81, [], some 111⟩ 1 6 .ok none

/-- It returns the socket of the second address; and when it waits for the first one, writability is
asked for. -/
theorem connectRun_outcome :
    let s := connectMachine.runList .init connectRun
    let waiting := connectMachine.runList .init (connectRun.take 5)
    (s.phase = .returned (.ok 7) ∧ s.opened = [7] ∧
      s.tried = [(localPort 80, some 111), (localPort 81, none)] ∧ s.accepted = true ∧
      s.FirstSuccess) ∧
    waiting.phase = .parked ⟨7, localPort 80, [localPort 81], none⟩ 5 ∧
      waiting.reactor.Armed .write := by
  have reached : connectMachine.Reachable (connectMachine.runList .init connectRun) :=
    .of_follows rfl (by decide +kernel)
  have reachedWaiting : connectMachine.Reachable
      (connectMachine.runList .init (connectRun.take 5)) := .of_follows rfl (by decide +kernel)
  have registers : connectMachine.ReachableBy (fun _ a => a.Registers)
      (connectMachine.runList .init (connectRun.take 5)) := .of_follows rfl (by decide +kernel)
  obtain ⟨opened, ok, -⟩ := connect_outcome reached
  obtain ⟨-, -, -, waits⟩ := connect_outcome reachedWaiting
  have phase : (connectMachine.runList .init connectRun).phase = .returned (.ok 7) := by
    decide +kernel
  have parked : (connectMachine.runList .init (connectRun.take 5)).phase =
      .parked ⟨7, localPort 80, [localPort 81], none⟩ 5 := by decide +kernel
  refine ⟨⟨phase, ?_, by decide +kernel, ok 7 phase⟩, parked, ?_⟩
  · rw [opened, phase]
    rfl
  · refine (waits registers _ _ parked (by decide +kernel)).resolve_right fun h => ?_
    exact absurd h.1 (by decide +kernel)

end RustAsync
