import Mathlib.Data.List.Forall2
import RustBase.Async.NetLog

/-!
# Async — datagrams

`UdpSocket` and `UnixDatagram`: the operations of `Net` over a kernel's side that keeps datagrams
apart.

* A receive takes one datagram off the queue, and what the buffer has no room for is thrown away.
  `recv` does not say who sent it.
* A send hands over its whole buffer or fails.  `send` needs the peer that `connect` has set, which
  any thread may set again between two steps of the tasks.
* Once there is a peer, only its datagrams are queued; what was queued before stays.

**`datagrams_in_order`**: the datagrams that arrived are those received, each once and by one call,
and then those still queued; and the datagrams that went out are the buffers of the sends that
returned `Ok`, in the order in which they returned.
-/

namespace RustAsync
open Support RustIo

/-- The address of a UDP socket, or the path of a Unix one. -/
abbrev PeerId := ℕ

structure Datagram where
  peer : PeerId
  data : Bytes
  deriving DecidableEq

structure DatagramKernel where
  /-- queued and not yet received -/
  inbound : List Datagram
  /-- all that were ever queued -/
  arrived : List Datagram
  /-- what was handed over, with where to -/
  sent : List Datagram
  /-- `connect` -/
  peer : Option PeerId
  /-- the addresses for which no datagram can be taken now -/
  full : List PeerId
  /-- the longest datagram that can be sent -/
  longest : ℕ
  /-- what `send` without a peer fails with -/
  unconnected : IoError
  /-- `SO_ERROR` -/
  error : Option IoError
  deriving DecidableEq

inductive DatagramCall where
  | sendTo (buf : Bytes) (addr : PeerId)
  | recvFrom (len : ℕ)
  | send (buf : Bytes)
  | recv (len : ℕ)
  deriving DecidableEq

inductive DatagramResult where
  | sent (n : ℕ)
  /-- the bytes in the buffer, and what `recv_from` returns of the sender -/
  | received (bs : Bytes) (addr : Option PeerId)
  | failed (e : IoError)
  deriving DecidableEq

/-- What the other ends, the network and callers of `connect` do. -/
inductive DatagramPeer where
  | deliver (d : Datagram)
  | connect (addr : PeerId)
  | fill (addr : PeerId)
  | drain (addr : PeerId)
  | fail (e : IoError)
  deriving DecidableEq

def emsgsize : IoError := 90

namespace DatagramKernel

def new (longest : ℕ) (unconnected : IoError) : DatagramKernel :=
  ⟨[], [], [], none, [], longest, unconnected, none⟩

def direction : DatagramCall → Direction
  | .sendTo _ _ | .send _ => .write
  | .recvFrom _ | .recv _ => .read

/-- `sendto`, or `send` to the peer. -/
def sendTo (buf : Bytes) (addr : PeerId) (k : DatagramKernel) :
    Option (DatagramResult × DatagramKernel) :=
  if k.longest < buf.length then some (.failed emsgsize, k)
  else if addr ∈ k.full then none
  else some (.sent buf.length, { k with sent := k.sent ++ [⟨addr, buf⟩] })

/-- `recvfrom`; the address is only wanted by `recv_from`. -/
def receive (len : ℕ) (wanted : Bool) (k : DatagramKernel) :
    Option (DatagramResult × DatagramKernel) :=
  match k.inbound with
  | [] => none
  | d :: ds =>
      some (.received (d.data.take len) (if wanted then some d.peer else none),
        { k with inbound := ds })

/-- An error of the socket is the answer to the next call. -/
def call (x : DatagramCall) (k : DatagramKernel) : Option (DatagramResult × DatagramKernel) :=
  match k.error with
  | some e => some (.failed e, { k with error := none })
  | none =>
      match x with
      | .sendTo buf addr => k.sendTo buf addr
      | .send buf =>
          match k.peer with
          | some addr => k.sendTo buf addr
          | none => some (.failed k.unconnected, k)
      | .recvFrom len => k.receive len true
      | .recv len => k.receive len false

/-- A datagram of somebody else than the peer is not queued. -/
def env : DatagramPeer → DatagramKernel → DatagramKernel
  | .deliver d, k =>
      if k.peer = none ∨ k.peer = some d.peer then
        { k with inbound := k.inbound ++ [d], arrived := k.arrived ++ [d] }
      else k
  | .connect addr, k => { k with peer := some addr }
  | .fill addr, k => { k with full := addr :: k.full }
  | .drain addr, k => { k with full := k.full.filter (· ≠ addr) }
  | .fail e, k => { k with error := some e }

end DatagramKernel

/-- `UdpSocket` and `UnixDatagram`. -/
def datagramSocket : Socket DatagramKernel DatagramCall DatagramResult DatagramPeer where
  direction := DatagramKernel.direction
  call := DatagramKernel.call
  env := DatagramKernel.env

abbrev DatagramEvent := NetEvent DatagramCall DatagramResult DatagramPeer

/-! ### What a call was for a datagram -/

/-- A receive that returned: the size of its buffer, what it got, and the sender if it asked. -/
structure Receipt where
  len : ℕ
  data : Bytes
  addr : Option PeerId
  deriving DecidableEq

/-- A send that returned: its buffer, what it says it sent, and where to if the call says so. -/
structure Dispatch where
  buf : Bytes
  n : ℕ
  addr : Option PeerId
  deriving DecidableEq

/-- The datagram is the one that was received, as far as the buffer holds it. -/
def Receipt.Of (r : Receipt) (d : Datagram) : Prop :=
  r.data = d.data.take r.len ∧ ∀ p, r.addr = some p → p = d.peer

/-- The datagram is the one that was sent. -/
def Dispatch.Of (s : Dispatch) (d : Datagram) : Prop :=
  d.data = s.buf ∧ s.n = s.buf.length ∧ ∀ p, s.addr = some p → p = d.peer

namespace NetEvent

def receipt : DatagramEvent → List Receipt
  | .done _ (.recvFrom len) (.received bs addr) | .done _ (.recv len) (.received bs addr) =>
      [⟨len, bs, addr⟩]
  | _ => []

def dispatch : DatagramEvent → List Dispatch
  | .done _ (.sendTo buf addr) (.sent n) => [⟨buf, n, some addr⟩]
  | .done _ (.send buf) (.sent n) => [⟨buf, n, none⟩]
  | _ => []

end NetEvent

namespace DatagramKernel

variable {k k' : DatagramKernel} {log : List DatagramEvent}

/-- A call that returned: it failed and moved nothing, or it was a send or a receive of one
datagram. -/
inductive Returns (k k' : DatagramKernel) : DatagramCall → DatagramResult → Prop where
  | failed {x : DatagramCall} {e : IoError} (hi : k'.inbound = k.inbound) (hs : k'.sent = k.sent) :
      Returns k k' x (.failed e)
  | sendTo {buf : Bytes} {addr : PeerId} (hi : k'.inbound = k.inbound)
      (hs : k'.sent = k.sent ++ [⟨addr, buf⟩]) : Returns k k' (.sendTo buf addr) (.sent buf.length)
  | send {buf : Bytes} {addr : PeerId} (hp : k.peer = some addr) (hi : k'.inbound = k.inbound)
      (hs : k'.sent = k.sent ++ [⟨addr, buf⟩]) : Returns k k' (.send buf) (.sent buf.length)
  | recvFrom {len : ℕ} {d : Datagram} (hi : k.inbound = d :: k'.inbound) (hs : k'.sent = k.sent) :
      Returns k k' (.recvFrom len) (.received (d.data.take len) (some d.peer))
  | recv {len : ℕ} {d : Datagram} (hi : k.inbound = d :: k'.inbound) (hs : k'.sent = k.sent) :
      Returns k k' (.recv len) (.received (d.data.take len) none)

theorem sendTo_cases {buf : Bytes} {addr : PeerId} {r : DatagramResult}
    (h : k.sendTo buf addr = some (r, k')) :
    k'.arrived = k.arrived ∧ k'.inbound = k.inbound ∧
      ((∃ e, r = .failed e) ∧ k'.sent = k.sent ∨
        r = .sent buf.length ∧ k'.sent = k.sent ++ [⟨addr, buf⟩]) := by
  unfold sendTo at h
  split at h
  · cases h
    exact ⟨rfl, rfl, .inl ⟨⟨_, rfl⟩, rfl⟩⟩
  · split at h
    · cases h
    · cases h
      exact ⟨rfl, rfl, .inr ⟨rfl, rfl⟩⟩

theorem receive_cases {len : ℕ} {wanted : Bool} {r : DatagramResult}
    (h : k.receive len wanted = some (r, k')) :
    k'.arrived = k.arrived ∧ k'.sent = k.sent ∧ ∃ d, k.inbound = d :: k'.inbound ∧
      r = .received (d.data.take len) (if wanted then some d.peer else none) := by
  unfold receive at h
  split at h
  · cases h
  · rename_i hk
    cases h
    exact ⟨rfl, rfl, _, hk, rfl⟩

theorem call_cases {x : DatagramCall} {r : DatagramResult} (h : call x k = some (r, k')) :
    k'.arrived = k.arrived ∧ Returns k k' x r := by
  unfold call at h
  split at h
  · cases h
    exact ⟨rfl, .failed rfl rfl⟩
  · cases x with
    | sendTo buf addr =>
        obtain ⟨harr, hi, ⟨⟨e, rfl⟩, hs⟩ | ⟨rfl, hs⟩⟩ := sendTo_cases h
        · exact ⟨harr, .failed hi hs⟩
        · exact ⟨harr, .sendTo hi hs⟩
    | send buf =>
        dsimp only at h
        split at h
        next addr hp =>
          obtain ⟨harr, hi, ⟨⟨e, rfl⟩, hs⟩ | ⟨rfl, hs⟩⟩ := sendTo_cases h
          · exact ⟨harr, .failed hi hs⟩
          · exact ⟨harr, .send hp hi hs⟩
        next hp =>
          cases h
          exact ⟨rfl, .failed rfl rfl⟩
    | recvFrom len =>
        obtain ⟨harr, hs, d, hi, rfl⟩ := receive_cases h
        exact ⟨harr, .recvFrom hi hs⟩
    | recv len =>
        obtain ⟨harr, hs, d, hi, rfl⟩ := receive_cases h
        exact ⟨harr, .recv hi hs⟩

/-- The log of a socket and the kernel's side of it. -/
structure Logged (log : List DatagramEvent) (k : DatagramKernel) : Prop where
  received : ∃ taken, taken ++ k.inbound = k.arrived ∧
    List.Forall₂ Receipt.Of (log.flatMap NetEvent.receipt) taken
  sent : List.Forall₂ Dispatch.Of (log.flatMap NetEvent.dispatch) k.sent

namespace Logged

theorem nil (longest : ℕ) (e : IoError) : Logged [] (.new longest e) where
  received := ⟨[], rfl, .nil⟩
  sent := .nil

/-- An event that is no call, and what the others do. -/
theorem concat (h : Logged log k) {e : DatagramEvent} (he : ∀ t x r, e ≠ .done t x r)
    (hb : ∀ l, l ++ k.inbound = k.arrived → l ++ k'.inbound = k'.arrived)
    (hs : k'.sent = k.sent) : Logged (log ++ [e]) k' := by
  have silent : e.receipt = [] ∧ e.dispatch = [] := by
    cases e with
    | done t x r => exact absurd rfl (he t x r)
    | _ => exact ⟨rfl, rfl⟩
  obtain ⟨taken, ht, hr⟩ := h.received
  refine ⟨⟨taken, hb taken ht, ?_⟩, ?_⟩
  · simpa [silent.1] using hr
  · simpa [silent.2, hs] using h.sent

theorem peer (h : Logged log k) (e : DatagramPeer) : Logged (log ++ [.peer e]) (k.env e) := by
  cases e with
  | deliver d =>
      simp only [env]
      split
      · exact h.concat (fun t x r e => by cases e) (fun l hl => by rw [← List.append_assoc, hl]) rfl
      · exact h.concat (fun t x r e => by cases e) (fun l hl => hl) rfl
  | connect addr => exact h.concat (fun t x r e => by cases e) (fun l hl => hl) rfl
  | fill addr => exact h.concat (fun t x r e => by cases e) (fun l hl => hl) rfl
  | drain addr => exact h.concat (fun t x r e => by cases e) (fun l hl => hl) rfl
  | fail e => exact h.concat (fun t x r e => by cases e) (fun l hl => hl) rfl

/-- A call returns. -/
theorem done (h : Logged log k) {x : DatagramCall} {r : DatagramResult}
    (hc : call x k = some (r, k')) (t : ℕ) : Logged (log ++ [.done t x r]) k' := by
  obtain ⟨harr, hret⟩ := call_cases hc
  obtain ⟨taken, ht, hr⟩ := h.received
  -- nothing was received
  have kept : k'.inbound = k.inbound → ∃ l, l ++ k'.inbound = k'.arrived ∧
      List.Forall₂ Receipt.Of (log.flatMap NetEvent.receipt) l := fun hi =>
    ⟨taken, by rw [hi, harr, ht], hr⟩
  -- one datagram was received
  have one : ∀ {d : Datagram} {c : Receipt}, k.inbound = d :: k'.inbound → c.Of d →
      ∃ l, l ++ k'.inbound = k'.arrived ∧
        List.Forall₂ Receipt.Of (log.flatMap NetEvent.receipt ++ [c]) l := by
    intro d c hi hcd
    refine ⟨taken ++ [d], ?_, List.rel_append hr (.cons hcd .nil)⟩
    rw [List.append_assoc, List.singleton_append, ← hi, harr, ht]
  rw [← List.append_nil (log.flatMap NetEvent.receipt)] at kept
  have sent : ∀ {c : Dispatch} {d : Datagram}, c.Of d →
      List.Forall₂ Dispatch.Of (log.flatMap NetEvent.dispatch ++ [c]) (k.sent ++ [d]) :=
    fun hcd => List.rel_append h.sent (.cons hcd .nil)
  have unsent : List.Forall₂ Dispatch.Of (log.flatMap NetEvent.dispatch ++ []) k.sent :=
    (List.append_nil _).symm ▸ h.sent
  refine ⟨?_, ?_⟩
  · rw [List.flatMap_append]
    cases hret with
    | failed hi hs => cases x <;> exact kept hi
    | sendTo hi hs => exact kept hi
    | send hp hi hs => exact kept hi
    | recvFrom hi hs => exact one hi ⟨rfl, fun p hp => (Option.some.inj hp).symm⟩
    | recv hi hs => exact one hi ⟨rfl, fun p hp => by cases hp⟩
  · rw [List.flatMap_append]
    cases hret with
    | failed hi hs => rw [hs]; cases x <;> exact unsent
    | sendTo hi hs => rw [hs]; exact sent ⟨rfl, rfl, fun p hp => (Option.some.inj hp).symm⟩
    | send hp hi hs => rw [hs]; exact sent ⟨rfl, rfl, fun p hp => by cases hp⟩
    | recvFrom hi hs => rw [hs]; exact unsent
    | recv hi hs => rw [hs]; exact unsent

theorem of_replays {longest : ℕ} {e : IoError}
    (h : Replays datagramSocket (.new longest e) log k) : Logged log k := by
  induction h with
  | nil => exact .nil longest e
  | done t _ hc ih => exact ih.done hc t
  | peer e _ ih => exact ih.peer e
  | silent _ he ih =>
      refine ih.concat (fun t x r e => ?_) (fun _ hl => hl) rfl
      rw [e] at he
      exact he

end Logged

/-- Two datagrams for two tasks, the first of which has room for one byte; the second task waits, is
dropped, and receives again; a reply goes out to the peer that was set in between. -/
def relayRun : List (NetAct DatagramKernel DatagramCall DatagramResult DatagramPeer) :=
  let k : DatagramKernel := .new 2 89
  [.start 2 .future (.recv 4) 7, .wouldBlock 2 .future (.recv 4) 7, .park 2 .future (.recv 4) 7,
    .env (.deliver ⟨1, [10, 20]⟩), .env (.deliver ⟨3, [30]⟩), .cancel 2 .future (.recv 4) 7,
    .start 1 .future (.recvFrom 1) 5,
    .finish 1 .future (.recvFrom 1) 5 (.received [10] (some 1))
      { k with inbound := [⟨3, [30]⟩], arrived := [⟨1, [10, 20]⟩, ⟨3, [30]⟩] },
    .env (.connect 3), .start 2 .future (.recv 4) 8,
    .finish 2 .future (.recv 4) 8 (.received [30] none)
      { k with arrived := [⟨1, [10, 20]⟩, ⟨3, [30]⟩], peer := some 3 },
    .start 1 .future (.send [40, 50]) 5,
    .finish 1 .future (.send [40, 50]) 5 (.sent 2)
      { k with
        arrived := [⟨1, [10, 20]⟩, ⟨3, [30]⟩], peer := some 3, sent := [⟨3, [40, 50]⟩] }]

end DatagramKernel

end RustAsync
