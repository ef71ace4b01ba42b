import RustBase.Net.TlsSession

/-!
# Net — the order of the ciphertext

What rustls produces is one stream, of which successive `write_tls` return consecutive chunks
(`Streams`).  The transport should accept a prefix of it, at all times.

Each operation has its own chain of `flush_pending` and `write_all` over the same transport, and
nobody owns the write side: while a chain waits for the transport with the rest of its chunk,
another one takes the chunk after it and asks the transport to write that.  `ciphertext_in_order`
says that the order is kept as long as no chain takes a chunk then; `overlap_reorders` is a run with
two writes in which the transport accepts the second chunk first.
-/

namespace RustNet
open Support

variable {γ : Type}

/-- The stream of a connection: what it has `produced`, and what `write_tls` has `taken` of it. -/
structure Streams (R : Rustls γ) (produced taken : γ → List UInt8) : Prop where
  taken_prefix : ∀ c, taken c <+: produced c
  writeTls : ∀ c, taken (R.writeTls c).2 = taken c ++ (R.writeTls c).1
  readTls : ∀ c slice, taken (R.readTls c slice).2 = taken c
  processNewPackets : ∀ c, taken (R.processNewPackets c).2 = taken c
  read : ∀ c len, taken (R.read c len).2 = taken c
  write : ∀ c buf, taken (R.write c buf).2 = taken c
  sendCloseNotify : ∀ c, taken (R.sendCloseNotify c) = taken c

namespace Streams

variable {R : Rustls γ} {produced taken : γ → List UInt8} (h : Streams R produced taken)
include h

theorem writeAllLoop (fuel : ℕ) (c : γ) (buf : List UInt8) :
    taken (R.writeAllLoop fuel c buf).2 = taken c := by
  induction fuel generalizing c buf with
  | zero => cases buf <;> rfl
  | succ fuel ih =>
      cases buf with
      | nil => rfl
      | cons b bs =>
          have hw := h.write c (b :: bs)
          simp only [Rustls.writeAllLoop]
          split
          · next he => rw [he] at hw; exact hw
          · next he => rw [he] at hw; exact (ih ..).trans hw

theorem feedLoop (fuel : ℕ) (c : γ) (slice : List UInt8) :
    taken (R.feedLoop fuel c slice).2 = taken c := by
  induction fuel generalizing c slice with
  | zero => cases slice <;> rfl
  | succ fuel ih =>
      cases slice with
      | nil => rfl
      | cons b bs =>
          have hr := h.readTls c (b :: bs)
          simp only [Rustls.feedLoop]
          split
          · next he => rw [he] at hr; exact hr
          · next he => rw [he] at hr; exact hr
          · next n c' he =>
              rw [he] at hr
              have hp := h.processNewPackets c'
              split
              · next hq => rw [hq] at hp; exact hp.trans hr
              · next hq => rw [hq] at hp; exact (ih ..).trans (hp.trans hr)

theorem outgoing (c : γ) : taken (R.outgoing c).2 = taken c ++ (R.outgoing c).1 := by
  unfold Rustls.outgoing
  split
  · exact h.writeTls c
  · exact (List.append_nil _).symm

end Streams

namespace TlsClientSocket

variable {R : Rustls γ} {produced taken : γ → List UInt8} {s s' : TlsClientSocket γ}

/-- A chunk is taken while the transport has not accepted all of another one. -/
def Overlaps (R : Rustls γ) (s : TlsClientSocket γ) : TlsAct → Prop
  | .flush => s.writes ≠ [] ∧ (R.outgoing s.conn).1 ≠ []
  | _ => False

instance (R : Rustls γ) (s : TlsClientSocket γ) : ∀ a, Decidable (s.Overlaps R a)
  | .flush => inferInstanceAs (Decidable (_ ∧ _))
  | .handshake | .read _ | .write _ | .disconnect | .accept _ _ | .receive _ _ =>
      inferInstanceAs (Decidable False)

/-! ### The invariant -/

/-- The bytes that the transport was asked to write and has not accepted. -/
def unaccepted (s : TlsClientSocket γ) : List UInt8 := (s.writes.map TransportWrite.buf).flatten

structure InOrder (taken : γ → List UInt8) (s : TlsClientSocket γ) : Prop where
  sent : s.accepted <+: taken s.conn
  /-- what the transport does not have yet, it was asked for -/
  due : s.connected = true → s.accepted ++ s.unaccepted = taken s.conn
  one : s.writes.length ≤ 1

/-- Nothing changes that the order depends on. -/
structure SameWire (taken : γ → List UInt8) (s s' : TlsClientSocket γ) : Prop where
  conn : taken s'.conn = taken s.conn
  writes : s'.writes = s.writes
  accepted : s'.accepted = s.accepted
  connected : s'.connected = s.connected

theorem SameWire.refl (s : TlsClientSocket γ) : SameWire taken s s := ⟨rfl, rfl, rfl, rfl⟩

theorem InOrder.same (h : InOrder taken s) (hs : SameWire taken s s') : InOrder taken s' where
  sent := by rw [hs.accepted, hs.conn]; exact h.sent
  due hc := by
    rw [hs.accepted, hs.conn, unaccepted, hs.writes]
    exact h.due (hs.connected.symm.trans hc)
  one := by rw [hs.writes]; exact h.one

section Steps

variable (h : Streams R produced taken)
include h

theorem sameWire_pull (s : TlsClientSocket γ) (len : ℕ) (cb : CallbackId) :
    SameWire taken s (s.pull R len cb) := by
  have hr := h.read s.conn len
  unfold pull
  split <;> next he => rw [he] at hr; exact ⟨hr, rfl, rfl, rfl⟩

theorem sameWire_write (s : TlsClientSocket γ) (buf : List UInt8) :
    SameWire taken s (s.write R buf) := by
  have hw : taken (R.writeAll s.conn buf).2 = taken s.conn := h.writeAllLoop ..
  unfold write
  split <;> next he => rw [he] at hw; exact ⟨hw, rfl, rfl, rfl⟩

omit h in
theorem sameWire_runFed (s : TlsClientSocket γ) (fed : Fed) (res : Except TlsError Unit) :
    SameWire taken s (s.runFed fed res) := by
  cases fed <;> cases res <;> exact ⟨rfl, rfl, rfl, rfl⟩

theorem sameWire_answerRead (s : TlsClientSocket γ) (i : ℕ) (res : Except Errno (List UInt8)) :
    SameWire taken s (s.answerRead R i res) := by
  unfold answerRead
  split
  · exact .refl s
  · next fed _ =>
      unfold onRead
      split
      · obtain ⟨h₁, h₂, h₃, h₄⟩ : SameWire taken _ _ := sameWire_runFed
          { s with reads := s.reads.eraseIdx i } fed (.error .unexpectedEof)
        exact ⟨h₁, h₂, h₃, h₄⟩
      · next data _ =>
          have hf : taken (R.feed s.conn data).2 = taken s.conn := h.feedLoop ..
          obtain ⟨h₁, h₂, h₃, h₄⟩ : SameWire taken _ _ := sameWire_runFed
            { s with reads := s.reads.eraseIdx i, conn := (R.feed s.conn data).2 } fed
            (R.feed s.conn data).1
          exact ⟨h₁.trans hf, h₂, h₃, h₄⟩
      · next e =>
          obtain ⟨h₁, h₂, h₃, h₄⟩ : SameWire taken _ _ := sameWire_runFed
            { s with reads := s.reads.eraseIdx i } fed (.error (.transport e))
          exact ⟨h₁, h₂, h₃, h₄⟩

omit h in
theorem InOrder.disconnectTransport (hi : InOrder taken s) :
    InOrder taken s.disconnectTransport where
  sent := hi.sent
  due hc := by cases hc
  one := Nat.zero_le _

theorem InOrder.runDone (hi : InOrder taken s) (done : Done) (res : Except TlsError Unit) :
    InOrder taken (s.runDone R done res) := by
  unfold TlsClientSocket.runDone
  split
  · exact hi.same ⟨rfl, rfl, rfl, rfl⟩
  · exact hi.same ⟨rfl, rfl, rfl, rfl⟩
  · exact hi.same ⟨rfl, rfl, rfl, rfl⟩
  · split <;> exact hi.same ⟨rfl, rfl, rfl, rfl⟩
  · exact hi.same (sameWire_pull h ..)
  · exact hi.same ⟨rfl, rfl, rfl, rfl⟩
  · exact hi.disconnectTransport

/-- A flush takes the next chunk, when the transport has accepted the one before it. -/
theorem InOrder.flushPending (hi : InOrder taken s) (hn : ¬ s.Overlaps R .flush) (done : Done) :
    InOrder taken (s.flushPending R done) := by
  have ho := h.outgoing s.conn
  unfold TlsClientSocket.flushPending
  dsimp only
  split
  · next he =>
      rw [List.isEmpty_iff.mp he, List.append_nil] at ho
      have same : SameWire taken s { s with conn := (R.outgoing s.conn).2, flushing := none } :=
        ⟨ho, rfl, rfl, rfl⟩
      exact (hi.same same).runDone h done _
  · next he =>
      have hw : s.writes = [] := by
        by_contra hw
        exact hn ⟨hw, fun e => he (List.isEmpty_iff.mpr e)⟩
      refine ⟨?_, fun hc => ?_, ?_⟩
      · change s.accepted <+: taken (R.outgoing s.conn).2
        rw [ho]
        exact hi.sent.trans (List.prefix_append ..)
      · have hd := hi.due hc
        rw [unaccepted, hw, List.map_nil, List.flatten_nil, List.append_nil] at hd
        simp only [writeAll, unaccepted, hw, List.nil_append, List.map_cons, List.map_nil,
          List.flatten_cons, List.flatten_nil, List.append_nil]
        rw [ho, hd]
      · simp [writeAll, hw]

omit h in
/-- The only chunk there is. -/
theorem InOrder.eq_singleton (hi : InOrder taken s) {i : ℕ} {w : TransportWrite}
    (hw : s.writes[i]? = some w) : s.writes = [w] ∧ i = 0 := by
  obtain ⟨hlt, hget⟩ := List.getElem?_eq_some_iff.mp hw
  have hone := hi.one
  obtain rfl : i = 0 := by omega
  match hs : s.writes with
  | [] => simp [hs] at hlt
  | [w'] => simp only [hs, List.getElem_cons_zero] at hget; exact ⟨by rw [hget], rfl⟩
  | _ :: _ :: _ => simp [hs] at hone

omit h in
theorem InOrder.acceptWrite (hi : InOrder taken s) (hc : s.connected = true) (i n : ℕ) :
    InOrder taken (s.acceptWrite R i n) := by
  unfold TlsClientSocket.acceptWrite
  split
  · exact hi
  · next w hw =>
      obtain ⟨hs, rfl⟩ := hi.eq_singleton hw
      have hd := hi.due hc
      simp only [unaccepted, hs, List.map_cons, List.map_nil, List.flatten_cons, List.flatten_nil,
        List.append_nil] at hd
      have hsent : s.accepted ++ w.buf.take n <+: taken s.conn := by
        rw [← hd]
        exact (List.prefix_append_right_inj _).mpr (List.take_prefix ..)
      simp only [onWritten, hs, List.eraseIdx_cons_zero]
      split
      · next hle =>
          refine ⟨hsent, fun _ => ?_, Nat.zero_le _⟩
          rw [List.take_of_length_le hle]
          exact (List.append_nil _).trans hd
      · refine ⟨hsent, fun _ => ?_, Nat.le_refl _⟩
        simp only [writeAll, unaccepted, List.nil_append, List.map_cons, List.map_nil,
          List.flatten_cons, List.flatten_nil, List.append_nil]
        rw [List.append_assoc, List.take_append_drop]
        exact hd

theorem InOrder.next (hi : InOrder taken s) {a : TlsAct} (ha : s.Enabled a)
    (hn : ¬ s.Overlaps R a) : InOrder taken (s.next R a) := by
  cases a with
  | handshake => exact hi.same ⟨rfl, rfl, rfl, rfl⟩
  | read len =>
      obtain ⟨h₁, h₂, h₃, h₄⟩ := sameWire_pull h s.takeCallback len s.nextCallback
      exact hi.same ⟨h₁, h₂, h₃, h₄⟩
  | write buf => exact hi.same (sameWire_write h s buf)
  | disconnect => exact hi.same ⟨h.sendCloseNotify s.conn, rfl, rfl, rfl⟩
  | flush =>
      obtain ⟨done, hf⟩ := Option.isSome_iff_exists.mp ha
      simp only [TlsClientSocket.next, hf]
      exact hi.flushPending h hn done
  | accept i n => exact hi.acceptWrite ha.2.1 i n
  | receive i res => exact hi.same (sameWire_answerRead h s i res)

/-- **The order of the ciphertext.**  As long as no chunk is taken while the transport has not
accepted all of another one, what the transport has accepted is a prefix of what was produced. -/
theorem ciphertext_in_order {c : γ} (hc : taken c = [])
    (hr : (tlsMachine R c).ReachableBy (fun s a => ¬ s.Overlaps R a) s) :
    s.accepted <+: produced s.conn := by
  have inv : InOrder taken s := by
    refine hr.invariant (I := InOrder taken) ?_ fun s a _ hi hn ha => hi.next h ha hn
    rintro s rfl
    exact ⟨List.nil_prefix, fun _ => hc.symm, Nat.zero_le _⟩
  exact inv.sent.trans (h.taken_prefix s.conn)

end Steps

end TlsClientSocket

/-! ### Two writes -/

/-- The stream of a session. -/
def Session.produced (c : Session) : List UInt8 := c.sent ++ c.sendable

theorem Session.streams (sendLimit receiveLimit : ℕ) (recs : List Record) :
    Streams (rustls sendLimit receiveLimit recs) produced sent where
  taken_prefix c := List.prefix_append ..
  writeTls c := rfl
  readTls c slice := by
    change (Session.readTls Session.readSize receiveLimit c slice).2.sent = c.sent
    unfold Session.readTls
    split <;> rfl
  processNewPackets c := rfl
  read c len := by
    change (Session.read c len).2.sent = c.sent
    unfold Session.read
    split <;> rfl
  write c buf := by
    change (Session.write sendLimit c buf).2.sent = c.sent
    unfold Session.write
    split <;> rfl
  sendCloseNotify c := rfl

namespace TlsClientSocket

/-- Writes one after the other, with a read waiting meanwhile, and the disconnect. -/
def turnsRun : List TlsAct :=
  [.read 4, .write [1, 2], .flush, .accept 0 3, .accept 0 4, .flush, .write [3], .flush,
    .accept 0 6, .flush, .disconnect, .flush]

theorem turnsRun_in_order :
    ((tlsMachine (Session.rustls 64 64 []) .new).runList (.new .new) turnsRun).accepted <+:
      ((tlsMachine (Session.rustls 64 64 []) .new).runList (.new .new) turnsRun).conn.produced :=
  ciphertext_in_order (Session.streams 64 64 []) rfl (.of_follows rfl (by decide))

/-- A second write while the transport has nothing of the first one. -/
def overlapRun : List TlsAct := [.write [1], .flush, .write [2], .flush, .accept 1 6]

/-- The transport accepts the record of the second write first. -/
theorem overlap_reorders :
    (tlsMachine (Session.rustls 64 64 []) .new).Follows (fun _ _ => True) (.new .new) overlapRun ∧
      ¬ ((tlsMachine (Session.rustls 64 64 []) .new).runList (.new .new) overlapRun).accepted <+:
        ((tlsMachine (Session.rustls 64 64 []) .new).runList (.new .new)
          overlapRun).conn.produced := by
  decide

end TlsClientSocket

end RustNet
