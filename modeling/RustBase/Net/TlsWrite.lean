import RustBase.Net.TlsSession
import RustBase.Support.Until

/-!
# Net — a TLS write, all or nothing

A connection has room for so many more bytes (`Sends`): `writer().write` takes some of what it is
given while there is room, nothing when there is none, and only `write_tls` makes room.  `write_all`
gives up when nothing is taken, and what was taken before stays queued.

`write` makes no room before it queues its buffer, so with room for a part of the buffer it queues
that part and reports an error.  `write_all_or_nothing_iff` says that this is the only case in which
it does not keep its word; in the others it queues the whole buffer, flushes all there is to send
and reports the length, however the transport cuts what it is asked to write, or queues nothing and
reports an error.
-/

namespace RustNet
open Support

variable {γ : Type}

/-! ### What is assumed of rustls -/

/-- `write_tls` has something to send as long as there is something; `backlog` is a bound on the
calls that are left. -/
structure Flushes (R : Rustls γ) (backlog : γ → ℕ) : Prop where
  writeTls_ne : ∀ c, R.wantsWrite c = true → (R.writeTls c).1 ≠ []
  writeTls_backlog : ∀ c, R.wantsWrite c = true → backlog (R.writeTls c).2 < backlog c

/-- What a connection has `queued` of the plaintext, what of the ciphertext was `taken` by
`write_tls`, and for how many bytes it has `room`. -/
structure Sends (R : Rustls γ) (queued taken : γ → List UInt8) (room backlog : γ → ℕ) : Prop extends
    Flushes R backlog where
  write_le : ∀ c buf, (R.write c buf).1 ≤ buf.length
  write_room : ∀ c buf, (R.write c buf).1 ≤ room c
  write_pos : ∀ c buf, buf ≠ [] → 0 < room c → 0 < (R.write c buf).1
  write_queued : ∀ c buf, queued (R.write c buf).2 = queued c ++ buf.take (R.write c buf).1
  /-- what is taken uses up the room, as far as the rest of the buffer is concerned -/
  write_left : ∀ c buf, (R.write c buf).1 < buf.length →
    room (R.write c buf).2 = room c - (R.write c buf).1
  writeTls_queued : ∀ c, queued (R.writeTls c).2 = queued c
  writeTls_taken : ∀ c, taken (R.writeTls c).2 = taken c ++ (R.writeTls c).1

section WriteAll

variable {R : Rustls γ} {queued taken : γ → List UInt8} {room backlog : γ → ℕ}
  (h : Sends R queued taken room backlog)
include h

/-- `write_all` queues the buffer if there is room for all of it, and what there is room for
otherwise. -/
theorem Sends.writeAllLoop (fuel : ℕ) (c : γ) (buf : List UInt8) (hf : buf.length ≤ fuel) :
    (R.writeAllLoop fuel c buf).1 =
        (if buf.length ≤ room c then .ok () else .error .writeZero) ∧
      queued (R.writeAllLoop fuel c buf).2 = queued c ++ buf.take (room c) := by
  induction fuel generalizing c buf with
  | zero =>
      obtain rfl : buf = [] := List.eq_nil_of_length_eq_zero (Nat.le_zero.mp hf)
      simp [Rustls.writeAllLoop]
  | succ fuel ih =>
      cases buf with
      | nil => simp [Rustls.writeAllLoop]
      | cons b bs =>
          have hle := h.write_le c (b :: bs)
          have hroom := h.write_room c (b :: bs)
          have hq := h.write_queued c (b :: bs)
          have hleft := h.write_left c (b :: bs)
          have hpos := h.write_pos c (b :: bs) (List.cons_ne_nil _ _)
          simp only [Rustls.writeAllLoop]
          split
          · -- nothing is taken: there is no room
            next c' he =>
              rw [he] at hpos hq
              have hz : room c = 0 := by
                by_contra hz
                exact absurd (hpos (Nat.pos_of_ne_zero hz)) (Nat.lt_irrefl 0)
              rw [hz]
              exact ⟨by simp, hq⟩
          · next n c' he =>
              rw [he] at hle hroom hq hleft
              obtain ⟨ih₁, ih₂⟩ := ih c' ((b :: bs).drop (n + 1))
                (by rw [List.length_drop]; omega)
              rw [ih₁, ih₂, hq]
              by_cases hall : (b :: bs).length = n + 1
              · -- everything is taken
                have hd : (b :: bs).drop (n + 1) = [] := List.drop_eq_nil_of_le (by omega)
                rw [hd, List.take_nil, List.append_nil, List.take_of_length_le (by omega),
                  List.take_of_length_le (by omega)]
                exact ⟨by rw [if_pos (by simp), if_pos (by omega)], rfl⟩
              · have hr := hleft (by omega)
                have hlen : ((b :: bs).drop (n + 1)).length = (b :: bs).length - (n + 1) :=
                  List.length_drop ..
                refine ⟨?_, ?_⟩
                · rw [hr, hlen]
                  exact if_congr (by omega) rfl rfl
                · rw [hr, List.append_assoc]
                  congr 1
                  have : room c = (n + 1) + (room c - (n + 1)) := by omega
                  rw [this, List.take_add, ← this]

end WriteAll

/-! ### A flush -/

/-- `write_tls` until there is nothing left to send. -/
inductive Drains (R : Rustls γ) : γ → List UInt8 → γ → Prop where
  | done {c : γ} (h : R.wantsWrite c = false) : Drains R c [] c
  | more {c c' : γ} {bytes : List UInt8} (h : R.wantsWrite c = true)
      (hd : Drains R (R.writeTls c).2 bytes c') : Drains R c ((R.writeTls c).1 ++ bytes) c'

namespace Drains

variable {R : Rustls γ} {c c' : γ} {bytes : List UInt8}

theorem wantsWrite_eq_false (h : Drains R c bytes c') : R.wantsWrite c' = false := by
  induction h with
  | done h => exact h
  | more _ _ ih => exact ih

/-- What `write_tls` does not change. -/
theorem keeps {α : Type*} {f : γ → α} (hf : ∀ c, f (R.writeTls c).2 = f c)
    (h : Drains R c bytes c') : f c' = f c := by
  induction h with
  | done _ => rfl
  | more _ _ ih => exact ih.trans (hf _)

theorem taken {taken : γ → List UInt8}
    (ht : ∀ c, taken (R.writeTls c).2 = taken c ++ (R.writeTls c).1) (h : Drains R c bytes c') :
    taken c' = taken c ++ bytes := by
  induction h with
  | done _ => exact (List.append_nil _).symm
  | more _ _ ih => rw [ih, ht, List.append_assoc]

end Drains

namespace TlsClientSocket

/-- The next step of the flush that was started last, when the transport accepts up to `n` bytes. -/
def sendAct (s : TlsClientSocket γ) (n : ℕ) : TlsAct :=
  match s.flushing, s.writes.getLast? with
  | none, some w => .accept (s.writes.length - 1) (min n w.buf.length)
  | _, _ => .flush

def sendStep (R : Rustls γ) (s : TlsClientSocket γ) (n : ℕ) : TlsClientSocket γ :=
  s.next R (s.sendAct n)

/-- The state after `k` such steps; `ns` is what the transport accepts. -/
def drain (R : Rustls γ) (s : TlsClientSocket γ) (ns : ℕ → ℕ) (k : ℕ) : TlsClientSocket γ :=
  trace (sendStep R) s ns k

/-- The socket flushes, or waits for the transport to accept a write. -/
def Sending (s : TlsClientSocket γ) : Prop := s.flushing.isSome ∨ s.writes ≠ []

instance (s : TlsClientSocket γ) : Decidable s.Sending := inferInstanceAs (Decidable (_ ∨ _))

variable {R : Rustls γ} {s : TlsClientSocket γ}

/-- The state of the socket when the flush is done: `bytes` were sent. -/
def flushed (s : TlsClientSocket γ) (c : γ) (bytes : List UInt8) : TlsClientSocket γ :=
  { s with conn := c, flushing := none, accepted := s.accepted ++ bytes }

theorem sendStep_flush {done : Done} (hf : s.flushing = some done) (n : ℕ) :
    s.sendStep R n = s.flushPending R done := by
  simp only [sendStep, sendAct, hf, next]

theorem sendStep_accept (hf : s.flushing = none) (buf : List UInt8) (done : Done) (n : ℕ) :
    (s.writeAll buf done).sendStep R n =
      if buf.length ≤ n then
        startFlush { s with accepted := s.accepted ++ buf } done
      else
        writeAll { s with accepted := s.accepted ++ buf.take n } (buf.drop n) done := by
  have hl : (s.writeAll buf done).writes.getLast? = some ⟨buf, done⟩ := by simp [writeAll]
  have hf' : (s.writeAll buf done).flushing = none := hf
  have hlen : (s.writeAll buf done).writes.length - 1 = s.writes.length := by simp [writeAll]
  have hget : (s.writeAll buf done).writes[s.writes.length]? = some ⟨buf, done⟩ := by
    simp [writeAll]
  have herase : (s.writeAll buf done).writes.eraseIdx s.writes.length = s.writes := by
    simp [writeAll, List.eraseIdx_append_of_length_le]
  simp only [sendStep, sendAct, hl, hf', hlen, next, acceptWrite, hget, herase, onWritten]
  by_cases hn : buf.length ≤ n
  · rw [if_pos hn, Nat.min_eq_right hn, if_pos (Nat.le_refl _), List.take_length]
    rfl
  · rw [if_neg hn, Nat.min_eq_left (by omega), if_neg hn]
    simp only [writeAll, hf]

/-- However the transport cuts it, a buffer is written to its end. -/
theorem until_written (hf : s.flushing = none) (buf : List UInt8) (done : Done) :
    Until (sendStep R) (0 < ·) Sending
      (· = startFlush { s with accepted := s.accepted ++ buf } done) (s.writeAll buf done) := by
  induction hlen : buf.length using Nat.strongRecOn generalizing s buf with
  | _ len ih =>
      refine .later (.inr (by simp [writeAll])) fun n hn => ?_
      rw [sendStep_accept hf]
      by_cases hle : buf.length ≤ n
      · rw [if_pos hle]
        exact .now rfl
      · rw [if_neg hle]
        have hshort : (buf.drop n).length < len := by
          rw [List.length_drop]
          omega
        have hrest := ih _ hshort (s := { s with accepted := s.accepted ++ buf.take n }) hf
          (buf.drop n) rfl
        simpa only [List.append_assoc, List.take_append_drop] using hrest

/-- **A flush ends.**  It sends all that `write_tls` gives until there is nothing left, and then
does what follows. -/
theorem until_flushed {backlog : γ → ℕ} (h : Flushes R backlog) (done : Done)
    (hf : s.flushing = some done) :
    Until (sendStep R) (0 < ·) Sending
      (fun t => ∃ c bytes, Drains R s.conn bytes c ∧
        t = (s.flushed c bytes).runDone R done (.ok ())) s := by
  induction hb : backlog s.conn using Nat.strongRecOn generalizing s with
  | _ b ih =>
      refine .later (.inl (by rw [hf]; rfl)) fun n _ => ?_
      rw [sendStep_flush hf]
      cases hw : R.wantsWrite s.conn with
      | false =>
          refine .now ⟨s.conn, [], .done hw, ?_⟩
          simp [flushPending, Rustls.outgoing, hw, flushed]
      | true =>
          -- the chunk is written, and there is less left to send
          have hne := h.writeTls_ne s.conn hw
          have hless := h.writeTls_backlog s.conn hw
          have hp : s.flushPending R done =
              writeAll { s with conn := (R.writeTls s.conn).2, flushing := none }
                (R.writeTls s.conn).1 done := by
            simp [flushPending, Rustls.outgoing, hw, hne]
          rw [hp]
          refine (until_written rfl _ done).bind ?_
          rintro _ rfl
          refine (ih _ (hb ▸ hless) rfl rfl).bind ?_
          rintro _ ⟨c, bytes, hd, rfl⟩
          refine .now ⟨c, _, .more hw hd, ?_⟩
          simp [flushed, startFlush]

/-! ### The write -/

/-- Either the whole buffer is queued and flushed and the callback given its length, or nothing is
queued and the callback given an error. -/
def AllOrNothing (R : Rustls γ) (queued taken : γ → List UInt8) (s : TlsClientSocket γ)
    (buf : List UInt8) (ns : ℕ → ℕ) : Prop :=
  (∃ k bytes,
    ((s.write R buf).drain R ns k).results = s.results ++ [(s.nextCallback, .written buf.length)] ∧
    queued ((s.write R buf).drain R ns k).conn = queued s.conn ++ buf ∧
    R.wantsWrite ((s.write R buf).drain R ns k).conn = false ∧
    taken ((s.write R buf).drain R ns k).conn = taken (s.write R buf).conn ++ bytes ∧
    ((s.write R buf).drain R ns k).accepted = s.accepted ++ bytes ∧
    ((s.write R buf).drain R ns k).writes = s.writes) ∨
  (queued (s.write R buf).conn = queued s.conn ∧
    ∃ e, (s.write R buf).results = s.results ++ [(s.nextCallback, .failed e)])

section Write

variable {queued taken : γ → List UInt8} {room backlog : γ → ℕ}
  (h : Sends R queued taken room backlog)
include h

theorem allOrNothing_of_le {buf : List UInt8} (hle : buf.length ≤ room s.conn) {ns : ℕ → ℕ}
    (hns : ∀ i, 0 < ns i) : AllOrNothing R queued taken s buf ns := by
  obtain ⟨hok, hq⟩ := h.writeAllLoop buf.length s.conn buf (Nat.le_refl _)
  rw [if_pos hle] at hok
  rw [List.take_of_length_le hle] at hq
  have hw : s.write R buf = startFlush { s.takeCallback with conn := (R.writeAll s.conn buf).2 }
      (.write buf.length s.nextCallback) := by
    have he : R.writeAll s.conn buf = (.ok (), (R.writeAll s.conn buf).2) := Prod.ext hok rfl
    unfold write
    rw [he]
  have flushes := until_flushed h.toFlushes (s := s.write R buf)
    (.write buf.length s.nextCallback) (by rw [hw]; rfl)
  obtain ⟨k, c, bytes, hd, hk⟩ := flushes.exists_trace hns
  refine .inl ⟨k, bytes, ?_⟩
  rw [drain, hk]
  have hq' : queued c = queued s.conn ++ buf := by
    rw [hd.keeps h.writeTls_queued, hw]
    exact hq
  refine ⟨?_, hq', hd.wantsWrite_eq_false, hd.taken h.writeTls_taken, ?_, ?_⟩ <;> rw [hw] <;> rfl

theorem write_of_room_lt {buf : List UInt8} (hlt : room s.conn < buf.length) :
    (s.write R buf).results = s.results ++ [(s.nextCallback, .failed .writeZero)] ∧
      queued (s.write R buf).conn = queued s.conn ++ buf.take (room s.conn) ∧
      (s.write R buf).flushing = s.flushing := by
  obtain ⟨herr, hq⟩ := h.writeAllLoop buf.length s.conn buf (Nat.le_refl _)
  rw [if_neg (by omega)] at herr
  have he : R.writeAll s.conn buf = (.error .writeZero, (R.writeAll s.conn buf).2) :=
    Prod.ext herr rfl
  have hw : s.write R buf =
      complete { s.takeCallback with conn := (R.writeAll s.conn buf).2 } s.nextCallback
        (.failed .writeZero) := by
    unfold write
    rw [he]
  rw [hw]
  exact ⟨rfl, hq, rfl⟩

/-! Callbacks stay invoked. -/

omit h in
theorem results_pull (s : TlsClientSocket γ) (len : ℕ) (cb : CallbackId) :
    s.results <+: (s.pull R len cb).results := by
  unfold pull
  split <;> first | exact List.prefix_append .. | exact List.prefix_rfl

omit h in
theorem results_runDone (s : TlsClientSocket γ) (done : Done) (res : Except TlsError Unit) :
    s.results <+: (s.runDone R done res).results := by
  unfold runDone
  split
  · exact List.prefix_append ..
  · exact List.prefix_append ..
  · exact List.prefix_append ..
  · split <;> first | exact List.prefix_append .. | exact List.prefix_rfl
  · exact results_pull ..
  · exact List.prefix_append ..
  · exact List.prefix_rfl

omit h in
theorem results_runFed (s : TlsClientSocket γ) (fed : Fed) (res : Except TlsError Unit) :
    s.results <+: (s.runFed fed res).results := by
  unfold runFed
  split <;> first | exact List.prefix_append .. | exact List.prefix_rfl

omit h in
theorem results_next (s : TlsClientSocket γ) (a : TlsAct) : s.results <+: (s.next R a).results := by
  cases a with
  | handshake | disconnect => exact List.prefix_rfl
  | read len => exact results_pull s.takeCallback len _
  | write buf =>
      simp only [next, write]
      split <;> first | exact List.prefix_append .. | exact List.prefix_rfl
  | flush =>
      simp only [next]
      split
      · exact List.prefix_rfl
      · simp only [flushPending]
        split
        · exact results_runDone { s with conn := (R.outgoing s.conn).2, flushing := none } ..
        · exact List.prefix_rfl
  | accept i n =>
      simp only [next, acceptWrite]
      split
      · exact List.prefix_rfl
      · simp only [onWritten]
        split <;> exact List.prefix_rfl
  | receive i res =>
      simp only [next, answerRead]
      split
      · exact List.prefix_rfl
      · simp only [onRead]
        split
        · exact results_runFed { s with reads := s.reads.eraseIdx i } ..
        · next data _ =>
            exact results_runFed
              { s with reads := s.reads.eraseIdx i, conn := (R.feed s.conn data).2 } ..
        · exact results_runFed { s with reads := s.reads.eraseIdx i } ..

omit h in
theorem results_drain (s : TlsClientSocket γ) (ns : ℕ → ℕ) (k : ℕ) :
    s.results <+: (s.drain R ns k).results := by
  induction k with
  | zero => exact List.prefix_rfl
  | succ k ih => exact ih.trans (results_next ..)

/-- A part of the buffer is queued, and an error reported. -/
theorem not_allOrNothing {buf : List UInt8} (hpos : 0 < room s.conn)
    (hlt : room s.conn < buf.length) (ns : ℕ → ℕ) : ¬ AllOrNothing R queued taken s buf ns := by
  obtain ⟨hr, hq, -⟩ := write_of_room_lt h hlt
  rintro (⟨k, bytes, hk, -⟩ | ⟨hk, -⟩)
  · -- the callback was given an error, and is not invoked again
    have hp := results_drain (R := R) (s.write R buf) ns k
    rw [hr, hk] at hp
    have := hp.eq_of_length (by simp)
    simp at this
  · rw [hq] at hk
    have hz := congrArg List.length hk
    simp only [List.length_append, List.length_take] at hz
    omega

/-- **All or nothing.**  `write` queues, flushes and reports the whole buffer, or nothing of it, if
and only if there is room for all of it or no room at all. -/
theorem write_all_or_nothing_iff {buf : List UInt8} {ns : ℕ → ℕ} (hns : ∀ i, 0 < ns i) :
    AllOrNothing R queued taken s buf ns ↔ buf.length ≤ room s.conn ∨ room s.conn = 0 := by
  constructor
  · intro ha
    by_contra hn
    exact not_allOrNothing h (by omega) (by omega) ns ha
  · intro hr
    by_cases hle : buf.length ≤ room s.conn
    · exact allOrNothing_of_le h hle hns
    · obtain ⟨hres, hq, -⟩ := write_of_room_lt h (Nat.lt_of_not_le hle)
      rw [hr.resolve_left hle, List.take_zero, List.append_nil] at hq
      exact .inr ⟨hq, .writeZero, hres⟩

end Write

end TlsClientSocket

/-! ### A session -/

namespace Session

/-- What is left of the send buffer. -/
def room (limit : ℕ) (c : Session) : ℕ := limit - c.sendable.length

def backlog (c : Session) : ℕ := if c.sendable.isEmpty then 0 else 1

theorem flushes (size sendLimit receiveLimit : ℕ) (recs : List Record) :
    Flushes (upTo size sendLimit receiveLimit recs) backlog where
  writeTls_ne c hw := by simpa [upTo] using hw
  writeTls_backlog c hw := by
    have hne : c.sendable ≠ [] := by simpa [upTo] using hw
    simp [upTo, backlog, hne]

theorem write_eq (limit : ℕ) (c : Session) (buf : List UInt8) :
    (write limit c buf).1 = min buf.length (c.room limit) ∧
      (write limit c buf).2.queued = c.queued ++ buf.take (min buf.length (c.room limit)) ∧
      ((write limit c buf).1 < buf.length → (write limit c buf).2.room limit = 0) := by
  unfold write
  split
  · next h =>
      change min buf.length (c.room limit) = 0 at h
      refine ⟨h.symm, by rw [h]; simp, fun hlt => ?_⟩
      change c.room limit = 0
      simp only [room] at h ⊢
      omega
  · next n h =>
      change min buf.length (c.room limit) = n + 1 at h
      refine ⟨h.symm, by rw [h], fun hlt => ?_⟩
      simp only [room, sealed, List.length_append, List.length_cons, List.length_nil,
        List.length_take] at h ⊢
      omega

theorem sends (sendLimit receiveLimit : ℕ) (recs : List Record) :
    Sends (rustls sendLimit receiveLimit recs) queued sent (room sendLimit) backlog where
  toFlushes := flushes readSize sendLimit receiveLimit recs
  write_le c buf := by
    obtain ⟨h, -, -⟩ := write_eq sendLimit c buf
    exact h ▸ Nat.min_le_left ..
  write_room c buf := by
    obtain ⟨h, -, -⟩ := write_eq sendLimit c buf
    exact h ▸ Nat.min_le_right ..
  write_pos c buf hne hpos := by
    obtain ⟨h, -, -⟩ := write_eq sendLimit c buf
    exact h ▸ Nat.lt_min.mpr ⟨List.length_pos_iff.mpr hne, hpos⟩
  write_queued c buf := by
    obtain ⟨h, hq, -⟩ := write_eq sendLimit c buf
    exact hq.trans (by rw [← h]; rfl)
  write_left c buf hlt := by
    obtain ⟨h, -, hr⟩ := write_eq sendLimit c buf
    have h' : ((rustls sendLimit receiveLimit recs).write c buf).1 =
      min buf.length (c.room sendLimit) := h
    exact (hr hlt).trans (by omega)
  writeTls_queued c := rfl
  writeTls_taken c := rfl

end Session

namespace TlsClientSocket

/-- The limit of rustls when nobody sets another one. -/
def bufferLimit : ℕ := 64 * 1024

theorem short_write_all_or_nothing :
    AllOrNothing (Session.rustls bufferLimit 0 []) Session.queued Session.sent (.new .new)
      [1, 2, 3] (fun _ => 2) :=
  (write_all_or_nothing_iff (s := .new .new) (Session.sends bufferLimit 0 [])
    fun _ => by decide).mpr (.inl (by decide))

/-- A buffer one byte longer than the limit, on a connection with nothing to send: all of it but the
last byte is queued, and the callback is given an error. -/
theorem long_write_partial :
    (write (Session.rustls bufferLimit 0 []) (.new .new)
        (List.replicate (bufferLimit + 1) 7)).results = [(0, .failed .writeZero)] ∧
      (write (Session.rustls bufferLimit 0 []) (.new .new)
        (List.replicate (bufferLimit + 1) 7)).conn.queued = List.replicate bufferLimit 7 ∧
      ¬ AllOrNothing (Session.rustls bufferLimit 0 []) Session.queued Session.sent (.new .new)
        (List.replicate (bufferLimit + 1) 7) (fun _ => 1) := by
  have h := Session.sends bufferLimit 0 []
  have hroom : Session.room bufferLimit (new Session.new).conn = bufferLimit := rfl
  have hpos : 0 < Session.room bufferLimit (new Session.new).conn := by
    rw [hroom]
    decide
  have hlt : Session.room bufferLimit (new Session.new).conn <
      (List.replicate (bufferLimit + 1) (7 : UInt8)).length := by
    simp [hroom]
  obtain ⟨hr, hq, -⟩ := write_of_room_lt h hlt
  refine ⟨hr, hq.trans ?_, not_allOrNothing h hpos hlt _⟩
  change [] ++ List.take bufferLimit (List.replicate (bufferLimit + 1) (7 : UInt8)) = _
  rw [List.nil_append, List.take_replicate, Nat.min_eq_left (Nat.le_succ _)]

end TlsClientSocket

end RustNet
