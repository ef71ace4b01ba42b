import RustBase.Net.TlsOrder

/-!
# Net — the pumps of a TLS socket

One call of `flush_pending` or of `handshake` alone on a socket, up to its end.  rustls gives what
it likes: its connection may change between any two steps (`appear`), as records may come up that
were not there.  The transport accepts a part of each write that is not empty, at once or later, or
fails (`fail`); its reads are answered by anything.

`PumpLog` is a history.  A `flush_pending` *begins* when it is called with a `done`; the recursion
through `write_all` is the same call.  A `DoneCall` is a call of a `done`: with what result, what
`wants_write` was last asked of, what rustls had given to be sent by then, and what the transport
had accepted.

**`pumps_complete`**: every `flush_pending` calls its `done` once, with `Ok` exactly when the
transport has accepted all that rustls gave, in order; after an error nothing more is written; it
ends when rustls has given finitely many bytes; and `drive_handshake` calls back once, with `Ok`
only when the handshake is over and all is flushed.  Of the flushes of `read`, `write` and
`disconnect` it says what their `done` has done.
-/

namespace RustNet
open Support

variable {γ : Type}

inductive PumpAct (γ : Type) where
  | flush
  /-- the transport accepts `n` bytes of the write -/
  | accept (n : ℕ)
  /-- the transport fails the write -/
  | fail (e : Errno)
  | receive (res : Except Errno (List UInt8))
  /-- rustls has changed on its own -/
  | appear (c : γ)

structure DoneCall (γ : Type) where
  result : Except TlsError Unit
  /-- the connection that was asked last whether it wants to write -/
  found : γ
  conn : γ
  output : List UInt8
  accepted : List UInt8

structure PumpLog (γ : Type) where
  /-- the calls of `flush_pending` -/
  began : ℕ
  dones : List (DoneCall γ)
  /-- what `write_tls` has given -/
  output : List UInt8
  /-- the checks of `wants_write` and the answers to writes -/
  steps : ℕ

/-- What is passed to the `flush_pending` that follows the chunk. -/
def Fed.done : Fed → Done
  | .handshake cb => .handshake cb
  | .read len cb => .read len cb

theorem Fed.done_injective {fed fed' : Fed} (h : fed.done = fed'.done) : fed = fed' := by
  cases fed <;> cases fed' <;> cases h <;> rfl

namespace TlsClientSocket

variable (R : Rustls γ)

/-- The transport fails the write number `i`. -/
def failWrite (s : TlsClientSocket γ) (i : ℕ) (e : Errno) : TlsClientSocket γ :=
  match s.writes[i]? with
  | none => s
  | some w => onWritten R { s with writes := s.writes.eraseIdx i } w (.error e)

def PumpEnabled (s : TlsClientSocket γ) : PumpAct γ → Prop
  | .flush => s.flushing.isSome
  | .accept n => s.flushing = none ∧ s.connected = true ∧
      ∃ w ∈ s.writes[0]?, 0 < n ∧ n ≤ w.buf.length
  | .fail _ => s.flushing = none ∧ s.connected = true ∧ s.writes ≠ []
  | .receive res => s.flushing = none ∧ s.connected = true ∧ s.reads ≠ [] ∧ ChunkOk res
  | .appear _ => True

def pumpNext (s : TlsClientSocket γ) : PumpAct γ → TlsClientSocket γ
  | .flush =>
      match s.flushing with
      | none => s
      | some done => s.flushPending R done
  | .accept n => s.acceptWrite R 0 n
  | .fail e => s.failWrite R 0 e
  | .receive res => s.answerRead R 0 res
  | .appear c => { s with conn := c }

/-- Nothing is under way. -/
structure Quiet (s : TlsClientSocket γ) : Prop where
  flushing : s.flushing = none
  writes : s.writes = []
  reads : s.reads = []

/-- Nobody is on the socket. -/
structure Alone (s : TlsClientSocket γ) : Prop extends Quiet s where
  connected : s.connected = true

end TlsClientSocket

namespace PumpLog

def start : PumpLog γ := ⟨1, [], [], 0⟩

def record (R : Rustls γ) (s : TlsClientSocket γ) (a : PumpAct γ) (h : PumpLog γ) : PumpLog γ :=
  match a with
  | .flush =>
      let out := if R.wantsWrite s.conn then R.writeTls s.conn else ([], s.conn)
      if out.1 = [] then
        { h with
          dones := h.dones ++ [⟨.ok (), s.conn, out.2, h.output, s.accepted⟩]
          steps := h.steps + 1 }
      else { h with output := h.output ++ out.1, steps := h.steps + 1 }
  | .accept _ => { h with steps := h.steps + 1 }
  | .fail e =>
      { h with
        dones := h.dones ++ [⟨.error (.transport e), s.conn, s.conn, h.output, s.accepted⟩]
        steps := h.steps + 1 }
  | .receive res =>
      { h with began := h.began + (s.answerRead R 0 res).flushing.toList.length }
  | .appear _ => h

end PumpLog

/-- A `flush_pending` with `done` is called on the socket `s₀`. -/
def pumpMachine (R : Rustls γ) (s₀ : TlsClientSocket γ) (done : Done) :
    Machine (TlsClientSocket γ × PumpLog γ) (PumpAct γ) :=
  Machine.withHistory
    { Init := fun s => s = s₀.startFlush done
      Enabled := TlsClientSocket.PumpEnabled
      next := TlsClientSocket.pumpNext R }
    .start (PumpLog.record R)

instance (s : TlsClientSocket γ) : ∀ a, Decidable (s.PumpEnabled a)
  | .flush => inferInstanceAs (Decidable (_ = _))
  | .accept _ => inferInstanceAs (Decidable (_ ∧ _ ∧ ∃ w ∈ _, _ ∧ _))
  | .fail _ => inferInstanceAs (Decidable (_ ∧ _ ∧ _))
  | .receive _ => inferInstanceAs (Decidable (_ ∧ _ ∧ _ ∧ _))
  | .appear _ => inferInstanceAs (Decidable True)

instance (R : Rustls γ) (s₀ : TlsClientSocket γ) (done : Done) :
    ∀ x a, Decidable ((pumpMachine R s₀ done).Enabled x a) :=
  fun x a => inferInstanceAs (Decidable (x.1.PumpEnabled a))

/-! ### The closures -/

namespace TlsClientSocket

variable {R : Rustls γ} {s : TlsClientSocket γ}

theorem unaccepted_nil (h : s.writes = []) : s.unaccepted = [] := by simp [unaccepted, h]

theorem unaccepted_singleton {w : TransportWrite} (h : s.writes = [w]) : s.unaccepted = w.buf := by
  simp [unaccepted, h]

/-- What follows a flush that is done: the end, or a read. -/
theorem runDone_ok (h : s.Alone) (done : Done) :
    (s.runDone R done (.ok ())).flushing = none ∧ (s.runDone R done (.ok ())).writes = [] ∧
      (s.runDone R done (.ok ())).accepted = s.accepted ∧
      ((s.runDone R done (.ok ())).reads = [] ∨
        (∃ fed, fed.done = done ∧ (s.runDone R done (.ok ())).reads = [fed]) ∧
          (s.runDone R done (.ok ())).connected = true) := by
  have feed : ∀ (c : γ) (fed : Fed), (feedOne { s with conn := c } fed).flushing = none ∧
      (feedOne { s with conn := c } fed).writes = [] ∧
      (feedOne { s with conn := c } fed).accepted = s.accepted ∧
      ((feedOne { s with conn := c } fed).reads = [] ∨
        (∃ fed', fed'.done = fed.done ∧ (feedOne { s with conn := c } fed).reads = [fed']) ∧
          (feedOne { s with conn := c } fed).connected = true) := fun c fed =>
    ⟨h.flushing, h.writes, rfl, .inr ⟨⟨fed, rfl, by simp [feedOne, h.reads]⟩, h.connected⟩⟩
  cases done with
  | handshake cb =>
      simp only [runDone]
      split
      · exact feed s.conn (.handshake cb)
      · exact ⟨h.flushing, h.writes, rfl, .inl h.reads⟩
  | read len cb =>
      simp only [runDone, pull]
      split
      · exact ⟨h.flushing, h.writes, rfl, .inl h.reads⟩
      · exact ⟨h.flushing, h.writes, rfl, .inl h.reads⟩
      · exact feed _ (.read len cb)
  | write len cb => exact ⟨h.flushing, h.writes, rfl, .inl h.reads⟩
  | disconnect => exact ⟨h.flushing, rfl, rfl, .inl rfl⟩

/-- Nothing follows a flush that failed. -/
theorem runDone_error (h : s.Alone) (done : Done) (e : TlsError) :
    (s.runDone R done (.error e)).Quiet ∧
      (s.runDone R done (.error e)).accepted = s.accepted := by
  cases done with
  | handshake cb | read len cb | write len cb => exact ⟨⟨h.flushing, h.writes, h.reads⟩, rfl⟩
  | disconnect => exact ⟨⟨h.flushing, rfl, rfl⟩, rfl⟩

theorem writes_ne_nil {n : ℕ} (h : s.PumpEnabled (.accept n)) : s.writes ≠ [] := by
  obtain ⟨-, -, w, hw, -⟩ := h
  intro hn
  simp [hn] at hw

theorem pumpNext_flush_more {done : Done} (hf : s.flushing = some done)
    (hne : (R.outgoing s.conn).1 ≠ []) :
    s.pumpNext R .flush = writeAll { s with conn := (R.outgoing s.conn).2, flushing := none }
      (R.outgoing s.conn).1 done := by
  simp [pumpNext, hf, flushPending, hne]

theorem pumpNext_flush_done {done : Done} (hf : s.flushing = some done)
    (he : (R.outgoing s.conn).1 = []) :
    s.pumpNext R .flush = runDone R { s with conn := (R.outgoing s.conn).2, flushing := none }
      done (.ok ()) := by
  simp [pumpNext, hf, flushPending, he]

theorem pumpNext_accept {w : TransportWrite} (hw : s.writes = [w]) (n : ℕ) :
    s.pumpNext R (.accept n) =
      onWritten R { s with writes := [], accepted := s.accepted ++ w.buf.take n } w (.ok n) := by
  simp [pumpNext, acceptWrite, hw]

theorem pumpNext_fail {w : TransportWrite} (hw : s.writes = [w]) (e : Errno) :
    s.pumpNext R (.fail e) =
      runDone R { s with writes := [] } w.done (.error (.transport e)) := by
  simp [pumpNext, failWrite, hw, onWritten]

/-- The chunk is fed, and then there is another flush or the end. -/
theorem pumpNext_receive {fed : Fed} (hr : s.reads = [fed]) (res : Except Errno (List UInt8)) :
    ∃ c, s.pumpNext R (.receive res) = startFlush { s with reads := [], conn := c } fed.done ∨
      ∃ e, s.pumpNext R (.receive res) =
        runFed { s with reads := [], conn := c } fed (.error e) := by
  have hstep : s.pumpNext R (.receive res) = onRead R { s with reads := [] } fed res := by
    simp [pumpNext, answerRead, hr]
  rw [hstep]
  cases res with
  | error e => exact ⟨s.conn, .inr ⟨_, rfl⟩⟩
  | ok data =>
      cases data with
      | nil => exact ⟨s.conn, .inr ⟨_, rfl⟩⟩
      | cons b data =>
          refine ⟨(R.feed s.conn (b :: data)).2, ?_⟩
          simp only [onRead]
          cases (R.feed s.conn (b :: data)).1 with
          | error e => exact .inr ⟨e, rfl⟩
          | ok u => cases fed <;> exact .inl rfl

theorem not_quiet_startFlush (s : TlsClientSocket γ) (done : Done) : ¬ (s.startFlush done).Quiet := by
  intro hq
  cases hq.flushing

theorem not_quiet_writeAll (s : TlsClientSocket γ) (buf : List UInt8) (done : Done) :
    ¬ (s.writeAll buf done).Quiet := by
  intro hq
  have hw := hq.writes
  simp [writeAll] at hw

theorem not_quiet_feedOne (s : TlsClientSocket γ) (fed : Fed) : ¬ (s.feedOne fed).Quiet := by
  intro hq
  have hr := hq.reads
  simp [feedOne] at hr

/-- A pump goes on after the transport has accepted something. -/
theorem goes_accept {w : TransportWrite} (hw : s.writes = [w]) (n : ℕ) :
    ¬ (s.pumpNext R (.accept n)).Quiet ∧ (s.pumpNext R (.accept n)).results = s.results := by
  rw [pumpNext_accept hw, onWritten]
  split
  · exact ⟨not_quiet_startFlush _ _, rfl⟩
  · exact ⟨not_quiet_writeAll _ _ _, rfl⟩

/-- A pump goes on while rustls gives something. -/
theorem goes_flush {done : Done} (hf : s.flushing = some done) (hne : (R.outgoing s.conn).1 ≠ []) :
    ¬ (s.pumpNext R .flush).Quiet ∧ (s.pumpNext R .flush).results = s.results := by
  rw [pumpNext_flush_more hf hne]
  exact ⟨not_quiet_writeAll _ _ _, rfl⟩

theorem quiet_appear (c : γ) : (s.pumpNext R (.appear c)).Quiet ↔ s.Quiet :=
  ⟨fun h => ⟨h.flushing, h.writes, h.reads⟩, fun h => ⟨h.flushing, h.writes, h.reads⟩⟩

end TlsClientSocket

theorem PumpLog.record_flush_more {R : Rustls γ} {s : TlsClientSocket γ} {h : PumpLog γ}
    (hne : (R.outgoing s.conn).1 ≠ []) :
    PumpLog.record R s .flush h =
      { h with output := h.output ++ (R.outgoing s.conn).1, steps := h.steps + 1 } :=
  if_neg hne

theorem PumpLog.record_flush_done {R : Rustls γ} {s : TlsClientSocket γ} {h : PumpLog γ}
    (he : (R.outgoing s.conn).1 = []) :
    PumpLog.record R s .flush h =
      { h with
        dones := h.dones ++ [⟨.ok (), s.conn, (R.outgoing s.conn).2, h.output, s.accepted⟩]
        steps := h.steps + 1 } :=
  if_pos he

/-! ### The invariant -/

/-- Where the pump is: it flushes, waits for a write or for a read, or has ended. -/
inductive PumpPlace (done : Done) (s₀ s : TlsClientSocket γ) (h : PumpLog γ) : Prop where
  | flush (hf : s.flushing = some done) (hw : s.writes = []) (hr : s.reads = [])
      (hc : s.connected = true) (hb : h.dones.length + 1 = h.began)
      (ha : s₀.accepted ++ h.output = s.accepted) (hok : ∀ d ∈ h.dones, d.result = .ok ())
  | write (buf : List UInt8) (hf : s.flushing = none) (hw : s.writes = [⟨buf, done⟩])
      (hne : buf ≠ []) (hr : s.reads = []) (hc : s.connected = true)
      (hb : h.dones.length + 1 = h.began) (ha : s₀.accepted ++ h.output = s.accepted ++ buf)
      (hok : ∀ d ∈ h.dones, d.result = .ok ())
  | read (fed : Fed) (hd : fed.done = done) (hf : s.flushing = none) (hw : s.writes = [])
      (hr : s.reads = [fed]) (hc : s.connected = true) (hb : h.dones.length = h.began)
      (ha : s₀.accepted ++ h.output = s.accepted) (hok : ∀ d ∈ h.dones, d.result = .ok ())
  | ended (hq : s.Quiet) (hb : h.dones.length = h.began)
      (ha : ∃ rest, s₀.accepted ++ h.output = s.accepted ++ rest)

/-- A call of a `done`: with `Ok` when nothing was left to send and all was accepted; with an error
of the transport when something was not, and then it was the last one. -/
structure DoneCall.Lawful (R : Rustls γ) (s₀ s : TlsClientSocket γ) (d : DoneCall γ) : Prop where
  ok : d.result = .ok () → (R.outgoing d.found).1 = [] ∧ s₀.accepted ++ d.output = d.accepted
  error : ∀ e, d.result = .error e → (∃ errno, e = .transport errno) ∧
    (∃ rest, rest ≠ [] ∧ s₀.accepted ++ d.output = d.accepted ++ rest) ∧ s.Quiet ∧
    s.accepted = d.accepted

structure PumpInv (R : Rustls γ) (done : Done) (s₀ s : TlsClientSocket γ) (h : PumpLog γ) :
    Prop where
  place : PumpPlace done s₀ s h
  lawful : ∀ d ∈ h.dones, d.Lawful R s₀ s
  steps : h.steps + s.unaccepted.length ≤ 2 * h.output.length + h.dones.length

namespace PumpInv

variable {R : Rustls γ} {s₀ s s' : TlsClientSocket γ} {h h' : PumpLog γ} {done : Done}

theorem init (h₀ : s₀.Alone) : PumpInv R done s₀ (s₀.startFlush done) .start where
  place := .flush rfl h₀.writes h₀.reads h₀.connected rfl (List.append_nil _) nofun
  lawful := nofun
  steps := by
    have hw : (s₀.startFlush done).writes = [] := h₀.writes
    rw [TlsClientSocket.unaccepted_nil hw]
    exact Nat.le_refl _

/-- What was lawful stays so when all calls so far were with `Ok`. -/
theorem lawful_of_ok (hl : ∀ d ∈ h.dones, d.Lawful R s₀ s)
    (hok : ∀ d ∈ h.dones, d.result = .ok ()) : ∀ d ∈ h.dones, d.Lawful R s₀ s' := by
  intro d hd
  refine ⟨(hl d hd).ok, fun e he => ?_⟩
  rw [hok d hd] at he
  cases he

/-- The check finds something to send: it is handed to `write_all`. -/
theorem flush_more (hi : PumpInv R done s₀ s h) (hf : s.flushing = some done)
    (hne : (R.outgoing s.conn).1 ≠ []) :
    PumpInv R done s₀ (s.pumpNext R .flush) (PumpLog.record R s .flush h) := by
  have hpos := List.length_pos_iff.mpr hne
  have steps := hi.steps
  rw [TlsClientSocket.pumpNext_flush_more hf hne, PumpLog.record_flush_more hne]
  cases hi.place with
  | flush hf' hw hr hc hb ha hok =>
      have hw₁ : (TlsClientSocket.writeAll
          { s with conn := (R.outgoing s.conn).2, flushing := none } (R.outgoing s.conn).1
            done).writes = [⟨(R.outgoing s.conn).1, done⟩] := by
        simp [TlsClientSocket.writeAll, hw]
      refine ⟨.write _ rfl hw₁ hne hr hc hb ?_ hok, lawful_of_ok hi.lawful hok, ?_⟩
      · rw [← List.append_assoc, ha]
        rfl
      · rw [TlsClientSocket.unaccepted_nil hw, List.length_nil] at steps
        rw [TlsClientSocket.unaccepted_singleton hw₁, List.length_append]
        dsimp only
        omega
  | write buf hf' | read fed hd hf' =>
      rw [hf] at hf'
      cases hf'
  | ended hq =>
      rw [hq.flushing] at hf
      cases hf

/-- The check finds nothing: `done` is called. -/
theorem flush_done (hi : PumpInv R done s₀ s h) (hf : s.flushing = some done)
    (he : (R.outgoing s.conn).1 = []) :
    PumpInv R done s₀ (s.pumpNext R .flush) (PumpLog.record R s .flush h) := by
  have steps := hi.steps
  rw [TlsClientSocket.pumpNext_flush_done hf he, PumpLog.record_flush_done he]
  cases hi.place with
  | flush hf' hw hr hc hb ha hok =>
      have alone : TlsClientSocket.Alone
          { s with conn := (R.outgoing s.conn).2, flushing := none } := ⟨⟨rfl, hw, hr⟩, hc⟩
      obtain ⟨hf₁, hw₁, ha₁, hr₁⟩ := TlsClientSocket.runDone_ok (R := R) alone done
      have len : (h.dones ++ [(⟨.ok (), s.conn, (R.outgoing s.conn).2, h.output, s.accepted⟩ :
          DoneCall γ)]).length = h.began := by
        rw [List.length_append]
        exact hb
      have all : ∀ d ∈ h.dones ++ [(⟨.ok (), s.conn, (R.outgoing s.conn).2, h.output,
          s.accepted⟩ : DoneCall γ)], d.result = .ok () := by
        intro d hd
        rcases List.mem_append.mp hd with hd | hd
        · exact hok d hd
        · rw [List.mem_singleton.mp hd]
      refine ⟨?_, fun d hd => ⟨fun _ => ?_, fun e hd' => ?_⟩, ?_⟩
      · rcases hr₁ with hr₁ | ⟨⟨fed, hd, hr₁⟩, hc₁⟩
        · exact .ended ⟨hf₁, hw₁, hr₁⟩ len ⟨[], by rw [List.append_nil]; exact ha.trans ha₁.symm⟩
        · exact .read fed hd hf₁ hw₁ hr₁ hc₁ len (ha.trans ha₁.symm) all
      · rcases List.mem_append.mp hd with hd | hd
        · exact (hi.lawful d hd).ok (hok d hd)
        · rw [List.mem_singleton.mp hd]
          exact ⟨he, ha⟩
      · rw [all d hd] at hd'
        cases hd'
      · rw [TlsClientSocket.unaccepted_nil hw, List.length_nil] at steps
        rw [TlsClientSocket.unaccepted_nil hw₁, List.length_nil, List.length_append,
          List.length_singleton]
        dsimp only
        omega
  | write buf hf' | read fed hd hf' =>
      rw [hf] at hf'
      cases hf'
  | ended hq =>
      rw [hq.flushing] at hf
      cases hf

/-- The transport accepts a part of the write. -/
theorem accept (hi : PumpInv R done s₀ s h) {n : ℕ} (ha : s.PumpEnabled (.accept n)) :
    PumpInv R done s₀ (s.pumpNext R (.accept n)) (PumpLog.record R s (.accept n) h) := by
  obtain ⟨hf, -, w, hw, hpos, hle⟩ := ha
  have steps := hi.steps
  cases hi.place with
  | write buf hf' hw' hne hr hc hb hacc hok =>
      obtain rfl : ⟨buf, done⟩ = w := by simpa [hw'] using hw
      rw [TlsClientSocket.unaccepted_singleton hw'] at steps
      rw [TlsClientSocket.pumpNext_accept hw', TlsClientSocket.onWritten]
      dsimp only at steps hle ⊢
      by_cases hn : buf.length ≤ n
      · -- all of it is accepted
        rw [if_pos hn]
        refine ⟨.flush rfl rfl hr hc hb ?_ hok, lawful_of_ok hi.lawful hok, ?_⟩
        · change _ = s.accepted ++ buf.take n
          rw [List.take_of_length_le hn]
          exact hacc
        · rw [TlsClientSocket.unaccepted_nil rfl]
          change h.steps + 1 + 0 ≤ 2 * h.output.length + h.dones.length
          omega
      · rw [if_neg hn]
        have rest : buf.drop n ≠ [] := by
          rw [ne_eq, List.drop_eq_nil_iff]
          exact hn
        refine ⟨.write (buf.drop n) hf rfl rest hr hc hb ?_ hok, lawful_of_ok hi.lawful hok, ?_⟩
        · change _ = s.accepted ++ buf.take n ++ buf.drop n
          rw [List.append_assoc, List.take_append_drop]
          exact hacc
        · rw [TlsClientSocket.unaccepted_singleton (w := ⟨buf.drop n, done⟩) rfl, List.length_drop]
          change h.steps + 1 + _ ≤ 2 * h.output.length + h.dones.length
          omega
  | flush hf' => rw [hf] at hf'; cases hf'
  | read fed hd hf' hw' => simp [hw'] at hw
  | ended hq => simp [hq.writes] at hw

/-- The transport fails the write: `done` is called with its error. -/
theorem fail (hi : PumpInv R done s₀ s h) {e : Errno} (ha : s.PumpEnabled (.fail e)) :
    PumpInv R done s₀ (s.pumpNext R (.fail e)) (PumpLog.record R s (.fail e) h) := by
  obtain ⟨hf, -, hne⟩ := ha
  have steps := hi.steps
  cases hi.place with
  | write buf hf' hw hbuf hr hc hb hacc hok =>
      have alone : TlsClientSocket.Alone { s with writes := [] } := ⟨⟨hf, rfl, hr⟩, hc⟩
      obtain ⟨hq, ha⟩ := TlsClientSocket.runDone_error (R := R) alone done (.transport e)
      rw [TlsClientSocket.pumpNext_fail hw]
      refine ⟨.ended hq ?_ ⟨buf, ?_⟩, fun d hd => ?_, ?_⟩
      · rw [PumpLog.record, List.length_append]
        exact hb
      · rw [ha]
        exact hacc
      · rcases List.mem_append.mp hd with hd | hd
        · exact lawful_of_ok hi.lawful hok d hd
        · rw [List.mem_singleton.mp hd]
          refine ⟨nofun, fun e' he => ?_⟩
          cases he
          exact ⟨⟨e, rfl⟩, ⟨buf, hbuf, hacc⟩, hq, ha⟩
      · rw [TlsClientSocket.unaccepted_nil hq.writes]
        change h.steps + 1 + 0 ≤ 2 * h.output.length + (h.dones ++ [_]).length
        rw [List.length_append, List.length_singleton]
        omega
  | flush hf' => rw [hf] at hf'; cases hf'
  | read fed hd hf' hw => exact absurd hw hne
  | ended hq => exact absurd hq.writes hne

/-- The chunk that was read is fed: the end, or another flush. -/
theorem receive (hi : PumpInv R done s₀ s h) {res : Except Errno (List UInt8)}
    (ha : s.PumpEnabled (.receive res)) :
    PumpInv R done s₀ (s.pumpNext R (.receive res)) (PumpLog.record R s (.receive res) h) := by
  obtain ⟨hf, -, hne, -⟩ := ha
  have steps := hi.steps
  cases hi.place with
  | read fed hd hf' hw hr hc hb hacc hok =>
      rw [TlsClientSocket.unaccepted_nil hw] at steps
      have hlog : PumpLog.record R s (.receive res) h =
          { h with began := h.began + (s.pumpNext R (.receive res)).flushing.toList.length } := rfl
      rw [hlog]
      obtain ⟨c, hstep | ⟨e, hstep⟩⟩ := TlsClientSocket.pumpNext_receive (R := R) hr res
      · have hw₁ : (TlsClientSocket.startFlush { s with reads := [], conn := c }
            fed.done).writes = [] := hw
        rw [hstep, hd]
        refine ⟨.flush rfl hw rfl hc (congrArg (· + 1) hb) hacc hok,
          lawful_of_ok hi.lawful hok, ?_⟩
        rw [hd] at hw₁
        rw [TlsClientSocket.unaccepted_nil hw₁]
        exact steps
      · have hq : (TlsClientSocket.runFed { s with reads := [], conn := c } fed
            (.error e)).Quiet := by
          cases fed <;> exact ⟨hf, hw, rfl⟩
        have hacc₁ : (TlsClientSocket.runFed { s with reads := [], conn := c } fed
            (.error e)).accepted = s.accepted := by
          cases fed <;> rfl
        rw [hstep, hq.flushing]
        refine ⟨.ended hq hb ⟨[], ?_⟩, lawful_of_ok hi.lawful hok, ?_⟩
        · rw [hacc₁, List.append_nil]
          exact hacc
        · rw [TlsClientSocket.unaccepted_nil hq.writes]
          exact steps
  | flush hf' => rw [hf] at hf'; cases hf'
  | write buf hf' hw hbuf hr => exact absurd hr hne
  | ended hq => exact absurd hq.reads hne

theorem appear (hi : PumpInv R done s₀ s h) (c : γ) :
    PumpInv R done s₀ (s.pumpNext R (.appear c)) (PumpLog.record R s (.appear c) h) := by
  refine ⟨?_, fun d hd => ⟨(hi.lawful d hd).ok, fun e he => ?_⟩, hi.steps⟩
  · cases hi.place with
    | flush hf hw hr hc hb ha hok => exact .flush hf hw hr hc hb ha hok
    | write buf hf hw hne hr hc hb ha hok => exact .write buf hf hw hne hr hc hb ha hok
    | read fed hd hf hw hr hc hb ha hok => exact .read fed hd hf hw hr hc hb ha hok
    | ended hq hb ha => exact .ended ⟨hq.flushing, hq.writes, hq.reads⟩ hb ha
  · obtain ⟨h₁, h₂, hq, h₄⟩ := (hi.lawful d hd).error e he
    exact ⟨h₁, h₂, ⟨hq.flushing, hq.writes, hq.reads⟩, h₄⟩

/-- Only `done` is passed on. -/
theorem flushing_eq (hi : PumpInv R done s₀ s h) (hf : s.flushing.isSome) :
    s.flushing = some done ∧ s.writes = [] ∧ s.reads = [] := by
  cases hi.place with
  | flush hf' hw hr => exact ⟨hf', hw, hr⟩
  | write buf hf' | read fed hd hf' =>
      rw [hf'] at hf
      cases hf
  | ended hq =>
      rw [hq.flushing] at hf
      cases hf

theorem writes_eq (hi : PumpInv R done s₀ s h) (hne : s.writes ≠ []) :
    ∃ buf, s.writes = [⟨buf, done⟩] ∧ s.flushing = none ∧ s.reads = [] := by
  cases hi.place with
  | write buf hf hw _ hr => exact ⟨buf, hw, hf, hr⟩
  | flush _ hw | read _ _ _ hw => exact absurd hw hne
  | ended hq => exact absurd hq.writes hne

theorem reads_eq (hi : PumpInv R done s₀ s h) (hne : s.reads ≠ []) :
    ∃ fed, s.reads = [fed] ∧ fed.done = done ∧ s.flushing = none ∧ s.writes = [] := by
  cases hi.place with
  | read fed hd hf hw hr => exact ⟨fed, hr, hd, hf, hw⟩
  | flush _ _ hr | write _ _ _ _ hr => exact absurd hr hne
  | ended hq => exact absurd hq.reads hne

theorem next (hi : PumpInv R done s₀ s h) {a : PumpAct γ} (ha : s.PumpEnabled a) :
    PumpInv R done s₀ (s.pumpNext R a) (PumpLog.record R s a h) := by
  cases a with
  | flush =>
      by_cases he : (R.outgoing s.conn).1 = []
      · exact hi.flush_done (hi.flushing_eq ha).1 he
      · exact hi.flush_more (hi.flushing_eq ha).1 he
  | accept n => exact hi.accept ha
  | fail e => exact hi.fail ha
  | receive res => exact hi.receive ha
  | appear c => exact hi.appear c

theorem of_reachable (h₀ : s₀.Alone) {x : TlsClientSocket γ × PumpLog γ}
    (h : (pumpMachine R s₀ done).Reachable x) : PumpInv R done s₀ x.1 x.2 := by
  refine h.invariant (I := fun x => PumpInv R done s₀ x.1 x.2) ?_ ?_
  · rintro ⟨s, l⟩ ⟨hs, rfl⟩
    obtain rfl : s = s₀.startFlush done := hs
    exact init h₀
  · intro x a _ hi _ ha
    exact hi.next ha

end PumpInv

/-! ### The callbacks

What the callback that `done` holds has been called with.
-/

/-- What `write` reports. -/
def writeOutcome (len : ℕ) : Except TlsError Unit → TlsOutcome
  | .ok () => .written len
  | .error e => .failed e

/-- The callback of a `write` is called when `done` is. -/
def WriteAnswered (len : ℕ) (cb : CallbackId) (s₀ s : TlsClientSocket γ) (h : PumpLog γ) : Prop :=
  s.reads = [] ∧ h.began = 1 ∧
    s.results = s₀.results ++ h.dones.map fun d => (cb, writeOutcome len d.result)

/-- What a `read` reports when its `done` is called; with nothing decrypted, it goes on. -/
def readOutcome (R : Rustls γ) (len : ℕ) (d : DoneCall γ) : Option TlsOutcome :=
  match d.result with
  | .error e => some (.failed e)
  | .ok () =>
      match (R.read d.conn len).1 with
      | .bytes p => some (.data p)
      | .failed e => some (.failed e)
      | .wouldBlock => none

/-- The callback of a `read` is called when the pump has ended, with what the last call of `done`
reports, or the error of a chunk. -/
structure ReadAnswered (R : Rustls γ) (len : ℕ) (cb : CallbackId) (s₀ s : TlsClientSocket γ)
    (h : PumpLog γ) : Prop where
  going : ¬ s.Quiet → s.results = s₀.results ∧ h.dones.filterMap (readOutcome R len) = []
  ended : s.Quiet → ∃ o, s.results = s₀.results ++ [(cb, o)] ∧
    (h.dones.filterMap (readOutcome R len) = [o] ∨
      h.dones.filterMap (readOutcome R len) = [] ∧ ∃ e, o = .failed e)

/-- The transport is disconnected when `done` is called. -/
def DisconnectAnswered (s₀ s : TlsClientSocket γ) (h : PumpLog γ) : Prop :=
  s.reads = [] ∧ s.results = s₀.results ∧ (s.connected = true ↔ h.dones = [])

/-- The callback of a handshake is called when the pump has ended, and with `Ok` only when the last
flush went well and the handshake was over then. -/
structure HandshakeAnswered (R : Rustls γ) (cb : CallbackId) (s₀ s : TlsClientSocket γ)
    (h : PumpLog γ) : Prop where
  going : ¬ s.Quiet → s.results = s₀.results
  ended : s.Quiet → ∃ o, s.results = s₀.results ++ [(cb, o)] ∧ (o = .ready →
    ∃ d ∈ h.dones.getLast?, d.result = .ok () ∧ R.isHandshaking d.conn = false)

section Answers

variable {R : Rustls γ} {s₀ s : TlsClientSocket γ} {h : PumpLog γ} {len : ℕ} {cb : CallbackId}

theorem WriteAnswered.next (hp : PumpInv R (.write len cb) s₀ s h)
    (hi : WriteAnswered len cb s₀ s h) {a : PumpAct γ} (ha : s.PumpEnabled a) :
    WriteAnswered len cb s₀ (s.pumpNext R a) (PumpLog.record R s a h) := by
  obtain ⟨hr, hb, hres⟩ := hi
  cases a with
  | flush =>
      obtain ⟨hf, -, -⟩ := hp.flushing_eq ha
      by_cases he : (R.outgoing s.conn).1 = []
      · rw [TlsClientSocket.pumpNext_flush_done hf he, PumpLog.record_flush_done he]
        refine ⟨hr, hb, ?_⟩
        rw [List.map_append, ← List.append_assoc, ← hres]
        rfl
      · rw [TlsClientSocket.pumpNext_flush_more hf he, PumpLog.record_flush_more he]
        exact ⟨hr, hb, hres⟩
  | accept n =>
      obtain ⟨buf, hw, -, -⟩ := hp.writes_eq (TlsClientSocket.writes_ne_nil ha)
      rw [TlsClientSocket.pumpNext_accept hw, TlsClientSocket.onWritten]
      dsimp only
      split <;> exact ⟨hr, hb, hres⟩
  | fail e =>
      obtain ⟨buf, hw, -, -⟩ := hp.writes_eq ha.2.2
      rw [TlsClientSocket.pumpNext_fail hw]
      refine ⟨hr, hb, ?_⟩
      simp only [PumpLog.record]
      rw [List.map_append, ← List.append_assoc, ← hres]
      rfl
  | receive res => exact absurd hr ha.2.2.1
  | appear c => exact ⟨hr, hb, hres⟩

theorem HandshakeAnswered.of_going (hq : ¬ s.Quiet) (hr : s.results = s₀.results) :
    HandshakeAnswered R cb s₀ s h :=
  ⟨fun _ => hr, fun h => absurd h hq⟩

theorem HandshakeAnswered.of_failed (hq : s.Quiet) {e : TlsError}
    (hr : s.results = s₀.results ++ [(cb, .failed e)]) : HandshakeAnswered R cb s₀ s h :=
  ⟨fun h => absurd hq h, fun _ => ⟨.failed e, hr, nofun⟩⟩

theorem HandshakeAnswered.next (hp : PumpInv R (.handshake cb) s₀ s h)
    (hi : HandshakeAnswered R cb s₀ s h) {a : PumpAct γ} (ha : s.PumpEnabled a) :
    HandshakeAnswered R cb s₀ (s.pumpNext R a) (PumpLog.record R s a h) := by
  cases a with
  | flush =>
      obtain ⟨hf, hw, hr⟩ := hp.flushing_eq ha
      have hres : s.results = s₀.results := hi.going fun hq => by
        rw [hq.flushing] at hf
        cases hf
      by_cases he : (R.outgoing s.conn).1 = []
      · rw [TlsClientSocket.pumpNext_flush_done hf he, PumpLog.record_flush_done he,
          TlsClientSocket.runDone]
        split
        · exact .of_going (TlsClientSocket.not_quiet_feedOne _ _) hres
        · next hh =>
            refine ⟨fun hq => absurd ⟨rfl, hw, hr⟩ hq, fun _ => ⟨.ready, ?_, fun _ =>
              ⟨_, List.getLast?_concat, rfl, Bool.eq_false_iff.mpr hh⟩⟩⟩
            rw [← hres]
            rfl
      · obtain ⟨going, keeps⟩ := TlsClientSocket.goes_flush hf he
        exact .of_going going (keeps.trans hres)
  | accept n =>
      have hne := TlsClientSocket.writes_ne_nil ha
      obtain ⟨buf, hw, -, -⟩ := hp.writes_eq hne
      have hres : s.results = s₀.results := hi.going fun hq => hne hq.writes
      obtain ⟨going, keeps⟩ := TlsClientSocket.goes_accept hw n
      exact .of_going going (keeps.trans hres)
  | fail e =>
      obtain ⟨buf, hw, hf, hr⟩ := hp.writes_eq ha.2.2
      have hres : s.results = s₀.results := hi.going fun hq => ha.2.2 hq.writes
      rw [TlsClientSocket.pumpNext_fail hw]
      refine .of_failed ⟨hf, rfl, hr⟩ (e := .transport e) ?_
      rw [← hres]
      rfl
  | receive res =>
      obtain ⟨fed, hr, hd, hf, hw⟩ := hp.reads_eq ha.2.2.1
      have hres : s.results = s₀.results := hi.going fun hq => ha.2.2.1 hq.reads
      obtain ⟨c, hstep | ⟨e, hstep⟩⟩ := TlsClientSocket.pumpNext_receive (R := R) hr res
      · rw [hstep]
        exact .of_going (TlsClientSocket.not_quiet_startFlush _ _) hres
      · obtain rfl : fed = .handshake cb := Fed.done_injective hd
        rw [hstep]
        refine .of_failed ⟨hf, hw, rfl⟩ (e := e) ?_
        rw [← hres]
        rfl
  | appear c =>
      have quiet := TlsClientSocket.quiet_appear (R := R) (s := s) c
      exact ⟨fun hq => hi.going fun h => hq (quiet.mpr h), fun hq => hi.ended (quiet.mp hq)⟩

theorem ReadAnswered.of_going (hq : ¬ s.Quiet) (hr : s.results = s₀.results)
    (hd : h.dones.filterMap (readOutcome R len) = []) : ReadAnswered R len cb s₀ s h :=
  ⟨fun _ => ⟨hr, hd⟩, fun h => absurd h hq⟩

theorem ReadAnswered.of_ended (hq : s.Quiet) {o : TlsOutcome}
    (hr : s.results = s₀.results ++ [(cb, o)])
    (hd : h.dones.filterMap (readOutcome R len) = [o] ∨
      h.dones.filterMap (readOutcome R len) = [] ∧ ∃ e, o = .failed e) :
    ReadAnswered R len cb s₀ s h :=
  ⟨fun h => absurd hq h, fun _ => ⟨o, hr, hd⟩⟩

/-- A call of `done` after calls that reported nothing. -/
theorem filterMap_done {l : List (DoneCall γ)} (hl : l.filterMap (readOutcome R len) = [])
    (d : DoneCall γ) : (l ++ [d]).filterMap (readOutcome R len) = (readOutcome R len d).toList := by
  rw [List.filterMap_append, hl, List.nil_append]
  cases ho : readOutcome R len d <;> simp [ho]

/-- The flush is done, and the read is tried again. -/
theorem ReadAnswered.pull {c found : γ} {out acc : List UInt8} {n : ℕ} (hq : s.Quiet)
    (hres : s.results = s₀.results) (hl : h.dones.filterMap (readOutcome R len) = []) :
    ReadAnswered R len cb s₀ (TlsClientSocket.pull R { s with conn := c } len cb)
      { h with dones := h.dones ++ [⟨.ok (), found, c, out, acc⟩], steps := n } := by
  have reports := filterMap_done hl ⟨.ok (), found, c, out, acc⟩
  cases hread : R.read c len with
  | mk p c' =>
      cases p with
      | bytes p =>
          simp only [TlsClientSocket.pull, hread]
          refine .of_ended (o := .data p) ⟨hq.flushing, hq.writes, hq.reads⟩ ?_ (.inl ?_)
          · rw [← hres]
            rfl
          · simpa [readOutcome, hread] using reports
      | failed e =>
          simp only [TlsClientSocket.pull, hread]
          refine .of_ended (o := .failed e) ⟨hq.flushing, hq.writes, hq.reads⟩ ?_ (.inl ?_)
          · rw [← hres]
            rfl
          · simpa [readOutcome, hread] using reports
      | wouldBlock =>
          simp only [TlsClientSocket.pull, hread]
          refine .of_going (TlsClientSocket.not_quiet_feedOne _ _) hres ?_
          simpa [readOutcome, hread] using reports

theorem ReadAnswered.next (hp : PumpInv R (.read len cb) s₀ s h)
    (hi : ReadAnswered R len cb s₀ s h) {a : PumpAct γ} (ha : s.PumpEnabled a) :
    ReadAnswered R len cb s₀ (s.pumpNext R a) (PumpLog.record R s a h) := by
  cases a with
  | flush =>
      obtain ⟨hf, hw, hr⟩ := hp.flushing_eq ha
      obtain ⟨hres, hnone⟩ := hi.going fun hq => by
        rw [hq.flushing] at hf
        cases hf
      by_cases he : (R.outgoing s.conn).1 = []
      · rw [TlsClientSocket.pumpNext_flush_done hf he, PumpLog.record_flush_done he]
        exact .pull (s := { s with flushing := none }) ⟨rfl, hw, hr⟩ hres hnone
      · obtain ⟨going, keeps⟩ := TlsClientSocket.goes_flush hf he
        rw [PumpLog.record_flush_more he]
        exact .of_going going (keeps.trans hres) hnone
  | accept n =>
      have hne := TlsClientSocket.writes_ne_nil ha
      obtain ⟨buf, hw, -, -⟩ := hp.writes_eq hne
      obtain ⟨hres, hnone⟩ := hi.going fun hq => hne hq.writes
      obtain ⟨going, keeps⟩ := TlsClientSocket.goes_accept hw n
      exact .of_going going (keeps.trans hres) hnone
  | fail e =>
      obtain ⟨buf, hw, hf, hr⟩ := hp.writes_eq ha.2.2
      obtain ⟨hres, hnone⟩ := hi.going fun hq => ha.2.2 hq.writes
      rw [TlsClientSocket.pumpNext_fail hw]
      refine .of_ended (o := .failed (.transport e)) ⟨hf, rfl, hr⟩ ?_ (.inl ?_)
      · rw [← hres]
        rfl
      · exact filterMap_done hnone _
  | receive res =>
      obtain ⟨fed, hr, hd, hf, hw⟩ := hp.reads_eq ha.2.2.1
      obtain ⟨hres, hnone⟩ := hi.going fun hq => ha.2.2.1 hq.reads
      obtain ⟨c, hstep | ⟨e, hstep⟩⟩ := TlsClientSocket.pumpNext_receive (R := R) hr res
      · rw [hstep]
        exact .of_going (TlsClientSocket.not_quiet_startFlush _ _) hres hnone
      · obtain rfl : fed = .read len cb := Fed.done_injective hd
        rw [hstep]
        refine .of_ended (o := .failed e) ⟨hf, hw, rfl⟩ ?_ (.inr ⟨hnone, e, rfl⟩)
        rw [← hres]
        rfl
  | appear c =>
      have quiet := TlsClientSocket.quiet_appear (R := R) (s := s) c
      exact ⟨fun hq => hi.going fun h => hq (quiet.mpr h), fun hq => hi.ended (quiet.mp hq)⟩

theorem DisconnectAnswered.next (hp : PumpInv R .disconnect s₀ s h)
    (hi : DisconnectAnswered s₀ s h) {a : PumpAct γ} (ha : s.PumpEnabled a) :
    DisconnectAnswered s₀ (s.pumpNext R a) (PumpLog.record R s a h) := by
  obtain ⟨hr, hres, hc⟩ := hi
  cases a with
  | flush =>
      obtain ⟨hf, -, -⟩ := hp.flushing_eq ha
      by_cases he : (R.outgoing s.conn).1 = []
      · rw [TlsClientSocket.pumpNext_flush_done hf he, PumpLog.record_flush_done he]
        exact ⟨rfl, hres, iff_of_false Bool.false_ne_true (List.concat_ne_nil _ _)⟩
      · rw [TlsClientSocket.pumpNext_flush_more hf he, PumpLog.record_flush_more he]
        exact ⟨hr, hres, hc⟩
  | accept n =>
      obtain ⟨buf, hw, -, -⟩ := hp.writes_eq (TlsClientSocket.writes_ne_nil ha)
      rw [TlsClientSocket.pumpNext_accept hw, TlsClientSocket.onWritten]
      dsimp only
      split <;> exact ⟨hr, hres, hc⟩
  | fail e =>
      obtain ⟨buf, hw, -, -⟩ := hp.writes_eq ha.2.2
      rw [TlsClientSocket.pumpNext_fail hw]
      exact ⟨rfl, hres, iff_of_false Bool.false_ne_true (List.concat_ne_nil _ _)⟩
  | receive res => exact absurd hr ha.2.2.1
  | appear c => exact ⟨hr, hres, hc⟩

end Answers

/-! ### Completion -/

/-- A `flush_pending` has been called and its `done` has not. -/
def TlsClientSocket.Flushing (s : TlsClientSocket γ) : Prop := s.flushing.isSome ∨ s.writes ≠ []

instance (s : TlsClientSocket γ) : Decidable s.Flushing := inferInstanceAs (Decidable (_ ∨ _))

/-- What is to be known of a pump in every state of its run. -/
structure Completes (R : Rustls γ) (done : Done) (s₀ s : TlsClientSocket γ) (h : PumpLog γ) :
    Prop where
  /-- every call but the one under way has called its `done`, once -/
  once : h.began = h.dones.length + if s.Flushing then 1 else 0
  /-- the transport has what rustls gave, once and in order -/
  order : s.accepted <+: s₀.accepted ++ h.output
  ok_iff : ∀ d ∈ h.dones, d.result = .ok () ↔ s₀.accepted ++ d.output = d.accepted
  /-- `Ok` comes after a check that found nothing -/
  ok_found : ∀ d ∈ h.dones, d.result = .ok () → R.wantsWrite d.found = true →
    (R.writeTls d.found).1 = []
  /-- after an error nothing is written or will be -/
  error : ∀ d ∈ h.dones, ∀ e, d.result = .error e →
    (∃ errno, e = .transport errno) ∧ s.Quiet ∧ s.accepted = d.accepted
  /-- nothing but rustls and the transport is waited for -/
  goes_on : s.Flushing → s.PumpEnabled .flush ∨ ∃ n, s.PumpEnabled (.accept n)
  /-- and not for ever: every check but the last finds bytes, every answer accepts some -/
  steps : h.steps ≤ 2 * h.output.length + h.dones.length
  write : ∀ len cb, done = .write len cb →
    s.results = s₀.results ++ h.dones.map fun d => (cb, writeOutcome len d.result)
  read : ∀ len cb, done = .read len cb → ReadAnswered R len cb s₀ s h
  disconnect : done = .disconnect → DisconnectAnswered s₀ s h
  handshake : ∀ cb, done = .handshake cb → HandshakeAnswered R cb s₀ s h

section Completion

variable {R : Rustls γ} {s₀ s : TlsClientSocket γ} {h : PumpLog γ} {done : Done}

theorem PumpInv.once (hi : PumpInv R done s₀ s h) :
    h.began = h.dones.length + if s.Flushing then 1 else 0 := by
  cases hi.place with
  | flush hf _ _ _ hb =>
      rw [if_pos (.inl (by rw [hf]; rfl))]
      exact hb.symm
  | write buf _ hw _ _ _ hb =>
      rw [if_pos (.inr (by rw [hw]; exact List.cons_ne_nil _ _))]
      exact hb.symm
  | read _ _ hf hw _ _ hb =>
      rw [if_neg (by simp [TlsClientSocket.Flushing, hf, hw])]
      exact hb.symm
  | ended hq hb =>
      rw [if_neg (by simp [TlsClientSocket.Flushing, hq.flushing, hq.writes])]
      exact hb.symm

theorem PumpInv.order (hi : PumpInv R done s₀ s h) : s.accepted <+: s₀.accepted ++ h.output := by
  cases hi.place with
  | flush _ _ _ _ _ ha | read _ _ _ _ _ _ _ ha => exact ⟨[], by rw [ha, List.append_nil]⟩
  | write buf _ _ _ _ _ _ ha => exact ⟨buf, ha.symm⟩
  | ended _ _ ha =>
      obtain ⟨rest, ha⟩ := ha
      exact ⟨rest, ha.symm⟩

theorem PumpInv.goes_on (hi : PumpInv R done s₀ s h) (hs : s.Flushing) :
    s.PumpEnabled .flush ∨ ∃ n, s.PumpEnabled (.accept n) := by
  cases hi.place with
  | flush hf => exact .inl (by rw [TlsClientSocket.PumpEnabled, hf]; rfl)
  | write buf hf hw hne _ hc =>
      refine .inr ⟨buf.length, hf, hc, ⟨buf, done⟩, ?_, List.length_pos_iff.mpr hne, Nat.le_refl _⟩
      rw [hw]
      rfl
  | read _ _ hf hw => simp [TlsClientSocket.Flushing, hf, hw] at hs
  | ended hq => simp [TlsClientSocket.Flushing, hq.flushing, hq.writes] at hs

theorem DoneCall.Lawful.ok_iff {d : DoneCall γ} (hd : d.Lawful R s₀ s) :
    d.result = .ok () ↔ s₀.accepted ++ d.output = d.accepted := by
  refine ⟨fun h => (hd.ok h).2, fun ha => ?_⟩
  cases hr : d.result with
  | ok u => rfl
  | error e =>
      -- what was left when the write failed is not empty
      obtain ⟨-, ⟨rest, hne, hrest⟩, -⟩ := hd.error e hr
      rw [ha] at hrest
      exact absurd (List.self_eq_append_right.mp hrest) hne

theorem write_answered (h₀ : s₀.Alone) {len : ℕ} {cb : CallbackId}
    {x : TlsClientSocket γ × PumpLog γ}
    (h : (pumpMachine R s₀ (.write len cb)).Reachable x) : WriteAnswered len cb s₀ x.1 x.2 := by
  refine h.invariant (I := fun x => WriteAnswered len cb s₀ x.1 x.2) ?_ ?_
  · rintro ⟨s, l⟩ ⟨hs, rfl⟩
    obtain rfl : s = s₀.startFlush (.write len cb) := hs
    exact ⟨h₀.reads, rfl, (List.append_nil _).symm⟩
  · intro x a hx hi _ ha
    exact hi.next (.of_reachable h₀ hx) ha

theorem read_answered (h₀ : s₀.Alone) {len : ℕ} {cb : CallbackId}
    {x : TlsClientSocket γ × PumpLog γ}
    (h : (pumpMachine R s₀ (.read len cb)).Reachable x) : ReadAnswered R len cb s₀ x.1 x.2 := by
  refine h.invariant (I := fun x => ReadAnswered R len cb s₀ x.1 x.2) ?_ ?_
  · rintro ⟨s, l⟩ ⟨hs, rfl⟩
    obtain rfl : s = s₀.startFlush (.read len cb) := hs
    exact .of_going (fun hq => by cases hq.flushing) rfl rfl
  · intro x a hx hi _ ha
    exact hi.next (.of_reachable h₀ hx) ha

theorem disconnect_answered (h₀ : s₀.Alone) {x : TlsClientSocket γ × PumpLog γ}
    (h : (pumpMachine R s₀ .disconnect).Reachable x) : DisconnectAnswered s₀ x.1 x.2 := by
  refine h.invariant (I := fun x => DisconnectAnswered s₀ x.1 x.2) ?_ ?_
  · rintro ⟨s, l⟩ ⟨hs, rfl⟩
    obtain rfl : s = s₀.startFlush .disconnect := hs
    exact ⟨h₀.reads, rfl, iff_of_true h₀.connected rfl⟩
  · intro x a hx hi _ ha
    exact hi.next (.of_reachable h₀ hx) ha

theorem handshake_answered (h₀ : s₀.Alone) {cb : CallbackId} {x : TlsClientSocket γ × PumpLog γ}
    (h : (pumpMachine R s₀ (.handshake cb)).Reachable x) :
    HandshakeAnswered R cb s₀ x.1 x.2 := by
  refine h.invariant (I := fun x => HandshakeAnswered R cb s₀ x.1 x.2) ?_ ?_
  · rintro ⟨s, l⟩ ⟨hs, rfl⟩
    obtain rfl : s = s₀.startFlush (.handshake cb) := hs
    exact .of_going (fun hq => by cases hq.flushing) rfl
  · intro x a hx hi _ ha
    exact hi.next (.of_reachable h₀ hx) ha

/-- **Completion.**  Of a pump that is alone on its socket. -/
theorem pumps_complete (h₀ : s₀.Alone) {x : TlsClientSocket γ × PumpLog γ}
    (h : (pumpMachine R s₀ done).Reachable x) : Completes R done s₀ x.1 x.2 := by
  have hi := PumpInv.of_reachable h₀ h
  refine
    { once := hi.once
      order := hi.order
      ok_iff := fun d hd => (hi.lawful d hd).ok_iff
      ok_found := fun d hd hr hw => ?_
      error := fun d hd e hr => ?_
      goes_on := hi.goes_on
      steps := Nat.le_trans (Nat.le_add_right ..) hi.steps
      write := fun len cb hd => ?_
      read := fun len cb hd => ?_
      disconnect := fun hd => ?_
      handshake := fun cb hd => ?_ }
  · have out := ((hi.lawful d hd).ok hr).1
    rwa [Rustls.outgoing, if_pos hw] at out
  · obtain ⟨he, -, hq, ha⟩ := (hi.lawful d hd).error e hr
    exact ⟨he, hq, ha⟩
  · subst hd
    exact (write_answered h₀ h).2.2
  · subst hd
    exact read_answered h₀ h
  · subst hd
    exact disconnect_answered h₀ h
  · subst hd
    exact handshake_answered h₀ h

end Completion

/-- A connection that has a record to send and is handshaking until it has got something. -/
def greeting : Rustls Session :=
  { Session.rustls 64 64 [] with isHandshaking := fun c => c.fed = [] }

/-- A record comes up while the first one is sent; the handshake takes one answer of the peer. -/
def greetingRun : List (PumpAct Session) :=
  [.flush, .accept 2, .appear { Session.new with sendable := [9] }, .accept 1, .flush, .accept 1,
    .flush, .receive (.ok [22]), .flush]

/-- The handshake of `greetingRun` completes. -/
theorem greetingRun_completes :
    let s₀ := TlsClientSocket.new { Session.new with sendable := [1, 2, 3] }
    let x := (pumpMachine greeting s₀ (.handshake 0)).runList (s₀.startFlush (.handshake 0), .start)
      greetingRun
    Completes greeting (.handshake 0) s₀ x.1 x.2 ∧ x.2.began = 2 ∧
      x.1.accepted = [1, 2, 3, 9] ∧ x.1.results = [(0, .ready)] := by
  intro s₀ x
  have follows : (pumpMachine greeting s₀ (.handshake 0)).Follows (fun _ _ => True)
      (s₀.startFlush (.handshake 0), .start) greetingRun := by decide +kernel
  refine ⟨pumps_complete ⟨⟨rfl, rfl, rfl⟩, rfl⟩ (.of_follows ⟨rfl, rfl⟩ follows), ?_⟩
  decide +kernel

end RustNet
