import RustBase.Net.SocketPosix

/-!
# Net — TlsClientSocket

A `TlsClientSocket` on the IO thread, over a transport `StreamSocket`.

* The connection is rustls', which is not part of the repository: `Rustls` are the functions of a
  `ClientConnection` that are called, over a type of connections.
* `flush_pending`, `write_all` and `feed_one` take a callback for when they are done.  The closures
  that are passed are `Done` and `Fed`.
* The transport has a list of the writes and a list of the reads it was asked for.  It answers any
  of them at any time; an answer at once is one that comes next.  All calls are in tail position, so
  a `flush_pending` that is called is the next step (`flushing`).
* A transport that was told to disconnect has no more operations and accepts no more bytes.
-/

namespace RustNet
open Support

/-! ### rustls -/

/-- An `io::Error`, by where it comes from. -/
inductive TlsError where
  | unexpectedEof
  | writeZero
  | rustls (code : ℕ)
  | transport (errno : Errno)
  deriving DecidableEq

/-- The result of `reader().read`. -/
inductive Pulled where
  | bytes (p : List UInt8)
  | wouldBlock
  | failed (e : TlsError)
  deriving DecidableEq

structure Rustls (γ : Type) where
  wantsWrite : γ → Bool
  /-- into a `Vec` -/
  writeTls : γ → List UInt8 × γ
  isHandshaking : γ → Bool
  /-- how much of the slice was taken -/
  readTls : γ → List UInt8 → Except TlsError ℕ × γ
  processNewPackets : γ → Except TlsError Unit × γ
  /-- `reader().read` into a buffer of this length -/
  read : γ → ℕ → Pulled × γ
  /-- `writer().write`, which does not fail -/
  write : γ → List UInt8 → ℕ × γ
  sendCloseNotify : γ → γ

namespace Rustls

variable {γ : Type} (R : Rustls γ)

/-- The loop of `write_all`; the fuel is the length of the buffer. -/
def writeAllLoop : ℕ → γ → List UInt8 → Except TlsError Unit × γ
  | _, c, [] => (.ok (), c)
  | 0, c, _ => (.ok (), c)
  | fuel + 1, c, buf =>
      match R.write c buf with
      | (0, c) => (.error .writeZero, c)
      | (n + 1, c) => writeAllLoop fuel c (buf.drop (n + 1))

/-- `writer().write_all`. -/
def writeAll (c : γ) (buf : List UInt8) : Except TlsError Unit × γ :=
  R.writeAllLoop buf.length c buf

/-- The loop of `feed_one`; the fuel is the length of the slice. -/
def feedLoop : ℕ → γ → List UInt8 → Except TlsError Unit × γ
  | _, c, [] => (.ok (), c)
  | 0, c, _ => (.ok (), c)
  | fuel + 1, c, slice =>
      match R.readTls c slice with
      | (.ok 0, c) => (.ok (), c)
      | (.error e, c) => (.error e, c)
      | (.ok (n + 1), c) =>
          match R.processNewPackets c with
          | (.error e, c) => (.error e, c)
          | (.ok (), c) => feedLoop fuel c (slice.drop (n + 1))

/-- What `feed_one` does with a chunk. -/
def feed (c : γ) (data : List UInt8) : Except TlsError Unit × γ := R.feedLoop data.length c data

/-- What `flush_pending` gets to send. -/
def outgoing (c : γ) : List UInt8 × γ := if R.wantsWrite c then R.writeTls c else ([], c)

end Rustls

/-! ### The socket -/

def readChunk : ℕ := 16 * 1024

/-- What follows when a flush is done. -/
inductive Done where
  | handshake (cb : CallbackId)
  | read (len : ℕ) (cb : CallbackId)
  | write (len : ℕ) (cb : CallbackId)
  | disconnect
  deriving DecidableEq

/-- What follows when a chunk was fed. -/
inductive Fed where
  | handshake (cb : CallbackId)
  | read (len : ℕ) (cb : CallbackId)
  deriving DecidableEq

/-- What a callback is invoked with. -/
inductive TlsOutcome where
  | ready
  | data (bytes : List UInt8)
  | written (n : ℕ)
  | failed (e : TlsError)
  deriving DecidableEq

/-- A write the transport was asked for by `write_all`. -/
structure TransportWrite where
  buf : List UInt8
  done : Done
  deriving DecidableEq

structure TlsClientSocket (γ : Type) where
  conn : γ
  /-- `flush_pending` has been called -/
  flushing : Option Done
  writes : List TransportWrite
  /-- reads of `READ_CHUNK` bytes that the transport was asked for -/
  reads : List Fed
  /-- the bytes the transport has accepted -/
  accepted : List UInt8
  connected : Bool
  nextCallback : CallbackId
  results : List (CallbackId × TlsOutcome)
  deriving DecidableEq

namespace TlsClientSocket

variable {γ : Type} (R : Rustls γ)

def new (c : γ) : TlsClientSocket γ where
  conn := c
  flushing := none
  writes := []
  reads := []
  accepted := []
  connected := true
  nextCallback := 0
  results := []

def complete (s : TlsClientSocket γ) (cb : CallbackId) (o : TlsOutcome) : TlsClientSocket γ :=
  { s with results := s.results ++ [(cb, o)] }

def takeCallback (s : TlsClientSocket γ) : TlsClientSocket γ :=
  { s with nextCallback := s.nextCallback + 1 }

/-- `flush_pending` is called. -/
def startFlush (s : TlsClientSocket γ) (done : Done) : TlsClientSocket γ :=
  { s with flushing := some done }

/-- `write_all`. -/
def writeAll (s : TlsClientSocket γ) (buf : List UInt8) (done : Done) : TlsClientSocket γ :=
  { s with writes := s.writes ++ [⟨buf, done⟩] }

/-- `feed_one`, up to the answer of the transport. -/
def feedOne (s : TlsClientSocket γ) (fed : Fed) : TlsClientSocket γ :=
  { s with reads := s.reads ++ [fed] }

/-- `transport.disconnect`. -/
def disconnectTransport (s : TlsClientSocket γ) : TlsClientSocket γ :=
  { s with writes := [], reads := [], connected := false }

/-- The body of `read`. -/
def pull (s : TlsClientSocket γ) (len : ℕ) (cb : CallbackId) : TlsClientSocket γ :=
  match R.read s.conn len with
  | (.bytes p, c) => complete { s with conn := c } cb (.data p)
  | (.failed e, c) => complete { s with conn := c } cb (.failed e)
  | (.wouldBlock, c) => feedOne { s with conn := c } (.read len cb)

/-- The closures passed to `flush_pending`. -/
def runDone (s : TlsClientSocket γ) (done : Done) (res : Except TlsError Unit) :
    TlsClientSocket γ :=
  match done, res with
  | .handshake cb, .error e | .read _ cb, .error e | .write _ cb, .error e =>
      s.complete cb (.failed e)
  | .handshake cb, .ok () =>
      if R.isHandshaking s.conn then s.feedOne (.handshake cb) else s.complete cb .ready
  | .read len cb, .ok () => s.pull R len cb
  | .write len cb, .ok () => s.complete cb (.written len)
  | .disconnect, _ => s.disconnectTransport

/-- The closures passed to `feed_one`. -/
def runFed (s : TlsClientSocket γ) (fed : Fed) (res : Except TlsError Unit) : TlsClientSocket γ :=
  match fed, res with
  | .handshake cb, .ok () => s.startFlush (.handshake cb)
  | .read len cb, .ok () => s.startFlush (.read len cb)
  | .handshake cb, .error e | .read _ cb, .error e => s.complete cb (.failed e)

def flushPending (s : TlsClientSocket γ) (done : Done) : TlsClientSocket γ :=
  let out := R.outgoing s.conn
  let s : TlsClientSocket γ := { s with conn := out.2, flushing := none }
  if out.1.isEmpty then s.runDone R done (.ok ()) else s.writeAll out.1 done

/-- The callback of `write_all`. -/
def onWritten (s : TlsClientSocket γ) (w : TransportWrite) (res : Except Errno ℕ) :
    TlsClientSocket γ :=
  match res with
  | .ok n => if w.buf.length ≤ n then s.startFlush w.done else s.writeAll (w.buf.drop n) w.done
  | .error e => s.runDone R w.done (.error (.transport e))

/-- The callback of `feed_one`. -/
def onRead (s : TlsClientSocket γ) (fed : Fed) (res : Except Errno (List UInt8)) :
    TlsClientSocket γ :=
  match res with
  | .ok [] => s.runFed fed (.error .unexpectedEof)
  | .ok data =>
      let r := R.feed s.conn data
      runFed { s with conn := r.2 } fed r.1
  | .error e => s.runFed fed (.error (.transport e))

/-- `handshake`; `drive_handshake` begins with a flush. -/
def handshake (s : TlsClientSocket γ) : TlsClientSocket γ :=
  s.takeCallback.startFlush (.handshake s.nextCallback)

def read (s : TlsClientSocket γ) (len : ℕ) : TlsClientSocket γ :=
  s.takeCallback.pull R len s.nextCallback

def write (s : TlsClientSocket γ) (buf : List UInt8) : TlsClientSocket γ :=
  match R.writeAll s.conn buf with
  | (.error e, c) => complete { s.takeCallback with conn := c } s.nextCallback (.failed e)
  | (.ok (), c) =>
      startFlush { s.takeCallback with conn := c } (.write buf.length s.nextCallback)

def disconnect (s : TlsClientSocket γ) : TlsClientSocket γ :=
  startFlush { s with conn := R.sendCloseNotify s.conn } .disconnect

end TlsClientSocket

/-! ### The machine -/

inductive TlsAct where
  | handshake
  | read (len : ℕ)
  | write (buf : List UInt8)
  | disconnect
  | flush
  /-- the transport accepts `n` bytes of its write number `i` -/
  | accept (i n : ℕ)
  /-- the transport answers its read number `i` -/
  | receive (i : ℕ) (res : Except Errno (List UInt8))

/-- At most `READ_CHUNK` bytes are read. -/
def ChunkOk : Except Errno (List UInt8) → Prop
  | .ok data => data.length ≤ readChunk
  | .error _ => True

instance : ∀ res, Decidable (ChunkOk res)
  | .ok _ => inferInstanceAs (Decidable (_ ≤ _))
  | .error _ => inferInstanceAs (Decidable True)

namespace TlsClientSocket

variable {γ : Type} (R : Rustls γ)

/-- Of a write the transport accepts a prefix that is not empty. -/
def Enabled (s : TlsClientSocket γ) : TlsAct → Prop
  | .handshake | .read _ | .write _ | .disconnect => s.flushing = none
  | .flush => s.flushing.isSome
  | .accept i n => s.flushing = none ∧ s.connected = true ∧
      ∃ w ∈ s.writes[i]?, 0 < n ∧ n ≤ w.buf.length
  | .receive i res => s.flushing = none ∧ s.connected = true ∧ i < s.reads.length ∧ ChunkOk res

instance (s : TlsClientSocket γ) : ∀ a, Decidable (s.Enabled a)
  | .handshake | .read _ | .write _ | .disconnect | .flush => inferInstanceAs (Decidable (_ = _))
  | .accept _ _ => inferInstanceAs (Decidable (_ ∧ _ ∧ ∃ w ∈ _, _ ∧ _))
  | .receive _ _ => inferInstanceAs (Decidable (_ ∧ _ ∧ _ ∧ _))

/-- The transport accepts `n` bytes of its write number `i`. -/
def acceptWrite (s : TlsClientSocket γ) (i n : ℕ) : TlsClientSocket γ :=
  match s.writes[i]? with
  | none => s
  | some w =>
      onWritten R { s with
        writes := s.writes.eraseIdx i
        accepted := s.accepted ++ w.buf.take n } w (.ok n)

/-- The transport answers its read number `i`. -/
def answerRead (s : TlsClientSocket γ) (i : ℕ) (res : Except Errno (List UInt8)) :
    TlsClientSocket γ :=
  match s.reads[i]? with
  | none => s
  | some fed => onRead R { s with reads := s.reads.eraseIdx i } fed res

def next (s : TlsClientSocket γ) : TlsAct → TlsClientSocket γ
  | .handshake => s.handshake
  | .read len => s.read R len
  | .write buf => s.write R buf
  | .disconnect => s.disconnect R
  | .flush =>
      match s.flushing with
      | none => s
      | some done => s.flushPending R done
  | .accept i n => s.acceptWrite R i n
  | .receive i res => s.answerRead R i res

end TlsClientSocket

/-- One socket over a connected transport, with a new connection. -/
def tlsMachine {γ : Type} (R : Rustls γ) (c : γ) : Machine (TlsClientSocket γ) TlsAct where
  Init s := s = .new c
  Enabled := TlsClientSocket.Enabled
  next := TlsClientSocket.next R

instance {γ : Type} (R : Rustls γ) (c : γ) : ∀ s a, Decidable ((tlsMachine R c).Enabled s a) :=
  fun s a => inferInstanceAs (Decidable (s.Enabled a))

end RustNet
