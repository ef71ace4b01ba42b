import RustBase.Net.TlsClientSocket

/-!
# Net — a TLS session

The records of a stream, what has been decrypted when some of its bytes have been received, and a
connection that sends and receives records.

* It sends with a buffer of `limit` bytes of ciphertext: `writer().write` makes one record of what
  there is room for, and `write_tls` gives all that is in the buffer.
* It receives the records of one stream: a call of `read_tls` takes up to `size` bytes, which are
  4096 in rustls (`readSize`).  More than `limit` bytes of plaintext that nobody has read make it
  fail.

What is encrypted and decrypted is not modelled: a record is its bytes on the wire and its
plaintext.
-/

namespace RustNet
open Support

/-! ### Records -/

structure Record where
  wire : List UInt8
  plain : List UInt8
  deriving DecidableEq

/-- The bytes of a stream. -/
def wireOf (recs : List Record) : List UInt8 := (recs.map Record.wire).flatten

/-- The plaintext of a stream. -/
def plainOf (recs : List Record) : List UInt8 := (recs.map Record.plain).flatten

/-- The plaintext of the records that the first `n` bytes of the stream complete. -/
def decrypted : List Record → ℕ → List UInt8
  | [], _ => []
  | r :: rs, n =>
      if r.wire.length ≤ n then r.plain ++ decrypted rs (n - r.wire.length) else []

theorem decrypted_mono (recs : List Record) {n m : ℕ} (h : n ≤ m) :
    decrypted recs n <+: decrypted recs m := by
  induction recs generalizing n m with
  | nil => exact List.prefix_rfl
  | cons r rs ih =>
      simp only [decrypted]
      by_cases hn : r.wire.length ≤ n
      · rw [if_pos hn, if_pos (Nat.le_trans hn h)]
        exact (List.prefix_append_right_inj _).mpr (ih (by omega))
      · rw [if_neg hn]
        exact List.nil_prefix

theorem decrypted_all (recs : List Record) :
    decrypted recs (wireOf recs).length = plainOf recs := by
  induction recs with
  | nil => rfl
  | cons r rs ih =>
      have hl : (wireOf (r :: rs)).length = r.wire.length + (wireOf rs).length := by
        simp [wireOf]
      rw [hl, decrypted, if_pos (Nat.le_add_right ..), Nat.add_sub_cancel_left, ih]
      rfl

/-! ### The connection -/

structure Session where
  /-- the plaintext given to `writer()` that was accepted -/
  queued : List UInt8
  /-- the ciphertext in the send buffer -/
  sendable : List UInt8
  /-- the ciphertext that `write_tls` has taken -/
  sent : List UInt8
  /-- the bytes that `read_tls` has taken -/
  fed : List UInt8
  /-- the plaintext that `reader()` has given out -/
  got : List UInt8
  /-- the plaintext decrypted that was not given out -/
  unread : List UInt8
  /-- `close_notify` has been received -/
  closed : Bool
  deriving DecidableEq

namespace Session

def new : Session where
  queued := []
  sendable := []
  sent := []
  fed := []
  got := []
  unread := []
  closed := false

/-- A record with application data; of its contents, only the length shows. -/
def sealed (buf : List UInt8) : List UInt8 :=
  [23, 3, 3, UInt8.ofNat (buf.length / 256), UInt8.ofNat buf.length] ++ buf

def write (limit : ℕ) (c : Session) (buf : List UInt8) : ℕ × Session :=
  match min buf.length (limit - c.sendable.length) with
  | 0 => (0, c)
  | n + 1 =>
      (n + 1, { c with
        queued := c.queued ++ buf.take (n + 1)
        sendable := c.sendable ++ sealed (buf.take (n + 1)) })

def readTls (size limit : ℕ) (c : Session) (slice : List UInt8) : Except TlsError ℕ × Session :=
  if limit < c.unread.length then (.error (.rustls 0), c)
  else (.ok (min size slice.length), { c with fed := c.fed ++ slice.take size })

def processNewPackets (recs : List Record) (c : Session) : Except TlsError Unit × Session :=
  (.ok (), { c with
    unread := (decrypted recs c.fed.length).drop c.got.length
    closed := c.fed.length = (wireOf recs).length })

def read (c : Session) (len : ℕ) : Pulled × Session :=
  match c.unread with
  | [] => (if c.closed then .bytes [] else .wouldBlock, c)
  | _ :: _ =>
      (.bytes (c.unread.take len),
        { c with got := c.got ++ c.unread.take len, unread := c.unread.drop len })

/-- A connection with these limits on what it buffers, for a peer that sends `recs`; its `read_tls`
takes up to `size` bytes. -/
def upTo (size sendLimit receiveLimit : ℕ) (recs : List Record) : Rustls Session where
  wantsWrite c := !c.sendable.isEmpty
  writeTls c := (c.sendable, { c with sendable := [], sent := c.sent ++ c.sendable })
  isHandshaking _ := false
  readTls := readTls size receiveLimit
  processNewPackets := processNewPackets recs
  read := read
  write := write sendLimit
  sendCloseNotify c := { c with sendable := c.sendable ++ [21, 3, 3, 0, 2, 1, 0] }

def readSize : ℕ := 4096

abbrev rustls : ℕ → ℕ → List Record → Rustls Session := upTo readSize

end Session

end RustNet
