import RustBase.Net.TlsWrite

/-!
# Net — a TLS stream is read to its end

A peer sends a stream of records that ends with `close_notify`, and the transport delivers it in
chunks.  Repeated reads should give its plaintext, and then the end of the stream.

`feed_one` feeds a whole chunk before any of the plaintext is read, while `read_tls` fails when more
than a fixed limit of it is unread.  What a chunk decrypts is not bounded by its length: it may
complete a record most of which came with the chunks before.  If the records that are complete when
`read_tls` is called for the last time have more plaintext than the limit, then that call fails, and
what is left of the chunk is lost.

`reads_deliver_iff` says that the reads give everything if and only if no chunk does that (`Fits`),
for every rustls whose `read_tls` takes up to a fixed number of bytes, and for all those together
whose `read_tls` takes any non-empty prefix, where the last call may be for the last byte.
-/

namespace RustNet
open Support

variable {γ : Type}

/-! ### What is assumed of rustls -/

/-- The receiving side of a connection: the bytes `fed` to it, the plaintext that was `got` from it
and that is `unread`, and whether it has received `close_notify`. -/
@[ext] structure View where
  fed : List UInt8
  got : List UInt8
  unread : List UInt8
  closed : Bool

namespace View

def new : View := ⟨[], [], [], false⟩

/-- After the packets are processed. -/
def process (recs : List Record) (v : View) : View :=
  { v with
    unread := (decrypted recs v.fed.length).drop v.got.length
    closed := v.fed.length = (wireOf recs).length }

end View

/-- For a peer that sends `recs`, the last of which is `close_notify`. -/
structure Receives (R : Rustls γ) (recs : List Record) (limit : ℕ) (view : γ → View)
    (backlog : γ → ℕ) : Prop extends Flushes R backlog where
  readTls_full : ∀ c slice, limit < (view c).unread.length → ∃ e, (R.readTls c slice).1 = .error e
  readTls : ∀ c slice, (view c).unread.length ≤ limit → slice ≠ [] →
    (view c).fed ++ slice <+: wireOf recs →
    ∃ n c', R.readTls c slice = (.ok (n + 1), c') ∧ n + 1 ≤ slice.length ∧
      view c' = { view c with fed := (view c).fed ++ slice.take (n + 1) }
  processNewPackets : ∀ c, (view c).fed <+: wireOf recs →
    ∃ c', R.processNewPackets c = (.ok (), c') ∧ view c' = (view c).process recs
  read_some : ∀ c len, 0 < len → (view c).unread ≠ [] →
    ∃ p c', R.read c len = (.bytes p, c') ∧ p ≠ [] ∧ p.length ≤ len ∧ p <+: (view c).unread ∧
      view c' = { view c with
        got := (view c).got ++ p
        unread := (view c).unread.drop p.length }
  read_none : ∀ c len, (view c).unread = [] →
    ∃ c', R.read c len = (if (view c).closed then .bytes [] else .wouldBlock, c') ∧
      view c' = view c
  writeTls_view : ∀ c, view (R.writeTls c).2 = view c

/-- `read_tls` takes a multiple of `size` bytes, or all there are. -/
def TakesBy (R : Rustls γ) (size : ℕ) : Prop :=
  ∀ c slice n c', R.readTls c slice = (.ok n, c') → size ∣ n ∨ n = slice.length

/-- `read_tls` takes `size` bytes, or all there are when those are fewer. -/
def TakesUpTo (R : Rustls γ) (size : ℕ) : Prop :=
  ∀ c slice n c', R.readTls c slice = (.ok n, c') → n = min size slice.length

theorem takesBy_one (R : Rustls γ) : TakesBy R 1 := fun _ _ n _ _ => .inl (Nat.one_dvd n)

theorem TakesUpTo.takesBy {R : Rustls γ} {size : ℕ} (h : TakesUpTo R size) : TakesBy R size := by
  intro c slice n c' hr
  rw [h c slice n c' hr]
  rcases Nat.le_total size slice.length with hle | hle
  · exact .inl ((Nat.min_eq_left hle).symm ▸ Nat.dvd_refl size)
  · exact .inr (Nat.min_eq_right hle)

/-! ### Streams and chunks -/

/-- Records that end with `close_notify`, which has no plaintext. -/
def EndsWithCloseNotify (recs : List Record) : Prop :=
  (∀ r ∈ recs, r.wire ≠ []) ∧ ∃ r ∈ recs.getLast?, r.plain = []

/-- The transport cuts the stream into chunks. -/
structure Cuts (chunks : List (List UInt8)) (recs : List Record) : Prop where
  ne : ∀ ch ∈ chunks, ch ≠ []
  le : ∀ ch ∈ chunks, ch.length ≤ readChunk
  flatten : chunks.flatten = wireOf recs

/-- How much of a slice is taken when `read_tls` is called for the last time. -/
def lastCall (size len : ℕ) : ℕ := (len - 1) / size * size

/-- After a multiple of `size` bytes the last call is where it was. -/
theorem lastCall_sub {size len n : ℕ} (hd : size ∣ n) (hn : n < len) :
    n + lastCall size (len - n) = lastCall size len := by
  obtain ⟨q, rfl⟩ := hd
  rcases Nat.eq_zero_or_pos size with rfl | hs
  · simp [lastCall]
  · have hle : size * q ≤ len - 1 := by omega
    have hq : q ≤ (len - 1) / size := (Nat.le_div_iff_mul_le hs).mpr (by rwa [Nat.mul_comm])
    rw [lastCall, lastCall, Nat.sub_right_comm, Nat.sub_mul_div, Nat.sub_mul, Nat.mul_comm size q]
    exact Nat.add_sub_of_le (Nat.mul_le_mul_right size hq)

/-- A slice of no more than `size` bytes is taken by one call. -/
theorem lastCall_of_le {size len : ℕ} (hs : 0 < size) (h : len ≤ size) : lastCall size len = 0 := by
  rw [lastCall, Nat.div_eq_of_lt (by omega), Nat.zero_mul]

/-- Of a chunk that follows the first `n` bytes, what is taken before the last call of `read_tls`
completes records with at most `limit` bytes of plaintext. -/
def FitsChunk (size limit : ℕ) (recs : List Record) (n : ℕ) (ch : List UInt8) : Prop :=
  (decrypted recs (n + lastCall size ch.length)).length ≤ (decrypted recs n).length + limit

instance (size limit : ℕ) (recs : List Record) (n : ℕ) (ch : List UInt8) :
    Decidable (FitsChunk size limit recs n ch) := inferInstanceAs (Decidable (_ ≤ _))

/-- Every chunk does, where the first one follows the first `n` bytes. -/
def Fits (size limit : ℕ) (recs : List Record) : ℕ → List (List UInt8) → Prop
  | _, [] => True
  | n, ch :: chunks => FitsChunk size limit recs n ch ∧ Fits size limit recs (n + ch.length) chunks

/-! ### A chunk -/

section Feed

variable {R : Rustls γ} {recs : List Record} {size limit : ℕ} {view : γ → View} {backlog : γ → ℕ}
  (h : Receives R recs limit view backlog)
include h

/-- A call of `read_tls` takes some of the slice, and the packets are processed. -/
theorem Receives.feedStep (fuel : ℕ) {c : γ} {slice : List UInt8} (hne : slice ≠ [])
    (hu : (view c).unread.length ≤ limit) (hp : (view c).fed ++ slice <+: wireOf recs) :
    ∃ n c₁ c₂, R.readTls c slice = (.ok (n + 1), c₁) ∧ n + 1 ≤ slice.length ∧
      R.feedLoop (fuel + 1) c slice = R.feedLoop fuel c₂ (slice.drop (n + 1)) ∧
      view c₂ = ({ view c with fed := (view c).fed ++ slice.take (n + 1) } : View).process recs := by
  obtain ⟨b, bs, rfl⟩ := List.exists_cons_of_ne_nil hne
  obtain ⟨n, c₁, hr, hn, hv₁⟩ := h.readTls c (b :: bs) hu hne hp
  have hfed₁ : (view c₁).fed = (view c).fed ++ (b :: bs).take (n + 1) := congrArg View.fed hv₁
  have hsplit : (view c₁).fed ++ (b :: bs).drop (n + 1) = (view c).fed ++ (b :: bs) := by
    rw [hfed₁, List.append_assoc, List.take_append_drop]
  obtain ⟨c₂, hq, hv₂⟩ := h.processNewPackets c₁
    ((List.prefix_append _ ((b :: bs).drop (n + 1))).trans (hsplit ▸ hp))
  refine ⟨n, c₁, c₂, hr, hn, ?_, by rw [hv₂, hv₁]⟩
  simp only [Rustls.feedLoop, hr, hq]

omit h in
/-- The plaintext that was decrypted and not read. -/
theorem View.unread_length {v : View} (hv : v.process recs = v) :
    v.unread.length = (decrypted recs v.fed.length).length - v.got.length := by
  rw [← congrArg View.unread hv, View.process, List.length_drop]

/-- The loop takes all of a slice, as long as what was decrypted before the last call fits. -/
theorem Receives.feedLoop (ht : TakesBy R size) (fuel : ℕ) (c : γ) (slice : List UInt8)
    (hf : slice.length ≤ fuel) (hp : (view c).fed ++ slice <+: wireOf recs)
    (hv : (view c).process recs = view c)
    (hfit : slice ≠ [] →
      (decrypted recs ((view c).fed.length + lastCall size slice.length)).length ≤
        (view c).got.length + limit) :
    ∃ c', R.feedLoop fuel c slice = (.ok (), c') ∧
      view c' = ({ view c with fed := (view c).fed ++ slice } : View).process recs := by
  induction fuel generalizing c slice with
  | zero =>
      obtain rfl : slice = [] := List.eq_nil_of_length_eq_zero (Nat.le_zero.mp hf)
      exact ⟨c, rfl, by rw [List.append_nil]; exact hv.symm⟩
  | succ fuel ih =>
      by_cases hne : slice = []
      · subst hne
        exact ⟨c, rfl, by rw [List.append_nil]; exact hv.symm⟩
      · have hunread : (view c).unread.length ≤ limit := by
          have hmono := (decrypted_mono recs (n := (view c).fed.length)
            (m := (view c).fed.length + lastCall size slice.length) (Nat.le_add_right ..)).length_le
          have hfit := hfit hne
          rw [View.unread_length hv]
          omega
        obtain ⟨n, c₁, c₂, hr, hn, hstep, hv₂⟩ := h.feedStep fuel hne hunread hp
        have hfed₂ : (view c₂).fed = (view c).fed ++ slice.take (n + 1) := by rw [hv₂]; rfl
        have hgot₂ : (view c₂).got = (view c).got := by rw [hv₂]; rfl
        have hsplit : (view c₂).fed ++ slice.drop (n + 1) = (view c).fed ++ slice := by
          rw [hfed₂, List.append_assoc, List.take_append_drop]
        obtain ⟨c', hc', hv'⟩ := ih c₂ (slice.drop (n + 1))
          (by rw [List.length_drop]; omega)
          (by rw [hsplit]; exact hp)
          (by rw [hv₂]; rfl)
          (fun hd => by
            have hlt : n + 1 < slice.length := by
              by_contra hle
              exact hd (List.drop_eq_nil_of_le (Nat.le_of_not_lt hle))
            -- something is left, so whole blocks were taken
            have hdvd : size ∣ n + 1 := (ht c slice _ c₁ hr).resolve_right (Nat.ne_of_lt hlt)
            rw [hfed₂, hgot₂, List.length_append, List.length_take, List.length_drop,
              Nat.min_eq_left hn, Nat.add_assoc, lastCall_sub hdvd hlt]
            exact hfit hne)
        refine ⟨c', hstep.trans hc', ?_⟩
        rw [hv', hsplit]
        simp only [View.process, hgot₂]

theorem Receives.feed (ht : TakesBy R size) {c : γ} {ch : List UInt8}
    (hp : (view c).fed ++ ch <+: wireOf recs) (hv : (view c).process recs = view c)
    (hgot : (view c).got.length = (decrypted recs (view c).fed.length).length)
    (hfit : FitsChunk size limit recs (view c).fed.length ch) :
    ∃ c', R.feed c ch = (.ok (), c') ∧
      view c' = ({ view c with fed := (view c).fed ++ ch } : View).process recs :=
  h.feedLoop ht ch.length c ch (Nat.le_refl _) hp hv fun _ => by rw [hgot]; exact hfit

/-- The loop fails when what is decrypted before the last call does not fit. -/
theorem Receives.feedLoop_error (ht : TakesUpTo R size) (hs : 0 < size) (fuel : ℕ) (c : γ)
    (slice : List UInt8) (hf : slice.length ≤ fuel) (hne : slice ≠ [])
    (hp : (view c).fed ++ slice <+: wireOf recs) (hv : (view c).process recs = view c)
    (hbig : (view c).got.length + limit <
      (decrypted recs ((view c).fed.length + lastCall size slice.length)).length) :
    ∃ e, (R.feedLoop fuel c slice).1 = .error e := by
  induction fuel generalizing c slice with
  | zero => exact absurd (List.eq_nil_of_length_eq_zero (Nat.le_zero.mp hf)) hne
  | succ fuel ih =>
      by_cases hfull : limit < (view c).unread.length
      · obtain ⟨e, he⟩ := h.readTls_full c slice hfull
        obtain ⟨b, bs, rfl⟩ := List.exists_cons_of_ne_nil hne
        rcases hr : R.readTls c (b :: bs) with ⟨res, c'⟩
        rw [hr] at he
        cases he
        exact ⟨e, by simp only [Rustls.feedLoop, hr]⟩
      · obtain ⟨n, c₁, c₂, hr, hn, hstep, hv₂⟩ :=
          h.feedStep fuel hne (Nat.le_of_not_lt hfull) hp
        have htook := ht c slice _ c₁ hr
        have hlong : size < slice.length := by
          by_contra hle
          rw [lastCall_of_le hs (Nat.le_of_not_lt hle), Nat.add_zero] at hbig
          rw [View.unread_length hv] at hfull
          omega
        rw [Nat.min_eq_left (Nat.le_of_lt hlong)] at htook
        have hfed₂ : (view c₂).fed = (view c).fed ++ slice.take size := by rw [hv₂, htook]; rfl
        have hgot₂ : (view c₂).got = (view c).got := by rw [hv₂]; rfl
        rw [hstep, htook]
        refine ih c₂ (slice.drop size) ?_ ?_ ?_ (by rw [hv₂]; rfl) ?_
        · rw [List.length_drop]; omega
        · intro hd
          have := List.length_drop (l := slice) (i := size)
          rw [hd, List.length_nil] at this
          omega
        · rw [hfed₂, List.append_assoc, List.take_append_drop]
          exact hp
        · rw [hfed₂, hgot₂, List.length_append, List.length_take, List.length_drop,
            Nat.min_eq_left (Nat.le_of_lt hlong), Nat.add_assoc,
            lastCall_sub (Nat.dvd_refl size) hlong]
          exact hbig

end Feed

/-! ### One read after the other -/

/-- A socket that is read from, and what its transport will deliver. -/
structure TlsReader (γ : Type) where
  socket : TlsClientSocket γ
  chunks : List (List UInt8)

namespace TlsReader

/-- What happens next: what there is to send is sent, of which the transport accepts up to `n`
bytes; or the read that waits gets the next chunk; or the next read is called, for `len` bytes. -/
def step (R : Rustls γ) (x : TlsReader γ) (choice : ℕ × ℕ) : TlsReader γ :=
  match choice with
  | (len, n) =>
      if x.socket.Sending then { x with socket := x.socket.sendStep R n }
      else if x.socket.reads = [] then { x with socket := x.socket.next R (.read len) }
      else
        { socket := x.socket.next R (.receive 0 (.ok (x.chunks.headD [])))
          chunks := x.chunks.tail }

/-- At least one byte is asked for, and the transport accepts at least one. -/
def Choice (choice : ℕ × ℕ) : Prop := 0 < choice.1 ∧ 0 < choice.2

def start (c : γ) (chunks : List (List UInt8)) : TlsReader γ := ⟨.new c, chunks⟩

/-- No read has failed. -/
def NoError (x : TlsReader γ) : Prop := ∀ r ∈ x.socket.results, ∃ p, r.2 = .data p

/-- The reads have given the plaintext, and then the end of the stream; rustls has got all bytes. -/
def Finished (view : γ → View) (recs : List Record) (x : TlsReader γ) : Prop :=
  ∃ pieces : List (List UInt8),
    x.socket.results.map Prod.snd = pieces.map .data ++ [.data []] ∧
    (∀ p ∈ pieces, p ≠ []) ∧ pieces.flatten = plainOf recs ∧
    (view x.socket.conn).fed = wireOf recs ∧ x.chunks = []

/-- The reads never fail, and finish. -/
def Delivers (R : Rustls γ) (view : γ → View) (recs : List Record) (x : TlsReader γ)
    (choices : ℕ → ℕ × ℕ) : Prop :=
  (∀ k, (trace (step R) x choices k).NoError) ∧
    ∃ k, (trace (step R) x choices k).Finished view recs

/-- Between two reads. -/
structure Quiet (view : γ → View) (recs : List Record) (x : TlsReader γ) : Prop where
  flushing : x.socket.flushing = none
  writes : x.socket.writes = []
  reads : x.socket.reads = []
  processed : (view x.socket.conn).process recs = view x.socket.conn
  plain : (view x.socket.conn).got ++ (view x.socket.conn).unread =
    decrypted recs (view x.socket.conn).fed.length
  whole : (view x.socket.conn).fed ++ x.chunks.flatten = wireOf recs
  ne : ∀ ch ∈ x.chunks, ch ≠ []

variable {R : Rustls γ} {recs : List Record} {size limit : ℕ} {view : γ → View} {backlog : γ → ℕ}
  {s : TlsClientSocket γ} {chunks : List (List UInt8)}

namespace Quiet

variable {x : TlsReader γ}

theorem not_sending (h : Quiet view recs x) : ¬ x.socket.Sending := by
  simp [TlsClientSocket.Sending, h.flushing, h.writes]

/-- The next chunk goes on where the bytes that were fed end. -/
theorem chunk_prefix {ch : List UInt8} {rest : List (List UInt8)}
    (h : Quiet view recs ⟨s, ch :: rest⟩) : (view s.conn).fed ++ ch <+: wireOf recs := by
  refine ⟨rest.flatten, ?_⟩
  rw [List.append_assoc]
  exact h.whole

theorem closed_iff (h : Quiet view recs x) :
    (view x.socket.conn).closed = true ↔ x.chunks = [] := by
  have hc := congrArg View.closed h.processed
  have hl := congrArg List.length h.whole
  rw [List.length_append] at hl
  rw [← hc]
  simp only [View.process, decide_eq_true_eq]
  constructor
  · intro he
    cases hx : x.chunks with
    | nil => rfl
    | cons ch rest =>
        have hch : 0 < ch.length := List.length_pos_iff.mpr (h.ne ch (by simp [hx]))
        simp only [hx, List.flatten_cons, List.length_append] at hl
        omega
  · intro he
    simp only [he, List.flatten_nil, List.length_nil] at hl
    omega

theorem got_eq (h : Quiet view recs x) (hu : (view x.socket.conn).unread = []) :
    (view x.socket.conn).got = decrypted recs (view x.socket.conn).fed.length := by
  rw [← h.plain, hu, List.append_nil]

theorem takeCallback (h : Quiet view recs x) :
    Quiet view recs ⟨x.socket.takeCallback, x.chunks⟩ :=
  ⟨h.flushing, h.writes, h.reads, h.processed, h.plain, h.whole, h.ne⟩

/-- The step that calls the next read. -/
theorem step_eq (h : Quiet view recs x) (choice : ℕ × ℕ) :
    step R x choice =
      ⟨x.socket.takeCallback.pull R choice.1 x.socket.nextCallback, x.chunks⟩ := by
  obtain ⟨len, n⟩ := choice
  simp only [step, if_neg h.not_sending, if_pos h.reads]
  rfl

end Quiet

section Reads

variable (h : Receives R recs limit view backlog)
include h

/-- What a read finds: plaintext, or the end of the stream, or that it has to wait for a chunk. -/
theorem pull_cases (hq : Quiet view recs ⟨s, chunks⟩) {len : ℕ} (hlen : 0 < len) (cb : CallbackId) :
    (∃ p c, s.pull R len cb = { s with conn := c }.complete cb (.data p) ∧
      view c = { view s.conn with
        got := (view s.conn).got ++ p
        unread := (view s.conn).unread.drop p.length } ∧
      p <+: (view s.conn).unread ∧ (p = [] → (view s.conn).unread = [] ∧ chunks = [])) ∨
    (∃ c ch rest, chunks = ch :: rest ∧ (view s.conn).unread = [] ∧ view c = view s.conn ∧
      s.pull R len cb = { s with conn := c }.feedOne (.read len cb)) := by
  by_cases hu : (view s.conn).unread = []
  · obtain ⟨c, hr, hv⟩ := h.read_none s.conn len hu
    cases hc : (view s.conn).closed with
    | true =>
        rw [hc, if_pos rfl] at hr
        refine .inl ⟨[], c, ?_, ?_, List.nil_prefix, fun _ => ⟨hu, hq.closed_iff.mp hc⟩⟩
        · simp only [TlsClientSocket.pull, hr]
        · rw [hv, List.append_nil]; rfl
    | false =>
        rw [hc, if_neg Bool.false_ne_true] at hr
        have hne : chunks ≠ [] := fun he => by
          rw [hq.closed_iff.mpr he] at hc
          cases hc
        obtain ⟨ch, rest, rfl⟩ := List.exists_cons_of_ne_nil hne
        exact .inr ⟨c, ch, rest, rfl, hu, hv, by simp only [TlsClientSocket.pull, hr]⟩
  · obtain ⟨p, c, hr, hp, -, hpre, hv⟩ := h.read_some s.conn len hlen hu
    refine .inl ⟨p, c, ?_, hv, hpre, fun he => absurd he hp⟩
    simp only [TlsClientSocket.pull, hr]

omit h in
theorem quiet_complete (hq : Quiet view recs ⟨s, chunks⟩) {p : List UInt8} {c : γ}
    (hv : view c = { view s.conn with
      got := (view s.conn).got ++ p
      unread := (view s.conn).unread.drop p.length })
    (hp : p <+: (view s.conn).unread) (cb : CallbackId) :
    Quiet view recs ⟨{ s with conn := c }.complete cb (.data p), chunks⟩ := by
  have hun : (view s.conn).unread = (decrypted recs (view s.conn).fed.length).drop
      (view s.conn).got.length := (congrArg View.unread hq.processed).symm
  have hcl := congrArg View.closed hq.processed
  refine ⟨hq.flushing, hq.writes, hq.reads, ?_, ?_, ?_, hq.ne⟩
  · change (view c).process recs = view c
    rw [hv]
    refine View.ext rfl rfl ?_ hcl
    simp only [View.process, List.length_append]
    rw [hun, List.drop_drop]
  · change (view c).got ++ (view c).unread = decrypted recs (view c).fed.length
    obtain ⟨rest, hrest⟩ := hp
    rw [hv]
    simp only [← hrest, List.drop_left]
    rw [List.append_assoc, hrest]
    exact hq.plain
  · change (view c).fed ++ chunks.flatten = wireOf recs
    rw [hv]
    exact hq.whole

omit h in
/-- The read that waits gets the next chunk. -/
theorem step_receive {ch : List UInt8} {rest : List (List UInt8)}
    (hq : Quiet view recs ⟨s, ch :: rest⟩) {len : ℕ} {cb : CallbackId} {c : γ} (choice : ℕ × ℕ) :
    step R ⟨{ s with conn := c }.feedOne (.read len cb), ch :: rest⟩ choice =
      ⟨{ s with conn := (R.feed c ch).2 }.runFed (.read len cb) (R.feed c ch).1, rest⟩ := by
  obtain ⟨b, bs, rfl⟩ := List.exists_cons_of_ne_nil (hq.ne ch List.mem_cons_self)
  have hns : ¬ (TlsClientSocket.feedOne { s with conn := c } (.read len cb)).Sending := by
    have hf := hq.flushing
    have hw := hq.writes
    simp_all [TlsClientSocket.Sending, TlsClientSocket.feedOne]
  have hr : s.reads = [] := hq.reads
  obtain ⟨l, n⟩ := choice
  simp only [step, if_neg hns]
  simp [TlsClientSocket.feedOne, hr, TlsClientSocket.next, TlsClientSocket.answerRead,
    TlsClientSocket.onRead]

/-- A chunk that rustls takes leads to the next try of the read. -/
theorem until_retry {ch : List UInt8} {rest : List (List UInt8)}
    (hq : Quiet view recs ⟨s, ch :: rest⟩) (hu : (view s.conn).unread = []) {len : ℕ}
    {cb : CallbackId} {c c' : γ} (hc : view c = view s.conn)
    (hfeed : R.feed c ch = (.ok (), c'))
    (hv : view c' = ({ view c with fed := (view c).fed ++ ch } : View).process recs) :
    Until (step R) Choice (fun _ => True)
      (fun x => ∃ t, Quiet view recs ⟨t, rest⟩ ∧ x = ⟨t.pull R len cb, rest⟩ ∧
        t.results = s.results ∧ (view t.conn).got = (view s.conn).got ∧
        (view t.conn).fed = (view s.conn).fed ++ ch)
      ⟨{ s with conn := c }.feedOne (.read len cb), ch :: rest⟩ := by
  refine .later trivial fun choice _ => ?_
  rw [step_receive hq, hfeed]
  have hgot := hq.got_eq hu
  have hfed' : (view c').fed = (view s.conn).fed ++ ch := by rw [hv, View.process, hc]
  have hgot' : (view c').got = (view s.conn).got := by rw [hv, View.process, hc]
  have hun' : (view c').unread =
      (decrypted recs (view c').fed.length).drop (view c').got.length := by
    rw [hfed', hgot', hv, View.process, hc]
  refine (TlsClientSocket.until_flushed h.toFlushes (.read len cb) rfl).map
    (f := fun t => (⟨t, rest⟩ : TlsReader γ)) (g := Prod.snd) (fun i hi => hi.2)
    (fun _ _ => trivial) (fun t i ht => if_pos ht) ?_
  rintro _ ⟨c₃, bytes, hd, rfl⟩
  have hv₃ : view c₃ = view c' := hd.keeps h.writeTls_view
  refine ⟨TlsClientSocket.flushed _ c₃ bytes, ⟨rfl, hq.writes, hq.reads, ?_, ?_, ?_, ?_⟩, rfl, rfl,
    ?_, ?_⟩
  · change (view c₃).process recs = view c₃
    rw [hv₃, hv]
    rfl
  · change (view c₃).got ++ (view c₃).unread = decrypted recs (view c₃).fed.length
    have hpre : (view c').got <+: decrypted recs (view c').fed.length := by
      rw [hgot', hgot, hfed']
      exact decrypted_mono recs (by simp)
    obtain ⟨u, hu'⟩ := hpre
    rw [hv₃, hun', ← hu', List.drop_left]
  · change (view c₃).fed ++ rest.flatten = wireOf recs
    rw [hv₃, hfed', List.append_assoc]
    exact hq.whole
  · exact fun ch hch => hq.ne ch (List.mem_cons_of_mem _ hch)
  · change (view c₃).got = _
    rw [hv₃, hgot']
  · change (view c₃).fed = _
    rw [hv₃, hfed']

variable (ht : TakesBy R size)
include ht

/-- The chunk that a read waits for is taken, if it fits. -/
theorem feed_of_fits {ch : List UInt8} {rest : List (List UInt8)}
    (hq : Quiet view recs ⟨s, ch :: rest⟩) (hu : (view s.conn).unread = []) {c : γ}
    (hc : view c = view s.conn) (hfit : FitsChunk size limit recs (view s.conn).fed.length ch) :
    ∃ c', R.feed c ch = (.ok (), c') ∧
      view c' = ({ view c with fed := (view c).fed ++ ch } : View).process recs := by
  refine h.feed ht ?_ ?_ ?_ ?_
  · rw [hc]; exact hq.chunk_prefix
  · rw [hc]; exact hq.processed
  · rw [hc]; exact congrArg List.length (hq.got_eq hu)
  · rw [hc]; exact hfit

/-- The read ends with plaintext, or with the end of the stream when there is no more. -/
def Returns (view : γ → View) (recs : List Record) (size limit : ℕ) (s : TlsClientSocket γ)
    (cb : CallbackId) (x : TlsReader γ) : Prop :=
  Quiet view recs x ∧ Fits size limit recs (view x.socket.conn).fed.length x.chunks ∧
    ∃ p, x.socket.results = s.results ++ [(cb, .data p)] ∧
      (view x.socket.conn).got = (view s.conn).got ++ p ∧
      (p = [] → (view x.socket.conn).unread = [] ∧ x.chunks = [])

theorem until_returns (hq : Quiet view recs ⟨s, chunks⟩)
    (hfit : Fits size limit recs (view s.conn).fed.length chunks) {len : ℕ} (hlen : 0 < len)
    (cb : CallbackId) :
    Until (step R) Choice (fun _ => True) (Returns view recs size limit s cb)
      ⟨s.pull R len cb, chunks⟩ := by
  induction chunks generalizing s with
  | nil =>
      rcases pull_cases h hq hlen cb with ⟨p, c, hp, hv, hpre, hend⟩ | ⟨_, _, _, hch, -⟩
      · rw [hp]
        refine .now ⟨quiet_complete hq hv hpre cb, trivial, p, rfl, congrArg View.got hv,
          fun he => ?_⟩
        obtain ⟨hu, -⟩ := hend he
        exact ⟨(congrArg View.unread hv).trans (by simp [hu]), rfl⟩
      · cases hch
  | cons ch rest ih =>
      rcases pull_cases h hq hlen cb with
        ⟨p, c, hp, hv, hpre, hend⟩ | ⟨c, ch', rest', hch, hu, hc, hp⟩
      · rw [hp]
        refine .now ⟨quiet_complete hq hv hpre cb, ?_, p, rfl, congrArg View.got hv, fun he => ?_⟩
        · change Fits size limit recs (view c).fed.length (ch :: rest)
          rw [hv]
          exact hfit
        · cases (hend he).2
      · cases hch
        obtain ⟨c', hfeed, hv⟩ := feed_of_fits h ht hq hu hc hfit.1
        rw [hp]
        refine (until_retry h hq hu hc hfeed hv).bind ?_
        rintro _ ⟨t, htq, rfl, hres, hgot, hfed⟩
        have hrest : Fits size limit recs (view t.conn).fed.length rest := by
          rw [hfed, List.length_append]
          exact hfit.2
        refine (ih htq hrest).bind fun x hx => .now ?_
        obtain ⟨hxq, hxf, p, hxr, hxg, hxe⟩ := hx
        exact ⟨hxq, hxf, p, hxr.trans (by rw [hres]), hxg.trans (by rw [hgot]), hxe⟩

theorem until_read {x : TlsReader γ} (hq : Quiet view recs x)
    (hfit : Fits size limit recs (view x.socket.conn).fed.length x.chunks) :
    Until (step R) Choice (fun _ => True)
      (Returns view recs size limit x.socket x.socket.nextCallback) x := by
  refine .later trivial fun choice hc => ?_
  rw [hq.step_eq]
  exact until_returns h ht hq.takeCallback hfit hc.1 x.socket.nextCallback

omit h ht in
theorem Quiet.got_length_le {x : TlsReader γ} (hq : Quiet view recs x) :
    (view x.socket.conn).got.length ≤ (plainOf recs).length := by
  have hl := congrArg List.length hq.whole
  rw [List.length_append] at hl
  have hpre := (decrypted_mono recs (n := (view x.socket.conn).fed.length)
    (m := (wireOf recs).length) (by omega)).length_le
  rw [decrypted_all, ← hq.plain, List.length_append] at hpre
  omega

omit h ht in
/-- There is nothing more to read at the end. -/
theorem Quiet.finished {x : TlsReader γ} (hq : Quiet view recs x)
    (hu : (view x.socket.conn).unread = []) (hc : x.chunks = []) :
    (view x.socket.conn).fed = wireOf recs ∧ (view x.socket.conn).got = plainOf recs := by
  have hw := hq.whole
  rw [hc, List.flatten_nil, List.append_nil] at hw
  exact ⟨hw, by rw [hq.got_eq hu, hw, decrypted_all]⟩

/-- Read after read gives the plaintext and its end. -/
theorem until_finished {x : TlsReader γ} (hq : Quiet view recs x)
    (hfit : Fits size limit recs (view x.socket.conn).fed.length x.chunks)
    {pieces : List (List UInt8)} (hr : x.socket.results.map Prod.snd = pieces.map .data)
    (hne : ∀ p ∈ pieces, p ≠ []) (hg : pieces.flatten = (view x.socket.conn).got) :
    Until (step R) Choice (fun _ => True) (Finished view recs) x := by
  induction hm : (plainOf recs).length - (view x.socket.conn).got.length using Nat.strongRecOn
    generalizing x pieces with
  | _ m ih =>
      refine (until_read h ht hq hfit).bind ?_
      rintro y ⟨hyq, hyf, p, hyr, hyg, hye⟩
      have hyr' : y.socket.results.map Prod.snd = pieces.map .data ++ [.data p] := by
        rw [hyr, List.map_append, hr]
        rfl
      by_cases hp : p = []
      · subst hp
        obtain ⟨hu, hc⟩ := hye rfl
        obtain ⟨hfed, hgot⟩ := hyq.finished hu hc
        refine .now ⟨pieces, hyr', hne, ?_, hfed, hc⟩
        rw [hg, ← hgot, hyg, List.append_nil]
      · have hlen : 0 < p.length := List.length_pos_iff.mpr hp
        have hle := hyq.got_length_le
        have hgl := congrArg List.length hyg
        rw [List.length_append] at hgl
        have data : y.socket.results.map Prod.snd = (pieces ++ [p]).map .data := by
          rw [hyr']; simp
        refine ih _ ?_ hyq hyf data ?_ ?_ rfl
        · omega
        · intro q hq'
          rcases List.mem_append.mp hq' with hq' | hq'
          · exact hne q hq'
          · exact List.mem_singleton.mp hq' ▸ hp
        · rw [hyg, ← hg]; simp

omit h ht in
theorem results_step (x : TlsReader γ) (choice : ℕ × ℕ) :
    x.socket.results <+: (step R x choice).socket.results := by
  obtain ⟨len, n⟩ := choice
  simp only [step]
  split
  · exact TlsClientSocket.results_next ..
  · split <;> exact TlsClientSocket.results_next ..

omit h ht in
theorem results_trace (x : TlsReader γ) (choices : ℕ → ℕ × ℕ) (k j : ℕ) :
    (trace (step R) x choices k).socket.results <+:
      (trace (step R) x choices (k + j)).socket.results := by
  induction j with
  | zero => exact List.prefix_rfl
  | succ j ih => exact ih.trans (results_step ..)

/-- There is always a later moment between two reads, and no read has failed by then. -/
theorem exists_quiet {x : TlsReader γ} (hq : Quiet view recs x)
    (hfit : Fits size limit recs (view x.socket.conn).fed.length x.chunks) (hn : x.NoError)
    {choices : ℕ → ℕ × ℕ} (hc : ∀ k, Choice (choices k)) (k : ℕ) :
    ∃ j, Quiet view recs (trace (step R) x choices (k + j)) ∧
      Fits size limit recs (view (trace (step R) x choices (k + j)).socket.conn).fed.length
        (trace (step R) x choices (k + j)).chunks ∧
      (trace (step R) x choices (k + j)).NoError := by
  induction k with
  | zero => exact ⟨0, hq, hfit, hn⟩
  | succ k ih =>
      obtain ⟨j, hjq, hjf, hjn⟩ := ih
      cases j with
      | succ j =>
          have he : k + 1 + j = k + (j + 1) := by omega
          exact ⟨j, by rw [he]; exact ⟨hjq, hjf, hjn⟩⟩
      | zero =>
          obtain ⟨i, hiq, hif, p, hir, -, -⟩ := (until_read h ht hjq hjf).exists_trace
            (u := fun i => choices (k + 0 + i)) fun i => hc _
          rw [← trace_add] at hiq hif hir
          -- the read has returned, so it was not at once
          cases i with
          | zero => simp at hir
          | succ i =>
              have he : k + 1 + i = k + 0 + (i + 1) := by omega
              refine ⟨i, by rw [he]; exact hiq, by rw [he]; exact hif, ?_⟩
              rw [he]
              intro r hr
              rw [hir] at hr
              rcases List.mem_append.mp hr with hr | hr
              · exact hjn r hr
              · exact ⟨p, by rw [List.mem_singleton.mp hr]⟩

/-- Chunks that fit are delivered. -/
theorem delivers_of_fits {x : TlsReader γ} (hq : Quiet view recs x)
    (hfit : Fits size limit recs (view x.socket.conn).fed.length x.chunks)
    (hr : x.socket.results = []) (hg : (view x.socket.conn).got = []) {choices : ℕ → ℕ × ℕ}
    (hc : ∀ k, Choice (choices k)) : Delivers R view recs x choices := by
  constructor
  · intro k
    have hn : x.NoError := by rw [NoError, hr]; nofun
    obtain ⟨j, -, -, hj⟩ := exists_quiet h ht hq hfit hn hc k
    exact fun r hr => hj r ((results_trace x choices k j).subset hr)
  · have none : x.socket.results.map Prod.snd = ([] : List (List UInt8)).map .data := by
      rw [hr]; rfl
    exact (until_finished h ht hq hfit none nofun hg.symm).exists_trace hc

/-- Where rustls refuses every chunk that does not fit, a read fails sooner or later. -/
theorem until_failed
    (hfail : ∀ c ch, ch ≠ [] → (view c).fed ++ ch <+: wireOf recs →
      (view c).process recs = view c →
      (view c).got.length = (decrypted recs (view c).fed.length).length →
      ¬ FitsChunk size limit recs (view c).fed.length ch → ∃ e, (R.feed c ch).1 = .error e)
    (hq : Quiet view recs ⟨s, chunks⟩) (hfit : ¬ Fits size limit recs (view s.conn).fed.length chunks)
    {len : ℕ} (hlen : 0 < len) (cb : CallbackId) :
    Until (step R) Choice (fun _ => True) (fun x => ¬ x.NoError) ⟨s.pull R len cb, chunks⟩ := by
  induction chunks generalizing s len cb with
  | nil => exact absurd trivial hfit
  | cons ch rest ih =>
      -- first the plaintext that is unread
      induction hm : (view s.conn).unread.length using Nat.strongRecOn generalizing s len cb with
      | _ m ihm =>
          rcases pull_cases h hq hlen cb with
            ⟨p, c, hp, hv, hpre, hend⟩ | ⟨c, ch', rest', hch, hu, hc, hp⟩
          · have hpos : 0 < p.length := List.length_pos_iff.mpr fun he => by cases (hend he).2
            have hle := hpre.length_le
            have hq' := quiet_complete hq hv hpre cb
            rw [hp]
            refine .later trivial fun choice hch => ?_
            rw [hq'.step_eq]
            have hun : (view c).unread = (view s.conn).unread.drop p.length :=
              congrArg View.unread hv
            refine ihm _ ?_ hq'.takeCallback ?_ hch.1 _ rfl
            · change (view c).unread.length < m
              rw [hun, List.length_drop]
              omega
            · change ¬ Fits size limit recs (view c).fed.length (ch :: rest)
              rw [hv]
              exact hfit
          · cases hch
            rw [hp]
            by_cases hchunk : FitsChunk size limit recs (view s.conn).fed.length ch
            · obtain ⟨c', hfeed, hv⟩ := feed_of_fits h ht hq hu hc hchunk
              refine (until_retry h hq hu hc hfeed hv).bind ?_
              rintro _ ⟨t, htq, rfl, -, -, hfed⟩
              refine ih htq (fun hrest => hfit ⟨hchunk, ?_⟩) hlen cb
              rw [hfed, List.length_append] at hrest
              exact hrest
            · have hgot := congrArg List.length (hq.got_eq hu)
              obtain ⟨e, he⟩ := hfail c ch (hq.ne ch List.mem_cons_self)
                (by rw [hc]; exact hq.chunk_prefix) (by rw [hc]; exact hq.processed)
                (by rw [hc]; exact hgot) (by rw [hc]; exact hchunk)
              refine .later trivial fun choice _ => .now ?_
              rw [step_receive hq, he]
              intro hn
              obtain ⟨p, hp'⟩ := hn (cb, .failed e) (List.mem_append_right _ List.mem_cons_self)
              cases hp'

end Reads

end TlsReader

/-! ### A session -/

namespace Session

def view (c : Session) : View := ⟨c.fed, c.got, c.unread, c.closed⟩

variable {size : ℕ}

theorem receives (hs : 0 < size) (sendLimit limit : ℕ) (recs : List Record) :
    Receives (upTo size sendLimit limit recs) recs limit view backlog where
  toFlushes := flushes size sendLimit limit recs
  readTls_full c slice hu := ⟨.rustls 0, congrArg Prod.fst (if_pos hu)⟩
  readTls c slice hu hne _ := by
    have hpos : 0 < min size slice.length := Nat.lt_min.mpr ⟨hs, List.length_pos_iff.mpr hne⟩
    have htake : slice.take (min size slice.length - 1 + 1) = slice.take size := by
      rw [Nat.sub_add_cancel hpos]
      rcases Nat.le_total size slice.length with hle | hle
      · rw [Nat.min_eq_left hle]
      · rw [Nat.min_eq_right hle, List.take_length, List.take_of_length_le hle]
    refine ⟨min size slice.length - 1, { c with fed := c.fed ++ slice.take size }, ?_, ?_, ?_⟩
    · rw [Nat.sub_add_cancel hpos]
      exact if_neg (Nat.not_lt.mpr hu)
    · rw [Nat.sub_add_cancel hpos]
      exact Nat.min_le_right ..
    · rw [htake]
      rfl
  processNewPackets c _ := ⟨_, rfl, rfl⟩
  read_some c len hlen hne := by
    have hne : c.unread ≠ [] := hne
    obtain ⟨b, bs, hu⟩ := List.exists_cons_of_ne_nil hne
    refine ⟨c.unread.take len,
      { c with got := c.got ++ c.unread.take len, unread := c.unread.drop len }, ?_, ?_,
      List.length_take_le .., List.take_prefix .., ?_⟩
    · change read c len = _
      simp only [read]
      split
      · next he => exact absurd he hne
      · rfl
    · rw [hu]; simp; omega
    · refine View.ext rfl rfl ?_ rfl
      change c.unread.drop len = c.unread.drop (c.unread.take len).length
      rw [List.length_take]
      by_cases hle : len ≤ c.unread.length
      · rw [Nat.min_eq_left hle]
      · rw [Nat.min_eq_right (by omega), List.drop_length, List.drop_eq_nil_of_le (by omega)]
  read_none c len hu := by
    have hu : c.unread = [] := hu
    refine ⟨c, ?_, rfl⟩
    change read c len = _
    simp only [read, hu]
    rfl
  writeTls_view c := rfl

theorem takesUpTo (size sendLimit limit : ℕ) (recs : List Record) :
    TakesUpTo (upTo size sendLimit limit recs) size := by
  intro c slice n c' hr
  change readTls size limit c slice = _ at hr
  simp only [readTls] at hr
  split at hr <;> cases hr
  rfl

end Session

namespace TlsReader

theorem decrypted_zero {recs : List Record} (h : ∀ r ∈ recs, r.wire ≠ []) :
    decrypted recs 0 = [] := by
  cases recs with
  | nil => rfl
  | cons r rs =>
      have hpos : 0 < r.wire.length := List.length_pos_iff.mpr (h r List.mem_cons_self)
      simp only [decrypted, if_neg (Nat.not_le.mpr hpos)]

theorem quiet_start {recs : List Record} (hv : EndsWithCloseNotify recs)
    {chunks : List (List UInt8)} (hc : Cuts chunks recs) {view : γ → View} {c : γ}
    (hnew : view c = .new) : Quiet view recs (start c chunks) := by
  have hconn : view (start c chunks).socket.conn = .new := hnew
  have hz := decrypted_zero hv.1
  have hpos : (wireOf recs).length ≠ 0 := by
    obtain ⟨hw, r, hr, -⟩ := hv
    have hmem : r ∈ recs := List.mem_of_getLast? hr
    intro he
    have hnil : (recs.map Record.wire).flatten = [] := List.eq_nil_of_length_eq_zero he
    exact hw r hmem (List.flatten_eq_nil_iff.mp hnil r.wire (List.mem_map_of_mem hmem))
  refine ⟨rfl, rfl, rfl, ?_, ?_, ?_, hc.ne⟩
  · rw [hconn]
    refine View.ext rfl rfl ?_ ?_
    · simp only [View.process, View.new, List.length_nil, hz, List.drop_nil]
    · exact decide_eq_false fun he => hpos he.symm
  · rw [hconn]
    exact hz.symm
  · rw [hconn]
    exact hc.flatten

section Start

variable {R : Rustls γ} {recs : List Record} {size limit : ℕ} {view : γ → View} {backlog : γ → ℕ}
  {c : γ} {chunks : List (List UInt8)} {choices : ℕ → ℕ × ℕ}
  (h : Receives R recs limit view backlog) (hnew : view c = .new)
  (hv : EndsWithCloseNotify recs) (hc : Cuts chunks recs) (hch : ∀ k, Choice (choices k))
include h hnew hv hc hch

/-- Chunks that fit what a call takes are delivered. -/
theorem delivers_start (ht : TakesBy R size) (hfit : Fits size limit recs 0 chunks) :
    Delivers R view recs (start c chunks) choices := by
  have hconn : view (start c chunks).socket.conn = .new := hnew
  refine delivers_of_fits h ht (quiet_start hv hc hnew) ?_ rfl ?_ hch
  · rw [hconn]; exact hfit
  · rw [hconn]; rfl

/-- A rustls whose calls take up to `size` bytes does not deliver chunks that do not fit. -/
theorem not_delivers_start (ht : TakesUpTo R size) (hs : 0 < size)
    (hfit : ¬ Fits size limit recs 0 chunks) : ¬ Delivers R view recs (start c chunks) choices := by
  have hq : Quiet view recs (start c chunks) := quiet_start hv hc hnew
  have hconn : view (start c chunks).socket.conn = .new := hnew
  have fails : Until (step R) Choice (fun _ => True) (fun x => ¬ x.NoError) (start c chunks) := by
    refine .later trivial fun choice hch => ?_
    rw [hq.step_eq]
    refine until_failed h ht.takesBy ?_ hq.takeCallback ?_ hch.1 _
    · intro c ch hne hp hpr hgot hbig
      refine h.feedLoop_error ht hs ch.length c ch (Nat.le_refl _) hne hp hpr ?_
      rw [hgot]
      exact Nat.lt_of_not_le hbig
    · change ¬ Fits size limit recs (view (start c chunks).socket.conn).fed.length chunks
      rw [hconn]
      exact hfit
  rintro ⟨hn, -⟩
  obtain ⟨k, hk⟩ := fails.exists_trace hch
  exact hk (hn k)

end Start

/-- **A stream is read to its end.**  For every rustls that does what is assumed of it and whose
`read_tls` takes up to `size` bytes, the reads give the plaintext and then the end of the stream,
and never fail, if and only if of every chunk, what is taken before the last call of `read_tls`
completes records with at most `limit` bytes of plaintext.  Every rustls that does what is assumed
delivers the stream if and only if that is so for calls that take one byte. -/
theorem reads_deliver_iff {recs : List Record} (hv : EndsWithCloseNotify recs)
    {chunks : List (List UInt8)} (hc : Cuts chunks recs) (limit : ℕ) {choices : ℕ → ℕ × ℕ}
    (hch : ∀ k, Choice (choices k)) :
    (∀ size, 0 < size → ∀ (γ : Type) (R : Rustls γ) (view : γ → View) (backlog : γ → ℕ) (c : γ),
      Receives R recs limit view backlog → TakesUpTo R size → view c = .new →
        (Delivers R view recs (start c chunks) choices ↔ Fits size limit recs 0 chunks)) ∧
    ((∀ (γ : Type) (R : Rustls γ) (view : γ → View) (backlog : γ → ℕ) (c : γ),
      Receives R recs limit view backlog → view c = .new →
        Delivers R view recs (start c chunks) choices) ↔ Fits 1 limit recs 0 chunks) := by
  refine ⟨fun size hs γ R view backlog c h ht hnew => ⟨fun hd => ?_, fun hfit => ?_⟩,
    fun hd => ?_, fun hfit γ R view backlog c h hnew => ?_⟩
  · by_contra hfit
    exact not_delivers_start h hnew hv hc hch ht hs hfit hd
  · exact delivers_start h hnew hv hc hch ht.takesBy hfit
  · by_contra hfit
    have one := Session.receives Nat.one_pos 0 limit recs
    exact not_delivers_start one rfl hv hc hch (Session.takesUpTo 1 0 limit recs) Nat.one_pos hfit
      (hd _ _ _ _ .new one rfl)
  · exact delivers_start h hnew hv hc hch (takesBy_one R) hfit

/-- A record with two bytes of plaintext and `close_notify`, in three chunks. -/
def shortRecs : List Record := [⟨[23, 3, 3, 0, 2, 1, 2], [8, 9]⟩, ⟨[21, 3, 3, 0, 2, 1, 0], []⟩]

def shortChunks : List (List UInt8) := [[23, 3, 3], [0, 2, 1, 2, 21, 3], [3, 0, 2, 1, 0]]

theorem shortRecs_delivered :
    Delivers (Session.rustls 0 readChunk shortRecs) Session.view shortRecs
      (start .new shortChunks) (fun _ => (1, 1)) :=
  have ends : EndsWithCloseNotify shortRecs := ⟨by decide, by decide⟩
  have cuts : Cuts shortChunks shortRecs := ⟨by decide, by decide, by decide⟩
  have fits : Fits Session.readSize readChunk shortRecs 0 shortChunks :=
    ⟨by decide, by decide, by decide, trivial⟩
  have size : 0 < Session.readSize := by decide
  ((reads_deliver_iff ends cuts readChunk fun _ => ⟨Nat.one_pos, Nat.one_pos⟩).1 _ size Session _ _
    Session.backlog .new (Session.receives size 0 readChunk shortRecs)
    (Session.takesUpTo _ 0 readChunk shortRecs) rfl).mpr fits

/-- A record of `n` bytes of plaintext, as long as it is on the wire. -/
def recordOf (n : ℕ) : Record := ⟨List.replicate (n + 22) 7, List.replicate n 1⟩

theorem recordOf_ne (n : ℕ) : (recordOf n).wire ≠ [] := by
  simp [recordOf]

/-- The longest record there is, a short one, another one and `close_notify`. -/
def longRecs : List Record :=
  [recordOf readChunk, recordOf 2, recordOf 8000, ⟨List.replicate 24 7, []⟩]

/-- The transport delivers them in a full chunk and what is left. -/
def longChunks : List (List UInt8) := [List.replicate readChunk 7, List.replicate 8092 7]

/-- The first 4096 bytes of the second chunk complete the two records with which the limit is
passed, and rustls does not take the rest. -/
theorem longRecs_not_delivered :
    EndsWithCloseNotify longRecs ∧ Cuts longChunks longRecs ∧
      ¬ Delivers (Session.rustls 0 readChunk longRecs) Session.view longRecs
        (start .new longChunks) (fun _ => (1024, 1)) := by
  have hv : EndsWithCloseNotify longRecs := by
    refine ⟨fun r hr => ?_, ⟨List.replicate 24 7, []⟩, rfl, rfl⟩
    simp only [longRecs, List.mem_cons, List.not_mem_nil, or_false] at hr
    rcases hr with rfl | rfl | rfl | rfl
    · exact recordOf_ne _
    · exact recordOf_ne _
    · exact recordOf_ne _
    · decide
  have hc : Cuts longChunks longRecs := by
    refine ⟨?_, ?_, ?_⟩
    · simp only [longChunks, List.mem_cons, List.not_mem_nil, or_false, ne_eq, forall_eq_or_imp,
        forall_eq, List.replicate_eq_nil_iff]
      decide
    · simp only [longChunks, List.mem_cons, List.not_mem_nil, or_false, forall_eq_or_imp,
        forall_eq, List.length_replicate]
      decide
    · simp only [longChunks, longRecs, recordOf, wireOf, List.map_cons, List.map_nil,
        List.flatten_cons, List.flatten_nil, List.append_nil, List.replicate_append_replicate]
  have size : 0 < Session.readSize := by decide
  refine ⟨hv, hc, not_delivers_start (Session.receives size 0 readChunk longRecs) rfl hv hc
    (fun _ => ⟨by decide, by decide⟩) (Session.takesUpTo _ 0 readChunk longRecs) size ?_⟩
  rintro ⟨-, hfit, -⟩
  have before : decrypted longRecs (0 + (List.replicate readChunk (7 : UInt8)).length) = [] := by
    rw [longRecs, decrypted, if_neg (by simp only [recordOf, List.length_replicate]; omega)]
  have calls : lastCall Session.readSize (List.replicate 8092 (7 : UInt8)).length = 4096 := by
    rw [List.length_replicate]; rfl
  have after : decrypted longRecs (0 + (List.replicate readChunk (7 : UInt8)).length + 4096) =
      List.replicate readChunk 1 ++ List.replicate 2 1 := by
    simp only [List.length_replicate]
    rw [longRecs, decrypted, if_pos (by simp only [recordOf, List.length_replicate]; omega),
      decrypted, if_pos (by simp only [recordOf, List.length_replicate]; omega), decrypted,
      if_neg (by simp only [recordOf, List.length_replicate]; omega), List.append_nil]
    rfl
  rw [FitsChunk, before, calls, after, List.length_append, List.length_replicate] at hfit
  simp only [List.length_nil, List.length_replicate] at hfit
  omega

end TlsReader

end RustNet
