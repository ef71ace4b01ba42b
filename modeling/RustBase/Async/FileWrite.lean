import RustBase.Support.FileContent
import RustBase.Support.Machine

/-!
# Async — writing a file and reading it back

`fs::write` creates or truncates the file, hands its data to `write_all`, and flushes.  `write_all`
is not part of the repository, and a parameter here (`WriteAll`): its future calls `poll_write` with
buffers of its own choice, and is told what that returns.  `poll_write` posts one job for what it is
given, which writes all of it at the cursor with `write_all_at`, and moves the cursor when it finds
the result.  A `poll_write` that finds its job unfinished changes nothing, and is no step here.

`fs::read` opens the file, asks for its length, and reads that many bytes with one `pread`, which
may return fewer.

**`read_write_iff`**: after a `write` that succeeded, a `read` that succeeds returns the data
exactly when that `pread` was not short.
-/

namespace RustAsync
open Support

/-! ### `write_all` -/

/-- What a poll of the future does: it calls `poll_write` with a buffer, or returns. -/
inductive WriteAllPoll where
  | write (buf : Bytes)
  | ready (r : Except IoError Unit)
  deriving DecidableEq

/-- `AsyncWriteExt::write_all`.  When `poll_write` is pending, so is the poll of the future, and
nothing changes. -/
structure WriteAll (ω : Type*) where
  start : Bytes → ω
  poll : ω → WriteAllPoll
  /-- `poll_write` has returned -/
  told : ω → Except IoError ℕ → ω

namespace WriteAll

variable {ω : Type*} (W : WriteAll ω)

/-- Of the buffers that `write_all` of `d` has handed over, the bytes `bs` were accepted. -/
inductive Accepts (d : Bytes) : Bytes → ω → Prop where
  | start : Accepts d [] (W.start d)
  | told {bs buf : Bytes} {w : ω} {n : ℕ} (h : Accepts d bs w) (hp : W.poll w = .write buf)
      (hn : n ≤ buf.length) : Accepts d (bs ++ buf.take n) (W.told w (.ok n))

/-- The documentation: the future writes the entire contents of its buffer, and does not complete
until all of them have been written; the error of a write is its result. -/
structure Documented : Prop where
  entire : ∀ d bs w, W.Accepts d bs w → W.poll w = .ready (.ok ()) → bs = d
  error : ∀ w buf e, W.poll w = .write buf → W.poll (W.told w (.error e)) = .ready (.error e)

end WriteAll

/-! ### Writing -/

/-- The job of a `poll_write`. -/
structure WriteJob where
  data : Bytes
  pos : ℕ
  /-- the bytes that `write_all_at` has written -/
  written : ℕ
  result : Option (Except IoError ℕ)
  deriving DecidableEq

inductive WriteStatus where
  | creating
  | writing
  | done
  | failed (e : IoError)
  deriving DecidableEq

structure FsWrite (ω : Type*) where
  content : Bytes
  pos : ℕ
  writeBusy : Option WriteJob
  /-- the future of `write_all` -/
  all : ω
  status : WriteStatus
  deriving DecidableEq

inductive FsWriteAct where
  | create
  | createFails (e : IoError)
  /-- `poll_write` finds no job, and posts one -/
  | post (buf : Bytes)
  /-- the loop of `write_all_at` writes `n` bytes -/
  | pwrite (j : WriteJob) (n : ℕ)
  /-- `write_all_at` gives up -/
  | pwriteFails (j : WriteJob) (e : IoError)
  | jobDone (j : WriteJob)
  /-- `poll_write` finds the result -/
  | ready (buf : Bytes) (j : WriteJob) (n : ℕ)
  | readyFails (buf : Bytes) (j : WriteJob) (e : IoError)
  /-- `write_all` has returned; the flush has nothing to do -/
  | finish (r : Except IoError Unit)
  deriving DecidableEq

variable {ω : Type*} {W : WriteAll ω}

namespace FsWrite

def Enabled (W : WriteAll ω) (s : FsWrite ω) : FsWriteAct → Prop
  | .create | .createFails _ => s.status = .creating
  | .post buf => s.status = .writing ∧ s.writeBusy = none ∧ W.poll s.all = .write buf
  | .pwrite j n =>
      s.writeBusy = some j ∧ j.result = none ∧ 0 < n ∧ j.written + n ≤ j.data.length
  | .pwriteFails j _ => s.writeBusy = some j ∧ j.result = none ∧ j.written < j.data.length
  | .jobDone j => s.writeBusy = some j ∧ j.result = none ∧ j.written = j.data.length
  | .ready buf j n =>
      s.status = .writing ∧ W.poll s.all = .write buf ∧ s.writeBusy = some j ∧
        j.result = some (.ok n)
  | .readyFails buf j e =>
      s.status = .writing ∧ W.poll s.all = .write buf ∧ s.writeBusy = some j ∧
        j.result = some (.error e)
  | .finish r => s.status = .writing ∧ W.poll s.all = .ready r

def next (W : WriteAll ω) (s : FsWrite ω) : FsWriteAct → FsWrite ω
  | .create => { s with content := [], status := .writing }
  | .createFails e => { s with status := .failed e }
  | .post buf => { s with writeBusy := some ⟨buf, s.pos, 0, none⟩ }
  | .pwrite j n =>
      { s with
        content := pwrite s.content (j.pos + j.written) ((j.data.drop j.written).take n)
        writeBusy := some { j with written := j.written + n } }
  | .pwriteFails j e => { s with writeBusy := some { j with result := some (.error e) } }
  | .jobDone j => { s with writeBusy := some { j with result := some (.ok j.data.length) } }
  | .ready _ _ n =>
      { s with pos := s.pos + n, writeBusy := none, all := W.told s.all (.ok n) }
  | .readyFails _ _ e => { s with writeBusy := none, all := W.told s.all (.error e) }
  | .finish (.ok ()) => { s with status := .done }
  | .finish (.error e) => { s with status := .failed e }

instance (W : WriteAll ω) (s : FsWrite ω) : ∀ a, Decidable (s.Enabled W a)
  | .create | .createFails _ => inferInstanceAs (Decidable (_ = _))
  | .post _ | .pwriteFails _ _ | .jobDone _ => inferInstanceAs (Decidable (_ ∧ _ ∧ _))
  | .pwrite _ _ | .ready _ _ _ | .readyFails _ _ _ =>
      inferInstanceAs (Decidable (_ ∧ _ ∧ _ ∧ _))
  | .finish _ => inferInstanceAs (Decidable (_ ∧ _))

end FsWrite

/-- `fs::write` of `d` to a file whose content is `c₀`. -/
def fsWriteMachine (W : WriteAll ω) (c₀ d : Bytes) : Machine (FsWrite ω) FsWriteAct where
  Init s := s = ⟨c₀, 0, none, W.start d, .creating⟩
  Enabled s := s.Enabled W
  next s := s.next W

instance (W : WriteAll ω) (c₀ d : Bytes) (s : FsWrite ω) (a : FsWriteAct) :
    Decidable ((fsWriteMachine W c₀ d).Enabled s a) :=
  inferInstanceAs (Decidable (s.Enabled W a))

namespace FsWrite

variable {c₀ d bs : Bytes} {s : FsWrite ω}

/-- The bytes of the job under way that are in the file. -/
def inFlight (s : FsWrite ω) : Bytes :=
  match s.writeBusy with
  | some j => j.data.take j.written
  | none => []

/-- The cursor is after the bytes `bs` that were accepted, and the file holds those and what the job
under way, for the buffer that `write_all` hands over, has written. -/
structure Cursor (W : WriteAll ω) (d bs : Bytes) (s : FsWrite ω) : Prop where
  accepts : W.Accepts d bs s.all
  pos : s.pos = bs.length
  content : s.content = bs ++ s.inFlight
  job : ∀ j, s.writeBusy = some j → W.poll s.all = .write j.data ∧ j.pos = s.pos ∧
    j.written ≤ j.data.length ∧
    ∀ n, j.result = some (.ok n) → n = j.data.length ∧ j.written = j.data.length

/-- The future of `write_all` returns an error when it is polled. -/
def Fails (W : WriteAll ω) (s : FsWrite ω) : Prop := ∃ e, W.poll s.all = .ready (.error e)

def Inv (W : WriteAll ω) (d : Bytes) (s : FsWrite ω) : Prop :=
  match s.status with
  | .creating => s.pos = 0 ∧ s.writeBusy = none ∧ s.all = W.start d
  | .writing => (∃ bs, Cursor W d bs s) ∨ s.Fails W
  | .done => s.content = d ∧ s.writeBusy = none
  | .failed _ => True

namespace Cursor

variable {j : WriteJob} {n : ℕ} {buf : Bytes}

theorem create (hp : s.pos = 0) (hb : s.writeBusy = none) (ha : s.all = W.start d) :
    Cursor W d [] (s.next W .create) where
  accepts := by
    change W.Accepts d [] s.all
    rw [ha]
    exact .start
  pos := hp
  content := by simp [FsWrite.next, inFlight, hb]
  job j hj := by
    rw [show s.writeBusy = some j from hj] at hb
    cases hb

theorem post (h : Cursor W d bs s) (hb : s.writeBusy = none) (hp : W.poll s.all = .write buf) :
    Cursor W d bs (s.next W (.post buf)) where
  accepts := h.accepts
  pos := h.pos
  content := by simpa [inFlight, hb, FsWrite.next] using h.content
  job j hj := by
    cases hj
    refine ⟨hp, rfl, Nat.zero_le _, fun n hn => ?_⟩
    cases hn

/-- The job writes on from where it is, which is the end of the file. -/
theorem pwrite (h : Cursor W d bs s) (hj : s.writeBusy = some j) (hr : j.result = none)
    (hl : j.written + n ≤ j.data.length) : Cursor W d bs (s.next W (.pwrite j n)) where
  accepts := h.accepts
  pos := h.pos
  content := by
    obtain ⟨-, hp, hw, -⟩ := h.job j hj
    have content : s.content = bs ++ j.data.take j.written := by
      simpa [inFlight, hj] using h.content
    have length : s.content.length = j.pos + j.written := by
      rw [content, List.length_append, List.length_take_of_le hw, hp, h.pos]
    change Support.pwrite s.content (j.pos + j.written) _ = bs ++ j.data.take (j.written + n)
    rw [← length, pwrite_length, content, List.take_add, List.append_assoc]
  job j' hj' := by
    obtain ⟨hd, hp, -, -⟩ := h.job j hj
    cases hj'
    refine ⟨hd, hp, hl, fun m hm => ?_⟩
    rw [show j.result = some (.ok m) from hm] at hr
    cases hr

/-- The result of the job is set. -/
theorem setResult (h : Cursor W d bs s) (hj : s.writeBusy = some j) {r : Except IoError ℕ}
    (hr : ∀ n, r = .ok n → n = j.data.length ∧ j.written = j.data.length) :
    Cursor W d bs { s with writeBusy := some { j with result := some r } } where
  accepts := h.accepts
  pos := h.pos
  content := by simpa [inFlight, hj] using h.content
  job j' hj' := by
    obtain ⟨hd, hp, hw, -⟩ := h.job j hj
    cases hj'
    exact ⟨hd, hp, hw, fun n hn => hr n (Option.some.inj hn)⟩

/-- What `poll_write` reports is what it was given, and the file holds it. -/
theorem ready (h : Cursor W d bs s) (hj : s.writeBusy = some j) (hr : j.result = some (.ok n)) :
    Cursor W d (bs ++ j.data) (s.next W (.ready buf j n)) := by
  obtain ⟨hd, -, -, hres⟩ := h.job j hj
  obtain ⟨rfl, hw⟩ := hres n hr
  have content : s.content = bs ++ j.data := by
    simpa [inFlight, hj, hw] using h.content
  refine ⟨?_, ?_, ?_, fun j' hj' => by cases hj'⟩
  · have told := h.accepts.told hd (Nat.le_refl _)
    rwa [List.take_length] at told
  · change s.pos + j.data.length = (bs ++ j.data).length
    rw [h.pos, List.length_append]
  · change s.content = bs ++ j.data ++ []
    rw [content, List.append_nil]

theorem finish (hW : W.Documented) (h : Cursor W d bs s) (hp : W.poll s.all = .ready (.ok ())) :
    s.content = d ∧ s.writeBusy = none := by
  have idle : s.writeBusy = none := by
    cases hj : s.writeBusy with
    | none => rfl
    | some j =>
        obtain ⟨writes, -⟩ := h.job j hj
        rw [hp] at writes
        cases writes
  refine ⟨?_, idle⟩
  rw [h.content, inFlight, idle, List.append_nil]
  exact hW.entire d bs s.all h.accepts hp

end Cursor

theorem Fails.not_write {buf : Bytes} (h : s.Fails W) : W.poll s.all ≠ .write buf := by
  obtain ⟨e, he⟩ := h
  rw [he]
  nofun

theorem Inv.of_writing {s' : FsWrite ω} (hs : s'.status = .writing)
    (h : (∃ bs, Cursor W d bs s') ∨ s'.Fails W) : Inv W d s' := by
  unfold Inv
  rw [hs]
  exact h

theorem Inv.of_failed {s' : FsWrite ω} {e : IoError} (hs : s'.status = .failed e) :
    Inv W d s' := by
  unfold Inv
  rw [hs]
  trivial

theorem Inv.writing (h : Inv W d s) (hs : s.status = .writing) :
    (∃ bs, Cursor W d bs s) ∨ s.Fails W := by
  unfold Inv at h
  rwa [hs] at h

/-- A call of `poll_write` is made with the cursor where it should be. -/
theorem Inv.cursor {buf : Bytes} (h : Inv W d s) (hs : s.status = .writing)
    (hp : W.poll s.all = .write buf) : ∃ bs, Cursor W d bs s :=
  (h.writing hs).resolve_right fun hf => hf.not_write hp

/-- The job goes on. -/
theorem Inv.setJob {j : WriteJob} {s' : FsWrite ω} (h : Inv W d s) (hj : s.writeBusy = some j)
    (hs : s'.status = s.status) (ha : s'.all = s.all)
    (hc : ∀ bs, Cursor W d bs s → Cursor W d bs s') : Inv W d s' := by
  cases hst : s.status with
  | creating =>
      unfold Inv at h
      rw [hst] at h
      rw [h.2.1] at hj
      cases hj
  | writing =>
      refine .of_writing (hs.trans hst) ((h.writing hst).imp (fun hb => ?_) fun hf => ?_)
      · obtain ⟨bs, hb⟩ := hb
        exact ⟨bs, hc bs hb⟩
      · unfold Fails
        rwa [ha]
  | done =>
      unfold Inv at h
      rw [hst] at h
      rw [h.2] at hj
      cases hj
  | failed e => exact .of_failed (hs.trans hst)

theorem Inv.next (hW : W.Documented) (h : Inv W d s) {a : FsWriteAct} (ha : s.Enabled W a) :
    Inv W d (s.next W a) := by
  cases a with
  | create =>
      have hs : s.status = .creating := ha
      unfold Inv at h
      rw [hs] at h
      obtain ⟨hp, hb, hr⟩ := h
      exact .of_writing rfl (.inl ⟨[], .create hp hb hr⟩)
  | createFails e => exact .of_failed rfl
  | post buf =>
      obtain ⟨hs, hb, hp⟩ := ha
      obtain ⟨bs, hc⟩ := h.cursor hs hp
      exact .of_writing hs (.inl ⟨bs, hc.post hb hp⟩)
  | pwrite j n =>
      obtain ⟨hj, hr, -, hl⟩ := ha
      exact h.setJob hj rfl rfl fun _ hc => hc.pwrite hj hr hl
  | pwriteFails j e =>
      exact h.setJob ha.1 rfl rfl fun _ hc => hc.setResult ha.1 fun n hn => by cases hn
  | jobDone j =>
      obtain ⟨hj, -, hw⟩ := ha
      exact h.setJob hj rfl rfl fun _ hc => hc.setResult hj fun n hn => by
        cases hn
        exact ⟨rfl, hw⟩
  | ready buf j n =>
      obtain ⟨hs, hp, hj, hr⟩ := ha
      obtain ⟨bs, hc⟩ := h.cursor hs hp
      exact .of_writing hs (.inl ⟨_, hc.ready hj hr⟩)
  | readyFails buf j e =>
      obtain ⟨hs, hp, -, -⟩ := ha
      exact .of_writing hs (.inr ⟨e, hW.error s.all buf e hp⟩)
  | finish r =>
      obtain ⟨hs, hp⟩ := ha
      cases r with
      | error e => exact .of_failed rfl
      | ok _ =>
          rcases h.writing hs with ⟨bs, hc⟩ | ⟨e, he⟩
          · exact Cursor.finish (s := s) hW hc hp
          · rw [hp] at he
            cases he

theorem inv_of_reachable (hW : W.Documented) (h : (fsWriteMachine W c₀ d).Reachable s) :
    Inv W d s := by
  refine h.invariant (I := Inv W d) (fun s hi => ?_) fun _ _ _ hi _ ha => hi.next hW ha
  obtain rfl : s = ⟨c₀, 0, none, W.start d, .creating⟩ := hi
  exact ⟨rfl, rfl, rfl⟩

/-- **A write that returns `Ok` has written its data**, whatever the transfers. -/
theorem content_of_done (hW : W.Documented) (h : (fsWriteMachine W c₀ d).Reachable s)
    (hd : s.status = .done) : s.content = d := by
  have hi := inv_of_reachable hW h
  unfold Inv at hi
  rw [hd] at hi
  exact hi.1

end FsWrite

/-! ### Reading -/

/-- What the system answers to the calls of `fs::read`. -/
structure ReadCalls where
  open_ : Except IoError Unit
  metadata : Except IoError ℕ
  /-- the bytes a `pread` of that many bytes at offset 0 stores -/
  pread : ℕ → Except IoError Bytes

/-- The answers the system may give for a file that nothing else touches. -/
structure ReadCalls.Allowed (sys : ReadCalls) (c : Bytes) : Prop where
  metadata : ∀ n, sys.metadata = .ok n → n = c.length
  pread : ∀ len bs, sys.pread len = .ok bs → Reads c 0 len bs

/-- `File::read_all`: `buf` is cut to the bytes that were read. -/
def readAll (sys : ReadCalls) : Except IoError Bytes := do
  let len ← sys.metadata
  let bs ← sys.pread len
  return bs

/-- `fs::read`. -/
def fsRead (sys : ReadCalls) : Except IoError Bytes := do
  sys.open_
  readAll sys

/-- The `pread` of `read_all` is not short. -/
def ReadCalls.Full (sys : ReadCalls) (c : Bytes) : Prop :=
  ∀ bs, sys.pread c.length = .ok bs → c.length ≤ bs.length

/-- A read that succeeds returns what its one `pread` does. -/
theorem pread_of_fsRead {sys : ReadCalls} {c r : Bytes} (ha : sys.Allowed c)
    (hr : fsRead sys = .ok r) : sys.pread c.length = .ok r := by
  unfold fsRead readAll at hr
  cases ho : sys.open_ with
  | error e => rw [ho] at hr; cases hr
  | ok _ =>
      cases hm : sys.metadata with
      | error e => rw [ho, hm] at hr; cases hr
      | ok len =>
          obtain rfl := ha.metadata len hm
          cases hp : sys.pread c.length with
          | error e => simp only [ho, hm, bind, Except.bind, hp] at hr; cases hr
          | ok bs => simpa [ho, hm, bind, Except.bind, hp, pure, Except.pure] using hr

/-- **A read after a write returns the data exactly when its `pread` is not short.** -/
theorem read_write_iff (hW : W.Documented) {c₀ d : Bytes} {s : FsWrite ω}
    (hs : (fsWriteMachine W c₀ d).Reachable s) (hd : s.status = .done) {sys : ReadCalls}
    (ha : sys.Allowed s.content) {r : Bytes} (hr : fsRead sys = .ok r) :
    r = d ↔ sys.Full s.content := by
  have content := FsWrite.content_of_done hW hs hd
  have pread := pread_of_fsRead ha hr
  have reads := ha.pread _ _ pread
  have take := reads.eq_take
  rw [List.drop_zero] at take
  unfold ReadCalls.Full
  rw [content] at take pread ⊢
  constructor
  · rintro rfl bs hb
    rw [pread] at hb
    cases hb
    exact Nat.le_refl _
  · intro full
    rw [take]
    exact List.take_of_length_le (full r pread)

/-- A system that transfers at most `m` bytes in a call. -/
def ReadCalls.atMost (c : Bytes) (m : ℕ) : ReadCalls :=
  ⟨.ok (), .ok c.length, fun len => .ok (c.take (min len m))⟩

theorem ReadCalls.allowed_atMost (c : Bytes) {m : ℕ} (hm : 0 < m) :
    (ReadCalls.atMost c m).Allowed c where
  metadata n hn := by cases hn; rfl
  pread len bs hb := by
    cases hb
    rw [Reads, List.drop_zero]
    refine ⟨List.take_prefix_take_left (Nat.min_le_left _ _), fun he => ?_⟩
    rcases List.take_eq_nil_iff.mp he with hz | hc
    · have : len = 0 := by omega
      simp [this]
    · simp [hc]

/-! ### Two bytes -/

/-- `ErrorKind::WriteZero`. -/
def writeZero : IoError := 0

/-- A `write_all` that hands over what is left until that is nothing, and fails when nothing of it
is accepted. -/
def writeAllLoop : WriteAll (Except IoError Bytes) where
  start d := .ok d
  poll
    | .ok [] => .ready (.ok ())
    | .ok rest => .write rest
    | .error e => .ready (.error e)
  told
    | .ok rest, .ok n => if n = 0 then .error writeZero else .ok (rest.drop n)
    | .ok _, .error e => .error e
    | .error e, _ => .error e

theorem writeAllLoop_accepts {d bs : Bytes} {w : Except IoError Bytes}
    (h : writeAllLoop.Accepts d bs w) : ∀ rest, w = .ok rest → bs ++ rest = d := by
  induction h with
  | start =>
      rintro rest he
      cases he
      rfl
  | @told bs buf w n _ hp _ ih =>
      intro rest he
      cases w with
      | error e => cases hp
      | ok left =>
          cases left with
          | nil => cases hp
          | cons x l =>
              cases hp
              by_cases hn : n = 0
              · simp only [writeAllLoop, hn, if_true] at he
                cases he
              · simp only [writeAllLoop, hn, if_false] at he
                cases he
                rw [List.append_assoc, List.take_append_drop]
                exact ih _ rfl

theorem writeAllLoop_documented : writeAllLoop.Documented where
  entire d bs w h hp := by
    cases w with
    | error e => cases hp
    | ok rest =>
        cases rest with
        | cons x l => cases hp
        | nil => simpa using writeAllLoop_accepts h [] rfl
  error w buf e hp := by
    cases w with
    | error e' => cases hp
    | ok rest => rfl

/-- Two bytes, written by two calls of `pwrite`. -/
def writeRun : List FsWriteAct :=
  let j (k : ℕ) (r : Option (Except IoError ℕ)) : WriteJob := ⟨[1, 2], 0, k, r⟩
  [.create, .post [1, 2], .pwrite (j 0 none) 1, .pwrite (j 1 none) 1, .jobDone (j 2 none),
    .ready [1, 2] (j 2 (some (.ok 2))) 2, .finish (.ok ())]

/-- The file after that run. -/
def twoBytes : FsWrite (Except IoError Bytes) :=
  (fsWriteMachine writeAllLoop [9] [1, 2]).runList ⟨[9], 0, none, .ok [1, 2], .creating⟩ writeRun

theorem twoBytes_reachable : (fsWriteMachine writeAllLoop [9] [1, 2]).Reachable twoBytes :=
  .of_follows rfl (by decide +kernel)

theorem read_write_two_bytes :
    twoBytes.status = .done ∧ fsRead (.atMost [1, 2] 4) = .ok [1, 2] ∧
      (([1, 2] : Bytes) = [1, 2] ↔ (ReadCalls.atMost [1, 2] 4).Full twoBytes.content) := by
  have done : twoBytes.status = .done := by decide +kernel
  have content : twoBytes.content = [1, 2] := by decide +kernel
  have ha : (ReadCalls.atMost [1, 2] 4).Allowed twoBytes.content :=
    content ▸ ReadCalls.allowed_atMost [1, 2] (by decide)
  exact ⟨done, rfl, read_write_iff writeAllLoop_documented twoBytes_reachable done ha rfl⟩

/-- A `pread` that returns one byte of two: the read returns it as the whole content. -/
theorem short_read_truncates :
    (fsWriteMachine writeAllLoop [9] [1, 2]).Reachable twoBytes ∧ twoBytes.status = .done ∧
      (ReadCalls.atMost [1, 2] 1).Allowed twoBytes.content ∧
      fsRead (.atMost [1, 2] 1) = .ok [1] ∧ ([1] : Bytes) ≠ [1, 2] := by
  have content : twoBytes.content = [1, 2] := by decide +kernel
  have ha : (ReadCalls.atMost [1, 2] 1).Allowed twoBytes.content :=
    content ▸ ReadCalls.allowed_atMost [1, 2] (by decide)
  exact ⟨twoBytes_reachable, by decide +kernel, ha, rfl, by decide⟩

end RustAsync
