import RustBase.Async.FileWrite
import RustBase.Async.PollRead

/-!
# Async — `File`

A handle with a cursor: `poll_read`, `poll_write` and `poll_seek`.  Each of them keeps the job it
has posted to the filesystem pool in a slot of its own, where the next poll of the same kind finds
it.

* One call is made at a time, as the handle is borrowed for it.  A call is polled until it returns,
  or abandoned between two polls; its job stays in the slot.  A read may be polled with a buffer of
  another length each time.
* An iteration of the loop of a poll is a step, so that the pool may move a job on between any two
  of them.
* The file is touched by the jobs of the handle only.
* A descriptor that was opened in append mode writes at the end of the file, whatever the offset it
  is given (`appendMode`).
-/

namespace RustAsync
open Support

inductive SeekFrom where
  | start (n : ℕ)
  | end_ (delta : ℤ)
  | current (delta : ℤ)
  deriving DecidableEq

/-- `u64::MAX`. -/
def u64Max : ℕ := 18446744073709551615

/-- `u64::checked_add_signed`. -/
def checkedAddSigned (n : ℕ) (delta : ℤ) : Option ℕ :=
  if 0 ≤ n + delta ∧ n + delta ≤ u64Max then some (n + delta).toNat else none

theorem checkedAddSigned_eq {n p : ℕ} {delta : ℤ} (h : checkedAddSigned n delta = some p) :
    (p : ℤ) = n + delta := by
  unfold checkedAddSigned at h
  split at h
  next hb =>
    cases h
    exact Int.toNat_of_nonneg hb.1
  · cases h

/-- `ErrorKind::InvalidInput`, from `invalid_seek`. -/
def invalidSeek : IoError := 1

/-- The job of a `poll_seek` from the end. -/
structure SeekJob where
  delta : ℤ
  result : Option (Except IoError ℕ)
  deriving DecidableEq

structure File where
  pos : ℕ
  readBusy : Option ReadJob
  readLeftover : Bytes
  writeBusy : Option WriteJob
  seekBusy : Option SeekJob
  deriving DecidableEq

/-- A call, with what a poll of it is given: the length of the buffer, or the argument. -/
inductive FileCall where
  | read (len : ℕ)
  | write (buf : Bytes)
  | seek (arg : SeekFrom)
  deriving DecidableEq

/-- What a poll returns; of a read, the bytes it has put into the buffer. -/
inductive FilePoll where
  | pending
  | read (r : Except IoError Bytes)
  | write (r : Except IoError ℕ)
  | seek (r : Except IoError ℕ)
  deriving DecidableEq

def FilePoll.isReady : FilePoll → Bool
  | .pending => false
  | .read _ | .write _ | .seek _ => true

namespace File

/-- `File::from_std`. -/
def fromStd : File := ⟨0, none, [], none, none⟩

/-- An iteration of the loop of `poll_read`, and what it returns; `none` goes on. -/
def pollRead (f : File) (len : ℕ) : File × Option FilePoll :=
  if f.readLeftover ≠ [] then
    let n := min len f.readLeftover.length
    ({ f with readLeftover := f.readLeftover.drop n },
      some (.read (.ok (f.readLeftover.take n))))
  else
    match f.readBusy with
    | some j =>
        match j.result with
        | none => (f, some .pending)
        | some (.error e) => ({ f with readBusy := none }, some (.read (.error e)))
        | some (.ok bs) =>
            if bs = [] then ({ f with readBusy := none }, some (.read (.ok [])))
            else ({ f with pos := f.pos + bs.length, readBusy := none, readLeftover := bs }, none)
    | none => ({ f with readBusy := some ⟨f.pos, max len 1, none⟩ }, none)

/-- An iteration of the loop of `poll_write`. -/
def pollWrite (f : File) (buf : Bytes) : File × Option FilePoll :=
  match f.writeBusy with
  | some j =>
      match j.result with
      | none => (f, some .pending)
      | some (.error e) => ({ f with writeBusy := none }, some (.write (.error e)))
      | some (.ok n) => ({ f with pos := f.pos + n, writeBusy := none }, some (.write (.ok n)))
  | none => ({ f with writeBusy := some ⟨buf, f.pos, 0, none⟩ }, none)

/-- The cursor is set, and the bytes left over are dropped. -/
def seekTo (f : File) (p : ℕ) : File := { f with pos := p, readLeftover := [] }

/-- An iteration of the loop of `poll_seek`. -/
def pollSeek (f : File) (arg : SeekFrom) : File × Option FilePoll :=
  match f.seekBusy with
  | some j =>
      match j.result with
      | none => (f, some .pending)
      | some (.error e) => ({ f with seekBusy := none }, some (.seek (.error e)))
      | some (.ok p) => ({ f with seekBusy := none }.seekTo p, some (.seek (.ok p)))
  | none =>
      match arg with
      | .start n => (f.seekTo n, some (.seek (.ok n)))
      | .current delta =>
          match checkedAddSigned f.pos delta with
          | some p => (f.seekTo p, some (.seek (.ok p)))
          | none => (f, some (.seek (.error invalidSeek)))
      | .end_ delta => ({ f with seekBusy := some ⟨delta, none⟩ }, none)

def poll (f : File) : FileCall → File × Option FilePoll
  | .read len => f.pollRead len
  | .write buf => f.pollWrite buf
  | .seek arg => f.pollSeek arg

/-- What an iteration may do. -/
inductive Iterates (f : File) : FileCall → File → Option FilePoll → Prop where
  | deliver {len : ℕ} (hl : f.readLeftover ≠ []) :
      Iterates f (.read len)
        { f with readLeftover := f.readLeftover.drop (min len f.readLeftover.length) }
        (some (.read (.ok (f.readLeftover.take (min len f.readLeftover.length)))))
  | readPending {len : ℕ} {j : ReadJob} (hl : f.readLeftover = []) (hj : f.readBusy = some j)
      (hr : j.result = none) : Iterates f (.read len) f (some .pending)
  | readFails {len : ℕ} {j : ReadJob} {e : IoError} (hl : f.readLeftover = [])
      (hj : f.readBusy = some j) (hr : j.result = some (.error e)) :
      Iterates f (.read len) { f with readBusy := none } (some (.read (.error e)))
  | readEnd {len : ℕ} {j : ReadJob} (hl : f.readLeftover = []) (hj : f.readBusy = some j)
      (hr : j.result = some (.ok [])) :
      Iterates f (.read len) { f with readBusy := none } (some (.read (.ok [])))
  | readTake {len : ℕ} {j : ReadJob} {bs : Bytes} (hl : f.readLeftover = [])
      (hj : f.readBusy = some j) (hr : j.result = some (.ok bs)) (hb : bs ≠ []) :
      Iterates f (.read len)
        { f with pos := f.pos + bs.length, readBusy := none, readLeftover := bs } none
  | readPost {len : ℕ} (hl : f.readLeftover = []) (hj : f.readBusy = none) :
      Iterates f (.read len) { f with readBusy := some ⟨f.pos, max len 1, none⟩ } none
  | writePending {buf : Bytes} {j : WriteJob} (hj : f.writeBusy = some j) (hr : j.result = none) :
      Iterates f (.write buf) f (some .pending)
  | writeFails {buf : Bytes} {j : WriteJob} {e : IoError} (hj : f.writeBusy = some j)
      (hr : j.result = some (.error e)) :
      Iterates f (.write buf) { f with writeBusy := none } (some (.write (.error e)))
  | wrote {buf : Bytes} {j : WriteJob} {n : ℕ} (hj : f.writeBusy = some j)
      (hr : j.result = some (.ok n)) :
      Iterates f (.write buf) { f with pos := f.pos + n, writeBusy := none }
        (some (.write (.ok n)))
  | writePost {buf : Bytes} (hj : f.writeBusy = none) :
      Iterates f (.write buf) { f with writeBusy := some ⟨buf, f.pos, 0, none⟩ } none
  | seekPending {arg : SeekFrom} {j : SeekJob} (hj : f.seekBusy = some j)
      (hr : j.result = none) : Iterates f (.seek arg) f (some .pending)
  | seekFails {arg : SeekFrom} {j : SeekJob} {e : IoError} (hj : f.seekBusy = some j)
      (hr : j.result = some (.error e)) :
      Iterates f (.seek arg) { f with seekBusy := none } (some (.seek (.error e)))
  | sought {arg : SeekFrom} {j : SeekJob} {p : ℕ} (hj : f.seekBusy = some j)
      (hr : j.result = some (.ok p)) :
      Iterates f (.seek arg) ({ f with seekBusy := none }.seekTo p) (some (.seek (.ok p)))
  | seekStart {n : ℕ} (hj : f.seekBusy = none) :
      Iterates f (.seek (.start n)) (f.seekTo n) (some (.seek (.ok n)))
  | seekCurrent {delta : ℤ} {p : ℕ} (hj : f.seekBusy = none)
      (hp : checkedAddSigned f.pos delta = some p) :
      Iterates f (.seek (.current delta)) (f.seekTo p) (some (.seek (.ok p)))
  | seekInvalid {delta : ℤ} (hj : f.seekBusy = none)
      (hp : checkedAddSigned f.pos delta = none) :
      Iterates f (.seek (.current delta)) f (some (.seek (.error invalidSeek)))
  | seekPost {delta : ℤ} (hj : f.seekBusy = none) :
      Iterates f (.seek (.end_ delta)) { f with seekBusy := some ⟨delta, none⟩ } none

variable (f : File)

/-- With nothing left over, the loop of `poll_read` looks at its job. -/
theorem pollRead_of_empty (len : ℕ) (hl : f.readLeftover = []) : f.pollRead len =
    match f.readBusy with
    | some j =>
        match j.result with
        | none => (f, some .pending)
        | some (.error e) => ({ f with readBusy := none }, some (.read (.error e)))
        | some (.ok bs) =>
            if bs = [] then ({ f with readBusy := none }, some (.read (.ok [])))
            else ({ f with pos := f.pos + bs.length, readBusy := none, readLeftover := bs }, none)
    | none => ({ f with readBusy := some ⟨f.pos, max len 1, none⟩ }, none) :=
  if_neg (not_not.mpr hl)

theorem iterates_read (len : ℕ) :
    f.Iterates (.read len) (f.pollRead len).1 (f.pollRead len).2 := by
  by_cases hl : f.readLeftover = []
  · rw [f.pollRead_of_empty len hl]
    cases hj : f.readBusy with
    | none => exact .readPost hl hj
    | some j =>
        cases hr : j.result with
        | none =>
            simp only [hr]
            exact .readPending hl hj hr
        | some r =>
            cases r with
            | error e =>
                simp only [hr]
                exact .readFails hl hj hr
            | ok bs =>
                by_cases hb : bs = []
                · subst hb
                  simp only [hr, if_true]
                  exact .readEnd hl hj hr
                · simp only [hr, hb, if_false]
                  exact .readTake hl hj hr hb
  · simp only [pollRead, hl, ne_eq, not_false_eq_true, if_true]
    exact .deliver hl

theorem iterates_write (buf : Bytes) :
    f.Iterates (.write buf) (f.pollWrite buf).1 (f.pollWrite buf).2 := by
  cases hj : f.writeBusy with
  | none =>
      simp only [pollWrite, hj]
      exact .writePost hj
  | some j =>
      cases hr : j.result with
      | none =>
          simp only [pollWrite, hj, hr]
          exact .writePending hj hr
      | some r =>
          cases r with
          | error e =>
              simp only [pollWrite, hj, hr]
              exact .writeFails hj hr
          | ok n =>
              simp only [pollWrite, hj, hr]
              exact .wrote hj hr

theorem iterates_seek (arg : SeekFrom) :
    f.Iterates (.seek arg) (f.pollSeek arg).1 (f.pollSeek arg).2 := by
  cases hj : f.seekBusy with
  | none =>
      cases arg with
      | start n =>
          simp only [pollSeek, hj]
          exact .seekStart hj
      | end_ delta =>
          simp only [pollSeek, hj]
          exact .seekPost hj
      | current delta =>
          cases hp : checkedAddSigned f.pos delta with
          | none =>
              simp only [pollSeek, hj, hp]
              exact .seekInvalid hj hp
          | some p =>
              simp only [pollSeek, hj, hp]
              exact .seekCurrent hj hp
  | some j =>
      cases hr : j.result with
      | none =>
          simp only [pollSeek, hj, hr]
          exact .seekPending hj hr
      | some r =>
          cases r with
          | error e =>
              simp only [pollSeek, hj, hr]
              exact .seekFails hj hr
          | ok p =>
              simp only [pollSeek, hj, hr]
              exact .sought hj hr

/-- An iteration of a poll of another kind does not touch the slot of the writes. -/
theorem Iterates.writeBusy {f f' : File} {c : FileCall} {r : Option FilePoll}
    (h : f.Iterates c f' r) (hc : ∀ buf, c ≠ .write buf) : f'.writeBusy = f.writeBusy := by
  cases h with
  | writePending | writeFails | wrote | writePost => exact absurd rfl (hc _)
  | _ => rfl

theorem iterates : ∀ c, f.Iterates c (f.poll c).1 (f.poll c).2
  | .read len => f.iterates_read len
  | .write buf => f.iterates_write buf
  | .seek arg => f.iterates_seek arg

end File

/-! ### The handle in use -/

structure FileUse where
  file : File
  content : Bytes
  /-- the call that was begun and has neither returned nor been abandoned -/
  call : Option FileCall
  /-- a poll of it is under way -/
  polling : Bool
  /-- the descriptor was opened by `OpenOptions::append` -/
  appendMode : Bool
  deriving DecidableEq

inductive FileAct where
  /-- a call is made, and polled -/
  | begin_ (c : FileCall)
  /-- the call is polled again; the buffer of a read is of that length now -/
  | poll (len : ℕ)
  | abandon
  /-- an iteration of the loop of the poll -/
  | iterate
  | runRead (j : ReadJob) (r : Except IoError Bytes)
  /-- the loop of `write_all_at` writes `n` bytes -/
  | pwrite (j : WriteJob) (n : ℕ)
  | pwriteFails (j : WriteJob) (e : IoError)
  | writeDone (j : WriteJob)
  | runSeek (j : SeekJob)
  /-- the length is not to be had -/
  | seekFails (j : SeekJob) (e : IoError)
  deriving DecidableEq

/-- The call, polled with a buffer of another length. -/
def FileCall.withLen : FileCall → ℕ → FileCall
  | .read _, len => .read len
  | c, _ => c

/-- What the job of a seek from the end answers: `len.checked_add_signed(delta)`. -/
def SeekJob.answer (j : SeekJob) (content : Bytes) : Except IoError ℕ :=
  match checkedAddSigned content.length j.delta with
  | some p => .ok p
  | none => .error invalidSeek

theorem SeekJob.answer_eq (j : SeekJob) {content : Bytes} {p : ℕ}
    (h : j.answer content = .ok p) : (p : ℤ) = content.length + j.delta := by
  unfold SeekJob.answer at h
  cases hp : checkedAddSigned content.length j.delta with
  | none =>
      rw [hp] at h
      cases h
  | some q =>
      rw [hp] at h
      cases h
      exact checkedAddSigned_eq hp

namespace FileUse

/-- A handle that was opened without append mode. -/
def new (content : Bytes) : FileUse := ⟨.fromStd, content, none, false, false⟩

/-- A handle that was opened in append mode. -/
def newAppend (content : Bytes) : FileUse := { new content with appendMode := true }

/-- An iteration is over: the poll goes on, returns `Poll::Pending`, or ends the call. -/
def settle (s : FileUse) (x : File × Option FilePoll) : FileUse :=
  { s with
    file := x.1
    call := if x.2.any FilePoll.isReady then none else s.call
    polling := x.2.isNone }

def setRead (s : FileUse) (j : ReadJob) : FileUse :=
  { s with file := { s.file with readBusy := some j } }

def setWrite (s : FileUse) (j : WriteJob) : FileUse :=
  { s with file := { s.file with writeBusy := some j } }

def setSeek (s : FileUse) (j : SeekJob) : FileUse :=
  { s with file := { s.file with seekBusy := some j } }

/-- The loop of the poll under way is about to return `r` for the call `c`, or to go on. -/
def Polls (s : FileUse) (c : FileCall) (r : Option FilePoll) : Prop :=
  s.polling = true ∧ s.call = some c ∧ (s.file.poll c).2 = r

instance (s : FileUse) (c : FileCall) (r : Option FilePoll) : Decidable (s.Polls c r) :=
  inferInstanceAs (Decidable (_ ∧ _ ∧ _))

def Enabled (s : FileUse) : FileAct → Prop
  | .begin_ _ => s.call = none
  | .poll _ | .abandon => s.call.isSome = true ∧ s.polling = false
  | .iterate => s.call.isSome = true ∧ s.polling = true
  | .runRead j r =>
      s.file.readBusy = some j ∧ j.result = none ∧ (ReadSource.file s.content).Answers j r
  | .pwrite j n =>
      s.file.writeBusy = some j ∧ j.result = none ∧ 0 < n ∧ j.written + n ≤ j.data.length
  | .pwriteFails j _ =>
      s.file.writeBusy = some j ∧ j.result = none ∧ j.written < j.data.length
  | .writeDone j => s.file.writeBusy = some j ∧ j.result = none ∧ j.written = j.data.length
  | .runSeek j | .seekFails j _ => s.file.seekBusy = some j ∧ j.result = none

/-- The bytes the next `pwrite` of a job writes. -/
def chunk (j : WriteJob) (n : ℕ) : Bytes := (j.data.drop j.written).take n

/-- Where the next `pwrite` of a job writes. -/
def position (s : FileUse) (j : WriteJob) : ℕ :=
  if s.appendMode then s.content.length else j.pos + j.written

theorem position_of_plain {s : FileUse} (h : s.appendMode = false) (j : WriteJob) :
    s.position j = j.pos + j.written := by
  rw [position, h, if_neg Bool.false_ne_true]

theorem position_of_append {s : FileUse} (h : s.appendMode = true) (j : WriteJob) :
    s.position j = s.content.length :=
  if_pos h

theorem length_chunk {j : WriteJob} {n : ℕ} (h : j.written + n ≤ j.data.length) :
    (chunk j n).length = n := by
  rw [chunk, List.length_take, List.length_drop]
  omega

def next (s : FileUse) : FileAct → FileUse
  | .begin_ c => { s with call := some c, polling := true }
  | .poll len => { s with call := s.call.map (·.withLen len), polling := true }
  | .abandon => { s with call := none }
  | .iterate =>
      match s.call with
      | some c => s.settle (s.file.poll c)
      | none => s
  | .runRead j r => s.setRead { j with result := some r }
  | .pwrite j n =>
      { s with content := Support.pwrite s.content (s.position j) (chunk j n) }.setWrite
        { j with written := j.written + n }
  | .pwriteFails j e => s.setWrite { j with result := some (.error e) }
  | .writeDone j => s.setWrite { j with result := some (.ok j.data.length) }
  | .runSeek j => s.setSeek { j with result := some (j.answer s.content) }
  | .seekFails j e => s.setSeek { j with result := some (.error e) }

instance (s : FileUse) : ∀ a, Decidable (s.Enabled a)
  | .begin_ _ => inferInstanceAs (Decidable (_ = _))
  | .poll _ | .abandon | .iterate | .runSeek _ | .seekFails _ _ =>
      inferInstanceAs (Decidable (_ ∧ _))
  | .runRead _ _ | .pwriteFails _ _ | .writeDone _ => inferInstanceAs (Decidable (_ ∧ _ ∧ _))
  | .pwrite _ _ => inferInstanceAs (Decidable (_ ∧ _ ∧ _ ∧ _))

end FileUse

/-- The calls on a handle of a file whose content is `c₀`. -/
def fileMachine (c₀ : Bytes) : Machine FileUse FileAct where
  Init s := s = .new c₀ ∨ s = .newAppend c₀
  Enabled := FileUse.Enabled
  next := FileUse.next

instance (c₀ : Bytes) : ∀ s a, Decidable ((fileMachine c₀).Enabled s a) :=
  fun s a => inferInstanceAs (Decidable (s.Enabled a))

namespace FileUse

variable {s : FileUse} {c : FileCall}

/-- A step of the loop is one of the iterations. -/
theorem iterate_cases (h : s.call = some c) : ∃ f r, s.file.Iterates c f r ∧
    (s.file.poll c).2 = r ∧ s.next .iterate = s.settle (f, r) := by
  refine ⟨_, _, s.file.iterates c, rfl, ?_⟩
  simp only [next, h]

/-- After an iteration the call is the same, or has returned. -/
theorem call_settle (s : FileUse) (x : File × Option FilePoll) :
    (s.settle x).call = none ∨ (s.settle x).call = s.call := by
  unfold settle
  split
  · exact .inl rfl
  · exact .inr rfl

/-- The call under way was so before it was polled again. -/
theorem call_withLen {len : ℕ} (h : s.call.map (·.withLen len) = some c)
    (hc : ∀ n, c ≠ .read n) : s.call = some c := by
  obtain ⟨d, hd, e⟩ := Option.map_eq_some_iff.mp h
  cases d with
  | read n => exact absurd e.symm (hc len)
  | write buf =>
      rw [hd]
      exact congrArg some e
  | seek arg =>
      rw [hd]
      exact congrArg some e

end FileUse

end RustAsync
