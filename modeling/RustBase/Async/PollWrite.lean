import RustBase.Async.File

/-!
# Async — writes that answer for one another

`poll_write` of `File`, and of `Stdout` and `Stderr`, posts a job for the buffer it is given, and
returns the count of whatever job it finds in its slot.  A call that is abandoned leaves its job
there, and the next call, with another buffer, is answered by it.

A call that returns `Ok(n)` keeps the promise of `AsyncWrite` when `n` is at most the length of its
buffer and its first `n` bytes are what was written, at the cursor, each of them once.
**`write_kept_iff`**: it does exactly when its slot was empty when the call was made, or the job in
it was writing an initial part of this very buffer at this very cursor; on a `File` that was opened
in append mode, which writes at the end of the file, the file has ended at the cursor besides.
-/

namespace RustAsync
open Support

/-! ### The writes of a `File` -/

/-- What is recorded of the write calls. -/
structure WriteTrace where
  /-- the job that was in the slot when the last write call was made -/
  found : Option WriteJob
  /-- where the job in the slot writes its first byte: at the cursor, or in append mode at the end of
  the file, as they were when it was posted -/
  lands : ℕ
  /-- the bytes that the job in the slot has written, each with its position -/
  written : List (UInt8 × ℕ)
  deriving DecidableEq

/-- Where the bytes of a job go that is posted now. -/
def FileUse.landing (s : FileUse) : ℕ := if s.appendMode then s.content.length else s.file.pos

namespace WriteTrace

def record (s : FileUse) : FileAct → WriteTrace → WriteTrace
  | .begin_ (.write _), h => { h with found := s.file.writeBusy }
  | .iterate, h =>
      match s.call, s.file.writeBusy with
      | some (.write _), none => { h with lands := s.landing, written := [] }
      | _, _ => h
  | .pwrite j n, h =>
      { h with written := h.written ++ (FileUse.chunk j n).zipIdx (s.position j) }
  | _, h => h

/-- The job that was found writes an initial part of the buffer, and that or the job of the call
itself writes at the cursor. -/
def Own (h : WriteTrace) (buf : Bytes) (pos : ℕ) : Prop :=
  match h.found with
  | none => buf = [] ∨ h.lands = pos
  | some j => j.data <+: buf ∧ (j.data = [] ∨ h.lands = pos)

/-- The job that was found writes an initial part of the buffer, from a cursor that was the same. -/
def OwnPlain (h : WriteTrace) (buf : Bytes) (pos : ℕ) : Prop :=
  ∀ j, h.found = some j → j.data <+: buf ∧ (j.data = [] ∨ j.pos = pos)

/-- The first `n` bytes of the buffer were written at the cursor, each of them once. -/
def Kept (h : WriteTrace) (buf : Bytes) (pos n : ℕ) : Prop :=
  n ≤ buf.length ∧ h.written = (buf.take n).zipIdx pos

end WriteTrace

/-- The calls on a handle, with the record of its writes. -/
def fileWrites (c₀ : Bytes) : Machine (FileUse × WriteTrace) FileAct :=
  (fileMachine c₀).withHistory ⟨none, 0, []⟩ WriteTrace.record

instance (c₀ : Bytes) : ∀ x a, Decidable ((fileWrites c₀).Enabled x a) :=
  fun x a => inferInstanceAs (Decidable (x.1.Enabled a))

/-- The job has written the bytes that were recorded. -/
structure WriteJob.Recorded (j : WriteJob) (h : WriteTrace) : Prop where
  written : h.written = (j.data.take j.written).zipIdx h.lands
  le : j.written ≤ j.data.length
  ok : ∀ n, j.result = some (.ok n) → n = j.data.length ∧ j.written = j.data.length

namespace WriteJob.Recorded

variable {j : WriteJob} {h : WriteTrace} {n : ℕ}

theorem pwrite (hr : j.Recorded h) (hn : j.result = none) (hl : j.written + n ≤ j.data.length) :
    Recorded { j with written := j.written + n }
      { h with written := h.written ++ (FileUse.chunk j n).zipIdx (h.lands + j.written) } where
  written := by
    have length : (j.data.take j.written).length = j.written := List.length_take_of_le hr.le
    change h.written ++ _ = (j.data.take (j.written + n)).zipIdx h.lands
    rw [hr.written, List.take_add, List.zipIdx_append, length]
    rfl
  le := hl
  ok m hm := by
    rw [show j.result = some (.ok m) from hm] at hn
    cases hn

theorem setResult (hr : j.Recorded h) {r : Except IoError ℕ}
    (ok : ∀ n, r = .ok n → n = j.data.length ∧ j.written = j.data.length) :
    Recorded { j with result := some r } h where
  written := hr.written
  le := hr.le
  ok n hn := ok n (Option.some.inj hn)

end WriteJob.Recorded

namespace FileUse

variable {s : FileUse} {h : WriteTrace} {a : FileAct} {c : FileCall} {buf : Bytes}

/-- The job in the slot is the one that was found, or was posted by the write call under way; it
goes on where it began. -/
structure Writes (s : FileUse) (h : WriteTrace) : Prop where
  job : ∀ j, s.file.writeBusy = some j → j.Recorded h
  plain : s.appendMode = false → ∀ j, s.file.writeBusy = some j → j.pos = h.lands
  atEnd : s.appendMode = true → ∀ j, s.file.writeBusy = some j →
    s.content.length = h.lands + j.written
  found : ∀ buf j₀, s.call = some (.write buf) → h.found = some j₀ →
    ∃ j, s.file.writeBusy = some j ∧ j.data = j₀.data ∧ j.pos = j₀.pos
  posted : ∀ buf j, s.call = some (.write buf) → h.found = none → s.file.writeBusy = some j →
    j.data = buf ∧ j.pos = s.file.pos

namespace Writes

theorem position_eq (hw : s.Writes h) {j : WriteJob} (hj : s.file.writeBusy = some j) :
    s.position j = h.lands + j.written := by
  cases hm : s.appendMode with
  | false => rw [position_of_plain hm, hw.plain hm j hj]
  | true => rw [position_of_append hm, hw.atEnd hm j hj]

/-- A step that touches neither the slot nor, in a write call, the cursor. -/
theorem of_eq {s' : FileUse} (hw : s.Writes h) (hm : s'.appendMode = s.appendMode)
    (hd : s'.content = s.content) (hb : s'.file.writeBusy = s.file.writeBusy)
    (hc : ∀ buf, s'.call = some (.write buf) →
      s.call = some (.write buf) ∧ s'.file.pos = s.file.pos) : s'.Writes h where
  job j hj := hw.job j (hb ▸ hj)
  plain hp j hj := hw.plain (hm ▸ hp) j (hb ▸ hj)
  atEnd hp j hj := by
    rw [hd]
    exact hw.atEnd (hm ▸ hp) j (hb ▸ hj)
  found buf j₀ hcall hf := by
    rw [hb]
    exact hw.found buf j₀ (hc buf hcall).1 hf
  posted buf j hcall hf hj := by
    obtain ⟨hcall', hp⟩ := hc buf hcall
    rw [hp]
    exact hw.posted buf j hcall' hf (hb ▸ hj)

/-- The job in the slot goes on. -/
theorem setWrite {j k : WriteJob} {d : Bytes} {h' : WriteTrace} (hw : s.Writes h)
    (hj : s.file.writeBusy = some j) (hd : k.data = j.data) (hp : k.pos = j.pos)
    (hf : h'.found = h.found) (hl : h'.lands = h.lands)
    (he : s.appendMode = true → d.length = h.lands + k.written) (hr : k.Recorded h') :
    ({ s with content := d }.setWrite k).Writes h' where
  job i hi := by
    cases hi
    exact hr
  plain hm i hi := by
    cases hi
    rw [hp, hl]
    exact hw.plain hm j hj
  atEnd hm i hi := by
    cases hi
    rw [hl]
    exact he hm
  found buf j₀ hcall hf₀ := by
    obtain ⟨i, hi, hid, hip⟩ := hw.found buf j₀ hcall (hf ▸ hf₀)
    rw [hj] at hi
    cases hi
    exact ⟨k, rfl, hd.trans hid, hp.trans hip⟩
  posted buf i hcall hf₀ hi := by
    cases hi
    obtain ⟨hid, hip⟩ := hw.posted buf j hcall (hf ▸ hf₀) hj
    exact ⟨hd.trans hid, hp.trans hip⟩

theorem begin_ (hw : s.Writes h) (c : FileCall) :
    (s.next (.begin_ c)).Writes (WriteTrace.record s (.begin_ c) h) := by
  cases c with
  | read len => exact hw.of_eq rfl rfl rfl nofun
  | seek arg => exact hw.of_eq rfl rfl rfl nofun
  | write buf =>
      refine ⟨fun j hj => ?_, hw.plain, hw.atEnd, fun buf' j₀ _ hf => ⟨j₀, hf, rfl, rfl⟩,
        fun buf' j _ hf hj => ?_⟩
      · obtain ⟨written, le, ok⟩ := hw.job j hj
        exact ⟨written, le, ok⟩
      · have hn : s.file.writeBusy = none := hf
        rw [show s.file.writeBusy = some j from hj] at hn
        cases hn

theorem iterate_write {f : File} {r : Option FilePoll} (hw : s.Writes h)
    (hc : s.call = some (.write buf)) (step : s.file.Iterates (.write buf) f r) :
    (s.settle (f, r)).Writes (WriteTrace.record s .iterate h) := by
  cases step with
  | writePending hj hr =>
      have same : WriteTrace.record s .iterate h = h := by simp [WriteTrace.record, hc, hj]
      rw [same]
      exact hw.of_eq rfl rfl rfl fun _ hcall => ⟨hcall, rfl⟩
  | writeFails hj hr => exact ⟨nofun, nofun, nofun, nofun, nofun⟩
  | wrote hj hr => exact ⟨nofun, nofun, nofun, nofun, nofun⟩
  | writePost hj =>
      have cleared : WriteTrace.record s .iterate h =
          { h with lands := s.landing, written := [] } := by
        simp [WriteTrace.record, hc, hj]
      rw [cleared]
      refine ⟨fun j hi => ?_, fun hm j hi => ?_, fun hm j hi => ?_, fun buf' j₀ _ hf => ?_,
        fun buf' j hcall _ hi => ?_⟩
      · cases hi
        exact ⟨rfl, Nat.zero_le _, nofun⟩
      · cases hi
        have plain : s.appendMode = false := hm
        simp [landing, plain]
      · cases hi
        exact (if_pos (show s.appendMode = true from hm)).symm
      · -- the slot of a call that has found a job is not empty
        obtain ⟨j, hi, -⟩ := hw.found buf j₀ hc hf
        rw [hj] at hi
        cases hi
      · cases hi
        have e : some (FileCall.write buf) = some (.write buf') := hc.symm.trans hcall
        cases e
        exact ⟨rfl, rfl⟩

/-- An iteration of a poll of another kind. -/
theorem iterate_other {f : File} {r : Option FilePoll} (hw : s.Writes h) (hc : s.call = some c)
    (hn : ∀ buf, c ≠ .write buf) (step : s.file.Iterates c f r) :
    (s.settle (f, r)).Writes (WriteTrace.record s .iterate h) := by
  have same : WriteTrace.record s .iterate h = h := by
    cases c with
    | write buf => exact absurd rfl (hn buf)
    | read _ | seek _ => simp [WriteTrace.record, hc]
  rw [same]
  refine hw.of_eq rfl rfl (step.writeBusy hn) fun buf hcall => ?_
  rcases s.call_settle (f, r) with e | e
  · rw [e] at hcall
    cases hcall
  · rw [e, hc] at hcall
    exact absurd (Option.some.inj hcall) (hn buf)

theorem iterate (hw : s.Writes h) (hc : s.call = some c) :
    (s.next .iterate).Writes (WriteTrace.record s .iterate h) := by
  obtain ⟨f, r, step, -, e⟩ := iterate_cases hc
  rw [e]
  cases c with
  | write buf => exact hw.iterate_write hc step
  | read _ | seek _ => exact hw.iterate_other hc nofun step

/-- The job writes the bytes that come next, after those it has written. -/
theorem pwrite {j : WriteJob} {n : ℕ} (hw : s.Writes h) (hj : s.file.writeBusy = some j)
    (hr : j.result = none) (hl : j.written + n ≤ j.data.length) :
    (s.next (.pwrite j n)).Writes (WriteTrace.record s (.pwrite j n) h) := by
  have goes := hw.position_eq hj
  refine hw.setWrite hj rfl rfl rfl rfl (fun hm => ?_) ?_
  · have at_end := hw.atEnd hm j hj
    change (Support.pwrite _ _ _).length = h.lands + (j.written + n)
    rw [position_of_append hm, pwrite_length, List.length_append, length_chunk hl, at_end,
      Nat.add_assoc]
  · simp only [WriteTrace.record]
    rw [goes]
    exact (hw.job j hj).pwrite hr hl

theorem next (hw : s.Writes h) (ha : s.Enabled a) :
    (s.next a).Writes (WriteTrace.record s a h) := by
  cases a with
  | begin_ c => exact hw.begin_ c
  | poll len =>
      exact hw.of_eq rfl rfl rfl fun buf hcall => ⟨call_withLen hcall nofun, rfl⟩
  | abandon => exact hw.of_eq rfl rfl rfl nofun
  | iterate =>
      obtain ⟨c, hc⟩ := Option.isSome_iff_exists.mp ha.1
      exact hw.iterate hc
  | runRead j r => exact hw.of_eq rfl rfl rfl fun _ hcall => ⟨hcall, rfl⟩
  | pwrite j n => exact hw.pwrite ha.1 ha.2.1 ha.2.2.2
  | pwriteFails j e =>
      exact hw.setWrite (d := s.content) ha.1 rfl rfl rfl rfl (fun hm => hw.atEnd hm j ha.1)
        ((hw.job j ha.1).setResult nofun)
  | writeDone j =>
      obtain ⟨hj, -, hl⟩ := ha
      refine hw.setWrite (d := s.content) hj rfl rfl rfl rfl (fun hm => hw.atEnd hm j hj)
        ((hw.job j hj).setResult fun n hn => ?_)
      cases hn
      exact ⟨rfl, hl⟩
  | runSeek j => exact hw.of_eq rfl rfl rfl fun _ hcall => ⟨hcall, rfl⟩
  | seekFails j e => exact hw.of_eq rfl rfl rfl fun _ hcall => ⟨hcall, rfl⟩

end Writes

end FileUse

/-- The bytes of two lists, each with its position, are the same when the lists are, and begin at
the same position. -/
theorem zipIdx_eq_iff {α : Type*} {l m : List α} {i k : ℕ} :
    l.zipIdx i = m.zipIdx k ↔ l = m ∧ (l = [] ∨ i = k) := by
  constructor
  · intro h
    have hl : l = m := by simpa using congrArg (List.map Prod.fst) h
    subst hl
    cases l with
    | nil => exact ⟨rfl, .inl rfl⟩
    | cons x l =>
        rw [List.zipIdx_cons, List.zipIdx_cons] at h
        exact ⟨rfl, .inr (congrArg Prod.snd (List.cons.inj h).1)⟩
  · rintro ⟨rfl, rfl | rfl⟩ <;> rfl

theorem File.job_of_wrote {f : File} {buf : Bytes} {n : ℕ}
    (h : (f.poll (.write buf)).2 = some (.write (.ok n))) :
    ∃ j, f.writeBusy = some j ∧ j.result = some (.ok n) := by
  have step := f.iterates (.write buf)
  rw [h] at step
  generalize (f.poll (.write buf)).1 = f' at step
  cases step with
  | wrote hj hr => exact ⟨_, hj, hr⟩

/-- What a call returns is what the job in its slot has written. -/
theorem FileUse.Writes.kept_iff {s : FileUse} {h : WriteTrace} {buf : Bytes} {n : ℕ}
    (hw : s.Writes h) (hp : s.Polls (.write buf) (some (.write (.ok n)))) :
    h.Kept buf s.file.pos n ↔ h.Own buf s.file.pos := by
  obtain ⟨-, hc, hr⟩ := hp
  obtain ⟨j, hj, hres⟩ := File.job_of_wrote hr
  have recorded := hw.job j hj
  obtain ⟨rfl, hall⟩ := recorded.ok n hres
  have written : h.written = j.data.zipIdx h.lands := by
    rw [recorded.written, hall, List.take_length]
  have kept : h.Kept buf s.file.pos j.data.length ↔
      j.data <+: buf ∧ (j.data = [] ∨ h.lands = s.file.pos) := by
    unfold WriteTrace.Kept
    rw [written, zipIdx_eq_iff, ← List.prefix_iff_eq_take]
    exact ⟨fun ⟨_, h⟩ => h, fun h => ⟨h.1.length_le, h⟩⟩
  rw [kept, WriteTrace.Own]
  cases hf : h.found with
  | none =>
      obtain ⟨rfl, -⟩ := hw.posted buf j hc hf hj
      exact and_iff_right (List.prefix_refl _)
  | some j₀ =>
      obtain ⟨i, hi, hd, -⟩ := hw.found buf j₀ hc hf
      rw [hj] at hi
      cases hi
      rw [hd]

/-- Without append mode a job writes where the cursor was. -/
theorem FileUse.Writes.own_iff {s : FileUse} {h : WriteTrace} {buf : Bytes} {n : ℕ}
    (hw : s.Writes h) (hm : s.appendMode = false)
    (hp : s.Polls (.write buf) (some (.write (.ok n)))) :
    h.Own buf s.file.pos ↔ h.OwnPlain buf s.file.pos := by
  obtain ⟨-, hc, hr⟩ := hp
  obtain ⟨j, hj, -⟩ := File.job_of_wrote hr
  have lands := hw.plain hm j hj
  rw [WriteTrace.Own, WriteTrace.OwnPlain]
  cases hf : h.found with
  | none =>
      obtain ⟨-, hp⟩ := hw.posted buf j hc hf hj
      exact iff_of_true (.inr (lands.symm.trans hp)) nofun
  | some j₀ =>
      obtain ⟨i, hi, -, hp⟩ := hw.found buf j₀ hc hf
      rw [hj] at hi
      cases hi
      rw [← lands, hp]
      refine ⟨fun ho k hk => ?_, fun ho => ho j₀ rfl⟩
      cases hk
      exact ho

theorem file_writes {c₀ : Bytes} {x : FileUse × WriteTrace} (h : (fileWrites c₀).Reachable x) :
    x.1.Writes x.2 := by
  refine h.invariant (I := fun x => x.1.Writes x.2) ?_ fun _ _ _ hi _ ha => hi.next ha
  rintro ⟨s, h⟩ ⟨rfl | rfl, rfl⟩ <;> exact ⟨nofun, nofun, nofun, nofun, nofun⟩

/-! ### The standard streams -/

inductive Sink where
  | stdout
  | stderr
  deriving DecidableEq

/-- The job of a `poll_write`, an `Offload`: it is posted when it is first polled. -/
structure SinkJob where
  data : Bytes
  posted : Bool
  /-- the bytes that `write_all` has written -/
  written : ℕ
  result : Option (Except IoError ℕ)
  deriving DecidableEq

/-- `Stdout` and `Stderr`. -/
structure Writer where
  sink : Sink
  writeBusy : Option SinkJob
  deriving DecidableEq

inductive SinkPoll where
  | pending
  | ready (r : Except IoError ℕ)
  deriving DecidableEq

namespace Writer

/-- An iteration of the loop of `poll_write`, and what it returns; `none` goes on.  The poll of a
job that was not polled before posts it, and looks at its result after that. -/
def pollWrite (w : Writer) (buf : Bytes) : Writer × Option SinkPoll :=
  match w.writeBusy with
  | some j =>
      match j.posted, j.result with
      | false, _ => ({ w with writeBusy := some { j with posted := true } }, none)
      | true, none => (w, some .pending)
      | true, some r => ({ w with writeBusy := none }, some (.ready r))
  | none => ({ w with writeBusy := some ⟨buf, false, 0, none⟩ }, none)

/-- What an iteration may do. -/
inductive Iterates (w : Writer) (buf : Bytes) : Writer → Option SinkPoll → Prop where
  | offload (hj : w.writeBusy = none) :
      Iterates w buf { w with writeBusy := some ⟨buf, false, 0, none⟩ } none
  | post {j : SinkJob} (hj : w.writeBusy = some j) :
      Iterates w buf { w with writeBusy := some { j with posted := true } } none
  | pending : Iterates w buf w (some .pending)
  | ready {j : SinkJob} {r : Except IoError ℕ} (hj : w.writeBusy = some j)
      (hr : j.result = some r) :
      Iterates w buf { w with writeBusy := none } (some (.ready r))

theorem iterates (w : Writer) (buf : Bytes) :
    w.Iterates buf (w.pollWrite buf).1 (w.pollWrite buf).2 := by
  cases hj : w.writeBusy with
  | none =>
      simp only [pollWrite, hj]
      exact .offload hj
  | some j =>
      cases hp : j.posted with
      | false =>
          simp only [pollWrite, hj, hp]
          exact .post hj
      | true =>
          cases hr : j.result with
          | none =>
              simp only [pollWrite, hj, hp, hr]
              exact .pending
          | some r =>
              simp only [pollWrite, hj, hp, hr]
              exact .ready hj hr

end Writer

structure WriterUse where
  writer : Writer
  /-- the buffer of the call that was made and has neither returned nor been abandoned -/
  call : Option Bytes
  /-- a poll of it is under way -/
  polling : Bool
  deriving DecidableEq

inductive WriterAct where
  | write (buf : Bytes)
  /-- the call is polled again -/
  | poll
  | abandon
  /-- an iteration of the loop of the poll -/
  | iterate
  /-- the loop of `write_all` writes `n` bytes -/
  | transfer (j : SinkJob) (n : ℕ)
  | fails (j : SinkJob) (e : IoError)
  | done (j : SinkJob)
  deriving DecidableEq

namespace WriterUse

def new (sink : Sink) : WriterUse := ⟨⟨sink, none⟩, none, false⟩

def setJob (s : WriterUse) (j : SinkJob) : WriterUse :=
  { s with writer := { s.writer with writeBusy := some j } }

/-- An iteration is over: the poll goes on, returns `Poll::Pending`, or ends the call. -/
def settle (s : WriterUse) (x : Writer × Option SinkPoll) : WriterUse where
  writer := x.1
  call :=
    match x.2 with
    | some (.ready _) => none
    | some .pending | none => s.call
  polling := x.2.isNone

/-- The poll under way is about to return `r` for a call with the buffer `buf`. -/
def Polls (s : WriterUse) (buf : Bytes) (r : SinkPoll) : Prop :=
  s.polling = true ∧ s.call = some buf ∧ (s.writer.pollWrite buf).2 = some r

def Enabled (s : WriterUse) : WriterAct → Prop
  | .write _ => s.call = none
  | .poll | .abandon => s.call.isSome = true ∧ s.polling = false
  | .iterate => s.call.isSome = true ∧ s.polling = true
  | .transfer j n =>
      s.writer.writeBusy = some j ∧ j.posted = true ∧ j.result = none ∧ 0 < n ∧
        j.written + n ≤ j.data.length
  | .fails j _ =>
      s.writer.writeBusy = some j ∧ j.posted = true ∧ j.result = none ∧ j.written < j.data.length
  | .done j =>
      s.writer.writeBusy = some j ∧ j.posted = true ∧ j.result = none ∧ j.written = j.data.length

def next (s : WriterUse) : WriterAct → WriterUse
  | .write buf => { s with call := some buf, polling := true }
  | .poll => { s with polling := true }
  | .abandon => { s with call := none }
  | .iterate =>
      match s.call with
      | some buf => s.settle (s.writer.pollWrite buf)
      | none => s
  | .transfer j n => s.setJob { j with written := j.written + n }
  | .fails j e => s.setJob { j with result := some (.error e) }
  | .done j => s.setJob { j with result := some (.ok j.data.length) }

instance (s : WriterUse) : ∀ a, Decidable (s.Enabled a)
  | .write _ => inferInstanceAs (Decidable (_ = _))
  | .poll | .abandon | .iterate => inferInstanceAs (Decidable (_ ∧ _))
  | .transfer _ _ => inferInstanceAs (Decidable (_ ∧ _ ∧ _ ∧ _ ∧ _))
  | .fails _ _ | .done _ => inferInstanceAs (Decidable (_ ∧ _ ∧ _ ∧ _))

end WriterUse

/-- What is recorded of the calls. -/
structure SinkTrace where
  /-- the job that was in the slot when the last call was made -/
  found : Option SinkJob
  /-- the bytes that the job in the slot has written -/
  written : Bytes
  deriving DecidableEq

namespace SinkTrace

def record (s : WriterUse) : WriterAct → SinkTrace → SinkTrace
  | .write _, h => { h with found := s.writer.writeBusy }
  | .iterate, h =>
      match s.writer.writeBusy with
      | none => { h with written := [] }
      | some _ => h
  | .transfer j n, h => { h with written := h.written ++ (j.data.drop j.written).take n }
  | _, h => h

/-- The job that was found writes an initial part of the buffer. -/
def Own (h : SinkTrace) (buf : Bytes) : Prop := ∀ j, h.found = some j → j.data <+: buf

/-- The first `n` bytes of the buffer were written, each of them once. -/
def Kept (h : SinkTrace) (buf : Bytes) (n : ℕ) : Prop :=
  n ≤ buf.length ∧ h.written = buf.take n

theorem own_iff {h : SinkTrace} {j : SinkJob} (hf : h.found = some j) (buf : Bytes) :
    h.Own buf ↔ j.data <+: buf := by
  refine ⟨fun ho => ho j hf, fun ho i hi => ?_⟩
  obtain rfl := Option.some.inj (hf.symm.trans hi)
  exact ho

end SinkTrace

def writerMachine (sink : Sink) : Machine WriterUse WriterAct where
  Init s := s = .new sink
  Enabled := WriterUse.Enabled
  next := WriterUse.next

/-- The calls on a standard stream, with their record. -/
def sinkWrites (sink : Sink) : Machine (WriterUse × SinkTrace) WriterAct :=
  (writerMachine sink).withHistory ⟨none, []⟩ SinkTrace.record

instance (sink : Sink) : ∀ x a, Decidable ((sinkWrites sink).Enabled x a) :=
  fun x a => inferInstanceAs (Decidable (x.1.Enabled a))

/-- The job has written the bytes that were recorded. -/
structure SinkJob.Recorded (j : SinkJob) (h : SinkTrace) : Prop where
  written : h.written = j.data.take j.written
  ok : ∀ n, j.result = some (.ok n) → n = j.data.length ∧ j.written = j.data.length

namespace WriterUse

variable {s : WriterUse} {h : SinkTrace} {a : WriterAct} {buf : Bytes}

/-- The job in the slot is the one that was found, or was made by the call under way. -/
structure Writes (s : WriterUse) (h : SinkTrace) : Prop where
  job : ∀ j, s.writer.writeBusy = some j → j.Recorded h
  found : ∀ buf j₀, s.call = some buf → h.found = some j₀ →
    ∃ j, s.writer.writeBusy = some j ∧ j.data = j₀.data
  made : ∀ buf j, s.call = some buf → h.found = none → s.writer.writeBusy = some j → j.data = buf

namespace Writes

/-- The job in the slot goes on. -/
theorem setJob {j k : SinkJob} {h' : SinkTrace} (hw : s.Writes h)
    (hj : s.writer.writeBusy = some j) (hd : k.data = j.data) (hf : h'.found = h.found)
    (hr : k.Recorded h') : (s.setJob k).Writes h' where
  job i hi := by
    cases hi
    exact hr
  found buf j₀ hcall hf₀ := by
    obtain ⟨i, hi, hid⟩ := hw.found buf j₀ hcall (hf ▸ hf₀)
    rw [hj] at hi
    cases hi
    exact ⟨k, rfl, hd.trans hid⟩
  made buf i hcall hf₀ hi := by
    cases hi
    exact hd.trans (hw.made buf j hcall (hf ▸ hf₀) hj)

theorem iterate (hw : s.Writes h) (hc : s.call = some buf) :
    (s.next .iterate).Writes (SinkTrace.record s .iterate h) := by
  have step := s.writer.iterates buf
  have e : s.next .iterate = s.settle (s.writer.pollWrite buf) := by simp only [next, hc]
  rw [e]
  generalize hx : s.writer.pollWrite buf = x at step
  obtain ⟨w, r⟩ := x
  dsimp only at step
  cases step with
  | offload hj =>
      have cleared : SinkTrace.record s .iterate h = { h with written := [] } := by
        simp only [SinkTrace.record, hj]
      rw [cleared]
      refine ⟨fun j hi => ?_, fun buf' j₀ hcall hf => ?_, fun buf' j hcall _ hi => ?_⟩
      · cases hi
        exact ⟨rfl, nofun⟩
      · obtain ⟨j, hi, -⟩ := hw.found buf' j₀ hcall hf
        rw [hj] at hi
        cases hi
      · cases hi
        exact Option.some.inj (hc.symm.trans hcall)
  | @post j hj =>
      have same : SinkTrace.record s .iterate h = h := by simp only [SinkTrace.record, hj]
      have posted : SinkJob.Recorded { j with posted := true } h :=
        ⟨(hw.job j hj).written, (hw.job j hj).ok⟩
      rw [same]
      obtain ⟨job, found, made⟩ := hw.setJob (k := { j with posted := true }) hj rfl rfl posted
      exact ⟨job, found, made⟩
  | pending =>
      have same : SinkTrace.record s .iterate h = h := by
        cases hj : s.writer.writeBusy with
        | none => simp [Writer.pollWrite, hj] at hx
        | some j => simp only [SinkTrace.record, hj]
      rw [same]
      exact ⟨hw.job, hw.found, hw.made⟩
  | ready hj hr => exact ⟨nofun, nofun, nofun⟩

theorem next (hw : s.Writes h) (ha : s.Enabled a) :
    (s.next a).Writes (SinkTrace.record s a h) := by
  cases a with
  | write buf =>
      refine ⟨fun j hj => ?_, fun _ j₀ _ hf => ⟨j₀, hf, rfl⟩, fun _ j _ hf hj => ?_⟩
      · obtain ⟨written, ok⟩ := hw.job j hj
        exact ⟨written, ok⟩
      · have hn : s.writer.writeBusy = none := hf
        rw [show s.writer.writeBusy = some j from hj] at hn
        cases hn
  | poll => exact ⟨hw.job, hw.found, hw.made⟩
  | abandon => exact ⟨hw.job, nofun, nofun⟩
  | iterate =>
      obtain ⟨buf, hc⟩ := Option.isSome_iff_exists.mp ha.1
      exact hw.iterate hc
  | transfer j n =>
      obtain ⟨hj, -, hr, -⟩ := ha
      refine hw.setJob hj rfl rfl ⟨?_, fun m hm => ?_⟩
      · change h.written ++ _ = j.data.take (j.written + n)
        rw [(hw.job j hj).written, List.take_add]
      · rw [show j.result = some (.ok m) from hm] at hr
        cases hr
  | fails j e => exact hw.setJob ha.1 rfl rfl ⟨(hw.job j ha.1).written, nofun⟩
  | done j =>
      obtain ⟨hj, -, -, hl⟩ := ha
      refine hw.setJob hj rfl rfl ⟨(hw.job j hj).written, fun n hn => ?_⟩
      cases hn
      exact ⟨rfl, hl⟩

theorem kept_iff {n : ℕ} (hw : s.Writes h) (hp : s.Polls buf (.ready (.ok n))) :
    h.Kept buf n ↔ h.Own buf := by
  obtain ⟨-, hc, hr⟩ := hp
  obtain ⟨j, hj, hres⟩ : ∃ j, s.writer.writeBusy = some j ∧ j.result = some (.ok n) := by
    have step := s.writer.iterates buf
    rw [hr] at step
    generalize (s.writer.pollWrite buf).1 = w at step
    cases step with
    | ready hj hres => exact ⟨_, hj, hres⟩
  have recorded := hw.job j hj
  obtain ⟨rfl, hall⟩ := recorded.ok n hres
  have written : h.written = j.data := by rw [recorded.written, hall, List.take_length]
  have kept : h.Kept buf j.data.length ↔ j.data <+: buf := by
    unfold SinkTrace.Kept
    rw [written, ← List.prefix_iff_eq_take]
    exact ⟨fun ⟨_, h⟩ => h, fun h => ⟨h.length_le, h⟩⟩
  rw [kept]
  cases hf : h.found with
  | none =>
      rw [hw.made buf j hc hf hj]
      refine iff_of_true (List.prefix_refl _) fun i hi => ?_
      rw [hf] at hi
      cases hi
  | some j₀ =>
      obtain ⟨i, hi, hd⟩ := hw.found buf j₀ hc hf
      rw [hj] at hi
      cases hi
      rw [hd]
      exact (SinkTrace.own_iff hf buf).symm

end Writes

end WriterUse

theorem sink_writes {sink : Sink} {x : WriterUse × SinkTrace} (h : (sinkWrites sink).Reachable x) :
    x.1.Writes x.2 := by
  refine h.invariant (I := fun x => x.1.Writes x.2) ?_ fun _ _ _ hi _ ha => hi.next ha
  rintro ⟨s, h⟩ ⟨rfl, rfl⟩
  exact ⟨nofun, nofun, nofun⟩

/-! ### When a write is kept -/

/-- **A write that returns `Ok(n)` has written the first `n` bytes of its buffer**, at the cursor
and each of them once, exactly when no job was in its slot at the call, or one that writes an
initial part of this buffer there; on a `File` in append mode, if besides the file ended at the
cursor when the job was posted, or nothing is written. -/
theorem write_kept_iff {c₀ : Bytes} {sink : Sink} {x : FileUse × WriteTrace}
    {y : WriterUse × SinkTrace} (hx : (fileWrites c₀).Reachable x)
    (hy : (sinkWrites sink).Reachable y) (buf : Bytes) (n : ℕ) :
    (x.1.Polls (.write buf) (some (.write (.ok n))) →
      (x.2.Kept buf x.1.file.pos n ↔ x.2.Own buf x.1.file.pos) ∧
      (x.1.appendMode = false → (x.2.Own buf x.1.file.pos ↔ x.2.OwnPlain buf x.1.file.pos))) ∧
    (y.1.Polls buf (.ready (.ok n)) → (y.2.Kept buf n ↔ y.2.Own buf)) :=
  ⟨fun hp => ⟨(file_writes hx).kept_iff hp, fun hm => (file_writes hx).own_iff hm hp⟩,
    (sink_writes hy).kept_iff⟩

/-- A write of two bytes is abandoned, its job ends, and `buf` is written. -/
def fileRewriteRun (buf : Bytes) : List FileAct :=
  [.begin_ (.write [1, 2]), .iterate, .iterate, .abandon, .pwrite ⟨[1, 2], 0, 0, none⟩ 2,
    .writeDone ⟨[1, 2], 0, 2, none⟩, .begin_ (.write buf)]

def sinkRewriteRun (buf : Bytes) : List WriterAct :=
  [.write [1, 2], .iterate, .iterate, .iterate, .abandon, .transfer ⟨[1, 2], true, 0, none⟩ 2,
    .done ⟨[1, 2], true, 2, none⟩, .write buf]

def fileRewrite (buf : Bytes) : FileUse × WriteTrace :=
  (fileWrites [7]).runList (.new [7], ⟨none, 0, []⟩) (fileRewriteRun buf)

def sinkRewrite (buf : Bytes) : WriterUse × SinkTrace :=
  (sinkWrites .stdout).runList (.new .stdout, ⟨none, []⟩) (sinkRewriteRun buf)

instance (s : WriterUse) (buf : Bytes) (r : SinkPoll) : Decidable (s.Polls buf r) :=
  inferInstanceAs (Decidable (_ ∧ _ ∧ _))

instance (h : WriteTrace) (buf : Bytes) (pos n : ℕ) : Decidable (h.Kept buf pos n) :=
  inferInstanceAs (Decidable (_ ∧ _))

instance (h : WriteTrace) (buf : Bytes) (pos : ℕ) : Decidable (h.Own buf pos) :=
  match hf : h.found with
  | none => decidable_of_iff (buf = [] ∨ h.lands = pos) (by rw [WriteTrace.Own, hf])
  | some j =>
      decidable_of_iff (j.data <+: buf ∧ (j.data = [] ∨ h.lands = pos))
        (by rw [WriteTrace.Own, hf])

instance (h : SinkTrace) (buf : Bytes) (n : ℕ) : Decidable (h.Kept buf n) :=
  inferInstanceAs (Decidable (_ ∧ _))

/-- A handle in append mode goes to `pos`, and writes a byte. -/
def appendWrite (pos : ℕ) : FileUse × WriteTrace :=
  (fileWrites [7]).runList (.newAppend [7], ⟨none, 0, []⟩)
    [.begin_ (.seek (.start pos)), .iterate, .begin_ (.write [9]), .iterate,
      .pwrite ⟨[9], pos, 0, none⟩ 1, .writeDone ⟨[9], pos, 1, none⟩]

/-- What is written after the abandoned write begins with its bytes: they are counted, and the rest
is left to the caller.  In append mode a byte is written at the cursor when that is at the end. -/
theorem rewrite_kept :
    (fileRewrite [1, 2, 3]).2.Kept [1, 2, 3] 0 2 ∧ (appendWrite 1).2.Kept [9] 1 1 ∧
      (sinkRewrite [1, 2, 3]).2.Kept [1, 2, 3] 2 := by
  have file : (fileWrites [7]).Reachable (fileRewrite [1, 2, 3]) :=
    .of_follows ⟨.inl rfl, rfl⟩ (by decide +kernel)
  have append : (fileWrites [7]).Reachable (appendWrite 1) :=
    .of_follows ⟨.inr rfl, rfl⟩ (by decide +kernel)
  have sink : (sinkWrites .stdout).Reachable (sinkRewrite [1, 2, 3]) :=
    .of_follows ⟨rfl, rfl⟩ (by decide +kernel)
  obtain ⟨onFile, onSink⟩ := write_kept_iff file sink [1, 2, 3] 2
  obtain ⟨onAppend, -⟩ := write_kept_iff append sink [9] 1
  refine ⟨(onFile (by decide +kernel)).1.mpr ?_, (onAppend (by decide +kernel)).1.mpr ?_,
    (onSink (by decide +kernel)).mpr ?_⟩
  · decide +kernel
  · decide +kernel
  · have found : (sinkRewrite [1, 2, 3]).2.found = some ⟨[1, 2], true, 2, some (.ok 2)⟩ := by
      decide +kernel
    exact (SinkTrace.own_iff found ..).mpr (by decide)

/-- One byte is written after the abandoned write: the call returns the count of that write, and
its own byte is not written.  In append mode a byte is written at the end, though the cursor is at
the start. -/
theorem rewrite_not_kept :
    ((fileWrites [7]).Reachable (fileRewrite [9]) ∧
      (fileRewrite [9]).1.Polls (.write [9]) (some (.write (.ok 2))) ∧
      (fileRewrite [9]).1.content = [1, 2] ∧ ¬ (fileRewrite [9]).2.Kept [9] 0 2) ∧
    ((fileWrites [7]).Reachable (appendWrite 0) ∧
      (appendWrite 0).1.Polls (.write [9]) (some (.write (.ok 1))) ∧
      (appendWrite 0).1.content = [7, 9] ∧ ¬ (appendWrite 0).2.Kept [9] 0 1) ∧
    ((sinkWrites .stdout).Reachable (sinkRewrite [9]) ∧
      (sinkRewrite [9]).1.Polls [9] (.ready (.ok 2)) ∧ ¬ (sinkRewrite [9]).2.Kept [9] 2) := by
  refine ⟨⟨.of_follows ⟨.inl rfl, rfl⟩ (by decide +kernel), by decide +kernel, by decide +kernel,
      ?_⟩,
    ⟨.of_follows ⟨.inr rfl, rfl⟩ (by decide +kernel), by decide +kernel, by decide +kernel, ?_⟩,
    .of_follows ⟨rfl, rfl⟩ (by decide +kernel), by decide +kernel, ?_⟩
  · decide +kernel
  · decide +kernel
  · decide +kernel

end RustAsync
