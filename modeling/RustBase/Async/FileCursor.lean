import RustBase.Async.File

/-!
# Async — one cursor

A `File` against a `std::fs::File` that has returned the same results.  `StdFile` is its content and
its cursor, which moves by the bytes that were returned to the caller, by those that were written,
and to where a seek goes; `StdFile.Allows` is what it may answer to a call.

`pos` of the handle is ahead of that cursor by the bytes left over, as it moves by the whole of what
a job has read.  Reads know of them; writes, and seeks from the current position, do not.  Nor does
`pos` know of append mode, in which a write goes to the end of the file and the cursor with it.

**`one_cursor`**: in a run of calls that are not abandoned, and in which nothing is left over when
a write or a seek from the current position is made, and the handle is at the end when a write is
made in append mode, every call answers as a `std::fs::File` does.  `leftoverRun_writes_ahead` has
runs of calls that are not abandoned in which one does not.
-/

namespace RustAsync
open Support

structure StdFile where
  content : Bytes
  cursor : ℕ
  deriving DecidableEq

namespace StdFile

/-- Where a write puts its bytes: at the cursor, or in append mode at the end. -/
def landing (f : StdFile) (appendMode : Bool) : ℕ :=
  if appendMode then f.content.length else f.cursor

/-- The file after a call that has left `content` and returned `r`; a poll that is not the last one
of its call changes nothing.  A write of no byte does not move the cursor in append mode either. -/
def after (f : StdFile) (appendMode : Bool) (content : Bytes) : Option FilePoll → StdFile
  | some (.read (.ok bs)) => ⟨content, f.cursor + bs.length⟩
  | some (.write (.ok n)) => ⟨content, if n = 0 then f.cursor else f.landing appendMode + n⟩
  | some (.seek (.ok p)) => ⟨content, p⟩
  | some (.read (.error _)) | some (.write (.error _)) | some (.seek (.error _)) =>
      ⟨content, f.cursor⟩
  | some .pending | none => f

/-- The position a seek goes to. -/
def Denotes (f : StdFile) (p : ℕ) : SeekFrom → Prop
  | .start n => p = n
  | .current delta => (p : ℤ) = f.cursor + delta
  | .end_ delta => (p : ℤ) = f.content.length + delta

/-- The file may answer `r` to the call, and its content be `content` then. -/
def Allows (f : StdFile) (appendMode : Bool) (content : Bytes) :
    FileCall → Option FilePoll → Prop
  | .read len, some (.read (.ok bs)) => Reads f.content f.cursor len bs ∧ content = f.content
  | .read _, some (.read (.error _)) => content = f.content
  | .write buf, some (.write (.ok n)) =>
      n ≤ buf.length ∧ content = pwrite f.content (f.landing appendMode) (buf.take n)
  | .write _, some (.write (.error _)) => True
  | .seek arg, some (.seek (.ok p)) => f.Denotes p arg ∧ content = f.content
  | .seek _, some (.seek (.error _)) => content = f.content
  | _, some .pending | _, none => True
  | _, _ => False

/-- The results of a handle, as a `std::fs::File` would have them. -/
def record (s : FileUse) : FileAct → StdFile → StdFile
  | .iterate, f =>
      match s.call with
      | some c => f.after s.appendMode s.content (s.file.poll c).2
      | none => f
  | _, f => f

end StdFile

/-- The calls on a handle, with the `std::fs::File` that has returned the same. -/
def fileCursor (c₀ : Bytes) : Machine (FileUse × StdFile) FileAct :=
  (fileMachine c₀).withHistory ⟨c₀, 0⟩ StdFile.record

instance (c₀ : Bytes) : ∀ x a, Decidable ((fileCursor c₀).Enabled x a) :=
  fun x a => inferInstanceAs (Decidable (x.1.Enabled a))

/-- No call is abandoned. -/
def Completes (_ : FileUse × StdFile) (a : FileAct) : Prop := a ≠ .abandon

instance : ∀ x a, Decidable (Completes x a) := fun _ _ => inferInstanceAs (Decidable (¬ _))

/-- No call is abandoned, and nothing is left over when bytes are written or a seek is made from the
current position; and bytes are written in append mode at the end only. -/
def Drained (x : FileUse × StdFile) : FileAct → Prop
  | .abandon => False
  | .begin_ (.write buf) => buf = [] ∨ x.1.file.readLeftover = [] ∧
      (x.1.appendMode = true → x.1.file.pos = x.1.content.length)
  | .begin_ (.seek (.current _)) => x.1.file.readLeftover = []
  | _ => True

instance (x : FileUse × StdFile) : ∀ a, Decidable (Drained x a)
  | .abandon => inferInstanceAs (Decidable False)
  | .begin_ (.write _) => inferInstanceAs (Decidable (_ ∨ _ ∧ (_ → _)))
  | .begin_ (.seek (.current _)) => inferInstanceAs (Decidable (_ = _))
  | .begin_ (.seek (.start _)) | .begin_ (.seek (.end_ _)) | .begin_ (.read _) | .poll _
  | .iterate | .runRead _ _ | .pwrite _ _ | .pwriteFails _ _ | .writeDone _ | .runSeek _
  | .seekFails _ _ => inferInstanceAs (Decidable True)

/-- A call that knows nothing of the bytes left over. -/
def FileCall.blind : FileCall → Bool
  | .write buf => buf ≠ []
  | .seek (.current _) => true
  | .read _ | .seek (.start _) | .seek (.end_ _) => false

/-- The job of a read is the one of the call under way, and reads at the cursor. -/
structure ReadJob.Tracks (j : ReadJob) (call : Option FileCall) (content leftover : Bytes)
    (cursor : ℕ) : Prop where
  call : ∃ len, call = some (.read len)
  empty : leftover = []
  pos : j.pos = cursor
  len : 0 < j.len
  ok : ∀ bs, j.result = some (.ok bs) → Reads content j.pos j.len bs

/-- The job of a write is the one of the call under way, and has written its first bytes to the
file as it was `before`. -/
structure WriteJob.Tracks (j : WriteJob) (call : Option FileCall) (content before : Bytes)
    (pos : ℕ) : Prop where
  call : call = some (.write j.data)
  pos : j.pos = pos
  le : j.written ≤ j.data.length
  content : content = pwrite before j.pos (j.data.take j.written)
  ok : ∀ n, j.result = some (.ok n) → n = j.data.length ∧ j.written = j.data.length

structure SeekJob.Tracks (j : SeekJob) (call : Option FileCall) (content : Bytes) : Prop where
  call : call = some (.seek (.end_ j.delta))
  ok : ∀ p, j.result = some (.ok p) → (p : ℤ) = content.length + j.delta

/-- A call that knows nothing of the bytes left over is made when there are none. -/
theorem drained_of_blind {x : FileUse × StdFile} {c : FileCall} (h : Drained x (.begin_ c))
    (hb : c.blind = true) : x.1.file.readLeftover = [] := by
  cases c with
  | read len => cases hb
  | write buf =>
      have hn : buf ≠ [] := by simpa [FileCall.blind] using hb
      exact (Or.resolve_left h hn).1
  | seek arg =>
      cases arg with
      | start n => cases hb
      | end_ delta => cases hb
      | current delta => exact h

namespace FileUse

variable {s : FileUse} {f : StdFile} {a : FileAct} {c : FileCall} {g : File}
  {r : Option FilePoll}

/-- The cursor of the handle is ahead by the bytes left over, which are the file's from there. -/
structure Tracks (s : FileUse) (f : StdFile) : Prop where
  pos : s.file.pos = f.cursor + s.file.readLeftover.length
  leftover : s.file.readLeftover <+: s.content.drop f.cursor
  blind : ∀ c, s.call = some c → c.blind = true → s.file.readLeftover = []
  atEnd : s.appendMode = true → ∀ buf, s.call = some (.write buf) → buf ≠ [] →
    s.file.pos = f.content.length
  read : ∀ j, s.file.readBusy = some j →
    j.Tracks s.call s.content s.file.readLeftover f.cursor
  write : ∀ j, s.file.writeBusy = some j → j.Tracks s.call s.content f.content s.file.pos
  seek : ∀ j, s.file.seekBusy = some j → j.Tracks s.call s.content
  still : s.file.writeBusy = none → s.content = f.content

namespace Tracks

/-! The slots of the other calls are empty. -/

theorem readBusy_none (h : s.Tracks f) (hc : ∀ len, s.call ≠ some (.read len)) :
    s.file.readBusy = none := by
  cases hj : s.file.readBusy with
  | none => rfl
  | some j =>
      obtain ⟨len, hl⟩ := (h.read j hj).call
      exact absurd hl (hc len)

theorem writeBusy_none (h : s.Tracks f) (hc : ∀ buf, s.call ≠ some (.write buf)) :
    s.file.writeBusy = none := by
  cases hj : s.file.writeBusy with
  | none => rfl
  | some j => exact absurd (h.write j hj).call (hc _)

theorem seekBusy_none (h : s.Tracks f) (hc : ∀ arg, s.call ≠ some (.seek arg)) :
    s.file.seekBusy = none := by
  cases hj : s.file.seekBusy with
  | none => rfl
  | some j => exact absurd (h.seek j hj).call (hc _)

/-- No job is in a slot: only the cursor counts. -/
theorem of_idle (hp : s.file.pos = f.cursor + s.file.readLeftover.length)
    (hl : s.file.readLeftover <+: s.content.drop f.cursor)
    (hb : ∀ c, s.call = some c → c.blind = true → s.file.readLeftover = [])
    (ha : s.appendMode = true → ∀ buf, s.call = some (.write buf) → buf ≠ [] →
      s.file.pos = f.content.length)
    (hr : s.file.readBusy = none) (hw : s.file.writeBusy = none) (hs : s.file.seekBusy = none)
    (he : s.content = f.content) : s.Tracks f where
  pos := hp
  leftover := hl
  blind := hb
  atEnd := ha
  read j hj := by
    rw [hr] at hj
    cases hj
  write j hj := by
    rw [hw] at hj
    cases hj
  seek j hj := by
    rw [hs] at hj
    cases hj
  still _ := he

theorem begin_ (h : s.Tracks f) (hn : s.call = none) (hd : Drained (s, f) (.begin_ c)) :
    (s.next (.begin_ c)).Tracks f := by
  have hw := h.writeBusy_none (by simp [hn])
  refine of_idle h.pos h.leftover (fun c' hc' hb => ?_) (fun hm buf hc' hb => ?_)
    (h.readBusy_none (by simp [hn])) hw (h.seekBusy_none (by simp [hn])) (h.still hw)
  · cases hc'
    exact drained_of_blind hd hb
  · cases hc'
    obtain ⟨-, at_end⟩ := Or.resolve_left hd hb
    exact (at_end hm).trans (congrArg List.length (h.still hw))

theorem poll (h : s.Tracks f) (len : ℕ) : (s.next (.poll len)).Tracks f where
  pos := h.pos
  leftover := h.leftover
  blind c hc hb := by
    refine h.blind c (call_withLen hc ?_) hb
    rintro n rfl
    cases hb
  atEnd hm buf hc := h.atEnd hm buf (call_withLen hc nofun)
  read j hj := by
    obtain ⟨⟨n, hn⟩, empty, pos, l, ok⟩ := h.read j hj
    refine ⟨⟨len, ?_⟩, empty, pos, l, ok⟩
    change s.call.map (·.withLen len) = _
    rw [hn]
    rfl
  write j hj := by
    obtain ⟨hc, pos, le, content, ok⟩ := h.write j hj
    refine ⟨?_, pos, le, content, ok⟩
    change s.call.map (·.withLen len) = _
    rw [hc]
    rfl
  seek j hj := by
    obtain ⟨hc, ok⟩ := h.seek j hj
    refine ⟨?_, ok⟩
    change s.call.map (·.withLen len) = _
    rw [hc]
    rfl
  still := h.still

/-! ### Reads -/

/-- What is delivered from the bytes left over is what the file has at the cursor. -/
theorem reads_leftover (h : s.Tracks f) (he : s.content = f.content)
    (hl : s.file.readLeftover ≠ []) (len : ℕ) :
    Reads f.content f.cursor len
      (s.file.readLeftover.take (min len s.file.readLeftover.length)) := by
  have hp := h.leftover
  rw [he] at hp
  constructor
  · rw [← List.take_take, List.take_length]
    exact hp.take len
  · intro ht
    rcases List.take_eq_nil_iff.mp ht with hz | hz
    · have := List.length_pos_of_ne_nil hl
      obtain rfl : len = 0 := by omega
      rfl
    · exact absurd hz hl

theorem iterate_read {len : ℕ} (h : s.Tracks f) (hc : s.call = some (.read len))
    (step : s.file.Iterates (.read len) g r) :
    f.Allows s.appendMode s.content (.read len) r ∧
      (s.settle (g, r)).Tracks (f.after s.appendMode s.content r) := by
  have hw : s.file.writeBusy = none := h.writeBusy_none (by simp [hc])
  have hs : s.file.seekBusy = none := h.seekBusy_none (by simp [hc])
  have he := h.still hw
  cases step with
  | deliver hl =>
      have idle : s.file.readBusy = none := by
        cases hj : s.file.readBusy with
        | none => rfl
        | some j => exact absurd (h.read j hj).empty hl
      refine ⟨⟨h.reads_leftover he hl len, he⟩, of_idle ?_ ?_ nofun nofun idle hw hs rfl⟩
      · have hp := h.pos
        simp only [settle, StdFile.after, List.length_take, List.length_drop]
        omega
      · have hp := h.leftover.drop (min len s.file.readLeftover.length)
        simp only [settle, StdFile.after, List.length_take]
        rw [List.drop_drop] at hp
        rwa [Nat.min_eq_left (Nat.min_le_right _ _)]
  | readPending hl hj hr =>
      exact ⟨trivial, h.pos, h.leftover, h.blind, h.atEnd, h.read, h.write, h.seek, h.still⟩
  | readFails hl hj hr => exact ⟨he, of_idle h.pos h.leftover nofun nofun rfl hw hs rfl⟩
  | readEnd hl hj hr =>
      obtain ⟨-, -, pos, hlen, ok⟩ := h.read _ hj
      have past := (ok [] hr).end_of_empty hlen
      rw [pos, he] at past
      have none : f.content.drop f.cursor = [] := List.drop_eq_nil_iff.mpr past
      refine ⟨⟨⟨List.nil_prefix, fun _ => ?_⟩, he⟩,
        of_idle h.pos h.leftover nofun nofun rfl hw hs rfl⟩
      rw [none, List.take_nil]
  | @readTake _ j bs hl hj hr hb =>
      obtain ⟨-, -, pos, -, ok⟩ := h.read j hj
      have reads := ok bs hr
      rw [pos] at reads
      have hp := h.pos
      rw [hl] at hp
      refine ⟨trivial, of_idle ?_ ?_ ?_ ?_ rfl hw hs he⟩
      · change s.file.pos + bs.length = f.cursor + bs.length
        rw [hp]
        rfl
      · exact reads.1.trans (List.take_prefix _ _)
      · intro c hcall hblind
        have e : some (FileCall.read len) = some c := hc.symm.trans hcall
        cases e
        cases hblind
      · intro _ buf hcall
        have e : some (FileCall.read len) = some (.write buf) := hc.symm.trans hcall
        cases e
  | readPost hl hj =>
      have hp := h.pos
      rw [hl] at hp
      refine ⟨trivial, h.pos, h.leftover, h.blind, h.atEnd, fun j hi => ?_, h.write, h.seek,
        h.still⟩
      cases hi
      exact ⟨⟨len, hc⟩, hl, hp, Nat.lt_of_lt_of_le Nat.one_pos (Nat.le_max_right _ _), nofun⟩

/-! ### Writes -/

/-- The cursor of a write is the one of the handle, unless nothing is written. -/
theorem pos_of_write {buf : Bytes} (h : s.Tracks f) (hc : s.call = some (.write buf))
    (hb : buf ≠ []) : s.file.pos = f.cursor ∧ s.file.readLeftover = [] := by
  have hl := h.blind _ hc (by simpa [FileCall.blind] using hb)
  have hp := h.pos
  rw [hl] at hp
  exact ⟨hp, hl⟩

/-- It is where a `std::fs::File` writes. -/
theorem landing_of_write {buf : Bytes} (h : s.Tracks f) (hc : s.call = some (.write buf))
    (hb : buf ≠ []) : f.landing s.appendMode = s.file.pos := by
  cases hm : s.appendMode with
  | false => exact (h.pos_of_write hc hb).1.symm
  | true => exact (h.atEnd hm buf hc hb).symm

/-- A job goes on after the bytes it has written. -/
theorem position_eq {j : WriteJob} (h : s.Tracks f) (hj : s.file.writeBusy = some j)
    (hb : j.data ≠ []) : s.position j = j.pos + j.written := by
  cases hm : s.appendMode with
  | false => exact position_of_plain hm j
  | true =>
      obtain ⟨hc, pos, le, content, -⟩ := h.write j hj
      have at_end := h.atEnd hm _ hc hb
      have end_eq : j.pos = f.content.length := pos.trans at_end
      rw [position_of_append hm, content, end_eq, pwrite_length, List.length_append,
        List.length_take_of_le le]

theorem iterate_write {buf : Bytes} (h : s.Tracks f) (hc : s.call = some (.write buf))
    (step : s.file.Iterates (.write buf) g r) :
    f.Allows s.appendMode s.content (.write buf) r ∧
      (s.settle (g, r)).Tracks (f.after s.appendMode s.content r) := by
  have hr : s.file.readBusy = none := h.readBusy_none (by simp [hc])
  have hs : s.file.seekBusy = none := h.seekBusy_none (by simp [hc])
  cases step with
  | writePending hj hres =>
      exact ⟨trivial, h.pos, h.leftover, h.blind, h.atEnd, h.read, h.write, h.seek, h.still⟩
  | writeFails hj hres => exact ⟨trivial, of_idle h.pos h.leftover nofun nofun hr rfl hs rfl⟩
  | @wrote _ j n hj hres =>
      obtain ⟨hcall, pos, le, content, ok⟩ := h.write j hj
      obtain ⟨rfl, hall⟩ := ok n hres
      have e : some (FileCall.write j.data) = some (.write buf) := hcall.symm.trans hc
      cases e
      rw [hall, List.take_length] at content
      by_cases hb : j.data = []
      · rw [hb, pwrite_nil] at content
        rw [hb] at hc ⊢
        refine ⟨⟨Nat.le_refl _, ?_⟩, of_idle h.pos h.leftover nofun nofun hr rfl hs rfl⟩
        simpa using content
      · obtain ⟨hp, hl⟩ := h.pos_of_write hc hb
        refine ⟨⟨Nat.le_refl _, ?_⟩, of_idle ?_ ?_ nofun nofun hr rfl hs rfl⟩
        · rw [List.take_length, h.landing_of_write hc hb, ← pos]
          exact content
        · have moves : (f.after s.appendMode s.content (some (.write (.ok j.data.length)))).cursor =
              s.file.pos + j.data.length := by
            rw [← h.landing_of_write hc hb]
            exact if_neg (mt List.length_eq_zero_iff.mp hb)
          rw [moves]
          change s.file.pos + j.data.length =
            s.file.pos + j.data.length + s.file.readLeftover.length
          rw [hl]
          rfl
        · change s.file.readLeftover <+: _
          rw [hl]
          exact List.nil_prefix
  | writePost hj =>
      refine ⟨trivial, h.pos, h.leftover, h.blind, h.atEnd, h.read, fun j hi => ?_, h.seek, nofun⟩
      cases hi
      refine ⟨hc, rfl, Nat.zero_le _, ?_, nofun⟩
      rw [List.take_zero, pwrite_nil]
      exact h.still hj

/-! ### Seeks -/

theorem seekTo {p : ℕ} {b : Bool} (hr : g.readBusy = none) (hw : g.writeBusy = none)
    (hs : g.seekBusy = none) :
    Tracks { s with file := g.seekTo p, call := none, polling := b } ⟨s.content, p⟩ :=
  of_idle rfl List.nil_prefix nofun nofun hr hw hs rfl

theorem iterate_seek {arg : SeekFrom} (h : s.Tracks f) (hc : s.call = some (.seek arg))
    (step : s.file.Iterates (.seek arg) g r) :
    f.Allows s.appendMode s.content (.seek arg) r ∧
      (s.settle (g, r)).Tracks (f.after s.appendMode s.content r) := by
  have hr : s.file.readBusy = none := h.readBusy_none (by simp [hc])
  have hw : s.file.writeBusy = none := h.writeBusy_none (by simp [hc])
  have he := h.still hw
  cases step with
  | seekPending hj hres =>
      exact ⟨trivial, h.pos, h.leftover, h.blind, h.atEnd, h.read, h.write, h.seek, h.still⟩
  | seekFails hj hres => exact ⟨he, of_idle h.pos h.leftover nofun nofun hr hw rfl rfl⟩
  | @sought _ j p hj hres =>
      obtain ⟨hcall, ok⟩ := h.seek j hj
      have e : some (FileCall.seek (.end_ j.delta)) = some (.seek arg) := hcall.symm.trans hc
      cases e
      refine ⟨⟨?_, he⟩, seekTo hr hw rfl⟩
      rw [StdFile.Denotes, ← he]
      exact ok p hres
  | seekStart hj => exact ⟨⟨rfl, he⟩, seekTo hr hw hj⟩
  | seekCurrent hj hp =>
      have hl := h.blind _ hc rfl
      have pos := h.pos
      rw [hl] at pos
      refine ⟨⟨?_, he⟩, seekTo hr hw hj⟩
      rw [StdFile.Denotes, checkedAddSigned_eq hp, pos]
      rfl
  | seekInvalid hj hp => exact ⟨he, of_idle h.pos h.leftover nofun nofun hr hw hj rfl⟩
  | seekPost hj =>
      refine ⟨trivial, h.pos, h.leftover, h.blind, h.atEnd, h.read, h.write, fun j hi => ?_,
        h.still⟩
      cases hi
      exact ⟨hc, nofun⟩

theorem iterate (h : s.Tracks f) (hc : s.call = some c) (step : s.file.Iterates c g r) :
    f.Allows s.appendMode s.content c r ∧
      (s.settle (g, r)).Tracks (f.after s.appendMode s.content r) := by
  cases c with
  | read len => exact h.iterate_read hc step
  | write buf => exact h.iterate_write hc step
  | seek arg => exact h.iterate_seek hc step

/-! ### Jobs -/

theorem runRead {j : ReadJob} {x : Except IoError Bytes} (h : s.Tracks f)
    (hj : s.file.readBusy = some j) (ha : (ReadSource.file s.content).Answers j x) :
    (s.next (.runRead j x)).Tracks f := by
  refine ⟨h.pos, h.leftover, h.blind, h.atEnd, fun i hi => ?_, h.write, h.seek, h.still⟩
  cases hi
  obtain ⟨hc, empty, pos, len, -⟩ := h.read j hj
  refine ⟨hc, empty, pos, len, fun bs hb => ?_⟩
  obtain rfl : x = .ok bs := Option.some.inj hb
  exact ha

/-- The bytes are written after those that were, and nothing is left over. -/
theorem pwrite {j : WriteJob} {n : ℕ} (h : s.Tracks f) (hj : s.file.writeBusy = some j)
    (hres : j.result = none) (hn : 0 < n) (hl : j.written + n ≤ j.data.length) :
    (s.next (.pwrite j n)).Tracks f := by
  obtain ⟨hc, pos, le, content, -⟩ := h.write j hj
  have hb : j.data ≠ [] := List.ne_nil_of_length_pos (by omega)
  obtain ⟨-, empty⟩ := h.pos_of_write hc hb
  have hr : s.file.readBusy = none := h.readBusy_none (by simp [hc])
  have hs : s.file.seekBusy = none := h.seekBusy_none (by simp [hc])
  refine ⟨h.pos, ?_, h.blind, h.atEnd, fun i hi => ?_, fun i hi => ?_, fun i hi => ?_, nofun⟩
  · change s.file.readLeftover <+: _
    rw [empty]
    exact List.nil_prefix
  · rw [show s.file.readBusy = some i from hi] at hr
    cases hr
  · cases hi
    refine ⟨hc, pos, hl, ?_, fun m hm => ?_⟩
    · have length : (j.data.take j.written).length = j.written := List.length_take_of_le le
      have grown := pwrite_append f.content j.pos (j.data.take j.written) (chunk j n)
      rw [length] at grown
      change Support.pwrite s.content (s.position j) (chunk j n) =
        Support.pwrite f.content j.pos (j.data.take (j.written + n))
      rw [h.position_eq hj hb, content, grown, List.take_add]
      rfl
    · rw [show j.result = some (.ok m) from hm] at hres
      cases hres
  · rw [show s.file.seekBusy = some i from hi] at hs
    cases hs

/-- The job of a write ends. -/
theorem setResult {j : WriteJob} {x : Except IoError ℕ} (h : s.Tracks f)
    (hj : s.file.writeBusy = some j)
    (ok : ∀ n, x = .ok n → n = j.data.length ∧ j.written = j.data.length) :
    (s.setWrite { j with result := some x }).Tracks f := by
  refine ⟨h.pos, h.leftover, h.blind, h.atEnd, h.read, fun i hi => ?_, h.seek, nofun⟩
  cases hi
  obtain ⟨hc, pos, le, content, -⟩ := h.write j hj
  exact ⟨hc, pos, le, content, fun n hn => ok n (Option.some.inj hn)⟩

theorem setSeek {j : SeekJob} {x : Except IoError ℕ} (h : s.Tracks f)
    (hj : s.file.seekBusy = some j)
    (ok : ∀ p, x = .ok p → (p : ℤ) = s.content.length + j.delta) :
    (s.setSeek { j with result := some x }).Tracks f := by
  refine ⟨h.pos, h.leftover, h.blind, h.atEnd, h.read, h.write, fun i hi => ?_, h.still⟩
  cases hi
  exact ⟨(h.seek j hj).call, fun p hp => ok p (Option.some.inj hp)⟩

theorem next (h : s.Tracks f) (hd : Drained (s, f) a) (ha : s.Enabled a) :
    (s.next a).Tracks (StdFile.record s a f) := by
  cases a with
  | begin_ c => exact h.begin_ ha hd
  | poll len => exact h.poll len
  | abandon => exact hd.elim
  | iterate =>
      obtain ⟨c, hc⟩ := Option.isSome_iff_exists.mp ha.1
      obtain ⟨g, r, step, hr, e⟩ := iterate_cases hc
      have same : StdFile.record s .iterate f = f.after s.appendMode s.content r := by
        simp only [StdFile.record, hc, hr]
      rw [e, same]
      exact (h.iterate hc step).2
  | runRead j x => exact h.runRead ha.1 ha.2.2
  | pwrite j n => exact h.pwrite ha.1 ha.2.1 ha.2.2.1 ha.2.2.2
  | pwriteFails j e => exact h.setResult ha.1 nofun
  | writeDone j =>
      refine h.setResult ha.1 fun n hn => ?_
      cases hn
      exact ⟨rfl, ha.2.2⟩
  | runSeek j => exact h.setSeek ha.1 fun p hp => j.answer_eq hp
  | seekFails j e => exact h.setSeek ha.1 nofun

end Tracks

end FileUse

theorem file_tracks {c₀ : Bytes} {x : FileUse × StdFile}
    (h : (fileCursor c₀).ReachableBy Drained x) : x.1.Tracks x.2 := by
  refine h.invariant (I := fun x => x.1.Tracks x.2) ?_ fun _ _ _ hi hd ha => hi.next hd ha
  rintro ⟨s, f⟩ ⟨rfl | rfl, rfl⟩ <;>
    exact .of_idle rfl List.nil_prefix nofun nofun rfl rfl rfl rfl

/-- **One cursor.**  In every state that calls reach which are not abandoned, and of which the
writes and the seeks from the current position are made with nothing left over, and the writes in
append mode at the end, what a poll returns is what a `std::fs::File` of the same mode may return;
and the cursor of the handle is its cursor exactly when nothing is left over. -/
theorem one_cursor {c₀ : Bytes} {x : FileUse × StdFile}
    (h : (fileCursor c₀).ReachableBy Drained x) :
    (∀ c r, x.1.Polls c r → x.2.Allows x.1.appendMode x.1.content c r) ∧
      (x.1.file.pos = x.2.cursor ↔ x.1.file.readLeftover = []) := by
  have tracks := file_tracks h
  refine ⟨fun c r hp => ?_, ?_⟩
  · obtain ⟨-, hc, rfl⟩ := hp
    exact (tracks.iterate hc (x.1.file.iterates c)).1
  · rw [tracks.pos, ← List.length_eq_zero_iff]
    omega

/-- What three bytes are read from, and written to. -/
def threeBytes : FileUse × StdFile := (.new [1, 2, 3], ⟨[1, 2, 3], 0⟩)

/-- Two bytes are read, and one is written after them. -/
def drainedRun : List FileAct :=
  [.begin_ (.read 2), .iterate, .runRead ⟨0, 2, none⟩ (.ok [1, 2]), .iterate, .iterate,
    .begin_ (.write [9]), .iterate, .pwrite ⟨[9], 2, 0, none⟩ 1, .writeDone ⟨[9], 2, 1, none⟩]

theorem drainedRun_allowed :
    let x := (fileCursor [1, 2, 3]).runList threeBytes drainedRun
    x.1.content = [1, 2, 9] ∧ x.2.cursor = 2 ∧
      x.2.Allows x.1.appendMode x.1.content (.write [9]) (some (.write (.ok 1))) := by
  have reach : (fileCursor [1, 2, 3]).ReachableBy Drained
      ((fileCursor [1, 2, 3]).runList threeBytes drainedRun) :=
    .of_follows ⟨.inl rfl, rfl⟩ (by decide +kernel)
  exact ⟨by decide +kernel, by decide +kernel, (one_cursor reach).1 _ _ (by decide +kernel)⟩

/-- A read of no byte, whose job reads one. -/
def leftoverRun : List FileAct :=
  [.begin_ (.read 0), .iterate, .runRead ⟨0, 1, none⟩ (.ok [1]), .iterate, .iterate]

/-- A run that goes on from there. -/
def afterLeftover (l : List FileAct) : FileUse × StdFile :=
  (fileCursor [1, 2, 3]).runList threeBytes (leftoverRun ++ l)

/-- One byte is written, where the handle's cursor is then. -/
def writeNineRun : List FileAct :=
  [.begin_ (.write [9]), .iterate, .pwrite ⟨[9], 1, 0, none⟩ 1, .writeDone ⟨[9], 1, 1, none⟩]

/-- A handle in append mode writes a byte, and reads one. -/
def appendedRead : FileUse × StdFile :=
  (fileCursor [1, 2, 3]).runList (.newAppend [1, 2, 3], ⟨[1, 2, 3], 0⟩)
    [.begin_ (.write [9]), .iterate, .pwrite ⟨[9], 0, 0, none⟩ 1, .writeDone ⟨[9], 0, 1, none⟩,
      .iterate, .begin_ (.read 1), .iterate, .runRead ⟨1, 1, none⟩ (.ok [2]), .iterate]

/-- The byte is left over.  A write, and a seek from the current position, go from the position
after it, though the caller has got nothing; and a read that follows the write returns it.  And
after a write in append mode the handle goes on from the byte after the first one, though the file
was written at its end. -/
theorem leftoverRun_writes_ahead :
    let written := afterLeftover writeNineRun
    let sought := afterLeftover [.begin_ (.seek (.current 0))]
    let read := afterLeftover (writeNineRun ++ [.iterate, .begin_ (.read 1)])
    ((fileCursor [1, 2, 3]).ReachableBy Completes written ∧
      written.1.Polls (.write [9]) (some (.write (.ok 1))) ∧ written.2 = ⟨[1, 2, 3], 0⟩ ∧
      written.1.content = [1, 9, 3] ∧
      ¬ written.2.Allows false written.1.content (.write [9]) (some (.write (.ok 1)))) ∧
    ((fileCursor [1, 2, 3]).ReachableBy Completes sought ∧
      sought.1.Polls (.seek (.current 0)) (some (.seek (.ok 1))) ∧ sought.2.cursor = 0 ∧
      ¬ sought.2.Allows false sought.1.content (.seek (.current 0)) (some (.seek (.ok 1)))) ∧
    ((fileCursor [1, 2, 3]).ReachableBy Completes read ∧
      read.1.Polls (.read 1) (some (.read (.ok [1]))) ∧ read.2 = ⟨[1, 9, 3], 1⟩ ∧
      ¬ read.2.Allows false read.1.content (.read 1) (some (.read (.ok [1])))) ∧
    ((fileCursor [1, 2, 3]).ReachableBy Completes appendedRead ∧
      appendedRead.1.Polls (.read 1) (some (.read (.ok [2]))) ∧
      appendedRead.2 = ⟨[1, 2, 3, 9], 4⟩ ∧
      ¬ appendedRead.2.Allows true appendedRead.1.content (.read 1)
        (some (.read (.ok [2])))) := by
  refine ⟨⟨.of_follows ⟨.inl rfl, rfl⟩ (by decide +kernel), by decide +kernel, by decide +kernel,
      by decide +kernel, fun h => ?_⟩,
    ⟨.of_follows ⟨.inl rfl, rfl⟩ (by decide +kernel), by decide +kernel, by decide +kernel,
      fun h => ?_⟩,
    ⟨.of_follows ⟨.inl rfl, rfl⟩ (by decide +kernel), by decide +kernel, by decide +kernel,
      fun h => ?_⟩,
    .of_follows ⟨.inr rfl, rfl⟩ (by decide +kernel), by decide +kernel, by decide +kernel,
      fun h => ?_⟩
  · exact absurd h.2 (by decide +kernel)
  · have relative : (1 : ℤ) = _ + 0 := h.1
    exact absurd relative (by decide +kernel)
  · exact absurd h.1 (by decide +kernel)
  · exact absurd h.1 (by decide +kernel)

end RustAsync
