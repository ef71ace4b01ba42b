import RustBase.Async.File

/-!
# Async — seeks

`poll_seek` answers at once, but for a seek from the end, which asks the pool for the length.  Its
job stays in the slot when the call is abandoned, and answers the next seek, whatever that asks for.
A seek drops the bytes left over, but not the job of an abandoned read, which has read elsewhere.

The position that `SeekFrom::Current` is relative to is `pos`, the cursor of the handle.  The length
that `SeekFrom::End` is relative to is one the file has had since the call was made, and the bytes
that reads return are those the file has had at their positions since the seek; an abandoned write
may change them meanwhile.

**`seek_law`**: in a run in which no seek is made with the job of a read or of a seek in the handle,
a seek that returns `Ok(p)` goes where its argument says, and the reads that follow return the bytes
from `p` on.  `staleSeek_answers` has a run that breaks either half.
-/

namespace RustAsync
open Support

/-- What is recorded of the seeks. -/
structure SeekTrace where
  /-- where the last seek has gone to, until a write has moved the cursor -/
  sought : Option ℕ
  /-- what reads have returned since -/
  delivered : Bytes
  /-- what the file has held since -/
  since : List Bytes
  /-- what the file has held since the last call was made -/
  during : List Bytes
  deriving DecidableEq

namespace SeekTrace

/-- A poll returns. -/
def after (h : SeekTrace) (content : Bytes) : Option FilePoll → SeekTrace
  | some (.seek (.ok p)) => { h with sought := some p, delivered := [], since := [content] }
  | some (.read (.ok bs)) => { h with delivered := h.delivered ++ bs }
  | some (.write (.ok _)) => { h with sought := none }
  | some (.seek (.error _)) | some (.read (.error _)) | some (.write (.error _))
  | some .pending | none => h

/-- The content of the file changes. -/
def hold (h : SeekTrace) (content : Bytes) : SeekTrace :=
  { h with since := content :: h.since, during := content :: h.during }

def record (s : FileUse) : FileAct → SeekTrace → SeekTrace
  | .begin_ _, h => { h with during := [s.content] }
  | .iterate, h =>
      match s.call with
      | some c => h.after s.content (s.file.poll c).2
      | none => h
  | .pwrite j n, h => h.hold (s.next (.pwrite j n)).content
  | _, h => h

/-- The position the argument of a seek means, for a handle whose cursor is `pos`. -/
def Denotes (h : SeekTrace) (pos p : ℕ) : SeekFrom → Prop
  | .start n => p = n
  | .current delta => (p : ℤ) = pos + delta
  | .end_ delta => ∃ c ∈ h.during, (p : ℤ) = c.length + delta

end SeekTrace

/-- The calls on a handle, with the record of its seeks. -/
def fileSeeks (c₀ : Bytes) : Machine (FileUse × SeekTrace) FileAct :=
  (fileMachine c₀).withHistory ⟨none, [], [], []⟩ SeekTrace.record

instance (c₀ : Bytes) : ∀ x a, Decidable ((fileSeeks c₀).Enabled x a) :=
  fun x a => inferInstanceAs (Decidable (x.1.Enabled a))

/-- No seek is made while the job of an abandoned read or seek is in the handle. -/
def Settled (x : FileUse × SeekTrace) : FileAct → Prop
  | .begin_ (.seek _) => x.1.file.readBusy = none ∧ x.1.file.seekBusy = none
  | _ => True

instance (x : FileUse × SeekTrace) : ∀ a, Decidable (Settled x a)
  | .begin_ (.seek _) => inferInstanceAs (Decidable (_ ∧ _))
  | .begin_ (.read _) | .begin_ (.write _) | .poll _ | .abandon | .iterate | .runRead _ _
  | .pwrite _ _ | .pwriteFails _ _ | .writeDone _ | .runSeek _ | .seekFails _ _ =>
      inferInstanceAs (Decidable True)

/-- The job of a read goes on from the cursor. -/
structure ReadJob.Continues (j : ReadJob) (leftover : Bytes) (pos : ℕ) (since : List Bytes) :
    Prop where
  empty : leftover = []
  pos : j.pos = pos
  ok : ∀ bs, j.result = some (.ok bs) → Shows since j.pos bs

/-- The job of a seek is the one of the call under way. -/
structure SeekJob.Answers (j : SeekJob) (arg : SeekFrom) (during : List Bytes) : Prop where
  arg : arg = .end_ j.delta
  ok : ∀ p, j.result = some (.ok p) → ∃ c ∈ during, (p : ℤ) = c.length + j.delta

/-- The handle reads on from `p`. -/
structure File.ReadsFrom (f : File) (h : SeekTrace) (p : ℕ) : Prop where
  pos : f.pos = p + h.delivered.length + f.readLeftover.length
  shows : Shows h.since p (h.delivered ++ f.readLeftover)
  job : ∀ j, f.readBusy = some j → j.Continues f.readLeftover f.pos h.since

namespace FileUse

variable {s : FileUse} {h : SeekTrace} {a : FileAct} {c : FileCall} {g : File}
  {r : Option FilePoll} {p : ℕ}

structure Seeks (s : FileUse) (h : SeekTrace) : Prop where
  during : ∀ c, s.call = some c → s.content ∈ h.during
  idle : ∀ arg, s.call = some (.seek arg) → s.file.readBusy = none
  seek : ∀ arg j, s.call = some (.seek arg) → s.file.seekBusy = some j → j.Answers arg h.during
  since : ∀ p, h.sought = some p → s.content ∈ h.since
  reads : ∀ p, h.sought = some p → s.file.ReadsFrom h p

end FileUse

namespace File.ReadsFrom

variable {f f' : File} {h h' : SeekTrace} {p : ℕ} {j : ReadJob} {bs : Bytes}

/-- A step that touches neither the cursor nor the reads. -/
theorem of_eq (hr : f.ReadsFrom h p) (hp : f'.pos = f.pos)
    (hl : f'.readLeftover = f.readLeftover) (hb : f'.readBusy = f.readBusy)
    (hd : h'.delivered = h.delivered) (hs : h'.since = h.since) : f'.ReadsFrom h' p where
  pos := by
    rw [hp, hl, hd]
    exact hr.pos
  shows := by
    rw [hl, hd, hs]
    exact hr.shows
  job := by
    rw [hp, hl, hb, hs]
    exact hr.job

/-- Bytes go from the leftover to the caller. -/
theorem deliver (hr : f.ReadsFrom h p) (hl : f.readLeftover ≠ []) (n : ℕ)
    (hn : n ≤ f.readLeftover.length) :
    ReadsFrom { f with readLeftover := f.readLeftover.drop n }
      { h with delivered := h.delivered ++ f.readLeftover.take n } p where
  pos := by
    have hp := hr.pos
    simp only [List.length_append, List.length_take, List.length_drop]
    omega
  shows := by
    have hs := hr.shows
    change Shows h.since p (h.delivered ++ f.readLeftover.take n ++ f.readLeftover.drop n)
    rwa [List.append_assoc, List.take_append_drop]
  job j hj := absurd (hr.job j hj).empty hl

/-- A result is taken. -/
theorem take (hr : f.ReadsFrom h p) (hl : f.readLeftover = []) (hj : f.readBusy = some j)
    (hres : j.result = some (.ok bs)) :
    ReadsFrom { f with pos := f.pos + bs.length, readBusy := none, readLeftover := bs } h p where
  pos := by
    have hp := hr.pos
    rw [hl] at hp
    change f.pos + bs.length = p + h.delivered.length + bs.length
    rw [hp]
    rfl
  shows := by
    have hs := hr.shows
    have hp := hr.pos
    have read := (hr.job j hj).ok bs hres
    rw [hl, List.append_nil] at hs
    rw [(hr.job j hj).pos, hp, hl] at read
    exact hs.append read
  job _ hi := nomatch hi

theorem drop_job (hr : f.ReadsFrom h p) : ReadsFrom { f with readBusy := none } h p :=
  ⟨hr.pos, hr.shows, nofun⟩

theorem post (hr : f.ReadsFrom h p) (hl : f.readLeftover = []) (len : ℕ) :
    ReadsFrom { f with readBusy := some ⟨f.pos, len, none⟩ } h p := by
  refine ⟨hr.pos, hr.shows, fun j hj => ?_⟩
  cases hj
  exact ⟨hl, rfl, nofun⟩

/-- A read of the job. -/
theorem run {content : Bytes} {x : Except IoError Bytes} (hr : f.ReadsFrom h p)
    (hc : content ∈ h.since) (hj : f.readBusy = some j)
    (ha : (ReadSource.file content).Answers j x) :
    ReadsFrom { f with readBusy := some { j with result := some x } } h p := by
  refine ⟨hr.pos, hr.shows, fun i hi => ?_⟩
  cases hi
  refine ⟨(hr.job j hj).empty, (hr.job j hj).pos, fun bs hb => ?_⟩
  obtain rfl : x = .ok bs := Option.some.inj hb
  exact .of_reads hc ha

theorem hold (hr : f.ReadsFrom h p) (content : Bytes) : f.ReadsFrom (h.hold content) p := by
  have more : ∀ c ∈ h.since, c ∈ (h.hold content).since := fun c hc => List.mem_cons_of_mem _ hc
  refine ⟨hr.pos, hr.shows.mono more, fun j hj => ?_⟩
  exact ⟨(hr.job j hj).empty, (hr.job j hj).pos, fun bs hb => ((hr.job j hj).ok bs hb).mono more⟩

end File.ReadsFrom

namespace FileUse.Seeks

variable {s : FileUse} {h : SeekTrace} {a : FileAct} {c : FileCall} {g : File}
  {r : Option FilePoll} {p : ℕ}

/-- The call under way is not a seek. -/
theorem of_reads {s' : FileUse} {h' : SeekTrace}
    (hd : ∀ c, s'.call = some c → s'.content ∈ h'.during)
    (hc : ∀ arg, s'.call ≠ some (.seek arg)) (hs : ∀ p, h'.sought = some p → s'.content ∈ h'.since)
    (hr : ∀ p, h'.sought = some p → s'.file.ReadsFrom h' p) : s'.Seeks h' where
  during := hd
  idle arg h := absurd h (hc arg)
  seek arg _ h := absurd h (hc arg)
  since := hs
  reads := hr

theorem begin_ (hs : s.Seeks h) (hd : Settled (s, h) (.begin_ c)) :
    (s.next (.begin_ c)).Seeks { h with during := [s.content] } := by
  have reads : ∀ p, h.sought = some p →
      s.file.ReadsFrom { h with during := [s.content] } p := fun p hp =>
    (hs.reads p hp).of_eq rfl rfl rfl rfl rfl
  have during : ∀ c', some c = some c' → s.content ∈ [s.content] :=
    fun _ _ => List.mem_singleton_self _
  cases c with
  | read len => exact of_reads during nofun hs.since reads
  | write buf => exact of_reads during nofun hs.since reads
  | seek arg =>
      obtain ⟨hr, hb⟩ := hd
      refine ⟨during, fun _ _ => hr, fun _ j _ hj => ?_, hs.since, reads⟩
      rw [show s.file.seekBusy = some j from hj] at hb
      cases hb

theorem poll (hs : s.Seeks h) (len : ℕ) : (s.next (.poll len)).Seeks h where
  during c hc := by
    obtain ⟨c', hc', -⟩ := Option.map_eq_some_iff.mp hc
    exact hs.during c' hc'
  idle arg hc := hs.idle arg (call_withLen hc nofun)
  seek arg j hc hj := hs.seek arg j (call_withLen hc nofun) hj
  since := hs.since
  reads := hs.reads

/-- A call that is not a seek goes on or returns. -/
theorem settle_other {h' : SeekTrace} (hs : s.Seeks h) (hc : s.call = some c)
    (hn : ∀ arg, c ≠ .seek arg) (hd : h'.during = h.during)
    (hsince : ∀ p, h'.sought = some p → s.content ∈ h'.since)
    (hr : ∀ p, h'.sought = some p → g.ReadsFrom h' p) : (s.settle (g, r)).Seeks h' := by
  refine of_reads (fun c' _ => hd ▸ hs.during c hc) (fun arg hcall => ?_) hsince hr
  rcases s.call_settle (g, r) with e | e
  · rw [e] at hcall
    cases hcall
  · rw [e, hc] at hcall
    exact hn arg (Option.some.inj hcall)

theorem iterate_read {len : ℕ} (hs : s.Seeks h) (hc : s.call = some (.read len))
    (step : s.file.Iterates (.read len) g r) : (s.settle (g, r)).Seeks (h.after s.content r) := by
  cases step with
  | deliver hl =>
      exact hs.settle_other hc nofun rfl hs.since fun p hp =>
        (hs.reads p hp).deliver hl _ (Nat.min_le_right _ _)
  | readPending hl hj hr => exact hs.settle_other hc nofun rfl hs.since hs.reads
  | readFails hl hj hr =>
      exact hs.settle_other hc nofun rfl hs.since fun p hp => (hs.reads p hp).drop_job
  | readEnd hl hj hr =>
      refine hs.settle_other hc nofun rfl hs.since fun p hp => ?_
      have same : h.after s.content (some (.read (.ok []))) = h := by
        simp only [SeekTrace.after, List.append_nil]
      rw [same] at hp ⊢
      exact (hs.reads p hp).drop_job
  | readTake hl hj hr hb =>
      exact hs.settle_other hc nofun rfl hs.since fun p hp => (hs.reads p hp).take hl hj hr
  | readPost hl hj =>
      exact hs.settle_other hc nofun rfl hs.since fun p hp => (hs.reads p hp).post hl _

theorem iterate_write {buf : Bytes} (hs : s.Seeks h) (hc : s.call = some (.write buf))
    (step : s.file.Iterates (.write buf) g r) : (s.settle (g, r)).Seeks (h.after s.content r) := by
  cases step with
  | writePending hj hr => exact hs.settle_other hc nofun rfl hs.since hs.reads
  | writeFails hj hr =>
      exact hs.settle_other hc nofun rfl hs.since fun p hp =>
        (hs.reads p hp).of_eq rfl rfl rfl rfl rfl
  | wrote hj hr => exact hs.settle_other hc nofun rfl nofun nofun
  | writePost hj =>
      exact hs.settle_other hc nofun rfl hs.since fun p hp =>
        (hs.reads p hp).of_eq rfl rfl rfl rfl rfl

/-- The seek returns: the handle reads on from where it has gone. -/
theorem seekTo {b : Bool} (hr : g.readBusy = none) :
    Seeks { s with file := g.seekTo p, call := none, polling := b }
      { h with sought := some p, delivered := [], since := [s.content] } := by
  refine of_reads nofun nofun (fun _ _ => List.mem_singleton_self _) fun p' hp' => ?_
  cases hp'
  refine ⟨rfl, .nil, fun j hj => ?_⟩
  rw [show g.readBusy = some j from hj] at hr
  cases hr

/-- What a seek returns is what its argument means. -/
theorem denotes {arg : SeekFrom} (hs : s.Seeks h) (hc : s.call = some (.seek arg))
    (step : s.file.Iterates (.seek arg) g (some (.seek (.ok p)))) :
    h.Denotes s.file.pos p arg := by
  cases step with
  | sought hj hr =>
      obtain ⟨rfl, ok⟩ := hs.seek arg _ hc hj
      exact ok p hr
  | seekStart hj => rfl
  | seekCurrent hj hp => exact checkedAddSigned_eq hp

theorem iterate_seek {arg : SeekFrom} (hs : s.Seeks h) (hc : s.call = some (.seek arg))
    (step : s.file.Iterates (.seek arg) g r) : (s.settle (g, r)).Seeks (h.after s.content r) := by
  have hr := hs.idle arg hc
  cases step with
  | seekPending hj hres => exact ⟨hs.during, hs.idle, hs.seek, hs.since, hs.reads⟩
  | seekFails hj hres =>
      exact of_reads nofun nofun hs.since fun p hp =>
        (hs.reads p hp).of_eq rfl rfl rfl rfl rfl
  | sought hj hres => exact seekTo hr
  | seekStart hj => exact seekTo hr
  | seekCurrent hj hp => exact seekTo hr
  | seekInvalid hj hp => exact of_reads nofun nofun hs.since hs.reads
  | seekPost hj =>
      refine ⟨hs.during, hs.idle, fun arg' j hcall hi => ?_, hs.since, fun p hp =>
        (hs.reads p hp).of_eq rfl rfl rfl rfl rfl⟩
      cases hi
      have e : some (FileCall.seek _) = some (.seek arg') := hc.symm.trans hcall
      cases e
      exact ⟨rfl, nofun⟩

theorem iterate (hs : s.Seeks h) (hc : s.call = some c) (step : s.file.Iterates c g r) :
    (s.settle (g, r)).Seeks (h.after s.content r) := by
  cases c with
  | read len => exact hs.iterate_read hc step
  | write buf => exact hs.iterate_write hc step
  | seek arg => exact hs.iterate_seek hc step

/-- A step of the job of a write that leaves the file as it is. -/
theorem setWrite (hs : s.Seeks h) (j : WriteJob) : (s.setWrite j).Seeks h where
  during := hs.during
  idle := hs.idle
  seek := hs.seek
  since := hs.since
  reads p hp := (hs.reads p hp).of_eq rfl rfl rfl rfl rfl

theorem runRead {j : ReadJob} {x : Except IoError Bytes} (hs : s.Seeks h)
    (hj : s.file.readBusy = some j) (ha : (ReadSource.file s.content).Answers j x) :
    (s.next (.runRead j x)).Seeks h := by
  have not_seek : ∀ arg, s.call ≠ some (.seek arg) := fun arg hc => by
    rw [hs.idle arg hc] at hj
    cases hj
  exact of_reads hs.during not_seek hs.since fun p hp => (hs.reads p hp).run (hs.since p hp) hj ha

theorem pwrite {j : WriteJob} {n : ℕ} (hs : s.Seeks h) :
    (s.next (.pwrite j n)).Seeks (h.hold (s.next (.pwrite j n)).content) where
  during _ _ := List.mem_cons_self
  idle := hs.idle
  seek arg i hc hi := by
    obtain ⟨harg, ok⟩ := hs.seek arg i hc hi
    refine ⟨harg, fun p hp => ?_⟩
    obtain ⟨c, hm, hl⟩ := ok p hp
    exact ⟨c, List.mem_cons_of_mem _ hm, hl⟩
  since _ _ := List.mem_cons_self
  reads p hp := ((hs.reads p hp).hold _).of_eq rfl rfl rfl rfl rfl

theorem setSeek {j : SeekJob} {x : Except IoError ℕ} (hs : s.Seeks h)
    (hj : s.file.seekBusy = some j)
    (ok : ∀ p, x = .ok p → (p : ℤ) = s.content.length + j.delta) :
    (s.setSeek { j with result := some x }).Seeks h := by
  refine ⟨hs.during, hs.idle, fun arg i hc hi => ?_, hs.since, fun p hp =>
    (hs.reads p hp).of_eq rfl rfl rfl rfl rfl⟩
  cases hi
  refine ⟨(hs.seek arg j hc hj).arg, fun p hp => ?_⟩
  exact ⟨s.content, hs.during _ hc, ok p (Option.some.inj hp)⟩

theorem next (hs : s.Seeks h) (hd : Settled (s, h) a) (ha : s.Enabled a) :
    (s.next a).Seeks (SeekTrace.record s a h) := by
  cases a with
  | begin_ c => exact hs.begin_ hd
  | poll len => exact hs.poll len
  | abandon => exact of_reads nofun nofun hs.since hs.reads
  | iterate =>
      obtain ⟨c, hc⟩ := Option.isSome_iff_exists.mp ha.1
      obtain ⟨g, r, step, hr, e⟩ := iterate_cases hc
      have same : SeekTrace.record s .iterate h = h.after s.content r := by
        simp only [SeekTrace.record, hc, hr]
      rw [e, same]
      exact hs.iterate hc step
  | runRead j x => exact hs.runRead ha.1 ha.2.2
  | pwrite j n => exact hs.pwrite
  | pwriteFails j e => exact hs.setWrite _
  | writeDone j => exact hs.setWrite _
  | runSeek j => exact hs.setSeek ha.1 fun p hp => j.answer_eq hp
  | seekFails j e => exact hs.setSeek ha.1 nofun

end FileUse.Seeks

theorem file_seeks {c₀ : Bytes} {x : FileUse × SeekTrace}
    (h : (fileSeeks c₀).ReachableBy Settled x) : x.1.Seeks x.2 := by
  refine h.invariant (I := fun x => x.1.Seeks x.2) ?_ fun _ _ _ hi hd ha => hi.next hd ha
  rintro ⟨s, t⟩ ⟨rfl | rfl, rfl⟩ <;> exact .of_reads nofun nofun nofun nofun

/-- **Seeks go where they are told.**  In every state that calls reach of which no seek is made
with the job of an abandoned read or seek in the handle, what a seek returns is what its argument
means, and what reads have returned since are the file's bytes from there on. -/
theorem seek_law {c₀ : Bytes} {x : FileUse × SeekTrace}
    (h : (fileSeeks c₀).ReachableBy Settled x) :
    (∀ arg p, x.1.Polls (.seek arg) (some (.seek (.ok p))) →
      x.2.Denotes x.1.file.pos p arg) ∧
    ∀ p, x.2.sought = some p → Shows x.2.since p x.2.delivered ∧
      x.1.file.pos = p + x.2.delivered.length + x.1.file.readLeftover.length := by
  have seeks := file_seeks h
  refine ⟨fun arg p hp => ?_, fun p hp => ?_⟩
  · obtain ⟨-, hc, hr⟩ := hp
    have step := x.1.file.iterates (.seek arg)
    rw [hr] at step
    exact seeks.denotes hc step
  · exact ⟨(seeks.reads p hp).shows.left, (seeks.reads p hp).pos⟩

/-- A seek from the end, and a read of the last byte. -/
def lastByteRun : List FileAct :=
  [.begin_ (.seek (.end_ (-1))), .iterate, .runSeek ⟨-1, none⟩, .iterate, .begin_ (.read 1),
    .iterate, .runRead ⟨2, 1, none⟩ (.ok [9]), .iterate, .iterate]

theorem lastByteRun_shows :
    let x := (fileSeeks [7, 8, 9]).runList (.new [7, 8, 9], ⟨none, [], [], []⟩) lastByteRun
    x.2.sought = some 2 ∧ x.2.delivered = [9] ∧ Shows x.2.since 2 x.2.delivered := by
  have reach : (fileSeeks [7, 8, 9]).ReachableBy Settled
      ((fileSeeks [7, 8, 9]).runList (.new [7, 8, 9], ⟨none, [], [], []⟩) lastByteRun) :=
    .of_follows ⟨.inl rfl, rfl⟩ (by decide +kernel)
  have sought : ((fileSeeks [7, 8, 9]).runList (.new [7, 8, 9], ⟨none, [], [], []⟩)
      lastByteRun).2.sought = some 2 := by decide +kernel
  exact ⟨sought, by decide +kernel, ((seek_law reach).2 2 sought).1⟩

/-- A seek from the end is abandoned, and another one is made. -/
def staleSeekRun : List FileAct :=
  [.begin_ (.seek (.end_ 0)), .iterate, .iterate, .runSeek ⟨0, none⟩, .abandon,
    .begin_ (.seek (.start 1))]

/-- A read of the first byte is abandoned; the last one is sought and read. -/
def staleReadRun : List FileAct :=
  [.begin_ (.read 1), .iterate, .iterate, .runRead ⟨0, 1, none⟩ (.ok [7]), .abandon,
    .begin_ (.seek (.start 2)), .iterate, .begin_ (.read 1), .iterate, .iterate]

/-- The seek to 1 returns the position of the abandoned one, and the read at 2 the byte of the
abandoned one. -/
theorem staleSeek_answers :
    let x := (fileSeeks [7, 8, 9]).runList (.new [7, 8, 9], ⟨none, [], [], []⟩) staleSeekRun
    let y := (fileSeeks [7, 8, 9]).runList (.new [7, 8, 9], ⟨none, [], [], []⟩) staleReadRun
    ((fileSeeks [7, 8, 9]).Reachable x ∧
      x.1.Polls (.seek (.start 1)) (some (.seek (.ok 3))) ∧
      ¬ x.2.Denotes x.1.file.pos 3 (.start 1)) ∧
    ((fileSeeks [7, 8, 9]).Reachable y ∧ y.1.call = none ∧ y.2.sought = some 2 ∧
      y.2.delivered = [7] ∧ y.2.since = [[7, 8, 9]] ∧ ¬ Shows y.2.since 2 y.2.delivered) := by
  have since : ((fileSeeks [7, 8, 9]).runList (.new [7, 8, 9], ⟨none, [], [], []⟩)
      staleReadRun).2.since = [[7, 8, 9]] := by decide +kernel
  refine ⟨⟨.of_follows ⟨.inl rfl, rfl⟩ (by decide +kernel), by decide +kernel, fun h => ?_⟩,
    .of_follows ⟨.inl rfl, rfl⟩ (by decide +kernel), by decide +kernel, by decide +kernel,
    by decide +kernel, since, fun h => ?_⟩
  · exact absurd (show 3 = 1 from h) (by decide)
  · obtain ⟨c, hc, hb⟩ := h 0 7 (by decide +kernel)
    rw [since] at hc
    obtain rfl := List.mem_singleton.mp hc
    exact absurd hb (by decide)

end RustAsync
