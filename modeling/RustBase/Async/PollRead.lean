import RustBase.Support.FileContent
import RustBase.Support.Machine

/-!
# Async — sequential reads

`poll_read` of `File` and of `Stdin` is one loop: deliver from the leftover bytes, or else take the
result of the job under way as the new leftover, or else post a job that reads as many bytes as the
buffer has, and at least one.  A `File` reads at its cursor, which it moves when it takes a result;
`Stdin` reads on.

An iteration of the loop is a step, so the pool may finish a job between any two of them.  A poll
that returned `Poll::Pending` leaves the job in the handle, for whatever poll comes next.

`fetched` are the bytes the blocking reads have returned, and `delivered` those the polls have.
**`reads_faithful`**: what was delivered is a prefix of the content of the file, or of what was read
from the standard input; a poll reports the end only after all of it; and an error loses nothing.
-/

namespace RustAsync
open Support

/-- What is read. -/
inductive ReadSource where
  | file (content : Bytes)
  | stdin

/-- The cursor after `n` bytes were taken; `Stdin` has none. -/
def ReadSource.advance : ReadSource → ℕ → ℕ → ℕ
  | .file _, pos, n => pos + n
  | .stdin, pos, _ => pos

/-- The job of a `poll_read`. -/
structure ReadJob where
  pos : ℕ
  len : ℕ
  result : Option (Except IoError Bytes)
  deriving DecidableEq

/-- What the blocking read of a job may return. -/
def ReadSource.Answers : ReadSource → ReadJob → Except IoError Bytes → Prop
  | _, _, .error _ => True
  | .file content, j, .ok bs => Reads content j.pos j.len bs
  | .stdin, j, .ok bs => bs.length ≤ j.len

instance : ∀ (src : ReadSource) (j : ReadJob) (r : Except IoError Bytes),
    Decidable (src.Answers j r)
  | .file _, _, .error _ | .stdin, _, .error _ => inferInstanceAs (Decidable True)
  | .file _, _, .ok _ => inferInstanceAs (Decidable (Reads ..))
  | .stdin, _, .ok _ => inferInstanceAs (Decidable (_ ≤ _))

/-- What a poll returns: the bytes it has put into the buffer. -/
inductive ReadPoll where
  | pending
  | ready (r : Except IoError Bytes)
  deriving DecidableEq

structure Reader where
  pos : ℕ
  busy : Option ReadJob
  leftover : Bytes
  /-- the length of the buffer of the poll under way -/
  call : Option ℕ
  fetched : Bytes
  delivered : Bytes
  deriving DecidableEq

inductive ReadAct where
  | poll (len : ℕ)
  /-- an iteration of the loop -/
  | iterate (len : ℕ)
  /-- the pool runs the job -/
  | run (j : ReadJob) (r : Except IoError Bytes)
  deriving DecidableEq

namespace Reader

def new : Reader := ⟨0, none, [], none, [], []⟩

/-- An iteration of the loop of `poll_read`, and what it returns; `none` goes on. -/
def iterate (src : ReadSource) (s : Reader) (len : ℕ) : Reader × Option ReadPoll :=
  if s.leftover ≠ [] then
    let n := min len s.leftover.length
    let bs := s.leftover.take n
    ({ s with leftover := s.leftover.drop n, call := none, delivered := s.delivered ++ bs },
      some (.ready (.ok bs)))
  else
    match s.busy with
    | some j =>
        match j.result with
        | none => ({ s with call := none }, some .pending)
        | some (.error e) => ({ s with busy := none, call := none }, some (.ready (.error e)))
        | some (.ok bs) =>
            if bs = [] then ({ s with busy := none, call := none }, some (.ready (.ok [])))
            else ({ s with pos := src.advance s.pos bs.length, busy := none, leftover := bs }, none)
    | none => ({ s with busy := some ⟨s.pos, max len 1, none⟩ }, none)

def Enabled (src : ReadSource) (s : Reader) : ReadAct → Prop
  | .poll _ => s.call = none
  | .iterate len => s.call = some len
  | .run j r => s.busy = some j ∧ j.result = none ∧ src.Answers j r

/-- The bytes of a result. -/
def bytesOf : Except IoError Bytes → Bytes
  | .ok bs => bs
  | .error _ => []

def next (src : ReadSource) (s : Reader) : ReadAct → Reader
  | .poll len => { s with call := some len }
  | .iterate len => (s.iterate src len).1
  | .run j r =>
      { s with busy := some { j with result := some r }, fetched := s.fetched ++ bytesOf r }

end Reader

/-- The polls of a fresh handle. -/
def readMachine (src : ReadSource) : Machine Reader ReadAct where
  Init s := s = .new
  Enabled s := s.Enabled src
  next s := s.next src

instance (src : ReadSource) (s : Reader) : ∀ a, Decidable ((readMachine src).Enabled s a)
  | .poll _ | .iterate _ => inferInstanceAs (Decidable (_ = _))
  | .run _ _ => inferInstanceAs (Decidable (_ ∧ _ ∧ _))

namespace Reader

variable {src : ReadSource} {s : Reader} {len : ℕ} {j : ReadJob}

/-! The branches of an iteration. -/

theorem iterate_of_leftover (h : s.leftover ≠ []) : s.iterate src len =
    ({ s with leftover := s.leftover.drop (min len s.leftover.length), call := none,
              delivered := s.delivered ++ s.leftover.take (min len s.leftover.length) },
      some (.ready (.ok (s.leftover.take (min len s.leftover.length))))) :=
  if_pos h

theorem iterate_of_pending (h : s.leftover = []) (hj : s.busy = some j) (hr : j.result = none) :
    s.iterate src len = ({ s with call := none }, some .pending) := by
  simp [iterate, h, hj, hr]

theorem iterate_of_error (h : s.leftover = []) (hj : s.busy = some j) {e : IoError}
    (hr : j.result = some (.error e)) :
    s.iterate src len = ({ s with busy := none, call := none }, some (.ready (.error e))) := by
  simp [iterate, h, hj, hr]

theorem iterate_of_end (h : s.leftover = []) (hj : s.busy = some j)
    (hr : j.result = some (.ok [])) :
    s.iterate src len = ({ s with busy := none, call := none }, some (.ready (.ok []))) := by
  simp [iterate, h, hj, hr]

theorem iterate_of_result (h : s.leftover = []) (hj : s.busy = some j) {bs : Bytes}
    (hr : j.result = some (.ok bs)) (hb : bs ≠ []) : s.iterate src len =
      ({ s with pos := src.advance s.pos bs.length, busy := none, leftover := bs }, none) := by
  simp [iterate, h, hj, hr, hb]

theorem iterate_of_idle (h : s.leftover = []) (hj : s.busy = none) :
    s.iterate src len = ({ s with busy := some ⟨s.pos, max len 1, none⟩ }, none) := by
  simp [iterate, h, hj]

/-- What an iteration may do. -/
theorem iterate_cases (s : Reader) :
    s.leftover ≠ [] ∨ s.leftover = [] ∧ (s.busy = none ∨ ∃ j, s.busy = some j ∧
      (j.result = none ∨ (∃ e, j.result = some (.error e)) ∨ j.result = some (.ok []) ∨
        ∃ bs, j.result = some (.ok bs) ∧ bs ≠ [])) := by
  by_cases h : s.leftover = []
  · refine .inr ⟨h, ?_⟩
    cases hj : s.busy with
    | none => exact .inl rfl
    | some j =>
        refine .inr ⟨j, rfl, ?_⟩
        cases hr : j.result with
        | none => exact .inl rfl
        | some r =>
            cases r with
            | error e => exact .inr (.inl ⟨e, rfl⟩)
            | ok bs =>
                by_cases hb : bs = []
                · exact .inr (.inr (.inl (by rw [hb])))
                · exact .inr (.inr (.inr ⟨bs, rfl, hb⟩))
  · exact .inl h

/-- The result of the job that no poll has taken. -/
def untaken (s : Reader) : Bytes :=
  match s.busy with
  | some ⟨_, _, some r⟩ => bytesOf r
  | some ⟨_, _, none⟩ | none => []

/-- Where the cursor of a `File` is, and what its job reads; nothing of `Stdin`. -/
def Placed (src : ReadSource) (s : Reader) : Prop :=
  match src with
  | .file content => s.delivered ++ s.leftover = content.take s.pos ∧ s.pos ≤ content.length ∧
      ∀ j, s.busy = some j → j.pos = s.pos ∧ ∀ bs, j.result = some (.ok bs) →
        Reads content j.pos j.len bs
  | .stdin => True

structure Inv (src : ReadSource) (s : Reader) : Prop where
  fetched : s.fetched = s.delivered ++ s.leftover ++ s.untaken
  leftover : s.leftover = [] ∨ s.busy = none
  len : ∀ j, s.busy = some j → 0 < j.len
  placed : Placed src s

theorem untaken_of_result {r : Except IoError Bytes} (hj : s.busy = some j)
    (hr : j.result = some r) : s.untaken = bytesOf r := by
  obtain ⟨pos, len, result⟩ := j
  obtain rfl : result = some r := hr
  simp [untaken, hj]

theorem untaken_of_pending (hj : s.busy = some j) (hr : j.result = none) : s.untaken = [] := by
  obtain ⟨pos, len, result⟩ := j
  obtain rfl : result = none := hr
  simp [untaken, hj]

namespace Inv

theorem init (src : ReadSource) : Inv src .new where
  fetched := rfl
  leftover := .inl rfl
  len j hj := by cases hj
  placed := by
    cases src with
    | file content => exact ⟨by simp [new], Nat.zero_le _, fun j hj => by cases hj⟩
    | stdin => trivial

theorem deliver (h : Inv src s) (hl : s.leftover ≠ []) : Inv src (s.iterate src len).1 := by
  rw [iterate_of_leftover hl]
  have idle : s.busy = none := h.leftover.resolve_left hl
  have same : ∀ n, s.delivered ++ s.leftover.take n ++ s.leftover.drop n =
      s.delivered ++ s.leftover := by
    intro n
    rw [List.append_assoc, List.take_append_drop]
  refine ⟨?_, .inr idle, h.len, ?_⟩
  · change s.fetched = s.delivered ++ _ ++ _ ++ s.untaken
    rw [same]
    exact h.fetched
  · cases src with
    | file content =>
        obtain ⟨ht, hp, hj⟩ := h.placed
        exact ⟨(same _).trans ht, hp, hj⟩
    | stdin => trivial

/-- A result that holds no byte is dropped. -/
theorem drop_result (h : Inv src s) (hl : s.leftover = []) (hu : s.untaken = []) :
    Inv src { s with busy := none, call := none } := by
  refine ⟨?_, .inl hl, fun j hj => (by cases hj), ?_⟩
  · change s.fetched = s.delivered ++ s.leftover ++ []
    rw [h.fetched, hu]
  · cases src with
    | file content =>
        obtain ⟨ht, hp, -⟩ := h.placed
        exact ⟨ht, hp, fun j hj => by cases hj⟩
    | stdin => trivial

theorem take_result (h : Inv src s) (hl : s.leftover = []) (hj : s.busy = some j) {bs : Bytes}
    (hr : j.result = some (.ok bs)) :
    Inv src { s with pos := src.advance s.pos bs.length, busy := none, leftover := bs } := by
  have untaken : s.untaken = bs := untaken_of_result hj hr
  refine ⟨?_, .inr rfl, fun j hj => (by cases hj), ?_⟩
  · change s.fetched = s.delivered ++ bs ++ []
    rw [h.fetched, hl, untaken, List.append_nil, List.append_nil]
  · cases src with
    | file content =>
        obtain ⟨ht, hp, hjob⟩ := h.placed
        obtain ⟨hpos, hreads⟩ := hjob j hj
        have reads := hreads bs hr
        rw [hpos] at reads
        rw [hl, List.append_nil] at ht
        refine ⟨?_, ?_, fun j hj => by cases hj⟩
        · change s.delivered ++ bs = content.take (s.pos + bs.length)
          rw [ht, reads.take_append]
        · change s.pos + bs.length ≤ content.length
          have len := congrArg List.length reads.eq_take
          simp only [List.length_take, List.length_drop] at len
          omega
    | stdin => trivial

theorem post (h : Inv src s) (hl : s.leftover = []) (hj : s.busy = none) :
    Inv src { s with busy := some ⟨s.pos, max len 1, none⟩ } := by
  have untaken : s.untaken = [] := by simp [Reader.untaken, hj]
  refine ⟨?_, .inl hl, fun j hj => ?_, ?_⟩
  · change s.fetched = s.delivered ++ s.leftover ++ []
    rw [h.fetched, untaken]
  · cases hj
    exact Nat.lt_of_lt_of_le Nat.one_pos (Nat.le_max_right _ _)
  · cases src with
    | file content =>
        obtain ⟨ht, hp, -⟩ := h.placed
        refine ⟨ht, hp, fun j hj => ?_⟩
        cases hj
        exact ⟨rfl, fun bs hb => by cases hb⟩
    | stdin => trivial

theorem iterate (h : Inv src s) : Inv src (s.iterate src len).1 := by
  rcases s.iterate_cases with hl | ⟨hl, hj | ⟨j, hj, hr | ⟨e, hr⟩ | hr | ⟨bs, hr, hb⟩⟩⟩
  · exact h.deliver hl
  · rw [iterate_of_idle hl hj]
    exact h.post hl hj
  · rw [iterate_of_pending hl hj hr]
    exact ⟨h.fetched, h.leftover, h.len, h.placed⟩
  · rw [iterate_of_error hl hj hr]
    exact h.drop_result hl (untaken_of_result hj hr)
  · rw [iterate_of_end hl hj hr]
    exact h.drop_result hl (untaken_of_result hj hr)
  · rw [iterate_of_result hl hj hr hb]
    exact h.take_result hl hj hr

theorem run (h : Inv src s) {r : Except IoError Bytes} (hj : s.busy = some j)
    (hn : j.result = none) (ha : src.Answers j r) : Inv src (s.next src (.run j r)) := by
  have empty : s.leftover = [] := by
    rcases h.leftover with hl | hb
    · exact hl
    · rw [hb] at hj
      cases hj
  have untaken : s.untaken = [] := untaken_of_pending hj hn
  refine ⟨?_, .inl empty, fun j' hj' => ?_, ?_⟩
  · change s.fetched ++ bytesOf r = s.delivered ++ s.leftover ++ bytesOf r
    rw [h.fetched, untaken, List.append_nil]
  · cases hj'
    exact h.len j hj
  · cases src with
    | file content =>
        obtain ⟨ht, hp, hjob⟩ := h.placed
        refine ⟨ht, hp, fun j' hj' => ?_⟩
        cases hj'
        refine ⟨(hjob j hj).1, fun bs hb => ?_⟩
        obtain rfl : r = .ok bs := Option.some.inj hb
        exact ha
    | stdin => trivial

end Inv

theorem inv_of_reachable (h : (readMachine src).Reachable s) : Inv src s := by
  refine h.invariant (I := Inv src) (fun s hi => ?_) fun s a _ hi _ ha => ?_
  · obtain rfl : s = .new := hi
    exact .init src
  · cases a with
    | poll len => exact ⟨hi.fetched, hi.leftover, hi.len, hi.placed⟩
    | iterate len => exact hi.iterate
    | run j r => exact hi.run ha.1 ha.2.1 ha.2.2

/-! ### The stream -/

/-- The polls of a handle read `stream`. -/
structure Faithful (src : ReadSource) (s : Reader) (stream : Bytes) : Prop where
  delivered : s.delivered <+: stream
  /-- `Ready(Ok(0))` for a buffer that is not empty -/
  eof : ∀ len, s.call = some len → 0 < len → (s.iterate src len).2 = some (.ready (.ok [])) →
    s.delivered = stream ∧ ∃ j, s.busy = some j ∧ j.result = some (.ok [])
  /-- the bytes that were read have all been delivered, and a `File` goes on after them -/
  error : ∀ len e, (s.iterate src len).2 = some (.ready (.error e)) →
    (s.iterate src len).1.delivered = s.fetched ∧ (s.iterate src len).1.leftover = [] ∧
      (s.iterate src len).1.busy = none ∧
      ∀ content, src = .file content → (s.iterate src len).1.pos = s.fetched.length

/-- A poll that returns no byte for a buffer that is not empty has an empty result before it. -/
theorem end_of_iterate (hl : 0 < len)
    (hr : (s.iterate src len).2 = some (.ready (.ok []))) :
    s.leftover = [] ∧ ∃ j, s.busy = some j ∧ j.result = some (.ok []) := by
  rcases s.iterate_cases with h | ⟨h, hj | ⟨j, hj, hn | ⟨e, he⟩ | he | ⟨bs, he, hb⟩⟩⟩
  · rw [iterate_of_leftover h] at hr
    simp only [Option.some.injEq, ReadPoll.ready.injEq, Except.ok.injEq,
      List.take_eq_nil_iff, h, or_false] at hr
    have := List.length_pos_of_ne_nil h
    omega
  · rw [iterate_of_idle h hj] at hr
    cases hr
  · rw [iterate_of_pending h hj hn] at hr
    cases hr
  · rw [iterate_of_error h hj he] at hr
    cases hr
  · exact ⟨h, j, hj, he⟩
  · rw [iterate_of_result h hj he hb] at hr
    cases hr

theorem error_of_iterate {e : IoError}
    (hr : (s.iterate src len).2 = some (.ready (.error e))) :
    s.leftover = [] ∧ ∃ j, s.busy = some j ∧ j.result = some (.error e) := by
  rcases s.iterate_cases with h | ⟨h, hj | ⟨j, hj, hn | ⟨e', he⟩ | he | ⟨bs, he, hb⟩⟩⟩
  · rw [iterate_of_leftover h] at hr
    cases hr
  · rw [iterate_of_idle h hj] at hr
    cases hr
  · rw [iterate_of_pending h hj hn] at hr
    cases hr
  · rw [iterate_of_error h hj he] at hr
    cases hr
    exact ⟨h, j, hj, he⟩
  · rw [iterate_of_end h hj he] at hr
    cases hr
  · rw [iterate_of_result h hj he hb] at hr
    cases hr

/-- Nothing was read that was not delivered, when no byte is left over or in a result. -/
theorem Inv.fetched_eq (h : Inv src s) (hl : s.leftover = []) (hu : s.untaken = []) :
    s.fetched = s.delivered := by
  rw [h.fetched, hl, hu, List.append_nil, List.append_nil]

theorem Inv.faithful (h : Inv src s) {stream : Bytes} (hd : s.delivered <+: stream)
    (he : ∀ j, s.leftover = [] → s.busy = some j → j.result = some (.ok []) →
      s.delivered = stream) : Faithful src s stream where
  delivered := hd
  eof len _ hl hr := by
    obtain ⟨hlo, j, hj, hres⟩ := end_of_iterate hl hr
    exact ⟨he j hlo hj hres, j, hj, hres⟩
  error len e hr := by
    obtain ⟨hlo, j, hj, hres⟩ := error_of_iterate hr
    have fetched := h.fetched_eq hlo (untaken_of_result hj hres)
    rw [iterate_of_error hlo hj hres]
    refine ⟨fetched.symm, hlo, rfl, ?_⟩
    rintro content rfl
    obtain ⟨ht, hp, -⟩ := h.placed
    rw [hlo, List.append_nil] at ht
    change s.pos = _
    rw [fetched, ht, List.length_take]
    omega

/-- **Sequential reads are a faithful stream**, of the content of a file and of what the blocking
reads of the standard input return. -/
theorem reads_faithful :
    (∀ content s, (readMachine (.file content)).Reachable s → s.Faithful (.file content) content) ∧
      ∀ s, (readMachine .stdin).Reachable s → s.Faithful .stdin s.fetched := by
  constructor
  · intro content s hs
    have h := inv_of_reachable hs
    obtain ⟨ht, hp, hjob⟩ := h.placed
    refine h.faithful ?_ fun j hl hj hr => ?_
    · have whole : s.delivered ++ s.leftover <+: content := ht ▸ List.take_prefix _ _
      exact (List.prefix_append _ _).trans whole
    · -- the `pread` that returned nothing was at the end
      obtain ⟨hpos, hreads⟩ := hjob j hj
      have at_end := (hreads [] hr).end_of_empty (h.len j hj)
      rw [hl, List.append_nil] at ht
      rw [ht]
      exact List.take_of_length_le (by omega)
  · intro s hs
    have h := inv_of_reachable hs
    refine h.faithful ?_ fun j hl hj hr => ?_
    · rw [h.fetched, List.append_assoc]
      exact List.prefix_append _ _
    · exact (h.fetched_eq hl (untaken_of_result hj hr)).symm

/-- A job for three bytes that a poll abandons; the next poll takes one of the two it read. -/
def abandonedRun : List ReadAct :=
  [.poll 3, .iterate 3, .iterate 3, .run ⟨0, 3, none⟩ (.ok [1, 2]), .poll 1, .iterate 1, .iterate 1]

theorem reads_faithful_abandoned :
    ∃ s, (readMachine (.file [1, 2, 3])).Reachable s ∧ s.delivered = [1] ∧ s.leftover = [2] ∧
      s.Faithful (.file [1, 2, 3]) [1, 2, 3] := by
  have run : (readMachine (.file [1, 2, 3])).Follows (fun _ _ => True) .new abandonedRun := by
    decide +kernel
  have hs := Machine.ReachableBy.of_follows rfl run
  exact ⟨_, hs, by decide +kernel, by decide +kernel, reads_faithful.1 _ _ hs⟩

end Reader

end RustAsync
