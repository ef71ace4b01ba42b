import RustBase.Async.PollWrite

/-!
# Async — the standard output

Any number of `Stdout` handles, or of `Stderr` handles, on the one stream of the process, each used
by a task at a time, and whatever else in the process prints to it.

* `poll_write` and `poll_flush`, which is also `poll_close`, take the job that is in their slot, or
  make one.  A call that is abandoned leaves its job in the slot; a handle that is dropped leaves it
  to the pool, which runs it all the same.
* A job has the lock of the stream for all of its `write_all` or `flush`.  What is written to the
  standard output is buffered, and goes to the descriptor in pieces while somebody has the lock; the
  standard error is not buffered.  Both may fail at any point.
* The result of a job is stored after the lock was given back.

`told` are the writes whose count a call has returned; it is a history variable, and so are the ones
that a job and a handle keep of it, and `segments`, what was accepted under each lock.

**`written_in_order`**: what was accepted is on the descriptor or in the buffer, in the order of the
locks; a write that returns its count is there in one piece, once, and the writes of a handle are in
the order of its calls.  **`flush_covers`**: a flush that returns `Ok` has put everything on the
descriptor that was told before its job was made; so all that was told before the call, when the call
found no job in its slot.
-/

namespace RustAsync
open Support

namespace Stdio

abbrev HandleId := ℕ
abbrev JobId := ℕ

inductive Call where
  | write (buf : Bytes)
  | flush
  deriving DecidableEq

/-- What `write_all` is given. -/
def Call.data : Call → Bytes
  | .write buf => buf
  | .flush => []

def Call.isWrite : Call → Bool
  | .write _ => true
  | .flush => false

inductive JobPhase where
  | queued
  /-- it has the lock -/
  | running
  /-- the lock was given back; storing the result is next -/
  | returned (r : Except IoError ℕ)
  | stored (r : Except IoError ℕ)
  deriving DecidableEq

namespace JobPhase

/-- The result of the closure. -/
def outcome : JobPhase → Option (Except IoError ℕ)
  | .returned r | .stored r => some r
  | .queued | .running => none

/-- What a poll finds. -/
def result : JobPhase → Option (Except IoError ℕ)
  | .stored r => some r
  | .queued | .running | .returned _ => none

theorem result_eq_some {p : JobPhase} {r : Except IoError ℕ} :
    p.result = some r ↔ p = .stored r := by
  cases p <;> simp [result]

end JobPhase

/-- The job of an `Offload`. -/
structure Job where
  owner : HandleId
  work : Call
  phase : JobPhase
  /-- the writes that were told when it was made -/
  told : List JobId
  deriving DecidableEq

/-- `Stdout` or `Stderr`. -/
structure Handle where
  writeBusy : Option JobId
  flushBusy : Option JobId
  /-- the call that was made and has neither returned nor been abandoned -/
  call : Option Call
  /-- a poll of it is under way -/
  polling : Bool
  dropped : Bool
  /-- the job that was in the slot when the last call was made -/
  found : Option JobId
  /-- the writes that were told then -/
  told : List JobId
  deriving DecidableEq

namespace Handle

def new : Handle := ⟨none, none, none, false, false, none, []⟩

/-- The slot of a call. -/
def busy (x : Handle) : Call → Option JobId
  | .write _ => x.writeBusy
  | .flush => x.flushBusy

def setBusy (x : Handle) (j : Option JobId) : Call → Handle
  | .write _ => { x with writeBusy := j }
  | .flush => { x with flushBusy := j }

variable {x : Handle} {j : Option JobId} {c d : Call}

theorem busy_setBusy (h : d.isWrite = c.isWrite) : (x.setBusy j c).busy d = j := by
  cases c <;> cases d <;> first | rfl | cases h

theorem busy_setBusy_of_ne (h : d.isWrite ≠ c.isWrite) : (x.setBusy j c).busy d = x.busy d := by
  cases c <;> cases d <;> first | rfl | exact absurd rfl h

theorem busy_congr (h : d.isWrite = c.isWrite) : x.busy d = x.busy c := by
  cases c <;> cases d <;> first | rfl | cases h

@[simp] theorem dropped_setBusy : (x.setBusy j c).dropped = x.dropped := by cases c <;> rfl

end Handle

/-- What was accepted under a lock: the write it was for, or `none` if somebody else printed. -/
structure Segment where
  source : Option (HandleId × JobId)
  bytes : Bytes
  deriving DecidableEq

structure State where
  sink : Sink
  /-- what is on the descriptor -/
  out : Bytes
  buffered : Bytes
  /-- the job that has the lock, and how much of its data was accepted -/
  holder : Option (JobId × ℕ)
  jobs : JobId → Option Job
  /-- the number of jobs that were made -/
  made : ℕ
  handles : HandleId → Handle
  segments : List Segment
  told : List JobId

inductive Act where
  | begin_ (h : HandleId) (c : Call)
  /-- the call is polled again -/
  | poll (h : HandleId)
  | abandon (h : HandleId)
  | drop (h : HandleId)
  /-- an iteration of the loop of the poll -/
  | iterate (h : HandleId) (c : Call)
  | lock (j : JobId) (x : Job)
  /-- `write_all` gets rid of `n` bytes -/
  | accept (j : JobId) (w : ℕ) (x : Job) (n : ℕ)
  /-- `n` bytes of the buffer go to the descriptor -/
  | spill (j : JobId) (w : ℕ) (n : ℕ)
  | finish (j : JobId) (w : ℕ) (x : Job)
  | fail (j : JobId) (w : ℕ) (x : Job) (e : IoError)
  | store (j : JobId) (x : Job) (r : Except IoError ℕ)
  /-- somebody else in the process prints -/
  | print (bs : Bytes)
  deriving DecidableEq

namespace State

def new (sink : Sink) : State where
  sink := sink
  out := []
  buffered := []
  holder := none
  jobs _ := none
  made := 0
  handles _ := .new
  segments := []
  told := []

def setHandle (s : State) (h : HandleId) (x : Handle) : State :=
  { s with handles := Function.update s.handles h x }

def setJob (s : State) (j : JobId) (x : Job) : State :=
  { s with jobs := Function.update s.jobs j (some x) }

/-- What the stream does with bytes it accepts. -/
def push (s : State) (bs : Bytes) : State :=
  match s.sink with
  | .stdout => { s with buffered := s.buffered ++ bs }
  | .stderr => { s with out := s.out ++ bs }

/-- The result of the job, if it is stored. -/
def result (s : State) (j : JobId) : Option (Except IoError ℕ) :=
  (s.jobs j).bind fun x => x.phase.result

/-- The call returns what the job has. -/
def finishCall (s : State) (h : HandleId) (c : Call) (j : JobId) (r : Except IoError ℕ) : State :=
  let x := (s.handles h).setBusy none c
  { s.setHandle h { x with call := none, polling := false } with
    told := match c, r with
      | .write _, .ok _ => s.told ++ [j]
      | _, _ => s.told }

/-- `offload`, and the poll that posts it. -/
def offload (s : State) (h : HandleId) (c : Call) : State :=
  { (s.setJob s.made ⟨h, c, .queued, s.told⟩).setHandle h
      ((s.handles h).setBusy (some s.made) c) with
    made := s.made + 1 }

/-- An iteration of the loop of `poll_write` or `poll_flush`. -/
def iterate (s : State) (h : HandleId) (c : Call) : State :=
  match (s.handles h).busy c with
  | none => s.offload h c
  | some j =>
      match s.result j with
      | none => s.setHandle h { s.handles h with polling := false }
      | some r => s.finishCall h c j r

/-- What an iteration does. -/
inductive Iterates (s : State) (h : HandleId) (c : Call) : State → Prop where
  | offload (hb : (s.handles h).busy c = none) : Iterates s h c (s.offload h c)
  | pending {j : JobId} (hb : (s.handles h).busy c = some j) (hr : s.result j = none) :
      Iterates s h c (s.setHandle h { s.handles h with polling := false })
  | ready {j : JobId} {r : Except IoError ℕ} (hb : (s.handles h).busy c = some j)
      (hr : s.result j = some r) : Iterates s h c (s.finishCall h c j r)

theorem iterates (s : State) (h : HandleId) (c : Call) : s.Iterates h c (s.iterate h c) := by
  unfold iterate
  split
  next hb => exact .offload hb
  next j hb =>
    split
    next hr => exact .pending hb hr
    next r hr => exact .ready hb hr

/-- The poll of the handle is about to return the result of the job `j`. -/
def Returns (s : State) (h : HandleId) (c : Call) (j : JobId) (r : Except IoError ℕ) : Prop :=
  (s.handles h).call = some c ∧ (s.handles h).polling = true ∧ (s.handles h).busy c = some j ∧
    s.result j = some r

def Enabled (s : State) : Act → Prop
  | .begin_ h _ => (s.handles h).call = none ∧ (s.handles h).dropped = false
  | .poll h | .abandon h => (s.handles h).call.isSome = true ∧ (s.handles h).polling = false
  | .drop h => (s.handles h).call = none ∧ (s.handles h).dropped = false
  | .iterate h c => (s.handles h).call = some c ∧ (s.handles h).polling = true
  | .lock j x => s.holder = none ∧ s.jobs j = some x ∧ x.phase = .queued
  | .accept j w x n =>
      s.holder = some (j, w) ∧ s.jobs j = some x ∧ 0 < n ∧ w + n ≤ x.work.data.length
  | .spill j w n => s.holder = some (j, w) ∧ n ≤ s.buffered.length
  | .finish j w x =>
      s.holder = some (j, w) ∧ s.jobs j = some x ∧ w = x.work.data.length ∧
        (x.work = .flush → s.buffered = [])
  | .fail j w x _ => s.holder = some (j, w) ∧ s.jobs j = some x
  | .store j x r => s.jobs j = some x ∧ x.phase = .returned r
  | .print _ => s.holder = none

/-- The lock is given back. -/
def unlock (s : State) (j : JobId) (w : ℕ) (x : Job) (r : Except IoError ℕ) : State :=
  { s.setJob j { x with phase := .returned r } with
    holder := none
    segments := match x.work with
      | .write buf => s.segments ++ [⟨some (x.owner, j), buf.take w⟩]
      | .flush => s.segments }

def next (s : State) : Act → State
  | .begin_ h c =>
      let x := s.handles h
      s.setHandle h { x with
        call := some c, polling := true, found := x.busy c, told := s.told }
  | .poll h => s.setHandle h { s.handles h with polling := true }
  | .abandon h => s.setHandle h { s.handles h with call := none }
  | .drop h =>
      s.setHandle h { s.handles h with writeBusy := none, flushBusy := none, dropped := true }
  | .iterate h c => s.iterate h c
  | .lock j x => { s.setJob j { x with phase := .running } with holder := some (j, 0) }
  | .accept j w x n =>
      { s.push ((x.work.data.drop w).take n) with holder := some (j, w + n) }
  | .spill _ _ n => { s with out := s.out ++ s.buffered.take n, buffered := s.buffered.drop n }
  | .finish j w x => s.unlock j w x (.ok x.work.data.length)
  | .fail j w x e => s.unlock j w x (.error e)
  | .store j x r => s.setJob j { x with phase := .stored r }
  | .print bs => { s.push bs with segments := s.segments ++ [⟨none, bs⟩] }

end State

def machine (sink : Sink) : Machine State Act where
  Init s := s = .new sink
  Enabled := State.Enabled
  next := State.next

instance (s : State) : ∀ a, Decidable (s.Enabled a)
  | .begin_ _ _ | .poll _ | .abandon _ | .drop _ | .iterate _ _ | .spill _ _ _ | .fail _ _ _ _
  | .store _ _ _ => inferInstanceAs (Decidable (_ ∧ _))
  | .lock _ _ => inferInstanceAs (Decidable (_ ∧ _ ∧ _))
  | .accept _ _ _ _ | .finish _ _ _ => inferInstanceAs (Decidable (_ ∧ _ ∧ _ ∧ _))
  | .print _ => inferInstanceAs (Decidable (_ = _))

instance (sink : Sink) : ∀ s a, Decidable ((machine sink).Enabled s a) :=
  fun s a => inferInstanceAs (Decidable (s.Enabled a))

/-! ### The bytes -/

namespace State

variable {s s' : State} {a : Act} {h : HandleId} {j : JobId} {x : Job}

theorem handles_setHandle {y : Handle} : (s.setHandle h y).handles h = y := Function.update_self ..

theorem handles_setHandle_of_ne {k : HandleId} {y : Handle} (hk : k ≠ h) :
    (s.setHandle h y).handles k = s.handles k := Function.update_of_ne hk ..

/-- What the holder of the lock has got rid of. -/
def accepting (s : State) : Bytes :=
  match s.holder with
  | some (j, w) => ((s.jobs j).elim [] fun x => x.work.data).take w
  | none => []

theorem accepting_of_holder {w : ℕ} (hh : s.holder = some (j, w)) (hj : s.jobs j = some x) :
    s.accepting = x.work.data.take w := by
  simp only [accepting, hh, hj, Option.elim]

theorem accepting_of_free (hh : s.holder = none) : s.accepting = [] := by
  simp only [accepting, hh]

/-- The stream, and who has its lock. -/
structure Streamed (s : State) : Prop where
  fresh : ∀ j x, s.jobs j = some x → j < s.made
  unbuffered : s.sink = .stderr → s.buffered = []
  bytes : s.out ++ s.buffered = s.segments.flatMap Segment.bytes ++ s.accepting
  holder : ∀ j w, s.holder = some (j, w) →
    ∃ x, s.jobs j = some x ∧ x.phase = .running ∧ w ≤ x.work.data.length

section Push

variable (s : State) (bs : Bytes)

@[simp] theorem push_sink : (s.push bs).sink = s.sink := by unfold push; split <;> rfl
@[simp] theorem push_holder : (s.push bs).holder = s.holder := by unfold push; split <;> rfl
@[simp] theorem push_jobs : (s.push bs).jobs = s.jobs := by unfold push; split <;> rfl
@[simp] theorem push_made : (s.push bs).made = s.made := by unfold push; split <;> rfl
@[simp] theorem push_handles : (s.push bs).handles = s.handles := by unfold push; split <;> rfl
@[simp] theorem push_segments : (s.push bs).segments = s.segments := by unfold push; split <;> rfl
@[simp] theorem push_told : (s.push bs).told = s.told := by unfold push; split <;> rfl

theorem out_prefix_push : s.out <+: (s.push bs).out := by
  unfold push
  split
  · exact List.prefix_refl _
  · exact List.prefix_append ..

end Push

theorem push_of_streamed (hs : s.Streamed) (bs : Bytes) :
    (s.push bs).out ++ (s.push bs).buffered = s.out ++ s.buffered ++ bs ∧
      (s.sink = .stderr → (s.push bs).buffered = []) := by
  unfold push
  cases hsink : s.sink with
  | stdout => exact ⟨(List.append_assoc ..).symm, fun e => by cases e⟩
  | stderr =>
      have none := hs.unbuffered hsink
      refine ⟨?_, fun _ => none⟩
      simp only [none, List.append_nil]

namespace Streamed

/-- A step that leaves the stream and the job with the lock alone. -/
theorem frame (hs : s.Streamed) (hsink : s'.sink = s.sink) (hout : s'.out = s.out)
    (hbuf : s'.buffered = s.buffered) (hseg : s'.segments = s.segments)
    (hhold : s'.holder = s.holder)
    (hjobs : ∀ j x, s.jobs j = some x → x.phase = .running → s'.jobs j = some x)
    (hfresh : ∀ j x, s'.jobs j = some x → j < s'.made) : s'.Streamed where
  fresh := hfresh
  unbuffered e := by
    rw [hbuf]
    exact hs.unbuffered (hsink ▸ e)
  bytes := by
    have same : s'.accepting = s.accepting := by
      cases hh : s.holder with
      | none => rw [accepting_of_free hh, accepting_of_free (hhold.trans hh)]
      | some p =>
          obtain ⟨x, hx, hp, -⟩ := hs.holder p.1 p.2 hh
          rw [accepting_of_holder hh hx, accepting_of_holder (hhold.trans hh) (hjobs _ x hx hp)]
    rw [hout, hbuf, hseg, same, hs.bytes]
  holder j w hh := by
    obtain ⟨x, hx, hp, hw⟩ := hs.holder j w (hhold ▸ hh)
    exact ⟨x, hjobs j x hx hp, hp, hw⟩

/-- A step that is about a handle. -/
theorem setHandle (hs : s.Streamed) (x : Handle) : (s.setHandle h x).Streamed :=
  hs.frame rfl rfl rfl rfl rfl (fun _ _ hj _ => hj) hs.fresh

theorem offload (hs : s.Streamed) (h : HandleId) (c : Call) : (s.offload h c).Streamed := by
  refine hs.frame rfl rfl rfl rfl rfl (fun j x hj _ => ?_) fun j x hj => ?_
  · exact (Function.update_of_ne (Nat.ne_of_lt (hs.fresh j x hj)) ..).trans hj
  · rcases update_some_eq_some.mp hj with ⟨rfl, -⟩ | ⟨-, hj⟩
    · exact Nat.lt_succ_self _
    · exact Nat.lt_succ_of_lt (hs.fresh j x hj)

theorem iterate {c : Call} (hs : s.Streamed) (step : s.Iterates h c s') : s'.Streamed := by
  cases step with
  | offload hb => exact hs.offload h c
  | pending hb hr => exact hs.setHandle _
  | ready hb hr => exact hs.frame rfl rfl rfl rfl rfl (fun _ _ hj _ => hj) hs.fresh

theorem fresh_setJob (hs : s.Streamed) (hj : s.jobs j = some x) (y : Job) :
    ∀ i z, (s.setJob j y).jobs i = some z → i < s.made := fun i z hi => by
  rcases update_some_eq_some.mp hi with ⟨rfl, -⟩ | ⟨-, hi⟩
  · exact hs.fresh _ x hj
  · exact hs.fresh i z hi

/-- The lock is given back: what was accepted under it is a segment. -/
theorem unlock {w : ℕ} (hs : s.Streamed) (hh : s.holder = some (j, w)) (hj : s.jobs j = some x)
    (r : Except IoError ℕ) : (s.unlock j w x r).Streamed where
  fresh := hs.fresh_setJob hj _
  unbuffered := hs.unbuffered
  bytes := by
    refine hs.bytes.trans ?_
    rw [accepting_of_holder hh hj, accepting_of_free rfl, List.append_nil]
    cases hw : x.work with
    | write buf =>
        simp only [State.unlock, hw, List.flatMap_append]
        simp [Call.data]
    | flush => simp [State.unlock, hw, Call.data]
  holder _ _ e := by cases e

theorem next (hs : s.Streamed) (ha : s.Enabled a) : (s.next a).Streamed := by
  cases a with
  | begin_ h c => exact hs.setHandle _
  | poll h => exact hs.setHandle _
  | abandon h => exact hs.setHandle _
  | drop h => exact hs.setHandle _
  | iterate h c => exact hs.iterate (s.iterates h c)
  | lock j x =>
      obtain ⟨hh, hj, -⟩ := ha
      refine ⟨hs.fresh_setJob hj _, hs.unbuffered, ?_, fun i w e => ?_⟩
      · refine hs.bytes.trans ?_
        have none : (s.next (.lock j x)).accepting = x.work.data.take 0 :=
          accepting_of_holder (x := { x with phase := .running }) rfl (Function.update_self ..)
        rw [accepting_of_free hh, none]
        rfl
      · cases e
        exact ⟨_, Function.update_self .., rfl, Nat.zero_le _⟩
  | accept j w x n =>
      obtain ⟨hh, hj, -, hn⟩ := ha
      obtain ⟨bytes, unbuffered⟩ := push_of_streamed hs ((x.work.data.drop w).take n)
      have hj' : (s.next (.accept j w x n)).jobs j = some x := by simpa [State.next] using hj
      refine ⟨by simpa [State.next] using hs.fresh, by simpa [State.next] using unbuffered, ?_,
        fun i v e => ?_⟩
      · refine bytes.trans ?_
        rw [accepting_of_holder rfl hj', hs.bytes, accepting_of_holder hh hj, List.take_add,
          List.append_assoc]
        simp [State.next]
      · cases e
        obtain ⟨y, hy, hp, -⟩ := hs.holder j w hh
        rw [hj] at hy
        cases hy
        exact ⟨x, hj', hp, hn⟩
  | spill j w n =>
      refine ⟨hs.fresh, fun e => ?_, ?_, hs.holder⟩
      · change s.buffered.drop n = []
        rw [hs.unbuffered e, List.drop_nil]
      · refine Eq.trans ?_ hs.bytes
        change s.out ++ s.buffered.take n ++ s.buffered.drop n = _
        rw [List.append_assoc, List.take_append_drop]
  | finish j w x => exact hs.unlock ha.1 ha.2.1 _
  | fail j w x e => exact hs.unlock ha.1 ha.2 _
  | store j x r =>
      obtain ⟨hj, hp⟩ := ha
      refine hs.frame rfl rfl rfl rfl rfl (fun i y hi hr => ?_) (hs.fresh_setJob hj _)
      refine (Function.update_of_ne ?_ ..).trans hi
      rintro rfl
      rw [hj] at hi
      cases hi
      rw [hp] at hr
      cases hr
  | print bs =>
      obtain ⟨bytes, unbuffered⟩ := push_of_streamed hs bs
      have free : (s.next (.print bs)).holder = none := (push_holder ..).trans ha
      refine ⟨by simpa [State.next] using hs.fresh, by simpa [State.next] using unbuffered, ?_,
        fun i v e => ?_⟩
      · refine bytes.trans ?_
        rw [hs.bytes, accepting_of_free ha, accepting_of_free free]
        simp [State.next]
      · rw [free] at e
        cases e

end Streamed

/-! ### The order of the writes -/

/-- The jobs, their slots and their segments. -/
structure Accounted (s : State) : Prop where
  busy : ∀ h c j, (s.handles h).busy c = some j →
    ∃ x, s.jobs j = some x ∧ x.owner = h ∧ x.work.isWrite = c.isWrite
  segment : ∀ h i bs, ⟨some (h, i), bs⟩ ∈ s.segments →
    ∃ x, s.jobs i = some x ∧ x.owner = h ∧ x.work.isWrite = true ∧ x.phase.outcome.isSome = true
  ended : ∀ j x buf r, s.jobs j = some x → x.work = .write buf → x.phase.outcome = some r →
    ∃ bs, ⟨some (x.owner, j), bs⟩ ∈ s.segments ∧ bs <+: buf ∧
      ∀ n, r = .ok n → bs = buf ∧ n = buf.length
  /-- a handle makes no write while it has one that is not over -/
  latest : ∀ j x, s.jobs j = some x → x.work.isWrite = true → x.phase.result = none →
    ((s.handles x.owner).dropped = true ∨ (s.handles x.owner).writeBusy = some j) ∧
      ∀ k y, s.jobs k = some y → y.work.isWrite = true → y.owner = x.owner → k ≤ j
  ordered : s.segments.Pairwise fun a b =>
    ∀ h i k, a.source = some (h, i) → b.source = some (h, k) → i < k

namespace Accounted

/-- A step that leaves the jobs, the segments and the slots alone. -/
theorem frame (hs : s.Accounted) (hjobs : s'.jobs = s.jobs) (hseg : s'.segments = s.segments)
    (hbusy : ∀ h c, (s'.handles h).busy c = (s.handles h).busy c)
    (hdrop : ∀ h, (s'.handles h).dropped = (s.handles h).dropped) : s'.Accounted where
  busy h c j hj := by
    rw [hjobs]
    exact hs.busy h c j (hbusy h c ▸ hj)
  segment := by
    rw [hjobs, hseg]
    exact hs.segment
  ended := by
    rw [hjobs, hseg]
    exact hs.ended
  latest := by
    intro j x hj hw hr
    rw [hjobs] at hj ⊢
    have slot : (s'.handles x.owner).writeBusy = (s.handles x.owner).writeBusy :=
      hbusy x.owner (.write [])
    rw [hdrop, slot]
    exact hs.latest j x hj hw hr
  ordered := hseg ▸ hs.ordered

/-- The handle keeps its slots. -/
theorem setHandle (hs : s.Accounted) {y : Handle} (hb : ∀ c, y.busy c = (s.handles h).busy c)
    (hd : y.dropped = (s.handles h).dropped) : (s.setHandle h y).Accounted := by
  refine hs.frame rfl rfl (fun k c => ?_) fun k => ?_ <;> by_cases hk : k = h
  · rw [hk, handles_setHandle, hb]
  · rw [handles_setHandle_of_ne hk]
  · rw [hk, handles_setHandle, hd]
  · rw [handles_setHandle_of_ne hk]

/-- Only a handle with an empty slot has no write that is not over. -/
theorem over_of_empty (hs : s.Accounted) (hd : (s.handles h).dropped = false)
    (hb : (s.handles h).writeBusy = none) (hj : s.jobs j = some x) (hw : x.work.isWrite = true)
    (ho : x.owner = h) : x.phase.result ≠ none := fun hr => by
  rcases (hs.latest j x hj hw hr).1 with e | e
  · rw [ho, hd] at e
    cases e
  · rw [ho, hb] at e
    cases e

/-- A job goes on, and may leave a segment. -/
theorem setPhase (hs : s.Accounted) (hj : s.jobs j = some x) {p : JobPhase} {l : List Segment}
    (hr : p.result = none → x.phase.result = none)
    (hsome : x.phase.outcome.isSome = true → p.outcome.isSome = true)
    (hold : ∀ a ∈ s.segments, a ∈ l)
    (hnew : ∀ h i bs, ⟨some (h, i), bs⟩ ∈ l → ⟨some (h, i), bs⟩ ∈ s.segments ∨
      h = x.owner ∧ i = j ∧ x.work.isWrite = true ∧ p.outcome.isSome = true)
    (hend : ∀ buf r, x.work = .write buf → p.outcome = some r →
      ∃ bs, ⟨some (x.owner, j), bs⟩ ∈ l ∧ bs <+: buf ∧ ∀ n, r = .ok n → bs = buf ∧ n = buf.length)
    (hord : l.Pairwise fun a b => ∀ h i k, a.source = some (h, i) → b.source = some (h, k) → i < k) :
    Accounted { s.setJob j { x with phase := p } with segments := l } where
  busy h c i hi := by
    obtain ⟨y, hy, hown, hw⟩ := hs.busy h c i hi
    by_cases e : i = j
    · subst e
      rw [hj] at hy
      cases hy
      exact ⟨_, Function.update_self .., hown, hw⟩
    · exact ⟨y, (Function.update_of_ne e ..).trans hy, hown, hw⟩
  segment h i bs hm := by
    rcases hnew h i bs hm with hm | ⟨rfl, rfl, hw, hp⟩
    · obtain ⟨y, hy, hown, hw, hy'⟩ := hs.segment h i bs hm
      by_cases e : i = j
      · subst e
        rw [hj] at hy
        cases hy
        exact ⟨_, Function.update_self .., hown, hw, hsome hy'⟩
      · exact ⟨y, (Function.update_of_ne e ..).trans hy, hown, hw, hy'⟩
    · exact ⟨_, Function.update_self .., rfl, hw, hp⟩
  ended i y buf r hi hw hy := by
    rcases update_some_eq_some.mp hi with ⟨rfl, rfl⟩ | ⟨-, hi⟩
    · exact hend buf r hw hy
    · obtain ⟨bs, hm, hbs⟩ := hs.ended i y buf r hi hw hy
      exact ⟨bs, hold _ hm, hbs⟩
  latest i y hi hw hy := by
    have last : ∀ z, s.jobs i = some z → z.work.isWrite = true → z.phase.result = none →
        z.owner = y.owner → ((s.handles y.owner).dropped = true ∨
          (s.handles y.owner).writeBusy = some i) ∧
            ∀ k u, (s.setJob j { x with phase := p }).jobs k = some u →
              u.work.isWrite = true → u.owner = y.owner → k ≤ i := by
      intro z hz hzw hzr hown
      rw [← hown]
      refine ⟨(hs.latest i z hz hzw hzr).1, fun k u hk hu he => ?_⟩
      rcases update_some_eq_some.mp hk with ⟨rfl, rfl⟩ | ⟨-, hk⟩
      · exact (hs.latest i z hz hzw hzr).2 _ x hj hu he
      · exact (hs.latest i z hz hzw hzr).2 k u hk hu he
    rcases update_some_eq_some.mp hi with ⟨rfl, rfl⟩ | ⟨-, hi⟩
    · exact last x hj hw (hr hy) rfl
    · exact last y hi hw hy rfl
  ordered := hord

/-- The closure of a job returns: its write was accepted in one piece. -/
theorem unlock {w : ℕ} {r : Except IoError ℕ} (hs : s.Accounted) (hj : s.jobs j = some x)
    (hp : x.phase = .running)
    (hok : ∀ n, r = .ok n → w = x.work.data.length ∧ n = x.work.data.length) :
    (s.unlock j w x r).Accounted := by
  have unended : ∀ bs, ⟨some (x.owner, j), bs⟩ ∉ s.segments := fun bs hm => by
    obtain ⟨y, hy, -, -, hsome⟩ := hs.segment _ _ _ hm
    rw [hj] at hy
    cases hy
    rw [hp] at hsome
    cases hsome
  have result : x.phase.result = none := by rw [hp]; rfl
  refine frame (s := { s.setJob j { x with phase := .returned r } with
      segments := (s.unlock j w x r).segments }) ?_ rfl rfl (fun _ _ => rfl) fun _ => rfl
  have kinds : x.work = .flush ∨ ∃ buf, x.work = .write buf := by cases x.work <;> simp
  rcases kinds with hw | ⟨buf, hw⟩
  · have same : (s.unlock j w x r).segments = s.segments := by simp only [State.unlock, hw]
    rw [same]
    refine hs.setPhase (p := .returned r) hj (fun _ => result) (fun _ => rfl) (fun _ hm => hm)
      (fun _ _ _ hm => .inl hm) (fun buf _ e => ?_) hs.ordered
    rw [hw] at e
    cases e
  · have new : (s.unlock j w x r).segments =
        s.segments ++ [⟨some (x.owner, j), buf.take w⟩] := by simp only [State.unlock, hw]
    rw [new]
    refine hs.setPhase (p := .returned r) hj (fun _ => result) (fun _ => rfl)
      (fun _ hm => List.mem_append_left _ hm) (fun h i bs hm => ?_) (fun b q hb hq => ?_) ?_
    · rcases List.mem_append.mp hm with hm | hm
      · exact .inl hm
      · cases List.mem_singleton.mp hm
        exact .inr ⟨rfl, rfl, by rw [hw]; rfl, rfl⟩
    · rw [hw] at hb
      cases hb
      cases hq
      refine ⟨_, List.mem_append_right _ (List.mem_singleton_self _), List.take_prefix .., ?_⟩
      intro n hn
      obtain ⟨hlen, hcount⟩ := hok n hn
      rw [hw] at hlen hcount
      exact ⟨List.take_of_length_le (Nat.le_of_eq hlen.symm), hcount⟩
    · refine List.pairwise_append.mpr ⟨hs.ordered, List.pairwise_singleton .., fun a ha b hb => ?_⟩
      intro h i k hsrc hb'
      cases List.mem_singleton.mp hb
      cases hb'
      -- an earlier write of the handle has ended, and this one is its last
      have here : ⟨some (x.owner, i), a.bytes⟩ ∈ s.segments := hsrc ▸ ha
      obtain ⟨y, hy, hown, hyw, -⟩ := hs.segment _ _ _ here
      have le := (hs.latest j x hj (by rw [hw]; rfl) result).2 i y hy hyw hown
      refine Nat.lt_of_le_of_ne le ?_
      rintro rfl
      exact unended a.bytes here

/-- A call that found its slot empty makes a job. -/
theorem offload {c : Call} (hs : s.Accounted) (hf : ∀ j x, s.jobs j = some x → j < s.made)
    (hd : (s.handles h).dropped = false) (hb : (s.handles h).busy c = none) :
    (s.offload h c).Accounted where
  busy k c' i hi := by
    by_cases hk : k = h
    · subst hk
      change ((s.setHandle k _).handles k).busy c' = some i at hi
      rw [handles_setHandle] at hi
      by_cases hc : c'.isWrite = c.isWrite
      · rw [Handle.busy_setBusy hc] at hi
        cases hi
        exact ⟨_, Function.update_self .., rfl, hc.symm⟩
      · rw [Handle.busy_setBusy_of_ne hc] at hi
        obtain ⟨y, hy, hown, hw⟩ := hs.busy k c' i hi
        exact ⟨y, (Function.update_of_ne (Nat.ne_of_lt (hf i y hy)) ..).trans hy, hown, hw⟩
    · change ((s.setHandle h _).handles k).busy c' = some i at hi
      rw [handles_setHandle_of_ne hk] at hi
      obtain ⟨y, hy, hown, hw⟩ := hs.busy k c' i hi
      exact ⟨y, (Function.update_of_ne (Nat.ne_of_lt (hf i y hy)) ..).trans hy, hown, hw⟩
  segment k i bs hm := by
    obtain ⟨y, hy, rest⟩ := hs.segment k i bs hm
    exact ⟨y, (Function.update_of_ne (Nat.ne_of_lt (hf i y hy)) ..).trans hy, rest⟩
  ended i y buf r hi hw hy := by
    rcases update_some_eq_some.mp hi with ⟨rfl, rfl⟩ | ⟨-, hi⟩
    · cases hy
    · exact hs.ended i y buf r hi hw hy
  latest i y hi hw hr := by
    change ((((s.setHandle h _).handles y.owner).dropped = true ∨
      ((s.setHandle h _).handles y.owner).writeBusy = some i) ∧ _)
    rcases update_some_eq_some.mp hi with ⟨rfl, rfl⟩ | ⟨-, hold⟩
    · refine ⟨.inr ?_, fun k u hk _ _ => ?_⟩
      · rw [handles_setHandle]
        exact Handle.busy_setBusy (d := .write []) hw.symm
      · rcases update_some_eq_some.mp hk with ⟨rfl, -⟩ | ⟨-, hk⟩
        · exact Nat.le_refl _
        · exact Nat.le_of_lt (hf k u hk)
    · obtain ⟨slot, last⟩ := hs.latest i y hold hw hr
      by_cases ho : y.owner = h
      · subst ho
        rw [handles_setHandle, Handle.dropped_setBusy]
        by_cases hc : c.isWrite = true
        · -- the slot was empty, so no write of the handle was under way
          have empty : (s.handles y.owner).writeBusy = none :=
            (Handle.busy_congr (d := .write []) hc.symm).trans hb
          exact absurd hr (hs.over_of_empty hd empty hold hw rfl)
        · refine ⟨slot.imp_right fun e => ?_, fun k u hk hu he => ?_⟩
          · exact (Handle.busy_setBusy_of_ne (d := .write []) (Ne.symm hc)).trans e
          · rcases update_some_eq_some.mp hk with ⟨rfl, rfl⟩ | ⟨-, hk⟩
            · exact absurd hu hc
            · exact last k u hk hu he
      · rw [handles_setHandle_of_ne ho]
        refine ⟨slot, fun k u hk hu he => ?_⟩
        rcases update_some_eq_some.mp hk with ⟨rfl, rfl⟩ | ⟨-, hk⟩
        · exact absurd he.symm ho
        · exact last k u hk hu he
  ordered := hs.ordered

/-- A slot is emptied: its write is over, or the handle is dropped. -/
theorem empty {y : Handle} (hs : s.Accounted)
    (hb : ∀ c j, y.busy c = some j → (s.handles h).busy c = some j)
    (hd : y.dropped = true ∨ y.dropped = (s.handles h).dropped ∧
      ∀ j x, s.jobs j = some x → (s.handles h).writeBusy = some j → y.writeBusy = none →
        x.phase.result ≠ none) : (s.setHandle h y).Accounted where
  busy k c i hi := by
    by_cases hk : k = h
    · subst hk
      rw [handles_setHandle] at hi
      exact hs.busy k c i (hb c i hi)
    · rw [handles_setHandle_of_ne hk] at hi
      exact hs.busy k c i hi
  segment := hs.segment
  ended := hs.ended
  latest i z hi hw hr := by
    obtain ⟨slot, last⟩ := hs.latest i z hi hw hr
    refine ⟨?_, last⟩
    by_cases ho : z.owner = h
    · rw [ho, handles_setHandle]
      rw [ho] at slot
      rcases hd with hd | ⟨hd, hover⟩
      · exact .inl hd
      · rw [hd]
        refine slot.imp_right fun e => ?_
        cases hy : y.writeBusy with
        | none => exact absurd hr (hover i z hi e hy)
        | some j => exact (hb (.write []) j hy).symm.trans e
    · rw [handles_setHandle_of_ne ho]
      exact slot
  ordered := hs.ordered

theorem iterate {c : Call} (hs : s.Accounted) (hf : ∀ j x, s.jobs j = some x → j < s.made)
    (hd : (s.handles h).dropped = false) (step : s.Iterates h c s') : s'.Accounted := by
  cases step with
  | offload hb => exact hs.offload hf hd hb
  | pending hb hr => exact hs.setHandle (fun d => by cases d <;> rfl) rfl
  | @ready j r hb hr =>
      refine frame (s := s.setHandle h { (s.handles h).setBusy none c with
        call := none, polling := false }) ?_ rfl rfl (fun _ _ => rfl) fun _ => rfl
      refine hs.empty (fun d i hi => ?_) (.inr ⟨Handle.dropped_setBusy, fun i x hi hw he => ?_⟩)
      · have hi : ((s.handles h).setBusy none c).busy d = some i := by cases d <;> exact hi
        by_cases hc : d.isWrite = c.isWrite
        · rw [Handle.busy_setBusy hc] at hi
          cases hi
        · rwa [Handle.busy_setBusy_of_ne hc] at hi
      · -- the job that was in the slot is over
        cases c with
        | write buf =>
            obtain rfl : j = i := Option.some.inj (hb.symm.trans hw)
            rw [State.result, hi] at hr
            rw [show x.phase.result = some r from hr]
            exact Option.some_ne_none r
        | flush =>
            rw [show (s.handles h).writeBusy = none from he] at hw
            cases hw

theorem next (hs : s.Accounted) (hf : s.Streamed)
    (hd : ∀ h, (s.handles h).call.isSome = true → (s.handles h).dropped = false)
    (ha : s.Enabled a) : (s.next a).Accounted := by
  cases a with
  | begin_ h c => exact hs.setHandle (fun d => by cases d <;> rfl) rfl
  | poll h => exact hs.setHandle (fun d => by cases d <;> rfl) rfl
  | abandon h => exact hs.setHandle (fun d => by cases d <;> rfl) rfl
  | drop h => exact hs.empty (fun d i hi => by cases d <;> cases hi) (.inl rfl)
  | iterate h c => exact hs.iterate hf.fresh (hd h (by rw [ha.1]; rfl)) (s.iterates h c)
  | lock j x =>
      obtain ⟨-, hj, hp⟩ := ha
      refine frame (s := { s.setJob j { x with phase := .running } with segments := s.segments })
        ?_ rfl rfl (fun _ _ => rfl) fun _ => rfl
      refine hs.setPhase (p := .running) hj (fun _ => by rw [hp]; rfl) (fun e => ?_)
        (fun _ hm => hm) (fun _ _ _ hm => .inl hm) (fun buf r _ e => by cases e) hs.ordered
      rw [hp] at e
      cases e
  | accept j w x n =>
      exact hs.frame (push_jobs ..) (push_segments ..) (fun _ _ => by simp [State.next])
        fun _ => by simp [State.next]
  | spill j w n => exact hs.frame rfl rfl (fun _ _ => rfl) fun _ => rfl
  | finish j w x =>
      obtain ⟨hh, hj, hw, -⟩ := ha
      obtain ⟨y, hy, hp, -⟩ := hf.holder j w hh
      rw [hj] at hy
      cases hy
      exact hs.unlock hj hp fun n hn => ⟨hw, (Except.ok.inj hn).symm⟩
  | fail j w x e =>
      obtain ⟨hh, hj⟩ := ha
      obtain ⟨y, hy, hp, -⟩ := hf.holder j w hh
      rw [hj] at hy
      cases hy
      exact hs.unlock hj hp fun n hn => by cases hn
  | store j x r =>
      obtain ⟨hj, hp⟩ := ha
      refine hs.setPhase (p := .stored r) hj (fun e => by cases e) (fun _ => rfl) (fun _ hm => hm)
        (fun _ _ _ hm => .inl hm) (fun buf q hw e => ?_) hs.ordered
      exact hs.ended j x buf q hj hw (by rw [hp]; exact e)
  | print bs =>
      refine ⟨fun h c i hi => ?_, fun h i b hm => ?_, fun j x buf r hj hw hr => ?_, ?_, ?_⟩
      · simp only [State.next, push_handles, push_jobs] at hi ⊢
        exact hs.busy h c i hi
      · simp only [State.next, push_jobs] at hm ⊢
        rcases List.mem_append.mp hm with hm | hm
        · exact hs.segment h i b hm
        · cases List.mem_singleton.mp hm
      · simp only [State.next, push_jobs] at hj
        obtain ⟨b, hm, hb⟩ := hs.ended j x buf r hj hw hr
        exact ⟨b, List.mem_append_left _ hm, hb⟩
      · simp only [State.next, push_handles, push_jobs]
        exact hs.latest
      · refine List.pairwise_append.mpr ⟨hs.ordered, List.pairwise_singleton .., ?_⟩
        intro x _ b hb h i k _ hk
        cases List.mem_singleton.mp hb
        cases hk

end Accounted

/-! ### What a flush covers -/

/-- The data of the write is on the descriptor, in one piece. -/
def OnDescriptor (s : State) (i : JobId) : Prop :=
  ∃ x buf, s.jobs i = some x ∧ x.work = .write buf ∧ buf <:+: s.out

/-- What was told, and when. -/
structure Told (s : State) : Prop where
  alive : ∀ h, (s.handles h).call.isSome = true → (s.handles h).dropped = false
  stored : ∀ i ∈ s.told, ∃ x buf n,
    s.jobs i = some x ∧ x.work = .write buf ∧ x.phase = .stored (.ok n)
  job : ∀ j x, s.jobs j = some x → x.told ⊆ s.told
  handle : ∀ h, (s.handles h).told ⊆ s.told
  flushed : ∀ j x n, s.jobs j = some x → x.work = .flush → x.phase.outcome = some (.ok n) →
    ∀ i ∈ x.told, s.OnDescriptor i
  /-- the job of a flush that found none was made after the call -/
  asked : ∀ h j x, (s.handles h).call = some .flush → (s.handles h).found = none →
    (s.handles h).flushBusy = some j → s.jobs j = some x → (s.handles h).told ⊆ x.told

namespace Told

/-- A step that leaves the jobs and the handles alone. -/
theorem frame (ht : s.Told) (hjobs : s'.jobs = s.jobs) (hhand : s'.handles = s.handles)
    (htold : s'.told = s.told) (hout : s.out <+: s'.out) : s'.Told where
  alive := hhand ▸ ht.alive
  stored := by
    rw [hjobs, htold]
    exact ht.stored
  job := by
    rw [hjobs, htold]
    exact ht.job
  handle := by
    rw [hhand, htold]
    exact ht.handle
  flushed j x n hj hw hp i hi := by
    rw [hjobs] at hj
    obtain ⟨y, buf, hy, hyw, hin⟩ := ht.flushed j x n hj hw hp i hi
    exact ⟨y, buf, hjobs ▸ hy, hyw, hin.trans hout.isInfix⟩
  asked := by
    rw [hjobs, hhand]
    exact ht.asked

theorem setHandle {y : Handle} (ht : s.Told)
    (halive : y.call.isSome = true → y.dropped = false) (htold : y.told ⊆ s.told)
    (hasked : ∀ j x, y.call = some .flush → y.found = none → y.flushBusy = some j →
      s.jobs j = some x → y.told ⊆ x.told) : (s.setHandle h y).Told where
  alive k hc := by
    by_cases hk : k = h
    · rw [hk, handles_setHandle] at hc ⊢
      exact halive hc
    · rw [handles_setHandle_of_ne hk] at hc ⊢
      exact ht.alive k hc
  stored := ht.stored
  job := ht.job
  handle k := by
    by_cases hk : k = h
    · rw [hk, handles_setHandle]
      exact htold
    · rw [handles_setHandle_of_ne hk]
      exact ht.handle k
  flushed := ht.flushed
  asked k j x := by
    by_cases hk : k = h
    · rw [hk, handles_setHandle]
      exact hasked j x
    · rw [handles_setHandle_of_ne hk]
      exact ht.asked k j x

/-- A job goes on; a flush that has succeeded covers what was told when it was made. -/
theorem setPhase {p : JobPhase} (ht : s.Told) (hj : s.jobs j = some x)
    (hst : ∀ r, x.phase = .stored r → p = .stored r)
    (hfl : x.work = .flush → ∀ n, p.outcome = some (.ok n) → ∀ i ∈ x.told, s.OnDescriptor i) :
    (s.setJob j { x with phase := p }).Told := by
  have kept : ∀ {i}, s.OnDescriptor i → (s.setJob j { x with phase := p }).OnDescriptor i := by
    rintro i ⟨y, buf, hy, hyw, hin⟩
    by_cases e : i = j
    · subst e
      rw [hj] at hy
      cases hy
      exact ⟨_, buf, Function.update_self .., hyw, hin⟩
    · exact ⟨y, buf, (Function.update_of_ne e ..).trans hy, hyw, hin⟩
  refine ⟨ht.alive, fun i hi => ?_, fun i y hi => ?_, ht.handle, fun i y n hi hw hp k hk => ?_,
    fun k i y hc hf hb hi => ?_⟩
  · obtain ⟨y, buf, n, hy, hyw, hyp⟩ := ht.stored i hi
    by_cases e : i = j
    · subst e
      rw [hj] at hy
      cases hy
      exact ⟨_, buf, n, Function.update_self .., hyw, hst _ hyp⟩
    · exact ⟨y, buf, n, (Function.update_of_ne e ..).trans hy, hyw, hyp⟩
  · rcases update_some_eq_some.mp hi with ⟨rfl, rfl⟩ | ⟨-, hi⟩
    · exact ht.job _ x hj
    · exact ht.job i y hi
  · rcases update_some_eq_some.mp hi with ⟨rfl, rfl⟩ | ⟨-, hi⟩
    · exact kept (hfl hw n hp k hk)
    · exact kept (ht.flushed i y n hi hw hp k hk)
  · rcases update_some_eq_some.mp hi with ⟨rfl, rfl⟩ | ⟨-, hi⟩
    · exact ht.asked k _ x hc hf hb hj
    · exact ht.asked k i y hc hf hb hi

/-- A job that is made knows all that was told. -/
theorem make {y : Job} (ht : s.Told) (hs : s.Accounted)
    (hf : ∀ j x, s.jobs j = some x → j < s.made) (hq : y.phase = .queued) (hy : y.told = s.told) :
    (s.setJob s.made y).Told := by
  have kept : ∀ {i x}, s.jobs i = some x → (s.setJob s.made y).jobs i = some x := fun {i x} hi =>
    (Function.update_of_ne (Nat.ne_of_lt (hf i x hi)) ..).trans hi
  refine ⟨ht.alive, fun i hi => ?_, fun i z hi => ?_, ht.handle, fun i z n hi hw hp k hk => ?_,
    fun k i z hc hfound hb hi => ?_⟩
  · obtain ⟨x, buf, n, hx, rest⟩ := ht.stored i hi
    exact ⟨x, buf, n, kept hx, rest⟩
  · rcases update_some_eq_some.mp hi with ⟨-, rfl⟩ | ⟨-, hi⟩
    · rw [hy]
      exact fun _ hm => hm
    · exact ht.job i z hi
  · rcases update_some_eq_some.mp hi with ⟨-, rfl⟩ | ⟨-, hi⟩
    · rw [hq] at hp
      cases hp
    · obtain ⟨x, buf, hx, rest⟩ := ht.flushed i z n hi hw hp k hk
      exact ⟨x, buf, kept hx, rest⟩
  · obtain ⟨x, hx, -⟩ := hs.busy k .flush i hb
    obtain rfl : x = z := Option.some.inj ((kept hx).symm.trans hi)
    exact ht.asked k i x hc hfound hb hx

theorem offload {c : Call} (ht : s.Told) (hs : s.Accounted)
    (hf : ∀ j x, s.jobs j = some x → j < s.made) : (s.offload h c).Told := by
  have made : (s.setJob s.made ⟨h, c, .queued, s.told⟩).Told := ht.make hs hf rfl rfl
  refine frame (s := (s.setJob s.made ⟨h, c, .queued, s.told⟩).setHandle h
    ((s.handles h).setBusy (some s.made) c)) ?_ rfl rfl rfl (List.prefix_refl _)
  refine made.setHandle (fun hc => ?_) ?_ fun j x hc hfound hb hj => ?_
  · rw [Handle.dropped_setBusy]
    exact ht.alive h (by cases c <;> exact hc)
  · cases c <;> exact ht.handle h
  · cases c with
    | write buf => exact made.asked h j x hc hfound hb hj
    | flush =>
        obtain rfl : s.made = j := Option.some.inj hb
        rcases update_some_eq_some.mp hj with ⟨-, rfl⟩ | ⟨hne, -⟩
        · exact ht.handle h
        · exact absurd rfl hne

/-- The count of a write is told. -/
theorem tell {buf : Bytes} {n : ℕ} (ht : s.Told) (hj : s.jobs j = some x)
    (hw : x.work = .write buf) (hp : x.phase = .stored (.ok n)) :
    Told { s with told := s.told ++ [j] } where
  alive := ht.alive
  stored i hi := by
    rcases List.mem_append.mp hi with hi | hi
    · exact ht.stored i hi
    · rw [List.mem_singleton.mp hi]
      exact ⟨x, buf, n, hj, hw, hp⟩
  job i y hi := List.subset_append_of_subset_left _ (ht.job i y hi)
  handle h := List.subset_append_of_subset_left _ (ht.handle h)
  flushed := ht.flushed
  asked := ht.asked

theorem finishCall {c : Call} {r : Except IoError ℕ} (ht : s.Told) (hs : s.Accounted)
    (hb : (s.handles h).busy c = some j) (hr : s.result j = some r) :
    (s.finishCall h c j r).Told := by
  obtain ⟨x, hx, -, hw⟩ := hs.busy h c j hb
  have stored : x.phase = .stored r := by
    rw [result, hx] at hr
    exact JobPhase.result_eq_some.mp hr
  -- the handle has no call left
  have idle : ∀ u : State, u.Told → u.handles = s.handles →
      (u.setHandle h { (s.handles h).setBusy none c with call := none, polling := false }).Told := by
    intro u hu he
    refine hu.setHandle (fun hc => by cases hc) ?_ fun i y hc => by cases hc
    cases c <;> exact he ▸ hu.handle h
  cases c with
  | flush => exact idle s ht rfl
  | write buf =>
      cases r with
      | error e => exact idle s ht rfl
      | ok n =>
          obtain ⟨data, hdata⟩ : ∃ data, x.work = .write data := by
            cases hk : x.work with
            | write data => exact ⟨data, rfl⟩
            | flush => rw [hk] at hw; cases hw
          exact idle _ (ht.tell hx hdata stored) rfl

/-- Everything that was told is on the descriptor when nothing is buffered. -/
theorem covers (ht : s.Told) (hf : s.Streamed) (hs : s.Accounted) (hacc : s.accepting = [])
    (hbuf : s.buffered = []) {i : JobId} (hi : i ∈ s.told) : s.OnDescriptor i := by
  obtain ⟨x, buf, n, hx, hw, hp⟩ := ht.stored i hi
  obtain ⟨bs, hm, -, hok⟩ := hs.ended i x buf (.ok n) hx hw (by rw [hp]; rfl)
  obtain ⟨rfl, -⟩ := hok n rfl
  refine ⟨x, bs, hx, hw, ?_⟩
  have all : s.out = s.segments.flatMap Segment.bytes := by
    have bytes := hf.bytes
    rwa [hacc, hbuf, List.append_nil, List.append_nil] at bytes
  obtain ⟨l₁, l₂, e⟩ := List.append_of_mem hm
  rw [all, e, List.flatMap_append, List.flatMap_cons]
  exact ⟨l₁.flatMap Segment.bytes, l₂.flatMap Segment.bytes, List.append_assoc ..⟩

theorem next (ht : s.Told) (hf : s.Streamed) (hs : s.Accounted) (ha : s.Enabled a) :
    (s.next a).Told := by
  cases a with
  | begin_ h c =>
      refine ht.setHandle (fun _ => ha.2) (fun _ hm => hm) fun j x hc hfound hb _ => ?_
      -- the slot of the call was empty
      cases hc
      have empty : (s.handles h).flushBusy = none := hfound
      rw [show (s.handles h).flushBusy = some j from hb] at empty
      cases empty
  | poll h =>
      exact ht.setHandle (ht.alive h) (ht.handle h) (ht.asked h)
  | abandon h =>
      exact ht.setHandle (fun hc => by cases hc) (ht.handle h) fun j x hc => by cases hc
  | drop h =>
      refine ht.setHandle (fun hc => ?_) (ht.handle h) fun j x _ _ hb => by cases hb
      rw [show (s.handles h).call = none from ha.1] at hc
      cases hc
  | iterate h c =>
      have step := s.iterates h c
      change (s.iterate h c).Told
      generalize s.iterate h c = s' at step
      cases step with
      | offload hb => exact ht.offload hs hf.fresh
      | pending hb hr => exact ht.setHandle (ht.alive h) (ht.handle h) (ht.asked h)
      | ready hb hr => exact ht.finishCall hs hb hr
  | lock j x =>
      obtain ⟨-, hj, hp⟩ := ha
      refine frame (s := s.setJob j { x with phase := .running }) ?_ rfl rfl rfl (List.prefix_refl _)
      refine ht.setPhase hj (fun r hr => ?_) fun _ n hn => by cases hn
      rw [hp] at hr
      cases hr
  | accept j w x n =>
      exact ht.frame (push_jobs ..) (push_handles ..) (push_told ..) (out_prefix_push ..)
  | spill j w n => exact ht.frame rfl rfl rfl (List.prefix_append ..)
  | finish j w x =>
      obtain ⟨hh, hj, -, hbuf⟩ := ha
      obtain ⟨y, hy, hp, -⟩ := hf.holder j w hh
      rw [hj] at hy
      cases hy
      refine frame (s := s.setJob j { x with phase := .returned (.ok x.work.data.length) })
        ?_ rfl rfl rfl (List.prefix_refl _)
      refine ht.setPhase hj (fun r hr => ?_) fun hw n _ i hi => ?_
      · rw [hp] at hr
        cases hr
      · refine ht.covers hf hs ?_ (hbuf hw) (ht.job j x hj hi)
        rw [accepting_of_holder hh hj, hw]
        exact List.take_nil
  | fail j w x e =>
      obtain ⟨hh, hj⟩ := ha
      obtain ⟨y, hy, hp, -⟩ := hf.holder j w hh
      rw [hj] at hy
      cases hy
      refine frame (s := s.setJob j { x with phase := .returned (.error e) })
        ?_ rfl rfl rfl (List.prefix_refl _)
      refine ht.setPhase hj (fun r hr => ?_) fun _ n hn => by cases hn
      rw [hp] at hr
      cases hr
  | store j x r =>
      obtain ⟨hj, hp⟩ := ha
      refine ht.setPhase hj (fun q hq => ?_) fun hw n hn => ?_
      · rw [hp] at hq
        cases hq
      · exact ht.flushed j x n hj hw (by rw [hp]; exact hn)
  | print bs => exact ht.frame (push_jobs ..) (push_handles ..) (push_told ..) (out_prefix_push ..)

end Told

/-- What every run keeps. -/
structure Inv (s : State) : Prop where
  streamed : s.Streamed
  accounted : s.Accounted
  told : s.Told

theorem inv_of_reachable {sink : Sink} (h : (machine sink).Reachable s) : s.Inv := by
  refine h.invariant ?_ fun s a _ hs _ ha =>
    ⟨hs.streamed.next ha, hs.accounted.next hs.streamed hs.told.alive ha,
      hs.told.next hs.streamed hs.accounted ha⟩
  rintro s rfl
  refine ⟨⟨nofun, fun _ => rfl, rfl, nofun⟩, ⟨?_, nofun, nofun, nofun, .nil⟩,
    ⟨nofun, nofun, nofun, fun _ _ hm => hm, nofun, nofun⟩⟩
  intro h c j hj
  cases c <;> cases hj

end State

open State

variable {sink : Sink} {s : State}

/-- **The writes are in order and in one piece.**  In every run of any number of handles, whose calls
are abandoned and which are dropped at any time, with others that print.

* What was accepted is on the descriptor and in the buffer, in the order of the locks.
* A write that has ended was accepted in one piece under one lock, all of it when it was counted, and
  then the count is its length.
* The writes of a handle were accepted in the order in which it made them, none of them twice. -/
theorem written_in_order (h : (machine sink).Reachable s) :
    s.out ++ s.buffered = s.segments.flatMap Segment.bytes ++ s.accepting ∧
      (∀ j x buf r, s.jobs j = some x → x.work = .write buf → x.phase.outcome = some r →
        ∃ bs, ⟨some (x.owner, j), bs⟩ ∈ s.segments ∧ bs <+: buf ∧
          ∀ n, r = .ok n → bs = buf ∧ n = buf.length) ∧
      s.segments.Pairwise fun a b =>
        ∀ k i j, a.source = some (k, i) → b.source = some (k, j) → i < j := by
  obtain ⟨streamed, accounted, -⟩ := inv_of_reachable h
  exact ⟨streamed.bytes, accounted.ended, accounted.ordered⟩

/-- **What a flush covers.**  In every run of any number of handles: a `poll_flush` or `poll_close`
that is about to return `Ok` has put on the descriptor, each in one piece, the data of every write of
any handle whose count had been returned before its job was made; so that of every write whose count
had been returned before the call, when the call found no job in its slot. -/
theorem flush_covers (h : (machine sink).Reachable s) {k : HandleId} {j : JobId} {n : ℕ}
    (hr : s.Returns k .flush j (.ok n)) :
    (∀ x, s.jobs j = some x → ∀ i ∈ x.told, s.OnDescriptor i) ∧
      ((s.handles k).found = none → ∀ i ∈ (s.handles k).told, s.OnDescriptor i) := by
  obtain ⟨-, accounted, told⟩ := inv_of_reachable h
  obtain ⟨hc, -, hb, hres⟩ := hr
  obtain ⟨x, hx, -, hw⟩ := accounted.busy k .flush j hb
  have flush : x.work = .flush := by
    cases hk : x.work with
    | flush => rfl
    | write buf => rw [hk] at hw; cases hw
  have stored : x.phase = .stored (.ok n) := by
    rw [result, hx] at hres
    exact JobPhase.result_eq_some.mp hres
  have covered := told.flushed j x n hx flush (by rw [stored]; rfl)
  refine ⟨fun y hy => ?_, fun hf i hi => covered i (told.asked k j x hc hf hb hx hi)⟩
  obtain rfl := Option.some.inj (hx.symm.trans hy)
  exact covered

/-- The steps of a write of one handle, from its call to its return. -/
def writeSteps (h : HandleId) (j : JobId) (bs : Bytes) (told : List JobId) : List Act :=
  let x : Job := ⟨h, .write bs, .queued, told⟩
  [.begin_ h (.write bs), .iterate h (.write bs), .lock j x,
    .accept j 0 { x with phase := .running } bs.length,
    .finish j bs.length { x with phase := .running },
    .store j { x with phase := .returned (.ok bs.length) } (.ok bs.length),
    .iterate h (.write bs)]

/-- Two handles write, one of them twice, and the other one flushes. -/
def flushRun : List Act :=
  writeSteps 0 0 [1, 2] [] ++ [.print [9]] ++ writeSteps 1 1 [3] [0] ++
    writeSteps 0 2 [4] [0, 1] ++
    [.begin_ 1 .flush, .iterate 1 .flush, .lock 3 ⟨1, .flush, .queued, [0, 1, 2]⟩, .spill 3 0 5,
      .finish 3 0 ⟨1, .flush, .running, [0, 1, 2]⟩,
      .store 3 ⟨1, .flush, .returned (.ok 0), [0, 1, 2]⟩ (.ok 0)]

def flushed : State := (machine .stdout).runList (.new .stdout) flushRun

instance (s : State) (h : HandleId) (c : Call) (j : JobId) (r : Except IoError ℕ) :
    Decidable (s.Returns h c j r) := inferInstanceAs (Decidable (_ ∧ _ ∧ _ ∧ _))

theorem flushed_reachable : (machine .stdout).Reachable flushed :=
  .of_follows rfl (by decide +kernel)

theorem flushRun_in_order :
    flushed.segments = [⟨some (0, 0), [1, 2]⟩, ⟨none, [9]⟩, ⟨some (1, 1), [3]⟩, ⟨some (0, 2), [4]⟩] ∧
      [1, 2, 9, 3, 4] ++ [] = flushed.segments.flatMap Segment.bytes ++ flushed.accepting := by
  refine ⟨by decide +kernel, ?_⟩
  have bytes := (written_in_order flushed_reachable).1
  rwa [show flushed.out = [1, 2, 9, 3, 4] by decide +kernel,
    show flushed.buffered = [] by decide +kernel] at bytes

theorem flushRun_covers :
    flushed.out = [1, 2, 9, 3, 4] ∧ ∀ i ∈ [0, 1, 2], flushed.OnDescriptor i := by
  refine ⟨by decide +kernel, ?_⟩
  have covered := (flush_covers flushed_reachable (k := 1) (j := 3) (n := 0) (by decide +kernel)).2
    (by decide +kernel)
  rwa [show (flushed.handles 1).told = [0, 1, 2] by decide +kernel] at covered

/-- A flush is abandoned, and its job runs; a write returns its count; the next flush returns what
the abandoned one has left. -/
def staleFlushRun : List Act :=
  [.begin_ 0 .flush, .iterate 0 .flush, .iterate 0 .flush, .abandon 0,
    .lock 0 ⟨0, .flush, .queued, []⟩, .finish 0 0 ⟨0, .flush, .running, []⟩,
    .store 0 ⟨0, .flush, .returned (.ok 0), []⟩ (.ok 0)] ++ writeSteps 0 1 [5] [] ++
    [.begin_ 0 .flush]

def unflushed : State := (machine .stdout).runList (.new .stdout) staleFlushRun

/-- A flush that finds a job in its slot may return `Ok` while what was written before it is still
buffered. -/
theorem staleFlushRun_not_covered :
    (machine .stdout).Reachable unflushed ∧ unflushed.Returns 0 .flush 0 (.ok 0) ∧
      (unflushed.handles 0).told = [1] ∧ unflushed.buffered = [5] ∧ ¬ unflushed.OnDescriptor 1 := by
  refine ⟨.of_follows rfl (by decide +kernel), by decide +kernel, by decide +kernel,
    by decide +kernel, ?_⟩
  rintro ⟨x, buf, hx, hw, hin⟩
  have job : unflushed.jobs 1 = some ⟨0, .write [5], .stored (.ok 1), []⟩ := by decide +kernel
  rw [job] at hx
  cases hx
  cases hw
  rw [show unflushed.out = [] by decide +kernel] at hin
  exact absurd hin.length_le (by decide)

end Stdio

end RustAsync
