import RustBase.Async.Source

/-!
# Async — jobs on a blocking pool

`offload` and `fs_blocking` post a closure to a pool and hand its result over through a cell that
the closure and the future share: the value, and the waker of the last poll.  An `Offload` posts
its job when it is first polled, `fs_blocking` when it is called.

* Each critical section of the cell is one step, and so is each call of a waker, which comes after
  the lock is released.  The first poll of an `Offload` posts its job before it locks the cell.
* The job is a closure that returns, panics, or never ends.  A panic unwinds out of the closure
  before the lines that fill the cell.

**`Handover.resolves_iff`**: the end of the job always reaches the awaiter exactly when the job does
not panic.  After a panic no continuation resolves the future (`Handover.lost_run`).
-/

namespace RustAsync
open Support

/-- What the call of the closure does. -/
inductive Job (T : Type*) where
  | returns (v : T)
  | panics
  /-- the call never ends -/
  | diverges
  deriving DecidableEq

/-! ### The cell -/

/-- `OffloadState` and `OneshotState`. -/
structure ResultCell (T : Type*) where
  value : Option T
  waker : Option WakerId
  deriving DecidableEq

abbrev OffloadState := ResultCell

abbrev OneshotState := ResultCell

namespace ResultCell

variable {T : Type*}

def new : ResultCell T := ⟨none, none⟩

/-- The critical section of `Setter::set` and of the closure of `Offload`, with the waker it
takes. -/
def set (c : ResultCell T) (v : T) : ResultCell T × Option WakerId :=
  (⟨some v, none⟩, c.waker)

/-- The critical section of `Offload::poll` and `Oneshot::poll`; `none` is `Poll::Pending`. -/
def poll (c : ResultCell T) (w : WakerId) : ResultCell T × Option T :=
  match c.value with
  | some v => ({ c with value := none }, some v)
  | none => ({ c with waker := some w }, none)

end ResultCell

/-! ### The job and the future -/

/-- Where the job is. -/
inductive JobPhase (T : Type*) where
  /-- `job: Some(..)`, in an `Offload` that was not polled -/
  | held
  | posted
  | running
  /-- the closure returned; the lock of the cell is next -/
  | returned (v : T)
  /-- the cell is filled and its lock released; `wake` is next -/
  | waking (w : Option WakerId)
  | finished
  /-- the closure unwound, and was dropped -/
  | panicked
  deriving DecidableEq

namespace JobPhase

variable {T : Type*}

/-- `this.job.take()`, and the post of the job. -/
def post : JobPhase T → JobPhase T
  | .held => .posted
  | j => j

/-- The closure has returned or panicked. -/
def ended : JobPhase T → Bool
  | .held | .posted | .running => false
  | .returned _ | .waking _ | .finished | .panicked => true

end JobPhase

/-- The phase the end of the closure leads to. -/
def Job.outcome {T : Type*} : Job T → JobPhase T
  | .returns v => .returned v
  | .panics => .panicked
  | .diverges => .running

/-- What is known of a future from its polls. -/
inductive Polled (T : Type*) where
  | unpolled
  /-- a poll is under way -/
  | polling (w : WakerId)
  /-- the last poll returned `Poll::Pending`, and whether its waker was invoked since -/
  | pending (w : WakerId) (invoked : Bool)
  | ready (v : T)
  | dropped
  deriving DecidableEq

namespace Polled

variable {T : Type*}

/-- A poll may begin, or the future be dropped. -/
def resting : Polled T → Bool
  | .unpolled | .pending _ _ => true
  | .polling _ | .ready _ | .dropped => false

/-- A waker is invoked. -/
def invoke : Polled T → Option WakerId → Polled T
  | .pending w b, some w' => .pending w (b || w == w')
  | p, _ => p

end Polled

/-- `offload` and `fs_blocking`. -/
inductive Primitive where
  | offload
  | fsBlocking
  deriving DecidableEq

structure Handover (T : Type*) where
  job : JobPhase T
  cell : ResultCell T
  future : Polled T
  deriving DecidableEq

inductive HandoverAct (T : Type*) where
  /-- a poll begins, and posts the job an `Offload` holds -/
  | poll (w : WakerId)
  /-- the poll locks the cell and returns -/
  | check (w : WakerId)
  | drop
  /-- a pool worker begins the job -/
  | start
  /-- the closure returns or unwinds -/
  | finish
  | store (v : T)
  | wake (w : Option WakerId)
  deriving DecidableEq

namespace Handover

variable {T : Type*} (f : Job T)

def init : Primitive → Handover T
  | .offload => ⟨.held, .new, .unpolled⟩
  | .fsBlocking => ⟨.posted, .new, .unpolled⟩

def Enabled (s : Handover T) : HandoverAct T → Prop
  | .poll _ => s.future.resting = true
  | .check w => s.future = .polling w
  | .drop => s.future.resting = true
  | .start => s.job = .posted
  | .finish => s.job = .running ∧ f ≠ .diverges
  | .store v => s.job = .returned v
  | .wake w => s.job = .waking w

/-- The step in which a poll looks into the cell. -/
def check (s : Handover T) (w : WakerId) : Handover T :=
  match s.cell.poll w with
  | (cell, some v) => { s with cell, future := .ready v }
  | (cell, none) => { s with cell, future := .pending w false }

def next (s : Handover T) : HandoverAct T → Handover T
  | .poll w => { s with job := s.job.post, future := .polling w }
  | .check w => s.check w
  | .drop => { s with future := .dropped }
  | .start => { s with job := .running }
  | .finish => { s with job := f.outcome }
  | .store v => { s with cell := (s.cell.set v).1, job := .waking (s.cell.set v).2 }
  | .wake w => { s with job := .finished, future := s.future.invoke w }

instance [DecidableEq T] (s : Handover T) : ∀ a, Decidable (s.Enabled f a)
  | .poll _ | .check _ | .drop | .start | .store _ | .wake _ => inferInstanceAs (Decidable (_ = _))
  | .finish => inferInstanceAs (Decidable (_ ∧ _))

end Handover

def handoverMachine {T : Type*} (p : Primitive) (f : Job T) :
    Machine (Handover T) (HandoverAct T) where
  Init s := s = .init p
  Enabled s := s.Enabled f
  next s := s.next f

namespace Handover

variable {T : Type*} {f : Job T} {s s' : Handover T}

/-- The thread that ran the job is about to invoke the waker. -/
def AboutToWake (s : Handover T) (w : WakerId) : Prop :=
  (∃ v, s.job = .returned v) ∧ s.cell.waker = some w ∨ s.job = .waking (some w)

/-- Once the job has ended, a future that is pending has had its last waker invoked, or is about
to. -/
def Resolved (s : Handover T) : Prop :=
  s.job.ended = true → ∀ w b, s.future = .pending w b → b = true ∨ s.AboutToWake w

/-! ### Jobs that return -/

/-- The value is in the cell until a poll takes it. -/
def Filled (s : Handover T) : Prop :=
  s.cell.value.isSome = true ∨ (∃ v, s.future = .ready v) ∨ s.future = .dropped

/-- What the job's phase says of the cell and of the future. -/
def Inv (s : Handover T) : Prop :=
  match s.job with
  | .held => s.cell.value = none ∧ (s.future = .unpolled ∨ s.future = .dropped)
  | .posted | .running | .returned _ =>
      s.cell.value = none ∧ ∀ w b, s.future = .pending w b → b = false ∧ s.cell.waker = some w
  | .waking o => s.Filled ∧ ∀ w b, s.future = .pending w b → b = false ∧ o = some w
  | .finished => s.Filled ∧ ∀ w b, s.future = .pending w b → b = true
  | .panicked => False

namespace Inv

theorem init (p : Primitive) : Inv (.init p : Handover T) := by
  cases p with
  | offload => exact ⟨rfl, .inl rfl⟩
  | fsBlocking =>
      refine ⟨rfl, fun w b hf => ?_⟩
      cases hf

theorem poll (h : s.Inv) (hr : s.future.resting = true) (w : WakerId) :
    (s.next f (.poll w)).Inv := by
  obtain ⟨job, cell, future⟩ := s
  -- before the poll the future is neither ready nor dropped, so a filled cell has its value
  have filled : Filled ⟨job, cell, future⟩ → cell.value.isSome = true := by
    rintro (hv | ⟨v, rfl⟩ | rfl)
    · exact hv
    · cases hr
    · cases hr
  have none_pending : ∀ w' b, (Polled.polling w : Polled T) ≠ .pending w' b := by
    intro w' b hf
    cases hf
  cases job with
  | held | posted | running | returned _ =>
      exact ⟨h.1, fun w' b hf => absurd hf (none_pending w' b)⟩
  | waking _ | finished =>
      exact ⟨.inl (filled h.1), fun w' b hf => absurd hf (none_pending w' b)⟩
  | panicked => exact h

theorem check {w : WakerId} (h : s.Inv) (hw : s.future = .polling w) :
    (s.next f (.check w)).Inv := by
  obtain ⟨job, ⟨value, waker⟩, future⟩ := s
  obtain rfl : future = .polling w := hw
  have filled : Filled ⟨job, ⟨value, waker⟩, .polling w⟩ → ∃ v, value = some v := by
    rintro (hv | ⟨v, hf⟩ | hf)
    · exact Option.isSome_iff_exists.mp hv
    · cases hf
    · cases hf
  cases job with
  | held =>
      rcases h.2 with hf | hf <;> cases hf
  | posted | running | returned _ =>
      obtain rfl : value = none := h.1
      refine ⟨rfl, fun w' b hf => ?_⟩
      cases hf
      exact ⟨rfl, rfl⟩
  | waking _ | finished =>
      obtain ⟨v, rfl⟩ := filled h.1
      refine ⟨.inr (.inl ⟨v, rfl⟩), fun w' b hf => ?_⟩
      cases hf
  | panicked => exact h.elim

theorem drop (h : s.Inv) : (s.next f .drop).Inv := by
  obtain ⟨job, cell, future⟩ := s
  have none_pending : ∀ w' b, (Polled.dropped : Polled T) ≠ .pending w' b := by
    intro w' b hf
    cases hf
  cases job with
  | held => exact ⟨h.1, .inr rfl⟩
  | posted | running | returned _ => exact ⟨h.1, fun w' b hf => absurd hf (none_pending w' b)⟩
  | waking _ | finished => exact ⟨.inr (.inr rfl), fun w' b hf => absurd hf (none_pending w' b)⟩
  | panicked => exact h

theorem start (h : s.Inv) (hj : s.job = .posted) : (s.next f .start).Inv := by
  obtain ⟨job, cell, future⟩ := s
  obtain rfl : job = .posted := hj
  exact h

theorem finish (h : s.Inv) (hj : s.job = .running) (hf : f ≠ .panics) :
    (s.next f .finish).Inv := by
  obtain ⟨job, cell, future⟩ := s
  obtain rfl : job = .running := hj
  cases f with
  | returns v => exact h
  | panics => exact absurd rfl hf
  | diverges => exact h

/-- The waker of the last poll is the one the job takes. -/
theorem store {v : T} (h : s.Inv) (hj : s.job = .returned v) : (s.next f (.store v)).Inv := by
  obtain ⟨job, cell, future⟩ := s
  obtain rfl : job = .returned v := hj
  exact ⟨.inl rfl, h.2⟩

theorem wake {o : Option WakerId} (h : s.Inv) (hj : s.job = .waking o) :
    (s.next f (.wake o)).Inv := by
  obtain ⟨job, cell, future⟩ := s
  obtain rfl : job = .waking o := hj
  cases future with
  | pending w b =>
      obtain ⟨rfl, rfl⟩ := h.2 w b rfl
      refine ⟨h.1.imp_right ?_, fun w' b hf => ?_⟩
      · rintro (⟨v, hf⟩ | hf) <;> cases hf
      · have e : (Polled.pending w false : Polled T).invoke (some w) = .pending w true := by
          simp [Polled.invoke]
        exact ((Polled.pending.inj (e.symm.trans hf)).2).symm
  | unpolled | polling _ | ready _ | dropped =>
      refine ⟨h.1, fun w' b hf => ?_⟩
      cases hf

theorem next (hf : f ≠ .panics) (h : s.Inv) {a : HandoverAct T} (ha : s.Enabled f a) :
    (s.next f a).Inv := by
  cases a with
  | poll w => exact h.poll ha w
  | check w => exact h.check ha
  | drop => exact h.drop
  | start => exact h.start ha
  | finish => exact h.finish ha.1 hf
  | store v => exact h.store ha
  | wake o => exact h.wake ha

theorem resolved (h : s.Inv) : s.Resolved := by
  obtain ⟨job, cell, future⟩ := s
  intro he w b hp
  obtain rfl : future = .pending w b := hp
  cases job with
  | held | posted | running => cases he
  | returned v => exact .inr (.inl ⟨⟨v, rfl⟩, (h.2 w b rfl).2⟩)
  | waking o => exact .inr (.inr (congrArg _ (h.2 w b rfl).2))
  | finished => exact .inl (h.2 w b rfl)
  | panicked => exact h.elim

/-- What the job returned is in the cell, or about to be, until a poll takes it. -/
theorem value_of_ended (h : s.Inv) (he : s.job.ended = true) (hr : ∀ v, s.future ≠ .ready v)
    (hd : s.future ≠ .dropped) : (∃ v, s.job = .returned v) ∨ s.cell.value.isSome = true := by
  obtain ⟨job, cell, future⟩ := s
  have filled : Filled ⟨job, cell, future⟩ → cell.value.isSome = true := by
    rintro (hv | ⟨v, hv⟩ | hv)
    · exact hv
    · exact absurd hv (hr v)
    · exact absurd hv hd
  cases job with
  | held | posted | running => cases he
  | returned v => exact .inl ⟨v, rfl⟩
  | waking _ | finished => exact .inr (filled h.1)
  | panicked => exact h.elim

end Inv

theorem inv_of_reachable {p : Primitive} (hf : f ≠ .panics)
    (h : (handoverMachine p f).Reachable s) : s.Inv := by
  refine h.invariant (I := Inv) (fun s hi => ?_) fun _ _ _ hi _ ha => hi.next hf ha
  obtain rfl : s = .init p := hi
  exact .init p

/-! ### Jobs that panic -/

/-- The job panicked, the cell is empty, and no poll has returned the value. -/
structure Lost (s : Handover T) : Prop where
  job : s.job = .panicked
  empty : s.cell.value = none
  not_ready : ∀ v, s.future ≠ .ready v

theorem Lost.next (h : s.Lost) {a : HandoverAct T} (ha : s.Enabled f a) : (s.next f a).Lost := by
  obtain ⟨job, ⟨value, waker⟩, future⟩ := s
  obtain ⟨hj, hv, hr⟩ := h
  obtain rfl : job = .panicked := hj
  obtain rfl : value = none := hv
  cases a with
  | poll w | check w | drop =>
      refine ⟨rfl, rfl, fun v hf => ?_⟩
      cases hf
  | start | store _ | wake _ => cases ha
  | finish => cases ha.1

/-- **After a panic the future never resolves.** -/
theorem lost_run {p : Primitive} {C : Handover T → HandoverAct T → Prop} (h : s.Lost)
    (hr : (handoverMachine p f).Run C s s') : s'.Lost :=
  hr.keeps (I := Lost) (fun _ _ hi ha => hi.next ha) h

/-- A poll that waits, and the panic of the job. -/
def panicRun : List (HandoverAct T) := [.poll 0, .check 0, .start, .finish]

theorem not_resolved_of_panics (p : Primitive) :
    ∃ s : Handover T, (handoverMachine p .panics).Reachable s ∧ s.Lost ∧ ¬ s.Resolved := by
  have run : ∃ s : Handover T, (handoverMachine p .panics).Reachable s ∧
      s = ⟨.panicked, ⟨none, some 0⟩, .pending 0 false⟩ := by
    have hi : (handoverMachine p .panics).Init (.init p : Handover T) := rfl
    have ends : (Job.panics : Job T) ≠ .diverges := by
      intro h
      cases h
    refine ⟨_, .of_follows (l := panicRun) hi ?_, ?_⟩
    · cases p <;> exact ⟨trivial, rfl, trivial, rfl, trivial, rfl, trivial, ⟨rfl, ends⟩, trivial⟩
    · cases p <;> rfl
  obtain ⟨s, hr, rfl⟩ := run
  refine ⟨_, hr, ⟨rfl, rfl, fun v hf => by cases hf⟩, fun h => ?_⟩
  rcases h rfl 0 false rfl with hb | ⟨⟨v, hv⟩, -⟩ | hv
  · cases hb
  · cases hv
  · cases hv

theorem resolves_iff (p : Primitive) (f : Job T) :
    (∀ s, (handoverMachine p f).Reachable s → s.Resolved) ↔ f ≠ .panics := by
  refine ⟨?_, fun hf s hs => (inv_of_reachable hf hs).resolved⟩
  rintro h rfl
  obtain ⟨s, hs, -, hn⟩ := not_resolved_of_panics (T := T) p
  exact hn (h s hs)

end Handover

end RustAsync
