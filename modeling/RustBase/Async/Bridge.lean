import RustBase.Async.Source

/-!
# Async — from callbacks to futures

`Offload`, `Oneshot`, `Timer` and `Interval` turn the end of a job, or the firing of a delayed task,
into the wake-up of a future.  The future and the job share a cell, a value and the waker of the
last poll, under a lock.  The job fills the cell and takes the waker in one critical section, and
wakes it after the lock is released.  The polls differ: what they do, and in which order, is
`Bridge.poll`, and each of its steps is a step here.

* `Offload` posts its job before it locks the cell, `Timer` after it has unlocked it, `Interval`
  while it has the lock.  The job of a `Oneshot` was posted when the future was made.
* Each poll is given a waker of its own, from any thread; there is one poll at a time.  A dropped
  future is one that is not polled any more.
* A poll may come after `Poll::Ready`.  For `Interval` this is how the next tick is asked for; for a
  future it is against the contract of `Future`, and `late` counts these polls.
* The jobs return, and the runners accept what is posted.

**`bridge_handover`**: no wake-up is lost, a poll that finds the cell filled is ready with the value
and no other step delivers one, a value is delivered once, and the job is posted once.
-/

namespace RustAsync
open Support

/-- The cells. -/
inductive Bridge where
  | offload
  | oneshot
  | timer
  | interval
  deriving DecidableEq

/-- The steps polls are made of. -/
inductive PollStep where
  /-- the job is posted, unless it was (`job.take()`, `!this.scheduled`) -/
  | post
  | lock
  /-- the value, if it is there, is returned, and the lock released -/
  | look
  /-- `s.waker = Some(cx.waker().clone())` -/
  | store
  | unlock
  deriving DecidableEq

/-- The waker a poll was given: whose it is, and the number of the poll. -/
structure PollWaker where
  waker : WakerId
  poll : ℕ
  deriving DecidableEq

namespace Bridge

/-- `poll`, `poll_next`. -/
def poll : Bridge → List PollStep
  | .offload => [.post, .lock, .look, .store, .unlock]
  | .oneshot => [.lock, .look, .store, .unlock]
  | .timer => [.lock, .look, .store, .unlock, .post]
  | .interval => [.lock, .look, .store, .post, .unlock]

/-- The steps of a poll up to its look at the cell. -/
def toLook (b : Bridge) : List PollStep := b.poll.takeWhile (· ≠ .look) ++ [.look]

/-- A poll that returns the value takes it out of the cell; `fired` of a `Timer` stays. -/
def takes : Bridge → Bool
  | .offload | .oneshot | .interval => true
  | .timer => false

/-- A poll that returns the value has the next one posted: `this.scheduled = false`. -/
def rearms : Bridge → Bool
  | .interval => true
  | .offload | .oneshot | .timer => false

/-- `fs_blocking` posts the job when it makes the future. -/
def eager : Bridge → Bool
  | .oneshot => true
  | .offload | .timer | .interval => false

end Bridge

/-- The future, as its polls have left it. -/
inductive FuturePhase where
  | unpolled
  /-- a poll is under way, with these steps to go -/
  | polling (w : PollWaker) (rest : List PollStep)
  | pending (w : PollWaker)
  | ready
  deriving DecidableEq

structure BridgeState (T : Type*) where
  /-- `result`, `value`; `fired` is `some ()` -/
  value : Option T
  waker : Option PollWaker
  /-- a poll has the lock -/
  locked : Bool
  /-- `scheduled`; of an `Offload`, that `job` is `None` -/
  scheduled : Bool
  future : FuturePhase
  /-- jobs that wait in the runner -/
  posted : ℕ
  /-- jobs that have begun and have not locked the cell -/
  running : ℕ
  /-- the wakers that were taken and are to be woken -/
  waking : List (Option PollWaker)
  woken : List (Option PollWaker)
  polls : ℕ
  /-- polls that began after `Poll::Ready` -/
  late : ℕ
  /-- the posts so far -/
  posts : ℕ
  /-- how often the cell was filled -/
  sets : ℕ
  /-- what polls have returned, the last one first -/
  delivered : List T
  deriving DecidableEq

inductive BridgeAct where
  | poll (w : WakerId)
  /-- the poll takes its next step -/
  | step (x : PollStep)
  /-- the poll returns `Poll::Pending` -/
  | returns
  /-- the runner begins a job -/
  | start
  /-- a job fills the cell and takes the waker -/
  | set
  | wake (o : Option PollWaker)
  deriving DecidableEq

namespace FuturePhase

def isReady : FuturePhase → Bool
  | .ready => true
  | .unpolled | .polling _ _ | .pending _ => false

def isPolling : FuturePhase → Bool
  | .polling _ _ => true
  | .unpolled | .pending _ | .ready => false

/-- The steps to go. -/
def rest : FuturePhase → List PollStep
  | .polling _ r => r
  | .unpolled | .pending _ | .ready => []

end FuturePhase

namespace BridgeState

variable {T : Type*} (b : Bridge)

def init : BridgeState T where
  value := none
  waker := none
  locked := false
  scheduled := b.eager
  future := .unpolled
  posted := b.eager.toNat
  running := 0
  waking := []
  woken := []
  polls := 0
  late := 0
  posts := b.eager.toNat
  sets := 0
  delivered := []

/-- The job is posted, unless it was. -/
def post (s : BridgeState T) : BridgeState T :=
  if s.scheduled then s
  else { s with scheduled := true, posted := s.posted + 1, posts := s.posts + 1 }

/-- The poll returns `Poll::Ready`. -/
def take (s : BridgeState T) (v : T) : BridgeState T where
  value := if b.takes then none else some v
  waker := s.waker
  locked := false
  scheduled := if b.rearms then false else s.scheduled
  future := .ready
  posted := s.posted
  running := s.running
  waking := s.waking
  woken := s.woken
  polls := s.polls
  late := s.late
  posts := s.posts
  sets := s.sets
  delivered := v :: s.delivered

/-- The effect of a step of the poll given `w`, which has the steps `r` to go after it. -/
def step (s : BridgeState T) (w : PollWaker) (r : List PollStep) : PollStep → BridgeState T
  | .post => { s.post with future := .polling w r }
  | .lock => { s with locked := true, future := .polling w r }
  | .look =>
      match s.value with
      | some v => s.take b v
      | none => { s with future := .polling w r }
  | .store => { s with waker := some w, future := .polling w r }
  | .unlock => { s with locked := false, future := .polling w r }

/-- The critical section of the job. -/
def set (s : BridgeState T) (v : T) : BridgeState T :=
  { s with
    value := some v
    waker := none
    running := s.running - 1
    waking := s.waker :: s.waking
    sets := s.sets + 1 }

def Enabled (s : BridgeState T) : BridgeAct → Prop
  | .poll _ => s.future.isPolling = false
  | .step x => s.future.rest.head? = some x ∧ (x = .lock → s.locked = false)
  | .returns => s.future.isPolling = true ∧ s.future.rest = []
  | .start => 0 < s.posted
  | .set => 0 < s.running ∧ s.locked = false
  | .wake o => o ∈ s.waking

/-- The poll under way goes on. -/
def advance (s : BridgeState T) (x : PollStep) : BridgeState T :=
  match s.future with
  | .polling w r => s.step b w r.tail x
  | .unpolled | .pending _ | .ready => s

/-- The poll under way returns `Poll::Pending`. -/
def returns (s : BridgeState T) : BridgeState T :=
  match s.future with
  | .polling w _ => { s with future := .pending w }
  | .unpolled | .pending _ | .ready => s

/-- What the jobs return is `v`. -/
def next (v : T) (s : BridgeState T) : BridgeAct → BridgeState T
  | .poll w =>
      { s with
        future := .polling ⟨w, s.polls⟩ b.poll
        polls := s.polls + 1
        late := s.late + s.future.isReady.toNat }
  | .step x => s.advance b x
  | .returns => s.returns
  | .start => { s with posted := s.posted - 1, running := s.running + 1 }
  | .set => s.set v
  | .wake o => { s with waking := s.waking.erase o, woken := o :: s.woken }

instance (s : BridgeState T) : ∀ a, Decidable (s.Enabled a)
  | .poll _ => inferInstanceAs (Decidable (_ = _))
  | .step _ => inferInstanceAs (Decidable (_ ∧ (_ → _)))
  | .returns => inferInstanceAs (Decidable (_ ∧ _))
  | .start => inferInstanceAs (Decidable (_ < _))
  | .set => inferInstanceAs (Decidable (_ ∧ _))
  | .wake _ => inferInstanceAs (Decidable (_ ∈ _))

end BridgeState

def bridgeMachine {T : Type*} (b : Bridge) (v : T) : Machine (BridgeState T) BridgeAct where
  Init s := s = .init b
  Enabled := BridgeState.Enabled
  next := BridgeState.next b v

instance {T : Type*} {b : Bridge} {v : T} :
    ∀ s a, Decidable ((bridgeMachine b v).Enabled s a) :=
  fun s a => inferInstanceAs (Decidable (s.Enabled a))

namespace BridgeState

variable {T : Type*} {b : Bridge} {v : T} {s : BridgeState T} {a : BridgeAct}

theorem polling_of_rest {x : PollStep} (h : s.future.rest.head? = some x) :
    ∃ w r, s.future = .polling w (x :: r) := by
  cases hf : s.future with
  | polling w r =>
      rw [hf] at h
      obtain ⟨r', rfl⟩ := List.head?_eq_some_iff.mp h
      exact ⟨w, r', rfl⟩
  | unpolled | pending _ | ready =>
      rw [hf] at h
      cases h

theorem advance_of_polling {w : PollWaker} {x : PollStep} {r : List PollStep}
    (h : s.future = .polling w (x :: r)) : s.advance b x = s.step b w r x := by
  unfold advance
  rw [h]
  rfl

theorem returns_of_polling {w : PollWaker} {r : List PollStep} (h : s.future = .polling w r) :
    s.returns = { s with future := .pending w } := by
  unfold returns
  rw [h]

theorem polling_of_isPolling (h : s.future.isPolling = true) (hr : s.future.rest = []) :
    ∃ w, s.future = .polling w [] := by
  cases hf : s.future with
  | polling w r =>
      rw [hf] at hr
      obtain rfl : r = [] := hr
      exact ⟨w, rfl⟩
  | unpolled | pending _ | ready =>
      rw [hf] at h
      cases h

theorem step_look_some {w : PollWaker} {r : List PollStep} {y : T} (h : s.value = some y) :
    s.step b w r .look = s.take b y := by
  simp only [step, h]

theorem step_look_none {w : PollWaker} {r : List PollStep} (h : s.value = none) :
    s.step b w r .look = { s with future := .polling w r } := by
  simp only [step, h]

/-! ### The books -/

/-- What the counters say of one another. -/
structure Counted (b : Bridge) (v : T) (s : BridgeState T) : Prop where
  /-- a job that was posted waits, runs, or has filled the cell -/
  jobs : s.posts = s.posted + s.running + s.sets
  /-- a job is posted again only when a poll has asked for it -/
  posts : s.posts = s.scheduled.toNat + if b.rearms then s.delivered.length else 0
  /-- the cell was filled for each value that was taken, and for the one that is there -/
  sets : s.sets = s.value.isSome.toNat + if b.takes then s.delivered.length else 0
  /-- what is delivered stays there when it is not taken -/
  kept : b.takes = false → s.delivered ≠ [] → s.value.isSome = true
  filled : ∀ x ∈ s.value, x = v
  values : ∀ x ∈ s.delivered, x = v
  late : s.delivered.length ≤ s.late + s.future.isReady.toNat

namespace Counted

theorem init : Counted b v (init b) where
  jobs := by simp [BridgeState.init]
  posts := by simp [BridgeState.init]
  sets := by simp [BridgeState.init]
  kept _ h := absurd rfl h
  filled := nofun
  values := nofun
  late := Nat.zero_le _

/-- A bridge that asks for the next job takes the value. -/
theorem takes_of_rearms (h : b.rearms = true) : b.takes = true := by
  cases b <;> first | rfl | cases h

/-- While a job is to fill the cell, the cell is empty. -/
theorem value_of_running (h : s.Counted b v) (hr : 0 < s.running) : s.value = none := by
  have hj := h.jobs
  have hp := h.posts
  have hs := h.sets
  have hb : s.scheduled.toNat ≤ 1 := Bool.toNat_le _
  cases hv : s.value with
  | none => rfl
  | some x =>
      rw [hv] at hs
      simp only [Option.isSome_some, Bool.toNat_true] at hs
      by_cases hm : b.rearms = true
      · simp only [hm, takes_of_rearms hm, if_true] at hp hs
        omega
      · simp only [hm, Bool.false_eq_true, if_false] at hp
        omega

theorem poll (h : s.Counted b v) (w : WakerId) : (s.next b v (.poll w)).Counted b v :=
  { h with
    late := by
      have := h.late
      simpa [BridgeState.next, FuturePhase.isReady] using this }

/-- The counters do not see a step that only moves the poll on. -/
theorem moves {w : PollWaker} {x : PollStep} {r r' : List PollStep} {l : Bool}
    {o : Option PollWaker} (h : s.Counted b v) (hf : s.future = .polling w (x :: r)) :
    Counted b v { s with locked := l, waker := o, future := .polling w r' } :=
  { h with
    late := by
      have := h.late
      rwa [hf] at this }

theorem post {w : PollWaker} {x : PollStep} {r : List PollStep} (h : s.Counted b v)
    (hf : s.future = .polling w (x :: r)) :
    Counted b v { s.post with future := .polling w r } := by
  unfold BridgeState.post
  split
  · exact h.moves hf
  next hs =>
    have hj := h.jobs
    have hp := h.posts
    have hl := h.late
    rw [Bool.not_eq_true] at hs
    rw [hs, Bool.toNat_false, Nat.zero_add] at hp
    rw [hf] at hl
    exact { h with
      jobs := by simp only; omega
      posts := by simp only [Bool.toNat_true]; omega
      late := hl }

theorem take {w : PollWaker} {x : PollStep} {r : List PollStep} {y : T} (h : s.Counted b v)
    (hf : s.future = .polling w (x :: r)) (hy : s.value = some y) : (s.take b y).Counted b v := by
  have hy' : y = v := h.filled y hy
  have hj := h.jobs
  have hp := h.posts
  have hs := h.sets
  have hl := h.late
  rw [hy] at hs
  rw [hf] at hl
  simp only [Option.isSome_some, Bool.toNat_true, FuturePhase.isReady, Bool.toNat_false,
    Nat.add_zero] at hs hl
  have hb : s.scheduled.toNat ≤ 1 := Bool.toNat_le _
  refine ⟨hj, ?_, ?_, fun ht _ => ?_, ?_, ?_, ?_⟩
  · by_cases hm : b.rearms = true
    · simp only [hm, takes_of_rearms hm, if_true] at hp hs
      simp only [BridgeState.take, hm, if_true, Bool.toNat_false, List.length_cons]
      omega
    · simpa [BridgeState.take, hm] using hp
  · by_cases ht : b.takes = true
    · simp only [ht, if_true] at hs
      simp only [BridgeState.take, ht, if_true, Option.isSome_none, Bool.toNat_false,
        List.length_cons]
      omega
    · simpa [BridgeState.take, ht] using hs
  · simp [BridgeState.take, ht]
  · intro z hz
    cases ht : b.takes with
    | true => simp [BridgeState.take, ht] at hz
    | false =>
        simp only [BridgeState.take, ht, Bool.false_eq_true, if_false, Option.mem_def,
          Option.some.injEq] at hz
        exact hz ▸ hy'
  · intro z hz
    rcases List.mem_cons.mp hz with rfl | hz
    · exact hy'
    · exact h.values z hz
  · simp only [BridgeState.take, List.length_cons, FuturePhase.isReady, Bool.toNat_true]
    omega

theorem step {x : PollStep} (h : s.Counted b v) (ha : s.Enabled (.step x)) :
    (s.next b v (.step x)).Counted b v := by
  obtain ⟨w, r, hf⟩ := polling_of_rest ha.1
  change (s.advance b x).Counted b v
  rw [advance_of_polling hf]
  cases x with
  | post => exact h.post hf
  | lock => exact h.moves (o := s.waker) hf
  | look =>
      cases hy : s.value with
      | some y =>
          rw [step_look_some hy]
          exact h.take hf hy
      | none =>
          rw [step_look_none hy]
          exact h.moves (l := s.locked) (o := s.waker) hf
  | store => exact h.moves (l := s.locked) hf
  | unlock => exact h.moves (o := s.waker) hf

theorem returns (h : s.Counted b v) (ha : s.Enabled .returns) :
    (s.next b v .returns).Counted b v := by
  obtain ⟨w, hf⟩ := polling_of_isPolling ha.1 ha.2
  change s.returns.Counted b v
  rw [returns_of_polling hf]
  exact { h with
    late := by
      have := h.late
      rwa [hf] at this }

theorem start (h : s.Counted b v) (ha : 0 < s.posted) : (s.next b v .start).Counted b v :=
  { h with
    jobs := by
      have := h.jobs
      simp only [BridgeState.next]
      omega }

theorem set (h : s.Counted b v) (ha : 0 < s.running) : (s.next b v .set).Counted b v := by
  have hj := h.jobs
  have hs := h.sets
  rw [h.value_of_running ha] at hs
  simp only [Option.isSome_none, Bool.toNat_false, Nat.zero_add] at hs
  refine { h with jobs := ?_, sets := ?_, kept := fun _ _ => rfl, filled := ?_ }
  · simp only [BridgeState.next, BridgeState.set]
    omega
  · simp only [BridgeState.next, BridgeState.set, Option.isSome_some, Bool.toNat_true]
    omega
  · rintro x ⟨⟩
    rfl

theorem next (h : s.Counted b v) (ha : s.Enabled a) : (s.next b v a).Counted b v := by
  cases a with
  | poll w => exact h.poll w
  | step x => exact h.step ha
  | returns => exact h.returns ha
  | start => exact h.start ha
  | set => exact h.set ha.1
  | wake o => exact { h with }

end Counted

/-! ### The waker of the last poll -/

/-- The waker was taken by a job, which has woken it or is about to. -/
def Taken (s : BridgeState T) (w : PollWaker) : Prop := some w ∈ s.waking ∨ some w ∈ s.woken

/-- The waker is in the cell while the cell is empty, and was taken when it was filled. -/
structure Waits (s : BridgeState T) (w : PollWaker) : Prop where
  stored : s.value = none → s.waker = some w
  taken : s.value.isSome = true → s.Taken w

end BridgeState

/-- How far a poll is. -/
inductive PollStage where
  | before
  | locked
  /-- it has the lock, and has seen that the cell is empty -/
  | looked
  /-- its waker is stored -/
  | stored
  | unlocked
  deriving DecidableEq

namespace PollStage

/-- The steps take a poll through the stages: it looks under the lock, and stores its waker before
it gives the lock up. -/
def Ordered : PollStage → List PollStep → Prop
  | .before, .post :: r => Ordered .before r
  | .before, .lock :: r => Ordered .locked r
  | .locked, .look :: r => Ordered .looked r
  | .looked, .store :: r => Ordered .stored r
  | .stored, .post :: r => Ordered .stored r
  | .stored, .unlock :: r => Ordered .unlocked r
  | .unlocked, .post :: r => Ordered .unlocked r
  | .unlocked, [] => True
  | _, _ => False

theorem ordered_poll (b : Bridge) : Ordered .before b.poll := by
  cases b <;> trivial

variable {T : Type*}

/-- What holds at a stage of a poll given `w`. -/
def At (s : BridgeState T) (w : PollWaker) : PollStage → Prop
  | .before => s.locked = false
  | .locked => s.locked = true
  | .looked => s.locked = true ∧ s.value = none
  | .stored => s.locked = true ∧ s.Waits w
  | .unlocked => s.locked = false ∧ s.Waits w

end PollStage

namespace BridgeState

variable {T : Type*} {b : Bridge} {v : T} {s s' : BridgeState T} {a : BridgeAct} {w : PollWaker}

/-- The invariant of the wakers and of the lock. -/
def Kept (s : BridgeState T) : Prop :=
  match s.future with
  | .polling w r => ∃ g : PollStage, g.Ordered r ∧ g.At s w
  | .pending w => s.locked = false ∧ s.Waits w
  | .unpolled | .ready => s.locked = false

theorem Taken.of_eq (h : s.Taken w) (hw : s'.waking = s.waking) (hd : s'.woken = s.woken) :
    s'.Taken w := by
  unfold Taken
  rwa [hw, hd]

theorem Waits.of_eq (h : s.Waits w) (hv : s'.value = s.value) (hk : s'.waker = s.waker)
    (hw : s'.waking = s.waking) (hd : s'.woken = s.woken) : s'.Waits w where
  stored h' := hk.trans (h.stored (hv ▸ h'))
  taken h' := (h.taken (hv ▸ h')).of_eq hw hd

/-- The job takes the waker that waits. -/
theorem Waits.set (h : s.Waits w) (hv : s.value = none) : (s.set v).Waits w where
  stored h' := nomatch h'
  taken _ := .inl (h.stored hv ▸ List.mem_cons_self)

theorem Taken.wake {o : Option PollWaker} (h : s.Taken w) :
    Taken { s with waking := s.waking.erase o, woken := o :: s.woken } w := by
  by_cases ho : some w = o
  · exact .inr (ho ▸ List.mem_cons_self)
  · rcases h with h | h
    · exact .inl ((List.mem_erase_of_ne ho).mpr h)
    · exact .inr (List.mem_cons_of_mem _ h)

theorem Waits.wake {o : Option PollWaker} (h : s.Waits w) :
    Waits { s with waking := s.waking.erase o, woken := o :: s.woken } w where
  stored := h.stored
  taken h' := (h.taken h').wake

end BridgeState

namespace PollStage.At

variable {T : Type*} {g : PollStage} {s s' : BridgeState T} {w : PollWaker}

theorem of_eq (h : g.At s w) (hl : s'.locked = s.locked) (hv : s'.value = s.value)
    (hk : s'.waker = s.waker) (hw : s'.waking = s.waking) (hd : s'.woken = s.woken) :
    g.At s' w := by
  cases g with
  | before | locked => exact hl.trans h
  | looked => exact ⟨hl.trans h.1, hv.trans h.2⟩
  | stored | unlocked => exact ⟨hl.trans h.1, BridgeState.Waits.of_eq h.2 hv hk hw hd⟩

/-- A job has the lock: the poll has not taken it, or has stored its waker and given it up. -/
theorem set {v : T} (h : g.At s w) (hl : s.locked = false) (hv : s.value = none) :
    g.At (s.set v) w := by
  cases g with
  | before | locked => exact h
  | looked | stored =>
      have := h.1
      rw [hl] at this
      cases this
  | unlocked => exact ⟨h.1, BridgeState.Waits.set h.2 hv⟩

theorem wake {o : Option PollWaker} (h : g.At s w) :
    g.At { s with waking := s.waking.erase o, woken := o :: s.woken } w := by
  cases g with
  | before | locked | looked => exact h
  | stored | unlocked => exact ⟨h.1, BridgeState.Waits.wake h.2⟩

end PollStage.At

namespace BridgeState

variable {T : Type*} {b : Bridge} {v : T} {s s' : BridgeState T} {a : BridgeAct} {w : PollWaker}

theorem post_frame (s : BridgeState T) : s.post.value = s.value ∧ s.post.waker = s.waker ∧
    s.post.locked = s.locked ∧ s.post.waking = s.waking ∧ s.post.woken = s.woken := by
  unfold post
  split <;> exact ⟨rfl, rfl, rfl, rfl, rfl⟩

/-- A step takes the poll from one stage to the next. -/
theorem kept_step {g : PollStage} {x : PollStep} {r : List PollStep}
    (ho : g.Ordered (x :: r)) (ha : g.At s w) : (s.step b w r x).Kept := by
  cases g with
  | before =>
      cases x with
      | post => exact ⟨.before, ho, s.post_frame.2.2.1.trans ha⟩
      | lock => exact ⟨.locked, ho, rfl⟩
      | look | store | unlock => exact ho.elim
  | locked =>
      cases x with
      | look =>
          cases hy : s.value with
          | some y =>
              rw [step_look_some hy]
              rfl
          | none =>
              rw [step_look_none hy]
              exact ⟨.looked, ho, ha, hy⟩
      | post | lock | store | unlock => exact ho.elim
  | looked =>
      cases x with
      | store =>
          refine ⟨.stored, ho, ha.1, fun _ => rfl, fun h' => ?_⟩
          have hv : s.value = none := ha.2
          simp [step, hv] at h'
      | post | lock | look | unlock => exact ho.elim
  | stored =>
      cases x with
      | post =>
          obtain ⟨hv, hk, hl, hw, hd⟩ := s.post_frame
          exact ⟨.stored, ho, hl.trans ha.1, Waits.of_eq ha.2 hv hk hw hd⟩
      | unlock => exact ⟨.unlocked, ho, rfl, Waits.of_eq ha.2 rfl rfl rfl rfl⟩
      | lock | look | store => exact ho.elim
  | unlocked =>
      cases x with
      | post =>
          obtain ⟨hv, hk, hl, hw, hd⟩ := s.post_frame
          exact ⟨.unlocked, ho, hl.trans ha.1, Waits.of_eq ha.2 hv hk hw hd⟩
      | lock | look | store | unlock => exact ho.elim

/-- A step of a job leaves the future as it is. -/
theorem Kept.of_future (h : s.Kept) (hf : s'.future = s.future) (hl : s'.locked = s.locked)
    (hp : ∀ w, s.Waits w → s'.Waits w) (hg : ∀ (g : PollStage) w, g.At s w → g.At s' w) :
    s'.Kept := by
  unfold Kept at h ⊢
  rw [hf]
  cases hs : s.future with
  | unpolled | ready =>
      rw [hs] at h
      exact hl.trans h
  | polling w r =>
      rw [hs] at h
      obtain ⟨g, ho, ha⟩ := h
      exact ⟨g, ho, hg g w ha⟩
  | pending w =>
      rw [hs] at h
      exact ⟨hl.trans h.1, hp w h.2⟩

/-- A future that is not in a poll does not have the lock. -/
theorem Kept.unlocked (h : s.Kept) (hf : s.future.isPolling = false) : s.locked = false := by
  unfold Kept at h
  cases hs : s.future with
  | unpolled | ready =>
      rw [hs] at h
      exact h
  | pending w =>
      rw [hs] at h
      exact h.1
  | polling w r =>
      rw [hs] at hf
      cases hf

theorem Kept.next (h : s.Kept) (hc : s.Counted b v) (ha : s.Enabled a) : (s.next b v a).Kept := by
  cases a with
  | poll w => exact ⟨.before, PollStage.ordered_poll b, h.unlocked ha⟩
  | step x =>
      obtain ⟨w, r, hf⟩ := polling_of_rest ha.1
      unfold Kept at h
      rw [hf] at h
      obtain ⟨g, ho, hg⟩ := h
      change (s.advance b x).Kept
      rw [advance_of_polling hf]
      exact kept_step ho hg
  | returns =>
      obtain ⟨w, hf⟩ := polling_of_isPolling ha.1 ha.2
      unfold Kept at h
      rw [hf] at h
      obtain ⟨g, ho, hg⟩ := h
      change s.returns.Kept
      rw [returns_of_polling hf]
      cases g with
      | unlocked => exact ⟨hg.1, Waits.of_eq hg.2 rfl rfl rfl rfl⟩
      | before | locked | looked | stored => exact ho.elim
  | start =>
      exact h.of_future rfl rfl (fun _ hw => hw.of_eq rfl rfl rfl rfl)
        fun _ _ hg => hg.of_eq rfl rfl rfl rfl rfl
  | set =>
      have hv := hc.value_of_running ha.1
      exact h.of_future rfl rfl (fun _ hw => hw.set hv) fun _ _ hg => hg.set ha.2 hv
  | wake o => exact h.of_future rfl rfl (fun _ hw => hw.wake) fun _ _ hg => hg.wake

/-! ### The law -/

/-- When the cell is filled and the last poll returned `Poll::Pending`, a job has taken the waker of
that poll. -/
def NoWakeLost (s : BridgeState T) : Prop :=
  ∀ w, s.future = .pending w → s.value.isSome = true → s.Taken w

/-- A poll that looks at a filled cell is ready with the value, which it takes unless the cell is a
`Timer`'s; no other step delivers anything or makes the future ready. -/
def HandsOver (b : Bridge) (v : T) (s : BridgeState T) : Prop :=
  (∀ y, s.future.rest.head? = some .look → s.value = some y →
    (s.next b v (.step .look)).future = .ready ∧
    (s.next b v (.step .look)).delivered = y :: s.delivered ∧
    (s.next b v (.step .look)).value = if b.takes then none else some y) ∧
  ∀ a, s.Enabled a → (a = .step .look → s.value = none) →
    (s.next b v a).delivered = s.delivered ∧
      ((s.next b v a).future = .ready → s.future = .ready)

/-- A poll of a filled cell, when no other thread comes in between, is ready with the value. -/
def ReadyWhenFilled (b : Bridge) (v : T) (s : BridgeState T) : Prop :=
  ∀ w y, s.future.isPolling = false → s.value = some y →
    (bridgeMachine b v).Follows (fun _ _ => True) s (.poll w :: b.toLook.map .step) ∧
    ((bridgeMachine b v).runList s (.poll w :: b.toLook.map .step)).future = .ready ∧
    ((bridgeMachine b v).runList s (.poll w :: b.toLook.map .step)).delivered = y :: s.delivered

/-- The job is posted at most once; of an `Interval`, at most one is outstanding. -/
def PostedOnce (s : BridgeState T) : Bridge → Prop
  | .offload | .oneshot | .timer => s.posts ≤ 1
  | .interval => s.posted + s.running ≤ 1

/-- What the polls return is what the jobs returned.  A value that was set was delivered or is in
the cell; the value of a `Timer` stays there, and no second poll delivers it but one that begins
after `Poll::Ready`. -/
def DeliveredOnce (v : T) (s : BridgeState T) (b : Bridge) : Prop :=
  (∀ x ∈ s.delivered, x = v) ∧
  match b with
  | .offload | .oneshot => s.delivered.length + s.value.isSome.toNat = s.sets ∧ s.sets ≤ 1
  | .timer =>
      s.value.isSome.toNat = s.sets ∧ s.sets ≤ 1 ∧ (s.delivered ≠ [] → s.sets = 1) ∧
        s.delivered.length ≤ s.late + 1
  | .interval => s.delivered.length + s.value.isSome.toNat = s.sets

theorem Counted.postedOnce (h : s.Counted b v) : s.PostedOnce b := by
  have hj := h.jobs
  have hp := h.posts
  have hs := h.sets
  have hb : s.scheduled.toNat ≤ 1 := Bool.toNat_le _
  cases b <;> simp only [Bridge.rearms, Bridge.takes, if_true, Bool.false_eq_true, if_false,
    Nat.add_zero] at hp hs <;> simp only [PostedOnce] <;> omega

theorem Counted.deliveredOnce (h : s.Counted b v) : s.DeliveredOnce v b := by
  have hj := h.jobs
  have hp := h.posts
  have hs := h.sets
  have hl := h.late
  have hb : s.scheduled.toNat ≤ 1 := Bool.toNat_le _
  have hr : s.future.isReady.toNat ≤ 1 := Bool.toNat_le _
  refine ⟨h.values, ?_⟩
  cases b with
  | offload | oneshot =>
      simp only [Bridge.rearms, Bridge.takes, if_true, Bool.false_eq_true, if_false] at hp hs
      exact ⟨by omega, by omega⟩
  | timer =>
      simp only [Bridge.rearms, Bridge.takes, Bool.false_eq_true, if_false] at hp hs
      refine ⟨by omega, by omega, fun hd => ?_, by omega⟩
      rw [h.kept rfl hd] at hs
      exact hs
  | interval =>
      simp only [Bridge.takes, if_true] at hs
      exact (Nat.add_comm _ _).trans hs.symm

theorem Kept.noWakeLost (h : s.Kept) : s.NoWakeLost := by
  intro w hf hv
  unfold Kept at h
  rw [hf] at h
  exact h.2.taken hv

theorem post_delivered (s : BridgeState T) : s.post.delivered = s.delivered := by
  unfold post
  split <;> rfl

theorem step_frame {x : PollStep} {r : List PollStep} (hx : x = .look → s.value = none) :
    (s.step b w r x).delivered = s.delivered ∧ (s.step b w r x).future = .polling w r := by
  cases x with
  | post => exact ⟨s.post_delivered, rfl⟩
  | look =>
      rw [step_look_none (hx rfl)]
      exact ⟨rfl, rfl⟩
  | lock | store | unlock => exact ⟨rfl, rfl⟩

theorem handsOver (b : Bridge) (v : T) (s : BridgeState T) : s.HandsOver b v := by
  refine ⟨fun y hr hy => ?_, fun a ha hlook => ?_⟩
  · obtain ⟨w, r, hf⟩ := polling_of_rest hr
    change (s.advance b .look).future = _ ∧ (s.advance b .look).delivered = _ ∧
      (s.advance b .look).value = _
    rw [advance_of_polling hf, step_look_some hy]
    exact ⟨rfl, rfl, rfl⟩
  · cases a with
    | poll w => exact ⟨rfl, fun h => by cases h⟩
    | step x =>
        obtain ⟨w, r, hf⟩ := polling_of_rest ha.1
        obtain ⟨hd, hp⟩ := step_frame (b := b) (w := w) (r := r) fun hx => hlook (hx ▸ rfl)
        change (s.advance b x).delivered = _ ∧ ((s.advance b x).future = .ready → _)
        rw [advance_of_polling hf, hp]
        exact ⟨hd, fun h => by cases h⟩
    | returns =>
        obtain ⟨w, hf⟩ := polling_of_isPolling ha.1 ha.2
        change s.returns.delivered = _ ∧ (s.returns.future = .ready → _)
        rw [returns_of_polling hf]
        exact ⟨rfl, fun h => by cases h⟩
    | start | set | wake o => exact ⟨rfl, id⟩

/-- A poll that takes the lock of a filled cell is ready with the value. -/
theorem ready_of_lock {r : List PollStep} {y : T} (hf : s.future = .polling w (.lock :: .look :: r))
    (hl : s.locked = false) (hy : s.value = some y) :
    (bridgeMachine b v).Follows (fun _ _ => True) s [.step .lock, .step .look] ∧
    ((bridgeMachine b v).runList s [.step .lock, .step .look]).future = .ready ∧
    ((bridgeMachine b v).runList s [.step .lock, .step .look]).delivered = y :: s.delivered := by
  have lock : s.next b v (.step .lock) =
      { s with locked := true, future := .polling w (.look :: r) } := advance_of_polling hf
  have first : s.Enabled (.step .lock) := ⟨by rw [hf]; rfl, fun _ => hl⟩
  have second : (s.next b v (.step .lock)).Enabled (.step .look) := by
    rw [lock]
    exact ⟨rfl, fun h => by cases h⟩
  obtain ⟨ready, delivered, -⟩ := (handsOver b v (s.next b v (.step .lock))).1 y
    (by rw [lock]; rfl) (by rw [lock]; exact hy)
  refine ⟨⟨trivial, first, trivial, second, trivial⟩, ready, delivered.trans ?_⟩
  rw [lock]

/-- The lock is free, so the poll comes to its look without waiting. -/
theorem Kept.readyWhenFilled (h : s.Kept) : s.ReadyWhenFilled b v := by
  intro w y hf hy
  have hl := h.unlocked hf
  -- three of the cells are locked first
  have locks : ∀ {b : Bridge} {r : List PollStep}, b.poll = .lock :: .look :: r →
      (bridgeMachine b v).Follows (fun _ _ => True) (s.next b v (.poll w))
        [.step .lock, .step .look] ∧
      ((bridgeMachine b v).runList (s.next b v (.poll w)) [.step .lock, .step .look]).future =
        .ready ∧
      ((bridgeMachine b v).runList (s.next b v (.poll w))
        [.step .lock, .step .look]).delivered = y :: s.delivered := fun {b r} hb =>
    ready_of_lock (w := ⟨w, s.polls⟩) (r := r) (congrArg (FuturePhase.polling _) hb) hl hy
  cases b with
  | oneshot =>
      obtain ⟨follows, ready⟩ := locks (b := .oneshot) rfl
      exact ⟨⟨trivial, hf, follows⟩, ready⟩
  | timer =>
      obtain ⟨follows, ready⟩ := locks (b := .timer) rfl
      exact ⟨⟨trivial, hf, follows⟩, ready⟩
  | interval =>
      obtain ⟨follows, ready⟩ := locks (b := .interval) rfl
      exact ⟨⟨trivial, hf, follows⟩, ready⟩
  | offload =>
      have posts : (s.next .offload v (.poll w)).next .offload v (.step .post) =
          { (s.next .offload v (.poll w)).post with
            future := .polling ⟨w, s.polls⟩ [.lock, .look, .store, .unlock] } := rfl
      have frame := (s.next .offload v (.poll w)).post_frame
      obtain ⟨follows, ready, delivered⟩ := ready_of_lock (v := v) (b := .offload)
        (s := (s.next .offload v (.poll w)).next .offload v (.step .post)) (y := y)
        (by rw [posts]) (by rw [posts]; exact frame.2.2.1.trans hl)
        (by rw [posts]; exact frame.1.trans hy)
      refine ⟨⟨trivial, hf, trivial, ⟨rfl, fun h => by cases h⟩, follows⟩, ready,
        delivered.trans ?_⟩
      rw [posts]
      exact congrArg (y :: ·) (post_delivered _)

theorem counted_of_reachable (h : (bridgeMachine b v).Reachable s) : s.Counted b v := by
  refine h.invariant (I := Counted b v) ?_ fun _ _ _ hi _ ha => hi.next ha
  rintro s rfl
  exact .init

theorem kept_of_reachable (h : (bridgeMachine b v).Reachable s) : s.Kept := by
  refine h.invariant (I := Kept) ?_ fun _ _ hs hi _ ha => hi.next (counted_of_reachable hs) ha
  rintro s rfl
  trivial

end BridgeState

/-- **The hand-over.**  In every reachable state of each of the four cells, the waker of the last
poll was taken if the cell is filled; a poll that looks at a filled cell is ready with the value,
nothing else delivers one, and a poll of a filled cell comes to its look; a value is delivered once,
and the job is posted once. -/
theorem bridge_handover {T : Type*} (b : Bridge) (v : T) {s : BridgeState T}
    (h : (bridgeMachine b v).Reachable s) :
    s.NoWakeLost ∧ s.HandsOver b v ∧ s.ReadyWhenFilled b v ∧ s.DeliveredOnce v b ∧
      s.PostedOnce b :=
  have hc := BridgeState.counted_of_reachable h
  have hk := BridgeState.kept_of_reachable h
  ⟨hk.noWakeLost, s.handsOver b v, hk.readyWhenFilled, hc.deliveredOnce, hc.postedOnce⟩

/-- Two polls of an `Interval` with different wakers; the tick begins while the first one has the
lock, and fires after the second one. -/
def tickRun : List BridgeAct :=
  [.poll 5, .step .lock, .step .look, .step .store, .step .post, .start, .step .unlock, .returns,
    .poll 6, .step .lock, .step .look, .step .store, .step .post, .step .unlock, .returns, .set]

/-- The waker of the second poll was taken, and a third poll takes the tick. -/
theorem tickRun_taken :
    let s := (bridgeMachine .interval ()).runList (.init .interval) tickRun
    let s' := (bridgeMachine .interval ()).runList s [.poll 7, .step .lock, .step .look]
    s.future = .pending ⟨6, 1⟩ ∧ s.value = some () ∧ s.Taken ⟨6, 1⟩ ∧ s.delivered = [] ∧
      s'.future = .ready ∧ s'.delivered = [()] ∧ s'.value = none ∧
      s'.DeliveredOnce () .interval ∧ s'.PostedOnce .interval := by
  have follows : (bridgeMachine .interval ()).Follows (fun _ _ => True) (.init .interval)
      tickRun := by decide +kernel
  have reach := Machine.ReachableBy.of_follows (M := bridgeMachine .interval ()) rfl follows
  have pending : ((bridgeMachine .interval ()).runList (.init .interval) tickRun).future =
      .pending ⟨6, 1⟩ := by decide +kernel
  have fired : ((bridgeMachine .interval ()).runList (.init .interval) tickRun).value =
      some () := by decide +kernel
  have none : ((bridgeMachine .interval ()).runList (.init .interval) tickRun).delivered = [] := by
    decide +kernel
  obtain ⟨lost, -, filled, -, -⟩ := bridge_handover .interval () reach
  obtain ⟨polls, ready, delivered⟩ := filled 7 () (by rw [pending]; rfl) fired
  rw [none] at delivered
  obtain ⟨-, -, -, once, posted⟩ := bridge_handover .interval () (reach.run polls.run)
  exact ⟨pending, fired, lost _ pending (by rw [fired]; rfl), none, ready, delivered,
    by decide +kernel, once, posted⟩

end RustAsync
