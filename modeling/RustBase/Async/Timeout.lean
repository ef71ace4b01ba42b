import RustBase.Async.Clock

/-!
# Async — timeouts

`timeout(dur, future)` polls the future, and the timer after it, with the same waker.

* What the future says is up to it: each poll comes with an answer.
* The poll of the timer is made of the steps of `Bridge.timer`, and the delayed task comes in between
  them, or between two polls.
* A future is not polled after `Poll::Ready`.  One that is dropped is not polled any more.

**`timeout_law`**: the answer is the future's, whenever it has one; otherwise it is `TimeoutError`, not
before the time is up, and no poll that begins after the timer has fired returns `Poll::Pending`.
-/

namespace RustAsync
open Support

structure TimeoutError where
  deriving DecidableEq

inductive TimeoutPhase (V : Type*) where
  | unpolled
  /-- the future has said `Poll::Pending`, and the poll of the timer is under way -/
  | timing (w : WakerId)
  | pending (w : WakerId)
  | ready (r : Except TimeoutError V)
  deriving DecidableEq

namespace TimeoutPhase

variable {V : Type*}

/-- A poll may begin. -/
def pollable : TimeoutPhase V → Bool
  | .unpolled | .pending _ => true
  | .timing _ | .ready _ => false

/-- The waker of the poll under way. -/
def waker : TimeoutPhase V → Option WakerId
  | .timing w => some w
  | .unpolled | .pending _ | .ready _ => none

end TimeoutPhase

structure TimeoutState (V : Type*) where
  timer : ClockState
  phase : TimeoutPhase V
  /-- what the future said, the last answer first; `none` is `Poll::Pending` -/
  answers : List (Option V)
  /-- the timer had fired when the last poll began -/
  late : Bool

inductive TimeoutAct (V : Type*) where
  /-- a poll begins, and the future answers -/
  | poll (w : WakerId) (answer : Option V)
  /-- the poll of the timer takes its next step -/
  | step (w : WakerId) (x : PollStep)
  | returns (w : WakerId)
  /-- a step of the delayed task -/
  | job (a : BridgeAct)
  | tick (n : ℕ)

def BridgeAct.isJob : BridgeAct → Bool
  | .start | .set | .wake _ => true
  | .poll _ | .step _ | .returns => false

namespace TimeoutState

variable {V : Type*} (dur : ℕ)

def init (now : ℕ) : TimeoutState V := ⟨.init .timer now, .unpolled, [], false⟩

def Enabled (s : TimeoutState V) : TimeoutAct V → Prop
  | .poll _ _ => s.phase.pollable = true
  | .step w x => s.phase.waker = some w ∧ s.timer.Enabled (.cell (.step x))
  | .returns w => s.phase.waker = some w ∧ s.timer.Enabled (.cell .returns)
  | .job a => a.isJob = true ∧ s.timer.Enabled (.cell a)
  | .tick _ => True

instance (s : TimeoutState V) : ∀ a, Decidable (s.Enabled a)
  | .poll _ _ => inferInstanceAs (Decidable (_ = _))
  | .step _ _ | .returns _ | .job _ => inferInstanceAs (Decidable (_ ∧ _))
  | .tick _ => inferInstanceAs (Decidable True)

/-- The timer takes a step. -/
def advance (s : TimeoutState V) (a : BridgeAct) : ClockState := s.timer.next .timer dur (.cell a)

def next (s : TimeoutState V) : TimeoutAct V → TimeoutState V
  | .poll w answer =>
      let answers := answer :: s.answers
      let late := s.timer.cell.value.isSome
      match answer with
      | some v => ⟨s.timer, .ready (.ok v), answers, late⟩
      | none => ⟨s.advance dur (.poll w), .timing w, answers, late⟩
  | .step w x =>
      let timer := s.advance dur (.step x)
      let phase := if timer.cell.future.isReady then .ready (.error ⟨⟩) else .timing w
      ⟨timer, phase, s.answers, s.late⟩
  | .returns w => ⟨s.advance dur .returns, .pending w, s.answers, s.late⟩
  | .job a => { s with timer := s.advance dur a }
  | .tick n => { s with timer := s.timer.next .timer dur (.tick n) }

end TimeoutState

def timeoutMachine (V : Type*) (dur : ℕ) : Machine (TimeoutState V) (TimeoutAct V) where
  Init s := ∃ now, s = .init now
  Enabled := TimeoutState.Enabled
  next := TimeoutState.next dur

instance {V : Type*} {dur : ℕ} : ∀ s a, Decidable ((timeoutMachine V dur).Enabled s a) :=
  fun s a => inferInstanceAs (Decidable (s.Enabled a))

namespace TimeoutState

variable {V : Type*} {dur : ℕ} {s : TimeoutState V}

/-- What the polls have left behind. -/
structure Inv (s : TimeoutState V) : Prop where
  unpolled : s.phase = .unpolled → s.answers = [] ∧ s.timer.cell.future = .unpolled
  /-- the timer's poll is under way; when it had fired before, that will be seen -/
  timing : ∀ w, s.phase = .timing w → none ∈ s.answers ∧
    ∃ n r, s.timer.cell.future = .polling ⟨w, n⟩ r ∧
      (s.late = true → s.timer.cell.value.isSome = true ∧ .look ∈ r)
  pending : ∀ w, s.phase = .pending w → s.late = false ∧
    ∃ n, s.timer.cell.future = .pending ⟨w, n⟩
  ok : ∀ v, s.phase = .ready (.ok v) → s.answers.head? = some (some v)
  error : ∀ e, s.phase = .ready (.error e) → s.timer.cell.value.isSome = true
  /-- nothing was said after an answer -/
  silent : ∀ r ∈ s.answers.tail, r = none
  last : (∀ v, s.phase ≠ .ready (.ok v)) → ∀ r ∈ s.answers, r = none
  /-- a delayed task is posted by a poll that found the future pending -/
  posts : s.timer.cell.posts = 0 ∨ none ∈ s.answers

/-! ### The timer's part -/

theorem advance_cell (s : TimeoutState V) (a : BridgeAct) :
    (s.advance dur a).cell = s.timer.cell.next .timer () a :=
  s.timer.cell_next a

/-- A step of the delayed task leaves the future and the number of posts. -/
theorem job_next (c : BridgeState Unit) {a : BridgeAct} (ha : a.isJob = true) :
    (c.next .timer () a).future = c.future ∧ (c.next .timer () a).posts = c.posts ∧
      (c.value.isSome = true → (c.next .timer () a).value.isSome = true) := by
  cases a with
  | start => exact ⟨rfl, rfl, id⟩
  | set => exact ⟨rfl, rfl, fun _ => rfl⟩
  | wake o => exact ⟨rfl, rfl, id⟩
  | poll w => cases ha
  | step x => cases ha
  | returns => cases ha

/-- A step of the timer's poll: the poll goes on, or the timer has fired and it is over. -/
theorem step_next {c : BridgeState Unit} {w : PollWaker} {x : PollStep} {r : List PollStep}
    (hf : c.future = .polling w (x :: r)) :
    (c.value.isSome = true → (c.next .timer () (.step x)).value.isSome = true) ∧
      ((c.next .timer () (.step x)).future = .polling w r ∧
          (x = .look → c.value.isSome = false) ∨
        (c.next .timer () (.step x)).future = .ready ∧
          (c.next .timer () (.step x)).value.isSome = true) := by
  simp only [BridgeState.next, BridgeState.advance_of_polling hf]
  cases x with
  | look =>
      by_cases hv : c.value = none
      · rw [BridgeState.step_look_none hv]
        exact ⟨id, .inl ⟨rfl, fun _ => by rw [hv]; rfl⟩⟩
      · obtain ⟨y, hv⟩ := Option.ne_none_iff_exists'.mp hv
        rw [BridgeState.step_look_some hv]
        exact ⟨fun _ => rfl, .inr ⟨rfl, rfl⟩⟩
  | post =>
      obtain ⟨hv, -⟩ := c.post_frame
      refine ⟨fun h => ?_, .inl ⟨rfl, fun e => by cases e⟩⟩
      simp only [BridgeState.step]
      rwa [hv]
  | lock => exact ⟨id, .inl ⟨rfl, fun e => by cases e⟩⟩
  | store => exact ⟨id, .inl ⟨rfl, fun e => by cases e⟩⟩
  | unlock => exact ⟨id, .inl ⟨rfl, fun e => by cases e⟩⟩

namespace Inv

theorem init (now : ℕ) : Inv (.init now : TimeoutState V) where
  unpolled _ := ⟨rfl, rfl⟩
  timing := nofun
  pending := nofun
  ok := nofun
  error := nofun
  silent := nofun
  last _ := nofun
  posts := .inl rfl

/-- Before a poll there are no answers but `Poll::Pending`. -/
theorem all_pending (h : s.Inv) (hp : s.phase.pollable = true) : ∀ r ∈ s.answers, r = none := by
  refine h.last fun v hv => ?_
  rw [hv] at hp
  cases hp

theorem poll_some (h : s.Inv) (hp : s.phase.pollable = true) (w : WakerId) (v : V) :
    (s.next dur (.poll w (some v))).Inv where
  unpolled := nofun
  timing := nofun
  pending := nofun
  ok _ hv := by cases hv; rfl
  error := nofun
  silent := h.all_pending hp
  last hv := absurd rfl (hv v)
  posts := h.posts.imp_right (List.mem_cons_of_mem _)

theorem poll_none (h : s.Inv) (hp : s.phase.pollable = true) (w : WakerId) :
    (s.next dur (.poll w none)).Inv where
  unpolled := nofun
  timing w' hw := by
    cases hw
    refine ⟨List.mem_cons_self, s.timer.cell.polls, Bridge.poll .timer, ?_, fun hl => ⟨?_, ?_⟩⟩
    · simp only [next, advance_cell]
      rfl
    · simp only [next, advance_cell]
      exact hl
    · decide
  pending := nofun
  ok := nofun
  error := nofun
  silent := h.all_pending hp
  last _ r hr := by
    rcases List.mem_cons.mp hr with rfl | hr
    · rfl
    · exact h.all_pending hp r hr
  posts := .inr List.mem_cons_self

theorem step (h : s.Inv) {w : WakerId} {x : PollStep} (ha : s.Enabled (.step w x)) :
    (s.next dur (.step w x)).Inv := by
  obtain ⟨hw, ⟨hrest, -⟩, -⟩ := ha
  have hphase : s.phase = .timing w := by
    cases hp : s.phase <;> rw [hp] at hw <;> cases hw
    rfl
  obtain ⟨hnone, n, r, hf, hlate⟩ := h.timing w hphase
  rw [hf] at hrest
  obtain ⟨r, rfl⟩ := List.head?_eq_some_iff.mp hrest
  have pending : ∀ r ∈ s.answers, r = none := h.last fun v hv => by rw [hphase] at hv; cases hv
  obtain ⟨hkeep, ⟨hf', hlook⟩ | ⟨hf', hv⟩⟩ := step_next hf
  · have going : (s.next dur (.step w x)).phase = .timing w := by
      simp only [next, advance_cell, hf', FuturePhase.isReady]
      rfl
    refine ⟨fun hp => ?_, fun w' hp => ?_, fun w' hp => ?_, fun v hp => ?_, fun e hp => ?_,
      h.silent, fun _ => pending, .inr hnone⟩
    · rw [going] at hp; cases hp
    · rw [going] at hp
      cases hp
      refine ⟨hnone, n, r, ?_, fun hl => ?_⟩
      · simp only [next, advance_cell, hf']
      · obtain ⟨hv, hm⟩ := hlate hl
        refine ⟨?_, ?_⟩
        · simp only [next, advance_cell]
          exact hkeep hv
        · -- the look itself would have seen it
          refine (List.mem_cons.mp hm).resolve_left fun e => ?_
          rw [hlook e.symm] at hv
          cases hv
    · rw [going] at hp; cases hp
    · rw [going] at hp; cases hp
    · rw [going] at hp; cases hp
  · have fired : (s.next dur (.step w x)).phase = .ready (.error ⟨⟩) := by
      simp only [next, advance_cell, hf', FuturePhase.isReady]
      rfl
    refine ⟨fun hp => ?_, fun w' hp => ?_, fun w' hp => ?_, fun v hp => ?_, fun _ _ => ?_,
      h.silent, fun _ => pending, .inr hnone⟩
    · rw [fired] at hp; cases hp
    · rw [fired] at hp; cases hp
    · rw [fired] at hp; cases hp
    · rw [fired] at hp; cases hp
    · simp only [next, advance_cell]
      exact hv

theorem returns (h : s.Inv) {w : WakerId} (ha : s.Enabled (.returns w)) :
    (s.next dur (.returns w)).Inv := by
  obtain ⟨hw, ⟨-, hrest⟩, -⟩ := ha
  have hphase : s.phase = .timing w := by
    cases hp : s.phase <;> rw [hp] at hw <;> cases hw
    rfl
  obtain ⟨hnone, n, r, hf, hlate⟩ := h.timing w hphase
  rw [hf] at hrest
  obtain rfl : r = [] := hrest
  refine ⟨nofun, nofun, fun w' hp => ?_, nofun, nofun, h.silent, fun _ => ?_, .inr hnone⟩
  · cases hp
    refine ⟨?_, n, ?_⟩
    · change s.late = false
      cases hl : s.late with
      | false => rfl
      | true => cases (hlate hl).2
    · simp only [next, advance_cell, BridgeState.next, BridgeState.returns_of_polling hf]
  · exact h.last fun v hv => by rw [hphase] at hv; cases hv

/-- A step of the delayed task, or of the clock. -/
theorem of_timer (h : s.Inv) {timer : ClockState}
    (hf : timer.cell.future = s.timer.cell.future) (hp : timer.cell.posts = s.timer.cell.posts)
    (hv : s.timer.cell.value.isSome = true → timer.cell.value.isSome = true) :
    Inv { s with timer := timer } where
  unpolled e := ⟨(h.unpolled e).1, hf.trans (h.unpolled e).2⟩
  timing w e := by
    obtain ⟨hnone, n, r, hr, hlate⟩ := h.timing w e
    exact ⟨hnone, n, r, hf.trans hr, fun hl => (hlate hl).imp_left hv⟩
  pending w e := by
    obtain ⟨hl, n, hr⟩ := h.pending w e
    exact ⟨hl, n, hf.trans hr⟩
  ok := h.ok
  error e he := hv (h.error e he)
  silent := h.silent
  last := h.last
  posts := h.posts.imp_left hp.trans

theorem next (h : s.Inv) {a : TimeoutAct V} (ha : s.Enabled a) : (s.next dur a).Inv := by
  cases a with
  | poll w answer =>
      cases answer with
      | none => exact h.poll_none ha w
      | some v => exact h.poll_some ha w v
  | step w x => exact h.step ha
  | returns w => exact h.returns ha
  | job a =>
      obtain ⟨hf, hp, hv⟩ := job_next s.timer.cell ha.1
      have cell : (s.advance dur a).cell = s.timer.cell.next .timer () a := s.advance_cell a
      rw [← cell] at hf hp hv
      exact h.of_timer hf hp hv
  | tick n => exact h.of_timer rfl rfl id

end Inv

/-- The poll of the timer may begin. -/
theorem Inv.pollable (h : s.Inv) (hp : s.phase.pollable = true) :
    s.timer.cell.future.isPolling = false := by
  cases hs : s.phase with
  | unpolled => rw [(h.unpolled hs).2]; rfl
  | pending w =>
      obtain ⟨-, n, hf⟩ := h.pending w hs
      rw [hf]
      rfl
  | timing w => rw [hs] at hp; cases hp
  | ready r => rw [hs] at hp; cases hp

theorem inv_of_reachable (h : (timeoutMachine V dur).Reachable s) : s.Inv := by
  refine h.invariant ?_ fun _ _ _ hi _ ha => hi.next ha
  rintro s ⟨now, rfl⟩
  exact .init now

/-- What happens to the timer is a run of its own. -/
theorem timer_reachable (h : (timeoutMachine V dur).Reachable s) :
    (clockMachine .timer dur).Reachable s.timer := by
  refine h.refines (N := clockMachine .timer dur) ?_ fun s a hs _ ha => ?_
  · rintro s ⟨now, rfl⟩
    exact ⟨now, rfl⟩
  · cases a with
    | poll w answer =>
        cases answer with
        | some v => exact .inl rfl
        | none =>
            refine .inr ⟨.cell (.poll w), ⟨?_, nofun⟩, rfl⟩
            exact (inv_of_reachable hs).pollable ha
    | step w x => exact .inr ⟨.cell (.step x), ha.2, rfl⟩
    | returns w => exact .inr ⟨.cell .returns, ha.2, rfl⟩
    | job a => exact .inr ⟨.cell a, ha.2, rfl⟩
    | tick n => exact .inr ⟨.tick n, trivial, rfl⟩

end TimeoutState

/-- **`timeout(dur, future)`.**  In every run, whatever the future says at its polls, and however the
delayed task comes in between.

* `Ok` holds what the future said last, after `Poll::Pending` only.
* `Err(TimeoutError)` is returned by a poll that found the future pending as well, not before `dur`
  has gone by since the first one.
* A poll that begins after the timer has fired does not return `Poll::Pending`.  When it fires later,
  the waker of the last poll is woken, or about to be.
* One delayed task is posted at most, and none for a future that is ready at once. -/
theorem timeout_law {V : Type*} {dur : ℕ} {s : TimeoutState V}
    (h : (timeoutMachine V dur).Reachable s) :
    (∀ v, s.phase = .ready (.ok v) →
      s.answers.head? = some (some v) ∧ ∀ r ∈ s.answers.tail, r = none) ∧
    (s.phase = .ready (.error ⟨⟩) →
      (∀ r ∈ s.answers, r = none) ∧ ∃ t ∈ s.timer.first, t + dur ≤ s.timer.now) ∧
    (∀ w, s.phase = .pending w → s.late = false ∧
      ∃ n, s.timer.cell.value.isSome = true → s.timer.cell.Taken ⟨w, n⟩) ∧
    s.timer.cell.posts ≤ 1 ∧ (none ∉ s.answers → s.timer.cell.posts = 0) := by
  have inv := TimeoutState.inv_of_reachable h
  have timer := TimeoutState.timer_reachable h
  have cell := ClockState.cell_reachable timer
  refine ⟨fun v hv => ⟨inv.ok v hv, inv.silent⟩, fun he => ⟨?_, ?_⟩, fun w hw => ?_, ?_, ?_⟩
  · exact inv.last fun v hv => by rw [he] at hv; cases hv
  · have fired := inv.error _ he
    have paced := ClockState.items_paced rfl timer
    have one : s.timer.items .timer = 1 := by
      simp only [ClockState.items, Bridge.takes, fired]
      rfl
    rw [one, Nat.one_mul] at paced
    exact paced.resolve_left Nat.one_ne_zero
  · obtain ⟨hl, n, hf⟩ := inv.pending w hw
    exact ⟨hl, n, (BridgeState.kept_of_reachable cell).noWakeLost _ hf⟩
  · exact (BridgeState.counted_of_reachable cell).postedOnce
  · exact fun hn => inv.posts.resolve_right hn

/-- A future that is pending twice, and a timer of 10 that fires between the polls. -/
def lateRun : List (TimeoutAct ℕ) :=
  [.poll 5 none] ++ [.lock, .look, .store, .unlock, .post].map (.step 5) ++
    [.returns 5, .tick 10, .job .start, .job .set, .poll 6 none, .step 6 .lock, .step 6 .look]

theorem lateRun_error :
    let s := (timeoutMachine ℕ 10).runList (.init 3) lateRun
    s.phase = .ready (.error ⟨⟩) ∧ s.answers = [none, none] ∧ s.timer.now = 13 ∧
      (∃ t ∈ s.timer.first, t + 10 ≤ s.timer.now) ∧ s.timer.cell.posts ≤ 1 := by
  have reached : (timeoutMachine ℕ 10).Reachable ((timeoutMachine ℕ 10).runList (.init 3) lateRun) :=
    .of_follows ⟨3, rfl⟩ (by decide +kernel)
  obtain ⟨-, error, -, posts, -⟩ := timeout_law reached
  have phase : ((timeoutMachine ℕ 10).runList (.init 3) lateRun).phase = .ready (.error ⟨⟩) := by
    decide +kernel
  exact ⟨phase, by decide +kernel, by decide +kernel, (error phase).2, posts⟩

end RustAsync
