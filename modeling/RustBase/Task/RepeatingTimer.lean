import Mathlib.Data.List.Count
import RustBase.Support.Machine

/-!
# Task — the repeating timer

A `RepeatingTimer` with the firings of its ticks.  `start` makes a `TimerInner`, stores it in
`active` and posts the first tick; a tick has a `Weak` to it, and a firing upgrades it, posts the
next tick and calls the callback.  `stop`, `drop` and a later `start` only take the reference in
`active` away.

* A `TimerInner` is alive while `active`, a call of `start` or a firing holds it (`Alive`).
* `start` and `stop` are called by any threads, also several at once, and from inside the callback
  (`nested`): the callback then returns after the call.
* The runner runs one task at a time and each tick once.  A tick fires at any time after its post;
  a post is accepted or refused.

Results:

* **`timer_chain`**: a start has at most one tick outstanding, callbacks do not overlap, and a start
  that nothing holds and that is not about to call its callback is over for good.
* `detachedRun_calls`: a firing has let its `TimerInner` go when it calls the callback, so that
  nothing holds it does not mean that the callback is not called any more.
-/

namespace RustTask
open Support

/-- A `TimerInner`, by its address. -/
abbrev InnerId := ℕ

/-- A call of `RepeatingTimer::start`, which holds its `inner` to its end. -/
inductive StartPhase where
  /-- storing it in `active` is next -/
  | activate
  /-- `schedule_next`: the upgrade is next -/
  | upgrade
  /-- `schedule_next`: the post is next -/
  | post
  | finish
  deriving DecidableEq

/-- The call of the timer that the callback is in. -/
inductive NestedCall where
  | none
  | start (i : InnerId) (p : StartPhase)
  /-- `stop` has cleared `active`; `stopped` had been active by then -/
  | stop (stopped : List InnerId)
  deriving DecidableEq

/-- The runner's worker, with the task of a tick. -/
inductive FirePhase where
  | idle
  /-- `bind_once`: the upgrade is next -/
  | fired (i : InnerId)
  /-- `schedule_next`: the upgrade is next -/
  | upgraded (i : InnerId)
  /-- `schedule_next`: the post is next -/
  | posting (i : InnerId)
  /-- `drop(inner)` is next -/
  | dropping (i : InnerId)
  /-- `cb()` is next -/
  | calling (i : InnerId)
  | inCallback (i : InnerId)
  deriving DecidableEq

namespace FirePhase

/-- The `TimerInner` a firing holds. -/
def holds : FirePhase → Option InnerId
  | .upgraded i | .posting i | .dropping i => some i
  | _ => none

/-- The `TimerInner` whose callback a firing is going to call. -/
def willCall : FirePhase → Option InnerId
  | .upgraded i | .posting i | .dropping i | .calling i => some i
  | _ => none

/-- The `TimerInner` for which a firing has not posted the next tick yet. -/
def willPost : FirePhase → Option InnerId
  | .fired i | .upgraded i | .posting i => some i
  | _ => none

def inCb : FirePhase → Bool
  | .inCallback _ => true
  | _ => false

end FirePhase

inductive TickEvent where
  | posted (i : InnerId)
  | began (i : InnerId)
  | ended (i : InnerId)
  deriving DecidableEq

structure RepeatingTimer where
  nextInner : InnerId
  active : Option InnerId
  dropped : Bool
  /-- the calls of `start` by other threads, by the `inner` they made -/
  starts : InnerId → Option StartPhase
  nested : NestedCall
  /-- the calls of `stop` by other threads that have cleared `active`, with what had been active -/
  stops : List (List InnerId)
  /-- the delayed tasks that have not run -/
  ticks : List InnerId
  worker : FirePhase
  /-- what has been active so far -/
  activated : List InnerId
  log : List TickEvent

namespace RepeatingTimer

def new : RepeatingTimer where
  nextInner := 0
  active := none
  dropped := false
  starts := fun _ => none
  nested := .none
  stops := []
  ticks := []
  worker := .idle
  activated := []
  log := []

inductive Action where
  /-- enters `start`, from the callback if `own` -/
  | start (own : Bool)
  | activate (i : InnerId)
  | startUpgrade (i : InnerId)
  | startPost (i : InnerId) (ok : Bool)
  | startReturns (i : InnerId)
  /-- `stop` clears `active` -/
  | stop (own : Bool)
  | stopReturns (stopped : List InnerId)
  | ownStopReturns (stopped : List InnerId)
  | dropTimer
  | fire (i : InnerId)
  | upgrade (i : InnerId)
  | scheduleUpgrade (i : InnerId)
  | post (i : InnerId) (ok : Bool)
  | dropInner (i : InnerId)
  | call (i : InnerId)
  | callbackReturns (i : InnerId)
  deriving DecidableEq

/-- Where the call of `start` that made `i` has come to. -/
def startPhase (s : RepeatingTimer) (i : InnerId) : Option StartPhase :=
  match s.nested with
  | .start j p => if j = i then some p else s.starts i
  | _ => s.starts i

/-- The call of `start` that made `i` goes on, or returns. -/
def setStart (s : RepeatingTimer) (i : InnerId) (o : Option StartPhase) : RepeatingTimer :=
  match s.nested with
  | .start j _ =>
      if j = i then { s with nested := o.elim .none (.start j) }
      else { s with starts := Function.update s.starts i o }
  | _ => { s with starts := Function.update s.starts i o }

/-- Something holds the `TimerInner`: a `Weak` to it can be upgraded. -/
def Alive (s : RepeatingTimer) (i : InnerId) : Prop :=
  s.active = some i ∨ (s.startPhase i).isSome = true ∨ s.worker.holds = some i

instance (s : RepeatingTimer) (i : InnerId) : Decidable (s.Alive i) :=
  inferInstanceAs (Decidable (_ ∨ _ ∨ _))

def Enabled (s : RepeatingTimer) : Action → Prop
  | .start own | .stop own => s.dropped = false ∧
      (own = true → s.worker.inCb = true ∧ s.nested = .none)
  | .activate i => s.startPhase i = some .activate
  | .startUpgrade i => s.startPhase i = some .upgrade
  | .startPost i _ => s.startPhase i = some .post
  | .startReturns i => s.startPhase i = some .finish
  | .stopReturns l => l ∈ s.stops
  | .ownStopReturns l => s.nested = .stop l
  | .dropTimer => s.dropped = false ∧ s.stops = [] ∧ s.nested = .none ∧
      ∀ i < s.nextInner, s.starts i = none
  | .fire i => s.worker = .idle ∧ i ∈ s.ticks
  | .upgrade i => s.worker = .fired i
  | .scheduleUpgrade i => s.worker = .upgraded i
  | .post i _ => s.worker = .posting i
  | .dropInner i => s.worker = .dropping i
  | .call i => s.worker = .calling i
  | .callbackReturns i => s.worker = .inCallback i ∧ s.nested = .none

instance (s : RepeatingTimer) : ∀ a, Decidable (s.Enabled a)
  | .start _ | .stop _ => inferInstanceAs (Decidable (_ ∧ (_ → _)))
  | .activate _ | .startUpgrade _ | .startPost _ _ | .startReturns _ | .ownStopReturns _
  | .upgrade _ | .scheduleUpgrade _ | .post _ _ | .dropInner _ | .call _ =>
      inferInstanceAs (Decidable (_ = _))
  | .stopReturns _ => inferInstanceAs (Decidable (_ ∈ _))
  | .dropTimer => inferInstanceAs (Decidable (_ ∧ _ ∧ _ ∧ ∀ i < s.nextInner, _))
  | .fire _ | .callbackReturns _ => inferInstanceAs (Decidable (_ ∧ _))

def emit (s : RepeatingTimer) (e : TickEvent) : RepeatingTimer := { s with log := s.log ++ [e] }

/-- `post_delayed_task` with the tick of `i`; its answer is ignored. -/
def postTick (s : RepeatingTimer) (i : InnerId) (ok : Bool) : RepeatingTimer :=
  if ok then { s with ticks := i :: s.ticks }.emit (.posted i) else s

def next (s : RepeatingTimer) : Action → RepeatingTimer
  | .start own =>
      let i := s.nextInner
      let s := { s with nextInner := i + 1 }
      if own then { s with nested := .start i .activate }
      else { s with starts := Function.update s.starts i (some .activate) }
  | .activate i =>
      { s with active := some i, activated := i :: s.activated }.setStart i (some .upgrade)
  | .startUpgrade i => s.setStart i (some (if s.Alive i then .post else .finish))
  | .startPost i ok => (s.postTick i ok).setStart i (some .finish)
  | .startReturns i => s.setStart i none
  | .stop own =>
      if own then { s with active := none, nested := .stop s.activated }
      else { s with active := none, stops := s.activated :: s.stops }
  | .stopReturns l => { s with stops := s.stops.erase l }
  | .ownStopReturns _ => { s with nested := .none }
  | .dropTimer => { s with active := none, dropped := true }
  | .fire i => { s with ticks := s.ticks.erase i, worker := .fired i }
  | .upgrade i => { s with worker := if s.Alive i then .upgraded i else .idle }
  | .scheduleUpgrade i => { s with worker := if s.Alive i then .posting i else .dropping i }
  | .post i ok => { s.postTick i ok with worker := .dropping i }
  | .dropInner i => { s with worker := .calling i }
  | .call i => { s with worker := .inCallback i }.emit (.began i)
  | .callbackReturns i => { s with worker := .idle }.emit (.ended i)

end RepeatingTimer

def repeatMachine : Machine RepeatingTimer RepeatingTimer.Action where
  Init := fun s => s = .new
  Enabled := RepeatingTimer.Enabled
  next := RepeatingTimer.next

instance : ∀ s a, Decidable (repeatMachine.Enabled s a) :=
  fun s a => inferInstanceAs (Decidable (s.Enabled a))

namespace RepeatingTimer

variable {s s' : RepeatingTimer} {i j : InnerId}

/-! ### The calls of `start` -/

/-- What a state keeps of another one when a call of `start` moves. -/
structure SameButStarts (s s' : RepeatingTimer) : Prop where
  nextInner : s'.nextInner = s.nextInner
  active : s'.active = s.active
  stops : s'.stops = s.stops
  ticks : s'.ticks = s.ticks
  worker : s'.worker = s.worker
  activated : s'.activated = s.activated
  log : s'.log = s.log

theorem setStart_same (i : InnerId) (o : Option StartPhase) : SameButStarts s (s.setStart i o) := by
  unfold setStart
  split
  · split <;> exact ⟨rfl, rfl, rfl, rfl, rfl, rfl, rfl⟩
  · exact ⟨rfl, rfl, rfl, rfl, rfl, rfl, rfl⟩

/-- A call that the callback is in belongs to no other thread. -/
def NestedApart (s : RepeatingTimer) : Prop := ∀ i p, s.nested = .start i p → s.starts i = none

theorem startPhase_setStart (h : s.NestedApart) (o : Option StartPhase) :
    (s.setStart i o).startPhase j = if j = i then o else s.startPhase j := by
  cases hn : s.nested with
  | start k q =>
      by_cases hk : k = i
      · subst hk
        have gone := h k q hn
        by_cases hj : k = j
        · subst hj
          cases o <;> simp [setStart, startPhase, hn, gone]
        · cases o <;> simp [setStart, startPhase, hn, hj, Ne.symm hj]
      · by_cases hj : k = j
        · simp [setStart, startPhase, hn, hj, show j ≠ i from hj ▸ hk]
        · simp [setStart, startPhase, hn, hk, hj, Function.update_apply]
  | none | stop l => simp only [setStart, startPhase, hn, Function.update_apply]

theorem nested_setStart {o : Option StartPhase} (h : (s.setStart i o).nested ≠ .none) :
    s.nested ≠ .none := by
  intro hn
  simp only [setStart, hn] at h
  exact h rfl

theorem NestedApart.setStart (h : s.NestedApart) (o : Option StartPhase) :
    (s.setStart i o).NestedApart := by
  intro j r hj
  cases hn : s.nested with
  | start k q =>
      have gone := h k q hn
      by_cases hk : k = i
      · simp only [RepeatingTimer.setStart, hn, if_pos hk] at hj ⊢
        cases o with
        | none => cases hj
        | some p => cases hj; exact gone
      · simp only [RepeatingTimer.setStart, hn, if_neg hk] at hj ⊢
        cases hj
        rw [Function.update_of_ne hk]
        exact gone
  | none | stop l =>
      simp only [RepeatingTimer.setStart, hn] at hj
      cases hj

/-! ### Ticks -/

/-- A call of `start` has its tick still to post. -/
def owesTick : Option StartPhase → ℕ
  | some .activate | some .upgrade | some .post => 1
  | _ => 0

/-- The ticks of `i` that are outstanding or still to be posted. -/
def tokens (s : RepeatingTimer) (i : InnerId) : ℕ :=
  s.ticks.count i + owesTick (s.startPhase i) + if s.worker.willPost = some i then 1 else 0

/-- What ties the calls, the ticks and the firings together. -/
structure Chain (s : RepeatingTimer) : Prop where
  apart : s.NestedApart
  nested_cb : s.nested ≠ .none → s.worker.inCb = true
  fresh : ∀ i, s.nextInner ≤ i → s.startPhase i = none ∧ s.tokens i = 0 ∧ i ∉ s.activated
  one : ∀ i, s.tokens i ≤ 1
  activated : ∀ i ∈ s.activated, s.startPhase i ≠ some .activate
  active : ∀ i, s.active = some i → i ∈ s.activated

theorem chain_new : Chain .new where
  apart _ _ h := by cases h
  nested_cb h := absurd rfl h
  fresh _ _ := ⟨rfl, rfl, List.not_mem_nil⟩
  one _ := Nat.zero_le _
  activated _ h := by cases h
  active _ h := by cases h

namespace Chain

/-- A step that makes no `TimerInner` and activates none. -/
theorem shrink (h : Chain s) (ha : s'.NestedApart)
    (hn : s'.nested ≠ .none → s'.worker.inCb = true) (hi : s'.nextInner = s.nextInner)
    (hp : ∀ i, s.startPhase i = none → s'.startPhase i = none)
    (ht : ∀ i, s'.tokens i ≤ s.tokens i) (hs : s'.activated = s.activated)
    (hv : ∀ i, s.startPhase i ≠ some .activate → s'.startPhase i ≠ some .activate)
    (hc : s'.active = none ∨ s'.active = s.active) : Chain s' where
  apart := ha
  nested_cb := hn
  fresh i hle := by
    obtain ⟨h₁, h₂, h₃⟩ := h.fresh i (hi ▸ hle)
    exact ⟨hp i h₁, Nat.le_zero.mp (h₂ ▸ ht i), hs ▸ h₃⟩
  one i := Nat.le_trans (ht i) (h.one i)
  activated i hm := hv i (h.activated i (hs ▸ hm))
  active i hm := by
    rw [hs]
    rcases hc with hc | hc
    · rw [hc] at hm; cases hm
    · exact h.active i (hc ▸ hm)

theorem nested_none (h : Chain s) (hw : s.worker.inCb = false) : s.nested = .none := by
  by_contra hx
  rw [h.nested_cb hx] at hw
  cases hw

/-- A step of the worker. -/
theorem work (h : Chain s) (none : s.nested = .none) (hst : s'.starts = s.starts)
    (hne : s'.nested = s.nested) (hi : s'.nextInner = s.nextInner)
    (ht : ∀ i, s'.ticks.count i + (if s'.worker.willPost = some i then 1 else 0) ≤
      s.ticks.count i + if s.worker.willPost = some i then 1 else 0)
    (hs : s'.activated = s.activated) (hc : s'.active = s.active) : Chain s' := by
  have same : ∀ i, s'.startPhase i = s.startPhase i := fun i => by
    simp only [startPhase, hst, hne]
  refine h.shrink (fun i p hip => ?_) (fun hx => ?_) hi (fun i hx => (same i).trans hx)
    (fun i => ?_) hs (fun i hx => by rwa [same i]) (.inr hc)
  · rw [hst]; exact h.apart i p (hne ▸ hip)
  · exact absurd (hne.trans none) hx
  · have := ht i
    simp only [tokens, same]
    omega

/-- A step of a call of `start`, after which it owes no more than before. -/
theorem call (h : Chain s) {o : Option StartPhase} {x : RepeatingTimer} (hx : x.starts = s.starts)
    (hne : x.nested = s.nested) (hi : x.nextInner = s.nextInner) (hw : x.worker = s.worker)
    (hs : x.activated = s.activated) (hc : x.active = s.active) (hp : s.startPhase i ≠ none)
    (ho : o ≠ some .activate)
    (ht : ∀ j, x.ticks.count j + owesTick (if j = i then o else s.startPhase j) ≤
      s.ticks.count j + owesTick (s.startPhase j)) : Chain (x.setStart i o) := by
  have same : x.startPhase = s.startPhase := by
    funext j; simp only [startPhase, hx, hne]
  have apart : x.NestedApart := fun j p hj => by
    rw [hx]; exact h.apart j p (hne ▸ hj)
  have frame := setStart_same (s := x) i o
  have phase : ∀ j, (x.setStart i o).startPhase j = if j = i then o else s.startPhase j :=
    fun j => by rw [startPhase_setStart apart, same]
  refine h.shrink (apart.setStart o) (fun hn => ?_) (frame.nextInner.trans hi) (fun j hj => ?_)
    (fun j => ?_) (frame.activated.trans hs) (fun j hj => ?_) (.inr (frame.active.trans hc))
  · rw [frame.worker, hw]
    exact h.nested_cb (hne ▸ nested_setStart hn)
  · have : j ≠ i := fun e => hp (e ▸ hj)
    rw [phase, if_neg this]
    exact hj
  · have := ht j
    simp only [tokens, phase, frame.ticks, frame.worker, hw]
    omega
  · rw [phase]
    split
    · exact ho
    · exact hj

end Chain

theorem postTick_cases (i : InnerId) (ok : Bool) :
    (s.postTick i ok = { s with ticks := i :: s.ticks, log := s.log ++ [.posted i] }) ∨
      s.postTick i ok = s := by
  cases ok
  · exact .inr rfl
  · exact .inl rfl

theorem count_postTick (ok : Bool) :
    (s.postTick i ok).ticks.count j ≤ s.ticks.count j + if i = j then 1 else 0 := by
  rcases postTick_cases (s := s) i ok with h | h
  · rw [h]
    simp [List.count_cons, beq_iff_eq]
  · rw [h]; exact Nat.le_add_right _ _

theorem postTick_frame (i : InnerId) (ok : Bool) :
    (s.postTick i ok).starts = s.starts ∧ (s.postTick i ok).nested = s.nested ∧
      (s.postTick i ok).nextInner = s.nextInner ∧ (s.postTick i ok).worker = s.worker ∧
      (s.postTick i ok).activated = s.activated ∧ (s.postTick i ok).active = s.active ∧
      (s.postTick i ok).stops = s.stops := by
  cases ok <;> exact ⟨rfl, rfl, rfl, rfl, rfl, rfl, rfl⟩

theorem startPhase_start (h : Chain s) {own : Bool} (ho : own = true → s.nested = .none) :
    (s.next (.start own)).startPhase j =
      if j = s.nextInner then some .activate else s.startPhase j := by
  cases own with
  | true =>
      simp only [next, startPhase, ho rfl, if_pos, eq_comm (a := j)]
  | false =>
      have fresh := (h.fresh s.nextInner (Nat.le_refl _)).1
      cases hn : s.nested with
      | start k q =>
          have hk : k ≠ s.nextInner := by
            rintro rfl
            simp [startPhase, hn] at fresh
          by_cases hj : k = j
          · simp [next, startPhase, hn, hj, show j ≠ s.nextInner from hj ▸ hk]
          · simp [next, startPhase, hn, hj, Function.update_apply]
      | none | stop l => simp [next, startPhase, hn, Function.update_apply]

theorem chain_start (h : Chain s) {own : Bool} (ha : s.Enabled (.start own)) :
    Chain (s.next (.start own)) := by
  have phase : ∀ j, (s.next (.start own)).startPhase j =
      if j = s.nextInner then some .activate else s.startPhase j := fun j =>
    startPhase_start h fun ho => (ha.2 ho).2
  have next_eq : (s.next (.start own)).nextInner = s.nextInner + 1 := by cases own <;> rfl
  have ticks : (s.next (.start own)).ticks = s.ticks := by cases own <;> rfl
  have worker : (s.next (.start own)).worker = s.worker := by cases own <;> rfl
  have activated : (s.next (.start own)).activated = s.activated := by cases own <;> rfl
  have active : (s.next (.start own)).active = s.active := by cases own <;> rfl
  obtain ⟨fresh, zero, unused⟩ := h.fresh s.nextInner (Nat.le_refl _)
  -- the new `TimerInner` owes its first tick, the others owe what they owed
  have tokens : ∀ j, (s.next (.start own)).tokens j =
      if j = s.nextInner then 1 else s.tokens j := by
    intro j
    simp only [RepeatingTimer.tokens, ticks, worker, phase]
    split
    · rename_i e
      subst e
      simp only [RepeatingTimer.tokens, fresh, owesTick] at zero ⊢
      omega
    · rfl
  refine ⟨fun i p hip => ?_, fun hx => ?_, fun i hle => ?_, fun i => ?_, fun i hm => ?_,
    fun i hm => ?_⟩
  · cases own with
    | true =>
        cases hip
        rwa [startPhase, (ha.2 rfl).2] at fresh
    | false =>
        have hi : i ≠ s.nextInner := by
          rintro rfl
          rw [startPhase, show s.nested = _ from hip] at fresh
          simp at fresh
        show Function.update s.starts s.nextInner _ i = none
        rw [Function.update_of_ne hi]
        exact h.apart i p hip
  · rw [worker]
    cases own with
    | true => exact (ha.2 rfl).1
    | false => exact h.nested_cb hx
  · rw [next_eq] at hle
    have hne : i ≠ s.nextInner := Nat.ne_of_gt hle
    obtain ⟨h₁, h₂, h₃⟩ := h.fresh i (Nat.le_of_succ_le hle)
    rw [phase, tokens, if_neg hne, if_neg hne, activated]
    exact ⟨h₁, h₂, h₃⟩
  · rw [tokens]
    split
    · exact Nat.le_refl 1
    · exact h.one i
  · rw [activated] at hm
    have hne : i ≠ s.nextInner := fun e => unused (e ▸ hm)
    rw [phase, if_neg hne]
    exact h.activated i hm
  · rw [activated]
    exact h.active i (active ▸ hm)

theorem chain_activate (h : Chain s) (ha : s.startPhase i = some .activate) :
    Chain (s.next (.activate i)) := by
  let x : RepeatingTimer := { s with active := some i, activated := i :: s.activated }
  have frame := setStart_same (s := x) i (some .upgrade)
  have phase : ∀ j, (s.next (.activate i)).startPhase j =
      if j = i then some .upgrade else s.startPhase j := fun j =>
    startPhase_setStart (s := x) h.apart _
  refine ⟨NestedApart.setStart (s := x) h.apart _, fun hx => ?_, fun j hle => ?_, fun j => ?_,
    fun j hm => ?_, fun j hm => ?_⟩
  · rw [show (s.next (.activate i)).worker = _ from frame.worker]
    exact h.nested_cb (nested_setStart (s := x) hx)
  · rw [show (s.next (.activate i)).nextInner = _ from frame.nextInner] at hle
    obtain ⟨h₁, h₂, h₃⟩ := h.fresh j hle
    have hne : j ≠ i := by
      rintro rfl
      rw [ha] at h₁
      cases h₁
    refine ⟨by rw [phase, if_neg hne]; exact h₁, ?_, ?_⟩
    · rw [← h₂]
      simp only [tokens, phase, if_neg hne, show (s.next (.activate i)).ticks = _ from frame.ticks,
        show (s.next (.activate i)).worker = _ from frame.worker]
      rfl
    · rw [show (s.next (.activate i)).activated = _ from frame.activated]
      exact List.not_mem_cons_of_ne_of_not_mem hne h₃
  · have one := h.one j
    simp only [tokens, phase, show (s.next (.activate i)).ticks = _ from frame.ticks,
      show (s.next (.activate i)).worker = _ from frame.worker] at one ⊢
    by_cases hj : j = i
    · subst hj
      rw [ha] at one
      rw [if_pos rfl]
      exact one
    · rw [if_neg hj]
      exact one
  · rw [phase]
    split
    · nofun
    · rename_i hne
      rw [show (s.next (.activate i)).activated = _ from frame.activated] at hm
      exact h.activated j ((List.mem_cons.mp hm).resolve_left hne)
  · rw [show (s.next (.activate i)).active = _ from frame.active] at hm
    rw [show (s.next (.activate i)).activated = _ from frame.activated]
    cases hm
    exact .head _

theorem chain_next (h : Chain s) {a : Action} (ha : s.Enabled a) : Chain (s.next a) := by
  cases a with
  | start own => exact chain_start h ha
  | activate i => exact chain_activate h ha
  | startUpgrade i =>
      have phase : s.startPhase i = some .upgrade := ha
      refine h.call rfl rfl rfl rfl rfl rfl (by rw [phase]; nofun) ?_ fun j => ?_
      · split <;> nofun
      · by_cases hj : j = i
        · subst hj
          rw [if_pos rfl, phase]
          split <;> simp [owesTick]
        · exact Nat.le_of_eq (by rw [if_neg hj])
  | startPost i ok =>
      have phase : s.startPhase i = some .post := ha
      obtain ⟨h₁, h₂, h₃, h₄, h₅, h₆, -⟩ := postTick_frame (s := s) i ok
      refine h.call h₁ h₂ h₃ h₄ h₅ h₆ (by rw [phase]; nofun) nofun fun j => ?_
      have count := count_postTick (s := s) (i := i) (j := j) ok
      by_cases hj : j = i
      · subst hj
        rw [if_pos rfl] at count ⊢
        rw [phase]
        simpa [owesTick] using count
      · rw [if_neg (Ne.symm hj)] at count
        rw [if_neg hj]
        omega
  | startReturns i =>
      have phase : s.startPhase i = some .finish := ha
      refine h.call rfl rfl rfl rfl rfl rfl (by rw [phase]; nofun) nofun fun j => ?_
      by_cases hj : j = i
      · subst hj
        rw [if_pos rfl, phase]
        exact Nat.le_refl _
      · exact Nat.le_of_eq (by rw [if_neg hj])
  | stop own =>
      cases own with
      | true =>
          obtain ⟨hw, hn⟩ := ha.2 rfl
          have same : (s.next (.stop true)).startPhase = s.startPhase := by
            funext j; simp only [startPhase, next, hn, if_pos]
          refine h.shrink (fun i p hip => by cases hip) (fun _ => hw) rfl (fun i hi => ?_)
            (fun i => ?_) rfl (fun i hi => ?_) (.inl rfl)
          · rw [same]; exact hi
          · simp only [tokens, same]; exact Nat.le_refl _
          · rw [same]; exact hi
      | false =>
          exact h.shrink h.apart h.nested_cb rfl (fun _ => id) (fun _ => Nat.le_refl _) rfl
            (fun _ => id) (.inl rfl)
  | stopReturns l =>
      exact h.shrink h.apart h.nested_cb rfl (fun _ => id) (fun _ => Nat.le_refl _) rfl
        (fun _ => id) (.inr rfl)
  | ownStopReturns l =>
      have nested : s.nested = .stop l := ha
      have same : (s.next (.ownStopReturns l)).startPhase = s.startPhase := by
        funext j; simp only [startPhase, next, nested]
      refine h.shrink (fun i p hip => by cases hip) (fun hx => absurd rfl hx) rfl (fun i hi => ?_)
        (fun i => ?_) rfl (fun i hi => ?_) (.inr rfl)
      · rw [same]; exact hi
      · simp only [tokens, same]; exact Nat.le_refl _
      · rw [same]; exact hi
  | dropTimer =>
      exact h.shrink h.apart h.nested_cb rfl (fun _ => id) (fun _ => Nat.le_refl _) rfl
        (fun _ => id) (.inl rfl)
  | fire i =>
      obtain ⟨hw, hm⟩ := ha
      refine h.work (h.nested_none (by rw [hw]; rfl)) rfl rfl rfl (fun j => ?_) rfl rfl
      simp only [next, hw, FirePhase.willPost, List.count_erase, beq_iff_eq, Option.some.injEq]
      have := List.count_pos_iff.mpr hm
      split
      · rename_i e
        subst e
        simp
        omega
      · simp
  | upgrade i =>
      have hw : s.worker = .fired i := ha
      refine h.work (h.nested_none (by rw [hw]; rfl)) rfl rfl rfl (fun j => ?_) rfl rfl
      simp only [next, hw]
      split <;> simp [FirePhase.willPost]
  | scheduleUpgrade i =>
      have hw : s.worker = .upgraded i := ha
      refine h.work (h.nested_none (by rw [hw]; rfl)) rfl rfl rfl (fun j => ?_) rfl rfl
      simp only [next, hw]
      split <;> simp [FirePhase.willPost]
  | post i ok =>
      have hw : s.worker = .posting i := ha
      obtain ⟨h₁, h₂, h₃, -, h₅, h₆, -⟩ := postTick_frame (s := s) i ok
      refine h.work (h.nested_none (by rw [hw]; rfl)) h₁ h₂ h₃ (fun j => ?_) h₅ h₆
      simpa [next, hw, FirePhase.willPost] using count_postTick (s := s) (i := i) (j := j) ok
  | dropInner i =>
      have hw : s.worker = .dropping i := ha
      refine h.work (h.nested_none (by rw [hw]; rfl)) rfl rfl rfl (fun j => ?_) rfl rfl
      simp [next, hw, FirePhase.willPost]
  | call i =>
      have hw : s.worker = .calling i := ha
      refine h.work (h.nested_none (by rw [hw]; rfl)) rfl rfl rfl (fun j => ?_) rfl rfl
      simp [next, hw, FirePhase.willPost, emit]
  | callbackReturns i =>
      refine h.work ha.2 rfl rfl rfl (fun j => ?_) rfl rfl
      simp [next, ha.1, FirePhase.willPost, emit]

end RepeatingTimer

theorem reachable_chain {C : RepeatingTimer → RepeatingTimer.Action → Prop} {s : RepeatingTimer}
    (h : repeatMachine.ReachableBy C s) : s.Chain := by
  refine h.invariant ?_ fun s a _ hi _ ha => RepeatingTimer.chain_next hi ha
  rintro s rfl
  exact RepeatingTimer.chain_new

namespace RepeatingTimer

variable {s s' : RepeatingTimer} {i j : InnerId} {a : Action}

/-! ### The callbacks -/

/-- The events of a step. -/
def events : Action → List TickEvent
  | .startPost i true | .post i true => [.posted i]
  | .call i => [.began i]
  | .callbackReturns i => [.ended i]
  | _ => []

theorem log_next (a : Action) : (s.next a).log = s.log ++ events a := by
  have nil : s.log = s.log ++ [] := (List.append_nil _).symm
  cases a with
  | start own => cases own <;> exact nil
  | activate i => exact (setStart_same i _).log.trans nil
  | startUpgrade i => exact (setStart_same i _).log.trans nil
  | startReturns i => exact (setStart_same i _).log.trans nil
  | startPost i ok =>
      refine (setStart_same i _).log.trans ?_
      cases ok
      · exact nil
      · rfl
  | post i ok =>
      cases ok
      · exact nil
      · rfl
  | stop own => cases own <;> exact nil
  | call i | callbackReturns i => rfl
  | _ => exact nil

/-- Of two callbacks the one that began first has ended before the other one begins. -/
def CallbacksApart (log : List TickEvent) : Prop :=
  ∀ (m n : ℕ) (i j : InnerId), m < n → log[m]? = some (.began i) → log[n]? = some (.began j) →
    ∃ k : ℕ, m < k ∧ k < n ∧ log[k]? = some (.ended i)

/-- A callback that has begun has ended, or is the one that runs. -/
def Accounted (s : RepeatingTimer) : Prop :=
  ∀ (m : ℕ) (i : InnerId), s.log[m]? = some (.began i) →
    (∃ k : ℕ, m < k ∧ s.log[k]? = some (.ended i)) ∨ s.worker = .inCallback i

/-- The worker leaves a callback by its return only. -/
theorem inCallback_next (ha : s.Enabled a) (hw : s.worker = .inCallback i)
    (hc : a ≠ .callbackReturns i) : (s.next a).worker = .inCallback i := by
  have stuck : ∀ {x : FirePhase}, s.worker = x → x.inCb = false →
      (s.next a).worker = .inCallback i :=
    fun hx hb => by rw [← hx, hw] at hb; cases hb
  cases a with
  | start own | stop own => cases own <;> exact hw
  | activate j => exact (setStart_same j _).worker.trans hw
  | startUpgrade j | startReturns j => exact (setStart_same j _).worker.trans hw
  | startPost j ok =>
      exact ((setStart_same j _).worker.trans (postTick_frame j ok).2.2.2.1).trans hw
  | stopReturns l | ownStopReturns l | dropTimer => exact hw
  | fire j => exact stuck ha.1 rfl
  | upgrade j | scheduleUpgrade j | post j ok | dropInner j | call j => exact stuck ha rfl
  | callbackReturns j =>
      have e := hw.symm.trans ha.1
      cases e
      exact absurd rfl hc

theorem accounted_next (h : Accounted s) (ha : s.Enabled a) : Accounted (s.next a) := by
  intro m i hm
  rw [log_next] at hm ⊢
  -- a callback that began before the step
  have old : s.log[m]? = some (.began i) →
      (∃ k : ℕ, m < k ∧ (s.log ++ events a)[k]? = some (.ended i)) ∨
        (s.next a).worker = .inCallback i := by
    intro hb
    rcases h m i hb with ⟨k, hk, he⟩ | hw
    · refine .inl ⟨k, hk, ?_⟩
      rw [List.getElem?_append_left (List.getElem?_eq_some_iff.mp he).1]
      exact he
    · by_cases hc : a = .callbackReturns i
      · subst hc
        refine .inl ⟨s.log.length, (List.getElem?_eq_some_iff.mp hb).1, ?_⟩
        rw [List.getElem?_append_right (Nat.le_refl _), Nat.sub_self]
        rfl
      · exact .inr (inCallback_next ha hw hc)
  by_cases hl : m < s.log.length
  · rw [List.getElem?_append_left hl] at hm
    exact old hm
  · -- the step is the call
    rw [List.getElem?_append_right (Nat.le_of_not_lt hl)] at hm
    have mem := List.mem_of_getElem? hm
    unfold events at mem
    split at mem <;> simp at mem
    subst mem
    exact .inr rfl

theorem callbacksApart_next (h : CallbacksApart s.log) (hd : Accounted s) (ha : s.Enabled a) :
    CallbacksApart (s.next a).log := by
  intro m n i j hmn hm hn
  rw [log_next] at hm hn ⊢
  have inside : ∀ {k : ℕ} {x}, s.log[k]? = some x → (s.log ++ events a)[k]? = some x :=
    fun hk => by rw [List.getElem?_append_left (List.getElem?_eq_some_iff.mp hk).1]; exact hk
  by_cases hl : n < s.log.length
  · rw [List.getElem?_append_left hl] at hn
    rw [List.getElem?_append_left (Nat.lt_trans hmn hl)] at hm
    obtain ⟨k, h₁, h₂, he⟩ := h m n i j hmn hm hn
    exact ⟨k, h₁, h₂, inside he⟩
  · -- the step is the call of `j`: no callback runs
    rw [List.getElem?_append_right (Nat.le_of_not_lt hl)] at hn
    have mem := List.mem_of_getElem? hn
    have lt := (List.getElem?_eq_some_iff.mp hn).1
    have call : a = .call j := by
      unfold events at mem
      split at mem <;> simp at mem
      subst mem
      rfl
    subst call
    have at_end : m < s.log.length := by
      have : (events (.call j)).length = 1 := rfl
      omega
    rw [List.getElem?_append_left at_end] at hm
    rcases hd m i hm with ⟨k, hk, he⟩ | hw
    · have := (List.getElem?_eq_some_iff.mp he).1
      exact ⟨k, hk, by omega, inside he⟩
    · rw [show s.worker = _ from ha] at hw
      cases hw

/-! ### A start that is over -/

/-- Nothing holds the `TimerInner`, and no firing is about to call its callback. -/
structure Over (s : RepeatingTimer) (i : InnerId) : Prop where
  made : i < s.nextInner
  inactive : s.active ≠ some i
  returned : s.startPhase i = none
  quiet : s.worker.willCall ≠ some i

theorem over_iff : s.Over i ↔ i < s.nextInner ∧ ¬ s.Alive i ∧ s.worker ≠ .calling i := by
  constructor
  · intro h
    refine ⟨h.made, ?_, fun hw => h.quiet (by rw [hw]; rfl)⟩
    rintro (hx | hx | hx)
    · exact h.inactive hx
    · rw [h.returned] at hx; cases hx
    · refine h.quiet ?_
      cases hw : s.worker with
      | upgraded k | posting k | dropping k => rw [hw] at hx; exact hx
      | _ => rw [hw] at hx; cases hx
  · rintro ⟨h₁, h₂, h₃⟩
    refine ⟨h₁, fun hx => h₂ (.inl hx), ?_, fun hx => ?_⟩
    · cases hp : s.startPhase i with
      | none => rfl
      | some p => exact absurd (.inr (.inl (by rw [hp]; rfl))) h₂
    · cases hw : s.worker with
      | upgraded k | posting k | dropping k =>
          rw [hw] at hx
          exact h₂ (.inr (.inr (by rw [hw]; exact hx)))
      | calling k => rw [hw] at hx; cases hx; exact h₃ hw
      | _ => rw [hw] at hx; cases hx

theorem startPhase_next (h : Chain s) (ha : s.Enabled a) (hi : i < s.nextInner)
    (hp : s.startPhase i = none) : (s.next a).startPhase i = none := by
  -- a step of another call
  have other : ∀ {x : RepeatingTimer} {j o p}, x.starts = s.starts → x.nested = s.nested →
      s.startPhase j = some p → (x.setStart j o).startPhase i = none := by
    intro x j o p hst hne hj
    have apart : x.NestedApart := fun k q hk => by rw [hst]; exact h.apart k q (hne ▸ hk)
    have hij : i ≠ j := fun e => by rw [← e, hp] at hj; cases hj
    rw [startPhase_setStart apart, if_neg hij]
    simpa only [startPhase, hst, hne] using hp
  cases a with
  | start own =>
      rw [startPhase_start h fun ho => (ha.2 ho).2, if_neg (Nat.ne_of_lt hi)]
      exact hp
  | activate j => exact other rfl rfl ha
  | startUpgrade j | startReturns j => exact other rfl rfl ha
  | startPost j ok =>
      obtain ⟨h₁, h₂, -⟩ := postTick_frame (s := s) j ok
      exact other h₁ h₂ ha
  | stop own =>
      cases own with
      | true =>
          have hn := (ha.2 rfl).2
          simpa [startPhase, next, hn] using hp
      | false => exact hp
  | ownStopReturns l =>
      have hn : s.nested = .stop l := ha
      simpa [startPhase, next, hn] using hp
  | post j ok =>
      obtain ⟨h₁, h₂, -⟩ := postTick_frame (s := s) j ok
      simpa [startPhase, next, h₁, h₂] using hp
  | stopReturns | dropTimer | fire | upgrade | scheduleUpgrade | dropInner | call
  | callbackReturns => exact hp

theorem nextInner_le (a : Action) : s.nextInner ≤ (s.next a).nextInner := by
  cases a with
  | start own => cases own <;> exact Nat.le_succ _
  | activate j =>
      have : (s.next (.activate j)).nextInner = s.nextInner := (setStart_same j _).nextInner
      exact Nat.le_of_eq this.symm
  | startUpgrade j | startReturns j => exact Nat.le_of_eq (setStart_same j _).nextInner.symm
  | startPost j ok =>
      have := (setStart_same (s := s.postTick j ok) j (some .finish)).nextInner
      exact Nat.le_of_eq (this.trans (postTick_frame j ok).2.2.1).symm
  | stop own => cases own <;> exact Nat.le_refl _
  | post j ok => exact Nat.le_of_eq (postTick_frame j ok).2.2.1.symm
  | _ => exact Nat.le_refl _

/-- `active` is set by `activate` only. -/
theorem active_next (hi : s.active ≠ some i) (hc : a ≠ .activate i) :
    (s.next a).active ≠ some i := by
  cases a with
  | start own => cases own <;> exact hi
  | activate j =>
      rw [show (s.next (.activate j)).active = _ from (setStart_same j _).active]
      intro e
      cases e
      exact hc rfl
  | startUpgrade j | startReturns j =>
      rw [next, (setStart_same j _).active]
      exact hi
  | startPost j ok =>
      rw [next, (setStart_same j _).active, (postTick_frame j ok).2.2.2.2.2.1]
      exact hi
  | stop own => cases own <;> nofun
  | post j ok =>
      rw [show (s.next (.post j ok)).active = _ from (postTick_frame j ok).2.2.2.2.2.1]
      exact hi
  | dropTimer => nofun
  | _ => exact hi

/-- A firing gets to its callback only by an upgrade that succeeds. -/
theorem willCall_next (ha : s.Enabled a) (hi : s.worker.willCall ≠ some i)
    (hu : a = .upgrade i → ¬ s.Alive i) : (s.next a).worker.willCall ≠ some i := by
  -- a firing of another `TimerInner`
  have other : ∀ {x : FirePhase} {j}, s.worker = x → x.willCall = some j → i ≠ j := by
    rintro x j hx hj rfl
    exact hi (by rw [hx]; exact hj)
  cases a with
  | start own => cases own <;> exact hi
  | activate j =>
      rw [show (s.next (.activate j)).worker = _ from (setStart_same j _).worker]
      exact hi
  | startUpgrade j | startReturns j =>
      rw [next, (setStart_same j _).worker]
      exact hi
  | startPost j ok =>
      rw [next, (setStart_same j _).worker, (postTick_frame j ok).2.2.2.1]
      exact hi
  | stop own => cases own <;> exact hi
  | stopReturns | ownStopReturns | dropTimer => exact hi
  | fire j => nofun
  | upgrade j =>
      simp only [next]
      split
      · rename_i hal
        intro e
        cases e
        exact hu rfl hal
      · nofun
  | scheduleUpgrade j =>
      have hne := other (show s.worker = _ from ha) rfl
      simp only [next]
      split <;> exact fun e => hne (Option.some.inj e).symm
  | post j ok =>
      have hne := other (show s.worker = _ from ha) rfl
      exact fun e => hne (Option.some.inj e).symm
  | dropInner j =>
      have hne := other (show s.worker = _ from ha) rfl
      exact fun e => hne (Option.some.inj e).symm
  | call j | callbackReturns j => nofun

theorem over_next (hc : Chain s) (h : s.Over i) (ha : s.Enabled a) : (s.next a).Over i where
  made := Nat.lt_of_lt_of_le h.made (nextInner_le a)
  inactive := by
    refine active_next h.inactive ?_
    rintro rfl
    have phase : s.startPhase i = some .activate := ha
    rw [h.returned] at phase
    cases phase
  returned := startPhase_next hc ha h.made h.returned
  quiet := willCall_next ha h.quiet fun _ => (over_iff.mp h).2.1

/-- A start that is over posts no tick and calls no callback. -/
theorem Over.events (h : s.Over i) (ha : s.Enabled a) :
    TickEvent.began i ∉ events a ∧ TickEvent.posted i ∉ events a := by
  have noStart : ∀ {p}, s.startPhase i ≠ some p := fun hp => by rw [h.returned] at hp; cases hp
  have noFiring : ∀ {x : FirePhase}, s.worker = x → x.willCall ≠ some i := fun hx => hx ▸ h.quiet
  unfold RepeatingTimer.events
  split
  · refine ⟨by simp, ?_⟩
    simp only [List.mem_singleton, TickEvent.posted.injEq]
    rintro rfl
    exact noStart ha
  · refine ⟨by simp, ?_⟩
    simp only [List.mem_singleton, TickEvent.posted.injEq]
    rintro rfl
    exact noFiring ha rfl
  · refine ⟨?_, by simp⟩
    simp only [List.mem_singleton, TickEvent.began.injEq]
    rintro rfl
    exact noFiring ha rfl
  · simp
  · simp

/-- Whatever happens next, the callback of `i` is not called and no tick of `i` is posted. -/
def Finished (s : RepeatingTimer) (i : InnerId) : Prop :=
  ∀ s', repeatMachine.Run (fun _ _ => True) s s' →
    s'.log.count (.began i) = s.log.count (.began i) ∧
    s'.log.count (.posted i) = s.log.count (.posted i)

theorem Over.finished (hc : Chain s) (h : s.Over i) : s.Finished i := by
  intro s' hr
  have inv : s'.Chain ∧ s'.Over i ∧ s'.log.count (.began i) = s.log.count (.began i) ∧
      s'.log.count (.posted i) = s.log.count (.posted i) := by
    refine hr.keeps (I := fun x => x.Chain ∧ x.Over i ∧
      x.log.count (.began i) = s.log.count (.began i) ∧
      x.log.count (.posted i) = s.log.count (.posted i)) (fun x a hi ha => ?_) ⟨hc, h, rfl, rfl⟩
    obtain ⟨h₁, h₂, h₃, h₄⟩ := hi
    obtain ⟨h₅, h₆⟩ := h₂.events ha
    refine ⟨chain_next h₁ ha, over_next h₁ h₂ ha, ?_, ?_⟩
    · rw [show (repeatMachine.next x a).log = _ from log_next a, List.count_append,
        List.count_eq_zero.mpr h₅]
      exact h₃
    · rw [show (repeatMachine.next x a).log = _ from log_next a, List.count_append,
        List.count_eq_zero.mpr h₆]
      exact h₄
  exact inv.2.2

end RepeatingTimer

theorem reachable_callbacksApart {s : RepeatingTimer} (h : repeatMachine.Reachable s) :
    s.Accounted ∧ RepeatingTimer.CallbacksApart s.log := by
  refine h.invariant (I := fun s => s.Accounted ∧ RepeatingTimer.CallbacksApart s.log) ?_
    fun s a _ hi _ ha => ?_
  · rintro s rfl
    exact ⟨nofun, nofun⟩
  · exact ⟨RepeatingTimer.accounted_next hi.1 ha,
      RepeatingTimer.callbacksApart_next hi.2 hi.1 ha⟩

/-- **The chain of a repeating timer.**  In every reachable state a start has at most one tick
outstanding, the callbacks do not overlap, and a start that neither `active` nor a call of `start`
nor a firing holds and whose callback no firing is about to call calls it no more and posts no
further tick. -/
theorem timer_chain {s : RepeatingTimer} (h : repeatMachine.Reachable s) :
    (∀ i, s.ticks.count i ≤ 1) ∧ RepeatingTimer.CallbacksApart s.log ∧
    ∀ i, i < s.nextInner → ¬ s.Alive i → s.worker ≠ .calling i → s.Finished i := by
  have hc := reachable_chain h
  refine ⟨fun i => ?_, (reachable_callbacksApart h).2, fun i h₁ h₂ h₃ => ?_⟩
  · have := hc.one i
    unfold RepeatingTimer.tokens at this
    omega
  · exact (RepeatingTimer.over_iff.mpr ⟨h₁, h₂, h₃⟩).finished hc

/-- `start` from another thread, up to its return. -/
def begunRun (i : InnerId) : List RepeatingTimer.Action :=
  [.start false, .activate i, .startUpgrade i, .startPost i true, .startReturns i]

/-- A firing up to the moment before its callback. -/
def firedRun (i : InnerId) : List RepeatingTimer.Action :=
  [.fire i, .upgrade i, .scheduleUpgrade i, .post i true, .dropInner i]

/-- The callback is called, calls `stop`, and the next tick is a no-op. -/
theorem stoppedTimer_finished :
    let s := repeatMachine.runList .new (begunRun 0 ++ firedRun 0 ++
      [.call 0, .stop true, .ownStopReturns [0], .callbackReturns 0])
    s.ticks = [0] ∧ s.Finished 0 := by
  have follows : repeatMachine.Follows (fun _ _ => True) .new (begunRun 0 ++ firedRun 0 ++
      [.call 0, .stop true, .ownStopReturns [0], .callbackReturns 0]) := by decide +kernel
  obtain ⟨-, -, finished⟩ := timer_chain (.of_follows rfl follows)
  exact ⟨by decide +kernel, finished 0 (by decide +kernel) (by decide +kernel) (by decide +kernel)⟩

/-- The firing has let its `TimerInner` go and `stop` has cleared `active`: nothing holds the
`TimerInner`, and the callback is called. -/
theorem detachedRun_calls :
    let s := repeatMachine.runList .new
      (begunRun 0 ++ firedRun 0 ++ [.stop false, .stopReturns [0]])
    let s' := repeatMachine.next s (.call 0)
    repeatMachine.Reachable s ∧ ¬ s.Alive 0 ∧ s.starts 0 = none ∧ s.active = none ∧
      repeatMachine.Enabled s (.call 0) ∧ s.log.count (.began 0) = 0 ∧
      s'.log.count (.began 0) = 1 ∧ ¬ s.Finished 0 := by
  have enabled : repeatMachine.Enabled (repeatMachine.runList .new
      (begunRun 0 ++ firedRun 0 ++ [.stop false, .stopReturns [0]])) (.call 0) := by decide +kernel
  refine ⟨.of_follows rfl (by decide +kernel), by decide +kernel, by decide +kernel,
    by decide +kernel, enabled, by decide +kernel, by decide +kernel, fun h => ?_⟩
  have := (h _ (.more .refl trivial enabled)).1
  revert this
  decide +kernel

end RustTask
