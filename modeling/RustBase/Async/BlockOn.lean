import RustBase.Support.Machine

/-!
# Async — `block_on`

One thread, and the calls of `block_on` on it: a call that the future of another one makes is
nested, and runs inside the poll of the outer one.  Each call has a `ThreadWaker` of its own, with
the flag `awoken`; the park token is the thread's, and all of them share it.

* `wake` is two steps, the store of `awoken` and `unpark`.  Any number of threads make them, at any
  time, also after the call has returned.
* The code inside a poll may park and unpark the thread on its own account, and so may what runs
  before and after `block_on`; anyone may unpark the thread.
* `park` returns when it has the token, which it takes, or for no reason, and leaves the token then.

**`park_answers`**: a thread that is blocked in the park of a call, without the token and with no
wake of that call under way, has polled the future since the last wake.
-/

namespace RustAsync
open Support

/-- Where a call of `block_on` is. -/
inductive BlockPhase where
  /-- at the head of the loop: the poll is next -/
  | poll
  | polling
  /-- `awoken.swap(false)` is next -/
  | swap
  /-- in `thread::park` -/
  | parked
  deriving DecidableEq

structure BlockOn where
  /-- the `ThreadWaker` -/
  waker : ℕ
  phase : BlockPhase
  deriving DecidableEq

/-- What is recorded of the run. -/
inductive WakeEvent where
  /-- a wake stores `awoken` -/
  | wake (i : ℕ)
  /-- a poll begins -/
  | poll (i : ℕ)
  deriving DecidableEq

structure BlockingThread where
  /-- the park token -/
  token : Bool
  /-- the calls of `block_on`, the innermost first -/
  calls : List BlockOn
  awoken : ℕ → Bool
  /-- how many wakes are between their store and their unpark -/
  waking : ℕ → ℕ
  nextWaker : ℕ
  /-- the last event first -/
  log : List WakeEvent

inductive BlockAct where
  | blockOn
  | poll
  /-- the poll returns `Poll::Pending` -/
  | pending
  /-- the poll returns `Poll::Ready`, and so does `block_on` -/
  | ready
  | swap
  /-- `park` takes the token and returns -/
  | unparked
  | spurious
  /-- a `park` of other code on the thread takes the token and returns -/
  | otherPark
  /-- an `unpark` that is not a wake's -/
  | otherUnpark
  /-- a wake stores `awoken` -/
  | store (i : ℕ)
  /-- a wake unparks the thread -/
  | unpark (i : ℕ)
  deriving DecidableEq

namespace BlockingThread

def init : BlockingThread where
  token := false
  calls := []
  awoken _ := false
  waking _ := 0
  nextWaker := 0
  log := []

/-- The phase of the innermost call. -/
def top (s : BlockingThread) : Option BlockPhase := s.calls.head?.map BlockOn.phase

/-- The thread runs code of its own: inside a poll, or outside of all calls. -/
def Runs (s : BlockingThread) : Prop := s.top = none ∨ s.top = some .polling

instance (s : BlockingThread) : Decidable s.Runs := inferInstanceAs (Decidable (_ ∨ _))

def Enabled (s : BlockingThread) : BlockAct → Prop
  | .blockOn => s.Runs
  | .poll => s.top = some .poll
  | .pending | .ready => s.top = some .polling
  | .swap => s.top = some .swap
  | .unparked => s.top = some .parked ∧ s.token = true
  | .spurious => s.top = some .parked
  | .otherPark => s.Runs ∧ s.token = true
  | .otherUnpark => True
  | .store i => i < s.nextWaker
  | .unpark i => 0 < s.waking i

/-- The innermost call goes on to `p`. -/
def goto (s : BlockingThread) (p : BlockPhase) : BlockingThread :=
  match s.calls with
  | [] => s
  | c :: r => { s with calls := { c with phase := p } :: r }

/-- The poll of the innermost call begins. -/
def poll (s : BlockingThread) : BlockingThread :=
  match s.calls with
  | [] => s
  | c :: r => { s with calls := { c with phase := .polling } :: r, log := .poll c.waker :: s.log }

/-- `while !tw.awoken.swap(false)`. -/
def swap (s : BlockingThread) : BlockingThread :=
  match s.calls with
  | [] => s
  | c :: r =>
      { s with
        awoken := Function.update s.awoken c.waker false
        calls := { c with phase := if s.awoken c.waker then .poll else .parked } :: r }

def next (s : BlockingThread) : BlockAct → BlockingThread
  | .blockOn => { s with calls := ⟨s.nextWaker, .poll⟩ :: s.calls, nextWaker := s.nextWaker + 1 }
  | .poll => s.poll
  | .pending => s.goto .swap
  | .ready => { s with calls := s.calls.tail }
  | .swap => s.swap
  | .unparked => { s with token := false }.goto .swap
  | .spurious => s.goto .swap
  | .otherPark => { s with token := false }
  | .otherUnpark => { s with token := true }
  | .store i =>
      { s with
        awoken := Function.update s.awoken i true
        waking := Function.update s.waking i (s.waking i + 1)
        log := .wake i :: s.log }
  | .unpark i =>
      { s with token := true, waking := Function.update s.waking i (s.waking i - 1) }

instance (s : BlockingThread) : ∀ a, Decidable (s.Enabled a)
  | .blockOn => inferInstanceAs (Decidable s.Runs)
  | .poll | .pending | .ready | .swap | .spurious => inferInstanceAs (Decidable (_ = _))
  | .unparked => inferInstanceAs (Decidable (_ ∧ _))
  | .otherPark => inferInstanceAs (Decidable (s.Runs ∧ _))
  | .otherUnpark => inferInstanceAs (Decidable True)
  | .store _ | .unpark _ => inferInstanceAs (Decidable (_ < _))

end BlockingThread

def blockMachine : Machine BlockingThread BlockAct where
  Init s := s = .init
  Enabled := BlockingThread.Enabled
  next := BlockingThread.next

instance : ∀ s a, Decidable (blockMachine.Enabled s a) :=
  fun s a => inferInstanceAs (Decidable (s.Enabled a))

/-! ### Wakes and polls -/

/-- Each wake of `i` was followed by the begin of a poll of `i`. -/
def Answered (l : List WakeEvent) (i : ℕ) : Prop :=
  ∀ l₁ l₂, l = l₁ ++ .wake i :: l₂ → .poll i ∈ l₁

namespace Answered

variable {l : List WakeEvent} {i : ℕ} {e : WakeEvent}

theorem cons (h : Answered l i) (he : e ≠ .wake i) : Answered (e :: l) i := by
  intro l₁ l₂ hl
  cases l₁ with
  | nil => exact absurd (List.cons.inj hl).1 he
  | cons x l₁ => exact List.mem_cons_of_mem _ (h l₁ l₂ (List.cons.inj hl).2)

theorem poll : Answered (.poll i :: l) i := by
  intro l₁ l₂ hl
  cases l₁ with
  | nil => cases (List.cons.inj hl).1
  | cons x l₁ => exact (List.cons.inj hl).1 ▸ List.mem_cons_self

end Answered

namespace BlockingThread

variable {s s' : BlockingThread} {a : BlockAct} {i : ℕ} {p : BlockPhase} {r : List BlockOn}

theorem calls_of_top (h : s.top = some p) : ∃ i r, s.calls = ⟨i, p⟩ :: r := by
  obtain ⟨⟨i, q⟩, hc, rfl⟩ := Option.map_eq_some_iff.mp h
  obtain ⟨r, hr⟩ := List.head?_eq_some_iff.mp hc
  exact ⟨i, r, hr⟩

theorem goto_of_calls {q : BlockPhase} (h : s.calls = ⟨i, p⟩ :: r) :
    s.goto q = { s with calls := ⟨i, q⟩ :: r } := by
  unfold goto
  rw [h]

theorem poll_of_calls (h : s.calls = ⟨i, p⟩ :: r) :
    s.poll = { s with calls := ⟨i, .polling⟩ :: r, log := .poll i :: s.log } := by
  unfold poll
  rw [h]

theorem swap_of_calls (h : s.calls = ⟨i, p⟩ :: r) :
    s.swap = { s with
      awoken := Function.update s.awoken i false
      calls := ⟨i, if s.awoken i then .poll else .parked⟩ :: r } := by
  unfold swap
  rw [h]

/-- The calls that are not the innermost one are inside their polls.  A wake that was not answered
has left the flag set, or the poll is next; and while a call is in `park`, a flag that is set comes
with the token, or with an unpark under way. -/
structure Inv (s : BlockingThread) : Prop where
  made : ∀ c ∈ s.calls, c.waker < s.nextWaker
  apart : (s.calls.map BlockOn.waker).Nodup
  outer : ∀ c ∈ s.calls.tail, c.phase = .polling
  owed : ∀ c ∈ s.calls, c.phase = .poll ∨ s.awoken c.waker = true ∨ Answered s.log c.waker
  parked : ∀ c ∈ s.calls, c.phase = .parked → s.awoken c.waker = true →
    s.token = true ∨ 0 < s.waking c.waker

theorem Inv.init : Inv .init where
  made := nofun
  apart := .nil
  outer := nofun
  owed := nofun
  parked := nofun

/-- The innermost call moves, and the step touches no flag and no wake of another one. -/
theorem Inv.moves {q : BlockPhase} (h : s.Inv) (hc : s.calls = ⟨i, p⟩ :: r)
    (hc' : s'.calls = ⟨i, q⟩ :: r) (hn : s'.nextWaker = s.nextWaker)
    (owed : q = .poll ∨ s'.awoken i = true ∨ Answered s'.log i)
    (parked : q = .parked → s'.awoken i = true → s'.token = true ∨ 0 < s'.waking i)
    (flags : ∀ j, j ≠ i → s'.awoken j = s.awoken j)
    (answered : ∀ j, j ≠ i → Answered s.log j → Answered s'.log j) : s'.Inv := by
  have made := h.made
  have apart := h.apart
  have outer := h.outer
  have owed' := h.owed
  rw [hc] at made apart outer owed'
  have other : ∀ c ∈ r, c.waker ≠ i := fun c hm e =>
    (List.nodup_cons.mp apart).1 (List.mem_map.mpr ⟨c, hm, e⟩)
  refine ⟨?_, ?_, ?_, ?_, ?_⟩
  · rw [hc', hn]
    rintro c (_ | ⟨_, hm⟩)
    · exact made ⟨i, p⟩ List.mem_cons_self
    · exact made c (List.mem_cons_of_mem _ hm)
  · rw [hc']
    exact apart
  · rw [hc']
    exact outer
  · rw [hc']
    rintro c (_ | ⟨_, hm⟩)
    · exact owed
    · rcases owed' c (List.mem_cons_of_mem _ hm) with ho | ho | ho
      · exact .inl ho
      · exact .inr (.inl ((flags _ (other c hm)).trans ho))
      · exact .inr (.inr (answered _ (other c hm) ho))
  · rw [hc']
    rintro c (_ | ⟨_, hm⟩) hp
    · exact parked hp
    · rw [outer c hm] at hp
      cases hp

theorem Inv.owed_top (h : s.Inv) (hc : s.calls = ⟨i, p⟩ :: r) (hp : p ≠ .poll) :
    s.awoken i = true ∨ Answered s.log i := by
  have := h.owed ⟨i, p⟩ (hc ▸ List.mem_cons_self)
  exact this.resolve_left hp

theorem Inv.poll (h : s.Inv) (hc : s.calls = ⟨i, .poll⟩ :: r) : s.poll.Inv := by
  rw [poll_of_calls hc]
  exact h.moves hc rfl rfl (.inr (.inr .poll)) nofun (fun _ _ => rfl)
    fun _ _ ha => ha.cons nofun

theorem Inv.goto_swap (h : s.Inv) (hc : s.calls = ⟨i, p⟩ :: r) (hp : p ≠ .poll) {b : Bool} :
    ({ s with token := b }.goto .swap).Inv := by
  rw [goto_of_calls (s := { s with token := b }) hc]
  exact h.moves hc rfl rfl (.inr (h.owed_top hc hp)) nofun (fun _ _ => rfl) fun _ _ ha => ha

theorem Inv.swap (h : s.Inv) (hc : s.calls = ⟨i, .swap⟩ :: r) : s.swap.Inv := by
  rw [swap_of_calls hc]
  refine h.moves hc rfl rfl ?_ ?_ ?_ fun _ _ ha => ha
  · -- a flag that was set sends the loop to the poll, and one that was not owes nothing
    rcases h.owed_top hc nofun with ha | ha
    · exact .inl (if_pos ha)
    · exact .inr (.inr ha)
  · intro _ hs
    simp at hs
  · exact fun j hj => Function.update_of_ne hj ..

/-- While the thread runs code of its own, every call is inside its poll. -/
theorem Inv.polling_of_runs (h : s.Inv) (hr : s.Runs) : ∀ c ∈ s.calls, c.phase = .polling := by
  intro c hm
  rcases hr with ht | ht
  · have none : s.calls = [] := List.head?_eq_none_iff.mp (Option.map_eq_none_iff.mp ht)
    rw [none] at hm
    cases hm
  · obtain ⟨i, r, hs⟩ := calls_of_top ht
    have outer := h.outer
    rw [hs] at hm outer
    rcases List.mem_cons.mp hm with rfl | hm
    · rfl
    · exact outer c hm

theorem Inv.blockOn (h : s.Inv) (hr : s.Runs) : (s.next .blockOn).Inv := by
  refine ⟨?_, ?_, ?_, ?_, ?_⟩
  · rintro c (_ | ⟨_, hm⟩)
    · exact Nat.lt_succ_self _
    · exact Nat.lt_succ_of_lt (h.made c hm)
  · refine List.nodup_cons.mpr ⟨fun hm => ?_, h.apart⟩
    obtain ⟨c, hc, e⟩ := List.mem_map.mp hm
    exact Nat.ne_of_lt (h.made c hc) e
  · exact h.polling_of_runs hr
  · rintro c (_ | ⟨_, hm⟩)
    · exact .inl rfl
    · exact h.owed c hm
  · rintro c (_ | ⟨_, hm⟩) hp
    · cases hp
    · exact h.parked c hm hp

theorem Inv.ready (h : s.Inv) : (s.next .ready).Inv where
  made c hm := h.made c (List.mem_of_mem_tail hm)
  apart := by
    have := h.apart.tail
    rwa [← List.map_tail] at this
  outer c hm := h.outer c (List.mem_of_mem_tail hm)
  owed c hm := h.owed c (List.mem_of_mem_tail hm)
  parked c hm := h.parked c (List.mem_of_mem_tail hm)

/-- Code on the thread takes the token: no call is in `park` then. -/
theorem Inv.otherPark (h : s.Inv) (hr : s.Runs) : (s.next .otherPark).Inv where
  made := h.made
  apart := h.apart
  outer := h.outer
  owed := h.owed
  parked c hm hp := by
    rw [h.polling_of_runs hr c hm] at hp
    cases hp

theorem Inv.store (h : s.Inv) (i : ℕ) : (s.next (.store i)).Inv where
  made := h.made
  apart := h.apart
  outer := h.outer
  owed c hm := by
    by_cases hc : c.waker = i
    · exact .inr (.inl (by simp [next, hc]))
    · rcases h.owed c hm with ho | ho | ho
      · exact .inl ho
      · exact .inr (.inl ((Function.update_of_ne hc ..).trans ho))
      · exact .inr (.inr (ho.cons fun e => hc (WakeEvent.wake.inj e).symm))
  parked c hm hp := by
    by_cases hc : c.waker = i
    · exact fun _ => .inr (by simp [next, hc])
    · have := h.parked c hm hp
      simpa [next, hc] using this

theorem next_inv (h : s.Inv) (ha : s.Enabled a) : (s.next a).Inv := by
  cases a with
  | blockOn => exact h.blockOn ha
  | poll =>
      obtain ⟨i, r, hc⟩ := calls_of_top ha
      exact h.poll hc
  | pending =>
      obtain ⟨i, r, hc⟩ := calls_of_top ha
      exact h.goto_swap hc nofun
  | ready => exact h.ready
  | swap =>
      obtain ⟨i, r, hc⟩ := calls_of_top ha
      exact h.swap hc
  | unparked =>
      obtain ⟨i, r, hc⟩ := calls_of_top ha.1
      exact h.goto_swap hc nofun
  | spurious =>
      obtain ⟨i, r, hc⟩ := calls_of_top ha
      exact h.goto_swap hc nofun
  | otherPark => exact h.otherPark ha.1
  | otherUnpark => exact { h with parked := fun _ _ _ _ => .inl rfl }
  | store i => exact h.store i
  | unpark i => exact { h with parked := fun _ _ _ _ => .inl rfl }

end BlockingThread

theorem block_inv {s : BlockingThread} (h : blockMachine.Reachable s) : s.Inv := by
  refine h.invariant (I := BlockingThread.Inv) ?_ fun _ _ _ hi _ ha => BlockingThread.next_inv hi ha
  rintro s rfl
  exact .init

/-- **`block_on` loses no wake.**  When the thread is blocked in the park of a call, without the
token, and no wake of that call is between its store and its unpark, the flag is not set and every
wake was followed by the begin of a poll. -/
theorem park_answers {s : BlockingThread} (h : blockMachine.Reachable s) {i : ℕ}
    (hp : s.calls.head? = some ⟨i, .parked⟩) (ht : s.token = false) (hw : s.waking i = 0) :
    s.awoken i = false ∧ Answered s.log i := by
  have inv := block_inv h
  have hm : (⟨i, .parked⟩ : BlockOn) ∈ s.calls := List.mem_of_mem_head? hp
  have flag : s.awoken i = false := by
    by_contra hs
    rw [Bool.not_eq_false] at hs
    rcases inv.parked _ hm rfl hs with hk | hk
    · rw [ht] at hk
      cases hk
    · exact Nat.ne_of_gt hk hw
  rcases inv.owed _ hm with ho | ho | ho
  · cases ho
  · rw [flag] at ho
    cases ho
  · exact ⟨flag, ho⟩

/-- A nested call takes the token that the wake of the outer one has left; the outer one polls
again all the same. -/
def nestedBlockRun : List BlockAct :=
  [.blockOn, .poll, .blockOn, .poll, .pending, .swap, .store 0, .unpark 0, .unparked, .swap,
    .store 1, .unpark 1, .spurious, .swap, .poll, .ready, .pending, .swap, .poll, .pending, .swap,
    .unparked, .swap]

theorem nestedBlockRun_answered :
    let s := blockMachine.runList .init nestedBlockRun
    s.calls = [⟨0, .parked⟩] ∧ .wake 0 ∈ s.log ∧ s.awoken 0 = false ∧ Answered s.log 0 := by
  have follows : blockMachine.Follows (fun _ _ => True) .init nestedBlockRun := by
    decide +kernel
  have answers := park_answers (.of_follows rfl follows) (i := 0) (by decide +kernel)
    (by decide +kernel) (by decide +kernel)
  exact ⟨by decide +kernel, by decide +kernel, answers⟩

end RustAsync
