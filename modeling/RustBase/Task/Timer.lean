import RustBase.Support.Before
import RustBase.Task.Pool

/-!
# Task — the delayed task manager

`DelayedTaskManager` with its timer thread, under calls of `add_sequence` and of `shutdown` by any
threads.  A critical section is a step and so is each notification, which comes after the lock is
released; the timer thread may wake up at any time, for the timeout or without a reason.  The clock
does not go back, the numbers of `NEXT_ENTRY_ID` may also be taken by other managers, and the thread
group is alive, so every entry popped is pushed to it.

`added` are the entries in the order they were inserted, and `pushed` those that
`push_task_source` was called for, with the time.

* `Inv.blocked` is the reason why no wake-up is lost: while the timer thread is blocked, what it
  waits for is still right, or a thread that made it wrong has its notification to send.
* **`timer_law`**: entries are pushed at most once, never early, and in the order of their ready
  times; a blocked timer thread waits for the right thing or is about to be notified; and it leaves
  its loop only after the shutdown, from which on it does not block.
-/

namespace RustTask
open Support

/-- The thread in `timer_loop`. -/
inductive TimerLoop where
  | top
  | waiting
  /-- in `wait_timeout`, with the timeout and the clock reading it was computed from -/
  | timedWaiting (timeout : ℕ) (now : Instant)
  /-- the entry is popped and the lock released; `push_task_source` is next -/
  | pushSource (e : DelayedEntry)
  | exited
  deriving DecidableEq

def TimerLoop.inWait : TimerLoop → Bool
  | .waiting | .timedWaiting _ _ => true
  | .top | .pushSource _ | .exited => false

/-- The entry the timer thread has popped and not pushed. -/
def TimerLoop.inHand : TimerLoop → List DelayedEntry
  | .pushSource e => [e]
  | .top | .waiting | .timedWaiting _ _ | .exited => []

/-- A thread in `DelayedTaskManager::shutdown`. -/
inductive ShutdownCall where
  | idle
  | notifying
  | takeHandle
  | joining (handle : Bool)
  deriving DecidableEq

structure TimerRun where
  manager : DelayedTaskManager
  clock : Instant
  /-- `NEXT_ENTRY_ID` -/
  nextEntryId : ℕ
  timer : TimerLoop
  /-- the threads that have inserted an entry and not notified -/
  adding : Tid → Bool
  closing : Tid → ShutdownCall
  added : List DelayedEntry
  pushed : List (DelayedEntry × Instant)

inductive TimerStep where
  /-- the critical section of `add_sequence` -/
  | add (t : Tid) (readyTime : Instant) (q : SeqId)
  | addNotify (t : Tid)
  | shutdown (t : Tid)
  | shutdownNotify (t : Tid)
  | shutdownTake (t : Tid)
  | shutdownJoin (t : Tid) (handle : Bool)
  | exit
  | wait
  | pop (e : DelayedEntry)
  | waitTimeout (e : DelayedEntry)
  /-- the timeout, or a spurious wake-up -/
  | wakeUp
  | resume
  | pushSource (e : DelayedEntry)
  /-- another manager takes a number -/
  | otherEntry
  | tick (d : ℕ)
  deriving DecidableEq

namespace TimerRun

def new : TimerRun where
  manager := ⟨.empty, true, .new, false⟩
  clock := 0
  nextEntryId := 0
  timer := .top
  adding _ := false
  closing _ := .idle
  added := []
  pushed := []

def Enabled (s : TimerRun) : TimerStep → Prop
  | .add t _ _ => s.adding t = false
  | .addNotify t => s.adding t = true
  | .shutdown t => s.closing t = .idle
  | .shutdownNotify t => s.closing t = .notifying
  | .shutdownTake t => s.closing t = .takeHandle
  | .shutdownJoin t h => s.closing t = .joining h ∧ (h = true → s.timer = .exited)
  | .exit => s.timer = .top ∧ s.manager.shutdown = true
  | .wait => s.timer = .top ∧ s.manager.shutdown = false ∧ s.manager.heap.peek = none
  | .pop e =>
      s.timer = .top ∧ s.manager.shutdown = false ∧ s.manager.heap.peek = some e ∧
        e.readyTime ≤ s.clock
  | .waitTimeout e =>
      s.timer = .top ∧ s.manager.shutdown = false ∧ s.manager.heap.peek = some e ∧
        s.clock < e.readyTime
  | .wakeUp => () ∈ s.manager.condvar.waiters
  | .resume => s.timer.inWait = true ∧ () ∉ s.manager.condvar.waiters
  | .pushSource e => s.timer = .pushSource e
  | .otherEntry | .tick _ => True

def setHeap (s : TimerRun) (h : MinHeap DelayedEntry DelayedEntry.Le) : TimerRun :=
  { s with manager := { s.manager with heap := h } }

def setCondvar (s : TimerRun) (c : Condvar Unit) : TimerRun :=
  { s with manager := { s.manager with condvar := c } }

def next (s : TimerRun) : TimerStep → TimerRun
  | .add t r q =>
      { s.setHeap (s.manager.heap.push ⟨r, s.nextEntryId, q⟩) with
        nextEntryId := s.nextEntryId + 1
        adding := Function.update s.adding t true
        added := s.added ++ [⟨r, s.nextEntryId, q⟩] }
  | .addNotify t =>
      { s.setCondvar s.manager.condvar.notifyAll with adding := Function.update s.adding t false }
  | .shutdown t =>
      { s with
        manager := { s.manager with shutdown := true }
        closing := Function.update s.closing t .notifying }
  | .shutdownNotify t =>
      { s.setCondvar s.manager.condvar.notifyAll with
        closing := Function.update s.closing t .takeHandle }
  | .shutdownTake t =>
      { s with
        manager := { s.manager with handle := false }
        closing := Function.update s.closing t (.joining s.manager.handle) }
  | .shutdownJoin t _ => { s with closing := Function.update s.closing t .idle }
  | .exit => { s with timer := .exited }
  | .wait => { s.setCondvar (s.manager.condvar.wait ()) with timer := .waiting }
  | .pop e => { s.setHeap s.manager.heap.pop with timer := .pushSource e }
  | .waitTimeout e =>
      { s.setCondvar (s.manager.condvar.wait ()) with
        timer := .timedWaiting (e.readyTime - s.clock) s.clock }
  | .wakeUp => s.setCondvar (s.manager.condvar.wake ())
  | .resume => { s with timer := .top }
  | .pushSource e => { s with timer := .top, pushed := s.pushed ++ [(e, s.clock)] }
  | .otherEntry => { s with nextEntryId := s.nextEntryId + 1 }
  | .tick d => { s with clock := s.clock + d }

end TimerRun

def timerMachine : Machine TimerRun TimerStep where
  Init s := s = .new
  Enabled s := s.Enabled
  next s := s.next

instance (s : TimerRun) : ∀ a, Decidable (timerMachine.Enabled s a)
  | .add _ _ _ | .addNotify _ | .shutdown _ | .shutdownNotify _ | .shutdownTake _
  | .pushSource _ => inferInstanceAs (Decidable (_ = _))
  | .shutdownJoin _ _ => inferInstanceAs (Decidable (_ ∧ (_ → _)))
  | .exit | .resume => inferInstanceAs (Decidable (_ ∧ _))
  | .wait => inferInstanceAs (Decidable (_ ∧ _ ∧ _))
  | .pop _ | .waitTimeout _ => inferInstanceAs (Decidable (_ ∧ _ ∧ _ ∧ _))
  | .wakeUp => inferInstanceAs (Decidable (_ ∈ _))
  | .otherEntry | .tick _ => inferInstanceAs (Decidable True)

namespace TimerRun

variable {s s' : TimerRun} {e e₁ e₂ : DelayedEntry}

/-- The timer thread is blocked. -/
def Blocked (s : TimerRun) : Prop := () ∈ s.manager.condvar.waiters

/-- The entries in the order in which they are, or are going to be, pushed. -/
def flow (s : TimerRun) : List DelayedEntry := s.pushed.map (·.1) ++ s.timer.inHand

/-- What the timer thread waits for is what the heap says. -/
def Watching (s : TimerRun) : Prop :=
  match s.timer with
  | .waiting => s.manager.heap.elems = []
  | .timedWaiting timeout now => ∀ e ∈ s.manager.heap, timeout ≤ e.readyTime - now
  | .top | .pushSource _ | .exited => False

/-- A call of `add_sequence` or of `shutdown` is about to notify. -/
def Notifying (s : TimerRun) : Prop :=
  (∃ t, s.adding t = true) ∨ ∃ t, s.closing t = .notifying

/-! ### What a step does to the entries -/

theorem inHand_of_inWait {x : TimerLoop} (h : x.inWait = true) : x.inHand = [] := by
  cases x with
  | waiting | timedWaiting _ _ => rfl
  | top | pushSource _ | exited => cases h

/-- A step pops the least entry, or inserts a new one, or leaves the entries where they are. -/
theorem entries_cases {a : TimerStep} (ha : s.Enabled a) :
    (∃ e, s.manager.heap.peek = some e ∧ e.readyTime ≤ s.clock ∧ (s.next a).flow = s.flow ++ [e] ∧
      (s.next a).manager.heap = s.manager.heap.pop ∧ (s.next a).added = s.added) ∨
    (∃ r q, (s.next a).flow = s.flow ∧
      (s.next a).manager.heap = s.manager.heap.push ⟨r, s.nextEntryId, q⟩ ∧
      (s.next a).added = s.added ++ [⟨r, s.nextEntryId, q⟩] ∧
      (s.next a).nextEntryId = s.nextEntryId + 1) ∨
    (s.next a).flow = s.flow ∧ (s.next a).manager.heap = s.manager.heap ∧
      (s.next a).added = s.added := by
  cases a with
  | add t r q => exact .inr (.inl ⟨r, q, rfl, rfl, rfl, rfl⟩)
  | pop e =>
      obtain ⟨ht, -, hp, hc⟩ := ha
      exact .inl ⟨e, hp, hc, by simp [flow, next, setHeap, ht, TimerLoop.inHand], rfl, rfl⟩
  | exit | wait | waitTimeout e =>
      refine .inr (.inr ⟨?_, rfl, rfl⟩)
      simp [flow, next, setCondvar, ha.1, TimerLoop.inHand]
  | resume =>
      refine .inr (.inr ⟨?_, rfl, rfl⟩)
      change s.pushed.map (·.1) ++ [] = s.pushed.map (·.1) ++ s.timer.inHand
      rw [inHand_of_inWait ha.1]
  | pushSource e =>
      refine .inr (.inr ⟨?_, rfl, rfl⟩)
      simp [flow, next, show s.timer = .pushSource e from ha, TimerLoop.inHand]
  | otherEntry => exact .inr (.inr ⟨rfl, rfl, rfl⟩)
  | addNotify | shutdown | shutdownNotify | shutdownTake | shutdownJoin | wakeUp | tick =>
      exact .inr (.inr ⟨rfl, rfl, rfl⟩)

theorem nextEntryId_le (s : TimerRun) (a : TimerStep) :
    s.nextEntryId ≤ (s.next a).nextEntryId := by
  cases a with
  | add | otherEntry => exact Nat.le_succ _
  | addNotify | shutdown | shutdownNotify | shutdownTake | shutdownJoin | exit | wait | pop
  | waitTimeout | wakeUp | resume | pushSource | tick => exact Nat.le_refl _

/-- Every entry is in one place. -/
structure Entries (s : TimerRun) : Prop where
  ids : s.added.Pairwise (fun a b => a.id < b.id)
  fresh : ∀ e ∈ s.added, e.id < s.nextEntryId
  perm : (s.flow ++ s.manager.heap.elems).Perm s.added

namespace Entries

theorem init : Entries .new where
  ids := .nil
  fresh e h := by cases h
  perm := .nil

theorem nodup (h : s.Entries) : (s.flow ++ s.manager.heap.elems).Nodup := by
  refine h.perm.nodup_iff.mpr (h.ids.imp ?_)
  rintro a b hlt rfl
  exact Nat.lt_irrefl _ hlt

theorem next (h : s.Entries) {a : TimerStep} (ha : s.Enabled a) : (s.next a).Entries := by
  rcases entries_cases ha with ⟨e, hp, -, hf, hh, hadd⟩ | ⟨r, q, hf, hh, hadd, hn⟩ |
      ⟨hf, hh, hadd⟩
  · have moved : s.flow ++ s.manager.heap.elems = (s.flow ++ [e]) ++ s.manager.heap.pop.elems := by
      rw [MinHeap.elems_of_peek hp, List.append_assoc]
      rfl
    refine ⟨hadd ▸ h.ids, fun x hx => ?_, ?_⟩
    · exact Nat.lt_of_lt_of_le (h.fresh x (hadd ▸ hx)) (nextEntryId_le s a)
    · rw [hf, hh, hadd, ← moved]
      exact h.perm
  · refine ⟨?_, fun x hx => ?_, ?_⟩
    · rw [hadd]
      refine List.pairwise_append.mpr ⟨h.ids, List.pairwise_singleton _ _, fun x hx y hy => ?_⟩
      obtain rfl := List.mem_singleton.mp hy
      exact h.fresh x hx
    · rw [hn]
      rw [hadd] at hx
      rcases List.mem_append.mp hx with hx | hx
      · exact Nat.lt_succ_of_lt (h.fresh x hx)
      · obtain rfl := List.mem_singleton.mp hx
        exact Nat.lt_succ_self _
    · rw [hf, hh, hadd]
      refine ((MinHeap.perm_push _ _).append_left _).trans ?_
      refine List.perm_middle.trans ?_
      exact (h.perm.cons _).trans (List.perm_append_singleton _ _).symm
  · refine ⟨hadd ▸ h.ids, fun x hx => ?_, ?_⟩
    · exact Nat.lt_of_lt_of_le (h.fresh x (hadd ▸ hx)) (nextEntryId_le s a)
    · rw [hf, hh, hadd]
      exact h.perm

end Entries

/-! ### The timer thread -/

theorem notifying_update {t : Tid} {x : ShutdownCall} (ht : s.closing t ≠ .notifying)
    (h : ∃ u, s.closing u = .notifying) : ∃ u, Function.update s.closing t x u = .notifying :=
  exists_update_of_not (P := fun c => c = ShutdownCall.notifying) h ht

structure Inv (s : TimerRun) : Prop where
  entries : s.Entries
  hand : ∀ e ∈ s.timer.inHand, e.readyTime ≤ s.clock
  due : ∀ p ∈ s.pushed, p.1.readyTime ≤ p.2
  inWait : s.Blocked → s.timer.inWait = true
  blocked : s.Blocked → s.Watching ∨ s.Notifying
  shutdown : s.Blocked → s.manager.shutdown = true → ∃ t, s.closing t = .notifying
  exited : s.timer = .exited → s.manager.shutdown = true

namespace Inv

theorem init : Inv .new where
  entries := .init
  hand e h := by cases h
  due p h := by cases h
  inWait h := by cases h
  blocked h := by cases h
  shutdown h := by cases h
  exited h := by cases h

/-- A timer thread that is not in a wait is not blocked. -/
theorem not_blocked (h : s.Inv) (ht : s.timer.inWait = false) : ¬ s.Blocked := by
  intro hb
  rw [h.inWait hb] at ht
  cases ht

/-- The timer thread goes from the top of its loop into a wait that is right. -/
theorem block (h : s.Inv) {x : TimerLoop} (hx : x.inWait = true)
    (hs : s.manager.shutdown = false)
    (hw : ({ s.setCondvar (s.manager.condvar.wait ()) with timer := x } : TimerRun).Watching)
    (he : ({ s.setCondvar (s.manager.condvar.wait ()) with timer := x } : TimerRun).Entries) :
    Inv { s.setCondvar (s.manager.condvar.wait ()) with timer := x } where
  entries := he
  hand e hm := by
    rw [show ({ s.setCondvar (s.manager.condvar.wait ()) with timer := x } : TimerRun).timer.inHand
      = [] from inHand_of_inWait hx] at hm
    cases hm
  due := h.due
  inWait _ := hx
  blocked _ := .inl hw
  shutdown _ hc := by
    rw [show s.manager.shutdown = true from hc] at hs
    cases hs
  exited ht := by
    rw [show x = .exited from ht] at hx
    cases hx

/-- While the timer thread is not blocked there is nothing to watch for. -/
theorem awake (he : s.Entries) (hh : ∀ e ∈ s.timer.inHand, e.readyTime ≤ s.clock)
    (hd : ∀ p ∈ s.pushed, p.1.readyTime ≤ p.2) (free : ¬ s.Blocked)
    (hx : s.timer = .exited → s.manager.shutdown = true) : s.Inv where
  entries := he
  hand := hh
  due := hd
  inWait hb := absurd hb free
  blocked hb := absurd hb free
  shutdown hb := absurd hb free
  exited := hx

theorem next (h : s.Inv) {a : TimerStep} (ha : s.Enabled a) : (s.next a).Inv := by
  have entries := h.entries.next ha
  cases a with
  | add t r q =>
      refine ⟨entries, h.hand, h.due, h.inWait, fun _ => .inr (.inl ⟨t, ?_⟩), h.shutdown, h.exited⟩
      exact Function.update_self ..
  | addNotify t => exact .awake entries h.hand h.due (fun hb => by cases hb) h.exited
  | shutdown t =>
      refine ⟨entries, h.hand, h.due, h.inWait, fun _ => .inr (.inr ⟨t, ?_⟩), fun _ _ => ⟨t, ?_⟩,
        fun _ => rfl⟩
      all_goals exact Function.update_self ..
  | shutdownNotify t => exact .awake entries h.hand h.due (fun hb => by cases hb) h.exited
  | shutdownTake t =>
      have ht : s.closing t ≠ .notifying := by
        rw [show s.closing t = .takeHandle from ha]
        simp
      refine ⟨entries, h.hand, h.due, h.inWait, fun hb => (h.blocked hb).imp_right ?_,
        fun hb hc => notifying_update ht (h.shutdown hb hc), h.exited⟩
      exact Or.imp_right (notifying_update ht)
  | shutdownJoin t b =>
      have ht : s.closing t ≠ .notifying := by
        rw [ha.1]
        simp
      refine ⟨entries, h.hand, h.due, h.inWait, fun hb => (h.blocked hb).imp_right ?_,
        fun hb hc => notifying_update ht (h.shutdown hb hc), h.exited⟩
      exact Or.imp_right (notifying_update ht)
  | exit =>
      have free : ¬ s.Blocked := h.not_blocked (by rw [ha.1]; rfl)
      refine .awake entries (fun e he => ?_) h.due free fun _ => ha.2
      cases he
  | wait =>
      refine h.block rfl ha.2.1 ?_ entries
      exact List.head?_eq_none_iff.mp ha.2.2
  | pop e =>
      obtain ⟨ht, -, -, hc⟩ := ha
      have free : ¬ s.Blocked := h.not_blocked (by rw [ht]; rfl)
      refine .awake entries (fun x hx => ?_) h.due free fun hx => by cases hx
      obtain rfl := List.mem_singleton.mp hx
      exact hc
  | waitTimeout e =>
      obtain ⟨-, hs, hp, -⟩ := ha
      refine h.block rfl hs (fun x hx => ?_) entries
      obtain ⟨m, hm, hle⟩ := MinHeap.peek_le hx
      obtain rfl : e = m := Option.some.inj (hp.symm.trans hm)
      exact Nat.sub_le_sub_right hle.fst_le _
  | wakeUp =>
      have free : ¬ (s.next .wakeUp).Blocked := by
        simp [Blocked, TimerRun.next, setCondvar, Condvar.wake]
      exact .awake entries h.hand h.due free h.exited
  | resume =>
      refine .awake entries (fun e he => ?_) h.due ha.2 fun ht => ?_
      · cases he
      · cases ht
  | pushSource e =>
      have ht : s.timer = .pushSource e := ha
      have free : ¬ s.Blocked := h.not_blocked (by rw [ht]; rfl)
      refine .awake entries (fun x hx => ?_) (fun p hp => ?_) free fun hx => by cases hx
      · cases hx
      · rcases List.mem_append.mp hp with hp | hp
        · exact h.due p hp
        · obtain rfl := List.mem_singleton.mp hp
          exact h.hand e (by rw [ht]; exact List.mem_cons_self)
  | otherEntry => exact ⟨entries, h.hand, h.due, h.inWait, h.blocked, h.shutdown, h.exited⟩
  | tick d =>
      refine ⟨entries, fun e he => ?_, h.due, h.inWait, h.blocked, h.shutdown, h.exited⟩
      exact Nat.le_trans (h.hand e he) (Nat.le_add_right _ _)

end Inv

theorem inv_of_reachable (h : timerMachine.Reachable s) : s.Inv := by
  refine h.invariant (I := Inv) (fun s hi => ?_) fun _ _ _ hi _ ha => hi.next ha
  obtain rfl : s = .new := hi
  exact .init

/-! ### Order -/

/-- Two entries in the order of the heap, until the second one follows the first. -/
def Ranked (s : TimerRun) (e₁ e₂ : DelayedEntry) : Prop :=
  (e₁ ∈ s.manager.heap ∨ e₁ ∈ s.flow) ∧ e₂ ∈ s.manager.heap ∨ Before s.flow e₁ e₂

theorem Ranked.next (h : s.Ranked e₁ e₂) (hlt : ¬ e₂.Le e₁) {a : TimerStep} (ha : s.Enabled a) :
    (s.next a).Ranked e₁ e₂ := by
  have ne : e₁ ≠ e₂ := by
    rintro rfl
    exact hlt (Std.Refl.refl e₁)
  rcases entries_cases ha with ⟨e, hp, -, hf, hh, -⟩ | ⟨r, q, hf, hh, -, -⟩ | ⟨hf, hh, -⟩
  · unfold Ranked
    rw [hf, hh]
    rcases h with ⟨h₁, h₂⟩ | hb
    · rcases MinHeap.mem_pop_or_eq h₂ hp with rfl | h₂
      · -- the second entry is popped, so the first one is not in the heap any more
        rcases h₁ with h₁ | h₁
        · obtain ⟨m, hm, hle⟩ := MinHeap.peek_le h₁
          obtain rfl : e₂ = m := Option.some.inj (hp.symm.trans hm)
          exact absurd hle hlt
        · exact .inr (.of_mem h₁ List.mem_cons_self)
      · refine .inl ⟨?_, h₂⟩
        rcases h₁ with h₁ | h₁
        · rcases MinHeap.mem_pop_or_eq h₁ hp with rfl | h₁
          · exact .inr (List.mem_append_right _ List.mem_cons_self)
          · exact .inl h₁
        · exact .inr (List.mem_append_left _ h₁)
    · exact .inr (hb.append_right _)
  · unfold Ranked
    rw [hf, hh]
    rcases h with ⟨h₁, h₂⟩ | hb
    · exact .inl ⟨h₁.imp_left fun h => MinHeap.mem_push.mpr (.inr h),
        MinHeap.mem_push.mpr (.inr h₂)⟩
    · exact .inr hb
  · unfold Ranked
    rw [hf, hh]
    exact h

/-- The timer thread does not block once the shutdown is set. -/
theorem not_blocked_next (hb : ¬ s.Blocked) (hs : s.manager.shutdown = true) {a : TimerStep}
    (ha : s.Enabled a) : ¬ (s.next a).Blocked ∧ (s.next a).manager.shutdown = true := by
  cases a with
  | wait | waitTimeout e =>
      rw [ha.2.1] at hs
      cases hs
  | addNotify | shutdownNotify => exact ⟨fun h => (by cases h), hs⟩
  | wakeUp => exact absurd ha hb
  | shutdown => exact ⟨hb, rfl⟩
  | add | shutdownTake | shutdownJoin | exit | pop | resume | pushSource | otherEntry | tick =>
      exact ⟨hb, hs⟩

/-- What the manager promises of a run. -/
structure Lawful (s : TimerRun) : Prop where
  /-- every entry added is in one place: pushed, in the timer thread's hand, or in the heap -/
  perm : (s.pushed.map (·.1) ++ s.timer.inHand ++ s.manager.heap.elems).Perm s.added
  once : (s.pushed.map (·.1)).Nodup
  not_early : ∀ p ∈ s.pushed, p.1.readyTime ≤ p.2
  /-- the numbers are in the order of insertion -/
  inserted : s.added.Pairwise (fun a b => a.id < b.id)
  /-- first by ready time, then by insertion -/
  by_time : ∀ e₁ ∈ s.manager.heap, ∀ e₂ ∈ s.manager.heap,
    (e₁.readyTime < e₂.readyTime ∨ e₁.readyTime = e₂.readyTime ∧ e₁.id < e₂.id) →
    ∀ s', timerMachine.Run (fun _ _ => True) s s' → e₂ ∈ s'.pushed.map (·.1) →
      Before (s'.pushed.map (·.1)) e₁ e₂
  blocked : s.Blocked → s.timer = .waiting ∧ s.manager.heap.elems = [] ∨
    (∃ timeout now, s.timer = .timedWaiting timeout now ∧
      ∀ e ∈ s.manager.heap, timeout ≤ e.readyTime - now) ∨ s.Notifying
  exits : s.timer = .exited → s.manager.shutdown = true
  /-- once the shutdown is set a blocked timer thread is about to be notified, and one that is not
  blocked stays so -/
  shut : s.manager.shutdown = true → (s.Blocked → ∃ t, s.closing t = .notifying) ∧
    (¬ s.Blocked → ∀ s', timerMachine.Run (fun _ _ => True) s s' → ¬ s'.Blocked)

/-- **The law of the delayed task manager**, in every state that its callers and its timer thread
reach. -/
theorem timer_law {s : TimerRun} (hs : timerMachine.Reachable s) : s.Lawful := by
  have h := inv_of_reachable hs
  have flow_nodup : ∀ {s : TimerRun}, s.Entries → s.flow.Nodup :=
    fun h => (List.nodup_append.mp h.nodup).1
  refine ⟨h.entries.perm, (List.nodup_append.mp (flow_nodup h.entries)).1, h.due, h.entries.ids,
    fun e₁ h₁ e₂ h₂ hlt s' hr hm => ?_, fun hb => ?_, h.exited, fun hc => ⟨fun hb => ?_, ?_⟩⟩
  · have h' := inv_of_reachable (hs.run hr)
    have not_le : ¬ e₂.Le e₁ := LexLe.not_of_lt hlt
    have ranked : s'.Ranked e₁ e₂ :=
      hr.keeps (I := fun s => s.Ranked e₁ e₂) (fun s a h ha => h.next not_le ha)
        (.inl ⟨.inl h₁, h₂⟩)
    rcases ranked with ⟨-, hq⟩ | hb
    · have := (List.nodup_append.mp h'.entries.nodup).2.2 e₂ (List.mem_append_left _ hm) e₂ hq
      exact absurd rfl this
    · exact .of_append (flow_nodup h'.entries) hb hm
  · rcases h.blocked hb with hw | hn
    · unfold Watching at hw
      cases ht : s.timer with
      | waiting => rw [ht] at hw; exact .inl ⟨rfl, hw⟩
      | timedWaiting timeout now => rw [ht] at hw; exact .inr (.inl ⟨timeout, now, rfl, hw⟩)
      | top | pushSource _ | exited => rw [ht] at hw; exact hw.elim
    · exact .inr (.inr hn)
  · exact h.shutdown hb hc
  · intro hb s' hr
    have kept := hr.keeps (I := fun s => ¬ s.Blocked ∧ s.manager.shutdown = true)
      (fun s a h ha => not_blocked_next h.1 h.2 ha) ⟨hb, hc⟩
    exact kept.1

/-- An entry due at 3 is added while the timer thread waits for one due at 5. -/
def earlierRun : List TimerStep :=
  [.add 0 5 0, .waitTimeout ⟨5, 0, 0⟩, .add 1 3 1, .addNotify 1, .resume, .tick 6, .pop ⟨3, 1, 1⟩,
    .pushSource ⟨3, 1, 1⟩, .pop ⟨5, 0, 0⟩, .pushSource ⟨5, 0, 0⟩]

theorem timer_law_earlier :
    ∃ s, timerMachine.Reachable s ∧ s.pushed.map (·.1.id) = [1, 0] ∧ s.Lawful := by
  have run : timerMachine.Follows (fun _ _ => True) .new earlierRun := by decide +kernel
  have hs := Machine.ReachableBy.of_follows rfl run
  exact ⟨_, hs, by decide +kernel, timer_law hs⟩

end TimerRun

end RustTask
