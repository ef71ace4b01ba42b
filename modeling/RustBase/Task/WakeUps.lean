import RustBase.Task.Sequencing

/-!
# Task — the wake-ups of a thread group

`ThreadGroup` by itself: workers in `worker_loop`, and threads that call `push_task_source` and
`join_all`, any number of each and as often as they like.  What a worker does with a source between
`get_work` and its next call is one phase; whether `did_process_task` asks for the source again is
open, so the results hold of every `TaskSource`.

`push_task_source` notifies after it has released the lock, so a notification may come late or
meet no waiter.  `Attended` is why none is lost: a worker blocks only on an empty queue, so a queue
that is not empty has a worker that is awake, or a thread that still has to notify.

* **`no_lost_wakeup`**: no work waits while every worker sleeps, and after the `notify_all` of a
  `join_all` no worker sleeps any more.
* **`pool_refines_group`**: the group inside the thread pool is such a group.
-/

namespace RustTask
open Support

/-! ### The group -/

/-- A thread in `worker_loop`. -/
inductive GroupWorker where
  | off
  /-- in `get_work`, at the top of its loop -/
  | getWork
  /-- in `condvar.wait` -/
  | waiting
  /-- has a source, up to the result of `did_process_task` -/
  | working
  /-- `push_task_source` is next -/
  | rePush
  /-- has pushed its source; `notify_one` is next -/
  | notifying
  | exited
  deriving DecidableEq

/-- A thread that calls `push_task_source` or `join_all`. -/
inductive GroupCaller where
  | idle
  /-- has pushed its source; `notify_one` is next -/
  | notifying
  /-- `join_all`: the flag is set; `notify_all` is next -/
  | joinNotify
  | joinTake
  | joining (handles : List Tid)
  deriving DecidableEq

structure GroupState (κ : Type*) where
  group : ThreadGroup
  workers : Tid → GroupWorker
  callers : κ → GroupCaller

inductive GroupAct (κ : Type*) where
  /-- `run_worker_on_current_thread` -/
  | attach (w : Tid)
  | getWorkExit (w : Tid)
  | getWorkPop (w : Tid) (e : QueueEntry)
  | getWorkWait (w : Tid)
  | wakeSpuriously (w : Tid)
  | resume (w : Tid)
  /-- `worker_loop` is done with the source, and may have to push it again -/
  | processed (w : Tid) (again : Bool)
  | rePush (w : Tid) (e : QueueEntry)
  | notify (w : Tid) (choice : Option Tid)
  | pushTaskSource (c : κ) (e : QueueEntry)
  | notifyOne (c : κ) (choice : Option Tid)
  | joinAll (c : κ)
  | joinNotify (c : κ)
  | joinTake (c : κ)
  | join (c : κ) (w : Tid) (handles : List Tid)
  | joined (c : κ)

namespace GroupState

variable {κ : Type*} [DecidableEq κ]

/-- `ThreadGroup::new(n)`. -/
def new (n : ℕ) : GroupState κ where
  group := ⟨[], List.range n, .new, false⟩
  workers := fun w => if w < n then .getWork else .off
  callers := fun _ => .idle

def setWorker (s : GroupState κ) (w : Tid) (x : GroupWorker) : GroupState κ :=
  { s with workers := Function.update s.workers w x }

def setCaller (s : GroupState κ) (c : κ) (x : GroupCaller) : GroupState κ :=
  { s with callers := Function.update s.callers c x }

/-- The critical section of `push_task_source`. -/
def push (s : GroupState κ) (e : QueueEntry) : GroupState κ :=
  { s with group := { s.group with priorityQueue := e :: s.group.priorityQueue } }

def setCondvar (s : GroupState κ) (x : Condvar Tid) : GroupState κ :=
  { s with group := { s.group with condvar := x } }

def Enabled (s : GroupState κ) : GroupAct κ → Prop
  | .attach w => s.workers w = .off
  | .getWorkExit w => s.workers w = .getWork ∧ s.group.shutdown = true
  | .getWorkPop w e =>
      s.workers w = .getWork ∧ s.group.shutdown = false ∧
        IsTop QueueEntry.Le s.group.priorityQueue e
  | .getWorkWait w =>
      s.workers w = .getWork ∧ s.group.shutdown = false ∧ s.group.priorityQueue = []
  | .wakeSpuriously w => w ∈ s.group.condvar.waiters
  | .resume w => s.workers w = .waiting ∧ w ∉ s.group.condvar.waiters
  | .processed w _ => s.workers w = .working
  | .rePush w _ => s.workers w = .rePush
  | .notify w o => s.workers w = .notifying ∧ s.group.condvar.CanNotify o
  | .pushTaskSource c _ => s.callers c = .idle
  | .notifyOne c o => s.callers c = .notifying ∧ s.group.condvar.CanNotify o
  | .joinAll c => s.callers c = .idle
  | .joinNotify c => s.callers c = .joinNotify
  | .joinTake c => s.callers c = .joinTake
  | .join c w hs => s.callers c = .joining (w :: hs) ∧ s.workers w = .exited
  | .joined c => s.callers c = .joining []

instance (s : GroupState κ) : ∀ a, Decidable (s.Enabled a)
  | .attach _ | .processed _ _ | .rePush _ _ | .pushTaskSource _ _ | .joinAll _ | .joinNotify _
  | .joinTake _ | .joined _ => inferInstanceAs (Decidable (_ = _))
  | .getWorkExit _ | .resume _ | .notify _ _ | .notifyOne _ _ | .join _ _ _ =>
      inferInstanceAs (Decidable (_ ∧ _))
  | .getWorkPop _ _ | .getWorkWait _ => inferInstanceAs (Decidable (_ ∧ _ ∧ _))
  | .wakeSpuriously _ => inferInstanceAs (Decidable (_ ∈ _))

def next (s : GroupState κ) : GroupAct κ → GroupState κ
  | .attach w => s.setWorker w .getWork
  | .getWorkExit w => s.setWorker w .exited
  | .getWorkPop w e =>
      { s with group := { s.group with
          priorityQueue := s.group.priorityQueue.erase e } }.setWorker w .working
  | .getWorkWait w => (s.setCondvar (s.group.condvar.wait w)).setWorker w .waiting
  | .wakeSpuriously w => s.setCondvar (s.group.condvar.wake w)
  | .resume w => s.setWorker w .getWork
  | .processed w again => s.setWorker w (if again then .rePush else .getWork)
  | .rePush w e => (s.push e).setWorker w .notifying
  | .notify w o => (s.setCondvar (s.group.condvar.notifyOne o)).setWorker w .getWork
  | .pushTaskSource c e => (s.push e).setCaller c .notifying
  | .notifyOne c o => (s.setCondvar (s.group.condvar.notifyOne o)).setCaller c .idle
  | .joinAll c => { s with group := { s.group with shutdown := true } }.setCaller c .joinNotify
  | .joinNotify c => (s.setCondvar s.group.condvar.notifyAll).setCaller c .joinTake
  | .joinTake c =>
      { s with group := { s.group with handles := [] } }.setCaller c (.joining s.group.handles)
  | .join c _ hs => s.setCaller c (.joining hs)
  | .joined c => s.setCaller c .idle

end GroupState

/-- A group with any number of built-in workers. -/
def groupMachine (κ : Type*) [DecidableEq κ] : Machine (GroupState κ) (GroupAct κ) where
  Init := fun s => ∃ n, s = .new n
  Enabled := GroupState.Enabled
  next := GroupState.next

instance {κ : Type*} [DecidableEq κ] : ∀ s a, Decidable ((groupMachine κ).Enabled s a) :=
  fun s a => inferInstanceAs (Decidable (s.Enabled a))

/-! ### No work waits while every worker sleeps -/

namespace GroupState

section

variable {κ : Type*} {s s' : GroupState κ}

/-- In `condvar.wait`, with no notification delivered. -/
def Blocked (s : GroupState κ) (w : Tid) : Prop :=
  s.workers w = .waiting ∧ w ∈ s.group.condvar.waiters

/-- A worker that is not blocked, and has not left its loop. -/
structure Awake (s : GroupState κ) (w : Tid) : Prop where
  on : s.workers w ≠ .off
  loops : s.workers w ≠ .exited
  free : ¬ s.Blocked w

/-- A thread is between its push and its notification. -/
def Notifies (s : GroupState κ) : Prop :=
  (∃ w, s.workers w = .notifying) ∨ ∃ c, s.callers c = .notifying

/-- While the flag is clear no worker has left its loop, and a queue that is not empty has a worker
that is awake or a thread that will notify. -/
structure Attended (s : GroupState κ) : Prop where
  waiting : ∀ w ∈ s.group.condvar.waiters, s.workers w = .waiting
  stays : s.group.shutdown = false → ∀ w, s.workers w ≠ .exited
  served : s.group.shutdown = false → s.group.priorityQueue ≠ [] → (∃ w, s.workers w ≠ .off) →
    (∃ w, s.Awake w) ∨ s.Notifies

theorem attended_new (n : ℕ) : Attended (.new n : GroupState κ) := by
  refine ⟨fun _ hw => absurd hw List.not_mem_nil, fun _ w => ?_, fun _ hq => absurd rfl hq⟩
  simp only [new]
  split <;> simp

/-- A worker that was not waiting moves to a phase in which it neither sleeps nor has left. -/
theorem Attended.setWorker (h : Attended s) {w : Tid} {x : GroupWorker} (h₁ : x ≠ .off)
    (h₂ : x ≠ .exited) (h₃ : x ≠ .waiting) (hw : s'.workers = Function.update s.workers w x)
    (hn : w ∉ s'.group.condvar.waiters)
    (hsub : s'.group.condvar.waiters ⊆ s.group.condvar.waiters)
    (hs : s'.group.shutdown = s.group.shutdown) : Attended s' := by
  have here : s'.workers w = x := by rw [hw, Function.update_self]
  refine ⟨fun u hu => ?_, fun h₀ u => ?_, fun _ _ _ => .inl ⟨w, ?_⟩⟩
  · have e : u ≠ w := fun e => hn (e ▸ hu)
    rw [hw, Function.update_of_ne e]
    exact h.waiting u (hsub hu)
  · rw [hw]
    by_cases e : u = w
    · subst e; rw [Function.update_self]; exact h₂
    · rw [Function.update_of_ne e]; exact h.stays (hs ▸ h₀) u
  · subst here
    exact ⟨h₁, h₂, fun hb => h₃ hb.1⟩

/-- Some thread that slept does not sleep any more, or nobody sleeps. -/
theorem Attended.awoken (h : Attended s) (hw : s'.workers = s.workers)
    (hsub : s'.group.condvar.waiters ⊆ s.group.condvar.waiters)
    (hd : (∃ t ∈ s.group.condvar.waiters, t ∉ s'.group.condvar.waiters) ∨
      s'.group.condvar.waiters = [])
    (hs : s'.group.shutdown = s.group.shutdown) : Attended s' := by
  refine ⟨fun u hu => hw ▸ h.waiting u (hsub hu), fun h₀ u => hw ▸ h.stays (hs ▸ h₀) u, ?_⟩
  rintro h₀ - ⟨u, hu⟩
  have stays := h.stays (hs ▸ h₀)
  rcases hd with ⟨t, ht, hn⟩ | none
  · have asleep := h.waiting t ht
    refine .inl ⟨t, ?_, hw ▸ stays t, fun hb => hn hb.2⟩
    rw [hw, asleep]
    simp
  · refine .inl ⟨u, hu, hw ▸ stays u, fun hb => ?_⟩
    have := hb.2
    rw [none] at this
    exact absurd this List.not_mem_nil

end

/-! The condition variable. -/

section

variable {c : Condvar Tid} {o : Option Tid}

theorem notifyOne_subset : (c.notifyOne o).waiters ⊆ c.waiters := by
  cases o with
  | none => exact fun _ h => h
  | some t => exact fun _ h => List.mem_of_mem_filter h

/-- A notification takes a thread off the list, unless nobody waits. -/
theorem notifyOne_wakes (ho : c.CanNotify o) :
    (∃ t ∈ c.waiters, t ∉ (c.notifyOne o).waiters) ∨ (c.notifyOne o).waiters = [] := by
  cases o with
  | none => exact .inr ho
  | some t => exact .inl ⟨t, ho, by simp [Condvar.notifyOne]⟩

end

section

variable {κ : Type*} [DecidableEq κ] {s s' : GroupState κ}

/-- A caller that has nothing to notify of goes on; it may wake sleepers. -/
theorem Attended.setCaller (h : Attended s) {c : κ} {x : GroupCaller}
    (hc : s.callers c ≠ .notifying) (hw : s'.workers = s.workers)
    (hx : s'.callers = Function.update s.callers c x)
    (hq : s'.group.priorityQueue = s.group.priorityQueue)
    (hv : s'.group.condvar = s.group.condvar)
    (hs : s'.group.shutdown = s.group.shutdown) : Attended s' := by
  refine ⟨fun u hu => hw ▸ h.waiting u (hv ▸ hu), fun h₀ u => hw ▸ h.stays (hs ▸ h₀) u, ?_⟩
  intro h₀ hne hu
  rw [hs] at h₀; rw [hq] at hne; rw [hw] at hu
  rcases h.served h₀ hne hu with ⟨u, h₁, h₂, h₃⟩ | ⟨u, hu⟩ | hn
  · refine .inl ⟨u, hw ▸ h₁, hw ▸ h₂, fun hb => h₃ ⟨hw ▸ hb.1, hv ▸ hb.2⟩⟩
  · exact .inr (.inl ⟨u, hw ▸ hu⟩)
  · refine .inr (.inr ?_)
    rw [hx]
    exact exists_update_of_not (P := fun x => x = GroupCaller.notifying) hn hc

theorem attended_next (h : Attended s) {a : GroupAct κ} (ha : s.Enabled a) :
    Attended (s.next a) := by
  -- a worker in another phase is not among the sleepers
  have out : ∀ {w x}, s.workers w = x → x ≠ .waiting → w ∉ s.group.condvar.waiters :=
    fun hw hx hm => hx (hw.symm.trans (h.waiting _ hm))
  cases a with
  | attach w =>
      exact h.setWorker (x := .getWork) (by simp) (by simp) (by simp) rfl (out ha (by simp))
        (fun _ h => h) rfl
  | getWorkExit w =>
      obtain ⟨hw, hs⟩ := ha
      refine ⟨fun u hu => ?_, fun h₀ => ?_, fun h₀ => ?_⟩
      · have e : u ≠ w := fun e => out hw (by simp) (e ▸ hu)
        exact (Function.update_of_ne e ..).trans (h.waiting u hu)
      · exact absurd (hs.symm.trans h₀) (by simp)
      · exact absurd (hs.symm.trans h₀) (by simp)
  | getWorkPop w e =>
      exact h.setWorker (x := .working) (by simp) (by simp) (by simp) rfl (out ha.1 (by simp))
        (fun _ h => h) rfl
  | getWorkWait w =>
      obtain ⟨hw, -, hq⟩ := ha
      refine ⟨fun u hu => ?_, fun h₀ u => ?_, fun _ hne => absurd hq hne⟩
      · by_cases e : u = w
        · subst e; exact Function.update_self ..
        · refine (Function.update_of_ne e ..).trans (h.waiting u ?_)
          exact (List.mem_cons.mp hu).resolve_left e
      · by_cases e : u = w
        · subst e; simp [next, GroupState.setWorker]
        · have same : (s.next (.getWorkWait w)).workers u = s.workers u :=
            Function.update_of_ne e ..
          rw [same]
          exact h.stays h₀ u
  | wakeSpuriously w =>
      exact h.awoken rfl (notifyOne_subset (o := some w)) (notifyOne_wakes (o := some w) ha) rfl
  | resume w =>
      exact h.setWorker (x := .getWork) (by simp) (by simp) (by simp) rfl ha.2 (fun _ h => h) rfl
  | processed w again =>
      refine h.setWorker ?_ ?_ ?_ rfl (out ha (by simp)) (fun _ h => h) rfl <;>
        cases again <;> simp
  | rePush w e =>
      exact h.setWorker (x := .notifying) (by simp) (by simp) (by simp) rfl (out ha (by simp))
        (fun _ h => h) rfl
  | notify w o =>
      exact h.setWorker (x := .getWork) (by simp) (by simp) (by simp) rfl
        (fun hm => out ha.1 (by simp) (notifyOne_subset hm)) notifyOne_subset rfl
  | pushTaskSource c e =>
      refine ⟨h.waiting, h.stays, fun _ _ _ => .inr (.inr ⟨c, ?_⟩)⟩
      exact Function.update_self ..
  | notifyOne c o => exact h.awoken rfl notifyOne_subset (notifyOne_wakes ha.2) rfl
  | joinAll c => exact ⟨h.waiting, fun h₀ => absurd h₀ (by simp [next, GroupState.setCaller]),
      fun h₀ => absurd h₀ (by simp [next, GroupState.setCaller])⟩
  | joinNotify c => exact h.awoken rfl (List.nil_subset _) (.inr rfl) rfl
  | joinTake c =>
      have hc : s.callers c = .joinTake := ha
      exact h.setCaller (c := c) (by simp [hc]) rfl rfl rfl rfl rfl
  | join c w hs =>
      obtain ⟨hc, -⟩ := ha
      exact h.setCaller (c := c) (by simp [hc]) rfl rfl rfl rfl rfl
  | joined c =>
      have hc : s.callers c = .joining [] := ha
      exact h.setCaller (c := c) (by simp [hc]) rfl rfl rfl rfl rfl

/-! ### After `notify_all` -/

/-- The flag is set and nobody sleeps. -/
def Closed (s : GroupState κ) : Prop :=
  s.group.shutdown = true ∧ s.group.condvar.waiters = []

omit [DecidableEq κ] in
theorem Closed.of_subset (h : Closed s) (hs : s'.group.shutdown = s.group.shutdown)
    (hw : s'.group.condvar.waiters ⊆ s.group.condvar.waiters) : Closed s' :=
  ⟨hs.trans h.1, List.subset_nil.mp (h.2 ▸ hw)⟩

/-- Once closed no worker goes to sleep: `get_work` tests the flag under the lock. -/
theorem closed_next (h : Closed s) {a : GroupAct κ} (ha : s.Enabled a) : Closed (s.next a) := by
  cases a with
  | getWorkWait w =>
      obtain ⟨-, hs, -⟩ := ha
      rw [h.1] at hs
      cases hs
  | wakeSpuriously w => exact h.of_subset rfl (notifyOne_subset (o := some w))
  | notify w o => exact h.of_subset rfl notifyOne_subset
  | notifyOne c o => exact h.of_subset rfl notifyOne_subset
  | joinAll c => exact ⟨rfl, h.2⟩
  | joinNotify c => exact ⟨h.1, rfl⟩
  | _ => exact h

/-- A thread in `join_all` has set the flag. -/
def Flagged (s : GroupState κ) : Prop :=
  ∀ c, s.callers c = .joinNotify → s.group.shutdown = true

theorem flagged_next (h : Flagged s) {a : GroupAct κ} : Flagged (s.next a) := by
  -- a caller that moves elsewhere
  have move : ∀ {c : κ} {x : GroupCaller} {s' : GroupState κ}, x ≠ .joinNotify →
      s'.callers = Function.update s.callers c x → s'.group.shutdown = s.group.shutdown →
      Flagged s' := by
    intro c x s' hx hc hs u hu
    rw [hc] at hu
    by_cases e : u = c
    · subst e; rw [Function.update_self] at hu; exact absurd hu hx
    · rw [Function.update_of_ne e] at hu; exact hs.trans (h u hu)
  cases a with
  | pushTaskSource c e => exact move (c := c) (x := .notifying) (by simp) rfl rfl
  | notifyOne c o => exact move (c := c) (x := .idle) (by simp) rfl rfl
  | joinAll c => exact fun _ _ => rfl
  | joinNotify c => exact move (c := c) (x := .joinTake) (by simp) rfl rfl
  | joinTake c => exact move (c := c) (x := .joining s.group.handles) (by simp) rfl rfl
  | join c w hs => exact move (c := c) (x := .joining hs) (by simp) rfl rfl
  | joined c => exact move (c := c) (x := .idle) (by simp) rfl rfl
  | _ => exact h

end

end GroupState

/-! ### The whole run -/

section

variable {κ : Type*} [DecidableEq κ] {s : GroupState κ}

theorem reachable_attended (h : (groupMachine κ).Reachable s) : s.Attended := by
  refine h.invariant (fun s h₀ => ?_) fun s a _ hi _ ha => GroupState.attended_next hi ha
  obtain ⟨n, rfl⟩ := h₀
  exact GroupState.attended_new n

theorem reachable_flagged (h : (groupMachine κ).Reachable s) : s.Flagged := by
  refine h.invariant (fun s h₀ => ?_) fun s a _ hi _ _ => GroupState.flagged_next hi
  obtain ⟨n, rfl⟩ := h₀
  exact fun _ hc => by cases hc

/-- **No lost wake-up.**  In every reachable state of a group with a worker: while the flag is clear
and the queue is not empty, some worker is in its loop and not blocked, or a thread is between its
push and its `notify_one`.  And once a `join_all` has executed its `notify_all`, no worker is
blocked or ever becomes so. -/
theorem no_lost_wakeup (h : (groupMachine κ).Reachable s) :
    (s.group.shutdown = false → s.group.priorityQueue ≠ [] → (∃ w, s.workers w ≠ .off) →
      ¬ s.Notifies → ∃ w, s.Awake w) ∧
    (∀ c, s.callers c = .joinNotify → ∀ s',
      (groupMachine κ).Run (fun _ _ => True) ((groupMachine κ).next s (.joinNotify c)) s' →
      ∀ w, ¬ s'.Blocked w) := by
  refine ⟨fun h₀ hq hw hn => ?_, fun c hc s' hr w hb => ?_⟩
  · exact ((reachable_attended h).served h₀ hq hw).resolve_right hn
  · have flag : s.group.shutdown = true := reachable_flagged h c hc
    have closed : s'.Closed :=
      hr.keeps (I := GroupState.Closed) (fun _ _ hi ha => GroupState.closed_next hi ha) ⟨flag, rfl⟩
    have := hb.2
    rw [closed.2] at this
    exact absurd this List.not_mem_nil

end

/-- A worker sleeps, a source is pushed, and the worker is notified. -/
def sleepRun : List (GroupAct ℕ) :=
  [.getWorkWait 0, .pushTaskSource 0 ⟨.userVisible, 0, 0⟩, .notifyOne 0 (some 0)]

/-- After `sleepRun` there is work and a worker that is awake; a `join_all` that then executes its
`notify_all` leaves nobody asleep. -/
theorem sleepRun_wakes :
    let s := (groupMachine ℕ).runList (.new 1) sleepRun
    let s' := (groupMachine ℕ).runList (.new 1) (sleepRun ++ [.joinAll 0])
    s.group.priorityQueue ≠ [] ∧ (∃ w, s.Awake w) ∧ s'.callers 0 = .joinNotify ∧
      ¬ ((groupMachine ℕ).next s' (.joinNotify 0)).Blocked 0 := by
  have follows : (groupMachine ℕ).Follows (fun _ _ => True) (.new 1)
      (sleepRun ++ [.joinAll 0]) := by decide +kernel
  have before : (groupMachine ℕ).Follows (fun _ _ => True) (.new 1) sleepRun := by decide +kernel
  have quiet : ¬ ((groupMachine ℕ).runList (.new 1) sleepRun).Notifies := by
    rintro (⟨w, hw⟩ | ⟨c, hc⟩)
    · by_cases e : w = 0
      · subst e; revert hw; decide +kernel
      · simp [sleepRun, Machine.runList, groupMachine, GroupState.next, GroupState.setWorker,
          GroupState.setCaller, GroupState.setCondvar, GroupState.push, GroupState.new, e] at hw
    · simp [sleepRun, Machine.runList, groupMachine, GroupState.next, GroupState.setWorker,
        GroupState.setCaller, GroupState.setCondvar, GroupState.push, GroupState.new] at hc
  refine ⟨by decide +kernel, ?_, by decide +kernel, ?_⟩
  · exact (no_lost_wakeup (.of_follows ⟨1, rfl⟩ before)).1 (by decide +kernel) (by decide +kernel)
      ⟨0, by decide +kernel⟩ quiet
  · exact (no_lost_wakeup (.of_follows ⟨1, rfl⟩ follows)).2 0 (by decide +kernel) _ .refl 0

/-! ### The group of the pool -/

/-- The threads of the pool that call its group. -/
inductive PoolCaller where
  | poster (p : Tid)
  | timer
  | closer (c : Tid)
  deriving DecidableEq

def WorkerPhase.inGroup : WorkerPhase → GroupWorker
  | .off => .off
  | .getWork => .getWork
  | .waiting => .waiting
  | .popped _ | .claimed _ | .took _ _ | .running _ _ _ | .ran _ | .cleared _ | .dead _ _ =>
      .working
  | .rePush _ => .rePush
  | .notifying => .notifying
  | .exited => .exited

def PosterPhase.inGroup : PosterPhase → GroupCaller
  | .notifyGroup => .notifying
  | _ => .idle

def TimerPhase.inGroup : TimerPhase → GroupCaller
  | .notifying => .notifying
  | _ => .idle

def CloserPhase.inGroup : CloserPhase → GroupCaller
  | .joinNotify => .joinNotify
  | .joinTake => .joinTake
  | .joining hs => .joining hs
  | _ => .idle

namespace Pool

variable {s s' : Pool}

/-- The pool as its group sees it. -/
def toGroup (s : Pool) : GroupState PoolCaller where
  group := s.group
  workers := fun w => (s.workers w).inGroup
  callers
    | .poster p => (s.posters p).inGroup
    | .timer => s.timer.inGroup
    | .closer c => (s.closers c).inGroup

@[simp] theorem toGroup_setWorker (w : Tid) (x : WorkerPhase) :
    (s.setWorker w x).toGroup = s.toGroup.setWorker w x.inGroup := by
  simp only [toGroup, setWorker, GroupState.setWorker, GroupState.mk.injEq, true_and, and_true]
  funext u
  by_cases e : u = w
  · subst e; simp
  · simp [e]

@[simp] theorem toGroup_setPoster (p : Tid) (x : PosterPhase) :
    (s.setPoster p x).toGroup = s.toGroup.setCaller (.poster p) x.inGroup := by
  simp only [toGroup, setPoster, GroupState.setCaller, GroupState.mk.injEq, true_and]
  funext u
  cases u with
  | poster v =>
      by_cases e : v = p
      · subst e; simp
      · simp [e]
  | timer => simp
  | closer c => simp

@[simp] theorem toGroup_setTimer (x : TimerPhase) :
    (s.setTimer x).toGroup = s.toGroup.setCaller .timer x.inGroup := by
  simp only [toGroup, setTimer, GroupState.setCaller, GroupState.mk.injEq, true_and]
  funext u
  cases u <;> simp

@[simp] theorem toGroup_setCloser (c : Tid) (x : CloserPhase) :
    (s.setCloser c x).toGroup = s.toGroup.setCaller (.closer c) x.inGroup := by
  simp only [toGroup, setCloser, GroupState.setCaller, GroupState.mk.injEq, true_and]
  funext u
  cases u with
  | poster v => simp
  | timer => simp
  | closer d =>
      by_cases e : d = c
      · subst e; simp
      · simp [e]

/-- What a step of the pool is for its group. -/
def GroupStep (s s' : Pool) : Prop :=
  s'.toGroup = s.toGroup ∨ ∃ b, s.toGroup.Enabled b ∧ s'.toGroup = s.toGroup.next b

/-- A worker whose move the group does not see. -/
theorem GroupStep.worker {w : Tid} {x : WorkerPhase} (hx : x.inGroup = (s.workers w).inGroup)
    (hs : s'.toGroup = (s.setWorker w x).toGroup) : GroupStep s s' := by
  refine .inl (hs.trans ?_)
  rw [toGroup_setWorker, hx]
  exact congrArg (fun f => { s.toGroup with workers := f })
    (Function.update_eq_self w s.toGroup.workers)

/-- A caller whose move the group does not see. -/
theorem setCaller_self {g : GroupState PoolCaller} {c : PoolCaller} {x : GroupCaller}
    (hx : x = g.callers c) : g.setCaller c x = g := by
  rw [hx]
  exact congrArg (fun f => { g with callers := f }) (Function.update_eq_self c g.callers)

theorem GroupStep.poster {p : Tid} {x : PosterPhase} (hx : x.inGroup = (s.posters p).inGroup)
    (hs : s'.toGroup = (s.setPoster p x).toGroup) : GroupStep s s' := by
  refine .inl (hs.trans ?_)
  rw [toGroup_setPoster]
  exact setCaller_self hx

theorem GroupStep.timer {x : TimerPhase} (hx : x.inGroup = s.timer.inGroup)
    (hs : s'.toGroup = (s.setTimer x).toGroup) : GroupStep s s' := by
  refine .inl (hs.trans ?_)
  rw [toGroup_setTimer]
  exact setCaller_self hx

theorem GroupStep.closer {c : Tid} {x : CloserPhase} (hx : x.inGroup = (s.closers c).inGroup)
    (hs : s'.toGroup = (s.setCloser c x).toGroup) : GroupStep s s' := by
  refine .inl (hs.trans ?_)
  rw [toGroup_setCloser]
  exact setCaller_self hx

theorem groupStep_worker {w : Tid} {a : WorkerAct} (ha : s.WorkerEnabled w a) :
    GroupStep s (s.workerNext w a) := by
  have at_ : ∀ {x : WorkerPhase}, s.workers w = x → s.toGroup.workers w = x.inGroup :=
    congrArg WorkerPhase.inGroup
  cases a with
  | attach => exact .inr ⟨.attach w, at_ ha, toGroup_setWorker ..⟩
  | getWorkExit => exact .inr ⟨.getWorkExit w, ⟨at_ ha.1, ha.2⟩, toGroup_setWorker ..⟩
  | getWorkPop e => exact .inr ⟨.getWorkPop w e, ⟨at_ ha.1, ha.2⟩, toGroup_setWorker ..⟩
  | getWorkWait => exact .inr ⟨.getWorkWait w, ⟨at_ ha.1, ha.2⟩, toGroup_setWorker ..⟩
  | wakeSpuriously => exact .inr ⟨.wakeSpuriously w, ha, rfl⟩
  | resume => exact .inr ⟨.resume w, ⟨at_ ha.1, ha.2⟩, toGroup_setWorker ..⟩
  | willRunTask q =>
      -- a refused worker is back in `get_work`
      cases hq : (s.seqs q).hasWorker with
      | true =>
          refine .inr ⟨.processed w false, at_ ha, ?_⟩
          simp only [workerNext, Sequence.willRunTask, hq]
          exact toGroup_setWorker ..
      | false =>
          refine .worker (w := w) (x := .claimed q) (at_ ha).symm ?_
          simp only [workerNext, Sequence.willRunTask, hq]
          rfl
  | takeTask q =>
      cases ht : ((s.seqs q).takeTask s.clock).1 with
      | some t =>
          refine .worker (w := w) (x := .took q t) (at_ ha).symm ?_
          simp only [workerNext, ht]
          rfl
      | none =>
          refine .worker (w := w) (x := .ran q) (at_ ha).symm ?_
          simp only [workerNext, ht]
          rfl
  | callTask q t => exact .worker (w := w) (x := .running q t .entered) (at_ ha).symm rfl
  | enterCallback q t =>
      simp only [workerNext, enterCallback]
      split
      · split
        · exact .worker (w := w) (x := .ran q) (at_ ha).symm rfl
        · exact .worker (w := w) (x := .running q t .body) (at_ ha).symm rfl
      · exact .worker (w := w) (x := .running q t .body) (at_ ha).symm rfl
  | callbackReturns q t =>
      simp only [workerNext, callbackReturns]
      split
      · exact .worker (w := w) (x := .running q t .returned) (at_ ha).symm rfl
      · exact .worker (w := w) (x := .ran q) (at_ ha).symm rfl
  | callbackPanics q t => exact .worker (w := w) (x := .dead q t) (at_ ha).symm rfl
  | afterRunTask q t =>
      simp only [workerNext, afterRunTask]
      split
      · exact .worker (w := w) (x := .ran q) (at_ ha).symm rfl
      · exact .inl rfl
  | clearHasWorker q => exact .worker (w := w) (x := .cleared q) (at_ ha).symm rfl
  | didProcessTask q =>
      refine .inr ⟨.processed w ((s.seqs q).didProcessTask s.clock), at_ ha, ?_⟩
      simp only [workerNext, toGroup_setWorker]
      cases (s.seqs q).didProcessTask s.clock <;> rfl
  | rePush q =>
      exact .inr ⟨.rePush w ⟨(s.seqs q).traits.priority, s.clock, q⟩, at_ ha, toGroup_setWorker ..⟩
  | notify o => exact .inr ⟨.notify w o, ⟨at_ ha.1, ha.2⟩, toGroup_setWorker ..⟩

theorem groupStep_poster {p : Tid} {a : PosterAct} (ha : s.PosterEnabled p a) :
    GroupStep s (s.posterNext p a) := by
  have at_ : ∀ {x : PosterPhase}, s.posters p = x →
      s.toGroup.callers (.poster p) = x.inGroup := congrArg PosterPhase.inGroup
  have deliver : ∀ d cb delay, (PosterPhase.deliver d cb delay).inGroup = .idle := by
    intro d cb delay
    cases delay <;> rfl
  cases a with
  | post path delay =>
      cases path with
      | pool traits =>
          exact .poster (p := p) (x := .gate traits s.nextPost delay) (at_ ha.1).symm rfl
      | parallel traits | sequenced q =>
          exact .poster (p := p) ((deliver ..).trans (at_ ha.1).symm) rfl
  | willPostTask traits id delay =>
      simp only [posterNext, willPostTask]
      split
      · exact .poster (p := p) ((deliver ..).trans (at_ ha).symm) rfl
      · exact .poster (p := p) (x := .idle) (at_ ha).symm rfl
  | readyTime d cb delay =>
      cases hr : instantAdd s.clock delay with
      | some r =>
          simp only [posterNext, hr]
          exact .poster (p := p) (x := .push d cb (some r)) (at_ ha).symm rfl
      | none =>
          simp only [posterNext, hr]
          exact .poster (p := p) (x := .panicked) (at_ ha).symm rfl
  | push d cb ready =>
      cases ready with
      | none =>
          refine .poster (p := p) (x := .pushSource (s.destSeq d)) (at_ ha).symm ?_
          cases d <;> rfl
      | some r =>
          refine .poster (p := p) (x := .addSequence (s.destSeq d) r) (at_ ha).symm ?_
          cases d <;> rfl
  | pushSource q =>
      exact .inr ⟨.pushTaskSource (.poster p) ⟨(s.seqs q).traits.priority, s.clock, q⟩, at_ ha,
        toGroup_setPoster ..⟩
  | addSequence q r => exact .poster (p := p) (x := .notifyTimer) (at_ ha).symm rfl
  | notifyGroup o =>
      exact .inr ⟨.notifyOne (.poster p) o, ⟨at_ ha.1, ha.2⟩, toGroup_setPoster ..⟩
  | notifyTimer => exact .poster (p := p) (x := .idle) (at_ ha).symm rfl

theorem groupStep_timer {a : TimerAct} (ha : s.TimerEnabled a) : GroupStep s (s.timerNext a) := by
  have at_ : ∀ {x : TimerPhase}, s.timer = x → s.toGroup.callers .timer = x.inGroup :=
    congrArg TimerPhase.inGroup
  cases a with
  | exit => exact .timer (x := .exited) (at_ ha.1).symm rfl
  | wait => exact .timer (x := .waiting) (at_ ha.1).symm rfl
  | pop e => exact .timer (x := .pushSource e.sequence) (at_ ha.1).symm rfl
  | waitTimeout e =>
      exact .timer (x := .timedWaiting (e.readyTime - s.clock) s.clock) (at_ ha.1).symm rfl
  | wakeUp => exact .inl rfl
  | resume =>
      refine .timer (x := .top) ?_ rfl
      obtain ⟨hw, -⟩ := ha
      cases ht : s.timer with
      | notifying => rw [ht] at hw; cases hw
      | _ => rfl
  | pushSource q =>
      exact .inr ⟨.pushTaskSource .timer ⟨(s.seqs q).traits.priority, s.clock, q⟩, at_ ha,
        toGroup_setTimer ..⟩
  | notify o => exact .inr ⟨.notifyOne .timer o, ⟨at_ ha.1, ha.2⟩, toGroup_setTimer ..⟩

/-- A closer waits for a worker that has left its loop: none has unwound. -/
theorem groupStep_closer (live : ∀ w, (s.workers w).unwound = false) {c : Tid} {a : CloserAct}
    (ha : s.CloserEnabled c a) : GroupStep s (s.closerNext c a) := by
  have at_ : ∀ {x : CloserPhase}, s.closers c = x → s.toGroup.callers (.closer c) = x.inGroup :=
    congrArg CloserPhase.inGroup
  cases a with
  | shutdown => exact .closer (c := c) (x := .mark) (at_ ha).symm rfl
  | mark =>
      refine .closer (c := c) (Eq.trans ?_ (at_ ha).symm) rfl
      split <;> rfl
  | waitDone => exact .closer (c := c) (x := .waiting) (at_ ha.1).symm rfl
  | wakeSpuriously => exact .inl rfl
  | resume => exact .closer (c := c) (x := .await) (at_ ha.1).symm rfl
  | doneWaiting => exact .closer (c := c) (x := .joinSet) (at_ ha.1).symm rfl
  | joinSet => exact .inr ⟨.joinAll (.closer c), at_ ha, toGroup_setCloser ..⟩
  | joinNotify => exact .inr ⟨.joinNotify (.closer c), at_ ha, toGroup_setCloser ..⟩
  | joinTake => exact .inr ⟨.joinTake (.closer c), at_ ha, toGroup_setCloser ..⟩
  | join w hs =>
      obtain ⟨hc, hw⟩ := ha
      have exited : s.workers w = .exited := by
        have alive := live w
        cases hx : s.workers w with
        | exited => rfl
        | dead q t => rw [hx] at alive; cases alive
        | _ => rw [hx] at hw; cases hw
      exact .inr ⟨.join (.closer c) w hs, ⟨at_ hc, congrArg WorkerPhase.inGroup exited⟩,
        toGroup_setCloser ..⟩
  | joined => exact .inr ⟨.joined (.closer c), at_ ha, toGroup_setCloser ..⟩
  | timerSet => exact .closer (c := c) (x := .timerNotify) (at_ ha).symm rfl
  | timerNotify => exact .closer (c := c) (x := .timerTake) (at_ ha).symm rfl
  | timerTake => exact .closer (c := c) (x := .timerJoin s.delayed.handle) (at_ ha).symm rfl
  | timerJoin h => exact .closer (c := c) (x := .returned) (at_ ha.1).symm rfl

theorem groupStep_next (live : ∀ w, (s.workers w).unwound = false) {a : Action}
    (ha : s.Enabled a) : GroupStep s (s.next a) := by
  cases a with
  | worker w a => exact groupStep_worker ha
  | poster p a => exact groupStep_poster ha
  | timer a => exact groupStep_timer ha
  | closer c a => exact groupStep_closer live ha
  | createRunner traits => exact .inl rfl
  | tick d => exact .inl rfl

end Pool

/-- **The pool's group is a group.**  Seen from its `ThreadGroup`, a run of the pool without
unwinding callbacks is a run of the group, with the posters, the timer thread and the threads in
`shutdown` for callers; so its workers lose no wake-up. -/
theorem pool_refines_group {s : Pool} (h : poolMachine.ReachableBy NoPanic s) :
    (groupMachine PoolCaller).Reachable s.toGroup := by
  refine h.refines (fun s h₀ => ?_) fun s a hr _ ha =>
    Pool.groupStep_next (reachable_not_unwound hr) ha
  obtain ⟨n, rfl⟩ := h₀
  refine ⟨n, ?_⟩
  simp only [Pool.toGroup, Pool.new, GroupState.new, GroupState.mk.injEq, true_and]
  refine ⟨?_, ?_⟩
  · funext w
    split <;> rfl
  · funext c
    cases c <;> rfl

end RustTask
