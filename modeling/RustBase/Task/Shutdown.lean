import RustBase.Task.Accounting

/-!
# Task — the shutdown of the tracker

The threads in `TaskTracker::shutdown` (`Settled`): one that left it saw a zero counter, which
stays, because no post is counted once `shutdown_started` is set; and nobody waits while the counter
is zero, because the decrement that reaches zero notifies under the lock.

With the ledger of `Accounting` this gives `blockShutdown_accounting`: `shutdown` goes on to stop
the workers only when every accepted `BlockShutdown` task has finished.
-/

namespace RustTask
open Support

/-! ### Phases of `TaskTracker::shutdown` -/

/-- Has set `shutdown_started`. -/
def CloserPhase.marked : CloserPhase → Bool
  | .idle | .mark => false
  | _ => true

/-- `TaskTracker::shutdown` has returned. -/
def CloserPhase.pastTracker : CloserPhase → Bool
  | .idle | .mark | .await | .waiting => false
  | _ => true

theorem CloserPhase.marked_of_pastTracker {x : CloserPhase} (h : x.pastTracker = true) :
    x.marked = true := by
  cases x <;> first | rfl | cases h

namespace Pool

variable {s s' : Pool}

/-- What the threads in `TaskTracker::shutdown` rely on. -/
structure Settled (s : Pool) : Prop where
  started : ∀ c, (s.closers c).marked = true → s.tracker.shutdownStarted = true
  zero : ∀ c, (s.closers c).pastTracker = true → s.tracker.numTasksBlockingShutdown = 0
  waiters : s.tracker.numTasksBlockingShutdown = 0 → s.tracker.shutdownDone.waiters = []

/-- What a step that is not a closer's does to the tracker. -/
theorem tracker_cases (a : Action) (hc : ∀ c b, a ≠ .closer c b) :
    (s.next a).closers = s.closers ∧ ((s.next a).tracker = s.tracker ∨
      (∃ traits, (s.next a).tracker = (s.tracker.willPostTask traits).2) ∨
      ∃ traits, (s.next a).tracker = s.tracker.afterRunTask traits) := by
  cases a with
  | worker w a =>
      cases a with
      | enterCallback q t =>
          simp only [next, workerNext, enterCallback]
          split
          · split <;> exact ⟨rfl, .inl rfl⟩
          · exact ⟨rfl, .inl rfl⟩
      | callbackReturns q t =>
          simp only [next, workerNext, callbackReturns]
          split <;> exact ⟨rfl, .inl rfl⟩
      | afterRunTask q t =>
          simp only [next, workerNext, afterRunTask]
          split
          · exact ⟨rfl, .inr (.inr ⟨_, rfl⟩)⟩
          · exact ⟨rfl, .inl rfl⟩
      | _ => exact ⟨rfl, .inl rfl⟩
  | poster p a =>
      cases a with
      | post path delay => cases path <;> exact ⟨rfl, .inl rfl⟩
      | willPostTask traits id delay =>
          simp only [next, posterNext, willPostTask]
          split <;> exact ⟨rfl, .inr (.inl ⟨traits, rfl⟩)⟩
      | push d cb ready =>
          cases d <;> cases ready <;> exact ⟨rfl, .inl rfl⟩
      | _ => exact ⟨rfl, .inl rfl⟩
  | timer a => cases a <;> exact ⟨rfl, .inl rfl⟩
  | closer c b => exact absurd rfl (hc c b)
  | createRunner traits => exact ⟨rfl, .inl rfl⟩
  | tick d => exact ⟨rfl, .inl rfl⟩

end Pool

namespace TaskTracker

variable {x : TaskTracker} {traits : TaskTraits}

theorem afterRunTask_started : (x.afterRunTask traits).shutdownStarted = x.shutdownStarted := by
  unfold afterRunTask; split <;> rfl

theorem afterRunTask_le :
    (x.afterRunTask traits).numTasksBlockingShutdown ≤ x.numTasksBlockingShutdown := by
  unfold afterRunTask; split
  · exact Nat.sub_le _ _
  · exact Nat.le_refl _

/-- The decrement that reaches zero notifies. -/
theorem afterRunTask_waiters (h : x.numTasksBlockingShutdown = 0 → x.shutdownDone.waiters = [])
    (h₀ : (x.afterRunTask traits).numTasksBlockingShutdown = 0) :
    (x.afterRunTask traits).shutdownDone.waiters = [] := by
  unfold afterRunTask at h₀ ⊢
  split
  · rw [if_pos ‹_›] at h₀
    simp only [if_pos (show x.numTasksBlockingShutdown - 1 = 0 from h₀), Condvar.waiters_notifyAll]
  · rw [if_neg ‹_›] at h₀
    exact h h₀

/-- Once shutdown has started the gate counts nothing. -/
theorem willPostTask_of_started (h : x.shutdownStarted = true) :
    (x.willPostTask traits).2 = x := by
  rcases x.willPostTask_cases traits with ⟨-, hs, -⟩ | ⟨hw, -⟩ | ⟨hw, -, -⟩
  · rw [h] at hs; cases hs
  · rw [hw]
  · rw [hw]

end TaskTracker

namespace Pool

variable {s s' : Pool}

theorem Settled.of_tracker (h : Settled s) (hc : s'.closers = s.closers)
    (hs : s.tracker.shutdownStarted = true → s'.tracker.shutdownStarted = true ∧
      s'.tracker.numTasksBlockingShutdown ≤ s.tracker.numTasksBlockingShutdown)
    (hw : s'.tracker.numTasksBlockingShutdown = 0 → s'.tracker.shutdownDone.waiters = []) :
    Settled s' := by
  refine ⟨fun c hm => ?_, fun c hp => ?_, hw⟩
  · rw [hc] at hm
    exact (hs (h.started c hm)).1
  · rw [hc] at hp
    have le := (hs (h.started c (CloserPhase.marked_of_pastTracker hp))).2
    exact Nat.le_zero.mp (h.zero c hp ▸ le)

/-- A closer's step to the phase `x`. -/
theorem Settled.setCloser (h : Settled s) {c : Tid} {x : CloserPhase}
    (hc : s'.closers = Function.update s.closers c x)
    (hs : s.tracker.shutdownStarted = true → s'.tracker.shutdownStarted = true)
    (hn : s'.tracker.numTasksBlockingShutdown = s.tracker.numTasksBlockingShutdown)
    (hw : s'.tracker.numTasksBlockingShutdown = 0 → s'.tracker.shutdownDone.waiters = [])
    (hm : x.marked = true → s'.tracker.shutdownStarted = true)
    (hp : x.pastTracker = true → s.tracker.numTasksBlockingShutdown = 0) : Settled s' := by
  refine ⟨fun u hu => ?_, fun u hu => ?_, hw⟩
  · by_cases e : u = c
    · subst e; rw [hc, Function.update_self] at hu; exact hm hu
    · rw [hc, Function.update_of_ne e] at hu; exact hs (h.started u hu)
  · rw [hn]
    by_cases e : u = c
    · subst e; rw [hc, Function.update_self] at hu; exact hp hu
    · rw [hc, Function.update_of_ne e] at hu; exact h.zero u hu

theorem settled_closer (h : Settled s) {c : Tid} {a : CloserAct} (ha : s.CloserEnabled c a) :
    Settled (s.closerNext c a) := by
  -- a step on from a phase past the mark, or past the tracker
  have on : ∀ {x y : CloserPhase} {s' : Pool}, s.closers c = x →
      (y.marked = true → x.marked = true) →
      (y.pastTracker = true → x.pastTracker = true) →
      s'.closers = Function.update s.closers c y → s'.tracker = s.tracker → Settled s' :=
    fun hx hm hp hc ht => h.setCloser hc (by rw [ht]; exact id) (by rw [ht])
      (by rw [ht]; exact h.waiters) (fun hy => by rw [ht]; exact h.started c (hx ▸ hm hy))
      fun hy => h.zero c (hx ▸ hp hy)
  cases a with
  | shutdown => exact on (y := .mark) ha nofun nofun rfl rfl
  | mark =>
      refine h.setCloser rfl (fun _ => rfl) rfl h.waiters (fun _ => rfl) fun hp => ?_
      split at hp
      · assumption
      · cases hp
  | waitDone =>
      obtain ⟨hc, hpos⟩ := ha
      refine h.setCloser (x := .waiting) rfl id rfl (fun h₀ => ?_) (fun _ => ?_) nofun
      · exact absurd h₀ (Nat.ne_of_gt hpos)
      · exact h.started c (by rw [hc]; rfl)
  | wakeSpuriously =>
      refine h.of_tracker rfl (fun hs => ⟨hs, Nat.le_refl _⟩) fun h₀ => ?_
      show List.filter _ _ = []
      rw [h.waiters h₀]; rfl
  | resume => exact on (y := .await) ha.1 (fun _ => rfl) nofun rfl rfl
  | doneWaiting =>
      obtain ⟨hc, h₀⟩ := ha
      exact h.setCloser (x := .joinSet) rfl id rfl h.waiters
        (fun _ => h.started c (by rw [hc]; rfl)) fun _ => h₀
  | joinSet => exact on (y := .joinNotify) ha (fun _ => rfl) (fun _ => rfl) rfl rfl
  | joinNotify => exact on (y := .joinTake) ha (fun _ => rfl) (fun _ => rfl) rfl rfl
  | joinTake => exact on (y := .joining s.group.handles) ha (fun _ => rfl) (fun _ => rfl) rfl rfl
  | join w hs => exact on (y := .joining hs) ha.1 (fun _ => rfl) (fun _ => rfl) rfl rfl
  | joined => exact on (y := .timerSet) ha (fun _ => rfl) (fun _ => rfl) rfl rfl
  | timerSet => exact on (y := .timerNotify) ha (fun _ => rfl) (fun _ => rfl) rfl rfl
  | timerNotify => exact on (y := .timerTake) ha (fun _ => rfl) (fun _ => rfl) rfl rfl
  | timerTake =>
      exact on (y := .timerJoin s.delayed.handle) ha (fun _ => rfl) (fun _ => rfl) rfl rfl
  | timerJoin b => exact on (y := .returned) ha.1 (fun _ => rfl) (fun _ => rfl) rfl rfl

/-- Once shutdown has started it stays so, and the counter does not grow. -/
theorem started_next (a : Action) (h : s.tracker.shutdownStarted = true) :
    (s.next a).tracker.shutdownStarted = true ∧
      (s.next a).tracker.numTasksBlockingShutdown ≤ s.tracker.numTasksBlockingShutdown := by
  by_cases hc : ∀ c b, a ≠ .closer c b
  · obtain ⟨-, ht | ⟨traits, ht⟩ | ⟨traits, ht⟩⟩ := tracker_cases (s := s) a hc
    · rw [ht]; exact ⟨h, Nat.le_refl _⟩
    · rw [ht, TaskTracker.willPostTask_of_started h]; exact ⟨h, Nat.le_refl _⟩
    · rw [ht, TaskTracker.afterRunTask_started]; exact ⟨h, TaskTracker.afterRunTask_le⟩
  · push Not at hc
    obtain ⟨c, b, rfl⟩ := hc
    cases b <;> first | exact ⟨h, Nat.le_refl _⟩ | exact ⟨rfl, Nat.le_refl _⟩

theorem settled_next (h : Settled s) {a : Action} (ha : s.Enabled a) : Settled (s.next a) := by
  by_cases hc : ∀ c b, a ≠ .closer c b
  · obtain ⟨hcl, ht⟩ := tracker_cases (s := s) a hc
    refine h.of_tracker hcl (started_next a) fun h₀ => ?_
    rcases ht with ht | ⟨traits, ht⟩ | ⟨traits, ht⟩
    · rw [ht] at h₀ ⊢; exact h.waiters h₀
    · rw [ht] at h₀ ⊢
      rcases s.tracker.willPostTask_cases traits with ⟨hw, -, -⟩ | ⟨hw, -⟩ | ⟨hw, -, -⟩
      · rw [hw] at h₀; cases h₀
      · rw [hw] at h₀ ⊢; exact h.waiters h₀
      · rw [hw] at h₀ ⊢; exact h.waiters h₀
    · rw [ht] at h₀ ⊢; exact TaskTracker.afterRunTask_waiters h.waiters h₀
  · push Not at hc
    obtain ⟨c, b, rfl⟩ := hc
    exact settled_closer h ha

theorem settled_new (n : ℕ) : Settled (Pool.new n) := ⟨nofun, nofun, fun _ => rfl⟩

end Pool

theorem reachable_settled {C : Pool → Pool.Action → Prop} {s : Pool}
    (h : poolMachine.ReachableBy C s) : s.Settled := by
  refine h.invariant (fun s h₀ => ?_) fun s a _ hi _ ha => Pool.settled_next hi ha
  obtain ⟨n, rfl⟩ := h₀
  exact Pool.settled_new n

/-! ### The accounting -/

/-- **`BlockShutdown` accounting.**  In every state that runs without unwinding callbacks reach:

* the counter is the number of accepted `BlockShutdown` posts whose wrapped callback has not
  returned, and `after_run_task` finds it positive;
* once `shutdown_started` is set the counter never grows again, and the gate turns a post that is
  not `ContinueOnShutdown` away;
* a thread that has left `TaskTracker::shutdown` finds the counter at zero and every accepted
  `BlockShutdown` task finished;
* a thread that waits while the counter is zero has been notified and can go on. -/
theorem blockShutdown_accounting {s : Pool} (h : poolMachine.ReachableBy NoPanic s) :
    (s.blockIds.Nodup ∧
      s.tracker.numTasksBlockingShutdown = (s.blockIds.filter (· ∉ s.finishedIds)).length) ∧
    (∀ w q t, s.workers w = .running q t .returned → t.callback.blocks = true →
      0 < s.tracker.numTasksBlockingShutdown) ∧
    (s.tracker.shutdownStarted = true → ∀ s', poolMachine.Run NoPanic s s' →
      s'.tracker.shutdownStarted = true ∧
      s'.tracker.numTasksBlockingShutdown ≤ s.tracker.numTasksBlockingShutdown) ∧
    (∀ p traits id delay, s.posters p = .gate traits id delay →
      s.tracker.shutdownStarted = true → traits.shutdownBehavior ≠ .continueOnShutdown →
      s.next (.poster p (.willPostTask traits id delay)) =
        (s.setPoster p .idle).emit (.rejected id)) ∧
    (∀ c, (s.closers c).pastTracker = true →
      s.tracker.numTasksBlockingShutdown = 0 ∧ ∀ id ∈ s.blockIds, id ∈ s.finishedIds) ∧
    (∀ c, s.closers c = .waiting → s.tracker.numTasksBlockingShutdown = 0 →
      poolMachine.Enabled s (.closer c .resume)) := by
  have hb := reachable_balanced h
  have hs := reachable_settled h
  refine ⟨⟨hb.opened_nodup, hb.count_eq⟩, fun w q t hw ht => ?_, fun h₁ s' hr => ?_,
    fun p traits id delay _ h₁ h₂ => ?_, fun c hc => ?_, fun c hc h₀ => ?_⟩
  · have held : (t.callback.id, true) ∈ s.jobs (.worker w) := by
      simp [Pool.jobs, hw, WorkerPhase.jobs, Callback.job, ht]
    exact hb.count_pos held
  · -- each step keeps the flag and does not raise the counter
    have keep := hr.keeps (I := fun x => x.tracker.shutdownStarted = true ∧
      x.tracker.numTasksBlockingShutdown ≤ s.tracker.numTasksBlockingShutdown)
      (fun x a hx _ => ?_) ⟨h₁, Nat.le_refl _⟩
    · exact keep
    · have hn := Pool.started_next a hx.1
      exact ⟨hn.1, hn.2.trans hx.2⟩
  · rcases s.tracker.willPostTask_cases traits with ⟨-, hf, -⟩ | ⟨hw, hne⟩ | ⟨hw, -, -⟩
    · rw [h₁] at hf; cases hf
    · have : (s.tracker.willPostTask traits).1 = false := by
        simp [TaskTracker.willPostTask, h₁, h₂]
      rw [hw] at this; cases this
    · simp [Pool.next, Pool.posterNext, Pool.willPostTask, hw]
  · have h₀ := hs.zero c hc
    exact ⟨h₀, hb.closed_of_count_zero h₀⟩
  · refine ⟨hc, ?_⟩
    rw [hs.waiters h₀]
    exact List.not_mem_nil

def blockTraits : TaskTraits := { TaskTraits.default with shutdownBehavior := .blockShutdown }

/-- A `BlockShutdown` task is queued, a thread calls `shutdown` and waits for it, the task runs, and
the thread goes on. -/
def blockRun : List Pool.Action :=
  [.poster 0 (.post (.pool blockTraits) none), .poster 0 (.willPostTask blockTraits 0 none),
   .poster 0 (.push (.own blockTraits) (.wrapped blockTraits 0) none),
   .poster 0 (.pushSource 0),
   .closer 0 .shutdown, .closer 0 .mark, .closer 0 .waitDone,
   .worker 0 (.getWorkPop ⟨.userVisible, 0, 0⟩), .worker 0 (.willRunTask 0),
   .worker 0 (.takeTask 0), .worker 0 (.callTask 0 ⟨.wrapped blockTraits 0, 0⟩),
   .worker 0 (.enterCallback 0 ⟨.wrapped blockTraits 0, 0⟩),
   .worker 0 (.callbackReturns 0 ⟨.wrapped blockTraits 0, 0⟩),
   .worker 0 (.afterRunTask 0 ⟨.wrapped blockTraits 0, 0⟩),
   .closer 0 .resume, .closer 0 .doneWaiting]

theorem blockRun_accounting :
    let s := poolMachine.runList (Pool.new 1) blockRun
    s.closers 0 = .joinSet ∧ s.blockIds = [0] ∧ s.tracker.numTasksBlockingShutdown = 0 ∧
      ∀ id ∈ s.blockIds, id ∈ s.finishedIds := by
  have follows : poolMachine.Follows NoPanic (Pool.new 1) blockRun := by decide +kernel
  obtain ⟨-, -, -, -, past, -⟩ := blockShutdown_accounting (.of_follows ⟨1, rfl⟩ follows)
  obtain ⟨zero, finished⟩ := past 0 (by decide +kernel)
  exact ⟨by decide +kernel, by decide +kernel, zero, finished⟩

end RustTask
