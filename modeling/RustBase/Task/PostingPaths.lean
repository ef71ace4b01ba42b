import RustBase.Task.Shutdown

/-!
# Task — the posting paths and shutdown

`ThreadPool::post_task` asks the tracker and wraps the callback; the task runners of the pool do
neither.  `TreatedAlike` compares the two paths for one set of traits: is the post let in, is it
counted, and is its callback skipped when a worker calls it.

* `runner_treatedAlike_iff`: they agree exactly for `ContinueOnShutdown`, and for `SkipOnShutdown`
  as long as shutdown has not started when the task is posted and when it is called.
* `runnerRun_returns`: `shutdown` returns while a `BlockShutdown` task of a runner is unfinished.
-/

namespace RustTask
open Support

/-- A task runner of the pool, by `create_sequenced_task_runner` or `create_task_runner`. -/
inductive Runner where
  | sequenced (q : SeqId)
  | parallel (traits : TaskTraits)
  deriving DecidableEq

def Runner.path : Runner → Path
  | .sequenced q => .sequenced q
  | .parallel traits => .parallel traits

/-- The callback a post has ready to deliver, if it was let in. -/
def PosterPhase.callback? : PosterPhase → Option Callback
  | .readClock _ cb _ | .push _ cb _ => some cb
  | _ => none

namespace Pool

/-- The traits a runner was made with. -/
def runnerTraits (s : Pool) : Runner → TaskTraits
  | .sequenced q => (s.seqs q).traits
  | .parallel traits => traits

/-- The steps of a posting function up to the one that builds its task: the gate is passed where
there is one. -/
def afterGate (s : Pool) (p : Tid) (path : Path) (delay : Option ℕ) : Pool :=
  let s := s.posterNext p (.post path delay)
  match s.posters p with
  | .gate traits id delay => s.posterNext p (.willPostTask traits id delay)
  | _ => s

/-- A worker that calls `cb` returns from it without running the poster's closure. -/
def Skips (s : Pool) (cb : Callback) : Prop :=
  ∀ w q n, (s.workerNext w (.enterCallback q ⟨cb, n⟩)).workers w = .ran q

/-- The runner's post made in `s`, and its task called in `x`, are treated as
`ThreadPool::post_task` (or `post_delayed_task`) with the same traits would be. -/
structure TreatedAlike (s x : Pool) (p : Tid) (r : Runner) (delay : Option ℕ) : Prop where
  accepted : ((s.afterGate p r.path delay).posters p).callback?.isSome =
    ((s.afterGate p (.pool (s.runnerTraits r)) delay).posters p).callback?.isSome
  counted : (s.afterGate p r.path delay).tracker.numTasksBlockingShutdown =
    (s.afterGate p (.pool (s.runnerTraits r)) delay).tracker.numTasksBlockingShutdown
  skipped : ∀ cb cb', ((s.afterGate p r.path delay).posters p).callback? = some cb →
    ((s.afterGate p (.pool (s.runnerTraits r)) delay).posters p).callback? = some cb' →
    (x.Skips cb ↔ x.Skips cb')

variable {x : Pool}

theorem callback_deliver (d : Dest) (cb : Callback) (delay : Option ℕ) :
    (PosterPhase.deliver d cb delay).callback? = some cb := by
  cases delay <;> rfl

/-- A runner lets every post in, counts none and hands the callback on as it is. -/
theorem afterGate_runner (s : Pool) (p : Tid) (r : Runner) (delay : Option ℕ) :
    ((s.afterGate p r.path delay).posters p).callback? = some (.plain s.nextPost) ∧
      (s.afterGate p r.path delay).tracker = s.tracker := by
  cases r <;> cases delay <;>
    simp [afterGate, Runner.path, posterNext, post, setPoster, emit, PosterPhase.deliver,
      PosterPhase.callback?]

/-- The pool's own post is let in, wrapped, or turned away, as the gate says. -/
theorem afterGate_pool (s : Pool) (p : Tid) (traits : TaskTraits) (delay : Option ℕ) :
    ((s.afterGate p (.pool traits) delay).posters p).callback? =
        (if (s.tracker.willPostTask traits).1 then some (.wrapped traits s.nextPost) else none) ∧
      (s.afterGate p (.pool traits) delay).tracker = (s.tracker.willPostTask traits).2 := by
  have gate : (s.posterNext p (.post (.pool traits) delay)).posters p =
      .gate traits s.nextPost delay := Function.update_self ..
  have passed : s.afterGate p (.pool traits) delay =
      (s.post p (.pool traits) delay).willPostTask p traits s.nextPost delay := by
    simp only [afterGate, gate]; rfl
  have tracker : (s.post p (.pool traits) delay).tracker = s.tracker := rfl
  rw [passed]
  cases h : (s.tracker.willPostTask traits).1 with
  | true => simp [willPostTask, tracker, h, emit, setPoster, callback_deliver]
  | false => simp [willPostTask, tracker, h, emit, setPoster, PosterPhase.callback?]

theorem not_skips_plain (id : ℕ) : ¬ x.Skips (.plain id) := fun h => by
  have := h 0 0 0
  simp [workerNext, enterCallback, emit, setWorker] at this

theorem skips_wrapped_iff (traits : TaskTraits) (id : ℕ) :
    x.Skips (.wrapped traits id) ↔
      x.tracker.shutdownStarted = true ∧ traits.shutdownBehavior = .skipOnShutdown := by
  constructor
  · intro h
    by_contra hc
    have := h 0 0 0
    simp [workerNext, enterCallback, hc, emit, setWorker] at this
  · intro hc w q n
    simp [workerNext, enterCallback, hc.1, hc.2, emit, setWorker]

end Pool

/-- **A runner's post is treated as the pool's own** exactly when the traits are
`ContinueOnShutdown`, or `SkipOnShutdown` with shutdown not started at the post and at the call. -/
theorem runner_treatedAlike_iff (s x : Pool) (p : Tid) (r : Runner) (delay : Option ℕ) :
    s.TreatedAlike x p r delay ↔
      (s.runnerTraits r).shutdownBehavior = .continueOnShutdown ∨
      (s.runnerTraits r).shutdownBehavior = .skipOnShutdown ∧
        s.tracker.shutdownStarted = false ∧ x.tracker.shutdownStarted = false := by
  obtain ⟨hr₁, hr₂⟩ := s.afterGate_runner p r delay
  obtain ⟨hp₁, hp₂⟩ := s.afterGate_pool p (s.runnerTraits r) delay
  constructor
  · intro ⟨ha, hc, hs⟩
    rw [hr₁, hp₁] at ha
    rw [hr₂, hp₂] at hc
    rcases s.tracker.willPostTask_cases (s.runnerTraits r) with ⟨hw, -, -⟩ | ⟨hw, hb⟩ | ⟨hw, -, -⟩
    · -- counted on one path only
      rw [hw] at hc
      exact absurd hc (Nat.ne_of_lt (Nat.lt_succ_self _))
    · rw [hw] at hp₁
      have alike := hs _ _ hr₁ hp₁
      rw [Pool.skips_wrapped_iff, iff_false_left (Pool.not_skips_plain _)] at alike
      cases hk : (s.runnerTraits r).shutdownBehavior with
      | blockShutdown => exact absurd hk hb
      | continueOnShutdown => exact .inl rfl
      | skipOnShutdown =>
          refine .inr ⟨rfl, ?_, ?_⟩
          · cases h₁ : s.tracker.shutdownStarted with
            | false => rfl
            | true => simp [TaskTracker.willPostTask, h₁, hk] at hw
          · cases h₂ : x.tracker.shutdownStarted with
            | false => rfl
            | true => exact absurd ⟨h₂, hk⟩ alike
    · -- let in on one path only
      rw [hw] at ha
      cases ha
  · intro h
    have hw : s.tracker.willPostTask (s.runnerTraits r) = (true, s.tracker) := by
      rcases h with hk | ⟨hk, h₁, -⟩
      · simp [TaskTracker.willPostTask, hk]
      · simp [TaskTracker.willPostTask, hk, h₁]
    refine ⟨by rw [hr₁, hp₁, hw]; rfl, by rw [hr₂, hp₂, hw], fun cb cb' h₁ h₂ => ?_⟩
    rw [hr₁] at h₁
    rw [hp₁, hw] at h₂
    cases h₁
    cases h₂
    rw [Pool.skips_wrapped_iff, iff_false_left (Pool.not_skips_plain _)]
    rintro ⟨hx, hk'⟩
    rcases h with hk | ⟨-, -, h₂⟩
    · rw [hk] at hk'; cases hk'
    · rw [hx] at h₂; cases h₂

/-- A `BlockShutdown` task is posted through a runner; then a thread calls `shutdown`. -/
def runnerRun : List Pool.Action :=
  [.createRunner blockTraits,
   .poster 0 (.post (.sequenced 0) none), .poster 0 (.push (.runner 0) (.plain 0) none),
   .poster 0 (.pushSource 0), .poster 0 (.notifyGroup none),
   .closer 0 .shutdown, .closer 0 .mark, .closer 0 .joinSet, .closer 0 .joinNotify,
   .closer 0 .joinTake, .worker 0 .getWorkExit, .closer 0 (.join 0 []), .closer 0 .joined,
   .closer 0 .timerSet, .closer 0 .timerNotify, .closer 0 .timerTake, .timer .exit,
   .closer 0 (.timerJoin true)]

/-- `shutdown` has returned, and the `BlockShutdown` task the runner accepted has not run; at its
post the two paths already differ. -/
theorem runnerRun_returns :
    let s := poolMachine.runList (Pool.new 1) runnerRun
    poolMachine.ReachableBy NoPanic s ∧ s.closers 0 = .returned ∧
      (s.seqs 0).traits.shutdownBehavior = .blockShutdown ∧
      .accepted 0 (.sequenced 0) ∈ s.log ∧ 0 ∉ s.finishedIds ∧
      ¬ ((Pool.new 1).createRunner blockTraits).TreatedAlike s 0 (.sequenced 0) none := by
  exact ⟨.of_follows ⟨1, rfl⟩ (by decide +kernel), by decide +kernel, by decide +kernel,
    by decide +kernel, by decide +kernel, fun h => absurd h.counted (by decide)⟩

end RustTask
