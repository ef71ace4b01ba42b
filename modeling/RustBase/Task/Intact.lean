import Mathlib.Data.Set.Card
import RustBase.Task.Delivery
import RustBase.Task.PostingPaths

/-!
# Task — what a pool promises of its flags and of its counter

* `Intact`: the flag of a sequence is set only while a live worker is in the claim section, and the
  counter counts the accepted `BlockShutdown` tasks that have not ended, whichever of the three ways
  they were posted.
* **`intact_iff`**: a reachable state is intact exactly when no callback has unwound on the way to
  it and every `BlockShutdown` task that a runner accepted has ended.

The flag tells the unwindings apart: the worker that unwound keeps it set.  The counter counts what
`will_post_task` let in (`Balanced`); the runners let their tasks in without it, under numbers of
their own (`AcceptedOnce`), so each of them that has not ended is one the counter lacks.
-/

namespace RustTask
open Support

/-- The post whose callback a worker unwound out of. -/
def WorkerPhase.unwoundId : WorkerPhase → Option ℕ
  | .dead _ t => some t.callback.id
  | _ => none

/-- The path is one of the two runners'. -/
def Path.ofRunner : Path → Bool
  | .pool _ => false
  | .parallel _ | .sequenced _ => true

namespace Pool

variable {s : Pool} {id : ℕ} {path : Path}

/-- The task of a post has ended: its callback returned, or a worker unwound out of it. -/
def Ended (s : Pool) (id : ℕ) : Prop :=
  id ∈ s.finishedIds ∨ ∃ w, (s.workers w).unwoundId = some id

/-- The traits of a task posted by this path: a sequenced runner's are its sequence's. -/
def pathTraits (s : Pool) : Path → TaskTraits
  | .pool traits | .parallel traits => traits
  | .sequenced q => (s.seqs q).traits

/-- A `BlockShutdown` task was accepted as the post `id`. -/
def BlockAccepted (s : Pool) (id : ℕ) (path : Path) : Prop :=
  .accepted id path ∈ s.log ∧ (s.pathTraits path).shutdownBehavior = .blockShutdown

/-- The accepted `BlockShutdown` tasks that have not ended. -/
def blocking (s : Pool) : Set ℕ := {id | (∃ path, s.BlockAccepted id path) ∧ ¬ s.Ended id}

/-- What the pool promises of its flags and of its counter. -/
structure Intact (s : Pool) : Prop where
  flag : ∀ q, (s.seqs q).hasWorker = true → ∃ w, (s.workers w).claim = some q
  count : s.tracker.numTasksBlockingShutdown = s.blocking.ncard

/-- Every `BlockShutdown` task that a runner accepted has ended. -/
def RunnerTasksEnded (s : Pool) : Prop :=
  ∀ id path, s.BlockAccepted id path → path.ofRunner = true → s.Ended id

/-! ### The counter -/

/-- The posts that the tracker counts are the `BlockShutdown` tasks of `ThreadPool`'s own path. -/
theorem mem_blockIds : id ∈ s.blockIds ↔ ∃ traits, s.BlockAccepted id (.pool traits) := by
  rw [blockIds, List.mem_filterMap]
  constructor
  · rintro ⟨e, he, hb⟩
    cases e with
    | accepted k path =>
        cases path with
        | pool traits =>
            simp only [Event.blockId, Option.ite_none_right_eq_some, Option.some.injEq] at hb
            obtain ⟨ht, rfl⟩ := hb
            exact ⟨traits, he, ht⟩
        | parallel traits | sequenced q => cases hb
    | _ => cases hb
  · rintro ⟨traits, he, ht⟩
    exact ⟨_, he, if_pos ht⟩

/-- The posts the tracker counts. -/
def counted (s : Pool) : Finset ℕ := (s.blockIds.filter (· ∉ s.finishedIds)).toFinset

theorem card_counted (hb : s.Balanced) :
    s.counted.card = s.tracker.numTasksBlockingShutdown := by
  rw [counted, List.toFinset_card_of_nodup (hb.opened_nodup.filter _)]
  exact hb.count_eq.symm

theorem ended_iff (h : ∀ w, (s.workers w).unwound = false) : s.Ended id ↔ id ∈ s.finishedIds := by
  refine ⟨?_, .inl⟩
  rintro (hf | ⟨w, hw⟩)
  · exact hf
  · have hu := h w
    cases hx : s.workers w with
    | dead q t => rw [hx] at hu; cases hu
    | _ => rw [hx] at hw; cases hw

/-- Without an unwinding, what the counter counts are the blocking tasks of `ThreadPool`'s path. -/
theorem mem_counted (h : ∀ w, (s.workers w).unwound = false) :
    id ∈ s.counted ↔ (∃ traits, s.BlockAccepted id (.pool traits)) ∧ ¬ s.Ended id := by
  rw [ended_iff h, ← mem_blockIds]
  simp [counted]

theorem counted_subset (h : ∀ w, (s.workers w).unwound = false) : ↑s.counted ⊆ s.blocking := by
  intro id hid
  obtain ⟨⟨traits, ha⟩, he⟩ := (mem_counted h).mp hid
  exact ⟨⟨_, ha⟩, he⟩

/-- A state has accepted finitely many posts. -/
theorem finite_blocking (h : s.AcceptedOnce) : s.blocking.Finite :=
  (Set.finite_lt_nat s.nextPost).subset fun _ hid => by
    obtain ⟨⟨_, hm, -⟩, -⟩ := hid
    exact h.lt hm

/-- The counter is the number of the blocking tasks exactly when no runner holds one. -/
theorem count_iff (hb : s.Balanced) (ho : s.AcceptedOnce)
    (h : ∀ w, (s.workers w).unwound = false) :
    s.tracker.numTasksBlockingShutdown = s.blocking.ncard ↔ s.RunnerTasksEnded := by
  rw [← card_counted hb, ← Set.ncard_coe_finset]
  constructor
  · intro hc id path ha hr
    by_contra he
    have same := Set.eq_of_subset_of_ncard_le (counted_subset h) hc.ge (finite_blocking ho)
    have mem : id ∈ s.blocking := ⟨⟨path, ha⟩, he⟩
    rw [← same] at mem
    -- the counter would count it as a post of the pool's own path
    obtain ⟨⟨traits, hp⟩, -⟩ := (mem_counted h).mp mem
    rw [ho.path ha.1 hp.1] at hr
    cases hr
  · intro hr
    congr 1
    refine (counted_subset h).antisymm fun id hid => ?_
    obtain ⟨⟨path, ha⟩, he⟩ := hid
    refine (mem_counted h).mpr ⟨?_, he⟩
    cases path with
    | pool traits => exact ⟨traits, ha⟩
    | parallel traits | sequenced q => exact absurd (hr id _ ha rfl) he

/-! ### Intact states -/

/-- The flag of a sequence whose worker unwound is that worker's, which is in no claim section. -/
theorem Intact.not_unwound (hi : s.Intact) (he : s.HolderExclusive) (w : Tid) :
    (s.workers w).unwound = false := by
  by_contra hu
  obtain ⟨q, t, hw⟩ := Pool.dead_of_unwound (Bool.eq_true_of_not_eq_false hu)
  have holds : (s.workers w).holder = some q := by rw [hw]; rfl
  obtain ⟨u, hc⟩ := hi.flag q (he.flagged w q holds)
  have live : (s.workers u).unwound = false := by
    cases hx : s.workers u with
    | dead => rw [hx] at hc; cases hc
    | _ => rfl
  have e : u = w := he.unique u w q (WorkerPhase.claim_eq_holder live ▸ hc) holds
  rw [e, hw] at hc
  cases hc

end Pool

/-- **What the pool promises holds exactly without unwinding and without tasks the tracker never
sees.**  In every reachable state `has_worker` is set only while a live worker is in the claim
section, and the counter is the number of accepted `BlockShutdown` tasks that have not ended, if and
only if the state is reached without a callback that unwinds and every `BlockShutdown` task that a
runner accepted has ended. -/
theorem intact_iff {s : Pool} (h : poolMachine.Reachable s) :
    s.Intact ↔ poolMachine.ReachableBy NoPanic s ∧ s.RunnerTasksEnded := by
  have count := Pool.count_iff (reachable_balanced h) (reachable_acceptedOnce h)
  constructor
  · intro hi
    have hu := hi.not_unwound (reachable_holderExclusive h)
    exact ⟨noPanic_of_not_unwound h hu, (count hu).mp hi.count⟩
  · rintro ⟨hn, hr⟩
    exact ⟨(reachable_claimExclusive hn).held, (count (reachable_not_unwound hn)).mpr hr⟩

/-- A `BlockShutdown` task is posted to the pool and another one through a runner, and a worker runs
the runner's. -/
def runnerDoneRun : List Pool.Action :=
  [.createRunner blockTraits,
   .poster 0 (.post (.pool blockTraits) none), .poster 0 (.willPostTask blockTraits 0 none),
   .poster 0 (.push (.own blockTraits) (.wrapped blockTraits 0) none),
   .poster 1 (.post (.sequenced 0) none), .poster 1 (.push (.runner 0) (.plain 1) none),
   .poster 1 (.pushSource 0),
   .worker 0 (.getWorkPop ⟨.userVisible, 0, 0⟩), .worker 0 (.willRunTask 0),
   .worker 0 (.takeTask 0), .worker 0 (.callTask 0 ⟨.plain 1, 0⟩),
   .worker 0 (.enterCallback 0 ⟨.plain 1, 0⟩), .worker 0 (.callbackReturns 0 ⟨.plain 1, 0⟩)]

/-- The runner's task has ended and the pool's has not: the state is intact, with the counter at
one. -/
theorem runnerDoneRun_intact :
    let s := poolMachine.runList (Pool.new 1) runnerDoneRun
    s.BlockAccepted 0 (.pool blockTraits) ∧ s.BlockAccepted 1 (.sequenced 0) ∧
      s.tracker.numTasksBlockingShutdown = 1 ∧ s.Intact := by
  have follows : poolMachine.Follows NoPanic (Pool.new 1) runnerDoneRun := by decide +kernel
  have any : poolMachine.Follows (fun _ _ => True) (Pool.new 1) runnerDoneRun := by decide +kernel
  have reach : poolMachine.Reachable (poolMachine.runList (Pool.new 1) runnerDoneRun) :=
    .of_follows ⟨1, rfl⟩ any
  have once := reachable_acceptedOnce reach
  have pool : .accepted 0 (.pool blockTraits) ∈
      (poolMachine.runList (Pool.new 1) runnerDoneRun).log := by decide +kernel
  have returned : 1 ∈ (poolMachine.runList (Pool.new 1) runnerDoneRun).finishedIds := by
    decide +kernel
  have two : (poolMachine.runList (Pool.new 1) runnerDoneRun).nextPost = 2 := by decide +kernel
  have ended : (poolMachine.runList (Pool.new 1) runnerDoneRun).RunnerTasksEnded := by
    intro id path ha hr
    have lt := once.lt ha.1
    rw [two] at lt
    rcases (by omega : id = 0 ∨ id = 1) with rfl | rfl
    · rw [once.path ha.1 pool] at hr
      cases hr
    · exact .inl returned
  exact ⟨⟨pool, rfl⟩, ⟨by decide +kernel, by decide +kernel⟩, by decide +kernel,
    (intact_iff reach).mpr ⟨.of_follows ⟨1, rfl⟩ follows, ended⟩⟩

/-- A `BlockShutdown` task and two tasks of a runner are queued; the first worker unwinds out of the
`BlockShutdown` task, the second one out of the runner's first task. -/
def panicRun : List Pool.Action :=
  [.createRunner .default,
   .poster 0 (.post (.pool blockTraits) none), .poster 0 (.willPostTask blockTraits 0 none),
   .poster 0 (.push (.own blockTraits) (.wrapped blockTraits 0) none),
   .poster 0 (.pushSource 1), .poster 0 (.notifyGroup none),
   .poster 0 (.post (.sequenced 0) none), .poster 0 (.push (.runner 0) (.plain 1) none),
   .poster 0 (.pushSource 0), .poster 0 (.notifyGroup none),
   .poster 0 (.post (.sequenced 0) none), .poster 0 (.push (.runner 0) (.plain 2) none),
   .poster 0 (.pushSource 0), .poster 0 (.notifyGroup none),
   .worker 0 (.getWorkPop ⟨.userVisible, 0, 1⟩), .worker 0 (.willRunTask 1),
   .worker 0 (.takeTask 1), .worker 0 (.callTask 1 ⟨.wrapped blockTraits 0, 0⟩),
   .worker 0 (.enterCallback 1 ⟨.wrapped blockTraits 0, 0⟩),
   .worker 0 (.callbackPanics 1 ⟨.wrapped blockTraits 0, 0⟩),
   .worker 1 (.getWorkPop ⟨.userVisible, 0, 0⟩), .worker 1 (.willRunTask 0),
   .worker 1 (.takeTask 0), .worker 1 (.callTask 0 ⟨.plain 1, 0⟩),
   .worker 1 (.enterCallback 0 ⟨.plain 1, 0⟩), .worker 1 (.callbackPanics 0 ⟨.plain 1, 0⟩)]

/-- After `panicRun` both flags are set with no live worker, the counter is one though the only
`BlockShutdown` task has ended, the runner's second task is queued and never claimed, and `shutdown`
waits for ever.  After `runnerRun`, without an unwinding, the counter is zero though the
`BlockShutdown` task the runner accepted has not ended. -/
theorem panicRun_not_intact :
    (let s := poolMachine.runList (Pool.new 2) panicRun
     poolMachine.Reachable s ∧ ¬ s.Intact ∧
      (s.seqs 0).hasWorker = true ∧ (s.seqs 0).queueNums = [1] ∧ s.NeverClaimed 0 ∧
      s.blockIds = [0] ∧ s.Ended 0 ∧ s.tracker.numTasksBlockingShutdown = 1 ∧
      s.NeverShutsDown) ∧
    (let s := poolMachine.runList (Pool.new 1) runnerRun
     poolMachine.ReachableBy NoPanic s ∧ ¬ s.Intact ∧
      s.tracker.numTasksBlockingShutdown = 0 ∧ 0 ∈ s.blocking) := by
  constructor
  · have follows : poolMachine.Follows (fun _ _ => True) (Pool.new 2) panicRun := by
      decide +kernel
    have reach : poolMachine.Reachable (poolMachine.runList (Pool.new 2) panicRun) :=
      .of_follows ⟨2, rfl⟩ follows
    have first : (poolMachine.runList (Pool.new 2) panicRun).workers 0 =
        .dead 1 ⟨.wrapped blockTraits 0, 0⟩ := by decide +kernel
    have second : (poolMachine.runList (Pool.new 2) panicRun).workers 1 =
        .dead 0 ⟨.plain 1, 0⟩ := by decide +kernel
    refine ⟨reach, fun hi => ?_, by decide +kernel, by decide +kernel, never_claimed reach second,
      by decide +kernel, .inr ⟨0, ?_⟩, by decide +kernel, never_shuts_down reach first rfl⟩
    · have live := hi.not_unwound (reachable_holderExclusive reach) 0
      rw [first] at live
      cases live
    · rw [first]; rfl
  · have follows : poolMachine.Follows NoPanic (Pool.new 1) runnerRun := by decide +kernel
    have hn : poolMachine.ReachableBy NoPanic (poolMachine.runList (Pool.new 1) runnerRun) :=
      .of_follows ⟨1, rfl⟩ follows
    have live := reachable_not_unwound hn
    have waits : ¬ (poolMachine.runList (Pool.new 1) runnerRun).Ended 0 := fun he =>
      absurd ((Pool.ended_iff live).mp he) (by decide +kernel)
    have held : (poolMachine.runList (Pool.new 1) runnerRun).BlockAccepted 0 (.sequenced 0) :=
      ⟨by decide +kernel, by decide +kernel⟩
    refine ⟨hn, fun hi => waits ?_, by decide +kernel, ⟨_, held⟩, waits⟩
    exact (Pool.count_iff (reachable_balanced hn) (reachable_acceptedOnce hn) live).mp hi.count
      0 _ held rfl

end RustTask
