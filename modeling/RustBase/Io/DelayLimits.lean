import Mathlib.Data.Set.Card
import RustBase.Io.IoThread
import RustBase.Task.Delivery

/-!
# Io — delays near the limit

`Instant::now() + delay` panics when the sum is no `Instant`.  The four `post_delayed_task` compute
it: the two runners' of the pool before they store anything, the IO runner's likewise, and
`ThreadPool`'s own after `will_post_task` has counted the task.

* `DelaysExact` is what the pool promises: no post panics, the counter is the number of
  `BlockShutdown` tasks that are there, and without one a thread in `TaskTracker::shutdown` leaves
  it by its own steps.
* **`delaysExact_iff`**: a reachable state of the pool is so, and in one of the IO thread no post
  has panicked, exactly when every sum on the way to it was representable.
* `overflowRun_never_shuts_down`: one `BlockShutdown` post with `Duration::MAX`, and `shutdown` does
  not return in any continuation.
-/

namespace RustTask
open Support

namespace Pool

variable {s s' : Pool}

instance (s : Pool) : ∀ a, Decidable (s.Representable a)
  | .poster _ (.readyTime _ _ _) => inferInstanceAs (Decidable (_ ≤ _))
  | .poster _ (.post _ _) | .poster _ (.willPostTask _ _ _) | .poster _ (.push _ _ _)
  | .poster _ (.pushSource _) | .poster _ (.addSequence _ _) | .poster _ (.notifyGroup _)
  | .poster _ .notifyTimer | .worker _ _ | .timer _ | .closer _ _ | .createRunner _ | .tick _ =>
      inferInstanceAs (Decidable True)

/-- The counted tasks that are there: with a post about to store them, in a sequence, or with a
worker. -/
def heldIds (s : Pool) : Set ℕ := {id | ∃ a, (id, true) ∈ s.jobs a}

/-- The step is thread `c`'s, in `shutdown`. -/
def ByCloser (c : Tid) (_ : Pool) (a : Action) : Prop := ∃ b, a = .closer c b

/-- What the pool promises of every delay. -/
structure DelaysExact (s : Pool) : Prop where
  noPanic : ∀ p, s.posters p ≠ .panicked
  count : s.tracker.numTasksBlockingShutdown = s.heldIds.ncard
  leaves : s.heldIds = ∅ → ∀ c, ∃ s', poolMachine.Run (ByCloser c) s s' ∧
    (s'.closers c).pastTracker = true

/-! ### A post that panicked -/

theorem panicked_next {p : Tid} (hp : s.posters p = .panicked) {a : Action} (ha : s.Enabled a) :
    (s.next a).posters p = .panicked := by
  by_cases h : ∀ b, a ≠ .poster p b
  · rw [posters_of_other h]; exact hp
  · push Not at h
    obtain ⟨b, rfl⟩ := h
    have stuck : s.PosterEnabled p b := ha
    cases b <;> simp [PosterEnabled, hp] at stuck

theorem panics_of_not_representable {a : Action} (h : ¬ s.Representable a) :
    ∃ p, (s.next a).posters p = .panicked := by
  unfold Representable at h
  split at h
  · rename_i p d cb delay
    have overflow : instantAdd s.clock delay = none := if_neg h
    exact ⟨p, by simp [next, posterNext, setPoster, overflow]⟩
  · exact absurd trivial h

/-- A post panics at its sum, and nowhere else. -/
@[simp] theorem deliver_ne_panicked (d : Dest) (cb : Callback) (delay : Option ℕ) :
    PosterPhase.deliver d cb delay ≠ .panicked := by
  cases delay <;> simp [PosterPhase.deliver]

theorem not_panicked_next {p : Tid} (hp : s.posters p ≠ .panicked) {a : Action}
    (hC : s.Representable a) : (s.next a).posters p ≠ .panicked := by
  by_cases h : ∀ b, a ≠ .poster p b
  · rw [posters_of_other h]; exact hp
  · push Not at h
    obtain ⟨b, rfl⟩ := h
    -- the phase the step leads to, of the post that makes it
    have leads : ∀ {x : PosterPhase} {f : Tid → PosterPhase}, f = Function.update s.posters p x →
        x ≠ .panicked → f p ≠ .panicked := by
      rintro x _ rfl hx
      rwa [Function.update_self]
    cases b with
    | post path delay => cases path <;> exact leads rfl (by simp)
    | willPostTask traits id delay =>
        simp only [next, posterNext, willPostTask]
        split
        · exact leads rfl (by simp)
        · exact leads rfl (by simp)
    | readyTime d cb delay =>
        have sum : instantAdd s.clock delay = some (s.clock + delay) := if_pos hC
        refine leads rfl ?_
        simp [sum]
    | push d cb ready => cases d <;> cases ready <;> exact leads rfl (by simp)
    | pushSource q | addSequence q r | notifyGroup c | notifyTimer => exact leads rfl (by simp)

/-! ### Without overflow -/

theorem reachable_whole (h : poolMachine.ReachableBy Representable s) :
    Ledger.Whole s.jobs s.blockIds s.finishedIds := by
  refine h.invariant (I := fun s => Ledger.Whole s.jobs s.blockIds s.finishedIds)
    (fun s h₀ => ?_) fun s a hr hi hC ha => ?_
  · obtain ⟨n, rfl⟩ := h₀
    exact fun _ hk => absurd hk List.not_mem_nil
  · have step := booked_next (reachable_wellFormed hr) ha
    rw [Booked, iff_false_intro (not_not_intro hC)] at step
    exact hi.step step

theorem count_eq_held (hb : s.Balanced) (hw : Ledger.Whole s.jobs s.blockIds s.finishedIds) :
    s.tracker.numTasksBlockingShutdown = s.heldIds.ncard := by
  have set_eq : s.heldIds = ((s.blockIds.filter (· ∉ s.finishedIds)).toFinset : Set ℕ) := by
    ext id
    rw [List.coe_toFinset]
    exact (hb.mem_open_iff hw).symm
  rw [set_eq, Set.ncard_coe_finset, List.toFinset_card_of_nodup (hb.opened_nodup.filter _)]
  exact hb.count_eq

/-- With nothing counted, no thread is held up in `TaskTracker::shutdown`. -/
theorem leaves_tracker (hs : s.Settled) (h₀ : s.tracker.numTasksBlockingShutdown = 0) (c : Tid) :
    ∃ s', poolMachine.Run (ByCloser c) s s' ∧ (s'.closers c).pastTracker = true := by
  -- the test of the `while` loop fails
  have await : ∀ {x : Pool}, x.tracker = s.tracker → x.closers c = .await →
      ∃ s', poolMachine.Run (ByCloser c) x s' ∧ (s'.closers c).pastTracker = true := by
    intro x ht hx
    have ha : poolMachine.Enabled x (.closer c .doneWaiting) := ⟨hx, by rw [ht]; exact h₀⟩
    refine ⟨_, .more .refl ⟨_, rfl⟩ ha, ?_⟩
    simp [poolMachine, next, closerNext, setCloser, CloserPhase.pastTracker]
  -- the first critical section sees the zero
  have mark : ∀ {x : Pool}, x.tracker = s.tracker → x.closers c = .mark →
      ∃ s', poolMachine.Run (ByCloser c) x s' ∧ (s'.closers c).pastTracker = true := by
    intro x ht hx
    have ha : poolMachine.Enabled x (.closer c .mark) := hx
    refine ⟨_, .more .refl ⟨_, rfl⟩ ha, ?_⟩
    simp [poolMachine, next, closerNext, markShutdown, setCloser, ht, h₀, CloserPhase.pastTracker]
  cases hc : s.closers c with
  | idle =>
      have first : poolMachine.Enabled s (.closer c .shutdown) := hc
      obtain ⟨s', hr, hp⟩ := mark (x := poolMachine.next s (.closer c .shutdown)) rfl
        (Function.update_self ..)
      exact ⟨s', (Machine.Run.more .refl ⟨_, rfl⟩ first).trans hr, hp⟩
  | mark => exact mark rfl hc
  | await => exact await rfl hc
  | waiting =>
      have resume : poolMachine.Enabled s (.closer c .resume) :=
        ⟨hc, by rw [hs.waiters h₀]; exact List.not_mem_nil⟩
      obtain ⟨s', hr, hp⟩ := await (x := poolMachine.next s (.closer c .resume)) rfl
        (Function.update_self ..)
      exact ⟨s', (Machine.Run.more .refl ⟨_, rfl⟩ resume).trans hr, hp⟩
  | _ => exact ⟨s, .refl, by rw [hc]; rfl⟩

/-! ### With overflow -/

/-- Once a counted task is lost, `TaskTracker::shutdown` does not return. -/
theorem never_shuts_down_of_lost {id : ℕ} (h : poolMachine.Reachable s)
    (hl : Ledger.Lost s.jobs s.blockIds s.finishedIds id) : s.NeverShutsDown := by
  intro s' hr c
  have lost : poolMachine.Reachable s' ∧ Ledger.Lost s'.jobs s'.blockIds s'.finishedIds id := by
    refine hr.keeps (I := fun s => poolMachine.Reachable s ∧
      Ledger.Lost s.jobs s.blockIds s.finishedIds id) (fun s a hi ha => ?_) ⟨h, hl⟩
    exact ⟨hi.1.run (.more .refl trivial ha),
      hi.2.step (reachable_balanced hi.1) (booked_next (reachable_wellFormed hi.1) ha)⟩
  by_contra hc
  have zero := (reachable_settled lost.1).zero c (Bool.eq_true_of_not_eq_false hc)
  exact lost.2.2.1 ((reachable_balanced lost.1).closed_of_count_zero zero id lost.2.1)

/-- The overflow of a `BlockShutdown` post of the pool loses a counted task. -/
theorem lost_of_overflow (hb : s.Balanced) {p : Tid} {d : Dest} {cb : Callback} {delay : ℕ}
    (hp : s.posters p = .readClock d cb delay) (hcb : cb.blocks = true)
    (hd : instantMax < s.clock + delay) :
    let s' := poolMachine.next s (.poster p (.readyTime d cb delay))
    Ledger.Lost s'.jobs s'.blockIds s'.finishedIds cb.id := by
  have overflow : instantAdd s.clock delay = none := if_neg (Nat.not_le_of_lt hd)
  simp only [poolMachine, next, posterNext, overflow]
  refine hb.lost_drop (x := cb.job) (a := .poster p) hcb ?_ fun a h₁ => ?_
  · simp [jobs, hp, setPoster, PosterPhase.jobs]
  · exact jobs_poster_of_ne h₁ rfl rfl rfl

theorem delaysExact_of_representable (h : poolMachine.ReachableBy Representable s) :
    s.DelaysExact := by
  have hb := reachable_balanced h
  have count := count_eq_held hb (reachable_whole h)
  refine ⟨fun p => ?_, count, fun h₀ c => ?_⟩
  · refine h.invariant (I := fun s => s.posters p ≠ .panicked) ?_ ?_
    · rintro s ⟨n, rfl⟩
      exact PosterPhase.noConfusion
    · exact fun s a _ hi hC _ => not_panicked_next hi hC
  · rw [h₀, Set.ncard_empty] at count
    exact leaves_tracker (reachable_settled h) count c

end Pool

end RustTask

namespace RustIo
open Support RustTask

namespace IoState

variable {s : IoState}

/-- If the step is an `Instant::now() + delay`, the sum is representable. -/
def Representable (s : IoState) : Action → Prop
  | .poster _ (.readClock _ delay) => s.clock + delay ≤ instantMax
  | _ => True

/-- A post is moved by its own steps only. -/
theorem posters_of_not_own {p : ThreadId} {a : Action} (h : ∀ b, a ≠ .poster p b) :
    (s.next a).posters p = s.posters p := by
  cases a with
  | poster u a =>
      have e : p ≠ u := fun e => h a (by rw [e])
      cases a with
      | post delay =>
          simp only [next, posterNext]
          split
          · rfl
          · exact Function.update_of_ne e ..
      | _ => exact Function.update_of_ne e ..
  | io a =>
      cases a with
      | popTask =>
          simp only [next, ioNext]
          split <;> rfl
      | handle ev evs =>
          simp only [next, ioNext, dispatch]
          split
          · rfl
          · split
            · rfl
            · split <;> split <;> rfl
      | registerCtl fd persistent mode watcher ok =>
          simp only [next, ioNext]
          split <;> rfl
      | _ => rfl
  | unregister fd g =>
      simp only [next, unregister]
      split <;> rfl
  | openFd fd | closeFd fd | dropWatcher w | tick d => rfl

theorem panicked_next {p : ThreadId} (hp : s.posters p = .panicked) {a : Action}
    (ha : s.Enabled a) : (s.next a).posters p = .panicked := by
  by_cases h : ∀ b, a ≠ .poster p b
  · rw [posters_of_not_own h]; exact hp
  · push Not at h
    obtain ⟨b, rfl⟩ := h
    have stuck : s.PosterEnabled p b := ha
    cases b <;> simp [PosterEnabled, hp] at stuck

theorem panics_of_not_representable {a : Action} (h : ¬ s.Representable a) :
    ∃ p, (s.next a).posters p = .panicked := by
  unfold Representable at h
  split at h
  · rename_i p id delay
    have overflow : instantAdd s.clock delay = none := if_neg h
    exact ⟨p, by simp [next, posterNext, setPoster, overflow]⟩
  · exact absurd trivial h

theorem not_panicked_next {p : ThreadId} (hp : s.posters p ≠ .panicked) {a : Action}
    (hC : s.Representable a) : (s.next a).posters p ≠ .panicked := by
  by_cases h : ∀ b, a ≠ .poster p b
  · rw [posters_of_not_own h]; exact hp
  · push Not at h
    obtain ⟨b, rfl⟩ := h
    cases b with
    | post delay =>
        simp only [next, posterNext]
        split
        · exact hp
        · cases delay <;> simp [setPoster]
    | readClock id delay =>
        have sum : instantAdd s.clock delay = some (s.clock + delay) := if_pos hC
        simp [next, posterNext, setPoster, sum]
    | push | pushDelayed | write | stop | quitStore | quitWrite =>
        simp [next, posterNext, setPoster]

end IoState

end RustIo

namespace RustTask
open Support RustIo

/-- **Delays near the limit.**  A reachable state of the pool keeps the promise, that no delayed
post panics and the counter counts the tasks that are there, and a reachable state of the IO thread
has no post that panicked, if and only if it is reached by a run in which every
`Instant::now() + delay` is representable. -/
theorem delaysExact_iff {s : Pool} {x : IoState} (hs : poolMachine.Reachable s)
    (hx : ioMachine.Reachable x) :
    (s.DelaysExact ↔ poolMachine.ReachableBy Pool.Representable s) ∧
      ((∀ p, x.posters p ≠ .panicked) ↔ ioMachine.ReachableBy IoState.Representable x) := by
  refine ⟨⟨fun hd => ?_, Pool.delaysExact_of_representable⟩, fun hn => ?_, fun hr p => ?_⟩
  · refine hs.avoiding (B := fun s => ∃ p, s.posters p = .panicked) ?_ ?_ ?_
    · rintro s a ⟨p, hp⟩ ha
      exact ⟨p, Pool.panicked_next hp ha⟩
    · exact fun s a hC _ => Pool.panics_of_not_representable hC
    · rintro ⟨p, hp⟩
      exact hd.noPanic p hp
  · refine hx.avoiding (B := fun x => ∃ p, x.posters p = .panicked) ?_ ?_ ?_
    · rintro x a ⟨p, hp⟩ ha
      exact ⟨p, IoState.panicked_next hp ha⟩
    · exact fun x a hC _ => IoState.panics_of_not_representable hC
    · rintro ⟨p, hp⟩
      exact hn p hp
  · refine hr.invariant (I := fun x => x.posters p ≠ .panicked) ?_ ?_
    · rintro x ⟨wakeFd, isOpen, -, rfl⟩
      exact IoPosterPhase.noConfusion
    · exact fun x a _ hi hC _ => IoState.not_panicked_next hi hC

/-- `Duration::MAX`. -/
def durationMax : ℕ := (2 ^ 64 - 1) * 10 ^ 9 + 999999999

/-- A `BlockShutdown` post of the pool with the given delay, up to its sum. -/
def delayedPost (delay : ℕ) : List Pool.Action :=
  [.poster 0 (.post (.pool blockTraits) (some delay)),
   .poster 0 (.willPostTask blockTraits 0 (some delay)),
   .poster 0 (.readyTime (.own blockTraits) (.wrapped blockTraits 0) delay)]

/-- With a delay of a thousand years the sum is representable, and the task is there. -/
theorem delayedPost_exact :
    let s := poolMachine.runList (Pool.new 1) (delayedPost (1000 * 365 * 86400 * 10 ^ 9))
    s.DelaysExact ∧ s.tracker.numTasksBlockingShutdown = 1 ∧
      ioMachine.ReachableBy IoState.Representable (IoState.new 3 fun _ => true) := by
  have follows : poolMachine.Follows Pool.Representable (Pool.new 1)
      (delayedPost (1000 * 365 * 86400 * 10 ^ 9)) := by decide +kernel
  have any : poolMachine.Follows (fun _ _ => True) (Pool.new 1)
      (delayedPost (1000 * 365 * 86400 * 10 ^ 9)) := by decide +kernel
  have io : ioMachine.Reachable (IoState.new 3 fun _ => true) := .of_init ⟨3, _, rfl, rfl⟩
  obtain ⟨pool, posts⟩ := delaysExact_iff (.of_follows ⟨1, rfl⟩ any) io
  exact ⟨pool.mpr (.of_follows ⟨1, rfl⟩ follows), by decide +kernel, posts.mp fun _ => nofun⟩

/-- With `Duration::MAX` the post panics, the counter is one with no task there, and no thread
returns from `TaskTracker::shutdown` ever after; the IO runner's post panics as well. -/
theorem overflowRun_never_shuts_down :
    let s := poolMachine.runList (Pool.new 1) (delayedPost durationMax)
    let x := ioMachine.runList (IoState.new 3 fun _ => true)
      [.poster 0 (.post (some durationMax)), .poster 0 (.readClock 0 durationMax)]
    (poolMachine.Reachable s ∧ s.posters 0 = .panicked ∧
      s.tracker.numTasksBlockingShutdown = 1 ∧ s.heldIds = ∅ ∧ ¬ s.DelaysExact ∧
      s.NeverShutsDown) ∧
    ioMachine.Reachable x ∧ x.posters 0 = .panicked := by
  have follows : poolMachine.Follows (fun _ _ => True) (Pool.new 1)
      ((delayedPost durationMax).take 2) := by decide +kernel
  have before : poolMachine.Reachable
      (poolMachine.runList (Pool.new 1) ((delayedPost durationMax).take 2)) :=
    .of_follows ⟨1, rfl⟩ follows
  have reach : poolMachine.Reachable (poolMachine.runList (Pool.new 1) (delayedPost durationMax)) :=
    .of_follows ⟨1, rfl⟩ (by decide +kernel)
  have panicked : (poolMachine.runList (Pool.new 1) (delayedPost durationMax)).posters 0 =
      .panicked := by decide +kernel
  have one : (poolMachine.runList (Pool.new 1)
      (delayedPost durationMax)).tracker.numTasksBlockingShutdown = 1 := by decide +kernel
  have last : poolMachine.runList (Pool.new 1) (delayedPost durationMax) =
      poolMachine.next (poolMachine.runList (Pool.new 1) ((delayedPost durationMax).take 2))
        (.poster 0 (.readyTime (.own blockTraits) (.wrapped blockTraits 0) durationMax)) := rfl
  have reading : (poolMachine.runList (Pool.new 1) ((delayedPost durationMax).take 2)).posters 0 =
      .readClock (.own blockTraits) (.wrapped blockTraits 0) durationMax := by decide +kernel
  have lost := Pool.lost_of_overflow (reachable_balanced before) reading rfl (by decide +kernel)
  rw [← last] at lost
  have opened : (poolMachine.runList (Pool.new 1) (delayedPost durationMax)).blockIds = [0] := by
    decide +kernel
  refine ⟨⟨reach, panicked, one, ?_, fun hd => hd.noPanic 0 panicked,
    Pool.never_shuts_down_of_lost reach lost⟩,
    .of_follows ⟨3, _, rfl, rfl⟩ (by decide +kernel), by decide +kernel⟩
  -- the only counted task is the lost one
  refine Set.eq_empty_iff_forall_notMem.mpr ?_
  rintro id ⟨a, ha⟩
  have counted := ((reachable_balanced reach).counted a _ ha).mpr rfl
  rw [opened, List.mem_singleton] at counted
  exact lost.2.2 a (List.mem_map.mpr ⟨_, ha, counted⟩)

end RustTask
