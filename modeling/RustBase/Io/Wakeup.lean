import RustBase.Io.IoThread

/-!
# Io — the IO thread never sleeps on work

A poster pushes its task and then writes to the eventfd, and only the dispatch of the eventfd's own
event drains it, after which the loop starts over.  So from the moment `do_work` finds the immediate
queue empty until the thread wakes up, the queue is empty still or a wake-up is on its way; and the
same holds of the deadlines from the moment `do_work` looks for the earliest one (`Rested`).
-/

namespace RustIo
open Support RustTask

/-- Every delayed task is due at the deadline at the earliest; there is none without one. -/
def IoTaskRunner.DueFrom (x : IoTaskRunner) (deadline : Option Instant) : Prop :=
  ∀ t ∈ x.delayedTasks, ∃ d ∈ deadline, d ≤ t.deadline

/-- Nothing is due for `timeout` milliseconds after `now`; nothing at all for a negative one. -/
def IoTaskRunner.RestsFor (x : IoTaskRunner) (timeout : ℤ) (now : Instant) : Prop :=
  x.tasks = [] ∧
    ∀ t ∈ x.delayedTasks, 0 ≤ timeout ∧ now + timeout.toNat * millisecond ≤ t.deadline

/-- What the IO thread has found out about the queues on its way to `epoll_wait`. -/
def IoPhase.Rested (x : IoTaskRunner) : IoPhase → Prop
  | .delayedNow | .delayedPop _ | .runDelayed _ | .peek => x.tasks = []
  | .quitCheck d | .timeout d => x.tasks = [] ∧ x.DueFrom d
  | .wait t now => t ≠ 0 → x.RestsFor t now
  | _ => True

theorem dueFrom_nextDeadline (x : IoTaskRunner) : x.DueFrom x.nextDeadline := by
  intro t ht
  have hm : t.deadline ∈ x.delayedTasks.map IoDelayedTask.deadline := List.mem_map_of_mem ht
  cases hd : x.nextDeadline with
  | none =>
      rw [IoTaskRunner.nextDeadline, List.min?_eq_none_iff] at hd
      rw [hd] at hm; cases hm
  | some d => exact ⟨d, rfl, (List.min?_eq_some_iff.mp hd).2 _ hm⟩

/-- The timeout is cut to milliseconds and clamped, never rounded up. -/
theorem restsFor_timeoutMs {x : IoTaskRunner} {d : Option Instant} {now : Instant}
    (ht : x.tasks = []) (hd : x.DueFrom d) (hne : timeoutMs d now ≠ 0) :
    x.RestsFor (timeoutMs d now) now := by
  refine ⟨ht, fun t hm => ?_⟩
  obtain ⟨e, rfl, he⟩ := hd t hm
  simp only [timeoutMs] at hne ⊢
  split at hne
  · exact absurd rfl hne
  · rename_i hlt
    rw [if_neg hlt]
    refine ⟨Int.natCast_nonneg _, ?_⟩
    rw [Int.toNat_natCast]
    calc now + min ((e - now) / millisecond) (2 ^ 31 - 1) * millisecond
        ≤ now + (e - now) / millisecond * millisecond :=
          Nat.add_le_add_left (Nat.mul_le_mul_right _ (Nat.min_le_left _ _)) _
      _ ≤ now + (e - now) := Nat.add_le_add_left (Nat.div_mul_le_self _ _) _
      _ = e := Nat.add_sub_cancel' (Nat.le_of_not_le hlt)
      _ ≤ t.deadline := he

namespace IoState

variable {s s' : IoState}

/-- A wake-up is on its way: the eventfd is up, or a poster that has pushed its task is about to
write to it. -/
def Signalled (s : IoState) : Prop := s.kernel.eventfd ≠ 0 ∨ ∃ p, s.posters p = .write

def Awake (s : IoState) : Prop := s.phase.Rested s.runner ∨ s.Signalled

theorem Signalled.congr (h : Signalled s) (hk : s'.kernel.eventfd = s.kernel.eventfd)
    (hp : s'.posters = s.posters) : Signalled s' := by
  unfold Signalled
  rw [hk, hp]
  exact h

/-- Steps that touch neither the queues nor the eventfd. -/
theorem Awake.congr (h : Awake s) (hph : s'.phase = s.phase) (hr : s'.runner = s.runner)
    (hk : s'.kernel.eventfd = s.kernel.eventfd) (hp : s'.posters = s.posters) : Awake s' := by
  rcases h with h | h
  · exact .inl (by rw [hph, hr]; exact h)
  · exact .inr (h.congr hk hp)

/-! ### The steps -/

theorem awake_io (h : Awake s) {a : IoAct} (ha : s.IoEnabled a) : Awake (s.ioNext a) := by
  -- a step to a phase that says no more than the one before it did
  have move : ∀ {x : IoPhase} {s' : IoState}, s.phase = x →
      (x.Rested s.runner → s'.phase.Rested s'.runner) → s'.kernel.eventfd = s.kernel.eventfd →
      s'.posters = s.posters → Awake s' := fun hx hr hk hp => by
    rcases h with h | h
    · exact .inl (hr (hx ▸ h))
    · exact .inr (h.congr hk hp)
  cases a with
  | popTask =>
      cases ht : s.runner.tasks with
      | nil => simp only [ioNext, ht]; exact .inl ht
      | cons id ids => simp only [ioNext, ht]; exact .inl trivial
  | taskReturns id => exact .inl trivial
  | readNow => exact move ha (fun hr => hr) rfl rfl
  | popDelayed now t => exact move ha.1 (fun hr => hr) rfl rfl
  | noDelayed now => exact move ha.1 (fun hr => hr) rfl rfl
  | delayedReturns i => exact move ha.1 (fun hr => hr) rfl rfl
  | peek => exact move ha (fun ht => ⟨ht, dueFrom_nextDeadline _⟩) rfl rfl
  | checkQuit d =>
      simp only [ioNext]
      split
      · exact .inl trivial
      · exact move ha (fun hr => hr) rfl rfl
  | computeTimeout d => exact move ha (fun hd hne => restsFor_timeoutMs hd.1 hd.2 hne) rfl rfl
  | epollReturns t now evs | epollInterrupted t now | epollFails t now | endBatch | call c cs evs
  | endCalls evs | callbackReturns c cs evs => exact .inl trivial
  | handle ev evs =>
      refine .inl ?_
      simp only [ioNext, dispatch]
      split
      · trivial
      · split <;> trivial
  | registerCtl fd persistent mode w ok =>
      simp only [ioNext]
      split <;> exact h.congr rfl rfl rfl rfl
  | registerInsert fd e => exact h.congr rfl rfl rfl rfl

/-- A poster's step keeps a wake-up on its way, and one that pushes puts it there. -/
theorem awake_poster (h : Awake s) {p : ThreadId} {a : IoPosterAct} (ha : s.PosterEnabled p a) :
    Awake (s.posterNext p a) := by
  have keep : ∀ {x : IoPosterPhase} {s' : IoState}, s.posters p ≠ .write → s'.phase = s.phase →
      s'.runner.tasks = s.runner.tasks → s'.runner.delayedTasks = s.runner.delayedTasks →
      s'.kernel.eventfd = s.kernel.eventfd → s'.posters = Function.update s.posters p x →
      Awake s' := fun hne hph ht hd hk hp => by
    rcases h with h | h | h
    · refine .inl ?_
      rw [hph]
      revert h
      cases s.phase <;> simp only [IoPhase.Rested, IoTaskRunner.DueFrom, IoTaskRunner.RestsFor, ht,
        hd, imp_self]
    · exact .inr (.inl (by rwa [hk]))
    · refine .inr (.inr ?_)
      rw [hp]
      exact exists_update_of_not (P := (· = IoPosterPhase.write)) h hne
  have pushed : ∀ {s' : IoState}, s'.posters = Function.update s.posters p .write → Awake s' :=
    fun hp => .inr (.inr ⟨p, by rw [hp, Function.update_self]⟩)
  cases a with
  | post delay =>
      simp only [posterNext]
      split
      · exact h
      · exact keep (by rw [show s.posters p = _ from ha]; nofun) rfl rfl rfl rfl rfl
  | push id => exact pushed rfl
  | readClock id delay =>
      exact keep (by rw [show s.posters p = _ from ha]; nofun) rfl rfl rfl rfl rfl
  | pushDelayed t => exact pushed rfl
  | write => exact .inr (.inl (Kernel.eventfdWrite_ne_zero _))
  | stop flag => exact keep (by rw [show s.posters p = _ from ha]; nofun) rfl rfl rfl rfl rfl
  | quitStore => exact keep (by rw [show s.posters p = _ from ha]; nofun) rfl rfl rfl rfl rfl
  | quitWrite => exact .inr (.inl (Kernel.eventfdWrite_ne_zero _))

theorem awake_next (h : Awake s) {a : Action} (ha : s.Enabled a) : Awake (s.next a) := by
  cases a with
  | io a => exact awake_io h ha
  | poster p a => exact awake_poster h ha
  | unregister fd g =>
      simp only [next, unregister]
      split
      · exact h.congr rfl rfl rfl rfl
      · exact h
  | openFd fd | closeFd fd | dropWatcher w | tick d => exact h.congr rfl rfl rfl rfl

end IoState

theorem reachable_awake {C : IoState → IoState.Action → Prop} {s : IoState}
    (h : ioMachine.ReachableBy C s) : s.Awake := by
  refine h.invariant (fun s h₀ => ?_) fun s a _ hi _ ha => IoState.awake_next hi ha
  obtain ⟨wakeFd, isOpen, -, rfl⟩ := h₀
  exact .inl trivial

/-- **The IO thread never sleeps on work.**  In every reachable state in which it is blocked in
`epoll_wait` with a timeout that is not zero, the immediate queue is empty and no delayed task is
due before the timeout has passed since the clock reading it was computed from (there is none when
the timeout is -1), or the eventfd's counter is not zero, or a poster is between its push and its
write. -/
theorem io_thread_sleeps_only_at_rest {s : IoState} (h : ioMachine.Reachable s) {t : ℤ}
    {now : Instant} (hw : s.phase = .wait t now) (ht : t ≠ 0) :
    (s.runner.tasks = [] ∧ (t = -1 → s.runner.delayedTasks = []) ∧
      ∀ d ∈ s.runner.delayedTasks, 0 < t ∧ now + t.toNat * millisecond ≤ d.deadline) ∨
    s.kernel.eventfd ≠ 0 ∨ ∃ p, s.posters p = .write := by
  rcases reachable_awake h with hr | hs
  · rw [hw] at hr
    obtain ⟨htasks, hdue⟩ := hr ht
    refine .inl ⟨htasks, fun h₁ => ?_, fun d hd => ?_⟩
    · refine List.eq_nil_iff_forall_not_mem.mpr fun d hd => ?_
      have := (hdue d hd).1
      omega
    · obtain ⟨h₁, h₂⟩ := hdue d hd
      exact ⟨by omega, h₂⟩
  · exact .inr hs

/-- A task is posted with a delay of 5 ms; its wake-up is drained and the thread goes to sleep. -/
def sleepRun : List IoState.Action :=
  [.poster 0 (.post (some 5000000)), .poster 0 (.readClock 0 5000000),
   .poster 0 (.pushDelayed ⟨5000000, 0⟩), .poster 0 .write,
   .io .popTask, .io .readNow, .io (.noDelayed 0), .io .peek, .io (.checkQuit (some 5000000)),
   .io (.computeTimeout (some 5000000)), .io (.epollReturns 5 0 [⟨epollIn, 3⟩]),
   .io (.handle ⟨epollIn, 3⟩ []), .io .endBatch,
   .io .popTask, .io .readNow, .io (.noDelayed 0), .io .peek, .io (.checkQuit (some 5000000)),
   .tick 1500000, .io (.computeTimeout (some 5000000))]

theorem sleepRun_at_rest :
    let s := ioMachine.runList (.new 3 (· ≤ 3)) sleepRun
    s.phase = .wait 3 1500000 ∧ s.kernel.eventfd = 0 ∧ s.runner.delayedTasks = [⟨5000000, 0⟩] ∧
      ((s.runner.tasks = [] ∧ ((3 : ℤ) = -1 → s.runner.delayedTasks = []) ∧
        ∀ d ∈ s.runner.delayedTasks,
          (0 : ℤ) < 3 ∧ 1500000 + (3 : ℤ).toNat * millisecond ≤ d.deadline) ∨
      s.kernel.eventfd ≠ 0 ∨ ∃ p, s.posters p = .write) := by
  have reached := (Machine.ReachableBy.of_follows (M := ioMachine) (C := fun _ _ => True)
    (s := .new 3 (· ≤ 3)) (l := sleepRun) ⟨3, (· ≤ 3), by decide, rfl⟩ (by decide +kernel))
  have hw : (ioMachine.runList (.new 3 (· ≤ 3)) sleepRun).phase = .wait 3 1500000 := by
    decide +kernel
  exact ⟨hw, by decide +kernel, by decide +kernel,
    io_thread_sleeps_only_at_rest reached hw (by decide)⟩

end RustIo
