import RustBase.Io.TaskTrace
import RustBase.Task.QueueLaw

/-!
# Io — delayed tasks with one deadline

A `Sequence` orders its delayed tasks by ready time and then by the number of their push, so those
with one ready time run in the order in which they were posted.  The heap of `IoTaskRunner` orders
them by deadline only, and which of several equal elements a `BinaryHeap` pops is not specified.

**`ties_in_order`**: tasks with one deadline run in post order on a sequence, and on an
`IoTaskRunner` as long as none is pushed while the heap has another one with its deadline.  Where it
has, either of the two may be taken out, and the later one spoils the order.
-/

namespace RustIo
open Support RustTask

/-- Of two delayed tasks with one deadline the one that was posted first runs first. -/
def TiesInOrder {α : Type*} (posted : List (α × Option Instant)) (ran : List α) : Prop :=
  ∀ (i j : ℕ) (a b : α) (d : Instant), i < j → posted[i]? = some (a, some d) →
    posted[j]? = some (b, some d) → b ∈ ran → Before ran a b

/-! ### The sequence -/

namespace Ties
open SequenceHistory

variable {traits : TaskTraits} {s : SequenceHistory}

/-- Until they are taken, two tasks with one ready time are in the order of the heap. -/
theorem ranked_of_reachable (hs : (sequenceMachine traits).Reachable s) :
    ∀ (i j : ℕ) (a b : Task) (d : Instant), i < j → s.pushed[i]? = some (a, some d) →
      s.pushed[j]? = some (b, some d) → s.Ranked ⟨d, i, a⟩ ⟨d, j, b⟩ := by
  refine hs.invariant (I := fun s => ∀ (i j : ℕ) (a b : Task) (d : Instant), i < j →
    s.pushed[i]? = some (a, some d) → s.pushed[j]? = some (b, some d) →
      s.Ranked ⟨d, i, a⟩ ⟨d, j, b⟩) (fun s h₀ => ?_) fun s op hr hi _ ho => ?_
  · obtain rfl : s = .new traits := h₀
    intro i j a b d _ h
    simp [SequenceHistory.new] at h
  intro i j a b d hij ha hb
  have keep : s.pushed[i]? = some (a, some d) → s.pushed[j]? = some (b, some d) →
      (s.next op).Ranked ⟨d, i, a⟩ ⟨d, j, b⟩ := fun ha hb =>
    (hi i j a b d hij ha hb).next (LexLe.not_of_lt (.inr ⟨rfl, hij⟩)) op
  cases op with
  | pushTask task =>
      rcases getElem?_concat.mp hb with hb | ⟨-, e⟩
      · rcases getElem?_concat.mp ha with ha | ⟨-, e⟩
        · exact keep ha hb
        · cases e
      · cases e
  | pushDelayedTask task r =>
      rcases getElem?_concat.mp hb with hb | ⟨rfl, e⟩
      · rcases getElem?_concat.mp ha with ha | ⟨rfl, -⟩
        · exact keep ha hb
        · have := (List.getElem?_eq_some_iff.mp hb).1
          omega
      · cases e
        rcases getElem?_concat.mp ha with ha | ⟨rfl, -⟩
        · -- the earlier task is in the heap still, or has left it
          have inv := inv_of_reachable hr
          have last : (⟨d, s.pushed.length, s.number task⟩ : DelayedTask) ∈
              (s.next (.pushDelayedTask task d)).seq.delayedQueue := by
            rw [← inv.length]
            exact MinHeap.mem_push.mpr (.inl rfl)
          have mem : a ∈ s.pushed.map (·.1) :=
            List.mem_map.mpr ⟨_, List.mem_of_getElem? ha, rfl⟩
          rcases List.mem_append.mp (inv.perm.symm.subset mem) with hf | hq
          · exact .inr (.inl ⟨hf, last⟩)
          · obtain ⟨e, he, rfl⟩ := List.mem_map.mp hq
            obtain ⟨hn, -⟩ := inv.delayed e he
            have num : e.task.sequenceNum = i := inv.number i _ ha
            have time := inv.readyTime_eq he ha
            have first : (⟨d, i, e.task⟩ : DelayedTask) ∈ s.seq.delayedQueue := by
              rw [time, ← num, hn]
              exact he
            exact .inl ⟨MinHeap.mem_push.mpr (.inr first), last⟩
        · exact absurd hij (Nat.lt_irrefl _)
  | takeTask now => exact keep ha hb

theorem sequence_in_order (hs : (sequenceMachine traits).Reachable s) :
    TiesInOrder s.pushed s.takenTasks := by
  intro i j a b d hij ha hb hm
  have inv := inv_of_reachable hs
  rcases ranked_of_reachable hs i j a b d hij ha hb with ⟨-, hq⟩ | hl
  · exact absurd (List.mem_append_left _ hm) (inv.not_mem_flow hq)
  · exact hl.before_taken inv hm

end Ties

/-! ### The IO thread -/

namespace IoTrace

variable {s : IoState} {h : IoTrace} {t u : IoDelayedTask}

/-- The posts with a delay, with the deadlines they were given. -/
def posted (h : IoTrace) : List (IoDelayedTask × Option Instant) :=
  h.pushedDelayed.map fun t => (t, some t.deadline)

theorem getElem?_posted {i : ℕ} {d : Instant} :
    h.posted[i]? = some (t, some d) ↔ h.pushedDelayed[i]? = some t ∧ t.deadline = d := by
  rw [posted, List.getElem?_map, Option.map_eq_some_iff]
  constructor
  · rintro ⟨u, hu, e⟩
    cases e
    exact ⟨hu, rfl⟩
  · rintro ⟨ht, rfl⟩
    exact ⟨t, ht, rfl⟩

theorem delayedTasks_popDelayed (s : IoState) (h : IoTrace) (now : Instant) (t : IoDelayedTask) :
    (record s (.io (.popDelayed now t)) h).delayedTasks = h.delayedTasks ++ [t] := by
  simp [delayedTasks, record]

namespace Inv

theorem nodup_delayed (hi : h.Inv s) : (h.delayedTasks ++ s.runner.delayedTasks).Nodup :=
  hi.perm.nodup_iff.mpr (.of_map IoDelayedTask.id (List.nodup_append.mp hi.posts.nodup).2.1)

/-- A task that is in the heap has not run. -/
theorem not_mem_delayedTasks (hi : h.Inv s) (ht : t ∈ s.runner.delayedTasks) :
    t ∉ h.delayedTasks :=
  fun hm => (List.nodup_append.mp hi.nodup_delayed).2.2 t hm t ht rfl

end Inv

/-- A task with the deadline of an earlier one is pushed only when that one has run. -/
def Settled (h : IoTrace) : Prop :=
  ∀ (i j : ℕ) (t u : IoDelayedTask), i < j → h.pushedDelayed[i]? = some t →
    h.pushedDelayed[j]? = some u → t.deadline = u.deadline →
      t ∈ h.delayedTasks ∧ (u ∈ h.delayedTasks → Before h.delayedTasks t u)

/-- No task is pushed while the heap has another one with its deadline. -/
def Untied (x : IoState × IoTrace) : IoState.Action → Prop
  | .poster _ (.pushDelayed t) => ∀ u ∈ x.1.runner.delayedTasks, u.deadline ≠ t.deadline
  | _ => True

instance (x : IoState × IoTrace) : ∀ a, Decidable (Untied x a)
  | .poster _ (.pushDelayed _) => inferInstanceAs (Decidable (∀ u ∈ _, _ ≠ _))
  | .io _ | .unregister _ _ | .openFd _ | .closeFd _ | .dropWatcher _ | .tick _
  | .poster _ (.post _) | .poster _ (.push _) | .poster _ (.readClock _ _) | .poster _ .write
  | .poster _ (.stop _) | .poster _ .quitStore | .poster _ .quitWrite =>
      inferInstanceAs (Decidable True)

theorem settled_pushDelayed (hs : h.Settled) (hi : h.Inv s) {p : ThreadId}
    (ha : s.posters p = .pushDelayed u)
    (hu : ∀ t ∈ s.runner.delayedTasks, t.deadline ≠ u.deadline) :
    (record s (.poster p (.pushDelayed u)) h).Settled := by
  intro i j t v hij ht hv hd
  rcases getElem?_concat.mp ht with ht | ⟨rfl, -⟩
  · rcases getElem?_concat.mp hv with hv | ⟨-, rfl⟩
    · exact hs i j t v hij ht hv hd
    · have mem := hi.perm.symm.subset (List.mem_of_getElem? ht)
      have ran : t ∈ h.delayedTasks := by
        rcases List.mem_append.mp mem with hm | hm
        · exact hm
        · exact absurd hd (hu t hm)
      -- the task pushed is new
      have new : u ∉ h.delayedTasks := fun hm => by
        have pushed := hi.perm.subset (List.mem_append_left _ hm)
        exact hi.posts.carried_new p u.id (by rw [ha]; rfl)
          (List.mem_append_right _ (List.mem_map_of_mem pushed))
      exact ⟨ran, fun hm => absurd hm new⟩
  · have := (List.getElem?_eq_some_iff.mp hv).1
    rw [show (record s _ h).pushedDelayed = h.pushedDelayed ++ [u] from rfl, List.length_append,
      List.length_singleton] at this
    omega

theorem settled_popDelayed (hs : h.Settled) (now : Instant) (v : IoDelayedTask) :
    (record s (.io (.popDelayed now v)) h).Settled := by
  intro i j t u hij ht hu hd
  obtain ⟨hm, before⟩ := hs i j t u hij ht hu hd
  rw [delayedTasks_popDelayed]
  refine ⟨List.mem_append_left _ hm, fun hv => ?_⟩
  rcases List.mem_append.mp hv with hv | hv
  · exact (before hv).append_right _
  · exact .of_mem hm hv

theorem settled_next (hs : h.Settled) (hi : h.Inv s) {a : IoState.Action} (ha : s.Enabled a)
    (hu : Untied (s, h) a) : (record s a h).Settled := by
  cases a with
  | io a =>
      cases a with
      | popDelayed now t => exact settled_popDelayed hs now t
      | _ => exact hs
  | poster p a =>
      cases a with
      | pushDelayed t => exact settled_pushDelayed hs hi ha hu
      | _ => exact hs
  | _ => exact hs

/-- A task that is taken out while an earlier one with its deadline stays is out of order. -/
theorem not_inOrder_popDelayed (hi : h.Inv s) (now : Instant) {i j : ℕ} (hij : i < j)
    (ht : h.pushedDelayed[i]? = some t) (hu : h.pushedDelayed[j]? = some u)
    (hm : t ∈ s.runner.delayedTasks) (hd : t.deadline = u.deadline) :
    ¬ TiesInOrder (record s (.io (.popDelayed now u)) h).posted
      (record s (.io (.popDelayed now u)) h).delayedTasks := by
  intro order
  rw [delayedTasks_popDelayed] at order
  have before := order i j t u u.deadline hij (getElem?_posted.mpr ⟨ht, hd⟩)
    (getElem?_posted.mpr ⟨hu, rfl⟩) (List.mem_append_right _ List.mem_cons_self)
  rcases List.mem_append.mp before.mem with hr | hr
  · exact hi.not_mem_delayedTasks hm hr
  · -- then one task was pushed twice
    obtain rfl := List.mem_singleton.mp hr
    have nodup : h.pushedDelayed.Nodup := hi.perm.nodup_iff.mp hi.nodup_delayed
    have hi' := (List.getElem?_eq_some_iff.mp ht).1
    exact Nat.ne_of_lt hij ((List.getElem?_inj hi' nodup).mp (ht.trans hu.symm))

end IoTrace

theorem reachable_settled {x : IoState × IoTrace} (hx : traceMachine.ReachableBy IoTrace.Untied x) :
    x.2.Settled := by
  refine hx.invariant (I := fun x => x.2.Settled) ?_ fun x a hr hs hu ha =>
    IoTrace.settled_next hs (reachable_trace hr) ha hu
  rintro ⟨s, h⟩ ⟨-, rfl⟩
  intro i j t u _ ht
  simp [IoTrace.empty] at ht

/-- **Tasks with one deadline.**  On an `IoTaskRunner` they run in post order in every run in which
none is pushed while another one is in the heap; on a sequence they do in every run.  And whenever
the runner takes out a task with a later twin in the heap, it may take out the twin instead, which
is then out of order. -/
theorem ties_in_order {x : IoState × IoTrace} (hx : traceMachine.ReachableBy IoTrace.Untied x) :
    TiesInOrder x.2.posted x.2.delayedTasks ∧
    (∀ (traits : TaskTraits) (s : SequenceHistory), (sequenceMachine traits).Reachable s →
      TiesInOrder s.pushed s.takenTasks) ∧
    ∀ y, traceMachine.Reachable y → ∀ (i j : ℕ) (t u : IoDelayedTask) (now : Instant), i < j →
      y.2.pushedDelayed[i]? = some t → y.2.pushedDelayed[j]? = some u →
      u ∈ y.1.runner.delayedTasks → t.deadline = u.deadline →
      y.1.Enabled (.io (.popDelayed now t)) → y.1.Enabled (.io (.popDelayed now u)) ∧
        ¬ TiesInOrder (traceMachine.next y (.io (.popDelayed now u))).2.posted
          (traceMachine.next y (.io (.popDelayed now u))).2.delayedTasks := by
  refine ⟨fun i j t u d hij ht hu hm => ?_, fun traits s hs => Ties.sequence_in_order hs,
    fun y hy i j t u now hij ht hu hm hd ha => ⟨?_, ?_⟩⟩
  · obtain ⟨ht, hdt⟩ := IoTrace.getElem?_posted.mp ht
    obtain ⟨hu, hdu⟩ := IoTrace.getElem?_posted.mp hu
    exact (reachable_settled hx i j t u hij ht hu (hdt.trans hdu.symm)).2 hm
  · obtain ⟨hph, htop, hdue⟩ := ha
    refine ⟨hph, ⟨hm, fun v hv => ?_⟩, hd ▸ hdue⟩
    have := htop.2 v hv
    rw [IoDelayedTask.Le] at this ⊢
    exact hd ▸ this
  · exact IoTrace.not_inOrder_popDelayed (reachable_trace hy) now hij ht hu ha.2.1.1 hd

/-- `post_delayed_task` by one thread. -/
def postDelayed (id delay deadline : ℕ) : List IoState.Action :=
  [.poster 0 (.post (some delay)), .poster 0 (.readClock id delay),
   .poster 0 (.pushDelayed ⟨deadline, id⟩), .poster 0 .write]

/-- An iteration of the second loop that runs a task. -/
def runDelayed (now id deadline : ℕ) : List IoState.Action :=
  [.io .readNow, .io (.popDelayed now ⟨deadline, id⟩), .io (.delayedReturns id)]

/-- Two tasks of different deadlines run, and then another one with the deadline of the second. -/
def apartRun : List IoState.Action :=
  postDelayed 0 5 5 ++ postDelayed 1 7 7 ++ [.io .popTask, .tick 7] ++ runDelayed 7 0 5 ++
    runDelayed 7 1 7 ++ postDelayed 2 0 7 ++ runDelayed 7 2 7

theorem apartRun_in_order :
    ∃ x, traceMachine.ReachableBy IoTrace.Untied x ∧
      x.2.delayedTasks = [⟨5, 0⟩, ⟨7, 1⟩, ⟨7, 2⟩] ∧
      TiesInOrder x.2.posted x.2.delayedTasks := by
  have run : traceMachine.Follows IoTrace.Untied (.new 0 fun _ => true, .empty) apartRun := by
    decide +kernel
  have hx := Machine.ReachableBy.of_follows (init_trace rfl) run
  exact ⟨_, hx, by decide +kernel, (ties_in_order hx).1⟩

/-- Four tasks with one deadline.  `BinaryHeap::pop` puts the last one at the root and sifts it down
past the second of two equal children, so the third one comes out before the second. -/
def tiedRun : List IoState.Action :=
  postDelayed 0 5 5 ++ postDelayed 1 5 5 ++ postDelayed 2 5 5 ++ postDelayed 3 5 5 ++
    [.io .popTask, .tick 5] ++ runDelayed 5 0 5 ++ runDelayed 5 2 5 ++ runDelayed 5 1 5 ++
    runDelayed 5 3 5

theorem tiedRun_out_of_order :
    ∃ x, traceMachine.Reachable x ∧ x.2.pushedDelayed = [⟨5, 0⟩, ⟨5, 1⟩, ⟨5, 2⟩, ⟨5, 3⟩] ∧
      x.2.delayedTasks = [⟨5, 0⟩, ⟨5, 2⟩, ⟨5, 1⟩, ⟨5, 3⟩] ∧
      ¬ TiesInOrder x.2.posted x.2.delayedTasks := by
  have run : traceMachine.Follows (fun _ _ => True) (.new 0 fun _ => true, .empty) tiedRun := by
    decide +kernel
  have hx := Machine.ReachableBy.of_follows (init_trace rfl) run
  have pushed : (traceMachine.runList (.new 0 fun _ => true, .empty) tiedRun).2.pushedDelayed =
      [⟨5, 0⟩, ⟨5, 1⟩, ⟨5, 2⟩, ⟨5, 3⟩] := by
    decide +kernel
  have ran : (traceMachine.runList (.new 0 fun _ => true, .empty) tiedRun).2.delayedTasks =
      [⟨5, 0⟩, ⟨5, 2⟩, ⟨5, 1⟩, ⟨5, 3⟩] := by
    decide +kernel
  refine ⟨_, hx, pushed, ran, fun order => ?_⟩
  rw [ran, IoTrace.posted, pushed] at order
  -- the second task would have run before the third
  have before := order 1 2 ⟨5, 1⟩ ⟨5, 2⟩ 5 (by decide) rfl rfl (by decide)
  have first : Before [(⟨5, 0⟩ : IoDelayedTask), ⟨5, 2⟩] ⟨5, 1⟩ ⟨5, 2⟩ :=
    .of_append (m := [(⟨5, 1⟩ : IoDelayedTask), ⟨5, 3⟩]) (by decide) before (by decide)
  exact absurd first.mem (by decide)

end RustIo
