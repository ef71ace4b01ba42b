import RustBase.Support.Lock
import RustBase.Task.Allocation

/-!
# Task — one worker at a time, tasks in push order

`has_worker` is a test-and-set lock on the sequence: `will_run_task` acquires it, the store of
`did_process_task` releases it, and a refused worker touches nothing.  So however often a sequence
stands in the priority queue, at most one worker is between the two (`reachable_exclusive`).

`Lane pushed started hand x` is the account of the task numbers of the sequence `x`: those pushed
with `push_task`, in push order, are those of the tasks that were called, then the one a worker has
taken and not called yet (`hand`), then those still queued.  Only the holder of the lock takes tasks
and calls them, so the account is kept by every step (`reachable_lane`).
-/

namespace RustTask
open Support

/-! ### The account of a sequence -/

namespace Sequence

/-- The numbers of the queued tasks. -/
def queueNums (x : Sequence) : List ℕ := x.immediateQueue.map Task.sequenceNum

/-- The numbers of the delayed tasks. -/
def delayedNums (x : Sequence) : List ℕ :=
  x.delayedQueue.elems.map fun d => d.task.sequenceNum

end Sequence

/-- The numbers `pushed` with `push_task`, of the tasks `started`, of those in `hand`, and of those
in the queues of `x`. -/
structure Lane (pushed started hand : List ℕ) (x : Sequence) : Prop where
  order : (started ++ hand ++ x.queueNums).filter (· ∈ pushed) = pushed
  nodup : (started ++ hand ++ x.queueNums ++ x.delayedNums).Nodup
  below : ∀ n ∈ started ++ hand ++ x.queueNums ++ x.delayedNums, n < x.nextSequenceNum
  pushed_below : ∀ n ∈ pushed, n < x.nextSequenceNum
  pushed_lt : pushed.Pairwise (· < ·)
  delayed : ∀ n ∈ x.delayedNums, n ∉ pushed

namespace Lane

variable {pushed started hand : List ℕ} {x : Sequence}

theorem new (traits : TaskTraits) : Lane [] [] [] (.new traits) :=
  ⟨rfl, List.nodup_nil, nofun, nofun, .nil, nofun⟩

/-- The account is about the queues only. -/
theorem congr {y : Sequence} (h : Lane pushed started hand x)
    (hi : y.immediateQueue = x.immediateQueue) (hd : y.delayedQueue = x.delayedQueue)
    (hn : y.nextSequenceNum = x.nextSequenceNum) : Lane pushed started hand y := by
  have hq : y.queueNums = x.queueNums := congrArg (List.map _) hi
  have hd' : y.delayedNums = x.delayedNums := by rw [Sequence.delayedNums, hd]; rfl
  refine ⟨?_, ?_, ?_, ?_, h.pushed_lt, ?_⟩
  · rw [hq]; exact h.order
  · rw [hq, hd']; exact h.nodup
  · rw [hq, hd', hn]; exact h.below
  · rw [hn]; exact h.pushed_below
  · rw [hd']; exact h.delayed

theorem pushTask (h : Lane pushed started hand x) (t : Task) :
    Lane (pushed ++ [x.nextSequenceNum]) started hand (x.pushTask t) := by
  have hq : (x.pushTask t).queueNums = x.queueNums ++ [x.nextSequenceNum] := by
    simp [Sequence.queueNums, Sequence.pushTask]
  have hd : (x.pushTask t).delayedNums = x.delayedNums := rfl
  have fresh : x.nextSequenceNum ∉ started ++ hand ++ x.queueNums ++ x.delayedNums :=
    fun hm => Nat.lt_irrefl _ (h.below _ hm)
  -- the new number moves from behind the delayed ones to the end of the queue
  have perm : (started ++ hand ++ (x.pushTask t).queueNums ++ (x.pushTask t).delayedNums).Perm
      (x.nextSequenceNum :: (started ++ hand ++ x.queueNums ++ x.delayedNums)) := by
    rw [hq, hd]
    simp only [List.append_assoc, List.singleton_append]
    refine ((List.perm_middle.append_left _).append_left _).trans ?_
    rw [← List.append_assoc, ← List.append_assoc]
    exact List.perm_middle.trans (by simp)
  refine ⟨?_, perm.nodup_iff.mpr (List.nodup_cons.mpr ⟨fresh, h.nodup⟩), fun n hn => ?_,
    fun n hn => ?_, ?_, fun n hn hp => ?_⟩
  · rw [hq, ← List.append_assoc, List.filter_append]
    have old : (started ++ hand ++ x.queueNums).filter (· ∈ pushed ++ [x.nextSequenceNum]) =
        (started ++ hand ++ x.queueNums).filter (· ∈ pushed) := by
      refine List.filter_congr fun n hn => ?_
      have : n ≠ x.nextSequenceNum := fun e => fresh (e ▸ List.mem_append_left _ hn)
      simp [this]
    rw [old, h.order]
    simp
  · rcases List.mem_cons.mp (perm.mem_iff.mp hn) with rfl | hn
    · exact Nat.lt_succ_self _
    · exact Nat.lt_succ_of_lt (h.below n hn)
  · rcases List.mem_append.mp hn with hn | hn
    · exact Nat.lt_succ_of_lt (h.pushed_below n hn)
    · rw [List.mem_singleton.mp hn]; exact Nat.lt_succ_self _
  · refine List.pairwise_append.mpr ⟨h.pushed_lt, List.pairwise_singleton .., fun a ha b hb => ?_⟩
    rw [List.mem_singleton.mp hb]
    exact h.pushed_below a ha
  · rcases List.mem_append.mp hp with hp | hp
    · exact h.delayed n hn hp
    · rw [List.mem_singleton.mp hp] at hn
      exact fresh (List.mem_append_right _ hn)

theorem pushDelayedTask (h : Lane pushed started hand x) (t : Task) (r : Instant) :
    Lane pushed started hand (x.pushDelayedTask t r) := by
  have hd : (x.pushDelayedTask t r).delayedNums.Perm (x.nextSequenceNum :: x.delayedNums) :=
    (List.perm_orderedInsert DelayedTask.Le _ _).map _
  have fresh : x.nextSequenceNum ∉ started ++ hand ++ x.queueNums ++ x.delayedNums :=
    fun hm => Nat.lt_irrefl _ (h.below _ hm)
  have perm : (started ++ hand ++ x.queueNums ++ (x.pushDelayedTask t r).delayedNums).Perm
      (x.nextSequenceNum :: (started ++ hand ++ x.queueNums ++ x.delayedNums)) :=
    (hd.append_left _).trans List.perm_middle
  refine ⟨h.order, perm.nodup_iff.mpr (List.nodup_cons.mpr ⟨fresh, h.nodup⟩), fun n hn => ?_,
    fun n hn => Nat.lt_succ_of_lt (h.pushed_below n hn), h.pushed_lt, fun n hn hp => ?_⟩
  · rcases List.mem_cons.mp (perm.mem_iff.mp hn) with rfl | hn
    · exact Nat.lt_succ_self _
    · exact Nat.lt_succ_of_lt (h.below n hn)
  · rcases List.mem_cons.mp (hd.mem_iff.mp hn) with rfl | hn
    · exact Nat.lt_irrefl _ (h.pushed_below _ hp)
    · exact h.delayed n hn hp

/-- The flush moves delayed numbers, none of them pushed with `push_task`, to the queue. -/
theorem flush (h : Lane pushed started hand x) (now : Instant) :
    Lane pushed started hand (x.flushReadyDelayedTasks now) := by
  let ready := (x.delayedQueue.popWhile (fun d => d.readyTime ≤ now)).1
  have hq : (x.flushReadyDelayedTasks now).queueNums =
      x.queueNums ++ ready.map fun d => d.task.sequenceNum := by
    simp [Sequence.queueNums, Sequence.flushReadyDelayedTasks, ready]
  have hd : x.delayedNums = ready.map (fun d => d.task.sequenceNum) ++
      (x.flushReadyDelayedTasks now).delayedNums := by
    simp only [Sequence.delayedNums, Sequence.flushReadyDelayedTasks, ready, MinHeap.popWhile]
    rw [← List.map_append, List.takeWhile_append_dropWhile]
  have all : started ++ hand ++ (x.flushReadyDelayedTasks now).queueNums ++
      (x.flushReadyDelayedTasks now).delayedNums =
      started ++ hand ++ x.queueNums ++ x.delayedNums := by
    rw [hq, hd]; simp only [List.append_assoc]
  refine ⟨?_, all ▸ h.nodup, all ▸ h.below, h.pushed_below, h.pushed_lt, fun n hn =>
    h.delayed n (hd ▸ List.mem_append_right _ hn)⟩
  have none : (ready.map fun d => d.task.sequenceNum).filter (· ∈ pushed) = [] := by
    refine List.filter_eq_nil_iff.mpr fun n hn => ?_
    simpa using h.delayed n (hd ▸ List.mem_append_left _ hn)
  rw [hq, ← List.append_assoc, List.filter_append, h.order, none, List.append_nil]

/-- `take_task` moves the first queued number to the hand. -/
theorem takeTask (h : Lane pushed started [] x) (now : Instant) :
    Lane pushed started ((x.takeTask now).1.toList.map Task.sequenceNum) (x.takeTask now).2 := by
  have hf := h.flush now
  cases hq : (x.flushReadyDelayedTasks now).immediateQueue with
  | nil =>
      have : (x.takeTask now).1 = none := by simp [Sequence.takeTask, hq]
      rw [this]
      exact hf.congr (by simp [Sequence.takeTask, hq]) rfl rfl
  | cons t ts =>
      have h₁ : (x.takeTask now).1 = some t := by simp [Sequence.takeTask, hq]
      have h₂ : (x.flushReadyDelayedTasks now).queueNums =
          t.sequenceNum :: (x.takeTask now).2.queueNums := by
        simp [Sequence.queueNums, Sequence.takeTask, hq]
      have all : started ++ [] ++ (x.flushReadyDelayedTasks now).queueNums =
          started ++ [t.sequenceNum] ++ (x.takeTask now).2.queueNums := by
        rw [h₂]; simp
      rw [h₁]
      exact ⟨all ▸ hf.order, all ▸ hf.nodup, all ▸ hf.below, hf.pushed_below, hf.pushed_lt,
        hf.delayed⟩

/-- Calling the task in hand. -/
theorem call {n : ℕ} (h : Lane pushed started [n] x) : Lane pushed (started ++ [n]) [] x := by
  obtain ⟨h₁, h₂, h₃, h₄, h₅, h₆⟩ := h
  refine ⟨?_, ?_, ?_, h₄, h₅, h₆⟩
  · simpa using h₁
  · simpa using h₂
  · simpa using h₃

/-- The tasks pushed with `push_task` that were called are the first of those pushed. -/
theorem started_prefix (h : Lane pushed started hand x) :
    started.filter (· ∈ pushed) <+: pushed := by
  refine ⟨(hand ++ x.queueNums).filter (· ∈ pushed), ?_⟩
  rw [← List.filter_append, ← List.append_assoc]
  exact h.order

theorem started_nodup (h : Lane pushed started hand x) : started.Nodup :=
  ((h.nodup.of_append_left).of_append_left).of_append_left

end Lane

/-! ### The claim section -/

/-- The sequence a worker has claimed: it is between its successful `will_run_task` and the clearing
store of `did_process_task`. -/
def WorkerPhase.claim : WorkerPhase → Option SeqId
  | .claimed q | .took q _ | .running q _ _ | .ran q => some q
  | _ => none

/-- The worker unwound out of a callback. -/
def WorkerPhase.unwound : WorkerPhase → Bool
  | .dead _ _ => true
  | _ => false

/-- The sequence whose `has_worker` a worker set and did not clear: a worker that unwound in the
claim section never clears it. -/
def WorkerPhase.holder : WorkerPhase → Option SeqId
  | .claimed q | .took q _ | .running q _ _ | .ran q | .dead q _ => some q
  | _ => none

theorem WorkerPhase.claim_eq_holder {x : WorkerPhase} (h : x.unwound = false) :
    x.claim = x.holder := by
  cases x with
  | dead q t => cases h
  | _ => rfl

namespace Pool

variable {s : Pool}

/-- `has_worker` is held by the worker in the claim section. -/
def ClaimExclusive (s : Pool) : Prop :=
  Exclusive (fun q => (s.seqs q).hasWorker) (fun w => (s.workers w).claim)

/-- `has_worker` is held by the worker that set it. -/
def HolderExclusive (s : Pool) : Prop :=
  Exclusive (fun q => (s.seqs q).hasWorker) (fun w => (s.workers w).holder)

/-- A step moves one worker, the one whose step it is, or none.  The worker that moves had not
unwound, and has afterwards when the step is the unwinding. -/
theorem workers_cases {a : Action} (ha : s.Enabled a) :
    ((s.next a).workers = s.workers ∧ a.panics = false) ∨
    ∃ w x, (s.next a).workers = Function.update s.workers w x ∧ (s.workers w).unwound = false ∧
      x.unwound = a.panics ∧ ∃ b, a = .worker w b := by
  have at_ : ∀ {w : Tid} {x : WorkerPhase}, s.workers w = x →
      (s.workers w).unwound = x.unwound := fun h => congrArg WorkerPhase.unwound h
  cases a with
  | worker w a =>
      cases a with
      | wakeSpuriously => exact .inl ⟨rfl, rfl⟩
      | getWorkExit | getWorkPop e | getWorkWait | resume | notify c =>
          exact .inr ⟨w, _, rfl, at_ ha.1, rfl, _, rfl⟩
      | willRunTask q =>
          refine .inr ⟨w, _, rfl, at_ ha, ?_, _, rfl⟩
          split <;> rfl
      | takeTask q =>
          refine .inr ⟨w, _, rfl, at_ ha, ?_, _, rfl⟩
          split <;> rfl
      | didProcessTask q =>
          refine .inr ⟨w, _, rfl, at_ ha, ?_, _, rfl⟩
          split <;> rfl
      | enterCallback q t =>
          simp only [next, workerNext, enterCallback]
          split
          · split
            · exact .inr ⟨w, .ran q, rfl, at_ ha, rfl, _, rfl⟩
            · exact .inr ⟨w, .running q t .body, rfl, at_ ha, rfl, _, rfl⟩
          · exact .inr ⟨w, .running q t .body, rfl, at_ ha, rfl, _, rfl⟩
      | callbackReturns q t =>
          simp only [next, workerNext, callbackReturns]
          split
          · exact .inr ⟨w, .running q t .returned, rfl, at_ ha, rfl, _, rfl⟩
          · exact .inr ⟨w, .ran q, rfl, at_ ha, rfl, _, rfl⟩
      | afterRunTask q t =>
          simp only [next, workerNext, afterRunTask]
          split
          · exact .inr ⟨w, .ran q, rfl, at_ ha, rfl, _, rfl⟩
          · exact .inl ⟨rfl, rfl⟩
      | attach | callTask q t | callbackPanics q t | clearHasWorker q | rePush q =>
          exact .inr ⟨w, _, rfl, at_ ha, rfl, _, rfl⟩
  | poster p a =>
      cases a with
      | post path delay => cases path <;> exact .inl ⟨rfl, rfl⟩
      | willPostTask traits id delay =>
          simp only [next, posterNext, willPostTask]
          split <;> exact .inl ⟨rfl, rfl⟩
      | push d cb ready => cases d <;> cases ready <;> exact .inl ⟨rfl, rfl⟩
      | _ => exact .inl ⟨rfl, rfl⟩
  | timer a => cases a <;> exact .inl ⟨rfl, rfl⟩
  | closer c a => cases a <;> exact .inl ⟨rfl, rfl⟩
  | createRunner traits => exact .inl ⟨rfl, rfl⟩
  | tick d => exact .inl ⟨rfl, rfl⟩

/-- A worker is moved by its own steps only. -/
theorem workers_of_other {a : Action} (ha : s.Enabled a) {w : Tid} (h : ∀ b, a ≠ .worker w b) :
    (s.next a).workers w = s.workers w := by
  rcases workers_cases ha with ⟨e, -⟩ | ⟨u, x, e, -, -, b, hb⟩
  · rw [e]
  · have hne : w ≠ u := by
      rintro rfl
      exact h b hb
    rw [e, Function.update_of_ne hne]

theorem holder_update (f : Tid → WorkerPhase) (w : Tid) (x : WorkerPhase) :
    (fun u => (Function.update f w x u).holder) =
      Function.update (fun u => (f u).holder) w x.holder := by
  funext u
  by_cases e : u = w
  · subst e; simp
  · simp [e]

theorem hasWorker_update (f : SeqId → Sequence) (q : SeqId) (x : Sequence) :
    (fun r => (Function.update f q x r).hasWorker) =
      Function.update (fun r => (f r).hasWorker) q x.hasWorker := by
  funext r
  by_cases e : r = q
  · subst e; simp
  · simp [e]

/-- Flags that do not change, and a worker that neither claims nor releases. -/
theorem HolderExclusive.congr {s' : Pool} (h : HolderExclusive s)
    (hf : ∀ q, (s'.seqs q).hasWorker = (s.seqs q).hasWorker)
    (ho : ∀ w, (s'.workers w).holder = (s.workers w).holder) : HolderExclusive s' :=
  Exclusive.congr h hf ho

theorem holder_setWorker {w : Tid} {x : WorkerPhase} (hx : x.holder = (s.workers w).holder)
    (u : Tid) : (Function.update s.workers w x u).holder = (s.workers u).holder := by
  by_cases e : u = w
  · subst e; simpa using hx
  · simp [e]

theorem hasWorker_setSeq {q : SeqId} {x : Sequence} (hx : x.hasWorker = (s.seqs q).hasWorker)
    (r : SeqId) : (Function.update s.seqs q x r).hasWorker = (s.seqs r).hasWorker := by
  by_cases e : r = q
  · subst e; simpa using hx
  · simp [e]

theorem holderExclusive_worker (h : HolderExclusive s) {w : Tid} {a : WorkerAct}
    (ha : s.WorkerEnabled w a) :
    HolderExclusive (s.workerNext w a) := by
  -- a step inside or outside the claim section
  have move : ∀ {x : WorkerPhase} {s' : Pool}, x.holder = (s.workers w).holder →
      s'.seqs = s.seqs → s'.workers = Function.update s.workers w x → HolderExclusive s' :=
    fun hx hs hw => h.congr (fun q => by rw [hs]) fun u => by rw [hw]; exact holder_setWorker hx u
  have at_ : ∀ {x : WorkerPhase}, s.workers w = x → (s.workers w).holder = x.holder :=
    congrArg WorkerPhase.holder
  cases a with
  | attach => exact move (x := .getWork) (at_ ha).symm rfl rfl
  | getWorkExit => exact move (x := .exited) (at_ ha.1).symm rfl rfl
  | getWorkPop e => exact move (x := .popped e.taskSource) (at_ ha.1).symm rfl rfl
  | getWorkWait => exact move (x := .waiting) (at_ ha.1).symm rfl rfl
  | wakeSpuriously => exact h
  | resume => exact move (x := .getWork) (at_ ha.1).symm rfl rfl
  | willRunTask q =>
      have hw : (s.workers w).holder = none := at_ ha
      cases hq : (s.seqs q).hasWorker with
      | true =>
          refine h.congr (hasWorker_setSeq ?_) (holder_setWorker ?_)
          · exact hq.symm
          · simp only [hq]; exact hw.symm
      | false =>
          refine Exclusive.congr (Exclusive.acquire h hq hw) (congrFun (hasWorker_update ..)) ?_
          simp only [workerNext, Sequence.willRunTask, hq]
          exact congrFun (holder_update ..)
  | takeTask q =>
      refine h.congr (hasWorker_setSeq rfl) (holder_setWorker (Eq.trans ?_ (at_ ha).symm))
      split <;> rfl
  | callTask q t => exact move (x := .running q t .entered) (at_ ha).symm rfl rfl
  | enterCallback q t =>
      simp only [workerNext, enterCallback]
      split
      · split
        · exact move (x := .ran q) (at_ ha).symm rfl rfl
        · exact move (x := .running q t .body) (at_ ha).symm rfl rfl
      · exact move (x := .running q t .body) (at_ ha).symm rfl rfl
  | callbackReturns q t =>
      simp only [workerNext, callbackReturns]
      split
      · exact move (x := .running q t .returned) (at_ ha).symm rfl rfl
      · exact move (x := .ran q) (at_ ha).symm rfl rfl
  | callbackPanics q t => exact move (x := .dead q t) (at_ ha).symm rfl rfl
  | afterRunTask q t =>
      simp only [workerNext, afterRunTask]
      split
      · exact move (x := .ran q) (at_ ha).symm rfl rfl
      · exact h
  | clearHasWorker q =>
      exact Exclusive.congr (Exclusive.release h (at_ ha)) (congrFun (hasWorker_update ..))
        (congrFun (holder_update ..))
  | didProcessTask q =>
      refine h.congr (fun _ => rfl) (holder_setWorker (Eq.trans ?_ (at_ ha).symm))
      split <;> rfl
  | rePush q => exact move (x := .notifying) (at_ ha).symm rfl rfl
  | notify c => exact move (x := .getWork) (at_ ha.1).symm rfl rfl

/-- A post leaves every claim flag as it is: a sequence it makes was not in use. -/
theorem holderExclusive_poster (h : HolderExclusive s) (wf : s.WellFormed) {p : Tid}
    {a : PosterAct} : HolderExclusive (s.posterNext p a) := by
  cases a with
  | post path delay => cases path <;> exact h
  | willPostTask traits id delay =>
      simp only [posterNext, willPostTask]
      split <;> exact h
  | push d cb ready =>
      have opened : ∀ q, ((s.openDest d).seqs q).hasWorker = (s.seqs q).hasWorker := by
        cases d with
        | own traits => exact hasWorker_setSeq (by rw [wf.fresh _ (Nat.le_refl _)]; rfl)
        | runner q => exact fun _ => rfl
      have workers : (s.openDest d).workers = s.workers := by cases d <;> rfl
      cases ready <;> refine h.congr (fun q => Eq.trans ?_ (opened q)) fun w => by
        exact congrArg _ (congrFun workers w)
      all_goals
        refine hasWorker_setSeq ?_ q
        rfl
  | readyTime | pushSource | addSequence | notifyGroup | notifyTimer => exact h

theorem holderExclusive_next (h : HolderExclusive s) (wf : s.WellFormed) {a : Action}
    (ha : s.Enabled a) : HolderExclusive (s.next a) := by
  cases a with
  | worker w a => exact holderExclusive_worker h ha
  | poster p a => exact holderExclusive_poster h wf
  | timer a => cases a <;> exact h
  | closer c a => cases a <;> exact h
  | createRunner traits =>
      exact h.congr (hasWorker_setSeq (by rw [wf.fresh _ (Nat.le_refl _)]; rfl)) fun _ => rfl
  | tick d => exact h

theorem holderExclusive_new (n : ℕ) : HolderExclusive (Pool.new n) := by
  have none : ∀ w, ((Pool.new n).workers w).holder = none := fun w => by
    simp only [Pool.new]; split <;> rfl
  refine ⟨fun q hq => ?_, fun w q hw => ?_, fun w _ q hw => ?_⟩
  · cases hq
  · rw [none w] at hw; cases hw
  · rw [none w] at hw; cases hw

end Pool

theorem reachable_holderExclusive {C : Pool → Pool.Action → Prop} {s : Pool}
    (h : poolMachine.ReachableBy C s) : s.HolderExclusive := by
  refine h.invariant (fun s h₀ => ?_) fun s a hr hi _ ha =>
    Pool.holderExclusive_next hi (reachable_wellFormed hr) ha
  obtain ⟨n, rfl⟩ := h₀
  exact Pool.holderExclusive_new n

theorem not_unwound_new (n : ℕ) (w : Tid) : ((Pool.new n).workers w).unwound = false := by
  simp only [Pool.new]; split <;> rfl

/-- A worker unwinds by a panic only. -/
theorem reachable_not_unwound {s : Pool} (h : poolMachine.ReachableBy NoPanic s) (w : Tid) :
    (s.workers w).unwound = false := by
  refine h.invariant (I := fun s => ∀ w, (s.workers w).unwound = false) (fun s h₀ => ?_)
    (fun s a _ hi hp ha => ?_) w
  · obtain ⟨n, rfl⟩ := h₀
    exact not_unwound_new n
  · intro u
    rcases Pool.workers_cases ha with ⟨hw, -⟩ | ⟨w, x, hw, -, hx, -⟩
    · rw [show (poolMachine.next s a).workers = _ from hw]; exact hi u
    · rw [show (poolMachine.next s a).workers = _ from hw]
      by_cases e : u = w
      · subst e; rw [Function.update_self, hx]; exact hp
      · rw [Function.update_of_ne e]; exact hi u

theorem reachable_claimExclusive {s : Pool} (h : poolMachine.ReachableBy NoPanic s) :
    s.ClaimExclusive :=
  Exclusive.congr (reachable_holderExclusive h) (fun _ => rfl) fun w =>
    WorkerPhase.claim_eq_holder (reachable_not_unwound h w)

/-! ### The history of a sequence -/

def Event.pushedNum (q : SeqId) : Event → Option ℕ
  | .pushed r n => if r = q then some n else none
  | _ => none

def Event.startedNum (q : SeqId) : Event → Option ℕ
  | .started _ r n => if r = q then some n else none
  | _ => none

/-- The task a worker has taken and not called yet: its sequence and its number. -/
def WorkerPhase.hand : WorkerPhase → Option (SeqId × ℕ)
  | .took q t => some (q, t.sequenceNum)
  | _ => none

theorem WorkerPhase.claim_of_hand {x : WorkerPhase} {q : SeqId} {n : ℕ}
    (h : x.hand = some (q, n)) : x.claim = some q := by
  cases x <;> cases h
  rfl

namespace Pool

variable {s : Pool}

/-- The numbers given by `push_task` on `q`, in push order. -/
def pushedNums (s : Pool) (q : SeqId) : List ℕ := s.log.filterMap (Event.pushedNum q)

/-- The numbers of the tasks of `q` that workers called, in the order of the calls. -/
def startedNums (s : Pool) (q : SeqId) : List ℕ := s.log.filterMap (Event.startedNum q)

@[simp] theorem pushedNums_emit (e : Event) (q : SeqId) :
    (s.emit e).pushedNums q = s.pushedNums q ++ (e.pushedNum q).toList := by
  cases h : e.pushedNum q <;> simp [pushedNums, emit, h]

@[simp] theorem startedNums_emit (e : Event) (q : SeqId) :
    (s.emit e).startedNums q = s.startedNums q ++ (e.startedNum q).toList := by
  cases h : e.startedNum q <;> simp [startedNums, emit, h]

/-- `s'` adds no push and no call to the history of `s`. -/
structure SameHistory (s s' : Pool) : Prop where
  pushed : ∀ q, s'.pushedNums q = s.pushedNums q
  started : ∀ q, s'.startedNums q = s.startedNums q

theorem SameHistory.of_log {s' : Pool} (h : s'.log = s.log) : SameHistory s s' := by
  refine ⟨fun q => ?_, fun q => ?_⟩
  · rw [pushedNums, h]; rfl
  · rw [startedNums, h]; rfl

theorem SameHistory.emit {s' : Pool} (h : SameHistory s s') {e : Event}
    (hp : ∀ q, e.pushedNum q = none) (hr : ∀ q, e.startedNum q = none) :
    SameHistory s (s'.emit e) := by
  refine ⟨fun q => ?_, fun q => ?_⟩
  · rw [pushedNums_emit, hp, h.pushed]; simp
  · rw [startedNums_emit, hr, h.started]; simp

/-- `hand` is what the workers have taken from `q` and not called yet. -/
structure InHand (s : Pool) (q : SeqId) (hand : List ℕ) : Prop where
  some : ∀ w n, (s.workers w).hand = some (q, n) → hand = [n]
  none : (∀ w n, (s.workers w).hand ≠ .some (q, n)) → hand = []

theorem InHand.of_iff {s' : Pool} {q : SeqId} {hand : List ℕ} (h : s.InHand q hand)
    (hw : ∀ w n, (s'.workers w).hand = .some (q, n) ↔ (s.workers w).hand = .some (q, n)) :
    s'.InHand q hand :=
  ⟨fun w n hn => h.some w n ((hw w n).mp hn), fun hn => h.none fun w n e => hn w n ((hw w n).mpr e)⟩

/-- The account of every sequence. -/
def Lanes (s : Pool) : Prop :=
  ∀ q, ∃ hand, s.InHand q hand ∧ Lane (s.pushedNums q) (s.startedNums q) hand (s.seqs q)

/-- Queues and history that do not change, and workers that keep what they have taken. -/
theorem Lanes.congr {s' : Pool} (h : Lanes s)
    (hs : ∀ q, (s'.seqs q).immediateQueue = (s.seqs q).immediateQueue ∧
      (s'.seqs q).delayedQueue = (s.seqs q).delayedQueue ∧
      (s'.seqs q).nextSequenceNum = (s.seqs q).nextSequenceNum)
    (hr : SameHistory s s') (hw : ∀ w, (s'.workers w).hand = (s.workers w).hand) : Lanes s' := by
  intro q
  obtain ⟨hand, hh, hl⟩ := h q
  refine ⟨hand, hh.of_iff fun w n => by rw [hw w], ?_⟩
  rw [hr.pushed, hr.started]
  exact hl.congr (hs q).1 (hs q).2.1 (hs q).2.2

theorem hand_setWorker {w : Tid} {x : WorkerPhase} (hx : x.hand = (s.workers w).hand) (u : Tid) :
    (Function.update s.workers w x u).hand = (s.workers u).hand := by
  by_cases e : u = w
  · subst e; simpa using hx
  · simp [e]

/-- A sequence whose update leaves its queues alone. -/
theorem queues_setSeq {q : SeqId} {x : Sequence}
    (hx : x.immediateQueue = (s.seqs q).immediateQueue ∧ x.delayedQueue = (s.seqs q).delayedQueue ∧
      x.nextSequenceNum = (s.seqs q).nextSequenceNum) (r : SeqId) :
    ((s.setSeq q x).seqs r).immediateQueue = (s.seqs r).immediateQueue ∧
      ((s.setSeq q x).seqs r).delayedQueue = (s.seqs r).delayedQueue ∧
      ((s.setSeq q x).seqs r).nextSequenceNum = (s.seqs r).nextSequenceNum := by
  by_cases e : r = q
  · subst e; simpa [setSeq] using hx
  · simp [setSeq, e]

/-- The claimer takes: nothing of `q` was in hand, and what is now is what it took. -/
theorem lanes_takeTask (h : Lanes s) (he : ClaimExclusive s) {w : Tid} {q : SeqId}
    (ha : s.workers w = .claimed q) : Lanes (s.workerNext w (.takeTask q)) := by
  have alone : ∀ u n, (s.workers u).hand = some (q, n) → False := fun u n hu => by
    have e : u = w := he.unique u w q (WorkerPhase.claim_of_hand hu) (by rw [ha]; rfl)
    rw [e, ha] at hu; cases hu
  have other : ∀ {u}, u ≠ w → (s.workerNext w (.takeTask q)).workers u = s.workers u :=
    fun hu => Function.update_of_ne hu ..
  have self : ((s.workerNext w (.takeTask q)).workers w).hand =
      ((s.seqs q).takeTask s.clock).1.map fun t => (q, t.sequenceNum) := by
    simp only [workerNext, setWorker, Function.update_self]
    cases ((s.seqs q).takeTask s.clock).1 <;> rfl
  intro r
  obtain ⟨hand, hh, hl⟩ := h r
  by_cases e : r = q
  · subst e
    obtain rfl := hh.none fun u n hu => alone u n hu
    refine ⟨((s.seqs r).takeTask s.clock).1.toList.map Task.sequenceNum,
      ⟨fun u n hu => ?_, fun hn => ?_⟩, ?_⟩
    · by_cases eu : u = w
      · subst eu
        rw [self] at hu
        obtain ⟨t, ht, e⟩ := Option.map_eq_some_iff.mp hu
        cases e
        rw [ht]; rfl
      · rw [other eu] at hu
        exact (alone u n hu).elim
    · cases ht : ((s.seqs r).takeTask s.clock).1 with
      | none => rfl
      | some t => exact absurd (by rw [self, ht]; rfl) (hn w t.sequenceNum)
    · have : (s.workerNext w (.takeTask r)).seqs r = ((s.seqs r).takeTask s.clock).2 :=
        Function.update_self ..
      rw [this]
      exact hl.takeTask s.clock
  · have keep : ∀ u n, ((s.workerNext w (.takeTask q)).workers u).hand = some (r, n) ↔
        (s.workers u).hand = some (r, n) := fun u n => by
      by_cases eu : u = w
      · subst eu
        rw [self, ha]
        cases ((s.seqs q).takeTask s.clock).1 <;> simp [WorkerPhase.hand, Ne.symm e]
      · rw [other eu]
    refine ⟨hand, hh.of_iff keep, ?_⟩
    have : (s.workerNext w (.takeTask q)).seqs r = s.seqs r := Function.update_of_ne e ..
    rw [this]
    exact hl

/-- The claimer calls the task it has in hand. -/
theorem lanes_callTask (h : Lanes s) (he : ClaimExclusive s) {w : Tid} {q : SeqId} {t : Task}
    (ha : s.workers w = .took q t) : Lanes (s.workerNext w (.callTask q t)) := by
  have self : ((s.workerNext w (.callTask q t)).workers w).hand = none := by
    simp [workerNext, setWorker, emit, WorkerPhase.hand]
  have other : ∀ {u}, u ≠ w → (s.workerNext w (.callTask q t)).workers u = s.workers u :=
    fun hu => Function.update_of_ne hu ..
  intro r
  obtain ⟨hand, hh, hl⟩ := h r
  by_cases e : r = q
  · subst e
    obtain rfl := hh.some w t.sequenceNum (by rw [ha]; rfl)
    refine ⟨[], ⟨fun u n hu => ?_, fun _ => rfl⟩, ?_⟩
    · by_cases eu : u = w
      · rw [eu, self] at hu; cases hu
      · rw [other eu] at hu
        exact absurd (he.unique u w r (WorkerPhase.claim_of_hand hu) (by rw [ha]; rfl)) eu
    · rw [workerNext, pushedNums_emit, startedNums_emit]
      simp only [Event.pushedNum, Event.startedNum, if_pos, Option.toList, List.append_nil]
      exact hl.call
  · have keep : ∀ u n, ((s.workerNext w (.callTask q t)).workers u).hand = some (r, n) ↔
        (s.workers u).hand = some (r, n) := fun u n => by
      by_cases eu : u = w
      · subst eu
        rw [self, ha]
        simp [WorkerPhase.hand, Ne.symm e]
      · rw [other eu]
    refine ⟨hand, hh.of_iff keep, ?_⟩
    rw [workerNext, pushedNums_emit, startedNums_emit]
    simp only [Event.pushedNum, Event.startedNum, if_neg (Ne.symm e), Option.toList,
      List.append_nil]
    exact hl

/-- A push to one sequence: its account grows, the others are as they were. -/
theorem Lanes.push {s' : Pool} (h : Lanes s) {q : SeqId} {e : Event} {x : Sequence}
    (hs : s'.seqs = Function.update s.seqs q x) (hw : s'.workers = s.workers)
    (hlog : s'.log = (s.emit e).log) (he : ∀ r ≠ q, e.pushedNum r = none)
    (he' : ∀ r, e.startedNum r = none)
    (hx : ∀ hand, Lane (s.pushedNums q) (s.startedNums q) hand (s.seqs q) →
      Lane (s.pushedNums q ++ (e.pushedNum q).toList) (s.startedNums q) hand x) : Lanes s' := by
  have hp : ∀ r, s'.pushedNums r = s.pushedNums r ++ (e.pushedNum r).toList := fun r => by
    rw [← pushedNums_emit, pushedNums, hlog]; rfl
  have hr : ∀ r, s'.startedNums r = s.startedNums r := fun r => by
    rw [startedNums, hlog]
    exact (startedNums_emit e r).trans (by rw [he' r]; simp)
  intro r
  obtain ⟨hand, hh, hl⟩ := h r
  refine ⟨hand, hh.of_iff fun w n => by rw [hw], ?_⟩
  rw [hp, hr, hs]
  by_cases er : r = q
  · subst er
    rw [Function.update_self]
    exact hx hand hl
  · rw [Function.update_of_ne er, he r er, Option.toList, List.append_nil]
    exact hl

theorem Lanes.openDest (h : Lanes s) (wf : s.WellFormed) (d : Dest) : Lanes (s.openDest d) := by
  cases d with
  | own traits =>
      refine h.congr (queues_setSeq ?_) (.of_log rfl) fun _ => rfl
      exact wf.fresh s.nextSeq (Nat.le_refl _) ▸ ⟨rfl, rfl, rfl⟩
  | runner q => exact h

theorem lanes_pushTask (h : Lanes s) (wf : s.WellFormed) (p : Tid) (d : Dest) (cb : Callback)
    (ready : Option Instant) : Lanes (s.pushTask p d cb ready) := by
  have ne : ∀ {q r : SeqId} {n : ℕ}, r ≠ q → Event.pushedNum r (.pushed q n) = none :=
    fun hr => if_neg (Ne.symm hr)
  cases ready with
  | none =>
      refine (h.openDest wf d).push (q := s.destSeq d) rfl rfl rfl (fun r => ne) (fun r => rfl)
        fun hand hl => ?_
      simp only [Event.pushedNum, if_pos, Option.toList]
      exact hl.pushTask _
  | some r =>
      refine (h.openDest wf d).push (q := s.destSeq d) rfl rfl rfl (fun _ _ => rfl) (fun _ => rfl)
        fun hand hl => ?_
      simp only [Event.pushedNum, Option.toList, List.append_nil]
      exact hl.pushDelayedTask _ r

/-! ### The steps -/

theorem lanes_worker (h : Lanes s) (he : ClaimExclusive s) {w : Tid} {a : WorkerAct}
    (ha : s.WorkerEnabled w a) : Lanes (s.workerNext w a) := by
  -- a step that neither takes a task nor calls one
  have move : ∀ {x : WorkerPhase} {s' : Pool}, x.hand = (s.workers w).hand →
      s'.seqs = s.seqs → s'.workers = Function.update s.workers w x → SameHistory s s' →
      Lanes s' := fun hx hs hw hr =>
    h.congr (fun q => by rw [hs]; exact ⟨rfl, rfl, rfl⟩) hr fun u => by
      rw [hw]; exact hand_setWorker hx u
  have at_ : ∀ {x : WorkerPhase}, s.workers w = x → (s.workers w).hand = x.hand :=
    congrArg WorkerPhase.hand
  cases a with
  | attach => exact move (x := .getWork) (at_ ha).symm rfl rfl (.of_log rfl)
  | getWorkExit => exact move (x := .exited) (at_ ha.1).symm rfl rfl (.of_log rfl)
  | getWorkPop e =>
      exact move (x := .popped e.taskSource) (at_ ha.1).symm rfl rfl (.of_log rfl)
  | getWorkWait => exact move (x := .waiting) (at_ ha.1).symm rfl rfl (.of_log rfl)
  | wakeSpuriously => exact h.congr (fun _ => ⟨rfl, rfl, rfl⟩) (.of_log rfl) fun _ => rfl
  | resume => exact move (x := .getWork) (at_ ha.1).symm rfl rfl (.of_log rfl)
  | willRunTask q =>
      refine h.congr (queues_setSeq ⟨rfl, rfl, rfl⟩) (.of_log rfl)
        (hand_setWorker (Eq.trans ?_ (at_ ha).symm))
      split <;> rfl
  | takeTask q => exact lanes_takeTask h he ha
  | callTask q t => exact lanes_callTask h he ha
  | enterCallback q t =>
      simp only [workerNext, enterCallback]
      split
      · split
        · refine move (x := .ran q) (at_ ha).symm rfl rfl ?_
          refine .emit (.emit (.of_log ?_) ?_ ?_) ?_ ?_ <;> intros <;> rfl
        · refine move (x := .running q t .body) (at_ ha).symm rfl rfl ?_
          refine .emit (.of_log ?_) ?_ ?_ <;> intros <;> rfl
      · refine move (x := .running q t .body) (at_ ha).symm rfl rfl ?_
        refine .emit (.of_log ?_) ?_ ?_ <;> intros <;> rfl
  | callbackReturns q t =>
      simp only [workerNext, callbackReturns]
      split
      · exact move (x := .running q t .returned) (at_ ha).symm rfl rfl (.of_log rfl)
      · refine move (x := .ran q) (at_ ha).symm rfl rfl ?_
        refine .emit (.of_log ?_) ?_ ?_ <;> intros <;> rfl
  | callbackPanics q t =>
      exact move (x := .dead q t) (at_ ha).symm rfl rfl (.of_log rfl)
  | afterRunTask q t =>
      simp only [workerNext, afterRunTask]
      split
      · refine move (x := .ran q) (at_ ha).symm rfl rfl ?_
        refine .emit (.of_log ?_) ?_ ?_ <;> intros <;> rfl
      · exact h
  | clearHasWorker q =>
      exact h.congr (queues_setSeq ⟨rfl, rfl, rfl⟩) (.of_log rfl)
        (hand_setWorker (at_ ha).symm)
  | didProcessTask q =>
      refine h.congr (fun _ => ⟨rfl, rfl, rfl⟩) (.of_log rfl)
        (hand_setWorker (Eq.trans ?_ (at_ ha).symm))
      split <;> rfl
  | rePush q => exact move (x := .notifying) (at_ ha).symm rfl rfl (.of_log rfl)
  | notify c => exact move (x := .getWork) (at_ ha.1).symm rfl rfl (.of_log rfl)

theorem lanes_next (h : Lanes s) (he : ClaimExclusive s) (wf : s.WellFormed) {a : Action}
    (ha : s.Enabled a) : Lanes (s.next a) := by
  have same : ∀ {s' : Pool}, s'.seqs = s.seqs → s'.workers = s.workers → SameHistory s s' →
      Lanes s' := fun hs hw hr =>
    h.congr (fun q => by rw [hs]; exact ⟨rfl, rfl, rfl⟩) hr fun u => by rw [hw]
  cases a with
  | worker w a => exact lanes_worker h he ha
  | poster p a =>
      cases a with
      | post path delay =>
          cases path with
          | pool traits => exact same rfl rfl (.of_log rfl)
          | parallel traits | sequenced q =>
              refine same rfl rfl (.emit (.of_log ?_) ?_ ?_) <;> intros <;> rfl
      | willPostTask traits id delay =>
          simp only [next, posterNext, willPostTask]
          split <;> refine same rfl rfl (.emit (.of_log ?_) ?_ ?_) <;> intros <;> rfl
      | push d cb ready => exact lanes_pushTask h wf p d cb ready
      | readyTime | pushSource | addSequence | notifyGroup | notifyTimer =>
          exact same rfl rfl (.of_log rfl)
  | timer a => cases a <;> exact same rfl rfl (.of_log rfl)
  | closer c a => cases a <;> exact same rfl rfl (.of_log rfl)
  | createRunner traits =>
      exact (h.openDest wf (.own traits)).congr (fun _ => ⟨rfl, rfl, rfl⟩) (.of_log rfl)
        fun _ => rfl
  | tick d => exact same rfl rfl (.of_log rfl)

theorem lanes_new (n : ℕ) : Lanes (Pool.new n) := by
  intro q
  refine ⟨[], ⟨fun w m hm => ?_, fun _ => rfl⟩, Lane.new _⟩
  simp only [Pool.new] at hm
  split at hm <;> cases hm

end Pool

theorem reachable_lanes {s : Pool} (h : poolMachine.ReachableBy NoPanic s) : s.Lanes := by
  refine h.invariant (fun s h₀ => ?_) fun s a hr hi _ ha =>
    Pool.lanes_next hi (reachable_claimExclusive hr) (reachable_wellFormed hr) ha
  obtain ⟨n, rfl⟩ := h₀
  exact Pool.lanes_new n

/-- **One worker at a time, tasks in push order.**  In every state that runs without unwinding
callbacks reach, `has_worker` is set exactly while one worker is in the claim section, no two are in
it at once, and the tasks pushed with `push_task` that were called are the first ones of those
pushed, in push order, none of them called twice. -/
theorem sequence_exclusive_in_order {s : Pool} (h : poolMachine.ReachableBy NoPanic s)
    (q : SeqId) :
    ((s.seqs q).hasWorker = true ↔ ∃! w, (s.workers w).claim = some q) ∧
    (∀ w u, (s.workers w).claim = some q → (s.workers u).claim = some q → w = u) ∧
    (s.pushedNums q).Pairwise (· < ·) ∧
    (s.startedNums q).filter (· ∈ s.pushedNums q) <+: s.pushedNums q ∧
    (s.startedNums q).Nodup := by
  have he := reachable_claimExclusive h
  obtain ⟨hand, -, hl⟩ := reachable_lanes h q
  exact ⟨he.iff_existsUnique q, fun w u hw hu => he.unique w u q hw hu, hl.pushed_lt,
    hl.started_prefix, hl.started_nodup⟩

/-- Two posts to one runner, two workers that pop its two entries, and one of them refused. -/
def raceRun : List Pool.Action :=
  [.createRunner .default,
   .poster 0 (.post (.sequenced 0) none), .poster 0 (.push (.runner 0) (.plain 0) none),
   .poster 1 (.post (.sequenced 0) none), .poster 1 (.push (.runner 0) (.plain 1) none),
   .poster 0 (.pushSource 0), .poster 1 (.pushSource 0),
   .worker 0 (.getWorkPop ⟨.userVisible, 0, 0⟩), .worker 1 (.getWorkPop ⟨.userVisible, 0, 0⟩),
   .worker 0 (.willRunTask 0), .worker 1 (.willRunTask 0), .worker 0 (.takeTask 0),
   .worker 0 (.callTask 0 ⟨.plain 0, 0⟩)]

theorem raceRun_exclusive_in_order :
    let s := poolMachine.runList (Pool.new 2) raceRun
    (s.seqs 0).hasWorker = true ∧ s.pushedNums 0 = [0, 1] ∧ s.startedNums 0 = [0] ∧
      (∃! w, (s.workers w).claim = some 0) ∧
      (s.startedNums 0).filter (· ∈ s.pushedNums 0) <+: s.pushedNums 0 := by
  have follows : poolMachine.Follows NoPanic (Pool.new 2) raceRun := by decide +kernel
  obtain ⟨held, -, -, order, -⟩ := sequence_exclusive_in_order (.of_follows ⟨2, rfl⟩ follows) 0
  exact ⟨by decide +kernel, by decide +kernel, by decide +kernel, held.mp (by decide +kernel),
    order⟩

end RustTask
