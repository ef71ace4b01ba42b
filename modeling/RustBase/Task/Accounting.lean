import RustBase.Support.Ledger
import RustBase.Task.Allocation

/-!
# Task — what blocks shutdown

`num_tasks_blocking_shutdown` counts the `BlockShutdown` tasks that `ThreadPool`'s own posting
functions accepted and whose wrapped callback has not returned.  The proof follows every post from
its gate through its poster, its sequence and its worker (`Place`): the pool is a ledger of these
jobs (`Balanced`), so the counter is right, a decrement finds it positive, and a zero means that all
of them have finished.
-/

namespace RustTask
open Support

/-! ### The tracker -/

namespace TaskTracker

/-- What the gate does: it counts the post, lets it in uncounted, or turns it away. -/
theorem willPostTask_cases (x : TaskTracker) (traits : TaskTraits) :
    (x.willPostTask traits =
        (true, { x with numTasksBlockingShutdown := x.numTasksBlockingShutdown + 1 }) ∧
      x.shutdownStarted = false ∧ traits.shutdownBehavior = .blockShutdown) ∨
    (x.willPostTask traits = (true, x) ∧ traits.shutdownBehavior ≠ .blockShutdown) ∨
    (x.willPostTask traits = (false, x) ∧ x.shutdownStarted = true ∧
      traits.shutdownBehavior ≠ .continueOnShutdown) := by
  cases hs : x.shutdownStarted with
  | false =>
      by_cases e : traits.shutdownBehavior = .blockShutdown
      · exact .inl ⟨by simp [willPostTask, hs, e], rfl, e⟩
      · exact .inr (.inl ⟨by simp [willPostTask, hs, e], e⟩)
  | true =>
      by_cases e : traits.shutdownBehavior = .continueOnShutdown
      · exact .inr (.inl ⟨by simp [willPostTask, hs, e], by rw [e]; nofun⟩)
      · exact .inr (.inr ⟨by simp [willPostTask, hs, e], rfl, e⟩)

end TaskTracker

/-! ### Places -/

/-- Where the task of a post is. -/
inductive Place where
  | poster (p : Tid)
  | sequence (q : SeqId)
  | worker (w : Tid)
  deriving DecidableEq

/-- The post a callback is of, and whether the tracker counts it. -/
def Callback.job (cb : Callback) : ℕ × Bool := (cb.id, cb.blocks)

def PosterPhase.jobs : PosterPhase → List (ℕ × Bool)
  | .gate _ id _ => [(id, false)]
  | .readClock _ cb _ | .push _ cb _ => [cb.job]
  | _ => []

def WorkerPhase.jobs : WorkerPhase → List (ℕ × Bool)
  | .took _ t | .running _ t _ | .dead _ t => [t.callback.job]
  | _ => []

def Sequence.jobs (x : Sequence) : List (ℕ × Bool) :=
  x.immediateQueue.map (fun t => t.callback.job) ++
    x.delayedQueue.elems.map fun d => d.task.callback.job

namespace Sequence

variable {x : Sequence}

theorem jobs_pushTask (t : Task) : (x.pushTask t).jobs.Perm (t.callback.job :: x.jobs) := by
  simp only [jobs, pushTask, List.map_append, List.map_cons, List.map_nil, List.append_assoc,
    List.singleton_append]
  exact List.perm_middle

theorem jobs_pushDelayedTask (t : Task) (r : Instant) :
    (x.pushDelayedTask t r).jobs.Perm (t.callback.job :: x.jobs) :=
  (((List.perm_orderedInsert DelayedTask.Le _ _).map _).append_left _).trans List.perm_middle

/-- `take_task` takes one job out, or none. -/
theorem jobs_takeTask (now : Instant) :
    x.jobs.Perm ((x.takeTask now).1.toList.map (fun t => t.callback.job) ++
      (x.takeTask now).2.jobs) := by
  have flushed : x.jobs = (x.flushReadyDelayedTasks now).jobs := by
    simp only [jobs, flushReadyDelayedTasks, MinHeap.popWhile, List.map_append, List.map_map,
      List.append_assoc]
    congr 1
    conv_lhs => rw [← List.takeWhile_append_dropWhile
      (p := fun d : DelayedTask => decide (d.readyTime ≤ now)) (l := x.delayedQueue.elems)]
    rw [List.map_append]
    rfl
  rw [flushed]
  cases hq : (x.flushReadyDelayedTasks now).immediateQueue with
  | nil => simp [takeTask, jobs, hq]
  | cons t ts => simp [takeTask, jobs, hq]

end Sequence

/-! ### The history of the posts -/

def Event.blockId : Event → Option ℕ
  | .accepted id (.pool traits) =>
      if traits.shutdownBehavior = .blockShutdown then some id else none
  | _ => none

def Event.finishedId : Event → Option ℕ
  | .finished id => some id
  | _ => none

namespace Pool

variable {s s' : Pool}

/-- The `BlockShutdown` posts that `will_post_task` accepted. -/
def blockIds (s : Pool) : List ℕ := s.log.filterMap Event.blockId

/-- The posts whose callback has returned. -/
def finishedIds (s : Pool) : List ℕ := s.log.filterMap Event.finishedId

@[simp] theorem blockIds_emit (e : Event) :
    (s.emit e).blockIds = s.blockIds ++ e.blockId.toList := by
  cases h : e.blockId <;> simp [blockIds, emit, h]

@[simp] theorem finishedIds_emit (e : Event) :
    (s.emit e).finishedIds = s.finishedIds ++ e.finishedId.toList := by
  cases h : e.finishedId <;> simp [finishedIds, emit, h]

def jobs (s : Pool) : Place → List (ℕ × Bool)
  | .poster p => (s.posters p).jobs
  | .sequence q => (s.seqs q).jobs
  | .worker w => (s.workers w).jobs

/-- The tracker's counter is right. -/
def Balanced (s : Pool) : Prop :=
  Ledger s.jobs s.blockIds s.finishedIds s.tracker.numTasksBlockingShutdown s.nextPost

theorem jobs_worker {w : Tid} {x : WorkerPhase} (hp : s'.posters = s.posters)
    (hs : ∀ q, (s'.seqs q).jobs = (s.seqs q).jobs)
    (hw : s'.workers = Function.update s.workers w x) :
    s'.jobs = Function.update s.jobs (.worker w) x.jobs := by
  funext a
  cases a with
  | poster p => simp [jobs, hp]
  | sequence q => simp [jobs, hs]
  | worker u =>
      by_cases e : u = w
      · subst e; simp [jobs, hw]
      · simp [jobs, hw, e]

theorem jobs_poster {p : Tid} {x : PosterPhase} (hw : s'.workers = s.workers)
    (hs : s'.seqs = s.seqs) (hp : s'.posters = Function.update s.posters p x) :
    s'.jobs = Function.update s.jobs (.poster p) x.jobs := by
  funext a
  cases a with
  | poster u =>
      by_cases e : u = p
      · subst e; simp [jobs, hp]
      · simp [jobs, hp, e]
  | sequence q => simp [jobs, hs]
  | worker w => simp [jobs, hw]

theorem jobs_poster_of_ne {p : Tid} {x : PosterPhase} {a : Place} (ha : a ≠ .poster p)
    (hw : s'.workers = s.workers) (hs : s'.seqs = s.seqs)
    (hp : s'.posters = Function.update s.posters p x) : s'.jobs a = s.jobs a := by
  rw [jobs_poster hw hs hp]
  exact Function.update_of_ne ha ..

/-- The same job in another phase of its poster. -/
theorem jobs_poster_same {p : Tid} {x : PosterPhase} (hx : x.jobs = (s.posters p).jobs)
    (hw : s'.workers = s.workers) (hs : s'.seqs = s.seqs)
    (hp : s'.posters = Function.update s.posters p x) : s'.jobs = s.jobs := by
  rw [jobs_poster hw hs hp, hx]
  exact Function.update_eq_self ..

theorem jobs_eq (hp : s'.posters = s.posters) (hs : ∀ q, (s'.seqs q).jobs = (s.seqs q).jobs)
    (hw : s'.workers = s.workers) : s'.jobs = s.jobs := by
  funext a
  cases a with
  | poster p => simp [jobs, hp]
  | sequence q => exact hs q
  | worker w => simp [jobs, hw]

/-- A sequence whose update leaves its queues alone. -/
theorem jobs_setSeq {q : SeqId} {x : Sequence} (hx : x.jobs = (s.seqs q).jobs) (r : SeqId) :
    (Function.update s.seqs q x r).jobs = (s.seqs r).jobs := by
  by_cases e : r = q
  · subst e; simpa using hx
  · simp [e]

/-- The counter and the history of the posts are as they were. -/
structure SameBooks (s s' : Pool) : Prop where
  block : s'.blockIds = s.blockIds
  finished : s'.finishedIds = s.finishedIds
  count : s'.tracker.numTasksBlockingShutdown = s.tracker.numTasksBlockingShutdown
  next : s'.nextPost = s.nextPost

theorem SameBooks.of_log (hl : s'.log = s.log)
    (hc : s'.tracker.numTasksBlockingShutdown = s.tracker.numTasksBlockingShutdown)
    (hn : s'.nextPost = s.nextPost) : SameBooks s s' :=
  ⟨by rw [blockIds, hl]; rfl, by rw [finishedIds, hl]; rfl, hc, hn⟩

theorem SameBooks.emit (h : SameBooks s s') {e : Event} (hb : e.blockId = none)
    (hf : e.finishedId = none) : SameBooks s (s'.emit e) := by
  refine ⟨?_, ?_, h.count, h.next⟩
  · rw [blockIds_emit, hb, h.block]; exact List.append_nil _
  · rw [finishedIds_emit, hf, h.finished]; exact List.append_nil _

/-- If the step is an `Instant::now() + delay`, the sum is representable. -/
def Representable (s : Pool) : Action → Prop
  | .poster _ (.readyTime _ _ delay) => s.clock + delay ≤ instantMax
  | _ => True

/-- What a step does to the jobs.  `L` says that it may give a counted one up. -/
def Booked (L : Prop) (s s' : Pool) : Prop :=
  Ledger.Step L s.jobs s'.jobs s.blockIds s.finishedIds s.tracker.numTasksBlockingShutdown
    s.nextPost s'.blockIds s'.finishedIds s'.tracker.numTasksBlockingShutdown s'.nextPost

variable {L : Prop}

/-- A step that leaves the jobs where they are. -/
theorem Booked.same (hj : s'.jobs = s.jobs) (hs : SameBooks s s') : Booked L s s' := by
  unfold Booked
  rw [hs.block, hs.finished, hs.count, hs.next]
  exact .keep fun a => by rw [hj]

/-! ### The worker -/

/-- A worker's callback returns. -/
theorem Booked.finish {w : Tid} {cb : Callback} {x : WorkerPhase}
    (hw : (s.workers w).jobs = [cb.job]) (hx : x.jobs = [])
    (hj : s'.jobs = Function.update s.jobs (.worker w) x.jobs) (hb : s'.blockIds = s.blockIds)
    (hf : s'.finishedIds = s.finishedIds)
    (hc : s'.tracker.numTasksBlockingShutdown =
      if cb.blocks then s.tracker.numTasksBlockingShutdown - 1
      else s.tracker.numTasksBlockingShutdown)
    (hn : s'.nextPost = s.nextPost) : Booked L s (s'.emit (.finished cb.id)) := by
  have hj' : (s'.emit (.finished cb.id)).jobs = Function.update s.jobs (.worker w) x.jobs := hj
  unfold Booked
  rw [hj', blockIds_emit, finishedIds_emit, hb, hf]
  simp only [emit, hc, hn, Event.blockId, Event.finishedId, Option.toList, List.append_nil]
  refine .close (x := cb.job) (a := .worker w) ?_ fun a ha => Function.update_of_ne ha ..
  rw [Function.update_self, hx, show s.jobs (.worker w) = _ from hw]

theorem booked_takeTask {w : Tid} {q : SeqId} (ha : s.workers w = .claimed q) :
    Booked L s (s.workerNext w (.takeTask q)) := by
  have mine : s.jobs (.worker w) = [] := by simp [jobs, ha, WorkerPhase.jobs]
  have seq : (s.workerNext w (.takeTask q)).jobs (.sequence q) =
      ((s.seqs q).takeTask s.clock).2.jobs := by
    simp [jobs, workerNext, setSeq, setWorker]
  have worker : (s.workerNext w (.takeTask q)).jobs (.worker w) =
      ((s.seqs q).takeTask s.clock).1.toList.map fun t => t.callback.job := by
    simp only [jobs, workerNext, setSeq, setWorker, Function.update_self]
    cases ((s.seqs q).takeTask s.clock).1 <;> rfl
  have other : ∀ a, a ≠ .sequence q → a ≠ .worker w →
      (s.workerNext w (.takeTask q)).jobs a = s.jobs a := fun a h₁ h₂ => by
    cases a with
    | poster p => rfl
    | sequence r =>
        exact congrArg Sequence.jobs (Function.update_of_ne (fun e => h₁ (congrArg _ e)) ..)
    | worker u =>
        exact congrArg WorkerPhase.jobs (Function.update_of_ne (fun e => h₂ (congrArg _ e)) ..)
  have perm : (s.jobs (.sequence q)).Perm _ := Sequence.jobs_takeTask (x := s.seqs q) s.clock
  cases ht : ((s.seqs q).takeTask s.clock).1 with
  | none =>
      rw [ht] at worker perm
      refine .keep fun a => ?_
      by_cases h₁ : a = .sequence q
      · subst h₁; rw [seq]; exact perm.symm
      · by_cases h₂ : a = .worker w
        · subst h₂; rw [worker, mine]; rfl
        · rw [other a h₁ h₂]
  | some t =>
      rw [ht] at worker perm
      refine .move (a := .sequence q) (b := .worker w) (x := t.callback.job) (by simp) ?_ ?_ other
      · rw [seq]; exact perm
      · rw [worker, mine]; rfl

/-- A step of the worker that keeps its job. -/
theorem Booked.move {w : Tid} {x y : WorkerPhase} {s' : Pool}
    (ha : s.workers w = y) (hx : x.jobs = y.jobs) (hp : s'.posters = s.posters)
    (hs : ∀ q, (s'.seqs q).jobs = (s.seqs q).jobs)
    (hw : s'.workers = Function.update s.workers w x) (hb : SameBooks s s') : Booked L s s' := by
  refine .same ?_ hb
  rw [jobs_worker hp hs hw, hx, ← ha]
  exact Function.update_eq_self ..

theorem booked_enterCallback {w : Tid} {q : SeqId} {t : Task}
    (ha : s.workers w = .running q t .entered) :
    Booked L s (s.workerNext w (.enterCallback q t)) := by
  have started : ∀ {id}, Booked L s ((s.setWorker w (.running q t .body)).emit (.ran id)) :=
    fun {id} => by
      refine .move (x := .running q t .body) ha rfl rfl (fun _ => rfl) rfl
        (.emit (.of_log ?_ ?_ ?_) ?_ ?_) <;> rfl
  simp only [workerNext, enterCallback]
  split
  · rename_i traits id hcb
    split
    · rename_i hskip
      -- a skipped task was not counted
      have hb : t.callback.blocks = false := by
        rw [hcb]; simp [Callback.blocks, hskip.2]
      rw [show id = t.callback.id by rw [hcb]; rfl]
      refine .finish (x := .ran q) (congrArg WorkerPhase.jobs ha) rfl
        (jobs_worker rfl (fun _ => rfl) rfl) ?_ ?_ ?_ ?_
      · rw [blockIds_emit]; exact List.append_nil _
      · rw [finishedIds_emit]; exact List.append_nil _
      · rw [hb]; rfl
      · rfl
    · exact started
  · exact started

theorem booked_callbackReturns {w : Tid} {q : SeqId} {t : Task}
    (ha : s.workers w = .running q t .body) :
    Booked L s (s.workerNext w (.callbackReturns q t)) := by
  simp only [workerNext, callbackReturns]
  split
  · exact .move (x := .running q t .returned) ha rfl rfl (fun _ => rfl) rfl
      (.of_log rfl rfl rfl)
  · rename_i id hcb
    have hb : t.callback.blocks = false := by rw [hcb]; rfl
    rw [show id = t.callback.id by rw [hcb]; rfl]
    refine .finish (x := .ran q) (congrArg WorkerPhase.jobs ha) rfl
      (jobs_worker rfl (fun _ => rfl) rfl) rfl rfl ?_ rfl
    rw [hb]; rfl

theorem booked_afterRunTask {w : Tid} {q : SeqId} {t : Task}
    (ha : s.workers w = .running q t .returned) :
    Booked L s (s.workerNext w (.afterRunTask q t)) := by
  simp only [workerNext, afterRunTask]
  split
  · rename_i traits id hcb
    rw [show id = t.callback.id by rw [hcb]; rfl]
    refine .finish (x := .ran q) (congrArg WorkerPhase.jobs ha) rfl
      (jobs_worker rfl (fun _ => rfl) rfl) rfl rfl ?_ rfl
    rw [hcb]
    by_cases e : traits.shutdownBehavior = .blockShutdown <;>
      simp [setWorker, TaskTracker.afterRunTask, Callback.blocks, e]
  · exact .same rfl (.of_log rfl rfl rfl)

theorem booked_worker {w : Tid} {a : WorkerAct} (ha : s.WorkerEnabled w a) :
    Booked L s (s.workerNext w a) := by
  cases a with
  | attach => exact .move (x := .getWork) ha rfl rfl (fun _ => rfl) rfl (.of_log rfl rfl rfl)
  | getWorkExit =>
      exact .move (x := .exited) ha.1 rfl rfl (fun _ => rfl) rfl (.of_log rfl rfl rfl)
  | getWorkPop e =>
      exact .move (x := .popped e.taskSource) ha.1 rfl rfl (fun _ => rfl) rfl
        (.of_log rfl rfl rfl)
  | getWorkWait =>
      exact .move (x := .waiting) ha.1 rfl rfl (fun _ => rfl) rfl (.of_log rfl rfl rfl)
  | wakeSpuriously => exact .same (jobs_eq rfl (fun _ => rfl) rfl) (.of_log rfl rfl rfl)
  | resume =>
      exact .move (x := .getWork) ha.1 rfl rfl (fun _ => rfl) rfl (.of_log rfl rfl rfl)
  | willRunTask q =>
      refine .move ha ?_ rfl (jobs_setSeq rfl) rfl (.of_log rfl rfl rfl)
      split <;> rfl
  | takeTask q => exact booked_takeTask ha
  | callTask q t =>
      refine .move (x := .running q t .entered) ha rfl rfl (fun _ => rfl) rfl
        (.emit (.of_log ?_ ?_ ?_) ?_ ?_) <;> rfl
  | enterCallback q t => exact booked_enterCallback ha
  | callbackReturns q t => exact booked_callbackReturns ha
  | callbackPanics q t =>
      exact .move (x := .dead q t) ha rfl rfl (fun _ => rfl) rfl (.of_log rfl rfl rfl)
  | afterRunTask q t => exact booked_afterRunTask ha
  | clearHasWorker q =>
      exact .move (x := .cleared q) ha rfl rfl (jobs_setSeq rfl) rfl (.of_log rfl rfl rfl)
  | didProcessTask q =>
      refine .move ha ?_ rfl (fun _ => rfl) rfl (.of_log rfl rfl rfl)
      split <;> rfl
  | rePush q =>
      exact .move (x := .notifying) ha rfl rfl (fun _ => rfl) rfl (.of_log rfl rfl rfl)
  | notify c =>
      exact .move (x := .getWork) ha.1 rfl rfl (fun _ => rfl) rfl (.of_log rfl rfl rfl)

/-! ### The poster -/

theorem jobs_deliver (d : Dest) (cb : Callback) (delay : Option ℕ) :
    (PosterPhase.deliver d cb delay).jobs = [cb.job] := by
  cases delay <;> rfl

/-- A post starts: the next number is its own. -/
theorem booked_post {p : Tid} {path : Path} {delay : Option ℕ} (ha : s.posters p = .idle) :
    Booked L s (s.post p path delay) := by
  have mine : s.jobs (.poster p) = [] := by simp [jobs, ha, PosterPhase.jobs]
  have issue : ∀ {x : PosterPhase} {s' : Pool}, x.jobs = [(s.nextPost, false)] →
      s'.jobs = Function.update s.jobs (.poster p) x.jobs → s'.blockIds = s.blockIds →
      s'.finishedIds = s.finishedIds →
      s'.tracker.numTasksBlockingShutdown = s.tracker.numTasksBlockingShutdown →
      s'.nextPost = s.nextPost + 1 → Booked L s s' := fun {x s'} hx hj hb hf hc hn => by
    unfold Booked
    rw [hj, hb, hf, hc, hn, hx]
    refine .issue (b := .poster p) ?_ fun a ha => Function.update_of_ne ha ..
    rw [Function.update_self, mine]
  cases path with
  | pool traits =>
      exact issue (x := .gate traits s.nextPost delay) rfl (jobs_poster rfl rfl rfl) rfl rfl rfl rfl
  | parallel traits | sequenced q =>
      refine issue (jobs_deliver _ (.plain s.nextPost) delay) (jobs_poster rfl rfl rfl)
        ?_ ?_ rfl rfl
      · simp only [post, blockIds_emit]; exact List.append_nil _
      · simp only [post, finishedIds_emit]; exact List.append_nil _

/-- The gate: the post is counted, let in or turned away. -/
theorem booked_willPostTask {p : Tid} {traits : TaskTraits} {id : ℕ} {delay : Option ℕ}
    (ha : s.posters p = .gate traits id delay) :
    Booked L s (s.willPostTask p traits id delay) := by
  have mine : s.jobs (.poster p) = [(id, false)] := by simp [jobs, ha, PosterPhase.jobs]
  rcases s.tracker.willPostTask_cases traits with ⟨hw, -, e⟩ | ⟨hw, e⟩ | ⟨hw, -, -⟩
  · simp only [willPostTask, hw, if_pos]
    unfold Booked
    rw [blockIds_emit, finishedIds_emit]
    simp only [Event.blockId, Event.finishedId, e, if_pos, Option.toList, List.append_nil]
    refine .open (a := .poster p) (l := []) (by rw [mine]) ?_ fun a ha => ?_
    · simp [jobs, emit, setPoster, jobs_deliver, Callback.job, Callback.id, Callback.blocks, e]
    · exact jobs_poster_of_ne ha rfl rfl rfl
  · simp only [willPostTask, hw, if_pos]
    refine .same ?_ (.emit (.of_log ?_ ?_ ?_) ?_ ?_)
    · refine jobs_poster_same (p := p) ?_ rfl rfl rfl
      rw [jobs_deliver, Callback.job, Callback.id, Callback.blocks, decide_eq_false e]
      exact mine.symm
    · rfl
    · rfl
    · rfl
    · simp [Event.blockId, e]
    · rfl
  · simp only [willPostTask, hw]
    unfold Booked
    rw [if_neg Bool.false_ne_true, blockIds_emit, finishedIds_emit]
    simp only [Event.blockId, Event.finishedId, Option.toList, List.append_nil]
    refine .drop (a := .poster p) (x := (id, false)) (fun h => absurd h Bool.false_ne_true) ?_
      fun a ha => ?_
    · rw [mine]; simp [jobs, emit, setPoster, PosterPhase.jobs]
    · exact jobs_poster_of_ne ha rfl rfl rfl

/-- The poster's job is in its sequence. -/
theorem booked_pushTask (wf : s.WellFormed) {p : Tid} {d : Dest} {cb : Callback}
    {ready : Option Instant} (ha : s.posters p = .push d cb ready) :
    Booked L s (s.pushTask p d cb ready) := by
  have mine : s.jobs (.poster p) = [cb.job] := by simp [jobs, ha, PosterPhase.jobs]
  have opened : ∀ q, ((s.openDest d).seqs q).jobs = (s.seqs q).jobs := by
    cases d with
    | own traits => exact jobs_setSeq (by rw [wf.fresh _ (Nat.le_refl _)]; rfl)
    | runner q => exact fun _ => rfl
  -- the new task goes to one sequence
  have move : ∀ {x : Sequence} {y : PosterPhase} {s' : Pool},
      x.jobs.Perm (cb.job :: ((s.openDest d).seqs (s.destSeq d)).jobs) → y.jobs = [] →
      s'.seqs = Function.update (s.openDest d).seqs (s.destSeq d) x →
      s'.posters = Function.update s.posters p y → s'.workers = s.workers → SameBooks s s' →
      Booked L s s' := fun {x y s'} hx hy hs hp hw hb => by
    unfold Booked
    rw [hb.block, hb.finished, hb.count, hb.next]
    refine .move (a := .poster p) (b := .sequence (s.destSeq d)) (x := cb.job) (by simp)
      ?_ ?_ fun a h₁ h₂ => ?_
    · have : s'.jobs (.poster p) = [] := by simp [jobs, hp, hy]
      rw [this, mine]
    · have : s'.jobs (.sequence (s.destSeq d)) = x.jobs := by simp [jobs, hs]
      rw [this]
      exact hx.trans (.cons _ (.of_eq (opened _)))
    · cases a with
      | poster u =>
          have e : u ≠ p := fun e => h₁ (congrArg _ e)
          simp [jobs, hp, e]
      | sequence q =>
          have e : q ≠ s.destSeq d := fun e => h₂ (congrArg _ e)
          simp only [jobs, hs, Function.update_of_ne e]
          exact opened q
      | worker w => simp [jobs, hw]
  have books : SameBooks s (s.openDest d) := by cases d <;> exact .of_log rfl rfl rfl
  have posters : (s.openDest d).posters = s.posters := by cases d <;> rfl
  have workers : (s.openDest d).workers = s.workers := by cases d <;> rfl
  cases ready with
  | none =>
      refine move (y := .pushSource (s.destSeq d)) (Sequence.jobs_pushTask _) rfl rfl
        (by rw [← posters]; rfl) workers (.emit ?_ ?_ ?_)
      · exact ⟨books.block, books.finished, books.count, books.next⟩
      · rfl
      · rfl
  | some r =>
      refine move (y := .addSequence (s.destSeq d) r) (Sequence.jobs_pushDelayedTask _ r) rfl rfl
        (by rw [← posters]; rfl) workers (.emit ?_ ?_ ?_)
      · exact ⟨books.block, books.finished, books.count, books.next⟩
      · rfl
      · rfl

theorem booked_poster (wf : s.WellFormed) {p : Tid} {a : PosterAct} (ha : s.PosterEnabled p a) :
    Booked (¬ s.Representable (.poster p a)) s (s.posterNext p a) := by
  -- a step that keeps the poster's job
  have move : ∀ {x : PosterPhase} {s' : Pool}, x.jobs = (s.posters p).jobs →
      s'.workers = s.workers → s'.seqs = s.seqs → s'.posters = Function.update s.posters p x →
      SameBooks s s' → Booked (¬ s.Representable (.poster p a)) s s' := fun hx hw hs hp hb =>
    .same (jobs_poster_same hx hw hs hp) hb
  have at_ : ∀ {x : PosterPhase}, s.posters p = x → (s.posters p).jobs = x.jobs :=
    congrArg PosterPhase.jobs
  cases a with
  | post path delay => exact booked_post ha.1
  | willPostTask traits id delay => exact booked_willPostTask ha
  | readyTime d cb delay =>
      cases hr : instantAdd s.clock delay with
      | some r =>
          simp only [posterNext, hr]
          exact move (x := .push d cb (some r)) (at_ ha).symm rfl rfl rfl (.of_log rfl rfl rfl)
      | none =>
          -- the post panics; its job stays counted and is gone
          have overflow : ¬ s.Representable (.poster p (.readyTime d cb delay)) := by
            simpa [instantAdd, Representable] using hr
          simp only [posterNext, hr]
          refine .drop (a := .poster p) (x := cb.job) (fun _ => overflow) ?_ fun a h₁ => ?_
          · rw [show s.jobs (.poster p) = _ from at_ ha]
            simp [jobs, setPoster, PosterPhase.jobs]
          · exact jobs_poster_of_ne h₁ rfl rfl rfl
  | push d cb ready => exact booked_pushTask wf ha
  | pushSource q => exact move (x := .notifyGroup) (at_ ha).symm rfl rfl rfl (.of_log rfl rfl rfl)
  | addSequence q r =>
      exact move (x := .notifyTimer) (at_ ha).symm rfl rfl rfl (.of_log rfl rfl rfl)
  | notifyGroup c => exact move (x := .idle) (at_ ha.1).symm rfl rfl rfl (.of_log rfl rfl rfl)
  | notifyTimer => exact move (x := .idle) (at_ ha).symm rfl rfl rfl (.of_log rfl rfl rfl)

/-- What every step does to the jobs: a counted one is given up only by a post that panics. -/
theorem booked_next (wf : s.WellFormed) {a : Action} (ha : s.Enabled a) :
    Booked (¬ s.Representable a) s (s.next a) := by
  cases a with
  | worker w a => exact booked_worker ha
  | poster p a => exact booked_poster wf ha
  | timer a => cases a <;> exact .same (jobs_eq rfl (fun _ => rfl) rfl) (.of_log rfl rfl rfl)
  | closer c a => cases a <;> exact .same (jobs_eq rfl (fun _ => rfl) rfl) (.of_log rfl rfl rfl)
  | createRunner traits =>
      refine .same (jobs_eq rfl (jobs_setSeq ?_) rfl) (.of_log rfl rfl rfl)
      rw [wf.fresh _ (Nat.le_refl _)]; rfl
  | tick d => exact .same (jobs_eq rfl (fun _ => rfl) rfl) (.of_log rfl rfl rfl)

theorem balanced_new (n : ℕ) : Balanced (Pool.new n) := by
  refine Ledger.empty fun a => ?_
  cases a with
  | poster p => rfl
  | sequence q => rfl
  | worker w => simp only [jobs, Pool.new]; split <;> rfl

end Pool

theorem reachable_balanced {C : Pool → Pool.Action → Prop} {s : Pool}
    (h : poolMachine.ReachableBy C s) : s.Balanced := by
  refine h.invariant (fun s h₀ => ?_) fun s a hr hi _ ha =>
    Ledger.step hi (Pool.booked_next (reachable_wellFormed hr) ha)
  obtain ⟨n, rfl⟩ := h₀
  exact Pool.balanced_new n

end RustTask
