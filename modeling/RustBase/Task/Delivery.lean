import RustBase.Task.Coverage
import RustBase.Task.Unwinding

/-!
# Task — a pushed task is delivered

The way of a callback that a task runner pushed without a delay: it waits in the queue of its
sequence under the number `push_task` gave it, a worker takes it, calls it, and it returns
(`Delivery`).  No step loses it (`delivery_next`), so at rest, when the workers are in `get_work`
and nothing is on the way to them, it has run (`Delivery.at_rest`).
-/

namespace RustTask
open Support

def Event.ranId : Event → Option ℕ
  | .ran id => some id
  | _ => none

namespace Pool

variable {s : Pool} {a : Action}

/-- The posts whose closure has begun. -/
def ranIds (s : Pool) : List ℕ := s.log.filterMap Event.ranId

/-- How far the callback `id` has come that is the task `n` of `q`. -/
inductive Delivery (s : Pool) (id : ℕ) (q : SeqId) (n : ℕ) : Prop where
  | queued (ht : ⟨.plain id, n⟩ ∈ (s.seqs q).immediateQueue)
  | taken (w : Tid) (hw : s.workers w = .took q ⟨.plain id, n⟩)
  | called (w : Tid) (hw : s.workers w = .running q ⟨.plain id, n⟩ .entered)
      (hs : n ∈ s.startedNums q)
  | running (w : Tid) (stage : Stage) (hw : s.workers w = .running q ⟨.plain id, n⟩ stage)
      (hs : n ∈ s.startedNums q) (hr : id ∈ s.ranIds)
  | unwound (w : Tid) (hw : s.workers w = .dead q ⟨.plain id, n⟩)
  | finished (hf : id ∈ s.finishedIds) (hs : n ∈ s.startedNums q) (hr : id ∈ s.ranIds)

/-! ### What a step leaves alone -/

/-- The events of a step. -/
def events (s : Pool) : Action → List Event
  | .worker w (.callTask q t) => [.started w q t.sequenceNum]
  | .worker _ (.enterCallback _ t) => match t.callback with
      | .wrapped traits id =>
          if s.tracker.shutdownStarted ∧ traits.shutdownBehavior = .skipOnShutdown then
            [.skipped id, .finished id]
          else [.ran id]
      | .plain id => [.ran id]
  | .worker _ (.callbackReturns _ t) => match t.callback with
      | .wrapped _ _ => []
      | .plain id => [.finished id]
  | .worker _ (.afterRunTask _ t) => match t.callback with
      | .wrapped _ id => [.finished id]
      | .plain _ => []
  | .poster _ (.post path _) => match path with
      | .pool _ => []
      | _ => [.accepted s.nextPost path]
  | .poster _ (.willPostTask traits id _) =>
      [if (s.tracker.willPostTask traits).1 then .accepted id (.pool traits) else .rejected id]
  | .poster _ (.push d _ ready) =>
      let n := ((s.openDest d).seqs (s.destSeq d)).nextSequenceNum
      match ready with
      | none => [.pushed (s.destSeq d) n]
      | some r => [.pushedDelayed (s.destSeq d) n r]
  | _ => []

/-- The log only grows, by the events of the step. -/
theorem log_next (a : Action) : (s.next a).log = s.log ++ s.events a := by
  have silent : s.log = s.log ++ [] := (List.append_nil _).symm
  cases a with
  | worker w a =>
      cases a with
      | callTask q t => rfl
      | enterCallback q t =>
          obtain ⟨cb, n⟩ := t
          cases cb with
          | plain id => rfl
          | wrapped traits id =>
              simp only [next, workerNext, enterCallback, events]
              split
              · exact List.append_assoc ..
              · rfl
      | callbackReturns q t =>
          obtain ⟨cb, n⟩ := t
          cases cb with
          | plain id => rfl
          | wrapped traits id => exact silent
      | afterRunTask q t =>
          obtain ⟨cb, n⟩ := t
          cases cb with
          | plain id => exact silent
          | wrapped traits id => rfl
      | _ => exact silent
  | poster p a =>
      cases a with
      | post path delay =>
          cases path with
          | pool traits => exact silent
          | parallel traits | sequenced q => rfl
      | willPostTask traits id delay =>
          simp only [next, posterNext, willPostTask, events]
          split <;> rfl
      | push d cb ready => cases d <;> cases ready <;> rfl
      | _ => exact silent
  | timer a => cases a <;> exact silent
  | closer c a => cases a <;> exact silent
  | createRunner traits | tick d => exact silent

/-- What the log says of the past stays said. -/
theorem mem_history_next {f : Event → Option ℕ} {n : ℕ} (h : n ∈ s.log.filterMap f) :
    n ∈ (s.next a).log.filterMap f := by
  rw [log_next, List.filterMap_append]
  exact List.mem_append_left _ h

/-- A poster is moved by its own steps only. -/
theorem posters_of_other {p : Tid} (h : ∀ b, a ≠ .poster p b) :
    (s.next a).posters p = s.posters p := by
  cases a with
  | poster u a =>
      have e : p ≠ u := fun e => h a (by rw [e])
      cases a with
      | post path delay => cases path <;> exact Function.update_of_ne e ..
      | willPostTask traits id delay =>
          simp only [next, posterNext, willPostTask]
          split <;> exact Function.update_of_ne e ..
      | push d cb ready => cases d <;> cases ready <;> exact Function.update_of_ne e ..
      | _ => exact Function.update_of_ne e ..
  | worker w a =>
      cases a with
      | enterCallback q t =>
          simp only [next, workerNext, enterCallback]
          split
          · split <;> rfl
          · rfl
      | callbackReturns q t =>
          simp only [next, workerNext, callbackReturns]
          split <;> rfl
      | afterRunTask q t =>
          simp only [next, workerNext, afterRunTask]
          split <;> rfl
      | _ => rfl
  | timer a => cases a <;> rfl
  | closer c a => cases a <;> rfl
  | createRunner traits | tick d => rfl

/-! ### The queue -/

/-- `take_task` takes the first task, and an immediate one is behind no later one. -/
theorem mem_takeTask {x : Sequence} {t : Task} (h : t ∈ x.immediateQueue) (now : Instant) :
    (x.takeTask now).1 = some t ∨ t ∈ (x.takeTask now).2.immediateQueue := by
  have flushed : t ∈ (x.flushReadyDelayedTasks now).immediateQueue :=
    List.mem_append_left _ h
  cases hq : (x.flushReadyDelayedTasks now).immediateQueue with
  | nil => rw [hq] at flushed; cases flushed
  | cons u us =>
      rw [hq] at flushed
      rcases List.mem_cons.mp flushed with rfl | ht
      · exact .inl (by simp [Sequence.takeTask, hq])
      · exact .inr (by simpa [Sequence.takeTask, hq] using ht)

/-- A queued task stays queued until a worker takes it. -/
theorem queued_next (wf : s.WellFormed) {q : SeqId} {t : Task}
    (ht : t ∈ (s.seqs q).immediateQueue) (a : Action) :
    t ∈ ((s.next a).seqs q).immediateQueue ∨ ∃ w, (s.next a).workers w = .took q t := by
  -- a sequence whose update keeps what it has queued
  have kept : ∀ {f : SeqId → Sequence} {r : SeqId} {x : Sequence}, t ∈ (f q).immediateQueue →
      (f r).immediateQueue ⊆ x.immediateQueue →
      t ∈ (Function.update f r x q).immediateQueue := fun {f r x} hf hx => by
    by_cases e : q = r
    · subst e; rw [Function.update_self]; exact hx hf
    · rwa [Function.update_of_ne e]
  have opened : ∀ {traits}, t ∈ ((s.newSequence traits).seqs q).immediateQueue := by
    refine kept (f := s.seqs) ht ?_
    rw [wf.fresh _ (Nat.le_refl _)]
    exact List.nil_subset _
  cases a with
  | worker w a =>
      cases a with
      | willRunTask r | clearHasWorker r => exact .inl (kept ht fun _ h => h)
      | takeTask r =>
          by_cases e : q = r
          · subst e
            rcases mem_takeTask ht s.clock with h | h
            · refine .inr ⟨w, ?_⟩
              simp only [next, workerNext, setSeq, setWorker, Function.update_self, h]
            · refine .inl ?_
              simpa only [next, workerNext, setSeq, setWorker, Function.update_self] using h
          · refine .inl ?_
            simpa only [next, workerNext, setSeq, setWorker, Function.update_of_ne e] using ht
      | enterCallback r u =>
          simp only [next, workerNext, enterCallback]
          split
          · split <;> exact .inl ht
          · exact .inl ht
      | callbackReturns r u =>
          simp only [next, workerNext, callbackReturns]
          split <;> exact .inl ht
      | afterRunTask r u =>
          simp only [next, workerNext, afterRunTask]
          split <;> exact .inl ht
      | _ => exact .inl ht
  | poster p a =>
      cases a with
      | post path delay => cases path <;> exact .inl ht
      | willPostTask traits id delay =>
          simp only [next, posterNext, willPostTask]
          split <;> exact .inl ht
      | push d cb ready =>
          have mine : t ∈ ((s.openDest d).seqs q).immediateQueue := by
            cases d with
            | own traits => exact opened
            | runner r => exact ht
          cases ready with
          | none => exact .inl (kept mine (List.subset_append_left ..))
          | some r => exact .inl (kept mine fun _ h => h)
      | _ => exact .inl ht
  | timer a => cases a <;> exact .inl ht
  | closer c a => cases a <;> exact .inl ht
  | createRunner traits => exact .inl opened
  | tick d => exact .inl ht

/-! ### The worker -/

theorem took_next {w : Tid} {q : SeqId} {t : Task} (hw : s.workers w = .took q t)
    (ha : s.Enabled a) :
    (s.next a).workers w = .took q t ∨ a = .worker w (.callTask q t) := by
  by_cases h : ∃ b, a = .worker w b
  · obtain ⟨b, rfl⟩ := h
    cases b <;> simp [Enabled, WorkerEnabled, hw] at ha
    · exact .inl hw
    · obtain ⟨rfl, rfl⟩ := ha
      exact .inr rfl
  · rw [workers_of_other ha fun b e => h ⟨b, e⟩]
    exact .inl hw

theorem running_next {w : Tid} {q : SeqId} {t : Task} {stage : Stage}
    (hw : s.workers w = .running q t stage) (ha : s.Enabled a) :
    (s.next a).workers w = .running q t stage ∨
    (stage = .entered ∧ a = .worker w (.enterCallback q t)) ∨
    (stage = .body ∧ a = .worker w (.callbackReturns q t)) ∨
    (stage = .body ∧ a = .worker w (.callbackPanics q t)) ∨
    (stage = .returned ∧ a = .worker w (.afterRunTask q t)) := by
  by_cases h : ∃ b, a = .worker w b
  · obtain ⟨b, rfl⟩ := h
    cases b <;> simp [Enabled, WorkerEnabled, hw] at ha
    · exact .inl hw
    all_goals
      obtain ⟨rfl, rfl, rfl⟩ := ha
      simp
  · rw [workers_of_other ha fun b e => h ⟨b, e⟩]
    exact .inl hw

/-- **A pushed task is not lost.** -/
theorem delivery_next (wf : s.WellFormed) {id : ℕ} {q : SeqId} {n : ℕ} (h : s.Delivery id q n)
    (ha : s.Enabled a) : (s.next a).Delivery id q n := by
  cases h with
  | queued ht =>
      rcases queued_next wf ht a with ht | ⟨w, hw⟩
      · exact .queued ht
      · exact .taken w hw
  | taken w hw =>
      rcases took_next hw ha with hw | rfl
      · exact .taken w hw
      · refine .called w (Function.update_self ..) ?_
        rw [next, workerNext, startedNums_emit]
        simp [Event.startedNum]
  | called w hw hs =>
      rcases running_next hw ha with hw | ⟨-, rfl⟩ | ⟨h, -⟩ | ⟨h, -⟩ | ⟨h, -⟩
      · exact .called w hw (mem_history_next hs)
      · refine .running w .body (Function.update_self ..) (mem_history_next hs) ?_
        simp [next, workerNext, enterCallback, ranIds, emit, Event.ranId]
      all_goals cases h
  | running w stage hw hs hr =>
      rcases running_next hw ha with hw | ⟨-, rfl⟩ | ⟨-, rfl⟩ | ⟨-, rfl⟩ | ⟨-, rfl⟩
      · exact .running w stage hw (mem_history_next hs) (mem_history_next hr)
      · exact .running w .body (Function.update_self ..) (mem_history_next hs)
          (mem_history_next hr)
      · refine .finished ?_ (mem_history_next hs) (mem_history_next hr)
        simp [next, workerNext, callbackReturns, Event.finishedId]
      · exact .unwound w (Function.update_self ..)
      · exact .running w stage hw hs hr
  | unwound w hw => exact .unwound w (dead_next hw ha)
  | finished hf hs hr =>
      exact .finished (mem_history_next hf) (mem_history_next hs) (mem_history_next hr)

/-- The push starts the delivery. -/
theorem delivery_push (p : Tid) (d : Dest) (id : ℕ) :
    (s.pushTask p d (.plain id) none).Delivery id (s.destSeq d)
      ((s.openDest d).seqs (s.destSeq d)).nextSequenceNum := by
  refine .queued ?_
  simp [pushTask, setSeq, setPoster, emit, Sequence.pushTask, Task.new]

/-- A worker that runs the callback `id` runs the task that is delivered. -/
theorem Delivery.task_eq {id : ℕ} {q r : SeqId} {n : ℕ} {w : Tid} {t : Task} {stage : Stage}
    (h : s.Delivery id q n) (hb : s.Balanced) (hw : s.workers w = .running r t stage)
    (ht : t.callback.id = id) : t = ⟨.plain id, n⟩ := by
  have mine : id ∈ jobNums (s.jobs (.worker w)) := by
    simp [jobs, hw, WorkerPhase.jobs, Callback.job, ht]
  -- a worker that has the job is the one that runs it
  have same : ∀ {u : Tid}, id ∈ jobNums (s.jobs (.worker u)) → u = w := fun hu =>
    Place.worker.inj (hb.unique _ _ id hu mine)
  cases h with
  | queued hq =>
      have there : id ∈ jobNums (s.jobs (.sequence q)) :=
        List.mem_map.mpr ⟨(id, false), List.mem_append_left _ (List.mem_map.mpr ⟨_, hq, rfl⟩), rfl⟩
      cases hb.unique _ _ id there mine
  | taken u hu | unwound u hu =>
      cases same (u := u) (by simp [jobs, hu, WorkerPhase.jobs, Callback.job, Callback.id])
      rw [hw] at hu; cases hu
  | called u hu _ | running u _ hu _ _ =>
      cases same (u := u) (by simp [jobs, hu, WorkerPhase.jobs, Callback.job, Callback.id])
      rw [hw] at hu
      exact (WorkerPhase.running.inj hu).2.1
  | finished hf _ _ => exact absurd hf (hb.alive _ id mine).1

/-- Where the job of a delivered callback is. -/
theorem Delivery.job {id : ℕ} {q : SeqId} {n : ℕ} (h : s.Delivery id q n) :
    id ∈ s.finishedIds ∨ ∃ a, (∀ p, a ≠ .poster p) ∧ id ∈ jobNums (s.jobs a) := by
  cases h with
  | queued hq =>
      exact .inr ⟨.sequence q, nofun, List.mem_map.mpr
        ⟨(id, false), List.mem_append_left _ (List.mem_map.mpr ⟨_, hq, rfl⟩), rfl⟩⟩
  | taken w hw | called w hw _ | running w _ hw _ _ | unwound w hw =>
      exact .inr ⟨.worker w, nofun, by simp [jobs, hw, WorkerPhase.jobs, Callback.job, Callback.id]⟩
  | finished hf _ _ => exact .inl hf

/-- A delivered callback is not about to be pushed. -/
theorem Delivery.not_posting {id : ℕ} {q : SeqId} {n : ℕ} (h : s.Delivery id q n)
    (hb : s.Balanced) (p : Tid) : id ∉ jobNums (s.jobs (.poster p)) := by
  intro hp
  rcases h.job with hf | ⟨a, ha, hj⟩
  · exact (hb.alive _ id hp).1 hf
  · exact ha p (hb.unique _ _ id hj hp)

/-! ### The history of a post -/

/-- A callback finishes when its closure returns, or in the closure of `ThreadPool::wrap`. -/
theorem finished_next {id : ℕ} (ha : s.Enabled a) (h : id ∈ (s.next a).finishedIds) :
    id ∈ s.finishedIds ∨ ∃ w q t stage, s.workers w = .running q t stage ∧ t.callback.id = id ∧
      (a = .worker w (.callbackReturns q t) ∨ ∃ traits, t.callback = .wrapped traits id) := by
  rw [finishedIds, log_next, List.filterMap_append, List.mem_append] at h
  refine h.imp_right fun h => ?_
  cases a with
  | worker w a =>
      cases a with
      | enterCallback q t =>
          simp only [events] at h
          split at h
          · rename_i traits k hcb
            split at h
            · cases List.mem_singleton.mp h
              exact ⟨w, q, t, _, ha, by rw [hcb]; rfl, .inr ⟨traits, hcb⟩⟩
            · cases h
          · cases h
      | callbackReturns q t =>
          simp only [events] at h
          split at h
          · cases h
          · rename_i k hcb
            cases List.mem_singleton.mp h
            exact ⟨w, q, t, _, ha, by rw [hcb]; rfl, .inl rfl⟩
      | afterRunTask q t =>
          simp only [events] at h
          split at h
          · rename_i traits k hcb
            cases List.mem_singleton.mp h
            exact ⟨w, q, t, _, ha, by rw [hcb]; rfl, .inr ⟨traits, hcb⟩⟩
          · cases h
      | _ => cases h
  | poster p a =>
      cases a with
      | post path delay => cases path <;> cases h
      | willPostTask traits k delay =>
          simp only [events] at h
          split at h <;> cases h
      | push d cb ready => cases ready <;> cases h
      | _ => cases h
  | _ => cases h

/-- Numbers and addresses are given out in turn, and a runner is made with a new sequence. -/
structure Grows (s s' : Pool) : Prop where
  nextPost : s.nextPost ≤ s'.nextPost
  nextSeq : s.nextSeq ≤ s'.nextSeq
  runners : ∀ q ∈ s'.runners, q ∈ s.runners ∨ s.nextSeq ≤ q

theorem grows_next (a : Action) : s.Grows (s.next a) := by
  have same : ∀ {s' : Pool}, s'.nextPost = s.nextPost → s'.nextSeq = s.nextSeq →
      s'.runners = s.runners → s.Grows s' := fun h₁ h₂ h₃ =>
    ⟨h₁.ge, h₂.ge, fun _ hq => .inl (h₃ ▸ hq)⟩
  cases a with
  | worker w a =>
      cases a with
      | enterCallback q t =>
          simp only [next, workerNext, enterCallback]
          split
          · split <;> exact same rfl rfl rfl
          · exact same rfl rfl rfl
      | callbackReturns q t =>
          simp only [next, workerNext, callbackReturns]
          split <;> exact same rfl rfl rfl
      | afterRunTask q t =>
          simp only [next, workerNext, afterRunTask]
          split <;> exact same rfl rfl rfl
      | _ => exact same rfl rfl rfl
  | poster p a =>
      cases a with
      | post path delay => cases path <;> exact ⟨Nat.le_succ _, Nat.le_refl _, fun _ => .inl⟩
      | willPostTask traits id delay =>
          simp only [next, posterNext, willPostTask]
          split <;> exact same rfl rfl rfl
      | push d cb ready =>
          cases d with
          | own traits => cases ready <;> exact ⟨Nat.le_refl _, Nat.le_succ _, fun _ => .inl⟩
          | runner q => cases ready <;> exact same rfl rfl rfl
      | _ => exact same rfl rfl rfl
  | timer a => cases a <;> exact same rfl rfl rfl
  | closer c a => cases a <;> exact same rfl rfl rfl
  | createRunner traits =>
      refine ⟨Nat.le_refl _, Nat.le_succ _, fun q hq => ?_⟩
      rcases List.mem_cons.mp hq with rfl | hq
      · exact .inr (Nat.le_refl _)
      · exact .inl hq
  | tick d => exact same rfl rfl rfl

/-- A runner lets in the post that starts, and `will_post_task` the post at its gate. -/
theorem accepted_cases {id : ℕ} {path : Path} (h : .accepted id path ∈ s.events a) :
    (∃ p delay, a = .poster p (.post path delay) ∧ id = s.nextPost) ∨
      ∃ p traits delay, a = .poster p (.willPostTask traits id delay) ∧ path = .pool traits := by
  cases a with
  | worker w a =>
      cases a with
      | callTask r t => cases List.mem_singleton.mp h
      | enterCallback r t =>
          simp only [events] at h
          split at h
          · split at h <;> simp at h
          · simp at h
      | callbackReturns r t | afterRunTask r t =>
          simp only [events] at h
          split at h <;> simp at h
      | _ => cases h
  | poster p a =>
      cases a with
      | post q delay =>
          cases q with
          | pool traits => cases h
          | parallel traits | sequenced r =>
              cases List.mem_singleton.mp h
              exact .inl ⟨p, delay, rfl, rfl⟩
      | willPostTask traits k delay =>
          simp only [events] at h
          split at h
          · cases List.mem_singleton.mp h
            exact .inr ⟨p, traits, delay, rfl, rfl⟩
          · cases List.mem_singleton.mp h
      | push d cb ready => cases ready <;> cases List.mem_singleton.mp h
      | _ => cases h
  | _ => cases h

theorem nextPost_post (p : Tid) (path : Path) (delay : Option ℕ) :
    (s.next (.poster p (.post path delay))).nextPost = s.nextPost + 1 := by
  cases path <;> rfl

/-- A sequenced runner lets in the post that starts, and no other. -/
theorem mem_events_accepted {id : ℕ} {q : SeqId} (h : .accepted id (.sequenced q) ∈ s.events a) :
    id = s.nextPost := by
  rcases accepted_cases h with ⟨p, delay, -, hid⟩ | ⟨p, traits, delay, -, hp⟩
  · exact hid
  · cases hp

theorem count_accepted_next {id : ℕ} {q : SeqId} (h : id < s.nextPost) (a : Action) :
    (s.next a).log.count (.accepted id (.sequenced q)) =
      s.log.count (.accepted id (.sequenced q)) := by
  have none : .accepted id (.sequenced q) ∉ s.events a := fun hm =>
    Nat.ne_of_lt h (mem_events_accepted hm)
  rw [log_next, List.count_append, List.count_eq_zero.mpr none, Nat.add_zero]

/-! ### A post is accepted once -/

/-- A post comes to its gate with the next number, and leaves it with its own step. -/
theorem gate_next {p : Tid} {traits : TaskTraits} {id : ℕ} {delay : Option ℕ}
    (h : (s.next a).posters p = .gate traits id delay) :
    (s.posters p = .gate traits id delay ∧ ∀ b, a ≠ .poster p b) ∨
      a = .poster p (.post (.pool traits) delay) ∧ id = s.nextPost := by
  by_cases own : ∃ b, a = .poster p b
  · refine .inr ?_
    obtain ⟨b, rfl⟩ := own
    -- every other step of the poster leads it elsewhere
    have here : ∀ {f : Tid → PosterPhase} {x : PosterPhase},
        Function.update f p x p = .gate traits id delay → x = .gate traits id delay :=
      fun {f x} hx => by rwa [Function.update_self] at hx
    have away : ∀ {d cb r}, PosterPhase.deliver d cb r ≠ .gate traits id delay :=
      fun {d cb r} e => by cases r <;> cases e
    cases b with
    | post path delay =>
        cases path with
        | pool traits =>
            cases here h
            exact ⟨rfl, rfl⟩
        | parallel traits | sequenced q => exact absurd (here h) away
    | willPostTask traits k delay =>
        simp only [next, posterNext, willPostTask] at h
        split at h
        · exact absurd (here h) away
        · cases here h
    | readyTime d cb delay =>
        have := here h
        split at this <;> cases this
    | push d cb ready => cases d <;> cases ready <;> cases here h
    | _ => cases here h
  · have other : ∀ b, a ≠ .poster p b := fun b e => own ⟨b, e⟩
    exact .inl ⟨by rwa [posters_of_other other] at h, other⟩

/-- The number of a post is accepted at most once: by one path, and not while it is at the gate. -/
structure AcceptedOnce (s : Pool) : Prop where
  lt : ∀ {id path}, .accepted id path ∈ s.log → id < s.nextPost
  gate : ∀ {p traits id delay path}, s.posters p = .gate traits id delay →
    .accepted id path ∉ s.log
  path : ∀ {id path path'}, .accepted id path ∈ s.log → .accepted id path' ∈ s.log → path = path'

theorem mem_jobs_gate {p : Tid} {traits : TaskTraits} {id : ℕ} {delay : Option ℕ}
    (h : s.posters p = .gate traits id delay) : id ∈ jobNums (s.jobs (.poster p)) := by
  simp [jobs, h, PosterPhase.jobs]

theorem acceptedOnce_next (h : s.AcceptedOnce) (hb : s.Balanced) (ha : s.Enabled a) :
    (s.next a).AcceptedOnce := by
  have mem : ∀ {id path}, .accepted id path ∈ (s.next a).log →
      .accepted id path ∈ s.log ∨ .accepted id path ∈ s.events a := fun hm => by
    rwa [log_next, List.mem_append] at hm
  -- what the step accepts was not accepted before
  have fresh : ∀ {id path path'}, .accepted id path ∈ s.events a → .accepted id path' ∉ s.log :=
    fun hm => by
      rcases accepted_cases hm with ⟨p, delay, -, rfl⟩ | ⟨p, traits, delay, rfl, rfl⟩
      · exact fun hl => Nat.lt_irrefl _ (h.lt hl)
      · exact h.gate ha
  refine ⟨fun hm => ?_, fun {p traits id delay path} hp hm => ?_, fun hm hm' => ?_⟩
  · rcases mem hm with hm | hm
    · exact Nat.lt_of_lt_of_le (h.lt hm) (grows_next a).nextPost
    · rcases accepted_cases hm with ⟨p, delay, rfl, rfl⟩ | ⟨p, traits, delay, rfl, rfl⟩
      · rw [nextPost_post]
        exact Nat.lt_succ_self _
      · exact Nat.lt_of_lt_of_le (hb.alive _ _ (mem_jobs_gate ha)).2 (grows_next _).nextPost
  · rcases gate_next hp with ⟨hg, other⟩ | ⟨rfl, rfl⟩
    · rcases mem hm with hm | hm
      · exact h.gate hg hm
      · rcases accepted_cases hm with ⟨u, delay, -, rfl⟩ | ⟨u, traits, delay, rfl, rfl⟩
        · exact Nat.lt_irrefl _ (hb.alive _ _ (mem_jobs_gate hg)).2
        · -- two posters at their gates with one number
          cases hb.unique _ _ id (mem_jobs_gate hg) (mem_jobs_gate ha)
          exact other _ rfl
    · rcases mem hm with hm | hm
      · exact Nat.lt_irrefl _ (h.lt hm)
      · cases hm
  · rcases mem hm with hm | hm <;> rcases mem hm' with hm' | hm'
    · exact h.path hm hm'
    · exact absurd hm (fresh hm')
    · exact absurd hm' (fresh hm)
    · rcases accepted_cases hm with ⟨p, delay, rfl, -⟩ | ⟨p, traits, delay, rfl, rfl⟩ <;>
        rcases accepted_cases hm' with ⟨u, delay', e, -⟩ | ⟨u, traits', delay', e, rfl⟩ <;>
        cases e <;> rfl

/-! ### Push order -/

/-- Of two tasks pushed one after the other, the later one is called after the earlier one. -/
def InPushOrder (s : Pool) (q : SeqId) : Prop :=
  ∀ m n, [m, n].Sublist (s.pushedNums q) → n ∈ s.startedNums q →
    [m, n].Sublist (s.startedNums q)

theorem inPushOrder {q : SeqId} (h : s.Lanes) : s.InPushOrder q := by
  obtain ⟨hand, -, lane⟩ := h q
  intro m n hp hn
  obtain ⟨rest, hr⟩ := lane.started_prefix
  have mine : n ∈ (s.startedNums q).filter (· ∈ s.pushedNums q) :=
    List.mem_filter.mpr ⟨hn, decide_eq_true (hp.subset (by simp))⟩
  have apart : n ∉ rest := fun hn' => by
    have sorted := lane.pushed_lt
    rw [← hr] at sorted
    exact Nat.lt_irrefl n ((List.pairwise_append.mp sorted).2.2 n mine n hn')
  rw [← hr] at hp
  obtain ⟨l₁, l₂, e, h₁, h₂⟩ := List.sublist_append_iff.mp hp
  -- the pair ends in `n`, so nothing of it is in the rest
  rcases List.eq_nil_or_concat l₂ with rfl | ⟨l, y, rfl⟩
  · rw [e, List.append_nil]
    exact h₁.trans List.filter_sublist
  · have hy : n = y := by
      have := congrArg List.getLast? e
      simpa [← List.append_assoc] using this
    exact absurd (h₂.subset (by simp [hy])) apart

/-! ### At rest -/

/-- Every worker is in `get_work`, and nothing is on the way to it.  Delayed tasks may be waiting
for their time. -/
structure Rests (s : Pool) : Prop where
  queue : s.group.priorityQueue = []
  workers : ∀ w, (s.workers w).inGetWork = true
  posters : ∀ p, s.posters p = .idle ∨ s.posters p = .panicked
  timer : ∀ q, s.timer ≠ .pushSource q

theorem Rests.not_unwound (h : s.Rests) (w : Tid) : (s.workers w).unwound = false := by
  have hw := h.workers w
  cases hx : s.workers w <;> rw [hx] at hw <;> first | rfl | cases hw

theorem Rests.not_inHands (h : s.Rests) (q : SeqId) : ¬ s.InHands q := by
  rintro (⟨e, he, -⟩ | ⟨p, hp⟩ | ht | ⟨w, hw⟩)
  · rw [h.queue] at he; cases he
  · rcases h.posters p with hp' | hp' <;> cases hp.symm.trans hp'
  · exact h.timer q ht
  · have idle := h.workers w
    cases hx : s.workers w <;> rw [hx] at hw idle <;> cases hw <;> cases idle

/-- At rest a task that was pushed has been called, and has returned. -/
theorem Delivery.at_rest {id : ℕ} {q : SeqId} {n : ℕ} (h : s.Delivery id q n) (hc : s.Covered)
    (hr : s.Rests) : id ∈ s.finishedIds ∧ n ∈ s.startedNums q ∧ id ∈ s.ranIds := by
  have busy : ∀ {w : Tid} {x : WorkerPhase}, s.workers w = x → x.inGetWork = true :=
    fun {w x} hw => hw ▸ hr.workers w
  cases h with
  | queued ht => exact absurd (hc.immediate q (List.ne_nil_of_mem ht)) (hr.not_inHands q)
  | taken w hw => cases busy hw
  | called w hw _ => cases busy hw
  | running w _ hw _ _ => cases busy hw
  | unwound w hw => cases busy hw
  | finished hf hs hran => exact ⟨hf, hs, hran⟩

end Pool

theorem reachable_acceptedOnce {C : Pool → Pool.Action → Prop} {s : Pool}
    (h : poolMachine.ReachableBy C s) : s.AcceptedOnce := by
  refine h.invariant (fun s h₀ => ?_) fun s a hr hi _ ha =>
    Pool.acceptedOnce_next hi (reachable_balanced hr) ha
  obtain ⟨n, rfl⟩ := h₀
  refine ⟨?_, ?_, ?_⟩ <;> intros <;> simp_all [Pool.new]

end RustTask
