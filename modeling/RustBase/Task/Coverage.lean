import RustBase.Task.Sequencing

/-!
# Task — no ready task is stranded

A sequence with a ready task is in some thread's hands, in the priority queue or in the timer's
heap (`Covered`).  Three facts carry the invariant:

* a worker that is refused drops its entry, and the one that holds the claim has not made its
  readiness check yet (`ClaimExclusive`);
* the check is made after the claim flag is cleared and reads the clock then, so a sequence it lets
  go of has no ready task (`didProcessTask_iff`);
* a task is in its sequence before the source is pushed, or the timer told.

The invariant holds in every run without unwinding callbacks, also after `join_all`: a worker that
leaves `get_work` has no source.
-/

namespace RustTask
open Support

/-- The sequence a worker is responsible for: popped and not tried yet, claimed and not checked yet,
or found ready and not pushed again yet. -/
def WorkerPhase.holding : WorkerPhase → Option SeqId
  | .popped q | .claimed q | .took q _ | .running q _ _ | .ran q | .cleared q | .rePush q => some q
  | _ => none

theorem WorkerPhase.holding_of_claim {x : WorkerPhase} {q : SeqId} (h : x.claim = some q) :
    x.holding = some q := by
  cases x <;> first | exact h | cases h

namespace Pool

/-- Who has the sequence `q`. -/
inductive InHands (s : Pool) (q : SeqId) : Prop where
  /-- it is in the priority queue -/
  | queued (e : QueueEntry) (he : e ∈ s.group.priorityQueue) (hq : e.taskSource = q)
  /-- a poster is about to push it -/
  | poster (p : Tid) (hp : s.posters p = .pushSource q)
  /-- the timer thread is about to push it -/
  | timer (ht : s.timer = .pushSource q)
  /-- a worker is responsible for it -/
  | worker (w : Tid) (hw : (s.workers w).holding = some q)

/-- The delayed post of `q` for the time `r` is with the timer. -/
inductive Timed (s : Pool) (q : SeqId) (r : Instant) : Prop where
  /-- its entry is in the heap -/
  | entry (e : DelayedEntry) (he : e ∈ s.delayed.heap) (hq : e.sequence = q) (hr : e.readyTime = r)
  /-- its poster is about to push the entry -/
  | poster (p : Tid) (hp : s.posters p = .addSequence q r)

/-- Every queued task is in someone's hands, and every delayed one is with the timer or, once its
time has come, in someone's hands. -/
structure Covered (s : Pool) : Prop where
  immediate : ∀ q, (s.seqs q).immediateQueue ≠ [] → s.InHands q
  delayed : ∀ q, ∀ d ∈ (s.seqs q).delayedQueue,
    s.Timed q d.readyTime ∨ d.readyTime ≤ s.clock ∧ s.InHands q

variable {s s' : Pool}

/-- What a step owes: to a sequence that was in someone's hands and is ready still, and to a delayed
post that was with the timer. -/
theorem Covered.step (h : Covered s) (hc : s.clock ≤ s'.clock)
    (hi : ∀ q, (s'.seqs q).immediateQueue ≠ [] →
      (s.seqs q).immediateQueue ≠ [] ∨ s'.InHands q)
    (hd : ∀ q, ∀ d ∈ (s'.seqs q).delayedQueue,
      d ∈ (s.seqs q).delayedQueue ∨ s'.Timed q d.readyTime)
    (hh : ∀ q, s.InHands q → (s'.seqs q).Ready s'.clock → s'.InHands q)
    (ht : ∀ q r, s.Timed q r → s'.Timed q r ∨ r ≤ s'.clock ∧ s'.InHands q) : Covered s' := by
  refine ⟨fun q hq => ?_, fun q d hd' => ?_⟩
  · rcases hi q hq with hq' | hq'
    · exact hh q (h.immediate q hq') (.inl hq)
    · exact hq'
  · rcases hd q d hd' with hm | ht'
    · rcases h.delayed q d hm with ht' | ⟨hr, hq⟩
      · exact ht q _ ht'
      · have hr' := hr.trans hc
        exact .inr ⟨hr', hh q hq (.inr ⟨d, hd', hr'⟩)⟩
    · exact .inl ht'

/-- A step that leaves the sequences, the clock and the timer's posts alone. -/
theorem Covered.hands (h : Covered s) (hs : s'.seqs = s.seqs) (hc : s'.clock = s.clock)
    (hh : ∀ q, s.InHands q → s'.InHands q) (ht : ∀ q r, s.Timed q r → s'.Timed q r) :
    Covered s' :=
  h.step hc.ge (fun q hq => .inl (by rwa [hs] at hq)) (fun q d hd => .inl (by rwa [hs] at hd))
    (fun q hq _ => hh q hq) fun q r hr => .inl (ht q r hr)

/-- A step of neither a worker, a poster nor the timer. -/
theorem InHands.congr {q : SeqId} (h : s.InHands q)
    (hq : s'.group.priorityQueue = s.group.priorityQueue) (hp : s'.posters = s.posters)
    (ht : s'.timer = s.timer) (hw : s'.workers = s.workers) : s'.InHands q := by
  cases h with
  | queued e he hq' => exact .queued e (by rwa [hq]) hq'
  | poster p hp' => exact .poster p (by rw [hp, hp'])
  | timer ht' => exact .timer (by rw [ht, ht'])
  | worker u hu => exact .worker u (by rw [hw, hu])

/-! ### The worker -/

/-- A worker step: what the worker held is in someone's hands still. -/
theorem InHands.worker_step {w : Tid} {x : WorkerPhase} {q : SeqId} (h : s.InHands q)
    (hq : ∀ e ∈ s.group.priorityQueue, s'.InHands e.taskSource) (hp : s'.posters = s.posters)
    (ht : s'.timer = s.timer) (hw : s'.workers = Function.update s.workers w x)
    (hx : (s.workers w).holding = some q → s'.InHands q) : s'.InHands q := by
  cases h with
  | queued e he hq' => exact hq' ▸ hq e he
  | poster p hp' => exact .poster p (by rw [hp, hp'])
  | timer ht' => exact .timer (by rw [ht, ht'])
  | worker u hu =>
      by_cases e : u = w
      · subst e; exact hx hu
      · exact .worker u (by rw [hw, Function.update_of_ne e, hu])

theorem Timed.congr {q : SeqId} {r : Instant} (h : s.Timed q r)
    (hh : s'.delayed.heap = s.delayed.heap) (hp : s'.posters = s.posters) : s'.Timed q r := by
  cases h with
  | entry e he hq hr => exact .entry e (by rwa [hh]) hq hr
  | poster p hp' => exact .poster p (by rw [hp, hp'])

theorem covered_takeTask (h : Covered s) {w : Tid} {q : SeqId} (ha : s.workers w = .claimed q) :
    Covered (s.workerNext w (.takeTask q)) := by
  have mine : (s.workerNext w (.takeTask q)).InHands q := by
    refine .worker w ?_
    simp only [workerNext, setWorker, Function.update_self]
    split <;> rfl
  have other : ∀ {r}, r ≠ q → (s.workerNext w (.takeTask q)).seqs r = s.seqs r :=
    fun hr => Function.update_of_ne hr ..
  have self : (s.workerNext w (.takeTask q)).seqs q = ((s.seqs q).takeTask s.clock).2 :=
    Function.update_self ..
  refine h.step (Nat.le_refl _) (fun r hr => ?_) (fun r d hd => .inl ?_) (fun r hr _ => ?_)
    fun r t ht => .inl (ht.congr rfl rfl)
  · by_cases e : r = q
    · exact .inr (e ▸ mine)
    · exact .inl (by rwa [other e] at hr)
  · by_cases e : r = q
    · subst e
      rw [self] at hd
      exact (List.dropWhile_sublist _).subset hd
    · rwa [other e] at hd
  · refine hr.worker_step (fun e he => .queued e he rfl) rfl rfl rfl fun hx => ?_
    rw [ha] at hx
    exact Option.some.inj hx ▸ mine

/-- A refused worker drops its entry: the claim's holder has not made its check yet. -/
theorem covered_willRunTask (h : Covered s) (he : ClaimExclusive s) {w : Tid} {q : SeqId}
    (ha : s.workers w = .popped q) : Covered (s.workerNext w (.willRunTask q)) := by
  have queues : ∀ r, ((s.workerNext w (.willRunTask q)).seqs r).immediateQueue =
      (s.seqs r).immediateQueue ∧ ((s.workerNext w (.willRunTask q)).seqs r).delayedQueue =
      (s.seqs r).delayedQueue ∧ _ := queues_setSeq (s := s) ⟨rfl, rfl, rfl⟩
  have mine : (s.workerNext w (.willRunTask q)).InHands q := by
    cases hq : (s.seqs q).hasWorker with
    | true =>
        obtain ⟨u, hu⟩ := he.held q hq
        have hne : u ≠ w := fun e => by rw [e, ha] at hu; cases hu
        refine .worker u ?_
        rw [show (s.workerNext w (.willRunTask q)).workers u = s.workers u from
          Function.update_of_ne hne ..]
        exact WorkerPhase.holding_of_claim hu
    | false =>
        refine .worker w ?_
        simp [workerNext, setWorker, Sequence.willRunTask, hq, WorkerPhase.holding]
  refine h.step (Nat.le_refl _) (fun r hr => .inl ?_) (fun r d hd => .inl ?_) (fun r hr _ => ?_)
    fun r t ht => .inl (ht.congr rfl rfl)
  · rwa [(queues r).1] at hr
  · rwa [(queues r).2.1] at hd
  · refine hr.worker_step (fun e he => .queued e he rfl) rfl rfl rfl fun hx => ?_
    rw [ha] at hx
    exact Option.some.inj hx ▸ mine

/-- A sequence that the check lets go of has no ready task. -/
theorem covered_didProcessTask (h : Covered s) {w : Tid} {q : SeqId}
    (ha : s.workers w = .cleared q) : Covered (s.workerNext w (.didProcessTask q)) := by
  refine h.step (Nat.le_refl _) (fun r hr => .inl hr) (fun r d hd => .inl hd)
    (fun r hr hready => ?_)
    fun r t ht => .inl (ht.congr rfl rfl)
  refine hr.worker_step (fun e he => .queued e he rfl) rfl rfl rfl fun hx => ?_
  rw [ha] at hx
  obtain rfl := Option.some.inj hx
  have check : (s.seqs q).didProcessTask s.clock = true := Sequence.didProcessTask_iff.mpr hready
  refine .worker w ?_
  simp [workerNext, setWorker, check, WorkerPhase.holding]

theorem covered_getWorkPop (h : Covered s) {w : Tid} {e : QueueEntry}
    (ha : s.workers w = .getWork) : Covered (s.workerNext w (.getWorkPop e)) := by
  refine h.hands rfl rfl (fun q hq => ?_) fun q r ht => ht.congr rfl rfl
  refine hq.worker_step (fun e' he' => ?_) rfl rfl rfl fun hx => ?_
  · by_cases heq : e' = e
    · subst heq
      exact .worker w (by simp [workerNext, setWorker, WorkerPhase.holding])
    · exact .queued e' ((List.mem_erase_of_ne heq).mpr he') rfl
  · rw [ha] at hx; cases hx

theorem covered_worker (h : Covered s) (he : ClaimExclusive s) {w : Tid} {a : WorkerAct}
    (ha : s.WorkerEnabled w a) (hp : NoPanic s (.worker w a)) : Covered (s.workerNext w a) := by
  -- a step that keeps the worker responsible for what it was responsible for
  have move : ∀ {x : WorkerPhase} {s' : Pool}, x.holding = (s.workers w).holding →
      s'.seqs = s.seqs → s'.clock = s.clock →
      s'.group.priorityQueue = s.group.priorityQueue → s'.posters = s.posters →
      s'.timer = s.timer → s'.delayed.heap = s.delayed.heap →
      s'.workers = Function.update s.workers w x → Covered s' :=
    fun hx hs hc hg hp ht hh hw =>
      h.hands hs hc (fun q hq => hq.worker_step (fun e he => .queued e (by rwa [hg]) rfl) hp ht hw
        fun hq' => .worker w (by rw [hw, Function.update_self, hx, hq']))
        fun _ _ ht => ht.congr hh hp
  have at_ : ∀ {x : WorkerPhase}, s.workers w = x → (s.workers w).holding = x.holding :=
    congrArg WorkerPhase.holding
  cases a with
  | attach => exact move (x := .getWork) (at_ ha).symm rfl rfl rfl rfl rfl rfl rfl
  | getWorkExit => exact move (x := .exited) (at_ ha.1).symm rfl rfl rfl rfl rfl rfl rfl
  | getWorkPop e => exact covered_getWorkPop h ha.1
  | getWorkWait => exact move (x := .waiting) (at_ ha.1).symm rfl rfl rfl rfl rfl rfl rfl
  | wakeSpuriously =>
      exact h.hands rfl rfl (fun _ hq => hq.congr rfl rfl rfl rfl) fun _ _ ht => ht.congr rfl rfl
  | resume => exact move (x := .getWork) (at_ ha.1).symm rfl rfl rfl rfl rfl rfl rfl
  | willRunTask q => exact covered_willRunTask h he ha
  | takeTask q => exact covered_takeTask h ha
  | callTask q t =>
      exact move (x := .running q t .entered) (at_ ha).symm rfl rfl rfl rfl rfl rfl rfl
  | enterCallback q t =>
      simp only [workerNext, enterCallback]
      split
      · split
        · exact move (x := .ran q) (at_ ha).symm rfl rfl rfl rfl rfl rfl rfl
        · exact move (x := .running q t .body) (at_ ha).symm rfl rfl rfl rfl rfl rfl rfl
      · exact move (x := .running q t .body) (at_ ha).symm rfl rfl rfl rfl rfl rfl rfl
  | callbackReturns q t =>
      simp only [workerNext, callbackReturns]
      split
      · exact move (x := .running q t .returned) (at_ ha).symm rfl rfl rfl rfl rfl rfl rfl
      · exact move (x := .ran q) (at_ ha).symm rfl rfl rfl rfl rfl rfl rfl
  | callbackPanics q t => cases hp
  | afterRunTask q t =>
      simp only [workerNext, afterRunTask]
      split
      · exact move (x := .ran q) (at_ ha).symm rfl rfl rfl rfl rfl rfl rfl
      · exact h
  | clearHasWorker q =>
      have queues := queues_setSeq (s := s) (q := q) (x := (s.seqs q).clearHasWorker)
        ⟨rfl, rfl, rfl⟩
      refine h.step (Nat.le_refl _) (fun r hr => .inl ?_) (fun r d hd => .inl ?_)
        (fun r hr _ => ?_) fun r t ht => .inl (ht.congr rfl rfl)
      · exact (queues r).1 ▸ hr
      · exact (queues r).2.1 ▸ hd
      · exact hr.worker_step (fun e he => .queued e he rfl) rfl rfl rfl fun hx =>
          .worker w ((congrArg _ (Function.update_self ..)).trans ((at_ ha).symm.trans hx))
  | didProcessTask q => exact covered_didProcessTask h ha
  | rePush q =>
      refine h.hands rfl rfl (fun r hr => ?_) fun _ _ ht => ht.congr rfl rfl
      refine hr.worker_step (fun e he => .queued e (.tail _ he) rfl) rfl rfl rfl fun hx => ?_
      exact .queued _ (.head _) (Option.some.inj ((at_ ha).symm.trans hx))
  | notify c => exact move (x := .getWork) (at_ ha.1).symm rfl rfl rfl rfl rfl rfl rfl

/-! ### The poster -/

/-- A poster step from a phase that owes nothing. -/
theorem InHands.poster_step {p : Tid} {x : PosterPhase} {q : SeqId} (h : s.InHands q)
    (hq : s'.group.priorityQueue = s.group.priorityQueue) (hw : s'.workers = s.workers)
    (ht : s'.timer = s.timer) (hp : s'.posters = Function.update s.posters p x)
    (hx : s.posters p = .pushSource q → s'.InHands q) : s'.InHands q := by
  cases h with
  | queued e he hq' => exact .queued e (by rwa [hq]) hq'
  | poster u hu =>
      by_cases e : u = p
      · subst e; exact hx hu
      · exact .poster u (by rw [hp, Function.update_of_ne e, hu])
  | timer ht' => exact .timer (by rw [ht, ht'])
  | worker u hu => exact .worker u (by rw [hw, hu])

theorem Timed.poster_step {p : Tid} {x : PosterPhase} {q : SeqId} {r : Instant} (h : s.Timed q r)
    (hh : ∀ e ∈ s.delayed.heap, e ∈ s'.delayed.heap)
    (hp : s'.posters = Function.update s.posters p x)
    (hx : s.posters p = .addSequence q r → s'.Timed q r) : s'.Timed q r := by
  cases h with
  | entry e he hq hr => exact .entry e (hh e he) hq hr
  | poster u hu =>
      by_cases e : u = p
      · subst e; exact hx hu
      · exact .poster u (by rw [hp, Function.update_of_ne e, hu])

theorem Covered.openDest (h : Covered s) (wf : s.WellFormed) (d : Dest) :
    Covered (s.openDest d) := by
  cases d with
  | own traits =>
      have queues := queues_setSeq (s := s) (q := s.nextSeq) (x := .new traits)
        (wf.fresh s.nextSeq (Nat.le_refl _) ▸ ⟨rfl, rfl, rfl⟩)
      refine h.step (Nat.le_refl _) (fun r hr => .inl ?_) (fun r d hd => .inl ?_)
        (fun r hr _ => hr.congr rfl rfl rfl rfl) fun r t ht => .inl (ht.congr rfl rfl)
      · exact (queues r).1 ▸ hr
      · exact (queues r).2.1 ▸ hd
  | runner q => exact h

/-- The task is in its sequence, and its poster is about to push the source. -/
theorem Covered.pushTask (h : Covered s) {p : Tid} {q : SeqId} {t : Task} {e : Event}
    {d : Dest} {cb : Callback} {r : Option Instant} (hp : s.posters p = .push d cb r) :
    Covered (((s.setSeq q ((s.seqs q).pushTask t)).setPoster p (.pushSource q)).emit e) := by
  refine h.step (Nat.le_refl _) (fun x hx => ?_) (fun x d hd => .inl ?_) (fun x hx _ => ?_)
    fun x t ht => .inl ?_
  · by_cases eq : x = q
    · subst eq
      exact .inr (.poster p (Function.update_self ..))
    · exact .inl (seqs_setSeq_of_ne eq ▸ hx)
  · by_cases eq : x = q
    · subst eq
      change d ∈ ((s.setSeq x ((s.seqs x).pushTask t)).seqs x).delayedQueue at hd
      rwa [seqs_setSeq_self] at hd
    · exact seqs_setSeq_of_ne eq ▸ hd
  · exact hx.poster_step rfl rfl rfl rfl fun hx => by rw [hp] at hx; cases hx
  · exact ht.poster_step (fun _ he => he) rfl fun hx => by rw [hp] at hx; cases hx

/-- The task is in its sequence, and its poster is about to tell the timer. -/
theorem Covered.pushDelayedTask (h : Covered s) {p : Tid} {q : SeqId} {t : Task} {e : Event}
    {d : Dest} {cb : Callback} {r : Option Instant} {at_ : Instant}
    (hp : s.posters p = .push d cb r) :
    Covered (((s.setSeq q ((s.seqs q).pushDelayedTask t at_)).setPoster p
      (.addSequence q at_)).emit e) := by
  refine h.step (Nat.le_refl _) (fun x hx => .inl ?_) (fun x d hd => ?_) (fun x hx _ => ?_)
    fun x t ht => .inl ?_
  · by_cases eq : x = q
    · subst eq
      change ((s.setSeq x ((s.seqs x).pushDelayedTask t at_)).seqs x).immediateQueue ≠ [] at hx
      rwa [seqs_setSeq_self] at hx
    · exact seqs_setSeq_of_ne eq ▸ hx
  · by_cases eq : x = q
    · subst eq
      change d ∈ ((s.setSeq x ((s.seqs x).pushDelayedTask t at_)).seqs x).delayedQueue at hd
      rw [seqs_setSeq_self] at hd
      rcases MinHeap.mem_push.mp hd with rfl | hd
      · exact .inr (.poster p (Function.update_self ..))
      · exact .inl hd
    · exact .inl (seqs_setSeq_of_ne eq ▸ hd)
  · exact hx.poster_step rfl rfl rfl rfl fun hx => by rw [hp] at hx; cases hx
  · exact ht.poster_step (fun _ he => he) rfl fun hx => by rw [hp] at hx; cases hx

theorem covered_poster (h : Covered s) (wf : s.WellFormed) {p : Tid} {a : PosterAct}
    (ha : s.PosterEnabled p a) : Covered (s.posterNext p a) := by
  -- a step from a phase that owes nothing
  have move : ∀ {x : PosterPhase} {s' : Pool}, (∀ q, s.posters p ≠ .pushSource q) →
      (∀ q r, s.posters p ≠ .addSequence q r) → s'.seqs = s.seqs → s'.clock = s.clock →
      s'.group.priorityQueue = s.group.priorityQueue → s'.workers = s.workers →
      s'.timer = s.timer → s'.delayed.heap = s.delayed.heap →
      s'.posters = Function.update s.posters p x → Covered s' :=
    fun h₁ h₂ hs hc hg hw ht hh hp =>
      h.hands hs hc (fun q hq => hq.poster_step hg hw ht hp fun hx => absurd hx (h₁ q))
        fun q r htm => htm.poster_step (fun e he => by rwa [hh]) hp fun hx => absurd hx (h₂ q r)
  cases a with
  | post path delay =>
      have h₁ : ∀ q, s.posters p ≠ .pushSource q := by simp [ha.1]
      have h₂ : ∀ q r, s.posters p ≠ .addSequence q r := by simp [ha.1]
      cases path <;> exact move h₁ h₂ rfl rfl rfl rfl rfl rfl rfl
  | willPostTask traits id delay =>
      have hp : s.posters p = .gate traits id delay := ha
      have h₁ : ∀ q, s.posters p ≠ .pushSource q := by simp [hp]
      have h₂ : ∀ q r, s.posters p ≠ .addSequence q r := by simp [hp]
      simp only [posterNext, willPostTask]
      split <;> exact move h₁ h₂ rfl rfl rfl rfl rfl rfl rfl
  | readyTime d cb delay =>
      have hp : s.posters p = _ := ha
      refine move ?_ ?_ rfl rfl rfl rfl rfl rfl rfl <;> simp [hp]
  | push d cb ready =>
      have hp : (s.openDest d).posters p = .push d cb ready := by cases d <;> exact ha
      cases ready with
      | none => exact (h.openDest wf d).pushTask hp
      | some r => exact (h.openDest wf d).pushDelayedTask hp
  | pushSource q =>
      refine h.hands rfl rfl (fun r hr => ?_) fun r t ht => ?_
      · refine .poster_step (s := s.pushTaskSource q) ?_ rfl rfl rfl rfl fun hx => ?_
        · cases hr with
          | queued e he hq => exact .queued e (.tail _ he) hq
          | poster u hu => exact .poster u hu
          | timer ht => exact .timer ht
          | worker u hu => exact .worker u hu
        · cases ha.symm.trans hx
          exact .queued _ (.head _) rfl
      · refine ht.poster_step (fun _ he => he) rfl fun hx => ?_
        cases ha.symm.trans hx
  | addSequence q r =>
      refine h.hands rfl rfl (fun x hr => ?_) fun x t ht => ?_
      · refine hr.poster_step rfl rfl rfl rfl fun hx => ?_
        cases ha.symm.trans hx
      · refine ht.poster_step (fun e he => MinHeap.mem_push.mpr (.inr he)) rfl fun hx => ?_
        cases ha.symm.trans hx
        exact .entry _ (MinHeap.mem_push.mpr (.inl rfl)) rfl rfl
  | notifyGroup c =>
      refine move ?_ ?_ rfl rfl rfl rfl rfl rfl rfl <;> simp [ha.1]
  | notifyTimer =>
      have hp : s.posters p = _ := ha
      refine move ?_ ?_ rfl rfl rfl rfl rfl rfl rfl <;> simp [hp]

/-! ### The timer thread -/

/-- A step of the timer thread. -/
theorem InHands.timer_step {q : SeqId} (h : s.InHands q)
    (hq : ∀ e ∈ s.group.priorityQueue, e ∈ s'.group.priorityQueue) (hp : s'.posters = s.posters)
    (hw : s'.workers = s.workers) (ht : s.timer = .pushSource q → s'.InHands q) :
    s'.InHands q := by
  cases h with
  | queued e he hq' => exact .queued e (hq e he) hq'
  | poster p hp' => exact .poster p (by rw [hp, hp'])
  | timer ht' => exact ht ht'
  | worker u hu => exact .worker u (by rw [hw, hu])

theorem covered_timer (h : Covered s) {a : TimerAct} (ha : s.TimerEnabled a) :
    Covered (s.timerNext a) := by
  -- a step from a phase that owes nothing
  have move : ∀ {s' : Pool}, (∀ q, s.timer ≠ .pushSource q) → s'.seqs = s.seqs →
      s'.clock = s.clock → s'.group.priorityQueue = s.group.priorityQueue →
      s'.posters = s.posters → s'.workers = s.workers → s'.delayed.heap = s.delayed.heap →
      Covered s' := fun h₁ hs hc hg hp hw hh =>
    h.hands hs hc (fun q hq => hq.timer_step (fun e he => by rwa [hg]) hp hw fun hx =>
      absurd hx (h₁ q)) fun q r htm => htm.congr hh hp
  cases a with
  | exit | wait | waitTimeout e | notify c =>
      refine move ?_ rfl rfl rfl rfl rfl rfl
      rw [ha.1]; nofun
  | wakeUp =>
      exact h.hands rfl rfl (fun _ hq => hq.congr rfl rfl rfl rfl) fun _ _ ht => ht.congr rfl rfl
  | resume =>
      refine move (fun q hq => ?_) rfl rfl rfl rfl rfl rfl
      have hw := ha.1
      rw [hq] at hw; cases hw
  | pop e =>
      obtain ⟨ht, -, he, hr⟩ := ha
      have mine : (s.timerNext (.pop e)).InHands e.sequence := .timer rfl
      refine h.step (Nat.le_refl _) (fun r hr => .inl hr) (fun r d hd => .inl hd) (fun q hq _ => ?_)
        fun q r htm => ?_
      · refine hq.timer_step (fun _ he => he) rfl rfl fun hx => ?_
        rw [ht] at hx; cases hx
      · cases htm with
        | entry e' he' hq' hr' =>
            rcases MinHeap.mem_pop_or_eq he' he with rfl | hm
            · exact .inr ⟨hr' ▸ hr, hq' ▸ mine⟩
            · exact .inl (.entry e' hm hq' hr')
        | poster p hp => exact .inl (.poster p hp)
  | pushSource q =>
      refine h.hands rfl rfl (fun r hr => ?_) fun r t ht => ht.congr rfl rfl
      refine hr.timer_step (fun e he => .tail _ he) rfl rfl fun hx => ?_
      cases ha.symm.trans hx
      exact .queued _ (.head _) rfl

/-! ### The invariant -/

theorem covered_next (h : Covered s) (he : ClaimExclusive s) (wf : s.WellFormed) {a : Action}
    (ha : s.Enabled a) (hp : NoPanic s a) : Covered (s.next a) := by
  cases a with
  | worker w a => exact covered_worker h he ha hp
  | poster p a => exact covered_poster h wf ha
  | timer a => exact covered_timer h ha
  | closer c a =>
      cases a <;> exact h.hands rfl rfl (fun _ hq => hq.congr rfl rfl rfl rfl)
        fun _ _ ht => ht.congr rfl rfl
  | createRunner traits =>
      exact (h.openDest wf (.own traits)).hands rfl rfl (fun _ hq => hq.congr rfl rfl rfl rfl)
        fun _ _ ht => ht.congr rfl rfl
  | tick d =>
      exact h.step (Nat.le_add_right _ _) (fun _ hr => .inl hr) (fun _ _ hd => .inl hd)
        (fun _ hq _ => hq.congr rfl rfl rfl rfl) fun _ _ ht => .inl (ht.congr rfl rfl)

theorem covered_new (n : ℕ) : Covered (Pool.new n) :=
  ⟨fun _ hq => absurd rfl hq, fun _ _ hd => absurd hd MinHeap.not_mem_empty⟩

end Pool

theorem reachable_covered {s : Pool} (h : poolMachine.ReachableBy NoPanic s) : s.Covered := by
  refine h.invariant (fun s h₀ => ?_) fun s a hr hi hp ha =>
    Pool.covered_next hi (reachable_claimExclusive hr) (reachable_wellFormed hr) ha hp
  obtain ⟨n, rfl⟩ := h₀
  exact Pool.covered_new n

/-- In `get_work`, or not in `worker_loop`. -/
def WorkerPhase.inGetWork : WorkerPhase → Bool
  | .off | .getWork | .waiting | .exited => true
  | _ => false

/-- Empty queues, and every worker in `get_work`. -/
structure Pool.Quiescent (s : Pool) : Prop where
  queue : s.group.priorityQueue = []
  heap : s.delayed.heap.elems = []
  workers : ∀ w, (s.workers w).inGetWork = true

/-- A poster or the timer thread is about to push `q` to one of the queues. -/
def Pool.PushInFlight (s : Pool) (q : SeqId) : Prop :=
  (∃ p, s.posters p = .pushSource q ∨ ∃ r, s.posters p = .addSequence q r) ∨
    s.timer = .pushSource q

theorem Pool.Quiescent.inHands {s : Pool} (h : s.Quiescent) {q : SeqId} (hq : s.InHands q) :
    s.PushInFlight q := by
  cases hq with
  | queued e he _ => rw [h.queue] at he; cases he
  | poster p hp => exact .inl ⟨p, .inl hp⟩
  | timer ht => exact .inr ht
  | worker w hw =>
      have := h.workers w
      cases hx : s.workers w <;> rw [hx] at hw this <;> cases hw <;> cases this

theorem Pool.Quiescent.timed {s : Pool} (h : s.Quiescent) {q : SeqId} {r : Instant}
    (hq : s.Timed q r) : s.PushInFlight q := by
  cases hq with
  | entry e he _ _ => rw [MinHeap.mem_def, h.heap] at he; cases he
  | poster p hp => exact .inl ⟨p, .inr ⟨r, hp⟩⟩

/-- **No ready task is stranded.**  In every state that runs without unwinding callbacks reach, a
sequence with a queued task is in someone's hands, and so is one with a delayed task whose time has
come, unless that task's entry is with the timer.  When the queues are empty and the workers in
`get_work`, only a sequence that is being pushed can have a ready task; when none is, none has. -/
theorem no_ready_task_stranded {s : Pool} (h : poolMachine.ReachableBy NoPanic s) (q : SeqId) :
    ((s.seqs q).immediateQueue ≠ [] → s.InHands q) ∧
    (∀ d ∈ (s.seqs q).delayedQueue, d.readyTime ≤ s.clock →
      s.InHands q ∨ s.Timed q d.readyTime) ∧
    (s.Quiescent → (s.seqs q).Ready s.clock → s.PushInFlight q) ∧
    (s.Quiescent → ¬ s.PushInFlight q → ¬ (s.seqs q).Ready s.clock) := by
  have hc := reachable_covered h
  have due : ∀ d ∈ (s.seqs q).delayedQueue, s.InHands q ∨ s.Timed q d.readyTime := fun d hd =>
    (hc.delayed q d hd).elim .inr fun hd => .inl hd.2
  have rest : s.Quiescent → (s.seqs q).Ready s.clock → s.PushInFlight q := fun hq hr => by
    rcases hr with hi | ⟨d, hd, -⟩
    · exact hq.inHands (hc.immediate q hi)
    · exact (due d hd).elim hq.inHands hq.timed
  exact ⟨hc.immediate q, fun d hd _ => due d hd, rest, fun hq hp hr => hp (rest hq hr)⟩

/-- The second task of `raceRun`, whose entry was dropped, is in the running worker's hands. -/
theorem raceRun_not_stranded :
    let s := poolMachine.runList (Pool.new 2) raceRun
    s.group.priorityQueue = [] ∧ (s.seqs 0).immediateQueue = [⟨.plain 1, 1⟩] ∧ s.InHands 0 := by
  have follows : poolMachine.Follows NoPanic (Pool.new 2) raceRun := by decide +kernel
  have h := no_ready_task_stranded (.of_follows ⟨2, rfl⟩ follows) 0
  exact ⟨by decide +kernel, by decide +kernel, h.1 (by decide +kernel)⟩

/-- A poster has pushed its task to the sequence, and is about to push the sequence. -/
def midPostRun : List Pool.Action :=
  [.createRunner .default,
   .poster 0 (.post (.sequenced 0) none), .poster 0 (.push (.runner 0) (.plain 0) none)]

/-- The queues are empty and the workers in `get_work`, while the sequence has a ready task. -/
theorem midPostRun_ready :
    let s := poolMachine.runList (Pool.new 2) midPostRun
    poolMachine.ReachableBy NoPanic s ∧ s.Quiescent ∧ (s.seqs 0).Ready s.clock ∧
      s.posters 0 = .pushSource 0 := by
  refine ⟨.of_follows ⟨2, rfl⟩ (by decide +kernel), ⟨by decide +kernel, by decide +kernel, ?_⟩,
    .inl (by decide +kernel), by decide +kernel⟩
  intro w
  change ((Pool.new 2).workers w).inGetWork = true
  simp only [Pool.new]
  split <;> rfl

end RustTask
