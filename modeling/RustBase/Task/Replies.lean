import RustBase.Task.ReplyPool

/-!
# Task — replies reach the caller

A task on the sequence of a runner calls `post_task_and_reply`.  `Replied` is what it is promised:
`reply` is posted once, to its own sequence, and takes its turn there.

* **`replied_iff`**: once the closure of the call has returned the promise is kept exactly when a
  strong reference to the caller's runner was left at the time the worker, about to run the caller,
  looked for it.  At rest every closure has returned.
* `lostRun_not_replied`: the last handle is dropped between the post of the caller and its run; the
  call returns `true`, and `reply` is dropped.

`Looked` ties the environment of a worker to the sequence it has, `Tracked` the calls to the posts
of their closures and of their replies.
-/

namespace RustTask
open Support

/-! ### The sequence a worker has -/

theorem WorkerPhase.seq_of_holding {x : WorkerPhase} {q : SeqId} (h : x.holding = some q) :
    x.seq? = some q := by
  cases x <;> first | exact h | cases h

namespace Pool

variable {s : Pool} {a : Action}

/-- A step leaves a worker its sequence and its claim or takes them, but for the pop, which gives
it a sequence, and `will_run_task`, which gives it the claim. -/
theorem worker_next (w : Tid) (ha : s.Enabled a) :
    (s.next a).workers w = s.workers w ∨ ((s.next a).workers w).holding = none ∨
    (∃ e, a = .worker w (.getWorkPop e)) ∨
    (((s.next a).workers w).holding = (s.workers w).holding ∧
      (((s.next a).workers w).claim = none ∨ ((s.next a).workers w).claim = (s.workers w).claim ∨
        ∃ q, a = .worker w (.willRunTask q))) := by
  by_cases hw : ∃ b, a = .worker w b
  · obtain ⟨b, rfl⟩ := hw
    -- the worker moves from `x` to `y` and keeps its claim
    have keeps : ∀ {x y : WorkerPhase}, s.workers w = x → y.holding = x.holding →
        (y.claim = none ∨ y.claim = x.claim) →
        y.holding = (s.workers w).holding ∧ (y.claim = none ∨ y.claim = (s.workers w).claim ∨
          ∃ q, Action.worker w b = .worker w (.willRunTask q)) := fun {x y} hx hh hc => by
      rw [hx]
      exact ⟨hh, hc.imp_right .inl⟩
    cases b with
    | getWorkPop e => exact .inr (.inr (.inl ⟨e, rfl⟩))
    | wakeSpuriously => exact .inl rfl
    | attach | getWorkExit | getWorkWait | resume | callbackPanics q t | rePush q | notify c =>
        refine .inr (.inl ?_)
        simp [next, workerNext, setWorker, WorkerPhase.holding]
    | willRunTask q =>
        simp only [next, workerNext, setSeq, setWorker, Function.update_self]
        split
        · exact .inr (.inl rfl)
        · refine .inr (.inr (.inr ⟨?_, .inr (.inr ⟨q, rfl⟩)⟩))
          rw [show s.workers w = _ from ha]; rfl
    | takeTask q =>
        simp only [next, workerNext, setSeq, setWorker, Function.update_self]
        split <;> exact .inr (.inr (.inr (keeps ha rfl (.inr rfl))))
    | callTask q t | clearHasWorker q =>
        simp only [next, workerNext, setSeq, setWorker, emit, Function.update_self]
        exact .inr (.inr (.inr (keeps ha rfl (by simp [WorkerPhase.claim]))))
    | enterCallback q t =>
        simp only [next, workerNext, enterCallback]
        split
        · split <;> simp only [setWorker, emit, Function.update_self] <;>
            exact .inr (.inr (.inr (keeps ha rfl (.inr rfl))))
        · simp only [setWorker, emit, Function.update_self]
          exact .inr (.inr (.inr (keeps ha rfl (.inr rfl))))
    | callbackReturns q t =>
        simp only [next, workerNext, callbackReturns]
        split <;> simp only [setWorker, emit, Function.update_self] <;>
          exact .inr (.inr (.inr (keeps ha rfl (.inr rfl))))
    | afterRunTask q t =>
        simp only [next, workerNext, afterRunTask]
        split
        · simp only [setWorker, emit, Function.update_self]
          exact .inr (.inr (.inr (keeps ha rfl (.inr rfl))))
        · exact .inl rfl
    | didProcessTask q =>
        simp only [next, workerNext, setWorker, Function.update_self]
        split
        · exact .inr (.inr (.inr (keeps ha rfl (.inl rfl))))
        · exact .inr (.inl rfl)
  · exact .inl (workers_of_other ha fun b e => hw ⟨b, e⟩)

theorem holding_next {w : Tid} {q : SeqId} (ha : s.Enabled a)
    (h : ((s.next a).workers w).holding = some q) :
    (s.workers w).holding = some q ∨ ∃ e, a = .worker w (.getWorkPop e) := by
  rcases worker_next w ha with e | e | e | ⟨e, -⟩
  · exact .inl (e ▸ h)
  · rw [e] at h; cases h
  · exact .inr e
  · exact .inl (e ▸ h)

theorem claim_next {w : Tid} {q : SeqId} (ha : s.Enabled a)
    (h : ((s.next a).workers w).claim = some q) :
    (s.workers w).claim = some q ∨ ∃ r, a = .worker w (.willRunTask r) := by
  rcases worker_next w ha with e | e | ⟨e, rfl⟩ | ⟨-, e | e | e⟩
  · exact .inl (e ▸ h)
  · rw [WorkerPhase.holding_of_claim h] at e; cases e
  · simp [next, workerNext, setWorker, WorkerPhase.claim] at h
  · rw [e] at h; cases h
  · exact .inl (e ▸ h)
  · exact .inr e

end Pool

namespace ReplyPool

variable {s s' : ReplyPool} {a : Act} {b : Pool.Action}

/-! ### The pool of a reply pool -/

theorem pool_next (s : ReplyPool) (a : Act) :
    (s.next a).pool = a.onPool.elim s.pool s.pool.next := by
  cases a <;> rfl

theorem place_next (s : ReplyPool) (a : Act) :
    (s.next a).place = a.onPool.elim s.place (s.pool.placeNext s.place) := by
  cases a <;> rfl

theorem enabled_onPool (ha : s.Enabled a) (hb : a.onPool = some b) : s.pool.Enabled b := by
  cases a with
  | pool c => cases hb; exact ha.1
  | postTaskAndReply w q t r => cases hb; exact ha.2.2.1
  | postReply w q t c r => cases hb; exact ha.2.2.2.2.2
  | _ => cases hb

end ReplyPool

theorem pool_reachable {C : ReplyPool → ReplyPool.Act → Prop} {s : ReplyPool}
    (h : replyMachine.ReachableBy C s) : poolMachine.Reachable s.pool := by
  refine h.refines (f := ReplyPool.pool) (fun s h₀ => ?_) fun s a _ _ ha => ?_
  · obtain ⟨n, rfl⟩ := h₀
    exact ⟨n, rfl⟩
  · have hp := ReplyPool.pool_next s a
    cases hb : a.onPool with
    | none => rw [hb] at hp; exact .inl hp
    | some b => rw [hb] at hp; exact .inr ⟨b, ReplyPool.enabled_onPool ha hb, hp⟩

namespace ReplyPool

variable {s s' : ReplyPool} {a : Act} {b : Pool.Action}

/-! ### The environment of a worker -/

/-- The default runner of a worker is the one of its sequence exactly when there was a reference
to it. -/
structure Looked (s : ReplyPool) : Prop where
  outer : ∀ w q, s.outer w = some q → .thread w ∈ s.strong q
  claimed : ∀ w q, (s.pool.workers w).claim = some q → s.env w ≠ none
  found : ∀ w q, (s.pool.workers w).holding = some q → s.env w ≠ none → q ∈ s.pool.runners →
    (s.currentDefault w = some q ↔ s.held w = true)

theorem mem_hold (q : Option SeqId) (x : Holder) {r : SeqId} {y : Holder} (h : y ∈ s.strong r) :
    y ∈ s.hold q x r := by
  cases q with
  | none => exact h
  | some q =>
      simp only [hold]
      by_cases e : r = q
      · subst e; rw [Function.update_self]; exact .tail _ h
      · rwa [Function.update_of_ne e]

theorem mem_hold_self {q : SeqId} {x : Holder} : x ∈ s.hold (some q) x q := by
  simp [hold]

theorem mem_release (q : Option SeqId) {x y : Holder} {r : SeqId} (h : y ∈ s.strong r)
    (hxy : y ≠ x) : y ∈ s.release q x r := by
  cases q with
  | none => exact h
  | some q =>
      simp only [release]
      by_cases e : r = q
      · subst e; rw [Function.update_self]; exact (List.mem_erase_of_ne hxy).mpr h
      · rwa [Function.update_of_ne e]

theorem mem_strongNext {w : Tid} {q : SeqId} (h : .thread w ∈ s.strong q) (b : Pool.Action) :
    .thread w ∈ s.strongNext b q := by
  cases b with
  | createRunner traits => exact mem_hold (some _) .handle h
  | worker u b =>
      cases b with
      | callbackReturns r t | callbackPanics r t => exact mem_release _ h nofun
      | _ => exact h
  | _ => exact h

/-- A step of the pool, with the environments left alone. -/
theorem Looked.pool_step (h : s.Looked) (wf : s.pool.WellFormed) (hb : s.pool.Enabled b)
    (ha : ∀ w c, b = .worker w c → s.Allows b) (hp : s'.pool = s.pool.next b)
    (ho : s'.outer = s.outer) (he : s'.env = s.env) (hh : s'.held = s.held)
    (hs : ∀ w q, .thread w ∈ s.strong q → .thread w ∈ s'.strong q) : s'.Looked := by
  refine ⟨fun w q hq => ?_, fun w q hw => ?_, fun w q hw hv hq => ?_⟩
  · exact hs w q (h.outer w q (ho ▸ hq))
  · rw [he]
    rw [hp] at hw
    rcases Pool.claim_next hb hw with hw | ⟨r, rfl⟩
    · exact h.claimed w q hw
    · exact ha w _ rfl
  · rw [he] at hv
    rw [hp] at hw hq
    have same : s'.currentDefault w = s.currentDefault w := by
      simp only [currentDefault, he, ho]
    rw [same, hh]
    rcases Pool.holding_next hb hw with hw | ⟨e, rfl⟩
    · rcases (Pool.grows_next b).runners q hq with hq | hq
      · exact h.found w q hw hv hq
      · exact absurd (wf.workers w q (WorkerPhase.seq_of_holding hw)) (Nat.not_lt.mpr hq)
    · exact absurd (ha w _ rfl) hv

/-- A step that only moves references, those of the threads apart. -/
theorem Looked.strong_step (h : s.Looked) (hp : s'.pool = s.pool) (ho : s'.outer = s.outer)
    (he : s'.env = s.env) (hh : s'.held = s.held)
    (hs : ∀ w q, .thread w ∈ s.strong q → .thread w ∈ s'.strong q) : s'.Looked := by
  refine ⟨fun w q hq => hs w q (h.outer w q (ho ▸ hq)), ?_, ?_⟩
  · rw [hp, he]; exact h.claimed
  · have same : s'.currentDefault = s.currentDefault := by
      funext w
      simp only [currentDefault, he, ho]
    rw [hp, he, hh, same]
    exact h.found

theorem Looked.lookup (h : s.Looked) {w : Tid} {q : SeqId} (hw : s.pool.workers w = .popped q) :
    (s.next (.getExecutionEnvironment w q)).Looked := by
  refine ⟨fun u r hu => mem_hold _ _ (h.outer u r hu), fun u r hu => ?_, fun u r hu hv hr => ?_⟩
  · by_cases e : u = w
    · subst e; simp [next]
    · simpa [next, e] using h.claimed u r hu
  · by_cases e : u = w
    · subst e
      -- the worker that looked has popped `q`
      have hq : q = r := by
        rw [show (s.next (.getExecutionEnvironment u q)).pool = s.pool from rfl, hw] at hu
        exact Option.some.inj hu
      subst hq
      have runner : q ∈ s.pool.runners := hr
      by_cases hs : s.strong q = []
      · have other : s.outer u ≠ some q := fun ho => by
          have := h.outer u q ho
          rw [hs] at this; cases this
        simp [next, currentDefault, getExecutionEnvironment, hs, other]
      · simp [next, currentDefault, getExecutionEnvironment, hs, runner]
    · have same :
          (s.next (.getExecutionEnvironment w q)).currentDefault u = s.currentDefault u := by
        simp [next, currentDefault, e]
      rw [same]
      simpa [next, e] using h.found u r hu (by simpa [next, e] using hv) hr

theorem Looked.dropEnvironment (h : s.Looked) {w : Tid}
    (hw : s.pool.workers w = .getWork ∨ (s.pool.workers w).unwound = true) :
    (s.next (.dropEnvironment w)).Looked := by
  have idle : ∀ q, (s.pool.workers w).claim ≠ some q := fun q hq => by
    rcases hw with hw | hw
    · rw [hw] at hq; cases hq
    · obtain ⟨r, t, hw⟩ := Pool.dead_of_unwound hw
      rw [hw] at hq; cases hq
  refine ⟨fun u r hu => mem_release _ (h.outer u r hu) nofun, fun u r hu => ?_,
    fun u r hu hv hr => ?_⟩
  · have e : u ≠ w := fun e => idle r (e ▸ hu)
    simpa [next, e] using h.claimed u r hu
  · by_cases e : u = w
    · subst e; simp [next] at hv
    · have same : (s.next (.dropEnvironment w)).currentDefault u = s.currentDefault u := by
        simp [next, currentDefault, e]
      rw [same]
      exact h.found u r hu (by simpa [next, e] using hv) hr

theorem Looked.setDefault (h : s.Looked) {w : Tid} {q : SeqId} (hw : s.pool.workers w = .off) :
    (s.next (.setDefault w q)).Looked := by
  refine ⟨fun u r hu => ?_, h.claimed, fun u r hu hv hr => ?_⟩
  · by_cases e : u = w
    · subst e
      simp only [next, Function.update_self, Option.some.injEq] at hu
      subst hu
      exact mem_hold_self
    · simp only [next, Function.update_of_ne e] at hu
      exact mem_hold (some q) (.thread w) (h.outer u r hu)
  · have e : u ≠ w := fun e => by
      subst e
      rw [show (s.next (.setDefault u q)).pool = s.pool from rfl, hw] at hu
      cases hu
    have same : (s.next (.setDefault w q)).currentDefault u = s.currentDefault u := by
      simp [next, currentDefault, e]
    rw [same]
    exact h.found u r hu hv hr

theorem looked_next (h : s.Looked) (wf : s.pool.WellFormed) (ha : s.Enabled a) :
    (s.next a).Looked := by
  cases a with
  | pool b =>
      exact h.pool_step wf ha.1 (fun _ _ _ => ha.2) rfl rfl rfl rfl fun _ _ hq =>
        mem_strongNext hq b
  | getExecutionEnvironment w q => exact h.lookup ha.1
  | dropEnvironment w => exact h.dropEnvironment ha.1
  | cloneHandle q => exact h.strong_step rfl rfl rfl rfl fun _ _ => mem_hold (some q) .handle
  | dropHandle q =>
      refine h.strong_step rfl rfl rfl rfl fun _ _ hq => mem_release (some q) (x := .handle) hq ?_
      exact nofun
  | currentDefault w q r t =>
      exact h.strong_step rfl rfl rfl rfl fun _ _ => mem_hold (some r) .handle
  | setDefault w q => exact h.setDefault ha.1
  | postTaskAndReply w q t r =>
      exact h.pool_step wf ha.2.2.1 (fun _ _ e => by cases e) rfl rfl rfl rfl fun _ _ =>
        mem_hold _ _
  | taskReturns w q t c => exact h.strong_step rfl rfl rfl rfl fun _ _ hq => hq
  | postReply w q t c r =>
      exact h.pool_step wf ha.2.2.2.2.2 (fun _ _ e => by cases e) rfl rfl rfl rfl fun _ _ hq => hq

/-! ### What a call captures -/

/-- Where a call that is there after a step comes from. -/
theorem calls_cases {id : ℕ} {c : Call} (ha : s.Enabled a) (h : (s.next a).calls id = some c) :
    s.calls id = some c ∨
    (∃ w q t r, a = .postTaskAndReply w q t r ∧ s.pool.workers w = .running q t .body ∧
      id = s.pool.nextPost ∧ c = ⟨q, s.held w, s.currentDefault w, false, none⟩) ∨
    (∃ w q t d, a = .taskReturns w q t d ∧ s.pool.workers w = .running q t .body ∧
      t.callback.id = id ∧ s.calls id = some d ∧ d.taskReturned = false ∧
      c = { d with taskReturned := true }) ∨
    (∃ w q t d r, a = .postReply w q t d r ∧ s.pool.workers w = .running q t .body ∧
      t.callback.id = id ∧ s.calls id = some d ∧ d.taskReturned = true ∧
      d.replyRunner = some r ∧ d.reply = none ∧ c = { d with reply := some s.pool.nextPost }) := by
  cases a with
  | postTaskAndReply w q t r =>
      rcases update_some_eq_some.mp h with ⟨rfl, rfl⟩ | ⟨-, h⟩
      · exact .inr (.inl ⟨w, q, t, r, rfl, ha.1, rfl, rfl⟩)
      · exact .inl h
  | taskReturns w q t d =>
      obtain ⟨hw, -, hd, hr⟩ := ha
      rcases update_some_eq_some.mp h with ⟨rfl, rfl⟩ | ⟨-, h⟩
      · exact .inr (.inr (.inl ⟨w, q, t, d, rfl, hw, rfl, hd, hr, rfl⟩))
      · exact .inl h
  | postReply w q t d r =>
      obtain ⟨hw, hd, hr, ht, hn, -⟩ := ha
      rcases update_some_eq_some.mp h with ⟨rfl, rfl⟩ | ⟨-, h⟩
      · exact .inr (.inr (.inr ⟨w, q, t, d, r, rfl, hw, rfl, hd, hr, ht, hn, rfl⟩))
      · exact .inl h
  | _ => exact .inl h

theorem grows (s : ReplyPool) (a : Act) : s.pool.Grows (s.next a).pool := by
  rw [pool_next]
  cases a.onPool with
  | none => exact ⟨Nat.le_refl _, Nat.le_refl _, fun _ => .inl⟩
  | some b => exact Pool.grows_next b

/-- A call on the sequence of a runner captured this runner exactly when there was a reference
to it. -/
def Captured (s : ReplyPool) : Prop :=
  ∀ id c, s.calls id = some c → c.caller < s.pool.nextSeq ∧
    (c.caller ∈ s.pool.runners → (c.replyRunner = some c.caller ↔ c.held = true))

theorem captured_next (h : s.Captured) (hl : s.Looked) (wf : s.pool.WellFormed)
    (ha : s.Enabled a) : (s.next a).Captured := by
  have grown := s.grows a
  -- what holds of a call before the step holds after it
  have later : ∀ c : Call, c.caller < s.pool.nextSeq →
      (c.caller ∈ s.pool.runners → (c.replyRunner = some c.caller ↔ c.held = true)) →
      c.caller < (s.next a).pool.nextSeq ∧ (c.caller ∈ (s.next a).pool.runners →
        (c.replyRunner = some c.caller ↔ c.held = true)) := fun c hlt hc => by
    refine ⟨Nat.lt_of_lt_of_le hlt grown.nextSeq, fun hr => ?_⟩
    rcases grown.runners _ hr with hr | hr
    · exact hc hr
    · exact absurd hlt (Nat.not_lt.mpr hr)
  intro id c hc
  rcases calls_cases ha hc with hc | ⟨w, q, t, r, -, hw, -, rfl⟩ |
    ⟨w, q, t, d, -, -, -, hd, -, rfl⟩ | ⟨w, q, t, d, r, -, -, -, hd, -, -, -, rfl⟩
  · exact later c (h id c hc).1 (h id c hc).2
  · refine later _ (wf.workers w q (by rw [hw]; rfl)) fun hr => ?_
    exact hl.found w q (by rw [hw]; rfl) (hl.claimed w q (by rw [hw]; rfl)) hr
  · exact later d (h id d hd).1 (h id d hd).2
  · exact later d (h id d hd).1 (h id d hd).2

/-! ### Numbers of pushed posts -/

theorem placeNext_cases {x : Pool} {place : ℕ → Option (SeqId × ℕ)} {id : ℕ} {y : SeqId × ℕ}
    (h : x.placeNext place b id = some y) :
    place id = some y ∨ ∃ p d, b = .poster p (.push d (.plain id) none) ∧
      y = (x.destSeq d, ((x.openDest d).seqs (x.destSeq d)).nextSequenceNum) := by
  unfold Pool.placeNext at h
  split at h
  · rename_i p d k
    rcases update_some_eq_some.mp h with ⟨rfl, rfl⟩ | ⟨-, h⟩
    · exact .inr ⟨p, d, rfl, rfl⟩
    · exact .inl h
  · exact .inl h

/-- A post that was given a number has been pushed under it, and is delivered. -/
def Placed (s : ReplyPool) : Prop :=
  ∀ id q n, s.place id = some (q, n) → n ∈ s.pool.pushedNums q ∧ s.pool.Delivery id q n

theorem placed_next (h : s.Placed) (wf : s.pool.WellFormed) (ha : s.Enabled a) :
    (s.next a).Placed := by
  intro id q n hn
  rw [place_next] at hn
  rw [pool_next]
  cases hb : a.onPool with
  | none =>
      rw [hb] at hn
      exact h id q n hn
  | some b =>
      rw [hb] at hn
      rcases placeNext_cases hn with hn | ⟨p, d, rfl, hy⟩
      · obtain ⟨hp, hd⟩ := h id q n hn
        exact ⟨Pool.mem_history_next hp, Pool.delivery_next wf hd (enabled_onPool ha hb)⟩
      · obtain ⟨rfl, rfl⟩ := Prod.mk.inj hy
        refine ⟨?_, Pool.delivery_push p d id⟩
        change _ ∈ (s.pool.next (.poster p (.push d (.plain id) none))).log.filterMap _
        rw [Pool.log_next, List.filterMap_append]
        simp [Pool.events, Event.pushedNum]

/-- A post is given one number. -/
theorem Placed.keeps (h : s.Placed) (hb : s.pool.Balanced) (ha : s.Enabled a) {id : ℕ}
    {q : SeqId} {n : ℕ} (hn : s.place id = some (q, n)) : (s.next a).place id = some (q, n) := by
  rw [place_next]
  cases ho : a.onPool with
  | none => exact hn
  | some b =>
      change s.pool.placeNext s.place b id = _
      unfold Pool.placeNext
      split
      · rename_i p d k
        have pushing : s.pool.posters p = .push d (.plain k) none := enabled_onPool ha ho
        by_cases e : id = k
        · subst e
          refine absurd ?_ ((h id q n hn).2.not_posting hb p)
          simp [Pool.jobs, pushing, PosterPhase.jobs, Callback.job, Callback.id]
        · rwa [Function.update_of_ne e]
      · exact hn

/-- A poster with an undelayed callback of a runner keeps it until it pushes it. -/
theorem posting_next {p : Tid} {d : Dest} {id : ℕ} (ha : s.Enabled a)
    (hp : s.pool.posters p = .push d (.plain id) none) :
    (s.next a).pool.posters p = .push d (.plain id) none ∨
      (s.next a).place id =
        some (s.pool.destSeq d, ((s.pool.openDest d).seqs (s.pool.destSeq d)).nextSequenceNum) := by
  rw [pool_next, place_next]
  cases ho : a.onPool with
  | none => exact .inl hp
  | some b =>
      have hb := enabled_onPool ha ho
      change (s.pool.next b).posters p = _ ∨ s.pool.placeNext s.place b id = _
      by_cases h : ∃ c, b = .poster p c
      · obtain ⟨c, rfl⟩ := h
        cases c <;> simp [Pool.Enabled, Pool.PosterEnabled, hp] at hb
        obtain ⟨rfl, rfl, rfl⟩ := hb
        exact .inr (Function.update_self ..)
      · rw [Pool.posters_of_other fun c e => h ⟨c, e⟩]
        exact .inl hp

/-! ### The closure of a call -/

/-- The closure of a call is about to be pushed, or has been. -/
def Sent (s : ReplyPool) (id : ℕ) : Prop :=
  (∃ p d, s.pool.posters p = .push d (.plain id) none) ∨ ∃ q n, s.place id = some (q, n)

theorem Sent.next {id : ℕ} (h : s.Sent id) (hp : s.Placed) (hb : s.pool.Balanced)
    (ha : s.Enabled a) : (s.next a).Sent id := by
  rcases h with ⟨p, d, h⟩ | ⟨q, n, h⟩
  · exact (posting_next ha h).imp (fun h => ⟨p, d, h⟩) fun h => ⟨_, _, h⟩
  · exact .inr ⟨q, n, hp.keeps hb ha h⟩

theorem not_finished_of_running {x : Pool} (hb : x.Balanced) {w : Tid} {q : SeqId} {t : Task}
    {stage : Stage} (hw : x.workers w = .running q t stage) :
    t.callback.id ∉ x.finishedIds ∧ t.callback.id < x.nextPost := by
  refine hb.alive (.worker w) _ ?_
  simp [Pool.jobs, hw, WorkerPhase.jobs, Callback.job]

/-- A worker that runs the closure of a call runs it unwrapped. -/
theorem Sent.plain {id : ℕ} (h : s.Sent id) (hp : s.Placed) (hb : s.pool.Balanced) {w : Tid}
    {q : SeqId} {t : Task} {stage : Stage} (hw : s.pool.workers w = .running q t stage)
    (ht : t.callback.id = id) : t.callback = .plain id := by
  rcases h with ⟨p, d, h⟩ | ⟨r, n, h⟩
  · have there : id ∈ jobNums (s.pool.jobs (.poster p)) := by
      simp [Pool.jobs, h, PosterPhase.jobs, Callback.job, Callback.id]
    have here : id ∈ jobNums (s.pool.jobs (.worker w)) := by
      simp [Pool.jobs, hw, WorkerPhase.jobs, Callback.job, ht]
    cases hb.unique _ _ id there here
  · rw [(hp id r n h).2.task_eq hb hw ht]

/-- The closure of a call finishes by returning. -/
theorem Sent.finished_next {id : ℕ} (h : s.Sent id) (hp : s.Placed) (hb : s.pool.Balanced)
    (ha : s.Enabled a) (hf : id ∈ (s.next a).pool.finishedIds) :
    id ∈ s.pool.finishedIds ∨
      ∃ w q t, a = .pool (.worker w (.callbackReturns q t)) ∧ t.callback.id = id := by
  rw [pool_next] at hf
  cases ho : a.onPool with
  | none => rw [ho] at hf; exact .inl hf
  | some b =>
      rw [ho] at hf
      rcases Pool.finished_next (enabled_onPool ha ho) hf with
        hf | ⟨w, q, t, stage, hw, ht, rfl | ⟨traits, hc⟩⟩
      · exact .inl hf
      · cases a with
        | pool b => cases ho; exact .inr ⟨w, q, t, rfl, ht⟩
        | _ => cases ho
      · rw [h.plain hp hb hw ht] at hc
        cases hc

/-- A callback is not left while a post of its worker is under way. -/
theorem body_next {w : Tid} {q : SeqId} {t : Task} {d : Dest} {cb : Callback} (ha : s.Enabled a)
    (hw : s.pool.workers w = .running q t .body) (hp : s.pool.posters w = .push d cb none) :
    (s.next a).pool.workers w = .running q t .body := by
  rw [pool_next]
  cases ho : a.onPool with
  | none => exact hw
  | some b =>
      rcases Pool.running_next hw (enabled_onPool ha ho) with
        h | ⟨h, -⟩ | ⟨-, rfl⟩ | ⟨-, rfl⟩ | ⟨h, -⟩
      · exact h
      · cases h
      · cases a with
        | pool b => cases ho; cases hp.symm.trans ha.2.1
        | _ => cases ho
      · cases a with
        | pool b => cases ho; rcases ha.2 with h | h <;> cases hp.symm.trans h
        | _ => cases ho
      · cases h

/-- The reply `k` of the call `id` has been posted to the runner of `r`: the closure of the call is
about to push it, or has pushed it. -/
structure Posted (s : ReplyPool) (id k : ℕ) (r : SeqId) : Prop where
  lt : k < s.pool.nextPost
  once : s.pool.log.count (.accepted k (.sequenced r)) = 1
  sent : (∃ w q t, s.pool.posters w = .push (.runner r) (.plain k) none ∧
    s.pool.workers w = .running q t .body ∧ t.callback.id = id) ∨ ∃ n, s.place k = some (r, n)

theorem Posted.next {id k : ℕ} {r : SeqId} (h : s.Posted id k r) (hp : s.Placed)
    (hb : s.pool.Balanced) (ha : s.Enabled a) : (s.next a).Posted id k r := by
  refine ⟨Nat.lt_of_lt_of_le h.lt (s.grows a).nextPost, ?_, ?_⟩
  · rw [pool_next]
    cases a.onPool with
    | none => exact h.once
    | some b => exact (Pool.count_accepted_next h.lt b).trans h.once
  · rcases h.sent with ⟨w, q, t, hk, hw, ht⟩ | ⟨n, hn⟩
    · rcases posting_next ha hk with h | h
      · exact .inl ⟨w, q, t, h, body_next ha hw hk, ht⟩
      · exact .inr ⟨_, h⟩
    · exact .inr ⟨n, hp.keeps hb ha hn⟩

theorem posted_postReply (hr : poolMachine.Reachable s.pool) {w : Tid} {q : SeqId} {t : Task}
    {c : Call} {r : SeqId} (hw : s.pool.workers w = .running q t .body) :
    (s.next (.postReply w q t c r)).Posted t.callback.id s.pool.nextPost r := by
  refine ⟨Nat.lt_succ_self _, ?_, .inl ⟨w, q, t, Function.update_self .., hw, rfl⟩⟩
  have fresh : .accepted s.pool.nextPost (.sequenced r) ∉ s.pool.log := fun h =>
    Nat.lt_irrefl _ ((reachable_acceptedOnce hr).lt h)
  change (s.pool.log ++ [Event.accepted s.pool.nextPost (.sequenced r)]).count _ = 1
  rw [List.count_append, List.count_eq_zero.mpr fresh]
  simp

/-- What is known of the calls and of their replies. -/
structure Tracked (s : ReplyPool) : Prop where
  sent : ∀ id c, s.calls id = some c → id < s.pool.nextPost ∧ s.Sent id
  ended : ∀ id c, s.calls id = some c → id ∈ s.pool.finishedIds → c.complete = true
  posted : ∀ id c k, s.calls id = some c → c.reply = some k →
    c.taskReturned = true ∧ ∃ r, c.replyRunner = some r ∧ s.Posted id k r
  own : ∀ i j c d k, s.calls i = some c → s.calls j = some d → c.reply = some k →
    d.reply = some k → i = j

theorem sent_next (h : s.Tracked) (hp : s.Placed) (hb : s.pool.Balanced) (ha : s.Enabled a)
    {id : ℕ} {c : Call} (hc : (s.next a).calls id = some c) :
    id < (s.next a).pool.nextPost ∧ (s.next a).Sent id := by
  have old : ∀ {d}, s.calls id = some d →
      id < (s.next a).pool.nextPost ∧ (s.next a).Sent id := fun {d} hd => by
    obtain ⟨hlt, hs⟩ := h.sent id d hd
    exact ⟨Nat.lt_of_lt_of_le hlt (s.grows a).nextPost, hs.next hp hb ha⟩
  rcases calls_cases ha hc with hc | ⟨w, q, t, r, rfl, -, rfl, -⟩ | ⟨w, q, t, d, -, -, -, hd, -⟩ |
    ⟨w, q, t, d, r, -, -, -, hd, -⟩
  · exact old hc
  · refine ⟨?_, .inl ⟨w, ?_⟩⟩
    · cases r <;> exact Nat.lt_succ_self _
    · cases r <;> exact ⟨_, Function.update_self ..⟩
  · exact old hd
  · exact old hd

theorem ended_next (h : s.Tracked) (hp : s.Placed) (hb : s.pool.Balanced) (ha : s.Enabled a)
    {id : ℕ} {c : Call} (hc : (s.next a).calls id = some c)
    (hf : id ∈ (s.next a).pool.finishedIds) : c.complete = true := by
  -- a call whose closure is running has not finished after a step of that closure
  have open_ : ∀ {w q t d}, s.pool.workers w = .running q t .body → t.callback.id = id →
      s.calls id = some d → (∀ b, a ≠ .pool b) → False := fun {w q t d} hw ht hd hn => by
    rcases (h.sent id d hd).2.finished_next hp hb ha hf with hf | ⟨_, _, _, e, -⟩
    · exact (not_finished_of_running hb hw).1 (ht ▸ hf)
    · exact hn _ e
  rcases calls_cases ha hc with hc | ⟨w, q, t, r, rfl, -, rfl, -⟩ |
    ⟨w, q, t, d, rfl, hw, ht, hd, -⟩ | ⟨w, q, t, d, r, rfl, hw, ht, hd, -⟩
  · rcases (h.sent id c hc).2.finished_next hp hb ha hf with hf | ⟨w, q, t, rfl, ht⟩
    · exact h.ended id c hc hf
    · exact ha.2.2 c (by rw [ht]; exact hc)
  · -- the number of the new post is above those of the posts that have finished
    rcases Pool.finished_next ha.2.2.1 hf with hf | ⟨_, _, _, _, hu, ht, -⟩
    · exact absurd (hb.closed_lt _ hf) (Nat.lt_irrefl _)
    · exact absurd (ht ▸ (not_finished_of_running hb hu).2) (Nat.lt_irrefl _)
  · exact (open_ hw ht hd fun b e => by cases e).elim
  · exact (open_ hw ht hd fun b e => by cases e).elim

/-- A reply that is posted after a step was posted before it, or is posted by it. -/
theorem reply_cases (h : s.Tracked) (ha : s.Enabled a) {id k : ℕ} {c : Call}
    (hc : (s.next a).calls id = some c) (hk : c.reply = some k) :
    (∃ d, s.calls id = some d ∧ d.reply = some k ∧ c.taskReturned = d.taskReturned ∧
      c.replyRunner = d.replyRunner) ∨
    (∃ w q t d r, a = .postReply w q t d r ∧ s.pool.workers w = .running q t .body ∧
      t.callback.id = id ∧ k = s.pool.nextPost ∧ c.taskReturned = true ∧
      c.replyRunner = some r) := by
  rcases calls_cases ha hc with hc | ⟨w, q, t, r, -, -, -, rfl⟩ |
    ⟨w, q, t, d, -, -, -, hd, hr, rfl⟩ | ⟨w, q, t, d, r, rfl, hw, ht, hd, hr, hrun, -, rfl⟩
  · exact .inl ⟨c, hc, hk, rfl, rfl⟩
  · cases hk
  · -- nothing is posted before `task` has returned
    rw [(h.posted id d k hd hk).1] at hr
    cases hr
  · cases hk
    exact .inr ⟨w, q, t, d, r, rfl, hw, ht, rfl, hr, hrun⟩

theorem tracked_next (h : s.Tracked) (hr : poolMachine.Reachable s.pool) (hp : s.Placed)
    (ha : s.Enabled a) : (s.next a).Tracked := by
  have hb := reachable_balanced hr
  refine ⟨fun id c hc => sent_next h hp hb ha hc, fun id c hc hf => ended_next h hp hb ha hc hf,
    fun id c k hc hk => ?_, fun i j c d k hc hd hk hk' => ?_⟩
  · rcases reply_cases h ha hc hk with
      ⟨d, hd, hdk, e₁, e₂⟩ | ⟨w, q, t, d, r, rfl, hw, rfl, rfl, hret, hrun⟩
    · obtain ⟨hret, r, hrun, hpost⟩ := h.posted id d k hd hdk
      exact ⟨e₁.trans hret, r, e₂.trans hrun, hpost.next hp hb ha⟩
    · exact ⟨hret, r, hrun, posted_postReply hr hw⟩
  · have below : ∀ {i c}, s.calls i = some c → c.reply = some k → k ≠ s.pool.nextPost :=
      fun {i c} hc hk => by
        obtain ⟨-, r, -, hpost⟩ := h.posted i c k hc hk
        exact Nat.ne_of_lt hpost.lt
    rcases reply_cases h ha hc hk with ⟨c', hc', hck, -⟩ | ⟨w, q, t, _, r, rfl, -, ht, e, -⟩
    · rcases reply_cases h ha hd hk' with ⟨d', hd', hdk, -⟩ | ⟨_, _, _, _, _, -, -, -, e, -⟩
      · exact h.own i j c' d' k hc' hd' hck hdk
      · exact absurd e (below hc' hck)
    · rcases reply_cases h ha hd hk' with ⟨d', hd', hdk, -⟩ | ⟨_, _, _, _, _, he, -, ht', -, -⟩
      · exact absurd e (below hd' hdk)
      · cases he
        exact ht.symm.trans ht'

/-- Once the closure of a call has returned, its reply has its number. -/
theorem Tracked.placed_of_finished (h : s.Tracked) (hb : s.pool.Balanced) {id k : ℕ} {c : Call}
    (hc : s.calls id = some c) (hf : id ∈ s.pool.finishedIds) (hk : c.reply = some k) :
    ∃ r n, c.replyRunner = some r ∧ s.place k = some (r, n) ∧
      s.pool.log.count (.accepted k (.sequenced r)) = 1 := by
  obtain ⟨-, r, hrun, hpost⟩ := h.posted id c k hc hk
  rcases hpost.sent with ⟨w, q, t, -, hw, ht⟩ | ⟨n, hn⟩
  · exact absurd (ht ▸ hf) (not_finished_of_running hb hw).1
  · exact ⟨r, n, hrun, hn, hpost.once⟩

/-- All of the above. -/
structure Sound (s : ReplyPool) : Prop where
  looked : s.Looked
  captured : s.Captured
  placed : s.Placed
  tracked : s.Tracked

theorem sound_new (n : ℕ) : (new n).Sound := by
  have off : ∀ w q, ((new n).pool.workers w).holding ≠ some q := fun w q hq => by
    change ((Pool.new n).workers w).holding = some q at hq
    simp only [Pool.new] at hq
    split at hq <;> cases hq
  refine ⟨⟨?_, fun w q hw => absurd (WorkerPhase.holding_of_claim hw) (off w q),
    fun w q hw => absurd hw (off w q)⟩, ?_, ?_, ?_, ?_, ?_, ?_⟩
  · intro w q hq; cases hq
  · intro id c hc; cases hc
  · intro id q m hm; cases hm
  · intro id c hc; cases hc
  · intro id c hc; cases hc
  · intro id c k hc; cases hc
  · intro i j c d k hc; cases hc

end ReplyPool

theorem reachable_sound {C : ReplyPool → ReplyPool.Act → Prop} {s : ReplyPool}
    (h : replyMachine.ReachableBy C s) : s.Sound := by
  refine h.invariant (fun s h₀ => ?_) fun s a hr hi _ ha => ?_
  · obtain ⟨n, rfl⟩ := h₀
    exact ReplyPool.sound_new n
  · have hp := pool_reachable hr
    have wf := reachable_wellFormed hp
    exact ⟨ReplyPool.looked_next hi.looked wf ha,
      ReplyPool.captured_next hi.captured hi.looked wf ha, ReplyPool.placed_next hi.placed wf ha,
      ReplyPool.tracked_next hi.tracked hp hi.placed ha⟩

/-! ### The promise -/

/-- What `post_task_and_reply` promises the call `c`, whose closure is the post `id`: `k` is the
post of its reply, and of no other one; the caller's runner let it in once, and pushed it as the
task `n` of the caller's sequence.  While no callback has unwound that sequence is run in push
order, and at rest the reply has run there. -/
structure ReplyPool.Replied (s : ReplyPool) (id : ℕ) (c : Call) (k n : ℕ) : Prop where
  reply : c.reply = some k
  own : ∀ j d, s.calls j = some d → d.reply = some k → j = id
  once : s.pool.log.count (.accepted k (.sequenced c.caller)) = 1
  place : s.place k = some (c.caller, n)
  pushed : n ∈ s.pool.pushedNums c.caller
  order : (∀ w, (s.pool.workers w).unwound = false) → s.pool.InPushOrder c.caller
  runs : s.pool.Rests → n ∈ s.pool.startedNums c.caller ∧ k ∈ s.pool.ranIds

/-- **The reply reaches the caller's sequence exactly when its runner was still referenced.**  In
every reachable state, for every call of `post_task_and_reply` by a task on a runner's sequence:
`reply` is not posted before `task` has returned; at rest the closure of the call has returned; and
once it has, the reply is as promised if and only if a strong reference to the runner was left when
the worker that ran the caller looked its environment up. -/
theorem replied_iff {s : ReplyPool} (h : replyMachine.Reachable s) {id : ℕ} {c : Call}
    (hc : s.calls id = some c) (hr : c.caller ∈ s.pool.runners) :
    (c.reply ≠ none → c.taskReturned = true) ∧
    (s.pool.Rests → id ∈ s.pool.finishedIds) ∧
    (id ∈ s.pool.finishedIds → ((∃ k n, s.Replied id c k n) ↔ c.held = true)) := by
  have hp := pool_reachable h
  have hb := reachable_balanced hp
  obtain ⟨-, captured, placed, tracked⟩ := reachable_sound h
  have kept := (captured id c hc).2 hr
  -- what is at rest was reached without unwinding
  have covered : s.pool.Rests → s.pool.Covered := fun hq =>
    reachable_covered (noPanic_of_not_unwound hp hq.not_unwound)
  refine ⟨fun hk => ?_, fun hq => ?_, fun hf => ⟨?_, fun hh => ?_⟩⟩
  · obtain ⟨k, hk⟩ := Option.ne_none_iff_exists'.mp hk
    exact (tracked.posted id c k hc hk).1
  · rcases (tracked.sent id c hc).2 with ⟨p, d, hp⟩ | ⟨q, n, hn⟩
    · rcases hq.posters p with hp' | hp' <;> cases hp.symm.trans hp'
    · exact ((placed id q n hn).2.at_rest (covered hq) hq).1
  · rintro ⟨k, n, replied⟩
    obtain ⟨r, m, hrun, hn, -⟩ := tracked.placed_of_finished hb hc hf replied.reply
    obtain ⟨rfl, -⟩ := Prod.mk.inj (Option.some.inj (hn.symm.trans replied.place))
    exact kept.mp hrun
  · have hrun := kept.mpr hh
    have complete := tracked.ended id c hc hf
    obtain ⟨k, hk⟩ : ∃ k, c.reply = some k := by
      simp only [Call.complete, hrun, Bool.and_eq_true, Bool.or_eq_true] at complete
      exact Option.isSome_iff_exists.mp (complete.2.resolve_left Bool.false_ne_true)
    obtain ⟨r, n, hrun', hn, once⟩ := tracked.placed_of_finished hb hc hf hk
    obtain rfl := Option.some.inj (hrun.symm.trans hrun')
    obtain ⟨hnum, delivery⟩ := placed k c.caller n hn
    exact ⟨k, n, hk, fun j d hd hdk => (tracked.own j id d c k hd hc hdk hk), once, hn, hnum,
      fun hu => Pool.inPushOrder (reachable_lanes (noPanic_of_not_unwound hp hu)),
      fun hq => (delivery.at_rest (covered hq) hq).2⟩

/-! ### Two runs -/

section Runs

open ReplyPool

/-- A runner is made, and a task posted to it. -/
def postRun : List Act :=
  [.pool (.createRunner .default), .pool (.poster 9 (.post (.sequenced 0) none)),
   .pool (.poster 9 (.push (.runner 0) (.plain 0) none)), .pool (.poster 9 (.pushSource 0)),
   .pool (.poster 9 (.notifyGroup none))]

/-- The worker pops `q`, looks its environment up and calls `t`. -/
def startRun (q : SeqId) (t : Task) : List Act :=
  [.pool (.worker 0 (.getWorkPop ⟨.userVisible, 0, q⟩)), .getExecutionEnvironment 0 q,
   .pool (.worker 0 (.willRunTask q)), .pool (.worker 0 (.takeTask q)),
   .pool (.worker 0 (.callTask q t)), .pool (.worker 0 (.enterCallback q t))]

/-- The callback returns, and the iteration of `worker_loop` ends. -/
def endRun (q : SeqId) (t : Task) : List Act :=
  [.pool (.worker 0 (.callbackReturns q t)), .pool (.worker 0 (.clearHasWorker q)),
   .pool (.worker 0 (.didProcessTask q)), .dropEnvironment 0]

/-- The task calls `post_task_and_reply` of a parallel runner. -/
def callRun : List Act :=
  [.postTaskAndReply 0 0 ⟨.plain 0, 0⟩ (.parallel .default),
   .pool (.poster 0 (.push (.own .default) (.plain 1) none)), .pool (.poster 0 (.pushSource 1)),
   .pool (.poster 0 (.notifyGroup none))]

/-- The handle is dropped while the caller runs; the reply is posted, and run. -/
def keptRun : List Act :=
  postRun ++ startRun 0 ⟨.plain 0, 0⟩ ++ .dropHandle 0 :: callRun ++ endRun 0 ⟨.plain 0, 0⟩ ++
  startRun 1 ⟨.plain 1, 0⟩ ++
  [.taskReturns 0 1 ⟨.plain 1, 0⟩ ⟨0, true, some 0, false, none⟩,
   .postReply 0 1 ⟨.plain 1, 0⟩ ⟨0, true, some 0, true, none⟩ 0,
   .pool (.poster 0 (.push (.runner 0) (.plain 2) none)), .pool (.poster 0 (.pushSource 0)),
   .pool (.poster 0 (.notifyGroup none))] ++
  endRun 1 ⟨.plain 1, 0⟩ ++ startRun 0 ⟨.plain 2, 1⟩ ++ endRun 0 ⟨.plain 2, 1⟩

theorem keptRun_replied :
    let s := replyMachine.runList (.new 1) keptRun
    s.calls 1 = some ⟨0, true, some 0, true, some 2⟩ ∧ 0 ∈ s.pool.runners ∧
      (∃ k n, s.Replied 1 ⟨0, true, some 0, true, some 2⟩ k n) ∧ s.pool.startedNums 0 = [0, 1] := by
  intro s
  have follows : replyMachine.Follows (fun _ _ => True) (.new 1) keptRun := by decide +kernel
  have call : s.calls 1 = some ⟨0, true, some 0, true, some 2⟩ := by decide +kernel
  have runner : 0 ∈ s.pool.runners := by decide +kernel
  have finished : 1 ∈ s.pool.finishedIds := by decide +kernel
  have started : s.pool.startedNums 0 = [0, 1] := by decide +kernel
  have h := replied_iff (.of_follows ⟨1, rfl⟩ follows) call runner
  exact ⟨call, runner, (h.2.2 finished).mpr rfl, started⟩

/-- The last handle is dropped before the worker pops the caller's sequence. -/
def lostRun : List Act :=
  postRun ++ .dropHandle 0 :: startRun 0 ⟨.plain 0, 0⟩ ++ callRun ++ endRun 0 ⟨.plain 0, 0⟩ ++
  startRun 1 ⟨.plain 1, 0⟩ ++ .taskReturns 0 1 ⟨.plain 1, 0⟩ ⟨0, false, none, false, none⟩ ::
  endRun 1 ⟨.plain 1, 0⟩

/-- The call has returned `true` and its closure has finished; the reply was dropped. -/
theorem lostRun_not_replied :
    let s := replyMachine.runList (.new 1) lostRun
    replyMachine.Reachable s ∧ s.calls 1 = some ⟨0, false, none, true, none⟩ ∧
      0 ∈ s.pool.runners ∧ s.pool.posters 0 = .idle ∧ 1 ∈ s.pool.finishedIds ∧
      ¬ ∃ k n, s.Replied 1 ⟨0, false, none, true, none⟩ k n := by
  intro s
  have follows : replyMachine.Follows (fun _ _ => True) (.new 1) lostRun := by decide +kernel
  have call : s.calls 1 = some ⟨0, false, none, true, none⟩ := by decide +kernel
  have runner : 0 ∈ s.pool.runners := by decide +kernel
  have returned : s.pool.posters 0 = .idle := by decide +kernel
  have finished : 1 ∈ s.pool.finishedIds := by decide +kernel
  refine ⟨.of_follows ⟨1, rfl⟩ follows, call, runner, returned, finished, ?_⟩
  rintro ⟨k, n, replied⟩
  cases replied.reply

end Runs

end RustTask
