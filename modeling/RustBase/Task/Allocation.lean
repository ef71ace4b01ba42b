import RustBase.Task.Pool

/-!
# Task — references to sequences

Every sequence that the queues, the threads or a runner refer to has been made, and an address that
has not been given out yet is untouched (`WellFormed`).  So a `Sequence::new` never meets a sequence
in use.  `reachable_wellFormed` holds in every run, panics included.
-/

namespace RustTask
open Support

/-- The sequence a worker refers to. -/
def WorkerPhase.seq? : WorkerPhase → Option SeqId
  | .popped q | .claimed q | .took q _ | .running q _ _ | .ran q | .cleared q | .rePush q
  | .dead q _ => some q
  | _ => none

def Dest.seq? : Dest → Option SeqId
  | .own _ => none
  | .runner q => some q

/-- The sequence a poster refers to. -/
def PosterPhase.seq? : PosterPhase → Option SeqId
  | .readClock d _ _ | .push d _ _ => d.seq?
  | .pushSource q | .addSequence q _ => some q
  | _ => none

/-- The sequence the timer thread refers to. -/
def TimerPhase.seq? : TimerPhase → Option SeqId
  | .pushSource q => some q
  | _ => none

namespace Pool

/-- Every reference is to an address that was given out, and the others are untouched. -/
structure WellFormed (s : Pool) : Prop where
  fresh : ∀ q, s.nextSeq ≤ q → s.seqs q = .new .default
  queue : ∀ e ∈ s.group.priorityQueue, e.taskSource < s.nextSeq
  heap : ∀ e ∈ s.delayed.heap, e.sequence < s.nextSeq
  runners : ∀ q ∈ s.runners, q < s.nextSeq
  workers : ∀ w q, (s.workers w).seq? = some q → q < s.nextSeq
  posters : ∀ p q, (s.posters p).seq? = some q → q < s.nextSeq
  timer : ∀ q, s.timer.seq? = some q → q < s.nextSeq

namespace WellFormed

variable {s : Pool}

theorem setWorker (h : WellFormed s) {w : Tid} {x : WorkerPhase}
    (hx : ∀ q, x.seq? = some q → q < s.nextSeq) : WellFormed (s.setWorker w x) := by
  refine ⟨h.fresh, h.queue, h.heap, h.runners, fun u q hu => ?_, h.posters, h.timer⟩
  by_cases e : u = w
  · subst e; exact hx q (by simpa [Pool.setWorker] using hu)
  · exact h.workers u q (by simpa [Pool.setWorker, e] using hu)

theorem setPoster (h : WellFormed s) {p : Tid} {x : PosterPhase}
    (hx : ∀ q, x.seq? = some q → q < s.nextSeq) : WellFormed (s.setPoster p x) := by
  refine ⟨h.fresh, h.queue, h.heap, h.runners, h.workers, fun u q hu => ?_, h.timer⟩
  by_cases e : u = p
  · subst e; exact hx q (by simpa [Pool.setPoster] using hu)
  · exact h.posters u q (by simpa [Pool.setPoster, e] using hu)

theorem setTimer (h : WellFormed s) {x : TimerPhase}
    (hx : ∀ q, x.seq? = some q → q < s.nextSeq) : WellFormed (s.setTimer x) :=
  ⟨h.fresh, h.queue, h.heap, h.runners, h.workers, h.posters, hx⟩

theorem setSeq (h : WellFormed s) {q : SeqId} {x : Sequence} (hq : q < s.nextSeq) :
    WellFormed (s.setSeq q x) := by
  refine ⟨fun r hr => ?_, h.queue, h.heap, h.runners, h.workers, h.posters, h.timer⟩
  have e : r ≠ q := fun e => absurd hr (Nat.not_le.mpr (e ▸ hq))
  exact (Function.update_of_ne e ..).trans (h.fresh r hr)

theorem emit (h : WellFormed s) {e : Event} : WellFormed (s.emit e) :=
  ⟨h.fresh, h.queue, h.heap, h.runners, h.workers, h.posters, h.timer⟩

theorem setGroup (h : WellFormed s) {g : ThreadGroup}
    (hg : ∀ e ∈ g.priorityQueue, e.taskSource < s.nextSeq) : WellFormed { s with group := g } :=
  ⟨h.fresh, hg, h.heap, h.runners, h.workers, h.posters, h.timer⟩

theorem setCondvar (h : WellFormed s) (c : Condvar Tid) :
    WellFormed { s with group := { s.group with condvar := c } } :=
  h.setGroup h.queue

theorem pushTaskSource (h : WellFormed s) {q : SeqId} (hq : q < s.nextSeq) :
    WellFormed (s.pushTaskSource q) := by
  refine h.setGroup fun e he => ?_
  rcases List.mem_cons.mp he with rfl | he
  · exact hq
  · exact h.queue e he

/-- The fields no reference is kept in. -/
theorem congr {s' : Pool} (h : WellFormed s) (hs : s'.seqs = s.seqs) (hn : s'.nextSeq = s.nextSeq)
    (hr : s'.runners = s.runners) (hq : s'.group.priorityQueue = s.group.priorityQueue)
    (hh : s'.delayed.heap = s.delayed.heap) (hw : s'.workers = s.workers)
    (hp : s'.posters = s.posters) (ht : s'.timer = s.timer) : WellFormed s' := by
  refine ⟨?_, ?_, ?_, ?_, ?_, ?_, ?_⟩
  · rw [hs, hn]; exact h.fresh
  · rw [hq, hn]; exact h.queue
  · rw [hh, hn]; exact h.heap
  · rw [hr, hn]; exact h.runners
  · rw [hw, hn]; exact h.workers
  · rw [hp, hn]; exact h.posters
  · rw [ht, hn]; exact h.timer

theorem newSequence (h : WellFormed s) (traits : TaskTraits) :
    WellFormed (s.newSequence traits) := by
  have up : ∀ {q}, q < s.nextSeq → q < s.nextSeq + 1 := Nat.lt_succ_of_lt
  refine ⟨fun r hr => ?_, fun e he => up (h.queue e he), fun e he => up (h.heap e he),
    fun q hq => up (h.runners q hq), fun w q hw => up (h.workers w q hw),
    fun p q hp => up (h.posters p q hp), fun q hq => up (h.timer q hq)⟩
  have e : r ≠ s.nextSeq := Nat.ne_of_gt hr
  exact (Function.update_of_ne e ..).trans (h.fresh r (Nat.le_of_succ_le hr))

end WellFormed

/-! ### The steps -/

variable {s : Pool}

theorem wellFormed_worker (h : WellFormed s) {w : Tid} {a : WorkerAct}
    (ha : s.WorkerEnabled w a) : WellFormed (s.workerNext w a) := by
  -- a phase that refers to the sequence the worker already had
  have keep : ∀ {x : WorkerPhase} {q : SeqId}, s.workers w = x → x.seq? = some q →
      q < s.nextSeq := fun hx hq => h.workers w _ (hx ▸ hq)
  cases a with
  | attach | getWorkExit | resume => exact h.setWorker (by nofun)
  | getWorkPop e =>
      obtain ⟨-, -, he, -⟩ := ha
      refine (h.setGroup fun e' he' => h.queue e' (List.mem_of_mem_erase he')).setWorker ?_
      rintro _ ⟨⟩
      exact h.queue e he
  | getWorkWait => exact (h.setCondvar _).setWorker (by nofun)
  | wakeSpuriously => exact h.setCondvar _
  | willRunTask q =>
      have hq := keep ha rfl
      refine (h.setSeq hq).setWorker ?_
      split
      · nofun
      · rintro _ ⟨⟩; exact hq
  | takeTask q =>
      have hq := keep ha rfl
      refine (h.setSeq hq).setWorker ?_
      split <;> (rintro _ ⟨⟩; exact hq)
  | callTask q t => exact (h.setWorker (by rintro _ ⟨⟩; exact keep ha rfl)).emit
  | enterCallback q t =>
      have hq := keep ha rfl
      simp only [workerNext, enterCallback]
      split
      · split
        · exact ((h.setWorker (by rintro _ ⟨⟩; exact hq)).emit).emit
        · exact (h.setWorker (by rintro _ ⟨⟩; exact hq)).emit
      · exact (h.setWorker (by rintro _ ⟨⟩; exact hq)).emit
  | callbackReturns q t =>
      have hq := keep ha rfl
      simp only [workerNext, callbackReturns]
      split
      · exact h.setWorker (by rintro _ ⟨⟩; exact hq)
      · exact (h.setWorker (by rintro _ ⟨⟩; exact hq)).emit
  | callbackPanics q t => exact h.setWorker (by rintro _ ⟨⟩; exact keep ha rfl)
  | afterRunTask q t =>
      have hq := keep ha rfl
      simp only [workerNext, afterRunTask]
      split
      · refine WellFormed.emit (.setWorker ?_ (by rintro _ ⟨⟩; exact hq))
        exact h.congr rfl rfl rfl rfl rfl rfl rfl rfl
      · exact h
  | clearHasWorker q =>
      have hq := keep ha rfl
      exact (h.setSeq hq).setWorker (by rintro _ ⟨⟩; exact hq)
  | didProcessTask q =>
      have hq := keep ha rfl
      refine h.setWorker ?_
      split
      · rintro _ ⟨⟩; exact hq
      · nofun
  | rePush q => exact (h.pushTaskSource (keep ha rfl)).setWorker (by nofun)
  | notify c => exact (h.setCondvar _).setWorker (by nofun)

theorem wellFormed_poster (h : WellFormed s) {p : Tid} {a : PosterAct}
    (ha : s.PosterEnabled p a) : WellFormed (s.posterNext p a) := by
  have keep : ∀ {x : PosterPhase} {q : SeqId}, s.posters p = x → x.seq? = some q →
      q < s.nextSeq := fun hx hq => h.posters p _ (hx ▸ hq)
  have deliver : ∀ {d : Dest} {cb : Callback} {delay : Option ℕ} {q : SeqId},
      (PosterPhase.deliver d cb delay).seq? = some q → d.seq? = some q := by
    intro d cb delay q hq
    cases delay <;> exact hq
  cases a with
  | post path delay =>
      have h' : WellFormed { s with nextPost := s.nextPost + 1 } :=
        h.congr rfl rfl rfl rfl rfl rfl rfl rfl
      cases path with
      | pool traits => exact h'.setPoster (by nofun)
      | parallel traits => exact (h'.setPoster fun q hq => by cases deliver hq).emit
      | sequenced r =>
          refine (h'.setPoster fun q hq => ?_).emit
          cases deliver hq
          exact h.runners _ ha.2
  | willPostTask traits id delay =>
      simp only [posterNext, willPostTask]
      split
      · refine WellFormed.emit (.setPoster ?_ fun q hq => by cases deliver hq)
        exact h.congr rfl rfl rfl rfl rfl rfl rfl rfl
      · refine WellFormed.emit (.setPoster ?_ (by nofun))
        exact h.congr rfl rfl rfl rfl rfl rfl rfl rfl
  | readyTime d cb delay =>
      refine h.setPoster fun q hq => ?_
      split at hq
      · exact keep ha hq
      · cases hq
  | push d cb ready =>
      -- the sequence pushed to is a runner's, or the one made here
      have hd : WellFormed (s.openDest d) ∧ s.destSeq d < (s.openDest d).nextSeq := by
        cases d with
        | own traits => exact ⟨h.newSequence traits, Nat.lt_succ_self _⟩
        | runner q => exact ⟨h, keep ha rfl⟩
      have dest : ∀ {x : PosterPhase}, x.seq? = some (s.destSeq d) →
          ∀ q, x.seq? = some q → q < (s.openDest d).nextSeq := fun hx q hq => by
        cases Option.some.inj (hx.symm.trans hq); exact hd.2
      cases ready with
      | none => exact ((hd.1.setSeq hd.2).setPoster (dest rfl)).emit
      | some r => exact ((hd.1.setSeq hd.2).setPoster (dest rfl)).emit
  | pushSource q => exact (h.pushTaskSource (keep ha rfl)).setPoster (by nofun)
  | addSequence q r =>
      have hq := keep ha rfl
      refine WellFormed.setPoster ?_ (by nofun)
      refine ⟨h.fresh, h.queue, fun e he => ?_, h.runners, h.workers, h.posters, h.timer⟩
      rcases MinHeap.mem_push.mp he with rfl | he
      · exact hq
      · exact h.heap e he
  | notifyGroup c => exact (h.setCondvar _).setPoster (by nofun)
  | notifyTimer =>
      refine WellFormed.setPoster ?_ (by nofun)
      exact h.congr rfl rfl rfl rfl rfl rfl rfl rfl

theorem wellFormed_timer (h : WellFormed s) {a : TimerAct} (ha : s.TimerEnabled a) :
    WellFormed (s.timerNext a) := by
  have same (s' : Pool) (hs : s' = { s with delayed := s'.delayed })
      (hh : ∀ e ∈ s'.delayed.heap, e ∈ s.delayed.heap) : WellFormed s' := by
    rw [hs]
    exact ⟨h.fresh, h.queue, fun e he => h.heap e (hh e he), h.runners, h.workers, h.posters,
      h.timer⟩
  cases a with
  | exit | resume => exact h.setTimer (by nofun)
  | wait | waitTimeout e =>
      refine WellFormed.setTimer ?_ (by nofun)
      exact same _ rfl fun _ he => he
  | pop e =>
      obtain ⟨-, -, he, -⟩ := ha
      refine (same _ rfl fun _ he => List.mem_of_mem_tail he).setTimer fun q hq => ?_
      cases hq
      exact h.heap e (MinHeap.mem_of_peek he)
  | wakeUp => exact same _ rfl fun _ he => he
  | pushSource q =>
      exact (h.pushTaskSource (h.timer q (by rw [show s.timer = _ from ha]; rfl))).setTimer
        (by nofun)
  | notify c => exact (h.setCondvar _).setTimer (by nofun)

theorem wellFormed_closer (h : WellFormed s) {c : Tid} {a : CloserAct} :
    WellFormed (s.closerNext c a) := by
  cases a <;> exact h.congr rfl rfl rfl rfl rfl rfl rfl rfl

theorem wellFormed_next (h : WellFormed s) {a : Action} (ha : s.Enabled a) :
    WellFormed (s.next a) := by
  cases a with
  | worker w a => exact wellFormed_worker h ha
  | poster p a => exact wellFormed_poster h ha
  | timer a => exact wellFormed_timer h ha
  | closer c a => exact wellFormed_closer h
  | createRunner traits =>
      have h' := h.newSequence traits
      refine ⟨h'.fresh, h'.queue, h'.heap, fun q hq => ?_, h'.workers, h'.posters, h'.timer⟩
      rcases List.mem_cons.mp hq with rfl | hq
      · exact Nat.lt_succ_self _
      · exact Nat.lt_succ_of_lt (h.runners q hq)
  | tick d => exact h.congr rfl rfl rfl rfl rfl rfl rfl rfl

theorem wellFormed_new (n : ℕ) : WellFormed (Pool.new n) := by
  refine ⟨fun _ _ => rfl, fun e he => ?_, fun e he => ?_, fun q hq => ?_, fun w q hw => ?_,
    fun p q hp => ?_, fun q hq => ?_⟩
  · cases he
  · exact absurd he MinHeap.not_mem_empty
  · cases hq
  · simp only [Pool.new] at hw
    split at hw <;> cases hw
  · cases hp
  · cases hq

end Pool

/-- **References are valid** in every state of every run. -/
theorem reachable_wellFormed {C : Pool → Pool.Action → Prop} {s : Pool}
    (h : poolMachine.ReachableBy C s) : s.WellFormed := by
  refine h.invariant (fun s h₀ => ?_) fun s a _ hi _ ha => Pool.wellFormed_next hi ha
  obtain ⟨n, rfl⟩ := h₀
  exact Pool.wellFormed_new n

end RustTask
