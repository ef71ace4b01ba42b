import RustBase.Io.IoThread

/-!
# Io — the trace of `do_work`

The IO thread with a history of its two queues: the tasks pushed, in the order of the pushes, those
that `do_work` took out and ran, and the deadlines it returned.  Tasks are pushed by any thread at
any time, so also by the task that is being run, and the clock goes on at any time.

**`do_work_law`**: the immediate queue is what was pushed less what ran, from the front; the heap is
what was pushed with a delay less what ran; a delayed task runs at its deadline or later and leaves
nothing earlier behind; and the deadline returned is the least of the heap.
-/

namespace RustIo
open Support RustTask

/-- The post a poster has under way. -/
def IoPosterPhase.carried : IoPosterPhase → Option ℕ
  | .push id | .readClock id _ => some id
  | .pushDelayed t => some t.id
  | _ => none

/-- The tasks in the queues, by their posts. -/
def IoTaskRunner.ids (x : IoTaskRunner) : List ℕ :=
  x.tasks ++ x.delayedTasks.map IoDelayedTask.id

/-- The IO thread is in `do_work`. -/
def IoPhase.inDoWork : IoPhase → Bool
  | .immediate | .runTask _ | .delayedNow | .delayedPop _ | .runDelayed _ | .peek => true
  | _ => false

/-! ### The history -/

/-- A delayed task is taken out of the heap at a time. -/
structure DelayedRun where
  task : IoDelayedTask
  time : Instant
  heap : List IoDelayedTask
  deriving DecidableEq

/-- A deadline is returned, with the heap it was looked up in. -/
structure Returned where
  deadline : Option Instant
  heap : List IoDelayedTask
  deriving DecidableEq

structure IoTrace where
  pushed : List ℕ
  pushedDelayed : List IoDelayedTask
  ran : List ℕ
  ranDelayed : List DelayedRun
  returned : List Returned

namespace IoTrace

def empty : IoTrace := ⟨[], [], [], [], []⟩

def record (s : IoState) : IoState.Action → IoTrace → IoTrace
  | .poster _ (.push id), h => { h with pushed := h.pushed ++ [id] }
  | .poster _ (.pushDelayed t), h => { h with pushedDelayed := h.pushedDelayed ++ [t] }
  | .io .popTask, h => { h with ran := h.ran ++ s.runner.tasks.head?.toList }
  | .io (.popDelayed _ t), h =>
      { h with ranDelayed := h.ranDelayed ++ [⟨t, s.clock, s.runner.delayedTasks⟩] }
  | .io .peek, h =>
      { h with returned := h.returned ++ [⟨s.runner.nextDeadline, s.runner.delayedTasks⟩] }
  | _, h => h

/-- The tasks pushed, by their posts. -/
def ids (h : IoTrace) : List ℕ := h.pushed ++ h.pushedDelayed.map IoDelayedTask.id

/-- The delayed tasks that ran, in the order in which they ran. -/
def delayedTasks (h : IoTrace) : List IoDelayedTask := h.ranDelayed.map DelayedRun.task

/-- The tasks that ran, by their posts. -/
def ranIds (h : IoTrace) : List ℕ := h.ran ++ h.delayedTasks.map IoDelayedTask.id

end IoTrace

/-- The IO thread with the history of its queues. -/
def traceMachine : Machine (IoState × IoTrace) IoState.Action :=
  ioMachine.withHistory .empty IoTrace.record

instance : ∀ x a, Decidable (traceMachine.Enabled x a) :=
  fun x a => inferInstanceAs (Decidable (x.1.Enabled a))

theorem init_trace {wakeFd : Fd} {isOpen : Fd → Bool} (h : isOpen wakeFd = true) :
    traceMachine.Init (.new wakeFd isOpen, .empty) :=
  ⟨⟨wakeFd, isOpen, h, rfl⟩, rfl⟩

/-! ### The steps that leave the queues alone -/

namespace IoState

/-- Steps that are none of `do_work` or of a push, and do not call `do_work`. -/
def Action.silent : Action → Bool
  | .io .popTask | .io (.taskReturns _) | .io .readNow | .io (.popDelayed _ _) | .io (.noDelayed _)
  | .io (.delayedReturns _) | .io .peek | .io .endBatch | .io (.epollInterrupted _ _)
  | .poster _ (.post _) | .poster _ (.push _) | .poster _ (.pushDelayed _) => false
  | _ => true

/-- What a silent step leaves as it was. -/
structure Frame (s s' : IoState) : Prop where
  tasks : s'.runner.tasks = s.runner.tasks
  delayedTasks : s'.runner.delayedTasks = s.runner.delayedTasks
  nextId : s'.nextId = s.nextId
  clock : s.clock ≤ s'.clock
  posters : ∀ p id, (s'.posters p).carried = some id → (s.posters p).carried = some id
  phase : s'.phase = s.phase ∨ s.phase.inDoWork = false ∧ s'.phase.inDoWork = false

variable {s s' : IoState}

theorem frame_dispatch {ev : EpollEvent} {evs : List EpollEvent} (hb : s.phase.inDoWork = false) :
    Frame s (s.dispatch ev evs) := by
  unfold dispatch
  split
  · exact ⟨rfl, rfl, rfl, Nat.le_refl _, fun _ _ h => h, .inr ⟨hb, rfl⟩⟩
  · rename_i e _
    cases e.persistent <;> cases s.alive e.watcher <;>
      exact ⟨rfl, rfl, rfl, Nat.le_refl _, fun _ _ h => h, .inr ⟨hb, rfl⟩⟩

/-- A poster that moves on with the post it had, or with none. -/
theorem carried_update {f : ThreadId → IoPosterPhase} {p : ThreadId} {x : IoPosterPhase}
    (hx : ∀ id, x.carried = some id → (f p).carried = some id) (q : ThreadId) (id : ℕ)
    (h : (Function.update f p x q).carried = some id) : (f q).carried = some id := by
  by_cases hq : q = p
  · subst hq
    rw [Function.update_self] at h
    exact hx id h
  · rw [Function.update_of_ne hq] at h
    exact h

theorem frame_silent {a : Action} (ha : s.Enabled a) (hs : a.silent = true) :
    Frame s (s.next a) := by
  -- the IO thread moves outside `do_work`
  have outside : ∀ {x y : IoPhase} {s' : IoState}, s.phase = x → x.inDoWork = false →
      s'.phase = y → y.inDoWork = false → s'.runner = s.runner → s'.nextId = s.nextId →
      s'.clock = s.clock → s'.posters = s.posters → Frame s s' :=
    fun hx hx' hy hy' hr hn hc hp =>
      ⟨by rw [hr], by rw [hr], hn, Nat.le_of_eq hc.symm, fun _ _ h => by rwa [hp] at h,
        .inr ⟨by rw [hx, hx'], by rw [hy, hy']⟩⟩
  cases a with
  | io a =>
      cases a with
      | checkQuit d =>
          cases hq : s.quit <;> simp only [next, ioNext, hq] <;>
            exact outside ha rfl rfl rfl rfl rfl rfl rfl
      | computeTimeout d => exact outside ha rfl rfl rfl rfl rfl rfl rfl
      | epollReturns t now evs => exact outside ha.1 rfl rfl rfl rfl rfl rfl rfl
      | epollFails t now => exact outside ha rfl rfl rfl rfl rfl rfl rfl
      | handle ev evs =>
          have hb : s.phase = .batch (ev :: evs) := ha
          simp only [next, ioNext]
          split
          · exact outside ha rfl rfl rfl rfl rfl rfl rfl
          · exact frame_dispatch (by rw [hb]; rfl)
      | call c cs evs => exact outside ha rfl rfl rfl rfl rfl rfl rfl
      | endCalls evs => exact outside ha rfl rfl rfl rfl rfl rfl rfl
      | callbackReturns c cs evs => exact outside ha.1 rfl rfl rfl rfl rfl rfl rfl
      | registerCtl fd persistent mode w ok =>
          cases ok <;> exact ⟨rfl, rfl, rfl, Nat.le_refl _, fun _ _ h => h, .inl rfl⟩
      | registerInsert fd e => exact ⟨rfl, rfl, rfl, Nat.le_refl _, fun _ _ h => h, .inl rfl⟩
      | _ => cases hs
  | poster p a =>
      cases a with
      | readClock id delay =>
          have hp : s.posters p = .readClock id delay := ha
          refine ⟨rfl, rfl, rfl, Nat.le_refl _, carried_update fun i hi => ?_, .inl rfl⟩
          rw [hp]
          revert hi
          cases instantAdd s.clock delay with
          | none => exact fun hi => by cases hi
          | some d => exact fun hi => hi
      | write | quitStore | quitWrite =>
          exact ⟨rfl, rfl, rfl, Nat.le_refl _, carried_update (by rintro _ ⟨⟩), .inl rfl⟩
      | stop flag =>
          exact ⟨rfl, rfl, rfl, Nat.le_refl _, carried_update (by rintro _ ⟨⟩), .inl rfl⟩
      | _ => cases hs
  | unregister fd g =>
      simp only [next, unregister]
      split <;> exact ⟨rfl, rfl, rfl, Nat.le_refl _, fun _ _ h => h, .inl rfl⟩
  | openFd | closeFd | dropWatcher =>
      exact ⟨rfl, rfl, rfl, Nat.le_refl _, fun _ _ h => h, .inl rfl⟩
  | tick d => exact ⟨rfl, rfl, rfl, Nat.le_add_right _ _, fun _ _ h => h, .inl rfl⟩

end IoState

theorem IoTrace.record_silent {s : IoState} {a : IoState.Action} (hs : a.silent = true)
    (h : IoTrace) : record s a h = h := by
  cases a with
  | io a => cases a <;> first | rfl | cases hs
  | poster p a => cases a <;> first | rfl | cases hs
  | _ => rfl

/-- A task that was pushed stays pushed. -/
theorem IoTrace.ids_record (s : IoState) (a : IoState.Action) {h : IoTrace} {id : ℕ}
    (hid : id ∈ h.ids) : id ∈ (record s a h).ids := by
  cases a with
  | io a => cases a <;> exact hid
  | poster p a =>
      cases a with
      | push i => simp only [record, ids, List.mem_append] at hid ⊢; tauto
      | pushDelayed t => simp only [record, ids, List.map_append, List.mem_append] at hid ⊢; tauto
      | _ => exact hid
  | _ => exact hid

theorem IoTrace.ranIds_record (s : IoState) (a : IoState.Action) {h : IoTrace} {id : ℕ}
    (hid : id ∈ h.ranIds) : id ∈ (record s a h).ranIds := by
  cases a with
  | io a =>
      cases a with
      | popTask => simp only [record, ranIds, List.mem_append] at hid ⊢; tauto
      | popDelayed now t =>
          simp only [record, ranIds, delayedTasks, List.map_append, List.mem_append] at hid ⊢
          tauto
      | _ => exact hid
  | poster p a => cases a <;> exact hid
  | _ => exact hid

/-! ### The invariant -/

/-- The delayed task was due, and nothing in the heap was earlier. -/
structure DelayedRun.Lawful (r : DelayedRun) : Prop where
  mem : r.task ∈ r.heap
  due : r.task.deadline ≤ r.time
  least : ∀ t ∈ r.heap, r.task.deadline ≤ t.deadline

/-- The deadline is the least of the heap, the one of the task that `peek` gives; there is none when
the heap is empty, and only then. -/
structure Returned.Lawful (r : Returned) : Prop where
  none_iff : r.deadline = none ↔ r.heap = []
  mem : ∀ d, r.deadline = some d → ∃ t ∈ r.heap, t.deadline = d
  least : ∀ d, r.deadline = some d → ∀ t ∈ r.heap, d ≤ t.deadline
  peek : ∀ t, IsTop IoDelayedTask.Le r.heap t → r.deadline = some t.deadline

theorem lawful_nextDeadline (x : IoTaskRunner) :
    (⟨x.nextDeadline, x.delayedTasks⟩ : Returned).Lawful where
  none_iff := by simp [IoTaskRunner.nextDeadline, List.min?_eq_none_iff]
  mem d hd := List.mem_map.mp (List.min?_eq_some_iff.mp hd).1
  least d hd t ht := (List.min?_eq_some_iff.mp hd).2 _ (List.mem_map_of_mem ht)
  peek t ht := by
    refine List.min?_eq_some_iff.mpr ⟨List.mem_map_of_mem ht.1, fun d hd => ?_⟩
    obtain ⟨u, hu, rfl⟩ := List.mem_map.mp hd
    exact ht.2 u hu

namespace IoTrace

variable {s s' : IoState} {h : IoTrace}

/-- Every post has a number of its own, pushed at most once. -/
structure Posts (s : IoState) (h : IoTrace) : Prop where
  nodup : h.ids.Nodup
  lt : ∀ id ∈ h.ids, id < s.nextId
  carried_lt : ∀ p id, (s.posters p).carried = some id → id < s.nextId
  carried_new : ∀ p id, (s.posters p).carried = some id → id ∉ h.ids
  apart : ∀ p q id, (s.posters p).carried = some id → (s.posters q).carried = some id → p = q

structure Inv (s : IoState) (h : IoTrace) : Prop where
  fifo : h.ran ++ s.runner.tasks = h.pushed
  perm : (h.delayedTasks ++ s.runner.delayedTasks).Perm h.pushedDelayed
  posts : h.Posts s
  reading : ∀ now, s.phase = .delayedPop now → now ≤ s.clock
  runs : ∀ r ∈ h.ranDelayed, r.Lawful
  returned : ∀ r ∈ h.returned, r.Lawful

namespace Posts

theorem congr {h' : IoTrace} (hp : h.Posts s) (hh : h'.ids = h.ids) (hn : s'.nextId = s.nextId)
    (hc : ∀ p id, (s'.posters p).carried = some id → (s.posters p).carried = some id) :
    h'.Posts s' where
  nodup := hh ▸ hp.nodup
  lt id hid := hn ▸ hp.lt id (hh ▸ hid)
  carried_lt p id hid := hn ▸ hp.carried_lt p id (hc p id hid)
  carried_new p id hid := hh ▸ hp.carried_new p id (hc p id hid)
  apart p q id h₁ h₂ := hp.apart p q id (hc p id h₁) (hc q id h₂)

/-- A post begins. -/
theorem post (hp : h.Posts s) {p : ThreadId} {x : IoPosterPhase} (hx : x.carried = some s.nextId)
    (hn : s'.nextId = s.nextId + 1) (he : s'.posters = Function.update s.posters p x) :
    h.Posts s' := by
  have split : ∀ q id, (s'.posters q).carried = some id →
      q = p ∧ id = s.nextId ∨ q ≠ p ∧ (s.posters q).carried = some id := by
    intro q id hq
    by_cases hqp : q = p
    · subst hqp
      rw [he, Function.update_self, hx] at hq
      exact .inl ⟨rfl, (Option.some.inj hq).symm⟩
    · rw [he, Function.update_of_ne hqp] at hq
      exact .inr ⟨hqp, hq⟩
  refine ⟨hp.nodup, fun id hid => ?_, fun q id hq => ?_, fun q id hq hid => ?_, ?_⟩
  · have := hp.lt id hid
    omega
  · rcases split q id hq with ⟨-, rfl⟩ | ⟨-, hq⟩
    · omega
    · have := hp.carried_lt q id hq
      omega
  · rcases split q id hq with ⟨-, rfl⟩ | ⟨-, hq⟩
    · exact absurd (hp.lt _ hid) (Nat.lt_irrefl _)
    · exact hp.carried_new q id hq hid
  · intro q₁ q₂ id h₁ h₂
    rcases split q₁ id h₁ with ⟨rfl, rfl⟩ | ⟨-, h₁⟩ <;>
      rcases split q₂ _ h₂ with ⟨rfl, e⟩ | ⟨-, h₂⟩
    · rfl
    · exact absurd (hp.carried_lt _ _ h₂) (Nat.lt_irrefl _)
    · exact absurd (e ▸ hp.carried_lt _ _ h₁) (Nat.lt_irrefl _)
    · exact hp.apart q₁ q₂ id h₁ h₂

/-- A post is pushed to one of the queues. -/
theorem push (hp : h.Posts s) {p : ThreadId} {x : IoPosterPhase} {id : ℕ} {h' : IoTrace}
    (hid : (s.posters p).carried = some id) (hx : x.carried = none) (hn : s'.nextId = s.nextId)
    (he : s'.posters = Function.update s.posters p x) (hh : h'.ids.Perm (id :: h.ids)) :
    h'.Posts s' := by
  have keep : ∀ q i, (s'.posters q).carried = some i → q ≠ p ∧ (s.posters q).carried = some i := by
    intro q i hq
    by_cases hqp : q = p
    · subst hqp
      rw [he, Function.update_self, hx] at hq
      cases hq
    · rw [he, Function.update_of_ne hqp] at hq
      exact ⟨hqp, hq⟩
  refine ⟨?_, fun i hi => ?_, fun q i hq => ?_, fun q i hq hi => ?_, fun q₁ q₂ i h₁ h₂ => ?_⟩
  · rw [hh.nodup_iff, List.nodup_cons]
    exact ⟨hp.carried_new p id hid, hp.nodup⟩
  · rw [hn]
    rcases List.mem_cons.mp (hh.subset hi) with rfl | hi
    · exact hp.carried_lt p _ hid
    · exact hp.lt i hi
  · rw [hn]
    exact hp.carried_lt q i (keep q i hq).2
  · obtain ⟨hqp, hq⟩ := keep q i hq
    rcases List.mem_cons.mp (hh.subset hi) with rfl | hi
    · exact hqp (hp.apart q p _ hq hid)
    · exact hp.carried_new q i hq hi
  · exact hp.apart q₁ q₂ i (keep q₁ i h₁).2 (keep q₂ i h₂).2

end Posts

namespace Inv

theorem init (wakeFd : Fd) (isOpen : Fd → Bool) : Inv (.new wakeFd isOpen) .empty where
  fifo := rfl
  perm := .nil
  posts := ⟨.nil, nofun, nofun, nofun, nofun⟩
  reading := nofun
  runs := nofun
  returned := nofun

/-- Steps that push nothing and run nothing. -/
theorem congr (hi : h.Inv s) (ht : s'.runner.tasks = s.runner.tasks)
    (hd : s'.runner.delayedTasks = s.runner.delayedTasks) (hp : h.Posts s')
    (hr : ∀ now, s'.phase = .delayedPop now → now ≤ s'.clock) : h.Inv s' where
  fifo := ht ▸ hi.fifo
  perm := hd ▸ hi.perm
  posts := hp
  reading := hr
  runs := hi.runs
  returned := hi.returned

theorem silent (hi : h.Inv s) (hf : s.Frame s') : h.Inv s' := by
  have posts : h.Posts s' := hi.posts.congr rfl hf.nextId hf.posters
  refine hi.congr hf.tasks hf.delayedTasks posts fun now hn => ?_
  rcases hf.phase with he | ⟨-, he⟩
  · exact Nat.le_trans (hi.reading now (he ▸ hn)) hf.clock
  · rw [hn] at he
    cases he

theorem post (hi : h.Inv s) (p : ThreadId) (delay : Option ℕ) :
    h.Inv (s.posterNext p (.post delay)) := by
  simp only [IoState.posterNext]
  split
  · exact hi
  · refine hi.congr rfl rfl (hi.posts.post (p := p) ?_ rfl rfl) hi.reading
    cases delay <;> rfl

theorem push (hi : h.Inv s) {p : ThreadId} {id : ℕ} (ha : s.posters p = .push id) :
    (record s (.poster p (.push id)) h).Inv (s.posterNext p (.push id)) where
  fifo := by
    change h.ran ++ (s.runner.tasks ++ [id]) = h.pushed ++ [id]
    rw [← List.append_assoc, hi.fifo]
  perm := hi.perm
  posts := by
    have hid : (s.posters p).carried = some id := by rw [ha]; rfl
    refine hi.posts.push (x := .write) hid rfl rfl rfl ?_
    change ((h.pushed ++ [id]) ++ _).Perm _
    rw [List.append_assoc]
    exact List.perm_middle
  reading := hi.reading
  runs := hi.runs
  returned := hi.returned

theorem pushDelayed (hi : h.Inv s) {p : ThreadId} {t : IoDelayedTask}
    (ha : s.posters p = .pushDelayed t) :
    (record s (.poster p (.pushDelayed t)) h).Inv (s.posterNext p (.pushDelayed t)) where
  fifo := hi.fifo
  perm := by
    change (h.delayedTasks ++ t :: s.runner.delayedTasks).Perm (h.pushedDelayed ++ [t])
    exact List.perm_middle.trans ((hi.perm.cons t).trans (List.perm_append_singleton t _).symm)
  posts := by
    have hid : (s.posters p).carried = some t.id := by rw [ha]; rfl
    refine hi.posts.push (x := .write) hid rfl rfl rfl ?_
    change (h.pushed ++ (h.pushedDelayed ++ [t]).map IoDelayedTask.id).Perm _
    rw [List.map_append, ← List.append_assoc]
    exact List.perm_append_comm
  reading := hi.reading
  runs := hi.runs
  returned := hi.returned

theorem popTask (hi : h.Inv s) : (record s (.io .popTask) h).Inv (s.ioNext .popTask) := by
  simp only [record, IoState.ioNext]
  cases ht : s.runner.tasks with
  | nil =>
      rw [List.head?_nil, Option.toList_none, List.append_nil]
      exact hi.congr rfl rfl (hi.posts.congr rfl rfl fun _ _ hc => hc) nofun
  | cons id ids =>
      refine ⟨?_, hi.perm, hi.posts.congr rfl rfl fun _ _ hc => hc, nofun, hi.runs, hi.returned⟩
      change (h.ran ++ [id]) ++ ids = h.pushed
      rw [← hi.fifo, ht, List.append_assoc]
      rfl

theorem popDelayed (hi : h.Inv s) {now : Instant} {t : IoDelayedTask}
    (ha : s.IoEnabled (.popDelayed now t)) :
    (record s (.io (.popDelayed now t)) h).Inv (s.ioNext (.popDelayed now t)) := by
  obtain ⟨hph, htop, hdue⟩ := ha
  refine ⟨hi.fifo, ?_, hi.posts.congr rfl rfl fun _ _ hc => hc, nofun, fun r hr => ?_,
    hi.returned⟩
  · change ((h.ranDelayed ++ [_]).map DelayedRun.task ++ s.runner.delayedTasks.erase t).Perm _
    rw [List.map_append, List.append_assoc]
    exact ((List.perm_cons_erase htop.1).symm.append_left _).trans hi.perm
  · rcases List.mem_append.mp hr with hr | hr
    · exact hi.runs r hr
    · obtain rfl := List.mem_singleton.mp hr
      exact ⟨htop.1, Nat.le_trans hdue (hi.reading now hph), htop.2⟩

theorem peek (hi : h.Inv s) : (record s (.io .peek) h).Inv (s.ioNext .peek) := by
  refine ⟨hi.fifo, hi.perm, hi.posts.congr rfl rfl fun _ _ hc => hc, nofun, hi.runs,
    fun r hr => ?_⟩
  rcases List.mem_append.mp hr with hr | hr
  · exact hi.returned r hr
  · obtain rfl := List.mem_singleton.mp hr
    exact lawful_nextDeadline s.runner

theorem next (hi : h.Inv s) {a : IoState.Action} (ha : s.Enabled a) :
    (record s a h).Inv (s.next a) := by
  by_cases hs : a.silent = true
  · rw [record_silent hs]
    exact hi.silent (IoState.frame_silent ha hs)
  have move : ∀ {s' : IoState}, s'.runner = s.runner → s'.nextId = s.nextId →
      s'.posters = s.posters → (∀ now, s'.phase = .delayedPop now → now ≤ s'.clock) → h.Inv s' :=
    fun hr hn hp hph => hi.congr (by rw [hr]) (by rw [hr])
      (hi.posts.congr rfl hn fun _ _ hc => by rwa [hp] at hc) hph
  cases a with
  | io a =>
      cases a with
      | popTask => exact hi.popTask
      | readNow =>
          refine move rfl rfl rfl fun now hn => ?_
          obtain rfl : s.clock = now := by injection hn
          exact Nat.le_refl _
      | popDelayed now t => exact hi.popDelayed ha
      | peek => exact hi.peek
      | taskReturns | noDelayed | delayedReturns | endBatch | epollInterrupted =>
          exact move rfl rfl rfl nofun
      | _ => exact absurd rfl hs
  | poster p a =>
      cases a with
      | post delay => exact hi.post p delay
      | push id => exact hi.push ha
      | pushDelayed t => exact hi.pushDelayed ha
      | _ => exact absurd rfl hs
  | _ => exact absurd rfl hs

/-- Every task that was pushed has run or is in its queue. -/
theorem perm_ids (hi : h.Inv s) : (h.ranIds ++ s.runner.ids).Perm h.ids := by
  have delayed := hi.perm.map IoDelayedTask.id
  rw [List.map_append] at delayed
  rw [ids, ← hi.fifo]
  refine .trans ?_ (delayed.append_left _)
  rw [ranIds, IoTaskRunner.ids, List.perm_iff_count]
  intro id
  simp only [List.count_append]
  omega

theorem nodup_ids (hi : h.Inv s) : (h.ranIds ++ s.runner.ids).Nodup :=
  hi.perm_ids.nodup_iff.mpr hi.posts.nodup

/-- A task in a queue has not run. -/
theorem not_mem_ranIds (hi : h.Inv s) {id : ℕ} (hid : id ∈ s.runner.ids) : id ∉ h.ranIds :=
  fun hr => (List.nodup_append.mp hi.nodup_ids).2.2 id hr id hid rfl

end Inv

end IoTrace

theorem reachable_trace {C : IoState × IoTrace → IoState.Action → Prop} {x : IoState × IoTrace}
    (hx : traceMachine.ReachableBy C x) : x.2.Inv x.1 := by
  refine hx.invariant (I := fun x => x.2.Inv x.1) ?_ fun x a _ hi _ ha => hi.next ha
  rintro ⟨s, h⟩ ⟨⟨wakeFd, isOpen, -, rfl⟩, rfl⟩
  exact .init wakeFd isOpen

/-! ### The law -/

/-- What `do_work` promises of a run. -/
structure IoTrace.Lawful (s : IoState) (h : IoTrace) : Prop where
  /-- what ran and then what is queued is what was pushed, in the order of the pushes -/
  fifo : h.ran ++ s.runner.tasks = h.pushed
  /-- of the delayed tasks none is lost, and none ran that is still in the heap -/
  perm : (h.delayedTasks ++ s.runner.delayedTasks).Perm h.pushedDelayed
  /-- nothing is pushed twice, so nothing runs twice -/
  nodup : h.ids.Nodup
  runs : ∀ r ∈ h.ranDelayed, r.Lawful
  returned : ∀ r ∈ h.returned, r.Lawful

/-- **The trace law of `do_work`**, under any posts and any passing of time. -/
theorem do_work_law {x : IoState × IoTrace} (hx : traceMachine.Reachable x) : x.2.Lawful x.1 := by
  have hi := reachable_trace hx
  exact ⟨hi.fifo, hi.perm, hi.posts.nodup, hi.runs, hi.returned⟩

/-- A task is posted, and one with a delay of 5; while the first one runs it posts another, and one
with a delay of 2.  The delayed ones run when their time has come. -/
def repostRun : List IoState.Action :=
  [.poster 0 (.post none), .poster 0 (.push 0), .poster 0 .write,
   .poster 0 (.post (some 5)), .poster 0 (.readClock 1 5), .poster 0 (.pushDelayed ⟨5, 1⟩),
   .poster 0 .write, .io .popTask,
   .poster 1 (.post none), .poster 1 (.push 2), .poster 1 .write,
   .poster 1 (.post (some 2)), .poster 1 (.readClock 3 2), .poster 1 (.pushDelayed ⟨2, 3⟩),
   .poster 1 .write, .io (.taskReturns 0), .io .popTask, .io (.taskReturns 2), .io .popTask,
   .tick 2, .io .readNow, .io (.popDelayed 2 ⟨2, 3⟩), .io (.delayedReturns 3), .io .readNow,
   .io (.noDelayed 2), .io .peek]

theorem repostRun_lawful :
    ∃ x, traceMachine.Reachable x ∧ x.2.ran = [0, 2] ∧ x.2.delayedTasks = [⟨2, 3⟩] ∧
      x.1.phase = .quitCheck (some 5) ∧ x.2.Lawful x.1 := by
  have run : traceMachine.Follows (fun _ _ => True) (.new 0 fun _ => true, .empty) repostRun := by
    decide +kernel
  have hx := Machine.ReachableBy.of_follows (init_trace rfl) run
  exact ⟨_, hx, by decide +kernel, by decide +kernel, by decide +kernel, do_work_law hx⟩

end RustIo
