import RustBase.Io.FileOps
import RustBase.Io.TaskTrace
import RustBase.Io.Wakeup
import RustBase.Support.Before

/-!
# Io — FileProxy

A `FileProxy::new` with any number of IO threads that call it.  A call takes the runner of its
thread (`IoTaskRunner::current`), posts a task to the proxy's sequence, and returns; the task does
the file operation and posts the callback, with the result, back to that runner.

* Each IO thread is the one of `IoThread`, with the history of its queues (`TaskTrace`), and does
  whatever it likes beside: other tasks, delayed ones, descriptors, posts by any threads.  Calls are
  made by the code it runs for its users, so also by a callback.  There is no shutdown.
* The sequence is a queue of which the pool runs one task at a time: `Sequencing` proves that of the
  pool.  The worker that runs the task is poster 0 of every runner.
* A call and its push are two steps, and so are the push of a callback and the write that wakes the
  runner, as other threads may come in between.

`calls`, `posted` and `done` are history variables: the calls with those that had returned when they
were made, those that are posted, and those whose operation is over, with the result.

**`file_proxy_in_order`**: the operations are a sequential execution of the calls in the order in
which they were posted, and every callback runs once, on the runner of its call, in that order.
-/

namespace RustIo
open Support

abbrev RunnerId := ℕ

structure FileCall where
  id : ℕ
  io : RunnerId
  op : FileOp
  deriving DecidableEq

/-- The task of a call, on the pool. -/
inductive JobPhase where
  | file (p : OpPhase)
  /-- in `io.post_task`: the push of the callback is next -/
  | push (r : FileResult) (id : ℕ)
  /-- in `io.post_task`: `schedule_work` is next -/
  | wake
  deriving DecidableEq

structure ProxyState where
  /-- the file; `none` is no file -/
  content : Option Bytes
  sequence : List FileCall
  running : Option (FileCall × JobPhase)
  io : RunnerId → IoState × IoTrace
  /-- the call an IO thread is in -/
  calling : RunnerId → Option FileCall
  /-- the tasks of a runner that are callbacks, with what they will be called with -/
  callbacks : RunnerId → ℕ → Option (FileCall × FileResult)
  nextCall : ℕ
  calls : List (FileCall × List FileCall)
  posted : List FileCall
  done : List (FileCall × FileResult)

/-- The worker of the pool, as a poster of an IO runner. -/
def poolWorker : ThreadId := 0

/-- Steps of an IO runner that are not the proxy's and do not stop it. -/
def IoState.Action.foreign : IoState.Action → Bool
  | .poster _ (.stop _) | .poster _ .quitStore | .io (.epollFails _ _) => false
  | .poster p _ => p ≠ poolWorker
  | _ => true

/-- Steps of the IO thread itself. -/
def IoState.Action.onIoThread : IoState.Action → Bool
  | .io _ => true
  | _ => false

inductive ProxyAct where
  /-- one of the methods, up to `post_task` -/
  | call (r : RunnerId) (op : FileOp)
  /-- `post_task` of the sequence -/
  | post (r : RunnerId) (c : FileCall)
  /-- a worker takes the next task of the sequence -/
  | take (c : FileCall) (cs : List FileCall)
  | file (c : FileCall) (p : OpPhase) (a : OpAct)
  /-- `io.post_task` is called -/
  | reply (c : FileCall) (r : FileResult)
  | push (c : FileCall) (r : FileResult) (id : ℕ)
  | wake (c : FileCall)
  | io (r : RunnerId) (a : IoState.Action)
  deriving DecidableEq

/-- Steps of the worker that runs the proxy's tasks. -/
def ProxyAct.onPool : ProxyAct → Bool
  | .take _ _ | .file _ _ _ | .reply _ _ | .push _ _ _ | .wake _ => true
  | .call _ _ | .post _ _ | .io _ _ => false

namespace ProxyState

def init (c₀ : Option Bytes) (io : RunnerId → IoState) : ProxyState where
  content := c₀
  sequence := []
  running := none
  io := fun r => (io r, .empty)
  calling := fun _ => none
  callbacks := fun _ _ => none
  nextCall := 0
  calls := []
  posted := []
  done := []

def Enabled (s : ProxyState) : ProxyAct → Prop
  | .call r _ => (s.io r).1.phase.userCode = true ∧ s.calling r = none
  | .post r c => s.calling r = some c
  | .take c cs => s.running = none ∧ s.sequence = c :: cs
  | .file c p a => s.running = some (c, .file p) ∧ c.op.Enabled (p, s.content) a
  | .reply c r => s.running = some (c, .file (.finished r))
  | .push c r id => s.running = some (c, .push r id)
  | .wake c => s.running = some (c, .wake)
  | .io r a => (s.io r).1.Enabled a ∧ a.foreign = true ∧ (a.onIoThread = true → s.calling r = none)

/-- A step of an IO runner. -/
def stepIo (s : ProxyState) (r : RunnerId) (a : IoState.Action) : ProxyState :=
  { s with io := Function.update s.io r (traceMachine.next (s.io r) a) }

def next (s : ProxyState) : ProxyAct → ProxyState
  | .call r op =>
      let c : FileCall := ⟨s.nextCall, r, op⟩
      { s with
        calling := Function.update s.calling r (some c)
        nextCall := s.nextCall + 1
        calls := s.calls ++ [(c, s.posted)] }
  | .post r c =>
      { s with
        calling := Function.update s.calling r none
        sequence := s.sequence ++ [c]
        posted := s.posted ++ [c] }
  | .take c cs => { s with running := some (c, .file .opening), sequence := cs }
  | .file c p a =>
      let x := c.op.next (p, s.content) a
      { s with running := some (c, .file x.1), content := x.2 }
  | .reply c r =>
      { s.stepIo c.io (.poster poolWorker (.post none)) with
        running := some (c, .push r (s.io c.io).1.nextId)
        done := s.done ++ [(c, r)] }
  | .push c r id =>
      { s.stepIo c.io (.poster poolWorker (.push id)) with
        running := some (c, .wake)
        callbacks := Function.update s.callbacks c.io
          (Function.update (s.callbacks c.io) id (some (c, r))) }
  | .wake c => { s.stepIo c.io (.poster poolWorker .write) with running := none }
  | .io r a => s.stepIo r a

instance (s : ProxyState) : ∀ a, Decidable (s.Enabled a)
  | .call _ _ | .take _ _ | .file _ _ _ => inferInstanceAs (Decidable (_ ∧ _))
  | .post _ _ | .reply _ _ | .push _ _ _ | .wake _ => inferInstanceAs (Decidable (_ = _))
  | .io _ _ => inferInstanceAs (Decidable (_ ∧ _ ∧ (_ → _)))

end ProxyState

/-- A proxy of a file with the content `c₀`, and IO runners with any descriptors. -/
def proxyMachine (c₀ : Option Bytes) : Machine ProxyState ProxyAct where
  Init s := ∃ io, (∀ r, ioMachine.Init (io r)) ∧ s = .init c₀ io
  Enabled := ProxyState.Enabled
  next := ProxyState.next

instance (c₀ : Option Bytes) (s : ProxyState) (a : ProxyAct) :
    Decidable ((proxyMachine c₀).Enabled s a) :=
  inferInstanceAs (Decidable (s.Enabled a))

/-- The calls executed one after the other, each alone: from content `c₀`, with these results, to
the content `c`. -/
inductive Sequential (c₀ : Option Bytes) : List (FileCall × FileResult) → Option Bytes → Prop where
  | nil : Sequential c₀ [] c₀
  | call {l : List (FileCall × FileResult)} {c c' : Option Bytes} {x : FileCall} {r : FileResult}
      (h : Sequential c₀ l c) (he : x.op.Effect c r c') : Sequential c₀ (l ++ [(x, r)]) c'

/-! ### The runners -/

namespace IoState

variable {s : IoState} {a : IoState.Action}

/-- What the proxy has of a runner: it is not stopped, and the worker is where the proxy left it. -/
structure Serves (s : IoState) (x : IoPosterPhase) : Prop where
  worker : s.posters poolWorker = x
  shutdown : s.runner.shutdown = false
  quit : s.quit = false
  phase : s.phase ≠ .exited

theorem serves_new (wakeFd : Fd) (isOpen : Fd → Bool) : (new wakeFd isOpen).Serves .idle :=
  ⟨rfl, rfl, rfl, by simp [new]⟩

theorem Serves.io {x : IoPosterPhase} (h : s.Serves x) {a : IoAct}
    (hf : (Action.io a).foreign = true) : (s.ioNext a).Serves x := by
  -- steps of the IO thread that leave the queue of posters, the flags, and do not end it
  have move : ∀ {s' : IoState}, s'.posters = s.posters → s'.runner.shutdown = s.runner.shutdown →
      s'.quit = s.quit → s'.phase ≠ .exited → s'.Serves x := fun hp hs hq hph =>
    ⟨(congrFun hp _).trans h.worker, hs.trans h.shutdown, hq.trans h.quit, hph⟩
  cases a with
  | popTask =>
      simp only [ioNext]
      split <;> exact move rfl rfl rfl (by simp [setPhase, emit])
  | checkQuit d =>
      simp only [ioNext, h.quit]
      exact move rfl rfl rfl (by simp [setPhase])
  | handle ev evs =>
      simp only [ioNext, dispatch]
      split
      · exact move rfl rfl rfl (by simp [setPhase])
      · split
        · exact move rfl rfl rfl (by simp [setPhase])
        · next e _ =>
            cases e.persistent <;> cases s.alive e.watcher <;>
              exact move rfl rfl rfl (by simp [setPhase])
  | registerCtl fd persistent mode w ok =>
      cases ok <;> exact move rfl rfl rfl h.phase
  | registerInsert fd e => exact move rfl rfl rfl h.phase
  | epollFails t now => cases hf
  | taskReturns | readNow | popDelayed | noDelayed | delayedReturns | peek | computeTimeout
  | epollReturns | epollInterrupted | endBatch | call | endCalls | callbackReturns =>
      exact move rfl rfl rfl (by simp [ioNext, setPhase, emit])

theorem Serves.poster {x : IoPosterPhase} (h : s.Serves x) {p : ThreadId} {a : IoPosterAct}
    (hf : (Action.poster p a).foreign = true) : (s.posterNext p a).Serves x := by
  -- another thread moves
  have move : ∀ {s' : IoState} {y : IoPosterPhase}, p ≠ poolWorker →
      s'.posters = Function.update s.posters p y → s'.runner.shutdown = s.runner.shutdown →
      s'.quit = s.quit → s'.phase = s.phase → s'.Serves x := by
    intro s' y hp he hs hq hph
    refine ⟨?_, hs.trans h.shutdown, hq.trans h.quit, hph ▸ h.phase⟩
    rw [he, Function.update_of_ne (Ne.symm hp)]
    exact h.worker
  cases a with
  | stop | quitStore => cases hf
  | post delay =>
      have hp : p ≠ poolWorker := of_decide_eq_true hf
      simp only [posterNext, h.shutdown, Bool.false_eq_true, if_false]
      exact move hp rfl rfl rfl rfl
  | push | readClock | pushDelayed | write | quitWrite =>
      have hp : p ≠ poolWorker := of_decide_eq_true hf
      exact move hp rfl rfl rfl rfl

theorem Serves.next {x : IoPosterPhase} (h : s.Serves x) (hf : a.foreign = true) :
    (s.next a).Serves x := by
  cases a with
  | io a => exact h.io hf
  | poster p a => exact h.poster hf
  | unregister fd g =>
      simp only [IoState.next, unregister]
      split
      · exact ⟨h.worker, h.shutdown, h.quit, h.phase⟩
      · exact h
  | openFd | closeFd | dropWatcher | tick => exact ⟨h.worker, h.shutdown, h.quit, h.phase⟩

/-- The worker posts a callback: it enters `post_task`, pushes, and wakes the thread. -/
theorem Serves.workerStep {x y : IoPosterPhase} {s' : IoState} (h : s.Serves x)
    (he : s'.posters = Function.update s.posters poolWorker y)
    (hs : s'.runner.shutdown = s.runner.shutdown) (hq : s'.quit = s.quit)
    (hp : s'.phase = s.phase) : s'.Serves y :=
  ⟨by rw [he, Function.update_self], hs.trans h.shutdown, hq.trans h.quit, hp ▸ h.phase⟩

end IoState

/-! ### The invariant -/

namespace ProxyState

variable {c₀ : Option Bytes} {s : ProxyState} {r : RunnerId}

/-- Where the worker is as a poster of a runner. -/
def workerAt (s : ProxyState) (r : RunnerId) : IoPosterPhase :=
  match s.running with
  | some (c, .push _ id) => if c.io = r then .push id else .idle
  | some (c, .wake) => if c.io = r then .write else .idle
  | some (_, .file _) | none => .idle

/-- The call whose operation is under way. -/
def inFile (s : ProxyState) : Option FileCall :=
  match s.running with
  | some (c, .file _) => some c
  | _ => none

/-- The callback that is about to be pushed. -/
def unpushed (s : ProxyState) : Option (FileCall × FileResult) :=
  match s.running with
  | some (c, .push r _) => some (c, r)
  | _ => none

/-- The callbacks that ran on a runner, with what they were called with. -/
def ran (s : ProxyState) (r : RunnerId) : List (FileCall × FileResult) :=
  (s.io r).2.ran.filterMap (s.callbacks r)

/-- The callbacks in the queue of a runner. -/
def queued (s : ProxyState) (r : RunnerId) : List (FileCall × FileResult) :=
  (s.io r).1.runner.tasks.filterMap (s.callbacks r)

/-- The calls that a runner's thread has made. -/
def callsOf (s : ProxyState) (r : RunnerId) : List FileCall :=
  (s.calls.map Prod.fst).filter (·.io = r)

/-- The content of the file is the one that the operations that are over have left, but for what the
one under way has done to it. -/
def Effects (c₀ : Option Bytes) (s : ProxyState) : Prop :=
  ∃ c, Sequential c₀ s.done c ∧
    match s.running with
    | some (call, .file p) => call.op.Under c (p, s.content)
    | _ => s.content = c

/-- The calls go through the sequence one after the other, each with a number of its own. -/
structure Line (s : ProxyState) : Prop where
  order : s.done.map Prod.fst ++ s.inFile.toList ++ s.sequence = s.posted
  nodup : s.posted.Nodup
  lt : ∀ c ∈ s.posted, c.id < s.nextCall
  calling : ∀ r c, s.calling r = some c → c.io = r ∧ c.id < s.nextCall ∧ c ∉ s.posted
  before : ∀ x ∈ s.calls, x.2 <+: s.posted ∧ x.1 ∉ x.2
  issued : ∀ r, s.posted.filter (·.io = r) ++ (s.calling r).toList = s.callsOf r

/-- The callbacks of a runner are those of its calls, in their order. -/
structure Home (s : ProxyState) (r : RunnerId) : Prop where
  reachable : traceMachine.Reachable (s.io r)
  serves : (s.io r).1.Serves (s.workerAt r)
  known : ∀ id, s.callbacks r id ≠ none → id ∈ (s.io r).2.pushed
  order : (s.io r).2.pushed.filterMap (s.callbacks r) ++
    s.unpushed.toList.filter (·.1.io = r) = s.done.filter (·.1.io = r)

structure Inv (c₀ : Option Bytes) (s : ProxyState) : Prop where
  effects : s.Effects c₀
  line : s.Line
  home : ∀ r, s.Home r

namespace Inv

theorem init {io : RunnerId → IoState} (hio : ∀ r, ioMachine.Init (io r)) :
    Inv c₀ (.init c₀ io) where
  effects := ⟨c₀, .nil, rfl⟩
  line := ⟨rfl, .nil, nofun, nofun, nofun, fun _ => rfl⟩
  home r := by
    obtain ⟨wakeFd, isOpen, hopen, he⟩ := hio r
    refine ⟨.of_init ⟨hio r, rfl⟩, ?_, fun id h => absurd rfl h, rfl⟩
    change (io r).Serves .idle
    rw [he]
    exact IoState.serves_new wakeFd isOpen

end Inv

/-! ### The file and the sequence -/

theorem effects_next (h : s.Effects c₀) {a : ProxyAct} (ha : s.Enabled a) :
    (s.next a).Effects c₀ := by
  obtain ⟨c, hseq, hc⟩ := h
  cases a with
  | call | post | io => exact ⟨c, hseq, hc⟩
  | take call cs =>
      rw [ha.1] at hc
      exact ⟨c, hseq, hc⟩
  | file call p a =>
      obtain ⟨hr, ha⟩ := ha
      rw [hr] at hc
      exact ⟨c, hseq, FileOp.under_next hc ha⟩
  | reply call r =>
      rw [show s.running = _ from ha] at hc
      exact ⟨s.content, hseq.call hc, rfl⟩
  | push call r id | wake call =>
      rw [show s.running = _ from ha] at hc
      exact ⟨c, hseq, hc⟩

namespace Line

/-- Steps that neither make a call nor post one. -/
theorem congr {s' : ProxyState} (h : s.Line)
    (ho : s'.done.map Prod.fst ++ s'.inFile.toList ++ s'.sequence =
      s.done.map Prod.fst ++ s.inFile.toList ++ s.sequence)
    (hp : s'.posted = s.posted) (hn : s'.nextCall = s.nextCall) (hc : s'.calling = s.calling)
    (hl : s'.calls = s.calls) : s'.Line where
  order := by rw [ho, hp, h.order]
  nodup := hp ▸ h.nodup
  lt c hm := hn ▸ h.lt c (hp ▸ hm)
  calling r c hr := by
    rw [hn, hp]
    exact h.calling r c (hc ▸ hr)
  before x hx := by
    rw [hp]
    exact h.before x (hl ▸ hx)
  issued r := by
    rw [callsOf, hp, hc, hl]
    exact h.issued r

theorem call (h : s.Line) {op : FileOp} (ha : s.calling r = none) :
    (s.next (.call r op)).Line where
  order := h.order
  nodup := h.nodup
  lt c hm := Nat.lt_succ_of_lt (h.lt c hm)
  calling r' c hr := by
    rcases update_some_eq_some.mp hr with ⟨rfl, rfl⟩ | ⟨-, hr⟩
    · exact ⟨rfl, Nat.lt_succ_self _, fun hm => Nat.lt_irrefl _ (h.lt _ hm)⟩
    · obtain ⟨hio, hlt, hm⟩ := h.calling r' c hr
      exact ⟨hio, Nat.lt_succ_of_lt hlt, hm⟩
  before x hx := by
    rcases List.mem_append.mp hx with hx | hx
    · exact h.before x hx
    · obtain rfl := List.mem_singleton.mp hx
      exact ⟨List.prefix_rfl, fun hm => Nat.lt_irrefl _ (h.lt _ hm)⟩
  issued r' := by
    have before := h.issued r'
    simp only [callsOf, next, List.map_append, List.filter_append] at before ⊢
    rw [← before]
    by_cases e : r' = r
    · subst e
      simp [ha]
    · simp [e, Ne.symm e]

theorem post (h : s.Line) {c : FileCall} (ha : s.calling r = some c) :
    (s.next (.post r c)).Line := by
  obtain ⟨hio, hlt, hnew⟩ := h.calling r c ha
  refine ⟨?_, ?_, fun c' hm => ?_, fun r' c' hr => ?_, fun x hx => ?_, fun r' => ?_⟩
  · change _ ++ (s.sequence ++ [c]) = s.posted ++ [c]
    rw [← List.append_assoc]
    exact congrArg (· ++ [c]) h.order
  · refine List.nodup_append.mpr ⟨h.nodup, List.nodup_singleton c, fun a hm b hb => ?_⟩
    rw [List.mem_singleton.mp hb]
    exact fun e => hnew (e ▸ hm)
  · rcases List.mem_append.mp hm with hm | hm
    · exact h.lt c' hm
    · exact List.mem_singleton.mp hm ▸ hlt
  · -- the calls of other threads are other ones
    obtain ⟨hne, hr⟩ := update_none_eq_some.mp hr
    obtain ⟨hio', hlt', hnew'⟩ := h.calling r' c' hr
    refine ⟨hio', hlt', fun hm => ?_⟩
    rcases List.mem_append.mp hm with hm | hm
    · exact hnew' hm
    · exact hne (by rw [← hio', List.mem_singleton.mp hm, hio])
  · obtain ⟨hpre, hx⟩ := h.before x hx
    exact ⟨hpre.trans (List.prefix_append ..), hx⟩
  · have before := h.issued r'
    simp only [callsOf, next, List.filter_append] at before ⊢
    rw [← before]
    by_cases e : r' = r
    · subst e
      simp [ha, hio]
    · have hc : c.io ≠ r' := fun e' => e (e'.symm.trans hio)
      simp [e, hc]

theorem next (h : s.Line) {a : ProxyAct} (ha : s.Enabled a) : (s.next a).Line := by
  cases a with
  | call r op => exact h.call ha.2
  | post r c => exact h.post ha
  | take c cs =>
      refine h.congr ?_ rfl rfl rfl rfl
      simp [ProxyState.next, inFile, ha.1, ha.2]
  | file c p a =>
      refine h.congr ?_ rfl rfl rfl rfl
      simp [ProxyState.next, inFile, ha.1]
  | reply c r =>
      refine h.congr ?_ rfl rfl rfl rfl
      have hr : s.running = _ := ha
      simp [ProxyState.next, inFile, hr, stepIo]
  | push c r id | wake c =>
      refine h.congr ?_ rfl rfl rfl rfl
      have hr : s.running = _ := ha
      simp [ProxyState.next, inFile, hr, stepIo]
  | io r a => exact h.congr rfl rfl rfl rfl rfl

end Line

/-! ### The callbacks -/

/-- What a step of a runner pushes to its queue. -/
theorem pushed_record (s : IoState) (a : IoState.Action) (h : IoTrace) :
    (IoTrace.record s a h).pushed = h.pushed ∨
      ∃ p id, a = .poster p (.push id) ∧ (IoTrace.record s a h).pushed = h.pushed ++ [id] := by
  cases a with
  | io a => cases a <;> exact .inl rfl
  | poster p a =>
      cases a with
      | push id => exact .inr ⟨p, id, rfl, rfl⟩
      | _ => exact .inl rfl
  | _ => exact .inl rfl

/-- What a poster is about to push was not pushed before. -/
theorem not_mem_pushed {x : IoState × IoTrace} (h : traceMachine.Reachable x) {p : ThreadId}
    {id : ℕ} (hp : x.1.posters p = .push id) : id ∉ x.2.pushed := by
  have posts := (reachable_trace h).posts
  exact fun hm => posts.carried_new p id (by rw [hp]; rfl) (List.mem_append_left _ hm)

namespace Home

theorem congr {s' : ProxyState} (h : s.Home r) (hio : s'.io r = s.io r)
    (hw : s'.workerAt r = s.workerAt r) (hc : s'.callbacks r = s.callbacks r)
    (hu : s'.unpushed.toList.filter (·.1.io = r) = s.unpushed.toList.filter (·.1.io = r))
    (hd : s'.done.filter (·.1.io = r) = s.done.filter (·.1.io = r)) : s'.Home r where
  reachable := hio ▸ h.reachable
  serves := by
    rw [hio, hw]
    exact h.serves
  known id hid := by
    rw [hio]
    exact h.known id (hc ▸ hid)
  order := by
    rw [hio, hc, hu, hd]
    exact h.order

/-- A step of the runner that has nothing to do with the proxy. -/
theorem foreign (h : s.Home r) {a : IoState.Action} (ha : (s.io r).1.Enabled a)
    (hf : a.foreign = true) : (s.stepIo r a).Home r := by
  have hio : (s.stepIo r a).io r = traceMachine.next (s.io r) a := Function.update_self ..
  refine ⟨?_, ?_, fun id hid => ?_, ?_⟩
  · rw [hio]
    exact h.reachable.run (.more .refl trivial ha)
  · rw [hio]
    exact h.serves.next hf
  all_goals
    rw [hio]
    rcases pushed_record (s.io r).1 a (s.io r).2 with he | ⟨p, id', rfl, he⟩
  · change id ∈ (IoTrace.record _ a _).pushed
    rw [he]
    exact h.known id hid
  · change id ∈ (IoTrace.record _ _ _).pushed
    rw [he]
    exact List.mem_append_left _ (h.known id hid)
  · change (IoTrace.record _ a _).pushed.filterMap _ ++ _ = _
    rw [he]
    exact h.order
  · -- what others push is no callback of the proxy's
    have new : s.callbacks r id' = none := by
      by_contra hne
      exact not_mem_pushed h.reachable ha (h.known id' hne)
    change (IoTrace.record _ _ _).pushed.filterMap (s.callbacks r) ++ _ = _
    rw [he, List.filterMap_append, List.filterMap_cons, new, List.filterMap_nil,
      List.append_nil]
    exact h.order

/-- The worker enters `post_task` of the runner. -/
theorem reply {c : FileCall} {res : FileResult} (h : s.Home r)
    (hr : s.running = some (c, .file (.finished res))) : (s.next (.reply c res)).Home r := by
  have idle : s.workerAt r = .idle := by rw [workerAt, hr]
  have hu : s.unpushed = none := by rw [unpushed, hr]
  by_cases e : c.io = r
  · subst e
    have serves := h.serves
    rw [idle] at serves
    have hio : (s.next (.reply c res)).io c.io =
        traceMachine.next (s.io c.io) (.poster poolWorker (.post none)) := Function.update_self ..
    have hstep : (s.io c.io).1.posterNext poolWorker (.post none) =
        { (s.io c.io).1 with nextId := (s.io c.io).1.nextId + 1 }.setPoster poolWorker
          (.push (s.io c.io).1.nextId) := by
      simp [IoState.posterNext, serves.shutdown]
    refine ⟨?_, ?_, fun id hid => ?_, ?_⟩
    · rw [hio]
      exact h.reachable.run (.more .refl trivial serves.worker)
    · rw [hio]
      change ((s.io c.io).1.posterNext poolWorker (.post none)).Serves _
      rw [hstep, workerAt]
      simp only [ProxyState.next, if_true]
      exact serves.workerStep rfl rfl rfl rfl
    · rw [hio]
      exact h.known id hid
    · have order := h.order
      rw [hu] at order
      rw [hio]
      simp only [ProxyState.next, unpushed, Option.toList_some, Option.toList_none,
        List.filter_nil, List.append_nil, List.filter_append] at order ⊢
      rw [← order]
      rfl
  · refine h.congr (Function.update_of_ne (Ne.symm e) ..) ?_ rfl ?_ ?_
    · rw [idle, workerAt]
      simp [ProxyState.next, e]
    · rw [hu]
      simp [ProxyState.next, unpushed, e]
    · simp [ProxyState.next, e]

/-- The callback is pushed to the queue of the runner. -/
theorem push {c : FileCall} {res : FileResult} {id : ℕ} (h : s.Home r)
    (hr : s.running = some (c, .push res id)) : (s.next (.push c res id)).Home r := by
  have hu : s.unpushed = some (c, res) := by rw [unpushed, hr]
  by_cases e : c.io = r
  · subst e
    have serves := h.serves
    rw [workerAt, hr] at serves
    simp only [if_true] at serves
    have hio : (s.next (.push c res id)).io c.io =
        traceMachine.next (s.io c.io) (.poster poolWorker (.push id)) := Function.update_self ..
    have hcb : (s.next (.push c res id)).callbacks c.io =
        Function.update (s.callbacks c.io) id (some (c, res)) := Function.update_self ..
    refine ⟨?_, ?_, fun id' hid => ?_, ?_⟩
    · rw [hio]
      exact h.reachable.run (.more .refl trivial serves.worker)
    · rw [hio, workerAt]
      simp only [ProxyState.next, if_true]
      exact serves.workerStep rfl rfl rfl rfl
    · rw [hcb] at hid
      rw [hio]
      change id' ∈ (s.io c.io).2.pushed ++ [id]
      by_cases e : id' = id
      · exact List.mem_append_right _ (List.mem_singleton.mpr e)
      · rw [Function.update_of_ne e] at hid
        exact List.mem_append_left _ (h.known id' hid)
    · -- the number is new, so the callbacks that were there are what they were
      have new := not_mem_pushed h.reachable serves.worker
      have old : (s.io c.io).2.pushed.filterMap
          (Function.update (s.callbacks c.io) id (some (c, res))) =
            (s.io c.io).2.pushed.filterMap (s.callbacks c.io) :=
        List.filterMap_congr fun i hi =>
          Function.update_of_ne (fun e : i = id => new (e ▸ hi)) ..
      have order := h.order
      rw [hu] at order
      rw [hio, hcb]
      change ((s.io c.io).2.pushed ++ [id]).filterMap _ ++ _ = _
      rw [List.filterMap_append, old]
      simpa [ProxyState.next, unpushed, stepIo] using order
  · refine h.congr (Function.update_of_ne (Ne.symm e) ..) ?_
      (Function.update_of_ne (Ne.symm e) ..) ?_ rfl
    · rw [workerAt, workerAt, hr]
      simp [ProxyState.next, e]
    · rw [hu]
      simp [ProxyState.next, unpushed, e]

/-- The runner is woken. -/
theorem wake {c : FileCall} (h : s.Home r) (hr : s.running = some (c, .wake)) :
    (s.next (.wake c)).Home r := by
  have hu : s.unpushed = none := by rw [unpushed, hr]
  by_cases e : c.io = r
  · subst e
    have serves := h.serves
    rw [workerAt, hr] at serves
    simp only [if_true] at serves
    have hio : (s.next (.wake c)).io c.io =
        traceMachine.next (s.io c.io) (.poster poolWorker .write) := Function.update_self ..
    refine ⟨?_, ?_, fun id hid => ?_, ?_⟩
    · rw [hio]
      exact h.reachable.run (.more .refl trivial serves.worker)
    · rw [hio]
      exact serves.workerStep rfl rfl rfl rfl
    · rw [hio]
      exact h.known id hid
    · have order := h.order
      rw [hu] at order
      rw [hio]
      exact order
  · refine h.congr (Function.update_of_ne (Ne.symm e) ..) ?_ rfl ?_ rfl
    · rw [workerAt, workerAt, hr]
      simp [ProxyState.next, e]
    · rw [hu]
      rfl

theorem next (h : s.Home r) {a : ProxyAct} (ha : s.Enabled a) : (s.next a).Home r := by
  cases a with
  | call | post => exact h.congr rfl rfl rfl rfl rfl
  | take c cs =>
      refine h.congr rfl ?_ rfl ?_ rfl
      · rw [workerAt, workerAt, ha.1]
        rfl
      · rw [unpushed, unpushed, ha.1]
        rfl
  | file c p a =>
      refine h.congr rfl ?_ rfl ?_ rfl
      · rw [workerAt, workerAt, ha.1]
        rfl
      · rw [unpushed, unpushed, ha.1]
        rfl
  | reply c res => exact h.reply ha
  | push c res id => exact h.push ha
  | wake c => exact h.wake ha
  | io r' a =>
      by_cases e : r' = r
      · subst e
        exact h.foreign ha.1 ha.2.1
      · exact h.congr (Function.update_of_ne (Ne.symm e) ..) rfl rfl rfl rfl

end Home

theorem inv_of_reachable (h : (proxyMachine c₀).Reachable s) : s.Inv c₀ := by
  refine h.invariant (I := Inv c₀) (fun s h₀ => ?_) fun s a _ hi _ ha => ?_
  · obtain ⟨io, hio, rfl⟩ := h₀
    exact .init hio
  · exact ⟨effects_next hi.effects ha, hi.line.next ha, fun r => (hi.home r).next ha⟩

/-! ### The law -/

/-- A bound on the steps that the task under way has left. -/
def jobCost (s : ProxyState) : ℕ :=
  match s.running with
  | none => 0
  | some (_, .wake) => 1
  | some (_, .push _ _) => 2
  | some (c, .file p) => c.op.cost (p, s.content) + 3

/-- What the proxy promises of a run. -/
structure InOrder (c₀ : Option Bytes) (s : ProxyState) : Prop where
  /-- the operations that are over are a sequential execution of their calls, with the content it
  leaves, but for what the one under way has done -/
  effects : s.Effects c₀
  /-- they are over, under way and to come in the order in which they were posted -/
  order : s.done.map Prod.fst ++ s.inFile.toList ++ s.sequence = s.posted
  /-- a call that had returned when another one was made is posted before it -/
  returned : ∀ x ∈ s.calls, ∀ c ∈ x.2, x.1 ∈ s.posted → Before s.posted c x.1
  /-- the calls of one thread are posted in the order in which it made them -/
  issued : ∀ r, s.posted.filter (·.io = r) ++ (s.calling r).toList = s.callsOf r
  /-- the callbacks that ran on a runner, those in its queue and the one on its way there are those
  of its own calls, with the results of the operations, in the order of the operations -/
  callbacks : ∀ r, s.ran r ++ s.queued r ++ s.unpushed.toList.filter (·.1.io = r) =
    s.done.filter (·.1.io = r)
  /-- no callback runs twice -/
  once : ∀ r, ((s.ran r).map Prod.fst).Nodup
  /-- no callback is lost -/
  kept : ∀ c ∈ s.posted, c ∈ s.sequence ∨ (∃ p, s.running = some (c, p)) ∨
    c ∈ (s.queued c.io).map Prod.fst ∨ c ∈ (s.ran c.io).map Prod.fst
  /-- the pool has a step to take as long as it has a task, and with each it has less to do -/
  goes : (s.sequence ≠ [] ∨ s.running ≠ none → ∃ a : ProxyAct, a.onPool = true ∧ s.Enabled a) ∧
    ∀ a : ProxyAct, a.onPool = true → s.Enabled a →
      (s.next a).sequence.length < s.sequence.length ∨
        (s.next a).sequence = s.sequence ∧ (s.next a).jobCost < s.jobCost
  /-- an IO thread does not sleep on callbacks, and does not end -/
  awake : ∀ r, s.queued r ≠ [] → (s.io r).1.phase ≠ .exited ∧
    ∀ t now, (s.io r).1.phase = .wait t now → t ≠ 0 → (s.io r).1.Signalled

namespace Inv

variable (h : s.Inv c₀)
include h

theorem callbacks (r : RunnerId) :
    s.ran r ++ s.queued r ++ s.unpushed.toList.filter (·.1.io = r) =
      s.done.filter (·.1.io = r) := by
  rw [ran, queued, ← List.filterMap_append, (reachable_trace (h.home r).reachable).fifo]
  exact (h.home r).order

theorem once (r : RunnerId) : ((s.ran r).map Prod.fst).Nodup := by
  have all : (s.done.map Prod.fst).Nodup := by
    have nodup := h.line.nodup
    rw [← h.line.order, List.append_assoc] at nodup
    exact (List.nodup_append.mp nodup).1
  have part : ((s.done.filter (·.1.io = r)).map Prod.fst).Nodup :=
    all.sublist (List.filter_sublist.map _)
  rw [← h.callbacks r, List.append_assoc, List.map_append] at part
  exact (List.nodup_append.mp part).1

theorem kept {c : FileCall} (hc : c ∈ s.posted) :
    c ∈ s.sequence ∨ (∃ p, s.running = some (c, p)) ∨ c ∈ (s.queued c.io).map Prod.fst ∨
      c ∈ (s.ran c.io).map Prod.fst := by
  rw [← h.line.order, List.append_assoc, List.mem_append, List.mem_append] at hc
  rcases hc with hc | hc | hc
  · obtain ⟨x, hx, rfl⟩ := List.mem_map.mp hc
    have mem : x ∈ s.done.filter (·.1.io = x.1.io) := by simp [hx]
    rw [← h.callbacks x.1.io, List.append_assoc, List.mem_append, List.mem_append] at mem
    rcases mem with mem | mem | mem
    · exact .inr (.inr (.inr (List.mem_map_of_mem mem)))
    · exact .inr (.inr (.inl (List.mem_map_of_mem mem)))
    · refine .inr (.inl ?_)
      have hu : s.unpushed = some x := Option.mem_toList.mp (List.mem_filter.mp mem).1
      unfold unpushed at hu
      split at hu
      · rename_i hr
        cases hu
        exact ⟨_, hr⟩
      · cases hu
  · refine .inr (.inl ?_)
    have hf : s.inFile = some c := Option.mem_toList.mp hc
    unfold inFile at hf
    split at hf
    · rename_i hr
      cases hf
      exact ⟨_, hr⟩
    · cases hf
  · exact .inl hc

omit h in
theorem exists_onPool (hw : s.sequence ≠ [] ∨ s.running ≠ none) :
    ∃ a : ProxyAct, a.onPool = true ∧ s.Enabled a := by
  match hr : s.running with
  | none =>
      cases hs : s.sequence with
      | nil => simp [hs, hr] at hw
      | cons c cs => exact ⟨.take c cs, rfl, hr, hs⟩
  | some (c, .file (.finished r)) => exact ⟨.reply c r, rfl, hr⟩
  | some (c, .file .opening) => exact ⟨.file c .opening (.openFails 0), rfl, hr, rfl⟩
  | some (c, .file (.moving got put)) =>
      exact ⟨.file c (.moving got put) (.fails got put 0), rfl, hr, rfl⟩
  | some (c, .push r id) => exact ⟨.push c r id, rfl, hr⟩
  | some (c, .wake) => exact ⟨.wake c, rfl, hr⟩

omit h in
theorem advances {a : ProxyAct} (hp : a.onPool = true) (ha : s.Enabled a) :
    (s.next a).sequence.length < s.sequence.length ∨
      (s.next a).sequence = s.sequence ∧ (s.next a).jobCost < s.jobCost := by
  cases a with
  | call | post | io => cases hp
  | take c cs =>
      refine .inl ?_
      rw [ha.2]
      exact Nat.lt_succ_self _
  | file c p a =>
      refine .inr ⟨rfl, ?_⟩
      simp only [jobCost, next, ha.1]
      exact Nat.add_lt_add_right (FileOp.cost_next ha.2) 3
  | reply c r | push c r id | wake c =>
      have hr : s.running = _ := ha
      refine .inr ⟨rfl, ?_⟩
      simp [jobCost, next, hr]

theorem awake {r : RunnerId} (hq : s.queued r ≠ []) : (s.io r).1.phase ≠ .exited ∧
    ∀ t now, (s.io r).1.phase = .wait t now → t ≠ 0 → (s.io r).1.Signalled := by
  refine ⟨(h.home r).serves.phase, fun t now hw ht => ?_⟩
  have reach : ioMachine.Reachable (s.io r).1 := (h.home r).reachable.of_withHistory
  rcases reachable_awake reach with hr | hs
  · rw [hw] at hr
    exact absurd (by rw [queued, (hr ht).1]; rfl) hq
  · exact hs

end Inv

/-- **A file proxy works in call order.** -/
theorem file_proxy_in_order (hs : (proxyMachine c₀).Reachable s) : s.InOrder c₀ := by
  have h := inv_of_reachable hs
  refine ⟨h.effects, h.line.order, fun x hx c hc hp => ?_, h.line.issued, h.callbacks, h.once,
    fun c hc => h.kept hc, ⟨Inv.exists_onPool, fun a => Inv.advances⟩, fun r => h.awake⟩
  obtain ⟨⟨t, ht⟩, hx⟩ := h.line.before x hx
  rw [← ht] at hp ⊢
  exact .of_mem hc ((List.mem_append.mp hp).resolve_left hx)

/-- A task of the IO thread writes two bytes and reads the file. -/
def writeReadRun : List ProxyAct :=
  [.io 7 (.poster 1 (.post none)), .io 7 (.poster 1 (.push 0)), .io 7 (.io .popTask),
   .call 7 (.write 0 [1, 2]), .post 7 ⟨0, 7, .write 0 [1, 2]⟩, .call 7 .readAll,
   .take ⟨0, 7, .write 0 [1, 2]⟩ [], .file ⟨0, 7, .write 0 [1, 2]⟩ .opening .opens,
   .post 7 ⟨1, 7, .readAll⟩,
   .file ⟨0, 7, .write 0 [1, 2]⟩ (.moving [] 0) (.writes [] 0 [] 2),
   .reply ⟨0, 7, .write 0 [1, 2]⟩ (.count 2), .push ⟨0, 7, .write 0 [1, 2]⟩ (.count 2) 1,
   .wake ⟨0, 7, .write 0 [1, 2]⟩, .io 7 (.io (.taskReturns 0)),
   .take ⟨1, 7, .readAll⟩ [], .file ⟨1, 7, .readAll⟩ .opening .opens,
   .file ⟨1, 7, .readAll⟩ (.moving [] 0) (.reads [] 0 [1, 2] 32 [1, 2]), .io 7 (.io .popTask),
   .file ⟨1, 7, .readAll⟩ (.moving [1, 2] 0) (.reads [1, 2] 0 [1, 2] 32 []),
   .reply ⟨1, 7, .readAll⟩ (.bytes [1, 2]), .push ⟨1, 7, .readAll⟩ (.bytes [1, 2]) 2,
   .wake ⟨1, 7, .readAll⟩, .io 7 (.io (.taskReturns 1)), .io 7 (.io .popTask)]

theorem writeReadRun_in_order :
    let s := (proxyMachine none).runList (.init none fun _ => .new 0 fun _ => true) writeReadRun
    s.ran 7 = [(⟨0, 7, .write 0 [1, 2]⟩, .count 2), (⟨1, 7, .readAll⟩, .bytes [1, 2])] ∧
      s.InOrder none := by
  have follows : (proxyMachine none).Follows (fun _ _ => True)
      (.init none fun _ => .new 0 fun _ => true) writeReadRun := by decide +kernel
  have init : (proxyMachine none).Init (.init none fun _ => .new 0 fun _ => true) :=
    ⟨_, fun _ => ⟨0, fun _ => true, rfl, rfl⟩, rfl⟩
  exact ⟨by decide +kernel, file_proxy_in_order (.of_follows init follows)⟩

end ProxyState

end RustIo
