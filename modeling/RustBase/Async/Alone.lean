import RustBase.Async.Reuse

/-!
# Async — a source among others

In runs whose steps are `Tidy`, a live object does not notice the others that share its reactor or
had its number before: `Shows` says what of the state is the source's, and `Alone` that this is a
state of the machine of one source.

* **`live_sources_not_stranded`**: each direction waited on is asked for by the last arm task of the
  object, or else by its own entry and by the kernel.
* `lateDropRun_strands` and `cancelledRun_strands`: a controller dropped while a source of the same
  number is being registered, and an object dropped while it is dispatched and another of its tasks
  waits, each strand another object.
-/

namespace RustAsync
open Support RustIo

/-- The dispatch of the descriptor: the method that has released the lock, and the directions of the
calls still to be made. -/
def SourcePhase.view : SourcePhase → Option (Option (Direction × Option WakerId) × List Direction)
  | .idle => none
  | .calling cs => some (none, cs.map Call.direction)
  | .waking d w cs => some (some (d, w), cs.map Call.direction)

/-- The dispatch, if it is of the source's descriptor. -/
def LoopPhase.view (i : WatcherId) :
    LoopPhase → Option (Option (Direction × Option WakerId) × List Direction)
  | .calling j ds => if j = i then some (none, ds) else none
  | .waking j d w ds => if j = i then some (some (d, w), ds) else none
  | .idle | .adding _ _ | .inserting _ _ _ | .leaving _ => none

/-- The directions that are called depend on the mode of the entry only. -/
theorem map_direction_calls (f : Fd) (flags : UInt32) (e : WatchEntry) :
    (calls f flags e).map Call.direction =
      [Direction.read, .write].filter (canDo flags e.mode) := by
  cases hr : canDo flags e.mode .read <;> cases hw : canDo flags e.mode .write <;>
    simp [calls, hr, hw]

namespace SourcesState

variable {s s' : SourcesState} {i j : WatcherId} {r : ReactorState}

/-- The modes of the source's arm tasks that are not done. -/
def armModes (s : SourcesState) (i : WatcherId) : List WatchMode :=
  (s.phase.arming.toList ++ s.armTasks).filterMap fun x => if x.1 = i then some x.2 else none

theorem armModes_setPhase {p : LoopPhase} (h₀ : s.phase.arming = none) (hp : p.arming = none) :
    (s.setPhase p).armModes i = s.armModes i := by
  simp only [armModes, setPhase, h₀, hp]

/-- What the state has of the source is `r`.  While the source is being registered, its old entry is
gone here and still there. -/
structure Shows (s : SourcesState) (i : WatcherId) (r : ReactorState) : Prop where
  fd : r.fd = s.fd i
  id : r.id = i
  source : r.source = s.source i
  armTasks : r.armTasks = s.armModes i
  entry : (∀ m, s.phase.arming ≠ some (i, m)) →
    (r.table.watches (s.fd i)).map (fun e => (e.watcher, e.persistent, e.mode)) =
      (s.watched i).map fun m => (i, false, m)
  phase : r.phase.view = s.phase.view i

/-- The source is in a state that it could be in if it was the only one. -/
def Alone (s : SourcesState) (i : WatcherId) : Prop :=
  ∃ r, sourceMachine.ReachableBy (fun _ a => a.Registers) r ∧ s.Shows i r

/-- A step that leaves what is the source's. -/
theorem Shows.frame (h : s.Shows i r) (hf : s'.fd i = s.fd i) (hx : s'.source i = s.source i)
    (ht : s'.armModes i = s.armModes i) (hv : s'.phase.view i = s.phase.view i)
    (hw : (∀ m, s'.phase.arming ≠ some (i, m)) →
      (∀ m, s.phase.arming ≠ some (i, m)) ∧ s'.watched i = s.watched i) : s'.Shows i r where
  fd := h.fd.trans hf.symm
  id := h.id
  source := h.source.trans hx.symm
  armTasks := h.armTasks.trans ht.symm
  entry hm := by
    obtain ⟨hm, hw⟩ := hw hm
    rw [hf, hw]
    exact h.entry hm
  phase := h.phase.trans hv.symm

namespace Alone

theorem frame (h : s.Alone i) (hf : s'.fd i = s.fd i) (hx : s'.source i = s.source i)
    (ht : s'.armModes i = s.armModes i) (hv : s'.phase.view i = s.phase.view i)
    (hw : (∀ m, s'.phase.arming ≠ some (i, m)) →
      (∀ m, s.phase.arming ≠ some (i, m)) ∧ s'.watched i = s.watched i) : s'.Alone i := by
  obtain ⟨r, hr, h⟩ := h
  exact ⟨r, hr, h.frame hf hx ht hv hw⟩

/-- The single source takes a step. -/
theorem of_step {a : SourceAct} (hr : sourceMachine.ReachableBy (fun _ a => a.Registers) r)
    (hg : a.Registers) (ha : r.Enabled a) (h : s'.Shows i (r.next a)) : s'.Alone i :=
  ⟨_, hr.run (.more .refl hg ha), h⟩

theorem setStage (h : s.Alone i) {g : ObjectStage} : (s.setStage j g).Alone i :=
  h.frame (by simp) (by simp) rfl rfl fun hm => ⟨hm, by simp only [watched, fd_setStage]; rfl⟩

theorem setPhase (h : s.Alone i) {p : LoopPhase} (h₀ : s.phase.arming = none)
    (hp : p.arming = none) (hv : p.view i = s.phase.view i) : (s.setPhase p).Alone i :=
  h.frame rfl rfl (armModes_setPhase h₀ hp) hv fun _ => ⟨fun m => by rw [h₀]; exact nofun, rfl⟩

theorem setSource (h : s.Alone i) (hj : j ≠ i) {x : SourceState} {mode : Option WatchMode} :
    (s.setSource j x mode).Alone i := by
  refine h.frame (by simp) ?_ ?_ rfl fun hm => ⟨hm, Ordered.watched_setSource⟩
  · rw [source_setSource, Function.update_of_ne hj.symm]
  · cases mode <;> simp [armModes, SourcesState.setSource, setObject, hj]

theorem stop (h : s.Alone i) (ht : s.Tabled) (hj : j ≠ i) : (s.stop j).Alone i := by
  refine h.frame (by simp) (by simp) rfl rfl fun hm => ⟨hm, ?_⟩
  cases hw : s.watched i with
  | none =>
      rw [watched_eq_none] at hw ⊢
      rw [fd_stop]
      exact fun hc => hw (ht.mine_stop.mp hc).2
  | some m =>
      obtain ⟨e, he, hi, hmode⟩ := watched_eq_some.mp hw
      refine watched_eq_some.mpr ⟨e, ?_, hi, hmode⟩
      rw [fd_stop]
      rcases ht.stop_cases j with ⟨hc, hs, -⟩ | ⟨-, hs, -⟩
      · -- the entry that is removed is another source's
        rw [hs]
        refine (Function.update_of_ne (fun hf => ?_) ..).trans he
        obtain ⟨e', he', hj'⟩ := hc
        rw [← hf, he] at he'
        cases he'
        exact hj (hj'.symm.trans hi)
      · rw [hs, he]

/-- A new object has nothing yet. -/
theorem create (ht : s.Tabled) (hp : s.Present) (hi : s.stage i = .absent) (f : Fd) :
    (s.create i f).Alone i := by
  have unheld : ¬ s.Held i := fun hh => hp i hh hi
  refine ⟨.init f i .new, .of_init ⟨f, i, .new, rfl, rfl⟩, ?_, rfl, ?_, ?_, fun _ => ?_, ?_⟩
  · rw [fd_create, Function.update_self]
    rfl
  · rw [source_create, Function.update_self]
    rfl
  · refine (List.filterMap_eq_nil_iff.mpr fun x hx => if_neg fun e => unheld ?_).symm
    exact held_of_pending (e ▸ List.mem_map_of_mem hx)
  · have none : (s.create i f).watched i = none := by
      rw [watched_eq_none]
      rintro ⟨e, he, hw⟩
      exact (ht.memory _ _ (ht.entry _ e he)).2.2 (hw ▸ hi)
    rw [none]
    rfl
  · have idle : s.phase.holds ≠ some i := fun e => unheld (.inr e)
    change none = s.phase.view i
    cases hph : s.phase with
    | calling j ds =>
        rw [hph] at idle
        exact (if_neg fun e => idle (congrArg some e)).symm
    | waking j d w ds =>
        rw [hph] at idle
        exact (if_neg fun e => idle (congrArg some e)).symm
    | idle => rfl
    | adding j mode => rfl
    | inserting j mode g => rfl
    | leaving j => rfl

theorem create_of_ne (h : s.Alone i) (hi : i ≠ j) (f : Fd) : (s.create j f).Alone i := by
  have fd : (s.create j f).fd i = s.fd i := by rw [fd_create, Function.update_of_ne hi]
  refine h.frame fd ?_ rfl rfl fun hm => ⟨hm, ?_⟩
  · rw [source_create, Function.update_of_ne hi]
  · simp only [watched, fd]
    rfl

theorem poll (h : s.Alone i) (d : Direction) (w : WakerId) :
    (s.setSource i ((s.source i).poll d w).1 ((s.source i).poll d w).2.1).Alone i := by
  obtain ⟨r, hr, h⟩ := h
  refine of_step (a := .poll d w) hr trivial trivial ?_
  refine ⟨by rw [fd_setSource]; exact h.fd, h.id, ?_, ?_, fun hm => ?_, h.phase⟩
  · rw [source_setSource, Function.update_self, ← h.source]
    rfl
  · simp only [ReactorState.next, ReactorState.poll, h.source, h.armTasks]
    cases ((s.source i).poll d w).2.1 <;> simp [armModes, SourcesState.setSource, setObject]
  · rw [fd_setSource, Ordered.watched_setSource]
    exact h.entry hm

/-- A method of the source is called. -/
theorem call (h : s.Alone i) {d : Direction} {ds : List Direction}
    (hp : s.phase = .calling i (d :: ds)) :
    ((s.setSource i ((s.source i).onFileReady d).1 ((s.source i).onFileReady d).2.1).setPhase
      (.waking i d ((s.source i).onFileReady d).2.2 ds)).Alone i := by
  obtain ⟨r, hr, h⟩ := h
  have view := h.phase
  rw [hp, show (LoopPhase.calling i (d :: ds)).view i = some (none, d :: ds) from if_pos rfl] at view
  obtain ⟨c, cs, hph, rfl, rfl⟩ : ∃ c cs, r.phase = .calling (c :: cs) ∧ c.direction = d ∧
      cs.map Call.direction = ds := by
    cases hph : r.phase with
    | idle => rw [hph] at view; cases view
    | waking d w cs => rw [hph] at view; cases view
    | calling cs =>
        rw [hph] at view
        have map := congrArg Prod.snd (Option.some.inj view)
        obtain ⟨c, cs, rfl, hc, hcs⟩ := List.map_eq_cons_iff.mp map
        exact ⟨c, cs, rfl, hc, hcs⟩
  have free : ∀ m, s.phase.arming ≠ some (i, m) := by
    rw [hp]
    exact nofun
  refine of_step (a := .call c cs) hr trivial hph ?_
  refine ⟨?_, h.id, ?_, ?_, fun hm => ?_, ?_⟩
  · change _ = (s.setSource i _ ((s.source i).onFileReady c.direction).2.1).fd i
    rw [fd_setSource]
    exact h.fd
  · change _ = (s.setSource i _ ((s.source i).onFileReady c.direction).2.1).source i
    rw [source_setSource, Function.update_self, ← h.source]
    rfl
  · simp only [ReactorState.next, ReactorState.call, h.source, h.armTasks]
    cases ((s.source i).onFileReady c.direction).2.1 <;>
      simp [armModes, SourcesState.setSource, SourcesState.setPhase, setObject, hp, LoopPhase.arming]
  · change (r.table.watches ((s.setSource i _ ((s.source i).onFileReady c.direction).2.1).fd i)).map
      _ = ((s.setSource i _ ((s.source i).onFileReady c.direction).2.1).watched i).map _
    rw [fd_setSource, Ordered.watched_setSource]
    exact h.entry free
  · change some (some (_, _), _) = _
    rw [← h.source]
    exact (if_pos rfl).symm

theorem wake (h : s.Alone i) {d : Direction} {w : Option WakerId} {ds : List Direction}
    (hp : s.phase = .waking i d w ds) : (s.setPhase (.calling i ds)).Alone i := by
  obtain ⟨r, hr, h⟩ := h
  have view := h.phase
  rw [hp, show (LoopPhase.waking i d w ds).view i = some (some (d, w), ds) from if_pos rfl] at view
  obtain ⟨cs, hph, rfl⟩ : ∃ cs, r.phase = .waking d w cs ∧ cs.map Call.direction = ds := by
    cases hph : r.phase <;> rw [hph] at view <;> cases view
    exact ⟨_, rfl, rfl⟩
  have free : s.phase.arming = none := by rw [hp]; rfl
  refine of_step (a := .wake d w cs) hr trivial hph ⟨h.fd, h.id, h.source, ?_, fun _ => ?_, ?_⟩
  · exact h.armTasks.trans (armModes_setPhase free rfl).symm
  · exact h.entry fun m => by rw [free]; exact nofun
  · exact (if_pos rfl).symm

/-- The IO thread lets go of a live source. -/
theorem letGo (h : s.Alone i) (ht : s.Tabled) (hi : s.stage i = .live)
    (hp : s.phase = .leaving j ∨ s.phase = .calling j []) : (s.letGo j).Alone i := by
  have free : s.phase.arming = none := by rcases hp with hp | hp <;> rw [hp] <;> rfl
  suffices idle : (s.setPhase .idle).Alone i by
    rcases s.letGo_cases j with e | ⟨hj, e⟩
    · rwa [e]
    · have hne : j ≠ i := by
        rintro rfl
        rw [hi] at hj
        cases hj
      rw [e]
      exact (idle.stop (ht.setPhase rfl) hne).setStage
  by_cases hv : s.phase.view i = none
  · exact h.setPhase free rfl hv.symm
  · -- its dispatch is over
    obtain ⟨r, hr, h⟩ := h
    have hph : r.phase = .calling [] := by
      have view := h.phase
      rcases hp with hp | hp
      · rw [hp] at hv
        exact absurd rfl hv
      · rw [hp] at hv view
        by_cases hj : j = i
        · rw [LoopPhase.view, if_pos hj] at view
          cases hph : r.phase with
          | idle => rw [hph] at view; cases view
          | waking d w cs => rw [hph] at view; cases view
          | calling cs =>
              rw [hph] at view
              rw [List.map_eq_nil_iff.mp (congrArg Prod.snd (Option.some.inj view))]
        · exact absurd (if_neg hj) hv
    refine of_step (a := .dispatchDone) hr trivial hph ⟨h.fd, h.id, h.source, ?_, fun _ => ?_, rfl⟩
    · exact h.armTasks.trans (armModes_setPhase free rfl).symm
    · exact h.entry fun m => by rw [free]; exact nofun

/-- The first arm task begins; the source's own old entry goes. -/
theorem armStart (h : s.Alone i) (ht : s.Tabled) {mode : WatchMode}
    {rest : List (WatcherId × WatchMode)} (hp : s.phase = .idle)
    (hq : s.armTasks = (j, mode) :: rest) :
    Alone { s.stop j with armTasks := rest, phase := .adding j mode } i := by
  have tasks : ∀ t : SourcesState, t.phase = .idle → t.armTasks = (j, mode) :: rest →
      t.armModes i = armModes { t with armTasks := rest, phase := .adding j mode } i := by
    intro t hp hq
    simp [armModes, hp, hq, LoopPhase.arming]
  by_cases hj : j = i
  · refine h.frame (congrFun (fd_stop ..) i) (congrFun (source_stop ..) i) ?_ ?_ fun hm => ?_
    · exact (tasks s hp hq).symm
    · rw [hp]
      rfl
    · exact absurd (by rw [hj]; rfl) (hm mode)
  · refine (h.stop ht hj).frame rfl rfl (tasks (s.stop j) hp hq).symm ?_ fun _ => ⟨fun m => ?_, rfl⟩
    · rw [show (s.stop j).phase = _ from hp]
      rfl
    · rw [show (s.stop j).phase = _ from hp]
      exact (Option.some_ne_none _).symm

/-- Its own registration does not fail. -/
theorem add (h : s.Alone i) {mode : WatchMode} {ok : Bool} (hp : s.phase = .adding j mode)
    (hok : j = i → ok = true) : (s.add j mode ok).Alone i := by
  cases ok with
  | true =>
      have same : (s.add j mode true).phase.arming = s.phase.arming := by rw [hp]; rfl
      refine h.frame rfl rfl ?_ (by rw [hp]; rfl) fun hm => ⟨same ▸ hm, rfl⟩
      simp only [armModes, same]
      rfl
  | false =>
      have hj : j ≠ i := fun e => by cases hok e
      refine h.frame rfl rfl ?_ (by rw [hp]; rfl) fun _ => ⟨fun m => ?_, rfl⟩
      · simp [armModes, SourcesState.add, hp, LoopPhase.arming, hj]
      · rw [hp]
        exact fun e => hj (congrArg Prod.fst (Option.some.inj e))

/-- The entry of the source is made. -/
theorem insert (h : s.Alone i) {mode : WatchMode} {g : ℕ} (hp : s.phase = .inserting i mode g) :
    (s.insert i mode g).Alone i := by
  obtain ⟨r, hr, h⟩ := h
  have tasks : s.armModes i = mode :: (s.insert i mode g).armModes i := by
    simp [armModes, hp, SourcesState.insert, setObject, LoopPhase.arming]
  have idle : r.phase = .idle := by
    have view := h.phase
    rw [hp] at view
    cases hph : r.phase <;> rw [hph] at view <;> cases view
  refine of_step (a := .arm mode ((s.insert i mode g).armModes i) true) hr rfl
    ⟨idle, h.armTasks.trans tasks⟩ ⟨?_, h.id, ?_, rfl, fun _ => ?_, ?_⟩
  · rw [fd_insert]
    exact h.fd
  · rw [source_insert]
    exact h.source
  · have now : (s.insert i mode g).watched i = some mode :=
      watched_eq_some.mpr ⟨⟨i, false, mode, g⟩, by rw [fd_insert]; exact Function.update_self .., rfl,
        rfl⟩
    obtain ⟨g', hg⟩ := FdWatchController.watches_watch r.controller r.table r.fd false mode r.id
    rw [now, fd_insert, ← h.fd]
    refine (congrArg (Option.map _) hg).trans ?_
    rw [h.id]
    rfl
  · change r.phase.view = none
    rw [idle]
    rfl

/-- An arm task of another source takes no entry away: it is for another number, or the source has
none yet. -/
theorem insert_of_ne (h : s.Alone i) (ho : s.Ordered) (hi : s.stage i = .live) {mode : WatchMode}
    {g : ℕ} (hp : s.phase = .inserting j mode g) (hj : j ≠ i) : (s.insert j mode g).Alone i := by
  have free : ∀ m, s.phase.arming ≠ some (i, m) := fun m e => by
    rw [hp] at e
    exact hj (congrArg Prod.fst (Option.some.inj e))
  refine h.frame (congrFun (fd_insert ..) i) (congrFun (source_insert ..) i) ?_ (by rw [hp]; rfl)
    fun _ => ⟨free, ?_⟩
  · simp [armModes, hp, SourcesState.insert, setObject, LoopPhase.arming, hj]
  · by_cases hf : s.fd i = s.fd j
    · have none : s.watched i = none := by
        refine watched_eq_none.mpr fun hm => hj (ho.settled i hi hm j ?_ hf.symm)
        rw [pending, hp]
        exact List.mem_cons_self
      rw [none, watched_eq_none]
      rintro ⟨e, he, hw⟩
      rw [fd_insert] at he
      rcases update_some_eq_some.mp he with ⟨-, rfl⟩ | ⟨hne, -⟩
      · exact hj hw
      · exact hne hf
    · simp only [watched, fd_insert]
      exact congrArg (Option.bind · _) (Function.update_of_ne hf ..)

/-- An event of the source's descriptor, or of another's. -/
theorem dispatch (h : s.Alone i) (ht : s.Tabled) (hi : s.stage i = .live) {f : Fd}
    {flags : UInt32} {e : WatchEntry} (hp : s.phase = .idle) (he : s.table.watches f = some e)
    (hm : meets flags e.mode = true) : (s.dispatch f flags).Alone i := by
  have free : s.phase.arming = none := by rw [hp]; rfl
  simp only [SourcesState.dispatch, he]
  by_cases hw : e.watcher = i
  · obtain rfl : f = s.fd i := ht.fd_of_mine ⟨e, he, hw⟩
    obtain ⟨r, hr, h⟩ := h
    have entry := h.entry fun m => by rw [free]; exact (Option.some_ne_none _).symm
    rw [watched_eq_some.mpr ⟨e, he, hw, rfl⟩, ← h.fd] at entry
    obtain ⟨e', he', same⟩ := Option.map_eq_some_iff.mp entry
    obtain ⟨-, hone, hmode⟩ : e'.watcher = i ∧ e'.persistent = false ∧ e'.mode = e.mode :=
      ⟨congrArg Prod.fst same, congrArg (·.2.1) same, congrArg (·.2.2) same⟩
    have idle : r.phase = .idle := by
      have view := h.phase
      rw [hp] at view
      cases hph : r.phase <;> rw [hph] at view <;> cases view
    rw [if_pos (by rw [hw, hi]; rfl)]
    refine of_step (a := .dispatch flags) hr trivial ⟨idle, e', he', hmode.symm ▸ hm⟩ ?_
    simp only [ReactorState.next, ReactorState.dispatch, he', hone, Bool.false_eq_true, if_false]
    refine ⟨h.fd, h.id, h.source, ?_, fun _ => ?_, ?_⟩
    · refine h.armTasks.trans ?_
      simp only [armModes, free]
      rfl
    · have gone : (r.table.remove r.fd).watches (s.fd i) = none := by
        rw [← h.fd]
        exact Function.update_self ..
      refine (congrArg (Option.map _) gone).trans ?_
      rw [watched_eq_none.mpr]
      · rfl
      · rintro ⟨x, hx, -⟩
        exact absurd rfl (update_none_eq_some.mp hx).1
    · refine Eq.trans ?_ (if_pos hw).symm
      simp only [SourcePhase.view, map_direction_calls, hmode]
  · refine h.frame rfl rfl ?_ ?_ fun _ => ⟨fun m => by rw [free]; exact (Option.some_ne_none _).symm, ?_⟩
    · simp only [armModes, free]
      split <;> rfl
    · rw [hp]
      dsimp only
      split
      · exact if_neg hw
      · rfl
    · by_cases hf : s.fd i = f
      · have none : s.watched i = none := by
          refine watched_eq_none.mpr ?_
          rintro ⟨x, hx, hxi⟩
          rw [hf, he] at hx
          cases hx
          exact hw hxi
        rw [none, watched_eq_none]
        rintro ⟨x, hx, -⟩
        exact (update_none_eq_some.mp hx).1 hf
      · exact congrArg (Option.bind · _) (Function.update_of_ne hf ..)

/-- Every step of the others, and every step of its own, leaves a live object alone. -/
theorem next (h : s.stage i = .live → s.Alone i) (ht : s.Tabled) (hp : s.Present) (hw : s.Owned)
    (ho : s.Ordered) {a : SourcesAct} (ha : s.Enabled a) (hC : s.Tidy a)
    (hi : (s.next a).stage i = .live) : (s.next a).Alone i := by
  rcases live_of_next hi with live | ⟨f, rfl⟩
  · have alone := h live
    cases a with
    | create j f =>
        have hj : i ≠ j := by
          rintro rfl
          rw [ha.1] at live
          cases live
        exact alone.create_of_ne hj f
    | poll j d w =>
        by_cases hj : j = i
        · subst hj
          exact alone.poll d w
        · exact alone.setSource hj
    | close j =>
        exact (alone.setStage (j := j) (g := .closed)).frame rfl rfl rfl rfl fun hm => ⟨hm, rfl⟩
    | release j => exact alone.setStage
    | unregister j =>
        have hj : j ≠ i := by
          rintro rfl
          rw [show s.stage j = _ from ha] at live
          cases live
        exact (alone.stop ht hj).setStage
    | armStart j mode rest => exact alone.armStart ht ha.1 ha.2
    | add j mode ok => exact alone.add ha.1 fun e => hC (e ▸ hw.isOpen i live)
    | insert j mode g =>
        by_cases hj : j = i
        · subst hj
          exact alone.insert ha
        · exact alone.insert_of_ne ho live ha hj
    | leave j => exact alone.letGo ht live (.inl ha)
    | dispatchDone j => exact alone.letGo ht live (.inr ha)
    | dispatch f flags =>
        obtain ⟨hph, e, he, hm⟩ := ha
        exact alone.dispatch ht live hph he hm
    | call j d ds =>
        by_cases hj : j = i
        · subst hj
          exact alone.call ha
        · have posted : (s.setSource j ((s.source j).onFileReady d).1
              ((s.source j).onFileReady d).2.1).Alone i := alone.setSource hj
          refine posted.setPhase (by rw [show (s.setSource ..).phase = _ from ha]; rfl) rfl ?_
          rw [show (s.setSource ..).phase = _ from ha]
          exact (if_neg hj).trans (if_neg hj).symm
    | wake j d w ds =>
        by_cases hj : j = i
        · subst hj
          exact alone.wake ha
        · refine alone.setPhase (by rw [show s.phase = _ from ha]; rfl) rfl ?_
          rw [show s.phase = _ from ha]
          exact (if_neg hj).trans (if_neg hj).symm
  · exact create ht hp ha.1 f

end Alone

/-! ### Whole runs -/

theorem alone_of_reachable (h : sourcesMachine.ReachableBy (fun s a => s.Tidy a) s) :
    ∀ i, s.stage i = .live → s.Alone i := by
  refine h.invariant (I := fun s => ∀ i, s.stage i = .live → s.Alone i) ?_ fun _ _ hs hi hC ha i =>
    Alone.next (hi i) (tabled_of_reachable hs) (present_of_reachable hs) (owned_of_reachable hs)
      (ordered_of_reachable hs) ha hC
  rintro s ⟨k, -, rfl⟩
  exact nofun

theorem Shows.idle (h : s.Shows i r) (hp : s.phase.holds ≠ some i) : r.phase = .idle := by
  have view : r.phase.view = none := by
    rw [h.phase]
    cases hph : s.phase with
    | calling j ds => exact if_neg fun e => hp (by rw [hph, e]; rfl)
    | waking j d w ds => exact if_neg fun e => hp (by rw [hph, e]; rfl)
    | idle => rfl
    | adding j mode => rfl
    | inserting j mode g => rfl
    | leaving j => rfl
  cases hph : r.phase with
  | idle => rfl
  | calling cs => rw [hph] at view; cases view
  | waking d w cs => rw [hph] at view; cases view

end SourcesState

/-- **Many sources.**  In every run whose steps are tidy, whatever objects are made and dropped and
however often the numbers of descriptors are given out again: a live object is in a state that it
could be in if it was the only one.  When the IO thread is not at it, each direction it waits for is
asked for by the last of its arm tasks, or it has none and both its entry and the kernel ask for the
direction. -/
theorem live_sources_not_stranded {s : SourcesState} {i : WatcherId}
    (h : sourcesMachine.ReachableBy (fun s a => s.Tidy a) s) (hi : s.stage i = .live) :
    s.Alone i ∧ (s.phase.holds ≠ some i → ∀ d, ((s.source i).waker d).isSome = true →
      (∃ m, (s.armModes i).getLast? = some m ∧ m.covers d = true) ∨
        s.armModes i = [] ∧ ∃ m, s.watched i = some m ∧ m.covers d = true ∧
          s.kernel.interest (s.fd i) = some (modeToEpollEvents m)) := by
  have alone := SourcesState.alone_of_reachable h i hi
  refine ⟨alone, fun hp d hw => ?_⟩
  obtain ⟨r, hr, shows⟩ := alone
  have inv : r.Inv := by
    refine hr.invariant ?_ fun s a _ hs hr ha => hs.next ha hr
    rintro s ⟨fd, id, table, -, rfl⟩
    exact .init fd id table
  have free : ∀ m, s.phase.arming ≠ some (i, m) := fun m e => by
    cases hph : s.phase <;> rw [hph] at e hp <;> cases e <;> exact hp rfl
  rw [← shows.source] at hw
  rcases inv.armed_of_waker (shows.idle hp) hw with ⟨m, hm, hc⟩ | ⟨ht, e, he, -, hc⟩
  · exact .inl ⟨m, shows.armTasks ▸ hm, hc⟩
  · refine .inr ⟨shows.armTasks ▸ ht, e.mode, ?_⟩
    have entry := shows.entry free
    rw [← shows.fd, show r.table.watches r.fd = some e from he] at entry
    obtain ⟨m, hm, same⟩ := Option.map_eq_some_iff.mp entry.symm
    obtain rfl : m = e.mode := congrArg (·.2.2) same
    exact ⟨hm, hc, (SourcesState.ordered_of_reachable h).interest i _ hi hm⟩

/-- An arm task, from its start to its end. -/
def armRun (i : WatcherId) (mode : WatchMode) (rest : List (WatcherId × WatchMode)) (g : ℕ) :
    List SourcesAct :=
  [.armStart i mode rest, .add i mode true, .insert i mode g, .leave i]

/-- Nothing is open. -/
def closedKernel : Kernel := ⟨fun _ => false, fun _ => none, 0⟩

/-- A reader and a writer wait, and one event wakes both. -/
def bothRun : List SourcesAct :=
  [.create 0 5, .poll 0 .read 1, .poll 0 .write 2] ++ armRun 0 .read [(0, .readWrite)] 0 ++
    armRun 0 .readWrite [] 1 ++
  [.dispatch 5 epollHup, .call 0 .read [.write], .wake 0 .read (some 1) [.write], .call 0 .write [],
    .wake 0 .write (some 2) [], .dispatchDone 0]

/-- The object is dropped while a reader waits, with arm tasks still queued, and its number given out
again; the new object waits while the arm tasks register the number for the old one. -/
def reuseRun : List SourcesAct :=
  bothRun ++ [.poll 0 .read 4, .poll 0 .read 4, .close 0, .create 1 5, .poll 1 .read 3] ++
    armRun 0 .write [(0, .read), (1, .read)] 2 ++ armRun 0 .read [(1, .read)] 3 ++
    [.release 0, .unregister 0] ++ armRun 1 .read [] 4

theorem reuseRun_not_stranded :
    let s := sourcesMachine.runList (.init closedKernel) reuseRun
    s.Alone 1 ∧ s.armModes 1 = [] ∧ s.watched 1 = some .read ∧ s.kernel.interest 5 = some epollIn := by
  have reached : sourcesMachine.ReachableBy (fun s a => s.Tidy a)
      (sourcesMachine.runList (.init closedKernel) reuseRun) :=
    .of_follows ⟨closedKernel, fun _ => rfl, rfl⟩ (by decide +kernel)
  obtain ⟨alone, waits⟩ := live_sources_not_stranded (i := 1) reached (by decide +kernel)
  have none : (sourcesMachine.runList (.init closedKernel) reuseRun).armModes 1 = [] := by
    decide +kernel
  rcases waits (by decide +kernel) .read (by decide +kernel) with ⟨m, hm, -⟩ | ⟨-, m, hm, -, hk⟩
  · rw [none] at hm
    cases hm
  · have mode : (sourcesMachine.runList (.init closedKernel) reuseRun).watched 1 = some .read := by
      decide +kernel
    cases hm.symm.trans mode
    exact ⟨alone, none, mode, hk⟩

/-- The arm task for the writer has left an entry that nobody waits for; the controller is dropped
while the next object of the number is being registered. -/
def lateDropRun : List SourcesAct :=
  bothRun ++ armRun 0 .write [] 2 ++
  [.close 0, .create 1 5, .release 0, .poll 1 .read 3, .armStart 1 .read [], .add 1 .read true,
    .unregister 0, .insert 1 .read 3, .leave 1]

/-- All its steps are tidy but that one, and the kernel does not watch for the new object, which
waits. -/
theorem lateDropRun_strands :
    sourcesMachine.Follows (fun s a => s.Tidy a ∨ a = .unregister 0) (.init closedKernel)
        lateDropRun ∧
      let s := sourcesMachine.runList (.init closedKernel) lateDropRun
      s.stage 1 = .live ∧ s.phase = .idle ∧ (s.source 1).readWaker = some 3 ∧ s.armModes 1 = [] ∧
        s.kernel.interest 5 = none := by
  decide +kernel

/-- An object is dropped while its reader and its writer wait and the read event is being handled: the
arm task for the writer is posted by the dispatch, after that of the next object. -/
def cancelledRun : List SourcesAct :=
  [.create 0 5, .poll 0 .read 1, .poll 0 .write 2] ++ armRun 0 .read [(0, .readWrite)] 0 ++
    armRun 0 .readWrite [] 1 ++
  [.dispatch 5 epollIn, .close 0, .create 1 5, .poll 1 .read 3, .call 0 .read [], .release 0,
    .wake 0 .read (some 1) [], .dispatchDone 0] ++
  armRun 1 .read [(0, .write)] 2 ++ armRun 0 .write [] 3

/-- All its steps are tidy but that call, and the entry of the new object is gone. -/
theorem cancelledRun_strands :
    sourcesMachine.Follows (fun s a => s.Tidy a ∨ a = .call 0 .read []) (.init closedKernel)
        cancelledRun ∧
      let s := sourcesMachine.runList (.init closedKernel) cancelledRun
      s.stage 1 = .live ∧ s.phase = .idle ∧ (s.source 1).readWaker = some 3 ∧ s.armModes 1 = [] ∧
        s.watched 1 = none := by
  decide +kernel

end RustAsync
