import RustBase.Async.Sources

/-!
# Async — descriptors given out again

A source that is armed late, or whose controller is dropped late, deals with a number that may be
another object's by then.

* `Tabled`: a controller remembers at most one entry, and each entry is remembered by the controller
  it was made through.  So a stop takes away the source's own entry, whatever its number is for.
* `Owned`: an open number is one live object's.
* `Ordered`: in runs whose steps are `Tidy`, the arm tasks of the object that had the number before
  come first in the queue, none is posted when the number has been given out again, and the kernel
  watches what the entry of a live object asks for.
-/

namespace RustAsync
open Support RustIo

namespace SourcesState

variable {s s' : SourcesState} {i j : WatcherId}

/-- What the controller of the source remembers. -/
def memory (s : SourcesState) (i : WatcherId) : Option (Fd × ℕ) := (s.objects i).controller.watch

/-- The entry of the descriptor was made for the source. -/
def Mine (s : SourcesState) (i : WatcherId) (f : Fd) : Prop :=
  ∃ e, s.table.watches f = some e ∧ e.watcher = i

/-- The mode of the source's entry. -/
def watched (s : SourcesState) (i : WatcherId) : Option WatchMode :=
  (s.table.watches (s.fd i)).bind fun e => if e.watcher = i then some e.mode else none

theorem watched_eq_some {m : WatchMode} : s.watched i = some m ↔
    ∃ e, s.table.watches (s.fd i) = some e ∧ e.watcher = i ∧ e.mode = m := by
  simp only [watched, Option.bind_eq_some_iff]
  refine exists_congr fun e => and_congr_right fun _ => ?_
  split <;> simp_all

theorem watched_eq_none : s.watched i = none ↔ ¬ s.Mine i (s.fd i) := by
  rw [← not_iff_not, not_not, ← ne_eq, Option.ne_none_iff_exists']
  constructor
  · rintro ⟨m, hm⟩
    obtain ⟨e, he, hw, -⟩ := watched_eq_some.mp hm
    exact ⟨e, he, hw⟩
  · rintro ⟨e, he, hw⟩
    exact ⟨e.mode, watched_eq_some.mpr ⟨e, he, hw, rfl⟩⟩

/-! ### The parts of a step -/

section Parts

variable (s : SourcesState) (x : SourceState) (mode : Option WatchMode) (g : ObjectStage)

/-- What the new object has in common with the old one has not changed. -/
theorem proj_setObject {α : Type*} (p : IoObject → α) {o : IoObject}
    (h : p o = p (s.objects i)) : p ∘ (s.setObject i o).objects = p ∘ s.objects :=
  (Function.comp_update p s.objects i o).trans (h ▸ Function.update_eq_self ..)

theorem fd_create (f : Fd) : (s.create i f).fd = Function.update s.fd i f :=
  Function.comp_update IoObject.fd s.objects i _

theorem stage_create (f : Fd) : (s.create i f).stage = Function.update s.stage i .live :=
  Function.comp_update IoObject.stage s.objects i _

theorem source_create (f : Fd) : (s.create i f).source = Function.update s.source i .new :=
  Function.comp_update IoObject.source s.objects i _

theorem memory_create (f : Fd) : (s.create i f).memory = Function.update s.memory i none :=
  Function.comp_update (fun o : IoObject => o.controller.watch) s.objects i _

@[simp] theorem fd_setSource : (s.setSource i x mode).fd = s.fd :=
  proj_setObject s IoObject.fd rfl

@[simp] theorem stage_setSource : (s.setSource i x mode).stage = s.stage :=
  proj_setObject s IoObject.stage rfl

@[simp] theorem memory_setSource : (s.setSource i x mode).memory = s.memory :=
  proj_setObject s (fun o => o.controller.watch) rfl

theorem source_setSource : (s.setSource i x mode).source = Function.update s.source i x :=
  Function.comp_update IoObject.source s.objects i _

@[simp] theorem fd_setStage : (s.setStage i g).fd = s.fd :=
  proj_setObject s IoObject.fd rfl

theorem stage_setStage : (s.setStage i g).stage = Function.update s.stage i g :=
  Function.comp_update IoObject.stage s.objects i _

@[simp] theorem source_setStage : (s.setStage i g).source = s.source :=
  proj_setObject s IoObject.source rfl

@[simp] theorem memory_setStage : (s.setStage i g).memory = s.memory :=
  proj_setObject s (fun o => o.controller.watch) rfl

@[simp] theorem fd_stop : (s.stop i).fd = s.fd :=
  proj_setObject s IoObject.fd rfl

@[simp] theorem stage_stop : (s.stop i).stage = s.stage :=
  proj_setObject s IoObject.stage rfl

@[simp] theorem source_stop : (s.stop i).source = s.source :=
  proj_setObject s IoObject.source rfl

theorem memory_stop : (s.stop i).memory = Function.update s.memory i none := by
  refine (Function.comp_update (fun o : IoObject => o.controller.watch) s.objects i _).trans ?_
  congr 1
  exact congrArg _ (FdWatchController.watch_stop ..)

@[simp] theorem counter_stop :
    (s.stop i).table.generationCounter = s.table.generationCounter :=
  FdWatchController.generationCounter_stop ..

@[simp] theorem isOpen_stop : (s.stop i).kernel.isOpen = s.kernel.isOpen := by
  simp only [stop]
  split <;> rfl

variable (m : WatchMode) (n : ℕ)

@[simp] theorem fd_insert : (s.insert i m n).fd = s.fd := proj_setObject s IoObject.fd rfl

@[simp] theorem stage_insert : (s.insert i m n).stage = s.stage :=
  proj_setObject s IoObject.stage rfl

@[simp] theorem source_insert : (s.insert i m n).source = s.source :=
  proj_setObject s IoObject.source rfl

theorem memory_insert : (s.insert i m n).memory = Function.update s.memory i (some (s.fd i, n)) :=
  Function.comp_update (fun o : IoObject => o.controller.watch) s.objects i _

end Parts

/-- The IO thread lets go of a source, and drops it if nobody else has it. -/
theorem letGo_cases (s : SourcesState) (i : WatcherId) :
    s.letGo i = s.setPhase .idle ∨
      s.stage i = .released ∧ s.letGo i = ((s.setPhase .idle).stop i).setStage i .gone := by
  simp only [letGo]
  split
  next h => exact .inr ⟨h.1, rfl⟩
  next h => exact .inl rfl

/-! ### Who is held -/

/-- Only sources that were made are held. -/
def Present (s : SourcesState) : Prop := ∀ i, s.Held i → s.stage i ≠ .absent

namespace Present

theorem of_held (h : s.Present) (hh : ∀ i, s'.Held i → s.Held i ∨ s'.stage i ≠ .absent)
    (hs : ∀ i, s'.stage i = .absent → s.stage i = .absent) : s'.Present := fun i hi e =>
  (hh i hi).elim (fun hi => h i hi (hs i e)) fun hn => hn e

theorem held_setSource {x : SourceState} {mode : Option WatchMode}
    (hj : (s.setSource i x mode).Held j) : s.Held j ∨ j = i := by
  rcases hj with hj | hj
  · cases mode with
    | none => exact .inl (.inl (by simpa [setSource] using hj))
    | some m =>
        have hj : j ∈ s.armTasks.map Prod.fst ∨ j = i := by simpa [setSource] using hj
        exact hj.imp_left .inl
  · exact .inl (.inr hj)

theorem setSource (h : s.Present) {x : SourceState} {mode : Option WatchMode}
    (hi : s.stage i ≠ .absent) : (s.setSource i x mode).Present := by
  refine h.of_held (fun j hj => (held_setSource hj).imp_right ?_) fun j hj => ?_
  · rintro rfl
    rwa [stage_setSource]
  · rwa [stage_setSource] at hj

theorem setStage (h : s.Present) {g : ObjectStage} (hg : g ≠ .absent) :
    (s.setStage i g).Present := by
  refine h.of_held (fun j hj => .inl hj) fun j hj => ?_
  rw [stage_setStage] at hj
  by_cases e : j = i
  · subst e
    rw [Function.update_self] at hj
    exact absurd hj hg
  · rwa [Function.update_of_ne e] at hj

theorem setPhase (h : s.Present) {p : LoopPhase}
    (hp : ∀ i, p.holds = some i → s.Held i ∨ s.stage i ≠ .absent) : (s.setPhase p).Present :=
  h.of_held (fun i hi => hi.elim (fun hi => .inl (.inl hi)) fun hi => hp i hi) fun _ => id

theorem stop (h : s.Present) : (s.stop i).Present :=
  h.of_held (fun j hj => .inl hj) fun j hj => by rwa [stage_stop] at hj

theorem letGo (h : s.Present) : (s.letGo i).Present := by
  have idle : (s.setPhase .idle).Present := h.setPhase nofun
  rcases s.letGo_cases i with e | ⟨-, e⟩
  · rwa [e]
  · rw [e]
    exact idle.stop.setStage (by decide)

theorem next (h : s.Present) {a : SourcesAct} (ha : s.Enabled a) : (s.next a).Present := by
  cases a with
  | create i fd =>
      change (s.create i fd).Present
      refine h.of_held (fun j hj => .inl hj) fun j hj => ?_
      rw [stage_create] at hj
      by_cases e : j = i
      · exact e ▸ ha.1
      · rwa [Function.update_of_ne e] at hj
  | poll i d w => exact h.setSource (by rw [show s.stage i = .live from ha]; decide)
  | close i => exact h.setStage (by decide)
  | release i =>
      refine h.setStage ?_
      split <;> decide
  | unregister i => exact h.stop.setStage (by decide)
  | armStart i mode rest =>
      obtain ⟨-, hq⟩ := ha
      have queued : s.Held i := .inl (by simp [hq])
      refine h.of_held (fun j hj => .inl ?_) fun j hj => ?_
      · rcases hj with hj | hj
        · exact .inl (by rw [hq]; exact List.mem_cons_of_mem _ hj)
        · cases hj
          exact queued
      · rwa [← stage_stop s]
  | add i mode ok =>
      refine h.of_held (fun j hj => .inl (hj.imp_right fun hj => ?_)) fun _ => id
      have same : (s.add i mode ok).phase.holds = some i := by cases ok <;> rfl
      rw [ha.1]
      exact same.symm.trans hj
  | insert i mode g =>
      change (s.insert i mode g).Present
      refine h.of_held (fun j hj => .inl (hj.imp_right fun hj => ?_)) fun j hj => ?_
      · rw [show s.phase = _ from ha]
        exact hj
      · rwa [← stage_insert s]
  | leave i | dispatchDone i => exact h.letGo
  | dispatch f flags =>
      obtain ⟨hp, e, he, -⟩ := ha
      simp only [SourcesState.next, dispatch, show s.table.watches f = some e from he]
      refine h.of_held (fun j hj => ?_) fun _ => id
      rcases hj with hj | hj
      · exact .inl (.inl hj)
      · by_cases hs : (s.stage e.watcher).strong = true
        · rw [if_pos hs] at hj
          cases hj
          refine .inr fun e => ?_
          rw [show s.stage _ = _ from e] at hs
          cases hs
        · rw [if_neg hs] at hj
          cases hj
  | call i d ds =>
      have held : s.Held i := .inr (by rw [show s.phase = _ from ha]; rfl)
      refine (h.setSource (h i held)).setPhase fun j hj => .inl ?_
      cases hj
      exact .inr (by rw [show (s.setSource ..).phase = _ from ha]; rfl)
  | wake i d w ds =>
      refine h.setPhase fun j hj => .inl (.inr ?_)
      rw [show s.phase = _ from ha]
      exact hj

end Present

/-! ### Whose entry it is -/

/-- Controllers and entries know each other by their generations. -/
structure Tabled (s : SourcesState) : Prop where
  memory : ∀ i p, s.memory i = some p →
    p.1 = s.fd i ∧ p.2 < s.table.generationCounter ∧ s.stage i ≠ .absent
  distinct : ∀ i j p q, s.memory i = some p → s.memory j = some q → p.2 = q.2 → i = j
  entry : ∀ f e, s.table.watches f = some e → s.memory e.watcher = some (f, e.generation)
  fresh : ∀ i mode g, s.phase = .inserting i mode g →
    g < s.table.generationCounter ∧ ∀ j p, s.memory j = some p → p.2 ≠ g

namespace Tabled

/-- A step that forgets and removes, and leaves what it keeps as it is. -/
theorem shrink (h : s.Tabled) (hm : ∀ i p, s'.memory i = some p → s.memory i = some p)
    (hfd : ∀ i, s.stage i ≠ .absent → s'.fd i = s.fd i)
    (hg : s'.table.generationCounter = s.table.generationCounter)
    (hs : ∀ i, s'.stage i = .absent → s.stage i = .absent)
    (hw : ∀ f e, s'.table.watches f = some e → s.table.watches f = some e ∧
      s'.memory e.watcher = s.memory e.watcher)
    (hp : ∀ i mode g, s'.phase = .inserting i mode g → s.phase = .inserting i mode g) :
    s'.Tabled where
  memory i p hi := by
    obtain ⟨h₁, h₂, h₃⟩ := h.memory i p (hm i p hi)
    exact ⟨h₁.trans (hfd i h₃).symm, hg ▸ h₂, fun e => h₃ (hs i e)⟩
  distinct i j p q hi hj := h.distinct i j p q (hm i p hi) (hm j q hj)
  entry f e he := by
    obtain ⟨hw, hm⟩ := hw f e he
    exact hm.trans (h.entry f e hw)
  fresh i mode g hi := by
    obtain ⟨h₁, h₂⟩ := h.fresh i mode g (hp i mode g hi)
    exact ⟨hg ▸ h₁, fun j p hj => h₂ j p (hm j p hj)⟩

/-- A source's entry is at its own number. -/
theorem fd_of_mine (h : s.Tabled) {f : Fd} (hm : s.Mine i f) : f = s.fd i := by
  obtain ⟨e, he, rfl⟩ := hm
  exact (h.memory _ _ (h.entry f e he)).1

/-- A controller remembers the entry of its own source. -/
theorem matches_iff (h : s.Tabled) {f : Fd} {g : ℕ} (hi : s.memory i = some (f, g)) :
    s.table.Matches f g ↔ s.Mine i f := by
  constructor
  · rintro ⟨e, he, rfl⟩
    exact ⟨e, he, h.distinct _ _ _ _ (h.entry f e he) hi rfl⟩
  · rintro ⟨e, he, rfl⟩
    rw [h.entry f e he] at hi
    cases hi
    exact ⟨e, he, rfl⟩

/-- A stop takes away the source's own entry, and what the kernel watches for it. -/
theorem stop_cases (h : s.Tabled) (i : WatcherId) :
    s.Mine i (s.fd i) ∧
        (s.stop i).table.watches = Function.update s.table.watches (s.fd i) none ∧
        (s.stop i).kernel = s.kernel.ctlDel (s.fd i) ∨
      ¬ s.Mine i (s.fd i) ∧ (s.stop i).table.watches = s.table.watches ∧
        (s.stop i).kernel = s.kernel := by
  cases hi : s.memory i with
  | none =>
      have stops : (s.objects i).controller.stopWatchingFileDescriptor s.table =
          ((s.objects i).controller, s.table, false) := by
        simp only [FdWatchController.stopWatchingFileDescriptor,
          show (s.objects i).controller.watch = none from hi]
      refine .inr ⟨?_, by simp [stop, stops], by simp [stop, stops]⟩
      rintro ⟨e, he, rfl⟩
      rw [h.entry _ e he] at hi
      cases hi
  | some p =>
      obtain ⟨f, g⟩ := p
      obtain rfl : f = s.fd i := (h.memory i _ hi).1
      have stops : (s.objects i).controller.stopWatchingFileDescriptor s.table =
          (.new, s.table.unregisterFd (s.fd i) g) := by
        simp only [FdWatchController.stopWatchingFileDescriptor,
          show (s.objects i).controller.watch = some (s.fd i, g) from hi]
      by_cases hm : s.Mine i (s.fd i)
      · have removes : s.table.unregisterFd (s.fd i) g = (s.table.remove (s.fd i), true) :=
          if_pos ((h.matches_iff hi).mpr hm)
        exact .inl ⟨hm, by simp [stop, stops, removes, WatchTable.remove],
          by
          simp only [stop, stops, removes, if_true]
          rfl⟩
      · have keeps : s.table.unregisterFd (s.fd i) g = (s.table, false) :=
          if_neg fun hc => hm ((h.matches_iff hi).mp hc)
        exact .inr ⟨hm, by simp [stop, stops, keeps], by simp [stop, stops, keeps]⟩

theorem mine_stop (h : s.Tabled) {f : Fd} :
    (s.stop i).Mine j f ↔ j ≠ i ∧ s.Mine j f := by
  rcases h.stop_cases i with ⟨hm, hw, -⟩ | ⟨hm, hw, -⟩
  · by_cases hf : f = s.fd i
    · subst hf
      obtain ⟨e, he, hi⟩ := hm
      simp [Mine, hw, he, hi, eq_comm]
    · refine ⟨fun hj => ?_, fun ⟨_, hj⟩ => ?_⟩
      · simp only [Mine, hw, Function.update_of_ne hf] at hj
        exact ⟨by rintro rfl; exact hf (h.fd_of_mine hj), hj⟩
      · simpa only [Mine, hw, Function.update_of_ne hf] using hj
  · simp only [Mine, hw]
    refine ⟨fun hj => ⟨?_, hj⟩, And.right⟩
    rintro rfl
    exact hm (h.fd_of_mine hj ▸ hj)

/-! Each part of a step keeps the table. -/

theorem setSource (h : s.Tabled) {x : SourceState} {mode : Option WatchMode} :
    (s.setSource i x mode).Tabled :=
  h.shrink (fun j p hj => by simpa using hj) (fun j _ => by simp) rfl
    (fun j hj => by simpa using hj) (fun f e he => ⟨he, by simp⟩) fun _ _ _ => id

theorem setStage (h : s.Tabled) {g : ObjectStage} (hg : g ≠ .absent) : (s.setStage i g).Tabled := by
  refine h.shrink (fun j p hj => by simpa using hj) (fun j _ => by simp) rfl (fun j hj => ?_)
    (fun f e he => ⟨he, by simp⟩) fun _ _ _ => id
  rw [stage_setStage] at hj
  by_cases e : j = i
  · subst e
    rw [Function.update_self] at hj
    exact absurd hj hg
  · rwa [Function.update_of_ne e] at hj

theorem setPhase (h : s.Tabled) {p : LoopPhase} (hp : p.arming = none) : (s.setPhase p).Tabled :=
  h.shrink (fun _ _ => id) (fun _ _ => rfl) rfl (fun _ => id) (fun _ _ he => ⟨he, rfl⟩)
    fun i mode g e => by cases (show p = _ from e); cases hp

theorem stop (h : s.Tabled) (i : WatcherId) : (s.stop i).Tabled := by
  refine h.shrink (fun j p hj => ?_) (fun j _ => by simp) (by simp) (fun j hj => by simpa using hj)
    (fun f e he => ?_) fun _ _ _ => id
  · rw [memory_stop] at hj
    exact (update_none_eq_some.mp hj).2
  · obtain ⟨hne, e', he', hw⟩ := h.mine_stop.mp ⟨e, he, rfl⟩
    have same : s.table.watches f = some e := by
      rcases h.stop_cases i with ⟨-, hs, -⟩ | ⟨-, hs, -⟩
      · rw [hs] at he
        exact (update_none_eq_some.mp he).2
      · rwa [hs] at he
    exact ⟨same, by rw [memory_stop, Function.update_of_ne hne]⟩

theorem letGo (h : s.Tabled) : (s.letGo i).Tabled := by
  have idle : (s.setPhase .idle).Tabled := h.setPhase rfl
  rcases s.letGo_cases i with e | ⟨-, e⟩
  · rwa [e]
  · rw [e]
    exact (idle.stop i).setStage (by decide)

theorem next (h : s.Tabled) (hp : s.Present) {a : SourcesAct} (ha : s.Enabled a) :
    (s.next a).Tabled := by
  cases a with
  | create i f =>
      obtain ⟨ha, -⟩ := ha
      have other : ∀ j, s.stage j ≠ .absent → j ≠ i := fun j hj e => hj (e ▸ ha)
      change (s.create i f).Tabled
      refine h.shrink (fun j p hj => ?_) (fun j hj => ?_) rfl (fun j hj => ?_)
        (fun f e he => ⟨he, ?_⟩) fun _ _ _ => id
      · rw [memory_create] at hj
        exact (update_none_eq_some.mp hj).2
      · rw [fd_create, Function.update_of_ne (other j hj)]
      · rw [stage_create] at hj
        by_cases e : j = i
        · exact e ▸ ha
        · rwa [Function.update_of_ne e] at hj
      · rw [memory_create, Function.update_of_ne (other _ (h.memory _ _ (h.entry f e he)).2.2)]
  | poll i d w => exact h.setSource
  | close i =>
      exact (h.setStage (by decide : ObjectStage.closed ≠ .absent)).shrink (fun _ _ => id)
        (fun _ _ => rfl) rfl (fun _ => id) (fun _ _ he => ⟨he, rfl⟩) fun _ _ _ => id
  | release i =>
      refine h.setStage ?_
      split <;> decide
  | unregister i => exact (h.stop i).setStage (by decide)
  | armStart i mode rest =>
      exact (h.stop i).shrink (fun _ _ => id) (fun _ _ => rfl) rfl (fun _ => id)
        (fun _ _ he => ⟨he, rfl⟩) fun _ _ _ e => by cases e
  | add i mode ok =>
      refine ⟨fun j p hj => ?_, h.distinct, h.entry, fun j mode' g hj => ?_⟩
      · obtain ⟨h₁, h₂, h₃⟩ := h.memory j p hj
        exact ⟨h₁, Nat.lt_succ_of_lt h₂, h₃⟩
      · cases ok with
        | false => cases hj
        | true =>
            cases hj
            exact ⟨Nat.lt_succ_self _, fun j p hp => Nat.ne_of_lt (h.memory j p hp).2.1⟩
  | insert i mode g =>
      obtain ⟨hg, hnew⟩ := h.fresh i mode g ha
      have held : s.stage i ≠ .absent := hp i (.inr (by rw [show s.phase = _ from ha]; rfl))
      have memories : ∀ j p, (s.insert i mode g).memory j = some p →
          (j = i ∧ p = (s.fd i, g)) ∨ (j ≠ i ∧ s.memory j = some p) := fun j p hj => by
        rw [memory_insert] at hj
        exact (update_some_eq_some.mp hj).imp_left fun ⟨hj, e⟩ => ⟨hj, e.symm⟩
      refine ⟨fun j p hj => ?_, fun j k p q hj hk hpq => ?_, fun f e he => ?_, nofun⟩
      · change p.1 = (s.insert i mode g).fd j ∧ p.2 < s.table.generationCounter ∧
          (s.insert i mode g).stage j ≠ .absent
        rw [fd_insert, stage_insert]
        rcases memories j p hj with ⟨rfl, rfl⟩ | ⟨-, hj⟩
        · exact ⟨rfl, hg, held⟩
        · exact h.memory j p hj
      · rcases memories j p hj with ⟨hj₁, hp₁⟩ | ⟨-, hj₁⟩ <;>
          rcases memories k q hk with ⟨hk₁, hq₁⟩ | ⟨-, hk₁⟩
        · exact hj₁.trans hk₁.symm
        · exact absurd (hpq.symm.trans (congrArg Prod.snd hp₁)) (hnew k q hk₁)
        · exact absurd (hpq.trans (congrArg Prod.snd hq₁)) (hnew j p hj₁)
        · exact h.distinct j k p q hj₁ hk₁ hpq
      · change (s.insert i mode g).memory e.watcher = _
        rw [memory_insert]
        rcases update_some_eq_some.mp he with ⟨rfl, rfl⟩ | ⟨hf, he₁⟩
        · exact Function.update_self ..
        · -- an entry of the same source would be at the same number
          have before := h.entry f e he₁
          have hne : e.watcher ≠ i := fun hw => hf (hw ▸ (h.memory _ _ before).1)
          rw [Function.update_of_ne hne]
          exact before
  | leave i | dispatchDone i => exact h.letGo
  | dispatch f flags =>
      obtain ⟨hi, e, he, -⟩ := ha
      simp only [SourcesState.next, dispatch, show s.table.watches f = some e from he]
      refine h.shrink (fun _ _ => id) (fun _ _ => rfl) rfl (fun _ => id)
        (fun f' e' he' => ⟨(update_none_eq_some.mp he').2, rfl⟩) fun j mode g hj => ?_
      dsimp only at hj
      split at hj <;> cases hj
  | call i d ds => exact h.setSource.setPhase rfl
  | wake i d w ds => exact h.setPhase rfl

end Tabled

/-! ### Whose number it is -/

theorem live_of_setStage {g : ObjectStage} (hg : g ≠ .live)
    (h : (s.setStage i g).stage j = .live) : j ≠ i ∧ s.stage j = .live := by
  rw [stage_setStage] at h
  by_cases e : j = i
  · rw [e, Function.update_self] at h
    exact absurd h hg
  · rw [Function.update_of_ne e] at h
    exact ⟨e, h⟩

theorem live_of_letGo (h : (s.letGo i).stage j = .live) : s.stage j = .live := by
  rcases s.letGo_cases i with e | ⟨-, e⟩
  · rw [e] at h
    exact h
  · rw [e] at h
    have live := (live_of_setStage (by decide) h).2
    rwa [stage_stop] at live

/-- Only a new object becomes live. -/
theorem live_of_next {a : SourcesAct} (h : (s.next a).stage i = .live) :
    s.stage i = .live ∨ ∃ f, a = .create i f := by
  cases a with
  | create j f =>
      change (s.create j f).stage i = .live at h
      rw [stage_create] at h
      by_cases e : i = j
      · exact .inr ⟨f, e ▸ rfl⟩
      · rw [Function.update_of_ne e] at h
        exact .inl h
  | poll j d w =>
      change (s.setSource j _ ((s.source j).poll d w).2.1).stage i = .live at h
      rw [stage_setSource] at h
      exact .inl h
  | close j => exact .inl (live_of_setStage (by decide) h).2
  | release j =>
      refine .inl (live_of_setStage ?_ h).2
      split <;> decide
  | unregister j =>
      have live := (live_of_setStage (by decide) h).2
      rw [stage_stop] at live
      exact .inl live
  | armStart j mode rest =>
      change (s.stop j).stage i = .live at h
      rw [stage_stop] at h
      exact .inl h
  | add j mode ok => exact .inl h
  | insert j mode g =>
      change (s.insert j mode g).stage i = .live at h
      rw [stage_insert] at h
      exact .inl h
  | leave j | dispatchDone j => exact .inl (live_of_letGo h)
  | dispatch f flags =>
      simp only [SourcesState.next, dispatch] at h
      split at h <;> exact .inl h
  | call j d ds =>
      change (s.setSource j _ ((s.source j).onFileReady d).2.1).stage i = .live at h
      rw [stage_setSource] at h
      exact .inl h
  | wake j d w ds => exact .inl h

/-- An open number is one live object's. -/
structure Owned (s : SourcesState) : Prop where
  apart : ∀ i j, s.stage i = .live → s.stage j = .live → s.fd i = s.fd j → i = j
  isOpen : ∀ i, s.stage i = .live → s.kernel.isOpen (s.fd i) = true

namespace Owned

/-- No object becomes live, and those that are keep their number. -/
theorem shrink (h : s.Owned) (hs : ∀ i, s'.stage i = .live → s.stage i = .live)
    (hf : s'.fd = s.fd)
    (ho : ∀ i, s'.stage i = .live → s'.kernel.isOpen (s.fd i) = s.kernel.isOpen (s.fd i)) :
    s'.Owned where
  apart i j hi hj e := h.apart i j (hs i hi) (hs j hj) (by rwa [hf] at e)
  isOpen i hi := by rw [hf, ho i hi, h.isOpen i (hs i hi)]

theorem setStage (h : s.Owned) {g : ObjectStage} (hg : g ≠ .live) : (s.setStage i g).Owned :=
  h.shrink (fun _ hj => (live_of_setStage hg hj).2) (by simp) fun _ _ => rfl

theorem setSource (h : s.Owned) {x : SourceState} {mode : Option WatchMode} :
    (s.setSource i x mode).Owned :=
  h.shrink (fun j hj => by simpa using hj) (by simp) fun _ _ => rfl

theorem setPhase (h : s.Owned) {p : LoopPhase} : (s.setPhase p).Owned :=
  h.shrink (fun _ => id) rfl fun _ _ => rfl

theorem stop (h : s.Owned) : (s.stop i).Owned :=
  h.shrink (fun j hj => by simpa using hj) (by simp) fun _ _ => by simp

theorem letGo (h : s.Owned) : (s.letGo i).Owned := by
  have idle : (s.setPhase .idle).Owned := h.setPhase
  rcases s.letGo_cases i with e | ⟨-, e⟩
  · rwa [e]
  · rw [e]
    exact idle.stop.setStage (by decide)

theorem next (h : s.Owned) {a : SourcesAct} (ha : s.Enabled a) : (s.next a).Owned := by
  cases a with
  | create i f =>
      -- the number was not open, so it is nobody's
      have free : ∀ j, s.stage j = .live → s.fd j ≠ f := fun j hj e => by
        have := h.isOpen j hj
        rw [e, ha.2] at this
        cases this
      have live : ∀ j, (s.create i f).stage j = .live → j ≠ i → s.stage j = .live := by
        intro j hj e
        rwa [stage_create, Function.update_of_ne e] at hj
      refine ⟨fun j k hj hk e => ?_, fun j hj => ?_⟩
      · change (s.create i f).fd j = (s.create i f).fd k at e
        rw [fd_create] at e
        by_cases hji : j = i <;> by_cases hki : k = i
        · exact hji.trans hki.symm
        · rw [hji, Function.update_self, Function.update_of_ne hki] at e
          exact absurd e.symm (free k (live k hk hki))
        · rw [hki, Function.update_self, Function.update_of_ne hji] at e
          exact absurd e (free j (live j hj hji))
        · rw [Function.update_of_ne hji, Function.update_of_ne hki] at e
          exact h.apart j k (live j hj hji) (live k hk hki) e
      · change Function.update s.kernel.isOpen f true ((s.create i f).fd j) = true
        rw [fd_create]
        by_cases hji : j = i
        · rw [hji, Function.update_self, Function.update_self]
        · have hj := live j hj hji
          rw [Function.update_of_ne hji, Function.update_of_ne (free j hj), h.isOpen j hj]
  | close i =>
      have live : ∀ j, (s.setStage i .closed).stage j = .live → j ≠ i ∧ s.stage j = .live :=
        fun j hj => live_of_setStage (by decide) hj
      refine h.shrink (fun j hj => (live j hj).2) (fd_setStage ..) fun j hj => ?_
      obtain ⟨hne, hj⟩ := live j hj
      exact Function.update_of_ne (fun e => hne (h.apart j i hj ha e)) ..
  | poll i d w => exact h.setSource
  | release i =>
      refine h.setStage ?_
      split <;> decide
  | unregister i => exact h.stop.setStage (by decide)
  | armStart i mode rest => exact h.stop.shrink (fun _ => id) rfl fun _ _ => rfl
  | add i mode ok => exact h.shrink (fun _ => id) rfl fun _ _ => by cases ok <;> rfl
  | insert i mode g =>
      change (s.insert i mode g).Owned
      exact h.shrink (fun j hj => by simpa using hj) (by simp) fun _ _ => rfl
  | leave i | dispatchDone i => exact h.letGo
  | dispatch f flags =>
      simp only [SourcesState.next, dispatch]
      split
      · exact h
      · exact h.shrink (fun _ => id) rfl fun _ _ => rfl
  | call i d ds => exact h.setSource.setPhase
  | wake i d w ds => exact h.setPhase

end Owned

/-! ### The order of the arm tasks -/

/-- The sources whose arm tasks are not done, in their order. -/
def pending (s : SourcesState) : List WatcherId :=
  (s.phase.arming.toList ++ s.armTasks).map Prod.fst

/-- An arm task keeps its source. -/
theorem held_of_pending (hi : i ∈ s.pending) : s.Held i := by
  rw [pending, List.map_append, List.mem_append] at hi
  refine hi.symm.imp_right fun hi => ?_
  cases hp : s.phase <;> rw [hp] at hi <;> cases hi
  · rfl
  · contradiction
  · rfl
  · contradiction

/-- Objects that are gone have left no waker behind, and the arm tasks of an object come before those
of the next one with its number. -/
structure Ordered (s : SourcesState) : Prop where
  fifo : s.pending.Pairwise fun i j => s.stage i = .live → s.fd j = s.fd i → j = i
  /-- no arm task of another object is to come when a live one has its entry -/
  settled : ∀ i, s.stage i = .live → s.Mine i (s.fd i) → ∀ j ∈ s.pending, s.fd j = s.fd i → j = i
  /-- an arm task has stopped its own watch -/
  stopped : ∀ x ∈ s.phase.arming, ¬ s.Mine x.1 (s.fd x.1)
  /-- the kernel watches what the entry asks for -/
  interest : ∀ i m, s.stage i = .live → s.watched i = some m →
    s.kernel.interest (s.fd i) = some (modeToEpollEvents m)
  staged : ∀ i m g, s.phase = .inserting i m g → s.stage i = .live →
    s.kernel.interest (s.fd i) = some (modeToEpollEvents m)

end SourcesState

namespace SourcesState

variable {s s' : SourcesState} {i j : WatcherId}

namespace Ordered

/-- A step that posts nothing and adds no entry. -/
theorem shrink (h : s.Ordered) (hf : s'.fd = s.fd)
    (hs : ∀ i, s'.stage i = .live ↔ s.stage i = .live)
    (hp : s'.pending = s.pending) (hph : s'.phase.arming = s.phase.arming)
    (hst : ∀ i m g, s'.phase = .inserting i m g → s.phase = .inserting i m g ∧
      s'.kernel.interest (s.fd i) = s.kernel.interest (s.fd i))
    (hw : ∀ i f, s'.Mine i f → s.Mine i f)
    (hk : ∀ i m, s.stage i = .live → s'.watched i = some m → s.watched i = some m ∧
      s'.kernel.interest (s.fd i) = s.kernel.interest (s.fd i)) : s'.Ordered where
  fifo := by
    rw [hp]
    refine h.fifo.imp fun {i j} hij hi e => ?_
    rw [hf] at e
    exact hij ((hs i).mp hi) e
  settled i hi hm j hj e := by
    rw [hf] at hm e
    rw [hp] at hj
    exact h.settled i ((hs i).mp hi) (hw i _ hm) j hj e
  stopped x hx := by
    rw [hph] at hx
    rw [hf]
    exact fun hm => h.stopped x hx (hw _ _ hm)
  interest i m hi hm := by
    have hi := (hs i).mp hi
    obtain ⟨hm, hk⟩ := hk i m hi hm
    rw [hf, hk]
    exact h.interest i m hi hm
  staged i m g hp hi := by
    obtain ⟨hp, hk⟩ := hst i m g hp
    rw [hf, hk]
    exact h.staged i m g hp ((hs i).mp hi)

theorem setStage (h : s.Ordered) {g : ObjectStage} (hi : s.stage i ≠ .live) (hg : g ≠ .live) :
    (s.setStage i g).Ordered := by
  have live : ∀ j, (s.setStage i g).stage j = .live ↔ s.stage j = .live := fun j => by
    rw [stage_setStage]
    by_cases e : j = i
    · subst e
      rw [Function.update_self]
      exact ⟨fun h => absurd h hg, fun h => absurd h hi⟩
    · rw [Function.update_of_ne e]
  have watched : ∀ j, (s.setStage i g).watched j = s.watched j := fun j => by
    simp only [SourcesState.watched, fd_setStage]
    rfl
  exact h.shrink (by simp) live rfl rfl (fun _ _ _ e => ⟨e, rfl⟩) (fun _ _ => id)
    fun j m _ hm => ⟨by rwa [watched] at hm, rfl⟩

theorem setPhase (h : s.Ordered) {p : LoopPhase} (h₀ : s.phase.arming = none)
    (hp : p.arming = none) : (s.setPhase p).Ordered := by
  refine h.shrink rfl (fun _ => .rfl) ?_ (hp.trans h₀.symm) (fun i m g e => ?_) (fun _ _ => id)
    fun _ _ _ hm => ⟨hm, rfl⟩
  · simp only [pending, SourcesState.setPhase, hp, h₀]
  · rw [show p = _ from e] at hp
    cases hp

theorem watched_of_stop {m : WatchMode} (ht : s.Tabled) (hm : (s.stop i).watched j = some m) :
    j ≠ i ∧ s.watched j = some m := by
  obtain ⟨e, he, hw, hmode⟩ := watched_eq_some.mp hm
  rw [fd_stop] at he
  have hne := (ht.mine_stop.mp ⟨e, he, hw⟩).1
  refine ⟨hne, watched_eq_some.mpr ⟨e, ?_, hw, hmode⟩⟩
  rcases ht.stop_cases i with ⟨-, hs, -⟩ | ⟨-, hs, -⟩
  · rw [hs] at he
    exact (update_none_eq_some.mp he).2
  · rwa [hs] at he

/-- A stop does not touch what the kernel watches for the entries of others. -/
theorem interest_stop (ht : s.Tabled) {f : Fd} (hf : ¬ s.Mine i f) :
    (s.stop i).kernel.interest f = s.kernel.interest f := by
  rcases ht.stop_cases i with ⟨hm, -, hk⟩ | ⟨-, -, hk⟩
  · rw [hk]
    refine Function.update_of_ne ?_ ..
    rintro rfl
    exact hf hm
  · rw [hk]

theorem stop (h : s.Ordered) (ht : s.Tabled) (hi : ∀ j ∈ s.phase.staged, s.fd j ≠ s.fd i) :
    (s.stop i).Ordered := by
  refine h.shrink (by simp) (by simp) rfl rfl (fun j m g e => ⟨e, ?_⟩)
    (fun j f hm => (ht.mine_stop.mp hm).2) fun j m hj hm => ?_
  · refine interest_stop ht fun hm => hi j ?_ (ht.fd_of_mine hm)
    rw [show s.phase = _ from e]
    rfl
  · obtain ⟨hne, hm⟩ := watched_of_stop ht hm
    refine ⟨hm, interest_stop ht fun hc => ?_⟩
    obtain ⟨e, he, hw, -⟩ := watched_eq_some.mp hm
    obtain ⟨e', he', hw'⟩ := hc
    rw [he] at he'
    cases he'
    exact hne (hw.symm.trans hw')

theorem watched_setSource {x : SourceState} {mode : Option WatchMode} :
    (s.setSource i x mode).watched j = s.watched j := by
  simp only [SourcesState.watched, fd_setSource]
  rfl

/-- The critical section of a source.  Only live ones post. -/
theorem setSource (h : s.Ordered) (ho : s.Owned) {x : SourceState} {mode : Option WatchMode}
    (hq : s.stage i ≠ .live → mode = none) :
    (s.setSource i x mode).Ordered := by
  have live : ∀ m, mode = some m → s.stage i = .live := fun m e => by
    by_contra hi
    rw [hq hi] at e
    cases e
  have pending : (s.setSource i x mode).pending = s.pending ++ (mode.map fun _ => i).toList := by
    cases mode <;> simp [SourcesState.pending, SourcesState.setSource, setObject]
  have new : ∀ k, s.stage k = .live → ∀ j ∈ (mode.map fun _ => i).toList, s.fd j = s.fd k →
      j = k := fun k hk j hj e => by
    obtain ⟨m, hm, rfl⟩ : ∃ m, mode = some m ∧ i = j := by
      cases mode with
      | none => cases hj
      | some m => exact ⟨m, rfl, (List.mem_singleton.mp hj).symm⟩
    exact ho.apart i k (live m hm) hk e
  refine ⟨?_, fun k hk hm j hj e => ?_, fun y hy hm => ?_, fun k m hk hm => ?_,
    fun k m g hp hk => ?_⟩
  · rw [pending, fd_setSource, stage_setSource]
    refine List.pairwise_append.mpr ⟨h.fifo, ?_, fun k _ j hj hk e => new k hk j hj e⟩
    cases mode with
    | none => exact .nil
    | some m => exact List.pairwise_singleton ..
  · rw [pending] at hj
    rw [fd_setSource] at hm e
    rw [stage_setSource] at hk
    rcases List.mem_append.mp hj with hj | hj
    · exact h.settled k hk hm j hj e
    · exact new k hk j hj e
  · rw [fd_setSource] at hm
    exact h.stopped y hy hm
  · rw [fd_setSource]
    rw [stage_setSource] at hk
    rw [watched_setSource] at hm
    exact h.interest k m hk hm
  · rw [fd_setSource]
    rw [stage_setSource] at hk
    exact h.staged k m g hp hk

/-- The IO thread lets go of a source when it holds no arm task. -/
theorem letGo (h : s.Ordered) (ht : s.Tabled) (hp : s.phase.arming = none) :
    (s.letGo i).Ordered := by
  have idle : (s.setPhase .idle).Ordered := h.setPhase hp rfl
  rcases s.letGo_cases i with e | ⟨hi, e⟩
  · rwa [e]
  · rw [e]
    refine (idle.stop (ht.setPhase rfl) nofun).setStage ?_ (by decide)
    rw [stage_stop, show (s.setPhase .idle).stage i = .released from hi]
    decide

/-- A new object has no entry, and no arm task. -/
theorem create (h : s.Ordered) (ht : s.Tabled) (hp : s.Present) {f : Fd}
    (hi : s.stage i = .absent) : (s.create i f).Ordered := by
  have pending : ∀ j ∈ s.pending, j ≠ i := fun j hj e => hp j (held_of_pending hj) (e ▸ hi)
  have mine : ∀ j g, s.Mine j g → j ≠ i := by
    rintro _ g ⟨e, he, rfl⟩ rfl
    exact (ht.memory _ _ (ht.entry g e he)).2.2 hi
  have live : ∀ j, (s.create i f).stage j = .live → j ≠ i → s.stage j = .live := fun j hj e => by
    rwa [stage_create, Function.update_of_ne e] at hj
  have fd : ∀ j, j ≠ i → (s.create i f).fd j = s.fd j := fun j e => by
    rw [fd_create, Function.update_of_ne e]
  refine ⟨h.fifo.imp_of_mem fun {j k} hj hk hjk hl e => ?_, fun j hj hm k hk e => ?_,
    fun x hx hm => ?_, fun j m hj hm => ?_, fun j m g hph hj => ?_⟩
  · rw [fd j (pending j hj), fd k (pending k hk)] at e
    exact hjk (live j hl (pending j hj)) e
  · have hji := mine j _ hm
    rw [fd j hji] at hm e
    rw [fd k (pending k hk)] at e
    exact h.settled j (live j hj hji) hm k hk e
  · have hxi := mine x.1 _ hm
    rw [fd _ hxi] at hm
    exact h.stopped x hx hm
  · obtain ⟨e, he, hw, hmode⟩ := watched_eq_some.mp hm
    have hji := mine j _ ⟨e, he, hw⟩
    rw [fd j hji] at he ⊢
    exact h.interest j m (live j hj hji) (watched_eq_some.mpr ⟨e, he, hw, hmode⟩)
  · have hji : j ≠ i := fun e => hp j (.inr (by rw [show s.phase = _ from hph]; rfl)) (e ▸ hi)
    rw [fd j hji]
    exact h.staged j m g hph (live j hj hji)

/-- The descriptor of an object is closed. -/
theorem close (h : s.Ordered) (ho : s.Owned) (hi : s.stage i = .live) :
    Ordered { s.setStage i .closed with kernel := s.kernel.closeFd (s.fd i) } := by
  have live : ∀ j, (s.setStage i .closed).stage j = .live → s.stage j = .live ∧ s.fd j ≠ s.fd i := by
    intro j hj
    obtain ⟨hne, hj⟩ := live_of_setStage (by decide) hj
    exact ⟨hj, fun hf => hne (ho.apart j i hj hi hf)⟩
  have fd : SourcesState.fd { s.setStage i .closed with kernel := s.kernel.closeFd (s.fd i) } =
      s.fd := fd_setStage ..
  refine ⟨h.fifo.imp fun {j k} hjk hl e => ?_, fun j hj hm k hk e => ?_,
    fun x hx hm => ?_, fun j m hj hm => ?_, fun j m g hph hj => ?_⟩
  · rw [fd] at e
    exact hjk (live j hl).1 e
  · rw [fd] at hm e
    exact h.settled j (live j hj).1 hm k hk e
  · rw [fd] at hm
    exact h.stopped x hx hm
  · obtain ⟨hl, hne⟩ := live j hj
    rw [fd]
    refine (Function.update_of_ne hne ..).trans (h.interest j m hl ?_)
    simp only [SourcesState.watched, fd] at hm
    exact hm
  · obtain ⟨hl, hne⟩ := live j hj
    rw [fd]
    exact (Function.update_of_ne hne ..).trans (h.staged j m g hph hl)

/-- The first arm task begins. -/
theorem armStart (h : s.Ordered) (ht : s.Tabled) {mode : WatchMode}
    {rest : List (WatcherId × WatchMode)} (hp : s.phase = .idle) (hq : s.armTasks = (i, mode) :: rest) :
    Ordered { s.stop i with armTasks := rest, phase := .adding i mode } := by
  have stopped := h.stop (i := i) ht (by rw [hp]; exact nofun)
  have pending : (s.stop i).pending = s.pending := rfl
  have same : s.pending = i :: rest.map Prod.fst := by
    simp [SourcesState.pending, hp, hq, LoopPhase.arming]
  rw [same] at pending
  refine ⟨?_, fun j hj hm k hk => stopped.settled j hj hm k (pending ▸ hk),
    fun x hx hm => ?_, stopped.interest, nofun⟩
  · have fifo := stopped.fifo
    rw [pending] at fifo
    exact fifo
  · cases hx
    exact (ht.mine_stop.mp hm).1 rfl

/-- The kernel is told. -/
theorem add (h : s.Ordered) {mode : WatchMode} {ok : Bool} (hp : s.phase = .adding i mode) :
    (s.add i mode ok).Ordered := by
  have pending : s.pending = i :: s.armTasks.map Prod.fst := by
    simp [SourcesState.pending, hp, LoopPhase.arming]
  cases ok with
  | false =>
      have fifo := h.fifo
      rw [pending] at fifo
      refine ⟨fifo.of_cons, fun j hj hm k hk => ?_, nofun, h.interest, nofun⟩
      exact h.settled j hj hm k (pending ▸ List.mem_cons_of_mem _ hk)
  | true =>
      have armed : (i, mode) ∈ s.phase.arming := by rw [hp]; rfl
      have same : (s.add i mode true).pending = s.pending := by
        rw [pending]
        rfl
      refine ⟨same ▸ h.fifo, fun j hj hm k hk => h.settled j hj hm k (same ▸ hk),
        fun x hx hm => ?_, fun j m hj hm => ?_, fun j m g hph hj => ?_⟩
      · cases hx
        exact h.stopped _ armed hm
      · have hne : s.fd j ≠ s.fd i := fun e => by
          obtain ⟨x, hx, hw, -⟩ := watched_eq_some.mp hm
          have mine : s.Mine j (s.fd j) := ⟨x, hx, hw⟩
          have hij := h.settled j hj mine i (pending ▸ List.mem_cons_self) e.symm
          exact h.stopped _ armed (hij ▸ mine)
        exact (Function.update_of_ne hne ..).trans (h.interest j m hj hm)
      · cases hph
        exact Function.update_self ..

/-- The entry is made. -/
theorem insert (h : s.Ordered) {mode : WatchMode} {g : ℕ} (hp : s.phase = .inserting i mode g) :
    (s.insert i mode g).Ordered := by
  have pending : s.pending = i :: s.armTasks.map Prod.fst := by
    simp [SourcesState.pending, hp, LoopPhase.arming]
  have fifo := h.fifo
  rw [pending] at fifo
  obtain ⟨first, fifo⟩ := List.pairwise_cons.mp fifo
  have mine : ∀ j, (s.insert i mode g).Mine j (s.fd j) → j = i ∨ s.Mine j (s.fd j) := by
    rintro _ ⟨e, he, rfl⟩
    rcases update_some_eq_some.mp he with ⟨-, rfl⟩ | ⟨-, he⟩
    · exact .inl rfl
    · exact .inr ⟨e, he, rfl⟩
  refine ⟨?_, fun j hj hm k hk e => ?_, nofun, fun j m hj hm => ?_, nofun⟩
  · rw [fd_insert, stage_insert]
    exact fifo
  · rw [fd_insert] at hm e
    rw [stage_insert] at hj
    rcases mine j hm with rfl | hm
    · exact first k hk hj e
    · exact h.settled j hj hm k (pending ▸ List.mem_cons_of_mem _ hk) e
  · rw [stage_insert] at hj
    obtain ⟨e, he, hw, hmode⟩ := watched_eq_some.mp hm
    rw [fd_insert] at he ⊢
    rcases update_some_eq_some.mp he with ⟨-, rfl⟩ | ⟨-, he⟩
    · obtain rfl : i = j := hw
      obtain rfl : mode = m := hmode
      exact h.staged i mode g hp hj
    · exact h.interest j m hj (watched_eq_some.mpr ⟨e, he, hw, hmode⟩)

/-- An event takes the entry away. -/
theorem dispatch (h : s.Ordered) {f : Fd} {flags : UInt32} (hp : s.phase = .idle) :
    (s.dispatch f flags).Ordered := by
  simp only [SourcesState.dispatch]
  split
  · exact h
  next e he =>
    have quietPhase : ∀ b : Bool, (if b = true then
        LoopPhase.calling e.watcher ((calls f flags e).map Call.direction) else .idle).arming = none := by
      rintro (_ | _) <;> rfl
    refine h.shrink rfl (fun _ => .rfl) ?_ ?_ (fun j m g e => ?_) (fun j f' hm => ?_)
      fun j m hj hm => ?_
    · simp only [pending, quietPhase, hp]
      rfl
    · rw [hp]
      exact quietPhase _
    · dsimp only at e
      split at e <;> cases e
    · obtain ⟨e', he', hw⟩ := hm
      exact ⟨e', (update_none_eq_some.mp he').2, hw⟩
    · obtain ⟨e', he', hw, hmode⟩ := watched_eq_some.mp hm
      obtain ⟨hne, he'⟩ := update_none_eq_some.mp he'
      exact ⟨watched_eq_some.mpr ⟨e', he', hw, hmode⟩, Function.update_of_ne hne ..⟩

theorem next (h : s.Ordered) (ht : s.Tabled) (hp : s.Present) (ho : s.Owned) {a : SourcesAct}
    (ha : s.Enabled a) (hC : s.Tidy a) : (s.next a).Ordered := by
  cases a with
  | create i f => exact h.create ht hp ha.1
  | poll i d w => exact h.setSource ho fun hi => absurd ha hi
  | close i => exact h.close ho ha
  | release i =>
      refine h.setStage (by rw [show s.stage i = .closed from ha]; decide) ?_
      split <;> decide
  | unregister i =>
      refine (h.stop ht hC).setStage ?_ (by decide)
      rw [stage_stop, show s.stage i = .dropping from ha]
      decide
  | armStart i mode rest => exact h.armStart ht ha.1 ha.2
  | add i mode ok => exact h.add ha.1
  | insert i mode g => exact h.insert ha
  | leave i | dispatchDone i => exact h.letGo ht (by rw [show s.phase = _ from ha]; rfl)
  | dispatch f flags => exact h.dispatch ha.1
  | call i d ds =>
      have posted : (s.setSource i ((s.source i).onFileReady d).1
          ((s.source i).onFileReady d).2.1).Ordered :=
        h.setSource ho fun hi => Or.resolve_left hC hi
      exact posted.setPhase (by rw [show (s.setSource ..).phase = _ from ha]; rfl) rfl
  | wake i d w ds => exact h.setPhase (by rw [show s.phase = _ from ha]; rfl) rfl

end Ordered

/-! ### Whole runs -/

variable {C : SourcesState → SourcesAct → Prop}

theorem present_of_reachable (h : sourcesMachine.ReachableBy C s) : s.Present := by
  refine h.invariant ?_ fun _ _ _ hi _ ha => hi.next ha
  rintro s ⟨k, -, rfl⟩ i hi
  rcases hi with hi | hi <;> cases hi

theorem tabled_of_reachable (h : sourcesMachine.ReachableBy C s) : s.Tabled := by
  refine h.invariant ?_ fun _ _ hs hi _ ha => hi.next (present_of_reachable hs) ha
  rintro s ⟨k, -, rfl⟩
  exact ⟨nofun, nofun, nofun, nofun⟩

theorem owned_of_reachable (h : sourcesMachine.ReachableBy C s) : s.Owned := by
  refine h.invariant ?_ fun _ _ _ hi _ ha => hi.next ha
  rintro s ⟨k, -, rfl⟩
  exact ⟨nofun, nofun⟩

theorem ordered_of_reachable (h : sourcesMachine.ReachableBy (fun s a => s.Tidy a) s) :
    s.Ordered := by
  refine h.invariant ?_ fun _ _ hs hi hC ha =>
    hi.next (tabled_of_reachable hs) (present_of_reachable hs) (owned_of_reachable hs) ha hC
  rintro s ⟨k, -, rfl⟩
  exact ⟨.nil, nofun, nofun, nofun, nofun⟩

end SourcesState

end RustAsync
