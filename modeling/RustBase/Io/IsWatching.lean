import RustBase.Io.Controllers

/-!
# Io — `is_watching`

`FdWatchController::is_watching` answers from the controller's own `pump` field, which `attach` sets
and `stop_watching_file_descriptor` takes.  Here the controllers are used by any threads, over a
pump that may be shut down and dropped:

* `watch_file_descriptor` stops the previous watch, calls `register_fd` (a generation and an
  `epoll_ctl`, then the insertion) and attaches; other threads' calls and the dispatch loop come in
  between.  A controller is borrowed for the whole call, so it has one call at a time.
* `stop_watching_file_descriptor`, which `Drop` calls too, is one critical section of the pump if
  the pump is still there.
* The dispatch loop takes one-shot entries until it ends; the pump is dropped after that, when no
  call holds its runner.

`taken` remembers, for each controller, whether the entry of its watch was taken away by something
else than itself: a one-shot firing, a registration for the same descriptor through another
controller, or the end of the pump.

* **`isWatching_accurate_iff`**: the answer is right exactly while nothing was taken away.
* `oneShotRun_inaccurate`: after a one-shot firing `is_watching` is still true.
-/

namespace RustIo
open Support

/-- `FdWatchController` with its three fields; `pump` says whether the field is `Some`. -/
structure ControllerFields where
  pump : Bool
  fd : ℤ
  generation : ℕ
  deriving DecidableEq

namespace ControllerFields

def new : ControllerFields := ⟨false, -1, 0⟩

def isWatching (c : ControllerFields) : Bool := c.pump

end ControllerFields

/-- A thread in `watch_file_descriptor`, after the previous watch was stopped. -/
inductive WatchCall where
  /-- the generation and the `epoll_ctl` of `register_fd` are next -/
  | register (fd : Fd) (persistent : Bool) (mode : WatchMode) (watcher : WatcherId)
  /-- the insertion of `register_fd` is next -/
  | insert (fd : Fd) (e : WatchEntry)
  deriving DecidableEq

structure PumpState where
  table : WatchTable
  /-- the loop of `run` has not ended -/
  running : Bool
  /-- the pump has not been dropped: `Weak::upgrade` succeeds -/
  alive : Bool
  controllers : ControllerId → ControllerFields
  /-- the calls of `watch_file_descriptor` that are under way -/
  calls : List (ControllerId × WatchCall)

inductive PumpAct where
  | stop (c : ControllerId)
  /-- enters `watch_file_descriptor`, which stops the previous watch -/
  | watch (c : ControllerId) (fd : Fd) (persistent : Bool) (mode : WatchMode)
      (watcher : WatcherId)
  | register (c : ControllerId) (fd : Fd) (persistent : Bool) (mode : WatchMode)
      (watcher : WatcherId) (ok : Bool)
  | insert (c : ControllerId) (fd : Fd) (e : WatchEntry)
  | dispatch (fd : Fd)
  /-- `run` returns -/
  | exit
  | dropPump
  deriving DecidableEq

namespace PumpState

def new : PumpState where
  table := .new
  running := true
  alive := true
  controllers := fun _ => .new
  calls := []

/-- No call borrows `c`. -/
def Free (s : PumpState) (c : ControllerId) : Prop := ∀ x ∈ s.calls, x.1 ≠ c

instance (s : PumpState) (c : ControllerId) : Decidable (s.Free c) :=
  inferInstanceAs (Decidable (∀ x ∈ s.calls, _))

def Enabled (s : PumpState) : PumpAct → Prop
  | .stop c => s.Free c
  | .watch c _ _ _ _ => s.Free c ∧ s.alive = true
  | .register c fd persistent mode watcher _ =>
      (c, .register fd persistent mode watcher) ∈ s.calls
  | .insert c fd e => (c, .insert fd e) ∈ s.calls
  | .dispatch _ | .exit => s.running = true
  | .dropPump => s.running = false ∧ s.calls = []

instance (s : PumpState) : ∀ a, Decidable (s.Enabled a)
  | .stop _ => inferInstanceAs (Decidable (s.Free _))
  | .watch _ _ _ _ _ | .dropPump => inferInstanceAs (Decidable (_ ∧ _))
  | .register _ _ _ _ _ _ | .insert _ _ _ => inferInstanceAs (Decidable (_ ∈ _))
  | .dispatch _ | .exit => inferInstanceAs (Decidable (_ = _))

/-- `stop_watching_file_descriptor`: takes `pump`, upgrades it and unregisters. -/
def stopWatching (s : PumpState) (c : ControllerId) : PumpState :=
  let x := s.controllers c
  { s with
    table := if x.pump && s.alive then (s.table.unregisterFd x.fd.toNat x.generation).1 else s.table
    controllers := Function.update s.controllers c { x with pump := false } }

/-- The calls other than `c`'s. -/
def otherCalls (s : PumpState) (c : ControllerId) : List (ControllerId × WatchCall) :=
  s.calls.filter fun x => x.1 ≠ c

def next (s : PumpState) : PumpAct → PumpState
  | .stop c => s.stopWatching c
  | .watch c fd persistent mode watcher =>
      { s.stopWatching c with calls := (c, .register fd persistent mode watcher) :: s.calls }
  | .register c fd persistent mode watcher ok =>
      let generation := s.table.generationCounter
      { s with
        table := { s.table with generationCounter := generation + 1 }
        calls :=
          if ok then (c, .insert fd ⟨watcher, persistent, mode, generation⟩) :: s.otherCalls c
          else s.otherCalls c }
  | .insert c fd e =>
      { s with
        table := s.table.insert fd e
        controllers := Function.update s.controllers c ⟨true, fd, e.generation⟩
        calls := s.otherCalls c }
  | .dispatch fd => { s with table := s.table.consume fd }
  | .exit => { s with running := false }
  | .dropPump => { s with alive := false }

end PumpState

def pumpMachine : Machine PumpState PumpAct where
  Init := fun s => s = .new
  Enabled := PumpState.Enabled
  next := PumpState.next

instance : ∀ s a, Decidable (pumpMachine.Enabled s a) :=
  fun s a => inferInstanceAs (Decidable (s.Enabled a))

namespace PumpState

/-- The table has an entry with the descriptor and the generation of `c`. -/
def Holds (s : PumpState) (c : ControllerId) : Prop :=
  ∃ fd : Fd, (s.controllers c).fd = fd ∧ s.table.Matches fd (s.controllers c).generation

/-- `is_watching` is right about `c`. -/
def Accurate (s : PumpState) (c : ControllerId) : Prop :=
  (s.controllers c).isWatching = true ↔ s.alive = true ∧ s.Holds c

/-- `c` is attached to the entry of `fd`. -/
def attachedTo (s : PumpState) (c : ControllerId) (fd : Fd) : Bool :=
  (s.controllers c).pump && (s.controllers c).fd == fd &&
    decide (s.table.Matches fd (s.controllers c).generation)

/-- The entry of `fd` is a one-shot one. -/
def oneShot (s : PumpState) (fd : Fd) : Bool :=
  match s.table.watches fd with
  | some e => !e.persistent
  | none => false

/-- Whether the entry of a controller's watch was taken away by something else than itself. -/
def recordTaken (s : PumpState) : PumpAct → (ControllerId → Bool) → ControllerId → Bool
  | .stop c, taken | .watch c _ _ _ _, taken => Function.update taken c false
  | .insert c fd _, taken =>
      Function.update (fun d => taken d || s.attachedTo d fd) c false
  | .dispatch fd, taken => fun d => taken d || (s.oneShot fd && s.attachedTo d fd)
  | .dropPump, taken => fun d => taken d || (s.controllers d).pump
  | .register _ _ _ _ _ _, taken | .exit, taken => taken

end PumpState

def takenMachine : Machine (PumpState × (ControllerId → Bool)) PumpAct :=
  pumpMachine.withHistory (fun _ => false) PumpState.recordTaken

instance : ∀ x a, Decidable (takenMachine.Enabled x a) :=
  fun x a => inferInstanceAs (Decidable (pumpMachine.Enabled x.1 a))

namespace PumpState

variable {s s' : PumpState} {owner : ℕ → ControllerId} {c d : ControllerId} {fd : Fd}

/-! ### Generations

`owner g` is the controller whose call drew the generation `g`.
-/

structure Numbered (s : PumpState) (owner : ℕ → ControllerId) : Prop where
  attached : ∀ c (fd : Fd), (s.controllers c).fd = fd →
    (s.controllers c).generation < s.table.generationCounter ∧
      owner (s.controllers c).generation = c
  fd_of_pump : ∀ c, (s.controllers c).pump = true → ∃ fd : Fd, (s.controllers c).fd = fd
  call : ∀ c fd e, (c, WatchCall.insert fd e) ∈ s.calls →
    e.generation < s.table.generationCounter ∧ owner e.generation = c

theorem numbered_new : Numbered .new owner where
  attached _ fd h := by exact absurd h (by simp [new, ControllerFields.new])
  fd_of_pump _ h := by cases h
  call _ _ _ h := by cases h

theorem mem_otherCalls {x : ControllerId × WatchCall} (h : x ∈ s.otherCalls c) : x ∈ s.calls :=
  List.mem_of_mem_filter h

/-- A generation that is `d`'s is not another controller's. -/
theorem Numbered.generation_ne (h : Numbered s owner) {fd fd' : Fd}
    (hc : (s.controllers c).fd = fd) (hd : (s.controllers d).fd = fd') (hne : d ≠ c) :
    (s.controllers d).generation ≠ (s.controllers c).generation := by
  intro e
  have hg := (h.attached d fd' hd).2
  rw [e, (h.attached c fd hc).2] at hg
  exact hne hg.symm

/-- The controllers stay as they are, but for `pump`, and no generation is drawn. -/
theorem Numbered.same (h : Numbered s owner)
    (hg : s'.table.generationCounter = s.table.generationCounter)
    (hc : ∀ c, (s'.controllers c).fd = (s.controllers c).fd ∧
      (s'.controllers c).generation = (s.controllers c).generation ∧
      ((s'.controllers c).pump = true → (s.controllers c).pump = true))
    (hi : ∀ x fd e, (x, WatchCall.insert fd e) ∈ s'.calls → (x, WatchCall.insert fd e) ∈ s.calls) :
    Numbered s' owner where
  attached c fd hfd := by
    rw [(hc c).2.1, hg]
    exact h.attached c fd ((hc c).1 ▸ hfd)
  fd_of_pump c hp := by
    rw [(hc c).1]
    exact h.fd_of_pump c ((hc c).2.2 hp)
  call c fd e he := by
    rw [hg]
    exact h.call c fd e (hi c fd e he)

theorem stopWatching_fields (x : ControllerId) :
    ((s.stopWatching c).controllers x).fd = (s.controllers x).fd ∧
      ((s.stopWatching c).controllers x).generation = (s.controllers x).generation ∧
      (((s.stopWatching c).controllers x).pump = true → (s.controllers x).pump = true) := by
  by_cases e : x = c
  · subst e; simp [stopWatching]
  · simp [stopWatching, e]

theorem generationCounter_stopWatching :
    (s.stopWatching c).table.generationCounter = s.table.generationCounter := by
  simp only [stopWatching, WatchTable.unregisterFd]
  split
  · split <;> rfl
  · rfl

/-- The dispatch loop takes a one-shot entry, and leaves the table as it is otherwise. -/
theorem consume_cases (s : PumpState) (fd : Fd) :
    (s.oneShot fd = true ∧ s.table.consume fd = s.table.remove fd) ∨
      (s.oneShot fd = false ∧ s.table.consume fd = s.table) := by
  unfold oneShot WatchTable.consume
  cases s.table.watches fd with
  | none => exact .inr ⟨rfl, rfl⟩
  | some e => cases hp : e.persistent <;> simp [hp]

/-- A generation is drawn: it is the call's from here on. -/
theorem Numbered.register (h : Numbered s owner) {persistent ok : Bool} {mode : WatchMode}
    {watcher : WatcherId} :
    Numbered (s.next (.register c fd persistent mode watcher ok))
      (Function.update owner s.table.generationCounter c) := by
  have old : ∀ {g}, g < s.table.generationCounter →
      Function.update owner s.table.generationCounter c g = owner g := fun hg =>
    Function.update_of_ne (Nat.ne_of_lt hg) ..
  have calls : ∀ {x fd' e}, (x, WatchCall.insert fd' e) ∈
      (s.next (.register c fd persistent mode watcher ok)).calls →
      (x = c ∧ e.generation = s.table.generationCounter) ∨
        (x, WatchCall.insert fd' e) ∈ s.calls := by
    intro x fd' e hx
    simp only [next] at hx
    split at hx
    · rcases List.mem_cons.mp hx with hx | hx
      · cases hx; exact .inl ⟨rfl, rfl⟩
      · exact .inr (mem_otherCalls hx)
    · exact .inr (mem_otherCalls hx)
  refine ⟨fun x fd hfd => ?_, h.fd_of_pump, fun x fd e he => ?_⟩
  · obtain ⟨h₁, h₂⟩ := h.attached x fd hfd
    exact ⟨Nat.lt_succ_of_lt h₁, (old h₁).trans h₂⟩
  · rcases calls he with ⟨rfl, hg⟩ | he
    · rw [hg]
      exact ⟨Nat.lt_succ_self _, Function.update_self ..⟩
    · obtain ⟨h₁, h₂⟩ := h.call x fd e he
      exact ⟨Nat.lt_succ_of_lt h₁, (old h₁).trans h₂⟩

/-- The controller of a call is attached, the others are left alone. -/
theorem controllers_insert (c : ControllerId) (fd : Fd) (e : WatchEntry) (x : ControllerId) :
    (x = c ∧ (s.next (.insert c fd e)).controllers x = ⟨true, fd, e.generation⟩) ∨
      (x ≠ c ∧ (s.next (.insert c fd e)).controllers x = s.controllers x) := by
  by_cases hx : x = c
  · subst hx; exact .inl ⟨rfl, Function.update_self ..⟩
  · exact .inr ⟨hx, Function.update_of_ne hx ..⟩

theorem Numbered.insert (h : Numbered s owner) {e : WatchEntry}
    (ha : (c, WatchCall.insert fd e) ∈ s.calls) : Numbered (s.next (.insert c fd e)) owner := by
  refine ⟨fun x fd' hfd' => ?_, fun x hp => ?_, fun x fd' e' he' => ?_⟩
  · rcases controllers_insert (s := s) c fd e x with ⟨rfl, hx⟩ | ⟨-, hx⟩
    · rw [hx]; exact h.call x fd e ha
    · rw [hx] at hfd' ⊢; exact h.attached x fd' hfd'
  · rcases controllers_insert (s := s) c fd e x with ⟨rfl, hx⟩ | ⟨-, hx⟩
    · rw [hx]; exact ⟨fd, rfl⟩
    · rw [hx] at hp ⊢; exact h.fd_of_pump x hp
  · exact h.call x fd' e' (mem_otherCalls he')

theorem numbered_next (h : Numbered s owner) {a : PumpAct} (ha : s.Enabled a) :
    ∃ owner', Numbered (s.next a) owner' := by
  cases a with
  | stop c =>
      exact ⟨owner, h.same generationCounter_stopWatching stopWatching_fields fun _ _ _ => id⟩
  | watch c fd persistent mode watcher =>
      refine ⟨owner, h.same generationCounter_stopWatching stopWatching_fields fun x fd' e hx => ?_⟩
      rcases List.mem_cons.mp hx with hx | hx
      · cases hx
      · exact hx
  | register c fd persistent mode watcher ok => exact ⟨_, h.register⟩
  | insert c fd e => exact ⟨owner, h.insert ha⟩
  | dispatch fd =>
      refine ⟨owner, h.same ?_ (fun _ => ⟨rfl, rfl, id⟩) fun _ _ _ => id⟩
      rcases s.consume_cases fd with ⟨-, he⟩ | ⟨-, he⟩
      · simp only [next, he]; rfl
      · simp only [next, he]
  | exit | dropPump =>
      exact ⟨owner, h.same rfl (fun _ => ⟨rfl, rfl, id⟩) fun _ _ _ => id⟩

end PumpState

theorem attachments_numbered {C : PumpState → PumpAct → Prop} {s : PumpState}
    (h : pumpMachine.ReachableBy C s) : ∃ owner, s.Numbered owner := by
  refine h.invariant (I := fun s => ∃ owner, s.Numbered owner) ?_ fun s a _ hi _ ha => ?_
  · rintro s rfl
    exact ⟨fun _ => 0, PumpState.numbered_new⟩
  · obtain ⟨owner, ho⟩ := hi
    exact PumpState.numbered_next ho ha

namespace PumpState

variable {s s' : PumpState} {owner : ℕ → ControllerId} {c d : ControllerId} {fd : Fd}
  {taken : ControllerId → Bool}

/-! ### What is taken away -/

/-- What `taken` says of the controllers. -/
structure Tracked (s : PumpState) (taken : ControllerId → Bool) : Prop where
  alive : s.calls ≠ [] → s.alive = true
  attached : ∀ c, (s.controllers c).pump = true → (taken c = false ↔ s.alive = true ∧ s.Holds c)
  detached : ∀ c, (s.controllers c).pump = false → taken c = false ∧ ¬ (s.alive = true ∧ s.Holds c)

theorem Tracked.accurate_iff (h : Tracked s taken) (c : ControllerId) :
    s.Accurate c ↔ taken c = false := by
  cases hp : (s.controllers c).pump with
  | true =>
      rw [Accurate, ControllerFields.isWatching, hp, eq_self_iff_true, true_iff]
      exact (h.attached c hp).symm
  | false =>
      obtain ⟨h₁, h₂⟩ := h.detached c hp
      simp [Accurate, ControllerFields.isWatching, hp, h₁, h₂]

theorem attachedTo_iff :
    s.attachedTo d fd = true ↔ (s.controllers d).pump = true ∧ (s.controllers d).fd = fd ∧
      s.table.Matches fd (s.controllers d).generation := by
  simp [attachedTo, and_assoc]

theorem tracked_new : Tracked .new fun _ => false := by
  refine ⟨fun h => absurd rfl h, nofun, fun c _ => ⟨rfl, ?_⟩⟩
  rintro ⟨-, fd, -, e, he, -⟩
  cases he

/-- Unregistering one generation leaves the entries of the others. -/
theorem matches_unregisterFd_of_ne {t : WatchTable} {fd' : Fd} {g g' : ℕ} (hg : g' ≠ g) :
    (t.unregisterFd fd g).1.Matches fd' g' ↔ t.Matches fd' g' := by
  unfold WatchTable.unregisterFd
  split
  · rename_i hm
    constructor
    · rintro ⟨e, he, hg'⟩
      exact ⟨e, (update_none_eq_some.mp he).2, hg'⟩
    · rintro ⟨e, he, hg'⟩
      refine ⟨e, update_none_eq_some.mpr ⟨?_, he⟩, hg'⟩
      rintro rfl
      obtain ⟨e₁, he₁, hg₁⟩ := hm
      rw [he] at he₁
      cases he₁
      exact hg (hg'.symm.trans hg₁)
  · rfl

theorem not_matches_unregisterFd {t : WatchTable} {g : ℕ} :
    ¬ (t.unregisterFd fd g).1.Matches fd g := by
  unfold WatchTable.unregisterFd
  split
  · rintro ⟨e, he, -⟩
    exact (update_none_eq_some.mp he).1 rfl
  · assumption

theorem holds_stopWatching (hn : Numbered s owner) (hne : d ≠ c) :
    (s.stopWatching c).Holds d ↔ s.Holds d := by
  have ctl : (s.stopWatching c).controllers d = s.controllers d := Function.update_of_ne hne ..
  unfold Holds
  rw [ctl]
  refine exists_congr fun fd => and_congr_right fun hd => ?_
  simp only [stopWatching]
  split
  · rename_i hp
    obtain ⟨fdc, hc⟩ := hn.fd_of_pump c (Bool.and_eq_true_iff.mp hp).1
    exact matches_unregisterFd_of_ne (hn.generation_ne hc hd hne)
  · rfl

/-- After `c` was stopped, the table has nothing of its watch. -/
theorem not_holds_stopWatching (h : Tracked s taken)
    (ha : s.alive = true) : ¬ (s.stopWatching c).Holds c := by
  rintro ⟨fd, hfd, hm⟩
  obtain ⟨fd_eq, gen_eq, -⟩ := stopWatching_fields (s := s) (c := c) c
  rw [fd_eq] at hfd
  rw [gen_eq] at hm
  simp only [stopWatching, ha, Bool.and_true, hfd, Int.toNat_natCast] at hm
  split at hm
  · exact not_matches_unregisterFd hm
  · rename_i hp
    exact (h.detached c (Bool.not_eq_true _ ▸ hp)).2 ⟨ha, fd, hfd, hm⟩

theorem Tracked.stop (h : Tracked s taken) (hn : Numbered s owner)
    (hs : s'.controllers = (s.stopWatching c).controllers)
    (ht : s'.table = (s.stopWatching c).table) (hl : s'.alive = s.alive)
    (hc : s'.calls ≠ [] → s.alive = true) : Tracked s' (Function.update taken c false) := by
  have same : ∀ d, s'.Holds d ↔ (s.stopWatching c).Holds d := fun d => by
    unfold Holds; rw [hs, ht]
  have other : ∀ d, d ≠ c → s'.controllers d = s.controllers d ∧
      Function.update taken c false d = taken d ∧ (s'.Holds d ↔ s.Holds d) := fun d hd =>
    ⟨by rw [hs]; exact Function.update_of_ne hd .., Function.update_of_ne hd ..,
      (same d).trans (holds_stopWatching hn hd)⟩
  have self : (s'.controllers c).pump = false := by simp [hs, stopWatching]
  refine ⟨fun hne => hl ▸ hc hne, fun d hp => ?_, fun d hp => ?_⟩
  · by_cases e : d = c
    · subst e; rw [self] at hp; cases hp
    · obtain ⟨h₁, h₂, h₃⟩ := other d e
      rw [h₂, hl, h₃]
      exact h.attached d (h₁ ▸ hp)
  · by_cases e : d = c
    · subst e
      refine ⟨Function.update_self .., fun ⟨ha, hh⟩ => ?_⟩
      exact not_holds_stopWatching h (hl ▸ ha) ((same d).mp hh)
    · obtain ⟨h₁, h₂, h₃⟩ := other d e
      rw [h₂, hl, h₃]
      exact h.detached d (h₁ ▸ hp)

/-- The controllers' fields are as they were, and of those attached the step took the entries that
`lost` names. -/
theorem Tracked.take (h : Tracked s taken) {lost : ControllerId → Bool}
    (hs : s'.controllers = s.controllers) (hc : s'.calls ≠ [] → s'.alive = true)
    (hl : ∀ d, lost d = true → (s.controllers d).pump = true)
    (hm : ∀ d, s'.alive = true ∧ s'.Holds d → s.alive = true ∧ s.Holds d)
    (hh : ∀ d, (s.controllers d).pump = true →
      (s'.alive = true ∧ s'.Holds d ↔ (s.alive = true ∧ s.Holds d) ∧ lost d = false)) :
    Tracked s' fun d => taken d || lost d := by
  refine ⟨hc, fun d hp => ?_, fun d hp => ?_⟩
  · rw [hs] at hp
    rw [Bool.or_eq_false_iff, hh d hp, h.attached d hp]
  · rw [hs] at hp
    obtain ⟨h₁, h₂⟩ := h.detached d hp
    refine ⟨?_, fun hd => h₂ (hm d hd)⟩
    cases hx : lost d with
    | false => rw [h₁]; rfl
    | true => rw [hl d hx] at hp; cases hp

theorem Tracked.dispatch (h : Tracked s taken) :
    Tracked (s.next (.dispatch fd)) (s.recordTaken (.dispatch fd) taken) := by
  -- the entry that goes is a one-shot one
  have holds : ∀ d, (s.next (.dispatch fd)).Holds d ↔
      s.Holds d ∧ ¬ (s.oneShot fd = true ∧ (s.controllers d).fd = fd) := by
    intro d
    rcases s.consume_cases fd with ⟨ho, he⟩ | ⟨ho, he⟩
    · constructor
      · rintro ⟨fd', hd, e, hw, hg⟩
        rw [next, he] at hw
        obtain ⟨hne, hw⟩ := update_none_eq_some.mp hw
        exact ⟨⟨fd', hd, e, hw, hg⟩, fun hc => hne (Int.ofNat_inj.mp (hd.symm.trans hc.2))⟩
      · rintro ⟨⟨fd', hd, e, hw, hg⟩, hc⟩
        refine ⟨fd', hd, e, ?_, hg⟩
        rw [next, he]
        exact update_none_eq_some.mpr ⟨fun e => hc ⟨ho, e ▸ hd⟩, hw⟩
    · simp only [Holds, next, he, ho]
      simp
  refine h.take rfl h.alive (fun d hd => ?_) (fun d => And.imp_right fun hd => ?_) fun d hp => ?_
  · exact (attachedTo_iff.mp (Bool.and_eq_true_iff.mp hd).2).1
  · exact ((holds d).mp hd).1
  · rw [and_assoc, holds]
    refine and_congr_right fun _ => and_congr_right fun hd => ?_
    obtain ⟨fd', hfd', hm⟩ := hd
    rw [← Bool.not_eq_true, Bool.and_eq_true, attachedTo_iff]
    refine not_congr (and_congr_right fun _ => ⟨fun e => ⟨hp, e, ?_⟩, fun hd => hd.2.1⟩)
    rwa [← Int.ofNat_inj.mp (hfd'.symm.trans e)]

theorem Tracked.dropPump (h : Tracked s taken) (hc : s.calls = []) :
    Tracked (s.next .dropPump) (s.recordTaken .dropPump taken) := by
  refine h.take rfl (fun hne => absurd hc hne) (fun _ => id) (fun d hd => ?_) fun d hp => ?_
  · exact absurd hd.1 Bool.false_ne_true
  · rw [hp]
    exact iff_of_false (fun hd => absurd hd.1 Bool.false_ne_true) fun hd => by cases hd.2

theorem Tracked.insert (h : Tracked s taken) (hn : Numbered s owner) {e : WatchEntry}
    (ha : (c, WatchCall.insert fd e) ∈ s.calls) :
    Tracked (s.next (.insert c fd e)) (s.recordTaken (.insert c fd e) taken) := by
  have alive : s.alive = true := h.alive (List.ne_nil_of_mem ha)
  have own : ∀ d (fd' : Fd), d ≠ c → (s.controllers d).fd = fd' →
      e.generation ≠ (s.controllers d).generation := by
    intro d fd' hne hd hg
    have hc := (hn.call c fd e ha).2
    rw [hg, (hn.attached d fd' hd).2] at hc
    exact hne hc
  -- another controller keeps its entry unless the entry is the one of `fd`
  have holds : ∀ d, d ≠ c → ((s.next (.insert c fd e)).Holds d ↔
      s.Holds d ∧ (s.controllers d).fd ≠ fd) := by
    intro d hne
    have ctl : (s.next (.insert c fd e)).controllers d = s.controllers d :=
      Function.update_of_ne hne ..
    unfold Holds
    rw [ctl]
    constructor
    · rintro ⟨fd', hd, x, hw, hg⟩
      rcases update_some_eq_some.mp hw with ⟨-, rfl⟩ | ⟨hne', hw⟩
      · exact absurd hg (own d fd' hne hd)
      · exact ⟨⟨fd', hd, x, hw, hg⟩, fun hc => hne' (Int.ofNat_inj.mp (hd.symm.trans hc))⟩
    · rintro ⟨⟨fd', hd, x, hw, hg⟩, hc⟩
      exact ⟨fd', hd, x, update_some_eq_some.mpr (.inr ⟨fun e => hc (e ▸ hd), hw⟩), hg⟩
  refine ⟨fun _ => alive, fun d hp => ?_, fun d hp => ?_⟩
  · by_cases hd : d = c
    · subst hd
      refine iff_of_true (by simp [recordTaken]) ⟨alive, fd, ?_, e, Function.update_self .., ?_⟩
      · simp [next]
      · simp [next]
    · simp only [next, Function.update_of_ne hd] at hp
      simp only [recordTaken, Function.update_of_ne hd]
      rw [holds d hd, Bool.or_eq_false_iff, h.attached d hp, and_assoc]
      refine and_congr_right fun _ => and_congr_right fun hh => ?_
      obtain ⟨fd', hfd', hm⟩ := hh
      rw [← Bool.not_eq_true, attachedTo_iff]
      refine not_congr ⟨fun hx => hx.2.1, fun e => ⟨hp, e, ?_⟩⟩
      rwa [← Int.ofNat_inj.mp (hfd'.symm.trans e)]
  · by_cases hd : d = c
    · subst hd
      simp [next] at hp
    · simp only [next, Function.update_of_ne hd] at hp
      obtain ⟨h₁, h₂⟩ := h.detached d hp
      refine ⟨?_, fun hx => h₂ ⟨alive, ((holds d hd).mp hx.2).1⟩⟩
      simp [recordTaken, hd, h₁, attachedTo, hp]

theorem tracked_next (h : Tracked s taken) (hn : Numbered s owner) {a : PumpAct}
    (ha : s.Enabled a) : Tracked (s.next a) (s.recordTaken a taken) := by
  cases a with
  | stop c => exact h.stop hn rfl rfl rfl h.alive
  | watch c fd persistent mode watcher => exact h.stop hn rfl rfl rfl fun _ => ha.2
  | register c fd persistent mode watcher ok =>
      exact ⟨fun _ => h.alive (List.ne_nil_of_mem ha), h.attached, h.detached⟩
  | insert c fd e => exact h.insert hn ha
  | dispatch fd => exact h.dispatch
  | exit => exact ⟨h.alive, h.attached, h.detached⟩
  | dropPump => exact h.dropPump ha.2

end PumpState

theorem reachable_tracked {x : PumpState × (ControllerId → Bool)} (h : takenMachine.Reachable x) :
    x.1.Tracked x.2 := by
  refine h.invariant (I := fun x => x.1.Tracked x.2) ?_ fun x a hr hi _ ha => ?_
  · rintro ⟨s, taken⟩ ⟨rfl, rfl⟩
    exact PumpState.tracked_new
  · obtain ⟨owner, hn⟩ := attachments_numbered hr.of_withHistory
    exact PumpState.tracked_next hi hn ha

/-- **`is_watching` is accurate** about a controller, in every state that any history reaches, if
and only if since the controller's last `attach` or `stop` the entry of its watch was not taken away
by a one-shot firing, a registration through another controller or the end of the pump. -/
theorem isWatching_accurate_iff {x : PumpState × (ControllerId → Bool)}
    (h : takenMachine.Reachable x) (c : ControllerId) : x.1.Accurate c ↔ x.2 c = false :=
  (reachable_tracked h).accurate_iff c

/-- A controller watches descriptor 5. -/
def attachRun (persistent : Bool) : List PumpAct :=
  [.watch 0 5 persistent .read 0, .register 0 5 persistent .read 0 true,
   .insert 0 5 ⟨0, persistent, .read, 0⟩]

/-- An event of a persistent watch takes nothing away. -/
theorem persistentRun_accurate :
    let x := takenMachine.runList (.new, fun _ => false) (attachRun true ++ [.dispatch 5])
    x.1.Accurate 0 ∧ (x.1.controllers 0).isWatching = true := by
  have follows : takenMachine.Follows (fun _ _ => True) (.new, fun _ => false)
      (attachRun true ++ [.dispatch 5]) := by decide +kernel
  have init : takenMachine.Init (.new, fun _ => false) := ⟨rfl, rfl⟩
  have reach := Machine.ReachableBy.of_follows init follows
  exact ⟨(isWatching_accurate_iff reach 0).mpr (by decide +kernel), by decide +kernel⟩

/-- After a one-shot firing, after another controller's registration for the descriptor, and after
the end of the pump `is_watching` is still true, and the entry or the pump is gone. -/
theorem oneShotRun_inaccurate :
    let fired := pumpMachine.runList .new (attachRun false ++ [.dispatch 5])
    let replaced := pumpMachine.runList .new (attachRun true ++ [.watch 1 5 true .read 1,
      .register 1 5 true .read 1 true, .insert 1 5 ⟨1, true, .read, 1⟩])
    let dropped := pumpMachine.runList .new (attachRun true ++ [.exit, .dropPump])
    (pumpMachine.Reachable fired ∧ (fired.controllers 0).isWatching = true ∧
      fired.table.watches 5 = none ∧ ¬ fired.Accurate 0) ∧
    (pumpMachine.Reachable replaced ∧ (replaced.controllers 0).isWatching = true ∧
      replaced.table.watches 5 = some ⟨1, true, .read, 1⟩ ∧ ¬ replaced.Accurate 0) ∧
    (pumpMachine.Reachable dropped ∧ (dropped.controllers 0).isWatching = true ∧
      dropped.alive = false ∧ ¬ dropped.Accurate 0) := by
  refine ⟨⟨.of_follows rfl (by decide +kernel), by decide +kernel, by decide +kernel, fun h => ?_⟩,
    ⟨.of_follows rfl (by decide +kernel), by decide +kernel, by decide +kernel, fun h => ?_⟩,
    ⟨.of_follows rfl (by decide +kernel), by decide +kernel, by decide +kernel, fun h => ?_⟩⟩
  · obtain ⟨-, fd, hfd, hh⟩ := h.mp (by decide +kernel)
    obtain rfl : fd = 5 := Int.ofNat_inj.mp (hfd.symm.trans (by decide +kernel))
    exact absurd hh (by decide +kernel)
  · obtain ⟨-, fd, hfd, hh⟩ := h.mp (by decide +kernel)
    obtain rfl : fd = 5 := Int.ofNat_inj.mp (hfd.symm.trans (by decide +kernel))
    exact absurd hh (by decide +kernel)
  · exact absurd (h.mp (by decide +kernel)).1 (by decide +kernel)

end RustIo
