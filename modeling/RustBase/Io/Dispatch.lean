import RustBase.Io.WatchTable

/-!
# Io — dispatching a batch of events

`epoll_wait` collects a batch of events, and the loop looks each one up later by its descriptor
alone.  What the callbacks of the batch register in between is met by events that were collected
before.

* `Served`: every one-shot entry with a live watcher that the loop removed was called back, in a
  direction its mode asks for.  This holds in runs whose registrations are `Compatible` with the
  events still to be handled: the new mode asks for something the event reports.
* `Known`: every call is for a registration that was in the table when `epoll_wait` returned.  This
  holds in runs whose registrations are `Unrelated` to those events: the new mode asks for nothing
  the event reports.

So a registration made during a batch, for a descriptor whose event is still to be handled, breaks
one of the two (`remodeRun_not_served`, `staleRun_not_known`).
-/

namespace RustIo
open Support RustTask

/-- The calls still to be made for the event being handled. -/
def IoPhase.pendingCalls : IoPhase → List Call
  | .calls cs _ | .inCallback _ cs _ => cs
  | _ => []

/-- The calls of the event being handled, with the one being made. -/
def IoPhase.currentCalls : IoPhase → List Call
  | .calls cs _ => cs
  | .inCallback c cs _ => c :: cs
  | _ => []

/-- The dispatch loop makes the event. -/
def IoEvent.ofLoop : IoEvent → Bool
  | .consumed _ _ | .called _ => true
  | _ => false

namespace IoState

variable {s s' : IoState}

/-! ### What a step does -/

/-- What a step does to the batch: the events and calls still to come, the snapshot, and the events
of the log that the dispatch loop makes. -/
inductive LoopStep (s s' : IoState) : Action → Prop where
  | stay {a : Action} (he : s'.phase.pendingEvents = s.phase.pendingEvents)
      (hp : s'.phase.pendingCalls = s.phase.pendingCalls)
      (hc : s'.phase.currentCalls = s.phase.currentCalls) (hs : s'.snapshot = s.snapshot)
      (hl : ∀ x, x.ofLoop = true → (x ∈ s'.log ↔ x ∈ s.log)) : LoopStep s s' a
  | returns (t : ℤ) (now : Instant) (evs : List EpollEvent) (hw : s.phase = .wait t now)
      (hr : ∀ ev ∈ evs, s.Reported ev) (he : s'.phase = .batch evs)
      (hs : s'.snapshot = s.table.watches) (hl : s'.log = s.log) :
      LoopStep s s' (.io (.epollReturns t now evs))
  /-- the eventfd is drained, or the descriptor is not in the table -/
  | skip (ev : EpollEvent) (evs : List EpollEvent) (hb : s.phase = .batch (ev :: evs))
      (he : s'.phase = .batch evs) (hs : s'.snapshot = s.snapshot) (hl : s'.log = s.log) :
      LoopStep s s' (.io (.handle ev evs))
  | found (ev : EpollEvent) (evs : List EpollEvent) (e : WatchEntry)
      (hb : s.phase = .batch (ev :: evs)) (hfd : ev.fd ≠ s.wakeFd)
      (hw : s.table.watches ev.fd = some e)
      (he : s'.phase = .calls (if s.alive e.watcher then calls ev.fd ev.events e else []) evs)
      (hs : s'.snapshot = s.snapshot)
      (hl : s'.log = if !e.persistent && s.alive e.watcher then s.log ++ [.consumed ev.fd e]
        else s.log) : LoopStep s s' (.io (.handle ev evs))
  | call (c : Call) (cs : List Call) (evs : List EpollEvent) (hb : s.phase = .calls (c :: cs) evs)
      (he : s'.phase = .inCallback c cs evs) (hs : s'.snapshot = s.snapshot)
      (hl : s'.log = s.log ++ [.called c]) : LoopStep s s' (.io (.call c cs evs))
  | back (c : Call) (cs : List Call) (evs : List EpollEvent) (hb : s.phase = .inCallback c cs evs)
      (he : s'.phase = .calls cs evs) (hs : s'.snapshot = s.snapshot) (hl : s'.log = s.log) :
      LoopStep s s' (.io (.callbackReturns c cs evs))

theorem loopStep {a : Action} (ha : s.Enabled a) : LoopStep s (s.next a) a := by
  have same : ∀ x : IoEvent, x.ofLoop = true → (x ∈ s.log ↔ x ∈ s.log) := fun _ _ => Iff.rfl
  -- an event of the log that is not the loop's
  have other : ∀ {e : IoEvent}, e.ofLoop = false → ∀ x : IoEvent, x.ofLoop = true →
      (x ∈ s.log ++ [e] ↔ x ∈ s.log) := fun {e} hf x hx => by
    have hne : x ≠ e := fun h => by rw [h, hf] at hx; cases hx
    simp [hne]
  -- outside the dispatch loop there is nothing to come
  have outside : ∀ {x : IoPhase}, s.phase = x → x.pendingEvents = [] → x.pendingCalls = [] →
      x.currentCalls = [] → (s.next a).phase.pendingEvents = [] →
      (s.next a).phase.pendingCalls = [] → (s.next a).phase.currentCalls = [] →
      (s.next a).snapshot = s.snapshot →
      (∀ x, x.ofLoop = true → (x ∈ (s.next a).log ↔ x ∈ s.log)) → LoopStep s (s.next a) a :=
    fun hx h₁ h₂ h₃ h₁' h₂' h₃' hs hl =>
      .stay (by rw [h₁', hx, h₁]) (by rw [h₂', hx, h₂]) (by rw [h₃', hx, h₃]) hs hl
  cases a with
  | io a =>
      cases a with
      | popTask =>
          cases ht : s.runner.tasks with
          | nil =>
              simp only [next, ioNext, ht] at outside ⊢
              exact outside ha rfl rfl rfl rfl rfl rfl rfl same
          | cons id ids =>
              simp only [next, ioNext, ht] at outside ⊢
              exact outside ha rfl rfl rfl rfl rfl rfl rfl (other rfl)
      | taskReturns id => exact outside ha.1 rfl rfl rfl rfl rfl rfl rfl same
      | readNow => exact outside ha rfl rfl rfl rfl rfl rfl rfl same
      | popDelayed now t => exact outside ha.1 rfl rfl rfl rfl rfl rfl rfl (other rfl)
      | noDelayed now => exact outside ha.1 rfl rfl rfl rfl rfl rfl rfl same
      | delayedReturns id => exact outside ha.1 rfl rfl rfl rfl rfl rfl rfl same
      | peek => exact outside ha rfl rfl rfl rfl rfl rfl rfl same
      | checkQuit d =>
          cases hq : s.quit <;> simp only [next, ioNext, hq] at outside ⊢ <;>
            exact outside ha rfl rfl rfl rfl rfl rfl rfl same
      | computeTimeout d => exact outside ha rfl rfl rfl rfl rfl rfl rfl same
      | epollReturns t now evs =>
          exact .returns t now evs ha.1 ha.2.2.2.2 rfl rfl rfl
      | epollInterrupted t now => exact outside ha rfl rfl rfl rfl rfl rfl rfl same
      | epollFails t now => exact outside ha rfl rfl rfl rfl rfl rfl rfl same
      | handle ev evs =>
          by_cases hfd : ev.fd = s.wakeFd
          · simp only [next, ioNext, if_pos hfd]
            exact .skip ev evs ha rfl rfl rfl
          · cases hw : s.table.watches ev.fd with
            | none =>
                simp only [next, ioNext, if_neg hfd, dispatch, hw]
                exact .skip ev evs ha rfl rfl rfl
            | some e =>
                simp only [next, ioNext, if_neg hfd, dispatch, hw]
                refine .found ev evs e ha hfd hw rfl ?_ ?_
                · cases e.persistent <;> cases s.alive e.watcher <;> rfl
                · cases e.persistent <;> cases s.alive e.watcher <;> rfl
      | endBatch => exact outside ha rfl rfl rfl rfl rfl rfl rfl same
      | call c cs evs => exact .call c cs evs ha rfl rfl rfl
      | endCalls evs =>
          have hx : s.phase = .calls [] evs := ha
          exact .stay (by rw [hx]; rfl) (by rw [hx]; rfl) (by rw [hx]; rfl) rfl same
      | callbackReturns c cs evs => exact .back c cs evs ha.1 rfl rfl rfl
      | registerCtl fd persistent mode w ok => cases ok <;> exact .stay rfl rfl rfl rfl same
      | registerInsert fd e => exact .stay rfl rfl rfl rfl (other rfl)
  | poster p a =>
      cases a with
      | post delay =>
          simp only [next, posterNext]
          split <;> exact .stay rfl rfl rfl rfl same
      | _ => exact .stay rfl rfl rfl rfl same
  | unregister fd g =>
      simp only [next, unregister]
      split
      · exact .stay rfl rfl rfl rfl (other rfl)
      · exact .stay rfl rfl rfl rfl same
  | openFd | closeFd | dropWatcher | tick => exact .stay rfl rfl rfl rfl same

/-- Only the return of `epoll_wait` brings new events. -/
theorem pendingEvents_next {a : Action} (ha : s.Enabled a) {ev : EpollEvent}
    (hev : ev ∈ (s.next a).phase.pendingEvents) :
    ev ∈ s.phase.pendingEvents ∨
      (∃ t now evs, a = .io (.epollReturns t now evs) ∧ s.phase = .wait t now) ∧ s.Reported ev := by
  cases loopStep ha with
  | stay he => exact .inl (he ▸ hev)
  | returns t now evs hw hr he => rw [he] at hev; exact .inr ⟨⟨t, now, evs, rfl, hw⟩, hr ev hev⟩
  | skip ev' evs hb he => rw [he] at hev; rw [hb]; exact .inl (.tail _ hev)
  | found ev' evs e hb _ _ he => rw [he] at hev; rw [hb]; exact .inl (.tail _ hev)
  | call c cs evs hb he => rw [he] at hev; rw [hb]; exact .inl hev
  | back c cs evs hb he => rw [he] at hev; rw [hb]; exact .inl hev

/-- Only a registration brings a new entry into the staged table. -/
theorem staged_next (hu : RegistersInUserCode s) {a : Action} (ha : s.Enabled a) {fd : Fd}
    {e : WatchEntry} (he : (s.next a).staged fd = some e) :
    s.staged fd = some e ∨
      ∃ persistent w, a = .io (.registerCtl fd persistent e.mode w true) := by
  cases fdStep hu ha fd with
  | same _ _ hs | raced _ _ _ _ _ _ hs | opened _ _ _ hs | closed _ _ hs =>
      exact .inl (hs ▸ he)
  | registered persistent mode w _ _ _ hs =>
      rw [hs] at he; cases he
      exact .inr ⟨persistent, w, rfl⟩
  | removed _ _ hs => rw [hs] at he; cases he

/-! ### Every consumed watch is called back -/

/-- The descriptor and the mode of a registration that the kernel accepts. -/
def Action.registers? : Action → Option (Fd × WatchMode)
  | .io (.registerCtl fd _ mode _ true) => some (fd, mode)
  | _ => none

/-- A registration for a descriptor whose event is still to be handled asks for something the event
reports. -/
def Compatible (s : IoState) (a : Action) : Prop :=
  ∀ r ∈ a.registers?, ∀ ev ∈ s.phase.pendingEvents, ev.fd = r.1 → meets ev.events r.2 = true

instance (s : IoState) (a : Action) : Decidable (s.Compatible a) :=
  inferInstanceAs (Decidable (∀ r ∈ a.registers?, ∀ ev ∈ s.phase.pendingEvents, _ → _ = _))

/-- The events still to be handled are ones their entries ask for. -/
def Expecting (s : IoState) : Prop :=
  ∀ ev ∈ s.phase.pendingEvents, ev.fd ≠ s.wakeFd → ∀ e, s.staged ev.fd = some e →
    meets ev.events e.mode = true

/-- Every one-shot entry the loop removed was called back, or is about to be. -/
def Served (s : IoState) : Prop :=
  ∀ fd e, .consumed fd e ∈ s.log → ∃ c : Call, c.fd = fd ∧ c.watcher = e.watcher ∧
    c.generation = e.generation ∧ e.mode.covers c.direction = true ∧
    (.called c ∈ s.log ∨ c ∈ s.phase.pendingCalls)

theorem expecting_next (h : Expecting s) (hb : Backed s) (hu : RegistersInUserCode s) {a : Action}
    (ha : s.Enabled a) (hC : s.Compatible a) : Expecting (s.next a) := by
  intro ev hev hne e he
  rw [wakeFd_next] at hne
  rcases pendingEvents_next ha hev with hev | ⟨⟨t, now, evs, rfl, hw⟩, hr⟩
  · rcases staged_next hu ha he with he | ⟨persistent, w, rfl⟩
    · exact h ev hev hne e he
    · exact hC (ev.fd, e.mode) rfl ev hev rfl
  · -- a new event: the kernel reports what it was asked for, and it was asked for the entry's mode
    rcases staged_next hu ha he with he | ⟨_, _, ⟨⟩⟩
    obtain ⟨⟨mask, hmask, hrep⟩, -⟩ := hr
    obtain ⟨e', he', rfl⟩ := hb.entry ev.fd mask hne hmask
    cases he.symm.trans he'
    exact meets_of_reportable hrep

theorem staged_of_batch (hu : RegistersInUserCode s) {evs : List EpollEvent}
    (hb : s.phase = .batch evs) (fd : Fd) : s.staged fd = s.table.watches fd := by
  refine staged_of_none ?_ fd
  by_contra hne
  have := hu hne
  rw [hb] at this; cases this

theorem covers_of_canDo {flags : UInt32} {m : WatchMode} {d : Direction}
    (h : canDo flags m d = true) : m.covers d = true :=
  (Bool.and_eq_true_iff.mp h).2

theorem served_next (h : Served s) (hx : Expecting s) (hu : RegistersInUserCode s) {a : Action}
    (ha : s.Enabled a) : Served (s.next a) := by
  -- what was served stays so while the calls to come are made or kept
  have keep : ∀ {fd e}, .consumed fd e ∈ s.log →
      (∀ c, .called c ∈ s.log → .called c ∈ (s.next a).log) →
      (∀ c ∈ s.phase.pendingCalls, .called c ∈ (s.next a).log ∨
        c ∈ (s.next a).phase.pendingCalls) →
      ∃ c : Call, c.fd = fd ∧ c.watcher = e.watcher ∧ c.generation = e.generation ∧
        e.mode.covers c.direction = true ∧
        (.called c ∈ (s.next a).log ∨ c ∈ (s.next a).phase.pendingCalls) :=
    fun hm hl hp => by
      obtain ⟨c, h₁, h₂, h₃, h₄, h₅⟩ := h _ _ hm
      exact ⟨c, h₁, h₂, h₃, h₄, h₅.elim (fun h₅ => .inl (hl c h₅)) (hp c)⟩
  intro fd e hm
  cases loopStep ha with
  | stay _ hp _ _ hl =>
      exact keep ((hl _ rfl).mp hm) (fun c => (hl _ rfl).mpr) fun c hc => .inr (hp ▸ hc)
  | returns t now evs hw _ _ _ hl =>
      refine keep (hl ▸ hm) (fun c hc => hl ▸ hc) fun c hc => ?_
      rw [hw] at hc; cases hc
  | skip ev evs hb _ _ hl =>
      refine keep (hl ▸ hm) (fun c hc => hl ▸ hc) fun c hc => ?_
      rw [hb] at hc; cases hc
  | found ev evs e' hb hfd hw he _ hl =>
      have sub : s.log ⊆ (s.next (.io (.handle ev evs))).log := by
        rw [hl]
        split
        · exact List.subset_append_left ..
        · exact List.Subset.refl _
      have old : .consumed fd e ∈ s.log → _ := fun hm => keep hm (fun c hc => sub hc) fun c hc => by
        rw [hb] at hc; cases hc
      rw [hl] at hm
      split at hm
      · rename_i hcons
        rcases List.mem_append.mp hm with hm | hm
        · exact old hm
        · -- the entry removed here: its event is one it asks for
          cases List.mem_singleton.mp hm
          obtain ⟨d, hd⟩ := meets_iff.mp (hx ev (by rw [hb]; exact .head _) hfd e
            ((staged_of_batch hu hb _).trans hw))
          refine ⟨⟨ev.fd, e.watcher, e.generation, d⟩, rfl, rfl, rfl, covers_of_canDo hd, .inr ?_⟩
          rw [he, if_pos (Bool.and_eq_true_iff.mp hcons).2]
          exact mem_calls.mpr ⟨rfl, rfl, rfl, hd⟩
      · exact old hm
  | call c cs evs hb he _ hl =>
      have hm' : .consumed fd e ∈ s.log := by
        rw [hl] at hm
        simpa using hm
      refine keep hm' (fun c' hc => hl ▸ List.mem_append_left _ hc) fun c' hc => ?_
      rw [hb] at hc
      rcases List.mem_cons.mp hc with rfl | hc
      · exact .inl (hl ▸ List.mem_append_right _ (.head _))
      · exact .inr (by rw [he]; exact hc)
  | back c cs evs hb he _ hl =>
      refine keep (hl ▸ hm) (fun c hc => hl ▸ hc) fun c' hc => .inr ?_
      rw [hb] at hc
      rw [he]; exact hc

end IoState

theorem reachable_expecting {s : IoState} (h : ioMachine.ReachableBy IoState.Compatible s) :
    s.Expecting := by
  refine h.invariant (fun s h₀ => ?_) fun s a hr hi hC ha =>
    IoState.expecting_next hi (reachable_backed hr) (reachable_registersInUserCode hr) ha hC
  obtain ⟨wakeFd, isOpen, -, rfl⟩ := h₀
  exact nofun

/-- **A one-shot watch is only consumed by firing**, in every run whose registrations are compatible
with the events still to be handled: a one-shot entry with a live watcher that the dispatch loop
removed has been called back, or its call is the next thing the loop does, in a direction that the
entry's mode asks for. -/
theorem consumed_watch_fires {s : IoState} (h : ioMachine.ReachableBy IoState.Compatible s) :
    s.Served := by
  refine h.invariant (fun s h₀ => ?_) fun s a hr hi _ ha =>
    IoState.served_next hi (reachable_expecting hr) (reachable_registersInUserCode hr) ha
  obtain ⟨wakeFd, isOpen, -, rfl⟩ := h₀
  exact nofun

/-- A task watches descriptors 5 and 6 for reading, once, and `epoll_wait` reports both. -/
def batchRun : List IoState.Action :=
  [.poster 0 (.post none), .poster 0 (.push 0), .poster 0 .write, .io .popTask,
   .io (.registerCtl 5 false .read 1 true), .io (.registerInsert 5 ⟨1, false, .read, 0⟩),
   .io (.registerCtl 6 false .read 2 true), .io (.registerInsert 6 ⟨2, false, .read, 1⟩),
   .io (.taskReturns 0), .io .popTask, .io .readNow, .io (.noDelayed 0), .io .peek,
   .io (.checkQuit none), .io (.computeTimeout none),
   .io (.epollReturns (-1) 0 [⟨epollIn, 5⟩, ⟨epollIn, 6⟩]),
   .io (.handle ⟨epollIn, 5⟩ [⟨epollIn, 6⟩]),
   .io (.call ⟨5, 1, 0, .read⟩ [] [⟨epollIn, 6⟩])]

theorem batchRun_served :
    let s := ioMachine.runList (.new 3 (· ≤ 6)) batchRun
    .consumed 5 ⟨1, false, .read, 0⟩ ∈ s.log ∧ s.Served := by
  have reached := Machine.ReachableBy.of_follows (M := ioMachine) (C := IoState.Compatible)
    (s := .new 3 (· ≤ 6)) (l := batchRun) ⟨3, (· ≤ 6), by decide, rfl⟩ (by decide +kernel)
  exact ⟨by decide +kernel, consumed_watch_fires reached⟩

/-- The callback for descriptor 5 registers descriptor 6 anew, for writing; then the event of
descriptor 6 is handled. -/
def remodeRun : List IoState.Action :=
  batchRun ++
    [.io (.registerCtl 6 false .write 2 true), .io (.registerInsert 6 ⟨2, false, .write, 2⟩),
     .io (.callbackReturns ⟨5, 1, 0, .read⟩ [] [⟨epollIn, 6⟩]), .io (.endCalls [⟨epollIn, 6⟩]),
     .io (.handle ⟨epollIn, 6⟩ []), .io (.endCalls [])]

/-- The new entry is gone and was not called. -/
theorem remodeRun_not_served :
    let s := ioMachine.runList (.new 3 (· ≤ 6)) remodeRun
    ioMachine.Reachable s ∧ s.table.watches 6 = none ∧ s.alive 2 = true ∧
      .consumed 6 ⟨2, false, .write, 2⟩ ∈ s.log ∧ ¬ s.Served := by
  have hlog : (ioMachine.runList (.new 3 (· ≤ 6)) remodeRun).log =
      [.ran 0, .registered 5 ⟨1, false, .read, 0⟩, .registered 6 ⟨2, false, .read, 1⟩,
       .consumed 5 ⟨1, false, .read, 0⟩, .called ⟨5, 1, 0, .read⟩,
       .registered 6 ⟨2, false, .write, 2⟩, .consumed 6 ⟨2, false, .write, 2⟩] := by decide +kernel
  have hcalls : (ioMachine.runList (.new 3 (· ≤ 6)) remodeRun).phase.pendingCalls = [] := by
    decide +kernel
  refine ⟨.of_follows ⟨3, (· ≤ 6), by decide, rfl⟩ (by decide +kernel), by decide +kernel,
    by decide +kernel, by rw [hlog]; decide, fun h => ?_⟩
  obtain ⟨c, -, -, hg, -, hc⟩ := h 6 ⟨2, false, .write, 2⟩ (by rw [hlog]; decide)
  rw [hlog, hcalls] at hc
  have : c = ⟨5, 1, 0, .read⟩ := by simpa using hc
  rw [this] at hg
  cases hg

/-! ### Every call is for a registration the event was reported for -/

namespace IoState

variable {s s' : IoState}

/-- A registration for a descriptor whose event is still to be handled asks for nothing the event
reports. -/
def Unrelated (s : IoState) (a : Action) : Prop :=
  ∀ r ∈ a.registers?, ∀ ev ∈ s.phase.pendingEvents, ev.fd = r.1 → meets ev.events r.2 = false

instance (s : IoState) (a : Action) : Decidable (s.Unrelated a) :=
  inferInstanceAs (Decidable (∀ r ∈ a.registers?, ∀ ev ∈ s.phase.pendingEvents, _ → _ = _))

/-- The events still to be handled find the entries they were reported for, or none that asks for
them; and the calls of the event being handled are for such entries. -/
structure Known (s : IoState) : Prop where
  events : ∀ ev ∈ s.phase.pendingEvents, ev.fd ≠ s.wakeFd → ∀ e, s.staged ev.fd = some e →
    s.snapshot ev.fd = some e ∨ meets ev.events e.mode = false
  calls : ∀ c ∈ s.phase.currentCalls,
    ∃ e, s.snapshot c.fd = some e ∧ e.generation = c.generation

/-- The snapshot is taken in `epoll_wait`. -/
theorem snapshot_next {a : Action} (ha : s.Enabled a) :
    (s.next a).snapshot = s.snapshot ∨ ∃ t now, s.phase = .wait t now := by
  cases loopStep ha with
  | returns t now evs hw => exact .inr ⟨t, now, hw⟩
  | stay _ _ _ hs | skip _ _ _ _ hs | found _ _ _ _ _ _ _ hs | call _ _ _ _ _ hs
  | back _ _ _ _ _ hs => exact .inl hs

theorem known_next (h : Known s) (hu : RegistersInUserCode s) {a : Action} (ha : s.Enabled a)
    (hC : s.Unrelated a) : Known (s.next a) := by
  refine ⟨fun ev hev hne e he => ?_, fun c hc => ?_⟩
  · rw [wakeFd_next] at hne
    rcases pendingEvents_next ha hev with hev | ⟨⟨t, now, evs, rfl, hw⟩, -⟩
    · have hs : (s.next a).snapshot = s.snapshot := by
        rcases snapshot_next ha with hs | ⟨t, now, hw⟩
        · exact hs
        · rw [hw] at hev; cases hev
      rw [hs]
      rcases staged_next hu ha he with he | ⟨persistent, w, rfl⟩
      · exact h.events ev hev hne e he
      · exact .inr (hC (ev.fd, e.mode) rfl ev hev rfl)
    · -- the batch starts: the table is the snapshot
      rcases staged_next hu ha he with he | ⟨_, _, ⟨⟩⟩
      have hr : s.registering = none := by
        by_contra hr
        have := hu hr
        rw [hw] at this; cases this
      exact .inl (((staged_of_none hr ev.fd).symm.trans he))
  · cases loopStep ha with
    | stay _ _ hc' hs => rw [hs]; exact h.calls c (hc' ▸ hc)
    | returns t now evs _ _ he => rw [he] at hc; cases hc
    | skip ev evs _ he => rw [he] at hc; cases hc
    | found ev evs e hb hfd hw he hs =>
        rw [he] at hc
        rw [hs]
        have hc : c ∈ if s.alive e.watcher then RustIo.calls ev.fd ev.events e else [] := hc
        split at hc
        · obtain ⟨hcfd, -, hg, hd⟩ := mem_calls.mp hc
          have hm : meets ev.events e.mode = true := meets_iff.mpr ⟨_, hd⟩
          rcases h.events ev (by rw [hb]; exact .head _) hfd e ((staged_of_batch hu hb _).trans hw)
            with hk | hk
          · exact ⟨e, hcfd ▸ hk, hg.symm⟩
          · rw [hm] at hk; cases hk
        · cases hc
    | call c' cs evs hb he hs => rw [hs]; exact h.calls c (by rw [hb]; rw [he] at hc; exact hc)
    | back c' cs evs hb he hs =>
        rw [hs]
        refine h.calls c ?_
        rw [he] at hc
        rw [hb]; exact .tail _ hc

end IoState

/-- **No stale delivery**, in every run whose registrations are unrelated to the events still to be
handled: whenever a watcher is being called, the call's registration was in the table when
`epoll_wait` returned the event. -/
theorem called_watch_was_reported {s : IoState} (h : ioMachine.ReachableBy IoState.Unrelated s)
    {c : Call} {cs : List Call} {evs : List EpollEvent} (hc : s.phase = .inCallback c cs evs) :
    ∃ e, s.snapshot c.fd = some e ∧ e.generation = c.generation := by
  have known : s.Known := by
    refine h.invariant (fun s h₀ => ?_) fun s a hr hi hC ha =>
      IoState.known_next hi (reachable_registersInUserCode hr) ha hC
    obtain ⟨wakeFd, isOpen, -, rfl⟩ := h₀
    exact ⟨nofun, nofun⟩
  exact known.calls c (by rw [hc]; exact .head _)

theorem batchRun_was_reported :
    let s := ioMachine.runList (.new 3 (· ≤ 6)) batchRun
    s.phase = .inCallback ⟨5, 1, 0, .read⟩ [] [⟨epollIn, 6⟩] ∧
      ∃ e, s.snapshot 5 = some e ∧ e.generation = 0 := by
  have reached := Machine.ReachableBy.of_follows (M := ioMachine) (C := IoState.Unrelated)
    (s := .new 3 (· ≤ 6)) (l := batchRun) ⟨3, (· ≤ 6), by decide, rfl⟩ (by decide +kernel)
  have hc : (ioMachine.runList (.new 3 (· ≤ 6)) batchRun).phase =
      .inCallback ⟨5, 1, 0, .read⟩ [] [⟨epollIn, 6⟩] := by decide +kernel
  exact ⟨hc, called_watch_was_reported reached hc⟩

/-- The callback for descriptor 5 closes descriptor 6, opens another one with the same number, and
watches it; then the event of the old one is handled. -/
def staleRun : List IoState.Action :=
  batchRun ++
    [.closeFd 6, .openFd 6, .io (.registerCtl 6 false .read 7 true),
     .io (.registerInsert 6 ⟨7, false, .read, 2⟩),
     .io (.callbackReturns ⟨5, 1, 0, .read⟩ [] [⟨epollIn, 6⟩]), .io (.endCalls [⟨epollIn, 6⟩]),
     .io (.handle ⟨epollIn, 6⟩ []), .io (.call ⟨6, 7, 2, .read⟩ [] [])]

/-- The watcher of the new descriptor is called, and its registration was not in the table when
`epoll_wait` returned. -/
theorem staleRun_not_known :
    let s := ioMachine.runList (.new 3 (· ≤ 6)) staleRun
    ioMachine.Reachable s ∧ s.phase = .inCallback ⟨6, 7, 2, .read⟩ [] [] ∧
      ¬ ∃ e, s.snapshot 6 = some e ∧ e.generation = 2 := by
  have snap : (ioMachine.runList (.new 3 (· ≤ 6)) staleRun).snapshot 6 =
      some ⟨2, false, .read, 1⟩ := by decide +kernel
  refine ⟨.of_follows ⟨3, (· ≤ 6), by decide, rfl⟩ (by decide +kernel), by decide +kernel, ?_⟩
  rintro ⟨e, he, hg⟩
  rw [snap] at he; cases he
  cases hg

end RustIo
