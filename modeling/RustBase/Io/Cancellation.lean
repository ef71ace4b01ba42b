import RustBase.Io.Dispatch

/-!
# Io — cancelling a watch

`unregister_fd` takes the entry out of the table, so no later event finds it.  But the dispatch loop
copies the watcher and the two directions out of the entry before it makes the calls, and a call
that has been collected is made whatever happens to the entry: a persistent watch that is cancelled
inside its first callback, or by another thread at that time, is still called for the other
direction.

* `CancelFinal`: no call of a registration begins after an `unregister_fd` of it returned `true`.
* `Settling`: the step cancels no watch whose call has been collected and not begun.
* **`cancel_final`**: runs whose steps are settling keep `CancelFinal`, and a step that is not
  settling has a continuation that breaks it.
-/

namespace RustIo
open Support RustTask

/-- `y` is a call of the registration that `x` cancelled. -/
def LateCall (x y : IoEvent) : Prop :=
  ∃ c : Call, x = .cancelled c.fd c.generation ∧ y = .called c

namespace IoState

variable {s s' : IoState}

/-- No call of a registration begins after it has been cancelled. -/
def CancelFinal (s : IoState) : Prop := s.log.Pairwise fun x y => ¬ LateCall x y

/-- A watch is not cancelled while a call of it has been collected and not begun. -/
def Settling (s : IoState) : Action → Prop
  | .unregister fd generation => s.table.Matches fd generation →
      ∀ c ∈ s.phase.pendingCalls, c.fd = fd → c.generation ≠ generation
  | _ => True

instance (s : IoState) : ∀ a, Decidable (s.Settling a)
  | .unregister _ _ => inferInstanceAs (Decidable (_ → ∀ c ∈ s.phase.pendingCalls, _ → _ ≠ _))
  | .io _ | .poster _ _ | .openFd _ | .closeFd _ | .dropWatcher _ | .tick _ =>
      inferInstanceAs (Decidable True)

/-! ### Generations -/

theorem generationCounter_le (a : Action) :
    s.table.generationCounter ≤ (s.next a).table.generationCounter := by
  cases a with
  | io a =>
      cases a with
      | popTask => simp only [next, ioNext]; split <;> exact Nat.le_refl _
      | handle ev evs =>
          simp only [next, ioNext, dispatch, setPhase, emit]
          split
          · exact Nat.le_refl _
          · split
            · exact Nat.le_refl _
            · split <;> split <;> exact Nat.le_refl _
      | registerCtl fd persistent mode w ok => cases ok <;> exact Nat.le_succ _
      | _ => exact Nat.le_refl _
  | poster p a =>
      cases a with
      | post delay => simp only [next, posterNext]; split <;> exact Nat.le_refl _
      | _ => exact Nat.le_refl _
  | unregister fd g => simp only [next, unregister]; split <;> exact Nat.le_refl _
  | _ => exact Nat.le_refl _

/-- The generations in use were given out, and the registration in progress has one of its own. -/
structure Numbered (s : IoState) : Prop where
  table : ∀ fd e, s.table.watches fd = some e → e.generation < s.table.generationCounter
  registering : ∀ r e, s.registering = some (r, e) → e.generation < s.table.generationCounter
  apart : ∀ r e, s.registering = some (r, e) → ∀ fd e', s.table.watches fd = some e' →
    e'.generation ≠ e.generation

theorem numbered_next (h : Numbered s) {a : Action} (ha : s.Enabled a) : Numbered (s.next a) := by
  have le := generationCounter_le (s := s) a
  -- a table with entries of the old one only
  have fewer : (∀ fd e, (s.next a).table.watches fd = some e → s.table.watches fd = some e) →
      (s.next a).registering = s.registering → Numbered (s.next a) := by
    intro hw hr
    refine ⟨fun fd e he => (h.table fd e (hw fd e he)).trans_le le, ?_, ?_⟩
    · intro r e he
      exact (h.registering r e (hr ▸ he)).trans_le le
    · intro r e he fd e' he'
      exact h.apart r e (hr ▸ he) fd e' (hw fd e' he')
  have erased : ∀ {fd' : Fd}, (s.next a).table.watches = Function.update s.table.watches fd' none →
      (s.next a).registering = s.registering → Numbered (s.next a) := by
    intro fd' hw hr
    refine fewer (fun fd e he => ?_) hr
    rw [hw] at he
    exact (update_none_eq_some.mp he).2
  cases tableStep ha with
  | same hw _ _ hr => exact fewer (fun fd e he => hw ▸ he) hr
  | ctl fd' persistent mode w _ _ _ _ hw _ _ hr =>
      refine ⟨fun fd e he => (h.table fd e (hw ▸ he)).trans_le le, ?_, ?_⟩
      · intro r e he
        rw [hr] at he; cases he
        exact Nat.lt_succ_self _
      · intro r e he fd e' he'
        rw [hr] at he; cases he
        exact Nat.ne_of_lt (h.table fd e' (hw ▸ he'))
  | insert fd' e₀ h₀ hw _ _ hr =>
      refine ⟨fun fd e he => ?_, fun r e he => ?_, fun r e he => ?_⟩
      · rw [hw] at he
        rcases update_some_eq_some.mp he with ⟨rfl, rfl⟩ | ⟨-, he⟩
        · exact (h.registering _ _ h₀).trans_le le
        · exact (h.table fd e he).trans_le le
      · rw [hr] at he; cases he
      · rw [hr] at he; cases he
  | consume ev evs e₀ _ _ hw _ _ hr => exact erased hw hr
  | cancel fd' g _ hw _ _ hr => exact erased hw hr
  | opened fd' _ hw _ _ hr => exact fewer (fun fd e he => hw ▸ he) hr
  | closed fd' hw _ _ hr => exact fewer (fun fd e he => hw ▸ he) hr

/-! ### The log -/

/-- A step appends at most one event: a cancellation is an `unregister_fd` that finds its entry, a
call is the next one of the dispatch loop. -/
theorem log_next {a : Action} (ha : s.Enabled a) :
    (s.next a).log = s.log ∨ ∃ x, (s.next a).log = s.log ++ [x] ∧
      (∀ fd g, x = .cancelled fd g → a = .unregister fd g ∧ s.table.Matches fd g) ∧
      (∀ c, x = .called c → c ∈ s.phase.pendingCalls) := by
  cases a with
  | io a =>
      cases a with
      | popTask =>
          simp only [next, ioNext]
          split
          · exact .inl rfl
          · exact .inr ⟨_, rfl, by simp, by simp⟩
      | popDelayed now t => exact .inr ⟨_, rfl, by simp, by simp⟩
      | handle ev evs =>
          simp only [next, ioNext, dispatch]
          split
          · exact .inl rfl
          · split
            · exact .inl rfl
            · rename_i e he
              cases e.persistent <;> cases s.alive e.watcher
              · exact .inl rfl
              · exact .inr ⟨.consumed ev.fd e, rfl, by simp, by simp⟩
              · exact .inl rfl
              · exact .inl rfl
      | call c cs evs =>
          refine .inr ⟨_, rfl, by simp, fun c' hc => ?_⟩
          cases hc
          rw [show s.phase = .calls (c :: cs) evs from ha]
          exact .head _
      | registerCtl fd persistent mode w ok => cases ok <;> exact .inl rfl
      | registerInsert fd e => exact .inr ⟨_, rfl, by simp, by simp⟩
      | _ => exact .inl rfl
  | poster p a =>
      cases a with
      | post delay => simp only [next, posterNext]; split <;> exact .inl rfl
      | _ => exact .inl rfl
  | unregister fd g =>
      simp only [next, unregister]
      split
      · refine .inr ⟨_, rfl, fun fd' g' he => ?_, by simp⟩
        cases he
        exact ⟨rfl, ‹_›⟩
      · exact .inl rfl
  | _ => exact .inl rfl

/-! ### What was cancelled is gone -/

/-- Nothing in the table, in the registration in progress or among the calls to come is of a
registration that was cancelled. -/
structure Retired (s : IoState) (fd : Fd) (g : ℕ) : Prop where
  below : g < s.table.generationCounter
  table : ¬ s.table.Matches fd g
  registering : ∀ e, s.registering = some (fd, e) → e.generation ≠ g
  calls : ∀ c ∈ s.phase.pendingCalls, c.fd = fd → c.generation ≠ g

/-- The calls to come were to come before, or are for the entry of the event being handled. -/
theorem pendingCalls_next {a : Action} (ha : s.Enabled a) {c : Call}
    (hc : c ∈ (s.next a).phase.pendingCalls) :
    c ∈ s.phase.pendingCalls ∨ s.table.Matches c.fd c.generation := by
  cases loopStep ha with
  | stay _ hp => exact .inl (hp ▸ hc)
  | returns _ _ _ _ _ he => rw [he] at hc; cases hc
  | skip _ _ _ he => rw [he] at hc; cases hc
  | found ev evs e hb _ hw he =>
      rw [he] at hc
      have hc : c ∈ if s.alive e.watcher then RustIo.calls ev.fd ev.events e else [] := hc
      split at hc
      · obtain ⟨hfd, -, hg, -⟩ := mem_calls.mp hc
        exact .inr ⟨e, hfd ▸ hw, hg.symm⟩
      · cases hc
  | call c' cs evs hb he => rw [he] at hc; rw [hb]; exact .inl (.tail _ hc)
  | back c' cs evs hb he => rw [he] at hc; rw [hb]; exact .inl hc

theorem retired_next {fd : Fd} {g : ℕ} (h : Retired s fd g) {a : Action} (ha : s.Enabled a) :
    Retired (s.next a) fd g := by
  have below := h.below.trans_le (generationCounter_le (s := s) a)
  have calls : ∀ c ∈ (s.next a).phase.pendingCalls, c.fd = fd → c.generation ≠ g := by
    rintro c hc rfl rfl
    rcases pendingCalls_next ha hc with hc | hm
    · exact h.calls c hc rfl rfl
    · exact h.table hm
  -- the entry of `fd` stays, or goes
  have kept : ∀ {fd' : Fd}, (s.next a).table.watches = Function.update s.table.watches fd' none →
      ¬ (s.next a).table.Matches fd g := by
    rintro fd' hw ⟨e, he, hg⟩
    rw [hw] at he
    exact h.table ⟨e, (update_none_eq_some.mp he).2, hg⟩
  have same : (s.next a).table.watches = s.table.watches → ¬ (s.next a).table.Matches fd g := by
    rintro hw ⟨e, he, hg⟩
    exact h.table ⟨e, hw ▸ he, hg⟩
  cases tableStep ha with
  | same hw _ _ hr => exact ⟨below, same hw, fun e he => h.registering e (hr ▸ he), calls⟩
  | ctl fd' persistent mode w _ _ _ _ hw _ _ hr =>
      refine ⟨below, same hw, fun e he => ?_, calls⟩
      rw [hr] at he; cases he
      exact (Nat.ne_of_lt h.below).symm
  | insert fd' e₀ h₀ hw _ _ hr =>
      refine ⟨below, ?_, fun e he => ?_, calls⟩
      · rintro ⟨e, he, hg⟩
        rw [hw] at he
        rcases update_some_eq_some.mp he with ⟨rfl, rfl⟩ | ⟨-, he⟩
        · exact h.registering _ h₀ hg
        · exact h.table ⟨e, he, hg⟩
      · rw [hr] at he; cases he
  | consume ev evs e₀ _ _ hw _ _ hr =>
      exact ⟨below, kept hw, fun e he => h.registering e (hr ▸ he), calls⟩
  | cancel fd' g' _ hw _ _ hr =>
      exact ⟨below, kept hw, fun e he => h.registering e (hr ▸ he), calls⟩
  | opened fd' _ hw _ _ hr =>
      exact ⟨below, same hw, fun e he => h.registering e (hr ▸ he), calls⟩
  | closed fd' hw _ _ hr => exact ⟨below, same hw, fun e he => h.registering e (hr ▸ he), calls⟩

/-- The cancellation itself. -/
theorem retired_unregister (hn : Numbered s) {fd : Fd} {g : ℕ} (hm : s.table.Matches fd g)
    (hC : s.Settling (.unregister fd g)) : Retired (s.next (.unregister fd g)) fd g := by
  obtain ⟨e, he, rfl⟩ := id hm
  simp only [next, unregister, if_pos hm]
  refine ⟨hn.table fd e he, ?_, fun e' he' => ?_, hC hm⟩
  · rintro ⟨e', he', -⟩
    have gone : (s.table.remove fd).watches fd = none := Function.update_self ..
    cases gone.symm.trans he'
  · exact (hn.apart fd e' he' fd e he).symm

end IoState

theorem reachable_numbered {C : IoState → IoState.Action → Prop} {s : IoState}
    (h : ioMachine.ReachableBy C s) : s.Numbered := by
  refine h.invariant (fun s h₀ => ?_) fun s a _ hi _ ha => IoState.numbered_next hi ha
  obtain ⟨wakeFd, isOpen, -, rfl⟩ := h₀
  exact ⟨nofun, nofun, nofun⟩

theorem reachable_retired {s : IoState} (h : ioMachine.ReachableBy IoState.Settling s) :
    ∀ fd g, .cancelled fd g ∈ s.log → s.Retired fd g := by
  refine h.invariant (I := fun s => ∀ fd g, .cancelled fd g ∈ s.log → s.Retired fd g)
    (fun s h₀ => ?_) fun s a hr hi hC ha => ?_
  · obtain ⟨wakeFd, isOpen, -, rfl⟩ := h₀
    exact nofun
  · intro fd g hm
    rcases IoState.log_next ha with hl | ⟨x, hl, hx, -⟩
    · exact IoState.retired_next (hi fd g (hl ▸ hm)) ha
    · rcases List.mem_append.mp (hl ▸ hm) with hm | hm
      · exact IoState.retired_next (hi fd g hm) ha
      · obtain ⟨rfl, hmatch⟩ := hx fd g (List.mem_singleton.mp hm).symm
        exact IoState.retired_unregister (reachable_numbered hr) hmatch hC

theorem reachable_cancelFinal {s : IoState} (h : ioMachine.ReachableBy IoState.Settling s) :
    s.CancelFinal := by
  refine h.invariant (fun s h₀ => ?_) fun s a hr hi _ ha => ?_
  · obtain ⟨wakeFd, isOpen, -, rfl⟩ := h₀
    exact .nil
  · rcases IoState.log_next ha with hl | ⟨x, hl, -, hx⟩
    · exact (congrArg (List.Pairwise _) hl).mpr hi
    · refine (congrArg (List.Pairwise _) hl).mpr (List.pairwise_append.mpr ⟨hi, ?_, ?_⟩)
      · exact List.pairwise_singleton ..
      · -- a call that begins was to come, so its registration is not a cancelled one
        intro y hy x' hx' hlate
        rw [List.mem_singleton.mp hx'] at hlate
        obtain ⟨c, rfl, rfl⟩ := hlate
        exact (reachable_retired hr c.fd c.generation hy).calls c (hx c rfl) rfl rfl

/-! ### A call that was collected begins -/

namespace IoState

variable {s : IoState}

theorem run_next {a : Action} (ha : s.Enabled a) :
    ioMachine.Run (fun _ _ => True) s (s.next a) :=
  Machine.Run.more (M := ioMachine) (a := a) .refl trivial ha

/-- The loop goes on to a call that is to come; the log grows by what it does on the way. -/
theorem call_begins {c : Call} {evs : List EpollEvent} : ∀ {cs : List Call} {s : IoState},
    c ∈ cs → s.phase = .calls cs evs → s.registering = none →
    ∃ s' l, ioMachine.Run (fun _ _ => True) s s' ∧ s'.log = s.log ++ l ∧ .called c ∈ l := by
  intro cs
  induction cs with
  | nil => exact fun hc => absurd hc List.not_mem_nil
  | cons c₀ cs ih =>
      intro s hc hp hr
      have begun : ioMachine.Run (fun _ _ => True) s (s.next (.io (.call c₀ cs evs))) :=
        run_next hp
      rcases List.mem_cons.mp hc with rfl | hc
      · exact ⟨_, [.called c], begun, rfl, .head _⟩
      · -- the callback of the first call returns, and the loop is at the rest
        obtain ⟨s', l, hrun, hl, hm⟩ := ih (s := (s.next (.io (.call c₀ cs evs))).next
          (.io (.callbackReturns c₀ cs evs))) hc rfl hr
        refine ⟨s', [.called c₀] ++ l, ?_, ?_, List.mem_append_right _ hm⟩
        · have back := run_next (s := s.next (.io (.call c₀ cs evs)))
            (a := .io (.callbackReturns c₀ cs evs)) ⟨rfl, hr⟩
          exact (begun.trans back).trans hrun
        · rw [hl, ← List.append_assoc]; rfl

/-- So does a call that is to come when the IO thread is in a callback, perhaps registering. -/
theorem pending_begins {c : Call} (hc : c ∈ s.phase.pendingCalls)
    (hu : RegistersInUserCode s) :
    ∃ s' l, ioMachine.Run (fun _ _ => True) s s' ∧ s'.log = s.log ++ l ∧ .called c ∈ l := by
  cases hp : s.phase with
  | calls cs evs =>
      rw [hp] at hc
      refine call_begins hc hp ?_
      by_contra hne
      have := hu hne
      rw [hp] at this; cases this
  | inCallback c₀ cs evs =>
      rw [hp] at hc
      have back : ∀ {s : IoState}, s.phase = .inCallback c₀ cs evs → s.registering = none →
          ∃ s' l, ioMachine.Run (fun _ _ => True) s s' ∧ s'.log = s.log ++ l ∧ .called c ∈ l := by
        intro s hp hr
        obtain ⟨s', l, hrun, hl, hm⟩ :=
          call_begins (s := s.next (.io (.callbackReturns c₀ cs evs))) hc rfl hr
        have hnext := run_next (a := .io (.callbackReturns c₀ cs evs)) ⟨hp, hr⟩
        exact ⟨s', l, hnext.trans hrun, hl, hm⟩
      cases hr : s.registering with
      | none => exact back hp hr
      | some x =>
          obtain ⟨fd, e⟩ := x
          obtain ⟨s', l, hrun, hl, hm⟩ := back (s := s.next (.io (.registerInsert fd e))) hp rfl
          refine ⟨s', [.registered fd e] ++ l, ?_, ?_, List.mem_append_right _ hm⟩
          · exact (run_next (a := .io (.registerInsert fd e)) hr).trans hrun
          · rw [hl, ← List.append_assoc]; rfl
  | _ => rw [hp] at hc; cases hc

/-- A step that cancels a watch whose call has been collected has a continuation in which that call
begins. -/
theorem late_of_not_settling (hu : RegistersInUserCode s) {a : Action} (ha : ¬ s.Settling a) :
    ∃ s', ioMachine.Run (fun _ _ => True) (s.next a) s' ∧ ¬ s'.CancelFinal := by
  cases a with
  | unregister fd g =>
      simp only [Settling] at ha
      push Not at ha
      obtain ⟨hm, c, hc, rfl, rfl⟩ := ha
      have hnext : s.next (.unregister c.fd c.generation) = _ := if_pos hm
      have pending : c ∈ (s.next (.unregister c.fd c.generation)).phase.pendingCalls := by
        rw [hnext]; exact hc
      have user : RegistersInUserCode (s.next (.unregister c.fd c.generation)) := by
        rw [hnext]; exact hu
      obtain ⟨s', l, hrun, hl, hcalled⟩ := pending_begins pending user
      refine ⟨s', hrun, fun hf => ?_⟩
      rw [CancelFinal, hl] at hf
      refine (List.pairwise_append.mp hf).2.2 (.cancelled c.fd c.generation) ?_ _ hcalled
        ⟨c, rfl, rfl⟩
      rw [hnext]
      exact List.mem_append_right _ (.head _)
  | _ => exact absurd trivial ha

end IoState

/-- **Cancelling is final, when no call has been collected.**  In every run that cancels no watch
while a call of it has been collected and not begun, no call of a registration begins after an
`unregister_fd` of it returned `true`.  And from every reachable state a step that does so has a
continuation in which such a call begins. -/
theorem cancel_final (s : IoState) :
    (ioMachine.ReachableBy IoState.Settling s → s.CancelFinal) ∧
    (ioMachine.Reachable s → ∀ a, ¬ s.Settling a →
      ∃ s', ioMachine.Run (fun _ _ => True) (s.next a) s' ∧ ¬ s'.CancelFinal) := by
  refine ⟨fun h => reachable_cancelFinal h, fun h a ha => ?_⟩
  exact IoState.late_of_not_settling (reachable_registersInUserCode h) ha

/-- A persistent watch of descriptor 5 for both directions is reported ready in both, and its read
callback is running. -/
def readRun : List IoState.Action :=
  [.poster 0 (.post none), .poster 0 (.push 0), .poster 0 .write, .io .popTask,
   .io (.registerCtl 5 true .readWrite 1 true), .io (.registerInsert 5 ⟨1, true, .readWrite, 0⟩),
   .io (.taskReturns 0), .io .popTask, .io .readNow, .io (.noDelayed 0), .io .peek,
   .io (.checkQuit none), .io (.computeTimeout none),
   .io (.epollReturns (-1) 0 [⟨epollIn ||| epollOut, 5⟩]),
   .io (.handle ⟨epollIn ||| epollOut, 5⟩ []),
   .io (.call ⟨5, 1, 0, .read⟩ [⟨5, 1, 0, .write⟩] [])]

/-- `readRun` is settling; cancelling its watch now would not be. -/
theorem readRun_final :
    let s := ioMachine.runList (.new 3 (· ≤ 5)) readRun
    s.CancelFinal ∧
      ∃ s', ioMachine.Run (fun _ _ => True) (s.next (.unregister 5 0)) s' ∧ ¬ s'.CancelFinal := by
  have settling : ioMachine.Follows IoState.Settling (.new 3 (· ≤ 5)) readRun := by decide +kernel
  have any : ioMachine.Follows (fun _ _ => True) (.new 3 (· ≤ 5)) readRun := by decide +kernel
  have init : ioMachine.Init (.new 3 (· ≤ 5)) := ⟨3, (· ≤ 5), by decide, rfl⟩
  exact ⟨(cancel_final _).1 (.of_follows init settling),
    (cancel_final _).2 (.of_follows init any) _ (by decide +kernel)⟩

/-- The read callback cancels the watch and returns. -/
def stopRun : List IoState.Action :=
  readRun ++
    [.unregister 5 0, .io (.callbackReturns ⟨5, 1, 0, .read⟩ [⟨5, 1, 0, .write⟩] []),
     .io (.call ⟨5, 1, 0, .write⟩ [] [])]

/-- The write callback begins after the cancellation. -/
theorem stopRun_not_final :
    let s := ioMachine.runList (.new 3 (· ≤ 5)) stopRun
    ioMachine.Reachable s ∧
      s.log = [.ran 0, .registered 5 ⟨1, true, .readWrite, 0⟩, .called ⟨5, 1, 0, .read⟩,
        .cancelled 5 0, .called ⟨5, 1, 0, .write⟩] ∧ ¬ s.CancelFinal := by
  have hlog : (ioMachine.runList (.new 3 (· ≤ 5)) stopRun).log =
      [.ran 0, .registered 5 ⟨1, true, .readWrite, 0⟩, .called ⟨5, 1, 0, .read⟩,
        .cancelled 5 0, .called ⟨5, 1, 0, .write⟩] := by decide +kernel
  refine ⟨.of_follows ⟨3, (· ≤ 5), by decide, rfl⟩ (by decide +kernel), hlog, fun h => ?_⟩
  rw [IoState.CancelFinal, hlog] at h
  simp only [List.pairwise_cons] at h
  obtain ⟨-, -, -, late, -⟩ := h
  exact late _ (.head _) ⟨⟨5, 1, 0, .write⟩, rfl, rfl⟩

end RustIo
