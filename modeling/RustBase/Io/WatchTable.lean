import RustBase.Io.IoThread

/-!
# Io — the watch table and the interest list

`register_fd` tells the kernel first and takes the lock of the table afterwards, while
`unregister_fd` does both under the lock, keyed by the generation of the entry it finds.  `staged`
is the table as it will be once the registration in progress has been inserted.

* `Backed`: the kernel never watches a descriptor that the staged table does not have, with the same
  mode.  This holds in every run.
* `Agrees`: on open descriptors the converse holds too, in runs whose steps are `Orderly`: no
  watch is cancelled while its descriptor is being registered anew, and no number of a descriptor is
  reused while the staged table has an entry for it.
* `disorderly_runs_disagree`: either condition is needed.
-/

namespace RustIo
open Support RustTask

/-- The mask an entry is registered with. -/
def WatchEntry.mask (e : WatchEntry) : UInt32 := modeToEpollEvents e.mode

namespace IoState

variable {s s' : IoState}

/-- The table with the registration in progress inserted. -/
def staged (s : IoState) (fd : Fd) : Option WatchEntry :=
  match s.registering with
  | some (r, e) => if r = fd then some e else s.table.watches fd
  | none => s.table.watches fd

/-! ### What a step does -/

/-- What a step does to the table, the interest list, the open descriptors and the registration in
progress. -/
inductive TableStep (s : IoState) : Action → IoState → Prop where
  | same {a : Action} {s' : IoState} (hw : s'.table.watches = s.table.watches)
      (hi : s'.kernel.interest = s.kernel.interest) (ho : s'.kernel.isOpen = s.kernel.isOpen)
      (hr : s'.registering = s.registering) : TableStep s a s'
  | ctl (fd : Fd) (persistent : Bool) (mode : WatchMode) (w : WatcherId) {s' : IoState}
      (hu : s.phase.userCode = true) (h₀ : s.registering = none) (hfd : fd ≠ s.wakeFd)
      (hopen : s.kernel.isOpen fd = true) (hw : s'.table.watches = s.table.watches)
      (hi : s'.kernel.interest =
        Function.update s.kernel.interest fd (some (modeToEpollEvents mode)))
      (ho : s'.kernel.isOpen = s.kernel.isOpen)
      (hr : s'.registering = some (fd, ⟨w, persistent, mode, s.table.generationCounter⟩)) :
      TableStep s (.io (.registerCtl fd persistent mode w true)) s'
  | insert (fd : Fd) (e : WatchEntry) {s' : IoState} (h₀ : s.registering = some (fd, e))
      (hw : s'.table.watches = Function.update s.table.watches fd (some e))
      (hi : s'.kernel.interest = s.kernel.interest) (ho : s'.kernel.isOpen = s.kernel.isOpen)
      (hr : s'.registering = none) : TableStep s (.io (.registerInsert fd e)) s'
  | consume (ev : EpollEvent) (evs : List EpollEvent) (e : WatchEntry) {s' : IoState}
      (hp : s.phase = .batch (ev :: evs)) (he : s.table.watches ev.fd = some e)
      (hw : s'.table.watches = Function.update s.table.watches ev.fd none)
      (hi : s'.kernel.interest = Function.update s.kernel.interest ev.fd none)
      (ho : s'.kernel.isOpen = s.kernel.isOpen) (hr : s'.registering = s.registering) :
      TableStep s (.io (.handle ev evs)) s'
  | cancel (fd : Fd) (generation : ℕ) {s' : IoState} (hm : s.table.Matches fd generation)
      (hw : s'.table.watches = Function.update s.table.watches fd none)
      (hi : s'.kernel.interest = Function.update s.kernel.interest fd none)
      (ho : s'.kernel.isOpen = s.kernel.isOpen) (hr : s'.registering = s.registering) :
      TableStep s (.unregister fd generation) s'
  | opened (fd : Fd) {s' : IoState} (hopen : s.kernel.isOpen fd = false)
      (hw : s'.table.watches = s.table.watches) (hi : s'.kernel.interest = s.kernel.interest)
      (ho : s'.kernel.isOpen = Function.update s.kernel.isOpen fd true)
      (hr : s'.registering = s.registering) : TableStep s (.openFd fd) s'
  | closed (fd : Fd) {s' : IoState} (hw : s'.table.watches = s.table.watches)
      (hi : s'.kernel.interest = Function.update s.kernel.interest fd none)
      (ho : s'.kernel.isOpen = Function.update s.kernel.isOpen fd false)
      (hr : s'.registering = s.registering) : TableStep s (.closeFd fd) s'

theorem tableStep {a : Action} (ha : s.Enabled a) : TableStep s a (s.next a) := by
  cases a with
  | io a =>
      cases a with
      | popTask =>
          simp only [next, ioNext]
          split <;> exact .same rfl rfl rfl rfl
      | handle ev evs =>
          simp only [next, ioNext, dispatch]
          split
          · exact .same rfl rfl rfl rfl
          · split
            · exact .same rfl rfl rfl rfl
            · rename_i e he
              cases hp : e.persistent with
              | true => exact .same rfl rfl rfl rfl
              | false =>
                  refine .consume ev evs e ha he ?_ ?_ ?_ ?_ <;>
                    (cases hw : s.alive e.watcher <;> rfl)
      | registerCtl fd persistent mode w ok =>
          cases ok with
          | false => exact .same rfl rfl rfl rfl
          | true =>
              obtain ⟨hu, h₀, hfd, ho⟩ := ha
              exact .ctl fd persistent mode w hu h₀ hfd (ho rfl) rfl rfl rfl rfl
      | registerInsert fd e => exact .insert fd e ha rfl rfl rfl rfl
      | _ => exact .same rfl rfl rfl rfl
  | poster p a =>
      cases a with
      | post delay =>
          simp only [next, posterNext]
          split <;> exact .same rfl rfl rfl rfl
      | _ => exact .same rfl rfl rfl rfl
  | unregister fd g =>
      simp only [next, unregister]
      split
      · exact .cancel fd g ‹_› rfl rfl rfl rfl
      · exact .same rfl rfl rfl rfl
  | openFd fd => exact .opened fd ha rfl rfl rfl rfl
  | closeFd fd => exact .closed fd rfl rfl rfl rfl
  | dropWatcher w | tick d => exact .same rfl rfl rfl rfl

theorem wakeFd_next (a : Action) : (s.next a).wakeFd = s.wakeFd := by
  cases a with
  | io a =>
      cases a with
      | popTask => simp only [next, ioNext]; split <;> rfl
      | handle ev evs =>
          simp only [next, ioNext, dispatch, setPhase, emit]
          split
          · rfl
          · split
            · rfl
            · split <;> split <;> rfl
      | registerCtl fd persistent mode w ok => cases ok <;> rfl
      | _ => rfl
  | poster p a =>
      cases a with
      | post delay => simp only [next, posterNext]; split <;> rfl
      | _ => rfl
  | unregister fd g => simp only [next, unregister]; split <;> rfl
  | _ => rfl

/-- A registration in progress is made by a task or a callback. -/
def RegistersInUserCode (s : IoState) : Prop :=
  s.registering ≠ none → s.phase.userCode = true

/-- The task or callback that is registering does nothing else. -/
theorem phase_next_of_registering {a : Action} (ha : s.Enabled a) (hr : s.registering ≠ none)
    (hu : s.phase.userCode = true) : (s.next a).phase = s.phase := by
  have other : ∀ {x : IoPhase}, s.phase = x → x.userCode = false → False := fun hx hf => by
    rw [hx, hf] at hu; cases hu
  cases a with
  | io a =>
      cases a with
      | popTask | readNow | peek | checkQuit | computeTimeout | epollInterrupted | epollFails
      | endBatch | call | endCalls | handle => exact (other ha rfl).elim
      | popDelayed | noDelayed | epollReturns => exact (other ha.1 rfl).elim
      | taskReturns | delayedReturns | callbackReturns => exact absurd ha.2 hr
      | registerCtl fd persistent mode w ok => cases ok <;> rfl
      | registerInsert fd e => rfl
  | poster p a =>
      cases a with
      | post delay => simp only [next, posterNext]; split <;> rfl
      | _ => rfl
  | unregister fd g => simp only [next, unregister]; split <;> rfl
  | openFd | closeFd | dropWatcher | tick => rfl

theorem registersInUserCode_next (h : RegistersInUserCode s) {a : Action} (ha : s.Enabled a) :
    RegistersInUserCode (s.next a) := by
  intro hr
  by_cases h₀ : s.registering = none
  · -- only the `epoll_ctl` of a task or callback starts a registration
    cases tableStep ha with
    | ctl _ _ _ _ hu => exact hu
    | insert _ _ h₁ => rw [h₀] at h₁; cases h₁
    | same _ _ _ hr' | consume _ _ _ _ _ _ _ _ hr' | cancel _ _ _ _ _ _ hr'
    | opened _ _ _ _ _ hr' | closed _ _ _ _ hr' => exact absurd (hr'.trans h₀) hr
  · rw [phase_next_of_registering ha h₀ (h h₀)]
    exact h h₀

end IoState

theorem reachable_registersInUserCode {C : IoState → IoState.Action → Prop} {s : IoState}
    (h : ioMachine.ReachableBy C s) : s.RegistersInUserCode := by
  refine h.invariant (fun s h₀ => ?_) fun s a _ hi _ ha => IoState.registersInUserCode_next hi ha
  obtain ⟨wakeFd, isOpen, -, rfl⟩ := h₀
  exact fun hr => absurd rfl hr

/-! ### One descriptor -/

namespace IoState

variable {s s' : IoState}

/-- What a step does to one descriptor: whether it is open, on the interest list, and in the staged
table. -/
inductive FdStep (s s' : IoState) (fd : Fd) : Action → Prop where
  | same {a : Action} (ho : s'.kernel.isOpen fd = s.kernel.isOpen fd)
      (hi : s'.kernel.interest fd = s.kernel.interest fd) (hs : s'.staged fd = s.staged fd) :
      FdStep s s' fd a
  | registered (persistent : Bool) (mode : WatchMode) (w : WatcherId)
      (hopen : s.kernel.isOpen fd = true) (ho : s'.kernel.isOpen fd = s.kernel.isOpen fd)
      (hi : s'.kernel.interest fd = some (modeToEpollEvents mode))
      (hs : s'.staged fd = some ⟨w, persistent, mode, s.table.generationCounter⟩) :
      FdStep s s' fd (.io (.registerCtl fd persistent mode w true))
  | removed {a : Action} (ho : s'.kernel.isOpen fd = s.kernel.isOpen fd)
      (hi : s'.kernel.interest fd = none) (hs : s'.staged fd = none) : FdStep s s' fd a
  /-- cancelled while it is being registered anew -/
  | raced (e : WatchEntry) (generation : ℕ) (hr : s.registering = some (fd, e))
      (hm : s.table.Matches fd generation) (ho : s'.kernel.isOpen fd = s.kernel.isOpen fd)
      (hi : s'.kernel.interest fd = none) (hs : s'.staged fd = s.staged fd) :
      FdStep s s' fd (.unregister fd generation)
  | opened (hopen : s.kernel.isOpen fd = false) (ho : s'.kernel.isOpen fd = true)
      (hi : s'.kernel.interest fd = s.kernel.interest fd) (hs : s'.staged fd = s.staged fd) :
      FdStep s s' fd (.openFd fd)
  | closed {a : Action} (ho : s'.kernel.isOpen fd = false) (hi : s'.kernel.interest fd = none)
      (hs : s'.staged fd = s.staged fd) : FdStep s s' fd a

theorem staged_congr {fd : Fd} (hw : s'.table.watches fd = s.table.watches fd)
    (hr : s'.registering = s.registering) : s'.staged fd = s.staged fd := by
  unfold staged
  rw [hw, hr]

theorem staged_of_none (hr : s.registering = none) (fd : Fd) :
    s.staged fd = s.table.watches fd := by
  unfold staged
  rw [hr]

theorem fdStep (hu : RegistersInUserCode s) {a : Action} (ha : s.Enabled a) (fd : Fd) :
    FdStep s (s.next a) fd a := by
  cases tableStep ha with
  | same hw hi ho hr => exact .same (by rw [ho]) (by rw [hi]) (staged_congr (by rw [hw]) hr)
  | ctl fd' persistent mode w _ h₀ hfd hopen hw hi ho hr =>
      by_cases e : fd = fd'
      · subst e
        refine .registered persistent mode w hopen (by rw [ho]) ?_ ?_
        · rw [hi, Function.update_self]
        · simp [staged, hr]
      · refine .same (by rw [ho]) (by rw [hi, Function.update_of_ne e]) ?_
        simp [staged, hr, h₀, Ne.symm e, hw]
  | insert fd' e' h₀ hw hi ho hr =>
      refine .same (by rw [ho]) (by rw [hi]) ?_
      by_cases e : fd = fd'
      · subst e; simp [staged, hr, h₀, hw]
      · simp [staged, hr, h₀, hw, e, Ne.symm e]
  | consume ev evs e' hp he hw hi ho hr =>
      have h₀ : s.registering = none := by
        by_contra hne
        have := hu hne
        rw [hp] at this; cases this
      by_cases e : fd = ev.fd
      · subst e
        refine .removed (by rw [ho]) (by rw [hi, Function.update_self]) ?_
        rw [staged_of_none (hr.trans h₀), hw, Function.update_self]
      · exact .same (by rw [ho]) (by rw [hi, Function.update_of_ne e])
          (staged_congr (by rw [hw, Function.update_of_ne e]) hr)
  | cancel fd' g hm hw hi ho hr =>
      by_cases e : fd = fd'
      · subst e
        have hi' : (s.next (.unregister fd g)).kernel.interest fd = none := by
          rw [hi, Function.update_self]
        cases h₀ : s.registering with
        | none =>
            refine .removed (by rw [ho]) hi' ?_
            rw [staged_of_none (hr.trans h₀), hw, Function.update_self]
        | some x =>
            obtain ⟨r, e'⟩ := x
            by_cases er : r = fd
            · subst er
              exact .raced e' g h₀ hm (by rw [ho]) hi' (by simp [staged, hr, h₀])
            · refine .removed (by rw [ho]) hi' ?_
              simp [staged, hr, h₀, er, hw]
      · exact .same (by rw [ho]) (by rw [hi, Function.update_of_ne e])
          (staged_congr (by rw [hw, Function.update_of_ne e]) hr)
  | opened fd' hopen hw hi ho hr =>
      by_cases e : fd = fd'
      · subst e
        exact .opened hopen (by rw [ho, Function.update_self]) (by rw [hi])
          (staged_congr (by rw [hw]) hr)
      · exact .same (by rw [ho, Function.update_of_ne e]) (by rw [hi])
          (staged_congr (by rw [hw]) hr)
  | closed fd' hw hi ho hr =>
      by_cases e : fd = fd'
      · subst e
        exact .closed (by rw [ho, Function.update_self]) (by rw [hi, Function.update_self])
          (staged_congr (by rw [hw]) hr)
      · exact .same (by rw [ho, Function.update_of_ne e]) (by rw [hi, Function.update_of_ne e])
          (staged_congr (by rw [hw]) hr)

/-! ### The kernel watches nothing the table does not have -/

/-- The kernel has a descriptor on its list only if it is open and the staged table has it, with
that mode. -/
structure Backed (s : IoState) : Prop where
  entry : ∀ fd mask, fd ≠ s.wakeFd → s.kernel.interest fd = some mask →
    ∃ e, s.staged fd = some e ∧ e.mask = mask
  isOpen : ∀ fd, s.kernel.isOpen fd = false → s.kernel.interest fd = none

theorem backed_next (h : Backed s) (hu : RegistersInUserCode s) {a : Action} (ha : s.Enabled a) :
    Backed (s.next a) := by
  refine ⟨fun fd mask hne hm => ?_, fun fd hc => ?_⟩
  · rw [wakeFd_next] at hne
    cases fdStep hu ha fd with
    | same _ hi hs => rw [hs]; exact h.entry fd mask hne (hi ▸ hm)
    | registered _ _ _ _ _ hi hs => exact ⟨_, hs, Option.some.inj (hi.symm.trans hm)⟩
    | removed _ hi _ => rw [hi] at hm; cases hm
    | raced _ _ _ _ _ hi _ => rw [hi] at hm; cases hm
    | opened _ _ hi hs => rw [hs]; exact h.entry fd mask hne (hi ▸ hm)
    | closed _ hi _ => rw [hi] at hm; cases hm
  · cases fdStep hu ha fd with
    | same ho hi _ => rw [hi]; exact h.isOpen fd (ho ▸ hc)
    | registered _ _ _ hopen ho _ _ => rw [ho, hopen] at hc; cases hc
    | removed _ hi _ => exact hi
    | raced _ _ _ _ _ hi _ => exact hi
    | opened _ ho _ _ => rw [ho] at hc; cases hc
    | closed _ hi _ => exact hi

theorem interest_new {wakeFd fd : Fd} {isOpen : Fd → Bool} (hne : fd ≠ wakeFd) :
    (new wakeFd isOpen).kernel.interest fd = none := by
  simp [new, hne]

end IoState

theorem reachable_backed {C : IoState → IoState.Action → Prop} {s : IoState}
    (h : ioMachine.ReachableBy C s) : s.Backed := by
  refine h.invariant (fun s h₀ => ?_) fun s a hr hi _ ha =>
    IoState.backed_next hi (reachable_registersInUserCode hr) ha
  obtain ⟨wakeFd, isOpen, hopen, rfl⟩ := h₀
  refine ⟨fun fd mask hne hm => ?_, fun fd hc => ?_⟩
  · have none : (IoState.new wakeFd isOpen).kernel.interest fd = none := IoState.interest_new hne
    rw [none] at hm; cases hm
  · have hne : fd ≠ wakeFd := fun e => by
      rw [show (IoState.new wakeFd isOpen).kernel.isOpen fd = isOpen fd from rfl, e, hopen] at hc
      cases hc
    exact IoState.interest_new hne

/-! ### Agreement -/

namespace IoState

variable {s s' : IoState}

/-- The step neither cancels a watch while its descriptor is being registered anew, nor reuses the
number of a descriptor that the staged table has. -/
def Orderly (s : IoState) : Action → Prop
  | .unregister fd generation =>
      ¬ ((∃ e, s.registering = some (fd, e)) ∧ s.table.Matches fd generation)
  | .openFd fd => s.staged fd = none
  | _ => True

instance (s : IoState) : ∀ a, Decidable (s.Orderly a)
  | .unregister fd g =>
      match h : s.registering with
      | none => isTrue fun ⟨⟨_, he⟩, _⟩ => by rw [h] at he; cases he
      | some (r, e) =>
          decidable_of_iff (¬ (r = fd ∧ s.table.Matches fd g)) (by simp [Orderly, h])
  | .openFd _ => inferInstanceAs (Decidable (_ = none))
  | .io _ | .poster _ _ | .closeFd _ | .dropWatcher _ | .tick _ => inferInstanceAs (Decidable True)

/-- The interest list has exactly the open descriptors of the staged table. -/
def Agrees (s : IoState) : Prop :=
  ∀ fd, fd ≠ s.wakeFd → s.kernel.isOpen fd = true →
    s.kernel.interest fd = (s.staged fd).map WatchEntry.mask

theorem agrees_next (h : Agrees s) (hb : Backed s) (hu : RegistersInUserCode s) {a : Action}
    (ha : s.Enabled a) (hC : s.Orderly a) : Agrees (s.next a) := by
  intro fd hne hopen
  rw [wakeFd_next] at hne
  cases fdStep hu ha fd with
  | same ho hi hs => rw [hi, hs]; exact h fd hne (ho ▸ hopen)
  | registered _ _ _ _ _ hi hs => rw [hi, hs]; rfl
  | removed _ hi hs => rw [hi, hs]; rfl
  | raced e g hr hm => exact absurd ⟨⟨e, hr⟩, hm⟩ hC
  | opened hc _ hi hs =>
      rw [hi, hs, hb.isOpen fd hc, show s.staged fd = none from hC]; rfl
  | closed ho => rw [ho] at hopen; cases hopen

end IoState

theorem reachable_agrees {s : IoState} (h : ioMachine.ReachableBy IoState.Orderly s) :
    s.Agrees := by
  refine h.invariant (fun s h₀ => ?_) fun s a hr hi hC ha =>
    IoState.agrees_next hi (reachable_backed hr) (reachable_registersInUserCode hr) ha hC
  obtain ⟨wakeFd, isOpen, -, rfl⟩ := h₀
  exact fun fd hne _ => IoState.interest_new hne

/-- **The watch table and the interest list agree** in every state of an orderly run in which no
`register_fd` is in progress: an open descriptor is on the interest list with a mode exactly when
the table has an entry for it with that mode. -/
theorem watches_agree_with_interest {s : IoState} (h : ioMachine.ReachableBy IoState.Orderly s)
    (hr : s.registering = none) (fd : Fd) (hw : fd ≠ s.wakeFd) (ho : s.kernel.isOpen fd = true)
    (m : WatchMode) :
    s.kernel.interest fd = some (modeToEpollEvents m) ↔
      ∃ e, s.table.watches fd = some e ∧ e.mode = m := by
  have hi := reachable_agrees h fd hw ho
  rw [IoState.staged_of_none hr] at hi
  rw [hi]
  cases he : s.table.watches fd with
  | none => simp
  | some e =>
      simp only [Option.map_some, Option.some.injEq, exists_eq_left']
      exact modeToEpollEvents_injective.eq_iff

/-- A task registers descriptor 5; another thread opens the connection. -/
def watchRun : List IoState.Action :=
  [.openFd 5, .poster 0 (.post none), .poster 0 (.push 0), .poster 0 .write, .io .popTask,
   .io (.registerCtl 5 false .read 1 true),
   .io (.registerInsert 5 ⟨1, false, .read, 0⟩)]

theorem watchRun_agrees :
    let s := ioMachine.runList (.new 3 (· ≤ 3)) watchRun
    s.kernel.interest 5 = some (modeToEpollEvents .read) ↔
      ∃ e, s.table.watches 5 = some e ∧ e.mode = .read := by
  have reached := Machine.ReachableBy.of_follows (M := ioMachine) (C := IoState.Orderly)
    (s := .new 3 (· ≤ 3)) (l := watchRun) ⟨3, (· ≤ 3), by decide, rfl⟩ (by decide +kernel)
  exact watches_agree_with_interest reached (by decide +kernel) 5 (by decide +kernel)
    (by decide +kernel) .read

/-- The watch of descriptor 5 is replaced by another controller's; between the `epoll_ctl` and the
insertion, the first controller is dropped on another thread. -/
def cancelRun : List IoState.Action :=
  watchRun ++
    [.io (.registerCtl 5 false .write 2 true), .unregister 5 0,
     .io (.registerInsert 5 ⟨2, false, .write, 1⟩)]

/-- Descriptor 5 is closed while it is watched, and its number is given out again. -/
def reuseRun : List IoState.Action := watchRun ++ [.closeFd 5, .openFd 5]

/-- At the end of the run no registration is in progress, descriptor 5 is open and has an entry, and
the kernel does not watch it. -/
def Disagrees (run : List IoState.Action) : Prop :=
  let s := ioMachine.runList (.new 3 (· ≤ 3)) run
  ioMachine.Reachable s ∧ s.registering = none ∧ s.kernel.isOpen 5 = true ∧
    (s.table.watches 5).isSome = true ∧ s.kernel.interest 5 = none

theorem disorderly_runs_disagree : [cancelRun, reuseRun].Forall Disagrees := by
  have reached : ∀ run ∈ [cancelRun, reuseRun],
      ioMachine.Follows (fun _ _ => True) (.new 3 (· ≤ 3)) run := by decide +kernel
  rw [List.forall_iff_forall_mem]
  intro run hrun
  refine ⟨.of_follows ⟨3, (· ≤ 3), by decide, rfl⟩ (reached run hrun), ?_⟩
  revert run
  decide +kernel

end RustIo
