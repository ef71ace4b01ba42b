import RustBase.Net.Operations
import RustBase.Net.SocketWatch

/-!
# Net — readiness is a hint

A readiness event may be stale: the system call that follows it may still answer `EAGAIN`.  `read`,
`write` and `accept` take that answer, at their own immediate attempt, as "not yet": the operation
is stored and watched.  The readiness methods take the operation out first and hand any answer to
its callback.

`stepsMachine` keeps the steps of a run.  A step is `Spurious` when a readiness method takes up an
accept, a read or a write whose system call answers `EAGAIN`; `AsHint` says that such a
step leaves the operation pending and watched, and calls nobody.

**`readiness_hint_iff`**: no callback of a read, a write or an accept is given `EAGAIN`, and every
such answer is taken as a hint, exactly in the runs without a spurious step.
-/

namespace RustNet
open Support RustIo

/-- `ErrorKind::WouldBlock`. -/
def wouldBlockError : Outcome := .failed (.os eagain)

/-- The steps of a run, with the states they were taken in. -/
abbrev SocketSteps := List (SocketState × SocketAct)

def stepsMachine : Machine (SocketState × SocketSteps) SocketAct :=
  socketMachine.withHistory [] fun s a l => l ++ [(s, a)]

instance (x : SocketState × SocketSteps) (a : SocketAct) : Decidable (stepsMachine.Enabled x a) :=
  inferInstanceAs (Decidable (x.1.Enabled a))

namespace SocketState

variable {s : SocketState}

/-- The operation a readiness method takes up. -/
def served (s : SocketState) (d : Direction) : Option OpKind :=
  if (s.socket.slot (callSlots d).1).isSome then some (callSlots d).1
  else if (s.socket.slot (callSlots d).2).isSome then some (callSlots d).2
  else none

/-- A readiness method takes up an accept, a read or a write that would block. -/
def Spurious (s : SocketState) : SocketAct → Prop
  | .call c _ sys =>
      ∃ k ∈ s.served c.direction, k ≠ .connect ∧ s.callOutcome sys k = wouldBlockError
  | _ => False

instance (s : SocketState) : ∀ a, Decidable (s.Spurious a)
  | .call _ _ _ => inferInstanceAs (Decidable (∃ k ∈ _, _ ∧ _))
  | .connect _ _ _ | .readIfReady _ _ | .read _ _ _ _ | .write _ _ _ _ | .accept _ _
  | .cancelAccept | .cancelRead | .cancelWrite | .close | .fire _ | .dispatch _ | .callDone _
  | .dispatchDone => inferInstanceAs (Decidable False)

/-- The operations are pending as before, those of the direction are watched, and no callback was
called. -/
def StaysPending (s s' : SocketState) (d : Direction) : Prop :=
  s'.socket.slot = s.socket.slot ∧ s'.Watched d ∧ s'.results = s.results

/-- A readiness method takes `EAGAIN` as a hint. -/
def AsHint (s : SocketState) (a : SocketAct) : Prop :=
  s.Spurious a → ∀ c cs sys, a = .call c cs sys → s.StaysPending (s.next a) c.direction

end SocketState

/-- The callback `cb` came with a call of an operation of this kind. -/
def BeganAs (l : SocketSteps) (cb : CallbackId) (k : OpKind) : Prop :=
  ∃ x ∈ l, ∃ pends timed o, x.1.act x.2 = .start k pends timed o ∧ x.1.nextCallback = cb

/-- No callback of a read, a write or an accept was given `EAGAIN`. -/
def NoWouldBlock (x : SocketState × SocketSteps) : Prop :=
  ∀ cb k, BeganAs x.2 cb k → k ≠ .connect → (cb, wouldBlockError) ∉ x.1.results

/-! ### One step -/

namespace SocketState

variable {s : SocketState} {a : SocketAct}

theorem slot_of_served {d : Direction} {k : OpKind} (h : s.served d = some k) :
    ∃ cb, s.socket.slot k = some cb ∧
      ∀ o, s.ops.call d o = s.ops.resolve k cb (o k) := by
  unfold served at h
  have hslot : s.ops.slot = s.socket.slot := rfl
  split at h
  · rename_i h₁
    cases h
    obtain ⟨cb, hcb⟩ := Option.isSome_iff_exists.mp h₁
    exact ⟨cb, hcb, fun o => by simp only [Ops.call, hslot, hcb]⟩
  · rename_i h₁
    split at h
    · rename_i h₂
      cases h
      obtain ⟨cb, hcb⟩ := Option.isSome_iff_exists.mp h₂
      have hnone : s.socket.slot (callSlots d).1 = none := by simpa using h₁
      exact ⟨cb, hcb, fun o => by simp only [Ops.call, hslot, hnone, hcb]⟩
    · cases h

/-- What a readiness method does: nothing, or it takes up an operation and calls its callback. -/
theorem call_served (s : SocketState) (d : Direction) (o : OpKind → Outcome) :
    s.ops.call d o = s.ops ∧ s.served d = none ∨
      ∃ k cb, s.served d = some k ∧ s.socket.slot k = some cb ∧
        s.ops.call d o = s.ops.resolve k cb (o k) := by
  cases hs : s.served d with
  | none =>
      refine .inl ⟨?_, rfl⟩
      unfold served at hs
      have hslot : s.ops.slot = s.socket.slot := rfl
      split at hs
      · cases hs
      · split at hs
        · cases hs
        · rename_i h₁ h₂
          have h₁ : s.socket.slot (callSlots d).1 = none := by simpa using h₁
          have h₂ : s.socket.slot (callSlots d).2 = none := by simpa using h₂
          simp only [Ops.call, hslot, h₁, h₂]
  | some k =>
      obtain ⟨cb, hcb, ho⟩ := slot_of_served hs
      exact .inr ⟨k, cb, rfl, hcb, ho o⟩

/-- The readiness methods take no answer as a hint. -/
theorem asHint_iff : s.AsHint a ↔ ¬ s.Spurious a := by
  refine ⟨fun h hs => ?_, fun h hs => absurd hs h⟩
  cases a with
  | call c cs sys =>
      obtain ⟨-, -, hr⟩ := h hs c cs sys rfl
      obtain ⟨k, hk, -, -⟩ := hs
      obtain ⟨cb, -, ho⟩ := slot_of_served hk
      have hops : (s.next (.call c cs sys)).ops = s.ops.resolve k cb (s.callOutcome sys k) :=
        (s.ops_next _).trans (ho _)
      have grown : (s.next (.call c cs sys)).results = s.results ++ [(cb, s.callOutcome sys k)] :=
        congrArg Ops.results hops
      rw [grown] at hr
      simpa using congrArg List.length hr
  | _ => exact hs

/-- An immediate attempt that is over was not answered `EAGAIN`. -/
theorem ne_wouldBlockError_of_start {k : OpKind} {timed : Bool} {o : Outcome}
    (h : s.act a = .start k false timed o) (hk : k ≠ .connect) : o ≠ wouldBlockError := by
  have decided : ∀ {α : Type} {f : α → Outcome} {r : Except Errno α}, wouldBlock eagain r = false →
      (∀ x, f x ≠ wouldBlockError) → outcome f r ≠ wouldBlockError := by
    intro α f r hr hf
    cases r with
    | ok x => exact hf x
    | error e =>
        intro he
        have : e = eagain := by simpa [outcome, wouldBlockError] using he
        simp [wouldBlock, this] at hr
  cases a with
  | connect t r ok =>
      simp only [act, OpsAct.start.injEq] at h
      exact absurd h.1.symm hk
  | readIfReady t ok => cases h
  | read t len r ok =>
      simp only [act, OpsAct.start.injEq] at h
      obtain ⟨-, hr, -, rfl⟩ := h
      exact decided hr fun x => by simp [wouldBlockError]
  | write t buf r ok =>
      simp only [act, OpsAct.start.injEq] at h
      obtain ⟨-, hr, -, rfl⟩ := h
      exact decided hr fun x => by simp [wouldBlockError]
  | accept r ok =>
      simp only [act, OpsAct.start.injEq] at h
      obtain ⟨-, hr, -, rfl⟩ := h
      exact decided hr fun x => by simp [wouldBlockError]
  | _ => cases h

end SocketState

/-! ### The run -/

/-- A slot holds a callback of its own kind, and no callback of a read, a write or an accept was
given `EAGAIN`. -/
structure Hinted (x : SocketState × SocketSteps) : Prop where
  began_lt : ∀ cb k, BeganAs x.2 cb k → cb < x.1.nextCallback
  began_unique : ∀ cb k k', BeganAs x.2 cb k → BeganAs x.2 cb k' → k = k'
  slot : ∀ k cb, x.1.socket.slot k = some cb → BeganAs x.2 cb k
  results_lt : ∀ r ∈ x.1.results, r.1 < x.1.nextCallback
  noWouldBlock : NoWouldBlock x

section Steps

variable {l : SocketSteps} {s : SocketState} {a : SocketAct} {cb : CallbackId} {k : OpKind}

theorem BeganAs.mono (h : BeganAs l cb k) : BeganAs (l ++ [(s, a)]) cb k := by
  obtain ⟨x, hx, hr⟩ := h
  exact ⟨x, List.mem_append_left _ hx, hr⟩

/-- Only a step that starts an operation has a callback begin. -/
theorem beganAs_concat : BeganAs (l ++ [(s, a)]) cb k ↔
    BeganAs l cb k ∨ ∃ pends timed o, s.act a = .start k pends timed o ∧ s.nextCallback = cb := by
  constructor
  · rintro ⟨x, hx, hr⟩
    rcases List.mem_append.mp hx with hx | hx
    · exact .inl ⟨x, hx, hr⟩
    · rw [List.mem_singleton.mp hx] at hr
      exact .inr hr
  · rintro (h | h)
    · exact h.mono
    · exact ⟨(s, a), List.mem_append_right _ List.mem_cons_self, h⟩

end Steps

namespace Hinted

variable {x : SocketState × SocketSteps} {a : SocketAct}

theorem init {s : SocketState} (h : socketMachine.Init s) : Hinted (s, []) := by
  obtain ⟨fd, id, table, -, rfl⟩ := h
  have none : ∀ cb k, ¬ BeganAs [] cb k := by
    rintro cb k ⟨x, hx, -⟩
    cases hx
  refine ⟨fun cb k h => absurd h (none cb k), fun cb k k' h => absurd h (none cb k),
    fun k cb h => ?_, fun r hr => ?_, fun cb k h => absurd h (none cb k)⟩
  · cases k <;> cases h
  · cases hr

theorem start (h : Hinted x) {pends timed : Bool} {k : OpKind} {o : Outcome}
    (ha : x.1.act a = .start k pends timed o) :
    Hinted (x.1.next a, x.2 ++ [(x.1, a)]) := by
  have hops : (x.1.next a).ops = x.1.ops.start k pends timed o := by
    rw [SocketState.ops_next, ha]
    rfl
  have hnext : (x.1.next a).nextCallback = x.1.nextCallback + 1 := congrArg Ops.nextCallback hops
  have hslot : (x.1.next a).socket.slot = if pends then
      Function.update x.1.socket.slot k (some x.1.nextCallback) else x.1.socket.slot :=
    congrArg Ops.slot hops
  have hres : (x.1.next a).results = if pends then x.1.results
      else x.1.results ++ [(x.1.nextCallback, o)] := congrArg Ops.results hops
  -- the callback that begins is the only one of its number
  have new : ∀ cb k', BeganAs (x.2 ++ [(x.1, a)]) cb k' →
      BeganAs x.2 cb k' ∨ cb = x.1.nextCallback ∧ k' = k := by
    intro cb k' hb
    rcases beganAs_concat.mp hb with hb | ⟨p, t, o', hs, rfl⟩
    · exact .inl hb
    · rw [ha] at hs
      cases hs
      exact .inr ⟨rfl, rfl⟩
  have self : BeganAs (x.2 ++ [(x.1, a)]) x.1.nextCallback k :=
    beganAs_concat.mpr (.inr ⟨pends, timed, o, ha, rfl⟩)
  have fresh : ∀ k', ¬ BeganAs x.2 x.1.nextCallback k' := fun k' hb =>
    Nat.lt_irrefl _ (h.began_lt _ k' hb)
  refine ⟨fun cb k' hb => ?_, fun cb k₁ k₂ h₁ h₂ => ?_, fun k' cb hk => ?_, fun r hr => ?_, ?_⟩
  · rw [hnext]
    rcases new cb k' hb with hb | ⟨rfl, -⟩
    · exact Nat.lt_succ_of_lt (h.began_lt cb k' hb)
    · exact Nat.lt_succ_self _
  · rcases new cb k₁ h₁ with h₁ | ⟨rfl, rfl⟩ <;> rcases new _ k₂ h₂ with h₂ | ⟨e, rfl⟩
    · exact h.began_unique cb k₁ k₂ h₁ h₂
    · exact absurd (e ▸ h₁) (fresh k₁)
    · exact absurd h₂ (fresh k₂)
    · rfl
  · rw [hslot] at hk
    cases pends with
    | false => exact (h.slot k' cb hk).mono
    | true =>
        rcases update_some_eq_some.mp hk with ⟨rfl, rfl⟩ | ⟨-, hk⟩
        · exact self
        · exact (h.slot k' cb hk).mono
  · rw [hnext]
    have old : ∀ r ∈ x.1.results, r.1 < x.1.nextCallback + 1 := fun r hr =>
      Nat.lt_succ_of_lt (h.results_lt r hr)
    rw [hres] at hr
    cases pends with
    | true => exact old r hr
    | false =>
        rcases List.mem_append.mp hr with hr | hr
        · exact old r hr
        · rw [List.mem_singleton.mp hr]
          exact Nat.lt_succ_self _
  · intro cb k' hb hk hm
    rw [hres] at hm
    have old : (cb, wouldBlockError) ∈ x.1.results → False := by
      intro hm
      rcases new cb k' hb with hb | ⟨rfl, -⟩
      · exact h.noWouldBlock cb k' hb hk hm
      · exact Nat.lt_irrefl _ (h.results_lt _ hm)
    cases pends with
    | true => exact old hm
    | false =>
        rcases List.mem_append.mp hm with hm | hm
        · exact old hm
        · have e := List.mem_singleton.mp hm
          have hcb : cb = x.1.nextCallback := congrArg Prod.fst e
          rcases new cb k' hb with hb | ⟨-, rfl⟩
          · exact fresh k' (hcb ▸ hb)
          · exact SocketState.ne_wouldBlockError_of_start ha hk (congrArg Prod.snd e).symm

/-- Steps that start nothing: callbacks leave their slots, and some are called. -/
theorem settle (h : Hinted x) (ha : (x.1.act a).starts = false)
    (hr : ∀ r ∈ (x.1.next a).results, r ∈ x.1.results ∨
      ∃ k, x.1.socket.slot k = some r.1 ∧ (k ≠ .connect → r.2 ≠ wouldBlockError)) :
    Hinted (x.1.next a, x.2 ++ [(x.1, a)]) := by
  have settles : Ops.Settles x.1.ops (x.1.next a).ops := by
    rw [SocketState.ops_next]
    exact Ops.settles_next _ ha
  have hnext : (x.1.next a).nextCallback = x.1.nextCallback := settles.nextCallback
  have back : ∀ cb k, BeganAs (x.2 ++ [(x.1, a)]) cb k → BeganAs x.2 cb k := by
    intro cb k hb
    rcases beganAs_concat.mp hb with hb | ⟨p, t, o, hs, -⟩
    · exact hb
    · rw [hs] at ha
      cases ha
  refine ⟨fun cb k hb => ?_, fun cb k₁ k₂ h₁ h₂ => ?_, fun k cb hk => ?_, fun r hm => ?_, ?_⟩
  · rw [hnext]
    exact h.began_lt cb k (back cb k hb)
  · exact h.began_unique cb k₁ k₂ (back _ _ h₁) (back _ _ h₂)
  · exact (h.slot k cb (settles.slot k cb hk)).mono
  · rw [hnext]
    rcases hr r hm with hm | ⟨k, hk, -⟩
    · exact h.results_lt r hm
    · exact h.began_lt _ k (h.slot k _ hk)
  · intro cb k hb hk hm
    rcases hr _ hm with hm | ⟨k', hk', hne⟩
    · exact h.noWouldBlock cb k (back _ _ hb) hk hm
    · obtain rfl : k = k' := h.began_unique cb k k' (back _ _ hb) (h.slot k' cb hk')
      exact hne hk rfl

theorem next (h : Hinted x) (hs : ¬ x.1.Spurious a) :
    Hinted (x.1.next a, x.2 ++ [(x.1, a)]) := by
  have hops := x.1.ops_next a
  cases hact : x.1.act a with
  | start k pends timed o => exact h.start hact
  | cancel ks | idle =>
      refine h.settle (by rw [hact]; rfl) fun r hr => .inl ?_
      rw [hact] at hops
      have hres : (x.1.next a).results = x.1.results := congrArg Ops.results hops
      exact hres ▸ hr
  | fire t =>
      refine h.settle (by rw [hact]; rfl) fun r hr => ?_
      rw [hact] at hops
      have hres : (x.1.next a).results = (x.1.ops.fire t).results := congrArg Ops.results hops
      rw [hres] at hr
      rcases x.1.ops.fire_cases t with ⟨he, -⟩ | ⟨cb, -, hslot, he⟩
      · rw [he] at hr
        exact .inl hr
      · rw [he] at hr
        rcases List.mem_append.mp hr with hr | hr
        · exact .inl hr
        · rw [List.mem_singleton.mp hr]
          exact .inr ⟨_, hslot, fun _ => by simp [wouldBlockError]⟩
  | call d o =>
      refine h.settle (by rw [hact]; rfl) fun r hr => ?_
      cases a with
      | call c cs sys =>
          have hres : (x.1.next (.call c cs sys)).results =
              (x.1.ops.call c.direction (x.1.callOutcome sys)).results := congrArg Ops.results hops
          rw [hres] at hr
          rcases x.1.call_served c.direction (x.1.callOutcome sys) with
            ⟨he, -⟩ | ⟨k, cb, hserved, hslot, he⟩
          · rw [he] at hr
            exact .inl hr
          · rw [he] at hr
            rcases List.mem_append.mp hr with hr | hr
            · exact .inl hr
            · rw [List.mem_singleton.mp hr]
              exact .inr ⟨k, hslot, fun hk ho => hs ⟨k, hserved, hk, ho⟩⟩
      | _ => cases hact

end Hinted

/-- **Readiness as a hint.**  In every run the callbacks of reads, writes and accepts are given no
`EAGAIN`, and a readiness method that is answered so leaves the operation pending and watched, if
and only if no readiness method is answered so. -/
theorem readiness_hint_iff {x : SocketState × SocketSteps} (h : stepsMachine.Reachable x) :
    (NoWouldBlock x ∧ ∀ st ∈ x.2, st.1.AsHint st.2) ↔ ∀ st ∈ x.2, ¬ st.1.Spurious st.2 := by
  refine ⟨fun hx st hst => SocketState.asHint_iff.mp (hx.2 st hst), fun hx => ⟨?_, fun st hst =>
    SocketState.asHint_iff.mpr (hx st hst)⟩⟩
  have hinted : (∀ st ∈ x.2, ¬ st.1.Spurious st.2) → Hinted x := by
    refine h.invariant (I := fun x => (∀ st ∈ x.2, ¬ st.1.Spurious st.2) → Hinted x) ?_ ?_
    · rintro ⟨s, l⟩ ⟨hi, rfl⟩ -
      exact .init hi
    · intro x a _ hi _ _ hs
      exact (hi fun st hst => hs st (List.mem_append_left _ hst)).next
        (hs (x.1, a) (List.mem_append_right _ List.mem_cons_self))
  exact (hinted hx).noWouldBlock

/-- An accept, a read or a write that has to wait, and a readiness event after which its system
call answers `sys`. -/
def eventRun (k : OpKind) (sys : Syscalls) : List SocketAct :=
  match k with
  | .accept => [.accept (.error eagain) true, .dispatch epollIn, .call ⟨5, 1, 0, .read⟩ [] sys]
  | .write =>
      [.write false [7] (.error eagain) true, .dispatch epollOut, .call ⟨5, 1, 0, .write⟩ [] sys]
  | .read | .connect =>
      [.read false 64 (.error eagain) true, .dispatch epollIn, .call ⟨5, 1, 0, .read⟩ [] sys]

theorem eventRun_hinted :
    let x := stepsMachine.runList (.init 5 1 .new, [])
      (eventRun .accept ⟨.ok 9, .ok [7], .ok 1, .ok ()⟩)
    x.1.results = [(0, .accepted 9)] ∧ NoWouldBlock x ∧ ∀ st ∈ x.2, st.1.AsHint st.2 := by
  have init : stepsMachine.Init (.init 5 1 .new, []) := ⟨⟨5, 1, .new, rfl, rfl⟩, rfl⟩
  have follows : stepsMachine.Follows (fun _ _ => True) (.init 5 1 .new, [])
      (eventRun .accept ⟨.ok 9, .ok [7], .ok 1, .ok ()⟩) := by decide +kernel
  exact ⟨by decide +kernel,
    (readiness_hint_iff (.of_follows init follows)).mpr (by decide +kernel)⟩

/-- The answer is `EAGAIN`: the callback of the operation is given it, and the operation is pending
no more. -/
def Reported (k : OpKind) : Prop :=
  let x := stepsMachine.runList (.init 5 1 .new, [])
    (eventRun k ⟨.error eagain, .error eagain, .error eagain, .ok ()⟩)
  stepsMachine.Reachable x ∧ x.1.results = [(0, wouldBlockError)] ∧
    x.1.socket.slot k = none ∧ ¬ NoWouldBlock x ∧ ¬ ∀ st ∈ x.2, st.1.AsHint st.2

theorem reported_of_mem : ∀ k ∈ [OpKind.accept, .read, .write], Reported k := by
  intro k hk
  have init : stepsMachine.Init (.init 5 1 .new, []) := ⟨⟨5, 1, .new, rfl, rfl⟩, rfl⟩
  have run : ∀ k ∈ [OpKind.accept, .read, .write],
      let x := stepsMachine.runList (.init 5 1 .new, [])
        (eventRun k ⟨.error eagain, .error eagain, .error eagain, .ok ()⟩)
      stepsMachine.Follows (fun _ _ => True) (.init 5 1 .new, [])
        (eventRun k ⟨.error eagain, .error eagain, .error eagain, .ok ()⟩) ∧
      x.1.results = [(0, wouldBlockError)] ∧ x.1.socket.slot k = none ∧
      ¬ ∀ st ∈ x.2, ¬ st.1.Spurious st.2 := by decide +kernel
  obtain ⟨follows, results, slot, spurious⟩ := run k hk
  refine ⟨.of_follows init follows, results, slot, fun h => ?_, fun h => spurious fun st hst =>
    SocketState.asHint_iff.mp (h st hst)⟩
  have began : BeganAs (stepsMachine.runList (SocketState.init 5 1 .new, [])
      (eventRun k ⟨.error eagain, .error eagain, .error eagain, .ok ()⟩)).2 0 k := by
    simp only [List.mem_cons, List.not_mem_nil, or_false] at hk
    rcases hk with rfl | rfl | rfl <;>
      exact ⟨_, List.mem_cons_self, true, false, wouldBlockError, rfl, rfl⟩
  refine h 0 k began (fun e => ?_) (by rw [results]; exact List.mem_cons_self)
  rw [e] at hk
  exact absurd hk (by decide)

theorem staleEvents_reported : Reported .accept ∧ Reported .read ∧ Reported .write :=
  ⟨reported_of_mem _ (by decide), reported_of_mem _ (by decide), reported_of_mem _ (by decide)⟩

end RustNet
