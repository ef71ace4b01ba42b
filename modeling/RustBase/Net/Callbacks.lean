import RustBase.Net.SocketLife

/-!
# Net — every callback exactly once

A callback passed to a `SocketPosix` is stored, has been invoked, or belongs to an operation that
was cancelled, and exactly one of these holds, once (`Answered.once`).  An operation whose watch
could not be registered has been reported to its callback (`Answered.reported`).

Two kinds of steps break this, and no others do.  A slot is overwritten by plain assignment, so an
operation that has to wait while another one of its kind is pending drops the callback of the other.
And the result of `watch_file_descriptor` is ignored, so an operation that has to wait is stored
whether it is watched or not.  `answered_until_lost` says that everything is answered until such a
step, and that each of them breaks it.
-/

namespace RustNet
open Support RustIo

/-! ### What becomes of a callback -/

/-- The slots of a socket. -/
def OpKind.all : List OpKind := [.connect, .read, .write, .accept]

theorem OpKind.mem_all (k : OpKind) : k ∈ all := by cases k <;> simp [all]

/-- The callbacks in the slots. -/
def stored (slot : OpKind → Option CallbackId) : List CallbackId := OpKind.all.filterMap slot

/-- The callbacks stored. -/
def Ops.pending (x : Ops) : List CallbackId := stored x.slot

/-- The callbacks invoked. -/
def Ops.invoked (x : Ops) : List CallbackId := x.results.map Prod.fst

namespace OpsLog

structure Answered (x : OpsLog) : Prop where
  /-- the callbacks passed in, and where each of them is -/
  once : (x.ops.pending ++ x.ops.invoked ++ x.cancelled).Perm (List.range x.ops.nextCallback)
  reported : ∀ cb ∈ x.unwatched, cb ∈ x.ops.invoked

/-- The operation has to wait, and its slot is taken or its watch is not registered. -/
def Loses (x : OpsLog) (registers : Bool) : OpsAct → Prop
  | .start k true _ _ => (x.ops.slot k).isSome ∨ registers = false
  | _ => False

instance (x : OpsLog) (registers : Bool) : ∀ a, Decidable (x.Loses registers a)
  | .start _ true _ _ => inferInstanceAs (Decidable (_ ∨ _))
  | .start _ false _ _ | .cancel _ | .fire _ | .call _ _ | .idle =>
      inferInstanceAs (Decidable False)

end OpsLog

/-! ### The slots -/

section Slots

variable (slot : OpKind → Option CallbackId)

theorem count_stored_update (k : OpKind) (o : Option CallbackId) (cb : CallbackId) :
    (stored (Function.update slot k o)).count cb + (slot k).toList.count cb =
      (stored slot).count cb + o.toList.count cb := by
  have h := perm_filterMap_update (f := slot) (by decide : OpKind.all.Nodup) (OpKind.mem_all k) o
  rw [← List.count_append, ← List.count_append]
  exact h.count_eq cb

theorem count_stored_none {k : OpKind} {cb : CallbackId} (hs : slot k = some cb)
    (cb' : CallbackId) :
    (stored (Function.update slot k none)).count cb' + [cb].count cb' =
      (stored slot).count cb' := by
  have h := count_stored_update slot k none cb'
  rw [hs] at h
  exact h

/-- The slots are emptied one after the other. -/
theorem emptied_cons (k : OpKind) (ks : List OpKind) :
    (fun j => if j ∈ k :: ks then none else slot j) =
      Function.update (fun j => if j ∈ ks then none else slot j) k none := by
  funext j
  by_cases hj : j = k
  · subst hj; simp
  · simp [hj]

theorem count_stored_emptied {ks : List OpKind} (hks : ks.Nodup) (cb : CallbackId) :
    (stored fun j => if j ∈ ks then none else slot j).count cb + (ks.filterMap slot).count cb =
      (stored slot).count cb := by
  induction ks with
  | nil => simp
  | cons k ks ih =>
      obtain ⟨hk, hks⟩ := List.nodup_cons.mp hks
      have h := count_stored_update (fun j => if j ∈ ks then none else slot j) k none cb
      have split : (k :: ks).filterMap slot = (slot k).toList ++ ks.filterMap slot := by
        rw [List.filterMap_cons]
        cases slot k <;> rfl
      rw [if_neg hk] at h
      rw [emptied_cons, split, List.count_append]
      have := ih hks
      simp only [Option.toList_none, List.count_nil] at h
      omega

end Slots

theorem SocketState.nodup_of_act {s : SocketState} {a : SocketAct} {ks : List OpKind}
    (h : s.act a = .cancel ks) : ks.Nodup := by
  cases a <;> cases h <;> decide

theorem SocketLife.nodup_of_act {s : SocketLife} {a : LifeAct} {ks : List OpKind}
    (h : s.act a = .cancel ks) : ks.Nodup := by
  cases a with
  | op a => exact SocketState.nodup_of_act h
  | tcpConnect timed o r ok =>
      cases o with
      | ok fd => cases h
      | error e => cases h
  | drop => exact SocketState.nodup_of_act (s := s.state) (a := .close) h
  | openSocket o | bind r | listen r | tcpListen o opts bound l | dispatchOld fd flags => cases h

/-! ### A step -/

namespace OpsLog

variable {x : OpsLog} {a : OpsAct} {registers : Bool}

/-- How often a callback is stored, invoked or cancelled. -/
def tally (x : OpsLog) (cb : CallbackId) : ℕ :=
  x.ops.pending.count cb + x.ops.invoked.count cb + x.cancelled.count cb

theorem once_iff_tally :
    (x.ops.pending ++ x.ops.invoked ++ x.cancelled).Perm (List.range x.ops.nextCallback) ↔
      ∀ cb, x.tally cb = (List.range x.ops.nextCallback).count cb := by
  simp only [List.perm_iff_count, List.count_append, tally]

theorem tally_resolve {x' : OpsLog} {k : OpKind} {cb : CallbackId}
    (hs : x.ops.slot k = some cb) (hslot : x'.ops.slot = Function.update x.ops.slot k none)
    (hinv : x'.ops.invoked = x.ops.invoked ++ [cb]) (hc : x'.cancelled = x.cancelled)
    (cb' : CallbackId) : x'.tally cb' = x.tally cb' := by
  have h := count_stored_none x.ops.slot hs cb'
  simp only [tally, Ops.pending, hslot, hinv, hc, List.count_append]
  omega

/-- A step that starts no operation moves callbacks, and neither loses nor repeats one. -/
theorem tally_next (hks : ∀ ks, a = .cancel ks → ks.Nodup) (ha : a.starts = false)
    (cb : CallbackId) : (x.next a registers).tally cb = x.tally cb := by
  cases a with
  | start k pends timed o => cases ha
  | cancel ks =>
      have h := count_stored_emptied x.ops.slot (hks ks rfl) cb
      have hinv : (x.ops.cancel ks).invoked = x.ops.invoked := rfl
      simp only [tally, next, Ops.next, cancels, List.count_append, hinv]
      simp only [Ops.pending, Ops.cancel]
      omega
  | fire t =>
      rcases x.ops.fire_cases t with ⟨h, -⟩ | ⟨cb', -, hs, h⟩
      · simp only [tally, next, Ops.next, h, cancels, List.append_nil]
        rfl
      · refine tally_resolve hs (congrArg Ops.slot h) ?_ (List.append_nil _) cb
        exact (congrArg Ops.invoked h).trans (by simp [Ops.invoked, Ops.resolve])
  | call d o =>
      rcases x.ops.call_cases d o with h | ⟨k, cb', hs, h⟩
      · simp only [tally, next, Ops.next, h, cancels, List.append_nil]
      · refine tally_resolve hs (congrArg Ops.slot h) ?_ (List.append_nil _) cb
        exact (congrArg Ops.invoked h).trans (by simp [Ops.invoked, Ops.resolve])
  | idle => rw [next_idle]

/-- The callback of an operation that starts is stored or invoked; a callback in its slot is lost
when it is stored. -/
theorem tally_start (x : OpsLog) (registers : Bool) (k : OpKind) (pends timed : Bool) (o : Outcome)
    (cb : CallbackId) :
    (x.next (.start k pends timed o) registers).tally cb +
        (if pends then (x.ops.slot k).toList else []).count cb =
      x.tally cb + [x.ops.nextCallback].count cb := by
  cases pends with
  | false =>
      have hinv : (x.ops.start k false timed o).invoked =
          x.ops.invoked ++ [x.ops.nextCallback] := by simp [Ops.invoked, Ops.start]
      have hp : (x.ops.start k false timed o).pending = x.ops.pending := rfl
      simp only [tally, next, Ops.next, hinv, hp, cancels, List.count_append, List.count_nil,
        Bool.false_eq_true, if_false]
      omega
  | true =>
      have h := count_stored_update x.ops.slot k (some x.ops.nextCallback) cb
      have hinv : (x.ops.start k true timed o).invoked = x.ops.invoked := rfl
      have hp : (x.ops.start k true timed o).pending =
          stored (Function.update x.ops.slot k (some x.ops.nextCallback)) := rfl
      simp only [tally, next, Ops.next, hinv, hp, cancels, List.append_nil, if_true]
      simp only [Option.toList_some] at h
      simp only [Ops.pending]
      omega

/-- Callbacks stay invoked. -/
theorem mem_invoked_next {cb : CallbackId} (h : cb ∈ x.ops.invoked) :
    cb ∈ (x.ops.next a).invoked := by
  have grows : x.ops.results <+: (x.ops.next a).results := by
    cases a with
    | start k pends timed o =>
        cases pends with
        | false => exact List.prefix_append ..
        | true => exact List.prefix_rfl
    | cancel ks | fire t | call d o | idle => exact (x.ops.settles_next rfl).results
  exact (grows.map Prod.fst).subset h

/-- The callback of the next operation has not been invoked. -/
theorem Answered.nextCallback_notMem (h : x.Answered) : x.ops.nextCallback ∉ x.ops.invoked := by
  intro hm
  have := once_iff_tally.mp h.once x.ops.nextCallback
  have hz : (List.range x.ops.nextCallback).count x.ops.nextCallback = 0 :=
    List.count_eq_zero.mpr (by simp)
  have hp : 0 < x.ops.invoked.count x.ops.nextCallback := List.count_pos_iff.mpr hm
  simp only [tally] at this
  omega

theorem Answered.start (h : x.Answered) {k : OpKind} {pends timed : Bool} {o : Outcome} :
    (x.next (.start k pends timed o) registers).Answered ↔
      ¬ x.Loses registers (.start k pends timed o) := by
  have hr : ∀ cb, (List.range (x.ops.nextCallback + 1)).count cb =
      (List.range x.ops.nextCallback).count cb + [x.ops.nextCallback].count cb := fun cb => by
    rw [List.range_succ, List.count_append]
  have tallied := once_iff_tally.mp h.once
  have started := x.tally_start registers k pends timed o
  constructor
  · intro h' hl
    have tallied' := once_iff_tally.mp h'.once
    cases pends with
    | false => exact hl
    | true =>
        rcases hl with hl | rfl
        · -- the callback in the slot is nowhere
          obtain ⟨old, hs⟩ := Option.isSome_iff_exists.mp hl
          have h₁ := started old
          have h₂ := (tallied' old).trans (hr old)
          rw [hs, h₂, tallied old] at h₁
          simp at h₁
        · -- the callback stored is not watched, and was not told
          exact h.nextCallback_notMem
            (h'.reported x.ops.nextCallback (List.mem_append_right _ (List.mem_singleton_self _)))
  · intro hl
    refine ⟨once_iff_tally.mpr fun cb => ?_, fun cb hcb => ?_⟩
    · have h₁ := started cb
      have h₂ : (if pends then (x.ops.slot k).toList else []) = [] := by
        cases pends with
        | false => rfl
        | true =>
            have hs : x.ops.slot k = none := by
              by_contra hs
              exact hl (.inl (Option.isSome_iff_ne_none.mpr hs))
            rw [if_pos rfl, hs]; rfl
      rw [h₂, List.count_nil, Nat.add_zero, tallied cb] at h₁
      exact h₁.trans (hr cb).symm
    · have hu : (x.next (.start k pends timed o) registers).unwatched = x.unwatched := by
        cases pends with
        | false => exact x.unwatched_next rfl registers
        | true =>
            have : registers = true := by
              by_contra hn
              exact hl (.inr (Bool.not_eq_true _ ▸ hn))
            exact if_pos this
      rw [hu] at hcb
      exact mem_invoked_next (h.reported cb hcb)

theorem Answered.settle (h : x.Answered) (hks : ∀ ks, a = .cancel ks → ks.Nodup)
    (ha : a.starts = false) (hst : x.stores a = []) : (x.next a registers).Answered := by
  refine ⟨once_iff_tally.mpr fun cb => ?_, fun cb hcb => ?_⟩
  · have hn : (x.next a registers).ops.nextCallback = x.ops.nextCallback :=
      (x.ops.settles_next ha).nextCallback
    rw [tally_next hks ha, hn]
    exact once_iff_tally.mp h.once cb
  · rw [x.unwatched_next hst] at hcb
    exact mem_invoked_next (h.reported cb hcb)

/-- What a step does to a log in which everything is answered. -/
theorem Answered.next_iff (h : x.Answered) (hks : ∀ ks, a = .cancel ks → ks.Nodup) :
    (x.next a registers).Answered ↔ ¬ x.Loses registers a := by
  cases a with
  | start k pends timed o => exact h.start
  | cancel ks | fire t | call d o | idle => exact iff_of_true (h.settle hks rfl rfl) id

end OpsLog

/-! ### The socket -/

namespace SocketLife

variable {s : SocketLife}

/-- The step starts an operation that has to wait, while its slot is taken or without a watch. -/
def Loses (s : SocketLife) (a : LifeAct) : Prop := s.log.Loses a.registers (s.act a)

instance (s : SocketLife) (a : LifeAct) : Decidable (s.Loses a) :=
  inferInstanceAs (Decidable (s.log.Loses _ _))

theorem answered_init (h : lifeMachine.Init s) : s.log.Answered := by
  obtain ⟨id, table, rfl | ⟨fd, rfl⟩⟩ := h <;> exact ⟨.refl _, nofun⟩

theorem answered_next_iff (h : s.log.Answered) (a : LifeAct) :
    (s.next a).log.Answered ↔ ¬ s.Loses a := by
  rw [log_next]
  exact h.next_iff fun ks hks => nodup_of_act hks

/-- **Exactly once.**  As long as no operation that has to wait starts while another one of its kind
is pending, or without a watch, every callback is answered; and a step that does this leaves one
that is not. -/
theorem answered_until_lost (h : lifeMachine.ReachableBy (fun s a => ¬ s.Loses a) s) :
    s.log.Answered ∧ ∀ a, s.Enabled a → ((s.next a).log.Answered ↔ ¬ s.Loses a) := by
  have answered : s.log.Answered :=
    h.invariant (I := fun s => s.log.Answered) (fun s hi => answered_init hi)
      fun s a _ hi hl _ => (answered_next_iff hi a).mpr hl
  exact ⟨answered, fun a _ => answered_next_iff answered a⟩

/-- Operations on an open socket, each pending alone. -/
def answeredRun : List LifeAct :=
  [.op (.read true 8 (.error eagain) true), .op (.write false [1] (.error eagain) true),
   .op .cancelWrite, .op (.fire ⟨.read, 1⟩), .op (.accept (.ok 9) true),
   .tcpConnect true (.ok 6) (.error einprogress) true, .op .close, .drop]

theorem answeredRun_answered :
    (lifeMachine.runList (.fromFd 5 1 .new) answeredRun).log.Answered ∧
      ∀ a, (lifeMachine.runList (.fromFd 5 1 .new) answeredRun).Enabled a →
        (((lifeMachine.runList (.fromFd 5 1 .new) answeredRun).next a).log.Answered ↔
          ¬ (lifeMachine.runList (.fromFd 5 1 .new) answeredRun).Loses a) :=
  answered_until_lost (.of_follows ⟨1, .new, .inr ⟨5, rfl⟩⟩ (by decide))

/-- A second `read_if_ready` drops the callback of the first one; an `accept` whose watch is not
registered is not reported. -/
theorem lost_callbacks :
    (lifeMachine.Follows (fun _ _ => True) (.fromFd 5 1 .new)
        [.op (.readIfReady false true), .op (.readIfReady false true)] ∧
      ¬ (lifeMachine.runList (.fromFd 5 1 .new)
        [.op (.readIfReady false true), .op (.readIfReady false true)]).log.Answered) ∧
    (lifeMachine.Follows (fun _ _ => True) (.fromFd 5 1 .new)
        [.op (.accept (.error eagain) false)] ∧
      ¬ (lifeMachine.runList (.fromFd 5 1 .new)
        [.op (.accept (.error eagain) false)]).log.Answered) := by
  refine ⟨⟨by decide, fun h => ?_⟩, ⟨by decide, fun h => ?_⟩⟩
  · exact absurd h.once.length_eq (by decide)
  · exact absurd (h.reported 0) (by decide)

end SocketLife

end RustNet
