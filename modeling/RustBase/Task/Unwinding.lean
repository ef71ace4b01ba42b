import RustBase.Task.Sequencing
import RustBase.Task.Shutdown

/-!
# Task — callbacks that unwind

A callback that unwinds ends its worker.  `has_worker` and `num_tasks_blocking_shutdown` are
restored by the lines after the call, `did_process_task` in `worker_loop` and `after_run_task` in
the closure of `ThreadPool::wrap`, so neither is restored then.

* `noPanic_of_not_unwound`: a state with no worker unwound is reached without an unwinding.
* `never_claimed` and `never_shuts_down`: after an unwinding the sequence is claimed no more, and if
  the task was a counted one `TaskTracker::shutdown` does not return, in every continuation.
-/

namespace RustTask
open Support

namespace Pool

variable {s s' : Pool}

/-! ### A worker that unwound -/

theorem dead_of_unwound {x : WorkerPhase} (h : x.unwound = true) : ∃ q t, x = .dead q t := by
  cases x with
  | dead q t => exact ⟨q, t, rfl⟩
  | _ => cases h

/-- A worker that unwound takes no step. -/
theorem dead_next {w : Tid} {q : SeqId} {t : Task} (hw : s.workers w = .dead q t) {a : Action}
    (ha : s.Enabled a) : (s.next a).workers w = .dead q t := by
  rcases workers_cases ha with ⟨h, -⟩ | ⟨u, x, h, hu, -⟩
  · rw [h]; exact hw
  · have e : w ≠ u := by
      rintro rfl
      rw [hw] at hu
      cases hu
    rw [h, Function.update_of_ne e]; exact hw

theorem dead_run {w : Tid} {q : SeqId} {t : Task} {C : Pool → Action → Prop}
    (hr : poolMachine.Run C s s') (hw : s.workers w = .dead q t) : s'.workers w = .dead q t :=
  hr.keeps (I := fun s => s.workers w = .dead q t) (fun _ _ hi ha => dead_next hi ha) hw

end Pool

/-- A state with no worker unwound is reached without an unwinding step. -/
theorem noPanic_of_not_unwound {s : Pool} (h : poolMachine.Reachable s)
    (hu : ∀ w, (s.workers w).unwound = false) : poolMachine.ReachableBy NoPanic s := by
  refine h.avoiding (B := fun s => ∃ w q t, s.workers w = .dead q t) ?_ ?_ ?_
  · rintro s a ⟨w, q, t, hw⟩ ha
    exact ⟨w, q, t, Pool.dead_next hw ha⟩
  · intro s a hp ha
    have panics : a.panics = true := Bool.eq_true_of_not_eq_false hp
    rcases Pool.workers_cases ha with ⟨-, hn⟩ | ⟨w, x, hw, -, hx, -⟩
    · exact absurd hn hp
    · obtain ⟨q, t, rfl⟩ := Pool.dead_of_unwound (hx.trans panics)
      exact ⟨w, q, t, by rw [show (poolMachine.next s a).workers = _ from hw, Function.update_self]⟩
  · rintro ⟨w, q, t, hw⟩
    have := hu w
    rw [hw] at this
    cases this

/-! ### After an unwinding -/

namespace Pool

variable {s : Pool}

/-- Whatever happens next, no worker claims `q`. -/
def NeverClaimed (s : Pool) (q : SeqId) : Prop :=
  ∀ s', poolMachine.Run (fun _ _ => True) s s' → ∀ w, (s'.workers w).claim ≠ some q

/-- Whatever happens next, no thread returns from `TaskTracker::shutdown`. -/
def NeverShutsDown (s : Pool) : Prop :=
  ∀ s', poolMachine.Run (fun _ _ => True) s s' → ∀ c, (s'.closers c).pastTracker = false

end Pool

/-- The sequence of a worker that unwound is claimed no more: its flag stays set. -/
theorem never_claimed {s : Pool} (h : poolMachine.Reachable s) {w : Tid} {q : SeqId} {t : Task}
    (hw : s.workers w = .dead q t) : s.NeverClaimed q := by
  intro s' hr u hu
  have dead := Pool.dead_run hr hw
  have he := reachable_holderExclusive (h.run hr)
  have live : (s'.workers u).holder = some q := by
    cases hx : s'.workers u with
    | dead => rw [hx] at hu; cases hu
    | _ => rw [hx] at hu; exact hu
  have e : u = w := he.unique u w q live (by rw [dead]; rfl)
  rw [e, dead] at hu
  cases hu

/-- A counted task whose callback unwound stays counted. -/
theorem never_shuts_down {s : Pool} (h : poolMachine.Reachable s) {w : Tid} {q : SeqId} {t : Task}
    (hw : s.workers w = .dead q t) (ht : t.callback.blocks = true) : s.NeverShutsDown := by
  intro s' hr c
  have dead := Pool.dead_run hr hw
  have hb := reachable_balanced (h.run hr)
  have hs := reachable_settled (h.run hr)
  have held : (t.callback.id, true) ∈ s'.jobs (.worker w) := by
    simp [Pool.jobs, dead, WorkerPhase.jobs, Callback.job, ht]
  by_contra hc
  have zero := hs.zero c (Bool.eq_true_of_not_eq_false hc)
  exact absurd zero (Nat.ne_of_gt (hb.count_pos held))

end RustTask
