import RustBase.Support.Machine

/-!
# Task — the identity of a thread

`SequenceToken::current` and `current_default` are thread-locals.  Two guards set them:
`ScopedSequenceToken` and `CurrentDefaultHandle`, locals of `drive` on an IO thread and of each
iteration of `worker_loop`.  A task may call `attach_current_thread` and so run a `worker_loop` of
any pool inside its body, to any depth.

The frames of a thread are its calls, innermost first: `drive`, `worker_loop`, an iteration with its
guards, and the body of a task.  What `get_work` returns, whether the source may be run and whether
it has a task is anything.

The two guards differ in what their drop leaves: the handle puts back what was there before, the
token is cleared.  And there is no handle for a source that has no runner.
**`identity_kept_iff`** says what follows: token and default are what they should be exactly in the
runs in which no inner loop returns with an iteration behind it, and no task without a runner is run
where there is a default.
-/

namespace RustTask
open Support

/-- The thread-locals. -/
structure Identity where
  /-- `SequenceToken::current` -/
  token : Option ℕ
  /-- `current_default` -/
  default : Option ℕ
  deriving DecidableEq

/-- What `get_execution_environment` returns: the runner is the one that is alive. -/
structure ExecutionEnvironment where
  token : ℕ
  taskRunner : Option ℕ
  deriving DecidableEq

/-- What the thread-locals should be in the body of a task. -/
def ExecutionEnvironment.identity (env : ExecutionEnvironment) : Identity :=
  ⟨some env.token, env.taskRunner⟩

/-! ### The guards -/

namespace Identity

/-- `ScopedSequenceToken::new`. -/
def scopedSequenceToken (id : Identity) (token : ℕ) : Identity := { id with token := some token }

/-- The drop of a `ScopedSequenceToken`. -/
def dropToken (id : Identity) : Identity := { id with token := none }

/-- `CurrentDefaultHandle::new`; the handle holds what there was. -/
def currentDefaultHandle (id : Identity) (runner : ℕ) : Identity × Option ℕ :=
  ({ id with default := some runner }, id.default)

/-- The drop of a `CurrentDefaultHandle`. -/
def dropHandle (id : Identity) (previous : Option ℕ) : Identity := { id with default := previous }

end Identity

/-! ### The thread -/

inductive IdFrame where
  /-- `IoTaskRunner::drive`, with its handle -/
  | drive (env : ExecutionEnvironment) (previous : Option ℕ)
  /-- `worker_loop`, with what it found and whether it has popped a source -/
  | loop (before : Identity) (popped : Bool)
  /-- an iteration of the loop, with its handle if it has one, and whether it has run the task -/
  | source (env : ExecutionEnvironment) (handle : Option (Option ℕ)) (ran : Bool)
  | body (env : ExecutionEnvironment)
  deriving DecidableEq

structure IdThread where
  id : Identity
  frames : List IdFrame
  deriving DecidableEq

inductive IdAct where
  | drive (env : ExecutionEnvironment)
  | driveEnd
  /-- `worker_loop` is called, by a task or on a thread that does nothing else -/
  | attach
  /-- `get_work` returns a source, and the guards are made -/
  | pop (env : ExecutionEnvironment)
  /-- a task is called -/
  | run
  | bodyEnd
  /-- the guards are dropped -/
  | finish
  /-- `get_work` returns none -/
  | leave
  deriving DecidableEq

namespace IdThread

def init : IdThread := ⟨⟨none, none⟩, []⟩

def Enabled (s : IdThread) (a : IdAct) : Prop :=
  match a, s.frames with
  | .drive env, [] => env.taskRunner.isSome
  | .driveEnd, [.drive _ _] => True
  | .attach, [] | .attach, .body _ :: _ => True
  | .pop _, .loop _ _ :: _ => True
  | .run, .source _ _ false :: _ | .run, .drive _ _ :: _ => True
  | .bodyEnd, .body _ :: _ => True
  | .finish, .source _ _ _ :: _ => True
  | .leave, .loop _ _ :: _ => True
  | _, _ => False

/-- The guards of an iteration: the handle is there when the source has a runner. -/
def guards (id : Identity) (env : ExecutionEnvironment) : Identity × Option (Option ℕ) :=
  let id := id.scopedSequenceToken env.token
  match env.taskRunner with
  | none => (id, none)
  | some runner => ((id.currentDefaultHandle runner).1, some (id.currentDefaultHandle runner).2)

/-- They are dropped in the order opposite to that in which they were made. -/
def dropGuards (id : Identity) : Option (Option ℕ) → Identity
  | none => id.dropToken
  | some previous => (id.dropHandle previous).dropToken

def next (s : IdThread) (a : IdAct) : IdThread :=
  match a, s.frames with
  | .drive env, fs =>
      let g := guards s.id env
      ⟨g.1, .drive env (g.2.getD s.id.default) :: fs⟩
  | .driveEnd, .drive _ previous :: fs => ⟨dropGuards s.id (some previous), fs⟩
  | .attach, fs => ⟨s.id, .loop s.id false :: fs⟩
  | .pop env, .loop before _ :: fs =>
      let g := guards s.id env
      ⟨g.1, .source env g.2 false :: .loop before true :: fs⟩
  | .run, .source env handle _ :: fs => ⟨s.id, .body env :: .source env handle true :: fs⟩
  | .run, .drive env previous :: fs => ⟨s.id, .body env :: .drive env previous :: fs⟩
  | .bodyEnd, .body _ :: fs => ⟨s.id, fs⟩
  | .finish, .source _ handle _ :: fs => ⟨dropGuards s.id handle, fs⟩
  | .leave, .loop _ _ :: fs => ⟨s.id, fs⟩
  | _, _ => s

/-- The body the thread is in, with what the thread-locals are. -/
def observe (s : IdThread) : List (ExecutionEnvironment × Identity) :=
  match s.frames with
  | .body env :: _ => [(env, s.id)]
  | _ => []

end IdThread

structure IdLog where
  /-- what the thread-locals were in the bodies, at each step there -/
  bodies : List (ExecutionEnvironment × Identity)
  /-- what the loops that have returned found and left -/
  returns : List (Identity × Identity)

def IdLog.record (s : IdThread) (a : IdAct) (h : IdLog) : IdLog where
  bodies := h.bodies ++ s.observe
  returns := match a, s.frames with
    | .leave, .loop before _ :: _ => h.returns ++ [(before, s.id)]
    | _, _ => h.returns

def idMachine : Machine (IdThread × IdLog) IdAct :=
  Machine.withHistory
    { Init := fun s => s = .init
      Enabled := IdThread.Enabled
      next := IdThread.next }
    ⟨[], []⟩ IdLog.record

/-- In every body, at every time, the thread-locals are those of the task's sequence; and every loop
that has returned left what it found. -/
structure IdentityKept (x : IdThread × IdLog) : Prop where
  bodies : ∀ o ∈ x.2.bodies ++ x.1.observe, o.2 = o.1.identity
  returns : ∀ r ∈ x.2.returns, r.2 = r.1

/-- A loop that returns has popped nothing, or found no token; and the task that is run has a
runner, or there is no default. -/
def Harmless (x : IdThread × IdLog) (a : IdAct) : Prop :=
  match a, x.1.frames with
  | .leave, .loop before popped :: _ => popped = false ∨ before.token = none
  | .run, .source env _ _ :: _ => env.taskRunner.isSome ∨ x.1.id.default = none
  | _, _ => True

/-! ### What the guards leave -/

section Guards

variable (id : Identity) (env : ExecutionEnvironment)

/-- With a runner, or where there is no default, the body finds what it should. -/
theorem guards_identity (h : env.taskRunner.isSome ∨ (IdThread.guards id env).1.default = none) :
    (IdThread.guards id env).1 = env.identity := by
  unfold IdThread.guards ExecutionEnvironment.identity at *
  cases hr : env.taskRunner with
  | none =>
      simp only [hr, Option.isSome_none, Bool.false_eq_true, false_or] at h ⊢
      exact congrArg _ h
  | some runner => rfl

/-- The drop of the guards leaves the default that was there, and no token. -/
theorem dropGuards_guards :
    IdThread.dropGuards (IdThread.guards id env).1 (IdThread.guards id env).2 =
      ⟨none, id.default⟩ := by
  unfold IdThread.guards
  cases env.taskRunner <;> rfl

end Guards

/-! ### The invariant -/

/-- The thread-locals of a thread with these frames, when all steps were harmless. -/
def Fits : List IdFrame → Identity → Prop
  | [], id => id = ⟨none, none⟩
  | .drive env previous :: fs, id =>
      id = env.identity ∧ Fits fs (IdThread.dropGuards id (some previous))
  | .loop before popped :: fs, id =>
      id.default = before.default ∧ id.token = (if popped then none else before.token) ∧
        Fits fs before
  | .source env handle ran :: fs, id =>
      (ran = true ∨ env.taskRunner.isSome ∨ id.default = none → id = env.identity) ∧
        Fits fs (IdThread.dropGuards id handle)
  | .body env :: fs, id => id = env.identity ∧ Fits fs id

section Steps

variable {x : IdThread × IdLog} {a : IdAct}

theorem Fits.drive {id : Identity} {env : ExecutionEnvironment} (h : Fits [] id)
    (hr : env.taskRunner.isSome) :
    Fits [.drive env ((IdThread.guards id env).2.getD id.default)] (IdThread.guards id env).1 := by
  obtain rfl : id = ⟨none, none⟩ := h
  obtain ⟨runner, hr⟩ := Option.isSome_iff_exists.mp hr
  refine ⟨guards_identity _ env (.inl (by rw [hr]; rfl)), ?_⟩
  simp only [IdThread.guards, hr]
  rfl

theorem Fits.pop {id before : Identity} {popped : Bool} {fs : List IdFrame}
    (h : Fits (.loop before popped :: fs) id) (env : ExecutionEnvironment) :
    Fits (.source env (IdThread.guards id env).2 false :: .loop before true :: fs)
      (IdThread.guards id env).1 := by
  obtain ⟨hd, -, hfs⟩ := h
  refine ⟨fun hr => guards_identity id env (hr.resolve_left Bool.false_ne_true), ?_⟩
  rw [dropGuards_guards]
  exact ⟨hd, rfl, hfs⟩

/-- A loop that may return leaves what it found. -/
theorem Fits.leave {id before : Identity} {popped : Bool} {fs : List IdFrame}
    (h : Fits (.loop before popped :: fs) id) (hl : popped = false ∨ before.token = none) :
    id = before := by
  obtain ⟨hd, ht, -⟩ := h
  have htoken : id.token = before.token := by
    rcases hl with rfl | hl
    · exact ht
    · rw [ht, hl, ite_self]
  cases id
  cases before
  obtain rfl : _ = _ := htoken
  obtain rfl : _ = _ := hd
  rfl

theorem Fits.next (h : Fits x.1.frames x.1.id) (hc : Harmless x a) (ha : x.1.Enabled a) :
    Fits (x.1.next a).frames (x.1.next a).id := by
  obtain ⟨⟨id, fs⟩, l⟩ := x
  dsimp only [IdThread.Enabled] at ha
  split at ha
  · exact h.drive ha
  · exact h.2
  · exact ⟨rfl, rfl, h⟩
  · exact ⟨rfl, rfl, h⟩
  · exact h.pop _
  · exact ⟨h.1 (.inr hc), fun _ => h.1 (.inr hc), h.2⟩
  · exact ⟨h.1, h⟩
  · exact h.2
  · exact h.2
  · obtain rfl : id = _ := h.leave hc
    exact h.2.2
  · exact ha.elim

/-- What is observed of a body is what it should be. -/
theorem Fits.observe {s : IdThread} (h : Fits s.frames s.id) :
    ∀ o ∈ s.observe, o.2 = o.1.identity := by
  intro o ho
  obtain ⟨id, fs⟩ := s
  dsimp only [IdThread.observe] at ho
  split at ho
  · rw [List.mem_singleton.mp ho]
    exact h.1
  · cases ho

/-- What was not kept stays so. -/
theorem IdentityKept.of_next (h : IdentityKept (x.1.next a, IdLog.record x.1 a x.2)) :
    IdentityKept x := by
  refine ⟨fun o ho => h.bodies o (List.mem_append_left _ ho), fun r hr => h.returns r ?_⟩
  simp only [IdLog.record]
  split
  · exact List.mem_append_left _ hr
  · exact hr

theorem IdentityKept.next (h : IdentityKept x) (hf : Fits x.1.frames x.1.id) (hc : Harmless x a)
    (ha : x.1.Enabled a) : IdentityKept (x.1.next a, IdLog.record x.1 a x.2) := by
  refine ⟨fun o ho => ?_, fun r hr => ?_⟩
  · rcases List.mem_append.mp ho with ho | ho
    · exact h.bodies o ho
    · exact (hf.next hc ha).observe o ho
  · obtain ⟨⟨id, fs⟩, l⟩ := x
    dsimp only [IdLog.record] at hr
    split at hr
    · rcases List.mem_append.mp hr with hr | hr
      · exact h.returns r hr
      · rw [List.mem_singleton.mp hr]
        exact hf.leave hc
    · exact h.returns r hr

/-- A step that is not harmless does the harm. -/
theorem not_kept_of_not_harmless (hf : Fits x.1.frames x.1.id) (hc : ¬ Harmless x a)
    (ha : x.1.Enabled a) : ¬ IdentityKept (x.1.next a, IdLog.record x.1 a x.2) := by
  obtain ⟨⟨id, fs⟩, l⟩ := x
  intro hk
  dsimp only [Harmless] at hc
  split at hc
  · -- the loop leaves no token where it found one
    next before popped fs =>
      obtain ⟨hp, hb⟩ := not_or.mp hc
      have he := hk.returns (before, id) (List.mem_append_right _ List.mem_cons_self)
      have ht := hf.2.1
      rw [if_pos (eq_true_of_ne_false hp)] at ht
      exact hb ((congrArg Identity.token he).symm.trans ht)
  · -- the body finds the default of another sequence
    next env handle ran fs =>
      obtain ⟨hr, hd⟩ := not_or.mp hc
      have he := hk.bodies (env, id) (List.mem_append_right _ List.mem_cons_self)
      exact hd ((congrArg Identity.default he).trans (Option.not_isSome_iff_eq_none.mp hr))
  · exact hc trivial

end Steps

theorem kept_of_harmless {x : IdThread × IdLog} (h : idMachine.ReachableBy Harmless x) :
    Fits x.1.frames x.1.id ∧ IdentityKept x := by
  refine h.invariant (I := fun x => Fits x.1.frames x.1.id ∧ IdentityKept x) ?_ ?_
  · rintro ⟨s, l⟩ ⟨hs, rfl⟩
    obtain rfl : s = .init := hs
    exact ⟨rfl, nofun, nofun⟩
  · rintro x a - ⟨hf, hk⟩ hc ha
    exact ⟨hf.next hc ha, hk.next hf hc ha⟩

/-- **Identity.**  Token and default are those of the task in every body, and after every loop what
they were before it, exactly in the runs with harmless steps only. -/
theorem identity_kept_iff {x : IdThread × IdLog} (h : idMachine.Reachable x) :
    IdentityKept x ↔ idMachine.ReachableBy Harmless x := by
  refine ⟨?_, fun hx => (kept_of_harmless hx).2⟩
  refine h.invariant (I := fun x => IdentityKept x → idMachine.ReachableBy Harmless x) ?_ ?_
  · exact fun x hx _ => .of_init hx
  · intro x a _ ih _ ha hk
    have hx := ih hk.of_next
    refine hx.run (.more .refl ?_ ha)
    by_contra hc
    exact not_kept_of_not_harmless (kept_of_harmless hx).1 hc ha hk

/-! ### Two runs -/

instance IdThread.decidableEnabled (s : IdThread) (a : IdAct) : Decidable (s.Enabled a) := by
  unfold IdThread.Enabled
  split <;> infer_instance

instance (x : IdThread × IdLog) (a : IdAct) : Decidable (Harmless x a) := by
  unfold Harmless
  split <;> infer_instance

instance (x : IdThread × IdLog) (a : IdAct) : Decidable (idMachine.Enabled x a) :=
  inferInstanceAs (Decidable (x.1.Enabled a))

/-- A worker runs a task of a sequence with a runner, and then one of a sequence without. -/
def twoSources : List IdAct :=
  [.attach, .pop ⟨1, some 10⟩, .run, .bodyEnd, .finish, .pop ⟨2, none⟩, .run, .bodyEnd, .finish,
    .leave]

/-- A task attaches its thread to a pool, where a task of a sequence without a runner is run. -/
def innerLoop : List IdAct :=
  [.attach, .pop ⟨1, some 10⟩, .run, .attach, .pop ⟨2, none⟩, .run, .bodyEnd, .finish, .leave]

theorem twoSources_kept :
    IdentityKept (idMachine.runList (.init, ⟨[], []⟩) twoSources) := by
  have all : idMachine.Follows (fun _ _ => True) (.init, ⟨[], []⟩) twoSources := by decide
  have harmless : idMachine.Follows Harmless (.init, ⟨[], []⟩) twoSources := by decide
  exact (identity_kept_iff (.of_follows ⟨rfl, rfl⟩ all)).mpr (.of_follows ⟨rfl, rfl⟩ harmless)

/-- The inner task has the default of the outer one, and the outer task goes on without a token. -/
theorem innerLoop_not_kept :
    let x := idMachine.runList (.init, ⟨[], []⟩) innerLoop
    idMachine.Reachable x ∧ (⟨2, none⟩, ⟨some 2, some 10⟩) ∈ x.2.bodies ∧
      x.2.returns = [(⟨some 1, some 10⟩, ⟨none, some 10⟩)] ∧
      x.1.observe = [(⟨1, some 10⟩, ⟨none, some 10⟩)] ∧ ¬ IdentityKept x := by
  intro x
  have all : idMachine.Follows (fun _ _ => True) (.init, ⟨[], []⟩) innerLoop := by decide
  refine ⟨.of_follows ⟨rfl, rfl⟩ all, by decide, by decide, by decide, fun hk => ?_⟩
  have := hk.returns (⟨some 1, some 10⟩, ⟨none, some 10⟩) (by decide)
  cases this

end RustTask
