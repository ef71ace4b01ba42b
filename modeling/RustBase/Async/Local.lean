import RustBase.Async.Context

/-!
# Async — LocalKey::with

`with` finds the storage of the task in `CURRENT`, locks its map, has the key's `init` make the
value when there is none, and calls the closure with it.  The lock is held until the closure has
returned, so also while `init` and the closure run.  These may do anything: call `with` again, tag,
poll and block on other tasks.

* A call of `with` is on the stack of its thread, in the poll of the number `depth` there.  It ends
  before that poll does.
* A future is polled by one thread at a time (`busy`): `poll` borrows it.
* A thread that locks a map it has locked does not go on (`stuck`).
* A value is a reference to what is in the map, which stays in its box.  No closure panics.

**`with_nests_iff`**: every call gets the task's own value of the key, made once, and no thread
locks what it has locked, exactly when no `with` is called inside another one of the same task.
-/

namespace RustAsync
open Support

/-- A call of `LocalKey::with` that has locked the map. -/
structure WithCall where
  /-- the storage whose map it has locked -/
  locals : ℕ
  key : ℕ
  /-- how many polls the thread was in -/
  depth : ℕ
  f : ℕ → ℕ
  /-- what the closure was called with; none while `init` runs -/
  value : Option ℕ

structure LocalsState where
  ctx : Contexts
  /-- the futures that are being polled -/
  busy : ℕ → Bool
  /-- the calls of `with` that are active on a thread, innermost first -/
  calls : ℕ → List WithCall
  /-- the `TaskLocals` -/
  map : ℕ → ℕ → Option ℕ
  /-- the thread that has locked the map -/
  locked : ℕ → Option ℕ
  stuck : ℕ → Bool

inductive LocalsAct where
  | context (a : ContextAct)
  | withBegin (t key : ℕ) (f : ℕ → ℕ)
  /-- `init` returns the value -/
  | initEnd (t v : ℕ)
  /-- the closure returns -/
  | withEnd (t : ℕ)

/-- A call of `with` that has returned, in a poll of that future. -/
structure WithReturn where
  task : ℕ
  key : ℕ
  f : ℕ → ℕ
  result : ℕ

structure LocalsLog where
  /-- the calls of `init`, by the storage and the key -/
  inits : List (ℕ × ℕ)
  returns : List WithReturn

namespace LocalsState

def init : LocalsState where
  ctx := .init
  busy _ := false
  calls _ := []
  map _ _ := none
  locked _ := none
  stuck _ := false

/-- No call of `with` was made in the innermost poll of the thread. -/
def Outside (s : LocalsState) (t : ℕ) : Prop :=
  ∀ w ∈ (s.calls t).head?, w.depth < (s.ctx.frames t).length

/-- The thread of an action on the context. -/
def thread : ContextAct → ℕ
  | .spawnOn t _ | .spawn t | .blockOn t | .pollBegin t _ _ | .pollEnd t _ _ _ => t

def Enabled (s : LocalsState) : LocalsAct → Prop
  | .context a =>
      s.stuck (thread a) = false ∧ s.ctx.Enabled a ∧
        match a with
        | .pollBegin _ task _ => s.busy task = false
        | .pollEnd t _ _ _ => s.Outside t
        | _ => True
  -- a map that another thread has locked is waited for
  | .withBegin t _ _ => s.stuck t = false ∧ ∃ c ∈ s.ctx.current t,
      s.locked c.locals = none ∨ s.locked c.locals = some t
  | .initEnd t _ => s.stuck t = false ∧ ∃ w ∈ (s.calls t).head?,
      w.depth = (s.ctx.frames t).length ∧ w.value = none
  | .withEnd t => s.stuck t = false ∧ ∃ w ∈ (s.calls t).head?,
      w.depth = (s.ctx.frames t).length ∧ w.value.isSome

/-- `LocalKey::with`, up to the call of `init` or of the closure. -/
def withBegin (s : LocalsState) (t key : ℕ) (f : ℕ → ℕ) : LocalsState :=
  match s.ctx.current t with
  | none => s
  | some c =>
      match s.locked c.locals with
      | some _ => { s with stuck := Function.update s.stuck t true }
      | none =>
          let w : WithCall :=
            { locals := c.locals
              key := key
              depth := (s.ctx.frames t).length
              f := f
              value := s.map c.locals key }
          { s with
            locked := Function.update s.locked c.locals (some t)
            calls := Function.update s.calls t (w :: s.calls t) }

/-- `or_insert_with`. -/
def initEnd (s : LocalsState) (t v : ℕ) : LocalsState :=
  match s.calls t with
  | [] => s
  | w :: ws =>
      { s with
        map := Function.update s.map w.locals (Function.update (s.map w.locals) w.key (some v))
        calls := Function.update s.calls t ({ w with value := some v } :: ws) }

/-- The guard of the map is dropped. -/
def withEnd (s : LocalsState) (t : ℕ) : LocalsState :=
  match s.calls t with
  | [] => s
  | w :: ws =>
      { s with
        locked := Function.update s.locked w.locals none
        calls := Function.update s.calls t ws }

def next (s : LocalsState) : LocalsAct → LocalsState
  | .context a =>
      { s with
        ctx := s.ctx.next a
        busy := match a with
          | .pollBegin _ task _ => Function.update s.busy task true
          | .pollEnd _ f _ _ => Function.update s.busy f.task false
          | _ => s.busy }
  | .withBegin t key f => s.withBegin t key f
  | .initEnd t v => s.initEnd t v
  | .withEnd t => s.withEnd t

end LocalsState

def LocalsLog.record (s : LocalsState) (a : LocalsAct) (h : LocalsLog) : LocalsLog :=
  match a with
  | .initEnd t _ =>
      match s.calls t with
      | [] => h
      | w :: _ => { h with inits := h.inits ++ [(w.locals, w.key)] }
  | .withEnd t =>
      match s.calls t, s.ctx.nest t with
      | w :: _, task :: _ =>
          match w.value with
          | none => h
          | some v => { h with returns := h.returns ++ [⟨task, w.key, w.f, w.f v⟩] }
      | _, _ => h
  | _ => h

def localsMachine : Machine (LocalsState × LocalsLog) LocalsAct :=
  Machine.withHistory
    { Init := fun s => s = .init
      Enabled := LocalsState.Enabled
      next := LocalsState.next }
    ⟨[], []⟩ LocalsLog.record

/-! ### The property -/

/-- Every call has the task's own value, made once, and no thread locks what it has locked. -/
structure WithNests (s : LocalsState) (h : LocalsLog) : Prop where
  not_stuck : ∀ t, s.stuck t = false
  /-- a call belongs to the poll it was made in, and its closure has the value in the map -/
  own : ∀ t, ∀ w ∈ s.calls t, ∃ task x, (s.ctx.nest t).reverse[w.depth - 1]? = some task ∧
    s.ctx.tagged[task]? = some x ∧ x.locals = w.locals ∧
    ∀ v, w.value = some v → s.map w.locals w.key = some v
  /-- what was returned is the closure applied to the value of the task -/
  returns : ∀ r ∈ h.returns, ∃ x v, s.ctx.tagged[r.task]? = some x ∧
    s.map x.locals r.key = some v ∧ r.result = r.f v
  once : h.inits.Nodup
  /-- a call that is not inside another one of the task gets the lock at once -/
  free : ∀ t c, s.ctx.current t = some c → s.Outside t → s.locked c.locals = none

/-- No `with` is called in the `init` or the closure of another one of the task. -/
def NotNested (x : LocalsState × LocalsLog) : LocalsAct → Prop
  | .withBegin t _ _ => x.1.Outside t
  | _ => True

/-! ### The invariant -/

/-- The futures a thread polls, outermost first. -/
def LocalsState.stack (s : LocalsState) (t : ℕ) : List ℕ := (s.ctx.nest t).reverse

theorem Saved.tagged {l : List Tagged} {fs : List PollFrame} (h : Saved l fs) {f : PollFrame}
    (hf : f ∈ fs) : ∃ x, l[f.task]? = some x := by
  induction fs with
  | nil => cases hf
  | cons g gs ih =>
      obtain ⟨hx, -, hrest⟩ := h
      rcases List.mem_cons.mp hf with rfl | hf
      · exact hx
      · exact ih hrest hf

section Calls

variable {calls : ℕ → List WithCall} {locked : ℕ → Option ℕ} {t u : ℕ} {w w' : WithCall}
  {ws : List WithCall}

theorem mem_update_iff :
    w ∈ Function.update calls t ws u ↔ (u = t ∧ w ∈ ws) ∨ (u ≠ t ∧ w ∈ calls u) := by
  by_cases e : u = t
  · subst e
    simp
  · simp [e]

theorem mem_update_cons (hw : w ∈ Function.update calls t (w' :: calls t) u) :
    w ∈ calls u ∨ (u = t ∧ w = w') := by
  rcases mem_update_iff.mp hw with ⟨rfl, hw⟩ | ⟨-, hw⟩
  · rcases List.mem_cons.mp hw with hw | hw
    · exact .inr ⟨rfl, hw⟩
    · exact .inl hw
  · exact .inl hw

/-- The map of a storage is locked by the thread that has a call which uses it. -/
def Locks (locked : ℕ → Option ℕ) (calls : ℕ → List WithCall) : Prop :=
  ∀ l t, locked l = some t ↔ ∃ w ∈ calls t, w.locals = l

theorem locks_push (h : Locks locked calls) {l : ℕ} (hfree : locked l = none) (hl : w.locals = l) :
    Locks (Function.update locked l (some t)) (Function.update calls t (w :: calls t)) := by
  intro l' u
  by_cases e : l' = l
  · subst e
    rw [Function.update_self]
    constructor
    · intro hu
      cases hu
      exact ⟨w, mem_update_iff.mpr (.inl ⟨rfl, List.mem_cons_self⟩), hl⟩
    · rintro ⟨w', hw', hl'⟩
      rcases mem_update_cons hw' with hw' | ⟨rfl, -⟩
      · have := (h l' u).mpr ⟨w', hw', hl'⟩
        rw [hfree] at this
        cases this
      · rfl
  · rw [Function.update_of_ne e, h]
    constructor
    · rintro ⟨w', hw', hl'⟩
      refine ⟨w', mem_update_iff.mpr ?_, hl'⟩
      by_cases e' : u = t
      · exact .inl ⟨e', List.mem_cons_of_mem _ (e' ▸ hw')⟩
      · exact .inr ⟨e', hw'⟩
    · rintro ⟨w', hw', hl'⟩
      rcases mem_update_cons hw' with hw' | ⟨-, rfl⟩
      · exact ⟨w', hw', hl'⟩
      · exact absurd (hl'.symm.trans hl) e

theorem locks_replace (h : Locks locked calls) (hc : calls t = w :: ws)
    (hl : w'.locals = w.locals) : Locks locked (Function.update calls t (w' :: ws)) := by
  intro l u
  rw [h]
  by_cases e : u = t
  · subst e
    rw [hc, Function.update_self]
    simp [hl]
  · rw [Function.update_of_ne e]

theorem locks_pop (h : Locks locked calls) (hc : calls t = w :: ws)
    (hne : ∀ {u : ℕ} {w' : WithCall}, w' ∈ Function.update calls t ws u → w'.locals ≠ w.locals) :
    Locks (Function.update locked w.locals none) (Function.update calls t ws) := by
  intro l u
  by_cases e : l = w.locals
  · subst e
    rw [Function.update_self]
    constructor
    · intro hu
      cases hu
    · rintro ⟨w', hw', hl⟩
      exact absurd hl (hne hw')
  · rw [Function.update_of_ne e, h]
    by_cases e' : u = t
    · subst e'
      rw [hc, Function.update_self]
      simp [Ne.symm e]
    · rw [Function.update_of_ne e']

end Calls

structure LocalsInv (s : LocalsState) (h : LocalsLog) : Prop where
  ctx : s.ctx.Inv
  running : ∀ t, s.stuck t = false
  /-- a future is polled in one place -/
  unique : ∀ {t t' i i' task : ℕ}, (s.stack t)[i]? = some task → (s.stack t')[i']? = some task →
    t = t' ∧ i = i'
  busy : ∀ t, ∀ task ∈ s.stack t, s.busy task = true
  /-- a call is made in the poll of the future whose storage it uses -/
  owner : ∀ t, ∀ w ∈ s.calls t, ∃ i, (s.stack t)[i]? = some w.locals ∧ w.depth = i + 1
  depths : ∀ t, (s.calls t).Pairwise fun w w' => w'.depth < w.depth
  locked : ∀ l t, s.locked l = some t ↔ ∃ w ∈ s.calls t, w.locals = l
  value : ∀ t, ∀ w ∈ s.calls t, s.map w.locals w.key = w.value
  inits : h.inits.Nodup ∧ ∀ x ∈ h.inits, s.map x.1 x.2 ≠ none
  returns : ∀ r ∈ h.returns, ∃ x v, s.ctx.tagged[r.task]? = some x ∧
    s.map x.locals r.key = some v ∧ r.result = r.f v

namespace LocalsInv

variable {s : LocalsState} {h : LocalsLog}

theorem init : LocalsInv .init ⟨[], []⟩ where
  ctx := .init
  running _ := rfl
  unique h := by simp [LocalsState.stack, LocalsState.init, Contexts.init, Contexts.nest] at h
  busy t task h := by simp [LocalsState.stack, LocalsState.init, Contexts.init, Contexts.nest] at h
  owner _ _ h := by cases h
  depths _ := .nil
  locked l t := by simp [LocalsState.init]
  value _ _ h := by cases h
  inits := ⟨.nil, nofun⟩
  returns := nofun

/-- What is polled was tagged, and the number of its storage is its own. -/
theorem tagged_of_mem (hi : LocalsInv s h) {t task : ℕ} (hm : task ∈ s.ctx.nest t) :
    ∃ x, s.ctx.tagged[task]? = some x ∧ x.locals = task := by
  obtain ⟨f, hf, rfl⟩ := List.mem_map.mp hm
  obtain ⟨x, hx⟩ := (hi.ctx.saved t).tagged hf
  exact ⟨x, hx, hi.ctx.locals _ x hx⟩

/-- The storage in `CURRENT` is the innermost future's. -/
theorem locals_current (hi : LocalsInv s h) {t : ℕ} {c : TaskContext}
    (hc : s.ctx.current t = some c) : ∃ fs, s.ctx.nest t = c.locals :: fs := by
  cases hf : s.ctx.frames t with
  | nil =>
      have hcur := hi.ctx.current t
      rw [hc, Contexts.nest, hf] at hcur
      cases hcur
  | cons f fs =>
      obtain ⟨x, hx, hcx⟩ := hi.ctx.current_of_frame hf
      obtain rfl : c = x.context := Option.some.inj (hc.symm.trans hcx)
      have hl : x.context.locals = f.task := hi.ctx.locals f.task x hx
      refine ⟨fs.map (·.task), ?_⟩
      rw [Contexts.nest, hf, hl]
      rfl

/-- The calls of a thread that is outside of any were made in polls further out. -/
theorem depth_lt (hi : LocalsInv s h) {t : ℕ} (ho : s.Outside t) {w : WithCall}
    (hw : w ∈ s.calls t) : w.depth < (s.ctx.frames t).length := by
  cases hc : s.calls t with
  | nil =>
      rw [hc] at hw
      cases hw
  | cons w₀ ws =>
      have h₀ : w₀.depth < (s.ctx.frames t).length := ho w₀ (by rw [hc]; rfl)
      rw [hc] at hw
      rcases List.mem_cons.mp hw with rfl | hw
      · exact h₀
      · have hd := hi.depths t
        rw [hc] at hd
        exact Nat.lt_trans (List.rel_of_pairwise_cons hd hw) h₀

/-- Nobody has locked the map of a task that is outside of any call. -/
theorem free (hi : LocalsInv s h) {t : ℕ} {c : TaskContext} (hc : s.ctx.current t = some c)
    (ho : s.Outside t) : s.locked c.locals = none := by
  cases hl : s.locked c.locals with
  | none => rfl
  | some t' =>
      obtain ⟨w, hw, he⟩ := (hi.locked _ _).mp hl
      obtain ⟨i, hi', hd⟩ := hi.owner t' w hw
      obtain ⟨fs, hn⟩ := hi.locals_current hc
      have top : (s.stack t)[fs.length]? = some c.locals := by
        simp [LocalsState.stack, hn]
      rw [he] at hi'
      obtain ⟨rfl, rfl⟩ := hi.unique top hi'
      have hlen : (s.ctx.frames t).length = fs.length + 1 := by
        have := congrArg List.length hn
        simpa [Contexts.nest] using this
      have := hi.depth_lt ho hw
      omega

/-- The call a thread is in is the only one that uses its storage. -/
theorem call_unique (hi : LocalsInv s h) {t t' : ℕ} {w w' : WithCall} {ws : List WithCall}
    (hc : s.calls t = w :: ws) (hw : w' ∈ s.calls t') (hl : w'.locals = w.locals) :
    t' = t ∧ w' ∉ ws := by
  obtain ⟨i, hs, hd⟩ := hi.owner t w (by rw [hc]; exact List.mem_cons_self)
  obtain ⟨i', hs', hd'⟩ := hi.owner t' w' hw
  rw [hl] at hs'
  obtain ⟨rfl, rfl⟩ := hi.unique hs hs'
  refine ⟨rfl, fun hm => ?_⟩
  have depths := hi.depths t
  rw [hc] at depths
  have := List.rel_of_pairwise_cons depths hm
  omega

theorem other_call (hi : LocalsInv s h) {t u : ℕ} {w w' : WithCall} {ws : List WithCall}
    (hc : s.calls t = w :: ws) (hw : w' ∈ Function.update s.calls t ws u) :
    w' ∈ s.calls u ∧ w'.locals ≠ w.locals := by
  rcases mem_update_iff.mp hw with ⟨rfl, hm⟩ | ⟨e, hm⟩
  · have hm' : w' ∈ s.calls u := by
      rw [hc]
      exact List.mem_cons_of_mem _ hm
    exact ⟨hm', fun hl => (hi.call_unique hc hm' hl).2 hm⟩
  · exact ⟨hm, fun hl => e (hi.call_unique hc hm hl).1⟩

/-! ### One step of the context -/

/-- What is tagged changes neither the polls nor the calls. -/
theorem tag (hi : LocalsInv s h) {a : ContextAct} {r : RuntimeId} {o : TagOrigin}
    (ha : s.ctx.next a = s.ctx.tagWith r o) (hctx : (s.ctx.next a).Inv) :
    LocalsInv { s with ctx := s.ctx.next a } h := by
  refine
    { hi with
      ctx := hctx
      unique := ?_
      busy := ?_
      owner := ?_
      returns := fun x hx => ?_ }
  · rw [ha]
    exact hi.unique
  · rw [ha]
    exact hi.busy
  · rw [ha]
    exact hi.owner
  · obtain ⟨y, v, hy, hv⟩ := hi.returns x hx
    refine ⟨y, v, ?_, hv⟩
    rw [ha]
    exact getElem?_tag hy

theorem stack_pollBegin (s : LocalsState) (t task : ℕ) (x : Tagged) (u : ℕ) :
    (s.next (.context (.pollBegin t task x))).stack u =
      if u = t then s.stack t ++ [task] else s.stack u := by
  by_cases e : u = t
  · subst e
    simp [LocalsState.stack, LocalsState.next, Contexts.next, Contexts.nest]
  · simp [LocalsState.stack, LocalsState.next, Contexts.next, Contexts.nest, e]

theorem pollBegin (hi : LocalsInv s h) {t task : ℕ} {x : Tagged}
    (ha : s.Enabled (.context (.pollBegin t task x))) :
    LocalsInv (s.next (.context (.pollBegin t task x))) h := by
  obtain ⟨-, hx, hb⟩ := ha
  -- the future was polled nowhere
  have fresh : ∀ u i : ℕ, (s.stack u)[i]? ≠ some task := by
    intro u i hs
    have := hi.busy u task (List.mem_of_getElem? hs)
    rw [hb] at this
    cases this
  have place : ∀ {u i task' : ℕ}, ((s.next (.context (.pollBegin t task x))).stack u)[i]? =
      some task' → (s.stack u)[i]? = some task' ∨
        (u = t ∧ i = (s.stack t).length ∧ task' = task) := by
    intro u i task' hs
    rw [stack_pollBegin] at hs
    split at hs
    · next e =>
        subst e
        rcases getElem?_concat.mp hs with hs | ⟨hs, hs'⟩
        · exact .inl hs
        · exact .inr ⟨rfl, hs, hs'.symm⟩
    · exact .inl hs
  refine
    { hi with
      ctx := hi.ctx.next hx
      unique := fun hs hs' => ?_
      busy := fun u task' hm => ?_
      owner := fun u w hw => ?_ }
  · rcases place hs with h₁ | ⟨hu, hp, ht⟩ <;> rcases place hs' with h₂ | ⟨hu', hp', ht'⟩
    · exact hi.unique h₁ h₂
    · rw [ht'] at h₁
      exact absurd h₁ (fresh _ _)
    · rw [ht] at h₂
      exact absurd h₂ (fresh _ _)
    · exact ⟨hu.trans hu'.symm, hp.trans hp'.symm⟩
  · change Function.update s.busy task true task' = true
    obtain ⟨i, hs⟩ := List.getElem?_of_mem hm
    rcases place hs with hs | ⟨-, -, rfl⟩
    · by_cases e : task' = task
      · rw [e, Function.update_self]
      · rw [Function.update_of_ne e]
        exact hi.busy u task' (List.mem_of_getElem? hs)
    · rw [Function.update_self]
  · obtain ⟨i, hs, hd⟩ := hi.owner u w hw
    refine ⟨i, ?_, hd⟩
    rw [stack_pollBegin]
    split
    · next e =>
        subst e
        exact getElem?_concat.mpr (.inl hs)
    · exact hs

theorem pollEnd (hi : LocalsInv s h) {t : ℕ} {f : PollFrame} {fs : List PollFrame} {b : Bool}
    (ha : s.Enabled (.context (.pollEnd t f fs b))) :
    LocalsInv (s.next (.context (.pollEnd t f fs b))) h := by
  obtain ⟨-, hen, ho⟩ := ha
  have hf : s.ctx.frames t = f :: fs := hen
  have old : s.stack t = (fs.map (·.task)).reverse ++ [f.task] := by
    simp [LocalsState.stack, Contexts.nest, hf]
  have new : ∀ u, (s.next (.context (.pollEnd t f fs b))).stack u =
      if u = t then (fs.map (·.task)).reverse else s.stack u := by
    intro u
    by_cases e : u = t
    · subst e
      simp [LocalsState.stack, LocalsState.next, Contexts.next, Contexts.nest]
    · simp [LocalsState.stack, LocalsState.next, Contexts.next, Contexts.nest, e]
  -- what is polled was polled before, and is not the future whose poll ends
  have place : ∀ {u i task' : ℕ}, ((s.next (.context (.pollEnd t f fs b))).stack u)[i]? =
      some task' → (s.stack u)[i]? = some task' ∧ task' ≠ f.task := by
    intro u i task' hs
    have top : (s.stack t)[fs.length]? = some f.task := by simp [old]
    rw [new] at hs
    split at hs
    · next e =>
        subst e
        have hlt : i < fs.length := by
          have := (List.getElem?_eq_some_iff.mp hs).1
          simpa using this
        have hs' : (s.stack u)[i]? = some task' := by
          rw [old]
          exact getElem?_concat.mpr (.inl hs)
        refine ⟨hs', fun e => ?_⟩
        rw [e] at hs'
        have := (hi.unique top hs').2
        omega
    · next e =>
        refine ⟨hs, fun e' => ?_⟩
        rw [e'] at hs
        exact e (hi.unique hs top).1
  refine
    { hi with
      ctx := hi.ctx.next hen
      unique := fun hs hs' => hi.unique (place hs).1 (place hs').1
      busy := fun u task' hm => ?_
      owner := fun u w hw => ?_ }
  · obtain ⟨i, hs⟩ := List.getElem?_of_mem hm
    obtain ⟨hs, hne⟩ := place hs
    change Function.update s.busy f.task false task' = true
    rw [Function.update_of_ne hne]
    exact hi.busy u task' (List.mem_of_getElem? hs)
  · obtain ⟨i, hs, hd⟩ := hi.owner u w hw
    refine ⟨i, ?_, hd⟩
    rw [new]
    split
    · next e =>
        subst e
        have hlt := hi.depth_lt ho hw
        rw [hf, List.length_cons] at hlt
        rw [old, List.getElem?_append_left (by simp; omega)] at hs
        exact hs
    · exact hs

/-! ### One step of a call -/

theorem withBegin (hi : LocalsInv s h) {t key : ℕ} {f : ℕ → ℕ}
    (ha : s.Enabled (.withBegin t key f)) (ho : s.Outside t) :
    LocalsInv (s.next (.withBegin t key f)) h := by
  obtain ⟨-, c, hc, -⟩ := ha
  have hfree := hi.free hc ho
  obtain ⟨fs, hn⟩ := hi.locals_current hc
  have hlen : (s.ctx.frames t).length = fs.length + 1 := by
    have := congrArg List.length hn
    simpa [Contexts.nest] using this
  have hstep : s.next (.withBegin t key f) =
      { s with
        locked := Function.update s.locked c.locals (some t)
        calls := Function.update s.calls t
          (⟨c.locals, key, (s.ctx.frames t).length, f, s.map c.locals key⟩ :: s.calls t) } := by
    have hc : s.ctx.current t = some c := hc
    simp only [LocalsState.next, LocalsState.withBegin, hc, hfree]
  rw [hstep]
  refine
    { hi with
      owner := fun u w hw => ?_
      depths := ?_
      locked := locks_push hi.locked hfree rfl
      value := fun u w hw => ?_ }
  · rcases mem_update_cons hw with hw | ⟨rfl, rfl⟩
    · exact hi.owner u w hw
    · refine ⟨fs.length, ?_, hlen⟩
      simp [LocalsState.stack, hn]
  · refine (Function.forall_update_iff s.calls _).mpr ⟨?_, fun u _ => hi.depths u⟩
    exact List.pairwise_cons.mpr ⟨fun w hw => hi.depth_lt ho hw, hi.depths t⟩
  · rcases mem_update_cons hw with hw | ⟨rfl, rfl⟩
    · exact hi.value u w hw
    · rfl

/-- The map with the value that `init` made: what was there stays. -/
theorem map_initEnd {w : WithCall} (vacant : s.map w.locals w.key = none) {l k v v' : ℕ}
    (hv : s.map l k = some v') : Function.update s.map w.locals
      (Function.update (s.map w.locals) w.key (some v)) l k = some v' := by
  by_cases e : l = w.locals
  · subst e
    have hk : k ≠ w.key := by
      rintro rfl
      rw [vacant] at hv
      cases hv
    rwa [Function.update_self, Function.update_of_ne hk]
  · rwa [Function.update_of_ne e]

theorem initEnd (hi : LocalsInv s h) {t v : ℕ} (ha : s.Enabled (.initEnd t v)) :
    LocalsInv (s.next (.initEnd t v)) (LocalsLog.record s (.initEnd t v) h) := by
  obtain ⟨-, w, hw, -, hv⟩ := ha
  obtain ⟨ws, hc⟩ := List.head?_eq_some_iff.mp hw
  have hmem : w ∈ s.calls t := by
    rw [hc]
    exact List.mem_cons_self
  have vacant : s.map w.locals w.key = none := (hi.value t w hmem).trans hv
  have hstep : s.next (.initEnd t v) =
      { s with
        map := Function.update s.map w.locals (Function.update (s.map w.locals) w.key (some v))
        calls := Function.update s.calls t ({ w with value := some v } :: ws) } := by
    simp only [LocalsState.next, LocalsState.initEnd, hc]
  have hlog : LocalsLog.record s (.initEnd t v) h =
      { h with inits := h.inits ++ [(w.locals, w.key)] } := by
    simp only [LocalsLog.record, hc]
  have old : ∀ {u : ℕ} {w' : WithCall},
      w' ∈ Function.update s.calls t ({ w with value := some v } :: ws) u →
      (w' ∈ s.calls u ∧ w'.locals ≠ w.locals) ∨ (u = t ∧ w' = { w with value := some v }) := by
    intro u w' hw'
    rcases mem_update_iff.mp hw' with ⟨rfl, hm⟩ | ⟨e, hm⟩
    · rcases List.mem_cons.mp hm with hm | hm
      · exact .inr ⟨rfl, hm⟩
      · exact .inl (hi.other_call hc (mem_update_iff.mpr (.inl ⟨rfl, hm⟩)))
    · exact .inl (hi.other_call hc (mem_update_iff.mpr (.inr ⟨e, hm⟩)))
  rw [hstep, hlog]
  refine
    { hi with
      owner := fun u w' hw' => ?_
      depths := ?_
      locked := locks_replace hi.locked hc rfl
      value := fun u w' hw' => ?_
      inits := ⟨?_, fun x hx => ?_⟩
      returns := fun r hr => ?_ }
  · rcases old hw' with ⟨hw', -⟩ | ⟨rfl, rfl⟩
    · exact hi.owner u w' hw'
    · exact hi.owner u w hmem
  · refine (Function.forall_update_iff s.calls _).mpr ⟨?_, fun u _ => hi.depths u⟩
    have depths := hi.depths t
    rw [hc] at depths
    exact List.pairwise_cons.mpr (List.pairwise_cons.mp depths)
  · dsimp only
    rcases old hw' with ⟨hw', hne⟩ | ⟨rfl, rfl⟩
    · rw [Function.update_of_ne hne]
      exact hi.value u w' hw'
    · rw [Function.update_self, Function.update_self]
  · refine List.nodup_append.mpr ⟨hi.inits.1, List.pairwise_singleton _ _, fun x hx y hy => ?_⟩
    rw [List.mem_singleton.mp hy]
    rintro rfl
    exact hi.inits.2 _ hx vacant
  · rcases List.mem_append.mp hx with hx | hx
    · obtain ⟨v', hv'⟩ := Option.ne_none_iff_exists'.mp (hi.inits.2 x hx)
      exact Option.ne_none_iff_exists'.mpr ⟨v', map_initEnd vacant hv'⟩
    · rw [List.mem_singleton.mp hx]
      simp only [Function.update_self]
      exact Option.some_ne_none v
  · obtain ⟨x, v', hx, hv', hr'⟩ := hi.returns r hr
    exact ⟨x, v', hx, map_initEnd vacant hv', hr'⟩

/-- A call that returns was made in the innermost poll, so by the task whose storage it uses. -/
theorem nest_of_depth (hi : LocalsInv s h) {t : ℕ} {w : WithCall} (hw : w ∈ s.calls t)
    (hd : w.depth = (s.ctx.frames t).length) : ∃ fs, s.ctx.nest t = w.locals :: fs := by
  obtain ⟨i, hs, hd'⟩ := hi.owner t w hw
  have hlen : (s.ctx.nest t).length = i + 1 := by
    rw [Contexts.nest, List.length_map, ← hd, hd']
  refine List.head?_eq_some_iff.mp ?_
  rw [LocalsState.stack, List.getElem?_reverse (by omega), hlen] at hs
  rw [List.head?_eq_getElem?]
  simpa using hs

theorem withEnd (hi : LocalsInv s h) {t : ℕ} (ha : s.Enabled (.withEnd t)) :
    LocalsInv (s.next (.withEnd t)) (LocalsLog.record s (.withEnd t) h) := by
  obtain ⟨-, w, hw, hd, hv⟩ := ha
  obtain ⟨v, hv⟩ := Option.isSome_iff_exists.mp hv
  obtain ⟨ws, hc⟩ := List.head?_eq_some_iff.mp hw
  have hmem : w ∈ s.calls t := by
    rw [hc]
    exact List.mem_cons_self
  have hstep : s.next (.withEnd t) =
      { s with
        locked := Function.update s.locked w.locals none
        calls := Function.update s.calls t ws } := by
    simp only [LocalsState.next, LocalsState.withEnd, hc]
  obtain ⟨fs, hn⟩ := hi.nest_of_depth hmem hd
  have hlog : LocalsLog.record s (.withEnd t) h =
      { h with returns := h.returns ++ [⟨w.locals, w.key, w.f, w.f v⟩] } := by
    simp only [LocalsLog.record, hc, hn, hv]
  rw [hstep, hlog]
  refine
    { hi with
      owner := fun u w' hw' => hi.owner u w' (hi.other_call hc hw').1
      depths := ?_
      locked := locks_pop hi.locked hc fun hw' => (hi.other_call hc hw').2
      value := fun u w' hw' => hi.value u w' (hi.other_call hc hw').1
      returns := fun r hr => ?_ }
  · refine (Function.forall_update_iff s.calls _).mpr ⟨?_, fun u _ => hi.depths u⟩
    have depths := hi.depths t
    rw [hc] at depths
    exact depths.of_cons
  · rcases List.mem_append.mp hr with hr | hr
    · exact hi.returns r hr
    · obtain ⟨x, hx, hl⟩ := hi.tagged_of_mem (t := t) (by rw [hn]; exact List.mem_cons_self)
      rw [List.mem_singleton.mp hr]
      refine ⟨x, v, hx, ?_, rfl⟩
      rw [hl]
      exact (hi.value t w hmem).trans hv

/-! ### Runs -/

theorem next (hi : LocalsInv s h) {a : LocalsAct} (hc : NotNested (s, h) a) (ha : s.Enabled a) :
    LocalsInv (s.next a) (LocalsLog.record s a h) := by
  cases a with
  | context a =>
      cases a with
      | spawnOn t r | spawn t | blockOn t => exact hi.tag rfl (hi.ctx.next ha.2.1)
      | pollBegin t task x => exact hi.pollBegin ha
      | pollEnd t f fs b => exact hi.pollEnd ha
  | withBegin t key f => exact hi.withBegin ha hc
  | initEnd t v => exact hi.initEnd ha
  | withEnd t => exact hi.withEnd ha

theorem of_reachableBy {x : LocalsState × LocalsLog} (h : localsMachine.ReachableBy NotNested x) :
    LocalsInv x.1 x.2 := by
  refine h.invariant (I := fun x => LocalsInv x.1 x.2) ?_ ?_
  · rintro ⟨s, l⟩ ⟨hs, rfl⟩
    obtain rfl : s = .init := hs
    exact .init
  · intro x a _ hi hc ha
    exact hi.next hc ha

theorem nests (hi : LocalsInv s h) : WithNests s h where
  not_stuck := hi.running
  own t w hw := by
    obtain ⟨i, hs, hd⟩ := hi.owner t w hw
    have hm : w.locals ∈ s.ctx.nest t := List.mem_reverse.mp (List.mem_of_getElem? hs)
    obtain ⟨x, hx, hl⟩ := hi.tagged_of_mem hm
    refine ⟨w.locals, x, ?_, hx, hl, fun v hv => (hi.value t w hw).trans hv⟩
    rw [hd]
    exact hs
  returns := hi.returns
  once := hi.inits.1
  free _ _ hc ho := hi.free hc ho

end LocalsInv

/-! ### Nested calls -/

namespace LocalsState

variable {s : LocalsState}

/-- A thread that is stuck stays so. -/
theorem stuck_next {a : LocalsAct} {t : ℕ} (h : s.stuck t = true) : (s.next a).stuck t = true := by
  cases a with
  | context a => exact h
  | withBegin u key f =>
      simp only [next, withBegin]
      split
      · exact h
      · split
        · by_cases e : t = u
          · rw [e]
            exact Function.update_self ..
          · change Function.update s.stuck u true t = true
            rw [Function.update_of_ne e]
            exact h
        · exact h
  | initEnd u v =>
      simp only [next, initEnd]
      split <;> exact h
  | withEnd u =>
      simp only [next, withEnd]
      split <;> exact h

end LocalsState

/-- A call inside another one of the same task finds the map locked by its own thread. -/
theorem LocalsInv.stuck_of_nested {s : LocalsState} {h : LocalsLog} (hi : LocalsInv s h)
    {t key : ℕ} {f : ℕ → ℕ} (ha : s.Enabled (.withBegin t key f)) (ho : ¬ s.Outside t) :
    (s.next (.withBegin t key f)).stuck t = true := by
  obtain ⟨-, c, hc, -⟩ := ha
  have hc : s.ctx.current t = some c := hc
  obtain ⟨fs, hn⟩ := hi.locals_current hc
  have hlen : (s.stack t).length = (s.ctx.frames t).length := by
    rw [LocalsState.stack, List.length_reverse, Contexts.nest, List.length_map]
  simp only [LocalsState.Outside, not_forall, Nat.not_lt] at ho
  obtain ⟨w, hw, hle⟩ := ho
  obtain ⟨ws, hcalls⟩ := List.head?_eq_some_iff.mp hw
  have hmem : w ∈ s.calls t := by
    rw [hcalls]
    exact List.mem_cons_self
  obtain ⟨i, hs, hd⟩ := hi.owner t w hmem
  have hlt := (List.getElem?_eq_some_iff.mp hs).1
  have top : w.locals = c.locals := by
    have hi' : i = fs.length := by
      have : (s.stack t).length = fs.length + 1 := by simp [LocalsState.stack, hn]
      omega
    subst hi'
    rw [LocalsState.stack, hn] at hs
    simpa using hs.symm
  have hl : s.locked c.locals = some t := (hi.locked _ _).mpr ⟨w, hmem, top⟩
  simp only [LocalsState.next, LocalsState.withBegin, hc, hl]
  exact Function.update_self ..

/-- What is reached was reached without a nested call, or some thread is stuck. -/
theorem not_nested_or_stuck {x : LocalsState × LocalsLog} (h : localsMachine.Reachable x) :
    localsMachine.ReachableBy NotNested x ∨ ∃ t, x.1.stuck t = true := by
  refine h.invariant
    (I := fun x => localsMachine.ReachableBy NotNested x ∨ ∃ t, x.1.stuck t = true) ?_ ?_
  · exact fun x hx => .inl (.of_init hx)
  · rintro x a - (hx | ⟨t, ht⟩) - ha
    · by_cases hc : NotNested x a
      · exact .inl (hx.run (.more .refl hc ha))
      · cases a with
        | withBegin t key f => exact .inr ⟨t, (LocalsInv.of_reachableBy hx).stuck_of_nested ha hc⟩
        | context a | initEnd t v | withEnd t => exact absurd trivial hc
    · exact .inr ⟨t, LocalsState.stuck_next ht⟩

/-- **Nesting.**  The calls of `with` do what they are for exactly in the runs in which none is made
inside another one of the same task. -/
theorem with_nests_iff {x : LocalsState × LocalsLog} (h : localsMachine.Reachable x) :
    WithNests x.1 x.2 ↔ localsMachine.ReachableBy NotNested x := by
  refine ⟨fun hn => ?_, fun hx => (LocalsInv.of_reachableBy hx).nests⟩
  rcases not_nested_or_stuck h with hx | ⟨t, ht⟩
  · exact hx
  · rw [hn.not_stuck t] at ht
    cases ht

/-! ### Two runs -/

instance (s : Contexts) : ∀ a, Decidable (s.Enabled a)
  | .spawnOn _ _ | .spawn _ | .blockOn _ => inferInstanceAs (Decidable True)
  | .pollBegin _ _ _ | .pollEnd _ _ _ _ => inferInstanceAs (Decidable (_ = _))

instance (s : LocalsState) (t : ℕ) : Decidable (s.Outside t) :=
  inferInstanceAs (Decidable (∀ w ∈ (s.calls t).head?, _))

instance (s : LocalsState) : ∀ a, Decidable (s.Enabled a)
  | .context (.spawnOn _ _) | .context (.spawn _) | .context (.blockOn _) =>
      inferInstanceAs (Decidable (_ ∧ _ ∧ True))
  | .context (.pollBegin _ task _) => inferInstanceAs (Decidable (_ ∧ _ ∧ s.busy task = false))
  | .context (.pollEnd t _ _ _) => inferInstanceAs (Decidable (_ ∧ _ ∧ s.Outside t))
  | .withBegin _ _ _ => inferInstanceAs (Decidable (_ ∧ ∃ c ∈ _, _ ∨ _))
  | .initEnd _ _ | .withEnd _ => inferInstanceAs (Decidable (_ ∧ ∃ w ∈ _, _ ∧ _))

instance (x : LocalsState × LocalsLog) : ∀ a, Decidable (NotNested x a)
  | .withBegin t _ _ => inferInstanceAs (Decidable (x.1.Outside t))
  | .context _ | .initEnd _ _ | .withEnd _ => inferInstanceAs (Decidable True)

instance (x : LocalsState × LocalsLog) (a : LocalsAct) : Decidable (localsMachine.Enabled x a) :=
  inferInstanceAs (Decidable (x.1.Enabled a))

/-- The `init` of a task's key blocks on a future that uses the same key. -/
def blockOnInInit : List LocalsAct :=
  [.context (.spawnOn 0 7), .context (.pollBegin 1 0 ⟨0, 7, .spawnedOn 7⟩), .withBegin 1 5 (· + 1),
    .context (.blockOn 1), .context (.pollBegin 1 1 ⟨1, 7, .inherited (some 0)⟩),
    .withBegin 1 5 (· + 2), .initEnd 1 40, .withEnd 1,
    .context (.pollEnd 1 ⟨1, some ⟨0, 7⟩⟩ [⟨0, none⟩] false), .initEnd 1 30, .withEnd 1]

/-- The closure of a task's key uses the key. -/
def withInClosure : List LocalsAct :=
  [.context (.spawnOn 0 7), .context (.pollBegin 1 0 ⟨0, 7, .spawnedOn 7⟩), .withBegin 1 5 (· + 1),
    .initEnd 1 30, .withBegin 1 5 (· + 2)]

/-- Each task of `blockOnInInit` gets its own value. -/
theorem blockOnInInit_nests :
    let x := localsMachine.runList (.init, ⟨[], []⟩) blockOnInInit
    WithNests x.1 x.2 ∧ x.2.inits = [(1, 5), (0, 5)] ∧
      x.2.returns.map (fun r => (r.task, r.key, r.result)) = [(1, 5, 42), (0, 5, 31)] := by
  intro x
  have follows : localsMachine.Follows NotNested (.init, ⟨[], []⟩) blockOnInInit := by
    decide +kernel
  have all : localsMachine.Follows (fun _ _ => True) (.init, ⟨[], []⟩) blockOnInInit := by
    decide +kernel
  refine ⟨(with_nests_iff (.of_follows ⟨rfl, rfl⟩ all)).mpr (.of_follows ⟨rfl, rfl⟩ follows), ?_⟩
  decide +kernel

/-- The second call of `withInClosure` locks the map that its own thread has locked. -/
theorem withInClosure_stuck :
    let x := localsMachine.runList (.init, ⟨[], []⟩) withInClosure
    localsMachine.Reachable x ∧ x.1.locked 0 = some 1 ∧ x.1.stuck 1 = true ∧
      ¬ WithNests x.1 x.2 := by
  intro x
  have all : localsMachine.Follows (fun _ _ => True) (.init, ⟨[], []⟩) withInClosure := by
    decide +kernel
  have stuck : x.1.stuck 1 = true := by decide +kernel
  refine ⟨.of_follows ⟨rfl, rfl⟩ all, by decide +kernel, stuck, fun hn => ?_⟩
  rw [hn.not_stuck 1] at stuck
  cases stuck

end RustAsync
