import Mathlib.Logic.Relation
import RustBase.Support.Machine

/-!
# Async — the context of a task

`CURRENT` is a thread-local: the task-local storage and the runtime of the task that the thread
polls.  `Tagged::poll` sets it and keeps what was there in a guard, a local of the call; the drop of
the guard puts it back, when the poll returns and when it unwinds.  So the guards of a thread are a
stack, the calls of `Tagged::poll` that are active on it.

`Runtime::spawn` tags the future with the runtime it is called on, `crate::spawn` and `block_on`
with the one that `current_or_global` finds.  A future may be polled by any thread, inside any poll:
tasks inside `block_on`, `block_on` inside tasks, to any depth.

* `Inv`: the context of a thread is the one of the innermost future it polls, and each guard holds
  the context of the poll around its own.
* **`context_follows`**: during a poll of a task the context is the task's own; what it spawns, at
  any depth, has its runtime; and when the poll ends the context is what it was when it began.
-/

namespace RustAsync
open Support

abbrev RuntimeId := ℕ

/-- The runtime `global()` returns. -/
def globalRuntime : RuntimeId := 0

/-- `local::Context`. -/
structure TaskContext where
  locals : ℕ
  runtime : RuntimeId
  deriving DecidableEq

/-- Where a tagged future comes from. -/
inductive TagOrigin where
  /-- `Runtime::spawn` -/
  | spawnedOn (r : RuntimeId)
  /-- `crate::spawn` or `block_on`, called in a poll of that future, if in any -/
  | inherited (parent : Option ℕ)
  deriving DecidableEq

structure Tagged where
  locals : ℕ
  runtime : RuntimeId
  origin : TagOrigin
  deriving DecidableEq

def Tagged.context (x : Tagged) : TaskContext := ⟨x.locals, x.runtime⟩

/-- A call of `Tagged::poll`, with the guard it holds. -/
structure PollFrame where
  task : ℕ
  saved : Option TaskContext
  deriving DecidableEq

structure Contexts where
  /-- `CURRENT` -/
  current : ℕ → Option TaskContext
  /-- the polls that are active on a thread, innermost first -/
  frames : ℕ → List PollFrame
  /-- the futures that were tagged, in that order -/
  tagged : List Tagged

inductive ContextAct where
  | spawnOn (t : ℕ) (r : RuntimeId)
  | spawn (t : ℕ)
  | blockOn (t : ℕ)
  | pollBegin (t : ℕ) (task : ℕ) (x : Tagged)
  /-- the innermost poll of the thread returns or unwinds -/
  | pollEnd (t : ℕ) (f : PollFrame) (fs : List PollFrame) (unwinds : Bool)
  deriving DecidableEq

namespace Contexts

def init : Contexts := ⟨fun _ => none, fun _ => [], []⟩

/-- `current_runtime`. -/
def currentRuntime (s : Contexts) (t : ℕ) : Option RuntimeId := (s.current t).map (·.runtime)

/-- `current_or_global`. -/
def currentOrGlobal (s : Contexts) (t : ℕ) : RuntimeId := (s.currentRuntime t).getD globalRuntime

/-- The futures a thread polls, innermost first. -/
def nest (s : Contexts) (t : ℕ) : List ℕ := (s.frames t).map (·.task)

/-- `tag_with`: the storage is new. -/
def tagWith (s : Contexts) (r : RuntimeId) (origin : TagOrigin) : Contexts :=
  { s with tagged := s.tagged ++ [⟨s.tagged.length, r, origin⟩] }

def Enabled (s : Contexts) : ContextAct → Prop
  | .spawnOn _ _ | .spawn _ | .blockOn _ => True
  | .pollBegin _ task x => s.tagged[task]? = some x
  | .pollEnd t f fs _ => s.frames t = f :: fs

def next (s : Contexts) : ContextAct → Contexts
  | .spawnOn _ r => s.tagWith r (.spawnedOn r)
  | .spawn t | .blockOn t => s.tagWith (s.currentOrGlobal t) (.inherited (s.nest t).head?)
  | .pollBegin t task x =>
      { s with
        current := Function.update s.current t (some x.context)
        frames := Function.update s.frames t (⟨task, s.current t⟩ :: s.frames t) }
  -- the guard is dropped either way
  | .pollEnd t f fs _ =>
      { s with
        current := Function.update s.current t f.saved
        frames := Function.update s.frames t fs }

end Contexts

def contextMachine : Machine Contexts ContextAct where
  Init s := s = .init
  Enabled s := s.Enabled
  next s := s.next

/-- The context of the innermost of the polls, none outside of any. -/
def contextOf (l : List Tagged) : List ℕ → Option TaskContext
  | [] => none
  | task :: _ => l[task]?.map Tagged.context

/-- The futures polled were tagged, and the guards hold what they have to put back. -/
def Saved (l : List Tagged) : List PollFrame → Prop
  | [] => True
  | f :: fs => (∃ x, l[f.task]? = some x) ∧ f.saved = contextOf l (fs.map (·.task)) ∧ Saved l fs

/-- The `i`-th future was spawned, or blocked on, in a poll of the `p`-th one. -/
def Inherits (l : List Tagged) (p i : ℕ) : Prop :=
  ∃ x : Tagged, l[i]? = some x ∧ x.origin = .inherited (some p)

section Tag

variable {l : List Tagged} {x : Tagged}

theorem getElem?_tag {i : ℕ} {y : Tagged} (h : l[i]? = some y) : (l ++ [x])[i]? = some y :=
  getElem?_concat.mpr (.inl h)

theorem contextOf_tag {fs : List PollFrame} (h : Saved l fs) :
    contextOf (l ++ [x]) (fs.map (·.task)) = contextOf l (fs.map (·.task)) := by
  cases fs with
  | nil => rfl
  | cons f fs =>
      obtain ⟨⟨y, hy⟩, -, -⟩ := h
      simp only [List.map_cons, contextOf, hy, getElem?_tag hy]

theorem Saved.tag {fs : List PollFrame} (h : Saved l fs) : Saved (l ++ [x]) fs := by
  induction fs with
  | nil => trivial
  | cons f fs ih =>
      obtain ⟨⟨y, hy⟩, hs, hrest⟩ := h
      exact ⟨⟨y, getElem?_tag hy⟩, hs.trans (contextOf_tag hrest).symm, ih hrest⟩

end Tag

namespace Contexts

variable {s s' : Contexts}

structure Inv (s : Contexts) : Prop where
  current : ∀ t, s.current t = contextOf s.tagged (s.nest t)
  saved : ∀ t, Saved s.tagged (s.frames t)
  locals : ∀ (i : ℕ) (x : Tagged), s.tagged[i]? = some x → x.locals = i
  spawnedOn : ∀ (i : ℕ) (x : Tagged) (r : RuntimeId), s.tagged[i]? = some x →
    x.origin = .spawnedOn r → x.runtime = r
  inherited : ∀ (p i : ℕ) (x : Tagged), s.tagged[i]? = some x → x.origin = .inherited (some p) →
    ∃ y : Tagged, s.tagged[p]? = some y ∧ y.runtime = x.runtime

namespace Inv

theorem init : Inv .init where
  current _ := rfl
  saved _ := trivial
  locals i x h := by simp [Contexts.init] at h
  spawnedOn i x r h := by simp [Contexts.init] at h
  inherited p i x h := by simp [Contexts.init] at h

/-- Inside a poll the context is the one of the future polled. -/
theorem current_of_frame (h : s.Inv) {t : ℕ} {f : PollFrame} {fs : List PollFrame}
    (hf : s.frames t = f :: fs) :
    ∃ x : Tagged, s.tagged[f.task]? = some x ∧ s.current t = some x.context := by
  have saved := h.saved t
  rw [hf] at saved
  obtain ⟨⟨x, hx⟩, -, -⟩ := saved
  refine ⟨x, hx, ?_⟩
  rw [h.current t, nest, hf]
  simp only [List.map_cons, contextOf, hx, Option.map_some]

theorem tagWith (h : s.Inv) {r : RuntimeId} {origin : TagOrigin}
    (hr : ∀ r', origin = .spawnedOn r' → r = r')
    (hp : ∀ p, origin = .inherited (some p) →
      ∃ y : Tagged, s.tagged[p]? = some y ∧ y.runtime = r) :
    (s.tagWith r origin).Inv where
  current t := (h.current t).trans (contextOf_tag (h.saved t)).symm
  saved t := (h.saved t).tag
  locals i x hx := by
    rcases getElem?_concat.mp hx with hx | ⟨rfl, rfl⟩
    · exact h.locals i x hx
    · rfl
  spawnedOn i x r' hx ho := by
    rcases getElem?_concat.mp hx with hx | ⟨rfl, rfl⟩
    · exact h.spawnedOn i x r' hx ho
    · exact hr r' ho
  inherited p i x hx ho := by
    rcases getElem?_concat.mp hx with hx | ⟨rfl, rfl⟩
    · obtain ⟨y, hy, e⟩ := h.inherited p i x hx ho
      exact ⟨y, getElem?_tag hy, e⟩
    · obtain ⟨y, hy, e⟩ := hp p ho
      exact ⟨y, getElem?_tag hy, e⟩

/-- What is spawned in a poll has the runtime of the future polled. -/
theorem inherit (h : s.Inv) (t : ℕ) :
    (s.tagWith (s.currentOrGlobal t) (.inherited (s.nest t).head?)).Inv := by
  refine h.tagWith (fun r' e => by cases e) fun p hp => ?_
  have head : (s.nest t).head? = some p := TagOrigin.inherited.inj hp
  cases hf : s.frames t with
  | nil => simp [nest, hf] at head
  | cons f fs =>
      obtain rfl : f.task = p := by simpa [nest, hf] using head
      obtain ⟨y, hy, hc⟩ := h.current_of_frame hf
      exact ⟨y, hy, by simp [currentOrGlobal, currentRuntime, hc, Tagged.context]⟩

theorem pollBegin (h : s.Inv) {t task : ℕ} {x : Tagged} (hx : s.tagged[task]? = some x) :
    (s.next (.pollBegin t task x)).Inv := by
  refine ⟨fun u => ?_, fun u => ?_, h.locals, h.spawnedOn, h.inherited⟩
  all_goals
    by_cases e : u = t
  · subst e
    simp [Contexts.next, nest, contextOf, hx]
  · simpa [Contexts.next, nest, e] using h.current u
  · subst e
    simp only [Contexts.next, Function.update_self]
    exact ⟨⟨x, hx⟩, h.current u, h.saved u⟩
  · simpa [Contexts.next, e] using h.saved u

theorem pollEnd (h : s.Inv) {t : ℕ} {f : PollFrame} {fs : List PollFrame} (b : Bool)
    (hf : s.frames t = f :: fs) : (s.next (.pollEnd t f fs b)).Inv := by
  have saved := h.saved t
  rw [hf] at saved
  refine ⟨fun u => ?_, fun u => ?_, h.locals, h.spawnedOn, h.inherited⟩
  all_goals
    by_cases e : u = t
  · subst e
    simpa [Contexts.next, nest] using saved.2.1
  · simpa [Contexts.next, nest, e] using h.current u
  · subst e
    simpa [Contexts.next] using saved.2.2
  · simpa [Contexts.next, e] using h.saved u

theorem next (h : s.Inv) {a : ContextAct} (ha : s.Enabled a) : (s.next a).Inv := by
  cases a with
  | spawnOn t r =>
      exact h.tagWith (fun r' e => TagOrigin.spawnedOn.inj e) fun p e => by cases e
  | spawn t | blockOn t => exact h.inherit t
  | pollBegin t task x => exact h.pollBegin ha
  | pollEnd t f fs b => exact h.pollEnd b ha

/-- The runtime goes down the tree of what was spawned. -/
theorem runtime_of_inherits (h : s.Inv) {p i : ℕ}
    (hi : Relation.ReflTransGen (Inherits s.tagged) p i) {x y : Tagged}
    (hx : s.tagged[p]? = some x) (hy : s.tagged[i]? = some y) : y.runtime = x.runtime := by
  induction hi generalizing y with
  | refl =>
      rw [hx] at hy
      cases hy
      rfl
  | tail _ hj ih =>
      obtain ⟨z, hz, ho⟩ := hj
      rw [hy] at hz
      cases hz
      obtain ⟨w, hw, e⟩ := h.inherited _ _ _ hy ho
      exact e.symm.trans (ih hw)

end Inv

theorem inv_of_reachable (h : contextMachine.Reachable s) : s.Inv := by
  refine h.invariant (I := Inv) (fun s hi => ?_) fun _ _ _ hi _ ha => hi.next ha
  obtain rfl : s = .init := hi
  exact .init

/-- A future keeps its storage and its runtime. -/
theorem tagged_run {i : ℕ} {x : Tagged} (hr : contextMachine.Run (fun _ _ => True) s s')
    (h : s.tagged[i]? = some x) : s'.tagged[i]? = some x := by
  refine hr.keeps (I := fun s => s.tagged[i]? = some x) (fun s a h _ => ?_) h
  cases a with
  | spawnOn t r | spawn t | blockOn t => exact getElem?_tag h
  | pollBegin t task x | pollEnd t f fs b => exact h

/-- **A thread that polls the same futures as before has the same context as before**, whatever
happened in between. -/
theorem current_of_nest (hs : contextMachine.Reachable s)
    (hr : contextMachine.Run (fun _ _ => True) s s') {t : ℕ} (hn : s'.nest t = s.nest t) :
    s'.current t = s.current t := by
  have h := inv_of_reachable hs
  cases hf : s.frames t with
  | nil =>
      have empty : s.nest t = [] := by simp [nest, hf]
      rw [(inv_of_reachable (hs.run hr)).current, h.current, hn, empty]
      rfl
  | cons f fs =>
      obtain ⟨x, hx, hc⟩ := h.current_of_frame hf
      have inner : s.nest t = f.task :: fs.map (·.task) := by simp [nest, hf]
      rw [(inv_of_reachable (hs.run hr)).current, hc, hn, inner]
      simp only [contextOf, tagged_run hr hx, Option.map_some]

/-- A poll that ends leaves the context it found. -/
theorem current_pollEnd (hs : contextMachine.Reachable s) {t task : ℕ} {x : Tagged}
    (hx : s.tagged[task]? = some x)
    (hr : contextMachine.Run (fun _ _ => True) (s.next (.pollBegin t task x)) s')
    {f : PollFrame} {fs : List PollFrame} (hf : s'.frames t = f :: fs)
    (hn : s'.nest t = task :: s.nest t) (b : Bool) :
    (s'.next (.pollEnd t f fs b)).current t = s.current t := by
  have started : contextMachine.Run (fun _ _ => True) s (s.next (.pollBegin t task x)) :=
    Machine.Run.more (a := ContextAct.pollBegin t task x) .refl trivial hx
  have run : contextMachine.Run (fun _ _ => True) s (s'.next (.pollEnd t f fs b)) :=
    (started.trans hr).more (a := ContextAct.pollEnd t f fs b) trivial hf
  refine current_of_nest hs run ?_
  have rest : fs.map (·.task) = s.nest t := by
    rw [nest, hf, List.map_cons] at hn
    exact (List.cons.inj hn).2
  simp only [nest, Contexts.next, Function.update_self]
  exact rest

/-- **The context follows the task.**  In a poll the current context is the one of the future
polled, and what is spawned there is bound to its runtime, down to any depth; a future spawned on a
runtime has that runtime, and storage of its own; and a poll that ends, by a return or by unwinding,
leaves the context it found. -/
theorem context_follows (hs : contextMachine.Reachable s) :
    (∀ t f fs, s.frames t = f :: fs → ∃ x : Tagged, s.tagged[f.task]? = some x ∧
      s.current t = some x.context ∧ s.currentOrGlobal t = x.runtime) ∧
    (∀ (i : ℕ) (x : Tagged) (r : RuntimeId), s.tagged[i]? = some x → x.origin = .spawnedOn r →
      x.runtime = r) ∧
    (∀ (i j : ℕ) (x y : Tagged), s.tagged[i]? = some x → s.tagged[j]? = some y →
      x.locals = y.locals → i = j) ∧
    (∀ (p i : ℕ) (x y : Tagged), Relation.ReflTransGen (Inherits s.tagged) p i →
      s.tagged[p]? = some x → s.tagged[i]? = some y → y.runtime = x.runtime) ∧
    ∀ (t task : ℕ) (x : Tagged) (s' : Contexts) (f : PollFrame) (fs : List PollFrame) (b : Bool),
      s.tagged[task]? = some x →
      contextMachine.Run (fun _ _ => True) (s.next (.pollBegin t task x)) s' →
      s'.frames t = f :: fs → s'.nest t = task :: s.nest t →
      (s'.next (.pollEnd t f fs b)).current t = s.current t := by
  have h := inv_of_reachable hs
  refine ⟨fun t f fs hf => ?_, h.spawnedOn, fun i j x y hx hy e => ?_,
    fun p i x y hi hx hy => h.runtime_of_inherits hi hx hy,
    fun t task x s' f fs b hx hr hf hn => current_pollEnd hs hx hr hf hn b⟩
  · obtain ⟨x, hx, hc⟩ := h.current_of_frame hf
    exact ⟨x, hx, hc, by simp [currentOrGlobal, currentRuntime, hc, Tagged.context]⟩
  · rw [← h.locals i x hx, ← h.locals j y hy, e]

/-- A task of runtime 7 that spawns, and blocks on a future that spawns. -/
def nestedRun : List ContextAct :=
  [.spawnOn 0 7, .pollBegin 1 0 ⟨0, 7, .spawnedOn 7⟩, .spawn 1, .blockOn 1,
    .pollBegin 1 2 ⟨2, 7, .inherited (some 0)⟩, .spawn 1]

instance (s : Contexts) : ∀ a, Decidable (contextMachine.Enabled s a)
  | .spawnOn _ _ | .spawn _ | .blockOn _ => inferInstanceAs (Decidable True)
  | .pollBegin _ _ _ | .pollEnd _ _ _ _ => inferInstanceAs (Decidable (_ = _))

theorem context_follows_nested :
    ∃ s, contextMachine.Reachable s ∧ s.nest 1 = [2, 0] ∧
      s.tagged[3]? = some ⟨3, 7, .inherited (some 2)⟩ ∧
      ∃ x : Tagged, s.tagged[2]? = some x ∧ s.current 1 = some x.context ∧
        s.currentOrGlobal 1 = x.runtime := by
  have run : contextMachine.Follows (fun _ _ => True) .init nestedRun := by decide +kernel
  have hs := Machine.ReachableBy.of_follows rfl run
  exact ⟨_, hs, by decide +kernel, by decide +kernel, (context_follows hs).1 1 _ _ rfl⟩

end Contexts

end RustAsync
