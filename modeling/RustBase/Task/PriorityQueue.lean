import RustBase.Support.Before
import RustBase.Task.Allocation

/-!
# Task — the priority queue

`PriorityQueue` by itself: sources are pushed, each with its priority and the clock reading of its
`get_sort_key`, and popped.  The `BinaryHeap` may give any of its greatest entries (`IsTop`).  What
was pushed and what was popped is kept in a `QueueLog`.

When the readings are strictly increasing, the entries of one priority leave in the order they came
(`Law`): what was popped at that priority, and then what is queued, is what was pushed.

`pool_refines_queue`: the queue of the thread pool is such a queue, so this holds of the entries
that `worker_loop` pushes again.  But a sequence has an entry for each of its posts.  `TakesTurns`
is about the sequence, by whichever of its entries it is handed out, and does not hold:
`not_takesTurns` has a run where a sequence that was pushed again goes before one that was queued
already, by an entry of its own that was queued before both.

* **`queue_in_order`**: the order of the entries is total; a pop gives the entry of the highest
  priority that was pushed first; nothing is lost or duplicated; and a sequence that is pushed again
  goes before a source that was queued already only by an entry that was queued already too.
-/

namespace RustTask
open Support

theorem TaskPriority.rank_inj {p p' : TaskPriority} (h : p.rank = p'.rank) : p = p' := by
  cases p <;> cases p' <;> first | rfl | cases h

/-! ### The order of the entries -/

namespace QueueEntry

variable {a b c : QueueEntry}

/-- `PartialEq for QueueEntry`. -/
def eq (a b : QueueEntry) : Bool := a.priority = b.priority ∧ a.readyTime = b.readyTime

/-- `Ord for QueueEntry`. -/
def cmp (a b : QueueEntry) : Ordering :=
  (compare a.priority.rank b.priority.rank).then (compare b.readyTime a.readyTime)

instance transCmp : Std.TransCmp cmp :=
  inferInstanceAs (Std.TransCmp (compareLex (compareOn fun e : QueueEntry => e.priority.rank)
    fun a b => compareOn (fun e : QueueEntry => e.readyTime) b a))

theorem cmp_eq_iff : a.cmp b = .eq ↔ a.eq b = true := by
  rw [cmp, Ordering.then_eq_eq, Nat.compare_eq_eq, Nat.compare_eq_eq, eq, decide_eq_true_eq]
  constructor
  · rintro ⟨hp, ht⟩
    exact ⟨TaskPriority.rank_inj hp, ht.symm⟩
  · rintro ⟨hp, ht⟩
    exact ⟨congrArg _ hp, ht.symm⟩

theorem le_iff : a.Le b ↔ (a.cmp b).isLE = true := by
  rw [Le, cmp, Ordering.isLE_then_iff_or, Nat.compare_eq_lt, Nat.compare_eq_eq, Nat.isLE_compare]

theorem le_total (a b : QueueEntry) : a.Le b ∨ b.Le a := by
  have hs : b.cmp a = (a.cmp b).swap := transCmp.eq_swap
  rw [le_iff, le_iff, hs]
  cases a.cmp b <;> simp

theorem le_trans (hab : a.Le b) (hbc : b.Le c) : a.Le c :=
  le_iff.mpr (Std.TransCmp.isLE_trans (le_iff.mp hab) (le_iff.mp hbc))

end QueueEntry

/-! ### The queue -/

/-- A `push` with the entry it makes, or a `pop` with the entry it takes. -/
inductive QueueAct where
  | push (e : QueueEntry)
  | pop (result : Option QueueEntry)
  deriving DecidableEq

/-- `PriorityQueue`, with the `BinaryHeap` as the list of its entries. -/
structure PriorityQueue where
  heap : List QueueEntry

/-- What the heap allows: a pop takes one of the greatest entries, or nothing when there is none. -/
def PriorityQueue.Allows (x : PriorityQueue) : QueueAct → Prop
  | .push _ => True
  | .pop none => x.heap = []
  | .pop (some e) => IsTop QueueEntry.Le x.heap e

def PriorityQueue.next (x : PriorityQueue) : QueueAct → PriorityQueue
  | .push e => ⟨e :: x.heap⟩
  | .pop none => x
  | .pop (some e) => ⟨x.heap.erase e⟩

/-- The entries that were pushed and those that were popped, in their order. -/
structure QueueLog where
  pushed : List QueueEntry
  popped : List QueueEntry

def QueueLog.record (h : QueueLog) : QueueAct → QueueLog
  | .push e => { h with pushed := h.pushed ++ [e] }
  | .pop none => h
  | .pop (some e) => { h with popped := h.popped ++ [e] }

/-- The clock reading of a push is greater than all before. -/
def QueueLog.Increases (h : QueueLog) : QueueAct → Prop
  | .push e => ∀ d ∈ h.pushed, d.readyTime < e.readyTime
  | .pop _ => True

instance QueueLog.decidableIncreases (h : QueueLog) : ∀ a, Decidable (h.Increases a)
  | .push _ => inferInstanceAs (Decidable (∀ d ∈ _, _))
  | .pop _ => inferInstanceAs (Decidable True)

structure QueueRun where
  queue : PriorityQueue
  log : QueueLog

/-- Pushes and pops in any order, with strictly increasing clock readings. -/
def queueMachine : Machine QueueRun QueueAct where
  Init := fun x => x = ⟨⟨[]⟩, ⟨[], []⟩⟩
  Enabled := fun x a => x.log.Increases a ∧ x.queue.Allows a
  next := fun x a => ⟨x.queue.next a, x.log.record a⟩

namespace QueueRun

/-- The entries of one priority. -/
def level (p : TaskPriority) (l : List QueueEntry) : List QueueEntry :=
  l.filter fun e => e.priority = p

theorem level_nil (p : TaskPriority) : level p [] = [] := rfl

theorem level_append (p : TaskPriority) (l m : List QueueEntry) :
    level p (l ++ m) = level p l ++ level p m :=
  List.filter_append ..

theorem level_erase (p : TaskPriority) (l : List QueueEntry) (e : QueueEntry) :
    level p (l.erase e) = (level p l).erase e :=
  List.erase_filter.symm

theorem level_cons_self {p : TaskPriority} {e : QueueEntry} (h : e.priority = p)
    (l : List QueueEntry) : level p (e :: l) = e :: level p l :=
  List.filter_cons_of_pos (decide_eq_true h)

theorem level_cons_of_ne {p : TaskPriority} {e : QueueEntry} (h : e.priority ≠ p)
    (l : List QueueEntry) : level p (e :: l) = level p l :=
  List.filter_cons_of_neg (by simpa using h)

/-- The entries of each priority leave in the order they came. -/
structure Law (x : QueueRun) : Prop where
  increasing : x.log.pushed.Pairwise fun a b => a.readyTime < b.readyTime
  conserved : (x.log.popped ++ x.queue.heap).Perm x.log.pushed
  inOrder : ∀ p, level p x.log.popped ++ (level p x.queue.heap).reverse = level p x.log.pushed

variable {x : QueueRun}

namespace Law

theorem nodup (h : x.Law) : x.log.pushed.Nodup := by
  refine h.increasing.imp fun {a b} hlt he => ?_
  subst he
  exact Nat.lt_irrefl _ hlt

theorem mem_pushed (h : x.Law) {e : QueueEntry} (he : e ∈ x.queue.heap) : e ∈ x.log.pushed :=
  h.conserved.subset (List.mem_append_right _ he)

theorem nodup_heap (h : x.Law) : x.queue.heap.Nodup :=
  (List.nodup_append.mp (h.conserved.nodup_iff.mpr h.nodup)).2.1

/-- The entry that is popped is the first of its level. -/
theorem level_heap (h : x.Law) {e : QueueEntry} (he : IsTop QueueEntry.Le x.queue.heap e) :
    level e.priority x.queue.heap = level e.priority (x.queue.heap.erase e) ++ [e] := by
  obtain ⟨hm, top⟩ := he
  have hl : e ∈ level e.priority x.queue.heap := List.mem_filter.mpr ⟨hm, by simp⟩
  obtain ⟨l₁, l₂, hs⟩ := List.append_of_mem hl
  -- what comes after `e` in the list was pushed before it
  have sorted : (level e.priority x.queue.heap).Pairwise fun a b => b.readyTime < a.readyTime := by
    rw [← List.pairwise_reverse]
    have hp := h.increasing.filter fun d => d.priority = e.priority
    rw [← level, ← h.inOrder] at hp
    exact (List.pairwise_append.mp hp).2.1
  rw [hs] at sorted
  obtain rfl : l₂ = [] := by
    refine List.eq_nil_iff_forall_not_mem.mpr fun d hd => ?_
    have hlt := (List.pairwise_cons.mp (List.pairwise_append.mp sorted).2.1).1 d hd
    have hd' : d ∈ level e.priority x.queue.heap := by rw [hs]; simp [hd]
    obtain ⟨hd', hp⟩ := List.mem_filter.mp hd'
    have hp : d.priority = e.priority := of_decide_eq_true hp
    rcases top d hd' with hr | ⟨-, hr⟩
    · rw [hp] at hr
      exact Nat.lt_irrefl _ hr
    · exact Nat.lt_irrefl _ (Nat.lt_of_lt_of_le hlt hr)
  have hn : (l₁ ++ [e]).Nodup := hs ▸ h.nodup_heap.filter _
  have he : e ∉ l₁ := fun h₁ => (List.nodup_append.mp hn).2.2 e h₁ e (List.mem_singleton_self e) rfl
  rw [level_erase, hs, List.erase_append_right _ he, List.erase_cons_head, List.append_nil]

theorem push (h : x.Law) {e : QueueEntry} (he : x.log.Increases (.push e)) :
    Law ⟨x.queue.next (.push e), x.log.record (.push e)⟩ where
  increasing := by
    refine List.pairwise_append.mpr ⟨h.increasing, List.pairwise_singleton _ _, ?_⟩
    intro d hd e' he'
    rw [List.mem_singleton.mp he']
    exact he d hd
  conserved := by
    refine List.perm_middle.trans ((h.conserved.cons e).trans ?_)
    exact (List.perm_append_singleton e _).symm
  inOrder p := by
    show level p x.log.popped ++ (level p (e :: x.queue.heap)).reverse =
      level p (x.log.pushed ++ [e])
    rw [level_append, ← h.inOrder p, List.append_assoc]
    by_cases hp : e.priority = p
    · rw [level_cons_self hp, level_cons_self hp [], level_nil, List.reverse_cons]
    · rw [level_cons_of_ne hp, level_cons_of_ne hp [], level_nil, List.append_nil]

theorem pop (h : x.Law) {e : QueueEntry} (he : IsTop QueueEntry.Le x.queue.heap e) :
    Law ⟨x.queue.next (.pop (some e)), x.log.record (.pop (some e))⟩ where
  increasing := h.increasing
  conserved := by
    show ((x.log.popped ++ [e]) ++ x.queue.heap.erase e).Perm x.log.pushed
    rw [List.append_assoc, List.singleton_append]
    exact ((List.perm_cons_erase he.1).symm.append_left _).trans h.conserved
  inOrder p := by
    show level p (x.log.popped ++ [e]) ++ (level p (x.queue.heap.erase e)).reverse =
      level p x.log.pushed
    rw [level_append, List.append_assoc, ← h.inOrder p]
    by_cases hp : e.priority = p
    · subst hp
      rw [h.level_heap he, level_cons_self rfl [], level_nil, List.reverse_append,
        List.reverse_singleton]
    · rw [level_cons_of_ne hp [], level_nil, level_erase, List.nil_append, List.erase_of_not_mem]
      exact fun hm => hp (of_decide_eq_true (List.mem_filter.mp hm).2)

end Law

theorem law_of_reachable (h : queueMachine.Reachable x) : x.Law := by
  refine h.invariant (I := Law) (fun x hi => ?_) (fun x a _ hx _ ha => ?_)
  · subst hi
    exact ⟨List.Pairwise.nil, .refl _, fun p => rfl⟩
  · cases a with
    | push e => exact hx.push ha.1
    | pop result =>
        cases result with
        | none => exact hx
        | some e => exact hx.pop ha.2

/-! ### What the law says -/

/-- Of two entries of one priority, the one that was pushed first is popped first. -/
theorem Law.popped_first (h : x.Law) {e d : QueueEntry} (hb : Before x.log.pushed e d)
    (hp : e.priority = d.priority) (hd : d ∈ x.log.popped) : Before x.log.popped e d := by
  have hl : Before (level d.priority x.log.pushed) e d := hb.filter (by simp [hp]) (by simp)
  have hn : (level d.priority x.log.pushed).Nodup := h.nodup.filter _
  rw [← h.inOrder] at hl hn
  exact (hl.of_append hn (List.mem_filter.mpr ⟨hd, by simp⟩)).of_filter

/-- Nothing is lost or duplicated, a pop gives an entry when there is one, and that entry has the
highest priority of those in the queue and was pushed before the others that have it. -/
structure Ordered (x : QueueRun) : Prop where
  distinct : x.log.pushed.Nodup
  conserved : (x.log.popped ++ x.queue.heap).Perm x.log.pushed
  gives : x.queue.heap ≠ [] → ∃ e, queueMachine.Enabled x (.pop (some e))
  first : ∀ e, queueMachine.Enabled x (.pop (some e)) → e ∈ x.queue.heap ∧
    ∀ d ∈ x.queue.heap, d ≠ e → d.priority.rank < e.priority.rank ∨
      d.priority = e.priority ∧ Before x.log.pushed e d

theorem Law.ordered (h : x.Law) : x.Ordered where
  distinct := h.nodup
  conserved := h.conserved
  gives hne := by
    obtain ⟨e, he⟩ := exists_isTop QueueEntry.le_total QueueEntry.le_trans hne
    exact ⟨e, trivial, he⟩
  first := by
    rintro e ⟨-, hm, top⟩
    refine ⟨hm, fun d hd hne => ?_⟩
    rcases top d hd with hr | ⟨hr, ht⟩
    · exact .inl hr
    · refine .inr ⟨TaskPriority.rank_inj hr, ?_⟩
      exact .of_pairwise h.increasing (h.mem_pushed hm) (h.mem_pushed hd) (Nat.not_lt.mpr ht)
        hne.symm

end QueueRun

/-! ### The queue of the pool -/

namespace Pool

variable {s : Pool}

/-- `get_sort_key`, and the source. -/
def entry (s : Pool) (q : SeqId) : QueueEntry := ⟨(s.seqs q).traits.priority, s.clock, q⟩

/-- What a step does to the queue.  A worker waits when its `pop` gives nothing. -/
def queueAct? (s : Pool) : Action → Option QueueAct
  | .worker _ (.rePush q) | .poster _ (.pushSource q) | .timer (.pushSource q) =>
      some (.push (s.entry q))
  | .worker _ (.getWorkPop e) => some (.pop (some e))
  | .worker _ .getWorkWait => some (.pop none)
  | _ => none

theorem priority_of_push {a : Action} {e : QueueEntry} (h : s.queueAct? a = some (.push e)) :
    e.priority = (s.seqs e.taskSource).traits.priority := by
  unfold queueAct? at h
  split at h <;> cases h <;> rfl

/-- The queue after a step. -/
def queueAfter (s : Pool) : Option QueueAct → List QueueEntry
  | none => s.group.priorityQueue
  | some b => (PriorityQueue.next ⟨s.group.priorityQueue⟩ b).heap

theorem priorityQueue_worker (w : Tid) (a : WorkerAct) :
    (s.workerNext w a).group.priorityQueue = s.queueAfter (s.queueAct? (.worker w a)) := by
  cases a with
  | enterCallback q t =>
      simp only [workerNext, enterCallback]
      split
      · split <;> rfl
      · rfl
  | callbackReturns q t =>
      simp only [workerNext, callbackReturns]
      split <;> rfl
  | afterRunTask q t =>
      simp only [workerNext, afterRunTask]
      split <;> rfl
  | _ => rfl

theorem priorityQueue_poster (p : Tid) (a : PosterAct) :
    (s.posterNext p a).group.priorityQueue = s.queueAfter (s.queueAct? (.poster p a)) := by
  cases a with
  | post path delay => cases path <;> rfl
  | willPostTask traits id delay =>
      simp only [posterNext, willPostTask]
      split <;> rfl
  | push dest cb r => cases dest <;> cases r <;> rfl
  | _ => rfl

theorem priorityQueue_next (a : Action) :
    (s.next a).group.priorityQueue = s.queueAfter (s.queueAct? a) := by
  cases a with
  | worker w a => exact priorityQueue_worker w a
  | poster p a => exact priorityQueue_poster p a
  | timer a => cases a <;> rfl
  | closer c a => cases a <;> rfl
  | createRunner traits => rfl
  | tick d => rfl

/-- The sequences that are there stay, with their traits. -/
def KeepsTraits (s s' : Pool) : Prop :=
  s.nextSeq ≤ s'.nextSeq ∧ ∀ q < s.nextSeq, (s'.seqs q).traits = (s.seqs q).traits

theorem keepsTraits_refl : KeepsTraits s s := ⟨Nat.le_refl _, fun _ _ => rfl⟩

theorem keepsTraits_setSeq {r : SeqId} {x : Sequence} (hx : x.traits = (s.seqs r).traits) :
    KeepsTraits s (s.setSeq r x) := by
  refine ⟨Nat.le_refl _, fun q _ => ?_⟩
  by_cases h : q = r
  · subst h
    rw [seqs_setSeq_self, hx]
  · rw [seqs_setSeq_of_ne h]

theorem keepsTraits_newSequence (traits : TaskTraits) : KeepsTraits s (s.newSequence traits) := by
  refine ⟨Nat.le_succ _, fun q hq => ?_⟩
  exact congrArg Sequence.traits (seqs_setSeq_of_ne (Nat.ne_of_lt hq))

theorem keepsTraits_worker (w : Tid) (a : WorkerAct) : KeepsTraits s (s.workerNext w a) := by
  cases a with
  | willRunTask r => exact keepsTraits_setSeq (r := r) rfl
  | takeTask r => exact keepsTraits_setSeq (r := r) rfl
  | clearHasWorker r => exact keepsTraits_setSeq (r := r) rfl
  | enterCallback r t =>
      simp only [workerNext, enterCallback]
      split
      · split <;> exact keepsTraits_refl
      · exact keepsTraits_refl
  | callbackReturns r t =>
      simp only [workerNext, callbackReturns]
      split <;> exact keepsTraits_refl
  | afterRunTask r t =>
      simp only [workerNext, afterRunTask]
      split <;> exact keepsTraits_refl
  | _ => exact keepsTraits_refl

theorem keepsTraits_pushTask (p : Tid) (dest : Dest) (cb : Callback) (ready : Option Instant) :
    KeepsTraits s (s.pushTask p dest cb ready) := by
  cases dest with
  | own traits =>
      obtain ⟨hn, ht⟩ := keepsTraits_newSequence (s := s) traits
      have hs : ∀ x, x.traits = ((s.newSequence traits).seqs s.nextSeq).traits →
          KeepsTraits s ((s.newSequence traits).setSeq s.nextSeq x) := fun x hx =>
        ⟨hn, fun q hq => ((keepsTraits_setSeq hx).2 q (Nat.lt_succ_of_lt hq)).trans (ht q hq)⟩
      cases ready <;> exact hs _ rfl
  | runner r => cases ready <;> exact keepsTraits_setSeq (r := r) rfl

theorem keepsTraits_next (a : Action) : KeepsTraits s (s.next a) := by
  cases a with
  | worker w a => exact keepsTraits_worker w a
  | poster p a =>
      cases a with
      | post path delay => cases path <;> exact keepsTraits_refl
      | willPostTask traits id delay =>
          simp only [next, posterNext, willPostTask]
          split <;> exact keepsTraits_refl
      | push dest cb r => exact keepsTraits_pushTask p dest cb r
      | _ => exact keepsTraits_refl
  | timer a => cases a <;> exact keepsTraits_refl
  | closer c a => cases a <;> exact keepsTraits_refl
  | createRunner traits => exact keepsTraits_newSequence traits
  | tick d => exact keepsTraits_refl

end Pool

/-- The pool, with the log of its queue. -/
def queuePool : Machine (Pool × QueueLog) Pool.Action :=
  poolMachine.withHistory ⟨[], []⟩ fun s a h => (s.queueAct? a).elim h h.record

instance decidableQueuePool : ∀ x a, Decidable (queuePool.Enabled x a) :=
  Machine.withHistory.decidable

/-- A clock reading of `get_sort_key` is greater than all before. -/
def Increasing (x : Pool × QueueLog) (a : Pool.Action) : Prop :=
  ∀ b ∈ x.1.queueAct? a, x.2.Increases b

instance decidableIncreasing : ∀ x a, Decidable (Increasing x a) :=
  fun x a => inferInstanceAs (Decidable (∀ b ∈ x.1.queueAct? a, x.2.Increases b))

def Pool.toQueue (x : Pool × QueueLog) : QueueRun := ⟨⟨x.1.group.priorityQueue⟩, x.2⟩

theorem Pool.allows {s : Pool} {a : Action} (ha : s.Enabled a) {b : QueueAct}
    (hb : s.queueAct? a = some b) : PriorityQueue.Allows ⟨s.group.priorityQueue⟩ b := by
  cases b with
  | push e => trivial
  | pop result =>
      cases a with
      | worker w a =>
          cases a with
          | getWorkPop e =>
              cases hb
              exact ha.2.2
          | getWorkWait =>
              cases hb
              exact ha.2.2
          | _ => cases hb
      | poster p a => cases a <;> cases hb
      | timer a => cases a <;> cases hb
      | closer c a => cases a <;> cases hb
      | createRunner traits => cases hb
      | tick d => cases hb

/-- **The pool's queue is a priority queue**, as to its entries. -/
theorem pool_refines_queue {x : Pool × QueueLog} (h : queuePool.ReachableBy Increasing x) :
    queueMachine.Reachable (Pool.toQueue x) := by
  refine h.refines (fun x hi => ?_) fun x a _ hC ha => ?_
  · obtain ⟨⟨n, hn⟩, hl⟩ := hi
    rw [Pool.toQueue, hn, hl]
    rfl
  · have hq : (queuePool.next x a).1.group.priorityQueue = x.1.queueAfter (x.1.queueAct? a) :=
      Pool.priorityQueue_next a
    have hl : (queuePool.next x a).2 = (x.1.queueAct? a).elim x.2 x.2.record := rfl
    rw [Pool.toQueue, hq, hl]
    cases hb : x.1.queueAct? a with
    | none => exact .inl rfl
    | some b => exact .inr ⟨b, ⟨hC b hb, Pool.allows ha hb⟩, rfl⟩

/-! ### Turns -/

/-- The run from `x`, where a worker pushes `q` again, to `y`. -/
structure RePushRun (x y : Pool × QueueLog) (w : Tid) (q : SeqId) : Prop where
  reachable : queuePool.ReachableBy Increasing x
  enabled : queuePool.Enabled x (.worker w (.rePush q))
  increasing : Increasing x (.worker w (.rePush q))
  run : queuePool.Run Increasing (queuePool.next x (.worker w (.rePush q))) y

/-- What the entries of `q` that are pushed from `x` on are like, and that `q` keeps its traits. -/
structure PushedSince (x : Pool × QueueLog) (q : SeqId) (y : Pool × QueueLog) : Prop where
  allocated : q < y.1.nextSeq
  traits : (y.1.seqs q).traits = (x.1.seqs q).traits
  pushed : ∃ more, y.2.pushed = x.2.pushed ++ more ∧
    ∀ d ∈ more, d.taskSource = q → d.priority = (x.1.seqs q).traits.priority

theorem PushedSince.next {x y : Pool × QueueLog} {q : SeqId} (h : PushedSince x q y)
    (a : Pool.Action) : PushedSince x q (queuePool.next y a) := by
  obtain ⟨hn, ht⟩ := Pool.keepsTraits_next (s := y.1) a
  refine ⟨Nat.lt_of_lt_of_le h.allocated hn, (ht q h.allocated).trans h.traits, ?_⟩
  obtain ⟨more, hm, hp⟩ := h.pushed
  have hl : (queuePool.next y a).2 = (y.1.queueAct? a).elim y.2 y.2.record := rfl
  rw [hl]
  match hb : y.1.queueAct? a with
  | none => exact ⟨more, hm, hp⟩
  | some (.pop none) => exact ⟨more, hm, hp⟩
  | some (.pop (some e)) => exact ⟨more, hm, hp⟩
  | some (.push e) =>
      refine ⟨more ++ [e], ?_, fun d hd hq => ?_⟩
      · rw [← List.append_assoc, ← hm]
        rfl
      · rcases List.mem_append.mp hd with hd | hd
        · exact hp d hd hq
        · obtain rfl := List.mem_singleton.mp hd
          rw [← h.traits, ← hq]
          exact Pool.priority_of_push hb

namespace RePushRun

variable {x y : Pool × QueueLog} {w : Tid} {q : SeqId}

theorem reachable_end (h : RePushRun x y w q) : queuePool.ReachableBy Increasing y :=
  (h.reachable.run (.more .refl h.increasing h.enabled)).run h.run

theorem pushedSince (h : RePushRun x y w q) : PushedSince x q y := by
  have hw : (x.1.workers w).seq? = some q := congrArg WorkerPhase.seq? h.enabled
  have hq : q < x.1.nextSeq := (reachable_wellFormed h.reachable.of_withHistory).workers w q hw
  have hx : PushedSince x q x := ⟨hq, rfl, [], (List.append_nil _).symm, nofun⟩
  exact h.run.keeps (fun y a hy _ => hy.next a) (hx.next _)

/-- A turn of `q` is by an entry that was there, or it comes after all that were. -/
theorem turn (h : RePushRun x y w q) {e d : QueueEntry} (he : e ∈ x.1.group.priorityQueue)
    (hp : e.priority = (x.1.seqs q).traits.priority) (hd : d ∈ y.2.popped)
    (hq : d.taskSource = q) :
    d ∈ x.2.popped ∨ d ∈ x.1.group.priorityQueue ∨ Before y.2.popped e d := by
  have hx : (Pool.toQueue x).Law := QueueRun.law_of_reachable (pool_refines_queue h.reachable)
  have hy : (Pool.toQueue y).Law := QueueRun.law_of_reachable (pool_refines_queue h.reachable_end)
  obtain ⟨more, hm, hmore⟩ := h.pushedSince.pushed
  have hd' : d ∈ y.2.pushed := hy.conserved.subset (List.mem_append_left _ hd)
  rw [hm] at hd'
  rcases List.mem_append.mp hd' with old | new
  · rcases List.mem_append.mp (hx.conserved.symm.subset old) with hpop | hqueue
    · exact .inl hpop
    · exact .inr (.inl hqueue)
  · have hb : Before y.2.pushed e d := by
      rw [hm]
      exact .of_mem (hx.mem_pushed he) new
    exact .inr (.inr (hy.popped_first hb (hp.trans (hmore d new hq).symm) hd))

end RePushRun

/-- **Order and turns.** -/
theorem queue_in_order :
    Std.TransCmp QueueEntry.cmp ∧ (∀ a b : QueueEntry, a.cmp b = .eq ↔ a.eq b = true) ∧
    (∀ a b : QueueEntry, a.Le b ↔ (a.cmp b).isLE = true) ∧
    (∀ x, queueMachine.Reachable x → x.Ordered) ∧
    ∀ x y w q, RePushRun x y w q → ∀ e ∈ x.1.group.priorityQueue,
      e.priority = (x.1.seqs q).traits.priority → ∀ d ∈ y.2.popped, d.taskSource = q →
        d ∈ x.2.popped ∨ d ∈ x.1.group.priorityQueue ∨ Before y.2.popped e d := by
  refine ⟨QueueEntry.transCmp, fun a b => QueueEntry.cmp_eq_iff, fun a b => QueueEntry.le_iff,
    fun x hx => (QueueRun.law_of_reachable hx).ordered, ?_⟩
  intro x y w q h e he hp d hd hq
  exact h.turn he hp hd hq

/-! ### A sequence with two entries -/

/-- A sequence that is pushed again is handed out after every other one of its priority that was
queued already. -/
def TakesTurns : Prop :=
  ∀ x y w q, RePushRun x y w q → ∀ e ∈ x.1.group.priorityQueue,
    e.priority = (x.1.seqs q).traits.priority → e.taskSource ≠ q →
      ∀ d ∈ y.2.popped, d.taskSource = q → d ∈ x.2.popped ∨ Before y.2.popped e d

/-- A post to a runner, up to its notification; the clock moves on. -/
def runnerPostRun (q : SeqId) (id : ℕ) : List Pool.Action :=
  [.poster 0 (.post (.sequenced q) none), .poster 0 (.push (.runner q) (.plain id) none),
   .poster 0 (.pushSource q), .poster 0 (.notifyGroup none), .tick 1]

/-- Two posts to one runner and one to another, and the first task is run. -/
def twoPostsRun : List Pool.Action :=
  [[.createRunner .default, .createRunner .default],
   runnerPostRun 0 0, runnerPostRun 0 1, runnerPostRun 1 2,
   [.worker 0 (.getWorkPop ⟨.userVisible, 0, 0⟩), .worker 0 (.willRunTask 0),
    .worker 0 (.takeTask 0), .worker 0 (.callTask 0 ⟨.plain 0, 0⟩),
    .worker 0 (.enterCallback 0 ⟨.plain 0, 0⟩), .worker 0 (.callbackReturns 0 ⟨.plain 0, 0⟩),
    .worker 0 (.clearHasWorker 0), .worker 0 (.didProcessTask 0)]].flatten

/-- Its worker is about to push the first sequence again. -/
def twoPosts : Pool × QueueLog := queuePool.runList (Pool.new 3, ⟨[], []⟩) twoPostsRun

theorem rePushRun_twoPosts {l : List Pool.Action} (h : queuePool.Follows Increasing
      (queuePool.next twoPosts (.worker 0 (.rePush 0))) l) :
    RePushRun twoPosts
      (queuePool.runList (queuePool.next twoPosts (.worker 0 (.rePush 0))) l) 0 0 where
  reachable := .of_follows ⟨⟨3, rfl⟩, rfl⟩ (by decide +kernel)
  enabled := by decide +kernel
  increasing := by decide +kernel
  run := h.run

/-- The second task of that sequence begins, with the other sequence still in the queue. -/
theorem not_takesTurns : ¬ TakesTurns := by
  intro h
  have run := rePushRun_twoPosts (l :=
    [.worker 0 (.notify none), .worker 0 (.getWorkPop ⟨.userVisible, 1, 0⟩),
     .worker 0 (.willRunTask 0), .worker 0 (.takeTask 0),
     .worker 0 (.callTask 0 ⟨.plain 1, 1⟩)]) (by decide +kernel)
  have turn := h _ _ _ _ run ⟨.userVisible, 2, 1⟩ (by decide +kernel) (by decide +kernel)
    (by decide +kernel) ⟨.userVisible, 1, 0⟩ (by decide +kernel) rfl
  rcases turn with hp | hb
  · exact absurd hp (by decide +kernel)
  · exact absurd hb.mem (by decide +kernel)

/-- The entry that was pushed again comes after the other sequence. -/
theorem twoPosts_in_order :
    let y := queuePool.runList (queuePool.next twoPosts (.worker 0 (.rePush 0)))
      [.worker 0 (.notify none), .worker 0 (.getWorkPop ⟨.userVisible, 1, 0⟩),
       .worker 1 (.getWorkPop ⟨.userVisible, 2, 1⟩), .worker 2 (.getWorkPop ⟨.userVisible, 3, 0⟩)]
    (Pool.toQueue y).Ordered ∧
      Before y.2.popped ⟨.userVisible, 2, 1⟩ ⟨.userVisible, 3, 0⟩ := by
  intro y
  obtain ⟨-, -, -, ordered, turns⟩ := queue_in_order
  have run : RePushRun twoPosts y 0 0 := rePushRun_twoPosts (by decide +kernel)
  refine ⟨ordered _ (pool_refines_queue run.reachable_end), ?_⟩
  have turn := turns _ _ _ _ run ⟨.userVisible, 2, 1⟩ (by decide +kernel) (by decide +kernel)
    ⟨.userVisible, 3, 0⟩ (by decide +kernel) rfl
  rcases turn with hp | hq | hb
  · exact absurd hp (by decide +kernel)
  · exact absurd hq (by decide +kernel)
  · exact hb

end RustTask
