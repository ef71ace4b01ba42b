import RustBase.Task.Delivery
import RustBase.Task.PostingPaths

/-!
# Task — task runners and replies

`post_task_and_reply` of the two task runners, over the pool.  The closure it posts calls `task` and
then posts `reply` to the runner that `current_default()` was when the call was made; where there
was none it drops `reply`.

`current_default()` inside a task is what `worker_loop` found when it popped the sequence: a
`Sequence` has a `Weak` to its runner, and `get_execution_environment` upgrades it.  So who holds a
strong reference to a runner matters here, and the model has all of them: the program's own handles,
the thread-locals, and the `reply_runner`s that closures have captured.

* A worker looks the environment up after `get_work` and before `will_run_task`, and drops it at the
  end of the iteration; each is a step of its own, and handles are cloned and dropped at any time.
* The posts that a task makes itself are those of the poster with its worker's number, so a callback
  returns after its posts have.
* `held`, `place` and `Call.held` are history variables: no step's guard reads them.
-/

namespace RustTask
open Support

/-- Who holds a strong reference to a runner. -/
inductive Holder where
  /-- an `Arc` of the program, in a variable or captured by a closure -/
  | handle
  /-- `CURRENT_DEFAULT` of a worker, set for one iteration of its loop -/
  | worker (w : Tid)
  /-- `CURRENT_DEFAULT` of a thread before it enters `worker_loop`, the `previous` of its handles
  there -/
  | thread (w : Tid)
  /-- the `reply_runner` captured by the closure of the post `id` -/
  | reply (id : ℕ)
  deriving DecidableEq

/-- A call of `post_task_and_reply` by a task, and how far its closure has come. -/
structure Call where
  /-- the sequence the calling task runs on -/
  caller : SeqId
  /-- the runner of that sequence had a strong reference when the worker looked for it -/
  held : Bool
  replyRunner : Option SeqId
  taskReturned : Bool
  /-- the post of `reply` -/
  reply : Option ℕ
  deriving DecidableEq

/-- The closure has nothing left to do. -/
def Call.complete (c : Call) : Bool :=
  c.taskReturned && (c.replyRunner.isNone || c.reply.isSome)

structure ReplyPool where
  pool : Pool
  /-- the strong references to the runner of a sequence -/
  strong : SeqId → List Holder
  /-- `CURRENT_DEFAULT` of a thread outside the iterations of `worker_loop` -/
  outer : Tid → Option SeqId
  /-- the `task_runner` of the environment a worker has looked up in this iteration -/
  env : Tid → Option (Option SeqId)
  /-- whether there was a strong reference at that time -/
  held : Tid → Bool
  /-- the calls of `post_task_and_reply`, by the post of their closure -/
  calls : ℕ → Option Call
  /-- the sequence and the number that `push_task` gave a post -/
  place : ℕ → Option (SeqId × ℕ)

namespace ReplyPool

def new (n : ℕ) : ReplyPool where
  pool := .new n
  strong := fun _ => []
  outer := fun _ => none
  env := fun _ => none
  held := fun _ => false
  calls := fun _ => none
  place := fun _ => none

/-- `current_default()` on the thread `w`. -/
def currentDefault (s : ReplyPool) (w : Tid) : Option SeqId :=
  match s.env w with
  | some (some q) => some q
  | _ => s.outer w

/-- The `task_runner` of `Sequence::get_execution_environment`: `upgrade` fails when no strong
reference is left, and only the sequence of a runner has a `Weak`. -/
def getExecutionEnvironment (s : ReplyPool) (q : SeqId) : Option SeqId :=
  if q ∈ s.pool.runners ∧ s.strong q ≠ [] then some q else none

/-- A new strong reference to the runner, if there is one. -/
def hold (s : ReplyPool) (q : Option SeqId) (x : Holder) : SeqId → List Holder :=
  match q with
  | some q => Function.update s.strong q (x :: s.strong q)
  | none => s.strong

/-- A strong reference to the runner, if there is one, is dropped. -/
def release (s : ReplyPool) (q : Option SeqId) (x : Holder) : SeqId → List Holder :=
  match q with
  | some q => Function.update s.strong q ((s.strong q).erase x)
  | none => s.strong

/-! ### The steps of the pool -/

/-- What the environment, the references and the order of a callback's own steps ask of a step of
the pool. -/
def Allows (s : ReplyPool) : Pool.Action → Prop
  | .worker w .getWorkExit | .worker w (.getWorkPop _) | .worker w .getWorkWait => s.env w = none
  | .worker w (.willRunTask _) => s.env w ≠ none
  | .worker w (.callbackReturns _ t) =>
      s.pool.posters w = .idle ∧ ∀ c ∈ s.calls t.callback.id, c.complete = true
  -- a posting function unwinds in `Instant::now() + delay` only
  | .worker w (.callbackPanics _ _) => s.pool.posters w = .idle ∨ s.pool.posters w = .panicked
  | .poster _ (.post (.sequenced q) _) => s.strong q ≠ []
  | _ => True

/-- The closure of a call is gone, and the `reply_runner` it captured with it. -/
def dropClosure (s : ReplyPool) (id : ℕ) : SeqId → List Holder :=
  s.release ((s.calls id).bind Call.replyRunner) (.reply id)

def strongNext (s : ReplyPool) : Pool.Action → SeqId → List Holder
  | .createRunner _ => s.hold (some s.pool.nextSeq) .handle
  | .worker _ (.callbackReturns _ t) | .worker _ (.callbackPanics _ t) =>
      s.dropClosure t.callback.id
  | _ => s.strong

end ReplyPool

/-- The numbers that pushes of the runners give. -/
def Pool.placeNext (s : Pool) (place : ℕ → Option (SeqId × ℕ)) :
    Pool.Action → ℕ → Option (SeqId × ℕ)
  | .poster _ (.push d (.plain id) none) =>
      Function.update place id
        (some (s.destSeq d, ((s.openDest d).seqs (s.destSeq d)).nextSequenceNum))
  | _ => place

namespace ReplyPool

def poolNext (s : ReplyPool) (a : Pool.Action) : ReplyPool :=
  { s with
    pool := s.pool.next a
    strong := s.strongNext a
    place := s.pool.placeNext s.place a }

/-! ### The steps of the runners -/

inductive Act where
  | pool (a : Pool.Action)
  | getExecutionEnvironment (w : Tid) (q : SeqId)
  /-- the drop of `_default_handle` -/
  | dropEnvironment (w : Tid)
  | cloneHandle (q : SeqId)
  | dropHandle (q : SeqId)
  /-- a task calls `current_default()` and keeps what it gets -/
  | currentDefault (w : Tid) (q r : SeqId) (t : Task)
  /-- `CurrentDefaultHandle::new` on a thread that is not in `worker_loop` -/
  | setDefault (w : Tid) (q : SeqId)
  /-- the task `t` of `q` calls `post_task_and_reply` of `r` -/
  | postTaskAndReply (w : Tid) (q : SeqId) (t : Task) (r : Runner)
  /-- in the closure of a call: `task()` returns -/
  | taskReturns (w : Tid) (q : SeqId) (t : Task) (c : Call)
  /-- in the closure of a call: `runner.post_task(reply)` -/
  | postReply (w : Tid) (q : SeqId) (t : Task) (c : Call) (r : SeqId)
  deriving DecidableEq

/-- The post a call of `post_task_and_reply` makes. -/
abbrev callPost (w : Tid) (r : Runner) : Pool.Action := .poster w (.post r.path none)

/-- The post of a reply. -/
abbrev replyPost (w : Tid) (r : SeqId) : Pool.Action := .poster w (.post (.sequenced r) none)

def Enabled (s : ReplyPool) : Act → Prop
  | .pool a => s.pool.Enabled a ∧ s.Allows a
  | .getExecutionEnvironment w q => s.pool.workers w = .popped q ∧ s.env w = none
  | .dropEnvironment w =>
      (s.pool.workers w = .getWork ∨ (s.pool.workers w).unwound = true) ∧ s.env w ≠ none
  | .cloneHandle q | .dropHandle q => .handle ∈ s.strong q
  | .currentDefault w q r t =>
      s.pool.workers w = .running q t .body ∧ s.currentDefault w = some r
  | .setDefault w q => s.pool.workers w = .off ∧ s.outer w = none ∧ .handle ∈ s.strong q
  | .postTaskAndReply w q t r =>
      s.pool.workers w = .running q t .body ∧
      (∀ c ∈ s.calls t.callback.id, c.taskReturned = false) ∧
      s.pool.Enabled (callPost w r) ∧ s.Allows (callPost w r)
  | .taskReturns w q t c =>
      s.pool.workers w = .running q t .body ∧ s.pool.posters w = .idle ∧
      s.calls t.callback.id = some c ∧ c.taskReturned = false
  | .postReply w q t c r =>
      s.pool.workers w = .running q t .body ∧ s.calls t.callback.id = some c ∧
      c.taskReturned = true ∧ c.replyRunner = some r ∧ c.reply = none ∧
      s.pool.Enabled (replyPost w r)

def next (s : ReplyPool) : Act → ReplyPool
  | .pool a => s.poolNext a
  | .getExecutionEnvironment w q =>
      let env := s.getExecutionEnvironment q
      { s with
        env := Function.update s.env w (some env)
        held := Function.update s.held w (decide (s.strong q ≠ []))
        strong := s.hold env (.worker w) }
  | .dropEnvironment w =>
      { s with
        env := Function.update s.env w none
        strong := s.release (s.env w).join (.worker w) }
  | .cloneHandle q => { s with strong := s.hold (some q) .handle }
  | .dropHandle q => { s with strong := s.release (some q) .handle }
  | .currentDefault _ _ r _ => { s with strong := s.hold (some r) .handle }
  | .setDefault w q =>
      { s with
        outer := Function.update s.outer w (some q)
        strong := s.hold (some q) (.thread w) }
  | .postTaskAndReply w q _ r =>
      let id := s.pool.nextPost
      { s with
        pool := s.pool.next (callPost w r)
        strong := s.hold (s.currentDefault w) (.reply id)
        calls := Function.update s.calls id
          (some ⟨q, s.held w, s.currentDefault w, false, none⟩) }
  | .taskReturns _ _ t c =>
      { s with
        calls := Function.update s.calls t.callback.id (some { c with taskReturned := true }) }
  | .postReply w _ t c r =>
      { s with
        pool := s.pool.next (replyPost w r)
        calls := Function.update s.calls t.callback.id
          (some { c with reply := some s.pool.nextPost }) }

/-- The step of the pool that a step of the runners makes. -/
def Act.onPool : Act → Option Pool.Action
  | .pool a => some a
  | .postTaskAndReply w _ _ r => some (callPost w r)
  | .postReply w _ _ _ r => some (replyPost w r)
  | _ => none

instance (s : ReplyPool) : ∀ a, Decidable (s.Allows a)
  | .worker w .getWorkExit | .worker w (.getWorkPop _) | .worker w .getWorkWait =>
      inferInstanceAs (Decidable (s.env w = none))
  | .worker w (.willRunTask _) => inferInstanceAs (Decidable (s.env w ≠ none))
  | .worker w (.callbackReturns _ t) =>
      inferInstanceAs (Decidable (s.pool.posters w = .idle ∧
        ∀ c ∈ s.calls t.callback.id, c.complete = true))
  | .worker w (.callbackPanics _ _) =>
      inferInstanceAs (Decidable (s.pool.posters w = .idle ∨ s.pool.posters w = .panicked))
  | .poster _ (.post (.sequenced q) _) => inferInstanceAs (Decidable (s.strong q ≠ []))
  | .worker _ .attach | .worker _ .wakeSpuriously | .worker _ .resume | .worker _ (.takeTask _)
  | .worker _ (.callTask _ _) | .worker _ (.enterCallback _ _) | .worker _ (.afterRunTask _ _)
  | .worker _ (.clearHasWorker _) | .worker _ (.didProcessTask _) | .worker _ (.rePush _)
  | .worker _ (.notify _) | .poster _ (.post (.pool _) _) | .poster _ (.post (.parallel _) _)
  | .poster _ (.willPostTask _ _ _) | .poster _ (.readyTime _ _ _) | .poster _ (.push _ _ _)
  | .poster _ (.pushSource _) | .poster _ (.addSequence _ _) | .poster _ (.notifyGroup _)
  | .poster _ .notifyTimer | .timer _ | .closer _ _ | .createRunner _ | .tick _ =>
      inferInstanceAs (Decidable True)

instance (s : ReplyPool) : ∀ a, Decidable (s.Enabled a)
  | .pool a => inferInstanceAs (Decidable (s.pool.Enabled a ∧ s.Allows a))
  | .getExecutionEnvironment _ _ => inferInstanceAs (Decidable (_ ∧ _))
  | .dropEnvironment _ => inferInstanceAs (Decidable ((_ ∨ _) ∧ _))
  | .cloneHandle _ | .dropHandle _ => inferInstanceAs (Decidable (_ ∈ _))
  | .currentDefault _ _ _ _ => inferInstanceAs (Decidable (_ ∧ _))
  | .setDefault _ _ => inferInstanceAs (Decidable (_ ∧ _ ∧ _))
  | .postTaskAndReply w q t r =>
      inferInstanceAs (Decidable (s.pool.workers w = .running q t .body ∧
        (∀ c ∈ s.calls t.callback.id, c.taskReturned = false) ∧
        s.pool.Enabled (callPost w r) ∧ s.Allows (callPost w r)))
  | .taskReturns _ _ _ _ => inferInstanceAs (Decidable (_ ∧ _ ∧ _ ∧ _))
  | .postReply w q t c r =>
      inferInstanceAs (Decidable (s.pool.workers w = .running q t .body ∧
        s.calls t.callback.id = some c ∧ c.taskReturned = true ∧ c.replyRunner = some r ∧
        c.reply = none ∧ s.pool.Enabled (replyPost w r)))

end ReplyPool

def replyMachine : Machine ReplyPool ReplyPool.Act where
  Init := fun s => ∃ n, s = ReplyPool.new n
  Enabled := ReplyPool.Enabled
  next := ReplyPool.next

instance : ∀ s a, Decidable (replyMachine.Enabled s a) :=
  fun s a => inferInstanceAs (Decidable (s.Enabled a))

end RustTask
