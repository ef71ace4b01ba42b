import RustBase.Net.SocketPosix

/-!
# Net — the operations of a socket

What is left of a socket when its watches are forgotten: the callback in each of its four slots, the
generation counters, the timeouts scheduled and the callbacks invoked.  `Ops.next` is a machine of
its own, with five kinds of steps: an operation starts, and is stored or completes at once; slots
are emptied; a timeout fires; the descriptor is dispatched; and steps that do none of this.

Every step of the socket is one of these, whatever becomes of the watches (`ops_next`), so a fact
about callbacks and deadlines is proved of `Ops` alone.
-/

namespace RustNet
open Support RustIo

/-! ### The abstract machine -/

/-- The slots for pending operations. -/
inductive OpKind where
  | connect
  | read
  | write
  | accept
  deriving DecidableEq

/-- The slot that a timeout looks at. -/
def TimeoutKind.op : TimeoutKind → OpKind
  | .connect => .connect
  | .read => .read
  | .write => .write

/-- The generation counter of an operation; accepts have none. -/
def OpKind.timeout? : OpKind → Option TimeoutKind
  | .connect => some .connect
  | .read => some .read
  | .write => some .write
  | .accept => none

theorem OpKind.timeout?_eq_some {k : OpKind} {t : TimeoutKind} :
    k.timeout? = some t ↔ k = t.op := by
  cases k <;> cases t <;> simp [timeout?, TimeoutKind.op]

@[ext] structure Ops where
  slot : OpKind → Option CallbackId
  gen : TimeoutKind → ℕ
  timeouts : List Timeout
  nextCallback : CallbackId
  results : List (CallbackId × Outcome)

/-- The slots that a readiness method looks at, the first one first. -/
def callSlots : Direction → OpKind × OpKind
  | .read => (.accept, .read)
  | .write => (.connect, .write)

inductive OpsAct where
  /-- `pends`: the system call would block; `o`: what the callback is given if it does not -/
  | start (k : OpKind) (pends timed : Bool) (o : Outcome)
  | cancel (ks : List OpKind)
  | fire (t : Timeout)
  | call (d : Direction) (o : OpKind → Outcome)
  | idle

/-- An operation starts. -/
def OpsAct.starts : OpsAct → Bool
  | .start _ _ _ _ => true
  | _ => false

namespace Ops

def start (x : Ops) (k : OpKind) (pends timed : Bool) (o : Outcome) : Ops where
  slot := if pends then Function.update x.slot k (some x.nextCallback) else x.slot
  gen := match k.timeout? with
    | some t => Function.update x.gen t (x.gen t + 1)
    | none => x.gen
  timeouts := match k.timeout? with
    | some t => if timed then ⟨t, x.gen t + 1⟩ :: x.timeouts else x.timeouts
    | none => x.timeouts
  nextCallback := x.nextCallback + 1
  results := if pends then x.results else x.results ++ [(x.nextCallback, o)]

def cancel (x : Ops) (ks : List OpKind) : Ops :=
  { x with slot := fun k => if k ∈ ks then none else x.slot k }

/-- The callback is taken out of its slot and invoked. -/
def resolve (x : Ops) (k : OpKind) (cb : CallbackId) (o : Outcome) : Ops :=
  { x with slot := Function.update x.slot k none, results := x.results ++ [(cb, o)] }

def fire (x : Ops) (t : Timeout) : Ops :=
  let x := { x with timeouts := x.timeouts.erase t }
  if x.gen t.kind ≠ t.gen then x
  else match x.slot t.kind.op with
    | none => x
    | some cb => x.resolve t.kind.op cb (.failed .timedOut)

def call (x : Ops) (d : Direction) (o : OpKind → Outcome) : Ops :=
  match x.slot (callSlots d).1 with
  | some cb => x.resolve (callSlots d).1 cb (o (callSlots d).1)
  | none =>
      match x.slot (callSlots d).2 with
      | some cb => x.resolve (callSlots d).2 cb (o (callSlots d).2)
      | none => x

def next (x : Ops) : OpsAct → Ops
  | .start k pends timed o => x.start k pends timed o
  | .cancel ks => x.cancel ks
  | .fire t => x.fire t
  | .call d o => x.call d o
  | .idle => x

/-- What a timeout does: it expires, and resolves the callback in its slot if the generation is its
own. -/
theorem fire_cases (x : Ops) (t : Timeout) :
    (x.fire t = { x with timeouts := x.timeouts.erase t } ∧
      (x.gen t.kind ≠ t.gen ∨ x.slot t.kind.op = none)) ∨
    ∃ cb, x.gen t.kind = t.gen ∧ x.slot t.kind.op = some cb ∧
      x.fire t = { x with timeouts := x.timeouts.erase t }.resolve t.kind.op cb
        (.failed .timedOut) := by
  unfold fire
  by_cases hg : x.gen t.kind = t.gen
  · cases hs : x.slot t.kind.op with
    | none => exact .inl ⟨by simp [hg, hs], .inr rfl⟩
    | some cb => exact .inr ⟨cb, hg, rfl, by simp [hg, hs]⟩
  · exact .inl ⟨by simp [hg], .inl hg⟩

/-- What a readiness method does: it resolves a callback, if one waits for it. -/
theorem call_cases (x : Ops) (d : Direction) (o : OpKind → Outcome) :
    x.call d o = x ∨ ∃ k cb, x.slot k = some cb ∧ x.call d o = x.resolve k cb (o k) := by
  unfold call
  cases h₁ : x.slot (callSlots d).1 with
  | some cb => exact .inr ⟨_, cb, h₁, rfl⟩
  | none =>
      cases h₂ : x.slot (callSlots d).2 with
      | some cb => exact .inr ⟨_, cb, h₂, rfl⟩
      | none => exact .inl rfl

/-- What a step does that starts no operation: slots are emptied, timeouts expire, and callbacks are
invoked. -/
structure Settles (x x' : Ops) : Prop where
  slot : ∀ k cb, x'.slot k = some cb → x.slot k = some cb
  gen : x'.gen = x.gen
  timeouts : x'.timeouts ⊆ x.timeouts
  nextCallback : x'.nextCallback = x.nextCallback
  results : x.results <+: x'.results

theorem Settles.refl (x : Ops) : Settles x x :=
  ⟨fun _ _ => id, rfl, List.Subset.refl _, rfl, List.prefix_rfl⟩

theorem settles_resolve {x x' : Ops} (h : Settles x x') (k : OpKind) (cb : CallbackId)
    (o : Outcome) : Settles x (x'.resolve k cb o) where
  slot j cb' hj := h.slot j cb' (update_none_eq_some.mp hj).2
  gen := h.gen
  timeouts := h.timeouts
  nextCallback := h.nextCallback
  results := h.results.trans (List.prefix_append ..)

theorem settles_expire (x : Ops) (t : Timeout) :
    Settles x { x with timeouts := x.timeouts.erase t } :=
  { Settles.refl x with timeouts := List.erase_subset }

theorem settles_next (x : Ops) {a : OpsAct} (ha : a.starts = false) : Settles x (x.next a) := by
  cases a with
  | start k pends timed o => cases ha
  | cancel ks =>
      refine { Settles.refl x with slot := fun k cb h => ?_ }
      by_cases hk : k ∈ ks
      · cases (if_pos hk).symm.trans h
      · exact (if_neg hk).symm.trans h
  | fire t =>
      rw [next]
      rcases x.fire_cases t with ⟨h, -⟩ | ⟨cb, -, -, h⟩
      · rw [h]; exact settles_expire x t
      · rw [h]; exact settles_resolve (settles_expire x t) ..
  | call d o =>
      rw [next]
      rcases x.call_cases d o with h | ⟨k, cb, -, h⟩
      · rw [h]; exact Settles.refl x
      · rw [h]; exact settles_resolve (Settles.refl x) ..
  | idle => exact Settles.refl x

end Ops

/-! ### The socket as such a machine -/

def ReadOp.cb : ReadOp → CallbackId
  | .readIfReady cb | .read _ cb => cb

namespace SocketPosix

def slot (x : SocketPosix) : OpKind → Option CallbackId
  | .connect => x.pendingConnect
  | .read => x.pendingRead.map ReadOp.cb
  | .write => x.pendingWrite.map WriteOp.cb
  | .accept => x.pendingAccept

def gen (x : SocketPosix) : TimeoutKind → ℕ
  | .connect => x.connectGen
  | .read => x.readGen
  | .write => x.writeGen

end SocketPosix

def SocketState.ops (s : SocketState) : Ops where
  slot := s.socket.slot
  gen := s.socket.gen
  timeouts := s.timeouts
  nextCallback := s.nextCallback
  results := s.results

/-- The answer of a system call is the error `e`. -/
def wouldBlock {α : Type} (e : Errno) : Except Errno α → Bool
  | .ok _ => false
  | .error e' => e' = e

/-- What the callback of a slot is given by a readiness method. -/
def Syscalls.outcome (sys : Syscalls) : OpKind → Outcome
  | .connect => RustNet.outcome (fun _ => .connected) sys.connectError
  | .accept => RustNet.outcome .accepted sys.accept
  | .write => RustNet.outcome .written sys.write
  | .read => RustNet.outcome .data sys.read

/-- The same, where it depends on the operation: `read_if_ready` only signals. -/
def SocketState.callOutcome (s : SocketState) (sys : Syscalls) (k : OpKind) : Outcome :=
  match k, s.socket.pendingRead with
  | .read, some (.readIfReady _) => .readable
  | _, _ => sys.outcome k

/-- The step of the operations that a step of the socket is. -/
def SocketState.act (s : SocketState) : SocketAct → OpsAct
  | .connect timed r _ =>
      .start .connect (wouldBlock einprogress r) timed (outcome (fun _ => .connected) r)
  | .readIfReady timed _ => .start .read true timed .readable
  | .read timed _ r _ => .start .read (wouldBlock eagain r) timed (outcome .data r)
  | .write timed _ r _ => .start .write (wouldBlock eagain r) timed (outcome .written r)
  | .accept r _ => .start .accept (wouldBlock eagain r) false (outcome .accepted r)
  | .cancelAccept => .cancel [.accept]
  | .cancelRead => .cancel [.read]
  | .cancelWrite => .cancel [.write]
  | .close => .cancel [.read, .write, .connect, .accept]
  | .fire t => .fire t
  | .call c _ sys => .call c.direction (s.callOutcome sys)
  | .dispatch _ | .callDone _ | .dispatchDone => .idle

namespace SocketState

variable (s : SocketState)

theorem ops_setWatcher (d : Direction) (c : FdWatchController) (table : WatchTable) :
    ops { s with socket := s.socket.setWatcher d c, table := table } = s.ops := by
  cases d <;> rfl

theorem ops_arm (d : Direction) (ok : Bool) : (s.arm d ok).ops = s.ops := by
  unfold arm
  cases s.socket.fd with
  | none => rfl
  | some fd => exact ops_setWatcher ..

theorem ops_stop (d : Direction) : (s.stop d).ops = s.ops := ops_setWatcher ..

/-- An operation with a deadline. -/
theorem ops_scheduleTimeout {k : OpKind} {t : TimeoutKind} {s' : SocketState} {pends : Bool}
    {o : Outcome} (hk : k.timeout? = some t) (timed : Bool)
    (h : s'.ops = s.ops.start k pends false o) :
    (if timed then s'.scheduleTimeout ⟨t, s.socket.gen t + 1⟩ else s').ops =
      s.ops.start k pends timed o := by
  cases timed with
  | false => exact h
  | true =>
      have hs : (s'.scheduleTimeout ⟨t, s.socket.gen t + 1⟩).ops =
          { s'.ops with timeouts := ⟨t, s.socket.gen t + 1⟩ :: s'.ops.timeouts } := rfl
      rw [if_pos rfl, hs, h]
      simp only [Ops.start, hk, if_true, if_false, Bool.false_eq_true]
      rfl

theorem ops_connect (r : Except Errno Unit) (ok : Bool) :
    (s.connect r ok).ops = s.ops.start .connect (wouldBlock einprogress r) false
      (outcome (fun _ => .connected) r) := by
  cases r with
  | ok u => exact Ops.ext rfl (funext fun t => by cases t <;> rfl) rfl rfl rfl
  | error e =>
      by_cases he : e = einprogress
      · simp only [connect, wouldBlock, he, if_true, armWrite, ops_arm]
        exact Ops.ext (funext fun k => by cases k <;> rfl) (funext fun t => by cases t <;> rfl)
          rfl rfl rfl
      · simp only [connect, wouldBlock, he, if_false]
        exact Ops.ext rfl (funext fun t => by cases t <;> rfl) rfl rfl rfl

theorem ops_readIfReady (ok : Bool) :
    (s.readIfReady ok).ops = s.ops.start .read true false .readable := by
  simp only [readIfReady, armRead, ops_arm]
  exact Ops.ext (funext fun k => by cases k <;> rfl) (funext fun t => by cases t <;> rfl)
    rfl rfl rfl

theorem ops_read (len : ℕ) (r : Except Errno (List UInt8)) (ok : Bool) :
    (s.read len r ok).ops =
      s.ops.start .read (wouldBlock eagain r) false (outcome .data r) := by
  cases r with
  | ok bytes => exact Ops.ext rfl (funext fun t => by cases t <;> rfl) rfl rfl rfl
  | error e =>
      by_cases he : e = eagain
      · simp only [read, wouldBlock, he, if_true, armRead, ops_arm]
        exact Ops.ext (funext fun k => by cases k <;> rfl) (funext fun t => by cases t <;> rfl)
          rfl rfl rfl
      · simp only [read, wouldBlock, he, if_false]
        exact Ops.ext rfl (funext fun t => by cases t <;> rfl) rfl rfl rfl

theorem ops_write (buf : List UInt8) (r : Except Errno ℕ) (ok : Bool) :
    (s.write buf r ok).ops =
      s.ops.start .write (wouldBlock eagain r) false (outcome .written r) := by
  cases r with
  | ok n => exact Ops.ext rfl (funext fun t => by cases t <;> rfl) rfl rfl rfl
  | error e =>
      by_cases he : e = eagain
      · simp only [write, wouldBlock, he, if_true, armWrite, ops_arm]
        exact Ops.ext (funext fun k => by cases k <;> rfl) (funext fun t => by cases t <;> rfl)
          rfl rfl rfl
      · simp only [write, wouldBlock, he, if_false]
        exact Ops.ext rfl (funext fun t => by cases t <;> rfl) rfl rfl rfl

theorem ops_accept (r : Except Errno Fd) (ok : Bool) :
    (s.accept r ok).ops =
      s.ops.start .accept (wouldBlock eagain r) false (outcome .accepted r) := by
  cases r with
  | ok fd => rfl
  | error e =>
      by_cases he : e = eagain
      · simp only [accept, wouldBlock, he, if_true, armRead, ops_arm]
        exact Ops.ext (funext fun k => by cases k <;> rfl) rfl rfl rfl rfl
      · simp only [accept, wouldBlock, he, if_false]
        rfl

theorem ops_close : s.close.ops = s.ops.cancel [.read, .write, .connect, .accept] := by
  have cleared : s.close.ops =
      ((s.stop .read).stop .write).ops.cancel [.read, .write, .connect, .accept] :=
    Ops.ext (funext fun k => by cases k <;> rfl) rfl rfl rfl rfl
  rw [cleared, ops_stop, ops_stop]

/-- A slot is emptied, the watch of its direction stopped, and its callback invoked. -/
theorem ops_resolve {s' : SocketState} {k : OpKind} {cb : CallbackId} {o : Outcome} (d : Direction)
    (h : s'.ops = { s.ops with slot := Function.update s.ops.slot k none }) :
    ((s'.stop d).complete cb o).ops = s.ops.resolve k cb o := by
  have hc : ((s'.stop d).complete cb o).ops =
      { (s'.stop d).ops with results := (s'.stop d).ops.results ++ [(cb, o)] } := rfl
  rw [hc, ops_stop, h]
  rfl

/-- A timeout of another generation, or for an empty slot. -/
theorem ops_fire_none {t : Timeout}
    (h : s.socket.gen t.kind ≠ t.gen ∨ s.socket.slot t.kind.op = none) :
    s.ops.fire t = ops { s with timeouts := s.timeouts.erase t } := by
  rcases s.ops.fire_cases t with ⟨he, -⟩ | ⟨cb, hg, hs, -⟩
  · exact he
  · rcases h with h | h
    · exact absurd hg h
    · rw [show s.ops.slot = s.socket.slot from rfl, h] at hs; cases hs

theorem ops_fire_some {t : Timeout} {cb : CallbackId} (hg : s.socket.gen t.kind = t.gen)
    (hs : s.socket.slot t.kind.op = some cb) :
    s.ops.fire t = (ops { s with timeouts := s.timeouts.erase t }).resolve t.kind.op cb
      (.failed .timedOut) := by
  rcases s.ops.fire_cases t with ⟨-, he | he⟩ | ⟨cb', -, hs', he⟩
  · exact absurd hg he
  · rw [show s.ops.slot = s.socket.slot from rfl, hs] at he; cases he
  · rw [show s.ops.slot = s.socket.slot from rfl, hs] at hs'
    cases hs'
    exact he

/-- A timeout that finds its operation. -/
theorem ops_fire_resolves {kind : TimeoutKind} {gen : ℕ} {cb : CallbackId}
    (hg : s.socket.gen kind = gen) (hs : s.socket.slot kind.op = some cb) :
    (s.fire ⟨kind, gen⟩).ops = s.ops.resolve kind.op cb (.failed .timedOut) := by
  subst hg
  cases kind with
  | connect =>
      have hs : s.socket.pendingConnect = some cb := hs
      simp only [fire, fireConnectTimeout, SocketPosix.gen, hs, ne_eq, not_true_eq_false, if_false]
      exact ops_resolve s .write
        (Ops.ext (funext fun k => by cases k <;> rfl) rfl rfl rfl rfl)
  | read =>
      obtain ⟨op, hop, hcb⟩ := Option.map_eq_some_iff.mp hs
      have resolves : ((stop { s with socket.pendingRead := none } .read).complete cb
          (.failed .timedOut)).ops = s.ops.resolve .read cb (.failed .timedOut) :=
        ops_resolve s .read (Ops.ext (funext fun k => by cases k <;> rfl) rfl rfl rfl rfl)
      cases op with
      | readIfReady cb' | read len cb' =>
          obtain rfl : cb' = cb := hcb
          simp only [fire, fireReadTimeout, SocketPosix.gen, hop, ne_eq, not_true_eq_false,
            if_false]
          exact resolves
  | write =>
      obtain ⟨⟨buf, cb'⟩, hop, hcb⟩ := Option.map_eq_some_iff.mp hs
      obtain rfl : cb' = cb := hcb
      simp only [fire, fireWriteTimeout, SocketPosix.gen, hop, ne_eq, not_true_eq_false, if_false]
      exact ops_resolve s .write
        (Ops.ext (funext fun k => by cases k <;> rfl) rfl rfl rfl rfl)

theorem ops_fire (t : Timeout) :
    (fire { s with timeouts := s.timeouts.erase t } t).ops = s.ops.fire t := by
  obtain ⟨kind, gen⟩ := t
  by_cases hg : s.socket.gen kind = gen
  · cases hs : s.socket.slot kind.op with
    | none =>
        rw [ops_fire_none s (.inr hs)]
        cases kind <;> simp_all [fire, fireConnectTimeout, fireReadTimeout, fireWriteTimeout,
          SocketPosix.slot, SocketPosix.gen, TimeoutKind.op]
    | some cb =>
        rw [ops_fire_some s hg hs]
        exact ops_fire_resolves { s with timeouts := s.timeouts.erase ⟨kind, gen⟩ } hg hs
  · rw [ops_fire_none s (.inl hg)]
    cases kind <;> simp_all [fire, fireConnectTimeout, fireReadTimeout, fireWriteTimeout,
      SocketPosix.gen]

theorem ops_call (d : Direction) (sys : Syscalls) :
    (s.call d sys).ops = s.ops.call d (s.callOutcome sys) := by
  obtain ⟨⟨fd, rw, ww, read, write, connect, accept, cg, rg, wg⟩, id, table, ts, ph, cb, rs⟩ := s
  cases d with
  | read =>
      cases accept with
      | some cb => exact Ops.ext (funext fun k => by cases k <;> rfl) rfl rfl rfl rfl
      | none =>
          cases read with
          | none => exact Ops.ext (funext fun k => by cases k <;> rfl) rfl rfl rfl rfl
          | some op =>
              cases op <;> exact Ops.ext (funext fun k => by cases k <;> rfl) rfl rfl rfl rfl
  | write =>
      cases connect with
      | some cb => exact Ops.ext (funext fun k => by cases k <;> rfl) rfl rfl rfl rfl
      | none =>
          cases write with
          | none => exact Ops.ext (funext fun k => by cases k <;> rfl) rfl rfl rfl rfl
          | some op => exact Ops.ext (funext fun k => by cases k <;> rfl) rfl rfl rfl rfl

/-- **The operations.**  A step of the socket is a step of its operations. -/
theorem ops_next (a : SocketAct) : (s.next a).ops = s.ops.next (s.act a) := by
  cases a with
  | connect timed r ok =>
      exact ops_scheduleTimeout s (t := .connect) rfl timed (s.ops_connect r ok)
  | readIfReady timed ok =>
      exact ops_scheduleTimeout s (t := .read) rfl timed (s.ops_readIfReady ok)
  | read timed len r ok => exact ops_scheduleTimeout s (t := .read) rfl timed (s.ops_read len r ok)
  | write timed buf r ok =>
      exact ops_scheduleTimeout s (t := .write) rfl timed (s.ops_write buf r ok)
  | accept r ok => exact s.ops_accept r ok
  | cancelAccept =>
      exact (ops_stop ..).trans (Ops.ext (funext fun k => by cases k <;> rfl) rfl rfl rfl rfl)
  | cancelRead =>
      exact (ops_stop ..).trans (Ops.ext (funext fun k => by cases k <;> rfl) rfl rfl rfl rfl)
  | cancelWrite =>
      exact (ops_stop ..).trans (Ops.ext (funext fun k => by cases k <;> rfl) rfl rfl rfl rfl)
  | close => exact s.ops_close
  | fire t => exact s.ops_fire t
  | dispatch flags =>
      simp only [next, dispatch]
      split
      · rfl
      · split <;> rfl
  | call c cs sys => exact s.ops_call c.direction sys
  | callDone cs => rfl
  | dispatchDone => rfl

end SocketState

end RustNet
