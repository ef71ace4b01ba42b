import RustBase.Async.Net
import RustBase.Support.Before

/-!
# Async — the log of a descriptor

What the operations on one descriptor do in all, whatever the interleaving.

* `Replays`: the calls that did not block, in the order they were made, and the acts of the peer
  lead to the state of the kernel's side.  So an operation takes something out of the kernel exactly
  when it returns it, and a future that is dropped has taken nothing: the bytes that the reads of a
  stream return are the bytes received, and each connection of a listener is given to one caller.
* `Latched` and `Counted`: a loop goes round only when it has taken the latch of its direction,
  which a callback of the IO thread has set, so it makes no more calls than polls and callbacks.
-/

namespace RustAsync
open Support RustIo

/-! ### The calls, one after the other -/

section Replay

variable {κ ι ρ ε : Type*} {S : Socket κ ι ρ ε} {k₀ : κ}

/-- The event leaves the kernel's side alone. -/
def NetEvent.Silent : NetEvent ι ρ ε → Prop
  | .done _ _ _ | .peer _ => False
  | _ => True

variable (S k₀) in
inductive Replays : List (NetEvent ι ρ ε) → κ → Prop where
  | nil : Replays [] k₀
  | done {l : List (NetEvent ι ρ ε)} {k k' : κ} {x : ι} {r : ρ} (t : ℕ) (h : Replays l k)
      (hc : S.call x k = some (r, k')) : Replays (l ++ [.done t x r]) k'
  | peer {l : List (NetEvent ι ρ ε)} {k : κ} (e : ε) (h : Replays l k) :
      Replays (l ++ [.peer e]) (S.env e k)
  | silent {l : List (NetEvent ι ρ ε)} {k : κ} {e : NetEvent ι ρ ε} (h : Replays l k)
      (he : e.Silent) : Replays (l ++ [e]) k

theorem Replays.next {s : NetState κ ι ρ ε} {a : NetAct κ ι ρ ε}
    (h : Replays S k₀ s.log s.kernel) (ha : s.Enabled S a) :
    Replays S k₀ (s.next S a).log (s.next S a).kernel := by
  cases a with
  | start t f x w => exact h.silent trivial
  | resumeFuture t x w w' => exact h.silent trivial
  | resumePoll t x x' w w' => exact h.silent trivial
  | finish t f x w r k => exact h.done t ha.2
  | wouldBlock t f x w => exact h.silent trivial
  | ready t f x w => exact h.silent trivial
  | park t f x w =>
      simp only [NetState.next, NetState.move, List.append_nil]
      exact h
  | cancel t f x w => exact h.silent trivial
  | env e => exact h.peer e
  | io a =>
      simp only [NetState.next]
      cases a.callback with
      | none => simpa using h
      | some d => exact h.silent trivial

/-- An operation changes the kernel's side when it finishes and at no other time. -/
theorem replays_of_reachable {C : NetState κ ι ρ ε → NetAct κ ι ρ ε → Prop}
    {s : NetState κ ι ρ ε} (h : (netMachine S k₀).ReachableBy C s) :
    Replays S k₀ s.log s.kernel := by
  refine h.invariant (I := fun s => Replays S k₀ s.log s.kernel) ?_
    fun s a _ hs _ ha => hs.next ha
  rintro s ⟨r, -, rfl⟩
  exact .nil

end Replay

/-! ### The loop does not spin -/

section Spin

variable {κ ι ρ ε : Type*} (S : Socket κ ι ρ ε)

namespace NetEvent

/-- The task makes the non-blocking call, for the direction. -/
def isCall (t : ℕ) (d : Direction) : NetEvent ι ρ ε → Bool
  | .blocked u x | .done u x _ => u = t ∧ S.direction x = d
  | _ => false

/-- The task polls an operation of the direction. -/
def isPoll (t : ℕ) (d : Direction) : NetEvent ι ρ ε → Bool
  | .polled u x => u = t ∧ S.direction x = d
  | _ => false

def isRetry (t : ℕ) (d : Direction) : NetEvent ι ρ ε → Bool
  | .retried u x => u = t ∧ S.direction x = d
  | _ => false

/-- Some task's loop goes round. -/
def anyRetry (d : Direction) : NetEvent ι ρ ε → Bool
  | .retried _ x => S.direction x = d
  | _ => false

def isCallback (d : Direction) : NetEvent ι ρ ε → Bool
  | .callback d' => d' = d
  | _ => false

end NetEvent

/-- The call of the direction is next. -/
def NetPhase.tries (d : Direction) : NetPhase ι → ℕ
  | .trying _ x _ => if S.direction x = d then 1 else 0
  | _ => 0

namespace NetState

variable {S} {k₀ : κ} {s : NetState κ ι ρ ε}

/-- Every round of a loop but the first of its poll has taken the latch, which a callback set. -/
def Latched (S : Socket κ ι ρ ε) (s : NetState κ ι ρ ε) (d : Direction) : Prop :=
  s.log.countP (NetEvent.anyRetry S d) + (s.reactor.source.ready d).toNat ≤
    s.log.countP (NetEvent.isCallback d)

/-- Every call is made in a round of the loop. -/
def Counted (S : Socket κ ι ρ ε) (s : NetState κ ι ρ ε) (t : ℕ) (d : Direction) : Prop :=
  s.log.countP (NetEvent.isCall S t d) + (s.ops t).tries S d ≤
    s.log.countP (NetEvent.isPoll S t d) + s.log.countP (NetEvent.isRetry S t d)

/-- A step that neither polls the source nor calls it. -/
theorem Latched.of_source {s' : NetState κ ι ρ ε} {d : Direction} (h : s.Latched S d)
    (hr : s'.reactor.source = s.reactor.source) {l : List (NetEvent ι ρ ε)}
    (hl : s'.log = s.log ++ l) (hn : l.countP (NetEvent.anyRetry S d) = 0) : s'.Latched S d := by
  unfold Latched at h ⊢
  rw [hr, hl, List.countP_append, List.countP_append, hn]
  omega

theorem Latched.next {d : Direction} (h : s.Latched S d) {a : NetAct κ ι ρ ε}
    (ha : s.Enabled S a) : (s.next S a).Latched S d := by
  cases a with
  | start t f x w => exact h.of_source rfl rfl rfl
  | resumeFuture t x w w' => exact h.of_source rfl rfl rfl
  | resumePoll t x x' w w' => exact h.of_source rfl rfl rfl
  | finish t f x w r k => exact h.of_source rfl rfl rfl
  | wouldBlock t f x w => exact h.of_source rfl rfl rfl
  | cancel t f x w => exact h.of_source rfl rfl rfl
  | env e => exact h.of_source rfl rfl rfl
  | ready t f x w =>
      -- the latch is taken and the round written down
      have taken := congrFun (ReactorState.ready_poll s.reactor (S.direction x) w) d
      unfold Latched at h ⊢
      simp only [NetState.next, move, pollSource, List.countP_append, taken]
      by_cases hd : d = S.direction x
      · subst hd
        rw [ha.2] at h
        simp [NetEvent.anyRetry, NetEvent.isCallback] at h ⊢
        omega
      · rw [Function.update_of_ne hd]
        simp [NetEvent.anyRetry, NetEvent.isCallback, Ne.symm hd] at h ⊢
        omega
  | park t f x w =>
      have taken := congrFun (ReactorState.ready_poll s.reactor (S.direction x) w) d
      have same : (s.reactor.poll (S.direction x) w).source.ready d = s.reactor.source.ready d := by
        rw [taken, ← ha.2, Function.update_eq_self]
      unfold Latched at h ⊢
      simp only [NetState.next, move, pollSource, List.append_nil, same]
      exact h
  | io a =>
      obtain ⟨hio, -⟩ := ha
      cases hc : a.callback with
      | none =>
          refine h.of_source (l := []) (ReactorState.source_next _ hio hc) ?_ rfl
          simp [NetState.next, hc]
      | some d' =>
          obtain ⟨c, cs, rfl⟩ : ∃ c cs, a = .call c cs := by cases a <;> simp_all [SourceAct.callback]
          have set := congrFun (ReactorState.ready_call s.reactor c cs) d
          unfold Latched at h ⊢
          simp only [NetState.next, ReactorState.next, SourceAct.callback, List.countP_append, set]
          by_cases hd : d = c.direction
          · subst hd
            have old := Bool.toNat_le (s.reactor.source.ready c.direction)
            simp [NetEvent.anyRetry, NetEvent.isCallback] at h ⊢
            omega
          · rw [Function.update_of_ne hd]
            simp [NetEvent.anyRetry, NetEvent.isCallback, Ne.symm hd] at h ⊢
            omega

/-- A task moves to the phase: it makes no more calls than it polls or goes round. -/
theorem Counted.of_move {s' : NetState κ ι ρ ε} {t u : ℕ} {d : Direction} (h : s.Counted S t d)
    {p : NetPhase ι} {l : List (NetEvent ι ρ ε)} (ho : s'.ops = Function.update s.ops u p)
    (hl : s'.log = s.log ++ l)
    (hm : u = t → l.countP (NetEvent.isCall S t d) + p.tries S d ≤
      (s.ops t).tries S d + l.countP (NetEvent.isPoll S t d) + l.countP (NetEvent.isRetry S t d))
    (hn : u ≠ t → l.countP (NetEvent.isCall S t d) = 0) : s'.Counted S t d := by
  unfold Counted at h ⊢
  rw [ho, hl, List.countP_append, List.countP_append, List.countP_append]
  by_cases hu : u = t
  · have hm := hm hu
    rw [hu, Function.update_self]
    omega
  · rw [hn hu, Function.update_of_ne (Ne.symm hu)]
    omega

theorem Counted.of_ops {s' : NetState κ ι ρ ε} {t : ℕ} {d : Direction} (h : s.Counted S t d)
    (ho : s'.ops = s.ops) {l : List (NetEvent ι ρ ε)} (hl : s'.log = s.log ++ l)
    (hn : l.countP (NetEvent.isCall S t d) = 0) : s'.Counted S t d := by
  unfold Counted at h ⊢
  rw [ho, hl, List.countP_append, List.countP_append, List.countP_append, hn]
  omega

theorem Counted.next {t : ℕ} {d : Direction} (h : s.Counted S t d) {a : NetAct κ ι ρ ε}
    (ha : s.Enabled S a) : (s.next S a).Counted S t d := by
  have none : ∀ {u : ℕ} {p : NetPhase ι}, s.ops u = p → u = t → (s.ops t).tries S d = p.tries S d :=
    fun hp hu => by rw [← hu, hp]
  cases a with
  | start u f x w =>
      refine h.of_move rfl rfl (fun hu => ?_) fun _ => rfl
      simp [NetEvent.isCall, NetEvent.isPoll, NetEvent.isRetry, NetPhase.tries, hu]
  | resumeFuture u x w w' =>
      refine h.of_move rfl rfl (fun hu => ?_) fun _ => rfl
      simp [NetEvent.isCall, NetPhase.tries]
  | resumePoll u x x' w w' =>
      refine h.of_move rfl rfl (fun hu => ?_) fun _ => rfl
      simp [NetEvent.isCall, NetEvent.isPoll, NetEvent.isRetry, NetPhase.tries, hu]
  | finish u f x w r k =>
      refine h.of_move rfl rfl (fun hu => ?_) fun hu => ?_
      · rw [none ha.1 hu]
        simp [NetEvent.isCall, NetEvent.isPoll, NetEvent.isRetry, NetPhase.tries, hu]
      · simp [NetEvent.isCall, hu]
  | wouldBlock u f x w =>
      refine h.of_move rfl rfl (fun hu => ?_) fun hu => ?_
      · rw [none ha.1 hu]
        simp [NetEvent.isCall, NetEvent.isPoll, NetEvent.isRetry, NetPhase.tries, hu]
      · simp [NetEvent.isCall, hu]
  | ready u f x w =>
      refine h.of_move rfl rfl (fun hu => ?_) fun _ => rfl
      simp [NetEvent.isCall, NetEvent.isPoll, NetEvent.isRetry, NetPhase.tries, hu]
  | park u f x w => exact h.of_move rfl rfl (fun _ => Nat.zero_le _) fun _ => rfl
  | cancel u f x w =>
      refine h.of_move rfl rfl (fun _ => ?_) fun _ => rfl
      simp [NetEvent.isCall, NetPhase.tries]
  | env e => exact h.of_ops rfl rfl rfl
  | io a =>
      refine h.of_ops rfl rfl ?_
      cases a.callback <;> rfl

theorem counted_of_reachable (h : (netMachine S k₀).Reachable s) (t : ℕ) (d : Direction) :
    s.Latched S d ∧ s.Counted S t d := by
  refine h.invariant (I := fun s => s.Latched S d ∧ s.Counted S t d) ?_ fun s a _ hs _ ha =>
    ⟨hs.1.next ha, hs.2.next ha⟩
  rintro s ⟨r, ⟨fd, id, table, -, rfl⟩, rfl⟩
  cases d <;> exact ⟨Nat.le_refl _, Nat.le_refl _⟩

/-- **No operation spins.**  In every run, for every task and direction: the task has made at most
as many non-blocking calls as it was polled for and the IO thread has reported the direction. -/
theorem calls_le_polls_add_callbacks (h : (netMachine S k₀).Reachable s) (t : ℕ) (d : Direction) :
    s.log.countP (NetEvent.isCall S t d) ≤
      s.log.countP (NetEvent.isPoll S t d) + s.log.countP (NetEvent.isCallback d) := by
  obtain ⟨latched, counted⟩ := counted_of_reachable h t d
  have retries : s.log.countP (NetEvent.isRetry S t d) ≤ s.log.countP (NetEvent.anyRetry S d) := by
    refine List.countP_mono_left fun e _ he => ?_
    cases e with
    | retried u x =>
        simp only [NetEvent.isRetry, decide_eq_true_eq] at he
        simpa [NetEvent.anyRetry] using he.2
    | _ => cases he
  unfold Latched at latched
  unfold Counted at counted
  omega

/-- A read finds nothing and waits; two bytes arrive, the descriptor is dispatched, and the read is
polled again. -/
def readRun : List (NetAct TcpKernel TcpCall (Except IoError Bytes) TcpPeer) :=
  [.start 1 .future (.read 4) 7, .wouldBlock 1 .future (.read 4) 7, .park 1 .future (.read 4) 7,
    .io (.arm .read [] true), .env (.send [10, 20]), .io (.dispatch epollIn),
    .io (.call ⟨5, 1, 0, .read⟩ []), .io (.wake .read (some 7) []), .io .dispatchDone,
    .resumeFuture 1 (.read 4) 7 8, .ready 1 .future (.read 4) 8,
    .finish 1 .future (.read 4) 8 (.ok [10]) ⟨[20], [10, 20], false, 64, false, none, false, 0⟩]

/-- Two calls, for two polls and a callback. -/
theorem readRun_calls :
    let s := (netMachine tcpStream (.new 64)).runList (.init (.init 5 1 .new) (.new 64)) readRun
    s.log.countP (NetEvent.isCall tcpStream 1 .read) = 2 ∧
      2 ≤ s.log.countP (NetEvent.isPoll tcpStream 1 .read) +
        s.log.countP (NetEvent.isCallback .read) := by
  have reached : (netMachine tcpStream (.new 64)).Reachable
      ((netMachine tcpStream (.new 64)).runList (.init (.init 5 1 .new) (.new 64)) readRun) :=
    .of_follows ⟨_, ⟨5, 1, .new, rfl, rfl⟩, rfl⟩ (by decide +kernel)
  have two : List.countP (NetEvent.isCall tcpStream 1 .read)
      ((netMachine tcpStream (.new 64)).runList (.init (.init 5 1 .new) (.new 64)) readRun).log =
        2 := by decide +kernel
  exact ⟨two, two ▸ calls_le_polls_add_callbacks reached 1 .read⟩

end NetState

end Spin

/-! ### The bytes of a stream -/

abbrev TcpEvent := NetEvent TcpCall (Except IoError Bytes) TcpPeer

/-- The bytes that the read has returned. -/
def NetEvent.readBytes : TcpEvent → Bytes
  | .done _ (.read _) (.ok bs) => bs
  | _ => []

namespace TcpKernel

variable {k k' : TcpKernel} {log : List TcpEvent}

/-- All that arrived was read, and nothing more will arrive. -/
def Ended (k : TcpKernel) : Prop := k.eof = true ∧ k.inbound = []

theorem Ended.env (h : k.Ended) (e : TcpPeer) : (k.env e).Ended := by
  obtain ⟨he, hi⟩ := h
  cases e with
  | send bs =>
      rw [TcpKernel.env, if_pos he]
      exact ⟨he, hi⟩
  | fin => exact ⟨rfl, hi⟩
  | reset e => exact ⟨rfl, hi⟩
  | drain n => exact ⟨he, hi⟩
  | setLimit n => exact ⟨he, hi⟩

/-- A read takes what it returns off the front, and a write or a half-close leaves what is there to
read. -/
def Transfers (k k' : TcpKernel) : TcpCall → Except IoError Bytes → Prop
  | .read len, .ok bs => bs ++ k'.inbound = k.inbound ∧ bs.length ≤ len ∧
      (bs = [] → 0 < len → k'.Ended)
  | .write buf, .ok bs => k'.inbound = k.inbound ∧ k.writeShut = false ∧ bs <+: buf ∧
      (buf ≠ [] → bs ≠ [])
  | .shutdownWrite, .ok _ => k'.inbound = k.inbound ∧ k'.writeShut = true
  | _, .error _ => k'.inbound = k.inbound

theorem call_cases {x : TcpCall} {r : Except IoError Bytes} (h : call x k = some (r, k')) :
    k'.arrived = k.arrived ∧ k'.eof = k.eof ∧ (k.writeShut = true → k'.writeShut = true) ∧
      Transfers k k' x r := by
  cases x with
  | read len =>
      simp only [call] at h
      split at h
      · rename_i hne
        cases h
        refine ⟨rfl, rfl, id, List.take_append_drop .., List.length_take_le .. |>.trans ?_, ?_⟩
        · exact Nat.min_le_left ..
        · intro he hl
          rcases List.take_eq_nil_iff.mp he with he | he
          · omega
          · exact absurd he hne
      · rename_i hne
        split at h
        · cases h
          exact ⟨rfl, rfl, id, rfl⟩
        · split at h
          · rename_i he
            cases h
            exact ⟨rfl, rfl, id, rfl, Nat.zero_le _, fun _ _ => ⟨he, not_not.mp hne⟩⟩
          · cases h
  | write buf =>
      simp only [call] at h
      split at h
      · cases h
        exact ⟨rfl, rfl, id, rfl⟩
      · split at h
        · cases h
          exact ⟨rfl, rfl, id, rfl⟩
        · rename_i hs
          have hs : k.writeShut = false := Bool.eq_false_iff.mpr hs
          split at h
          · rename_i hb
            cases h
            exact ⟨rfl, rfl, id, rfl, hs, List.nil_prefix, fun hn => absurd hb hn⟩
          · split at h
            · cases h
            · rename_i hroom
              cases h
              refine ⟨rfl, rfl, id, rfl, hs, List.take_prefix .., fun hn he => ?_⟩
              rcases List.take_eq_nil_iff.mp he with he | he
              · omega
              · exact hn he
  | shutdownWrite =>
      simp only [call] at h
      split at h
      · cases h
        exact ⟨rfl, rfl, id, rfl⟩
      · cases h
        exact ⟨rfl, rfl, fun _ => rfl, rfl, rfl⟩

/-- The log of a stream and the kernel's side of it. -/
structure Logged (log : List TcpEvent) (k : TcpKernel) : Prop where
  bytes : log.flatMap NetEvent.readBytes ++ k.inbound = k.arrived
  read : ∀ t len bs, .done t (.read len) (.ok bs) ∈ log →
    bs.length ≤ len ∧ (bs = [] → 0 < len → k.Ended)
  write : ∀ t buf bs, .done t (.write buf) (.ok bs) ∈ log → bs <+: buf ∧ (buf ≠ [] → bs ≠ [])
  shut : ∀ t bs, .done t .shutdownWrite (.ok bs) ∈ log → k.writeShut = true
  closed : ∀ t u buf bs cs,
    ¬ Before log (.done u .shutdownWrite (.ok cs)) (.done t (.write buf) (.ok bs))

namespace Logged

theorem nil (room : ℕ) : Logged [] (.new room) where
  bytes := rfl
  read _ _ _ h := by cases h
  write _ _ _ h := by cases h
  shut _ _ h := by cases h
  closed := by
    rintro t u buf bs cs ⟨l₁, l₂, e, -⟩
    simp at e

/-- What comes before an event of the log, when another one was added. -/
theorem not_before_concat {a b e : TcpEvent} (h : ¬ Before log a b) (hb : e = b → a ∉ log) :
    ¬ Before (log ++ [e]) a b := by
  rintro ⟨l₁, l₂, he, ha⟩
  rcases List.eq_nil_or_concat l₂ with rfl | ⟨l₂, z, rfl⟩
  · obtain ⟨rfl, rfl⟩ := List.append_inj' he rfl |>.imp_right List.singleton_inj.mp
    exact hb rfl ha
  · have e' : log ++ [e] = (l₁ ++ b :: l₂) ++ [z] := by rw [he]; simp
    obtain ⟨rfl, -⟩ := List.append_inj' e' rfl
    exact h ⟨l₁, l₂, rfl, ha⟩

/-- An event that is no call, and what the peer does. -/
theorem concat (h : Logged log k) {e : TcpEvent} (he : ∀ t x r, e ≠ .done t x r)
    (hb : ∀ l, l ++ k.inbound = k.arrived → l ++ k'.inbound = k'.arrived)
    (hended : k.Ended → k'.Ended) (hshut : k.writeShut = true → k'.writeShut = true) :
    Logged (log ++ [e]) k' := by
  have old : ∀ {t x r}, NetEvent.done t x r ∈ log ++ [e] → NetEvent.done t x r ∈ log := by
    intro t x r hm
    rcases List.mem_append.mp hm with hm | hm
    · exact hm
    · exact absurd (List.mem_singleton.mp hm).symm (he t x r)
  have silent : NetEvent.readBytes e = [] := by
    cases e with
    | done t x r => exact absurd rfl (he t x r)
    | _ => rfl
  refine ⟨?_, fun t len bs hm => ?_, fun t buf bs hm => h.write t buf bs (old hm),
    fun t bs hm => hshut (h.shut t bs (old hm)), fun t u buf bs cs => ?_⟩
  · simpa [silent] using hb _ h.bytes
  · exact (h.read t len bs (old hm)).imp_right fun f hn hl => hended (f hn hl)
  · exact not_before_concat (h.closed t u buf bs cs) fun e' => absurd e' (he t _ _)

theorem peer (h : Logged log k) (e : TcpPeer) : Logged (log ++ [.peer e]) (k.env e) := by
  refine h.concat (fun t x r => nofun) (fun l hl => ?_) (·.env e) fun hs => ?_
  · cases e with
    | send bs =>
        simp only [TcpKernel.env]
        split
        · exact hl
        · rw [← List.append_assoc, hl]
    | _ => exact hl
  · cases e with
    | send bs =>
        simp only [TcpKernel.env]
        split <;> exact hs
    | reset e => rfl
    | _ => exact hs

/-- A call returns. -/
theorem done (h : Logged log k) {x : TcpCall} {r : Except IoError Bytes}
    (hc : call x k = some (r, k')) (t : ℕ) : Logged (log ++ [.done t x r]) k' := by
  obtain ⟨harr, heof, hshut, hx⟩ := call_cases hc
  have mem : ∀ {u y q}, NetEvent.done u y q ∈ log ++ [.done t x r] →
      NetEvent.done u y q ∈ log ∨ y = x ∧ q = r := by
    intro u y q hm
    rcases List.mem_append.mp hm with hm | hm
    · exact .inl hm
    · cases List.mem_singleton.mp hm
      exact .inr ⟨rfl, rfl⟩
  -- what a call has taken off the front is what it has returned
  have front : NetEvent.readBytes (.done t x r : TcpEvent) ++ k'.inbound = k.inbound := by
    match x, r, hx with
    | .read len, .ok bs, hx => exact hx.1
    | .write buf, .ok bs, hx => exact hx.1
    | .shutdownWrite, .ok bs, hx => exact hx.1
    | .read len, .error e, hx => exact hx
    | .write buf, .error e, hx => exact hx
    | .shutdownWrite, .error e, hx => exact hx
  have ended : k.Ended → k'.Ended := by
    rintro ⟨he, hi⟩
    exact ⟨heof.trans he, (List.append_eq_nil_iff.mp (front.trans hi)).2⟩
  refine ⟨?_, fun u len bs hm => ?_, fun u buf bs hm => ?_, fun u bs hm => ?_,
    fun u v buf bs cs => ?_⟩
  · rw [List.flatMap_append, List.append_assoc, harr, ← h.bytes]
    simpa using front
  · rcases mem hm with hm | ⟨rfl, rfl⟩
    · exact (h.read u len bs hm).imp_right fun f hn hl => ended (f hn hl)
    · exact ⟨hx.2.1, hx.2.2⟩
  · rcases mem hm with hm | ⟨rfl, rfl⟩
    · exact h.write u buf bs hm
    · exact ⟨hx.2.2.1, hx.2.2.2⟩
  · rcases mem hm with hm | ⟨rfl, rfl⟩
    · exact hshut (h.shut u bs hm)
    · exact hx.2
  · refine not_before_concat (h.closed u v buf bs cs) fun e hm => ?_
    cases e
    -- the stream was shut down for writing before the call
    have isOpen : k.writeShut = false := hx.2.1
    rw [h.shut v cs hm] at isOpen
    cases isOpen

theorem of_replays {room : ℕ} (h : Replays tcpStream (.new room) log k) : Logged log k := by
  induction h with
  | nil => exact .nil room
  | done t _ hc ih => exact ih.done hc t
  | peer e _ ih => exact ih.peer e
  | silent _ he ih =>
      refine ih.concat (fun t x r e => ?_) (fun _ hl => hl) id id
      rw [e] at he
      exact he

end Logged

/-- **A stream loses, repeats and reorders nothing.**  In every run of any number of reads, writes
and half-closes of either form, dropped at any time: the bytes the reads have returned, with those
still to be read, are the bytes that arrived.  A read returns at most what it has room for, and
nothing, for a buffer that is not empty, only at the end of the stream when all has been read.  A
write takes a part of its buffer from the front, which is empty only if the buffer is.  After a
half-close no write succeeds, and the reads go on. -/
theorem reads_return_what_arrived {room : ℕ}
    {s : NetState TcpKernel TcpCall (Except IoError Bytes) TcpPeer}
    (h : (netMachine tcpStream (.new room)).Reachable s) :
    s.log.flatMap NetEvent.readBytes ++ s.kernel.inbound = s.kernel.arrived ∧
      (∀ t len bs, .done t (.read len) (.ok bs) ∈ s.log → bs.length ≤ len ∧
        (bs = [] → 0 < len → s.kernel.eof = true ∧
          s.log.flatMap NetEvent.readBytes = s.kernel.arrived)) ∧
      (∀ t buf bs, .done t (.write buf) (.ok bs) ∈ s.log → bs <+: buf ∧ (buf ≠ [] → bs ≠ [])) ∧
      ∀ t u buf bs cs,
        ¬ Before s.log (.done u .shutdownWrite (.ok cs)) (.done t (.write buf) (.ok bs)) := by
  have logged := Logged.of_replays (replays_of_reachable h)
  refine ⟨logged.bytes, fun t len bs hm => ?_, logged.write, logged.closed⟩
  obtain ⟨hlen, hend⟩ := logged.read t len bs hm
  refine ⟨hlen, fun hn hl => ?_⟩
  obtain ⟨he, hi⟩ := hend hn hl
  have all := logged.bytes
  rw [hi, List.append_nil] at all
  exact ⟨he, all⟩

/-- The run of `NetState.readRun`, a read that is dropped while it waits, and reads of another task,
with the poll function, of the rest and of the end. -/
def twoReadersRun : List (NetAct TcpKernel TcpCall (Except IoError Bytes) TcpPeer) :=
  NetState.readRun ++
    [.start 2 .poll (.read 4) 9,
      .finish 2 .poll (.read 4) 9 (.ok [20]) ⟨[], [10, 20], false, 64, false, none, false, 0⟩,
      .start 1 .future (.read 4) 7, .wouldBlock 1 .future (.read 4) 7, .park 1 .future (.read 4) 7,
      .cancel 1 .future (.read 4) 7, .env .fin, .start 2 .poll (.read 4) 9,
      .finish 2 .poll (.read 4) 9 (.ok []) ⟨[], [10, 20], true, 64, false, none, false, 0⟩]

theorem twoReadersRun_bytes :
    let s := (netMachine tcpStream (.new 64)).runList (.init (.init 5 1 .new) (.new 64)) twoReadersRun
    s.kernel.arrived = [10, 20] ∧ s.log.flatMap NetEvent.readBytes = s.kernel.arrived := by
  have reached : (netMachine tcpStream (.new 64)).Reachable
      ((netMachine tcpStream (.new 64)).runList (.init (.init 5 1 .new) (.new 64)) twoReadersRun) :=
    .of_follows ⟨_, ⟨5, 1, .new, rfl, rfl⟩, rfl⟩ (by decide +kernel)
  have last : (.done 2 (.read 4) (.ok []) : TcpEvent) ∈
      ((netMachine tcpStream (.new 64)).runList (.init (.init 5 1 .new) (.new 64))
        twoReadersRun).log := by decide +kernel
  obtain ⟨-, reads, -⟩ := reads_return_what_arrived reached
  exact ⟨by decide +kernel, ((reads 2 4 [] last).2 rfl (by decide)).2⟩

end TcpKernel

/-! ### The connections of a listener -/

abbrev ListenEvent := NetEvent Unit Accepted ListenPeer

/-- The connection that the call has taken off the backlog. -/
def NetEvent.accepted : ListenEvent → List ConnId
  | .done _ _ (.conn c) | .done _ _ (.closed c _) => [c]
  | _ => []

namespace ListenKernel

variable {k k' : ListenKernel} {log : List ListenEvent}

theorem call_cases {r : Accepted} (h : call () k = some (r, k')) :
    k'.arrived = k.arrived ∧ k'.refuses = k.refuses ∧ (match r with
      | .conn c => k.backlog = c :: k'.backlog ∧ k.refuses.lookup c = none
      | .closed c e => k.backlog = c :: k'.backlog ∧ k.refuses.lookup c = some e
      | .failed _ => k'.backlog = k.backlog) := by
  simp only [call] at h
  split at h
  · cases h
    exact ⟨rfl, rfl, rfl⟩
  · cases h
  · rename_i hb
    split at h
    · rename_i hr
      cases h
      exact ⟨rfl, rfl, hb, hr⟩
    · rename_i hr
      cases h
      exact ⟨rfl, rfl, hb, hr⟩

/-- The log of a listener and the kernel's side of it. -/
structure Logged (refuses : List (ConnId × IoError)) (log : List ListenEvent)
    (k : ListenKernel) : Prop where
  same : k.refuses = refuses
  conns : log.flatMap NetEvent.accepted ++ k.backlog = k.arrived
  conn : ∀ t c, .done t () (.conn c) ∈ log → refuses.lookup c = none
  closed : ∀ t c e, .done t () (.closed c e) ∈ log → refuses.lookup c = some e

theorem Logged.of_replays {refuses : List (ConnId × IoError)}
    (h : Replays listener (.new refuses) log k) : Logged refuses log k := by
  induction h with
  | nil => exact ⟨rfl, rfl, fun _ _ h => (by cases h), fun _ _ _ h => (by cases h)⟩
  | @done l k k' x r t _ hc ih =>
      obtain ⟨harr, href, hr⟩ := call_cases hc
      have taken : NetEvent.accepted (.done t () r) ++ k'.backlog = k.backlog := by
        cases r with
        | conn c => exact hr.1.symm
        | closed c e => exact hr.1.symm
        | failed e => exact hr
      refine ⟨href.trans ih.same, ?_, fun u c hm => ?_, fun u c e hm => ?_⟩
      · rw [List.flatMap_append, List.append_assoc, harr, ← ih.conns]
        simpa using taken
      · rcases List.mem_append.mp hm with hm | hm
        · exact ih.conn u c hm
        · cases List.mem_singleton.mp hm
          exact ih.same ▸ hr.2
      · rcases List.mem_append.mp hm with hm | hm
        · exact ih.closed u c e hm
        · cases List.mem_singleton.mp hm
          exact ih.same ▸ hr.2
  | peer e _ ih =>
      refine ⟨?_, ?_, fun t c hm => ih.conn t c (by simpa using hm),
        fun t c e' hm => ih.closed t c e' (by simpa using hm)⟩
      · cases e <;> exact ih.same
      · cases e with
        | connect c =>
            simp only [listener, env, ← ih.conns]
            simp [NetEvent.accepted]
        | fail e => simpa [NetEvent.accepted, listener, env] using ih.conns
  | @silent l k e _ he ih =>
      have new : ∀ {t r}, (.done t () r : ListenEvent) ∈ l ++ [e] → .done t () r ∈ l := by
        intro t r hm
        rcases List.mem_append.mp hm with hm | hm
        · exact hm
        · rw [← List.mem_singleton.mp hm] at he
          cases he
      refine ⟨ih.same, ?_, fun t c hm => ih.conn t c (new hm),
        fun t c e' hm => ih.closed t c e' (new hm)⟩
      have none : NetEvent.accepted e = [] := by
        cases e with
        | done t x r => cases he
        | _ => rfl
      simpa [none] using ih.conns

/-- **Each connection is given to one caller.**  In every run of any number of tasks in `accept` and
in `Incoming::poll_next`, dropped at any time: the connections accepted, with those in the backlog,
are those that came in, in their order; and one is closed instead of handed out exactly if it cannot
be made non-blocking. -/
theorem connections_accepted_in_order {refuses : List (ConnId × IoError)}
    {s : NetState ListenKernel Unit Accepted ListenPeer}
    (h : (netMachine listener (.new refuses)).Reachable s) :
    s.log.flatMap NetEvent.accepted ++ s.kernel.backlog = s.kernel.arrived ∧
      (∀ t c, .done t () (.conn c) ∈ s.log → refuses.lookup c = none) ∧
      ∀ t c e, .done t () (.closed c e) ∈ s.log → refuses.lookup c = some e := by
  have logged := Logged.of_replays (replays_of_reachable h)
  exact ⟨logged.conns, logged.conn, logged.closed⟩

/-- Three connections, the second of which cannot be made non-blocking, and two tasks. -/
def acceptRun : List (NetAct ListenKernel Unit Accepted ListenPeer) :=
  [.env (.connect 3), .env (.connect 4), .env (.connect 5), .start 1 .future () 7,
    .start 2 .poll () 8,
    .finish 2 .poll () 8 (.conn 3) ⟨[4, 5], [3, 4, 5], none, [(4, 22)]⟩,
    .finish 1 .future () 7 (.closed 4 22) ⟨[5], [3, 4, 5], none, [(4, 22)]⟩]

theorem acceptRun_in_order :
    let s := (netMachine listener (.new [(4, 22)])).runList
      (.init (.init 5 1 .new) (.new [(4, 22)])) acceptRun
    s.log.flatMap NetEvent.accepted ++ [5] = [3, 4, 5] := by
  have reached : (netMachine listener (.new [(4, 22)])).Reachable
      ((netMachine listener (.new [(4, 22)])).runList
        (.init (.init 5 1 .new) (.new [(4, 22)])) acceptRun) :=
    .of_follows ⟨_, ⟨5, 1, .new, rfl, rfl⟩, rfl⟩ (by decide +kernel)
  exact (connections_accepted_in_order reached).1

end ListenKernel

end RustAsync
