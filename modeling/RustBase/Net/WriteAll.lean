import RustBase.Net.TlsClientSocket
import Mathlib.Algebra.BigOperators.Group.Finset.Basic
import Mathlib.Data.Nat.Find

/-!
# Net — the write_all loops

`write_all` of the TLS socket, of `Async` and of `UnixStream`: each asks its transport to write what
is left, and goes on by the answer.  The first is a recursion through a callback, the others are a
`while` over the rest of the buffer.

A loop is where it is after an answer (`WriteLoop`).  The transport's answers are a function of the
time, `none` when it does not answer: any finite or infinite sequence of results.

The loops agree on a buffer that is not empty unless the transport accepts 0 bytes of it
(`write_alls_agree_iff`): then `write_all` of the TLS socket asks again, where the others give up
with `WriteZero`.
-/

namespace RustNet

/-! ### The loops -/

inductive WritePhase where
  /-- the transport has been asked to write this -/
  | asking (buf : List UInt8)
  | ended (res : Except TlsError Unit)
  /-- the rest was sliced beyond its end -/
  | panicked
  deriving DecidableEq

structure WriteLoop where
  /-- where the loop is when it is called -/
  start : List UInt8 → WritePhase
  /-- and where when the transport has answered -/
  answer : List UInt8 → Except Errno ℕ → WritePhase

/-- `write_all` of `tls_client_socket`. -/
def tlsWriteAll : WriteLoop where
  start buf := .asking buf
  answer
    | buf, .ok n => if buf.length ≤ n then .ended (.ok ()) else .asking (buf.drop n)
    | _, .error e => .ended (.error (.transport e))

/-- The head of `while !buf.is_empty()`. -/
def whileNotEmpty (buf : List UInt8) : WritePhase :=
  if buf.isEmpty then .ended (.ok ()) else .asking buf

/-- The body that `Async` and `UnixStream` have. -/
def loopWriteAll : WriteLoop where
  start := whileNotEmpty
  answer
    | _, .ok 0 => .ended (.error .writeZero)
    | buf, .ok (n + 1) =>
        if buf.length < n + 1 then .panicked else whileNotEmpty (buf.drop (n + 1))
    | _, .error e => .ended (.error (.transport e))

/-- `Async::write_all`. -/
def asyncWriteAll : WriteLoop := loopWriteAll

/-- `UnixStream::write_all`. -/
def unixStreamWriteAll : WriteLoop := loopWriteAll

def writeAlls : List WriteLoop := [tlsWriteAll, asyncWriteAll, unixStreamWriteAll]

/-- The callback of the TLS socket goes by the loop. -/
theorem TlsClientSocket.onWritten_eq {γ : Type} (R : Rustls γ) (s : TlsClientSocket γ)
    (w : TransportWrite) (res : Except Errno ℕ) :
    s.onWritten R w res =
      match tlsWriteAll.answer w.buf res with
      | .asking rest => s.writeAll rest w.done
      | .ended (.ok ()) => s.startFlush w.done
      | .ended (.error e) => s.runDone R w.done (.error e)
      | .panicked => s := by
  cases res with
  | error e => rfl
  | ok n =>
      simp only [onWritten, tlsWriteAll]
      split <;> rfl

/-! ### Runs -/

/-- The transport's answers. -/
abbrev WriteResults := ℕ → Option (Except Errno ℕ)

structure WriteRun where
  phase : WritePhase
  /-- what the transport was asked to write, call by call -/
  offered : List (List UInt8)
  /-- the bytes it has accepted -/
  accepted : List UInt8
  /-- its answers -/
  results : ℕ
  deriving DecidableEq

def WritePhase.offer : WritePhase → List (List UInt8)
  | .asking buf => [buf]
  | .ended _ | .panicked => []

/-- What the transport has taken by an answer. -/
def taken : Option (Except Errno ℕ) → ℕ
  | some (.ok k) => k
  | _ => 0

namespace WriteLoop

variable (L : WriteLoop)

def call (buf : List UInt8) : WriteRun := ⟨L.start buf, (L.start buf).offer, [], 0⟩

def answered (r : WriteRun) (res : Option (Except Errno ℕ)) : WriteRun :=
  match r.phase, res with
  | .asking buf, some res =>
      { phase := L.answer buf res
        offered := r.offered ++ (L.answer buf res).offer
        accepted := r.accepted ++ buf.take (taken (some res))
        results := r.results + 1 }
  | _, _ => r

variable {L} {r : WriteRun}

theorem answered_none : L.answered r none = r := by
  unfold answered
  cases r.phase <;> rfl

theorem answered_ended {e : Except TlsError Unit} (h : r.phase = .ended e)
    (res : Option (Except Errno ℕ)) : L.answered r res = r := by
  simp only [answered, h]

theorem answered_asking {buf : List UInt8} (h : r.phase = .asking buf) (res : Except Errno ℕ) :
    L.answered r (some res) =
      { phase := L.answer buf res
        offered := r.offered ++ (L.answer buf res).offer
        accepted := r.accepted ++ buf.take (taken (some res))
        results := r.results + 1 } := by
  simp only [answered, h]

variable (L)

/-- The loop at the time `n`. -/
def after (buf : List UInt8) (rs : WriteResults) : ℕ → WriteRun
  | 0 => L.call buf
  | n + 1 => L.answered (after buf rs n) (rs n)

/-- The transport accepts at most what it was offered. -/
def Fits (buf : List UInt8) (rs : WriteResults) : Prop :=
  ∀ n rest k, (L.after buf rs n).phase = .asking rest → rs n = some (.ok k) → k ≤ rest.length

end WriteLoop

/-- The loops do the same at all times, give up when nothing is accepted, and get finitely many
answers. -/
structure WriteAllsAgree (buf : List UInt8) (rs : WriteResults) : Prop where
  same : ∀ L ∈ writeAlls, ∀ L' ∈ writeAlls, ∀ n, L.after buf rs n = L'.after buf rs n
  zero : ∀ L ∈ writeAlls, ∀ n rest, (L.after buf rs n).phase = .asking rest → rest ≠ [] →
    rs n = some (.ok 0) → (L.after buf rs (n + 1)).phase = .ended (.error .writeZero)
  ends : ∀ L ∈ writeAlls, ∃ m, ∀ n, (L.after buf rs n).results ≤ m

/-! ### What the answers decide -/

section Answers

variable (rs : WriteResults)

/-- What has been accepted before the time `n`. -/
def total (n : ℕ) : ℕ := ∑ i ∈ Finset.range n, taken (rs i)

/-- Before the time `n` there was no error and less than `len` bytes were accepted. -/
def Unfinished (len n : ℕ) : Prop := (∀ i < n, ∀ e, rs i ≠ some (.error e)) ∧ total rs n < len

/-- Nothing of a rest that is not empty is accepted at the time `n`. -/
def Starved (len n : ℕ) : Prop := rs n = some (.ok 0) ∧ Unfinished rs len n

end Answers

variable {rs : WriteResults} {buf : List UInt8} {n : ℕ}

theorem unfinished_zero (h : buf ≠ []) : Unfinished rs buf.length 0 :=
  ⟨fun i hi => absurd hi (Nat.not_lt_zero i), by
    rw [total, Finset.range_zero, Finset.sum_empty]
    exact List.length_pos_iff.mpr h⟩

theorem total_succ : total rs (n + 1) = total rs n + taken (rs n) := Finset.sum_range_succ ..

theorem unfinished_succ {len : ℕ} : Unfinished rs len (n + 1) ↔
    Unfinished rs len n ∧ (∀ e, rs n ≠ some (.error e)) ∧ total rs n + taken (rs n) < len := by
  rw [Unfinished, Unfinished, total_succ]
  constructor
  · rintro ⟨he, ht⟩
    exact ⟨⟨fun i hi => he i (by omega), by omega⟩, he n (by omega), ht⟩
  · rintro ⟨⟨he, -⟩, hn, ht⟩
    refine ⟨fun i hi => ?_, ht⟩
    rcases Nat.lt_succ_iff_lt_or_eq.mp hi with hi | rfl
    · exact he i hi
    · exact hn

/-! ### The loops in step -/

/-- The loops are at the same place, which is what the answers decide. -/
structure InStep (buf : List UInt8) (rs : WriteResults) (n : ℕ) : Prop where
  same : tlsWriteAll.after buf rs n = loopWriteAll.after buf rs n
  asking : Unfinished rs buf.length n →
    (loopWriteAll.after buf rs n).phase = .asking (buf.drop (total rs n)) ∧
      (loopWriteAll.after buf rs n).results ≤ total rs n
  ended : ¬ Unfinished rs buf.length n → ∃ res, (loopWriteAll.after buf rs n).phase = .ended res
  bound : (loopWriteAll.after buf rs n).results ≤ buf.length

namespace InStep

theorem init (h : buf ≠ []) : InStep buf rs 0 := by
  have head : loopWriteAll.start buf = .asking buf := by
    simp [loopWriteAll, whileNotEmpty, h]
  have same : tlsWriteAll.after buf rs 0 = loopWriteAll.after buf rs 0 := by
    rw [WriteLoop.after, WriteLoop.after, WriteLoop.call, WriteLoop.call, head]
    rfl
  refine ⟨same, fun _ => ⟨?_, Nat.zero_le _⟩, fun hn => absurd (unfinished_zero h) hn,
    Nat.zero_le _⟩
  rw [total, Finset.range_zero, Finset.sum_empty, List.drop_zero]
  exact head

/-- No answer changes nothing. -/
theorem next_none (h : InStep buf rs n) (hr : rs n = none) : InStep buf rs (n + 1) := by
  have still : ∀ L : WriteLoop, L.after buf rs (n + 1) = L.after buf rs n := by
    intro L
    rw [WriteLoop.after, hr, WriteLoop.answered_none]
  have ht : total rs (n + 1) = total rs n := by
    rw [total_succ, hr]
    rfl
  have hu : Unfinished rs buf.length (n + 1) ↔ Unfinished rs buf.length n := by
    rw [unfinished_succ, hr]
    exact ⟨fun h => h.1, fun h => ⟨h, nofun, h.2⟩⟩
  refine ⟨by rw [still, still, h.same], ?_, ?_, by rw [still]; exact h.bound⟩
  · rw [still, hu, ht]
    exact h.asking
  · rw [still, hu]
    exact h.ended

/-- Neither does an answer to a loop that has ended. -/
theorem next_ended (h : InStep buf rs n) (hu : ¬ Unfinished rs buf.length n) :
    InStep buf rs (n + 1) := by
  obtain ⟨res, hp⟩ := h.ended hu
  have still : loopWriteAll.after buf rs (n + 1) = loopWriteAll.after buf rs n := by
    rw [WriteLoop.after, WriteLoop.answered_ended hp]
  have still' : tlsWriteAll.after buf rs (n + 1) = tlsWriteAll.after buf rs n := by
    rw [WriteLoop.after, h.same, WriteLoop.answered_ended hp]
  refine ⟨by rw [still, still', h.same], fun hu' => absurd (unfinished_succ.mp hu').1 hu,
    fun _ => ⟨res, by rw [still]; exact hp⟩, by rw [still]; exact h.bound⟩

theorem after_succ (h : InStep buf rs n) (hu : Unfinished rs buf.length n) {L : WriteLoop}
    (hL : L.after buf rs n = loopWriteAll.after buf rs n) {res : Except Errno ℕ}
    (hr : rs n = some res) :
    L.after buf rs (n + 1) =
      { phase := L.answer (buf.drop (total rs n)) res
        offered := (loopWriteAll.after buf rs n).offered ++
          (L.answer (buf.drop (total rs n)) res).offer
        accepted := (loopWriteAll.after buf rs n).accepted ++
          (buf.drop (total rs n)).take (taken (some res))
        results := (loopWriteAll.after buf rs n).results + 1 } := by
  rw [WriteLoop.after, hL, hr, WriteLoop.answered_asking (h.asking hu).1]

theorem next_error (h : InStep buf rs n) (hu : Unfinished rs buf.length n) {e : Errno}
    (hr : rs n = some (.error e)) : InStep buf rs (n + 1) := by
  have hloop := h.after_succ hu rfl hr
  have hu' : ¬ Unfinished rs buf.length (n + 1) := fun hu' =>
    (unfinished_succ.mp hu').2.1 e hr
  refine ⟨?_, fun hu₁ => absurd hu₁ hu', fun _ => ⟨.error (.transport e), ?_⟩, ?_⟩
  · rw [h.after_succ hu h.same hr, hloop]
    rfl
  · rw [hloop]
    rfl
  · have hb := (h.asking hu).2
    have ht := hu.2
    rw [hloop]
    dsimp only
    omega

/-- A part of what is left is accepted. -/
theorem next_ok (h : InStep buf rs n) (hu : Unfinished rs buf.length n) {k : ℕ}
    (hr : rs n = some (.ok (k + 1))) (hk : k + 1 ≤ (buf.drop (total rs n)).length) :
    InStep buf rs (n + 1) := by
  have hloop := h.after_succ hu rfl hr
  have hb := (h.asking hu).2
  have ht := hu.2
  have htot : total rs (n + 1) = total rs n + (k + 1) := by rw [total_succ, hr, taken]
  have hu' : Unfinished rs buf.length (n + 1) ↔ k + 1 < (buf.drop (total rs n)).length := by
    rw [unfinished_succ, hr, List.length_drop, taken]
    constructor
    · intro hu'
      omega
    · intro hlt
      exact ⟨hu, nofun, by omega⟩
  have same : tlsWriteAll.answer (buf.drop (total rs n)) (.ok (k + 1)) =
      loopWriteAll.answer (buf.drop (total rs n)) (.ok (k + 1)) := by
    simp only [tlsWriteAll, loopWriteAll, if_neg (Nat.not_lt.mpr hk), whileNotEmpty,
      List.isEmpty_iff, List.drop_eq_nil_iff]
  refine ⟨?_, fun hlt => ⟨?_, ?_⟩, fun hge => ⟨.ok (), ?_⟩, ?_⟩
  · rw [h.after_succ hu h.same hr, hloop, same]
  · rw [hu'] at hlt
    rw [hloop, ← same, htot]
    simp only [tlsWriteAll, if_neg (Nat.not_le.mpr hlt), List.drop_drop]
  · rw [hloop, htot]
    dsimp only
    omega
  · rw [hu', Nat.not_lt] at hge
    rw [hloop, ← same]
    simp only [tlsWriteAll, if_pos hge]
  · rw [hloop]
    dsimp only
    omega

/-- As long as nothing that is offered is refused, the loops stay in step. -/
theorem next (h : InStep buf rs n) (hf : tlsWriteAll.Fits buf rs)
    (hs : ¬ Starved rs buf.length n) : InStep buf rs (n + 1) := by
  by_cases hu : Unfinished rs buf.length n
  · cases hr : rs n with
    | none => exact h.next_none hr
    | some res =>
        cases res with
        | error e => exact h.next_error hu hr
        | ok k =>
            cases k with
            | zero => exact absurd ⟨hr, hu⟩ hs
            | succ k =>
                have hp := (h.asking hu).1
                rw [← h.same] at hp
                exact h.next_ok hu hr (hf n _ _ hp hr)
  · exact h.next_ended hu

theorem of_fed (hne : buf ≠ []) (hf : tlsWriteAll.Fits buf rs)
    (hs : ∀ i < n, ¬ Starved rs buf.length i) : InStep buf rs n := by
  induction n with
  | zero => exact init hne
  | succ n ih => exact (ih fun i hi => hs i (by omega)).next hf (hs n (by omega))

theorem of_mem (h : InStep buf rs n) {L : WriteLoop} (hL : L ∈ writeAlls) :
    L.after buf rs n = loopWriteAll.after buf rs n := by
  simp only [writeAlls, List.mem_cons, List.not_mem_nil, or_false] at hL
  rcases hL with rfl | rfl | rfl
  · exact h.same
  · rfl
  · rfl

/-- Where a loop waits, the answers do not finish it. -/
theorem unfinished (h : InStep buf rs n) {rest : List UInt8}
    (hp : (loopWriteAll.after buf rs n).phase = .asking rest) : Unfinished rs buf.length n := by
  by_contra hu
  obtain ⟨res, he⟩ := h.ended hu
  rw [hp] at he
  cases he

/-- A transport that accepts nothing is asked again. -/
theorem tls_asks_again (h : InStep buf rs n) (hs : Starved rs buf.length n) :
    (tlsWriteAll.after buf rs (n + 1)).phase = .asking (buf.drop (total rs n)) := by
  obtain ⟨hr, hu⟩ := hs
  have hlt : ¬ (buf.drop (total rs n)).length ≤ 0 := by
    rw [List.length_drop]
    have := hu.2
    omega
  rw [h.after_succ hu h.same hr]
  simp only [tlsWriteAll, if_neg hlt, List.drop_zero]

end InStep

/-- **Agreement.**  The loops agree exactly when the buffer is not empty and nothing that is offered
is refused. -/
theorem write_alls_agree_iff (hf : ∀ L ∈ writeAlls, L.Fits buf rs) :
    WriteAllsAgree buf rs ↔ buf ≠ [] ∧ ∀ n, ¬ Starved rs buf.length n := by
  have tls : tlsWriteAll ∈ writeAlls := List.mem_cons_self
  have async : asyncWriteAll ∈ writeAlls := List.mem_cons_of_mem _ List.mem_cons_self
  constructor
  · intro h
    have hne : buf ≠ [] := by
      -- the TLS socket has an empty buffer written, the others do not
      rintro rfl
      cases congrArg WriteRun.phase (h.same _ tls _ async 0)
    refine ⟨hne, fun n hs => ?_⟩
    classical
    -- at the first refusal the loops are still in step
    have hex : ∃ n, Starved rs buf.length n := ⟨n, hs⟩
    have step := InStep.of_fed hne (hf _ tls) (n := Nat.find hex) fun i hi => Nat.find_min hex hi
    have starved := Nat.find_spec hex
    have asks := (step.asking starved.2).1
    rw [← step.same] at asks
    have rest : buf.drop (total rs (Nat.find hex)) ≠ [] := by
      rw [ne_eq, List.drop_eq_nil_iff, Nat.not_le]
      exact starved.2.2
    have gives := h.zero _ tls _ _ asks rest starved.1
    rw [step.tls_asks_again starved] at gives
    cases gives
  · rintro ⟨hne, hs⟩
    have step : ∀ n, InStep buf rs n := fun n => .of_fed hne (hf _ tls) fun i _ => hs i
    refine ⟨fun L hL L' hL' n => ?_, fun L hL n rest hp _ hr => ?_, fun L hL =>
      ⟨buf.length, fun n => ?_⟩⟩
    · rw [(step n).of_mem hL, (step n).of_mem hL']
    · rw [(step n).of_mem hL] at hp
      exact absurd ⟨hr, (step n).unfinished hp⟩ (hs n)
    · rw [(step n).of_mem hL]
      exact (step n).bound

/-- Three bytes, one and then two of them accepted, the second time later. -/
def twoParts : WriteResults
  | 0 => some (.ok 1)
  | 2 => some (.ok 2)
  | _ => none

/-- The loops agree on `twoParts`. -/
theorem twoParts_agree :
    (∀ L ∈ writeAlls, L.Fits [1, 2, 3] twoParts) ∧ WriteAllsAgree [1, 2, 3] twoParts ∧
      tlsWriteAll.after [1, 2, 3] twoParts 3 =
        ⟨.ended (.ok ()), [[1, 2, 3], [2, 3]], [1, 2, 3], 2⟩ := by
  have fits : ∀ L ∈ writeAlls, L.Fits [1, 2, 3] twoParts := by
    intro L hL n rest k hp hr
    match n with
    | 0 =>
        have phase : ∀ L ∈ writeAlls, (L.after [1, 2, 3] twoParts 0).phase = .asking [1, 2, 3] := by
          decide
        rw [phase L hL] at hp
        cases hp
        cases hr
        decide
    | 1 => cases hr
    | 2 =>
        have phase : ∀ L ∈ writeAlls, (L.after [1, 2, 3] twoParts 2).phase = .asking [2, 3] := by
          decide
        rw [phase L hL] at hp
        cases hp
        cases hr
        decide
    | n + 3 => cases hr
  refine ⟨fits, (write_alls_agree_iff fits).mpr ⟨List.cons_ne_nil _ _, fun n hs => ?_⟩, rfl⟩
  obtain ⟨hr, -⟩ := hs
  match n with
  | 0 | 1 | 2 | n + 3 => cases hr

/-- A transport that never accepts anything: `write_all` of the TLS socket asks for ever, the others
end with `WriteZero`. -/
theorem refusing_transport :
    (∀ L ∈ writeAlls, L.Fits [7] fun _ => some (.ok 0)) ∧
      (∀ n, (tlsWriteAll.after [7] (fun _ => some (.ok 0)) n).phase = .asking [7] ∧
        (tlsWriteAll.after [7] (fun _ => some (.ok 0)) n).results = n) ∧
      (asyncWriteAll.after [7] (fun _ => some (.ok 0)) 1).phase = .ended (.error .writeZero) ∧
      ¬ WriteAllsAgree [7] fun _ => some (.ok 0) := by
  have asks : ∀ n, (tlsWriteAll.after [7] (fun _ => some (.ok 0)) n).phase = .asking [7] ∧
      (tlsWriteAll.after [7] (fun _ => some (.ok 0)) n).results = n := by
    intro n
    induction n with
    | zero => exact ⟨rfl, rfl⟩
    | succ n ih =>
        rw [WriteLoop.after, WriteLoop.answered_asking ih.1]
        exact ⟨rfl, congrArg (· + 1) ih.2⟩
  refine ⟨fun L hL n rest k hp hr => ?_, asks, rfl, fun h => ?_⟩
  · cases hr
    exact Nat.zero_le _
  · obtain ⟨m, hm⟩ := h.ends tlsWriteAll List.mem_cons_self
    have := hm (m + 1)
    rw [(asks (m + 1)).2] at this
    omega

end RustNet
