import Mathlib.Algebra.BigOperators.Group.Finset.Basic
import RustBase.Support.FileContent
import RustBase.Support.Machine

/-!
# Async — concurrent appends

`File::append` is one job of the filesystem pool: it asks for the length of the file, then writes
all its bytes from there on with `write_all_at`, which takes as many `pwrite` calls as the system
wants.  The runner is parallel, so jobs of different calls interleave between these steps, whether
they use one `File` or several of the same file.

A descriptor opened in append mode writes at the end of the file whatever the offset it is given
(`appendMode`); the others write where they are told.

A call is `exposed` while the end of the file has to stay where it is for it: from its length query
to its last write, or in append mode from its first write on.  **`appends_whole`**: in every run
that writes no byte while another call is exposed, the appends that were made are in the file, one
after the other, once they have all succeeded.  `appends_overlap` is a run with two exposed calls.
-/

namespace RustAsync
open Support

inductive AppendPhase where
  /-- the job is queued -/
  | posted
  /-- `end` was the length of the file; `write_all_at` has written that many bytes -/
  | writing (end_ written : ℕ)
  | done
  | failed
  deriving DecidableEq

structure AppendCall where
  data : Bytes
  /-- the descriptor was opened by `OpenOptions::append` -/
  appendMode : Bool
  phase : AppendPhase
  deriving DecidableEq

namespace AppendCall

/-- The end of the file has to stay where it is. -/
def exposed (x : AppendCall) : Bool :=
  match x.phase with
  | .writing _ k => decide (k < x.data.length) && (!x.appendMode || decide (0 < k))
  | .posted | .done | .failed => false

/-- All its bytes are written. -/
def landed (x : AppendCall) : Bool :=
  match x.phase with
  | .writing _ k => decide (k = x.data.length)
  | .done => true
  | .posted | .failed => false

/-- Where the next `pwrite` writes. -/
def position (x : AppendCall) (length end_ written : ℕ) : ℕ :=
  if x.appendMode then length else end_ + written

/-- The bytes the `pwrite` calls of an append have transferred. -/
def written (x : AppendCall) : ℕ :=
  match x.phase with
  | .writing _ k => k
  | .done => x.data.length
  | .posted | .failed => 0

/-- What is written of a call that is not exposed: nothing, by a call in append mode, or all. -/
theorem of_not_exposed {x : AppendCall} {e k : ℕ} (h : x.exposed = false)
    (hw : x.phase = .writing e k) (hl : k < x.data.length) : x.appendMode = true ∧ k = 0 := by
  simpa [exposed, hw, hl] using h

end AppendCall

structure FileAppends where
  content : Bytes
  calls : ℕ → Option AppendCall

inductive AppendAct where
  /-- `File::append` posts its job -/
  | append (c : ℕ) (data : Bytes) (appendMode : Bool)
  | metadata (c : ℕ) (x : AppendCall)
  /-- a `pwrite` of the loop of `write_all_at` writes `n` bytes -/
  | pwrite (c : ℕ) (x : AppendCall) (end_ written n : ℕ)
  | finish (c : ℕ) (x : AppendCall) (end_ : ℕ)
  /-- a system call fails, or writes nothing -/
  | fail (c : ℕ) (x : AppendCall)
  deriving DecidableEq

namespace FileAppends

def setPhase (s : FileAppends) (c : ℕ) (x : AppendCall) (p : AppendPhase) : FileAppends :=
  { s with calls := Function.update s.calls c (some { x with phase := p }) }

def Enabled (s : FileAppends) : AppendAct → Prop
  | .append c _ _ => s.calls c = none
  | .metadata c x => s.calls c = some x ∧ x.phase = .posted
  | .pwrite c x e k n =>
      s.calls c = some x ∧ x.phase = .writing e k ∧ 0 < n ∧ k + n ≤ x.data.length
  | .finish c x e => s.calls c = some x ∧ x.phase = .writing e x.data.length
  | .fail c x => s.calls c = some x ∧ x.phase ≠ .done ∧ x.phase ≠ .failed

def next (s : FileAppends) : AppendAct → FileAppends
  | .append c data appendMode =>
      { s with calls := Function.update s.calls c (some ⟨data, appendMode, .posted⟩) }
  | .metadata c x => s.setPhase c x (.writing s.content.length 0)
  | .pwrite c x e k n =>
      let content :=
        pwrite s.content (x.position s.content.length e k) ((x.data.drop k).take n)
      ({ s with content } : FileAppends).setPhase c x (.writing e (k + n))
  | .finish c x _ => s.setPhase c x .done
  | .fail c x => s.setPhase c x .failed

instance (s : FileAppends) : ∀ a, Decidable (s.Enabled a)
  | .append _ _ _ => inferInstanceAs (Decidable (_ = _))
  | .metadata _ _ | .finish _ _ _ => inferInstanceAs (Decidable (_ ∧ _))
  | .pwrite _ _ _ _ _ => inferInstanceAs (Decidable (_ ∧ _ ∧ _ ∧ _))
  | .fail _ _ => inferInstanceAs (Decidable (_ ∧ _ ∧ _))

end FileAppends

/-- The appends to a file whose content is `c₀`. -/
def appendMachine (c₀ : Bytes) : Machine FileAppends AppendAct where
  Init s := s = ⟨c₀, fun _ => none⟩
  Enabled s := s.Enabled
  next s := s.next

instance (c₀ : Bytes) (s : FileAppends) (a : AppendAct) :
    Decidable ((appendMachine c₀).Enabled s a) :=
  inferInstanceAs (Decidable (s.Enabled a))

namespace FileAppends

variable {c₀ : Bytes} {s : FileAppends}

def dataOf (s : FileAppends) (c : ℕ) : Bytes :=
  match s.calls c with
  | some x => x.data
  | none => []

/-- When all the calls have succeeded, their data follow the initial content, in some order. -/
def Appended (c₀ : Bytes) (s : FileAppends) : Prop :=
  (∀ c x, s.calls c = some x → x.phase = .done) →
    ∃ order : List ℕ, order.Nodup ∧ (∀ c, c ∈ order ↔ (s.calls c).isSome = true) ∧
      s.content = c₀ ++ order.flatMap s.dataOf

/-- No byte is written while another call is exposed. -/
def Undisturbed (s : FileAppends) : AppendAct → Prop
  | .pwrite c _ _ _ _ => ∀ c' x, c' ≠ c → s.calls c' = some x → x.exposed = false
  | .append _ _ _ | .metadata _ _ | .finish _ _ _ | .fail _ _ => True

/-! ### The layout of the file -/

/-- The bytes of the calls that have landed, in the order `order`, and then what the call that is
being written has written so far, `tail`. -/
structure Laid (c₀ : Bytes) (s : FileAppends) (order : List ℕ) (tail : Bytes) : Prop where
  nodup : order.Nodup
  mem : ∀ c, c ∈ order ↔ ∃ x, s.calls c = some x ∧ x.landed = true
  content : s.content = c₀ ++ order.flatMap s.dataOf ++ tail
  partly : ∀ c x e k, s.calls c = some x → x.phase = .writing e k → 0 < k → k < x.data.length →
    tail = x.data.take k
  tail : tail = [] ∨ ∃ c x e k, s.calls c = some x ∧ x.phase = .writing e k ∧ 0 < k ∧
    k < x.data.length
  offset : ∀ c x e k, s.calls c = some x → x.appendMode = false → x.phase = .writing e k →
    k < x.data.length → e + k = s.content.length

def Failed (s : FileAppends) : Prop := ∃ c x, s.calls c = some x ∧ x.phase = .failed

theorem dataOf_setPhase {c : ℕ} {x : AppendCall} {p : AppendPhase} (h : s.calls c = some x) :
    (s.setPhase c x p).dataOf = s.dataOf := by
  funext j
  by_cases e : j = c
  · subst e; simp [dataOf, setPhase, h]
  · simp [dataOf, setPhase, e]

/-- The calls after a step of one of them. -/
theorem calls_setPhase {c j : ℕ} {x y : AppendCall} {p : AppendPhase} :
    (s.setPhase c x p).calls j = some y ↔
      (j = c ∧ { x with phase := p } = y) ∨ (j ≠ c ∧ s.calls j = some y) :=
  update_some_eq_some

theorem nodup_concat {l : List ℕ} {c : ℕ} (h : l.Nodup) (hc : c ∉ l) : (l ++ [c]).Nodup := by
  refine List.nodup_append.mpr ⟨h, by simp, ?_⟩
  rintro a ha b hb rfl
  exact hc (List.mem_singleton.mp hb ▸ ha)

namespace Laid

variable {order : List ℕ} {tail : Bytes} {c : ℕ} {x : AppendCall}

theorem init (c₀ : Bytes) : Laid c₀ ⟨c₀, fun _ => none⟩ [] [] where
  nodup := .nil
  mem c := by simp
  content := by simp
  partly c x e k h := by cases h
  tail := .inl rfl
  offset c x e k h := by cases h

theorem append (h : Laid c₀ s order tail) (hc : s.calls c = none) (d : Bytes) (m : Bool) :
    Laid c₀ (s.next (.append c d m)) order tail := by
  have not_mem : c ∉ order := by
    intro hm
    obtain ⟨x, hx, -⟩ := (h.mem c).mp hm
    rw [hc] at hx
    cases hx
  have calls : ∀ {j y}, (s.next (.append c d m)).calls j = some y →
      j = c ∧ y = ⟨d, m, .posted⟩ ∨ j ≠ c ∧ s.calls j = some y := by
    intro j y hy
    rcases update_some_eq_some.mp hy with ⟨rfl, rfl⟩ | hy
    · exact .inl ⟨rfl, rfl⟩
    · exact .inr hy
  have kept : ∀ {j y}, s.calls j = some y → (s.next (.append c d m)).calls j = some y := by
    intro j y hy
    have e : j ≠ c := by
      rintro rfl
      rw [hc] at hy
      cases hy
    exact update_some_eq_some.mpr (.inr ⟨e, hy⟩)
  have old : ∀ j ∈ order, (s.next (.append c d m)).dataOf j = s.dataOf j := by
    intro j hj
    have e : j ≠ c := fun e => not_mem (e ▸ hj)
    simp [dataOf, FileAppends.next, e]
  refine ⟨h.nodup, fun j => (h.mem j).trans ?_, ?_, fun j y e k hy hp => ?_, ?_,
    fun j y e k hy hm hp => ?_⟩
  · refine ⟨fun ⟨y, hy, hl⟩ => ⟨y, kept hy, hl⟩, fun ⟨y, hy, hl⟩ => ?_⟩
    rcases calls hy with ⟨-, rfl⟩ | ⟨-, hy⟩
    · cases hl
    · exact ⟨y, hy, hl⟩
  · rw [List.flatMap_congr old]
    exact h.content
  · rcases calls hy with ⟨-, rfl⟩ | ⟨-, hy⟩
    · cases hp
    · exact h.partly j y e k hy hp
  · rcases h.tail with ht | ⟨j, y, e, k, hy, hp⟩
    · exact .inl ht
    · exact .inr ⟨j, y, e, k, kept hy, hp⟩
  · rcases calls hy with ⟨-, rfl⟩ | ⟨-, hy⟩
    · cases hp
    · exact h.offset j y e k hy hm hp

/-- A step of a call that writes no byte: it asks for the length, or finishes. -/
theorem setPhase (h : Laid c₀ s order tail) (hc : s.calls c = some x) {p : AppendPhase}
    (order' : List ℕ) (hn : order'.Nodup)
    (hm : ∀ j, j ∈ order' ↔ j ∈ order ∧ j ≠ c ∨
      j = c ∧ ({ x with phase := p } : AppendCall).landed = true)
    (hf : order'.flatMap s.dataOf = order.flatMap s.dataOf)
    (hx : ∀ e k, x.phase = .writing e k → k = x.data.length)
    (hp : ∀ e k, p = .writing e k → k = 0 ∧ e = s.content.length) :
    Laid c₀ (s.setPhase c x p) order' tail where
  nodup := hn
  mem j := by
    rw [hm]
    constructor
    · rintro (⟨hj, e⟩ | ⟨rfl, hl⟩)
      · obtain ⟨y, hy, hl⟩ := (h.mem j).mp hj
        exact ⟨y, calls_setPhase.mpr (.inr ⟨e, hy⟩), hl⟩
      · exact ⟨_, calls_setPhase.mpr (.inl ⟨rfl, rfl⟩), hl⟩
    · rintro ⟨y, hy, hl⟩
      rcases calls_setPhase.mp hy with ⟨rfl, rfl⟩ | ⟨e, hy⟩
      · exact .inr ⟨rfl, hl⟩
      · exact .inl ⟨(h.mem j).mpr ⟨y, hy, hl⟩, e⟩
  content := by
    rw [dataOf_setPhase hc, hf]
    exact h.content
  partly j y e k hy hw hk hl := by
    rcases calls_setPhase.mp hy with ⟨-, rfl⟩ | ⟨-, hy⟩
    · have := (hp e k hw).1; omega
    · exact h.partly j y e k hy hw hk hl
  tail := by
    rcases h.tail with ht | ⟨j, y, e, k, hy, hw, hk, hl⟩
    · exact .inl ht
    · have ne : j ≠ c := by
        rintro rfl
        obtain rfl : x = y := Option.some.inj (hc.symm.trans hy)
        have := hx e k hw
        omega
      exact .inr ⟨j, y, e, k, calls_setPhase.mpr (.inr ⟨ne, hy⟩), hw, hk, hl⟩
  offset j y e k hy hm hw hl := by
    rcases calls_setPhase.mp hy with ⟨-, rfl⟩ | ⟨-, hy⟩
    · obtain ⟨rfl, rfl⟩ := hp e k hw
      rfl
    · exact h.offset j y e k hy hm hw hl

theorem not_mem_of_posted (h : Laid c₀ s order tail) (hc : s.calls c = some x)
    (hp : x.landed = false) : c ∉ order := by
  intro hm
  obtain ⟨y, hy, hl⟩ := (h.mem c).mp hm
  obtain rfl : x = y := Option.some.inj (hc.symm.trans hy)
  rw [hp] at hl
  cases hl

/-- An append of no bytes has landed when its length query is answered. -/
theorem metadata (h : Laid c₀ s order tail) (hc : s.calls c = some x) (hp : x.phase = .posted) :
    ∃ order', Laid c₀ (s.next (.metadata c x)) order' tail := by
  have not_landed : x.landed = false := by simp [AppendCall.landed, hp]
  have not_mem := h.not_mem_of_posted hc not_landed
  have hx : ∀ e k, x.phase = .writing e k → k = x.data.length := by
    intro e k hw
    rw [hp] at hw
    cases hw
  have hw : ∀ e k, AppendPhase.writing s.content.length 0 = .writing e k →
      k = 0 ∧ e = s.content.length := by
    intro e k hw
    cases hw
    exact ⟨rfl, rfl⟩
  by_cases hd : x.data = []
  · refine ⟨order ++ [c], h.setPhase hc _ ?_ (fun j => ?_) ?_ hx hw⟩
    · exact nodup_concat h.nodup not_mem
    · by_cases e : j = c <;> simp [e, not_mem, AppendCall.landed, hd]
    · simp [dataOf, hc, hd]
  · refine ⟨order, h.setPhase hc _ h.nodup (fun j => ?_) rfl hx hw⟩
    have : 0 ≠ x.data.length := fun e => hd (List.length_eq_zero_iff.mp e.symm)
    by_cases e : j = c <;> simp [e, not_mem, AppendCall.landed, this]

theorem finish (h : Laid c₀ s order tail) {e : ℕ} (hc : s.calls c = some x)
    (hp : x.phase = .writing e x.data.length) :
    Laid c₀ (s.next (.finish c x e)) order tail := by
  have mem : c ∈ order := (h.mem c).mpr ⟨x, hc, by simp [AppendCall.landed, hp]⟩
  refine h.setPhase hc _ h.nodup (fun j => ?_) rfl (fun e' k hw => ?_) fun e' k hw => ?_
  · by_cases e : j = c <;> simp [e, mem, AppendCall.landed]
  · rw [hp] at hw
    cases hw
    rfl
  · cases hw

section Write

variable {e k n : ℕ}

/-- A call that may write has what it has written so far at the end of the file. -/
theorem tail_eq (h : Laid c₀ s order tail) (hc : s.calls c = some x) (hp : x.phase = .writing e k)
    (hl : k < x.data.length) (hu : ∀ c' y, c' ≠ c → s.calls c' = some y → y.exposed = false) :
    tail = x.data.take k := by
  rcases Nat.eq_zero_or_pos k with rfl | hk
  · rw [List.take_zero]
    rcases h.tail with ht | ⟨j, y, e', k', hy, hw, hk', hl'⟩
    · exact ht
    · -- another call would be exposed
      have ne : j ≠ c := by
        rintro rfl
        obtain rfl : x = y := Option.some.inj (hc.symm.trans hy)
        rw [hp] at hw
        cases hw
        omega
      have := (AppendCall.of_not_exposed (hu j y ne hy) hw hl').2
      omega
  · exact h.partly c x e k hc hp hk hl

theorem content_pwrite (h : Laid c₀ s order tail) (hc : s.calls c = some x)
    (hp : x.phase = .writing e k) (hn : 0 < n) (hl : k + n ≤ x.data.length) :
    (s.next (.pwrite c x e k n)).content = s.content ++ (x.data.drop k).take n := by
  have pos : x.position s.content.length e k = s.content.length := by
    unfold AppendCall.position
    split
    · rfl
    · rename_i hm
      exact h.offset c x e k hc (by simpa using hm) hp (by omega)
  change pwrite s.content (x.position s.content.length e k) _ = _
  rw [pos, pwrite_length]

/-- A write that nothing disturbs goes on where the call left off, and may end it. -/
theorem pwrite (h : Laid c₀ s order tail) (hc : s.calls c = some x) (hp : x.phase = .writing e k)
    (hn : 0 < n) (hl : k + n ≤ x.data.length)
    (hu : ∀ c' y, c' ≠ c → s.calls c' = some y → y.exposed = false) :
    ∃ order' tail', Laid c₀ (s.next (.pwrite c x e k n)) order' tail' := by
  have content := h.content_pwrite hc hp hn hl
  have grown : s.content ++ (x.data.drop k).take n =
      c₀ ++ order.flatMap s.dataOf ++ x.data.take (k + n) := by
    rw [h.content, h.tail_eq hc hp (by omega) hu, List.take_add, List.append_assoc,
      List.append_assoc]
  have data : (s.next (.pwrite c x e k n)).dataOf = s.dataOf :=
    dataOf_setPhase (s := { s with content := _ }) hc
  have not_mem : c ∉ order := h.not_mem_of_posted hc (by simp [AppendCall.landed, hp]; omega)
  -- of the other calls only those in append mode that have written nothing are not finished
  have others : ∀ j y e' k', (s.next (.pwrite c x e k n)).calls j = some y →
      y.phase = .writing e' k' → k' < y.data.length →
      (j = c ∧ y = { x with phase := .writing e (k + n) } ∧ e' = e ∧ k' = k + n) ∨
        y.appendMode = true ∧ k' = 0 := by
    intro j y e' k' hy hw hk
    rcases calls_setPhase.mp hy with ⟨rfl, rfl⟩ | ⟨ne, hy⟩
    · cases hw
      exact .inl ⟨rfl, rfl, rfl, rfl⟩
    · exact .inr (AppendCall.of_not_exposed (hu j y ne hy) hw hk)
  have offset : ∀ j y e' k', (s.next (.pwrite c x e k n)).calls j = some y →
      y.appendMode = false → y.phase = .writing e' k' → k' < y.data.length →
      e' + k' = (s.next (.pwrite c x e k n)).content.length := by
    intro j y e' k' hy hm hw hk
    rcases others j y e' k' hy hw hk with ⟨-, rfl, rfl, rfl⟩ | ⟨hm', -⟩
    · have before := h.offset c x e' k hc hm hp (by omega)
      rw [content]
      simp only [List.length_append, List.length_take, List.length_drop]
      omega
    · rw [hm] at hm'
      cases hm'
  have kept : ∀ j, j ≠ c → ∀ y, (s.next (.pwrite c x e k n)).calls j = some y ↔
      s.calls j = some y := by
    intro j ne y
    refine calls_setPhase.trans ⟨?_, fun hy => .inr ⟨ne, hy⟩⟩
    rintro (⟨e, -⟩ | ⟨-, hy⟩)
    · exact absurd e ne
    · exact hy
  have self : (s.next (.pwrite c x e k n)).calls c =
      some { x with phase := .writing e (k + n) } := calls_setPhase.mpr (.inl ⟨rfl, rfl⟩)
  by_cases hd : k + n = x.data.length
  · refine ⟨order ++ [c], [], nodup_concat h.nodup not_mem, fun j => ?_, ?_, ?_, .inl rfl, offset⟩
    · by_cases e : j = c
      · subst e
        simp [self, AppendCall.landed, hd]
      · simp [e, h.mem, kept j e]
    · rw [content, grown, data, hd]
      simp [dataOf, hc]
    · intro j y e' k' hy hw hk hk'
      rcases others j y e' k' hy hw hk' with ⟨-, rfl, -, rfl⟩ | ⟨-, hz⟩
      · exact absurd hd (Nat.ne_of_lt hk')
      · omega
  · refine ⟨order, x.data.take (k + n), h.nodup, fun j => ?_, ?_, ?_, ?_, offset⟩
    · by_cases e : j = c
      · subst e
        simp [self, AppendCall.landed, hd, not_mem]
      · simp [h.mem, kept j e]
    · rw [content, grown, data]
    · intro j y e' k' hy hw hk hk'
      rcases others j y e' k' hy hw hk' with ⟨-, rfl, -, rfl⟩ | ⟨-, hz⟩
      · rfl
      · omega
    · exact .inr ⟨c, _, e, k + n, self, rfl, by omega, by change k + n < x.data.length; omega⟩

end Write

end Laid

/-- What an undisturbed run keeps, until a call fails. -/
def Inv (c₀ : Bytes) (s : FileAppends) : Prop := s.Failed ∨ ∃ order tail, Laid c₀ s order tail

/-- A call that failed stays failed. -/
theorem Failed.next (h : s.Failed) {a : AppendAct} (ha : s.Enabled a) : (s.next a).Failed := by
  obtain ⟨c', y, hy, hp⟩ := h
  have other : ∀ {c x} {s' : FileAppends}, s.calls c = some x → x.phase ≠ .failed →
      (∀ j, j ≠ c → s'.calls j = s.calls j) → s'.Failed := by
    intro c x s' hc hx same
    have ne : c' ≠ c := by
      rintro rfl
      obtain rfl : x = y := Option.some.inj (hc.symm.trans hy)
      exact hx hp
    exact ⟨c', y, (same c' ne).trans hy, hp⟩
  cases a with
  | append c d m =>
      have ne : c' ≠ c := by
        rintro rfl
        rw [show s.calls c' = none from ha] at hy
        cases hy
      exact ⟨c', y, (Function.update_of_ne ne ..).trans hy, hp⟩
  | metadata c x =>
      exact other ha.1 (by rw [ha.2]; intro e; cases e) fun j ne => Function.update_of_ne ne ..
  | pwrite c x e k n =>
      exact other ha.1 (by rw [ha.2.1]; intro e; cases e) fun j ne => Function.update_of_ne ne ..
  | finish c x e =>
      exact other ha.1 (by rw [ha.2]; intro e; cases e) fun j ne => Function.update_of_ne ne ..
  | fail c x => exact other ha.1 ha.2.2 fun j ne => Function.update_of_ne ne ..

theorem Inv.next (h : Inv c₀ s) {a : AppendAct} (ha : s.Enabled a) (hu : s.Undisturbed a) :
    Inv c₀ (s.next a) := by
  rcases h with hf | ⟨order, tail, h⟩
  · exact .inl (hf.next ha)
  · cases a with
    | append c d m => exact .inr ⟨_, _, h.append ha d m⟩
    | metadata c x =>
        obtain ⟨order', h'⟩ := h.metadata ha.1 ha.2
        exact .inr ⟨_, _, h'⟩
    | pwrite c x e k n => exact .inr (h.pwrite ha.1 ha.2.1 ha.2.2.1 ha.2.2.2 hu)
    | finish c x e => exact .inr ⟨_, _, h.finish ha.1 ha.2⟩
    | fail c x => exact .inl ⟨c, _, calls_setPhase.mpr (.inl ⟨rfl, rfl⟩), rfl⟩

theorem inv_of_reachable (h : (appendMachine c₀).ReachableBy Undisturbed s) : Inv c₀ s := by
  refine h.invariant (I := Inv c₀) (fun s hi => ?_) fun _ _ _ hi hC ha => hi.next ha hC
  obtain rfl : s = ⟨c₀, fun _ => none⟩ := hi
  exact .inr ⟨_, _, .init c₀⟩

/-- When all calls have succeeded there is no call under way. -/
theorem Laid.appended {order : List ℕ} {tail : Bytes} (h : Laid c₀ s order tail) :
    Appended c₀ s := by
  intro all
  refine ⟨order, h.nodup, fun c => (h.mem c).trans ?_, ?_⟩
  · rw [Option.isSome_iff_exists]
    refine ⟨fun ⟨x, hx, _⟩ => ⟨x, hx⟩, fun ⟨x, hx⟩ => ⟨x, hx, ?_⟩⟩
    simp [AppendCall.landed, all c x hx]
  · rcases h.tail with ht | ⟨c, x, e, k, hx, hw, -⟩
    · rw [h.content, ht, List.append_nil]
    · rw [all c x hx] at hw
      cases hw

/-! ### Calls that overlap -/

def written (s : FileAppends) (c : ℕ) : ℕ :=
  match s.calls c with
  | some x => x.written
  | none => 0

/-- The file is not longer than what was transferred, and its end is not before the place where a
call writes next. -/
structure Counted (c₀ : Bytes) (s : FileAppends) (ids : Finset ℕ) : Prop where
  mem : ∀ c, c ∈ ids ↔ (s.calls c).isSome = true
  reach : ∀ c x e k, s.calls c = some x → x.phase = .writing e k → e + k ≤ s.content.length
  length : s.content.length ≤ c₀.length + ∑ c ∈ ids, s.written c

/-- A call that writes where it is told will write before the end of the file. -/
def Stale (s : FileAppends) : Prop :=
  ∃ c x e k, s.calls c = some x ∧ x.appendMode = false ∧ x.phase = .writing e k ∧
    k < x.data.length ∧ e + k < s.content.length

/-- Bytes were overwritten, or are about to be. -/
def Overwrites (c₀ : Bytes) (s : FileAppends) (ids : Finset ℕ) : Prop :=
  s.content.length < c₀.length + ∑ c ∈ ids, s.written c ∨ s.Stale

theorem sum_written_setPhase {c : ℕ} {x : AppendCall} {p : AppendPhase} {ids : Finset ℕ}
    (hc : s.calls c = some x) (hi : c ∈ ids) :
    ∑ j ∈ ids, (s.setPhase c x p).written j + x.written =
      ∑ j ∈ ids, s.written j + ({ x with phase := p } : AppendCall).written := by
  have rest : ∑ j ∈ ids.erase c, (s.setPhase c x p).written j = ∑ j ∈ ids.erase c, s.written j := by
    refine Finset.sum_congr rfl fun j hj => ?_
    simp [written, setPhase, Finset.ne_of_mem_erase hj]
  have new : (s.setPhase c x p).written c = ({ x with phase := p } : AppendCall).written := by
    simp [written, setPhase]
  have old : s.written c = x.written := by simp [written, hc]
  rw [← Finset.add_sum_erase _ _ hi, ← Finset.add_sum_erase _ _ hi, rest, new, old]
  omega

namespace Counted

variable {ids : Finset ℕ} {c : ℕ} {x : AppendCall} {e k n : ℕ}

theorem init (c₀ : Bytes) : Counted c₀ ⟨c₀, fun _ => none⟩ ∅ where
  mem c := by simp
  reach c x e k h := by cases h
  length := by simp

theorem mem_of_call (h : Counted c₀ s ids) (hc : s.calls c = some x) : c ∈ ids :=
  (h.mem c).mpr (by rw [hc]; rfl)

theorem sum_append (h : Counted c₀ s ids) (hc : s.calls c = none) (d : Bytes) (m : Bool) :
    ∑ j ∈ insert c ids, (s.next (.append c d m)).written j = ∑ j ∈ ids, s.written j := by
  have not_mem : c ∉ ids := by
    rw [h.mem, hc]
    exact Bool.false_ne_true
  have new : (s.next (.append c d m)).written c = 0 := by
    simp [written, FileAppends.next, AppendCall.written]
  rw [Finset.sum_insert not_mem, new, Nat.zero_add]
  refine Finset.sum_congr rfl fun j hj => ?_
  have e : j ≠ c := fun e => not_mem (e ▸ hj)
  simp [written, FileAppends.next, e]

theorem append (h : Counted c₀ s ids) (hc : s.calls c = none) (d : Bytes) (m : Bool) :
    Counted c₀ (s.next (.append c d m)) (insert c ids) where
  mem j := by
    by_cases e : j = c <;> simp [FileAppends.next, e, h.mem]
  reach j y e k hy hw := by
    rcases update_some_eq_some.mp hy with ⟨-, rfl⟩ | ⟨-, hy⟩
    · cases hw
    · exact h.reach j y e k hy hw
  length := by
    rw [h.sum_append hc]
    exact h.length

/-- A step of a call that writes no byte. -/
theorem setPhase (h : Counted c₀ s ids) (hc : s.calls c = some x) {p : AppendPhase}
    (hw : ({ x with phase := p } : AppendCall).written = x.written)
    (hp : ∀ e k, p = .writing e k → e + k ≤ s.content.length) :
    Counted c₀ (s.setPhase c x p) ids ∧
      ∑ j ∈ ids, (s.setPhase c x p).written j = ∑ j ∈ ids, s.written j := by
  have sum := sum_written_setPhase (p := p) hc (h.mem_of_call hc)
  rw [hw, Nat.add_right_cancel_iff] at sum
  refine ⟨⟨fun j => ?_, fun j y e k hy hk => ?_, sum ▸ h.length⟩, sum⟩
  · by_cases e : j = c
    · subst e; simp [FileAppends.setPhase, h.mem, hc]
    · simp [FileAppends.setPhase, e, h.mem]
  · rcases calls_setPhase.mp hy with ⟨-, rfl⟩ | ⟨-, hy⟩
    · exact hp e k hk
    · exact h.reach j y e k hy hk

section Write

variable (h : Counted c₀ s ids) (hc : s.calls c = some x) (hp : x.phase = .writing e k)
  (hl : k + n ≤ x.data.length)

include h hc hp hl

theorem length_pwrite : (s.next (.pwrite c x e k n)).content.length =
    max s.content.length (x.position s.content.length e k + n) := by
  have reach := h.reach c x e k hc hp
  have pos : x.position s.content.length e k ≤ s.content.length := by
    unfold AppendCall.position
    split <;> omega
  change (pwrite s.content _ ((x.data.drop k).take n)).length = _
  rw [length_pwrite_le _ _ _ pos, List.length_take, List.length_drop]
  omega

omit hl in
theorem sum_pwrite : ∑ j ∈ ids, (s.next (.pwrite c x e k n)).written j =
    ∑ j ∈ ids, s.written j + n := by
  have sum := sum_written_setPhase (s := { s with content := (s.next (.pwrite c x e k n)).content })
    (p := .writing e (k + n)) hc (h.mem_of_call hc)
  have before : x.written = k := by simp [AppendCall.written, hp]
  have after : ({ x with phase := .writing e (k + n) } : AppendCall).written = k + n := rfl
  rw [before, after] at sum
  refine Nat.add_right_cancel (m := k) (sum.trans ?_)
  rw [Nat.add_assoc, Nat.add_comm n k]
  rfl

theorem pwrite : Counted c₀ (s.next (.pwrite c x e k n)) ids where
  mem j := by
    by_cases e' : j = c
    · subst e'; simp [FileAppends.next, FileAppends.setPhase, h.mem, hc]
    · simp [FileAppends.next, FileAppends.setPhase, e', h.mem]
  reach j y e' k' hy hw := by
    rw [h.length_pwrite hc hp hl]
    rcases calls_setPhase.mp hy with ⟨-, rfl⟩ | ⟨-, hy⟩
    · cases hw
      have reach := h.reach c x e k hc hp
      unfold AppendCall.position
      split <;> omega
    · have := h.reach j y e' k' hy hw
      omega
  length := by
    rw [h.length_pwrite hc hp hl, h.sum_pwrite (n := n) hc hp]
    have reach := h.reach c x e k hc hp
    have length := h.length
    unfold AppendCall.position
    split <;> omega

/-- A write over bytes that are there, or past the place where another call writes next. -/
theorem overwrites_pwrite (hn : 0 < n)
    (ho : Overwrites c₀ s ids ∨
      ∃ c' y e' k', c' ≠ c ∧ s.calls c' = some y ∧ y.appendMode = false ∧
        y.phase = .writing e' k' ∧ k' < y.data.length) :
    Overwrites c₀ (s.next (.pwrite c x e k n)) ids := by
  have len := h.length_pwrite hc hp hl
  have sum := h.sum_pwrite (n := n) hc hp
  have reach := h.reach c x e k hc hp
  have length := h.length
  have pos : x.position s.content.length e k ≤ s.content.length := by
    unfold AppendCall.position
    split <;> omega
  have kept : ∀ {c' y}, c' ≠ c → s.calls c' = some y →
      (s.next (.pwrite c x e k n)).calls c' = some y :=
    fun ne hy => calls_setPhase.mpr (.inr ⟨ne, hy⟩)
  unfold Overwrites
  rw [len, sum]
  rcases ho with (hs | ⟨c', y, e', k', hy, hm, hw, hk, hlt⟩) | ⟨c', y, e', k', ne, hy, hm, hw, hk⟩
  · exact .inl (by omega)
  · by_cases e'' : c' = c
    · -- the stale call itself writes
      subst e''
      obtain rfl : x = y := Option.some.inj (hc.symm.trans hy)
      rw [hp] at hw
      cases hw
      left
      simp only [AppendCall.position, hm, Bool.false_eq_true, if_false]
      omega
    · exact .inr ⟨c', y, e', k', kept e'' hy, hm, hw, hk, by rw [len]; omega⟩
  · by_cases grows : s.content.length < x.position s.content.length e k + n
    · have := h.reach c' y e' k' hy hw
      exact .inr ⟨c', y, e', k', kept ne hy, hm, hw, hk, by rw [len]; omega⟩
    · exact .inl (by omega)

end Write

end Counted

/-- What the file has lost is lost, until a call fails. -/
def Lossy (c₀ : Bytes) (s : FileAppends) : Prop :=
  s.Failed ∨ ∃ ids, Counted c₀ s ids ∧ Overwrites c₀ s ids

theorem Overwrites.setPhase {ids : Finset ℕ} {c : ℕ} {x : AppendCall} {p : AppendPhase}
    (h : Overwrites c₀ s ids) (hc : s.calls c = some x)
    (hs : ∑ j ∈ ids, (s.setPhase c x p).written j = ∑ j ∈ ids, s.written j)
    (hx : ∀ e k, x.phase = .writing e k → k = x.data.length) :
    Overwrites c₀ (s.setPhase c x p) ids := by
  rcases h with hl | ⟨c', y, e, k, hy, hm, hw, hk, hlt⟩
  · exact .inl (hs ▸ hl)
  · have ne : c' ≠ c := by
      rintro rfl
      obtain rfl : x = y := Option.some.inj (hc.symm.trans hy)
      have := hx e k hw
      omega
    exact .inr ⟨c', y, e, k, calls_setPhase.mpr (.inr ⟨ne, hy⟩), hm, hw, hk, hlt⟩

/-- What `metadata` and `finish` change counts for nothing. -/
theorem Counted.step {ids : Finset ℕ} (h : Counted c₀ s ids) {a : AppendAct} (ha : s.Enabled a) :
    (s.next a).Failed ∨ ∃ ids', Counted c₀ (s.next a) ids' ∧
      (Overwrites c₀ s ids → Overwrites c₀ (s.next a) ids') := by
  cases a with
  | append c d m =>
      refine .inr ⟨insert c ids, h.append ha d m, ?_⟩
      rintro (hl | ⟨c', y, e, k, hy, hrest⟩)
      · exact .inl ((h.sum_append ha d m).symm ▸ hl)
      · have ne : c' ≠ c := by
          rintro rfl
          rw [show s.calls c' = none from ha] at hy
          cases hy
        exact .inr ⟨c', y, e, k, (Function.update_of_ne ne ..).trans hy, hrest⟩
  | metadata c x =>
      have zero : x.written = 0 := by simp [AppendCall.written, ha.2]
      obtain ⟨h', sum⟩ := h.setPhase (p := .writing s.content.length 0) ha.1 zero.symm
        fun e k hp => by cases hp; omega
      refine .inr ⟨ids, h', fun ho => ho.setPhase ha.1 sum fun e k hw => ?_⟩
      rw [ha.2] at hw
      cases hw
  | pwrite c x e k n =>
      obtain ⟨hc, hp, hn, hl⟩ := ha
      exact .inr ⟨ids, h.pwrite hc hp hl, fun ho => h.overwrites_pwrite hc hp hl hn (.inl ho)⟩
  | finish c x e =>
      have all : x.written = x.data.length := by simp [AppendCall.written, ha.2]
      obtain ⟨h', sum⟩ := h.setPhase (p := .done) ha.1 all.symm fun e k hp => by cases hp
      refine .inr ⟨ids, h', fun ho => ho.setPhase ha.1 sum fun e' k hw => ?_⟩
      rw [ha.2] at hw
      cases hw
      rfl
  | fail c x => exact .inl ⟨c, _, calls_setPhase.mpr (.inl ⟨rfl, rfl⟩), rfl⟩

theorem counted_of_reachable (h : (appendMachine c₀).Reachable s) :
    s.Failed ∨ ∃ ids, Counted c₀ s ids := by
  refine h.invariant (I := fun s => s.Failed ∨ ∃ ids, Counted c₀ s ids) (fun s hi => ?_) ?_
  · obtain rfl : s = ⟨c₀, fun _ => none⟩ := hi
    exact .inr ⟨_, .init c₀⟩
  · rintro s a - (hf | ⟨ids, hi⟩) - ha
    · exact .inl (hf.next ha)
    · exact (hi.step ha).imp_right fun ⟨ids', h', _⟩ => ⟨ids', h'⟩

theorem Lossy.run {s' : FileAppends} (h : Lossy c₀ s)
    (hr : (appendMachine c₀).Run (fun _ _ => True) s s') : Lossy c₀ s' := by
  refine hr.keeps (I := Lossy c₀) ?_ h
  rintro s a (hf | ⟨ids, hi, ho⟩) ha
  · exact .inl (hf.next ha)
  · exact (hi.step ha).imp_right fun ⟨ids', h', hk⟩ => ⟨ids', h', hk ho⟩

/-- The descriptor of a call stays what it is. -/
theorem appendMode_run {c : ℕ} {m : Bool} {s' : FileAppends}
    (hr : (appendMachine c₀).Run (fun _ _ => True) s s')
    (h : ∃ x, s.calls c = some x ∧ x.appendMode = m) :
    ∃ x, s'.calls c = some x ∧ x.appendMode = m := by
  refine hr.keeps (I := fun s => ∃ x, s.calls c = some x ∧ x.appendMode = m) ?_ h
  rintro s a ⟨x, hx, hm⟩ ha
  have step : ∀ {j y p} {s' : FileAppends}, s.calls j = some y →
      s'.calls = Function.update s.calls j (some { y with phase := p }) →
      ∃ x, s'.calls c = some x ∧ x.appendMode = m := by
    intro j y p s' hy hs
    rw [hs]
    by_cases e : c = j
    · subst e
      obtain rfl : x = y := Option.some.inj (hx.symm.trans hy)
      exact ⟨_, Function.update_self .., hm⟩
    · exact ⟨x, (Function.update_of_ne e ..).trans hx, hm⟩
  cases a with
  | append j d b =>
      have e : c ≠ j := by
        rintro rfl
        rw [show s.calls c = none from ha] at hx
        cases hx
      exact ⟨x, (Function.update_of_ne e ..).trans hx, hm⟩
  | metadata j y | pwrite j y e k n | finish j y e | fail j y => exact step ha.1 rfl

/-- A file that has lost bytes does not hold all the data. -/
theorem Lossy.not_appended (h : Lossy c₀ s) (all : ∀ c x, s.calls c = some x → x.phase = .done) :
    ¬ Appended c₀ s := by
  intro ha
  obtain ⟨order, nodup, mem, content⟩ := ha all
  rcases h with ⟨c, x, hx, hp⟩ | ⟨ids, hi, ho⟩
  · rw [all c x hx] at hp
    cases hp
  · have short : s.content.length < c₀.length + ∑ c ∈ ids, s.written c := by
      rcases ho with hl | ⟨c, x, e, k, hx, -, hw, -⟩
      · exact hl
      · rw [all c x hx] at hw
        cases hw
    have same : ids = order.toFinset := by
      ext c
      rw [List.mem_toFinset, hi.mem, mem]
    have data : ∀ c, s.written c = (s.dataOf c).length := by
      intro c
      cases hc : s.calls c with
      | none => simp [written, dataOf, hc]
      | some x => simp [written, dataOf, hc, AppendCall.written, all c x hc]
    have sum : ∑ c ∈ ids, s.written c = (order.flatMap s.dataOf).length := by
      rw [same, List.sum_toFinset _ nodup, List.length_flatMap]
      exact congrArg List.sum (List.map_congr_left fun c _ => data c)
    rw [content, List.length_append, sum] at short
    exact Nat.lt_irrefl _ short

/-- A write while a call that writes where it is told is exposed. -/
theorem lossy_of_disturbed (hs : (appendMachine c₀).Reachable s) {a : AppendAct}
    (ha : s.Enabled a) (hd : ¬ s.Undisturbed a)
    (hm : ∀ c x, s.calls c = some x → x.appendMode = false) : Lossy c₀ (s.next a) := by
  cases a with
  | append | metadata | finish | fail => exact absurd trivial hd
  | pwrite c x e k n =>
      obtain ⟨hc, hp, hn, hl⟩ := ha
      have other : ∃ c' y, c' ≠ c ∧ s.calls c' = some y ∧ y.exposed = true := by
        by_contra hcon
        refine hd fun c' y ne hy => ?_
        cases hx : y.exposed with
        | false => rfl
        | true => exact absurd ⟨c', y, ne, hy, hx⟩ hcon
      obtain ⟨c', y, ne, hy, hx⟩ := other
      rcases counted_of_reachable hs with hf | ⟨ids, hi⟩
      · exact .inl (hf.next ⟨hc, hp, hn, hl⟩)
      · refine .inr ⟨ids, hi.pwrite hc hp hl, hi.overwrites_pwrite hc hp hl hn (.inr ?_)⟩
        cases hw : y.phase with
        | writing e' k' =>
            have hk : k' < y.data.length := by
              simp only [AppendCall.exposed, hw, Bool.and_eq_true, decide_eq_true_eq] at hx
              exact hx.1
            exact ⟨c', y, e', k', ne, hy, hm c' y hy, hw, hk⟩
        | posted | done | failed => simp [AppendCall.exposed, hw] at hx

/-- **Appends are whole when they do not overlap.**  In a run that writes no byte while another call
is exposed, the data of the calls follow the initial content once they have all succeeded; and where
every descriptor writes where it is told, no other run ends so. -/
theorem appends_whole (c₀ : Bytes) :
    (∀ s, (appendMachine c₀).ReachableBy Undisturbed s → Appended c₀ s) ∧
      ∀ s a s', (appendMachine c₀).Reachable s → s.Enabled a → ¬ s.Undisturbed a →
        (appendMachine c₀).Run (fun _ _ => True) (s.next a) s' →
        (∀ c x, s'.calls c = some x → x.phase = .done ∧ x.appendMode = false) →
        ¬ Appended c₀ s' := by
  constructor
  · intro s h
    rcases inv_of_reachable h with ⟨c, x, hx, hp⟩ | ⟨order, tail, h⟩
    · intro all
      rw [all c x hx] at hp
      cases hp
    · exact h.appended
  · intro s a s' hs ha hd hr all
    have whole : (appendMachine c₀).Run (fun _ _ => True) s s' :=
      (Machine.Run.more .refl trivial ha).trans hr
    have told : ∀ c x, s.calls c = some x → x.appendMode = false := by
      intro c x hx
      obtain ⟨y, hy, hm⟩ := appendMode_run whole ⟨x, hx, rfl⟩
      rw [← hm]
      exact (all c y hy).2
    have lossy := (lossy_of_disturbed hs ha hd told).run hr
    exact lossy.not_appended fun c x hx => (all c x hx).1

/-- A call that writes its bytes in two steps, while another is queued, which writes after it. -/
def soloRun : List AppendAct :=
  let x (p : AppendPhase) : AppendCall := ⟨[1, 2], false, p⟩
  let y (p : AppendPhase) : AppendCall := ⟨[3], false, p⟩
  [.append 0 [1, 2] false, .append 1 [3] false, .metadata 0 (x .posted),
    .pwrite 0 (x (.writing 1 0)) 1 0 1, .pwrite 0 (x (.writing 1 1)) 1 1 1,
    .finish 0 (x (.writing 1 2)) 1, .metadata 1 (y .posted), .pwrite 1 (y (.writing 3 0)) 3 0 1,
    .finish 1 (y (.writing 3 1)) 3]

theorem appends_whole_solo :
    ∃ s, (appendMachine [0]).ReachableBy Undisturbed s ∧ s.content = [0, 1, 2, 3] ∧
      Appended [0] s := by
  -- of the two calls, the one that does not write is not exposed
  have alone : ∀ {s : FileAppends} {c c' : ℕ} {x y : AppendCall},
      (∀ j, j ≠ 0 → j ≠ 1 → s.calls j = none) → c < 2 → s.calls (1 - c) = some y →
      y.exposed = false → c' ≠ c → s.calls c' = some x → x.exposed = false := by
    intro s c c' x y hs hc hy he ne hx
    by_cases e : c' = 1 - c
    · rw [e, hy] at hx
      cases hx
      exact he
    · rw [hs c' (by omega) (by omega)] at hx
      cases hx
  have run : (appendMachine [0]).Follows Undisturbed ⟨[0], fun _ => none⟩ soloRun := by
    refine ⟨trivial, by decide +kernel, trivial, by decide +kernel, trivial, by decide +kernel,
      fun c' x ne hx => alone (y := ⟨[3], false, .posted⟩) ?_ (by decide) (by decide +kernel)
        (by decide) ne hx, by decide +kernel,
      fun c' x ne hx => alone (y := ⟨[3], false, .posted⟩) ?_ (by decide) (by decide +kernel)
        (by decide) ne hx, by decide +kernel,
      trivial, by decide +kernel, trivial, by decide +kernel,
      fun c' x ne hx => alone (y := ⟨[1, 2], false, .done⟩) ?_ (by decide) (by decide +kernel)
        (by decide) ne hx, by decide +kernel, trivial, by decide +kernel, trivial⟩
    all_goals
      intro j h₀ h₁
      simp [appendMachine, FileAppends.next, setPhase, h₀, h₁]
  exact ⟨_, .of_follows rfl run, by decide +kernel, (appends_whole [0]).1 _ (.of_follows rfl run)⟩

/-- Two calls of one byte that ask for the length before either writes. -/
def overlapRun : List AppendAct :=
  let x (b : UInt8) (p : AppendPhase) : AppendCall := ⟨[b], false, p⟩
  [.append 0 [1] false, .append 1 [2] false, .metadata 0 (x 1 .posted), .metadata 1 (x 2 .posted),
    .pwrite 0 (x 1 (.writing 0 0)) 0 0 1, .finish 0 (x 1 (.writing 0 1)) 0,
    .pwrite 1 (x 2 (.writing 0 0)) 0 0 1, .finish 1 (x 2 (.writing 0 1)) 0]

/-- The second call writes over the first. -/
theorem appends_overlap : ∃ s, (appendMachine []).Reachable s ∧ ¬ Appended [] s := by
  let s := (appendMachine []).runList ⟨[], fun _ => none⟩ overlapRun
  have run : (appendMachine []).Follows (fun _ _ => True) ⟨[], fun _ => none⟩ overlapRun := by
    decide +kernel
  have content : s.content = [2] := by decide +kernel
  have first : s.calls 0 = some ⟨[1], false, .done⟩ := by decide +kernel
  have second : s.calls 1 = some ⟨[2], false, .done⟩ := by decide +kernel
  have other : ∀ c, c ≠ 0 → c ≠ 1 → s.calls c = none := by
    intro c h₀ h₁
    simp [s, Machine.runList, overlapRun, appendMachine, FileAppends.next, setPhase, h₀, h₁]
  refine ⟨s, .of_follows rfl run, fun h => ?_⟩
  obtain ⟨order, -, mem, hc⟩ := h fun c x hx => by
    by_cases h₀ : c = 0
    · rw [h₀, first] at hx; cases hx; rfl
    · by_cases h₁ : c = 1
      · rw [h₁, second] at hx; cases hx; rfl
      · rw [other c h₀ h₁] at hx; cases hx
  -- the byte of the first call is nowhere
  have byte : (1 : UInt8) ∈ s.content := by
    rw [hc]
    refine List.mem_flatMap.mpr ⟨0, (mem 0).mpr (by rw [first]; rfl), ?_⟩
    simp [dataOf, first]
  rw [content] at byte
  exact absurd byte (by decide)

end FileAppends

end RustAsync
