import RustBase.Support.FileContent
import RustBase.Support.Machine

/-!
# Io — the operations of a file proxy

The blocking half of `FileProxy`: what a task of the pool does to the file for one call of `read`,
`read_all`, `write`, `write_all` or `append`, one system call at a time.

* Each opens the path, moves bytes, and closes.  `read`, `write` and `append` move once, as much as
  the system lets them; `read_all` (`std::fs::read`) reads until it gets nothing, `write_all`
  (`std::fs::write`) writes until nothing is left.
* The content of the file is `none` when there is no file.  Opening for writing creates it, and
  `write_all` truncates it.
* Any system call may fail, the first one also because of the path (`to_cpath`).  Calls that the
  library repeats when they are interrupted are one step.

`FileOp.Effect` says what one call does, seen from outside: its result and the content it leaves.
Every run of the steps of one call is such an effect (`under_next`).
-/

namespace RustIo
open Support

inductive FileOp where
  | read (offset len : ℕ)
  | readAll
  | write (offset : ℕ) (data : Bytes)
  | writeAll (data : Bytes)
  | append (data : Bytes)
  deriving DecidableEq

/-- What a callback is called with. -/
inductive FileResult where
  | bytes (b : Bytes)
  | count (n : ℕ)
  | unit
  | failed (e : IoError)
  deriving DecidableEq

/-- How far a call has come. -/
inductive OpPhase where
  | opening
  /-- the file is open: what was read, and how much was written -/
  | moving (got : Bytes) (put : ℕ)
  | finished (r : FileResult)
  deriving DecidableEq

/-- The steps of a call; the ones of an open file carry where it is. -/
inductive OpAct where
  | openFails (e : IoError)
  | opens
  | fails (got : Bytes) (put : ℕ) (e : IoError)
  /-- a read of at most `len` bytes -/
  | reads (got : Bytes) (put : ℕ) (file : Bytes) (len : ℕ) (b : Bytes)
  | writes (got : Bytes) (put : ℕ) (file : Bytes) (n : ℕ)
  /-- the loop of `write_all` has nothing left -/
  | allWritten (got : Bytes) (put : ℕ)
  deriving DecidableEq

/-- From here on an offset is a negative `off_t`. -/
def offsetLimit : ℕ := 9223372036854775808

namespace FileOp

/-- The file is opened for reading. -/
def readsOnly : FileOp → Bool
  | .read _ _ | .readAll => true
  | .write _ _ | .writeAll _ | .append _ => false

/-- The content once the file is open. -/
def opened (c : Option Bytes) : FileOp → Option Bytes
  | .read _ _ | .readAll => c
  | .write _ _ | .append _ => some (c.getD [])
  | .writeAll _ => some []

/-- The system may answer a read with `b`. -/
def CanRead (got file : Bytes) (len : ℕ) (b : Bytes) : FileOp → Prop
  | .read offset max => len = max ∧ offset < offsetLimit ∧ Reads file offset len b
  | .readAll => 0 < len ∧ Reads file got.length len b
  | .write _ _ | .writeAll _ | .append _ => False

/-- The system may answer a write with `n`. -/
def CanWrite (put n : ℕ) : FileOp → Prop
  | .write offset data => offset < offsetLimit ∧ n ≤ data.length
  | .append data => n ≤ data.length
  | .writeAll data => 0 < n ∧ put + n ≤ data.length
  | .read _ _ | .readAll => False

/-- The loop of `write_all` ends. -/
def AllWritten (put : ℕ) : FileOp → Prop
  | .writeAll data => put = data.length
  | .read _ _ | .readAll | .write _ _ | .append _ => False

instance (got file : Bytes) (len : ℕ) (b : Bytes) : ∀ op, Decidable (CanRead got file len b op)
  | .read _ _ => inferInstanceAs (Decidable (_ ∧ _ ∧ Reads _ _ _ _))
  | .readAll => inferInstanceAs (Decidable (_ ∧ Reads _ _ _ _))
  | .write _ _ | .writeAll _ | .append _ => inferInstanceAs (Decidable False)

instance (put n : ℕ) : ∀ op, Decidable (CanWrite put n op)
  | .write _ _ | .writeAll _ => inferInstanceAs (Decidable (_ ∧ _))
  | .append _ => inferInstanceAs (Decidable (_ ≤ _))
  | .read _ _ | .readAll => inferInstanceAs (Decidable False)

instance (put : ℕ) : ∀ op, Decidable (AllWritten put op)
  | .writeAll _ => inferInstanceAs (Decidable (_ = _))
  | .read _ _ | .readAll | .write _ _ | .append _ => inferInstanceAs (Decidable False)

def Enabled (op : FileOp) (x : OpPhase × Option Bytes) : OpAct → Prop
  | .openFails _ => x.1 = .opening
  | .opens => x.1 = .opening ∧ (op.readsOnly = true → x.2.isSome)
  | .fails got put _ => x.1 = .moving got put
  | .reads got put file len b =>
      x.1 = .moving got put ∧ x.2 = some file ∧ CanRead got file len b op
  | .writes got put file n => x.1 = .moving got put ∧ x.2 = some file ∧ CanWrite put n op
  | .allWritten got put => x.1 = .moving got put ∧ AllWritten put op

instance (op : FileOp) (x : OpPhase × Option Bytes) : ∀ a, Decidable (op.Enabled x a)
  | .openFails _ | .fails _ _ _ => inferInstanceAs (Decidable (_ = _))
  | .opens => inferInstanceAs (Decidable (_ ∧ (_ → _)))
  | .reads _ _ _ _ _ | .writes _ _ _ _ => inferInstanceAs (Decidable (_ ∧ _ ∧ _))
  | .allWritten _ _ => inferInstanceAs (Decidable (_ ∧ _))

/-- A read has returned `b`. -/
def afterRead (got : Bytes) (put : ℕ) (b : Bytes) : FileOp → OpPhase
  | .readAll => if b = [] then .finished (.bytes got) else .moving (got ++ b) put
  | .read _ _ | .write _ _ | .writeAll _ | .append _ => .finished (.bytes b)

/-- A write has returned `n`. -/
def afterWrite (got : Bytes) (put n : ℕ) : FileOp → OpPhase
  | .writeAll _ => .moving got (put + n)
  | .read _ _ | .readAll | .write _ _ | .append _ => .finished (.count n)

/-- The content after the system has written `n` bytes. -/
def written (file : Bytes) (put n : ℕ) : FileOp → Bytes
  | .write offset data => pwrite file offset (data.take n)
  | .append data => pwrite file file.length (data.take n)
  | .writeAll data => pwrite file put ((data.drop put).take n)
  | .read _ _ | .readAll => file

def next (op : FileOp) (x : OpPhase × Option Bytes) : OpAct → OpPhase × Option Bytes
  | .openFails e | .fails _ _ e => (.finished (.failed e), x.2)
  | .opens => (.moving [] 0, op.opened x.2)
  | .reads got put _ _ b => (afterRead got put b op, x.2)
  | .writes got put file n => (afterWrite got put n op, some (written file put n op))
  | .allWritten _ _ => (.finished .unit, x.2)

/-! ### What a call does -/

/-- A call of `op` on a file with content `c` may have the result `r` and leave the content `c'`.
A call that fails may have opened the file, and `write_all` may have written a part. -/
def Effect : FileOp → Option Bytes → FileResult → Option Bytes → Prop
  | .read offset len, c, r, c' => c' = c ∧
      ((∃ e, r = .failed e) ∨ ∃ b file, r = .bytes b ∧ c = some file ∧ Reads file offset len b)
  | .readAll, c, r, c' => c' = c ∧ ((∃ e, r = .failed e) ∨ ∃ b, r = .bytes b ∧ c = some b)
  | .write offset data, c, r, c' =>
      (∃ e, r = .failed e ∧ (c' = c ∨ c' = some (c.getD []))) ∨
      ∃ n, r = .count n ∧ n ≤ data.length ∧ c' = some (pwrite (c.getD []) offset (data.take n))
  | .append data, c, r, c' =>
      (∃ e, r = .failed e ∧ (c' = c ∨ c' = some (c.getD []))) ∨
      ∃ n, r = .count n ∧ n ≤ data.length ∧ c' = some (c.getD [] ++ data.take n)
  | .writeAll data, c, r, c' =>
      (∃ e, r = .failed e ∧ (c' = c ∨ ∃ k, c' = some (data.take k))) ∨
      r = .unit ∧ c' = some data

/-- What is known of a call on its way, that found the content `c₀`. -/
def Under (op : FileOp) (c₀ : Option Bytes) : OpPhase × Option Bytes → Prop
  | (.opening, c) => c = c₀
  | (.moving got put, c) =>
      match op with
      | .read _ _ => c = c₀
      | .readAll => c = c₀ ∧ ∃ file, c₀ = some file ∧ got = file.take got.length
      | .write _ _ | .append _ => c = some (c₀.getD [])
      | .writeAll data => put ≤ data.length ∧ c = some (data.take put)
  | (.finished r, c) => op.Effect c₀ r c

variable {op : FileOp} {c₀ : Option Bytes} {x : OpPhase × Option Bytes}

/-- A call that fails leaves what it found, or what it has opened. -/
theorem effect_failed {got : Bytes} {put : ℕ} {c : Option Bytes} (e : IoError)
    (h : op.Under c₀ (.moving got put, c)) : op.Effect c₀ (.failed e) c := by
  cases op with
  | read offset len => exact ⟨h, .inl ⟨e, rfl⟩⟩
  | readAll => exact ⟨h.1, .inl ⟨e, rfl⟩⟩
  | write offset data | append data => exact .inl ⟨e, rfl, .inr h⟩
  | writeAll data => exact .inl ⟨e, rfl, .inr ⟨put, h.2⟩⟩

theorem under_reads {got file : Bytes} {put len : ℕ} {b : Bytes}
    (h : op.Under c₀ (.moving got put, some file)) (hr : CanRead got file len b op) :
    op.Under c₀ (afterRead got put b op, some file) := by
  cases op with
  | read offset max =>
      obtain ⟨rfl, -, hr⟩ := hr
      exact ⟨h, .inr ⟨b, file, rfl, h.symm, hr⟩⟩
  | readAll =>
      obtain ⟨hlen, hr⟩ := hr
      obtain ⟨hc, file', hf, hgot⟩ := h
      obtain rfl : file' = file := Option.some.inj (hf.symm.trans hc.symm)
      simp only [afterRead]
      split
      · -- nothing more is read at the end only
        rename_i hb
        rw [hb] at hr
        have hend := hr.end_of_empty hlen
        rw [List.take_of_length_le hend] at hgot
        exact ⟨hc, .inr ⟨got, rfl, by rw [hf, hgot]⟩⟩
      · refine ⟨hc, file', hf, ?_⟩
        have more := hr.take_append
        rw [← hgot] at more
        rw [List.length_append, more]
  | write | writeAll | append => exact hr.elim

theorem under_writes {got file : Bytes} {put n : ℕ}
    (h : op.Under c₀ (.moving got put, some file)) (hw : CanWrite put n op) :
    op.Under c₀ (afterWrite got put n op, some (written file put n op)) := by
  cases op with
  | write offset data =>
      obtain rfl : file = c₀.getD [] := Option.some.inj h
      exact .inr ⟨n, rfl, hw.2, rfl⟩
  | append data =>
      obtain rfl : file = c₀.getD [] := Option.some.inj h
      exact .inr ⟨n, rfl, hw, by rw [written, pwrite_length]⟩
  | writeAll data =>
      obtain ⟨hle, hc⟩ := h
      obtain rfl : file = data.take put := Option.some.inj hc
      refine ⟨hw.2, ?_⟩
      have hlen : (data.take put).length = put := by rw [List.length_take]; omega
      have grown : pwrite (data.take put) put ((data.drop put).take n) = data.take (put + n) := by
        conv_lhs => arg 2; rw [← hlen]
        rw [pwrite_length, List.take_add]
      rw [written, grown]
  | read | readAll => exact hw.elim

/-- One step of a call. -/
theorem under_next (h : op.Under c₀ x) {a : OpAct} (ha : op.Enabled x a) :
    op.Under c₀ (op.next x a) := by
  obtain ⟨phase, c⟩ := x
  cases a with
  | openFails e =>
      obtain rfl : phase = .opening := ha
      obtain rfl : c = c₀ := h
      cases op with
      | read | readAll => exact ⟨rfl, .inl ⟨e, rfl⟩⟩
      | write | writeAll | append => exact .inl ⟨e, rfl, .inl rfl⟩
  | opens =>
      obtain ⟨hp, hsome⟩ := ha
      obtain rfl : phase = .opening := hp
      obtain rfl : c = c₀ := h
      cases op with
      | read | write | append => rfl
      | readAll =>
          obtain ⟨file, hf⟩ := Option.isSome_iff_exists.mp (hsome rfl)
          exact ⟨rfl, file, hf, rfl⟩
      | writeAll data => exact ⟨Nat.zero_le _, rfl⟩
  | fails got put e =>
      obtain rfl : phase = .moving got put := ha
      exact effect_failed e h
  | reads got put file len b =>
      obtain ⟨hp, hc, hr⟩ := ha
      obtain rfl : phase = .moving got put := hp
      obtain rfl : c = some file := hc
      exact under_reads h hr
  | writes got put file n =>
      obtain ⟨hp, hc, hw⟩ := ha
      obtain rfl : phase = .moving got put := hp
      obtain rfl : c = some file := hc
      exact under_writes h hw
  | allWritten got put =>
      obtain ⟨hp, hw⟩ := ha
      obtain rfl : phase = .moving got put := hp
      cases op with
      | writeAll data =>
          obtain ⟨-, hc⟩ := h
          obtain rfl : put = data.length := hw
          rw [List.take_length] at hc
          exact .inr ⟨rfl, hc⟩
      | read | readAll | write | append => exact hw.elim

/-- A bound on the steps that are left. -/
def cost (op : FileOp) : OpPhase × Option Bytes → ℕ
  | (.opening, c) =>
      match op with
      | .readAll => (c.getD []).length + 2
      | .writeAll data => data.length + 2
      | .read _ _ | .write _ _ | .append _ => 2
  | (.moving got put, c) =>
      match op with
      | .readAll => (c.getD []).length - got.length + 1
      | .writeAll data => data.length - put + 1
      | .read _ _ | .write _ _ | .append _ => 1
  | (.finished _, _) => 0

/-- A call comes to its end: every step leaves less to do. -/
theorem cost_next {a : OpAct} (ha : op.Enabled x a) : op.cost (op.next x a) < op.cost x := by
  obtain ⟨phase, c⟩ := x
  cases a with
  | openFails e =>
      obtain rfl : phase = .opening := ha
      cases op <;> exact Nat.succ_pos _
  | opens =>
      obtain rfl : phase = .opening := ha.1
      cases op <;> simp [next, cost, opened]
  | fails got put e =>
      obtain rfl : phase = .moving got put := ha
      cases op <;> exact Nat.succ_pos _
  | reads got put file len b =>
      obtain ⟨hp, hc, hr⟩ := ha
      obtain rfl : phase = .moving got put := hp
      obtain rfl : c = some file := hc
      cases op with
      | readAll =>
          simp only [next, afterRead]
          split
          · exact Nat.succ_pos _
          · rename_i hb
            have hpos := List.length_pos_iff.mpr hb
            have hle := congrArg List.length hr.2.take_append
            simp only [List.length_append, List.length_take] at hle
            simp only [cost, Option.getD_some, List.length_append]
            omega
      | read | write | writeAll | append => exact Nat.succ_pos _
  | writes got put file n =>
      obtain ⟨hp, hc, hw⟩ := ha
      obtain rfl : phase = .moving got put := hp
      cases op with
      | writeAll data =>
          have := hw.1
          have := hw.2
          simp only [next, afterWrite, cost]
          omega
      | read | readAll | write | append => exact Nat.succ_pos _
  | allWritten got put =>
      obtain rfl : phase = .moving got put := ha.1
      cases op <;> exact Nat.succ_pos _

end FileOp

end RustIo
