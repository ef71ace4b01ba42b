import Mathlib.Data.List.Infix

/-!
# Support — FileContent

The content of a file as the list of its bytes, with the positional calls of the system.

`pwrite c off d` is the content after the bytes `d` were written at offset `off`: a write past the
end leaves a hole that reads as zeros, and a write of nothing changes nothing.  `Reads c off len bs`
says that a read of at most `len` bytes at `off` may return `bs`: any prefix of the bytes that are
there, but not the empty one unless nothing is there or nothing was asked for.  `Shows cs off bs`
says it of bytes that were read while the content was one after the other of `cs`.
-/

namespace Support

/-- The content of a file. -/
abbrev Bytes := List UInt8

/-- The number of an error of the system. -/
abbrev IoError := ℕ

variable {c d bs : Bytes} {off len : ℕ}

def pwrite (c : Bytes) (off : ℕ) (d : Bytes) : Bytes :=
  if d = [] then c
  else c.take off ++ List.replicate (off - c.length) 0 ++ d ++ c.drop (off + d.length)

/-- A write at the end appends. -/
theorem pwrite_length (c d : Bytes) : pwrite c c.length d = c ++ d := by
  unfold pwrite
  split
  · rename_i h
    rw [h, List.append_nil]
  · simp

theorem length_pwrite_le (c : Bytes) (off : ℕ) (d : Bytes) (h : off ≤ c.length) :
    (pwrite c off d).length = max c.length (off + d.length) := by
  unfold pwrite
  split
  · rename_i e
    simp only [e, List.length_nil]
    omega
  · simp only [List.length_append, List.length_take, List.length_replicate, List.length_drop]
    omega

@[simp] theorem pwrite_nil (c : Bytes) (off : ℕ) : pwrite c off [] = c := if_pos rfl

/-- Two writes, the second from where the first one ends, are one. -/
theorem pwrite_append (c : Bytes) (off : ℕ) (d e : Bytes) :
    pwrite (pwrite c off d) (off + d.length) e = pwrite c off (d ++ e) := by
  by_cases hd : d = []
  · subst hd
    simp
  by_cases he : e = []
  · subst he
    simp
  have front : (c.take off ++ List.replicate (off - c.length) 0).length = off := by
    simp only [List.length_append, List.length_take, List.length_replicate]
    omega
  have whole : (c.take off ++ List.replicate (off - c.length) 0 ++ d).length =
      off + d.length := by
    rw [List.length_append, front]
  have past : (c.take off ++ List.replicate (off - c.length) 0 ++ d).drop
      (off + d.length + e.length) = [] := List.drop_eq_nil_of_le (by rw [whole]; omega)
  simp only [pwrite, hd, he, List.append_eq_nil_iff, if_false, false_and]
  rw [List.take_left' whole, List.drop_append, past, whole, List.length_append, whole,
    Nat.add_sub_cancel_left]
  simp [Nat.add_assoc]

/-- What a read may return. -/
def Reads (c : Bytes) (off len : ℕ) (bs : Bytes) : Prop :=
  bs <+: (c.drop off).take len ∧ (bs = [] → (c.drop off).take len = [])

instance : Decidable (Reads c off len bs) := inferInstanceAs (Decidable (_ ∧ (_ → _)))

namespace Reads

theorem eq_take (h : Reads c off len bs) : bs = (c.drop off).take bs.length := by
  obtain ⟨t, ht⟩ := h.1
  have hb : bs = ((c.drop off).take len).take bs.length := by rw [← ht]; simp
  rw [List.take_take, Nat.min_eq_left] at hb
  · exact hb
  · have := congrArg List.length ht
    simp only [List.length_append, List.length_take] at this
    omega

/-- The bytes before the offset and those read are a prefix of the content. -/
theorem take_append (h : Reads c off len bs) : c.take off ++ bs = c.take (off + bs.length) := by
  conv_lhs => rw [h.eq_take]
  rw [List.take_add]

/-- Nothing is read only at the end. -/
theorem end_of_empty (h : Reads c off len []) (hl : 0 < len) : c.length ≤ off := by
  have e := h.2 rfl
  rcases List.take_eq_nil_iff.mp e with hz | hd
  · omega
  · exact List.drop_eq_nil_iff.mp hd

end Reads

/-- Each of the bytes was the file's at its position, from `off` on, in one of the contents. -/
def Shows (cs : List Bytes) (off : ℕ) (bs : Bytes) : Prop :=
  ∀ k b, bs[k]? = some b → ∃ content ∈ cs, content[off + k]? = some b

namespace Shows

variable {cs : List Bytes}

theorem nil : Shows cs off [] := by
  intro k b hk
  cases hk

theorem mono {cs' : List Bytes} (h : Shows cs off bs) (hs : ∀ c ∈ cs, c ∈ cs') :
    Shows cs' off bs := by
  intro k b hk
  obtain ⟨c, hc, hb⟩ := h k b hk
  exact ⟨c, hs c hc, hb⟩

theorem append (h₁ : Shows cs off bs) (h₂ : Shows cs (off + bs.length) d) :
    Shows cs off (bs ++ d) := by
  intro k b hk
  by_cases hl : k < bs.length
  · rw [List.getElem?_append_left hl] at hk
    exact h₁ k b hk
  · rw [List.getElem?_append_right (Nat.le_of_not_lt hl)] at hk
    obtain ⟨c, hc, hb⟩ := h₂ _ b hk
    have e : off + bs.length + (k - bs.length) = off + k := by omega
    exact ⟨c, hc, e ▸ hb⟩

theorem left (h : Shows cs off (bs ++ d)) : Shows cs off bs := by
  intro k b hk
  refine h k b ?_
  obtain ⟨hl, -⟩ := List.getElem?_eq_some_iff.mp hk
  rwa [List.getElem?_append_left hl]

theorem of_reads (hc : c ∈ cs) (h : Reads c off len bs) : Shows cs off bs := by
  intro k b hk
  rw [h.eq_take, List.getElem?_take] at hk
  split at hk
  · rw [List.getElem?_drop] at hk
    exact ⟨c, hc, hk⟩
  · cases hk

end Shows

end Support
