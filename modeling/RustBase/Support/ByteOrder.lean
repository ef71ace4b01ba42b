import Mathlib.Algebra.Group.Nat.Defs
import Mathlib.Data.List.Basic

/-!
# Support — byte order

Words of `w` bytes are numbers below `256 ^ w`.  `leBytes` and `ofLeBytes` go between a word and its
bytes, the least significant first; in network order the bytes are reversed.

A host keeps words in its own order (`Endian.bytes`, `Endian.ofBytes`).  `Endian.toBe` is the word
whose bytes on the host are those of the given one in network order (`bytes_toBe`), and the way back
is the same function (`toBe_toBe`).
-/

namespace Support

/-- The `w` bytes of a word, the least significant first. -/
def leBytes : ℕ → ℕ → List UInt8
  | 0, _ => []
  | w + 1, x => UInt8.ofNat x :: leBytes w (x / 256)

def ofLeBytes : List UInt8 → ℕ
  | [] => 0
  | b :: l => b.toNat + 256 * ofLeBytes l

/-- The `w` bytes of a word in network order. -/
def beBytes (w x : ℕ) : List UInt8 := (leBytes w x).reverse

def ofBeBytes (l : List UInt8) : ℕ := ofLeBytes l.reverse

@[simp] theorem length_leBytes (w x : ℕ) : (leBytes w x).length = w := by
  induction w generalizing x with
  | zero => rfl
  | succ w ih => simp [leBytes, ih]

@[simp] theorem length_beBytes (w x : ℕ) : (beBytes w x).length = w := by simp [beBytes]

theorem ofLeBytes_lt (l : List UInt8) : ofLeBytes l < 256 ^ l.length := by
  induction l with
  | nil => simp [ofLeBytes]
  | cons b l ih =>
      have hb := b.toNat_lt
      rw [ofLeBytes, List.length_cons, Nat.pow_succ]
      omega

theorem ofLeBytes_leBytes {w x : ℕ} (h : x < 256 ^ w) : ofLeBytes (leBytes w x) = x := by
  induction w generalizing x with
  | zero => simp [ofLeBytes, leBytes] at h ⊢; omega
  | succ w ih =>
      rw [Nat.pow_succ] at h
      rw [leBytes, ofLeBytes, ih (by omega), UInt8.toNat_ofNat']
      omega

theorem leBytes_ofLeBytes (l : List UInt8) : leBytes l.length (ofLeBytes l) = l := by
  induction l with
  | nil => rfl
  | cons b l ih =>
      have hb := b.toNat_lt
      have hdiv : (b.toNat + 256 * ofLeBytes l) / 256 = ofLeBytes l := by omega
      have hmod : UInt8.ofNat (b.toNat + 256 * ofLeBytes l) = b := by
        apply UInt8.toNat_inj.mp
        rw [UInt8.toNat_ofNat']
        omega
      rw [List.length_cons, ofLeBytes, leBytes, hdiv, hmod, ih]

theorem leBytes_of_length {l : List UInt8} {w : ℕ} (h : l.length = w) :
    leBytes w (ofLeBytes l) = l := by
  subst h
  exact leBytes_ofLeBytes l

theorem ofBeBytes_lt {l : List UInt8} {w : ℕ} (h : l.length = w) : ofBeBytes l < 256 ^ w := by
  have := ofLeBytes_lt l.reverse
  rwa [List.length_reverse, h] at this

theorem beBytes_of_length {l : List UInt8} {w : ℕ} (h : l.length = w) :
    beBytes w (ofBeBytes l) = l := by
  rw [beBytes, ofBeBytes, leBytes_of_length (by rw [List.length_reverse, h]), List.reverse_reverse]

/-! ### Hosts -/

inductive Endian where
  | little
  | big
  deriving DecidableEq

/-- `swap_bytes`. -/
def swapBytes (w x : ℕ) : ℕ := ofLeBytes (beBytes w x)

theorem swapBytes_lt (w x : ℕ) : swapBytes w x < 256 ^ w := by
  have := ofLeBytes_lt (beBytes w x)
  rwa [length_beBytes] at this

theorem leBytes_swapBytes (w x : ℕ) : leBytes w (swapBytes w x) = beBytes w x :=
  leBytes_of_length (length_beBytes w x)

theorem swapBytes_swapBytes {w x : ℕ} (h : x < 256 ^ w) : swapBytes w (swapBytes w x) = x := by
  rw [swapBytes, beBytes, leBytes_swapBytes, beBytes, List.reverse_reverse, ofLeBytes_leBytes h]

namespace Endian

/-- A word in memory: `to_ne_bytes`. -/
def bytes : Endian → ℕ → ℕ → List UInt8
  | .little => leBytes
  | .big => beBytes

/-- The word in memory: `from_ne_bytes`. -/
def ofBytes : Endian → List UInt8 → ℕ
  | .little => ofLeBytes
  | .big => ofBeBytes

/-- `to_be` and `from_be`. -/
def toBe : Endian → ℕ → ℕ → ℕ
  | .little, w, x => swapBytes w x
  | .big, _, x => x

variable (e : Endian) {w x : ℕ}

@[simp] theorem length_bytes (w x : ℕ) : (e.bytes w x).length = w := by
  cases e with
  | little => exact length_leBytes w x
  | big => exact length_beBytes w x

theorem ofBytes_lt {l : List UInt8} (h : l.length = w) : e.ofBytes l < 256 ^ w := by
  cases e with
  | little => exact h ▸ ofLeBytes_lt l
  | big => exact ofBeBytes_lt h

theorem toBe_lt (h : x < 256 ^ w) : e.toBe w x < 256 ^ w := by
  cases e with
  | little => exact swapBytes_lt w x
  | big => exact h

theorem bytes_ofBytes {l : List UInt8} (h : l.length = w) : e.bytes w (e.ofBytes l) = l := by
  cases e with
  | little => exact leBytes_of_length h
  | big => exact beBytes_of_length h

theorem ofBytes_bytes (h : x < 256 ^ w) : e.ofBytes (e.bytes w x) = x := by
  cases e with
  | little => exact ofLeBytes_leBytes h
  | big =>
      rw [ofBytes, bytes, ofBeBytes, beBytes, List.reverse_reverse]
      exact ofLeBytes_leBytes h

/-- What was made big-endian is in network order in memory, on every host. -/
theorem bytes_toBe (w x : ℕ) : e.bytes w (e.toBe w x) = beBytes w x := by
  cases e with
  | little => exact leBytes_swapBytes w x
  | big => rfl

theorem toBe_toBe (h : x < 256 ^ w) : e.toBe w (e.toBe w x) = x := by
  cases e with
  | little => exact swapBytes_swapBytes h
  | big => rfl

end Endian

end Support
