import Mathlib.Algebra.Group.Nat.Defs
import Mathlib.Tactic.Common

/-!
# Words in memory

Memory as a function from addresses to bytes, and the 32-bit words it holds, the least
significant byte first.
-/

namespace UnixV7

/-- Bytes by their address. -/
abbrev Bytes := ℕ → UInt8

namespace Bytes

variable {m : Bytes} {i j v : ℕ}

/-- The word at index `i`. -/
def word (m : Bytes) (i : ℕ) : ℕ :=
  (m (4 * i)).toNat + 256 * (m (4 * i + 1)).toNat + 65536 * (m (4 * i + 2)).toNat +
    16777216 * (m (4 * i + 3)).toNat

/-- The memory with the word at index `i` set to `v`. -/
def setWord (m : Bytes) (i v : ℕ) : Bytes := fun a =>
  if a / 4 = i then UInt8.ofNat (v / 256 ^ (a % 4)) else m a

/-- The memory with `n` bytes from address `a` on replaced by those of `source`. -/
def splice (m : Bytes) (a n : ℕ) (source : ℕ → UInt8) : Bytes := fun x =>
  if a ≤ x ∧ x < a + n then source (x - a) else m x

theorem word_setWord_self (small : v < 2 ^ 32) : (m.setWord i v).word i = v := by
  have zero : 4 * i / 4 = i ∧ 4 * i % 4 = 0 := by omega
  have one : (4 * i + 1) / 4 = i ∧ (4 * i + 1) % 4 = 1 := by omega
  have two : (4 * i + 2) / 4 = i ∧ (4 * i + 2) % 4 = 2 := by omega
  have three : (4 * i + 3) / 4 = i ∧ (4 * i + 3) % 4 = 3 := by omega
  simp only [word, setWord, zero, one, two, three, if_true, UInt8.toNat_ofNat']
  omega

theorem word_setWord_of_ne (other : j ≠ i) : (m.setWord i v).word j = m.word j := by
  have zero : 4 * j / 4 ≠ i := by omega
  have one : (4 * j + 1) / 4 ≠ i := by omega
  have two : (4 * j + 2) / 4 ≠ i := by omega
  have three : (4 * j + 3) / 4 ≠ i := by omega
  simp only [word, setWord, if_neg zero, if_neg one, if_neg two, if_neg three]

@[simp] theorem word_zero (i : ℕ) : word (fun _ => 0) i = 0 := rfl

@[simp] theorem splice_zero (m : Bytes) (a : ℕ) (source : ℕ → UInt8) : m.splice a 0 source = m := by
  funext x
  simp only [splice]
  rw [if_neg (by omega)]

theorem splice_one (m : Bytes) (a : ℕ) (source : ℕ → UInt8) :
    (m.splice a 1 fun _ => source 0) = m.splice a 1 source := by
  funext x
  simp only [splice]
  split
  · congr 1
    omega
  · rfl

/-- Bytes spliced in behind others. -/
theorem splice_splice (m : Bytes) (a n k : ℕ) (source : ℕ → UInt8) :
    (m.splice a n source).splice (a + n) k (fun x => source (n + x)) =
      m.splice a (n + k) source := by
  funext x
  simp only [splice]
  by_cases behind : a + n ≤ x ∧ x < a + n + k
  · rw [if_pos behind, if_pos (by omega)]
    congr 1
    omega
  · rw [if_neg behind]
    by_cases front : a ≤ x ∧ x < a + n
    · rw [if_pos front, if_pos (by omega)]
    · rw [if_neg front, if_neg (by omega)]

end Bytes

end UnixV7
