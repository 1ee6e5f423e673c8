import Mathlib

/-!
# Sets in arrays of words

A set of numbers is kept in an array of words of `w` bits: the number `n` is the bit `n % w` of the word
`n / w`. The changes of one word of the array are operations on the set, and so are the tests of a bit and
of a whole word.
-/

namespace Thorium

variable {w : Nat} {words words' : Nat → BitVec w} {n k : Nat}

/-- The set kept in an array of words. -/
def bitSet (words : Nat → BitVec w) : Set Nat := { n | (words (n / w)).getLsbD (n % w) = true }

/-- An array with another word at one index. -/
def setWordAt (words : Nat → BitVec w) (k : Nat) (word : BitVec w) : Nat → BitVec w :=
  fun i => if i = k then word else words i

/-- The numbers in one word have different bits. -/
lemma eq_of_div_mod {m n : Nat} (hdiv : m / w = n / w) (hmod : m % w = n % w) : m = n := by
  rw [← Nat.div_add_mod m w, ← Nat.div_add_mod n w, hdiv, hmod]

/-- The bits of a single bit. -/
lemma getLsbD_bit {j : Nat} (hj : j < w) : ((1 : BitVec w) <<< j).getLsbD k = decide (j = k) := by
  have h : (1 : BitVec w) <<< j = BitVec.twoPow w j := (BitVec.twoPow_eq w j).symm
  rw [h, BitVec.getLsbD_twoPow, decide_eq_true hj, Bool.true_and]

/-- The words of a set after a change of one of them. -/
lemma mem_setWordAt (words : Nat → BitVec w) (k : Nat) (word : BitVec w) (n : Nat) :
    n ∈ bitSet (setWordAt words k word) ↔ if n / w = k then word.getLsbD (n % w) = true else n ∈ bitSet words := by
  unfold bitSet setWordAt
  show ((if n / w = k then word else words (n / w)).getLsbD (n % w) = true) ↔ _
  split <;> exact Iff.rfl

section
variable (hw : 0 < w)
include hw

/-- Setting a bit inserts its number. -/
lemma bitSet_or (words : Nat → BitVec w) (n : Nat) :
    bitSet (setWordAt words (n / w) (words (n / w) ||| (1 : BitVec w) <<< (n % w))) = insert n (bitSet words) := by
  ext m
  rw [mem_setWordAt, Set.mem_insert_iff]
  split
  · rename_i hdiv
    rw [BitVec.getLsbD_or, getLsbD_bit (Nat.mod_lt n hw), Bool.or_eq_true, decide_eq_true_iff, or_comm]
    have heq : n % w = m % w ↔ m = n := ⟨fun h => eq_of_div_mod hdiv h.symm, fun h => h ▸ rfl⟩
    rw [heq, ← hdiv]
    exact Iff.rfl
  · rename_i hdiv
    have hne : m ≠ n := fun h => hdiv (h ▸ rfl)
    exact (or_iff_right hne).symm

/-- Clearing a bit removes its number. -/
lemma bitSet_and_not (words : Nat → BitVec w) (n : Nat) :
    bitSet (setWordAt words (n / w) (words (n / w) &&& ~~~((1 : BitVec w) <<< (n % w)))) = bitSet words \ {n} := by
  ext m
  have hm : m % w < w := Nat.mod_lt m hw
  rw [mem_setWordAt, Set.mem_sdiff, Set.mem_singleton_iff]
  split
  · rename_i hdiv
    rw [BitVec.getLsbD_and, BitVec.getLsbD_not, getLsbD_bit (Nat.mod_lt n hw), decide_eq_true hm, Bool.true_and,
      Bool.and_eq_true, Bool.not_eq_true', decide_eq_false_iff_not]
    have heq : n % w = m % w ↔ m = n := ⟨fun h => eq_of_div_mod hdiv h.symm, fun h => h ▸ rfl⟩
    rw [heq, ← hdiv]
    exact Iff.rfl
  · rename_i hdiv
    have hne : m ≠ n := fun h => hdiv (h ▸ rfl)
    exact (and_iff_left hne).symm

/-- The test of a bit. -/
lemma and_bit_ne_zero (words : Nat → BitVec w) (n : Nat) :
    words (n / w) &&& (1 : BitVec w) <<< (n % w) ≠ 0 ↔ n ∈ bitSet words := by
  have hbit : (1 : BitVec w) <<< (n % w) = BitVec.twoPow w (n % w) := (BitVec.twoPow_eq w _).symm
  have hne : BitVec.twoPow w (n % w) ≠ 0 := by
    intro h
    have h0 := congrArg (fun x : BitVec w => x.getLsbD (n % w)) h
    simp only [BitVec.getLsbD_twoPow, decide_eq_true (Nat.mod_lt n hw), decide_true, Bool.true_and] at h0
    exact absurd (h0.trans BitVec.getLsbD_zero) (by decide)
  rw [hbit, BitVec.and_twoPow]
  split
  · rename_i h
    exact ⟨fun _ => h, fun _ => hne⟩
  · rename_i h
    exact ⟨fun h0 => absurd rfl h0, fun hin => absurd hin h⟩

/-- The test of the bits of a word that are not in another. -/
lemma and_not_ne_zero (words masks : Nat → BitVec w) (k : Nat) :
    words k &&& ~~~masks k ≠ 0 ↔ ∃ n ∈ bitSet words \ bitSet masks, n / w = k := by
  constructor
  · intro h
    by_contra hno
    apply h
    apply BitVec.eq_of_getLsbD_eq
    intro j hj
    have hdiv : (k * w + j) / w = k := by
      rw [Nat.mul_comm, Nat.mul_add_div hw, Nat.div_eq_of_lt hj, Nat.add_zero]
    have hmod : (k * w + j) % w = j := by
      rw [Nat.mul_comm, Nat.mul_add_mod, Nat.mod_eq_of_lt hj]
    have hbit : ¬ ((words k).getLsbD j = true ∧ ¬ (masks k).getLsbD j = true) := by
      intro hb
      apply hno
      refine ⟨k * w + j, ?_, hdiv⟩
      show (words _).getLsbD _ = true ∧ ¬ (masks _).getLsbD _ = true
      rw [hdiv, hmod]
      exact hb
    have hzero : (0 : BitVec w).getLsbD j = false := BitVec.getLsbD_zero
    rw [BitVec.getLsbD_and, BitVec.getLsbD_not, decide_eq_true hj, hzero, Bool.true_and]
    cases hs : (words k).getLsbD j with
    | false => rfl
    | true =>
      cases hm : (masks k).getLsbD j with
      | false => exact absurd ⟨hs, by rw [hm]; exact Bool.false_ne_true⟩ hbit
      | true => rfl
  · rintro ⟨n, ⟨hs, hm⟩, rfl⟩ h
    have hmod : n % w < w := Nat.mod_lt n hw
    have hbit := congrArg (fun x : BitVec w => x.getLsbD (n % w)) h
    have hzero : (0 : BitVec w).getLsbD (n % w) = false := BitVec.getLsbD_zero
    have hs' : (words (n / w)).getLsbD (n % w) = true := hs
    have hm' : (masks (n / w)).getLsbD (n % w) = false := Bool.eq_false_iff.mpr hm
    simp only [BitVec.getLsbD_and, BitVec.getLsbD_not, decide_eq_true hmod, hs', hm', hzero] at hbit
    exact absurd hbit (by decide)

end

end Thorium
