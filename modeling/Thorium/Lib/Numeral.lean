import Mathlib

/-!
# Numerals

Positional numerals with the most significant digit first, read from left to right: each digit multiplies what
has been read by the base and is added to it. `numeral_append` and `numeral_shift` say what is read of two
numerals one after another, and `numeral_digits` that every number has a numeral.
-/

namespace Thorium

variable {b n : Nat} {ds ds' : List Nat}

/-- The number that is read of some digits after `n`. -/
def numeral (b n : Nat) (ds : List Nat) : Nat := ds.foldl (fun n d => n * b + d) n

/-- No digits. -/
@[simp] lemma numeral_nil : numeral b n [] = n := rfl

/-- The first digit. -/
@[simp] lemma numeral_cons {d : Nat} : numeral b n (d :: ds) = numeral b (n * b + d) ds := rfl

/-- Digits one after the other. -/
lemma numeral_append : numeral b n (ds ++ ds') = numeral b (numeral b n ds) ds' := List.foldl_append

/-- What has been read is shifted by the digits after it. -/
lemma numeral_shift : numeral b n ds = n * b ^ ds.length + numeral b 0 ds := by
  induction ds generalizing n with
  | nil => simp
  | cons d ds ih =>
    rw [numeral_cons, numeral_cons, @ih (n * b + d), @ih (0 * b + d), List.length_cons, pow_succ]
    ring

/-- Mathlib's `Nat.ofDigits` begins with the least significant digit. -/
lemma numeral_eq_ofDigits : numeral b 0 ds = Nat.ofDigits b ds.reverse := by
  induction ds using List.reverseRecOn with
  | nil => rfl
  | append_singleton ds d ih =>
    rw [numeral_append, ih, List.reverse_append, List.reverse_singleton, List.singleton_append, Nat.ofDigits_cons]
    simp only [numeral_cons, numeral_nil]
    ring

/-- Every number has a numeral. -/
lemma numeral_digits (b n : Nat) : numeral b 0 (b.digits n).reverse = n := by
  rw [numeral_eq_ofDigits, List.reverse_reverse, Nat.ofDigits_digits]

end Thorium
