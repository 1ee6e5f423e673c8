import Mathlib

/-!
# Words and bytes

Words of 32 bits as sequences of four bytes, in either byte order. `ByteOrder.ofBytes` reads four
bytes in memory order as a word, `ByteOrder.byteAt` reads the `k`-th byte in memory order back, and
the network conversions `hton`/`ntoh` are the two changes of order built from them. The facts used
elsewhere are the two round trips (`byteAt_ofBytes`, `ofBytes_byteAt`) and `ntoh_ofBytes`.
-/

namespace Thorium

/-- A byte. -/
abbrev Byte := BitVec 8

/-- A machine word. -/
abbrev Word := BitVec 32

/-- The order in which a host lays a word out in memory. -/
inductive ByteOrder where
  | little
  | big
  deriving DecidableEq, Repr

namespace ByteOrder

/-- The weight, as a power of two, of the byte stored at offset `k`. -/
def shift : ByteOrder → Nat → Nat
  | little, k => 8 * k
  | big, k => 8 * (3 - k)

/-- The `k`-th byte in memory order of a word. -/
def byteAt (o : ByteOrder) (w : Word) (k : Nat) : Byte :=
  BitVec.ofNat 8 (w.toNat / 2 ^ o.shift k)

/-- The word laid out in memory as `b0 b1 b2 b3`. -/
def ofBytes (o : ByteOrder) (b0 b1 b2 b3 : Byte) : Word :=
  BitVec.ofNat 32 (b0.toNat * 2 ^ o.shift 0 + b1.toNat * 2 ^ o.shift 1 +
    b2.toNat * 2 ^ o.shift 2 + b3.toNat * 2 ^ o.shift 3)

/-- Network to host conversion: the bytes in memory, read most significant first. -/
def ntoh (o : ByteOrder) (w : Word) : Word :=
  big.ofBytes (o.byteAt w 0) (o.byteAt w 1) (o.byteAt w 2) (o.byteAt w 3)

/-- Host to network conversion: the word whose bytes in memory are `w`, most significant first. -/
def hton (o : ByteOrder) (w : Word) : Word :=
  o.ofBytes (big.byteAt w 0) (big.byteAt w 1) (big.byteAt w 2) (big.byteAt w 3)

/-- Four bytes read as a word give the same bytes back. -/
lemma byteAt_ofBytes (o : ByteOrder) (b0 b1 b2 b3 : Byte) :
    o.byteAt (o.ofBytes b0 b1 b2 b3) 0 = b0 ∧ o.byteAt (o.ofBytes b0 b1 b2 b3) 1 = b1 ∧
      o.byteAt (o.ofBytes b0 b1 b2 b3) 2 = b2 ∧ o.byteAt (o.ofBytes b0 b1 b2 b3) 3 = b3 := by
  have h0 := b0.isLt
  have h1 := b1.isLt
  have h2 := b2.isLt
  have h3 := b3.isLt
  cases o with
  | little =>
    refine ⟨?_, ?_, ?_, ?_⟩ <;>
      (apply BitVec.eq_of_toNat_eq; simp only [byteAt, ofBytes, shift, BitVec.toNat_ofNat]; omega)
  | big =>
    refine ⟨?_, ?_, ?_, ?_⟩ <;>
      (apply BitVec.eq_of_toNat_eq; simp only [byteAt, ofBytes, shift, BitVec.toNat_ofNat]; omega)

/-- The four bytes of a word read back as the word. -/
lemma ofBytes_byteAt (o : ByteOrder) (w : Word) :
    o.ofBytes (o.byteAt w 0) (o.byteAt w 1) (o.byteAt w 2) (o.byteAt w 3) = w := by
  have h := w.isLt
  apply BitVec.eq_of_toNat_eq
  cases o <;> simp only [byteAt, ofBytes, shift, BitVec.toNat_ofNat] <;> omega

/-- Bytes read in host order and converted from the network are the bytes most significant first. -/
lemma ntoh_ofBytes (o : ByteOrder) (b0 b1 b2 b3 : Byte) :
    o.ntoh (o.ofBytes b0 b1 b2 b3) = big.ofBytes b0 b1 b2 b3 := by
  obtain ⟨h0, h1, h2, h3⟩ := byteAt_ofBytes o b0 b1 b2 b3
  rw [ntoh, h0, h1, h2, h3]

end ByteOrder

/-- The four bytes of a word, most significant first. -/
def Word.toBeBytes (w : Word) : List Byte :=
  [ByteOrder.big.byteAt w 0, ByteOrder.big.byteAt w 1, ByteOrder.big.byteAt w 2,
    ByteOrder.big.byteAt w 3]

/-- A word takes four bytes. -/
@[simp] lemma Word.length_toBeBytes (w : Word) : w.toBeBytes.length = 4 := rfl

end Thorium
