import Thorium.Isa.Table

/-!
# Tokens and nodes

The data types of the assembler: the tokens of `src/asm/lexer.rs`, the nodes of `src/asm/parser.rs`
and the hash maps both use. A `Token` is factored into its position and its `Kind`, since only error
messages look at positions.

The assembler is the one `make tha` builds, with overflow checks: an arithmetic overflow, like an
`unwrap` of `None`, stops the program. Such a stop is `none` in `Option`; a Rust `Result` is `Except`.
-/

namespace Thorium.Asm
open Thorium.Isa

/-- `HashMap<String, _>`, by what `get` returns. -/
abbrev HashMap (α : Type) := String → Option α

/-- `HashMap::new`. -/
def HashMap.new {α : Type} : HashMap α := fun _ => none

/-- `HashMap::insert`. -/
def HashMap.insert {α : Type} (m : HashMap α) (k : String) (v : α) : HashMap α :=
  fun k' => if k' = k then some v else m k'

/-- `HashMap::contains_key`. -/
def HashMap.containsKey {α : Type} (m : HashMap α) (k : String) : Bool := (m k).isSome

/-- A new map is empty. -/
@[simp] lemma HashMap.new_apply {α : Type} (k : String) : (HashMap.new : HashMap α) k = none := rfl

/-- `+` on `u32`: an overflow panics. -/
def checkedAdd (x y : Word) : Option Word :=
  if x.toNat + y.toNat < 2 ^ 32 then some (x + y) else none

/-- A sum that does not panic is the sum of the numbers. -/
lemma checkedAdd_eq_some {x y z : Word} (h : checkedAdd x y = some z) :
    z.toNat = x.toNat + y.toNat := by
  unfold checkedAdd at h
  split at h
  · cases h
    rw [BitVec.toNat_add]
    omega
  · cases h

/-- `Position` (`lexer.rs`). Both fields are `u16`. -/
structure Position where
  line : Nat
  column : Nat
  deriving DecidableEq, Repr

/-- `fmt::Display for Position`. -/
def Position.display (p : Position) : String := s!"{p.line}:{p.column}"

/-- `AddressKind`, of `lexer.rs` and of `parser.rs`. -/
inductive AddressKind where
  | absolute
  | segment
  deriving DecidableEq, Repr

/-- What a token is, apart from its position. -/
inductive Kind where
  | address (name : String) (kind : AddressKind)
  | comma
  | rbracket
  | lbracket
  | plus
  | directive (name : String)
  | equal
  | eol
  | identifier (name : String)
  | integer (value : Word)
  | label (name : String)
  | op (name : String)
  | section (name : String)
  | variable (name : String)
  deriving DecidableEq, Repr

/-- `Token` (`lexer.rs`). -/
structure Token where
  position : Position
  kind : Kind
  deriving DecidableEq, Repr

/-- An item of the lexer's iterator. -/
abbrev Item := Except String Token

/-- `Directive` (`parser.rs`). The `i32` of `Word` is kept as its 32 bits. -/
inductive Directive where
  | base (address : Word)
  | word (name : String) (value : Word)
  deriving DecidableEq, Repr

/-- `Instruction` (`parser.rs`). -/
inductive Instruction where
  | I (op : Op)
  | IA (op : Op) (a : String) (kind : AddressKind)
  | IB (op : Op) (b : Byte)
  | IR (op : Op) (r : String)
  | IRA (op : Op) (r : String) (a : String) (kind : AddressKind)
  | IRW (op : Op) (r : String) (w : Word)
  | IRR (op : Op) (r1 r2 : String)
  | IRRR (op : Op) (r1 r2 r3 : String)
  | IRRW (op : Op) (r1 r2 : String) (w : Word)
  | IW (op : Op) (w : Word)
  deriving DecidableEq, Repr

/-- `Instruction::op`. -/
def Instruction.op : Instruction → Op
  | I op => op
  | IA op _ _ => op
  | IB op _ => op
  | IR op _ => op
  | IRA op _ _ _ => op
  | IRW op _ _ => op
  | IRR op _ _ => op
  | IRRR op _ _ _ => op
  | IRRW op _ _ _ => op
  | IW op _ => op

/-- `Node` (`parser.rs`). -/
inductive Node where
  | directive (d : Directive)
  | instruction (i : Instruction)
  | label (name : String)
  deriving DecidableEq, Repr

end Thorium.Asm
