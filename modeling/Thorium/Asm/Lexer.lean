import Thorium.Asm.Syntax

/-!
# The assembler's lexer

Model of `src/asm/lexer.rs`. `Lexer.next` is the iterator; `tokenize` is the sequence of items it
yields over a text. The loops that peek and consume one character at a time (`identifier`, `op`,
`parse_hex`, `parse_bin`, `parse_dec`) are `scan` with what each of them accepts.

`Position` counts in `u16` and panics on overflow, so every function that consumes a character
returns in `Option`, and a `Stream` records whether lexing on after its items panics.
-/

namespace Thorium.Asm

/-- `char::is_numeric` outside ASCII (the Unicode categories Nd, Nl and No). -/
class Unicode where
  numeric : Char → Bool

variable [Unicode]

/-- `char::is_numeric`. -/
def isNumeric (c : Char) : Bool := c.isDigit || (decide (128 ≤ c.toNat) && Unicode.numeric c)

/-- `char::is_whitespace` (the Unicode property White_Space). -/
def isWhitespace (c : Char) : Bool :=
  let n := c.toNat
  (9 ≤ n && n ≤ 13) || n == 0x20 || n == 0x85 || n == 0xA0 || n == 0x1680 ||
    (0x2000 ≤ n && n ≤ 0x200A) || n == 0x2028 || n == 0x2029 || n == 0x202F || n == 0x205F ||
    n == 0x3000

/-- The value of a digit in any radix up to 16. -/
def digitValue (c : Char) : Option Nat :=
  if c.isDigit then some (c.toNat - '0'.toNat)
  else if 'a' ≤ c ∧ c ≤ 'f' then some (c.toNat - 'a'.toNat + 10)
  else if 'A' ≤ c ∧ c ≤ 'F' then some (c.toNat - 'A'.toNat + 10)
  else none

/-- `char::is_ascii_hexdigit`. -/
def isHexDigit (c : Char) : Bool := (digitValue c).isSome

/-- The number a list of digits denotes after `value`. -/
def digitsValue (radix value : Nat) : List Char → Option Nat
  | [] => some value
  | c :: cs =>
    match digitValue c with
    | some d => if d < radix then digitsValue radix (value * radix + d) cs else none
    | none => none

/-- `u32::from_str_radix`, and `u32::from_str` for radix 10, without the leading `+` both allow. -/
def fromStrRadix (radix : Nat) (int : List Char) : Option Word :=
  if int.isEmpty then none
  else match digitsValue radix 0 int with
    | some n => if n < 2 ^ 32 then some (BitVec.ofNat 32 n) else none
    | none => none

/-- `Lexer`. -/
structure Lexer where
  rawData : List Char
  position : Position
  deriving DecidableEq, Repr

/-- `Lexer::from_text`. -/
def Lexer.fromText (text : String) : Lexer := ⟨text.toList, ⟨1, 1⟩⟩

/-- The change of position in `next_char`. -/
def Position.advance (p : Position) : Option Char → Option Position
  | some '\n' => if p.line + 1 < 2 ^ 16 then some ⟨p.line + 1, 1⟩ else none
  | _ => if p.column + 1 < 2 ^ 16 then some ⟨p.line, p.column + 1⟩ else none

/-- Consume characters for as long as the next one is accepted. -/
def scan (accept : List Char → Char → Option (List Char)) (acc : List Char) :
    List Char → Position → Option (List Char × Lexer)
  | [], p => some (acc, ⟨[], p⟩)
  | c :: cs, p =>
    match accept acc c with
    | none => some (acc, ⟨c :: cs, p⟩)
    | some acc => (p.advance (some c)).bind fun p => scan accept acc cs p

/-- What the loop of `identifier` accepts. -/
def acceptIdentifier (identifier : List Char) (c : Char) : Option (List Char) :=
  if c.isLower then some (identifier ++ [c])
  else if !identifier.isEmpty && (c.isAlphanum || c == '_') then some (identifier ++ [c])
  else none

/-- What the loop of `op` accepts. -/
def acceptOp (op : List Char) (c : Char) : Option (List Char) :=
  if c.isUpper || c.isDigit || c == '_' then some (op ++ [c]) else none

/-- What the loop of `parse_hex` accepts. -/
def acceptHex (int : List Char) (c : Char) : Option (List Char) :=
  if c == '_' then some int else if isHexDigit c then some (int ++ [c]) else none

/-- What the loop of `parse_bin` accepts. -/
def acceptBin (int : List Char) (c : Char) : Option (List Char) :=
  if c == '_' then some int
  else if c == '0' then some (int ++ ['0'])
  else if c == '1' then some (int ++ ['1'])
  else none

/-- What the loop of `parse_dec` accepts. -/
def acceptDec (int : List Char) (c : Char) : Option (List Char) :=
  if c == '_' then some int else if isNumeric c then some (int ++ [c]) else none

/-- `Lexer::identifier`; `none` is the `'\0'` of the source. -/
def Lexer.identifier (lx : Lexer) (c : Option Char) : Option (String × Lexer) :=
  (scan acceptIdentifier c.toList lx.rawData lx.position).map fun (s, lx) => (String.ofList s, lx)

/-- `Lexer::op`. -/
def Lexer.op (lx : Lexer) (c : Char) : Option (String × Lexer) :=
  (scan acceptOp [c] lx.rawData lx.position).map fun (s, lx) => (String.ofList s, lx)

/-- The end of `parse_hex`, `parse_bin` and `parse_dec`. -/
def readDigits (radix : Nat) (expected invalid : String) (int : List Char) (p : Position) :
    Except String Word :=
  if int.isEmpty then .error s!"{expected} at {p.display}"
  else match fromStrRadix radix int with
    | some w => .ok w
    | none => .error s!"{invalid} at {p.display}"

/-- `parse_hex`, after the `x`. -/
def Lexer.parseHex (lx : Lexer) : Option (Except String Word × Lexer) :=
  (scan acceptHex [] lx.rawData lx.position).map fun (int, lx) =>
    (readDigits 16 "Expected 0x[0-9A-Fa-z]+" "Not a valid binary number" int lx.position, lx)

/-- `parse_bin`, after the `b`. -/
def Lexer.parseBin (lx : Lexer) : Option (Except String Word × Lexer) :=
  (scan acceptBin [] lx.rawData lx.position).map fun (int, lx) =>
    (readDigits 2 "Expected 0b[0,1]+" "Not a valid binary number" int lx.position, lx)

/-- `parse_dec`. The list of digits starts with `c`, so the message for no digits is never used. -/
def Lexer.parseDec (lx : Lexer) (c : Char) : Option (Except String Word × Lexer) :=
  (scan acceptDec [c] lx.rawData lx.position).map fun (int, lx) =>
    (readDigits 10 "" "Not a valid number" int lx.position, lx)

/-- `Lexer::number`. -/
def Lexer.number (lx : Lexer) (c : Char) : Option (Except String Word × Lexer) :=
  if c = '0' then
    match lx.rawData with
    | 'x' :: cs => (lx.position.advance (some 'x')).bind fun p => Lexer.parseHex ⟨cs, p⟩
    | 'b' :: cs => (lx.position.advance (some 'b')).bind fun p => Lexer.parseBin ⟨cs, p⟩
    | _ => lx.parseDec c
  else lx.parseDec c

/-- The inner loop of `next` on a comment, to the end of its line or of the text. -/
def skipComment : List Char → Position → Option Lexer
  | [], p => (p.advance none).map fun p => ⟨[], p⟩
  | c :: cs, p => (p.advance (some c)).bind fun p =>
    if c = '\n' then some ⟨cs, p⟩ else skipComment cs p

/-- The arm of `next` for a `/` at `position`. -/
def slash (position : Position) (cs : List Char) (p : Position) : Option (Option Item × Lexer) :=
  (p.advance cs.head?).bind fun p =>
    match cs with
    | '/' :: cs => (skipComment cs p).map fun lx => (some (.ok ⟨position, .eol⟩), lx)
    | cs => some (some (.error s!"Unexpected `/` at {p.display}"), ⟨cs.tail, p⟩)

/-- The arm of `next` for a character that starts a token. -/
def startToken (position : Position) (c : Char) (lx : Lexer) : Option (Option Item × Lexer) :=
  let token (k : Kind) : Option Item := some (.ok ⟨position, k⟩)
  if c = '&' then (lx.identifier none).map fun (s, lx) => (token (.address s .absolute), lx)
  else if c = '@' then (lx.identifier none).map fun (s, lx) => (token (.address s .segment), lx)
  else if c = '#' then (lx.identifier none).map fun (s, lx) => (token (.directive s), lx)
  else if c.isLower then (lx.identifier c).map fun (s, lx) => (token (.identifier s), lx)
  else if c.isDigit then (lx.number c).map fun (n, lx) =>
    (some (n.map fun n => ⟨position, .integer n⟩), lx)
  else if c = ':' then (lx.identifier none).map fun (s, lx) => (token (.label s), lx)
  else if c.isUpper then (lx.op c).map fun (s, lx) => (token (.op s), lx)
  else if c = '.' then (lx.identifier none).map fun (s, lx) => (token (.section s), lx)
  else if c = '$' then (lx.identifier c).map fun (s, lx) => (token (.variable s), lx)
  else some (some (.error s!"Unexpected `{c}`"), lx)

/-- `Lexer::next` on the remaining text and the current position. -/
def nextItem : List Char → Position → Option (Option Item × Lexer)
  | [], position => (position.advance none).map fun p => (none, ⟨[], p⟩)
  | c :: cs, position => (position.advance (some c)).bind fun p =>
    let token (k : Kind) : Option (Option Item × Lexer) :=
      some (some (.ok ⟨position, k⟩), ⟨cs, p⟩)
    if c = '/' then slash position cs p
    else if c = ',' then token .comma
    else if c = '\n' then token .eol
    else if c = '=' then token .equal
    else if c = '[' then token .lbracket
    else if c = ']' then token .rbracket
    else if c = '+' then token .plus
    else if isWhitespace c then nextItem cs p
    else startToken position c ⟨cs, p⟩

/-- `Lexer::next`. -/
def Lexer.next (lx : Lexer) : Option (Option Item × Lexer) := nextItem lx.rawData lx.position

/-- The items a lexer yields, and whether it panics after the last of them. -/
structure Stream where
  items : List Item
  aborts : Bool
  deriving DecidableEq

/-- The items of a lexer, at most `fuel` of them. -/
def Lexer.streamFuel : Nat → Lexer → Stream
  | 0, _ => ⟨[], false⟩
  | fuel + 1, lx =>
    match lx.next with
    | none => ⟨[], true⟩
    | some (none, _) => ⟨[], false⟩
    | some (some item, lx) =>
      let s := streamFuel fuel lx
      ⟨item :: s.items, s.aborts⟩

/-- The items of a lexer. Each consumes a character, so the fuel suffices (`Lexer.stream_eq`). -/
def Lexer.stream (lx : Lexer) : Stream := lx.streamFuel (lx.rawData.length + 1)

/-- The items of a text. -/
def tokenize (text : String) : Stream := (Lexer.fromText text).stream

end Thorium.Asm
