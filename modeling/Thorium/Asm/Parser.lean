import Thorium.Asm.Lexer
import Thorium.Lib.Run

/-!
# The assembler's parser

Model of `src/asm/parser.rs`. `ParserM` is the state of `Parser` (`PeekableNth` over the lexer's
items, the symbols and the nodes); a panic is `none`. `peek_nth(n)` looks at the `n`-th upcoming item
without consuming it.

Every `parse_*` function first looks ahead, item by item, and returns the message of the first item
that does not fit; only then does it consume. The looking ahead is `lookAhead` on a list of `Check`s,
one for each `if !self.peek_…(…)` of the source, in order.
-/

namespace Thorium.Asm
open Thorium.Isa

/-- `Parser`. -/
structure Parser where
  lexer : Stream
  symbols : HashMap Token
  nodes : List Node

/-- Functions of `Parser`. -/
abbrev ParserM := Run Parser

/-- Functions of `Parser` that return a `Result`. -/
abbrev ParserR := ExceptT String ParserM

/-- `PeekableNth::peek_nth`. -/
def peekNth (n : Nat) : ParserM (Option Item) := fun self =>
  if n < self.lexer.items.length then some (self.lexer.items[n]?, self)
  else if self.lexer.aborts then none
  else some (none, self)

/-- `self.lexer.next()`. -/
def lexerNext : ParserM (Option Item) := fun self =>
  match self.lexer.items with
  | item :: items => some (some item, { self with lexer := ⟨items, self.lexer.aborts⟩ })
  | [] => if self.lexer.aborts then none else some (none, self)

/-- The kind of a peeked item, when it is a token. -/
def itemKind : Option Item → Option Kind
  | some (.ok token) => some token.kind
  | _ => none

/-! ### peek -/

/-- What the items of an operand list are checked for. -/
inductive Slot where
  | register
  | comma
  | lbracket
  | rbracket
  | plus
  | absAddress
  | segAddress
  | word
  | var
  | eol
  deriving DecidableEq, Repr

/-- The test of a `peek_*` function on an item. -/
def Slot.fits : Slot → Option Kind → Bool
  | register, some (.identifier _) => true
  | comma, some .comma => true
  | lbracket, some .lbracket => true
  | rbracket, some .rbracket => true
  | plus, some .plus => true
  | absAddress, some (.address _ .absolute) => true
  | segAddress, some (.address _ .segment) => true
  | word, some (.integer _) => true
  | var, some (.variable _) => true
  | eol, some .eol => true
  | _, _ => false

/-- `peek_comma`, `peek_lbracket`, `peek_rbracket`, `peek_variable`, `peek_register`, `peek_word`,
`peek_abs_address`, `peek_seg_address` and `peek_eol`. -/
def peekSlot (slot : Slot) (n : Nat) : ParserM Bool := do
  return slot.fits (itemKind (← peekNth n))

/-- The condition of one `if` before an error is returned. -/
inductive Check where
  /-- `!self.peek_slot(n)` -/
  | one (slot : Slot) (n : Nat)
  /-- `!self.peek_word(n) && !self.peek_variable(v)` -/
  | wordOrVar (n v : Nat)
  deriving DecidableEq, Repr

/-- Whether a check is passed. -/
def Check.holds : Check → ParserM Bool
  | one slot n => peekSlot slot n
  | wordOrVar n v => do
    if ← peekSlot .word n then return true
    peekSlot .var v

/-- A sequence of checks with the message of each. -/
def lookAhead (position : Position) : List (Check × String) → ParserR Unit
  | [] => return ()
  | (check, message) :: checks => do
    unless ← check.holds do
      throw s!"{message} at {position.display}"
    lookAhead position checks

/-! ### read -/

/-- `read_next`. -/
def readNext : ParserM (Option Token) := do
  match ← lexerNext with
  | some (.ok token) => return some token
  | _ => return none

/-- `read_comma`, `read_lbracket` and `read_rbracket`. -/
def readSlot (slot : Slot) : ParserM Bool := do
  return slot.fits (itemKind (← lexerNext))

/-- `read_register().unwrap()`. -/
def readRegister : ParserM String := do
  match itemKind (← lexerNext) with
  | some (.identifier r) => return r
  | _ => Run.stop

/-- `read_address().unwrap()`. -/
def readAddress : ParserM (String × AddressKind) := do
  match itemKind (← lexerNext) with
  | some (.address a kind) => return (a, kind)
  | _ => Run.stop

/-- `read_eol`. -/
def readEol : ParserM Bool := do
  match ← readNext with
  | some ⟨_, .eol⟩ => return true
  | _ => return false

/-- The value of a symbol, when it is an integer. -/
def HashMap.integer (symbols : HashMap Token) (name : String) : Option Word :=
  match symbols name with
  | some ⟨_, .integer w⟩ => some w
  | _ => none

/-- The `match self.read_next().unwrap()` on an integer or a variable. -/
def readWord (position : Position) : ParserR Word := do
  match ← readNext with
  | none => (Run.stop : ParserM Word)
  | some ⟨_, .integer w⟩ => return w
  | some ⟨_, .variable name⟩ =>
    match (← get).symbols.integer name with
    | some w => return w
    | none => throw s!"Unknown variable '{name}' at {position.display}"
  | some _ => throw s!"Unexpected token at {position.display}"

/-! ### parse -/

/-- `parse_aa`: `<&-addr> <eol>`. -/
def parseAA (position : Position) : ParserR String := do
  lookAhead position [(.one .absAddress 0, "<&-addr>"), (.one .eol 1, "<eol>")]
  let a1 ← readAddress
  discard readEol
  return a1.1

/-- `parse_as`: `<@-addr> <eol>`. -/
def parseAS (position : Position) : ParserR String := do
  lookAhead position [(.one .segAddress 0, "<@-addr>"), (.one .eol 1, "<eol>")]
  let a1 ← readAddress
  discard readEol
  return a1.1

/-- `parse_aar`: `<&-addr> ',' <r> <eol>`. -/
def parseAAR (position : Position) : ParserR (String × String) := do
  lookAhead position [(.one .absAddress 0, "<&-addr>"), (.one .comma 1, "','"),
    (.one .register 2, "<r>"), (.one .eol 3, "<eol>")]
  let a1 ← readAddress
  discard (readSlot .comma)
  let r1 ← readRegister
  discard readEol
  return (a1.1, r1)

/-- `parse_r`: `<r> <eol>`. -/
def parseR (position : Position) : ParserR String := do
  lookAhead position [(.one .register 0, "<r>"), (.one .eol 1, "<eol>")]
  let r1 ← readRegister
  discard readEol
  return r1

/-- `parse_raa`: `<r> ',' <&-addr> <eol>`. -/
def parseRAA (position : Position) : ParserR (String × String) := do
  lookAhead position [(.one .register 0, "<r> ',' <&-addr> <eol>"),
    (.one .comma 1, "',' <&-addr> <eol>"), (.one .absAddress 2, "<&-addr> <eol>"),
    (.one .eol 3, "<eol>")]
  let r1 ← readRegister
  discard (readSlot .comma)
  let a1 ← readAddress
  discard readEol
  return (r1, a1.1)

/-- `parse_ras`: `<r> ',' <@-addr> <eol>`. -/
def parseRAS (position : Position) : ParserR (String × String) := do
  lookAhead position [(.one .register 0, "<r> ',' <@-addr> <eol>"),
    (.one .comma 1, "',' <@-addr> <eol>"), (.one .segAddress 2, "<@-addr> <eol>"),
    (.one .eol 3, "<eol>")]
  let r1 ← readRegister
  discard (readSlot .comma)
  let a1 ← readAddress
  discard readEol
  return (r1, a1.1)

/-- `parse_ro`: `<r> ',' '[' <r> '+' ( <w> | <var> ) ']' <eol>`. The variable is looked for at 3. -/
def parseRO (position : Position) : ParserR (String × String × Word) := do
  lookAhead position [
    (.one .register 0, "<r> ',' '[' <r> '+' ( <w> | <var> ) ']' <eol>"),
    (.one .comma 1, "',' '[' <r> '+' ( <w> | <var> ) ']' <eol>"),
    (.one .lbracket 2, "'[' <r> '+' ( <w> | <var> ) ']' <eol>"),
    (.one .register 3, "<r> '+' ( <w> | <var> ) ']' <eol>"),
    (.one .plus 4, "'+' ( <w> | <var> ) ']' <eol>"),
    (.wordOrVar 5 3, "( <w> | <var> ) ']' <eol>"),
    (.one .rbracket 6, "']' <eol>"),
    (.one .eol 7, "<eol>")]
  let r1 ← readRegister
  discard (readSlot .comma)
  discard (readSlot .lbracket)
  let r2 ← readRegister
  discard readNext
  let o1 ← readWord position
  discard (readSlot .rbracket)
  discard readEol
  return (r1, r2, o1)

/-- `parse_rr`: `<r> ',' <r> <eol>`. -/
def parseRR (position : Position) : ParserR (String × String) := do
  lookAhead position [(.one .register 0, "<r> ',' <r> <eol>"), (.one .comma 1, "',' <r> <eol>"),
    (.one .register 2, "<r> <eol>"), (.one .eol 3, "<eol>")]
  let r1 ← readRegister
  discard (readSlot .comma)
  let r2 ← readRegister
  discard readEol
  return (r1, r2)

/-- `parse_rw`: `<r> ',' ( <w> | <var> ) <eol>`. -/
def parseRW (position : Position) : ParserR (String × Word) := do
  lookAhead position [(.one .register 0, "<r> ',' ( <w> | <var> ) <eol>"),
    (.one .comma 1, "',' ( <w> | <var> ) <eol>"), (.wordOrVar 2 2, "( <w> | <var> ) <eol>"),
    (.one .eol 3, "<eol>")]
  let r1 ← readRegister
  discard (readSlot .comma)
  let w1 ← readWord position
  discard readEol
  return (r1, w1)

/-- `parse_rrr`: `<r> ',' <r> ',' <r> <eol>`. -/
def parseRRR (position : Position) : ParserR (String × String × String) := do
  lookAhead position [(.one .register 0, "<r>"), (.one .comma 1, "','"), (.one .register 2, "<r>"),
    (.one .comma 3, "','"), (.one .register 4, "<r>"), (.one .eol 5, "<eol>")]
  let r1 ← readRegister
  discard (readSlot .comma)
  let r2 ← readRegister
  discard (readSlot .comma)
  let r3 ← readRegister
  discard readEol
  return (r1, r2, r3)

/-- `parse_w`: `( <w> | <var> ) <eol>`. -/
def parseW (position : Position) : ParserR Word := do
  lookAhead position [(.wordOrVar 0 0, "<w> or <var>"), (.one .eol 1, "<eol>")]
  let w1 ← readWord position
  discard readEol
  return w1

/-- `parse_wr`: `( <w> | <var> ) ',' <r> <eol>`. -/
def parseWR (position : Position) : ParserR (Word × String) := do
  lookAhead position [(.wordOrVar 0 0, "<w> or <var>"), (.one .comma 1, "','"),
    (.one .register 2, "<r>"), (.one .eol 3, "<eol>")]
  let w1 ← readWord position
  discard (readSlot .comma)
  let r1 ← readRegister
  discard readEol
  return (w1, r1)

/-! ### op -/

/-- `op_aa`. -/
def opAA (op : Op) (position : Position) : ParserR Instruction := do
  return .IA op (← parseAA position) .absolute

/-- `op_as`. -/
def opAS (op : Op) (position : Position) : ParserR Instruction := do
  return .IA op (← parseAS position) .segment

/-- `op_aar`. -/
def opAAR (op : Op) (position : Position) : ParserR Instruction := do
  let (a1, r1) ← parseAAR position
  return .IRA op r1 a1 .absolute

/-- `op_b`. -/
def opB (op : Op) (position : Position) : ParserR Instruction := do
  let w1 ← ExceptT.adapt (fun e => s!"Expected {e}") (parseW position)
  if w1.toNat ≤ 255 then return .IB op (w1.setWidth 8)
  throw s!"Expected <b> at {position.display}"

/-- `op_r`. -/
def opR (op : Op) (position : Position) : ParserR Instruction := do
  return .IR op (← parseR position)

/-- `op_raa`. -/
def opRAA (op : Op) (position : Position) : ParserR Instruction := do
  let (r1, a1) ← parseRAA position
  return .IRA op r1 a1 .absolute

/-- `op_ras`. -/
def opRAS (op : Op) (position : Position) : ParserR Instruction := do
  let (r1, a1) ← parseRAS position
  return .IRA op r1 a1 .segment

/-- `op_ro`. -/
def opRO (op : Op) (position : Position) : ParserR Instruction := do
  let (r1, r2, o1) ← parseRO position
  return .IRRW op r1 r2 o1

/-- `op_rr`. -/
def opRR (op : Op) (position : Position) : ParserR Instruction := do
  let (r1, r2) ← parseRR position
  return .IRR op r1 r2

/-- `op_rw`. -/
def opRW (op : Op) (position : Position) : ParserR Instruction := do
  let (r1, w1) ← parseRW position
  return .IRW op r1 w1

/-- `op_rrr`. -/
def opRRR (op : Op) (position : Position) : ParserR Instruction := do
  let (r1, r2, r3) ← parseRRR position
  return .IRRR op r1 r2 r3

/-- `op_void`. -/
def opVoid (op : Op) (position : Position) : ParserR Instruction := do
  if ← readEol then return .I op
  throw s!"Expected <eol> at {position.display}"

/-- `op_w`. -/
def opW (op : Op) (position : Position) : ParserR Instruction := do
  return .IW op (← parseW position)

/-- `op_wr`. -/
def opWR (op : Op) (position : Position) : ParserR Instruction := do
  let (w1, r1) ← parseWR position
  return .IRW op r1 w1

/-- The alternatives named in `parse_instruction`. -/
inductive Form where
  | aa | as | aar | b | r | raa | ras | ro | rr | rw | rrr | void | w | wr
  deriving DecidableEq, Repr

/-- The function of an alternative. -/
def Form.parse : Form → Op → Position → ParserR Instruction
  | aa => opAA
  | as => opAS
  | aar => opAAR
  | b => opB
  | r => opR
  | raa => opRAA
  | ras => opRAS
  | ro => opRO
  | rr => opRR
  | rw => opRW
  | rrr => opRRR
  | void => opVoid
  | w => opW
  | wr => opWR

/-- The alternatives `parse_instruction` gives to `parse_op` for a mnemonic. -/
def alternatives : String → Option (List (Op × Form))
  | "ADD" => some [(.addRR, .rr), (.addRW, .rw)]
  | "AND" => some [(.andRR, .rr), (.andRW, .rw)]
  | "CALL" => some [(.callS, .as), (.callA, .aa), (.callR, .r)]
  | "CMP" => some [(.cmpRR, .rr), (.cmpRW, .rw)]
  | "DEC" => some [(.decR, .r)]
  | "HALT" => some [(.halt, .void)]
  | "INC" => some [(.incR, .r)]
  | "IND" => some [(.ind, .void)]
  | "INE" => some [(.ine, .void)]
  | "INT" => some [(.intB, .b)]
  | "J" => some [(.jA, .aa), (.jS, .as)]
  | "JEQ" => some [(.jeqA, .aa), (.jeqS, .as)]
  | "JNE" => some [(.jneA, .aa), (.jneS, .as)]
  | "LOAD" => some [(.loadRR, .rr), (.loadRW, .rw), (.loadRW, .raa), (.loadRRW, .ro)]
  | "MI" => some [(.miB, .b)]
  | "MOV" => some [(.movRR, .rr), (.movRW, .rw), (.movRW, .raa), (.movRW, .ras)]
  | "MUL" => some [(.mulRR, .rr), (.mulRW, .rw)]
  | "NOP" => some [(.nop, .void)]
  | "OR" => some [(.orRR, .rr), (.orRW, .rw)]
  | "PANIC" => some [(.panic, .void)]
  | "POP" => some [(.popR, .r), (.popRR, .rr), (.popRRR, .rrr)]
  | "POPA" => some [(.popa, .void)]
  | "PUSH" => some [(.pushR, .r), (.pushRR, .rr), (.pushRRR, .rrr), (.pushW, .w)]
  | "PUSHA" => some [(.pusha, .void)]
  | "RET" => some [(.ret, .void)]
  | "STOR" => some [(.storRR, .rr), (.storRW, .wr), (.storRW, .aar)]
  | "SUB" => some [(.subRR, .rr), (.subRW, .rw)]
  | "UMI" => some [(.umiB, .b)]
  | "IRET" => some [(.iret, .void)]
  | "WFI" => some [(.wfi, .void)]
  | "XBM" => some [(.xbm, .b)]
  | "XBRK" => some [(.xbrk, .void)]
  | "XDBG" => some [(.xdbg, .void)]
  | "XPSE" => some [(.xpse, .void)]
  | "XPSD" => some [(.xpsd, .void)]
  | "XOR" => some [(.xorRR, .rr), (.xorRW, .rw)]
  | _ => none

/-- The results of all alternatives, tried one after the other. -/
def runAlternatives (position : Position) :
    List (Op × Form) → ParserM (List (Except String Instruction))
  | [] => return []
  | (op, form) :: fs => do
    let result ← (form.parse op position).run
    let results ← runAlternatives position fs
    return result :: results

/-- The instructions among the results of the alternatives. -/
def successes (results : List (Except String Instruction)) : List Instruction :=
  results.filterMap fun
    | .ok i => some i
    | .error _ => none

/-- `merge_errors`. -/
def mergeErrors (results : List (Except String Instruction)) : String :=
  String.join (results.map fun
    | .ok _ => ""
    | .error e => " * " ++ e ++ "\n")

/-- `parse_op`. -/
def parseOp (position : Position) (fs : List (Op × Form)) : ParserR Instruction := do
  let results ← runAlternatives position fs
  match successes results with
  | [] => throw s!"Expected one of the following alternatives:\n{mergeErrors results}"
  | [i] => return i
  | _ => throw s!"No unique alternative at {position.display}"

/-- `parse_instruction`. -/
def parseInstruction (op : String) (position : Position) : ParserR Instruction :=
  match alternatives op with
  | some fs => parseOp position fs
  | none => throw s!"Invalid mnemonic '{op}' at {position.display}"

/-- `parse_variable`. -/
def parseVariable (name : String) (position : Position) : ParserR Unit := do
  match itemKind (← lexerNext) with
  | some .equal => pure ()
  | _ => throw s!"Expected '=' at {position.display}"
  match ← lexerNext with
  | some (.ok ⟨p, .integer w⟩) =>
    modify fun self => { self with symbols := self.symbols.insert name ⟨p, .integer w⟩ }
  | _ => throw s!"Expected <integer> or <addr> at {position.display}"

/-- `str::to_lowercase` on ASCII. -/
def toLowercase (s : String) : String := String.ofList (s.toList.map Char.toLower)

/-- `parse_directive`. -/
def parseDirective (name : String) (position : Position) : ParserR Directive := do
  match toLowercase name with
  | "base" =>
    let token ← readNext
    let symbols := (← get).symbols
    let address : Option Word :=
      match token with
      | some ⟨_, .integer w⟩ => some w
      | some ⟨_, .variable name⟩ => symbols.integer name
      | _ => none
    if ← readEol then
      match address with
      | some w => return .base w
      | none => throw s!"Expected <w> or <variable> for directive '#{name}' at {position.display}"
    else throw s!"Expected <eol> at {position.display}"
  | "word" =>
    match ← readNext with
    | some ⟨_, .identifier identifier⟩ =>
      match ← readNext with
      | some ⟨_, .integer value⟩ =>
        if ← readEol then return .word identifier value
        else throw s!"Expected <eol> at {position.display}"
      | _ => throw s!"Expected <value> for directive '#{name}' at {position.display}"
    | _ => throw s!"Expected <string> for directive '#{name}' at {position.display}"
  | _ => throw s!"Unknown directive '#{name}' at {position.display}"

/-- What one turn of the loop of `Parser::next` does: end the iteration, go on, or yield a node. -/
inductive Turn where
  | done
  | again
  | node (n : Node)
  deriving DecidableEq, Repr

/-- One turn of the loop of `Parser::next`; an error is an item `Some(Err(_))`. -/
def turn : ParserR Turn := do
  match ← lexerNext with
  | none => return .done
  | some (.error err) => throw err
  | some (.ok ⟨position, kind⟩) =>
    match kind with
    | .eol => return .again
    | .directive name => return .node (.directive (← parseDirective name position))
    | .label label =>
      match itemKind (← lexerNext) with
      | some .eol => return .node (.label label)
      | _ => throw s!"Expected <eol> at {position.display}"
    | .section _ => return .done
    | .op op => return .node (.instruction (← parseInstruction op position))
    | .variable name =>
      parseVariable name position
      return .again
    | _ => throw s!"Expected directive, label, section, label, op or variable at {position.display}"

/-- `Parser::parse` and the loop of `Parser::next`, for at most `fuel` turns. -/
def parseFuel : Nat → ParserR Unit
  | 0 => return ()
  | fuel + 1 => do
    match ← turn with
    | .done => return ()
    | .again => parseFuel fuel
    | .node n =>
      modify fun self => { self with nodes := self.nodes ++ [n] }
      parseFuel fuel

/-- `Parser::parse`. A turn that does not end the loop consumes an item, so the fuel suffices. -/
def parse : ParserR Unit := do
  parseFuel ((← get).lexer.items.length + 1)

/-- `Parser::from_lexer` and `parse` on the text of a file. -/
def parseText [Unicode] (text : String) (symbols : HashMap Token) (nodes : List Node) :
    Option (Except String Unit × Parser) :=
  parse.run ⟨tokenize text, symbols, nodes⟩

/-- The loop of `main` over the input files. -/
def parseFiles [Unicode] (symbols : HashMap Token) (nodes : List Node) :
    List String → Option (Except String (List Node))
  | [] => some (.ok nodes)
  | text :: texts => do
    match ← parseText text symbols nodes with
    | (.error err, _) => some (.error err)
    | (.ok (), parser) => parseFiles parser.symbols parser.nodes texts

end Thorium.Asm
