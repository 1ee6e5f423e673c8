import Thorium.Lib.Fueled
import Thorium.Thi.Parser

/-!
# The generator with its loops

Model of `bin/thi/lexer.lua` and `bin/thi/parser.lua` that keeps every loop of theirs: `Lexer.next` is one call of
`Lexer:next`, and `parse` reads a file in one pass, with the tokens that `look` has buffered, and makes the
instructions on the way. The loops are those of `Lib.Fueled`; `Ends` below says that all of them end.

Positions are left out, and with them the limits of Lua's numbers: at the end of the text `look()` is the empty
string (`none`), and `eat` goes on for ever without reaching another character.
-/

namespace Thorium.Thi.Generator
open Thorium.Isa

/-! ### The lexer -/

/-- `Lexer`: the text from `start` to `pos`, and from `pos` on. -/
structure Lexer where
  read : List Char
  rest : List Char

/-- `Lexer:new` -/
def Lexer.new (text : List Char) : Lexer := ⟨[], text⟩

/-- `look(delta)` -/
def Lexer.look (lx : Lexer) (delta : Nat) : Option Char := lx.rest[delta]?

/-- `eat(count)` -/
def Lexer.eat (lx : Lexer) (count : Nat) : Lexer := ⟨lx.read ++ lx.rest.take count, lx.rest.drop count⟩

/-- The loops that eat for as long as `look()` is accepted. -/
def eatWhile (accept : Option Char → Bool) : Lexer → Fueled Lexer :=
  Fueled.repeatUntil fun lx => pure (if accept (lx.look 0) then .inl (lx.eat 1) else .inr lx)

/-- `Lexer:read_whitespaces` -/
def readWhitespaces : Lexer → Fueled Lexer := eatWhile fun c => c.any isWhitespace

/-- `Lexer:read_word` -/
def readWord : Lexer → Fueled Lexer := eatWhile fun c => c.any Char.isAlpha

/-- `Lexer:read_number` -/
def readNumber : Lexer → Fueled Lexer := eatWhile fun c => c.any Char.isDigit

/-- The loop of `Lexer:next` on a `#`. -/
def skipLine : Lexer → Fueled Lexer := eatWhile fun c => c != some '\n'

/-- `look() == "#" and look(1) == "#" and look(2) == "#"` -/
def Lexer.atMarker (lx : Lexer) : Bool := lx.look 0 == some '#' && lx.look 1 == some '#' && lx.look 2 == some '#'

/-- A round of `skipBlockComment`. -/
def blockRound (lx : Lexer) : Fueled (Lexer ⊕ Lexer) :=
  if lx.atMarker then pure (.inr (lx.eat 3))
  else if (lx.look 0).any isWhitespace then do
    let lx ← readWhitespaces lx
    pure (.inl lx)
  else pure (.inl (lx.eat 1))

/-- `Lexer:skip_block_comment` -/
def skipBlockComment (lx : Lexer) : Fueled Lexer := do
  let lx ← Fueled.repeatUntil blockRound lx
  pure ⟨[], lx.rest⟩

/-- A round of `readText`. -/
def textRound (s : Nat × Lexer) : Fueled ((Nat × Lexer) ⊕ Lexer) :=
  match s.2.look 0 with
  | none => pure (.inr s.2)
  | some c =>
    if c == '(' then pure (.inl (s.1 + 1, s.2.eat 1))
    else if c == ')' && s.1 == 0 then pure (.inr s.2)
    else if c == ')' then pure (.inl (s.1 - 1, s.2.eat 1))
    else pure (.inl (s.1, s.2.eat 1))

/-- `Lexer:read_text` -/
def readText (lx : Lexer) : Fueled Lexer := Fueled.repeatUntil textRound (0, lx)

/-- `Lexer:make_token` -/
def makeToken (type : TokenType) (lx : Lexer) : Token × Lexer := (⟨type, lx.read⟩, ⟨[], lx.rest⟩)

/-- The branches of `Lexer:next` for a character `c` that starts a token, after `get`. -/
def readToken (c : Char) (lx : Lexer) : Fueled (Token × Lexer) :=
  let atDigit := (lx.look 0).any Char.isDigit
  if c == '(' then pure (makeToken .lpar lx)
  else if c == ')' then pure (makeToken .rpar lx)
  else if c == ',' then pure (makeToken .comma lx)
  else if c.isDigit then makeToken .number <$> readNumber lx
  else if c == 'r' && atDigit then makeToken .register <$> readNumber lx
  else if c == 'w' && atDigit then makeToken .word <$> readNumber lx
  else if c == 'b' && atDigit then makeToken .byte <$> readNumber lx
  else if c == '@' && atDigit then makeToken .csAddress <$> readNumber lx
  else if c == '&' && atDigit then makeToken .absoluteAddress <$> readNumber lx
  else if isFlag c then pure (makeToken .flag lx)
  else if c.isAlpha then do
    let lx ← readWord lx
    if String.ofList lx.read ∈ keywords then pure (makeToken .keyword lx)
    else if isMnemonic lx.read then pure (makeToken .id lx)
    else makeToken .text <$> readText lx
  else makeToken .text <$> readText lx

/-- A round of the loop in `Lexer:next`. A comment to the end of its line is not taken off `read`. -/
def nextRound (lx : Lexer) : Fueled (Lexer ⊕ (Token × Lexer)) := do
  let lx ← readWhitespaces lx
  if lx.read ≠ [] then pure (.inr (makeToken .whitespace lx))
  else match lx.look 0 with
    | none => pure (.inr (makeToken .eof (lx.eat 1)))
    | some c =>
      let lx := lx.eat 1
      if c == '#' && lx.look 0 == some '#' && lx.look 1 == some '#' then .inl <$> skipBlockComment (lx.eat 2)
      else if c == '#' then .inl <$> skipLine lx
      else .inr <$> readToken c lx

/-- `Lexer:next` -/
def Lexer.next : Lexer → Fueled (Token × Lexer) := Fueled.repeatUntil nextRound

/-! ### The tokens of the parser -/

/-- `Parser`: its lexer, the tokens in `look`, and `op.nextCode`. -/
structure Parser where
  lexer : Lexer
  look : List Token
  nextCode : Nat

/-- `Parser:new` -/
def Parser.new (text : List Char) : Parser := ⟨.new text, [], 0⟩

/-- What the parser does: it may write an error and exit, or raise one. -/
abbrev ParserM (α : Type) := Process Parser String α

/-- The token at the end of the text. -/
def endToken : Token := ⟨.eof, []⟩

/-- `self.lexer:next()` -/
def lexerNext : ParserM Token := fun p => (do
  let r ← p.lexer.next
  pure (.ok (r.1, { p with lexer := r.2 })) : Fueled (Except String (Token × Parser)))

/-- `self.look[i]`, after `if #self.look < i then self.look[i] = self.lexer:next() end`. -/
def fetch (i : Nat) : ParserM Token := do
  let p ← get
  if p.look.length < i then do
    let token ← lexerNext
    modify fun p => { p with look := p.look ++ [token] }
    pure token
  else pure (p.look.getD (i - 1) endToken)

/-- A round of the inner loop of `look`: `i`, `k` and the token `self.look[i]`. -/
def skipRound (keepWhitespaces : Bool) (s : Nat × Nat × Token) :
    ParserM ((Nat × Nat × Token) ⊕ (Nat × Nat × Token)) :=
  if s.2.2.type = .whitespace ∧ keepWhitespaces = false then do
    let token ← fetch (s.1 + 1)
    pure (.inl (s.1 + 1, s.2.1 + 1, token))
  else pure (.inr s)

/-- A round of the loop of `look`: `i` and `k`. -/
def lookRound (keepWhitespaces : Bool) (s : Nat × Nat) : ParserM ((Nat × Nat) ⊕ Token) := do
  let token ← fetch s.1
  let r ← Process.repeatUntil (skipRound keepWhitespaces) (s.1, s.2, token)
  if r.1 = r.2.1 then pure (.inr r.2.2) else pure (.inl (r.1 + 1, r.2.1))

/-- `look(k, nil, keepWhitespaces)` -/
def look (k : Nat) (keepWhitespaces : Bool) : ParserM Token :=
  Process.repeatUntil (lookRound keepWhitespaces) (1, k)

/-- `_next` -/
def takeToken : ParserM Token := do
  let p ← get
  match p.look with
  | token :: tokens => do
    set { p with look := tokens }
    pure token
  | [] => lexerNext

/-- A round of the loop of `next`. -/
def nextTokenRound (keepWhitespaces : Bool) (token : Token) : ParserM (Token ⊕ Token) :=
  if keepWhitespaces = false ∧ token.type = .whitespace then .inl <$> takeToken else pure (.inr token)

/-- `next(type, keepWhitespaces)` -/
def next (type : Option TokenType) (keepWhitespaces : Bool) : ParserM Token := do
  let token ← takeToken
  let token ← Process.repeatUntil (nextTokenRound keepWhitespaces) token
  match type with
  | none => pure token
  | some type => if token.type = type then pure token else throw (expected [type] token.type)

/-! ### The parser -/

/-- A round of the loops of `parseArgs` and `parseFlags`. -/
def listRound {α : Type} (item : Token → Option α) (first others : List TokenType) (items : List α) :
    ParserM (List α ⊕ List α) := do
  let token ← look 1 false
  if token.type = .rpar then
    if items.isEmpty then throw "Expecting at least one argument" else pure (.inr items)
  else if token.type = .comma then
    if items.isEmpty then throw (expected first .comma)
    else do
      let _ ← next none false
      pure (.inl items)
  else match item token with
    | some a => do
      let _ ← next none false
      pure (.inl (items ++ [a]))
    | none => throw (expected others token.type)

/-- `Parser:parse_args` -/
def parseArgs : ParserM (List Arg) := Process.repeatUntil (listRound argOf argTokens argTokens) []

/-- `Parser:parse_flags` -/
def parseFlags : ParserM (List String) :=
  Process.repeatUntil (listRound flagOf [.flag] [.register, .word, .byte]) []

/-- A round of the loop of `parseText`: the token that has been looked at, and the text so far. -/
def tokensRound (s : Token × List Char) : ParserM ((Token × List Char) ⊕ List Char) :=
  if s.1.type = .rpar then pure (.inr s.2)
  else do
    let token ← next none true
    let ahead ← look 1 true
    pure (.inl (ahead, s.2 ++ token.value))

/-- `Parser:parse_text` -/
def parseText : ParserM (List Char) := do
  let token ← look 1 false
  if token.type = .text then do
    let token ← next (some .text) false
    pure token.value
  else do
    let text ← Process.repeatUntil tokensRound (token, [])
    if text.isEmpty then throw "Expected some text" else pure (trim text)

/-- The branches of `parsePair`. -/
def parseValue (key : String) : ParserM Pair :=
  let text (pair : String → Pair) : ParserM Pair := do
    let s ← parseText
    pure (pair (String.ofList s))
  if key = "code" then do
    let token ← next (some .number) false
    pure (.code (tonumber token.value))
  else if key = "args" then .args <$> parseArgs
  else if key = "effect" then text .effect
  else if key = "cond" then text .cond
  else if key = "comment" then text .comment
  else if key = "flags" then .flags <$> parseFlags
  else pure (.flags [])

/-- `Parser:parse_pair` -/
def parsePair : ParserM Pair := do
  let _ ← next (some .lpar) false
  let key ← next (some .keyword) false
  let pair ← parseValue (String.ofList key.value)
  let _ ← next (some .rpar) false
  pure pair

/-- The branch of `parseInstruction` for a pair. -/
def pairBranch (nested : Bool) (instruction : Instruction) : ParserM Instruction := do
  let pair ← parsePair
  let p ← get
  match applyPair nested instruction p.nextCode pair with
  | .error e => throw e
  | .ok r => do
    set { p with nextCode := r.2 }
    pure r.1

/-- The branch of `parseInstruction` at its end: the instruction itself, unless it is abstract. -/
def closeBranch (instruction : Instruction) : ParserM (List Instruction) := do
  let _ ← next (some .rpar) false
  let p ← get
  set { p with nextCode := (closeInstruction instruction p.nextCode).2 }
  pure (closeInstruction instruction p.nextCode).1

/-- A round of `parseInstruction` in a nested call, where no other call is nested. -/
def nestedRound (instruction : Instruction) : ParserM (Instruction ⊕ List Instruction) := do
  let token ← look 1 false
  if token.type = .lpar then .inl <$> pairBranch true instruction else .inr <$> closeBranch instruction

/-- The nested call of `parseInstruction`. -/
def parseNested (instruction : Instruction) : ParserM (List Instruction) :=
  Process.repeatUntil nestedRound { instruction with code := none }

/-- The branch of `parseInstruction` for a form: the instruction becomes abstract, and the first instruction of the
nested call is added. -/
def formBranch (instruction : Instruction) (instructions : List Instruction) :
    ParserM (Instruction × List Instruction) := do
  let instruction := { instruction with abstract := true }
  let _ ← next (some .lpar) false
  let forms ← parseNested instruction
  match forms with
  | form :: _ => pure (instruction, instructions ++ [form])
  | [] => throw "bad argument #1 to 'setmetatable'"

/-- A round of `parseInstruction`: the instruction and those of its forms. -/
def instructionRound (s : Instruction × List Instruction) :
    ParserM ((Instruction × List Instruction) ⊕ List Instruction) := do
  let token ← look 1 false
  if token.type = .lpar then do
    let second ← look 2 false
    if second.type = .lpar then .inl <$> formBranch s.1 s.2
    else do
      let instruction ← pairBranch false s.1
      pure (.inl (instruction, s.2))
  else do
    let own ← closeBranch s.1
    pure (.inr (s.2 ++ own))

/-- `parseInstruction` -/
def parseInstruction : ParserM (List Instruction) := do
  let name ← next (some .id) false
  Process.repeatUntil instructionRound ({ name := String.ofList name.value }, [])

/-- `parseDirective`; what is no `op` has no instructions. -/
def parseDirective : ParserM (List Instruction) := do
  let _ ← next (some .lpar) false
  let directive ← next (some .keyword) false
  if String.ofList directive.value = "op" then parseInstruction
  else do
    let _ ← next (some .rpar) false
    pure []

/-- A round of `Parser:parse`. -/
def parseRound (directives : List Instruction) : ParserM (List Instruction ⊕ List Instruction) := do
  let token ← look 1 false
  if token.type = .eof then pure (.inr directives)
  else if token.type = .lpar then do
    let instructions ← parseDirective
    pure (.inl (directives ++ instructions))
  else throw (expected [.lpar] token.type)

/-- `Parser:parse` -/
def parse : ParserM (List Instruction) := Process.repeatUntil parseRound []

/-! ### The runs -/

/-- One call of `Lexer:next`. -/
def Called (lx lx' : Lexer) : Prop := ∃ token, lx.next.Returns (token, lx')

/-- Every call of `Lexer:next` on a text returns, and `Parser:parse` returns or exits. -/
structure Ends (text : List Char) : Prop where
  lexer : ∀ lx, Relation.ReflTransGen Called (.new text) lx → lx.next.Ends
  parser : Fueled.Ends (parse (.new text))

end Thorium.Thi.Generator
