import Thorium.Lib.Loop

/-!
# The lexer of instruction files

Model of `bin/thi/lexer.lua`. A text is the list of its bytes, each as a character; the positions that
the lexer counts for its messages are left out. `nextToken` is one round of the loop in `Lexer:next`,
and `lex` the tokens of a whole text up to the end of it, where the lexer yields `EOF` for ever.

Both kinds of comment loop endlessly when the text ends inside them. That is an `Except.error`, like
the errors of the parser: no table is generated.
-/

namespace Thorium.Thi

/-- `TokenType`. -/
inductive TokenType where
  | eof
  | lpar
  | rpar
  | comma
  | id
  | text
  | keyword
  | number
  | register
  | word
  | byte
  | flag
  | whitespace
  | csAddress
  | absoluteAddress
  deriving DecidableEq, Repr

/-- `TokenType.toString`. -/
def TokenType.toString : TokenType → String
  | eof => "EOF" | lpar => "LPAR" | rpar => "RPAR" | comma => "COMMA" | id => "ID" | text => "TEXT"
  | keyword => "KEYWORD" | number => "NUMBER" | register => "REGISTER" | word => "WORD"
  | byte => "BYTE" | flag => "FLAG" | whitespace => "WHITESPACE" | csAddress => "CS_ADDRESS"
  | absoluteAddress => "ABSOLUTE_ADDRESS"

/-- A token, as `makeToken` builds it. -/
structure Token where
  type : TokenType
  value : List Char
  deriving DecidableEq, Repr

/-- `chars.whitespace`. -/
def isWhitespace (c : Char) : Bool := c == ' ' || c == '\n' || c == '\t' || c == '\r'

/-- `chars.flags`. -/
def isFlag (c : Char) : Bool := c == 'n' || c == 'z'

/-- `keyword`. -/
def keywords : List String :=
  ["op", "code", "args", "cond", "flags", "effect", "comment", "reg", "index"]

/-- `isMnemonic`. -/
def isMnemonic (s : List Char) : Bool := s == s.map Char.toUpper

/-- `skipBlockComment`: what follows the closing `###`. -/
def skipBlockComment : List Char → Except String (List Char)
  | '#' :: '#' :: '#' :: cs => .ok cs
  | _ :: cs => skipBlockComment cs
  | [] => .error "endless loop"

/-- `readText`: the text to the closing parenthesis that matches none in it, and the rest. -/
def readText (level : Nat) : List Char → List Char × List Char
  | [] => ([], [])
  | c :: cs =>
    if c == '(' then
      let (text, rest) := readText (level + 1) cs
      (c :: text, rest)
    else if c == ')' && level == 0 then ([], c :: cs)
    else
      -- A closing parenthesis goes down a level, anything else stays on it.
      let (text, rest) := readText (if c == ')' then level - 1 else level) cs
      (c :: text, rest)

/-- A token whose value goes on with the digits that follow. -/
def numberToken (type : TokenType) (c : Char) (cs : List Char) : Token × List Char :=
  (⟨type, c :: cs.takeWhile Char.isDigit⟩, cs.dropWhile Char.isDigit)

/-- A `TEXT` that starts with what has been read. -/
def textToken (read cs : List Char) : Token × List Char :=
  (⟨.text, read ++ (readText 0 cs).1⟩, (readText 0 cs).2)

/-- `chars.digit[look()]`. -/
def atDigit (cs : List Char) : Bool := cs.head?.any Char.isDigit

/-- The branches of `Lexer:next` for a character that starts a token. -/
def startToken (c : Char) (cs : List Char) : Token × List Char :=
  if c == '(' then (⟨.lpar, [c]⟩, cs)
  else if c == ')' then (⟨.rpar, [c]⟩, cs)
  else if c == ',' then (⟨.comma, [c]⟩, cs)
  else if c.isDigit then numberToken .number c cs
  else if c == 'r' && atDigit cs then numberToken .register c cs
  else if c == 'w' && atDigit cs then numberToken .word c cs
  else if c == 'b' && atDigit cs then numberToken .byte c cs
  else if c == '@' && atDigit cs then numberToken .csAddress c cs
  else if c == '&' && atDigit cs then numberToken .absoluteAddress c cs
  else if isFlag c then (⟨.flag, [c]⟩, cs)
  else if c.isAlpha then
    let word := c :: cs.takeWhile Char.isAlpha
    let cs := cs.dropWhile Char.isAlpha
    if String.ofList word ∈ keywords then (⟨.keyword, word⟩, cs)
    else if isMnemonic word then (⟨.id, word⟩, cs)
    else textToken word cs
  else textToken [c] cs

/-- The branches of `Lexer:next` for a `#`. A comment to the end of its line becomes a part of the
whitespace that follows it. -/
def comment : List Char → Except String (Option Token × List Char)
  | '#' :: '#' :: cs => do
    let rest ← skipBlockComment cs
    .ok (none, rest)
  | cs =>
    let rest := cs.dropWhile (· != '\n')
    if rest.isEmpty then .error "endless loop"
    else .ok (some ⟨.whitespace, '#' :: cs.takeWhile (· != '\n') ++ rest.takeWhile isWhitespace⟩,
      rest.dropWhile isWhitespace)

/-- A round of the loop in `Lexer:next`, which yields a token except after a block comment. -/
def nextToken (cs : List Char) : Except String (Option Token × List Char) :=
  match cs with
  | [] => .ok (some ⟨.eof, []⟩, [])
  | c :: rest =>
    if isWhitespace c then
      .ok (some ⟨.whitespace, cs.takeWhile isWhitespace⟩, cs.dropWhile isWhitespace)
    else if c == '#' then comment rest
    else .ok (some (startToken c rest).1, (startToken c rest).2)

/-- The tokens of a text, without the `EOF`s at its end. -/
def lex (text : List Char) : Except String (List Token) := do
  let r ← loop List.isEmpty nextToken text
  .ok (r.1.filterMap id)

/-! ### Every round takes a character -/

section Consume

variable {c : Char} {cs rest : List Char} {t : Option Token} {level : Nat}

/-- A block leaves a suffix. -/
lemma skipBlockComment_suffix (h : skipBlockComment cs = .ok rest) : rest <:+ cs := by
  induction cs with
  | nil => cases h
  | cons c cs ih =>
    unfold skipBlockComment at h
    split at h
    · next e =>
      cases e
      cases h
      exact ⟨['#', '#', '#'], rfl⟩
    · next e =>
      cases e
      exact (ih h).trans (List.suffix_cons c cs)
    · next e => cases e

/-- So does a text. -/
lemma readText_suffix : (readText level cs).2 <:+ cs := by
  induction cs generalizing level with
  | nil => exact List.suffix_rfl
  | cons c cs ih =>
    rw [readText]
    split
    · exact ih.trans (List.suffix_cons c cs)
    split
    · exact List.suffix_rfl
    · exact ih.trans (List.suffix_cons c cs)

/-- The letters of a mnemonic: there are some, all of them capital. -/
def Mnemonic (s : List Char) : Prop := s ≠ [] ∧ ∀ c ∈ s, c.isUpper

/-- An `ID` is a mnemonic. -/
def Token.Named (t : Token) : Prop := t.type = .id → Mnemonic t.value

/-- What `isMnemonic` accepts among words is a mnemonic. -/
lemma mnemonic_of_isMnemonic {s : List Char} (hne : s ≠ []) (hs : ∀ c ∈ s, c.isAlpha)
    (h : isMnemonic s) : Mnemonic s := by
  refine ⟨hne, ?_⟩
  intro c hc
  have hmap : s.map Char.toUpper = s.map id := by
    rw [List.map_id]
    exact (eq_of_beq h).symm
  have hcap : c.toUpper = c := List.map_inj_left.mp hmap c hc
  rw [← hcap, Char.isUpper_toUpper_eq_isAlpha]
  exact hs c hc

/-- A token leaves a suffix of what follows its first character, and an `ID` is a mnemonic. -/
lemma startToken_spec : (startToken c cs).2 <:+ cs ∧ (startToken c cs).1.Named := by
  let P : Token × List Char → Prop := fun r => r.2 <:+ cs ∧ r.1.Named
  have hchar : ∀ {type value}, type ≠ .id → P (⟨type, value⟩, cs) := by
    intro type value hne
    exact ⟨List.suffix_rfl, fun he => absurd he hne⟩
  have hnumber : ∀ {type}, type ≠ .id → P (numberToken type c cs) := by
    intro type hne
    exact ⟨List.dropWhile_suffix _, fun he => absurd he hne⟩
  have hword : cs.dropWhile Char.isAlpha <:+ cs := List.dropWhile_suffix _
  have h : P (startToken c cs) := by
    refine iteInduction (fun _ => hchar (by decide)) fun _ => ?_
    refine iteInduction (fun _ => hchar (by decide)) fun _ => ?_
    refine iteInduction (fun _ => hchar (by decide)) fun _ => ?_
    refine iteInduction (fun _ => hnumber (by decide)) fun _ => ?_
    refine iteInduction (fun _ => hnumber (by decide)) fun _ => ?_
    refine iteInduction (fun _ => hnumber (by decide)) fun _ => ?_
    refine iteInduction (fun _ => hnumber (by decide)) fun _ => ?_
    refine iteInduction (fun _ => hnumber (by decide)) fun _ => ?_
    refine iteInduction (fun _ => hnumber (by decide)) fun _ => ?_
    refine iteInduction (fun _ => hchar (by decide)) fun _ => ?_
    refine iteInduction (fun hc => ?_) fun _ => ?_
    · refine iteInduction (fun _ => ⟨hword, TokenType.noConfusion⟩) fun _ => ?_
      refine iteInduction (fun hm => ⟨hword, fun _ => ?_⟩) fun _ => ?_
      · refine mnemonic_of_isMnemonic (List.cons_ne_nil _ _) ?_ hm
        exact List.forall_mem_cons.mpr ⟨hc, fun d hd => List.mem_takeWhile_imp hd⟩
      · exact ⟨readText_suffix.trans hword, TokenType.noConfusion⟩
    · exact ⟨readText_suffix, TokenType.noConfusion⟩
  exact h

/-- So does a comment, and its token has a name. -/
lemma comment_spec (h : comment cs = .ok (t, rest)) : rest <:+ cs ∧ ∀ s ∈ t, s.Named := by
  unfold comment at h
  split at h
  · obtain ⟨cs1, hs, h⟩ := bind_ok h
    cases h
    refine ⟨(skipBlockComment_suffix hs).trans ⟨['#', '#'], rfl⟩, ?_⟩
    intro s hs
    cases hs
  · dsimp only at h
    split at h
    · cases h
    · cases h
      refine ⟨(List.dropWhile_suffix _).trans (List.dropWhile_suffix _), ?_⟩
      intro s hs
      cases hs
      exact TokenType.noConfusion

/-- So does every token. -/
lemma nextToken_spec (h : nextToken (c :: cs) = .ok (t, rest)) : rest <:+ cs ∧ ∀ s ∈ t, s.Named := by
  unfold nextToken at h
  dsimp only at h
  split at h
  · next hc =>
    cases h
    rw [List.dropWhile_cons_of_pos hc]
    refine ⟨List.dropWhile_suffix _, ?_⟩
    intro s hs
    cases hs
    exact TokenType.noConfusion
  split at h
  · exact comment_spec h
  · cases h
    refine ⟨startToken_spec.1, ?_⟩
    intro s hs
    cases hs
    exact startToken_spec.2

/-- A round of the lexer takes at least one character. -/
lemma nextToken_consumes : Consumes List.isEmpty nextToken := by
  intro cs t rest hstop h
  cases cs with
  | nil => cases hstop
  | cons c cs =>
    have htail := (nextToken_spec h).1
    exact ⟨htail.trans (List.suffix_cons c cs), Nat.lt_succ_of_le htail.length_le⟩

end Consume

/-- Every `ID` of a text is a mnemonic. -/
lemma lex_named {text : List Char} {ts : List Token} (h : lex text = .ok ts) : ∀ t ∈ ts, t.Named := by
  obtain ⟨⟨os, rest⟩, hl, h⟩ := bind_ok h
  cases h
  have hstep : ∀ {cs o cs'}, List.isEmpty cs = false → True → nextToken cs = .ok (o, cs') →
      (∀ t ∈ o, t.Named) ∧ True := by
    intro cs o cs' hstop _ hn
    cases cs with
    | nil => cases hstop
    | cons c cs => exact ⟨(nextToken_spec hn).2, trivial⟩
  have hall := (loop_all hstep trivial hl).1
  intro t ht
  obtain ⟨o, ho, he⟩ := List.mem_filterMap.mp ht
  exact hall o ho t he

end Thorium.Thi
