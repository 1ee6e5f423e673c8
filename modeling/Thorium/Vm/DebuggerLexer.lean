import Mathlib

/-!
# The lexer of the debugger

Model of `src/vm/debugger_lexer.c`. A `Lexer` holds what `text` has left from `current` on, and `lexerNext` gets
the bytes of the block it takes from `malloc` as a parameter. `Calls` are the tokens of repeated calls, which end
on every line (`exists_calls`). `partitions_iff` says on which lines the tokens partition the text whatever the
blocks hold: those of numbers only, since the range of a `:` or `,` is empty and the string of the other tokens is
appended to what is in its block.
-/

namespace Thorium.Vm.DebuggerLexer

/-! ### The code -/

/-- The types of a token but `TOKEN_EOF`. -/
inductive TokenType where
  | comma
  | colon
  | identifier
  | number
  | unknown
  deriving DecidableEq, Repr

/-- The `position` of a token, of `unsigned int`s; `stop` is its `end`. -/
structure Position where
  start : BitVec 32
  stop : BitVec 32

/-- The union `token`. There is no string where `strncat` is undefined. -/
inductive Value where
  | string (s : Option (List Char))
  | number (n : BitVec 32)

/-- `Token`. -/
structure Token where
  position : Position
  type : TokenType
  token : Value

/-- `Lexer`: the characters of `text` from `current` on. -/
structure Lexer where
  rest : List Char
  current : Nat

/-- `lexer_reset` -/
def lexerReset (text : List Char) : Lexer := ⟨text, 0⟩

/-- `is_alpha` -/
def isAlpha (c : Char) : Bool := decide ('A' ≤ c ∧ c ≤ 'Z' ∨ 'a' ≤ c ∧ c ≤ 'z' ∨ c = '_')

/-- `is_digit` -/
def isDigit (c : Char) : Bool := decide ('0' ≤ c ∧ c ≤ '9')

/-- `is_hexdigit` -/
def isHexdigit (c : Char) : Bool := isDigit c || decide ('A' ≤ c ∧ c ≤ 'F' ∨ 'a' ≤ c ∧ c ≤ 'f')

/-- `is_alphanum` -/
def isAlphanum (c : Char) : Bool := isAlpha c || decide ('0' ≤ c ∧ c ≤ '9')

/-- `is_whitespace` -/
def isWhitespace (c : Char) : Bool := decide (c = ' ' ∨ c = '\n' ∨ c = '\t')

/-- `peek`, with the `'\0'` after the text. -/
def peek (lx : Lexer) : Char := lx.rest.headD '\x00'

/-- `next`, without the `peek` it ends with. -/
def next (lx : Lexer) : Lexer := ⟨lx.rest.tail, lx.current + 1⟩

/-- The loops on what `peek` returns: they end at a character that is not accepted, or at the end of the text. -/
def readWhile {α : Type} (accept : Char → Bool) (turn : α → Char → α) (x : α) : List Char → Nat → α × Lexer
  | [], current => (x, ⟨[], current⟩)
  | c :: cs, current =>
    if accept c then readWhile accept turn (turn x c) cs (current + 1) else (x, ⟨c :: cs, current⟩)

/-- `strncat` to a block of `size` bytes. The string in the block must end in it, and what is appended must fit. -/
def strncat (size : Nat) (block : Nat → Char) (s : List Char) : Option (List Char) :=
  let string := ((List.range size).map block).takeWhile (· != '\x00')
  if string.length + s.length < size then some (string ++ s) else none

/-- The token that ends `read_identifier` and `read_unknown`, with the text between `lx` and `lx'`. -/
def textToken (type : TokenType) (block : Nat → Char) (lx lx' : Lexer) : Token :=
  let position : Position := ⟨BitVec.ofNat 32 lx.current, BitVec.ofNat 32 lx'.current⟩
  let length := position.stop - position.start
  ⟨position, type, .string (strncat (length + 1).toNat block (lx.rest.take length.toNat))⟩

/-- `read_identifier` -/
def readIdentifier (block : Nat → Char) (lx : Lexer) : Token × Lexer :=
  let lx' := (readWhile isAlphanum (fun _ _ => ()) () lx.rest lx.current).2
  (textToken .identifier block lx lx', lx')

/-- `read_unknown` -/
def readUnknown (block : Nat → Char) (lx : Lexer) : Token × Lexer :=
  let lx' := (readWhile (fun c => !isWhitespace c) (fun _ _ => ()) () lx.rest lx.current).2
  (textToken .unknown block lx lx', lx')

/-- A turn of the loops of digits of a base, for a digit `i`. -/
def digitTurn (base value i : BitVec 32) : BitVec 32 :=
  if 0 < value.toInt ∨ 0 < i.toInt then value * base + i else value

/-- `read_decnumber` -/
def readDecnumber (lx : Lexer) : BitVec 32 × Lexer :=
  readWhile isDigit (fun value c => digitTurn 10 value (BitVec.ofNat 32 (c.toNat - '0'.toNat))) 0 lx.rest lx.current

/-- `read_hexnumber` -/
def readHexnumber (lx : Lexer) : BitVec 32 × Lexer :=
  let digit (c : Char) : Nat := if isDigit c then c.toNat - '0'.toNat else 10 + c.toLower.toNat - 'a'.toNat
  readWhile isHexdigit (fun value c => digitTurn 16 value (BitVec.ofNat 32 (digit c))) 0 lx.rest lx.current

/-- `read_number`. The `0` is consumed before it is known whether an `x` follows. -/
def readNumber (lx : Lexer) : Token × Lexer :=
  let r :=
    if peek lx = '0' then
      if peek (next lx) = 'x' then readHexnumber (next (next lx)) else readDecnumber (next lx)
    else readDecnumber lx
  (⟨⟨BitVec.ofNat 32 lx.current, BitVec.ofNat 32 r.2.current⟩, .number, .number r.1⟩, r.2)

/-- The arms of `lexer_next` for `:` and `,`, after `next`. -/
def mark (type : TokenType) (string : List Char) (lx : Lexer) : Token × Lexer :=
  (⟨⟨BitVec.ofNat 32 lx.current, BitVec.ofNat 32 lx.current⟩, type, .string string⟩, lx)

/-- The arms of `lexer_next` for a character `c` that is no white space. -/
def readToken (block : Nat → Char) (c : Char) (lx : Lexer) : Token × Lexer :=
  if isAlpha c then readIdentifier block lx
  else if isDigit c then readNumber lx
  else if c = ':' then mark .colon [':'] (next lx)
  else if c = ',' then mark .comma [','] (next lx)
  else readUnknown block lx

/-- The loop of `lexer_next`. There is no token where the source returns one of type `TOKEN_EOF`, whose other
fields it leaves unset. -/
def nextToken (block : Nat → Char) : List Char → Nat → Option Token × Lexer
  | [], current => (none, ⟨[], current⟩)
  | c :: cs, current =>
    if isWhitespace c then nextToken block cs (current + 1)
    else ((readToken block c ⟨c :: cs, current⟩).1, (readToken block c ⟨c :: cs, current⟩).2)

/-- `lexer_next`, where `block` is what `malloc` returns for a string. -/
def lexerNext (block : Nat → Char) (lx : Lexer) : Option Token × Lexer := nextToken block lx.rest lx.current

/-! ### Calls -/

/-- The tokens of repeated calls up to `TOKEN_EOF`, from the `k`-th call on. -/
inductive Calls (malloc : Nat → Nat → Char) : Nat → Lexer → List Token → Prop where
  | eof {k lx lx'} : lexerNext (malloc k) lx = (none, lx') → Calls malloc k lx []
  | token {k lx lx' token tokens} : lexerNext (malloc k) lx = (some token, lx') →
      Calls malloc (k + 1) lx' tokens → Calls malloc k lx (token :: tokens)

/-- There is a character at `i`, and it is no white space. -/
def IsText (text : List Char) (i : Nat) : Prop := ∃ c, text[i]? = some c ∧ isWhitespace c = false

/-- A place is in the range of a token. -/
def Token.Covers (token : Token) (i : Nat) : Prop :=
  token.position.start.toNat ≤ i ∧ i < token.position.stop.toNat

/-- The tokens partition a text: their ranges are not empty, one after another, and cover what is no white space,
and the strings are what is in the range. -/
structure Partition (text : List Char) (tokens : List Token) : Prop where
  nonempty : ∀ token ∈ tokens, token.position.start.toNat < token.position.stop.toNat
  increasing : tokens.Pairwise fun token token' => token.position.stop.toNat ≤ token'.position.start.toNat
  cover : ∀ i, (∃ token ∈ tokens, token.Covers i) ↔ IsText text i
  string : ∀ token ∈ tokens, token.type = .identifier ∨ token.type = .unknown →
    token.token = .string (some ((text.drop token.position.start.toNat).take
      (token.position.stop.toNat - token.position.start.toNat)))

/-- Repeated calls end, and their tokens partition the text, whatever `malloc` returns. -/
def Partitions (text : List Char) : Prop :=
  ∀ malloc, ∃ tokens, Calls malloc 0 (lexerReset text) tokens ∧ Partition text tokens

/-- `[0-9]+` or `0x[0-9A-Fa-f]*` -/
inductive NumberText : List Char → Prop where
  | dec {s} : s ≠ [] → (∀ c ∈ s, isDigit c = true) → NumberText s
  | hex {s} : (∀ c ∈ s, isHexdigit c = true) → NumberText ('0' :: 'x' :: s)

/-- The words of a text are numbers. -/
def Numbers (text : List Char) : Prop := ∀ word ∈ text.splitOnP isWhitespace, word = [] ∨ NumberText word

variable {malloc : Nat → Nat → Char} {block : Nat → Char} {lx lx' : Lexer} {token : Token} {tokens : List Token}
  {c : Char} {cs s text rest : List Char} {i k : Nat}

/-! ### One token -/

/-- A loop reads the characters that it accepts. -/
lemma readWhile_eq {α : Type} {accept : Char → Bool} {turn : α → Char → α} {x : α} :
    (readWhile accept turn x s i).2 = ⟨s.dropWhile accept, i + (s.takeWhile accept).length⟩ := by
  induction s generalizing x i with
  | nil => rfl
  | cons c s ih =>
    rw [readWhile, List.dropWhile_cons, List.takeWhile_cons]
    by_cases h : accept c = true
    · rw [if_pos h, if_pos h, if_pos h, ih, List.length_cons, Nat.add_assoc, Nat.add_comm 1]
    · rw [if_neg h, if_neg h, if_neg h]
      rfl

/-- A text is what is accepted, and what does not start with any. -/
lemma exists_split (accept : Char → Bool) (text : List Char) : ∃ s cs, text = s ++ cs ∧
    text.takeWhile accept = s ∧ text.dropWhile accept = cs ∧ (∀ c ∈ s, accept c = true) ∧
    ∀ c, cs.head? = some c → accept c = false := by
  refine ⟨_, _, List.takeWhile_append_dropWhile.symm, rfl, rfl, fun c hc => List.mem_takeWhile_imp hc, ?_⟩
  intro c hc
  have h := List.head?_dropWhile_not accept text
  rw [hc] at h
  exact h

/-- What a loop consumes. -/
lemma readWhile_rest {α : Type} {accept : Char → Bool} {turn : α → Char → α} {x : α} :
    ∃ s', s = s' ++ (readWhile accept turn x s i).2.rest ∧ (∀ c ∈ s', accept c = true) ∧
      (readWhile accept turn x s i).2.current = i + s'.length ∧
      ∀ c, (readWhile accept turn x s i).2.rest.head? = some c → accept c = false := by
  obtain ⟨s', cs, he, ht, hd, hs, hstop⟩ := exists_split accept s
  rw [readWhile_eq, ht, hd]
  exact ⟨s', he, hs, rfl, hstop⟩

/-- White space is skipped. -/
lemma nextToken_append (h : ∀ c ∈ s, isWhitespace c = true) :
    nextToken block (s ++ cs) i = nextToken block cs (i + s.length) := by
  induction s generalizing i with
  | nil => rfl
  | cons c s ih =>
    obtain ⟨hc, hs⟩ := List.forall_mem_cons.mp h
    rw [List.cons_append, nextToken, if_pos hc, ih hs, List.length_cons, Nat.add_assoc, Nat.add_comm 1]

/-- A loop consumes the first character if it accepts it. -/
lemma readWhile_cons {α : Type} {accept : Char → Bool} {turn : α → Char → α} {x : α} (h : accept c = true) :
    ∃ s, s ≠ [] ∧ c :: cs = s ++ (readWhile accept turn x (c :: cs) i).2.rest ∧
      (readWhile accept turn x (c :: cs) i).2.current = i + s.length := by
  obtain ⟨s, hs, _, hcur, hstop⟩ := @readWhile_rest (c :: cs) i _ accept turn x
  refine ⟨s, ?_, hs, hcur⟩
  rintro rfl
  rw [List.nil_append] at hs
  rw [← hs] at hstop
  exact Bool.noConfusion ((hstop c rfl).symm.trans h)

/-- Digits by their codes. -/
lemma isDigit_iff : isDigit c = true ↔ 48 ≤ c.toNat ∧ c.toNat ≤ 57 := by
  rw [isDigit, decide_eq_true_iff]
  exact Iff.rfl

/-- Letters by their codes. -/
lemma isAlpha_iff :
    isAlpha c = true ↔ 65 ≤ c.toNat ∧ c.toNat ≤ 90 ∨ 97 ≤ c.toNat ∧ c.toNat ≤ 122 ∨ c = '_' := by
  rw [isAlpha, decide_eq_true_iff]
  exact Iff.rfl

/-- A digit is no letter. -/
lemma isAlpha_digit (h : isDigit c = true) : isAlpha c = false := by
  rw [Bool.eq_false_iff]
  intro ha
  have hd := isDigit_iff.mp h
  rcases isAlpha_iff.mp ha with ha | ha | rfl
  · omega
  · omega
  · exact absurd h (by decide)

/-- A digit is no white space. -/
lemma isWhitespace_hexdigit (h : isHexdigit c = true) : isWhitespace c = false := by
  rw [Bool.eq_false_iff]
  intro hw
  rw [isWhitespace, decide_eq_true_iff] at hw
  rcases hw with rfl | rfl | rfl
  · exact absurd h (by decide)
  · exact absurd h (by decide)
  · exact absurd h (by decide)

/-- A digit is one in hexadecimal. -/
lemma isHexdigit_digit (h : isDigit c = true) : isHexdigit c = true := by
  rw [isHexdigit, h, Bool.true_or]

/-- What a number consumes. -/
lemma readNumber_rest (h : isDigit c = true) :
    ∃ s, NumberText s ∧ c :: cs = s ++ (readNumber ⟨c :: cs, i⟩).2.rest ∧
      (readNumber ⟨c :: cs, i⟩).2.current = i + s.length ∧
      ∀ d, (readNumber ⟨c :: cs, i⟩).2.rest.head? = some d → isDigit d = false := by
  rw [readNumber]
  dsimp only
  by_cases h0 : c = '0'
  · rw [if_pos (show peek ⟨c :: cs, i⟩ = '0' from h0)]
    by_cases hx : peek (next ⟨c :: cs, i⟩) = 'x'
    · rw [if_pos hx]
      cases cs with
      | nil => exact absurd (show '\x00' = 'x' from hx) (by decide)
      | cons x cs =>
        cases h0
        cases (show x = 'x' from hx)
        obtain ⟨s, hs, hall, hcur, hstop⟩ := @readWhile_rest cs (i + 1 + 1) _ isHexdigit
          (fun value c => digitTurn 16 value
            (BitVec.ofNat 32 (if isDigit c then c.toNat - '0'.toNat else 10 + c.toLower.toNat - 'a'.toNat))) 0
        refine ⟨'0' :: 'x' :: s, .hex hall, congrArg (fun s => '0' :: 'x' :: s) hs, ?_, ?_⟩
        · exact hcur.trans (by rw [List.length_cons, List.length_cons]; omega)
        · intro d hd
          have hn := hstop d hd
          rw [isHexdigit, Bool.or_eq_false_iff] at hn
          exact hn.1
    · rw [if_neg hx]
      obtain ⟨s, hs, hall, hcur, hstop⟩ := @readWhile_rest cs (i + 1) _ isDigit
        (fun value c => digitTurn 10 value (BitVec.ofNat 32 (c.toNat - '0'.toNat))) 0
      refine ⟨c :: s, .dec (List.cons_ne_nil _ _) (List.forall_mem_cons.mpr ⟨h, hall⟩), congrArg (c :: ·) hs, ?_, hstop⟩
      exact hcur.trans (by rw [List.length_cons]; omega)
  · rw [if_neg (show peek ⟨c :: cs, i⟩ ≠ '0' from h0)]
    obtain ⟨s, hs, hall, hcur, hstop⟩ := @readWhile_rest (c :: cs) i _ isDigit
      (fun value c => digitTurn 10 value (BitVec.ofNat 32 (c.toNat - '0'.toNat))) 0
    refine ⟨s, .dec ?_ hall, hs, hcur, hstop⟩
    rintro rfl
    rw [List.nil_append] at hs
    rw [← hs] at hstop
    exact Bool.noConfusion ((hstop c rfl).symm.trans h)

/-- A token consumes a character. -/
lemma readToken_rest (h : isWhitespace c = false) :
    ∃ s, s ≠ [] ∧ c :: cs = s ++ (readToken block c ⟨c :: cs, i⟩).2.rest ∧
      (readToken block c ⟨c :: cs, i⟩).2.current = i + s.length := by
  unfold readToken
  split
  · rename_i ha
    exact readWhile_cons (by rw [isAlphanum, ha, Bool.true_or])
  split
  · rename_i hd
    obtain ⟨s, hn, hs, hcur, _⟩ := @readNumber_rest c cs i hd
    refine ⟨s, ?_, hs, hcur⟩
    cases hn with
    | dec hne _ => exact hne
    | hex _ => exact List.cons_ne_nil _ _
  split
  · exact ⟨[c], List.cons_ne_nil _ _, rfl, rfl⟩
  split
  · exact ⟨[c], List.cons_ne_nil _ _, rfl, rfl⟩
  · exact readWhile_cons (by rw [h]; rfl)

/-- What a call does: it skips white space to the end, or to a token. -/
lemma lexerNext_inv (block : Nat → Char) (lx : Lexer) :
    (∀ c ∈ lx.rest, isWhitespace c = true) ∧ (lexerNext block lx).1 = none ∨
      ∃ s c cs, lx.rest = s ++ c :: cs ∧ (∀ c ∈ s, isWhitespace c = true) ∧ isWhitespace c = false ∧
        lexerNext block lx = (some (readToken block c ⟨c :: cs, lx.current + s.length⟩).1,
          (readToken block c ⟨c :: cs, lx.current + s.length⟩).2) := by
  obtain ⟨s, cs, he, _, _, hs, hhead⟩ := exists_split isWhitespace lx.rest
  rw [lexerNext, he, nextToken_append hs]
  cases cs with
  | nil =>
    refine .inl ⟨?_, rfl⟩
    rw [List.append_nil]
    exact hs
  | cons c cs =>
    have hc := hhead c rfl
    refine .inr ⟨s, c, cs, rfl, hs, hc, ?_⟩
    rw [nextToken, hc]
    rfl

/-- Repeated calls end. -/
lemma exists_calls : ∃ tokens, Calls malloc k lx tokens := by
  induction hn : lx.rest.length using Nat.strong_induction_on generalizing k lx with
  | _ n ih =>
    obtain ⟨_, h⟩ | ⟨s, c, cs, he, _, hc, h⟩ := lexerNext_inv (malloc k) lx
    · exact ⟨[], .eof (Prod.ext h rfl)⟩
    · obtain ⟨s', hne, hrest, _⟩ := @readToken_rest (malloc k) c cs (lx.current + s.length) hc
      have hpos := List.length_pos_iff.mpr hne
      have hlen := congrArg List.length he
      have hlen' := congrArg List.length hrest
      rw [List.length_append] at hlen hlen'
      have hlt : (readToken (malloc k) c ⟨c :: cs, lx.current + s.length⟩).2.rest.length < n := by omega
      obtain ⟨tokens, ht⟩ : ∃ tokens, Calls malloc (k + 1) _ tokens := ih _ hlt rfl
      exact ⟨_, .token h ht⟩

/-! ### Blocks that are not empty -/

/-- The types of a block whose string does not end in it. -/
lemma readToken_type (h : (readToken (fun _ => 'x') c lx).1.position.start.toNat <
      (readToken (fun _ => 'x') c lx).1.position.stop.toNat)
    (hs : (readToken (fun _ => 'x') c lx).1.type = .identifier ∨ (readToken (fun _ => 'x') c lx).1.type = .unknown →
      ∃ s, (readToken (fun _ => 'x') c lx).1.token = .string (some s)) :
    isDigit c = true := by
  have hcat : ∀ {size s}, strncat size (fun _ => 'x') s = none := by
    intro size s
    have hall : ((List.range size).map fun _ => 'x').takeWhile (· != '\x00') = (List.range size).map fun _ => 'x' := by
      rw [List.takeWhile_eq_self_iff]
      intro c hc
      obtain ⟨_, _, rfl⟩ := List.mem_map.mp hc
      rfl
    rw [strncat, hall, List.length_map, List.length_range]
    exact if_neg (by omega)
  have htext : ∀ {type lx lx'}, (textToken type (fun _ => 'x') lx lx').token = .string none := by
    intro type lx lx'
    rw [textToken]
    exact congrArg Value.string hcat
  unfold readToken at h hs
  split at h
  · rename_i ha
    rw [if_pos ha] at hs
    obtain ⟨s, hs⟩ := hs (.inl rfl)
    cases htext.symm.trans hs
  rename_i ha
  rw [if_neg ha] at hs
  split at h
  · assumption
  rename_i hd
  rw [if_neg hd] at hs
  split at h
  · exact absurd h (Nat.lt_irrefl _)
  rename_i hcolon
  rw [if_neg hcolon] at hs
  split at h
  · exact absurd h (Nat.lt_irrefl _)
  rename_i hcomma
  rw [if_neg hcomma] at hs
  obtain ⟨s, hs⟩ := hs (.inr rfl)
  cases htext.symm.trans hs

/-- The words after white space. -/
lemma numbers_append (hs : ∀ c ∈ s, isWhitespace c = true) : Numbers (s ++ cs) ↔ Numbers cs := by
  induction s with
  | nil => exact Iff.rfl
  | cons c s ih =>
    obtain ⟨hc, hs⟩ := List.forall_mem_cons.mp hs
    have hsplit : (c :: (s ++ cs)).splitOnP isWhitespace = [] :: (s ++ cs).splitOnP isWhitespace :=
      List.splitOnP_append_cons_of_forall_mem (fun _ h => absurd h List.not_mem_nil) c hc (s ++ cs)
    rw [← ih hs, List.cons_append, Numbers, hsplit, List.forall_mem_cons]
    exact and_iff_right (.inl rfl)

/-- A word and what is after it. -/
lemma numbers_word (hs : ∀ c ∈ s, isWhitespace c = false) (hrest : ∀ d, rest.head? = some d → isWhitespace d = true) :
    Numbers (s ++ rest) ↔ (s = [] ∨ NumberText s) ∧ Numbers rest := by
  cases rest with
  | nil =>
    have hnil : Numbers [] := fun word h => .inl (List.mem_singleton.mp h)
    rw [List.append_nil, Numbers, List.splitOnP_eq_singleton hs, List.forall_mem_singleton, and_iff_left hnil]
  | cons d rest =>
    have hd := hrest d rfl
    have htail := @numbers_append rest [d] (List.forall_mem_singleton.mpr hd)
    rw [List.singleton_append] at htail
    rw [Numbers, List.splitOnP_append_cons_of_forall_mem hs d hd, List.forall_mem_cons, htail]
    exact Iff.rfl

/-- A number is one word. -/
lemma NumberText.word (h : NumberText s) : s ≠ [] ∧ ∀ c ∈ s, isWhitespace c = false := by
  cases h with
  | dec hne hs => exact ⟨hne, fun c hc => isWhitespace_hexdigit (isHexdigit_digit (hs c hc))⟩
  | hex hs =>
    refine ⟨List.cons_ne_nil _ _, ?_⟩
    rw [List.forall_mem_cons, List.forall_mem_cons]
    exact ⟨by decide, by decide, fun c hc => isWhitespace_hexdigit (hs c hc)⟩

/-- A token that begins with a digit is a number. -/
lemma readToken_digit (h : isDigit c = true) : readToken block c lx = readNumber lx := by
  rw [readToken, isAlpha_digit h, h]
  rfl

/-- Where the tokens have a range and a string, the words are numbers. -/
lemma Calls.numbers (h : Calls (fun _ _ => 'x') k lx tokens)
    (hrange : ∀ token ∈ tokens, token.position.start.toNat < token.position.stop.toNat)
    (hstring : ∀ token ∈ tokens, token.type = .identifier ∨ token.type = .unknown →
      ∃ s, token.token = .string (some s)) :
    Numbers lx.rest ∧ ∀ d, lx.rest.head? = some d → isWhitespace d = true ∨ isDigit d = true := by
  induction h with
  | @eof k lx lx' h =>
    obtain ⟨hs, _⟩ | ⟨s, c, cs, _, _, _, e⟩ := lexerNext_inv (fun _ => 'x') lx
    · refine ⟨?_, fun d hd => .inl (hs d (List.mem_of_mem_head? hd))⟩
      have h := @numbers_append [] _ hs
      rw [List.append_nil] at h
      exact h.mpr fun word hw => .inl (List.mem_singleton.mp hw)
    · cases h.symm.trans e
  | @token k lx lx' token tokens h _ ih =>
    obtain ⟨_, e⟩ | ⟨s, c, cs, he, hs, hc, e⟩ := lexerNext_inv (fun _ => 'x') lx
    · rw [h] at e
      cases e
    · cases h.symm.trans e
      obtain ⟨hr, hrange⟩ := List.forall_mem_cons.mp hrange
      obtain ⟨ht, hstring⟩ := List.forall_mem_cons.mp hstring
      obtain ⟨hn, hhead⟩ := ih hrange hstring
      have hd := readToken_type hr ht
      rw [readToken_digit hd] at hn hhead
      obtain ⟨s', hnum, hrest, _, hstop⟩ := @readNumber_rest c cs (lx.current + s.length) hd
      have hafter : ∀ d, (readNumber ⟨c :: cs, lx.current + s.length⟩).2.rest.head? = some d →
          isWhitespace d = true := by
        intro d hdd
        refine (hhead d hdd).resolve_right ?_
        rw [hstop d hdd]
        exact Bool.false_ne_true
      rw [he]
      constructor
      · rw [numbers_append hs, hrest, numbers_word hnum.word.2 hafter]
        exact ⟨.inr hnum, hn⟩
      · intro d hdd
        cases s with
        | nil => cases hdd; exact .inr hd
        | cons d' s => cases hdd; exact .inl (hs _ (List.mem_cons_self ..))

/-! ### Lines of numbers -/

/-- A number has the range that it has been read from. -/
lemma readNumber_position : (readNumber lx).1.position =
    ⟨BitVec.ofNat 32 lx.current, BitVec.ofNat 32 (readNumber lx).2.current⟩ := rfl

/-- A number is read up to the end of its word. -/
lemma readNumber_word (h : NumberText s) (hrest : ∀ d, rest.head? = some d → isWhitespace d = true) :
    (readNumber ⟨s ++ rest, i⟩).2 = ⟨rest, i + s.length⟩ := by
  have hstop : ∀ {accept : Char → Bool}, (∀ d, isWhitespace d = true → accept d = false) →
      rest.dropWhile accept = rest ∧ rest.takeWhile accept = [] := by
    intro accept ha
    cases rest with
    | nil => exact ⟨rfl, rfl⟩
    | cons d rest =>
      have hd := ha d (hrest d rfl)
      rw [List.dropWhile_cons, List.takeWhile_cons, hd]
      exact ⟨rfl, rfl⟩
  have hread : ∀ {accept : Char → Bool} {turn : BitVec 32 → Char → BitVec 32} {s i},
      (∀ d, isWhitespace d = true → accept d = false) → (∀ d ∈ s, accept d = true) →
      (readWhile accept turn 0 (s ++ rest) i).2 = ⟨rest, i + s.length⟩ := by
    intro accept turn s i ha hs
    obtain ⟨hd, ht⟩ := hstop ha
    rw [readWhile_eq, List.dropWhile_append_of_pos hs, List.takeWhile_append_of_pos hs, hd, ht, List.append_nil]
  have hhex : ∀ d, isWhitespace d = true → isHexdigit d = false := by
    intro d hd
    rw [Bool.eq_false_iff]
    exact fun hh => Bool.noConfusion ((isWhitespace_hexdigit hh).symm.trans hd)
  have hdec : ∀ d, isWhitespace d = true → isDigit d = false := by
    intro d hd
    rw [Bool.eq_false_iff]
    exact fun hh => Bool.noConfusion ((isWhitespace_hexdigit (isHexdigit_digit hh)).symm.trans hd)
  rw [readNumber]
  dsimp only
  cases h with
  | dec hne hs =>
    obtain ⟨c, s, rfl⟩ := List.exists_cons_of_ne_nil hne
    by_cases h0 : c = '0'
    · rw [if_pos (show peek ⟨c :: s ++ rest, i⟩ = '0' from h0)]
      have hx : peek (next ⟨c :: s ++ rest, i⟩) ≠ 'x' := by
        show (s ++ rest).headD '\x00' ≠ 'x'
        cases s with
        | nil =>
          cases rest with
          | nil => decide
          | cons d rest =>
            rintro rfl
            exact absurd (hrest 'x' rfl) (by decide)
        | cons d s =>
          rintro rfl
          exact absurd (hs 'x' (by simp)) (by decide)
      rw [if_neg hx]
      refine (hread hdec (List.forall_mem_cons.mp hs).2).trans ?_
      rw [List.length_cons, next]
      dsimp only
      rw [Nat.add_assoc, Nat.add_comm 1]
    · rw [if_neg (show peek ⟨c :: s ++ rest, i⟩ ≠ '0' from h0)]
      exact hread hdec hs
  | @hex s hs =>
    rw [if_pos (show peek ⟨'0' :: 'x' :: s ++ rest, i⟩ = '0' from rfl),
      if_pos (show peek (next ⟨'0' :: 'x' :: s ++ rest, i⟩) = 'x' from rfl)]
    refine (hread hhex hs).trans ?_
    rw [List.length_cons, List.length_cons, next, next]
    dsimp only
    rw [Nat.add_assoc i, Nat.add_assoc i, Nat.add_comm (1 + 1)]

/-- The characters of a text in two parts. -/
lemma isText_append {j : Nat} : IsText (s ++ cs) j ↔ IsText s j ∨ ∃ m, j = s.length + m ∧ IsText cs m := by
  unfold IsText
  by_cases h : j < s.length
  · rw [List.getElem?_append_left h]
    refine ⟨.inl, ?_⟩
    rintro (hs | ⟨m, hm, _⟩)
    · exact hs
    · omega
  · have hle := Nat.not_lt.mp h
    rw [List.getElem?_append_right hle, List.getElem?_eq_none hle]
    constructor
    · intro hc
      exact .inr ⟨j - s.length, by omega, hc⟩
    · rintro (⟨_, hn, _⟩ | ⟨m, rfl, hc⟩)
      · cases hn
      · rw [Nat.add_sub_cancel_left]
        exact hc

/-- White space has none. -/
lemma not_isText_space {j : Nat} (hs : ∀ c ∈ s, isWhitespace c = true) : ¬ IsText s j := by
  rintro ⟨c, hc, hw⟩
  exact Bool.noConfusion ((hs c (List.mem_of_getElem? hc)).symm.trans hw)

/-- A word has them all. -/
lemma isText_word {j : Nat} (hs : ∀ c ∈ s, isWhitespace c = false) : IsText s j ↔ j < s.length := by
  constructor
  · rintro ⟨c, hc, _⟩
    exact (List.getElem?_eq_some_iff.mp hc).1
  · intro h
    exact ⟨s[j], List.getElem?_eq_getElem h, hs _ (List.getElem_mem h)⟩

/-- The characters of a line after white space and a word. -/
lemma isText_line {s' : List Char} {j : Nat} (hs : ∀ c ∈ s, isWhitespace c = true)
    (hs' : ∀ c ∈ s', isWhitespace c = false) :
    IsText (s ++ (s' ++ rest)) j ↔
      s.length ≤ j ∧ j < s.length + s'.length ∨ ∃ m, j = s.length + s'.length + m ∧ IsText rest m := by
  rw [isText_append, or_iff_right (not_isText_space hs)]
  constructor
  · rintro ⟨m, rfl, h⟩
    rcases isText_append.mp h with hw | ⟨m', rfl, hr⟩
    · have hlt := (isText_word hs').mp hw
      exact .inl ⟨by omega, by omega⟩
    · exact .inr ⟨m', by omega, hr⟩
  · rintro (⟨hle, hlt⟩ | ⟨m, rfl, h⟩)
    · exact ⟨j - s.length, by omega, isText_append.mpr (.inl ((isText_word hs').mpr (by omega)))⟩
    · exact ⟨s'.length + m, by omega, isText_append.mpr (.inr ⟨m, rfl, h⟩)⟩

/-- The first token of a line of numbers is the first number. -/
lemma lexerNext_number (hn : Numbers lx.rest) (h : lexerNext block lx = (some token, lx')) :
    ∃ s s', lx.rest = s ++ (s' ++ lx'.rest) ∧ (∀ c ∈ s, isWhitespace c = true) ∧
      (∀ c ∈ s', isWhitespace c = false) ∧ s' ≠ [] ∧ Numbers lx'.rest ∧ token.type = .number ∧
      token.position = ⟨BitVec.ofNat 32 (lx.current + s.length), BitVec.ofNat 32 lx'.current⟩ ∧
      lx'.current = lx.current + s.length + s'.length := by
  obtain ⟨_, e⟩ | ⟨s, c, cs, he, hs, hc, e⟩ := lexerNext_inv block lx
  · rw [h] at e
    cases e
  · cases h.symm.trans e
    obtain ⟨s', rest, he', _, _, hw, hrest⟩ := exists_split (fun d => !isWhitespace d) (c :: cs)
    have hw : ∀ d ∈ s', isWhitespace d = false := fun d hd => (Bool.not_eq_true' _).mp (hw d hd)
    have hrest : ∀ d, rest.head? = some d → isWhitespace d = true := fun d hd =>
      (Bool.not_eq_false' _).mp (hrest d hd)
    have hne : s' ≠ [] := by
      rintro rfl
      rw [List.nil_append] at he'
      rw [← he'] at hrest
      exact Bool.noConfusion (hc.symm.trans (hrest c rfl))
    rw [he, numbers_append hs, he', numbers_word hw hrest] at hn
    have hnum := hn.1.resolve_left hne
    have hd : isDigit c = true := by
      obtain ⟨c', s', rfl⟩ := List.exists_cons_of_ne_nil hne
      cases he'
      cases hnum with
      | dec _ hs => exact hs c (List.mem_cons_self ..)
      | hex _ => decide
    have hread := @readNumber_word s' rest (lx.current + s.length) hnum hrest
    rw [← he'] at hread
    rw [readToken_digit hd, hread]
    refine ⟨s, s', he.trans (by rw [he']), hs, hw, hne, hn.2, rfl, ?_, rfl⟩
    rw [readNumber_position, hread]

/-- The tokens of the rest of a line of numbers. -/
lemma Calls.partition (h : Calls malloc k lx tokens) (hn : Numbers lx.rest)
    (hb : ∀ j, IsText lx.rest j → lx.current + j + 1 < 2 ^ 32) :
    (∀ token ∈ tokens, token.type = .number ∧ lx.current ≤ token.position.start.toNat ∧
      token.position.start.toNat < token.position.stop.toNat) ∧
    (tokens.Pairwise fun token token' => token.position.stop.toNat ≤ token'.position.start.toNat) ∧
    ∀ j, (∃ token ∈ tokens, token.Covers j) ↔ ∃ m, j = lx.current + m ∧ IsText lx.rest m := by
  induction h with
  | @eof k lx lx' h =>
    obtain ⟨hs, _⟩ | ⟨s, c, cs, _, _, _, e⟩ := lexerNext_inv (malloc k) lx
    · refine ⟨fun _ h => absurd h List.not_mem_nil, .nil, fun j => ⟨?_, ?_⟩⟩
      · rintro ⟨_, h, _⟩
        exact absurd h List.not_mem_nil
      · rintro ⟨m, _, hm⟩
        exact absurd hm (not_isText_space hs)
    · cases h.symm.trans e
  | @token k lx lx' token tokens h _ ih =>
    obtain ⟨s, s', he, hs, hw, hne, hn', htype, hpos, hcur⟩ := lexerNext_number hn h
    have hpos' := List.length_pos_iff.mpr hne
    rw [he] at hb
    have hb' : ∀ j, IsText lx'.rest j → lx'.current + j + 1 < 2 ^ 32 := by
      intro j hj
      have hlt := hb (s.length + s'.length + j) ((isText_line hs hw).mpr (.inr ⟨j, rfl, hj⟩))
      omega
    obtain ⟨hall, hpair, hcover⟩ := ih hn' hb'
    have hlast : lx'.current < 2 ^ 32 := by
      have hlt := hb (s.length + s'.length - 1) ((isText_line hs hw).mpr (.inl ⟨by omega, by omega⟩))
      omega
    have hstart : token.position.start.toNat = lx.current + s.length := by
      rw [hpos, BitVec.toNat_ofNat]
      exact Nat.mod_eq_of_lt (by omega)
    have hstop : token.position.stop.toNat = lx'.current := by
      rw [hpos, BitVec.toNat_ofNat]
      exact Nat.mod_eq_of_lt hlast
    refine ⟨?_, ?_, ?_⟩
    · rw [List.forall_mem_cons]
      refine ⟨⟨htype, by omega, by omega⟩, ?_⟩
      intro token' ht
      obtain ⟨htype', hle, hlt⟩ := hall token' ht
      exact ⟨htype', by omega, hlt⟩
    · rw [List.pairwise_cons]
      refine ⟨?_, hpair⟩
      intro token' ht
      rw [hstop]
      exact (hall token' ht).2.1
    · intro j
      rw [he, List.exists_mem_cons_iff, hcover, Token.Covers, hstart, hstop]
      constructor
      · rintro (⟨hle, hlt⟩ | ⟨m, rfl, hm⟩)
        · exact ⟨j - lx.current, by omega, (isText_line hs hw).mpr (.inl ⟨by omega, by omega⟩)⟩
        · exact ⟨s.length + s'.length + m, by omega, (isText_line hs hw).mpr (.inr ⟨m, rfl, hm⟩)⟩
      · rintro ⟨m, rfl, hm⟩
        rcases (isText_line hs hw).mp hm with ⟨hle, hlt⟩ | ⟨m', rfl, hm'⟩
        · exact .inl ⟨by omega, by omega⟩
        · exact .inr ⟨m', by omega, hm'⟩

/-- A line that is partitioned consists of numbers. -/
lemma Partitions.numbers (h : Partitions text) : Numbers text := by
  obtain ⟨tokens, hc, hp⟩ := h fun _ _ => 'x'
  exact (hc.numbers hp.nonempty fun token ht htype => ⟨_, hp.string token ht htype⟩).1

/-- The calls on a line partition it whatever `malloc` returns if and only if its words are numbers, and the last
one ends before `2 ^ 32`. -/
theorem partitions_iff {text : List Char} :
    Partitions text ↔ Numbers text ∧ ∀ i, IsText text i → i + 1 < 2 ^ 32 := by
  constructor
  · intro h
    refine ⟨h.numbers, ?_⟩
    intro i hi
    obtain ⟨tokens, _, hp⟩ := h fun _ _ => 'x'
    obtain ⟨token, _, _, hlt⟩ := (hp.cover i).mpr hi
    exact Nat.lt_of_le_of_lt hlt token.position.stop.isLt
  · rintro ⟨hn, hb⟩ malloc
    obtain ⟨tokens, hc⟩ := @exists_calls malloc (lexerReset text) 0
    have hb' : ∀ j, IsText text j → 0 + j + 1 < 2 ^ 32 := fun j hj => by rw [Nat.zero_add]; exact hb j hj
    obtain ⟨hall, hpair, hcover⟩ := hc.partition hn hb'
    refine ⟨tokens, hc, ⟨fun token ht => (hall token ht).2.2, hpair, fun i => ?_, ?_⟩⟩
    · refine (hcover i).trans ⟨?_, fun hi => ⟨i, (Nat.zero_add i).symm, hi⟩⟩
      rintro ⟨m, rfl, hm⟩
      rw [show (lexerReset text).current + m = m from Nat.zero_add m]
      exact hm
    · intro token ht htype
      rw [(hall token ht).1] at htype
      rcases htype with e | e
      · cases e
      · cases e

/-- The string of `s` is appended to what its block holds, and the range of the `:` in `1:2` is empty. -/
theorem not_partitions : ¬ Partitions "s".toList ∧ ¬ Partitions "1:2".toList := by
  have hword : ∀ {text}, text ≠ [] → text.all (fun c => !isWhitespace c) = true → (∃ c ∈ text, isDigit c = false) →
      text.head? ≠ some '0' → ¬ Partitions text := by
    intro text hne hw ⟨c, hc, hd⟩ h0 h
    have hw : ∀ c ∈ text, isWhitespace c = false := fun c hc => (Bool.not_eq_true' _).mp (List.all_eq_true.mp hw c hc)
    have hn := h.numbers text (by rw [List.splitOnP_eq_singleton hw]; exact List.mem_singleton_self _)
    cases hn.resolve_left hne with
    | dec _ hs => exact Bool.noConfusion ((hs c hc).symm.trans hd)
    | hex _ => exact h0 rfl
  exact ⟨hword (by decide) (by decide) ⟨'s', by decide, by decide⟩ (by decide),
    hword (by decide) (by decide) ⟨':', by decide, by decide⟩ (by decide)⟩

end Thorium.Vm.DebuggerLexer
