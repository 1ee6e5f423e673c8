import Thorium.Isa.Thi
import Thorium.Thi.Lexer

/-!
# The parser of instruction files

Model of what `bin/thi/parser.lua` reads: from the tokens of a file to its `Directive`s, which
`Isa.parseDirectives` then turns into instructions. The source does both in one pass; a file that
either of them refuses is refused. Between two tokens whitespace is skipped, except in the texts that
`parseText` puts together.

The calls of `os.exit(1)` are `Except.error`, without the positions in their messages.
-/

namespace Thorium.Thi
open Thorium.Isa

/-- `look(k)`: the type of the `k`-th upcoming token that is not whitespace. -/
def look (k : Nat) (ts : List Token) : TokenType :=
  (((ts.filter fun t => t.type != .whitespace)[k - 1]?).map Token.type).getD .eof

/-- `printError`. -/
def expected : List TokenType → TokenType → String
  | [type], got => "Expected " ++ type.toString ++ ", got " ++ got.toString
  | types, got =>
    "Expected any of " ++ ", ".intercalate (types.map TokenType.toString) ++ ", got " ++ got.toString

/-- `next(type)`: the value of the next token, which must be of that type. -/
def next (type : TokenType) : List Token → Except String (List Char × List Token)
  | [] => .error (expected [type] .eof)
  | t :: ts =>
    if t.type = .whitespace then next type ts
    else if t.type = type then .ok (t.value, ts)
    else .error (expected [type] t.type)

/-- `tonumber` on decimal digits. -/
def tonumber (digits : List Char) : Nat :=
  digits.foldl (fun n c => n * 10 + (c.toNat - '0'.toNat)) 0

/-- The loop of `parseArgs` and `parseFlags`: items and commas up to a closing parenthesis, which is
left. A comma must follow some item, but may stand anywhere after it or be left out. -/
def parseList {α : Type} (item : Token → Option α) (first others : List TokenType) (items : List α) :
    List Token → Except String (List α × List Token)
  | [] => .error (expected others .eof)
  | t :: ts =>
    if t.type = .whitespace then parseList item first others items ts
    else if t.type = .rpar then
      if items.isEmpty then .error "Expecting at least one argument" else .ok (items, t :: ts)
    else if t.type = .comma then
      if items.isEmpty then .error (expected first .comma) else parseList item first others items ts
    else match item t with
      | some a => parseList item first others (items ++ [a]) ts
      | none => .error (expected others t.type)

/-- The tokens `parseArgs` asks for. -/
def argTokens : List TokenType := [.register, .word, .byte, .absoluteAddress, .csAddress]

/-- The argument of a token. -/
def argOf (t : Token) : Option Arg :=
  let value := tonumber (t.value.drop 1)
  match t.type with
  | .register => some ⟨.register, value⟩
  | .word => some ⟨.word, value⟩
  | .byte => some ⟨.byte, value⟩
  | .csAddress => some ⟨.csRelativeAddress, value⟩
  | .absoluteAddress => some ⟨.absoluteAddress, value⟩
  | _ => none

/-- `parseArgs`. -/
def parseArgs : List Token → Except String (List Arg × List Token) :=
  parseList argOf argTokens argTokens []

/-- The flag of a token. -/
def flagOf (t : Token) : Option String :=
  if t.type = .flag then some (String.ofList t.value) else none

/-- `parseFlags`. -/
def parseFlags : List Token → Except String (List String × List Token) :=
  parseList flagOf [.flag] [.register, .word, .byte] []

/-- The class `%s` of Lua's patterns. -/
def isSpace (c : Char) : Bool := c == ' ' || (9 ≤ c.toNat && c.toNat ≤ 13)

/-- `text:gsub("^%s*(.-)%s*$", "%1")`. -/
def trim (text : List Char) : List Char :=
  ((text.dropWhile isSpace).reverse.dropWhile isSpace).reverse

/-- `parseText`: a `TEXT` as it is, or all tokens up to a closing parenthesis. At the end of the file
it asks for the next token for ever. -/
def parseText (ts : List Token) : Except String (List Char × List Token) :=
  if look 1 ts = .text then next .text ts
  else if look 1 ts = .rpar then .error "Expected some text"
  else
    let rest := ts.dropWhile fun t => t.type != .rpar
    if rest.isEmpty then .error "endless loop"
    else .ok (trim ((ts.takeWhile fun t => t.type != .rpar).flatMap Token.value), rest)

/-- The branches of `parsePair`. A pair under `op`, `reg` or `index` has no type, and
`pair.type == PairType.Flag` then holds as there is no `PairType.Flag`: the flags are taken away. -/
def parseValue (key : String) (ts : List Token) : Except String (Pair × List Token) :=
  let text (p : String → Pair) : Except String (Pair × List Token) := do
    let (s, ts) ← parseText ts
    .ok (p (String.ofList s), ts)
  if key = "code" then do
    let (n, ts) ← next .number ts
    .ok (.code (tonumber n), ts)
  else if key = "args" then do
    let (as, ts) ← parseArgs ts
    .ok (.args as, ts)
  else if key = "effect" then text .effect
  else if key = "cond" then text .cond
  else if key = "comment" then text .comment
  else if key = "flags" then do
    let (fs, ts) ← parseFlags ts
    .ok (.flags fs, ts)
  else .ok (.flags [], ts)

/-- `parsePair`. -/
def parsePair (ts : List Token) : Except String (Pair × List Token) := do
  let (_, ts) ← next .lpar ts
  let (key, ts) ← next .keyword ts
  let (pair, ts) ← parseValue (String.ofList key) ts
  let (_, ts) ← next .rpar ts
  .ok (pair, ts)

/-- The condition on which `parseInstruction` goes on to the closing parenthesis. -/
def atEnd (ts : List Token) : Bool := look 1 ts != .lpar

/-- The nested call of `parseInstruction`. -/
def parseForm (ts : List Token) : Except String (Clause × List Token) := do
  let (_, ts) ← next .lpar ts
  let (pairs, ts) ← loop atEnd parsePair ts
  let (_, ts) ← next .rpar ts
  .ok (.nested pairs, ts)

/-- A round of the loop in `parseInstruction`. -/
def parseClause (ts : List Token) : Except String (Clause × List Token) :=
  if look 2 ts = .lpar then parseForm ts
  else do
    let (pair, ts) ← parsePair ts
    .ok (.pair pair, ts)

/-- `parseInstruction` on a directive, after its `op`. -/
def parseOp (ts : List Token) : Except String (Directive × List Token) := do
  let (name, ts) ← next .id ts
  let (clauses, ts) ← loop atEnd parseClause ts
  let (_, ts) ← next .rpar ts
  .ok (⟨String.ofList name, clauses⟩, ts)

/-- `parseDirective`; directives other than `op` are empty and skipped. -/
def parseDirective (ts : List Token) : Except String (Option Directive × List Token) := do
  let (_, ts) ← next .lpar ts
  let (directive, ts) ← next .keyword ts
  if String.ofList directive = "op" then
    let (d, ts) ← parseOp ts
    .ok (some d, ts)
  else
    let (_, ts) ← next .rpar ts
    .ok (none, ts)

/-- The condition on which `Parser:parse` returns. -/
def atEof (ts : List Token) : Bool := look 1 ts == .eof

/-- `Parser:parse`. -/
def parse (ts : List Token) : Except String (List Directive) := do
  let (ds, _) ← loop atEof parseDirective ts
  .ok (ds.filterMap id)

/-! ### Every item takes a token -/

section Consume

variable {ts ts' : List Token} {t : Token} {type : TokenType} {value : List Char}

/-- What `next` takes. -/
lemma next_spec (h : next type ts = .ok (value, ts')) :
    ∃ t, t :: ts' <:+ ts ∧ t.type = type ∧ t.value = value := by
  induction ts with
  | nil => cases h
  | cons t ts ih =>
    rw [next] at h
    split at h
    · obtain ⟨s, hs, hspec⟩ := ih h
      exact ⟨s, hs.trans (List.suffix_cons t ts), hspec⟩
    split at h
    · next ht =>
      cases h
      exact ⟨t, List.suffix_rfl, ht, rfl⟩
    · cases h

/-- `next` leaves a suffix. -/
lemma next_suffix (h : next type ts = .ok (value, ts')) : ts' <:+ ts := by
  obtain ⟨t, hs, _⟩ := next_spec h
  exact (List.suffix_cons t ts').trans hs

/-- So does a list. -/
lemma parseList_suffix {α : Type} {item : Token → Option α} {first others} {items items' : List α}
    (h : parseList item first others items ts = .ok (items', ts')) : ts' <:+ ts := by
  induction ts generalizing items with
  | nil => cases h
  | cons t ts ih =>
    have htail : ∀ {items}, parseList item first others items ts = .ok (items', ts') → ts' <:+ t :: ts := by
      intro items h
      exact (ih h).trans (List.suffix_cons t ts)
    rw [parseList] at h
    split at h
    · exact htail h
    split at h
    · split at h
      · cases h
      · cases h
        exact List.suffix_rfl
    split at h
    · split at h
      · cases h
      · exact htail h
    split at h
    · exact htail h
    · cases h

/-- So does a text. -/
lemma parseText_suffix (h : parseText ts = .ok (value, ts')) : ts' <:+ ts := by
  unfold parseText at h
  split at h
  · exact next_suffix h
  split at h
  · cases h
  dsimp only at h
  split at h
  · cases h
  · cases h
    exact List.dropWhile_suffix _

/-- So does a value. -/
lemma parseValue_suffix {key pair} (h : parseValue key ts = .ok (pair, ts')) : ts' <:+ ts := by
  have htext : ∀ {p : String → Pair}, (do
      let (s, ts) ← parseText ts
      .ok (p (String.ofList s), ts)) = Except.ok (pair, ts') → ts' <:+ ts := by
    intro p h
    obtain ⟨⟨s, ts1⟩, ht, h⟩ := bind_ok h
    cases h
    exact parseText_suffix ht
  unfold parseValue at h
  dsimp only at h
  split at h
  · obtain ⟨⟨n, ts1⟩, hn, h⟩ := bind_ok h
    cases h
    exact next_suffix hn
  split at h
  · obtain ⟨⟨as, ts1⟩, ha, h⟩ := bind_ok h
    cases h
    exact parseList_suffix ha
  split at h
  · exact htext h
  split at h
  · exact htext h
  split at h
  · exact htext h
  split at h
  · obtain ⟨⟨fs, ts1⟩, hf, h⟩ := bind_ok h
    cases h
    exact parseList_suffix hf
  · cases h
    exact List.suffix_rfl

/-- What leaves a token and a suffix behind it has consumed. -/
lemma consumed (h : t :: ts' <:+ ts) : ts' <:+ ts ∧ ts'.length < ts.length :=
  ⟨(List.suffix_cons t ts').trans h, h.length_le⟩

/-- A pair takes a token at least. -/
lemma parsePair_suffix {pair} (h : parsePair ts = .ok (pair, ts')) : ∃ t, t :: ts' <:+ ts := by
  obtain ⟨⟨_, ts1⟩, h1, h⟩ := bind_ok h
  obtain ⟨⟨key, ts2⟩, h2, h⟩ := bind_ok h
  obtain ⟨⟨p, ts3⟩, h3, h⟩ := bind_ok h
  obtain ⟨⟨_, ts4⟩, h4, h⟩ := bind_ok h
  cases h
  obtain ⟨t, ht, _⟩ := next_spec h4
  exact ⟨t, ht.trans ((parseValue_suffix h3).trans ((next_suffix h2).trans (next_suffix h1)))⟩

/-- The loop over pairs ends. -/
lemma parsePair_consumes : Consumes atEnd parsePair := by
  intro ts pair ts' _ h
  obtain ⟨t, ht⟩ := parsePair_suffix h
  exact consumed ht

/-- A form takes a token at least. -/
lemma parseForm_suffix {clause} (h : parseForm ts = .ok (clause, ts')) : ∃ t, t :: ts' <:+ ts := by
  obtain ⟨⟨_, ts1⟩, h1, h⟩ := bind_ok h
  obtain ⟨⟨pairs, ts2⟩, h2, h⟩ := bind_ok h
  obtain ⟨⟨_, ts3⟩, h3, h⟩ := bind_ok h
  cases h
  obtain ⟨t, ht, _⟩ := next_spec h3
  exact ⟨t, ht.trans ((loop_suffix parsePair_consumes h2).trans (next_suffix h1))⟩

/-- The loop over clauses ends. -/
lemma parseClause_consumes : Consumes atEnd parseClause := by
  intro ts clause ts' _ h
  unfold parseClause at h
  split at h
  · obtain ⟨t, ht⟩ := parseForm_suffix h
    exact consumed ht
  · obtain ⟨⟨pair, ts1⟩, hp, h⟩ := bind_ok h
    cases h
    obtain ⟨t, ht⟩ := parsePair_suffix hp
    exact consumed ht

/-- A name that the file gives as an `ID`. -/
def Mentioned (name : String) (ts : List Token) : Prop :=
  ∃ t ∈ ts, t.type = .id ∧ name = String.ofList t.value

/-- An instruction takes tokens, and its name among them. -/
lemma parseOp_spec {d} (h : parseOp ts = .ok (d, ts')) : (∃ t, t :: ts' <:+ ts) ∧ Mentioned d.name ts := by
  obtain ⟨⟨name, ts1⟩, h1, h⟩ := bind_ok h
  obtain ⟨⟨clauses, ts2⟩, h2, h⟩ := bind_ok h
  obtain ⟨⟨_, ts3⟩, h3, h⟩ := bind_ok h
  cases h
  obtain ⟨t, ht, htype, hvalue⟩ := next_spec h1
  obtain ⟨s, hs, _⟩ := next_spec h3
  refine ⟨⟨s, hs.trans ((loop_suffix parseClause_consumes h2).trans (next_suffix h1))⟩, t,
    ht.subset List.mem_cons_self, htype, ?_⟩
  rw [hvalue]

/-- So does a directive. -/
lemma parseDirective_spec {o} (h : parseDirective ts = .ok (o, ts')) :
    (∃ t, t :: ts' <:+ ts) ∧ ∀ d ∈ o, Mentioned d.name ts := by
  obtain ⟨⟨_, ts1⟩, h1, h⟩ := bind_ok h
  obtain ⟨⟨directive, ts2⟩, h2, h⟩ := bind_ok h
  have hs : ts2 <:+ ts := (next_suffix h2).trans (next_suffix h1)
  dsimp only at h
  split at h
  · obtain ⟨⟨d, ts3⟩, h3, h⟩ := bind_ok h
    cases h
    obtain ⟨⟨t, ht⟩, s, hm, hname⟩ := parseOp_spec h3
    refine ⟨⟨t, ht.trans hs⟩, ?_⟩
    rintro d ⟨⟩
    exact ⟨s, hs.subset hm, hname⟩
  · obtain ⟨⟨_, ts3⟩, h3, h⟩ := bind_ok h
    cases h
    obtain ⟨t, ht, _⟩ := next_spec h3
    refine ⟨⟨t, ht.trans hs⟩, ?_⟩
    rintro d ⟨⟩

/-- The loop over directives ends. -/
lemma parseDirective_consumes : Consumes atEof parseDirective := by
  intro ts o ts' _ h
  obtain ⟨t, ht⟩ := (parseDirective_spec h).1
  exact consumed ht

end Consume

/-- The loops of the lexer and the parser are those of the source: their fuel never runs out. -/
theorem loops_while :
    While List.isEmpty nextToken ∧ While atEnd parsePair ∧ While atEnd parseClause ∧
      While atEof parseDirective :=
  ⟨loop_while nextToken_consumes, loop_while parsePair_consumes, loop_while parseClause_consumes,
    loop_while parseDirective_consumes⟩

/-- Every instruction of a file is named by a mnemonic. -/
lemma parse_mnemonic {ts : List Token} {ds : List Directive} (hnamed : ∀ t ∈ ts, t.Named)
    (h : parse ts = .ok ds) : ∀ d ∈ ds, Mnemonic d.name.toList := by
  obtain ⟨⟨os, rest⟩, hl, h⟩ := bind_ok h
  cases h
  have hstep : ∀ {ts1 o ts2}, atEof ts1 = false → ts1 <:+ ts → parseDirective ts1 = .ok (o, ts2) →
      (∀ d ∈ o, Mnemonic d.name.toList) ∧ ts2 <:+ ts := by
    intro ts1 o ts2 hstop hs hd
    obtain ⟨ht, hname⟩ := parseDirective_spec hd
    refine ⟨?_, (parseDirective_consumes hstop hd).1.trans hs⟩
    intro d hd
    obtain ⟨t, ht, htype, hname⟩ := hname d hd
    rw [hname, String.toList_ofList]
    exact hnamed t (hs.subset ht) htype
  have hall := (loop_all hstep List.suffix_rfl hl).1
  intro d hd
  obtain ⟨o, ho, he⟩ := List.mem_filterMap.mp hd
  exact hall o ho d he

end Thorium.Thi
