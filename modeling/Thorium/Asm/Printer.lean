import Thorium.Asm.Stream

/-!
# Printed tokens

How tokens are written and that the lexer reads them back. `Spelling` relates a kind of token to each of
its spellings, `LineText` a list of them to each way to write them on a line, with gaps between them and
an optional comment at the end. `lineText_stream` is the result: the lexer yields the tokens of a line,
then an end of line, and goes on after it.

Positions are followed with `Position.advanceAll`, which fails when a counter overflows.
-/

namespace Thorium.Asm

/-! ### Spellings -/

/-- The characters that end a name, a mnemonic or a number. -/
def separates (c : Char) : Bool := decide (c.toNat < 128) && !(c.isAlphanum || c == '_')

/-- A text that does not go on a word. -/
def Separated (cs : List Char) : Prop := ∀ c, cs.head? = some c → separates c = true

/-- `[a-z][A-Za-z0-9_]*` -/
def IsIdentifier (s : List Char) : Prop :=
  ∃ c cs, s = c :: cs ∧ c.isLower = true ∧ ∀ d ∈ cs, d.isAlphanum = true ∨ d = '_'

/-- `[A-Z][A-Z0-9_]*` -/
def IsMnemonic (s : List Char) : Prop :=
  ∃ c cs, s = c :: cs ∧ c.isUpper = true ∧ ∀ d ∈ cs, d.isUpper = true ∨ d.isDigit = true ∨ d = '_'

/-- A digit of a radix. -/
def IsDigitOf (radix : Nat) (c : Char) : Prop := ∃ d, digitValue c = some d ∧ d < radix

/-- Digits of a radix with underscores among them, and the number they denote. -/
structure Digits (radix : Nat) (s : List Char) (w : Word) : Prop where
  digits : ∀ c ∈ s, c = '_' ∨ IsDigitOf radix c
  value : fromStrRadix radix (s.filter (· != '_')) = some w

/-- The decimal, `0x` and `0b` forms of an integer. -/
inductive Numeral : List Char → Word → Prop where
  | dec {c cs w} : c.isDigit = true → Digits 10 (c :: cs) w → Numeral (c :: cs) w
  | hex {s w} : Digits 16 s w → Numeral ('0' :: 'x' :: s) w
  | bin {s w} : Digits 2 s w → Numeral ('0' :: 'b' :: s) w

/-- The spellings of a token. -/
inductive Spelling : Kind → List Char → Prop where
  | absolute {s} : IsIdentifier s → Spelling (.address (String.ofList s) .absolute) ('&' :: s)
  | segment {s} : IsIdentifier s → Spelling (.address (String.ofList s) .segment) ('@' :: s)
  | comma : Spelling .comma [',']
  | lbracket : Spelling .lbracket ['[']
  | rbracket : Spelling .rbracket [']']
  | plus : Spelling .plus ['+']
  | directive {s} : IsIdentifier s → Spelling (.directive (String.ofList s)) ('#' :: s)
  | identifier {s} : IsIdentifier s → Spelling (.identifier (String.ofList s)) s
  | integer {s w} : Numeral s w → Spelling (.integer w) s
  | label {s} : IsIdentifier s → Spelling (.label (String.ofList s)) (':' :: s)
  | op {s} : IsMnemonic s → Spelling (.op (String.ofList s)) s

/-- The tokens whose spelling a word may not follow. -/
def Kind.isWord : Kind → Bool
  | .comma | .lbracket | .rbracket | .plus => false
  | _ => true

/-- Spaces and tabs. -/
def Gap (g : List Char) : Prop := ∀ c ∈ g, c = ' ' ∨ c = '\t'

/-- The end of a line, with or without a comment. -/
inductive LineEnd : List Char → Prop where
  | newline : LineEnd ['\n']
  | comment {s} : '\n' ∉ s → LineEnd ('/' :: '/' :: s ++ ['\n'])

/-- The ways to write tokens on a line. -/
inductive LineText : List Kind → List Char → Prop where
  | nil {g e} : Gap g → LineEnd e → LineText [] (g ++ e)
  | cons {g k s ks cs} : Gap g → Spelling k s → (k.isWord = true → Separated cs) → LineText ks cs →
      LineText (k :: ks) (g ++ (s ++ cs))

/-- A line has characters. -/
lemma LineText.ne_nil {ks : List Kind} {cs : List Char} (h : LineText ks cs) : cs ≠ [] := by
  induction h with
  | nil _ he => cases he <;> simp
  | cons _ _ _ _ ih => simp [ih]

/-- What separates a text separates a longer one. -/
lemma Separated.append {cs rest : List Char} (h : Separated cs) (hne : cs ≠ []) : Separated (cs ++ rest) := by
  obtain ⟨c, cs, rfl⟩ := List.exists_cons_of_ne_nil hne
  exact h

/-! ### Characters -/

/-- Digits by their codes. -/
lemma isDigit_iff {c : Char} : c.isDigit = true ↔ 48 ≤ c.toNat ∧ c.toNat ≤ 57 := by
  simp [Char.isDigit, UInt32.le_iff_toNat_le]

/-- Small letters by their codes. -/
lemma isLower_iff {c : Char} : c.isLower = true ↔ 97 ≤ c.toNat ∧ c.toNat ≤ 122 := by
  simp [Char.isLower, UInt32.le_iff_toNat_le]

/-- Capitals by their codes. -/
lemma isUpper_iff {c : Char} : c.isUpper = true ↔ 65 ≤ c.toNat ∧ c.toNat ≤ 90 := by
  simp [Char.isUpper, UInt32.le_iff_toNat_le]

/-- A decimal digit is one of `0` to `9`. -/
lemma isDigitOf_ten {c : Char} : IsDigitOf 10 c ↔ c.isDigit = true := by
  unfold IsDigitOf digitValue
  constructor
  · rintro ⟨d, hd, hlt⟩
    split at hd
    · assumption
    · split at hd
      · cases hd; omega
      · split at hd
        · cases hd; omega
        · cases hd
  · intro h
    rw [if_pos h]
    refine ⟨_, rfl, ?_⟩
    have hc := isDigit_iff.mp h
    have e : '0'.toNat = 48 := rfl
    omega

/-- A binary digit is `0` or `1`. -/
lemma isDigitOf_two {c : Char} (h : IsDigitOf 2 c) : c = '0' ∨ c = '1' := by
  obtain ⟨d, hd, hlt⟩ := h
  have hdig := isDigitOf_ten.mp ⟨d, hd, by omega⟩
  rw [digitValue, if_pos hdig] at hd
  cases hd
  have hc := isDigit_iff.mp hdig
  have e0 : '0'.toNat = 48 := rfl
  have e1 : '1'.toNat = 49 := rfl
  have h01 : c.toNat = '0'.toNat ∨ c.toNat = '1'.toNat := by omega
  exact h01.imp Char.toNat_inj.mp Char.toNat_inj.mp

variable {p p' : Position} {c : Char} {s rest : List Char}

/-- What separates is none of the characters of a word. -/
lemma separates_inv (h : separates c = true) :
    c.toNat < 128 ∧ c.isLower = false ∧ c.isUpper = false ∧ c.isDigit = false ∧ c ≠ '_' := by
  simpa [separates, Char.isAlphanum, Char.isAlpha, and_assoc, and_comm, and_left_comm] using h

/-- A printed character is no white space. -/
lemma isWhitespace_graphic (h : 33 ≤ c.toNat ∧ c.toNat ≤ 126) : isWhitespace c = false := by
  simp [isWhitespace]
  omega

/-- A letter or digit is no white space and no token of its own. -/
lemma alphanum_start (hc : c.isAlphanum = true) :
    c ∉ ['/', ',', '\n', '=', '[', ']', '+'] ∧ isWhitespace c = false := by
  constructor
  · intro hm
    simp only [List.mem_cons, List.not_mem_nil, or_false] at hm
    rcases hm with rfl | rfl | rfl | rfl | rfl | rfl | rfl <;> cases hc
  · apply isWhitespace_graphic
    simp only [Char.isAlphanum, Char.isAlpha, Bool.or_eq_true, isUpper_iff, isLower_iff, isDigit_iff] at hc
    omega

/-! ### Scanning -/

/-- Consuming characters that are all accepted. -/
lemma scan_accepted {accept : List Char → Char → Option (List Char)} {out : Char → List Char}
    {acc : List Char} (hs : ∀ c ∈ s, ∀ l, accept (acc ++ l) c = some (acc ++ l ++ out c)) :
    scan accept acc (s ++ rest) p = (p.advanceAll s).bind (scan accept (acc ++ s.flatMap out) rest) := by
  induction s generalizing acc p with
  | nil =>
    rw [List.flatMap_nil, List.append_nil]
    rfl
  | cons c s ih =>
    obtain ⟨hc, hs⟩ := List.forall_mem_cons.mp hs
    have hc := hc []
    rw [List.append_nil] at hc
    rw [List.cons_append, scan, hc, Position.advanceAll, Option.bind_assoc]
    dsimp only
    congr 1
    funext p1
    rw [List.flatMap_cons, ← List.append_assoc]
    apply ih
    intro d hd l
    rw [List.append_assoc, hs d hd, ← List.append_assoc]

/-- Consuming stops at a character that is not accepted. -/
lemma scan_stop {accept : List Char → Char → Option (List Char)} {acc : List Char}
    (hrest : ∀ c, rest.head? = some c → accept acc c = none) :
    scan accept acc rest p = some (acc, ⟨rest, p⟩) := by
  cases rest with
  | nil => rfl
  | cons c cs => rw [scan, hrest c rfl]

/-- Consuming characters that are all accepted, up to one that is not. -/
lemma scan_append {accept : List Char → Char → Option (List Char)} {out : Char → List Char}
    {acc : List Char} (hs : ∀ c ∈ s, ∀ l, accept (acc ++ l) c = some (acc ++ l ++ out c))
    (hrest : ∀ c, rest.head? = some c → ∀ l, accept l c = none) (hp : p.advanceAll s = some p') :
    scan accept acc (s ++ rest) p = some (acc ++ s.flatMap out, ⟨rest, p'⟩) := by
  rw [scan_accepted hs, hp, Option.bind_some]
  exact scan_stop fun c hc => hrest c hc _

/-- The characters after the first of a name. -/
lemma scan_identifier {c : Char} (hs : ∀ d ∈ s, d.isAlphanum = true ∨ d = '_') (hrest : Separated rest)
    (hp : p.advanceAll s = some p') :
    scan acceptIdentifier [c] (s ++ rest) p = some (c :: s, ⟨rest, p'⟩) := by
  have h : scan acceptIdentifier [c] (s ++ rest) p = some ([c] ++ s.flatMap fun d => [d], ⟨rest, p'⟩) := by
    apply scan_append _ _ hp
    · intro d hd l
      have hw : (d.isAlphanum || d == '_') = true := by simpa using hs d hd
      rw [acceptIdentifier, hw]
      split <;> rfl
    · intro d hd l
      obtain ⟨_, hlow, hup, hdig, hu⟩ := separates_inv (hrest d hd)
      simp [acceptIdentifier, Char.isAlphanum, Char.isAlpha, hlow, hup, hdig, hu]
  rw [h, List.flatMap_singleton']
  rfl

/-- A name from its first character on. -/
lemma scan_name (hs : IsIdentifier s) (hrest : Separated rest) (hp : p.advanceAll s = some p') :
    scan acceptIdentifier [] (s ++ rest) p = some (s, ⟨rest, p'⟩) := by
  obtain ⟨c, cs, rfl, hc, hcs⟩ := hs
  obtain ⟨p1, hp1, hp⟩ := Option.bind_eq_some_iff.mp hp
  rw [List.cons_append, scan, acceptIdentifier, if_pos hc, hp1]
  exact scan_identifier hcs hrest hp

/-- A name after a `&`, `@`, `#` or `:`. -/
lemma identifier_name (hs : IsIdentifier s) (hrest : Separated rest) (hp : p.advanceAll s = some p') :
    Lexer.identifier ⟨s ++ rest, p⟩ none = some (String.ofList s, ⟨rest, p'⟩) := by
  rw [Lexer.identifier]
  dsimp only [Option.toList]
  rw [scan_name hs hrest hp]
  rfl

/-- The characters after the first of a mnemonic. -/
lemma scan_op {c : Char} (hs : ∀ d ∈ s, d.isUpper = true ∨ d.isDigit = true ∨ d = '_')
    (hrest : Separated rest) (hp : p.advanceAll s = some p') :
    scan acceptOp [c] (s ++ rest) p = some (c :: s, ⟨rest, p'⟩) := by
  have h : scan acceptOp [c] (s ++ rest) p = some ([c] ++ s.flatMap fun d => [d], ⟨rest, p'⟩) := by
    apply scan_append _ _ hp
    · intro d hd l
      have hw : (d.isUpper || d.isDigit || d == '_') = true := by simpa [or_assoc] using hs d hd
      rw [acceptOp, if_pos hw]
    · intro d hd l
      obtain ⟨_, hlow, hup, hdig, hu⟩ := separates_inv (hrest d hd)
      simp [acceptOp, hup, hdig, hu]
  rw [h, List.flatMap_singleton']
  rfl

/-- The digits of a number without the underscores. -/
lemma flatMap_digits : (s.flatMap fun d => if d = '_' then [] else [d]) = s.filter (· != '_') := by
  induction s with
  | nil => rfl
  | cons d s ih =>
    rw [List.flatMap_cons, ih, List.filter_cons]
    by_cases h : d = '_' <;> simp [h]

/-- A character that separates is no digit of any radix. -/
lemma digitValue_separates (h : separates c = true) : digitValue c = none := by
  obtain ⟨_, hlow, hup, hdig, _⟩ := separates_inv h
  have hlow' : ¬ ('a' ≤ c ∧ c ≤ 'f') := by
    rintro ⟨h1, h2⟩
    have h3 : c.isLower = true := isLower_iff.mpr ⟨h1, Nat.le_trans h2 (by decide)⟩
    rw [hlow] at h3
    cases h3
  have hup' : ¬ ('A' ≤ c ∧ c ≤ 'F') := by
    rintro ⟨h1, h2⟩
    have h3 : c.isUpper = true := isUpper_iff.mpr ⟨h1, Nat.le_trans h2 (by decide)⟩
    rw [hup] at h3
    cases h3
  rw [digitValue, hdig, if_neg Bool.false_ne_true, if_neg hlow', if_neg hup']

/-- The loop of `parse_hex` accepts the digits and `_`. -/
lemma acceptHex_digit {l : List Char} (h : c = '_' ∨ IsDigitOf 16 c) :
    acceptHex l c = some (l ++ if c = '_' then [] else [c]) := by
  by_cases hu : c = '_'
  · simp [acceptHex, hu]
  · obtain ⟨v, hv, _⟩ := h.resolve_left hu
    simp [acceptHex, hu, isHexDigit, hv]

/-- The loop of `parse_bin` accepts the digits and `_`. -/
lemma acceptBin_digit {l : List Char} (h : c = '_' ∨ IsDigitOf 2 c) :
    acceptBin l c = some (l ++ if c = '_' then [] else [c]) := by
  rcases h with rfl | h
  · simp [acceptBin]
  · rcases isDigitOf_two h with rfl | rfl <;> simp [acceptBin]

/-- The digits of a hexadecimal number. -/
lemma scan_hex (hs : ∀ d ∈ s, d = '_' ∨ IsDigitOf 16 d) (hrest : Separated rest)
    (hp : p.advanceAll s = some p') :
    scan acceptHex [] (s ++ rest) p = some (s.filter (· != '_'), ⟨rest, p'⟩) := by
  have h : scan acceptHex [] (s ++ rest) p =
      some ([] ++ s.flatMap fun d => if d = '_' then [] else [d], ⟨rest, p'⟩) := by
    apply scan_append _ _ hp
    · intro d hd l
      exact acceptHex_digit (hs d hd)
    · intro d hd l
      have hv := digitValue_separates (hrest d hd)
      obtain ⟨_, _, _, _, hu⟩ := separates_inv (hrest d hd)
      simp [acceptHex, hu, isHexDigit, hv]
  rw [h, flatMap_digits]
  rfl

/-- The digits of a binary number. -/
lemma scan_bin (hs : ∀ d ∈ s, d = '_' ∨ IsDigitOf 2 d) (hrest : Separated rest)
    (hp : p.advanceAll s = some p') :
    scan acceptBin [] (s ++ rest) p = some (s.filter (· != '_'), ⟨rest, p'⟩) := by
  have h : scan acceptBin [] (s ++ rest) p =
      some ([] ++ s.flatMap fun d => if d = '_' then [] else [d], ⟨rest, p'⟩) := by
    apply scan_append _ _ hp
    · intro d hd l
      exact acceptBin_digit (hs d hd)
    · intro d hd l
      have h := hrest d hd
      have h0 : d ≠ '0' := by rintro rfl; cases h
      have h1 : d ≠ '1' := by rintro rfl; cases h
      obtain ⟨_, _, _, _, hu⟩ := separates_inv h
      simp [acceptBin, hu, h0, h1]
  rw [h, flatMap_digits]
  rfl

/-- The lexer skips a comment. -/
lemma skipComment_append (hs : '\n' ∉ s) (hp : p.advanceAll (s ++ ['\n']) = some p') :
    skipComment (s ++ '\n' :: rest) p = some ⟨rest, p'⟩ := by
  induction s generalizing p with
  | nil =>
    obtain ⟨p1, hp1, hp⟩ := Option.bind_eq_some_iff.mp hp
    cases hp
    rw [List.nil_append, skipComment, hp1]
    rfl
  | cons c s ih =>
    obtain ⟨p1, hp1, hp⟩ := Option.bind_eq_some_iff.mp hp
    rw [List.mem_cons, not_or] at hs
    rw [List.cons_append, skipComment, hp1, Option.bind_some, if_neg (Ne.symm hs.1)]
    exact ih hs.2 hp

variable [Unicode]

/-- The loop of `parse_dec` accepts the digits and `_`. -/
lemma acceptDec_digit {l : List Char} (h : c = '_' ∨ IsDigitOf 10 c) :
    acceptDec l c = some (l ++ if c = '_' then [] else [c]) := by
  by_cases hu : c = '_'
  · simp [acceptDec, hu]
  · have hdig := isDigitOf_ten.mp (h.resolve_left hu)
    simp [acceptDec, hu, isNumeric, hdig]

/-- The digits after the first of a decimal number. -/
lemma scan_dec {c : Char} (hs : ∀ d ∈ s, d = '_' ∨ IsDigitOf 10 d) (hrest : Separated rest)
    (hp : p.advanceAll s = some p') :
    scan acceptDec [c] (s ++ rest) p = some (c :: s.filter (· != '_'), ⟨rest, p'⟩) := by
  have h : scan acceptDec [c] (s ++ rest) p =
      some ([c] ++ s.flatMap fun d => if d = '_' then [] else [d], ⟨rest, p'⟩) := by
    apply scan_append _ _ hp
    · intro d hd l
      exact acceptDec_digit (hs d hd)
    · intro d hd l
      obtain ⟨hlt, _, _, hdig, hu⟩ := separates_inv (hrest d hd)
      have hge : ¬ 128 ≤ d.toNat := Nat.not_le.mpr hlt
      simp [acceptDec, hu, isNumeric, hdig, hge]
  rw [h, flatMap_digits]
  rfl

/-! ### Tokens -/

/-- The number of a numeral. -/
lemma number_numeral {c : Char} {w : Word} (h : Numeral (c :: s) w) (hrest : Separated rest)
    (hp : p.advanceAll s = some p') :
    c.isDigit = true ∧ Lexer.number ⟨s ++ rest, p⟩ c = some (.ok w, ⟨rest, p'⟩) := by
  have hread : ∀ {radix expected invalid int w p}, fromStrRadix radix int = some w →
      readDigits radix expected invalid int p = .ok w := by
    intro radix expected invalid int w p h
    have hne : int.isEmpty = false := by
      cases int with
      | nil => cases h
      | cons => rfl
    rw [readDigits, hne, h]
    rfl
  cases h with
  | dec hc hd =>
    refine ⟨hc, ?_⟩
    have hcu : (c != '_') = true := by
      rw [bne_iff_ne]
      rintro rfl
      cases hc
    have hv := hd.value
    rw [List.filter_cons, if_pos hcu] at hv
    have hdec : Lexer.parseDec ⟨s ++ rest, p⟩ c = some (.ok w, ⟨rest, p'⟩) := by
      rw [Lexer.parseDec, scan_dec (fun d hm => hd.digits d (List.mem_cons_of_mem _ hm)) hrest hp,
        Option.map_some]
      dsimp only
      rw [hread hv]
    -- After a leading 0 the next character chooses the radix; in a decimal numeral it is no `x` or `b`.
    have hhead : ∀ d cs, s ++ rest = d :: cs → d.isLower = false := by
      intro d cs e
      cases s with
      | nil =>
        rw [List.nil_append] at e
        exact (separates_inv (hrest d (by rw [e]; rfl))).2.1
      | cons d' s =>
        cases e
        rcases hd.digits d (by simp) with rfl | hd
        · rfl
        · have h1 := isDigit_iff.mp (isDigitOf_ten.mp hd)
          apply Bool.eq_false_iff.mpr
          intro h2
          have h3 := isLower_iff.mp h2
          omega
    rw [Lexer.number]
    split
    · split
      · rename_i e
        cases hhead _ _ e
      · rename_i e
        cases hhead _ _ e
      · exact hdec
    · exact hdec
  | hex hd =>
    refine ⟨rfl, ?_⟩
    obtain ⟨p1, hp1, hp⟩ := Option.bind_eq_some_iff.mp hp
    show ((p.advance (some 'x')).bind fun p => Lexer.parseHex ⟨_ ++ rest, p⟩) = _
    rw [hp1, Option.bind_some, Lexer.parseHex, scan_hex hd.digits hrest hp, Option.map_some]
    dsimp only
    rw [hread hd.value]
  | bin hd =>
    refine ⟨rfl, ?_⟩
    obtain ⟨p1, hp1, hp⟩ := Option.bind_eq_some_iff.mp hp
    show ((p.advance (some 'b')).bind fun p => Lexer.parseBin ⟨_ ++ rest, p⟩) = _
    rw [hp1, Option.bind_some, Lexer.parseBin, scan_bin hd.digits hrest hp, Option.map_some]
    dsimp only
    rw [hread hd.value]

/-- A character that is no white space and no token of its own starts a longer token. -/
lemma nextItem_start (hc : c ∉ ['/', ',', '\n', '=', '[', ']', '+']) (hw : isWhitespace c = false)
    {p1 : Position} (hp : p.advance (some c) = some p1) :
    nextItem (c :: s) p = startToken p c ⟨s, p1⟩ := by
  simp only [List.mem_cons, List.not_mem_nil, or_false, not_or] at hc
  obtain ⟨h1, h2, h3, h4, h5, h6, h7⟩ := hc
  rw [nextItem, hp, Option.bind_some]
  simp only [h1, h2, h3, h4, h5, h6, h7, hw, if_false, Bool.false_eq_true]

/-- The start of a token, by what its first character is. -/
lemma startToken_lower (hc : c.isLower = true) {lx} :
    startToken p c lx = (lx.identifier c).map fun (s, lx) => (some (.ok ⟨p, .identifier s⟩), lx) := by
  have hne : ∀ {d : Char}, d.isLower = false → c ≠ d := by
    rintro d hd rfl
    rw [hd] at hc
    cases hc
  rw [startToken, if_neg (hne rfl), if_neg (hne rfl), if_neg (hne rfl), if_pos hc]

/-- A digit starts a number. -/
lemma startToken_digit (hc : c.isDigit = true) {lx} :
    startToken p c lx = (lx.number c).map fun (n, lx) => (some (n.map fun n => ⟨p, .integer n⟩), lx) := by
  have hne : ∀ {d : Char}, d.isDigit = false → c ≠ d := by
    rintro d hd rfl
    rw [hd] at hc
    cases hc
  have hlow : ¬ c.isLower = true := fun h => by
    have h1 := isDigit_iff.mp hc
    have h2 := isLower_iff.mp h
    omega
  rw [startToken, if_neg (hne rfl), if_neg (hne rfl), if_neg (hne rfl), if_neg hlow, if_pos hc]

/-- A capital starts an operation. -/
lemma startToken_upper (hc : c.isUpper = true) {lx} :
    startToken p c lx = (lx.op c).map fun (s, lx) => (some (.ok ⟨p, .op s⟩), lx) := by
  have hne : ∀ {d : Char}, d.isUpper = false → c ≠ d := by
    rintro d hd rfl
    rw [hd] at hc
    cases hc
  have h1 := isUpper_iff.mp hc
  have hlow : ¬ c.isLower = true := fun h => by
    have h2 := isLower_iff.mp h
    omega
  have hdig : ¬ c.isDigit = true := fun h => by
    have h2 := isDigit_iff.mp h
    omega
  rw [startToken, if_neg (hne rfl), if_neg (hne rfl), if_neg (hne rfl), if_neg hlow, if_neg hdig,
    if_neg (hne rfl), if_pos hc]

/-- The lexer reads a spelling. -/
lemma Spelling.nextItem {k : Kind} (h : Spelling k s) (hrest : k.isWord = true → Separated rest)
    (hp : p.advanceAll s = some p') :
    Asm.nextItem (s ++ rest) p = some (some (.ok ⟨p, k⟩), ⟨rest, p'⟩) := by
  cases h with
  | absolute hs | segment hs | directive hs | label hs =>
    obtain ⟨p1, hp1, hp⟩ := Option.bind_eq_some_iff.mp hp
    rw [List.cons_append, nextItem_start (by decide) (by decide) hp1]
    show (Lexer.identifier ⟨_ ++ rest, p1⟩ none).map _ = _
    rw [identifier_name hs (hrest rfl) hp]
    rfl
  | comma | lbracket | rbracket | plus =>
    obtain ⟨p1, hp1, hp⟩ := Option.bind_eq_some_iff.mp hp
    cases hp
    rw [List.cons_append, Asm.nextItem, hp1]
    rfl
  | identifier hs =>
    obtain ⟨c, cs, rfl, hc, hcs⟩ := hs
    obtain ⟨p1, hp1, hp⟩ := Option.bind_eq_some_iff.mp hp
    have hstart := alphanum_start (c := c) (by simp [Char.isAlphanum, Char.isAlpha, hc])
    rw [List.cons_append, nextItem_start hstart.1 hstart.2 hp1, startToken_lower hc, Lexer.identifier]
    dsimp only [Option.toList]
    rw [scan_identifier hcs (hrest rfl) hp]
    rfl
  | integer hn =>
    have hcons : ∃ c cs, s = c :: cs := by cases hn <;> exact ⟨_, _, rfl⟩
    obtain ⟨c, cs, rfl⟩ := hcons
    obtain ⟨p1, hp1, hp⟩ := Option.bind_eq_some_iff.mp hp
    obtain ⟨hc, hnum⟩ := number_numeral hn (hrest rfl) hp
    have hstart := alphanum_start (c := c) (by simp [Char.isAlphanum, hc])
    rw [List.cons_append, nextItem_start hstart.1 hstart.2 hp1, startToken_digit hc, hnum]
    rfl
  | op hs =>
    obtain ⟨c, cs, rfl, hc, hcs⟩ := hs
    obtain ⟨p1, hp1, hp⟩ := Option.bind_eq_some_iff.mp hp
    have hstart := alphanum_start (c := c) (by simp [Char.isAlphanum, Char.isAlpha, hc])
    rw [List.cons_append, nextItem_start hstart.1 hstart.2 hp1, startToken_upper hc, Lexer.op,
      scan_op hcs (hrest rfl) hp]
    rfl

/-! ### Lines -/

/-- The lexer skips a gap. -/
lemma nextItem_gap {g : List Char} (hg : Gap g) (hp : p.advanceAll g = some p') :
    nextItem (g ++ rest) p = nextItem rest p' := by
  induction g generalizing p with
  | nil => cases hp; rfl
  | cons c g ih =>
    obtain ⟨p1, hp1, hp⟩ := Option.bind_eq_some_iff.mp hp
    obtain ⟨hc, hg⟩ := List.forall_mem_cons.mp hg
    rw [List.cons_append, nextItem, hp1, ← ih hg hp]
    rcases hc with rfl | rfl <;> rfl

/-- The lexer reads the end of a line. -/
lemma LineEnd.nextItem {e : List Char} (he : LineEnd e) (hp : p.advanceAll e = some p') :
    Asm.nextItem (e ++ rest) p = some (some (.ok ⟨p, .eol⟩), ⟨rest, p'⟩) := by
  cases he with
  | newline =>
    obtain ⟨p1, hp1, hp⟩ := Option.bind_eq_some_iff.mp hp
    cases hp
    rw [List.cons_append, Asm.nextItem, hp1]
    rfl
  | @comment s hs =>
    obtain ⟨p1, hp1, hp⟩ := Option.bind_eq_some_iff.mp hp
    obtain ⟨p2, hp2, hp⟩ := Option.bind_eq_some_iff.mp hp
    rw [List.append_assoc, List.cons_append, List.cons_append, Asm.nextItem, hp1, Option.bind_some,
      if_pos rfl, slash]
    show ((p1.advance (some '/')).bind fun p2 => (skipComment (s ++ '\n' :: rest) p2).map _) = _
    rw [hp2, Option.bind_some, skipComment_append hs hp]
    rfl

/-- The lexer yields the tokens of a line and an end of line, and goes on after it. -/
lemma lineText_stream {ks : List Kind} {cs : List Char} (h : LineText ks cs)
    (hp : p.advanceAll cs = some p') :
    ∃ tokens : List Token, tokens.map Token.kind = ks ++ [.eol] ∧
      (Lexer.mk (cs ++ rest) p).stream =
        ⟨tokens.map .ok ++ (Lexer.mk rest p').stream.items, (Lexer.mk rest p').stream.aborts⟩ := by
  induction h generalizing p with
  | nil hg he =>
    rw [Position.advanceAll_append] at hp
    obtain ⟨p1, hp1, hp⟩ := Option.bind_eq_some_iff.mp hp
    refine ⟨[⟨p1, .eol⟩], rfl, Lexer.stream_cons ?_⟩
    rw [Lexer.next, List.append_assoc, nextItem_gap hg hp1]
    exact he.nextItem hp
  | @cons g k s ks cs hg hs hsep hcs ih =>
    rw [Position.advanceAll_append] at hp
    obtain ⟨p1, hp1, hp⟩ := Option.bind_eq_some_iff.mp hp
    rw [Position.advanceAll_append] at hp
    obtain ⟨p2, hp2, hp⟩ := Option.bind_eq_some_iff.mp hp
    obtain ⟨tokens, hk, hstream⟩ := ih hp
    refine ⟨⟨p1, _⟩ :: tokens, by rw [List.map_cons, hk]; rfl, ?_⟩
    have hnext : (Lexer.mk (g ++ (s ++ cs) ++ rest) p).next = some (some (.ok ⟨p1, k⟩), ⟨cs ++ rest, p2⟩) := by
      rw [Lexer.next, List.append_assoc, nextItem_gap hg hp1, List.append_assoc]
      exact hs.nextItem (fun hw => (hsep hw).append hcs.ne_nil) hp2
    rw [Lexer.stream_cons hnext, hstream]
    rfl

end Thorium.Asm
