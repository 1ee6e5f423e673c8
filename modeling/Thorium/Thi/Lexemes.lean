import Thorium.Thi.Lexer

/-!
# The texts of tokens

`IsToken` relates the tokens of an instruction file to what follows them, and `Lexes` a file to its tokens, with
white space and comments between them. `isToken_startToken` and `startToken_isToken` say that the branches of
`Lexer:next` read a token of the relation, and all of them.
-/

namespace Thorium.Thi

/-- The characters of the operands, and the types of their tokens. -/
def operands : List (Char × TokenType) :=
  [('r', .register), ('w', .word), ('b', .byte), ('@', .csAddress), ('&', .absoluteAddress)]

/-- An operand starts before `cs`. -/
def StartsOperand (c : Char) (cs : List Char) : Prop := c ∈ operands.map Prod.fst ∧ atDigit cs = true

/-- Digits that no digit follows. -/
def DigitRun (s rest : List Char) : Prop :=
  (∀ c ∈ s, c.isDigit = true) ∧ ∀ c, rest.head? = some c → c.isDigit = false

/-- Letters that no letter follows, and that start no flag and no operand. -/
def WordRun (s rest : List Char) : Prop :=
  ∃ c cs, s = c :: cs ∧ c.isAlpha = true ∧ (∀ d ∈ cs, d.isAlpha = true) ∧
    (∀ d, rest.head? = some d → d.isAlpha = false) ∧ isFlag c = false ∧ ¬ StartsOperand c (cs ++ rest)

/-- A text in which no parenthesis closes one outside of it, and which the end of the file or such a parenthesis
follows. -/
def TextRun (s rest : List Char) : Prop :=
  (∀ p, p <+: s → p.count ')' ≤ p.count '(') ∧ (rest = [] ∨ rest.head? = some ')' ∧ s.count ')' = s.count '(')

/-- The characters that start no other token than a text. -/
def StartsText (c : Char) (cs : List Char) : Prop :=
  isWhitespace c = false ∧ c ∉ ['#', '(', ')', ','] ∧ c.isDigit = false ∧ isFlag c = false ∧ c.isAlpha = false ∧
    ¬ StartsOperand c cs

/-- The tokens, and what follows them. -/
inductive IsToken : Token → List Char → Prop where
  | lpar {rest} : IsToken ⟨.lpar, ['(']⟩ rest
  | rpar {rest} : IsToken ⟨.rpar, [')']⟩ rest
  | comma {rest} : IsToken ⟨.comma, [',']⟩ rest
  | number {c s rest} : c.isDigit = true → DigitRun s rest → IsToken ⟨.number, c :: s⟩ rest
  | operand {c type s rest} : (c, type) ∈ operands → s ≠ [] → DigitRun s rest → IsToken ⟨type, c :: s⟩ rest
  | flag {c rest} : isFlag c = true → IsToken ⟨.flag, [c]⟩ rest
  | keyword {s rest} : WordRun s rest → String.ofList s ∈ keywords → IsToken ⟨.keyword, s⟩ rest
  | id {s rest} : WordRun s rest → String.ofList s ∉ keywords → isMnemonic s = true → IsToken ⟨.id, s⟩ rest
  | word {s s' rest} : WordRun s (s' ++ rest) → String.ofList s ∉ keywords → isMnemonic s = false →
      TextRun s' rest → IsToken ⟨.text, s ++ s'⟩ rest
  | text {c s rest} : StartsText c (s ++ rest) → TextRun s rest → IsToken ⟨.text, c :: s⟩ rest

/-- What opens and closes a block comment. -/
def marker : List Char := ['#', '#', '#']

/-- The tokens of a text, without white space and comments: a comment goes to the end of its line, or from `###` to
`###`. -/
inductive Lexes : List Char → List Token → Prop where
  | nil : Lexes [] []
  | whitespace {c cs ts} : isWhitespace c = true → Lexes cs ts → Lexes (c :: cs) ts
  | line {s cs ts} : ¬ ['#', '#'] <+: s → '\n' ∉ s → Lexes cs ts → Lexes ('#' :: (s ++ '\n' :: cs)) ts
  | block {s cs ts} : ¬ marker <:+: s ++ ['#', '#'] → Lexes cs ts → Lexes (marker ++ (s ++ (marker ++ cs))) ts
  | token {t cs ts} : IsToken t cs → Lexes cs ts → Lexes (t.value ++ cs) (t :: ts)

variable {c : Char} {s cs rest : List Char} {t : Token} {level : Nat}

/-! ### Runs -/

/-- The digits at the start are a run of digits. -/
lemma digitRun_takeWhile : DigitRun (cs.takeWhile Char.isDigit) (cs.dropWhile Char.isDigit) := by
  refine ⟨fun c hc => List.mem_takeWhile_imp hc, ?_⟩
  intro c hc
  have h := List.head?_dropWhile_not Char.isDigit cs
  rw [hc] at h
  exact h

/-- A text with more parentheses to close. -/
def TextRunAt (level : Nat) (s rest : List Char) : Prop :=
  (∀ p, p <+: s → p.count ')' ≤ p.count '(' + level) ∧
    (rest = [] ∨ rest.head? = some ')' ∧ s.count ')' = s.count '(' + level)

/-- One character more, on which the level changes. -/
lemma textRunAt_cons {level' : Nat}
    (hle : ∀ n m, n + (if c == ')' then 1 else 0) ≤ m + (if c == '(' then 1 else 0) + level ↔ n ≤ m + level')
    (heq : ∀ n m, n + (if c == ')' then 1 else 0) = m + (if c == '(' then 1 else 0) + level ↔ n = m + level') :
    TextRunAt level (c :: s) rest ↔ TextRunAt level' s rest := by
  unfold TextRunAt
  rw [List.count_cons, List.count_cons, heq]
  refine and_congr_left fun _ => ⟨?_, ?_⟩
  · intro h p hp
    have hc := h (c :: p) (List.cons_prefix_cons.mpr ⟨rfl, hp⟩)
    rw [List.count_cons, List.count_cons] at hc
    exact (hle _ _).mp hc
  · intro h p hp
    cases p with
    | nil => exact Nat.zero_le _
    | cons d p =>
      obtain ⟨rfl, hp'⟩ := List.cons_prefix_cons.mp hp
      rw [List.count_cons, List.count_cons]
      exact (hle _ _).mpr (h p hp')

/-- A parenthesis opens a level. -/
lemma textRunAt_open : TextRunAt level ('(' :: s) rest ↔ TextRunAt (level + 1) s rest := by
  apply textRunAt_cons
  · intro n m
    rw [if_neg (by decide), if_pos (by decide)]
    omega
  · intro n m
    rw [if_neg (by decide), if_pos (by decide)]
    omega

/-- A parenthesis closes a level. -/
lemma textRunAt_close : TextRunAt (level + 1) (')' :: s) rest ↔ TextRunAt level s rest := by
  apply textRunAt_cons
  · intro n m
    rw [if_pos (by decide), if_neg (by decide)]
    omega
  · intro n m
    rw [if_pos (by decide), if_neg (by decide)]
    omega

/-- Another character is on the same level. -/
lemma textRunAt_other (ho : c ≠ '(') (hc : c ≠ ')') : TextRunAt level (c :: s) rest ↔ TextRunAt level s rest := by
  have ho' : ¬ (c == '(') = true := fun h => ho (eq_of_beq h)
  have hc' : ¬ (c == ')') = true := fun h => hc (eq_of_beq h)
  apply textRunAt_cons
  · intro n m
    rw [if_neg hc', if_neg ho', Nat.add_zero, Nat.add_zero]
  · intro n m
    rw [if_neg hc', if_neg ho', Nat.add_zero, Nat.add_zero]

/-- A run ends before the last parenthesis. -/
lemma textRunAt_nil : TextRunAt level [] rest ↔ rest = [] ∨ rest.head? = some ')' ∧ level = 0 := by
  have hnil : ∀ p : List Char, p <+: [] → p.count ')' ≤ p.count '(' + level := by
    intro p hp
    rw [List.prefix_nil.mp hp]
    exact Nat.zero_le _
  rw [TextRunAt, and_iff_right hnil, List.count_nil, List.count_nil, Nat.zero_add]
  exact or_congr_right (and_congr_right fun _ => eq_comm)

/-- A text reads an opening parenthesis. -/
lemma readText_open : readText level ('(' :: cs) =
    ('(' :: (readText (level + 1) cs).1, (readText (level + 1) cs).2) := rfl

/-- A text reads a closing parenthesis of its own. -/
lemma readText_close : readText (level + 1) (')' :: cs) = (')' :: (readText level cs).1, (readText level cs).2) := rfl

/-- A text reads any other character. -/
lemma readText_other (ho : c ≠ '(') (hc : c ≠ ')') :
    readText level (c :: cs) = (c :: (readText level cs).1, (readText level cs).2) := by
  have ho' : (c == '(') = false := beq_eq_false_iff_ne.mpr ho
  have hc' : (c == ')') = false := beq_eq_false_iff_ne.mpr hc
  rw [readText, ho', hc']
  rfl

/-- What `readText` reads is a text run. -/
lemma textRunAt_readText : cs = (readText level cs).1 ++ (readText level cs).2 ∧
    TextRunAt level (readText level cs).1 (readText level cs).2 := by
  induction cs generalizing level with
  | nil => exact ⟨rfl, textRunAt_nil.mpr (.inl rfl)⟩
  | cons c cs ih =>
    by_cases ho : c = '('
    · cases ho
      obtain ⟨he, hr⟩ := @ih (level + 1)
      rw [readText_open]
      exact ⟨congrArg ('(' :: ·) he, textRunAt_open.mpr hr⟩
    by_cases hc : c = ')'
    · cases hc
      cases level with
      | zero => exact ⟨rfl, textRunAt_nil.mpr (.inr ⟨rfl, rfl⟩)⟩
      | succ level =>
        obtain ⟨he, hr⟩ := @ih level
        rw [readText_close]
        exact ⟨congrArg (')' :: ·) he, textRunAt_close.mpr hr⟩
    · obtain ⟨he, hr⟩ := @ih level
      rw [readText_other ho hc]
      exact ⟨congrArg (c :: ·) he, (textRunAt_other ho hc).mpr hr⟩

/-- A text run is what `readText` reads. -/
lemma readText_textRunAt (h : TextRunAt level s rest) : readText level (s ++ rest) = (s, rest) := by
  induction s generalizing level with
  | nil =>
    obtain rfl | ⟨hc, rfl⟩ := textRunAt_nil.mp h
    · rfl
    · obtain ⟨cs, rfl⟩ := List.head?_eq_some_iff.mp hc
      rfl
  | cons c s ih =>
    rw [List.cons_append]
    by_cases ho : c = '('
    · cases ho
      rw [readText_open, ih (textRunAt_open.mp h)]
    by_cases hc : c = ')'
    · cases hc
      cases level with
      | zero =>
        have hle := h.1 [')'] (List.cons_prefix_cons.mpr ⟨rfl, List.nil_prefix⟩)
        exact absurd hle (by decide)
      | succ level => rw [readText_close, ih (textRunAt_close.mp h)]
    · rw [readText_other ho hc, ih ((textRunAt_other ho hc).mp h)]

/-! ### Tokens -/

/-- The letters that may start an operand. -/
lemma startsOperand_iff : StartsOperand c cs ↔
    (c == 'r' && atDigit cs) = true ∨ (c == 'w' && atDigit cs) = true ∨ (c == 'b' && atDigit cs) = true ∨
      (c == '@' && atDigit cs) = true ∨ (c == '&' && atDigit cs) = true := by
  simp only [StartsOperand, operands, List.map_cons, List.map_nil, List.mem_cons, List.not_mem_nil, or_false,
    Bool.and_eq_true, beq_iff_eq, ← or_and_right]

/-- There are digits after the letter of an operand. -/
lemma takeWhile_ne_nil (h : atDigit cs = true) : cs.takeWhile Char.isDigit ≠ [] := by
  cases cs with
  | nil => cases h
  | cons d cs =>
    rw [List.takeWhile_cons_of_pos (show d.isDigit = true from h)]
    exact List.cons_ne_nil _ _

/-- The branches of `Lexer:next` read a token. -/
lemma isToken_startToken (hw : isWhitespace c = false) (hne : c ≠ '#') :
    c :: cs = (startToken c cs).1.value ++ (startToken c cs).2 ∧
      IsToken (startToken c cs).1 (startToken c cs).2 := by
  let P : Token × List Char → Prop := fun r => c :: cs = r.1.value ++ r.2 ∧ IsToken r.1 r.2
  have hnumber : ∀ {type}, IsToken ⟨type, c :: cs.takeWhile Char.isDigit⟩ (cs.dropWhile Char.isDigit) →
      P (numberToken type c cs) := fun h => ⟨congrArg (c :: ·) List.takeWhile_append_dropWhile.symm, h⟩
  have hoperand : ∀ {d type}, (d, type) ∈ operands → (c == d && atDigit cs) = true →
      P (numberToken type c cs) := by
    intro d type hm h
    obtain ⟨hc, hd⟩ := Bool.and_eq_true_iff.mp h
    cases eq_of_beq hc
    exact hnumber (.operand hm (takeWhile_ne_nil hd) digitRun_takeWhile)
  have h : P (startToken c cs) := by
    refine iteInduction (fun h => ?_) fun hlpar => ?_
    · cases eq_of_beq h
      exact ⟨rfl, .lpar⟩
    refine iteInduction (fun h => ?_) fun hrpar => ?_
    · cases eq_of_beq h
      exact ⟨rfl, .rpar⟩
    refine iteInduction (fun h => ?_) fun hcomma => ?_
    · cases eq_of_beq h
      exact ⟨rfl, .comma⟩
    refine iteInduction (fun h => hnumber (.number h digitRun_takeWhile)) fun hdigit => ?_
    refine iteInduction (fun h => hoperand (by decide) h) fun hr => ?_
    refine iteInduction (fun h => hoperand (by decide) h) fun hww => ?_
    refine iteInduction (fun h => hoperand (by decide) h) fun hb => ?_
    refine iteInduction (fun h => hoperand (by decide) h) fun hat => ?_
    refine iteInduction (fun h => hoperand (by decide) h) fun hamp => ?_
    have hop : ¬ StartsOperand c cs := by
      rw [startsOperand_iff]
      rintro (h | h | h | h | h)
      · exact hr h
      · exact hww h
      · exact hb h
      · exact hat h
      · exact hamp h
    refine iteInduction (fun h => ⟨rfl, .flag h⟩) fun hflag => ?_
    have hflag : isFlag c = false := eq_false_of_ne_true hflag
    refine iteInduction (fun halpha => ?_) fun halpha => ?_
    · have hsplit : c :: cs = c :: cs.takeWhile Char.isAlpha ++ cs.dropWhile Char.isAlpha :=
        congrArg (c :: ·) List.takeWhile_append_dropWhile.symm
      have hrun : WordRun (c :: cs.takeWhile Char.isAlpha) (cs.dropWhile Char.isAlpha) := by
        refine ⟨c, _, rfl, halpha, fun d hd => List.mem_takeWhile_imp hd, ?_, hflag, ?_⟩
        · intro d hd
          have h := List.head?_dropWhile_not Char.isAlpha cs
          rw [hd] at h
          exact h
        · rw [List.takeWhile_append_dropWhile]
          exact hop
      refine iteInduction (fun h => ⟨hsplit, .keyword hrun h⟩) fun hkey => ?_
      refine iteInduction (fun h => ⟨hsplit, .id hrun hkey h⟩) fun hmn => ?_
      obtain ⟨he, htext⟩ := @textRunAt_readText (cs.dropWhile Char.isAlpha) 0
      refine ⟨?_, .word ?_ hkey (eq_false_of_ne_true hmn) htext⟩
      · refine hsplit.trans ?_
        show _ = (_ ++ (readText 0 _).1) ++ (readText 0 _).2
        rw [List.append_assoc, ← he]
      · show WordRun _ ((readText 0 _).1 ++ (readText 0 _).2)
        rw [← he]
        exact hrun
    · obtain ⟨he, htext⟩ := @textRunAt_readText cs 0
      refine ⟨congrArg (c :: ·) he, .text ?_ htext⟩
      refine ⟨hw, ?_, eq_false_of_ne_true hdigit, hflag, eq_false_of_ne_true halpha, ?_⟩
      · simp only [List.mem_cons, List.not_mem_nil, or_false]
        rintro (h | h | h | h)
        · exact hne h
        · exact hlpar (beq_iff_eq.mpr h)
        · exact hrpar (beq_iff_eq.mpr h)
        · exact hcomma (beq_iff_eq.mpr h)
      · show ¬ StartsOperand c ((readText 0 cs).1 ++ (readText 0 cs).2)
        rw [← he]
        exact hop
  exact h

/-- What is accepted before something that does not start with any. -/
lemma takeWhile_run {p : Char → Bool} (hs : ∀ d ∈ s, p d = true) (hrest : ∀ d, rest.head? = some d → p d = false) :
    (s ++ rest).takeWhile p = s ∧ (s ++ rest).dropWhile p = rest := by
  have hstop : rest.takeWhile p = [] ∧ rest.dropWhile p = rest := by
    cases rest with
    | nil => exact ⟨rfl, rfl⟩
    | cons d rest =>
      have hd := hrest d rfl
      rw [List.takeWhile_cons, List.dropWhile_cons, hd]
      exact ⟨rfl, rfl⟩
  rw [List.takeWhile_append_of_pos hs, List.dropWhile_append_of_pos hs, hstop.1, hstop.2, List.append_nil]
  exact ⟨rfl, rfl⟩

/-- A number takes its digits. -/
lemma numberToken_run {type : TokenType} (h : DigitRun s rest) :
    numberToken type c (s ++ rest) = (⟨type, c :: s⟩, rest) := by
  obtain ⟨ht, hd⟩ := takeWhile_run h.1 h.2
  rw [numberToken, ht, hd]

/-- A text takes its run. -/
lemma textToken_run {read : List Char} (h : TextRun s rest) :
    textToken read (s ++ rest) = (⟨.text, read ++ s⟩, rest) := by
  rw [textToken, @readText_textRunAt s rest 0 h]

/-- A digit starts a number. -/
lemma startToken_digit (h : c.isDigit = true) : startToken c cs = numberToken .number c cs := by
  have hne : ∀ {d}, d.isDigit = false → ¬ (c == d) = true := by
    intro d hd e
    cases eq_of_beq e
    cases hd.symm.trans h
  rw [startToken, if_neg (hne rfl), if_neg (hne rfl), if_neg (hne rfl), if_pos h]

/-- An operand takes its digits. -/
lemma startToken_operand {type : TokenType} (hm : (c, type) ∈ operands) (hd : atDigit cs = true) :
    startToken c cs = numberToken type c cs := by
  simp only [operands, List.mem_cons, List.not_mem_nil, or_false, Prod.mk.injEq] at hm
  rw [startToken, hd]
  rcases hm with ⟨rfl, rfl⟩ | ⟨rfl, rfl⟩ | ⟨rfl, rfl⟩ | ⟨rfl, rfl⟩ | ⟨rfl, rfl⟩
  · rfl
  · rfl
  · rfl
  · rfl
  · rfl

/-- A flag is a letter. -/
lemma startToken_flag (h : isFlag c = true) : startToken c cs = (⟨.flag, [c]⟩, cs) := by
  simp only [isFlag, Bool.or_eq_true, beq_iff_eq] at h
  rcases h with rfl | rfl
  · rfl
  · rfl

/-- The branches for words and texts. -/
lemma startToken_word (hm : c ∉ ['(', ')', ',']) (hd : c.isDigit = false) (ho : ¬ StartsOperand c cs)
    (hf : isFlag c = false) : startToken c cs = if c.isAlpha then
      if String.ofList (c :: cs.takeWhile Char.isAlpha) ∈ keywords then
        (⟨.keyword, c :: cs.takeWhile Char.isAlpha⟩, cs.dropWhile Char.isAlpha)
      else if isMnemonic (c :: cs.takeWhile Char.isAlpha) then
        (⟨.id, c :: cs.takeWhile Char.isAlpha⟩, cs.dropWhile Char.isAlpha)
      else textToken (c :: cs.takeWhile Char.isAlpha) (cs.dropWhile Char.isAlpha)
    else textToken [c] cs := by
  simp only [List.mem_cons, List.not_mem_nil, or_false, not_or] at hm
  have hne : ∀ {d}, c ≠ d → ¬ (c == d) = true := fun h e => h (eq_of_beq e)
  rw [startsOperand_iff] at ho
  simp only [not_or] at ho
  obtain ⟨hr, hw, hb, hat, hamp⟩ := ho
  rw [startToken, if_neg (hne hm.1), if_neg (hne hm.2.1), if_neg (hne hm.2.2), hd, if_neg Bool.false_ne_true,
    if_neg hr, if_neg hw, if_neg hb, if_neg hat, if_neg hamp, hf, if_neg Bool.false_ne_true]

/-- A letter is no digit. -/
lemma isDigit_alpha (h : c.isAlpha = true) : c.isDigit = false := by
  have hd : c.isDigit = true ↔ 48 ≤ c.toNat ∧ c.toNat ≤ 57 := by
    simp [Char.isDigit, UInt32.le_iff_toNat_le]
  have ha : c.isAlpha = true ↔ 65 ≤ c.toNat ∧ c.toNat ≤ 90 ∨ 97 ≤ c.toNat ∧ c.toNat ≤ 122 := by
    simp [Char.isAlpha, Char.isUpper, Char.isLower, UInt32.le_iff_toNat_le]
  rw [Bool.eq_false_iff]
  intro h'
  have h1 := hd.mp h'
  have h2 := ha.mp h
  omega

/-- A character of a class that white space and `#` do not belong to. -/
lemma class_ne {p : Char → Bool} (h : p c = true)
    (hp : [' ', '\n', '\t', '\r', '#', '(', ')', ','].all (fun d => !p d) = true) :
    isWhitespace c = false ∧ c ≠ '#' ∧ c ∉ ['(', ')', ','] := by
  have hne : ∀ d ∈ [' ', '\n', '\t', '\r', '#', '(', ')', ','], c ≠ d := by
    rintro d hd rfl
    have hc := List.all_eq_true.mp hp c hd
    rw [h] at hc
    cases hc
  simp only [List.forall_mem_cons] at hne
  obtain ⟨h1, h2, h3, h4, h5, h6, h7, h8, _⟩ := hne
  refine ⟨?_, h5, ?_⟩
  · simp [isWhitespace, h1, h2, h3, h4]
  · simp [h6, h7, h8]

/-- A token starts with a character that is neither white space nor `#`, and the branches read it. -/
lemma startToken_isToken (h : IsToken t rest) : ∃ c s, t.value = c :: s ∧ isWhitespace c = false ∧ c ≠ '#' ∧
    startToken c (s ++ rest) = (t, rest) := by
  have hword : ∀ {s rest}, WordRun s rest → ∃ c cs, s = c :: cs ∧ isWhitespace c = false ∧ c ≠ '#' ∧
      startToken c (cs ++ rest) = if String.ofList s ∈ keywords then (⟨.keyword, s⟩, rest)
        else if isMnemonic s then (⟨.id, s⟩, rest) else textToken s rest := by
    rintro s rest ⟨c, cs, rfl, halpha, hcs, hrest, hflag, hop⟩
    obtain ⟨hw, hne, hm⟩ := class_ne halpha (by decide)
    obtain ⟨ht, hd⟩ := takeWhile_run hcs hrest
    refine ⟨c, cs, rfl, hw, hne, ?_⟩
    rw [startToken_word hm (isDigit_alpha halpha) hop hflag, if_pos halpha, ht, hd]
  cases h with
  | lpar => exact ⟨'(', [], rfl, by decide, by decide, rfl⟩
  | rpar => exact ⟨')', [], rfl, by decide, by decide, rfl⟩
  | comma => exact ⟨',', [], rfl, by decide, by decide, rfl⟩
  | @number c s _ hc hr =>
    obtain ⟨hw, hne, _⟩ := @class_ne c Char.isDigit hc (by decide)
    exact ⟨c, s, rfl, hw, hne, by rw [startToken_digit hc, numberToken_run hr]⟩
  | @operand c type s _ hm hs hr =>
    have hd : atDigit (s ++ rest) = true := by
      obtain ⟨d, s, rfl⟩ := List.exists_cons_of_ne_nil hs
      exact hr.1 d (List.mem_cons_self ..)
    have hop : operands.any (fun o => o.1 == c) = true := List.any_eq_true.mpr ⟨_, hm, beq_self_eq_true c⟩
    obtain ⟨hw, hne, _⟩ := @class_ne c (fun c => operands.any fun o => o.1 == c) hop (by decide)
    exact ⟨c, s, rfl, hw, hne, by rw [startToken_operand hm hd, numberToken_run hr]⟩
  | @flag c _ hf =>
    obtain ⟨hw, hne, _⟩ := @class_ne c isFlag hf (by decide)
    exact ⟨c, [], rfl, hw, hne, startToken_flag hf⟩
  | keyword hr hk =>
    obtain ⟨c, cs, rfl, hw, hne, e⟩ := hword hr
    exact ⟨c, cs, rfl, hw, hne, by rw [e, if_pos hk]⟩
  | id hr hk hm =>
    obtain ⟨c, cs, rfl, hw, hne, e⟩ := hword hr
    exact ⟨c, cs, rfl, hw, hne, by rw [e, if_neg hk, if_pos hm]⟩
  | @word s s' _ hr hk hm ht =>
    obtain ⟨c, cs, rfl, hw, hne, e⟩ := hword hr
    refine ⟨c, cs ++ s', rfl, hw, hne, ?_⟩
    rw [List.append_assoc, e, if_neg hk, hm, if_neg Bool.false_ne_true, textToken_run ht]
  | @text c s _ hs ht =>
    obtain ⟨hw, hm, hd, hf, ha, ho⟩ := hs
    rw [List.mem_cons, not_or] at hm
    refine ⟨c, s, rfl, hw, hm.1, ?_⟩
    rw [startToken_word hm.2 hd ho hf, ha, if_neg Bool.false_ne_true, textToken_run ht]
    rfl

/-- White space and the end of the text are no tokens. -/
lemma IsToken.type_ne (h : IsToken t rest) : t.type ≠ .whitespace ∧ t.type ≠ .eof := by
  cases h with
  | operand hm _ _ =>
    have hall : operands.all (fun o => decide (o.2 ≠ .whitespace ∧ o.2 ≠ .eof)) = true := by decide
    exact of_decide_eq_true (List.all_eq_true.mp hall _ hm)
  | lpar => decide
  | rpar => decide
  | comma => decide
  | number _ _ => exact ⟨TokenType.noConfusion, TokenType.noConfusion⟩
  | flag _ => exact ⟨TokenType.noConfusion, TokenType.noConfusion⟩
  | keyword _ _ => exact ⟨TokenType.noConfusion, TokenType.noConfusion⟩
  | id _ _ _ => exact ⟨TokenType.noConfusion, TokenType.noConfusion⟩
  | word _ _ _ _ => exact ⟨TokenType.noConfusion, TokenType.noConfusion⟩
  | text _ _ => exact ⟨TokenType.noConfusion, TokenType.noConfusion⟩

end Thorium.Thi
