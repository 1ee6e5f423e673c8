import Thorium.Asm.Printer
import Thorium.Lib.Numeral

/-!
# The numbers of the source

`Writes` relates each form of an integer to the numbers and to the texts that stand for them, after the comment
on `number` (`0b[01]+`, `0x[0-9A-Fa-f]+`, `[0-9_]+`) and with `_` among the digits of every form. Every number has
a text in every form (`Writes.exists_text`). `number_exact_iff` says when `number` reads such a text as the number
and consumes nothing else: the column must not overflow its 16 bits, and a decimal number must not stand before a
numeric character outside ASCII, which `parse_dec` takes for a digit.
-/

namespace Thorium.Asm

/-! ### Forms -/

/-- The forms of an integer. -/
inductive NumberForm where
  | dec
  | hex
  | bin

/-- Digits of a radix, with underscores among them. -/
inductive DigitText (radix : Nat) : List Nat → List Char → Prop where
  | nil : DigitText radix [] []
  | underscore {ds s} : DigitText radix ds s → DigitText radix ds ('_' :: s)
  | digit {c d ds s} : digitValue c = some d → d < radix → DigitText radix ds s →
      DigitText radix (d :: ds) (c :: s)

/-- The texts of a number. -/
inductive Writes : NumberForm → Nat → List Char → Prop where
  | dec {c d ds s} : digitValue c = some d → d < 10 → DigitText 10 ds s →
      Writes .dec (numeral 10 0 (d :: ds)) (c :: s)
  | hex {ds s} : ds ≠ [] → DigitText 16 ds s → Writes .hex (numeral 16 0 ds) ('0' :: 'x' :: s)
  | bin {ds s} : ds ≠ [] → DigitText 2 ds s → Writes .bin (numeral 2 0 ds) ('0' :: 'b' :: s)

/-- The radix of a form. -/
def NumberForm.radix : NumberForm → Nat
  | .dec => 10
  | .hex => 16
  | .bin => 2

/-- The characters that go on the text `s` of a number: the digits of its form, `_`, and after a single `0` the
letter of another form. -/
def Continues (form : NumberForm) (s : List Char) (c : Char) : Prop :=
  c = '_' ∨ IsDigitOf form.radix c ∨ s = ['0'] ∧ (c = 'x' ∨ c = 'b')

/-- What is read of a text of `n` before `tail`: an `Ok` of `n` if it is below `2 ^ 32`, an `Err` if it is not, and
`tail` is left. -/
def ReadsExactly (n : Nat) (tail : List Char) (r : Option (Except String Word × Lexer)) : Prop :=
  ∃ number lx, r = some (number, lx) ∧ lx.rawData = tail ∧
    (n < 2 ^ 32 → number = .ok (BitVec.ofNat 32 n)) ∧ (2 ^ 32 ≤ n → ∃ e, number = .error e)

variable {form : NumberForm} {radix n : Nat} {ds : List Nat} {s tail : List Char} {p p' : Position} {c : Char}

/-! ### The texts -/

/-- Every digit has a character. -/
lemma exists_digit {d : Nat} (h : d < 16) : ∃ c, digitValue c = some d := by
  have hall : ∀ d < 16, digitValue (Nat.digitChar d) = some d := by decide
  exact ⟨_, hall d h⟩

/-- Digits have a text. -/
lemma DigitText.exists_text (hr : radix ≤ 16) (h : ∀ d ∈ ds, d < radix) : ∃ s, DigitText radix ds s := by
  induction ds with
  | nil => exact ⟨[], .nil⟩
  | cons d ds ih =>
    obtain ⟨hd, hds⟩ := List.forall_mem_cons.mp h
    obtain ⟨c, hc⟩ := exists_digit (Nat.lt_of_lt_of_le hd hr)
    obtain ⟨s, hs⟩ := ih hds
    exact ⟨c :: s, .digit hc hd hs⟩

/-- Every number has a text in every form. -/
lemma Writes.exists_text (form : NumberForm) (n : Nat) : ∃ s, Writes form n s := by
  have hdigits : ∀ {radix}, 1 < radix → radix ≤ 16 →
      ∃ ds s, DigitText radix ds s ∧ (∀ d ∈ ds, d < radix) ∧ numeral radix 0 (0 :: ds) = n := by
    intro radix h1 h16
    have hlt : ∀ d ∈ (radix.digits n).reverse, d < radix := fun d hd =>
      Nat.digits_lt_base h1 (List.mem_reverse.mp hd)
    obtain ⟨s, hs⟩ := DigitText.exists_text h16 hlt
    refine ⟨_, s, hs, hlt, ?_⟩
    rw [numeral_cons, Nat.zero_mul]
    exact numeral_digits radix n
  have hzero : digitValue '0' = some 0 := by decide
  cases form with
  | dec =>
    obtain ⟨ds, s, hs, _, rfl⟩ := @hdigits 10 (by decide) (by decide)
    exact ⟨_, .dec hzero (by decide) hs⟩
  | hex =>
    obtain ⟨ds, s, hs, _, rfl⟩ := @hdigits 16 (by decide) (by decide)
    exact ⟨_, .hex (List.cons_ne_nil _ _) (.digit hzero (by decide) hs)⟩
  | bin =>
    obtain ⟨ds, s, hs, _, rfl⟩ := @hdigits 2 (by decide) (by decide)
    exact ⟨_, .bin (List.cons_ne_nil _ _) (.digit hzero (by decide) hs)⟩

/-- The characters of a numeral. -/
lemma DigitText.isDigitOf (h : DigitText radix ds s) : ∀ c ∈ s, c = '_' ∨ IsDigitOf radix c := by
  induction h with
  | nil => intro c hc; cases hc
  | underscore _ ih =>
    intro c hc
    rcases List.mem_cons.mp hc with rfl | hc
    · exact .inl rfl
    · exact ih c hc
  | digit hd hlt _ ih =>
    intro c hc
    rcases List.mem_cons.mp hc with rfl | hc
    · exact .inr ⟨_, hd, hlt⟩
    · exact ih c hc

/-- A digit is no underscore. -/
lemma filter_digit {d : Nat} (h : digitValue c = some d) :
    (c :: s).filter (· != '_') = c :: s.filter (· != '_') := by
  apply List.filter_cons_of_pos
  rw [bne_iff_ne]
  rintro rfl
  cases h

/-- The number of a text of digits. -/
lemma DigitText.digitsValue (h : DigitText radix ds s) :
    digitsValue radix n (s.filter (· != '_')) = some (numeral radix n ds) := by
  induction h generalizing n with
  | nil => rfl
  | underscore _ ih =>
    rw [List.filter_cons_of_neg (by decide)]
    exact ih
  | digit hd hlt _ ih =>
    rw [filter_digit hd, Asm.digitsValue, hd]
    dsimp only
    rw [if_pos hlt]
    exact ih

/-- The text of at least one digit is not empty without its underscores. -/
lemma DigitText.isEmpty (h : DigitText radix ds s) (hne : ds ≠ []) :
    (s.filter (· != '_')).isEmpty = false := by
  induction h with
  | nil => exact absurd rfl hne
  | underscore _ ih =>
    rw [List.filter_cons_of_neg (by decide)]
    exact ih hne
  | digit hd _ _ _ =>
    rw [filter_digit hd]
    rfl

/-! ### Reading -/

/-- The position after characters of one line. -/
lemma Position.advanceAll_line (hs : '\n' ∉ s) (hp : p.column < 2 ^ 16) :
    p.advanceAll s = if p.column + s.length < 2 ^ 16 then some ⟨p.line, p.column + s.length⟩ else none := by
  induction s generalizing p with
  | nil => exact (if_pos hp).symm
  | cons c s ih =>
    rw [List.mem_cons, not_or] at hs
    have hc : p.advance (some c) = if p.column + 1 < 2 ^ 16 then some ⟨p.line, p.column + 1⟩ else none := by
      unfold Position.advance
      split
      · rename_i e
        cases e
        exact absurd rfl hs.1
      · rfl
    rw [Position.advanceAll, hc, List.length_cons]
    by_cases h : p.column + 1 < 2 ^ 16
    · rw [if_pos h, Option.bind_some, ih hs.2 h]
      dsimp only
      rw [Nat.add_assoc, Nat.add_comm 1]
    · rw [if_neg h, if_neg (by omega)]
      rfl

/-- The digits before anything else. -/
lemma DigitText.scan {accept : List Char → Char → Option (List Char)} {acc : List Char}
    (ha : ∀ {d l}, d = '_' ∨ IsDigitOf radix d → accept l d = some (l ++ if d = '_' then [] else [d]))
    (h : DigitText radix ds s) :
    scan accept acc (s ++ tail) p =
      (p.advanceAll s).bind (Asm.scan accept (acc ++ s.filter (· != '_')) tail) := by
  rw [← flatMap_digits]
  exact scan_accepted fun d hd l => ha (h.isDigitOf d hd)

/-- A numeral is on one line. -/
lemma DigitText.newline (h : DigitText radix ds s) : '\n' ∉ s := by
  intro hm
  obtain h | ⟨d, hd, _⟩ := h.isDigitOf _ hm
  · cases h
  · cases hd

/-- The value of a digit is below 16. -/
lemma digitValue_lt {d : Nat} (h : digitValue c = some d) : d < 16 := by
  have e0 : '0'.toNat = 48 := rfl
  have ea : 'a'.toNat = 97 := rfl
  have eA : 'A'.toNat = 65 := rfl
  rw [digitValue] at h
  split at h
  · rename_i hc
    have := isDigit_iff.mp hc
    cases h
    omega
  split at h
  · rename_i hc
    have : c.toNat ≤ 102 := hc.2
    cases h
    omega
  split at h
  · rename_i hc
    have : c.toNat ≤ 70 := hc.2
    cases h
    omega
  · cases h

/-- The end of the three loops, on the digits of a number. -/
lemma readDigits_exact {expected invalid : String} {int : List Char} (hne : int.isEmpty = false)
    (hv : digitsValue radix 0 int = some n) :
    (n < 2 ^ 32 → readDigits radix expected invalid int p = .ok (BitVec.ofNat 32 n)) ∧
      (2 ^ 32 ≤ n → ∃ e, readDigits radix expected invalid int p = .error e) := by
  rw [readDigits, fromStrRadix, hne, hv]
  constructor
  · intro h
    dsimp only
    rw [if_pos h]
    rfl
  · intro h
    dsimp only
    rw [if_neg (Nat.not_lt.mpr h)]
    exact ⟨_, rfl⟩

/-- A text that is consumed to its end is read exactly if its column does not overflow. -/
lemma readsExactly_bind {f : Position → Option (Except String Word × Lexer)} (hs : '\n' ∉ s)
    (hp : p.column < 2 ^ 16) (P : Prop) (hf : ∀ p, ReadsExactly n tail (f p) ↔ P) :
    ReadsExactly n tail ((p.advanceAll s).bind f) ↔ p.column + s.length < 2 ^ 16 ∧ P := by
  rw [Position.advanceAll_line hs hp]
  by_cases h : p.column + s.length < 2 ^ 16
  · rw [if_pos h, Option.bind_some, hf]
    exact (and_iff_right h).symm
  · rw [if_neg h]
    constructor
    · rintro ⟨_, _, e, _⟩
      cases e
    · intro hh
      exact absurd hh.1 h

/-- A loop that stops before `tail` on the digits of a number. -/
lemma readsExactly_stop {accept : List Char → Char → Option (List Char)} {expected invalid : String}
    {int : List Char} (hne : int.isEmpty = false) (hv : digitsValue radix 0 int = some n)
    (hstop : ∀ d, tail.head? = some d → accept int d = none) :
    ReadsExactly n tail ((scan accept int tail p).map fun (int, lx) =>
      (readDigits radix expected invalid int lx.position, lx)) := by
  rw [scan_stop hstop]
  exact ⟨_, _, rfl, rfl, readDigits_exact hne hv⟩

/-- The loop of `parse_hex` stops at what is no digit and no `_`. -/
lemma acceptHex_stop {l : List Char} (hu : c ≠ '_') (hd : ¬ IsDigitOf 16 c) : acceptHex l c = none := by
  have hx : isHexDigit c = false := by
    rw [isHexDigit, Option.isSome_eq_false_iff, Option.isNone_iff_eq_none]
    rcases e : digitValue c with _ | d
    · rfl
    · exact absurd ⟨d, e, digitValue_lt e⟩ hd
  simp [acceptHex, hu, hx]

/-- The loop of `parse_bin` stops at what is no digit and no `_`. -/
lemma acceptBin_stop {l : List Char} (hu : c ≠ '_') (hd : ¬ IsDigitOf 2 c) : acceptBin l c = none := by
  have h0 : c ≠ '0' := by
    rintro rfl
    exact hd ⟨0, by decide, by decide⟩
  have h1 : c ≠ '1' := by
    rintro rfl
    exact hd ⟨1, by decide, by decide⟩
  simp [acceptBin, hu, h0, h1]

variable [Unicode]

/-- The loop of `parse_dec` stops at what is not numeric and no `_`. -/
lemma acceptDec_stop {l : List Char} (hu : c ≠ '_') (hn : isNumeric c = false) : acceptDec l c = none := by
  simp [acceptDec, hu, hn]

/-- `parse_dec` goes on at a numeric character and leaves less than `tail`. -/
lemma not_readsExactly_numeric {expected invalid : String} {int : List Char} (hn : isNumeric c = true) :
    ¬ ReadsExactly n (c :: tail) ((scan acceptDec int (c :: tail) p).map fun (int, lx) =>
      (readDigits radix expected invalid int lx.position, lx)) := by
  rintro ⟨number, lx, e, hd, _⟩
  obtain ⟨⟨int', lx'⟩, hs, e⟩ := Option.map_eq_some_iff.mp e
  cases e
  have hacc : ∃ int1, acceptDec int c = some int1 := by
    rw [acceptDec, if_pos hn]
    split
    · exact ⟨_, rfl⟩
    · exact ⟨_, rfl⟩
  obtain ⟨int1, h1⟩ := hacc
  rw [scan, h1] at hs
  obtain ⟨p1, _, hs⟩ := Option.bind_eq_some_iff.mp hs
  obtain ⟨s, _, hc⟩ := scan_consumes acceptDec_ne hs
  have hlen := hc.length
  rw [hd, List.length_cons] at hlen
  dsimp only at hlen
  omega

/-- A number that starts with no letter of another form is read by `parse_dec`. -/
lemma number_dec (h : c = '0' → ∀ d, s.head? = some d → d ≠ 'x' ∧ d ≠ 'b') :
    Lexer.number ⟨s, p⟩ c = Lexer.parseDec ⟨s, p⟩ c := by
  rw [Lexer.number]
  split
  · rename_i h0
    split
    · rename_i e
      exact absurd rfl (h h0 'x' (by rw [show s = _ from e]; rfl)).1
    · rename_i e
      exact absurd rfl (h h0 'b' (by rw [show s = _ from e]; rfl)).2
    · rfl
  · rfl

/-- A number is read exactly if and only if the column does not overflow, and the character after a decimal number
is not numeric. -/
theorem number_exact_iff {form n c s tail p} (h : Writes form n (c :: s))
    (htail : ∀ d, tail.head? = some d → ¬ Continues form (c :: s) d) (hp : p.column < 2 ^ 16) :
    ReadsExactly n tail (Lexer.number ⟨s ++ tail, p⟩ c) ↔
      p.column + s.length < 2 ^ 16 ∧ (form = .dec → ∀ d, tail.head? = some d → isNumeric d = false) := by
  have hu : ∀ d, tail.head? = some d → d ≠ '_' := fun d hd e => htail d hd (.inl e)
  have hdigit : ∀ d, tail.head? = some d → ¬ IsDigitOf form.radix d := fun d hd e => htail d hd (.inr (.inl e))
  cases h with
  | @dec _ d ds _ hc hd hs =>
    have hv : digitsValue 10 0 (c :: s.filter (· != '_')) = some (numeral 10 0 (d :: ds)) := by
      rw [← filter_digit hc]
      exact (DigitText.digit hc hd hs).digitsValue
    have hhead : c = '0' → ∀ d, (s ++ tail).head? = some d → d ≠ 'x' ∧ d ≠ 'b' := by
      intro h0 d hd
      cases s with
      | nil =>
        constructor
        · exact fun e => htail d hd (.inr (.inr ⟨by rw [h0], .inl e⟩))
        · exact fun e => htail d hd (.inr (.inr ⟨by rw [h0], .inr e⟩))
      | cons d' s =>
        cases hd
        rcases hs.isDigitOf d (List.mem_cons_self ..) with rfl | hd
        · decide
        · have h1 := isDigitOf_ten.mp hd
          constructor
          · rintro rfl
            cases h1
          · rintro rfl
            cases h1
    rw [number_dec hhead, Lexer.parseDec, hs.scan acceptDec_digit, Option.map_bind]
    apply readsExactly_bind hs.newline hp
    intro p
    constructor
    · intro h _ d hd
      obtain ⟨t, rfl⟩ := List.head?_eq_some_iff.mp hd
      by_contra hn
      exact not_readsExactly_numeric (eq_true_of_ne_false hn) h
    · intro h
      apply readsExactly_stop rfl hv
      intro d hd
      exact acceptDec_stop (hu d hd) (h rfl d hd)
  | @hex ds s hne hs =>
    have hx : Lexer.number ⟨'x' :: s ++ tail, p⟩ '0' =
        (p.advanceAll ('x' :: s)).bind fun p => (scan acceptHex (s.filter (· != '_')) tail p).map fun (int, lx) =>
          (readDigits 16 "Expected 0x[0-9A-Fa-z]+" "Not a valid binary number" int lx.position, lx) := by
      show (p.advance (some 'x')).bind (fun p => Lexer.parseHex ⟨s ++ tail, p⟩) = _
      rw [Position.advanceAll, Option.bind_assoc]
      congr 1
      funext p1
      rw [Lexer.parseHex, hs.scan acceptHex_digit, Option.map_bind]
      rfl
    rw [hx]
    apply readsExactly_bind _ hp
    · intro p
      refine iff_of_true ?_ (fun e => NumberForm.noConfusion e)
      apply readsExactly_stop (hs.isEmpty hne) hs.digitsValue
      intro d hd
      exact acceptHex_stop (hu d hd) (hdigit d hd)
    · rw [List.mem_cons, not_or]
      exact ⟨by decide, hs.newline⟩
  | @bin ds s hne hs =>
    have hb : Lexer.number ⟨'b' :: s ++ tail, p⟩ '0' =
        (p.advanceAll ('b' :: s)).bind fun p => (scan acceptBin (s.filter (· != '_')) tail p).map fun (int, lx) =>
          (readDigits 2 "Expected 0b[0,1]+" "Not a valid binary number" int lx.position, lx) := by
      show (p.advance (some 'b')).bind (fun p => Lexer.parseBin ⟨s ++ tail, p⟩) = _
      rw [Position.advanceAll, Option.bind_assoc]
      congr 1
      funext p1
      rw [Lexer.parseBin, hs.scan acceptBin_digit, Option.map_bind]
      rfl
    rw [hb]
    apply readsExactly_bind _ hp
    · intro p
      refine iff_of_true ?_ (fun e => NumberForm.noConfusion e)
      apply readsExactly_stop (hs.isEmpty hne) hs.digitsValue
      intro d hd
      exact acceptBin_stop (hu d hd) (hdigit d hd)
    · rw [List.mem_cons, not_or]
      exact ⟨by decide, hs.newline⟩

omit [Unicode] in
/-- `0xF_F` is read as 255. -/
theorem number_exact_hex :
    ReadsExactly 255 [' '] (@Lexer.number ⟨fun _ => false⟩ ⟨"xF_F ".toList, ⟨1, 3⟩⟩ '0') := by
  have hF : digitValue 'F' = some 15 := by decide
  have h : Writes .hex 255 ('0' :: "xF_F".toList) :=
    .hex (List.cons_ne_nil 15 [15]) (.digit hF (by decide) (.underscore (.digit hF (by decide) .nil)))
  have htail : ∀ d, [' '].head? = some d → ¬ Continues .hex ('0' :: "xF_F".toList) d := by
    rintro d ⟨⟩ (hd | ⟨v, hv, _⟩ | ⟨hd, _⟩)
    · cases hd
    · cases hv
    · cases hd
  exact (@number_exact_iff ⟨fun _ => false⟩ _ _ _ _ _ _ h htail (by decide)).mpr
    ⟨by decide, fun e => NumberForm.noConfusion e⟩

omit [Unicode] in
/-- `10` ends in a panic at column 65534, and `1²` is refused as a whole. -/
theorem not_number_exact :
    (Writes .dec 10 "10".toList ∧
      ¬ ReadsExactly 10 [] (@Lexer.number ⟨fun _ => false⟩ ⟨['0'], ⟨1, 65535⟩⟩ '1')) ∧
    Writes .dec 1 "1".toList ∧ ¬ Continues .dec "1".toList '²' ∧
      ¬ ReadsExactly 1 ['²'] (@Lexer.number ⟨(· == '²')⟩ ⟨['²'], ⟨1, 2⟩⟩ '1') := by
  have h1 : digitValue '1' = some 1 := by decide
  have h0 : digitValue '0' = some 0 := by decide
  refine ⟨⟨.dec h1 (by decide) (.digit h0 (by decide) .nil), ?_⟩, .dec h1 (by decide) .nil, ?_, ?_⟩
  · have hn : @Lexer.number ⟨fun _ => false⟩ ⟨['0'], ⟨1, 65535⟩⟩ '1' = none := by decide
    rw [hn]
    rintro ⟨_, _, e, _⟩
    cases e
  · rintro (hd | ⟨v, hv, _⟩ | ⟨hd, _⟩)
    · cases hd
    · cases hv
    · cases hd
  · have hn : ((@Lexer.number ⟨(· == '²')⟩ ⟨['²'], ⟨1, 2⟩⟩ '1').map fun r => r.2.rawData) = some [] := by decide
    rintro ⟨number, lx, e, hl, _⟩
    rw [e, Option.map_some, hl] at hn
    cases hn

end Thorium.Asm
