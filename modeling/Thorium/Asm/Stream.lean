import Thorium.Asm.Lexer

/-!
# The stream of items

What one call of the iterator consumes (`nextItem_inv`): white space, then the text of an item, or a comment or a
`/` that the text ends in. Every item consumes a character (`nextItem_length`), so the fuel of `Lexer.stream`
never runs out and the stream satisfies the equation of the iterator (`Lexer.stream_cons`).
-/

namespace Thorium.Asm

/-! ### Positions -/

/-- The position after some characters. -/
def Position.advanceAll (p : Position) : List Char → Option Position
  | [] => some p
  | c :: cs => (p.advance (some c)).bind fun p => p.advanceAll cs

/-- The position after two texts. -/
lemma Position.advanceAll_append (p : Position) (l l' : List Char) :
    p.advanceAll (l ++ l') = (p.advanceAll l).bind fun p => p.advanceAll l' := by
  induction l generalizing p with
  | nil => rfl
  | cons c l ih =>
    rw [List.cons_append, advanceAll, advanceAll, Option.bind_assoc]
    congr 1
    funext q
    exact ih q

variable {p p' : Position} {c : Char} {s cs : List Char} {lx lx1 lx' : Lexer}

/-! ### What is consumed -/

/-- The lexer after `s`. -/
structure Consumes (lx : Lexer) (s : List Char) (lx' : Lexer) : Prop where
  rawData : lx.rawData = s ++ lx'.rawData
  position : lx.position.advanceAll s = some lx'.position

/-- The lexer after the whole text and a read past its end. -/
structure Overruns (lx lx' : Lexer) : Prop where
  rawData : lx'.rawData = []
  position : ∃ p, lx.position.advanceAll lx.rawData = some p ∧ p.advance none = some lx'.position

/-- Nothing is consumed. -/
lemma Consumes.refl : Consumes lx [] lx := ⟨rfl, rfl⟩

/-- What is consumed is put together. -/
lemma Consumes.trans {s' : List Char} (h : Consumes lx s lx1) (h' : Consumes lx1 s' lx') :
    Consumes lx (s ++ s') lx' := by
  constructor
  · rw [h.rawData, h'.rawData, List.append_assoc]
  · rw [Position.advanceAll_append, h.position]
    exact h'.position

/-- A character more is consumed. -/
lemma Consumes.cons (hp : p.advance (some c) = some p') (h : Consumes ⟨cs, p'⟩ s lx') :
    Consumes ⟨c :: cs, p⟩ (c :: s) lx' := by
  constructor
  · exact congrArg (c :: ·) h.rawData
  · show (p.advance (some c)).bind (fun p => p.advanceAll s) = _
    rw [hp]
    exact h.position

/-- What is consumed is missing. -/
lemma Consumes.length (h : Consumes lx s lx') : lx.rawData.length = s.length + lx'.rawData.length := by
  rw [h.rawData, List.length_append]

/-- A lexer that overruns later overruns. -/
lemma Overruns.of_consumes (h : Consumes lx s lx1) (h' : Overruns lx1 lx') : Overruns lx lx' := by
  obtain ⟨hd, p, hp, ha⟩ := h'
  refine ⟨hd, p, ?_, ha⟩
  rw [h.rawData, Position.advanceAll_append, h.position]
  exact hp

/-- A character more before it overruns. -/
lemma Overruns.cons (hp : p.advance (some c) = some p') (h : Overruns ⟨cs, p'⟩ lx') :
    Overruns ⟨c :: cs, p⟩ lx' :=
  Overruns.of_consumes (Consumes.cons hp Consumes.refl) h

/-- Scanning consumes what is accepted. -/
lemma scan_consumes {accept acc acc'} (ha : ∀ {l c l'}, accept l c = some l' → c ≠ '/')
    (h : scan accept acc cs p = some (acc', lx)) : ∃ s, '/' ∉ s ∧ Consumes ⟨cs, p⟩ s lx := by
  induction cs generalizing acc p with
  | nil => cases h; exact ⟨[], List.not_mem_nil, .refl⟩
  | cons c cs ih =>
    rw [scan] at h
    split at h
    · cases h; exact ⟨[], List.not_mem_nil, .refl⟩
    · rename_i hacc
      obtain ⟨p1, hp, h⟩ := Option.bind_eq_some_iff.mp h
      obtain ⟨s, hs, hc⟩ := ih h
      refine ⟨c :: s, ?_, hc.cons hp⟩
      rw [List.mem_cons, not_or]
      exact ⟨Ne.symm (ha hacc), hs⟩

/-- A comment ends with its line or with the text. -/
lemma skipComment_inv (h : skipComment cs p = some lx) :
    (∃ s, '\n' ∉ s ∧ Consumes ⟨cs, p⟩ (s ++ ['\n']) lx) ∨ '\n' ∉ cs ∧ Overruns ⟨cs, p⟩ lx := by
  induction cs generalizing p with
  | nil =>
    obtain ⟨_, hp, h⟩ := Option.map_eq_some_iff.mp h
    cases h
    exact .inr ⟨List.not_mem_nil, rfl, p, rfl, hp⟩
  | cons c cs ih =>
    obtain ⟨p1, hp, h⟩ := Option.bind_eq_some_iff.mp h
    split at h
    · rename_i e
      cases h
      cases e
      exact .inl ⟨[], List.not_mem_nil, Consumes.refl.cons hp⟩
    · rename_i hne
      obtain ⟨s, hs, hc⟩ | ⟨hs, ho⟩ := ih h
      · refine .inl ⟨c :: s, ?_, hc.cons hp⟩
        rw [List.mem_cons, not_or]
        exact ⟨Ne.symm hne, hs⟩
      · refine .inr ⟨?_, ho.cons hp⟩
        rw [List.mem_cons, not_or]
        exact ⟨Ne.symm hne, hs⟩

/-- An identifier does not go on with a comment. -/
lemma acceptIdentifier_ne {l l' : List Char} (h : acceptIdentifier l c = some l') : c ≠ '/' := by
  rintro rfl
  simp [acceptIdentifier, Char.isAlphanum, Char.isAlpha] at h

/-- Nor does an operation. -/
lemma acceptOp_ne {l l' : List Char} (h : acceptOp l c = some l') : c ≠ '/' := by
  rintro rfl
  simp [acceptOp] at h

/-- Nor does a hexadecimal number. -/
lemma acceptHex_ne {l l' : List Char} (h : acceptHex l c = some l') : c ≠ '/' := by
  rintro rfl
  simp [acceptHex, isHexDigit, digitValue] at h

/-- Nor does a binary one. -/
lemma acceptBin_ne {l l' : List Char} (h : acceptBin l c = some l') : c ≠ '/' := by
  rintro rfl
  simp [acceptBin] at h

/-! ### One item -/

/-- White space that is no end of line. -/
def isSkipped (c : Char) : Bool := isWhitespace c && c != '\n'

/-- The texts of an item. -/
inductive ItemText : List Char → Prop where
  | token {c : Char} {s : List Char} : isSkipped c = false → '/' ∉ c :: s → ItemText (c :: s)
  | slash {c : Char} : c ≠ '/' → ItemText ['/', c]
  | comment {s : List Char} : '\n' ∉ s → ItemText ('/' :: '/' :: s ++ ['\n'])

/-- The texts of an item that the text ends in. -/
inductive LastText : List Char → Prop where
  | slash : LastText ['/']
  | comment {s : List Char} : '\n' ∉ s → LastText ('/' :: '/' :: s)

/-- An item takes characters. -/
lemma ItemText.length_pos (h : ItemText s) : 0 < s.length := by
  cases h <;> exact Nat.succ_pos _

/-- So does the last one. -/
lemma LastText.length_pos (h : LastText s) : 0 < s.length := by
  cases h <;> exact Nat.succ_pos _

/-- The lexer after an item: it has consumed the text of it, or has read past the end. -/
def ItemRead (lx lx' : Lexer) : Prop :=
  (∃ s, ItemText s ∧ Consumes lx s lx') ∨ LastText lx.rawData ∧ Overruns lx lx'

/-- An item is at a position if it is a token with that position or no token. -/
def At (position : Position) (item : Option Item) : Prop :=
  ∃ r, item = some r ∧ ∀ token, r = .ok token → token.position = position

/-- A token is at its position. -/
lemma at_token {position : Position} {k : Kind} : At position (some (.ok ⟨position, k⟩)) := by
  refine ⟨_, rfl, ?_⟩
  rintro _ ⟨⟩
  rfl

/-- An error is at its position. -/
lemma at_error {position : Position} {e : String} : At position (some (.error e)) := by
  refine ⟨_, rfl, ?_⟩
  rintro _ ⟨⟩

/-- The arm for a `/`. -/
lemma slash_inv {position item} (hp : p.advance (some '/') = some p')
    (h : slash position cs p' = some (item, lx)) : At position item ∧ ItemRead ⟨'/' :: cs, p⟩ lx := by
  obtain ⟨p2, hp2, h⟩ := Option.bind_eq_some_iff.mp h
  cases cs with
  | nil =>
    cases h
    exact ⟨at_error, .inr ⟨.slash, Overruns.cons hp ⟨rfl, p', rfl, hp2⟩⟩⟩
  | cons c cs =>
    by_cases hc : c = '/'
    · cases hc
      obtain ⟨l, hl, h⟩ := Option.map_eq_some_iff.mp h
      cases h
      obtain ⟨s, hs, hc⟩ | ⟨hs, ho⟩ := skipComment_inv hl
      · exact ⟨at_token, .inl ⟨_, .comment hs, (hc.cons hp2).cons hp⟩⟩
      · exact ⟨at_token, .inr ⟨.comment hs, (ho.cons hp2).cons hp⟩⟩
    · have h : some ((some (.error s!"Unexpected `/` at {p2.display}") : Option Item), (⟨cs, p2⟩ : Lexer)) =
          some (item, lx) := by
        rw [← h]
        split
        · rename_i e
          cases e
          exact absurd rfl hc
        · rfl
      cases h
      exact ⟨at_error, .inl ⟨_, .slash hc, (Consumes.refl.cons hp2).cons hp⟩⟩

variable [Unicode]

/-- A decimal number does not go on with a comment. -/
lemma acceptDec_ne {l l' : List Char} (h : acceptDec l c = some l') : c ≠ '/' := by
  rintro rfl
  simp [acceptDec, isNumeric] at h

/-- A number consumes its digits. -/
lemma number_consumes {n} (h : lx.number c = some (n, lx')) : ∃ s, '/' ∉ s ∧ Consumes lx s lx' := by
  have hdec : lx.parseDec c = some (n, lx') → ∃ s, '/' ∉ s ∧ Consumes lx s lx' := by
    intro h
    obtain ⟨⟨int, l⟩, hs, h⟩ := Option.map_eq_some_iff.mp h
    cases h
    exact scan_consumes acceptDec_ne hs
  have hpre : ∀ {d cs p1 accept int} {l : Lexer}, lx.rawData = d :: cs → d ≠ '/' →
      (∀ {l c l'}, accept l c = some l' → c ≠ '/') → lx.position.advance (some d) = some p1 →
      scan accept [] cs p1 = some (int, l) → ∃ s, '/' ∉ s ∧ Consumes lx s l := by
    intro d cs p1 accept int l e hne ha hp hs
    obtain ⟨s, hs, hc⟩ := scan_consumes ha hs
    refine ⟨d :: s, ?_, ?_⟩
    · rw [List.mem_cons, not_or]
      exact ⟨Ne.symm hne, hs⟩
    · have h := hc.cons hp
      rw [← e] at h
      exact h
  rw [Lexer.number] at h
  split at h
  · split at h
    · rename_i e
      obtain ⟨p1, hp, h⟩ := Option.bind_eq_some_iff.mp h
      obtain ⟨⟨int, l⟩, hs, h⟩ := Option.map_eq_some_iff.mp h
      cases h
      exact hpre e (by decide) acceptHex_ne hp hs
    · rename_i e
      obtain ⟨p1, hp, h⟩ := Option.bind_eq_some_iff.mp h
      obtain ⟨⟨int, l⟩, hs, h⟩ := Option.map_eq_some_iff.mp h
      cases h
      exact hpre e (by decide) acceptBin_ne hp hs
    · exact hdec h
  · exact hdec h

/-- What starts a token consumes the rest of it. -/
lemma startToken_consumes {position item} (h : startToken position c lx = some (item, lx')) :
    At position item ∧ ∃ s, '/' ∉ s ∧ Consumes lx s lx' := by
  have hid : ∀ {c} {k : String → Kind}, ((lx.identifier c).map fun r =>
      ((some (.ok ⟨position, k r.1⟩) : Option Item), r.2)) = some (item, lx') →
      At position item ∧ ∃ s, '/' ∉ s ∧ Consumes lx s lx' := by
    intro c k h
    obtain ⟨⟨s, l⟩, hi, h⟩ := Option.map_eq_some_iff.mp h
    obtain ⟨⟨s', l'⟩, hs, hi⟩ := Option.map_eq_some_iff.mp hi
    cases h
    cases hi
    exact ⟨at_token, scan_consumes acceptIdentifier_ne hs⟩
  unfold startToken at h
  split at h
  · exact @hid none (fun s => .address s .absolute) h
  split at h
  · exact @hid none (fun s => .address s .segment) h
  split at h
  · exact hid h
  split at h
  · exact hid h
  split at h
  · obtain ⟨⟨n, l⟩, hn, h⟩ := Option.map_eq_some_iff.mp h
    cases h
    refine ⟨?_, number_consumes hn⟩
    cases n
    · exact at_error
    · exact at_token
  split at h
  · exact hid h
  split at h
  · obtain ⟨⟨s, l⟩, hi, h⟩ := Option.map_eq_some_iff.mp h
    obtain ⟨⟨s', l'⟩, hs, hi⟩ := Option.map_eq_some_iff.mp hi
    cases h
    cases hi
    exact ⟨at_token, scan_consumes acceptOp_ne hs⟩
  split at h
  · exact hid h
  split at h
  · exact hid h
  · cases h
    exact ⟨at_error, [], List.not_mem_nil, .refl⟩

/-- What the iterator does on a text: it skips white space and reads an item, whose token is at the position after
the white space. -/
lemma nextItem_inv {item} (h : nextItem cs p = some (some item, lx)) :
    ∃ skipped lx0, (∀ d ∈ skipped, isSkipped d = true) ∧ Consumes ⟨cs, p⟩ skipped lx0 ∧ ItemRead lx0 lx ∧
      ∀ token, item = .ok token → token.position = lx0.position := by
  induction cs generalizing p with
  | nil =>
    obtain ⟨_, _, h⟩ := Option.map_eq_some_iff.mp h
    cases h
  | cons c cs ih =>
    obtain ⟨p1, hp, hb⟩ := Option.bind_eq_some_iff.mp h
    have hread : ∀ {item'}, At p item' → item' = some item → ItemRead ⟨c :: cs, p⟩ lx → ∃ skipped lx0,
        (∀ d ∈ skipped, isSkipped d = true) ∧ Consumes ⟨c :: cs, p⟩ skipped lx0 ∧ ItemRead lx0 lx ∧
        ∀ token, item = .ok token → token.position = lx0.position := by
      rintro _ ⟨r, rfl, hr⟩ ⟨⟩ hread
      exact ⟨[], _, fun _ hd => absurd hd List.not_mem_nil, .refl, hread, hr⟩
    have htoken : ∀ {k}, isSkipped c = false → c ≠ '/' →
        some (some (Except.ok ⟨p, k⟩ : Item), (⟨cs, p1⟩ : Lexer)) = some (some item, lx) → ∃ skipped lx0,
        (∀ d ∈ skipped, isSkipped d = true) ∧ Consumes ⟨c :: cs, p⟩ skipped lx0 ∧ ItemRead lx0 lx ∧
        ∀ token, item = .ok token → token.position = lx0.position := by
      rintro k hw hne ⟨⟩
      refine hread at_token rfl (.inl ⟨[c], .token hw ?_, Consumes.refl.cons hp⟩)
      exact fun hm => hne (List.mem_singleton.mp hm).symm
    dsimp only at hb
    split at hb
    · rename_i e
      cases e
      obtain ⟨ha, hi⟩ := slash_inv hp hb
      exact hread ha rfl hi
    rename_i hne
    split at hb
    · rename_i e; exact htoken (by rw [e]; decide) hne hb
    split at hb
    · rename_i e; exact htoken (by rw [e]; decide) hne hb
    split at hb
    · rename_i e; exact htoken (by rw [e]; decide) hne hb
    split at hb
    · rename_i e; exact htoken (by rw [e]; decide) hne hb
    split at hb
    · rename_i e; exact htoken (by rw [e]; decide) hne hb
    split at hb
    · rename_i e; exact htoken (by rw [e]; decide) hne hb
    split at hb
    · rename_i hnl _ _ _ _ hw
      obtain ⟨skipped, lx0, hs, hc, hr⟩ := ih hb
      refine ⟨c :: skipped, lx0, ?_, hc.cons hp, hr⟩
      intro d hd
      rcases List.mem_cons.mp hd with rfl | hd
      · simp [isSkipped, hw, hnl]
      · exact hs d hd
    · rename_i hw
      obtain ⟨ha, s, hs, hc⟩ := startToken_consumes hb
      refine hread ha rfl (.inl ⟨c :: s, .token (by simp [isSkipped, hw]) ?_, hc.cons hp⟩)
      rw [List.mem_cons, not_or]
      exact ⟨Ne.symm hne, hs⟩

/-- At the end there is nothing but white space. -/
lemma nextItem_end (h : nextItem cs p = some (none, lx)) :
    (∀ d ∈ cs, isSkipped d = true) ∧ Overruns ⟨cs, p⟩ lx := by
  induction cs generalizing p with
  | nil =>
    obtain ⟨_, hp, h⟩ := Option.map_eq_some_iff.mp h
    cases h
    exact ⟨fun _ hd => absurd hd List.not_mem_nil, rfl, p, rfl, hp⟩
  | cons c cs ih =>
    obtain ⟨p1, hp, hb⟩ := Option.bind_eq_some_iff.mp h
    dsimp only at hb
    split at hb
    · rename_i e
      cases e
      obtain ⟨⟨_, e, _⟩, _⟩ := slash_inv hp hb
      cases e
    split at hb
    · cases hb
    split at hb
    · cases hb
    rename_i hnl
    split at hb
    · cases hb
    split at hb
    · cases hb
    split at hb
    · cases hb
    split at hb
    · cases hb
    split at hb
    · rename_i hw
      obtain ⟨hs, ho⟩ := ih hb
      refine ⟨?_, ho.cons hp⟩
      intro d hd
      rcases List.mem_cons.mp hd with rfl | hd
      · simp [isSkipped, hw, hnl]
      · exact hs d hd
    · obtain ⟨⟨_, e, _⟩, _⟩ := startToken_consumes hb
      cases e

/-- Every item consumes a character. -/
lemma nextItem_length {item} (h : nextItem cs p = some (some item, lx)) :
    lx.rawData.length < cs.length := by
  obtain ⟨skipped, lx0, _, hc, ⟨s, hs, hi⟩ | ⟨hl, ho⟩, _⟩ := nextItem_inv h
  · have h0 := hc.length
    have h1 := hi.length
    have hpos := hs.length_pos
    dsimp only at h0
    omega
  · have h0 := hc.length
    have hpos := hl.length_pos
    rw [ho.rawData, List.length_nil]
    dsimp only at h0
    omega

/-- The fuel of `stream` suffices. -/
lemma Lexer.stream_eq {fuel : Nat} (h : lx.rawData.length < fuel) : lx.streamFuel fuel = lx.stream := by
  have hfuel : ∀ {fuel fuel' : Nat} {lx : Lexer}, lx.rawData.length < fuel → lx.rawData.length < fuel' →
      lx.streamFuel fuel = lx.streamFuel fuel' := by
    intro fuel
    induction fuel with
    | zero => intro _ _ h; exact absurd h (Nat.not_lt_zero _)
    | succ fuel ih =>
      intro fuel' lx h h'
      cases fuel' with
      | zero => exact absurd h' (Nat.not_lt_zero _)
      | succ fuel' =>
        rw [streamFuel, streamFuel]
        rcases hn : lx.next with _ | ⟨_ | item, lx1⟩
        · rfl
        · rfl
        · have hlt := nextItem_length hn
          have he : streamFuel fuel lx1 = streamFuel fuel' lx1 := ih (by omega) (by omega)
          dsimp only
          rw [he]
  exact hfuel h (Nat.lt_succ_self _)

/-- The stream after an item. -/
lemma Lexer.stream_cons {item} (h : lx.next = some (some item, lx')) :
    lx.stream = ⟨item :: lx'.stream.items, lx'.stream.aborts⟩ := by
  have hlt := nextItem_length h
  rw [stream, streamFuel, h]
  dsimp only
  rw [stream_eq hlt]

end Thorium.Asm
