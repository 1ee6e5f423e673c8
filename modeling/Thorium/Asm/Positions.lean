import Thorium.Asm.Stream

/-!
# The positions of tokens

`place` is the 1-based line and column, in characters, of the character after some text. `positionsTrue_iff` says
when every token of a text is at the place of its first character and lexing the text to its end does not panic:
the place of every character must fit in the 16 bits of `line` and `column`, and so must the column past the end,
which `next_char` counts once more for the `None` at the end, and twice if a comment or a `/` runs into it.
-/

namespace Thorium.Asm

/-! ### Places -/

/-- The characters after the last newline. -/
def lastLine (pre : List Char) : List Char := pre.rtakeWhile (· != '\n')

/-- The line and the column of the character after `pre`. -/
def place (pre : List Char) : Position := ⟨pre.count '\n' + 1, (lastLine pre).length + 1⟩

/-- `u16` -/
def Position.InRange (p : Position) : Prop := p.line < 2 ^ 16 ∧ p.column < 2 ^ 16

/-- A comment, or a `/` at the end, runs into the end of a line. -/
def IsOpen (line : List Char) : Prop := ['/', '/'] <:+: line ∨ ['/'] <:+ line

/-- The texts whose places fit. -/
structure PlacesFit (text : List Char) : Prop where
  places : ∀ pre, pre <+: text → (place pre).InRange
  ending : (place text).column + 1 < 2 ^ 16
  comment : IsOpen (lastLine text) → (place text).column + 2 < 2 ^ 16

variable {pre cs s text : List Char} {c : Char} {p p' : Position} {lx lx0 lx' : Lexer}

/-- A newline ends the line. -/
lemma lastLine_newline : lastLine (pre ++ ['\n']) = [] := List.rtakeWhile_concat_neg _ _ _ (by decide)

/-- Another character is on the line. -/
lemma lastLine_concat (h : c ≠ '\n') : lastLine (pre ++ [c]) = lastLine pre ++ [c] :=
  List.rtakeWhile_concat_pos _ _ _ (by simpa using h)

/-- A text without a newline is on the line. -/
lemma lastLine_append (h : '\n' ∉ s) : lastLine (pre ++ s) = lastLine pre ++ s := by
  induction s using List.reverseRecOn with
  | nil => rw [List.append_nil, List.append_nil]
  | append_singleton s c ih =>
    rw [List.mem_append, not_or, List.mem_singleton] at h
    rw [← List.append_assoc, lastLine_concat (Ne.symm h.2), ih h.1, List.append_assoc]

/-- The place after one character more. -/
lemma advance_place (h : (place pre).InRange) :
    (place pre).advance (some c) = some p ↔ (place (pre ++ [c])).InRange ∧ p = place (pre ++ [c]) := by
  by_cases hc : c = '\n'
  · cases hc
    have hp : place (pre ++ ['\n']) = ⟨(place pre).line + 1, 1⟩ := by
      rw [place, lastLine_newline, List.count_append]
      rfl
    rw [hp, Position.advance]
    by_cases hl : (place pre).line + 1 < 2 ^ 16
    · rw [if_pos hl, Option.some_inj, and_iff_right ⟨hl, show 1 < 2 ^ 16 by decide⟩]
      exact eq_comm
    · rw [if_neg hl]
      exact iff_of_false (fun e => Option.some_ne_none _ e.symm) fun hh => hl hh.1.1
  · have hp : place (pre ++ [c]) = ⟨(place pre).line, (place pre).column + 1⟩ := by
      have hcount : (pre ++ [c]).count '\n' = pre.count '\n' := by
        rw [List.count_append, List.count_eq_zero_of_not_mem (fun hm => hc (List.mem_singleton.mp hm).symm),
          Nat.add_zero]
      rw [place, lastLine_concat hc, hcount, List.length_append]
      rfl
    have ha : (place pre).advance (some c) =
        if (place pre).column + 1 < 2 ^ 16 then some ⟨(place pre).line, (place pre).column + 1⟩ else none := by
      unfold Position.advance
      split
      · rename_i e
        exact absurd (Option.some_inj.mp e) hc
      · rfl
    rw [hp, ha]
    by_cases hl : (place pre).column + 1 < 2 ^ 16
    · rw [if_pos hl, Option.some_inj, and_iff_right ⟨h.1, hl⟩]
      exact eq_comm
    · rw [if_neg hl]
      exact iff_of_false (fun e => Option.some_ne_none _ e.symm) fun hh => hl hh.1.2

/-- The position after a text is its place, if all places on the way fit. -/
lemma advanceAll_place :
    Position.advanceAll ⟨1, 1⟩ text = some p ↔ (∀ pre, pre <+: text → (place pre).InRange) ∧ p = place text := by
  induction text using List.reverseRecOn generalizing p with
  | nil =>
    have hnil : ∀ pre : List Char, pre <+: [] → (place pre).InRange := by
      intro pre hp
      rw [List.prefix_nil.mp hp]
      exact ⟨by decide, by decide⟩
    rw [and_iff_right hnil]
    exact Option.some_inj.trans eq_comm
  | append_singleton l c ih =>
    rw [Position.advanceAll_append, Option.bind_eq_some_iff]
    constructor
    · rintro ⟨p1, h1, h⟩
      obtain ⟨hl, rfl⟩ := ih.mp h1
      obtain ⟨p2, h2, h⟩ := Option.bind_eq_some_iff.mp h
      cases h
      obtain ⟨hc, rfl⟩ := (advance_place (hl l List.prefix_rfl)).mp h2
      refine ⟨?_, rfl⟩
      intro pre hp
      rcases List.prefix_concat_iff.mp hp with rfl | hp
      · exact hc
      · exact hl pre hp
    · rintro ⟨hl, rfl⟩
      have hpre : ∀ pre, pre <+: l → (place pre).InRange := fun pre hp => hl pre (hp.trans (List.prefix_append _ _))
      refine ⟨place l, ih.mpr ⟨hpre, rfl⟩, ?_⟩
      have h := (advance_place (hpre l List.prefix_rfl)).mpr ⟨hl _ List.prefix_rfl, rfl⟩
      rw [Position.advanceAll, h]
      rfl

/-- The column counts past the end of the text. -/
lemma advance_none : p.advance none = some p' ↔ p.column + 1 < 2 ^ 16 ∧ p' = ⟨p.line, p.column + 1⟩ := by
  rw [Position.advance]
  · by_cases h : p.column + 1 < 2 ^ 16
    · rw [if_pos h, Option.some_inj, and_iff_right h]
      exact eq_comm
    · rw [if_neg h]
      exact iff_of_false (fun e => Option.some_ne_none _ e.symm) fun hh => h hh.1
  · exact fun e => Option.some_ne_none _ e.symm

/-! ### Comments -/

/-- A slash after a text that is followed by a character. -/
lemma suffix_slash {l : List Char} (h : s ++ ['/'] <:+ l ++ [c]) : c = '/' ∧ s <:+ l := by
  obtain ⟨t, e⟩ := h
  rw [← List.append_assoc] at e
  obtain ⟨h1, h2⟩ := List.append_inj' e rfl
  exact ⟨(List.singleton_inj.mp h2).symm, t, h1⟩

/-- An empty line opens nothing. -/
lemma not_isOpen_newline : ¬ IsOpen (lastLine (pre ++ ['\n'])) := by
  rw [lastLine_newline]
  rintro (hi | hs)
  · cases List.infix_nil.mp hi
  · cases List.suffix_nil.mp hs

/-- A character that is no `/` opens nothing. -/
lemma not_isOpen_concat (h : ¬ IsOpen (lastLine pre)) (hc : c ≠ '/') : ¬ IsOpen (lastLine (pre ++ [c])) := by
  by_cases hn : c = '\n'
  · rw [hn]
    exact not_isOpen_newline
  · rw [lastLine_concat hn]
    rintro (hi | hs)
    · rcases List.infix_concat_iff.mp hi with hs | hi
      · exact hc (@suffix_slash ['/'] _ _ hs).1
      · exact h (.inl hi)
    · exact hc (@suffix_slash [] _ _ hs).1

/-- A text without a slash opens no comment. -/
lemma not_isOpen_append (h : ¬ IsOpen (lastLine pre)) (hs : '/' ∉ s) : ¬ IsOpen (lastLine (pre ++ s)) := by
  induction s using List.reverseRecOn with
  | nil => rw [List.append_nil]; exact h
  | append_singleton s c ih =>
    rw [List.mem_append, not_or, List.mem_singleton] at hs
    rw [← List.append_assoc]
    exact not_isOpen_concat (ih hs.1) (Ne.symm hs.2)

/-- A single `/` before another character is no comment. -/
lemma not_isOpen_slash (h : ¬ IsOpen (lastLine pre)) (hc : c ≠ '/') :
    ¬ IsOpen (lastLine (pre ++ ['/', c])) := by
  rw [show pre ++ ['/', c] = pre ++ ['/'] ++ [c] by simp]
  by_cases hn : c = '\n'
  · rw [hn]
    exact not_isOpen_newline
  · rw [lastLine_concat hn, lastLine_concat (by decide)]
    rintro (hi | hs)
    · rcases List.infix_concat_iff.mp hi with hs | hi
      · exact hc (@suffix_slash ['/'] _ _ hs).1
      · rcases List.infix_concat_iff.mp hi with hs | hi
        · exact h (.inr (@suffix_slash ['/'] _ _ hs).2)
        · exact h (.inl hi)
    · exact hc (@suffix_slash [] _ _ hs).1

/-- After the text of an item nothing is open. -/
lemma ItemText.not_isOpen (h : ¬ IsOpen (lastLine pre)) (hs : ItemText s) : ¬ IsOpen (lastLine (pre ++ s)) := by
  cases hs with
  | token _ hs => exact not_isOpen_append h hs
  | slash hc => exact not_isOpen_slash h hc
  | comment _ =>
    rw [← List.append_assoc]
    exact not_isOpen_newline

/-- The text of an item that runs into the end leaves the last line open. -/
lemma LastText.isOpen (hs : LastText s) : IsOpen (lastLine (pre ++ s)) := by
  cases hs with
  | slash =>
    rw [lastLine_concat (by decide)]
    exact .inr (List.suffix_append _ _)
  | @comment s hs =>
    rw [show pre ++ '/' :: '/' :: s = pre ++ ['/', '/'] ++ s by simp, lastLine_append hs,
      lastLine_append (show '\n' ∉ ['/', '/'] by decide)]
    exact .inl ⟨lastLine pre, s, rfl⟩

/-! ### No panic -/

/-- A scan within the bounds returns. -/
lemma scan_some {accept acc} (h : p.advanceAll cs = some p') : ∃ r, scan accept acc cs p = some r := by
  induction cs generalizing p acc with
  | nil => exact ⟨_, rfl⟩
  | cons c cs ih =>
    obtain ⟨p1, h1, h⟩ := Option.bind_eq_some_iff.mp h
    rw [scan]
    split
    · exact ⟨_, rfl⟩
    · rw [h1]
      exact ih h

/-- So does a comment. -/
lemma skipComment_some {p2 : Position} (h : p.advanceAll cs = some p') (he : p'.advance none = some p2) :
    ∃ r, skipComment cs p = some r := by
  induction cs generalizing p with
  | nil =>
    cases h
    rw [skipComment, he]
    exact ⟨_, rfl⟩
  | cons c cs ih =>
    obtain ⟨p1, h1, h⟩ := Option.bind_eq_some_iff.mp h
    rw [skipComment, h1, Option.bind_some]
    split
    · exact ⟨_, rfl⟩
    · exact ih h

/-- So does a slash. -/
lemma slash_some {position p2 : Position} (h : p.advanceAll cs = some p') (he : p'.advance none = some p2) :
    ∃ r, slash position cs p = some r := by
  cases cs with
  | nil =>
    cases h
    rw [slash, List.head?_nil, he]
    exact ⟨_, rfl⟩
  | cons c cs =>
    obtain ⟨p1, h1, hb⟩ := Option.bind_eq_some_iff.mp h
    rw [slash, List.head?_cons, h1, Option.bind_some]
    split
    · rename_i e
      cases e
      obtain ⟨r, hr⟩ := skipComment_some hb he
      exact ⟨_, by rw [hr]; rfl⟩
    · exact ⟨_, rfl⟩

variable [Unicode]

/-- So does a number. -/
lemma number_some (h : lx.position.advanceAll lx.rawData = some p') : ∃ r, lx.number c = some r := by
  have hdec : ∃ r, lx.parseDec c = some r := by
    obtain ⟨r, hr⟩ := @scan_some _ _ _ acceptDec [c] h
    exact ⟨_, by rw [Lexer.parseDec, hr]; rfl⟩
  rw [Lexer.number]
  split
  · split
    · rename_i e
      rw [e] at h
      obtain ⟨p1, h1, h⟩ := Option.bind_eq_some_iff.mp h
      obtain ⟨r, hr⟩ := @scan_some _ _ _ acceptHex [] h
      exact ⟨_, by rw [h1, Option.bind_some, Lexer.parseHex, hr]; rfl⟩
    · rename_i e
      rw [e] at h
      obtain ⟨p1, h1, h⟩ := Option.bind_eq_some_iff.mp h
      obtain ⟨r, hr⟩ := @scan_some _ _ _ acceptBin [] h
      exact ⟨_, by rw [h1, Option.bind_some, Lexer.parseBin, hr]; rfl⟩
    · exact hdec
  · exact hdec

/-- So does a token. -/
lemma startToken_some {position : Position} (h : lx.position.advanceAll lx.rawData = some p') :
    ∃ r, startToken position c lx = some r := by
  have hid : ∀ {d} {f : String × Lexer → Option Item × Lexer}, ∃ r, (lx.identifier d).map f = some r := by
    intro d f
    obtain ⟨r, hr⟩ := @scan_some _ _ _ acceptIdentifier d.toList h
    exact ⟨_, by rw [Lexer.identifier, hr]; rfl⟩
  unfold startToken
  split
  · exact hid
  split
  · exact hid
  split
  · exact hid
  split
  · exact hid
  split
  · obtain ⟨r, hr⟩ : ∃ r, lx.number c = some r := number_some h
    exact ⟨_, by rw [hr]; rfl⟩
  split
  · exact hid
  split
  · obtain ⟨r, hr⟩ := @scan_some _ _ _ acceptOp [c] h
    exact ⟨_, by rw [Lexer.op, hr]; rfl⟩
  split
  · exact hid
  split
  · exact hid
  · exact ⟨_, rfl⟩

/-- An item is read without a panic if one can read past the end of the text. -/
lemma nextItem_some {p2 : Position} (h : p.advanceAll cs = some p') (he : p'.advance none = some p2) :
    ∃ r, nextItem cs p = some r := by
  induction cs generalizing p with
  | nil =>
    cases h
    rw [nextItem, he]
    exact ⟨_, rfl⟩
  | cons c cs ih =>
    obtain ⟨p1, h1, h⟩ := Option.bind_eq_some_iff.mp h
    rw [nextItem, h1, Option.bind_some]
    dsimp only
    split
    · exact slash_some h he
    split
    · exact ⟨_, rfl⟩
    split
    · exact ⟨_, rfl⟩
    split
    · exact ⟨_, rfl⟩
    split
    · exact ⟨_, rfl⟩
    split
    · exact ⟨_, rfl⟩
    split
    · exact ⟨_, rfl⟩
    split
    · exact ih h
    · exact startToken_some h

/-! ### Runs -/

/-- The iterator yields an item. -/
def Yields (lx lx' : Lexer) : Prop := ∃ item, lx.next = some (some item, lx')

/-- The iterator consumes white space and then the token, whose position is the place of its first character. -/
def TrueAt (text : List Char) (lx lx' : Lexer) (token : Token) : Prop :=
  ∃ pre skipped c body, text = pre ++ lx.rawData ∧ lx.rawData = skipped ++ (c :: body ++ lx'.rawData) ∧
    (∀ d ∈ skipped, isSkipped d = true) ∧ isSkipped c = false ∧ token.position = place (pre ++ skipped)

/-- The iterator never panics on a text, and the position of every token it yields is true. -/
def PositionsTrue (text : String) : Prop :=
  ∀ lx, Relation.ReflTransGen Yields (Lexer.fromText text) lx →
    lx.next ≠ none ∧ ∀ token lx', lx.next = some (some (.ok token), lx') → TrueAt text.toList lx lx' token

/-- A lexer between two items of a text. -/
def Between (text : String) (lx : Lexer) : Prop :=
  (∃ pre, Consumes (Lexer.fromText text) pre lx ∧ ¬ IsOpen (lastLine pre)) ∨
    Overruns (Lexer.fromText text) lx ∧ IsOpen (lastLine text.toList)

omit [Unicode] in
/-- Nothing has been read. -/
lemma Between.start {text : String} : Between text (Lexer.fromText text) := by
  refine .inl ⟨[], .refl, ?_⟩
  rintro (hi | hs)
  · cases List.infix_nil.mp hi
  · cases List.suffix_nil.mp hs

omit [Unicode] in
/-- What is skipped opens no comment. -/
lemma isSkipped_slash (h : ∀ d ∈ s, isSkipped d = true) : '/' ∉ s := fun hm => Bool.noConfusion (h _ hm)

/-- One item more. -/
lemma Between.step {text : String} (h : Between text lx) (hy : Yields lx lx') : Between text lx' := by
  obtain ⟨item, hn⟩ := hy
  obtain ⟨pre, hc, ho⟩ | ⟨ho, _⟩ := h
  · obtain ⟨skipped, lx0, hs, hc0, hread, _⟩ := nextItem_inv hn
    have hopen := not_isOpen_append ho (isSkipped_slash hs)
    obtain ⟨s, hi, hc1⟩ | ⟨hl, hover⟩ := hread
    · exact .inl ⟨_, (hc.trans hc0).trans hc1, hi.not_isOpen hopen⟩
    · refine .inr ⟨hover.of_consumes (hc.trans hc0), ?_⟩
      rw [show text.toList = _ from (hc.trans hc0).rawData]
      exact hl.isOpen
  · have hlt := nextItem_length hn
    rw [ho.rawData] at hlt
    exact absurd hlt (Nat.not_lt_zero _)

/-- What has been read after some calls. -/
lemma Between.run {text : String} (h : Relation.ReflTransGen Yields (Lexer.fromText text) lx) :
    Between text lx := by
  induction h with
  | refl => exact .start
  | tail _ hy ih => exact ih.step hy

omit [Unicode] in
/-- The text of an item starts with what is not skipped. -/
lemma ItemRead.head (h : ItemRead lx lx') :
    ∃ c body, lx.rawData = c :: body ++ lx'.rawData ∧ isSkipped c = false := by
  obtain ⟨s, hi, hc⟩ | ⟨hl, ho⟩ := h
  · rw [hc.rawData]
    cases hi with
    | token hs _ => exact ⟨_, _, rfl, hs⟩
    | slash => exact ⟨_, _, rfl, by decide⟩
    | comment => exact ⟨_, _, rfl, by decide⟩
  · rw [ho.rawData]
    generalize lx.rawData = cs at hl
    cases hl with
    | slash => exact ⟨_, [], rfl, by decide⟩
    | @comment s _ => exact ⟨'/', '/' :: s, (List.append_nil _).symm, by decide⟩

/-- The position of a token is true. -/
lemma Between.trueAt {text : String} {token : Token} (h : Between text lx)
    (hn : lx.next = some (some (.ok token), lx')) : TrueAt text.toList lx lx' token := by
  obtain ⟨pre, hc, _⟩ | ⟨ho, _⟩ := h
  · obtain ⟨skipped, lx0, hs, hc0, hread, hat⟩ := nextItem_inv hn
    obtain ⟨c, body, hd, hw⟩ := hread.head
    have hp := (advanceAll_place.mp (hc.trans hc0).position).2
    refine ⟨pre, skipped, c, body, hc.rawData, ?_, hs, hw, ?_⟩
    · rw [← hd]
      exact hc0.rawData
    · rw [hat token rfl, hp]
  · have hlt := nextItem_length hn
    rw [ho.rawData] at hlt
    exact absurd hlt (Nat.not_lt_zero _)

/-- Where the places fit, the next item is read without a panic. -/
lemma Between.next_some {text : String} (h : Between text lx) (hf : PlacesFit text.toList) :
    ∃ r, lx.next = some r := by
  have hp : Position.advanceAll ⟨1, 1⟩ text.toList = some (place text.toList) :=
    advanceAll_place.mpr ⟨hf.places, rfl⟩
  obtain ⟨pre, hc, _⟩ | ⟨⟨hd, p, hp', he⟩, ho⟩ := h
  · have hrest : lx.position.advanceAll lx.rawData = some (place text.toList) := by
      have hpos : Position.advanceAll ⟨1, 1⟩ pre = some lx.position := hc.position
      rw [← hp, show text.toList = _ from hc.rawData, Position.advanceAll_append, hpos]
      rfl
    exact nextItem_some hrest (advance_none.mpr ⟨hf.ending, rfl⟩)
  · cases hp.symm.trans hp'
    obtain ⟨_, hl⟩ := advance_none.mp he
    have h2 : lx.position.advance none = some ⟨lx.position.line, lx.position.column + 1⟩ := by
      refine advance_none.mpr ⟨?_, rfl⟩
      rw [hl]
      exact hf.comment ho
    rw [Lexer.next, hd]
    exact nextItem_some rfl h2

/-- Without a panic the iterator comes to the end of the text. -/
lemma exists_end (h : ∀ lx', Relation.ReflTransGen Yields lx lx' → lx'.next ≠ none) :
    ∃ lx1 lx2, Relation.ReflTransGen Yields lx lx1 ∧ lx1.next = some (none, lx2) := by
  induction hn : lx.rawData.length using Nat.strong_induction_on generalizing lx with
  | _ n ih =>
    obtain ⟨⟨item, lx'⟩, hr⟩ := Option.ne_none_iff_exists'.mp (h lx .refl)
    cases item with
    | none => exact ⟨lx, lx', .refl, hr⟩
    | some item =>
      have hy : Yields lx lx' := ⟨item, hr⟩
      have hlt := nextItem_length hr
      rw [hn] at hlt
      obtain ⟨lx1, lx2, hrun, hend⟩ := ih _ hlt (fun _ hrun => h _ (.head hy hrun)) rfl
      exact ⟨lx1, lx2, .head hy hrun, hend⟩

/-- A text that is lexed to its end fits. -/
lemma Between.fits {text : String} (h : Between text lx) (hn : lx.next = some (none, lx')) : PlacesFit text.toList := by
  obtain ⟨hs, hover⟩ := nextItem_end hn
  obtain ⟨pre, hc, ho⟩ | ⟨⟨hd, p, hp, he⟩, ho⟩ := h
  · obtain ⟨_, p, hp, he⟩ := hover.of_consumes hc
    obtain ⟨hplaces, rfl⟩ := advanceAll_place.mp hp
    refine ⟨hplaces, (advance_none.mp he).1, ?_⟩
    intro hopen
    rw [show text.toList = _ from hc.rawData] at hopen
    exact absurd hopen (not_isOpen_append ho (isSkipped_slash hs))
  · obtain ⟨hplaces, rfl⟩ := advanceAll_place.mp hp
    obtain ⟨hending, hl⟩ := advance_none.mp he
    refine ⟨hplaces, hending, fun _ => ?_⟩
    obtain ⟨_, p, hp, he⟩ := hover
    rw [hd] at hp
    cases hp
    have hcol := (advance_none.mp he).1
    rw [hl] at hcol
    exact hcol

/-- The positions of all tokens are true and lexing does not panic if and only if the places of the text fit. -/
theorem positionsTrue_iff {text : String} : PositionsTrue text ↔ PlacesFit text.toList := by
  constructor
  · intro h
    obtain ⟨lx, lx', hrun, hend⟩ := exists_end fun lx hrun => (h lx hrun).1
    exact (Between.run hrun).fits hend
  · intro hf lx hrun
    have hb := Between.run hrun
    refine ⟨?_, fun token lx' hn => hb.trueAt hn⟩
    obtain ⟨r, hr⟩ := hb.next_some hf
    rw [hr]
    exact Option.some_ne_none r

omit [Unicode] in
/-- A file of 65535 empty lines has a line that does not fit. -/
theorem not_positionsTrue : ¬ @PositionsTrue ⟨fun _ => false⟩ (String.ofList (List.replicate 65535 '\n')) := by
  intro h
  let _ : Unicode := ⟨fun _ => false⟩
  obtain ⟨lx, lx', hrun, hend⟩ := exists_end fun lx hrun => (h lx hrun).1
  have hf := (Between.run hrun).fits hend
  have hline := (hf.places _ List.prefix_rfl).1
  rw [String.toList_ofList, place, List.count_replicate_self] at hline
  exact absurd hline (by decide)

end Thorium.Asm
