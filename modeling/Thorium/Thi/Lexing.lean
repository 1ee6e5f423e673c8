import Thorium.Thi.Generator
import Thorium.Thi.Lexemes

/-!
# The calls of the lexer

What a call of `Lexer:next` does before a text: with enough fuel its loops do what the functions of `Thi.Lexer` do,
and a comment that is not closed is read for ever. `streams_of_lexes` is the result for texts with tokens, and
`answers_iff` says that only on these every call returns.
-/

namespace Thorium.Thi.Generator
open Thorium.Isa Fueled

/-- The tokens of a lexer up to the end of the text, where there is no other one. -/
inductive Streams : Lexer → List Token → Prop where
  | eof {lx} : lx.next.Leads (some (endToken, ⟨[], []⟩)) → Streams lx []
  | token {lx t lx' ts} : lx.next.Leads (some (t, lx')) → Streams lx' ts → Streams lx (t :: ts)

/-- The tokens that are no white space. -/
def strip (ts : List Token) : List Token := ts.filter fun t => t.type != .whitespace

/-- The tokens of a file: none is empty or at its end. -/
def Proper (ts : List Token) : Prop := ∀ t ∈ ts, t.value ≠ [] ∧ t.type ≠ .eof

variable {accept : Option Char → Bool} {lx lx' : Lexer} {read cs rest text : List Char} {c : Char} {level : Nat}
  {t : Token} {ts : List Token} {o : Option (Token × Lexer)}

/-! ### Loops over characters -/

/-- A loop that stops at the end of the text eats what it accepts. -/
lemma eatWhile_leads (hend : accept none = false) :
    (eatWhile accept ⟨read, cs⟩).Leads
      (some ⟨read ++ cs.takeWhile fun c => accept (some c), cs.dropWhile fun c => accept (some c)⟩) := by
  induction cs generalizing read with
  | nil =>
    rw [List.takeWhile_nil, List.dropWhile_nil, List.append_nil]
    refine Leads.done ?_
    rw [show accept (Lexer.look ⟨read, []⟩ 0) = false from hend]
    exact leads_pure
  | cons c cs ih =>
    rw [List.takeWhile_cons, List.dropWhile_cons]
    by_cases h : accept (some c) = true
    · rw [if_pos h, if_pos h]
      have hread := @ih (read ++ [c])
      rw [List.append_assoc] at hread
      refine Leads.next ?_ hread
      rw [if_pos (show accept (Lexer.look ⟨read, c :: cs⟩ 0) = true from h)]
      exact leads_pure
    · rw [if_neg h, if_neg h, List.append_nil]
      refine Leads.done ?_
      rw [if_neg (show ¬ accept (Lexer.look ⟨read, c :: cs⟩ 0) = true from h)]
      exact leads_pure

/-- White space is read up to its end. -/
lemma readWhitespaces_leads : (readWhitespaces ⟨read, cs⟩).Leads
    (some ⟨read ++ cs.takeWhile isWhitespace, cs.dropWhile isWhitespace⟩) :=
  eatWhile_leads rfl

/-- A word is read up to its end. -/
lemma readWord_leads :
    (readWord ⟨read, cs⟩).Leads (some ⟨read ++ cs.takeWhile Char.isAlpha, cs.dropWhile Char.isAlpha⟩) :=
  eatWhile_leads rfl

/-- A number is read up to its end. -/
lemma readNumber_leads :
    (readNumber ⟨read, cs⟩).Leads (some ⟨read ++ cs.takeWhile Char.isDigit, cs.dropWhile Char.isDigit⟩) :=
  eatWhile_leads rfl

/-- The rest of a line that ends. -/
lemma skipLine_leads (h : '\n' ∈ cs) :
    (skipLine ⟨read, cs⟩).Leads (some ⟨read ++ cs.takeWhile (· != '\n'), cs.dropWhile (· != '\n')⟩) := by
  induction cs generalizing read with
  | nil => exact absurd h List.not_mem_nil
  | cons c cs ih =>
    rw [List.takeWhile_cons, List.dropWhile_cons]
    by_cases hc : c = '\n'
    · cases hc
      rw [if_neg (by decide), if_neg (by decide), List.append_nil]
      exact Leads.done leads_pure
    · have hne : (c != '\n') = true := bne_iff_ne.mpr hc
      rw [if_pos hne, if_pos hne]
      have hread := @ih (read ++ [c]) ((List.mem_cons.mp h).resolve_left (Ne.symm hc))
      rw [List.append_assoc] at hread
      refine Leads.next ?_ hread
      rw [if_pos (show (Lexer.look ⟨read, c :: cs⟩ 0 != some '\n') = true from
        bne_iff_ne.mpr fun e => hc (Option.some_inj.mp e))]
      exact leads_pure

/-- The last line, which does not end. -/
lemma skipLine_forever (h : '\n' ∉ cs) : (skipLine ⟨read, cs⟩).Leads none := by
  refine leads_forever (I := fun lx => '\n' ∉ lx.rest) ?_ h
  intro lx hlx
  refine ⟨lx.eat 1, ?_, fun hm => hlx (List.mem_of_mem_drop hm)⟩
  have hlook : (lx.look 0 != some '\n') = true := bne_iff_ne.mpr fun e => hlx (List.mem_of_getElem? e)
  rw [if_pos hlook]
  exact leads_pure

/-- A text without a closing parenthesis of its own, to the one that closes it. -/
lemma readText_leads : (repeatUntil textRound (level, ⟨read, cs⟩)).Leads
    (some ⟨read ++ (Thi.readText level cs).1, (Thi.readText level cs).2⟩) := by
  induction cs generalizing level read with
  | nil =>
    rw [show Thi.readText level [] = ([], []) from rfl, List.append_nil]
    exact Leads.done leads_pure
  | cons c cs ih =>
    have hnext : ∀ {level'}, textRound (level, ⟨read, c :: cs⟩) = pure (.inl (level', ⟨read ++ [c], cs⟩)) →
        (repeatUntil textRound (level, ⟨read, c :: cs⟩)).Leads
          (some ⟨read ++ c :: (Thi.readText level' cs).1, (Thi.readText level' cs).2⟩) := by
      intro level' e
      have h := @ih (read ++ [c]) level'
      rw [List.append_assoc] at h
      refine Leads.next ?_ h
      rw [e]
      exact leads_pure
    have hround : textRound (level, ⟨read, c :: cs⟩) =
        if c == '(' then pure (.inl (level + 1, ⟨read ++ [c], cs⟩))
        else if c == ')' && level == 0 then pure (.inr ⟨read, c :: cs⟩)
        else if c == ')' then pure (.inl (level - 1, ⟨read ++ [c], cs⟩))
        else pure (.inl (level, ⟨read ++ [c], cs⟩)) := rfl
    rw [Thi.readText]
    split
    · rename_i h
      exact hnext (by rw [hround, if_pos h])
    rename_i h1
    split
    · rename_i h
      rw [List.append_nil]
      refine Leads.done ?_
      rw [hround, if_neg h1, if_pos h]
      exact leads_pure
    rename_i h2
    apply hnext
    rw [hround, if_neg h1, if_neg h2]
    split
    · rfl
    · rfl

/-! ### Block comments -/

/-- A marker is at the start of what is left. -/
lemma atMarker_iff : (Lexer.mk read cs).atMarker = true ↔ ∃ cs', cs = marker ++ cs' := by
  constructor
  · intro h
    obtain ⟨⟨h0, h1⟩, h2⟩ : (cs[0]? = some '#' ∧ cs[1]? = some '#') ∧ cs[2]? = some '#' := by
      simpa [Lexer.atMarker, Lexer.look] using h
    rcases cs with _ | ⟨a, _ | ⟨b, _ | ⟨c, cs⟩⟩⟩
    · cases h0
    · cases h1
    · cases h2
    · cases h0
      cases h1
      cases h2
      exact ⟨cs, rfl⟩
  · rintro ⟨cs', rfl⟩
    rfl

/-- A block ends with its marker. -/
lemma skipBlockComment_marker : Thi.skipBlockComment (marker ++ cs) = .ok cs := rfl

/-- A character of a block is skipped. -/
lemma skipBlockComment_cons (h : (Lexer.mk read (c :: cs)).atMarker = false) :
    Thi.skipBlockComment (c :: cs) = Thi.skipBlockComment cs := by
  have hne : ∀ cs', c :: cs ≠ '#' :: '#' :: '#' :: cs' := by
    intro cs' e
    rw [atMarker_iff.mpr ⟨cs', e⟩] at h
    cases h
  rw [Thi.skipBlockComment.eq_def]
  split
  · rename_i e
    exact absurd e (hne _)
  · rename_i e
    cases e
    rfl
  · rename_i e
    cases e

/-- White space in a block makes no difference. -/
lemma skipBlockComment_space : Thi.skipBlockComment (cs.dropWhile isWhitespace) = Thi.skipBlockComment cs := by
  induction cs with
  | nil => rfl
  | cons c cs ih =>
    rw [List.dropWhile_cons]
    split
    · rename_i hc
      have hm : (Lexer.mk [] (c :: cs)).atMarker = false := by
        rw [Bool.eq_false_iff]
        intro h
        obtain ⟨cs', e⟩ := atMarker_iff.mp h
        cases e
        cases hc
      rw [ih, skipBlockComment_cons hm]
    · rfl

/-- A round in a block comment that does not end it. -/
lemma blockRound_leads (h : (Lexer.mk read cs).atMarker = false) :
    ∃ read' cs', (blockRound ⟨read, cs⟩).Leads (some (.inl ⟨read', cs'⟩)) ∧
      Thi.skipBlockComment cs' = Thi.skipBlockComment cs ∧ (cs ≠ [] → cs'.length < cs.length) := by
  rw [blockRound, h, if_neg Bool.false_ne_true]
  cases cs with
  | nil => exact ⟨_, _, leads_pure, rfl, fun h => absurd rfl h⟩
  | cons c cs =>
    by_cases hc : isWhitespace c = true
    · rw [if_pos (show ((Lexer.mk read (c :: cs)).look 0).any isWhitespace = true from hc)]
      refine ⟨_, _, Leads.bind readWhitespaces_leads leads_pure, skipBlockComment_space, fun _ => ?_⟩
      rw [List.dropWhile_cons_of_pos hc]
      exact Nat.lt_succ_of_le (List.length_dropWhile_le _ _)
    · rw [if_neg (show ¬ ((Lexer.mk read (c :: cs)).look 0).any isWhitespace = true from hc)]
      exact ⟨_, _, leads_pure, (skipBlockComment_cons h).symm, fun _ => Nat.lt_succ_self _⟩

/-- A block comment that is closed. -/
lemma skipBlockComment_leads (h : Thi.skipBlockComment cs = .ok rest) :
    (skipBlockComment ⟨read, cs⟩).Leads (some ⟨[], rest⟩) := by
  have hloop : ∃ read', (repeatUntil blockRound ⟨read, cs⟩).Leads (some ⟨read', rest⟩) := by
    induction hn : cs.length using Nat.strong_induction_on generalizing read cs with
    | _ n ih =>
      rcases hm : (Lexer.mk read cs).atMarker
      · obtain ⟨read', cs', hr, he, hlt⟩ := blockRound_leads hm
        have hne : cs ≠ [] := by
          rintro rfl
          cases h
        obtain ⟨read'', hl⟩ := @ih cs'.length (by have := hlt hne; omega) read' cs' (he.trans h) rfl
        exact ⟨read'', Leads.next hr hl⟩
      · obtain ⟨cs', rfl⟩ := atMarker_iff.mp hm
        rw [skipBlockComment_marker] at h
        cases h
        refine ⟨read ++ marker, Leads.done ?_⟩
        rw [blockRound, if_pos hm]
        exact leads_pure
  obtain ⟨read', hl⟩ := hloop
  exact Leads.bind hl leads_pure

/-- A block comment that is not closed. -/
lemma skipBlockComment_forever {e : String} (h : Thi.skipBlockComment cs = .error e) :
    (skipBlockComment ⟨read, cs⟩).Leads none := by
  refine Leads.bind_none (leads_forever (I := fun lx => Thi.skipBlockComment lx.rest = .error e) ?_ h)
  rintro ⟨read, cs⟩ h
  have hm : (Lexer.mk read cs).atMarker = false := by
    rw [Bool.eq_false_iff]
    intro hm
    obtain ⟨cs', rfl⟩ := atMarker_iff.mp hm
    cases skipBlockComment_marker.symm.trans h
  obtain ⟨read', cs', hr, he, _⟩ := blockRound_leads hm
  exact ⟨⟨read', cs'⟩, hr, he.trans h⟩

/-! ### One call -/

/-- Both branches of a conditional. -/
lemma leads_ite {p : Prop} [Decidable p] {x y : Fueled (Token × Lexer)} {a b : Token × List Char}
    (hx : p → x.Leads (some (a.1, ⟨[], a.2⟩))) (hy : ¬ p → y.Leads (some (b.1, ⟨[], b.2⟩))) :
    (if p then x else y).Leads (some ((if p then a else b).1, ⟨[], (if p then a else b).2⟩)) := by
  split
  · rename_i h
    exact hx h
  · rename_i h
    exact hy h

/-- A token that starts with `c`. -/
lemma readToken_leads : (readToken c ⟨[c], cs⟩).Leads (some ((startToken c cs).1, ⟨[], (startToken c cs).2⟩)) := by
  have hdigit : ((Lexer.mk [c] cs).look 0).any Char.isDigit = atDigit cs := by
    cases cs with
    | nil => rfl
    | cons _ _ => rfl
  have hnumber : ∀ {type}, (makeToken type <$> readNumber ⟨[c], cs⟩).Leads
      (some ((numberToken type c cs).1, ⟨[], (numberToken type c cs).2⟩)) := readNumber_leads.map
  have htext : ∀ {read cs}, (makeToken .text <$> readText ⟨read, cs⟩).Leads
      (some ((textToken read cs).1, ⟨[], (textToken read cs).2⟩)) := readText_leads.map
  rw [readToken, startToken]
  dsimp only
  rw [hdigit]
  refine leads_ite (fun _ => leads_pure) fun _ => ?_
  refine leads_ite (fun _ => leads_pure) fun _ => ?_
  refine leads_ite (fun _ => leads_pure) fun _ => ?_
  refine leads_ite (fun _ => hnumber) fun _ => ?_
  refine leads_ite (fun _ => hnumber) fun _ => ?_
  refine leads_ite (fun _ => hnumber) fun _ => ?_
  refine leads_ite (fun _ => hnumber) fun _ => ?_
  refine leads_ite (fun _ => hnumber) fun _ => ?_
  refine leads_ite (fun _ => hnumber) fun _ => ?_
  refine leads_ite (fun _ => leads_pure) fun _ => ?_
  refine leads_ite (fun _ => ?_) fun _ => htext
  refine Leads.bind readWord_leads ?_
  refine leads_ite (fun _ => leads_pure) fun _ => ?_
  exact leads_ite (fun _ => leads_pure) fun _ => htext

/-- A round that has read something, or starts with white space. -/
lemma nextRound_space (h : read ++ cs.takeWhile isWhitespace ≠ []) : (nextRound ⟨read, cs⟩).Leads
    (some (.inr (⟨.whitespace, read ++ cs.takeWhile isWhitespace⟩, ⟨[], cs.dropWhile isWhitespace⟩))) := by
  refine Leads.bind readWhitespaces_leads ?_
  rw [if_pos h]
  exact leads_pure

/-- A round at a character that is no white space. -/
lemma nextRound_cons {r : Option (Lexer ⊕ (Token × Lexer))} (hc : isWhitespace c = false)
    (h : Fueled.Leads (if c == '#' && (Lexer.mk [c] cs).look 0 == some '#' && (Lexer.mk [c] cs).look 1 == some '#'
        then .inl <$> skipBlockComment ((Lexer.mk [c] cs).eat 2)
      else if c == '#' then .inl <$> skipLine ⟨[c], cs⟩
      else .inr <$> readToken c ⟨[c], cs⟩) r) : (nextRound ⟨[], c :: cs⟩).Leads r := by
  have hw := @readWhitespaces_leads [] (c :: cs)
  rw [List.takeWhile_cons_of_neg (by rw [hc]; decide), List.dropWhile_cons_of_neg (by rw [hc]; decide)] at hw
  refine Leads.bind hw ?_
  rw [if_neg (by rw [List.append_nil]; exact fun h => h rfl)]
  exact h

/-- At the end of the text there is no other token. -/
lemma next_end : (Lexer.mk [] []).next.Leads (some (endToken, ⟨[], []⟩)) := by
  refine Leads.done (Leads.bind readWhitespaces_leads ?_)
  exact leads_pure

/-- A token of white space. -/
lemma next_space (hc : isWhitespace c = true) : (Lexer.mk [] (c :: cs)).next.Leads
    (some (⟨.whitespace, (c :: cs).takeWhile isWhitespace⟩, ⟨[], cs.dropWhile isWhitespace⟩)) := by
  have h : [] ++ (c :: cs).takeWhile isWhitespace ≠ [] := by
    rw [List.takeWhile_cons_of_pos hc]
    exact List.cons_ne_nil _ _
  have hround := nextRound_space h
  rw [List.dropWhile_cons_of_pos hc] at hround
  exact Leads.done hround

/-- A token that is none and no comment. -/
lemma next_token (hc : isWhitespace c = false) (hne : c ≠ '#') :
    (Lexer.mk [] (c :: cs)).next.Leads (some ((startToken c cs).1, ⟨[], (startToken c cs).2⟩)) := by
  refine Leads.done (nextRound_cons hc ?_)
  have hfalse : (c == '#') = false := beq_eq_false_iff_ne.mpr hne
  rw [hfalse, Bool.false_and, Bool.false_and, if_neg Bool.false_ne_true, if_neg Bool.false_ne_true]
  exact readToken_leads.map

/-- A round at the opening of a block comment. -/
lemma nextRound_block {r : Option (Lexer ⊕ (Token × Lexer))}
    (h : (Sum.inl <$> skipBlockComment ⟨marker, cs⟩ : Fueled (Lexer ⊕ (Token × Lexer))).Leads r) :
    (nextRound ⟨[], marker ++ cs⟩).Leads r := nextRound_cons rfl h

/-- A block is skipped before the next token. -/
lemma next_block (h : Thi.skipBlockComment cs = .ok rest) (ho : (Lexer.mk [] rest).next.Leads o) :
    (Lexer.mk [] (marker ++ cs)).next.Leads o :=
  Leads.next (nextRound_block (skipBlockComment_leads h).map) ho

/-- A block without an end. -/
lemma next_block_forever {e : String} (h : Thi.skipBlockComment cs = .error e) :
    (Lexer.mk [] (marker ++ cs)).next.Leads none :=
  Leads.stuck (nextRound_block (skipBlockComment_forever h).map_none)

/-- A round at a `#` that opens no block comment. -/
lemma nextRound_line {r : Option (Lexer ⊕ (Token × Lexer))} (hm : ¬ ['#', '#'] <+: cs)
    (h : (Sum.inl <$> skipLine ⟨['#'], cs⟩ : Fueled (Lexer ⊕ (Token × Lexer))).Leads r) :
    (nextRound ⟨[], '#' :: cs⟩).Leads r := by
  refine nextRound_cons (by decide) ?_
  have hfalse : ('#' == '#' && (Lexer.mk ['#'] cs).look 0 == some '#' && (Lexer.mk ['#'] cs).look 1 == some '#') =
      false := by
    rw [Bool.eq_false_iff]
    intro ht
    apply hm
    obtain ⟨h0, h1⟩ : cs[0]? = some '#' ∧ cs[1]? = some '#' := by simpa [Lexer.look] using ht
    rcases cs with _ | ⟨a, _ | ⟨b, cs⟩⟩
    · cases h0
    · cases h1
    · cases h0
      cases h1
      exact ⟨cs, rfl⟩
  rw [hfalse, if_neg Bool.false_ne_true]
  exact h

/-- A line of a comment is white space with what follows it. -/
lemma next_line (hm : ¬ ['#', '#'] <+: cs) (hn : '\n' ∉ cs) :
    (Lexer.mk [] ('#' :: (cs ++ '\n' :: rest))).next.Leads
      (some (⟨.whitespace, '#' :: cs ++ ('\n' :: rest).takeWhile isWhitespace⟩, ⟨[], rest.dropWhile isWhitespace⟩)) := by
  have hmem : '\n' ∈ cs ++ '\n' :: rest := List.mem_append_right _ (List.mem_cons_self ..)
  have hm' : ¬ ['#', '#'] <+: cs ++ '\n' :: rest := by
    intro h
    rcases cs with _ | ⟨a, _ | ⟨b, cs⟩⟩
    · cases (List.cons_prefix_cons.mp h).1
    · cases (List.cons_prefix_cons.mp (List.cons_prefix_cons.mp h).2).1
    · obtain ⟨e1, h1⟩ := List.cons_prefix_cons.mp h
      obtain ⟨e2, _⟩ := List.cons_prefix_cons.mp h1
      cases e1
      cases e2
      exact hm ⟨cs, rfl⟩
  have hne : ∀ c ∈ cs, (c != '\n') = true := by
    intro c hc
    rw [bne_iff_ne]
    rintro rfl
    exact hn hc
  have hskip : (skipLine ⟨['#'], cs ++ '\n' :: rest⟩).Leads (some ⟨'#' :: cs, '\n' :: rest⟩) := by
    have h := @skipLine_leads ['#'] _ hmem
    rw [List.takeWhile_append_of_pos hne, List.dropWhile_append_of_pos hne, List.takeWhile_cons_of_neg (by decide),
      List.dropWhile_cons_of_neg (by decide), List.append_nil] at h
    exact h
  have hround := @nextRound_space ('#' :: cs) ('\n' :: rest) (List.cons_ne_nil _ _)
  exact Leads.next (nextRound_line hm' hskip.map) (Leads.done hround)

/-- A line of a comment without an end. -/
lemma next_line_forever (hm : ¬ ['#', '#'] <+: cs) (hn : '\n' ∉ cs) : (Lexer.mk [] ('#' :: cs)).next.Leads none :=
  Leads.stuck (nextRound_line hm (skipLine_forever hn).map_none)

/-! ### All calls -/

/-- A block comment ends at the first marker. -/
lemma skipBlockComment_append {s : List Char} (h : ¬ marker <:+: s ++ ['#', '#']) :
    Thi.skipBlockComment (s ++ (marker ++ cs)) = .ok cs := by
  induction s with
  | nil => rfl
  | cons c s ih =>
    have hm : (Lexer.mk [] (c :: (s ++ (marker ++ cs)))).atMarker = false := by
      rw [Bool.eq_false_iff]
      intro hm
      obtain ⟨cs', e⟩ := atMarker_iff.mp hm
      have hp : marker <+: c :: (s ++ ['#', '#']) := by
        apply List.prefix_of_prefix_length_le ⟨cs', e.symm⟩ ⟨'#' :: cs, by simp [marker]⟩
        simp [marker]
      exact h hp.isInfix
    rw [List.cons_append, skipBlockComment_cons hm]
    exact ih fun hi => h (List.infix_cons hi)

/-- What a block comment has read to its end. -/
lemma skipBlockComment_inv (h : Thi.skipBlockComment cs = .ok rest) :
    ∃ s, cs = s ++ (marker ++ rest) ∧ ¬ marker <:+: s ++ ['#', '#'] := by
  induction cs with
  | nil => cases h
  | cons c cs ih =>
    rcases hm : (Lexer.mk [] (c :: cs)).atMarker
    · rw [skipBlockComment_cons hm] at h
      obtain ⟨s, rfl, hs⟩ := ih h
      refine ⟨c :: s, rfl, fun hi => ?_⟩
      rcases List.infix_cons_iff.mp hi with ⟨cs', e⟩ | hi
      · have hp : marker <+: c :: (s ++ (marker ++ rest)) := ⟨cs' ++ '#' :: rest, by
          rw [← List.append_assoc, e]
          simp [marker]⟩
        rw [atMarker_iff.mpr ⟨_, hp.choose_spec.symm⟩] at hm
        cases hm
      · exact hs hi
    · obtain ⟨cs', e⟩ := atMarker_iff.mp hm
      rw [e, skipBlockComment_marker] at h
      cases h
      exact ⟨[], e, fun hi => absurd hi.length_le (by decide)⟩

/-- The end of the text. -/
lemma Streams.end : Streams ⟨[], []⟩ [] := .eof next_end

/-- White space that has been read does not change the other tokens. -/
lemma Streams.absorb (h : Streams ⟨[], cs⟩ ts) (hp : Proper ts) :
    ∃ ts', Streams ⟨[], cs.dropWhile isWhitespace⟩ ts' ∧ strip ts' = strip ts ∧ Proper ts' := by
  cases cs with
  | nil => exact ⟨ts, h, rfl, hp⟩
  | cons c cs =>
    by_cases hc : isWhitespace c = true
    · rw [List.dropWhile_cons_of_pos hc]
      cases h with
      | eof h => cases h.unique (next_space hc)
      | token h hs =>
        cases h.unique (next_space hc)
        exact ⟨_, hs, rfl, fun t ht => hp t (List.mem_cons_of_mem _ ht)⟩
    · rw [List.dropWhile_cons_of_neg hc]
      exact ⟨ts, h, rfl, hp⟩

/-- The calls on a text with tokens return them, with white space between them. -/
lemma streams_of_lexes (h : Lexes text ts) : ∃ ts', Streams ⟨[], text⟩ ts' ∧ strip ts' = ts ∧ Proper ts' := by
  induction h with
  | nil => exact ⟨[], .end, rfl, fun _ h => absurd h List.not_mem_nil⟩
  | whitespace hc _ ih =>
    obtain ⟨ts', hs, rfl, hp⟩ := ih
    obtain ⟨ts1, hs1, he, hp1⟩ := hs.absorb hp
    refine ⟨_, .token (next_space hc) hs1, he, List.forall_mem_cons.mpr ⟨⟨?_, TokenType.noConfusion⟩, hp1⟩⟩
    rw [List.takeWhile_cons_of_pos hc]
    exact List.cons_ne_nil _ _
  | line hm hn _ ih =>
    obtain ⟨ts', hs, rfl, hp⟩ := ih
    obtain ⟨ts1, hs1, he, hp1⟩ := hs.absorb hp
    exact ⟨_, .token (next_line hm hn) hs1, he,
      List.forall_mem_cons.mpr ⟨⟨List.cons_ne_nil _ _, TokenType.noConfusion⟩, hp1⟩⟩
  | block hm _ ih =>
    obtain ⟨ts', hs, he, hp⟩ := ih
    cases hs with
    | eof h => exact ⟨[], .eof (next_block (skipBlockComment_append hm) h), he, hp⟩
    | token h hs => exact ⟨_, .token (next_block (skipBlockComment_append hm) h) hs, he, hp⟩
  | @token t cs ts ht _ ih =>
    obtain ⟨ts', hs, rfl, hp⟩ := ih
    obtain ⟨c, s, e, hw, hne, hstart⟩ := startToken_isToken ht
    have hnext := @next_token (s ++ cs) c hw hne
    rw [hstart, ← List.cons_append, ← e] at hnext
    have hstrip : strip (t :: ts') = t :: strip ts' :=
      List.filter_cons_of_pos (bne_iff_ne.mpr ht.type_ne.1)
    refine ⟨_, .token hnext hs, hstrip, List.forall_mem_cons.mpr ⟨⟨?_, ht.type_ne.2⟩, hp⟩⟩
    rw [e]
    exact List.cons_ne_nil _ _

/-- Every call on such a text returns. -/
lemma Streams.ends (h : Streams lx ts) : lx.next.Ends := by
  cases h with
  | eof h => exact h.ends
  | token h _ => exact h.ends

/-- The tokens go on behind a call. -/
lemma Streams.called (h : Streams lx ts) (hc : Called lx lx') : ∃ ts', Streams lx' ts' := by
  obtain ⟨t, hc⟩ := hc
  cases h with
  | eof h =>
    cases h.unique (show lx.next.Leads (some (t, lx')) from hc)
    exact ⟨[], .end⟩
  | token h hs =>
    cases h.unique (show lx.next.Leads (some (t, lx')) from hc)
    exact ⟨_, hs⟩

/-- Each call of the lexer ends. -/
lemma Streams.run (h : Streams lx ts) (hc : Relation.ReflTransGen Called lx lx') : lx'.next.Ends := by
  have hs : ∃ ts', Streams lx' ts' := by
    induction hc with
    | refl => exact ⟨ts, h⟩
    | tail _ hc ih =>
      obtain ⟨ts', hs⟩ := ih
      exact hs.called hc
  obtain ⟨ts', hs⟩ := hs
  exact hs.ends

/-- White space before a text. -/
lemma lexes_space (h : Lexes (cs.dropWhile isWhitespace) ts) : Lexes cs ts := by
  induction cs with
  | nil => exact h
  | cons c cs ih =>
    by_cases hc : isWhitespace c = true
    · rw [List.dropWhile_cons_of_pos hc] at h
      exact .whitespace hc (ih h)
    · rw [List.dropWhile_cons_of_neg hc] at h
      exact h

/-- Every call from a lexer on returns. -/
def Answers (lx : Lexer) : Prop := ∀ lx', Relation.ReflTransGen Called lx lx' → lx'.next.Ends

/-- The lexer answers behind a call. -/
lemma Answers.next (h : Answers lx) (hl : lx.next.Leads (some (t, lx'))) : Answers lx' :=
  fun _ hc => h _ (.head ⟨t, hl⟩ hc)

/-- The calls after a block comment. -/
lemma Answers.block (h : Answers ⟨[], marker ++ cs⟩) (hb : Thi.skipBlockComment cs = .ok rest) :
    Answers ⟨[], rest⟩ := by
  intro lx' hc
  rcases hc.cases_head with rfl | ⟨lx1, ⟨t, ht⟩, hc⟩
  · by_contra hn
    have hforever : (Lexer.mk [] rest).next.Leads none := by
      intro fuel
      rcases hr : (Lexer.mk [] rest).next.run fuel with _ | r
      · rfl
      · exact absurd ⟨r, fuel, hr⟩ hn
    exact (next_block hb hforever).not_ends (h _ .refl)
  · have hl : (Lexer.mk [] rest).next.Leads (some (t, lx1)) := ht
    exact h.next (next_block hb hl) lx' hc

/-- A token that the branches of `Lexer:next` read, and the tokens after it. -/
lemma lexes_token (hw : isWhitespace c = false) (hne : c ≠ '#') (h : Lexes (startToken c cs).2 ts) :
    Lexes (c :: cs) ((startToken c cs).1 :: ts) := by
  obtain ⟨he, ht⟩ := @isToken_startToken c cs hw hne
  rw [he]
  exact .token ht h

/-- If every call on a text returns, it has tokens. -/
lemma lexes_of_answers (h : Answers ⟨[], text⟩) : ∃ ts, Lexes text ts := by
  induction hn : text.length using Nat.strong_induction_on generalizing text with
  | _ n ih =>
    cases text with
    | nil => exact ⟨[], .nil⟩
    | cons c cs =>
      by_cases hw : isWhitespace c = true
      · have hlt := List.length_dropWhile_le isWhitespace cs
        obtain ⟨ts, hts⟩ := ih _ (by rw [List.length_cons] at hn; omega) (h.next (next_space hw)) rfl
        exact ⟨ts, .whitespace hw (lexes_space hts)⟩
      have hw := eq_false_of_ne_true hw
      by_cases hne : c = '#'
      · cases hne
        by_cases hm : ['#', '#'] <+: cs
        · obtain ⟨cs', rfl⟩ := hm
          rcases hb : Thi.skipBlockComment cs' with e | rest
          · exact absurd (h _ .refl) (next_block_forever hb).not_ends
          · obtain ⟨s, rfl, hs⟩ := skipBlockComment_inv hb
            have hlt : rest.length < n := by
              rw [← hn]
              simp [marker]
              omega
            obtain ⟨ts, hts⟩ := ih _ hlt (h.block hb) rfl
            exact ⟨ts, .block hs hts⟩
        · by_cases hnl : '\n' ∈ cs
          · obtain ⟨s, rest, rfl, hs⟩ := List.eq_append_cons_of_mem hnl
            have hm' : ¬ ['#', '#'] <+: s := fun hp => hm (hp.trans (List.prefix_append _ _))
            have hlt : (rest.dropWhile isWhitespace).length < n := by
              have hle := List.length_dropWhile_le isWhitespace rest
              rw [← hn, List.length_cons, List.length_append, List.length_cons]
              omega
            obtain ⟨ts, hts⟩ := ih _ hlt (h.next (next_line hm' hs)) rfl
            exact ⟨ts, .line hm' hs (lexes_space hts)⟩
          · exact absurd (h _ .refl) (next_line_forever hm hnl).not_ends
      · have hlt : (startToken c cs).2.length < n := by
          rw [← hn, List.length_cons]
          exact Nat.lt_succ_of_le startToken_spec.1.length_le
        obtain ⟨ts, hts⟩ := ih _ hlt (h.next (next_token hw hne)) rfl
        exact ⟨_, lexes_token hw hne hts⟩

/-- Every call on a text returns if and only if the text has tokens. -/
lemma answers_iff : Answers (.new text) ↔ ∃ ts, Lexes text ts := by
  constructor
  · exact lexes_of_answers
  · rintro ⟨ts, h⟩ lx' hc
    obtain ⟨ts', hs, _⟩ := streams_of_lexes h
    exact hs.run hc

end Thorium.Thi.Generator
