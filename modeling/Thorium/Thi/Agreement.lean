import Thorium.Thi.Ending

/-!
# The generator and its stages

`Thi.Lexer` and `Thi.Parser` take a file apart in stages, first all tokens, then all directives, and then the
instructions, where the source does it in one pass. `parse_agrees`: where the text has tokens, `Parser:parse` returns
what the stages return, and nothing where one of them fails.
-/

namespace Thorium.Thi.Generator
open Thorium.Isa

/-! ### Tokens -/

/-- `lex` without its loop. -/
lemma lex_cons {c : Char} {cs : List Char} {ts : List Token} (h : lex (c :: cs) = .ok ts) :
    ∃ o rest ts', nextToken (c :: cs) = .ok (o, rest) ∧ lex rest = .ok ts' ∧ ts = o.toList ++ ts' := by
  obtain ⟨⟨os, last⟩, hl, h⟩ := bind_ok h
  cases h
  rw [loop_while nextToken_consumes] at hl
  obtain ⟨⟨o, rest⟩, ht, hl⟩ := bind_ok hl
  obtain ⟨⟨os', last'⟩, hl', h⟩ := bind_ok hl
  cases h
  refine ⟨o, rest, os'.filterMap id, ht, ?_, ?_⟩
  · rw [lex, hl']
    rfl
  · cases o with
    | none => rfl
    | some t => rfl

/-- A comment is one in a block, or goes up to the next line. -/
lemma comment_inv {cs rest : List Char} {o : Option Token} (h : comment cs = .ok (o, rest)) :
    (o = none ∧ ∃ cs', cs = '#' :: '#' :: cs' ∧ Thi.skipBlockComment cs' = .ok rest) ∨
      ¬ ['#', '#'] <+: cs ∧ ∃ s cs', cs = s ++ '\n' :: cs' ∧ '\n' ∉ s ∧
        o = some ⟨.whitespace, '#' :: s ++ ('\n' :: cs').takeWhile isWhitespace⟩ ∧
        rest = cs'.dropWhile isWhitespace := by
  unfold comment at h
  split at h
  · next cs' =>
    obtain ⟨rest', hb, h⟩ := bind_ok h
    cases h
    exact .inl ⟨rfl, cs', rfl, hb⟩
  next hno =>
  dsimp only at h
  split at h
  · cases h
  next hne =>
  have hmem : '\n' ∈ cs := by
    by_contra hn
    refine hne ?_
    rw [List.isEmpty_iff, List.dropWhile_eq_nil_iff]
    intro c hc
    rw [bne_iff_ne]
    rintro rfl
    exact hn hc
  obtain ⟨s, cs', rfl, hs⟩ := List.eq_append_cons_of_mem hmem
  have hall : ∀ c ∈ s, (c != '\n') = true := by
    intro c hc
    rw [bne_iff_ne]
    rintro rfl
    exact hs hc
  rw [List.dropWhile_append_of_pos hall, List.takeWhile_append_of_pos hall, List.dropWhile_cons_of_neg (by decide),
    List.takeWhile_cons_of_neg (by decide), List.append_nil] at h
  cases h
  refine .inr ⟨?_, s, cs', rfl, hs, rfl, rfl⟩
  rintro ⟨us, he⟩
  exact hno us he.symm

/-- What `lex` returns are the tokens of the calls of the lexer. -/
lemma streams_of_lex {text : List Char} {ts : List Token} (h : lex text = .ok ts) :
    Streams ⟨[], text⟩ ts ∧ Proper ts := by
  induction hn : text.length using Nat.strong_induction_on generalizing text ts with
  | _ n ih =>
  subst hn
  cases text with
  | nil =>
    cases h
    exact ⟨.end, fun _ ht => absurd ht List.not_mem_nil⟩
  | cons c cs =>
    obtain ⟨o, rest, ts', ht, hl, rfl⟩ := lex_cons h
    have hlt : rest.length < (c :: cs).length := (nextToken_consumes rfl ht).2
    obtain ⟨hs, hp⟩ := ih _ hlt hl rfl
    rw [nextToken] at ht
    split at ht
    · next hw =>
      cases ht
      rw [List.dropWhile_cons_of_pos hw] at hs
      refine ⟨.token (next_space hw) hs, List.forall_mem_cons.mpr ⟨⟨?_, TokenType.noConfusion⟩, hp⟩⟩
      rw [List.takeWhile_cons_of_pos hw]
      exact List.cons_ne_nil _ _
    next hw =>
    split at ht
    · next hc =>
      cases eq_of_beq hc
      obtain ⟨rfl, cs', rfl, hb⟩ | ⟨hm, s, cs', rfl, hnl, rfl, rfl⟩ := comment_inv ht
      · refine ⟨?_, hp⟩
        cases hs with
        | eof hx => exact .eof (next_block hb hx)
        | token hx hs => exact .token (next_block hb hx) hs
      · have hm' : ¬ ['#', '#'] <+: s := fun h => hm (h.trans (List.prefix_append ..))
        exact ⟨.token (next_line hm' hnl) hs,
          List.forall_mem_cons.mpr ⟨⟨List.cons_ne_nil _ _, TokenType.noConfusion⟩, hp⟩⟩
    · next hc =>
      cases ht
      have hne : c ≠ '#' := fun e => hc (beq_iff_eq.mpr e)
      obtain ⟨he, ht⟩ := @isToken_startToken c cs (eq_false_of_ne_true hw) hne
      obtain ⟨d, s, hv, _⟩ := startToken_isToken ht
      refine ⟨.token (next_token (eq_false_of_ne_true hw) hne) hs, List.forall_mem_cons.mpr ⟨⟨?_, ht.type_ne.2⟩, hp⟩⟩
      rw [hv]
      exact List.cons_ne_nil _ _

/-! ### Stages -/

/-- The tokens ahead of a parser, but for white space before the first. -/
def Parser.Before (p : Parser) (ts : List Token) : Prop := ∃ ts', p.Ahead ts' ∧ Near ts' ts

/-- A process returns what there is with the next code and the tokens it leaves, and nothing where there is nothing. -/
inductive Agrees {α : Type} (x : ParserM α) (p : Parser) : Option (α × Nat × List Token) → Prop where
  | value {a p' ts} : x.Leads p (some (.ok (a, p'))) → p'.Before ts → Agrees x p (some (a, p'.nextCode, ts))
  | nothing {o} : x.Leads p o → (∀ r, o ≠ some (.ok r)) → Agrees x p none

variable {p p' : Parser} {ts : List Token} {type : TokenType} {k n : Nat} {nested : Bool} {i : Instruction}

section Agrees

variable {α β σ : Type} {x : ParserM α} {f : α → ParserM β} {body : σ → ParserM (σ ⊕ β)} {s : σ}

/-- What does not return does not go on. -/
lemma Agrees.stop {o : Option (Except String (α × Parser))} (h : x.Leads p o) (ho : ∀ r, o ≠ some (.ok r)) :
    Agrees (x >>= f) p none := by
  rcases o with _ | e | r
  · exact .nothing (Process.Leads.bind_none h) fun _ h => by cases h
  · exact .nothing (Process.Leads.bind_error h) fun _ h => by cases h
  · exact absurd rfl (ho r)

/-- A process that agrees after a first part that returns. -/
lemma Agrees.after {a : α} {r : Option (β × Nat × List Token)} (h : x.Leads p (some (.ok (a, p'))))
    (hf : Agrees (f a) p' r) : Agrees (x >>= f) p r := by
  cases hf with
  | value hl hb => exact .value (Process.Leads.bind h hl) hb
  | nothing hl ho => exact .nothing (Process.Leads.bind h hl) ho

/-- Processes one after the other, where both stages agree. -/
lemma Agrees.bind {r : Option (α × Nat × List Token)} {g : α × Nat × List Token → Option (β × Nat × List Token)}
    (h : Agrees x p r) (hf : ∀ {a p' ts}, p'.Before ts → Agrees (f a) p' (g (a, p'.nextCode, ts))) :
    Agrees (x >>= f) p (r.bind g) := by
  cases h with
  | value hl hb => exact .after hl (hf hb)
  | nothing hl ho => exact .stop hl ho

/-- A process whose result is changed, as that of its stage is. -/
lemma Agrees.map {g : α → β} {r : Option (α × Nat × List Token)} (h : Agrees x p r) :
    Agrees (g <$> x) p (r.map fun a => (g a.1, a.2)) := by
  cases h with
  | value hl hb => exact .value (Process.Leads.map hl) hb
  | nothing hl ho => exact Agrees.stop (f := fun a => Pure.pure (g a)) hl ho

/-- A round without a value. -/
lemma Agrees.abort (h : Agrees (body s) p none) : Agrees (Process.repeatUntil body s) p none := by
  cases h with
  | @nothing o hl ho =>
    rcases o with _ | e | r
    · exact .nothing (Process.Leads.stuck hl) fun _ h => by cases h
    · exact .nothing (Process.Leads.abort hl) fun _ h => by cases h
    · exact absurd rfl (ho r)

/-- A loop that ends with a round. -/
lemma Agrees.done {r : Option (β × Nat × List Token)} (h : Agrees (body s) p (r.map fun a => (.inr a.1, a.2))) :
    Agrees (Process.repeatUntil body s) p r := by
  rcases r with _ | ⟨b, n, ts⟩
  · exact .abort h
  · cases h with
    | value hl hb => exact .value (Process.Leads.done hl) hb

/-- A round that goes on. -/
lemma Agrees.round {s' : σ} {r : Option (β × Nat × List Token)} (h : (body s).Leads p (some (.ok (.inl s', p'))))
    (hf : Agrees (Process.repeatUntil body s') p' r) : Agrees (Process.repeatUntil body s) p r := by
  cases hf with
  | value hl hb => exact .value (Process.Leads.next h hl) hb
  | nothing hl ho => exact .nothing (Process.Leads.next h hl) ho

/-- A loop that goes on after a round. -/
lemma Agrees.next {r : Option (σ × Nat × List Token)} {g : σ × Nat × List Token → Option (β × Nat × List Token)}
    (h : Agrees (body s) p (r.map fun a => (.inl a.1, a.2)))
    (hf : ∀ {s' p' ts}, r = some (s', p'.nextCode, ts) → p'.Before ts →
      Agrees (Process.repeatUntil body s') p' (g (s', p'.nextCode, ts))) :
    Agrees (Process.repeatUntil body s) p (r.bind g) := by
  rcases r with _ | ⟨s', n, ts⟩
  · exact .abort h
  · cases h with
    | value hl hb => exact .round hl (hf rfl hb)

end Agrees

/-! ### Single tokens and pairs -/

section Tokens

variable {β : Type}

/-- A process that looks ahead first. -/
lemma Agrees.look {f : Token → ParserM β} {r : Option (β × Nat × List Token)} (h : p.Before ts)
    (hf : ∀ {t p'}, t.type = Thi.look (k + 1) ts → p'.Before ts → p'.nextCode = p.nextCode → Agrees (f t) p' r) :
    Agrees (Generator.look (k + 1) false >>= f) p r := by
  obtain ⟨ts', ha, hn⟩ := h
  obtain ⟨p', hg, hl⟩ := @look_leads p ts' k ha
  refine .after hl (hf ?_ ⟨ts', hg.ahead, hn⟩ hg.nextCode)
  rw [look_eq, hn.strip]

/-- A process that takes a token first, where the stage takes it or fails. -/
lemma Agrees.token {f : Token → ParserM β} {g : List Char × List Token → Option (β × Nat × List Token)}
    (h : p.Before ts) (htype : type ≠ .eof)
    (hf : ∀ {token p' ts'}, p'.Before ts' → p'.nextCode = p.nextCode → Agrees (f token) p' (g (token.value, ts'))) :
    Agrees (Generator.next (some type) false >>= f) p ((Thi.next type ts).toOption.bind g) := by
  obtain ⟨ts', ha, hn⟩ := h
  obtain ⟨p', hg, hl⟩ := @next_type p ts' type ha
  rw [next_drop htype, ← hn.tokenAt, ← hn.drop]
  split at hl
  · next he =>
    rw [if_pos he]
    exact .after hl (hf ⟨_, hg.ahead, rfl⟩ hg.nextCode)
  · next he =>
    rw [if_neg he]
    exact .stop hl fun _ h => by cases h

/-- A pair is read in the same way from tokens that stand at the same place. -/
lemma parsePair_near {ts' : List Token} (h : Near ts' ts) : Thi.parsePair ts' = Thi.parsePair ts := by
  have hn : Thi.next .lpar ts' = Thi.next .lpar ts := by
    rw [next_drop TokenType.noConfusion, next_drop TokenType.noConfusion, h.tokenAt, h.drop]
  rw [Thi.parsePair, Thi.parsePair, hn]

/-- A process that reads a pair first. -/
lemma Agrees.pair {f : Pair → ParserM β} {g : Pair × List Token → Option (β × Nat × List Token)} (h : p.Before ts)
    (hf : ∀ {pair p' ts'}, p'.Before ts' → p'.nextCode = p.nextCode → Agrees (f pair) p' (g (pair, ts'))) :
    Agrees (parsePair >>= f) p ((Thi.parsePair ts).toOption.bind g) := by
  obtain ⟨ts', ha, hn⟩ := h
  rw [← parsePair_near hn]
  have hfollows := parsePair_follows ha
  generalize Thi.parsePair ts' = r at hfollows ⊢
  cases hfollows with
  | ok hl hg hn => exact .after hl (hf ⟨_, hg.ahead, hn⟩ hg.nextCode)
  | error _ hl => exact .stop hl fun _ h => by cases h
  | endless hl => exact .stop hl fun _ h => by cases h

end Tokens

/-- The next code is not among the tokens. -/
lemma Parser.Before.setCode (h : p.Before ts) : Parser.Before { p with nextCode := n } ts := by
  obtain ⟨ts', ha, hn⟩ := h
  exact ⟨ts', ⟨ha.1, ha.2⟩, hn⟩

/-- The branch for a pair. -/
def pairStage (nested : Bool) (i : Instruction) (n : Nat) (ts : List Token) : Option (Instruction × Nat × List Token) :=
  (Thi.parsePair ts).toOption.bind fun r => (applyPair nested i n r.1).toOption.map fun o => (o.1, o.2, r.2)

/-- A pair of an instruction is applied as in the stage. -/
lemma pairBranch_agrees (h : p.Before ts) : Agrees (pairBranch nested i) p (pairStage nested i p.nextCode ts) := by
  refine .pair h fun {pair p' ts'} hb hn => ?_
  refine .after Process.leads_get ?_
  rw [← hn]
  cases ha : applyPair nested i p'.nextCode pair with
  | error e => exact .nothing Process.leads_throw fun _ h => by cases h
  | ok o => exact .after Process.leads_set (.value Process.leads_pure hb.setCode)

/-- The branch at the end of an instruction. -/
def closeStage (i : Instruction) (n : Nat) (ts : List Token) : Option (List Instruction × Nat × List Token) :=
  (Thi.next .rpar ts).toOption.bind fun r => some ((closeInstruction i n).1, (closeInstruction i n).2, r.2)

/-- The end of an instruction is as in the stage. -/
lemma closeBranch_agrees (h : p.Before ts) : Agrees (closeBranch i) p (closeStage i p.nextCode ts) := by
  refine .token h TokenType.noConfusion fun {_ p' ts'} hb hn => ?_
  refine .after Process.leads_get (.after Process.leads_set ?_)
  rw [← hn]
  exact .value Process.leads_pure hb.setCode

/-! ### Instructions -/

/-- A sequence returns where both of its parts do. -/
lemma toOption_bind {α β : Type} {x : Except String α} {f : α → Except String β} :
    (x >>= f).toOption = x.toOption.bind fun a => (f a).toOption := by
  cases x with
  | error e => rfl
  | ok a => rfl

/-- What has a value has returned it. -/
lemma ok_of_toOption {α : Type} {x : Except String α} {a : α} (h : x.toOption = some a) : x = .ok a := by
  cases x with
  | error e => cases h
  | ok b =>
    cases h
    rfl

/-- Pairs are applied one after the other. -/
lemma applyPairs_cons {pair : Pair} {pairs : List Pair} : (applyPairs nested i n (pair :: pairs)).toOption =
    (applyPair nested i n pair).toOption.bind fun o => (applyPairs nested o.1 o.2 pairs).toOption := by
  rw [applyPairs]
  exact toOption_bind

/-- The loop of a nested call: first its pairs, then what they make of the instruction. -/
def nestedStage (i : Instruction) (n : Nat) (ts : List Token) : Option (List Instruction × Nat × List Token) :=
  (loop atEnd Thi.parsePair ts).toOption.bind fun r =>
    (applyPairs true i n r.1).toOption.bind fun o => closeStage o.1 o.2 r.2

/-- The stage of a form ends at the end of the pairs. -/
lemma nestedStage_end (hend : atEnd ts = true) : nestedStage i n ts = closeStage i n ts := by
  rw [nestedStage, loops_while.2.1, if_pos hend]
  rfl

/-- The stage of a form goes on with a pair. -/
lemma nestedStage_pair (hend : ¬ atEnd ts = true) :
    nestedStage i n ts = (pairStage true i n ts).bind fun r => nestedStage r.1 r.2.1 r.2.2 := by
  rw [nestedStage, loops_while.2.1, if_neg hend, pairStage, toOption_bind, Option.bind_assoc, Option.bind_assoc]
  refine congrArg _ (funext fun r => ?_)
  rw [toOption_bind, Option.bind_assoc, Option.bind_map]
  show ((loop atEnd Thi.parsePair r.2).toOption.bind fun rs => (applyPairs true i n (r.1 :: rs.1)).toOption.bind _) = _
  simp only [applyPairs_cons, Option.bind_assoc]
  exact Option.bind_comm ..

/-- A pair takes tokens. -/
lemma pairStage_length {r : Instruction × Nat × List Token} (hend : ¬ atEnd ts = true)
    (h : pairStage nested i n ts = some r) : r.2.2.length < ts.length := by
  obtain ⟨⟨pair, ts1⟩, hp, h⟩ := Option.bind_eq_some_iff.mp h
  obtain ⟨o, _, rfl⟩ := Option.map_eq_some_iff.mp h
  exact (parsePair_consumes (eq_false_of_ne_true hend) (ok_of_toOption hp)).2

/-- The pairs end where no parenthesis opens. -/
lemma atEnd_iff : atEnd ts = true ↔ Thi.look 1 ts ≠ .lpar := bne_iff_ne

/-- A form is read as in its stage. -/
lemma nested_agrees (h : p.Before ts) :
    Agrees (Process.repeatUntil nestedRound i) p (nestedStage i p.nextCode ts) := by
  induction hlen : ts.length using Nat.strong_induction_on generalizing p ts i with
  | _ n ih =>
  subst hlen
  by_cases hend : atEnd ts = true
  · rw [nestedStage_end hend]
    refine .done (.look h fun {t p'} ht hb hn => ?_)
    rw [if_neg (by rw [ht]; exact atEnd_iff.mp hend), ← hn]
    exact .map (closeBranch_agrees hb)
  · rw [nestedStage_pair hend]
    refine .next (.look h fun {t p'} ht hb hn => ?_) fun {j p' ts'} hr hb => ih _ (pairStage_length hend hr) hb rfl
    rw [if_pos (by rw [ht]; exact of_not_not fun hne => hend (atEnd_iff.mpr hne)), ← hn]
    exact .map (pairBranch_agrees hb)

/-- The branch for a form. -/
def formStage (s : Instruction × List Instruction) (n : Nat) (ts : List Token) :
    Option ((Instruction × List Instruction) × Nat × List Token) :=
  let i := { s.1 with abstract := true }
  (Thi.next .lpar ts).toOption.bind fun r =>
    (nestedStage { i with code := none } n r.2).bind fun o => o.1.head?.map fun form => ((i, s.2 ++ [form]), o.2)

/-- A branch of an instruction with its arguments is as in its stage. -/
lemma formBranch_agrees {s : Instruction × List Instruction} (h : p.Before ts) :
    Agrees (formBranch s.1 s.2) p (formStage s p.nextCode ts) := by
  refine .token h TokenType.noConfusion fun {_ p' ts'} hb hn => ?_
  rw [← hn]
  refine .bind (nested_agrees hb) fun {forms p2 ts2} hb => ?_
  cases forms with
  | nil => exact .nothing Process.leads_throw fun _ h => by cases h
  | cons form forms => exact .value Process.leads_pure hb

/-- The branches of `parseInstruction` on a part of the instruction. -/
def clauseStage (s : Instruction × List Instruction) (n : Nat) (ts : List Token) :
    Option ((Instruction × List Instruction) × Nat × List Token) :=
  if Thi.look 2 ts = .lpar then formStage s n ts
  else (pairStage false s.1 n ts).bind fun r => some ((r.1, s.2), r.2)

/-- A round of an instruction is as in the stage of a clause. -/
lemma instructionRound_agrees {s : Instruction × List Instruction} (hend : ¬ atEnd ts = true) (h : p.Before ts) :
    Agrees (instructionRound s) p ((clauseStage s p.nextCode ts).map fun r => (.inl r.1, r.2)) := by
  refine .look h fun {t p1} ht hb hn => ?_
  rw [if_pos (by rw [ht]; exact of_not_not fun hne => hend (atEnd_iff.mpr hne)), ← hn]
  refine .look hb fun {t' p2} ht hb hn => ?_
  rw [← hn, ht, clauseStage]
  split
  · exact .map (formBranch_agrees hb)
  · rw [Option.map_bind]
    exact .bind (pairBranch_agrees hb) fun hb => .value Process.leads_pure hb

/-- The loop of `parseInstruction`: first the parts of the instruction, then what they make. -/
def bodyStage (s : Instruction × List Instruction) (n : Nat) (ts : List Token) :
    Option (List Instruction × Nat × List Token) :=
  (loop atEnd parseClause ts).toOption.bind fun r =>
    (Thi.next .rpar r.2).toOption.bind fun u =>
      (parseClauses s.1 n s.2 r.1).toOption.map fun o => (o.1, o.2, u.2)

/-- The stage of an instruction ends at the end of the clauses. -/
lemma bodyStage_end {s : Instruction × List Instruction} (hend : atEnd ts = true) :
    bodyStage s n ts = (closeStage s.1 n ts).map fun r => (s.2 ++ r.1, r.2) := by
  rw [bodyStage, loops_while.2.2.1, if_pos hend, closeStage, Option.map_bind]
  rfl

/-- What a part of the instruction makes of it. -/
def clauseEffect (s : Instruction × List Instruction) (n : Nat) :
    Clause → Option ((Instruction × List Instruction) × Nat)
  | .pair pair => (applyPair false s.1 n pair).toOption.map fun o => ((o.1, s.2), o.2)
  | .nested pairs =>
    let i := { s.1 with abstract := true }
    (Isa.parseNested i n pairs).toOption.map fun o => ((i, s.2 ++ [o.1]), o.2)

/-- Clauses have their effects one after the other. -/
lemma parseClauses_cons {s : Instruction × List Instruction} {c : Clause} {cs : List Clause} :
    (parseClauses s.1 n s.2 (c :: cs)).toOption =
      (clauseEffect s n c).bind fun r => (parseClauses r.1.1 r.2 r.1.2 cs).toOption := by
  cases c with
  | pair pair =>
    rw [parseClauses, clauseEffect, toOption_bind, Option.bind_map]
    rfl
  | nested pairs =>
    rw [parseClauses, clauseEffect, toOption_bind, Option.bind_map]
    rfl

/-- The effect of a part may be taken before the others are parsed. -/
lemma bodyStage_cons {s : Instruction × List Instruction} (hend : ¬ atEnd ts = true) :
    bodyStage s n ts = (parseClause ts).toOption.bind fun r =>
      (clauseEffect s n r.1).bind fun t => bodyStage t.1 t.2 r.2 := by
  rw [bodyStage, loops_while.2.2.1, if_neg hend, toOption_bind, Option.bind_assoc]
  refine congrArg _ (funext fun r => ?_)
  rw [toOption_bind, Option.bind_assoc]
  show ((loop atEnd parseClause r.2).toOption.bind fun rs => (Thi.next .rpar rs.2).toOption.bind fun u =>
    (parseClauses s.1 n s.2 (r.1 :: rs.1)).toOption.map _) = _
  simp only [parseClauses_cons, Option.map_bind]
  exact (congrArg _ (funext fun rs => Option.bind_comm ..)).trans (Option.bind_comm ..)

/-- A form is its pairs in parentheses. -/
lemma parseForm_stages : (parseForm ts).toOption = (Thi.next .lpar ts).toOption.bind fun r1 =>
    (loop atEnd Thi.parsePair r1.2).toOption.bind fun r2 =>
      (Thi.next .rpar r2.2).toOption.map fun r3 => (.nested r2.1, r3.2) := by
  rw [parseForm, toOption_bind]
  refine congrArg _ (funext fun r1 => ?_)
  refine toOption_bind.trans (congrArg _ (funext fun r2 => ?_))
  exact toOption_bind.trans Option.map_eq_bind.symm

/-- The pairs of a form are applied before it is closed. -/
lemma parseNested_stages {pairs : List Pair} : (Isa.parseNested i n pairs).toOption =
    (applyPairs true { i with code := none } n pairs).toOption.bind fun o =>
      (closeInstruction o.1 o.2).1.head?.map fun form => (form, (closeInstruction o.1 o.2).2) := by
  rw [Isa.parseNested, toOption_bind]
  refine congrArg _ (funext fun o => ?_)
  obtain ⟨j, m⟩ := o
  dsimp only
  rcases closeInstruction j m with ⟨_ | ⟨form, forms⟩, m'⟩
  · rfl
  · rfl

/-- A form is closed before or after its pairs are applied. -/
lemma formStage_eq {s : Instruction × List Instruction} : formStage s n ts =
    (parseForm ts).toOption.bind fun r => (clauseEffect s n r.1).map fun t => (t.1, t.2, r.2) := by
  rw [formStage, parseForm_stages, Option.bind_assoc]
  refine congrArg _ (funext fun r1 => ?_)
  rw [nestedStage, Option.bind_assoc, Option.bind_assoc]
  refine congrArg _ (funext fun r2 => ?_)
  rw [Option.bind_assoc, Option.bind_map]
  show _ = (Thi.next .rpar r2.2).toOption.bind fun r3 => (clauseEffect s n (.nested r2.1)).map fun t => (t.1, t.2, r3.2)
  simp only [clauseEffect, parseNested_stages, closeStage, Option.map_bind, Option.bind_assoc]
  refine (Option.bind_comm ..).trans (congrArg _ (funext fun r3 => congrArg _ (funext fun o => ?_)))
  show (closeInstruction o.1 o.2).1.head?.map _ = (((closeInstruction o.1 o.2).1.head?.map _).map _).map _
  rw [Option.map_map, Option.map_map]
  rfl

/-- A part of the instruction may be applied when it is parsed. -/
lemma clauseStage_eq {s : Instruction × List Instruction} : clauseStage s n ts =
    (parseClause ts).toOption.bind fun r => (clauseEffect s n r.1).map fun t => (t.1, t.2, r.2) := by
  rw [clauseStage, parseClause]
  split
  · exact formStage_eq
  · rw [pairStage]
    cases Thi.parsePair ts with
    | error e => rfl
    | ok r =>
      show ((applyPair false s.1 n r.1).toOption.map _).bind _ = ((applyPair false s.1 n r.1).toOption.map _).map _
      cases applyPair false s.1 n r.1 with
      | error e => rfl
      | ok o => rfl

/-- A clause takes tokens. -/
lemma clauseStage_length {s : Instruction × List Instruction} {r : (Instruction × List Instruction) × Nat × List Token}
    (hend : ¬ atEnd ts = true) (h : clauseStage s n ts = some r) : r.2.2.length < ts.length := by
  rw [clauseStage_eq] at h
  obtain ⟨⟨c, ts1⟩, hc, h⟩ := Option.bind_eq_some_iff.mp h
  obtain ⟨t, _, rfl⟩ := Option.map_eq_some_iff.mp h
  exact (parseClause_consumes (eq_false_of_ne_true hend) (ok_of_toOption hc)).2

/-- The stage of an instruction goes on with a clause. -/
lemma bodyStage_clause {s : Instruction × List Instruction} (hend : ¬ atEnd ts = true) :
    bodyStage s n ts = (clauseStage s n ts).bind fun r => bodyStage r.1 r.2.1 r.2.2 := by
  rw [bodyStage_cons hend, clauseStage_eq, Option.bind_assoc]
  refine congrArg _ (funext fun r => ?_)
  rw [Option.bind_map]
  rfl

/-- An instruction is read as in its stage. -/
lemma instruction_agrees {s : Instruction × List Instruction} (h : p.Before ts) :
    Agrees (Process.repeatUntil instructionRound s) p (bodyStage s p.nextCode ts) := by
  induction hlen : ts.length using Nat.strong_induction_on generalizing p ts s with
  | _ n ih =>
  subst hlen
  by_cases hend : atEnd ts = true
  · rw [bodyStage_end hend]
    refine .done (.look h fun {t p'} ht hb hn => ?_)
    rw [if_neg (by rw [ht]; exact atEnd_iff.mp hend), ← hn, Option.map_map, Option.map_eq_bind]
    exact .bind (closeBranch_agrees hb) fun hb => .value Process.leads_pure hb
  · rw [bodyStage_clause hend]
    exact .next (instructionRound_agrees hend h) fun hr hb => ih _ (clauseStage_length hend hr) hb rfl

/-! ### Directives -/

/-- A directive, and then what its instruction makes. -/
def directiveStage (n : Nat) (ts : List Token) : Option (List Instruction × Nat × List Token) :=
  (Thi.parseDirective ts).toOption.bind fun r => r.1.elim (some ([], n, r.2)) fun d =>
    (Isa.parseInstruction n d).toOption.map fun o => (o.1, o.2, r.2)

/-- The parts of an instruction may be applied before it is closed. -/
lemma opStage_eq : ((parseOp ts).toOption.bind fun r =>
    (Isa.parseInstruction n r.1).toOption.map fun o => (o.1, o.2, r.2)) =
      (Thi.next .id ts).toOption.bind fun r => bodyStage ({ name := String.ofList r.1 }, []) n r.2 := by
  rw [parseOp, toOption_bind, Option.bind_assoc]
  refine congrArg _ (funext fun r1 => ?_)
  refine (congrArg (Option.bind · _) toOption_bind).trans ?_
  rw [Option.bind_assoc]
  refine congrArg _ (funext fun r2 => ?_)
  refine (congrArg (Option.bind · _) toOption_bind).trans ?_
  rw [Option.bind_assoc]
  rfl

/-- The stage of a directive, token by token. -/
lemma directiveStage_eq : directiveStage n ts = (Thi.next .lpar ts).toOption.bind fun r1 =>
    (Thi.next .keyword r1.2).toOption.bind fun r2 =>
      if String.ofList r2.1 = "op" then
        (Thi.next .id r2.2).toOption.bind fun r3 => bodyStage ({ name := String.ofList r3.1 }, []) n r3.2
      else (Thi.next .rpar r2.2).toOption.bind fun r3 => some ([], n, r3.2) := by
  rw [directiveStage, Thi.parseDirective, toOption_bind, Option.bind_assoc]
  refine congrArg _ (funext fun r1 => ?_)
  refine (congrArg (Option.bind · _) toOption_bind).trans ?_
  rw [Option.bind_assoc]
  refine congrArg _ (funext fun r2 => ?_)
  dsimp only
  split
  · rw [← opStage_eq, toOption_bind, Option.bind_assoc]
    rfl
  · rw [toOption_bind, Option.bind_assoc]
    rfl

/-- A directive is read as in its stage. -/
lemma parseDirective_agrees (h : p.Before ts) : Agrees parseDirective p (directiveStage p.nextCode ts) := by
  rw [directiveStage_eq]
  refine .token h TokenType.noConfusion fun {_ p1 ts1} hb hn1 => ?_
  refine .token hb TokenType.noConfusion fun {k p2 ts2} hb hn2 => ?_
  rw [← hn1, ← hn2]
  split
  · refine .token hb TokenType.noConfusion fun {t p3 ts3} hb hn3 => ?_
    rw [← hn3]
    exact instruction_agrees hb
  · refine .token hb TokenType.noConfusion fun {t p3 ts3} hb hn3 => ?_
    rw [← hn3]
    exact .value Process.leads_pure hb

/-! ### The file -/

/-- The loop of `Parser:parse`: first all directives, then their instructions. -/
def fileStage (n : Nat) (ts : List Token) : Option (List Instruction) :=
  (loop atEof Thi.parseDirective ts).toOption.bind fun r => (parseDirectives n (r.1.filterMap id)).toOption

/-- The stage of a file ends at the end of the tokens. -/
lemma fileStage_eof (heof : atEof ts = true) : fileStage n ts = some [] := by
  rw [fileStage, loops_while.2.2.2, if_pos heof]
  rfl

/-- Directives give instructions one after the other, with the codes counted up. -/
lemma parseDirectives_cons {d : Directive} {ds : List Directive} : (parseDirectives n (d :: ds)).toOption =
    (Isa.parseInstruction n d).toOption.bind fun o => (parseDirectives o.2 ds).toOption.map fun is => o.1 ++ is := by
  rw [parseDirectives, toOption_bind]
  refine congrArg _ (funext fun o => ?_)
  exact toOption_bind.trans Option.map_eq_bind.symm

/-- The stage of a file goes on with a directive. -/
lemma fileStage_directive (heof : ¬ atEof ts = true) : fileStage n ts =
    (directiveStage n ts).bind fun r => (fileStage r.2.1 r.2.2).map fun is => r.1 ++ is := by
  rw [fileStage, loops_while.2.2.2, if_neg heof, directiveStage, toOption_bind, Option.bind_assoc, Option.bind_assoc]
  refine congrArg _ (funext fun r => ?_)
  rw [toOption_bind, Option.bind_assoc]
  obtain ⟨d, ts1⟩ := r
  cases d with
  | none =>
    show _ = (fileStage n ts1).map id
    rw [Option.map_id]
    rfl
  | some d =>
    show ((loop atEof Thi.parseDirective ts1).toOption.bind fun rs =>
      (parseDirectives n (d :: rs.1.filterMap id)).toOption) = ((Isa.parseInstruction n d).toOption.map _).bind _
    simp only [parseDirectives_cons]
    rw [Option.bind_comm, Option.bind_map]
    refine congrArg _ (funext fun o => ?_)
    show _ = (fileStage o.2 ts1).map _
    rw [fileStage, Option.map_bind]
    rfl

/-- The end of the tokens is the next token. -/
lemma atEof_iff : atEof ts = true ↔ Thi.look 1 ts = .eof := beq_iff_eq

variable {is : List Instruction}

/-- A directive takes tokens. -/
lemma directiveStage_length {r : List Instruction × Nat × List Token} (heof : ¬ atEof ts = true)
    (h : directiveStage n ts = some r) : r.2.2.length < ts.length := by
  obtain ⟨⟨d, ts1⟩, hd, h⟩ := Option.bind_eq_some_iff.mp h
  have hlt := (parseDirective_consumes (eq_false_of_ne_true heof) (ok_of_toOption hd)).2
  cases d with
  | none =>
    cases h
    exact hlt
  | some d =>
    obtain ⟨o, _, rfl⟩ := Option.map_eq_some_iff.mp h
    exact hlt

/-- A round of the file is as in the stage of a directive. -/
lemma parseRound_agrees (heof : ¬ atEof ts = true) (h : p.Before ts) : Agrees (parseRound is) p
    ((directiveStage p.nextCode ts).map fun r => (.inl (is ++ r.1), r.2)) := by
  refine .look h fun {t p'} ht hb hn => ?_
  rw [if_neg (by rw [ht]; exact fun e => heof (atEof_iff.mpr e)), ← hn]
  by_cases hl : t.type = .lpar
  · rw [if_pos hl, Option.map_eq_bind]
    exact .bind (parseDirective_agrees hb) fun hb => .value Process.leads_pure hb
  · have hnone : directiveStage p'.nextCode ts = none := by
      rw [directiveStage_eq, next_drop TokenType.noConfusion, ← strip_drop.1,
        if_neg (by rw [← look_eq, ← ht]; exact hl)]
      rfl
    rw [if_neg hl, hnone]
    exact .nothing Process.leads_throw fun _ h => by cases h

/-- `Parser:parse` from any place of a file on. -/
lemma parse_stage (h : p.Before ts) : ∃ r, Agrees (Process.repeatUntil parseRound is) p r ∧
    r.map Prod.fst = (fileStage p.nextCode ts).map fun is' => is ++ is' := by
  induction hlen : ts.length using Nat.strong_induction_on generalizing p ts is with
  | _ n ih =>
  subst hlen
  by_cases heof : atEof ts = true
  · refine ⟨some (is, p.nextCode, ts), .done (.look h fun {t p'} ht hb hn => ?_), ?_⟩
    · rw [if_pos (by rw [ht]; exact atEof_iff.mp heof), ← hn]
      exact .value Process.leads_pure hb
    · rw [fileStage_eof heof]
      exact congrArg some (List.append_nil is).symm
  have hround := @parseRound_agrees p ts is heof h
  rw [fileStage_directive heof]
  cases hd : directiveStage p.nextCode ts with
  | none =>
    rw [hd] at hround
    exact ⟨none, .abort hround, rfl⟩
  | some r =>
    obtain ⟨out, m, ts1⟩ := r
    have hlt := directiveStage_length heof hd
    rw [hd] at hround
    cases hround with
    | @value _ p1 _ hl hb =>
      obtain ⟨r, hr, he⟩ := ih _ hlt hb rfl
      refine ⟨r, .round hl hr, ?_⟩
      rw [he]
      show _ = ((fileStage p1.nextCode ts1).map _).map _
      rw [Option.map_map]
      exact congrArg (Option.map · _) (funext fun is' => List.append_assoc is out is')

/-- The stage of a file is its directives with their instructions. -/
lemma fileStage_iff : fileStage n ts = some is ↔ ∃ ds, Thi.parse ts = .ok ds ∧ parseDirectives n ds = .ok is := by
  constructor
  · intro h
    obtain ⟨⟨os, rest⟩, hl, h⟩ := Option.bind_eq_some_iff.mp h
    refine ⟨os.filterMap id, ?_, ok_of_toOption h⟩
    rw [Thi.parse, ok_of_toOption hl]
    rfl
  · rintro ⟨ds, hp, hd⟩
    obtain ⟨⟨os, rest⟩, hl, hp⟩ := bind_ok hp
    cases hp
    rw [fileStage, hl]
    show (parseDirectives n _).toOption = _
    rw [hd]
    rfl

/-- **Stages**: on a text with tokens, `Parser:parse` returns what the parser and the rest make of them, and if one of
them fails it does not return. -/
theorem parse_agrees {text : List Char} (h : lex text = .ok ts) :
    (∃ p, Fueled.Returns (parse (.new text)) (.ok (is, p))) ↔
      ∃ ds, Thi.parse ts = .ok ds ∧ parseDirectives 0 ds = .ok is := by
  obtain ⟨hs, hp⟩ := streams_of_lex h
  obtain ⟨r, hr, he⟩ := @parse_stage (.new text) ts [] ⟨ts, ⟨.nil hs, hp⟩, rfl⟩
  rw [← fileStage_iff]
  have hmap : r.map Prod.fst = fileStage 0 ts := he.trans Option.map_id'
  rw [← hmap]
  constructor
  · rintro ⟨p, hret⟩
    have hret : Process.Leads parse (.new text) (some (.ok (is, p))) := hret
    cases hr with
    | value hl _ =>
      cases Fueled.Leads.unique hl hret
      rfl
    | nothing hl ho => exact absurd (Fueled.Leads.unique hl hret) (ho _)
  · intro hr'
    cases hr with
    | @value _ p _ hl _ =>
      cases hr'
      exact ⟨p, hl⟩
    | nothing => cases hr'

/-- A file with a code for later forms. -/
theorem parse_agrees_mov : ∃ is p, is.map Instruction.opcode = [0, 4] ∧ Fueled.Returns
    (parse (.new "(op NOP) (op MOV (code 4) ((args r0,w0)))".toList)) (.ok (is, p)) := by
  have h : ((lex "(op NOP) (op MOV (code 4) ((args r0,w0)))".toList).toOption.bind (fileStage 0)).map
      (List.map Instruction.opcode) = some [0, 4] := by decide +kernel
  obtain ⟨is, his, hcodes⟩ := Option.map_eq_some_iff.mp h
  obtain ⟨ts, hts, hstage⟩ := Option.bind_eq_some_iff.mp his
  obtain ⟨p, hp⟩ := (parse_agrees (ok_of_toOption hts)).mpr (fileStage_iff.mp hstage)
  exact ⟨is, p, hcodes, hp⟩

end Thorium.Thi.Generator
