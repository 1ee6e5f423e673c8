import Thorium.Thi.Grammar

/-!
# Where the generator ends

`Unfinished` holds for the tokens of a file that stops in a text of an instruction, after directives that the parser
reads. What the parser does on other tokens is shown with `Comes`, function by function: it returns after tokens of
its part of the grammar, or it fails, or it does not end on unfinished ones. With what the lexer does on a text
(`answers_iff`), `ends_iff` says on which texts the generator ends.
-/

namespace Thorium.Thi.Generator
open Thorium.Isa

/-- Pairs with these keys. -/
inductive Pairs : List String → List Token → Prop where
  | nil : Pairs [] []
  | cons {key keys us vs} : IsPair key us → Pairs keys vs → Pairs (key :: keys) (us ++ vs)

/-- A part of an instruction: a pair other than its arguments, or a form with them among its pairs. -/
inductive IsClause : List Token → Prop where
  | pair {key ts} : key ≠ "args" → IsPair key ts → IsClause ts
  | form {l r keys us} : l.type = .lpar → Pairs keys us → "args" ∈ keys → r.type = .rpar →
      IsClause (l :: (us ++ [r]))

/-- The parts of an instruction. -/
inductive Clauses : List Token → Prop where
  | nil : Clauses []
  | cons {us vs} : IsClause us → Clauses vs → Clauses (us ++ vs)

/-- A pair or a form that stops in a text. -/
inductive OpenClause : List Token → Prop where
  | pair {ts} : OpenText ts → OpenClause ts
  | form {l keys us vs} : l.type = .lpar → Pairs keys us → OpenText vs → OpenClause (l :: (us ++ vs))

/-- A directive: an instruction, or another without anything. -/
inductive IsDirective : List Token → Prop where
  | op {l k n r us} : l.type = .lpar → k.type = .keyword → String.ofList k.value = "op" → n.type = .id →
      Clauses us → r.type = .rpar → IsDirective (l :: k :: n :: (us ++ [r]))
  | other {l k r} : l.type = .lpar → k.type = .keyword → String.ofList k.value ≠ "op" → r.type = .rpar →
      IsDirective [l, k, r]

/-- An instruction that stops in a text. -/
inductive OpenDirective : List Token → Prop where
  | intro {l k n us vs} : l.type = .lpar → k.type = .keyword → String.ofList k.value = "op" → n.type = .id →
      Clauses us → OpenClause vs → OpenDirective (l :: k :: n :: (us ++ vs))

/-- Directives of which the last stops in a text. -/
inductive Unfinished : List Token → Prop where
  | last {us} : OpenDirective us → Unfinished us
  | cons {us vs} : IsDirective us → Unfinished vs → Unfinished (us ++ vs)

/-- What a process comes to: a value after tokens of a kind, an error, or no end on tokens of another. -/
inductive Comes {α : Type} (x : ParserM α) (p : Parser) (ts : List Token) (P : α → List Token → Prop)
    (O : List Token → Prop) : Prop where
  | value {a p' ts' us} : x.Leads p (some (.ok (a, p'))) → p'.Ahead ts' → strip ts = us ++ strip ts' → P a us →
      Comes x p ts P O
  | error {e} : x.Leads p (some (.error e)) → Comes x p ts P O
  | forever : x.Leads p none → O (strip ts) → Comes x p ts P O

/-- A process that returns before the tokens `rest`. -/
def Reads {α : Type} (x : ParserM α) (p : Parser) (rest : List Token) (P : α → Prop) : Prop :=
  ∃ a p' ts', x.Leads p (some (.ok (a, p'))) ∧ p'.Ahead ts' ∧ strip ts' = rest ∧ P a

variable {p p' p1 : Parser} {ts ts' us vs rest : List Token} {t r l : Token} {type : TokenType} {key : String}
  {keys : List String} {i j : Instruction} {nested : Bool} {nextCode k : Nat} {pair : Pair} {o : Instruction × Nat}

section Comes

variable {α β σ : Type} {x : ParserM α} {f : α → ParserM β} {g : α → β} {P : α → List Token → Prop}
  {Q : β → List Token → Prop} {O O' : List Token → Prop} {body : σ → ParserM (σ ⊕ β)} {s : σ}
  {R : σ ⊕ β → List Token → Prop}

/-- Processes one after the other. -/
lemma Comes.bind (h : Comes x p ts P O) (ho : ∀ us, O us → O' us)
    (hf : ∀ {a p' ts' us}, p'.Ahead ts' → P a us →
      Comes (f a) p' ts' (fun b vs => Q b (us ++ vs)) (fun vs => O' (us ++ vs))) :
    Comes (x >>= f) p ts Q O' := by
  cases h with
  | value hl ha hs hp =>
    cases hf ha hp with
    | value hl' ha' hs' hq =>
      exact .value (Process.Leads.bind hl hl') ha' (by rw [hs, hs', List.append_assoc]) hq
    | error hl' => exact .error (Process.Leads.bind hl hl')
    | forever hl' ho' => exact .forever (Process.Leads.bind hl hl') (by rw [hs]; exact ho')
  | error hl => exact .error (Process.Leads.bind_error hl)
  | forever hl ho' => exact .forever (Process.Leads.bind_none hl) (ho _ ho')

/-- A round of a loop, and the rounds after it. -/
lemma Comes.loop (h : Comes (body s) p ts R O) (ho : ∀ us, O us → O' us) (hdone : ∀ {b us}, R (.inr b) us → Q b us)
    (hnext : ∀ {s' p' ts' us}, p'.Ahead ts' → strip ts = us ++ strip ts' → R (.inl s') us →
      Comes (Process.repeatUntil body s') p' ts' (fun b vs => Q b (us ++ vs)) (fun vs => O' (us ++ vs))) :
    Comes (Process.repeatUntil body s) p ts Q O' := by
  cases h with
  | @value a p' ts' us hl ha hs hr =>
    cases a with
    | inr b => exact .value (Process.Leads.done hl) ha hs (hdone hr)
    | inl s' =>
      cases hnext ha hs hr with
      | value hl' ha' hs' hq =>
        exact .value (Process.Leads.next hl hl') ha' (by rw [hs, hs', List.append_assoc]) hq
      | error hl' => exact .error (Process.Leads.next hl hl')
      | forever hl' ho' => exact .forever (Process.Leads.next hl hl') (by rw [hs]; exact ho')
  | error hl => exact .error (Process.Leads.abort hl)
  | forever hl ho' => exact .forever (Process.Leads.stuck hl) (ho _ ho')

/-- A process whose result is changed. -/
lemma Comes.map (h : Comes x p ts (fun a us => Q (g a) us) O) : Comes (g <$> x) p ts Q O := by
  cases h with
  | value hl ha hs hp => exact .value (Process.Leads.map hl) ha hs hp
  | error hl => exact .error (Process.Leads.map_error hl)
  | forever hl ho => exact .forever (Process.Leads.map_none hl) ho

/-- What a process comes to may be said more loosely. -/
lemma Comes.imp {P' : α → List Token → Prop} (h : Comes x p ts P O) (hp : ∀ {a us}, P a us → P' a us)
    (ho : ∀ {us}, O us → O' us) : Comes x p ts P' O' := by
  cases h with
  | value hl ha hs hv => exact .value hl ha hs (hp hv)
  | error hl => exact .error hl
  | forever hl hu => exact .forever hl (ho hu)

/-- A process that returns at once has read nothing. -/
lemma Comes.pure {b : β} (h : p.Ahead ts) (hq : Q b []) : Comes (pure b) p ts Q O :=
  .value Process.leads_pure h rfl hq

/-- A process that fails. -/
lemma Comes.throw {e : String} : Comes (throw e : ParserM α) p ts P O := .error Process.leads_throw

/-- A process that looks ahead first. -/
lemma Comes.look {f : Token → ParserM β} (h : p.Ahead ts)
    (hf : ∀ {p'}, p'.Ahead ts → Comes (f (tokenAt (strip ts) k)) p' ts Q O) :
    Comes (look (k + 1) false >>= f) p ts Q O := by
  obtain ⟨p1, hg, hl⟩ := @look_leads p ts k h
  cases hf hg.ahead with
  | value hl' ha hs hp => exact .value (Process.Leads.bind hl hl') ha hs hp
  | error hl' => exact .error (Process.Leads.bind hl hl')
  | forever hl' ho => exact .forever (Process.Leads.bind hl hl') ho

end Comes

/-- `next` takes a token of its type or fails. -/
lemma next_comes {O : List Token → Prop} (htype : type ≠ .eof) (h : p.Ahead ts) :
    Comes (next (some type) false) p ts (fun t us => us = [t] ∧ t.type = type) O := by
  obtain ⟨p', hg, hl⟩ := @next_type p ts type h
  split at hl
  · next ht => exact .value hl hg.ahead (strip_first (by rw [ht]; exact htype)) ⟨rfl, ht⟩
  · exact .error hl

/-- The next token is read if it has the type. -/
lemma next_reads (h : p.Ahead ts) (hs : strip ts = t :: rest) (ht : t.type = type) :
    Reads (next (some type) false) p rest (· = t) := by
  obtain ⟨p', hg, hl⟩ := @next_type p ts type h
  obtain ⟨hfirst, hrest⟩ := tokenAt_strip hs
  rw [hfirst, if_pos ht] at hl
  exact ⟨t, p', _, hl, hg.ahead, hrest, rfl⟩

/-- Tokens at the same place are the same after the blanks. -/
lemma Near.strip (h : Near ts ts') : strip ts = strip ts' := by
  have hdrop : ∀ ts : List Token, Generator.strip ts = Generator.strip (ts.drop (spaces ts)) := by
    intro ts
    induction ts with
    | nil => rfl
    | cons t ts ih =>
      by_cases hw : t.type = .whitespace
      · rw [strip_space hw, spaces_space hw]
        exact ih
      · rw [spaces_cons hw]
        rfl
  rw [hdrop ts, hdrop ts', h]

/-- A pair is read, or there is no end within a text of it. -/
lemma parsePair_comes (h : p.Ahead ts) : Comes parsePair p ts
    (fun pair us => ∃ key, IsPair key us ∧ ((∃ as, pair = .args as) ↔ key = "args")) OpenText := by
  have hf := parsePair_follows h
  generalize hr : Thi.parsePair ts = r at hf
  cases hf with
  | ok hl hg hn =>
    obtain ⟨key, us, hs, hp, hargs⟩ := parsePair_inv hr
    exact .value hl hg.ahead (by rw [hs, hn.strip]) ⟨key, hp, hargs⟩
  | error _ hl => exact .error hl
  | endless hl => exact .forever hl (parsePair_endless.mp hr)

/-- A pair that is there is read. -/
lemma parsePair_reads (h : p.Ahead ts) (hs : strip ts = us ++ rest) (hp : IsPair key us) :
    Reads parsePair p rest fun pair => (∃ as, pair = .args as) ↔ key = "args" := by
  obtain ⟨pair, ts', hr, hs', hargs⟩ := parsePair_append hs hp
  have hf := parsePair_follows h
  rw [hr] at hf
  cases hf with
  | ok hl hg hn => exact ⟨pair, _, _, hl, hg.ahead, by rw [hn.strip, hs'], hargs⟩

/-- There is no end within a text. -/
lemma parsePair_forever (h : p.Ahead ts) (ho : OpenText (strip ts)) : parsePair.Leads p none := by
  have hf := parsePair_follows h
  rw [parsePair_endless.mpr ho] at hf
  cases hf with
  | error he _ => exact absurd rfl he
  | endless hl => exact hl

/-! ### Instructions -/

/-- A pair changes an instruction, and only arguments make it one that is not abstract. -/
lemma applyPair_ok (h : nested = false → ¬ ∃ as, pair = .args as) : ∃ o, applyPair nested i nextCode pair = .ok o ∧
    (o.1.abstract = true ↔ i.abstract = true ∧ ¬ ∃ as, pair = .args as) := by
  by_cases hargs : ∃ as, pair = .args as
  · obtain ⟨as, rfl⟩ := hargs
    cases nested with
    | false => exact absurd ⟨as, rfl⟩ (h rfl)
    | true => exact ⟨_, rfl, iff_of_false Bool.false_ne_true fun h => h.2 ⟨as, rfl⟩⟩
  rw [and_iff_left hargs]
  cases pair with
  | args as => exact absurd ⟨as, rfl⟩ hargs
  | code n =>
    by_cases hn : n < nextCode
    · exact ⟨_, if_pos hn, Iff.rfl⟩
    · exact ⟨_, if_neg hn, Iff.rfl⟩
  | _ => exact ⟨_, rfl, Iff.rfl⟩

/-- The branch for a pair, after it is parsed. -/
lemma pairBranch_leads (hl : parsePair.Leads p (some (.ok (pair, p1))))
    (h : applyPair nested i p1.nextCode pair = .ok o) :
    (pairBranch nested i).Leads p (some (.ok (o.1, { p1 with nextCode := o.2 }))) := by
  refine Process.Leads.bind hl (Process.Leads.bind Process.leads_get ?_)
  rw [h]
  exact Process.Leads.bind Process.leads_set Process.leads_pure

/-- What a pair makes of an instruction. -/
def Applied (nested : Bool) (i j : Instruction) (us : List Token) : Prop :=
  ∃ key, IsPair key us ∧ (nested = false → key ≠ "args") ∧ (j.abstract = true ↔ i.abstract = true ∧ key ≠ "args")

/-- A pair is read and applied, or there is no end within a text. -/
lemma pairBranch_comes (h : p.Ahead ts) : Comes (pairBranch nested i) p ts (Applied nested i) OpenText := by
  cases parsePair_comes h with
  | @value pair p1 ts1 us hl ha hs hp =>
    obtain ⟨key, hp, hargs⟩ := hp
    by_cases hn : nested = false ∧ key = "args"
    · obtain ⟨rfl, hkey⟩ := hn
      obtain ⟨as, rfl⟩ := hargs.mpr hkey
      exact .error (Process.Leads.bind hl (Process.Leads.bind Process.leads_get Process.leads_throw))
    · have hkey : nested = false → key ≠ "args" := fun h1 h2 => hn ⟨h1, h2⟩
      obtain ⟨o, ho, hab⟩ := @applyPair_ok i nested p1.nextCode pair fun h1 h2 => hkey h1 (hargs.mp h2)
      rw [hargs] at hab
      exact .value (pairBranch_leads hl ho) ⟨ha.1, ha.2⟩ hs ⟨key, hp, hkey, hab⟩
  | error hl => exact .error (Process.Leads.bind_error hl)
  | forever hl ho => exact .forever (Process.Leads.bind_none hl) ho

/-- A pair that is there is read and applied, if it may stand there. -/
lemma pairBranch_reads (h : p.Ahead ts) (hs : strip ts = us ++ rest) (hp : IsPair key us)
    (hkey : nested = false → key ≠ "args") :
    Reads (pairBranch nested i) p rest fun j => j.abstract = true ↔ i.abstract = true ∧ key ≠ "args" := by
  obtain ⟨pair, p1, ts1, hl, ha, hs1, hargs⟩ := parsePair_reads h hs hp
  obtain ⟨o, ho, hab⟩ := @applyPair_ok i nested p1.nextCode pair fun h1 h2 => hkey h1 (hargs.mp h2)
  rw [hargs] at hab
  exact ⟨_, _, ts1, pairBranch_leads hl ho, ⟨ha.1, ha.2⟩, hs1, hab⟩

/-- There is no end within a text of the pair. -/
lemma pairBranch_forever (h : p.Ahead ts) (ho : OpenText (strip ts)) : (pairBranch nested i).Leads p none :=
  Process.Leads.bind_none (parsePair_forever h ho)

/-- A pair starts with a parenthesis and a keyword. -/
lemma IsPair.start (h : IsPair key us) :
    (tokenAt (us ++ rest) 0).type = .lpar ∧ (tokenAt (us ++ rest) 1).type = .keyword := by
  cases h with
  | intro hl hk _ _ => exact ⟨hl, hk⟩

/-- A text stands in a pair. -/
lemma OpenText.start (h : OpenText us) : (tokenAt us 0).type = .lpar ∧ (tokenAt us 1).type = .keyword := by
  cases h with
  | intro hl hk _ _ _ => exact ⟨hl, hk⟩

/-- The branch at the end of an instruction, after the parenthesis. -/
lemma closeBranch_leads (hl : (next (some .rpar) false).Leads p (some (.ok (t, p1)))) :
    (closeBranch i).Leads p (some (.ok ((closeInstruction i p1.nextCode).1,
      { p1 with nextCode := (closeInstruction i p1.nextCode).2 }))) :=
  Process.Leads.bind hl (Process.Leads.bind Process.leads_get (Process.Leads.bind Process.leads_set Process.leads_pure))

/-- An instruction is made unless it is abstract. -/
lemma closeInstruction_ne : (closeInstruction i nextCode).1 ≠ [] ↔ ¬ i.abstract = true := by
  unfold closeInstruction
  split
  · next h => exact iff_of_false (fun hne => hne rfl) (not_not_intro h)
  · next h => exact iff_of_true (List.cons_ne_nil _ _) h

/-- What ends an instruction. -/
def Closed (i : Instruction) (forms : List Instruction) (us : List Token) : Prop :=
  ∃ r, us = [r] ∧ r.type = .rpar ∧ (forms ≠ [] ↔ ¬ i.abstract = true)

/-- The end of an instruction reads a parenthesis. -/
lemma closeBranch_comes {O : List Token → Prop} (h : p.Ahead ts) : Comes (closeBranch i) p ts (Closed i) O := by
  have hn : Comes (next (some .rpar) false) p ts _ O := next_comes TokenType.noConfusion h
  cases hn with
  | value hl ha hs ht =>
    obtain ⟨rfl, ht⟩ := ht
    exact .value (closeBranch_leads hl) ⟨ha.1, ha.2⟩ hs ⟨_, rfl, ht, closeInstruction_ne⟩
  | error hl => exact .error (Process.Leads.bind_error hl)
  | forever hl ho => exact .forever (Process.Leads.bind_none hl) ho

/-- A parenthesis that is there is read. -/
lemma closeBranch_reads (h : p.Ahead ts) (hs : strip ts = r :: rest) (hr : r.type = .rpar) :
    Reads (closeBranch i) p rest fun forms => forms ≠ [] ↔ ¬ i.abstract = true := by
  obtain ⟨t, p1, ts1, hl, ha, hs1, _⟩ := next_reads h hs hr
  exact ⟨_, _, ts1, closeBranch_leads hl, ⟨ha.1, ha.2⟩, hs1, closeInstruction_ne⟩

/-! ### Forms -/

/-- The tokens of a nested call, which has a form if the arguments are among its pairs. -/
def Nested (i : Instruction) (forms : List Instruction) (us : List Token) : Prop :=
  ∃ keys vs r, us = vs ++ [r] ∧ Pairs keys vs ∧ r.type = .rpar ∧ (forms ≠ [] ↔ ¬ (i.abstract = true ∧ "args" ∉ keys))

/-- The tokens of one that stops in a text. -/
def OpenNested (us : List Token) : Prop := ∃ keys vs ws, us = vs ++ ws ∧ Pairs keys vs ∧ OpenText ws

/-- What a round of a nested call comes to. -/
def NestedRound (i : Instruction) : Instruction ⊕ List Instruction → List Token → Prop
  | .inl j, us => Applied true i j us
  | .inr forms, us => Closed i forms us

/-- A round of a form reads a pair or the end. -/
lemma nestedRound_comes (h : p.Ahead ts) : Comes (nestedRound i) p ts (NestedRound i) OpenText := by
  refine .look h fun ha => ?_
  split
  · exact .map (pairBranch_comes ha)
  · exact .map (closeBranch_comes ha)

/-- A pair has tokens. -/
lemma IsPair.ne_nil (h : IsPair key us) : us ≠ [] := by
  cases h
  exact List.cons_ne_nil _ _

/-- A form is read to its end, or there is no end within a text. -/
lemma nested_comes (h : p.Ahead ts) : Comes (Process.repeatUntil nestedRound i) p ts (Nested i) OpenNested := by
  induction hn : (strip ts).length using Nat.strong_induction_on generalizing p ts i with
  | _ n ih =>
  subst hn
  refine (nestedRound_comes h).loop (fun us ho => ⟨[], [], us, rfl, .nil, ho⟩) ?_ ?_
  · rintro forms us ⟨r, rfl, hr, hf⟩
    exact ⟨[], [], r, rfl, .nil, hr, by rw [hf, and_iff_left List.not_mem_nil]⟩
  · rintro j p' ts' us ha hs ⟨key, hp, _, hab⟩
    have hlt : (strip ts').length < (strip ts).length := by
      rw [hs, List.length_append]
      have := List.length_pos_iff.mpr hp.ne_nil
      omega
    refine (ih _ hlt ha rfl).imp ?_ ?_
    · rintro forms vs ⟨keys, vs, r, rfl, hps, hr, hf⟩
      refine ⟨key :: keys, us ++ vs, r, (List.append_assoc ..).symm, .cons hp hps, hr, hf.trans ?_⟩
      rw [hab, List.mem_cons, not_or, and_assoc, ne_comm]
    · rintro vs ⟨keys, vs, ws, rfl, hps, ho⟩
      exact ⟨key :: keys, us ++ vs, ws, (List.append_assoc ..).symm, .cons hp hps, ho⟩

/-- A round of a nested call on a pair. -/
lemma nestedRound_reads (h : p.Ahead ts) (hs : strip ts = us ++ rest) (hp : IsPair key us) :
    Reads (nestedRound i) p rest fun r => ∃ j, r = .inl j ∧ (j.abstract = true ↔ i.abstract = true ∧ key ≠ "args") := by
  obtain ⟨p1, hg, hl⟩ := @look_leads p ts 0 h
  obtain ⟨j, p2, ts2, hl2, ha, hs2, hab⟩ : Reads (pairBranch true i) p1 rest _ :=
    pairBranch_reads hg.ahead hs hp Bool.noConfusion
  refine ⟨.inl j, p2, ts2, Process.Leads.bind hl ?_, ha, hs2, j, rfl, hab⟩
  rw [hs, if_pos hp.start.1]
  exact Process.Leads.map hl2

/-- A form that is there is read. -/
lemma nested_reads (hps : Pairs keys us) (h : p.Ahead ts) (hs : strip ts = us ++ r :: rest) (hr : r.type = .rpar) :
    Reads (Process.repeatUntil nestedRound i) p rest fun forms => forms ≠ [] ↔ ¬ (i.abstract = true ∧ "args" ∉ keys) := by
  induction hps generalizing p ts i with
  | nil =>
    obtain ⟨p1, hg, hl⟩ := @look_leads p ts 0 h
    obtain ⟨forms, p2, ts2, hl2, ha, hs2, hf⟩ := closeBranch_reads (i := i) hg.ahead hs hr
    refine ⟨forms, p2, ts2, Process.Leads.done (Process.Leads.bind hl ?_), ha, hs2, ?_⟩
    · rw [hs, List.nil_append, if_neg (by
        show r.type ≠ .lpar
        rw [hr]
        exact TokenType.noConfusion)]
      exact Process.Leads.map hl2
    · exact hf.trans (not_congr (and_iff_left List.not_mem_nil).symm)
  | @cons key keys us vs hp _ ih =>
    rw [List.append_assoc] at hs
    obtain ⟨_, p1, ts1, hl, ha, hs1, j, rfl, hab⟩ := nestedRound_reads (i := i) h hs hp
    obtain ⟨forms, p2, ts2, hl2, ha2, hs2, hf⟩ := ih ha hs1
    refine ⟨forms, p2, ts2, Process.Leads.next hl hl2, ha2, hs2, hf.trans ?_⟩
    rw [hab, List.mem_cons, not_or, and_assoc, ne_comm]

/-- There is no end within a text of a form. -/
lemma nested_forever (hps : Pairs keys us) (h : p.Ahead ts) (hs : strip ts = us ++ vs) (ho : OpenText vs) :
    (Process.repeatUntil nestedRound i).Leads p none := by
  induction hps generalizing p ts i with
  | nil =>
    obtain ⟨p1, hg, hl⟩ := @look_leads p ts 0 h
    refine Process.Leads.stuck (Process.Leads.bind hl ?_)
    rw [hs, List.nil_append, if_pos ho.start.1]
    refine Process.Leads.map_none (pairBranch_forever hg.ahead ?_)
    rw [hs]
    exact ho
  | @cons key keys us _ hp _ ih =>
    rw [List.append_assoc] at hs
    obtain ⟨_, p1, ts1, hl, ha, hs1, j, rfl, _⟩ := nestedRound_reads (i := i) h hs hp
    exact Process.Leads.next hl (ih ha hs1)

/-- A form with its arguments is read, and makes instructions. -/
lemma parseNested_reads (hps : Pairs keys us) (hkeys : "args" ∈ keys) (h : p.Ahead ts) (hs : strip ts = us ++ r :: rest)
    (hr : r.type = .rpar) : Reads (parseNested i) p rest fun forms => forms ≠ [] := by
  obtain ⟨forms, p', ts', hl, ha, hs', hf⟩ := nested_reads (i := { i with code := none }) hps h hs hr
  exact ⟨forms, p', ts', hl, ha, hs', hf.mpr fun hn => hn.2 hkeys⟩

variable {instructions : List Instruction}

/-- A form is read as a part of an instruction, or there is no end within a text. -/
lemma formBranch_comes (h : p.Ahead ts) : Comes (formBranch i instructions) p ts (fun _ us => IsClause us) OpenClause := by
  refine (next_comes (O := fun _ => False) TokenType.noConfusion h).bind (fun _ ho => ho.elim) fun ha ⟨hus, hl⟩ => ?_
  subst hus
  refine (nested_comes ha).bind ?_ ?_
  · rintro us ⟨keys, vs, ws, rfl, hps, ho⟩
    show OpenClause (_ :: (vs ++ ws))
    exact .form hl hps ho
  · rintro forms p' ts' us ha ⟨keys, vs, r, rfl, hps, hr, hf⟩
    cases forms with
    | nil => exact .throw
    | cons form forms =>
      refine .pure ha ?_
      rw [List.append_nil]
      refine .form hl hps ?_ hr
      by_contra hk
      exact hf.mp (List.cons_ne_nil _ _) ⟨rfl, hk⟩

/-- A form that is there is read as a part of an instruction. -/
lemma formBranch_reads (hl : l.type = .lpar) (hps : Pairs keys us) (hkeys : "args" ∈ keys) (hr : r.type = .rpar)
    (h : p.Ahead ts) (hs : strip ts = l :: (us ++ r :: rest)) :
    Reads (formBranch i instructions) p rest fun _ => True := by
  obtain ⟨_, p1, ts1, hl1, ha1, hs1, _⟩ := next_reads h hs hl
  obtain ⟨forms, p2, ts2, hl2, ha2, hs2, hf⟩ := parseNested_reads (i := { i with abstract := true }) hps hkeys ha1 hs1 hr
  obtain ⟨form, forms, rfl⟩ := List.exists_cons_of_ne_nil hf
  exact ⟨_, p2, ts2, Process.Leads.bind hl1 (Process.Leads.bind hl2 Process.leads_pure), ha2, hs2, trivial⟩

/-- There is no end within a text of such a form. -/
lemma formBranch_forever (hl : l.type = .lpar) (hps : Pairs keys us) (ho : OpenText vs) (h : p.Ahead ts)
    (hs : strip ts = l :: (us ++ vs)) : (formBranch i instructions).Leads p none := by
  obtain ⟨_, p1, ts1, hl1, ha1, hs1, _⟩ := next_reads h hs hl
  exact Process.Leads.bind hl1 (Process.Leads.bind_none (nested_forever hps ha1 hs1 ho))

/-! ### Directives -/

/-- Pairs start with a parenthesis if what follows them does. -/
lemma Pairs.start (h : Pairs keys us) (hv : (tokenAt vs 0).type = .lpar) : (tokenAt (us ++ vs) 0).type = .lpar := by
  cases h with
  | nil => exact hv
  | cons hp _ =>
    rw [List.append_assoc]
    exact hp.start.1

/-- A form with its arguments starts with a parenthesis. -/
lemma Pairs.start_args (h : Pairs keys us) (hkeys : "args" ∈ keys) : (tokenAt (us ++ vs) 0).type = .lpar := by
  cases h with
  | nil => exact absurd hkeys List.not_mem_nil
  | cons hp _ =>
    rw [List.append_assoc]
    exact hp.start.1

/-- What a round of `parseInstruction` comes to. -/
def ClauseRound : (Instruction × List Instruction) ⊕ List Instruction → List Token → Prop
  | .inl _, us => IsClause us
  | .inr _, us => ∃ r, us = [r] ∧ r.type = .rpar

variable {s : Instruction × List Instruction}

/-- A round of an instruction reads a part of it or the end. -/
lemma instructionRound_comes (h : p.Ahead ts) : Comes (instructionRound s) p ts ClauseRound OpenClause := by
  refine .look h fun ha => ?_
  split
  · refine .look ha fun ha => ?_
    split
    · exact .map (formBranch_comes ha)
    · refine (pairBranch_comes ha).bind (fun _ => .pair) ?_
      rintro j p' ts' us ha ⟨key, hp, hkey, _⟩
      refine .pure ha (.pair (hkey rfl) ?_)
      rw [List.append_nil]
      exact hp
  · refine (closeBranch_comes ha).bind (O := fun _ => False) (fun _ ho => ho.elim) ?_
    rintro own p' ts' us ha ⟨r, rfl, hr, _⟩
    exact .pure ha ⟨r, rfl, hr⟩

/-- The tokens of an instruction after its name. -/
def IsBody (us : List Token) : Prop := ∃ vs r, us = vs ++ [r] ∧ Clauses vs ∧ r.type = .rpar

/-- The tokens after the name of one that stops in a text. -/
def OpenBody (us : List Token) : Prop := ∃ vs ws, us = vs ++ ws ∧ Clauses vs ∧ OpenClause ws

/-- A part of an instruction has tokens. -/
lemma IsClause.ne_nil (h : IsClause us) : us ≠ [] := by
  cases h with
  | pair _ hp => exact hp.ne_nil
  | form => exact List.cons_ne_nil _ _

/-- An instruction is read to its end, or there is no end within a text. -/
lemma instruction_comes (h : p.Ahead ts) :
    Comes (Process.repeatUntil instructionRound s) p ts (fun _ us => IsBody us) OpenBody := by
  induction hn : (strip ts).length using Nat.strong_induction_on generalizing p ts s with
  | _ n ih =>
  subst hn
  refine (instructionRound_comes h).loop (fun us ho => ⟨[], us, rfl, .nil, ho⟩) ?_ ?_
  · rintro instructions us ⟨r, rfl, hr⟩
    exact ⟨[], r, rfl, .nil, hr⟩
  · rintro s' p' ts' us ha hs (hc : IsClause us)
    have hlt : (strip ts').length < (strip ts).length := by
      rw [hs, List.length_append]
      have := List.length_pos_iff.mpr hc.ne_nil
      omega
    refine (ih _ hlt ha rfl).imp ?_ ?_
    · rintro _ vs ⟨vs, r, rfl, hvs, hr⟩
      exact ⟨us ++ vs, r, (List.append_assoc ..).symm, .cons hc hvs, hr⟩
    · rintro vs ⟨vs, ws, rfl, hvs, ho⟩
      exact ⟨us ++ vs, ws, (List.append_assoc ..).symm, .cons hc hvs, ho⟩

/-- A round of `parseInstruction` on a part of the instruction. -/
lemma instructionRound_reads (hc : IsClause us) (h : p.Ahead ts) (hs : strip ts = us ++ rest) :
    Reads (instructionRound s) p rest fun r => ∃ s', r = .inl s' := by
  obtain ⟨p1, hg1, hl1⟩ := @look_leads p ts 0 h
  obtain ⟨p2, hg2, hl2⟩ := @look_leads p1 ts 1 hg1.ahead
  cases hc with
  | pair hkey hp =>
    obtain ⟨j, p3, ts3, hl3, ha, hs3, _⟩ : Reads (pairBranch false s.1) p2 rest _ :=
      pairBranch_reads hg2.ahead hs hp fun _ => hkey
    refine ⟨.inl (j, s.2), p3, ts3, Process.Leads.bind hl1 ?_, ha, hs3, _, rfl⟩
    rw [hs] at hl2 ⊢
    rw [if_pos hp.start.1]
    refine Process.Leads.bind hl2 ?_
    rw [if_neg (by rw [hp.start.2]; exact TokenType.noConfusion)]
    exact Process.Leads.bind hl3 Process.leads_pure
  | @form l r keys us hl hps hkeys hr =>
    rw [List.cons_append, List.append_assoc] at hs
    obtain ⟨s', p3, ts3, hl3, ha, hs3, _⟩ : Reads (formBranch s.1 s.2) p2 rest _ :=
      formBranch_reads hl hps hkeys hr hg2.ahead hs
    refine ⟨.inl s', p3, ts3, Process.Leads.bind hl1 ?_, ha, hs3, _, rfl⟩
    rw [hs] at hl2 ⊢
    have hsecond : (tokenAt (l :: (us ++ ([r] ++ rest))) 1).type = .lpar := hps.start_args hkeys
    rw [if_pos (show (tokenAt (l :: _) 0).type = .lpar from hl)]
    refine Process.Leads.bind hl2 ?_
    rw [if_pos hsecond]
    exact Process.Leads.map hl3

/-- An instruction that is there is read. -/
lemma instruction_reads (hcs : Clauses us) (h : p.Ahead ts) (hs : strip ts = us ++ r :: rest) (hr : r.type = .rpar) :
    Reads (Process.repeatUntil instructionRound s) p rest fun _ => True := by
  induction hcs generalizing p ts s with
  | nil =>
    obtain ⟨p1, hg, hl⟩ := @look_leads p ts 0 h
    obtain ⟨own, p2, ts2, hl2, ha, hs2, _⟩ := closeBranch_reads (i := s.1) hg.ahead hs hr
    refine ⟨s.2 ++ own, p2, ts2, Process.Leads.done (Process.Leads.bind hl ?_), ha, hs2, trivial⟩
    rw [hs, List.nil_append, if_neg (by
      show r.type ≠ .lpar
      rw [hr]
      exact TokenType.noConfusion)]
    exact Process.Leads.bind hl2 Process.leads_pure
  | cons hc _ ih =>
    rw [List.append_assoc] at hs
    obtain ⟨_, p1, ts1, hl, ha, hs1, s', rfl⟩ := instructionRound_reads (s := s) hc h hs
    obtain ⟨is, p2, ts2, hl2, ha2, hs2, _⟩ := ih (s := s') ha hs1
    exact ⟨is, p2, ts2, Process.Leads.next hl hl2, ha2, hs2, trivial⟩

/-- A round of `parseInstruction` that does not end. -/
lemma instructionRound_forever (ho : OpenClause (strip ts)) (h : p.Ahead ts) : (instructionRound s).Leads p none := by
  obtain ⟨p1, hg1, hl1⟩ := @look_leads p ts 0 h
  obtain ⟨p2, hg2, hl2⟩ := @look_leads p1 ts 1 hg1.ahead
  refine Process.Leads.bind hl1 ?_
  generalize hs : strip ts = us at ho hl2 ⊢
  cases ho with
  | pair ho =>
    rw [if_pos ho.start.1]
    refine Process.Leads.bind hl2 ?_
    rw [if_neg (by rw [ho.start.2]; exact TokenType.noConfusion)]
    refine Process.Leads.bind_none (pairBranch_forever hg2.ahead ?_)
    rw [hs]
    exact ho
  | @form l keys us vs hl hps ho =>
    rw [if_pos (show (tokenAt (l :: _) 0).type = .lpar from hl)]
    refine Process.Leads.bind hl2 ?_
    have hsecond : (tokenAt (l :: (us ++ vs)) 1).type = .lpar := hps.start ho.start.1
    rw [if_pos hsecond]
    exact Process.Leads.map_none (formBranch_forever hl hps ho hg2.ahead hs)

/-- There is no end within a text of an instruction. -/
lemma instruction_forever (hcs : Clauses us) (ho : OpenClause vs) (h : p.Ahead ts) (hs : strip ts = us ++ vs) :
    (Process.repeatUntil instructionRound s).Leads p none := by
  induction hcs generalizing p ts s with
  | nil =>
    refine Process.Leads.stuck (instructionRound_forever ?_ h)
    rw [hs]
    exact ho
  | cons hc _ ih =>
    rw [List.append_assoc] at hs
    obtain ⟨_, p1, ts1, hl, ha, hs1, s', rfl⟩ := instructionRound_reads (s := s) hc h hs
    exact Process.Leads.next hl (ih ha hs1)

/-- A directive is read, or there is no end within a text. -/
lemma parseDirective_comes (h : p.Ahead ts) :
    Comes parseDirective p ts (fun _ us => IsDirective us) OpenDirective := by
  refine (next_comes (O := fun _ => False) TokenType.noConfusion h).bind (fun _ ho => ho.elim) ?_
  rintro l p1 ts1 _ ha ⟨rfl, hl⟩
  refine (next_comes (O := fun _ => False) TokenType.noConfusion ha).bind (fun _ ho => ho.elim) ?_
  rintro k p2 ts2 _ ha ⟨rfl, hk⟩
  by_cases hop : String.ofList k.value = "op"
  · rw [if_pos hop]
    refine (next_comes (O := fun _ => False) TokenType.noConfusion ha).bind (fun _ ho => ho.elim) ?_
    rintro n p3 ts3 _ ha ⟨rfl, hn⟩
    refine (instruction_comes ha).imp ?_ ?_
    · rintro _ _ ⟨vs, r, rfl, hcs, hr⟩
      show IsDirective (_ :: _ :: _ :: (vs ++ [r]))
      exact .op hl hk hop hn hcs hr
    · rintro _ ⟨vs, ws, rfl, hcs, ho⟩
      show OpenDirective (_ :: _ :: _ :: (vs ++ ws))
      exact .intro hl hk hop hn hcs ho
  · rw [if_neg hop]
    refine (next_comes (O := fun _ => False) TokenType.noConfusion ha).bind (fun _ ho => ho.elim) ?_
    rintro r p3 ts3 _ ha ⟨rfl, hr⟩
    exact .pure ha (.other hl hk hop hr)

/-- A directive that is there is read. -/
lemma parseDirective_reads (hd : IsDirective us) (h : p.Ahead ts) (hs : strip ts = us ++ rest) :
    Reads parseDirective p rest fun _ => True := by
  cases hd with
  | @op l k n r us hl hk hop hn hcs hr =>
    rw [List.cons_append, List.cons_append, List.cons_append, List.append_assoc] at hs
    obtain ⟨_, p1, ts1, hl1, ha1, hs1, _⟩ := next_reads h hs hl
    obtain ⟨_, p2, ts2, hl2, ha2, hs2, rfl⟩ := next_reads ha1 hs1 hk
    obtain ⟨n', p3, ts3, hl3, ha3, hs3, _⟩ := next_reads ha2 hs2 hn
    obtain ⟨is, p4, ts4, hl4, ha4, hs4, _⟩ : Reads (Process.repeatUntil instructionRound
      ({ name := String.ofList n'.value }, [])) p3 rest _ := instruction_reads hcs ha3 hs3 hr
    refine ⟨is, p4, ts4, Process.Leads.bind hl1 (Process.Leads.bind hl2 ?_), ha4, hs4, trivial⟩
    rw [if_pos hop]
    exact Process.Leads.bind hl3 hl4
  | other hl hk hop hr =>
    obtain ⟨_, p1, ts1, hl1, ha1, hs1, _⟩ := next_reads h hs hl
    obtain ⟨_, p2, ts2, hl2, ha2, hs2, rfl⟩ := next_reads ha1 hs1 hk
    obtain ⟨_, p3, ts3, hl3, ha3, hs3, _⟩ := next_reads ha2 hs2 hr
    refine ⟨[], p3, ts3, Process.Leads.bind hl1 (Process.Leads.bind hl2 ?_), ha3, hs3, trivial⟩
    rw [if_neg hop]
    exact Process.Leads.bind hl3 Process.leads_pure

/-- There is no end within a text of a directive. -/
lemma parseDirective_forever (ho : OpenDirective us) (h : p.Ahead ts) (hs : strip ts = us) :
    parseDirective.Leads p none := by
  cases ho with
  | intro hl hk hop hn hcs ho =>
    obtain ⟨_, p1, ts1, hl1, ha1, hs1, _⟩ := next_reads h hs hl
    obtain ⟨_, p2, ts2, hl2, ha2, hs2, rfl⟩ := next_reads ha1 hs1 hk
    obtain ⟨_, p3, ts3, hl3, ha3, hs3, _⟩ := next_reads ha2 hs2 hn
    refine Process.Leads.bind hl1 (Process.Leads.bind hl2 ?_)
    rw [if_pos hop]
    exact Process.Leads.bind hl3 (instruction_forever hcs ho ha3 hs3)

/-- A directive starts with a parenthesis. -/
lemma IsDirective.start (h : IsDirective us) : (tokenAt (us ++ rest) 0).type = .lpar := by
  cases h with
  | op hl => exact hl
  | other hl => exact hl

/-- So does one that stops in a text. -/
lemma OpenDirective.start (h : OpenDirective us) : (tokenAt us 0).type = .lpar := by
  cases h with
  | intro hl => exact hl

/-! ### The file -/

variable {is : List Instruction}

/-- What a round of `Parser:parse` comes to. -/
def DirectiveRound : List Instruction ⊕ List Instruction → List Token → Prop
  | .inl _, us => IsDirective us
  | .inr _, _ => True

/-- A round of the file reads a directive or the end. -/
lemma parseRound_comes (h : p.Ahead ts) : Comes (parseRound is) p ts DirectiveRound OpenDirective := by
  refine .look h fun ha => ?_
  split
  · exact .pure ha trivial
  split
  · refine (parseDirective_comes ha).bind (fun _ => id) ?_
    rintro _ p' ts' us ha hd
    refine .pure ha ?_
    rw [List.append_nil]
    exact hd
  · exact .throw

/-- `Parser:parse` returns or fails, or the file is unfinished. -/
lemma parse_comes (h : p.Ahead ts) : Comes (Process.repeatUntil parseRound is) p ts (fun _ _ => True) Unfinished := by
  induction hn : (strip ts).length using Nat.strong_induction_on generalizing p ts is with
  | _ n ih =>
  subst hn
  refine (parseRound_comes h).loop (fun _ => .last) (fun _ => trivial) ?_
  rintro is' p' ts' us ha hs (hd : IsDirective us)
  have hlt : (strip ts').length < (strip ts).length := by
    have hne : us ≠ [] := by
      cases hd
      · exact List.cons_ne_nil _ _
      · exact List.cons_ne_nil _ _
    have := List.length_pos_iff.mpr hne
    rw [hs, List.length_append]
    omega
  exact (ih _ hlt ha rfl).imp (fun _ => trivial) fun hu => .cons hd hu

/-- A round of `Parser:parse` on a directive. -/
lemma parseRound_reads (hd : IsDirective us) (h : p.Ahead ts) (hs : strip ts = us ++ rest) :
    Reads (parseRound is) p rest fun r => ∃ is', r = .inl is' := by
  obtain ⟨p1, hg, hl⟩ := @look_leads p ts 0 h
  obtain ⟨is', p2, ts2, hl2, ha, hs2, _⟩ := parseDirective_reads hd hg.ahead hs
  refine ⟨.inl (is ++ is'), p2, ts2, Process.Leads.bind hl ?_, ha, hs2, _, rfl⟩
  rw [hs, if_neg (by rw [hd.start]; exact TokenType.noConfusion), if_pos hd.start]
  exact Process.Leads.bind hl2 Process.leads_pure

/-- `Parser:parse` does not end on an unfinished file. -/
lemma parse_forever (hu : Unfinished us) (h : p.Ahead ts) (hs : strip ts = us) :
    (Process.repeatUntil parseRound is).Leads p none := by
  induction hu generalizing p ts is with
  | last ho =>
    obtain ⟨p1, hg, hl⟩ := @look_leads p ts 0 h
    refine Process.Leads.stuck (Process.Leads.bind hl ?_)
    rw [hs, if_neg (by rw [ho.start]; exact TokenType.noConfusion), if_pos ho.start]
    exact Process.Leads.bind_none (parseDirective_forever ho hg.ahead hs)
  | cons hd _ ih =>
    obtain ⟨_, p1, ts1, hl, ha, hs1, is', rfl⟩ := parseRound_reads hd h hs
    exact Process.Leads.next hl (ih ha hs1)

variable {text : List Char}

/-- The tokens ahead of a parser at the start of a text. -/
lemma ahead_of_lexes (h : Lexes text ts) : ∃ ts', (Parser.new text).Ahead ts' ∧ strip ts' = ts := by
  obtain ⟨ts', hs, he, hp⟩ := streams_of_lexes h
  exact ⟨ts', ⟨.nil hs, hp⟩, he⟩

/-- The generator does not end on an unfinished file. -/
lemma not_ends_unfinished (h : Lexes text ts) (hu : Unfinished ts) : ¬ Ends text := by
  obtain ⟨ts', ha, hs⟩ := ahead_of_lexes h
  exact fun he => Fueled.Leads.not_ends (parse_forever hu ha hs) he.parser

/-- The generator ends if and only if no comment of the file lacks its end and no text of its instructions that is not
one token lacks the parenthesis after it. -/
theorem ends_iff : Ends text ↔ ∃ ts, Lexes text ts ∧ ¬ Unfinished ts := by
  constructor
  · intro h
    obtain ⟨ts, hts⟩ := answers_iff.mp h.lexer
    exact ⟨ts, hts, fun hu => not_ends_unfinished hts hu h⟩
  · rintro ⟨ts, hts, hu⟩
    refine ⟨answers_iff.mpr ⟨ts, hts⟩, ?_⟩
    obtain ⟨ts', ha, hs⟩ := ahead_of_lexes hts
    cases @parse_comes _ ts' [] ha with
    | value hl => exact ⟨_, hl⟩
    | error hl => exact ⟨_, hl⟩
    | forever _ ho =>
      rw [hs] at ho
      exact absurd ho hu

/-- Both comments without an end, and an effect that the file stops in. -/
theorem not_ends :
    ¬ Ends "#".toList ∧ ¬ Ends "###".toList ∧ ¬ Ends "(op NOP (effect r0".toList := by
  refine ⟨fun h => ?_, fun h => ?_, ?_⟩
  · exact (next_line_forever (by decide) (by decide)).not_ends (h.lexer _ .refl)
  · have hblock : Thi.skipBlockComment [] = .error _ := rfl
    exact (next_block_forever hblock).not_ends (h.lexer _ .refl)
  · have hlexes : Lexes "(op NOP (effect r0".toList [⟨.lpar, ['(']⟩, ⟨.keyword, "op".toList⟩, ⟨.id, "NOP".toList⟩,
        ⟨.lpar, ['(']⟩, ⟨.keyword, "effect".toList⟩, ⟨.register, "r0".toList⟩] := by
      refine lexes_token rfl (by decide) (lexes_token rfl (by decide) ?_)
      refine .whitespace rfl (lexes_token rfl (by decide) ?_)
      refine .whitespace rfl (lexes_token rfl (by decide) (lexes_token rfl (by decide) ?_))
      exact .whitespace rfl (lexes_token rfl (by decide) .nil)
    refine not_ends_unfinished hlexes (.last (.intro rfl rfl rfl rfl .nil (.pair (.intro rfl rfl ?_ ?_ ?_))))
    · decide
    · decide
    · intro t ht
      cases List.mem_singleton.mp ht
      decide

end Thorium.Thi.Generator
