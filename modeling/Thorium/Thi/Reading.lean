import Thorium.Thi.Lexing

/-!
# The tokens the parser reads

`Parser.Ahead` ties a parser to the tokens it has not taken yet, those it has buffered and those of its lexer. On
these, `look` and `next` and the functions up to `parsePair` do with their loops what the functions of
`Thi.Parser` do on a list of tokens (`Follows`): they return the same, write the same error, or do not end where
those say so.
-/

namespace Thorium.Thi.Generator
open Thorium.Isa

/-- The tokens in `look`, those of the lexer, and all of them. -/
inductive Buffered : List Token → Lexer → List Token → Prop where
  | nil {lx ts} : Streams lx ts → Buffered [] lx ts
  | cons {t buf lx ts} : Buffered buf lx ts → Buffered (t :: buf) lx (t :: ts)
  | eof {buf lx} : Buffered buf lx [] → Buffered (endToken :: buf) lx []

/-- The tokens ahead of a parser. -/
structure Parser.Ahead (p : Parser) (ts : List Token) : Prop where
  buffered : Buffered p.look p.lexer ts
  proper : Proper ts

/-- A parser that goes on before `ts`. -/
structure Goes (p p' : Parser) (ts : List Token) : Prop where
  ahead : p'.Ahead ts
  nextCode : p'.nextCode = p.nextCode

/-- The token at a place, or the one at the end. -/
def tokenAt (ts : List Token) (i : Nat) : Token := ts.getD i endToken

/-- The first tokens that are white space. -/
def spaces (ts : List Token) : Nat := (ts.takeWhile fun t => t.type == .whitespace).length

variable {p p' p1 : Parser} {ts ts' buf : List Token} {lx : Lexer} {t : Token} {i j k : Nat} {type : TokenType}

/-- A parser goes on and on. -/
lemma Goes.trans (h : Goes p p1 ts) (h' : Goes p1 p' ts') : Goes p p' ts' := ⟨h'.ahead, h'.nextCode.trans h.nextCode⟩

/-- The tokens in the buffer are the first ones. -/
lemma Buffered.tokenAt (h : Buffered buf lx ts) (hi : i < buf.length) : buf.getD i endToken = tokenAt ts i := by
  induction h generalizing i with
  | nil _ => exact absurd hi (Nat.not_lt_zero _)
  | cons _ ih =>
    cases i with
    | zero => rfl
    | succ i => exact ih (Nat.lt_of_succ_lt_succ hi)
  | eof _ ih =>
    cases i with
    | zero => rfl
    | succ i => exact ih (Nat.lt_of_succ_lt_succ hi)

/-- A call of the lexer. -/
lemma Buffered.next (h : Buffered buf lx ts) :
    ∃ t lx', lx.next.Leads (some (t, lx')) ∧ Buffered (buf ++ [t]) lx' ts := by
  induction h with
  | nil hs =>
    cases hs with
    | eof h => exact ⟨_, _, h, .eof (.nil .end)⟩
    | token h hs => exact ⟨_, _, h, .cons (.nil hs)⟩
  | cons _ ih =>
    obtain ⟨t, lx', h, hb⟩ := ih
    exact ⟨t, lx', h, .cons hb⟩
  | eof _ ih =>
    obtain ⟨t, lx', h, hb⟩ := ih
    exact ⟨t, lx', h, .eof hb⟩

/-- Tokens that are left are proper. -/
lemma Proper.tail (h : Proper ts) : Proper ts.tail := fun t ht => h t (List.mem_of_mem_tail ht)

/-- The lexer is called by the parser. -/
lemma lexerNext_leads {lx' : Lexer} (h : p.lexer.next.Leads (some (t, lx'))) :
    lexerNext.Leads p (some (.ok (t, { p with lexer := lx' }))) :=
  Fueled.Leads.bind h Fueled.leads_pure

/-- `self.look[i]` is the `i`-th token. -/
lemma fetch_leads (h : p.Ahead ts) (hi : i ≤ p.look.length) : ∃ p', Goes p p' ts ∧ i + 1 ≤ p'.look.length ∧
    (fetch (i + 1)).Leads p (some (.ok (tokenAt ts i, p'))) := by
  by_cases hlt : p.look.length < i + 1
  · obtain ⟨t, lx', hn, hb⟩ := h.buffered.next
    have he : i = p.look.length := by omega
    have hlen : i + 1 ≤ (p.look ++ [t]).length := by
      rw [he, List.length_append]
      exact Nat.le_refl _
    have ht := hb.tokenAt hlen
    rw [he, List.getD_append_right _ _ _ _ (Nat.le_refl _), Nat.sub_self, ← he] at ht
    refine ⟨{ p with lexer := lx', look := p.look ++ [t] }, ⟨⟨hb, h.proper⟩, rfl⟩, hlen, ?_⟩
    rw [← ht]
    refine Process.Leads.bind Process.leads_get ?_
    rw [if_pos hlt]
    refine Process.Leads.bind (lexerNext_leads hn) ?_
    exact Process.Leads.bind Process.leads_modify Process.leads_pure
  · refine ⟨p, ⟨h, rfl⟩, by omega, ?_⟩
    rw [← h.buffered.tokenAt (by omega)]
    refine Process.Leads.bind Process.leads_get ?_
    rw [if_neg hlt]
    exact Process.leads_pure

/-- `_next` takes the first token. -/
lemma takeToken_leads (h : p.Ahead ts) :
    ∃ p', Goes p p' ts.tail ∧ takeToken.Leads p (some (.ok (tokenAt ts 0, p'))) := by
  obtain ⟨lx, buf, code⟩ := p
  obtain ⟨hb, hp⟩ := h
  cases buf with
  | nil =>
    have hs : Streams lx ts := by
      cases hb with
      | nil hs => exact hs
    cases hs with
    | eof hn =>
      exact ⟨⟨⟨[], []⟩, [], code⟩, ⟨⟨.nil .end, hp⟩, rfl⟩, Process.Leads.bind Process.leads_get (lexerNext_leads hn)⟩
    | token hn hs =>
      exact ⟨⟨_, [], code⟩, ⟨⟨.nil hs, hp.tail⟩, rfl⟩, Process.Leads.bind Process.leads_get (lexerNext_leads hn)⟩
  | cons t buf =>
    have ht : t = tokenAt ts 0 ∧ Buffered buf lx ts.tail := by
      cases hb with
      | cons hb => exact ⟨rfl, hb⟩
      | eof hb => exact ⟨rfl, hb⟩
    refine ⟨⟨lx, buf, code⟩, ⟨⟨ht.2, hp.tail⟩, rfl⟩, ?_⟩
    rw [← ht.1]
    refine Process.Leads.bind Process.leads_get ?_
    exact Process.Leads.bind Process.leads_set Process.leads_pure

/-! ### White space -/

/-- White space is counted. -/
lemma spaces_space (h : t.type = .whitespace) : spaces (t :: ts) = spaces ts + 1 := by
  have ht : (t.type == .whitespace) = true := beq_iff_eq.mpr h
  rw [spaces, List.takeWhile_cons, if_pos ht]
  rfl

/-- Before another token there is no white space. -/
lemma spaces_cons (h : t.type ≠ .whitespace) : spaces (t :: ts) = 0 := by
  have ht : ¬ (t.type == .whitespace) = true := fun e => h (eq_of_beq e)
  rw [spaces, List.takeWhile_cons, if_neg ht]
  rfl

/-- Another token stays. -/
lemma strip_cons (h : t.type ≠ .whitespace) : strip (t :: ts) = t :: strip ts :=
  List.filter_cons_of_pos (bne_iff_ne.mpr h)

/-- White space in front is dropped. -/
lemma strip_space (h : t.type = .whitespace) : strip (t :: ts) = strip ts :=
  List.filter_cons_of_neg (by rw [h]; decide)

/-- The first token that is no white space, and what is after it. -/
lemma strip_drop : tokenAt (strip ts) 0 = tokenAt ts (spaces ts) ∧ (strip ts).tail = strip (ts.drop (spaces ts + 1)) := by
  induction ts with
  | nil => exact ⟨rfl, rfl⟩
  | cons t ts ih =>
    by_cases h : t.type = .whitespace
    · rw [strip_space h, spaces_space h]
      exact ih
    · rw [strip_cons h, spaces_cons h]
      exact ⟨rfl, rfl⟩

/-- Behind the white space there is none. -/
lemma tokenAt_spaces : (tokenAt ts (spaces ts)).type ≠ .whitespace := by
  induction ts with
  | nil => exact TokenType.noConfusion
  | cons t ts ih =>
    by_cases h : t.type = .whitespace
    · rw [spaces_space h]
      exact ih
    · rw [spaces_cons h]
      exact h

/-- Places are counted from the first token that is left. -/
lemma tokenAt_drop : tokenAt (ts.drop i) j = tokenAt ts (i + j) := by
  rw [tokenAt, tokenAt, List.getD_eq_getElem?_getD, List.getD_eq_getElem?_getD, List.getElem?_drop]

/-! ### `look` and `next` -/

/-- The inner loop of `look` skips white space. -/
lemma skip_leads (h : p.Ahead ts) (hi : i + 1 ≤ p.look.length) :
    ∃ p', Goes p p' ts ∧ i + spaces (ts.drop i) + 1 ≤ p'.look.length ∧
      (Process.repeatUntil (skipRound false) (i + 1, k, tokenAt ts i)).Leads p
        (some (.ok ((i + 1 + spaces (ts.drop i), k + spaces (ts.drop i), tokenAt ts (i + spaces (ts.drop i))), p'))) := by
  induction hn : spaces (ts.drop i) generalizing i k p with
  | zero =>
    refine ⟨p, ⟨h, rfl⟩, hi, Process.Leads.done ?_⟩
    have ht : (tokenAt ts i).type ≠ .whitespace := by
      have hs := @tokenAt_spaces (ts.drop i)
      rw [hn, tokenAt_drop] at hs
      exact hs
    rw [skipRound, if_neg (fun hh => ht hh.1)]
    exact Process.leads_pure
  | succ n ih =>
    obtain ⟨t, us, he⟩ : ∃ t us, ts.drop i = t :: us := by
      rcases e : ts.drop i with _ | ⟨t, us⟩
      · rw [e] at hn
        cases hn
      · exact ⟨t, us, rfl⟩
    have htok : tokenAt ts i = t := by
      have h0 := @tokenAt_drop ts i 0
      rw [he] at h0
      exact h0.symm
    have ht : t.type = .whitespace := by
      by_contra hne
      rw [he, spaces_cons hne] at hn
      cases hn
    have hrest : ts.drop (i + 1) = us := by
      rw [← List.drop_drop, he]
      rfl
    rw [he, spaces_space ht] at hn
    obtain ⟨p1, hg, hi1, hf⟩ := fetch_leads h hi
    obtain ⟨p', hg', hi', hl⟩ := ih hg.ahead hi1 (by rw [hrest]; exact Nat.succ.inj hn)
    refine ⟨p', hg.trans hg', by omega, ?_⟩
    rw [show i + 1 + (n + 1) = i + 1 + 1 + n by omega, show k + (n + 1) = k + 1 + n by omega,
      show i + (n + 1) = i + 1 + n by omega]
    refine Process.Leads.next ?_ hl
    rw [skipRound, if_pos ⟨by rw [htok]; exact ht, rfl⟩]
    exact Process.Leads.bind hf Process.leads_pure

/-- `look(k)` is the `k`-th token that is no white space. -/
lemma look_leads (h : p.Ahead ts) : ∃ p', Goes p p' ts ∧
    (look (k + 1) false).Leads p (some (.ok (tokenAt (strip ts) k, p'))) := by
  suffices hgen : ∀ {m i p}, p.Ahead ts → i ≤ p.look.length → ∃ p', Goes p p' ts ∧
      (Process.repeatUntil (lookRound false) (i + 1, i + 1 + m)).Leads p
        (some (.ok (tokenAt (strip (ts.drop i)) m, p'))) by
    have h0 := @hgen k 0 p h (Nat.zero_le _)
    rw [Nat.zero_add, Nat.add_comm 1 k] at h0
    exact h0
  intro m
  induction m with
  | zero =>
    intro i p h hi
    obtain ⟨p1, hg1, hi1, hf⟩ := fetch_leads h hi
    obtain ⟨p2, hg2, hi2, hs⟩ := @skip_leads p1 ts i (i + 1) hg1.ahead hi1
    refine ⟨p2, hg1.trans hg2, Process.Leads.done (Process.Leads.bind hf (Process.Leads.bind hs ?_))⟩
    rw [if_pos rfl, strip_drop.1, tokenAt_drop]
    exact Process.leads_pure
  | succ m ih =>
    intro i p h hi
    obtain ⟨p1, hg1, hi1, hf⟩ := fetch_leads h hi
    obtain ⟨p2, hg2, hi2, hs⟩ := @skip_leads p1 ts i (i + 1 + (m + 1)) hg1.ahead hi1
    obtain ⟨p3, hg3, hl⟩ := @ih (i + spaces (ts.drop i) + 1) p2 hg2.ahead hi2
    refine ⟨p3, hg1.trans (hg2.trans hg3), ?_⟩
    have hrest : tokenAt (strip (ts.drop i)) (m + 1) = tokenAt (strip (ts.drop (i + spaces (ts.drop i) + 1))) m := by
      have ht := (@strip_drop (ts.drop i)).2
      rw [List.drop_drop] at ht
      rw [show i + spaces (ts.drop i) + 1 = i + (spaces (ts.drop i) + 1) by omega, ← ht, ← List.drop_one, tokenAt_drop,
        Nat.add_comm]
    rw [hrest]
    refine Process.Leads.next (Process.Leads.bind hf (Process.Leads.bind hs ?_)) hl
    rw [if_neg (by show ¬ i + 1 + spaces (ts.drop i) = i + 1 + (m + 1) + spaces (ts.drop i); omega),
      show i + spaces (ts.drop i) + 1 + 1 = i + 1 + spaces (ts.drop i) + 1 by omega,
      show i + 1 + spaces (ts.drop i) + 1 + m = i + 1 + (m + 1) + spaces (ts.drop i) by omega]
    exact Process.leads_pure

/-- `look` with white space is the first token. -/
lemma look_first (h : p.Ahead ts) :
    ∃ p', Goes p p' ts ∧ (look 1 true).Leads p (some (.ok (tokenAt ts 0, p'))) := by
  obtain ⟨p', hg, _, hf⟩ := fetch_leads h (Nat.zero_le _)
  have hskip : (Process.repeatUntil (skipRound true) (1, 1, tokenAt ts 0)).Leads p'
      (some (.ok ((1, 1, tokenAt ts 0), p'))) := by
    refine Process.Leads.done ?_
    rw [skipRound, if_neg fun hh => Bool.noConfusion hh.2]
    exact Process.leads_pure
  exact ⟨p', hg, Process.Leads.done (Process.Leads.bind hf (Process.Leads.bind hskip Process.leads_pure))⟩

/-- A round that returns a token at once. -/
lemma nextTokenRound_done {keep : Bool} (h : keep = true ∨ t.type ≠ .whitespace) :
    (Process.repeatUntil (nextTokenRound keep) t).Leads p (some (.ok (t, p))) := by
  refine Process.Leads.done ?_
  rw [nextTokenRound, if_neg]
  · exact Process.leads_pure
  · rintro ⟨hk, ht⟩
    rcases h with h | h
    · cases hk.symm.trans h
    · exact h ht

/-- The loop of `next` skips white space. -/
lemma skipTaken_leads (h : p.Ahead ts.tail) : ∃ p', Goes p p' (ts.drop (spaces ts + 1)) ∧
    (Process.repeatUntil (nextTokenRound false) (tokenAt ts 0)).Leads p
      (some (.ok (tokenAt ts (spaces ts), p'))) := by
  induction ts generalizing p with
  | nil => exact ⟨p, ⟨h, rfl⟩, nextTokenRound_done (.inr TokenType.noConfusion)⟩
  | cons t ts ih =>
    by_cases ht : t.type = .whitespace
    · obtain ⟨p1, hg1, hn⟩ := takeToken_leads h
      obtain ⟨p2, hg2, hl⟩ := ih hg1.ahead
      rw [spaces_space ht]
      refine ⟨p2, hg1.trans hg2, Process.Leads.next ?_ hl⟩
      rw [nextTokenRound, if_pos ⟨rfl, ht⟩]
      exact Process.Leads.map hn
    · rw [spaces_cons ht]
      exact ⟨p, ⟨h, rfl⟩, nextTokenRound_done (.inr ht)⟩

/-- `next` takes the first token that is no white space. -/
lemma next_leads (h : p.Ahead ts) : ∃ p', Goes p p' (ts.drop (spaces ts + 1)) ∧
    (next none false).Leads p (some (.ok (tokenAt ts (spaces ts), p'))) := by
  obtain ⟨p1, hg1, ht⟩ := takeToken_leads h
  obtain ⟨p2, hg2, hl⟩ := skipTaken_leads hg1.ahead
  exact ⟨p2, hg1.trans hg2, Process.Leads.bind ht (Process.Leads.bind hl Process.leads_pure)⟩

/-- `next` with white space takes the first token. -/
lemma next_first (h : p.Ahead ts) :
    ∃ p', Goes p p' ts.tail ∧ (next none true).Leads p (some (.ok (tokenAt ts 0, p'))) := by
  obtain ⟨p', hg, ht⟩ := takeToken_leads h
  exact ⟨p', hg, Process.Leads.bind ht (Process.Leads.bind (nextTokenRound_done (.inl rfl)) Process.leads_pure)⟩

/-- `next` with a type. -/
lemma next_type (h : p.Ahead ts) : ∃ p', Goes p p' (ts.drop (spaces ts + 1)) ∧
    (next (some type) false).Leads p (some (if (tokenAt ts (spaces ts)).type = type then .ok (tokenAt ts (spaces ts), p')
      else .error (expected [type] (tokenAt ts (spaces ts)).type))) := by
  obtain ⟨p1, hg1, ht⟩ := takeToken_leads h
  obtain ⟨p2, hg2, hl⟩ := skipTaken_leads hg1.ahead
  refine ⟨p2, hg1.trans hg2, Process.Leads.bind ht (Process.Leads.bind hl ?_)⟩
  by_cases he : (tokenAt ts (spaces ts)).type = type
  · rw [if_pos he]
    dsimp only
    rw [if_pos he]
    exact Process.leads_pure
  · rw [if_neg he]
    dsimp only
    rw [if_neg he]
    exact Process.leads_throw

/-! ### Functions on tokens -/

/-- The same tokens, but for white space before the first. -/
def Near (ts ts' : List Token) : Prop := ts.drop (spaces ts) = ts'.drop (spaces ts')

/-- What a function returns or writes, a process does with the tokens ahead of it. -/
inductive Follows {α : Type} (x : ParserM α) (p : Parser) : Except String (α × List Token) → Prop where
  | ok {a p' ts ts'} : x.Leads p (some (.ok (a, p'))) → Goes p p' ts → Near ts ts' → Follows x p (.ok (a, ts'))
  | error {e} : e ≠ "endless loop" → x.Leads p (some (.error e)) → Follows x p (.error e)
  | endless : x.Leads p none → Follows x p (.error "endless loop")

section Follows

variable {α β σ : Type} {x : ParserM α} {f : α → ParserM β} {a : α} {r : Except String (β × List Token)}
  {g : α × List Token → Except String (β × List Token)} {body : σ → ParserM (σ ⊕ β)} {s s' : σ}

/-- A function after a first part that returns. -/
lemma Follows.after (h : x.Leads p (some (.ok (a, p1)))) (hg : Goes p p1 ts) (hf : Follows (f a) p1 r) :
    Follows (x >>= f) p r := by
  cases hf with
  | ok hl hg' hn => exact .ok (Process.Leads.bind h hl) (hg.trans hg') hn
  | error he hl => exact .error he (Process.Leads.bind h hl)
  | endless hl => exact .endless (Process.Leads.bind h hl)

/-- Functions one after the other. -/
lemma Follows.bind {r : Except String (α × List Token)} (h : Follows x p r)
    (hf : ∀ {a p1 ts ts'}, Goes p p1 ts → Near ts ts' → Follows (f a) p1 (g (a, ts'))) :
    Follows (x >>= f) p (r >>= g) := by
  cases h with
  | ok hl hg hn => exact .after hl hg (hf hg hn)
  | error he hl => exact .error he (Process.Leads.bind_error hl)
  | endless hl => exact .endless (Process.Leads.bind_none hl)

/-- A round that goes on. -/
lemma Follows.round (h : (body s).Leads p (some (.ok (.inl s', p1)))) (hg : Goes p p1 ts)
    (hf : Follows (Process.repeatUntil body s') p1 r) : Follows (Process.repeatUntil body s) p r := by
  cases hf with
  | ok hl hg' hn => exact .ok (Process.Leads.next h hl) (hg.trans hg') hn
  | error he hl => exact .error he (Process.Leads.next h hl)
  | endless hl => exact .endless (Process.Leads.next h hl)

end Follows

/-- A message about a token is not that of the endless loop. -/
lemma expected_ne {types : List TokenType} {type : TokenType} : expected types type ≠ "endless loop" := by
  intro h
  have hc := congrArg (fun s => s.toList.head?) h
  unfold expected at hc
  split at hc
  · simp [String.toList_append] at hc
  · simp [String.toList_append] at hc

/-- `next` on a list, with the first token that is no white space. -/
lemma next_drop (htype : type ≠ .eof) : Thi.next type ts =
    if (tokenAt ts (spaces ts)).type = type then .ok ((tokenAt ts (spaces ts)).value, ts.drop (spaces ts + 1))
    else .error (expected [type] (tokenAt ts (spaces ts)).type) := by
  induction ts with
  | nil => exact (if_neg fun h => htype (Eq.symm h)).symm
  | cons t ts ih =>
    rw [Thi.next]
    by_cases ht : t.type = .whitespace
    · rw [if_pos ht, ih, spaces_space ht]
      rfl
    · rw [if_neg ht, spaces_cons ht]
      rfl

/-- The first token behind the white space. -/
lemma tokenAt_first : tokenAt ts (spaces ts) = tokenAt (ts.drop (spaces ts)) 0 :=
  Eq.symm (@tokenAt_drop ts (spaces ts) 0)

/-- Near tokens have the same first token. -/
lemma Near.tokenAt (h : Near ts ts') : tokenAt ts (spaces ts) = tokenAt ts' (spaces ts') := by
  rw [tokenAt_first, tokenAt_first, h]

/-- They are the same behind it. -/
lemma Near.drop (h : Near ts ts') : ts.drop (spaces ts + 1) = ts'.drop (spaces ts' + 1) := by
  rw [← List.drop_drop, ← List.drop_drop, h]

/-- `next` does what it does on a list. -/
lemma Follows.token {β : Type} {f : Token → ParserM β} {g : List Char × List Token → Except String (β × List Token)}
    (h : p.Ahead ts) (hn : Near ts ts') (htype : type ≠ .eof)
    (hf : ∀ {token p1 rest}, Goes p p1 rest → Follows (f token) p1 (g (token.value, rest))) :
    Follows (next (some type) false >>= f) p (Thi.next type ts' >>= g) := by
  obtain ⟨p1, hg, hl⟩ := @next_type p ts type h
  rw [next_drop htype, ← hn.tokenAt, ← hn.drop]
  by_cases he : (Generator.tokenAt ts (spaces ts)).type = type
  · rw [if_pos he] at hl ⊢
    exact .after hl hg (hf hg)
  · rw [if_neg he] at hl ⊢
    exact .error expected_ne (Process.Leads.bind_error hl)

/-! ### Arguments and flags -/

section List

variable {α : Type} {item : Token → Option α} {first others : List TokenType} {items : List α}

/-- A list is read in the same way without the white space in front. -/
lemma parseList_drop : Thi.parseList item first others items ts =
    Thi.parseList item first others items (ts.drop (spaces ts)) := by
  induction ts with
  | nil => rfl
  | cons t ts ih =>
    by_cases ht : t.type = .whitespace
    · rw [Thi.parseList, if_pos ht, ih, spaces_space ht]
      rfl
    · rw [spaces_cons ht]
      rfl

/-- Tokens are near to those without the white space in front. -/
lemma near_drop : Near ts (ts.drop (spaces ts)) := by
  have h := @tokenAt_spaces ts
  unfold Near
  rw [tokenAt_first] at h
  generalize ts.drop (spaces ts) = us at h ⊢
  cases us with
  | nil => rfl
  | cons t us =>
    rw [@spaces_cons us t h]
    rfl

/-- The loop of `parseArgs` and `parseFlags`. -/
lemma parseList_follows (hitem : item endToken = none) (h : p.Ahead ts) :
    Follows (Process.repeatUntil (listRound item first others) items) p
      (Thi.parseList item first others items ts) := by
  induction hlen : ts.length using Nat.strong_induction_on generalizing p ts items with
  | _ n ih =>
  subst hlen
  obtain ⟨p1, hg, hl⟩ := @look_leads p ts 0 h
  obtain ⟨p2, hg2, hn⟩ := next_leads hg.ahead
  rw [strip_drop.1] at hl
  have hnear := @near_drop ts
  have hne := @tokenAt_spaces ts
  rw [parseList_drop]
  have hrest : ts.drop (spaces ts + 1) = (ts.drop (spaces ts)).drop 1 := List.drop_drop.symm
  have hle : (ts.drop (spaces ts)).length ≤ ts.length := by
    rw [List.length_drop]
    exact Nat.sub_le _ _
  rw [tokenAt_first] at hl hn hne
  rw [hrest] at hg2
  generalize ts.drop (spaces ts) = rest at hl hn hne hg2 hnear hle ⊢
  rcases rest with _ | ⟨t, us⟩
  · change (look 1 false).Leads p (some (.ok (endToken, p1))) at hl
    refine .error expected_ne (Process.Leads.abort (Process.Leads.bind hl ?_))
    rw [if_neg (show endToken.type ≠ .rpar from TokenType.noConfusion),
      if_neg (show endToken.type ≠ .comma from TokenType.noConfusion)]
    rw [hitem]
    exact Process.leads_throw
  change (look 1 false).Leads p (some (.ok (t, p1))) at hl
  change t.type ≠ .whitespace at hne
  -- every branch either stops at `t` or goes on behind it
  have hgo : ∀ items' : List α, Process.Leads (do
      let _ ← next none false
      pure (Sum.inl items' : List α ⊕ List α)) p1 (some (.ok (.inl items', p2))) :=
    fun _ => Process.Leads.bind hn Process.leads_pure
  have hstep : ∀ items', Follows (Process.repeatUntil (listRound item first others) items') p2
      (Thi.parseList item first others items' us) := fun _ => ih us.length hle hg2.ahead rfl
  rw [Thi.parseList, if_neg hne]
  by_cases hr : t.type = .rpar
  · rw [if_pos hr]
    cases he : items.isEmpty with
    | true =>
      refine .error (by decide) (Process.Leads.abort (Process.Leads.bind hl ?_))
      rw [if_pos hr, he]
      exact Process.leads_throw
    | false =>
      refine .ok (Process.Leads.done (Process.Leads.bind hl ?_)) hg hnear
      rw [if_pos hr, he]
      exact Process.leads_pure
  rw [if_neg hr]
  by_cases hc : t.type = .comma
  · rw [if_pos hc]
    cases he : items.isEmpty with
    | true =>
      refine .error expected_ne (Process.Leads.abort (Process.Leads.bind hl ?_))
      rw [if_neg hr, if_pos hc, he]
      exact Process.leads_throw
    | false =>
      refine .round (Process.Leads.bind hl ?_) (hg.trans hg2) (hstep items)
      rw [if_neg hr, if_pos hc, he]
      exact hgo items
  rw [if_neg hc]
  cases ht : item t with
  | none =>
    refine .error expected_ne (Process.Leads.abort (Process.Leads.bind hl ?_))
    rw [if_neg hr, if_neg hc, ht]
    exact Process.leads_throw
  | some a =>
    refine .round (Process.Leads.bind hl ?_) (hg.trans hg2) (hstep (items ++ [a]))
    rw [if_neg hr, if_neg hc, ht]
    exact hgo (items ++ [a])

end List

/-! ### Texts and pairs -/

/-- The look ahead sees the tokens without white space in front. -/
lemma look_eq : Thi.look (k + 1) ts = (tokenAt (strip ts) k).type := by
  rw [Thi.look, tokenAt, List.getD_eq_getElem?_getD]
  show ((strip ts)[k]?.map Token.type).getD .eof = _
  rcases (strip ts)[k]? with _ | t
  · rfl
  · rfl

/-- A round of `parseText` on a token that is no closing parenthesis. -/
lemma tokensRound_leads (acc : List Char) (ht : t.type ≠ .rpar) (h : p.Ahead ts) : ∃ p', Goes p p' ts.tail ∧
    (tokensRound (t, acc)).Leads p (some (.ok (.inl (tokenAt ts.tail 0, acc ++ (tokenAt ts 0).value), p'))) := by
  obtain ⟨p1, hg1, hn⟩ := next_first h
  obtain ⟨p2, hg2, hl⟩ := look_first hg1.ahead
  refine ⟨p2, hg1.trans hg2, ?_⟩
  rw [tokensRound, if_neg ht]
  exact Process.Leads.bind hn (Process.Leads.bind hl Process.leads_pure)

/-- `parseText` takes the tokens before the next closing parenthesis. -/
lemma tokens_leads (acc : List Char) (hr : ∃ t ∈ ts, t.type = .rpar)
    (ht : t.type = .rpar ↔ (tokenAt ts 0).type = .rpar) (h : p.Ahead ts) :
    ∃ p', Goes p p' (ts.dropWhile fun t => t.type != .rpar) ∧
      (Process.repeatUntil tokensRound (t, acc)).Leads p
        (some (.ok (acc ++ (ts.takeWhile fun t => t.type != .rpar).flatMap Token.value, p'))) := by
  induction ts generalizing p t acc with
  | nil =>
    obtain ⟨t, hm, _⟩ := hr
    exact absurd hm List.not_mem_nil
  | cons u us ih =>
    by_cases hu : u.type = .rpar
    · have hb : ¬ (u.type != .rpar) = true := fun hb => bne_iff_ne.mp hb hu
      rw [List.dropWhile_cons, List.takeWhile_cons, if_neg hb, if_neg hb, List.flatMap_nil, List.append_nil]
      refine ⟨p, ⟨h, rfl⟩, Process.Leads.done ?_⟩
      rw [tokensRound, if_pos (ht.mpr hu)]
      exact Process.leads_pure
    · have hb : (u.type != .rpar) = true := bne_iff_ne.mpr hu
      obtain ⟨p1, hg1, hround⟩ := tokensRound_leads acc (fun e => hu (ht.mp e)) h
      have hr' : ∃ t ∈ us, t.type = .rpar := by
        obtain ⟨v, hm, hv⟩ := hr
        rcases List.mem_cons.mp hm with rfl | hm
        · exact absurd hv hu
        · exact ⟨v, hm, hv⟩
      obtain ⟨p2, hg2, hl⟩ := ih _ hr' Iff.rfl hg1.ahead
      rw [List.dropWhile_cons, List.takeWhile_cons, if_pos hb, if_pos hb, List.flatMap_cons, ← List.append_assoc]
      exact ⟨p2, hg1.trans hg2, Process.Leads.next hround hl⟩

/-- Where no closing parenthesis follows, `parseText` asks for tokens for ever. -/
lemma tokens_forever {acc : List Char} (hr : ∀ t ∈ ts, t.type ≠ .rpar) (ht : t.type ≠ .rpar) (h : p.Ahead ts) :
    (Process.repeatUntil tokensRound (t, acc)).Leads p none := by
  refine Process.leads_forever (I := fun s p => s.1.type ≠ .rpar ∧ ∃ ts, p.Ahead ts ∧ ∀ t ∈ ts, t.type ≠ .rpar) ?_
    ⟨ht, ts, h, hr⟩
  rintro ⟨t, acc⟩ p ⟨ht, ts, h, hr⟩
  obtain ⟨p', hg, hround⟩ := tokensRound_leads acc ht h
  refine ⟨_, p', hround, ?_, ts.tail, hg.ahead, fun t hm => hr t (List.mem_of_mem_tail hm)⟩
  rcases ts with _ | ⟨u, _ | ⟨v, us⟩⟩
  · exact TokenType.noConfusion
  · exact TokenType.noConfusion
  · exact hr v (List.mem_cons_of_mem _ List.mem_cons_self)

/-- A closing parenthesis is not white space. -/
lemma first_ne (h : (tokenAt (strip ts) 0).type ≠ .rpar) : (tokenAt ts 0).type ≠ .rpar := by
  cases ts with
  | nil => exact TokenType.noConfusion
  | cons u us =>
    intro (hu : u.type = .rpar)
    refine h ?_
    rw [strip_cons (by rw [hu]; exact TokenType.noConfusion)]
    exact hu

/-- There is some text before a closing parenthesis that is not the first token. -/
lemma takeWhile_text (hp : Proper ts) (h : (tokenAt ts 0).type ≠ .rpar) (hne : ts ≠ []) :
    ((ts.takeWhile fun t => t.type != .rpar).flatMap Token.value).isEmpty = false := by
  cases ts with
  | nil => exact absurd rfl hne
  | cons u us =>
    have hu : (u.type != .rpar) = true := bne_iff_ne.mpr h
    rw [List.takeWhile_cons, if_pos hu, List.flatMap_cons, List.isEmpty_eq_false_iff]
    exact List.append_ne_nil_of_left_ne_nil (hp u List.mem_cons_self).1 _

/-- A text without a closing parenthesis has no end. -/
lemma dropWhile_isEmpty : (ts.dropWhile fun t => t.type != .rpar).isEmpty = true ↔ ∀ t ∈ ts, t.type ≠ .rpar := by
  rw [List.isEmpty_iff, List.dropWhile_eq_nil_iff]
  exact forall₂_congr fun _ _ => bne_iff_ne

/-- A text is read as by the function on tokens. -/
lemma parseText_follows (h : p.Ahead ts) : Follows parseText p (Thi.parseText ts) := by
  obtain ⟨p1, hg, hl⟩ := @look_leads p ts 0 h
  rw [Thi.parseText, @look_eq ts 0]
  refine .after hl hg ?_
  by_cases ht : (tokenAt (strip ts) 0).type = .text
  · rw [if_pos ht, if_pos ht, ← bind_pure (Thi.next .text ts)]
    exact .token hg.ahead rfl TokenType.noConfusion fun hg => .ok Process.leads_pure ⟨hg.ahead, rfl⟩ rfl
  rw [if_neg ht, if_neg ht]
  by_cases hr : (tokenAt (strip ts) 0).type = .rpar
  · rw [if_pos hr]
    have hdone : (Process.repeatUntil tokensRound (tokenAt (strip ts) 0, [])).Leads p1 (some (.ok ([], p1))) := by
      refine Process.Leads.done ?_
      rw [tokensRound, if_pos hr]
      exact Process.leads_pure
    exact .error (by decide) (Process.Leads.bind hdone Process.leads_throw)
  rw [if_neg hr]
  have hfirst := first_ne hr
  dsimp only
  by_cases he : (ts.dropWhile fun t => t.type != .rpar).isEmpty = true
  · rw [if_pos he]
    exact .endless (Process.Leads.bind_none (tokens_forever (dropWhile_isEmpty.mp he) hr hg.ahead))
  · rw [if_neg he]
    rw [dropWhile_isEmpty] at he
    push Not at he
    obtain ⟨p2, hg2, hl2⟩ := tokens_leads [] he (iff_of_false hr hfirst) hg.ahead
    refine .ok (Process.Leads.bind hl2 ?_) hg2 rfl
    rw [List.nil_append, takeWhile_text h.proper hfirst (by
      rintro rfl
      exact absurd he.choose_spec.1 List.not_mem_nil)]
    exact Process.leads_pure

/-- What is done with the value of a process. -/
lemma Follows.map {α β : Type} {x : ParserM α} {f : α → β} {r : Except String (α × List Token)} (h : Follows x p r) :
    Follows (f <$> x) p (r >>= fun (a, ts) => .ok (f a, ts)) := by
  cases h with
  | ok hl hg hn => exact .ok (Process.Leads.map hl) hg hn
  | error he hl => exact .error he (Process.Leads.map_error hl)
  | endless hl => exact .endless (Process.Leads.map_none hl)

/-- A value is read as by the function on tokens. -/
lemma parseValue_follows {key : String} (h : p.Ahead ts) : Follows (parseValue key) p (Thi.parseValue key ts) := by
  have htext := fun {pair : String → Pair} => (parseText_follows h).map (f := fun s => pair (String.ofList s))
  unfold parseValue Thi.parseValue
  dsimp only
  split
  · exact .token h rfl TokenType.noConfusion fun hg => .ok Process.leads_pure ⟨hg.ahead, rfl⟩ rfl
  split
  · exact (parseList_follows rfl h).map
  split
  · exact htext
  split
  · exact htext
  split
  · exact htext
  split
  · exact (parseList_follows rfl h).map
  · exact .ok Process.leads_pure ⟨h, rfl⟩ rfl

/-- A pair is read as by the function on tokens. -/
lemma parsePair_follows (h : p.Ahead ts) : Follows parsePair p (Thi.parsePair ts) := by
  refine .token h rfl TokenType.noConfusion fun hg => ?_
  refine .token hg.ahead rfl TokenType.noConfusion fun hg => ?_
  refine (parseValue_follows hg.ahead).bind fun hg hn => ?_
  exact .token hg.ahead hn TokenType.noConfusion fun hg => .ok Process.leads_pure ⟨hg.ahead, rfl⟩ rfl

end Thorium.Thi.Generator
