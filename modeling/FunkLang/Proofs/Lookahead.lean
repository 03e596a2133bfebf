-- Reading without looking ahead. What a reader does is decided by the tokens up to the one where it
-- stops: before other tokens it does the same, and stops there too. What it misses, it misses at
-- that token. The law is one of single readers, and goes from the parts of a reader to the whole.
import FunkLang.Proofs.DerivedStatements

namespace FunkLang
namespace Reader

open Grammar (operand? logicalRule tierRule extension? byRule_extended extension?_logical
  extension?_binary rule_cases extends_extension? readsAs_byRule advances_element readsAs_entry
  readsItems_blockItem readsItems_unlessAt readsItems_nextName readsAs_statement ReadsAs)

/-! ## Decided readings -/

section Decided

variable {α β : Type}

/-- The same end, at another cursor. -/
def endsAt (d : Cursor) : EStateM.Result ParseError Cursor α → EStateM.Result ParseError Cursor α
  | .ok a _ => .ok a d
  | .error e _ => .error e d

/-- A reading from a cursor takes these tokens. Wherever they lead to the token at which it stops,
it ends the same, and what it expected there and missed is said of this token. -/
structure Decided (x : Reader α) (c : Cursor) (ts : List Token) : Prop where
  taken : Span c ts (stateAfter (x c))
  same : ∀ c' d', Span c' ts d' → d'.current = (stateAfter (x c)).current →
    x c' = endsAt d' (x c)
  blames : ∀ e, error? (x c) = some e → e.problem ≠ .badTarget →
    e.token = (stateAfter (x c)).current

/-- A reader never looks past the current token. -/
def LooksAtCurrent (x : Reader α) : Prop := ∀ c : Cursor, c.Closed → ∃ ts, Decided x c ts

variable {x y : Reader α} {f : α → Reader β} {c c' d d' : Cursor} {ts : List Token}

theorem Decided.of_eq (hy : Decided y c ts) (h : ∀ c' : Cursor, c'.Closed → x c' = y c') :
    Decided x c ts := by
  obtain ⟨htaken, hsame, hblames⟩ := hy
  have hc := h c htaken.start
  refine ⟨hc ▸ htaken, fun c' d' hspan hcurrent => ?_, hc ▸ hblames⟩
  rw [hc] at hcurrent ⊢
  rw [h c' hspan.start]
  exact hsame c' d' hspan hcurrent

theorem Decided.of_ok {a : α} (h : x c = .ok a d) (htaken : Span c ts d)
    (hsame : ∀ c' d', Span c' ts d' → d'.current = d.current → x c' = .ok a d') :
    Decided x c ts := by
  constructor
  · rw [h]
    exact htaken
  · intro c' d' hspan hcurrent
    rw [h] at hcurrent ⊢
    exact hsame c' d' hspan hcurrent
  · intro e he
    rw [h] at he
    cases he

/-- The same tokens before the same one begin with the same one. -/
theorem current_eq_of_spans (h : Span c ts d) (h' : Span c' ts d') (hd : d'.current = d.current) :
    c'.current = c.current := by
  cases ts with
  | nil => rwa [h.eq_of_nil, h'.eq_of_nil]
  | cons t ts => rw [h.current_eq, h'.current_eq]

/-- One reading after another: the first of them stops at the token with which the other begins. -/
theorem Decided.bind (hx : Decided x c ts)
    (hf : ∀ a d, x c = .ok a d → d.Closed → ∃ us, Decided (f a) d us) :
    ∃ us, Decided (x >>= f) c us := by
  obtain ⟨htaken, hsame, hblames⟩ := hx
  cases h : x c with
  | error e d =>
    rw [h] at htaken hsame hblames
    have hrun : (x >>= f) c = .error e d := bind_of_error h
    refine ⟨ts, ?_, ?_, ?_⟩
    · rw [hrun]
      exact htaken
    · intro c' d' hspan hcurrent
      rw [hrun] at hcurrent ⊢
      exact bind_of_error (hsame c' d' hspan hcurrent)
    · rw [hrun]
      exact hblames
  | ok a d =>
    rw [h] at htaken hsame
    have hrun : (x >>= f) c = f a d := bind_of_ok h
    obtain ⟨us, htaken', hsame', hblames'⟩ := hf a d h htaken.closed
    refine ⟨ts ++ us, ?_, ?_, ?_⟩
    · rw [hrun]
      exact htaken.trans htaken'
    · intro c' d' hspan hcurrent
      rw [hrun] at hcurrent ⊢
      obtain ⟨c1, hspan1, hspan2⟩ := hspan.split
      have hmiddle := current_eq_of_spans htaken' hspan2 hcurrent
      exact (bind_of_ok (hsame c' c1 hspan1 hmiddle)).trans (hsame' c1 d' hspan2 hcurrent)
    · rw [hrun]
      exact hblames'

namespace LooksAtCurrent

theorem pure (a : α) : LooksAtCurrent (Pure.pure a) := by
  intro c hclosed
  refine ⟨[], .of_ok rfl (Span.refl hclosed) fun c' d' hspan _ => ?_⟩
  cases hspan.eq_of_nil
  rfl

theorem bind (hx : LooksAtCurrent x) (hf : ∀ a, LooksAtCurrent (f a)) :
    LooksAtCurrent (x >>= f) := by
  intro c hclosed
  obtain ⟨ts, hts⟩ := hx c hclosed
  exact hts.bind fun a d _ hd => hf a d hd

theorem fail (problem : ParseProblem) : LooksAtCurrent (Reader.fail problem : Reader α) := by
  intro c hclosed
  refine ⟨[], Span.refl hclosed, fun c' d' hspan hcurrent => ?_, ?_⟩
  · cases hspan.eq_of_nil
    unfold Reader.fail
    rw [hcurrent]
    rfl
  · rintro e ⟨⟩ -
    rfl

/-- What is no target is blamed on its equals sign. -/
theorem throw_badTarget (t : Token) : LooksAtCurrent (throw ⟨.badTarget, t⟩ : Reader α) := by
  intro c hclosed
  refine ⟨[], Span.refl hclosed, fun c' d' hspan _ => ?_, ?_⟩
  · cases hspan.eq_of_nil
    rfl
  · rintro e ⟨⟩ hne
    exact absurd rfl hne

theorem peek : LooksAtCurrent Reader.peek := by
  intro c hclosed
  refine ⟨[], .of_ok peek_ok (Span.refl hclosed) fun c' d' hspan hcurrent => ?_⟩
  cases hspan.eq_of_nil
  rw [peek_ok, hcurrent]

theorem next : LooksAtCurrent Reader.next := by
  intro c hclosed
  have hnext : ∀ c, Reader.next c = .ok c.current c.advance := fun _ => rfl
  by_cases hkind : c.current.kind = .finish
  · have hstays := hnext c
    rw [c.advance_of_finish hkind] at hstays
    refine ⟨[], .of_ok hstays (Span.refl hclosed) fun c' d' hspan hcurrent => ?_⟩
    cases hspan.eq_of_nil
    have hkind' : c'.current.kind = .finish := hcurrent ▸ hkind
    rw [hnext, c'.advance_of_finish hkind', hcurrent]
  · refine ⟨[c.current], .of_ok (hnext c) (Span.next hclosed hkind) fun c' d' hspan _ => ?_⟩
    have hfirst := hspan.current_eq
    rw [hnext, hspan.eq_advance hkind, hfirst]

theorem choose {b : Bool} (hx : LooksAtCurrent x) (hy : LooksAtCurrent y) :
    LooksAtCurrent (if b then x else y) := by
  cases b with
  | true => exact hx
  | false => exact hy

/-! ## Small readers -/

theorem sees (kind : Kind) : LooksAtCurrent (Reader.sees kind) := by
  unfold Reader.sees
  exact peek.bind fun first => pure (first.kind == kind)

theorem expect (kind : Kind) (what : Expectation) : LooksAtCurrent (Reader.expect kind what) :=
  (sees kind).bind fun _ => choose next (fail _)

theorem name (what : Expectation) : LooksAtCurrent (Reader.name what) :=
  (expect _ what).bind fun _ => pure _

theorem take? {κ : Type} (as? : Kind → Option κ) : LooksAtCurrent (Reader.take? as?) := by
  apply peek.bind
  intro first
  cases as? first.kind with
  | some kind => exact next.bind fun _ => pure _
  | none => exact pure _

theorem skip (kind : Kind) : LooksAtCurrent (Reader.skip kind) :=
  (sees kind).bind fun _ => choose (next.bind fun _ => pure _) (pure _)

theorem led (kind : Kind) (h : LooksAtCurrent x) : LooksAtCurrent (Reader.led kind x) :=
  (skip kind).bind fun _ => choose (h.bind fun _ => pure _) (pure _)

theorem unlessAt (kind : Kind) (h : LooksAtCurrent x) : LooksAtCurrent (Reader.unlessAt kind x) :=
  (sees kind).bind fun _ => choose (pure _) (h.bind fun _ => pure _)

theorem withComma (close : Sign) (what : Expectation) (h : LooksAtCurrent x) :
    LooksAtCurrent (Reader.withComma close what x) := by
  apply h.bind
  intro a
  exact (sees _).bind fun _ => choose (pure _) ((expect _ what).bind fun _ => pure _)

theorem many {item : Reader (Option α)} (h : LooksAtCurrent item) (hitem : Advances item) :
    LooksAtCurrent (Reader.many item) := by
  intro c hclosed
  -- Each item takes a token, so fewer are left for those after it.
  induction hlength : c.tokens.length using Nat.strongRecOn generalizing c with
  | ind length ih =>
    obtain ⟨ts, hts⟩ := h c hclosed
    suffices hstep : ∃ us, Decided (item >>= others (Reader.many item)) c us by
      obtain ⟨us, hus⟩ := hstep
      exact ⟨us, hus.of_eq fun c' hc' => many_eq hitem hc'⟩
    apply hts.bind
    intro a? d hfirst hd
    cases a? with
    | none => exact pure _ d hd
    | some a =>
      obtain ⟨vs, hspan, hne⟩ := hitem.found c a d hclosed hfirst
      have hshorter : d.tokens.length < length := by
        have hcount := hspan.length
        have hpos := List.length_pos_iff.mpr hne
        omega
      obtain ⟨us, hus⟩ := ih _ hshorter d hd rfl
      exact hus.bind fun rest d' _ hd' => pure _ d' hd'

/-- Items with commas between them, each of which takes a token. -/
theorem separated {item : Grammar.Symbol} {read : Reader item.Tree} (close : Sign)
    (what : Expectation) (h : LooksAtCurrent read) (hread : ReadsAs item read)
    (hsingle : Grammar.Single item) : LooksAtCurrent (Reader.separated close what read) :=
  many (unlessAt _ (withComma close what h)) (advances_element hread hsingle)

end LooksAtCurrent

end Decided

/-! ## Expressions -/

namespace LooksAtCurrent

section Expressions

variable {element inner value first : Reader Expr} {extend? : Reader (Option Extension)}

theorem entry (h : LooksAtCurrent value) : LooksAtCurrent (Reader.entry value) :=
  (name _).bind fun _ => (expect _ _).bind fun _ => h.bind fun _ => pure _

theorem primary (helement : LooksAtCurrent element) (hinner : LooksAtCurrent inner)
    (relement : ReadsAs (.phrase .element) element)
    (rinner : ReadsAs (.phrase .expression) inner) :
    LooksAtCurrent (Reader.primary element inner) := by
  apply peek.bind
  intro opening
  split
  · exact next.bind fun _ => pure _
  · apply next.bind
    intro _
    apply (separated _ _ helement relement trivial).bind
    exact fun _ => (expect _ _).bind fun _ => pure _
  · apply next.bind
    intro _
    apply (separated _ _ (entry hinner) (readsAs_entry rinner) trivial).bind
    exact fun _ => (expect _ _).bind fun _ => pure _
  · exact next.bind fun _ => hinner.bind fun _ => (expect _ _).bind fun _ => pure _
  · exact fail _

theorem suffix? (helement : LooksAtCurrent element) (hinner : LooksAtCurrent inner)
    (relement : ReadsAs (.phrase .argument) element) :
    LooksAtCurrent (Reader.suffix? element inner) := by
  apply peek.bind
  intro opening
  split
  · apply next.bind
    intro _
    apply (separated _ _ helement relement trivial).bind
    exact fun _ => (expect _ _).bind fun _ => pure _
  · exact next.bind fun _ => hinner.bind fun _ => (expect _ _).bind fun _ => pure _
  · exact next.bind fun _ => (name _).bind fun _ => pure _
  · exact pure _

theorem binary? (tier : Tier) (h : LooksAtCurrent value) :
    LooksAtCurrent (Reader.binary? tier value) := by
  apply (take? _).bind
  intro op?
  cases op? with
  | some op => exact h.bind fun _ => pure _
  | none => exact pure _

theorem logical? (op : LogicalOp) (h : LooksAtCurrent value) :
    LooksAtCurrent (Reader.logical? op value) := led _ (h.bind fun _ => pure _)

theorem choice? (h : LooksAtCurrent value) : LooksAtCurrent (Reader.choice? value) :=
  led _ (h.bind fun _ => (expect _ _).bind fun _ => h.bind fun _ => pure _)

theorem extended (hfirst : LooksAtCurrent first) (hextend : LooksAtCurrent extend?)
    (hadvances : Advances extend?) : LooksAtCurrent (Reader.extended first extend?) :=
  hfirst.bind fun _ => (many hextend hadvances).bind fun _ => pure _

theorem assignTo (target : Expr) (equals : Token) (value : Expr) :
    LooksAtCurrent (Reader.assignTo target equals value) := by
  rw [Grammar.assignTo_eq]
  cases Grammar.assignment? value target with
  | some e => exact pure e
  | none => exact throw_badTarget equals

theorem extension {rule operand : Rule} {room : Nat} (hoperand : operand? rule = some operand)
    (hparts : ∀ rule, LooksAtCurrent (Reader.byRule room rule)) :
    LooksAtCurrent (extension? room rule) := by
  rcases rule_cases hoperand with rfl | ⟨op, rfl⟩ | ⟨tier, rfl⟩ | rfl
  · exact choice? (hparts _)
  · rw [extension?_logical hoperand]
    exact logical? op (hparts _)
  · rw [extension?_binary hoperand]
    exact binary? tier (hparts _)
  · exact suffix? (hparts _) (hparts _) (readsAs_byRule room .argument)

theorem byRule (room : Nat) (rule : Rule) : LooksAtCurrent (Reader.byRule room rule) := by
  induction room generalizing rule with
  | zero => exact fail _
  | succ room ih =>
    cases hoperand : operand? rule with
    | some operand =>
      rw [byRule_extended hoperand]
      have hextends := extends_extension? hoperand (readsAs_byRule room)
      exact extended (ih operand) (extension hoperand ih) (hextends.items.advances trivial)
    | none =>
      cases rule with
      | expression => exact ih .assignment
      | argument => exact ih .element
      | element => exact ih .expression
      | assignment =>
        apply (ih .choice).bind
        intro target
        apply (sees _).bind
        intro seen
        apply choose
        · exact next.bind fun equals => (ih .assignment).bind fun value => assignTo _ _ _
        · exact pure target
      | unary =>
        apply (take? _).bind
        intro op?
        cases op? with
        | some op => exact (ih .unary).bind fun _ => pure _
        | none => exact ih .suffixed
      | primary =>
        have relement := readsAs_byRule room .element
        exact primary (ih .element) (ih .expression) relement (readsAs_byRule room .expression)
      | _ => cases hoperand

theorem expression (room : Nat) : LooksAtCurrent (Reader.expression room) := byRule room .expression

end Expressions

/-! ## Statements -/

section Statements

variable {item body : Reader Stmt} {value : Reader Expr}

theorem ended {α : Type} {x : Reader α} (what : Expectation) (h : LooksAtCurrent x) :
    LooksAtCurrent (Reader.ended what x) := h.bind fun _ => (expect _ what).bind fun _ => pure _

theorem blockRest (h : LooksAtCurrent item) (hread : ReadsAs (.statement .list) item) :
    LooksAtCurrent (Reader.blockRest item) := by
  have hitem := (sees .finish).bind fun seen =>
    choose (b := seen) (pure none) (unlessAt (.sign .rightBrace) h)
  apply (many hitem ((readsItems_blockItem hread).advances trivial)).bind
  exact fun _ => (expect _ _).bind fun _ => pure _

theorem parameters : LooksAtCurrent Reader.parameters := by
  apply (sees _).bind
  intro seen
  apply choose
  · exact pure []
  · apply (name _).bind
    intro first
    apply (many (led _ (name _)) (readsItems_nextName.advances trivial)).bind
    exact fun _ => pure _

theorem functionRest (line : Int) (h : LooksAtCurrent item)
    (hread : ReadsAs (.statement .list) item) : LooksAtCurrent (Reader.functionRest line item) := by
  apply (name _).bind
  intro title
  apply (expect _ _).bind
  intro _
  apply parameters.bind
  intro params
  apply (expect _ _).bind
  intro _
  apply (expect _ _).bind
  intro opening
  exact (blockRest h hread).bind fun _ => pure _

theorem makeRest (line : Int) (h : LooksAtCurrent value) :
    LooksAtCurrent (Reader.makeRest line value) :=
  (name _).bind fun _ => (ended _ (led _ h)).bind fun _ => pure _

theorem ifRest (line : Int) (h : LooksAtCurrent value) (hbody : LooksAtCurrent body) :
    LooksAtCurrent (Reader.ifRest line value body) :=
  h.bind fun _ => hbody.bind fun _ => (led _ hbody).bind fun _ => pure _

theorem whileRest (line : Int) (h : LooksAtCurrent value) (hbody : LooksAtCurrent body) :
    LooksAtCurrent (Reader.whileRest line value body) := h.bind fun _ => hbody.bind fun _ => pure _

theorem withRest (line : Int) (h : LooksAtCurrent value) (hbody : LooksAtCurrent body) :
    LooksAtCurrent (Reader.withRest line value body) :=
  h.bind fun _ => (expect _ _).bind fun _ => (name _).bind fun _ => hbody.bind fun _ => pure _

theorem forRest (line : Int) (h : LooksAtCurrent value) (hbody : LooksAtCurrent body) :
    LooksAtCurrent (Reader.forRest line value body) :=
  (name _).bind fun _ => (expect _ _).bind fun _ => h.bind fun _ => hbody.bind fun _ => pure _

theorem statement : ∀ room place, LooksAtCurrent (Reader.statement room place) := by
  refine statement.induct _ ?list ?body ?shallow
  case list =>
    intro room ihlist ihbody
    unfold Reader.statement
    apply peek.bind
    intro first
    split
    · exact next.bind fun _ => functionRest _ ihlist (readsAs_statement room .list)
    · exact next.bind fun _ => makeRest _ (expression _)
    · exact ihbody
  case body =>
    intro room ihlist ihbody
    simp only [Reader.statement]
    apply peek.bind
    intro first
    split
    · exact next.bind fun _ => (ended _ (expression _)).bind fun _ => pure _
    · apply next.bind
      exact fun _ => (blockRest ihlist (readsAs_statement room .list)).bind fun _ => pure _
    · exact next.bind fun _ => ifRest _ (expression _) ihbody
    · exact next.bind fun _ => whileRest _ (expression _) ihbody
    · exact next.bind fun _ => (ended _ (unlessAt _ (expression _))).bind fun _ => pure _
    · exact next.bind fun _ => withRest _ (expression _) ihbody
    · exact next.bind fun _ => forRest _ (expression _) ihbody
    · exact (ended _ (expression _)).bind fun _ => pure _
  case shallow =>
    intro room place h1 h2
    rw [statement.eq_3 room place h1 h2]
    exact fail _

theorem program (room : Nat) : LooksAtCurrent (Reader.program room) := by
  have hread := readsAs_statement room .list
  exact many (unlessAt _ (statement room .list)) ((readsItems_unlessAt hread _).advances trivial)

end Statements

end LooksAtCurrent
end Reader

/-! ## Programs -/

/-- The last token of a list is an end mark. -/
def EndsAtMark (tokens : List Token) : Prop :=
  ∃ ts last, tokens = ts ++ [last] ∧ last.kind = .finish

variable {tokens other : List Token} {k room : Nat}

theorem EndsAtMark.ofTokens (h : EndsAtMark tokens) :
    (Cursor.ofTokens tokens).tokens = tokens ∧ (Cursor.ofTokens tokens).Closed := by
  obtain ⟨ts, last, rfl, hlast⟩ := h
  have htokens : (Cursor.ofTokens (ts ++ [last])).tokens = ts ++ [last] := by
    cases ts with
    | nil => simp [Cursor.ofTokens, Cursor.tokens, hlast]
    | cons t rest => simp [Cursor.ofTokens, Cursor.tokens, List.getLast_cons, hlast]
  exact ⟨htokens, ts, last, htokens, hlast⟩

theorem getElem?_of_drop {c : Cursor} (h : c.tokens = tokens.drop k) :
    tokens[k]? = some c.current := by
  rw [← List.head?_drop, ← h]
  rfl

/-- Lists that share their tokens up to a place have cursors there with the same current token. -/
theorem exists_cursor_at {c : Cursor} (ends : EndsAtMark other)
    (share : tokens.take (k + 1) = other.take (k + 1)) (here : c.tokens = tokens.drop k) :
    ∃ d : Cursor, d.tokens = other.drop k ∧ d.current = c.current ∧
      Span (Cursor.ofTokens other) (tokens.take k) d := by
  have hcurrent := getElem?_of_drop here
  have hother : other[k]? = some c.current := by
    have hget := congrArg (fun ts : List Token => ts[k]?) share
    simpa [hcurrent] using hget.symm
  obtain ⟨hk, hget⟩ := List.getElem?_eq_some_iff.mp hother
  have hdrop := List.drop_eq_getElem_cons hk
  rw [hget] at hdrop
  have htake : tokens.take k = other.take k := by
    have hfront := congrArg (List.take k) share
    simpa [List.take_take] using hfront
  obtain ⟨htokens, ts, last, hts, hlast⟩ := ends.ofTokens
  refine ⟨⟨c.current, other.drop (k + 1)⟩, hdrop.symm, rfl, ?_, ?_⟩
  · rw [htokens, htake]
    change other = other.take k ++ c.current :: other.drop (k + 1)
    rw [← hdrop, List.take_append_drop]
  · rw [htokens] at hts
    change ∃ ts last, c.current :: other.drop (k + 1) = ts ++ [last] ∧ last.kind = .finish
    rw [← hdrop]
    refine ⟨ts.drop k, last, ?_, hlast⟩
    rw [hts, List.length_append, List.length_singleton] at hk
    rw [hts, List.drop_append_of_le_length (Nat.le_of_lt_succ hk)]

open Reader in
/-- Parsing never looks past the current token. However it ends, with this place for the current
token, it ends alike for all tokens that are the same up to there. If something was expected there
and is missing, all of them miss it, at the token of this place. Each rule of the grammar does the
same with the tokens that it is given. -/
theorem parsing_is_decided_by_the_tokens_so_far (room k : Nat) (ends : EndsAtMark tokens)
    (ends' : EndsAtMark other)
    (share : tokens.take (k + 1) = other.take (k + 1))
    (here : (stateAfter (program room (.ofTokens tokens))).tokens = tokens.drop k) :
    (∀ what t, parseTokens room tokens = .error ⟨.expected what, t⟩ →
      tokens[k]? = some t ∧ other[k]? = some t ∧
        parseTokens room other = .error ⟨.expected what, t⟩) ∧
    (∃ d : Cursor, d.tokens = other.drop k ∧
      program room (.ofTokens other) = endsAt d (program room (.ofTokens tokens))) ∧
    (∀ rule, LooksAtCurrent (byRule room rule)) ∧
    ∀ place, LooksAtCurrent (statement room place) := by
  obtain ⟨htokens, hclosed⟩ := ends.ofTokens
  obtain ⟨ts, hspan, hsame, hblames⟩ := LooksAtCurrent.program room _ hclosed
  obtain ⟨d, hd, hcurrent, hspan'⟩ := exists_cursor_at ends' share here
  have hts : ts = tokens.take k := by
    rw [← List.append_left_inj (tokens.drop k), List.take_append_drop, ← here, ← hspan.tokens,
      htokens]
  have hrun := hsame _ d (hts ▸ hspan') hcurrent
  refine ⟨fun what t hfails => ?_, ⟨d, hd, hrun⟩, LooksAtCurrent.byRule room,
    LooksAtCurrent.statement room⟩
  unfold parseTokens at hfails ⊢
  rw [hrun]
  cases h : program room (.ofTokens tokens) with
  | ok all c =>
    rw [h] at hfails
    cases hfails
  | error e c =>
    rw [h] at hfails hblames here hcurrent
    cases hfails
    have ht : t = c.current := hblames _ rfl nofun
    refine ⟨ht ▸ getElem?_of_drop here, ?_, rfl⟩
    rw [ht, getElem?_of_drop hd, hcurrent]
    rfl

/-- A name is missed at the number that stands in its place, whatever comes after that. -/
theorem a_missing_name_is_missed_before_any_rest :
    let make : Token := ⟨.word .make, "make", 1⟩
    let one : Token := ⟨.atom .number, "1", 2⟩
    let tokens := [make, one, ⟨.sign .semicolon, ";", 2⟩, endMark 3]
    let other := [make, one, ⟨.word .funk, "funk", 2⟩, ⟨.sign .dot, ".", 4⟩, endMark 5]
    EndsAtMark tokens ∧ EndsAtMark other ∧ tokens.take (1 + 1) = other.take (1 + 1) ∧
      parseTokens 30 tokens = .error ⟨.expected .makeName, one⟩ ∧
      parseTokens 30 other = .error ⟨.expected .makeName, one⟩ := by
  intro make one tokens other
  have ends : EndsAtMark tokens := ⟨[make, one, ⟨.sign .semicolon, ";", 2⟩], endMark 3, rfl, rfl⟩
  have ends' : EndsAtMark other :=
    ⟨[make, one, ⟨.word .funk, "funk", 2⟩, ⟨.sign .dot, ".", 4⟩], endMark 5, rfl, rfl⟩
  have fails : parseTokens 30 tokens = .error ⟨.expected .makeName, one⟩ := rfl
  have hall := parsing_is_decided_by_the_tokens_so_far 30 1 ends ends' rfl rfl
  exact ⟨ends, ends', rfl, fails, (hall.1 _ _ fails).2.2⟩

end FunkLang
