-- The parser gets on and comes to an end. Wherever a reader starts in a token list, it never goes
-- back and never passes the first end mark, and an answer has taken a token at least. So every loop
-- comes to its last round, and from some room on, which grows with the tokens, no reading is too deep.
import FunkLang.Proofs.EnoughRoom
import FunkLang.Proofs.Lookahead

namespace FunkLang

/-! ## Places in a token list -/

/-- What is left of a list that is closed is closed too. -/
theorem Span.of_tokens {c c' : Cursor} {ts : List Token} (hclosed : c.Closed)
    (h : c.tokens = ts ++ c'.tokens) : Span c ts c' := by
  refine ⟨h, ?_⟩
  obtain ⟨us, last, hus, hlast⟩ := hclosed
  have hne : c'.tokens ≠ [] := List.cons_ne_nil _ _
  have hlast' : c'.tokens.getLast hne = last := by
    have hget := congrArg List.getLast? (h.symm.trans hus)
    rw [List.getLast?_append, List.getLast?_concat, List.getLast?_eq_some_getLast hne] at hget
    exact Option.some.inj hget
  exact ⟨_, last, by rw [← hlast', List.dropLast_concat_getLast], hlast⟩

namespace Cursor

variable {tokens ts : List Token} {k k' : Nat} {c c' : Cursor}

theorem closed_ofTokens (tokens : List Token) : (ofTokens tokens).Closed := by
  cases tokens with
  | nil => exact ⟨[], endMark 1, rfl, rfl⟩
  | cons first rest =>
    unfold ofTokens
    by_cases hlast : ((first :: rest).getLast (by simp)).kind = .finish
    · refine ⟨(first :: rest).dropLast, _, ?_, hlast⟩
      simp only [if_pos hlast]
      exact (List.dropLast_concat_getLast _).symm
    · refine ⟨first :: rest, endMark ((first :: rest).getLast (by simp)).line, ?_, rfl⟩
      simp only [if_neg hlast]
      rfl

theorem length_ofTokens (tokens : List Token) :
    (ofTokens tokens).tokens.length ≤ tokens.length + 1 := by
  cases tokens with
  | nil => exact Nat.le_refl _
  | cons first rest =>
    unfold ofTokens Cursor.tokens
    simp only [List.length_cons]
    split
    · omega
    · simp

/-- Some token of a list that is closed is the first end mark. -/
theorem Closed.split (h : c.Closed) : ∃ us mark rest, c.tokens = us ++ mark :: rest ∧
    mark.kind = .finish ∧ ∀ t ∈ us, t.kind ≠ .finish := by
  obtain ⟨ts, last, hts, hlast⟩ := h
  have hsome : (c.tokens.find? (·.kind == .finish)).isSome :=
    List.find?_isSome.mpr ⟨last, by simp [hts], by simp [hlast]⟩
  obtain ⟨mark, hmark⟩ := Option.isSome_iff_exists.mp hsome
  obtain ⟨hkind, us, rest, htokens, hus⟩ := List.find?_eq_some_iff_append.mp hmark
  exact ⟨us, mark, rest, htokens, beq_iff_eq.mp hkind, fun t ht => by simpa using hus t ht⟩

/-- A cursor at a place of a token list, which ends with an end mark. -/
def IsAt (tokens : List Token) (k : Nat) (c : Cursor) : Prop :=
  c.tokens = (ofTokens tokens).tokens.drop k

/-- The place of the first end mark. -/
def firstEnd (tokens : List Token) : Nat :=
  (ofTokens tokens).tokens.findIdx (·.kind == .finish)

theorem isAt_ofTokens (tokens : List Token) : (ofTokens tokens).IsAt tokens 0 := rfl

theorem IsAt.length (h : c.IsAt tokens k) :
    c.tokens.length + k = (ofTokens tokens).tokens.length := by
  have hlength := congrArg List.length h
  rw [List.length_drop] at hlength
  have hpos : 0 < c.tokens.length := by simp [Cursor.tokens]
  omega

theorem IsAt.closed (h : c.IsAt tokens k) : c.Closed := by
  have hsplit : (ofTokens tokens).tokens = (ofTokens tokens).tokens.take k ++ c.tokens := by
    rw [h, List.take_append_drop]
  exact (Span.of_tokens (closed_ofTokens tokens) hsplit).closed

/-- The tokens that are taken are those from one place to the next. -/
theorem IsAt.after (h : c.IsAt tokens k) (hspan : Span c ts c') :
    c'.IsAt tokens (k + ts.length) := by
  unfold IsAt at h ⊢
  rw [← List.drop_drop, ← h, hspan.tokens, List.drop_left]

theorem IsAt.current (h : c.IsAt tokens k) : (ofTokens tokens).tokens[k]? = some c.current :=
  getElem?_of_drop h

theorem firstEnd_lt (tokens : List Token) :
    firstEnd tokens < (ofTokens tokens).tokens.length := by
  obtain ⟨ts, last, hts, hlast⟩ := closed_ofTokens tokens
  apply List.findIdx_lt_length_of_exists
  exact ⟨last, by simp [hts], by simp [hlast]⟩

/-- An end mark stands at the place of the first one or after it. -/
theorem IsAt.firstEnd_le (h : c.IsAt tokens k) (hkind : c.current.kind = .finish) :
    firstEnd tokens ≤ k := by
  refine Nat.le_of_not_lt fun hlt => ?_
  have hnot := List.not_of_lt_findIdx hlt
  obtain ⟨_, hget⟩ := List.getElem?_eq_some_iff.mp h.current
  rw [hget, hkind] at hnot
  cases hnot

/-- Where no end mark is taken, none is passed. -/
theorem IsAt.le_firstEnd (h : c.IsAt tokens k) (hk : k ≤ firstEnd tokens) (hspan : Span c ts c')
    (hclear : ∀ t ∈ ts, t.kind ≠ .finish) : k + ts.length ≤ firstEnd tokens := by
  refine Nat.le_of_not_lt fun hlt => ?_
  obtain ⟨i, hi⟩ : ∃ i, firstEnd tokens = k + i := ⟨firstEnd tokens - k, by omega⟩
  have hinside : i < ts.length := by omega
  have hget : (ofTokens tokens).tokens[firstEnd tokens]? = some ts[i] := by
    rw [hi, ← List.getElem?_drop, ← h, hspan.tokens, List.getElem?_append_left hinside,
      List.getElem?_eq_getElem hinside]
  have hmark := List.findIdx_of_getElem?_eq_some hget
  exact hclear _ (List.getElem_mem hinside) (beq_iff_eq.mp hmark)

end Cursor

namespace Reader

open Cursor (firstEnd)
open Grammar (operand? extension? extends_extension? readsAs_byRule readsAs_statement readsAs_entry
  advances_element readsItems_blockItem readsItems_unlessAt readsItems_nextName)

/-! ## Up to the first end mark -/

section Places

variable {α : Type} {x : Reader α} {tokens : List Token} {c : Cursor}

theorem stateAfter_endsAt (d : Cursor) (r : EStateM.Result ParseError Cursor α) :
    stateAfter (endsAt d r) = d := by
  cases r <;> rfl

/-- No end mark is taken: what stands behind the first one might as well not be there. -/
theorem LooksAtCurrent.takes_no_end (h : LooksAtCurrent x) (hclosed : c.Closed) :
    ∃ ts, Span c ts (stateAfter (x c)) ∧ ∀ t ∈ ts, t.kind ≠ .finish := by
  obtain ⟨us, mark, rest, hc, hmark, hus⟩ := hclosed.split
  -- Without the rest, the reader stops at the mark at the latest.
  obtain ⟨c0, hc0⟩ : ∃ c0 : Cursor, c0.tokens = us ++ [mark] := Cursor.exists_of_ne_nil (by simp)
  obtain ⟨ts, htaken, hsame, -⟩ := h c0 ⟨us, mark, hc0, hmark⟩
  obtain ⟨vs, last, hvs, -⟩ := htaken.closed
  have htokens := htaken.tokens
  rw [hc0, hvs, ← List.append_assoc] at htokens
  obtain ⟨rfl, hlast⟩ := List.append_inj' htokens rfl
  cases hlast
  -- With it, the reader does the same, and stops at the same place.
  obtain ⟨d, hd⟩ : ∃ d : Cursor, d.tokens = vs ++ mark :: rest := Cursor.exists_of_ne_nil (by simp)
  have hspan : Span c ts d := .of_tokens hclosed (by rw [hc, hd, List.append_assoc])
  have hcurrent : d.current = (stateAfter (x c0)).current := by
    have hhead : d.tokens.head? = (stateAfter (x c0)).tokens.head? := by
      rw [hd, hvs]
      cases vs <;> rfl
    exact Option.some.inj hhead
  have hend : stateAfter (x c) = d := by
    rw [hsame c d hspan hcurrent, stateAfter_endsAt]
  exact ⟨ts, hend ▸ hspan, fun t ht => hus t (List.mem_append_left vs ht)⟩

/-- However a reading ends, it is not back before its start nor past the first end mark. -/
def Stays (tokens : List Token) (x : Reader α) : Prop :=
  ∀ k c, c.IsAt tokens k → k ≤ firstEnd tokens →
    ∃ k', (stateAfter (x c)).IsAt tokens k' ∧ k ≤ k' ∧ k' ≤ firstEnd tokens

theorem LooksAtCurrent.stays (h : LooksAtCurrent x) : Stays tokens x := by
  intro k c hc hk
  obtain ⟨ts, hspan, hclear⟩ := h.takes_no_end hc.closed
  exact ⟨_, hc.after hspan, Nat.le_add_right _ _, hc.le_firstEnd hk hspan hclear⟩

/-- An answer that is found has taken a token at least. -/
def Proceeds (tokens : List Token) (found : Cursor → α → Cursor → Prop) : Prop :=
  ∀ k k' c a c', c.IsAt tokens k → found c a c' → c'.IsAt tokens k' → k < k'

theorem proceeds_of_length {found : Cursor → α → Cursor → Prop}
    (h : ∀ c a c', c.Closed → found c a c' → c'.tokens.length < c.tokens.length) :
    Proceeds tokens found := by
  intro k k' c a c' hc hfound hc'
  have hlt := h c a c' hc.closed hfound
  have hlength := hc.length
  have hlength' := hc'.length
  omega

end Places

/-! ## Loops -/

/-- What the loops of the parser go through, round by round. -/
inductive Loop (room : Nat) : {α : Type} → Reader (Option α) → Prop
  | elements (close : Sign) (what : Expectation) (rule : Rule) :
    Loop room (unlessAt (.sign close) (withComma close what (byRule room rule)))
  | entries (close : Sign) (what : Expectation) :
    Loop room (unlessAt (.sign close) (withComma close what (entry (byRule room .expression))))
  | extensions {rule operand : Rule} (h : operand? rule = some operand) :
    Loop room (extension? room rule)
  | parameters : Loop room (led (.sign .comma) (name .nextParameter))
  | block : Loop room do
    if ← sees .finish then return none
    unlessAt (.sign .rightBrace) (statement room .list)
  | program : Loop room (unlessAt .finish (statement room .list))

namespace Loop

variable {α : Type} {room : Nat} {item : Reader (Option α)}

theorem advances (h : Loop room item) : Advances item := by
  cases h with
  | elements close what rule => exact advances_element (readsAs_byRule room rule) trivial
  | entries => exact advances_element (readsAs_entry (readsAs_byRule room .expression)) trivial
  | extensions hoperand =>
    exact (extends_extension? hoperand (readsAs_byRule room)).items.advances trivial
  | parameters => exact readsItems_nextName.advances trivial
  | block => exact (readsItems_blockItem (readsAs_statement room .list)).advances trivial
  | program => exact (readsItems_unlessAt (readsAs_statement room .list) _).advances trivial

theorem looksAtCurrent (h : Loop room item) : LooksAtCurrent item := by
  have hitem := LooksAtCurrent.statement room .list
  cases h with
  | elements close what rule => exact ((LooksAtCurrent.byRule room rule).withComma _ _).unlessAt _
  | entries => exact ((LooksAtCurrent.byRule room .expression).entry.withComma _ _).unlessAt _
  | extensions hoperand => exact .extension hoperand (LooksAtCurrent.byRule room)
  | parameters => exact .led _ (.name _)
  | block => exact (LooksAtCurrent.sees _).bind fun _ => .choose (.pure none) (.unlessAt _ hitem)
  | program => exact .unlessAt _ hitem

end Loop

/-! ## What is asked of the parser -/

section Bounds

variable {α : Type} {tokens : List Token}

/-- From some room on, which grows with the tokens that are left, a reading is not too deep, and
more room changes nothing. -/
def Bounded (tokens : List Token) (read : Nat → Reader α) : Prop :=
  ∀ k c, c.IsAt tokens k → ∀ room, 14 * c.tokens.length + 15 ≤ room →
    read room c = read (14 * c.tokens.length + 15) c ∧ ¬ TooDeep (read room c)

theorem bounded_of_lasts {read : Nat → Reader α} (extra : Nat) (hextra : extra ≤ 15)
    (h : ∀ c : Cursor, c.Closed →
      Lasts (14 * c.tokens.length + extra) c fun room => read room c) : Bounded tokens read := by
  intro k c hc room hroom
  have hlasts := (h c hc.closed).mono (Nat.add_le_add_left hextra _)
  have hsame := hlasts.same room hroom
  exact ⟨hsame, hsame ▸ hlasts.shallow⟩

/-- In a token list a reader stays, goes on where it gives an answer, and always ends. -/
structure GetsOn (tokens : List Token) (read : Nat → Reader α) : Prop where
  stays : ∀ room, Stays tokens (read room)
  proceeds : ∀ room, Proceeds tokens fun c a c' => read room c = .ok a c'
  bounded : Bounded tokens read

/-- Each round of a loop goes on, and the loop is repeated until there is no item. -/
structure ComesToEnd (tokens : List Token) (item : Reader (Option α)) : Prop where
  stays : Stays tokens item
  proceeds : Proceeds tokens fun c a c' => item c = .ok (some a) c'
  repeated : ∀ k c, c.IsAt tokens k → many item c = (item >>= others (many item)) c

end Bounds

section Parser

variable (tokens : List Token)

theorem byRule_getsOn (rule : Rule) : GetsOn tokens fun room => byRule room rule where
  stays room := (LooksAtCurrent.byRule room rule).stays
  proceeds room := proceeds_of_length fun _ _ _ =>
    length_lt_of_readsAs (readsAs_byRule room rule) trivial
  bounded := bounded_of_lasts rule.height (Nat.le_succ_of_le rule.height_le) fun _ =>
    lasts_byRule rule

theorem statement_getsOn (place : Place) : GetsOn tokens fun room => statement room place where
  stays room := (LooksAtCurrent.statement room place).stays
  proceeds room := proceeds_of_length fun _ _ _ =>
    length_lt_of_readsAs (readsAs_statement room place) trivial
  bounded := bounded_of_lasts place.height (by cases place <;> decide) fun _ =>
    lasts_statement place

theorem Loop.comesToEnd {α : Type} {room : Nat} {item : Reader (Option α)} (h : Loop room item) :
    ComesToEnd tokens item where
  stays := h.looksAtCurrent.stays
  proceeds := by
    refine proceeds_of_length fun c a c' hclosed hfound => ?_
    obtain ⟨ts, hspan, hne⟩ := h.advances.found c a c' hclosed hfound
    have hlength := hspan.length
    have hpos := List.length_pos_iff.mpr hne
    omega
  repeated k c hc := many_eq h.advances hc.closed

/-- A program that is read goes up to the first end mark. -/
theorem program_ends {room : Nat} {all : List Stmt} {c : Cursor}
    (h : program room (.ofTokens tokens) = .ok all c) : c.IsAt tokens (firstEnd tokens) := by
  have hstart := Cursor.isAt_ofTokens tokens
  obtain ⟨k, hk, -, hle⟩ := (LooksAtCurrent.program room).stays 0 _ hstart (Nat.zero_le _)
  rw [h] at hk
  have hloop : Loop room (unlessAt .finish (statement room .list)) := .program
  have hnone := (row_of_many hloop.advances hstart.closed h).2
  rcases unlessAt_eq_ok.mp hnone with ⟨-, s, -, heq⟩ | ⟨hkind, -, -⟩
  · cases heq
  · rwa [← Nat.le_antisymm hle (hk.firstEnd_le hkind)]

end Parser
end Reader

open Reader in
/-- The parser gets on and comes to an end, whatever the tokens are and wherever end marks stand
among them. No method goes back or passes the first end mark, and one that gives an expression or a
statement has taken a token. A loop is repeated until there is no item, and each round of it takes
a token. How deep the methods go one inside the other is bounded by the tokens that are left, so
from some room on, which grows with the number of tokens, parsing has one outcome: the program up
to the first end mark, or an error that is not about the nesting. -/
theorem parsing_gets_on_and_ends (tokens : List Token) :
    Cursor.firstEnd tokens < (Cursor.ofTokens tokens).tokens.length ∧
    (∀ rule, GetsOn tokens fun room => byRule room rule) ∧
    (∀ place, GetsOn tokens fun room => statement room place) ∧
    (∀ room (α : Type) (item : Reader (Option α)), Loop room item → ComesToEnd tokens item) ∧
    (∀ room, Stays tokens (program room) ∧ ∀ all c,
      program room (.ofTokens tokens) = .ok all c → c.IsAt tokens (Cursor.firstEnd tokens)) ∧
    ∀ room, 14 * tokens.length + 29 ≤ room →
      parseTokens room tokens = parseTokens (14 * tokens.length + 29) tokens ∧
        ∀ t, parseTokens room tokens ≠ .error ⟨.tooDeep, t⟩ := by
  refine ⟨Cursor.firstEnd_lt tokens, byRule_getsOn tokens, statement_getsOn tokens,
    fun room α item h => h.comesToEnd tokens,
    fun room => ⟨(LooksAtCurrent.program room).stays, fun all c => program_ends tokens⟩, ?_⟩
  intro room hroom
  have hlength := Cursor.length_ofTokens tokens
  have hlasts : Lasts (14 * tokens.length + 29) (.ofTokens tokens)
      fun room => program room (.ofTokens tokens) :=
    (lasts_program (Cursor.closed_ofTokens tokens)).mono (by omega)
  unfold parseTokens
  rw [hlasts.same room hroom]
  refine ⟨rfl, fun t hdeep => hlasts.shallow ?_⟩
  split at hdeep
  · cases hdeep
  · rename_i e c herror
    cases hdeep
    exact ⟨t, c, herror⟩

/-- The declaration is not over where the first end mark stands, whatever comes after it. -/
example : parseTokens 113 [⟨.word .make, "make", 1⟩, ⟨.atom .name, "x", 1⟩, endMark 1,
    ⟨.sign .semicolon, ";", 2⟩, endMark 2] = .error ⟨.expected .makeEnd, endMark 1⟩ := rfl

end FunkLang
