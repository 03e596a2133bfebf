-- Numerals. A text of digits, with or without a fraction, is a script of one token.
-- A text is converted to a number when such a text is left of it without the blanks
-- around it and one minus sign. Both ways the number is the nearest one to the
-- exact value.
import FunkLang.Eval
import FunkLang.Proofs.Rounding
import FunkLang.Proofs.Splitting

namespace FunkLang

/-! ## Reading a numeral -/

namespace Numeral

variable {n : Numeral} {text : List Char}

theorem front_self (h : n.Digits) : front n.text = (n, []) := by
  have hfront := front_text h afterWord_nil
  rw [List.append_nil] at hfront
  exact hfront

theorem ofText?_eq_some : ofText? text = some n ↔ n.Digits ∧ text = n.text := by
  constructor
  · intro h
    have hwhole := front_append text
    unfold ofText? at h
    split at h
    · rename_i found heq
      split at h
      · cases h
      · rename_i hsome
        cases h
        rw [heq, List.append_nil] at hwhole
        refine ⟨?_, hwhole.symm⟩
        have hdigits := whole_front text
        rw [heq] at hdigits
        rw [hdigits] at hsome
        cases text with
        | nil => simp at hsome
        | cons c rest =>
          by_cases hc : c.isDigit
          · have hfront : (front (c :: rest)).1.Digits := front_digits hc
            rw [heq] at hfront
            exact hfront
          · rw [List.takeWhile_cons_of_neg hc] at hsome
            simp at hsome
    · cases h
  · rintro ⟨h, rfl⟩
    unfold ofText?
    rw [front_self h]
    simp [h.some_whole]

theorem Digits.text_ne_minus (h : n.Digits) (rest : List Char) : n.text ≠ '-' :: rest := by
  obtain ⟨d, more, htext, hdigit⟩ := h.text_eq
  rw [htext]
  rintro ⟨⟩
  cases hdigit

theorem Digits.lineEnds_eq (h : n.Digits) : lineEnds n.text = 0 := by
  have hnone : '\n' ∉ n.text := by
    intro hmem
    unfold text at hmem
    split at hmem
    · exact Bool.noConfusion (h.whole _ hmem)
    · rcases List.mem_append.mp hmem with hmem | hmem
      · exact Bool.noConfusion (h.whole _ hmem)
      · rcases List.mem_cons.mp hmem with hpoint | hmem
        · cases hpoint
        · exact Bool.noConfusion (h.fraction _ hmem)
  unfold lineEnds
  rw [List.count_eq_zero.mpr hnone]
  rfl

end Numeral

/-! ## Scripts of one number token -/

/-- A script has one token, a number that is written with all of the text. -/
def IsLiteral (text : String) : Prop :=
  scan text = .ok [⟨.atom .number, text, 1⟩, endMark 1]

theorem isLiteral_of_digits {n : Numeral} (h : n.Digits) : IsLiteral (String.ofList n.text) := by
  obtain ⟨d, more, hall, hfront⟩ := front_number h afterWord_nil
  rw [List.append_nil] at hall
  unfold IsLiteral scan
  dsimp only
  rw [String.toList_ofList, hall, List.length_cons, scanFrom_cons hfront]
  have hline : lineEnds (Cut.plain (.atom .number) n.text []).taken = 0 := h.lineEnds_eq
  rw [hline, ← hall]
  cases more <;> rfl

theorem isLiteral_iff {text : String} :
    IsLiteral text ↔ ∃ n : Numeral, n.Digits ∧ text.toList = n.text := by
  constructor
  · intro h
    obtain ⟨ts, last, htokens, hcut⟩ := cutInto_of_scan h
    have hmem : (⟨.atom .number, text, 1⟩ : Token) ∈ ts ++ [endMark last] :=
      htokens ▸ List.mem_cons_self
    rcases List.mem_append.mp hmem with hmem | hmem
    · exact (hcut.spelt _ (List.mem_map_of_mem hmem)).exists_numeral
    · cases List.mem_singleton.mp hmem
  · rintro ⟨n, hn, htext⟩
    have hliteral := isLiteral_of_digits hn
    rw [← htext, String.ofList_toList] at hliteral
    exact hliteral

/-! ## The number of a numeral -/

/-- The exact value of a numeral: the number before the point, and the parts after it. -/
def Numeral.exact (n : Numeral) : ℚ :=
  Nat.ofDigitChars 10 n.whole 0 + Nat.ofDigitChars 10 n.fraction 0 / 10 ^ n.fraction.length

theorem Numeral.exact_eq (n : Numeral) :
    n.exact = Nat.ofDigitChars 10 (n.whole ++ n.fraction) 0 / 10 ^ n.fraction.length := by
  have hparts : (10 : ℚ) ^ n.fraction.length ≠ 0 := by positivity
  rw [Nat.ofDigitChars_append, Nat.ofDigitChars_eq_ofDigitChars_zero]
  unfold exact
  push_cast
  field_simp

theorem Numeral.value_isNearest (negative : Bool) (n : Numeral) :
    (n.value negative).IsNearest negative n.exact := by
  rw [exact_eq]
  exact Number.isNearest_ofDecimal negative _ _

theorem Number.neg_ofUnits (num den : Nat) :
    (ofUnits false num den).neg = ofUnits true num den := by
  unfold ofUnits
  dsimp only
  by_cases h : nearestRank num den < finiteRanks
  · rw [dif_pos h, dif_pos h]
    rfl
  · rw [dif_neg h, dif_neg h]
    rfl

theorem Numeral.value_eq (n : Numeral) (negative : Bool) :
    n.value negative = if negative then (n.value false).neg else n.value false := by
  cases negative with
  | false => rw [if_neg Bool.false_ne_true]
  | true =>
    rw [if_pos rfl]
    exact (Number.neg_ofUnits _ _).symm

theorem Number.ofLiteral?_numeral {n : Numeral} (h : n.Digits) :
    ofLiteral? n.text = some (n.value false) := by
  have hread : Numeral.ofText? n.text = some n := Numeral.ofText?_eq_some.mpr ⟨h, rfl⟩
  unfold ofLiteral?
  rw [hread]

theorem Expr.eval_number {text : String} {x : Number} (h : Number.ofLiteral? text.toList = some x)
    (limits : Limits) (room : Nat) (line : Int) (m : Machine) :
    (Expr.atom ⟨.number, text, line⟩).eval limits (room + 3) m = .ok (.number x) m := by
  rw [Expr.eval]
  unfold Run.atom
  simp only [h]
  rfl

/-- The value of a number token that is a numeral. -/
theorem Expr.eval_numeral {n : Numeral} (h : n.Digits) {text : String}
    (htext : text.toList = n.text)
    (limits : Limits) (room : Nat) (line : Int) (m : Machine) :
    (Expr.atom ⟨.number, text, line⟩).eval limits (room + 3) m =
      .ok (.number (n.value false)) m := by
  apply eval_number
  rw [htext]
  exact Number.ofLiteral?_numeral h

/-! ## Texts that are converted -/

/-- A minus sign, or nothing. -/
def minusIf (negative : Bool) : List Char := if negative then ['-'] else []

theorem Number.ofText?_minusIf {n : Numeral} (h : n.Digits) (negative : Bool) :
    ofText? (minusIf negative ++ n.text) = some (n.value negative) := by
  have hread : Numeral.ofText? n.text = some n := Numeral.ofText?_eq_some.mpr ⟨h, rfl⟩
  cases negative with
  | false =>
    unfold minusIf ofText?
    simp only [Bool.false_eq_true, if_false, List.nil_append]
    split
    · rename_i rest heq
      exact absurd heq (h.text_ne_minus rest)
    · rw [hread]
      rfl
  | true =>
    unfold minusIf ofText?
    simp [hread]

theorem Number.ofText?_eq_some {text : List Char} {x : Number} :
    ofText? text = some x ↔
      ∃ negative, ∃ n : Numeral, n.Digits ∧ text = minusIf negative ++ n.text ∧
        x = n.value negative := by
  constructor
  · intro h
    unfold ofText? at h
    split at h
    · rename_i rest
      obtain ⟨n, hn, rfl⟩ := Option.map_eq_some_iff.mp h
      obtain ⟨hdigits, rfl⟩ := Numeral.ofText?_eq_some.mp hn
      exact ⟨true, n, hdigits, rfl, rfl⟩
    · obtain ⟨n, hn, rfl⟩ := Option.map_eq_some_iff.mp h
      obtain ⟨hdigits, rfl⟩ := Numeral.ofText?_eq_some.mp hn
      exact ⟨false, n, hdigits, rfl, rfl⟩
  · rintro ⟨negative, n, hdigits, rfl, rfl⟩
    exact ofText?_minusIf hdigits negative

namespace Builtin

variable (room : Nat) (text : String) (line : Int) (m : Machine)

theorem call_toNumber_of_some {text : String} {x : Number}
    (h : Number.ofText? (trimBlanks text.toList) = some x) :
    call room toNumber [.string text] line m = .ok (.number x) m := by
  unfold call readNumber
  simp only [h]
  rfl

theorem call_toNumber_of_none {text : String}
    (h : Number.ofText? (trimBlanks text.toList) = none) :
    call room toNumber [.string text] line m =
      .error (.fault ⟨.notNumeral text, some line⟩) m := by
  unfold call readNumber
  simp only [h]
  rfl

/-- A text is a literal with blanks around it, and perhaps a minus sign before it. -/
def IsSigned (negative : Bool) (literal : String) : Prop :=
  trimBlanks text.toList = minusIf negative ++ literal.toList ∧ IsLiteral literal

/-- The conversion of a text to a number and the literals of a script agree. A text is converted
if and only if it is a literal with blanks around it and perhaps a minus sign. What the literal
evaluates to is the nearest number to its exact value, and the text is converted to that number
or its negative. Of any other text the conversion says that it is no numeral. -/
theorem toNumber_agrees :
    ((∃ v m', call room toNumber [.string text] line m = .ok v m') ↔
        ∃ negative literal, IsSigned text negative literal) ∧
      (∀ negative literal, IsSigned text negative literal →
        ∃ n : Numeral, n.Digits ∧ literal.toList = n.text ∧ ∃ x : Number,
          x.IsNearest false n.exact ∧
          (∀ limits free at_ m', (Expr.atom ⟨.number, literal, at_⟩).eval limits (free + 3) m' =
            .ok (.number x) m') ∧
          call room toNumber [.string text] line m =
            .ok (.number (if negative then x.neg else x)) m) ∧
      ((¬ ∃ negative literal, IsSigned text negative literal) →
        call room toNumber [.string text] line m =
          .error (.fault ⟨.notNumeral text, some line⟩) m) := by
  have hsigned : ∀ negative literal, IsSigned text negative literal →
      ∃ n : Numeral, n.Digits ∧ literal.toList = n.text ∧
        Number.ofText? (trimBlanks text.toList) = some (n.value negative) := by
    rintro negative literal ⟨htext, hliteral⟩
    obtain ⟨n, hn, hn'⟩ := isLiteral_iff.mp hliteral
    refine ⟨n, hn, hn', ?_⟩
    rw [htext, hn', Number.ofText?_minusIf hn]
  have hread : ∀ x, Number.ofText? (trimBlanks text.toList) = some x →
      ∃ negative literal, IsSigned text negative literal := by
    intro x hx
    obtain ⟨negative, n, hn, htext, _⟩ := Number.ofText?_eq_some.mp hx
    refine ⟨negative, String.ofList n.text, ?_, isLiteral_of_digits hn⟩
    rw [String.toList_ofList]
    exact htext
  refine ⟨⟨?_, ?_⟩, ?_, ?_⟩
  · rintro ⟨v, m', hcall⟩
    cases hx : Number.ofText? (trimBlanks text.toList) with
    | none =>
      rw [call_toNumber_of_none room line m hx] at hcall
      cases hcall
    | some x => exact hread x hx
  · rintro ⟨negative, literal, h⟩
    obtain ⟨n, _, _, hx⟩ := hsigned negative literal h
    exact ⟨_, _, call_toNumber_of_some room line m hx⟩
  · intro negative literal h
    obtain ⟨n, hn, htext, hx⟩ := hsigned negative literal h
    refine ⟨n, hn, htext, n.value false, n.value_isNearest false, ?_, ?_⟩
    · intro limits free at_ m'
      exact Expr.eval_numeral hn htext limits free at_ m'
    · rw [call_toNumber_of_some room line m hx, n.value_eq negative]
  · intro hnone
    cases hx : Number.ofText? (trimBlanks text.toList) with
    | none => exact call_toNumber_of_none room line m hx
    | some x => exact absurd (hread x hx) hnone

end Builtin
end FunkLang
