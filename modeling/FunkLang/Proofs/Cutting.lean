-- What a text is cut into, apart from the lines and from how many cuts it takes.
-- Every token is spelt in the way of its kind, and what is spelt so is cut off
-- again, as long as the text after it does not go on with it.
import FunkLang.Token.Scan
import FunkLang.Tree.Cursor
import Mathlib.Data.List.TakeWhile

namespace FunkLang

/-! ## Lexemes -/

/-- What a token is and how it is written, on any line. -/
abbrev Lexeme := Kind × List Char

def Mark.lexeme (t : Token) : Lexeme := (t.kind, t.text.toList)

/-- A text is cut into lexemes. -/
inductive CutInto : List Char → List Lexeme → Prop
  | done : CutInto [] []
  | cut {c text cut lexemes} :
    Cut.front c text = .ok cut →
    CutInto cut.rest lexemes →
    CutInto (c :: text) (cut.token.toList ++ lexemes)

/-! ## What a cut leaves -/

theorem Numeral.front_rest (text : List Char) : (front text).2 <:+ text.dropWhile Char.isDigit := by
  unfold front
  split
  · rename_i digit rest heq
    split
    · rw [heq]
      exact (List.dropWhile_suffix _).trans (List.suffix_cons _ _)
    · exact heq ▸ List.suffix_rfl
  · exact List.suffix_rfl

theorem Cut.rest_le {c : Char} {text : List Char} {cut : Cut} (h : front c text = .ok cut) :
    cut.rest.length ≤ text.length := by
  have hdrop (p : Char → Bool) : (text.dropWhile p).length ≤ text.length :=
    (List.dropWhile_suffix p).length_le
  unfold front at h
  split at h
  · cases h
    exact hdrop _
  split at h
  · cases h
    exact hdrop _
  split at h
  · rename_i hdigit
    cases h
    have hle := (Numeral.front_rest (c :: text)).length_le
    rw [List.dropWhile_cons_of_pos hdigit] at hle
    exact hle.trans (hdrop _)
  split at h
  · unfold string? at h
    split at h
    · cases h
    · rename_i close rest heq
      cases h
      have hle := hdrop (· != c)
      rw [heq, List.length_cons] at hle
      exact Nat.le_of_succ_le hle
  split at h
  · cases h
    exact hdrop _
  · unfold sign? at h
    split at h
    · cases h
      exact Nat.le_succ _
    · cases h
      exact Nat.le_refl _
    · cases h

/-! ## The scanner -/

section Scanner

variable {cuts : Nat} {line : Int} {text : List Char} {found tokens : List Token}
  {lexemes : List Lexeme}

/-- The token of a cut, if it is no layout. -/
def Cut.marks (cut : Cut) (line : Int) : List Token :=
  match cut.token with
  | some (kind, text) => [⟨kind, String.ofList text, line⟩]
  | none => []

theorem Cut.marks_lexemes (cut : Cut) (line : Int) :
    (cut.marks line).map Mark.lexeme = cut.token.toList := by
  unfold marks
  cases cut.token with
  | none => rfl
  | some lexeme => simp [Mark.lexeme]

theorem Cut.reverse_marks (cut : Cut) (line : Int) :
    (cut.marks line).reverse = cut.marks line := by
  unfold marks
  cases cut.token <;> rfl

theorem scanFrom_cons {c : Char} {cut : Cut} (h : Cut.front c text = .ok cut) :
    scanFrom (cuts + 1) line (c :: text) found =
      scanFrom cuts (line + lineEnds cut.taken) cut.rest (cut.marks line ++ found) := by
  rw [scanFrom, h]
  obtain ⟨token, taken, rest⟩ := cut
  cases token <;> rfl

/-- What is found in a text is what it is cut into. -/
theorem cutInto_of_scanFrom (h : scanFrom cuts line text found = .ok tokens)
    (hcuts : text.length ≤ cuts) :
    ∃ ts last, tokens = found.reverse ++ (ts ++ [endMark last]) ∧
      CutInto text (ts.map Mark.lexeme) := by
  induction cuts generalizing line text found with
  | zero =>
    obtain rfl := List.eq_nil_of_length_eq_zero (Nat.le_zero.mp hcuts)
    cases h
    exact ⟨[], line, by simp [endMark], .done⟩
  | succ cuts ih =>
    cases text with
    | nil =>
      cases h
      exact ⟨[], line, by simp [endMark], .done⟩
    | cons c text =>
      cases hfront : Cut.front c text with
      | error problem =>
        rw [scanFrom, hfront] at h
        cases h
      | ok cut =>
        rw [scanFrom_cons hfront] at h
        have hle := Cut.rest_le hfront
        rw [List.length_cons] at hcuts
        obtain ⟨ts, last, rfl, hcut⟩ := ih h (by omega)
        refine ⟨cut.marks line ++ ts, last, ?_, ?_⟩
        · rw [List.reverse_append, Cut.reverse_marks]
          simp only [List.append_assoc]
        · rw [List.map_append, Cut.marks_lexemes]
          exact .cut hfront hcut

end Scanner

theorem cutInto_of_scan {source : String} {tokens : List Token} (h : scan source = .ok tokens) :
    ∃ ts last, tokens = ts ++ [endMark last] ∧ CutInto source.toList (ts.map Mark.lexeme) :=
  cutInto_of_scanFrom h (Nat.le_refl _)

/-! ## Spellings -/

/-- The digits of a numeral are digits, and there is one before the point. -/
structure Numeral.Digits (n : Numeral) : Prop where
  some_whole : n.whole ≠ []
  whole : ∀ c ∈ n.whole, c.isDigit
  fraction : ∀ c ∈ n.fraction, c.isDigit

/-- How a token of a kind may be written. -/
inductive Spelt : Kind → List Char → Prop
  | number {n : Numeral} : n.Digits → Spelt (.atom .number) n.text
  | string {quote text} : isQuote quote → quote ∉ text → Spelt (.atom .string) text
  | word {kind c rest} :
    isLetter c → (∀ d ∈ rest, isWordPart d) → Kind.ofWord (String.ofList (c :: rest)) = kind →
    Spelt kind (c :: rest)
  | sign {s} : Spelt (.sign s) s.spelling

/-- A token that is cut as a word. -/
def isWord : Kind → Bool
  | .atom .name | .atom .boolean | .atom .nil | .word _ => true
  | _ => false

theorem isWord_of_ofWord {word : String} {kind : Kind} (h : Kind.ofWord word = kind) :
    isWord kind := by
  subst h
  unfold Kind.ofWord
  split
  · rfl
  split
  · rfl
  split <;> rfl

namespace Spelt

variable {kind : Kind} {text : List Char}

theorem exists_numeral (h : Spelt (.atom .number) text) :
    ∃ n : Numeral, n.Digits ∧ text = n.text := by
  cases h with
  | number hn => exact ⟨_, hn, rfl⟩
  | word _ _ hkind => exact Bool.noConfusion (isWord_of_ofWord hkind)

theorem exists_quote (h : Spelt (.atom .string) text) : ∃ quote, isQuote quote ∧ quote ∉ text := by
  cases h with
  | string hquote hfree => exact ⟨_, hquote, hfree⟩
  | word _ _ hkind => exact Bool.noConfusion (isWord_of_ofWord hkind)

theorem eq_spelling {s : Sign} (h : Spelt (.sign s) text) : text = s.spelling := by
  cases h with
  | word _ _ hkind => exact Bool.noConfusion (isWord_of_ofWord hkind)
  | sign => rfl

theorem exists_letter (h : Spelt kind text) (hkind : isWord kind) :
    ∃ c rest, text = c :: rest ∧ isLetter c ∧ (∀ d ∈ rest, isWordPart d) ∧
      Kind.ofWord (String.ofList (c :: rest)) = kind := by
  cases h with
  | number | string | sign => cases hkind
  | word hletter hword hofWord => exact ⟨_, _, rfl, hletter, hword, hofWord⟩

/-- No text is spelt as the end of all texts. -/
theorem ne_finish (h : Spelt kind text) : kind ≠ .finish := by
  rintro rfl
  cases h with
  | word _ _ hkind => exact Bool.noConfusion (isWord_of_ofWord hkind)

end Spelt

theorem Numeral.front_digits {c : Char} {text : List Char} (h : c.isDigit) :
    (front (c :: text)).1.Digits := by
  have htake (text : List Char) : ∀ d ∈ text.takeWhile Char.isDigit, d.isDigit :=
    fun d hd => List.mem_takeWhile_imp hd
  have hne : (c :: text).takeWhile Char.isDigit ≠ [] := by
    rw [List.takeWhile_cons_of_pos h]
    exact List.cons_ne_nil _ _
  unfold front
  split
  · split
    · exact ⟨hne, htake _, htake _⟩
    · exact ⟨hne, htake _, nofun⟩
  · exact ⟨hne, htake _, nofun⟩

theorem Sign.spelling_of_double {c : Char} {s : Sign} (h : double? c = some s) :
    s.spelling = [c, '='] := by
  unfold double? at h
  split at h <;> cases h <;> rfl

theorem Sign.spelling_of_single {c : Char} {s : Sign} (h : single? c = some s) :
    s.spelling = [c] := by
  unfold single? at h
  split at h <;> cases h <;> rfl

theorem spelt_of_sign {c : Char} {text : List Char} {cut : Cut} {kind : Kind} {word : List Char}
    (h : Cut.sign? c text = .ok cut) (htoken : cut.token = some (kind, word)) :
    Spelt kind word := by
  unfold Cut.sign? at h
  split at h
  · rename_i rest s _ hs
    cases h
    cases htoken
    rw [← Sign.spelling_of_double hs]
    exact .sign
  · rename_i s hs _
    cases h
    cases htoken
    rw [← Sign.spelling_of_single hs]
    exact .sign
  · cases h

/-- What is cut off is spelt in the way of its kind. -/
theorem spelt_of_front {c : Char} {text : List Char} {cut : Cut} {kind : Kind} {word : List Char}
    (h : Cut.front c text = .ok cut) (htoken : cut.token = some (kind, word)) :
    Spelt kind word := by
  unfold Cut.front at h
  split at h
  · cases h
    cases htoken
  split at h
  · cases h
    cases htoken
  split at h
  · rename_i hdigit
    cases h
    cases htoken
    exact .number (Numeral.front_digits hdigit)
  split at h
  · rename_i hquote
    unfold Cut.string? at h
    split at h
    · cases h
    · cases h
      cases htoken
      refine .string hquote fun hmem => ?_
      have hne := List.mem_takeWhile_imp hmem
      simp at hne
  split at h
  · rename_i hletter
    cases h
    cases htoken
    exact .word hletter (fun d hd => List.mem_takeWhile_imp hd) rfl
  · exact spelt_of_sign h htoken

/-- All that a text is cut into is spelt in the way of its kind. -/
theorem CutInto.spelt {text : List Char} {lexemes : List Lexeme} (h : CutInto text lexemes) :
    ∀ lexeme ∈ lexemes, Spelt lexeme.1 lexeme.2 := by
  induction h with
  | done => exact nofun
  | cut hfront _ ih =>
    intro lexeme hmem
    rcases List.mem_append.mp hmem with hmem | hmem
    · exact spelt_of_front hfront (Option.mem_toList.mp hmem)
    · exact ih lexeme hmem

/-! ## What may come next -/

/-- The text after a sign does not make a longer sign or a comment of it. -/
def AfterSign (rest : List Char) : Prop := ∀ c ∈ rest.head?, c ≠ '=' ∧ c ≠ '/'

/-- The text after a word or a numeral does not go on with it. -/
structure AfterWord (rest : List Char) : Prop where
  sign : AfterSign rest
  word : ∀ c ∈ rest.head?, isWordPart c = false
  fraction : ∀ d text, rest = '.' :: d :: text → d.isDigit = false

theorem afterSign_cons {c : Char} {rest : List Char} (h : c ≠ '=' ∧ c ≠ '/') :
    AfterSign (c :: rest) := by
  rintro _ ⟨⟩
  exact h

theorem afterWord_nil : AfterWord [] := ⟨nofun, nofun, nofun⟩

theorem afterWord_cons {c : Char} {rest : List Char} (h : c ≠ '=' ∧ c ≠ '/')
    (hword : isWordPart c = false) (hpoint : c ≠ '.') : AfterWord (c :: rest) := by
  refine ⟨afterSign_cons h, ?_, ?_⟩
  · rintro _ ⟨⟩
    exact hword
  · rintro d text heq
    cases heq
    exact absurd rfl hpoint

theorem afterWord_point {d : Char} {rest : List Char} (h : d.isDigit = false) :
    AfterWord ('.' :: d :: rest) := by
  refine ⟨afterSign_cons (by decide), ?_, ?_⟩
  · rintro _ ⟨⟩
    decide
  · rintro _ _ ⟨⟩
    exact h

/-! ## Kinds of characters -/

theorem digit_of_letter {c : Char} (h : isLetter c) : c.isDigit = false := by
  rw [Bool.eq_false_iff]
  intro hdigit
  unfold isLetter at h
  rw [Bool.or_eq_true, beq_iff_eq] at h
  rcases h with h | rfl
  · unfold Char.isAlpha Char.isUpper Char.isLower at h
    unfold Char.isDigit at hdigit
    simp [UInt32.le_iff_toNat_le] at h hdigit
    omega
  · cases hdigit

theorem layout_of_wordPart {c : Char} (h : isWordPart c) : isLayout c = false := by
  rw [Bool.eq_false_iff]
  intro hlayout
  unfold isLayout at hlayout
  simp only [Bool.or_eq_true, beq_iff_eq] at hlayout
  rcases hlayout with ((rfl | rfl) | rfl) | rfl <;> cases h

theorem quote_of_wordPart {c : Char} (h : isWordPart c) : isQuote c = false := by
  rw [Bool.eq_false_iff]
  intro hquote
  unfold isQuote at hquote
  simp only [Bool.or_eq_true, beq_iff_eq] at hquote
  rcases hquote with (rfl | rfl) | rfl <;> cases h

theorem slash_of_wordPart {c : Char} (h : isWordPart c) : (c == '/') = false := by
  rw [beq_eq_false_iff_ne]
  rintro rfl
  cases h

theorem wordPart_of_letter {c : Char} (h : isLetter c) : isWordPart c := by
  unfold isWordPart
  rw [h]
  rfl

theorem wordPart_of_digit {c : Char} (h : c.isDigit) : isWordPart c := by
  unfold isWordPart
  rw [h, Bool.or_true]

/-! ## Cutting off what is spelt -/

section Cuts

variable {c : Char} {tail rest text : List Char} {lexemes : List Lexeme}

/-- What begins like a word or a numeral is cut in no other way. -/
theorem front_wordPart (h : isWordPart c) : Cut.front c text =
    if c.isDigit then
      .ok (.plain (.atom .number) (Numeral.front (c :: text)).1.text (Numeral.front (c :: text)).2)
    else if isLetter c then
      .ok (.plain (Kind.ofWord (String.ofList (c :: text.takeWhile isWordPart)))
        (c :: text.takeWhile isWordPart) (text.dropWhile isWordPart))
    else Cut.sign? c text := by
  unfold Cut.front
  simp [layout_of_wordPart h, quote_of_wordPart h, slash_of_wordPart h]

theorem takeWhile_of_head {p : Char → Bool} (h : ∀ d ∈ tail, p d)
    (hrest : ∀ d ∈ rest.head?, p d = false) :
    (tail ++ rest).takeWhile p = tail ∧ (tail ++ rest).dropWhile p = rest := by
  rw [List.takeWhile_append_of_pos h, List.dropWhile_append_of_pos h]
  cases rest with
  | nil => simp
  | cons d rest => simp [hrest d rfl]

theorem front_word (hletter : isLetter c) (hword : ∀ d ∈ tail, isWordPart d)
    (hrest : AfterWord rest) : Cut.front c (tail ++ rest) =
      .ok (.plain (Kind.ofWord (String.ofList (c :: tail))) (c :: tail) rest) := by
  obtain ⟨htake, hdrop⟩ := takeWhile_of_head hword hrest.word
  rw [front_wordPart (wordPart_of_letter hletter), digit_of_letter hletter, hletter, htake, hdrop]
  rfl

theorem Numeral.front_text {n : Numeral} (h : n.Digits) (hrest : AfterWord rest) :
    front (n.text ++ rest) = (n, rest) := by
  have hdigit : ∀ d ∈ rest.head?, d.isDigit = false := by
    intro d hd
    have hword := hrest.word d hd
    rw [Bool.eq_false_iff] at hword ⊢
    exact fun hd => hword (wordPart_of_digit hd)
  obtain ⟨whole, fraction⟩ := n
  unfold Numeral.text
  cases fraction with
  | nil =>
    obtain ⟨htake, hdrop⟩ := takeWhile_of_head h.whole hdigit
    simp only [List.isEmpty_nil, if_true]
    unfold front
    rw [hdrop, htake]
    split
    · rename_i digit text
      rw [hrest.fraction digit text rfl]
      rfl
    · rfl
  | cons d fraction =>
    have hpoint : ∀ d' ∈ ('.' :: d :: (fraction ++ rest)).head?, d'.isDigit = false := by
      rintro _ ⟨⟩
      decide
    obtain ⟨htake, hdrop⟩ := takeWhile_of_head h.whole hpoint
    obtain ⟨htake', hdrop'⟩ := takeWhile_of_head h.fraction hdigit
    simp only [List.isEmpty_cons, Bool.false_eq_true, if_false, List.append_assoc,
      List.cons_append] at htake' hdrop' ⊢
    unfold front
    simp only [hdrop, htake, h.fraction d List.mem_cons_self, if_true, htake', hdrop']

theorem Numeral.Digits.text_eq {n : Numeral} (h : n.Digits) :
    ∃ d more, n.text = d :: more ∧ d.isDigit := by
  obtain ⟨d, whole, hwhole⟩ := List.exists_cons_of_ne_nil h.some_whole
  have hdigit : d.isDigit := h.whole d (hwhole ▸ List.mem_cons_self)
  unfold Numeral.text
  rw [hwhole]
  split <;> exact ⟨_, _, rfl, hdigit⟩

theorem front_number {n : Numeral} (h : n.Digits) (hrest : AfterWord rest) :
    ∃ d text, n.text ++ rest = d :: text ∧
      Cut.front d text = .ok (.plain (.atom .number) n.text rest) := by
  obtain ⟨d, more, htext, hdigit⟩ := h.text_eq
  have hfront := Numeral.front_text h hrest
  rw [htext, List.cons_append] at hfront
  refine ⟨d, more ++ rest, by rw [htext, List.cons_append], ?_⟩
  rw [front_wordPart (wordPart_of_digit hdigit), if_pos hdigit, hfront]

theorem front_string {quote : Char} (hquote : isQuote quote) (h : quote ∉ tail) :
    Cut.front quote (tail ++ quote :: rest) =
      .ok ⟨some (.atom .string, tail), quote :: tail ++ [quote], rest⟩ := by
  have hall : ∀ d ∈ tail, (d != quote) = true := by
    intro d hd
    rw [bne_iff_ne]
    rintro rfl
    exact h hd
  have hstop : ∀ d ∈ (quote :: rest).head?, (d != quote) = false := by
    rintro _ ⟨⟩
    simp
  obtain ⟨htake, hdrop⟩ := takeWhile_of_head hall hstop
  have hcut : Cut.string? quote (tail ++ quote :: rest) =
      .ok ⟨some (.atom .string, tail), quote :: tail ++ [quote], rest⟩ := by
    unfold Cut.string?
    rw [htake, hdrop]
  unfold isQuote at hquote
  simp only [Bool.or_eq_true, beq_iff_eq] at hquote
  rcases hquote with (rfl | rfl) | rfl <;> exact hcut

theorem front_sign {s : Sign} (hrest : AfterSign rest) :
    ∃ c text, s.spelling ++ rest = c :: text ∧
      Cut.front c text = .ok (.plain (.sign s) s.spelling rest) := by
  cases s <;> simp only [Sign.spelling, List.cons_append, List.nil_append] <;>
    refine ⟨_, _, rfl, ?_⟩ <;>
  cases rest with
  | nil => rfl
  | cons d rest =>
    have hd := hrest d rfl
    unfold Cut.front Cut.sign?
    simp [isLayout, isQuote, isLetter, Sign.double?, Sign.single?, hd]

/-! ## One lexeme more -/

theorem CutInto.sign {s : Sign} (hrest : AfterSign rest) (h : CutInto rest lexemes) :
    CutInto (s.spelling ++ rest) ((.sign s, s.spelling) :: lexemes) := by
  obtain ⟨c, text, heq, hfront⟩ := front_sign hrest
  rw [heq]
  exact .cut hfront h

theorem CutInto.word {kind : Kind} (hletter : isLetter c) (hword : ∀ d ∈ tail, isWordPart d)
    (hkind : Kind.ofWord (String.ofList (c :: tail)) = kind) (hrest : AfterWord rest)
    (h : CutInto rest lexemes) :
    CutInto (c :: tail ++ rest) ((kind, c :: tail) :: lexemes) := by
  subst hkind
  exact .cut (front_word hletter hword hrest) h

theorem CutInto.number {n : Numeral} (hn : n.Digits) (hrest : AfterWord rest)
    (h : CutInto rest lexemes) :
    CutInto (n.text ++ rest) ((.atom .number, n.text) :: lexemes) := by
  obtain ⟨d, text, heq, hfront⟩ := front_number hn hrest
  rw [heq]
  exact .cut hfront h

theorem CutInto.string {quote : Char} (hquote : isQuote quote) (hword : quote ∉ tail)
    (h : CutInto rest lexemes) :
    CutInto (quote :: (tail ++ quote :: rest)) ((.atom .string, tail) :: lexemes) :=
  .cut (front_string hquote hword) h

/-- Layout that comes first is skipped. -/
theorem CutInto.dropLayout (h : CutInto text lexemes) :
    CutInto (text.dropWhile isLayout) lexemes := by
  cases h with
  | done => exact .done
  | @cut c text cut lexemes hfront hrest =>
    by_cases hlayout : isLayout c
    · unfold Cut.front at hfront
      rw [if_pos hlayout] at hfront
      cases hfront
      rw [List.dropWhile_cons_of_pos hlayout]
      exact hrest
    · rw [List.dropWhile_cons_of_neg hlayout]
      exact .cut hfront hrest

theorem CutInto.space (h : CutInto text lexemes) : CutInto (' ' :: text) lexemes := by
  have hfront : Cut.front ' ' text =
      .ok (.layout (' ' :: text.takeWhile isLayout) (text.dropWhile isLayout)) := rfl
  exact .cut hfront h.dropLayout

end Cuts

end FunkLang
