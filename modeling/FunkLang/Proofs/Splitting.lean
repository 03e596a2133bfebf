-- A script is split from the left into tokens and layout. Nothing of it is
-- lost, every token is the longest one that begins where it stands, and there
-- is no other way to split it.
import FunkLang.Proofs.Cutting

namespace FunkLang

/-! ## Pieces of a script -/

/-- How a token stands in a script: a string between two equal quotes that it does not hold,
everything else as it is spelt. -/
inductive Spells : Kind → List Char → (written : List Char) → Prop
  | plain {kind text} : Spelt kind text → kind ≠ .atom .string → Spells kind text text
  | string {quote text} : isQuote quote → quote ∉ text →
    Spells (.atom .string) text (quote :: text ++ [quote])

/-- Layout at the front of a text: one blank, or a comment up to the end of its line. -/
inductive LaidOut : (layout rest : List Char) → Prop
  | blank {c rest} : isLayout c → LaidOut [c] rest
  | comment {body rest} : '\n' ∉ body → (∀ c ∈ rest.head?, c = '\n') →
    LaidOut ('/' :: '/' :: body) rest

/-- No token at the front of the text is longer than this one. -/
def Longest (written rest : List Char) : Prop :=
  ∀ kind text longer, Spells kind text longer → longer <+: written ++ rest →
    longer.length ≤ written.length

/-- Layout, or a token with what is written for it. -/
inductive Piece
  | layout (text : List Char)
  | token (t : Token) (written : List Char)

namespace Piece

def text : Piece → List Char
  | layout text => text
  | token _ written => written

def token? : Piece → Option Token
  | layout _ => none
  | token t _ => some t

/-- A piece that may stand between these two texts. -/
inductive Fits (before rest : List Char) : Piece → Prop
  | layout {text} : LaidOut text rest → Fits before rest (.layout text)
  | token {t : Token} {written} :
    Spells t.kind t.text.toList written →
    Longest written rest →
    ¬ ['/', '/'] <+: written ++ rest →
    t.line = 1 + lineEnds before →
    Fits before rest (.token t written)

end Piece

def textOf (pieces : List Piece) : List Char := pieces.flatMap Piece.text

def tokensOf (pieces : List Piece) : List Token := pieces.filterMap Piece.token?

/-- Pieces that stand one after the other between these two texts. -/
inductive Split : (before : List Char) → List Piece → (rest : List Char) → Prop
  | done {before rest} : Split before [] rest
  | piece {before p pieces rest} :
    p.Fits before (textOf pieces ++ rest) →
    Split (before ++ p.text) pieces rest →
    Split before (p :: pieces) rest

/-- Why no piece can be taken off the front of a text. -/
inductive Stuck : ScanProblem → List Char → Prop
  | openString {quote text} : isQuote quote → quote ∉ text → Stuck .openString (quote :: text)
  | strangeCharacter {c text} :
    isLayout c = false →
    (∀ kind text written, Spells kind text written → written.head? ≠ some c) →
    Stuck (.strangeCharacter c) (c :: text)

theorem lineEnds_append (text rest : List Char) :
    lineEnds (text ++ rest) = lineEnds text + lineEnds rest := by
  unfold lineEnds
  rw [List.count_append]
  exact Int.natCast_add _ _

theorem textOf_cons (p : Piece) (pieces : List Piece) :
    textOf (p :: pieces) = p.text ++ textOf pieces := List.flatMap_cons

theorem textOf_append (pieces more : List Piece) :
    textOf (pieces ++ more) = textOf pieces ++ textOf more := List.flatMap_append

theorem tokensOf_append (pieces more : List Piece) :
    tokensOf (pieces ++ more) = tokensOf pieces ++ tokensOf more := List.filterMap_append

theorem Split.append {before rest : List Char} {pieces more : List Piece}
    (h : Split before pieces (textOf more ++ rest))
    (hmore : Split (before ++ textOf pieces) more rest) : Split before (pieces ++ more) rest := by
  generalize hall : textOf more ++ rest = all at h
  induction h with
  | done =>
    rw [textOf, List.flatMap_nil, List.append_nil] at hmore
    exact hmore
  | piece hfits _ ih =>
    subst hall
    refine .piece ?_ (ih ?_ rfl)
    · rw [← List.append_assoc, ← textOf_append] at hfits
      exact hfits
    · rw [textOf_cons, ← List.append_assoc] at hmore
      exact hmore

/-! ## How tokens begin -/

section Heads

variable {c : Char} {kind kind' : Kind} {text text' written rest : List Char}

/-- A sign has one character, or two of which the second is an equals sign. -/
theorem Sign.spelling_cases (s : Sign) :
    (∃ c, s.spelling = [c] ∧ single? c = some s) ∨
      ∃ c, s.spelling = [c, '='] ∧ double? c = some s ∧ (single? c).isSome := by
  cases s
  case equalEqual | bangEqual | lessEqual | greaterEqual => exact Or.inr ⟨_, rfl, rfl, rfl⟩
  all_goals exact Or.inl ⟨_, rfl, rfl⟩

theorem Sign.single_of_spelling {s : Sign} (h : s.spelling = c :: rest) :
    (single? c).isSome := by
  rcases s.spelling_cases with ⟨d, hd, hs⟩ | ⟨d, hd, _, hs⟩
  · cases h.symm.trans hd
    rw [hs]
    rfl
  · cases h.symm.trans hd
    exact hs

theorem Sign.spelling_injective {s s' : Sign} (h : s.spelling = s'.spelling) : s = s' := by
  rcases s.spelling_cases with ⟨c, hc, hs⟩ | ⟨c, hc, hs, _⟩ <;>
    rcases s'.spelling_cases with ⟨d, hd, hs'⟩ | ⟨d, hd, hs', _⟩ <;>
    rw [hc, hd] at h <;> cases h
  · exact Option.some.inj (hs.symm.trans hs')
  · exact Option.some.inj (hs.symm.trans hs')

/-- The first character of a sign begins nothing else. -/
theorem Sign.other_of_single (h : (single? c).isSome) :
    isLayout c = false ∧ c.isDigit = false ∧ isQuote c = false ∧ isLetter c = false := by
  unfold single? at h
  split at h
  case h_19 => cases h
  all_goals decide

/-- The first character of a string begins nothing else. -/
theorem other_of_quote (h : isQuote c) :
    isLayout c = false ∧ c.isDigit = false ∧ isLetter c = false ∧ (c == '/') = false := by
  unfold isQuote at h
  simp only [Bool.or_eq_true, beq_iff_eq] at h
  rcases h with (rfl | rfl) | rfl <;> decide

/-- What is written for a token, by its first character. -/
inductive Headed (c : Char) (rest : List Char) : Kind → List Char → Prop
  | number {n : Numeral} : c.isDigit → n.Digits → n.text = c :: rest →
    Headed c rest (.atom .number) (c :: rest)
  | string {text : List Char} : isQuote c → c ∉ text → rest = text ++ [c] →
    Headed c rest (.atom .string) text
  | word : isLetter c → (∀ d ∈ rest, isWordPart d) →
    Headed c rest (Kind.ofWord (String.ofList (c :: rest))) (c :: rest)
  | sign {s : Sign} : s.spelling = c :: rest → Headed c rest (.sign s) (c :: rest)

theorem Spells.ne_nil (h : Spells kind text written) : written ≠ [] := by
  cases h with
  | string => exact List.cons_ne_nil _ _
  | plain hspelt hkind =>
    cases hspelt with
    | number hn =>
      obtain ⟨d, more, htext, -⟩ := hn.text_eq
      exact htext ▸ List.cons_ne_nil _ _
    | string => exact absurd rfl hkind
    | word => exact List.cons_ne_nil _ _
    | @sign s =>
      rcases s.spelling_cases with ⟨c, hc, -⟩ | ⟨c, hc, -⟩
      · exact hc ▸ List.cons_ne_nil _ _
      · exact hc ▸ List.cons_ne_nil _ _

theorem Spells.headed (h : Spells kind text (c :: rest)) : Headed c rest kind text := by
  generalize hwritten : c :: rest = written at h
  cases h with
  | string hquote hfree =>
    cases hwritten
    exact .string hquote hfree rfl
  | plain hspelt hkind =>
    subst hwritten
    generalize hwritten : c :: rest = written at hspelt
    cases hspelt with
    | @number n hn =>
      obtain ⟨d, more, htext, hd⟩ := hn.text_eq
      cases hwritten.trans htext
      rw [htext]
      exact .number hd hn htext
    | string => exact absurd rfl hkind
    | word hletter hword hofWord =>
      cases hwritten
      subst hofWord
      exact .word hletter hword
    | sign =>
      rw [← hwritten]
      exact .sign hwritten.symm

namespace Headed

theorem of_digit (hc : c.isDigit) (h : Headed c rest kind text) :
    kind = .atom .number ∧ text = c :: rest ∧ ∃ n : Numeral, n.Digits ∧ n.text = c :: rest := by
  cases h with
  | number _ hn htext => exact ⟨rfl, rfl, _, hn, htext⟩
  | string hquote => exact absurd hc (by simp [(other_of_quote hquote).2.1])
  | word hletter => exact absurd hc (by simp [digit_of_letter hletter])
  | sign hs => exact absurd hc (by simp [(Sign.other_of_single (Sign.single_of_spelling hs)).2.1])

theorem of_quote (hc : isQuote c) (h : Headed c rest kind text) :
    kind = .atom .string ∧ c ∉ text ∧ rest = text ++ [c] := by
  obtain ⟨-, hdigit, hletter, -⟩ := other_of_quote hc
  cases h with
  | number hd => exact absurd hd (by simp [hdigit])
  | string _ hfree hrest => exact ⟨rfl, hfree, hrest⟩
  | word hl => exact absurd hl (by simp [hletter])
  | sign hs =>
    exact absurd hc (by simp [(Sign.other_of_single (Sign.single_of_spelling hs)).2.2.1])

theorem of_letter (hc : isLetter c) (h : Headed c rest kind text) :
    kind = Kind.ofWord (String.ofList (c :: rest)) ∧ text = c :: rest ∧
      ∀ d ∈ rest, isWordPart d := by
  cases h with
  | number hd => exact absurd hd (by simp [digit_of_letter hc])
  | string hquote => exact absurd hc (by simp [(other_of_quote hquote).2.2.1])
  | word _ hword => exact ⟨rfl, rfl, hword⟩
  | sign hs =>
    exact absurd hc (by simp [(Sign.other_of_single (Sign.single_of_spelling hs)).2.2.2])

theorem of_sign (hc : (Sign.single? c).isSome) (h : Headed c rest kind text) :
    ∃ s : Sign, kind = .sign s ∧ text = c :: rest ∧ s.spelling = c :: rest := by
  obtain ⟨-, hdigit, hquote, hletter⟩ := Sign.other_of_single hc
  cases h with
  | number hd => exact absurd hd (by simp [hdigit])
  | string hq => exact absurd hq (by simp [hquote])
  | word hl => exact absurd hl (by simp [hletter])
  | sign hs => exact ⟨_, rfl, rfl, hs⟩

theorem not_layout (h : Headed c rest kind text) : isLayout c = false := by
  cases h with
  | number hd => exact layout_of_wordPart (wordPart_of_digit hd)
  | string hquote => exact (other_of_quote hquote).1
  | word hletter => exact layout_of_wordPart (wordPart_of_letter hletter)
  | sign hs => exact (Sign.other_of_single (Sign.single_of_spelling hs)).1

end Headed

/-- What is written stands for one token only. -/
theorem Spells.unique (h : Spells kind text written) (h' : Spells kind' text' written) :
    kind = kind' ∧ text = text' := by
  obtain ⟨c, rest, rfl⟩ := List.exists_cons_of_ne_nil h.ne_nil
  have h' := h'.headed
  cases h.headed with
  | number hc _ _ =>
    obtain ⟨rfl, rfl, -⟩ := h'.of_digit hc
    exact ⟨rfl, rfl⟩
  | string hc _ hrest =>
    obtain ⟨rfl, -, hrest'⟩ := h'.of_quote hc
    exact ⟨rfl, (List.append_left_inj _).mp (hrest.symm.trans hrest')⟩
  | word hc _ =>
    obtain ⟨rfl, rfl, -⟩ := h'.of_letter hc
    exact ⟨rfl, rfl⟩
  | sign hs =>
    obtain ⟨s', rfl, rfl, hs'⟩ := h'.of_sign (Sign.single_of_spelling hs)
    exact ⟨congrArg _ (Sign.spelling_injective (hs.trans hs'.symm)), rfl⟩

end Heads

/-! ## One way to split -/

section Unique

variable {kind : Kind} {word written written' text text' rest rest' before : List Char}
  {p p' : Piece} {pieces pieces' : List Piece} {problem problem' : ScanProblem}

theorem LaidOut.ne_nil (h : LaidOut text rest) : text ≠ [] := by
  cases h with
  | blank => exact List.cons_ne_nil _ _
  | comment => exact List.cons_ne_nil _ _

theorem LaidOut.unique (h : LaidOut text rest) (h' : LaidOut text' rest')
    (heq : text ++ rest = text' ++ rest') : text = text' := by
  have body {body rest : List Char} (hbody : '\n' ∉ body) (hrest : ∀ c ∈ rest.head?, c = '\n') :
      (body ++ rest).takeWhile (· != '\n') = body := by
    refine (takeWhile_of_head (fun d hd => ?_) fun d hd => ?_).1
    · rw [bne_iff_ne]
      rintro rfl
      exact hbody hd
    · rw [hrest d hd]
      rfl
  cases h with
  | blank hc =>
    cases h' with
    | blank => rw [(List.cons.inj heq).1]
    | comment =>
      rw [(List.cons.inj heq).1] at hc
      cases hc
  | @comment body₁ _ hbody hrest =>
    cases h' with
    | blank hc =>
      rw [← (List.cons.inj heq).1] at hc
      cases hc
    | @comment body₂ _ hbody' hrest' =>
      have htail : body₁ ++ rest = body₂ ++ rest' := (List.cons.inj (List.cons.inj heq).2).2
      rw [← body hbody hrest, ← body hbody' hrest', htail]

/-- Where layout stands, no token does. -/
theorem LaidOut.not_spelt (h : LaidOut text rest) (hwritten : Spells kind word written)
    (hcomment : ¬ ['/', '/'] <+: written ++ rest') : text ++ rest ≠ written ++ rest' := by
  intro heq
  cases h with
  | blank hc =>
    obtain ⟨c, tail, rfl⟩ := List.exists_cons_of_ne_nil hwritten.ne_nil
    rw [(List.cons.inj heq).1, hwritten.headed.not_layout] at hc
    cases hc
  | comment =>
    rw [← heq] at hcomment
    exact hcomment ⟨_, rfl⟩

theorem Longest.unique (h : Longest written rest) (h' : Longest written' rest')
    {kind' : Kind} {word' : List Char} (hspells : Spells kind word written)
    (hspells' : Spells kind' word' written') (heq : written ++ rest = written' ++ rest') :
    written = written' := by
  have hle := h _ _ _ hspells' (heq ▸ List.prefix_append _ _)
  have hle' := h' _ _ _ hspells (heq ▸ List.prefix_append _ _)
  exact (List.append_inj heq (Nat.le_antisymm hle' hle)).1

/-- There is one piece that may come next. -/
theorem Piece.Fits.unique (h : p.Fits before rest) (h' : p'.Fits before rest')
    (heq : p.text ++ rest = p'.text ++ rest') : p = p' := by
  cases h with
  | layout hlaid =>
    cases h' with
    | layout hlaid' => exact congrArg _ (hlaid.unique hlaid' heq)
    | token hspells' _ hcomment' => exact absurd heq (hlaid.not_spelt hspells' hcomment')
  | @token t written hspells hlongest hcomment hline =>
    cases h' with
    | layout hlaid' => exact absurd heq.symm (hlaid'.not_spelt hspells hcomment)
    | @token t' written' hspells' hlongest' _ hline' =>
      obtain rfl : written = written' := hlongest.unique hlongest' hspells hspells' heq
      obtain ⟨hkind, htext⟩ := hspells.unique hspells'
      obtain ⟨kind, text, line⟩ := t
      obtain ⟨kind', text', line'⟩ := t'
      cases hkind
      cases String.toList_inj.mp htext
      cases hline.trans hline'.symm
      rfl

theorem Piece.Fits.text_ne_nil (h : p.Fits before rest) : p.text ≠ [] := by
  cases h with
  | layout hlaid => exact hlaid.ne_nil
  | token hspells => exact hspells.ne_nil

theorem Stuck.ne_nil (h : Stuck problem text) : text ≠ [] := by
  cases h with
  | openString => exact List.cons_ne_nil _ _
  | strangeCharacter => exact List.cons_ne_nil _ _

/-- Where no piece can be taken off, none fits. -/
theorem Stuck.not_fits (h : Stuck problem text) (hp : p.Fits before rest) :
    text ≠ p.text ++ rest := by
  intro heq
  cases h with
  | @openString quote text hquote hfree =>
    cases hp with
    | layout hlaid =>
      cases hlaid with
      | blank hc =>
        rw [← (List.cons.inj heq).1, (other_of_quote hquote).1] at hc
        cases hc
      | comment =>
        rw [(List.cons.inj heq).1] at hquote
        cases hquote
    | token hspells =>
      obtain ⟨c, tail, rfl⟩ := List.exists_cons_of_ne_nil hspells.ne_nil
      obtain ⟨rfl, rfl⟩ := List.cons.inj heq
      obtain ⟨-, -, rfl⟩ := hspells.headed.of_quote hquote
      exact hfree (by simp)
  | @strangeCharacter c text hlayout hnone =>
    cases hp with
    | layout hlaid =>
      cases hlaid with
      | blank hc =>
        rw [← (List.cons.inj heq).1, hlayout] at hc
        cases hc
      | comment =>
        have hslash : Spells (.sign .slash) ['/'] ['/'] := .plain .sign nofun
        exact hnone _ _ _ hslash (congrArg some (List.cons.inj heq).1.symm)
    | token hspells =>
      obtain ⟨c', tail, rfl⟩ := List.exists_cons_of_ne_nil hspells.ne_nil
      exact hnone _ _ _ hspells (congrArg some (List.cons.inj heq).1.symm)

theorem Stuck.unique (h : Stuck problem text) (h' : Stuck problem' text) :
    problem = problem' := by
  have mixed {c : Char} (hquote : isQuote c)
      (hnone : ∀ kind text written, Spells kind text written → written.head? ≠ some c) : False :=
    hnone _ _ _ (.string hquote List.not_mem_nil) rfl
  cases h with
  | openString hquote _ =>
    cases h' with
    | openString => rfl
    | strangeCharacter _ hnone => exact (mixed hquote hnone).elim
  | strangeCharacter _ hnone =>
    cases h' with
    | openString hquote _ => exact (mixed hquote hnone).elim
    | strangeCharacter => rfl

/-- No piece can be taken off, be it that nothing is left. -/
def Finished (text : List Char) : Prop := text = [] ∨ ∃ problem, Stuck problem text

theorem Finished.not_fits (h : Finished text) (hp : p.Fits before rest) :
    text ≠ p.text ++ rest := by
  rcases h with rfl | ⟨problem, h⟩
  · exact fun heq => hp.text_ne_nil (List.append_eq_nil_iff.mp heq.symm).1
  · exact h.not_fits hp

/-- A text is split as far as possible in one way only. -/
theorem Split.unique (h : Split before pieces rest) (h' : Split before pieces' rest')
    (hrest : Finished rest) (hrest' : Finished rest')
    (heq : textOf pieces ++ rest = textOf pieces' ++ rest') : pieces = pieces' ∧ rest = rest' := by
  induction h generalizing pieces' with
  | done =>
    cases h' with
    | done => exact ⟨rfl, heq⟩
    | piece hfits _ =>
      rw [textOf_cons, List.append_assoc] at heq
      exact absurd heq (hrest.not_fits hfits)
  | @piece before p pieces rest hfits _ ih =>
    cases h' with
    | done =>
      rw [textOf_cons, List.append_assoc] at heq
      exact absurd heq.symm (hrest'.not_fits hfits)
    | @piece _ p' pieces' _ hfits' hsplit' =>
      rw [textOf_cons, textOf_cons, List.append_assoc, List.append_assoc] at heq
      obtain rfl := hfits.unique hfits' heq
      obtain ⟨rfl, rfl⟩ := ih hsplit' hrest (List.append_cancel_left heq)
      exact ⟨rfl, rfl⟩

end Unique

/-! ## What a cut takes -/

section Cuts

variable {c : Char} {tail before rest : List Char} {cut : Cut} {problem : ScanProblem}

theorem length_le_takeWhile {p : Char → Bool} {front : List Char} (h : ∀ d ∈ front, p d) :
    front.length ≤ ((front ++ rest).takeWhile p).length := by
  rw [List.takeWhile_append_of_pos h, List.length_append]
  exact Nat.le_add_right _ _

namespace Numeral

theorem text_of_fraction {whole fraction : List Char} (h : fraction ≠ []) :
    (⟨whole, fraction⟩ : Numeral).text = whole ++ '.' :: fraction := by
  unfold text
  rw [List.isEmpty_eq_false_iff.mpr h]
  rfl

theorem front_append (all : List Char) : (front all).1.text ++ (front all).2 = all := by
  have hwhole := List.takeWhile_append_dropWhile (p := Char.isDigit) (l := all)
  unfold front
  split
  · rename_i digit rest heq
    rw [heq] at hwhole
    split
    · rename_i hdigit
      have hne : (digit :: rest).takeWhile Char.isDigit ≠ [] := by
        rw [List.takeWhile_cons_of_pos hdigit]
        exact List.cons_ne_nil _ _
      rw [text_of_fraction hne, List.append_assoc, List.cons_append,
        List.takeWhile_append_dropWhile]
      exact hwhole
    · exact hwhole
  · exact hwhole

theorem whole_front (all : List Char) : (front all).1.whole = all.takeWhile Char.isDigit := by
  unfold front
  split
  · split
    · rfl
    · rfl
  · rfl

theorem length_whole_le (n : Numeral) : n.whole.length ≤ n.text.length := by
  unfold text
  split
  · exact Nat.le_refl _
  · rw [List.length_append]
    exact Nat.le_add_right _ _

/-- No numeral at the front of a text is longer than the one that is read. -/
theorem length_le_front {n : Numeral} (hn : n.Digits) (rest : List Char) :
    n.text.length ≤ (front (n.text ++ rest)).1.text.length := by
  obtain ⟨whole, fraction⟩ := n
  cases fraction with
  | nil =>
    refine le_trans ?_ (length_whole_le _)
    rw [whole_front]
    exact length_le_takeWhile hn.whole
  | cons d fraction =>
    have hpoint : ∀ d' ∈ ('.' :: (d :: fraction ++ rest)).head?, d'.isDigit = false := by
      rintro _ ⟨⟩
      decide
    obtain ⟨htake, hdrop⟩ := takeWhile_of_head hn.whole hpoint
    have hle : (d :: fraction).length ≤ ((d :: fraction ++ rest).takeWhile Char.isDigit).length :=
      length_le_takeWhile hn.fraction
    have hne : (d :: fraction ++ rest).takeWhile Char.isDigit ≠ [] := by
      intro hnil
      rw [hnil] at hle
      cases hle
    rw [text_of_fraction (List.cons_ne_nil _ _), List.append_assoc, List.cons_append]
    unfold front
    rw [hdrop, htake]
    simp only [List.cons_append, hn.fraction d List.mem_cons_self, if_true] at hle hne ⊢
    rw [text_of_fraction hne, List.length_append, List.length_append]
    exact Nat.add_le_add_left (Nat.succ_le_succ hle) _

end Numeral

/-- The longest token at the front of a text is to be sought among those that begin alike. -/
theorem longest_of_headed {written : List Char} (heq : written ++ rest = c :: tail)
    (h : ∀ kind text more, Headed c more kind text → more <+: tail →
      more.length < written.length) : Longest written rest := by
  intro kind text longer hspells hbegins
  obtain ⟨d, more, rfl⟩ := List.exists_cons_of_ne_nil hspells.ne_nil
  rw [heq, List.cons_prefix_cons] at hbegins
  obtain ⟨rfl, hbegins⟩ := hbegins
  exact h kind text more hspells.headed hbegins

theorem longest_number (hc : c.isDigit) :
    Longest (Numeral.front (c :: tail)).1.text (Numeral.front (c :: tail)).2 := by
  refine longest_of_headed (Numeral.front_append _) fun kind text more hheaded hbegins => ?_
  obtain ⟨-, -, n, hn, htext⟩ := hheaded.of_digit hc
  obtain ⟨rest, rfl⟩ := hbegins
  have hle := Numeral.length_le_front hn rest
  rw [htext] at hle
  exact hle

theorem longest_string {body : List Char} (hc : isQuote c) (hbody : c ∉ body) :
    Longest (c :: body ++ [c]) rest := by
  have heq : c :: body ++ [c] ++ rest = c :: (body ++ c :: rest) := by simp
  refine longest_of_headed heq fun kind text more hheaded hbegins => ?_
  obtain ⟨-, htext, rfl⟩ := hheaded.of_quote hc
  obtain ⟨rest', heq'⟩ := hbegins
  rw [List.append_assoc] at heq'
  have front {body rest : List Char} (hbody : c ∉ body) :
      (body ++ c :: rest).takeWhile (· != c) = body := by
    refine (takeWhile_of_head (fun d hd => ?_) fun d hd => ?_).1
    · rw [bne_iff_ne]
      rintro rfl
      exact hbody hd
    · cases hd
      exact bne_self_eq_false _
  have hsame : text = body := by rw [← front htext, ← front hbody, ← heq']; rfl
  rw [hsame]
  simp

theorem longest_word (hc : isLetter c) :
    Longest (c :: tail.takeWhile isWordPart) (tail.dropWhile isWordPart) := by
  refine longest_of_headed (congrArg (c :: ·) List.takeWhile_append_dropWhile)
    fun kind text more hheaded hbegins => ?_
  obtain ⟨-, -, hword⟩ := hheaded.of_letter hc
  obtain ⟨rest, rfl⟩ := hbegins
  exact Nat.lt_succ_of_le (length_le_takeWhile hword)

/-- A sign is the longest if it has two characters, or none of two begins alike. -/
theorem longest_sign {s : Sign} {more : List Char} (hs : s.spelling = c :: more)
    (hshort : more = [] → ∀ rest' s, rest = '=' :: rest' → Sign.double? c = some s → False) :
    Longest (c :: more) rest := by
  refine longest_of_headed rfl fun kind text more' hheaded hbegins => ?_
  obtain ⟨s', -, -, hs'⟩ := hheaded.of_sign (Sign.single_of_spelling hs)
  rcases s'.spelling_cases with ⟨d, hd, -⟩ | ⟨d, hd, hdouble, -⟩
  · cases hs'.symm.trans hd
    exact Nat.succ_pos _
  · cases hs'.symm.trans hd
    cases more with
    | nil =>
      obtain ⟨rest', heq⟩ := hbegins
      exact (hshort rfl rest' s' heq.symm hdouble).elim
    | cons d more => exact Nat.succ_lt_succ (Nat.succ_pos _)

/-- What is cut off a text is whole pieces of it, with the tokens among them. -/
def Cut.TakesPieces (cut : Cut) (before text : List Char) : Prop :=
  text = cut.taken ++ cut.rest ∧
    ∃ pieces, textOf pieces = cut.taken ∧ tokensOf pieces = cut.marks (1 + lineEnds before) ∧
      Split before pieces cut.rest

/-- A token is taken, if it is the longest and no comment stands in its place. -/
theorem Cut.TakesPieces.token {kind : Kind} {word written : List Char}
    (hspells : Spells kind word written) (hlongest : Longest written rest)
    (hcomment : ¬ ['/', '/'] <+: written ++ rest) :
    Cut.TakesPieces ⟨some (kind, word), written, rest⟩ before (written ++ rest) := by
  refine ⟨rfl, [.token ⟨kind, String.ofList word, 1 + lineEnds before⟩ written],
    List.append_nil _, rfl, .piece (.token ?_ hlongest hcomment rfl) .done⟩
  rw [String.toList_ofList]
  exact hspells

theorem Cut.TakesPieces.blanks {blanks : List Char} (h : ∀ c ∈ blanks, isLayout c) :
    (Cut.layout blanks rest).TakesPieces before (blanks ++ rest) := by
  refine ⟨rfl, blanks.map fun c => .layout [c], ?_, ?_, ?_⟩
  · rw [textOf, List.flatMap_map]
    exact List.flatMap_singleton' _
  · rw [tokensOf, List.filterMap_map]
    exact List.filterMap_eq_nil_iff.mpr fun _ _ => rfl
  · change Split before (blanks.map fun c => Piece.layout [c]) rest
    induction blanks generalizing before with
    | nil => exact .done
    | cons c blanks ih =>
      exact .piece (.layout (.blank (h c List.mem_cons_self)))
        (ih fun d hd => h d (List.mem_cons_of_mem _ hd))

theorem Cut.TakesPieces.comment {body : List Char} (hbody : '\n' ∉ body)
    (hrest : ∀ c ∈ rest.head?, c = '\n') :
    (Cut.layout ('/' :: '/' :: body) rest).TakesPieces before ('/' :: '/' :: body ++ rest) :=
  ⟨rfl, [.layout ('/' :: '/' :: body)], List.append_nil _, rfl,
    .piece (.layout (.comment hbody hrest)) .done⟩

theorem no_comment (h : (c == '/') = false) : ¬ ['/', '/'] <+: c :: tail := by
  rintro ⟨_, heq⟩
  rw [← (List.cons.inj heq).1] at h
  cases h

theorem takesPieces_of_numeral (hc : c.isDigit) (hcomment : ¬ ['/', '/'] <+: c :: tail) :
    (Cut.plain (.atom .number) (Numeral.front (c :: tail)).1.text
      (Numeral.front (c :: tail)).2).TakesPieces before (c :: tail) := by
  have hall := Numeral.front_append (c :: tail)
  have hspelt : Spelt (.atom .number) (Numeral.front (c :: tail)).1.text :=
    .number (Numeral.front_digits hc)
  have hlongest : Longest (Numeral.front (c :: tail)).1.text (Numeral.front (c :: tail)).2 :=
    longest_number hc
  generalize Numeral.front (c :: tail) = read at hall hspelt hlongest ⊢
  rw [← hall] at hcomment ⊢
  exact .token (.plain hspelt nofun) hlongest hcomment

theorem takesPieces_of_string (hc : isQuote c) (h : Cut.string? c tail = .ok cut) :
    cut.TakesPieces before (c :: tail) := by
  unfold Cut.string? at h
  have hall := List.takeWhile_append_dropWhile (p := (· != c)) (l := tail)
  have hfree : c ∉ tail.takeWhile (· != c) := by
    intro hmem
    have hne := List.mem_takeWhile_imp hmem
    simp at hne
  split at h
  · cases h
  · rename_i close rest hdrop
    cases h
    obtain rfl : close = c := by
      have hstop := List.head?_dropWhile_not (· != c) tail
      rw [hdrop] at hstop
      simpa using hstop
    rw [hdrop] at hall
    generalize tail.takeWhile (· != close) = body at hall hfree ⊢
    have heq : close :: tail = close :: body ++ [close] ++ rest := by simp [← hall]
    rw [heq]
    exact .token (.string hc hfree) (longest_string hc hfree)
      (no_comment (other_of_quote hc).2.2.2)

theorem takesPieces_of_sign (hcomment : ¬ ['/', '/'] <+: c :: tail)
    (h : Cut.sign? c tail = .ok cut) : cut.TakesPieces before (c :: tail) := by
  have spells (s : Sign) : Spells (.sign s) s.spelling s.spelling := .plain .sign nofun
  unfold Cut.sign? at h
  split at h
  · rename_i s hs
    cases h
    have hspelling := Sign.spelling_of_double hs
    have hspells := spells s
    rw [hspelling] at hspells
    exact .token hspells (longest_sign hspelling nofun) hcomment
  · rename_i s hs hnone
    cases h
    have hspelling := Sign.spelling_of_single hs
    have hspells := spells s
    rw [hspelling] at hspells
    exact .token hspells (longest_sign hspelling fun _ => hnone) hcomment
  · cases h

/-- A cut takes whole pieces. -/
theorem takesPieces_of_front (before : List Char) (h : Cut.front c tail = .ok cut) :
    cut.TakesPieces before (c :: tail) := by
  have span (p : Char → Bool) : c :: tail = c :: tail.takeWhile p ++ tail.dropWhile p :=
    congrArg (c :: ·) List.takeWhile_append_dropWhile.symm
  unfold Cut.front at h
  split at h
  case isTrue hblank =>
    cases h
    rw [span isLayout]
    refine .blanks fun d hd => ?_
    rcases List.mem_cons.mp hd with rfl | hd
    · exact hblank
    · exact List.mem_takeWhile_imp hd
  case isFalse hblank =>
  split at h
  case isTrue hslashes =>
    rw [Bool.and_eq_true, beq_iff_eq, beq_iff_eq] at hslashes
    obtain ⟨rfl, hhead⟩ := hslashes
    obtain ⟨rest, rfl⟩ := List.head?_eq_some_iff.mp hhead
    cases h
    rw [span (· != '\n'), List.takeWhile_cons_of_pos rfl, List.dropWhile_cons_of_pos rfl]
    refine .comment (fun hmem => ?_) fun d hd => ?_
    · have hne := List.mem_takeWhile_imp hmem
      simp at hne
    · have hstop := List.head?_dropWhile_not (· != '\n') rest
      rw [Option.mem_def.mp hd] at hstop
      simpa using hstop
  case isFalse hslashes =>
  have hcomment : ¬ ['/', '/'] <+: c :: tail := by
    rintro ⟨rest, heq⟩
    cases heq
    exact hslashes rfl
  split at h
  case isTrue hdigit =>
    cases h
    exact takesPieces_of_numeral hdigit hcomment
  case isFalse hdigit =>
  split at h
  case isTrue hquote => exact takesPieces_of_string hquote h
  case isFalse hquote =>
  split at h
  case isTrue hletter =>
    cases h
    have hspelt : Spelt (Kind.ofWord (String.ofList (c :: tail.takeWhile isWordPart)))
        (c :: tail.takeWhile isWordPart) :=
      .word hletter (fun d hd => List.mem_takeWhile_imp hd) rfl
    have hkind : Kind.ofWord (String.ofList (c :: tail.takeWhile isWordPart)) ≠ .atom .string :=
      fun heq => Bool.noConfusion (isWord_of_ofWord heq)
    rw [span isWordPart] at hcomment ⊢
    exact .token (.plain hspelt hkind) (longest_word hletter) hcomment
  case isFalse hletter => exact takesPieces_of_sign hcomment h

/-- Where nothing can be cut off, no piece can be taken. -/
theorem stuck_of_front (h : Cut.front c tail = .error problem) : Stuck problem (c :: tail) := by
  unfold Cut.front at h
  split at h
  case isTrue => cases h
  case isFalse hblank =>
  split at h
  case isTrue => cases h
  case isFalse =>
  split at h
  case isTrue => cases h
  case isFalse hdigit =>
  split at h
  case isTrue hquote =>
    unfold Cut.string? at h
    split at h
    · rename_i hdrop
      cases h
      refine .openString hquote fun hmem => ?_
      have hne := List.dropWhile_eq_nil_iff.mp hdrop c hmem
      simp at hne
    · cases h
  case isFalse hquote =>
  split at h
  case isTrue => cases h
  case isFalse hletter =>
  unfold Cut.sign? at h
  split at h
  case h_1 => cases h
  case h_2 => cases h
  case h_3 hnone _ _ =>
    cases h
    refine .strangeCharacter (Bool.eq_false_iff.mpr hblank) ?_
    intro kind text written hspells hhead
    obtain ⟨rest, rfl⟩ := List.head?_eq_some_iff.mp hhead
    cases hspells.headed with
    | number hd => exact hdigit hd
    | string hq => exact hquote hq
    | word hl => exact hletter hl
    | sign hs =>
      have hsome := Sign.single_of_spelling hs
      rw [hnone] at hsome
      cases hsome

end Cuts

/-! ## The whole script -/

section Scripts

variable {cuts : Nat} {line : Int} {text before : List Char} {found : List Token}

/-- How the scanner ends: with all the text split, or with the rest of it stuck. -/
def ScanEnds (line : Int) (before text : List Char) (found : List Token) :
    Except ScanError (List Token) → Prop
  | .ok tokens => ∃ pieces, text = textOf pieces ∧ Split before pieces [] ∧
      tokens = found.reverse ++ (tokensOf pieces ++ [endMark (line + lineEnds text)])
  | .error e => ∃ pieces rest, text = textOf pieces ++ rest ∧ Split before pieces rest ∧
      Stuck e.problem rest ∧ e.line = line + lineEnds (textOf pieces)

theorem scanEnds_nil : ScanEnds line before [] found (.ok ((endMark line :: found).reverse)) :=
  ⟨[], rfl, .done, by simp [tokensOf, lineEnds]⟩

/-- What holds of the text after some pieces holds of all of it. -/
theorem ScanEnds.after {pieces : List Piece} {rest : List Char}
    {result : Except ScanError (List Token)} (hsplit : Split before pieces rest)
    (hrest : ScanEnds (line + lineEnds (textOf pieces)) (before ++ textOf pieces) rest
      ((tokensOf pieces).reverse ++ found) result) :
    ScanEnds line before (textOf pieces ++ rest) found result := by
  cases result with
  | ok tokens =>
    obtain ⟨more, rfl, hmore, rfl⟩ := hrest
    refine ⟨pieces ++ more, (textOf_append _ _).symm, ?_, ?_⟩
    · refine Split.append ?_ hmore
      rw [List.append_nil]
      exact hsplit
    · rw [tokensOf_append, lineEnds_append, List.reverse_append, List.reverse_reverse,
        Int.add_assoc, List.append_assoc, List.append_assoc]
  | error e =>
    obtain ⟨more, rest, rfl, hmore, hstuck, hline⟩ := hrest
    refine ⟨pieces ++ more, rest, ?_, .append hsplit hmore, hstuck, ?_⟩
    · rw [textOf_append, List.append_assoc]
    · rw [hline, textOf_append, lineEnds_append, Int.add_assoc]

theorem scanEnds_scanFrom (hcuts : text.length ≤ cuts) :
    ScanEnds (1 + lineEnds before) before text found
      (scanFrom cuts (1 + lineEnds before) text found) := by
  induction cuts generalizing text before found with
  | zero =>
    obtain rfl := List.eq_nil_of_length_eq_zero (Nat.le_zero.mp hcuts)
    exact scanEnds_nil
  | succ cuts ih =>
    cases text with
    | nil => exact scanEnds_nil
    | cons c tail =>
      cases hfront : Cut.front c tail with
      | error problem =>
        rw [scanFrom, hfront]
        exact ⟨[], c :: tail, rfl, .done, stuck_of_front hfront, (Int.add_zero _).symm⟩
      | ok cut =>
        obtain ⟨htext, pieces, htaken, htokens, hsplit⟩ :=
          takesPieces_of_front before hfront
        have hle : cut.rest.length ≤ cuts :=
          (Cut.rest_le hfront).trans (Nat.le_of_succ_le_succ hcuts)
        rw [scanFrom_cons hfront, htext, ← htaken]
        refine .after hsplit ?_
        have hmarks : (tokensOf pieces).reverse = cut.marks (1 + lineEnds before) := by
          rw [htokens, Cut.reverse_marks]
        rw [hmarks, Int.add_assoc, ← lineEnds_append]
        exact ih hle

theorem Split.ne_finish {pieces : List Piece} {rest : List Char} (h : Split before pieces rest) :
    ∀ t ∈ tokensOf pieces, t.kind ≠ .finish := by
  have spelt {kind : Kind} {text written : List Char} (h : Spells kind text written) :
      kind ≠ .finish := by
    cases h with
    | plain hspelt _ => exact hspelt.ne_finish
    | string => exact nofun
  induction h with
  | done => exact nofun
  | @piece before p pieces rest hfits _ ih =>
    cases hfits with
    | layout => exact ih
    | token hspells =>
      intro t ht
      rcases List.mem_cons.mp ht with rfl | ht
      · exact spelt hspells
      · exact ih t ht

theorem scanEnds_scan (source : String) : ScanEnds 1 [] source.toList [] (scan source) := by
  have hends : ScanEnds (1 + lineEnds []) [] source.toList [] (scan source) :=
    scanEnds_scanFrom (Nat.le_refl _)
  exact hends

/-- A script that is split to its end has these tokens. -/
theorem scan_of_split {source : String} {pieces : List Piece}
    (htext : source.toList = textOf pieces) (hsplit : Split [] pieces []) :
    scan source = .ok (tokensOf pieces ++ [endMark (1 + lineEnds source.toList)]) := by
  have hends := scanEnds_scan source
  cases hscan : scan source with
  | ok tokens =>
    rw [hscan] at hends
    obtain ⟨pieces', htext', hsplit', rfl⟩ := hends
    have heq : textOf pieces ++ [] = textOf pieces' ++ [] := by rw [← htext, ← htext']
    obtain ⟨rfl, -⟩ := hsplit.unique hsplit' (Or.inl rfl) (Or.inl rfl) heq
    rfl
  | error e =>
    rw [hscan] at hends
    obtain ⟨pieces', rest, htext', hsplit', hstuck, -⟩ := hends
    have heq : textOf pieces ++ [] = textOf pieces' ++ rest := by
      rw [List.append_nil, ← htext, ← htext']
    obtain ⟨-, rfl⟩ := hsplit.unique hsplit' (Or.inl rfl) (Or.inr ⟨_, hstuck⟩) heq
    exact absurd rfl hstuck.ne_nil

/-- A script whose splitting gets stuck has no tokens, for that reason and on that line. -/
theorem scan_of_stuck {source : String} {pieces : List Piece} {rest : List Char}
    {problem : ScanProblem} (htext : source.toList = textOf pieces ++ rest)
    (hsplit : Split [] pieces rest) (hstuck : Stuck problem rest) :
    scan source = .error ⟨problem, 1 + lineEnds (textOf pieces)⟩ := by
  have hends := scanEnds_scan source
  cases hscan : scan source with
  | ok tokens =>
    rw [hscan] at hends
    obtain ⟨pieces', htext', hsplit', rfl⟩ := hends
    have heq : textOf pieces ++ rest = textOf pieces' ++ [] := by
      rw [List.append_nil, ← htext, ← htext']
    obtain ⟨-, rfl⟩ := hsplit.unique hsplit' (Or.inr ⟨_, hstuck⟩) (Or.inl rfl) heq
    exact absurd rfl hstuck.ne_nil
  | error e =>
    rw [hscan] at hends
    obtain ⟨pieces', rest', htext', hsplit', hstuck', hline⟩ := hends
    have heq : textOf pieces ++ rest = textOf pieces' ++ rest' := by rw [← htext, ← htext']
    obtain ⟨rfl, rfl⟩ := hsplit.unique hsplit' (Or.inr ⟨_, hstuck⟩) (Or.inr ⟨_, hstuck'⟩) heq
    obtain ⟨problem', line⟩ := e
    cases hstuck.unique hstuck'
    cases hline
    rfl

/-- A script has the tokens that it is split into, and the end mark after them. It has none where
the splitting comes to a string that is not closed, or to a character that begins nothing. -/
theorem scripts_are_split (source : String) :
    (∀ tokens, scan source = .ok tokens ↔
      ∃ pieces, source.toList = textOf pieces ∧ Split [] pieces [] ∧
        (∀ t ∈ tokensOf pieces, t.kind ≠ .finish) ∧
        tokens = tokensOf pieces ++ [endMark (1 + lineEnds source.toList)]) ∧
    ∀ e, scan source = .error e ↔
      ∃ pieces rest, source.toList = textOf pieces ++ rest ∧ Split [] pieces rest ∧
        Stuck e.problem rest ∧ e.line = 1 + lineEnds (textOf pieces) := by
  have hends := scanEnds_scan source
  refine ⟨fun tokens => ⟨fun hscan => ?_, ?_⟩, fun e => ⟨fun hscan => ?_, ?_⟩⟩
  · rw [hscan] at hends
    obtain ⟨pieces, htext, hsplit, rfl⟩ := hends
    exact ⟨pieces, htext, hsplit, hsplit.ne_finish, rfl⟩
  · rintro ⟨pieces, htext, hsplit, -, rfl⟩
    exact scan_of_split htext hsplit
  · rw [hscan] at hends
    exact hends
  · rintro ⟨pieces, rest, htext, hsplit, hstuck, hline⟩
    obtain ⟨problem, line⟩ := e
    cases hline
    exact scan_of_stuck htext hsplit hstuck

end Scripts

end FunkLang
