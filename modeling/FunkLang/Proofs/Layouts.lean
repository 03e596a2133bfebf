-- Tokens that are written apart are found again, whatever layout stands between
-- them. What they are read as depends on the layout in its lines only.
import FunkLang.Proofs.Splitting
import FunkLang.Proofs.Unlined

namespace FunkLang

/-! ## Tokens apart -/

/-- Blanks, and comments with the ends of their lines. -/
inductive Layout : List Char → Prop
  | nil : Layout []
  | blank {c rest} : isLayout c → Layout rest → Layout (c :: rest)
  | comment {body rest} : '\n' ∉ body → Layout rest → Layout ('/' :: '/' :: body ++ '\n' :: rest)

/-- What may stand between two tokens: layout that begins with a blank. -/
structure Gap where
  blank : Char
  more : List Char
  blank_isLayout : isLayout blank
  more_layout : Layout more

def Gap.text (gap : Gap) : List Char := gap.blank :: gap.more

/-- A token without a line, and what is written for it. -/
structure Item where
  kind : Kind
  text : List Char
  written : List Char
  spells : Spells kind text written

def Item.lexeme (item : Item) : Lexeme := (item.kind, item.text)

/-- The text of some items, with a gap between any two. -/
def laidOut : (gap : Nat → Gap) → List Item → List Char
  | _, [] => []
  | _, [item] => item.written
  | gap, item :: rest => item.written ++ (gap 0).text ++ laidOut (fun i => gap (i + 1)) rest

/-- The tokens of some items with a gap between any two, after the text `before`. -/
def tokensLaidOut : (gap : Nat → Gap) → (before : List Char) → List Item → List Token
  | _, _, [] => []
  | gap, before, item :: rest =>
    ⟨item.kind, String.ofList item.text, 1 + lineEnds before⟩ ::
      tokensLaidOut (fun i => gap (i + 1)) (before ++ item.written ++ (gap 0).text) rest

/-! ## No token reaches into a gap -/

section Fits

variable {c : Char} {kind : Kind} {text written before rest more : List Char}

theorem Numeral.Digits.no_blank {n : Numeral} (hn : n.Digits) :
    ∀ d ∈ n.text, isLayout d = false := by
  have digit {d : Char} (hd : d.isDigit) : isLayout d = false :=
    layout_of_wordPart (wordPart_of_digit hd)
  intro d hd
  unfold Numeral.text at hd
  split at hd
  · exact digit (hn.whole d hd)
  · rcases List.mem_append.mp hd with hd | hd
    · exact digit (hn.whole d hd)
    · rcases List.mem_cons.mp hd with rfl | hd
      · rfl
      · exact digit (hn.fraction d hd)

/-- No character of what is written is a blank, unless it is written between quotes. -/
theorem Headed.no_blank (h : Headed c more kind text) (hquote : isQuote c = false) :
    ∀ d ∈ c :: more, isLayout d = false := by
  cases h with
  | number _ hn htext => exact htext ▸ hn.no_blank
  | string hc => exact absurd hc (by simp [hquote])
  | word hc hword =>
    intro d hd
    rcases List.mem_cons.mp hd with rfl | hd
    · exact layout_of_wordPart (wordPart_of_letter hc)
    · exact layout_of_wordPart (hword d hd)
  | @sign s hs =>
    have hblank := (Sign.other_of_single (Sign.single_of_spelling hs)).1
    intro d hd
    rcases s.spelling_cases with ⟨c', hc', -⟩ | ⟨c', hc', -⟩
    · cases hs.symm.trans hc'
      cases List.mem_singleton.mp hd
      exact hblank
    · cases hs.symm.trans hc'
      rcases List.mem_cons.mp hd with rfl | hd
      · exact hblank
      · cases List.mem_singleton.mp hd
        rfl

/-- What begins a text without blanks ends before the first blank. -/
theorem length_le_of_no_blank {longer : List Char} (hlonger : ∀ d ∈ longer, isLayout d = false)
    (hrest : ∀ d ∈ rest.head?, isLayout d) (hbegins : longer <+: written ++ rest) :
    longer.length ≤ written.length := by
  obtain ⟨tail, heq⟩ := hbegins
  rcases List.append_eq_append_iff.mp heq with ⟨more, rfl, -⟩ | ⟨beyond, rfl, rfl⟩
  · rw [List.length_append]
    exact Nat.le_add_right _ _
  · cases beyond with
    | nil => rw [List.append_nil]
    | cons d beyond =>
      have hblank := hlonger d (List.mem_append_right _ List.mem_cons_self)
      rw [hrest d rfl] at hblank
      cases hblank

/-- A token is the longest where a blank comes next, or the end. -/
theorem longest_of_gap (h : Spells kind text written) (hrest : ∀ d ∈ rest.head?, isLayout d) :
    Longest written rest := by
  obtain ⟨c, more, rfl⟩ := List.exists_cons_of_ne_nil h.ne_nil
  cases hquote : isQuote c with
  | true =>
    obtain ⟨-, hfree, rfl⟩ := h.headed.of_quote hquote
    exact longest_string hquote hfree
  | false =>
    refine longest_of_headed rfl fun kind' text' more' hheaded hbegins => ?_
    have hbegins' : c :: more' <+: c :: more ++ rest := (List.prefix_cons_inj c).mpr hbegins
    exact length_le_of_no_blank (hheaded.no_blank hquote) hrest hbegins'

theorem fits_of_gap (h : Spells kind text written) (hrest : ∀ d ∈ rest.head?, isLayout d) :
    (Piece.token ⟨kind, String.ofList text, 1 + lineEnds before⟩ written).Fits before rest := by
  refine .token ?_ (longest_of_gap h hrest) ?_ rfl
  · rw [String.toList_ofList]
    exact h
  obtain ⟨c, more, rfl⟩ := List.exists_cons_of_ne_nil h.ne_nil
  cases h.headed with
  | number hc => exact no_comment (slash_of_wordPart (wordPart_of_digit hc))
  | string hc => exact no_comment (other_of_quote hc).2.2.2
  | word hc => exact no_comment (slash_of_wordPart (wordPart_of_letter hc))
  | @sign s hs =>
    rintro ⟨tail, heq⟩
    rw [← hs] at heq
    rcases s.spelling_cases with ⟨d, hd, -⟩ | ⟨d, hd, -⟩
    · rw [hd] at heq
      obtain ⟨-, rfl⟩ := List.cons.inj heq
      exact absurd (hrest '/' rfl) nofun
    · rw [hd] at heq
      exact absurd (List.cons.inj (List.cons.inj heq).2).1 (by decide)

/-- Layout is split into blanks and comments. -/
theorem split_layout (h : Layout text) (before rest : List Char) :
    ∃ pieces, textOf pieces = text ∧ tokensOf pieces = [] ∧ Split before pieces rest := by
  induction h generalizing before with
  | nil => exact ⟨[], rfl, rfl, .done⟩
  | @blank c more hc _ ih =>
    obtain ⟨pieces, htext, htokens, hsplit⟩ := ih (before ++ [c])
    exact ⟨.layout [c] :: pieces, congrArg (c :: ·) htext, htokens,
      .piece (.layout (.blank hc)) hsplit⟩
  | @comment body more hbody _ ih =>
    obtain ⟨pieces, rfl, htokens, hsplit⟩ := ih (before ++ ('/' :: '/' :: body) ++ ['\n'])
    refine ⟨.layout ('/' :: '/' :: body) :: .layout ['\n'] :: pieces, ?_, htokens, ?_⟩
    · rw [textOf_cons, textOf_cons]
      rfl
    · refine .piece (.layout (.comment hbody ?_)) (.piece (.layout (.blank rfl)) hsplit)
      rintro _ ⟨⟩
      rfl

end Fits

/-! ## The tokens of a layout -/

section Tokens

variable {gap gap' : Nat → Gap} {items items' : List Item}

/-- What is laid out is split into its tokens and its gaps. -/
theorem split_laidOut (gap : Nat → Gap) (items : List Item) (before : List Char) :
    ∃ pieces, textOf pieces = laidOut gap items ∧
      tokensOf pieces = tokensLaidOut gap before items ∧ Split before pieces [] := by
  induction items generalizing gap before with
  | nil => exact ⟨[], rfl, rfl, .done⟩
  | cons item rest ih =>
    cases rest with
    | nil =>
      refine ⟨[.token ⟨item.kind, String.ofList item.text, 1 + lineEnds before⟩ item.written],
        List.append_nil _, rfl, .piece (fits_of_gap item.spells nofun) .done⟩
    | cons next rest =>
      obtain ⟨more, hmore, htokens, hsplit⟩ :=
        ih (fun i => gap (i + 1)) (before ++ item.written ++ (gap 0).text)
      have hgap : Layout (gap 0).text := .blank (gap 0).blank_isLayout (gap 0).more_layout
      obtain ⟨blanks, hblanks, hnone, hsplit'⟩ :=
        split_layout hgap (before ++ item.written) (textOf more)
      refine ⟨.token ⟨item.kind, String.ofList item.text, 1 + lineEnds before⟩ item.written ::
        (blanks ++ more), ?_, ?_, .piece (fits_of_gap item.spells ?_) (.append ?_ ?_)⟩
      · rw [textOf_cons, textOf_append, hblanks, hmore, ← List.append_assoc]
        rfl
      · have hall : tokensOf (blanks ++ more) = tokensOf more := by
          rw [tokensOf_append, hnone, List.nil_append]
        exact congrArg (_ :: ·) (hall.trans htokens)
      · rw [List.append_nil, textOf_append, hblanks]
        rintro _ ⟨⟩
        exact (gap 0).blank_isLayout
      · rw [List.append_nil]
        exact hsplit'
      · rw [hblanks]
        exact hsplit

theorem tokensLaidOut_unlined (gap : Nat → Gap) (before : List Char) (items : List Item) :
    (tokensLaidOut gap before items).map Mark.unlined =
      items.map fun item => ⟨item.kind, String.ofList item.text, 0⟩ := by
  induction items generalizing gap before with
  | nil => rfl
  | cons item rest ih =>
    rw [tokensLaidOut, List.map_cons, List.map_cons, ih]
    rfl

theorem scan_laidOut (gap : Nat → Gap) (items : List Item) :
    scan (String.ofList (laidOut gap items)) =
      .ok (tokensLaidOut gap [] items ++ [endMark (1 + lineEnds (laidOut gap items))]) := by
  obtain ⟨pieces, htext, htokens, hsplit⟩ := split_laidOut gap items []
  have hsource : (String.ofList (laidOut gap items)).toList = textOf pieces := by
    rw [String.toList_ofList, htext]
  rw [scan_of_split hsource hsplit, htokens, String.toList_ofList]

/-- What is laid out is read, up to lines, as its lexemes say. -/
theorem readScript_laidOut (gap : Nat → Gap) (items : List Item) :
    (readScript (String.ofList (laidOut gap items))).unlined =
      readTokens
        ((items.map fun item => ⟨item.kind, String.ofList item.text, 0⟩) ++ [endMark 0]) := by
  have hread : readScript (String.ofList (laidOut gap items)) =
      readTokens (tokensLaidOut gap [] items ++ [endMark (1 + lineEnds (laidOut gap items))]) := by
    unfold readScript
    rw [scan_laidOut]
    rfl
  rw [hread, ← readTokens_unlined (by simp), List.map_append, tokensLaidOut_unlined]
  rfl

/-- Tokens that are written apart are found in the text, on the lines that they begin on, with the
end mark after them. What they are read as is the same in all layouts, up to lines. -/
theorem layout_matters_for_lines_only (gap : Nat → Gap) (items : List Item) :
    scan (String.ofList (laidOut gap items)) =
        .ok (tokensLaidOut gap [] items ++ [endMark (1 + lineEnds (laidOut gap items))]) ∧
      ∀ gap' items', items'.map Item.lexeme = items.map Item.lexeme →
        (readScript (String.ofList (laidOut gap' items'))).unlined =
          (readScript (String.ofList (laidOut gap items))).unlined := by
  refine ⟨scan_laidOut gap items, fun gap' items' hsame => ?_⟩
  have htokens : (items'.map fun item => (⟨item.kind, String.ofList item.text, 0⟩ : Token)) =
      items.map fun item => ⟨item.kind, String.ofList item.text, 0⟩ := by
    have hmap := congrArg
      (List.map fun lexeme : Lexeme => (⟨lexeme.1, String.ofList lexeme.2, 0⟩ : Token)) hsame
    rw [List.map_map, List.map_map] at hmap
    exact hmap
  rw [readScript_laidOut, readScript_laidOut, htokens]

end Tokens

/-- A string is assigned. -/
def naming (quote : Char) (hquote : isQuote quote) (hfree : quote ∉ ['b']) : List Item :=
  [⟨.atom .name, ['a'], _, .plain (.word rfl nofun rfl) nofun⟩,
    ⟨.sign .equal, ['='], _, .plain .sign nofun⟩, ⟨.atom .string, ['b'], _, .string hquote hfree⟩,
    ⟨.sign .semicolon, [';'], _, .plain .sign nofun⟩]

/-- A space everywhere. -/
def spaces : Nat → Gap := fun _ => ⟨' ', [], rfl, .nil⟩

/-- A line with a comment everywhere. -/
def remarks : Nat → Gap :=
  fun _ => ⟨'\n', ['/', '/', 'b', '\n'], rfl, @Layout.comment ['b'] [] (by decide) .nil⟩

theorem remarks_matter_for_lines_only :
    (naming '\'' rfl (by decide)).map Item.lexeme =
        (naming '"' rfl (by decide)).map Item.lexeme ∧
      (readScript (String.ofList (laidOut remarks (naming '\'' rfl (by decide))))).unlined =
        (readScript (String.ofList (laidOut spaces (naming '"' rfl (by decide))))).unlined := by
  have hsame : (naming '\'' rfl (by decide)).map Item.lexeme =
      (naming '"' rfl (by decide)).map Item.lexeme := rfl
  exact ⟨hsame, (layout_matters_for_lines_only spaces _).2 remarks _ hsame⟩

end FunkLang
