-- Two scripts with the end of a line between them. No token but a string reaches over the end of a
-- line, and a string that is closed is over. So what comes after the end of a line changes nothing
-- of what was found before it, and the second script is split as if it stood alone, further down.
import FunkLang.Proofs.Layouts

namespace FunkLang

/-! ## Further down -/

/-- The same token, some lines further down. -/
def Mark.lowered (lines : Int) (t : Token) : Token := { t with line := t.line + lines }

/-- The same piece, some lines further down. -/
def Piece.lowered (lines : Int) : Piece → Piece
  | layout text => .layout text
  | token t written => .token (t.lowered lines) written

section Lowered

theorem endMark_lowered (line lines : Int) :
    (endMark line).lowered lines = endMark (line + lines) := rfl

variable {above before rest : List Char} {p : Piece} {pieces : List Piece}

theorem Piece.text_lowered (lines : Int) (p : Piece) : (p.lowered lines).text = p.text := by
  cases p <;> rfl

theorem Piece.token?_lowered (lines : Int) (p : Piece) :
    (p.lowered lines).token? = p.token?.map (Mark.lowered lines) := by
  cases p <;> rfl

theorem textOf_lowered (lines : Int) (pieces : List Piece) :
    textOf (pieces.map (Piece.lowered lines)) = textOf pieces := by
  unfold textOf
  rw [List.flatMap_map]
  exact congrArg (pieces.flatMap ·) (funext (Piece.text_lowered lines))

theorem tokensOf_lowered (lines : Int) (pieces : List Piece) :
    tokensOf (pieces.map (Piece.lowered lines)) = (tokensOf pieces).map (Mark.lowered lines) := by
  unfold tokensOf
  rw [List.filterMap_map, List.map_filterMap]
  exact congrArg (pieces.filterMap ·) (funext (Piece.token?_lowered lines))

/-- A piece fits below a text where it fits without that text above it. -/
theorem Piece.Fits.lowered (h : p.Fits before rest) (above : List Char) :
    (p.lowered (lineEnds above)).Fits (above ++ before) rest := by
  cases h with
  | layout hlaid => exact .layout hlaid
  | @token t written hspells hlongest hcomment hline =>
    refine .token hspells hlongest hcomment ?_
    change t.line + lineEnds above = _
    rw [hline, lineEnds_append, Int.add_assoc, Int.add_comm (lineEnds before)]

/-- What is split is split in the same way below a text. -/
theorem Split.lowered (h : Split before pieces rest) (above : List Char) :
    Split (above ++ before) (pieces.map (Piece.lowered (lineEnds above))) rest := by
  induction h with
  | done => exact .done
  | @piece before p pieces rest hfits _ ih =>
    rw [List.map_cons]
    refine .piece ?_ ?_
    · rw [textOf_lowered]
      exact hfits.lowered above
    · rw [Piece.text_lowered, List.append_assoc]
      exact ih

end Lowered

/-! ## Up to the end of a line -/

section LineEnds

variable {before text written rest more : List Char} {p : Piece} {pieces : List Piece}
  {kind : Kind} {c : Char}

/-- What holds no end of a line does not reach over one. -/
theorem prefix_of_lineEnd {front : List Char} (hfront : '\n' ∉ front)
    (h : front <+: text ++ '\n' :: more) : front <+: text := by
  obtain ⟨tail, heq⟩ := h
  rcases List.append_eq_append_iff.mp heq with ⟨more, rfl, -⟩ | ⟨beyond, rfl, hbeyond⟩
  · exact List.prefix_append _ _
  · cases beyond with
    | nil => exact ⟨[], by simp⟩
    | cons d beyond =>
      obtain ⟨rfl, -⟩ := List.cons.inj hbeyond
      exact absurd (List.mem_append_right _ List.mem_cons_self) hfront

theorem LaidOut.beforeLineEnd (h : LaidOut text rest) (more : List Char) :
    LaidOut text (rest ++ '\n' :: more) := by
  cases h with
  | blank hc => exact .blank hc
  | comment hbody hrest =>
    refine .comment hbody fun c hc => ?_
    cases rest with
    | nil =>
      cases hc
      rfl
    | cons d rest => exact hrest c hc

/-- No longer token begins where a token stands because of what comes on the lines after it. -/
theorem Longest.beforeLineEnd (h : Longest written rest) (hspells : Spells kind text written)
    (more : List Char) : Longest written (rest ++ '\n' :: more) := by
  obtain ⟨c, tail, rfl⟩ := List.exists_cons_of_ne_nil hspells.ne_nil
  cases hquote : isQuote c with
  | true =>
    obtain ⟨-, hfree, rfl⟩ := hspells.headed.of_quote hquote
    exact longest_string hquote hfree
  | false =>
    intro kind' text' longer hlonger hbegins
    rw [← List.append_assoc] at hbegins
    refine h kind' text' longer hlonger (prefix_of_lineEnd ?_ hbegins)
    obtain ⟨d, longer, rfl⟩ := List.exists_cons_of_ne_nil hlonger.ne_nil
    obtain ⟨rfl, -⟩ := List.cons_prefix_cons.mp hbegins
    intro hmem
    cases hlonger.headed.no_blank hquote '\n' hmem

/-- A piece that fits fits also with more lines after it. -/
theorem Piece.Fits.beforeLineEnd (h : p.Fits before rest) (more : List Char) :
    p.Fits before (rest ++ '\n' :: more) := by
  cases h with
  | layout hlaid => exact .layout (hlaid.beforeLineEnd more)
  | token hspells hlongest hcomment hline =>
    refine .token hspells (hlongest.beforeLineEnd hspells more) (fun hslashes => hcomment ?_) hline
    rw [← List.append_assoc] at hslashes
    exact prefix_of_lineEnd (by decide) hslashes

/-- What is split is split in the same way with more lines after it. -/
theorem Split.beforeLineEnd (h : Split before pieces rest) (more : List Char) :
    Split before pieces (rest ++ '\n' :: more) := by
  induction h with
  | done => exact .done
  | piece hfits _ ih =>
    refine .piece ?_ ih
    rw [← List.append_assoc]
    exact hfits.beforeLineEnd more

end LineEnds

/-! ## Joined scripts -/

section Joined

variable {first : String} {pieces more : List Piece} {rest : List Char}

/-- The pieces of two scripts with the end of a line between them. -/
def joinedPieces (first : String) (pieces more : List Piece) : List Piece :=
  pieces ++ .layout ['\n'] :: more.map (Piece.lowered (1 + lineEnds first.toList))

theorem textOf_joinedPieces (first : String) (pieces more : List Piece) :
    textOf (joinedPieces first pieces more) = textOf pieces ++ '\n' :: textOf more := by
  unfold joinedPieces
  rw [textOf_append, textOf_cons, textOf_lowered]
  rfl

theorem tokensOf_joinedPieces (first : String) (pieces more : List Piece) :
    tokensOf (joinedPieces first pieces more) =
      tokensOf pieces ++ (tokensOf more).map (Mark.lowered (1 + lineEnds first.toList)) := by
  unfold joinedPieces
  rw [tokensOf_append, ← tokensOf_lowered]
  rfl

/-- Two split scripts are split with the end of a line between them, the second one further down. -/
theorem Split.joined (htext : first.toList = textOf pieces) (h : Split [] pieces [])
    (hmore : Split [] more rest) : Split [] (joinedPieces first pieces more) rest := by
  have hlines : lineEnds (textOf pieces ++ ['\n']) = 1 + lineEnds first.toList := by
    rw [lineEnds_append, htext, Int.add_comm]
    rfl
  have hlowered := hmore.lowered (textOf pieces ++ ['\n'])
  rw [List.append_nil, hlines] at hlowered
  refine Split.append ?_ (.piece (.layout (.blank rfl)) hlowered)
  rw [textOf_cons, List.append_assoc]
  exact h.beforeLineEnd _

theorem toList_twoScripts (first second : String) :
    (first ++ "\n" ++ second).toList = first.toList ++ '\n' :: second.toList := by
  rw [String.toList_append, String.toList_append, List.append_assoc]
  rfl

theorem lineEnds_joined (first : String) (text : List Char) :
    lineEnds (first.toList ++ '\n' :: text) = 1 + lineEnds first.toList + lineEnds text := by
  rw [List.append_cons, lineEnds_append, lineEnds_append, Int.add_comm 1]
  rfl

/-- A script that has tokens, the end of a line, and another script have the tokens of the first
one and then those of the second, each as many lines further down as the first one takes. Where the
second one has no tokens, the whole has none for the same reason, on a line as much further down.
A character that begins nothing ends the reading at once, whatever comes on the lines after it. -/
theorem scripts_are_joined_at_line_ends (first second : String) :
    (∀ tokens, scan first = .ok tokens →
      ∃ found, tokens = found ++ [endMark (1 + lineEnds first.toList)] ∧
        scan (first ++ "\n" ++ second) =
          match scan second with
          | .ok more => .ok (found ++ more.map (Mark.lowered (1 + lineEnds first.toList)))
          | .error e => .error ⟨e.problem, e.line + (1 + lineEnds first.toList)⟩) ∧
    ∀ e c, scan first = .error e → e.problem = .strangeCharacter c →
      scan (first ++ "\n" ++ second) = .error e := by
  refine ⟨fun tokens hfirst => ?_, fun e c hfirst hproblem => ?_⟩
  · obtain ⟨pieces, htext, hsplit, -, rfl⟩ := ((scripts_are_split first).1 tokens).mp hfirst
    refine ⟨tokensOf pieces, rfl, ?_⟩
    cases hsecond : scan second with
    | ok found =>
      obtain ⟨more, hmore, hsplit', -, rfl⟩ := ((scripts_are_split second).1 found).mp hsecond
      have hall : (first ++ "\n" ++ second).toList = textOf (joinedPieces first pieces more) := by
        rw [toList_twoScripts, textOf_joinedPieces, htext, hmore]
      have hlines : 1 + lineEnds (first ++ "\n" ++ second).toList =
          1 + lineEnds second.toList + (1 + lineEnds first.toList) := by
        rw [toList_twoScripts, lineEnds_joined]
        omega
      rw [scan_of_split hall (hsplit.joined htext hsplit'), tokensOf_joinedPieces, hlines,
        ← endMark_lowered, List.append_assoc]
      simp only [List.map_append, List.map_cons, List.map_nil]
    | error e =>
      obtain ⟨more, rest, hmore, hsplit', hstuck, hline⟩ :=
        ((scripts_are_split second).2 e).mp hsecond
      have hall : (first ++ "\n" ++ second).toList =
          textOf (joinedPieces first pieces more) ++ rest := by
        rw [toList_twoScripts, textOf_joinedPieces, htext, hmore, List.append_assoc]
        rfl
      have hlines : 1 + lineEnds (textOf (joinedPieces first pieces more)) =
          e.line + (1 + lineEnds first.toList) := by
        rw [textOf_joinedPieces, ← htext, lineEnds_joined, hline]
        omega
      rw [scan_of_stuck hall (hsplit.joined htext hsplit') hstuck, hlines]
  · obtain ⟨problem, line⟩ := e
    cases hproblem
    obtain ⟨pieces, rest, htext, hsplit, hstuck, hline⟩ := ((scripts_are_split first).2 _).mp hfirst
    cases hline
    have hall : (first ++ "\n" ++ second).toList =
        textOf pieces ++ (rest ++ '\n' :: second.toList) := by
      rw [toList_twoScripts, htext, List.append_assoc]
    refine scan_of_stuck hall (hsplit.beforeLineEnd _) ?_
    cases hstuck with
    | strangeCharacter hlayout hnone => exact .strangeCharacter hlayout hnone

end Joined

/-- A numeral is over at the end of its line, where the next line looks like its fraction, and a
strange character is met before the string that is open on the next line. -/
theorem a_fraction_does_not_reach_over_a_line :
    (scan "'\n'1" = .ok [⟨.atom .string, "\n", 1⟩, ⟨.atom .number, "1", 2⟩, endMark 2] ∧
      scan ("'\n'1" ++ "\n" ++ ".5") =
        .ok [⟨.atom .string, "\n", 1⟩, ⟨.atom .number, "1", 2⟩, ⟨.sign .dot, ".", 3⟩,
          ⟨.atom .number, "5", 3⟩, endMark 3]) ∧
    scan "1#" = .error ⟨.strangeCharacter '#', 1⟩ ∧
      scan ("1#" ++ "\n" ++ "'") = .error ⟨.strangeCharacter '#', 1⟩ := by
  have hfirst : scan "'\n'1" =
      .ok [⟨.atom .string, "\n", 1⟩, ⟨.atom .number, "1", 2⟩, endMark 2] := rfl
  have hsecond : scan ".5" = .ok [⟨.sign .dot, ".", 1⟩, ⟨.atom .number, "5", 1⟩, endMark 1] := rfl
  have hstrange : scan "1#" = .error ⟨.strangeCharacter '#', 1⟩ := rfl
  obtain ⟨found, hfound, hjoined⟩ := (scripts_are_joined_at_line_ends _ ".5").1 _ hfirst
  have hends : [⟨.atom .string, "\n", 1⟩, ⟨.atom .number, "1", 2⟩] ++ [endMark 2] = found ++ _ :=
    hfound
  obtain ⟨rfl, -⟩ := List.append_inj' hends rfl
  rw [hsecond] at hjoined
  exact ⟨⟨hfirst, hjoined⟩, hstrange,
    (scripts_are_joined_at_line_ends _ "'").2 _ _ hstrange rfl⟩

end FunkLang
