-- The text of an expression is cut into the lexemes of its tree: no two of them
-- that stand side by side run together, and no layout is taken for one of them.
import FunkLang.Proofs.SpeltTrees
import FunkLang.Tree.Printer

namespace FunkLang

/-! ## The lexemes of a tree -/

def Sign.lexeme (s : Sign) : Lexeme := (.sign s, s.spelling)

def Keyword.lexeme (w : Keyword) : Lexeme := (.word w, w.spelling.toList)

def Name.lexeme (n : Name) : Lexeme := (.atom .name, n.text.toList)

/-- Lists of lexemes with a comma between each two. -/
def commas : List (List Lexeme) → List Lexeme
  | [] => []
  | [only] => only
  | first :: next :: rest => first ++ Sign.comma.lexeme :: commas (next :: rest)

mutual

/-- The lexemes of an expression, with the parentheses that are printed. -/
def Expr.lexemes : Expr → List Lexeme
  | .atom mark => [(mark.as (.atom mark.kind)).lexeme]
  | .unary op operand =>
    Sign.leftParen.lexeme :: (op.as (.sign op.kind.sign)).lexeme ::
      (operand.lexemes ++ [Sign.rightParen.lexeme])
  | .binary left op right =>
    Sign.leftParen.lexeme :: (left.lexemes ++ (op.as (.sign op.kind.sign)).lexeme ::
      (right.lexemes ++ [Sign.rightParen.lexeme]))
  | .logical op left right =>
    Sign.leftParen.lexeme :: (left.lexemes ++ (Reader.word op).lexeme ::
      (right.lexemes ++ [Sign.rightParen.lexeme]))
  | .assign name value => name.lexeme :: Sign.equal.lexeme :: value.lexemes
  | .assignIndex collection place value =>
    collection.lexemes ++ Sign.leftBracket.lexeme :: (place.lexemes ++
      Sign.rightBracket.lexeme :: Sign.equal.lexeme :: value.lexemes)
  | .assignField collection key value =>
    collection.lexemes ++ Sign.dot.lexeme :: key.lexeme :: Sign.equal.lexeme :: value.lexemes
  | .choice condition yes no =>
    Sign.leftParen.lexeme :: (yes.lexemes ++ Keyword.if_.lexeme :: (condition.lexemes ++
      Keyword.else_.lexeme :: (no.lexemes ++ [Sign.rightParen.lexeme])))
  | .call callee arguments =>
    callee.lexemes ++ Sign.leftParen.lexeme :: (commas (Expr.allLexemes arguments) ++
      [Sign.rightParen.lexeme])
  | .list _ elements =>
    Sign.leftBracket.lexeme :: (commas (Expr.allLexemes elements) ++ [Sign.rightBracket.lexeme])
  | .record _ entries =>
    Sign.leftBrace.lexeme :: (commas (Expr.entryLexemes entries) ++ [Sign.rightBrace.lexeme])
  | .index collection place =>
    collection.lexemes ++ Sign.leftBracket.lexeme :: (place.lexemes ++ [Sign.rightBracket.lexeme])
  | .field collection key => collection.lexemes ++ [Sign.dot.lexeme, key.lexeme]

/-- The lexemes of each expression of a list. -/
def Expr.allLexemes : List Expr → List (List Lexeme)
  | [] => []
  | e :: rest => e.lexemes :: Expr.allLexemes rest

/-- The lexemes of each entry of a record. -/
def Expr.entryLexemes : List (Name × Expr) → List (List Lexeme)
  | [] => []
  | (key, value) :: rest =>
    (key.lexeme :: Sign.colon.lexeme :: value.lexemes) :: Expr.entryLexemes rest

end

/-! ## Texts of lexemes -/

/-- Before any text that does not go on with it, a text is cut into these lexemes. -/
def Written (text : List Char) (lexemes : List Lexeme) : Prop :=
  ∀ ⦃rest more⦄, AfterWord rest → CutInto rest more → CutInto (text ++ rest) (lexemes ++ more)

/-- A text may stand right after a sign. -/
def Starts (text : List Char) : Prop := ∀ rest, AfterSign (text ++ rest)

/-- A text may stand right after a word. -/
def Breaks (text : List Char) : Prop := ∀ rest, AfterWord (text ++ rest)

section Texts

variable {a b text : List Char} {as bs lexemes : List Lexeme} {c : Char}

theorem starts_cons (h : c ≠ '=' ∧ c ≠ '/') : Starts (c :: text) := fun _ => afterSign_cons h

theorem starts_wordPart (h : isWordPart c) : Starts (c :: text) := by
  refine starts_cons ⟨?_, ?_⟩ <;> rintro rfl <;> cases h

theorem Starts.append (h : Starts a) (b : List Char) : Starts (a ++ b) := by
  intro rest
  rw [List.append_assoc]
  exact h _

theorem breaks_cons (h : c ≠ '=' ∧ c ≠ '/') (hword : isWordPart c = false) (hpoint : c ≠ '.') :
    Breaks (c :: text) := fun _ => afterWord_cons h hword hpoint

theorem Breaks.append (h : Breaks a) (b : List Char) : Breaks (a ++ b) := by
  intro rest
  rw [List.append_assoc]
  exact h _

theorem written_sign (s : Sign) : Written s.spelling [s.lexeme] :=
  fun _ _ hrest h => h.sign hrest.sign

/-- A sign, and what may stand right after it. -/
theorem Written.after (hb : Written b bs) (s : Sign) (hstarts : Starts b) :
    Written (s.spelling ++ b) (s.lexeme :: bs) := by
  intro rest more hrest h
  rw [List.append_assoc]
  exact (hb hrest h).sign (hstarts rest)

/-- Two texts side by side. -/
theorem Written.append (ha : Written a as) (hb : Written b bs) (hbreaks : Breaks b) :
    Written (a ++ b) (as ++ bs) := by
  intro rest more hrest h
  rw [List.append_assoc, List.append_assoc]
  exact ha (hbreaks rest) (hb hrest h)

/-- Two texts with a space between them. -/
theorem Written.spaced (ha : Written a as) (hb : Written b bs) :
    Written (a ++ ' ' :: b) (as ++ bs) := by
  intro rest more hrest h
  rw [List.append_assoc, List.append_assoc]
  exact ha (afterWord_cons (by decide) (by decide) (by decide)) (hb hrest h).space

/-- A text in parentheses. -/
theorem Written.group (h : Written a as) (hstarts : Starts a) :
    Written ('(' :: (a ++ [')'])) (Sign.leftParen.lexeme :: (as ++ [Sign.rightParen.lexeme])) := by
  have hclose : Breaks [')'] := breaks_cons (by decide) (by decide) (by decide)
  exact (h.append (written_sign .rightParen) hclose).after .leftParen (hstarts.append _)

/-! ### Single tokens -/

theorem written_word {kind : Kind} (h : Spelt kind text) (hkind : isWord kind) :
    Written text [(kind, text)] ∧ Starts text := by
  obtain ⟨c, tail, rfl, hletter, hword, hofWord⟩ := h.exists_letter hkind
  refine ⟨fun rest more hrest h => ?_, starts_wordPart (wordPart_of_letter hletter)⟩
  exact h.word hletter hword hofWord hrest

theorem written_number {n : Numeral} (h : n.Digits) :
    Written n.text [(.atom .number, n.text)] ∧ Starts n.text := by
  refine ⟨fun rest more hrest hcut => hcut.number h hrest, ?_⟩
  obtain ⟨d, tail, htext, hdigit⟩ := h.text_eq
  rw [htext]
  exact starts_wordPart (wordPart_of_digit hdigit)

theorem Keyword.spelt (w : Keyword) : Spelt (.word w) w.spelling.toList := by
  cases w <;> exact .word (by decide) (List.all_eq_true.mp rfl) rfl

theorem written_keyword (w : Keyword) : Written w.spelling.toList [w.lexeme] :=
  (written_word w.spelt rfl).1

theorem Name.written {n : Name} (h : n.IsSpelt) :
    Written n.text.toList [n.lexeme] ∧ Starts n.text.toList :=
  written_word h rfl

/-- The quote that is chosen for a text closes it. -/
theorem quoteFor_spec {text : String} (h : Spelt (.atom .string) text.toList) :
    isQuote (quoteFor text) ∧ quoteFor text ∉ text.toList := by
  obtain ⟨quote, hquote, hfree⟩ := h.exists_quote
  unfold quoteFor
  cases hfound : ['"', '\'', '\x60'].find? fun quote => !text.toList.contains quote with
  | none =>
    rw [List.find?_eq_none] at hfound
    have hquotes : quote ∈ ['"', '\'', '\x60'] := by
      simpa [isQuote, or_assoc] using hquote
    simpa [hfree] using hfound quote hquotes
  | some found =>
    have hmem := List.mem_of_find?_eq_some hfound
    have hfree := List.find?_some hfound
    refine ⟨?_, by simpa using hfree⟩
    simpa [isQuote, or_assoc] using hmem

theorem Mark.written {m : Mark Atom} (h : Spelt (.atom m.kind) m.text.toList) :
    Written m.atomText.toList [(m.as (.atom m.kind)).lexeme] ∧ Starts m.atomText.toList := by
  obtain ⟨kind, text, line⟩ := m
  cases kind with
  | boolean | nil | name => exact written_word h rfl
  | string =>
    obtain ⟨hquote, hfree⟩ := quoteFor_spec h
    have htext : (Mark.atomText ⟨.string, text, line⟩).toList =
        quoteFor text :: (text.toList ++ [quoteFor text]) := by
      simp [Mark.atomText, inQuotes]
    rw [htext]
    refine ⟨?_, ?_⟩
    · intro rest more _ h
      simpa [Mark.lexeme, Mark.as] using h.string hquote hfree
    · refine starts_cons ⟨?_, ?_⟩ <;> intro heq <;> rw [heq] at hquote <;> cases hquote
  | number =>
    obtain ⟨n, hn, htext⟩ := h.exists_numeral
    change text.toList = n.text at htext
    have hwritten := written_number hn
    rw [← htext] at hwritten
    exact hwritten

/-! ### Lists -/

theorem joined_cons_cons (separator first next : String) (rest : List String) :
    joined separator (first :: next :: rest) =
      first ++ separator ++ joined separator (next :: rest) := by
  have hfoldl (a b : String) : rest.foldl (fun text part => text ++ separator ++ part) (a ++ b) =
      a ++ rest.foldl (fun text part => text ++ separator ++ part) b := by
    induction rest generalizing b with
    | nil => rfl
    | cons part rest ih =>
      have hassoc : a ++ b ++ separator ++ part = a ++ (b ++ separator ++ part) := by
        simp only [String.append_assoc]
      rw [List.foldl_cons, List.foldl_cons, hassoc, ih]
  exact hfoldl _ _

/-- Each text of a list is cut into the lexemes of its place, and may stand after a sign. -/
abbrev AllWritten : List String → List (List Lexeme) → Prop :=
  List.Forall₂ fun text lexemes => Written text.toList lexemes ∧ Starts text.toList

theorem written_joined {text : String} {texts : List String} {lexemes : List Lexeme}
    {rest : List (List Lexeme)} (h : AllWritten (text :: texts) (lexemes :: rest)) :
    Written (joined ", " (text :: texts)).toList (commas (lexemes :: rest)) ∧
      Starts (joined ", " (text :: texts)).toList := by
  induction texts generalizing text lexemes rest with
  | nil =>
    obtain ⟨hfirst, ⟨⟩⟩ := List.forall₂_cons.mp h
    exact hfirst
  | cons next texts ih =>
    cases rest with
    | nil => cases (List.forall₂_cons.mp h).2
    | cons lexemes' rest =>
      obtain ⟨hfirst, hrest⟩ := List.forall₂_cons.mp h
      have hcomma : Breaks [','] := breaks_cons (by decide) (by decide) (by decide)
      have hwritten := (hfirst.1.append (written_sign .comma) hcomma).spaced (ih hrest).1
      rw [joined_cons_cons, String.toList_append, String.toList_append]
      refine ⟨?_, (hfirst.2.append _).append _⟩
      simpa [commas, Sign.spelling] using hwritten

/-- A list in brackets, with commas between its items. -/
theorem written_brackets (opening closing : Sign) (hclose : Breaks closing.spelling)
    {texts : List String} {all : List (List Lexeme)} (h : AllWritten texts all) :
    Written (opening.spelling ++ ((joined ", " texts).toList ++ closing.spelling))
      (opening.lexeme :: (commas all ++ [closing.lexeme])) := by
  cases h with
  | nil => exact (written_sign closing).after opening fun rest => (hclose rest).sign
  | cons hfirst hrest =>
    obtain ⟨hwritten, hstarts⟩ := written_joined (.cons hfirst hrest)
    exact (hwritten.append (written_sign closing) hclose).after opening (hstarts.append _)

end Texts

/-! ## The text of an expression -/

theorem allWritten_texts {all : List Expr}
    (h : ∀ e ∈ all, Written e.text.toList e.lexemes ∧ Starts e.text.toList) :
    AllWritten (Expr.texts all) (Expr.allLexemes all) := by
  induction all with
  | nil => exact .nil
  | cons e rest ih =>
    obtain ⟨hfirst, hrest⟩ := List.forall_mem_cons.mp h
    exact .cons hfirst (ih hrest)

theorem allWritten_entryTexts {entries : List (Name × Expr)}
    (hkeys : ∀ entry ∈ entries, entry.1.IsSpelt)
    (h : ∀ entry ∈ entries, Written entry.2.text.toList entry.2.lexemes) :
    AllWritten (Expr.entryTexts entries) (Expr.entryLexemes entries) := by
  induction entries with
  | nil => exact .nil
  | cons entry rest ih =>
    obtain ⟨key, value⟩ := entry
    obtain ⟨hkey, hkeys⟩ := List.forall_mem_cons.mp hkeys
    obtain ⟨hvalue, hrest⟩ := List.forall_mem_cons.mp h
    obtain ⟨hwritten, hstarts⟩ := Name.written hkey
    have hcolon : Breaks [':'] := breaks_cons (by decide) (by decide) (by decide)
    have hentry := (hwritten.append (written_sign .colon) hcolon).spaced hvalue
    refine .cons ⟨?_, ?_⟩ (ih hkeys hrest)
    · simpa [Sign.spelling] using hentry
    · rw [String.toList_append, String.toList_append]
      exact (hstarts.append _).append _

theorem lexeme_as_sign {κ : Type} {m : Mark κ} {s : Sign} (h : m.text.toList = s.spelling) :
    (m.as (Kind.sign s)).lexeme = s.lexeme := by
  unfold Mark.lexeme Sign.lexeme
  rw [← h]
  rfl

/-- Two operands, and what stands between them. -/
theorem written_infix {left op right : List Char} {as ops bs : List Lexeme}
    (hleft : Written left as ∧ Starts left) (hop : Written op ops) (hright : Written right bs) :
    Written ('(' :: (left ++ ' ' :: (op ++ ' ' :: (right ++ [')']))))
        (Sign.leftParen.lexeme :: (as ++ (ops ++ (bs ++ [Sign.rightParen.lexeme])))) ∧
      Starts ('(' :: (left ++ ' ' :: (op ++ ' ' :: (right ++ [')'])))) := by
  refine ⟨?_, starts_cons (by decide)⟩
  have hinside := hleft.1.spaced (hop.spaced hright)
  simpa using hinside.group (hleft.2.append _)

theorem written_index {collection place : List Char} {cs ps : List Lexeme}
    (hcollection : Written collection cs ∧ Starts collection)
    (hplace : Written place ps ∧ Starts place) :
    Written (collection ++ '[' :: (place ++ [']']))
      (cs ++ Sign.leftBracket.lexeme :: (ps ++ [Sign.rightBracket.lexeme])) ∧
      Starts (collection ++ '[' :: (place ++ [']'])) := by
  have hclose : Breaks [']'] := breaks_cons (by decide) (by decide) (by decide)
  have hopen : Breaks ('[' :: (place ++ [']'])) :=
    breaks_cons (by decide) (by decide) (by decide)
  have hinside := hplace.1.append (written_sign .rightBracket) hclose
  refine ⟨?_, hcollection.2.append _⟩
  exact hcollection.1.append (hinside.after .leftBracket (hplace.2.append _)) hopen

theorem written_field {collection : List Char} {key : Name} {cs : List Lexeme}
    (hcollection : Written collection cs ∧ Starts collection) (hkey : key.IsSpelt) :
    Written (collection ++ '.' :: key.text.toList) (cs ++ [Sign.dot.lexeme, key.lexeme]) ∧
      Starts (collection ++ '.' :: key.text.toList) := by
  obtain ⟨hwritten, hstarts⟩ := Name.written hkey
  have hpoint : Breaks ('.' :: key.text.toList) := by
    obtain ⟨c, tail, htext, hletter, -⟩ := Spelt.exists_letter hkey rfl
    rw [htext]
    exact fun _ => afterWord_point (digit_of_letter hletter)
  refine ⟨?_, hcollection.2.append _⟩
  exact hcollection.1.append (hwritten.after .dot hstarts) hpoint

/-- A target, and what is assigned to it. -/
theorem written_assignment {target value : List Char} {ts vs : List Lexeme}
    (htarget : Written target ts ∧ Starts target) (hvalue : Written value vs) :
    Written (target ++ ' ' :: '=' :: ' ' :: value) (ts ++ Sign.equal.lexeme :: vs) ∧
      Starts (target ++ ' ' :: '=' :: ' ' :: value) := by
  refine ⟨?_, htarget.2.append _⟩
  simpa [Sign.spelling] using htarget.1.spaced ((written_sign .equal).spaced hvalue)

/-- The text of a spelt expression is cut into its lexemes. -/
theorem Expr.written (e : Expr) (h : (Part.expr e).Throughout MarksSpelt) :
    Written e.text.toList e.lexemes ∧ Starts e.text.toList := by
  induction e using Expr.parts_induction with
  | step e ih =>
    obtain ⟨hself, hparts⟩ := Part.throughout_expr.mp h
    have hall := fun part hpart => ih part hpart (hparts part hpart)
    cases e with
    | atom mark => exact Mark.written hself
    | unary op operand =>
      obtain ⟨hwritten, hstarts⟩ := hall operand (by simp [parts])
      have hopens : Starts op.kind.sign.spelling := by
        cases op.kind <;> exact starts_cons (by decide)
      have hgroup := (hwritten.after op.kind.sign hstarts).group (hopens.append _)
      refine ⟨?_, ?_⟩
      · simpa [text, lexemes, lexeme_as_sign hself, show op.text.toList = _ from hself] using hgroup
      · simpa [text] using starts_cons (by decide)
    | binary left op right =>
      have hinfix := written_infix (hall left (by simp [parts])) (written_sign op.kind.sign)
        (hall right (by simp [parts])).1
      simpa [text, lexemes, lexeme_as_sign hself, show op.text.toList = _ from hself] using hinfix
    | logical op left right =>
      have hinfix := written_infix (hall left (by simp [parts])) (written_keyword (Reader.word op))
        (hall right (by simp [parts])).1
      have hop : op.text = (Reader.word op).spelling := by cases op <;> rfl
      simpa [text, lexemes, hop] using hinfix
    | choice condition yes no =>
      have hcondition := (hall condition (by simp [parts])).1
      have hno := (hall no (by simp [parts])).1
      have hinfix := written_infix (hall yes (by simp [parts])) (written_keyword .if_)
        (hcondition.spaced ((written_keyword .else_).spaced hno))
      simpa [text, lexemes, Keyword.spelling] using hinfix
    | assign name value =>
      have hassign := written_assignment (Name.written hself) (hall value (by simp [parts])).1
      simpa [text, lexemes] using hassign
    | index collection place =>
      have hindex := written_index (hall collection (by simp [parts])) (hall place (by simp [parts]))
      simpa [text, lexemes] using hindex
    | field collection key =>
      have hfield := written_field (hall collection (by simp [parts])) hself
      simpa [text, lexemes] using hfield
    | assignIndex collection place value =>
      have hindex := written_index (hall collection (by simp [parts])) (hall place (by simp [parts]))
      have hassign := written_assignment hindex (hall value (by simp [parts])).1
      simpa [text, lexemes] using hassign
    | assignField collection key value =>
      have hfield := written_field (hall collection (by simp [parts])) hself
      have hassign := written_assignment hfield (hall value (by simp [parts])).1
      simpa [text, lexemes] using hassign
    | call callee arguments =>
      obtain ⟨hwritten, hstarts⟩ := hall callee (by simp [parts])
      have harguments : AllWritten (texts arguments) (allLexemes arguments) :=
        allWritten_texts fun e he => hall e (by simp [parts, he])
      have hclose : Breaks [')'] := breaks_cons (by decide) (by decide) (by decide)
      have hopen : Breaks ['('] := breaks_cons (by decide) (by decide) (by decide)
      have hcall := hwritten.append (written_brackets .leftParen .rightParen hclose harguments)
        (hopen.append _)
      refine ⟨?_, ?_⟩
      · simpa [text, lexemes, Sign.spelling] using hcall
      · simpa [text] using hstarts.append _
    | list line elements =>
      have helements : AllWritten (texts elements) (allLexemes elements) :=
        allWritten_texts hall
      have hclose : Breaks [']'] := breaks_cons (by decide) (by decide) (by decide)
      have hlist := written_brackets .leftBracket .rightBracket hclose helements
      refine ⟨?_, ?_⟩
      · simpa [text, lexemes, Sign.spelling] using hlist
      · simpa [text] using starts_cons (by decide)
    | record line entries =>
      have hvalues := fun entry hentry => (hall (Prod.snd entry) (List.mem_map_of_mem hentry)).1
      have hclose : Breaks ['\x7d'] := breaks_cons (by decide) (by decide) (by decide)
      have hrecord := written_brackets .leftBrace .rightBrace hclose
        (allWritten_entryTexts hself hvalues)
      refine ⟨?_, ?_⟩
      · simpa [text, lexemes, Sign.spelling] using hrecord
      · simpa [text] using starts_cons (by decide)

end FunkLang
