-- Printed statements told apart. The lines of a statement begin with the spaces of its
-- depth, and its first word tells which form it has. Where a body ends is told by the
-- depth of the next line, and by whether that line begins with an else.
import FunkLang.Proofs.PrintedExpressions

namespace FunkLang

/-! ## Plain statements -/

/-- The names that a statement itself introduces are spelt. -/
def Stmt.NamesSpelt : Stmt → Prop
  | .make _ name _ | .with_ _ _ name _ | .for_ _ name _ _ => name.IsSpelt
  | .funk _ name params _ _ => name.IsSpelt ∧ ∀ param ∈ params, param.IsSpelt
  | _ => True

/-- The names that the statements in a part introduce are spelt. -/
def Part.NamesSpelt (p : Part) : Prop := ∀ s, p.Contains (.stmt s) → s.NamesSpelt

namespace Part

theorem namesSpelt_expr (e : Expr) : (expr e).NamesSpelt := by
  intro s hs
  induction e using Expr.parts_induction with
  | step e ih =>
    rcases hs.cases_head with heq | ⟨q, hq, hs⟩
    · cases heq
    · obtain ⟨part, hpart, rfl⟩ := List.mem_map.mp hq
      exact ih part hpart hs

theorem namesSpelt_stmt {s : Stmt} (hself : s.NamesSpelt)
    (hparts : ∀ q ∈ (stmt s).subparts, q.NamesSpelt) : (stmt s).NamesSpelt := by
  intro inner hinner
  rcases hinner.cases_head with heq | ⟨q, hq, hinner⟩
  · cases heq
    exact hself
  · exact hparts q hq inner hinner

end Part

/-- The names of a statement and of all statements in it are spelt, and all expressions in it
are plain. -/
structure Stmt.AllPlain (s : Stmt) : Prop where
  names : (Part.stmt s).NamesSpelt
  exprs : (Part.stmt s).Throughout Expr.Plain

namespace Stmt.AllPlain

variable {s inner : Stmt} {e : Expr}

theorem self (h : s.AllPlain) : s.NamesSpelt := h.names s .refl

theorem expr (h : s.AllPlain) (hpart : Part.expr e ∈ (Part.stmt s).subparts) : e.AllPlain :=
  h.exprs.part hpart

theorem stmt (h : s.AllPlain) (hpart : Part.stmt inner ∈ (Part.stmt s).subparts) :
    inner.AllPlain where
  names other hother := h.names other (hother.head hpart)
  exprs := h.exprs.part hpart

end Stmt.AllPlain

/-! ## The characters of lines -/

/-- The spaces that a line of a depth begins with. -/
def margin (depth : Nat) : List Char := List.replicate (2 * depth) ' '

/-- Lines with their margins and ends. -/
def linesChars (depth : Nat) (lines : List String) : List Char :=
  lines.flatMap fun line => margin depth ++ (line.toList ++ ['\n'])

/-- The characters of a statement at a depth. -/
def Stmt.chars (depth : Nat) (s : Stmt) : List Char := linesChars depth s.lines

/-- The characters of statements at a depth. -/
def Stmt.allChars (depth : Nat) (body : List Stmt) : List Char := body.flatMap (Stmt.chars depth)

/-- The characters of a block after what stands before it on its line. -/
def blockChars (depth : Nat) (body : List Stmt) : List Char :=
  '\x7b' :: '\n' :: (Stmt.allChars (depth + 1) body ++ (margin depth ++ ['\x7d', '\n']))

/-- The characters of a body under a header. -/
def Stmt.bodyChars (depth : Nat) : Stmt → List Char
  | .block _ body => ' ' :: blockChars depth body
  | s => '\n' :: s.chars (depth + 1)

section Lines

variable {depth : Nat} {lines more : List String} {header : String} {body : Stmt}

theorem linesChars_append : linesChars depth (lines ++ more) =
    linesChars depth lines ++ linesChars depth more := List.flatMap_append

theorem linesChars_singleton (line : String) :
    linesChars depth [line] = margin depth ++ (line.toList ++ ['\n']) := by
  simp [linesChars]

theorem margin_succ (depth : Nat) : margin (depth + 1) = margin depth ++ [' ', ' '] := by
  unfold margin
  rw [Nat.mul_add, List.replicate_add]
  rfl

theorem linesChars_indented (depth : Nat) (lines : List String) :
    linesChars depth (indented lines) = linesChars (depth + 1) lines := by
  unfold linesChars indented
  rw [List.flatMap_map, margin_succ]
  simp

theorem allChars_eq (depth : Nat) (body : List Stmt) :
    Stmt.allChars depth body = linesChars depth (Stmt.allLines body) := by
  induction body with
  | nil => rfl
  | cons s rest ih =>
    rw [Stmt.allLines, linesChars_append, ← ih]
    rfl

theorem linesChars_braced (depth : Nat) (body : List Stmt) :
    linesChars depth (braced (Stmt.allLines body)) = margin depth ++ blockChars depth body := by
  have hlines : braced (Stmt.allLines body) =
      ["\x7b"] ++ (indented (Stmt.allLines body) ++ ["\x7d"]) := rfl
  rw [hlines, linesChars_append, linesChars_append, linesChars_singleton, linesChars_singleton,
    linesChars_indented, ← allChars_eq]
  simp [blockChars]

/-- A block opens on the line of its header. -/
theorem linesChars_opened (depth : Nat) (header : String) (line : Int) (body inner : List Stmt) :
    linesChars depth (underHeader header (.block line inner) (braced (Stmt.allLines body))) =
      margin depth ++ (header.toList ++ ' ' :: blockChars depth body) := by
  have hblock := linesChars_braced depth body
  have hlines : braced (Stmt.allLines body) =
      ["\x7b"] ++ (indented (Stmt.allLines body) ++ ["\x7d"]) := rfl
  have hheader : underHeader header (.block line inner) (braced (Stmt.allLines body)) =
      [header ++ " " ++ "\x7b"] ++ (indented (Stmt.allLines body) ++ ["\x7d"]) := rfl
  rw [hlines, linesChars_append, linesChars_singleton, List.append_assoc,
    List.append_cancel_left_eq] at hblock
  rw [hheader, linesChars_append, linesChars_singleton, ← hblock]
  simp

theorem linesChars_underHeader (depth : Nat) (header : String) (body : Stmt) :
    linesChars depth (underHeader header body body.lines) =
      margin depth ++ (header.toList ++ body.bodyChars depth) := by
  cases body with
  | block line inner => exact linesChars_opened depth header line inner inner
  | _ =>
    have hline (lines : List String) : linesChars depth (header :: indented lines) =
        margin depth ++ (header.toList ++ '\n' :: linesChars (depth + 1) lines) := by
      rw [← linesChars_indented, ← List.singleton_append, linesChars_append, linesChars_singleton]
      simp
    exact hline _

end Lines

/-! ## The characters of a statement -/

/-- What an if has after its first branch. -/
def elseChars (depth : Nat) : Option Stmt → List Char
  | none => []
  | some no => margin depth ++ (Keyword.else_.spelling.toList ++ no.bodyChars depth)

/-- What a statement has after its first word, or all of it if it begins with none. -/
def Stmt.tailChars (depth : Nat) : Stmt → List Char
  | .expression _ value => value.chars ++ ['\n']
  | .print _ value => ' ' :: '(' :: (value.chars ++ [')', '\n'])
  | .make _ name value => ' ' :: (name.text.toList ++ (valueChars value ++ ['\n']))
  | .block _ body => blockChars depth body
  | .if_ _ condition yes no =>
    ' ' :: (condition.chars ++ (yes.bodyChars depth ++ elseChars depth no))
  | .while_ _ condition body => ' ' :: (condition.chars ++ body.bodyChars depth)
  | .funk _ name params _ body =>
    ' ' :: (name.text.toList ++ '(' :: (commaText (params.map fun param => param.text.toList) ++
      ')' :: ' ' :: blockChars depth body))
  | .return_ _ none => ['\n']
  | .return_ _ (some value) => ' ' :: (value.chars ++ ['\n'])
  | .with_ _ value name body =>
    ' ' :: (value.chars ++ ' ' :: 'a' :: 's' :: ' ' :: (name.text.toList ++ body.bodyChars depth))
  | .for_ _ name items body =>
    ' ' :: (name.text.toList ++ ' ' :: 'i' :: 'n' :: ' ' :: (items.chars ++ body.bodyChars depth))

/-- The word that a statement begins with, if it is not an expression or a block. -/
def Stmt.keyword? : Stmt → Option Keyword
  | .print _ _ => some .print
  | .make _ _ _ => some .make
  | .if_ _ _ _ _ => some .if_
  | .while_ _ _ _ => some .while_
  | .funk _ _ _ _ _ => some .funk
  | .return_ _ _ => some .return_
  | .with_ _ _ _ _ => some .with_
  | .for_ _ _ _ _ => some .for_
  | _ => none

/-- The characters of a word, if there is one. -/
def wordChars (word : Option Keyword) : List Char := (word.map (·.spelling.toList)).getD []

theorem Stmt.chars_eq (depth : Nat) (s : Stmt) :
    s.chars depth = margin depth ++ (wordChars s.keyword? ++ s.tailChars depth) := by
  unfold Stmt.chars
  cases s with
  | expression line value =>
    simp [lines, linesChars_singleton, wordChars, keyword?, tailChars, Expr.chars]
  | print line value =>
    simp [lines, linesChars_singleton, wordChars, keyword?, tailChars, Expr.chars,
      Keyword.spelling]
  | make line name value =>
    cases value <;> simp [lines, linesChars_singleton, wordChars, keyword?, tailChars, Expr.chars,
      Keyword.spelling, valueChars]
  | block line body => exact linesChars_braced depth body
  | if_ line condition yes no =>
    cases no <;> simp [lines, linesChars_append, linesChars_underHeader, wordChars, keyword?,
      tailChars, elseChars, Expr.chars, Keyword.spelling]
  | while_ line condition body =>
    simp [lines, linesChars_underHeader, wordChars, keyword?, tailChars, Expr.chars,
      Keyword.spelling]
  | funk line name params bodyLine body =>
    have hparams : String.toList ∘ (fun param : Name => param.text) =
        fun param => param.text.toList := rfl
    simp [lines, linesChars_opened, wordChars, keyword?, tailChars, Keyword.spelling,
      toList_joined, hparams]
  | return_ line value =>
    cases value <;> simp [lines, linesChars_singleton, wordChars, keyword?, tailChars, Expr.chars,
      Keyword.spelling]
  | with_ line value name body =>
    simp [lines, linesChars_underHeader, wordChars, keyword?, tailChars, Expr.chars,
      Keyword.spelling]
  | for_ line name items body =>
    simp [lines, linesChars_underHeader, wordChars, keyword?, tailChars, Expr.chars,
      Keyword.spelling]

/-! ## First words -/

/-- The kind of the token at the front of a text, if there is one. -/
def frontKind? : List Char → Option Kind
  | [] => none
  | c :: text =>
    match Cut.front c text with
    | .ok cut => cut.token.map (·.1)
    | .error _ => none

section FirstWords

variable {c : Char} {rest text : List Char} {e : Expr} {s : Stmt}

theorem frontKind?_cons {cut : Cut} (h : Cut.front c text = .ok cut) :
    frontKind? (c :: text) = cut.token.map (·.1) := by
  rw [frontKind?, h]

theorem frontKind?_word (w : Keyword) (hrest : AfterWord rest) :
    frontKind? (w.spelling.toList ++ rest) = some (.word w) := by
  obtain ⟨c, tail, heq, hletter, htail, hofWord⟩ := w.spelt.exists_letter rfl
  rw [heq]
  rw [List.cons_append, frontKind?_cons (front_word hletter htail hrest), hofWord]
  rfl

/-- What does not begin with a letter does not begin with a word. -/
theorem frontKind?_of_not_letter (h : isLetter c = false) (w : Keyword) :
    frontKind? (c :: text) ≠ some (.word w) := by
  intro hword
  cases hfront : Cut.front c text with
  | error problem =>
    rw [frontKind?, hfront] at hword
    cases hword
  | ok cut =>
    rw [frontKind?_cons hfront] at hword
    unfold Cut.front at hfront
    split at hfront
    · cases hfront
      cases hword
    split at hfront
    · cases hfront
      cases hword
    split at hfront
    · cases hfront
      cases hword
    split at hfront
    · unfold Cut.string? at hfront
      split at hfront <;> cases hfront
      cases hword
    split at hfront
    · rename_i hletter
      rw [h] at hletter
      cases hletter
    · unfold Cut.sign? at hfront
      split at hfront <;> cases hfront <;> cases hword

/-- No expression begins with a word that is no value and no name. -/
theorem Expr.frontKind?_ne_word (h : e.AllPlain) (hrest : AfterTerm rest) (w : Keyword) :
    frontKind? (e.chars ++ rest) ≠ some (.word w) := by
  obtain ⟨head, suffixes, value, hconsists, -⟩ := e.exists_consistsOf h
  rw [hconsists.chars, List.append_assoc, List.append_assoc]
  have hvalue : AfterTerm (valueChars value ++ rest) := hrest.of_value
  have hafter := AfterWord.of_suffixes hconsists.suffixes_spelt hvalue
  have hspelt := hconsists.head_spelt
  have hisHead := hconsists.isHead
  generalize suffixes.flatMap Suffix.chars ++ (valueChars value ++ rest) = more at hafter
  cases head with
  | atom m =>
    obtain ⟨c, text, taken, heq, hfront⟩ := Mark.front_atomText hspelt hafter
    change frontKind? (m.atomText.toList ++ more) ≠ _
    rw [heq, frontKind?_cons hfront]
    nofun
  | unary op operand =>
    rw [chars_unary]
    exact frontKind?_of_not_letter rfl w
  | binary left op right =>
    rw [chars_binary]
    exact frontKind?_of_not_letter rfl w
  | logical op left right =>
    rw [chars_logical]
    exact frontKind?_of_not_letter rfl w
  | choice condition yes no =>
    rw [chars_choice]
    exact frontKind?_of_not_letter rfl w
  | list line elements =>
    rw [chars_list]
    exact frontKind?_of_not_letter rfl w
  | record line entries =>
    rw [chars_record]
    exact frontKind?_of_not_letter rfl w
  | _ => cases hisHead

theorem afterTerm_line : AfterTerm ('\n' :: rest) := ⟨'\n', rest, rfl, by simp⟩

theorem Stmt.afterTerm_tail (depth : Nat) (h : s.keyword?.isSome) (rest : List Char) :
    AfterTerm (s.tailChars depth ++ rest) := by
  cases s with
  | expression | block => cases h
  | return_ line value =>
    cases value with
    | none => exact afterTerm_line
    | some value => exact afterTerm_space
  | _ => exact afterTerm_space

/-- The characters of a statement after its margin begin with its word, if it has one, and
otherwise with none. -/
theorem Stmt.frontKind?_eq (h : s.AllPlain) (depth : Nat) (rest : List Char) (w : Keyword) :
    frontKind? (wordChars s.keyword? ++ s.tailChars depth ++ rest) = some (.word w) ↔
      s.keyword? = some w := by
  cases hword : s.keyword? with
  | some word =>
    have hafter := s.afterTerm_tail depth (by rw [hword]; rfl) rest
    have htext : wordChars (some word) ++ s.tailChars depth ++ rest =
        word.spelling.toList ++ (s.tailChars depth ++ rest) := List.append_assoc _ _ _
    rw [htext, frontKind?_word word hafter.word, Option.some.injEq, Option.some.injEq,
      Kind.word.injEq]
  | none =>
    refine iff_of_false ?_ nofun
    cases s with
    | expression line value =>
      have hvalue : value.AllPlain := h.expr List.mem_cons_self
      change frontKind? (value.chars ++ ['\n'] ++ rest) ≠ _
      rw [List.append_assoc]
      exact Expr.frontKind?_ne_word hvalue afterTerm_line w
    | block line body => exact frontKind?_of_not_letter rfl w
    | _ => cases hword

end FirstWords

/-! ## What comes after a statement -/

/-- The spaces at the front of a text. -/
def spacesOf (text : List Char) : List Char := text.takeWhile (· == ' ')

/-- The text after a statement of a depth is no else of it. -/
def AfterStmt (depth : Nat) (rest : List Char) : Prop :=
  (spacesOf rest).length < 2 * depth ∨
    frontKind? (rest.dropWhile (· == ' ')) ≠ some (.word .else_)

/-- The text after the statements of a depth is on a line of a lower depth, if there is any. -/
def AfterStmts (depth : Nat) (rest : List Char) : Prop :=
  (spacesOf rest).length < 2 * depth ∨ rest = []

section Afterwards

variable {depth : Nat} {c : Char} {rest text : List Char} {s : Stmt}

theorem margin_cut (hc : c ≠ ' ') :
    spacesOf (margin depth ++ c :: text) = margin depth ∧
      (margin depth ++ c :: text).dropWhile (· == ' ') = c :: text := by
  have hmargin : ∀ d ∈ margin depth, (d == ' ') = true :=
    fun d hd => beq_iff_eq.mpr (List.eq_of_mem_replicate hd)
  have hhead : ∀ d ∈ (c :: text).head?, (d == ' ') = false := by
    rintro _ ⟨⟩
    exact beq_eq_false_iff_ne.mpr hc
  exact takeWhile_of_head hmargin hhead

theorem length_margin (depth : Nat) : (margin depth).length = 2 * depth := List.length_replicate

theorem AfterStmt.deeper (h : AfterStmt depth rest) : AfterStmt (depth + 1) rest :=
  h.imp_left fun h => by omega

theorem AfterStmts.stmt (h : AfterStmts depth rest) : AfterStmt depth rest := by
  rcases h with h | rfl
  · exact Or.inl h
  · right
    nofun

/-- A line of the depth above. -/
theorem afterStmts_margin (hc : c ≠ ' ') : AfterStmts (depth + 1) (margin depth ++ c :: text) := by
  left
  rw [(margin_cut hc).1, length_margin]
  omega

/-- The characters of a statement after its margin do not begin with a space. -/
theorem Stmt.exists_opening (h : s.AllPlain) (depth : Nat) (rest : List Char) :
    ∃ c text, wordChars s.keyword? ++ s.tailChars depth ++ rest = c :: text ∧ c ≠ ' ' := by
  cases hword : s.keyword? with
  | some word =>
    obtain ⟨c, tail, heq, hletter, -⟩ := word.spelt.exists_letter rfl
    refine ⟨c, tail ++ s.tailChars depth ++ rest, ?_, ?_⟩
    · change word.spelling.toList ++ s.tailChars depth ++ rest = _
      rw [heq]
      rfl
    · rintro rfl
      cases hletter
  | none =>
    cases s with
    | expression line value =>
      have hvalue : value.AllPlain := h.expr List.mem_cons_self
      obtain ⟨c, tail, heq, hc⟩ := value.exists_opening hvalue
      refine ⟨c, tail ++ ['\n'] ++ rest, ?_, ?_⟩
      · change [] ++ (value.chars ++ ['\n']) ++ rest = _
        rw [heq]
        rfl
      · rintro rfl
        cases hc
    | block line body => exact ⟨_, _, rfl, by decide⟩
    | _ => cases hword

theorem Stmt.exists_chars (h : s.AllPlain) (depth : Nat) (rest : List Char) :
    ∃ c text, s.chars depth ++ rest = margin depth ++ c :: text ∧ c ≠ ' ' ∧
      wordChars s.keyword? ++ s.tailChars depth ++ rest = c :: text := by
  obtain ⟨c, text, heq, hc⟩ := Stmt.exists_opening h depth rest
  refine ⟨c, text, ?_, hc, heq⟩
  rw [s.chars_eq, List.append_assoc, heq]

/-- No statement begins with an else. -/
theorem Stmt.afterStmt (h : s.AllPlain) (depth : Nat) (rest : List Char) :
    AfterStmt depth (s.chars depth ++ rest) := by
  obtain ⟨c, text, hchars, hc, htext⟩ := Stmt.exists_chars h depth rest
  right
  rw [hchars, (margin_cut hc).2, ← htext]
  intro helse
  have hword := (Stmt.frontKind?_eq h depth rest .else_).mp helse
  cases s <;> cases hword

theorem Stmt.not_afterStmts (h : s.AllPlain) (depth : Nat) (rest : List Char) :
    ¬ AfterStmts depth (s.chars depth ++ rest) := by
  obtain ⟨c, text, hchars, hc, -⟩ := Stmt.exists_chars h depth rest
  rw [hchars]
  rintro (hless | hnil)
  · rw [(margin_cut hc).1, length_margin] at hless
    omega
  · simp at hnil

theorem AfterStmts.allChars {body : List Stmt} (h : ∀ s ∈ body, s.AllPlain)
    (hrest : AfterStmts depth rest) : AfterStmt depth (Stmt.allChars depth body ++ rest) := by
  cases body with
  | nil => exact hrest.stmt
  | cons s more =>
    have hchars : Stmt.allChars depth (s :: more) ++ rest =
        s.chars depth ++ (Stmt.allChars depth more ++ rest) := List.append_assoc _ _ _
    rw [hchars]
    exact Stmt.afterStmt (h s List.mem_cons_self) depth _

end Afterwards

/-! ## Telling statements apart -/

/-- A statement is told apart from every plain one, at every depth. -/
def Stmt.Told (s : Stmt) : Prop :=
  ∀ (depth : Nat) (s' : Stmt) (rest rest' : List Char), s'.AllPlain → AfterStmt depth rest →
    AfterStmt depth rest' → s.chars depth ++ rest = s'.chars depth ++ rest' →
    s.unlined = s'.unlined ∧ rest = rest'

/-- So is one that stands under a header. -/
def Stmt.BodyTold (s : Stmt) : Prop :=
  ∀ (depth : Nat) (s' : Stmt) (rest rest' : List Char), s'.AllPlain →
    AfterStmt (depth + 1) rest → AfterStmt (depth + 1) rest' →
    s.bodyChars depth ++ rest = s'.bodyChars depth ++ rest' → s.unlined = s'.unlined ∧ rest = rest'

section Telling

variable {depth : Nat} {body body' : List Stmt} {rest rest' : List Char}

theorem allChars_told (htold : ∀ s ∈ body, s.Told) (hplain : ∀ s ∈ body, s.AllPlain)
    (hplain' : ∀ s ∈ body', s.AllPlain) (hrest : AfterStmts depth rest)
    (hrest' : AfterStmts depth rest')
    (heq : Stmt.allChars depth body ++ rest = Stmt.allChars depth body' ++ rest') :
    body.map Stmt.unlined = body'.map Stmt.unlined ∧ rest = rest' := by
  have hcons (s : Stmt) (more : List Stmt) (rest : List Char) :
      Stmt.allChars depth (s :: more) ++ rest =
        s.chars depth ++ (Stmt.allChars depth more ++ rest) := List.append_assoc _ _ _
  have hnil (rest : List Char) : Stmt.allChars depth [] ++ rest = rest := rfl
  induction body generalizing body' with
  | nil =>
    cases body' with
    | nil => exact ⟨rfl, heq⟩
    | cons s' more' =>
      rw [hcons, hnil] at heq
      exact absurd (heq ▸ hrest) (Stmt.not_afterStmts (hplain' s' List.mem_cons_self) depth _)
  | cons s more ih =>
    cases body' with
    | nil =>
      rw [hcons, hnil] at heq
      exact absurd (heq ▸ hrest') (Stmt.not_afterStmts (hplain s List.mem_cons_self) depth _)
    | cons s' more' =>
      rw [List.forall_mem_cons] at htold hplain hplain'
      rw [hcons, hcons] at heq
      obtain ⟨hsame, hmore⟩ := htold.1 depth s' _ _ hplain'.1 (hrest.allChars hplain.2)
        (hrest'.allChars hplain'.2) heq
      obtain ⟨hothers, hrests⟩ := ih htold.2 hplain.2 hplain'.2 hmore
      exact ⟨by rw [List.map_cons, List.map_cons, hsame, hothers], hrests⟩

theorem blockChars_told (htold : ∀ s ∈ body, s.Told) (hplain : ∀ s ∈ body, s.AllPlain)
    (hplain' : ∀ s ∈ body', s.AllPlain)
    (heq : blockChars depth body ++ rest = blockChars depth body' ++ rest') :
    body.map Stmt.unlined = body'.map Stmt.unlined ∧ rest = rest' := by
  simp only [blockChars, List.cons_append, List.append_assoc, List.nil_append, List.cons.injEq,
    true_and] at heq
  obtain ⟨hsame, hclose⟩ := allChars_told htold hplain hplain'
    (afterStmts_margin (by decide)) (afterStmts_margin (by decide)) heq
  have hends := List.append_cancel_left hclose
  exact ⟨hsame, (List.cons.inj (List.cons.inj hends).2).2⟩

theorem Stmt.bodyChars_cases (s : Stmt) :
    (∃ line body, s = .block line body) ∨
      ∀ depth, s.bodyChars depth = '\n' :: s.chars (depth + 1) := by
  cases s with
  | block line body => exact Or.inl ⟨line, body, rfl⟩
  | _ => exact Or.inr fun _ => rfl

theorem Stmt.bodyTold {s : Stmt} (h : s.AllPlain) (htold : s.Told)
    (hinner : ∀ inner, Part.stmt inner ∈ (Part.stmt s).subparts → inner.Told) : s.BodyTold := by
  intro depth s' rest rest' h' hrest hrest' heq
  rcases s.bodyChars_cases with ⟨line, body, rfl⟩ | hline
  · rcases s'.bodyChars_cases with ⟨line', body', rfl⟩ | hline'
    · have hblocks : blockChars depth body ++ rest = blockChars depth body' ++ rest' :=
        (List.cons.inj heq).2
      obtain ⟨hsame, hrests⟩ := blockChars_told
        (fun s hs => hinner s (List.mem_map_of_mem hs))
        (fun s hs => h.stmt (List.mem_map_of_mem hs))
        (fun s hs => h'.stmt (List.mem_map_of_mem hs)) hblocks
      refine ⟨?_, hrests⟩
      unfold unlined
      rw [allUnlined_eq_map, allUnlined_eq_map, hsame]
    · rw [hline'] at heq
      cases (List.cons.inj heq).1
  · rcases s'.bodyChars_cases with ⟨line', body', rfl⟩ | hline'
    · rw [hline] at heq
      cases (List.cons.inj heq).1
    · rw [hline, hline'] at heq
      exact htold (depth + 1) s' rest rest' h' hrest hrest' (List.cons.inj heq).2

/-- Statements that begin alike have the same first word, and go on alike after it. -/
theorem Stmt.tails_eq {s s' : Stmt} (h : s.AllPlain) (h' : s'.AllPlain)
    (heq : s.chars depth ++ rest = s'.chars depth ++ rest') :
    s.keyword? = s'.keyword? ∧ s.tailChars depth ++ rest = s'.tailChars depth ++ rest' := by
  have hall : wordChars s.keyword? ++ s.tailChars depth ++ rest =
      wordChars s'.keyword? ++ s'.tailChars depth ++ rest' := by
    rw [s.chars_eq, s'.chars_eq, List.append_assoc, List.append_assoc (margin depth)] at heq
    exact List.append_cancel_left heq
  have hword : s.keyword? = s'.keyword? := by
    apply Option.ext
    intro w
    rw [← Stmt.frontKind?_eq h depth rest, ← Stmt.frontKind?_eq h' depth rest', hall]
  rw [hword, List.append_assoc, List.append_assoc] at hall
  exact ⟨hword, List.append_cancel_left hall⟩

theorem afterExpr_line : AfterExpr ('\n' :: rest) := afterExpr_cons (by simp)

/-- A header is at an end where its body begins. -/
theorem Stmt.afterExpr_body (s : Stmt) (depth : Nat) (rest : List Char) :
    AfterExpr (s.bodyChars depth ++ rest) := by
  rcases s.bodyChars_cases with ⟨line, body, rfl⟩ | hline
  · apply afterExpr_space
    intro hequals
    cases (List.cons_prefix_cons.mp hequals).1
  · rw [hline]
    exact afterExpr_line

/-- What takes one expression to the end of its line. -/
theorem value_line_told {e e' : Expr} (h : e.AllPlain) (h' : e'.AllPlain)
    (heq : e.chars ++ ['\n'] ++ rest = e'.chars ++ ['\n'] ++ rest') :
    e.unlined = e'.unlined ∧ rest = rest' := by
  rw [List.append_assoc, List.append_assoc] at heq
  obtain ⟨hsame, hrests⟩ := e.told h e' _ _ h' afterExpr_line afterExpr_line heq
  exact ⟨hsame, (List.cons.inj hrests).2⟩

/-- A record does not begin like a block. -/
theorem record_ne_block {entries : List (Name × Expr)} (h : ∀ entry ∈ entries, entry.1.IsSpelt)
    (body : List Stmt) :
    '\x7b' :: (commaText (entries.map Expr.entryChars) ++ '\x7d' :: rest) ≠
      blockChars depth body ++ rest' := by
  intro heq
  have hinside := (List.cons.inj heq).2
  cases entries with
  | nil => cases (List.cons.inj hinside).1
  | cons entry more =>
    obtain ⟨after, -, htext, -⟩ :=
      commaText_cons Expr.entryChars entry more '\x7d' rest (by simp)
    obtain ⟨c, tail, hkey, hletter, -⟩ := Spelt.exists_letter (h entry List.mem_cons_self) rfl
    rw [htext, Expr.entryChars, hkey] at hinside
    obtain rfl := (List.cons.inj hinside).1
    cases hletter

/-- An expression does not begin like a block. -/
theorem Expr.chars_ne_block {e : Expr} (h : e.AllPlain) (body : List Stmt) :
    e.chars ++ rest ≠ blockChars depth body ++ rest' := by
  intro heq
  obtain ⟨head, suffixes, value, hconsists, -⟩ := e.exists_consistsOf h
  rw [hconsists.chars, List.append_assoc] at heq
  have hbracket := bracket?_eq hconsists.isHead hconsists.head_spelt
    (suffixes.flatMap Suffix.chars ++ valueChars value ++ rest)
  rw [heq] at hbracket
  have hrecord : head.bracket? = some '\x7b' := hbracket
  have hspelt := hconsists.head_spelt
  cases head with
  | record line entries =>
    rw [chars_record] at heq
    simp only [List.cons_append, List.append_assoc, List.nil_append] at heq
    exact record_ne_block hspelt body heq
  | atom | assign | assignIndex | assignField | call | index | field => cases hrecord
  | unary | binary | logical | choice | list => cases hrecord

/-! ### Each form -/

section Forms

variable {value value' : Expr} {name name' : Name}

theorem print_told (h : value.AllPlain) (h' : value'.AllPlain)
    (heq : ' ' :: '(' :: (value.chars ++ [')', '\n']) ++ rest =
      ' ' :: '(' :: (value'.chars ++ [')', '\n']) ++ rest') :
    value.unlined = value'.unlined ∧ rest = rest' := by
  simp only [List.cons_append, List.append_assoc, List.nil_append, List.cons.injEq, true_and] at heq
  obtain ⟨hvalue, hrests⟩ := value.told h value' _ _ h' (afterExpr_cons (by simp))
    (afterExpr_cons (by simp)) heq
  exact ⟨hvalue, (List.cons.inj (List.cons.inj hrests).2).2⟩

theorem make_told {value value' : Option Expr} (hname : name.IsSpelt) (hname' : name'.IsSpelt)
    (h : ∀ e ∈ value, e.AllPlain) (h' : ∀ e ∈ value', e.AllPlain)
    (heq : ' ' :: (name.text.toList ++ (valueChars value ++ ['\n'])) ++ rest =
      ' ' :: (name'.text.toList ++ (valueChars value' ++ ['\n'])) ++ rest') :
    name.unlined = name'.unlined ∧ value.map Expr.unlined = value'.map Expr.unlined ∧
      rest = rest' := by
  simp only [List.cons_append, List.append_assoc, List.nil_append, List.cons.injEq, true_and] at heq
  obtain ⟨hnames, hmore⟩ := Name.told hname hname' (afterTerm_line.of_value).word
    (afterTerm_line.of_value).word heq
  obtain ⟨hvalues, hrests⟩ := value_told (fun e he => e.told (h e he)) h' afterExpr_line
    afterExpr_line hmore
  exact ⟨hnames, hvalues, (List.cons.inj hrests).2⟩

theorem return_told {value value' : Option Expr} {line line' : Int}
    (h : ∀ e ∈ value, e.AllPlain) (h' : ∀ e ∈ value', e.AllPlain)
    (heq : (Stmt.return_ line value).tailChars depth ++ rest =
      (Stmt.return_ line' value').tailChars depth ++ rest') :
    value.map Expr.unlined = value'.map Expr.unlined ∧ rest = rest' := by
  cases value with
  | none =>
    cases value' with
    | none => exact ⟨rfl, (List.cons.inj heq).2⟩
    | some value' => cases (List.cons.inj heq).1
  | some value =>
    cases value' with
    | none => cases (List.cons.inj heq).1
    | some value' =>
      obtain ⟨hvalue, hrests⟩ := value_line_told (h value rfl) (h' value' rfl) (List.cons.inj heq).2
      exact ⟨congrArg some hvalue, hrests⟩

/-- A body after a header of one expression. -/
theorem headed_told {body body' : Stmt} {more more' : List Char} (hvalue : value.AllPlain)
    (hvalue' : value'.AllPlain) (hbody : body.BodyTold) (hbody' : body'.AllPlain)
    (hmore : AfterStmt (depth + 1) more) (hmore' : AfterStmt (depth + 1) more')
    (heq : value.chars ++ (body.bodyChars depth ++ more) =
      value'.chars ++ (body'.bodyChars depth ++ more')) :
    value.unlined = value'.unlined ∧ body.unlined = body'.unlined ∧ more = more' := by
  obtain ⟨hvalues, hbodies⟩ := value.told hvalue value' _ _ hvalue' (body.afterExpr_body depth more)
    (body'.afterExpr_body depth more') heq
  obtain ⟨hsame, hrests⟩ := hbody depth body' more more' hbody' hmore hmore' hbodies
  exact ⟨hvalues, hsame, hrests⟩

theorem AfterStmt.else_ (h : AfterStmt depth rest) (no : Option Stmt) :
    AfterStmt (depth + 1) (elseChars depth no ++ rest) := by
  cases no with
  | none => exact h.deeper
  | some no =>
    have helse : elseChars depth (some no) ++ rest =
        margin depth ++ 'e' :: ('l' :: 's' :: 'e' :: (no.bodyChars depth ++ rest)) := by
      simp [elseChars, Keyword.spelling]
    rw [helse]
    exact (afterStmts_margin (by decide)).stmt

/-- What comes after an if without an else is none. -/
theorem not_afterStmt_else (no : Stmt) : ¬ AfterStmt depth (elseChars depth (some no) ++ rest) := by
  have helse : elseChars depth (some no) ++ rest =
      margin depth ++ 'e' :: ('l' :: 's' :: 'e' :: (no.bodyChars depth ++ rest)) := by
    simp [elseChars, Keyword.spelling]
  have hfront := frontKind?_word .else_ (no.afterExpr_body depth rest).term.word
  rw [helse]
  rintro (hless | hword)
  · rw [(margin_cut (by decide)).1, length_margin] at hless
    omega
  · rw [(margin_cut (by decide)).2] at hword
    exact hword hfront

theorem else_told {no no' : Option Stmt} (htold : ∀ s ∈ no, s.BodyTold)
    (hplain' : ∀ s ∈ no', s.AllPlain) (hrest : AfterStmt depth rest)
    (hrest' : AfterStmt depth rest')
    (heq : elseChars depth no ++ rest = elseChars depth no' ++ rest') :
    no.map Stmt.unlined = no'.map Stmt.unlined ∧ rest = rest' := by
  cases no with
  | none =>
    cases no' with
    | none => exact ⟨rfl, heq⟩
    | some no' =>
      obtain rfl : rest = elseChars depth (some no') ++ rest' := heq
      exact absurd hrest (not_afterStmt_else no')
  | some no =>
    cases no' with
    | none =>
      obtain rfl : elseChars depth (some no) ++ rest = rest' := heq
      exact absurd hrest' (not_afterStmt_else no)
    | some no' =>
      simp only [elseChars, List.append_assoc, List.append_cancel_left_eq] at heq
      obtain ⟨hsame, hrests⟩ := htold no rfl depth no' rest rest' (hplain' no' rfl) hrest.deeper
        hrest'.deeper heq
      exact ⟨congrArg some hsame, hrests⟩

theorem with_told {body body' : Stmt} {more more' : List Char} (hvalue : value.AllPlain)
    (hvalue' : value'.AllPlain) (hname : name.IsSpelt) (hname' : name'.IsSpelt)
    (hbody : body.BodyTold) (hbody' : body'.AllPlain) (hmore : AfterStmt (depth + 1) more)
    (hmore' : AfterStmt (depth + 1) more')
    (heq : value.chars ++ ' ' :: 'a' :: 's' :: ' ' ::
        (name.text.toList ++ (body.bodyChars depth ++ more)) =
      value'.chars ++ ' ' :: 'a' :: 's' :: ' ' ::
        (name'.text.toList ++ (body'.bodyChars depth ++ more'))) :
    value.unlined = value'.unlined ∧ name.unlined = name'.unlined ∧ body.unlined = body'.unlined ∧
      more = more' := by
  have has (text : List Char) : AfterExpr (' ' :: 'a' :: 's' :: text) := by
    apply afterExpr_space
    intro hequals
    cases (List.cons_prefix_cons.mp hequals).1
  obtain ⟨hvalues, htitle⟩ := value.told hvalue value' _ _ hvalue' (has _) (has _) heq
  simp only [List.cons.injEq, true_and] at htitle
  obtain ⟨hnames, hbodies⟩ := Name.told hname hname' (body.afterExpr_body depth more).term.word
    (body'.afterExpr_body depth more').term.word htitle
  obtain ⟨hsame, hrests⟩ := hbody depth body' more more' hbody' hmore hmore' hbodies
  exact ⟨hvalues, hnames, hsame, hrests⟩

theorem funk_told {params params' : List Name} (hname : name.IsSpelt) (hname' : name'.IsSpelt)
    (hparams : ∀ param ∈ params, param.IsSpelt) (hparams' : ∀ param ∈ params', param.IsSpelt)
    (heq : name.text.toList ++ '(' :: (commaText (params.map fun param => param.text.toList) ++
        ')' :: rest) =
      name'.text.toList ++ '(' :: (commaText (params'.map fun param => param.text.toList) ++
        ')' :: rest')) :
    name.unlined = name'.unlined ∧ params.map Name.unlined = params'.map Name.unlined ∧
      rest = rest' := by
  have hopen (more : List Char) : AfterWord ('(' :: more) :=
    afterWord_cons (by decide) (by decide) (by decide)
  obtain ⟨hnames, hmore⟩ := Name.told hname hname' (hopen _) (hopen _) heq
  have htold : ∀ param ∈ params,
      Told (fun param : Name => param.text.toList) Name.unlined Name.IsSpelt param := by
    intro param hparam other rest rest' hother hrest hrest' heq
    exact Name.told (hparams param hparam) hother hrest.term.word hrest'.term.word heq
  have hopened {param : Name} (hparam : param.IsSpelt) :
      Opened (fun param : Name => param.text.toList) ')' param := by
    intro rest more heq
    obtain ⟨c, tail, htext, hletter, -⟩ := Spelt.exists_letter hparam rfl
    simp only [htext] at heq
    obtain rfl := (List.cons.inj heq).1
    cases hletter
  obtain ⟨hsame, hrests⟩ := commaText_told (by simp) htold hparams'
    (fun param hparam => hopened (hparams param hparam))
    (fun param hparam => hopened (hparams' param hparam)) (List.cons.inj hmore).2
  exact ⟨hnames, hsame, hrests⟩

end Forms

/-- What its parts are told apart by tells a statement apart. -/
theorem Stmt.told_of_parts {s : Stmt} (h : s.AllPlain)
    (hinner : ∀ inner, Part.stmt inner ∈ (Part.stmt s).subparts → inner.Told ∧ inner.BodyTold) :
    s.Told := by
  intro depth s' rest rest' h' hrest hrest' heq
  obtain ⟨hword, htail⟩ := Stmt.tails_eq h h' heq
  cases s with
  | expression line value =>
    cases s' with
    | expression line' value' =>
      obtain ⟨hvalue, hrests⟩ :=
        value_line_told (h.expr List.mem_cons_self) (h'.expr List.mem_cons_self) htail
      exact ⟨congrArg (Stmt.expression 0) hvalue, hrests⟩
    | block line' body' =>
      have hblock : value.chars ++ ('\n' :: rest) = blockChars depth body' ++ rest' := by
        simpa [tailChars] using htail
      exact absurd hblock (Expr.chars_ne_block (h.expr List.mem_cons_self) body')
    | _ => cases hword
  | block line body =>
    cases s' with
    | expression line' value' =>
      have hblock : value'.chars ++ ('\n' :: rest') = blockChars depth body ++ rest := by
        simpa [tailChars] using htail.symm
      exact absurd hblock (Expr.chars_ne_block (h'.expr List.mem_cons_self) body)
    | block line' body' =>
      obtain ⟨hbody, hrests⟩ := blockChars_told
        (fun s hs => (hinner s (List.mem_map_of_mem hs)).1)
        (fun s hs => h.stmt (List.mem_map_of_mem hs))
        (fun s hs => h'.stmt (List.mem_map_of_mem hs)) htail
      refine ⟨?_, hrests⟩
      unfold unlined
      rw [allUnlined_eq_map, allUnlined_eq_map, hbody]
    | _ => cases hword
  | print line value =>
    cases s' with
    | print line' value' =>
      obtain ⟨hvalue, hrests⟩ :=
        print_told (h.expr List.mem_cons_self) (h'.expr List.mem_cons_self) htail
      exact ⟨congrArg (Stmt.print 0) hvalue, hrests⟩
    | _ => cases hword
  | make line name value =>
    cases s' with
    | make line' name' value' =>
      obtain ⟨hname, hvalue, hrests⟩ := make_told h.self h'.self
        (fun e he => h.expr (by simpa [Part.subparts] using he))
        (fun e he => h'.expr (by simpa [Part.subparts] using he)) htail
      refine ⟨?_, hrests⟩
      unfold unlined
      rw [hname, hvalue]
    | _ => cases hword
  | return_ line value =>
    cases s' with
    | return_ line' value' =>
      obtain ⟨hvalue, hrests⟩ := return_told
        (fun e he => h.expr (by simpa [Part.subparts] using he))
        (fun e he => h'.expr (by simpa [Part.subparts] using he)) htail
      exact ⟨congrArg (Stmt.return_ 0) hvalue, hrests⟩
    | _ => cases hword
  | if_ line condition yes no =>
    cases s' with
    | if_ line' condition' yes' no' =>
      simp only [tailChars, List.cons_append, List.append_assoc, List.cons.injEq, true_and] at htail
      obtain ⟨hcondition, hyes, hmore⟩ := headed_told (h.expr List.mem_cons_self)
        (h'.expr List.mem_cons_self) (hinner yes (by simp [Part.subparts])).2
        (h'.stmt (by simp [Part.subparts])) (hrest.else_ no) (hrest'.else_ no') htail
      obtain ⟨hno, hrests⟩ := else_told
        (fun s hs => (hinner s (by simpa [Part.subparts] using Or.inr hs)).2)
        (fun s hs => h'.stmt (by simpa [Part.subparts] using Or.inr hs)) hrest hrest' hmore
      refine ⟨?_, hrests⟩
      unfold unlined
      rw [hcondition, hyes, maybeUnlined_eq_map, maybeUnlined_eq_map, hno]
    | _ => cases hword
  | while_ line condition body =>
    cases s' with
    | while_ line' condition' body' =>
      simp only [tailChars, List.cons_append, List.append_assoc, List.cons.injEq, true_and] at htail
      obtain ⟨hcondition, hbody, hrests⟩ := headed_told (h.expr List.mem_cons_self)
        (h'.expr List.mem_cons_self) (hinner body (by simp [Part.subparts])).2
        (h'.stmt (by simp [Part.subparts])) hrest.deeper hrest'.deeper htail
      refine ⟨?_, hrests⟩
      unfold unlined
      rw [hcondition, hbody]
    | _ => cases hword
  | funk line name params bodyLine body =>
    cases s' with
    | funk line' name' params' bodyLine' body' =>
      simp only [tailChars, List.cons_append, List.append_assoc, List.cons.injEq, true_and] at htail
      obtain ⟨hname, hparams⟩ := h.self
      obtain ⟨hname', hparams'⟩ := h'.self
      obtain ⟨hnames, hallParams, hmore⟩ := funk_told hname hname' hparams hparams' htail
      obtain ⟨hbody, hrests⟩ := blockChars_told
        (fun s hs => (hinner s (List.mem_map_of_mem hs)).1)
        (fun s hs => h.stmt (List.mem_map_of_mem hs))
        (fun s hs => h'.stmt (List.mem_map_of_mem hs)) (List.cons.inj hmore).2
      refine ⟨?_, hrests⟩
      unfold unlined
      rw [hnames, hallParams, allUnlined_eq_map, allUnlined_eq_map, hbody]
    | _ => cases hword
  | with_ line value name body =>
    cases s' with
    | with_ line' value' name' body' =>
      simp only [tailChars, List.cons_append, List.append_assoc, List.cons.injEq, true_and] at htail
      obtain ⟨hvalue, hname, hbody, hrests⟩ := with_told (h.expr List.mem_cons_self)
        (h'.expr List.mem_cons_self) h.self h'.self (hinner body (by simp [Part.subparts])).2
        (h'.stmt (by simp [Part.subparts])) hrest.deeper hrest'.deeper htail
      refine ⟨?_, hrests⟩
      unfold unlined
      rw [hvalue, hname, hbody]
    | _ => cases hword
  | for_ line name items body =>
    cases s' with
    | for_ line' name' items' body' =>
      simp only [tailChars, List.cons_append, List.append_assoc, List.cons.injEq, true_and] at htail
      obtain ⟨hname, hmore⟩ := Name.told h.self h'.self afterTerm_space.word afterTerm_space.word
        htail
      simp only [List.cons.injEq, true_and] at hmore
      obtain ⟨hitems, hbody, hrests⟩ := headed_told (h.expr List.mem_cons_self)
        (h'.expr List.mem_cons_self) (hinner body (by simp [Part.subparts])).2
        (h'.stmt (by simp [Part.subparts])) hrest.deeper hrest'.deeper hmore
      refine ⟨?_, hrests⟩
      unfold unlined
      rw [hname, hitems, hbody]
    | _ => cases hword

/-- Every plain statement is told apart, on its own and under a header. -/
theorem Stmt.told (s : Stmt) (h : s.AllPlain) : s.Told ∧ s.BodyTold := by
  let law : Part → Prop := fun
    | .stmt s => s.AllPlain → s.Told ∧ s.BodyTold
    | .expr _ => True
  have hall (p : Part) : law p := by
    induction p using Part.induction with
    | step p ih =>
      cases p with
      | expr e => trivial
      | stmt s =>
        intro h
        have hinner (inner : Stmt) (hpart : Part.stmt inner ∈ (Part.stmt s).subparts) :
            inner.Told ∧ inner.BodyTold := ih _ hpart (h.stmt hpart)
        have htold := Stmt.told_of_parts h hinner
        exact ⟨htold, Stmt.bodyTold h htold fun inner hpart => (hinner inner hpart).1⟩
  exact hall (.stmt s) h

end Telling

end FunkLang
