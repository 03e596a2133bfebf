-- The programs that are read are those that the productions write, if what
-- joins an expression does not begin the branch or the body right after it.
-- Without that rule there are programs that are written and not read.
import FunkLang.Proofs.WrittenPrograms

namespace FunkLang
namespace Grammar

open Reader (Rule Place Extension)

/-! ## Symbols as forms -/

/-- The phrase that a rule reads. -/
def ruled : Rule → Phrase
  | .expression | .argument | .element => .expression
  | .assignment => .assignment
  | .choice => .choice
  | .disjunction => .or
  | .conjunction => .and
  | .equality => .equality
  | .comparison => .comparison
  | .term => .term
  | .factor => .factor
  | .unary => .unary
  | .suffixed => .call
  | .primary => .primary

/-- What extends the phrases of a rule on their right. -/
def Form.extension : Rule → Form
  | .choice => word .if_ ++ phrase .or ++ word .else_ ++ phrase .or
  | .disjunction => word .or ++ phrase .and
  | .conjunction => word .and ++ phrase .equality
  | .equality => operator .equality ++ phrase .comparison
  | .comparison => operator .comparison ++ phrase .term
  | .term => operator .term ++ phrase .factor
  | .factor => operator .factor ++ phrase .unary
  | _ => suffix

/-- How what a symbol stands for is written. -/
def Symbol.form : Symbol → Form
  | .phrase rule => .phrase (ruled rule)
  | .extension rule => .extension rule
  | .entry => .entry
  | .parameters => .optional (.row .name)
  | .nextName => .sign .comma ++ .name
  | .statement .list => .phrase .declaration
  | .statement .body => .phrase .statement
  | .many item => .many item.form
  | .separated item => .optional item.form.listed

/-! ## Targets -/

/-- A value could be assigned to the expression. -/
def IsTarget (e : Expr) : Prop := ∃ value e', assignment? value e = some e'

/-- The extension reads from a collection. -/
def IsPlace : Extension → Prop
  | .index _ | .field _ => True
  | _ => False

section Writing

variable {bars : Kind → Bool} {ts us : List Token} {t : Token} {s : Symbol}

theorem writes_statement (p : Phrase)
    (hp : p = .print ∨ p = .block ∨ p = .if_ ∨ p = .while_ ∨ p = .return_ ∨ p = .with_ ∨ p = .for_ ∨
      p = .bare) (h : Writes bars (p.form bars) ts) : Writes bars (.phrase .statement) ts := by
  have hphrase : Writes bars (.phrase p) ts := .phrase h
  refine .phrase (writes_of_means ?_)
  rcases hp with rfl | rfl | rfl | rfl | rfl | rfl | rfl | rfl
  all_goals simp [Phrase.form, hphrase]

/-- What an assignment gives cannot be assigned to. -/
theorem not_target_of_assignment {value target e : Expr} (h : assignment? value target = some e) :
    ¬ IsTarget e := by
  unfold assignment? at h
  rintro ⟨value', e', h'⟩
  split at h <;> cases h <;> cases h'

/-- Only what reads from a collection makes an expression something to assign to. -/
theorem place_of_target {x : Extension} {e : Expr} (h : IsTarget (x.apply e)) : IsPlace x := by
  obtain ⟨value, e', h⟩ := h
  cases x with
  | index | field => trivial
  | _ => cases h

end Writing

/-! ## What is derived is written -/

/-- The tokens are written as the symbol is. Where the tree can be assigned to they are written
as a target, and a list of items is one of what each item is written as. -/
def Written : (s : Symbol) → List Token → s.Tree → Prop
  | .phrase rule, ts, e =>
    Writes joins (.phrase (ruled rule)) ts ∧ (IsTarget e → Writes joins (.phrase .target) ts)
  | .extension rule, ts, x =>
    Writes joins (.extension rule) ts ∧ (IsPlace x → rule = .suffixed ∧ Writes joins .place ts)
  | .many item, ts, all => ∃ pieces : List (List Token), ts = pieces.flatten ∧
      List.Forall₂ (Written item) pieces all
  | s, ts, _ => Writes joins s.form ts

theorem Written.writes {s : Symbol} {ts : List Token} {a : s.Tree} (h : Written s ts a) :
    Writes joins s.form ts := by
  induction s generalizing ts with
  | many item ih =>
    obtain ⟨pieces, rfl, hpieces⟩ := h
    induction hpieces with
    | nil => exact .none
    | cons hfirst _ ihrest => exact .more (ih hfirst) ihrest
  | phrase rule => exact h.1
  | extension rule => exact h.1
  | _ => exact h

section Parts

variable {ts us : List Token} {t opening closing : Token}

/-- A bracketed phrase. -/
theorem writes_bracketed {left right : Kind} {form : Form} (hopening : opening.kind = left)
    (h : Writes joins form ts) (hclosing : closing.kind = right) :
    Writes joins (.token left ++ form ++ .token right) (opening :: (ts ++ [closing])) := by
  have hboth : Writes joins (.token left ++ form ++ .token right) ([opening] ++ ts ++ [closing]) :=
    .both (.both (.token hopening) h) (.token hclosing)
  exact hboth

theorem writes_led {kind : Kind} {form : Form} (ht : t.kind = kind) (h : Writes joins form ts) :
    Writes joins (.token kind ++ form) (t :: ts) := by
  have hboth : Writes joins (.token kind ++ form) ([t] ++ ts) := .both (.token ht) h
  exact hboth

theorem writes_single {item : Form} (h : Writes joins item ts) :
    Writes joins (.optional item.listed) ts := by
  have hrow : Writes joins item.row (ts ++ []) := .both h .none
  have hlisted : Writes joins item.listed (ts ++ [] ++ []) := .both hrow .absent
  rw [List.append_nil, List.append_nil] at hlisted
  exact .present hlisted

theorem writes_separated {item : Form} (hfirst : Writes joins item ts) (ht : t.kind = .sign .comma)
    (hrest : Writes joins (.optional item.listed) us) :
    Writes joins (.optional item.listed) (ts ++ t :: us) := by
  cases hrest with
  | absent =>
    have hrow : Writes joins item.row (ts ++ []) := .both hfirst .none
    have htail : Writes joins (.optional (.sign .comma)) [t] := .present (.token ht)
    rw [List.append_nil] at hrow
    exact .present (.both hrow htail)
  | present h =>
    cases h with
    | both hrow htail =>
      cases hrow with
      | both hsecond hmany =>
        have hmore : Writes joins (.many (.sign .comma ++ item)) _ :=
          .more (writes_led ht hsecond) hmany
        have hlisted := Writes.both (.both hfirst hmore) htail
        rw [List.append_assoc] at hlisted
        exact .present hlisted

theorem writes_arguments (h : Writes joins (.optional (Form.phrase .expression).listed) ts) :
    Writes joins (.optional (.phrase .arguments)) ts := by
  cases h with
  | absent => exact .absent
  | present h => exact .present (.phrase h)

theorem writes_unaryOp {op : UnaryOp} (h : Reader.unaryOp? t.kind = some op) :
    Writes joins (.sign .bang ||| .sign .minus) [t] := by
  unfold Reader.unaryOp? at h
  split at h
  · exact .right (.token ‹_›)
  · exact .left (.token ‹_›)
  · cases h

/-- Where an extended phrase can be assigned to, it is what was extended last that can be. -/
theorem writes_target {rule operand : Rule} {first : Expr} {extensions : List Extension}
    (hoperand : operand? rule = some operand) (hfirst : Written (.phrase operand) ts first)
    (hmany : Written (.many (.extension rule)) us extensions)
    (h : IsTarget (extensions.foldl Extension.apply first)) :
    Writes joins (.phrase .target) (ts ++ us) := by
  obtain ⟨pieces, rfl, hpieces⟩ := hmany
  rcases List.eq_nil_or_concat extensions with rfl | ⟨before, x, rfl⟩
  · cases hpieces
    rw [List.flatten_nil, List.append_nil]
    exact hfirst.2 h
  · rw [List.concat_eq_append] at h hpieces
    rw [List.foldl_append] at h
    obtain ⟨earlier, later, rfl, hearlier, hlater⟩ : ∃ earlier later, pieces = earlier ++ later ∧
        List.Forall₂ (Written (.extension rule)) earlier before ∧
        List.Forall₂ (Written (.extension rule)) later [x] :=
      ⟨_, _, (List.take_append_drop _ _).symm, List.forall₂_take_append _ _ _ hpieces,
        List.forall₂_drop_append _ _ _ hpieces⟩
    cases hlater with
    | cons hlast hnil =>
      cases hnil
      obtain ⟨rfl, hplace⟩ := hlast.2 (place_of_target h)
      cases hoperand
      have hbefore : Written (.many (.extension .suffixed)) earlier.flatten before :=
        ⟨earlier, rfl, hearlier⟩
      have htarget := Writes.both (.both hfirst.1 hbefore.writes) hplace
      rw [List.append_assoc] at htarget
      rw [List.flatten_append, List.flatten_singleton]
      exact .phrase (.left (.right htarget))

end Parts

theorem Derives.written {s : Symbol} {ts : List Token} {a : s.Tree} (h : Derives s ts a) :
    Written s ts a := by
  induction h with
  -- Expressions.
  | expression _ ih => exact ⟨.phrase ih.1, ih.2⟩
  | assignment _ hequals _ he ihtarget ihvalue =>
    have htarget := ihtarget.2 ⟨_, _, he⟩
    refine ⟨.phrase (.left ?_), fun h => absurd h (not_target_of_assignment he)⟩
    have hboth := Writes.both (.both htarget (.token hequals)) ihvalue.1
    rw [List.append_assoc] at hboth
    exact hboth
  | unassigned _ ih => exact ⟨.phrase (.right ih.1), ih.2⟩
  | @extended rule operand _ _ _ _ hoperand _ _ ihfirst ihmany =>
    refine ⟨?_, writes_target hoperand ihfirst ihmany⟩
    have hboth := Writes.both ihfirst.1 ihmany.writes
    cases rule <;> cases hoperand <;> exact .phrase hboth
  | unary hop _ ih =>
    exact ⟨.phrase (.left (.both (writes_unaryOp hop) ih.1)), nofun⟩
  | suffixed _ ih => exact ⟨.phrase (.right ih.1), ih.2⟩
  | @atom t a hkind =>
    have hatom : Writes joins .atom [t] := writes_of_means (means_atom.mpr ⟨t, a, rfl, hkind⟩)
    refine ⟨.phrase (.left (.left (.left hatom))), fun h => ?_⟩
    obtain ⟨value, e, h⟩ := h
    cases a with
    | name => exact .phrase (.left (.left (.token hkind)))
    | _ => cases h
  | list hopening _ hclosing ih =>
    refine ⟨.phrase (.left (.left (.right ?_))), nofun⟩
    exact writes_bracketed hopening ih hclosing
  | record hopening _ hclosing ih =>
    refine ⟨.phrase (.left (.right ?_)), nofun⟩
    exact writes_bracketed hopening ih hclosing
  | group hopening _ hclosing ih =>
    refine ⟨.phrase (.right ?_), fun h => .phrase (.right ?_)⟩
    · exact writes_bracketed hopening ih.1 hclosing
    · exact writes_bracketed hopening (ih.2 h) hclosing
  | argument _ ih => exact ih
  | element _ ih => exact ih
  | entry hkey hcolon _ ih =>
    have hname := writes_led hkey (.token hcolon)
    exact Writes.both hname ih.1
  -- What extends an expression on its right.
  | choice hopening _ hbetween _ ihcondition ihno =>
    have hopen := writes_bracketed hopening ihcondition.1 hbetween
    have hboth := Writes.both hopen ihno.1
    rw [List.cons_append, List.append_assoc] at hboth
    exact ⟨hboth, nofun⟩
  | @logical _ rule operand op _ _ hkind hrule hoperand _ ih =>
    have hled := writes_led hkind ih.1
    subst hrule
    refine ⟨?_, nofun⟩
    cases op <;> cases hoperand <;> exact hled
  | @binary t rule operand tier op _ _ hop hrule hoperand _ ih =>
    have hoperator : Writes joins (.operator tier) [t] :=
      writes_of_means (means_operator.mpr ⟨t, op, rfl, hop⟩)
    have hboth := Writes.both hoperator ih.1
    subst hrule
    refine ⟨?_, nofun⟩
    cases tier <;> cases hoperand <;> exact hboth
  | call hopening _ hclosing ih =>
    exact ⟨.left (writes_bracketed hopening (writes_arguments ih) hclosing), nofun⟩
  | index hopening _ hclosing ih =>
    have hplace : Writes joins .place _ := .left (writes_bracketed hopening ih.1 hclosing)
    exact ⟨.right hplace, fun _ => ⟨rfl, hplace⟩⟩
  | field hdot hkey =>
    have hplace : Writes joins .place _ := .right (writes_led hdot (.token hkey))
    exact ⟨.right hplace, fun _ => ⟨rfl, hplace⟩⟩
  -- Items.
  | none => exact ⟨[], rfl, .nil⟩
  | more _ _ ihfirst ihrest =>
    obtain ⟨pieces, rfl, hpieces⟩ := ihrest
    exact ⟨_ :: pieces, rfl, .cons ihfirst hpieces⟩
  | empty => exact .absent
  | last _ ih => exact writes_single ih.writes
  | before _ hcomma _ ihfirst ihrest => exact writes_separated ihfirst.writes hcomma ihrest
  -- Statements.
  | print hkind _ hclosing ih =>
    exact writes_statement .print (by simp) (writes_bracketed hkind ih.1 hclosing)
  | block hkind _ hclosing ih =>
    exact writes_statement .block (by simp) (writes_bracketed hkind ih.writes hclosing)
  | if_ hkind _ _ hapart ihcondition ihyes =>
    have hbody := Writes.both (writes_led hkind ihcondition.1) (.barring ihyes hapart)
    have helse : Writes joins (.optional (.word .else_ ++ .phrase .statement)) [] := .absent
    have hif := Writes.both hbody helse
    rw [List.append_nil] at hif
    exact writes_statement .if_ (by simp) hif
  | ifElse hkind _ _ hapart _ hbetween _ ihcondition ihyes ihno =>
    have hbody := Writes.both (writes_led hkind ihcondition.1) (.barring ihyes hapart)
    have hif := Writes.both hbody (.present (writes_led hbetween ihno))
    rw [List.append_assoc] at hif
    exact writes_statement .if_ (by simp) hif
  | while_ hkind _ _ hapart ihcondition ihbody =>
    have hwhile := Writes.both (writes_led hkind ihcondition.1) (.barring ihbody hapart)
    exact writes_statement .while_ (by simp) hwhile
  | return_ hkind hclosing =>
    have hvalue : Writes joins (.optional (.phrase .expression)) [] := .absent
    have hreturn := writes_bracketed hkind hvalue hclosing
    exact writes_statement .return_ (by simp) hreturn
  | returnValue hkind _ hclosing ih =>
    have hreturn := writes_bracketed hkind (.present ih.1) hclosing
    exact writes_statement .return_ (by simp) hreturn
  | with_ hkind _ hbetween hname _ ihvalue ihbody =>
    have hopen := writes_bracketed hkind ihvalue.1 hbetween
    have hwith := Writes.both (.both hopen (.token hname)) ihbody
    simp only [List.append_assoc, List.cons_append, List.nil_append] at hwith
    exact writes_statement .with_ (by simp) hwith
  | for_ hkind hname hbetween _ _ hapart ihitems ihbody =>
    have hopen := writes_led hkind (.token hname)
    have hitems := Writes.both (.both hopen (.token hbetween)) ihitems.1
    have hfor := Writes.both hitems (.barring ihbody hapart)
    exact writes_statement .for_ (by simp) hfor
  | @value first closing ts e _ hfirst hclosing ih =>
    have hbars : Bars (· == .sign .leftBrace) (first :: ts ++ [closing]) := by
      simpa [Bars] using hfirst
    have hbare := Writes.barring (.both ih.1 (.token hclosing)) hbars
    exact writes_statement .bare (by simp) hbare
  -- Declarations.
  | noParameters => exact .absent
  | someParameters hname _ ih =>
    have hrow := Writes.both (.token hname) ih.writes
    exact .present hrow
  | nextName hcomma hname => exact writes_led hcomma (.token hname)
  | funk hkind hname hbefore _ hafter hbrace _ hclosing ihparams ihbody =>
    have hblock : Writes joins (.phrase .block) _ :=
      .phrase (writes_bracketed hbrace ihbody.writes hclosing)
    have hopen := Writes.both (writes_led hkind (.token hname)) (.token hbefore)
    have hfunk := Writes.both (.both (.both hopen ihparams) (.token hafter)) hblock
    simp only [List.append_assoc, List.cons_append, List.nil_append] at hfunk
    exact .phrase (.left (.left (.phrase hfunk)))
  | make hkind hname hclosing =>
    have hvalue : Writes joins (.optional (.sign .equal ++ .phrase .expression)) [] := .absent
    have hopen := writes_led hkind (.token hname)
    have hmake := Writes.both (.both hopen hvalue) (.token hclosing)
    exact .phrase (.left (.right (.phrase hmake)))
  | makeValue hkind hname hequals _ hclosing ih =>
    have hopen := writes_led hkind (.token hname)
    have hmake := Writes.both (.both hopen (.present (writes_led hequals ih.1))) (.token hclosing)
    exact .phrase (.left (.right (.phrase hmake)))
  | body _ ih => exact .phrase (.right ih)

/-! ## Programs -/

/-- A list of tokens is a program as the productions write it, what joins an expression not
beginning the branch or the body right after it, just if it ends at its only end mark and is read,
given the room for it. -/
theorem programs_written_are_those_read (ts : List Token) :
    Writes joins (.phrase .program) ts ↔
      ∃ us last, ts = us ++ [last] ∧ Ended us last ∧
        ∃ program least, ∀ room,
          (least ≤ room → parseTokens room ts = .ok program) ∧
          (room < least → ∃ t, parseTokens room ts = .error ⟨.tooDeep, t⟩) := by
  constructor
  · intro h
    obtain ⟨us, last, program, rfl, ended, hprogram⟩ := program_of_writes h
    obtain ⟨least, hleast⟩ := parsed_of_derived ended hprogram
    exact ⟨us, last, rfl, ended, program, least, hleast⟩
  · rintro ⟨us, last, rfl, ended, program, least, hleast⟩
    have hparsed := (hleast least).1 le_rfl
    have hprogram := (derived_of_parsed ended hparsed).written.writes
    exact .phrase (.both hprogram (.token ended.last))

section Branches

variable {bars : Kind → Bool} {ts : List Token}

theorem writes_alone {operand rest : Form} (h : Writes bars operand ts) :
    Writes bars (operand ++ .many rest) ts := by
  have hboth : Writes bars (operand ++ .many rest) (ts ++ []) := .both h .none
  rwa [List.append_nil] at hboth

/-- What stands alone is an expression. -/
theorem writes_expression (h : Writes bars (.phrase .primary) ts) :
    Writes bars (.phrase .expression) ts := by
  have hunary : Writes bars (.phrase .unary) ts := .phrase (.right (.phrase (writes_alone h)))
  have hterm : Writes bars (.phrase .term) ts :=
    .phrase (writes_alone (.phrase (writes_alone hunary)))
  have hequality : Writes bars (.phrase .equality) ts :=
    .phrase (writes_alone (.phrase (writes_alone hterm)))
  have hor : Writes bars (.phrase .or) ts :=
    .phrase (writes_alone (.phrase (writes_alone hequality)))
  exact .phrase (.phrase (.right (.phrase (writes_alone hor))))

/-- An if whose branch begins with an opening parenthesis. -/
def branchInParentheses : List Token :=
  [⟨.word .if_, "if", 1⟩, ⟨.atom .name, "a", 1⟩, ⟨.sign .leftParen, "(", 1⟩, ⟨.atom .name, "b", 1⟩,
    ⟨.sign .rightParen, ")", 1⟩, ⟨.sign .semicolon, ";", 1⟩, endMark 1]

/-- The branch is read as the arguments of a call, and there is no branch after it. -/
theorem a_branch_in_parentheses_is_written_and_not_read :
    Writes (fun _ => false) (.phrase .program) branchInParentheses ∧
      parseTokens standardRoom branchInParentheses =
        .error ⟨.expected .expression, ⟨.sign .semicolon, ";", 1⟩⟩ := by
  refine ⟨?_, rfl⟩
  have hname (text : String) :
      Writes (fun _ => false) (.phrase .expression) [⟨.atom .name, text, 1⟩] := by
    have hatom : Writes (fun _ => false) .atom [⟨.atom .name, text, 1⟩] := .right (.token rfl)
    exact writes_expression (.phrase (.left (.left (.left hatom))))
  have hgroup : Writes (fun _ => false) (.phrase .primary)
      ([⟨.sign .leftParen, "(", 1⟩] ++ [⟨.atom .name, "b", 1⟩] ++ [⟨.sign .rightParen, ")", 1⟩]) :=
    .phrase (.right (.both (.both (.token rfl) (hname "b")) (.token rfl)))
  have hend : Writes (fun _ => false) (.sign .semicolon) [⟨.sign .semicolon, ";", 1⟩] := .token rfl
  have hbranch := writes_statement .bare (by simp)
    (.barring (.both (writes_expression hgroup) hend)
      (by simp [Bars]))
  have hopen : Writes (fun _ => false) (.word .if_ ++ .phrase .expression)
      ([⟨.word .if_, "if", 1⟩] ++ [⟨.atom .name, "a", 1⟩]) := .both (.token rfl) (hname "a")
  have hif := writes_statement .if_ (by simp)
    (.both (.both hopen (.barring hbranch (by simp [Bars]))) .absent)
  have hdeclaration : Writes (fun _ => false) (.phrase .declaration) _ := .phrase (.right hif)
  have hprogram : Writes (fun _ => false) (.phrase .program) (_ ++ [endMark 1]) :=
    .phrase (.both (.more hdeclaration .none) (.token rfl))
  exact hprogram
end Branches

end Grammar
end FunkLang
