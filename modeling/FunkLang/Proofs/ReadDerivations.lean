-- Every derivation is read: by induction on it, the reader of its symbol
-- settles on its tree, from wherever the tokens stand, as long as the token
-- after them ends them. So with the room for it a program is read just if it is
-- derived.
import FunkLang.Proofs.AcceptedStatements

namespace FunkLang
namespace Grammar

open Reader (Rule Place Extension Row Settles)

/-! ## What is to be read -/

/-- From one cursor to another the reader of a symbol settles on a tree. Items in a row are each
read to where the next one starts. -/
def ReadFrom : (s : Symbol) → Cursor → s.Tree → Cursor → Prop
  | .phrase rule, c, e, c' => Settles (fun room => Reader.byRule room rule c) e c'
  | .extension rule, c, x, c' => Settles (fun room => extension? room rule c) (some x) c'
  | .entry, c, x, c' =>
    Settles (fun room => Reader.entry (Reader.byRule room .expression) c) x c'
  | .parameters, c, names, c' => Settles (fun _ => Reader.parameters c) names c'
  | .nextName, c, n, c' =>
    Settles (fun _ => Reader.led (.sign .comma) (Reader.name .nextParameter) c) (some n) c'
  | .statement place, c, s, c' => Settles (fun room => Reader.statement room place c) s c'
  | .many item, c, all, c' =>
    Row (fun c a c' => ReadFrom item c a c' ∧ ∃ ts, Span c ts c' ∧ Derives item ts a) c all c'
  | .separated item, c, all, c' => ∀ close, c'.current.kind = .sign close → closes close →
    Row (fun c a c' => ∃ c1 ts, ReadFrom item c a c1 ∧ Span c ts c1 ∧ Derives item ts a ∧
      Separates close c1 c') c all c'

/-- The items of the symbol are single ones, and what begins such an item ends the one before. -/
def Regular : Symbol → Prop
  | .many item => Regular item ∧ Single item ∧ ∀ kind a, Begins item kind → Follows item a kind
  | .separated item => Regular item ∧ Single item
  | _ => True

/-- What is derived is read, wherever it stands. -/
def Accepted (s : Symbol) (ts : List Token) (a : s.Tree) : Prop :=
  Regular s → ∀ c c', Span c ts c' → Follows s a c'.current.kind → ReadFrom s c a c'

/-! ## Items -/

section Items

variable {item : Symbol} {c c' : Cursor} {ts : List Token}

theorem begins_of_span {a : item.Tree} (h : Derives item ts a) (hsingle : Single item)
    (hspan : Span c ts c') : Begins item c.current.kind := by
  obtain ⟨t, rest, rfl, hbegins⟩ := h.begins hsingle
  rw [hspan.current_eq]
  exact hbegins

theorem shorter_of_span {a : item.Tree} (h : Derives item ts a) (hsingle : Single item)
    (hspan : Span c ts c') : c'.tokens.length < c.tokens.length := by
  have hlength := hspan.length
  have hpos := List.length_pos_iff.mpr (ne_nil_of_derives h hsingle)
  omega

/-- The items of a row either are at its end or have one more to begin with. -/
theorem begins_or_ends {all : List item.Tree} (h : Derives (.many item) ts all)
    (hsingle : Single item) (hspan : Span c ts c') : c = c' ∨ Begins item c.current.kind := by
  cases h with
  | none => exact Or.inl hspan.eq_of_nil
  | more hfirst _ =>
    obtain ⟨c1, hspan1, -⟩ := hspan.split
    exact Or.inr (begins_of_span hfirst hsingle hspan1)

theorem accepted_none : Accepted (.many item) [] [] := by
  intro _ c c' hspan _
  cases hspan.eq_of_nil
  exact .nil

theorem accepted_more {us : List Token} {first : item.Tree} {rest : List item.Tree}
    (hfirst : Derives item ts first) (hrest : Derives (.many item) us rest)
    (ihfirst : Accepted item ts first) (ihrest : Accepted (.many item) us rest) :
    Accepted (.many item) (ts ++ us) (first :: rest) := by
  intro hregular c c' hspan hfollows
  obtain ⟨hitem, hsingle, hnext⟩ := hregular
  obtain ⟨c1, hspan1, hspan2⟩ := hspan.split
  have hfollows1 : Follows item first c1.current.kind := by
    rcases begins_or_ends hrest hsingle hspan2 with rfl | hbegins
    · exact hfollows first
    · exact hnext _ _ hbegins
  refine .cons ⟨ihfirst hitem _ _ hspan1 hfollows1, ts, hspan1, hfirst⟩ ?_
  exact ihrest ⟨hitem, hsingle, hnext⟩ _ _ hspan2 hfollows

theorem accepted_empty : Accepted (.separated item) [] [] := by
  intro _ c c' hspan _ close _ _
  cases hspan.eq_of_nil
  exact .nil

theorem accepted_last {only : item.Tree} (honly : Derives item ts only)
    (ihonly : Accepted item ts only) : Accepted (.separated item) ts [only] := by
  intro hregular c c' hspan _ close hkind hclose
  obtain ⟨hitem, hsingle⟩ := hregular
  have hfollows : Follows item only c'.current.kind := by
    rw [hkind]
    exact follows_of_sign hsingle (extends?_of_closes hclose)
  refine .cons ⟨c', ts, ihonly hitem _ _ hspan hfollows, hspan, honly, ?_⟩ .nil
  exact Or.inl ⟨hkind, rfl⟩

theorem accepted_before {comma : Token} {us : List Token} {first : item.Tree}
    {rest : List item.Tree} (hfirst : Derives item ts first) (hcomma : comma.kind = .sign .comma)
    (ihfirst : Accepted item ts first) (ihrest : Accepted (.separated item) us rest) :
    Accepted (.separated item) (ts ++ comma :: us) (first :: rest) := by
  intro hregular c c' hspan hfollows close hkind hclose
  obtain ⟨hitem, hsingle⟩ := hregular
  obtain ⟨c1, hspan1, hspan⟩ := hspan.split
  obtain ⟨c2, hspan2, hspan3⟩ := hspan.uncons
  have hfollows1 : Follows item first c1.current.kind := by
    rw [hspan2.current_eq, hcomma]
    exact follows_of_sign hsingle rfl
  have hseparates : Separates close c1 c2 := Or.inr ⟨comma, hcomma, hspan2⟩
  refine .cons ⟨c1, ts, ihfirst hitem _ _ hspan1 hfollows1, hspan1, hfirst, hseparates⟩ ?_
  exact ihrest ⟨hitem, hsingle⟩ _ _ hspan3 hfollows close hkind hclose

end Items

/-! ## Derivations -/

theorem unaryOp?_of_begins {kind : Kind} (h : beginsPrimary kind) :
    Reader.unaryOp? kind = none := by
  cases kind with
  | sign s => cases s <;> first | rfl | cases h
  | _ => rfl

/-- A token that begins a statement, and does not go on with an expression, extends nothing. -/
theorem extends?_of_begins {kind : Kind} (h : beginsBody kind) (hjoins : joins kind = false) :
    extends? kind = none := by
  cases kind with
  | word w => cases w <;> first | rfl | (cases hjoins; done) | cases h
  | sign s => cases s <;> first | rfl | (cases hjoins; done) | cases h
  | _ => rfl

section Phrases

variable {c c' : Cursor} {opening closing : Token} {ts : List Token}

/-- A list in brackets is read to its closing sign. -/
theorem settles_of_separated {item : Symbol} {read : Nat → Reader item.Tree} {what : Expectation}
    {all : List item.Tree} {close : Sign} (ih : Accepted (.separated item) ts all)
    (hregular : Regular item) (hsingle : Single item) (hspan : Span c ts c')
    (hclose : closes close) (hend : c'.current.kind = .sign close)
    (hread : ∀ c a c', ReadFrom item c a c' → Settles (fun room => read room c) a c') :
    Settles (fun room => Reader.separated close what (read room) c) all c' := by
  have hrow := ih ⟨hregular, hsingle⟩ _ _ hspan ⟨close, hend, hclose⟩ close hend hclose
  refine settles_separated hclose (fun c a c2 h => ?_) (fun c a c2 h => ?_) hrow hend
  · obtain ⟨c1, ts, hitem, hspan, hts, hcomma⟩ := h
    refine ⟨ne_of_begins (begins_of_span hts hsingle hspan) ?_, c1, hread _ _ _ hitem, hcomma⟩
    cases close <;> first | rfl | cases hclose
  · obtain ⟨c1, ts, -, hspan, hts, hcomma⟩ := h
    have hlt := shorter_of_span hts hsingle hspan
    rcases hcomma with ⟨-, rfl⟩ | ⟨comma, -, hspan'⟩
    · exact hlt
    · have hlength := hspan'.length
      omega

/-- Statements are read to where the next one starts. -/
theorem accepted_stmts {stmts : List Stmt} (ih : Accepted (.many (.statement .list)) ts stmts)
    (hspan : Span c ts c') (hend : c'.current.kind ≠ .word .else_) :
    ReadFrom (.many (.statement .list)) c stmts c' := by
  refine ih ⟨trivial, trivial, fun kind s hbegins _ => ne_of_begins hbegins rfl⟩ _ _ hspan ?_
  exact fun s _ => hend

/-- The statements of a block and the brace that closes it. -/
theorem settles_braces {stmts : List Stmt} (ih : Accepted (.many (.statement .list)) ts stmts)
    (hspan : Span c (ts ++ [closing]) c') (hclosing : closing.kind = .sign .rightBrace) :
    Settles (fun room => Reader.blockRest (Reader.statement room .list) c) stmts c' := by
  obtain ⟨c1, hspan1, hclose⟩ := hspan.split
  have hend : c1.current.kind ≠ .word .else_ := by
    rw [hclose.current_eq, hclosing]
    exact Kind.noConfusion
  have hrow := accepted_stmts ih hspan1 hend
  refine settles_block (fun c s c' h => h.1) (fun c s c' h => ?_) (fun c s c' h => ?_) hrow
    hclose hclosing
  · obtain ⟨-, us, hspan, hus⟩ := h
    exact begins_of_span hus trivial hspan
  · obtain ⟨-, us, hspan, hus⟩ := h
    exact shorter_of_span hus trivial hspan

/-- What is in brackets is read to the bracket that closes it. -/
theorem settles_inside {e : Expr} {close : Sign} (ih : Accepted (.phrase .expression) ts e)
    (hspan : Span c ts c') (hkind : c'.current.kind = .sign close)
    (hclose : extends? (.sign close) = none) :
    Settles (fun room => Reader.byRule room .expression c) e c' := by
  refine ih trivial _ _ hspan (endsBefore_of_none ?_)
  rw [hkind]
  exact hclose

/-- A value is read to the semicolon after it. -/
theorem settles_value {e : Expr} (ih : Accepted (.phrase .expression) ts e)
    (hspan : Span c (ts ++ [closing]) c') (hclosing : closing.kind = .sign .semicolon) :
    ∃ c1, Settles (fun room => Reader.byRule room .expression c) e c1 ∧ Span c1 [closing] c' := by
  obtain ⟨c1, hspan1, hclose⟩ := hspan.split
  exact ⟨c1, settles_inside ih hspan1 (hclose.current_eq ▸ hclosing) rfl, hclose⟩

/-- An expression is read to the statement after it, which stands apart from it. -/
theorem settles_before {us : List Token} {e : Expr} {s : Stmt}
    (ih : Accepted (.phrase .expression) ts e) (hs : Derives (.statement .body) us s)
    (hapart : Apart us) (hspan : Span c (ts ++ us) c') :
    ∃ c1, Settles (fun room => Reader.byRule room .expression c) e c1 ∧ Span c1 us c' := by
  obtain ⟨c1, hspan1, hspan2⟩ := hspan.split
  refine ⟨c1, ih trivial _ _ hspan1 (endsBefore_of_none ?_), hspan2⟩
  obtain ⟨t, rest, rfl, hbegins⟩ := hs.begins trivial
  rw [hspan2.current_eq]
  exact extends?_of_begins hbegins (hapart t rfl)

theorem accepted_extended {rule operand : Rule} {us : List Token} {first : Expr}
    {extensions : List Extension} (hoperand : operand? rule = some operand)
    (hextensions : Derives (.many (.extension rule)) us extensions)
    (ihfirst : Accepted (.phrase operand) ts first)
    (ihextensions : Accepted (.many (.extension rule)) us extensions) :
    Accepted (.phrase rule) (ts ++ us) (extensions.foldl Extension.apply first) := by
  intro _ c c' hspan hfollows
  obtain ⟨hends, hself⟩ := (endsBefore_iff hoperand).mp hfollows
  obtain ⟨c1, hspan1, hspan2⟩ := hspan.split
  have hends1 : EndsBefore operand c1.current.kind := by
    rcases begins_or_ends hextensions trivial hspan2 with rfl | hbegins
    · exact hends
    · exact endsBefore_of_extends hoperand hbegins
  have hregular : Regular (.many (.extension rule)) :=
    ⟨trivial, trivial, fun kind x hextends operand' h => endsBefore_of_extends h hextends⟩
  have hlast : Follows (.many (.extension rule)) extensions c'.current.kind := by
    intro x operand' h
    cases hoperand.symm.trans h
    exact hends
  have hrow := ihextensions hregular _ _ hspan2 hlast
  refine settles_extended hoperand (ihfirst trivial _ _ hspan1 hends1) (fun c x c' h => h.1)
    (fun c x c' h => ?_) hrow hself
  obtain ⟨-, vs, hspan, hvs⟩ := h
  exact shorter_of_span hvs trivial hspan

theorem accepted_assignment {us : List Token} {equals : Token} {target value e : Expr}
    (hkind : equals.kind = .sign .equal) (hassign : assignment? value target = some e)
    (ihtarget : Accepted (.phrase .disjunction) ts target)
    (ihvalue : Accepted (.phrase .assignment) us value) :
    Accepted (.phrase .assignment) (ts ++ equals :: us) e := by
  intro _ c c' hspan hfollows
  obtain ⟨c1, hspan1, hspan⟩ := hspan.split
  obtain ⟨c2, hequals, hspan2⟩ := hspan.uncons
  have hextends : extends? c1.current.kind = some .assignment := by
    rw [hequals.current_eq, hkind]
    rfl
  have htarget : EndsBefore .disjunction c1.current.kind := by
    intro other hother
    cases hextends.symm.trans hother
    decide
  have hchoice : extends? c1.current.kind ≠ some .choice := by simp [hextends]
  refine settles_assignment (settles_operand rfl (ihtarget trivial _ _ hspan1 htarget) hchoice)
    hequals hkind (ihvalue trivial _ _ hspan2 hfollows) hassign

end Phrases

/-- Whatever is derived is read. -/
theorem accepted_of_derives {s : Symbol} {ts : List Token} {a : s.Tree} (h : Derives s ts a) :
    Accepted s ts a := by
  induction h with
  -- Expressions.
  | expression _ ih =>
    intro _ c c' hspan hfollows
    have hends : EndsBefore .assignment c'.current.kind :=
      endsBefore_of_none (hfollows.extends?_eq_none rfl)
    exact settles_byRule (fun _ => rfl) (ih trivial _ _ hspan hends)
  | assignment _ hkind _ hassign ihtarget ihvalue =>
    exact accepted_assignment hkind hassign ihtarget ihvalue
  | unassigned _ ih =>
    intro _ c c' hspan hfollows
    have hnone := hfollows.extends?_eq_none rfl
    exact settles_unassigned (ih trivial _ _ hspan (endsBefore_of_none hnone)) hnone
  | extended hoperand _ hextensions ihfirst ihextensions =>
    exact accepted_extended hoperand hextensions ihfirst ihextensions
  | unary hop _ ih =>
    intro _ c c' hspan hfollows
    obtain ⟨c1, hopen, hspan1⟩ := hspan.uncons
    exact settles_unary hopen hop (ih trivial _ _ hspan1 hfollows)
  | suffixed h ih =>
    intro _ c c' hspan hfollows
    have hbegins := begins_of_span h trivial hspan
    refine settles_suffixed (unaryOp?_of_begins hbegins) (ih trivial _ _ hspan ?_)
    intro other hother
    exact Nat.lt_succ_of_lt (hfollows other hother)
  | atom hkind =>
    intro _ c c' hspan _
    exact settles_atom hspan hkind
  | list hkind _ hclosing ih =>
    intro _ c c' hspan _
    obtain ⟨c1, c2, hopen, hspan1, hclose, hend⟩ := hspan.bracketed
    refine settles_list hopen hkind ?_ hclose hclosing
    exact settles_of_separated ih trivial trivial hspan1 rfl (hend ▸ hclosing) fun _ _ _ h => h
  | record hkind _ hclosing ih =>
    intro _ c c' hspan _
    obtain ⟨c1, c2, hopen, hspan1, hclose, hend⟩ := hspan.bracketed
    refine settles_record hopen hkind ?_ hclose hclosing
    exact settles_of_separated ih trivial trivial hspan1 rfl (hend ▸ hclosing) fun _ _ _ h => h
  | group hkind _ hclosing ih =>
    intro _ c c' hspan _
    obtain ⟨c1, c2, hopen, hspan1, hclose, hend⟩ := hspan.bracketed
    have hinside := settles_inside ih hspan1 (hend ▸ hclosing) rfl
    exact settles_group hopen hkind hinside hclose hclosing
  | argument _ ih =>
    intro _ c c' hspan hfollows
    exact settles_byRule (fun _ => rfl) (ih trivial _ _ hspan hfollows)
  | element _ ih =>
    intro _ c c' hspan hfollows
    exact settles_byRule (fun _ => rfl) (ih trivial _ _ hspan hfollows)
  | entry hkey hcolon _ ih =>
    intro _ c c' hspan hfollows
    obtain ⟨c1, hspan1, hspan⟩ := hspan.uncons
    obtain ⟨c2, hspan2, hspan3⟩ := hspan.uncons
    exact settles_entry hspan1 hkey hspan2 hcolon (ih trivial _ _ hspan3 hfollows)
  -- What extends an expression on its right.
  | choice hkind _ hbetween _ ihcondition ihno =>
    intro _ c c' hspan hfollows
    obtain ⟨c1, hopen, hspan⟩ := hspan.uncons
    obtain ⟨c2, hspan1, hspan⟩ := hspan.split
    obtain ⟨c3, helse, hspan2⟩ := hspan.uncons
    have hends : EndsBefore .disjunction c2.current.kind := by
      rw [helse.current_eq, hbetween]
      exact endsBefore_of_none rfl
    exact settles_choice hopen hkind (ihcondition trivial _ _ hspan1 hends) helse hbetween
      (ihno trivial _ _ hspan2 (hfollows _ rfl))
  | logical hkind hrule hoperand _ ih =>
    intro _ c c' hspan hfollows
    obtain ⟨c1, hopen, hspan1⟩ := hspan.uncons
    subst hrule
    exact settles_logical hoperand hopen hkind (ih trivial _ _ hspan1 (hfollows _ hoperand))
  | binary hop hrule hoperand _ ih =>
    intro _ c c' hspan hfollows
    obtain ⟨c1, hopen, hspan1⟩ := hspan.uncons
    subst hrule
    exact settles_binary hoperand hopen hop (ih trivial _ _ hspan1 (hfollows _ hoperand))
  | call hkind _ hclosing ih =>
    intro _ c c' hspan _
    obtain ⟨c1, c2, hopen, hspan1, hclose, hend⟩ := hspan.bracketed
    refine settles_call hopen hkind ?_ hclose hclosing
    exact settles_of_separated ih trivial trivial hspan1 rfl (hend ▸ hclosing) fun _ _ _ h => h
  | index hkind _ hclosing ih =>
    intro _ c c' hspan _
    obtain ⟨c1, c2, hopen, hspan1, hclose, hend⟩ := hspan.bracketed
    have hinside := settles_inside ih hspan1 (hend ▸ hclosing) rfl
    exact settles_index hopen hkind hinside hclose hclosing
  | field hkind hname =>
    intro _ c c' hspan _
    obtain ⟨c1, hopen, hkey⟩ := hspan.uncons
    exact settles_field hopen hkind hkey hname
  -- Items one after another.
  | none => exact accepted_none
  | more hfirst hrest ihfirst ihrest => exact accepted_more hfirst hrest ihfirst ihrest
  | empty => exact accepted_empty
  | last honly ih => exact accepted_last honly ih
  | before hfirst hcomma _ ihfirst ihrest => exact accepted_before hfirst hcomma ihfirst ihrest
  -- Statements.
  | print hkind _ hclosing ih =>
    intro _ c c' hspan _
    obtain ⟨c1, hopen, hspan1⟩ := hspan.uncons
    obtain ⟨c2, hvalue, hclose⟩ := settles_value ih hspan1 hclosing
    exact settles_print hopen hkind hvalue hclose hclosing
  | block hkind _ hclosing ih =>
    intro _ c c' hspan _
    obtain ⟨c1, hopen, hspan1⟩ := hspan.uncons
    exact settles_blockStatement hopen hkind (settles_braces ih hspan1 hclosing)
  | if_ hkind _ hyes hapart ihcondition ihyes =>
    intro _ c c' hspan hfollows
    obtain ⟨c1, hopen, hspan⟩ := hspan.uncons
    obtain ⟨c2, hcondition, hspan1⟩ := settles_before ihcondition hyes hapart hspan
    have hend : c'.current.kind ≠ .word .else_ := hfollows rfl
    exact settles_if hopen hkind hcondition (ihyes trivial _ _ hspan1 fun _ => hend) hend
  | @ifElse opening between ts us vs condition yes no hkind _ hyes hapart htakes hbetween _
      ihcondition ihyes ihno =>
    intro _ c c' hspan hfollows
    obtain ⟨c1, hopen, hspan⟩ := hspan.uncons
    obtain ⟨c2, hspan1, hspan⟩ := hspan.split
    obtain ⟨c3, hspan2, hspan⟩ := hspan.split
    obtain ⟨c4, helse, hspan3⟩ := hspan.uncons
    have hyes' : Follows (.statement .body) yes c3.current.kind := by
      intro h
      rw [htakes] at h
      cases h
    obtain ⟨c5, hcondition, hspan4⟩ := settles_before ihcondition hyes hapart (hspan1.trans hspan2)
    exact settles_ifElse hopen hkind hcondition (ihyes trivial _ _ hspan4 hyes') helse hbetween
      (ihno trivial _ _ hspan3 hfollows)
  | while_ hkind _ hbody hapart ihcondition ihbody =>
    intro _ c c' hspan hfollows
    obtain ⟨c1, hopen, hspan⟩ := hspan.uncons
    obtain ⟨c2, hcondition, hspan1⟩ := settles_before ihcondition hbody hapart hspan
    exact settles_while hopen hkind hcondition (ihbody trivial _ _ hspan1 hfollows)
  | return_ hkind hclosing =>
    intro _ c c' hspan _
    obtain ⟨c1, hopen, hclose⟩ := hspan.uncons
    exact settles_return hopen hkind hclose hclosing
  | returnValue hkind hvalue hclosing ih =>
    intro _ c c' hspan _
    obtain ⟨c1, hopen, hspan1⟩ := hspan.uncons
    obtain ⟨c2, hspan2, -⟩ := hspan1.split
    obtain ⟨c3, hsettles, hclose⟩ := settles_value ih hspan1 hclosing
    exact settles_returnValue hopen hkind hsettles (begins_of_span hvalue trivial hspan2) hclose
      hclosing
  | with_ hkind _ hbetween hname _ ihvalue ihbody =>
    intro _ c c' hspan hfollows
    obtain ⟨c1, hopen, hspan⟩ := hspan.uncons
    obtain ⟨c2, hspan1, hspan⟩ := hspan.split
    obtain ⟨c3, has, hspan⟩ := hspan.uncons
    obtain ⟨c4, htitle, hspan2⟩ := hspan.uncons
    have hends : EndsBefore .expression c2.current.kind := by
      rw [has.current_eq, hbetween]
      exact endsBefore_of_none rfl
    exact settles_with hopen hkind (ihvalue trivial _ _ hspan1 hends) has hbetween htitle hname
      (ihbody trivial _ _ hspan2 hfollows)
  | for_ hkind hname hbetween _ hbody hapart ihitems ihbody =>
    intro _ c c' hspan hfollows
    obtain ⟨c1, hopen, hspan⟩ := hspan.uncons
    obtain ⟨c2, htitle, hspan⟩ := hspan.uncons
    obtain ⟨c3, hin, hspan⟩ := hspan.uncons
    obtain ⟨c4, hitems, hspan1⟩ := settles_before ihitems hbody hapart hspan
    exact settles_for hopen hkind htitle hname hin hbetween hitems
      (ihbody trivial _ _ hspan1 hfollows)
  | @value first closing ts e h hbrace hclosing ih =>
    intro _ c c' hspan _
    have hvalue : Span c ((first :: ts) ++ [closing]) c' := hspan
    obtain ⟨c2, hspan2, -⟩ := hvalue.split
    obtain ⟨c1, hsettles, hclose⟩ := settles_value ih hvalue hclosing
    have hcurrent := hspan.current_eq
    rw [← hcurrent] at hbrace ⊢
    exact settles_expression (begins_of_span h trivial hspan2) hbrace hsettles hclose hclosing
  -- Declarations.
  | noParameters =>
    intro _ c c' hspan hfollows
    cases hspan.eq_of_nil
    exact .after (sees_of_eq (hfollows.2 rfl)) (.of_ok rfl)
  | someParameters hname _ ih =>
    intro _ c c' hspan hfollows
    obtain ⟨c1, hopen, hspan1⟩ := hspan.uncons
    have hregular : Regular (.many .nextName) := ⟨trivial, trivial, fun _ _ _ => trivial⟩
    have hrow := ih hregular _ _ hspan1 fun _ => trivial
    refine settles_parameters hopen hname (fun c n c' h => h.1) (fun c n c' h => ?_) hrow
      hfollows.1
    obtain ⟨-, us, hspan, hus⟩ := h
    exact shorter_of_span hus trivial hspan
  | nextName hcomma hname =>
    intro _ c c' hspan _
    obtain ⟨c1, hopen, htitle⟩ := hspan.uncons
    exact settles_led hopen hcomma Kind.noConfusion (.of_ok (name_of_span htitle hname))
  | funk hkind hname hbefore _ hafter hbrace _ hclosing ihparams ihbody =>
    intro _ c c' hspan _
    obtain ⟨c1, hopen, hspan⟩ := hspan.uncons
    obtain ⟨c2, htitle, hspan⟩ := hspan.uncons
    obtain ⟨c3, hbefore', hspan⟩ := hspan.uncons
    obtain ⟨c4, hspan1, hspan⟩ := hspan.split
    obtain ⟨c5, hafter', hspan⟩ := hspan.uncons
    obtain ⟨c6, hbrace', hspan2⟩ := hspan.uncons
    have hend : c4.current.kind = .sign .rightParen := hafter'.current_eq ▸ hafter
    have hparams : c4.current.kind ≠ .sign .comma := by simp [hend]
    exact settles_funk hopen hkind htitle hname hbefore' hbefore
      (ihparams trivial _ _ hspan1 ⟨hparams, fun _ => hend⟩) hafter' hafter hbrace' hbrace
      (settles_braces ihbody hspan2 hclosing)
  | make hkind hname hclosing =>
    intro _ c c' hspan _
    obtain ⟨c1, hopen, hspan⟩ := hspan.uncons
    obtain ⟨c2, htitle, hclose⟩ := hspan.uncons
    exact settles_make hopen hkind htitle hname hclose hclosing
  | makeValue hkind hname hequals _ hclosing ih =>
    intro _ c c' hspan _
    obtain ⟨c1, hopen, hspan⟩ := hspan.uncons
    obtain ⟨c2, htitle, hspan⟩ := hspan.uncons
    obtain ⟨c3, hequals', hspan1⟩ := hspan.uncons
    obtain ⟨c4, hvalue, hclose⟩ := settles_value ih hspan1 hclosing
    exact settles_makeValue hopen hkind htitle hname hequals' hequals hvalue hclose hclosing
  | body h ih =>
    intro _ c c' hspan hfollows
    exact settles_plain (begins_of_span h trivial hspan) (ih trivial _ _ hspan hfollows)

/-! ## Programs -/

/-- The statements of a program are read up to the end mark, given the room for them. -/
theorem settles_program {ts : List Token} {program : List Stmt} {c c' : Cursor}
    (h : Program ts program) (hspan : Span c ts c') (hend : c'.current.kind = .finish) :
    Settles (fun room => Reader.program room c) program c' := by
  have helse : c'.current.kind ≠ .word .else_ := by simp [hend]
  refine Reader.settles_many (fun c s c' h => ?_) (fun c s c' h => ?_)
    (accepted_stmts (accepted_of_derives h) hspan helse) (settles_unlessAt_none hend)
  · obtain ⟨hstatement, us, hspan, hus⟩ := h
    exact settles_unlessAt (ne_of_begins (begins_of_span hus trivial hspan) rfl) hstatement
  · obtain ⟨-, us, hspan, hus⟩ := h
    exact shorter_of_span hus trivial hspan

/-- A token list whose only end mark is its last token. -/
structure Ended (ts : List Token) (last : Token) : Prop where
  last : last.kind = .finish
  only : ∀ t ∈ ts, t.kind ≠ .finish

section Programs

variable {ts : List Token} {last : Token} {program : List Stmt} {c : Cursor} {room : Nat}

/-- The tokens of the list stand between its start and its end mark. -/
theorem Ended.span (h : Ended ts last) : Span (.ofTokens (ts ++ [last])) ts ⟨last, []⟩ := by
  have hclosed : Cursor.Closed ⟨last, []⟩ := ⟨[], last, rfl, h.last⟩
  cases ts with
  | nil =>
    refine ⟨?_, hclosed⟩
    simp [Cursor.ofTokens, Cursor.tokens, h.last]
  | cons t rest =>
    have hlast : (t :: (rest ++ [last])).getLast (by simp) = last := by
      rw [List.getLast_cons (by simp), List.getLast_concat]
    refine ⟨?_, hclosed⟩
    simp only [List.cons_append, Cursor.ofTokens, hlast, h.last, if_true, Cursor.tokens]

/-- A reader that has come to an end mark has taken all tokens before it. -/
theorem Ended.eq_of_span (h : Ended ts last) {us : List Token}
    (hspan : Span (.ofTokens (ts ++ [last])) us c) (hend : c.current.kind = .finish) :
    us = ts ∧ c = ⟨last, []⟩ := by
  have htokens : ts ++ [last] = us ++ c.current :: c.ahead :=
    h.span.tokens.symm.trans hspan.tokens
  rcases List.append_eq_append_iff.mp htokens with ⟨vs, rfl, hvs⟩ | ⟨vs, rfl, hvs⟩
  · cases vs with
    | nil =>
      rw [List.nil_append, List.cons.injEq] at hvs
      refine ⟨by simp, Cursor.eq_of_tokens ?_⟩
      simp [Cursor.tokens, ← hvs.1, ← hvs.2]
    | cons v rest => simp at hvs
  · cases vs with
    | nil =>
      rw [List.nil_append, List.cons.injEq] at hvs
      refine ⟨by simp, Cursor.eq_of_tokens ?_⟩
      simp [Cursor.tokens, hvs.1, hvs.2]
    | cons v rest =>
      -- The end mark would stand among the tokens before the last.
      rw [List.cons_append, List.cons.injEq] at hvs
      exact absurd (hvs.1 ▸ hend) (h.only v (by simp))

/-- There is a least room that a program that is derived is read with. -/
theorem parsed_of_derived (ended : Ended ts last) (h : Program ts program) :
    ∃ least, ∀ room,
      (least ≤ room → parseTokens room (ts ++ [last]) = .ok program) ∧
      (room < least → ∃ t, parseTokens room (ts ++ [last]) = .error ⟨.tooDeep, t⟩) := by
  obtain ⟨least, hsettles⟩ := settles_program h ended.span ended.last
  refine ⟨least, fun room => ⟨fun hle => ?_, fun hlt => ?_⟩⟩
  · have hread : Reader.program room (.ofTokens (ts ++ [last])) = .ok program ⟨last, []⟩ :=
      (hsettles room).1 hle
    unfold parseTokens
    rw [hread]
  · have hdeep : Reader.TooDeep (Reader.program room (.ofTokens (ts ++ [last]))) :=
      (hsettles room).2 hlt
    obtain ⟨t, c, hdeep⟩ := hdeep
    refine ⟨t, ?_⟩
    unfold parseTokens
    rw [hdeep]

/-- What is read is derived. -/
theorem derived_of_parsed (ended : Ended ts last)
    (h : parseTokens room (ts ++ [last]) = .ok program) : Program ts program := by
  unfold parseTokens at h
  split at h
  · rename_i program' c hread
    cases h
    obtain ⟨us, hspan, hus, hend⟩ := derives_of_program ended.span.start hread
    obtain ⟨rfl, -⟩ := ended.eq_of_span hspan hend
    exact hus
  · cases h

/-- Where the room lasts, a program is read just if it is derived. There are no two derived from
the same tokens, all tokens before the end mark are taken, and some room is enough. -/
theorem programs_read_are_those_derived (ended : Ended ts last)
    (shallow : ∀ t, parseTokens room (ts ++ [last]) ≠ .error ⟨.tooDeep, t⟩) (program : List Stmt) :
    (parseTokens room (ts ++ [last]) = .ok program ↔ Program ts program) ∧
      (Program ts program →
        Reader.program room (.ofTokens (ts ++ [last])) = .ok program ⟨last, []⟩ ∧
          (∀ other, Program ts other → other = program) ∧
          ∃ least, ∀ more,
            (least ≤ more → parseTokens more (ts ++ [last]) = .ok program) ∧
            (more < least → ∃ t, parseTokens more (ts ++ [last]) = .error ⟨.tooDeep, t⟩)) := by
  have hlasts : ¬ Reader.TooDeep (Reader.program room (.ofTokens (ts ++ [last]))) := by
    rintro ⟨t, c, h⟩
    apply shallow t
    unfold parseTokens
    rw [h]
  have hread {program : List Stmt} (h : Program ts program) :
      Reader.program room (.ofTokens (ts ++ [last])) = .ok program ⟨last, []⟩ :=
    (settles_program h ended.span ended.last).eq_ok hlasts
  refine ⟨⟨derived_of_parsed ended, fun h => ?_⟩, fun h =>
    ⟨hread h, fun other hother => ?_, parsed_of_derived ended h⟩⟩
  · unfold parseTokens
    rw [hread h]
  · have hboth := (hread hother).symm.trans (hread h)
    cases hboth
    rfl

/-- An else after two ifs, the second one inside the first. -/
def danglingElse : List Token :=
  [⟨.word .if_, "if", 1⟩, ⟨.atom .name, "a", 1⟩, ⟨.word .with_, "with", 1⟩, ⟨.atom .name, "b", 1⟩,
    ⟨.word .as, "as", 1⟩, ⟨.atom .name, "c", 1⟩, ⟨.word .if_, "if", 1⟩, ⟨.atom .name, "d", 1⟩,
    ⟨.sign .leftBrace, "\x7b", 1⟩, ⟨.sign .rightBrace, "\x7d", 1⟩, ⟨.word .else_, "else", 1⟩,
    ⟨.sign .leftBrace, "\x7b", 1⟩, ⟨.sign .rightBrace, "\x7d", 1⟩]

def danglingElseTree : List Stmt :=
  [.if_ 1 (.atom ⟨.name, "a", 1⟩) (.with_ 1 (.atom ⟨.name, "b", 1⟩) ⟨"c", 1⟩
    (.if_ 1 (.atom ⟨.name, "d", 1⟩) (.block 1 []) (some (.block 1 [])))) none]

theorem the_else_is_of_the_nearest_if :
    Ended danglingElse (endMark 1) ∧ Program danglingElse danglingElseTree ∧
      ∀ other, Program danglingElse other → other = danglingElseTree := by
  have ended : Ended danglingElse (endMark 1) := by
    refine ⟨rfl, ?_⟩
    unfold danglingElse
    simp
  have parsed : parseTokens 30 (danglingElse ++ [endMark 1]) = .ok danglingElseTree := rfl
  have shallow : ∀ t, parseTokens 30 (danglingElse ++ [endMark 1]) ≠ .error ⟨.tooDeep, t⟩ := by
    rw [parsed]
    exact nofun
  obtain ⟨hiff, hall⟩ := programs_read_are_those_derived ended shallow danglingElseTree
  have hprogram := hiff.mp parsed
  exact ⟨ended, hprogram, (hall hprogram).2.1⟩

end Programs

end Grammar
end FunkLang
