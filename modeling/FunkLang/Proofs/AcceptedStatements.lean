-- What is derived as a statement is read, where the parts of it are.
import FunkLang.Proofs.Accepted
import FunkLang.Proofs.DerivedStatements

namespace FunkLang
namespace Grammar

open Reader (Rule Place Extension Row Settles)

variable {c c1 c2 c3 c' : Cursor} {t opening closing between title : Token} {e : Expr} {s : Stmt}

/-! ## Parts of statements -/

theorem settles_ended {α : Type} {what : Expectation} {item : Nat → Reader α} {a : α}
    (hitem : Settles (fun room => item room c) a c1) (hclose : Span c1 [closing] c')
    (hclosing : closing.kind = .sign .semicolon) :
    Settles (fun room => Reader.ended what (item room) c) a c' :=
  hitem.bind (.after (expect_of_span hclose hclosing Kind.noConfusion) (.of_ok rfl))

/-- The statements of a block, none of which begins with the brace that closes it. -/
theorem settles_block {stmts : List Stmt} {link : Cursor → Stmt → Cursor → Prop}
    (hlink : ∀ c s c', link c s c' → Settles (fun room => Reader.statement room .list c) s c')
    (hbegins : ∀ c s c', link c s c' → Begins (.statement .list) c.current.kind)
    (hshorter : ∀ c s c', link c s c' → c'.tokens.length < c.tokens.length)
    (h : Row link c stmts c1) (hclose : Span c1 [closing] c')
    (hclosing : closing.kind = .sign .rightBrace) :
    Settles (fun room => Reader.blockRest (Reader.statement room .list) c) stmts c' := by
  have hend : c1.current.kind = .sign .rightBrace := hclose.current_eq ▸ hclosing
  refine Settles.bind (Reader.settles_many (fun c s c' h => ?_) hshorter h ?_)
    (.after (expect_of_span hclose hclosing Kind.noConfusion) (.of_ok rfl))
  · have hfirst := hbegins c s c' h
    refine .after (sees_of_ne (ne_of_begins hfirst rfl)) ?_
    exact settles_unlessAt (ne_of_begins hfirst rfl) (hlink c s c' h)
  · refine .after (sees_of_ne ?_) (settles_unlessAt_none hend)
    simp [hend]

theorem settles_parameters {names : List Name} {link : Cursor → Name → Cursor → Prop}
    (hopen : Span c [t] c1) (ht : t.kind = .atom .name)
    (hlink : ∀ c n c', link c n c' → Settles (fun _ =>
      Reader.led (.sign .comma) (Reader.name .nextParameter) c) (some n) c')
    (hshorter : ∀ c n c', link c n c' → c'.tokens.length < c.tokens.length)
    (h : Row link c1 names c') (hends : c'.current.kind ≠ .sign .comma) :
    Settles (fun _ => Reader.parameters c) (named t :: names) c' := by
  have hkind : c.current.kind ≠ .sign .rightParen := by
    rw [hopen.current_eq, ht]
    exact Kind.noConfusion
  refine .after (sees_of_ne hkind) (.after (name_of_span hopen ht) ?_)
  exact (Reader.settles_many hlink hshorter h (settles_led_none hends)).bind (.of_ok rfl)

/-! ## Statements that are no declarations -/

section Bodies

variable (hopen : Span c [opening] c1)

theorem settles_body (h : Settles (fun room => Reader.statement (room + 2) .body c) s c') :
    Settles (fun room => Reader.statement room .body c) s c' := by
  refine h.shift 2 (fun room hroom => ⟨c.current, c, ?_⟩) fun room => rfl
  match room, hroom with
  | 0, _ => rfl
  | 1, _ => rfl

include hopen

theorem settles_print (hkind : opening.kind = .word .print)
    (hvalue : Settles (fun room => Reader.byRule room .expression c1) e c2)
    (hclose : Span c2 [closing] c') (hclosing : closing.kind = .sign .semicolon) :
    Settles (fun room => Reader.statement room .body c) (.print opening.line e) c' := by
  apply settles_body
  simp only [Reader.statement]
  refine .after Reader.peek_ok ?_
  rw [hopen.current_eq, hkind]
  refine .after (next_of_span hopen (by simp [hkind])) ?_
  exact (settles_ended hvalue hclose hclosing).bind (.of_ok rfl)

theorem settles_return (hkind : opening.kind = .word .return_) (hclose : Span c1 [closing] c')
    (hclosing : closing.kind = .sign .semicolon) :
    Settles (fun room => Reader.statement room .body c) (.return_ opening.line none) c' := by
  have hend : c1.current.kind = .sign .semicolon := hclose.current_eq ▸ hclosing
  apply settles_body
  simp only [Reader.statement]
  refine .after Reader.peek_ok ?_
  rw [hopen.current_eq, hkind]
  refine .after (next_of_span hopen (by simp [hkind])) ?_
  exact (settles_ended (settles_unlessAt_none hend) hclose hclosing).bind (.of_ok rfl)

theorem settles_returnValue (hkind : opening.kind = .word .return_)
    (hvalue : Settles (fun room => Reader.byRule room .expression c1) e c2)
    (hbegins : Begins (.phrase .expression) c1.current.kind)
    (hclose : Span c2 [closing] c') (hclosing : closing.kind = .sign .semicolon) :
    Settles (fun room => Reader.statement room .body c) (.return_ opening.line (some e)) c' := by
  apply settles_body
  simp only [Reader.statement]
  refine .after Reader.peek_ok ?_
  rw [hopen.current_eq, hkind]
  refine .after (next_of_span hopen (by simp [hkind])) ?_
  have hne : c1.current.kind ≠ .sign .semicolon := ne_of_begins hbegins rfl
  exact (settles_ended (settles_unlessAt hne hvalue) hclose hclosing).bind (.of_ok rfl)

theorem settles_blockStatement {stmts : List Stmt} (hkind : opening.kind = .sign .leftBrace)
    (hstmts : Settles (fun room => Reader.blockRest (Reader.statement room .list) c1) stmts c') :
    Settles (fun room => Reader.statement room .body c) (.block opening.line stmts) c' := by
  apply settles_body
  simp only [Reader.statement]
  refine .after Reader.peek_ok ?_
  rw [hopen.current_eq, hkind]
  refine .after (next_of_span hopen (by simp [hkind])) ?_
  exact hstmts.bind (.of_ok rfl)

theorem settles_if {yes : Stmt} (hkind : opening.kind = .word .if_)
    (hcondition : Settles (fun room => Reader.byRule room .expression c1) e c2)
    (hyes : Settles (fun room => Reader.statement room .body c2) yes c')
    (hends : c'.current.kind ≠ .word .else_) :
    Settles (fun room => Reader.statement room .body c) (.if_ opening.line e yes none) c' := by
  apply settles_body
  simp only [Reader.statement]
  refine .after Reader.peek_ok ?_
  rw [hopen.current_eq, hkind]
  refine .after (next_of_span hopen (by simp [hkind])) ?_
  exact hcondition.bind (hyes.bind ((settles_led_none hends).bind (.of_ok rfl)))

theorem settles_ifElse {yes no : Stmt} {c4 : Cursor} (hkind : opening.kind = .word .if_)
    (hcondition : Settles (fun room => Reader.byRule room .expression c1) e c2)
    (hyes : Settles (fun room => Reader.statement room .body c2) yes c3)
    (hbetween : Span c3 [between] c4) (helse : between.kind = .word .else_)
    (hno : Settles (fun room => Reader.statement room .body c4) no c') :
    Settles (fun room => Reader.statement room .body c)
      (.if_ opening.line e yes (some no)) c' := by
  apply settles_body
  simp only [Reader.statement]
  refine .after Reader.peek_ok ?_
  rw [hopen.current_eq, hkind]
  refine .after (next_of_span hopen (by simp [hkind])) ?_
  refine hcondition.bind (hyes.bind ?_)
  exact (settles_led hbetween helse Kind.noConfusion hno).bind (.of_ok rfl)

theorem settles_while (hkind : opening.kind = .word .while_)
    (hcondition : Settles (fun room => Reader.byRule room .expression c1) e c2)
    (hbody : Settles (fun room => Reader.statement room .body c2) s c') :
    Settles (fun room => Reader.statement room .body c) (.while_ opening.line e s) c' := by
  apply settles_body
  simp only [Reader.statement]
  refine .after Reader.peek_ok ?_
  rw [hopen.current_eq, hkind]
  refine .after (next_of_span hopen (by simp [hkind])) ?_
  exact hcondition.bind (hbody.bind (.of_ok rfl))

theorem settles_with {c4 : Cursor} (hkind : opening.kind = .word .with_)
    (hvalue : Settles (fun room => Reader.byRule room .expression c1) e c2)
    (hbetween : Span c2 [between] c3) (has : between.kind = .word .as)
    (htitle : Span c3 [title] c4) (hname : title.kind = .atom .name)
    (hbody : Settles (fun room => Reader.statement room .body c4) s c') :
    Settles (fun room => Reader.statement room .body c)
      (.with_ opening.line e (named title) s) c' := by
  apply settles_body
  simp only [Reader.statement]
  refine .after Reader.peek_ok ?_
  rw [hopen.current_eq, hkind]
  refine .after (next_of_span hopen (by simp [hkind])) ?_
  refine hvalue.bind (.after (expect_of_span hbetween has Kind.noConfusion) ?_)
  exact .after (name_of_span htitle hname) (hbody.bind (.of_ok rfl))

theorem settles_for {c4 : Cursor} (hkind : opening.kind = .word .for_)
    (htitle : Span c1 [title] c2) (hname : title.kind = .atom .name)
    (hbetween : Span c2 [between] c3) (hin : between.kind = .word .in_)
    (hitems : Settles (fun room => Reader.byRule room .expression c3) e c4)
    (hbody : Settles (fun room => Reader.statement room .body c4) s c') :
    Settles (fun room => Reader.statement room .body c)
      (.for_ opening.line (named title) e s) c' := by
  apply settles_body
  simp only [Reader.statement]
  refine .after Reader.peek_ok ?_
  rw [hopen.current_eq, hkind]
  refine .after (next_of_span hopen (by simp [hkind])) ?_
  refine .after (name_of_span htitle hname) ?_
  refine .after (expect_of_span hbetween hin Kind.noConfusion) ?_
  exact hitems.bind (hbody.bind (.of_ok rfl))

end Bodies

/-- A statement that begins as an expression does, and not with a brace, is one. -/
theorem settles_expression (hbegins : beginsExpression c.current.kind)
    (hbrace : c.current.kind ≠ .sign .leftBrace)
    (hvalue : Settles (fun room => Reader.byRule room .expression c) e c1)
    (hclose : Span c1 [closing] c') (hclosing : closing.kind = .sign .semicolon) :
    Settles (fun room => Reader.statement room .body c) (.expression c.current.line e) c' := by
  apply settles_body
  simp only [Reader.statement]
  refine .after Reader.peek_ok ?_
  have hrest : Settles (fun room => (do
      let value ← Reader.ended .statementEnd (Reader.expression room)
      return Stmt.expression c.current.line value) c) (.expression c.current.line e) c' :=
    (settles_ended hvalue hclose hclosing).bind (.of_ok rfl)
  cases hkind : c.current.kind with
  | atom a => exact hrest
  | sign sign =>
    rw [hkind] at hbrace
    cases sign <;> first | exact absurd rfl hbrace | exact hrest
  | word w =>
    rw [hkind] at hbegins
    cases hbegins
  | finish => exact hrest
  | other name => exact hrest

/-! ## Declarations -/

section Declarations

theorem settles_item (h : Settles (fun room => Reader.statement (room + 3) .list c) s c') :
    Settles (fun room => Reader.statement room .list c) s c' := by
  refine h.shift 3 (fun room hroom => ⟨c.current, c, ?_⟩) fun room => rfl
  match room, hroom with
  | 0, _ => rfl
  | 1, _ => rfl
  | 2, _ => rfl

/-- A statement of a list that opens as no declaration does. -/
theorem settles_plain (hbegins : beginsBody c.current.kind)
    (h : Settles (fun room => Reader.statement room .body c) s c') :
    Settles (fun room => Reader.statement room .list c) s c' := by
  apply settles_item
  simp only [Reader.statement.eq_1]
  refine .after Reader.peek_ok ?_
  have hrest := h.spare 2
  cases hkind : c.current.kind with
  | word w =>
    rw [hkind] at hbegins
    cases w <;> first | exact hrest | cases hbegins
  | _ => exact hrest

theorem settles_funk {params : List Name} {stmts : List Stmt} {before after brace : Token}
    {c4 c5 c6 : Cursor} (hopen : Span c [opening] c1) (hkind : opening.kind = .word .funk)
    (htitle : Span c1 [title] c2) (hname : title.kind = .atom .name)
    (hbefore : Span c2 [before] c3) (hbefore' : before.kind = .sign .leftParen)
    (hparams : Settles (fun _ => Reader.parameters c3) params c4)
    (hafter : Span c4 [after] c5) (hafter' : after.kind = .sign .rightParen)
    (hbrace : Span c5 [brace] c6) (hbrace' : brace.kind = .sign .leftBrace)
    (hstmts : Settles (fun room => Reader.blockRest (Reader.statement room .list) c6) stmts c') :
    Settles (fun room => Reader.statement room .list c)
      (.funk opening.line (named title) params brace.line stmts) c' := by
  apply settles_item
  simp only [Reader.statement.eq_1]
  refine .after Reader.peek_ok ?_
  rw [hopen.current_eq, hkind]
  refine .after (next_of_span hopen (by simp [hkind])) ?_
  refine .after (name_of_span htitle hname) ?_
  refine .after (expect_of_span hbefore hbefore' Kind.noConfusion) (hparams.bind ?_)
  refine .after (expect_of_span hafter hafter' Kind.noConfusion) ?_
  refine .after (expect_of_span hbrace hbrace' Kind.noConfusion) ?_
  exact hstmts.bind (.of_ok rfl)

theorem settles_make (hopen : Span c [opening] c1) (hkind : opening.kind = .word .make)
    (htitle : Span c1 [title] c2) (hname : title.kind = .atom .name)
    (hclose : Span c2 [closing] c') (hclosing : closing.kind = .sign .semicolon) :
    Settles (fun room => Reader.statement room .list c)
      (.make opening.line (named title) none) c' := by
  have hequals : c2.current.kind ≠ .sign .equal := by
    rw [hclose.current_eq, hclosing]
    decide
  apply settles_item
  simp only [Reader.statement.eq_1]
  refine .after Reader.peek_ok ?_
  rw [hopen.current_eq, hkind]
  refine .after (next_of_span hopen (by simp [hkind])) ?_
  refine .after (name_of_span htitle hname) ?_
  exact (settles_ended (settles_led_none hequals) hclose hclosing).bind (.of_ok rfl)

theorem settles_makeValue {c4 : Cursor} (hopen : Span c [opening] c1)
    (hkind : opening.kind = .word .make) (htitle : Span c1 [title] c2)
    (hname : title.kind = .atom .name) (hequals : Span c2 [t] c3) (ht : t.kind = .sign .equal)
    (hvalue : Settles (fun room => Reader.byRule room .expression c3) e c4)
    (hclose : Span c4 [closing] c') (hclosing : closing.kind = .sign .semicolon) :
    Settles (fun room => Reader.statement room .list c)
      (.make opening.line (named title) (some e)) c' := by
  apply settles_item
  simp only [Reader.statement.eq_1]
  refine .after Reader.peek_ok ?_
  rw [hopen.current_eq, hkind]
  refine .after (next_of_span hopen (by simp [hkind])) ?_
  refine .after (name_of_span htitle hname) ?_
  have hstart := settles_led hequals ht Kind.noConfusion (hvalue.spare 1)
  exact (settles_ended hstart hclose hclosing).bind (.of_ok rfl)

end Declarations

end Grammar
end FunkLang
