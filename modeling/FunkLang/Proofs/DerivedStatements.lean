-- What is read as a statement is derived, and an else that comes after it
-- could not have been taken into it.
import FunkLang.Proofs.Derived

namespace FunkLang
namespace Grammar

open Reader (Rule Place Extension Row)

variable {c c1 c' : Cursor} {opening : Token} {value : Reader Expr} {body : Reader Stmt} {s : Stmt}

/-! ## Parts of statements -/

/-- A statement that follows an expression does not go on with it. -/
theorem apart_of_follows {ts : List Token} (hspan : Span c ts c')
    (hends : EndsBefore .expression c.current.kind) : Apart ts := by
  intro t ht
  cases ts with
  | nil => cases ht
  | cons t' rest =>
    cases ht
    rw [← hspan.current_eq]
    exact not_joins (hends.extends?_eq_none rfl)

/-- What an optional part before a semicolon has taken. -/
theorem ended_eq_ok {α : Type} {what : Expectation} {item : Reader α} {a : α}
    (h : Reader.ended what item c = .ok a c') :
    ∃ (c1 : Cursor) (closing : Token), item c = .ok a c1 ∧
      Reader.expect (.sign .semicolon) what c1 = .ok closing c' := by
  obtain ⟨a1, c1, ha, h⟩ := bind_eq_ok.mp h
  obtain ⟨closing, c2, hclose, h⟩ := bind_eq_ok.mp h
  obtain ⟨rfl, rfl⟩ := pure_eq_ok.mp h
  exact ⟨c1, closing, ha, hclose⟩

/-- An expression and the semicolon after it. -/
theorem derives_of_ended {what : Expectation} {e : Expr}
    (hvalue : ReadsAs (.phrase .expression) value) (hclosed : c.Closed)
    (h : Reader.ended what value c = .ok e c') :
    ∃ (ts : List Token) (closing : Token), Span c (ts ++ [closing]) c' ∧
      Derives (.phrase .expression) ts e ∧ closing.kind = .sign .semicolon := by
  obtain ⟨c1, closing, he, hclose⟩ := ended_eq_ok h
  obtain ⟨ts, hspan, hts, -⟩ := hvalue _ _ _ hclosed he
  obtain ⟨hkind, hspan1⟩ := span_of_expect hspan.closed Kind.noConfusion hclose
  exact ⟨ts, closing, hspan.trans hspan1, hts, hkind⟩

/-- A statement of a block, which ends at a brace or where the tokens end. -/
theorem readsItems_blockItem {item : Reader Stmt} (hitem : ReadsAs (.statement .list) item) :
    ReadsItems (.statement .list) (do
      if ← Reader.sees .finish then return none
      Reader.unlessAt (.sign .rightBrace) item) := by
  have hunless := readsItems_unlessAt hitem (.sign .rightBrace)
  refine ⟨fun c s c' hclosed h => ?_, fun c c' h => ?_⟩
  · obtain ⟨b, c1, hsees, h⟩ := bind_eq_ok.mp h
    obtain ⟨rfl, rfl⟩ := Reader.sees_eq_ok.mp hsees
    by_cases hfinish : c1.current.kind = .finish
    · rw [if_pos (beq_iff_eq.mpr hfinish)] at h
      cases (pure_eq_ok.mp h).1
    · rw [if_neg (mt beq_iff_eq.mp hfinish)] at h
      exact hunless.found _ _ _ hclosed h
  · obtain ⟨b, c1, hsees, h⟩ := bind_eq_ok.mp h
    obtain ⟨rfl, rfl⟩ := Reader.sees_eq_ok.mp hsees
    by_cases hfinish : c1.current.kind = .finish
    · rw [if_pos (beq_iff_eq.mpr hfinish)] at h
      exact (pure_eq_ok.mp h).2.symm
    · rw [if_neg (mt beq_iff_eq.mp hfinish)] at h
      exact hunless.absent _ _ h

/-- The statements of a block and the brace after them. -/
theorem derives_of_block {item : Reader Stmt} {stmts : List Stmt}
    (hitem : ReadsAs (.statement .list) item) (hclosed : c.Closed)
    (h : Reader.blockRest item c = .ok stmts c') :
    ∃ (ts : List Token) (closing : Token), Span c (ts ++ [closing]) c' ∧
      Derives (.many (.statement .list)) ts stmts ∧ closing.kind = .sign .rightBrace := by
  obtain ⟨stmts', c1, hmany, h⟩ := bind_eq_ok.mp h
  obtain ⟨closing, c2, hclose, h⟩ := bind_eq_ok.mp h
  obtain ⟨rfl, rfl⟩ := pure_eq_ok.mp h
  obtain ⟨ts, hspan, hts, -, -⟩ :=
    derives_of_many (readsItems_blockItem hitem) trivial hclosed hmany
  obtain ⟨hkind, hspan1⟩ := span_of_expect hspan.closed Kind.noConfusion hclose
  exact ⟨ts, closing, hspan.trans hspan1, hts, hkind⟩

theorem readsItems_nextName :
    ReadsItems .nextName (Reader.led (.sign .comma) (Reader.name .nextParameter)) := by
  refine ⟨fun c n c' hclosed h => ?_, fun c c' h => ?_⟩
  · rcases Reader.led_eq_ok.mp h with ⟨hcomma, n', hn, heq⟩ | ⟨-, heq, -⟩
    · cases heq
      have hspan := Span.next hclosed (by simp [hcomma])
      obtain ⟨title, htitle, rfl, hspan1⟩ := span_of_name hspan.closed hn
      exact ⟨_, hspan.trans hspan1, .nextName hcomma htitle, trivial⟩
    · cases heq
  · rcases Reader.led_eq_ok.mp h with ⟨-, n', -, heq⟩ | ⟨-, -, rfl⟩
    · cases heq
    · rfl

theorem readsAs_parameters : ReadsAs .parameters Reader.parameters := by
  intro c names c' hclosed h
  obtain ⟨b, c1, hsees, h⟩ := bind_eq_ok.mp h
  obtain ⟨rfl, rfl⟩ := Reader.sees_eq_ok.mp hsees
  by_cases hkind : c1.current.kind = .sign .rightParen
  · rw [if_pos (beq_iff_eq.mpr hkind)] at h
    obtain ⟨rfl, rfl⟩ := pure_eq_ok.mp h
    refine ⟨[], Span.refl hclosed, .noParameters, ?_, fun _ => hkind⟩
    rw [hkind]
    decide
  · rw [if_neg (mt beq_iff_eq.mp hkind)] at h
    obtain ⟨first, c2, hfirst, h⟩ := bind_eq_ok.mp h
    obtain ⟨t, ht, rfl, hspan⟩ := span_of_name hclosed hfirst
    obtain ⟨rest, c3, hmany, h⟩ := bind_eq_ok.mp h
    obtain ⟨rfl, rfl⟩ := pure_eq_ok.mp h
    obtain ⟨ts, hspan1, hts, -, hstop⟩ :=
      derives_of_many readsItems_nextName trivial hspan.closed hmany
    refine ⟨_, hspan.trans hspan1, .someParameters ht hts, ?_, nofun⟩
    rcases Reader.led_eq_ok.mp hstop with ⟨-, n, -, heq⟩ | ⟨hcomma, -, -⟩
    · cases heq
    · exact hcomma

/-! ## Statements that are no declarations -/

section Bodies

variable (hopen : Span c [opening] c1) (hvalue : ReadsAs (.phrase .expression) value)
  (hbody : ReadsAs (.statement .body) body)

include hopen hvalue

theorem taken_print {what : Expectation} {e : Expr} (hkind : opening.kind = .word .print)
    (h : Reader.ended what value c1 = .ok e c') :
    Taken (.statement .body) c (.print opening.line e) c' := by
  obtain ⟨ts, closing, hspan, hts, hclosing⟩ := derives_of_ended hvalue hopen.closed h
  exact ⟨_, hopen.trans hspan, .print hkind hts hclosing, Bool.noConfusion⟩

theorem taken_return {what : Expectation} {e? : Option Expr} (hkind : opening.kind = .word .return_)
    (h : Reader.ended what (Reader.unlessAt (.sign .semicolon) value) c1 = .ok e? c') :
    Taken (.statement .body) c (.return_ opening.line e?) c' := by
  obtain ⟨c2, closing, hvalue?, hclose⟩ := ended_eq_ok h
  rcases Reader.unlessAt_eq_ok.mp hvalue? with ⟨-, e, he, rfl⟩ | ⟨-, rfl, rfl⟩
  · obtain ⟨ts, hspan, hts, -⟩ := hvalue _ _ _ hopen.closed he
    obtain ⟨hclosing, hspan1⟩ := span_of_expect hspan.closed Kind.noConfusion hclose
    refine ⟨opening :: (ts ++ [closing]), hopen.trans (hspan.trans hspan1), ?_, Bool.noConfusion⟩
    exact .returnValue hkind hts hclosing
  · obtain ⟨hclosing, hspan⟩ := span_of_expect hopen.closed Kind.noConfusion hclose
    exact ⟨_, hopen.trans hspan, .return_ hkind hclosing, Bool.noConfusion⟩

include hbody

theorem taken_if (hkind : opening.kind = .word .if_)
    (h : Reader.ifRest opening.line value body c1 = .ok s c') :
    Taken (.statement .body) c s c' := by
  obtain ⟨condition, c2, hcondition, h⟩ := bind_eq_ok.mp h
  obtain ⟨ts, hspan, hts, hends⟩ := hvalue _ _ _ hopen.closed hcondition
  obtain ⟨yes, c3, hyes, h⟩ := bind_eq_ok.mp h
  obtain ⟨us, hspan1, hus, hfollows⟩ := hbody _ _ _ hspan.closed hyes
  have hapart := apart_of_follows hspan1 hends
  obtain ⟨no?, c4, hno?, h⟩ := bind_eq_ok.mp h
  obtain ⟨rfl, rfl⟩ := pure_eq_ok.mp h
  rcases Reader.led_eq_ok.mp hno? with ⟨hbetween, no, hno, rfl⟩ | ⟨hother, rfl, rfl⟩
  · -- The else is taken here, so the branch before it could not take it.
    have htakes : takesElse yes = false := by
      cases htakes : takesElse yes with
      | false => rfl
      | true => exact absurd hbetween (hfollows htakes)
    have hspan2 := Span.next hspan1.closed (by simp [hbetween])
    obtain ⟨vs, hspan3, hvs, hfollows'⟩ := hbody _ _ _ hspan2.closed hno
    refine ⟨opening :: (ts ++ (us ++ c3.current :: vs)), ?_, ?_, hfollows'⟩
    · exact hopen.trans (hspan.trans (hspan1.trans (hspan2.trans hspan3)))
    · exact .ifElse hkind hts hus hapart htakes hbetween hvs
  · refine ⟨opening :: (ts ++ us), hopen.trans (hspan.trans hspan1), ?_, fun _ => hother⟩
    exact .if_ hkind hts hus hapart

theorem taken_while (hkind : opening.kind = .word .while_)
    (h : Reader.whileRest opening.line value body c1 = .ok s c') :
    Taken (.statement .body) c s c' := by
  obtain ⟨condition, c2, hcondition, h⟩ := bind_eq_ok.mp h
  obtain ⟨ts, hspan, hts, hends⟩ := hvalue _ _ _ hopen.closed hcondition
  obtain ⟨inner, c3, hinner, h⟩ := bind_eq_ok.mp h
  obtain ⟨rfl, rfl⟩ := pure_eq_ok.mp h
  obtain ⟨us, hspan1, hus, hfollows⟩ := hbody _ _ _ hspan.closed hinner
  refine ⟨opening :: (ts ++ us), hopen.trans (hspan.trans hspan1), ?_, hfollows⟩
  exact .while_ hkind hts hus (apart_of_follows hspan1 hends)

theorem taken_with (hkind : opening.kind = .word .with_)
    (h : Reader.withRest opening.line value body c1 = .ok s c') :
    Taken (.statement .body) c s c' := by
  obtain ⟨e, c2, he, h⟩ := bind_eq_ok.mp h
  obtain ⟨ts, hspan, hts, -⟩ := hvalue _ _ _ hopen.closed he
  obtain ⟨between, c3, hbetween, h⟩ := bind_eq_ok.mp h
  obtain ⟨hbetween', hspan1⟩ := span_of_expect hspan.closed Kind.noConfusion hbetween
  obtain ⟨n, c4, hn, h⟩ := bind_eq_ok.mp h
  obtain ⟨title, htitle, rfl, hspan2⟩ := span_of_name hspan1.closed hn
  obtain ⟨inner, c5, hinner, h⟩ := bind_eq_ok.mp h
  obtain ⟨rfl, rfl⟩ := pure_eq_ok.mp h
  obtain ⟨us, hspan3, hus, hfollows⟩ := hbody _ _ _ hspan2.closed hinner
  refine ⟨opening :: (ts ++ between :: title :: us), ?_, ?_, hfollows⟩
  · exact hopen.trans (hspan.trans (hspan1.trans (hspan2.trans hspan3)))
  · exact .with_ hkind hts hbetween' htitle hus

theorem taken_for (hkind : opening.kind = .word .for_)
    (h : Reader.forRest opening.line value body c1 = .ok s c') :
    Taken (.statement .body) c s c' := by
  obtain ⟨n, c2, hn, h⟩ := bind_eq_ok.mp h
  obtain ⟨title, htitle, rfl, hspan⟩ := span_of_name hopen.closed hn
  obtain ⟨between, c3, hbetween, h⟩ := bind_eq_ok.mp h
  obtain ⟨hbetween', hspan1⟩ := span_of_expect hspan.closed Kind.noConfusion hbetween
  obtain ⟨items, c4, hitems, h⟩ := bind_eq_ok.mp h
  obtain ⟨ts, hspan2, hts, hends⟩ := hvalue _ _ _ hspan1.closed hitems
  obtain ⟨inner, c5, hinner, h⟩ := bind_eq_ok.mp h
  obtain ⟨rfl, rfl⟩ := pure_eq_ok.mp h
  obtain ⟨us, hspan3, hus, hfollows⟩ := hbody _ _ _ hspan2.closed hinner
  refine ⟨opening :: title :: between :: (ts ++ us), ?_, ?_, hfollows⟩
  · exact hopen.trans (hspan.trans (hspan1.trans (hspan2.trans hspan3)))
  · exact .for_ hkind htitle hbetween' hts hus (apart_of_follows hspan3 hends)

end Bodies

/-! ## Declarations -/

theorem taken_funk {item : Reader Stmt} (hopen : Span c [opening] c1)
    (hitem : ReadsAs (.statement .list) item) (hkind : opening.kind = .word .funk)
    (h : Reader.functionRest opening.line item c1 = .ok s c') :
    Taken (.statement .list) c s c' := by
  obtain ⟨n, c2, hn, h⟩ := bind_eq_ok.mp h
  obtain ⟨title, htitle, rfl, hspan⟩ := span_of_name hopen.closed hn
  obtain ⟨before, c3, hbefore, h⟩ := bind_eq_ok.mp h
  obtain ⟨hbefore', hspan1⟩ := span_of_expect hspan.closed Kind.noConfusion hbefore
  obtain ⟨params, c4, hparams, h⟩ := bind_eq_ok.mp h
  obtain ⟨ts, hspan2, hts, -⟩ := readsAs_parameters _ _ _ hspan1.closed hparams
  obtain ⟨after, c5, hafter, h⟩ := bind_eq_ok.mp h
  obtain ⟨hafter', hspan3⟩ := span_of_expect hspan2.closed Kind.noConfusion hafter
  obtain ⟨brace, c6, hbrace, h⟩ := bind_eq_ok.mp h
  obtain ⟨hbrace', hspan4⟩ := span_of_expect hspan3.closed Kind.noConfusion hbrace
  obtain ⟨stmts, c7, hstmts, h⟩ := bind_eq_ok.mp h
  obtain ⟨rfl, rfl⟩ := pure_eq_ok.mp h
  obtain ⟨us, closing, hspan5, hus, hclosing⟩ := derives_of_block hitem hspan4.closed hstmts
  refine ⟨opening :: title :: before :: (ts ++ after :: brace :: (us ++ [closing])), ?_, ?_,
    Bool.noConfusion⟩
  · exact hopen.trans (hspan.trans (hspan1.trans (hspan2.trans (hspan3.trans
      (hspan4.trans hspan5)))))
  · exact .funk hkind htitle hbefore' hts hafter' hbrace' hus hclosing

theorem taken_make (hopen : Span c [opening] c1) (hvalue : ReadsAs (.phrase .expression) value)
    (hkind : opening.kind = .word .make)
    (h : Reader.makeRest opening.line value c1 = .ok s c') :
    Taken (.statement .list) c s c' := by
  obtain ⟨n, c2, hn, h⟩ := bind_eq_ok.mp h
  obtain ⟨title, htitle, rfl, hspan⟩ := span_of_name hopen.closed hn
  obtain ⟨start?, c3, hstart, h⟩ := bind_eq_ok.mp h
  obtain ⟨rfl, rfl⟩ := pure_eq_ok.mp h
  obtain ⟨c4, closing, hled, hclose⟩ := ended_eq_ok hstart
  rcases Reader.led_eq_ok.mp hled with ⟨hequals, e, he, rfl⟩ | ⟨-, rfl, rfl⟩
  · have hspan1 := Span.next hspan.closed (by simp [hequals])
    obtain ⟨ts, hspan2, hts, -⟩ := hvalue _ _ _ hspan1.closed he
    obtain ⟨hclosing, hspan3⟩ := span_of_expect hspan2.closed Kind.noConfusion hclose
    refine ⟨opening :: title :: c2.current :: (ts ++ [closing]), ?_, ?_, Bool.noConfusion⟩
    · exact hopen.trans (hspan.trans (hspan1.trans (hspan2.trans hspan3)))
    · exact .makeValue hkind htitle hequals hts hclosing
  · obtain ⟨hclosing, hspan1⟩ := span_of_expect hspan.closed Kind.noConfusion hclose
    exact ⟨_, hopen.trans (hspan.trans hspan1), .make hkind htitle hclosing, Bool.noConfusion⟩

/-! ## Statements -/

theorem taken_expression {what : Expectation} {e : Expr}
    (hvalue : ReadsAs (.phrase .expression) value) (hclosed : c.Closed)
    (hkind : c.current.kind ≠ .sign .leftBrace) (h : Reader.ended what value c = .ok e c') :
    Taken (.statement .body) c (.expression c.current.line e) c' := by
  obtain ⟨ts, closing, hspan, hts, hclosing⟩ := derives_of_ended hvalue hclosed h
  obtain ⟨first, rest, rfl, -⟩ := hts.begins trivial
  rw [hspan.current_eq] at hkind ⊢
  exact ⟨_, hspan, .value hts hkind hclosing, Bool.noConfusion⟩

theorem readsAs_expression (room : Nat) : ReadsAs (.phrase .expression) (Reader.expression room) :=
  readsAs_byRule room .expression

/-- A statement that is read where it may be a declaration, or where it may not, is derived. -/
theorem readsAs_statement :
    ∀ room place, ReadsAs (.statement place) (Reader.statement room place) := by
  refine Reader.statement.induct _ ?list ?body ?shallow
  case list =>
    intro room ihlist ihbody c s c' hclosed h
    unfold Reader.statement at h
    obtain ⟨first, c0, hpeek, h⟩ := bind_eq_ok.mp h
    obtain ⟨rfl, rfl⟩ := Reader.peek_eq_ok.mp hpeek
    have plain (h : Reader.statement (room + 2) .body c0 = .ok s c') :
        Taken (.statement .list) c0 s c' := by
      obtain ⟨ts, hspan, hts, hfollows⟩ := ihbody _ _ _ hclosed h
      exact ⟨ts, hspan, .body hts, hfollows⟩
    cases hkind : c0.current.kind with
    | word w =>
      rw [hkind] at h
      have hfinish : c0.current.kind ≠ .finish := by simp [hkind]
      cases w
      case funk =>
        obtain ⟨c1, hopen, h⟩ := span_of_next hclosed hfinish h
        exact taken_funk hopen ihlist hkind h
      case make =>
        obtain ⟨c1, hopen, h⟩ := span_of_next hclosed hfinish h
        exact taken_make hopen (readsAs_expression _) hkind h
      all_goals exact plain h
    | _ =>
      rw [hkind] at h
      exact plain h
  case body =>
    intro room ihlist ihbody c s c' hclosed h
    have hvalue := readsAs_expression room
    simp only [Reader.statement] at h
    obtain ⟨first, c0, hpeek, h⟩ := bind_eq_ok.mp h
    obtain ⟨rfl, rfl⟩ := Reader.peek_eq_ok.mp hpeek
    have plain (hbrace : c0.current.kind ≠ .sign .leftBrace)
        (h : (Reader.ended .statementEnd (Reader.expression room) >>= fun e =>
          pure (Stmt.expression c0.current.line e)) c0 = .ok s c') :
        Taken (.statement .body) c0 s c' := by
      obtain ⟨e, c1, he, h⟩ := bind_eq_ok.mp h
      obtain ⟨rfl, rfl⟩ := pure_eq_ok.mp h
      exact taken_expression hvalue hclosed hbrace he
    cases hkind : c0.current.kind with
    | word w =>
      rw [hkind] at h
      have hfinish : c0.current.kind ≠ .finish := by simp [hkind]
      cases w
      case print =>
        obtain ⟨c1, hopen, h⟩ := span_of_next hclosed hfinish h
        obtain ⟨e, c2, he, h⟩ := bind_eq_ok.mp h
        obtain ⟨rfl, rfl⟩ := pure_eq_ok.mp h
        exact taken_print hopen hvalue hkind he
      case if_ =>
        obtain ⟨c1, hopen, h⟩ := span_of_next hclosed hfinish h
        exact taken_if hopen hvalue ihbody hkind h
      case while_ =>
        obtain ⟨c1, hopen, h⟩ := span_of_next hclosed hfinish h
        exact taken_while hopen hvalue ihbody hkind h
      case return_ =>
        obtain ⟨c1, hopen, h⟩ := span_of_next hclosed hfinish h
        obtain ⟨e?, c2, he, h⟩ := bind_eq_ok.mp h
        obtain ⟨rfl, rfl⟩ := pure_eq_ok.mp h
        exact taken_return hopen hvalue hkind he
      case with_ =>
        obtain ⟨c1, hopen, h⟩ := span_of_next hclosed hfinish h
        exact taken_with hopen hvalue ihbody hkind h
      case for_ =>
        obtain ⟨c1, hopen, h⟩ := span_of_next hclosed hfinish h
        exact taken_for hopen hvalue ihbody hkind h
      all_goals exact plain (by simp [hkind]) h
    | sign sign =>
      rw [hkind] at h
      cases sign
      case leftBrace =>
        obtain ⟨c1, hopen, h⟩ := span_of_next hclosed (by simp [hkind]) h
        obtain ⟨stmts, c2, hstmts, h⟩ := bind_eq_ok.mp h
        obtain ⟨rfl, rfl⟩ := pure_eq_ok.mp h
        obtain ⟨ts, closing, hspan, hts, hclosing⟩ := derives_of_block ihlist hopen.closed hstmts
        exact ⟨_, hopen.trans hspan, .block hkind hts hclosing, Bool.noConfusion⟩
      all_goals exact plain (by simp [hkind]) h
    | _ =>
      rw [hkind] at h
      exact plain (by simp [hkind]) h
  case shallow =>
    intro room place h1 h2 c s c' _ h
    rw [Reader.statement.eq_3 room place h1 h2] at h
    cases h

/-- The statements of a program are derived, and after them is the end mark. -/
theorem derives_of_program {room : Nat} {program : List Stmt} (hclosed : c.Closed)
    (h : Reader.program room c = .ok program c') :
    ∃ ts, Span c ts c' ∧ Program ts program ∧ c'.current.kind = .finish := by
  obtain ⟨ts, hspan, hts, -, hstop⟩ :=
    derives_of_many (readsItems_unlessAt (readsAs_statement room .list) .finish) trivial hclosed h
  refine ⟨ts, hspan, hts, ?_⟩
  rcases Reader.unlessAt_eq_ok.mp hstop with ⟨-, s, -, heq⟩ | ⟨hkind, -, -⟩
  · cases heq
  · exact hkind

end Grammar
end FunkLang
