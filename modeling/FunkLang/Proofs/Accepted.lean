-- What is derived is read, first for expressions. Where the parts of a phrase
-- are each read as they are derived, so is the phrase, as long as the token
-- after it does not let it go on.
import FunkLang.Proofs.Derived
import FunkLang.Proofs.Settling

namespace FunkLang
namespace Grammar

open Reader (Rule Place Extension Row Settles)

variable {c c1 c2 c' : Cursor} {kind : Kind} {what : Expectation} {t opening closing : Token}

/-! ## Single tokens -/

theorem next_of_span (h : Span c [t] c') (hkind : t.kind ≠ .finish) :
    Reader.next c = .ok t c' :=
  Reader.next_eq_ok.mpr ⟨h.current_eq.symm, h.eq_advance hkind⟩

theorem expect_of_span (h : Span c [t] c') (ht : t.kind = kind) (hkind : kind ≠ .finish) :
    Reader.expect kind what c = .ok t c' := by
  have hcurrent := h.current_eq
  rw [← ht] at hkind ⊢
  exact Reader.expect_eq_ok.mpr ⟨congrArg _ hcurrent, hcurrent.symm, h.eq_advance hkind⟩

theorem name_of_span (h : Span c [t] c') (ht : t.kind = .atom .name) :
    Reader.name what c = .ok (named t) c' := by
  have hcurrent := h.current_eq
  refine Reader.name_eq_ok.mpr ⟨?_, ?_, h.eq_advance (by simp [ht])⟩
  · rw [hcurrent, ht]
  · rw [hcurrent]
    rfl

section Optional

variable {α : Type} {item : Nat → Reader α} {a : α}

theorem settles_led (h : Span c [t] c1) (ht : t.kind = kind) (hkind : kind ≠ .finish)
    (hitem : Settles (fun room => item room c1) a c') :
    Settles (fun room => Reader.led kind (item room) c) (some a) c' := by
  have hskip : Reader.skip kind c = .ok true c1 := by
    rw [← ht] at hkind ⊢
    exact Reader.skip_eq_ok.mpr (Or.inl ⟨congrArg _ h.current_eq, rfl, h.eq_advance hkind⟩)
  exact .after hskip (hitem.bind (.of_ok rfl))

theorem settles_led_none (hkind : c.current.kind ≠ kind) :
    Settles (fun room => Reader.led kind (item room) c) none c := by
  have hskip : Reader.skip kind c = .ok false c :=
    Reader.skip_eq_ok.mpr (Or.inr ⟨hkind, rfl, rfl⟩)
  exact .after hskip (.of_ok rfl)

theorem sees_of_ne (hkind : c.current.kind ≠ kind) : Reader.sees kind c = .ok false c :=
  Reader.sees_eq_ok.mpr ⟨by simp [hkind], rfl⟩

theorem sees_of_eq (hkind : c.current.kind = kind) : Reader.sees kind c = .ok true c :=
  Reader.sees_eq_ok.mpr ⟨by simp [hkind], rfl⟩

theorem settles_unlessAt (hkind : c.current.kind ≠ kind)
    (hitem : Settles (fun room => item room c) a c') :
    Settles (fun room => Reader.unlessAt kind (item room) c) (some a) c' :=
  .after (sees_of_ne hkind) (hitem.bind (.of_ok rfl))

theorem settles_unlessAt_none (hkind : c.current.kind = kind) :
    Settles (fun room => Reader.unlessAt kind (item room) c) none c :=
  .after (sees_of_eq hkind) (.of_ok rfl)

end Optional

/-! ## Lists with commas -/

/-- What stands between an item of a list and the next one: a comma, or nothing at the end. -/
def Separates (close : Sign) (c c' : Cursor) : Prop :=
  c.current.kind = .sign close ∧ c' = c ∨ ∃ comma : Token, comma.kind = .sign .comma ∧ Span c [comma] c'

theorem settles_withComma {α : Type} {item : Nat → Reader α} {a : α} {close : Sign}
    (hclose : closes close) (hitem : Settles (fun room => item room c) a c1)
    (hcomma : Separates close c1 c') :
    Settles (fun room => Reader.withComma close what (item room) c) a c' := by
  refine hitem.bind ?_
  rcases hcomma with ⟨hkind, rfl⟩ | ⟨comma, hcomma, hspan⟩
  · exact .after (sees_of_eq hkind) (.of_ok rfl)
  · have hne : c1.current.kind ≠ .sign close := by
      rw [hspan.current_eq, hcomma]
      rintro ⟨⟩
      cases hclose
    exact .after (sees_of_ne hne) (.after (expect_of_span hspan hcomma Kind.noConfusion)
      (.of_ok rfl))

/-- A list is read to its closing sign, if none of its items begins with one. -/
theorem settles_separated {α : Type} {item : Nat → Reader α} {all : List α} {close : Sign}
    {link : Cursor → α → Cursor → Prop} (hclose : closes close)
    (hlink : ∀ c a c', link c a c' → c.current.kind ≠ .sign close ∧
      ∃ c1, Settles (fun room => item room c) a c1 ∧ Separates close c1 c')
    (hshorter : ∀ c a c', link c a c' → c'.tokens.length < c.tokens.length)
    (h : Row link c all c') (hend : c'.current.kind = .sign close) :
    Settles (fun room => Reader.separated close what (item room) c) all c' := by
  refine Reader.settles_many (fun c a c' h => ?_) hshorter h (settles_unlessAt_none hend)
  obtain ⟨hkind, c1, hitem, hcomma⟩ := hlink c a c' h
  exact settles_unlessAt hkind (settles_withComma hclose hitem hcomma)

/-! ## Expressions -/

section Expressions

variable {e : Expr} {rule operand : Rule}

/-- A rule takes one of the room for nesting. -/
theorem settles_byRule {reads : Nat → Reader Expr}
    (h : ∀ room, Reader.byRule (room + 1) rule = reads room)
    (hreads : Settles (fun room => reads room c) e c') :
    Settles (fun room => Reader.byRule room rule c) e c' := by
  refine hreads.shift 1 (fun room hroom => ?_) fun room => congrFun (h room) c
  cases Nat.lt_one_iff.mp hroom
  exact ⟨c.current, c, rfl⟩

theorem settles_entry {key colon : Token} (hkey : Span c [key] c1) (hname : key.kind = .atom .name)
    (hcolon : Span c1 [colon] c2) (hkind : colon.kind = .sign .colon)
    (hvalue : Settles (fun room => Reader.byRule room .expression c2) e c') :
    Settles (fun room => Reader.entry (Reader.byRule room .expression) c) (named key, e) c' := by
  refine .after (name_of_span hkey hname) ?_
  exact .after (expect_of_span hcolon hkind Kind.noConfusion) (hvalue.bind (.of_ok rfl))

/-- What stands in brackets, after the opening one. -/
theorem settles_brackets {α β : Type} {item : Nat → Reader α} {a : α} {f : α → β} {close : Sign}
    (hitem : Settles (fun room => item room c) a c1) (hclose : Span c1 [closing] c')
    (hkind : closing.kind = .sign close) :
    Settles (fun room => (do
      let a ← item room
      let _ ← Reader.expect (.sign close) what
      return f a) c) (f a) c' :=
  hitem.bind (.after (expect_of_span hclose hkind Kind.noConfusion) (.of_ok rfl))

theorem settles_primary (h : Settles (fun room => Reader.primary (Reader.byRule room .element)
    (Reader.byRule room .expression) c) e c') :
    Settles (fun room => Reader.byRule room .primary c) e c' := settles_byRule (fun _ => rfl) h

theorem settles_atom {a : Atom} (h : Span c [t] c') (hkind : t.kind = .atom a) :
    Settles (fun room => Reader.byRule room .primary c) (.atom (t.as a)) c' := by
  apply settles_primary
  unfold Reader.primary
  refine .after Reader.peek_ok ?_
  rw [h.current_eq, hkind]
  exact .after (next_of_span h (by simp [hkind])) (.of_ok rfl)

theorem settles_list {elements : List Expr} (hopen : Span c [opening] c1)
    (hkind : opening.kind = .sign .leftBracket)
    (helements : Settles (fun room => Reader.separated .rightBracket .elementSeparator
      (Reader.byRule room .element) c1) elements c2)
    (hclose : Span c2 [closing] c') (hclosing : closing.kind = .sign .rightBracket) :
    Settles (fun room => Reader.byRule room .primary c) (.list opening.line elements) c' := by
  apply settles_primary
  unfold Reader.primary
  refine .after Reader.peek_ok ?_
  rw [hopen.current_eq, hkind]
  refine .after (next_of_span hopen (by simp [hkind])) ?_
  exact settles_brackets helements hclose hclosing

theorem settles_record {entries : List (Name × Expr)} (hopen : Span c [opening] c1)
    (hkind : opening.kind = .sign .leftBrace)
    (hentries : Settles (fun room => Reader.separated .rightBrace .recordSeparator
      (Reader.entry (Reader.byRule room .expression)) c1) entries c2)
    (hclose : Span c2 [closing] c') (hclosing : closing.kind = .sign .rightBrace) :
    Settles (fun room => Reader.byRule room .primary c) (.record opening.line entries) c' := by
  apply settles_primary
  unfold Reader.primary
  refine .after Reader.peek_ok ?_
  rw [hopen.current_eq, hkind]
  refine .after (next_of_span hopen (by simp [hkind])) ?_
  exact settles_brackets hentries hclose hclosing

theorem settles_group (hopen : Span c [opening] c1) (hkind : opening.kind = .sign .leftParen)
    (hgrouped : Settles (fun room => Reader.byRule room .expression c1) e c2)
    (hclose : Span c2 [closing] c') (hclosing : closing.kind = .sign .rightParen) :
    Settles (fun room => Reader.byRule room .primary c) e c' := by
  apply settles_primary
  unfold Reader.primary
  refine .after Reader.peek_ok ?_
  rw [hopen.current_eq, hkind]
  refine .after (next_of_span hopen (by simp [hkind])) ?_
  exact settles_brackets hgrouped hclose hclosing

/-! ## Extensions -/

theorem settles_call {arguments : List Expr} (hopen : Span c [opening] c1)
    (hkind : opening.kind = .sign .leftParen)
    (harguments : Settles (fun room => Reader.separated .rightParen .argumentSeparator
      (Reader.byRule room .argument) c1) arguments c2)
    (hclose : Span c2 [closing] c') (hclosing : closing.kind = .sign .rightParen) :
    Settles (fun room => extension? room .suffixed c) (some (.call arguments)) c' := by
  unfold extension? Reader.suffix?
  refine .after Reader.peek_ok ?_
  rw [hopen.current_eq, hkind]
  refine .after (next_of_span hopen (by simp [hkind])) ?_
  exact settles_brackets harguments hclose hclosing

theorem settles_index (hopen : Span c [opening] c1) (hkind : opening.kind = .sign .leftBracket)
    (hplace : Settles (fun room => Reader.byRule room .expression c1) e c2)
    (hclose : Span c2 [closing] c') (hclosing : closing.kind = .sign .rightBracket) :
    Settles (fun room => extension? room .suffixed c) (some (.index e)) c' := by
  unfold extension? Reader.suffix?
  refine .after Reader.peek_ok ?_
  rw [hopen.current_eq, hkind]
  refine .after (next_of_span hopen (by simp [hkind])) ?_
  exact settles_brackets hplace hclose hclosing

theorem settles_field {key : Token} (hopen : Span c [opening] c1)
    (hkind : opening.kind = .sign .dot) (hkey : Span c1 [key] c') (hname : key.kind = .atom .name) :
    Settles (fun room => extension? room .suffixed c) (some (.field (named key))) c' := by
  unfold extension? Reader.suffix?
  refine .after Reader.peek_ok ?_
  rw [hopen.current_eq, hkind]
  refine .after (next_of_span hopen (by simp [hkind])) ?_
  exact .after (name_of_span hkey hname) (.of_ok rfl)

theorem settles_choice {condition no : Expr} {c3 : Cursor} (hopen : Span c [opening] c1)
    (hkind : opening.kind = .word .if_)
    (hcondition : Settles (fun room => Reader.byRule room .disjunction c1) condition c2)
    (hbetween : Span c2 [t] c3) (ht : t.kind = .word .else_)
    (hno : Settles (fun room => Reader.byRule room .disjunction c3) no c') :
    Settles (fun room => extension? room .choice c) (some (.choice condition no)) c' := by
  refine settles_led hopen hkind Kind.noConfusion (hcondition.bind ?_)
  exact .after (expect_of_span hbetween ht Kind.noConfusion) (hno.bind (.of_ok rfl))

theorem settles_logical {op : LogicalOp} (hoperand : operand? (logicalRule op) = some operand)
    (hopen : Span c [t] c1) (ht : t.kind = .word (Reader.word op))
    (hright : Settles (fun room => Reader.byRule room operand c1) e c') :
    Settles (fun room => extension? room (logicalRule op) c) (some (.logical op e)) c' := by
  simp only [extension?_logical hoperand]
  exact settles_led hopen ht Kind.noConfusion (hright.bind (.of_ok rfl))

theorem settles_binary {tier : Tier} {op : BinaryOp}
    (hoperand : operand? (tierRule tier) = some operand) (hopen : Span c [t] c1)
    (ht : Reader.tierOp? tier t.kind = some op)
    (hright : Settles (fun room => Reader.byRule room operand c1) e c') :
    Settles (fun room => extension? room (tierRule tier) c) (some (.binary (t.as op) e)) c' := by
  simp only [extension?_binary hoperand]
  have htake : Reader.take? (Reader.tierOp? tier) c = .ok (some (t.as op)) c1 := by
    refine Reader.take?_eq_ok.mpr (Or.inl ⟨op, ?_, ?_, ?_⟩)
    · rw [hopen.current_eq, ht]
    · rw [hopen.current_eq]
    · exact hopen.eq_advance (ne_finish_of_tierOp? ht)
  exact .after htake (hright.bind (.of_ok rfl))

theorem suffix?_eq_none {argument inner : Reader Expr}
    (hends : extends? c.current.kind ≠ some .suffixed) :
    Reader.suffix? argument inner c = .ok none c := by
  unfold Reader.suffix?
  refine bind_eq_ok.mpr ⟨c.current, c, Reader.peek_ok, ?_⟩
  cases hkind : c.current.kind with
  | sign sign =>
    rw [hkind, Ne, extends?_eq_suffixed] at hends
    cases sign <;> first | rfl | simp at hends
  | _ => rfl

/-- Nothing extends a phrase where no token extends its rule. -/
theorem extension?_eq_none (hoperand : operand? rule = some operand)
    (hends : extends? c.current.kind ≠ some rule) (room : Nat) :
    extension? room rule c = .ok none c := by
  rcases rule_cases hoperand with rfl | ⟨op, rfl⟩ | ⟨tier, rfl⟩ | rfl
  · refine Reader.led_eq_ok.mpr (Or.inr ⟨fun hkind => hends ?_, rfl, rfl⟩)
    exact (extends?_iff rfl).mpr hkind
  · rw [extension?_logical hoperand]
    refine Reader.led_eq_ok.mpr (Or.inr ⟨fun hkind => hends ?_, rfl, rfl⟩)
    rw [hkind]
    exact extends?_word op
  · rw [extension?_binary hoperand]
    have hnone : Reader.tierOp? tier c.current.kind = none := by
      cases hop : Reader.tierOp? tier c.current.kind with
      | none => rfl
      | some op => exact absurd (extends?_eq_tier.mpr ⟨op, hop⟩) hends
    refine bind_eq_ok.mpr ⟨none, c, ?_, rfl⟩
    exact Reader.take?_eq_ok.mpr (Or.inr ⟨hnone, rfl, rfl⟩)
  · exact suffix?_eq_none hends

/-! ## The ladder of rules -/

theorem settles_extended {first : Expr} {extensions : List Extension}
    {link : Cursor → Extension → Cursor → Prop} (hoperand : operand? rule = some operand)
    (hfirst : Settles (fun room => Reader.byRule room operand c) first c1)
    (hlink : ∀ c x c', link c x c' → Settles (fun room => extension? room rule c) (some x) c')
    (hshorter : ∀ c x c', link c x c' → c'.tokens.length < c.tokens.length)
    (h : Row link c1 extensions c') (hends : extends? c'.current.kind ≠ some rule) :
    Settles (fun room => Reader.byRule room rule c)
      (extensions.foldl Extension.apply first) c' := by
  refine settles_byRule (byRule_extended hoperand) (hfirst.bind ?_)
  have hstop : Settles (fun room => extension? room rule c') none c' := by
    simp only [extension?_eq_none hoperand hends]
    exact .of_ok rfl
  exact (Reader.settles_many hlink hshorter h hstop).bind (.of_ok rfl)

/-- A phrase that nothing extends is one of the looser rule too. -/
theorem settles_operand (hoperand : operand? rule = some operand)
    (h : Settles (fun room => Reader.byRule room operand c) e c')
    (hends : extends? c'.current.kind ≠ some rule) :
    Settles (fun room => Reader.byRule room rule c) e c' := by
  have hrow : Row (fun _ (_ : Extension) _ => False) c' [] c' := .nil
  exact settles_extended hoperand h (fun _ _ _ => False.elim) (fun _ _ _ => False.elim) hrow hends

theorem settles_unary {op : UnaryOp} (hopen : Span c [t] c1)
    (ht : Reader.unaryOp? t.kind = some op)
    (hoperand : Settles (fun room => Reader.byRule room .unary c1) e c') :
    Settles (fun room => Reader.byRule room .unary c) (.unary (t.as op) e) c' := by
  have hkind : t.kind ≠ .finish := by
    intro heq
    rw [heq] at ht
    cases ht
  have htake : Reader.take? Reader.unaryOp? c = .ok (some (t.as op)) c1 := by
    refine Reader.take?_eq_ok.mpr (Or.inl ⟨op, ?_, ?_, ?_⟩)
    · rw [hopen.current_eq, ht]
    · rw [hopen.current_eq]
    · exact hopen.eq_advance hkind
  apply settles_byRule fun _ => rfl
  exact .after htake (hoperand.bind (.of_ok rfl))

theorem settles_suffixed (hkind : Reader.unaryOp? c.current.kind = none)
    (h : Settles (fun room => Reader.byRule room .suffixed c) e c') :
    Settles (fun room => Reader.byRule room .unary c) e c' := by
  have htake : Reader.take? Reader.unaryOp? c = .ok none c :=
    Reader.take?_eq_ok.mpr (Or.inr ⟨hkind, rfl, rfl⟩)
  apply settles_byRule fun _ => rfl
  exact .after htake h

theorem settles_assignment {target value : Expr} {equals : Token}
    (htarget : Settles (fun room => Reader.byRule room .choice c) target c1)
    (hequals : Span c1 [equals] c2) (hkind : equals.kind = .sign .equal)
    (hvalue : Settles (fun room => Reader.byRule room .assignment c2) value c')
    (hassign : assignment? value target = some e) :
    Settles (fun room => Reader.byRule room .assignment c) e c' := by
  apply settles_byRule fun _ => rfl
  refine htarget.bind (.after (sees_of_eq (hequals.current_eq ▸ hkind)) ?_)
  refine .after (next_of_span hequals (by simp [hkind])) (hvalue.bind ?_)
  rw [assignTo_eq, hassign]
  exact .of_ok rfl

theorem settles_unassigned (h : Settles (fun room => Reader.byRule room .choice c) e c')
    (hends : extends? c'.current.kind = none) :
    Settles (fun room => Reader.byRule room .assignment c) e c' := by
  have hkind : c'.current.kind ≠ .sign .equal := by
    intro heq
    rw [heq] at hends
    cases hends
  apply settles_byRule fun _ => rfl
  exact h.bind (.after (sees_of_ne hkind) (.of_ok rfl))

end Expressions

end Grammar
end FunkLang
