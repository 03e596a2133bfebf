-- What is written by the productions is derived, if what joins an expression
-- does not begin the statement right after it. The productions leave open
-- which if an else belongs to; there is always a way to read it.
import FunkLang.Proofs.Productions
import FunkLang.Proofs.ReadDerivations

namespace FunkLang
namespace Grammar

open Reader (Rule Place Extension)

variable {s item : Symbol} {ts us vs : List Token} {t opening closing : Token}

/-- There is a tree of the tokens. -/
def Derivable (s : Symbol) (ts : List Token) : Prop := ∃ a, Derives s ts a

theorem Derives.derivable {a : s.Tree} (h : Derives s ts a) : Derivable s ts := ⟨a, h⟩

/-! ## Items in a row -/

theorem many_of_pieces {pieces : List (List Token)}
    (h : ∀ piece ∈ pieces, Derivable item piece) : Derivable (.many item) pieces.flatten := by
  induction pieces with
  | nil => exact ⟨[], .none⟩
  | cons piece rest ih =>
    obtain ⟨a, ha⟩ := h piece (by simp)
    obtain ⟨all, hall⟩ := ih fun piece hpiece => h piece (by simp [hpiece])
    exact ⟨a :: all, .more ha hall⟩

theorem extended_of_pieces {rule operand : Rule} (h : operand? rule = some operand)
    {pieces : List (List Token)} (hfirst : Derivable (.phrase operand) ts)
    (hpieces : ∀ piece ∈ pieces, Derivable (.extension rule) piece) :
    Derivable (.phrase rule) (ts ++ pieces.flatten) := by
  obtain ⟨e, he⟩ := hfirst
  obtain ⟨all, hall⟩ := many_of_pieces hpieces
  exact ⟨_, .extended h he hall⟩

/-- What stands between two items, before the second one. -/
def Led (item : Symbol) (piece : List Token) : Prop :=
  ∃ (comma : Token) (ts : List Token), piece = comma :: ts ∧ comma.kind = .sign .comma ∧
    Derivable item ts

theorem separated_of_pieces {pieces : List (List Token)} {tail : List Token}
    (hfirst : Derivable item ts) (hpieces : ∀ piece ∈ pieces, Led item piece)
    (htail : tail = [] ∨ ∃ comma : Token, comma.kind = .sign .comma ∧ tail = [comma]) :
    Derivable (.separated item) (ts ++ pieces.flatten ++ tail) := by
  obtain ⟨a, ha⟩ := hfirst
  induction pieces generalizing ts a with
  | nil =>
    rcases htail with rfl | ⟨comma, hcomma, rfl⟩
    · simpa using (Derives.last ha).derivable
    · simpa using (Derives.before ha hcomma .empty).derivable
  | cons piece rest ih =>
    obtain ⟨comma, us, rfl, hcomma, b, hb⟩ := hpieces piece (by simp)
    obtain ⟨all, hall⟩ := ih (fun piece hpiece => hpieces piece (by simp [hpiece])) b hb
    simpa using (Derives.before ha hcomma hall).derivable

/-! ## An else after a statement -/

/-- Could an else that comes next belong to what the symbol is read as? -/
def OpenIf : (s : Symbol) → s.Tree → Prop
  | .statement _, s => takesElse s
  | _, _ => False

/-- An else after a statement with an open if belongs to the innermost one. -/
theorem Derives.withElse {a : s.Tree} (h : Derives s ts a) (hopen : OpenIf s a) {between : Token}
    {no : Stmt} (hbetween : between.kind = .word .else_)
    (hno : Derives (.statement .body) us no) : Derivable s (ts ++ between :: us) := by
  have apart {vs : List Token} {yes : Stmt} (hyes : Derives (.statement .body) vs yes)
      (h : Apart vs) : Apart (vs ++ between :: us) := by
    obtain ⟨t, rest, rfl, -⟩ := hyes.begins trivial
    exact h
  induction h with
  | @if_ opening ts vs condition yes hkind hcondition hyes hapart _ ih =>
    by_cases htakes : takesElse yes
    · obtain ⟨s, hs⟩ := ih htakes
      simpa using (Derives.if_ hkind hcondition hs (apart hyes hapart)).derivable
    · have hclosed : takesElse yes = false := by simpa using htakes
      simpa using (Derives.ifElse hkind hcondition hyes hapart hclosed hbetween hno).derivable
  | ifElse hkind hcondition hyes hapart hclosed hbetween _ _ _ ih =>
    obtain ⟨s, hs⟩ := ih hopen
    simpa using (Derives.ifElse hkind hcondition hyes hapart hclosed hbetween hs).derivable
  | while_ hkind hcondition hbody hapart _ ih =>
    obtain ⟨s, hs⟩ := ih hopen
    simpa using (Derives.while_ hkind hcondition hs (apart hbody hapart)).derivable
  | with_ hkind hvalue has hname _ _ ih =>
    obtain ⟨s, hs⟩ := ih hopen
    simpa using (Derives.with_ hkind hvalue has hname hs).derivable
  | for_ hkind hname hin hitems hbody hapart _ ih =>
    obtain ⟨s, hs⟩ := ih hopen
    simpa using (Derives.for_ hkind hname hin hitems hs (apart hbody hapart)).derivable
  | body _ ih =>
    obtain ⟨s, hs⟩ := ih hopen
    exact ⟨_, .body hs⟩
  | _ => cases hopen

theorem ne_finish_of_unaryOp? {kind : Kind} {op : UnaryOp} (h : Reader.unaryOp? kind = some op) :
    kind ≠ .finish := by
  rintro rfl
  cases h

/-- No token of a derivation is an end mark. -/
theorem Derives.ne_finish {a : s.Tree} (h : Derives s ts a) : ∀ t ∈ ts, t.kind ≠ .finish := by
  induction h with
  | unary hop _ ih => simpa [ne_finish_of_unaryOp? hop] using ih
  | binary hop _ _ _ ih => simpa [ne_finish_of_tierOp? hop] using ih
  | _ => simp_all [or_imp, forall_and]

/-! ## Phrases -/

/-- What the tokens of a phrase are derived from. -/
def Phrase.symbol : Phrase → Symbol
  | program => .many (.statement .list)
  | declaration | funk | make => .statement .list
  | statement | print | block | if_ | while_ | return_ | with_ | for_ | bare => .statement .body
  | expression => .phrase .expression
  | assignment => .phrase .assignment
  | choice => .phrase .choice
  | target | or => .phrase .disjunction
  | and => .phrase .conjunction
  | equality => .phrase .equality
  | comparison => .phrase .comparison
  | term => .phrase .term
  | factor => .phrase .factor
  | unary => .phrase .unary
  | call => .phrase .suffixed
  | arguments => .separated (.phrase .argument)
  | primary => .phrase .primary

/-- The tokens are statements between braces. -/
def Braced (ts : List Token) : Prop :=
  ∃ (opening closing : Token) (us : List Token), ts = opening :: (us ++ [closing]) ∧
    opening.kind = .sign .leftBrace ∧ closing.kind = .sign .rightBrace ∧
    Derivable (.many (.statement .list)) us

/-- The tokens are what can be assigned to, however often in parentheses. -/
def Assignable (ts : List Token) : Prop :=
  ∃ target, Derives (.phrase .disjunction) ts target ∧
    ∀ value, ∃ e, assignment? value target = some e

/-- What is known of the tokens of a phrase. -/
def Phrase.Derived : Phrase → List Token → Prop
  | program, ts => ∃ us last, ts = us ++ [last] ∧ last.kind = .finish ∧
      Derivable (.many (.statement .list)) us
  | block, ts => Braced ts
  | target, ts => Assignable ts
  | p, ts => Derivable p.symbol ts

section Steps

variable {ts : List Token}

theorem derivable_block (h : Braced ts) : Derivable (.statement .body) ts := by
  obtain ⟨opening, closing, us, rfl, hopening, hclosing, body, hbody⟩ := h
  exact (Derives.block hopening hbody hclosing).derivable

/-- What is called, indexed or asked for a field. -/
theorem derivable_suffix (h : Form.suffix.Means Phrase.Derived ts) :
    Derivable (.extension .suffixed) ts := by
  rcases h with ⟨_, _, rfl, ⟨_, us, rfl, ⟨t, ht, rfl⟩, hus⟩, ⟨t', ht', rfl⟩⟩ |
    ⟨_, _, rfl, ⟨_, us, rfl, ⟨t, ht, rfl⟩, e, he⟩, ⟨t', ht', rfl⟩⟩ |
    ⟨_, _, rfl, ⟨t, ht, rfl⟩, ⟨t', ht', rfl⟩⟩
  · rcases hus with rfl | ⟨all, hall⟩
    · exact (Derives.call ht .empty ht').derivable
    · exact (Derives.call ht hall ht').derivable
  · exact (Derives.index ht he ht').derivable
  · exact (Derives.field ht ht').derivable

theorem derivable_call (h : (Phrase.call.form joins).Means Phrase.Derived ts) :
    Derivable (.phrase .suffixed) ts := by
  obtain ⟨us, _, rfl, hfirst, pieces, rfl, hpieces⟩ := h
  refine extended_of_pieces rfl hfirst fun piece hpiece => ?_
  exact derivable_suffix (hpieces piece hpiece)

theorem disjunction_of_suffixed {e : Expr} (h : Derives (.phrase .suffixed) ts e) :
    Derives (.phrase .disjunction) ts e := by
  have hchoice : operand? .choice = some .disjunction := rfl
  exact derives_of_suffixed h hchoice nofun

/-- An index or a field of what is called, indexed or asked for a field can be assigned to, and
so can a name and what stands in parentheses. -/
theorem assignable_target (h : (Phrase.target.form joins).Means Phrase.Derived ts) :
    Assignable ts := by
  rcases h with (⟨t, ht, rfl⟩ | ⟨us, vs, rfl, hcall, hplace⟩) |
    ⟨_, _, rfl, ⟨_, us, rfl, ⟨t, ht, rfl⟩, target, htarget, hassignment⟩, ⟨t', ht', rfl⟩⟩
  · have hname : Derives (.phrase .suffixed) [t] (.atom (t.as .name)) :=
      derives_operand rfl (.atom ht)
    exact ⟨_, disjunction_of_suffixed hname, fun value => ⟨_, rfl⟩⟩
  · obtain ⟨e, he⟩ := derivable_call hcall
    rcases hplace with ⟨_, _, rfl, ⟨_, us, rfl, ⟨t, ht, rfl⟩, place, hplace⟩, ⟨t', ht', rfl⟩⟩ |
      ⟨_, _, rfl, ⟨t, ht, rfl⟩, ⟨t', ht', rfl⟩⟩
    · have hindex := derives_suffix he (.index ht hplace ht')
      exact ⟨_, disjunction_of_suffixed hindex, fun value => ⟨_, rfl⟩⟩
    · have hfield := derives_suffix he (.field ht ht')
      exact ⟨_, disjunction_of_suffixed hfield, fun value => ⟨_, rfl⟩⟩
  · have hchoice : Derives (.phrase .choice) us target := derives_operand rfl htarget
    have hgroup : Derives (.phrase .suffixed) (t :: (us ++ [t'])) target :=
      derives_operand rfl (.group ht (.expression (.unassigned hchoice)) ht')
    exact ⟨_, disjunction_of_suffixed hgroup, hassignment⟩

/-- Operators of one rule between operands of the next. -/
theorem derivable_alternating {operator : Form} {p : Phrase} {rule operand : Rule}
    (hoperand : operand? rule = some operand)
    (hp : ∀ us, p.Derived us → Derivable (.phrase operand) us)
    (hoperator : ∀ us, operator.Means Phrase.Derived us → ∃ t : Token, us = [t] ∧
      ∀ vs right, Derives (.phrase operand) vs right → Derivable (.extension rule) (t :: vs))
    (h : (Form.alternating operator (.phrase p)).Means Phrase.Derived ts) :
    Derivable (.phrase rule) ts := by
  obtain ⟨us, _, rfl, hfirst, pieces, rfl, hpieces⟩ := h
  refine extended_of_pieces hoperand (hp us hfirst) fun piece hpiece => ?_
  obtain ⟨_, vs, rfl, hoperator', hright⟩ := hpieces piece hpiece
  obtain ⟨t, rfl, hextends⟩ := hoperator _ hoperator'
  obtain ⟨right, hright⟩ := hp vs hright
  exact hextends vs right hright

theorem derivable_logical (op : LogicalOp) {p : Phrase} {operand : Rule}
    (hoperand : operand? (logicalRule op) = some operand)
    (hp : ∀ us, p.Derived us → Derivable (.phrase operand) us)
    (h : (Form.alternating (.word (Reader.word op)) (.phrase p)).Means Phrase.Derived ts) :
    Derivable (.phrase (logicalRule op)) ts := by
  refine derivable_alternating hoperand hp ?_ h
  rintro _ ⟨t, ht, rfl⟩
  exact ⟨t, rfl, fun vs right hright => (Derives.logical ht rfl hoperand hright).derivable⟩

/-- A token is an operator of a tier just if it is written as one. -/
theorem means_operator {tier : Tier} {of : Phrase → List Token → Prop} :
    (Form.operator tier).Means of ts ↔
      ∃ (t : Token) (op : BinaryOp), ts = [t] ∧ Reader.tierOp? tier t.kind = some op := by
  constructor
  · intro h
    have hsign {sign : Sign} {op : BinaryOp} (hop : Reader.tierOp? tier (.sign sign) = some op)
        (h : (Form.sign sign).Means of ts) :
        ∃ (t : Token) (op : BinaryOp), ts = [t] ∧ Reader.tierOp? tier t.kind = some op := by
      obtain ⟨t, ht, rfl⟩ := h
      exact ⟨t, op, rfl, ht ▸ hop⟩
    cases tier with
    | comparison => rcases h with ((h | h) | h) | h <;> exact hsign rfl h
    | _ => rcases h with h | h <;> exact hsign rfl h
  · rintro ⟨⟨kind, text, line⟩, op, rfl, hop⟩
    have hsign {sign : Sign} (hkind : kind = .sign sign) :
        (Form.sign sign).Means of [⟨kind, text, line⟩] := ⟨_, hkind, rfl⟩
    cases kind with
    | sign sign =>
      cases tier <;> cases sign <;> cases hop
      all_goals simp [Form.operator, hsign]
    | _ => cases tier <;> cases hop

theorem derivable_binary (tier : Tier) {p : Phrase} {operand : Rule}
    (hoperand : operand? (tierRule tier) = some operand)
    (hp : ∀ us, p.Derived us → Derivable (.phrase operand) us)
    (h : (Form.alternating (.operator tier) (.phrase p)).Means Phrase.Derived ts) :
    Derivable (.phrase (tierRule tier)) ts := by
  refine derivable_alternating hoperand hp (fun us hus => ?_) h
  obtain ⟨t, op, rfl, hop⟩ := means_operator.mp hus
  exact ⟨t, rfl, fun vs right hright => (Derives.binary hop rfl hoperand hright).derivable⟩

theorem derivable_listed {form : Form} {item : Symbol}
    (hform : ∀ us, form.Means Phrase.Derived us → Derivable item us)
    (h : form.listed.Means Phrase.Derived ts) : Derivable (.separated item) ts := by
  obtain ⟨_, tail, rfl, ⟨us, _, rfl, hfirst, pieces, rfl, hpieces⟩, htail⟩ := h
  refine separated_of_pieces (hform us hfirst) (fun piece hpiece => ?_) htail
  obtain ⟨_, vs, rfl, ⟨comma, hcomma, rfl⟩, hvs⟩ := hpieces piece hpiece
  exact ⟨comma, vs, rfl, hcomma, hform vs hvs⟩

theorem derivable_between {form : Form} {item : Symbol}
    (hform : ∀ us, form.Means Phrase.Derived us → Derivable item us)
    (h : (Form.optional form.listed).Means Phrase.Derived ts) : Derivable (.separated item) ts := by
  rcases h with rfl | h
  · exact ⟨_, .empty⟩
  · exact derivable_listed hform h

theorem derivable_entry (h : Form.entry.Means Phrase.Derived ts) : Derivable .entry ts := by
  obtain ⟨_, us, rfl, ⟨_, _, rfl, ⟨key, hkey, rfl⟩, ⟨colon, hcolon, rfl⟩⟩, value, hvalue⟩ := h
  exact (Derives.entry hkey hcolon hvalue).derivable

theorem means_atom {of : Phrase → List Token → Prop} :
    Form.atom.Means of ts ↔ ∃ (t : Token) (a : Atom), ts = [t] ∧ t.kind = .atom a := by
  constructor
  · rintro ((((⟨t, ht, rfl⟩ | ⟨t, ht, rfl⟩) | ⟨t, ht, rfl⟩) | ⟨t, ht, rfl⟩) | ⟨t, ht, rfl⟩)
    all_goals exact ⟨t, _, rfl, ht⟩
  · rintro ⟨t, a, rfl, ht⟩
    cases a <;> simp [Form.atom, Form.name, Form.Means, ht]

theorem derivable_primary (h : (Phrase.primary.form joins).Means Phrase.Derived ts) :
    Derivable (.phrase .primary) ts := by
  rcases h with ((hatom | ⟨_, _, rfl, ⟨_, us, rfl, ⟨t, ht, rfl⟩, hus⟩, ⟨t', ht', rfl⟩⟩) |
    ⟨_, _, rfl, ⟨_, us, rfl, ⟨t, ht, rfl⟩, hus⟩, ⟨t', ht', rfl⟩⟩) |
    ⟨_, _, rfl, ⟨_, us, rfl, ⟨t, ht, rfl⟩, e, he⟩, ⟨t', ht', rfl⟩⟩
  · obtain ⟨t, a, rfl, ha⟩ := means_atom.mp hatom
    exact (Derives.atom ha).derivable
  · have helement (us : List Token) (h : (Form.phrase .expression).Means Phrase.Derived us) :
        Derivable (.phrase .element) us := h.imp fun _ => .element
    obtain ⟨all, hall⟩ := derivable_between helement hus
    exact (Derives.list ht hall ht').derivable
  · obtain ⟨all, hall⟩ := derivable_between (fun _ => derivable_entry) hus
    exact (Derives.record ht hall ht').derivable
  · exact (Derives.group ht he ht').derivable

/-- The choices after a first expression. -/
theorem derivable_choice (h : (Phrase.choice.form joins).Means Phrase.Derived ts) :
    Derivable (.phrase .choice) ts := by
  obtain ⟨us, _, rfl, hfirst, pieces, rfl, hpieces⟩ := h
  refine extended_of_pieces rfl hfirst fun piece hpiece => ?_
  obtain ⟨_, vs, rfl, ⟨_, _, rfl, ⟨_, us, rfl, ⟨t, ht, rfl⟩, condition, hcondition⟩,
    ⟨t', ht', rfl⟩⟩, no, hno⟩ := hpieces piece hpiece
  simpa using (Derives.choice ht hcondition ht' hno).derivable

theorem derivable_assignment (h : (Phrase.assignment.form joins).Means Phrase.Derived ts) :
    Derivable (.phrase .assignment) ts := by
  rcases h with ⟨_, vs, rfl, ⟨us, _, rfl, ⟨target, htarget, hassignment⟩, ⟨t, ht, rfl⟩⟩, value,
    hvalue⟩ | ⟨e, he⟩
  · obtain ⟨e, he⟩ := hassignment value
    simpa using (Derives.assignment htarget ht hvalue he).derivable
  · exact ⟨e, .unassigned he⟩

theorem derivable_unary (h : (Phrase.unary.form joins).Means Phrase.Derived ts) :
    Derivable (.phrase .unary) ts := by
  rcases h with ⟨_, us, rfl, ⟨t, ht, rfl⟩ | ⟨t, ht, rfl⟩, e, he⟩ | ⟨e, he⟩
  · have hop : Reader.unaryOp? t.kind = some .not := by rw [ht]; rfl
    exact (Derives.unary hop he).derivable
  · have hop : Reader.unaryOp? t.kind = some .minus := by rw [ht]; rfl
    exact (Derives.unary hop he).derivable
  · exact ⟨e, .suffixed he⟩

theorem derivable_if (h : (Phrase.if_.form joins).Means Phrase.Derived ts) :
    Derivable (.statement .body) ts := by
  obtain ⟨_, tail, rfl, ⟨_, vs, rfl, ⟨_, us, rfl, ⟨t, ht, rfl⟩, condition, hcondition⟩,
    ⟨yes, hyes⟩, hapart⟩, htail⟩ := h
  have hbody := Derives.if_ ht hcondition hyes hapart
  rcases htail with rfl | ⟨_, ws, rfl, ⟨t', ht', rfl⟩, no, hno⟩
  · simpa using hbody.derivable
  · simpa using hbody.withElse rfl ht' hno

theorem derivable_names (h : (Form.optional (.row .name)).Means Phrase.Derived ts) :
    Derivable .parameters ts := by
  rcases h with rfl | ⟨_, _, rfl, ⟨t, ht, rfl⟩, pieces, rfl, hpieces⟩
  · exact ⟨[], .noParameters⟩
  · have hnames : ∀ piece ∈ pieces, Derivable .nextName piece := by
      intro piece hpiece
      obtain ⟨_, _, rfl, ⟨comma, hcomma, rfl⟩, ⟨t', ht', rfl⟩⟩ := hpieces piece hpiece
      exact (Derives.nextName hcomma ht').derivable
    obtain ⟨rest, hrest⟩ := many_of_pieces hnames
    exact (Derives.someParameters ht hrest).derivable

theorem derivable_funk (h : (Phrase.funk.form joins).Means Phrase.Derived ts) :
    Derivable (.statement .list) ts := by
  obtain ⟨_, _, rfl, ⟨_, _, rfl, ⟨_, us, rfl, ⟨_, _, rfl, ⟨_, _, rfl, ⟨opening, hopening, rfl⟩,
    ⟨title, htitle, rfl⟩⟩, ⟨before, hbefore, rfl⟩⟩, hnames⟩, ⟨after, hafter, rfl⟩⟩,
    ⟨brace, closing, vs, rfl, hbrace, hclosing, body, hbody⟩⟩ := h
  obtain ⟨params, hparams⟩ := derivable_names hnames
  simpa using
    (Derives.funk hopening htitle hbefore hparams hafter hbrace hbody hclosing).derivable

theorem derivable_make (h : (Phrase.make.form joins).Means Phrase.Derived ts) :
    Derivable (.statement .list) ts := by
  obtain ⟨_, _, rfl, ⟨_, us, rfl, ⟨_, _, rfl, ⟨opening, hopening, rfl⟩, ⟨title, htitle, rfl⟩⟩,
    hvalue⟩, ⟨closing, hclosing, rfl⟩⟩ := h
  rcases hvalue with rfl | ⟨_, vs, rfl, ⟨equals, hequals, rfl⟩, value, hvalue⟩
  · exact (Derives.make hopening htitle hclosing).derivable
  · exact (Derives.makeValue hopening htitle hequals hvalue hclosing).derivable

theorem derivable_return (h : (Phrase.return_.form joins).Means Phrase.Derived ts) :
    Derivable (.statement .body) ts := by
  obtain ⟨_, _, rfl, ⟨_, us, rfl, ⟨opening, hopening, rfl⟩, hvalue⟩, ⟨closing, hclosing, rfl⟩⟩ := h
  rcases hvalue with rfl | ⟨value, hvalue⟩
  · exact (Derives.return_ hopening hclosing).derivable
  · exact (Derives.returnValue hopening hvalue hclosing).derivable

theorem derivable_with (h : (Phrase.with_.form joins).Means Phrase.Derived ts) :
    Derivable (.statement .body) ts := by
  obtain ⟨_, vs, rfl, ⟨_, _, rfl, ⟨_, _, rfl, ⟨_, us, rfl, ⟨t, ht, rfl⟩, value, hvalue⟩,
    ⟨between, hbetween, rfl⟩⟩, ⟨title, htitle, rfl⟩⟩, body, hbody⟩ := h
  simpa using (Derives.with_ ht hvalue hbetween htitle hbody).derivable

/-- An expression by itself does not begin with a brace, so it begins with some other token. -/
theorem derivable_bare (h : (Phrase.bare.form joins).Means Phrase.Derived ts) :
    Derivable (.statement .body) ts := by
  obtain ⟨⟨us, _, rfl, ⟨e, he⟩, ⟨closing, hclosing, rfl⟩⟩, hbars⟩ := h
  obtain ⟨first, rest, rfl, -⟩ := he.begins trivial
  have hfirst : first.kind ≠ .sign .leftBrace := by simpa using hbars first rfl
  exact (Derives.value he hfirst hclosing).derivable

/-- Every production keeps to what can be derived. -/
theorem derived_of_form (p : Phrase) (ts : List Token)
    (h : (p.form joins).Means Phrase.Derived ts) : p.Derived ts := by
  cases p with
  | program =>
    obtain ⟨us, _, rfl, ⟨pieces, rfl, hpieces⟩, ⟨last, hlast, rfl⟩⟩ := h
    exact ⟨_, last, rfl, hlast, many_of_pieces hpieces⟩
  | declaration =>
    rcases h with (h | h) | ⟨s, hs⟩
    · exact h
    · exact h
    · exact ⟨s, .body hs⟩
  | funk => exact derivable_funk h
  | make => exact derivable_make h
  | statement =>
    rcases h with ((((((h | h) | h) | h) | h) | h) | h) | h
    case inl.inl.inl.inl.inl.inl.inr => exact derivable_block h
    all_goals exact h
  | print =>
    obtain ⟨_, _, rfl, ⟨_, us, rfl, ⟨t, ht, rfl⟩, value, hvalue⟩, ⟨t', ht', rfl⟩⟩ := h
    exact (Derives.print ht hvalue ht').derivable
  | block =>
    obtain ⟨_, _, rfl, ⟨_, _, rfl, ⟨t, ht, rfl⟩, pieces, rfl, hpieces⟩, ⟨t', ht', rfl⟩⟩ := h
    exact ⟨t, t', _, rfl, ht, ht', many_of_pieces hpieces⟩
  | if_ => exact derivable_if h
  | while_ =>
    obtain ⟨_, vs, rfl, ⟨_, us, rfl, ⟨t, ht, rfl⟩, condition, hcondition⟩, ⟨body, hbody⟩,
      hapart⟩ := h
    exact (Derives.while_ ht hcondition hbody hapart).derivable
  | return_ => exact derivable_return h
  | with_ => exact derivable_with h
  | for_ =>
    obtain ⟨_, vs, rfl, ⟨_, us, rfl, ⟨_, _, rfl, ⟨_, _, rfl, ⟨t, ht, rfl⟩, ⟨title, htitle, rfl⟩⟩,
      ⟨between, hbetween, rfl⟩⟩, items, hitems⟩, ⟨body, hbody⟩, hapart⟩ := h
    exact (Derives.for_ ht htitle hbetween hitems hbody hapart).derivable
  | bare => exact derivable_bare h
  | expression =>
    obtain ⟨e, he⟩ := h
    exact ⟨e, .expression he⟩
  | assignment => exact derivable_assignment h
  | target => exact assignable_target h
  | choice => exact derivable_choice h
  | or => exact derivable_logical .or rfl (fun _ => id) h
  | and => exact derivable_logical .and rfl (fun _ => id) h
  | equality => exact derivable_binary .equality rfl (fun _ => id) h
  | comparison => exact derivable_binary .comparison rfl (fun _ => id) h
  | term => exact derivable_binary .term rfl (fun _ => id) h
  | factor => exact derivable_binary .factor rfl (fun _ => id) h
  | unary => exact derivable_unary h
  | call => exact derivable_call h
  | arguments =>
    have hargument (us : List Token) (h : (Form.phrase .expression).Means Phrase.Derived us) :
        Derivable (.phrase .argument) us := h.imp fun _ he => .argument (.element he)
    exact derivable_listed hargument h
  | primary => exact derivable_primary h

end Steps

/-! ## Programs -/

theorem program_of_writes {ts : List Token} (h : Writes joins (.phrase .program) ts) :
    ∃ us last program, ts = us ++ [last] ∧ Ended us last ∧ Program us program := by
  obtain ⟨us, last, rfl, hlast, program, hprogram⟩ := means_of_writes derived_of_form h
  exact ⟨us, last, program, rfl, ⟨hlast, hprogram.ne_finish⟩, hprogram⟩

end Grammar
end FunkLang
