-- What is read is derived: a reader that succeeds has taken tokens that the
-- grammar derives its tree from, and stops before a token that does not let
-- them go on. Each reader is as good as the readers of its parts are, and the
-- room for nesting decides only whether there is an answer.
import FunkLang.Proofs.Edges
import FunkLang.Proofs.Reading

namespace FunkLang
namespace Grammar

open Reader (Rule Place Extension Row)

/-! ## Sound readings -/

/-- Between two cursors there are tokens that a symbol stands for, and they end there. -/
def Taken (s : Symbol) (c : Cursor) (a : s.Tree) (c' : Cursor) : Prop :=
  ∃ ts, Span c ts c' ∧ Derives s ts a ∧ Follows s a c'.current.kind

/-- Each answer comes with the tokens that it is derived from. -/
def Sound (s : Symbol) (answers : Cursor → s.Tree → Cursor → Prop) : Prop :=
  ∀ c a c', c.Closed → answers c a c' → Taken s c a c'

/-- Each answer of a reader is derived. -/
def ReadsAs (s : Symbol) (read : Reader s.Tree) : Prop := Sound s fun c a c' => read c = .ok a c'

section Tokens

variable {c c' : Cursor} {kind : Kind} {what : Expectation} {t : Token}

/-- The current token is taken, whatever it is, and then comes the rest. -/
theorem span_of_next {α : Type} {rest : Token → Reader α} {a : α} (hclosed : c.Closed)
    (hkind : c.current.kind ≠ .finish) (h : (Reader.next >>= rest) c = .ok a c') :
    ∃ c1, Span c [c.current] c1 ∧ rest c.current c1 = .ok a c' := by
  obtain ⟨t, c1, hnext, h⟩ := bind_eq_ok.mp h
  obtain ⟨rfl, rfl⟩ := Reader.next_eq_ok.mp hnext
  exact ⟨_, Span.next hclosed hkind, h⟩

theorem span_of_expect (hclosed : c.Closed) (hkind : kind ≠ .finish)
    (h : Reader.expect kind what c = .ok t c') : t.kind = kind ∧ Span c [t] c' := by
  obtain ⟨hcurrent, rfl, rfl⟩ := Reader.expect_eq_ok.mp h
  exact ⟨hcurrent, Span.next hclosed (hcurrent ▸ hkind)⟩

theorem span_of_name {n : Name} (hclosed : c.Closed) (h : Reader.name what c = .ok n c') :
    ∃ t : Token, t.kind = .atom .name ∧ n = named t ∧ Span c [t] c' := by
  obtain ⟨hcurrent, rfl, rfl⟩ := Reader.name_eq_ok.mp h
  refine ⟨c.current, hcurrent, rfl, Span.next hclosed ?_⟩
  rw [hcurrent]
  exact Kind.noConfusion

end Tokens

/-! ## Lists -/

section Lists

variable {item : Symbol} {c c' : Cursor}

/-- Each item that is found is derived, and where there is none the reader stays. -/
structure ReadsItems (item : Symbol) (read : Reader (Option item.Tree)) : Prop where
  found : Sound item fun c a c' => read c = .ok (some a) c'
  absent : ∀ c c', read c = .ok none c' → c' = c

theorem ne_nil_of_derives {ts : List Token} {a : item.Tree} (h : Derives item ts a)
    (hsingle : Single item) : ts ≠ [] := by
  obtain ⟨t, rest, rfl, -⟩ := h.begins hsingle
  exact List.cons_ne_nil _ _

theorem derives_of_row {read : Reader (Option item.Tree)} {all : List item.Tree}
    (hread : ReadsItems item read) (hclosed : c.Closed)
    (h : Row (fun c a c' => read c = .ok (some a) c') c all c') :
    ∃ ts, Span c ts c' ∧ Derives (.many item) ts all ∧
      (c' = c ∨ ∃ a, Follows item a c'.current.kind) := by
  induction h with
  | nil => exact ⟨[], Span.refl hclosed, .none, Or.inl rfl⟩
  | @cons c c1 c' a rest hlink _ ih =>
    obtain ⟨ts, hspan, hts, hfollows⟩ := hread.found _ _ _ hclosed hlink
    obtain ⟨us, hspan1, hus, hend⟩ := ih hspan.closed
    refine ⟨ts ++ us, hspan.trans hspan1, .more hts hus, Or.inr ?_⟩
    rcases hend with rfl | hend
    · exact ⟨a, hfollows⟩
    · exact hend

theorem ReadsItems.advances {read : Reader (Option item.Tree)} (hread : ReadsItems item read)
    (hsingle : Single item) : Reader.Advances read := by
  refine ⟨fun c a c' hclosed h => ?_, hread.absent⟩
  obtain ⟨ts, hspan, hts, -⟩ := hread.found _ _ _ hclosed h
  exact ⟨ts, hspan, ne_nil_of_derives hts hsingle⟩

/-- Items are read until there is none, and the last one ends as it would alone. -/
theorem derives_of_many {read : Reader (Option item.Tree)} {all : List item.Tree}
    (hread : ReadsItems item read) (hsingle : Single item) (hclosed : c.Closed)
    (h : Reader.many read c = .ok all c') :
    ∃ ts, Span c ts c' ∧ Derives (.many item) ts all ∧
      (c' = c ∨ ∃ a, Follows item a c'.current.kind) ∧ read c' = .ok none c' := by
  obtain ⟨hrow, hstop⟩ := Reader.row_of_many (hread.advances hsingle) hclosed h
  obtain ⟨ts, hspan, hts, hend⟩ := derives_of_row hread hclosed hrow
  exact ⟨ts, hspan, hts, hend, hstop⟩

/-- An item that stands wherever no token of one kind does. -/
theorem readsItems_unlessAt {read : Reader item.Tree} (hread : ReadsAs item read) (kind : Kind) :
    ReadsItems item (Reader.unlessAt kind read) := by
  refine ⟨fun c a c' hclosed h => ?_, fun c c' h => ?_⟩
  · rcases Reader.unlessAt_eq_ok.mp h with ⟨-, a', ha, heq⟩ | ⟨-, heq, -⟩
    · cases heq
      exact hread _ _ _ hclosed ha
    · cases heq
  · rcases Reader.unlessAt_eq_ok.mp h with ⟨-, a, -, heq⟩ | ⟨-, -, rfl⟩
    · cases heq
    · rfl

/-- An item, and what comes after it in a list with commas. -/
theorem withComma_sound {close : Sign} {what : Expectation} {read : Reader item.Tree}
    (hread : ReadsAs item read) {a : item.Tree} (hclosed : c.Closed)
    (h : Reader.withComma close what read c = .ok a c') :
    ∃ ts c1, Span c ts c1 ∧ Derives item ts a ∧
      (c1.current.kind = .sign close ∧ c' = c1 ∨
        ∃ comma : Token, comma.kind = .sign .comma ∧ Span c1 [comma] c') := by
  unfold Reader.withComma at h
  obtain ⟨a1, c1, hitem, h⟩ := bind_eq_ok.mp h
  obtain ⟨ts, hspan, hts, -⟩ := hread _ _ _ hclosed hitem
  obtain ⟨b, c2, hsees, h⟩ := bind_eq_ok.mp h
  obtain ⟨rfl, rfl⟩ := Reader.sees_eq_ok.mp hsees
  by_cases hkind : c2.current.kind = .sign close
  · rw [if_pos (beq_iff_eq.mpr hkind)] at h
    obtain ⟨rfl, rfl⟩ := pure_eq_ok.mp h
    exact ⟨ts, _, hspan, hts, Or.inl ⟨hkind, rfl⟩⟩
  · rw [if_neg (mt beq_iff_eq.mp hkind)] at h
    obtain ⟨comma, c3, hcomma, h⟩ := bind_eq_ok.mp h
    obtain ⟨rfl, rfl⟩ := pure_eq_ok.mp h
    obtain ⟨hcomma', hspan'⟩ := span_of_expect hspan.closed Kind.noConfusion hcomma
    exact ⟨ts, _, hspan, hts, Or.inr ⟨comma, hcomma', hspan'⟩⟩

/-- The same as an item to repeat. -/
theorem element_sound {close : Sign} {what : Expectation} {read : Reader item.Tree}
    (hread : ReadsAs item read) {a : item.Tree} (hclosed : c.Closed)
    (h : Reader.unlessAt (.sign close) (Reader.withComma close what read) c = .ok (some a) c') :
    c.current.kind ≠ .sign close ∧ ∃ ts c1, Span c ts c1 ∧ Derives item ts a ∧
      (c1.current.kind = .sign close ∧ c' = c1 ∨
        ∃ comma : Token, comma.kind = .sign .comma ∧ Span c1 [comma] c') := by
  rcases Reader.unlessAt_eq_ok.mp h with ⟨hkind, a1, hitem, heq⟩ | ⟨-, heq, -⟩
  · cases heq
    exact ⟨hkind, withComma_sound hread hclosed hitem⟩
  · cases heq

theorem advances_element {close : Sign} {what : Expectation} {read : Reader item.Tree}
    (hread : ReadsAs item read) (hsingle : Single item) :
    Reader.Advances (Reader.unlessAt (.sign close) (Reader.withComma close what read)) := by
  refine ⟨fun c a c' hclosed h => ?_, fun c c' h => ?_⟩
  · obtain ⟨-, ts, c1, hspan, hts, hend⟩ := element_sound hread hclosed h
    have hne := ne_nil_of_derives hts hsingle
    rcases hend with ⟨-, rfl⟩ | ⟨comma, -, hspan'⟩
    · exact ⟨ts, hspan, hne⟩
    · exact ⟨ts ++ [comma], hspan.trans hspan', by simp⟩
  · rcases Reader.unlessAt_eq_ok.mp h with ⟨-, a, -, heq⟩ | ⟨-, -, rfl⟩
    · cases heq
    · rfl

theorem readsAs_separated {close : Sign} {what : Expectation} {read : Reader item.Tree}
    (hread : ReadsAs item read) (hsingle : Single item) (hclose : closes close) :
    ReadsAs (.separated item) (Reader.separated close what read) := by
  intro c all c' hclosed h
  obtain ⟨hrow, hstop⟩ := Reader.row_of_many (advances_element hread hsingle) hclosed h
  have hend : c'.current.kind = .sign close := by
    rcases Reader.unlessAt_eq_ok.mp hstop with ⟨-, a, -, heq⟩ | ⟨hkind, -, -⟩
    · cases heq
    · exact hkind
  suffices ∃ ts, Span c ts c' ∧ Derives (.separated item) ts all by
    obtain ⟨ts, hspan, hts⟩ := this
    exact ⟨ts, hspan, hts, close, hend, hclose⟩
  clear h hstop
  induction hrow with
  | nil => exact ⟨[], Span.refl hclosed, .empty⟩
  | cons hlink hrest ih =>
    obtain ⟨-, ts, c1, hspan, hts, hcomma⟩ := element_sound hread hclosed hlink
    rcases hcomma with ⟨hkind, rfl⟩ | ⟨comma, hcomma, hspan'⟩
    · -- Nothing is read any more where the list closes.
      cases hrest with
      | nil => exact ⟨ts, hspan, .last hts⟩
      | cons hlink' _ => exact absurd hkind (element_sound hread hspan.closed hlink').1
    · obtain ⟨us, hspan1, hus⟩ := ih hspan'.closed hend
      refine ⟨ts ++ comma :: us, ?_, .before hts hcomma hus⟩
      exact hspan.trans (hspan'.trans hspan1)

end Lists

/-! ## Expressions -/

section Expressions

variable {argument element inner value : Reader Expr}

theorem readsAs_entry (hvalue : ReadsAs (.phrase .expression) value) :
    ReadsAs .entry (Reader.entry value) := by
  intro c a c' hclosed h
  unfold Reader.entry at h
  obtain ⟨key, c1, hkey, h⟩ := bind_eq_ok.mp h
  obtain ⟨t, ht, rfl, hspan1⟩ := span_of_name hclosed hkey
  obtain ⟨colon, c2, hcolon, h⟩ := bind_eq_ok.mp h
  obtain ⟨hcolon', hspan2⟩ := span_of_expect hspan1.closed Kind.noConfusion hcolon
  obtain ⟨e, c3, he, h⟩ := bind_eq_ok.mp h
  obtain ⟨rfl, rfl⟩ := pure_eq_ok.mp h
  obtain ⟨ts, hspan3, hts, hfollows⟩ := hvalue _ _ _ hspan2.closed he
  refine ⟨t :: colon :: ts, ?_, .entry ht hcolon' hts, hfollows⟩
  exact hspan1.trans (hspan2.trans hspan3)

/-- What is read between two brackets is derived. -/
theorem derives_of_brackets {α : Type} {s : Symbol} {read : Reader s.Tree} {make : s.Tree → α}
    {what : Expectation} {close : Sign} {c c' : Cursor} {x : α} (hread : ReadsAs s read)
    (hclosed : c.Closed) (hkind : c.current.kind ≠ .finish)
    (h : (do
      let _ ← Reader.next
      let a ← read
      let _ ← Reader.expect (.sign close) what
      return make a : Reader α) c = .ok x c') :
    ∃ ts a closing, Span c (c.current :: (ts ++ [closing])) c' ∧ Derives s ts a ∧
      closing.kind = .sign close ∧ make a = x := by
  obtain ⟨c1, hopen, h⟩ := span_of_next hclosed hkind h
  obtain ⟨a, c2, ha, h⟩ := bind_eq_ok.mp h
  obtain ⟨closing, c3, hclose, h⟩ := bind_eq_ok.mp h
  obtain ⟨hx, rfl⟩ := pure_eq_ok.mp h
  obtain ⟨ts, hspan, hts, -⟩ := hread _ _ _ hopen.closed ha
  obtain ⟨hclosing, hspan'⟩ := span_of_expect hspan.closed Kind.noConfusion hclose
  exact ⟨ts, a, closing, hopen.trans (hspan.trans hspan'), hts, hclosing, hx⟩

theorem readsAs_primary (helement : ReadsAs (.phrase .element) element)
    (hinner : ReadsAs (.phrase .expression) inner) :
    ReadsAs (.phrase .primary) (Reader.primary element inner) := by
  intro c a c' hclosed h
  suffices ∃ ts, Span c ts c' ∧ Derives (.phrase .primary) ts a by
    obtain ⟨ts, hspan, hts⟩ := this
    exact ⟨ts, hspan, hts, endsBefore_primary⟩
  unfold Reader.primary at h
  obtain ⟨first, c0, hpeek, h⟩ := bind_eq_ok.mp h
  obtain ⟨rfl, rfl⟩ := Reader.peek_eq_ok.mp hpeek
  cases hkind : c0.current.kind with
  | atom atom =>
    rw [hkind] at h
    obtain ⟨c1, hspan, h⟩ := span_of_next hclosed (by simp [hkind]) h
    obtain ⟨rfl, rfl⟩ := pure_eq_ok.mp h
    exact ⟨_, hspan, .atom hkind⟩
  | sign sign =>
    have hfinish : c0.current.kind ≠ .finish := by simp [hkind]
    rw [hkind] at h
    cases sign
    case leftBracket =>
      obtain ⟨ts, elements, closing, hspan, hts, hclosing, rfl⟩ :=
        derives_of_brackets (readsAs_separated helement trivial rfl) hclosed hfinish h
      exact ⟨_, hspan, .list hkind hts hclosing⟩
    case leftBrace =>
      obtain ⟨ts, entries, closing, hspan, hts, hclosing, rfl⟩ :=
        derives_of_brackets (readsAs_separated (readsAs_entry hinner) trivial rfl) hclosed hfinish h
      exact ⟨_, hspan, .record hkind hts hclosing⟩
    case leftParen =>
      obtain ⟨ts, grouped, closing, hspan, hts, hclosing, rfl⟩ :=
        derives_of_brackets hinner hclosed hfinish h
      exact ⟨_, hspan, .group hkind hts hclosing⟩
    all_goals cases h
  | _ =>
    rw [hkind] at h
    cases h

/-- What extends a phrase is derived, and where nothing does, no token extends the rule. -/
structure Extends (rule : Rule) (extension? : Reader (Option Extension)) : Prop where
  items : ReadsItems (.extension rule) extension?
  ends : ∀ c c', extension? c = .ok none c' → extends? c.current.kind ≠ some rule

/-- An extension, and why there is none, by how the reader ends. -/
theorem Extends.of {rule : Rule} {extension? : Reader (Option Extension)}
    (found : Sound (.extension rule) fun c x c' => extension? c = .ok (some x) c')
    (absent : ∀ c c', extension? c = .ok none c' →
      c' = c ∧ extends? c.current.kind ≠ some rule) : Extends rule extension? :=
  ⟨⟨found, fun c c' h => (absent c c' h).1⟩, fun c c' h => (absent c c' h).2⟩

/-- What a token of one kind leads to. -/
theorem extends_led {rule : Rule} {kind : Kind} {item : Reader Extension}
    (hextender : extender? rule = some kind) (hkind : kind ≠ .finish)
    (hitem : ∀ t : Token, t.kind = kind → ∀ c x c', c.Closed → item c = .ok x c' →
      ∃ ts, Span c ts c' ∧ Derives (.extension rule) (t :: ts) x ∧
        Follows (.extension rule) x c'.current.kind) : Extends rule (Reader.led kind item) := by
  refine .of (fun c x c' hclosed h => ?_) (fun c c' h => ?_)
  · rcases Reader.led_eq_ok.mp h with ⟨hcurrent, x', hx, heq⟩ | ⟨-, heq, -⟩
    · cases heq
      have hspan := Span.next hclosed (hcurrent ▸ hkind)
      obtain ⟨ts, hspan', hts, hfollows⟩ := hitem _ hcurrent _ _ _ hspan.closed hx
      exact ⟨_, hspan.trans hspan', hts, hfollows⟩
    · cases heq
  · rcases Reader.led_eq_ok.mp h with ⟨-, x, -, heq⟩ | ⟨hcurrent, -, rfl⟩
    · cases heq
    · exact ⟨rfl, fun hextends => hcurrent ((extends?_iff hextender).mp hextends)⟩

theorem extends_choice {part : Reader Expr} (hpart : ReadsAs (.phrase .disjunction) part) :
    Extends .choice (Reader.choice? part) := by
  apply extends_led rfl Kind.noConfusion
  intro t ht c x c' hclosed h
  obtain ⟨condition, c1, hcondition, h⟩ := bind_eq_ok.mp h
  obtain ⟨ts, hspan, hts, -⟩ := hpart _ _ _ hclosed hcondition
  obtain ⟨between, c2, hbetween, h⟩ := bind_eq_ok.mp h
  obtain ⟨hbetween', hspan1⟩ := span_of_expect hspan.closed Kind.noConfusion hbetween
  obtain ⟨no, c3, hno, h⟩ := bind_eq_ok.mp h
  obtain ⟨rfl, rfl⟩ := pure_eq_ok.mp h
  obtain ⟨us, hspan2, hus, hfollows⟩ := hpart _ _ _ hspan1.closed hno
  refine ⟨_, hspan.trans (hspan1.trans hspan2), .choice ht hts hbetween' hus, ?_⟩
  rintro operand ⟨⟩
  exact hfollows

theorem extends_logical {op : LogicalOp} {rule : Rule} {operand : Reader Expr}
    (hrule : operand? (logicalRule op) = some rule) (hoperand : ReadsAs (.phrase rule) operand) :
    Extends (logicalRule op) (Reader.logical? op operand) := by
  have hextender : extender? (logicalRule op) = some (.word (Reader.word op)) := by
    cases op <;> rfl
  apply extends_led hextender Kind.noConfusion
  intro t ht c x c' hclosed h
  obtain ⟨right, c1, hright, h⟩ := bind_eq_ok.mp h
  obtain ⟨rfl, rfl⟩ := pure_eq_ok.mp h
  obtain ⟨ts, hspan, hts, hfollows⟩ := hoperand _ _ _ hclosed hright
  refine ⟨ts, hspan, .logical ht rfl hrule hts, fun rule' hrule' => ?_⟩
  cases hrule.symm.trans hrule'
  exact hfollows

theorem ne_finish_of_tierOp? {tier : Tier} {kind : Kind} {op : BinaryOp}
    (h : Reader.tierOp? tier kind = some op) : kind ≠ .finish := by
  rintro rfl
  cases h

theorem extends_binary {tier : Tier} {rule : Rule} {operand : Reader Expr}
    (hrule : operand? (tierRule tier) = some rule) (hoperand : ReadsAs (.phrase rule) operand) :
    Extends (tierRule tier) (Reader.binary? tier operand) := by
  unfold Reader.binary?
  refine .of (fun c x c' hclosed h => ?_) (fun c c' h => ?_)
  · obtain ⟨op?, c1, htake, hrest⟩ := bind_eq_ok.mp h
    rcases Reader.take?_eq_ok.mp htake with ⟨op, hop, rfl, rfl⟩ | ⟨-, rfl, rfl⟩
    · have hspan := Span.next hclosed (ne_finish_of_tierOp? hop)
      obtain ⟨right, c2, hright, h⟩ := bind_eq_ok.mp hrest
      obtain ⟨heq, rfl⟩ := pure_eq_ok.mp h
      cases heq
      obtain ⟨ts, hspan', hts, hfollows⟩ := hoperand _ _ _ hspan.closed hright
      refine ⟨_, hspan.trans hspan', .binary hop rfl hrule hts, fun rule' hrule' => ?_⟩
      cases hrule.symm.trans hrule'
      exact hfollows
    · cases (pure_eq_ok.mp hrest).1
  · obtain ⟨op?, c1, htake, hrest⟩ := bind_eq_ok.mp h
    rcases Reader.take?_eq_ok.mp htake with ⟨op, hop, rfl, rfl⟩ | ⟨hop, rfl, rfl⟩
    · obtain ⟨right, c2, -, h⟩ := bind_eq_ok.mp hrest
      cases (pure_eq_ok.mp h).1
    · obtain ⟨-, rfl⟩ := pure_eq_ok.mp hrest
      refine ⟨rfl, fun hextends => ?_⟩
      obtain ⟨op, hop'⟩ := extends?_eq_tier.mp hextends
      rw [hop] at hop'
      cases hop'

theorem extends_suffix (hargument : ReadsAs (.phrase .argument) argument)
    (hinner : ReadsAs (.phrase .expression) inner) :
    Extends .suffixed (Reader.suffix? argument inner) := by
  refine .of (fun c x c' hclosed h => ?_) (fun c c' h => ?_)
  · suffices ∃ ts, Span c ts c' ∧ Derives (.extension .suffixed) ts x by
      obtain ⟨ts, hspan, hts⟩ := this
      refine ⟨ts, hspan, hts, ?_⟩
      rintro operand ⟨⟩
      exact endsBefore_primary
    unfold Reader.suffix? at h
    obtain ⟨first, c0, hpeek, h⟩ := bind_eq_ok.mp h
    obtain ⟨rfl, rfl⟩ := Reader.peek_eq_ok.mp hpeek
    cases hkind : c0.current.kind with
    | sign sign =>
      have hfinish : c0.current.kind ≠ .finish := by simp [hkind]
      rw [hkind] at h
      cases sign
      case leftParen =>
        obtain ⟨ts, arguments, closing, hspan, hts, hclosing, heq⟩ :=
          derives_of_brackets (readsAs_separated hargument trivial rfl) hclosed hfinish h
        cases heq
        exact ⟨_, hspan, .call hkind hts hclosing⟩
      case leftBracket =>
        obtain ⟨ts, place, closing, hspan, hts, hclosing, heq⟩ :=
          derives_of_brackets hinner hclosed hfinish h
        cases heq
        exact ⟨_, hspan, .index hkind hts hclosing⟩
      case dot =>
        obtain ⟨c1, hdot, h⟩ := span_of_next hclosed hfinish h
        obtain ⟨key, c2, hkey, h⟩ := bind_eq_ok.mp h
        obtain ⟨heq, rfl⟩ := pure_eq_ok.mp h
        cases heq
        obtain ⟨t, ht, rfl, hspan⟩ := span_of_name hdot.closed hkey
        exact ⟨_, hdot.trans hspan, .field hkind ht⟩
      all_goals cases (pure_eq_ok.mp h).1
    | _ =>
      rw [hkind] at h
      cases (pure_eq_ok.mp h).1
  · unfold Reader.suffix? at h
    obtain ⟨first, c0, hpeek, h⟩ := bind_eq_ok.mp h
    obtain ⟨rfl, rfl⟩ := Reader.peek_eq_ok.mp hpeek
    cases hkind : c0.current.kind with
    | sign sign =>
      rw [hkind] at h
      cases sign
      case leftParen | leftBracket =>
        obtain ⟨t, c1, -, h⟩ := bind_eq_ok.mp h
        obtain ⟨inside, c2, -, h⟩ := bind_eq_ok.mp h
        obtain ⟨closing, c3, -, h⟩ := bind_eq_ok.mp h
        cases (pure_eq_ok.mp h).1
      case dot =>
        obtain ⟨t, c1, -, h⟩ := bind_eq_ok.mp h
        obtain ⟨key, c2, -, h⟩ := bind_eq_ok.mp h
        cases (pure_eq_ok.mp h).1
      all_goals
        obtain ⟨-, rfl⟩ := pure_eq_ok.mp h
        exact ⟨rfl, by simp [extends?_eq_suffixed]⟩
    | _ =>
      rw [hkind] at h
      obtain ⟨-, rfl⟩ := pure_eq_ok.mp h
      exact ⟨rfl, by simp [extends?_eq_suffixed]⟩

theorem readsAs_extended {rule operand : Rule} {first : Reader Expr}
    {extension? : Reader (Option Extension)} (hoperand : operand? rule = some operand)
    (hfirst : ReadsAs (.phrase operand) first) (hextension : Extends rule extension?) :
    ReadsAs (.phrase rule) (Reader.extended first extension?) := by
  intro c e c' hclosed h
  obtain ⟨e1, c1, hfirst', h⟩ := bind_eq_ok.mp h
  obtain ⟨ts, hspan, hts, hends⟩ := hfirst _ _ _ hclosed hfirst'
  obtain ⟨extensions, c2, hmany, h⟩ := bind_eq_ok.mp h
  obtain ⟨rfl, rfl⟩ := pure_eq_ok.mp h
  obtain ⟨us, hspan', hus, hend, hstop⟩ :=
    derives_of_many hextension.items trivial hspan.closed hmany
  refine ⟨ts ++ us, hspan.trans hspan', .extended hoperand hts hus, ?_⟩
  apply (endsBefore_iff hoperand).mpr
  refine ⟨?_, hextension.ends _ _ hstop⟩
  rcases hend with rfl | ⟨x, hfollows⟩
  · exact hends
  · exact hfollows _ hoperand

theorem readsAs_unary {operand suffixed : Reader Expr} (hoperand : ReadsAs (.phrase .unary) operand)
    (hsuffixed : ReadsAs (.phrase .suffixed) suffixed) :
    ReadsAs (.phrase .unary) (do
      match ← Reader.take? Reader.unaryOp? with
      | some op => return .unary op (← operand)
      | none => suffixed) := by
  intro c e c' hclosed h
  obtain ⟨op?, c1, htake, hrest⟩ := bind_eq_ok.mp h
  rcases Reader.take?_eq_ok.mp htake with ⟨op, hop, rfl, rfl⟩ | ⟨-, rfl, rfl⟩
  · have hfinish : c.current.kind ≠ .finish := by
      intro heq
      rw [heq] at hop
      cases hop
    have hspan := Span.next hclosed hfinish
    obtain ⟨e1, c2, he, h⟩ := bind_eq_ok.mp hrest
    obtain ⟨rfl, rfl⟩ := pure_eq_ok.mp h
    obtain ⟨ts, hspan', hts, hfollows⟩ := hoperand _ _ _ hspan.closed he
    exact ⟨_, hspan.trans hspan', .unary hop hts, hfollows⟩
  · obtain ⟨ts, hspan, hts, hfollows⟩ := hsuffixed _ _ _ hclosed hrest
    exact ⟨ts, hspan, .suffixed hts, endsBefore_unary hfollows⟩

end Expressions

/-! ## Assignments -/

/-- Choices make an expression a choice. -/
theorem choice_of_foldl {ts : List Token} {extensions : List Extension}
    (h : Derives (.many (.extension .choice)) ts extensions) (first : Expr) :
    extensions = [] ∨ ∃ condition yes no,
      extensions.foldl Extension.apply first = .choice condition yes no := by
  induction extensions generalizing ts first with
  | nil => exact Or.inl rfl
  | cons x rest ih =>
    right
    cases h with
    | more hx hrest =>
      have hchoice : ∃ condition no, x = .choice condition no := by
        cases hx with
        | choice => exact ⟨_, _, rfl⟩
        | @logical _ _ _ op _ _ _ hrule => cases op <;> cases hrule
        | @binary _ _ _ tier _ _ _ _ hrule => cases tier <;> cases hrule
      obtain ⟨condition, no, rfl⟩ := hchoice
      rcases ih hrest (.choice condition first no) with rfl | hrest'
      · exact ⟨condition, first, no, rfl⟩
      · exact hrest'

/-- A choice cannot be assigned to. -/
theorem disjunction_of_target {ts : List Token} {target value e : Expr}
    (h : Derives (.phrase .choice) ts target) (htarget : assignment? value target = some e) :
    Derives (.phrase .disjunction) ts target := by
  cases h with
  | @extended _ _ ts us first _ hoperand hfirst hmany =>
    cases hoperand
    rcases choice_of_foldl hmany first with rfl | ⟨condition, yes, no, heq⟩
    · cases hmany
      rw [List.append_nil]
      exact hfirst
    · rw [heq] at htarget
      cases htarget

theorem assignTo_eq {target value : Expr} {equals : Token} :
    Reader.assignTo target equals value =
      match assignment? value target with
      | some e => pure e
      | none => throw ⟨.badTarget, equals⟩ := by
  cases target with
  | atom mark =>
    obtain ⟨kind, text, line⟩ := mark
    cases kind <;> rfl
  | _ => rfl

theorem readsAs_assignment {target value : Reader Expr} (htarget : ReadsAs (.phrase .choice) target)
    (hvalue : ReadsAs (.phrase .assignment) value) :
    ReadsAs (.phrase .assignment) (do
      let target ← target
      if ← Reader.sees (.sign .equal) then
        let equals ← Reader.next
        Reader.assignTo target equals (← value)
      else return target) := by
  intro c e c' hclosed h
  obtain ⟨e1, c1, he1, h⟩ := bind_eq_ok.mp h
  obtain ⟨ts, hspan, hts, hends⟩ := htarget _ _ _ hclosed he1
  obtain ⟨b, c2, hsees, h⟩ := bind_eq_ok.mp h
  obtain ⟨rfl, rfl⟩ := Reader.sees_eq_ok.mp hsees
  by_cases hkind : c2.current.kind = .sign .equal
  · rw [if_pos (beq_iff_eq.mpr hkind)] at h
    obtain ⟨c3, hspan1, h⟩ := span_of_next hspan.closed (by simp [hkind]) h
    obtain ⟨v, c4, hv, h⟩ := bind_eq_ok.mp h
    obtain ⟨us, hspan2, hus, hends'⟩ := hvalue _ _ _ hspan1.closed hv
    rw [assignTo_eq] at h
    cases hassign : assignment? v e1 with
    | none =>
      rw [hassign] at h
      cases h
    | some e' =>
      rw [hassign] at h
      obtain ⟨rfl, rfl⟩ := pure_eq_ok.mp h
      refine ⟨_, hspan.trans (hspan1.trans hspan2), ?_, hends'⟩
      exact .assignment (disjunction_of_target hts hassign) hkind hus hassign
  · rw [if_neg (mt beq_iff_eq.mp hkind)] at h
    obtain ⟨rfl, rfl⟩ := pure_eq_ok.mp h
    refine ⟨ts, hspan, .unassigned hts, endsBefore_of_none ?_⟩
    cases hextends : extends? c2.current.kind with
    | none => rfl
    | some other =>
      -- Only an assignment binds less than a choice.
      have hlt := hends other hextends
      rcases operand?_of_extends hextends with rfl | ⟨operand, hoperand⟩
      · exact absurd ((extends?_iff rfl).mp hextends) hkind
      · cases other <;> cases hoperand <;> revert hlt <;> decide

/-! ## The ladder of rules -/

/-- What reads the extensions of a rule, where its parts may go through `room` rules. -/
def extension? (room : Nat) : Rule → Reader (Option Extension)
  | .choice => Reader.choice? (Reader.byRule room .disjunction)
  | .disjunction => Reader.logical? .or (Reader.byRule room .conjunction)
  | .conjunction => Reader.logical? .and (Reader.byRule room .equality)
  | .equality => Reader.binary? .equality (Reader.byRule room .comparison)
  | .comparison => Reader.binary? .comparison (Reader.byRule room .term)
  | .term => Reader.binary? .term (Reader.byRule room .factor)
  | .factor => Reader.binary? .factor (Reader.byRule room .unary)
  | .suffixed => Reader.suffix? (Reader.byRule room .argument) (Reader.byRule room .expression)
  | _ => return none

theorem byRule_extended {rule operand : Rule} (h : operand? rule = some operand) (room : Nat) :
    Reader.byRule (room + 1) rule =
      Reader.extended (Reader.byRule room operand) (extension? room rule) := by
  cases rule <;> cases h <;> rfl

theorem extension?_logical {op : LogicalOp} {operand : Rule}
    (h : operand? (logicalRule op) = some operand) (room : Nat) :
    extension? room (logicalRule op) = Reader.logical? op (Reader.byRule room operand) := by
  cases op <;> cases h <;> rfl

theorem extension?_binary {tier : Tier} {operand : Rule}
    (h : operand? (tierRule tier) = some operand) (room : Nat) :
    extension? room (tierRule tier) = Reader.binary? tier (Reader.byRule room operand) := by
  cases tier <;> cases h <;> rfl

/-- A rule whose expressions are extended is that of a choice, of an operator, or of suffixes. -/
theorem rule_cases {rule operand : Rule} (h : operand? rule = some operand) :
    rule = .choice ∨ (∃ op, rule = logicalRule op) ∨ (∃ tier, rule = tierRule tier) ∨
      rule = .suffixed := by
  cases rule <;> cases h
  case choice => exact Or.inl rfl
  case disjunction => exact Or.inr (Or.inl ⟨.or, rfl⟩)
  case conjunction => exact Or.inr (Or.inl ⟨.and, rfl⟩)
  case equality => exact Or.inr (Or.inr (Or.inl ⟨.equality, rfl⟩))
  case comparison => exact Or.inr (Or.inr (Or.inl ⟨.comparison, rfl⟩))
  case term => exact Or.inr (Or.inr (Or.inl ⟨.term, rfl⟩))
  case factor => exact Or.inr (Or.inr (Or.inl ⟨.factor, rfl⟩))
  case suffixed => exact Or.inr (Or.inr (Or.inr rfl))

theorem extends_extension? {rule operand : Rule} {room : Nat}
    (hoperand : operand? rule = some operand)
    (hparts : ∀ rule, ReadsAs (.phrase rule) (Reader.byRule room rule)) :
    Extends rule (extension? room rule) := by
  rcases rule_cases hoperand with rfl | ⟨op, rfl⟩ | ⟨tier, rfl⟩ | rfl
  · exact extends_choice (hparts _)
  · rw [extension?_logical hoperand]
    exact extends_logical hoperand (hparts _)
  · rw [extension?_binary hoperand]
    exact extends_binary hoperand (hparts _)
  · exact extends_suffix (hparts _) (hparts _)

/-- An expression that is read by a rule is derived as a phrase of the rule. -/
theorem readsAs_byRule (room : Nat) (rule : Rule) :
    ReadsAs (.phrase rule) (Reader.byRule room rule) := by
  induction room generalizing rule with
  | zero =>
    intro c e c' _ h
    cases h
  | succ room ih =>
    cases hoperand : operand? rule with
    | some operand =>
      rw [byRule_extended hoperand]
      exact readsAs_extended hoperand (ih operand) (extends_extension? hoperand ih)
    | none =>
      cases rule with
      | expression =>
        intro c e c' hclosed h
        obtain ⟨ts, hspan, hts, hfollows⟩ := ih .assignment _ _ _ hclosed h
        exact ⟨ts, hspan, .expression hts, hfollows⟩
      | argument =>
        intro c e c' hclosed h
        obtain ⟨ts, hspan, hts, hfollows⟩ := ih .element _ _ _ hclosed h
        exact ⟨ts, hspan, .argument hts, hfollows⟩
      | element =>
        intro c e c' hclosed h
        obtain ⟨ts, hspan, hts, hfollows⟩ := ih .expression _ _ _ hclosed h
        exact ⟨ts, hspan, .element hts, hfollows⟩
      | assignment => exact readsAs_assignment (ih .choice) (ih .assignment)
      | unary => exact readsAs_unary (ih .unary) (ih .suffixed)
      | primary => exact readsAs_primary (ih .element) (ih .expression)
      | _ => cases hoperand

end Grammar
end FunkLang
