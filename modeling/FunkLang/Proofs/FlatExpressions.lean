-- Flat expressions: operands with operators between them and no brackets. The tree of one parts it
-- at the operator that binds loosest, at the last such one where there are several, and both sides
-- are parted in the same way. This is the tree that is read, as long as there is room for the
-- longest row of operators before an operand. Without that room the reading is too deep.
import FunkLang.Proofs.Accepted
import FunkLang.Proofs.SpeltTrees

namespace FunkLang

/-! ## Readings with a given room -/

namespace Reader

variable {α β : Type} {c c1 c' : Cursor} {a : α} {b : β} {enough more : Prop}

/-- If there is room enough the reading has this answer, and otherwise it is too deep. -/
def ReadsIf (enough : Prop) (r : EStateM.Result ParseError Cursor α) (a : α) (c : Cursor) : Prop :=
  (enough → r = .ok a c) ∧ (¬ enough → TooDeep r)

namespace ReadsIf

theorem of_iff {r : EStateM.Result ParseError Cursor α} (h : ReadsIf enough r a c)
    (hiff : enough ↔ more) : ReadsIf more r a c := by
  rw [← hiff]
  exact h

theorem of_ok {r : EStateM.Result ParseError Cursor α} (h : r = .ok a c) : ReadsIf True r a c :=
  ⟨fun _ => h, fun hnot => absurd trivial hnot⟩

theorem bind {x : Reader α} {f : α → Reader β} (hx : ReadsIf enough (x c) a c1)
    (hf : ReadsIf more (f a c1) b c') : ReadsIf (enough ∧ more) ((x >>= f) c) b c' := by
  constructor
  · rintro ⟨hroom, hmore⟩
    exact (bind_of_ok (hx.1 hroom)).trans (hf.1 hmore)
  · intro hnot
    by_cases hroom : enough
    · rw [bind_of_ok (hx.1 hroom)]
      exact hf.2 fun hmore => hnot ⟨hroom, hmore⟩
    · exact (hx.2 hroom).bind

/-- The first reading needs no room. -/
theorem after {x : Reader α} {f : α → Reader β} (hx : x c = .ok a c1)
    (hf : ReadsIf enough (f a c1) b c') : ReadsIf enough ((x >>= f) c) b c' := by
  rw [bind_of_ok hx]
  exact hf

/-- What comes after the reading needs no room. -/
theorem before {x : Reader α} {f : α → Reader β} (hx : ReadsIf enough (x c) a c1)
    (hf : f a c1 = .ok b c') : ReadsIf enough ((x >>= f) c) b c' :=
  (hx.bind (of_ok hf)).of_iff (and_iff_left trivial)

/-- A rule takes one of the room. -/
theorem byRule {rule : Rule} {need room : Nat} {e : Expr}
    (h : ∀ less, ReadsIf (need ≤ less) (byRule (less + 1) rule c) e c') :
    ReadsIf (need + 1 ≤ room) (byRule room rule c) e c' := by
  cases room with
  | zero => exact ⟨fun hle => absurd hle (Nat.not_succ_le_zero need), fun _ => ⟨_, _, rfl⟩⟩
  | succ less => exact (h less).of_iff Nat.succ_le_succ_iff.symm

end ReadsIf

/-- An item of a row, with the room that is enough for it. -/
def Needs (item : Reader (Option α)) (c : Cursor) (x : Prop × α) (c' : Cursor) : Prop :=
  ReadsIf x.1 (item c) (some x.2) c' ∧ c'.tokens.length < c.tokens.length

theorem readsIf_gather {item : Reader (Option α)} {all : List (Prop × α)}
    (h : Row (Needs item) c all c') (hstop : item c' = .ok none c') {bound : List Token}
    (found : List α) (hbound : all.length ≤ bound.length) :
    ReadsIf (∀ x ∈ all, x.1) (gather item bound found c)
      (found.reverse ++ all.map Prod.snd) c' := by
  induction h generalizing bound found with
  | @nil c =>
    rw [List.map_nil, List.append_nil]
    have hnone : gather item bound found c = .ok found.reverse c := by
      cases bound with
      | nil => rfl
      | cons t bound => exact bind_of_ok hstop
    exact (ReadsIf.of_ok hnone).of_iff (by simp)
  | @cons c c1 c' x rest hfirst _ ih =>
    cases bound with
    | nil => simp at hbound
    | cons t bound =>
      have hrest := ih hstop (x.2 :: found) (Nat.le_of_succ_le_succ hbound)
      rw [List.reverse_cons, List.append_assoc] at hrest
      exact (hfirst.1.bind hrest).of_iff List.forall_mem_cons.symm

/-- Items are all read if there is room enough for each. -/
theorem readsIf_many {item : Reader (Option α)} {all : List (Prop × α)}
    (h : Row (Needs item) c all c') (hstop : item c' = .ok none c') :
    ReadsIf (∀ x ∈ all, x.1) (many item c) (all.map Prod.snd) c' := by
  have hlength := h.length fun _ _ _ hneeds => hneeds.2
  exact readsIf_gather h hstop [] (by unfold Cursor.tokens at *; omega)

end Reader

/-! ## Flat expressions -/

/-- A token that is an expression by itself, and the operators before it. -/
structure Operand where
  before : List (Mark UnaryOp)
  atom : Mark Atom

/-- An operator between two operands. -/
inductive Infix
  | binary (op : Mark BinaryOp)
  | logical (op : Mark LogicalOp)

/-- Operands with an operator between each two. -/
structure Flat where
  first : Operand
  rest : List (Infix × Operand)

namespace Operand

def tokens (x : Operand) : List Token :=
  x.before.map (fun op => op.as (.sign op.kind.sign)) ++ [x.atom.as (.atom x.atom.kind)]

/-- The operators are nested from right to left around the atom. -/
def tree (x : Operand) : Expr := x.before.foldr .unary (.atom x.atom)

end Operand

namespace Infix

def token : Infix → Token
  | binary op => op.as (.sign op.kind.sign)
  | logical op => op.as (.word (Reader.word op.kind))

/-- The rule that an operator extends. -/
def rule : Infix → Reader.Rule
  | binary op => Grammar.tierRule op.kind.tier
  | logical op => Grammar.logicalRule op.kind

/-- How tightly an operator binds: `or` is the loosest, and `*` and `/` are the tightest. -/
def rank (o : Infix) : Nat := Grammar.rank o.rule

def extension : Infix → Expr → Reader.Extension
  | binary op => .binary op
  | logical op => .logical op.kind

/-- The tree of an operator over the trees of its two sides. -/
def tree (o : Infix) (left right : Expr) : Expr := (o.extension right).apply left

end Infix

namespace Flat

def tokens (f : Flat) : List Token :=
  f.first.tokens ++ f.rest.flatMap fun p => p.1.token :: p.2.tokens

def operands (f : Flat) : List Operand := f.first :: f.rest.map Prod.snd

def operators (f : Flat) : List Infix := f.rest.map Prod.fst

/-- The length of the longest row of operators before an operand. -/
def longest (f : Flat) : Nat := (f.operands.map fun x => x.before.length).foldr max 0

/-- One flat expression, an operator, and another flat expression. -/
def joined (f : Flat) (o : Infix) (g : Flat) : Flat := ⟨f.first, f.rest ++ (o, g.first) :: g.rest⟩

theorem tokens_joined (f : Flat) (o : Infix) (g : Flat) :
    (f.joined o g).tokens = f.tokens ++ (o.token :: g.tokens) := by
  simp [tokens, joined]

theorem operands_joined (f : Flat) (o : Infix) (g : Flat) :
    (f.joined o g).operands = f.operands ++ g.operands := by
  simp [operands, joined]

theorem foldr_max_append (xs ys : List Nat) :
    (xs ++ ys).foldr max 0 = max (xs.foldr max 0) (ys.foldr max 0) := by
  induction xs with
  | nil => simp
  | cons x xs ih => rw [List.cons_append, List.foldr_cons, List.foldr_cons, ih, Nat.max_assoc]

theorem longest_joined (f : Flat) (o : Infix) (g : Flat) :
    (f.joined o g).longest = max f.longest g.longest := by
  unfold longest
  rw [operands_joined, List.map_append, foldr_max_append]

theorem operators_joined (f : Flat) (o : Infix) (g : Flat) :
    (f.joined o g).operators = f.operators ++ o :: g.operators := by
  simp [operators, joined]

end Flat

/-- The tree of a flat expression. Without operators it is that of the operand. Otherwise its root
is the last of the operators that bind loosest, over the trees of the two sides. -/
inductive Grouped : Flat → Expr → Prop
  | alone (x : Operand) : Grouped ⟨x, []⟩ x.tree
  | parted {f g : Flat} {o : Infix} {left right : Expr} :
    Grouped f left →
    Grouped g right →
    (∀ p ∈ f.operators, o.rank ≤ p.rank) →
    (∀ p ∈ g.operators, o.rank < p.rank) →
    Grouped (f.joined o g) (o.tree left right)

/-- Operators can be parted at the last of those that bind loosest. -/
theorem exists_parted {rest : List (Infix × Operand)} (h : rest ≠ []) :
    ∃ before o x after, rest = before ++ (o, x) :: after ∧
      (∀ p ∈ before, o.rank ≤ p.1.rank) ∧ ∀ p ∈ after, o.rank < p.1.rank := by
  induction rest with
  | nil => exact absurd rfl h
  | cons p rest ih =>
    by_cases hrest : rest = []
    · subst hrest
      exact ⟨[], p.1, p.2, [], rfl, nofun, nofun⟩
    · obtain ⟨before, o, x, after, rfl, hbefore, hafter⟩ := ih hrest
      by_cases hle : o.rank ≤ p.1.rank
      · exact ⟨p :: before, o, x, after, rfl, List.forall_mem_cons.mpr ⟨hle, hbefore⟩, hafter⟩
      · have hlt : p.1.rank < o.rank := Nat.lt_of_not_le hle
        refine ⟨[], p.1, p.2, _, rfl, nofun, List.forall_mem_append.mpr ⟨fun q hq => ?_, ?_⟩⟩
        · exact Nat.lt_of_lt_of_le hlt (hbefore q hq)
        · exact List.forall_mem_cons.mpr ⟨hlt, fun q hq => hlt.trans (hafter q hq)⟩

theorem exists_grouped (f : Flat) : ∃ e, Grouped f e := by
  obtain ⟨first, rest⟩ := f
  induction hsize : rest.length using Nat.strongRecOn generalizing first rest with
  | ind size ih =>
    by_cases hrest : rest = []
    · subst hrest
      exact ⟨_, .alone first⟩
    · obtain ⟨before, o, x, after, rfl, hbefore, hafter⟩ := exists_parted hrest
      rw [List.length_append, List.length_cons] at hsize
      obtain ⟨left, hleft⟩ := ih before.length (by omega) first before rfl
      obtain ⟨right, hright⟩ := ih after.length (by omega) x after rfl
      exact ⟨_, .parted hleft hright (List.forall_mem_map.mpr hbefore)
        (List.forall_mem_map.mpr hafter)⟩

/-! ## Reading them -/

namespace Grammar

open Reader (Rule Extension ReadsIf Needs Row byRule)

section Phrases

variable {c c1 c' : Cursor} {rule operand : Rule} {room : Nat} {e : Expr} {enough more : Prop}
  {x : Extension} {o : Infix}

/-- An operand of a rule is read, and what extends it. The next token may extend it still more. -/
def ReadsRow (room : Nat) (rule operand : Rule) (enough : Prop) (c : Cursor) (e : Expr)
    (c' : Cursor) : Prop :=
  ∃ fits first c1 xs, ReadsIf fits (byRule room operand c) first c1 ∧
    Row (Needs (extension? room rule)) c1 xs c' ∧
    (xs.map Prod.snd).foldl Extension.apply first = e ∧ (enough ↔ fits ∧ ∀ x ∈ xs, x.1)

theorem readsRow_alone (h : ReadsIf enough (byRule room operand c) e c') :
    ReadsRow room rule operand enough c e c' :=
  ⟨enough, e, c', [], h, .nil, rfl, by simp⟩

theorem row_snoc {α : Type} {link : Cursor → α → Cursor → Prop} {all : List α} {a : α}
    (h : Row link c all c1) (ha : link c1 a c') : Row link c (all ++ [a]) c' := by
  induction h with
  | nil => exact .cons ha .nil
  | cons hfirst _ ih => exact .cons hfirst (ih ha)

theorem ReadsRow.snoc (h : ReadsRow room rule operand enough c e c1)
    (hx : Needs (extension? room rule) c1 (more, x) c') :
    ReadsRow room rule operand (enough ∧ more) c (x.apply e) c' := by
  obtain ⟨fits, first, c2, xs, hfirst, hrow, rfl, hiff⟩ := h
  refine ⟨fits, first, c2, xs ++ [(more, x)], hfirst, row_snoc hrow hx, ?_, ?_⟩
  · rw [List.map_append, List.foldl_append]
    rfl
  · rw [hiff, List.forall_mem_append, List.forall_mem_singleton, and_assoc]

theorem ReadsRow.whole (h : ReadsRow room rule operand enough c e c')
    (hoperand : operand? rule = some operand) (hstop : extends? c'.current.kind ≠ some rule) :
    ReadsIf enough (byRule (room + 1) rule c) e c' := by
  obtain ⟨fits, first, c1, xs, hfirst, hrow, rfl, hiff⟩ := h
  rw [byRule_extended hoperand]
  have hmany := Reader.readsIf_many hrow (extension?_eq_none hoperand hstop room)
  refine ReadsIf.of_iff (hfirst.bind ?_) hiff.symm
  exact hmany.before rfl

/-- An operator and the operand after it extend what comes before. -/
theorem needs_operator (hoperand : operand? o.rule = some operand) (hspan : Span c [o.token] c1)
    (hright : ReadsIf enough (byRule room operand c1) e c')
    (hshorter : c'.tokens.length ≤ c1.tokens.length) :
    Needs (extension? room o.rule) c (enough, o.extension e) c' := by
  have hlength := hspan.length
  refine ⟨?_, by simp only [List.length_singleton] at hlength; omega⟩
  cases o with
  | binary op =>
    have htier : Reader.tierOp? op.kind.tier c.current.kind = some op.kind := by
      have hop : Reader.binaryOp? c.current.kind = some op.kind := by
        rw [hspan.current_eq]
        exact binaryOp?_iff.mpr rfl
      exact Option.filter_eq_some_iff.mpr ⟨hop, beq_self_eq_true _⟩
    have htake : Reader.take? (Reader.tierOp? op.kind.tier) c = .ok (some op) c1 := by
      refine Reader.take?_eq_ok.mpr (Or.inl ⟨op.kind, htier, ?_, ?_⟩)
      · rw [hspan.current_eq]
        rfl
      · exact hspan.eq_advance Kind.noConfusion
    change ReadsIf enough (extension? room (tierRule op.kind.tier) c) _ c'
    rw [extension?_binary hoperand]
    exact .after htake (hright.before rfl)
  | logical op =>
    have hskip : Reader.skip (.word (Reader.word op.kind)) c = .ok true c1 := by
      refine Reader.skip_eq_ok.mpr (Or.inl ⟨?_, rfl, hspan.eq_advance Kind.noConfusion⟩)
      rw [hspan.current_eq]
      rfl
    change ReadsIf enough (extension? room (logicalRule op.kind) c) _ c'
    rw [extension?_logical hoperand]
    refine .after hskip ?_
    rw [if_pos rfl]
    have hextension : ReadsIf enough ((do return Extension.logical op.kind (← byRule room operand) :
        Reader Extension) c1) (.logical op.kind e) c' := hright.before rfl
    exact hextension.before rfl

end Phrases

/-! ### Operands -/

section Operands

variable {c c' : Cursor} {room : Nat}

theorem readsIf_atom {t : Token} {a : Atom} (hspan : Span c [t] c') (ht : t.kind = .atom a)
    (hstop : extends? c'.current.kind ≠ some .suffixed) :
    ReadsIf (3 ≤ room) (byRule room .unary c) (.atom (t.as a)) c' := by
  have hcurrent := hspan.current_eq
  have htake : Reader.take? Reader.unaryOp? c = .ok none c := by
    refine Reader.take?_eq_ok.mpr (Or.inr ⟨?_, rfl, rfl⟩)
    rw [hcurrent, ht]
    rfl
  have hprimary : ∀ room, ReadsIf (0 + 1 ≤ room) (byRule room .primary c) (.atom (t.as a)) c' := by
    intro room
    refine .byRule fun less => (ReadsIf.of_ok ?_).of_iff (by simp)
    refine (bind_of_ok Reader.peek_ok).trans ?_
    rw [hcurrent, ht]
    exact (bind_of_ok (next_of_span hspan (by simp [ht]))).trans rfl
  refine .byRule fun less => .after htake ?_
  refine .byRule fun less => ?_
  have hrow : ReadsRow less .suffixed .primary (0 + 1 ≤ less) c (.atom (t.as a)) c' :=
    readsRow_alone (hprimary less)
  exact hrow.whole rfl hstop

/-- Every operator before an operand takes one of the room. -/
theorem readsIf_operand (x : Operand) (hspan : Span c x.tokens c')
    (hstop : extends? c'.current.kind ≠ some .suffixed) :
    ReadsIf (3 + x.before.length ≤ room) (byRule room .unary c) x.tree c' := by
  obtain ⟨before, atom⟩ := x
  induction before generalizing c room with
  | nil => exact readsIf_atom hspan rfl hstop
  | cons op before ih =>
    obtain ⟨c1, hopen, hrest⟩ := Span.uncons hspan
    have htake : Reader.take? Reader.unaryOp? c = .ok (some op) c1 := by
      refine Reader.take?_eq_ok.mpr (Or.inl ⟨op.kind, ?_, ?_, ?_⟩)
      · rw [hopen.current_eq]
        exact unaryOp?_iff.mpr rfl
      · rw [hopen.current_eq]
        rfl
      · exact hopen.eq_advance Kind.noConfusion
    exact .byRule fun less => .after htake ((ih hrest).before rfl)

end Operands

/-! ### Up the ladder -/

section Ladder

variable {f g : Flat} {e left right : Expr} {o : Infix} {rule operand tight : Rule}

/-- A flat expression is read by a rule as this tree. -/
def ReadsAt (f : Flat) (e : Expr) (rule : Rule) : Prop :=
  ∀ room c c', Span c f.tokens c' → EndsBefore rule c'.current.kind →
    ReadsIf (11 - rank rule + f.longest ≤ room) (byRule room rule c) e c'

/-- The same, where the next token may extend the rule. -/
def RowsAt (f : Flat) (e : Expr) (rule : Rule) : Prop :=
  ∀ operand, operand? rule = some operand → ∀ room c c', Span c f.tokens c' →
    EndsBefore operand c'.current.kind →
      ReadsRow room rule operand (11 - rank operand + f.longest ≤ room) c e c'

theorem rowsAt_of_readsAt (hoperand : operand? rule = some operand) (h : ReadsAt f e operand) :
    RowsAt f e rule := by
  intro operand' hoperand' room c c' hspan hends
  cases hoperand.symm.trans hoperand'
  exact readsRow_alone (h room c c' hspan hends)

theorem readsAt_of_rowsAt (hoperand : operand? rule = some operand) (h : RowsAt f e rule) :
    ReadsAt f e rule := by
  intro room c c' hspan hends
  obtain ⟨hoperands, hself⟩ := (endsBefore_iff hoperand).mp hends
  have hneed : 11 - rank rule + f.longest = 11 - rank operand + f.longest + 1 := by
    have hrank := rank_operand hoperand
    have hle : rank operand ≤ 10 := by cases operand <;> decide
    omega
  rw [hneed]
  exact .byRule fun less => (h operand hoperand less c c' hspan hoperands).whole hoperand hself

theorem exists_operand (hlow : 1 ≤ rank rule) (hhigh : rank rule ≤ 7) :
    ∃ operand, operand? rule = some operand := by
  cases rule <;>
    first | exact ⟨_, rfl⟩ | exact absurd hlow (by decide) | exact absurd hhigh (by decide)

theorem eq_unary (h : rank rule = 8) : rule = .unary := by
  cases rule <;> first | rfl | (revert h; decide)

theorem rank_tierRule (tier : Tier) : 2 ≤ rank (tierRule tier) ∧ rank (tierRule tier) ≤ 7 := by
  cases tier <;> decide

theorem rank_logicalRule (op : LogicalOp) :
    2 ≤ rank (logicalRule op) ∧ rank (logicalRule op) ≤ 7 := by
  cases op <;> decide

theorem rank_operator (o : Infix) : 2 ≤ o.rank ∧ o.rank ≤ 7 := by
  cases o with
  | binary op => exact rank_tierRule op.kind.tier
  | logical op => exact rank_logicalRule op.kind

/-- What is read by a rule is read by all the looser ones. -/
theorem readsAt_looser (h : ReadsAt f e tight) (htight : rank tight ≤ 8) (hlow : 1 ≤ rank rule)
    (hle : rank rule ≤ rank tight) : ReadsAt f e rule := by
  induction hsteps : rank tight - rank rule generalizing rule with
  | zero =>
    have heq : rank rule = rank tight := by omega
    by_cases hunary : rank tight = 8
    · rw [eq_unary (heq.trans hunary), ← eq_unary hunary]
      exact h
    · have hone : 1 ≤ rank tight := by omega
      obtain ⟨operand, hoperand⟩ := exists_operand hone (by omega)
      rw [eq_of_rank hoperand heq]
      exact h
  | succ steps ih =>
    obtain ⟨operand, hoperand⟩ := exists_operand hlow (by omega)
    have hrank := rank_operand hoperand
    have hreads : ReadsAt f e operand := ih (by omega) (by omega) (by omega)
    exact readsAt_of_rowsAt hoperand (rowsAt_of_readsAt hoperand hreads)

theorem extends?_token (o : Infix) : extends? o.token.kind = some o.rule := by
  cases o with
  | binary op =>
    refine extends?_eq_tier.mpr ⟨op.kind, Option.filter_eq_some_iff.mpr ⟨?_, ?_⟩⟩
    · exact binaryOp?_iff.mpr rfl
    · exact beq_self_eq_true _
  | logical op => exact extends?_word op.kind

theorem readsAt_alone (x : Operand) : ReadsAt ⟨x, []⟩ x.tree .unary := by
  intro room c c' hspan hends
  have hlongest : (Flat.mk x []).longest = x.before.length := Nat.max_zero _
  have htokens : (Flat.mk x []).tokens = x.tokens := List.append_nil _
  have hstop : extends? c'.current.kind ≠ some .suffixed := by
    intro hextends
    have hlt := hends _ hextends
    revert hlt
    decide
  rw [hlongest]
  rw [htokens] at hspan
  exact readsIf_operand x hspan hstop

/-- Two sides are read at the rule of the operator between them, the right one as an operand. -/
theorem rowsAt_joined (hoperand : operand? o.rule = some operand) (hleft : RowsAt f left o.rule)
    (hright : ReadsAt g right operand) : RowsAt (f.joined o g) (o.tree left right) o.rule := by
  intro operand' hoperand' room c c' hspan hends
  cases hoperand.symm.trans hoperand'
  rw [Flat.tokens_joined] at hspan
  obtain ⟨c1, hspan1, hspan⟩ := hspan.split
  obtain ⟨c2, hspan2, hspan3⟩ := hspan.uncons
  have hends1 : EndsBefore operand c1.current.kind := by
    rw [hspan2.current_eq]
    exact endsBefore_of_extends hoperand (extends?_token o)
  have hlength := hspan3.length
  have hneeds := needs_operator hoperand hspan2 (hright room c2 c' hspan3 hends) (by omega)
  obtain ⟨fits, first, c3, xs, hfirst, hrow, htree, hiff⟩ :=
    (hleft operand hoperand room c c1 hspan1 hends1).snoc hneeds
  refine ⟨fits, first, c3, xs, hfirst, hrow, htree, ?_⟩
  rw [← hiff, Flat.longest_joined]
  omega

/-- The tree of a flat expression is read by every rule that none of its operators is looser than. -/
theorem readsAt_of_grouped (h : Grouped f e) :
    (∀ rule, 1 ≤ rank rule → rank rule ≤ 8 → (∀ p ∈ f.operators, rank rule ≤ p.rank) →
      ReadsAt f e rule) ∧
    ∀ rule, 1 ≤ rank rule → rank rule ≤ 7 → (∀ p ∈ f.operators, rank rule ≤ p.rank) →
      RowsAt f e rule := by
  induction h with
  | alone x =>
    have hreads (rule : Rule) (hlow : 1 ≤ rank rule) (hhigh : rank rule ≤ 8) :
        ReadsAt ⟨x, []⟩ x.tree rule := readsAt_looser (readsAt_alone x) (by decide) hlow hhigh
    refine ⟨fun rule hlow hhigh _ => hreads rule hlow hhigh, fun rule hlow hhigh _ => ?_⟩
    obtain ⟨operand, hoperand⟩ := exists_operand hlow hhigh
    have hrank := rank_operand hoperand
    exact rowsAt_of_readsAt hoperand (hreads operand (by omega) (by omega))
  | @parted f g o left right _ _ hbefore hafter ihleft ihright =>
    obtain ⟨hlow, hhigh⟩ := rank_operator o
    obtain ⟨operand, hoperand⟩ := exists_operand (Nat.le_of_succ_le hlow) hhigh
    have hrank := rank_operand hoperand
    have hrows : RowsAt (f.joined o g) (o.tree left right) o.rule := by
      apply rowsAt_joined hoperand (ihleft.2 o.rule (Nat.le_of_succ_le hlow) hhigh hbefore)
      refine ihright.1 operand (by omega) (Nat.le_trans hrank.le (Nat.succ_le_succ hhigh)) ?_
      intro p hp
      exact hrank.le.trans (hafter p hp)
    have hreads (rule : Rule) (hone : 1 ≤ rank rule) (hle : rank rule ≤ o.rank) :
        ReadsAt (f.joined o g) (o.tree left right) rule :=
      readsAt_looser (readsAt_of_rowsAt hoperand hrows) (Nat.le_succ_of_le hhigh) hone hle
    have hself {rule : Rule} (hall : ∀ p ∈ (f.joined o g).operators, rank rule ≤ p.rank) :
        rank rule ≤ o.rank := by
      refine hall o ?_
      rw [Flat.operators_joined]
      exact List.mem_append_right _ List.mem_cons_self
    refine ⟨fun rule hone _ hall => hreads rule hone (hself hall), fun rule hone _ hall => ?_⟩
    have hle := hself hall
    by_cases heq : rank rule = o.rank
    · rw [eq_of_rank hoperand heq]
      exact hrows
    · obtain ⟨next, hnext⟩ := exists_operand hone (hle.trans hhigh)
      have hsucc := rank_operand hnext
      exact rowsAt_of_readsAt hnext (hreads next (by omega) (by omega))

end Ladder

end Grammar

/-! ## The tree that is read -/

section Expressions

open Reader (ReadsIf TooDeep)

variable {f : Flat} {e : Expr} {c c' : Cursor}

theorem reads_expression (h : Grouped f e) (hspan : Span c f.tokens c')
    (hnext : Grammar.extends? c'.current.kind = none) (room : Nat) :
    ReadsIf (12 + f.longest ≤ room) (Reader.expression room c) e c' := by
  have hchoice := (Grammar.readsAt_of_grouped h).1 .choice (by decide) (by decide)
    fun p _ => Nat.le_of_succ_le (Grammar.rank_operator p).1
  have hequal : c'.current.kind ≠ .sign .equal := by
    intro heq
    rw [heq] at hnext
    cases hnext
  have hassignment (room : Nat) :
      ReadsIf (10 + f.longest + 1 ≤ room) (Reader.byRule room .assignment c) e c' := by
    refine .byRule fun less => ?_
    have hread := hchoice less c c' hspan (Grammar.endsBefore_of_none hnext)
    exact hread.before (bind_of_ok (Grammar.sees_of_ne hequal))
  have hexpression : ReadsIf (10 + f.longest + 1 + 1 ≤ room) (Reader.expression room c) e c' :=
    .byRule hassignment
  exact hexpression.of_iff (by omega)

/-- A flat expression has one tree, for no more than one is read. -/
theorem grouped_unique {other : Expr} (h : Grouped f e) (hother : Grouped f other) :
    other = e := by
  obtain ⟨c, hspan⟩ := Span.exists_to f.tokens (Cursor.closed_endMark (endMark 1) 1)
  have hread := (reads_expression h hspan rfl _).1 (Nat.le_refl _)
  rw [(reads_expression hother hspan rfl _).1 (Nat.le_refl _), EStateM.Result.ok.injEq] at hread
  exact hread.1

/-- A flat expression has one tree, which is parted at the last of the operators that bind loosest.
Before a token that extends no expression it is read as this tree, and all of it is taken. It needs
room for the twelve rules of the ladder, and for the longest row of operators before an operand. -/
theorem flat_expressions_are_parted_at_the_last_loosest_operator (f : Flat) :
    ∃ e, Grouped f e ∧ (∀ other, Grouped f other → other = e) ∧
      ∀ c c', Span c f.tokens c' → Grammar.extends? c'.current.kind = none → ∀ room,
        (12 + f.longest ≤ room → Reader.expression room c = .ok e c') ∧
        (room < 12 + f.longest → TooDeep (Reader.expression room c)) := by
  obtain ⟨e, he⟩ := exists_grouped f
  refine ⟨e, he, fun other => grouped_unique he, fun c c' hspan hnext room => ?_⟩
  have hread := reads_expression he hspan hnext room
  exact ⟨hread.1, fun hlt => hread.2 (Nat.not_le_of_lt hlt)⟩

/-- The digit `1`, with minus signs before it. -/
def negatedOne (signs : Nat) : Operand :=
  ⟨List.replicate signs ⟨.minus, "-", 1⟩, ⟨.number, "1", 1⟩⟩

def minusSign : Infix := .binary ⟨.minus, "-", 1⟩

theorem two_minus_signs_are_parted_at_the_last :
    let f : Flat := ⟨negatedOne 0, [(minusSign, negatedOne 1), (minusSign, negatedOne 0)]⟩
    let next : Token := ⟨.sign .semicolon, ";", 1⟩
    Grammar.extends? next.kind = none ∧ 12 + f.longest ≤ standardRoom ∧
      ∃ c, Span c f.tokens ⟨next, [endMark 1]⟩ ∧ Reader.expression standardRoom c =
        .ok (.binary (.binary (negatedOne 0).tree ⟨.minus, "-", 1⟩ (negatedOne 1).tree)
          ⟨.minus, "-", 1⟩ (negatedOne 0).tree) ⟨next, [endMark 1]⟩ := by
  intro f next
  have hroom : 12 + f.longest ≤ standardRoom := by decide
  obtain ⟨e, -, hunique, hread⟩ := flat_expressions_are_parted_at_the_last_loosest_operator f
  have hleft : Grouped ⟨negatedOne 0, [(minusSign, negatedOne 1)]⟩
      (minusSign.tree (negatedOne 0).tree (negatedOne 1).tree) :=
    .parted (.alone (negatedOne 0)) (.alone (negatedOne 1)) nofun nofun
  have hwhole : Grouped f (minusSign.tree (minusSign.tree (negatedOne 0).tree (negatedOne 1).tree)
      (negatedOne 0).tree) :=
    .parted hleft (.alone (negatedOne 0)) (List.forall_mem_singleton.mpr (Nat.le_refl _)) nofun
  obtain ⟨c, hspan⟩ := Span.exists_to f.tokens (Cursor.closed_endMark next 1)
  refine ⟨rfl, hroom, c, hspan, ?_⟩
  rw [(hread c _ hspan rfl standardRoom).1 hroom, ← hunique _ hwhole]
  rfl

/-- A long row of signs before one operand is a flat expression for which there is no room. -/
theorem a_long_row_of_minus_signs_is_too_deep :
    let f : Flat := ⟨negatedOne 25000, []⟩
    let next : Token := ⟨.sign .semicolon, ";", 1⟩
    Grammar.extends? next.kind = none ∧ ∃ c, Span c f.tokens ⟨next, [endMark 1]⟩ ∧
      TooDeep (Reader.expression standardRoom c) ∧
      ∀ e c', Reader.expression standardRoom c ≠ .ok e c' := by
  intro f next
  have hlongest : f.longest = 25000 := (Nat.max_zero _).trans List.length_replicate
  obtain ⟨c, hspan⟩ := Span.exists_to f.tokens (Cursor.closed_endMark next 1)
  have hdeep : TooDeep (Reader.expression standardRoom c) := by
    refine (reads_expression (.alone (negatedOne 25000)) hspan rfl standardRoom).2 ?_
    rw [hlongest]
    decide
  refine ⟨rfl, c, hspan, hdeep, fun e c' hread => ?_⟩
  obtain ⟨t, c1, hdeep⟩ := hdeep
  rw [hread] at hdeep
  cases hdeep

end Expressions

end FunkLang
