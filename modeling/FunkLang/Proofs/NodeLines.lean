-- Lines of nodes. Every node of a tree that was read stands on tokens that the grammar derives it
-- from, and its parts stand on tokens among these, one after the other in the order of the source.
-- The line of a node is that of its first token, where parentheses around an expression do not
-- count. Lines go up along a script, so along a tree they do not go down either.
import FunkLang.Proofs.ReadDerivations
import FunkLang.Proofs.Splitting
import FunkLang.Proofs.Parts

namespace FunkLang

open Grammar (Symbol Derives operand? assignment? Ended derived_of_parsed)
open Reader (Rule Place Extension)

/-! ## Nodes in the order of the source -/

/-- The parts of an expression as they are written. A choice has its first value in front. -/
def Expr.inOrder : Expr → List Expr
  | choice condition yes no => [yes, condition, no]
  | e => e.parts

namespace Part

def line : Part → Int
  | expr e => e.line
  | stmt s => s.line

/-- The nodes right below a node. The body of a function is a block. -/
def inOrder : Part → List Part
  | expr e => e.inOrder.map expr
  | stmt (.funk _ _ _ bodyLine body) => [stmt (.block bodyLine body)]
  | stmt s => (stmt s).subparts

/-- The token may be the first one of the node. A parenthesis before an expression groups. -/
def mayBegin : Part → Token → Bool
  | expr _, t => t.kind != .sign .leftParen
  | stmt _, _ => true

/-- The grammar derives the node from the tokens. -/
def DerivedFrom : Part → List Token → Prop
  | expr e, ts => ∃ rule, Derives (.phrase rule) ts e
  | stmt s, ts => ∃ place, Derives (.statement place) ts s

/-- A node is derived from the tokens, and its line is that of the first of them. -/
structure StandsOn (p : Part) (ts : List Token) : Prop where
  derived : p.DerivedFrom ts
  line : (ts.find? p.mayBegin).map Mark.line = some p.line

end Part

/-- Nodes stand on tokens, each on those after the ones of the node before it, and so do all nodes
below them. There may be other tokens between them. -/
inductive Placed : List Part → List Token → Prop
  | nil : Placed [] []
  | skip {t : Token} {ps ts} : Placed ps ts → Placed ps (t :: ts)
  | node {p ps us vs} :
    p.StandsOn us → Placed p.inOrder us → Placed ps vs → Placed (p :: ps) (us ++ vs)

namespace Placed

variable {ps qs : List Part} {ts us : List Token} {p : Part}

theorem before (ts : List Token) (h : Placed ps us) : Placed ps (ts ++ us) := by
  induction ts with
  | nil => exact h
  | cons t ts ih => exact .skip ih

theorem none (ts : List Token) : Placed [] ts := by
  have hnone : Placed [] (ts ++ []) := .before ts .nil
  rwa [List.append_nil] at hnone

theorem append (h : Placed ps ts) (h' : Placed qs us) : Placed (ps ++ qs) (ts ++ us) := by
  induction h with
  | nil => exact h'
  | skip _ ih => exact .skip ih
  | node hp hparts _ _ ih =>
    rw [List.append_assoc]
    exact .node hp hparts ih

theorem after (us : List Token) (h : Placed ps ts) : Placed ps (ts ++ us) := by
  have hafter := h.append (.none us)
  rwa [List.append_nil] at hafter

theorem inside (h : Placed ps ts) (opening : Token) (us : List Token) :
    Placed ps (opening :: (ts ++ us)) := .skip (h.after us)

end Placed

/-- A node stands on exactly these tokens, and all below it stands on some of them. -/
structure Part.Fills (p : Part) (ts : List Token) : Prop where
  self : p.StandsOn ts
  below : Placed p.inOrder ts

theorem Part.Fills.placed {p : Part} {ts : List Token} (h : p.Fills ts) : Placed [p] ts := by
  have hplaced : Placed [p] (ts ++ []) := .node h.self h.below .nil
  rwa [List.append_nil] at hplaced

/-! ## Expressions -/

/-- The nodes of an extension. What it extends comes before them. -/
def Reader.Extension.nodes : Extension → List Part
  | call arguments => arguments.map .expr
  | index place => [.expr place]
  | field _ => []
  | binary _ right => [.expr right]
  | logical _ right => [.expr right]
  | choice condition no => [.expr condition, .expr no]

theorem inOrder_apply (e : Expr) (x : Extension) :
    (Part.expr (x.apply e)).inOrder = .expr e :: x.nodes := by
  cases x <;> rfl

theorem line_apply (e : Expr) (x : Extension) : (x.apply e).line = e.line := by
  cases x <;> rfl

namespace Grammar

section Expressions

variable {rule operand : Rule} {ts us : List Token} {e : Expr} {x : Extension}

theorem derives_many_append {item : Symbol} {all more : List item.Tree}
    (h : Derives (.many item) ts all) (hmore : Derives (.many item) us more) :
    Derives (.many item) (ts ++ us) (all ++ more) := by
  induction all generalizing ts with
  | nil =>
    cases h
    exact hmore
  | cons first rest ih =>
    cases h with
    | more hfirst hrest =>
      rw [List.append_assoc]
      exact .more hfirst (ih hrest)

/-- What may be extended may be extended once more. -/
theorem derives_apply (hoperand : operand? rule = some operand) (h : Derives (.phrase rule) ts e)
    (hx : Derives (.extension rule) us x) : Derives (.phrase rule) (ts ++ us) (x.apply e) := by
  cases h with
  | @extended _ operand ts vs first extensions hoperand hfirst hextensions =>
    have hone : Derives (.many (.extension rule)) us [x] := by
      have hmore := Derives.more hx .none
      rwa [List.append_nil] at hmore
    have hall := Derives.extended hoperand hfirst (derives_many_append hextensions hone)
    rw [List.foldl_append, ← List.append_assoc] at hall
    exact hall
  | _ => cases hoperand

theorem find?_append_of_line {p : Part} (us : List Token)
    (h : (ts.find? p.mayBegin).map Mark.line = some p.line) :
    ((ts ++ us).find? p.mayBegin).map Mark.line = some p.line := by
  rw [List.find?_append]
  cases hfirst : ts.find? p.mayBegin with
  | none =>
    rw [hfirst] at h
    cases h
  | some t =>
    rw [hfirst] at h
    exact h

/-- An extension goes on with the node before it. -/
theorem fills_apply (hderived : Derives (.phrase rule) (ts ++ us) (x.apply e))
    (he : (Part.expr e).Fills ts) (hx : Placed x.nodes us) :
    (Part.expr (x.apply e)).Fills (ts ++ us) := by
  constructor
  · refine ⟨⟨rule, hderived⟩, ?_⟩
    have hline := find?_append_of_line us he.self.line
    change _ = some (x.apply e).line
    rw [line_apply]
    exact hline
  · rw [inOrder_apply]
    exact .node he.self he.below hx

theorem fills_assignment {equals : Token} {target value e : Expr}
    (hderived : Derives (.phrase .assignment) (ts ++ equals :: us) e)
    (hassign : assignment? value target = some e) (htarget : (Part.expr target).Fills ts)
    (hvalue : (Part.expr value).Fills us) : (Part.expr e).Fills (ts ++ equals :: us) := by
  have hline := find?_append_of_line (equals :: us) htarget.self.line
  have hrest : Placed [.expr value] (equals :: us) := .skip hvalue.placed
  have hbelow := htarget.below.append hrest
  unfold assignment? at hassign
  split at hassign <;> cases hassign
  · exact ⟨⟨⟨_, hderived⟩, hline⟩, hbelow⟩
  · exact ⟨⟨⟨_, hderived⟩, hline⟩, hbelow⟩
  · exact ⟨⟨⟨_, hderived⟩, hline⟩, hbelow⟩

/-- An expression whose first token does not group. -/
theorem fills_first {first : Token} {ts : List Token}
    (hderived : Derives (.phrase rule) (first :: ts) e)
    (hkind : first.kind ≠ .sign .leftParen) (hline : first.line = e.line)
    (hbelow : Placed (Part.expr e).inOrder (first :: ts)) : (Part.expr e).Fills (first :: ts) := by
  refine ⟨⟨⟨rule, hderived⟩, ?_⟩, hbelow⟩
  have hbegins : (Part.expr e).mayBegin first = true := bne_iff_ne.mpr hkind
  rw [List.find?_cons_of_pos hbegins, Option.map_some, hline]
  rfl

/-- Parentheses group: the node stands on them too, and they are not its first token. -/
theorem fills_group {opening closing : Token}
    (hderived : Derives (.phrase rule) (opening :: (ts ++ [closing])) e)
    (hopening : opening.kind = .sign .leftParen) (h : (Part.expr e).Fills ts) :
    (Part.expr e).Fills (opening :: (ts ++ [closing])) := by
  refine ⟨⟨⟨rule, hderived⟩, ?_⟩, h.below.inside opening [closing]⟩
  have hgroups : ¬ (Part.expr e).mayBegin opening = true := by
    simp [Part.mayBegin, hopening]
  rw [List.find?_cons_of_neg hgroups]
  exact find?_append_of_line [closing] h.self.line

end Expressions

/-! ## Trees -/

/-- Trees one after the other, each on its own tokens. -/
inductive InTurn {α : Type} (link : List Token → α → Prop) : List Token → List α → Prop
  | nil : InTurn link [] []
  | cons {a us vs rest} : link us a → InTurn link vs rest → InTurn link (us ++ vs) (a :: rest)

/-- The topmost nodes of a tree. -/
def nodes : (s : Symbol) → s.Tree → List Part
  | .phrase _, e => [.expr e]
  | .extension _, x => x.nodes
  | .entry, (_, value) => [.expr value]
  | .parameters, _ | .nextName, _ => []
  | .statement _, s => [.stmt s]
  | .many item, all | .separated item, all => all.flatMap (nodes item)

/-- The nodes of a tree stand on the tokens that it is derived from. -/
def TreePlaced : (s : Symbol) → List Token → s.Tree → Prop
  | .phrase _, ts, e => (Part.expr e).Fills ts
  | .statement _, ts, s => (Part.stmt s).Fills ts
  | .many item, ts, all => InTurn (fun ts a => Derives item ts a ∧ TreePlaced item ts a) ts all
  | s, ts, a => Placed (nodes s a) ts

theorem nodes_phrases (rule : Rule) (all : List Expr) :
    nodes (.separated (.phrase rule)) all = all.map .expr := List.map_eq_flatMap.symm

theorem nodes_entries (all : List (Name × Expr)) :
    nodes (.separated .entry) all = (all.map (·.2)).map .expr := by
  rw [List.map_map]
  exact List.map_eq_flatMap.symm

theorem nodes_stmts (place : Place) (all : List Stmt) :
    nodes (.many (.statement place)) all = all.map .stmt := List.map_eq_flatMap.symm

theorem InTurn.placed {α : Type} {link : List Token → α → Prop} {f : α → List Part}
    {ts : List Token} {all : List α} (h : InTurn link ts all)
    (hlink : ∀ ts a, link ts a → Placed (f a) ts) : Placed (all.flatMap f) ts := by
  induction h with
  | nil => exact .nil
  | cons ha _ ih => exact (hlink _ _ ha).append ih

theorem TreePlaced.placed {s : Symbol} {ts : List Token} {a : s.Tree} (h : TreePlaced s ts a) :
    Placed (nodes s a) ts := by
  induction s generalizing ts with
  | phrase | statement => exact Part.Fills.placed h
  | many item ih => exact InTurn.placed h fun ts a ha => ih ha.2
  | _ => exact h

theorem fills_extended {rule operand : Rule} {ts us : List Token} {e : Expr}
    {extensions : List Extension} (hoperand : operand? rule = some operand)
    (hderived : Derives (.phrase rule) ts e) (he : (Part.expr e).Fills ts)
    (h : TreePlaced (.many (.extension rule)) us extensions) :
    (Part.expr (extensions.foldl Extension.apply e)).Fills (ts ++ us) := by
  change InTurn (fun ts x => Derives (.extension rule) ts x ∧ Placed x.nodes ts) us extensions at h
  induction h generalizing ts e with
  | nil => rwa [List.append_nil]
  | cons hx _ ih =>
    have hderived' := derives_apply hoperand hderived hx.1
    have hnext := ih hderived' (fills_apply hderived' he hx.2)
    rwa [List.append_assoc] at hnext

/-- A statement begins with its first token, whatever that is. -/
theorem fills_stmt {place : Place} {first : Token} {ts : List Token} {s : Stmt}
    (hderived : Derives (.statement place) (first :: ts) s) (hline : first.line = s.line)
    (hbelow : Placed (Part.stmt s).inOrder ts) : (Part.stmt s).Fills (first :: ts) :=
  ⟨⟨⟨place, hderived⟩, congrArg some hline⟩, .skip hbelow⟩

theorem ne_leftParen_of_unaryOp? {kind : Kind} {op : UnaryOp} (h : Reader.unaryOp? kind = some op) :
    kind ≠ .sign .leftParen := by
  rintro rfl
  cases h

/-- Every tree that is derived stands on its tokens. -/
theorem Derives.placed {s : Symbol} {ts : List Token} {a : s.Tree} (h : Derives s ts a) :
    TreePlaced s ts a := by
  induction h with
  | expression _ ih | unassigned _ ih | suffixed _ ih | argument _ ih | element _ ih | body _ ih =>
    exact ih
  | assignment htarget hequals hvalue hassign ihtarget ihvalue =>
    exact fills_assignment (.assignment htarget hequals hvalue hassign) hassign ihtarget ihvalue
  | extended hoperand hfirst _ ihfirst ihextensions =>
    have hderived := Derives.extended hoperand hfirst .none
    rw [List.append_nil] at hderived
    exact fills_extended hoperand hderived ihfirst ihextensions
  | unary hop hoperand ih =>
    have hplaced := Part.Fills.placed ih
    exact fills_first (.unary hop hoperand) (ne_leftParen_of_unaryOp? hop) rfl (.skip hplaced)
  | atom hkind =>
    exact fills_first (.atom hkind) (by simp [hkind]) rfl (.none _)
  | list hopening helements hclosing ih =>
    have hplaced := TreePlaced.placed (s := .separated (.phrase .element)) ih
    rw [nodes_phrases] at hplaced
    refine fills_first (.list hopening helements hclosing) ?_ rfl (hplaced.inside _ _)
    rw [hopening]
    decide
  | record hopening hentries hclosing ih =>
    have hplaced := TreePlaced.placed (s := .separated .entry) ih
    rw [nodes_entries] at hplaced
    refine fills_first (.record hopening hentries hclosing) ?_ rfl (hplaced.inside _ _)
    rw [hopening]
    decide
  | group hopening hinner hclosing ih =>
    exact fills_group (.group hopening hinner hclosing) hopening ih
  | entry _ _ _ ih => exact .skip (.skip (Part.Fills.placed ih))
  | @choice opening between ts us condition no _ _ _ _ ihcondition ihno =>
    have hno : Placed [.expr no] (between :: us) := .skip (Part.Fills.placed ihno)
    exact .skip ((Part.Fills.placed ihcondition).append hno)
  | logical _ _ _ _ ih | binary _ _ _ _ ih => exact .skip (Part.Fills.placed ih)
  | call _ _ _ ih =>
    have hplaced := TreePlaced.placed (s := .separated (.phrase .argument)) ih
    rw [nodes_phrases] at hplaced
    exact hplaced.inside _ _
  | index _ _ _ ih => exact (Part.Fills.placed ih).inside _ _
  | field => exact .none _
  | none => exact .nil
  | more hfirst _ ihfirst ihrest => exact .cons ⟨hfirst, ihfirst⟩ ihrest
  | empty => exact .nil
  | last _ ih =>
    have hplaced := TreePlaced.placed ih
    change Placed (List.flatMap _ [_]) _
    rwa [List.flatMap_singleton]
  | before _ _ _ ihfirst ihrest => exact (TreePlaced.placed ihfirst).append (.skip ihrest)
  | print hopening hvalue hclosing ih =>
    exact fills_stmt (.print hopening hvalue hclosing) rfl ((Part.Fills.placed ih).after _)
  | block hopening hbody hclosing ih =>
    have hplaced := TreePlaced.placed (s := .many (.statement .list)) ih
    rw [nodes_stmts] at hplaced
    exact fills_stmt (.block hopening hbody hclosing) rfl (hplaced.after _)
  | if_ hopening hcondition hyes hapart ihcondition ihyes =>
    refine fills_stmt (.if_ hopening hcondition hyes hapart) rfl ?_
    exact (Part.Fills.placed ihcondition).append (Part.Fills.placed ihyes)
  | @ifElse opening between ts us vs condition yes no hopening hcondition hyes hapart htakes
      hbetween hno ihcondition ihyes ihno =>
    refine fills_stmt (.ifElse hopening hcondition hyes hapart htakes hbetween hno) rfl ?_
    have helse : Placed [.stmt no] (between :: vs) := .skip (Part.Fills.placed ihno)
    exact (Part.Fills.placed ihcondition).append ((Part.Fills.placed ihyes).append helse)
  | while_ hopening hcondition hbody hapart ihcondition ihbody =>
    refine fills_stmt (.while_ hopening hcondition hbody hapart) rfl ?_
    exact (Part.Fills.placed ihcondition).append (Part.Fills.placed ihbody)
  | return_ hopening hclosing => exact fills_stmt (.return_ hopening hclosing) rfl (.none _)
  | returnValue hopening hvalue hclosing ih =>
    exact fills_stmt (.returnValue hopening hvalue hclosing) rfl ((Part.Fills.placed ih).after _)
  | @with_ opening between title ts us value body hopening hvalue hbetween htitle hbody ihvalue
      ihbody =>
    refine fills_stmt (.with_ hopening hvalue hbetween htitle hbody) rfl ?_
    have hrest : Placed [.stmt body] (between :: title :: us) :=
      .skip (.skip (Part.Fills.placed ihbody))
    exact (Part.Fills.placed ihvalue).append hrest
  | for_ hopening htitle hbetween hitems hbody hapart ihitems ihbody =>
    refine fills_stmt (.for_ hopening htitle hbetween hitems hbody hapart) rfl (.skip (.skip ?_))
    exact (Part.Fills.placed ihitems).append (Part.Fills.placed ihbody)
  | value hvalue hkind hclosing ih =>
    -- The statement begins with its expression, parentheses included.
    refine ⟨⟨⟨_, .value hvalue hkind hclosing⟩, rfl⟩, ?_⟩
    exact (Part.Fills.placed ih).after _
  | noParameters | someParameters | nextName => exact .none _
  | @funk opening title before after brace closing ts us params body hopening htitle hbefore hparams
      hafter hbrace hbody hclosing _ ih =>
    have hplaced := TreePlaced.placed (s := .many (.statement .list)) ih
    rw [nodes_stmts] at hplaced
    have hblock : (Part.stmt (.block brace.line body)).Fills (brace :: (us ++ [closing])) :=
      fills_stmt (.block hbrace hbody hclosing) rfl (hplaced.after _)
    refine fills_stmt (.funk hopening htitle hbefore hparams hafter hbrace hbody hclosing) rfl ?_
    exact .skip (.skip (.before ts (.skip hblock.placed)))
  | make hopening htitle hclosing =>
    exact fills_stmt (.make hopening htitle hclosing) rfl (.none _)
  | makeValue hopening htitle hequals hvalue hclosing ih =>
    refine fills_stmt (.makeValue hopening htitle hequals hvalue hclosing) rfl (.skip (.skip ?_))
    exact (Part.Fills.placed ih).after _

end Grammar

/-! ## Lines that rise -/

/-- From one token to the next, the line does not go down. -/
def LinesRise (ts : List Token) : Prop := ts.Pairwise fun t u => t.line ≤ u.line

section Rising

variable {p q : Part} {ps : List Part} {t : Token} {ts : List Token}

end Rising

/-! ## Tokens of a script -/

theorem lineEnds_nonneg (text : List Char) : 0 ≤ lineEnds text := Int.natCast_nonneg _

/-- The tokens of a split are on lines from that where it begins to that where it ends, in order. -/
theorem Split.lines {before rest : List Char} {pieces : List Piece} (h : Split before pieces rest) :
    LinesRise (tokensOf pieces) ∧ ∀ t ∈ tokensOf pieces, 1 + lineEnds before ≤ t.line ∧
      t.line ≤ 1 + lineEnds (before ++ textOf pieces) := by
  induction h with
  | done => exact ⟨.nil, nofun⟩
  | @piece before p pieces rest hfits _ ih =>
    obtain ⟨hrise, hall⟩ := ih
    rw [textOf_cons, ← List.append_assoc]
    have hstart : lineEnds before ≤ lineEnds (before ++ p.text) := by
      rw [lineEnds_append]
      exact Int.le_add_of_nonneg_right (lineEnds_nonneg _)
    have hend : lineEnds (before ++ p.text) ≤ lineEnds (before ++ p.text ++ textOf pieces) := by
      rw [lineEnds_append (before ++ p.text)]
      exact Int.le_add_of_nonneg_right (lineEnds_nonneg _)
    cases hfits with
    | layout _ =>
      refine ⟨hrise, fun t ht => ?_⟩
      obtain ⟨hlow, hhigh⟩ := hall t ht
      exact ⟨by omega, hhigh⟩
    | @token first written _ _ _ hline =>
      refine ⟨List.pairwise_cons.mpr ⟨fun t ht => ?_, hrise⟩, fun t ht => ?_⟩
      · obtain ⟨hlow, -⟩ := hall t ht
        omega
      · rcases List.mem_cons.mp ht with rfl | ht
        · exact ⟨by omega, by omega⟩
        · obtain ⟨hlow, hhigh⟩ := hall t ht
          exact ⟨by omega, hhigh⟩

end FunkLang
