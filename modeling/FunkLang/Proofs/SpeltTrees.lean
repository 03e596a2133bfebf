-- Trees of spelt tokens. In a tree that is derived from tokens that are each
-- spelt in the way of its kind, every name, operator and literal is so too.
import FunkLang.Proofs.Cutting
import FunkLang.Proofs.Grammar
import FunkLang.Proofs.Parts

namespace FunkLang

/-! ## Operators as signs -/

def UnaryOp.sign : UnaryOp → Sign
  | minus => .minus
  | not => .bang

def BinaryOp.sign : BinaryOp → Sign
  | times => .star
  | divide => .slash
  | plus => .plus
  | minus => .minus
  | less => .less
  | lessEqual => .lessEqual
  | greater => .greater
  | greaterEqual => .greaterEqual
  | equal => .equalEqual
  | unequal => .bangEqual

theorem unaryOp?_iff {kind : Kind} {op : UnaryOp} :
    Reader.unaryOp? kind = some op ↔ kind = .sign op.sign := by
  constructor
  · intro h
    cases kind with
    | sign s => cases s <;> cases h <;> rfl
    | _ => cases h
  · rintro rfl
    cases op <;> rfl

theorem binaryOp?_iff {kind : Kind} {op : BinaryOp} :
    Reader.binaryOp? kind = some op ↔ kind = .sign op.sign := by
  constructor
  · intro h
    cases kind with
    | sign s => cases s <;> cases h <;> rfl
    | _ => cases h
  · rintro rfl
    cases op <;> rfl

/-! ## Spelt parts -/

/-- A token is spelt in the way of its kind. -/
def Mark.IsSpelt (t : Token) : Prop := Spelt t.kind t.text.toList

def Name.IsSpelt (n : Name) : Prop := Spelt (.atom .name) n.text.toList

/-- The marks that an expression has apart from those of its parts are spelt. -/
def Expr.MarksSpelt : Expr → Prop
  | .atom mark => Spelt (.atom mark.kind) mark.text.toList
  | .unary op _ => op.text.toList = op.kind.sign.spelling
  | .binary _ op _ => op.text.toList = op.kind.sign.spelling
  | .assign name _ | .assignField _ name _ | .field _ name => name.IsSpelt
  | .record _ entries => ∀ entry ∈ entries, entry.1.IsSpelt
  | _ => True

namespace Part

/-- A law holds of all expressions that stand in a part, at any depth. -/
def Throughout (law : Expr → Prop) (p : Part) : Prop := ∀ e, p.Contains (.expr e) → law e

variable {law : Expr → Prop}

theorem Throughout.part {p q : Part} (h : p.Throughout law) (hq : q ∈ p.subparts) :
    q.Throughout law := fun e he => h e (he.head hq)

theorem Throughout.within {p q : Part} (h : p.Throughout law) (hq : p.Contains q) :
    q.Throughout law := fun e he => h e (hq.trans he)

theorem throughout_stmt {s : Stmt} :
    (stmt s).Throughout law ↔ ∀ q ∈ (stmt s).subparts, q.Throughout law := by
  refine ⟨fun h q hq => h.part hq, fun h e he => ?_⟩
  rcases he.cases_head with heq | ⟨q, hq, he⟩
  · cases heq
  · exact h q hq e he

theorem throughout_expr {e : Expr} :
    (expr e).Throughout law ↔ law e ∧ ∀ part ∈ e.parts, (expr part).Throughout law := by
  constructor
  · intro h
    exact ⟨h e .refl, fun part hpart => h.part (List.mem_map_of_mem hpart)⟩
  · rintro ⟨hself, hparts⟩ e' he
    rcases he.cases_head with heq | ⟨q, hq, he⟩
    · cases heq
      exact hself
    · obtain ⟨part, hpart, rfl⟩ := List.mem_map.mp hq
      exact hparts part hpart e' he

end Part

/-! ## From tokens to trees -/

namespace Grammar

open Reader (Rule Place Extension)

/-- All marks of a tree are spelt. -/
def TreeSpelt : (s : Symbol) → s.Tree → Prop
  | .phrase _, e => (Part.expr e).Throughout Expr.MarksSpelt
  | .extension _, x => ∀ e, (Part.expr e).Throughout Expr.MarksSpelt →
    (Part.expr (x.apply e)).Throughout Expr.MarksSpelt
  | .entry, (key, value) => key.IsSpelt ∧ (Part.expr value).Throughout Expr.MarksSpelt
  | .parameters, _ | .nextName, _ => True
  | .statement _, s => (Part.stmt s).Throughout Expr.MarksSpelt
  | .many item, all | .separated item, all => ∀ a ∈ all, TreeSpelt item a

theorem treeSpelt_foldl {rule : Rule} {first : Expr} {extensions : List Extension}
    (hfirst : (Part.expr first).Throughout Expr.MarksSpelt)
    (h : TreeSpelt (.many (.extension rule)) extensions) :
    (Part.expr (extensions.foldl Extension.apply first)).Throughout Expr.MarksSpelt := by
  induction extensions generalizing first with
  | nil => exact hfirst
  | cons x rest ih =>
    have hx : TreeSpelt (.extension rule) x := h x List.mem_cons_self
    exact ih (hx first hfirst) fun a ha => h a (List.mem_cons_of_mem _ ha)

theorem treeSpelt_assignment {value target e : Expr}
    (h : assignment? value target = some e)
    (htarget : (Part.expr target).Throughout Expr.MarksSpelt)
    (hvalue : (Part.expr value).Throughout Expr.MarksSpelt) :
    (Part.expr e).Throughout Expr.MarksSpelt := by
  rw [Part.throughout_expr] at htarget
  obtain ⟨hself, hparts⟩ := htarget
  unfold assignment? at h
  split at h <;> cases h <;> rw [Part.throughout_expr]
  · refine ⟨hself, ?_⟩
    simpa [Expr.parts] using hvalue
  · refine ⟨trivial, ?_⟩
    simpa [Expr.parts, hvalue] using hparts
  · refine ⟨hself, ?_⟩
    simpa [Expr.parts, hvalue] using hparts

theorem sign_text {t : Token} {s : Sign} (h : t.IsSpelt) (hkind : t.kind = .sign s) :
    t.text.toList = s.spelling := by
  unfold Mark.IsSpelt at h
  rw [hkind] at h
  exact h.eq_spelling

theorem Derives.spelt {s : Symbol} {ts : List Token} {a : s.Tree} (h : Derives s ts a)
    (hts : ∀ t ∈ ts, t.IsSpelt) : TreeSpelt s a := by
  induction h with
  | expression _ ih | argument _ ih | element _ ih | unassigned _ ih | suffixed _ ih | body _ ih =>
    exact ih hts
  | assignment _ _ _ hassign ihtarget ihvalue =>
    exact treeSpelt_assignment hassign (ihtarget fun t ht => hts t (by simp [ht]))
      (ihvalue fun t ht => hts t (by simp [ht]))
  | extended _ _ _ ihfirst ihextensions =>
    exact treeSpelt_foldl (ihfirst fun t ht => hts t (by simp [ht]))
      (ihextensions fun t ht => hts t (by simp [ht]))
  | @unary t op ts operand hop _ ih =>
    refine Part.throughout_expr.mpr ⟨?_, ?_⟩
    · exact sign_text (hts t (by simp)) (unaryOp?_iff.mp hop)
    · exact List.forall_mem_singleton.mpr (ih fun t ht => hts t (by simp [ht]))
  | @atom t a hkind =>
    refine Part.throughout_expr.mpr ⟨?_, nofun⟩
    have ht := hts t (by simp)
    unfold Mark.IsSpelt at ht
    rw [hkind] at ht
    exact ht
  | list _ _ _ ih =>
    exact Part.throughout_expr.mpr ⟨trivial, ih fun t ht => hts t (by simp [ht])⟩
  | record _ _ _ ih =>
    have hentries := ih fun t ht => hts t (by simp [ht])
    refine Part.throughout_expr.mpr ⟨fun entry hentry => (hentries entry hentry).1, ?_⟩
    intro part hpart
    obtain ⟨entry, hentry, rfl⟩ := List.mem_map.mp hpart
    exact (hentries entry hentry).2
  | group _ _ _ ih => exact ih fun t ht => hts t (by simp [ht])
  | @entry key colon ts value hkey _ _ ih =>
    have hspelt := hts key (by simp)
    unfold Mark.IsSpelt at hspelt
    rw [hkey] at hspelt
    exact ⟨hspelt, ih fun t ht => hts t (by simp [ht])⟩
  | choice _ _ _ _ ihcondition ihno =>
    intro e he
    have hcondition := ihcondition fun t ht => hts t (by simp [ht])
    have hno := ihno fun t ht => hts t (by simp [ht])
    refine Part.throughout_expr.mpr ⟨trivial, List.forall_mem_cons.mpr ⟨hcondition, ?_⟩⟩
    exact List.forall_mem_cons.mpr ⟨he, List.forall_mem_singleton.mpr hno⟩
  | logical _ _ _ _ ih | index _ _ _ ih =>
    intro e he
    have hpart := ih fun t ht => hts t (by simp [ht])
    refine Part.throughout_expr.mpr ⟨trivial, List.forall_mem_cons.mpr ⟨he, ?_⟩⟩
    exact List.forall_mem_singleton.mpr hpart
  | @binary t rule operand tier op ts right hop _ _ _ ih =>
    intro e he
    have hright := ih fun t ht => hts t (by simp [ht])
    unfold Reader.tierOp? at hop
    rw [Option.filter_eq_some_iff] at hop
    refine Part.throughout_expr.mpr ⟨?_, List.forall_mem_cons.mpr ⟨he, ?_⟩⟩
    · exact sign_text (hts t (by simp)) (binaryOp?_iff.mp hop.1)
    · exact List.forall_mem_singleton.mpr hright
  | call _ _ _ ih =>
    intro e he
    refine Part.throughout_expr.mpr ⟨trivial, ?_⟩
    intro part hpart
    rcases List.mem_cons.mp hpart with rfl | hpart
    · exact he
    · exact ih (fun t ht => hts t (by simp [ht])) part hpart
  | @field dot key _ hkey =>
    intro e he
    have hspelt := hts key (by simp)
    unfold Mark.IsSpelt at hspelt
    rw [hkey] at hspelt
    exact Part.throughout_expr.mpr ⟨hspelt, List.forall_mem_singleton.mpr he⟩
  | none | empty => exact nofun
  | more _ _ ihfirst ihrest | before _ _ _ ihfirst ihrest =>
    exact List.forall_mem_cons.mpr ⟨ihfirst fun t ht => hts t (by simp [ht]),
      ihrest fun t ht => hts t (by simp [ht])⟩
  | last _ ih => exact List.forall_mem_singleton.mpr (ih hts)
  | print _ _ _ ih | returnValue _ _ _ ih | makeValue _ _ _ _ _ ih =>
    have hvalue := ih fun t ht => hts t (by simp [ht])
    exact Part.throughout_stmt.mpr (List.forall_mem_singleton.mpr hvalue)
  | value _ _ _ ih =>
    have hvalue := ih fun t ht => hts t (by rcases List.mem_cons.mp ht with rfl | ht <;> simp [*])
    exact Part.throughout_stmt.mpr (List.forall_mem_singleton.mpr hvalue)
  | return_ | make => exact Part.throughout_stmt.mpr nofun
  | block _ _ _ ih | funk _ _ _ _ _ _ _ _ _ ih =>
    have hbody := ih fun t ht => hts t (by simp [ht])
    exact Part.throughout_stmt.mpr (List.forall_mem_map.mpr hbody)
  | if_ _ _ _ _ ihvalue ihbody | while_ _ _ _ _ ihvalue ihbody | with_ _ _ _ _ _ ihvalue ihbody
  | for_ _ _ _ _ _ _ ihvalue ihbody =>
    have hvalue := ihvalue fun t ht => hts t (by simp [ht])
    have hbody := ihbody fun t ht => hts t (by simp [ht])
    refine Part.throughout_stmt.mpr (List.forall_mem_cons.mpr ⟨hvalue, ?_⟩)
    exact List.forall_mem_singleton.mpr hbody
  | ifElse _ _ _ _ _ _ _ ihcondition ihyes ihno =>
    have hcondition := ihcondition fun t ht => hts t (by simp [ht])
    have hyes := ihyes fun t ht => hts t (by simp [ht])
    have hno := ihno fun t ht => hts t (by simp [ht])
    refine Part.throughout_stmt.mpr (List.forall_mem_cons.mpr ⟨hcondition, ?_⟩)
    exact List.forall_mem_cons.mpr ⟨hyes, List.forall_mem_singleton.mpr hno⟩
  | noParameters | someParameters | nextName => trivial

end Grammar
end FunkLang
