-- Straight code: expressions, prints, declarations, blocks and `with`, without
-- anything that leaves a part out and without comparisons for equality. Each
-- operator takes only values of the types that the check asks for, so where
-- straight code comes to its end, the check of it has found nothing wrong.
import FunkLang.Proofs.FinishingSteps
import FunkLang.Proofs.FollowedVisits
import FunkLang.Proofs.Rejections

namespace FunkLang

/-! ## Straight code -/

/-- Does a part evaluate all its parts, one after the other and once, and compare nothing for
equality? -/
def Part.isStraight : Part → Bool
  | expr (.logical ..) | expr (.choice ..) => false
  | expr (.binary _ op _) => op.kind.tier != .equality
  | expr _ => true
  | stmt (.expression ..) | stmt (.print ..) | stmt (.make ..) | stmt (.block ..)
  | stmt (.with_ ..) => true
  | stmt _ => false

/-- Everything in a part is straight, at any depth. -/
def Part.Straight (p : Part) : Prop := ∀ q, p.Contains q → q.isStraight = true

theorem Part.straight_iff {p : Part} :
    p.Straight ↔ p.isStraight = true ∧ ∀ q ∈ p.subparts, q.Straight :=
  Part.forall_contains_iff

namespace Part.Straight

variable {p q : Part}

theorem self (h : p.Straight) : p.isStraight = true := h p .refl

theorem part (h : p.Straight) (hq : q ∈ p.subparts) : q.Straight := fun r hr => h r (hr.head hq)

theorem loopless (h : p.Straight) : p.Loopless := by
  intro q hq
  have hstraight := h q hq
  cases q with
  | expr e => rfl
  | stmt s => cases s <;> first | rfl | cases hstraight

theorem noFunctions {p : Part} (h : p.Straight) : p.functions = [] := by
  induction p using Part.induction with
  | step p ih =>
    have hself := h.self
    have hparts : ∀ q ∈ p.subparts, q.functions = [] := fun q hq => ih q hq (h.part hq)
    cases p with
    | expr e => rfl
    | stmt s =>
      cases s with
      | expression | print | make => rfl
      | block line body =>
        refine (functionsOfAll_eq body).trans (List.flatMap_eq_nil_iff.mpr fun s hs => ?_)
        exact hparts (.stmt s) (List.mem_map_of_mem hs)
      | with_ line value name body => exact hparts (.stmt body) (by simp [subparts])
      | _ => cases hself

end Part.Straight

/-- A list of straight statements declares no function. -/
theorem hoisting_straight {body : List Stmt} (h : ∀ s ∈ body, (Part.stmt s).Straight)
    (c : Context) : c.hoisting body = c := by
  have hnone : functionNames body = [] := by
    refine List.filterMap_eq_nil_iff.mpr fun s hs => ?_
    have hself := (h s hs).self
    cases s with
    | funk => cases hself
    | _ => rfl
  unfold Context.hoisting
  rw [hnone]
  rfl

/-- No way of a run leads past anything that is straight. -/
theorem straight_joins {w : CheckVisit} (h : w.part.Straight) : w.JoinsAgreeInside := by
  intro u hu
  have hstraight : u.part.Straight := by
    induction hu with
    | refl => exact h
    | tail _ hopens ih => exact ih.part (CheckVisit.part_of_opens hopens)
  have hself := hstraight.self
  intro after _ jump hjump
  unfold CheckVisit.jumps at hjump
  split at hjump
  case h_7 => cases hjump
  all_goals
    rename_i hpart _
    rw [hpart] at hself
    cases hself

/-! ## What operators take -/

/-- A check finds nothing wrong. For want of room it may fail. -/
def Harmless {α : Type} (r : EStateM.Result TypeError Context α) : Prop :=
  Ends (fun _ _ => True) (fun err _ => err.problem = .tooDeep) r

/-- A value of a type is of an accepted one. -/
theorem Value.Fits.fits {v : Value} {t wanted : Ty} (h : v.Fits t) (hv : v.kind.ty = wanted) :
    t.fits wanted = true := by
  unfold Ty.fits
  rcases h with rfl | h
  · rfl
  · rw [← h, hv]
    simp

namespace Run

variable {v w u r : Value} {m m' : Machine} {a b t : Ty} {c : Context} {line : Int}

theorem takes_truth {by_ : Condition} {holds : Bool} (h : truth by_ v line m = .ok holds m') :
    v.kind.ty = .boolean := by
  cases v with
  | bool b => rfl
  | _ => cases h

theorem takes_unary {op : Mark UnaryOp} (hv : v.Fits t) (h : unary op v m = .ok r m') :
    Harmless (Check.unary op t c) := by
  unfold unary at h
  unfold Check.unary Harmless
  cases hop : op.kind <;> rw [hop] at h
  case minus =>
    have hnumber : v.kind.ty = .number := by
      cases v with
      | number n => rfl
      | _ => cases h
    simp [hv.fits hnumber]
  case not =>
    obtain ⟨holds, m1, h, -⟩ := bind_eq_ok.mp h
    simp [hv.fits (takes_truth h)]

theorem takes_numeric {op : Mark BinaryOp} {combine : Number → Number → Value} {at_ : Expr}
    (h : numeric op combine at_ v w m = .ok r m') :
    v.kind.ty = .number ∧ w.kind.ty = .number := by
  cases v with
  | number x =>
    cases w with
    | number y => exact ⟨rfl, rfl⟩
    | _ => cases h
  | _ => cases h

/-- Two numbers have a sum, a difference, a product and a quotient. -/
theorem arithmetic_of_numbers (op : BinaryOp) (ha : a.fits .number = true)
    (hb : b.fits .number = true) : (Check.arithmetic? op a b).isSome = true := by
  revert ha hb
  cases a <;> cases b <;> simp [Check.arithmetic?, Ty.fits]

theorem arithmetic_of_strings (ha : a.fits .string = true) (hb : b.fits .string = true) :
    (Check.arithmetic? .plus a b).isSome = true := by
  revert ha hb
  cases a <;> cases b <;> simp [Check.arithmetic?, Ty.fits]

theorem takes_binary {room : Nat} {op : Mark BinaryOp} {at_ : Expr} (hv : v.Fits a)
    (hw : w.Fits b) (hop : op.kind.tier ≠ .equality) (h : binary room op at_ v w m = .ok r m') :
    (Check.binary? op.kind a b).isSome = true := by
  unfold binary at h
  cases hkind : op.kind <;> rw [hkind] at h hop
  case plus =>
    dsimp only at h
    split at h
    · exact arithmetic_of_numbers _ (hv.fits rfl) (hw.fits rfl)
    · exact arithmetic_of_strings (hv.fits rfl) (hw.fits rfl)
    · cases h
  case minus | times | divide =>
    obtain ⟨hx, hy⟩ := takes_numeric h
    exact arithmetic_of_numbers _ (hv.fits hx) (hw.fits hy)
  case less | lessEqual | greater | greaterEqual =>
    obtain ⟨hx, hy⟩ := takes_numeric h
    simp [Check.binary?, BinaryOp.tier, hv.fits hx, hw.fits hy]
  case equal => exact absurd rfl hop
  case unequal => exact absurd rfl hop

theorem takes_slot {length k : Nat} (h : slot length v line m = .ok k m') :
    v.kind.ty = .number := by
  cases v with
  | number n => rfl
  | _ => cases h

theorem takes_element {at_ : Expr} (h : element at_ v w m = .ok r m') :
    (v.kind.ty = .list ∨ v.kind.ty = .string) ∧ w.kind.ty = .number := by
  cases v with
  | list i =>
    obtain ⟨_, m1, -, h⟩ := bind_eq_ok.mp h
    obtain ⟨k, m2, h, -⟩ := bind_eq_ok.mp h
    exact ⟨Or.inl rfl, takes_slot h⟩
  | string s =>
    obtain ⟨k, m1, h, -⟩ := bind_eq_ok.mp h
    exact ⟨Or.inr rfl, takes_slot h⟩
  | _ => cases h

theorem takes_setElement {at_ : Expr} (h : setElement at_ v w u m = .ok r m') :
    v.kind.ty = .list ∧ w.kind.ty = .number := by
  cases v with
  | list i =>
    obtain ⟨_, m1, -, h⟩ := bind_eq_ok.mp h
    obtain ⟨k, m2, h, -⟩ := bind_eq_ok.mp h
    exact ⟨rfl, takes_slot h⟩
  | _ => cases h

theorem takes_field {at_ : Expr} {key : String} (h : field at_ key v m = .ok r m') :
    v.kind.ty = .record := by
  cases v with
  | record i => rfl
  | _ => cases h

theorem takes_setField {at_ : Expr} {key : String} (h : setField at_ key v u m = .ok r m') :
    v.kind.ty = .record := by
  cases v with
  | record i => rfl
  | _ => cases h

theorem takes_callValue {limits : Limits} {room : Nat} {run : Stmt → Run Flow} {args : List Value}
    (h : callValue limits room run v args line m = .ok r m') : v.kind.ty = .function := by
  cases v with
  | builtin b => rfl
  | function i => rfl
  | _ => cases h

/-- A name that stands for a value has a type. -/
theorem takes_atom {mark : Mark Atom} (hm : m.Follows c) (h : atom mark m = .ok r m') :
    Harmless (Check.atom mark c) := by
  unfold atom at h
  unfold Check.atom
  cases hkind : mark.kind <;> rw [hkind] at h
  case name =>
    have hrel := hm.get? mark.text
    obtain ⟨_, m1, hget, h⟩ := bind_eq_ok.mp h
    cases hget
    unfold ScopeTree.get at h
    cases hvalue : m.scopes.get? m.scope mark.text with
    | none =>
      rw [hvalue] at h
      cases h
    | some x =>
      rw [hvalue] at hrel
      generalize htype : c.get? mark.text = t? at hrel
      cases hrel with
      | @some _ t =>
        dsimp only
        rw [lookup_eq_ok.mpr ⟨htype, rfl⟩]
        trivial
  all_goals trivial

/-- A name that can be set has a type. -/
theorem takes_assign {name : String} {x : Unit} (hm : m.Follows c)
    (h : assign name v line m = .ok x m') : Harmless (Check.assign name t line c) := by
  obtain ⟨_, m1, hget, h⟩ := bind_eq_ok.mp h
  cases hget
  cases hhome : m.scopes.home? m.scope name with
  | none =>
    rw [hhome] at h
    cases h
  | some home =>
    have hvalue : (m.scopes.get? m.scope name).isSome = true := by
      rw [ScopeTree.get?_isSome, ← ScopeTree.home?_isSome, hhome]
      rfl
    rw [option_rel_isSome (hm.get? name), Context.get?_isSome,
      ← Context.assign?_isSome (t := t)] at hvalue
    obtain ⟨c', hassign⟩ := Option.isSome_iff_exists.mp hvalue
    rw [(assign_eq_ok (u := ⟨⟩)).mpr hassign]
    trivial

end Run

/-! ## What a run vouches for -/

/-- If an expression has a value, a check that the machine follows finds nothing wrong with it. -/
def Expr.Vouches (limits : Limits) (room : Nat) (e : Expr) : Prop :=
  (Part.expr e).Straight → ∀ m v m', e.eval limits room m = .ok v m' →
    ∀ k c, m.Follows c → Harmless (e.check k c)

/-- The same for a statement that comes to its end, which is never a return. -/
def Stmt.Vouches (limits : Limits) (room : Nat) (s : Stmt) : Prop :=
  (Part.stmt s).Straight → ∀ m flow m', s.exec limits room m = .ok flow m' →
    flow = .next ∧ ∀ k c, m.Follows c → Harmless (s.check k c)

section Vouching

open Run

variable {limits : Limits} {room k : Nat} {m m' : Machine} {c c' : Context} {e : Expr} {s : Stmt}
  {v : Value} {t : Ty} {α β : Type}

theorem Part.Straight.operand (h : (Part.expr e).Straight) {part : Expr} (hpart : part ∈ e.parts) :
    (Part.expr part).Straight := h.part (List.mem_map_of_mem hpart)

/-- Straight code that passes keeps the machine with the check. -/
theorem straight_eval (he : (Part.expr e).Straight) (hm : m.Follows c)
    (heval : e.eval limits room m = .ok v m') (hcheck : e.check k c = .ok t c') :
    v.Fits t ∧ m'.Follows c' := by
  have arrives : Arrives (fun w m' => w.Fits t ∧ m'.Follows c') (e.eval limits room m) :=
    eval_arrives ⟨hcheck, straight_joins he⟩ hm
  rw [heval] at arrives
  exact arrives

theorem straight_exec (hs : (Part.stmt s).Straight) (hm : m.Follows c)
    (hexec : s.exec limits room m = .ok .next m') (hcheck : s.check k c = .ok () c') :
    m'.Follows c' := by
  have arrives : Arrives (fun flow m' => flow = .next → m'.Follows c') (s.exec limits room m) :=
    exec_arrives hs.noFunctions ⟨hcheck, straight_joins hs⟩ hm
  rw [hexec] at arrives
  exact arrives rfl

theorem harmless_bind {x : Check α} {f : α → Check β} (hx : Harmless (x c))
    (hf : ∀ a c1, x c = .ok a c1 → Harmless (f a c1)) : Harmless ((x >>= f) c) := by
  unfold Harmless
  rw [ends_bind]
  exact Ends.imp_eq hx (fun a c1 hok _ => hf a c1 hok) fun _ _ _ h => h

theorem harmless_ensure {holds : Bool} {problem : TypeProblem} {line : Int} {f : Check α}
    (hholds : holds = true) (h : Harmless (f c)) :
    Harmless ((do Check.ensure holds problem line; f : Check α) c) := by
  subst hholds
  exact h

/-- A part has been evaluated, and the check goes on to the others. -/
theorem harmless_first (vouches : e.Vouches limits room) (he : (Part.expr e).Straight)
    (hm : m.Follows c) (heval : e.eval limits room m = .ok v m') {f : Ty → Check β}
    (h : ∀ t c1, v.Fits t → m'.Follows c1 → Harmless (f t c1)) :
    Harmless ((e.check k >>= f) c) := by
  refine harmless_bind (vouches he m v m' heval k c hm) fun t c1 hcheck => ?_
  obtain ⟨hv, hm1⟩ := straight_eval he hm heval hcheck
  exact h t c1 hv hm1

theorem harmless_each (part : α → Expr) {act : α → Run β} {items : List α} {bs : List β}
    (vouches : ∀ e : Expr, e.Vouches limits room)
    (hitems : ∀ a ∈ items, (Part.expr (part a)).Straight)
    (hact : ∀ a m b m', act a m = .ok b m' → ∃ v, (part a).eval limits room m = .ok v m')
    (h : items.mapM act m = .ok bs m') (hm : m.Follows c) :
    Harmless ((items.forM fun a => do let _ ← (part a).check k : Check PUnit) c) := by
  induction items generalizing m m' c bs with
  | nil => trivial
  | cons a rest ih =>
    rw [List.mapM_cons] at h
    obtain ⟨b, m1, hb, h⟩ := bind_eq_ok.mp h
    obtain ⟨bs', m2, hrest, -⟩ := bind_eq_ok.mp h
    obtain ⟨v, hv⟩ := hact a m b m1 hb
    rw [List.forall_mem_cons] at hitems
    change Harmless (((do let _ ← (part a).check k : Check PUnit) >>= fun _ => rest.forM _) c)
    rw [bind_assoc]
    exact harmless_first (vouches _) hitems.1 hm hv fun t c1 _ hm1 => ih hitems.2 hrest hm1

theorem harmless_tooDeep : Harmless ((throw ⟨.tooDeep, none⟩ : Check α) c) :=
  (rfl : TypeProblem.tooDeep = .tooDeep)

/-- Without room for a step into an expression there is nothing to show. -/
theorem harmless_of_room (h : ∀ inner, e.innerRoom? k = some inner → Harmless (e.check k c)) :
    Harmless (e.check k c) := by
  cases hroom : e.innerRoom? k with
  | some inner => exact h inner hroom
  | none =>
    have hdeep : e.check k = throw ⟨.tooDeep, none⟩ := by
      obtain _ | _ | _ | _ | k := k
      iterate 3 cases e <;> simp only [Expr.check]
      · cases e <;> first | cases hroom; done | simp only [Expr.check]
      · cases e <;> cases hroom
    rw [hdeep]
    exact harmless_tooDeep

theorem harmless_inScope {body : Check α} (h : Harmless (body c.inner)) :
    Harmless (Check.inScope body c) :=
  Check.ends_inScope.mpr h

theorem harmless_noteShadowing (name : String) (line : Int) :
    Harmless (Check.noteShadowing name line c) := by
  unfold Check.noteShadowing Harmless
  rw [ends_bind, ends_get]
  split
  · trivial
  · trivial

theorem ok_of_enclosed {parent : Nat} {bindings : List (String × Value)} {body : Run α} {a : α}
    (h : enclosed parent bindings body m = .ok a m') :
    ∃ m1, body (m.enclose parent bindings) = .ok a m1 := by
  unfold enclosed at h
  cases hbody : body (m.enclose parent bindings) with
  | ok b m1 =>
    rw [hbody] at h
    cases h
    exact ⟨m1, rfl⟩
  | error stop m1 =>
    rw [hbody] at h
    cases h

theorem vouches_statements (vouches : ∀ s : Stmt, s.Vouches limits room) {body : List Stmt}
    (hbody : ∀ s ∈ body, (Part.stmt s).Straight) {flow : Flow}
    (h : inTurn (fun s => s.exec limits room) body m = .ok flow m') :
    flow = .next ∧
      ∀ k c, m.Follows c → Harmless (Check.list (fun s => s.check k) body c) := by
  suffices hforM : flow = .next ∧
      ∀ k c, m.Follows c → Harmless (body.forM (fun s => s.check k) c) by
    refine ⟨hforM.1, fun k c hm => ?_⟩
    rw [list_eq, hoisting_straight hbody]
    exact hforM.2 k c hm
  induction body generalizing m with
  | nil =>
    cases h
    exact ⟨rfl, fun _ _ _ => trivial⟩
  | cons s rest ih =>
    obtain ⟨first, m1, hs, h⟩ := bind_eq_ok.mp h
    rw [List.forall_mem_cons] at hbody
    obtain ⟨rfl, hcheck⟩ := vouches s hbody.1 m first m1 hs
    obtain ⟨hflow, hrest⟩ := ih hbody.2 h
    refine ⟨hflow, fun k c hm => ?_⟩
    refine harmless_bind (hcheck k c hm) fun _ c1 hok => ?_
    exact hrest k c1 (straight_exec hbody.1 hm hs hok)

end Vouching

theorem evaluation_vouches (limits : Limits) :
    (∀ room (e : Expr), e.Vouches limits room) ∧ (∀ room (s : Stmt), s.Vouches limits room) := by
  refine evaluation_induction limits ?shallowExpr ?shallowStmt ?atom ?unary ?binary ?logical ?assign
    ?assignIndex ?assignField ?choice ?call ?list ?record ?index ?field ?expression ?print ?make
    ?makeValue ?block ?if_ ?while_ ?funk ?return_ ?returnValue ?with_ ?for_
  case shallowExpr =>
    intro room e heq he m v m' h
    rw [heq] at h
    cases h
  case shallowStmt =>
    intro room s heq hs m flow m' h
    rw [heq] at h
    cases h
  case atom =>
    intro room mark he m v m' h k c hm
    simp only [Expr.eval] at h
    refine harmless_of_room fun inner hroom => ?_
    obtain _ | _ | _ | k := k <;> cases hroom
    simp only [Expr.check]
    exact Run.takes_atom hm h
  case unary =>
    intro room op operand ih he m v m' h k c hm
    simp only [Expr.eval, bind_eq_ok] at h
    obtain ⟨a, m1, ha, h⟩ := h
    refine harmless_of_room fun inner hroom => ?_
    obtain _ | _ | _ | k := k <;> cases hroom
    simp only [Expr.check]
    exact harmless_first ih (he.operand (by simp [Expr.parts])) hm ha fun t c1 hv _ =>
      Run.takes_unary hv h
  case binary =>
    intro room left op right ihl ihr he m v m' h k c hm
    have hop : op.kind.tier ≠ .equality := bne_iff_ne.mp he.self
    simp only [Expr.eval, bind_eq_ok] at h
    obtain ⟨x, m1, hx, y, m2, hy, h⟩ := h
    refine harmless_of_room fun inner hroom => ?_
    obtain _ | _ | _ | _ | k := k <;> cases hroom
    simp only [Expr.check, Expr.check_if]
    refine harmless_first ihl (he.operand (by simp [Expr.parts])) hm hx fun a c1 ha hm1 => ?_
    refine harmless_first ihr (he.operand (by simp [Expr.parts])) hm1 hy fun b c2 hb hm2 => ?_
    obtain ⟨t, ht⟩ := Option.isSome_iff_exists.mp (Run.takes_binary ha hb hop h)
    rw [ht]
    trivial
  case logical =>
    intro room op left right _ _ he
    cases he.self
  case assign =>
    intro room name value ih he m v m' h k c hm
    simp only [Expr.eval, bind_eq_ok] at h
    obtain ⟨x, m1, hx, _, m2, h, -⟩ := h
    refine harmless_of_room fun inner hroom => ?_
    obtain _ | _ | _ | k := k <;> cases hroom
    simp only [Expr.check]
    refine harmless_first ih (he.operand (by simp [Expr.parts])) hm hx fun t c1 ht hm1 => ?_
    exact harmless_bind (Run.takes_assign hm1 h) fun _ _ _ => trivial
  case assignIndex =>
    intro room collection place value ihc ihp ihv he m v m' h k c hm
    simp only [Expr.eval, bind_eq_ok] at h
    obtain ⟨x, m1, hx, y, m2, hy, z, m3, hz, h⟩ := h
    obtain ⟨hlist, hnumber⟩ := Run.takes_setElement h
    refine harmless_of_room fun inner hroom => ?_
    obtain _ | _ | _ | k := k <;> cases hroom
    simp only [Expr.check]
    refine harmless_first ihc (he.operand (by simp [Expr.parts])) hm hx fun a c1 ha hm1 => ?_
    refine harmless_ensure (ha.fits hlist) ?_
    refine harmless_first ihp (he.operand (by simp [Expr.parts])) hm1 hy fun i c2 hi hm2 => ?_
    refine harmless_ensure (hi.fits hnumber) ?_
    exact ihv (he.operand (by simp [Expr.parts])) m2 z m3 hz _ c2 hm2
  case assignField =>
    intro room collection key value ihc ihv he m v m' h k c hm
    simp only [Expr.eval, bind_eq_ok] at h
    obtain ⟨x, m1, hx, y, m2, hy, h⟩ := h
    refine harmless_of_room fun inner hroom => ?_
    obtain _ | _ | _ | k := k <;> cases hroom
    simp only [Expr.check]
    refine harmless_first ihc (he.operand (by simp [Expr.parts])) hm hx fun a c1 ha hm1 => ?_
    refine harmless_ensure (ha.fits (Run.takes_setField h)) ?_
    exact ihv (he.operand (by simp [Expr.parts])) m1 y m2 hy _ c1 hm1
  case choice =>
    intro room condition yes no _ _ _ he
    cases he.self
  case call =>
    intro room callee arguments ihf iha _ he m v m' h k c hm
    simp only [Expr.eval, bind_eq_ok] at h
    obtain ⟨f, m1, hf, args, m2, hargs, h⟩ := h
    refine harmless_of_room fun inner hroom => ?_
    obtain _ | _ | _ | k := k <;> cases hroom
    simp only [Expr.check]
    refine harmless_first ihf (he.operand (by simp [Expr.parts])) hm hf fun t c1 ht hm1 => ?_
    refine harmless_ensure (ht.fits (Run.takes_callValue h)) ?_
    refine harmless_bind ?_ fun _ _ _ => trivial
    refine harmless_each id iha (fun a ha => ?_) (fun a m b m' h => ⟨b, h⟩) hargs hm1
    exact he.operand (by simp [Expr.parts, ha])
  case list =>
    intro room line elements ih he m v m' h k c hm
    simp only [Expr.eval, bind_eq_ok] at h
    obtain ⟨vs, m1, hvs, -⟩ := h
    refine harmless_of_room fun inner hroom => ?_
    obtain _ | _ | _ | k := k <;> cases hroom
    simp only [Expr.check]
    refine harmless_bind ?_ fun _ _ _ => trivial
    exact harmless_each id ih (fun e hmem => he.operand hmem)
      (fun e m b m' h => ⟨b, h⟩) hvs hm
  case record =>
    intro room line entries ih he m v m' h k c hm
    simp only [Expr.eval, bind_eq_ok] at h
    obtain ⟨fields, m1, hfields, -⟩ := h
    refine harmless_of_room fun inner hroom => ?_
    obtain _ | _ | _ | k := k <;> cases hroom
    simp only [Expr.check]
    refine harmless_bind ?_ fun _ _ _ => trivial
    refine harmless_each Prod.snd ih (fun entry hentry => ?_) (fun entry m b m' h => ?_)
      hfields hm
    · exact he.operand (List.mem_map_of_mem hentry)
    · obtain ⟨x, m2, hx, h⟩ := bind_eq_ok.mp h
      obtain ⟨-, rfl⟩ := pure_eq_ok.mp h
      exact ⟨x, hx⟩
  case index =>
    intro room collection place ihc ihp he m v m' h k c hm
    simp only [Expr.eval, bind_eq_ok] at h
    obtain ⟨x, m1, hx, y, m2, hy, h⟩ := h
    obtain ⟨hcollection, hnumber⟩ := Run.takes_element h
    refine harmless_of_room fun inner hroom => ?_
    obtain _ | _ | _ | k := k <;> cases hroom
    simp only [Expr.check]
    refine harmless_first ihc (he.operand (by simp [Expr.parts])) hm hx fun a c1 ha hm1 => ?_
    refine harmless_ensure (Bool.or_eq_true _ _ ▸ hcollection.imp ha.fits ha.fits) ?_
    refine harmless_first ihp (he.operand (by simp [Expr.parts])) hm1 hy fun i c2 hi hm2 => ?_
    exact harmless_ensure (hi.fits hnumber) trivial
  case field =>
    intro room collection key ih he m v m' h k c hm
    simp only [Expr.eval, bind_eq_ok] at h
    obtain ⟨x, m1, hx, h⟩ := h
    refine harmless_of_room fun inner hroom => ?_
    obtain _ | _ | _ | k := k <;> cases hroom
    simp only [Expr.check]
    refine harmless_first ih (he.operand (by simp [Expr.parts])) hm hx fun a c1 ha hm1 => ?_
    exact harmless_ensure (ha.fits (Run.takes_field h)) trivial
  case expression =>
    intro room line value ih hs m flow m' h
    simp only [Stmt.exec, bind_eq_ok, pure_eq_ok] at h
    obtain ⟨v, m1, hv, rfl, rfl⟩ := h
    refine ⟨rfl, fun k c hm => ?_⟩
    obtain _ | _ | _ | k := k
    iterate 3 exact harmless_tooDeep
    simp only [Stmt.check]
    exact harmless_first ih (hs.part (by simp [Part.subparts])) hm hv fun _ _ _ _ => trivial
  case print =>
    intro room line value ih hs m flow m' h
    simp only [Stmt.exec, bind_eq_ok, pure_eq_ok] at h
    obtain ⟨v, m1, hv, _, m2, -, rfl, rfl⟩ := h
    refine ⟨rfl, fun k c hm => ?_⟩
    obtain _ | _ | _ | k := k
    iterate 3 exact harmless_tooDeep
    simp only [Stmt.check]
    exact harmless_first ih (hs.part (by simp [Part.subparts])) hm hv fun _ _ _ _ => trivial
  case make =>
    intro room line name hs m flow m' h
    simp only [Stmt.exec, bind_eq_ok, pure_eq_ok] at h
    obtain ⟨v, m1, -, _, m2, -, rfl, rfl⟩ := h
    refine ⟨rfl, fun k c hm => ?_⟩
    obtain _ | _ | _ | k := k
    iterate 3 exact harmless_tooDeep
    simp only [Stmt.check]
    refine harmless_bind trivial fun t c1 _ => ?_
    exact harmless_bind (harmless_noteShadowing _ _) fun _ _ _ => trivial
  case makeValue =>
    intro room line name value ih hs m flow m' h
    simp only [Stmt.exec, bind_eq_ok, pure_eq_ok] at h
    obtain ⟨v, m1, hv, _, m2, -, rfl, rfl⟩ := h
    refine ⟨rfl, fun k c hm => ?_⟩
    obtain _ | _ | _ | k := k
    iterate 3 exact harmless_tooDeep
    simp only [Stmt.check]
    refine harmless_first ih (hs.part (by simp [Part.subparts])) hm hv fun t c1 _ _ => ?_
    exact harmless_bind (harmless_noteShadowing _ _) fun _ _ _ => trivial
  case block =>
    intro room line body ih hs m flow m' h
    simp only [Stmt.exec] at h
    obtain ⟨_, _, hget, h⟩ := bind_eq_ok.mp h
    cases hget
    obtain ⟨m1, h⟩ := ok_of_enclosed h
    have hbody : ∀ s ∈ body, (Part.stmt s).Straight := fun s hmem =>
      hs.part (List.mem_map_of_mem hmem)
    obtain ⟨rfl, hlist⟩ := vouches_statements ih hbody h
    refine ⟨rfl, fun k c hm => ?_⟩
    obtain _ | _ | _ | _ | _ | _ | k := k
    iterate 6 exact harmless_tooDeep
    simp only [Stmt.check]
    exact harmless_inScope (hlist k c.inner hm.inner)
  case with_ =>
    intro room line value name body ihv ihb hs m flow m' h
    simp only [Stmt.exec] at h
    obtain ⟨v, m1, hv, h⟩ := bind_eq_ok.mp h
    obtain ⟨_, _, hget, h⟩ := bind_eq_ok.mp h
    cases hget
    obtain ⟨m2, h⟩ := ok_of_enclosed h
    obtain ⟨rfl, hbody⟩ := ihb (hs.part (by simp [Part.subparts])) _ _ _ h
    refine ⟨rfl, fun k c hm => ?_⟩
    obtain _ | _ | _ | _ | _ | k := k
    iterate 5 exact harmless_tooDeep
    simp only [Stmt.check]
    refine harmless_first ihv (hs.part (by simp [Part.subparts])) hm hv fun t c1 ht hm1 => ?_
    exact harmless_inScope (hbody k _ (hm1.innerNamed ht))
  case if_ | while_ | funk | return_ | returnValue | for_ =>
    intros
    intro hs
    cases hs.self

end FunkLang
