-- What a check visits, and what it finds there. A check that passes goes once
-- to every part of a program: a visit is a part, the room that it has, and the
-- context that it starts in.
import FunkLang.Proofs.CheckSteps
import FunkLang.Proofs.Visit

namespace FunkLang

/-! ## Visits -/

/-- The parts of an expression, in the order in which they are checked. -/
def Expr.parts : Expr → List Expr
  | atom _ => []
  | unary _ operand => [operand]
  | binary left _ right => [left, right]
  | logical _ left right => [left, right]
  | assign _ value => [value]
  | assignIndex collection place value => [collection, place, value]
  | assignField collection _ value => [collection, value]
  | choice condition yes no => [condition, yes, no]
  | call callee arguments => callee :: arguments
  | list _ elements => elements
  | record _ entries => entries.map (·.2)
  | index collection place => [collection, place]
  | field collection _ => [collection]

/-- The room that the parts of an expression are checked with. -/
def Expr.innerRoom? : Expr → (room : Nat) → Option Nat
  | binary _ op _, room + 4 => some (if Check.isArithmetic op.kind then room else room + 1)
  | logical .., room + 4 => some room
  | binary .., _ => none
  | logical .., _ => none
  | _, room + 3 => some room
  | _, _ => none

namespace Context

/-- With a fresh scope inside. -/
def inner (c : Context) : Context := { c with scopes := .empty :: c.scopes }

/-- Without the innermost scope. -/
def outer (c : Context) : Context := { c with scopes := c.scopes.drop 1 }

/-- With names of one type declared, one after the other. -/
def declareAll (c : Context) (names : List String) (t : Ty) : Context :=
  names.foldl (fun c name => c.declare name t) c

/-- With the functions of a list of statements in sight. -/
def hoisting (c : Context) (body : List Stmt) : Context := c.declareAll (functionNames body) .function

end Context

/-- A part of a program under check. -/
structure CheckVisit where
  part : Part
  room : Nat
  context : Context

def checkExpr (room : Nat) (e : Expr) (c : Context) : CheckVisit := ⟨.expr e, room, c⟩

def checkStmt (room : Nat) (s : Stmt) (c : Context) : CheckVisit := ⟨.stmt s, room, c⟩

/-- The visits to the statements of a list, whose functions are in sight of all of them. -/
def checkAll (room : Nat) (body : List Stmt) (c : Context) : List CheckVisit :=
  eachVisit (checkStmt room) (fun s => s.check room) body (c.hoisting body)

/-- The visits that a visit opens, in order, as long as what stands there passes. -/
def CheckVisit.opens (w : CheckVisit) : List CheckVisit :=
  let c := w.context
  match w.part, w.room with
  | .expr e, room =>
    match e.innerRoom? room with
    | some room => eachVisit (checkExpr room) (fun e => e.check room) e.parts c
    | none => []
  | .stmt (.expression _ value), room + 3 => [checkExpr room value c]
  | .stmt (.print _ value), room + 3 => [checkExpr room value c]
  | .stmt (.make _ _ (some value)), room + 3 => [checkExpr room value c]
  | .stmt (.return_ _ (some value)), room + 3 => [checkExpr room value c]
  | .stmt (.block _ body), room + 6 => checkAll room body c.inner
  | .stmt (.if_ _ condition yes no), room + 3 =>
    checkExpr room condition c :: andThen (condition.check room c) fun _ c =>
      eachVisit (checkStmt room) (fun s => s.check room) (yes :: no.toList) c
  | .stmt (.while_ _ condition body), room + 3 =>
    checkExpr room condition c :: andThen (condition.check room c) fun _ c =>
      [checkStmt room body c]
  | .stmt (.funk _ name params _ body), room + 6 =>
    checkAll room body
      (((c.declare name.text .function).inner).declareAll (params.map (·.text)) .unknown)
  | .stmt (.with_ _ value name body), room + 5 =>
    checkExpr (room + 2) value c :: andThen (value.check (room + 2) c) fun t c =>
      [checkStmt room body (c.inner.declare name.text t)]
  | .stmt (.for_ _ name items body), room + 5 =>
    checkExpr (room + 2) items c :: andThen (items.check (room + 2) c) fun _ c =>
      [checkStmt room body (c.inner.declare name.text .unknown)]
  | _, _ => []

/-- A visit and those that it opens, directly or through others. -/
def CheckVisit.Reaches : CheckVisit → CheckVisit → Prop :=
  Relation.ReflTransGen fun v w => w ∈ v.opens

/-- The visits of the check of a program. -/
def Checked (room : Nat) (program : List Stmt) (w : CheckVisit) : Prop :=
  ∃ u ∈ checkAll room program .start, u.Reaches w

/-- The type that the check of a program finds for an expression. -/
def TypedAs (room : Nat) (program : List Stmt) (e : Expr) (t : Ty) : Prop :=
  ∃ k c c', Checked room program (checkExpr k e c) ∧ e.check k c = .ok t c'

/-- A statement that the check of a program passes. -/
def Passed (room : Nat) (program : List Stmt) (s : Stmt) : Prop :=
  ∃ k c c', Checked room program (checkStmt k s c) ∧ s.check k c = .ok () c'

theorem Checked.opens {room : Nat} {program : List Stmt} {w u : CheckVisit}
    (h : Checked room program w) (hu : u ∈ w.opens) : Checked room program u := by
  obtain ⟨top, htop, hw⟩ := h
  exact ⟨top, htop, hw.tail hu⟩

/-! ## What passes -/

section Answers

variable {α : Type}

theorem ensure_eq_ok {holds : Bool} {problem : TypeProblem} {line : Int} {c c' : Context}
    {u : Unit} : Check.ensure holds problem line c = .ok u c' ↔ holds = true ∧ c = c' := by
  unfold Check.ensure
  cases holds with
  | true => simp [pure_eq_ok]
  | false => exact ⟨nofun, fun h => nomatch h.1⟩

theorem lookup_eq_ok {name : String} {line : Int} {c c' : Context} {t : Ty} :
    Check.lookup name line c = .ok t c' ↔ c.get? name = some t ∧ c = c' := by
  unfold Check.lookup
  rw [bind_eq_ok]
  constructor
  · rintro ⟨_, _, hget, h⟩
    cases hget
    cases found : c.get? name with
    | some t' =>
      rw [found] at h
      obtain ⟨rfl, rfl⟩ := pure_eq_ok.mp h
      exact ⟨rfl, rfl⟩
    | none =>
      rw [found] at h
      cases h
  · rintro ⟨found, rfl⟩
    refine ⟨c, c, rfl, ?_⟩
    rw [found]
    rfl

theorem assign_eq_ok {name : String} {t : Ty} {line : Int} {c c' : Context} {u : Unit} :
    Check.assign name t line c = .ok u c' ↔ c.assign? name t = some c' := by
  unfold Check.assign
  rw [bind_eq_ok]
  constructor
  · rintro ⟨_, _, hget, h⟩
    cases hget
    cases found : c.assign? name t with
    | some c1 =>
      rw [found] at h
      cases h
      rfl
    | none =>
      rw [found] at h
      cases h
  · intro found
    refine ⟨c, c, rfl, ?_⟩
    rw [found]
    rfl

theorem inScope_eq_ok {body : Check Unit} {c c' : Context} {u : Unit} :
    Check.inScope body c = .ok u c' ↔ ∃ c1, body c.inner = .ok u c1 ∧ c' = c1.outer := by
  unfold Check.inScope Context.inner Context.outer
  cases body { c with scopes := .empty :: c.scopes } with
  | ok u' c1 => simp [eq_comm]
  | error e c1 => simp

theorem scopes_of_noteShadowing {name : String} {line : Int} {c c' : Context} {u : Unit}
    (h : Check.noteShadowing name line c = .ok u c') : c'.scopes = c.scopes := by
  unfold Check.noteShadowing at h
  obtain ⟨_, _, hget, h⟩ := bind_eq_ok.mp h
  cases hget
  split at h
  · cases h
    rfl
  · cases h
    rfl

theorem scopes_declare {c c' : Context} (h : c'.scopes = c.scopes) (name : String) (t : Ty) :
    (c'.declare name t).scopes = (c.declare name t).scopes := by
  unfold Context.declare
  rw [h]

theorem declareAll_eq_ok {name : α → String} {t : Ty} {items : List α} {c c' : Context}
    {u : PUnit} : (items.forM fun a => Check.declare (name a) t) c = .ok u c' ↔
      c' = c.declareAll (items.map name) t := by
  induction items generalizing c with
  | nil =>
    change EStateM.Result.ok PUnit.unit c = .ok u c' ↔ c' = c
    simp [eq_comm]
  | cons a rest ih => exact ih

end Answers

/-- Expressions that pass one after the other, with their types. -/
inductive Chain (room : Nat) : List Expr → Context → List Ty → Context → Prop
  | nil {c} : Chain room [] c [] c
  | cons {e rest c t c1 ts c'} (first : e.check room c = .ok t c1)
    (others : Chain room rest c1 ts c') : Chain room (e :: rest) c (t :: ts) c'

/-- How the type of an expression comes from the types of its parts and of its names. -/
inductive Expr.Rule (sees : String → Ty → Prop) : Expr → List Ty → Ty → Prop
  | number {mark} (h : mark.kind = .number) : Rule sees (.atom mark) [] .number
  | string {mark} (h : mark.kind = .string) : Rule sees (.atom mark) [] .string
  | boolean {mark} (h : mark.kind = .boolean) : Rule sees (.atom mark) [] .boolean
  | nil {mark} (h : mark.kind = .nil) : Rule sees (.atom mark) [] .nil
  | name {mark t} (h : mark.kind = .name) (ht : sees mark.text t) : Rule sees (.atom mark) [] t
  | minus {op operand t} (hop : op.kind = .minus) (ht : t.fits .number = true) :
    Rule sees (.unary op operand) [t] t
  | not {op operand t} (hop : op.kind = .not) (ht : t.fits .boolean = true) :
    Rule sees (.unary op operand) [t] .boolean
  | binary {left op right a b t} (h : Check.binary? op.kind a b = some t) :
    Rule sees (.binary left op right) [a, b] t
  | logical {op left right a b} (ha : a.fits .boolean = true) (hb : b.fits .boolean = true) :
    Rule sees (.logical op left right) [a, b] .boolean
  | assign {name value t} (ht : sees name.text t) : Rule sees (.assign name value) [t] t
  | assignIndex {collection place value a i t} (ha : a.fits .list = true)
    (hi : i.fits .number = true) : Rule sees (.assignIndex collection place value) [a, i, t] t
  | assignField {collection key value a t} (ha : a.fits .record = true) :
    Rule sees (.assignField collection key value) [a, t] t
  | choice {condition yes no b t t'} (hb : b.fits .boolean = true) :
    Rule sees (.choice condition yes no) [b, t, t'] (if t = t' then t else .unknown)
  | call {callee arguments f ts} (hf : f.fits .function = true) :
    Rule sees (.call callee arguments) (f :: ts) .unknown
  | list {line elements ts} : Rule sees (.list line elements) ts .list
  | record {line entries ts} : Rule sees (.record line entries) ts .record
  | index {collection place a i} (ha : (a.fits .list || a.fits .string) = true)
    (hi : i.fits .number = true) : Rule sees (.index collection place) [a, i] .unknown
  | field {collection key a} (ha : a.fits .record = true) :
    Rule sees (.field collection key) [a] .unknown

theorem Expr.Rule.imp {sees sees' : String → Ty → Prop} {e : Expr} {ts : List Ty} {t : Ty}
    (h : e.Rule sees ts t) (himp : ∀ n t, sees n t → sees' n t) : e.Rule sees' ts t := by
  cases h with
  | number h => exact .number h
  | string h => exact .string h
  | boolean h => exact .boolean h
  | nil h => exact .nil h
  | name h ht => exact .name h (himp _ _ ht)
  | minus hop ht => exact .minus hop ht
  | not hop ht => exact .not hop ht
  | binary h => exact .binary h
  | logical ha hb => exact .logical ha hb
  | assign ht => exact .assign (himp _ _ ht)
  | assignIndex ha hi => exact .assignIndex ha hi
  | assignField ha => exact .assignField ha
  | choice hb => exact .choice hb
  | call hf => exact .call hf
  | list => exact .list
  | record => exact .record
  | index ha hi => exact .index ha hi
  | field ha => exact .field ha

/-- The context after an expression of type `t`, if `c` is the one that its parts leave. Only an
assignment to a variable changes it. -/
def Expr.leaves? (e : Expr) (t : Ty) (c : Context) : Option Context :=
  match e with
  | .assign name _ => c.assign? name.text t
  | _ => some c

theorem chain_of_forM {room : Nat} {elements : List Expr} {c c' : Context} {u : PUnit}
    (h : (elements.forM fun e => do let _ ← e.check room : Check PUnit) c = .ok u c') :
    ∃ ts, Chain room elements c ts c' := by
  induction elements generalizing c with
  | nil =>
    cases h
    exact ⟨[], .nil⟩
  | cons e rest ih =>
    change ((do let _ ← e.check room : Check PUnit) >>= fun _ => rest.forM _) c = _ at h
    simp only [bind_eq_ok, pure_eq_ok] at h
    obtain ⟨_, c1, ⟨t, c2, h1, -, rfl⟩, h⟩ := h
    obtain ⟨ts, hts⟩ := ih h
    exact ⟨t :: ts, .cons h1 hts⟩

/-- The check of an expression that passes is that of its parts, and a rule for its form. -/
theorem rule_of_check : ∀ room (e : Expr) c t c', e.check room c = .ok t c' →
    ∃ k ts c1, e.innerRoom? room = some k ∧ Chain k e.parts c ts c1 ∧
      e.leaves? t c1 = some c' ∧ e.Rule (fun n t => c'.get? n = some t) ts t := by
  refine expr_check_induction ?shallow ?atom ?unary ?binary ?logical ?assign ?assignIndex
    ?assignField ?choice ?call ?list ?record ?index ?field
  case shallow =>
    intro room e heq c t c' h
    rw [heq] at h
    cases h
  case atom =>
    intro room mark c t c' h
    simp only [Expr.check, Check.atom] at h
    refine ⟨room, [], c', rfl, ?_⟩
    cases hkind : mark.kind <;> rw [hkind] at h
    case number =>
      cases h
      exact ⟨.nil, rfl, .number hkind⟩
    case string =>
      cases h
      exact ⟨.nil, rfl, .string hkind⟩
    case boolean =>
      cases h
      exact ⟨.nil, rfl, .boolean hkind⟩
    case nil =>
      cases h
      exact ⟨.nil, rfl, .nil hkind⟩
    case name =>
      obtain ⟨ht, rfl⟩ := lookup_eq_ok.mp h
      exact ⟨.nil, rfl, .name hkind ht⟩
  case unary =>
    intro room op operand _ c t c' h
    simp only [Expr.check, bind_eq_ok] at h
    obtain ⟨a, c1, h1, h⟩ := h
    refine ⟨room, [a], c1, rfl, .cons h1 .nil, ?_⟩
    unfold Check.unary at h
    cases hop : op.kind <;> rw [hop] at h <;>
      simp only [bind_eq_ok, ensure_eq_ok, pure_eq_ok] at h <;>
      obtain ⟨_, _, ⟨ha, rfl⟩, rfl, rfl⟩ := h
    case minus => exact ⟨rfl, .minus hop ha⟩
    case not => exact ⟨rfl, .not hop ha⟩
  case binary =>
    intro room left op right _ _ c t c' h
    simp only [Expr.check, bind_eq_ok] at h
    obtain ⟨a, c1, h1, b, c2, h2, h⟩ := h
    have hpart : ∀ e : Expr,
        (if Check.isArithmetic op.kind then e.check room else e.check (room + 1)) =
          e.check (if Check.isArithmetic op.kind then room else room + 1) := by
      intro e
      split
      · rfl
      · rfl
    rw [hpart] at h1 h2
    refine ⟨_, [a, b], c2, rfl, .cons h1 (.cons h2 .nil), ?_⟩
    cases ht : Check.binary? op.kind a b with
    | some t' =>
      rw [ht] at h
      cases h
      exact ⟨rfl, .binary ht⟩
    | none =>
      rw [ht] at h
      cases h
  case logical =>
    intro room op left right _ _ c t c' h
    simp only [Expr.check, bind_eq_ok, ensure_eq_ok, pure_eq_ok, Bool.and_eq_true] at h
    obtain ⟨a, c1, h1, b, c2, h2, _, _, ⟨⟨ha, hb⟩, rfl⟩, rfl, rfl⟩ := h
    exact ⟨room, [a, b], c2, rfl, .cons h1 (.cons h2 .nil), rfl, .logical ha hb⟩
  case assign =>
    intro room name value _ c t c' h
    simp only [Expr.check, bind_eq_ok, pure_eq_ok] at h
    obtain ⟨a, c1, h1, _, c2, h2, rfl, rfl⟩ := h
    have h2 := assign_eq_ok.mp h2
    exact ⟨room, [a], c1, rfl, .cons h1 .nil, h2, .assign (Context.get?_of_assign h2)⟩
  case assignIndex =>
    intro room collection place value _ _ _ c t c' h
    simp only [Expr.check, bind_eq_ok, ensure_eq_ok] at h
    obtain ⟨a, c1, h1, _, _, ⟨ha, rfl⟩, i, c2, h2, _, _, ⟨hi, rfl⟩, h3⟩ := h
    exact ⟨room, [a, i, t], c', rfl, .cons h1 (.cons h2 (.cons h3 .nil)), rfl, .assignIndex ha hi⟩
  case assignField =>
    intro room collection key value _ _ c t c' h
    simp only [Expr.check, bind_eq_ok, ensure_eq_ok] at h
    obtain ⟨a, c1, h1, _, _, ⟨ha, rfl⟩, h2⟩ := h
    exact ⟨room, [a, t], c', rfl, .cons h1 (.cons h2 .nil), rfl, .assignField ha⟩
  case choice =>
    intro room condition yes no _ _ _ c t c' h
    simp only [Expr.check, bind_eq_ok, ensure_eq_ok, pure_eq_ok] at h
    obtain ⟨b, c1, h1, _, _, ⟨hb, rfl⟩, a, c2, h2, a', c3, h3, rfl, rfl⟩ := h
    exact ⟨room, [b, a, a'], c3, rfl, .cons h1 (.cons h2 (.cons h3 .nil)), rfl, .choice hb⟩
  case call =>
    intro room callee arguments _ _ c t c' h
    simp only [Expr.check, bind_eq_ok, ensure_eq_ok, pure_eq_ok] at h
    obtain ⟨f, c1, h1, _, _, ⟨hf, rfl⟩, _, c2, h2, rfl, rfl⟩ := h
    obtain ⟨ts, hts⟩ := chain_of_forM h2
    exact ⟨room, f :: ts, c2, rfl, .cons h1 hts, rfl, .call hf⟩
  case list =>
    intro room line elements _ c t c' h
    simp only [Expr.check, bind_eq_ok, pure_eq_ok] at h
    obtain ⟨_, c1, h1, rfl, rfl⟩ := h
    obtain ⟨ts, hts⟩ := chain_of_forM h1
    exact ⟨room, ts, c1, rfl, hts, rfl, .list⟩
  case record =>
    intro room line entries _ c t c' h
    simp only [Expr.check, bind_eq_ok, pure_eq_ok] at h
    obtain ⟨_, c1, h1, rfl, rfl⟩ := h
    have hvalues : ((entries.map (·.2)).forM fun e => do
        let _ ← e.check room : Check PUnit) c = .ok ⟨⟩ c1 := by simpa using h1
    obtain ⟨ts, hts⟩ := chain_of_forM hvalues
    exact ⟨room, ts, c1, rfl, hts, rfl, .record⟩
  case index =>
    intro room collection place _ _ c t c' h
    simp only [Expr.check, bind_eq_ok, ensure_eq_ok, pure_eq_ok] at h
    obtain ⟨a, c1, h1, _, _, ⟨ha, rfl⟩, i, c2, h2, _, _, ⟨hi, rfl⟩, rfl, rfl⟩ := h
    exact ⟨room, [a, i], c2, rfl, .cons h1 (.cons h2 .nil), rfl, .index ha hi⟩
  case field =>
    intro room collection key _ c t c' h
    simp only [Expr.check, bind_eq_ok, ensure_eq_ok, pure_eq_ok] at h
    obtain ⟨a, c1, h1, _, _, ⟨ha, rfl⟩, rfl, rfl⟩ := h
    exact ⟨room, [a], c1, rfl, .cons h1 .nil, rfl, .field ha⟩

/-- Statements that pass one after the other. -/
inductive StmtChain (room : Nat) : List Stmt → Context → Context → Prop
  | nil {c} : StmtChain room [] c c
  | cons {s rest c c1 c'} (first : s.check room c = .ok () c1)
    (others : StmtChain room rest c1 c') : StmtChain room (s :: rest) c c'

/-- How the check of a statement passes, from one context to another. -/
inductive Stmt.Passes : (room : Nat) → Stmt → Context → Context → Prop
  | expression {room line value c t c'} (h : value.check room c = .ok t c') :
    Passes (room + 3) (.expression line value) c c'
  | print {room line value c t c'} (h : value.check room c = .ok t c') :
    Passes (room + 3) (.print line value) c c'
  | make {room line name c c'} (hc : c'.scopes = (c.declare name.text .nil).scopes) :
    Passes (room + 3) (.make line name none) c c'
  | makeValue {room line name value c t c1 c'} (h : value.check room c = .ok t c1)
    (hc : c'.scopes = (c1.declare name.text t).scopes) :
    Passes (room + 3) (.make line name (some value)) c c'
  | return_ {room line c} : Passes (room + 3) (.return_ line none) c c
  | returnValue {room line value c t c'} (h : value.check room c = .ok t c') :
    Passes (room + 3) (.return_ line (some value)) c c'
  | block {room line body c c'} (h : StmtChain room body (c.inner.hoisting body) c') :
    Passes (room + 6) (.block line body) c c'.outer
  | if_ {room line condition yes no c t c1 c'} (h : condition.check room c = .ok t c1)
    (ht : t.fits .boolean = true) (hbranches : StmtChain room (yes :: no.toList) c1 c') :
    Passes (room + 3) (.if_ line condition yes no) c c'
  | while_ {room line condition body c t c1 c'} (h : condition.check room c = .ok t c1)
    (ht : t.fits .boolean = true) (hbody : body.check room c1 = .ok () c') :
    Passes (room + 3) (.while_ line condition body) c c'
  | funk {room line name params bodyLine body c c'}
    (h : StmtChain room body ((((c.declare name.text .function).inner).declareAll
      (params.map (·.text)) .unknown).hoisting body) c') :
    Passes (room + 6) (.funk line name params bodyLine body) c c'.outer
  | with_ {room line value name body c t c1 c'} (h : value.check (room + 2) c = .ok t c1)
    (hbody : body.check room (c1.inner.declare name.text t) = .ok () c') :
    Passes (room + 5) (.with_ line value name body) c c'.outer
  | for_ {room line name items body c c1 c'} (h : items.check (room + 2) c = .ok .unknown c1)
    (hbody : body.check room (c1.inner.declare name.text .unknown) = .ok () c') :
    Passes (room + 5) (.for_ line name items body) c c'.outer

theorem stmtChain_of_forM {room : Nat} {body : List Stmt} {c c' : Context} {u : Unit}
    (h : body.forM (fun s => s.check room) c = .ok u c') : StmtChain room body c c' := by
  induction body generalizing c with
  | nil =>
    cases h
    exact .nil
  | cons s rest ih =>
    change (s.check room >>= fun _ => rest.forM _) c = _ at h
    obtain ⟨_, c1, h1, h2⟩ := bind_eq_ok.mp h
    exact .cons h1 (ih h2)

theorem stmtChain_of_list {room : Nat} {body : List Stmt} {c c' : Context} {u : Unit}
    (h : Check.list (fun s => s.check room) body c = .ok u c') :
    StmtChain room body (c.hoisting body) c' := by
  unfold Check.list at h
  obtain ⟨_, c1, h1, h2⟩ := bind_eq_ok.mp h
  have hc1 : c1 = c.declareAll ((functionNames body).map id) .function := declareAll_eq_ok.mp h1
  rw [List.map_id] at hc1
  subst hc1
  exact stmtChain_of_forM h2

theorem passes_of_check : ∀ room (s : Stmt) c c', s.check room c = .ok () c' →
    s.Passes room c c' := by
  refine stmt_check_induction ?shallow ?block ?funk ?with_ ?for_ ?expression ?print ?makeValue
    ?make ?if_ ?ifElse ?while_ ?returnValue ?return_
  case shallow =>
    intro room s heq c c' h
    rw [heq] at h
    cases h
  case block =>
    intro room line body _ c c' h
    simp only [Stmt.check, inScope_eq_ok] at h
    obtain ⟨c1, h1, rfl⟩ := h
    exact .block (stmtChain_of_list h1)
  case funk =>
    intro room line name params bodyLine body _ c c' h
    simp only [Stmt.check, bind_eq_ok, inScope_eq_ok] at h
    obtain ⟨_, c1, h1, c2, ⟨_, c3, h2, h3⟩, rfl⟩ := h
    cases h1
    rw [declareAll_eq_ok] at h2
    subst h2
    exact .funk (stmtChain_of_list h3)
  case with_ =>
    intro room line value name body _ c c' h
    simp only [Stmt.check, bind_eq_ok, inScope_eq_ok] at h
    obtain ⟨t, c1, h1, c2, ⟨_, c3, h2, h3⟩, rfl⟩ := h
    cases h2
    exact .with_ h1 h3
  case for_ =>
    intro room line name items body _ c c' h
    simp only [Stmt.check, bind_eq_ok, ensure_eq_ok, inScope_eq_ok, beq_iff_eq] at h
    obtain ⟨_, c1, h1, _, _, ⟨rfl, rfl⟩, c2, ⟨_, c3, h2, h3⟩, rfl⟩ := h
    cases h2
    exact .for_ h1 h3
  case expression =>
    intro room line value c c' h
    simp only [Stmt.check, bind_eq_ok, pure_eq_ok] at h
    obtain ⟨t, c1, h1, -, rfl⟩ := h
    exact .expression h1
  case print =>
    intro room line value c c' h
    simp only [Stmt.check, bind_eq_ok, pure_eq_ok] at h
    obtain ⟨t, c1, h1, -, rfl⟩ := h
    exact .print h1
  case makeValue =>
    intro room line name value c c' h
    simp only [Stmt.check, bind_eq_ok] at h
    obtain ⟨t, c1, h1, _, c2, h2, h3⟩ := h
    cases h3
    exact .makeValue h1 (scopes_declare (scopes_of_noteShadowing h2) name.text t)
  case make =>
    intro room line name c c' h
    simp only [Stmt.check, bind_eq_ok, pure_eq_ok] at h
    obtain ⟨_, _, ⟨rfl, rfl⟩, _, c1, h1, h2⟩ := h
    cases h2
    exact .make (scopes_declare (scopes_of_noteShadowing h1) name.text .nil)
  case if_ =>
    intro room line condition yes _ c c' h
    simp only [Stmt.check, bind_eq_ok, ensure_eq_ok, pure_eq_ok] at h
    obtain ⟨t, c1, h1, _, _, ⟨ht, rfl⟩, _, c2, h2, -, rfl⟩ := h
    exact .if_ h1 ht (.cons h2 .nil)
  case ifElse =>
    intro room line condition yes no _ _ c c' h
    simp only [Stmt.check, bind_eq_ok, ensure_eq_ok] at h
    obtain ⟨t, c1, h1, _, _, ⟨ht, rfl⟩, _, c2, h2, h3⟩ := h
    exact .if_ h1 ht (.cons h2 (.cons h3 .nil))
  case while_ =>
    intro room line condition body _ c c' h
    simp only [Stmt.check, bind_eq_ok, ensure_eq_ok] at h
    obtain ⟨t, c1, h1, _, _, ⟨ht, rfl⟩, h2⟩ := h
    exact .while_ h1 ht h2
  case returnValue =>
    intro room line value c c' h
    simp only [Stmt.check, bind_eq_ok, pure_eq_ok] at h
    obtain ⟨t, c1, h1, -, rfl⟩ := h
    exact .returnValue h1
  case return_ =>
    intro room line c c' h
    simp only [Stmt.check, pure_eq_ok] at h
    obtain ⟨-, rfl⟩ := h
    exact .return_

end FunkLang
