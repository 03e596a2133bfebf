-- Checking the types of a program. The checker goes through the tree in the
-- order of a run, once, and stops at the first thing that cannot be right, or
-- where the room for nesting does not last.
import FunkLang.Typing

namespace FunkLang

/-- A check that changes the context, and keeps the changes where it fails. -/
abbrev Check := EStateM TypeError Context

namespace Check

def fail {α : Type} (problem : TypeProblem) (line : Int) : Check α := throw ⟨problem, some line⟩

/-- Fails unless something holds. -/
def ensure (holds : Bool) (problem : TypeProblem) (line : Int) : Check Unit :=
  if holds then return () else fail problem line

/-- Sets a name in the innermost scope. -/
def declare (name : String) (t : Ty) : Check Unit := modify fun c => c.declare name t

/-- The type of a name in sight. -/
def lookup (name : String) (line : Int) : Check Ty := do
  match (← get).get? name with
  | some t => return t
  | none => fail (.undefined name) line

/-- Sets the type of a name in sight. -/
def assign (name : String) (t : Ty) (line : Int) : Check Unit := do
  match (← get).assign? name t with
  | some c => set c
  | none => fail (.undefined name) line

/-- Notes a declaration of a name that is in sight already. -/
def noteShadowing (name : String) (line : Int) : Check Unit := do
  if ((← get).get? name).isSome && !Builtin.isName name then
    modify fun c => { c with shadowed := c.shadowed.push ⟨name, line⟩ }

/-- Checks in a scope of its own, and leaves it however the check ends. -/
def inScope {α : Type} (body : Check α) : Check α := fun c =>
  match body { c with scopes := .empty :: c.scopes } with
  | .ok a c => .ok a { c with scopes := c.scopes.drop 1 }
  | .error e c => .error e { c with scopes := c.scopes.drop 1 }

/-! ## Operators -/

def atom (m : Mark Atom) : Check Ty :=
  match m.kind with
  | .number => return .number
  | .string => return .string
  | .boolean => return .boolean
  | .nil => return .nil
  | .name => lookup m.text m.line

def unary (op : Mark UnaryOp) (t : Ty) : Check Ty :=
  match op.kind with
  | .minus => do
    ensure (t.fits .number) (.notNumber t) op.line
    return t
  | .not => do
    ensure (t.fits .boolean) (.notBoolean t) op.line
    return .boolean

/-- The type of a sum, a difference, a product or a quotient, if it has one. -/
def arithmetic? (op : BinaryOp) (a b : Ty) : Option Ty :=
  if a = .unknown ∨ b = .unknown then some .unknown
  else if a = .number ∧ b = .number then some .number
  else if op = .plus ∧ a = .string ∧ b = .string then some .string
  else none

/-- Is this a sum, a difference, a product or a quotient? -/
def isArithmetic (op : BinaryOp) : Bool := op.tier == .factor || op.tier == .term

/-- The type of a binary operation, if it has one. -/
def binary? (op : BinaryOp) (a b : Ty) : Option Ty :=
  match op.tier with
  | .factor | .term => arithmetic? op a b
  | .comparison => if a.fits .number && b.fits .number then some .boolean else none
  | .equality =>
    if a = b ∨ a = .unknown ∨ b = .unknown then some .boolean else none

end Check

/-! ## Expressions -/

open Check in
/-- The type of an expression. -/
def Expr.check : (room : Nat) → Expr → Check Ty
  | _ + 3, .atom mark => Check.atom mark
  | room + 3, .unary op operand => do Check.unary op (← operand.check room)
  | room + 4, .binary left op right => do
    let part (e : Expr) : Check Ty :=
      if isArithmetic op.kind then e.check room else e.check (room + 1)
    let a ← part left
    let b ← part right
    match binary? op.kind a b with
    | some t => return t
    | none => fail (.operands op.text a b) left.line
  | room + 4, .logical op left right => do
    let a ← left.check room
    let b ← right.check room
    ensure (a.fits .boolean && b.fits .boolean) (.notBooleans op a b) left.line
    return .boolean
  | room + 3, .assign name value => do
    let t ← value.check room
    Check.assign name.text t name.line
    return t
  | room + 3, .assignIndex collection place value => do
    let c ← collection.check room
    ensure (c.fits .list) (.notIndexAssignable c) collection.line
    let i ← place.check room
    ensure (i.fits .number) (.notListIndex i) collection.line
    value.check room
  | room + 3, .assignField collection key value => do
    let c ← collection.check room
    ensure (c.fits .record) (.notFieldAssignable key.text c) collection.line
    value.check room
  | room + 3, .choice condition yes no => do
    let c ← condition.check room
    ensure (c.fits .boolean) (.condition .choice c) yes.line
    let a ← yes.check room
    let b ← no.check room
    return if a = b then a else .unknown
  | room + 3, .call callee arguments => do
    let f ← callee.check room
    ensure (f.fits .function) (.notCallable f) callee.line
    arguments.forM fun a => do let _ ← a.check room
    return .unknown
  | room + 3, .list _ elements => do
    elements.forM fun e => do let _ ← e.check room
    return .list
  | room + 3, .record _ entries => do
    entries.forM fun (_, e) => do let _ ← e.check room
    return .record
  | room + 3, .index collection place => do
    let c ← collection.check room
    ensure (c.fits .list || c.fits .string) (.notIndexable c) collection.line
    let i ← place.check room
    ensure (i.fits .number) (.notIndex i) collection.line
    return .unknown
  | room + 3, .field collection key => do
    let c ← collection.check room
    ensure (c.fits .record) (.noFields key.text c) collection.line
    return .unknown
  | _, _ => throw ⟨.tooDeep, none⟩

/-! ## Statements -/

/-- Checks a list of statements, one by one. Its functions are in sight of
all of them. -/
def Check.list (check : Stmt → Check Unit) (body : List Stmt) : Check Unit := do
  (functionNames body).forM fun name => Check.declare name .function
  body.forM check

open Check in
/-- Checks a statement. -/
def Stmt.check : (room : Nat) → Stmt → Check Unit
  | room + 6, .block _ body => inScope (Check.list (fun s => s.check room) body)
  | room + 6, .funk _ name params _ body => do
    declare name.text .function
    inScope do
      params.forM fun p => declare p.text .unknown
      Check.list (fun s => s.check room) body
  | room + 5, .with_ _ value name body => do
    let t ← value.check (room + 2)
    inScope do
      declare name.text t
      body.check room
  | room + 5, .for_ line name items body => do
    let t ← items.check (room + 2)
    ensure (t == .unknown) (.notIterable t) line
    inScope do
      declare name.text .unknown
      body.check room
  | room + 3, .expression _ value => do let _ ← value.check room
  | room + 3, .print _ value => do let _ ← value.check room
  | room + 3, .make line name value => do
    let t ← match value with
      | some e => e.check room
      | none => pure .nil
    noteShadowing name.text line
    declare name.text t
  | room + 3, .if_ line condition yes no => do
    let c ← condition.check room
    ensure (c.fits .boolean) (.condition .if_ c) line
    yes.check room
    match no with
    | some no => no.check room
    | none => return ()
  | room + 3, .while_ line condition body => do
    let c ← condition.check room
    ensure (c.fits .boolean) (.condition .while_ c) line
    body.check room
  | room + 3, .return_ _ value => do
    match value with
    | some e => let _ ← e.check room
    | none => return ()
  | _, _ => throw ⟨.tooDeep, none⟩

/-- Checks a program. -/
def checkProgram (room : Nat) (program : List Stmt) : Check Unit :=
  Check.list (fun s => s.check room) program

end FunkLang
