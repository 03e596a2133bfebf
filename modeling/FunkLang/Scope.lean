-- Scopes: each has names of its own and sees those of the scopes around it,
-- the nearest first. A scope is opened inside one that is there already, so
-- every chain of scopes ends at a root.
import FunkLang.Table

namespace FunkLang

/-- A scope: its own names, and the scope around it unless it is a root. -/
structure Scope (α : Type) where
  names : Table α
  parent : Option Nat

/-- Scopes by number, in the order in which they were opened. -/
structure ScopeTree (α : Type) where
  scopes : Array (Scope α)

namespace ScopeTree

variable {α : Type}

/-- The number of the first scope. -/
def rootScope : Nat := 0

/-- A tree with a root alone. -/
def root : ScopeTree α := ⟨#[⟨.empty, none⟩]⟩

instance : Inhabited (ScopeTree α) := ⟨root⟩

/-- The own names of a scope. -/
def table (t : ScopeTree α) (s : Nat) : Table α :=
  match t.scopes[s]? with
  | some scope => scope.names
  | none => .empty

/-- The scope around a scope. -/
def parent? (t : ScopeTree α) (s : Nat) : Option Nat :=
  match t.scopes[s]? with
  | some scope => scope.parent
  | none => none

/-! ## Chains -/

/-- A scope and at most `steps - 1` of those around it, from the inside out. -/
def chainFrom (t : ScopeTree α) : (steps : Nat) → (s : Nat) → List Nat
  | 0, _ => []
  | steps + 1, s =>
    s :: match t.parent? s with
      | some p => t.chainFrom steps p
      | none => []

/-- A scope and all those around it, from the inside out. Each was opened
before the one inside it, so there are no more of them than its number allows. -/
def chain (t : ScopeTree α) (s : Nat) : List Nat := t.chainFrom (s + 1) s

/-- The nearest scope around `s`, itself included, that has the name. -/
def home? (t : ScopeTree α) (s : Nat) (name : String) : Option Nat :=
  (t.chain s).find? fun i => (t.table i).contains name

/-- What a name stands for in a scope. -/
def get? (t : ScopeTree α) (s : Nat) (name : String) : Option α :=
  (t.chain s).findSome? fun i => (t.table i).get? name

/-- Does a name stand for anything in a scope? -/
def contains (t : ScopeTree α) (s : Nat) (name : String) : Bool := (t.home? s name).isSome

/-! ## Changes -/

/-- Opens a scope inside `s`, and gives its number. -/
def enclose (t : ScopeTree α) (s : Nat) : ScopeTree α × Nat :=
  let opened := t.scopes.size
  (⟨t.scopes.push ⟨.empty, some s⟩⟩, opened)

/-- Sets a name among the own names of a scope. -/
def declare (t : ScopeTree α) (s : Nat) (name : String) (value : α) : ScopeTree α :=
  ⟨t.scopes.modify s fun scope => { scope with names := scope.names.put name value }⟩

/-- Sets names among the own names of a scope, one after the other. -/
def declareAll (t : ScopeTree α) (s : Nat) (bindings : List (String × α)) : ScopeTree α :=
  bindings.foldl (fun t (name, value) => t.declare s name value) t

/-- Sets a name in a scope and in all those around it. -/
def declareGlobal (t : ScopeTree α) (s : Nat) (name : String) (value : α) : ScopeTree α :=
  (t.chain s).foldl (fun t i => t.declare i name value) t

/-- Sets a name where it is found from a scope. It has to be there already. -/
def assign? (t : ScopeTree α) (s : Nat) (name : String) (value : α) : Option (ScopeTree α) :=
  (t.home? s name).map fun i => t.declare i name value

end ScopeTree
end FunkLang
