-- The names that the statements of a program declare, and where declarations
-- may stand.
import FunkLang.Tree

namespace FunkLang

/-! ## The names of a statement -/

/-- The names that a statement sets in the scope it runs in. The branches of a statement run in
its own scope. -/
def Stmt.declares : Stmt → List String
  | make _ name _ => [name.text]
  | funk _ name _ _ _ => [name.text]
  | if_ _ _ yes none => yes.declares
  | if_ _ _ yes (some no) => yes.declares ++ no.declares
  | while_ _ _ body => body.declares
  | _ => []

mutual

/-- The names of all functions that are declared anywhere in a statement. -/
def Stmt.functions : Stmt → List String
  | .block _ body => functionsOfAll body
  | .if_ _ _ yes none => yes.functions
  | .if_ _ _ yes (some no) => yes.functions ++ no.functions
  | .while_ _ _ body => body.functions
  | .funk _ name _ _ body => name.text :: functionsOfAll body
  | .with_ _ _ _ body => body.functions
  | .for_ _ _ _ body => body.functions
  | _ => []

/-- The names of all functions that are declared anywhere in a list of statements. -/
def functionsOfAll : List Stmt → List String
  | [] => []
  | s :: rest => s.functions ++ functionsOfAll rest

end

mutual

/-- The names of all variables that are introduced anywhere in a statement: by `make`, by `with`,
by `for`, or as a parameter. -/
def Stmt.locals : Stmt → List String
  | .make _ name _ => [name.text]
  | .block _ body => localsOfAll body
  | .if_ _ _ yes none => yes.locals
  | .if_ _ _ yes (some no) => yes.locals ++ no.locals
  | .while_ _ _ body => body.locals
  | .funk _ _ params _ body => params.map (·.text) ++ localsOfAll body
  | .with_ _ _ name body => name.text :: body.locals
  | .for_ _ name _ body => name.text :: body.locals
  | _ => []

/-- The names of all variables that are introduced anywhere in a list of statements. -/
def localsOfAll : List Stmt → List String
  | [] => []
  | s :: rest => s.locals ++ localsOfAll rest

end

theorem functionsOfAll_eq (body : List Stmt) :
    functionsOfAll body = body.flatMap Stmt.functions := by
  induction body with
  | nil => rfl
  | cons s rest ih => rw [functionsOfAll, ih, List.flatMap_cons]

theorem localsOfAll_eq (body : List Stmt) : localsOfAll body = body.flatMap Stmt.locals := by
  induction body with
  | nil => rfl
  | cons s rest ih => rw [localsOfAll, ih, List.flatMap_cons]

/-- Does a statement set a name itself? -/
def Stmt.isDeclaration : Stmt → Bool
  | make .. | funk .. => true
  | _ => false

/-- No branch and no body of a loop or a `with` is a declaration. -/
inductive Stmt.Formed : Stmt → Prop
  | expression {line value} : Formed (.expression line value)
  | print {line value} : Formed (.print line value)
  | make {line name value} : Formed (.make line name value)
  | block {line body} (h : ∀ s ∈ body, s.Formed) : Formed (.block line body)
  | if_ {line condition yes no} (hyes : yes.Formed) (plain : yes.isDeclaration = false)
    (hno : ∀ s, no = some s → s.Formed)
    (plainNo : ∀ s, no = some s → s.isDeclaration = false) :
    Formed (.if_ line condition yes no)
  | while_ {line condition body} (h : body.Formed) (plain : body.isDeclaration = false) :
    Formed (.while_ line condition body)
  | funk {line name params bodyLine body} (h : ∀ s ∈ body, s.Formed) :
    Formed (.funk line name params bodyLine body)
  | return_ {line value} : Formed (.return_ line value)
  | with_ {line value name body} (h : body.Formed) (plain : body.isDeclaration = false) :
    Formed (.with_ line value name body)
  | for_ {line name items body} (h : body.Formed) (plain : body.isDeclaration = false) :
    Formed (.for_ line name items body)

theorem Stmt.Formed.declares_eq_nil {s : Stmt} (h : s.Formed) (plain : s.isDeclaration = false) :
    s.declares = [] := by
  induction h with
  | make => cases plain
  | funk => cases plain
  | @if_ line condition yes no _ hplain _ hplainNo ihyes ihno =>
    cases no with
    | none => exact ihyes hplain
    | some no =>
      unfold Stmt.declares
      rw [ihyes hplain, ihno no rfl (hplainNo no rfl)]
      rfl
  | while_ _ hplain ih => exact ih hplain
  | expression => rfl
  | print => rfl
  | block => rfl
  | return_ => rfl
  | with_ => rfl
  | for_ => rfl

theorem functionNames_subset {body : List Stmt} {name : String} (h : name ∈ functionNames body) :
    name ∈ functionsOfAll body := by
  unfold functionNames at h
  obtain ⟨s, hs, hname⟩ := List.mem_filterMap.mp h
  induction body with
  | nil => cases hs
  | cons s' rest ih =>
    rw [functionsOfAll, List.mem_append]
    rcases List.mem_cons.mp hs with rfl | hs
    · refine Or.inl ?_
      cases s <;> cases hname
      exact List.mem_cons_self
    · exact Or.inr (ih (List.mem_filterMap.mpr ⟨s, hs, hname⟩) hs)

end FunkLang
