-- The induction behind every law of the checker, which follows its recursion,
-- and what its steps do to the names of a context.
import FunkLang.Proofs.Outcome
import FunkLang.Proofs.ScopeTree
import FunkLang.Typing.Check
import Mathlib.Data.Set.Basic

namespace FunkLang

/-! ## Induction -/

/-- What holds of a form of an expression, given that it holds of all that the form checks with
the room that is left, holds of the whole expression at any room. -/
theorem expr_check_induction {E : Nat → Expr → Prop}
    (shallow : ∀ room e, e.check room = throw ⟨.tooDeep, none⟩ → E room e)
    (atom : ∀ room mark, E (room + 3) (.atom mark))
    (unary : ∀ room op operand, E room operand → E (room + 3) (.unary op operand))
    (binary : ∀ room left op right, (∀ e, E room e) → (∀ e, E (room + 1) e) →
      E (room + 4) (.binary left op right))
    (logical : ∀ room op left right, E room left → E room right →
      E (room + 4) (.logical op left right))
    (assign : ∀ room name value, E room value → E (room + 3) (.assign name value))
    (assignIndex : ∀ room collection place value, E room collection → E room place →
      E room value → E (room + 3) (.assignIndex collection place value))
    (assignField : ∀ room collection key value, E room collection → E room value →
      E (room + 3) (.assignField collection key value))
    (choice : ∀ room condition yes no, E room condition → E room yes → E room no →
      E (room + 3) (.choice condition yes no))
    (call : ∀ room callee arguments, E room callee → (∀ a, E room a) →
      E (room + 3) (.call callee arguments))
    (list : ∀ room line elements, (∀ e, E room e) → E (room + 3) (.list line elements))
    (record : ∀ room line entries, (∀ e, E room e) → E (room + 3) (.record line entries))
    (index : ∀ room collection place, E room collection → E room place →
      E (room + 3) (.index collection place))
    (field : ∀ room collection key, E room collection → E (room + 3) (.field collection key)) :
    ∀ room e, E room e := by
  refine Expr.check.induct E atom unary binary logical assign assignIndex assignField choice call
    list record index field ?_
  intro room e h1 h2 h3 h4 h5 h6 h7 h8 h9 h10 h11 h12 h13
  exact shallow room e
    (Expr.check.eq_14 room e h1 h2 h3 h4 h5 h6 h7 h8 h9 h10 h11 h12 h13)

/-- The same for statements. What stands in a statement as an expression is checked before. -/
theorem stmt_check_induction {S : Nat → Stmt → Prop}
    (shallow : ∀ room s, s.check room = throw ⟨.tooDeep, none⟩ → S room s)
    (block : ∀ room line body, (∀ s, S room s) → S (room + 6) (.block line body))
    (funk : ∀ room line name params bodyLine body, (∀ s, S room s) →
      S (room + 6) (.funk line name params bodyLine body))
    (with_ : ∀ room line value name body, S room body → S (room + 5) (.with_ line value name body))
    (for_ : ∀ room line name items body, S room body → S (room + 5) (.for_ line name items body))
    (expression : ∀ room line value, S (room + 3) (.expression line value))
    (print : ∀ room line value, S (room + 3) (.print line value))
    (makeValue : ∀ room line name value, S (room + 3) (.make line name (some value)))
    (make : ∀ room line name, S (room + 3) (.make line name none))
    (if_ : ∀ room line condition yes, S room yes → S (room + 3) (.if_ line condition yes none))
    (ifElse : ∀ room line condition yes no, S room yes → S room no →
      S (room + 3) (.if_ line condition yes (some no)))
    (while_ : ∀ room line condition body, S room body → S (room + 3) (.while_ line condition body))
    (returnValue : ∀ room line value, S (room + 3) (.return_ line (some value)))
    (return_ : ∀ room line, S (room + 3) (.return_ line none)) :
    ∀ room s, S room s := by
  refine Stmt.check.induct S block funk with_ for_ expression print makeValue make ?_ while_
    returnValue return_ ?_
  · intro room line condition yes no ihyes ihno
    cases no with
    | none => exact if_ room line condition yes ihyes
    | some no => exact ifElse room line condition yes no ihyes (ihno no)
  intro room s h1 h2 h3 h4 h5 h6 h7 h8 h9 h10
  exact shallow room s (Stmt.check.eq_14 room s h1 h2 h3 h4 h5 h6 h7 h8 h9 h10)

/-! ## Steps -/

namespace Check

variable {α : Type} {c : Context}

@[simp] theorem ends_ensure {good : Unit → Context → Prop} {bad : TypeError → Context → Prop}
    {holds : Bool} {problem : TypeProblem} {line : Int} :
    Ends good bad (ensure holds problem line c) ↔
      (holds = true → good () c) ∧ (holds = false → bad ⟨problem, some line⟩ c) := by
  unfold ensure
  cases holds with
  | true => simp
  | false => simp [fail]

/-- A check in a scope of its own. -/
@[simp] theorem ends_inScope {good : α → Context → Prop} {bad : TypeError → Context → Prop}
    {body : Check α} :
    Ends good bad (inScope body c) ↔
      Ends (fun a c => good a { c with scopes := c.scopes.drop 1 })
        (fun e c => bad e { c with scopes := c.scopes.drop 1 })
        (body { c with scopes := .empty :: c.scopes }) := by
  unfold inScope
  cases body { c with scopes := .empty :: c.scopes } with
  | ok a c => rfl
  | error e c => rfl

@[simp] theorem ends_declare {good : Unit → Context → Prop} {bad : TypeError → Context → Prop}
    {name : String} {t : Ty} : Ends good bad (declare name t c) ↔ good () (c.declare name t) :=
  Iff.rfl

end Check

/-! ## The names of a context -/

/-- The names of the innermost scope are more by those of `added`. -/
def grown (added : List String) (scopes : List (Set String)) : List (Set String) :=
  scopes.modifyHead (· ∪ {n | n ∈ added})

@[simp] theorem grown_nil (scopes : List (Set String)) : grown [] scopes = scopes := by
  cases scopes with
  | nil => rfl
  | cons s rest => simp [grown]

theorem grown_append (added more : List String) (scopes : List (Set String)) :
    grown (added ++ more) scopes = grown more (grown added scopes) := by
  cases scopes with
  | nil => rfl
  | cons s rest =>
    unfold grown
    simp only [List.modifyHead_cons, Set.union_assoc]
    congr 2
    ext n
    simp

theorem drop_grown (added : List String) (scopes : List (Set String)) :
    (grown added scopes).drop 1 = scopes.drop 1 := by
  cases scopes with
  | nil => rfl
  | cons s rest => rfl

@[simp] theorem grown_eq_nil {added : List String} {scopes : List (Set String)} :
    grown added scopes = [] ↔ scopes = [] := by
  cases scopes with
  | nil => simp [grown]
  | cons s rest => simp [grown]

namespace Context

/-- The names of each scope, the innermost first. -/
def names (c : Context) : List (Set String) := c.scopes.map fun s => {n | s.contains n = true}

theorem names_declare (c : Context) (name : String) (t : Ty) :
    (c.declare name t).names = grown [name] c.names := by
  obtain ⟨scopes, shadowed⟩ := c
  cases scopes with
  | nil => rfl
  | cons s rest =>
    unfold declare names grown
    simp only [List.modifyHead_cons, List.map_cons]
    congr 1
    ext n
    simp [contains_put, or_comm]

theorem names_setFirst {name : String} {t : Ty} {scopes scopes' : List (Table Ty)}
    (h : setFirst name t scopes = some scopes') :
    scopes'.map (fun s => {n | s.contains n = true}) =
      scopes.map (fun s => {n | s.contains n = true}) := by
  induction scopes generalizing scopes' with
  | nil => cases h
  | cons s rest ih =>
    unfold setFirst at h
    split at h
    · rename_i hcontains
      cases h
      simp only [List.map_cons]
      congr 1
      ext n
      by_cases hn : n = name
      · simp [contains_put, hn, hcontains]
      · simp [contains_put, hn]
    · obtain ⟨rest', hrest, rfl⟩ := Option.map_eq_some_iff.mp h
      simp only [List.map_cons, ih hrest]

theorem names_assign {c c' : Context} {name : String} {t : Ty} (h : c.assign? name t = some c') :
    c'.names = c.names := by
  unfold assign? at h
  obtain ⟨scopes, hscopes, rfl⟩ := Option.map_eq_some_iff.mp h
  exact names_setFirst hscopes

theorem mem_setFirst {name : String} {t : Ty} {before after : List (Table Ty)}
    (h : setFirst name t before = some after) {s : Table Ty} (hs : s ∈ after) :
    s ∈ before ∨ ∃ s' ∈ before, s = s'.put name t := by
  induction before generalizing after with
  | nil => cases h
  | cons first rest ih =>
    unfold setFirst at h
    split at h
    · cases h
      rcases List.mem_cons.mp hs with rfl | hs
      · exact Or.inr ⟨first, List.mem_cons_self, rfl⟩
      · exact Or.inl (List.mem_cons_of_mem _ hs)
    · obtain ⟨rest', hrest, rfl⟩ := Option.map_eq_some_iff.mp h
      rcases List.mem_cons.mp hs with rfl | hs
      · exact Or.inl List.mem_cons_self
      · rcases ih hrest hs with hs | ⟨s', hs', heq⟩
        · exact Or.inl (List.mem_cons_of_mem _ hs)
        · exact Or.inr ⟨s', List.mem_cons_of_mem _ hs', heq⟩

theorem findSome?_setFirst {name : String} {t : Ty} {before after : List (Table Ty)}
    (h : setFirst name t before = some after) :
    after.findSome? (fun s => s.get? name) = some t := by
  induction before generalizing after with
  | nil => cases h
  | cons first rest ih =>
    unfold setFirst at h
    split at h
    · cases h
      simp
    · rename_i hcontains
      obtain ⟨rest', hrest, rfl⟩ := Option.map_eq_some_iff.mp h
      have hnone : first.get? name = none := by
        rw [contains_eq_isSome] at hcontains
        simpa using hcontains
      rw [List.findSome?_cons, hnone]
      exact ih hrest

/-- An assignment leaves the variable with the type that was assigned. -/
theorem get?_of_assign {c c' : Context} {name : String} {t : Ty}
    (h : c.assign? name t = some c') : c'.get? name = some t := by
  obtain ⟨scopes, hscopes, rfl⟩ := Option.map_eq_some_iff.mp h
  exact findSome?_setFirst hscopes

theorem setFirst_isSome {name : String} {t : Ty} {scopes : List (Table Ty)} :
    (setFirst name t scopes).isSome = true ↔ ∃ s ∈ scopes, s.contains name = true := by
  induction scopes with
  | nil => simp [setFirst]
  | cons s rest ih =>
    unfold setFirst
    by_cases h : s.contains name = true
    · simp [h]
    · simp [h, ih]

theorem exists_mem_names {c : Context} {name : String} :
    (∃ S ∈ c.names, name ∈ S) ↔ ∃ s ∈ c.scopes, s.contains name = true := by
  simp [names]

theorem get?_isSome {c : Context} {name : String} :
    (c.get? name).isSome = true ↔ ∃ S ∈ c.names, name ∈ S := by
  rw [exists_mem_names]
  unfold get?
  rw [List.findSome?_isSome_iff]
  rfl

theorem assign?_isSome {c : Context} {name : String} {t : Ty} :
    (c.assign? name t).isSome = true ↔ ∃ S ∈ c.names, name ∈ S := by
  rw [exists_mem_names]
  unfold assign?
  rw [Option.isSome_map]
  exact setFirst_isSome

end Context
end FunkLang
