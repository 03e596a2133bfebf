-- The scopes of the checker. The check of a statement list adds the names of
-- its functions and of its variables to the scope that it is in, and changes
-- no other names of a scope that was there before, at any time.
import FunkLang.Proofs.CheckVisit
import FunkLang.Proofs.Placement
import FunkLang.Proofs.Scoping

namespace FunkLang

/-! ## What keeps names -/

/-- Every scope has the names that it had. -/
def SameNames (c c' : Context) : Prop := c'.names = c.names

/-- Every scope around the innermost one has the names that it had. -/
def SameOuter (c c' : Context) : Prop := c'.names.drop 1 = c.names.drop 1

instance : Std.Refl SameNames := ⟨fun _ => rfl⟩
instance : IsTrans Context SameNames := ⟨fun _ _ _ h h' => Eq.trans h' h⟩
instance : Std.Refl SameOuter := ⟨fun _ => rfl⟩
instance : IsTrans Context SameOuter := ⟨fun _ _ _ h h' => Eq.trans h' h⟩

theorem SameNames.outer {c c' : Context} (h : SameNames c c') : SameOuter c c' :=
  congrArg (List.drop 1) h

theorem names_inner (c : Context) : c.inner.names = ∅ :: c.names := by
  simp [Context.inner, Context.names]

theorem names_outer (c : Context) : c.outer.names = c.names.drop 1 := by
  simp [Context.outer, Context.names]

section Checks

variable {α β : Type}

namespace Check

/-- An expression changes types, and no names. -/
theorem keeps_expr (room : Nat) (e : Expr) : Keeps SameNames (e.check room) := fun c =>
  (expr_sees ∅ c.names room e c rfl).imp (fun _ _ h => h.2) (fun _ _ h => h)

theorem keeps_ensure (holds : Bool) (problem : TypeProblem) (line : Int) :
    Keeps SameNames (Check.ensure holds problem line) := by
  intro c
  rw [Check.ends_ensure]
  exact ⟨fun _ => rfl, fun _ => rfl⟩

theorem keeps_pure (a : α) : Keeps SameNames (pure a : Check α) := fun _ => rfl

theorem keeps_declare (name : String) (t : Ty) : Keeps SameOuter (Check.declare name t) := by
  intro c
  rw [Check.ends_declare]
  unfold SameOuter
  rw [Context.names_declare, drop_grown]

theorem keeps_noteShadowing (name : String) (line : Int) :
    Keeps SameNames (Check.noteShadowing name line) := by
  intro c
  unfold Check.noteShadowing
  rw [ends_bind, ends_get]
  split <;> rfl

theorem keeps_then {x : Check α} {next : α → Check β} (hx : Keeps SameNames x)
    (hnext : ∀ a, Keeps SameNames (next a)) : Keeps SameNames (x >>= next) :=
  hx.bind (fun _ _ h => h) hnext

theorem keeps_forM {act : α → Check PUnit} {items : List α}
    (h : ∀ a ∈ items, Keeps SameOuter (act a)) : Keeps SameOuter (items.forM act) := by
  induction items with
  | nil => exact fun _ => rfl
  | cons a rest ih =>
    refine (h a List.mem_cons_self).bind (fun _ _ h => h) fun _ => ?_
    exact ih fun a ha => h a (List.mem_cons_of_mem _ ha)

/-- What is checked in a scope of its own may do with that scope what it likes. -/
theorem keeps_inScope {body : Check α} (h : Keeps SameOuter body) :
    Keeps SameNames (Check.inScope body) := by
  intro c
  rw [Check.ends_inScope]
  have houter (c' : Context) (h : SameOuter c.inner c') : SameNames c c'.outer := by
    unfold SameNames
    rw [names_outer, h, names_inner, List.drop_one, List.tail_cons]
  exact (h c.inner).imp (fun _ c' => houter c') (fun _ c' => houter c')

end Check
end Checks

open Check (keeps_expr keeps_ensure keeps_pure keeps_declare keeps_noteShadowing keeps_then
  keeps_forM keeps_inScope)

/-! ## Statements -/

/-- The names that the variables of a statement list go by, in order. -/
def variableNames (body : List Stmt) : List String :=
  body.filterMap fun
    | .make _ name _ => some name.text
    | _ => none

/-- A check of a statement. If it passes, it adds what the statement declares to the innermost
scope; if it fails, it has added the name of a function at most. -/
def Tidy (s : Stmt) (x : Check Unit) : Prop :=
  ∀ c : Context, Ends
    (fun _ c' => c'.names = grown (functionNames [s] ++ variableNames [s]) c.names)
    (fun _ c' => c'.names = c.names ∨ c'.names = grown (functionNames [s]) c.names) (x c)

section Statements

variable {s : Stmt} {x : Check Unit}

theorem names_of_plain (plain : s.isDeclaration = false) :
    functionNames [s] = [] ∧ variableNames [s] = [] := by
  cases s <;> first | exact ⟨rfl, rfl⟩ | cases plain

theorem Tidy.of_keeps (h : Keeps SameNames x) (plain : s.isDeclaration = false) : Tidy s x := by
  obtain ⟨hfunctions, hvariables⟩ := names_of_plain plain
  intro c
  rw [hfunctions, hvariables]
  exact (h c).imp (fun _ c' h => h.trans (grown_nil _).symm) (fun _ c' h => Or.inl h)

theorem Tidy.keeps (h : Tidy s x) (plain : s.isDeclaration = false) : Keeps SameNames x := by
  obtain ⟨hfunctions, hvariables⟩ := names_of_plain plain
  intro c
  have hc := h c
  rw [hfunctions, hvariables] at hc
  refine hc.imp (fun _ c' h => h.trans (grown_nil _)) fun _ c' h => ?_
  rcases h with h | h
  · exact h
  · exact h.trans (grown_nil _)

theorem Tidy.outer (h : Tidy s x) : Keeps SameOuter x := by
  intro c
  refine (h c).imp (fun _ c' h => ?_) fun _ c' h => ?_
  · unfold SameOuter
    rw [h, drop_grown]
  · rcases h with h | h
    · exact SameNames.outer h
    · unfold SameOuter
      rw [h, drop_grown]

theorem keeps_list {check : Stmt → Check Unit} {body : List Stmt}
    (h : ∀ s ∈ body, Tidy s (check s)) : Keeps SameOuter (Check.list check body) := by
  refine (keeps_forM fun name _ => keeps_declare name .function).bind (fun _ _ h => h) fun _ => ?_
  exact keeps_forM fun s hs => (h s hs).outer

/-- A variable is declared after its value, and after the note of what it hides. -/
theorem tidy_make {line : Int} {name : Name} {value? : Option Expr} {value : Check Ty}
    (h : Keeps SameNames value) : Tidy (.make line name value?) (do
      let t ← value
      Check.noteShadowing name.text line
      Check.declare name.text t) := by
  intro c
  simp only [ends_bind, Check.ends_declare]
  refine (h c).imp (fun t c1 h1 => ?_) (fun _ _ h => Or.inl h)
  refine (keeps_noteShadowing name.text line c1).imp (fun _ c2 h2 => ?_) fun _ _ h2 => Or.inl ?_
  · rw [Context.names_declare, h2, h1]
    rfl
  · exact Eq.trans h2 h1

/-- A body with a name of its own. -/
theorem keeps_named {check : Check Unit} (h : Keeps SameOuter check) (name : String) (t : Ty) :
    Keeps SameNames (Check.inScope (Check.declare name t >>= fun _ => check)) :=
  keeps_inScope ((keeps_declare name t).bind (fun _ _ h => h) fun _ => h)

end Statements

theorem stmt_tidy : ∀ room (s : Stmt), s.Formed → Tidy s (s.check room) := by
  refine stmt_check_induction ?shallow ?block ?funk ?with_ ?for_ ?expression ?print ?makeValue
    ?make ?if_ ?ifElse ?while_ ?returnValue ?return_
  case shallow =>
    intro room s h _ c
    rw [h]
    exact Or.inl rfl
  case block =>
    intro room line body ih formed
    cases formed with
    | block hbody =>
      simp only [Stmt.check]
      exact .of_keeps (keeps_inScope (keeps_list fun s hs => ih s (hbody s hs))) rfl
  case funk =>
    intro room line name params bodyLine body ih formed c
    cases formed with
    | funk hbody =>
      simp only [Stmt.check]
      rw [ends_bind, Check.ends_declare]
      have hinner := keeps_inScope ((keeps_forM fun p (_ : p ∈ params) =>
        keeps_declare p.text .unknown).bind (fun _ _ h => h) fun _ =>
          keeps_list fun s hs => ih s (hbody s hs))
      have hnames := Context.names_declare c name.text .function
      exact (hinner _).imp (fun _ _ h => Eq.trans h hnames) fun _ _ h => Or.inr (Eq.trans h hnames)
  case with_ =>
    intro room line value name body ih formed
    cases formed with
    | with_ hbody plain =>
      simp only [Stmt.check]
      exact .of_keeps (keeps_then (keeps_expr _ value) fun t =>
        keeps_named (ih hbody).outer name.text t) rfl
  case for_ =>
    intro room line name items body ih formed
    cases formed with
    | for_ hbody plain =>
      simp only [Stmt.check]
      exact .of_keeps (keeps_then (keeps_expr _ items) fun t =>
        keeps_then (keeps_ensure _ _ _) fun _ =>
          keeps_named (ih hbody).outer name.text .unknown) rfl
  case expression =>
    intro room line value _
    simp only [Stmt.check]
    exact .of_keeps (keeps_then (keeps_expr room value) fun _ => keeps_pure _) rfl
  case print =>
    intro room line value _
    simp only [Stmt.check]
    exact .of_keeps (keeps_then (keeps_expr room value) fun _ => keeps_pure _) rfl
  case makeValue =>
    intro room line name value _
    simp only [Stmt.check]
    exact tidy_make (keeps_expr room value)
  case make =>
    intro room line name _
    simp only [Stmt.check]
    exact tidy_make (keeps_pure Ty.nil)
  case if_ =>
    intro room line condition yes ih formed
    cases formed with
    | if_ hyes plain _ _ =>
      simp only [Stmt.check]
      exact .of_keeps (keeps_then (keeps_expr room condition) fun t =>
        keeps_then (keeps_ensure _ _ _) fun _ =>
          keeps_then ((ih hyes).keeps plain) fun _ => keeps_pure _) rfl
  case ifElse =>
    intro room line condition yes no ihyes ihno formed
    cases formed with
    | if_ hyes plain hno plainNo =>
      simp only [Stmt.check]
      exact .of_keeps (keeps_then (keeps_expr room condition) fun t =>
        keeps_then (keeps_ensure _ _ _) fun _ =>
          keeps_then ((ihyes hyes).keeps plain) fun _ =>
            (ihno (hno no rfl)).keeps (plainNo no rfl)) rfl
  case while_ =>
    intro room line condition body ih formed
    cases formed with
    | while_ hbody plain =>
      simp only [Stmt.check]
      exact .of_keeps (keeps_then (keeps_expr room condition) fun t =>
        keeps_then (keeps_ensure _ _ _) fun _ => (ih hbody).keeps plain) rfl
  case returnValue =>
    intro room line value _
    simp only [Stmt.check]
    exact .of_keeps (keeps_then (keeps_expr room value) fun _ => keeps_pure _) rfl
  case return_ =>
    intro room line _
    simp only [Stmt.check]
    exact .of_keeps (keeps_pure _) rfl

/-! ## Lists -/

section Sequences

variable {ε σ α ν : Type} {act : α → EStateM ε σ Unit}

/-- A sequence fails at one of its items, after those before it have passed. -/
theorem error_of_forM {items : List α} {s s' : σ} {e : ε} (h : items.forM act s = .error e s') :
    ∃ before a after s1, items = before ++ a :: after ∧ before.forM act s = .ok () s1 ∧
      act a s1 = .error e s' := by
  induction items generalizing s with
  | nil => cases h
  | cons a rest ih =>
    change (act a >>= fun _ => rest.forM act) s = _ at h
    change EStateM.bind (act a) _ s = _ at h
    unfold EStateM.bind at h
    cases ha : act a s with
    | error e' s1 =>
      rw [ha] at h
      cases h
      exact ⟨[], a, rest, s, rfl, rfl, ha⟩
    | ok u s1 =>
      rw [ha] at h
      obtain ⟨before, b, after, s2, rfl, hbefore, hb⟩ := ih h
      refine ⟨a :: before, b, after, s2, rfl, ?_, hb⟩
      exact bind_eq_ok.mpr ⟨u, s1, ha, hbefore⟩

/-- An item is visited after those before it have passed. -/
theorem passed_of_mem_eachVisit {visit : α → σ → ν} {items : List α} {s : σ} {v : ν}
    (h : v ∈ eachVisit visit act items s) :
    ∃ before a after s1, items = before ++ a :: after ∧ before.forM act s = .ok () s1 ∧
      v = visit a s1 := by
  induction items generalizing s with
  | nil => cases h
  | cons a rest ih =>
    rw [eachVisit, List.mem_cons] at h
    rcases h with rfl | h
    · exact ⟨[], a, rest, s, rfl, rfl, rfl⟩
    · obtain ⟨u, s1, ha, h⟩ := mem_andThen.mp h
      obtain ⟨before, b, after, s2, rfl, hbefore, rfl⟩ := ih h
      refine ⟨a :: before, b, after, s2, rfl, ?_, rfl⟩
      exact bind_eq_ok.mpr ⟨u, s1, ha, hbefore⟩

end Sequences

/-- The names that a statement list has declared once it is done with the first of its
statements: those of all its functions, and those of the variables among the first. -/
def declaredSoFar (body done : List Stmt) : List String := functionNames body ++ variableNames done

theorem grown_absorbed {added more : List String} (h : ∀ n ∈ added, n ∈ more)
    (scopes : List (Set String)) : grown added (grown more scopes) = grown more scopes := by
  cases scopes with
  | nil => rfl
  | cons S rest =>
    unfold grown
    simp only [List.modifyHead_cons]
    congr 1
    rw [Set.union_eq_left]
    exact fun n hn => Or.inr (h n hn)

section Lists

variable {check : Stmt → Check Unit} {body : List Stmt} {s : Stmt} {c c' : Context}
  {scopes : List (Set String)}

theorem functionNames_of_mem (hs : s ∈ body) : ∀ n ∈ functionNames [s], n ∈ functionNames body := by
  intro n hn
  unfold functionNames at hn ⊢
  obtain ⟨s', hs', hname⟩ := List.mem_filterMap.mp hn
  rw [List.mem_singleton] at hs'
  subst hs'
  exact List.mem_filterMap.mpr ⟨s', hs, hname⟩

/-- A list of statements that has passed so far has declared its variables so far. -/
theorem names_of_passed {done more : List Stmt} (hsub : ∀ s ∈ more, s ∈ body)
    (h : ∀ s ∈ more, Tidy s (check s)) (hc : c.names = grown (declaredSoFar body done) scopes)
    (hpassed : more.forM check c = .ok () c') :
    c'.names = grown (declaredSoFar body (done ++ more)) scopes := by
  induction more generalizing done c with
  | nil =>
    cases hpassed
    rw [List.append_nil]
    exact hc
  | cons s rest ih =>
    obtain ⟨u, c1, hs, hrest⟩ := bind_eq_ok.mp hpassed
    have hnames := h s List.mem_cons_self c
    rw [hs, ends_ok, hc, grown_append] at hnames
    have hc1 : c1.names = grown (declaredSoFar body (done ++ [s])) scopes := by
      have habsorbed : grown (functionNames [s]) (grown (declaredSoFar body done) scopes) =
          grown (declaredSoFar body done) scopes := by
        refine grown_absorbed (fun n hn => List.mem_append_left _ ?_) scopes
        exact functionNames_of_mem (hsub s List.mem_cons_self) n hn
      rw [hnames, habsorbed, ← grown_append]
      unfold declaredSoFar variableNames
      rw [List.filterMap_append, List.append_assoc]
    have hdone := ih (fun s hs => hsub s (List.mem_cons_of_mem _ hs))
      (fun s hs => h s (List.mem_cons_of_mem _ hs)) hc1 hrest
    rwa [List.append_assoc] at hdone

/-- A statement that fails has declared nothing that was not declared. -/
theorem names_of_failed {done : List Stmt} {e : TypeError} (hs : s ∈ body) (h : Tidy s (check s))
    (hc : c.names = grown (declaredSoFar body done) scopes) (hfailed : check s c = .error e c') :
    c'.names = grown (declaredSoFar body done) scopes := by
  have hnames := h c
  rw [hfailed, ends_error, hc] at hnames
  rcases hnames with hnames | hnames
  · exact hnames
  · rw [hnames, grown_absorbed]
    exact fun n hn => List.mem_append_left _ (functionNames_of_mem hs n hn)

theorem names_declaredAll (c : Context) (names : List String) (t : Ty) :
    (c.declareAll names t).names = grown names c.names := by
  induction names generalizing c with
  | nil => exact (grown_nil _).symm
  | cons name rest ih =>
    change ((c.declare name t).declareAll rest t).names = _
    rw [ih, Context.names_declare, ← grown_append]
    rfl

theorem names_hoisting (c : Context) (body : List Stmt) :
    (c.hoisting body).names = grown (declaredSoFar body []) c.names := by
  unfold Context.hoisting declaredSoFar variableNames
  rw [names_declaredAll, List.filterMap_nil, List.append_nil]

theorem list_eq (check : Stmt → Check Unit) (body : List Stmt) (c : Context) :
    Check.list check body c = body.forM check (c.hoisting body) := by
  have hoisted : ((functionNames body).forM fun name => Check.declare name .function) c =
      .ok ⟨⟩ (c.hoisting body) := by
    rw [declareAll_eq_ok, List.map_id']
    rfl
  change EStateM.bind _ _ c = _
  unfold EStateM.bind
  rw [hoisted]

/-- A list of statements declares its functions and its variables, up to where it fails. -/
theorem list_names (h : ∀ s ∈ body, Tidy s (check s)) (c : Context) :
    Ends (fun _ c' => c'.names = grown (declaredSoFar body body) c.names)
      (fun e c' => ∃ before s after c1, body = before ++ s :: after ∧
        before.forM check (c.hoisting body) = .ok () c1 ∧ check s c1 = .error e c' ∧
        c'.names = grown (declaredSoFar body before) c.names)
      (Check.list check body c) := by
  rw [list_eq]
  have hstart := names_hoisting c body
  cases hresult : body.forM check (c.hoisting body) with
  | ok u c' => exact names_of_passed (fun s hs => hs) h hstart hresult
  | error e c' =>
    obtain ⟨before, s, after, c1, rfl, hbefore, hs⟩ := error_of_forM hresult
    have hmem : ∀ s' ∈ before, s' ∈ before ++ s :: after := fun s' hs' => by simp [hs']
    have hc1 := names_of_passed hmem (fun s hs => h s (hmem s hs)) hstart hbefore
    exact ⟨before, s, after, c1, rfl, hbefore, hs,
      names_of_failed (by simp) (h s (by simp)) hc1 hs⟩

end Lists

/-! ## Visits -/

/-- A visit, in the check of `top`, inside of scopes with the names `outer`. If it is in no other
scopes, then it does not declare anything, unless it is the visit to `top`. -/
def Around (top : Stmt) (outer : List (Set String)) (w : CheckVisit) : Prop :=
  ∃ inner, w.context.names = inner ++ outer ∧ ∀ s, w.part = .stmt s →
    s.Formed ∧ (inner = [] → s = top ∨ s.isDeclaration = false)

section Visits

variable {room : Nat} {c : Context} {top : Stmt} {inner outer : List (Set String)} {S : Set String}

theorem around_expr {e : Expr} (h : c.names = inner ++ outer) :
    Around top outer (checkExpr room e c) := ⟨inner, h, nofun⟩

theorem around_stmt (inner : List (Set String)) {s : Stmt} (formed : s.Formed)
    (h : c.names = inner ++ outer) (hs : inner = [] → s.isDeclaration = false) :
    Around top outer (checkStmt room s c) := by
  refine ⟨inner, h, ?_⟩
  rintro _ ⟨⟩
  exact ⟨formed, fun hinner => Or.inr (hs hinner)⟩

theorem tidy_all (room : Nat) {body : List Stmt} (formed : ∀ s ∈ body, s.Formed) :
    ∀ s ∈ body, Tidy s (s.check room) := fun s hs => stmt_tidy room s (formed s hs)

/-- The visits to a list of statements are made with the names that are declared so far. -/
theorem visited_of_list {body : List Stmt} (formed : ∀ s ∈ body, s.Formed) {w : CheckVisit}
    (hw : w ∈ checkAll room body c) :
    ∃ before s after c1, body = before ++ s :: after ∧ w = checkStmt room s c1 ∧
      c1.names = grown (declaredSoFar body before) c.names := by
  obtain ⟨before, s, after, c1, rfl, hbefore, rfl⟩ := passed_of_mem_eachVisit hw
  have hmem : ∀ s' ∈ before, s' ∈ before ++ s :: after := fun s' hs' => by simp [hs']
  have hc1 := names_of_passed hmem (fun s' hs' => tidy_all room formed s' (hmem s' hs'))
    (names_hoisting c _) hbefore
  exact ⟨before, s, after, c1, rfl, rfl, hc1⟩

/-- A list of statements in a scope of its own stays in it. -/
theorem around_list {body : List Stmt} (formed : ∀ s ∈ body, s.Formed)
    (h : c.names = S :: (inner ++ outer)) {w : CheckVisit} (hw : w ∈ checkAll room body c) :
    Around top outer w := by
  obtain ⟨before, s, after, c1, rfl, rfl, hc1⟩ := visited_of_list formed hw
  rw [h] at hc1
  exact around_stmt (_ :: inner) (formed s (by simp)) hc1 nofun

theorem names_of_ok {α : Type} {x : Check α} {a : α} {c' : Context} (h : Keeps SameNames x)
    (hx : x c = .ok a c') : c'.names = c.names := by
  have hc := h c
  rwa [hx, ends_ok] at hc

theorem visited_of_each {α β : Type} {visit : α → Context → CheckVisit} {act : α → Check β}
    {items : List α} (each : ∀ a ∈ items, Keeps SameNames (act a)) {scopes : List (Set String)}
    (h : c.names = scopes) {u : CheckVisit} (hu : u ∈ eachVisit visit act items c) :
    ∃ a ∈ items, ∃ c1, c1.names = scopes ∧ u = visit a c1 := by
  have keeps : ∀ a ∈ items, ∀ c', c'.names = scopes →
      Ends (fun _ c => c.names = scopes) (fun _ _ => True) (act a c') := fun a ha c' hc' =>
    (each a ha c').imp (fun _ _ h => h.trans hc') fun _ _ _ => trivial
  exact of_mem_eachVisit keeps h hu

theorem names_inner_declareAll (c : Context) (names : List String) (t : Ty) :
    (c.inner.declareAll names t).names = {n | n ∈ names} :: c.names := by
  rw [names_declaredAll, names_inner]
  unfold grown
  rw [List.modifyHead_cons, Set.empty_union]

/-- An expression is checked, and then a statement in a scope with a name of its own. -/
theorem around_named {k : Nat} {e : Expr} {s : Stmt} {name : String} {t : Ty → Ty}
    (formed : s.Formed) (h : c.names = inner ++ outer) {u : CheckVisit}
    (hu : u ∈ checkExpr k e c :: andThen (e.check k c) fun a c =>
      [checkStmt room s (c.inner.declare name (t a))]) : Around top outer u := by
  rw [List.mem_cons, mem_andThen] at hu
  rcases hu with rfl | ⟨a, c1, ha, hu⟩
  · exact around_expr h
  · rw [List.mem_singleton] at hu
    subst hu
    have hc1 := (names_of_ok (keeps_expr k e) ha).trans h
    refine around_stmt ({n | n ∈ [name]} :: inner) formed ?_ nofun
    rw [List.cons_append, ← hc1]
    exact names_inner_declareAll c1 [name] (t a)

/-- The name of a function stands in the scope that it is in, where it is already if that is one
of `outer`. -/
theorem names_of_funk {name : String} {s : Stmt} (hname : functionNames [s] = [name])
    (habsorbed : grown (functionNames [top]) outer = outer) (h : c.names = inner ++ outer)
    (hs : inner = [] → s = top ∨ s.isDeclaration = false) (hdeclares : s.isDeclaration = true) :
    ∃ inner', (c.declare name .function).names = inner' ++ outer := by
  rw [Context.names_declare, h]
  cases inner with
  | nil =>
    rcases hs rfl with rfl | plain
    · rw [hname] at habsorbed
      exact ⟨[], habsorbed⟩
    · rw [hdeclares] at plain
      cases plain
  | cons S rest => exact ⟨_ :: rest, rfl⟩

theorem branches_plain {line : Int} {condition : Expr} {yes : Stmt} {no : Option Stmt}
    (formed : (Stmt.if_ line condition yes no).Formed) :
    ∀ s ∈ yes :: no.toList, s.Formed ∧ s.isDeclaration = false := by
  intro s hs
  cases formed with
  | if_ hyes plain hno plainNo =>
    rcases List.mem_cons.mp hs with rfl | hs
    · exact ⟨hyes, plain⟩
    · rw [Option.mem_toList] at hs
      exact ⟨hno s hs, plainNo s hs⟩

theorem around_opens (habsorbed : grown (functionNames [top]) outer = outer) {w u : CheckVisit}
    (h : Around top outer w) (hu : u ∈ w.opens) : Around top outer u := by
  obtain ⟨part, room, c⟩ := w
  obtain ⟨inner, hnames, hstmt⟩ := h
  dsimp only at hnames hstmt
  unfold CheckVisit.opens at hu
  dsimp only at hu
  split at hu
  case h_1 =>
    split at hu
    · obtain ⟨e, _, c1, hc1, rfl⟩ := visited_of_each (fun e _ => keeps_expr _ e) hnames hu
      exact around_expr hc1
    · cases hu
  case h_2 =>
    obtain rfl := List.mem_singleton.mp hu
    exact around_expr hnames
  case h_3 =>
    obtain rfl := List.mem_singleton.mp hu
    exact around_expr hnames
  case h_4 =>
    obtain rfl := List.mem_singleton.mp hu
    exact around_expr hnames
  case h_5 =>
    obtain rfl := List.mem_singleton.mp hu
    exact around_expr hnames
  case h_6 =>
    cases (hstmt _ rfl).1 with
    | block hbody =>
      have hinner : c.inner.names = ∅ :: (inner ++ outer) := by rw [names_inner, hnames]
      exact around_list hbody hinner hu
  case h_7 =>
    have branches := branches_plain (hstmt _ rfl).1
    rw [List.mem_cons, mem_andThen] at hu
    rcases hu with rfl | ⟨t, c1, hcondition, hu⟩
    · exact around_expr hnames
    · have hc1 := (names_of_ok (keeps_expr _ _) hcondition).trans hnames
      obtain ⟨s, hs, c2, hc2, rfl⟩ := visited_of_each (fun s hs =>
        (stmt_tidy _ s (branches s hs).1).keeps (branches s hs).2) hc1 hu
      exact around_stmt inner (branches s hs).1 hc2 fun _ => (branches s hs).2
  case h_8 =>
    cases (hstmt _ rfl).1 with
    | while_ hbody plain =>
      rw [List.mem_cons, mem_andThen] at hu
      rcases hu with rfl | ⟨t, c1, hcondition, hu⟩
      · exact around_expr hnames
      · obtain rfl := List.mem_singleton.mp hu
        have hc1 := (names_of_ok (keeps_expr _ _) hcondition).trans hnames
        exact around_stmt inner hbody hc1 fun _ => plain
  case h_9 name params _ _ _ =>
    cases (hstmt _ rfl).1 with
    | funk hbody =>
      obtain ⟨inner', hc1⟩ := names_of_funk rfl habsorbed hnames (hstmt _ rfl).2 rfl
      have hparams := names_inner_declareAll (c.declare name.text .function)
        (params.map (·.text)) .unknown
      rw [hc1] at hparams
      exact around_list hbody hparams hu
  case h_10 =>
    cases (hstmt _ rfl).1 with
    | with_ hbody plain => exact around_named hbody hnames hu
  case h_11 =>
    cases (hstmt _ rfl).1 with
    | for_ hbody plain => exact around_named hbody hnames hu
  case h_12 => cases hu

theorem around_reaches (habsorbed : grown (functionNames [top]) outer = outer) {w u : CheckVisit}
    (h : Around top outer w) (hu : w.Reaches u) : Around top outer u := by
  induction hu with
  | refl => exact h
  | tail _ hopens ih => exact around_opens habsorbed ih hopens

/-- The context that the check of a visit leaves, however it ends. -/
def CheckVisit.after (w : CheckVisit) : Context :=
  match w.part with
  | .expr e => stateAfter (e.check w.room w.context)
  | .stmt s => stateAfter (s.check w.room w.context)

theorem Tidy.after {s : Stmt} {x : Check Unit} (h : Tidy s x) (c : Context) :
    ∃ added, (added = [] ∨ added = functionNames [s] ∨
      added = functionNames [s] ++ variableNames [s]) ∧
        (stateAfter (x c)).names = grown added c.names := by
  have hc := h c
  cases hresult : x c with
  | ok u c' =>
    rw [hresult, ends_ok] at hc
    exact ⟨_, Or.inr (Or.inr rfl), hc⟩
  | error e c' =>
    rw [hresult, ends_error] at hc
    rcases hc with hc | hc
    · exact ⟨[], Or.inl rfl, hc.trans (grown_nil _).symm⟩
    · exact ⟨_, Or.inr (Or.inl rfl), hc⟩

/-- What a visit declares in the scopes around it are the variables that `top` declares. -/
theorem Around.after (habsorbed : grown (functionNames [top]) outer = outer) {w : CheckVisit}
    (h : Around top outer w) :
    ∃ inner inner' outer', w.context.names = inner ++ outer ∧ w.after.names = inner' ++ outer' ∧
      inner'.length = inner.length ∧
      (outer' = outer ∨ outer' = grown (variableNames [top]) outer) := by
  obtain ⟨part, room, c⟩ := w
  obtain ⟨inner, hnames, hstmt⟩ := h
  dsimp only at hnames hstmt
  cases part with
  | expr e =>
    have hafter : (stateAfter (e.check room c)).names = c.names :=
      ends_stateAfter.mpr (keeps_expr room e c)
    exact ⟨inner, inner, outer, hnames, hafter.trans hnames, rfl, Or.inl rfl⟩
  | stmt s =>
    obtain ⟨formed, hs⟩ := hstmt s rfl
    obtain ⟨added, hadded, hafter⟩ := (stmt_tidy room s formed).after c
    rw [hnames] at hafter
    cases inner with
    | nil =>
      refine ⟨[], [], grown added outer, hnames, hafter, rfl, ?_⟩
      rcases hs rfl with rfl | plain
      · rcases hadded with rfl | rfl | rfl
        · exact Or.inl (grown_nil _)
        · exact Or.inl habsorbed
        · rw [grown_append, habsorbed]
          exact Or.inr rfl
      · rw [(names_of_plain plain).1, (names_of_plain plain).2, List.append_nil, or_self,
          or_self] at hadded
        rw [hadded]
        exact Or.inl (grown_nil _)
    | cons S rest => exact ⟨S :: rest, _ :: rest, outer, hnames, hafter, rfl, Or.inl rfl⟩

end Visits

/-! ## Checks one after the other -/

/-- A context that checks of programs lead to, however they end. -/
inductive Context.Reached : Context → Prop
  | start : Reached .start
  | check {c k room tokens program} (h : c.Reached)
    (parsed : parseTokens k tokens = .ok program) :
    Reached (stateAfter (checkProgram room program c))

section Programs

variable {c : Context} {program : List Stmt}

/-- Between checks, there is one scope. -/
theorem Context.Reached.names (h : c.Reached) : ∃ bound, c.names = [bound] := by
  induction h with
  | start => exact ⟨_, rfl⟩
  | @check c k room tokens program _ parsed ih =>
    obtain ⟨bound, hbound⟩ := ih
    have hends := list_names (tidy_all room (formed_of_parse parsed)) c
    rw [hbound] at hends
    refine ends_stateAfter (P := fun c' => ∃ bound, c'.names = [bound]).mpr (hends.imp ?_ ?_)
    · exact fun _ _ h => ⟨_, h⟩
    · rintro _ _ ⟨_, _, _, _, _, _, _, h⟩
      exact ⟨_, h⟩

/-- The check of a program leaves one scope, with the names that were bound there, those of all
functions of the program, and those of its variables, or where a statement fails, of the variables
before it. All along, that scope has the names of the functions and of the variables so far. -/
theorem checks_declare_what_stands_in_the_list (hc : c.Reached) {k : Nat} {tokens : List Token}
    (parsed : parseTokens k tokens = .ok program) (room : Nat) :
    ∃ bound, c.names = [bound] ∧
      Ends (fun _ c' => c'.names = [bound ∪ {n | n ∈ declaredSoFar program program}])
        (fun e c' => ∃ before s after c1, program = before ++ s :: after ∧
          before.forM (fun s => s.check room) (c.hoisting program) = .ok () c1 ∧
          s.check room c1 = .error e c' ∧
          c'.names = [bound ∪ {n | n ∈ declaredSoFar program before}])
        (checkProgram room program c) ∧
      ∀ u ∈ checkAll room program c, ∀ w, u.Reaches w →
        ∃ before s after inner inner' done, program = before ++ s :: after ∧
          w.context.names = inner ++ [bound ∪ {n | n ∈ declaredSoFar program before}] ∧
          w.after.names = inner' ++ [bound ∪ {n | n ∈ declaredSoFar program done}] ∧
          inner'.length = inner.length ∧ (done = before ∨ done = before ++ [s]) := by
  obtain ⟨bound, hbound⟩ := hc.names
  have formed := formed_of_parse parsed
  refine ⟨bound, hbound, ?_, fun u hu w hw => ?_⟩
  · have hends := list_names (tidy_all room formed) c
    rw [hbound] at hends
    exact hends
  · obtain ⟨before, s, after, c1, hprogram, rfl, hc1⟩ := visited_of_list formed hu
    have hs : s ∈ program := by simp [hprogram]
    have habsorbed : grown (functionNames [s]) c1.names = c1.names := by
      rw [hc1]
      exact grown_absorbed (fun n hn => List.mem_append_left _ (functionNames_of_mem hs n hn)) _
    have hstart : Around s c1.names (checkStmt room s c1) := by
      refine ⟨[], rfl, ?_⟩
      rintro _ ⟨⟩
      exact ⟨formed s hs, fun _ => Or.inl rfl⟩
    obtain ⟨inner, inner', outer', hnames, hafter, hlength, houter⟩ :=
      (around_reaches habsorbed hstart hw).after habsorbed
    rw [hc1, hbound] at hnames houter
    rcases houter with rfl | rfl
    · exact ⟨before, s, after, inner, inner', before, hprogram, hnames, hafter, hlength, Or.inl rfl⟩
    · refine ⟨before, s, after, inner, inner', before ++ [s], hprogram, hnames, ?_, hlength,
        Or.inr rfl⟩
      rw [hafter, ← grown_append]
      unfold declaredSoFar variableNames
      rw [List.filterMap_append, ← List.append_assoc]
      rfl

/-- A block that calls a variable of its own, and after it a variable and a function. -/
def failingBlock : List Token :=
  [⟨.sign .leftBrace, "\x7b", 1⟩, ⟨.word .make, "make", 1⟩, ⟨.atom .name, "x", 1⟩,
    ⟨.sign .semicolon, ";", 1⟩, ⟨.atom .name, "x", 2⟩, ⟨.sign .leftParen, "(", 2⟩,
    ⟨.sign .rightParen, ")", 2⟩, ⟨.sign .semicolon, ";", 2⟩, ⟨.sign .rightBrace, "\x7d", 2⟩,
    ⟨.word .make, "make", 3⟩, ⟨.atom .name, "y", 3⟩, ⟨.sign .semicolon, ";", 3⟩,
    ⟨.word .funk, "funk", 4⟩, ⟨.atom .name, "f", 4⟩, ⟨.sign .leftParen, "(", 4⟩,
    ⟨.sign .rightParen, ")", 4⟩, ⟨.sign .leftBrace, "\x7b", 4⟩, ⟨.sign .rightBrace, "\x7d", 4⟩,
    endMark 4]

def callingBlock : Stmt :=
  .block 1 [.make 1 ⟨"x", 1⟩ none, .expression 2 (.call (.atom ⟨.name, "x", 2⟩) [])]

def failingBlockTree : List Stmt :=
  [callingBlock, .make 3 ⟨"y", 3⟩ none, .funk 4 ⟨"f", 4⟩ [] 4 []]

theorem a_failing_block_leaves_the_functions_declared :
    ∃ bound, Context.start.names = [bound] ∧
      (stateAfter (checkProgram 20 failingBlockTree .start)).names = [bound ∪ {n | n ∈ ["f"]}] := by
  have parsed : parseTokens 60 failingBlock = .ok failingBlockTree := rfl
  have fails (c : Context) :
      callingBlock.check 20 (Context.start.hoisting failingBlockTree) ≠ .ok () c := nofun
  obtain ⟨bound, hbound, hends, -⟩ := checks_declare_what_stands_in_the_list .start parsed 20
  refine ⟨bound, hbound, ?_⟩
  cases hresult : checkProgram 20 failingBlockTree .start with
  | ok u c => cases hresult
  | error e c =>
    rw [hresult, ends_error] at hends
    obtain ⟨before, s, after, c1, hlist, hbefore, -, hnames⟩ := hends
    cases before with
    | nil => exact hnames
    | cons first rest =>
      obtain rfl : callingBlock = first := (List.cons.inj hlist).1
      obtain ⟨_, c2, hfirst, -⟩ := bind_eq_ok.mp hbefore
      exact absurd hfirst (fails c2)

end Programs

end FunkLang
