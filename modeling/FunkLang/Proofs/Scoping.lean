-- What a check says about the names of a program: each name that is read or
-- set has been declared before it in a scope around it, or is the name of a
-- function, which may be declared after it.
import FunkLang.Proofs.CheckSteps
import FunkLang.Proofs.Names

namespace FunkLang

/-! ## Names in sight -/

/-- Every name that an expression reads or sets is among `names`. -/
inductive Expr.Sees (names : Set String) : Expr → Prop
  | atom {mark} (h : mark.kind = .name → mark.text ∈ names) : Sees names (.atom mark)
  | unary {op operand} (h : operand.Sees names) : Sees names (.unary op operand)
  | binary {left op right} (hleft : left.Sees names) (hright : right.Sees names) :
    Sees names (.binary left op right)
  | logical {op left right} (hleft : left.Sees names) (hright : right.Sees names) :
    Sees names (.logical op left right)
  | assign {name value} (hname : name.text ∈ names) (hvalue : value.Sees names) :
    Sees names (.assign name value)
  | assignIndex {collection place value} (hcollection : collection.Sees names)
    (hplace : place.Sees names) (hvalue : value.Sees names) :
    Sees names (.assignIndex collection place value)
  | assignField {collection key value} (hcollection : collection.Sees names)
    (hvalue : value.Sees names) : Sees names (.assignField collection key value)
  | choice {condition yes no} (hcondition : condition.Sees names) (hyes : yes.Sees names)
    (hno : no.Sees names) : Sees names (.choice condition yes no)
  | call {callee arguments} (hcallee : callee.Sees names)
    (harguments : ∀ a ∈ arguments, a.Sees names) : Sees names (.call callee arguments)
  | list {line elements} (h : ∀ e ∈ elements, e.Sees names) : Sees names (.list line elements)
  | record {line entries} (h : ∀ entry ∈ entries, entry.2.Sees names) :
    Sees names (.record line entries)
  | index {collection place} (hcollection : collection.Sees names) (hplace : place.Sees names) :
    Sees names (.index collection place)
  | field {collection key} (h : collection.Sees names) : Sees names (.field collection key)

mutual

/-- Every name that a statement reads or sets is among `names`, or declared before it in a scope
of the statement itself. -/
inductive Stmt.Sees : Set String → Stmt → Prop
  | expression {names line value} (h : value.Sees names) : Stmt.Sees names (.expression line value)
  | print {names line value} (h : value.Sees names) : Stmt.Sees names (.print line value)
  | make {names line name} : Stmt.Sees names (.make line name none)
  | makeValue {names line name value} (h : value.Sees names) :
    Stmt.Sees names (.make line name (some value))
  | block {names line body} (h : SeesAll names body) : Stmt.Sees names (.block line body)
  | if_ {names line condition yes} (hcondition : condition.Sees names) (hyes : yes.Sees names)
    (plain : yes.declares = []) : Stmt.Sees names (.if_ line condition yes none)
  | ifElse {names line condition yes no} (hcondition : condition.Sees names)
    (hyes : yes.Sees names) (plainYes : yes.declares = []) (hno : no.Sees names)
    (plainNo : no.declares = []) : Stmt.Sees names (.if_ line condition yes (some no))
  | while_ {names line condition body} (hcondition : condition.Sees names)
    (hbody : body.Sees names) (plain : body.declares = []) :
    Stmt.Sees names (.while_ line condition body)
  | funk {names line name params bodyLine body}
    (h : SeesAll (names ∪ {n | n ∈ params.map (·.text)}) body) :
    Stmt.Sees names (.funk line name params bodyLine body)
  | return_ {names line} : Stmt.Sees names (.return_ line none)
  | returnValue {names line value} (h : value.Sees names) :
    Stmt.Sees names (.return_ line (some value))
  | with_ {names line value name body} (hvalue : value.Sees names)
    (hbody : body.Sees (names ∪ {n | n ∈ [name.text]})) : Stmt.Sees names (.with_ line value name body)
  | for_ {names line name items body} (hitems : items.Sees names)
    (hbody : body.Sees (names ∪ {n | n ∈ [name.text]})) : Stmt.Sees names (.for_ line name items body)

/-- Every name that the statements read or set is among `names`, or declared before it. -/
inductive SeesAll : Set String → List Stmt → Prop
  | nil {names} : SeesAll names []
  | cons {names s rest} (hs : s.Sees names) (hrest : SeesAll (names ∪ {n | n ∈ s.declares}) rest) :
    SeesAll names (s :: rest)

end

/-! ## What a check finds -/

/-- The names of functions, and those of scopes. -/
def known (functions : Set String) (scopes : List (Set String)) : Set String :=
  {n | n ∈ functions ∨ ∃ S ∈ scopes, n ∈ S}

theorem known_grown (functions : Set String) {scopes : List (Set String)} (h : scopes ≠ [])
    (added : List String) :
    known functions (grown added scopes) = known functions scopes ∪ {n | n ∈ added} := by
  cases scopes with
  | nil => exact absurd rfl h
  | cons S rest =>
    ext n
    simp [known, grown, or_assoc, or_comm, or_left_comm]

theorem known_inner (functions : Set String) (scopes : List (Set String)) :
    known functions (∅ :: scopes) = known functions scopes := by
  ext n
  simp [known]

variable (functions : Set String)

/-- A check that leaves the names of the context as they are, and that passes only for what
sees no other names. -/
abbrev SeesIn (scopes : List (Set String)) (fact : Prop) {α : Type} (x : Check α) : Prop :=
  Yields (fun c => c.names = scopes) (fun _ => fact) (fun _ c => c.names = scopes) x

section Expr

variable {scopes : List (Set String)} {fact : Prop}

theorem seesIn_ensure (h : fact) (holds : Bool) (problem : TypeProblem) (line : Int) :
    SeesIn scopes fact (Check.ensure holds problem line) := by
  intro c hc
  rw [Check.ends_ensure]
  exact ⟨fun _ => ⟨h, hc⟩, fun _ => hc⟩

theorem seesIn_lookup (name : String) (line : Int) :
    SeesIn scopes (name ∈ known functions scopes) (Check.lookup name line) := by
  intro c hc
  unfold Check.lookup
  rw [ends_bind, ends_get]
  cases h : c.get? name with
  | some t =>
    have hname := Context.get?_isSome.mp (Option.isSome_iff_exists.mpr ⟨t, h⟩)
    rw [hc] at hname
    exact ⟨Or.inr hname, hc⟩
  | none => exact hc

theorem seesIn_assign (name : String) (t : Ty) (line : Int) :
    SeesIn scopes (name ∈ known functions scopes) (Check.assign name t line) := by
  intro c hc
  unfold Check.assign
  rw [ends_bind, ends_get]
  cases h : c.assign? name t with
  | some c' =>
    have hname := Context.assign?_isSome.mp (Option.isSome_iff_exists.mpr ⟨c', h⟩)
    rw [hc] at hname
    exact ⟨Or.inr hname, (Context.names_assign h).trans hc⟩
  | none => exact hc

theorem seesIn_unary (h : fact) (op : Mark UnaryOp) (t : Ty) :
    SeesIn scopes fact (Check.unary op t) := by
  unfold Check.unary
  split
  · exact (seesIn_ensure h _ _ _).bind fun _ h => .pure h
  · exact (seesIn_ensure h _ _ _).bind fun _ h => .pure h

theorem seesIn_atom (mark : Mark Atom) :
    SeesIn scopes ((Expr.atom mark).Sees (known functions scopes)) (Check.atom mark) := by
  unfold Check.atom
  have literal (h : mark.kind ≠ .name) : (Expr.atom mark).Sees (known functions scopes) :=
    .atom fun hk => absurd hk h
  split <;> rename_i hkind
  · exact .pure (literal (by simp [hkind]))
  · exact .pure (literal (by simp [hkind]))
  · exact .pure (literal (by simp [hkind]))
  · exact .pure (literal (by simp [hkind]))
  · exact (seesIn_lookup functions mark.text mark.line).imp fun _ h => .atom fun _ => h

end Expr

theorem expr_sees (scopes : List (Set String)) : ∀ room (e : Expr),
    SeesIn scopes (e.Sees (known functions scopes)) (e.check room) := by
  refine expr_check_induction ?shallow ?atom ?unary ?binary ?logical ?assign ?assignIndex
    ?assignField ?choice ?call ?list ?record ?index ?field
  case shallow =>
    intro room e h
    rw [h]
    exact .throw fun _ hc => hc
  case atom =>
    intro room mark
    simp only [Expr.check]
    exact seesIn_atom functions mark
  case unary =>
    intro room op operand ih
    simp only [Expr.check]
    exact ih.bind fun t h => seesIn_unary (.unary h) op t
  case binary =>
    intro room left op right ih ih'
    have part : ∀ e : Expr, SeesIn scopes (e.Sees (known functions scopes))
        (if Check.isArithmetic op.kind then e.check room else e.check (room + 1)) := by
      intro e
      split
      · exact ih e
      · exact ih' e
    simp only [Expr.check]
    refine (part left).bind fun a hleft => (part right).bind fun b hright => ?_
    split
    · exact .pure (.binary hleft hright)
    · exact .throw fun _ hc => hc
  case logical =>
    intro room op left right ihl ihr
    simp only [Expr.check]
    refine ihl.bind fun a hleft => ihr.bind fun b hright => ?_
    exact (seesIn_ensure (.logical hleft hright) _ _ _).bind fun _ h => .pure h
  case assign =>
    intro room name value ih
    simp only [Expr.check]
    refine ih.bind fun t hvalue => (seesIn_assign functions _ _ _).bind fun _ hname => ?_
    exact .pure (.assign hname hvalue)
  case assignIndex =>
    intro room collection place value ihc ihp ihv
    simp only [Expr.check]
    refine ihc.bind fun c hcollection => (seesIn_ensure trivial _ _ _).bind fun _ _ => ?_
    refine ihp.bind fun i hplace => (seesIn_ensure trivial _ _ _).bind fun _ _ => ?_
    exact ihv.imp fun _ hvalue => .assignIndex hcollection hplace hvalue
  case assignField =>
    intro room collection key value ihc ihv
    simp only [Expr.check]
    refine ihc.bind fun c hcollection => (seesIn_ensure trivial _ _ _).bind fun _ _ => ?_
    exact ihv.imp fun _ hvalue => .assignField hcollection hvalue
  case choice =>
    intro room condition yes no ihc ihy ihn
    simp only [Expr.check]
    refine ihc.bind fun c hcondition => (seesIn_ensure trivial _ _ _).bind fun _ _ => ?_
    refine ihy.bind fun a hyes => ihn.bind fun b hno => ?_
    exact .pure (.choice hcondition hyes hno)
  case call =>
    intro room callee arguments ihf iha
    simp only [Expr.check]
    refine ihf.bind fun f hcallee => (seesIn_ensure trivial _ _ _).bind fun _ _ => ?_
    refine (Yields.forM fun a _ => (iha a).bind fun _ h => .pure h).bind fun _ harguments => ?_
    exact .pure (.call hcallee harguments)
  case list =>
    intro room line elements ih
    simp only [Expr.check]
    refine (Yields.forM fun e _ => (ih e).bind fun _ h => .pure h).bind fun _ helements => ?_
    exact .pure (.list helements)
  case record =>
    intro room line entries ih
    simp only [Expr.check]
    suffices h : SeesIn scopes (∀ entry ∈ entries, entry.2.Sees (known functions scopes))
        (entries.forM _) from h.bind fun _ h => .pure (.record h)
    exact Yields.forM fun entry _ => (ih entry.2).bind fun _ h => .pure h
  case index =>
    intro room collection place ihc ihp
    simp only [Expr.check]
    refine ihc.bind fun c hcollection => (seesIn_ensure trivial _ _ _).bind fun _ _ => ?_
    refine ihp.bind fun i hplace => (seesIn_ensure trivial _ _ _).bind fun _ _ => ?_
    exact .pure (.index hcollection hplace)
  case field =>
    intro room collection key ih
    simp only [Expr.check]
    refine ih.bind fun c hcollection => (seesIn_ensure trivial _ _ _).bind fun _ _ => ?_
    exact .pure (.field hcollection)

/-! ## Statements -/

/-- A check of a statement: it adds the names that the statement declares, and passes only for
what sees no other names before them. -/
def Passes (s : Stmt) (x : Check Unit) : Prop :=
  ∀ c : Context, c.names ≠ [] →
    Ends (fun _ c' => c'.names = grown s.declares c.names ∧
        (s.Formed → (∀ n ∈ s.functions, n ∈ functions) → s.Sees (known functions c.names)))
      (fun _ _ => True) (x c)

theorem passes_statements {check : Stmt → Check Unit} (h : ∀ s, Passes functions s (check s))
    (body : List Stmt) (c : Context) (hc : c.names ≠ []) :
    Ends (fun _ c' => c'.names = grown (body.flatMap Stmt.declares) c.names ∧
        ((∀ s ∈ body, s.Formed) → (∀ n ∈ functionsOfAll body, n ∈ functions) →
          SeesAll (known functions c.names) body))
      (fun _ _ => True) (body.forM check c) := by
  induction body generalizing c with
  | nil => exact ⟨(grown_nil _).symm, fun _ _ => .nil⟩
  | cons s rest ih =>
    change Ends _ _ ((check s >>= fun _ => rest.forM check) c)
    rw [ends_bind]
    refine (h s c hc).imp (fun _ c1 h1 => ?_) (fun _ _ h => h)
    have hc1 : c1.names ≠ [] := by rw [h1.1]; simpa using hc
    refine (ih c1 hc1).imp (fun _ c2 h2 => ⟨?_, fun formed hfunctions => ?_⟩) (fun _ _ h => h)
    · rw [h2.1, h1.1, List.flatMap_cons, grown_append]
    · simp only [functionsOfAll, List.mem_append] at hfunctions
      refine .cons (h1.2 (formed s List.mem_cons_self) fun n hn => hfunctions n (Or.inl hn)) ?_
      rw [← known_grown functions hc, ← h1.1]
      exact h2.2 (fun s hs => formed s (List.mem_cons_of_mem _ hs))
        fun n hn => hfunctions n (Or.inr hn)

/-- The names of a context grow by names that are declared one after the other. -/
theorem names_declareAll {α : Type} (name : α → String) (t : Ty) (items : List α) (c : Context) :
    Ends (fun _ c' => c'.names = grown (items.map name) c.names) (fun _ _ => True)
      (items.forM (fun a => Check.declare (name a) t) c) := by
  induction items generalizing c with
  | nil => exact (grown_nil _).symm
  | cons a rest ih =>
    change Ends _ _ ((Check.declare (name a) t >>= fun _ => rest.forM _) c)
    rw [ends_bind, Check.ends_declare]
    refine (ih _).imp (fun _ c1 h1 => ?_) (fun _ _ h => h)
    rw [h1, Context.names_declare, ← grown_append]
    rfl

/-- A list of statements adds names to the innermost scope only. That its functions are in sight
from the start adds none to those of all functions. -/
theorem passes_list {check : Stmt → Check Unit} (h : ∀ s, Passes functions s (check s))
    (body : List Stmt) (c : Context) (hc : c.names ≠ []) :
    Ends (fun _ c' => c'.names.drop 1 = c.names.drop 1 ∧
        ((∀ s ∈ body, s.Formed) → (∀ n ∈ functionsOfAll body, n ∈ functions) →
          SeesAll (known functions c.names) body))
      (fun _ _ => True) (Check.list check body c) := by
  unfold Check.list
  rw [ends_bind]
  refine (names_declareAll id .function (functionNames body) c).imp (fun _ c1 h1 => ?_)
    (fun _ _ h => h)
  rw [List.map_id] at h1
  have hc1 : c1.names ≠ [] := by rw [h1]; simpa using hc
  refine (passes_statements functions h body c1 hc1).imp (fun _ c2 h2 => ?_) (fun _ _ h => h)
  refine ⟨by rw [h2.1, h1, drop_grown, drop_grown], fun formed hfunctions => ?_⟩
  have hknown : known functions c1.names = known functions c.names := by
    rw [h1, known_grown functions hc, Set.union_eq_left]
    exact fun n hn => Or.inl (hfunctions n (functionNames_subset hn))
  rw [← hknown]
  exact h2.2 formed hfunctions

/-- What is checked in a scope of its own adds no names to the scopes around it. -/
theorem passes_inScope (fact : Set String → Prop) {body : Check Unit}
    (h : ∀ c : Context, c.names ≠ [] →
      Ends (fun _ c' => c'.names.drop 1 = c.names.drop 1 ∧ fact (known functions c.names))
        (fun _ _ => True) (body c)) (c : Context) :
    Ends (fun _ c' => c'.names = c.names ∧ fact (known functions c.names)) (fun _ _ => True)
      (Check.inScope body c) := by
  rw [Check.ends_inScope]
  have hinner : ({ c with scopes := .empty :: c.scopes } : Context).names = ∅ :: c.names := by
    simp [Context.names]
  refine (h _ (by rw [hinner]; simp)).imp (fun _ c1 h1 => ?_) (fun _ _ _ => trivial)
  rw [hinner, known_inner] at h1
  refine ⟨?_, h1.2⟩
  unfold Context.names at h1 ⊢
  rw [← List.map_drop] at h1
  exact h1.1

/-- An expression is checked, and then comes what its type leads to. -/
theorem passes_first {room : Nat} {e : Expr} {next : Ty → Check Unit}
    {post : Context → Prop} {c : Context}
    (h : ∀ t c', c'.names = c.names → e.Sees (known functions c.names) →
      Ends (fun _ c => post c) (fun _ _ => True) (next t c')) :
    Ends (fun _ c => post c) (fun _ _ => True) ((e.check room >>= next) c) := by
  rw [ends_bind]
  exact (expr_sees functions c.names room e c rfl).imp (fun t c' hc => h t c' hc.2 hc.1)
    (fun _ _ _ => trivial)

/-- A requirement changes nothing. -/
theorem passes_ensure {holds : Bool} {problem : TypeProblem} {line : Int} {next : Unit → Check Unit}
    {post : Context → Prop} {c : Context}
    (h : Ends (fun _ c => post c) (fun _ _ => True) (next () c)) :
    Ends (fun _ c => post c) (fun _ _ => True)
      ((Check.ensure holds problem line >>= next) c) := by
  rw [ends_bind, Check.ends_ensure]
  exact ⟨fun _ => h, fun _ => trivial⟩

theorem names_noteShadowing (name : String) (line : Int) (c : Context) :
    Ends (fun _ c' => c'.names = c.names) (fun _ _ => True) (Check.noteShadowing name line c) := by
  unfold Check.noteShadowing
  rw [ends_bind, ends_get]
  split
  · rfl
  · rfl

theorem passes_declaration {name : String} {line : Int} {t : Ty} {names : List (Set String)}
    {fact : Prop} {c : Context} (hc : c.names = names) (h : fact) :
    Ends (fun _ c' => c'.names = grown [name] names ∧ fact) (fun _ _ => True)
      ((Check.noteShadowing name line >>= fun _ => Check.declare name t) c) := by
  rw [ends_bind]
  refine (names_noteShadowing name line c).imp (fun _ c1 h1 => ?_) (fun _ _ h => h)
  rw [Check.ends_declare, Context.names_declare, h1, hc]
  exact ⟨rfl, h⟩

/-- A body with a name of its own. -/
theorem passes_body {body : Stmt} {check : Check Unit} (h : Passes functions body check)
    (name : String) (t : Ty) (c : Context) :
    Ends (fun _ c' => c'.names = c.names ∧
        (body.Formed → body.isDeclaration = false → (∀ n ∈ body.functions, n ∈ functions) →
          body.Sees (known functions c.names ∪ {n | n ∈ [name]})))
      (fun _ _ => True) (Check.inScope (Check.declare name t >>= fun _ => check) c) := by
  refine passes_inScope functions (fun known => body.Formed →
    body.isDeclaration = false → (∀ n ∈ body.functions, n ∈ functions) →
      body.Sees (known ∪ {n | n ∈ [name]})) (fun c hc => ?_) c
  rw [ends_bind, Check.ends_declare]
  have hnames := Context.names_declare c name t
  refine (h _ (by rw [hnames]; simpa using hc)).imp (fun _ c1 h1 => ?_) (fun _ _ h => h)
  refine ⟨by rw [h1.1, hnames, drop_grown, drop_grown], fun formed _ hfunctions => ?_⟩
  have hbody := h1.2 formed hfunctions
  rwa [hnames, known_grown functions hc] at hbody

theorem stmt_sees : ∀ room (s : Stmt), Passes functions s (s.check room) := by
  refine stmt_check_induction ?shallow ?block ?funk ?with_ ?for_ ?expression ?print ?makeValue
    ?make ?if_ ?ifElse ?while_ ?returnValue ?return_
  case shallow =>
    intro room s h c hc
    rw [h]
    trivial
  case block =>
    intro room line body ih
    simp only [Stmt.check]
    intro c hc
    refine (passes_inScope functions (fun known => (∀ s ∈ body, s.Formed) →
      (∀ n ∈ functionsOfAll body, n ∈ functions) → SeesAll known body)
      (passes_list functions ih body) c).imp (fun _ c1 h1 => ?_) (fun _ _ h => h)
    refine ⟨h1.1.trans (grown_nil _).symm, fun formed hfunctions => ?_⟩
    cases formed with
    | block formed => exact .block (h1.2 formed hfunctions)
  case funk =>
    intro room line name params bodyLine body ih
    simp only [Stmt.check]
    intro c hc
    rw [ends_bind, Check.ends_declare]
    refine (passes_inScope functions (fun known => (∀ s ∈ body, s.Formed) →
      (∀ n ∈ functionsOfAll body, n ∈ functions) →
        SeesAll (known ∪ {n | n ∈ params.map (·.text)}) body) ?_ _).imp
      (fun _ c1 h1 => ?_) (fun _ _ h => h)
    · intro c hc
      rw [ends_bind]
      refine (names_declareAll (·.text) .unknown params c).imp (fun _ c1 h1 => ?_) (fun _ _ h => h)
      refine (passes_list functions ih body c1 (by rw [h1]; simpa using hc)).imp
        (fun _ c2 h2 => ?_) (fun _ _ h => h)
      rwa [h1, drop_grown, known_grown functions hc] at h2
    · rw [Context.names_declare] at h1
      refine ⟨h1.1, fun formed hfunctions => ?_⟩
      rw [Stmt.functions, List.forall_mem_cons] at hfunctions
      have hknown : known functions (grown [name.text] c.names) = known functions c.names := by
        rw [known_grown functions hc, Set.union_eq_left]
        exact fun n hn => Or.inl (List.mem_singleton.mp hn ▸ hfunctions.1)
      rw [hknown] at h1
      cases formed with
      | funk formed => exact .funk (h1.2 formed hfunctions.2)
  case with_ =>
    intro room line value name body ih
    simp only [Stmt.check]
    intro c hc
    refine passes_first functions fun t c1 h1 hvalue => ?_
    refine (passes_body functions ih name.text t c1).imp (fun _ c2 h2 => ?_) (fun _ _ h => h)
    rw [h1] at h2
    refine ⟨h2.1.trans (grown_nil _).symm, fun formed hfunctions => ?_⟩
    cases formed with
    | with_ formed plain => exact .with_ hvalue (h2.2 formed plain hfunctions)
  case for_ =>
    intro room line name items body ih
    simp only [Stmt.check]
    intro c hc
    refine passes_first functions fun t c1 h1 hitems => passes_ensure ?_
    refine (passes_body functions ih name.text .unknown c1).imp (fun _ c2 h2 => ?_) (fun _ _ h => h)
    rw [h1] at h2
    refine ⟨h2.1.trans (grown_nil _).symm, fun formed hfunctions => ?_⟩
    cases formed with
    | for_ formed plain => exact .for_ hitems (h2.2 formed plain hfunctions)
  case expression =>
    intro room line value
    simp only [Stmt.check]
    intro c hc
    refine passes_first functions fun t c' hc' h => ?_
    exact ⟨hc'.trans (grown_nil _).symm, fun _ _ => .expression h⟩
  case print =>
    intro room line value
    simp only [Stmt.check]
    intro c hc
    refine passes_first functions fun t c' hc' h => ?_
    exact ⟨hc'.trans (grown_nil _).symm, fun _ _ => .print h⟩
  case makeValue =>
    intro room line name value
    simp only [Stmt.check]
    intro c hc
    refine passes_first functions fun t c' hc' h => ?_
    exact passes_declaration hc' fun _ _ => .makeValue h
  case make =>
    intro room line name
    simp only [Stmt.check]
    intro c hc
    exact passes_declaration rfl fun _ _ => .make
  case if_ =>
    intro room line condition yes ih
    simp only [Stmt.check]
    intro c hc
    refine passes_first functions fun t c1 h1 hcondition => passes_ensure ?_
    rw [ends_bind]
    refine (ih c1 (h1 ▸ hc)).imp (fun _ c2 h2 => ?_) (fun _ _ h => h)
    rw [h1] at h2
    refine ⟨h2.1, fun formed hfunctions => ?_⟩
    cases formed with
    | if_ formed plain =>
      exact .if_ hcondition (h2.2 formed hfunctions) (formed.declares_eq_nil plain)
  case ifElse =>
    intro room line condition yes no ihy ihn
    simp only [Stmt.check]
    intro c hc
    refine passes_first functions fun t c1 h1 hcondition => passes_ensure ?_
    rw [ends_bind]
    refine (ihy c1 (h1 ▸ hc)).imp (fun _ c2 h2 => ?_) (fun _ _ h => h)
    rw [h1] at h2
    have hc2 : c2.names ≠ [] := by rw [h2.1]; simpa using hc
    refine (ihn c2 hc2).imp (fun _ c3 h3 => ?_) (fun _ _ h => h)
    refine ⟨by rw [h3.1, h2.1]; exact (grown_append _ _ _).symm, fun formed hfunctions => ?_⟩
    simp only [Stmt.functions, List.mem_append] at hfunctions
    cases formed with
    | if_ formed plain formedNo plainNo =>
      have hyes := h2.2 formed fun n hn => hfunctions n (Or.inl hn)
      have hno := h3.2 (formedNo no rfl) fun n hn => hfunctions n (Or.inr hn)
      have hplain := formed.declares_eq_nil plain
      rw [h2.1, hplain, grown_nil] at hno
      exact .ifElse hcondition hyes hplain hno ((formedNo no rfl).declares_eq_nil (plainNo no rfl))
  case while_ =>
    intro room line condition body ih
    simp only [Stmt.check]
    intro c hc
    refine passes_first functions fun t c1 h1 hcondition => passes_ensure ?_
    refine (ih c1 (h1 ▸ hc)).imp (fun _ c2 h2 => ?_) (fun _ _ h => h)
    rw [h1] at h2
    refine ⟨h2.1, fun formed hfunctions => ?_⟩
    cases formed with
    | while_ formed plain =>
      exact .while_ hcondition (h2.2 formed hfunctions) (formed.declares_eq_nil plain)
  case returnValue =>
    intro room line value
    simp only [Stmt.check]
    intro c hc
    refine passes_first functions fun t c' hc' h => ?_
    exact ⟨hc'.trans (grown_nil _).symm, fun _ _ => .returnValue h⟩
  case return_ =>
    intro room line
    simp only [Stmt.check]
    intro c hc
    exact ⟨(grown_nil _).symm, fun _ _ => .return_⟩

/-- A program that passes its check reads and sets names only where they have been declared, those
of built-in functions and of its own functions aside. -/
theorem seesAll_of_check {room : Nat} {program : List Stmt} {c : Context}
    (formed : ∀ s ∈ program, s.Formed) (passed : checkProgram room program .start = .ok () c) :
    SeesAll (known {n | n ∈ functionsOfAll program} Context.start.names) program := by
  have hlist := passes_list {n | n ∈ functionsOfAll program} (fun s => stmt_sees _ room s) program
    .start (by simp [Context.start, Context.names])
  unfold checkProgram at passed
  rw [passed] at hlist
  exact hlist.2 formed fun _ h => h

end FunkLang
