-- Names that a run finds bound. In a program that sees only names declared
-- before, a name that stands for nothing when it is reached is the name of a
-- function: one that is called before its declaration has run.
import FunkLang.Proofs.Placement
import FunkLang.Proofs.ScopeDiscipline
import FunkLang.Proofs.Scoping

namespace FunkLang

/-! ## Machines -/

section Ready

variable (functions : Set String)

/-- A function that can be called: the names that its body sees are bound around it, or are
its parameters. -/
def Closure.Callable (f : Closure) (m : Machine) : Prop :=
  f.scope < m.opened ∧ ∃ names, SeesAll (names ∪ {n | n ∈ f.params}) f.body ∧
    ∀ n ∈ names, n ∈ functions ∨ m.scopes.InSight f.scope n

/-- The scopes of the machine have their chains, and all its functions can be called. -/
structure Machine.Sound (m : Machine) : Prop where
  grounded : m.scopes.Grounded
  inside : m.scope < m.opened
  callable : ∀ i, (m.heap.function i).Callable functions m

/-- The names are bound in the current scope or around it, those of functions aside. -/
structure Machine.Ready (names : Set String) (m : Machine) : Prop where
  sound : m.Sound functions
  bound : ∀ n ∈ names, n ∈ functions ∨ m.scopes.InSight m.scope n

end Ready

section Changes

open Run

variable {functions names more : Set String} {added : List String} {m m' : Machine}

theorem Machine.Ready.mono (h : m.Ready functions more) (hsub : names ⊆ more) :
    m.Ready functions names := ⟨h.sound, fun n hn => h.bound n (hsub hn)⟩

theorem Kept.inSight (h : Kept added m m') (grounded : m.scopes.Grounded)
    (grounded' : m'.scopes.Grounded) {s : Nat} (hs : s < m.opened) {n : String}
    (hn : m.scopes.InSight s n) : m'.scopes.InSight s n :=
  hn.mono grounded grounded' hs h.parents fun i hi => h.bound i n hi

theorem Kept.callable (h : Kept added m m') (grounded : m.scopes.Grounded)
    (grounded' : m'.scopes.Grounded) {f : Closure} (hf : f.Callable functions m) :
    f.Callable functions m' := by
  obtain ⟨hscope, names, hbody, hnames⟩ := hf
  refine ⟨Nat.lt_of_lt_of_le hscope h.opened, names, hbody, fun n hn => ?_⟩
  exact (hnames n hn).imp_right (h.inSight grounded grounded' hscope)

/-- A step that keeps the scopes and makes no function. -/
theorem Machine.Ready.of_kept (ready : m.Ready functions names) (h : Kept added m m')
    (grounded' : m'.scopes.Grounded) (hheap : m'.heap.functions = m.heap.functions) :
    m'.Ready functions names := by
  refine ⟨⟨grounded', ?_, fun i => ?_⟩, fun n hn => ?_⟩
  · rw [h.scope]
    exact Nat.lt_of_lt_of_le ready.sound.inside h.opened
  · rw [Heap.function_eq hheap]
    exact h.callable ready.sound.grounded grounded' (ready.sound.callable i)
  · rw [h.scope]
    exact (ready.bound n hn).imp_right
      (h.inSight ready.sound.grounded grounded' ready.sound.inside)

theorem Machine.Ready.of_same (ready : m.Ready functions names) (h : SameScopes m m') :
    m'.Ready functions names := by
  refine ready.of_kept (kept_of_same h.scopes h.scope h.depth (by rw [h.notes])) ?_ h.functions
  rw [h.scopes]
  exact ready.sound.grounded

theorem Machine.Ready.declareIn (ready : m.Ready functions names) (s : Nat) (name : String)
    (v : Value) (h : s = m.scope ∨ m.Binds s name) :
    ({ m with scopes := m.scopes.declare s name v } : Machine).Ready functions names := by
  have kept : Kept [name] m { m with scopes := m.scopes.declare s name v } :=
    kept_declare m s name v fun _ => h.symm.imp_right fun hs => ⟨hs, by simp⟩
  refine ready.of_kept kept (fun i p hp => ?_) rfl
  rw [ScopeTree.parent?_declare] at hp
  exact ready.sound.grounded i p hp

theorem Machine.Ready.declare (ready : m.Ready functions names) (name : String) (v : Value) :
    ({ m with scopes := m.scopes.declare m.scope name v } : Machine).Ready functions
      (names ∪ {n | n ∈ [name]}) := by
  have ready' := ready.declareIn m.scope name v (Or.inl rfl)
  refine ⟨ready'.sound, fun n hn => ?_⟩
  rcases hn with hn | hn
  · exact ready'.bound n hn
  · rw [ScopeTree.inSight_iff ready'.sound.grounded]
    refine Or.inr (Or.inl (binds_declare.mpr (Or.inr ⟨rfl, ready.sound.inside, ?_⟩)))
    exact List.mem_singleton.mp hn

/-- A new function that can be called. -/
theorem Machine.Ready.addFunction (ready : m.Ready functions names) {f : Closure}
    (hf : f.Callable functions m) :
    ({ m with heap := (m.heap.addFunction f).2 } : Machine).Ready functions names := by
  refine ⟨⟨ready.sound.grounded, ready.sound.inside, fun i => ?_⟩, ready.bound⟩
  change Closure.Callable functions ((m.heap.addFunction f).2.function i) m
  rw [Heap.function_addFunction]
  split
  · exact hf
  · exact ready.sound.callable i

theorem enclose_grounded (grounded : m.scopes.Grounded) {parent : Nat} (hparent : parent < m.opened)
    (bindings : List (String × Value)) : (m.enclose parent bindings).scopes.Grounded := by
  intro s p hp
  unfold Machine.enclose at hp
  simp only [ScopeTree.parent?_declareAll] at hp
  exact ScopeTree.enclose_grounded grounded hparent s p hp

/-- A fresh scope has the names of its bindings and those around it. -/
theorem Machine.Sound.enclose (sound : m.Sound functions) {parent : Nat}
    (hparent : parent < m.opened) (bindings : List (String × Value))
    (hnames : ∀ n ∈ names, n ∈ functions ∨ m.scopes.InSight parent n) :
    (m.enclose parent bindings).Ready functions (names ∪ {n | n ∈ bindings.map Prod.fst}) := by
  have grounded := enclose_grounded sound.grounded hparent bindings
  have insight : ∀ s < m.opened, ∀ n, m.scopes.InSight s n →
      (m.enclose parent bindings).scopes.InSight s n := by
    intro s hs n hn
    refine hn.mono sound.grounded grounded hs (fun i (hi : i < m.opened) => ?_) fun i hi => ?_
    · rw [enclose_parent?, if_neg (Nat.ne_of_lt hi)]
    · exact binds_enclose.mpr (Or.inl hi)
  refine ⟨⟨grounded, ?_, fun i => ?_⟩, fun n hn => ?_⟩
  · rw [enclose_scope, enclose_opened]
    exact Nat.lt_succ_self _
  · obtain ⟨hscope, names, hbody, hf⟩ := sound.callable i
    refine ⟨?_, names, hbody, fun n hn => (hf n hn).imp_right (insight _ hscope n)⟩
    rw [enclose_opened]
    exact Nat.lt_succ_of_lt hscope
  · rw [enclose_scope, ScopeTree.inSight_iff grounded]
    rcases hn with hn | hn
    · rcases hnames n hn with hn | hn
      · exact Or.inl hn
      · refine Or.inr (Or.inr ⟨parent, ?_, insight parent hparent n hn⟩)
        rw [enclose_parent?, if_pos rfl]
    · exact Or.inr (Or.inl (binds_enclose.mpr (Or.inr ⟨rfl, hn⟩)))

end Changes

/-! ## Steps -/

/-- If a name was not found, it is that of a function. -/
def Excused (functions : Set String) (stop : Stop) (_ : Machine) : Prop :=
  ∀ n line, stop = .fault ⟨.undefined n, line⟩ → n ∈ functions

/-- A run from a machine that is ready leaves one that is ready, and finds every name that is
not excused. -/
abbrev FindsNames (functions names : Set String) {α : Type} (x : Run α) : Prop :=
  Yields (Machine.Ready functions names) (fun _ => True) (Excused functions) x

section Steps

open Run

variable {functions names : Set String} {α : Type}

theorem excused_of_isOf {kind : FaultCause → Bool} (hkind : ∀ n, kind (.undefined n) = false)
    {stop : Stop} (h : stop.IsOf kind) (m : Machine) : Excused functions stop m := by
  rintro n line rfl
  exact absurd h (by simp [Stop.IsOf, hkind n])

theorem findsNames_local {kind : FaultCause → Bool} {x : Run α} (h : Local kind x)
    (hkind : ∀ n, kind (.undefined n) = false) : FindsNames functions names x := by
  intro m ready
  exact (h m).imp (fun _ m' hm' => ⟨trivial, ready.of_same hm'⟩)
    (fun stop m' hm' => excused_of_isOf hkind hm'.2 m')

theorem findsNames_fail {cause : FaultCause} {line : Int} (h : cause.isUndefined = false) :
    FindsNames functions names (fail cause line : Run α) := by
  refine .throw fun m _ n line' heq => ?_
  cases heq
  cases h

theorem findsNames_operator {x : Run α} (h : Local FaultCause.ofOperator x) :
    FindsNames functions names x := findsNames_local h fun _ => rfl

/-- A condition is evaluated, and the run goes on with its truth value. -/
theorem findsNames_condition {by_ : Condition} {line : Int} {x : Run Value} {next : Bool → Run α}
    (h : FindsNames functions names x) (hnext : ∀ b, FindsNames functions names (next b)) :
    FindsNames functions names (x >>= fun v => truth by_ v line >>= next) :=
  h.bind fun v _ => (findsNames_operator (local_truth by_ v line)).bind fun b _ => hnext b

theorem findsNames_lookup {name : String} (hname : name ∈ names) (line : Int) :
    FindsNames functions names (lookup name line) := by
  intro m ready
  unfold lookup
  rw [ends_bind, ends_get]
  unfold ScopeTree.get
  cases h : m.scopes.get? m.scope name with
  | some v => exact ⟨trivial, ready⟩
  | none =>
    intro n line' heq
    cases heq
    refine (ready.bound name hname).resolve_right fun hsight => ?_
    rw [← ScopeTree.get?_isSome, h] at hsight
    cases hsight

theorem findsNames_atom {mark : Mark Atom} (h : mark.kind = .name → mark.text ∈ names) :
    FindsNames functions names (atom mark) := by
  unfold atom
  split
  · exact .pure trivial
  · exact .pure trivial
  · exact .pure trivial
  · exact .pure trivial
  · exact findsNames_lookup (h ‹_›) _

theorem findsNames_assign {name : String} (hname : name ∈ names) (v : Value) (line : Int) :
    FindsNames functions names (assign name v line) := by
  intro m ready
  unfold assign
  rw [ends_bind, ends_get]
  cases h : m.scopes.home? m.scope name with
  | some home =>
    exact ⟨trivial, ready.declareIn home name v (Or.inr (ScopeTree.contains_of_home? h))⟩
  | none =>
    intro n line' heq
    cases heq
    refine (ready.bound name hname).resolve_right fun hsight => ?_
    rw [← ScopeTree.home?_isSome, h] at hsight
    cases hsight

/-- What runs in a fresh scope leaves the current scope as it was. -/
theorem ready_enclosed {inner : Set String} {added : List String} {parent : Nat}
    {bindings : List (String × Value)} {body : Run α} {m : Machine}
    (ready : m.Ready functions names) (hinner : (m.enclose parent bindings).Ready functions inner)
    (keeps : Keeps (Kept added) body) (finds : FindsNames functions inner body) :
    Ends (fun _ m' => m'.Ready functions names) (Excused functions)
      (enclosed parent bindings body m) := by
  have hkept := keeps (m.enclose parent bindings)
  have hbody := finds (m.enclose parent bindings) hinner
  unfold enclosed
  simp only
  cases hrun : body (m.enclose parent bindings) with
  | error stop m' =>
    rw [hrun] at hbody
    exact hbody
  | ok a m' =>
    rw [hrun] at hkept hbody
    have sound' := hbody.2.sound
    have kept := kept_enclosed hkept
    refine ⟨⟨sound'.grounded, ?_, sound'.callable⟩, fun n hn => ?_⟩
    · exact Nat.lt_of_lt_of_le ready.sound.inside kept.opened
    · exact (ready.bound n hn).imp_right
        (kept.inSight ready.sound.grounded sound'.grounded ready.sound.inside)

theorem findsNames_enclosed {added : List String} (bindings : List (String × Value))
    {body : Run α} (keeps : Keeps (Kept added) body)
    (finds : FindsNames functions (names ∪ {n | n ∈ bindings.map Prod.fst}) body) :
    FindsNames functions names (do enclosed (← get).scope bindings body) := by
  intro m ready
  rw [ends_bind, ends_get]
  have hinner := ready.sound.enclose ready.sound.inside bindings ready.bound
  exact (ready_enclosed ready hinner keeps finds).imp (fun _ _ h => ⟨trivial, h⟩) fun _ _ h => h

theorem findsNames_activation {name : String} {line : Int} {body : Run Flow} {m : Machine}
    (h : Ends (fun _ m' => m'.Ready functions names) (Excused functions)
      (body { m with depth := m.depth + 1 })) :
    Ends (fun _ m' => m'.Ready functions names) (Excused functions)
      (activation name line body m) := by
  have leave : ∀ m' : Machine, m'.Ready functions names →
      ({ m' with depth := m'.depth - 1 } : Machine).Ready functions names := fun m' h =>
    ⟨⟨h.sound.grounded, h.sound.inside, h.sound.callable⟩, h.bound⟩
  unfold activation
  split <;> rename_i heq <;> rw [heq] at h
  · exact leave _ h
  · exact leave _ h
  · rintro n line' ⟨⟩
  · exact h

/-! ## Calls -/

/-- A statement that is not cut short by a return leaves its names bound. -/
def Brings (functions names : Set String) (added : List String) (x : Run Flow) : Prop :=
  ∀ m, m.Ready functions names →
    Ends (fun flow m' => m'.Ready functions names ∧
        (flow = .next → m'.Ready functions (names ∪ {n | n ∈ added})))
      (Excused functions) (x m)

theorem Brings.findsNames {added : List String} {x : Run Flow}
    (h : Brings functions names added x) : FindsNames functions names x := fun m ready =>
  (h m ready).imp (fun _ _ h => ⟨trivial, h.1⟩) fun _ _ h => h

/-- A statement that declares nothing. -/
theorem Brings.of_findsNames {x : Run Flow} (h : FindsNames functions names x) :
    Brings functions names [] x := by
  intro m ready
  refine (h m ready).imp (fun flow m' h => ⟨h.2, fun _ => ?_⟩) fun _ _ h => h
  simpa using h.2

theorem findsNames_statements {run : Stmt → Run Flow} {body : List Stmt}
    (runs : ∀ names (s : Stmt), s.Sees names → Brings functions names s.declares (run s))
    (h : SeesAll names body) : FindsNames functions names (inTurn run body) := by
  induction body generalizing names with
  | nil => exact .pure trivial
  | cons s rest ih =>
    cases h with
    | cons hs hrest =>
      intro m ready
      unfold inTurn
      rw [ends_bind]
      refine (runs names s hs m ready).imp (fun flow m1 h1 => ?_) fun _ _ h => h
      cases flow with
      | returned v => exact ⟨trivial, h1.1⟩
      | next =>
        refine (ih hrest m1 (h1.2 rfl)).imp (fun _ m2 h2 => ⟨trivial, ?_⟩) fun _ _ h => h
        exact h2.2.mono Set.subset_union_left

theorem findsNames_call {limits : Limits} {room : Nat} {run : Stmt → Run Flow}
    (keeps : ∀ s : Stmt, Keeps (Kept s.declares) (run s))
    (runs : ∀ names (s : Stmt), s.Sees names → Brings functions names s.declares (run s))
    (callee : Value) (args : List Value) (line : Int) :
    FindsNames functions names (callValue limits room run callee args line) := by
  unfold callValue
  split
  · exact findsNames_local (Builtin.local_call _ _ _ _) fun _ => rfl
  · rename_i i
    intro m ready
    rw [ends_bind, ends_get]
    generalize hf : m.heap.function i = f
    obtain ⟨hscope, outer, hbody, houter⟩ := hf ▸ ready.sound.callable i
    suffices h : Ends (fun _ m' => m'.Ready functions names) (Excused functions)
        (callClosure limits run f args line m) from
      h.imp (fun _ _ h => ⟨trivial, h⟩) fun _ _ h => h
    unfold callClosure
    split
    · rintro n line' ⟨⟩
    · rename_i hcount
      rw [ends_bind, ends_get]
      split
      · rintro n line' ⟨⟩
      · have hcount : f.params.length ≤ args.length := by
          simp only [bne_iff_ne, ne_eq, Decidable.not_not] at hcount
          exact Nat.le_of_eq hcount.symm
        -- the machine on which the body starts, but for the fresh scope
        have ready' : ({ m with
            notes := m.notes.push (.called f.name f.params.length line)
            depth := m.depth + 1 } : Machine).Ready functions names :=
          ⟨⟨ready.sound.grounded, ready.sound.inside, ready.sound.callable⟩, ready.bound⟩
        have hinner := ready'.sound.enclose hscope (f.params.zip args) houter
        rw [List.map_fst_zip hcount] at hinner
        exact findsNames_activation (ready_enclosed ready' hinner
          (keeps_statements keeps f.body) (findsNames_statements runs hbody))
  · exact findsNames_fail rfl

end Steps

/-! ## All parts of a program -/

section Evaluation

open Run

theorem evaluation_finds (limits : Limits) (functions : Set String) :
    (∀ room (e : Expr), ∀ names, e.Sees names → FindsNames functions names (e.eval limits room)) ∧
      (∀ room (s : Stmt), ∀ names, s.Sees names →
        Brings functions names s.declares (s.exec limits room)) := by
  refine evaluation_induction limits ?shallowExpr ?shallowStmt ?atom ?unary ?binary ?logical ?assign
    ?assignIndex ?assignField ?choice ?call ?list ?record ?index ?field ?expression ?print ?make
    ?makeValue ?block ?if_ ?while_ ?funk ?return_ ?returnValue ?with_ ?for_
  case shallowExpr =>
    intro room e h names _
    rw [h]
    refine .throw fun m _ => ?_
    rintro n line ⟨⟩
  case shallowStmt =>
    intro room s h names _ m _
    rw [h]
    rintro n line ⟨⟩
  case atom =>
    intro room mark names sees
    cases sees with
    | atom h =>
      simp only [Expr.eval]
      exact findsNames_atom h
  case unary =>
    intro room op operand ih names sees
    cases sees with
    | unary h =>
      simp only [Expr.eval]
      exact (ih names h).bind fun v _ => findsNames_operator (local_unary op v)
  case binary =>
    intro room left op right ihl ihr names sees
    cases sees with
    | binary hl hr =>
      simp only [Expr.eval]
      refine (ihl names hl).bind fun a _ => (ihr names hr).bind fun b _ => ?_
      exact findsNames_operator (local_binary _ _ _ _ _)
  case logical =>
    intro room op left right ihl ihr names sees
    cases sees with
    | logical hl hr =>
      simp only [Expr.eval]
      refine findsNames_condition (ihl names hl) fun a => ?_
      split
      · exact .pure trivial
      · exact .pure trivial
      · exact findsNames_condition (ihr names hr) fun b => .pure trivial
  case assign =>
    intro room name value ih names sees
    cases sees with
    | assign hname h =>
      simp only [Expr.eval]
      exact (ih names h).bind fun v _ => (findsNames_assign hname v _).bind fun _ _ => .pure trivial
  case assignIndex =>
    intro room collection place value ihc ihp ihv names sees
    cases sees with
    | assignIndex hc hp hv =>
      simp only [Expr.eval]
      refine (ihc names hc).bind fun c _ => (ihp names hp).bind fun i _ => ?_
      exact (ihv names hv).bind fun v _ => findsNames_operator (local_setElement _ _ _ _)
  case assignField =>
    intro room collection key value ihc ihv names sees
    cases sees with
    | assignField hc hv =>
      simp only [Expr.eval]
      refine (ihc names hc).bind fun c _ => (ihv names hv).bind fun v _ => ?_
      exact findsNames_operator (local_setField _ _ _ _)
  case choice =>
    intro room condition yes no ihc ihy ihn names sees
    cases sees with
    | choice hc hy hn =>
      simp only [Expr.eval]
      refine findsNames_condition (ihc names hc) fun b => ?_
      split
      · exact ihy names hy
      · exact ihn names hn
  case call =>
    intro room callee arguments ihf iha ihs names sees
    cases sees with
    | call hf ha =>
      simp only [Expr.eval]
      refine (ihf names hf).bind fun f _ => ?_
      refine (Yields.mapM fun a ha' => iha a names (ha a ha')).bind fun args _ => ?_
      exact findsNames_call (fun s => exec_keeps limits room s) (fun names s => ihs s names) _ _ _
  case list =>
    intro room line elements ih names sees
    cases sees with
    | list h =>
      simp only [Expr.eval]
      refine (Yields.mapM fun e he => ih e names (h e he)).bind fun vs _ => ?_
      exact findsNames_operator (local_allocate fun _ => rfl)
  case record =>
    intro room line entries ih names sees
    cases sees with
    | record h =>
      simp only [Expr.eval]
      refine (Yields.mapM fun entry he => ?_).bind fun fields _ =>
        findsNames_operator (local_allocate fun _ => rfl)
      exact (ih entry.2 names (h entry he)).bind fun v _ => .pure trivial
  case index =>
    intro room collection place ihc ihp names sees
    cases sees with
    | index hc hp =>
      simp only [Expr.eval]
      refine (ihc names hc).bind fun c _ => (ihp names hp).bind fun i _ => ?_
      exact findsNames_operator (local_element _ _ _)
  case field =>
    intro room collection key ih names sees
    cases sees with
    | field h =>
      simp only [Expr.eval]
      exact (ih names h).bind fun c _ => findsNames_operator (local_field _ _ _)
  case expression =>
    intro room line value ih names sees
    cases sees with
    | expression h =>
      simp only [Stmt.exec]
      exact .of_findsNames ((ih names h).bind fun v _ => .pure trivial)
  case print =>
    intro room line value ih names sees
    cases sees with
    | print h =>
      simp only [Stmt.exec]
      refine .of_findsNames ((ih names h).bind fun v _ => ?_)
      exact (findsNames_operator (local_writeLine _ _)).bind fun _ _ => .pure trivial
  case make =>
    intro room line name names _
    simp only [Stmt.exec]
    intro m ready
    exact ⟨ready.declareIn m.scope _ _ (Or.inl rfl), fun _ => ready.declare _ _⟩
  case makeValue =>
    intro room line name value ih names sees
    cases sees with
    | makeValue h =>
      simp only [Stmt.exec]
      intro m ready
      rw [ends_bind]
      refine (ih names h m ready).imp (fun v m1 h1 => ?_) fun _ _ h => h
      exact ⟨h1.2.declareIn m1.scope _ _ (Or.inl rfl), fun _ => h1.2.declare _ _⟩
  case block =>
    intro room line body ih names sees
    cases sees with
    | block h =>
      simp only [Stmt.exec]
      refine .of_findsNames
        (findsNames_enclosed [] (keeps_statements (exec_keeps limits room) body) ?_)
      refine findsNames_statements (fun names s => ih s names) ?_
      simpa using h
  case if_ =>
    intro room line condition yes no ihc ihy ihn names sees
    cases sees with
    | if_ hc hy plain =>
      have hdeclares : (Stmt.if_ line condition yes none).declares = [] := plain
      simp only [Stmt.exec]
      rw [hdeclares]
      refine .of_findsNames (findsNames_condition (ihc names hc) fun b => ?_)
      split
      · exact (ihy names hy).findsNames
      · exact .pure trivial
    | ifElse hc hy plainYes hn plainNo =>
      rename_i no
      have hdeclares : (Stmt.if_ line condition yes (some no)).declares = [] := by
        rw [Stmt.declares, plainYes, plainNo]
        rfl
      simp only [Stmt.exec]
      rw [hdeclares]
      refine .of_findsNames (findsNames_condition (ihc names hc) fun b => ?_)
      split
      · exact (ihy names hy).findsNames
      · exact (ihn no names hn).findsNames
  case while_ =>
    intro room line condition body ihc ihb names sees
    cases sees with
    | while_ hc hb plain =>
      have hdeclares : (Stmt.while_ line condition body).declares = [] := plain
      simp only [Stmt.exec]
      rw [hdeclares]
      refine .of_findsNames (.whileHolds (fun m _ => ?_) ?_ (ihb names hb).findsNames _)
      · rintro n line ⟨⟩
      · exact (ihc names hc).bind fun v _ => findsNames_operator (local_truth _ _ _)
  case funk =>
    intro room line name params bodyLine body names sees
    cases sees with
    | funk h =>
      simp only [Stmt.exec]
      intro m ready
      have callable : Closure.Callable functions
          ⟨name.text, params.map (·.text), body, m.scope⟩ m :=
        ⟨ready.sound.inside, names, h, ready.bound⟩
      have ready' := ready.addFunction callable
      exact ⟨ready'.declareIn m.scope _ _ (Or.inl rfl), fun _ => ready'.declare _ _⟩
  case return_ =>
    intro room line names _
    simp only [Stmt.exec]
    exact .of_findsNames (.pure trivial)
  case returnValue =>
    intro room line value ih names sees
    cases sees with
    | returnValue h =>
      simp only [Stmt.exec]
      exact .of_findsNames ((ih names h).bind fun v _ => .pure trivial)
  case with_ =>
    intro room line value name body ihv ihb names sees
    cases sees with
    | with_ hv hb =>
      simp only [Stmt.exec]
      refine .of_findsNames ((ihv names hv).bind fun v _ => ?_)
      exact findsNames_enclosed _ (exec_keeps limits room body) (ihb _ hb).findsNames
  case for_ =>
    intro room line name items body ihi ihb names sees
    cases sees with
    | for_ hi hb =>
      simp only [Stmt.exec]
      refine .of_findsNames ((ihi names hi).bind fun v _ => ?_)
      split
      · refine Yields.get.bind fun m _ => .inTurn fun w _ => ?_
        exact findsNames_enclosed _ (exec_keeps limits room body) (ihb _ hb).findsNames
      · exact findsNames_fail rfl

end Evaluation

/-! ## Programs -/

section Programs

variable {functions names : Set String}

theorem brings_execTop {limits : Limits} {s : Stmt} (h : s.Sees names) {m : Machine}
    (ready : m.Ready functions names) :
    Ends (fun _ m' => m'.Ready functions (names ∪ {n | n ∈ s.declares})) (Excused functions)
      (s.execTop limits m) := by
  have hs := (evaluation_finds limits functions).2 limits.room s names h m ready
  unfold Stmt.execTop
  split <;> rename_i heq <;> rw [heq] at hs
  · exact hs.2 rfl
  · rintro n line ⟨⟩
  · rintro n line ⟨⟩
  · exact hs

theorem findsNames_program {limits : Limits} {program : List Stmt} (h : SeesAll names program) :
    FindsNames functions names (program.forM (Stmt.execTop limits)) := by
  induction program generalizing names with
  | nil => exact .pure trivial
  | cons s rest ih =>
    cases h with
    | cons hs hrest =>
      intro m ready
      change Ends _ _ ((s.execTop limits >>= fun _ => rest.forM (Stmt.execTop limits)) m)
      rw [ends_bind]
      refine (brings_execTop hs ready).imp (fun _ m1 h1 => ?_) fun _ _ h => h
      refine (ih hrest m1 h1).imp (fun _ m2 h2 => ⟨trivial, ?_⟩) fun _ _ h => h
      exact h2.2.mono Set.subset_union_left

/-- The built-in functions are bound from the start. -/
theorem start_ready (functions : Set String) (input : String) (clock : Nat) :
    (Machine.start input clock).Ready functions (known functions Context.start.names) := by
  have hbuiltin : ∀ b ∈ Builtin.all, (builtinScopes.table ScopeTree.rootScope).contains b.name := by
    decide
  refine ⟨⟨builtinScopes_grounded, Nat.zero_lt_one, fun i => ?_⟩,
    fun n hn => hn.imp_right fun hn => ?_⟩
  · refine ⟨Nat.zero_lt_one, ∅, ?_, nofun⟩
    exact .nil
  · obtain ⟨s, hs, hname⟩ := Context.exists_mem_names.mp hn
    cases List.mem_singleton.mp hs
    rw [contains_putAll] at hname
    simp only [contains_empty, Bool.false_eq_true, false_or, List.map_map, List.mem_map] at hname
    obtain ⟨b, hb, rfl⟩ := hname
    exact (ScopeTree.inSight_iff builtinScopes_grounded).mpr (Or.inl (hbuiltin b hb))

/-- If a program that passes its check runs into a name that stands for nothing, the program
declares a function of that name. -/
theorem undefined_names_are_functions {readRoom checkRoom : Nat} {limits : Limits}
    {tokens : List Token} {program : List Stmt} {context : Context} {input : String} {clock : Nat}
    {n : String} {line : Option Int} (parsed : parseTokens readRoom tokens = .ok program)
    (accepted : checkProgram checkRoom program .start = .ok () context)
    (undefined : (runOn limits (.start input clock) program).1 =
      some (.fault ⟨.undefined n, line⟩)) :
    n ∈ functionsOfAll program := by
  have sees := seesAll_of_check (formed_of_parse parsed) accepted
  have ready := start_ready {n | n ∈ functionsOfAll program} input clock
  have hrun : Ends (fun _ _ => True) (Excused {n | n ∈ functionsOfAll program})
      (evaluate limits program (.start input clock)) := by
    unfold evaluate
    rw [ends_bind]
    have ready' : ({ Machine.start input clock with
        notes := (Machine.start input clock).notes.push (.evaluating program.length) } :
        Machine).Ready _ _ :=
      ⟨⟨ready.sound.grounded, ready.sound.inside, ready.sound.callable⟩, ready.bound⟩
    exact (findsNames_program sees _ ready').imp (fun _ _ _ => trivial) fun _ _ h => h
  unfold runOn at undefined
  split at undefined
  · cases undefined
  · rename_i stop m heq
    rw [heq] at hrun
    cases stop with
    | fault f => exact hrun n line (by simpa [Stop.failure] using undefined)
    | tooDeep => cases undefined
    | endless => cases undefined

/-- A function that is called before its declaration. -/
def earlyCall : List Token :=
  [⟨.atom .name, "f", 1⟩, ⟨.sign .leftParen, "(", 1⟩, ⟨.sign .rightParen, ")", 1⟩,
    ⟨.sign .semicolon, ";", 1⟩, ⟨.word .funk, "funk", 2⟩, ⟨.atom .name, "f", 2⟩,
    ⟨.sign .leftParen, "(", 2⟩, ⟨.sign .rightParen, ")", 2⟩, ⟨.sign .leftBrace, "\x7b", 2⟩,
    ⟨.sign .rightBrace, "\x7d", 2⟩, endMark 2]

def earlyCallTree : List Stmt :=
  [.expression 1 (.call (.atom ⟨.name, "f", 1⟩) []), .funk 2 ⟨"f", 2⟩ [] 2 []]

theorem an_early_call_is_of_a_function :
    ∃ context, parseTokens 30 earlyCall = .ok earlyCallTree ∧
      checkProgram 10 earlyCallTree .start = .ok () context ∧
      (runOn ⟨10, 10, 10⟩ (.start "" 0) earlyCallTree).1 =
        some (.fault ⟨.undefined "f", some 1⟩) ∧
      "f" ∈ functionsOfAll earlyCallTree := by
  have parsed : parseTokens 30 earlyCall = .ok earlyCallTree := rfl
  have accepted := Eq.refl (checkProgram 10 earlyCallTree .start)
  have fails : (runOn ⟨10, 10, 10⟩ (.start "" 0) earlyCallTree).1 =
      some (.fault ⟨.undefined "f", some 1⟩) := rfl
  exact ⟨_, parsed, accepted, fails, undefined_names_are_functions parsed accepted fails⟩

end Programs
end FunkLang
