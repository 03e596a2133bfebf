-- The scopes around a scope. Every scope that a session has ever opened stands in one that was
-- opened before it, and so on up to the root, which all of them share. A look for a name goes that
-- way up, so it always ends, and it always finds the built-in functions.
import FunkLang.Proofs.BoundNames
import FunkLang.Proofs.Surroundings
import FunkLang.Proofs.WellFormedMachines

namespace FunkLang

/-! ## Ways up -/

namespace ScopeTree

variable {α : Type} {t : ScopeTree α} {s r : Nat} {name : String}

/-- The way up from a scope: the scopes around it, from the inside out, to one in no other. -/
inductive Climbs (t : ScopeTree α) : Nat → List Nat → Prop
  | top {s : Nat} (h : t.parent? s = none) : Climbs t s [s]
  | up {s p : Nat} {path : List Nat} (h : t.parent? s = some p) (rest : Climbs t p path) :
    Climbs t s (s :: path)

/-- The loop of every operation on a name: it looks into a scope, and if the name is not there, into
the one around it. It may find the name in a scope, or come to the end. -/
inductive Finds (t : ScopeTree α) (name : String) : Nat → Option Nat → Prop
  | here {s : Nat} (h : (t.table s).contains name = true) : Finds t name s (some s)
  | around {s p : Nat} {found : Option Nat} (absent : (t.table s).contains name = false)
    (h : t.parent? s = some p) (rest : Finds t name p found) : Finds t name s found
  | nowhere {s : Nat} (absent : (t.table s).contains name = false) (h : t.parent? s = none) :
    Finds t name s none

theorem Climbs.unique {path other : List Nat} (h : t.Climbs s path) (h' : t.Climbs s other) :
    other = path := by
  induction h generalizing other with
  | top hs =>
    cases h' with
    | top => rfl
    | up hp =>
      rw [hs] at hp
      cases hp
  | up hp _ ih =>
    cases h' with
    | top hs =>
      rw [hs] at hp
      cases hp
    | up hp' rest' =>
      obtain rfl := Option.some_inj.mp (hp.symm.trans hp')
      rw [ih rest']

theorem Finds.unique {found other : Option Nat} (h : t.Finds name s found)
    (h' : t.Finds name s other) : other = found := by
  induction h with
  | here hs =>
    cases h' with
    | here => rfl
    | around absent | nowhere absent =>
      rw [hs] at absent
      cases absent
  | around absent hp _ ih =>
    cases h' with
    | here hs =>
      rw [hs] at absent
      cases absent
    | around _ hp' rest' =>
      obtain rfl := Option.some_inj.mp (hp.symm.trans hp')
      exact ih rest'
    | nowhere _ hnone =>
      rw [hp] at hnone
      cases hnone
  | nowhere absent hnone =>
    cases h' with
    | here hs =>
      rw [hs] at absent
      cases absent
    | around _ hp =>
      rw [hp] at hnone
      cases hnone
    | nowhere => rfl

theorem climbs_chain (grounded : t.Grounded) (s : Nat) : t.Climbs s (t.chain s) := by
  induction s using Nat.strongRecOn with
  | ind s ih =>
    rw [chain_eq grounded]
    cases hp : t.parent? s with
    | none => exact .top hp
    | some p => exact .up hp (ih p (grounded s p hp))

/-- A way up ends in a scope that is in no other. -/
theorem Climbs.last {path : List Nat} (h : t.Climbs s path) :
    ∃ r, path.getLast? = some r ∧ t.parent? r = none := by
  induction h with
  | @top s hs => exact ⟨s, rfl, hs⟩
  | @up s p path _ rest ih =>
    obtain ⟨r, hr, hnone⟩ := ih
    refine ⟨r, ?_, hnone⟩
    rw [List.getLast?_cons, hr]
    rfl

/-- The loop ends where the first scope of the chain is that has the name. -/
theorem finds_home? (grounded : t.Grounded) (name : String) (s : Nat) :
    t.Finds name s (t.home? s name) := by
  induction s using Nat.strongRecOn with
  | ind s ih =>
    rw [home?_eq grounded]
    cases hname : (t.table s).contains name with
    | true => exact .here hname
    | false =>
      cases hp : t.parent? s with
      | none => exact .nowhere hname hp
      | some p => exact .around hname hp (ih p (grounded s p hp))

theorem get?_eq_home? (grounded : t.Grounded) (s : Nat) (name : String) :
    t.get? s name = (t.home? s name).bind fun i => (t.table i).get? name := by
  induction s using Nat.strongRecOn with
  | ind s ih =>
    rw [get?_eq grounded, home?_eq grounded]
    cases hname : (t.table s).contains name with
    | true =>
      rw [contains_eq_isSome, Option.isSome_iff_exists] at hname
      obtain ⟨v, hv⟩ := hname
      rw [hv, if_pos rfl]
      exact hv.symm
    | false =>
      rw [contains_eq_isSome, Option.isSome_eq_false_iff, Option.isNone_iff_eq_none] at hname
      rw [hname, if_neg Bool.false_ne_true]
      cases hp : t.parent? s with
      | none => rfl
      | some p => exact ih p (grounded s p hp)

end ScopeTree

/-! ## Rooted machines -/

/-- A scope was opened after the one around it, and only the root is in no other. The current scope
and those of the functions are there. -/
structure Machine.Rooted (m : Machine) : Prop where
  grounded : m.scopes.Grounded
  root : ∀ s < m.opened, m.scopes.parent? s = none → s = ScopeTree.rootScope
  inside : m.scope < m.opened
  functions : ∀ i, (m.heap.function i).scope < m.opened

namespace Machine.Rooted

variable {m m' : Machine}

theorem start (input : String) (clock : Nat) : (Machine.start input clock).Rooted where
  grounded := builtinScopes_grounded
  root _ hs _ := Nat.lt_one_iff.mp hs
  inside := Nat.zero_lt_one
  functions _ := Nat.zero_lt_one

theorem of_same (h : m.Rooted) (same : SameScopes m m') : m'.Rooted where
  grounded := by
    rw [same.scopes]
    exact h.grounded
  root := by
    unfold Machine.opened
    rw [same.scopes]
    exact h.root
  inside := by
    unfold Machine.opened
    rw [same.scopes, same.scope]
    exact h.inside
  functions i := by
    unfold Machine.opened
    rw [same.scopes, Heap.function_eq same.functions]
    exact h.functions i

theorem declareIn (h : m.Rooted) (s : Nat) (name : String) (v : Value) :
    ({ m with scopes := m.scopes.declare s name v } : Machine).Rooted := by
  have hopened : ({ m with scopes := m.scopes.declare s name v } : Machine).opened = m.opened :=
    ScopeTree.size_declare m.scopes s name v
  refine ⟨ScopeTree.declare_grounded h.grounded s name v, fun i hi hp => ?_, ?_, fun i => ?_⟩
  · rw [ScopeTree.parent?_declare] at hp
    exact h.root i (hopened ▸ hi) hp
  · rw [hopened]
    exact h.inside
  · rw [hopened]
    exact h.functions i

/-- A function that is declared in a scope which is there. -/
theorem addFunction (h : m.Rooted) {f : Closure} (hf : f.scope < m.opened) :
    ({ m with heap := (m.heap.addFunction f).2 } : Machine).Rooted := by
  refine ⟨h.grounded, h.root, h.inside, fun i => ?_⟩
  change ((m.heap.addFunction f).2.function i).scope < m.opened
  rw [Heap.function_addFunction]
  split
  · exact hf
  · exact h.functions i

/-- A scope that is opened inside one which is there. -/
theorem enclose (h : m.Rooted) {parent : Nat} (hparent : parent < m.opened)
    (bindings : List (String × Value)) : (m.enclose parent bindings).Rooted where
  grounded := enclose_grounded h.grounded hparent bindings
  root s hs hp := by
    rw [Run.enclose_opened] at hs
    rw [Run.enclose_parent?] at hp
    split at hp
    · cases hp
    · exact h.root s (by omega) hp
  inside := by
    rw [Run.enclose_scope, Run.enclose_opened]
    exact Nat.lt_succ_self _
  functions i := by
    rw [Run.enclose_opened]
    exact Nat.lt_succ_of_lt (h.functions i)

/-- Back from a scope to the current one. -/
theorem back (h : m'.Rooted) {s : Nat} (hs : s < m'.opened) :
    ({ m' with scope := s } : Machine).Rooted := ⟨h.grounded, h.root, hs, h.functions⟩

theorem calls (h : m.Rooted) (depth : Nat) : ({ m with depth := depth } : Machine).Rooted :=
  ⟨h.grounded, h.root, h.inside, h.functions⟩

/-- What is there on a machine was so before. -/
theorem of_precedes (h : m'.Rooted) (ready : FunkLang.Ready Everything m) (later : m.Precedes m') :
    m.Rooted where
  grounded := later.grounded h.grounded
  root s hs hp :=
    h.root s (Nat.lt_of_lt_of_le hs later.opened) ((later.parents s hs).trans hp)
  inside := ready.current.2
  functions := ready.function_lt

end Machine.Rooted

/-! ## Runs on rooted machines -/

/-- However a run on a rooted machine ends, it leaves a rooted machine. -/
abbrev StaysRooted {α : Type} (x : Run α) : Prop :=
  Yields Machine.Rooted (fun _ => True) (fun _ m => m.Rooted) x

section Steps

open Run

variable {α : Type} {x : Run α}

theorem staysRooted_throw (stop : Stop) : StaysRooted (throw stop : Run α) :=
  Yields.throw fun _ h => h

theorem staysRooted_fail (cause : FaultCause) (line : Int) :
    StaysRooted (fail cause line : Run α) :=
  staysRooted_throw _

theorem staysRooted_get {f : Machine → Run α} (hf : ∀ m, StaysRooted (f m)) :
    StaysRooted (get >>= f) := Yields.get.bind fun m _ => hf m

theorem staysRooted_local {kind : FaultCause → Bool} (h : Local kind x) :
    StaysRooted x := fun m hm =>
  (h m).imp (fun _ _ hs => ⟨trivial, hm.of_same hs⟩) fun _ _ hs => hm.of_same hs.1

theorem staysRooted_note (n : Note) : StaysRooted (note n) := fun _ h =>
  ⟨trivial, h.grounded, h.root, h.inside, h.functions⟩

theorem staysRooted_writeLine (room : Nat) (values : List Value) :
    StaysRooted (writeLine room values) :=
  staysRooted_local (local_writeLine room values : Local FaultCause.ofOperator _)

theorem staysRooted_allocate {make : Heap → Value × Heap}
    (h : ∀ heap, (make heap).2.functions = heap.functions) : StaysRooted (allocate make) :=
  staysRooted_local (local_allocate h : Local FaultCause.ofOperator _)

theorem staysRooted_declare (name : String) (v : Value) : StaysRooted (declare name v) := fun m h =>
  ⟨trivial, h.declareIn m.scope name v⟩

theorem staysRooted_assign (name : String) (v : Value) (line : Int) :
    StaysRooted (assign name v line) := by
  unfold assign
  refine staysRooted_get fun m => ?_
  split
  · exact fun _ h => ⟨trivial, h.declareIn _ name v⟩
  · exact staysRooted_fail _ _

/-- A function is declared in the current scope. -/
theorem staysRooted_funk (name : Name) (params : List Name) (body : List Stmt) :
    StaysRooted (do
      let closure := ⟨name.text, params.map (·.text), body, (← get).scope⟩
      declare name.text (← allocate (·.addFunction closure))
      return Flow.next) := by
  intro m h
  have made := h.addFunction (f := ⟨name.text, params.map (·.text), body, m.scope⟩) h.inside
  exact ⟨trivial, made.declareIn m.scope name.text _⟩

/-- What runs in a fresh scope goes back to one that is still there. -/
theorem staysRooted_enclosed {added : List String} {m : Machine} {parent : Nat}
    {bindings : List (String × Value)} (keeps : Keeps (Kept added) x) (body : StaysRooted x)
    (hm : m.Rooted) (hparent : parent < m.opened) :
    Ends (fun _ m' => True ∧ m'.Rooted) (fun _ m' => m'.Rooted)
      (enclosed parent bindings x m) := by
  have back (m' : Machine) (hk : Kept added (m.enclose parent bindings) m') (h : m'.Rooted) :
      ({ m' with scope := m.scope } : Machine).Rooted := by
    have hopened := hk.opened
    rw [enclose_opened] at hopened
    exact h.back (Nat.lt_of_lt_of_le hm.inside (Nat.le_of_succ_le hopened))
  rw [ends_enclosed]
  have hbody := body _ (hm.enclose hparent bindings)
  exact ((keeps _).and hbody).imp (fun _ m' h => ⟨trivial, back m' h.1 h.2.2⟩)
    fun _ m' h => back m' h.1 h.2

/-- What runs in a fresh scope inside the current one. -/
theorem staysRooted_enclosedHere {added : List String} (bindings : List (String × Value))
    (keeps : Keeps (Kept added) x) (body : StaysRooted x) :
    StaysRooted (do enclosed (← get).scope bindings x) := fun _ hm =>
  staysRooted_enclosed keeps body hm hm.inside

theorem staysRooted_callClosure {limits : Limits} {run : Stmt → Run Flow}
    (keeps : ∀ s : Stmt, Keeps (Kept s.declares) (run s)) (body : ∀ s, StaysRooted (run s))
    (closure : Closure) (args : List Value) (line : Int) {m : Machine} (hm : m.Rooted)
    (hclosure : closure.scope < m.opened) :
    Ends (fun _ m' => True ∧ m'.Rooted) (fun _ m' => m'.Rooted)
      (callClosure limits run closure args line m) := by
  unfold callClosure
  split
  · exact hm
  · rw [ends_bind, ends_get]
    split
    · exact hm
    · rw [ends_bind]
      refine (staysRooted_note _ m hm).imp_eq (fun _ m1 hnote hm1 => ?_) fun _ _ _ h => h
      obtain ⟨-, rfl⟩ : PUnit.unit = PUnit.unit ∧ _ = m1 := pure_eq_ok.mp hnote
      rw [ends_activation]
      refine (staysRooted_enclosed (keeps_statements keeps closure.body) (.inTurn fun s _ => body s)
        (hm1.2.calls _) hclosure).imp (fun _ _ h => ⟨trivial, h.2.calls _⟩) fun _ _ h => h.calls _

theorem staysRooted_callValue {limits : Limits} {room : Nat} {run : Stmt → Run Flow}
    (keeps : ∀ s : Stmt, Keeps (Kept s.declares) (run s)) (body : ∀ s, StaysRooted (run s))
    (callee : Value) (args : List Value) (line : Int) :
    StaysRooted (callValue limits room run callee args line) := by
  unfold callValue
  split
  · exact staysRooted_local (Builtin.local_call _ _ _ _)
  · rename_i i
    exact fun m hm => staysRooted_callClosure keeps body _ args line hm (hm.functions i)
  · exact staysRooted_fail _ _

end Steps

/-! ## All parts of a program -/

open Run in
/-- Every expression and every statement leaves a rooted machine, also where it fails. -/
theorem evaluation_staysRooted (limits : Limits) :
    (∀ room (e : Expr), StaysRooted (e.eval limits room)) ∧
      (∀ room (s : Stmt), StaysRooted (s.exec limits room)) := by
  refine evaluation_induction limits ?shallowExpr ?shallowStmt ?atom ?unary ?binary ?logical ?assign
    ?assignIndex ?assignField ?choice ?call ?list ?record ?index ?field ?expression ?print ?make
    ?makeValue ?block ?if_ ?while_ ?funk ?return_ ?returnValue ?with_ ?for_
  case shallowExpr =>
    intro room e h
    rw [h]
    exact staysRooted_throw _
  case shallowStmt =>
    intro room s h
    rw [h]
    exact staysRooted_throw _
  case atom =>
    intro room mark
    simp only [Expr.eval]
    exact staysRooted_local (local_atom mark)
  case unary =>
    intro room op operand ih
    simp only [Expr.eval]
    exact ih.bind fun v _ => staysRooted_local (local_unary op v)
  case binary =>
    intro room left op right ihl ihr
    simp only [Expr.eval]
    exact ihl.bind fun a _ => ihr.bind fun b _ => staysRooted_local (local_binary _ _ _ _ _)
  case logical =>
    intro room op left right ihl ihr
    simp only [Expr.eval]
    refine ihl.bind fun v _ => (staysRooted_local (local_truth _ _ _)).bind fun a _ => ?_
    split
    · exact .pure trivial
    · exact .pure trivial
    · exact ihr.bind fun w _ =>
        (staysRooted_local (local_truth _ _ _)).bind fun b _ => .pure trivial
  case assign =>
    intro room name value ih
    simp only [Expr.eval]
    exact ih.bind fun v _ => (staysRooted_assign _ _ _).bind fun _ _ => .pure trivial
  case assignIndex =>
    intro room collection place value ihc ihp ihv
    simp only [Expr.eval]
    exact ihc.bind fun c _ => ihp.bind fun i _ => ihv.bind fun v _ =>
      staysRooted_local (local_setElement _ _ _ _)
  case assignField =>
    intro room collection key value ihc ihv
    simp only [Expr.eval]
    exact ihc.bind fun c _ => ihv.bind fun v _ => staysRooted_local (local_setField _ _ _ _)
  case choice =>
    intro room condition yes no ihc ihy ihn
    simp only [Expr.eval]
    refine ihc.bind fun v _ => (staysRooted_local (local_truth _ _ _)).bind fun b _ => ?_
    split
    · exact ihy
    · exact ihn
  case call =>
    intro room callee arguments ihf iha ihs
    simp only [Expr.eval]
    exact ihf.bind fun f _ => (Yields.mapM fun a _ => iha a).bind fun args _ =>
      staysRooted_callValue (exec_keeps limits room) ihs _ _ _
  case list =>
    intro room line elements ih
    simp only [Expr.eval]
    exact (Yields.mapM fun e _ => ih e).bind fun vs _ => staysRooted_allocate fun _ => rfl
  case record =>
    intro room line entries ih
    simp only [Expr.eval]
    refine (Yields.mapM fun entry _ => ?_).bind fun fields _ => staysRooted_allocate fun _ => rfl
    exact (ih entry.2).bind fun v _ => .pure trivial
  case index =>
    intro room collection place ihc ihp
    simp only [Expr.eval]
    exact ihc.bind fun c _ => ihp.bind fun i _ => staysRooted_local (local_element _ _ _)
  case field =>
    intro room collection key ih
    simp only [Expr.eval]
    exact ih.bind fun c _ => staysRooted_local (local_field _ _ _)
  case expression =>
    intro room line value ih
    simp only [Stmt.exec]
    exact ih.bind fun v _ => .pure trivial
  case print =>
    intro room line value ih
    simp only [Stmt.exec]
    exact ih.bind fun v _ => (staysRooted_writeLine _ _).bind fun _ _ => .pure trivial
  case make =>
    intro room line name
    simp only [Stmt.exec]
    exact (Yields.pure trivial).bind fun v (_ : True) =>
      (staysRooted_declare _ _).bind fun _ _ => .pure trivial
  case makeValue =>
    intro room line name value ih
    simp only [Stmt.exec]
    exact ih.bind fun v _ => (staysRooted_declare _ _).bind fun _ _ => .pure trivial
  case block =>
    intro room line body ih
    simp only [Stmt.exec]
    exact staysRooted_enclosedHere [] (keeps_statements (exec_keeps limits room) body)
      (.inTurn fun s _ => ih s)
  case if_ =>
    intro room line condition yes no ihc ihy ihn
    simp only [Stmt.exec]
    refine ihc.bind fun v _ => (staysRooted_local (local_truth _ _ _)).bind fun b _ => ?_
    split
    · exact ihy
    · cases no with
      | none => exact .pure trivial
      | some no => exact ihn no
  case while_ =>
    intro room line condition body ihc ihb
    simp only [Stmt.exec]
    have htest : StaysRooted (do truth .while_ (← condition.eval limits room) line) :=
      ihc.bind fun v _ => staysRooted_local (local_truth .while_ v line)
    refine .whileHolds ?_ htest ihb limits.turns
    exact fun _ h => h
  case funk =>
    intro room line name params bodyLine body
    simp only [Stmt.exec]
    exact staysRooted_funk name params body
  case return_ =>
    intro room line
    simp only [Stmt.exec]
    exact .pure trivial
  case returnValue =>
    intro room line value ih
    simp only [Stmt.exec]
    exact ih.bind fun v _ => .pure trivial
  case with_ =>
    intro room line value name body ihv ihb
    simp only [Stmt.exec]
    exact ihv.bind fun v _ =>
      staysRooted_enclosedHere [(name.text, v)] (exec_keeps limits room body) ihb
  case for_ =>
    intro room line name items body ihi ihb
    simp only [Stmt.exec]
    refine ihi.bind fun v _ => ?_
    split
    · exact staysRooted_get fun m => .inTurn fun w _ =>
        staysRooted_enclosedHere [(name.text, w)] (exec_keeps limits room body) ihb
    · exact staysRooted_fail _ _

/-! ## Sessions -/

section Sessions

variable {limits : Limits} {m : Machine}

theorem execTop_staysRooted (limits : Limits) (s : Stmt) : StaysRooted (s.execTop limits) := by
  intro m hm
  have hs := (evaluation_staysRooted limits).2 limits.room s m hm
  unfold Stmt.execTop
  split <;> rename_i heq <;> rw [heq] at hs
  · exact ⟨trivial, hs.2⟩
  · exact hs.2
  · exact hs
  · exact hs

theorem evaluate_staysRooted (limits : Limits) (program : List Stmt) :
    StaysRooted (evaluate limits program) :=
  (staysRooted_note _).bind fun _ _ =>
    (Yields.forM fun s _ => execTop_staysRooted limits s).imp fun _ _ => trivial

theorem Machine.Rooted.runOn (h : m.Rooted) (program : List Stmt) :
    (runOn limits m program).2.Rooted := by
  rw [runOn_machine]
  exact ends_stateAfter.mpr ((evaluate_staysRooted limits program m h).imp
    (fun _ _ h => h.2) fun _ _ h => h)

theorem Machine.Rooted.sessionEnd (h : m.Rooted) (programs : List (List Stmt)) :
    (sessionEnd limits m programs).Rooted := by
  induction programs generalizing m with
  | nil => exact h
  | cons program programs ih => exact ih (h.runOn program)

/-- A machine of a session is one of its moments. -/
theorem Attained.moment (h : Attained limits m) : ∃ input clock programs,
    m ∈ sessionMoments limits (.start input clock) programs := by
  cases h with
  | between h =>
    obtain ⟨input, clock, programs, hsub⟩ := sublist_sessionMoments h
    exact ⟨input, clock, programs ++ [], (hsub []).subset (List.mem_singleton_self m)⟩
  | before h hv =>
    obtain ⟨input, clock, programs, hsub⟩ := hv.sublist_moments h
    exact ⟨input, clock, programs, hsub.subset List.mem_cons_self⟩
  | after h hv =>
    obtain ⟨input, clock, programs, hsub⟩ := hv.sublist_moments h
    exact ⟨input, clock, programs, hsub.subset (List.mem_cons_of_mem _ List.mem_cons_self)⟩

theorem Attained.rooted (h : Attained limits m) : m.Rooted := by
  obtain ⟨input, clock, programs, hm⟩ := h.moment
  have later : m.Precedes (sessionEnd limits (.start input clock) programs) :=
    precedes_sessionEnd (ready_start input clock) hm
  exact ((Machine.Rooted.start input clock).sessionEnd programs).of_precedes h.ready later

/-- What is bound before all programs is bound at every moment. -/
theorem bound_of_moment {input : String} {clock : Nat} {programs : List (List Stmt)}
    (hm : m ∈ sessionMoments limits (.start input clock) programs) :
    (Machine.start input clock).StaysBound m := by
  have hchain : (sessionMoments limits (.start input clock) programs).IsChain
      Machine.StaysBound := sessionMoments_bound (ready_start input clock) programs
  obtain ⟨rest, heq⟩ := sessionCourse_head limits (.start input clock) programs
  rw [← sessionCourse_machines, heq, List.map_cons] at hm hchain
  rcases List.mem_cons.mp hm with rfl | hm
  · exact fun _ _ hb => hb
  · exact List.rel_of_pairwise_cons (List.isChain_iff_pairwise.mp hchain) hm

theorem contains_builtin (b : Builtin) :
    (builtinScopes.table ScopeTree.rootScope).contains b.name = true := by
  cases b <;> decide +kernel

/-- The built-in functions are found from every scope. -/
theorem Attained.finds_builtin (h : Attained limits m) {s : Nat} (hs : s < m.opened)
    (b : Builtin) : (m.scopes.home? s b.name).isSome = true := by
  obtain ⟨input, clock, programs, hm⟩ := h.moment
  have bound := bound_of_moment hm _ _ (contains_builtin b)
  obtain ⟨r, hlast, hnone⟩ := (ScopeTree.climbs_chain h.rooted.grounded s).last
  have hmem : r ∈ m.scopes.chain s := List.mem_of_getLast? hlast
  obtain rfl := h.rooted.root r (h.ready.chainFrom_lt hs hmem) hnone
  exact ScopeTree.home?_isSome.mpr ⟨_, hmem, bound⟩

/-- On every machine of a session, between programs and in the middle of one, also after failures:
each scope that was ever opened has one way up, which comes to no scope twice and ends in the root.
The current scope is one of those that were opened, and so is the scope of every function in the
heap, and of every function that a scope or an object holds. No name that is bound is unbound later.
From each scope, the loop that looks for a name ends, and what it finds decides what the operations
on names give. The names of the built-in functions are always found. -/
theorem scopes_lead_up_to_the_root {limits : Limits} {m : Machine} (h : Attained limits m) :
    (∀ s < m.opened, ∃ path, m.scopes.Climbs s path ∧ path.Nodup ∧
      path.getLast? = some ScopeTree.rootScope ∧ (∀ i ∈ path, i < m.opened) ∧
      ∀ other, m.scopes.Climbs s other → other = path) ∧
    m.scope < m.opened ∧
    (∀ i, m.Has (.function i) → (m.heap.function i).scope < m.opened) ∧
    (∀ c i, m.Has c → m.Holds c (.function i) → m.Has (.function i)) ∧
    (∀ m', Later limits m m' → ∀ s name, m.Binds s name → m'.Binds s name) ∧
    ∀ s < m.opened, ∀ name, ∃ found, m.scopes.Finds name s found ∧
      (∀ other, m.scopes.Finds name s other → other = found) ∧
      m.scopes.get? s name = (found.bind fun i => (m.scopes.table i).get? name) ∧
      m.scopes.contains s name = found.isSome ∧
      (∀ v, m.scopes.assign? s name v = found.map fun i => m.scopes.declare i name v) ∧
      ∀ b : Builtin, name = b.name → (m.scopes.get? s name).isSome = true := by
  have rooted := h.rooted
  refine ⟨fun s hs => ?_, rooted.inside, fun i _ => rooted.functions i, fun c i hc hheld => ?_,
    fun m' later => later.bound, fun s hs name => ?_⟩
  · have hclimbs := ScopeTree.climbs_chain rooted.grounded s
    obtain ⟨r, hlast, hnone⟩ := hclimbs.last
    have hlt (i : Nat) (hi : i ∈ m.scopes.chain s) : i < m.opened := h.ready.chainFrom_lt hs hi
    obtain rfl := rooted.root r (hlt r (List.mem_of_getLast? hlast)) hnone
    exact ⟨_, hclimbs, ScopeTree.chain_nodup rooted.grounded s, hlast, hlt,
      fun other => hclimbs.unique⟩
  · exact ((h.ready.isSealed.closed c ⟨trivial, hc⟩).held _ hheld _ rfl).2
  · refine ⟨_, ScopeTree.finds_home? rooted.grounded name s, fun other hother => ?_,
      ScopeTree.get?_eq_home? rooted.grounded s name, rfl, fun v => rfl, ?_⟩
    · exact (ScopeTree.finds_home? rooted.grounded name s).unique hother
    · rintro b rfl
      rw [ScopeTree.get?_isSome, ← ScopeTree.home?_isSome]
      exact h.finds_builtin hs b

/-- A block that declares a function and then fails. -/
def unfinishedBlock : List Stmt :=
  [.block 1 [.make 1 ⟨"x", 1⟩ none,
    .funk 1 ⟨"f", 1⟩ [] 1 [.return_ 1 (some (.atom ⟨.name, "x", 1⟩))],
    .expression 1 (.atom ⟨.name, "y", 1⟩)]]

theorem a_function_keeps_the_scope_of_a_block_that_failed :
    ∃ m, Attained .small m ∧ (runOn .small (.start "" 0) unfinishedBlock).1.isSome = true ∧
      m = (runOn .small (.start "" 0) unfinishedBlock).2 ∧ m.scope = ScopeTree.rootScope ∧
      (m.heap.function 0).scope = 1 ∧
      (∀ path, m.scopes.Climbs 1 path → path = [1, ScopeTree.rootScope]) ∧
      (m.scopes.get? 1 "println").isSome = true := by
  let m := (runOn .small (.start "" 0) unfinishedBlock).2
  have attained : Attained .small m := .between (.run _ (.start "" 0))
  obtain ⟨climbs, -, -, -, -, finds⟩ := scopes_lead_up_to_the_root attained
  have hlt : 1 < m.opened := Nat.one_lt_two
  obtain ⟨path, -, -, -, -, unique⟩ := climbs 1 hlt
  obtain ⟨-, -, -, -, -, -, builtin⟩ := finds 1 hlt "println"
  have hpath : m.scopes.Climbs 1 [1, ScopeTree.rootScope] := .up rfl (.top rfl)
  refine ⟨m, attained, rfl, rfl, rfl, rfl, fun other hother => ?_, builtin .println rfl⟩
  exact (unique other hother).trans (unique _ hpath).symm

end Sessions

end FunkLang
