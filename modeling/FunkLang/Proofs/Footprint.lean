-- The footprint of a run. Whatever part of a program runs in a scope of a sealed
-- set, the run changes cells of that set only, and its value is inside the set.
import FunkLang.Proofs.Cells

namespace FunkLang

/-! ## Confined runs -/

/-- From `m` to `m'` only cells of `P` have changed, and the current scope is the same. -/
structure Frames (P : Cell → Prop) (m m' : Machine) : Prop extends Grown P m m' where
  scope : m'.scope = m.scope

/-- The set is sealed, and the current scope is inside it. -/
structure Ready (P : Cell → Prop) (m : Machine) : Prop where
  isSealed : Sealed P m
  current : Inside P m (.scope m.scope)

/-- A run changes only cells of `P`, and its answer is as `good` says. -/
def Confined {α : Type} (P : Cell → Prop) (good : α → Machine → Prop) (x : Run α) (m : Machine) :
    Prop :=
  Ends (fun a m' => Frames P m m' ∧ good a m') (fun _ m' => Frames P m m') (x m)

/-- A return of a value that is inside `P`, if it is a return. -/
def FlowOwned (P : Cell → Prop) (m : Machine) : Flow → Prop
  | .next => True
  | .returned v => Owned P m v

variable {P : Cell → Prop} {m m' m1 m2 : Machine}

theorem Frames.refl (h : Sealed P m) : Frames P m m := ⟨.refl h, rfl⟩

theorem Frames.trans (h : Frames P m m1) (h' : Frames P m1 m2) : Frames P m m2 :=
  ⟨h.toGrown.trans h'.toGrown, h'.scope.trans h.scope⟩

theorem Ready.frames (h : Ready P m) (hf : Frames P m m1) : Ready P m1 where
  isSealed := hf.isSealed
  current := by
    rw [hf.scope]
    exact h.current.mono hf.grows

namespace Confined

variable {α β : Type} {good : α → Machine → Prop} {x : Run α}

theorem pure {a : α} (h : Sealed P m) (ha : good a m) : Confined P good (Pure.pure a) m :=
  ⟨.refl h, ha⟩

theorem throw {stop : Stop} (h : Sealed P m) :
    Confined P good (MonadExcept.throw stop : Run α) m := Frames.refl h

theorem fail {cause : FaultCause} {line : Int} (h : Sealed P m) :
    Confined P good (Run.fail cause line) m := throw h

theorem modify {f : Machine → Machine} (h : Grown P m (f m)) (scope : (f m).scope = m.scope) :
    Confined P (fun _ _ => True) (modify f : Run PUnit) m := ⟨⟨h, scope⟩, trivial⟩

theorem bind {good' : β → Machine → Prop} {f : α → Run β} (hx : Confined P good x m)
    (hf : ∀ a m1, Frames P m m1 → good a m1 → Confined P good' (f a) m1) :
    Confined P good' (x >>= f) m := by
  unfold Confined
  rw [ends_bind]
  refine Ends.imp hx (fun a m1 ha => ?_) fun _ _ he => he
  refine Ends.imp (hf a m1 ha.1 ha.2) (fun _ _ hb => ⟨ha.1.trans hb.1, hb.2⟩) ?_
  exact fun _ _ he => ha.1.trans he

/-- A look at the machine changes nothing. -/
theorem get {f : Machine → Run α} (hf : Confined P good (f m) m) :
    Confined P good (MonadState.get >>= f) m := hf

theorem mapM {good : β → Machine → Prop} {f : α → Run β} {items : List α}
    (mono : ∀ b m1 m2, Frames P m1 m2 → good b m1 → good b m2) (h : Sealed P m)
    (each : ∀ a ∈ items, ∀ m1, Frames P m m1 → Confined P good (f a) m1) :
    Confined P (fun bs m' => ∀ b ∈ bs, good b m') (items.mapM f) m := by
  induction items generalizing m with
  | nil => exact pure h (by simp)
  | cons a rest ih =>
    rw [List.mapM_cons]
    refine (each a List.mem_cons_self m (.refl h)).bind fun b m1 h1 hb => ?_
    refine (ih h1.isSealed fun a ha m2 h2 =>
      each a (List.mem_cons_of_mem _ ha) m2 (h1.trans h2)).bind fun bs m2 h2 hbs => ?_
    exact pure h2.isSealed (List.forall_mem_cons.mpr ⟨mono b m1 m2 h2 hb, hbs⟩)

theorem inTurn {act : α → Run Flow} {items : List α} (h : Sealed P m)
    (each : ∀ a ∈ items, ∀ m1, Frames P m m1 →
      Confined P (fun flow m' => FlowOwned P m' flow) (act a) m1) :
    Confined P (fun flow m' => FlowOwned P m' flow) (Run.inTurn act items) m := by
  induction items generalizing m with
  | nil => exact pure h trivial
  | cons a rest ih =>
    unfold Run.inTurn
    refine (each a List.mem_cons_self m (.refl h)).bind fun flow m1 h1 hflow => ?_
    cases flow with
    | next =>
      exact ih h1.isSealed fun b hb m2 h2 => each b (List.mem_cons_of_mem _ hb) m2 (h1.trans h2)
    | returned v => exact pure h1.isSealed hflow

theorem whileHolds {test : Run Bool} {body : Run Flow} (h : Sealed P m)
    (htest : ∀ m1, Frames P m m1 → Confined P (fun _ _ => True) test m1)
    (hbody : ∀ m1, Frames P m m1 → Confined P (fun flow m' => FlowOwned P m' flow) body m1)
    (turns : Nat) :
    Confined P (fun flow m' => FlowOwned P m' flow) (Run.whileHolds test body turns) m := by
  induction turns generalizing m with
  | zero => exact throw h
  | succ turns ih =>
    unfold Run.whileHolds
    refine (htest m (.refl h)).bind fun holds m1 h1 _ => ?_
    cases holds with
    | false => exact pure h1.isSealed trivial
    | true =>
      refine (hbody m1 h1).bind fun flow m2 h2 hflow => ?_
      cases flow with
      | next =>
        exact ih h2.isSealed (fun m3 h3 => htest m3 ((h1.trans h2).trans h3)) fun m3 h3 =>
          hbody m3 ((h1.trans h2).trans h3)
      | returned v => exact pure h2.isSealed hflow

/-- What runs in a fresh scope, inside one of the set, is confined if it is so there. -/
theorem enclosed {parent : Nat} {bindings : List (String × Value)} {body : Run Flow}
    (h : Sealed P m) (hparent : Inside P m (.scope parent))
    (hbindings : ∀ b ∈ bindings, Owned P m b.2)
    (hbody : Ready P (m.enclose parent bindings) →
      Confined P (fun flow m' => FlowOwned P m' flow) body (m.enclose parent bindings)) :
    Confined P (fun flow m' => FlowOwned P m' flow) (Run.enclosed parent bindings body) m := by
  have hopened := h.enclose hparent hbindings
  have hready : Ready P (m.enclose parent bindings) := by
    refine ⟨hopened.isSealed, h.fresh _ (Nat.lt_irrefl _), ?_⟩
    simp only [Machine.Has, Run.enclose_scope, Run.enclose_opened]
    exact Nat.lt_succ_self _
  have back : ∀ m', Frames P (m.enclose parent bindings) m' →
      Frames P m { m' with scope := m.scope } := fun m' hf =>
    ⟨(hopened.trans hf.toGrown).trans (hf.isSealed.unchanged rfl rfl), rfl⟩
  unfold Confined
  rw [Run.ends_enclosed]
  refine Ends.imp (hbody hready) (fun flow m' hf => ⟨back m' hf.1, ?_⟩) fun _ m' hf => back m' hf
  cases flow with
  | next => trivial
  | returned v => exact hf.2

/-- A call is confined if the body of the function is. -/
theorem activation {name : String} {line : Int} {body : Run Flow}
    (hbody : Confined P (fun flow m' => FlowOwned P m' flow) body
      { m with depth := m.depth + 1 }) (h : Sealed P m) :
    Confined P (fun v m' => Owned P m' v) (Run.activation name line body) m := by
  have enter : Grown P m { m with depth := m.depth + 1 } := h.unchanged rfl rfl
  have back : ∀ m', Frames P { m with depth := m.depth + 1 } m' →
      Frames P m { m' with depth := m'.depth - 1 } := fun m' hf =>
    ⟨(enter.trans hf.toGrown).trans (hf.isSealed.unchanged rfl rfl), hf.scope⟩
  unfold Confined
  rw [Run.ends_activation]
  refine Ends.imp hbody (fun flow m' hf => ⟨back m' hf.1, ?_⟩) fun _ m' hf => back m' hf
  cases flow with
  | next => exact owned_of_plain rfl
  | returned v => exact hf.2

end Confined

/-! ## Steps of the machine -/

/-- Every scope of a chain that starts inside the set is inside the set. -/
theorem Sealed.chainFrom (h : Sealed P m) {steps s : Nat} (hs : Inside P m (.scope s)) {i : Nat}
    (hi : i ∈ m.scopes.chainFrom steps s) : Inside P m (.scope i) := by
  induction steps generalizing s with
  | zero => cases hi
  | succ steps ih =>
    rw [ScopeTree.chainFrom, List.mem_cons] at hi
    rcases hi with rfl | hi
    · exact hs
    · cases hp : m.scopes.parent? s with
      | none =>
        rw [hp] at hi
        cases hi
      | some p =>
        rw [hp] at hi
        exact ih ((h.closed _ hs).around p hp) hi

theorem Sealed.chain (h : Sealed P m) {s : Nat} (hs : Inside P m (.scope s)) {i : Nat}
    (hi : i ∈ m.scopes.chain s) : Inside P m (.scope i) := h.chainFrom hs hi

/-- The set is sealed, and whatever has a name in sight of the current scope is inside it. -/
structure FindsInside (P : Cell → Prop) (m : Machine) : Prop where
  isSealed : Sealed P m
  homes : ∀ i ∈ m.scopes.chain m.scope, ∀ name v, (m.scopes.table i).get? name = some v →
    Inside P m (.scope i)

theorem Ready.findsInside (h : Ready P m) : FindsInside P m :=
  ⟨h.isSealed, fun _ hi _ _ _ => h.isSealed.chain h.current hi⟩

namespace Run

/-- The value of a run is inside the set. -/
def Owns (P : Cell → Prop) (x : Run Value) (m : Machine) : Prop :=
  Confined P (fun v m' => Owned P m' v) x m

/-- A value that statements return is inside the set. -/
def OwnsFlow (P : Cell → Prop) (x : Run Flow) (m : Machine) : Prop :=
  Confined P (fun flow m' => FlowOwned P m' flow) x m

theorem owns_plain {v : Value} (h : Sealed P m) (hv : v.cell? = none) : Owns P (pure v) m :=
  .pure h (owned_of_plain hv)

theorem confined_note (n : Note) (h : Sealed P m) : Confined P (fun _ _ => True) (note n) m :=
  .modify (h.unchanged rfl rfl) rfl

theorem confined_fitting {α : Type} {a? : Option α} (h : Sealed P m) :
    Confined P (fun _ _ => True) (fitting a?) m := by
  cases a? with
  | some a => exact .pure h trivial
  | none => exact .throw h

theorem confined_writeLine (room : Nat) (values : List Value) (h : Sealed P m) :
    Confined P (fun _ _ => True) (writeLine room values) m := by
  unfold writeLine
  refine .get ((confined_fitting h).bind fun texts m1 h1 _ => ?_)
  exact .modify (h1.isSealed.unchanged rfl rfl) rfl

theorem confined_readLine (h : Sealed P m) : Confined P (fun _ _ => True) readLine m := by
  unfold readLine
  refine .get (Confined.bind (.modify (h.unchanged rfl rfl) rfl) fun _ m1 h1 _ => ?_)
  exact .pure h1.isSealed trivial

theorem confined_readClock (h : Sealed P m) : Confined P (fun _ _ => True) readClock m := by
  unfold readClock
  refine .get (Confined.bind (.modify (h.unchanged rfl rfl) rfl) fun _ m1 h1 _ => ?_)
  exact .pure h1.isSealed trivial

theorem owns_lookup (name : String) (line : Int) (h : FindsInside P m) :
    Owns P (lookup name line) m := by
  unfold lookup
  refine .get ?_
  unfold ScopeTree.get
  cases hget : m.scopes.get? m.scope name with
  | none => exact .throw h.isSealed
  | some v =>
    refine .pure h.isSealed ?_
    obtain ⟨i, hi, hv⟩ := List.exists_of_findSome?_eq_some hget
    exact (h.isSealed.closed _ (h.homes i hi name v hv)).held v ⟨name, hv⟩

theorem confined_declare {name : String} {v : Value} (h : Ready P m) (hv : Owned P m v) :
    Confined P (fun _ _ => True) (declare name v) m := by
  unfold declare declareIn
  exact .get (.modify (h.isSealed.declare h.current hv name) rfl)

theorem confined_assign {name : String} {v : Value} {line : Int} (h : FindsInside P m)
    (hv : Owned P m v) : Confined P (fun _ _ => True) (assign name v line) m := by
  unfold assign
  refine .get ?_
  cases hhome : m.scopes.home? m.scope name with
  | none => exact .fail h.isSealed
  | some home =>
    have hcontains := ScopeTree.contains_of_home? hhome
    rw [contains_eq_isSome, Option.isSome_iff_exists] at hcontains
    obtain ⟨w, hw⟩ := hcontains
    have hinside := h.homes home (List.mem_of_find?_eq_some hhome) name w hw
    exact .modify (h.isSealed.declare hinside hv name) rfl

/-! ## Operators -/

theorem owns_atom (mark : Mark Atom) (h : FindsInside P m) : Owns P (atom mark) m := by
  unfold atom
  split
  · exact owns_plain h.isSealed rfl
  · exact owns_plain h.isSealed rfl
  · exact owns_plain h.isSealed rfl
  · exact owns_plain h.isSealed rfl
  · exact owns_lookup _ _ h

theorem confined_truth (by_ : Condition) (v : Value) (line : Int) (h : Sealed P m) :
    Confined P (fun _ _ => True) (truth by_ v line) m := by
  unfold truth
  split
  · exact .pure h trivial
  · exact .fail h

theorem owns_unary (op : Mark UnaryOp) (v : Value) (h : Sealed P m) :
    Owns P (unary op v) m := by
  unfold unary
  split
  · exact owns_plain h rfl
  · exact .fail h
  · exact (confined_truth _ _ _ h).bind fun b m1 h1 _ => owns_plain h1.isSealed rfl

theorem owns_numeric {op : Mark BinaryOp} {combine : Number → Number → Value} {at_ : Expr}
    {a b : Value} (hcombine : ∀ x y, (combine x y).cell? = none) (h : Sealed P m) :
    Owns P (numeric op combine at_ a b) m := by
  unfold numeric
  split
  · exact owns_plain h (hcombine _ _)
  · exact .fail h
  · exact .fail h

theorem owns_binary (room : Nat) (op : Mark BinaryOp) (at_ : Expr) (a b : Value)
    (h : Sealed P m) : Owns P (binary room op at_ a b) m := by
  unfold binary
  cases op.kind
  case plus =>
    dsimp only
    split
    · exact owns_plain h rfl
    · exact owns_plain h rfl
    · exact .fail h
  case equal =>
    exact .get ((confined_fitting h).bind fun same m1 h1 _ => owns_plain h1.isSealed rfl)
  case unequal =>
    exact .get ((confined_fitting h).bind fun same m1 h1 _ => owns_plain h1.isSealed rfl)
  all_goals exact owns_numeric (fun _ _ => rfl) h

theorem confined_slot (length : Nat) (index : Value) (line : Int) (h : Sealed P m) :
    Confined P (fun _ _ => True) (slot length index line) m := by
  unfold slot
  split
  · split
    · split
      · exact .pure h trivial
      · exact .fail h
    · exact .fail h
  · exact .fail h

theorem owns_element (at_ : Expr) (index : Value) {collection : Value} (h : Sealed P m)
    (hcollection : Owned P m collection) : Owns P (element at_ collection index) m := by
  unfold element
  split
  · rename_i i
    refine .get ((confined_slot _ _ _ h).bind fun k m1 h1 _ => .pure h1.isSealed ?_)
    cases hk : (m.heap.list i)[k]? with
    | none => exact owned_of_plain rfl
    | some v =>
      have hmem : m.Holds (.list i) v := Array.mem_of_getElem? hk
      exact ((h.closed _ (hcollection.inside rfl)).held v hmem).mono h1.grows
  · exact (confined_slot _ _ _ h).bind fun k m1 h1 _ => owns_plain h1.isSealed rfl
  · exact .fail h

theorem owns_setElement (at_ : Expr) (index : Value) {collection v : Value} (h : Sealed P m)
    (hcollection : Owned P m collection) (hv : Owned P m v) :
    Owns P (setElement at_ collection index v) m := by
  unfold setElement
  split
  · rename_i i
    refine .get ((confined_slot _ _ _ h).bind fun k m1 h1 _ => ?_)
    have hlist : Inside P m1 (.list i) := (hcollection.inside rfl).mono h1.grows
    have hset := h1.isSealed.setElement hlist (hv.mono h1.grows) k
    refine Confined.bind (.modify hset rfl) fun _ m2 h2 _ => .pure h2.isSealed ?_
    exact (hv.mono h1.grows).mono h2.grows
  · exact .fail h

theorem owns_field (at_ : Expr) (key : String) {collection : Value} (h : Sealed P m)
    (hcollection : Owned P m collection) : Owns P (field at_ key collection) m := by
  unfold field
  split
  · refine .get ?_
    split
    · rename_i i _ v hv
      exact .pure h ((h.closed _ (hcollection.inside rfl)).held v ⟨key, hv⟩)
    · exact .fail h
  · exact .fail h

theorem owns_setField (at_ : Expr) (key : String) {collection v : Value} (h : Sealed P m)
    (hcollection : Owned P m collection) (hv : Owned P m v) :
    Owns P (setField at_ key collection v) m := by
  unfold setField
  split
  · have hset := h.setField (hcollection.inside rfl) hv key
    exact Confined.bind (.modify hset rfl) fun _ m1 h1 _ => .pure h1.isSealed (hv.mono h1.grows)
  · exact .fail h

theorem owns_allocate {make : Heap → Value × Heap}
    (h : Grown P m { m with heap := (make m.heap).2 } ∧
      Owned P { m with heap := (make m.heap).2 } (make m.heap).1) :
    Owns P (allocate make) m := ⟨⟨h.1, rfl⟩, h.2⟩

end Run

/-! ## Built-in functions -/

namespace Builtin

open Run

theorem confined_bound (b : Builtin) (v : Value) (line : Int) (h : Sealed P m) :
    Confined P (fun _ _ => True) (bound b v line) m := by
  unfold bound
  split
  · split
    · exact .pure h trivial
    · exact .fail h
  · exact .fail h

theorem owns_rangeIter (b : Builtin) (low high step : Nat) (line : Int) (h : Sealed P m) :
    Owns P (rangeIter b low high step line) m := by
  unfold rangeIter
  split
  · exact .fail h
  · split
    · exact .fail h
    · refine owns_allocate (h.addIter fun v hv => owned_of_plain ?_)
      unfold progression at hv
      obtain ⟨i, _, rfl⟩ := Array.mem_map.mp hv
      rfl

theorem owns_makeIter {v : Value} (line : Int) (h : Sealed P m) (hv : Owned P m v) :
    Owns P (makeIter v line) m := by
  unfold makeIter
  split
  · rename_i i
    have held := (h.closed _ (hv.inside rfl)).held
    exact .get (owns_allocate (h.addIter held))
  · rename_i i
    have held := (h.closed _ (hv.inside rfl)).held
    exact .get (owns_allocate (h.addIter held))
  · refine owns_allocate (h.addIter fun w hw => owned_of_plain ?_)
    rw [List.mem_toArray] at hw
    obtain ⟨c, _, rfl⟩ := List.mem_map.mp hw
    rfl
  · exact .fail h

theorem owns_size (v : Value) (line : Int) (h : Sealed P m) : Owns P (size v line) m := by
  unfold size
  refine .get ?_
  dsimp only
  split
  · exact owns_plain h rfl
  · exact owns_plain h rfl
  · exact owns_plain h rfl
  · exact .fail h

theorem owns_readNumber (text : String) (line : Int) (h : Sealed P m) :
    Owns P (readNumber text line) m := by
  unfold readNumber
  split
  · exact owns_plain h rfl
  · exact .fail h

/-- A built-in function changes what it is given, at most, and what it is given leads to. -/
theorem owns_call (room : Nat) (b : Builtin) {args : List Value} (line : Int) (h : Sealed P m)
    (hargs : ∀ v ∈ args, Owned P m v) : Owns P (call room b args line) m := by
  unfold call
  split
  case h_1 => exact (confined_readClock h).bind fun now m1 h1 _ => owns_plain h1.isSealed rfl
  case h_2 =>
    exact (confined_writeLine _ _ h).bind fun _ m1 h1 _ => owns_plain h1.isSealed rfl
  case h_3 => exact (confined_readLine h).bind fun text m1 h1 _ => owns_plain h1.isSealed rfl
  case h_4 => exact owns_makeIter _ h (hargs _ (by simp))
  case h_5 =>
    exact (confined_bound _ _ _ h).bind fun high m1 h1 _ => owns_rangeIter _ _ _ _ _ h1.isSealed
  case h_6 =>
    exact (confined_bound _ _ _ h).bind fun low m1 h1 _ =>
      (confined_bound _ _ _ h1.isSealed).bind fun high m2 h2 _ =>
        owns_rangeIter _ _ _ _ _ h2.isSealed
  case h_7 =>
    exact (confined_bound _ _ _ h).bind fun low m1 h1 _ =>
      (confined_bound _ _ _ h1.isSealed).bind fun high m2 h2 _ =>
        (confined_bound _ _ _ h2.isSealed).bind fun step m3 h3 _ =>
          owns_rangeIter _ _ _ _ _ h3.isSealed
  case h_8 => exact owns_size _ _ h
  case h_9 i v =>
    have hlist : Owned P m (.list i) := hargs _ (by simp)
    have hpush := h.push (hlist.inside rfl) (hargs v (by simp))
    exact Confined.bind (.modify hpush rfl) fun _ m1 h1 _ => .pure h1.isSealed (hlist.mono h1.grows)
  case h_10 => exact .fail h
  case h_11 => exact owns_plain h rfl
  case h_12 => exact owns_readNumber _ _ h
  case h_13 => exact .fail h
  case h_14 => exact owns_plain h rfl
  case h_15 => exact .fail h

end Builtin

/-! ## Calls -/

namespace Run

/-- A function is called whose body is confined, in a fresh scope inside that of its declaration. -/
theorem owns_callClosure {limits : Limits} {run : Stmt → Run Flow} {closure : Closure}
    {args : List Value} (line : Int) (h : Sealed P m)
    (hrun : ∀ s m1, Ready P m1 → OwnsFlow P (run s) m1)
    (hclosure : Inside P m (.scope closure.scope)) (hargs : ∀ v ∈ args, Owned P m v) :
    Owns P (callClosure limits run closure args line) m := by
  unfold callClosure
  split
  · exact .fail h
  · refine .get ?_
    split
    · exact .fail h
    · refine (confined_note _ h).bind fun _ m1 h1 _ => .activation ?_ h1.isSealed
      have enter : Grown P m1 { m1 with depth := m1.depth + 1 } := h1.isSealed.unchanged rfl rfl
      have grows := (h1.toGrown.trans enter).grows
      refine .enclosed enter.isSealed (hclosure.mono grows) (fun b hb => ?_) fun ready => ?_
      · exact (hargs b.2 (List.of_mem_zip hb).2).mono grows
      · exact .inTurn ready.isSealed fun s _ m2 h2 => hrun s m2 (ready.frames h2)

theorem owns_callValue {limits : Limits} {room : Nat} {run : Stmt → Run Flow} {callee : Value}
    {args : List Value} (line : Int) (h : Sealed P m)
    (hrun : ∀ s m1, Ready P m1 → OwnsFlow P (run s) m1) (hcallee : Owned P m callee)
    (hargs : ∀ v ∈ args, Owned P m v) : Owns P (callValue limits room run callee args line) m := by
  unfold callValue
  split
  · exact Builtin.owns_call room _ line h hargs
  · refine .get (owns_callClosure line h hrun ?_ hargs)
    exact (h.closed _ (hcallee.inside rfl)).around _ rfl
  · exact .fail h

end Run

/-! ## Expressions -/

section Trees

open Run

variable {limits : Limits} {room : Nat}

/-- An expression is evaluated where names are found inside the set, and what holds there holds
after each change inside the set. The expression is confined if its parts are, and the bodies of
functions. -/
theorem owns_expr {holds : Machine → Prop} (finds : ∀ m, holds m → FindsInside P m)
    (stays : ∀ m m1, holds m → Frames P m m1 → holds m1)
    (parts : ∀ r < room, ∀ (e : Expr) m, holds m → Owns P (e.eval limits r) m)
    (bodies : ∀ r < room, ∀ (s : Stmt) m, Ready P m → OwnsFlow P (s.exec limits r) m) (e : Expr)
    (m : Machine) (hm : holds m) : Owns P (e.eval limits room) m := by
  have part (r : Nat) (e : Expr) {m : Machine} (hm : holds m) (hr : r < room := by omega) :
      Owns P (e.eval limits r) m := parts r hr e m hm
  unfold Expr.eval
  split
  case h_1 mark => exact owns_atom mark (finds m hm)
  case h_2 room op operand =>
    exact (part room operand hm).bind fun v m1 h1 _ => owns_unary op v h1.isSealed
  case h_3 room left op right =>
    refine (part room left hm).bind fun a m1 h1 _ => ?_
    exact (part room right (stays m m1 hm h1)).bind fun b m2 h2 _ =>
      owns_binary room op left a b h2.isSealed
  case h_4 room op left right =>
    refine (part room left hm).bind fun v m1 h1 _ =>
      (confined_truth _ v _ h1.isSealed).bind fun a m2 h2 _ => ?_
    have hm2 := stays m1 m2 (stays m m1 hm h1) h2
    split
    · exact owns_plain h2.isSealed rfl
    · exact owns_plain h2.isSealed rfl
    · exact (part room right hm2).bind fun w m3 h3 _ =>
        (confined_truth _ w _ h3.isSealed).bind fun b m4 h4 _ => owns_plain h4.isSealed rfl
  case h_5 room name value =>
    exact (part room value hm).bind fun v m1 h1 hv =>
      (confined_assign (finds m1 (stays m m1 hm h1)) hv).bind fun _ m2 h2 _ =>
        .pure h2.isSealed (hv.mono h2.grows)
  case h_6 room collection place value =>
    refine (part room collection hm).bind fun c m1 h1 hc => ?_
    have hm1 := stays m m1 hm h1
    refine (part room place hm1).bind fun i m2 h2 _ => ?_
    refine (part room value (stays m1 m2 hm1 h2)).bind fun v m3 h3 hv => ?_
    exact owns_setElement collection i h3.isSealed (hc.mono (h2.trans h3).grows) hv
  case h_7 room collection key value =>
    refine (part room collection hm).bind fun c m1 h1 hc => ?_
    refine (part room value (stays m m1 hm h1)).bind fun v m2 h2 hv => ?_
    exact owns_setField collection key.text h2.isSealed (hc.mono h2.grows) hv
  case h_8 room condition yes no =>
    refine (part room condition hm).bind fun v m1 h1 _ =>
      (confined_truth _ v _ h1.isSealed).bind fun b m2 h2 _ => ?_
    have hm2 := stays m1 m2 (stays m m1 hm h1) h2
    split
    · exact part room yes hm2
    · exact part room no hm2
  case h_9 room callee arguments =>
    refine (part (room + 2) callee hm).bind fun f m1 h1 hf => ?_
    have hm1 := stays m m1 hm h1
    have args : Confined P (fun vs m' => ∀ v ∈ vs, Owned P m' v)
        (arguments.mapM fun a => a.eval limits (room + 1)) m1 :=
      .mapM (fun _ _ _ h hv => hv.mono h.grows) h1.isSealed fun a _ m2 h2 =>
        part (room + 1) a (stays m1 m2 hm1 h2)
    refine args.bind fun vs m2 h2 hvs => ?_
    -- The body of a function runs in a scope of its own, which is inside the set.
    exact owns_callValue callee.line h2.isSealed (bodies room (by omega)) (hf.mono h2.grows) hvs
  case h_10 room line elements =>
    have values : Confined P (fun vs m' => ∀ v ∈ vs, Owned P m' v)
        (elements.mapM fun e => e.eval limits room) m :=
      .mapM (fun _ _ _ h hv => hv.mono h.grows) (finds m hm).isSealed fun e _ m1 h1 =>
        part room e (stays m m1 hm h1)
    exact values.bind fun vs m1 h1 hvs =>
      owns_allocate (h1.isSealed.addList fun v hv => hvs v (by simpa using hv))
  case h_11 room line entries =>
    have fields : Confined P (fun bs m' => ∀ b ∈ bs, Owned P m' b.2)
        (entries.mapM fun (entry : Name × Expr) => do
          return (entry.1.text, ← entry.2.eval limits room)) m :=
      .mapM (fun _ _ _ h hv => hv.mono h.grows) (finds m hm).isSealed fun entry _ m1 h1 =>
        (part room entry.2 (stays m m1 hm h1)).bind fun v m2 h2 hv => .pure h2.isSealed hv
    refine fields.bind fun bs m1 h1 hbs => owns_allocate (h1.isSealed.addRecord fun key v hv => ?_)
    rcases Table.of_get?_putAll hv with hv | ⟨b, hb, rfl⟩
    · cases hv
    · exact hbs b hb
  case h_12 room collection place =>
    refine (part room collection hm).bind fun c m1 h1 hc => ?_
    exact (part room place (stays m m1 hm h1)).bind fun i m2 h2 _ =>
      owns_element collection i h2.isSealed (hc.mono h2.grows)
  case h_13 room collection key =>
    exact (part room collection hm).bind fun c m1 h1 hc =>
      owns_field collection key.text h1.isSealed hc
  case h_14 => exact .throw (finds m hm).isSealed

/-! ## Statements -/

/-- A statement that runs in a scope of the set is confined if its parts are. -/
theorem owns_stmt
    (exprs : ∀ r < room, ∀ (e : Expr) m, Ready P m → Owns P (e.eval limits r) m)
    (stmts : ∀ r < room, ∀ (s : Stmt) m, Ready P m → OwnsFlow P (s.exec limits r) m) (s : Stmt)
    (m : Machine) (ready : Ready P m) : OwnsFlow P (s.exec limits room) m := by
  have value (r : Nat) (e : Expr) {m : Machine} (ready : Ready P m) (hr : r < room := by omega) :
      Owns P (e.eval limits r) m := exprs r hr e m ready
  have part (r : Nat) (s : Stmt) {m : Machine} (ready : Ready P m) (hr : r < room := by omega) :
      OwnsFlow P (s.exec limits r) m := stmts r hr s m ready
  unfold Stmt.exec
  split
  case h_1 room line e =>
    exact (value room e ready).bind fun v m1 h1 _ => .pure h1.isSealed trivial
  case h_2 room line e =>
    exact (value room e ready).bind fun v m1 h1 _ =>
      (confined_writeLine room [v] h1.isSealed).bind fun _ m2 h2 _ => .pure h2.isSealed trivial
  case h_3 room line name e? =>
    have named (v : Value) {m : Machine} (ready : Ready P m) (hv : Owned P m v) :
        OwnsFlow P (do declare name.text v; return Flow.next) m :=
      (confined_declare ready hv).bind fun _ m1 h1 _ => .pure h1.isSealed trivial
    cases e? with
    | some e =>
      exact (value room e ready).bind fun v m1 h1 hv => named v (ready.frames h1) hv
    | none =>
      exact (owns_plain (v := .nil) ready.isSealed rfl).bind fun v m1 h1 hv =>
        named v (ready.frames h1) hv
  case h_4 room line body =>
    refine .get (.enclosed ready.isSealed ready.current (by simp) fun opened => ?_)
    exact .inTurn opened.isSealed fun s _ m1 h1 => part room s (opened.frames h1)
  case h_5 room line condition yes no =>
    refine (value room condition ready).bind fun v m1 h1 _ =>
      (confined_truth _ v _ h1.isSealed).bind fun b m2 h2 _ => ?_
    have ready2 := (ready.frames h1).frames h2
    split
    · exact part room yes ready2
    · cases no with
      | none => exact .pure h2.isSealed trivial
      | some no => exact part room no ready2
  case h_6 room line condition body =>
    refine .whileHolds ready.isSealed (fun m1 h1 => ?_)
      (fun m1 h1 => part room body (ready.frames h1)) _
    exact (value room condition (ready.frames h1)).bind fun v m2 h2 _ =>
      confined_truth _ v _ h2.isSealed
  case h_7 room line name params bodyLine body =>
    have made :
        Owns P (allocate (·.addFunction ⟨name.text, params.map (·.text), body, m.scope⟩)) m :=
      owns_allocate (ready.isSealed.addFunction ready.current)
    exact .get (made.bind fun f m1 h1 hf =>
      (confined_declare (ready.frames h1) hf).bind fun _ m2 h2 _ => .pure h2.isSealed trivial)
  case h_8 room line e? =>
    cases e? with
    | some e => exact (value room e ready).bind fun v m1 h1 hv => .pure h1.isSealed hv
    | none => exact .pure ready.isSealed (owned_of_plain rfl)
  case h_9 room line e name body =>
    refine (value (room + 1) e ready).bind fun v m1 h1 hv => .get ?_
    refine .enclosed h1.isSealed (ready.frames h1).current (by simpa using hv) fun opened => ?_
    exact part room body opened
  case h_10 room line name items body =>
    refine (value (room + 1) items ready).bind fun v m1 h1 hv => ?_
    split
    · rename_i i
      have held := (h1.isSealed.closed _ (hv.inside rfl)).held
      refine .get (.inTurn h1.isSealed fun w hw m2 h2 => .get ?_)
      have ready2 := (ready.frames h1).frames h2
      have hw2 : Owned P m2 w := (held w (Array.mem_toList_iff.mp hw)).mono h2.grows
      exact .enclosed h2.isSealed ready2.current (by simpa using hw2) fun opened =>
        part room body opened
    · exact .fail h1.isSealed
  case h_11 => exact .throw ready.isSealed

end Trees

/-! ## All parts of a program -/

open Run in
/-- Whatever runs in a scope of a sealed set, changes that set only, and its value is inside. -/
theorem evaluation_owns (limits : Limits) (P : Cell → Prop) :
    (∀ room (e : Expr) m, Ready P m → Owns P (e.eval limits room) m) ∧
      (∀ room (s : Stmt) m, Ready P m → OwnsFlow P (s.exec limits room) m) := by
  have both (room : Nat) : (∀ (e : Expr) m, Ready P m → Owns P (e.eval limits room) m) ∧
      ∀ (s : Stmt) m, Ready P m → OwnsFlow P (s.exec limits room) m := by
    induction room using Nat.strongRecOn with
    | ind room ih =>
      refine ⟨owns_expr (fun _ h => h.findsInside) (fun _ _ h hf => h.frames hf) ?_ ?_,
        owns_stmt ?_ ?_⟩
      all_goals intro r hr
      · exact (ih r hr).1
      · exact (ih r hr).2
      · exact (ih r hr).1
      · exact (ih r hr).2
  exact ⟨fun room => (both room).1, fun room => (both room).2⟩

end FunkLang
