-- Steps that touch no scope. An operator and a built-in function read the
-- values that they are given and the objects in the heap, make new objects and
-- change old ones; scopes, functions and calls stay as they are. What such a
-- step can fail with depends on its kind.
import FunkLang.Eval
import FunkLang.Proofs.Outcome

namespace FunkLang

/-! ## Kinds of causes -/

namespace FaultCause

/-- A value of the wrong kind, given to an operator, a condition, an index, a field, a call or
a loop. -/
def isMismatch : FaultCause → Bool
  | notBoolean .. | notNumber .. | notAddable .. | notIndex .. | notIndexable ..
  | notIndexAssignable .. | noFields .. | notFieldAssignable .. | notCallable ..
  | notIterable .. => true
  | _ => false

/-- A name that stands for nothing. -/
def isUndefined : FaultCause → Bool
  | undefined _ => true
  | _ => false

/-- What an operator can fail with. -/
def ofOperator : FaultCause → Bool
  | outOfRange .. | noField .. => true
  | cause => cause.isMismatch

/-- What a built-in function can fail with. -/
def ofBuiltin : FaultCause → Bool
  | badArgument .. | badBound .. | backwards .. | zeroStep | notNumeral .. | wrongCount .. => true
  | _ => false

theorem not_mismatch_of_builtin {cause : FaultCause} (h : cause.ofBuiltin = true) :
    cause.isMismatch = false := by
  cases cause <;> first | rfl | cases h

end FaultCause

/-- A stop for a cause of a certain kind, or for want of room. -/
def Stop.IsOf (kind : FaultCause → Bool) : Stop → Prop
  | .fault f => kind f.cause = true
  | .tooDeep => True
  | .endless => False

/-! ## Functions -/

theorem Heap.function_eq {h h' : Heap} (heq : h'.functions = h.functions) (i : Nat) :
    h'.function i = h.function i := by
  unfold Heap.function
  rw [heq]

theorem Heap.function_of_size_le {h : Heap} {i : Nat} (hi : h.functions.size ≤ i) :
    h.function i = default := by
  unfold Heap.function
  rw [Array.getElem?_eq_none hi]
  rfl

theorem Heap.function_addFunction (h : Heap) (f : Closure) (i : Nat) :
    (h.addFunction f).2.function i = if i = h.functions.size then f else h.function i := by
  unfold Heap.function Heap.addFunction
  simp only [Array.getElem?_push]
  split <;> rfl

/-! ## Local steps -/

/-- Scopes, functions and calls are the same. -/
structure SameScopes (m m' : Machine) : Prop where
  scopes : m'.scopes = m.scopes
  scope : m'.scope = m.scope
  functions : m'.heap.functions = m.heap.functions
  depth : m'.depth = m.depth
  notes : m'.notes = m.notes

theorem SameScopes.refl (m : Machine) : SameScopes m m := ⟨rfl, rfl, rfl, rfl, rfl⟩

theorem SameScopes.trans {m m1 m2 : Machine} (h : SameScopes m m1) (h' : SameScopes m1 m2) :
    SameScopes m m2 :=
  ⟨h'.scopes.trans h.scopes, h'.scope.trans h.scope, h'.functions.trans h.functions,
    h'.depth.trans h.depth, h'.notes.trans h.notes⟩

/-- Touches neither scopes nor functions nor calls, and fails only with causes of a kind. -/
def Local {α : Type} (kind : FaultCause → Bool) (x : Run α) : Prop :=
  ∀ m, Ends (fun _ m' => SameScopes m m') (fun stop m' => SameScopes m m' ∧ stop.IsOf kind) (x m)

namespace Run

variable {α β : Type} {kind : FaultCause → Bool}

theorem local_pure (a : α) : Local kind (pure a : Run α) := SameScopes.refl

theorem local_get : Local kind (get : Run Machine) := SameScopes.refl

theorem local_fail {cause : FaultCause} {line : Int} (h : kind cause = true) :
    Local kind (fail cause line : Run α) := fun m => ⟨SameScopes.refl m, h⟩

theorem local_modify {f : Machine → Machine} (h : ∀ m, SameScopes m (f m)) :
    Local kind (modify f : Run Unit) := h

theorem Local.bind {x : Run α} {f : α → Run β} (hx : Local kind x) (hf : ∀ a, Local kind (f a)) :
    Local kind (x >>= f) := by
  intro m
  rw [ends_bind]
  refine (hx m).imp (fun a m1 h1 => ?_) (fun _ _ h => h)
  exact (hf a m1).imp (fun _ _ h2 => h1.trans h2) (fun _ _ h2 => ⟨h1.trans h2.1, h2.2⟩)

theorem local_fitting (a? : Option α) : Local kind (fitting a?) := by
  cases a? with
  | some a => exact local_pure a
  | none => exact fun m => ⟨SameScopes.refl m, trivial⟩

theorem local_writeLine (room : Nat) (values : List Value) :
    Local kind (writeLine room values) := by
  unfold writeLine
  refine Local.bind local_get fun m => Local.bind (local_fitting _) fun texts => ?_
  exact local_modify fun _ => ⟨rfl, rfl, rfl, rfl, rfl⟩

theorem local_readLine : Local kind readLine := by
  unfold readLine
  refine Local.bind local_get fun m => Local.bind (local_modify ?_) fun _ => local_pure _
  exact fun _ => ⟨rfl, rfl, rfl, rfl, rfl⟩

theorem local_readClock : Local kind readClock := by
  unfold readClock
  refine Local.bind local_get fun m => Local.bind (local_modify ?_) fun _ => local_pure _
  exact fun _ => ⟨rfl, rfl, rfl, rfl, rfl⟩

theorem local_allocate {make : Heap → Value × Heap}
    (h : ∀ heap, (make heap).2.functions = heap.functions) :
    Local kind (allocate make) := fun m => ⟨rfl, rfl, h m.heap, rfl, rfl⟩

theorem local_changeHeap {change : Heap → Heap}
    (h : ∀ heap, (change heap).functions = heap.functions) :
    Local kind (changeHeap change) := fun m => ⟨rfl, rfl, h m.heap, rfl, rfl⟩

/-! ## Operators -/

theorem local_lookup (name : String) (line : Int) :
    Local FaultCause.isUndefined (lookup name line) := by
  unfold lookup
  refine Local.bind local_get fun m => ?_
  unfold ScopeTree.get
  cases m.scopes.get? m.scope name with
  | some v => exact local_pure v
  | none => exact fun m => ⟨SameScopes.refl m, rfl⟩

theorem local_atom (mark : Mark Atom) : Local FaultCause.isUndefined (atom mark) := by
  unfold atom
  split
  · exact local_pure _
  · exact local_pure _
  · exact local_pure _
  · exact local_pure _
  · exact local_lookup _ _

theorem local_truth (by_ : Condition) (v : Value) (line : Int) :
    Local FaultCause.ofOperator (truth by_ v line) := by
  unfold truth
  split
  · exact local_pure _
  · exact local_fail rfl

theorem local_unary (op : Mark UnaryOp) (v : Value) :
    Local FaultCause.ofOperator (unary op v) := by
  unfold unary
  split
  · exact local_pure _
  · exact local_fail rfl
  · exact Local.bind (local_truth _ _ _) fun b => local_pure _

theorem local_numeric (op : Mark BinaryOp) (combine : Number → Number → Value) (at_ : Expr)
    (a b : Value) : Local FaultCause.ofOperator (numeric op combine at_ a b) := by
  unfold numeric
  split
  · exact local_pure _
  · exact local_fail rfl
  · exact local_fail rfl

theorem local_same (room : Nat) (a b : Value) (f : Bool → Value) :
    Local FaultCause.ofOperator (do
      return f (← fitting (a.same? (← get).heap room b))) :=
  Local.bind local_get fun _ => Local.bind (local_fitting _) fun _ => local_pure _

theorem local_binary (room : Nat) (op : Mark BinaryOp) (at_ : Expr) (a b : Value) :
    Local FaultCause.ofOperator (binary room op at_ a b) := by
  unfold binary
  cases op.kind
  case plus =>
    dsimp only
    split
    · exact local_pure _
    · exact local_pure _
    · exact local_fail rfl
  case equal => exact local_same _ _ _ _
  case unequal => exact local_same _ _ _ (fun same => .bool !same)
  all_goals exact local_numeric _ _ _ _ _

theorem local_slot (length : Nat) (index : Value) (line : Int) :
    Local FaultCause.ofOperator (slot length index line) := by
  unfold slot
  split
  · split
    · split
      · exact local_pure _
      · exact local_fail rfl
    · exact local_fail rfl
  · exact local_fail rfl

theorem local_element (at_ : Expr) (collection index : Value) :
    Local FaultCause.ofOperator (element at_ collection index) := by
  unfold element
  split
  · refine Local.bind local_get fun m => ?_
    exact Local.bind (local_slot _ _ _) fun k => local_pure _
  · exact Local.bind (local_slot _ _ _) fun k => local_pure _
  · exact local_fail rfl

theorem local_setElement (at_ : Expr) (collection index v : Value) :
    Local FaultCause.ofOperator (setElement at_ collection index v) := by
  unfold setElement
  split
  · refine Local.bind local_get fun m => ?_
    refine Local.bind (local_slot _ _ _) fun k => ?_
    exact Local.bind (local_changeHeap fun _ => rfl) fun _ => local_pure _
  · exact local_fail rfl

theorem local_field (at_ : Expr) (key : String) (collection : Value) :
    Local FaultCause.ofOperator (field at_ key collection) := by
  unfold field
  split
  · refine Local.bind local_get fun m => ?_
    split
    · exact local_pure _
    · exact local_fail rfl
  · exact local_fail rfl

theorem local_setField (at_ : Expr) (key : String) (collection v : Value) :
    Local FaultCause.ofOperator (setField at_ key collection v) := by
  unfold setField
  split
  · exact Local.bind (local_changeHeap fun _ => rfl) fun _ => local_pure _
  · exact local_fail rfl

end Run

/-! ## Built-in functions -/

namespace Builtin

open Run

theorem local_bound (b : Builtin) (v : Value) (line : Int) :
    Local FaultCause.ofBuiltin (bound b v line) := by
  unfold bound
  split
  · split
    · exact local_pure _
    · exact local_fail rfl
  · exact local_fail rfl

theorem local_rangeIter (b : Builtin) (low high step : Nat) (line : Int) :
    Local FaultCause.ofBuiltin (rangeIter b low high step line) := by
  unfold rangeIter
  split
  · exact local_fail rfl
  · split
    · exact local_fail rfl
    · exact local_allocate fun _ => rfl

theorem local_makeIter (v : Value) (line : Int) :
    Local FaultCause.ofBuiltin (makeIter v line) := by
  unfold makeIter
  split
  · exact Local.bind local_get fun m => local_allocate fun _ => rfl
  · exact Local.bind local_get fun m => local_allocate fun _ => rfl
  · exact local_allocate fun _ => rfl
  · exact local_fail rfl

theorem local_size (v : Value) (line : Int) :
    Local FaultCause.ofBuiltin (size v line) := by
  unfold size
  refine Local.bind local_get fun m => ?_
  dsimp only
  split
  · exact local_pure _
  · exact local_pure _
  · exact local_pure _
  · exact local_fail rfl

theorem local_readNumber (text : String) (line : Int) :
    Local FaultCause.ofBuiltin (readNumber text line) := by
  unfold readNumber
  split
  · exact local_pure _
  · exact local_fail rfl

/-- A built-in function makes objects and texts, and fails for its arguments or for want of room. -/
theorem local_call (room : Nat) (b : Builtin) (args : List Value) (line : Int) :
    Local FaultCause.ofBuiltin (call room b args line) := by
  unfold call
  split
  case h_1 => exact Local.bind local_readClock fun now => local_pure _
  case h_2 => exact Local.bind (local_writeLine _ _) fun _ => local_pure _
  case h_3 => exact Local.bind local_readLine fun line => local_pure _
  case h_4 => exact local_makeIter _ _
  case h_5 => exact Local.bind (local_bound _ _ _) fun high => local_rangeIter _ _ _ _ _
  case h_6 =>
    exact Local.bind (local_bound _ _ _) fun low =>
      Local.bind (local_bound _ _ _) fun high => local_rangeIter _ _ _ _ _
  case h_7 =>
    exact Local.bind (local_bound _ _ _) fun low =>
      Local.bind (local_bound _ _ _) fun high =>
        Local.bind (local_bound _ _ _) fun step => local_rangeIter _ _ _ _ _
  case h_8 => exact local_size _ _
  case h_9 => exact Local.bind (local_changeHeap fun _ => rfl) fun _ => local_pure _
  case h_10 => exact local_fail rfl
  case h_11 => exact local_pure _
  case h_12 => exact local_readNumber _ _
  case h_13 => exact local_fail rfl
  case h_14 => exact local_pure _
  case h_15 => exact local_fail rfl

end Builtin
end FunkLang
