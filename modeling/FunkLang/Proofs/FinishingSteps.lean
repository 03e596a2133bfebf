-- The single steps of a run in a program without a `while`. None of them goes on
-- forever, and only a text or a comparison can want more room than there is.
import FunkLang.Proofs.Finishing
import FunkLang.Proofs.Parts

namespace FunkLang

/-! ## Parts without a `while` -/

def Part.isWhile : Part → Bool
  | stmt (.while_ ..) => true
  | _ => false

/-- No `while` stands in a part, at any depth. -/
def Part.Loopless (p : Part) : Prop := ∀ q, p.Contains q → q.isWhile = false

theorem Part.loopless_iff {p : Part} :
    p.Loopless ↔ p.isWhile = false ∧ ∀ q ∈ p.subparts, q.Loopless :=
  Part.forall_contains_iff

/-- No statement stands in an expression. -/
theorem Expr.loopless (e : Expr) : (Part.expr e).Loopless := by
  induction e using Expr.parts_induction with
  | step e ih =>
    refine Part.loopless_iff.mpr ⟨rfl, fun q hq => ?_⟩
    obtain ⟨part, hpart, rfl⟩ := List.mem_map.mp hq
    exact ih part hpart

/-- So many calls are active, and no declared function has a `while` in its body. -/
structure Machine.LooplessAt (k : Nat) (m : Machine) : Prop where
  depth : m.depth = k
  bodies : ∀ i, ∀ s ∈ (m.heap.function i).body, (Part.stmt s).Loopless

/-- A run that finishes while so many calls are active. -/
def Completes {α : Type} (calls k : Nat) (x : Limits → Nat → Run α) : Prop :=
  Finishes calls (Machine.LooplessAt k) (fun _ => True) x

variable {calls k : Nat}

theorem Machine.LooplessAt.of_same {m m' : Machine} (h : m.LooplessAt k)
    (hdepth : m'.depth = m.depth) (hfunctions : m'.heap.functions = m.heap.functions) :
    m'.LooplessAt k where
  depth := hdepth.trans h.depth
  bodies i := by
    rw [Heap.function_eq hfunctions]
    exact h.bodies i

namespace Run

/-! ## Steps of the machine -/

theorem completes_pure {α : Type} (a : α) : Completes calls k fun _ _ => (pure a : Run α) :=
  .pure trivial

theorem completes_fail {α : Type} {cause : FaultCause} (h : cause.isDeep = false) (line : Int) :
    Completes calls k fun _ _ => (fail cause line : Run α) := .fail h

theorem completes_note (n : Note) : Completes calls k fun _ _ => note n :=
  .modify fun _ hm => hm.of_same rfl rfl

theorem completes_changeHeap {change : Heap → Heap}
    (h : ∀ heap, (change heap).functions = heap.functions) :
    Completes calls k fun _ _ => changeHeap change :=
  .modify fun m hm => hm.of_same rfl (h m.heap)

theorem completes_allocate {make : Heap → Value × Heap}
    (h : ∀ heap, (make heap).2.functions = heap.functions) :
    Completes calls k fun _ _ => allocate make :=
  .fixed (fun m hm => ⟨trivial, hm.of_same rfl (h m.heap)⟩) fun _ _ => trivial

/-- A new function has no `while` in its body either. -/
theorem completes_addFunction {f : Closure} (h : ∀ s ∈ f.body, (Part.stmt s).Loopless) :
    Completes calls k fun _ _ => allocate (·.addFunction f) := by
  refine .fixed (fun m hm => ⟨trivial, hm.depth, fun i => ?_⟩) fun _ _ => trivial
  change ∀ s ∈ ((m.heap.addFunction f).2.function i).body, _
  rw [Heap.function_addFunction]
  split
  · exact h
  · exact hm.bodies i

theorem completes_declareIn (scope : Nat) (name : String) (v : Value) :
    Completes calls k fun _ _ => declareIn scope name v :=
  .modify fun _ hm => hm.of_same rfl rfl

theorem completes_declare (name : String) (v : Value) :
    Completes calls k fun _ _ => declare name v :=
  Finishes.get.bind fun m _ => completes_declareIn m.scope name v

theorem completes_assign (name : String) (v : Value) (line : Int) :
    Completes calls k fun _ _ => assign name v line := by
  unfold assign
  refine Finishes.get.bind fun m _ => ?_
  cases m.scopes.home? m.scope name with
  | some home => exact completes_declareIn home name v
  | none => exact completes_fail rfl line

theorem completes_writeLine (values : List Value) :
    Completes calls k fun _ room => writeLine room values := by
  have texts : Completes calls k fun _ room =>
      get >>= fun m => fitting (values.mapM (Value.text? m.heap room)) := by
    refine .fitting (fun h room => values.mapM (Value.text? h room)) ?_ ?_
    · exact fun h all room more hall hle =>
        mapM_mono (fun v t ht => Value.text?_mono ht hle) hall
    · exact fun h grounded => mapM_of_room (f := Value.text? h)
        (fun v t room more ht hle => Value.text?_mono ht hle) fun v _ => v.has_text grounded
  exact texts.bind fun parts _ => .modify fun _ hm => hm.of_same rfl rfl

theorem completes_readLine : Completes calls k fun _ _ => readLine := by
  unfold readLine
  refine Finishes.get.bind fun m _ => ?_
  exact Finishes.bind (.modify fun _ hm => hm.of_same rfl rfl) fun _ _ => completes_pure _

theorem completes_readClock : Completes calls k fun _ _ => readClock := by
  unfold readClock
  refine Finishes.get.bind fun m _ => ?_
  exact Finishes.bind (.modify fun _ hm => hm.of_same rfl rfl) fun _ _ => completes_pure _

/-! ## Operators -/

theorem completes_atom (mark : Mark Atom) : Completes calls k fun _ _ => atom mark := by
  unfold atom
  split
  · exact completes_pure _
  · exact completes_pure _
  · exact completes_pure _
  · exact completes_pure _
  · unfold lookup
    refine Finishes.get.bind fun m _ => ?_
    unfold ScopeTree.get
    cases m.scopes.get? m.scope mark.text with
    | some v => exact completes_pure v
    | none => exact completes_fail rfl mark.line

theorem completes_truth (by_ : Condition) (v : Value) (line : Int) :
    Completes calls k fun _ _ => truth by_ v line := by
  unfold truth
  split
  · exact completes_pure _
  · exact completes_fail rfl line

theorem completes_unary (op : Mark UnaryOp) (v : Value) :
    Completes calls k fun _ _ => unary op v := by
  unfold unary
  split
  · exact completes_pure _
  · exact completes_fail rfl op.line
  · exact (completes_truth _ _ _).bind fun b _ => completes_pure _

theorem completes_numeric (op : Mark BinaryOp) (combine : Number → Number → Value) (at_ : Expr)
    (a b : Value) : Completes calls k fun _ _ => numeric op combine at_ a b := by
  unfold numeric
  split
  · exact completes_pure _
  · exact completes_fail rfl _
  · exact completes_fail rfl _

theorem completes_same (a b : Value) :
    Completes calls k fun _ room => get >>= fun m => fitting (a.same? m.heap room b) := by
  refine .fitting (fun h room => a.same? h room b) ?_ ?_
  · exact fun h same room more hsame hle => Value.same?_mono hsame hle
  · exact fun h grounded => a.has_comparison grounded b

theorem completes_binary (op : Mark BinaryOp) (at_ : Expr) (a b : Value) :
    Completes calls k fun _ room => binary room op at_ a b := by
  unfold binary
  cases op.kind
  case plus =>
    dsimp only
    split
    · exact completes_pure _
    · exact completes_pure _
    · exact completes_fail rfl _
  case equal => exact (completes_same a b).bind fun same _ => completes_pure _
  case unequal => exact (completes_same a b).bind fun same _ => completes_pure _
  all_goals exact completes_numeric _ _ _ _ _

theorem completes_slot (length : Nat) (index : Value) (line : Int) :
    Completes calls k fun _ _ => slot length index line := by
  unfold slot
  split
  · split
    · split
      · exact completes_pure _
      · exact completes_fail rfl line
    · exact completes_fail rfl line
  · exact completes_fail rfl line

theorem completes_element (at_ : Expr) (collection index : Value) :
    Completes calls k fun _ _ => element at_ collection index := by
  unfold element
  split
  · refine Finishes.get.bind fun m _ => ?_
    exact (completes_slot _ _ _).bind fun i _ => completes_pure _
  · exact (completes_slot _ _ _).bind fun i _ => completes_pure _
  · exact completes_fail rfl _

theorem completes_setElement (at_ : Expr) (collection index v : Value) :
    Completes calls k fun _ _ => setElement at_ collection index v := by
  unfold setElement
  split
  · refine Finishes.get.bind fun m _ => (completes_slot _ _ _).bind fun i _ => ?_
    exact Finishes.bind (completes_changeHeap fun _ => rfl) fun _ _ => completes_pure _
  · exact completes_fail rfl _

theorem completes_field (at_ : Expr) (key : String) (collection : Value) :
    Completes calls k fun _ _ => field at_ key collection := by
  unfold field
  split
  · refine Finishes.get.bind fun m _ => ?_
    split
    · exact completes_pure _
    · exact completes_fail rfl _
  · exact completes_fail rfl _

theorem completes_setField (at_ : Expr) (key : String) (collection v : Value) :
    Completes calls k fun _ _ => setField at_ key collection v := by
  unfold setField
  split
  · exact Finishes.bind (completes_changeHeap fun _ => rfl) fun _ _ => completes_pure _
  · exact completes_fail rfl _

end Run

/-! ## Built-in functions -/

namespace Builtin

open Run

theorem completes_bound (b : Builtin) (v : Value) (line : Int) :
    Completes calls k fun _ _ => bound b v line := by
  unfold bound
  split
  · split
    · exact completes_pure _
    · exact completes_fail rfl line
  · exact completes_fail rfl line

theorem completes_rangeIter (b : Builtin) (low high step : Nat) (line : Int) :
    Completes calls k fun _ _ => rangeIter b low high step line := by
  unfold rangeIter
  split
  · exact completes_fail rfl line
  · split
    · exact completes_fail rfl line
    · exact completes_allocate fun _ => rfl

theorem completes_makeIter (v : Value) (line : Int) :
    Completes calls k fun _ _ => makeIter v line := by
  unfold makeIter
  split
  · exact Finishes.get.bind fun m _ => completes_allocate fun _ => rfl
  · exact Finishes.get.bind fun m _ => completes_allocate fun _ => rfl
  · exact completes_allocate fun _ => rfl
  · exact completes_fail rfl line

theorem completes_size (v : Value) (line : Int) :
    Completes calls k fun _ _ => size v line := by
  unfold size
  refine Finishes.get.bind fun m _ => ?_
  dsimp only
  split
  · exact completes_pure _
  · exact completes_pure _
  · exact completes_pure _
  · exact completes_fail rfl line

theorem completes_readNumber (text : String) (line : Int) :
    Completes calls k fun _ _ => readNumber text line := by
  unfold readNumber
  split
  · exact completes_pure _
  · exact completes_fail rfl line

theorem completes_call (b : Builtin) (args : List Value) (line : Int) :
    Completes calls k fun _ room => call room b args line := by
  unfold call
  split
  case h_1 => exact completes_readClock.bind fun now _ => completes_pure _
  case h_2 =>
    have written : Completes calls k fun _ room => writeLine (room - 2) args :=
      (completes_writeLine args).reroom fun enough => ⟨enough + 2, fun _ _ => by omega⟩
    exact written.bind fun _ _ => completes_pure _
  case h_3 => exact completes_readLine.bind fun text _ => completes_pure _
  case h_4 => exact completes_makeIter _ _
  case h_5 => exact (completes_bound _ _ _).bind fun high _ => completes_rangeIter _ _ _ _ _
  case h_6 =>
    exact (completes_bound _ _ _).bind fun low _ =>
      (completes_bound _ _ _).bind fun high _ => completes_rangeIter _ _ _ _ _
  case h_7 =>
    exact (completes_bound _ _ _).bind fun low _ =>
      (completes_bound _ _ _).bind fun high _ =>
        (completes_bound _ _ _).bind fun step _ => completes_rangeIter _ _ _ _ _
  case h_8 => exact completes_size _ _
  case h_9 => exact Finishes.bind (completes_changeHeap fun _ => rfl) fun _ _ => completes_pure _
  case h_10 => exact completes_fail rfl _
  case h_11 => exact completes_pure _
  case h_12 => exact completes_readNumber _ _
  case h_13 => exact completes_fail rfl _
  case h_14 => exact completes_pure _
  case h_15 => exact completes_fail rfl _

end Builtin

end FunkLang
