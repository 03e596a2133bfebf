-- The steps of a run over a program in braces, beside those of a run over the
-- program itself. The two machines differ by blank scopes, and in the bodies of
-- their functions. Whatever a step does, it does on both.
import FunkLang.Proofs.Braces
import FunkLang.Proofs.Evaluation
import FunkLang.Proofs.Finishing
import FunkLang.Proofs.Frame
import FunkLang.Proofs.Mirroring

namespace FunkLang

/-! ## Machines -/

/-- A function, and the same one with braces in its body, in a scope that shows its own. -/
structure Twin (most : Nat) (f f' : Closure) (W : World) : Prop where
  name : f'.name = f.name
  params : f'.params = f.params
  body : AllBraced most f.body f'.body
  formed : ∀ s ∈ f.body, s.Formed
  inside : f'.scope < W.size
  scope : f.scope = W.view f'.scope

/-- The machine with other scopes and functions. -/
def Machine.among (m : Machine) (scopes : ScopeTree Value) (scope : Nat)
    (functions : Array Closure) : Machine :=
  { m with scopes, scope, heap := { m.heap with functions } }

/-- Machines of two runs, where the second is one over a program in braces. -/
structure Mirrors (most : Nat) (W : World) (m m' : Machine) : Prop where
  shows : W.Shows m.scopes m'.scopes
  here : m'.scope = W.here
  scope : m.scope = W.view W.here
  count : m'.heap.functions.size = m.heap.functions.size
  twins : ∀ i, Twin most (m.heap.function i) (m'.heap.function i) W
  rest : m' = m.among m'.scopes m'.scope m'.heap.functions

/-- Two runs side by side. -/
def mirroredRuns (most : Nat) : Pairing Stop Machine World where
  short stop := stop.isDeep = true
  related := Mirrors most
  grows := World.Grows
  grows_refl := .refl
  grows_trans := .trans

variable {most : Nat} {W W' : World} {m m' : Machine}

theorem Twin.extend {f f' : Closure} (hextends : W.Extends W') (h : Twin most f f' W) :
    Twin most f f' W' :=
  { h with
    inside := Nat.lt_of_lt_of_le h.inside hextends.size
    scope := h.scope.trans (hextends.view _ h.inside).symm }

namespace Mirrors

theorem list (h : Mirrors most W m m') (i : Nat) : m'.heap.list i = m.heap.list i :=
  congrArg (fun m => m.heap.list i) h.rest

theorem iter (h : Mirrors most W m m') (i : Nat) : m'.heap.iter i = m.heap.iter i :=
  congrArg (fun m => m.heap.iter i) h.rest

theorem record (h : Mirrors most W m m') (i : Nat) : m'.heap.record i = m.heap.record i :=
  congrArg (fun m => m.heap.record i) h.rest

theorem depth (h : Mirrors most W m m') : m'.depth = m.depth :=
  congrArg (fun m => m.depth) h.rest

theorem output (h : Mirrors most W m m') : m'.output = m.output :=
  congrArg (fun m => m.output) h.rest

theorem unread (h : Mirrors most W m m') : m'.unread = m.unread :=
  congrArg (fun m => m.unread) h.rest

theorem clock (h : Mirrors most W m m') : m'.clock = m.clock :=
  congrArg (fun m => m.clock) h.rest

/-- A change that has nothing to do with scopes and functions. -/
theorem change {f : Machine → Machine} (h : Mirrors most W m m')
    (apart : ∀ m scopes scope functions,
      f (m.among scopes scope functions) = (f m).among scopes scope functions) :
    Mirrors most W (f m) (f m') := by
  have same (m : Machine) : f m = (f m).among m.scopes m.scope m.heap.functions :=
    apart m m.scopes m.scope m.heap.functions
  have hrest : f m' = (f m).among m'.scopes m'.scope m'.heap.functions := by
    rw [← apart, ← h.rest]
  rw [hrest, same m]
  exact ⟨h.shows, h.here, h.scope, h.count, h.twins, rfl⟩

theorem functionName (h : Mirrors most W m m') (i : Nat) :
    ((m'.heap.functions[i]?).map (·.name)).getD "" =
      ((m.heap.functions[i]?).map (·.name)).getD "" := by
  have default (h : Heap) : ((h.functions[i]?).map (·.name)).getD "" = (h.function i).name := by
    unfold Heap.function
    cases h.functions[i]? <;> rfl
  rw [default, default, (h.twins i).name]

/-- Other scopes, in which another one is the current one. -/
theorem move (h : Mirrors most W m m') (hextends : W.Extends W') {scopes scopes' : ScopeTree Value}
    (shows : W'.Shows scopes scopes') {s s' : Nat} (hs : s = W'.view W'.here) (hs' : s' = W'.here) :
    Mirrors most W' { m with scopes, scope := s } { m' with scopes := scopes', scope := s' } where
  shows := shows
  here := hs'
  scope := hs
  count := h.count
  twins i := (h.twins i).extend hextends
  rest := congrArg (fun m => { m with scopes := scopes', scope := s' }) h.rest

theorem declare (h : Mirrors most W m m') {j : Nat} (hj : j < W.size) (hreal : W.real j)
    (name : String) (v : Value) :
    Mirrors most W { m with scopes := m.scopes.declare (W.view j) name v }
      { m' with scopes := m'.scopes.declare j name v } :=
  h.move (.refl W) (h.shows.declare hj hreal name v) h.scope h.here

/-- Fresh scopes with the same names. -/
theorem enclose (h : Mirrors most W m m') {s : Nat} (hs : s < W.size)
    (bindings : List (String × Value)) :
    Mirrors most (W.opened m.scopes.size True) (m.enclose (W.view s) bindings)
      (m'.enclose s bindings) := by
  have hshows := (h.shows.enclose hs).declareAll (Nat.lt_succ_self W.size)
    (World.real_opened.mpr trivial) bindings
  rw [World.view_opened] at hshows
  have hsize : m'.scopes.size = W.size := h.shows.size
  refine h.move (World.extends_opened _ _ _) ?_ World.view_opened.symm hsize
  change World.Shows _ _ (ScopeTree.declareAll _ m'.scopes.size bindings)
  rw [hsize]
  exact hshows

/-- A fresh scope of the second machine, in which the first one stays where it is. -/
theorem encloseBlank (h : Mirrors most W m m') :
    Mirrors most (W.opened m.scope False) m (m'.enclose W.here []) := by
  have hshows := h.shows.encloseBlank W.inside
  rw [← h.scope] at hshows
  exact h.move (World.extends_opened _ _ _) hshows World.view_opened.symm h.shows.size

/-- Back in the scopes that were the current ones before others were opened. -/
theorem backTo (h : Mirrors most W m m') {V : World} (hextends : V.Extends W) :
    Mirrors most (W.back V hextends.size) { m with scope := V.view V.here }
      { m' with scope := V.here } :=
  h.move (World.extends_back W V _) (h.shows.back _) (hextends.view V.here V.inside).symm rfl

theorem back (h : Mirrors most W m m') {V : World} {shown : Nat} {fresh : Prop}
    (hgrows : (V.opened shown fresh).Grows W) :
    Mirrors most (W.back V (Nat.le_of_succ_le hgrows.size)) { m with scope := V.view V.here }
      { m' with scope := V.here } :=
  h.backTo ((World.extends_opened V shown fresh).trans hgrows.toExtends)

/-- Functions that are twins. -/
theorem addFunction (h : Mirrors most W m m') {f f' : Closure} (htwin : Twin most f f' W) :
    Mirrors most W { m with heap := (m.heap.addFunction f).2 }
      { m' with heap := (m'.heap.addFunction f').2 } where
  shows := h.shows
  here := h.here
  scope := h.scope
  count := by
    change (m'.heap.functions.push f').size = (m.heap.functions.push f).size
    rw [Array.size_push, Array.size_push, h.count]
  twins i := by
    change Twin most ((m.heap.addFunction f).2.function i) ((m'.heap.addFunction f').2.function i) W
    rw [Heap.function_addFunction, Heap.function_addFunction, h.count]
    split
    · exact htwin
    · exact h.twins i
  rest := congrArg (fun m => { m with
    heap := { m.heap with functions := m'.heap.functions.push f' } }) h.rest

/-- Of a function, the text of a value shows the name only. -/
theorem text? (h : Mirrors most W m m') (room : Nat) (v : Value) :
    v.text? m'.heap room = v.text? m.heap room := by
  induction room using Nat.strongRecOn generalizing v with
  | ind room ih =>
    have part (r : Nat) (hr : r < room) : Value.text? m'.heap r = Value.text? m.heap r :=
      funext fun v => ih r hr v
    cases v with
    | list i | iter i =>
      obtain _ | _ | _ | r := room
      · rfl
      · rfl
      · rfl
      · simp only [Value.text?, h.list, h.iter, part r (by omega)]
    | record i =>
      obtain _ | r := room
      · rfl
      · simp only [Value.text?, h.record, part r (by omega)]
    | function i =>
      obtain _ | r := room
      · rfl
      · simp only [Value.text?, h.functionName]
    | _ => cases room <;> rfl

theorem same? (h : Mirrors most W m m') (room : Nat) (v w : Value) :
    v.same? m'.heap room w = v.same? m.heap room w := by
  induction room using Nat.strongRecOn generalizing v w with
  | ind room ih =>
    have part (r : Nat) (hr : r < room) : Value.same? m'.heap r = Value.same? m.heap r :=
      funext fun v => funext fun w => ih r hr v w
    match room with
    | 0 | 1 | 2 => cases v <;> cases w <;> rfl
    | r + 3 =>
      cases v <;> cases w <;>
        simp only [Value.same?, h.list, h.iter, h.record, part r (by omega)]

end Mirrors

/-! ## Steps -/

/-- A run that goes the same way on both machines. -/
abbrev SameRun {α : Type} (most : Nat) (left right : Prop) (x x' : Run α) : Prop :=
  (mirroredRuns most).Alike left right x x'

/-- A run that goes the same way on both machines, where something holds of the scopes. -/
abbrev SameRunIf {α : Type} (most : Nat) (holds : World → Prop) (left right : Prop)
    (x x' : Run α) : Prop :=
  ((mirroredRuns most).on holds).Alike left right x x'

namespace SameRun

open Pairing

variable {α : Type} {left right : Prop} {room room' : Nat}

theorem fail (cause : FaultCause) (line : Int) :
    SameRun most left right (Run.fail cause line : Run α) (Run.fail cause line) :=
  .throw _

/-- A look at what both machines have in common. -/
theorem look {f f' : Machine → Run α}
    (h : ∀ W m m', Mirrors most W m m' → SameRun most left right (f m) (f' m')) :
    SameRun most left right (MonadState.get >>= f) (MonadState.get >>= f') :=
  .get fun W m m' hm => h W m m' hm W m m' hm

/-- A change that has nothing to do with scopes and functions. -/
theorem modify {f : Machine → Machine}
    (apart : ∀ m scopes scope functions,
      f (m.among scopes scope functions) = (f m).among scopes scope functions) :
    SameRun most left right (modify f : Run PUnit) (modify f) :=
  Alike.modify fun _ _ _ hm => hm.change apart

/-- A new object that is no function. -/
theorem allocate {make : Heap → Value × Heap}
    (apart : ∀ h functions, make { h with functions } =
      ((make h).1, { (make h).2 with functions })) :
    SameRun most left right (Run.allocate make) (Run.allocate make) := by
  intro W m m' hm
  have hvalue : (make m'.heap).1 = (make m.heap).1 := by
    rw [hm.rest]
    exact congrArg (fun made => made.1) (apart m.heap m'.heap.functions)
  have hmade : Mirrors most W { m with heap := (make m.heap).2 }
      { m' with heap := (make m'.heap).2 } := by
    refine hm.change (f := fun m => { m with heap := (make m.heap).2 })
      fun m scopes scope functions => ?_
    have hheap := congrArg Prod.snd (apart m.heap functions)
    exact congrArg (fun h => Machine.mk scopes scope h m.depth m.output m.unread m.clock m.notes)
      hheap
  change Even _ _ _ _ (.ok (make m.heap).1 _) (.ok (make m'.heap).1 _)
  rw [hvalue]
  exact .ok (.refl W) hmade

/-- What fits into some room fits into all greater ones. -/
theorem fitting {f : Nat → Option α}
    (mono : ∀ a r more, f r = some a → r ≤ more → f more = some a)
    (hleft : room < room' → left) (hright : room' < room → right) :
    SameRun most left right (Run.fitting (f room)) (Run.fitting (f room')) := by
  cases ha : f room with
  | none =>
    cases hb : f room' with
    | none => exact .throw _
    | some b =>
      have hlt : room < room' := by
        by_contra hge
        rw [mono b room' room hb (Nat.le_of_not_lt hge)] at ha
        cases ha
      exact fun _ _ _ _ => .left rfl (hleft hlt)
  | some a =>
    cases hb : f room' with
    | none =>
      have hlt : room' < room := by
        by_contra hge
        rw [mono a room room' ha (Nat.le_of_not_lt hge)] at hb
        cases hb
      exact fun _ _ _ _ => .right rfl (hright hlt)
    | some b =>
      have hab : b = a := by
        rcases Nat.le_total room room' with hle | hle
        · rw [mono a room room' ha hle] at hb
          exact (Option.some.inj hb).symm
        · rw [mono b room' room hb hle] at ha
          exact Option.some.inj ha
      rw [hab]
      exact .pure a

theorem write (text : String) : SameRun most left right (Run.write text) (Run.write text) :=
  modify fun _ _ _ _ => rfl

theorem note (n : Note) : SameRun most left right (Run.note n) (Run.note n) :=
  modify fun _ _ _ _ => rfl

theorem changeHeap {f : Heap → Heap}
    (apart : ∀ h functions, f { h with functions } = { f h with functions }) :
    SameRun most left right (Run.changeHeap f) (Run.changeHeap f) := by
  refine modify fun m scopes scope functions => ?_
  exact congrArg (fun h => Machine.mk scopes scope h m.depth m.output m.unread m.clock m.notes)
    (apart m.heap functions)

theorem writeLine (hleft : room < room' → left) (hright : room' < room → right)
    (values : List Value) :
    SameRun most left right (Run.writeLine room values) (Run.writeLine room' values) := by
  refine look fun W m m' hm => Alike.bind ?_ fun texts => write _
  have htext : Value.text? m'.heap room' = Value.text? m.heap room' := funext (hm.text? room')
  rw [htext]
  refine fitting (f := fun r => values.mapM (Value.text? m.heap r)) (fun texts r more h hle => ?_)
    hleft hright
  exact mapM_mono (fun _ _ ht => Value.text?_mono ht hle) h

theorem readLine : SameRun most left right Run.readLine Run.readLine := by
  refine look fun W m m' hm => ?_
  rw [hm.unread]
  exact Alike.bind (modify fun _ _ _ _ => rfl) fun _ => .pure _

theorem readClock : SameRun most left right Run.readClock Run.readClock := by
  refine look fun W m m' hm => ?_
  rw [hm.clock]
  exact Alike.bind (modify fun _ _ _ _ => rfl) fun _ => .pure _

/-! ### Operators -/

theorem truth (by_ : Condition) (v : Value) (line : Int) :
    SameRun most left right (Run.truth by_ v line) (Run.truth by_ v line) := by
  unfold Run.truth
  split
  · exact .pure _
  · exact fail _ _

theorem unary (op : Mark UnaryOp) (v : Value) :
    SameRun most left right (Run.unary op v) (Run.unary op v) := by
  unfold Run.unary
  split
  · exact .pure _
  · exact fail _ _
  · exact (truth _ _ _).bind fun _ => .pure _

theorem numeric (op : Mark BinaryOp) (combine : Number → Number → Value) (at_ : Expr)
    (a b : Value) :
    SameRun most left right (Run.numeric op combine at_ a b) (Run.numeric op combine at_ a b) := by
  unfold Run.numeric
  split
  · exact .pure _
  · exact fail _ _
  · exact fail _ _

theorem same? (hleft : room < room' → left) (hright : room' < room → right) (a b : Value)
    (answer : Bool → Value) :
    SameRun most left right
      (do return answer (← Run.fitting (a.same? (← MonadState.get).heap room b)))
      (do return answer (← Run.fitting (a.same? (← MonadState.get).heap room' b))) := by
  refine look fun W m m' hm => Alike.bind ?_ fun same => .pure _
  rw [hm.same?]
  exact fitting (f := fun r => a.same? m.heap r b) (fun _ _ _ => Value.same?_mono) hleft hright

theorem binary (hleft : room < room' → left) (hright : room' < room → right) (op : Mark BinaryOp)
    (at_ : Expr) (a b : Value) :
    SameRun most left right (Run.binary room op at_ a b) (Run.binary room' op at_ a b) := by
  unfold Run.binary
  split
  · split
    · exact .pure _
    · exact .pure _
    · exact fail _ _
  · exact numeric _ _ _ _ _
  · exact numeric _ _ _ _ _
  · exact numeric _ _ _ _ _
  · exact numeric _ _ _ _ _
  · exact numeric _ _ _ _ _
  · exact numeric _ _ _ _ _
  · exact numeric _ _ _ _ _
  · exact same? hleft hright a b fun same => .bool same
  · exact same? hleft hright a b fun same => .bool (!same)

/-! ### Elements and fields -/

theorem slot (length : Nat) (index : Value) (line : Int) :
    SameRun most left right (Run.slot length index line) (Run.slot length index line) := by
  unfold Run.slot
  split
  · split
    · split
      · exact .pure _
      · exact fail _ _
    · exact fail _ _
  · exact fail _ _

theorem element (at_ : Expr) (collection index : Value) :
    SameRun most left right (Run.element at_ collection index)
      (Run.element at_ collection index) := by
  unfold Run.element
  split
  · refine look fun W m m' hm => ?_
    dsimp only
    rw [hm.list]
    exact (slot _ _ _).bind fun _ => .pure _
  · exact (slot _ _ _).bind fun _ => .pure _
  · exact fail _ _

theorem setElement (at_ : Expr) (collection index v : Value) :
    SameRun most left right (Run.setElement at_ collection index v)
      (Run.setElement at_ collection index v) := by
  unfold Run.setElement
  split
  · refine look fun W m m' hm => ?_
    rw [hm.list]
    refine (slot _ _ _).bind fun _ => ?_
    exact (changeHeap fun _ _ => rfl).bind fun _ => .pure _
  · exact fail _ _

theorem field (at_ : Expr) (key : String) (collection : Value) :
    SameRun most left right (Run.field at_ key collection) (Run.field at_ key collection) := by
  unfold Run.field
  split
  · refine look fun W m m' hm => ?_
    rw [hm.record]
    split
    · exact .pure _
    · exact fail _ _
  · exact fail _ _

theorem setField (at_ : Expr) (key : String) (collection v : Value) :
    SameRun most left right (Run.setField at_ key collection v)
      (Run.setField at_ key collection v) := by
  unfold Run.setField
  split
  · exact (changeHeap fun _ _ => rfl).bind fun _ => .pure _
  · exact fail _ _

/-! ### Built-in functions -/

theorem bound (b : Builtin) (v : Value) (line : Int) :
    SameRun most left right (b.bound v line) (b.bound v line) := by
  unfold Builtin.bound
  split
  · split
    · exact .pure _
    · exact fail _ _
  · exact fail _ _

theorem rangeIter (b : Builtin) (low high step : Nat) (line : Int) :
    SameRun most left right (b.rangeIter low high step line) (b.rangeIter low high step line) := by
  unfold Builtin.rangeIter
  split
  · exact fail _ _
  · split
    · exact fail _ _
    · exact allocate fun _ _ => rfl

theorem makeIter (v : Value) (line : Int) :
    SameRun most left right (Builtin.makeIter v line) (Builtin.makeIter v line) := by
  unfold Builtin.makeIter
  split
  · refine look fun W m m' hm => ?_
    dsimp only
    rw [hm.list]
    exact allocate fun _ _ => rfl
  · refine look fun W m m' hm => ?_
    dsimp only
    rw [hm.iter]
    exact allocate fun _ _ => rfl
  · exact allocate fun _ _ => rfl
  · exact fail _ _

theorem size (v : Value) (line : Int) :
    SameRun most left right (Builtin.size v line) (Builtin.size v line) := by
  unfold Builtin.size
  refine look fun W m m' hm => ?_
  dsimp only
  split
  · rw [hm.list]
    exact .pure _
  · rw [hm.iter]
    exact .pure _
  · exact .pure _
  · exact fail _ _

theorem readNumber (text : String) (line : Int) :
    SameRun most left right (Builtin.readNumber text line) (Builtin.readNumber text line) := by
  unfold Builtin.readNumber
  split
  · exact .pure _
  · exact fail _ _

theorem builtin (hleft : room < room' → left) (hright : room' < room → right) (b : Builtin)
    (args : List Value) (line : Int) :
    SameRun most left right (b.call room args line) (b.call room' args line) := by
  unfold Builtin.call
  split
  case h_1 => exact readClock.bind fun _ => .pure _
  case h_2 =>
    exact (writeLine (fun _ => hleft (by omega)) (fun _ => hright (by omega)) _).bind
      fun _ => .pure _
  case h_3 => exact readLine.bind fun _ => .pure _
  case h_4 => exact makeIter _ _
  case h_5 => exact (bound _ _ _).bind fun _ => rangeIter _ _ _ _ _
  case h_6 => exact (bound _ _ _).bind fun _ => (bound _ _ _).bind fun _ => rangeIter _ _ _ _ _
  case h_7 =>
    exact (bound _ _ _).bind fun _ => (bound _ _ _).bind fun _ => (bound _ _ _).bind fun _ =>
      rangeIter _ _ _ _ _
  case h_8 => exact size _ _
  case h_9 => exact (changeHeap fun _ _ => rfl).bind fun _ => .pure _
  case h_10 => exact fail _ _
  case h_11 => exact .pure _
  case h_12 => exact readNumber _ _
  case h_13 => exact fail _ _
  case h_14 => exact .pure _
  case h_15 => exact fail _ _

/-! ### Names -/

theorem lookup (name : String) (line : Int) :
    SameRun most left right (Run.lookup name line) (Run.lookup name line) := by
  refine look fun W m m' hm => ?_
  have hget : m'.scopes.get m'.scope name (some line) = m.scopes.get m.scope name (some line) := by
    unfold ScopeTree.get
    rw [hm.here, hm.scope, hm.shows.get?_eq W.inside]
  rw [hget]
  split
  · exact .pure _
  · exact .throw _

theorem atom (mark : Mark Atom) :
    SameRun most left right (Run.atom mark) (Run.atom mark) := by
  unfold Run.atom
  split
  · exact .pure _
  · exact .pure _
  · exact .pure _
  · exact .pure _
  · exact lookup _ _

/-- A name is set in the current scope, which has names of its own. -/
theorem declare (name : String) (v : Value) :
    SameRunIf most World.Open left right (Run.declare name v) (Run.declare name v) := by
  refine .get fun W m m' ⟨hm, hopen⟩ => ?_
  rw [hm.here, hm.scope]
  exact .ok (.refl W) ⟨hm.declare W.inside hopen name v, hopen⟩

theorem assign (name : String) (v : Value) (line : Int) :
    SameRun most left right (Run.assign name v line) (Run.assign name v line) := by
  refine .get fun W m m' hm => ?_
  rw [hm.here, hm.scope]
  obtain ⟨hhome, hreal⟩ := hm.shows.home?_eq W.inside name
  rw [← hhome]
  cases hj : m'.scopes.home? W.here name with
  | none => exact .error (.refl W) hm
  | some j =>
    obtain ⟨hlt, hreal⟩ := hreal j hj
    exact .ok (.refl W) (hm.declare hlt hreal name v)

/-- A function is declared, with braces in its body. -/
theorem funk {body body' : List Stmt} (hbraced : AllBraced most body body')
    (hformed : ∀ s ∈ body, s.Formed) (name : String) (params : List String) :
    SameRunIf most World.Open left right
      (do
        let closure : Closure := ⟨name, params, body, (← MonadState.get).scope⟩
        Run.declare name (← Run.allocate (·.addFunction closure))
        return Flow.next)
      (do
        let closure : Closure := ⟨name, params, body', (← MonadState.get).scope⟩
        Run.declare name (← Run.allocate (·.addFunction closure))
        return Flow.next) := by
  intro W m m' ⟨hm, hopen⟩
  have htwin : Twin most ⟨name, params, body, m.scope⟩ ⟨name, params, body', m'.scope⟩ W :=
    ⟨rfl, rfl, hbraced, hformed, hm.here ▸ W.inside, by rw [hm.scope, hm.here]⟩
  have hdeclare : SameRunIf most World.Open left right
      (do Run.declare name (.function m.heap.functions.size); return Flow.next)
      (do Run.declare name (.function m'.heap.functions.size); return Flow.next) := by
    rw [hm.count]
    exact (declare _ _).bind fun _ => .pure _
  exact hdeclare W _ _ ⟨hm.addFunction htwin, hopen⟩

/-! ### Scopes -/

theorem enclosed_eq_recast (parent : Nat) (bindings : List (String × Value)) (body : Run α)
    (m : Machine) : Run.enclosed parent bindings body m =
      recast id id (fun n => { n with scope := m.scope }) (body (m.enclose parent bindings)) := by
  unfold Run.enclosed
  cases body (m.enclose parent bindings) <;> rfl

variable {x x' : Run α}

/-- A scope on both machines. -/
theorem enclosed (h : SameRunIf most World.Open left right x x') {s s' : Nat}
    (bindings : List (String × Value)) :
    SameRunIf most (fun W => s' < W.size ∧ s = W.view s') left right (Run.enclosed s bindings x)
      (Run.enclosed s' bindings x') := by
  rintro W m m' ⟨hm, hs, rfl⟩
  rw [enclosed_eq_recast, enclosed_eq_recast, hm.here, hm.scope]
  have hbody := h _ _ _ ⟨hm.enclose hs bindings, World.real_opened.mpr trivial⟩
  refine hbody.recast (fun _ hdeep => hdeep) fun V n n' hgrows ⟨hn, _⟩ => ?_
  have hsize : W.size ≤ V.size := Nat.le_of_succ_le hgrows.size
  refine ⟨_, hgrows.back, hn.back hgrows, Nat.lt_of_lt_of_le hs hsize, ?_⟩
  exact (hgrows.back.view s' hs).symm

/-- A scope inside of the current one on both machines. -/
theorem enclosedHere (h : SameRunIf most World.Open left right x x')
    (bindings : List (String × Value)) :
    SameRun most left right (do Run.enclosed (← MonadState.get).scope bindings x)
      (do Run.enclosed (← MonadState.get).scope bindings x') := by
  refine .get fun W m m' hm => ?_
  rw [hm.here, hm.scope]
  exact (enclosed h bindings W m m' ⟨hm, W.inside, rfl⟩).of_on

/-- A scope on the second machine only, for a run that sets no names in it. -/
theorem enclosedBlank (h : SameRun most left right x x') :
    SameRun most left right x (do Run.enclosed (← MonadState.get).scope [] x') := by
  intro W m m' hm
  change Even _ left right W (x m) (Run.enclosed m'.scope [] x' m')
  -- The first machine stays in its scope, which is the one that the blank scope shows.
  rw [enclosed_eq_recast, hm.here, ← recast_id (x m)]
  have hbody := h _ _ _ hm.encloseBlank
  refine hbody.recast (fun _ hdeep => hdeep) fun V n n' hgrows hn => ?_
  refine ⟨_, hgrows.back, ?_⟩
  have hscope : n.scope = W.view W.here := by
    rw [hn.scope, hgrows.here]
    exact ((hgrows.view W.size (Nat.lt_succ_self _)).trans World.view_opened).trans hm.scope
  have hback := hn.back hgrows
  rw [← hscope] at hback
  exact hback

end SameRun

/-! ## One after the other -/

section Sequences

variable {ω α β : Type} {P : Pairing Stop Machine ω} {left right : Prop}

theorem Pairing.Alike.inTurn {act : α → Run Flow} {act' : β → Run Flow} {items : List α}
    {items' : List β}
    (each : List.Forall₂ (fun a b => P.Alike left right (act a) (act' b)) items items') :
    P.Alike left right (Run.inTurn act items) (Run.inTurn act' items') := by
  induction each with
  | nil => exact .pure _
  | cons h _ ih =>
    unfold Run.inTurn
    refine h.bind fun flow => ?_
    cases flow with
    | next => exact ih
    | returned v => exact .pure _

theorem Pairing.Alike.whileHolds {test test' : Run Bool} {body body' : Run Flow}
    (htest : P.Alike left right test test') (hbody : P.Alike left right body body') (turns : Nat) :
    P.Alike left right (Run.whileHolds test body turns) (Run.whileHolds test' body' turns) := by
  induction turns with
  | zero => exact .throw _
  | succ turns ih =>
    unfold Run.whileHolds
    refine htest.bind fun holds => ?_
    cases holds with
    | false => exact .pure _
    | true =>
      refine hbody.bind fun flow => ?_
      cases flow with
      | next => exact ih
      | returned v => exact .pure _

theorem inTurn_singleton (act : α → Run Flow) (a : α) : Run.inTurn act [a] = act a := by
  funext m
  change EStateM.bind (act a) _ m = act a m
  unfold EStateM.bind
  cases act a m with
  | ok flow n => cases flow <;> rfl
  | error stop n => rfl

end Sequences

/-! ## Calls -/

section Calls

open Pairing

variable {holds : World → Prop} {left right : Prop} {limits limits' : Limits}
  {run run' : Stmt → Run Flow}

theorem activation_eq_recast (name : String) (line : Int) (body : Run Flow) (m : Machine) :
    Run.activation name line body m =
      recast Run.result (Run.ofCall name line) (fun n => { n with depth := n.depth - 1 })
        (body { m with depth := m.depth + 1 }) := by
  unfold Run.activation
  cases body { m with depth := m.depth + 1 } with
  | ok flow n => cases flow <;> rfl
  | error stop n => cases stop <;> rfl

theorem sameRun_activation {x x' : Run Flow} (h : SameRunIf most holds left right x x')
    (name : String) (line : Int) :
    SameRunIf most holds left right (Run.activation name line x)
      (Run.activation name line x') := by
  rintro W m m' ⟨hm, hholds⟩
  rw [activation_eq_recast, activation_eq_recast]
  have hbody := h W { m with depth := m.depth + 1 } { m' with depth := m'.depth + 1 }
    ⟨hm.change (f := fun m => { m with depth := m.depth + 1 }) fun _ _ _ _ => rfl, hholds⟩
  refine hbody.recast (fun stop hdeep => ?_) fun V n n' hgrows ⟨hn, hholds'⟩ => ?_
  · cases stop with
    | tooDeep => rfl
    | _ => exact hdeep
  · exact ⟨V, hgrows, hn.change (f := fun n => { n with depth := n.depth - 1 }) fun _ _ _ _ => rfl,
      hholds'⟩

theorem twin_up (f f' : Closure) :
    ∀ W W', (mirroredRuns most).grows W W' → Twin most f f' W → Twin most f f' W' :=
  fun _ _ hgrows => Twin.extend (World.Grows.toExtends hgrows)

/-- A function is called, and its twin. -/
theorem sameRun_callClosure (hcalls : limits'.calls = limits.calls) {f f' : Closure}
    (hrun : ∀ s t blocks, Braced most blocks s t → s.Formed →
      SameRunIf most World.Open left right (run s) (run' t)) (args : List Value) (line : Int) :
    SameRunIf most (Twin most f f') left right (Run.callClosure limits run f args line)
      (Run.callClosure limits' run' f' args line) := by
  rintro W m m' ⟨hm, htwin⟩
  have hbody : SameRunIf most World.Open left right (Run.inTurn run f.body)
      (Run.inTurn run' f'.body) :=
    .inTurn (htwin.body.forall₂ fun s hs t blocks h => hrun s t blocks h (htwin.formed s hs))
  have hcall : SameRunIf most (Twin most f f') left right (Run.callClosure limits run f args line)
      (Run.callClosure limits' run' f' args line) := by
    unfold Run.callClosure
    rw [htwin.params, htwin.name, hcalls]
    split
    · exact .throw _
    · refine .get fun V n n' hn => ?_
      rw [hn.1.depth]
      split
      · exact .error (.refl V) hn
      · refine Alike.bind (.on (twin_up f f') (SameRun.note _)) (fun _ => ?_) V n n' hn
        refine sameRun_activation ?_ _ _
        exact (SameRun.enclosed hbody _).onto (twin_up f f') fun _ h => ⟨h.inside, h.scope⟩
  exact hcall W m m' ⟨hm, htwin⟩

theorem sameRun_callValue {room room' : Nat} (hleft : room < room' → left)
    (hright : room' < room → right) (hcalls : limits'.calls = limits.calls)
    (hrun : ∀ s t blocks, Braced most blocks s t → s.Formed →
      SameRunIf most World.Open left right (run s) (run' t)) (callee : Value) (args : List Value)
    (line : Int) :
    SameRun most left right (Run.callValue limits room run callee args line)
      (Run.callValue limits' room' run' callee args line) := by
  unfold Run.callValue
  split
  · exact SameRun.builtin hleft hright _ _ _
  · rename_i i
    refine .get fun W m m' hm => ?_
    exact (sameRun_callClosure hcalls hrun args line W m m' ⟨hm, hm.twins i⟩).of_on
  · exact SameRun.fail _ _

end Calls
end FunkLang
