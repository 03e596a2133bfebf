-- A program without a `while` comes to an end. The calls that are still allowed
-- bound the nesting of calls, the tree bounds what one call does by itself, and
-- the items of a `for` are taken once, before its first turn.
import FunkLang.Program
import FunkLang.Proofs.FinishingSteps

namespace FunkLang

variable {calls k : Nat}

/-! ## Scopes and calls -/

namespace Run

theorem completes_enclosed {α : Type} {body : Limits → Nat → Run α} (parent : Nat)
    (bindings : List (String × Value)) (h : Completes calls k body) :
    Completes calls k fun limits room => enclosed parent bindings (body limits room) where
  yields limits room hcalls m hm := by
    rw [ends_enclosed]
    have hbody := h.yields limits room hcalls (m.enclose parent bindings) (hm.of_same rfl rfl)
    exact hbody.imp (fun _ _ ha => ⟨trivial, ha.2.of_same rfl rfl⟩) fun _ _ he => he
  settles m hm := by
    obtain ⟨enough, r, hr, founded⟩ := h.settles (m.enclose parent bindings) (hm.of_same rfl rfl)
    refine ⟨enough, enclosed parent bindings (fun _ => r) m, fun limits room hcalls hroom => ?_, ?_⟩
    · unfold enclosed
      rw [hr limits room hcalls hroom]
    · exact ends_enclosed.mpr founded

/-- A call whose body finishes with one more call active. -/
theorem completes_activation {body : Limits → Nat → Run Flow} (name : String) (line : Int)
    (h : Completes calls (k + 1) body) :
    Completes calls k fun limits room => activation name line (body limits room) where
  yields limits room hcalls m hm := by
    rw [ends_activation]
    have hbody := h.yields limits room hcalls { m with depth := m.depth + 1 }
      ⟨congrArg (· + 1) hm.depth, hm.bodies⟩
    refine hbody.imp (fun _ m' ha => ⟨trivial, ?_, ha.2.bodies⟩) fun stop _ he => ?_
    · exact congrArg (· - 1) ha.2.depth
    · cases stop <;> simp [ofCall] at he ⊢
  settles m hm := by
    obtain ⟨enough, r, hr, founded⟩ := h.settles { m with depth := m.depth + 1 }
      ⟨congrArg (· + 1) hm.depth, hm.bodies⟩
    refine ⟨enough, activation name line (fun _ => r) m, fun limits room hcalls hroom => ?_, ?_⟩
    · unfold activation
      rw [hr limits room hcalls hroom]
    · refine ends_activation.mpr (Ends.imp founded (fun _ _ _ => trivial) ?_)
      intro stop m' he hdeep
      refine he ?_
      cases stop with
      | tooDeep => rfl
      | _ => exact hdeep

/-- The statements of a body finish with one more call active, if another call is allowed. -/
def BodiesComplete (calls k : Nat) : Prop :=
  k < calls → ∀ s, (Part.stmt s).Loopless →
    Completes calls (k + 1) fun limits room => s.exec limits room

theorem completes_callClosure (hbodies : BodiesComplete calls k) {closure : Closure}
    (hclosure : ∀ s ∈ closure.body, (Part.stmt s).Loopless) (args : List Value) (line : Int) :
    Completes calls k fun limits room =>
      callClosure limits (fun s => s.exec limits room) closure args line := by
  unfold callClosure
  split
  · exact completes_fail rfl line
  · refine Finishes.get.bind fun m hm => ?_
    by_cases hfree : k < calls
    · refine Finishes.congr (fun limits room hcalls => if_neg ?_) ?_
      · rw [hm.depth, hcalls]
        exact Nat.not_le.mpr hfree
      · refine Finishes.bind (completes_note _) fun _ _ => completes_activation _ line ?_
        exact completes_enclosed _ _ (.inTurn fun s hs => hbodies hfree s (hclosure s hs))
    · have full : Completes calls k fun _ _ =>
          (fail (.tooManyCalls closure.name) line : Run Value) := completes_fail rfl line
      refine Finishes.congr (fun limits room hcalls => if_pos ?_) full
      rw [hm.depth, hcalls]
      exact Nat.le_of_not_lt hfree

theorem completes_callValue (hbodies : BodiesComplete calls k) (callee : Value) (args : List Value)
    (line : Int) :
    Completes calls k fun limits room =>
      callValue limits room (fun s => s.exec limits room) callee args line := by
  unfold callValue
  cases callee with
  | builtin b => exact Builtin.completes_call b args line
  | function i =>
    refine Finishes.get.bind fun m hm => ?_
    exact completes_callClosure hbodies (hm.bodies i) args line
  | _ => exact completes_fail rfl line

end Run

/-! ## Parts of a program -/

/-- The room that a step into an expression takes at most. -/
def Expr.cost : Expr → Nat
  | call .. => 5
  | list .. => 4
  | _ => 3

/-- The room that a step into a statement takes at most. -/
def Stmt.cost : Stmt → Nat
  | block .. | with_ .. | for_ .. => 4
  | _ => 3

theorem Expr.eval_of_lt_cost (limits : Limits) {room : Nat} {e : Expr} (h : room < e.cost) :
    e.eval limits room = throw .tooDeep := by
  match room with
  | 0 | 1 | 2 => cases e <;> simp only [Expr.eval]
  | 3 => cases e <;> first | simp only [Expr.eval]; done | simp [cost] at h
  | 4 => cases e <;> first | simp [cost] at h; done | simp only [Expr.eval]
  | r + 5 => cases e <;> simp only [cost] at h <;> omega

theorem Stmt.exec_of_lt_cost (limits : Limits) {room : Nat} {s : Stmt} (h : room < s.cost) :
    s.exec limits room = throw .tooDeep := by
  match room with
  | 0 | 1 | 2 => cases s <;> simp only [Stmt.exec]
  | 3 => cases s <;> first | simp [cost] at h; done | simp only [Stmt.exec]
  | r + 4 => cases s <;> simp only [cost] at h <;> omega

section Parts

open Run

/-- An expression finishes, if the bodies of functions do and the parts of the expression. -/
theorem completes_eval (hbodies : BodiesComplete calls k) {e : Expr}
    (ih : ∀ part ∈ e.parts, Completes calls k fun limits room => part.eval limits room) :
    Completes calls k fun limits room => e.eval limits room := by
  refine Finishes.shift e.cost ?_ (fun limits room => Expr.eval_of_lt_cost limits) fun _ _ => rfl
  cases e with
  | atom mark => exact completes_atom mark
  | unary op operand =>
    exact (ih operand (by simp [Expr.parts])).bind fun v _ => completes_unary op v
  | binary left op right =>
    exact (ih left (by simp [Expr.parts])).bind fun a _ =>
      (ih right (by simp [Expr.parts])).bind fun b _ => completes_binary op left a b
  | logical op left right =>
    refine (ih left (by simp [Expr.parts])).bind fun v _ =>
      (completes_truth _ v _).bind fun a _ => ?_
    have rest : Completes calls k fun limits room => do
        return Value.bool (← truth (.logical op) (← right.eval limits room) left.line) :=
      (ih right (by simp [Expr.parts])).bind fun w _ =>
        (completes_truth _ w _).bind fun b _ => completes_pure _
    cases op <;> cases a
    · exact completes_pure _
    · exact rest
    · exact rest
    · exact completes_pure _
  | assign name value =>
    exact (ih value (by simp [Expr.parts])).bind fun v _ =>
      (completes_assign name.text v name.line).bind fun _ _ => completes_pure v
  | assignIndex collection place value =>
    exact (ih collection (by simp [Expr.parts])).bind fun c _ =>
      (ih place (by simp [Expr.parts])).bind fun i _ =>
        (ih value (by simp [Expr.parts])).bind fun v _ => completes_setElement collection c i v
  | assignField collection key value =>
    exact (ih collection (by simp [Expr.parts])).bind fun c _ =>
      (ih value (by simp [Expr.parts])).bind fun v _ => completes_setField collection key.text c v
  | choice condition yes no =>
    refine (ih condition (by simp [Expr.parts])).bind fun v _ =>
      (completes_truth _ v _).bind fun b _ => ?_
    cases b with
    | true => exact ih yes (by simp [Expr.parts])
    | false => exact ih no (by simp [Expr.parts])
  | call callee arguments =>
    refine ((ih callee (by simp [Expr.parts])).spare 2).bind fun f _ => ?_
    have args : Completes calls k fun limits room =>
        arguments.mapM fun a => a.eval limits (room + 1) :=
      .mapM fun a ha => (ih a (by simp [Expr.parts, ha])).spare 1
    exact args.bind fun vs _ => completes_callValue hbodies f vs callee.line
  | list line elements =>
    have values : Completes calls k fun limits room =>
        elements.mapM fun e => e.eval limits room := .mapM fun e he => ih e he
    exact values.bind fun vs _ => completes_allocate fun _ => rfl
  | record line entries =>
    have fields : Completes calls k fun limits room =>
        entries.mapM fun entry => do return (entry.1.text, ← entry.2.eval limits room) :=
      .mapM fun entry hentry =>
        (ih entry.2 (List.mem_map.mpr ⟨entry, hentry, rfl⟩)).bind fun v _ => completes_pure _
    exact fields.bind fun vs _ => completes_allocate fun _ => rfl
  | index collection place =>
    exact (ih collection (by simp [Expr.parts])).bind fun c _ =>
      (ih place (by simp [Expr.parts])).bind fun i _ => completes_element collection c i
  | field collection key =>
    exact (ih collection (by simp [Expr.parts])).bind fun c _ =>
      completes_field collection key.text c

/-- A statement finishes, if it is no `while` and its parts finish. -/
theorem completes_exec {s : Stmt} (hs : (Part.stmt s).Loopless)
    (ihe : ∀ e, Part.expr e ∈ (Part.stmt s).subparts →
      Completes calls k fun limits room => e.eval limits room)
    (ihs : ∀ s', Part.stmt s' ∈ (Part.stmt s).subparts →
      Completes calls k fun limits room => s'.exec limits room) :
    Completes calls k fun limits room => s.exec limits room := by
  refine Finishes.shift s.cost ?_ (fun limits room => Stmt.exec_of_lt_cost limits) fun _ _ => rfl
  cases s with
  | expression line value =>
    exact (ihe value (by simp [Part.subparts])).bind fun v _ => completes_pure _
  | print line value =>
    exact (ihe value (by simp [Part.subparts])).bind fun v _ =>
      (completes_writeLine [v]).bind fun _ _ => completes_pure _
  | make line name value =>
    cases value with
    | none =>
      exact (completes_pure Value.nil).bind fun v _ =>
        (completes_declare name.text v).bind fun _ _ => completes_pure _
    | some e =>
      exact (ihe e (by simp [Part.subparts])).bind fun v _ =>
        (completes_declare name.text v).bind fun _ _ => completes_pure _
  | block line body =>
    refine Finishes.get.bind fun m _ => completes_enclosed m.scope [] ?_
    exact .inTurn fun s hs => ihs s (by simpa [Part.subparts] using hs)
  | if_ line condition yes no =>
    refine (ihe condition (by simp [Part.subparts])).bind fun v _ =>
      (completes_truth _ v _).bind fun b _ => ?_
    cases b with
    | true => exact ihs yes (by simp [Part.subparts])
    | false =>
      cases no with
      | none => exact completes_pure _
      | some no => exact ihs no (by simp [Part.subparts])
  | while_ line condition body =>
    exact absurd (hs _ .refl) (by simp [Part.isWhile])
  | funk line name params bodyLine body =>
    refine Finishes.get.bind fun m _ => ?_
    have made : Completes calls k fun _ _ => allocate
        (·.addFunction ⟨name.text, params.map (·.text), body, m.scope⟩) :=
      completes_addFunction fun s' hs' =>
        (Part.loopless_iff.mp hs).2 (.stmt s') (List.mem_map.mpr ⟨s', hs', rfl⟩)
    exact made.bind fun f _ => (completes_declare name.text f).bind fun _ _ => completes_pure _
  | return_ line value =>
    cases value with
    | none => exact completes_pure _
    | some e => exact (ihe e (by simp [Part.subparts])).bind fun v _ => completes_pure _
  | with_ line value name body =>
    refine ((ihe value (by simp [Part.subparts])).spare 1).bind fun v _ =>
      Finishes.get.bind fun m _ => ?_
    exact completes_enclosed m.scope [(name.text, v)] (ihs body (by simp [Part.subparts]))
  | for_ line name items body =>
    refine ((ihe items (by simp [Part.subparts])).spare 1).bind fun v _ => ?_
    cases v with
    | iter i =>
      refine Finishes.get.bind fun m _ => .inTurn fun w _ => Finishes.get.bind fun m' _ => ?_
      exact completes_enclosed m'.scope [(name.text, w)] (ihs body (by simp [Part.subparts]))
    | _ => exact completes_fail rfl line

/-- A part of a program finishes. -/
def Part.Completes (calls k : Nat) : Part → Prop
  | expr e => FunkLang.Completes calls k fun limits room => e.eval limits room
  | stmt s => FunkLang.Completes calls k fun limits room => s.exec limits room

theorem completes_of_bodies (hbodies : BodiesComplete calls k) (p : Part) (h : p.Loopless) :
    p.Completes calls k := by
  induction p using Part.induction with
  | step p ih =>
    have sub : ∀ q ∈ p.subparts, q.Completes calls k := fun q hq =>
      ih q hq ((Part.loopless_iff.mp h).2 q hq)
    cases p with
    | expr e =>
      refine completes_eval hbodies fun part hpart => ?_
      exact sub (.expr part) (List.mem_map.mpr ⟨part, hpart, rfl⟩)
    | stmt s => exact completes_exec h (fun e he => sub (.expr e) he) fun s' hs' => sub (.stmt s') hs'

/-- Every part without a `while` finishes, by induction on how many more calls are allowed. -/
theorem Part.Loopless.completes {p : Part} (h : p.Loopless) (calls k : Nat) :
    p.Completes calls k := by
  generalize hfree : calls - k = free
  induction free generalizing k p with
  | zero => exact completes_of_bodies (fun hlt => by omega) p h
  | succ free ih => exact completes_of_bodies (fun _ s hs => ih hs (k + 1) (by omega)) p h

end Parts

/-! ## Programs -/

theorem completes_execTop (calls : Nat) {s : Stmt} (h : (Part.stmt s).Loopless) :
    Completes calls 0 fun limits room => s.execTop { limits with room } where
  yields limits room hcalls m hm := by
    have hs := (h.completes calls 0).yields { limits with room } room hcalls m hm
    unfold Stmt.execTop
    split <;> rename_i heq <;> rw [heq] at hs
    · exact ⟨trivial, hs.2⟩
    · simp
    · simp
    · exact hs
  settles m hm := by
    obtain ⟨enough, r, hr, founded⟩ := (h.completes calls 0).settles m hm
    refine ⟨enough, s.execTop ⟨calls, enough, 0⟩ m, fun limits room hcalls hroom => ?_, ?_⟩
    · unfold Stmt.execTop
      rw [hr { limits with room } room hcalls hroom,
        hr ⟨calls, enough, 0⟩ enough rfl (Nat.le_refl _)]
    · unfold Stmt.execTop
      rw [hr ⟨calls, enough, 0⟩ enough rfl (Nat.le_refl _)]
      split
      · trivial
      · exact fun hdeep => by cases hdeep
      · exact fun _ => founded rfl
      · exact founded

theorem completes_evaluate (calls : Nat) {program : List Stmt}
    (h : ∀ s ∈ program, (Part.stmt s).Loopless) :
    Completes calls 0 fun limits room => evaluate { limits with room } program :=
  Finishes.bind (Run.completes_note _) fun _ _ => .forM fun s hs => completes_execTop calls (h s hs)

/-- No function is declared yet. -/
theorem Machine.looplessAt_start (input : String) (clock : Nat) :
    (Machine.start input clock).LooplessAt 0 where
  depth := rfl
  bodies i s hs := by simp [Heap.function, Machine.start, Heap.empty, default] at hs

/-- A program without a `while` ends, whatever it reads and however often it calls itself. The
count of turns that a loop may take plays no part, and there is a room for nesting from which on
neither does the room: the program comes to its end or to a fault, and it is a fault for want of
room only if there is a list, an iter or a record that contains itself. -/
theorem programs_without_while_end (program : List Stmt)
    (loopless : ∀ s ∈ program, (Part.stmt s).Loopless) (input : String) (clock : Nat) :
    (∀ limits, (runOn limits (.start input clock) program).1 ≠ some .endless) ∧
      ∀ calls, ∃ enough outcome,
        (∀ limits, limits.calls = calls → enough ≤ limits.room →
          runOn limits (.start input clock) program = outcome) ∧
        (outcome.1 = none ∨ ∃ f, outcome.1 = some (.fault f) ∧
          (f.cause.isDeep = true → ∃ v : Value, v.ContainsItself outcome.2.heap)) := by
  have start := Machine.looplessAt_start input clock
  refine ⟨fun limits => ?_, fun calls => ?_⟩
  · have hyields := (completes_evaluate limits.calls loopless).yields limits limits.room rfl _ start
    unfold runOn
    split <;> rename_i heq
    · simp
    · rw [heq] at hyields
      rename_i stop m
      cases stop <;> simp [Stop.failure] at hyields ⊢
  · have hcompletes := completes_evaluate calls loopless
    obtain ⟨enough, r, hr, founded⟩ := hcompletes.settles _ start
    have hyields := hcompletes.yields ⟨calls, enough, 0⟩ enough rfl _ start
    rw [hr ⟨calls, enough, 0⟩ enough rfl (Nat.le_refl _)] at hyields
    have same : ∀ limits : Limits, limits.calls = calls → enough ≤ limits.room →
        evaluate limits program (.start input clock) = r := fun limits => hr limits limits.room
    cases r with
    | ok a m =>
      refine ⟨enough, (none, m), fun limits hcalls hroom => ?_, Or.inl rfl⟩
      unfold runOn
      rw [same limits hcalls hroom]
    | error stop m =>
      refine ⟨enough, (some stop.failure, m), fun limits hcalls hroom => ?_, Or.inr ?_⟩
      · unfold runOn
        rw [same limits hcalls hroom]
      · cases stop with
        | fault f => exact ⟨f, rfl, founded⟩
        | tooDeep => exact ⟨⟨.tooDeep, none⟩, rfl, fun _ => founded rfl⟩
        | endless => exact absurd rfl hyields

/-- A program that puts a list into itself and prints it. -/
def printingItself : List Stmt :=
  let xs := Expr.atom ⟨.name, "xs", 1⟩
  [.make 1 ⟨"xs", 1⟩ (some (.list 1 [])),
    .expression 1 (.call (.atom ⟨.name, "push", 1⟩) [xs, xs]),
    .print 1 xs]

/-- The printing of a list that contains itself ends. -/
theorem printing_itself_ends :
    (∀ limits, (runOn limits (.start "" 0) printingItself).1 ≠ some .endless) ∧
      ∀ calls, ∃ enough outcome,
        (∀ limits, limits.calls = calls → enough ≤ limits.room →
          runOn limits (.start "" 0) printingItself = outcome) ∧
        (outcome.1 = none ∨ ∃ f, outcome.1 = some (.fault f) ∧
          (f.cause.isDeep = true → ∃ v : Value, v.ContainsItself outcome.2.heap)) := by
  refine programs_without_while_end printingItself (fun s hs => ?_) "" 0
  refine Part.loopless_iff.mpr ?_
  simp only [printingItself, List.mem_cons, List.not_mem_nil, or_false] at hs
  rcases hs with rfl | rfl | rfl <;> simp [Part.isWhile, Part.subparts, Expr.loopless]

end FunkLang
