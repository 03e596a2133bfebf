-- What a run visits. The evaluation of a part of the tree opens visits to
-- parts of that part, and a call opens visits to the statements of the body
-- of the called function. Each visit starts on the machine that the visits
-- before it have left.
import FunkLang.Eval
import FunkLang.Proofs.Outcome
import Mathlib.Logic.Relation

namespace FunkLang

/-! ## One thing after the other -/

section Sequences

variable {ε σ α β ν : Type}

/-- The visits that follow an answer. None follow an error. -/
def andThen (r : EStateM.Result ε σ α) (visits : α → σ → List ν) : List ν :=
  match r with
  | .ok a s => visits a s
  | .error _ _ => []

theorem mem_andThen {r : EStateM.Result ε σ α} {visits : α → σ → List ν} {v : ν} :
    v ∈ andThen r visits ↔ ∃ a s, r = .ok a s ∧ v ∈ visits a s := by
  cases r with
  | ok a s =>
    constructor
    · intro h
      exact ⟨a, s, rfl, h⟩
    · rintro ⟨_, _, h, hv⟩
      cases h
      exact hv
  | error e s => simp [andThen]

theorem mem_opened {r : EStateM.Result ε σ α} {first v : ν} {visits : α → σ → List ν} {a : α}
    {s : σ} (hr : r = .ok a s) (h : v ∈ visits a s) : v ∈ first :: andThen r visits :=
  List.mem_cons_of_mem _ (mem_andThen.mpr ⟨a, s, hr, h⟩)

/-- One visit for each item, as long as the items before it have answers. -/
def eachVisit (visit : α → σ → ν) (act : α → EStateM ε σ β) : List α → σ → List ν
  | [], _ => []
  | a :: rest, s => visit a s :: andThen (act a s) fun _ s => eachVisit visit act rest s

theorem eachVisit_map {γ : Type} (visit : β → σ → ν) (act : β → EStateM ε σ γ) (g : α → β)
    (items : List α) (s : σ) :
    eachVisit visit act (items.map g) s =
      eachVisit (fun a => visit (g a)) (fun a => act (g a)) items s := by
  induction items generalizing s with
  | nil => rfl
  | cons a rest ih =>
    rw [List.map_cons, eachVisit, eachVisit]
    congr 2
    funext b s
    exact ih s

/-- What holds of the state before each item holds at every visit. -/
theorem of_mem_eachVisit {visit : α → σ → ν} {act : α → EStateM ε σ β} {always : σ → Prop}
    {bad : ε → σ → Prop} {items : List α}
    (each : ∀ a ∈ items, ∀ s, always s → Ends (fun _ s => always s) bad (act a s)) {s : σ}
    (start : always s) {v : ν} (hv : v ∈ eachVisit visit act items s) :
    ∃ a ∈ items, ∃ s, always s ∧ v = visit a s := by
  induction items generalizing s with
  | nil => cases hv
  | cons a rest ih =>
    rw [eachVisit, List.mem_cons] at hv
    rcases hv with rfl | hv
    · exact ⟨a, List.mem_cons_self, s, start, rfl⟩
    · obtain ⟨b, s1, h1, hv⟩ := mem_andThen.mp hv
      have hs1 := each a List.mem_cons_self s start
      rw [h1, ends_ok] at hs1
      obtain ⟨a', ha', s', hs', rfl⟩ :=
        ih (fun a ha => each a (List.mem_cons_of_mem _ ha)) hs1 hv
      exact ⟨a', List.mem_cons_of_mem _ ha', s', hs', rfl⟩

end Sequences

/-! ## Visits -/

/-- A part of a program. -/
inductive Part
  | expr (e : Expr)
  | stmt (s : Stmt)

/-- A part of a program at work: the room that it has, the machine that it starts on, and
how many calls of declared functions are in progress around it. -/
structure Visit where
  part : Part
  room : Nat
  machine : Machine
  active : Nat

def visitExpr (active room : Nat) (e : Expr) (m : Machine) : Visit := ⟨.expr e, room, m, active⟩

def visitStmt (active room : Nat) (s : Stmt) (m : Machine) : Visit := ⟨.stmt s, room, m, active⟩

/-- One visit for each item, up to the first return. -/
def turnVisits {α : Type} (visit : α → Machine → Visit) (act : α → Run Flow) :
    List α → Machine → List Visit
  | [], _ => []
  | a :: rest, m => visit a m :: andThen (act a m) fun
    | .next, m => turnVisits visit act rest m
    | .returned _, _ => []

/-- The visits of a loop: the test, and the body as long as the test holds, up to the first
return. -/
def loopVisits (test : Machine → Visit) (holds : Run Bool) (body : Machine → Visit)
    (run : Run Flow) : (turns : Nat) → Machine → List Visit
  | 0, _ => []
  | turns + 1, m => test m :: andThen (holds m) fun
    | true, m => body m :: andThen (run m) fun
      | .next, m => loopVisits test holds body run turns m
      | .returned _, _ => []
    | false, _ => []

/-- What holds of the machine before each item holds at every visit. -/
theorem of_mem_turnVisits {α : Type} {visit : α → Machine → Visit} {act : α → Run Flow}
    {always : Machine → Prop} {bad : Stop → Machine → Prop} {items : List α}
    (each : ∀ a ∈ items, ∀ m, always m → Ends (fun _ m => always m) bad (act a m)) {m : Machine}
    (start : always m) {v : Visit} (hv : v ∈ turnVisits visit act items m) :
    ∃ a ∈ items, ∃ m, always m ∧ v = visit a m := by
  induction items generalizing m with
  | nil => cases hv
  | cons a rest ih =>
    rw [turnVisits, List.mem_cons] at hv
    rcases hv with rfl | hv
    · exact ⟨a, List.mem_cons_self, m, start, rfl⟩
    · obtain ⟨flow, m1, h1, hv⟩ := mem_andThen.mp hv
      have hm1 := each a List.mem_cons_self m start
      rw [h1, ends_ok] at hm1
      cases flow with
      | returned w => cases hv
      | next =>
        obtain ⟨a', ha', m', hm', rfl⟩ :=
          ih (fun a ha => each a (List.mem_cons_of_mem _ ha)) hm1 hv
        exact ⟨a', List.mem_cons_of_mem _ ha', m', hm', rfl⟩

/-- What holds of the machine before each test and each turn holds at every visit. -/
theorem of_mem_loopVisits {test body : Machine → Visit} {holds : Run Bool} {run : Run Flow}
    {always : Machine → Prop} {bad : Stop → Machine → Prop}
    (tested : ∀ m, always m → Ends (fun _ m => always m) bad (holds m))
    (turned : ∀ m, always m → Ends (fun _ m => always m) bad (run m)) {turns : Nat} {m : Machine}
    (start : always m) {v : Visit} (hv : v ∈ loopVisits test holds body run turns m) :
    ∃ m, always m ∧ (v = test m ∨ v = body m) := by
  induction turns generalizing m with
  | zero => cases hv
  | succ turns ih =>
    rw [loopVisits, List.mem_cons] at hv
    rcases hv with rfl | hv
    · exact ⟨m, start, Or.inl rfl⟩
    · obtain ⟨b, m1, h1, hv⟩ := mem_andThen.mp hv
      have hm1 := tested m start
      rw [h1, ends_ok] at hm1
      cases b with
      | false => cases hv
      | true =>
        rw [List.mem_cons] at hv
        rcases hv with rfl | hv
        · exact ⟨m1, hm1, Or.inr rfl⟩
        · obtain ⟨flow, m2, h2, hv⟩ := mem_andThen.mp hv
          have hm2 := turned m1 hm1
          rw [h2, ends_ok] at hm2
          cases flow with
          | next => exact ih hm2 hv
          | returned w => cases hv

/-- The machine on which the body of a called function starts. -/
def Machine.called (m : Machine) (closure : Closure) (args : List Value) (line : Int) : Machine :=
  { m with
    notes := m.notes.push (.called closure.name closure.params.length line)
    depth := m.depth + 1 }.enclose closure.scope (closure.params.zip args)

/-- The visits to the statements of a function, if its call is not refused. -/
def bodyVisits (limits : Limits) (active room : Nat) (callee : Value) (args : List Value)
    (line : Int) (m : Machine) : List Visit :=
  match callee with
  | .function i =>
    let closure := m.heap.function i
    if args.length = closure.params.length ∧ m.depth < limits.calls then
      turnVisits (visitStmt (active + 1) room) (fun s => s.exec limits room) closure.body
        (m.called closure args line)
    else []
  | _ => []

/-- The visits that a visit opens, in order. Only the body of a called function has one more
call in progress. -/
def Visit.opens (limits : Limits) (v : Visit) : List Visit :=
  let m := v.machine
  let k := v.active
  match v.part, v.room with
  | .expr (.unary _ operand), room + 3 => [visitExpr k room operand m]
  | .expr (.binary left _ right), room + 3 =>
    visitExpr k room left m :: andThen (left.eval limits room m) fun _ m =>
      [visitExpr k room right m]
  | .expr (.logical op left right), room + 3 =>
    visitExpr k room left m :: andThen (left.eval limits room m) fun a m =>
      if a = .bool (op == .and) then [visitExpr k room right m] else []
  | .expr (.assign _ value), room + 3 => [visitExpr k room value m]
  | .expr (.assignIndex collection place value), room + 3 =>
    eachVisit (visitExpr k room) (fun e => e.eval limits room) [collection, place, value] m
  | .expr (.assignField collection _ value), room + 3 =>
    eachVisit (visitExpr k room) (fun e => e.eval limits room) [collection, value] m
  | .expr (.choice condition yes no), room + 3 =>
    visitExpr k room condition m :: andThen (condition.eval limits room m) fun
      | .bool b, m => [visitExpr k room (if b then yes else no) m]
      | _, _ => []
  | .expr (.call callee arguments), room + 5 =>
    visitExpr k (room + 2) callee m :: andThen (callee.eval limits (room + 2) m) fun f m =>
      eachVisit (visitExpr k (room + 1)) (fun a => a.eval limits (room + 1)) arguments m ++
        andThen (arguments.mapM (fun a => a.eval limits (room + 1)) m) fun args m =>
          bodyVisits limits k room f args callee.line m
  | .expr (.list _ elements), room + 4 =>
    eachVisit (visitExpr k room) (fun e => e.eval limits room) elements m
  | .expr (.record _ entries), room + 3 =>
    eachVisit (visitExpr k room) (fun e => e.eval limits room) (entries.map (·.2)) m
  | .expr (.index collection place), room + 3 =>
    eachVisit (visitExpr k room) (fun e => e.eval limits room) [collection, place] m
  | .expr (.field collection _), room + 3 => [visitExpr k room collection m]
  | .stmt (.expression _ value), room + 3 => [visitExpr k room value m]
  | .stmt (.print _ value), room + 3 => [visitExpr k room value m]
  | .stmt (.make _ _ (some value)), room + 3 => [visitExpr k room value m]
  | .stmt (.block _ body), room + 4 =>
    turnVisits (visitStmt k room) (fun s => s.exec limits room) body (m.enclose m.scope [])
  | .stmt (.if_ _ condition yes no), room + 3 =>
    visitExpr k room condition m :: andThen (condition.eval limits room m) fun
      | .bool true, m => [visitStmt k room yes m]
      | .bool false, m => no.toList.map fun no => visitStmt k room no m
      | _, _ => []
  | .stmt (.while_ line condition body), room + 3 =>
    loopVisits (visitExpr k room condition)
      (do Run.truth .while_ (← condition.eval limits room) line)
      (visitStmt k room body) (body.exec limits room) limits.turns m
  | .stmt (.return_ _ (some value)), room + 3 => [visitExpr k room value m]
  | .stmt (.with_ _ value name body), room + 4 =>
    visitExpr k (room + 1) value m :: andThen (value.eval limits (room + 1) m) fun w m =>
      [visitStmt k room body (m.enclose m.scope [(name.text, w)])]
  | .stmt (.for_ _ name items body), room + 4 =>
    visitExpr k (room + 1) items m :: andThen (items.eval limits (room + 1) m) fun
      | .iter i, m =>
        turnVisits (fun w m => visitStmt k room body (m.enclose m.scope [(name.text, w)]))
          (fun w => do Run.enclosed (← get).scope [(name.text, w)] (body.exec limits room))
          (m.heap.iter i).toList m
      | _, _ => []
  | _, _ => []

/-- A visit and those that it opens, directly or through others. -/
def Visit.Reaches (limits : Limits) : Visit → Visit → Prop :=
  Relation.ReflTransGen fun v w => w ∈ v.opens limits

/-- The visits that a program opens on a machine: its statements, outside of all calls. -/
def topVisits (limits : Limits) (m : Machine) (program : List Stmt) : List Visit :=
  andThen (Run.note (.evaluating program.length) m) fun _ m =>
    eachVisit (visitStmt 0 limits.room) (Stmt.execTop limits) program m

/-- The visits of the run of a program on a machine. -/
def Visited (limits : Limits) (m : Machine) (program : List Stmt) (v : Visit) : Prop :=
  ∃ u ∈ topVisits limits m program, u.Reaches limits v

/-! ## How a visit ends -/

/-- The machine that a visit leaves, however it ends. -/
def Visit.after (limits : Limits) (v : Visit) : Machine :=
  match v.part with
  | .expr e => stateAfter (e.eval limits v.room v.machine)
  | .stmt s => stateAfter (s.exec limits v.room v.machine)

/-- Why a visit stopped early, if it did. -/
def Visit.stop? (limits : Limits) (v : Visit) : Option Stop :=
  match v.part with
  | .expr e => error? (e.eval limits v.room v.machine)
  | .stmt s => error? (s.exec limits v.room v.machine)

/-! ## Where a run stops -/

section Stops

variable {limits : Limits} {always : Machine → Prop} {α β γ : Type}

theorem stop?_visitExpr (k room : Nat) (e : Expr) (m : Machine) :
    (visitExpr k room e m).stop? limits = error? (e.eval limits room m) := rfl

theorem stop?_visitStmt (k room : Nat) (s : Stmt) (m : Machine) :
    (visitStmt k room s m).stop? limits = error? (s.exec limits room m) := rfl

/-- If one item after the other has its answer and the last one stops, the visit to that one
stops. -/
theorem ends_eachVisit {visit : α → Machine → Visit} {probe : α → Run γ} {act : α → Run β}
    {items : List α}
    (each : ∀ a ∈ items, ∀ m, always m →
      Ends (fun _ m' => always m' ∧ ∃ c, probe a m = .ok c m')
        (fun stop _ => (visit a m).stop? limits = some stop) (act a m))
    {m : Machine} (start : always m) :
    Ends (fun _ m' => always m')
      (fun stop _ => ∃ u ∈ eachVisit visit probe items m, u.stop? limits = some stop)
      (items.mapM act m) := by
  induction items generalizing m with
  | nil => exact start
  | cons a rest ih =>
    rw [List.mapM_cons, ends_bind]
    refine (each a List.mem_cons_self m start).imp (fun b m1 h1 => ?_) fun stop _ h => ?_
    · obtain ⟨hm1, c, hprobe⟩ := h1
      rw [ends_bind]
      refine (ih (fun a ha => each a (List.mem_cons_of_mem _ ha)) hm1).imp (fun _ _ h => h) ?_
      rintro stop _ ⟨u, hu, hstop⟩
      rw [eachVisit, hprobe]
      exact ⟨u, List.mem_cons_of_mem _ hu, hstop⟩
    · exact ⟨_, List.mem_cons_self, h⟩

theorem ends_turnVisits {visit : α → Machine → Visit} {act : α → Run Flow} {items : List α}
    (each : ∀ a ∈ items, ∀ m, always m →
      Ends (fun _ m' => always m') (fun stop _ => (visit a m).stop? limits = some stop) (act a m))
    {m : Machine} (start : always m) :
    Ends (fun _ m' => always m')
      (fun stop _ => ∃ u ∈ turnVisits visit act items m, u.stop? limits = some stop)
      (Run.inTurn act items m) := by
  induction items generalizing m with
  | nil => exact start
  | cons a rest ih =>
    unfold Run.inTurn
    rw [ends_bind]
    refine (each a List.mem_cons_self m start).imp_eq (fun flow m1 h1 hm1 => ?_) fun stop _ _ h => ?_
    · cases flow with
      | returned v => exact hm1
      | next =>
        refine (ih (fun a ha => each a (List.mem_cons_of_mem _ ha)) hm1).imp (fun _ _ h => h) ?_
        rintro stop _ ⟨u, hu, hstop⟩
        rw [turnVisits, h1]
        exact ⟨u, List.mem_cons_of_mem _ hu, hstop⟩
    · exact ⟨_, List.mem_cons_self, h⟩

/-- A loop stops where a visit stops, or for a reason of its own: the value of the test, or
impatience. -/
theorem ends_loopVisits {test body : Machine → Visit} {holds : Run Bool} {run : Run Flow}
    {own : Stop → Prop}
    (tested : ∀ m, always m → Ends (fun _ m' => always m')
      (fun stop _ => (test m).stop? limits = some stop ∨ own stop) (holds m))
    (turned : ∀ m, always m → Ends (fun _ m' => always m')
      (fun stop _ => (body m).stop? limits = some stop) (run m))
    (endless : own .endless) (turns : Nat) {m : Machine} (start : always m) :
    Ends (fun _ m' => always m')
      (fun stop _ => (∃ u ∈ loopVisits test holds body run turns m, u.stop? limits = some stop) ∨
        own stop)
      (Run.whileHolds holds run turns m) := by
  induction turns generalizing m with
  | zero => exact Or.inr endless
  | succ turns ih =>
    unfold Run.whileHolds
    rw [ends_bind]
    refine (tested m start).imp_eq (fun b m1 h1 hm1 => ?_) fun stop _ _ h => ?_
    · cases b with
      | false => exact hm1
      | true =>
        simp only [if_true]
        rw [ends_bind]
        refine (turned m1 hm1).imp_eq (fun flow m2 h2 hm2 => ?_) fun stop _ _ h => ?_
        · cases flow with
          | returned v => exact hm2
          | next =>
            refine (ih hm2).imp (fun _ _ h => h) fun stop _ h => h.imp_left ?_
            rintro ⟨u, hu, hstop⟩
            refine ⟨u, ?_, hstop⟩
            simp only [loopVisits, h1, h2, andThen, List.mem_cons]
            exact Or.inr (Or.inr hu)
        · refine Or.inl ⟨_, ?_, h⟩
          simp [loopVisits, h1, andThen]
    · exact h.imp_left fun h => ⟨_, by simp [loopVisits], h⟩

/-- A visit stops for a reason of its own, not for one of a visit that it opens. -/
def Visit.Raises (limits : Limits) (v : Visit) (stop : Stop) : Prop :=
  v.stop? limits = some stop ∧ ∀ u ∈ v.opens limits, u.stop? limits ≠ some stop

end Stops

/-! ## The room of a visit -/

section Room

variable {limits : Limits} {k room bound : Nat} {m : Machine} {u : Visit}

theorem room_lt_only {e : Expr} (hroom : room < bound) (hu : u ∈ [visitExpr k room e m]) :
    u.room < bound := by
  cases List.mem_singleton.mp hu
  exact hroom

theorem room_lt_first {e : Expr} {next : Value → Machine → List Visit} (hroom : room < bound)
    (hu : u ∈ visitExpr k room e m :: andThen (e.eval limits room m) next)
    (hnext : ∀ w m1, u ∈ next w m1 → u.room < bound) : u.room < bound := by
  rw [List.mem_cons, mem_andThen] at hu
  rcases hu with rfl | ⟨w, m1, _, hu⟩
  · exact hroom
  · exact hnext w m1 hu

theorem room_lt_each {items : List Expr} (hroom : room < bound)
    (hu : u ∈ eachVisit (visitExpr k room) (fun e => e.eval limits room) items m) :
    u.room < bound := by
  obtain ⟨e, _, m1, _, rfl⟩ := of_mem_eachVisit (fun _ _ _ _ => ends_trivial _) trivial hu
  exact hroom

theorem room_lt_turns {α : Type} {statement : α → Stmt} {enter : α → Machine → Machine}
    {act : α → Run Flow} {items : List α} (hroom : room < bound)
    (hu : u ∈ turnVisits (fun a m => visitStmt k room (statement a) (enter a m)) act items m) :
    u.room < bound := by
  obtain ⟨a, _, m1, _, rfl⟩ := of_mem_turnVisits (fun _ _ _ _ => ends_trivial _) trivial hu
  exact hroom

/-- A visit has more room than those that it opens. -/
theorem Visit.room_lt {v : Visit} (hu : u ∈ v.opens limits) : u.room < v.room := by
  obtain ⟨part, room, m, k⟩ := v
  unfold Visit.opens at hu
  dsimp only at hu ⊢
  split at hu
  case h_1 => exact room_lt_only (by omega) hu
  case h_2 => exact room_lt_first (by omega) hu fun w m1 hu => room_lt_only (by omega) hu
  case h_3 =>
    refine room_lt_first (by omega) hu fun w m1 hu => ?_
    split at hu
    · exact room_lt_only (by omega) hu
    · cases hu
  case h_4 => exact room_lt_only (by omega) hu
  case h_5 => exact room_lt_each (by omega) hu
  case h_6 => exact room_lt_each (by omega) hu
  case h_7 =>
    refine room_lt_first (by omega) hu fun w m1 hu => ?_
    split at hu
    · exact room_lt_only (by omega) hu
    · cases hu
  case h_8 =>
    refine room_lt_first (by omega) hu fun f m1 hu => ?_
    rw [List.mem_append, mem_andThen] at hu
    rcases hu with hu | ⟨args, m2, _, hu⟩
    · exact room_lt_each (by omega) hu
    · unfold bodyVisits at hu
      split at hu
      · dsimp only at hu
        split at hu
        · exact room_lt_turns (by omega) hu
        · cases hu
      · cases hu
  case h_9 => exact room_lt_each (by omega) hu
  case h_10 => exact room_lt_each (by omega) hu
  case h_11 => exact room_lt_each (by omega) hu
  case h_12 => exact room_lt_only (by omega) hu
  case h_13 => exact room_lt_only (by omega) hu
  case h_14 => exact room_lt_only (by omega) hu
  case h_15 => exact room_lt_only (by omega) hu
  case h_16 => exact room_lt_turns (by omega) hu
  case h_17 =>
    refine room_lt_first (by omega) hu fun w m1 hu => ?_
    split at hu
    · cases List.mem_singleton.mp hu
      simp only [visitStmt]
      omega
    · obtain ⟨no, _, rfl⟩ := List.mem_map.mp hu
      simp only [visitStmt]
      omega
    · cases hu
  case h_18 =>
    obtain ⟨m1, _, rfl | rfl⟩ :=
      of_mem_loopVisits (fun _ _ => ends_trivial _) (fun _ _ => ends_trivial _) trivial hu
    · simp only [visitExpr]
      omega
    · simp only [visitStmt]
      omega
  case h_19 => exact room_lt_only (by omega) hu
  case h_20 =>
    refine room_lt_first (by omega) hu fun w m1 hu => ?_
    cases List.mem_singleton.mp hu
    simp only [visitStmt]
    omega
  case h_21 =>
    refine room_lt_first (by omega) hu fun w m1 hu => ?_
    split at hu
    · exact room_lt_turns (by omega) hu
    · cases hu
  case h_22 => cases hu

/-- Where a visit stops, there is one in it that stops so for a reason of its own. -/
theorem exists_raises {v : Visit} {stop : Stop} (h : v.stop? limits = some stop) :
    ∃ u, v.Reaches limits u ∧ u.Raises limits stop := by
  generalize hroom : v.room = room
  induction room using Nat.strongRecOn generalizing v with
  | ind room ih =>
    by_cases hopened : ∃ u ∈ v.opens limits, u.stop? limits = some stop
    · obtain ⟨u, hu, hstop⟩ := hopened
      have hlt := Visit.room_lt hu
      obtain ⟨w, hw, raises⟩ := ih u.room (by omega) hstop rfl
      exact ⟨w, hw.head hu, raises⟩
    · exact ⟨v, .refl, h, fun u hu hstop => hopened ⟨u, hu, hstop⟩⟩

end Room

end FunkLang
