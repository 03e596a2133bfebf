-- Loops over iters. A loop takes the elements of its iter as they are when it starts, and nothing
-- ever changes those of an iter. Its turns go through them in order, each in a fresh scope of its
-- own, so what is declared in one turn never sees the variable of another one.
import FunkLang.Proofs.ItemByItem
import FunkLang.Proofs.Surroundings

namespace FunkLang

/-! ## Turns -/

/-- How a run ends, the state aside. -/
def outcome {ε σ α : Type} : EStateM.Result ε σ α → Except ε α
  | .ok a _ => .ok a
  | .error e _ => .error e

/-- The visit that a loop opens for an item. -/
def turnVisit (k room : Nat) (name : String) (body : Stmt) (item : Value) (m : Machine) : Visit :=
  visitStmt k room body (m.enclose m.scope [(name, item)])

/-- A turn of a loop: the body runs in the newest scope, right inside that of the loop, where the
variable alone has a value. -/
structure Visit.IsTurn (k room : Nat) (name : String) (body : Stmt) (scope : Nat) (u : Visit)
    (item : Value) : Prop where
  body : u = visitStmt k room body u.machine
  names : (u.machine.scopes.table u.machine.scope).entries = [(name, item)]
  around : u.machine.scopes.parent? u.machine.scope = some scope
  newest : u.machine.opened = u.machine.scope + 1

/-- A visit starts later than at a machine, in a scope that is not there yet. -/
structure Visit.StartsFresh (m : Machine) (u : Visit) : Prop where
  later : m.Precedes u.machine
  fresh : m.opened ≤ u.machine.scope

/-- The turns of a loop, from a machine on. There is one for each item in order, until one of them
returns or stops. That one is the last, and the loop ends as it does. -/
structure GoesThrough (limits : Limits) (k room : Nat) (name : String) (body : Stmt)
    (items : List Value) (m : Machine) (r : EStateM.Result Stop Machine Flow)
    (turns : List Visit) : Prop where
  each : List.Forall₂ (Visit.IsTurn k room name body m.scope) turns (items.take turns.length)
  later : ∀ u ∈ turns, u.StartsFresh m
  ordered : turns.Pairwise fun a b => b.StartsFresh (a.after limits)
  ending : ∀ u ∈ turns, outcome (body.exec limits room u.machine) ≠ .ok .next →
    turns.getLast? = some u ∧ outcome r = outcome (body.exec limits room u.machine)
  whole : (∀ u ∈ turns, outcome (body.exec limits room u.machine) = .ok .next) →
    turns.length = items.length ∧ outcome r = .ok .next

section Turns

variable {limits : Limits} {k room : Nat} {name : String} {body : Stmt} {m : Machine} {u : Visit}

theorem isTurn_turnVisit (k room : Nat) (name : String) (body : Stmt) (item : Value) (m : Machine) :
    (turnVisit k room name body item m).IsTurn k room name body m.scope item where
  body := rfl
  names := by
    have hopened : m.scopes.size < (m.scopes.enclose m.scope).1.size := by
      rw [ScopeTree.size_enclose]
      exact Nat.lt_succ_self _
    change (((m.scopes.enclose m.scope).1.declare m.scopes.size name item).table
      m.scopes.size).entries = _
    rw [ScopeTree.table_declare, if_pos ⟨rfl, hopened⟩, ScopeTree.table_enclose,
      ScopeTree.table_of_size_le (Nat.le_refl _)]
    rfl
  around := by
    change (m.enclose m.scope _).scopes.parent? (m.enclose m.scope _).scope = _
    rw [Run.enclose_scope, Run.enclose_parent?, if_pos rfl]
  newest := Run.enclose_opened m m.scope _

theorem startsFresh_turnVisit {item : Value} : (turnVisit k room name body item m).StartsFresh m :=
  ⟨.enclose m m.scope _, Nat.le_refl _⟩

theorem Visit.StartsFresh.before {m1 : Machine} (h : u.StartsFresh m1) (later : m.Precedes m1) :
    u.StartsFresh m :=
  ⟨later.trans h.later, later.opened.trans h.fresh⟩

namespace GoesThrough

variable {items : List Value} {item : Value} {r : EStateM.Result Stop Machine Flow}
  {us : List Visit}

/-- A turn that returns or stops is the last one. -/
theorem last (hu : turnVisit k room name body item m = u)
    (hne : outcome (body.exec limits room u.machine) ≠ .ok .next)
    (hr : outcome r = outcome (body.exec limits room u.machine)) :
    GoesThrough limits k room name body (item :: items) m r [u] where
  each := .cons (hu ▸ isTurn_turnVisit k room name body item m) .nil
  later := List.forall_mem_singleton.mpr (hu ▸ startsFresh_turnVisit)
  ordered := List.pairwise_singleton _ _
  ending := List.forall_mem_singleton.mpr fun _ => ⟨rfl, hr⟩
  whole h := absurd (List.forall_mem_singleton.mp h) hne

/-- The other turns come after a turn that lets the loop go on. -/
theorem cons {m1 : Machine} (hu : turnVisit k room name body item m = u)
    (ready : Ready Everything u.machine)
    (hnext : outcome (body.exec limits room u.machine) = .ok .next)
    (moves : (u.after limits).Moves m1) (hscope : m1.scope = m.scope)
    (h : GoesThrough limits k room name body items m1 r us) :
    GoesThrough limits k room name body (item :: items) m r (u :: us) := by
  have hfresh : u.StartsFresh m := hu ▸ startsFresh_turnVisit
  have hlater : (u.after limits).Precedes m1 := .of_moves moves
  refine ⟨?_, ?_, ?_, ?_, ?_⟩
  · rw [List.length_cons, List.take_succ_cons]
    exact .cons (hu ▸ isTurn_turnVisit k room name body item m) (hscope ▸ h.each)
  · exact List.forall_mem_cons.mpr ⟨hfresh, fun v hv =>
      (h.later v hv).before ((hfresh.later.trans (Visit.precedes_after ready)).trans hlater)⟩
  · exact .cons (fun v hv => (h.later v hv).before hlater) h.ordered
  · refine List.forall_mem_cons.mpr ⟨fun hne => absurd hnext hne, fun v hv hne => ?_⟩
    obtain ⟨hlast, hr⟩ := h.ending v hv hne
    refine ⟨?_, hr⟩
    rw [List.getLast?_cons, hlast]
    rfl
  · intro hall
    obtain ⟨hlength, hr⟩ := h.whole (List.forall_mem_cons.mp hall).2
    exact ⟨congrArg (· + 1) hlength, hr⟩

end GoesThrough

end Turns

/-! ## What is declared in a turn -/

/-- A visit to a declaration makes a function that is not there before. -/
def Visit.Declares (limits : Limits) (u : Visit) (i : Nat) : Prop :=
  (∃ line name params bodyLine body, u.part = .stmt (.funk line name params bodyLine body)) ∧
    ¬ u.machine.Has (.function i) ∧ (u.after limits).Has (.function i)

/-- No scope is inside those of two turns. A function that a turn declares, outside of the calls
that it makes, is inside the scope of the turn and inside that of no other turn, at all later
moments of the session. -/
structure TurnsApart (limits : Limits) (turns : List Visit) : Prop where
  unshared : ∀ a ∈ turns, ∀ b ∈ turns, a ≠ b → ∀ m', Later limits a.machine m' →
    Later limits b.machine m' → ∀ s, ¬ (a.machine.scope ∈ m'.scopes.chain s ∧
      b.machine.scope ∈ m'.scopes.chain s)
  declared : ∀ a ∈ turns, ∀ u i, a.Reaches limits u → u.active = a.active → u.Declares limits i →
    ∀ m', Later limits (u.after limits) m' → m'.Has (.function i) ∧
      a.machine.scope ∈ m'.scopes.chain (m'.heap.function i).scope ∧
      ∀ b ∈ turns, b ≠ a → b.machine.scope ∉ m'.scopes.chain (m'.heap.function i).scope

section Apart

variable {limits : Limits} {k room : Nat} {name : String} {body : Stmt} {m m' : Machine}
  {a b u : Visit} {x y : Value}

/-- A function stands in the scope of its declaration. -/
theorem Visit.Declares.scope {i : Nat} (h : u.Declares limits i) :
    ((u.after limits).heap.function i).scope = u.machine.scope := by
  obtain ⟨⟨line, name, params, bodyLine, body, hpart⟩, hbefore, hafter⟩ := h
  obtain ⟨part, room, m, active⟩ := u
  dsimp only at hpart hbefore ⊢
  subst hpart
  match room with
  | 0 | 1 | 2 => exact absurd hafter hbefore
  | room + 3 =>
    have hi : i = m.heap.functions.size := by
      change i < (m.heap.functions.push _).size at hafter
      rw [Array.size_push] at hafter
      exact Nat.le_antisymm (Nat.le_of_lt_succ hafter) (Nat.not_lt.mp hbefore)
    change ((m.heap.addFunction ⟨name.text, params.map (·.text), body, m.scope⟩).2.function i).scope
      = m.scope
    rw [Heap.function_addFunction, if_pos hi]

/-- A function sees at all later moments what the visit sees that declares it. -/
theorem Visit.Declares.sees {i : Nat} (h : u.Declares limits i) (ready : Ready Everything u.machine)
    (later : (u.after limits).Precedes m') : m'.Has (.function i) ∧
      m'.scopes.chain (m'.heap.function i).scope = u.machine.scopes.chain u.machine.scope := by
  obtain ⟨hhas, hsame⟩ := later.fixed (.function i) trivial h.2.2
  refine ⟨hhas, ?_⟩
  rw [show m'.heap.function i = (u.after limits).heap.function i from hsame, h.scope]
  exact ready.chain_eq ((Visit.precedes_after ready).trans later) ready.current.2

namespace GoesThrough

variable {items : List Value} {r : EStateM.Result Stop Machine Flow} {turns : List Visit}

theorem isTurn (h : GoesThrough limits k room name body items m r turns) (hu : u ∈ turns) :
    ∃ x, u.IsTurn k room name body m.scope x := by
  obtain ⟨x, _, hx⟩ := exists_mem_of_forall₂ h.each hu
  exact ⟨x, hx⟩

/-- Of two turns one starts after the end of the other. -/
theorem in_order (h : GoesThrough limits k room name body items m r turns) (ha : a ∈ turns)
    (hb : b ∈ turns) (hne : a ≠ b) :
    b.StartsFresh (a.after limits) ∨ a.StartsFresh (b.after limits) := by
  have symm : Std.Symm fun a b : Visit =>
      b.StartsFresh (a.after limits) ∨ a.StartsFresh (b.after limits) := ⟨fun _ _ => Or.symm⟩
  have either : turns.Pairwise fun a b =>
      b.StartsFresh (a.after limits) ∨ a.StartsFresh (b.after limits) := h.ordered.imp Or.inl
  exact either.forall ha hb hne

theorem scope_lt (h : GoesThrough limits k room name body items m r turns) (ha : a ∈ turns)
    (fresh : b.StartsFresh (a.after limits)) : a.machine.scope < b.machine.scope := by
  obtain ⟨x, turn⟩ := h.isTurn ha
  have hopened := (kept_after limits a).opened
  rw [turn.newest] at hopened
  exact hopened.trans fresh.fresh

theorem scope_ne (h : GoesThrough limits k room name body items m r turns) (ha : a ∈ turns)
    (hb : b ∈ turns) (hne : a ≠ b) : a.machine.scope ≠ b.machine.scope := by
  rcases h.in_order ha hb hne with fresh | fresh
  · exact Nat.ne_of_lt (h.scope_lt ha fresh)
  · exact Nat.ne_of_gt (h.scope_lt hb fresh)

/-- The scope of a turn stays right inside that of the loop. -/
theorem parent_later (h : GoesThrough limits k room name body items m r turns) (hu : u ∈ turns)
    (later : u.machine.Precedes m') : m'.scopes.parent? u.machine.scope = some m.scope := by
  obtain ⟨x, turn⟩ := h.isTurn hu
  rw [later.parents _ (turn.newest ▸ Nat.lt_succ_self _)]
  exact turn.around

/-- The loop itself does not run inside the scope of a turn. -/
theorem not_around (h : GoesThrough limits k room name body items m r turns)
    (ready : Ready Everything m) (hu : u ∈ turns) (later : m.Precedes m') (steps : Nat) :
    u.machine.scope ∉ m'.scopes.chainFrom steps m.scope := by
  intro hmem
  rw [ready.chainFrom_eq later steps ready.current.2] at hmem
  exact Nat.not_lt.mpr (h.later u hu).fresh (ready.chainFrom_lt ready.current.2 hmem)

theorem not_inside_both (h : GoesThrough limits k room name body items m r turns)
    (ready : Ready Everything m) (ha : a ∈ turns) (hb : b ∈ turns) (hne : a ≠ b)
    (later : a.machine.Precedes m') (later' : b.machine.Precedes m') (s : Nat) :
    ¬ (a.machine.scope ∈ m'.scopes.chain s ∧ b.machine.scope ∈ m'.scopes.chain s) := by
  have start : m.Precedes m' := (h.later a ha).later.trans later
  exact ScopeTree.not_inside_both (h.parent_later ha later) (h.parent_later hb later')
    (fun steps => ⟨h.not_around ready ha start steps, h.not_around ready hb start steps⟩)
    (h.scope_ne ha hb hne) (s + 1) s

/-- What the code of a turn sees outside of calls is inside the scope of that turn alone. -/
theorem inside_one (h : GoesThrough limits k room name body items m r turns)
    (ready : Ready Everything m) (readies : ∀ u ∈ turns, Ready Everything u.machine)
    (ha : a ∈ turns) (hr : a.Reaches limits u) (hactive : u.active = a.active) :
    a.machine.scope ∈ u.machine.scopes.chain u.machine.scope ∧
      ∀ b ∈ turns, b ≠ a → b.machine.scope ∉ u.machine.scopes.chain u.machine.scope := by
  have ready' := Visit.ready_reaches (readies a ha) hr
  have inside : a.machine.scope ∈ u.machine.scopes.chain u.machine.scope :=
    (Visit.sees_of_reaches (readies a ha) hr List.mem_cons_self).2 hactive
  refine ⟨inside, fun b hb hne hmem => ?_⟩
  rcases h.in_order ha hb hne.symm with fresh | fresh
  · -- A later turn opens its scope when all that the visit sees is there already.
    have hlt : b.machine.scope < u.machine.opened := ready'.chainFrom_lt ready'.current.2 hmem
    have hle := ((Visit.precedes_after ready').trans
      (Visit.reaches_precedes (readies a ha) hr)).opened
    exact Nat.not_le.mpr hlt (hle.trans fresh.fresh)
  · have earlier : b.machine.Precedes a.machine :=
      (Visit.precedes_after (readies b hb)).trans fresh.later
    have hinto := Visit.precedes_reaches (readies a ha) hr
    exact h.not_inside_both ready ha hb hne.symm hinto (earlier.trans hinto) _ ⟨inside, hmem⟩

theorem apart (h : GoesThrough limits k room name body items m r turns) (ready : Ready Everything m)
    (readies : ∀ u ∈ turns, Ready Everything u.machine) : TurnsApart limits turns where
  unshared a ha b hb hne m' later later' :=
    h.not_inside_both ready ha hb hne later.precedes later'.precedes
  declared a ha u i hr hactive declares m' later := by
    obtain ⟨hhas, hchain⟩ :=
      declares.sees (Visit.ready_reaches (readies a ha) hr) later.precedes
    rw [hchain]
    exact ⟨hhas, h.inside_one ready readies ha hr hactive⟩

end GoesThrough

end Apart

end FunkLang
