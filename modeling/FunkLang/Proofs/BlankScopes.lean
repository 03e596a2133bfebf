-- Expressions in a blank scope: a current scope without names, to which nothing leads. No part of
-- an expression declares a name where it stands, and a function that is called declares its own in
-- a scope inside that of its declaration. So the scope stays blank, and nothing comes to lead there.
import FunkLang.Proofs.Attained

namespace FunkLang

/-- All cells but one scope. -/
def AllBut (b : Nat) : Cell → Prop := fun c => c ≠ .scope b

/-- The current scope is `b`. It has no names, it stands in another scope, and nothing leads to
it. -/
structure BlankIn (b : Nat) (m : Machine) : Prop where
  here : m.scope = b
  isSealed : Sealed (AllBut b) m
  empty : m.scopes.table b = .empty
  around : ∃ p, m.scopes.parent? b = some p ∧ Inside (AllBut b) m (.scope p)

namespace BlankIn

variable {b : Nat} {m m1 : Machine}

/-- A name is found in a scope around the blank one, if at all. -/
theorem findsInside (h : BlankIn b m) : FindsInside (AllBut b) m := by
  refine ⟨h.isSealed, fun i hi name v hv => ?_⟩
  obtain ⟨p, hp, hinside⟩ := h.around
  rw [h.here, ScopeTree.chain, ScopeTree.chainFrom, hp, List.mem_cons] at hi
  rcases hi with rfl | hi
  · rw [h.empty] at hv
    cases hv
  · exact h.isSealed.chainFrom hinside hi

theorem frames (h : BlankIn b m) (hf : Frames (AllBut b) m m1) : BlankIn b m1 := by
  have hsame : m.SameIn m1 (.scope b) := hf.same _ fun hne => hne rfl
  obtain ⟨p, hp, hinside⟩ := h.around
  exact ⟨hf.scope.trans h.here, hf.isSealed, hsame.1.trans h.empty, p, hsame.2.trans hp,
    hinside.mono hf.grows⟩

/-- Nothing else stands in the blank scope. -/
theorem apart (h : BlankIn b m) (grounded : m.scopes.Grounded) :
    (∀ i, m.scopes.parent? i ≠ some b) ∧ ∀ i, (m.heap.function i).scope ≠ b := by
  obtain ⟨p, hp, _⟩ := h.around
  refine ⟨fun i hi => ?_, fun i => ?_⟩
  · have hne : i ≠ b := Nat.ne_of_gt (grounded i b hi)
    have hthere : i < m.opened := by
      refine Nat.lt_of_not_le fun hle => ?_
      rw [ScopeTree.parent?_of_size_le hle] at hi
      cases hi
    have leads := h.isSealed.closed (.scope i) ⟨fun heq => hne (Cell.scope.inj heq), hthere⟩
    exact (leads.around b hi).1 rfl
  · by_cases hthere : i < m.heap.functions.size
    · have leads := h.isSealed.closed (.function i) ⟨nofun, hthere⟩
      exact fun heq => (leads.around b heq).1 rfl
    · rw [Heap.function_of_size_le (Nat.le_of_not_lt hthere)]
      exact Nat.ne_of_lt (Nat.zero_lt_of_lt (grounded b p hp))

end BlankIn

/-- A fresh scope without names is blank. -/
theorem blankIn_enclose {m : Machine} (ready : Ready Everything m) :
    BlankIn m.opened (m.enclose m.scope []) := by
  have hopened : (m.enclose m.scope []).opened = m.opened + 1 := Run.enclose_opened m m.scope []
  have same (c : Cell) (hne : c ≠ .scope m.opened) : m.SameIn (m.enclose m.scope []) c := by
    cases c with
    | scope i =>
      have hi : i ≠ m.opened := fun heq => hne (congrArg Cell.scope heq)
      exact ⟨ScopeTree.table_enclose _ _ _, (Run.enclose_parent? m m.scope [] i).trans (if_neg hi)⟩
    | _ => rfl
  have before (c : Cell) (hne : c ≠ .scope m.opened) (hc : (m.enclose m.scope []).Has c) :
      m.Has c := by
    cases c with
    | scope i =>
      have hi : i ≠ m.opened := fun heq => hne (congrArg Cell.scope heq)
      have hlt : i < m.opened + 1 := lt_of_lt_of_eq hc hopened
      exact (Nat.lt_succ_iff_lt_or_eq.mp hlt).resolve_right hi
    | _ => exact hc
  have inside {c : Cell} (h : Inside Everything m c) :
      Inside (AllBut m.opened) (m.enclose m.scope []) c := by
    refine ⟨?_, (ready.isSealed.enclose ready.current (by simp)).grows c h.2⟩
    rintro rfl
    exact Nat.lt_irrefl _ h.2
  refine ⟨rfl, ⟨fun c ⟨hne, hc⟩ => ?_, fun c hc heq => hc ?_⟩, ?_, m.scope, ?_,
    inside ready.current⟩
  · have leads := ready.isSealed.closed c ⟨trivial, before c hne hc⟩
    refine ⟨fun v hv d hd => inside (leads.held v ((same c hne).holds.mp hv) d hd), fun p hp => ?_⟩
    exact inside (leads.around p ((same c hne).standsIn.mp hp))
  · rw [heq]
    exact lt_of_lt_of_eq (Nat.lt_succ_self m.opened) hopened.symm
  · exact (ScopeTree.table_enclose _ _ _).trans (ScopeTree.table_of_size_le (Nat.le_refl _))
  · exact (Run.enclose_parent? m m.scope [] m.opened).trans (if_pos rfl)

/-- An expression in a blank scope changes nothing there, and its value does not lead there. -/
theorem owns_blank (limits : Limits) (b room : Nat) (e : Expr) (m : Machine) (h : BlankIn b m) :
    Run.Owns (AllBut b) (e.eval limits room) m := by
  induction room using Nat.strongRecOn generalizing e m with
  | ind room ih =>
    exact owns_expr (fun _ h => h.findsInside) (fun _ _ h hf => h.frames hf) ih
      (fun r _ => (evaluation_owns limits (AllBut b)).2 r) e m h

end FunkLang
