-- What is around a part of a program. The scopes around a scope are the same on all later machines,
-- and what a visit sees, its parts see, but for those that are in calls.
import FunkLang.Proofs.Moments

namespace FunkLang

/-! ## The scopes around a scope -/

namespace ScopeTree

variable {α : Type}

/-- More steps go at least as far up. -/
theorem chainFrom_mono {t : ScopeTree α} {steps more s i : Nat} (h : i ∈ t.chainFrom steps s)
    (hle : steps ≤ more) : i ∈ t.chainFrom more s := by
  induction steps generalizing more s with
  | zero => cases h
  | succ steps ih =>
    obtain ⟨more, rfl⟩ : ∃ k, more = k + 1 := ⟨more - 1, by omega⟩
    rw [chainFrom, List.mem_cons] at h ⊢
    refine h.imp_right fun h => ?_
    cases hp : t.parent? s with
    | none =>
      rw [hp] at h
      cases h
    | some p =>
      rw [hp] at h
      exact ih h (by omega)

/-- Of two scopes right inside a third one which is inside neither, no scope is inside both. -/
theorem not_inside_both {t : ScopeTree α} {a b p : Nat} (ha : t.parent? a = some p)
    (hb : t.parent? b = some p)
    (outside : ∀ steps, a ∉ t.chainFrom steps p ∧ b ∉ t.chainFrom steps p) (hne : a ≠ b)
    (steps s : Nat) : ¬ (a ∈ t.chainFrom steps s ∧ b ∈ t.chainFrom steps s) := by
  induction steps generalizing s with
  | zero => exact fun h => absurd h.1 List.not_mem_nil
  | succ steps ih =>
    rw [chainFrom, List.mem_cons, List.mem_cons]
    rintro ⟨rfl | hmema, rfl | hmemb⟩
    · exact hne rfl
    · rw [ha] at hmemb
      exact (outside steps).2 hmemb
    · rw [hb] at hmema
      exact (outside steps).1 hmema
    · cases hp : t.parent? s with
      | none =>
        rw [hp] at hmema
        cases hmema
      | some q =>
        rw [hp] at hmema hmemb
        exact ih q ⟨hmema, hmemb⟩

end ScopeTree

section Around

variable {m m1 : Machine} {s i : Nat}

theorem Ready.parent_lt {p : Nat} (ready : Ready Everything m) (hs : s < m.opened)
    (hp : m.scopes.parent? s = some p) : p < m.opened :=
  ((ready.isSealed.closed (.scope s) ⟨trivial, hs⟩).around p hp).2

/-- On a later machine there are the same scopes around a scope, and no others. -/
theorem Ready.chainFrom_eq (ready : Ready Everything m) (later : m.Precedes m1) (steps : Nat)
    (hs : s < m.opened) :
    m1.scopes.chainFrom steps s = m.scopes.chainFrom steps s := by
  induction steps generalizing s with
  | zero => rfl
  | succ steps ih =>
    rw [ScopeTree.chainFrom, ScopeTree.chainFrom, later.parents s hs]
    cases hp : m.scopes.parent? s with
    | none => rfl
    | some p => exact congrArg _ (ih (ready.parent_lt hs hp))

theorem Ready.chain_eq (ready : Ready Everything m) (later : m.Precedes m1) (hs : s < m.opened) :
    m1.scopes.chain s = m.scopes.chain s :=
  ready.chainFrom_eq later (s + 1) hs

theorem Ready.chainFrom_lt (ready : Ready Everything m) {steps : Nat} (hs : s < m.opened)
    (hi : i ∈ m.scopes.chainFrom steps s) : i < m.opened :=
  (ready.isSealed.chainFrom ⟨trivial, hs⟩ hi).2

end Around

/-! ## What a visit sees -/

/-- What runs in the second scope sees what is seen in the first one. -/
theorem Ready.mem_chain {m m1 : Machine} (ready : Ready Everything m) (later : m.Precedes m1)
    (near : m.Near m1) {s : Nat} (hs : s ∈ m.scopes.chain m.scope) :
    s ∈ m1.scopes.chain m1.scope := by
  have current : m.scope < m.opened := ready.current.2
  rw [← ready.chain_eq later current] at hs
  rcases near.scope with hscope | ⟨hfresh, -, hparent⟩
  · rwa [hscope]
  · rw [ScopeTree.chain, ScopeTree.chainFrom, hparent]
    exact List.mem_cons_of_mem _ (ScopeTree.chainFrom_mono hs (by omega))

/-- What a visit sees, its parts see, but for those that are in calls. -/
theorem Visit.sees_of_reaches {limits : Limits} {u v : Visit} (ready : Ready Everything v.machine)
    (hr : v.Reaches limits u) {s : Nat} (hs : s ∈ v.machine.scopes.chain v.machine.scope) :
    v.active ≤ u.active ∧
      (u.active = v.active → s ∈ u.machine.scopes.chain u.machine.scope) := by
  induction hr with
  | refl => exact ⟨Nat.le_refl _, fun _ => hs⟩
  | tail hr hu ih =>
    obtain ⟨hle, hsees⟩ := ih
    have ready' := ready_reaches ready hr
    rcases near_of_opens hu with ⟨hcalled, -, -⟩ | ⟨hactive, near⟩
    · exact ⟨by omega, fun h => by omega⟩
    · refine ⟨by omega, fun h => ?_⟩
      exact ready'.mem_chain (precedes_opens ready' hu) near (hsees (by omega))

end FunkLang
