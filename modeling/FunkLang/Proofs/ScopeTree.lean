-- What the operations on scopes do to each scope of the tree: to its own
-- names, and to the scope around it.
import FunkLang.Scope

namespace FunkLang

/-! ## Tables -/

theorem contains_eq_isSome {α : Type} (t : Table α) (name : String) :
    t.contains name = (t.get? name).isSome := rfl

@[simp] theorem contains_empty {α : Type} (name : String) :
    (Table.empty : Table α).contains name = false := rfl

theorem contains_put {α : Type} (t : Table α) (name x : String) (value : α) :
    (t.put name value).contains x = (decide (x = name) || t.contains x) := by
  unfold Table.contains
  rw [Table.get?_put]
  by_cases h : x = name
  · simp [h]
  · simp [h]

theorem contains_putAll {α : Type} {t : Table α} {entries : List (String × α)} {x : String} :
    (t.putAll entries).contains x = true ↔ t.contains x = true ∨ x ∈ entries.map Prod.fst := by
  induction entries generalizing t with
  | nil => simp [Table.putAll]
  | cons entry rest ih =>
    change ((t.put entry.1 entry.2).putAll rest).contains x = true ↔ _
    rw [ih, contains_put, List.map_cons, List.mem_cons]
    simp only [Bool.or_eq_true, decide_eq_true_eq]
    rw [or_assoc, or_left_comm]

namespace ScopeTree

variable {α : Type}

/-- How many scopes have been opened. -/
def size (t : ScopeTree α) : Nat := t.scopes.size

/-! ## Opening -/

@[simp] theorem size_enclose (t : ScopeTree α) (s : Nat) : (t.enclose s).1.size = t.size + 1 := by
  unfold size enclose
  simp

@[simp] theorem enclose_number (t : ScopeTree α) (s : Nat) : (t.enclose s).2 = t.size := rfl

/-- A fresh scope has no names, and no other scope changes. -/
@[simp] theorem table_enclose (t : ScopeTree α) (s i : Nat) :
    (t.enclose s).1.table i = t.table i := by
  unfold table enclose
  simp only [Array.getElem?_push]
  by_cases h : i = t.scopes.size
  · simp [h]
  · simp [h]

theorem parent?_enclose (t : ScopeTree α) (s i : Nat) :
    (t.enclose s).1.parent? i = if i = t.size then some s else t.parent? i := by
  unfold parent? enclose size
  simp only [Array.getElem?_push]
  by_cases h : i = t.scopes.size
  · simp [h]
  · simp [h]

theorem table_of_size_le {t : ScopeTree α} {i : Nat} (h : t.size ≤ i) : t.table i = .empty := by
  unfold table
  rw [Array.getElem?_eq_none h]

theorem parent?_of_size_le {t : ScopeTree α} {i : Nat} (h : t.size ≤ i) : t.parent? i = none := by
  unfold parent?
  rw [Array.getElem?_eq_none h]

/-! ## Declaring -/

@[simp] theorem size_declare (t : ScopeTree α) (s : Nat) (name : String) (value : α) :
    (t.declare s name value).size = t.size := by
  unfold size declare
  simp

theorem table_declare (t : ScopeTree α) (s : Nat) (name : String) (value : α) (i : Nat) :
    (t.declare s name value).table i =
      if i = s ∧ s < t.size then (t.table i).put name value else t.table i := by
  unfold table declare size
  simp only [Array.getElem?_modify]
  by_cases h : s = i
  · subst h
    by_cases hs : s < t.scopes.size
    · simp [hs]
    · simp [hs]
  · simp [h, Ne.symm h]

@[simp] theorem parent?_declare (t : ScopeTree α) (s : Nat) (name : String) (value : α) (i : Nat) :
    (t.declare s name value).parent? i = t.parent? i := by
  unfold parent? declare
  simp only [Array.getElem?_modify]
  by_cases h : s = i
  · subst h
    cases t.scopes[s]? <;> simp
  · simp [h]

theorem table_declare_of_ne {t : ScopeTree α} {s i : Nat} {name : String} {value : α}
    (h : i ≠ s) : (t.declare s name value).table i = t.table i := by
  rw [table_declare, if_neg (fun hi => h hi.1)]

theorem get?_table_declare {t : ScopeTree α} {s : Nat} {name : String} {value : α}
    (hs : s < t.size) (x : String) :
    ((t.declare s name value).table s).get? x =
      if x = name then some value else (t.table s).get? x := by
  rw [table_declare, if_pos ⟨rfl, hs⟩, Table.get?_put]

/-- A declaration binds its name, and no other name is bound or unbound anywhere. -/
theorem contains_table_declare {t : ScopeTree α} {s i : Nat} {name x : String} {value : α} :
    ((t.declare s name value).table i).contains x = true ↔
      (t.table i).contains x = true ∨ i = s ∧ s < t.size ∧ x = name := by
  rw [table_declare]
  by_cases h : i = s ∧ s < t.size
  · rw [if_pos h, contains_put]
    simp [h.1, h.2, or_comm]
  · rw [if_neg h]
    constructor
    · exact Or.inl
    · rintro (hx | ⟨hi, hs, _⟩)
      · exact hx
      · exact absurd ⟨hi, hs⟩ h

/-! ## Declaring one after the other -/

theorem declareAll_cons (t : ScopeTree α) (s : Nat) (name : String) (value : α)
    (rest : List (String × α)) :
    t.declareAll s ((name, value) :: rest) = (t.declare s name value).declareAll s rest := rfl

@[simp] theorem size_declareAll (t : ScopeTree α) (s : Nat) (bindings : List (String × α)) :
    (t.declareAll s bindings).size = t.size := by
  induction bindings generalizing t with
  | nil => rfl
  | cons binding rest ih => rw [declareAll_cons, ih, size_declare]

@[simp] theorem parent?_declareAll (t : ScopeTree α) (s : Nat) (bindings : List (String × α))
    (i : Nat) : (t.declareAll s bindings).parent? i = t.parent? i := by
  induction bindings generalizing t with
  | nil => rfl
  | cons binding rest ih => rw [declareAll_cons, ih, parent?_declare]

theorem contains_table_declareAll {t : ScopeTree α} {s i : Nat} {bindings : List (String × α)}
    {x : String} :
    ((t.declareAll s bindings).table i).contains x = true ↔
      (t.table i).contains x = true ∨ i = s ∧ s < t.size ∧ x ∈ bindings.map Prod.fst := by
  induction bindings generalizing t with
  | nil => simp [declareAll]
  | cons binding rest ih =>
    rw [declareAll_cons, ih, contains_table_declare, size_declare, List.map_cons, List.mem_cons]
    constructor
    · rintro ((h | h) | h) <;> simp [h]
    · rintro (h | ⟨hi, hs, hx | hx⟩)
      · exact Or.inl (Or.inl h)
      · exact Or.inl (Or.inr ⟨hi, hs, hx⟩)
      · exact Or.inr ⟨hi, hs, hx⟩

/-! ## Chains -/

/-- The scope around a scope was opened before it. -/
def Grounded (t : ScopeTree α) : Prop := ∀ s p, t.parent? s = some p → p < s

theorem enclose_grounded {t : ScopeTree α} (grounded : t.Grounded) {s : Nat} (hs : s < t.size) :
    (t.enclose s).1.Grounded := by
  intro i p hp
  rw [parent?_enclose] at hp
  split at hp
  · rename_i hi
    cases hp
    omega
  · exact grounded i p hp

theorem declare_grounded {t : ScopeTree α} (grounded : t.Grounded) (s : Nat) (name : String)
    (value : α) : (t.declare s name value).Grounded := by
  intro i p hp
  rw [parent?_declare] at hp
  exact grounded i p hp

/-- In a grounded tree a chain ends before its steps do. -/
theorem chainFrom_eq_chain {t : ScopeTree α} (grounded : t.Grounded) {steps s : Nat}
    (h : s < steps) : t.chainFrom steps s = t.chain s := by
  induction s using Nat.strongRecOn generalizing steps with
  | ind s ih =>
    cases steps with
    | zero => omega
    | succ steps =>
      unfold chain chainFrom
      cases hp : t.parent? s with
      | none => rfl
      | some p =>
        have hlt := grounded s p hp
        simp only
        rw [ih p hlt (by omega), ih p hlt hlt]

theorem chain_eq {t : ScopeTree α} (grounded : t.Grounded) (s : Nat) :
    t.chain s = s :: match t.parent? s with
      | some p => t.chain p
      | none => [] := by
  rw [chain, chainFrom]
  cases hp : t.parent? s with
  | none => rfl
  | some p =>
    simp only
    rw [chainFrom_eq_chain grounded (grounded s p hp)]

/-- The scopes of a chain go down: each was opened before the one inside it. -/
theorem le_of_mem_chain {t : ScopeTree α} (grounded : t.Grounded) {s i : Nat}
    (h : i ∈ t.chain s) : i ≤ s := by
  induction s using Nat.strongRecOn with
  | ind s ih =>
    rw [chain_eq grounded, List.mem_cons] at h
    rcases h with rfl | h
    · exact Nat.le_refl _
    · cases hp : t.parent? s with
      | none =>
        rw [hp] at h
        cases h
      | some p =>
        rw [hp] at h
        have hlt := grounded s p hp
        have hle := ih p hlt h
        omega

theorem chain_nodup {t : ScopeTree α} (grounded : t.Grounded) (s : Nat) : (t.chain s).Nodup := by
  induction s using Nat.strongRecOn with
  | ind s ih =>
    rw [chain_eq grounded]
    cases hp : t.parent? s with
    | none => simp
    | some p =>
      have hlt := grounded s p hp
      refine List.nodup_cons.mpr ⟨fun hmem => ?_, ih p hlt⟩
      have hle := le_of_mem_chain grounded hmem
      omega

/-- A chain depends only on the scopes around the scopes that were there. -/
theorem chain_congr {t t' : ScopeTree α} (grounded : t.Grounded) (grounded' : t'.Grounded)
    {s : Nat} (hs : s < t.size) (parents : ∀ i < t.size, t'.parent? i = t.parent? i) :
    t'.chain s = t.chain s := by
  induction s using Nat.strongRecOn with
  | ind s ih =>
    rw [chain_eq grounded, chain_eq grounded', parents s hs]
    cases hp : t.parent? s with
    | none => rfl
    | some p =>
      have hlt := grounded s p hp
      simp only
      rw [ih p hlt (by omega)]

/-- A name stands for something in a scope: it is bound there or in a scope around it. -/
def InSight (t : ScopeTree α) (s : Nat) (name : String) : Prop :=
  ∃ i ∈ t.chain s, (t.table i).contains name = true

theorem inSight_iff {t : ScopeTree α} (grounded : t.Grounded) {s : Nat} {name : String} :
    t.InSight s name ↔ (t.table s).contains name = true ∨
      ∃ p, t.parent? s = some p ∧ t.InSight p name := by
  unfold InSight
  rw [chain_eq grounded s]
  cases t.parent? s with
  | none => simp
  | some p => simp

/-- With more names, and with the same scopes around the scopes there are, what was in sight
stays in sight. -/
theorem InSight.mono {t t' : ScopeTree α} (grounded : t.Grounded) (grounded' : t'.Grounded)
    {s : Nat} {name : String} (hs : s < t.size)
    (parents : ∀ i < t.size, t'.parent? i = t.parent? i)
    (bound : ∀ i, (t.table i).contains name = true → (t'.table i).contains name = true)
    (h : t.InSight s name) : t'.InSight s name := by
  induction s using Nat.strongRecOn with
  | ind s ih =>
    rw [inSight_iff grounded']
    rcases (inSight_iff grounded).mp h with h | ⟨p, hp, h⟩
    · exact Or.inl (bound s h)
    · have hlt := grounded s p hp
      exact Or.inr ⟨p, (parents s hs).trans hp, ih p hlt (by omega) h⟩

/-! ## Finding -/

theorem get?_eq {t : ScopeTree α} (grounded : t.Grounded) (s : Nat) (name : String) :
    t.get? s name =
      ((t.table s).get? name).or ((t.parent? s).bind fun p => t.get? p name) := by
  unfold get?
  rw [chain_eq grounded s, List.findSome?_cons]
  cases (t.table s).get? name with
  | some v => rfl
  | none => cases t.parent? s <;> rfl

theorem home?_eq {t : ScopeTree α} (grounded : t.Grounded) (s : Nat) (name : String) :
    t.home? s name =
      if (t.table s).contains name then some s else (t.parent? s).bind fun p => t.home? p name := by
  unfold home?
  rw [chain_eq grounded s, List.find?_cons]
  cases (t.table s).contains name with
  | true => rfl
  | false => cases t.parent? s <;> rfl

/-- A name is found in a scope that has it. -/
theorem contains_of_home? {t : ScopeTree α} {s i : Nat} {name : String}
    (h : t.home? s name = some i) : (t.table i).contains name = true := by
  unfold home? at h
  rw [List.find?_eq_some_iff_append] at h
  exact h.1

theorem home?_isSome {t : ScopeTree α} {s : Nat} {name : String} :
    (t.home? s name).isSome = true ↔ t.InSight s name := by
  unfold home?
  rw [List.find?_isSome]
  rfl

theorem get?_isSome {t : ScopeTree α} {s : Nat} {name : String} :
    (t.get? s name).isSome = true ↔ t.InSight s name := by
  unfold get?
  rw [List.findSome?_isSome_iff]
  rfl

end ScopeTree
end FunkLang
