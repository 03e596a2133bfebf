-- Machines that follow a check. Scope by scope the names of a machine are
-- those of a context, and each stands for a value of the type that the context
-- has for it there. Assignments, declarations and scopes change both alike.
import FunkLang.Proofs.Frame
import FunkLang.Proofs.ItemByItem
import FunkLang.Proofs.Joins
import FunkLang.Proofs.TypedSteps

namespace FunkLang

/-! ## Tables -/

/-- The same names, and each value is of the type of its name. -/
def Table.Fits (values : Table Value) (types : Table Ty) : Prop :=
  ∀ name, Option.Rel Value.Fits (values.get? name) (types.get? name)

theorem Value.Fits.fade {v : Value} {t t' : Ty} (h : v.Fits t) (hfades : t.FadesTo t') :
    v.Fits t' := by
  rcases hfades with rfl | rfl
  · exact h
  · exact v.fits_unknown

namespace Table.Fits

variable {values : Table Value} {types types' : Table Ty}

theorem fade (h : values.Fits types) (hfades : types.FadesTo types') : values.Fits types' := by
  intro name
  have hvalue := h name
  have htype := hfades name
  generalize types.get? name = t at hvalue htype
  generalize values.get? name = v at hvalue ⊢
  generalize types'.get? name = t' at htype ⊢
  cases hvalue with
  | none =>
    cases htype with
    | none => exact .none
  | some hv =>
    cases htype with
    | some ht => exact .some (hv.fade ht)

theorem put (h : values.Fits types) (name : String) {v : Value} {t : Ty} (hv : v.Fits t) :
    (values.put name v).Fits (types.put name t) := by
  intro x
  rw [Table.get?_put, Table.get?_put]
  by_cases hx : x = name
  · rw [if_pos hx, if_pos hx]
    exact .some hv
  · rw [if_neg hx, if_neg hx]
    exact h x

theorem contains (h : values.Fits types) (name : String) :
    values.contains name = types.contains name := by
  rw [contains_eq_isSome, contains_eq_isSome]
  exact option_rel_isSome (h name)

end Table.Fits

/-! ## Machines -/

/-- Scope by scope the machine has the names of the context, with values of their types. No
function has been declared. -/
structure Machine.Follows (m : Machine) (c : Context) : Prop where
  grounded : m.scopes.Grounded
  inside : m.scope < m.opened
  tables : List.Forall₂ (fun s types => (m.scopes.table s).Fits types) (m.scopes.chain m.scope)
    c.scopes
  functions : m.heap.functions = #[]

namespace Machine.Follows

variable {m m' : Machine} {c c' : Context} {name : String} {v : Value} {t : Ty}

theorem fade (h : m.Follows c) (hfades : c.FadesTo c') : m.Follows c' :=
  ⟨h.grounded, h.inside,
    forall₂_trans (fun _ _ _ hfits htypes => hfits.fade htypes) h.tables hfades, h.functions⟩

theorem of_eq (h : m.Follows c) (hscopes : m'.scopes = m.scopes) (hscope : m'.scope = m.scope)
    (hfunctions : m'.heap.functions = m.heap.functions) : m'.Follows c := by
  refine ⟨?_, ?_, ?_, hfunctions.trans h.functions⟩
  · rw [hscopes]
    exact h.grounded
  · unfold Machine.opened
    rw [hscopes, hscope]
    exact h.inside
  · rw [hscopes, hscope]
    exact h.tables

theorem of_same (h : m.Follows c) (hs : SameScopes m m') : m'.Follows c :=
  h.of_eq hs.scopes hs.scope hs.functions

theorem lt_opened (h : m.Follows c) {s : Nat} (hs : s ∈ m.scopes.chain m.scope) :
    s < m.scopes.size :=
  Nat.lt_of_le_of_lt (ScopeTree.le_of_mem_chain h.grounded hs) h.inside

/-- Only the scopes of a context matter. -/
theorem of_scopes (h : m.Follows c) (hscopes : c'.scopes = c.scopes) : m.Follows c' := by
  refine ⟨h.grounded, h.inside, ?_, h.functions⟩
  rw [hscopes]
  exact h.tables

/-- Scopes that are opened later, and are not left open, change nothing. -/
theorem grown (h : m.Follows c) (hscope : m'.scope = m.scope) (hopened : m.opened ≤ m'.opened)
    (grounded : m'.scopes.Grounded)
    (parents : ∀ s < m.opened, m'.scopes.parent? s = m.scopes.parent? s)
    (htables : ∀ s < m.opened, m'.scopes.table s = m.scopes.table s)
    (hfunctions : m'.heap.functions = m.heap.functions) : m'.Follows c := by
  have hinside : m'.scope < m'.opened := by
    rw [hscope]
    exact Nat.lt_of_lt_of_le h.inside hopened
  refine ⟨grounded, hinside, ?_, hfunctions.trans h.functions⟩
  rw [hscope, ScopeTree.chain_congr h.grounded grounded h.inside parents]
  refine forall₂_imp_mem h.tables fun s hs types hfits => ?_
  rw [htables s (h.lt_opened hs)]
  exact hfits

/-- What a name stands for is of its type. -/
theorem get? (h : m.Follows c) (name : String) :
    Option.Rel Value.Fits (m.scopes.get? m.scope name) (c.get? name) :=
  rel_findSome? (h.tables.imp fun _ _ hfits => hfits name)

/-! ### Setting names -/

/-- A name is set in one scope of the chain. -/
theorem set (h : m.Follows c) {s : Nat} {types : List (Table Ty)}
    (htables : List.Forall₂
      (fun i types => ((m.scopes.declare s name v).table i).Fits types)
      (m.scopes.chain m.scope) types) :
    ({ m with scopes := m.scopes.declare s name v } : Machine).Follows
      { c with scopes := types } := by
  have grounded := ScopeTree.declare_grounded h.grounded s name v
  refine ⟨grounded, ?_, ?_, h.functions⟩
  · unfold Machine.opened
    rw [ScopeTree.size_declare]
    exact h.inside
  · change List.Forall₂ _ ((m.scopes.declare s name v).chain m.scope) types
    rw [ScopeTree.chain_congr h.grounded grounded h.inside fun i _ => ScopeTree.parent?_declare ..]
    exact htables

/-- A declaration in scopes that are none of these. -/
theorem untouched {scopes : ScopeTree Value} {ids : List Nat} {types : List (Table Ty)} {s : Nat}
    (h : List.Forall₂ (fun i types => (scopes.table i).Fits types) ids types) (hs : s ∉ ids) :
    List.Forall₂ (fun i types => ((scopes.declare s name v).table i).Fits types) ids types := by
  refine forall₂_imp_mem h fun i hi types hfits => ?_
  have hne : i ≠ s := fun heq => hs (heq ▸ hi)
  rw [ScopeTree.table_declare_of_ne hne]
  exact hfits

theorem declare (h : m.Follows c) (hv : v.Fits t) :
    ({ m with scopes := m.scopes.declare m.scope name v } : Machine).Follows
      (c.declare name t) := by
  have htables := h.tables
  have hnodup := ScopeTree.chain_nodup h.grounded m.scope
  apply h.set
  rw [ScopeTree.chain_eq h.grounded] at htables hnodup ⊢
  cases hscopes : c.scopes with
  | nil =>
    rw [hscopes] at htables
    cases htables
  | cons types rest =>
    rw [hscopes] at htables
    obtain ⟨hfits, hrest⟩ := List.forall₂_cons.mp htables
    refine .cons ?_ (untouched hrest (List.nodup_cons.mp hnodup).1)
    rw [ScopeTree.table_declare, if_pos ⟨rfl, h.inside⟩]
    exact hfits.put name hv

theorem setFirst {scopes : ScopeTree Value} {ids : List Nat} {types types' : List (Table Ty)}
    {home : Nat} (h : List.Forall₂ (fun i types => (scopes.table i).Fits types) ids types)
    (hnodup : ids.Nodup) (hsize : ∀ i ∈ ids, i < scopes.size)
    (hhome : ids.find? (fun i => (scopes.table i).contains name) = some home)
    (hset : Context.setFirst name t types = some types') (hv : v.Fits t) :
    List.Forall₂ (fun i types => ((scopes.declare home name v).table i).Fits types) ids types' := by
  induction h generalizing types' with
  | nil => cases hhome
  | @cons i s ids types hfits hrest ih =>
    obtain ⟨hnew, hnodup⟩ := List.nodup_cons.mp hnodup
    rw [List.forall_mem_cons] at hsize
    rw [List.find?_cons] at hhome
    unfold Context.setFirst at hset
    rw [← hfits.contains name] at hset
    cases hcontains : (scopes.table i).contains name with
    | true =>
      rw [hcontains] at hhome hset
      cases hhome
      cases hset
      refine .cons ?_ (untouched hrest hnew)
      rw [ScopeTree.table_declare, if_pos ⟨rfl, hsize.1⟩]
      exact hfits.put name hv
    | false =>
      rw [hcontains] at hhome hset
      obtain ⟨rest', hrest', rfl⟩ := Option.map_eq_some_iff.mp hset
      have hne : i ≠ home := fun heq => hnew (heq ▸ List.mem_of_find?_eq_some hhome)
      refine .cons ?_ (ih hnodup hsize.2 hhome hrest')
      rw [ScopeTree.table_declare_of_ne hne]
      exact hfits

theorem assign (h : m.Follows c) (hv : v.Fits t) (hassign : c.assign? name t = some c') {home : Nat}
    (hhome : m.scopes.home? m.scope name = some home) :
    ({ m with scopes := m.scopes.declare home name v } : Machine).Follows c' := by
  obtain ⟨types, htypes, rfl⟩ := Option.map_eq_some_iff.mp hassign
  have hnodup := ScopeTree.chain_nodup h.grounded m.scope
  exact h.set (setFirst h.tables hnodup (fun i hi => h.lt_opened hi) hhome htypes hv)

/-! ### Scopes of their own -/

theorem inner (h : m.Follows c) : (m.enclose m.scope []).Follows c.inner := by
  have grounded := ScopeTree.enclose_grounded h.grounded h.inside
  refine ⟨grounded, ?_, ?_, h.functions⟩
  · rw [Run.enclose_scope, Run.enclose_opened]
    exact Nat.lt_succ_self _
  · change List.Forall₂ (fun s types => ((m.scopes.enclose m.scope).1.table s).Fits types)
      ((m.scopes.enclose m.scope).1.chain m.scopes.size) (.empty :: c.scopes)
    have hparents : ∀ i < m.scopes.size,
        (m.scopes.enclose m.scope).1.parent? i = m.scopes.parent? i := by
      intro i hi
      rw [ScopeTree.parent?_enclose, if_neg (Nat.ne_of_lt hi)]
    rw [ScopeTree.chain_eq grounded, ScopeTree.parent?_enclose, if_pos rfl]
    simp only [ScopeTree.table_enclose]
    rw [ScopeTree.chain_congr h.grounded grounded h.inside hparents]
    refine .cons (fun name => ?_) h.tables
    rw [ScopeTree.table_of_size_le (Nat.le_refl _)]
    exact .none

theorem innerNamed (h : m.Follows c) (hv : v.Fits t) :
    (m.enclose m.scope [(name, v)]).Follows (c.inner.declare name t) := h.inner.declare hv

/-- Back in the scope around. -/
theorem back {n' : Machine} {added : List String} {bindings : List (String × Value)}
    (hinside : m.scope < m.opened) (hkept : Kept added (m.enclose m.scope bindings) n')
    (h : n'.Follows c) : ({ n' with scope := m.scope } : Machine).Follows c.outer := by
  have hscope : n'.scope = m.opened := hkept.scope
  have hopened := hkept.opened
  rw [Run.enclose_opened] at hopened
  have hparent : n'.scopes.parent? m.opened = some m.scope := by
    rw [hkept.parents m.opened (by rw [Run.enclose_opened]; omega), Run.enclose_parent?, if_pos rfl]
  have htables := h.tables
  rw [ScopeTree.chain_eq h.grounded, hscope, hparent] at htables
  refine ⟨h.grounded, ?_, List.forall₂_drop 1 htables, h.functions⟩
  change m.scope < n'.opened
  omega

/-! ### The start -/

/-- The built-in functions, declared one after the other in a scope with nothing around it. -/
theorem builtins_fit (bs : List Builtin) {scopes : ScopeTree Value} {types : Table Ty}
    (hroot : scopes.parent? 0 = none) (hsize : 0 < scopes.size)
    (h : (scopes.table 0).Fits types) :
    ((bs.foldl (fun t b => t.declareGlobal 0 b.name (.builtin b)) scopes).table 0).Fits
      (types.putAll (bs.map fun b => (b.name, .function))) := by
  induction bs generalizing scopes types with
  | nil => exact h
  | cons b rest ih =>
    have hglobal : scopes.declareGlobal 0 b.name (.builtin b) =
        scopes.declare 0 b.name (.builtin b) := by
      unfold ScopeTree.declareGlobal ScopeTree.chain ScopeTree.chainFrom
      rw [hroot]
      rfl
    rw [List.foldl_cons, hglobal]
    apply ih
    · rw [ScopeTree.parent?_declare]
      exact hroot
    · rw [ScopeTree.size_declare]
      exact hsize
    · rw [ScopeTree.table_declare, if_pos ⟨rfl, hsize⟩]
      exact h.put b.name (Or.inr rfl)

theorem builtins_chain : builtinScopes.chain ScopeTree.rootScope = [0] := by decide +kernel

theorem start (input : String) (clock : Nat) : (Machine.start input clock).Follows .start := by
  have hinside : ScopeTree.rootScope < builtinScopes.size := by decide +kernel
  have hempty : ((ScopeTree.root : ScopeTree Value).table 0).Fits .empty := fun _ => .none
  refine ⟨builtinScopes_grounded, hinside, ?_, rfl⟩
  change List.Forall₂ (fun s types => (builtinScopes.table s).Fits types)
    (builtinScopes.chain ScopeTree.rootScope) _
  rw [builtins_chain]
  refine .cons ?_ .nil
  exact builtins_fit Builtin.all rfl (by decide) hempty

end Machine.Follows

end FunkLang
