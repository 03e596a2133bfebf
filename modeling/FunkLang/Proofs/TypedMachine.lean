-- Machines that agree with a typing: every name of every scope is bound to a
-- value of its type, and the body of every function agrees with the typing as
-- well. No step of a run leaves such a machine for another.
import FunkLang.Proofs.Frame
import FunkLang.Proofs.TypedSteps
import FunkLang.Proofs.Visit

namespace FunkLang

/-! ## Bindings -/

namespace ScopeTree

variable {α : Type} {P : String → α → Prop} {t : ScopeTree α} {name : String} {value : α}

/-- Every binding of every scope is as `P` says. -/
def All (t : ScopeTree α) (P : String → α → Prop) : Prop :=
  ∀ s n v, (t.table s).get? n = some v → P n v

theorem All.declare (h : t.All P) (hvalue : P name value) (s : Nat) :
    (t.declare s name value).All P := by
  intro i n v hget
  rw [table_declare] at hget
  split at hget
  · rw [Table.get?_put] at hget
    split at hget
    · rename_i hn
      cases hget
      rw [hn]
      exact hvalue
    · exact h i n v hget
  · exact h i n v hget

theorem All.declareAll {bindings : List (String × α)} (h : t.All P)
    (hvalues : ∀ b ∈ bindings, P b.1 b.2) (s : Nat) : (t.declareAll s bindings).All P := by
  induction bindings generalizing t with
  | nil => exact h
  | cons b rest ih =>
    rw [List.forall_mem_cons] at hvalues
    exact ih (h.declare hvalues.1 s) hvalues.2

theorem All.declareGlobal (h : t.All P) (hvalue : P name value) (s : Nat) :
    (t.declareGlobal s name value).All P := by
  unfold ScopeTree.declareGlobal
  generalize t.chain s = chain
  induction chain generalizing t with
  | nil => exact h
  | cons i rest ih => exact ih (h.declare hvalue i)

theorem All.enclose (h : t.All P) (s : Nat) : (t.enclose s).1.All P := by
  intro i n v hget
  rw [table_enclose] at hget
  exact h i n v hget

theorem All.get (h : t.All P) {s : Nat} (hget : t.get? s name = some value) : P name value := by
  unfold ScopeTree.get? at hget
  obtain ⟨i, _, hi⟩ := List.exists_of_findSome?_eq_some hget
  exact h i name value hi

end ScopeTree

/-! ## Machines -/

/-- The parameters of a function are of unknown type, and its body agrees with the typing. -/
structure Closure.Typed (T : Typing) (f : Closure) : Prop where
  params : ∀ p ∈ f.params, T.binds p .unknown
  body : ∀ s ∈ f.body, T.fine s

/-- The values of all names fit their types, and all functions agree with the typing. -/
structure Machine.Typed (T : Typing) (m : Machine) : Prop where
  bindings : m.scopes.All fun n v => ∃ t, T.binds n t ∧ v.Fits t
  functions : ∀ i, (m.heap.function i).Typed T

namespace Machine.Typed

variable {T : Typing} {m m' : Machine}

theorem of_eq (h : m.Typed T) (hscopes : m'.scopes = m.scopes)
    (hfunctions : m'.heap.functions = m.heap.functions) : m'.Typed T := by
  refine ⟨?_, fun i => ?_⟩
  · rw [hscopes]
    exact h.bindings
  · rw [Heap.function_eq hfunctions]
    exact h.functions i

theorem of_same (h : m.Typed T) (hs : SameScopes m m') : m'.Typed T :=
  h.of_eq hs.scopes hs.functions

theorem declare (h : m.Typed T) {name : String} {v : Value} {t : Ty} (ht : T.binds name t)
    (hv : v.Fits t) (s : Nat) :
    ({ m with scopes := m.scopes.declare s name v } : Machine).Typed T :=
  ⟨h.bindings.declare ⟨t, ht, hv⟩ s, h.functions⟩

theorem enclose (h : m.Typed T) {bindings : List (String × Value)}
    (hvalues : ∀ b ∈ bindings, ∃ t, T.binds b.1 t ∧ b.2.Fits t) (parent : Nat) :
    (m.enclose parent bindings).Typed T :=
  ⟨(h.bindings.enclose parent).declareAll hvalues _, h.functions⟩

/-- The body of a called function starts on such a machine. -/
theorem called (h : m.Typed T) (i : Nat) {args : List Value} {line : Int} :
    (m.called (m.heap.function i) args line).Typed T := by
  have hvalues : ∀ b ∈ (m.heap.function i).params.zip args, ∃ t, T.binds b.1 t ∧ b.2.Fits t :=
    fun b hb => ⟨.unknown, (h.functions i).params b.1 (List.of_mem_zip hb).1, b.2.fits_unknown⟩
  have hnoted : ({ m with
      notes := m.notes.push
        (.called (m.heap.function i).name (m.heap.function i).params.length line)
      depth := m.depth + 1 } : Machine).Typed T := ⟨h.bindings, h.functions⟩
  exact hnoted.enclose hvalues (m.heap.function i).scope

theorem addFunction (h : m.Typed T) {f : Closure} (hf : f.Typed T) :
    ({ m with heap := (m.heap.addFunction f).2 } : Machine).Typed T := by
  refine ⟨h.bindings, fun i => ?_⟩
  change Closure.Typed T ((m.heap.addFunction f).2.function i)
  rw [Heap.function_addFunction]
  split
  · exact hf
  · exact h.functions i

theorem start (T : Typing) (input : String) (clock : Nat) :
    (Machine.start input clock).Typed T := by
  refine ⟨?_, fun i => ⟨nofun, nofun⟩⟩
  have declares : ∀ (bs : List Builtin) (t : ScopeTree Value),
      (t.All fun n v => ∃ t, T.binds n t ∧ v.Fits t) →
        (bs.foldl (fun t b => t.declareGlobal ScopeTree.rootScope b.name (.builtin b)) t).All
          fun n v => ∃ t, T.binds n t ∧ v.Fits t := by
    intro bs
    induction bs with
    | nil => exact fun t ht => ht
    | cons b rest ih =>
      exact fun t ht => ih _ (ht.declareGlobal ⟨.function, T.builtin b, Or.inr rfl⟩ _)
  refine declares Builtin.all .root fun s n v hget => ?_
  cases s with
  | zero => cases hget
  | succ s => cases hget

end Machine.Typed
end FunkLang
