-- Parts of parts, at any depth. A part is larger than those that stand in it,
-- so what passes from the parts of a part to the part itself holds of all.
import FunkLang.Proofs.DistinctNames

namespace FunkLang

/-! ## Sizes -/

theorem Expr.sizeOf_lt {e part : Expr} (h : part ∈ e.parts) : sizeOf part < sizeOf e := by
  cases e with
  | atom mark => cases h
  | call callee arguments =>
    rcases List.mem_cons.mp h with rfl | h
    · simp only [call.sizeOf_spec]
      omega
    · have hlt := List.sizeOf_lt_of_mem h
      simp only [call.sizeOf_spec]
      omega
  | list line elements =>
    have hlt := List.sizeOf_lt_of_mem (show part ∈ elements from h)
    simp only [list.sizeOf_spec]
    omega
  | record line entries =>
    obtain ⟨⟨key, value⟩, hentry, rfl⟩ := List.mem_map.mp h
    have hlt := List.sizeOf_lt_of_mem hentry
    simp only [record.sizeOf_spec, Prod.mk.sizeOf_spec] at hlt ⊢
    omega
  | unary | assign | field =>
    obtain rfl := List.mem_singleton.mp h
    simp only [unary.sizeOf_spec, assign.sizeOf_spec, field.sizeOf_spec]
    omega
  | binary | logical | assignField | index =>
    simp only [parts, List.mem_cons, List.not_mem_nil, or_false] at h
    rcases h with rfl | rfl <;> simp
    all_goals omega
  | assignIndex | choice =>
    simp only [parts, List.mem_cons, List.not_mem_nil, or_false] at h
    rcases h with rfl | rfl | rfl <;> simp <;> omega

namespace Part

theorem sizeOf_of_mem {s : Stmt} {body : List Stmt} (h : s ∈ body) :
    sizeOf (stmt s) < 2 + sizeOf body := by
  have hlt := List.sizeOf_lt_of_mem h
  simp only [stmt.sizeOf_spec]
  omega

theorem sizeOf_of_toList {e : Expr} {e? : Option Expr} (h : e ∈ e?.toList) :
    sizeOf (expr e) < 2 + sizeOf e? := by
  cases e? with
  | none => cases h
  | some e' =>
    obtain rfl := List.mem_singleton.mp h
    simp only [expr.sizeOf_spec, Option.some.sizeOf_spec]
    omega

theorem sizeOf_lt {p q : Part} (h : q ∈ p.subparts) : sizeOf q < sizeOf p := by
  cases p with
  | expr e =>
    obtain ⟨part, hpart, rfl⟩ := List.mem_map.mp h
    have hlt := Expr.sizeOf_lt hpart
    simp only [expr.sizeOf_spec]
    omega
  | stmt s =>
    cases s with
    | expression | print =>
      obtain rfl := List.mem_singleton.mp h
      simp only [expr.sizeOf_spec, stmt.sizeOf_spec, Stmt.expression.sizeOf_spec,
        Stmt.print.sizeOf_spec]
      omega
    | make line name value | return_ line value =>
      obtain ⟨e, he, rfl⟩ := List.mem_map.mp h
      have hlt := sizeOf_of_toList he
      simp at hlt ⊢
      omega
    | block line body | funk line name params bodyLine body =>
      obtain ⟨s, hs, rfl⟩ := List.mem_map.mp h
      have hlt := sizeOf_of_mem hs
      simp at hlt ⊢
      omega
    | if_ line condition yes no =>
      rcases List.mem_cons.mp h with rfl | h
      · simp
        omega
      · obtain ⟨s, hs, rfl⟩ := List.mem_map.mp h
        rcases List.mem_cons.mp hs with rfl | hs
        · simp
          omega
        · cases no with
          | none => cases hs
          | some no =>
            obtain rfl := List.mem_singleton.mp hs
            simp
            omega
    | while_ | with_ | for_ =>
      simp only [subparts, List.mem_cons, List.not_mem_nil, or_false] at h
      rcases h with rfl | rfl <;> simp
      all_goals omega

/-! ## Induction -/

/-- What holds of a part if it holds of the parts that stand directly in it, holds of every part. -/
theorem induction {law : Part → Prop} (step : ∀ p, (∀ q ∈ p.subparts, law q) → law p) (p : Part) :
    law p := by
  generalize hsize : sizeOf p = size
  induction size using Nat.strongRecOn generalizing p with
  | ind size ih =>
    refine step p fun q hq => ih (sizeOf q) ?_ q rfl
    rw [← hsize]
    exact sizeOf_lt hq

/-- A part stands in another one, directly or at any depth, or is that part. -/
def Contains : Part → Part → Prop := Relation.ReflTransGen fun p q => q ∈ p.subparts

/-- What holds of all that stands in a part holds of the part and of all that stands in its parts. -/
theorem forall_contains_iff {law : Part → Prop} {p : Part} :
    (∀ q, p.Contains q → law q) ↔ law p ∧ ∀ q ∈ p.subparts, ∀ r, q.Contains r → law r := by
  constructor
  · intro h
    exact ⟨h p .refl, fun q hq r hr => h r (hr.head hq)⟩
  · rintro ⟨hp, hsub⟩ q hq
    rcases hq.cases_head with rfl | ⟨r, hr, hrq⟩
    · exact hp
    · exact hsub r hr q hrq

end Part

/-- What holds of an expression if it holds of its parts, holds of every expression. -/
theorem Expr.parts_induction {law : Expr → Prop}
    (step : ∀ e, (∀ part ∈ e.parts, law part) → law e) (e : Expr) : law e := by
  generalize hsize : sizeOf e = size
  induction size using Nat.strongRecOn generalizing e with
  | ind size ih =>
    refine step e fun part hpart => ih (sizeOf part) ?_ part rfl
    rw [← hsize]
    exact sizeOf_lt hpart

/-! ## Formed statements -/

/-- A part that is as it has to be, if it is a statement. -/
def Part.Formed : Part → Prop
  | .expr _ => True
  | .stmt s => s.Formed

/-- What stands in a part that is as it has to be, is so too. -/
theorem Part.Formed.within {p q : Part} (h : p.Formed) (hq : p.Contains q) : q.Formed := by
  induction hq with
  | refl => exact h
  | @tail q r _ hr hformed =>
    cases q with
    | expr e =>
      obtain ⟨_, _, rfl⟩ := List.mem_map.mp hr
      trivial
    | stmt s =>
      cases hformed with
      | expression | print =>
        obtain rfl := List.mem_singleton.mp hr
        trivial
      | make | return_ =>
        obtain ⟨_, _, rfl⟩ := List.mem_map.mp hr
        trivial
      | block hbody | funk hbody =>
        obtain ⟨s, hs, rfl⟩ := List.mem_map.mp hr
        exact hbody s hs
      | if_ hyes _ hno _ =>
        rcases List.mem_cons.mp hr with rfl | hr
        · trivial
        · obtain ⟨s, hs, rfl⟩ := List.mem_map.mp hr
          rcases List.mem_cons.mp hs with rfl | hs
          · exact hyes
          · exact hno s (Option.mem_toList.mp hs)
      | while_ hbody | with_ hbody | for_ hbody =>
        rcases List.mem_cons.mp hr with rfl | hr
        · trivial
        · obtain rfl := List.mem_singleton.mp hr
          exact hbody

end FunkLang
