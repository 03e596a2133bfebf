-- Names that are introduced once. Where no name of a program is introduced
-- twice, a check finds one type for each.
import FunkLang.Proofs.CheckVisit
import FunkLang.Proofs.Names
import Mathlib.Data.List.Flatten
import Mathlib.Data.List.Nodup
import Mathlib.Data.List.Pairwise

namespace FunkLang

/-! ## Parts of parts -/

namespace Part

/-- The parts that stand directly in a part, in order. -/
def subparts : Part → List Part
  | expr e => e.parts.map expr
  | stmt (.expression _ value) | stmt (.print _ value) => [expr value]
  | stmt (.make _ _ value) | stmt (.return_ _ value) => value.toList.map expr
  | stmt (.block _ body) | stmt (.funk _ _ _ _ body) => body.map stmt
  | stmt (.if_ _ condition yes no) => expr condition :: (yes :: no.toList).map stmt
  | stmt (.while_ _ condition body) => [expr condition, stmt body]
  | stmt (.with_ _ value _ body) => [expr value, stmt body]
  | stmt (.for_ _ _ items body) => [expr items, stmt body]

/-- The variables that a part itself introduces. -/
def introduces : Part → List String
  | stmt (.make _ name _) | stmt (.with_ _ _ name _) | stmt (.for_ _ name _ _) => [name.text]
  | stmt (.funk _ _ params _ _) => params.map (·.text)
  | _ => []

/-- The names of all variables that are introduced in a part. -/
def locals : Part → List String
  | expr _ => []
  | stmt s => s.locals

/-- The names of all functions that are declared in a part. -/
def functions : Part → List String
  | expr _ => []
  | stmt s => s.functions

theorem locals_eq (p : Part) :
    p.locals = p.introduces ++ p.subparts.flatMap locals := by
  cases p with
  | expr e => simp [locals, introduces, subparts, List.flatMap_map]
  | stmt s =>
    cases s with
    | make line name value =>
      cases value <;> simp [locals, introduces, subparts, Stmt.locals]
    | if_ line condition yes no =>
      cases no <;> simp [locals, introduces, subparts, Stmt.locals]
    | return_ line value =>
      cases value <;> simp [locals, introduces, subparts, Stmt.locals]
    | block line body =>
      simp [locals, introduces, subparts, Stmt.locals, localsOfAll_eq, List.flatMap_map]
    | funk line name params bodyLine body =>
      simp [locals, introduces, subparts, Stmt.locals, localsOfAll_eq, List.flatMap_map]
    | _ => simp [locals, introduces, subparts, Stmt.locals]

theorem functions_subset {p q : Part} (h : q ∈ p.subparts) {n : String} (hn : n ∈ q.functions) :
    n ∈ p.functions := by
  have hmem : n ∈ p.subparts.flatMap functions := List.mem_flatMap.mpr ⟨q, h, hn⟩
  cases p with
  | expr e => simp [subparts, functions, List.flatMap_map] at hmem
  | stmt s =>
    cases s with
    | make line name value => cases value <;> simp [functions, subparts] at hmem
    | return_ line value => cases value <;> simp [functions, subparts] at hmem
    | if_ line condition yes no =>
      cases no <;> simpa [functions, subparts, Stmt.functions] using hmem
    | block line body =>
      simpa [functions, subparts, Stmt.functions, functionsOfAll_eq, List.flatMap_map] using hmem
    | funk line name params bodyLine body =>
      refine List.mem_cons_of_mem _ ?_
      simpa [functions, subparts, functionsOfAll_eq, List.flatMap_map] using hmem
    | expression line value => simp [functions, subparts] at hmem
    | print line value => simp [functions, subparts] at hmem
    | while_ line condition body => simpa [functions, subparts, Stmt.functions] using hmem
    | with_ line value name body => simpa [functions, subparts, Stmt.functions] using hmem
    | for_ line name items body => simpa [functions, subparts, Stmt.functions] using hmem

end Part

/-! ## The parts of a visit -/

theorem eachVisit_sublist {α β ν ε σ : Type} {visit : α → σ → ν} {act : α → EStateM ε σ β}
    {part : ν → Part} {part' : α → Part} (h : ∀ a s, part (visit a s) = part' a)
    (items : List α) (s : σ) :
    ((eachVisit visit act items s).map part).Sublist (items.map part') := by
  induction items generalizing s with
  | nil => exact List.Sublist.refl _
  | cons a rest ih =>
    rw [eachVisit, List.map_cons, List.map_cons, h]
    refine List.Sublist.cons_cons _ ?_
    cases act a s with
    | ok b s1 => exact ih s1
    | error e s1 => exact List.nil_sublist _

theorem exprs_sublist (room : Nat) (items : List Expr) (c : Context) :
    ((eachVisit (checkExpr room) (fun e => e.check room) items c).map (·.part)).Sublist
      (items.map Part.expr) := by
  have hpart : ∀ e c, (checkExpr room e c).part = .expr e := fun _ _ => rfl
  exact eachVisit_sublist hpart items c

theorem stmts_sublist (room : Nat) (items : List Stmt) (c : Context) :
    ((eachVisit (checkStmt room) (fun s => s.check room) items c).map (·.part)).Sublist
      (items.map Part.stmt) := by
  have hpart : ∀ s c, (checkStmt room s c).part = .stmt s := fun _ _ => rfl
  exact eachVisit_sublist hpart items c

/-- A part, and what follows if it passes. -/
theorem first_sublist {ε σ α : Type} {r : EStateM.Result ε σ α} {next : α → σ → List CheckVisit}
    {w : CheckVisit} {parts : List Part}
    (h : ∀ a s, ((next a s).map (·.part)).Sublist parts) :
    ((w :: andThen r next).map (·.part)).Sublist (w.part :: parts) := by
  refine List.Sublist.cons_cons _ ?_
  cases r with
  | ok a s => exact h a s
  | error e s => exact List.nil_sublist _

/-- A visit opens visits to the parts that stand directly in its own, each once. -/
theorem opens_sublist (w : CheckVisit) : (w.opens.map (·.part)).Sublist w.part.subparts := by
  obtain ⟨part, room, c⟩ := w
  unfold CheckVisit.opens
  dsimp only
  split
  case h_1 e room =>
    split
    · exact exprs_sublist _ _ _
    · exact List.nil_sublist _
  case h_2 => exact List.Sublist.refl _
  case h_3 => exact List.Sublist.refl _
  case h_4 => exact List.Sublist.refl _
  case h_5 => exact List.Sublist.refl _
  case h_6 => exact stmts_sublist _ _ _
  case h_7 => exact first_sublist fun _ _ => stmts_sublist _ _ _
  case h_8 => exact first_sublist fun _ _ => List.Sublist.refl _
  case h_9 => exact stmts_sublist _ _ _
  case h_10 => exact first_sublist fun _ _ => List.Sublist.refl _
  case h_11 => exact first_sublist fun _ _ => List.Sublist.refl _
  case h_12 => exact List.nil_sublist _

/-! ## Names that are introduced once -/

/-- The variables that a visit itself introduces, with the types that it finds for them. -/
def CheckVisit.binds (w : CheckVisit) : List (String × Ty) :=
  match w.part, w.room with
  | .stmt (.make _ name none), _ => [(name.text, .nil)]
  | .stmt (.make _ name (some value)), room + 3 =>
    andThen (value.check room w.context) fun t _ => [(name.text, t)]
  | .stmt (.funk _ _ params _ _), _ => params.map fun p => (p.text, .unknown)
  | .stmt (.with_ _ value name _), room + 5 =>
    andThen (value.check (room + 2) w.context) fun t _ => [(name.text, t)]
  | .stmt (.for_ _ name _ _), _ => [(name.text, .unknown)]
  | _, _ => []

theorem andThen_sublist {ε σ α : Type} (r : EStateM.Result ε σ α) (name : String) (t : α → Ty) :
    ((andThen r fun a _ => [(name, t a)]).map Prod.fst).Sublist [name] := by
  cases r with
  | ok a s => exact List.Sublist.refl _
  | error e s => exact List.nil_sublist _

theorem binds_sublist (w : CheckVisit) : (w.binds.map Prod.fst).Sublist w.part.introduces := by
  obtain ⟨part, room, c⟩ := w
  unfold CheckVisit.binds
  dsimp only
  split
  case h_1 => exact List.Sublist.refl _
  case h_2 => exact andThen_sublist _ _ _
  case h_3 line name params bodyLine body room =>
    rw [List.map_map]
    exact List.Sublist.refl _
  case h_4 => exact andThen_sublist _ _ _
  case h_5 => exact List.Sublist.refl _
  case h_6 => exact List.nil_sublist _

/-- The variables that a visit introduces are others than those introduced in the visits that it
opens, and each of these introduces others. -/
theorem distinct_opens {w : CheckVisit} (h : w.part.locals.Nodup) :
    (w.binds.map Prod.fst ++ w.opens.flatMap fun u => u.part.locals).Nodup := by
  rw [Part.locals_eq] at h
  refine h.sublist ((binds_sublist w).append ?_)
  have hparts := (opens_sublist w).flatMap Part.locals
  rwa [List.flatMap_map] at hparts

theorem locals_of_opens {w u : CheckVisit} (h : u ∈ w.opens) {n : String}
    (hn : n ∈ u.part.locals) : n ∈ w.part.locals := by
  rw [Part.locals_eq, List.mem_append, List.mem_flatMap]
  exact Or.inr ⟨u.part, (opens_sublist w).subset (List.mem_map.mpr ⟨u, h, rfl⟩), hn⟩

theorem locals_of_reaches {w u : CheckVisit} (h : w.Reaches u) {n : String}
    (hn : n ∈ u.part.locals) : n ∈ w.part.locals := by
  induction h with
  | refl => exact hn
  | tail _ hopens ih => exact ih (locals_of_opens hopens hn)

theorem mem_locals_of_binds {w : CheckVisit} {n : String} {t : Ty} (h : (n, t) ∈ w.binds) :
    n ∈ w.part.locals := by
  rw [Part.locals_eq, List.mem_append]
  exact Or.inl ((binds_sublist w).subset (List.mem_map.mpr ⟨(n, t), h, rfl⟩))

/-- Two elements of a list that have a name in common are the same, if all names are distinct. -/
theorem eq_of_common {α : Type} {names : α → List String} {items : List α}
    (distinct : (items.flatMap names).Nodup) {a b : α} (ha : a ∈ items) (hb : b ∈ items)
    {n : String} (hna : n ∈ names a) (hnb : n ∈ names b) : a = b := by
  by_contra hne
  have hpairwise := (List.nodup_flatMap.mp distinct).2
  have hsymm : Std.Symm (Function.onFun List.Disjoint names) := ⟨fun _ _ h _ hb ha => h ha hb⟩
  exact hpairwise.forall ha hb hne hna hnb

/-- A variable that is introduced once has one type. -/
theorem binds_unique {ws : List CheckVisit}
    (distinct : (ws.flatMap fun w => w.part.locals).Nodup) {w w' u u' : CheckVisit}
    (hw : w ∈ ws) (hw' : w' ∈ ws) (hu : w.Reaches u) (hu' : w'.Reaches u') {n : String}
    {t t' : Ty} (ht : (n, t) ∈ u.binds) (ht' : (n, t') ∈ u'.binds) : t = t' := by
  have hn' : n ∈ w'.part.locals := locals_of_reaches hu' (mem_locals_of_binds ht')
  induction hu using Relation.ReflTransGen.head_induction_on generalizing ws w' with
  | refl =>
    cases eq_of_common distinct hw hw' (mem_locals_of_binds ht) hn'
    have hown := distinct_opens ((List.nodup_flatMap.mp distinct).1 _ hw)
    rw [List.nodup_append] at hown
    rcases hu'.cases_head with rfl | ⟨child, hchild, hreach⟩
    · exact congrArg Prod.snd (List.inj_on_of_nodup_map hown.1 ht ht' rfl)
    · have hin := locals_of_reaches hreach (mem_locals_of_binds ht')
      exact absurd rfl (hown.2.2 n (List.mem_map.mpr ⟨_, ht, rfl⟩) n
        (List.mem_flatMap.mpr ⟨child, hchild, hin⟩))
  | @head w child hchild hreach ih =>
    have hin := locals_of_reaches hreach (mem_locals_of_binds ht)
    cases eq_of_common distinct hw hw' (locals_of_opens hchild hin) hn'
    have hown := distinct_opens ((List.nodup_flatMap.mp distinct).1 _ hw)
    rw [List.nodup_append] at hown
    rcases hu'.cases_head with rfl | ⟨child', hchild', hreach'⟩
    · exact absurd rfl (hown.2.2 n (List.mem_map.mpr ⟨_, ht', rfl⟩) n
        (List.mem_flatMap.mpr ⟨child, hchild, hin⟩))
    · exact ih hown.2.1 hchild hchild' hreach'
        (locals_of_reaches hreach' (mem_locals_of_binds ht'))

/-! ## The types of names -/

/-- No name is introduced twice, and none is that of a built-in function. -/
def DistinctNames (program : List Stmt) : Prop :=
  (functionsOfAll program ++ localsOfAll program).Nodup ∧
    ∀ n ∈ functionsOfAll program ++ localsOfAll program, Builtin.isName n = false

instance (program : List Stmt) : Decidable (DistinctNames program) :=
  inferInstanceAs (Decidable (_ ∧ _))

/-- The types that the check of a program finds for a name. -/
def Binds (room : Nat) (program : List Stmt) (name : String) (t : Ty) : Prop :=
  Builtin.isName name = true ∧ t = .function ∨
    name ∈ functionsOfAll program ∧ t = .function ∨
      ∃ w, Checked room program w ∧ (name, t) ∈ w.binds

section Names

variable {room : Nat} {program : List Stmt}

theorem part_mem_of_checkAll {body : List Stmt} {c : Context} {u : CheckVisit}
    (h : u ∈ checkAll room body c) : ∃ s ∈ body, u.part = .stmt s := by
  have hpart := (stmts_sublist room body (c.hoisting body)).subset
    (List.mem_map.mpr ⟨u, h, rfl⟩)
  obtain ⟨s, hs, heq⟩ := List.mem_map.mp hpart
  exact ⟨s, hs, heq.symm⟩

theorem Checked.locals {w : CheckVisit} (h : Checked room program w) {n : String}
    (hn : n ∈ w.part.locals) : n ∈ localsOfAll program := by
  obtain ⟨u, hu, hreach⟩ := h
  obtain ⟨s, hs, hpart⟩ := part_mem_of_checkAll hu
  have hn' := locals_of_reaches hreach hn
  rw [hpart] at hn'
  rw [localsOfAll_eq]
  exact List.mem_flatMap.mpr ⟨s, hs, hn'⟩

theorem Checked.functions {w : CheckVisit} (h : Checked room program w) {n : String}
    (hn : n ∈ w.part.functions) : n ∈ functionsOfAll program := by
  obtain ⟨u, hu, hreach⟩ := h
  obtain ⟨s, hs, hpart⟩ := part_mem_of_checkAll hu
  have hn' : n ∈ u.part.functions := by
    induction hreach with
    | refl => exact hn
    | tail _ hopens ih =>
      exact ih (Part.functions_subset
        ((opens_sublist _).subset (List.mem_map.mpr ⟨_, hopens, rfl⟩)) hn)
  rw [hpart] at hn'
  rw [functionsOfAll_eq]
  exact List.mem_flatMap.mpr ⟨s, hs, hn'⟩

/-- Each name has one type. -/
theorem Binds.unique (distinct : DistinctNames program) {n : String} {t t' : Ty}
    (h : Binds room program n t) (h' : Binds room program n t') : t = t' := by
  obtain ⟨hnodup, hbuiltin⟩ := distinct
  rw [List.nodup_append] at hnodup
  have islocal : ∀ w s, Checked room program w → (n, s) ∈ w.binds → n ∈ localsOfAll program :=
    fun w s hw hs => hw.locals (mem_locals_of_binds hs)
  have apart : n ∈ functionsOfAll program → n ∉ localsOfAll program := fun hf hl =>
    hnodup.2.2 n hf n hl rfl
  have plain : n ∈ localsOfAll program → Builtin.isName n = false := fun hl =>
    hbuiltin n (List.mem_append_right _ hl)
  rcases h with ⟨hb, rfl⟩ | ⟨hf, rfl⟩ | ⟨w, hw, ht⟩
  · rcases h' with ⟨_, rfl⟩ | ⟨_, rfl⟩ | ⟨w', hw', ht'⟩
    · rfl
    · rfl
    · rw [plain (islocal w' t' hw' ht')] at hb
      cases hb
  · rcases h' with ⟨_, rfl⟩ | ⟨_, rfl⟩ | ⟨w', hw', ht'⟩
    · rfl
    · rfl
    · exact absurd (islocal w' t' hw' ht') (apart hf)
  · have hl := islocal w t hw ht
    rcases h' with ⟨hb, rfl⟩ | ⟨hf, rfl⟩ | ⟨w', hw', ht'⟩
    · rw [plain hl] at hb
      cases hb
    · exact absurd hl (apart hf)
    · obtain ⟨u, hu, hreach⟩ := hw
      obtain ⟨u', hu', hreach'⟩ := hw'
      refine binds_unique ?_ hu hu' hreach hreach' ht ht'
      rw [localsOfAll_eq] at hnodup
      have hparts := (stmts_sublist room program (Context.start.hoisting program)).flatMap
        Part.locals
      rw [List.flatMap_map, List.flatMap_map] at hparts
      exact hnodup.2.1.sublist hparts

end Names

end FunkLang
