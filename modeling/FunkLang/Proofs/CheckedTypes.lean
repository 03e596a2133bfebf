-- The types that a check finds. Where no name is introduced twice and no
-- assignment changes a type, each name has one type throughout, and the types
-- of all expressions fit together under these.
import FunkLang.Proofs.DistinctNames
import FunkLang.Proofs.Typings

namespace FunkLang

/-! ## Contexts -/

/-- All types of a context are among those that `binds` allows for their names. -/
def Context.Within (c : Context) (binds : String → Ty → Prop) : Prop :=
  ∀ s ∈ c.scopes, ∀ n t, s.get? n = some t → binds n t

namespace Context.Within

variable {binds : String → Ty → Prop} {c c' : Context} {name : String} {t : Ty}

theorem of_scopes (h : c.Within binds) (hc : c'.scopes = c.scopes) : c'.Within binds := by
  unfold Context.Within
  rw [hc]
  exact h

theorem get (h : c.Within binds) (ht : c.get? name = some t) : binds name t := by
  unfold Context.get? at ht
  obtain ⟨s, hs, hget⟩ := List.exists_of_findSome?_eq_some ht
  exact h s hs name t hget

theorem put {s : Table Ty} (h : ∀ n t, s.get? n = some t → binds n t) (ht : binds name t)
    {n : String} {t' : Ty} (hget : (s.put name t).get? n = some t') : binds n t' := by
  rw [Table.get?_put] at hget
  split at hget
  · rename_i hn
    cases hget
    rw [hn]
    exact ht
  · exact h n t' hget

theorem declare (h : c.Within binds) (ht : binds name t) : (c.declare name t).Within binds := by
  obtain ⟨scopes, shadowed⟩ := c
  cases scopes with
  | nil => exact h
  | cons s rest =>
    intro s' hs' n t' hget
    rcases List.mem_cons.mp hs' with rfl | hs'
    · exact put (h s List.mem_cons_self) ht hget
    · exact h s' (List.mem_cons_of_mem _ hs') n t' hget

theorem declareAll {names : List String} (h : c.Within binds) (ht : ∀ n ∈ names, binds n t) :
    (c.declareAll names t).Within binds := by
  induction names generalizing c with
  | nil => exact h
  | cons n rest ih =>
    exact ih (h.declare (ht n List.mem_cons_self)) fun n hn => ht n (List.mem_cons_of_mem _ hn)

theorem inner (h : c.Within binds) : c.inner.Within binds := by
  intro s hs n t hget
  rcases List.mem_cons.mp hs with rfl | hs
  · cases hget
  · exact h s hs n t hget

theorem outer (h : c.Within binds) : c.outer.Within binds := fun s hs =>
  h s (List.mem_of_mem_drop hs)

theorem assign (h : c.Within binds) (ht : binds name t) (hassign : c.assign? name t = some c') :
    c'.Within binds := by
  obtain ⟨scopes, hscopes, rfl⟩ := Option.map_eq_some_iff.mp hassign
  intro s hs n t' hget
  rcases mem_setFirst hscopes hs with hs | ⟨s', hs', rfl⟩
  · exact h s hs n t' hget
  · exact put (h s' hs') ht hget

end Context.Within

theorem Builtin.isName_name (b : Builtin) : Builtin.isName b.name = true := by
  cases b <;> decide

theorem Context.start_within {binds : String → Ty → Prop}
    (h : ∀ b : Builtin, binds b.name .function) : Context.start.Within binds := by
  have puts : ∀ (bs : List Builtin) (s : Table Ty), (∀ n t, s.get? n = some t → binds n t) →
      ∀ n t, (s.putAll (bs.map fun b => (b.name, .function))).get? n = some t → binds n t := by
    intro bs
    induction bs with
    | nil => exact fun s hs => hs
    | cons b rest ih => exact fun s hs => ih _ fun n t => Within.put hs (h b)
  intro s hs n t hget
  rw [List.mem_singleton.mp hs] at hget
  exact puts Builtin.all .empty (by simp) n t hget

/-! ## Visits -/

/-- Every assignment to a variable stores, when the check visits it, exactly the type that the
variable has. -/
def SteadyAssignments (room : Nat) (program : List Stmt) : Prop :=
  ∀ k name value c t c', Checked room program (checkExpr (k + 3) (.assign name value) c) →
    value.check k c = .ok t c' → c'.get? name.text = some t

/-- The check of a visit passes. -/
def CheckVisit.Passes (w : CheckVisit) : Prop :=
  match w.part with
  | .expr e => ∃ t c', e.check w.room w.context = .ok t c'
  | .stmt s => ∃ c', s.check w.room w.context = .ok () c'

/-- A visit that passes, in a context of types that `binds` allows. -/
structure CheckVisit.Sound (binds : String → Ty → Prop) (w : CheckVisit) : Prop where
  within : w.context.Within binds
  passes : w.Passes

theorem innerRoom_lt {e : Expr} {room k : Nat} (h : e.innerRoom? room = some k) : k < room := by
  unfold Expr.innerRoom? at h
  split at h
  · cases h
    split
    · omega
    · omega
  · cases h
    omega
  · cases h
  · cases h
  · cases h
    omega
  · cases h

theorem innerRoom_assign {name : Name} {value : Expr} {room k : Nat}
    (h : (Expr.assign name value).innerRoom? room = some k) : room = k + 3 := by
  match room with
  | 0 | 1 | 2 => cases h
  | room + 3 =>
    cases h
    rfl

section Visits

variable {room : Nat} {program : List Stmt}

/-- What passes in turn leaves the types of names as they were allowed to be. -/
theorem chain_sound {k : Nat} {es : List Expr} {c c' : Context} {ts : List Ty}
    (each : ∀ e c t c', Checked room program (checkExpr k e c) →
      c.Within (Binds room program) → e.check k c = .ok t c' → c'.Within (Binds room program))
    (h : Chain k es c ts c')
    (visits : ∀ u ∈ eachVisit (checkExpr k) (fun e => e.check k) es c, Checked room program u)
    (hc : c.Within (Binds room program)) :
    c'.Within (Binds room program) ∧
      (∀ u ∈ eachVisit (checkExpr k) (fun e => e.check k) es c, u.Sound (Binds room program)) ∧
      List.Forall₂ (TypedAs room program) es ts := by
  induction h with
  | nil => exact ⟨hc, by simp [eachVisit], .nil⟩
  | @cons e rest c t c1 ts c' first others ih =>
    simp only [eachVisit, first, andThen, List.forall_mem_cons] at visits ⊢
    obtain ⟨hvisit, hvisits⟩ := visits
    obtain ⟨hc', hsound, htyped⟩ := ih hvisits (each e c t c1 hvisit hc first)
    exact ⟨hc', ⟨⟨hc, t, c1, first⟩, hsound⟩, .cons ⟨k, c, c1, hvisit, first⟩ htyped⟩

theorem stmtChain_sound {k : Nat} {body : List Stmt} {c c' : Context}
    (each : ∀ s c c', Checked room program (checkStmt k s c) →
      c.Within (Binds room program) → s.check k c = .ok () c' → c'.Within (Binds room program))
    (h : StmtChain k body c c')
    (visits : ∀ u ∈ eachVisit (checkStmt k) (fun s => s.check k) body c, Checked room program u)
    (hc : c.Within (Binds room program)) :
    c'.Within (Binds room program) ∧
      (∀ u ∈ eachVisit (checkStmt k) (fun s => s.check k) body c, u.Sound (Binds room program)) ∧
      ∀ s ∈ body, Passed room program s := by
  induction h with
  | nil => exact ⟨hc, by simp [eachVisit], by simp⟩
  | @cons s rest c c1 c' first others ih =>
    simp only [eachVisit, first, andThen, List.forall_mem_cons] at visits ⊢
    obtain ⟨hvisit, hvisits⟩ := visits
    obtain ⟨hc', hsound, hpassed⟩ := ih hvisits (each s c c1 hvisit hc first)
    exact ⟨hc', ⟨⟨hc, c1, first⟩, hsound⟩, ⟨k, c, c1, hvisit, first⟩, hpassed⟩

theorem expr_sound (steady : SteadyAssignments room program) (k : Nat) :
    ∀ e c t c', Checked room program (checkExpr k e c) → c.Within (Binds room program) →
      e.check k c = .ok t c' →
      c'.Within (Binds room program) ∧
        (∀ u ∈ (checkExpr k e c).opens, u.Sound (Binds room program)) ∧
        ∃ ts, List.Forall₂ (TypedAs room program) e.parts ts ∧ e.Rule (Binds room program) ts t := by
  induction k using Nat.strongRecOn with
  | ind k ih =>
    intro e c t c' checked hc h
    obtain ⟨k', ts, c1, hroom, hchain, hleaves, hrule⟩ := rule_of_check k e c t c' h
    have hopens : (checkExpr k e c).opens =
        eachVisit (checkExpr k') (fun e => e.check k') e.parts c := by
      unfold CheckVisit.opens checkExpr
      simp only [hroom]
    have hvisits := fun u (hu : u ∈ (checkExpr k e c).opens) => checked.opens hu
    rw [hopens] at hvisits ⊢
    have each := fun e c t c' hchecked hc h =>
      (ih k' (innerRoom_lt hroom) e c t c' hchecked hc h).1
    obtain ⟨hc1, hsound, htyped⟩ := chain_sound each hchain hvisits hc
    have hc' : c'.Within (Binds room program) := by
      cases e with
      | assign name value =>
        have hk := innerRoom_assign hroom
        subst hk
        cases hrule with
        | assign ht =>
          cases hchain with
          | cons first others =>
            cases others
            have hget := steady k' name value c t c1 checked first
            exact hc1.assign (hc1.get hget) hleaves
      | _ =>
        cases hleaves
        exact hc1
    exact ⟨hc', hsound, ts, htyped, hrule.imp fun n t => hc'.get⟩

/-- An expression that passes has its type, and keeps the types of names as they were allowed
to be. -/
theorem value_sound (steady : SteadyAssignments room program) {k : Nat} {e : Expr}
    {c c' : Context} {t : Ty} (checked : Checked room program (checkExpr k e c))
    (hc : c.Within (Binds room program)) (h : e.check k c = .ok t c') :
    c'.Within (Binds room program) ∧ (checkExpr k e c).Sound (Binds room program) ∧
      TypedAs room program e t :=
  ⟨(expr_sound steady k e c t c' checked hc h).1, ⟨hc, t, c', h⟩, k, c, c', checked, h⟩

theorem stmt_sound (steady : SteadyAssignments room program) (k : Nat) :
    ∀ s c c', Checked room program (checkStmt k s c) → c.Within (Binds room program) →
      s.check k c = .ok () c' →
      c'.Within (Binds room program) ∧
        (∀ u ∈ (checkStmt k s c).opens, u.Sound (Binds room program)) ∧
        s.Judged (Binds room program) (TypedAs room program) (Passed room program) := by
  induction k using Nat.strongRecOn with
  | ind k ih =>
    intro s c c' checked hc h
    have hvisits := fun u (hu : u ∈ (checkStmt k s c).opens) => checked.opens hu
    have hbinds : ∀ n t, (n, t) ∈ (checkStmt k s c).binds → Binds room program n t :=
      fun n t hn => Or.inr (Or.inr ⟨_, checked, hn⟩)
    have hfunctions : ∀ n ∈ s.functions, Binds room program n .function := fun n hn =>
      Or.inr (Or.inl ⟨checked.functions hn, rfl⟩)
    cases passes_of_check k s c c' h with
    | @expression k line value c t c' hvalue =>
      simp only [CheckVisit.opens, checkStmt, List.forall_mem_singleton] at hvisits ⊢
      obtain ⟨hc', hsound, htyped⟩ := value_sound steady hvisits hc hvalue
      exact ⟨hc', hsound, .expression htyped⟩
    | @print k line value c t c' hvalue =>
      simp only [CheckVisit.opens, checkStmt, List.forall_mem_singleton] at hvisits ⊢
      obtain ⟨hc', hsound, htyped⟩ := value_sound steady hvisits hc hvalue
      exact ⟨hc', hsound, .print htyped⟩
    | @make k line name c c' hc' =>
      have hname := hbinds name.text .nil (by simp [CheckVisit.binds, checkStmt])
      exact ⟨(hc.declare hname).of_scopes hc', by simp [CheckVisit.opens, checkStmt], .make hname⟩
    | @makeValue k line name value c t c1 c' hvalue hc' =>
      simp only [CheckVisit.opens, checkStmt, List.forall_mem_singleton] at hvisits ⊢
      obtain ⟨hc1, hsound, htyped⟩ := value_sound steady hvisits hc hvalue
      have hname := hbinds name.text t (by simp [CheckVisit.binds, checkStmt, hvalue, andThen])
      exact ⟨(hc1.declare hname).of_scopes hc', hsound, .makeValue htyped hname⟩
    | return_ => exact ⟨hc, by simp [CheckVisit.opens, checkStmt], .return_⟩
    | @returnValue k line value c t c' hvalue =>
      simp only [CheckVisit.opens, checkStmt, List.forall_mem_singleton] at hvisits ⊢
      obtain ⟨hc', hsound, htyped⟩ := value_sound steady hvisits hc hvalue
      exact ⟨hc', hsound, .returnValue htyped⟩
    | @block k line body c c' hbody =>
      have each := fun s c c' hchecked hc h => (ih k (by omega) s c c' hchecked hc h).1
      have hhoisting : (c.inner.hoisting body).Within (Binds room program) :=
        hc.inner.declareAll fun n hn => hfunctions n (functionNames_subset hn)
      obtain ⟨hc', hsound, hpassed⟩ := stmtChain_sound each hbody hvisits hhoisting
      exact ⟨hc'.outer, hsound, .block hpassed⟩
    | @if_ k line condition yes no c t c1 c' hcondition ht hbranches =>
      have each := fun s c c' hchecked hc h => (ih k (by omega) s c c' hchecked hc h).1
      simp only [CheckVisit.opens, checkStmt, hcondition, andThen, List.forall_mem_cons]
        at hvisits ⊢
      obtain ⟨hc1, hsound, htyped⟩ := value_sound steady hvisits.1 hc hcondition
      obtain ⟨hc', hsounds, hpassed⟩ := stmtChain_sound each hbranches hvisits.2 hc1
      exact ⟨hc', ⟨hsound, hsounds⟩, .if_ htyped ht hpassed⟩
    | @while_ k line condition body c t c1 c' hcondition ht hbody =>
      simp only [CheckVisit.opens, checkStmt, hcondition, andThen, List.forall_mem_cons]
        at hvisits ⊢
      obtain ⟨hc1, hsound, htyped⟩ := value_sound steady hvisits.1 hc hcondition
      have hchecked := hvisits.2.1
      obtain ⟨hc', _, _⟩ := ih k (by omega) body c1 c' hchecked hc1 hbody
      exact ⟨hc', ⟨hsound, ⟨hc1, c', hbody⟩, by simp⟩,
        .while_ htyped ht ⟨k, c1, c', hchecked, hbody⟩⟩
    | @funk k line name params bodyLine body c c' hbody =>
      have each := fun s c c' hchecked hc h => (ih k (by omega) s c c' hchecked hc h).1
      have hname : Binds room program name.text .function :=
        hfunctions _ List.mem_cons_self
      have hparams : ∀ p ∈ params, Binds room program p.text .unknown := fun p hp =>
        hbinds _ _ (List.mem_map.mpr ⟨p, hp, rfl⟩)
      have hinner : (((c.declare name.text .function).inner).declareAll (params.map (·.text))
          .unknown).Within (Binds room program) := by
        refine (hc.declare hname).inner.declareAll fun n hn => ?_
        obtain ⟨p, hp, rfl⟩ := List.mem_map.mp hn
        exact hparams p hp
      have hhoisting := hinner.declareAll fun n (hn : n ∈ functionNames body) =>
        hfunctions n (List.mem_cons_of_mem _ (functionNames_subset hn))
      obtain ⟨hc', hsound, hpassed⟩ := stmtChain_sound each hbody hvisits hhoisting
      exact ⟨hc'.outer, hsound, .funk hname hparams hpassed⟩
    | @with_ k line value name body c t c1 c' hvalue hbody =>
      simp only [CheckVisit.opens, checkStmt, hvalue, andThen, List.forall_mem_cons]
        at hvisits ⊢
      obtain ⟨hc1, hsound, htyped⟩ := value_sound steady hvisits.1 hc hvalue
      have hname := hbinds name.text t (by simp [CheckVisit.binds, checkStmt, hvalue, andThen])
      have hinner := hc1.inner.declare hname
      have hchecked := hvisits.2.1
      obtain ⟨hc', _, _⟩ := ih k (by omega) body _ c' hchecked hinner hbody
      exact ⟨hc'.outer, ⟨hsound, ⟨hinner, c', hbody⟩, by simp⟩,
        .with_ htyped hname ⟨k, _, c', hchecked, hbody⟩⟩
    | @for_ k line name items body c c1 c' hitems hbody =>
      simp only [CheckVisit.opens, checkStmt, hitems, andThen, List.forall_mem_cons]
        at hvisits ⊢
      obtain ⟨hc1, hsound, htyped⟩ := value_sound steady hvisits.1 hc hitems
      have hname := hbinds name.text .unknown (by simp [CheckVisit.binds, checkStmt])
      have hinner := hc1.inner.declare hname
      have hchecked := hvisits.2.1
      obtain ⟨hc', _, _⟩ := ih k (by omega) body _ c' hchecked hinner hbody
      exact ⟨hc'.outer, ⟨hsound, ⟨hinner, c', hbody⟩, by simp⟩,
        .for_ htyped hname ⟨k, _, c', hchecked, hbody⟩⟩

/-- The statements of a program that passes all pass, in contexts of the types that the whole
check finds. -/
theorem program_sound (steady : SteadyAssignments room program) {c : Context}
    (accepted : checkProgram room program .start = .ok () c) :
    (∀ u ∈ checkAll room program .start, u.Sound (Binds room program)) ∧
      ∀ s ∈ program, Passed room program s := by
  have hstart : Context.start.Within (Binds room program) :=
    Context.start_within fun b => Or.inl ⟨b.isName_name, rfl⟩
  have hhoisting := hstart.declareAll fun n (hn : n ∈ functionNames program) =>
    Or.inr (Or.inl ⟨functionNames_subset hn, rfl⟩)
  have each := fun s c c' hchecked hc h => (stmt_sound steady room s c c' hchecked hc h).1
  have hvisits : ∀ v ∈ checkAll room program .start, Checked room program v :=
    fun v hv => ⟨v, hv, .refl⟩
  exact (stmtChain_sound each (stmtChain_of_list accepted) hvisits hhoisting).2

/-- In a program that passes, every part passes, in a context of such types. -/
theorem sound_of_checked (steady : SteadyAssignments room program) {c : Context}
    (accepted : checkProgram room program .start = .ok () c) {w : CheckVisit}
    (h : Checked room program w) : w.Sound (Binds room program) := by
  obtain ⟨u, hu, hreach⟩ := h
  induction hreach with
  | refl => exact (program_sound steady accepted).1 u hu
  | @tail w v hw hopens ih =>
    have checked : Checked room program w := ⟨u, hu, hw⟩
    obtain ⟨part, k, c⟩ := w
    cases part with
    | expr e =>
      obtain ⟨t, c', h⟩ := ih.passes
      exact (expr_sound steady k e c t c' checked ih.within h).2.1 v hopens
    | stmt s =>
      obtain ⟨c', h⟩ := ih.passes
      exact (stmt_sound steady k s c c' checked ih.within h).2.1 v hopens

/-- The types that the check of a program finds, where no name is introduced twice and no
assignment changes a type. -/
def Typing.ofProgram {c : Context} (accepted : checkProgram room program .start = .ok () c)
    (distinct : DistinctNames program) (steady : SteadyAssignments room program) : Typing where
  binds := Binds room program
  typed := TypedAs room program
  fine := Passed room program
  unique := Binds.unique distinct
  builtin b := Or.inl ⟨Builtin.isName_name b, rfl⟩
  rule := by
    rintro e t ⟨k, c, c', checked, h⟩
    have sound := sound_of_checked steady accepted checked
    exact (expr_sound steady k e c t c' checked sound.within h).2.2
  judged := by
    rintro s ⟨k, c, c', checked, h⟩
    have sound := sound_of_checked steady accepted checked
    exact (stmt_sound steady k s c c' checked sound.within h).2.2

end Visits

/-! ## Deciding whether assignments keep to their types -/

section Deciding

variable {room : Nat} {program : List Stmt} {w u : CheckVisit}

theorem exprs_room {k : Nat} {items : List Expr} {c : Context}
    (hu : u ∈ eachVisit (checkExpr k) (fun e => e.check k) items c) : u.room = k := by
  obtain ⟨e, _, c1, _, rfl⟩ := of_mem_eachVisit (fun _ _ _ _ => ends_trivial _) trivial hu
  rfl

theorem stmts_room {k : Nat} {items : List Stmt} {c : Context}
    (hu : u ∈ eachVisit (checkStmt k) (fun s => s.check k) items c) : u.room = k := by
  obtain ⟨s, _, c1, _, rfl⟩ := of_mem_eachVisit (fun _ _ _ _ => ends_trivial _) trivial hu
  rfl

/-- A visit has more room than those that it opens. -/
theorem CheckVisit.room_lt (hu : u ∈ w.opens) : u.room < w.room := by
  obtain ⟨part, room, c⟩ := w
  unfold CheckVisit.opens at hu
  dsimp only at hu ⊢
  split at hu
  case h_1 e room =>
    split at hu
    · rename_i k hroom
      rw [exprs_room hu]
      exact innerRoom_lt hroom
    · cases hu
  case h_6 | h_9 =>
    rw [stmts_room hu]
    omega
  case h_7 =>
    rw [List.mem_cons, mem_andThen] at hu
    rcases hu with rfl | ⟨t, c1, _, hu⟩
    · simp only [checkExpr]
      omega
    · rw [stmts_room hu]
      omega
  case h_8 | h_10 | h_11 =>
    rw [List.mem_cons, mem_andThen] at hu
    rcases hu with rfl | ⟨t, c1, _, hu⟩
    · simp only [checkExpr]
      omega
    · cases List.mem_singleton.mp hu
      simp only [checkStmt]
      omega
  case h_12 => cases hu
  all_goals
    cases List.mem_singleton.mp hu
    simp only [checkExpr]
    omega

/-- A visit and those that it opens, down to a depth. -/
def CheckVisit.within : (depth : Nat) → CheckVisit → List CheckVisit
  | 0, w => [w]
  | depth + 1, w => w :: w.opens.flatMap (within depth)

theorem mem_within {depth : Nat} (hdepth : w.room ≤ depth) (h : w.Reaches u) :
    u ∈ w.within depth := by
  induction depth generalizing w with
  | zero =>
    rcases h.cases_head with rfl | ⟨v, hv, _⟩
    · exact List.mem_cons_self
    · have hlt := CheckVisit.room_lt hv
      omega
  | succ depth ih =>
    rcases h.cases_head with rfl | ⟨v, hv, hreach⟩
    · exact List.mem_cons_self
    · have hlt := CheckVisit.room_lt hv
      exact List.mem_cons_of_mem _ (List.mem_flatMap.mpr ⟨v, hv, ih (by omega) hreach⟩)

theorem reaches_of_mem {depth : Nat} (h : u ∈ w.within depth) : w.Reaches u := by
  induction depth generalizing w with
  | zero =>
    cases List.mem_singleton.mp h
    exact .refl
  | succ depth ih =>
    rcases List.mem_cons.mp h with rfl | h
    · exact .refl
    · obtain ⟨v, hv, hu⟩ := List.mem_flatMap.mp h
      exact (ih hu).head hv

/-- If this is the visit of an assignment to a variable, does it store the type that the variable
has? -/
def CheckVisit.isSteady (w : CheckVisit) : Bool :=
  match w.part, w.room with
  | .expr (.assign name value), k + 3 =>
    match value.check k w.context with
    | .ok t c => c.get? name.text == some t
    | .error _ _ => true
  | _, _ => true

theorem steadyAssignments_iff : SteadyAssignments room program ↔
    ((checkAll room program .start).flatMap (CheckVisit.within room)).all CheckVisit.isSteady := by
  rw [List.all_eq_true]
  constructor
  · intro steady w hw
    obtain ⟨top, htop, hw⟩ := List.mem_flatMap.mp hw
    have checked : Checked room program w := ⟨top, htop, reaches_of_mem hw⟩
    obtain ⟨part, k, c⟩ := w
    unfold CheckVisit.isSteady
    dsimp only
    split
    · split
      · rename_i hcheck
        rw [beq_iff_eq]
        exact steady _ _ _ _ _ _ checked hcheck
      · rfl
    · rfl
  · rintro all k name value c t c' ⟨top, htop, hreach⟩ hcheck
    have hroom : top.room ≤ room := Nat.le_of_eq (stmts_room htop)
    have hsteady := all _ (List.mem_flatMap.mpr ⟨top, htop, mem_within hroom hreach⟩)
    simpa [CheckVisit.isSteady, checkExpr, hcheck] using hsteady

instance (room : Nat) (program : List Stmt) : Decidable (SteadyAssignments room program) :=
  decidable_of_iff _ steadyAssignments_iff.symm

end Deciding

end FunkLang
