-- What the operations on scopes do to what every scope of a tree sees. A name is
-- seen from a scope in the nearest scope around it that has the name. So where an
-- operation sets a name, it shows from all those scopes for which no scope that
-- has the name is nearer than one that it sets it in.
import FunkLang.Machine
import FunkLang.Proofs.Outcome
import FunkLang.Proofs.ScopeTree

namespace FunkLang

/-! ## The first of a list -/

section First

variable {α β : Type} {P Q : α → Prop} {a b : α} {l : List α}

/-- The first item of a list that is as `P` says. -/
def First (P : α → Prop) (l : List α) (a : α) : Prop :=
  ∃ before after, l = before ++ a :: after ∧ P a ∧ ∀ b ∈ before, ¬ P b

theorem First.mem (h : First P l a) : a ∈ l := by
  obtain ⟨before, after, rfl, _⟩ := h
  simp

theorem first_nil : ¬ First P [] a := fun h => by cases h.mem

theorem first_cons : First P (b :: l) a ↔ (P b ∧ a = b) ∨ (¬ P b ∧ First P l a) := by
  constructor
  · rintro ⟨before, after, heq, ha, hbefore⟩
    cases before with
    | nil =>
      cases heq
      exact Or.inl ⟨ha, rfl⟩
    | cons c before =>
      cases heq
      rw [List.forall_mem_cons] at hbefore
      exact Or.inr ⟨hbefore.1, before, after, rfl, ha, hbefore.2⟩
  · rintro (⟨hb, rfl⟩ | ⟨hb, before, after, rfl, ha, hbefore⟩)
    · exact ⟨[], l, rfl, hb, by simp⟩
    · exact ⟨b :: before, after, rfl, ha, List.forall_mem_cons.mpr ⟨hb, hbefore⟩⟩

theorem First.unique (h : First P l a) (h' : First P l b) : a = b := by
  induction l with
  | nil => exact absurd h first_nil
  | cons c l ih =>
    rcases first_cons.mp h with ⟨hc, rfl⟩ | ⟨hc, h⟩
    · rcases first_cons.mp h' with ⟨_, rfl⟩ | ⟨hc', _⟩
      · rfl
      · exact absurd hc hc'
    · rcases first_cons.mp h' with ⟨hc', _⟩ | ⟨_, h'⟩
      · exact absurd hc' hc
      · exact ih h h'

theorem First.congr (hPQ : ∀ b ∈ l, P b ↔ Q b) (h : First P l a) : First Q l a := by
  obtain ⟨before, after, rfl, ha, hbefore⟩ := h
  refine ⟨before, after, rfl, (hPQ a (by simp)).mp ha, fun b hb hq => ?_⟩
  exact hbefore b hb ((hPQ b (by simp [hb])).mpr hq)

theorem find?_eq_some_first {p : α → Bool} :
    l.find? p = some a ↔ First (fun b => p b = true) l a := by
  rw [List.find?_eq_some_iff_append]
  constructor
  · rintro ⟨ha, before, after, rfl, hbefore⟩
    exact ⟨before, after, rfl, ha, fun b hb => by simpa using hbefore b hb⟩
  · rintro ⟨before, after, rfl, ha, hbefore⟩
    exact ⟨ha, before, after, rfl, fun b hb => by simpa using hbefore b hb⟩

/-- Where some items are given the value `v`, it is found if one of these comes first. -/
theorem findSome?_set {f g : α → Option β} {S : α → Prop} {v : β}
    (hset : ∀ b ∈ l, S b → g b = some v) (hrest : ∀ b ∈ l, ¬ S b → g b = f b) :
    ((∃ a, First (fun b => S b ∨ (f b).isSome = true) l a ∧ S a) → l.findSome? g = some v) ∧
      ((¬ ∃ a, First (fun b => S b ∨ (f b).isSome = true) l a ∧ S a) →
        l.findSome? g = l.findSome? f) := by
  induction l with
  | nil => exact ⟨fun ⟨a, ha, _⟩ => absurd ha first_nil, fun _ => rfl⟩
  | cons b l ih =>
    rw [List.forall_mem_cons] at hset hrest
    obtain ⟨found, kept⟩ := ih hset.2 hrest.2
    simp only [first_cons, List.findSome?_cons]
    by_cases hb : S b
    · rw [hset.1 hb]
      exact ⟨fun _ => rfl, fun hnone => absurd ⟨b, Or.inl ⟨Or.inl hb, rfl⟩, hb⟩ hnone⟩
    · rw [hrest.1 hb]
      cases hf : f b with
      | some w =>
        refine ⟨?_, fun _ => rfl⟩
        rintro ⟨a, ⟨_, rfl⟩ | ⟨hnot, _⟩, ha⟩
        · exact absurd ha hb
        · exact absurd (Or.inr rfl) hnot
      | none =>
        have hnot : ¬ (S b ∨ (none : Option β).isSome = true) := by simp [hb]
        constructor
        · rintro ⟨a, ⟨hb', _⟩ | ⟨_, hfirst⟩, ha⟩
          · exact absurd hb' hnot
          · exact found ⟨a, hfirst, ha⟩
        · exact fun hnone => kept fun ⟨a, hfirst, ha⟩ => hnone ⟨a, Or.inr ⟨hnot, hfirst⟩, ha⟩

end First

/-! ## Operations -/

/-- An operation on a tree of scopes, from the scope `s`. -/
inductive ScopeOperation (α : Type)
  | enclose (s : Nat)
  | declare (s : Nat) (name : String) (value : α)
  | declareGlobal (s : Nat) (name : String) (value : α)
  | assign (s : Nat) (name : String) (value : α) (line : Option Int)
  | enclosing (s : Nat)

/-- The scope that an operation is called on. -/
def ScopeOperation.scope {α : Type} : ScopeOperation α → Nat
  | enclose s | declare s _ _ | declareGlobal s _ _ | assign s _ _ _ | enclosing s => s

namespace ScopeTree

variable {α : Type} {t t' : ScopeTree α} {s i : Nat} {x y name : String} {v : α}

/-- The tree that an operation leaves, whether it fails or not. -/
def after (t : ScopeTree α) : ScopeOperation α → ScopeTree α
  | .enclose s => (t.enclose s).1
  | .declare s name value => t.declare s name value
  | .declareGlobal s name value => t.declareGlobal s name value
  | .assign s name value line =>
    match t.assign s name value line with
    | .ok t' => t'
    | .error _ => t
  | .enclosing _ => t

/-- The trees that operations on the scopes that are there make of a root alone. -/
inductive Built : ScopeTree α → Prop
  | root : Built root
  | after {t : ScopeTree α} (built : Built t) (op : ScopeOperation α) (there : op.scope < t.size) :
    Built (t.after op)

theorem assign_eq (t : ScopeTree α) (s : Nat) (name : String) (value : α) (line : Option Int) :
    t.assign s name value line = match t.home? s name with
      | some home => .ok (t.declare home name value)
      | none => .error ⟨.undefined name, line⟩ := by
  unfold assign assign?
  cases t.home? s name <;> rfl

/-! ## Setting names -/

/-- From one tree to another `name` has been set to `value` in the scopes of `S`, and nothing else
has changed. -/
structure SetIn (S : Nat → Prop) (name : String) (value : α) (t t' : ScopeTree α) : Prop where
  size : t'.size = t.size
  parents : ∀ i, t'.parent? i = t.parent? i
  set : ∀ i x, S i → (t'.table i).get? x = if x = name then some value else (t.table i).get? x
  kept : ∀ i, ¬ S i → t'.table i = t.table i

theorem SetIn.grounded {S : Nat → Prop} (h : SetIn S name v t t') (grounded : t.Grounded) :
    t'.Grounded := by
  intro i p hp
  rw [h.parents] at hp
  exact grounded i p hp

theorem setIn_declare (hs : s < t.size) (name : String) (value : α) :
    SetIn (· = s) name value t (t.declare s name value) where
  size := size_declare t s name value
  parents := parent?_declare t s name value
  set i x hi := by
    subst hi
    exact get?_table_declare hs x
  kept i hi := table_declare_of_ne hi

theorem SetIn.trans {S S' : Nat → Prop} {t1 : ScopeTree α} (h : SetIn S name v t t1)
    (h' : SetIn S' name v t1 t') : SetIn (fun i => S i ∨ S' i) name v t t' where
  size := h'.size.trans h.size
  parents i := (h'.parents i).trans (h.parents i)
  set i x hi := by
    by_cases hS' : S' i
    · rw [h'.set i x hS']
      by_cases hS : S i
      · rw [h.set i x hS]
        split <;> rfl
      · rw [h.kept i hS]
    · rw [h'.kept i hS', h.set i x (hi.resolve_right hS')]
  kept i hi := by
    rw [not_or] at hi
    rw [h'.kept i hi.2, h.kept i hi.1]

theorem SetIn.congr {S S' : Nat → Prop} (hS : ∀ i, S i ↔ S' i) (h : SetIn S name v t t') :
    SetIn S' name v t t' := by
  rwa [← funext fun i => propext (hS i)]

theorem setIn_each {scopes : List Nat} (hscopes : ∀ i ∈ scopes, i < t.size) (name : String)
    (value : α) :
    SetIn (· ∈ scopes) name value t
      (scopes.foldl (fun t i => t.declare i name value) t) := by
  induction scopes generalizing t with
  | nil => exact ⟨rfl, fun _ => rfl, fun _ _ hi => absurd hi List.not_mem_nil, fun _ _ => rfl⟩
  | cons s rest ih =>
    rw [List.forall_mem_cons] at hscopes
    have hfirst := setIn_declare hscopes.1 name value
    have hrest := ih (t := t.declare s name value) fun i hi => by
      rw [size_declare]
      exact hscopes.2 i hi
    exact (hfirst.trans hrest).congr fun i => List.mem_cons.symm

theorem mem_chain_lt (grounded : t.Grounded) (hs : s < t.size) (h : i ∈ t.chain s) : i < t.size :=
  Nat.lt_of_le_of_lt (le_of_mem_chain grounded h) hs

theorem setIn_declareGlobal (grounded : t.Grounded) (hs : s < t.size) (name : String) (value : α) :
    SetIn (· ∈ t.chain s) name value t (t.declareGlobal s name value) :=
  setIn_each (fun _ => mem_chain_lt grounded hs) name value

theorem Built.grounded (built : t.Built) : t.Grounded := by
  induction built with
  | root =>
    intro s p hp
    cases s <;> cases hp
  | @after t _ op there ih =>
    cases op with
    | enclose s => exact enclose_grounded ih there
    | declare s name value => exact declare_grounded ih s name value
    | declareGlobal s name value => exact (setIn_declareGlobal ih there name value).grounded ih
    | assign s name value line =>
      change Grounded (match t.assign s name value line with
        | .ok t' => t'
        | .error _ => t)
      rw [assign_eq]
      cases t.home? s name with
      | none => exact ih
      | some home => exact declare_grounded ih home name value
    | enclosing s => exact ih

/-! ## What is seen -/

/-- A scope has a name of its own. -/
def Binds (t : ScopeTree α) (name : String) (i : Nat) : Prop :=
  (t.table i).contains name = true

/-- The nearest scope to `i` that is as `P` says, among `i` and the scopes around it. -/
def Nearest (t : ScopeTree α) (i : Nat) (P : Nat → Prop) (home : Nat) : Prop :=
  First P (t.chain i) home

/-- The scope `s` is `i` or around it, and no scope that is nearer to `i` has the name. -/
def Uncovered (t : ScopeTree α) (i s : Nat) (name : String) : Prop :=
  ∃ near far, t.chain i = near ++ s :: far ∧ ∀ j ∈ near, ¬ t.Binds name j

/-- From one tree to another the scope `i` has come to see `y` as `v`, if it has been shown it. If
it has not, it sees what it saw, or still sees nothing. -/
structure Sees (i : Nat) (y : String) (v : α) (shown : Prop) (t t' : ScopeTree α) : Prop where
  same : ∀ line, t'.get i y line = .ok v ↔ shown ∨ t.get i y line = .ok v
  otherwise : ¬ shown → ∀ line, t'.get i y line = t.get i y line

theorem sees_of_get? {shown : Prop} (hshown : shown → t'.get? i y = some v)
    (hkept : ¬ shown → t'.get? i y = t.get? i y) : Sees i y v shown t t' := by
  have get_ok : shown → ∀ line, t'.get i y line = .ok v := fun h line => by
    unfold get
    rw [hshown h]
  have get_same : ¬ shown → ∀ line, t'.get i y line = t.get i y line := fun h line => by
    unfold get
    rw [hkept h]
  refine ⟨fun line => ?_, get_same⟩
  by_cases h : shown
  · exact ⟨fun _ => Or.inl h, fun _ => get_ok h line⟩
  · rw [get_same h line]
    exact ⟨Or.inr, fun hor => hor.resolve_left h⟩

/-- Where a name has been set in some scopes, it shows from all those scopes for which one of them
comes before all scopes that have the name. -/
theorem SetIn.sees {S : Nat → Prop} (h : SetIn S x v t t') (grounded : t.Grounded)
    (hi : i < t.size) (y : String) :
    Sees i y v (y = x ∧ ∃ home, t.Nearest i (fun j => S j ∨ t.Binds x j) home ∧ S home) t t' := by
  have hchain : t'.chain i = t.chain i :=
    chain_congr grounded (h.grounded grounded) hi fun j _ => h.parents j
  by_cases hyx : y = x
  · subst hyx
    obtain ⟨found, kept⟩ := findSome?_set (f := fun j => (t.table j).get? y)
      (g := fun j => (t'.table j).get? y) (S := S) (v := v) (l := t.chain i)
      (fun j _ hj => by rw [h.set j y hj, if_pos rfl]) (fun j _ hj => by rw [h.kept j hj])
    refine sees_of_get? (fun hshown => ?_) fun hnot => ?_
    · unfold get?
      rw [hchain]
      exact found hshown.2
    · unfold get?
      rw [hchain]
      exact kept fun hfirst => hnot ⟨rfl, hfirst⟩
  · refine sees_of_get? (fun hshown => absurd hshown.1 hyx) fun _ => ?_
    unfold get?
    rw [hchain]
    congr 1
    funext j
    by_cases hj : S j
    · rw [h.set j y hj, if_neg hyx]
    · rw [h.kept j hj]

theorem Sees.congr {shown shown' : Prop} (hiff : shown ↔ shown') (h : Sees i y v shown t t') :
    Sees i y v shown' t t' := by
  rwa [← propext hiff]

theorem uncovered_iff (grounded : t.Grounded) :
    (∃ home, t.Nearest i (fun j => j = s ∨ t.Binds x j) home ∧ home = s) ↔ t.Uncovered i s x := by
  constructor
  · rintro ⟨_, ⟨near, far, hchain, _, hnear⟩, rfl⟩
    exact ⟨near, far, hchain, fun j hj hbinds => hnear j hj (Or.inr hbinds)⟩
  · rintro ⟨near, far, hchain, hnear⟩
    refine ⟨s, ⟨near, far, hchain, Or.inl rfl, fun j hj => ?_⟩, rfl⟩
    rintro (rfl | hbinds)
    · -- A chain has no scope twice.
      have hnodup := chain_nodup grounded i
      rw [hchain] at hnodup
      exact (List.nodup_append.mp hnodup).2.2 j hj j List.mem_cons_self rfl
    · exact hnear j hj hbinds

/-! ## Assigning -/

theorem home?_eq_some {home : Nat} : t.home? s x = some home ↔ t.Nearest s (t.Binds x) home :=
  find?_eq_some_first

theorem contains_iff_get : t.contains s x = true ↔ ∃ w, t.get s x none = .ok w := by
  unfold contains get
  rw [home?_isSome, ← get?_isSome]
  cases t.get? s x <;> simp

/-- A name that is there already is set in its place. -/
theorem names_put {table : Table α} (h : table.contains name = true) (value : α) :
    (table.put name value).names = table.names := by
  obtain ⟨old, hold⟩ := Option.isSome_iff_exists.mp h
  have hname : name ∈ table.names := List.mem_map_of_mem (mem_of_findEntry hold)
  rw [Table.names_put, if_pos hname]

theorem names_declare {home : Nat} (h : t.Binds x home) (value : α) (j : Nat) :
    ((t.declare home x value).table j).names = (t.table j).names := by
  rw [table_declare]
  split
  · rename_i hj
    rw [hj.1]
    exact names_put h value
  · rfl

/-- An assignment that does not fail sets the name in the nearest scope that has it. -/
theorem assign_eq_ok {line : Option Int} :
    t.assign s x v line = .ok t' ↔
      ∃ home, t.Nearest s (t.Binds x) home ∧ t' = t.declare home x v := by
  rw [assign_eq]
  cases hhome : t.home? s x with
  | none =>
    constructor
    · intro h
      cases h
    · rintro ⟨home, hnearest, _⟩
      rw [home?_eq_some.mpr hnearest] at hhome
      cases hhome
  | some home =>
    constructor
    · intro h
      cases h
      exact ⟨home, home?_eq_some.mp hhome, rfl⟩
    · rintro ⟨home', hnearest, rfl⟩
      rw [home?_eq_some.mpr hnearest] at hhome
      cases hhome
      rfl

theorem assign_eq_error {line : Option Int} {f : Fault} :
    t.assign s x v line = .error f ↔ t.contains s x = false ∧ f = ⟨.undefined x, line⟩ := by
  rw [assign_eq]
  unfold contains
  cases t.home? s x <;> simp [eq_comm]

theorem Nearest.mem {P : Nat → Prop} {home : Nat} (h : t.Nearest s P home) : home ∈ t.chain s :=
  First.mem h

/-- After an assignment from `s`, a scope sees the new value where it sees the name in the same
scope as `s` does. -/
theorem sees_assign (grounded : t.Grounded) (hs : s < t.size) (hi : i < t.size) {line : Option Int}
    (h : t.assign s x v line = .ok t') (y : String) :
    Sees i y v (y = x ∧ ∃ home, t.Nearest s (t.Binds x) home ∧ t.Nearest i (t.Binds x) home)
      t t' := by
  obtain ⟨home, hnearest, rfl⟩ := assign_eq_ok.mp h
  have hbinds : t.Binds x home := by
    obtain ⟨_, _, _, hbinds, _⟩ := hnearest
    exact hbinds
  have hset := setIn_declare (mem_chain_lt grounded hs hnearest.mem) x v
  have names : ∀ j ∈ t.chain i, (j = home ∨ t.Binds x j) ↔ t.Binds x j := fun j _ =>
    ⟨fun hor => hor.elim (fun hj => hj ▸ hbinds) id, Or.inr⟩
  refine (hset.sees grounded hi y).congr (and_congr_right fun _ => ⟨?_, ?_⟩)
  · rintro ⟨_, hfirst, rfl⟩
    exact ⟨_, hnearest, First.congr names hfirst⟩
  · rintro ⟨home', hnearest', hfirst⟩
    cases First.unique hnearest' hnearest
    exact ⟨_, First.congr (fun j hj => (names j hj).symm) hfirst, rfl⟩

/-! ## All operations -/

/-- What the operations on the name `x`, called on the scope `s`, do to what the scope `i` sees. -/
structure OperationsShow (t : ScopeTree α) (s i : Nat) (x y : String) (v : α) (line : Option Int) :
    Prop where
  declare : Sees i y v (y = x ∧ t.Uncovered i s x) t (t.declare s x v)
  assignable : (∃ t', t.assign s x v line = .ok t') ↔ t.contains s x = true
  contained : t.contains s x = true ↔ ∃ w, t.get s x line = .ok w
  assign : ∀ t', t.assign s x v line = .ok t' →
    Sees i y v (y = x ∧ ∃ home, t.Nearest s (t.Binds x) home ∧ t.Nearest i (t.Binds x) home) t t' ∧
      ∀ j, (t'.table j).names = (t.table j).names
  /-- One that fails leaves the tree, and the machine of a run, as they were. -/
  refused : ∀ f, t.assign s x v line = .error f →
    f = ⟨.undefined x, line⟩ ∧ t.after (.assign s x v line) = t
  refusedInRun : ∀ (m : Machine) w l stop m', Run.assign x w l m = .error stop m' →
    stop = .fault ⟨.undefined x, some l⟩ ∧ m' = m
  declareGlobal : Sees i y v
    (y = x ∧ ∃ home, t.Nearest i (fun j => t.Binds x j ∨ j ∈ t.chain s) home ∧ home ∈ t.chain s)
    t (t.declareGlobal s x v)

theorem run_assign_error {m m' : Machine} {w : Value} {l : Int} {stop : Stop}
    (h : Run.assign x w l m = .error stop m') :
    stop = .fault ⟨.undefined x, some l⟩ ∧ m' = m := by
  change (match m.scopes.home? m.scope x with
    | some home => Run.declareIn home x w
    | none => Run.fail (.undefined x) l) m = _ at h
  cases hhome : m.scopes.home? m.scope x with
  | some home =>
    rw [hhome] at h
    cases h
  | none =>
    rw [hhome] at h
    cases h
    exact ⟨rfl, rfl⟩

/-- In a tree that operations have built, after one more operation on the name `x`, called on the
scope `s`, a scope `i` sees the new value where the operation has set it in the scope that `i` sees
`x` in first, and sees everything else as before. -/
theorem operations_show_where_they_come_first (built : t.Built) (hs : s < t.size) (hi : i < t.size)
    (x y : String) (v : α) (line : Option Int) : t.OperationsShow s i x y v line where
  declare := ((setIn_declare hs x v).sees built.grounded hi y).congr
    (and_congr_right fun _ => uncovered_iff built.grounded)
  assignable := by
    cases hassign : t.assign s x v line with
    | ok t' =>
      have hcontains : t.contains s x ≠ false := fun hfalse => by
        rw [assign_eq_error.mpr ⟨hfalse, rfl⟩] at hassign
        cases hassign
      simpa using hcontains
    | error f => simp [(assign_eq_error.mp hassign).1]
  contained := by
    rw [contains_iff_get]
    unfold get
    cases t.get? s x <;> simp
  assign t' h := by
    refine ⟨sees_assign built.grounded hs hi h y, ?_⟩
    obtain ⟨home, ⟨_, _, _, hbinds, _⟩, rfl⟩ := assign_eq_ok.mp h
    exact names_declare hbinds v
  refused f h := by
    refine ⟨(assign_eq_error.mp h).2, ?_⟩
    unfold after
    simp only [h]
  refusedInRun _ _ _ _ _ h := run_assign_error h
  declareGlobal := by
    have hset := setIn_declareGlobal built.grounded hs x v
    refine (hset.sees built.grounded hi y).congr (and_congr_right fun _ => ?_)
    simp only [or_comm]

/-- A root that has `x`, a scope in it, and two scopes in that one. The first of these two has an
`x` of its own. -/
def fourScopes : ScopeTree Nat :=
  [.declare 0 "x" 1, .enclose 0, .enclose 1, .declare 2 "x" 2, .enclose 1].foldl after root

theorem fourScopes_built : fourScopes.Built := by
  unfold fourScopes
  simp only [List.foldl_cons, List.foldl_nil]
  refine .after (.after (.after (.after (.after .root _ ?_) _ ?_) _ ?_) _ ?_) _ ?_
  all_goals exact of_decide_eq_true rfl

/-- An assignment from the second scope shows in the scope around it, and not in the first one. -/
theorem an_assignment_shows_around_and_not_aside :
    ∃ t' : ScopeTree Nat, fourScopes.assign 3 "x" 5 none = .ok t' ∧
      t'.get 1 "x" none = .ok 5 ∧ t'.get 2 "x" none = .ok 2 := by
  have around := operations_show_where_they_come_first fourScopes_built (s := 3) (i := 1)
    (by decide) (by decide) "x" "x" 5 none
  have aside := operations_show_where_they_come_first fourScopes_built (s := 3) (i := 2)
    (by decide) (by decide) "x" "x" 5 none
  obtain ⟨t', ht'⟩ := around.assignable.mpr rfl
  have here : fourScopes.Nearest 3 (fourScopes.Binds "x") 0 := home?_eq_some.mp rfl
  have there : fourScopes.Nearest 1 (fourScopes.Binds "x") 0 := home?_eq_some.mp rfl
  have other : fourScopes.Nearest 2 (fourScopes.Binds "x") 2 := home?_eq_some.mp rfl
  refine ⟨t', ht', ?_, ?_⟩
  · exact ((around.assign t' ht').1.same none).mpr (Or.inl ⟨rfl, 0, here, there⟩)
  · rw [(aside.assign t' ht').1.otherwise ?_ none]
    · rfl
    · rintro ⟨_, home, hhome, hhome'⟩
      cases First.unique hhome here
      cases First.unique hhome' other

end ScopeTree
end FunkLang
