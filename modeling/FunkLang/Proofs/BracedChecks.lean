-- The check of a program in braces. A block opens a scope, which stays empty
-- around a single statement that declares nothing. So the contexts differ by
-- empty scopes, in which no name is found and none is set.
import FunkLang.Proofs.Braces
import FunkLang.Proofs.CheckVisit

namespace FunkLang

/-! ## Scopes with empty ones between them -/

/-- Scopes, and the same with empty scopes between them. The shape says of each scope of the second
list if it is one of the first. -/
inductive Padded : (shape : List Bool) → List (Table Ty) → List (Table Ty) → Prop
  | nil : Padded [] [] []
  | real {shape scopes scopes' s} : Padded shape scopes scopes' →
    Padded (true :: shape) (s :: scopes) (s :: scopes')
  | blank {shape scopes scopes'} : Padded shape scopes scopes' →
    Padded (false :: shape) scopes (.empty :: scopes')

/-- Contexts whose scopes differ by empty ones. -/
def paddedChecks : Pairing TypeError Context (List Bool) where
  short e := e.problem = .tooDeep
  related shape c c' := Padded shape c.scopes c'.scopes ∧ c.shadowed = c'.shadowed
  grows shape shape' := shape' = shape
  grows_refl _ := rfl
  grows_trans h h' := h'.trans h

/-- The innermost scope is in both contexts. -/
def Open (shape : List Bool) : Prop := shape.head? ≠ some false

section Padded

variable {shape : List Bool} {scopes scopes' : List (Table Ty)}

theorem padded_refl (scopes : List (Table Ty)) :
    Padded (List.replicate scopes.length true) scopes scopes := by
  induction scopes with
  | nil => exact .nil
  | cons s rest ih => exact .real ih

/-- Scopes of which all are in both lists are the same. -/
theorem Padded.eq_of_replicate {count : Nat}
    (h : Padded (List.replicate count true) scopes scopes') : scopes' = scopes := by
  induction count generalizing scopes scopes' with
  | zero =>
    cases h
    rfl
  | succ count ih =>
    cases h with
    | real h => rw [ih h]

/-- Contexts of which all scopes are in both are the same. -/
theorem Padded.context_eq {count : Nat} {c c' : Context}
    (h : Padded (List.replicate count true) c.scopes c'.scopes)
    (hshadowed : c.shadowed = c'.shadowed) : c' = c := by
  obtain ⟨scopes, shadowed⟩ := c
  obtain ⟨scopes', shadowed'⟩ := c'
  obtain rfl : shadowed = shadowed' := hshadowed
  exact congrArg (Context.mk · shadowed) h.eq_of_replicate

theorem Padded.findSome? (h : Padded shape scopes scopes') (name : String) :
    scopes'.findSome? (·.get? name) = scopes.findSome? (·.get? name) := by
  induction h with
  | nil => rfl
  | real _ ih => rw [List.findSome?_cons, List.findSome?_cons, ih]
  | blank _ ih => exact ih

theorem Padded.setFirst (h : Padded shape scopes scopes') (name : String) (t : Ty) :
    Option.Rel (Padded shape) (Context.setFirst name t scopes)
      (Context.setFirst name t scopes') := by
  induction h with
  | nil => exact .none
  | @real shape scopes scopes' s hrest ih =>
    unfold Context.setFirst
    split
    · exact .some (.real hrest)
    · generalize Context.setFirst name t scopes = set at ih ⊢
      generalize Context.setFirst name t scopes' = set' at ih ⊢
      cases ih with
      | none => exact .none
      | some hset => exact .some (.real hset)
  | @blank shape scopes scopes' hrest ih =>
    rw [Context.setFirst]
    generalize Context.setFirst name t scopes = set at ih ⊢
    generalize Context.setFirst name t scopes' = set' at ih ⊢
    cases ih with
    | none => exact .none
    | some hset => exact .some (.blank hset)

theorem Padded.modifyHead (h : Padded shape scopes scopes') (hopen : Open shape)
    (change : Table Ty → Table Ty) :
    Padded shape (scopes.modifyHead change) (scopes'.modifyHead change) := by
  cases h with
  | nil => exact .nil
  | real hrest => exact .real hrest
  | blank => exact absurd rfl hopen

end Padded

/-! ## Steps -/

section Steps

open Pairing

variable {left right : Prop} {α : Type} {x x' : Check α} {body body' : Check Unit}

theorem open_up : ∀ shape shape', paddedChecks.grows shape shape' → Open shape → Open shape' :=
  fun _ _ h hopen => h ▸ hopen

/-- A check that goes the same way in both contexts. -/
abbrev SameCheck (left right : Prop) (x x' : Check α) : Prop := paddedChecks.Alike left right x x'

/-- A check that goes the same way where the innermost scope is in both contexts. -/
abbrev SameCheckOpen (left right : Prop) (x x' : Check α) : Prop :=
  (paddedChecks.on Open).Alike left right x x'

theorem sameCheck_ensure (holds : Bool) (problem : TypeProblem) (line : Int) :
    SameCheck left right (Check.ensure holds problem line) (Check.ensure holds problem line) := by
  unfold Check.ensure
  cases holds with
  | true => exact .pure ()
  | false => exact .throw _

theorem sameCheck_lookup (name : String) (line : Int) :
    SameCheck left right (Check.lookup name line) (Check.lookup name line) := by
  refine .get fun shape c c' hc => ?_
  have hget : c'.get? name = c.get? name := hc.1.findSome? name
  rw [hget]
  cases c.get? name with
  | some t => exact .ok rfl hc
  | none => exact .error rfl hc

theorem sameCheck_assign (name : String) (t : Ty) (line : Int) :
    SameCheck left right (Check.assign name t line) (Check.assign name t line) := by
  refine .get fun shape c c' hc => ?_
  have hset := hc.1.setFirst name t
  unfold Context.assign?
  generalize Context.setFirst name t c.scopes = set at hset ⊢
  generalize Context.setFirst name t c'.scopes = set' at hset ⊢
  cases hset with
  | none => exact .error rfl hc
  | some h => exact .ok rfl ⟨h, hc.2⟩

theorem sameCheck_noteShadowing (name : String) (line : Int) :
    SameCheck left right (Check.noteShadowing name line) (Check.noteShadowing name line) := by
  refine .get fun shape c c' hc => ?_
  have hget : c'.get? name = c.get? name := hc.1.findSome? name
  rw [hget]
  split
  · refine .ok rfl ⟨hc.1, ?_⟩
    change c.shadowed.push _ = c'.shadowed.push _
    rw [hc.2]
  · exact .ok rfl hc

theorem sameCheck_declare (name : String) (t : Ty) :
    SameCheckOpen left right (Check.declare name t) (Check.declare name t) :=
  .modify fun _ _ _ hc => ⟨⟨hc.1.1.modifyHead hc.2 _, hc.1.2⟩, hc.2⟩

theorem inScope_eq_recast (x : Check α) (c : Context) :
    Check.inScope x c = recast id id Context.outer (x c.inner) := by
  unfold Check.inScope Context.inner
  cases x { c with scopes := .empty :: c.scopes } <;> rfl

/-- A scope in both contexts. -/
theorem sameCheck_inScope (h : SameCheckOpen left right x x') :
    SameCheck left right (Check.inScope x) (Check.inScope x') := by
  intro shape c c' hc
  rw [inScope_eq_recast, inScope_eq_recast]
  have hbody := h (true :: shape) c.inner c'.inner ⟨⟨.real hc.1, hc.2⟩, nofun⟩
  refine hbody.recast (fun _ he => he) fun shape' c1 c1' hshape hc1 => ⟨shape, rfl, ?_⟩
  obtain ⟨⟨hpadded, hshadowed⟩, -⟩ := hc1
  obtain ⟨scopes, shadowed⟩ := c1
  obtain ⟨scopes', shadowed'⟩ := c1'
  cases hshape
  cases hpadded with
  | real hrest => exact ⟨hrest, hshadowed⟩

/-- A scope in the second context only, around a check that does not set names in it. -/
theorem sameCheck_blank (h : SameCheck left right x x') :
    SameCheck left right x (Check.inScope x') := by
  intro shape c c' hc
  rw [inScope_eq_recast, ← recast_id (x c)]
  have hbody := h (false :: shape) c c'.inner ⟨.blank hc.1, hc.2⟩
  refine hbody.recast (fun _ he => he) fun shape' c1 c1' hshape hc1 => ⟨shape, rfl, ?_⟩
  obtain ⟨hpadded, hshadowed⟩ := hc1
  obtain ⟨scopes, shadowed⟩ := c1
  obtain ⟨scopes', shadowed'⟩ := c1'
  cases hshape
  cases hpadded with
  | blank hrest => exact ⟨hrest, hshadowed⟩

end Steps

/-! ## Expressions -/

/-- The least room that an expression is checked with. -/
def Expr.checkLeast : Expr → Nat
  | .binary .. | .logical .. => 4
  | _ => 3

theorem Expr.check_shallow {room : Nat} {e : Expr} (h : room < e.checkLeast) :
    e.check room = throw ⟨.tooDeep, none⟩ := by
  cases e <;> simp only [checkLeast] at h
  case binary | logical =>
    match room, h with
    | 0, _ | 1, _ | 2, _ | 3, _ => rfl
  all_goals
    match room, h with
    | 0, _ | 1, _ | 2, _ => rfl

/-- An expression is checked the same way. -/
theorem sameCheck_expr (most : Nat) : ∀ room (e : Expr) room',
    paddedChecks.AlikeAt most 0 room room' (e.check room) (e.check room') := by
  intro room
  induction room using Nat.strongRecOn with
  | ind room ih =>
    intro e room'
    refine .of_least (e := ⟨.tooDeep, none⟩) (x := fun r => e.check r) (y := fun r => e.check r)
      rfl (fun _ => Expr.check_shallow) (fun _ => Expr.check_shallow) id cramped_of_lt ?_
    rintro r r' rfl rfl
    have part (d : Nat) {k k' : Nat} (e' : Expr) (hd : 3 ≤ d := by omega)
        (hk : k + d = r + e.checkLeast := by rfl) (hk' : k' + d = r' + e.checkLeast := by rfl) :
        paddedChecks.AlikeAt most 0 (r + e.checkLeast) (r' + e.checkLeast) (e'.check k)
          (e'.check k') := by
      have hpart := (ih k (by omega) e' k').deeper (Nat.zero_le most) hd
      rwa [hk, hk'] at hpart
    cases e <;> simp only [Expr.checkLeast, Expr.check] at part ⊢
    case atom mark =>
      unfold Check.atom
      split
      · exact .pure _
      · exact .pure _
      · exact .pure _
      · exact .pure _
      · exact sameCheck_lookup _ _
    case unary op operand =>
      refine (part 3 operand).bind fun t => ?_
      unfold Check.unary
      split
      · exact (sameCheck_ensure _ _ _).bind fun _ => .pure _
      · exact (sameCheck_ensure _ _ _).bind fun _ => .pure _
    case binary left op right =>
      have operand (e' : Expr) : paddedChecks.AlikeAt most 0 (r + 4) (r' + 4)
          (if Check.isArithmetic op.kind then e'.check r else e'.check (r + 1))
          (if Check.isArithmetic op.kind then e'.check r' else e'.check (r' + 1)) := by
        split
        · exact part 4 e'
        · exact part 3 e'
      refine (operand left).bind fun a => (operand right).bind fun b => ?_
      cases Check.binary? op.kind a b with
      | some t => exact .pure t
      | none => exact .throw _
    case logical op left right =>
      refine (part 4 left).bind fun a => ?_
      refine (part 4 right).bind fun b => ?_
      exact (sameCheck_ensure _ _ _).bind fun _ => .pure _
    case assign name value =>
      refine (part 3 value).bind fun t => ?_
      exact (sameCheck_assign _ _ _).bind fun _ => .pure _
    case assignIndex collection place value =>
      refine (part 3 collection).bind fun a => ?_
      refine (sameCheck_ensure _ _ _).bind fun _ => ?_
      refine (part 3 place).bind fun i => ?_
      exact (sameCheck_ensure _ _ _).bind fun _ => part 3 value
    case assignField collection key value =>
      refine (part 3 collection).bind fun a => ?_
      exact (sameCheck_ensure _ _ _).bind fun _ => part 3 value
    case choice condition yes no =>
      refine (part 3 condition).bind fun b => ?_
      refine (sameCheck_ensure _ _ _).bind fun _ => ?_
      refine (part 3 yes).bind fun t => ?_
      exact (part 3 no).bind fun u => .pure _
    case call callee arguments =>
      refine (part 3 callee).bind fun f => ?_
      refine (sameCheck_ensure _ _ _).bind fun _ => ?_
      refine (Pairing.Alike.forM ?_).bind fun _ => .pure _
      exact List.forall₂_same.mpr fun a _ => (part 3 a).bind fun _ => .pure _
    case list line elements =>
      refine (Pairing.Alike.forM ?_).bind fun _ => .pure _
      exact List.forall₂_same.mpr fun e _ => (part 3 e).bind fun _ => .pure _
    case record line entries =>
      refine (Pairing.Alike.forM ?_).bind fun _ => .pure _
      refine List.forall₂_same.mpr fun entry _ => ?_
      exact (part 3 entry.2).bind fun _ => .pure _
    case index collection place =>
      refine (part 3 collection).bind fun a => ?_
      refine (sameCheck_ensure _ _ _).bind fun _ => ?_
      refine (part 3 place).bind fun i => ?_
      exact (sameCheck_ensure _ _ _).bind fun _ => .pure _
    case field collection key =>
      refine (part 3 collection).bind fun a => ?_
      exact (sameCheck_ensure _ _ _).bind fun _ => .pure _

/-! ## Statements -/

/-- The least room that a statement is checked with. -/
def Stmt.checkLeast : Stmt → Nat
  | .block .. | .funk .. => 6
  | .with_ .. | .for_ .. => 5
  | _ => 3

theorem Stmt.check_shallow {room : Nat} {s : Stmt} (h : room < s.checkLeast) :
    s.check room = throw ⟨.tooDeep, none⟩ := by
  cases s <;> simp only [checkLeast] at h
  case block | funk =>
    match room, h with
    | 0, _ | 1, _ | 2, _ | 3, _ | 4, _ | 5, _ => rfl
  case with_ | for_ =>
    match room, h with
    | 0, _ | 1, _ | 2, _ | 3, _ | 4, _ => rfl
  all_goals
    match room, h with
    | 0, _ | 1, _ | 2, _ => rfl

/-- An innermost scope that is in both contexts, where a statement declares something in it. -/
def OpenFor (s : Stmt) (shape : List Bool) : Prop := s.isDeclaration = true → Open shape

theorem openFor_up (s : Stmt) :
    ∀ shape shape', paddedChecks.grows shape shape' → OpenFor s shape → OpenFor s shape' :=
  fun _ _ h hopen => h ▸ hopen

section Statements

open Pairing

variable {left right : Prop} {most : Nat}

/-- The check of a list of statements, in an innermost scope that is in both contexts. -/
theorem sameCheck_list {check check' : Stmt → Check Unit} {body body' : List Stmt}
    (hbody : AllBraced most body body')
    (each : List.Forall₂ (fun s t => SameCheckOpen left right (check s) (check' t)) body body') :
    SameCheckOpen left right (Check.list check body) (Check.list check' body') := by
  unfold Check.list
  rw [functionNames_braced hbody]
  refine Alike.bind (.forM ?_) fun _ => .forM each
  exact List.forall₂_same.mpr fun name _ => sameCheck_declare name .function

/-- A list of one statement that is no function is checked as the statement is. -/
theorem list_singleton {check : Stmt → Check Unit} {t : Stmt} (h : functionNames [t] = []) :
    Check.list check [t] = check t := by
  unfold Check.list
  rw [h]
  funext c
  change EStateM.bind (check t) (fun _ => pure ⟨⟩) c = check t c
  unfold EStateM.bind
  cases check t c <;> rfl

/-- A block around a statement that declares nothing is checked as the statement is. -/
theorem sameCheck_braces {room blocks : Nat} {s t : Stmt} (plain : s.isDeclaration = false)
    (hbraced : Braced most blocks s t)
    (h : ∀ r, (paddedChecks.on (OpenFor s)).AlikeAt most blocks room r (s.check room) (t.check r))
    (room' : Nat) :
    (paddedChecks.on (OpenFor s)).AlikeAt most (blocks + 1) room room' (s.check room)
      ((Stmt.block s.line [t]).check room') := by
  have hnone : functionNames [t] = [] := by
    rw [functionNames_braced (.cons hbraced .nil)]
    cases s <;> first | rfl | cases plain
  refine .inside (e := ⟨.tooDeep, none⟩) (y := fun r => (Stmt.block s.line [t]).check r) rfl
    (Nat.le_refl 6) (fun _ hr => Stmt.check_shallow hr) (fun r => ?_) room'
  simp only [Stmt.check]
  rw [list_singleton hnone]
  have halike : SameCheck (room < r) (Cramped most blocks room r) (s.check room) (t.check r) :=
    (h r).off fun _ hdeclares => by simp [plain] at hdeclares
  exact (sameCheck_blank halike).on (openFor_up s)

/-- A statement without braces around itself is checked as without those in it, if its parts are. -/
theorem sameCheck_form {room : Nat}
    (ih : ∀ r < room, ∀ s t blocks room', Braced most blocks s t → s.Formed →
      (paddedChecks.on (OpenFor s)).AlikeAt most blocks r room' (s.check r) (t.check room'))
    {s t : Stmt} (hbraced : Braced most 0 s t) (hformed : s.Formed) (room' : Nat) :
    (paddedChecks.on (OpenFor s)).AlikeAt most 0 room room' (s.check room) (t.check room') := by
  have hleast : t.checkLeast = s.checkLeast := by
    cases hbraced <;> rfl
  refine .of_least (e := ⟨.tooDeep, none⟩) (x := fun r => s.check r)
    (y := fun r => t.check r) rfl (fun _ => Stmt.check_shallow)
    (fun _ hr => Stmt.check_shallow (lt_of_lt_of_eq hr hleast.symm)) id cramped_of_lt ?_
  rintro r r' rfl rfl
  have value (d : Nat) {k k' : Nat} (e : Expr) (hd : 3 ≤ d := by omega)
      (hk : k + d = r + s.checkLeast := by rfl) (hk' : k' + d = r' + s.checkLeast := by rfl) :
      paddedChecks.AlikeAt most 0 (r + s.checkLeast) (r' + s.checkLeast) (e.check k)
        (e.check k') := by
    have hpart := (sameCheck_expr most k e k').deeper (Nat.zero_le most) hd
    rwa [hk, hk'] at hpart
  have inner (d : Nat) {k k' : Nat} {s' t' : Stmt} {blocks : Nat}
      (hbraced : Braced most blocks s' t') (hformed : s'.Formed)
      (hd : 3 ≤ d := by omega) (hk : k + d = r + s.checkLeast := by rfl)
      (hk' : k' + d = r' + s.checkLeast := by rfl) :
      (paddedChecks.on (OpenFor s')).AlikeAt most 0 (r + s.checkLeast) (r' + s.checkLeast)
        (s'.check k) (t'.check k') := by
    have hpart := (ih k (by omega) s' t' blocks k' hbraced hformed).deeper hbraced.le_most hd
    rwa [hk, hk'] at hpart
  have branch (d : Nat) {k k' : Nat} {s' t' : Stmt} {blocks : Nat}
      (hbraced : Braced most blocks s' t') (hformed : s'.Formed) (plain : s'.isDeclaration = false)
      (hd : 3 ≤ d := by omega) (hk : k + d = r + s.checkLeast := by rfl)
      (hk' : k' + d = r' + s.checkLeast := by rfl) :
      paddedChecks.AlikeAt most 0 (r + s.checkLeast) (r' + s.checkLeast) (s'.check k)
        (t'.check k') :=
    (inner d hbraced hformed hd hk hk').off fun _ hdeclares => by simp [plain] at hdeclares
  cases hbraced <;> simp only [Stmt.checkLeast, Stmt.check] at value inner branch ⊢
  case expression =>
    exact .on (openFor_up _) ((value 3 _).bind fun _ => .pure _)
  case print =>
    exact .on (openFor_up _) ((value 3 _).bind fun _ => .pure _)
  case make line name init =>
    have named (t : Ty) : (paddedChecks.on (OpenFor (.make line name init))).AlikeAt most 0
        (r + 3) (r' + 3) (do Check.noteShadowing name.text line; Check.declare name.text t)
        (do Check.noteShadowing name.text line; Check.declare name.text t) := by
      refine (Alike.on (openFor_up _) (sameCheck_noteShadowing _ _)).bind fun _ => ?_
      exact (sameCheck_declare _ _).onto (openFor_up _) fun _ hopen => hopen rfl
    cases init with
    | none =>
      simp only [Stmt.check]
      exact Alike.bind (.pure Ty.nil) named
    | some e =>
      simp only [Stmt.check]
      exact .bind (.on (openFor_up _) (value 3 e)) named
  case block line body body' hbody =>
    cases hformed with
    | block hformed =>
      refine .on (openFor_up _) (sameCheck_inScope (sameCheck_list hbody ?_))
      exact hbody.forall₂ fun s' hs' t' blocks hbraced =>
        (inner 6 hbraced (hformed s' hs')).onto open_up fun _ h _ => h
  case if_ line condition blocks yes yes' hyes =>
    cases hformed with
    | if_ hformed plain =>
      refine .on (openFor_up _) ((value 3 _).bind fun c => ?_)
      refine (sameCheck_ensure _ _ _).bind fun _ => ?_
      exact (branch 3 hyes hformed plain).bind fun _ => .pure _
  case ifElse line condition blocks yes yes' blocks' no no' hyes hno =>
    cases hformed with
    | if_ hformed plain hformed' plain' =>
      refine .on (openFor_up _) ((value 3 _).bind fun c => ?_)
      refine (sameCheck_ensure _ _ _).bind fun _ => ?_
      refine (branch 3 hyes hformed plain).bind fun _ => ?_
      exact branch 3 hno (hformed' _ rfl) (plain' _ rfl)
  case while_ line condition blocks body body' hbody =>
    cases hformed with
    | while_ hformed plain =>
      refine .on (openFor_up _) ((value 3 _).bind fun c => ?_)
      refine (sameCheck_ensure _ _ _).bind fun _ => ?_
      exact branch 3 hbody hformed plain
  case funk line name params bodyLine body body' hbody =>
    cases hformed with
    | funk hformed =>
      refine Alike.bind (.onto (openFor_up _) (fun _ hopen => hopen rfl) ?_) fun _ => ?_
      · exact sameCheck_declare _ _
      refine .on (openFor_up _) (sameCheck_inScope (Alike.bind (.forM ?_) fun _ => ?_))
      · exact List.forall₂_same.mpr fun p _ => sameCheck_declare _ _
      · refine sameCheck_list hbody (hbody.forall₂ fun s' hs' t' blocks hbraced => ?_)
        exact (inner 6 hbraced (hformed s' hs')).onto open_up fun _ h _ => h
  case return_ line value' =>
    refine .on (openFor_up _) ?_
    cases value' with
    | none =>
      simp only [Stmt.check]
      exact .pure ()
    | some e =>
      simp only [Stmt.check]
      exact (value 3 e).bind fun _ => .pure _
  case with_ line subject name blocks body body' hbody =>
    cases hformed with
    | with_ hformed plain =>
      refine .on (openFor_up _) ((value 3 _).bind fun t => ?_)
      refine sameCheck_inScope ((sameCheck_declare _ _).bind fun _ => .on open_up ?_)
      exact branch 5 hbody hformed plain
  case for_ line name items blocks body body' hbody =>
    cases hformed with
    | for_ hformed plain =>
      refine .on (openFor_up _) ((value 3 _).bind fun t => ?_)
      refine (sameCheck_ensure _ _ _).bind fun _ => ?_
      refine sameCheck_inScope ((sameCheck_declare _ _).bind fun _ => .on open_up ?_)
      exact branch 5 hbody hformed plain

/-- A statement in braces is checked as the statement is. -/
theorem sameCheck_stmt (most : Nat) : ∀ room (s t : Stmt) blocks room',
    Braced most blocks s t → s.Formed →
      (paddedChecks.on (OpenFor s)).AlikeAt most blocks room room' (s.check room)
        (t.check room') := by
  intro room
  induction room using Nat.strongRecOn with
  | ind room ih =>
    intro s t blocks room' hbraced hformed
    -- The first pass takes no step into the braces, so its room stays the same here.
    induction blocks generalizing t room' with
    | zero => exact sameCheck_form ih hbraced hformed room'
    | succ blocks ihblocks =>
      cases hbraced with
      | braces _ plain hinner =>
        exact sameCheck_braces plain hinner (fun r => ihblocks _ r hinner) room'

/-! ## Programs -/

/-- A check that ends for want of room. -/
def CheckShort (r : EStateM.Result TypeError Context Unit) : Prop :=
  ∃ e c, r = .error e c ∧ e.problem = .tooDeep

theorem sameCheck_program {program braced : List Stmt} (hformed : ∀ s ∈ program, s.Formed)
    (hbraced : AllBraced most program braced) (room room' : Nat) :
    SameCheckOpen (room < room') (Cramped most most room room') (checkProgram room program)
      (checkProgram room' braced) := by
  refine sameCheck_list hbraced (hbraced.forall₂ fun s hs t blocks h => ?_)
  have hone := (sameCheck_stmt most room s t blocks room' h (hformed s hs)).onto open_up
    fun _ hopen _ => hopen
  exact hone.imp id fun hcramped => hcramped.outside h.le_most

/-- A program is checked as it is without the braces, in any context. -/
theorem check_of_braced {program braced : List Stmt} (hformed : ∀ s ∈ program, s.Formed)
    (hbraced : AllBraced most program braced) (c : Context) :
    SameButForRoom most CheckShort (fun room => checkProgram room program c)
      (fun room => checkProgram room braced c) := by
  refine .of_ends fun room room' => ?_
  have hshape : Open (List.replicate c.scopes.length true) := by
    cases c.scopes with
    | nil => nofun
    | cons s rest => nofun
  have hend := sameCheck_program hformed hbraced room room' _ c c
    ⟨⟨padded_refl c.scopes, rfl⟩, hshape⟩
  have eq_of_related {shape : List Bool} {d d' : Context}
      (hshape : shape = List.replicate c.scopes.length true)
      (hd : Padded shape d.scopes d'.scopes ∧ d.shadowed = d'.shadowed) : d' = d := by
    rw [hshape] at hd
    exact hd.1.context_eq hd.2
  generalize checkProgram room program c = r at hend ⊢
  generalize checkProgram room' braced c = r' at hend ⊢
  cases hend with
  | ok hgrows hd => rw [eq_of_related hgrows hd.1]; exact Or.inl rfl
  | error hgrows hd => rw [eq_of_related hgrows hd.1]; exact Or.inl rfl
  | left hdeep hlt => exact Or.inr (Or.inl ⟨⟨_, _, rfl, hdeep⟩, hlt⟩)
  | right hdeep hcramped => exact Or.inr (Or.inr ⟨⟨_, _, rfl, hdeep⟩, hcramped⟩)

end Statements

end FunkLang
