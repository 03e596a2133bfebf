-- The checker, when less is known of the types of names. What passes passes
-- still where the types of some names have faded to the unknown one, and no
-- expression gets a known type but the one that it had.
import FunkLang.Proofs.CheckedTypes

namespace FunkLang

/-! ## Faded types -/

/-- The same type, or the unknown one. -/
def Ty.FadesTo (t t' : Ty) : Prop := t' = t ∨ t' = .unknown

namespace Ty.FadesTo

variable {t t' u u' : Ty}

theorem refl (t : Ty) : t.FadesTo t := Or.inl rfl

theorem unknown (t : Ty) : t.FadesTo .unknown := Or.inr rfl

theorem fits {wanted : Ty} (h : t.FadesTo t') (hfits : t.fits wanted = true) :
    t'.fits wanted = true := by
  rcases h with rfl | rfl
  · exact hfits
  · rfl

theorem eq_unknown (h : t.FadesTo t') (ht : t = .unknown) : t' = .unknown := by
  rcases h with rfl | rfl
  · exact ht
  · rfl

/-- The type of a choice between two values. -/
theorem choice (h : t.FadesTo t') (h' : u.FadesTo u') :
    (if t = u then t else .unknown : Ty).FadesTo (if t' = u' then t' else .unknown) := by
  rcases h with rfl | rfl
  · rcases h' with rfl | rfl
    · exact refl _
    · by_cases ht : t' = .unknown
      · rw [if_pos ht, ht]
        exact unknown _
      · rw [if_neg ht]
        exact unknown _
  · by_cases hu : Ty.unknown = u'
    · rw [if_pos hu]
      exact unknown _
    · rw [if_neg hu]
      exact unknown _

theorem arithmetic {op : BinaryOp} (h : t.FadesTo t') (h' : u.FadesTo u') {r : Ty}
    (hr : Check.arithmetic? op t u = some r) :
    ∃ r', Check.arithmetic? op t' u' = some r' ∧ r.FadesTo r' := by
  have faded (hunknown : t' = .unknown ∨ u' = .unknown) :
      ∃ r', Check.arithmetic? op t' u' = some r' ∧ r.FadesTo r' :=
    ⟨.unknown, if_pos hunknown, unknown r⟩
  rcases h with rfl | h
  · rcases h' with rfl | h'
    · exact ⟨r, hr, refl r⟩
    · exact faded (Or.inr h')
  · exact faded (Or.inl h)

theorem binary {op : BinaryOp} (h : t.FadesTo t') (h' : u.FadesTo u') {r : Ty}
    (hr : Check.binary? op t u = some r) :
    ∃ r', Check.binary? op t' u' = some r' ∧ r.FadesTo r' := by
  unfold Check.binary? at hr ⊢
  cases htier : op.tier <;> rw [htier] at hr <;> dsimp only at hr ⊢
  case factor => exact h.arithmetic h' hr
  case term => exact h.arithmetic h' hr
  case comparison =>
    split at hr
    · rename_i hfits
      rw [Bool.and_eq_true] at hfits
      refine ⟨r, ?_, refl r⟩
      rw [h.fits hfits.1, h'.fits hfits.2]
      exact hr
    · cases hr
  case equality =>
    split at hr
    · rename_i hsame
      have hsame' : t' = u' ∨ t' = .unknown ∨ u' = .unknown := by
        rcases h with rfl | h
        · rcases h' with rfl | h'
          · exact hsame
          · exact Or.inr (Or.inr h')
        · exact Or.inr (Or.inl h)
      exact ⟨r, by rw [if_pos hsame', hr], refl r⟩
    · cases hr

end Ty.FadesTo

/-! ## Faded contexts -/

/-- The same names, with the same types or the unknown one. -/
def Table.FadesTo (s s' : Table Ty) : Prop :=
  ∀ name, Option.Rel Ty.FadesTo (s.get? name) (s'.get? name)

/-- Scope by scope the same names, with the same types or the unknown one. -/
def Context.FadesTo (c c' : Context) : Prop := List.Forall₂ Table.FadesTo c.scopes c'.scopes

theorem option_rel_isSome {α β : Type} {r : α → β → Prop} {a : Option α} {b : Option β}
    (h : Option.Rel r a b) : a.isSome = b.isSome := by
  cases h with
  | none => rfl
  | some => rfl

theorem Table.FadesTo.refl (s : Table Ty) : s.FadesTo s := by
  intro name
  cases s.get? name with
  | none => exact .none
  | some t => exact .some (.refl t)

theorem Table.FadesTo.put {s s' : Table Ty} (h : s.FadesTo s') (name : String) {t t' : Ty}
    (ht : t.FadesTo t') : (s.put name t).FadesTo (s'.put name t') := by
  intro x
  rw [Table.get?_put, Table.get?_put]
  by_cases hx : x = name
  · rw [if_pos hx, if_pos hx]
    exact .some ht
  · rw [if_neg hx, if_neg hx]
    exact h x

theorem Table.FadesTo.contains {s s' : Table Ty} (h : s.FadesTo s') (name : String) :
    s'.contains name = s.contains name := by
  rw [contains_eq_isSome, contains_eq_isSome]
  exact (option_rel_isSome (h name)).symm

namespace Context.FadesTo

variable {c c' : Context}

theorem refl (c : Context) : c.FadesTo c := List.forall₂_same.mpr fun s _ => .refl s

theorem get? (h : c.FadesTo c') (name : String) :
    Option.Rel Ty.FadesTo (c.get? name) (c'.get? name) := by
  obtain ⟨scopes, _⟩ := c
  obtain ⟨scopes', _⟩ := c'
  change List.Forall₂ Table.FadesTo scopes scopes' at h
  change Option.Rel Ty.FadesTo (scopes.findSome? (·.get? name)) (scopes'.findSome? (·.get? name))
  induction h with
  | nil => exact .none
  | @cons s s' rest rest' hs _ ih =>
    rw [List.findSome?_cons, List.findSome?_cons]
    have hhead := hs name
    generalize s.get? name = t at hhead ⊢
    generalize s'.get? name = t' at hhead ⊢
    cases hhead with
    | none => exact ih
    | some ht => exact .some ht

theorem inner (h : c.FadesTo c') : c.inner.FadesTo c'.inner := .cons (.refl _) h

theorem outer (h : c.FadesTo c') : c.outer.FadesTo c'.outer := by
  unfold FadesTo at h
  unfold FadesTo Context.outer
  exact List.forall₂_drop 1 h

theorem declare (h : c.FadesTo c') (name : String) {t t' : Ty} (ht : t.FadesTo t') :
    (c.declare name t).FadesTo (c'.declare name t') := by
  obtain ⟨scopes, _⟩ := c
  obtain ⟨scopes', _⟩ := c'
  unfold FadesTo at h ⊢
  dsimp only at h
  cases h with
  | nil => exact .nil
  | cons hs hrest => exact .cons (hs.put name ht) hrest

theorem declareAll (h : c.FadesTo c') (names : List String) (t : Ty) :
    (c.declareAll names t).FadesTo (c'.declareAll names t) := by
  induction names generalizing c c' with
  | nil => exact h
  | cons name rest ih => exact ih (h.declare name (.refl t))

theorem setFirst {scopes scopes' : List (Table Ty)} (h : List.Forall₂ Table.FadesTo scopes scopes')
    (name : String) {t t' : Ty} (ht : t.FadesTo t') :
    Option.Rel (List.Forall₂ Table.FadesTo) (Context.setFirst name t scopes)
      (Context.setFirst name t' scopes') := by
  induction h with
  | nil => exact .none
  | @cons s s' rest rest' hs hrest ih =>
    unfold Context.setFirst
    rw [hs.contains name]
    split
    · exact .some (.cons (hs.put name ht) hrest)
    · generalize Context.setFirst name t rest = set at ih ⊢
      generalize Context.setFirst name t' rest' = set' at ih ⊢
      cases ih with
      | none => exact .none
      | some hset => exact .some (.cons hs hset)

theorem assign (h : c.FadesTo c') {name : String} {t t' : Ty} (ht : t.FadesTo t') {c1 : Context}
    (hassign : c.assign? name t = some c1) :
    ∃ c1', c'.assign? name t' = some c1' ∧ c1.FadesTo c1' := by
  obtain ⟨scopes, hscopes, rfl⟩ := Option.map_eq_some_iff.mp hassign
  have hset := setFirst h name ht
  rw [hscopes] at hset
  cases hscopes' : Context.setFirst name t' c'.scopes with
  | none =>
    rw [hscopes'] at hset
    cases hset
  | some scopes' =>
    rw [hscopes'] at hset
    cases hset with
    | some hfades =>
      exact ⟨{ c' with scopes := scopes' }, by unfold Context.assign?; rw [hscopes']; rfl, hfades⟩

end Context.FadesTo

/-! ## Checks in faded contexts -/

/-- Where `x` passes, so does `x'` in every context that has faded. What they answer goes together
as `good` says, and the contexts that they leave have faded alike. -/
def Carries {α : Type} (good : α → α → Prop) (x x' : Check α) : Prop :=
  ∀ c c', c.FadesTo c' → ∀ a c1, x c = .ok a c1 →
    ∃ a' c1', x' c' = .ok a' c1' ∧ good a a' ∧ c1.FadesTo c1'

/-- Nothing is said of the answers. -/
abbrev CarriesOn {α : Type} (x x' : Check α) : Prop := Carries (fun _ _ => True) x x'

namespace Carries

variable {α β : Type} {good : α → α → Prop} {good' : β → β → Prop} {x x' : Check α}

theorem pure {a a' : α} (h : good a a') : Carries good (Pure.pure a) (Pure.pure a') := by
  intro c c' hc b c1 hb
  obtain ⟨rfl, rfl⟩ := pure_eq_ok.mp hb
  exact ⟨a', c', rfl, h, hc⟩

theorem bind {f f' : α → Check β} (hx : Carries good x x')
    (hf : ∀ a a', good a a' → Carries good' (f a) (f' a')) :
    Carries good' (x >>= f) (x' >>= f') := by
  intro c c' hc b c2 hb
  obtain ⟨a, c1, h1, h2⟩ := bind_eq_ok.mp hb
  obtain ⟨a', c1', h1', ha, hc1⟩ := hx c c' hc a c1 h1
  obtain ⟨b', c2', h2', hb', hc2⟩ := hf a a' ha c1 c1' hc1 b c2 h2
  exact ⟨b', c2', bind_eq_ok.mpr ⟨a', c1', h1', h2'⟩, hb', hc2⟩

theorem ensure {holds holds' : Bool} {problem problem' : TypeProblem} {line : Int}
    (h : holds = true → holds' = true) :
    CarriesOn (Check.ensure holds problem line) (Check.ensure holds' problem' line) := by
  intro c c' hc u c1 hu
  obtain ⟨hholds, rfl⟩ := ensure_eq_ok.mp hu
  exact ⟨(), c', ensure_eq_ok.mpr ⟨h hholds, rfl⟩, trivial, hc⟩

/-- One check after another, where only what the second answers is of interest. -/
theorem andThen {y y' : Check β} (hx : CarriesOn x x') (hy : Carries good' y y') :
    Carries good' (x >>= fun _ => y) (x' >>= fun _ => y') := hx.bind fun _ _ _ => hy

theorem forM {act act' : α → Check PUnit} {items : List α}
    (each : ∀ a ∈ items, CarriesOn (act a) (act' a)) :
    CarriesOn (items.forM act) (items.forM act') := by
  induction items with
  | nil => exact pure trivial
  | cons a rest ih =>
    exact (each a List.mem_cons_self).andThen (ih fun b hb => each b (List.mem_cons_of_mem _ hb))

theorem declare (name : String) {t t' : Ty} (h : t.FadesTo t') :
    CarriesOn (Check.declare name t) (Check.declare name t') := by
  intro c c' hc u c1 hu
  cases hu
  exact ⟨(), c'.declare name t', rfl, trivial, hc.declare name h⟩

theorem lookup (name : String) (line : Int) :
    Carries Ty.FadesTo (Check.lookup name line) (Check.lookup name line) := by
  intro c c' hc t c1 ht
  obtain ⟨hget, rfl⟩ := lookup_eq_ok.mp ht
  have hrel := hc.get? name
  rw [hget] at hrel
  cases hget' : c'.get? name with
  | none =>
    rw [hget'] at hrel
    cases hrel
  | some t' =>
    rw [hget'] at hrel
    cases hrel with
    | some h => exact ⟨t', c', lookup_eq_ok.mpr ⟨hget', rfl⟩, h, hc⟩

theorem assign (name : String) {t t' : Ty} (h : t.FadesTo t') (line : Int) :
    CarriesOn (Check.assign name t line) (Check.assign name t' line) := by
  intro c c' hc u c1 hu
  obtain ⟨c1', hassign, hc1⟩ := hc.assign h (assign_eq_ok.mp hu)
  exact ⟨(), c1', assign_eq_ok.mpr hassign, trivial, hc1⟩

theorem inScope {body body' : Check Unit} (h : CarriesOn body body') :
    CarriesOn (Check.inScope body) (Check.inScope body') := by
  intro c c' hc u c1 hu
  obtain ⟨c2, hbody, rfl⟩ := inScope_eq_ok.mp hu
  obtain ⟨u', c2', hbody', -, hc2⟩ := h c.inner c'.inner hc.inner _ _ hbody
  exact ⟨(), c2'.outer, inScope_eq_ok.mpr ⟨c2', hbody', rfl⟩, trivial, hc2.outer⟩

theorem noteShadowing (name : String) (line : Int) :
    CarriesOn (Check.noteShadowing name line) (Check.noteShadowing name line) := by
  intro c c' hc u c1 hu
  have hpasses : ∃ c1', Check.noteShadowing name line c' = .ok () c1' := by
    unfold Check.noteShadowing
    by_cases hshadows : ((c'.get? name).isSome && !Builtin.isName name) = true
    · exact ⟨_, bind_eq_ok.mpr ⟨c', c', rfl, by rw [if_pos hshadows]; rfl⟩⟩
    · exact ⟨_, bind_eq_ok.mpr ⟨c', c', rfl, by rw [if_neg hshadows]; rfl⟩⟩
  obtain ⟨c1', hu'⟩ := hpasses
  refine ⟨(), c1', hu', trivial, ?_⟩
  unfold Context.FadesTo
  rw [scopes_of_noteShadowing hu, scopes_of_noteShadowing hu']
  exact hc

theorem atom (mark : Mark Atom) : Carries Ty.FadesTo (Check.atom mark) (Check.atom mark) := by
  unfold Check.atom
  split
  · exact pure (.refl _)
  · exact pure (.refl _)
  · exact pure (.refl _)
  · exact pure (.refl _)
  · exact lookup _ _

theorem unary (op : Mark UnaryOp) {t t' : Ty} (h : t.FadesTo t') :
    Carries Ty.FadesTo (Check.unary op t) (Check.unary op t') := by
  unfold Check.unary
  cases op.kind with
  | minus => exact (ensure h.fits).andThen (pure h)
  | not => exact (ensure h.fits).andThen (pure (.refl _))

end Carries

/-! ## Expressions -/

/-- The type of an expression fades with those of the names. -/
theorem expr_carries : ∀ room (e : Expr),
    Carries Ty.FadesTo (e.check room) (e.check room) := by
  refine expr_check_induction ?shallow ?atom ?unary ?binary ?logical ?assign ?assignIndex
    ?assignField ?choice ?call ?list ?record ?index ?field
  case shallow =>
    intro room e heq c c' _ a c1 h
    rw [heq] at h
    cases h
  case atom =>
    intro room mark
    simp only [Expr.check]
    exact .atom mark
  case unary =>
    intro room op operand ih
    simp only [Expr.check]
    exact ih.bind fun t t' ht => .unary op ht
  case binary =>
    intro room left op right ih ih'
    have part (e : Expr) : Carries Ty.FadesTo
        (if Check.isArithmetic op.kind then e.check room else e.check (room + 1))
        (if Check.isArithmetic op.kind then e.check room else e.check (room + 1)) := by
      split
      · exact ih e
      · exact ih' e
    simp only [Expr.check]
    refine (part left).bind fun a a' ha => (part right).bind fun b b' hb => ?_
    intro c c' hc r c1 hr
    cases hbinary : Check.binary? op.kind a b with
    | none =>
      rw [hbinary] at hr
      cases hr
    | some t =>
      rw [hbinary] at hr
      obtain ⟨rfl, rfl⟩ := pure_eq_ok.mp hr
      obtain ⟨t', ht', hfades⟩ := ha.binary hb hbinary
      exact ⟨t', c', by rw [ht']; rfl, hfades, hc⟩
  case logical =>
    intro room op left right ihl ihr
    simp only [Expr.check]
    refine ihl.bind fun a a' ha => ihr.bind fun b b' hb => ?_
    refine (Carries.ensure fun h => ?_).andThen (.pure (.refl _))
    rw [Bool.and_eq_true] at h ⊢
    exact ⟨ha.fits h.1, hb.fits h.2⟩
  case assign =>
    intro room name value ih
    simp only [Expr.check]
    exact ih.bind fun t t' ht => (Carries.assign name.text ht name.line).andThen (.pure ht)
  case assignIndex =>
    intro room collection place value ihc ihp ihv
    simp only [Expr.check]
    exact ihc.bind fun a a' ha => (Carries.ensure ha.fits).andThen
      (ihp.bind fun i i' hi => (Carries.ensure hi.fits).andThen ihv)
  case assignField =>
    intro room collection key value ihc ihv
    simp only [Expr.check]
    exact ihc.bind fun a a' ha => (Carries.ensure ha.fits).andThen ihv
  case choice =>
    intro room condition yes no ihc ihy ihn
    simp only [Expr.check]
    refine ihc.bind fun b b' hb => (Carries.ensure hb.fits).andThen ?_
    exact ihy.bind fun t t' ht => ihn.bind fun u u' hu => .pure (ht.choice hu)
  case call =>
    intro room callee arguments ihf iha
    simp only [Expr.check]
    refine ihf.bind fun f f' hf => (Carries.ensure hf.fits).andThen ?_
    exact (Carries.forM fun a _ => (iha a).bind fun _ _ _ => .pure trivial).andThen
      (.pure (.refl _))
  case list =>
    intro room line elements ih
    simp only [Expr.check]
    exact (Carries.forM fun e _ => (ih e).bind fun _ _ _ => .pure trivial).andThen
      (.pure (.refl _))
  case record =>
    intro room line entries ih
    simp only [Expr.check]
    exact (Carries.forM fun entry _ => (ih entry.2).bind fun _ _ _ => .pure trivial).andThen
      (.pure (.refl _))
  case index =>
    intro room collection place ihc ihp
    simp only [Expr.check]
    refine ihc.bind fun a a' ha => (Carries.ensure fun h => ?_).andThen ?_
    · rw [Bool.or_eq_true] at h ⊢
      exact h.imp ha.fits ha.fits
    · exact ihp.bind fun i i' hi => (Carries.ensure hi.fits).andThen (.pure (.refl _))
  case field =>
    intro room collection key ih
    simp only [Expr.check]
    exact ih.bind fun a a' ha => (Carries.ensure ha.fits).andThen (.pure (.refl _))

/-! ## Statements -/

theorem carries_list {check : Stmt → Check Unit} {body : List Stmt}
    (h : ∀ s ∈ body, CarriesOn (check s) (check s)) :
    CarriesOn (Check.list check body) (Check.list check body) :=
  (Carries.forM fun name _ => .declare name (.refl _)).andThen (.forM h)

theorem stmt_carries : ∀ room (s : Stmt), CarriesOn (s.check room) (s.check room) := by
  refine stmt_check_induction ?shallow ?block ?funk ?with_ ?for_ ?expression ?print ?makeValue
    ?make ?if_ ?ifElse ?while_ ?returnValue ?return_
  case shallow =>
    intro room s heq c c' _ a c1 h
    rw [heq] at h
    cases h
  case block =>
    intro room line body ih
    simp only [Stmt.check]
    exact .inScope (carries_list fun s _ => ih s)
  case funk =>
    intro room line name params bodyLine body ih
    simp only [Stmt.check]
    refine (Carries.declare name.text (.refl _)).andThen (.inScope ?_)
    exact (Carries.forM fun p _ => .declare p.text (.refl _)).andThen
      (carries_list fun s _ => ih s)
  case with_ =>
    intro room line value name body ih
    simp only [Stmt.check]
    exact (expr_carries _ value).bind fun t t' ht =>
      .inScope ((Carries.declare name.text ht).andThen ih)
  case for_ =>
    intro room line name items body ih
    simp only [Stmt.check]
    refine (expr_carries _ items).bind fun t t' ht => ?_
    refine (Carries.ensure fun h => ?_).andThen
      (.inScope ((Carries.declare name.text (.refl _)).andThen ih))
    rw [beq_iff_eq] at h ⊢
    exact ht.eq_unknown h
  case expression =>
    intro room line value
    simp only [Stmt.check]
    exact (expr_carries _ value).bind fun _ _ _ => .pure trivial
  case print =>
    intro room line value
    simp only [Stmt.check]
    exact (expr_carries _ value).bind fun _ _ _ => .pure trivial
  case makeValue =>
    intro room line name value
    simp only [Stmt.check]
    exact (expr_carries _ value).bind fun t t' ht =>
      (Carries.noteShadowing _ _).andThen (.declare name.text ht)
  case make =>
    intro room line name
    simp only [Stmt.check]
    exact (Carries.pure (Ty.FadesTo.refl .nil)).bind fun t t' ht =>
      (Carries.noteShadowing _ _).andThen (.declare name.text ht)
  case if_ =>
    intro room line condition yes ihy
    simp only [Stmt.check]
    exact (expr_carries _ condition).bind fun t t' ht =>
      (Carries.ensure ht.fits).andThen (ihy.andThen (.pure trivial))
  case ifElse =>
    intro room line condition yes no ihy ihn
    simp only [Stmt.check]
    exact (expr_carries _ condition).bind fun t t' ht =>
      (Carries.ensure ht.fits).andThen (ihy.andThen ihn)
  case while_ =>
    intro room line condition body ih
    simp only [Stmt.check]
    exact (expr_carries _ condition).bind fun t t' ht => (Carries.ensure ht.fits).andThen ih
  case returnValue =>
    intro room line value
    simp only [Stmt.check]
    exact (expr_carries _ value).bind fun _ _ _ => .pure trivial
  case return_ =>
    intro room line
    simp only [Stmt.check]
    exact .pure trivial

/-! ## Visit by visit -/

/-- What stands at a position: the first number counts among `roots`, and each further number
among the children of what the ones before it lead to. -/
def standingAt? {α : Type} (children : α → List α) : (roots : List α) → List Nat → Option α
  | _, [] => none
  | roots, [i] => roots[i]?
  | roots, i :: path => roots[i]?.bind fun a => standingAt? children (children a) path

/-- Visits to one part, which passes, the second in a context that has faded. -/
structure CheckVisit.FadesTo (w w' : CheckVisit) : Prop where
  part : w.part = w'.part
  room : w.room = w'.room
  context : w.context.FadesTo w'.context
  passes : w.Passes

/-- Two visits to each of some parts, in order. -/
inductive Abreast : List Part → List CheckVisit → List CheckVisit → Prop
  | nil : Abreast [] [] []
  | cons {parts w visits w' visits'} (first : CheckVisit.FadesTo w w')
    (others : Abreast parts visits visits') :
    Abreast (w.part :: parts) (w :: visits) (w' :: visits')

section Visits

variable {room : Nat} {c c' c1 : Context} {parts : List Part} {visits visits' : List CheckVisit}

theorem Abreast.expr {e : Expr} {t : Ty} (hc : c.FadesTo c') (h : e.check room c = .ok t c1)
    (others : Abreast parts visits visits') :
    Abreast (.expr e :: parts) (checkExpr room e c :: visits) (checkExpr room e c' :: visits') := by
  have hfades : (checkExpr room e c).FadesTo (checkExpr room e c') := ⟨rfl, rfl, hc, t, c1, h⟩
  exact .cons hfades others

theorem Abreast.stmt {s : Stmt} (hc : c.FadesTo c') (h : s.check room c = .ok () c1)
    (others : Abreast parts visits visits') :
    Abreast (.stmt s :: parts) (checkStmt room s c :: visits) (checkStmt room s c' :: visits') := by
  have hfades : (checkStmt room s c).FadesTo (checkStmt room s c') := ⟨rfl, rfl, hc, c1, h⟩
  exact .cons hfades others

/-- After an expression, visits in the context that it leaves. -/
theorem Abreast.after {e : Expr} {t : Ty} (hc : c.FadesTo c') (h : e.check room c = .ok t c1)
    {next : Ty → Context → List CheckVisit}
    (others : ∀ t' c1', t.FadesTo t' → c1.FadesTo c1' → Abreast parts (next t c1) (next t' c1')) :
    Abreast (.expr e :: parts) (checkExpr room e c :: andThen (e.check room c) next)
      (checkExpr room e c' :: andThen (e.check room c') next) := by
  obtain ⟨t', c1', h', ht, hc1⟩ := expr_carries room e c c' hc t c1 h
  refine .expr hc h ?_
  rw [h, h']
  exact others t' c1' ht hc1

theorem abreast_of_chain {es : List Expr} {ts : List Ty} (h : Chain room es c ts c1)
    (hc : c.FadesTo c') :
    Abreast (es.map .expr) (eachVisit (checkExpr room) (fun e => e.check room) es c)
      (eachVisit (checkExpr room) (fun e => e.check room) es c') := by
  induction h generalizing c' with
  | nil => exact .nil
  | cons first _ ih => exact .after hc first fun _ _ _ hc1 => ih hc1

theorem abreast_of_stmtChain {body : List Stmt} (h : StmtChain room body c c1)
    (hc : c.FadesTo c') :
    Abreast (body.map .stmt) (eachVisit (checkStmt room) (fun s => s.check room) body c)
      (eachVisit (checkStmt room) (fun s => s.check room) body c') := by
  induction h generalizing c' with
  | nil => exact .nil
  | @cons s rest c c1 c2 first _ ih =>
    obtain ⟨_, c1', first', -, hc1⟩ := stmt_carries room s c c' hc () c1 first
    refine .stmt hc first ?_
    dsimp only
    rw [first, first']
    exact ih hc1

/-- Where a part passes, each part that stands in it is visited, and passes. -/
theorem CheckVisit.FadesTo.opens {w w' : CheckVisit} (h : w.FadesTo w') :
    Abreast w.part.subparts w.opens w'.opens := by
  obtain ⟨part, room, c⟩ := w
  obtain ⟨part', room', c'⟩ := w'
  obtain ⟨hpart, hroom, hc, hpasses⟩ := h
  cases hpart
  cases hroom
  cases part with
  | expr e =>
    obtain ⟨t, c1, hcheck⟩ := hpasses
    obtain ⟨k, ts, c2, hk, hchain, -⟩ := rule_of_check _ _ _ _ _ hcheck
    simp only [CheckVisit.opens, hk]
    exact abreast_of_chain hchain hc
  | stmt s =>
    obtain ⟨c1, hcheck⟩ := hpasses
    cases passes_of_check _ _ _ _ hcheck with
    | expression h => exact .expr hc h .nil
    | print h => exact .expr hc h .nil
    | make => exact .nil
    | makeValue h => exact .expr hc h .nil
    | return_ => exact .nil
    | returnValue h => exact .expr hc h .nil
    | block h => exact abreast_of_stmtChain h (hc.inner.declareAll _ _)
    | if_ h _ hbranches =>
      exact .after hc h fun _ _ _ hc1 => abreast_of_stmtChain hbranches hc1
    | while_ h _ hbody => exact .after hc h fun _ _ _ hc1 => .stmt hc1 hbody .nil
    | funk h =>
      refine abreast_of_stmtChain h ?_
      exact (((hc.declare _ (.refl _)).inner).declareAll _ _).declareAll _ _
    | with_ h hbody =>
      exact .after hc h fun _ _ ht hc1 => .stmt (hc1.inner.declare _ ht) hbody .nil
    | for_ h hbody =>
      exact .after hc h fun _ _ _ hc1 => .stmt (hc1.inner.declare _ (.refl _)) hbody .nil

/-- At each position of the parts, two visits to the part that stands there. -/
theorem Abreast.at (h : Abreast parts visits visits') {path : List Nat} {p : Part}
    (hp : standingAt? Part.subparts parts path = some p) :
    ∃ w w', standingAt? CheckVisit.opens visits path = some w ∧
      standingAt? CheckVisit.opens visits' path = some w' ∧ w.part = p ∧ w.FadesTo w' := by
  have nth {parts : List Part} {visits visits' : List CheckVisit} {i : Nat} {p : Part}
      (h : Abreast parts visits visits') (hp : parts[i]? = some p) :
      ∃ w w', visits[i]? = some w ∧ visits'[i]? = some w' ∧ w.part = p ∧ w.FadesTo w' := by
    induction h generalizing i with
    | nil => simp at hp
    | @cons parts w visits w' visits' first others ih =>
      cases i with
      | zero => exact ⟨w, w', rfl, rfl, Option.some.inj hp, first⟩
      | succ i => exact ih hp
  induction path generalizing parts visits visits' with
  | nil => cases hp
  | cons i path ih =>
    cases path with
    | nil => exact nth h hp
    | cons j path =>
      obtain ⟨q, hq, hp⟩ := Option.bind_eq_some_iff.mp hp
      obtain ⟨u, u', hu, hu', rfl, hfades⟩ := nth h hq
      obtain ⟨w, w', hw, hw', hpart, hww'⟩ := ih hfades.opens hp
      refine ⟨w, w', ?_, ?_, hpart, hww'⟩
      · rw [standingAt?, hu]
        · exact hw
        · exact fun h => nomatch h
      · rw [standingAt?, hu']
        · exact hw'
        · exact fun h => nomatch h

end Visits

/-- What passes where the types of the names are known better passes where some of them have
faded to the unknown one. The contexts that the two checks leave have faded alike, and so have the
types that they find for each expression of the program. -/
theorem check_passes_with_less_known {room : Nat} {program : List Stmt} {c c' c1 : Context}
    (hfades : c.FadesTo c') (hpasses : checkProgram room program c = .ok () c1) :
    ∃ c1', checkProgram room program c' = .ok () c1' ∧ c1.FadesTo c1' ∧
      ∀ path e, standingAt? Part.subparts (program.map .stmt) path = some (.expr e) →
        ∃ k d d' t t' d1 d1',
          standingAt? CheckVisit.opens (checkAll room program c) path = some (checkExpr k e d) ∧
          standingAt? CheckVisit.opens (checkAll room program c') path = some (checkExpr k e d') ∧
          d.FadesTo d' ∧ e.check k d = .ok t d1 ∧ e.check k d' = .ok t' d1' ∧ t.FadesTo t' := by
  have hall : CarriesOn (checkProgram room program) (checkProgram room program) :=
    carries_list fun s _ => stmt_carries room s
  obtain ⟨_, c1', hpasses', -, hc1⟩ := hall c c' hfades () c1 hpasses
  refine ⟨c1', hpasses', hc1, ?_⟩
  intro path e he
  have habreast := abreast_of_stmtChain (stmtChain_of_list hpasses)
    (hfades.declareAll (functionNames program) .function)
  obtain ⟨w, w', hw, hw', hpart, hww'⟩ := habreast.at he
  obtain ⟨part, k, d⟩ := w
  obtain ⟨part', k', d'⟩ := w'
  obtain ⟨hsame, hroom, hd, hcheck⟩ := hww'
  cases hsame
  cases hroom
  cases hpart
  obtain ⟨t, d1, hcheck⟩ := hcheck
  obtain ⟨t', d1', hcheck', ht, -⟩ := expr_carries k e d d' hd t d1 hcheck
  exact ⟨k, d, d', t, t', d1, d1', hw, hw', hd, hcheck, hcheck', ht⟩

/-- A number is added to a variable. -/
def growing : List Stmt :=
  [.expression 1 (.assign ⟨"x", 1⟩
    (.binary (.atom ⟨.name, "x", 1⟩) ⟨.plus, "+", 1⟩ (.atom ⟨.number, "1", 1⟩)))]

/-- The sum passes also where the type of the variable is unknown, and then its own type is. -/
theorem a_sum_passes_with_less_known :
    (Context.start.declare "x" .number).FadesTo (Context.start.declare "x" .unknown) ∧
      (∃ c, checkProgram 20 growing (Context.start.declare "x" .number) = .ok () c) ∧
      (∃ c', checkProgram 20 growing (Context.start.declare "x" .unknown) = .ok () c') ∧
      ∃ k e d d' d1 d1', standingAt? Part.subparts (growing.map .stmt) [0, 0] = some (.expr e) ∧
        e.check k d = .ok .number d1 ∧ e.check k d' = .ok .unknown d1' ∧ d.FadesTo d' := by
  have hfades : (Context.start.declare "x" .number).FadesTo (Context.start.declare "x" .unknown) :=
    (Context.FadesTo.refl _).declare "x" (.unknown _)
  obtain ⟨c, hpasses⟩ :
      ∃ c, checkProgram 20 growing (Context.start.declare "x" .number) = .ok () c := ⟨_, rfl⟩
  obtain ⟨c', hpasses', -, htypes⟩ := check_passes_with_less_known hfades hpasses
  obtain ⟨k, d, d', t, t', d1, d1', hw, hw', hd, ht, ht', -⟩ := htypes [0, 0] _ rfl
  cases hw
  cases hw'
  obtain rfl : t = .number := by
    cases ht
    rfl
  obtain rfl : t' = .unknown := by
    cases ht'
    rfl
  exact ⟨hfades, ⟨c, hpasses⟩, ⟨c', hpasses'⟩, _, _, _, _, _, _, rfl, ht, ht', hd⟩

end FunkLang
