-- What a check notes of shadowed names. Nothing in a check depends on the notes that were made
-- before, so it comes to the same with others, in the same scopes.
import FunkLang.Proofs.BracedChecks

namespace FunkLang

open Pairing

/-- Contexts with the same scopes, whatever was noted. -/
def scopedChecks : Pairing TypeError Context Unit where
  short e := e.problem = .tooDeep
  related _ c c' := c'.scopes = c.scopes
  grows _ _ := True
  grows_refl _ := trivial
  grows_trans _ _ := trivial

/-- A check that comes to the same in contexts with the same scopes. -/
abbrev Noteless {α : Type} (x : Check α) : Prop := scopedChecks.Alike False False x x

namespace Noteless

variable {α β : Type} {x : Check α}

theorem ensure (holds : Bool) (problem : TypeProblem) (line : Int) :
    Noteless (Check.ensure holds problem line) := by
  unfold Check.ensure
  cases holds with
  | true => exact .pure ()
  | false => exact .throw _

theorem get?_eq {c c' : Context} (h : c'.scopes = c.scopes) (name : String) :
    c'.get? name = c.get? name := by
  unfold Context.get?
  rw [h]

theorem lookup (name : String) (line : Int) : Noteless (Check.lookup name line) := by
  refine .get fun w c c' hc => ?_
  rw [get?_eq hc]
  cases c.get? name with
  | some t => exact .ok trivial hc
  | none => exact .error trivial hc

theorem assign (name : String) (t : Ty) (line : Int) : Noteless (Check.assign name t line) := by
  refine .get fun w c c' hc => ?_
  have hset : Context.setFirst name t c'.scopes = Context.setFirst name t c.scopes :=
    congrArg (Context.setFirst name t) hc
  unfold Context.assign?
  rw [hset]
  cases Context.setFirst name t c.scopes with
  | none => exact .error trivial hc
  | some scopes => exact .ok (scopedChecks.grows_refl w) (Eq.refl scopes)

theorem declare (name : String) (t : Ty) : Noteless (Check.declare name t) :=
  .modify fun _ _ _ hc => congrArg (List.modifyHead _) hc

theorem noteShadowing (name : String) (line : Int) : Noteless (Check.noteShadowing name line) := by
  refine .get fun w c c' hc => ?_
  rw [get?_eq hc]
  split
  · exact .ok (scopedChecks.grows_refl w) hc
  · exact .ok (scopedChecks.grows_refl w) hc

theorem inScope (h : Noteless x) : Noteless (Check.inScope x) := by
  intro w c c' hc
  rw [inScope_eq_recast, inScope_eq_recast]
  have hinner : c'.inner.scopes = c.inner.scopes := congrArg (Table.empty :: ·) hc
  exact (h w c.inner c'.inner hinner).recast (fun _ he => he)
    fun v d d' _ hd => ⟨v, trivial, congrArg (List.drop 1) hd⟩

theorem forM {act : β → Check PUnit} (each : ∀ b, Noteless (act b)) (items : List β) :
    Noteless (items.forM act) := Alike.forM (List.forall₂_same.mpr fun b _ => each b)

theorem atom (mark : Mark Atom) : Noteless (Check.atom mark) := by
  unfold Check.atom
  split
  · exact .pure _
  · exact .pure _
  · exact .pure _
  · exact .pure _
  · exact lookup _ _

theorem unary (op : Mark UnaryOp) (t : Ty) : Noteless (Check.unary op t) := by
  unfold Check.unary
  split
  · exact (ensure _ _ _).bind fun _ => .pure _
  · exact (ensure _ _ _).bind fun _ => .pure _

/-! ## Trees -/

theorem expr : ∀ room (e : Expr), Noteless (e.check room) := by
  refine expr_check_induction ?shallow ?atom ?unary ?binary ?logical ?assign ?assignIndex
    ?assignField ?choice ?call ?list ?record ?index ?field
  case shallow =>
    intro room e h
    rw [h]
    exact .throw _
  case atom =>
    intro room mark
    simp only [Expr.check]
    exact atom mark
  case unary =>
    intro room op operand ih
    simp only [Expr.check]
    exact ih.bind fun t => unary op t
  case binary =>
    intro room left op right ih ih'
    simp only [Expr.check]
    have part (e : Expr) :
        Noteless (if Check.isArithmetic op.kind then e.check room else e.check (room + 1)) := by
      split
      · exact ih e
      · exact ih' e
    refine (part left).bind fun a => (part right).bind fun b => ?_
    cases Check.binary? op.kind a b with
    | some t => exact .pure t
    | none => exact .throw _
  case logical =>
    intro room op left right ihl ihr
    simp only [Expr.check]
    exact ihl.bind fun a => ihr.bind fun b => (ensure _ _ _).bind fun _ => .pure _
  case assign =>
    intro room name value ih
    simp only [Expr.check]
    exact ih.bind fun t => (assign _ _ _).bind fun _ => .pure _
  case assignIndex =>
    intro room collection place value ihc ihp ihv
    simp only [Expr.check]
    exact ihc.bind fun c => (ensure _ _ _).bind fun _ => ihp.bind fun i =>
      (ensure _ _ _).bind fun _ => ihv
  case assignField =>
    intro room collection key value ihc ihv
    simp only [Expr.check]
    exact ihc.bind fun c => (ensure _ _ _).bind fun _ => ihv
  case choice =>
    intro room condition yes no ihc ihy ihn
    simp only [Expr.check]
    exact ihc.bind fun c => (ensure _ _ _).bind fun _ => ihy.bind fun a => ihn.bind fun b => .pure _
  case call =>
    intro room callee arguments ihf iha
    simp only [Expr.check]
    refine ihf.bind fun f => (ensure _ _ _).bind fun _ => ?_
    exact (forM (fun a => (iha a).bind fun _ => .pure _) _).bind fun _ => .pure _
  case list =>
    intro room line elements ih
    simp only [Expr.check]
    exact (forM (fun e => (ih e).bind fun _ => .pure _) _).bind fun _ => .pure _
  case record =>
    intro room line entries ih
    simp only [Expr.check]
    exact (forM (fun entry => (ih entry.2).bind fun _ => .pure _) _).bind fun _ => .pure _
  case index =>
    intro room collection place ihc ihp
    simp only [Expr.check]
    exact ihc.bind fun c => (ensure _ _ _).bind fun _ => ihp.bind fun i =>
      (ensure _ _ _).bind fun _ => .pure _
  case field =>
    intro room collection key ih
    simp only [Expr.check]
    exact ih.bind fun c => (ensure _ _ _).bind fun _ => .pure _

theorem list {check : Stmt → Check Unit} (each : ∀ s, Noteless (check s)) (body : List Stmt) :
    Noteless (Check.list check body) := by
  unfold Check.list
  exact (forM (fun name => declare name .function) _).bind fun _ => forM each body

/-- A body in a scope of its own, with a name. -/
theorem named {s : Check Unit} (h : Noteless s) (name : String) (t : Ty) :
    Noteless (Check.inScope do Check.declare name t; s) :=
  inScope ((declare name t).bind fun _ => h)

theorem stmt : ∀ room (s : Stmt), Noteless (s.check room) := by
  refine stmt_check_induction ?shallow ?block ?funk ?with_ ?for_ ?expression ?print ?makeValue ?make
    ?if_ ?ifElse ?while_ ?returnValue ?return_
  case shallow =>
    intro room s h
    rw [h]
    exact .throw _
  case block =>
    intro room line body ih
    simp only [Stmt.check]
    exact inScope (list ih body)
  case funk =>
    intro room line name params bodyLine body ih
    simp only [Stmt.check]
    refine (declare _ _).bind fun _ => inScope ?_
    exact (forM (fun p => declare p.text .unknown) params).bind fun _ => list ih body
  case with_ =>
    intro room line value name body ih
    simp only [Stmt.check]
    exact (expr _ value).bind fun t => named ih name.text t
  case for_ =>
    intro room line name items body ih
    simp only [Stmt.check]
    exact (expr _ items).bind fun t => (ensure _ _ _).bind fun _ => named ih name.text .unknown
  case expression | print =>
    intro room line value
    simp only [Stmt.check]
    exact (expr _ value).bind fun _ => .pure _
  case makeValue =>
    intro room line name value
    simp only [Stmt.check]
    exact (expr _ value).bind fun t => (noteShadowing _ _).bind fun _ => declare _ _
  case make =>
    intro room line name
    simp only [Stmt.check]
    exact Alike.bind (.pure Ty.nil) fun t => (noteShadowing _ _).bind fun _ => declare _ _
  case if_ =>
    intro room line condition yes ih
    simp only [Stmt.check]
    exact (expr _ condition).bind fun c => (ensure _ _ _).bind fun _ => ih.bind fun _ => .pure _
  case ifElse =>
    intro room line condition yes no ihy ihn
    simp only [Stmt.check]
    exact (expr _ condition).bind fun c => (ensure _ _ _).bind fun _ => ihy.bind fun _ => ihn
  case while_ =>
    intro room line condition body ih
    simp only [Stmt.check]
    exact (expr _ condition).bind fun c => (ensure _ _ _).bind fun _ => ih
  case returnValue =>
    intro room line value
    simp only [Stmt.check]
    exact (expr _ value).bind fun _ => .pure _
  case return_ =>
    intro room line
    simp only [Stmt.check]
    exact .pure _

end Noteless

end FunkLang
