-- What a check promises about a program: a type for each name, types for its
-- expressions that fit together under these, and statements that agree with
-- them. A run needs to know no more than this.
import FunkLang.Proofs.CheckVisit
import Mathlib.Data.List.Forall2

namespace FunkLang

/-! ## Judgements -/

/-- A statement agrees with the types of names, given what is known of its parts. -/
inductive Stmt.Judged (binds : String → Ty → Prop) (typed : Expr → Ty → Prop)
    (fine : Stmt → Prop) : Stmt → Prop
  | expression {line value t} (h : typed value t) : Judged binds typed fine (.expression line value)
  | print {line value t} (h : typed value t) : Judged binds typed fine (.print line value)
  | make {line name} (ht : binds name.text .nil) : Judged binds typed fine (.make line name none)
  | makeValue {line name value t} (h : typed value t) (ht : binds name.text t) :
    Judged binds typed fine (.make line name (some value))
  | return_ {line} : Judged binds typed fine (.return_ line none)
  | returnValue {line value t} (h : typed value t) :
    Judged binds typed fine (.return_ line (some value))
  | block {line body} (h : ∀ s ∈ body, fine s) : Judged binds typed fine (.block line body)
  | if_ {line condition yes no t} (h : typed condition t) (ht : t.fits .boolean = true)
    (hbranches : ∀ s ∈ yes :: no.toList, fine s) :
    Judged binds typed fine (.if_ line condition yes no)
  | while_ {line condition body t} (h : typed condition t) (ht : t.fits .boolean = true)
    (hbody : fine body) : Judged binds typed fine (.while_ line condition body)
  | funk {line name params bodyLine body} (hname : binds name.text .function)
    (hparams : ∀ p ∈ params, binds p.text .unknown) (hbody : ∀ s ∈ body, fine s) :
    Judged binds typed fine (.funk line name params bodyLine body)
  | with_ {line value name body t} (h : typed value t) (ht : binds name.text t)
    (hbody : fine body) : Judged binds typed fine (.with_ line value name body)
  | for_ {line name items body} (h : typed items .unknown) (ht : binds name.text .unknown)
    (hbody : fine body) : Judged binds typed fine (.for_ line name items body)

/-- Types for the names of a program, and for its expressions. -/
structure Typing where
  binds : String → Ty → Prop
  typed : Expr → Ty → Prop
  fine : Stmt → Prop
  unique : ∀ {n t t'}, binds n t → binds n t' → t = t'
  builtin : ∀ b : Builtin, binds b.name .function
  rule : ∀ {e t}, typed e t → ∃ ts, List.Forall₂ typed e.parts ts ∧ e.Rule binds ts t
  judged : ∀ {s}, fine s → s.Judged binds typed fine

/-- The parts of a program that the types are for. -/
def Typing.Admits (T : Typing) : Part → Prop
  | .expr e => ∃ t, T.typed e t
  | .stmt s => T.fine s

end FunkLang
