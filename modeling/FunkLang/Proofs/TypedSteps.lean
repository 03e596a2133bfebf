-- Operators on values of their types. Where the values of the operands fit
-- types that a check accepts, the value of the operation fits the type that
-- the check finds, and a value of the wrong kind can only turn up at an
-- operand of unknown type.
import FunkLang.Proofs.LocalSteps
import FunkLang.Proofs.Typings

namespace FunkLang

/-! ## Values and types -/

/-- The type of the values of a kind. A check knows no type for iters. -/
def ValueKind.ty : ValueKind → Ty
  | nil => .nil
  | boolean => .boolean
  | number => .number
  | string => .string
  | builtin => .function
  | function => .function
  | list => .list
  | iter => .unknown
  | record => .record

/-- Is this a value of a type? All values are of the unknown type. -/
def Value.Fits (v : Value) (t : Ty) : Prop := t = .unknown ∨ v.kind.ty = t

theorem Value.fits_unknown (v : Value) : v.Fits .unknown := Or.inl rfl

namespace Value.Fits

variable {v : Value} {t : Ty}

/-- The name of a type is the name of the kind of its values, but for built-in functions. -/
theorem name (h : v.Fits t) (known : t ≠ .unknown) :
    v.kind.name = t.name ∨ v.kind = .builtin ∧ t = .function := by
  have ht : v.kind.ty = t := h.resolve_left known
  subst ht
  cases v with
  | iter i => exact absurd rfl known
  | builtin b => exact Or.inr ⟨rfl, rfl⟩
  | _ => exact Or.inl rfl

/-- A value of another type than the one that is asked for has passed as of unknown type. -/
theorem unknown_of_ne {wanted : Ty} (h : v.Fits t) (ht : t.fits wanted = true)
    (hne : v.kind.ty ≠ wanted) : t = .unknown := by
  unfold Ty.fits at ht
  rw [Bool.or_eq_true, beq_iff_eq, beq_iff_eq] at ht
  rcases ht with ht | rfl
  · exact ht
  · exact h.resolve_right hne

theorem number (h : v.Fits .number) : ∃ n, v = .number n := by
  cases v with
  | number n => exact ⟨n, rfl⟩
  | _ => exact absurd h (by simp [Value.Fits, Value.kind, ValueKind.ty])

theorem string (h : v.Fits .string) : ∃ s, v = .string s := by
  cases v with
  | string s => exact ⟨s, rfl⟩
  | _ => exact absurd h (by simp [Value.Fits, Value.kind, ValueKind.ty])

/-- The type of a choice is that of both its values, if they have the same. -/
theorem choice {t' : Ty} (h : v.Fits t ∨ v.Fits t') :
    v.Fits (if t = t' then t else .unknown) := by
  by_cases heq : t = t'
  · subst heq
    rw [if_pos rfl]
    exact h.elim id id
  · rw [if_neg heq]
    exact v.fits_unknown

end Value.Fits

/-! ## Answers -/

/-- A value of the wrong kind was found. -/
def Stop.isMismatch : Stop → Bool
  | .fault f => f.cause.isMismatch
  | _ => false

/-- An answer is as `good` says, and a value of the wrong kind is only found if `unsure` holds. -/
def Answers {α : Type} (good : α → Prop) (unsure : Prop) (x : Run α) : Prop :=
  ∀ m, Ends (fun a _ => good a) (fun stop _ => stop.isMismatch = true → unsure) (x m)

namespace Answers

variable {α β : Type} {good : α → Prop} {unsure : Prop}

theorem pure {a : α} (h : good a) : Answers good unsure (Pure.pure a : Run α) := fun _ => h

theorem fail {cause : FaultCause} {line : Int} (h : cause.isMismatch = true → unsure) :
    Answers good unsure (Run.fail cause line : Run α) := fun _ => h

theorem bind {x : Run α} {f : α → Run β} {good' : β → Prop} (hx : Answers good unsure x)
    (hf : ∀ a, good a → Answers good' unsure (f a)) : Answers good' unsure (x >>= f) := by
  intro m
  rw [ends_bind]
  exact (hx m).imp (fun a m1 ha => hf a ha m1) fun _ _ h => h

theorem get : Answers (fun _ => True) unsure (MonadState.get : Run Machine) := fun _ => trivial

theorem modified {f : Machine → Machine} :
    Answers (fun _ => True) unsure (modify f : Run Unit) := fun _ => trivial

theorem imp {unsure' : Prop} {x : Run α} (h : Answers good unsure x) (himp : unsure → unsure') :
    Answers good unsure' x := fun m =>
  (h m).imp (fun _ _ ha => ha) fun _ _ hbad hm => himp (hbad hm)

theorem fitting (a? : Option α) : Answers (fun _ => True) unsure (Run.fitting a?) := by
  cases a? with
  | some a => exact pure trivial
  | none => exact fun m hm => absurd hm (by simp [Stop.isMismatch])

end Answers

/-! ## Operators -/

namespace Run

variable {sees : String → Ty → Prop} {v w u : Value} {a b i t : Ty}

theorem answers_truth {by_ : Condition} {line : Int} (hv : v.Fits t)
    (ht : t.fits .boolean = true) :
    Answers (fun _ => True) (t = .unknown) (truth by_ v line) := by
  cases v with
  | bool b => exact .pure trivial
  | _ => exact .fail fun _ => hv.unknown_of_ne ht nofun

theorem answers_unary {op : Mark UnaryOp} {operand : Expr}
    (rule : (Expr.unary op operand).Rule sees [a] t) (hv : v.Fits a) :
    Answers (fun r => r.Fits t) (a = .unknown) (unary op v) := by
  unfold unary
  cases rule with
  | minus hop ht =>
    rw [hop]
    cases v with
    | number n => exact .pure hv
    | _ => exact .fail fun _ => hv.unknown_of_ne ht nofun
  | not hop ht =>
    rw [hop]
    exact (answers_truth hv ht).bind fun b _ => .pure (Or.inr rfl)

theorem answers_numeric {op : Mark BinaryOp} {combine : Number → Number → Value} {at_ : Expr}
    {good : Value → Prop} (hv : v.Fits a) (hw : w.Fits b) (h : ∀ x y, good (combine x y))
    (ha : a.fits .number = true) (hb : b.fits .number = true) :
    Answers good (a = .unknown ∨ b = .unknown) (numeric op combine at_ v w) := by
  cases v with
  | number x =>
    cases w with
    | number y => exact .pure (h x y)
    | _ => exact .fail fun _ => Or.inr (hw.unknown_of_ne hb nofun)
  | _ => exact .fail fun _ => Or.inl (hv.unknown_of_ne ha nofun)

/-- The types of the operands of a sum, a difference, a product or a quotient, and its own. -/
theorem arithmetic_cases {op : BinaryOp} (h : Check.arithmetic? op a b = some t) :
    ((a = .unknown ∨ b = .unknown) ∧ t = .unknown) ∨ (a = .number ∧ b = .number ∧ t = .number) ∨
      (op = .plus ∧ a = .string ∧ b = .string ∧ t = .string) := by
  unfold Check.arithmetic? at h
  split at h
  · rename_i hunknown
    exact Or.inl ⟨hunknown, (Option.some.inj h).symm⟩
  · split at h
    · rename_i hnumber
      exact Or.inr (Or.inl ⟨hnumber.1, hnumber.2, (Option.some.inj h).symm⟩)
    · split at h
      · rename_i hstring
        exact Or.inr (Or.inr ⟨hstring.1, hstring.2.1, hstring.2.2, (Option.some.inj h).symm⟩)
      · cases h

theorem answers_plus {at_ : Expr} (h : Check.arithmetic? .plus a b = some t) (hv : v.Fits a)
    (hw : w.Fits b) {op : Mark BinaryOp} (hop : op.kind = .plus) (room : Nat) :
    Answers (fun r => r.Fits t) (a = .unknown ∨ b = .unknown) (binary room op at_ v w) := by
  unfold binary
  rw [hop]
  rcases arithmetic_cases h with ⟨hunknown, rfl⟩ | ⟨rfl, rfl, rfl⟩ | ⟨_, rfl, rfl, rfl⟩
  · dsimp only
    split
    · exact .pure (Value.fits_unknown _)
    · exact .pure (Value.fits_unknown _)
    · exact .fail fun _ => hunknown
  · obtain ⟨x, rfl⟩ := hv.number
    obtain ⟨y, rfl⟩ := hw.number
    exact .pure (Or.inr rfl)
  · obtain ⟨x, rfl⟩ := hv.string
    obtain ⟨y, rfl⟩ := hw.string
    exact .pure (Or.inr rfl)

/-- A difference, a product or a quotient. -/
theorem answers_arithmetic {op : Mark BinaryOp} {kind : BinaryOp}
    {combine : Number → Number → Number} {at_ : Expr} (h : Check.arithmetic? kind a b = some t)
    (hkind : kind ≠ .plus) (hv : v.Fits a) (hw : w.Fits b) :
    Answers (fun r => r.Fits t) (a = .unknown ∨ b = .unknown)
      (numeric op (fun x y => .number (combine x y)) at_ v w) := by
  rcases arithmetic_cases h with ⟨hunknown, rfl⟩ | ⟨rfl, rfl, rfl⟩ | ⟨hplus, _⟩
  · unfold numeric
    split
    · exact .pure (Value.fits_unknown _)
    · exact .fail fun _ => hunknown
    · exact .fail fun _ => hunknown
  · exact answers_numeric hv hw (fun x y => Or.inr rfl) rfl rfl
  · exact absurd hplus hkind

theorem answers_comparison {op : Mark BinaryOp} {combine : Number → Number → Bool} {at_ : Expr}
    (h : (if a.fits .number && b.fits .number then some Ty.boolean else none) = some t)
    (hv : v.Fits a) (hw : w.Fits b) :
    Answers (fun r => r.Fits t) (a = .unknown ∨ b = .unknown)
      (numeric op (fun x y => .bool (combine x y)) at_ v w) := by
  split at h
  · rename_i hnumbers
    cases h
    rw [Bool.and_eq_true] at hnumbers
    exact answers_numeric hv hw (fun x y => Or.inr rfl) hnumbers.1 hnumbers.2
  · cases h

theorem answers_equality {room : Nat} {result : Bool → Bool}
    (h : (if a = b ∨ a = .unknown ∨ b = .unknown then some Ty.boolean else none) = some t) :
    Answers (fun r : Value => r.Fits t) (a = .unknown ∨ b = .unknown) (do
      return .bool (result (← fitting (v.same? (← get).heap room w)))) := by
  split at h
  · cases h
    exact .bind .get fun m _ => .bind (.fitting _) fun same _ => .pure (Or.inr rfl)
  · cases h

theorem answers_binary {room : Nat} {op : Mark BinaryOp} {left right : Expr}
    (rule : (Expr.binary left op right).Rule sees [a, b] t) (hv : v.Fits a) (hw : w.Fits b) :
    Answers (fun r => r.Fits t) (a = .unknown ∨ b = .unknown) (binary room op left v w) := by
  cases rule with
  | binary h =>
    cases hop : op.kind <;> rw [hop] at h
    case plus => exact answers_plus h hv hw hop room
    case equal =>
      unfold binary
      rw [hop]
      exact answers_equality h
    case unequal =>
      unfold binary
      rw [hop]
      exact answers_equality h
    case minus | times | divide =>
      unfold binary
      rw [hop]
      exact answers_arithmetic h nofun hv hw
    case less | lessEqual | greater | greaterEqual =>
      unfold binary
      rw [hop]
      exact answers_comparison h hv hw

/-! ## Elements and fields -/

theorem answers_slot {length : Nat} {line : Int} (hv : v.Fits i) (hi : i.fits .number = true) :
    Answers (fun _ => True) (i = .unknown) (slot length v line) := by
  cases v with
  | number n =>
    unfold slot
    dsimp only
    split
    · split
      · exact .pure trivial
      · exact .fail nofun
    · exact .fail nofun
  | _ => exact .fail fun _ => hv.unknown_of_ne hi nofun

theorem answers_element {collection place : Expr}
    (rule : (Expr.index collection place).Rule sees [a, i] t) (hv : v.Fits a) (hw : w.Fits i) :
    Answers (fun r => r.Fits t) (a = .unknown ∨ i = .unknown) (element collection v w) := by
  cases rule with
  | index ha hi =>
    unfold element
    split
    · refine .bind .get fun m _ => .bind ((answers_slot hw hi).imp Or.inr) fun k _ => ?_
      exact .pure (Value.fits_unknown _)
    · refine .bind ((answers_slot hw hi).imp Or.inr) fun k _ => ?_
      exact .pure (Value.fits_unknown _)
    · rename_i hlist hstring
      refine .fail fun _ => Or.inl ?_
      rw [Bool.or_eq_true] at ha
      cases v with
      | list l => exact absurd rfl (hlist l)
      | string s => exact absurd rfl (hstring s)
      | _ => exact ha.elim (hv.unknown_of_ne · nofun) (hv.unknown_of_ne · nofun)

theorem answers_setElement {collection place value : Expr}
    (rule : (Expr.assignIndex collection place value).Rule sees [a, i, b] t) (hv : v.Fits a)
    (hw : w.Fits i) (hu : u.Fits b) :
    Answers (fun r => r.Fits t) (a = .unknown ∨ i = .unknown) (setElement collection v w u) := by
  cases rule with
  | assignIndex ha hi =>
    cases v with
    | list l =>
      refine .bind .get fun m _ => .bind ((answers_slot hw hi).imp Or.inr) fun k _ => ?_
      exact .bind .modified fun _ _ => .pure hu
    | _ => exact .fail fun _ => Or.inl (hv.unknown_of_ne ha nofun)

theorem answers_field {collection : Expr} {key : Name}
    (rule : (Expr.field collection key).Rule sees [a] t) (hv : v.Fits a) :
    Answers (fun r => r.Fits t) (a = .unknown) (field collection key.text v) := by
  cases rule with
  | field ha =>
    cases v with
    | record r =>
      refine .bind .get fun m _ => ?_
      split
      · exact .pure (Value.fits_unknown _)
      · exact .fail nofun
    | _ => exact .fail fun _ => hv.unknown_of_ne ha nofun

theorem answers_setField {collection value : Expr} {key : Name}
    (rule : (Expr.assignField collection key value).Rule sees [a, b] t) (hv : v.Fits a)
    (hu : u.Fits b) :
    Answers (fun r => r.Fits t) (a = .unknown) (setField collection key.text v u) := by
  cases rule with
  | assignField ha =>
    cases v with
    | record r => exact .bind .modified fun _ _ => .pure hu
    | _ => exact .fail fun _ => hv.unknown_of_ne ha nofun

end Run
end FunkLang
