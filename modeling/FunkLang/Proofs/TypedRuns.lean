-- Runs of programs that agree with a typing. The value of an expression fits
-- the type of the expression, and a value of the wrong kind is found only
-- where an operand is of unknown type.
import FunkLang.Proofs.Evaluation
import FunkLang.Proofs.ItemByItem
import FunkLang.Proofs.TypedMachine
import FunkLang.Proofs.Visit

namespace FunkLang

/-! ## Why a visit stops -/

/-- The operands whose values a part looks at itself. -/
def Part.operands : Part → List Expr
  | expr (.unary _ operand) => [operand]
  | expr (.binary left _ right) | expr (.logical _ left right) => [left, right]
  | expr (.assignIndex collection place _) | expr (.index collection place) => [collection, place]
  | expr (.assignField collection _ _) | expr (.field collection _) => [collection]
  | expr (.choice condition _ _) => [condition]
  | expr (.call callee _) => [callee]
  | stmt (.if_ _ condition _ _) | stmt (.while_ _ condition _) => [condition]
  | stmt (.for_ _ _ items _) => [items]
  | _ => []

/-- If a visit stops for a value of the wrong kind, a visit that it opens has stopped so, or it
has an operand of unknown type. -/
def Visit.Explains (T : Typing) (limits : Limits) (v : Visit) (stop : Stop) (_ : Machine) : Prop :=
  stop.isMismatch = true →
    (∃ u ∈ v.opens limits, u.stop? limits = some stop) ∨ ∃ e ∈ v.part.operands, T.typed e .unknown

section Steps

open Run

variable {T : Typing} {limits : Limits} {v : Visit} {m : Machine} {α β : Type}

theorem explains_opened {u : Visit} (hu : u ∈ v.opens limits) {stop : Stop}
    (h : u.stop? limits = some stop) (m : Machine) : v.Explains T limits stop m :=
  fun _ => Or.inl ⟨u, hu, h⟩

theorem explains_other {stop : Stop} (h : stop.isMismatch = false) (m : Machine) :
    v.Explains T limits stop m := fun hm => absurd hm (by simp [h])

/-- A visit that is opened stops for both. -/
theorem ends_visit (u : Visit) {x : Run α} {good : α → Machine → Prop}
    {bad : Stop → Machine → Prop} (hopen : u ∈ v.opens limits) {m' : Machine}
    (hstop : u.stop? limits = error? (x m')) (h : Ends good bad (x m')) :
    Ends good (v.Explains T limits) (x m') := by
  refine h.imp_eq (fun _ _ _ h => h) fun stop m1 h1 _ => explains_opened hopen ?_ m1
  rw [hstop, h1]
  rfl

/-- An operand is evaluated, and the run goes on with its value. -/
theorem ends_part {room : Nat} {e : Expr} {good : Value → Machine → Prop}
    {good' : β → Machine → Prop} {bad : Stop → Machine → Prop} {next : Value → Run β}
    (hopen : visitExpr v.active room e m ∈ v.opens limits)
    (h : Ends good bad (e.eval limits room m))
    (hnext : ∀ a m1, e.eval limits room m = .ok a m1 → good a m1 →
      Ends good' (v.Explains T limits) (next a m1)) :
    Ends good' (v.Explains T limits) ((e.eval limits room >>= next) m) := by
  rw [ends_bind]
  have hpart : Ends (fun a m1 => Ends good' (v.Explains T limits) (next a m1)) bad
      (e.eval limits room m) := h.imp_eq hnext fun _ _ _ h => h
  exact ends_visit _ hopen rfl hpart

/-- An operator is applied to values that fit. -/
theorem ends_operator {kind : FaultCause → Bool} {x : Run α} {good : α → Prop} {unsure : Prop}
    (hlocal : Local kind x) (answers : Answers good unsure x) (hm : m.Typed T)
    (hunsure : unsure → ∃ e ∈ v.part.operands, T.typed e .unknown) :
    Ends (fun a m' => good a ∧ m'.Typed T) (v.Explains T limits) (x m) :=
  ((hlocal m).and (answers m)).imp (fun _ _ h => ⟨h.2, hm.of_same h.1⟩)
    fun _ _ h hmismatch => Or.inr (hunsure (h.2 hmismatch))

/-- A step that looks at no value of the wrong kind. -/
theorem ends_harmless {x : Run α} (hlocal : Local FaultCause.ofBuiltin x) (hm : m.Typed T) :
    Ends (fun _ m' => m'.Typed T) (v.Explains T limits) (x m) := by
  refine (hlocal m).imp (fun _ _ h => hm.of_same h) fun stop m' h => ?_
  cases stop with
  | fault f =>
    have hother : (Stop.fault f).isMismatch = false := FaultCause.not_mismatch_of_builtin h.2
    exact explains_other hother m'
  | tooDeep => exact explains_other rfl m'
  | endless => exact explains_other rfl m'

/-- A condition is a truth value, or of unknown type. -/
theorem ends_truth {by_ : Condition} {line : Int} {w : Value} {t : Ty} {next : Bool → Run β}
    {good : β → Machine → Prop} (hw : w.Fits t) (ht : t.fits .boolean = true)
    (hunknown : t = .unknown → ∃ e ∈ v.part.operands, T.typed e .unknown)
    (hnext : ∀ b, w = .bool b → Ends good (v.Explains T limits) (next b m)) :
    Ends good (v.Explains T limits) ((truth by_ w line >>= next) m) := by
  rw [ends_bind]
  cases w with
  | bool b => exact hnext b rfl
  | _ => exact fun _ => Or.inr (hunknown (hw.unknown_of_ne ht nofun))

theorem ends_lookup {name : String} {line : Int} {t : Ty} (ht : T.binds name t)
    (hm : m.Typed T) :
    Ends (fun w m' => w.Fits t ∧ m'.Typed T) (v.Explains T limits) (lookup name line m) := by
  unfold lookup
  rw [ends_bind, ends_get]
  unfold ScopeTree.get
  cases hget : m.scopes.get? m.scope name with
  | none => exact explains_other rfl m
  | some w =>
    obtain ⟨t', ht', hw⟩ := hm.bindings.get hget
    rw [T.unique ht ht']
    exact ⟨hw, hm⟩

theorem ends_atom {mark : Mark Atom} {t : Ty} (rule : (Expr.atom mark).Rule T.binds [] t)
    (hm : m.Typed T) :
    Ends (fun w m' => w.Fits t ∧ m'.Typed T) (v.Explains T limits) (atom mark m) := by
  unfold atom
  cases rule with
  | number h | string h | boolean h | nil h =>
    rw [h]
    exact ⟨Or.inr rfl, hm⟩
  | name h ht =>
    rw [h]
    exact ends_lookup ht hm

theorem ends_assign {name : String} {w : Value} {line : Int} {t : Ty} (ht : T.binds name t)
    (hw : w.Fits t) (hm : m.Typed T) :
    Ends (fun _ m' => m'.Typed T) (v.Explains T limits) (assign name w line m) := by
  unfold assign
  rw [ends_bind, ends_get]
  cases m.scopes.home? m.scope name with
  | none => exact explains_other rfl m
  | some home => exact hm.declare ht hw home

end Steps

/-! ## Sequences and calls -/

/-- What is to be shown of an expression: its value fits, and if it stops, it explains why. -/
def Evaluates (T : Typing) (limits : Limits) (room : Nat) (e : Expr) : Prop :=
  ∀ t, T.typed e t → ∀ k m, m.Typed T →
    Ends (fun w m' => w.Fits t ∧ m'.Typed T) ((visitExpr k room e m).Explains T limits)
      (e.eval limits room m)

/-- What is to be shown of a statement. -/
def Executes (T : Typing) (limits : Limits) (room : Nat) (s : Stmt) : Prop :=
  T.fine s → ∀ k m, m.Typed T →
    Ends (fun _ m' => m'.Typed T) ((visitStmt k room s m).Explains T limits)
      (s.exec limits room m)

section Sequences

open Run

variable {T : Typing} {limits : Limits} {k room : Nat} {v : Visit} {m : Machine}

theorem Evaluates.ends (h : Evaluates T limits room e) {t : Ty} (ht : T.typed e t)
    (hm : m.Typed T) (k : Nat) :
    Ends (fun w m' => (w.Fits t ∧ m'.Typed T) ∧ e.eval limits room m = .ok w m')
      (fun stop _ => (visitExpr k room e m).stop? limits = some stop)
      (e.eval limits room m) := by
  refine (h t ht k m hm).imp_eq (fun w m1 h1 hw => ⟨hw, h1⟩) fun stop m1 h1 _ => ?_
  rw [stop?_visitExpr, h1]
  rfl

theorem Executes.ends {s : Stmt} (h : Executes T limits room s) (fine : T.fine s)
    (hm : m.Typed T) (k : Nat) :
    Ends (fun _ m' => m'.Typed T) (fun stop _ => (visitStmt k room s m).stop? limits = some stop)
      (s.exec limits room m) := by
  refine (h fine k m hm).imp_eq (fun _ _ _ hm1 => hm1) fun stop m1 h1 _ => ?_
  rw [stop?_visitStmt, h1]
  rfl

/-- A condition is evaluated, and the run goes on with the truth value that it has. -/
theorem ends_condition {α : Type} {e : Expr} {by_ : Condition} {line : Int} {t : Ty}
    {next : Bool → Run α} {good : α → Machine → Prop} (ih : Evaluates T limits room e)
    (ht : T.typed e t) (hfits : t.fits .boolean = true) (hoperand : e ∈ v.part.operands)
    (hopen : visitExpr v.active room e m ∈ v.opens limits) (hm : m.Typed T)
    (hnext : ∀ b m1, e.eval limits room m = .ok (.bool b) m1 → m1.Typed T →
      Ends good (v.Explains T limits) (next b m1)) :
    Ends good (v.Explains T limits)
      ((e.eval limits room >>= fun w => truth by_ w line >>= next) m) := by
  refine ends_part hopen (ih t ht v.active m hm) fun w m1 h1 hw => ?_
  refine ends_truth hw.1 hfits ?_ fun b hb => ?_
  · rintro rfl
    exact ⟨e, hoperand, ht⟩
  · subst hb
    exact hnext b m1 h1 hw.2

theorem ends_expressions (ih : ∀ e, Evaluates T limits room e) {items : List Expr}
    (typed : ∀ e ∈ items, ∃ t, T.typed e t) (hm : m.Typed T) (k : Nat) :
    Ends (fun _ m' => m'.Typed T)
      (fun stop _ => ∃ u ∈ eachVisit (visitExpr k room) (fun e => e.eval limits room) items m,
        u.stop? limits = some stop)
      (items.mapM (fun e => e.eval limits room) m) := by
  refine ends_eachVisit (fun e he m hm => ?_) hm
  obtain ⟨t, ht⟩ := typed e he
  exact ((ih e).ends ht hm k).imp (fun w _ h => ⟨h.1.2, w, h.2⟩) fun _ _ h => h

theorem ends_statements (ih : ∀ s, Executes T limits room s) {body : List Stmt}
    (fine : ∀ s ∈ body, T.fine s) (hm : m.Typed T) (k : Nat) :
    Ends (fun _ m' => m'.Typed T)
      (fun stop _ => ∃ u ∈ turnVisits (visitStmt k room) (fun s => s.exec limits room) body m,
        u.stop? limits = some stop)
      (inTurn (fun s => s.exec limits room) body m) :=
  ends_turnVisits (fun s hs _ hm => (ih s).ends (fine s hs) hm k) hm

/-- A statement runs in a scope of its own, with a name for a value that fits. -/
theorem ends_named {body : Stmt} (ih : Executes T limits room body) (fine : T.fine body)
    {name : String} {w : Value} {t : Ty} (ht : T.binds name t) (hw : w.Fits t) (hm : m.Typed T)
    (k : Nat) :
    Ends (fun _ m' => m'.Typed T)
      (fun stop _ => (visitStmt k room body (m.enclose m.scope [(name, w)])).stop? limits =
        some stop)
      ((do enclosed (← get).scope [(name, w)] (body.exec limits room) : Run Flow) m) := by
  rw [ends_bind, ends_get, ends_enclosed]
  have hinner : (m.enclose m.scope [(name, w)]).Typed T :=
    hm.enclose (by simpa using ⟨t, ht, hw⟩) m.scope
  exact (ih.ends fine hinner k).imp (fun _ _ h => ⟨h.bindings, h.functions⟩) fun _ _ h => h

/-- The test of a loop stops where its condition does, or has a condition of unknown type. -/
theorem ends_test {condition : Expr} (ih : Evaluates T limits room condition) {t : Ty}
    (h : T.typed condition t) (ht : t.fits .boolean = true) (line : Int) (hm : m.Typed T)
    (k : Nat) :
    Ends (fun _ m' => m'.Typed T)
      (fun stop _ => (visitExpr k room condition m).stop? limits = some stop ∨
        (stop.isMismatch = true → t = .unknown))
      ((do truth .while_ (← condition.eval limits room) line : Run Bool) m) := by
  rw [ends_bind]
  refine (ih.ends h hm k).imp (fun w m1 hw => ?_) fun _ _ h => Or.inl h
  have htruth := (local_truth .while_ w line m1).and (answers_truth hw.1.1 ht m1)
  exact htruth.imp (fun _ _ h => hw.1.2.of_same h.1) fun _ _ h => Or.inr h.2

theorem eq_of_mismatch {name : String} {line : Int} {stop : Stop}
    (h : (ofCall name line stop).isMismatch = true) : ofCall name line stop = stop := by
  cases stop with
  | fault f => rfl
  | tooDeep => cases h
  | endless => rfl

theorem ends_function (ih : ∀ s, Executes T limits room s) {i : Nat} {args : List Value}
    {line : Int} (hm : m.Typed T)
    (hopens : ∀ u ∈ bodyVisits limits v.active room (.function i) args line m,
      u ∈ v.opens limits) :
    Ends (fun _ m' => m'.Typed T) (v.Explains T limits)
      (callClosure limits (fun s => s.exec limits room) (m.heap.function i) args line m) := by
  have hcalled : (m.called (m.heap.function i) args line).Typed T := hm.called i
  have hbody := (hm.functions i).body
  unfold bodyVisits at hopens
  dsimp only at hopens
  generalize m.heap.function i = f at hcalled hbody hopens
  unfold callClosure
  split
  · exact explains_other rfl m
  · rename_i hcount
    rw [ends_bind, ends_get]
    split
    · exact explains_other rfl m
    · rename_i hdepth
      have hadmitted : args.length = f.params.length ∧ m.depth < limits.calls := by
        simpa using And.intro hcount hdepth
      rw [if_pos hadmitted] at hopens
      change Ends _ _ (activation f.name line (enclosed f.scope (f.params.zip args)
        (inTurn (fun s => s.exec limits room) f.body)) { m with
          notes := m.notes.push (.called f.name f.params.length line) })
      rw [ends_activation, ends_enclosed]
      refine (ends_statements ih hbody hcalled (v.active + 1)).imp (fun _ m' h => ?_) ?_
      · exact ⟨h.bindings, h.functions⟩
      · rintro stop m' ⟨u, hu, hstop⟩ hmismatch
        rw [eq_of_mismatch hmismatch]
        exact Or.inl ⟨u, hopens u hu, hstop⟩

theorem ends_callValue (ih : ∀ s, Executes T limits room s) {callee : Value} {args : List Value}
    {line : Int} {t : Ty} (hcallee : callee.Fits t) (ht : t.fits .function = true)
    (hm : m.Typed T)
    (hopens : ∀ u ∈ bodyVisits limits v.active room callee args line m, u ∈ v.opens limits)
    (hunknown : t = .unknown → ∃ e ∈ v.part.operands, T.typed e .unknown) :
    Ends (fun _ m' => m'.Typed T) (v.Explains T limits)
      (callValue limits room (fun s => s.exec limits room) callee args line m) := by
  cases callee with
  | builtin b => exact ends_harmless (Builtin.local_call room b args line) hm
  | function i => exact ends_function ih hm hopens
  | _ => exact fun _ => Or.inr (hunknown (hcallee.unknown_of_ne ht nofun))

end Sequences

/-! ## All parts of a program -/

section Evaluation

open Run

variable {T : Typing}

theorem typed_one {e : Expr} {ts : List Ty} (h : List.Forall₂ T.typed [e] ts) :
    ∃ t, T.typed e t ∧ ts = [t] := by
  simpa [List.forall₂_cons_left_iff] using h

theorem typed_two {e e' : Expr} {ts : List Ty} (h : List.Forall₂ T.typed [e, e'] ts) :
    ∃ t t', T.typed e t ∧ T.typed e' t' ∧ ts = [t, t'] := by
  simpa [List.forall₂_cons_left_iff, and_assoc] using h

theorem typed_three {e e' e'' : Expr} {ts : List Ty}
    (h : List.Forall₂ T.typed [e, e', e''] ts) :
    ∃ t t' t'', T.typed e t ∧ T.typed e' t' ∧ T.typed e'' t'' ∧ ts = [t, t', t''] := by
  simpa [List.forall₂_cons_left_iff, and_assoc] using h

theorem typed_of_mem {items : List Expr} {ts : List Ty} (h : List.Forall₂ T.typed items ts)
    {e : Expr} (he : e ∈ items) : ∃ t, T.typed e t := by
  obtain ⟨t, _, ht⟩ := exists_mem_of_forall₂ h he
  exact ⟨t, ht⟩

theorem evaluation_typed (T : Typing) (limits : Limits) :
    (∀ room e, Evaluates T limits room e) ∧ (∀ room s, Executes T limits room s) := by
  refine evaluation_induction limits ?shallowExpr ?shallowStmt ?atom ?unary ?binary ?logical ?assign
    ?assignIndex ?assignField ?choice ?call ?list ?record ?index ?field ?expression ?print ?make
    ?makeValue ?block ?if_ ?while_ ?funk ?return_ ?returnValue ?with_ ?for_
  case shallowExpr =>
    intro room e h t _ k m hm
    rw [h]
    exact explains_other rfl m
  case shallowStmt =>
    intro room s h _ k m hm
    rw [h]
    exact explains_other rfl m
  case atom =>
    intro room mark t typed k m hm
    obtain ⟨ts, hts, rule⟩ := T.rule typed
    cases hts
    simp only [Expr.eval]
    exact ends_atom rule hm
  case unary =>
    intro room op operand ih t typed k m hm
    obtain ⟨ts, hts, rule⟩ := T.rule typed
    obtain ⟨a, ha, rfl⟩ := typed_one hts
    simp only [Expr.eval]
    refine ends_part (by simp [Visit.opens, visitExpr]) (ih a ha k m hm) fun v m1 h1 hv => ?_
    refine ends_operator (local_unary op v) (answers_unary rule hv.1) hv.2 ?_
    rintro rfl
    exact ⟨operand, by simp [Part.operands, visitExpr], ha⟩
  case binary =>
    intro room left op right ihl ihr t typed k m hm
    obtain ⟨ts, hts, rule⟩ := T.rule typed
    obtain ⟨a, b, ha, hb, rfl⟩ := typed_two hts
    simp only [Expr.eval]
    refine ends_part (by simp [Visit.opens, visitExpr]) (ihl a ha k m hm) fun v m1 h1 hv => ?_
    refine ends_part (by simp [Visit.opens, visitExpr, h1, andThen]) (ihr b hb k m1 hv.2)
      fun w m2 h2 hw => ?_
    refine ends_operator (local_binary _ _ _ _ _) (answers_binary rule hv.1 hw.1) hw.2 ?_
    rintro (rfl | rfl)
    · exact ⟨left, by simp [Part.operands, visitExpr], ha⟩
    · exact ⟨right, by simp [Part.operands, visitExpr], hb⟩
  case logical =>
    intro room op left right ihl ihr t typed k m hm
    obtain ⟨ts, hts, rule⟩ := T.rule typed
    obtain ⟨a, b, ha, hb, rfl⟩ := typed_two hts
    simp only [Expr.eval]
    cases rule with
    | logical hfits hfits' =>
      refine ends_condition ihl ha hfits (by simp [Part.operands, visitExpr])
        (by simp [Visit.opens, visitExpr]) hm fun c m1 h1 hm1 => ?_
      split
      · exact ⟨Or.inr rfl, hm1⟩
      · exact ⟨Or.inr rfl, hm1⟩
      · rename_i hand hor
        have hc : c = (op == .and) := by
          cases op <;> cases c <;> simp_all
        exact ends_condition ihr hb hfits' (by simp [Part.operands, visitExpr])
          (by simp [Visit.opens, visitExpr, h1, andThen, hc]) hm1 fun c' m2 h2 hm2 =>
            ⟨Or.inr rfl, hm2⟩
  case assign =>
    intro room name value ih t typed k m hm
    obtain ⟨ts, hts, rule⟩ := T.rule typed
    obtain ⟨a, ha, rfl⟩ := typed_one hts
    simp only [Expr.eval]
    refine ends_part (by simp [Visit.opens, visitExpr]) (ih a ha k m hm) fun v m1 h1 hv => ?_
    cases rule with
    | assign hname =>
      rw [ends_bind]
      exact (ends_assign hname hv.1 hv.2).imp (fun _ m2 hm2 => ⟨hv.1, hm2⟩) fun _ _ h => h
  case assignIndex =>
    intro room collection place value ihc ihp ihv t typed k m hm
    obtain ⟨ts, hts, rule⟩ := T.rule typed
    obtain ⟨a, i, b, ha, hi, hb, rfl⟩ := typed_three hts
    simp only [Expr.eval]
    refine ends_part (by simp [Visit.opens, visitExpr, eachVisit]) (ihc a ha k m hm)
      fun v m1 h1 hv => ?_
    refine ends_part (by simp [Visit.opens, visitExpr, eachVisit, h1, andThen])
      (ihp i hi k m1 hv.2) fun w m2 h2 hw => ?_
    refine ends_part (by simp [Visit.opens, visitExpr, eachVisit, h1, h2, andThen])
      (ihv b hb k m2 hw.2) fun u m3 h3 hu => ?_
    refine ends_operator (local_setElement _ _ _ _) (answers_setElement rule hv.1 hw.1 hu.1) hu.2 ?_
    rintro (rfl | rfl)
    · exact ⟨collection, by simp [Part.operands, visitExpr], ha⟩
    · exact ⟨place, by simp [Part.operands, visitExpr], hi⟩
  case assignField =>
    intro room collection key value ihc ihv t typed k m hm
    obtain ⟨ts, hts, rule⟩ := T.rule typed
    obtain ⟨a, b, ha, hb, rfl⟩ := typed_two hts
    simp only [Expr.eval]
    refine ends_part (by simp [Visit.opens, visitExpr, eachVisit]) (ihc a ha k m hm)
      fun v m1 h1 hv => ?_
    refine ends_part (by simp [Visit.opens, visitExpr, eachVisit, h1, andThen])
      (ihv b hb k m1 hv.2) fun u m2 h2 hu => ?_
    refine ends_operator (local_setField _ _ _ _) (answers_setField rule hv.1 hu.1) hu.2 ?_
    rintro rfl
    exact ⟨collection, by simp [Part.operands, visitExpr], ha⟩
  case choice =>
    intro room condition yes no ihc ihy ihn t typed k m hm
    obtain ⟨ts, hts, rule⟩ := T.rule typed
    obtain ⟨a, b, b', ha, hb, hb', rfl⟩ := typed_three hts
    simp only [Expr.eval]
    cases rule with
    | choice hfits =>
      refine ends_condition ihc ha hfits (by simp [Part.operands, visitExpr])
        (by simp [Visit.opens, visitExpr]) hm fun c m1 h1 hm1 => ?_
      cases c with
      | true =>
        refine ends_visit (visitExpr k room yes m1)
          (by simp [Visit.opens, visitExpr, h1, andThen]) rfl
          ((ihy b hb k m1 hm1).imp (fun w m2 hw => ?_) fun _ _ h => h)
        exact ⟨.choice (Or.inl hw.1), hw.2⟩
      | false =>
        refine ends_visit (visitExpr k room no m1)
          (by simp [Visit.opens, visitExpr, h1, andThen]) rfl
          ((ihn b' hb' k m1 hm1).imp (fun w m2 hw => ?_) fun _ _ h => h)
        exact ⟨.choice (Or.inr hw.1), hw.2⟩
  case call =>
    intro room callee arguments ihf iha ihs t typed k m hm
    obtain ⟨ts, hts, rule⟩ := T.rule typed
    cases rule with
    | @call _ _ a ts hfits =>
      obtain ⟨ha, hargs⟩ := List.forall₂_cons.mp hts
      simp only [Expr.eval]
      refine ends_part (by simp [Visit.opens, visitExpr]) (ihf a ha k m hm) fun f m1 h1 hf => ?_
      rw [ends_bind]
      have harguments := ends_expressions iha (fun e he => typed_of_mem hargs he) hf.2 k
      refine harguments.imp_eq (fun args m2 h2 hm2 => ?_) fun stop m2 _ h => ?_
      · refine (ends_callValue ihs hf.1 hfits hm2 ?_ ?_).imp
          (fun w m3 h => ⟨Value.fits_unknown w, h⟩) fun _ _ h => h
        · intro u hu
          simp only [Visit.opens, visitExpr, h1, h2, andThen, List.mem_cons, List.mem_append]
          exact Or.inr (Or.inr hu)
        · rintro rfl
          exact ⟨callee, by simp [Part.operands, visitExpr], ha⟩
      · obtain ⟨u, hu, hstop⟩ := h
        refine explains_opened ?_ hstop m2
        simp only [Visit.opens, visitExpr, h1, andThen, List.mem_cons, List.mem_append]
        exact Or.inr (Or.inl hu)
  case list =>
    intro room line elements ih t typed k m hm
    obtain ⟨ts, hts, rule⟩ := T.rule typed
    cases rule with
    | list =>
      simp only [Expr.eval]
      rw [ends_bind]
      refine (ends_expressions ih (fun e he => typed_of_mem hts he) hm k).imp
        (fun vs m1 hm1 => ⟨Or.inr rfl, hm1.of_eq rfl rfl⟩) ?_
      rintro stop m1 ⟨u, hu, hstop⟩
      exact explains_opened hu hstop m1
  case record =>
    intro room line entries ih t typed k m hm
    obtain ⟨ts, hts, rule⟩ := T.rule typed
    cases rule with
    | record =>
      simp only [Expr.eval]
      rw [ends_bind]
      have hentry : ∀ entry ∈ entries, ∀ m, m.Typed T →
          Ends (fun _ m' => m'.Typed T ∧ ∃ w, entry.2.eval limits room m = .ok w m')
            (fun stop _ => (visitExpr k room entry.2 m).stop? limits = some stop)
            ((do return (entry.1.text, ← entry.2.eval limits room) : Run (String × Value)) m) := by
        intro entry hentry m hm
        obtain ⟨a, ha⟩ := typed_of_mem hts (List.mem_map.mpr ⟨entry, hentry, rfl⟩)
        rw [ends_bind]
        exact ((ih entry.2).ends ha hm k).imp (fun w _ h => ⟨h.1.2, w, h.2⟩) fun _ _ h => h
      refine (ends_eachVisit hentry hm).imp
        (fun fields m1 hm1 => ⟨Or.inr rfl, hm1.of_eq rfl rfl⟩) ?_
      rintro stop m1 ⟨u, hu, hstop⟩
      refine explains_opened ?_ hstop m1
      simpa only [Visit.opens, visitExpr, eachVisit_map] using hu
  case index =>
    intro room collection place ihc ihp t typed k m hm
    obtain ⟨ts, hts, rule⟩ := T.rule typed
    obtain ⟨a, i, ha, hi, rfl⟩ := typed_two hts
    simp only [Expr.eval]
    refine ends_part (by simp [Visit.opens, visitExpr, eachVisit]) (ihc a ha k m hm)
      fun v m1 h1 hv => ?_
    refine ends_part (by simp [Visit.opens, visitExpr, eachVisit, h1, andThen])
      (ihp i hi k m1 hv.2) fun w m2 h2 hw => ?_
    refine ends_operator (local_element _ _ _) (answers_element rule hv.1 hw.1) hw.2 ?_
    rintro (rfl | rfl)
    · exact ⟨collection, by simp [Part.operands, visitExpr], ha⟩
    · exact ⟨place, by simp [Part.operands, visitExpr], hi⟩
  case field =>
    intro room collection key ih t typed k m hm
    obtain ⟨ts, hts, rule⟩ := T.rule typed
    obtain ⟨a, ha, rfl⟩ := typed_one hts
    simp only [Expr.eval]
    refine ends_part (by simp [Visit.opens, visitExpr]) (ih a ha k m hm) fun v m1 h1 hv => ?_
    refine ends_operator (local_field _ _ _) (answers_field rule hv.1) hv.2 ?_
    rintro rfl
    exact ⟨collection, by simp [Part.operands, visitExpr], ha⟩
  case expression =>
    intro room line value ih fine k m hm
    cases T.judged fine with
    | expression ht =>
      simp only [Stmt.exec]
      exact ends_part (by simp [Visit.opens, visitStmt]) (ih _ ht k m hm) fun v m1 h1 hv => hv.2
  case print =>
    intro room line value ih fine k m hm
    cases T.judged fine with
    | print ht =>
      simp only [Stmt.exec]
      refine ends_part (by simp [Visit.opens, visitStmt]) (ih _ ht k m hm) fun v m1 h1 hv => ?_
      rw [ends_bind]
      exact ends_harmless (local_writeLine room [v]) hv.2
  case make =>
    intro room line name fine k m hm
    cases T.judged fine with
    | make ht =>
      simp only [Stmt.exec]
      exact hm.declare ht (Or.inr rfl) m.scope
  case makeValue =>
    intro room line name value ih fine k m hm
    cases T.judged fine with
    | makeValue h ht =>
      simp only [Stmt.exec]
      refine ends_part (by simp [Visit.opens, visitStmt]) (ih _ h k m hm) fun v m1 h1 hv => ?_
      exact hv.2.declare ht hv.1 m1.scope
  case block =>
    intro room line body ih fine k m hm
    cases T.judged fine with
    | block h =>
      simp only [Stmt.exec]
      rw [ends_bind, ends_get, ends_enclosed]
      have hinner : (m.enclose m.scope []).Typed T := hm.enclose (by simp) m.scope
      refine (ends_statements ih h hinner k).imp (fun _ m1 h => ⟨h.bindings, h.functions⟩) ?_
      rintro stop m1 ⟨u, hu, hstop⟩
      exact explains_opened hu hstop _
  case if_ =>
    intro room line condition yes no ihc ihy ihn fine k m hm
    cases T.judged fine with
    | @if_ _ _ _ _ t h ht hbranches =>
      simp only [Stmt.exec]
      refine ends_condition ihc h ht (by simp [Part.operands, visitStmt])
        (by simp [Visit.opens, visitStmt]) hm fun c m1 h1 hm1 => ?_
      cases c with
      | true =>
        exact ends_visit (visitStmt k room yes m1)
          (by simp [Visit.opens, visitStmt, h1, andThen]) rfl
          (ihy (hbranches yes List.mem_cons_self) k m1 hm1)
      | false =>
        cases no with
        | none => exact hm1
        | some no =>
          exact ends_visit (visitStmt k room no m1)
            (by simp [Visit.opens, visitStmt, h1, andThen]) rfl
            (ihn no (hbranches no (by simp)) k m1 hm1)
  case while_ =>
    intro room line condition body ihc ihb fine k m hm
    cases T.judged fine with
    | @while_ _ _ _ t h ht hbody =>
      simp only [Stmt.exec]
      refine (ends_loopVisits (fun m hm => ends_test ihc h ht line hm k)
        (fun m hm => ihb.ends hbody hm k) (by rintro ⟨⟩) limits.turns hm).imp
        (fun _ _ h => h) fun stop m1 hstop => ?_
      rcases hstop with ⟨u, hu, hstop⟩ | hown
      · exact explains_opened hu hstop m1
      · intro hmismatch
        rw [hown hmismatch] at h
        exact Or.inr ⟨condition, by simp [Part.operands, visitStmt], h⟩
  case funk =>
    intro room line name params bodyLine body fine k m hm
    cases T.judged fine with
    | funk hname hparams hbody =>
      simp only [Stmt.exec]
      have typed : Closure.Typed T ⟨name.text, params.map (·.text), body, m.scope⟩ := by
        refine ⟨fun p hp => ?_, hbody⟩
        obtain ⟨param, hparam, rfl⟩ := List.mem_map.mp hp
        exact hparams param hparam
      exact (hm.addFunction typed).declare hname (Or.inr rfl) m.scope
  case return_ =>
    intro room line fine k m hm
    simp only [Stmt.exec]
    exact hm
  case returnValue =>
    intro room line value ih fine k m hm
    cases T.judged fine with
    | returnValue ht =>
      simp only [Stmt.exec]
      exact ends_part (by simp [Visit.opens, visitStmt]) (ih _ ht k m hm) fun v m1 h1 hv => hv.2
  case with_ =>
    intro room line value name body ihv ihb fine k m hm
    cases T.judged fine with
    | with_ h ht hbody =>
      simp only [Stmt.exec]
      refine ends_part (by simp [Visit.opens, visitStmt]) (ihv _ h k m hm) fun v m1 h1 hv => ?_
      refine (ends_named ihb hbody ht hv.1 hv.2 k).imp (fun _ _ h => h) fun stop m2 h => ?_
      exact explains_opened (by simp [Visit.opens, visitStmt, h1, andThen]) h m2
  case for_ =>
    intro room line name items body ihi ihb fine k m hm
    cases T.judged fine with
    | for_ h ht hbody =>
      simp only [Stmt.exec]
      refine ends_part (by simp [Visit.opens, visitStmt]) (ihi _ h k m hm) fun v m1 h1 hv => ?_
      cases v with
      | iter i =>
        rw [ends_bind, ends_get]
        refine (ends_turnVisits (fun w _ m hm => ends_named ihb hbody ht w.fits_unknown hm k)
          hv.2).imp (fun _ _ h => h) ?_
        rintro stop m2 ⟨u, hu, hstop⟩
        refine explains_opened ?_ hstop m2
        simp only [Visit.opens, visitStmt, h1, andThen, List.mem_cons]
        exact Or.inr hu
      | _ => exact fun _ => Or.inr ⟨items, by simp [Part.operands, visitStmt], h⟩

end Evaluation

end FunkLang
