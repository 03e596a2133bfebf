-- Renderings. A value that unfolds to a tree is printed as the tree is written: its parts
-- in order, and a record with its fields as they were first set. A value that contains itself, or
-- holds one that does, has no text, and to print it stops the program with nothing written.
import FunkLang.Proofs.CourseOfRuns
import FunkLang.Proofs.Unfoldings

namespace FunkLang

/-! ## The text of a tree -/

namespace Unfolding

mutual

/-- The text of a tree. -/
def text : Unfolding → String
  | nil => "nil"
  | bool b => if b then "true" else "false"
  | number n => n.text
  | string s => s
  | builtin b => "<builtin " ++ b.name ++ ">"
  | function _ name => "<funk " ++ name ++ ">"
  | list items => "[" ++ joined ", " (texts items) ++ "]"
  | iter items => "iter[" ++ joined ", " (texts items) ++ "]"
  | record fields => "\x7b" ++ joined ", " (fieldTexts fields) ++ "\x7d"

/-- The texts of elements. -/
def texts : List Unfolding → List String
  | [] => []
  | t :: rest => t.text :: texts rest

/-- The texts of fields, each with its name. -/
def fieldTexts : List (String × Unfolding) → List String
  | [] => []
  | (key, t) :: rest => (key ++ ":" ++ t.text) :: fieldTexts rest

end

theorem texts_eq (items : List Unfolding) : texts items = items.map text := by
  induction items with
  | nil => rfl
  | cons t rest ih => rw [texts, ih, List.map_cons]

theorem fieldTexts_eq (fields : List (String × Unfolding)) :
    fieldTexts fields = fields.map fun field => field.1 ++ ":" ++ field.2.text := by
  induction fields with
  | nil => rfl
  | cons field rest ih => rw [fieldTexts, ih, List.map_cons]

end Unfolding

/-! ## The text of a value -/

theorem mapM_of_forall₂ {α β γ : Type} {f : α → Option γ} {g : β → γ} {as : List α} {bs : List β}
    (h : List.Forall₂ (fun a b => f a = some (g b)) as bs) : as.mapM f = some (bs.map g) := by
  induction h with
  | nil => rfl
  | cons hab _ ih => rw [List.mapM_cons, hab, ih, List.map_cons]; rfl

theorem exists_of_mapM {α β : Type} {f : α → Option β} {as : List α} {bs : List β}
    (h : as.mapM f = some bs) : ∀ a ∈ as, ∃ b, f a = some b := by
  induction as generalizing bs with
  | nil => simp
  | cons a rest ih =>
    rw [List.mapM_cons] at h
    obtain ⟨b, hb, h⟩ := Option.bind_eq_some_iff.mp h
    obtain ⟨bs', hbs, -⟩ := Option.bind_eq_some_iff.mp h
    exact List.forall_mem_cons.mpr ⟨⟨b, hb⟩, ih hbs⟩

section Texts

variable {h : Heap} {v : Value} {t : Unfolding} {room : Nat}

/-- A value that unfolds has the text of its tree, in a room that the depth of the tree fits
into. -/
theorem Unfolds.text?_eq (hv : Unfolds h v t) (hroom : 3 * t.depth < room) :
    v.text? h room = some t.text := by
  have items {vs : List Value} {ts : List Unfolding} {room : Nat} (length : vs.length = ts.length)
      (ih : ∀ v t, (v, t) ∈ vs.zip ts → ∀ {room : Nat}, 3 * t.depth < room →
        v.text? h room = some t.text) (hroom : 3 * Unfolding.depthOfAll ts < room) :
      vs.mapM (Value.text? h room) = some (Unfolding.texts ts) := by
    rw [Unfolding.texts_eq]
    refine mapM_of_forall₂ (List.forall₂_iff_zip.mpr ⟨length, fun {v t} hmem => ih v t hmem ?_⟩)
    have hdepth := Unfolding.depthOfAll_le.mp le_rfl t (List.of_mem_zip hmem).2
    omega
  induction hv generalizing room with
  | list length _ ih =>
    rw [Unfolding.depth] at hroom
    obtain ⟨room, rfl⟩ : ∃ r, room = r + 3 := ⟨room - 3, by omega⟩
    rw [Value.text?, items length ih (by omega)]
    rfl
  | iter length _ ih =>
    rw [Unfolding.depth] at hroom
    obtain ⟨room, rfl⟩ : ∃ r, room = r + 3 := ⟨room - 3, by omega⟩
    rw [Value.text?, items length ih (by omega)]
    rfl
  | @record i fields names _ ih =>
    obtain ⟨room, rfl⟩ : ∃ r, room = r + 1 := ⟨room - 1, by omega⟩
    have hfields := forall₂_of_names (S := fun v t => v.text? h room = some t.text) names
      fun key v t hv ht => ih key v t hv ht <| by
      have hdepth := Unfolding.depth_lt (t := .record fields) (List.mem_map_of_mem ht)
      dsimp only at hdepth
      omega
    have htexts : (h.record i).entries.mapM (fun entry =>
        (Value.text? h room entry.2).map fun text => entry.1 ++ ":" ++ text) =
          some (Unfolding.fieldTexts fields) := by
      rw [Unfolding.fieldTexts_eq]
      refine mapM_of_forall₂ (hfields.imp fun entry field hentry => ?_)
      obtain ⟨key, part⟩ := entry
      obtain ⟨rfl, hpart⟩ := hentry
      exact Option.map_eq_some_iff.mpr ⟨_, hpart, rfl⟩
    rw [Value.text?]
    exact Option.bind_eq_some_iff.mpr ⟨_, htexts, rfl⟩
  | function i =>
    obtain ⟨room, rfl⟩ : ∃ r, room = r + 1 := ⟨room - 1, by omega⟩
    rw [Value.text?, Unfolding.text, Heap.function]
    cases h.functions[i]? <;> rfl
  | _ =>
    obtain ⟨room, rfl⟩ : ∃ r, room = r + 1 := ⟨room - 1, by omega⟩
    simp [Value.text?, Unfolding.text]

/-- A value that has a text unfolds. -/
theorem Unfolds.of_text? {text : String} (ht : v.text? h room = some text) :
    ∃ t, Unfolds h v t := by
  induction room using Nat.strongRecOn generalizing v text with
  | ind room ih =>
    refine Unfolds.of_parts fun part hpart => ?_
    unfold Value.text? at ht
    split at ht
    case h_7 room i =>
      obtain ⟨texts, htexts, -⟩ := Option.bind_eq_some_iff.mp ht
      obtain ⟨text, htext⟩ := exists_of_mapM htexts part hpart
      exact ih room (by omega) htext
    case h_8 room i =>
      obtain ⟨texts, htexts, -⟩ := Option.bind_eq_some_iff.mp ht
      obtain ⟨text, htext⟩ := exists_of_mapM htexts part hpart
      exact ih room (by omega) htext
    case h_9 room i =>
      obtain ⟨texts, htexts, -⟩ := Option.bind_eq_some_iff.mp ht
      obtain ⟨⟨key, _⟩, hentry, rfl⟩ := List.mem_map.mp hpart
      obtain ⟨_, hfield⟩ := exists_of_mapM htexts _ hentry
      obtain ⟨text, htext, -⟩ := Option.map_eq_some_iff.mp hfield
      exact ih room (by omega) htext
    case h_10 => cases ht
    all_goals cases hpart

end Texts

/-! ## Printing -/

/-- A value is written as a line once it has its text. -/
theorem writeLine_one (room : Nat) (w : Value) (m : Machine) :
    Run.writeLine room [w] m = match w.text? m.heap room with
      | some text => .ok () { m with output := m.output ++ (text ++ "\n") }
      | none => .error .tooDeep m := by
  change (Run.fitting ([w].mapM (Value.text? m.heap room)) >>= fun texts =>
    Run.write (joined "" texts ++ "\n")) m = _
  have htexts : [w].mapM (Value.text? m.heap room) = (w.text? m.heap room).map ([·]) := by
    rw [List.mapM_cons]
    cases w.text? m.heap room <;> rfl
  rw [htexts]
  cases w.text? m.heap room <;> rfl

/-- A printing operation writes the text of the value in some room that is at most two less than its
own, and stops if there is none. -/
theorem Operation.run_printing {op : Operation} {w : Value}
    (printing : op = .print w ∨ op = .call .println [w]) (room : Nat) (at_ : Expr) (m : Machine) :
    ∃ fit, room ≤ fit + 2 ∧ op.run room at_ m = match w.text? m.heap fit with
      | some text => .ok .nil { m with output := m.output ++ (text ++ "\n") }
      | none => .error .tooDeep m := by
  have line (fit : Nat) : (do Run.writeLine fit [w]; return Value.nil : Run Value) m =
      match w.text? m.heap fit with
      | some text => .ok .nil { m with output := m.output ++ (text ++ "\n") }
      | none => .error .tooDeep m := by
    have hline := writeLine_one fit w m
    change EStateM.bind (Run.writeLine fit [w]) _ m = _
    unfold EStateM.bind
    rw [hline]
    cases w.text? m.heap fit <;> rfl
  rcases printing with rfl | rfl
  · exact ⟨room, by omega, line room⟩
  · exact ⟨room - 2, by omega, line (room - 2)⟩

theorem Visit.EndsAs.after_eq {limits : Limits} {v : Visit} {r : EStateM.Result Stop Machine Value}
    (h : v.EndsAs limits r) : v.after limits = stateAfter r := by
  obtain ⟨part, room, m, k⟩ := v
  cases part with
  | expr e => exact congrArg stateAfter h
  | stmt s => exact h.1

/-- Where a program prints a value, with `print` or `println`: if nothing inside the value contains
itself, it unfolds to a tree, and in a room that the depth of the tree fits into, the text of the
tree is written, and the end of the line. Otherwise nothing is written in any room. The program
fails there for want of room, and leaves the root scope current and no call in progress. -/
theorem values_print_unless_they_contain_themselves {limits : Limits} {m0 : Machine}
    {program : List Stmt} {v : Visit} {op : Operation} {w : Value} {room : Nat} {at_ : Expr}
    {m : Machine} (reachable : Reachable limits m0) (visited : Visited limits m0 program v)
    (performs : v.Performs limits op room at_ m)
    (printing : op = .print w ∨ op = .call .println [w]) :
    ((∀ x : Value, x.Within m.heap w → ¬ x.ContainsItself m.heap) →
      ∃ t, Unfolds m.heap w t ∧ (3 * t.depth + 2 < room → v.stop? limits = none ∧
        v.after limits = { m with output := m.output ++ (t.text ++ "\n") })) ∧
    ((∃ x : Value, x.Within m.heap w ∧ x.ContainsItself m.heap) →
      v.stop? limits = some .tooDeep ∧ v.after limits = m ∧
        ∃ f m', runOn limits m0 program = (some (.fault f), m') ∧ f.cause.isDeep = true ∧
          m'.output = m.output ∧ m'.scope = ScopeTree.rootScope ∧ m'.depth = 0) := by
  obtain ⟨fit, hfit, hrun⟩ := op.run_printing printing room at_ m
  have hstop := performs.ends.stop?_eq
  have hafter := performs.ends.after_eq
  rw [hrun] at hstop hafter
  constructor
  · intro acyclic
    obtain ⟨t, ht⟩ := (w.unfolds_iff m.heap).mpr acyclic
    refine ⟨t, ht, fun hroom => ?_⟩
    rw [ht.text?_eq (by omega)] at hstop hafter
    exact ⟨hstop, hafter⟩
  · rintro ⟨x, hx, cyclic⟩
    have hnone : w.text? m.heap fit = none := by
      rw [Option.eq_none_iff_forall_ne_some]
      intro text htext
      exact (w.unfolds_iff m.heap).mp (Unfolds.of_text? htext) x hx cyclic
    rw [hnone] at hstop hafter
    change v.stop? limits = some .tooDeep at hstop
    change v.after limits = m at hafter
    obtain ⟨stop', m', hend, becomes, settled, moves⟩ :=
      stops_of_visited (ready_of_reachable reachable) visited hstop
    rcases becomes with rfl | ⟨-, f, rfl, hf⟩
    · exact absurd rfl settled
    · have hrest := at_rest_of_reachable (reachable.run program)
      rw [hend] at hrest
      refine ⟨hstop, hafter, f, m', hend, hf, ?_, hrest⟩
      rw [moves, hafter]

/-- A program that prints a list, pushes the list onto itself and prints it again. -/
def printingTwice : List Stmt :=
  [.make 1 ⟨"xs", 1⟩ (some (.list 1 [])), .print 2 (.atom ⟨.name, "xs", 2⟩),
    .expression 3 (.call (.atom ⟨.name, "push", 3⟩)
      [.atom ⟨.name, "xs", 3⟩, .atom ⟨.name, "xs", 3⟩]),
    .print 4 (.atom ⟨.name, "xs", 4⟩)]

theorem a_list_prints_until_it_is_pushed_onto_itself :
    ∃ v v', Visited .small (.start "" 0) printingTwice v ∧
      Visited .small (.start "" 0) printingTwice v' ∧ v.stop? .small = none ∧
      (v.after .small).output = "[]\n" ∧ v'.stop? .small = some .tooDeep ∧
      (v'.after .small).output = "[]\n" ∧
      (runOn .small (.start "" 0) printingTwice).2.output = "[]\n" := by
  let m0 : Machine := .start "" 0
  let visits := topVisits .small m0 printingTwice
  have hvisits : visits.length = 4 := rfl
  let v := visits[1]
  let v' := visits[3]
  have visited : Visited .small m0 printingTwice v := ⟨v, List.getElem_mem _, .refl⟩
  have visited' : Visited .small m0 printingTwice v' := ⟨v', List.getElem_mem _, .refl⟩
  have performs : v.Performs .small (.print (.list 0)) 17 (.atom ⟨.name, "xs", 2⟩) v.machine :=
    .print rfl
  have performs' : v'.Performs .small (.print (.list 0)) 17 (.atom ⟨.name, "xs", 4⟩) v'.machine :=
    .print rfl
  have reachable : Reachable .small m0 := .start "" 0
  have blank : Unfolds v.machine.heap (.list 0) (.list []) :=
    .of_list (show List.Forall₂ _ [] [] from .nil)
  obtain ⟨prints, -⟩ :=
    values_print_unless_they_contain_themselves reachable visited performs (.inl rfl)
  obtain ⟨t, ht, written⟩ := prints ((Value.unfolds_iff _ _).mp ⟨_, blank⟩)
  cases ht.unique blank
  obtain ⟨hstop, hafter⟩ := written (by decide)
  have loop : (Value.list 0).ContainsItself v'.machine.heap :=
    .single (show Value.list 0 ∈ [Value.list 0] from List.mem_singleton_self _)
  obtain ⟨-, stops⟩ :=
    values_print_unless_they_contain_themselves reachable visited' performs' (.inl rfl)
  obtain ⟨hstop', hafter', f, m', hend, -, houtput, -⟩ := stops ⟨_, .refl, loop⟩
  refine ⟨v, v', visited, visited', hstop, ?_, hstop', ?_, ?_⟩
  · rw [hafter]
    rfl
  · rw [hafter']
    rfl
  · rw [hend, houtput]
    rfl

end FunkLang
