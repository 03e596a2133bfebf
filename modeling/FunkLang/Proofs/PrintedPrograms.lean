-- Printed programs told apart. The text of a program tells the program, up to lines,
-- if no assignment in it is called or has an index or a field taken of it.
import FunkLang.Proofs.PrintedStatements
import FunkLang.Proofs.RoundTrip

namespace FunkLang

open Grammar (Ended)

/-! ## Programs -/

theorem toList_foldl_lines (text : String) (lines : List String) :
    (lines.foldl (fun text line => text ++ line ++ "\n") text).toList =
      text.toList ++ linesChars 0 lines := by
  induction lines generalizing text with
  | nil => simp [linesChars]
  | cons line rest ih =>
    rw [List.foldl_cons, ih, ← List.singleton_append, linesChars_append, linesChars_singleton]
    simp [margin]

theorem toList_printed (program : List Stmt) :
    (printed program).toList = Stmt.allChars 0 program := by
  rw [printed, toList_foldl_lines, allChars_eq]
  rfl

/-- Plain programs with the same text are the same, up to lines. -/
theorem plain_programs_told {program program' : List Stmt} (h : ∀ s ∈ program, s.AllPlain)
    (h' : ∀ s ∈ program', s.AllPlain) (heq : printed program = printed program') :
    Stmt.allUnlined program = Stmt.allUnlined program' := by
  have hchars : Stmt.allChars 0 program ++ [] = Stmt.allChars 0 program' ++ [] := by
    rw [List.append_nil, List.append_nil, ← toList_printed, ← toList_printed, heq]
  rw [Stmt.allUnlined_eq_map, Stmt.allUnlined_eq_map]
  exact (allChars_told (fun s hs => (s.told (h s hs)).1) h h' (Or.inr rfl) (Or.inr rfl) hchars).1

/-! ### The names of a program that was read -/

namespace Grammar

/-- All names that a tree introduces are spelt. -/
def TreeNamed : (s : Symbol) → s.Tree → Prop
  | .phrase _, _ | .extension _, _ | .entry, _ => True
  | .parameters, params => ∀ param ∈ params, param.IsSpelt
  | .nextName, name => name.IsSpelt
  | .statement _, s => (Part.stmt s).NamesSpelt
  | .many item, all | .separated item, all => ∀ a ∈ all, TreeNamed item a

theorem named_spelt {t : Token} (h : t.IsSpelt) (hkind : t.kind = .atom .name) :
    (named t).IsSpelt := by
  unfold Mark.IsSpelt at h
  rw [hkind] at h
  exact h

theorem Derives.introduces {s : Symbol} {ts : List Token} {a : s.Tree} (h : Derives s ts a)
    (hts : ∀ t ∈ ts, t.IsSpelt) : TreeNamed s a := by
  have hvalue (e : Expr) : ∀ q ∈ [Part.expr e], q.NamesSpelt :=
    List.forall_mem_singleton.mpr (Part.namesSpelt_expr e)
  induction h with
  | none | empty => exact nofun
  | more _ _ ihfirst ihrest | before _ _ _ ihfirst ihrest =>
    exact List.forall_mem_cons.mpr ⟨ihfirst fun t ht => hts t (by simp [ht]),
      ihrest fun t ht => hts t (by simp [ht])⟩
  | last _ ih => exact List.forall_mem_singleton.mpr (ih hts)
  | body _ ih => exact ih hts
  | print | returnValue | value => exact Part.namesSpelt_stmt trivial (hvalue _)
  | return_ => exact Part.namesSpelt_stmt trivial nofun
  | block _ _ _ ih =>
    have hbody := ih fun t ht => hts t (by simp [ht])
    exact Part.namesSpelt_stmt trivial (List.forall_mem_map.mpr hbody)
  | if_ _ _ _ _ _ ihbody | while_ _ _ _ _ _ ihbody =>
    have hbody := ihbody fun t ht => hts t (by simp [ht])
    refine Part.namesSpelt_stmt trivial (List.forall_mem_cons.mpr ⟨Part.namesSpelt_expr _, ?_⟩)
    exact List.forall_mem_singleton.mpr hbody
  | ifElse _ _ _ _ _ _ _ _ ihyes ihno =>
    have hyes := ihyes fun t ht => hts t (by simp [ht])
    have hno := ihno fun t ht => hts t (by simp [ht])
    refine Part.namesSpelt_stmt trivial (List.forall_mem_cons.mpr ⟨Part.namesSpelt_expr _, ?_⟩)
    exact List.forall_mem_cons.mpr ⟨hyes, List.forall_mem_singleton.mpr hno⟩
  | with_ _ _ _ hname _ _ ihbody | for_ _ hname _ _ _ _ _ ihbody =>
    have hbody := ihbody fun t ht => hts t (by simp [ht])
    have hspelt := named_spelt (hts _ (by simp)) hname
    refine Part.namesSpelt_stmt hspelt (List.forall_mem_cons.mpr ⟨Part.namesSpelt_expr _, ?_⟩)
    exact List.forall_mem_singleton.mpr hbody
  | noParameters => exact nofun
  | someParameters hname _ ih =>
    have hrest := ih fun t ht => hts t (by simp [ht])
    exact List.forall_mem_cons.mpr ⟨named_spelt (hts _ (by simp)) hname, hrest⟩
  | nextName _ hname => exact named_spelt (hts _ (by simp)) hname
  | funk _ hname _ _ _ _ _ _ ihparams ihbody =>
    have hparams := ihparams fun t ht => hts t (by simp [ht])
    have hbody := ihbody fun t ht => hts t (by simp [ht])
    apply Part.namesSpelt_stmt
    · exact ⟨named_spelt (hts _ (by simp)) hname, hparams⟩
    · exact List.forall_mem_map.mpr hbody
  | make _ hname _ => exact Part.namesSpelt_stmt (named_spelt (hts _ (by simp)) hname) nofun
  | makeValue _ hname _ _ _ _ =>
    exact Part.namesSpelt_stmt (named_spelt (hts _ (by simp)) hname) (hvalue _)
  | _ => trivial

end Grammar

/-- A program that was read is plain if its grouping can be seen. -/
theorem allPlain_of_readScript {source : String} {program : List Stmt}
    (hread : readScript source = .ok program)
    (h : ∀ e, OccursIn e program → e.BaseUnassigned) : ∀ s ∈ program, s.AllPlain := by
  obtain ⟨tokens, hscan, hparse⟩ := readScript_eq_ok.mp hread
  obtain ⟨ts, line, rfl, hcut⟩ := cutInto_of_scan hscan
  obtain ⟨hended, hspelt⟩ := ended_of_cutInto line hcut
  have hprogram := Grammar.derived_of_parsed hended hparse
  intro s hs
  constructor
  · exact Grammar.Derives.introduces hprogram hspelt s hs
  · intro e he
    have hoccurs : OccursIn e program := ⟨s, hs, he⟩
    exact ⟨spelt_of_readScript hread hoccurs e .refl, h e hoccurs⟩

/-- The printed text of a program tells which program it is, up to lines, among the programs in
which nothing that is an assignment is called or has an index or a field taken of it. -/
theorem programs_are_told_apart {source source' : String} {program program' : List Stmt}
    (hread : readScript source = .ok program) (hread' : readScript source' = .ok program')
    (hbases : ∀ e, OccursIn e program → e.BaseUnassigned)
    (hbases' : ∀ e, OccursIn e program' → e.BaseUnassigned)
    (heq : printed program = printed program') :
    Stmt.allUnlined program = Stmt.allUnlined program' :=
  plain_programs_told (allPlain_of_readScript hread hbases)
    (allPlain_of_readScript hread' hbases') heq

/-! ### A field of an assignment -/

/-- `x = a.f` -/
def fieldTaken (line : Int) : Expr :=
  .assign ⟨"x", 1⟩ (.field (.atom ⟨.name, "a", line⟩) ⟨"f", line⟩)

/-- `(x = a).f` -/
def assignedTaken : Expr := .field (.assign ⟨"x", 1⟩ (.atom ⟨.name, "a", 1⟩)) ⟨"f", 1⟩

/-- The tokens of `x = a.f;` -/
def plainTokens : List Token :=
  [⟨.atom .name, "x", 1⟩, ⟨.sign .equal, "=", 1⟩, ⟨.atom .name, "a", 1⟩, ⟨.sign .dot, ".", 1⟩,
    ⟨.atom .name, "f", 1⟩, ⟨.sign .semicolon, ";", 1⟩]

/-- The tokens of `x =` and `(a).f;` on the next line -/
def apartTokens : List Token :=
  [⟨.atom .name, "x", 1⟩, ⟨.sign .equal, "=", 1⟩, ⟨.sign .leftParen, "(", 2⟩,
    ⟨.atom .name, "a", 2⟩, ⟨.sign .rightParen, ")", 2⟩, ⟨.sign .dot, ".", 2⟩,
    ⟨.atom .name, "f", 2⟩, ⟨.sign .semicolon, ";", 2⟩]

/-- The tokens of `(x = a).f;` -/
def groupedTokens : List Token :=
  [⟨.sign .leftParen, "(", 1⟩, ⟨.atom .name, "x", 1⟩, ⟨.sign .equal, "=", 1⟩,
    ⟨.atom .name, "a", 1⟩, ⟨.sign .rightParen, ")", 1⟩, ⟨.sign .dot, ".", 1⟩,
    ⟨.atom .name, "f", 1⟩, ⟨.sign .semicolon, ";", 1⟩]

theorem readScript_plain : readScript "x = a.f;" = .ok [.expression 1 (fieldTaken 1)] := by
  have hscan : scan "x = a.f;" = .ok (plainTokens ++ [endMark 1]) := rfl
  have hended : Ended plainTokens (endMark 1) := ⟨rfl, by simp [plainTokens]⟩
  have hparse : parseTokens 40 (plainTokens ++ [endMark 1]) =
      .ok [.expression 1 (fieldTaken 1)] := rfl
  exact readScript_eq_ok.mpr ⟨_, hscan, Grammar.parseTokens_of_le hended hparse (by decide)⟩

theorem readScript_apart : readScript "x =\n(a).f;" = .ok [.expression 1 (fieldTaken 2)] := by
  have hscan : scan "x =\n(a).f;" = .ok (apartTokens ++ [endMark 2]) := rfl
  have hended : Ended apartTokens (endMark 2) := ⟨rfl, by simp [apartTokens]⟩
  have hparse : parseTokens 40 (apartTokens ++ [endMark 2]) =
      .ok [.expression 1 (fieldTaken 2)] := rfl
  exact readScript_eq_ok.mpr ⟨_, hscan, Grammar.parseTokens_of_le hended hparse (by decide)⟩

theorem readScript_grouped : readScript "(x = a).f;" = .ok [.expression 1 assignedTaken] := by
  have hscan : scan "(x = a).f;" = .ok (groupedTokens ++ [endMark 1]) := rfl
  have hended : Ended groupedTokens (endMark 1) := ⟨rfl, by simp [groupedTokens]⟩
  have hparse : parseTokens 40 (groupedTokens ++ [endMark 1]) =
      .ok [.expression 1 assignedTaken] := rfl
  exact readScript_eq_ok.mpr ⟨_, hscan, Grammar.parseTokens_of_le hended hparse (by decide)⟩

/-- Lines and the parentheses around a name leave no trace in the tree. -/
theorem fields_on_two_lines_are_told_alike :
    readScript "x = a.f;" = .ok [.expression 1 (fieldTaken 1)] ∧
      readScript "x =\n(a).f;" = .ok [.expression 1 (fieldTaken 2)] ∧
      (∀ line, ∀ e, OccursIn e [.expression 1 (fieldTaken line)] → e.BaseUnassigned) ∧
      printed [.expression 1 (fieldTaken 1)] = printed [.expression 1 (fieldTaken 2)] ∧
      Stmt.allUnlined [.expression 1 (fieldTaken 1)] =
        Stmt.allUnlined [.expression 1 (fieldTaken 2)] := by
  have hbases (line : Int) :
      ∀ e, OccursIn e [.expression 1 (fieldTaken line)] → e.BaseUnassigned := by
    rintro e ⟨s, hs, he⟩
    obtain rfl := List.mem_singleton.mp hs
    have hname (m : Mark Atom) : (Part.expr (.atom m)).Throughout Expr.BaseUnassigned :=
      Part.throughout_expr.mpr ⟨nofun, nofun⟩
    have hfield : (Part.expr (.field (.atom ⟨.name, "a", line⟩) ⟨"f", line⟩)).Throughout
        Expr.BaseUnassigned := by
      refine Part.throughout_expr.mpr ⟨?_, List.forall_mem_singleton.mpr (hname _)⟩
      rintro base ⟨⟩
      rfl
    have hall : (Part.expr (fieldTaken line)).Throughout Expr.BaseUnassigned :=
      Part.throughout_expr.mpr ⟨nofun, List.forall_mem_singleton.mpr hfield⟩
    have hstmt : (Part.stmt (.expression 1 (fieldTaken line))).Throughout Expr.BaseUnassigned :=
      Part.throughout_stmt.mpr (List.forall_mem_singleton.mpr hall)
    exact hstmt e he
  exact ⟨readScript_plain, readScript_apart, hbases, rfl,
    programs_are_told_apart readScript_plain readScript_apart (hbases 1) (hbases 2) rfl⟩

/-- An assignment has no parentheses in print, so a field of it is printed as the assignment of
a field. -/
theorem a_field_of_an_assignment_is_printed_as_another_program :
    readScript "(x = a).f;" = .ok [.expression 1 assignedTaken] ∧
      readScript "x = a.f;" = .ok [.expression 1 (fieldTaken 1)] ∧
      printed [.expression 1 assignedTaken] = "x = a.f\n" ∧
      printed [.expression 1 (fieldTaken 1)] = "x = a.f\n" ∧
      Stmt.allUnlined [.expression 1 assignedTaken] ≠
        Stmt.allUnlined [.expression 1 (fieldTaken 1)] :=
  ⟨readScript_grouped, readScript_plain, rfl, rfl, nofun⟩

end FunkLang
