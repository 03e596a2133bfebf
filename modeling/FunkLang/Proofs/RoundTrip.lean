-- Printed expressions are read back. The text of an expression of a program is
-- scanned and read as that expression again, up to lines, given the room for
-- its parentheses; there may be more of them than in the program.
import FunkLang.Proofs.Sums

namespace FunkLang

open Grammar (Ended Derives)
open Reader (Settles TooDeep)

/-- An expression stands somewhere in a program. -/
def OccursIn (e : Expr) (program : List Stmt) : Prop :=
  ∃ s ∈ program, (Part.stmt s).Contains (.expr e)

/-! ## Reading back -/

/-- What is scanned ends with its only end mark, and the tokens before it are spelt. -/
theorem ended_of_cutInto {text : List Char} {ts : List Token} (line : Int)
    (h : CutInto text (ts.map Mark.lexeme)) :
    Ended ts (endMark line) ∧ ∀ t ∈ ts, t.IsSpelt := by
  have hspelt : ∀ t ∈ ts, t.IsSpelt := fun t ht => h.spelt _ (List.mem_map_of_mem ht)
  exact ⟨⟨rfl, fun t ht => (hspelt t ht).ne_finish⟩, hspelt⟩

/-- Every expression of a program that was read from a text is spelt. -/
theorem spelt_of_readScript {source : String} {program : List Stmt} {e : Expr}
    (h : readScript source = .ok program) (he : OccursIn e program) :
    (Part.expr e).Throughout Expr.MarksSpelt := by
  obtain ⟨tokens, hscan, hparse⟩ := readScript_eq_ok.mp h
  obtain ⟨ts, line, rfl, hcut⟩ := cutInto_of_scan hscan
  obtain ⟨hended, hspelt⟩ := ended_of_cutInto line hcut
  have hprogram := Grammar.derived_of_parsed hended hparse
  obtain ⟨s, hs, hcontains⟩ := he
  have hstmt : (Part.stmt s).Throughout Expr.MarksSpelt := Derives.spelt hprogram hspelt s hs
  exact hstmt.within hcontains

end FunkLang
