-- The printed form of a tree. Every operation stands in parentheses, so the
-- text shows the grouping without any rule of precedence. A statement is a
-- list of lines; what stands in a block is indented.
import FunkLang.Text.Joined
import FunkLang.Tree

namespace FunkLang

/-! ## Expressions -/

/-- The first quote that a text does not contain. -/
def quoteFor (text : String) : Char :=
  (['"', '\'', '\x60'].find? fun quote => !text.toList.contains quote).getD '"'

/-- A text between quotes. -/
def inQuotes (text : String) : String :=
  let quote := (quoteFor text).toString
  quote ++ text ++ quote

/-- A single token as it is written in a script. -/
def Mark.atomText (m : Mark Atom) : String :=
  match m.kind with
  | .string => inQuotes m.text
  | _ => m.text

mutual

/-- The text of an expression. -/
def Expr.text : Expr → String
  | .atom mark => mark.atomText
  | .unary op operand => "(" ++ op.text ++ operand.text ++ ")"
  | .binary left op right => "(" ++ left.text ++ " " ++ op.text ++ " " ++ right.text ++ ")"
  | .logical op left right => "(" ++ left.text ++ " " ++ op.text ++ " " ++ right.text ++ ")"
  | .assign name value => name.text ++ " = " ++ value.text
  | .assignIndex collection place value =>
    collection.text ++ "[" ++ place.text ++ "] = " ++ value.text
  | .assignField collection key value =>
    collection.text ++ "." ++ key.text ++ " = " ++ value.text
  | .choice condition yes no =>
    "(" ++ yes.text ++ " if " ++ condition.text ++ " else " ++ no.text ++ ")"
  | .call callee arguments => callee.text ++ "(" ++ joined ", " (Expr.texts arguments) ++ ")"
  | .list _ elements => "[" ++ joined ", " (Expr.texts elements) ++ "]"
  | .record _ entries => "\x7b" ++ joined ", " (Expr.entryTexts entries) ++ "\x7d"
  | .index collection place => collection.text ++ "[" ++ place.text ++ "]"
  | .field collection key => collection.text ++ "." ++ key.text

/-- The texts of a list of expressions. -/
def Expr.texts : List Expr → List String
  | [] => []
  | e :: rest => e.text :: Expr.texts rest

/-- The texts of the entries of a record. -/
def Expr.entryTexts : List (Name × Expr) → List String
  | [] => []
  | (key, value) :: rest => (key.text ++ ": " ++ value.text) :: Expr.entryTexts rest

end

/-! ## Statements -/

/-- Lines, each moved in by one step. -/
def indented (lines : List String) : List String := lines.map fun line => "  " ++ line

/-- The lines of a block around the lines of its statements. -/
def braced (lines : List String) : List String := "\x7b" :: indented lines ++ ["\x7d"]

/-- The lines of a statement under a header. A block opens on the line of its header. -/
def underHeader (header : String) (body : Stmt) (lines : List String) : List String :=
  match body, lines with
  | .block _ _, first :: rest => (header ++ " " ++ first) :: rest
  | _, lines => header :: indented lines

mutual

/-- The lines of a statement. -/
def Stmt.lines : Stmt → List String
  | .expression _ value => [value.text]
  | .print _ value => ["print (" ++ value.text ++ ")"]
  | .make _ name none => ["make " ++ name.text]
  | .make _ name (some value) => ["make " ++ name.text ++ " = " ++ value.text]
  | .block _ body => braced (Stmt.allLines body)
  | .if_ _ condition yes none => underHeader ("if " ++ condition.text) yes yes.lines
  | .if_ _ condition yes (some no) =>
    underHeader ("if " ++ condition.text) yes yes.lines ++ underHeader "else" no no.lines
  | .while_ _ condition body => underHeader ("while " ++ condition.text) body body.lines
  | .funk _ name params bodyLine body =>
    underHeader ("funk " ++ name.text ++ "(" ++ joined ", " (params.map (·.text)) ++ ")")
      (.block bodyLine []) (braced (Stmt.allLines body))
  | .return_ _ none => ["return"]
  | .return_ _ (some value) => ["return " ++ value.text]
  | .with_ _ value name body =>
    underHeader ("with " ++ value.text ++ " as " ++ name.text) body body.lines
  | .for_ _ name items body =>
    underHeader ("for " ++ name.text ++ " in " ++ items.text) body body.lines

/-- The lines of a list of statements. -/
def Stmt.allLines : List Stmt → List String
  | [] => []
  | s :: rest => s.lines ++ Stmt.allLines rest

end

/-- The printed form of a program, each line ended. -/
def printed (program : List Stmt) : String :=
  (Stmt.allLines program).foldl (fun text line => text ++ line ++ "\n") ""

end FunkLang
