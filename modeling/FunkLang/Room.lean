-- The room for nesting. Every pass over a program goes into parts of parts,
-- and each step inside takes some of the room that the pass was given; where
-- the room does not last, the pass stops with an error of its own. The room
-- is shared by all that is under way: a call made inside a loop inside a call
-- has what these have left over.
--
-- Reading takes one for each rule of the grammar that it goes through.
-- Checking takes three for an expression or a statement, and one more for an
-- operand of arithmetic or of a logical operator; into a body it takes two
-- more, and three into a list of statements. Running takes three for an
-- expression or a statement, and one more for an argument, an element, or a
-- body with a scope of its own; a call takes two more. A text takes three
-- into a list or an iter and one into a record, and a comparison takes three
-- into any of them.

namespace FunkLang

/-- The room that a pass starts with. -/
def standardRoom : Nat := 19990

end FunkLang
