-- A message with the line that it is about.

namespace FunkLang

/-- A message, followed by its line if it has one. -/
def located (message : String) : Option Int → String
  | none => message
  | some line => message ++ " at line " ++ toString line

end FunkLang
