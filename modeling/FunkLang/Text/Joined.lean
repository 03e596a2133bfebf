-- Texts put one after the other with a separator between them.

namespace FunkLang

/-- The parts in order, with the separator between each two. -/
def joined (separator : String) : List String → String
  | [] => ""
  | first :: rest => rest.foldl (fun text part => text ++ separator ++ part) first

end FunkLang
