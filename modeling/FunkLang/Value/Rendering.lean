-- The text of a value. A list, an iter or a record shows its parts, as deep
-- as the room lasts; one that contains itself has no text at any room.
import FunkLang.Number.Numeral
import FunkLang.Text.Joined
import FunkLang.Value

namespace FunkLang

/-- The text of a value, if its parts fit into the room. -/
def Value.text? (h : Heap) : (room : Nat) → Value → Option String
  | _ + 1, nil => some "nil"
  | _ + 1, bool b => some (if b then "true" else "false")
  | _ + 1, number n => some n.text
  | _ + 1, string s => some s
  | _ + 1, builtin b => some ("<builtin " ++ b.name ++ ">")
  | _ + 1, function i => some ("<funk " ++ ((h.functions[i]?).map (·.name)).getD "" ++ ">")
  | room + 3, list i => do
    let parts ← (h.list i).toList.mapM (text? h room)
    return "[" ++ joined ", " parts ++ "]"
  | room + 3, iter i => do
    let parts ← (h.iter i).toList.mapM (text? h room)
    return "iter[" ++ joined ", " parts ++ "]"
  | room + 1, record i => do
    let parts ← (h.record i).entries.mapM fun (key, part) =>
      (text? h room part).map fun text => key ++ ":" ++ text
    return "\x7b" ++ joined ", " parts ++ "\x7d"
  | _, _ => none

end FunkLang
