import Prototypal.Text.Blank

/-!
# Prototypal — Settings — LogStyle

The styles in which events are logged (`LogStyle`), and the names they are asked for by.
-/

namespace Prototypal

/-- How events are written to the log. -/
inductive LogStyle where
  | text
  | tree
  | json
deriving DecidableEq, Repr

namespace LogStyle

def name : LogStyle → String
  | text => "text"
  | tree => "tree"
  | json => "json"

/-- The style that a name asks for; plain text for a name of none. -/
def ofName (s : String) : LogStyle :=
  match Text.keyword s with
  | "tree" => tree
  | "json" => json
  | _ => text

end LogStyle

end Prototypal
