import EffectGraph.Number.Layout
import EffectGraph.Value.Basic
/-!
# The text of values

A value is written for people: strings bare, references with the kind of thing and a number sign,
arrays in brackets with a comma and a blank between elements, foreign objects as the name of their
type in angle brackets.
-/

namespace EffectGraph.Value

mutual

def text : Value → String
  | null => "null"
  | bool b => if b then "true" else "false"
  | int i => intText i.toInt
  | float x => x.text
  | string s => s
  | card id => "card#" ++ natText id.toNat
  | buff id => "buff#" ++ natText id.toNat
  | player id => "player#" ++ natText id.toNat
  | array items => "[" ++ textAll items ++ "]"
  | foreign o => "<" ++ o.typeName ++ ">"

def textAll : List Value → String
  | [] => ""
  | [v] => v.text
  | v :: vs => v.text ++ ", " ++ textAll vs

end

end EffectGraph.Value
