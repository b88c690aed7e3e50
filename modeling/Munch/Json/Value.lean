/-! What a JSON document says. A string stands for the text that its escapes decode to, if
they do. Of a number nothing is kept; the members of an object are kept in order, with names
that are repeated. -/
namespace Munch.Json

inductive Value where
  | null
  | flag (value : Bool)
  | number
  | text (decoded : Option String)
  | array (items : List Value)
  | object (members : List (Option String × Value))

end Munch.Json
