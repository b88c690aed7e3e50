import Munch.Error
import Munch.Json.Value
import Munch.Settings

/-! What is declared about settings for those who read documents: the names of the members,
what the values of each are, and what stands for a member that is not given. The reading itself
is no part of the library. It is left to a decoder, of which it is assumed only how it takes
the members of an object, one after the other, by what has been declared. -/
namespace Munch
open Json

/- What the values of a member are: truth values, or variants that go by their names. -/
inductive Shape : Type → Type 1 where
  | flag : Shape Bool
  | variants {β : Type} (all : List β) (name : β → String) : Shape β

structure Declared (α : Type) where
  Key : Type
  Val : Key → Type
  name : Key → String
  distinct : ∀ j k, name j = name k → j = k
  shape : ∀ k, Shape (Val k)
  absent : ∀ k, Val k
  build : (∀ k, Val k) → α

/- A reader of documents for what is declared. Its state is what it keeps of the members that
it has taken from an object. -/
structure Decoder {α : Type} (d : Declared α) where
  value : {β : Type} → Shape β → Value → Except Rejection β
  State : Type
  start : State
  held : State → ∀ k, Option (d.Val k)
  member : State → String × Value → Except Rejection State
  complete : State → ∀ k, d.Val k
  document : String → Except Rejection α

namespace Settings

inductive Key where
  | commentText | nestedBlockComments
  deriving DecidableEq

def Key.Val : Key → Type
  | commentText => CommentText
  | nestedBlockComments => Bool

def Key.name : Key → String
  | commentText => "comment_text"
  | nestedBlockComments => "nested_block_comments"

def declared : Declared Settings where
  Key := Key
  Val := Key.Val
  name := Key.name
  distinct := by rintro ⟨⟩ ⟨⟩ <;> decide
  shape
    | .commentText => .variants CommentText.all CommentText.name
    | .nestedBlockComments => .flag
  absent
    | .commentText => ({} : Settings).commentText
    | .nestedBlockComments => ({} : Settings).nestedBlockComments
  build val := ⟨val .commentText,val .nestedBlockComments⟩

/- What a decoder refuses is no settings. -/
def ofAnswer : Except Rejection Settings → Except Error Settings
  | .ok settings => .ok settings
  | .error rejection => .error (Cause.settings rejection)

/- Settings from the text of a document, by whatever reads documents. -/
def fromText (document : String → Except Rejection Settings) (text : String) :
    Except Error Settings :=
  ofAnswer (document text)

end Settings
end Munch
