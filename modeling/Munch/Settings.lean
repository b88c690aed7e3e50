/-! Settings of a tokenizer and their text as a JSON object: how much of a comment its
token shows, and whether block comments nest. -/
namespace Munch

inductive CommentText where
  /-- All of it; the end of a line is never part of a comment. -/
  | withDelimiters
  /-- All but the marker that opens it and the one that closes it. -/
  | contentOnly
  deriving DecidableEq, Repr

namespace CommentText

def all : List CommentText := [withDelimiters,contentOnly]

def name : CommentText → String
  | withDelimiters => "with_delimiters"
  | contentOnly => "content_only"

def ofName? (name : String) : Option CommentText := all.find? fun c => c.name = name

theorem ofNameIff {name : String} {c : CommentText} : ofName? name = some c ↔ name = c.name := by
  constructor
  · intro h
    have := List.find?_some h
    simpa using (of_decide_eq_true this).symm
  · rintro rfl; cases c <;> decide

end CommentText

structure Settings where
  commentText : CommentText := .withDelimiters
  nestedBlockComments : Bool := false
  deriving DecidableEq, Repr

namespace Settings

instance : Inhabited Settings := ⟨{}⟩

def toJson (s : Settings) : String :=
  "\x7b\"comment_text\":\"" ++ s.commentText.name ++ "\",\"nested_block_comments\":" ++
    toString s.nestedBlockComments ++ "\x7d"

end Settings
end Munch
