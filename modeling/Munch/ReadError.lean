/-! Failures of a character source: a kind and a text. A tokenizer passes them on as they
are and looks at neither, so that a kind without a name in here goes the way of `other`. -/
namespace Munch

inductive ReadError.Kind where
  | notFound | permissionDenied | connectionReset | brokenPipe | wouldBlock
  | invalidData | timedOut | interrupted | unexpectedEof | other
  deriving DecidableEq, Repr

namespace ReadError.Kind

def all : List Kind :=
  [notFound,permissionDenied,connectionReset,brokenPipe,wouldBlock,
    invalidData,timedOut,interrupted,unexpectedEof,other]

def name : Kind → String
  | notFound => "NotFound"
  | permissionDenied => "PermissionDenied"
  | connectionReset => "ConnectionReset"
  | brokenPipe => "BrokenPipe"
  | wouldBlock => "WouldBlock"
  | invalidData => "InvalidData"
  | timedOut => "TimedOut"
  | interrupted => "Interrupted"
  | unexpectedEof => "UnexpectedEof"
  | other => "Other"

theorem memAll (kind : Kind) : kind ∈ all := by cases kind <;> simp [all]

end ReadError.Kind

structure ReadError where
  kind : ReadError.Kind
  text : String
  deriving DecidableEq, Repr

end Munch
