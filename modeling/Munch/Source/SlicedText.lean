import Munch.Source

/-! A text in memory that is kept whole, with an offset in bytes up to which it has been
handed out. What remains is the slice from there on. -/
namespace Munch

structure SlicedText where
  text : String
  offset : String.Pos.Raw := 0
  deriving DecidableEq

namespace SlicedText

def remaining (s : SlicedText) : String := s.offset.extract s.text s.text.rawEndPos

def shown (s : SlicedText) : Option Char → Answer × SlicedText
  | none => (.ok none,s)
  | some ch => (.ok (some ch),{s with offset := s.offset + ch})

def read (s : SlicedText) : Answer × SlicedText := s.shown s.remaining.toList.head?

def bound (s : SlicedText) : Nat := s.text.utf8ByteSize-s.offset.byteIdx

theorem remainingMore {s : SlicedText} {ch : Char} (more : s.remaining.toList.head? = some ch) :
    s.offset.byteIdx < s.text.utf8ByteSize := by
  apply Nat.lt_of_not_le
  intro past
  have empty : s.remaining = "" := if_pos past
  rw [empty] at more
  cases more

instance : CharSource SlicedText where
  read := read
  bound := bound
  boundLe s := by
    unfold read
    cases s.remaining.toList.head? with
    | none => exact Nat.le_refl _
    | some ch =>
      simp only [shown,bound,String.Pos.Raw.byteIdx_add_char]
      omega
  boundLt s ch s' h := by
    unfold read at h
    cases first : s.remaining.toList.head? with
    | none => rw [first] at h; cases h
    | some ch' =>
      rw [first] at h
      cases h
      have more := remainingMore first
      have size := ch.utf8Size_pos
      simp only [bound,String.Pos.Raw.byteIdx_add_char]
      omega

end SlicedText
end Munch
