import Munch.Source
import Munch.Source.ByteFeed

/-! Characters decoded from UTF-8 bytes. The leading byte tells the width of a
sequence and holds the high bits of the code point, each byte after it six more. A
byte that does not continue the sequence ends it and stays unread; a sequence cut
short, misled or not the shortest form of a character is a failure, after which
reading goes on with the next byte. What was read of a character when the feed
fails is lost. -/
namespace Munch.Utf8

def width (lead : UInt8) : Option Nat :=
  if lead.toNat < 0x80 then some 1
  else if lead.toNat < 0xC2 then none
  else if lead.toNat < 0xE0 then some 2
  else if lead.toNat < 0xF0 then some 3
  else if lead.toNat < 0xF5 then some 4
  else none

def isContinuation (b : UInt8) : Bool := 0x80 ≤ b.toNat && b.toNat < 0xC0

def leadBits (lead : UInt8) : Nat → Nat
  | 0 => lead.toNat
  | 1 => lead.toNat % 32
  | 2 => lead.toNat % 16
  | _ => lead.toNat % 8

def leastScalar : Nat → Nat
  | 0 => 0
  | 1 => 0x80
  | 2 => 0x800
  | _ => 0x10000

def ofScalar? (n : Nat) : Option Char :=
  if h : n.isValidChar then some (Char.ofNatAux n h) else none

/-- The character of a leading byte and its continuation bytes, if they are its
shortest form. -/
def assemble (lead : UInt8) (tail : List UInt8) : Option Char :=
  let scalar := tail.foldl (fun n b => n*64+b.toNat%64) (leadBits lead tail.length)
  if leastScalar tail.length ≤ scalar then ofScalar? scalar else none

def hexByte (b : UInt8) : String :=
  String.ofList [Nat.digitChar (b.toNat/16),Nat.digitChar (b.toNat%16)]

def badLead (b : UInt8) : ReadError := ⟨.invalidData,s!"invalid UTF-8 lead byte 0x{hexByte b}"⟩
def badContinuation (b : UInt8) : ReadError :=
  ⟨.invalidData,s!"invalid UTF-8 continuation byte 0x{hexByte b}"⟩
def truncated : ReadError := ⟨.unexpectedEof,"truncated UTF-8 sequence"⟩
def illFormed : ReadError := ⟨.invalidData,"invalid utf-8 sequence of 1 bytes from index 0"⟩

def continuations : Nat → ByteFeed → Except ReadError (List UInt8) × ByteFeed
  | 0,feed => (.ok [],feed)
  | count+1,feed => match feed.peek with
    | (.error e,feed) => (.error e,feed)
    | (.ok none,feed) => (.error truncated,feed)
    | (.ok (some b),feed) =>
      if isContinuation b then match continuations count feed.skip with
        | (.ok tail,feed) => (.ok (b::tail),feed)
        | (.error e,feed) => (.error e,feed)
      else (.error (badContinuation b),feed)

def finish (lead : UInt8) (feed : ByteFeed) : Answer × ByteFeed :=
  match width lead with
  | none => (.error (badLead lead),feed)
  | some width => match continuations (width-1) feed with
    | (.error e,feed) => (.error e,feed)
    | (.ok tail,feed) => match assemble lead tail with
      | some ch => (.ok (some ch),feed)
      | none => (.error illFormed,feed)

def read (feed : ByteFeed) : Answer × ByteFeed :=
  match feed.peek with
  | (.error e,feed) => (.error e,feed)
  | (.ok none,feed) => (.ok none,feed)
  | (.ok (some lead),feed) => finish lead feed.skip

theorem continuationsUnread (count : Nat) (feed : ByteFeed) :
    (continuations count feed).2.unread.length ≤ feed.unread.length := by
  fun_induction continuations count feed with
  | case1 => exact Nat.le_refl _
  | case2 _ _ _ _ shown => exact Nat.le_of_eq (ByteFeed.peekLength shown)
  | case3 _ _ _ shown => exact Nat.le_of_eq (ByteFeed.peekLength shown)
  | case4 _ _ _ _ shown _ _ _ rest ih =>
    have less := ByteFeed.skipLength shown
    rw [rest] at ih
    simp only at ih ⊢
    omega
  | case5 _ _ _ _ shown _ _ _ rest ih =>
    have less := ByteFeed.skipLength shown
    rw [rest] at ih
    simp only at ih ⊢
    omega
  | case6 _ _ _ _ shown _ => exact Nat.le_of_eq (ByteFeed.peekLength shown)

theorem finishUnread (lead : UInt8) (feed : ByteFeed) :
    (finish lead feed).2.unread.length ≤ feed.unread.length := by
  unfold finish
  split
  · exact Nat.le_refl _
  · rename_i n _
    have rest := continuationsUnread (n-1) feed
    split
    · rename_i h; rwa [h] at rest
    · rename_i h; rw [h] at rest; split <;> exact rest

theorem readUnread (feed : ByteFeed) : (read feed).2.unread.length ≤ feed.unread.length := by
  unfold read
  split
  · exact Nat.le_of_eq (ByteFeed.peekLength ‹_›)
  · exact Nat.le_of_eq (ByteFeed.peekLength ‹_›)
  · rename_i lead feed' shown
    have less := ByteFeed.skipLength shown
    have rest := finishUnread lead feed'.skip
    omega

theorem readConsumes {feed feed' : ByteFeed} {ch : Char} (h : read feed = (.ok (some ch),feed')) :
    feed'.unread.length < feed.unread.length := by
  unfold read at h
  split at h
  · simp at h
  · simp at h
  · rename_i lead feed'' shown
    have less := ByteFeed.skipLength shown
    have rest := finishUnread lead feed''.skip
    rw [h] at rest
    simp only at rest
    omega

end Munch.Utf8

namespace Munch

structure Utf8Source where
  feed : ByteFeed
  deriving DecidableEq, Repr

namespace Utf8Source

def read (s : Utf8Source) : Answer × Utf8Source :=
  let (answer,feed) := Utf8.read s.feed
  (answer,⟨feed⟩)

instance : CharSource Utf8Source where
  read := read
  bound s := s.feed.unread.length
  boundLe s := Utf8.readUnread s.feed
  boundLt s ch s' h := by
    have parts := Prod.mk.inj h
    have result : Utf8.read s.feed = (.ok (some ch),s'.feed) := by
      rw [← parts.2]; exact Prod.ext parts.1 rfl
    exact Utf8.readConsumes result

end Utf8Source
end Munch
