import Munch.ReadError

/-! Bytes that arrive in packets. Looking at the next byte takes packets while none
is at hand; a failure is reported once, and a packet without bytes is reported as
the end of the input once. After the last packet the input has ended for good.
`peek` shows the next byte and `skip` reads the byte so shown; `unread` holds the
bytes still to come, whatever interrupts them. -/
namespace Munch

inductive Packet where
  | bytes (data : List UInt8)
  | failure (failure : ReadError)
  deriving DecidableEq, Repr

structure ByteFeed where
  buffer : List UInt8
  packets : List Packet
  deriving DecidableEq, Repr

namespace ByteFeed

def ofPackets (packets : List Packet) : ByteFeed := ⟨[],packets⟩

def peek : ByteFeed → Except ReadError (Option UInt8) × ByteFeed
  | ⟨b::buffer,packets⟩ => (.ok (some b),⟨b::buffer,packets⟩)
  | ⟨[],[]⟩ => (.ok none,⟨[],[]⟩)
  | ⟨[],.bytes []::packets⟩ => (.ok none,⟨[],packets⟩)
  | ⟨[],.bytes (b::data)::packets⟩ => (.ok (some b),⟨b::data,packets⟩)
  | ⟨[],.failure e::packets⟩ => (.error e,⟨[],packets⟩)

def skip (f : ByteFeed) : ByteFeed := ⟨f.buffer.tail,f.packets⟩

def unread (f : ByteFeed) : List UInt8 :=
  f.buffer ++ f.packets.flatMap fun
    | .bytes data => data
    | .failure _ => []

theorem peekUnread (f : ByteFeed) : f.peek.2.unread = f.unread := by
  fun_cases peek f <;> simp [unread]

theorem skipUnread {f : ByteFeed} {b : UInt8} (h : f.peek.1 = .ok (some b)) :
    b :: f.peek.2.skip.unread = f.unread := by
  fun_cases peek f <;> simp_all [peek,unread,skip]

theorem peekLength {f f' : ByteFeed} {answer : Except ReadError (Option UInt8)}
    (h : f.peek = (answer,f')) : f'.unread.length = f.unread.length := by
  have same := f.peekUnread
  rw [h] at same
  exact congrArg List.length same

theorem skipLength {f f' : ByteFeed} {b : UInt8} (h : f.peek = (.ok (some b),f')) :
    f'.skip.unread.length+1 = f.unread.length := by
  have same := skipUnread (f := f) (b := b) (by rw [h])
  rw [h] at same
  exact congrArg List.length same

end ByteFeed
end Munch
