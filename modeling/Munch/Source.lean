import Munch.ReadError

/-! Sources hand out one character at a time, report the end of the input, and may
fail. `bound` is at least the number of characters still to come and falls with
each one delivered, so a reader that asks until the end finishes; a source that has no
such bound is asked under a budget. The plainest source is a text in memory. -/
namespace Munch

/-- A character, none at the end, or a failure. -/
abbrev Answer := Except ReadError (Option Char)

class CharSource (σ : Type) where
  read : σ → Answer × σ
  bound : σ → Nat
  boundLe : ∀ s, bound (read s).2 ≤ bound s
  boundLt : ∀ s ch s', read s = (.ok (some ch),s') → bound s' < bound s

structure TextSource where
  remaining : List Char
  deriving DecidableEq, Repr

namespace TextSource

def ofString (text : String) : TextSource := ⟨text.toList⟩

def read : TextSource → Answer × TextSource
  | ⟨[]⟩ => (.ok none,⟨[]⟩)
  | ⟨ch::rest⟩ => (.ok (some ch),⟨rest⟩)

instance : CharSource TextSource where
  read := read
  bound s := s.remaining.length
  boundLe
    | ⟨[]⟩ => Nat.le_refl _
    | ⟨_::_⟩ => Nat.le_succ _
  boundLt
    | ⟨[]⟩, _, _, h => by simp [read] at h
    | ⟨_::_⟩, _, _, h => by
      simp only [read,Prod.mk.injEq] at h
      rw [← h.2]; exact Nat.lt_succ_self _

end TextSource
end Munch
