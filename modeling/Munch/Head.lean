import Munch.Input
import Munch.Position

/-! An input and the place of its next character, which move together. -/
namespace Munch

structure Head (σ : Type) where
  input : Input σ
  cursor : Cursor := .start

namespace Head
variable {σ : Type}

def position (h : Head σ) : Position := h.cursor.position

def ahead (h : Head σ) (count : Nat) : List Char := h.input.pending.take count

def consume (h : Head σ) (count : Nat) : Head σ :=
  ⟨h.input.drop count,h.cursor.advanceAll (h.ahead count)⟩

def bound [CharSource σ] (h : Head σ) : Nat := h.input.bound

theorem consumeBound [CharSource σ] {h : Head σ} {count : Nat} (more : h.input.pending ≠ [])
    (positive : 0 < count) : (h.consume count).bound < h.bound := Input.dropBound more positive

end Head
end Munch
