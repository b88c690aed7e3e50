import Mathlib.Data.List.Basic
import Munch.Json.Reader
import Munch.Proofs.JsonGrammar
import Munch.Proofs.Sequences

/-! What readers of JSON come to on the bytes of a text. Of a reader only what it gives and
what it leaves is kept, or that it refuses, so that readers one after the other come to what
each of them comes to. Main statements: a reader that looks at the next character passes
blanks up to the first character that is none, and sees that character. -/
namespace Munch.Json

/- The cells of the bytes of a text. -/
def cellsOfText (w : List Char) : List Cell :=
  w.flatMap fun ch => (String.utf8EncodeChar ch).map .byte

def Ascii (ch : Char) : Prop := ch.toNat < 128

instance (ch : Char) : Decidable (Ascii ch) := inferInstanceAs (Decidable (_ < _))

theorem encodeAscii {ch : Char} (low : Ascii ch) :
    String.utf8EncodeChar ch = [UInt8.ofNat ch.toNat] := by
  rw [String.utf8EncodeChar]
  exact if_pos (Nat.le_of_lt_succ low)

theorem byteOfAscii {ch : Char} (low : Ascii ch) : (UInt8.ofNat ch.toNat).toNat = ch.toNat :=
  Utf8.byteToNat (Nat.lt_trans low (by decide))

theorem cellsAscii {ch : Char} (low : Ascii ch) (w : List Char) :
    cellsOfText (ch::w) = .byte (UInt8.ofNat ch.toNat) :: cellsOfText w := by
  rw [cellsOfText,List.flatMap_cons,encodeAscii low]
  rfl

/- What a reader gives and what it leaves, if it does not refuse. -/
def Reader.result {α : Type} (r : Reader α) (cells : List Cell) : Option (α × List Cell) :=
  (r cells).toOption.map fun p => (p.value,p.rest)

namespace Reader
variable {α β : Type}

theorem resultWiden {less more : List Cell} (x : Except Rejection (Parsed α less))
    (h : less.length ≤ more.length) :
    (x.map (.widen h : Parsed α less → Parsed α more)).toOption.map (fun p => (p.value,p.rest)) =
      x.toOption.map fun p => (p.value,p.rest) := by
  cases x <;> rfl

theorem resultPure (a : α) (cells : List Cell) :
    (pure a : Reader α).result cells = some (a,cells) := rfl

theorem resultBind (r : Reader α) (f : α → Reader β) (cells : List Cell) :
    (r >>= f).result cells = (r.result cells).bind fun p => (f p.1).result p.2 := by
  simp only [result,bind]
  cases r cells with
  | error e => rfl
  | ok p => exact resultWiden _ p.le

theorem resultRefuse (cells : List Cell) : (refuse : Reader α).result cells = none := rfl

theorem resultIte {c : Prop} [Decidable c] (r r' : Reader α) (cells : List Cell) :
    (if c then r else r').result cells = if c then r.result cells else r'.result cells := by
  split <;> rfl

/- A reader that never gives anything. -/
def Refuses (r : Reader α) : Prop := ∀ cells, r.result cells = none

theorem refusesBind (r : Reader α) {f : α → Reader β} (refuses : ∀ a, Refuses (f a)) :
    Refuses (r >>= f) := by
  intro cells
  rw [resultBind]
  cases r.result cells with
  | none => rfl
  | some p => exact refuses p.1 p.2

theorem refusesAll : Refuses (refuse : Reader α) := fun _ => rfl

theorem peekAt {w : List Char} (low : ∀ ch ∈ w.head?, Ascii ch) :
    peek.result (cellsOfText w) = some (w.head?,cellsOfText w) := by
  cases w with
  | nil => rfl
  | cons ch w =>
    have low := low ch rfl
    rw [cellsAscii low]
    simp only [result,peek,Except.toOption,Option.map_some,byteOfAscii low,List.head?_cons]
    rw [Char.ofNat_toNat]

theorem peekHead {ch : Char} (low : Ascii ch) (w : List Char) :
    peek.result (cellsOfText (ch::w)) = some (some ch,cellsOfText (ch::w)) :=
  peekAt fun c first => by cases first; exact low

theorem eatAt {ch : Char} (low : Ascii ch) (w : List Char) :
    eat.result (cellsOfText (ch::w)) = some ((),cellsOfText w) := by
  rw [cellsAscii low]
  rfl

theorem charAt {ch : Char} (low : Ascii ch) (w : List Char) :
    char.result (cellsOfText (ch::w)) = some (ch,cellsOfText w) := by
  rw [char,resultBind,cellsAscii low]
  simp only [result,byte,Except.toOption,Option.map_some,Option.bind_some]
  rw [byteOfAscii low,Char.ofNat_toNat]
  rfl

theorem literalAt {text : List Char} (low : text.Forall Ascii) (w : List Char) :
    (literal text).result (cellsOfText (text ++ w)) = some ((),cellsOfText w) := by
  induction text with
  | nil => rfl
  | cons ch text ih =>
    obtain ⟨first,others⟩ := (List.forall_cons _ _ _).mp low
    rw [literal,resultBind,List.cons_append,charAt first,Option.bind_some,if_pos rfl]
    exact ih others

/-! Blanks. -/

/- A character that ends a row of blanks. -/
def Solid (ch : Char) : Prop := Ascii ch ∧ ch ∉ blanks

instance (ch : Char) : Decidable (Solid ch) := inferInstanceAs (Decidable (_ ∧ _))

theorem blankCell {ch : Char} (blank : ch ∈ blanks) (w : List Char) :
    ∃ cell, isBlank cell = true ∧ cellsOfText (ch::w) = cell::cellsOfText w := by
  have all : blanks.Forall fun ch => Ascii ch ∧ isBlank (.byte (UInt8.ofNat ch.toNat)) = true := by
    decide
  obtain ⟨low,isBlank⟩ := List.forall_iff_forall_mem.mp all ch blank
  exact ⟨_,isBlank,cellsAscii low w⟩

theorem solidCell {ch : Char} (solid : Solid ch) :
    isBlank (.byte (UInt8.ofNat ch.toNat)) = false := by
  obtain ⟨low,solid⟩ := solid
  rw [Bool.eq_false_iff]
  intro blank
  apply solid
  have code : Char.ofNat (UInt8.ofNat ch.toNat).toNat = ch := by
    rw [byteOfAscii low,Char.ofNat_toNat]
  simp only [isBlank,Bool.or_eq_true,decide_eq_true_eq] at blank
  rcases blank with ((is | is) | is) | is <;> rw [is] at code <;> rw [← code] <;> decide

/- Blanks are passed up to a character that is none. -/
theorem blanksDropped {w rest : List Char} (passed : Blanks w rest) :
    (cellsOfText w).dropWhile isBlank = (cellsOfText rest).dropWhile isBlank := by
  induction passed with
  | none => rfl
  | more blank others ih =>
    obtain ⟨cell,isBlank,cells⟩ := blankCell blank _
    rw [cells,List.dropWhile_cons_of_pos isBlank,ih]

theorem solidReached {ch : Char} {w rest : List Char} (passed : Blanks w (ch::rest))
    (solid : Solid ch) : (cellsOfText w).dropWhile isBlank = cellsOfText (ch::rest) := by
  rw [blanksDropped passed,cellsAscii solid.1,
    List.dropWhile_cons_of_neg (by rw [solidCell solid]; exact Bool.false_ne_true)]

theorem skipBlanksAt (cells : List Cell) :
    skipBlanks.result cells = some ((),cells.dropWhile isBlank) := rfl

theorem lookAt {ch : Char} {w rest : List Char} (passed : Blanks w (ch::rest))
    (solid : Solid ch) : look.result (cellsOfText w) = some (ch,cellsOfText (ch::rest)) := by
  rw [look,resultBind,skipBlanksAt,Option.bind_some,resultBind,solidReached passed solid,
    peekHead solid.1]
  rfl

theorem expectAt {ch : Char} {w rest : List Char} (passed : Blanks w (ch::rest))
    (solid : Solid ch) : (expect ch).result (cellsOfText w) = some ((),cellsOfText rest) := by
  rw [expect,resultBind,lookAt passed solid,Option.bind_some,if_pos rfl,eatAt solid.1]

theorem expectOther {ch other : Char} {w rest : List Char} (passed : Blanks w (ch::rest))
    (solid : Solid ch) (differs : ch ≠ other) : (expect other).result (cellsOfText w) = none := by
  rw [expect,resultBind,lookAt passed solid,Option.bind_some,if_neg differs,resultRefuse]

theorem finishAt {w : List Char} (passed : Blanks w []) :
    finish.result (cellsOfText w) = some ((),[]) := by
  rw [finish,resultBind,skipBlanksAt,Option.bind_some,blanksDropped passed]
  rfl

theorem frontAt {ch : Char} {w rest : List Char} (passed : Blanks w (ch::rest))
    (solid : Solid ch) : ∃ head, front (cellsOfText w) = .ok head ∧ head.ch = ch ∧
      head.rest = cellsOfText rest := by
  have reached := solidReached passed solid
  rw [cellsAscii solid.1] at reached
  unfold front
  split
  · rename_i left
    cases reached.symm.trans left
  · rename_i _ _ left
    cases reached.symm.trans left
    exact ⟨_,rfl,by rw [byteOfAscii solid.1,Char.ofNat_toNat],rfl⟩
  · rename_i _ left
    cases reached.symm.trans left
  · rename_i _ left
    cases reached.symm.trans left

end Reader
end Munch.Json
