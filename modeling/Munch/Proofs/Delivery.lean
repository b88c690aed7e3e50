import Munch.Source.Script

/-! What a source delivers up to the first report of the end: characters, with any
number of failures among them. The end itself is no part of a delivery, and nothing
is said of what the source would do after it. A source has one delivery at most, a
text in memory delivers its characters, and a script whatever precedes its first
report of the end. -/
namespace Munch

abbrev Delivery := List (Except ReadError Char)

namespace Delivery

def characters (d : Delivery) : List Char := d.filterMap Except.toOption

def failures (d : Delivery) : List ReadError :=
  d.filterMap fun
    | .ok _ => none
    | .error e => some e

def withoutFailures (d : Delivery) : Delivery := d.filter Except.isOk

@[simp] theorem charactersNil : characters [] = [] := rfl
@[simp] theorem failuresNil : failures [] = [] := rfl

@[simp] theorem charactersOk (ch : Char) (d : Delivery) :
    characters (.ok ch::d) = ch::characters d := rfl

@[simp] theorem charactersError (e : ReadError) (d : Delivery) :
    characters (.error e::d) = characters d := rfl

@[simp] theorem failuresOk (ch : Char) (d : Delivery) : failures (.ok ch::d) = failures d := rfl

@[simp] theorem failuresError (e : ReadError) (d : Delivery) :
    failures (.error e::d) = e::failures d := rfl

@[simp] theorem charactersAppend (d e : Delivery) :
    characters (d ++ e) = characters d ++ characters e := List.filterMap_append

@[simp] theorem failuresAppend (d e : Delivery) :
    failures (d ++ e) = failures d ++ failures e := List.filterMap_append

theorem charactersWithoutFailures (d : Delivery) :
    characters d.withoutFailures = characters d := by
  induction d with
  | nil => rfl
  | cons answer rest ih =>
    cases answer with
    | error e => exact ih
    | ok ch => exact congrArg (List.cons ch) ih

theorem failuresWithoutFailures (d : Delivery) : failures d.withoutFailures = [] := by
  induction d with
  | nil => rfl
  | cons answer rest ih => cases answer <;> exact ih

theorem charactersMapOk (text : List Char) : characters (text.map .ok) = text := by
  induction text with
  | nil => rfl
  | cons ch rest ih => exact congrArg (List.cons ch) ih

theorem failuresMapOk (text : List Char) : failures (text.map .ok) = [] := by
  induction text with
  | nil => rfl
  | cons ch rest ih => exact ih

end Delivery

inductive Delivers {σ : Type} [CharSource σ] : σ → Delivery → Prop where
  | finished {s s'} (read : CharSource.read s = (.ok none,s')) : Delivers s []
  | character {s s' ch rest} (read : CharSource.read s = (.ok (some ch),s'))
      (tail : Delivers s' rest) : Delivers s (.ok ch::rest)
  | failure {s s' e rest} (read : CharSource.read s = (.error e,s'))
      (tail : Delivers s' rest) : Delivers s (.error e::rest)

namespace Delivers
variable {σ : Type} [CharSource σ] {s s' : σ} {d : Delivery}

theorem afterCharacter {ch : Char} (delivers : Delivers s d)
    (read : CharSource.read s = (.ok (some ch),s')) :
    ∃ rest, d = .ok ch::rest ∧ Delivers s' rest := by
  cases delivers with
  | finished h => rw [read] at h; cases h
  | failure h => rw [read] at h; cases h
  | character h tail => rw [read] at h; cases h; exact ⟨_,rfl,tail⟩

theorem afterFailure {e : ReadError} (delivers : Delivers s d)
    (read : CharSource.read s = (.error e,s')) :
    ∃ rest, d = .error e::rest ∧ Delivers s' rest := by
  cases delivers with
  | finished h => rw [read] at h; cases h
  | character h => rw [read] at h; cases h
  | failure h tail => rw [read] at h; cases h; exact ⟨_,rfl,tail⟩

theorem atEnd (delivers : Delivers s d) (read : CharSource.read s = (.ok none,s')) : d = [] := by
  cases delivers with
  | finished => rfl
  | character h => rw [read] at h; cases h
  | failure h => rw [read] at h; cases h

theorem unique {other : Delivery} (one : Delivers s d) (two : Delivers s other) : d = other := by
  induction one generalizing other with
  | finished read => exact (two.atEnd read).symm
  | character read tail ih =>
    obtain ⟨rest,same,tail'⟩ := two.afterCharacter read
    rw [same,ih tail']
  | failure read tail ih =>
    obtain ⟨rest,same,tail'⟩ := two.afterFailure read
    rw [same,ih tail']

end Delivers

theorem TextSource.delivers (text : List Char) : Delivers (TextSource.mk text) (text.map .ok) := by
  induction text with
  | nil => exact .finished rfl
  | cons ch rest ih => exact .character rfl ih

theorem Script.delivers (d : Delivery) (after : List Answer) :
    Delivers (Script.mk (d.map (·.map some) ++ .ok none::after)) d := by
  induction d with
  | nil => exact .finished rfl
  | cons answer rest ih =>
    cases answer with
    | ok ch => exact .character rfl ih
    | error e => exact .failure rfl ih

end Munch
