import Munch.Json.Number
import Munch.Proofs.JsonReading

/-! Numbers in JSON. A number ends where no digit, point or mark of an exponent follows, so
that what may follow a value ends it. Main statements: a number is passed over up to what
follows it; a number that stands where none may is always refused. -/
namespace Munch.Json.Reader

/- What can follow a value. -/
def Delimited (w : List Char) : Prop := ∀ ch ∈ w.head?, ch ∈ blanks ++ [',',']','\x7d']

theorem delimitedCons {ch : Char} {w : List Char} (delimits : ch ∈ blanks ++ [',',']','\x7d']) :
    Delimited (ch::w) := fun c first => by cases first; exact delimits

theorem delimitedBlanks {w rest : List Char} (passed : Blanks w rest)
    (delimited : Delimited rest) : Delimited w := by
  cases passed with
  | none => exact delimited
  | more blank => exact delimitedCons (List.mem_append_left _ blank)

/- What comes next is not of a kind, if anything does. -/
def Stops (p : Char → Prop) (w : List Char) : Prop := ∀ ch ∈ w.head?, Ascii ch ∧ ¬ p ch

theorem stopsCons {p : Char → Prop} {ch : Char} {w : List Char} (low : Ascii ch) (stops : ¬ p ch) :
    Stops p (ch::w) := fun c first => by cases first; exact ⟨low,stops⟩

theorem Stops.weaken {p q : Char → Prop} {w : List Char} (stops : Stops p w)
    (weaker : ∀ ch, q ch → p ch) : Stops q w :=
  fun ch first => ⟨(stops ch first).1,fun is => (stops ch first).2 (weaker ch is)⟩

theorem peekStops {p : Char → Prop} {w : List Char} (stops : Stops p w) :
    peek.result (cellsOfText w) = some (w.head?,cellsOfText w) :=
  peekAt fun ch first => (stops ch first).1

/- A character that goes on with a number. -/
def Continues (ch : Char) : Prop := IsDigit ch ∨ ch = '.' ∨ ch = 'e' ∨ ch = 'E'

instance (ch : Char) : Decidable (Continues ch) := inferInstanceAs (Decidable (_ ∨ _))

theorem delimitedStops {w : List Char} (delimited : Delimited w) : Stops Continues w := by
  have stops : (blanks ++ [',',']','\x7d']).Forall fun ch => Ascii ch ∧ ¬ Continues ch := by
    decide
  exact fun ch first => List.forall_iff_forall_mem.mp stops ch (delimited ch first)

theorem digitAscii {ch : Char} (digit : IsDigit ch) : Ascii ch :=
  Nat.lt_of_le_of_lt digit.2 (by decide)

theorem digitDiffers {ch c : Char} (digit : IsDigit ch) (other : ¬ IsDigit c) : ch ≠ c := by
  rintro rfl
  exact other digit

theorem digitOf {ch : Char} (digit : IsDigit ch) : digit? ch = some (ch.toNat - '0'.toNat) :=
  if_pos digit

theorem digitNone {ch : Char} (other : ¬ IsDigit ch) : digit? ch = none := if_neg other

theorem digitCell {ch : Char} (low : Ascii ch) :
    cellDigit? (.byte (UInt8.ofNat ch.toNat)) = digit? ch := by
  rw [cellDigit?,byteOfAscii low,Char.ofNat_toNat]

theorem digitsStop {w : List Char} (stops : Stops IsDigit w) :
    digits.result (cellsOfText w) = some ([],cellsOfText w) := by
  cases w with
  | nil => rfl
  | cons ch w =>
    obtain ⟨low,other⟩ := stops ch rfl
    have none : cellDigit? (.byte (UInt8.ofNat ch.toNat)) = none := by
      rw [digitCell low,digitNone other]
    rw [cellsAscii low]
    simp [result,digits,Except.toOption,none]

theorem digitsMore {ch : Char} (digit : IsDigit ch) (w : List Char) :
    digits.result (cellsOfText (ch::w)) =
      (digits.result (cellsOfText w)).map fun p => ((ch.toNat - '0'.toNat)::p.1,p.2) := by
  have some : cellDigit? (.byte (UInt8.ofNat ch.toNat)) = some (ch.toNat - '0'.toNat) := by
    rw [digitCell (digitAscii digit),digitOf digit]
  rw [cellsAscii (digitAscii digit)]
  simp [result,digits,Except.toOption,some]

theorem digitsAt {w rest : List Char} (spelled : Digits w rest) (stops : Stops IsDigit rest) :
    ∃ ds, digits.result (cellsOfText w) = some (ds,cellsOfText rest) := by
  induction spelled with
  | none => exact ⟨[],digitsStop stops⟩
  | more digit others ih =>
    obtain ⟨ds,read⟩ := ih stops
    exact ⟨_,by rw [digitsMore digit,read]; rfl⟩

theorem signAt {w rest : List Char} {ch : Char} (spelled : Sign w (ch::rest)) (digit : IsDigit ch) :
    ∃ positive, exponentSign.result (cellsOfText w) = some (positive,cellsOfText (ch::rest)) := by
  rw [exponentSign,resultBind]
  cases spelled with
  | none =>
    have plus : ch ≠ '+' := digitDiffers digit (by decide)
    have minus : ch ≠ '-' := digitDiffers digit (by decide)
    exact ⟨true,by simp [peekHead (digitAscii digit),plus,minus,resultPure]⟩
  | plus => exact ⟨true,by rw [peekHead (by decide),Option.bind_some]; exact resultBind _ _ _⟩
  | minus => exact ⟨false,by rw [peekHead (by decide),Option.bind_some]; exact resultBind _ _ _⟩

theorem exponentAt {mark : Char} {w rest : List Char} (marks : mark = 'e' ∨ mark = 'E')
    (spelled : Exponent (mark::w) rest) (stops : Stops Continues rest) :
    skipExponent.result (cellsOfText (mark::w)) = some ((),cellsOfText rest) := by
  have low : Ascii mark := by rcases marks with rfl | rfl <;> decide
  cases spelled with
  | none => exact absurd (.inr (.inr marks)) (stops mark rfl).2
  | @some _ _ ch v _ _ sign digit others =>
    obtain ⟨positive,signed⟩ := signAt sign digit
    obtain ⟨ds,read⟩ := digitsAt others (stops.weaken fun _ => .inl)
    simp only [skipExponent,exponentDigits,resultBind,eatAt low,signed,charAt (digitAscii digit),
      digitOf digit,read,resultPure,peekStops stops,Option.bind_some]

theorem exponentStops {w rest : List Char} (spelled : Exponent w rest)
    (stops : Stops Continues rest) : Stops (fun ch => IsDigit ch ∨ ch = '.') w := by
  cases spelled with
  | none => exact stops.weaken fun _ => .imp_right .inl
  | some marks => rcases marks with rfl | rfl <;> exact stopsCons (by decide) (by decide)

/- Behind the fraction. -/
theorem exponentOr {w rest : List Char} (spelled : Exponent w rest)
    (stops : Stops Continues rest) :
    (if isExponentMark w.head? then skipExponent else pure () : Reader Unit).result
      (cellsOfText w) = some ((),cellsOfText rest) := by
  cases spelled with
  | none =>
    have other : isExponentMark w.head? = false := by
      rw [Bool.eq_false_iff]
      intro marks
      simp only [isExponentMark,Bool.or_eq_true,decide_eq_true_eq] at marks
      rcases marks with first | first <;> exact absurd (by decide) (stops _ first).2
    rw [other]
    rfl
  | @some mark _ _ _ _ marks sign digit others =>
    have is : isExponentMark (some mark) = true := by rcases marks with rfl | rfl <;> rfl
    rw [List.head?_cons,is]
    exact exponentAt marks (.some marks sign digit others) stops

/- Behind the digits before the point. -/
theorem fractionOr {w a rest : List Char} (fraction : Fraction w a) (exponent : Exponent a rest)
    (stops : Stops Continues rest) :
    (if w.head? = some '.' then skipFraction
      else if isExponentMark w.head? then skipExponent else pure () : Reader Unit).result
      (cellsOfText w) = some ((),cellsOfText rest) := by
  have before := exponentStops exponent stops
  cases fraction with
  | none =>
    have other : w.head? ≠ some '.' := fun first => (before _ first).2 (.inr rfl)
    rw [if_neg other]
    exact exponentOr exponent stops
  | @some ch v _ digit others =>
    obtain ⟨ds,read⟩ := digitsAt others (before.weaken fun _ => .inl)
    have more := digitsMore digit v
    rw [read] at more
    rw [List.head?_cons,if_pos rfl,skipFraction]
    simp only [resultBind,eatAt (show Ascii '.' by decide),more,Option.map_some,Option.bind_some,
      peekStops before,List.isEmpty_cons,Bool.false_eq_true,if_false]
    exact exponentOr exponent stops

theorem wholeAt {ch : Char} {w a : List Char} (whole : Whole (ch::w) a)
    (stops : Stops IsDigit a) :
    ∃ ds, (wholeDigits (fun _ => true) ch).result (cellsOfText w) = some (ds,cellsOfText a) := by
  cases whole with
  | zero =>
    have other : isDigit w.head? = false := by
      cases first : w.head? with
      | none => rfl
      | some ch => rw [isDigit,Option.bind_some,digitNone (stops ch first).2]; rfl
    refine ⟨[0],?_⟩
    simp only [wholeDigits,digitOf (show IsDigit '0' by decide)]
    simp [resultBind,peekStops stops,other,resultPure]
  | positive digit leading others =>
    obtain ⟨ds,read⟩ := digitsAt others stops
    have value : digit? ch = some (ch.toNat - '0'.toNat) := digitOf digit
    have low : '0'.toNat ≤ ch.toNat := digit.1
    -- The reader tells a leading zero by its value.
    cases size : ch.toNat - '0'.toNat with
    | zero => exact absurd (Char.toNat_inj.mp (by omega)) leading
    | succ n =>
      rw [size] at value
      refine ⟨(n+1)::ds,?_⟩
      simp only [wholeDigits,value]
      simp [resultBind,read,peekStops stops,resultPure]

theorem fractionStops {w a rest : List Char} (fraction : Fraction w a)
    (exponent : Exponent a rest) (stops : Stops Continues rest) : Stops IsDigit w := by
  cases fraction with
  | none => exact (exponentStops exponent stops).weaken fun _ => .inl
  | some => exact stopsCons (by decide) (by decide)

theorem numberAt {ch : Char} {w rest : List Char} (number : Unsigned (ch::w) rest)
    (delimited : Delimited rest) :
    (skipNumber ch).result (cellsOfText w) = some ((),cellsOfText rest) := by
  obtain ⟨whole,fraction,exponent⟩ := number
  have stops := delimitedStops delimited
  have before := fractionStops fraction exponent stops
  obtain ⟨ds,read⟩ := wholeAt whole before
  rw [skipNumber,resultBind,read,Option.bind_some,resultBind,peekStops before,Option.bind_some]
  exact fractionOr fraction exponent stops

variable {α : Type}

theorem refusesExponent (isZero : Bool) : Refuses (refuseExponent isZero : Reader α) := by
  refine refusesBind _ fun _ => refusesBind _ fun positive => refusesBind _ fun exponent => ?_
  split
  · exact refusesAll
  · exact refusesBind _ fun _ => refusesAll

theorem refusesFraction (isZero : Bool) : Refuses (refuseFraction isZero : Reader α) := by
  refine refusesBind _ fun _ => refusesBind _ fun fraction => refusesBind _ fun _ =>
    refusesBind _ fun next => ?_
  split
  · exact refusesExponent _
  · exact refusesAll

theorem refusesNumber (first : Char) : Refuses (refuseNumber first : Reader α) := by
  refine refusesBind _ fun whole => refusesBind _ fun next => ?_
  split
  · exact refusesFraction _
  split
  · exact refusesExponent _
  · exact refusesAll

end Munch.Json.Reader
