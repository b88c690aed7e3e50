import Mathlib.Data.List.Basic
import Munch.CharSet

/-! The form in which a set of characters keeps its ranges. Ranges in order with a gap after
each are left as they are by sorting and joining, and no others span the same code points.
Main statements: a list of ranges is made into such a set exactly when none of them is empty,
and else the first empty one is named; the set contains the characters of the ranges and is
made again of what it lists. Two sets are equal exactly when they contain the same characters
and both or neither of them runs across the surrogates, which are code points of no character. -/
namespace Munch
namespace CharRange

def pair (r : CharRange) : Char × Char := (r.first,r.last)

theorem Apart.before {a b : CharRange} (apart : Apart a b) : Before a b := by
  have := a.ordered
  unfold Apart at apart
  unfold Before
  omega

theorem sortOfApart {ranges : List CharRange} (apart : ranges.Pairwise Apart) :
    sort ranges = ranges :=
  List.mergeSort_of_pairwise (apart.imp fun gap => decide_eq_true gap.before)

theorem joinFromOfApart {current : CharRange} {ranges : List CharRange}
    (apart : (current::ranges).Pairwise Apart) : joinFrom current ranges = current::ranges := by
  induction ranges generalizing current with
  | nil => rfl
  | cons next rest ih =>
    obtain ⟨first,tail⟩ := List.pairwise_cons.mp apart
    rw [joinFrom,if_pos (first next (by simp)),ih tail]

theorem joinOfApart {ranges : List CharRange} (apart : ranges.Pairwise Apart) :
    join ranges = ranges := by
  cases ranges with
  | nil => rfl
  | cons current rest => exact joinFromOfApart apart

theorem holdsFirst (r : CharRange) : r.Holds r.first.toNat := ⟨Nat.le_refl _,r.ordered⟩

theorem spansCons {r : CharRange} {ranges : List CharRange} {n : Nat} :
    Spans (r::ranges) n ↔ r.Holds n ∨ Spans ranges n := by
  simp [Spans]

/- Behind the first of some ranges there is a gap. -/
theorem spansBehind {r : CharRange} {ranges : List CharRange} (apart : (r::ranges).Pairwise Apart)
    {n : Nat} (spans : Spans ranges n) : r.last.toNat+1 < n := by
  obtain ⟨s,member,holds⟩ := spans
  exact Nat.lt_of_lt_of_le ((List.pairwise_cons.mp apart).1 s member) holds.1

theorem spansTail {r : CharRange} {ranges : List CharRange} (apart : (r::ranges).Pairwise Apart)
    {n : Nat} : Spans ranges n ↔ r.last.toNat+1 < n ∧ Spans (r::ranges) n := by
  rw [spansCons]
  constructor
  · exact fun spans => ⟨spansBehind apart spans,.inr spans⟩
  · rintro ⟨behind,inside | spans⟩
    · have := inside.2
      omega
    · exact spans

theorem firstLeast {r s : CharRange} {ranges others : List CharRange}
    (apart : (r::ranges).Pairwise Apart)
    (same : ∀ n, Spans (r::ranges) n ↔ Spans (s::others) n) : r.first.toNat ≤ s.first.toNat := by
  rcases spansCons.mp ((same s.first.toNat).mpr (spansCons.mpr (.inl s.holdsFirst))) with inside | later
  · exact inside.1
  · have := spansBehind apart later
    have := r.ordered
    omega

theorem lastMost {r s : CharRange} {ranges others : List CharRange}
    (apart : (r::ranges).Pairwise Apart) (first : s.first.toNat = r.first.toNat)
    (same : ∀ n, Spans (r::ranges) n ↔ Spans (s::others) n) : s.last.toNat ≤ r.last.toNat := by
  refine Nat.le_of_not_lt fun further => ?_
  have ordered := r.ordered
  -- The code point behind the shorter range would have to be spanned.
  have held : s.Holds (r.last.toNat+1) := ⟨by omega,by omega⟩
  rcases spansCons.mp ((same _).mpr (spansCons.mpr (.inl held))) with inside | later
  · have := inside.2
    omega
  · have := spansBehind apart later
    omega

theorem eqOfEnds {r s : CharRange} (first : r.first.toNat = s.first.toNat)
    (last : r.last.toNat = s.last.toNat) : r = s := by
  obtain ⟨a,b,_⟩ := r
  obtain ⟨c,d,_⟩ := s
  cases Char.toNat_inj.mp first
  cases Char.toNat_inj.mp last
  rfl

/- Ranges with gaps between them are determined by the code points they span. -/
theorem apartUnique {ranges others : List CharRange} (apart : ranges.Pairwise Apart)
    (apart' : others.Pairwise Apart) (same : ∀ n, Spans ranges n ↔ Spans others n) :
    ranges = others := by
  induction ranges generalizing others with
  | nil =>
    cases others with
    | nil => rfl
    | cons s others =>
      have spans := (same s.first.toNat).mpr (spansCons.mpr (.inl s.holdsFirst))
      simp [Spans] at spans
  | cons r ranges ih =>
    cases others with
    | nil =>
      have spans := (same r.first.toNat).mp (spansCons.mpr (.inl r.holdsFirst))
      simp [Spans] at spans
    | cons s others =>
      have reverse := fun n => (same n).symm
      have first := Nat.le_antisymm (firstLeast apart same) (firstLeast apart' reverse)
      have last := Nat.le_antisymm (lastMost apart' first reverse) (lastMost apart first.symm same)
      cases eqOfEnds first last
      refine congrArg (List.cons r) (ih apart.tail apart'.tail fun n => ?_)
      rw [spansTail apart,spansTail apart',same]

theorem memSingle {ch c : Char} : ch ∈ single c ↔ ch = c := by
  constructor
  · exact fun within => Char.toNat_inj.mp (Nat.le_antisymm within.2 within.1)
  · rintro rfl
    exact ⟨Nat.le_refl _,Nat.le_refl _⟩

theorem coversSingles {text : List Char} {ch : Char} : Covers (text.map single) ch ↔ ch ∈ text := by
  simp [Covers,memSingle]

theorem coversPairs {ranges : List CharRange} {ch : Char} : Covers ranges ch ↔
    ∃ p ∈ ranges.map pair, p.1.toNat ≤ ch.toNat ∧ ch.toNat ≤ p.2.toNat := by
  simp [Covers,pair,memIff]

end CharRange

namespace CharSet
open CharRange (Spans Covers)

theorem ofRangesRanges (s : CharSet) : ofRanges s.ranges.toList = s := by
  obtain ⟨ranges,apart⟩ := s
  simp [ofRanges,CharRange.sortOfApart apart,CharRange.joinOfApart apart]

/- What a set lists. -/
def pairs (s : CharSet) : List (Char × Char) := s.ranges.toList.map CharRange.pair

/- The first character of a range is not behind its last. -/
def Filled (p : Char × Char) : Prop := p.1.toNat ≤ p.2.toNat

def Between (p : Char × Char) (ch : Char) : Prop := p.1.toNat ≤ ch.toNat ∧ ch.toNat ≤ p.2.toNat

theorem readPairs (ranges : List CharRange) :
    (ranges.map CharRange.pair).mapM (fun p => CharRange.ofPair p.1 p.2) = .ok ranges := by
  induction ranges with
  | nil => rfl
  | cons r ranges ih =>
    have read : CharRange.ofPair r.pair.1 r.pair.2 = .ok r := dif_pos r.ordered
    rw [List.map_cons,List.mapM_cons,read,ih]
    rfl

theorem ofPairsRanges (ranges : List CharRange) :
    ofPairs (ranges.map CharRange.pair) = .ok (ofRanges ranges) := by
  rw [ofPairs,readPairs]
  rfl

theorem filledRanges {given : List (Char × Char)} (filled : ∀ p ∈ given, Filled p) :
    ∃ ranges : List CharRange, ranges.map CharRange.pair = given := by
  induction given with
  | nil => exact ⟨[],rfl⟩
  | cons p given ih =>
    obtain ⟨here,others⟩ := List.forall_mem_cons.mp filled
    obtain ⟨ranges,rfl⟩ := ih others
    exact ⟨⟨p.1,p.2,here⟩::ranges,rfl⟩

theorem ofPairsEmpty {before after : List (Char × Char)} {p : Char × Char}
    (filled : ∀ q ∈ before, Filled q) (empty : ¬ Filled p) :
    ofPairs (before ++ p::after) = .error (Cause.emptyRange p.1 p.2) := by
  obtain ⟨ranges,rfl⟩ := filledRanges filled
  have refused : CharRange.ofPair p.1 p.2 = .error (Cause.emptyRange p.1 p.2) := dif_neg empty
  rw [ofPairs,List.mapM_append,readPairs,List.mapM_cons,refused]
  rfl

/- The form of a set that contains what is given. -/
structure Normal (s : CharSet) (Given : Char → Prop) : Prop where
  filled : ∀ p ∈ s.pairs, Filled p
  gaps : s.pairs.Pairwise fun p q => p.2.toNat+2 ≤ q.1.toNat
  contains : ∀ ch, s.contains ch = true ↔ Given ch
  remade : ofPairs s.pairs = .ok s

theorem normalOf {s : CharSet} {Given : Char → Prop} (given : ∀ ch, ch ∈ s ↔ Given ch) :
    s.Normal Given where
  filled := by
    intro p member
    obtain ⟨r,_,rfl⟩ := List.mem_map.mp member
    exact r.ordered
  gaps := List.pairwise_map.mpr s.apart
  contains ch := containsIff.trans (given ch)
  remade := by rw [pairs,ofPairsRanges,ofRangesRanges]

/- What a list of ranges is made into: a set, or the first empty range is named. -/
inductive Makes (given : List (Char × Char)) : Except Error CharSet → Prop where
  | set {s} (filled : ∀ p ∈ given, Filled p)
      (normal : s.Normal fun ch => ∃ p ∈ given, Between p ch) : Makes given (.ok s)
  | refusal {before p after} (split : given = before ++ p::after)
      (filled : ∀ q ∈ before, Filled q) (empty : ¬ Filled p) :
      Makes given (.error (Cause.emptyRange p.1 p.2))

theorem firstEmpty (given : List (Char × Char)) : (∀ p ∈ given, Filled p) ∨
    ∃ before p after, given = before ++ p::after ∧ (∀ q ∈ before, Filled q) ∧ ¬ Filled p := by
  induction given with
  | nil => exact .inl nofun
  | cons p given ih =>
    by_cases here : Filled p
    · rcases ih with filled | ⟨before,q,after,rfl,filled,empty⟩
      · exact .inl (List.forall_mem_cons.mpr ⟨here,filled⟩)
      · exact .inr ⟨p::before,q,after,rfl,List.forall_mem_cons.mpr ⟨here,filled⟩,empty⟩
    · exact .inr ⟨[],p,given,rfl,nofun,here⟩

/- Whatever ranges or characters are given, the set made of them has one form. -/
theorem charSetsMade (given : List (Char × Char)) (text : String) :
    Makes given (ofPairs given) ∧ (ofString text).Normal (· ∈ text.toList) := by
  constructor
  · rcases firstEmpty given with filled | ⟨before,p,after,rfl,filled,empty⟩
    · obtain ⟨ranges,rfl⟩ := filledRanges filled
      rw [ofPairsRanges]
      exact .set filled (normalOf fun ch => memOfRanges.trans CharRange.coversPairs)
    · rw [ofPairsEmpty filled empty]
      exact .refusal rfl filled empty
  · exact normalOf fun ch => memOfRanges.trans CharRange.coversSingles

/- A range that runs across the surrogates. -/
def Bridging (p : Char × Char) : Prop := p.1.toNat < 0xD800 ∧ 0xDFFF < p.2.toNat

/- No character of a range is a surrogate, so a range that holds one runs across them all. -/
theorem holdsSurrogate (r : CharRange) {n : Nat} (low : 0xD800 ≤ n) (high : n ≤ 0xDFFF) :
    r.Holds n ↔ Bridging r.pair := by
  have first : r.first.toNat < 0xD800 ∨ 0xDFFF < r.first.toNat ∧ r.first.toNat < 0x110000 :=
    r.first.valid
  have last : r.last.toNat < 0xD800 ∨ 0xDFFF < r.last.toNat ∧ r.last.toNat < 0x110000 :=
    r.last.valid
  simp only [CharRange.Holds,Bridging,CharRange.pair]
  omega

theorem spansSurrogate {ranges : List CharRange} {n : Nat} (low : 0xD800 ≤ n)
    (high : n ≤ 0xDFFF) : Spans ranges n ↔ ∃ p ∈ ranges.map CharRange.pair, Bridging p := by
  simp [Spans,holdsSurrogate _ low high]

theorem spansBelow {ranges : List CharRange} {n : Nat} (spans : Spans ranges n) : n < 0x110000 := by
  obtain ⟨r,_,holds⟩ := spans
  have last : r.last.toNat < 0xD800 ∨ 0xDFFF < r.last.toNat ∧ r.last.toNat < 0x110000 :=
    r.last.valid
  have := holds.2
  omega

theorem spansSame {ranges others : List CharRange}
    (covers : ∀ ch, Covers ranges ch ↔ Covers others ch)
    (bridges : (∃ p ∈ ranges.map CharRange.pair, Bridging p) ↔
      ∃ p ∈ others.map CharRange.pair, Bridging p) (n : Nat) :
    Spans ranges n ↔ Spans others n := by
  by_cases valid : n.isValidChar
  · exact covers (Char.ofNatAux n valid)
  · by_cases beyond : n < 0x110000
    · have low : 0xD800 ≤ n := by unfold Nat.isValidChar at valid; omega
      have high : n ≤ 0xDFFF := by unfold Nat.isValidChar at valid; omega
      rw [spansSurrogate low high,spansSurrogate low high,bridges]
    · exact ⟨fun spans => absurd (spansBelow spans) beyond,
        fun spans => absurd (spansBelow spans) beyond⟩

theorem containsSame {s t : CharSet} :
    (∀ ch, s.contains ch = t.contains ch) ↔ ∀ ch, ch ∈ s ↔ ch ∈ t :=
  forall_congr' fun ch => by rw [Bool.eq_iff_iff,containsIff,containsIff]

/- Equality of two sets, by what they contain and what they list. -/
theorem equalIff {s t : CharSet} : s = t ↔ (∀ ch, s.contains ch = t.contains ch) ∧
    ((∃ p ∈ s.pairs, Bridging p) ↔ ∃ p ∈ t.pairs, Bridging p) := by
  constructor
  · rintro rfl
    exact ⟨fun _ => rfl,Iff.rfl⟩
  · rintro ⟨contains,bridges⟩
    have same := CharRange.apartUnique s.apart t.apart
      (spansSame (containsSame.mp contains) bridges)
    rw [← s.ofRangesRanges,same,t.ofRangesRanges]

/- How a set is made: of ranges, or of characters one by one. -/
inductive Recipe where
  | ranges (given : List (Char × Char))
  | characters (text : String)

namespace Recipe

def make : Recipe → Except Error CharSet
  | ranges given => ofPairs given
  | characters text => .ok (ofString text)

/- The ranges given, each character being one. -/
def given : Recipe → List (Char × Char)
  | ranges given => given
  | characters text => text.toList.map fun ch => (ch,ch)

theorem madeOf {recipe : Recipe} {s : CharSet} (made : recipe.make = .ok s) :
    ∃ ranges : List CharRange, ranges.map CharRange.pair = recipe.given ∧ s = ofRanges ranges := by
  cases recipe with
  | ranges given =>
    rcases firstEmpty given with filled | ⟨before,p,after,rfl,filled,empty⟩
    · obtain ⟨ranges,rfl⟩ := filledRanges filled
      rw [make,ofPairsRanges] at made
      cases made
      exact ⟨ranges,rfl,rfl⟩
    · rw [make,ofPairsEmpty filled empty] at made
      cases made
  | characters text =>
    cases made
    refine ⟨_,?_,rfl⟩
    simp [given,CharRange.pair,CharRange.single]

/- A set lists a range across the surrogates exactly when such a range was given. -/
theorem madeBridges {recipe : Recipe} {s : CharSet} (made : recipe.make = .ok s) :
    (∃ p ∈ s.pairs, Bridging p) ↔ ∃ p ∈ recipe.given, Bridging p := by
  obtain ⟨ranges,same,rfl⟩ := madeOf made
  have low : 0xD800 ≤ 0xD800 := Nat.le_refl _
  have high : 0xD800 ≤ 0xDFFF := by decide
  rw [← same,pairs,← spansSurrogate low high,spansOfRanges,spansSurrogate low high]

end Recipe

/- Two sets are equal exactly when they contain the same characters, unless a range across the
surrogates was given for one of them only. -/
theorem madeEqualIff {a b : Recipe} {s t : CharSet} (made : a.make = .ok s)
    (made' : b.make = .ok t) : s = t ↔ (∀ ch, s.contains ch = t.contains ch) ∧
      ((∃ p ∈ a.given, Bridging p) ↔ ∃ p ∈ b.given, Bridging p) := by
  rw [equalIff,Recipe.madeBridges made,Recipe.madeBridges made']

/- Two ranges in the wrong order that overlap, and their characters one by one. -/
theorem madeEqualIffSample : ∃ (a b : Recipe) (s t : CharSet),
    a = .ranges [('b','c'),('a','b')] ∧ b = .characters "cab" ∧ a.make = .ok s ∧
      b.make = .ok t ∧ (s = t ↔ (∀ ch, s.contains ch = t.contains ch) ∧
        ((∃ p ∈ a.given, Bridging p) ↔ ∃ p ∈ b.given, Bridging p)) := by
  have made : (Recipe.ranges [('b','c'),('a','b')]).make = .ok _ :=
    ofPairsRanges [⟨'b','c',by decide⟩,⟨'a','b',by decide⟩]
  have made' : (Recipe.characters "cab").make = .ok _ := rfl
  exact ⟨_,_,_,_,rfl,rfl,made,made',madeEqualIff made made'⟩

/- The two characters next to the surrogates, as one range and as two. -/
theorem neighboursUnequal : ∃ s t : CharSet,
    ofPairs [('\uD7FF','\uE000')] = .ok s ∧
      ofPairs [('\uD7FF','\uD7FF'),('\uE000','\uE000')] = .ok t ∧
      (∀ ch, s.contains ch = t.contains ch) ∧ s ≠ t := by
  have made := ofPairsRanges [⟨'\uD7FF','\uE000',by decide⟩]
  have made' := ofPairsRanges [.single '\uD7FF',.single '\uE000']
  refine ⟨_,_,made,made',containsSame.mpr fun ch => ?_,fun same => ?_⟩
  · have valid : ch.toNat < 0xD800 ∨ 0xDFFF < ch.toNat ∧ ch.toNat < 0x110000 := ch.valid
    rw [memOfRanges,memOfRanges]
    simp [Covers,CharRange.memIff,CharRange.single]
    omega
  · have held : Spans (ofRanges [⟨'\uD7FF','\uE000',by decide⟩]).ranges.toList 0xD800 :=
      spansOfRanges.mpr ⟨_,List.mem_singleton_self _,by decide,by decide⟩
    rw [same,spansOfRanges] at held
    simp [Spans,CharRange.Holds,CharRange.single] at held

end CharSet
end Munch
