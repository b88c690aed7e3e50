import Munch.CharRange
import Munch.Search

/-! Sets of characters, kept as ranges in order with a gap after each, so that
membership is found by bisection. Main statement: a set made of ranges contains
exactly the characters in those ranges. -/
namespace Munch

structure CharSet where
  ranges : Array CharRange
  apart : ranges.toList.Pairwise CharRange.Apart
  deriving DecidableEq, Repr

namespace CharSet
open CharRange (Covers)

def empty : CharSet := ⟨#[],.nil⟩

instance : Inhabited CharSet := ⟨empty⟩

def ofRanges (ranges : List CharRange) : CharSet :=
  ⟨(CharRange.join (CharRange.sort ranges)).toArray,
    CharRange.joinApart (CharRange.sortSorted ranges)⟩

def ofPairs (pairs : List (Char × Char)) : Except Error CharSet :=
  return ofRanges (← pairs.mapM fun p => CharRange.ofPair p.1 p.2)

def ofString (text : String) : CharSet := ofRanges (text.toList.map CharRange.single)

def isEmpty (s : CharSet) : Bool := s.ranges.isEmpty

def contains (s : CharSet) (ch : Char) : Bool :=
  Search.bisect s.ranges (CharRange.side ch) 0 s.ranges.size (Nat.le_refl _)

instance : Membership Char CharSet := ⟨fun s ch => Covers s.ranges.toList ch⟩

theorem bisectable (s : CharSet) (ch : Char) : Search.Ordered s.ranges (CharRange.side ch) := by
  intro i j hi hj less notBelow
  have gap : CharRange.Apart s.ranges[i] s.ranges[j] := by
    have := List.pairwise_iff_getElem.mp s.apart i j (by simpa using hi) (by simpa using hj) less
    simpa using this
  have := s.ranges[i].ordered
  have := s.ranges[j].ordered
  unfold CharRange.Apart at gap
  unfold CharRange.side at notBelow ⊢
  split at notBelow
  · exact absurd rfl notBelow
  · rw [if_neg (by omega),if_pos (by omega)]

theorem containsIff {s : CharSet} {ch : Char} : s.contains ch = true ↔ ch ∈ s := by
  rw [contains,Search.bisectIff (bisectable s ch)]
  simp only [CharRange.sideEqIff]
  constructor
  · rintro ⟨i,h,_,_,inside⟩
    exact ⟨s.ranges[i],by simp,inside⟩
  · rintro ⟨r,hr,inside⟩
    obtain ⟨i,h,same⟩ := List.getElem_of_mem hr
    exact ⟨i,by simpa using h,Nat.zero_le _,by simpa using h,by
      rw [← Array.getElem_toList,same]; exact inside⟩

theorem spansOfRanges {ranges : List CharRange} {n : Nat} :
    CharRange.Spans (ofRanges ranges).ranges.toList n ↔ CharRange.Spans ranges n := by
  show CharRange.Spans (CharRange.join (CharRange.sort ranges)).toArray.toList n ↔ _
  rw [CharRange.spansJoin (CharRange.sortSorted ranges),CharRange.spansSort]

theorem memOfRanges {ranges : List CharRange} {ch : Char} :
    ch ∈ ofRanges ranges ↔ Covers ranges ch := spansOfRanges

end CharSet
end Munch
