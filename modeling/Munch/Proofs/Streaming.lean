import Munch.Proofs.Decoding
import Munch.Proofs.Simulation
import Munch.Proofs.Reading

/-! A text that streams in as UTF-8. A feed flows when no packet of it is a failure or
empty. Main statement: however the bytes of a text are cut into packets, a tokenizer over
the feed answers what it answers over the text, and what it leaves of the feed are the
bytes of what it leaves of the text. -/
namespace Munch

/- No packet is a failure or empty. -/
def ByteFeed.Flows (f : ByteFeed) : Prop :=
  ∀ packet ∈ f.packets, ∃ b data, packet = .bytes (b::data)

theorem ByteFeed.flowsIff {f : ByteFeed} {bytes : List UInt8} :
    f.Gives (bytes.map .ok) ↔ f.Flows ∧ f.unread = bytes := by
  constructor
  · intro gives
    refine ⟨fun packet among => ?_,?_⟩
    · cases packet with
      | failure e =>
        have given : .error e ∈ f.answers :=
          List.mem_append_right _ (List.mem_flatMap.mpr ⟨_,among,List.mem_singleton_self _⟩)
        simp [gives.given] at given
      | bytes data =>
        cases data with
        | nil => exact absurd among gives.filled
        | cons b data => exact ⟨b,data,rfl⟩
    · rw [unreadReceived,gives.given,receivedMapOk]
  · rintro ⟨flows,rfl⟩
    refine ⟨?_,fun among => ?_⟩
    · rw [answers,unread,List.map_append,List.map_flatMap]
      refine congrArg _ (List.flatMap_congr fun packet among => ?_)
      obtain ⟨b,data,rfl⟩ := flows packet among
      rfl
    · obtain ⟨b,data,empty⟩ := flows _ among
      cases empty

theorem ByteFeed.ofChunksFlows {chunks : List (List UInt8)} (filled : [] ∉ chunks) :
    (ofPackets (chunks.map .bytes)).Flows := by
  intro packet member
  obtain ⟨chunk,among,rfl⟩ := List.mem_map.mp member
  cases chunk with
  | nil => exact absurd among filled
  | cons b data => exact ⟨b,data,rfl⟩

/- Nothing interrupts the feed, and what is left of it writes what is left of the text. -/
structure Utf8Source.Writes (s : Utf8Source) (t : TextSource) : Prop where
  flows : s.feed.Flows
  left : s.feed.unread = t.remaining.flatMap String.utf8EncodeChar

theorem Utf8Source.simulates : Simulates Writes Writes := by
  intro s t writes
  obtain ⟨feed⟩ := s
  obtain ⟨text⟩ := t
  obtain ⟨flows,left⟩ := writes
  have gives := ByteFeed.flowsIff.mpr ⟨flows,left⟩
  cases text with
  | nil =>
    rw [reads (Utf8.readOver gives)]
    exact .finished ⟨flows,left⟩
  | cons ch rest =>
    rw [List.flatMap_cons,List.map_append] at gives
    obtain ⟨feed',decoded,gives'⟩ := Utf8.readWhole gives
    obtain ⟨flows',left'⟩ := ByteFeed.flowsIff.mp gives'
    rw [reads decoded]
    exact .character ⟨flows',left'⟩

namespace Tokenizer

def streaming (g : Grammar) (settings : Settings) (chunks : List (List UInt8)) :
    Tokenizer Utf8Source :=
  (ofSource g ⟨.ofPackets (chunks.map .bytes)⟩).configure settings

theorem ofPacketsUnread (chunks : List (List UInt8)) :
    (ByteFeed.ofPackets (chunks.map .bytes)).unread = chunks.flatten := by
  rw [ByteFeed.unread,ByteFeed.ofPackets,List.nil_append,List.flatMap_map,List.flatten_eq_flatMap]
  rfl

theorem streamingAlike (g : Grammar) (settings : Settings) {text : String}
    {chunks : List (List UInt8)} (filled : [] ∉ chunks) (pieces : chunks.flatten = Text.utf8 text) :
    (streaming g settings chunks).Alike Utf8Source.Writes Utf8Source.Writes
      (reading g settings text) := by
  refine ofSourceAlike g settings ⟨ByteFeed.ofChunksFlows filled,?_⟩
  exact (ofPacketsUnread chunks).trans (pieces.trans (Text.utf8ToList text))

theorem readingQuiet (g : Grammar) (settings : Settings) (text : String) :
    (reading g settings text).Quiet :=
  ⟨_,ofSourceYields g settings (TextSource.delivers text.toList),Delivery.failuresMapOk _⟩

/- One step of a session of a stream, and the same step over the text it carries. -/
structure Streams (a : Step Utf8Source) (b : Step TextSource) : Prop where
  agrees : a.Agrees b
  succeeds : ∀ error, a.result ≠ some (.error error)
  left : a.tokenizer.close.feed.unread = Text.utf8 (String.ofList b.tokenizer.close.remaining)

theorem streamingSession (g : Grammar) (settings : Settings) {text : String}
    {chunks : List (List UInt8)} (filled : [] ∉ chunks) (pieces : chunks.flatten = Text.utf8 text)
    (ops : List Operation) :
    List.Forall₂ Streams ((streaming g settings chunks).session ops)
      ((reading g settings text).session ops) := by
  have alike := sessionAlike Utf8Source.simulates (streamingAlike g settings filled pieces) ops
  have quiet : ∀ step ∈ (reading g settings text).session ops, ∀ error,
      step.result ≠ some (.error error) :=
    fun step member => sessionQuiet (readingQuiet g settings text) member
  refine ((List.forall₂_and_left _ _).mpr ⟨quiet,alike.flip⟩).flip.imp ?_
  intro a b both
  obtain ⟨succeeds,steps⟩ := both
  have writes : a.tokenizer.close.Writes b.tokenizer.close := steps.tokenizer.head.input.related
  refine ⟨steps.agrees,?_,?_⟩
  · rw [steps.result]
    exact succeeds
  · rw [Text.utf8OfList]
    exact writes.left

/- A chunk that ends within a character. -/
theorem streamingSessionSample : ∃ (g : Grammar) (chunks : List (List UInt8)),
    Draft.sample.compile = .ok g ∧ chunks = [[0xC3],[0xA9,0x61]] ∧ [] ∉ chunks ∧
      chunks.flatten = Text.utf8 "éa" ∧
      List.Forall₂ Streams ((streaming g {} chunks).session [.next,.iterate,.next])
        ((reading g {} "éa").session [.next,.iterate,.next]) := by
  obtain ⟨g,compiles⟩ := Draft.sampleCompiles
  have filled : [] ∉ ([[0xC3],[0xA9,0x61]] : List (List UInt8)) := by decide
  have pieces : ([[0xC3],[0xA9,0x61]] : List (List UInt8)).flatten = Text.utf8 "éa" :=
    (Text.utf8OfList ['é','a']).symm
  exact ⟨g,_,compiles,rfl,filled,pieces,streamingSession g {} filled pieces _⟩

end Tokenizer
end Munch
