import Mathlib.Data.List.TakeWhile
import Munch.Proofs.Streaming

/-! What is read at the front of any bytes, whether they are UTF-8 or not. A leading byte
announces a number of bytes; those that continue it are taken, no more than announced, and a
byte that does not continue it stays unread. Main statement: nothing is read exactly when there
are no bytes, a character exactly when they begin with its encoding, and all else is a failure
that takes the leading byte and what continues it. -/
namespace Munch

theorem ByteFeed.Gives.shown {f f' : ByteFeed} {b : UInt8} {answers : List ByteAnswer}
    (gives : f.Gives answers) (shows : f.peek = (.ok (some b),f')) : f'.Gives answers := by
  obtain ⟨rfl,filled⟩ := gives
  match f with
  | ⟨c::buffer,packets⟩ => cases shows; exact ⟨rfl,filled⟩
  | ⟨[],[]⟩ => cases shows
  | ⟨[],.bytes []::packets⟩ => cases shows
  | ⟨[],.bytes (c::data)::packets⟩ => cases shows; exact ⟨rfl,fun member => filled (.tail _ member)⟩
  | ⟨[],.failure e::packets⟩ => cases shows

namespace Utf8

/- A leading byte of a sequence of so many bytes. -/
def Leads (lead : UInt8) : Nat → Prop
  | 1 => lead.toNat ≤ 0x7F
  | 2 => 0xC2 ≤ lead.toNat ∧ lead.toNat ≤ 0xDF
  | 3 => 0xE0 ≤ lead.toNat ∧ lead.toNat ≤ 0xEF
  | 4 => 0xF0 ≤ lead.toNat ∧ lead.toNat ≤ 0xF4
  | _ => False

theorem leadsOfWidth {lead : UInt8} {n : Nat} (wide : width lead = some n) : Leads lead n := by
  unfold width at wide
  repeat' split at wide
  all_goals cases wide
  all_goals simp only [Leads]; omega

theorem widthOfLeads {lead : UInt8} {n : Nat} (leads : Leads lead n) : width lead = some n := by
  unfold width
  match n, leads with
  | 1, low => rw [if_pos (Nat.lt_succ_of_le low)]
  | 2, ⟨low,high⟩ => rw [if_neg (by omega),if_neg (by omega),if_pos (by omega)]
  | 3, ⟨low,high⟩ => rw [if_neg (by omega),if_neg (by omega),if_neg (by omega),if_pos (by omega)]
  | 4, ⟨low,high⟩ =>
    rw [if_neg (by omega),if_neg (by omega),if_neg (by omega),if_neg (by omega),if_pos (by omega)]

theorem Leads.positive {lead : UInt8} {n : Nat} (leads : Leads lead n) : 0 < n :=
  Nat.pos_of_ne_zero fun zero => by subst zero; exact leads

theorem scalarOf {n : Nat} {ch : Char} (scalar : ofScalar? n = some ch) : ch.toNat = n := by
  by_cases valid : n.isValidChar
  · rw [ofScalar?,dif_pos valid] at scalar
    cases scalar
    rfl
  · rw [ofScalar?,dif_neg valid] at scalar
    cases scalar

theorem assembled {ch : Char} {lead : UInt8} {tail : List UInt8}
    (assembles : assemble lead tail = some ch) : leastScalar tail.length ≤ ch.toNat ∧
      ch.toNat = tail.foldl (fun n b => n*64+b.toNat%64) (leadBits lead tail.length) := by
  unfold assemble at assembles
  dsimp only at assembles
  split at assembles
  · rename_i shortest
    have scalar := scalarOf assembles
    exact ⟨by rw [scalar]; exact shortest,scalar⟩
  · cases assembles

theorem byteOf {n : Nat} {b : UInt8} (same : n = b.toNat) : UInt8.ofNat n = b := by
  rw [same,UInt8.ofNat_toNat]

/- No other bytes spell a character than those that encode it. -/
theorem Spells.encodes {ch : Char} {lead : UInt8} {tail : List UInt8}
    (spells : Spells ch lead tail) : String.utf8EncodeChar ch = lead::tail := by
  obtain ⟨wide,continues,assembles⟩ := spells
  obtain ⟨shortest,scalar⟩ := assembled assembles
  have leads := leadsOfWidth wide
  have same : ch.val.toNat = ch.toNat := rfl
  unfold String.utf8EncodeChar
  simp only [same]
  simp only [isContinuation,Bool.and_eq_true,decide_eq_true_eq] at continues
  -- One case for each width.
  rcases tail with _ | ⟨b,_ | ⟨c,_ | ⟨d,_ | _⟩⟩⟩
  · simp only [List.length_nil,List.foldl_nil,leadBits,Leads] at scalar leads
    rw [if_pos (by omega),byteOf scalar]
  · simp only [List.length_cons,List.length_nil,List.foldl_cons,List.foldl_nil,leadBits,
      leastScalar,Leads,List.forall_mem_cons] at shortest scalar leads continues
    obtain ⟨contB,_⟩ := continues
    rw [if_neg (by omega),if_pos (by omega),byteOf (b := lead) (by omega),
      byteOf (b := b) (by omega)]
  · simp only [List.length_cons,List.length_nil,List.foldl_cons,List.foldl_nil,leadBits,
      leastScalar,Leads,List.forall_mem_cons] at shortest scalar leads continues
    obtain ⟨contB,contC,_⟩ := continues
    rw [if_neg (by omega),if_neg (by omega),if_pos (by omega),byteOf (b := lead) (by omega),
      byteOf (b := b) (by omega),byteOf (b := c) (by omega)]
  · simp only [List.length_cons,List.length_nil,List.foldl_cons,List.foldl_nil,leadBits,
      leastScalar,Leads,List.forall_mem_cons] at shortest scalar leads continues
    obtain ⟨contB,contC,contD,_⟩ := continues
    rw [if_neg (by omega),if_neg (by omega),if_neg (by omega),byteOf (b := lead) (by omega),
      byteOf (b := b) (by omega),byteOf (b := c) (by omega),byteOf (b := d) (by omega)]
  · exact leads.elim

/- The continuation bytes in a row at the front, so many at most. -/
def continuing (count : Nat) (bytes : List UInt8) : List UInt8 :=
  (bytes.takeWhile isContinuation).take count

/- The bytes behind them. -/
def beyond (count : Nat) (bytes : List UInt8) : List UInt8 :=
  bytes.drop (continuing count bytes).length

theorem continuingCons (count : Nat) (b : UInt8) (bytes : List UInt8) :
    continuing (count+1) (b::bytes) =
      if isContinuation b then b::continuing count bytes else [] := by
  unfold continuing
  rw [List.takeWhile_cons]
  split <;> simp

theorem continuingAll {count : Nat} {bytes : List UInt8} :
    ∀ b ∈ continuing count bytes, isContinuation b = true :=
  fun _ member => List.mem_takeWhile_imp (List.mem_of_mem_take member)

theorem continuingBeyond (count : Nat) (bytes : List UInt8) :
    continuing count bytes ++ beyond count bytes = bytes :=
  List.prefix_iff_eq_append.mp ((List.take_prefix _ _).trans (List.takeWhile_prefix _))

theorem continuingLength (count : Nat) (bytes : List UInt8) :
    (continuing count bytes).length ≤ count := List.length_take_le _ _

theorem continuingWhole {tail : List UInt8} (continues : ∀ b ∈ tail, isContinuation b = true)
    (left : List UInt8) : continuing tail.length (tail ++ left) = tail := by
  rw [continuing,List.takeWhile_append_of_pos continues,List.take_left]

theorem beyondWhole {tail : List UInt8} (continues : ∀ b ∈ tail, isContinuation b = true)
    (left : List UInt8) : beyond tail.length (tail ++ left) = left := by
  rw [beyond,continuingWhole continues,List.drop_left]

/- What breaks a sequence. -/
def breach : List UInt8 → ReadError
  | [] => truncated
  | b::_ => badContinuation b

/- What a sequence comes to of which so many bytes are due behind the leading one. -/
def verdict (lead : UInt8) (due : Nat) (tail left : List UInt8) : Answer :=
  if tail.length = due then match assemble lead tail with
    | some ch => .ok (some ch)
    | none => .error illFormed
  else .error (breach left)

/- What is read at the front of bytes, and the bytes left. -/
def front : List UInt8 → Answer × List UInt8
  | [] => (.ok none,[])
  | lead::bytes => match width lead with
    | none => (.error (badLead lead),bytes)
    | some n =>
      (verdict lead (n-1) (continuing (n-1) bytes) (beyond (n-1) bytes),beyond (n-1) bytes)

variable {bytes : List UInt8}

theorem frontWhole (ch : Char) (left : List UInt8) :
    front (String.utf8EncodeChar ch ++ left) = (.ok (some ch),left) := by
  obtain ⟨lead,tail,encoded,spells⟩ := encodeSpells ch
  simp [encoded,front,verdict,spells.width,continuingWhole spells.continues,
    beyondWhole spells.continues,spells.assembles]

theorem frontSpelt {ch : Char} (read : (front bytes).1 = .ok (some ch)) :
    bytes = String.utf8EncodeChar ch ++ (front bytes).2 := by
  cases bytes with
  | nil => cases read
  | cons lead bytes =>
    cases wide : width lead with
    | none => simp [front,wide] at read
    | some n =>
      simp only [front,wide,verdict] at read ⊢
      split at read
      · rename_i whole
        split at read
        · rename_i assembles
          cases read
          have positive := (leadsOfWidth wide).positive
          have spells : Spells ch lead (continuing (n-1) bytes) :=
            ⟨by rw [whole,Nat.sub_add_cancel positive]; exact wide,continuingAll,assembles⟩
          rw [spells.encodes,List.cons_append,continuingBeyond]
        · cases read
      · cases read

theorem frontFinished (read : (front bytes).1 = .ok none) : bytes = [] := by
  cases bytes with
  | nil => rfl
  | cons lead bytes =>
    cases wide : width lead with
    | none => simp [front,wide] at read
    | some n =>
      simp only [front,wide,verdict] at read
      split at read
      · split at read <;> cases read
      · cases read

/- The bytes end before as many as announced, and nothing else breaks in. -/
def EndsEarly (announced : Nat) (rest : List UInt8) : Prop :=
  rest.length+1 < announced ∧ ∀ b ∈ rest, isContinuation b = true

theorem endsEarlyIff {announced : Nat} {rest : List UInt8} :
    EndsEarly announced rest ↔ (continuing (announced-1) rest).length ≠ announced-1 ∧
      beyond (announced-1) rest = [] := by
  have parts := continuingBeyond (announced-1) rest
  have most := continuingLength (announced-1) rest
  constructor
  · rintro ⟨early,continues⟩
    have whole : continuing (announced-1) rest = rest := by
      rw [continuing,List.takeWhile_eq_self_iff.mpr continues,List.take_of_length_le (by omega)]
    exact ⟨by rw [whole]; omega,by rw [beyond,whole,List.drop_length]⟩
  · rintro ⟨short,nothing⟩
    rw [nothing,List.append_nil] at parts
    rw [parts] at short most
    exact ⟨by omega,by rw [← parts]; exact continuingAll⟩

theorem verdictKind {lead : UInt8} {due : Nat} {tail left : List UInt8} {e : ReadError}
    (failed : verdict lead due tail left = .error e) :
    if tail.length ≠ due ∧ left = [] then e.kind = .unexpectedEof
    else e.kind = .invalidData := by
  unfold verdict at failed
  split at failed
  · rename_i whole
    split at failed <;> cases failed
    simp [whole,illFormed]
  · rename_i short
    cases failed
    cases left <;> simp [short,breach,truncated,badContinuation]

theorem frontStray {lead : UInt8} {rest : List UInt8} {e : ReadError}
    (failed : (front (lead::rest)).1 = .error e) (stray : ∀ n, ¬ Leads lead n) :
    (front (lead::rest)).2 = rest ∧ e.kind = .invalidData := by
  cases wide : width lead with
  | none =>
    simp only [front,wide] at failed ⊢
    cases failed
    simp [badLead]
  | some n => exact absurd (leadsOfWidth wide) (stray n)

theorem frontMalformed {lead : UInt8} {rest : List UInt8} {e : ReadError} {n : Nat}
    (failed : (front (lead::rest)).1 = .error e) (leads : Leads lead n) :
    rest = continuing (n-1) rest ++ (front (lead::rest)).2 ∧
      (e.kind = .unexpectedEof ↔ EndsEarly n rest) ∧ (e.kind = .invalidData ↔ ¬ EndsEarly n rest) := by
  simp only [front,widthOfLeads leads] at failed ⊢
  refine ⟨(continuingBeyond (n-1) rest).symm,?_⟩
  have kind := verdictKind failed
  rw [endsEarlyIff]
  split at kind <;> rename_i early <;> simp [kind,early]

/- What reading some bytes comes to, and the bytes left unread. -/
structure Decodes (bytes : List UInt8) (answer : Answer) (left : List UInt8) : Prop where
  finished : answer = .ok none ↔ bytes = []
  character : ∀ ch, answer = .ok (some ch) ↔ String.utf8EncodeChar ch <+: bytes
  taken : ∀ ch, answer = .ok (some ch) → bytes = String.utf8EncodeChar ch ++ left
  failure : (∃ e, answer = .error e) ↔ bytes ≠ [] ∧ ∀ ch, ¬ String.utf8EncodeChar ch <+: bytes
  stray : ∀ e lead rest, answer = .error e → bytes = lead::rest → (∀ n, ¬ Leads lead n) →
    left = rest ∧ e.kind = .invalidData
  malformed : ∀ e lead rest n, answer = .error e → bytes = lead::rest → Leads lead n →
    rest = continuing (n-1) rest ++ left ∧ (e.kind = .unexpectedEof ↔ EndsEarly n rest) ∧
      (e.kind = .invalidData ↔ ¬ EndsEarly n rest)

theorem frontCharacter {ch : Char} :
    (front bytes).1 = .ok (some ch) ↔ String.utf8EncodeChar ch <+: bytes := by
  constructor
  · exact fun read => ⟨_,(frontSpelt read).symm⟩
  · rintro ⟨left,rfl⟩
    rw [frontWhole]

theorem frontFails : (∃ e, (front bytes).1 = .error e) ↔
    bytes ≠ [] ∧ ∀ ch, ¬ String.utf8EncodeChar ch <+: bytes := by
  constructor
  · rintro ⟨e,failed⟩
    refine ⟨?_,fun ch begins => ?_⟩
    · rintro rfl; cases failed
    · rw [frontCharacter.mpr begins] at failed; cases failed
  · rintro ⟨more,nowhere⟩
    cases answer : (front bytes).1 with
    | error e => exact ⟨e,rfl⟩
    | ok read =>
      cases read with
      | none => exact absurd (frontFinished answer) more
      | some ch => exact absurd (frontCharacter.mp answer) (nowhere ch)

theorem frontDecodes (bytes : List UInt8) : Decodes bytes (front bytes).1 (front bytes).2 where
  finished := ⟨frontFinished,by rintro rfl; rfl⟩
  character _ := frontCharacter
  taken _ := frontSpelt
  failure := frontFails
  stray := by rintro e lead rest failed rfl; exact frontStray failed
  malformed := by rintro e lead rest n failed rfl; exact frontMalformed failed

variable {f : ByteFeed}

theorem continuationsGather (count : Nat) (gives : f.Gives (bytes.map .ok)) :
    ∃ f', f'.Gives ((beyond count bytes).map .ok) ∧ continuations count f =
      (if (continuing count bytes).length = count then .ok (continuing count bytes)
        else .error (breach (beyond count bytes)),f') := by
  induction count generalizing f bytes with
  | zero => exact ⟨f,by simpa [beyond,continuing] using gives,by simp [continuations,continuing]⟩
  | succ count ih =>
    cases bytes with
    | nil =>
      have shown : f.peek = (.ok none,f) := gives.shows
      exact ⟨f,gives,by simp [continuations,shown,continuing,beyond,breach]⟩
    | cons b bytes =>
      obtain ⟨f',shown,gives'⟩ := gives.shows
      cases continues : isContinuation b with
      | true =>
        obtain ⟨f'',given,gathered⟩ := ih gives'
        refine ⟨f'',by simpa [beyond,continuingCons,continues] using given,?_⟩
        simp only [continuations,shown,continues,if_true,gathered,beyond,continuingCons]
        by_cases whole : (continuing count bytes).length = count <;> simp [whole]
      | false =>
        refine ⟨f',by simpa [beyond,continuingCons,continues] using gives.shown shown,?_⟩
        simp [continuations,shown,continues,beyond,continuingCons,breach]

/- A feed that nothing interrupts is read as its bytes are, however they are cut. -/
theorem readFront (gives : f.Gives (bytes.map .ok)) :
    ∃ f', read f = ((front bytes).1,f') ∧ f'.Gives ((front bytes).2.map .ok) := by
  cases bytes with
  | nil => exact ⟨f,readOver gives,gives⟩
  | cons lead bytes =>
    obtain ⟨f',shown,gives'⟩ := gives.shows
    cases wide : width lead with
    | none => exact ⟨f'.skip,by simp [read,shown,finish,front,wide],by simpa [front,wide] using gives'⟩
    | some n =>
      obtain ⟨f'',given,gathered⟩ := continuationsGather (n-1) gives'
      refine ⟨f'',?_,by simpa [front,wide] using given⟩
      by_cases whole : (continuing (n-1) bytes).length = n-1
      · cases assembles : assemble lead (continuing (n-1) bytes) <;>
          simp [read,shown,finish,front,wide,gathered,whole,verdict,assembles]
      · simp [read,shown,finish,front,wide,gathered,whole,verdict]

end Utf8

namespace Utf8Source

/- However bytes are cut into packets, one call comes to what the bytes decide. -/
theorem decodesExactly {feed : ByteFeed} (flows : feed.Flows) : ∃ answer feed',
    CharSource.read (mk feed) = (answer,⟨feed'⟩) ∧ feed'.Flows ∧
      Utf8.Decodes feed.unread answer feed'.unread := by
  obtain ⟨feed',read,gives⟩ := Utf8.readFront (ByteFeed.flowsIff.mpr ⟨flows,rfl⟩)
  obtain ⟨flows',left⟩ := ByteFeed.flowsIff.mp gives
  exact ⟨_,feed',reads read,flows',by rw [left]; exact Utf8.frontDecodes feed.unread⟩

/- The first half of a surrogate pair, cut between its bytes. -/
theorem decodesExactlySample : ∃ feed : ByteFeed,
    feed = .ofPackets [.bytes [0xED,0xA0],.bytes [0x80,0x61]] ∧ feed.Flows ∧
      CharSource.read (mk feed) = (.error Utf8.illFormed,⟨⟨[0x61],[]⟩⟩) ∧
      Utf8.Decodes [0xED,0xA0,0x80,0x61] (.error Utf8.illFormed) [0x61] := by
  have filled : [] ∉ ([[0xED,0xA0],[0x80,0x61]] : List (List UInt8)) := by decide
  have flows : (ByteFeed.ofPackets [.bytes [0xED,0xA0],.bytes [0x80,0x61]]).Flows :=
    ByteFeed.ofChunksFlows filled
  obtain ⟨answer,feed',read,_,decodes⟩ := decodesExactly flows
  cases read
  exact ⟨_,rfl,flows,rfl,decodes⟩

end Utf8Source
end Munch
