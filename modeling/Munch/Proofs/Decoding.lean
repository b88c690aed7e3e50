import Mathlib.Data.List.Basic
import Munch.Proofs.Delivery
import Munch.Source.Utf8

/-! Characters from bytes. The bytes of a character are a leading byte that tells how many
there are and bytes that continue it, and they make up the character again. What a feed
gives are its bytes one by one, with the failures among them. Main statements: a character
is read when its bytes come in a row; a failure that parts them is reported and what was read
of the character is lost; each byte stranded so is a failure of its own. -/
namespace Munch

/- The bytes of a text. -/
def Text.utf8 (text : String) : List UInt8 := text.toUTF8.data.toList

theorem Text.utf8OfList (text : List Char) :
    utf8 (String.ofList text) = text.flatMap String.utf8EncodeChar := by
  rw [utf8,String.toUTF8_eq_toByteArray,String.toByteArray_ofList,List.utf8Encode,
    List.data_toByteArray]

theorem Text.utf8ToList (text : String) :
    utf8 text = text.toList.flatMap String.utf8EncodeChar := by
  have encoded := utf8OfList text.toList
  rwa [String.ofList_toList] at encoded

/-- A byte or a failure. -/
abbrev ByteAnswer := Except ReadError UInt8

/- The bytes among what a feed gives. -/
def received (answers : List ByteAnswer) : List UInt8 := answers.filterMap Except.toOption

theorem receivedMapOk (bytes : List UInt8) : received (bytes.map .ok) = bytes := by
  induction bytes with
  | nil => rfl
  | cons b rest ih => exact congrArg (List.cons b) ih

namespace Packet

def answers : Packet → List ByteAnswer
  | .bytes data => data.map .ok
  | .failure e => [.error e]

end Packet

namespace ByteFeed

def answers (f : ByteFeed) : List ByteAnswer :=
  f.buffer.map .ok ++ f.packets.flatMap Packet.answers

/- The feed gives these bytes and failures and then ends, for no packet of it is empty. -/
structure Gives (f : ByteFeed) (answers : List ByteAnswer) : Prop where
  given : f.answers = answers
  filled : .bytes [] ∉ f.packets

theorem unreadReceived (f : ByteFeed) : f.unread = received f.answers := by
  have packet (p : Packet) : received p.answers = match p with
      | .bytes data => data
      | .failure _ => [] := by
    cases p with
    | bytes data => exact receivedMapOk data
    | failure e => rfl
  have buffered : (f.buffer.map .ok).filterMap Except.toOption = f.buffer := receivedMapOk f.buffer
  rw [unread,answers,received,List.filterMap_append,List.filterMap_flatMap,buffered]
  exact congrArg _ (List.flatMap_congr fun p _ => (packet p).symm)

theorem Gives.shows {f : ByteFeed} {answers : List ByteAnswer} (gives : f.Gives answers) :
    match answers with
      | [] => f.peek = (.ok none,f)
      | .ok b::rest => ∃ f', f.peek = (.ok (some b),f') ∧ f'.skip.Gives rest
      | .error e::rest => ∃ f', f.peek = (.error e,f') ∧ f'.Gives rest := by
  obtain ⟨rfl,filled⟩ := gives
  match f with
  | ⟨b::buffer,packets⟩ => exact ⟨_,rfl,rfl,filled⟩
  | ⟨[],[]⟩ => rfl
  | ⟨[],.bytes []::packets⟩ => simp at filled
  | ⟨[],.bytes (b::data)::packets⟩ => exact ⟨_,rfl,rfl,fun member => filled (.tail _ member)⟩
  | ⟨[],.failure e::packets⟩ => exact ⟨_,rfl,rfl,fun member => filled (.tail _ member)⟩

end ByteFeed

namespace Utf8

/- The bytes that spell a character: as many as the leading byte tells. -/
structure Spells (ch : Char) (lead : UInt8) (tail : List UInt8) : Prop where
  width : width lead = some (tail.length+1)
  continues : ∀ b ∈ tail, isContinuation b = true
  assembles : assemble lead tail = some ch

theorem ofScalarToNat (ch : Char) : ofScalar? ch.toNat = some ch := dif_pos ch.valid

theorem byteToNat {n : Nat} (small : n < 256) : (UInt8.ofNat n).toNat = n :=
  UInt8.toNat_ofNat_of_lt' small

def continuation (n : Nat) : UInt8 := UInt8.ofNat (n%64+128)

theorem continuationToNat (n : Nat) : (continuation n).toNat = n%64+128 :=
  byteToNat (by omega)

theorem continuationContinues (n : Nat) : isContinuation (continuation n) = true := by
  rw [isContinuation,continuationToNat]
  simp only [Bool.and_eq_true,decide_eq_true_eq]
  omega

theorem spellsOf {ch : Char} {lead : UInt8} {groups : List Nat}
    (wide : width lead = some (groups.length+1))
    (scalar : groups.foldl (fun n group => n*64+group%64) (leadBits lead groups.length) = ch.toNat)
    (shortest : leastScalar groups.length ≤ ch.toNat) :
    Spells ch lead (groups.map continuation) where
  width := by rw [List.length_map]; exact wide
  continues b member := by
    obtain ⟨group,_,rfl⟩ := List.mem_map.mp member
    exact continuationContinues group
  assembles := by
    have bits (group : Nat) : (group%64+128)%64 = group%64 := by omega
    unfold assemble
    simp only [List.length_map,List.foldl_map,continuationToNat,bits,scalar]
    rw [if_pos shortest,ofScalarToNat]

theorem encodeSpells (ch : Char) :
    ∃ lead tail, String.utf8EncodeChar ch = lead::tail ∧ Spells ch lead tail := by
  have most : ch.toNat < 0x110000 := by
    rcases ch.valid with low | ⟨_,high⟩
    · exact Nat.lt_trans low (by decide)
    · exact high
  have same : ch.val.toNat = ch.toNat := rfl
  unfold String.utf8EncodeChar
  simp only [same]
  -- One case for each width.
  split
  · have lead := byteToNat (n := ch.toNat) (by omega)
    refine ⟨_,[].map continuation,rfl,spellsOf ?_ lead (Nat.zero_le _)⟩
    rw [width,lead,if_pos (by omega)]
    rfl
  split
  · have lead := byteToNat (n := ch.toNat/64%32+192) (by omega)
    refine ⟨_,[ch.toNat].map continuation,rfl,spellsOf ?_ ?_ ?_⟩
    · rw [width,lead,if_neg (by omega),if_neg (by omega),if_pos (by omega)]
      rfl
    · simp only [List.foldl_cons,List.foldl_nil,List.length_cons,List.length_nil,leadBits,lead]
      omega
    · simp only [List.length_cons,List.length_nil,leastScalar]
      omega
  split
  · have lead := byteToNat (n := ch.toNat/4096%16+224) (by omega)
    refine ⟨_,[ch.toNat/64,ch.toNat].map continuation,rfl,spellsOf ?_ ?_ ?_⟩
    · rw [width,lead,if_neg (by omega),if_neg (by omega),if_neg (by omega),if_pos (by omega)]
      rfl
    · simp only [List.foldl_cons,List.foldl_nil,List.length_cons,List.length_nil,leadBits,lead]
      omega
    · simp only [List.length_cons,List.length_nil,leastScalar]
      omega
  · have lead := byteToNat (n := ch.toNat/262144%8+240) (by omega)
    refine ⟨_,[ch.toNat/4096,ch.toNat/64,ch.toNat].map continuation,rfl,spellsOf ?_ ?_ ?_⟩
    · rw [width,lead,if_neg (by omega),if_neg (by omega),if_neg (by omega),if_neg (by omega),
        if_pos (by omega)]
      rfl
    · simp only [List.foldl_cons,List.foldl_nil,List.length_cons,List.length_nil,leadBits,lead]
      omega
    · simp only [List.length_cons,List.length_nil,leastScalar]
      omega

theorem spelt {ch : Char} {lead : UInt8} {tail : List UInt8}
    (bytes : String.utf8EncodeChar ch = lead::tail) : Spells ch lead tail := by
  obtain ⟨lead',tail',bytes',spells⟩ := encodeSpells ch
  obtain ⟨rfl,rfl⟩ := List.cons.inj (bytes'.symm.trans bytes)
  exact spells

variable {f : ByteFeed} {rest : List ByteAnswer}

theorem continuationsWhole {tail : List UInt8} (continues : ∀ b ∈ tail, isContinuation b = true)
    (gives : f.Gives (tail.map .ok ++ rest)) :
    ∃ f', continuations tail.length f = (.ok tail,f') ∧ f'.Gives rest := by
  induction tail generalizing f with
  | nil => exact ⟨f,rfl,gives⟩
  | cons b tail ih =>
    obtain ⟨here,others⟩ := List.forall_mem_cons.mp continues
    obtain ⟨f',shown,gives'⟩ := gives.shows
    obtain ⟨f'',read,gives''⟩ := ih others gives'
    exact ⟨f'',by simp [continuations,shown,here,read],gives''⟩

theorem continuationsParted {early : List UInt8} {e : ReadError} {count : Nat}
    (continues : ∀ b ∈ early, isContinuation b = true) (short : early.length < count)
    (gives : f.Gives (early.map .ok ++ .error e::rest)) :
    ∃ f', continuations count f = (.error e,f') ∧ f'.Gives rest := by
  induction early generalizing f count with
  | nil =>
    obtain ⟨f',shown,gives'⟩ := gives.shows
    obtain ⟨count,rfl⟩ := Nat.exists_eq_add_of_lt short
    exact ⟨f',by simp [continuations,shown],gives'⟩
  | cons b early ih =>
    obtain ⟨here,others⟩ := List.forall_mem_cons.mp continues
    obtain ⟨f',shown,gives'⟩ := gives.shows
    cases count with
    | zero => exact absurd short (Nat.not_lt_zero _)
    | succ count =>
      obtain ⟨f'',read,gives''⟩ := ih others (Nat.lt_of_succ_lt_succ short) gives'
      exact ⟨f'',by simp [continuations,shown,here,read],gives''⟩

theorem readWhole {ch : Char} (gives : f.Gives ((String.utf8EncodeChar ch).map .ok ++ rest)) :
    ∃ f', read f = (.ok (some ch),f') ∧ f'.Gives rest := by
  obtain ⟨lead,tail,bytes,spells⟩ := encodeSpells ch
  rw [bytes] at gives
  obtain ⟨f',shown,gives'⟩ := gives.shows
  obtain ⟨f'',continued,gives''⟩ := continuationsWhole spells.continues gives'
  exact ⟨f'',by simp [read,shown,finish,spells.width,continued,spells.assembles],gives''⟩

theorem readParted {ch : Char} {lead : UInt8} {early late : List UInt8} {e : ReadError}
    (bytes : String.utf8EncodeChar ch = lead::(early ++ late)) (goes : late ≠ [])
    (gives : f.Gives (.ok lead::(early.map .ok ++ .error e::rest))) :
    ∃ f', read f = (.error e,f') ∧ f'.Gives rest := by
  have spells := spelt bytes
  have continues := (List.forall_mem_append.mp spells.continues).1
  have short : early.length < (early ++ late).length := by
    simpa [List.length_pos_iff] using goes
  obtain ⟨f',shown,gives'⟩ := gives.shows
  obtain ⟨f'',parted,gives''⟩ := continuationsParted continues short gives'
  refine ⟨f'',?_,gives''⟩
  simp only [read,shown,finish,spells.width,Nat.add_sub_cancel,parted]

theorem strandedWidth {b : UInt8} (continues : isContinuation b = true) : width b = none := by
  simp only [isContinuation,Bool.and_eq_true,decide_eq_true_eq] at continues
  rw [width,if_neg (by omega),if_pos (by omega)]

theorem readStranded {b : UInt8} (continues : isContinuation b = true)
    (gives : f.Gives (.ok b::rest)) :
    ∃ f', read f = (.error (badLead b),f') ∧ f'.Gives rest := by
  obtain ⟨f',shown,gives'⟩ := gives.shows
  exact ⟨f'.skip,by simp [read,shown,finish,strandedWidth continues],gives'⟩

theorem readFailure {e : ReadError} (gives : f.Gives (.error e::rest)) :
    ∃ f', read f = (.error e,f') ∧ f'.Gives rest := by
  obtain ⟨f',shown,gives'⟩ := gives.shows
  exact ⟨f',by simp [read,shown],gives'⟩

theorem readOver (gives : f.Gives []) : read f = (.ok none,f) := by
  simp [read,gives.shows]

end Utf8

theorem Utf8Source.reads {f f' : ByteFeed} {answer : Answer} (read : Utf8.read f = (answer,f')) :
    CharSource.read (Utf8Source.mk f) = (answer,⟨f'⟩) := by
  simp only [CharSource.read,Utf8Source.read,read]

end Munch
