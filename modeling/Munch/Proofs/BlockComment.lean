import Munch.Proofs.Transcript

/-! How far a block comment goes. Where comments do not nest, its body runs to the first
place at which the longest match closes one. Where they do, the body decomposes into
items, one in one way only: the markers that open and close comments, taken whole, and
single characters. As long as a body goes on, no more comments have been closed in it
than opened, and it ends with the marker that closes one more. Main statement: this is
the extent of every block comment in a text; a body without such an end takes all of
the text that is left. -/
namespace Munch

namespace Grammar

theorem leadingNothing {g : Grammar} {text : List Char} (nothing : g.longest text = .nothing)
    (n : Nat) (y : Symbol) : ¬ g.Leading text n y := by
  intro leading
  exact (longestNothing.mp nothing).2 n y leading.found

def Closes (g : Grammar) (text : List Char) : Prop :=
  ∃ n y, g.Leading text n y ∧ y.kind = .commentBlockEnd

theorem closesFound {g : Grammar} {text : List Char} {m : Match} (found : g.longest text = .found m) :
    g.Closes text ↔ m.symbol.kind = .commentBlockEnd := by
  constructor
  · intro closes
    obtain ⟨n,y,leading,kind⟩ := closes
    rw [(leading.unique (longestFound.mp found)).2] at kind
    exact kind
  · intro kind
    exact ⟨_,_,longestFound.mp found,kind⟩

/- The body of a comment that does not nest, whether it is closed, and its length with
the marker that closes it. -/
inductive PlainBody (g : Grammar) (text : List Char) : Bool → Nat → Prop where
  | closed {e n y} (leading : g.Leading (text.drop e) n y) (kind : y.kind = .commentBlockEnd)
      (least : ∀ q, q < e → ¬ g.Closes (text.drop q)) : PlainBody g text true (e+n)
  | cutOff (never : ∀ q, ¬ g.Closes (text.drop q)) : PlainBody g text false text.length

end Grammar

inductive Item where
  | opening (length : Nat)
  | closing (length : Nat)
  | single
  deriving DecidableEq, Repr

namespace Item

def length : Item → Nat
  | opening length => length
  | closing length => length
  | single => 1

def isOpening : Item → Bool
  | opening _ => true
  | _ => false

def isClosing : Item → Bool
  | closing _ => true
  | _ => false

def starts (items : List Item) : Nat := items.countP isOpening

def ends (items : List Item) : Nat := items.countP isClosing

theorem startsCons (item : Item) (items : List Item) :
    starts (item::items) = starts [item]+starts items := by
  simp only [starts,List.countP_cons,List.countP_nil,Nat.zero_add,Nat.add_comm]

theorem endsCons (item : Item) (items : List Item) :
    ends (item::items) = ends [item]+ends items := by
  simp only [ends,List.countP_cons,List.countP_nil,Nat.zero_add,Nat.add_comm]

end Item

namespace Grammar

/- The item at the front of a text. -/
inductive Shows (g : Grammar) (text : List Char) : Item → Prop where
  | opening {n y} (leading : g.Leading text n y) (kind : y.kind = .commentBlockStart) :
      Shows g text (.opening n)
  | closing {n y} (leading : g.Leading text n y) (kind : y.kind = .commentBlockEnd) :
      Shows g text (.closing n)
  | single (more : text ≠ []) (other : ∀ n y, g.Leading text n y →
      y.kind ≠ .commentBlockStart ∧ y.kind ≠ .commentBlockEnd) : Shows g text .single

theorem Shows.positive {g : Grammar} {text : List Char} {item : Item} (shows : g.Shows text item) :
    0 < item.length := by
  cases shows with
  | opening leading => exact leading.found.positive
  | closing leading => exact leading.found.positive
  | single => exact Nat.one_pos

theorem Shows.more {g : Grammar} {text : List Char} {item : Item} (shows : g.Shows text item) :
    text ≠ [] := by
  have filled {n : Nat} {y : Symbol} (leading : g.Leading text n y) : text ≠ [] :=
    List.length_pos_iff.mp (Nat.lt_of_lt_of_le leading.found.positive leading.found.within)
  cases shows with
  | opening leading => exact filled leading
  | closing leading => exact filled leading
  | single more => exact more

theorem Shows.unique {g : Grammar} {text : List Char} {a b : Item} (one : g.Shows text a)
    (two : g.Shows text b) : a = b := by
  cases one with
  | opening leading kind =>
    cases two with
    | opening leading' => rw [(leading.unique leading').1]
    | closing leading' kind' => rw [(leading.unique leading').2,kind'] at kind; cases kind
    | single _ other => exact absurd kind (other _ _ leading).1
  | closing leading kind =>
    cases two with
    | opening leading' kind' => rw [(leading.unique leading').2,kind'] at kind; cases kind
    | closing leading' => rw [(leading.unique leading').1]
    | single _ other => exact absurd kind (other _ _ leading).2
  | single _ other =>
    cases two with
    | opening leading kind => exact absurd kind (other _ _ leading).1
    | closing leading kind => exact absurd kind (other _ _ leading).2
    | single => rfl

/- The items that make up a number of characters at the front of a text. -/
inductive Decomposes (g : Grammar) : List Char → List Item → Nat → Prop where
  | nil (text) : Decomposes g text [] 0
  | cons {text item items count} (shows : g.Shows text item)
      (rest : Decomposes g (text.drop item.length) items count) :
      Decomposes g text (item::items) (item.length+count)

theorem Decomposes.unique {g : Grammar} {text : List Char} {items others : List Item} {count : Nat}
    (one : g.Decomposes text items count) (two : g.Decomposes text others count) :
    items = others := by
  induction one generalizing others with
  | nil text =>
    generalize none : 0 = count at two
    cases two with
    | nil => rfl
    | cons shows => have := shows.positive; omega
  | @cons text item items count shows rest ih =>
    generalize same : item.length+count = total at two
    cases two with
    | nil => have := shows.positive; omega
    | cons shows' rest' =>
      have first := shows.unique shows'
      subst first
      cases Nat.add_left_cancel same
      rw [ih rest']

/- The items of a part of the text are the first of those of the whole text. -/
theorem Decomposes.begins {g : Grammar} {text : List Char} {items others : List Item} {count : Nat}
    (part : g.Decomposes text items count) (whole : g.Decomposes text others text.length) :
    items <+: others := by
  induction part generalizing others with
  | nil text => exact List.nil_prefix
  | @cons text item items count shows rest ih =>
    generalize size : text.length = total at whole
    cases whole with
    | nil => exact absurd (List.length_eq_zero_iff.mp size) shows.more
    | @cons _ item' others count' shows' rest' =>
      have first := shows.unique shows'
      subst first
      have left : (text.drop item.length).length = count' := by
        rw [List.length_drop]
        omega
      exact (List.prefix_cons_inj item).mpr (ih (left ▸ rest'))

/- The body of a comment that nests. -/
inductive NestedBody (g : Grammar) (text : List Char) : Bool → Nat → Prop where
  | closed {items count} (decomposes : g.Decomposes text items count)
      (sole : ∀ others, g.Decomposes text others count → others = items)
      (within : ∀ k, k < items.length → Item.ends (items.take k) ≤ Item.starts (items.take k))
      (whole : Item.ends items = Item.starts items+1) : NestedBody g text true count
  | cutOff {items} (decomposes : g.Decomposes text items text.length)
      (sole : ∀ others, g.Decomposes text others text.length → others = items)
      (within : ∀ k, Item.ends (items.take k) ≤ Item.starts (items.take k)) :
      NestedBody g text false text.length

theorem notClosesEmpty (g : Grammar) : ¬ g.Closes [] := by
  intro closes
  obtain ⟨n,y,leading,_⟩ := closes
  have positive := leading.found.positive
  have within := leading.found.within
  rw [List.length_nil] at within
  omega

theorem PlainBody.behind {g : Grammar} {text : List Char} {closed : Bool} {count : Nat}
    (more : text ≠ []) (goes : ¬ g.Closes text) (rest : g.PlainBody (text.drop 1) closed count) :
    g.PlainBody text closed (1+count) := by
  cases rest with
  | @closed e n y leading kind least =>
    rw [List.drop_drop] at leading
    rw [← Nat.add_assoc]
    apply PlainBody.closed leading kind
    intro q before
    cases q with
    | zero => exact goes
    | succ q =>
      have further := least q (by omega)
      rw [List.drop_drop,Nat.add_comm] at further
      exact further
  | cutOff never =>
    have whole : 1+(text.drop 1).length = text.length := by
      have positive := List.length_pos_iff.mpr more
      rw [List.length_drop]
      omega
    rw [whole]
    apply PlainBody.cutOff
    intro q
    cases q with
    | zero => exact goes
    | succ q =>
      have further := never q
      rw [List.drop_drop,Nat.add_comm] at further
      exact further

end Grammar

namespace OpenComment
open Grammar (Leading Closes Shows Decomposes PlainBody NestedBody)

/- What a reaction to the text says about the front of it. -/
theorem Reaction.closes {g : Grammar} {nested : Bool} {depth length : Nat} {text : List Char}
    (reacts : ofLongest nested depth (g.longest text) = close length) :
    depth ≤ 1 ∧ ∃ y, g.Leading text length y ∧ y.kind = .commentBlockEnd := by
  cases result : g.longest text with
  | atEnd => rw [result] at reacts; cases reacts
  | nothing => rw [result] at reacts; cases reacts
  | found m =>
    rw [result] at reacts
    simp only [ofLongest] at reacts
    repeat' split at reacts
    all_goals cases reacts
    rename_i isEnd last
    exact ⟨last,_,Grammar.longestFound.mp result,isEnd⟩

theorem Reaction.passes {g : Grammar} {text : List Char} {length after : Nat}
    (reacts : ofLongest false 1 (g.longest text) = take length after) :
    length = 1 ∧ after = 1 ∧ text ≠ [] ∧ ¬ g.Closes text := by
  cases result : g.longest text with
  | atEnd => rw [result] at reacts; cases reacts
  | nothing =>
    rw [result] at reacts
    cases reacts
    refine ⟨rfl,rfl,(Grammar.longestNothing.mp result).1,?_⟩
    intro closes
    obtain ⟨n,y,leading,_⟩ := closes
    exact Grammar.leadingNothing result n y leading
  | found m =>
    rw [result] at reacts
    have more : text ≠ [] := by
      intro empty
      rw [Grammar.longestAtEnd.mpr empty] at result
      cases result
    by_cases isEnd : m.symbol.kind = .commentBlockEnd
    · simp only [ofLongest,if_pos isEnd] at reacts
      cases reacts
    · simp only [ofLongest,if_neg isEnd,Bool.false_eq_true,and_false,if_false] at reacts
      cases reacts
      exact ⟨rfl,rfl,more,fun closes => isEnd ((Grammar.closesFound result).mp closes)⟩

/- Taking an item changes the depth by what the item opens or closes. -/
theorem Reaction.shows {g : Grammar} {text : List Char} {depth length after : Nat}
    (positive : 0 < depth) (reacts : ofLongest true depth (g.longest text) = take length after) :
    ∃ item, g.Shows text item ∧ item.length = length ∧ 0 < after ∧
      Item.starts [item]+depth = Item.ends [item]+after := by
  cases result : g.longest text with
  | atEnd => rw [result] at reacts; cases reacts
  | nothing =>
    rw [result] at reacts
    cases reacts
    exact ⟨.single,.single (Grammar.longestNothing.mp result).1
      fun n y leading => absurd leading (Grammar.leadingNothing result n y),rfl,positive,rfl⟩
  | found m =>
    rw [result] at reacts
    have leading := Grammar.longestFound.mp result
    by_cases isEnd : m.symbol.kind = .commentBlockEnd
    · by_cases last : depth ≤ 1
      · simp only [ofLongest,if_pos isEnd,if_pos last] at reacts
        cases reacts
      · simp only [ofLongest,if_pos isEnd,if_neg last] at reacts
        cases reacts
        refine ⟨.closing m.length,.closing leading isEnd,rfl,by omega,?_⟩
        change 0+depth = 1+(depth-1)
        omega
    · by_cases isStart : m.symbol.kind = .commentBlockStart
      · simp only [ofLongest,isStart,true_and,if_true] at reacts
        cases reacts
        refine ⟨.opening m.length,.opening leading isStart,rfl,by omega,?_⟩
        change 1+depth = 0+(depth+1)
        omega
      · simp only [ofLongest,if_neg isEnd,isStart,false_and,if_false] at reacts
        cases reacts
        refine ⟨.single,.single ?_ ?_,rfl,positive,rfl⟩
        · intro empty
          rw [Grammar.longestAtEnd.mpr empty] at result
          cases result
        · intro n y other
          rw [(other.unique leading).2]
          exact ⟨isStart,isEnd⟩

theorem bodyPlain {g : Grammar} {nested : Bool} {depth : Nat} {text : List Char}
    (plain : nested = false) (one : depth = 1) :
    g.PlainBody text (body g nested depth text).marker.isSome (body g nested depth text).span := by
  fun_induction body g nested depth text with
  | case1 depth text reaction =>
    rw [Reaction.cutOffAtEnd reaction]
    apply PlainBody.cutOff
    intro q
    rw [List.drop_nil]
    exact g.notClosesEmpty
  | case2 depth text length reaction =>
    obtain ⟨_,y,leading,kind⟩ := Reaction.closes reaction
    exact PlainBody.closed (e := 0) leading kind (fun q before => absurd before (Nat.not_lt_zero q))
  | case3 depth text length after reaction ih =>
    subst plain one
    obtain ⟨rfl,rfl,more,goes⟩ := Reaction.passes reaction
    rw [Body.spanBehind]
    exact (ih rfl).behind more goes

/- As long as the body goes on, the depth is what has been opened and not closed. -/
theorem bodyNested (g : Grammar) {nested : Bool} {depth : Nat} (text : List Char)
    (isNested : nested = true) (positive : 0 < depth) :
    ∃ items, g.Decomposes text items (body g nested depth text).span ∧
      (∀ k, k < items.length →
        Item.ends (items.take k) < Item.starts (items.take k)+depth) ∧
      if (body g nested depth text).marker.isSome then Item.ends items = Item.starts items+depth
      else Item.ends items < Item.starts items+depth := by
  fun_induction body g nested depth text with
  | case1 depth text reaction =>
    exact ⟨[],.nil text,fun k before => absurd before (Nat.not_lt_zero k),Nat.lt_add_left 0 positive⟩
  | case2 depth text length reaction =>
    obtain ⟨last,y,leading,kind⟩ := Reaction.closes reaction
    refine ⟨[.closing length],?_,?_,?_⟩
    · rw [Body.span,Nat.add_comm]
      exact .cons (.closing leading kind) (.nil _)
    · intro k before
      rw [List.length_singleton,Nat.lt_one_iff] at before
      subst before
      exact Nat.lt_add_left 0 positive
    · change 1 = 0+depth
      omega
  | case3 depth text length after reaction ih =>
    subst isNested
    obtain ⟨item,shows,rfl,left,balance⟩ := Reaction.shows positive reaction
    -- The rest starts at the depth the item leaves, so the counts shift by the item's own.
    obtain ⟨items,decomposes,within,whole⟩ := ih left
    refine ⟨item::items,?_,?_,?_⟩
    · rw [Body.spanBehind]
      exact .cons shows decomposes
    · intro k before
      cases k with
      | zero => exact Nat.lt_add_left 0 positive
      | succ k =>
        have tail := within k (Nat.lt_of_succ_lt_succ before)
        rw [List.take_succ_cons,Item.startsCons,Item.endsCons]
        omega
    · rw [Item.startsCons item items,Item.endsCons item items]
      change if (body g true after (text.drop item.length)).marker.isSome then _ else _
      split at whole
      · rename_i closed; rw [if_pos closed]; omega
      · rename_i cut; rw [if_neg cut]; omega

theorem bodyBalanced (g : Grammar) (text : List Char) :
    g.NestedBody text (body g true 1 text).marker.isSome (body g true 1 text).span := by
  obtain ⟨items,decomposes,within,whole⟩ := bodyNested g text (Eq.refl true) Nat.one_pos
  have sole : ∀ others, g.Decomposes text others (body g true 1 text).span → others = items :=
    fun others other => other.unique decomposes
  cases marker : (body g true 1 text).marker with
  | some length =>
    rw [marker,Option.isSome_some,if_pos rfl] at whole
    exact .closed decomposes sole (fun k before => Nat.le_of_lt_succ (within k before)) whole
  | none =>
    have span : (body g true 1 text).span = text.length := by
      rw [Body.span,marker]
      exact bodyCutOff marker
    rw [span] at decomposes sole ⊢
    apply NestedBody.cutOff decomposes sole
    intro k
    rcases Nat.lt_or_ge k items.length with before | after
    · exact Nat.le_of_lt_succ (within k before)
    · rw [marker,Option.isSome_none,if_neg (by simp)] at whole
      rw [List.take_of_length_le after]
      exact Nat.le_of_lt_succ whole

end OpenComment

/- A block comment at the front of a text: its opening marker, and its body. -/
structure Grammar.BlockComment (g : Grammar) (nested : Bool) (text : List Char) (symbol : Symbol)
    (closed : Bool) (opening count : Nat) : Prop where
  opens : g.Leading text opening symbol
  kind : symbol.kind = .commentBlockStart
  plain : nested = false → g.PlainBody (text.drop opening) closed count
  nests : nested = true → g.NestedBody (text.drop opening) closed count

theorem Grammar.BlockComment.cutOff {g : Grammar} {nested : Bool} {text : List Char}
    {symbol : Symbol} {closed : Bool} {opening count : Nat}
    (comment : g.BlockComment nested text symbol closed opening count) (cut : closed = false) :
    opening+count = text.length := by
  have within := comment.opens.found.within
  have rest : (text.drop opening).length = text.length-opening := List.length_drop
  subst cut
  cases nested with
  | false => cases comment.plain rfl; omega
  | true => cases comment.nests rfl; omega

/- A text does not both close the comment at its front and cut it off. -/
theorem Grammar.BlockComment.sameEnding {g : Grammar} {nested : Bool} {text : List Char}
    {y z : Symbol} {n m count total : Nat} (closed : g.BlockComment nested text y true n count)
    (cut : g.BlockComment nested text z false m total) : False := by
  have opening := (closed.opens.unique cut.opens).1
  subst opening
  cases nested with
  | false =>
    cases closed.plain rfl with
    | @closed e k y' leading kind =>
      cases cut.plain rfl with
      | cutOff never => exact never e ⟨k,y',leading,kind⟩
  | true =>
    cases closed.nests rfl with
    | @closed items _ decomposes _ _ whole =>
      cases cut.nests rfl with
      | @cutOff others decomposes' _ within =>
        obtain ⟨rest,rfl⟩ := decomposes.begins decomposes'
        have balance := within items.length
        rw [List.take_left] at balance
        omega

/- The block comment at the front of a text is not closed in it. -/
def Grammar.CutOff (g : Grammar) (nested : Bool) (text : List Char) : Prop :=
  ∃ y n count, g.BlockComment nested text y false n count

theorem Grammar.BlockComment.cutOffIff {g : Grammar} {nested closed : Bool} {text : List Char}
    {symbol : Symbol} {n count : Nat}
    (comment : g.BlockComment nested text symbol closed n count) :
    g.CutOff nested text ↔ closed = false := by
  constructor
  · intro cut
    obtain ⟨y,m,total,cut⟩ := cut
    cases closed with
    | false => rfl
    | true => exact (comment.sameEnding cut).elim
  · intro still
    subst still
    exact ⟨_,_,_,comment⟩

theorem OpenComment.bodyComment {g : Grammar} {text : List Char} {m : Match} (nested : Bool)
    (found : g.longest text = .found m) (kind : m.symbol.kind = .commentBlockStart) :
    let b := OpenComment.body g nested 1 (text.drop m.length)
    g.BlockComment nested text m.symbol b.marker.isSome m.length b.span where
  opens := Grammar.longestFound.mp found
  kind := kind
  plain isPlain := OpenComment.bodyPlain isPlain rfl
  nests isNested := by
    subst isNested
    exact OpenComment.bodyBalanced g _

namespace Lexeme

theorem blockComment {g : Grammar} {settings : Settings} {text : List Char} {x : Lexeme}
    (here : lexeme g settings text = some x) (isBlock : x.message = .commentBlockRead) :
    ∃ n count, x.length = n+count ∧
      g.BlockComment settings.nestedBlockComments text x.symbol (!x.cutOff) n count := by
  obtain ⟨m,found,symbol,kind,length,cut⟩ := lexemeBlock here isBlock
  rw [← symbol] at kind ⊢
  rw [cut,Option.not_isNone]
  exact ⟨m.length,_,length,OpenComment.bodyComment settings.nestedBlockComments found kind⟩

theorem cutOffEvent {x : Lexeme} {start : Position} (isBlock : x.message = .commentBlockRead) :
    .unterminatedComment start ∈ x.events start ↔ x.cutOff = true := by
  rw [events,if_neg (by rw [isBlock]; decide)]
  cases x.cutOff <;> simp

end Lexeme

namespace Tokenizer

theorem readingBlockComments (g : Grammar) (settings : Settings) (text : String) :
    ∃ turns, Run (reading g settings text) turns ∧
      ∀ (i : Nat) turn scan, turns[i]? = some turn → turn.result = .ok scan →
        scan.message = .commentBlockRead → ∃ closed n count,
          g.BlockComment settings.nestedBlockComments
            (text.toList.drop scan.token.position.index) scan.token.symbol closed n count ∧
          turn.tokenizer.position.index = scan.token.position.index+n+count ∧
          (.unterminatedComment scan.token.position ∈ turn.events ↔ closed = false) ∧
          (closed = false → turn.tokenizer.position.index = text.length ∧
            ∃ following, turns[i+1]? = some following ∧ following.IsEnd) := by
  obtain ⟨turns,run⟩ := readingRun g settings text
  refine ⟨turns,run,?_⟩
  intro i turn scan found answers isBlock
  obtain ⟨u,offset,stands,called,rest⟩ := readingTurn run found
  subst called
  have going : ¬ u.next.IsEnd := by
    intro isEnd
    obtain ⟨scan',answers',isEnd⟩ := isEnd
    cases answers.symm.trans answers'
    rw [isBlock] at isEnd
    cases isEnd
  obtain ⟨x,here⟩ := stands.further going
  obtain ⟨result,events,further⟩ := stands.takes here
  cases answers.symm.trans result
  obtain ⟨n,count,length,comment⟩ := Lexeme.blockComment here isBlock
  have start : (x.scan u.position).token.position.index = offset := stands.index
  rw [start,further.index,events,length]
  refine ⟨!x.cutOff,n,count,comment,(Nat.add_assoc _ _ _).symm,?_,?_⟩
  · rw [Bool.not_eq_false']
    exact Lexeme.cutOffEvent isBlock
  · intro cut
    have whole := comment.cutOff cut
    rw [List.length_drop] at whole
    have within := stands.within
    rw [← String.length_toList]
    have done : offset+x.length = text.toList.length := by omega
    refine ⟨by omega,?_⟩
    obtain ⟨others,same⟩ := rest.second going
    refine ⟨u.next.tokenizer.next,?_,_,(further.atEnd done).1,rfl⟩
    have next : (turns.drop i)[1]? = some u.next.tokenizer.next := by rw [same]; rfl
    rw [List.getElem?_drop] at next
    exact next

/- A comment with another in it, one that the first marker closes, and one that is cut off. -/
theorem readingBlockCommentsSample : ∃ g turns, Draft.sample.compile = .ok g ∧
    Run (reading g ⟨.withDelimiters,true⟩ "/*/*a*/*//*b*//*b") turns ∧
    turns.map Turn.result = [
      .ok ⟨.commentBlockRead,⟨⟨3,"open",.commentBlockStart⟩,"/*/*a*/*/",⟨0,1,1⟩⟩⟩,
      .ok ⟨.commentBlockRead,⟨⟨3,"open",.commentBlockStart⟩,"/*b*/",⟨9,1,10⟩⟩⟩,
      .ok ⟨.commentBlockRead,⟨⟨3,"open",.commentBlockStart⟩,"/*b",⟨14,1,15⟩⟩⟩,
      .ok ⟨.endOfInput,⟨⟨0,"End",.endOfInput⟩,"",⟨17,1,18⟩⟩⟩] ∧
    ∀ (i : Nat) turn scan, turns[i]? = some turn → turn.result = .ok scan →
      scan.message = .commentBlockRead → ∃ closed n count,
        g.BlockComment true ("/*/*a*/*//*b*//*b".toList.drop scan.token.position.index)
          scan.token.symbol closed n count ∧
        turn.tokenizer.position.index = scan.token.position.index+n+count ∧
        (.unterminatedComment scan.token.position ∈ turn.events ↔ closed = false) ∧
        (closed = false → turn.tokenizer.position.index = "/*/*a*/*//*b*//*b".length ∧
          ∃ following, turns[i+1]? = some following ∧ following.IsEnd) := by
  obtain ⟨g,compiles⟩ := Draft.sampleCompiles
  obtain ⟨turns,run,comments⟩ :=
    readingBlockComments g ⟨.withDelimiters,true⟩ "/*/*a*/*//*b*//*b"
  refine ⟨g,turns,compiles,run,?_,comments⟩
  let opening : Match := ⟨2,⟨3,"open",.commentBlockStart⟩,Nat.two_pos⟩
  have nested : g.longest "/*/*a*/*//*b*//*b".toList = .found opening :=
    Draft.ofCompile (f := fun g => g.longest "/*/*a*/*//*b*//*b".toList) compiles (by cbv)
  have nestedBody : OpenComment.bodyIn g true 16 1 "/*a*/*//*b*//*b".toList = ⟨5,some 2⟩ :=
    Draft.ofCompile (f := fun g => OpenComment.bodyIn g true 16 1 "/*a*/*//*b*//*b".toList)
      compiles (by cbv)
  have closed : g.longest "/*b*//*b".toList = .found opening :=
    Draft.ofCompile (f := fun g => g.longest "/*b*//*b".toList) compiles (by cbv)
  have closedBody : OpenComment.bodyIn g true 7 1 "b*//*b".toList = ⟨1,some 2⟩ :=
    Draft.ofCompile (f := fun g => OpenComment.bodyIn g true 7 1 "b*//*b".toList) compiles (by cbv)
  have cutOff : g.longest "/*b".toList = .found opening :=
    Draft.ofCompile (f := fun g => g.longest "/*b".toList) compiles (by cbv)
  have cutOffBody : OpenComment.bodyIn g true 2 1 "b".toList = ⟨1,none⟩ :=
    Draft.ofCompile (f := fun g => OpenComment.bodyIn g true 2 1 "b".toList) compiles (by cbv)
  have cuts : Cuts g ⟨.withDelimiters,true⟩ [] "/*/*a*/*//*b*//*b".toList [_,_,_] :=
    .more (lexemeOfBlock nested rfl (by decide) nestedBody) (by decide)
      (.more (lexemeOfBlock closed rfl (by decide) closedBody) (by decide)
        (.more (lexemeOfBlock cutOff rfl (by decide) cutOffBody) (by decide) .done))
  rw [readingTranscribed run,cuts.whole,Draft.sampleEnd compiles]
  rfl

end Tokenizer
end Munch
