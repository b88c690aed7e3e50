import Munch.Proofs.Depth
import Munch.Proofs.Stride

/-! How far ahead a call looks. A line comment is read up to the first character behind it,
and the body of a block comment is searched for a match at each place at which it goes on.
Main statement: over a source that does not fail, a call has asked for as many characters
as the farthest of its searches needs, or for those that had been asked for before it, if
they were more. -/
namespace Munch

namespace OpenComment
variable {σ : Type} [CharSource σ]

theorem finishLineSees {h : Head σ} {text : List Char} {count : Nat}
    (sees : h.input.Sees text count) (c : OpenComment) : ∃ h' c', finishLine h c = (.ok (),h',c') ∧
      h'.input.Sees (text.drop (lineLength text))
        (max count (lineLength text+1)-lineLength text) := by
  obtain ⟨i,shown,peeked⟩ := sees.peek
  induction text generalizing h c count i with
  | nil =>
    rw [finishLineEnd shown]
    exact ⟨_,c,rfl,peeked⟩
  | cons ch rest ih =>
    rw [finishLineMore shown]
    cases ends : endsLine ch with
    | true =>
      have none : lineLength (ch::rest) = 0 := by simp [lineLength,ends]
      rw [none]
      exact ⟨_,c,rfl,peeked⟩
    | false =>
      have more : lineLength (ch::rest) = lineLength rest+1 := by simp [lineLength,ends]
      have dropped := peeked.drop (Nat.le_max_right _ _) (Nat.succ_le_succ (Nat.zero_le _))
      obtain ⟨i',shown',peeked'⟩ := dropped.peek
      obtain ⟨h',c',finished,after⟩ := ih (h := Head.consume {h with input := i} 1) dropped
        {c with text := c.text.push ch} i' shown' peeked'
      refine ⟨h',c',finished,?_⟩
      have same : max (max count 1-1) (lineLength rest+1)-lineLength rest =
          max count (lineLength rest+1+1)-(lineLength rest+1) := by omega
      rw [more,List.drop_succ_cons,← same]
      exact after

/- How many characters of its body a block comment asks for. -/
def far (g : Grammar) (nested : Bool) (depth : Nat) (text : List Char) : Nat :=
  match _reaction : Reaction.ofLongest nested depth (g.longest text) with
  | .take length after => max (g.reach text) (length+far g nested after (text.drop length))
  | _ => g.reach text
termination_by text.length
decreasing_by
  obtain ⟨_,positive⟩ := Reaction.ofLongestTake _reaction
  have := Reaction.within rfl _reaction
  simp only [Reaction.length] at this
  rw [List.length_drop]
  omega

theorem Reaction.reached {g : Grammar} {nested : Bool} {depth : Nat} {text : List Char}
    {reaction : Reaction} (reacts : ofLongest nested depth (g.longest text) = reaction) :
    reaction.length ≤ g.reach text := by
  have one : 1 ≤ g.reach text := Nat.succ_le_succ (Nat.zero_le _)
  rw [← reacts]
  cases result : g.longest text with
  | atEnd => exact Nat.zero_le _
  | nothing => exact one
  | found m =>
    have reached := Nat.le_of_lt (Grammar.longestFound.mp result).reached
    simp only [ofLongest]
    repeat' split
    all_goals first | exact reached | exact one

theorem finishBlockSees {g : Grammar} {settings : Settings} {h : Head σ} {c : OpenComment}
    {nested : Bool} {depth : Nat} {text : List Char} {count : Nat}
    (sees : h.input.Sees text count) (sameNested : settings.nestedBlockComments = nested)
    (sameDepth : c.depth = depth) : ∃ ending h' c',
      finishBlock g settings h c = (.ok ending,h',c') ∧
      h'.input.Sees (text.drop (body g nested depth text).span)
        (max count (far g nested depth text)-(body g nested depth text).span) := by
  obtain ⟨i,longest,further⟩ := sees.longest g
  fun_induction body g nested depth text generalizing h c count i with
  | case1 depth text reaction =>
    have asked : far g nested depth text = g.reach text := by rw [far,reaction]
    rw [finishBlockFound longest,sameNested,sameDepth,reaction,asked]
    exact ⟨_,_,_,rfl,further⟩
  | case2 depth text length reaction =>
    have asked : far g nested depth text = g.reach text := by rw [far,reaction]
    have reached : length ≤ g.reach text := Reaction.reached reaction
    have within : length ≤ text.length := Reaction.within rfl reaction
    have span : Body.span ⟨0,some length⟩ = length := Nat.zero_add _
    rw [finishBlockFound longest,sameNested,sameDepth,reaction,asked,span]
    exact ⟨_,_,_,rfl,further.drop (Nat.le_trans reached (Nat.le_max_right _ _)) within⟩
  | case3 depth text length after reaction ih =>
    have asked : far g nested depth text =
        max (g.reach text) (length+far g nested after (text.drop length)) := by rw [far,reaction]
    have reached : length ≤ g.reach text := Reaction.reached reaction
    have within : length ≤ text.length := Reaction.within rfl reaction
    have dropped := further.drop (Nat.le_trans reached (Nat.le_max_right _ _)) within
    obtain ⟨i',longest',further'⟩ := dropped.longest g
    obtain ⟨ending,h',c',finished,sees'⟩ := ih (h := Head.consume {h with input := i} length)
      (c := {c.append (Head.ahead {h with input := i} length) with depth := after}) dropped rfl i'
      longest' further'
    rw [finishBlockFound longest,sameNested,sameDepth,reaction]
    refine ⟨ending,h',c',finished,?_⟩
    rw [asked,Body.spanBehind,← List.drop_drop]
    have same : max (max count (g.reach text)-length) (far g nested after (text.drop length))
          -(body g nested after (text.drop length)).span =
        max count (max (g.reach text) (length+far g nested after (text.drop length)))
          -(length+(body g nested after (text.drop length)).span) := by omega
    rw [← same]
    exact sees'

theorem spanReached (g : Grammar) (nested : Bool) (depth : Nat) (text : List Char) :
    (body g nested depth text).span ≤ far g nested depth text := by
  fun_induction body g nested depth text with
  | case1 => exact Nat.zero_le _
  | case2 depth text length reaction =>
    have reached : length ≤ g.reach text := Reaction.reached reaction
    rw [far,reaction]
    exact Nat.le_trans (Nat.le_of_eq (Nat.zero_add _)) reached
  | case3 depth text length after reaction ih =>
    rw [far,reaction,Body.spanBehind]
    exact Nat.le_trans (Nat.add_le_add_left ih _) (Nat.le_max_right _ _)

/- The places in its body at which a block comment is searched for a match. -/
def Tries (g : Grammar) (nested : Bool) (depth : Nat) (text : List Char) (q : Nat) : Prop :=
  q < text.length ∧ ∃ final, Scans g nested depth text q final

theorem Tries.here {g : Grammar} {nested : Bool} {depth : Nat} {text : List Char}
    (more : text ≠ []) : Tries g nested depth text 0 :=
  ⟨List.length_pos_iff.mpr more,depth,.here depth text⟩

theorem Tries.later {g : Grammar} {nested : Bool} {depth length after q : Nat} {text : List Char}
    (reacts : Reaction.ofLongest nested depth (g.longest text) = .take length after)
    (tries : Tries g nested after (text.drop length) q) : Tries g nested depth text (length+q) := by
  obtain ⟨within,final,scans⟩ := tries
  rw [List.length_drop] at within
  exact ⟨by omega,final,.later reacts scans⟩

/- The farthest search is the one that counts, unless the comment is cut off. -/
theorem farGreatest (g : Grammar) (nested : Bool) (depth : Nat) (text : List Char) :
    IsGreatest {n | (∃ q, Tries g nested depth text q ∧ n = q+g.reach (text.drop q)) ∨
        (body g nested depth text).marker = none ∧ n = text.length+1}
      (far g nested depth text) := by
  fun_induction body g nested depth text with
  | case1 depth text reaction =>
    have none := Reaction.cutOffAtEnd reaction
    subst none
    have asked : far g nested depth [] = 1 := by rw [far,reaction]; rfl
    rw [asked]
    refine ⟨.inr ⟨rfl,rfl⟩,?_⟩
    intro n member
    rcases member with ⟨q,⟨within,_⟩,rfl⟩ | ⟨_,rfl⟩
    · cases within
    · exact Nat.le_refl _
  | case2 depth text length reaction =>
    have asked : far g nested depth text = g.reach text := by rw [far,reaction]
    have more : text ≠ [] := by
      intro empty
      rw [Grammar.longestAtEnd.mpr empty] at reaction
      cases reaction
    rw [asked]
    refine ⟨.inl ⟨0,.here more,(Nat.zero_add _).symm⟩,?_⟩
    intro n member
    rcases member with ⟨q,⟨_,final,scans⟩,rfl⟩ | ⟨cut,_⟩
    · cases scans with
      | here => exact Nat.le_of_eq (Nat.zero_add _)
      | later reacts => rw [reaction] at reacts; cases reacts
    · cases cut
  | case3 depth text length after reaction ih =>
    have asked : far g nested depth text =
        max (g.reach text) (length+far g nested after (text.drop length)) := by rw [far,reaction]
    have within : length ≤ text.length := Reaction.within rfl reaction
    have more : text ≠ [] := by
      intro empty
      rw [Grammar.longestAtEnd.mpr empty] at reaction
      cases reaction
    obtain ⟨attained,bounds⟩ := ih
    rw [asked]
    constructor
    · rcases Nat.le_total (length+far g nested after (text.drop length)) (g.reach text) with
        nearer | farther
      · exact .inl ⟨0,.here more,by rw [Nat.max_eq_left nearer]; exact (Nat.zero_add _).symm⟩
      · rw [Nat.max_eq_right farther]
        rcases attained with ⟨q,tried,far⟩ | ⟨cut,far⟩
        · refine .inl ⟨length+q,.later reaction tried,?_⟩
          rw [far,List.drop_drop,Nat.add_assoc]
        · refine .inr ⟨cut,?_⟩
          rw [far,List.length_drop]
          omega
    · intro n member
      rcases member with ⟨q,⟨inside,final,scans⟩,rfl⟩ | ⟨cut,rfl⟩
      · cases scans with
        | here => exact Nat.le_trans (Nat.le_of_eq (Nat.zero_add _)) (Nat.le_max_left _ _)
        | @later _ _ length' after' q _ reacts rest =>
          cases reaction.symm.trans reacts
          have tries : Tries g nested after (text.drop length) q :=
            ⟨by rw [List.length_drop]; omega,final,rest⟩
          have further := bounds (.inl ⟨q,tries,rfl⟩)
          rw [List.drop_drop] at further
          omega
      · have further := bounds (.inr ⟨cut,rfl⟩)
        rw [List.length_drop] at further
        omega

/- A comment that is cut off has been searched up to the end. -/
theorem cutOffTried {g : Grammar} {nested : Bool} {depth : Nat} {text : List Char}
    (cut : (body g nested depth text).marker = none) (more : text ≠ []) :
    ∃ q, Tries g nested depth text q ∧ text.length ≤ q+g.reach (text.drop q) := by
  fun_induction body g nested depth text with
  | case1 depth text reaction => exact absurd (Reaction.cutOffAtEnd reaction) more
  | case2 => cases cut
  | case3 depth text length after reaction ih =>
    have reached : length ≤ g.reach text := Reaction.reached reaction
    by_cases last : text.drop length = []
    · have short := List.drop_eq_nil_iff.mp last
      exact ⟨0,.here more,by rw [Nat.zero_add]; exact Nat.le_trans short reached⟩
    · obtain ⟨q,tried,far⟩ := ih cut last
      rw [List.drop_drop,List.length_drop] at far
      exact ⟨length+q,.later reaction tried,by omega⟩

end OpenComment

/- How many characters a call asks for at the front of a text. -/
def lookahead (g : Grammar) (settings : Settings) (text : List Char) : Nat :=
  match g.longest text with
  | .found m =>
    let behind := text.drop m.length
    if m.symbol.kind = .commentLineStart then
      max (g.reach text) (m.length+OpenComment.lineLength behind+1)
    else if m.symbol.kind = .commentBlockStart then
      max (g.reach text) (m.length+OpenComment.far g settings.nestedBlockComments 1 behind)
    else g.reach text
  | _ => g.reach text

section
variable {g : Grammar} {settings : Settings} {text : List Char} {x : Lexeme}

theorem lookaheadReached (here : lexeme g settings text = some x) :
    x.length ≤ lookahead g settings text := by
  unfold lexeme at here
  unfold lookahead
  cases found : g.longest text with
  | atEnd => rw [found] at here; cases here
  | nothing => rw [found] at here; cases here; exact Nat.succ_le_succ (Nat.zero_le _)
  | found m =>
    rw [found] at here
    have reached := (Grammar.longestFound.mp found).reached
    have body := OpenComment.spanReached g settings.nestedBlockComments 1 (text.drop m.length)
    dsimp only at here ⊢
    repeat' split at here
    all_goals cases here
    all_goals simp_all only [if_true,if_false,reduceCtorEq]
    all_goals omega

/- How far a token is looked for, and a character that no match begins with. -/
theorem lookaheadPlain (here : lexeme g settings text = some x)
    (plain : x.message = .tokenRead ∨ x.message = .lexicalError) :
    lookahead g settings text = g.reach text := by
  unfold lexeme at here
  unfold lookahead
  cases found : g.longest text with
  | atEnd => rfl
  | nothing => rfl
  | found m =>
    rw [found] at here
    dsimp only at here ⊢
    split at here
    · cases here; rcases plain with is | is <;> cases is
    · split at here
      · cases here; rcases plain with is | is <;> cases is
      · rename_i notLine notBlock
        rw [if_neg notLine,if_neg notBlock]

theorem lookaheadLine (here : lexeme g settings text = some x)
    (isLine : x.message = .commentLineRead) :
    lookahead g settings text = max (g.reach text) (x.length+1) := by
  unfold lexeme at here
  unfold lookahead
  cases found : g.longest text with
  | atEnd => rw [found] at here; cases here
  | nothing => rw [found] at here; cases here; cases isLine
  | found m =>
    rw [found] at here
    dsimp only at here ⊢
    split at here
    · rename_i is
      cases here
      rw [if_pos is]
    · split at here <;> cases here <;> cases isLine

/- The places at which a block comment is searched for a match: its front, and those in its
body behind the marker that opens it. -/
def Grammar.Searched (g : Grammar) (nested : Bool) (text : List Char) (opening q : Nat) : Prop :=
  q = 0 ∨ ∃ r depth, q = opening+r ∧ opening+r < text.length ∧
    g.Inside (text.drop opening) nested r depth

theorem Grammar.searchedIff {nested : Bool} {opening q : Nat} :
    g.Searched nested text opening q ↔
      q = 0 ∨ ∃ r, q = opening+r ∧ OpenComment.Tries g nested 1 (text.drop opening) r := by
  have within (r : Nat) : opening+r < text.length ↔ r < (text.drop opening).length := by
    rw [List.length_drop]
    omega
  simp only [Searched,OpenComment.Tries,OpenComment.scansIff,within,exists_and_left]

theorem Grammar.Searched.within {nested : Bool} {opening q : Nat}
    (searched : g.Searched nested text opening q) : q ≤ text.length := by
  rcases searched with rfl | ⟨r,depth,rfl,within,_⟩
  · exact Nat.zero_le _
  · exact Nat.le_of_lt within

/- Where nothing is between the markers, the search for the second one is the last. -/
theorem Grammar.Searched.closed {opening q : Nat} (searched : g.Searched false text opening q)
    (closes : g.Closes (text.drop opening)) : q = 0 ∨ q = opening := by
  rcases searched with none | ⟨r,depth,rfl,_,inside⟩
  · exact .inl none
  · cases inside with
    | plain within goes =>
      cases r with
      | zero => exact .inr rfl
      | succ r => exact absurd closes (goes 0 (Nat.succ_pos r))

theorem lookaheadBlock (here : lexeme g settings text = some x)
    (isBlock : x.message = .commentBlockRead) : ∃ opening count, x.length = opening+count ∧
      g.BlockComment settings.nestedBlockComments text x.symbol (!x.cutOff) opening count ∧
      IsGreatest {n | (∃ q, g.Searched settings.nestedBlockComments text opening q ∧
          n = q+g.reach (text.drop q)) ∨ x.cutOff = true ∧ n = text.length+1}
        (lookahead g settings text) ∧
      (x.cutOff = true → ∃ q, g.Searched settings.nestedBlockComments text opening q ∧
        text.length ≤ q+g.reach (text.drop q)) := by
  obtain ⟨m,found,symbol,kind,length,cut⟩ := lexemeBlock here isBlock
  rw [← symbol] at kind ⊢
  rw [cut,Option.not_isNone]
  refine ⟨m.length,_,length,OpenComment.bodyComment _ found kind,?_,fun cut => ?_⟩
  case refine_2 =>
    have reached := (Grammar.longestFound.mp found).reached
    by_cases last : text.drop m.length = []
    · have short := List.drop_eq_nil_iff.mp last
      exact ⟨0,.inl rfl,by rw [Nat.zero_add,List.drop_zero]; omega⟩
    · obtain ⟨q,tried,far⟩ := OpenComment.cutOffTried (Option.isNone_iff_eq_none.mp cut) last
      rw [List.drop_drop,List.length_drop] at far
      exact ⟨m.length+q,Grammar.searchedIff.mpr (.inr ⟨q,rfl,tried⟩),by omega⟩
  have asked : lookahead g settings text = max (g.reach text)
      (m.length+OpenComment.far g settings.nestedBlockComments 1 (text.drop m.length)) := by
    simp [lookahead,found,kind]
  obtain ⟨attained,bounds⟩ :=
    OpenComment.farGreatest g settings.nestedBlockComments 1 (text.drop m.length)
  have within := Grammar.longestWithin found
  rw [asked]
  constructor
  · rcases Nat.le_total (m.length+OpenComment.far g settings.nestedBlockComments 1
      (text.drop m.length)) (g.reach text) with nearer | farther
    · rw [Nat.max_eq_left nearer]
      exact .inl ⟨0,.inl rfl,(Nat.zero_add _).symm⟩
    · rw [Nat.max_eq_right farther]
      rcases attained with ⟨q,tried,far⟩ | ⟨none,far⟩
      · refine .inl ⟨m.length+q,Grammar.searchedIff.mpr (.inr ⟨q,rfl,tried⟩),?_⟩
        rw [far,List.drop_drop,Nat.add_assoc]
      · refine .inr ⟨by rw [none]; rfl,?_⟩
        rw [far,List.length_drop]
        omega
  · intro n member
    simp only [Grammar.searchedIff] at member
    rcases member with ⟨q,rfl | ⟨r,rfl,tried⟩,rfl⟩ | ⟨none,rfl⟩
    · exact Nat.le_trans (Nat.le_of_eq (Nat.zero_add _)) (Nat.le_max_left _ _)
    · have further := bounds (.inl ⟨r,tried,rfl⟩)
      rw [List.drop_drop] at further
      omega
    · have further := bounds (.inr ⟨Option.isNone_iff_eq_none.mp none,rfl⟩)
      rw [List.length_drop] at further
      omega

end

namespace Tokenizer
variable {σ : Type} [CharSource σ]

theorem finishLineHead {t : Tokenizer σ} {c : OpenComment} {text : List Char} {count : Nat}
    (sees : t.head.input.Sees text count) (isLine : c.symbol.kind = .commentLineStart) :
    (t.finishComment c).tokenizer.head.input.Sees (text.drop (OpenComment.lineLength text))
      (max count (OpenComment.lineLength text+1)-OpenComment.lineLength text) := by
  obtain ⟨h,c',finished,after⟩ := OpenComment.finishLineSees sees c
  rw [finishCommentLine isLine,finished]
  exact after

theorem finishBlockHead {t : Tokenizer σ} {c : OpenComment} {text : List Char} {count : Nat}
    (sees : t.head.input.Sees text count) (isBlock : c.symbol.kind ≠ .commentLineStart)
    (depth : c.depth = 1) :
    let body := OpenComment.body t.grammar t.settings.nestedBlockComments 1 text
    let far := OpenComment.far t.grammar t.settings.nestedBlockComments 1 text
    (t.finishComment c).tokenizer.head.input.Sees (text.drop body.span)
      (max count far-body.span) := by
  obtain ⟨ending,h,c',finished,after⟩ :=
    OpenComment.finishBlockSees (g := t.grammar) sees (Eq.refl t.settings.nestedBlockComments) depth
  rw [finishCommentBlock isBlock,finished]
  exact after

theorem nextSees {t : Tokenizer σ} {text : List Char} {count : Nat} {x : Lexeme}
    (sees : t.head.input.Sees text count) (closed : t.openComment = none)
    (live : t.exhausted = false) (here : lexeme t.grammar t.settings text = some x) :
    t.next.tokenizer.head.input.Sees (text.drop x.length)
      (max count (lookahead t.grammar t.settings text)-x.length) := by
  obtain ⟨i,longest,further⟩ := sees.longest t.grammar
  rw [nextScanning closed live longest]
  dsimp only
  unfold lexeme at here
  unfold lookahead
  cases found : t.grammar.longest text with
  | atEnd => rw [found] at here; cases here
  | nothing =>
    rw [found] at here
    cases here
    have more := List.length_pos_iff.mpr (Grammar.longestNothing.mp found).1
    exact further.drop (Nat.le_trans (Nat.succ_le_succ (Nat.zero_le _)) (Nat.le_max_right _ _)) more
  | found m =>
    rw [found] at here
    have within := Grammar.longestWithin found
    have reached := (Grammar.longestFound.mp found).reached
    have opened := further.drop (n := m.length) (by omega) within
    dsimp only [accept] at here ⊢
    by_cases isLine : m.symbol.kind = .commentLineStart
    · rw [if_pos isLine] at here ⊢
      cases here
      rw [if_pos (.inl isLine),← List.drop_drop]
      have same (n : Nat) : max (max count (t.grammar.reach text)-m.length) (n+1)-n =
          max count (max (t.grammar.reach text) (m.length+n+1))-(m.length+n) := by omega
      rw [← same]
      exact finishLineHead opened isLine
    · rw [if_neg isLine] at here ⊢
      by_cases isBlock : m.symbol.kind = .commentBlockStart
      · rw [if_pos isBlock] at here ⊢
        cases here
        rw [if_pos (.inr isBlock),← List.drop_drop]
        have same (n far : Nat) : max (max count (t.grammar.reach text)-m.length) far-n =
            max count (max (t.grammar.reach text) (m.length+far))-(m.length+n) := by omega
        rw [← same]
        exact finishBlockHead opened isLine rfl
      · rw [if_neg isBlock] at here ⊢
        cases here
        rw [if_neg (not_or.mpr ⟨isLine,isBlock⟩)]
        exact opened

end Tokenizer
end Munch
