import Munch.Proofs.BlockComment

/-! How deep in a block comment a place of its body is. It is inside the comment as long as
no marker has closed it, and where comments nest its depth is one more than the number of
comments that have been opened in the body and not closed. Main statement: a scan of the
body comes through a place with a depth exactly when the place is inside with that depth. -/
namespace Munch

namespace Grammar

/- Behind so many characters of its body a block comment is open, with a number of markers
that must close it. -/
inductive Inside (g : Grammar) (body : List Char) : Bool → Nat → Nat → Prop where
  | plain {q} (within : q ≤ body.length) (goes : ∀ r, r < q → ¬ g.Closes (body.drop r)) :
      Inside g body false q 1
  | nested {items q depth} (decomposes : g.Decomposes body items q)
      (goes : ∀ k, Item.ends (items.take k) ≤ Item.starts (items.take k))
      (balance : Item.ends items+depth = Item.starts items+1) : Inside g body true q depth

end Grammar

namespace OpenComment

/- A scan that has taken so many characters of a text, and the depths before and after. -/
inductive Scans (g : Grammar) (nested : Bool) : Nat → List Char → Nat → Nat → Prop where
  | here (depth text) : Scans g nested depth text 0 depth
  | later {depth text length after q final}
      (reacts : Reaction.ofLongest nested depth (g.longest text) = .take length after)
      (rest : Scans g nested after (text.drop length) q final) :
      Scans g nested depth text (length+q) final

theorem Scans.within {g : Grammar} {nested : Bool} {depth q final : Nat} {text : List Char}
    (scans : Scans g nested depth text q final) : q ≤ text.length := by
  induction scans with
  | here => exact Nat.zero_le _
  | @later depth text length after q final reacts rest ih =>
    have within : length ≤ text.length := Reaction.within rfl reacts
    rw [List.length_drop] at ih
    omega

theorem Scans.trans {g : Grammar} {nested : Bool} {depth q middle r final : Nat} {text : List Char}
    (scans : Scans g nested depth text q middle)
    (further : Scans g nested middle (text.drop q) r final) :
    Scans g nested depth text (q+r) final := by
  induction scans with
  | here => rwa [Nat.zero_add]
  | later reacts rest ih =>
    rw [Nat.add_assoc]
    rw [← List.drop_drop] at further
    exact .later reacts (ih further)

theorem scansPlain {g : Grammar} {q final : Nat} {text : List Char} :
    Scans g false 1 text q final ↔
      final = 1 ∧ q ≤ text.length ∧ ∀ r, r < q → ¬ g.Closes (text.drop r) := by
  constructor
  · intro scans
    refine and_left_comm.mp ⟨scans.within,?_⟩
    obtain ⟨depth,one⟩ : ∃ depth, depth = 1 := ⟨1,rfl⟩
    rw [← one] at scans
    induction scans with
    | here => exact ⟨one,fun r before => absurd before (Nat.not_lt_zero r)⟩
    | later reacts rest ih =>
      subst one
      obtain ⟨rfl,rfl,_,goes⟩ := Reaction.passes reacts
      obtain ⟨same,further⟩ := ih rfl
      refine ⟨same,fun r before => ?_⟩
      cases r with
      | zero => exact goes
      | succ r =>
        have behind := further r (by omega)
        rw [List.drop_drop,Nat.add_comm] at behind
        exact behind
  · rintro ⟨rfl,within,goes⟩
    induction q generalizing text with
    | zero => exact .here 1 text
    | succ q ih =>
      cases reaction : Reaction.ofLongest false 1 (g.longest text) with
      | cutOff =>
        rw [Reaction.cutOffAtEnd reaction] at within
        cases within
      | close length =>
        obtain ⟨_,y,leading,kind⟩ := Reaction.closes reaction
        exact absurd ⟨length,y,leading,kind⟩ (goes 0 (Nat.succ_pos q))
      | take length after =>
        obtain ⟨rfl,rfl,_,_⟩ := Reaction.passes reaction
        rw [Nat.add_comm]
        refine .later reaction (ih ?_ fun r before => ?_)
        · rw [List.length_drop]
          omega
        · rw [List.drop_drop,Nat.add_comm]
          exact goes (r+1) (by omega)

/- The counts are shifted by the depth before, so that they can be taken from any item on. -/
theorem scansNested {g : Grammar} {depth q final : Nat} {text : List Char} (positive : 0 < depth) :
    Scans g true depth text q final ↔ ∃ items, g.Decomposes text items q ∧
      (∀ k, Item.ends (items.take k) < Item.starts (items.take k)+depth) ∧
      Item.ends items+final = Item.starts items+depth := by
  constructor
  · intro scans
    induction scans with
    | here depth text =>
      refine ⟨[],.nil _,fun k => ?_,rfl⟩
      rw [List.take_nil]
      exact Nat.lt_add_left 0 positive
    | later reacts rest ih =>
      obtain ⟨item,shows,rfl,left,balance⟩ := Reaction.shows positive reacts
      obtain ⟨items,decomposes,goes,whole⟩ := ih left
      refine ⟨item::items,.cons shows decomposes,fun k => ?_,?_⟩
      · cases k with
        | zero => exact Nat.lt_add_left 0 positive
        | succ k =>
          have tail := goes k
          rw [List.take_succ_cons,Item.startsCons,Item.endsCons]
          omega
      · rw [Item.startsCons,Item.endsCons]
        omega
  · rintro ⟨items,decomposes,goes,whole⟩
    induction decomposes generalizing depth with
    | nil text =>
      cases (Nat.zero_add _).symm.trans (whole.trans (Nat.zero_add _))
      exact .here _ text
    | @cons text item items count shows rest ih =>
      have first := goes 1
      rw [List.take_succ_cons,List.take_zero] at first
      rw [Item.startsCons,Item.endsCons] at whole
      cases reaction : Reaction.ofLongest true depth (g.longest text) with
      | cutOff => exact absurd (Reaction.cutOffAtEnd reaction) shows.more
      | close length =>
        obtain ⟨last,y,leading,kind⟩ := Reaction.closes reaction
        have closing := shows.unique (.closing leading kind)
        subst closing
        change 1 < 0+depth at first
        omega
      | take length after =>
        obtain ⟨item',shows',rfl,left,balance⟩ := Reaction.shows positive reaction
        have same := shows.unique shows'
        subst same
        refine .later reaction (ih left (fun k => ?_) (by omega))
        have further := goes (k+1)
        rw [List.take_succ_cons,Item.startsCons,Item.endsCons] at further
        omega

theorem scansIff {g : Grammar} {nested : Bool} {q depth : Nat} {text : List Char} :
    Scans g nested 1 text q depth ↔ g.Inside text nested q depth := by
  cases nested with
  | false =>
    rw [scansPlain]
    constructor
    · rintro ⟨rfl,within,goes⟩
      exact .plain within goes
    · intro inside
      cases inside with
      | plain within goes => exact ⟨rfl,within,goes⟩
  | true =>
    rw [scansNested Nat.one_pos]
    constructor
    · rintro ⟨items,decomposes,goes,balance⟩
      exact .nested decomposes (fun k => Nat.le_of_lt_succ (goes k)) balance
    · intro inside
      cases inside with
      | nested decomposes goes balance =>
        exact ⟨_,decomposes,fun k => Nat.lt_succ_of_le (goes k),balance⟩

end OpenComment
end Munch
