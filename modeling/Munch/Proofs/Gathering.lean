import Munch.Proofs.Appended
import Munch.Proofs.Depth
import Munch.Proofs.Places

/-! What an operation gathers that does not come to the end of the input. It reads some
characters, the failure that it answers with, if any, after all of them, and it consumes
the first of what had been read ahead and what it reads. Main statement: a comment that a
failure interrupts has taken exactly the characters that have been consumed, and is as deep
as a scan of its body that has come as far, whatever will follow. -/
namespace Munch
variable {σ : Type} {α : Type}

/- Characters, and the failure that a result reports behind them. -/
def Delivery.upTo (chars : List Char) : Except ReadError α → Delivery
  | .ok _ => chars.map .ok
  | .error e => chars.map .ok ++ [.error e]

theorem Delivery.upToMore {a : α} {β : Type} (chars more : List Char)
    (result : Except ReadError β) :
    upTo chars (.ok a : Except ReadError α) ++ upTo more result = upTo (chars ++ more) result := by
  cases result with
  | ok b => exact List.map_append.symm
  | error e => simp only [upTo,List.map_append,List.append_assoc]

variable [CharSource σ]

namespace Head

/- Characters that have been read, and those that have been consumed. -/
structure Gathers (h : Head σ) (result : Except ReadError α) (chars run : List Char)
    (h' : Head σ) : Prop where
  reads : Reads h.input.source (Delivery.upTo chars result) h'.input.source
  kept : h.input.pending ++ chars = run ++ h'.input.pending
  cursor : h'.cursor = h.cursor.advanceAll run

namespace Gathers
variable {h h' h'' : Head σ} {chars run : List Char}

theorem refl (h : Head σ) (a : α) : h.Gathers (.ok a : Except ReadError α) [] [] h :=
  ⟨.start _,List.append_nil _,rfl⟩

theorem trans {β : Type} {a : α} {result : Except ReadError β} {more taken : List Char}
    (first : h.Gathers (.ok a : Except ReadError α) chars run h')
    (next : h'.Gathers result more taken h'') :
    h.Gathers result (chars ++ more) (run ++ taken) h'' where
  reads := Delivery.upToMore (α := α) (a := a) chars more result ▸ first.reads.trans next.reads
  kept := by rw [← List.append_assoc,first.kept,List.append_assoc,next.kept,List.append_assoc]
  cursor := by rw [next.cursor,first.cursor,Cursor.advanceAllAppend]

/- The text that begins with what is read ahead. -/
theorem behind {result : Except ReadError α} (gathers : h.Gathers result chars run h')
    (rest : List Char) :
    run ++ (h'.input.pending ++ rest) = h.input.pending ++ (chars ++ rest) := by
  rw [← List.append_assoc,← gathers.kept,List.append_assoc]

theorem failing {β : Type} {e : ReadError}
    (gathers : h.Gathers (.error e : Except ReadError α) chars run h') :
    h.Gathers (.error e : Except ReadError β) chars run h' :=
  ⟨gathers.reads,gathers.kept,gathers.cursor⟩

theorem consume {a : α} (gathers : h.Gathers (.ok a : Except ReadError α) chars [] h')
    (count : Nat) :
    h.Gathers (.ok a : Except ReadError α) chars (h'.ahead count) (h'.consume count) where
  reads := gathers.reads
  kept := gathers.kept.trans (List.take_append_drop count _).symm
  cursor := by
    rw [Head.consume,gathers.cursor]
    rfl

theorem peek {answer : Answer} {input : Input σ} (shown : h.input.peek = (answer,input))
    (live : input.ended = false) : ∃ chars, h.Gathers answer chars [] {h with input} := by
  obtain ⟨⟨source,pending,ended⟩,cursor⟩ := h
  cases pending with
  | cons ch rest =>
    cases shown
    exact ⟨[],.refl _ _⟩
  | nil =>
    cases ended with
    | true =>
      cases shown
      cases live
    | false =>
      cases read : CharSource.read source with
      | mk given source' =>
        simp only [Input.peek,read] at shown
        cases given with
        | error e =>
          cases shown
          exact ⟨[],.failure read (.start _),rfl,rfl⟩
        | ok ch =>
          cases ch with
          | none =>
            cases shown
            cases live
          | some ch =>
            cases shown
            exact ⟨[ch],.character read (.start _),rfl,rfl⟩

theorem readOn {g : Grammar} {w : Walk} {source : σ} {taken : List Char} (cursor : Cursor)
    (live : (Input.readOn g w source taken).2.ended = false) :
    ∃ chars, Gathers ⟨⟨source,taken.reverse,false⟩,cursor⟩ (Input.readOn g w source taken).1
      chars []
      ⟨(Input.readOn g w source taken).2,cursor⟩ := by
  fun_induction Input.readOn g w source taken with
  | case1 => exact ⟨[],.refl _ _⟩
  | case2 w source taken going ch source' read ih =>
    obtain ⟨chars,gathers⟩ := ih live
    have first : Gathers (⟨⟨source,taken.reverse,false⟩,cursor⟩ : Head σ)
        (.ok () : Except ReadError Unit) [ch] [] ⟨⟨source',(ch::taken).reverse,false⟩,cursor⟩ :=
      ⟨.character read (.start _),List.reverse_cons.symm,rfl⟩
    exact ⟨ch::chars,first.trans gathers⟩
  | case3 => cases live
  | case4 w source taken going e source' read =>
    exact ⟨[],.failure read (.start _),List.append_nil _,rfl⟩

theorem walk {g : Grammar} (live : (h.input.walk g).2.ended = false) :
    ∃ chars, h.Gathers (h.input.walk g).1 chars [] {h with input := (h.input.walk g).2} := by
  unfold Input.walk at live ⊢
  dsimp only at live ⊢
  split at live
  · rename_i enough
    rw [if_pos enough]
    exact ⟨[],.refl _ _⟩
  · rename_i short
    rw [if_neg short]
    have going : h.input.ended = false := by simp_all
    obtain ⟨chars,gathers⟩ := readOn h.cursor live
    rw [List.reverse_reverse,← going] at gathers
    exact ⟨chars,gathers⟩

theorem longest {g : Grammar} {answer : Except ReadError Longest} {input : Input σ}
    (found : h.input.longest g = (answer,input)) (live : input.ended = false) :
    ∃ chars, h.Gathers answer chars [] {h with input} := by
  unfold Input.longest at found
  have gathers := walk (h := h) (g := g)
  generalize h.input.walk g = walk at found gathers
  obtain ⟨result,i⟩ := walk
  cases result with
  | ok w =>
    cases found
    obtain ⟨chars,reads,kept,cursor⟩ := gathers live
    exact ⟨chars,reads,kept,cursor⟩
  | error e =>
    cases found
    obtain ⟨chars,reads,kept,cursor⟩ := gathers live
    exact ⟨chars,reads,kept,cursor⟩

end Gathers
end Head

namespace Input

theorem peekFailing {i input : Input σ} {e : ReadError} (shown : i.peek = (.error e,input)) :
    input.ended = false := by
  unfold peek at shown
  repeat' split at shown
  all_goals cases shown
  rfl

theorem readOnFailing {g : Grammar} {w : Walk} {source : σ} {taken : List Char} {e : ReadError}
    (failed : (readOn g w source taken).1 = .error e) :
    (readOn g w source taken).2.ended = false := by
  fun_induction readOn g w source taken with
  | case1 => cases failed
  | case2 w source taken going ch source' read ih => exact ih failed
  | case3 => cases failed
  | case4 => rfl

theorem walkFailing {g : Grammar} {i : Input σ} {e : ReadError}
    (failed : (i.walk g).1 = .error e) : (i.walk g).2.ended = false := by
  unfold walk at failed ⊢
  dsimp only at failed ⊢
  split at failed
  · cases failed
  · rename_i short
    rw [if_neg short]
    exact readOnFailing failed

theorem longestFailing {g : Grammar} {i input : Input σ} {e : ReadError}
    (failed : i.longest g = (.error e,input)) : input.ended = false := by
  unfold longest at failed
  have live := walkFailing (g := g) (i := i) (e := e)
  generalize i.walk g = walk at failed live
  obtain ⟨result,i'⟩ := walk
  cases result with
  | ok w => cases failed
  | error e =>
    cases failed
    exact live rfl

/- Whatever follows, what is found before the end is found. -/
theorem longestStable {g : Grammar} {i input : Input σ} {found : Longest}
    (longest : i.longest g = (.ok found,input)) (live : input.ended = false) (rest : List Char) :
    g.longest (input.pending ++ rest) = found := by
  have here := longestHere longest
  unfold Input.longest at longest
  have walked (w : Walk) := walkWalked (g := g) (i := i) (w := w)
  generalize i.walk g = walk at longest walked
  obtain ⟨result,i'⟩ := walk
  cases result with
  | error e => cases longest
  | ok w =>
    cases longest
    obtain ⟨same,stuck | ended⟩ := walked w rfl
    · rw [same] at stuck
      rw [Grammar.longestStuck stuck]
      exact here.symm
    · rw [live] at ended
      cases ended

end Input

namespace OpenComment

theorem finishLineFailing {h h' : Head σ} {c c' : OpenComment} {e : ReadError}
    (finished : finishLine h c = (.error e,h',c')) : h.input.ended = false ∧
      ∃ chars run, h.Gathers (.error e : Except ReadError Unit) chars run h' ∧ c' = c.append run ∧
        ∀ ch ∈ run, endsLine ch = false := by
  fun_induction finishLine h c with
  | case1 h c e' input shown =>
    cases finished
    have live := Input.peekFailing shown
    obtain ⟨chars,gathers⟩ := Head.Gathers.peek shown live
    exact ⟨Head.movesLive (.ofPeek shown) live,chars,[],gathers.failing,(appendNil _).symm,
      List.forall_mem_nil _⟩
  | case2 => cases finished
  | case3 => cases finished
  | case4 h c ch input shown inside h₁ =>
    rename_i ih
    obtain ⟨live,chars,run,gathers,same,line⟩ := ih finished
    obtain ⟨first,gathers'⟩ := Head.Gathers.peek (h := h) shown live
    obtain ⟨rest,pending⟩ := Input.peekPending shown
    have one : Head.ahead h₁ 1 = [ch] := by simp [h₁,Head.ahead,pending]
    have both := (gathers'.consume 1).trans gathers
    rw [show Head.ahead {h with input} 1 = [ch] from one] at both
    have pushed : {c with text := c.text.push ch} = c.append [ch] := by
      rw [append,String.push_eq_append,String.singleton_eq_ofList]
    refine ⟨Head.movesLive (.ofPeek shown) live,_,_,both,?_,
      List.forall_mem_cons.mpr ⟨Bool.eq_false_iff.mpr inside,line⟩⟩
    rw [same,pushed,appendAppend]

theorem finishBlockFailing {g : Grammar} {settings : Settings} {h h' : Head σ} {c c' : OpenComment}
    {e : ReadError} (finished : finishBlock g settings h c = (.error e,h',c')) :
    h.input.ended = false ∧ ∃ chars run, h.Gathers (.error e : Except ReadError Unit) chars run h' ∧
      c' = {c.append run with depth := c'.depth} ∧ ∀ rest, Scans g settings.nestedBlockComments
        c.depth (run ++ (h'.input.pending ++ rest)) run.length c'.depth := by
  fun_induction finishBlock g settings h c with
  | case1 h c e' input longest =>
    cases finished
    have live := Input.longestFailing longest
    obtain ⟨chars,gathers⟩ := Head.Gathers.longest longest live
    exact ⟨Head.movesLive (.ofLongest longest) live,chars,[],gathers.failing,by rw [appendNil],
      fun rest => .here _ _⟩
  | case2 h c found input longest h₁ reaction => cases finished
  | case3 h c found input longest h₁ length reaction => cases finished
  | case4 h c found input longest h₁ length after reaction ih =>
    obtain ⟨live,chars,run,gathers,same,scans⟩ := ih finished
    obtain ⟨first,gathers'⟩ := Head.Gathers.longest (h := h) longest live
    refine ⟨Head.movesLive (.ofLongest longest) live,_,_,
      (gathers'.consume length).trans gathers,same.trans ?_,fun rest => ?_⟩
    · simp [append,String.ofList_append,String.append_assoc,h₁]
    · have within : length ≤ input.pending.length :=
        Reaction.within (Input.longestHere longest) reaction
      have size : (Head.ahead h₁ length).length = length := List.length_take_of_le within
      have whole := (((Head.Gathers.refl h₁ ()).consume length).trans gathers).behind rest
      rw [whole,List.length_append,size]
      refine .later ((congrArg _ (Input.longestStable longest live _)).trans reaction) ?_
      have behind := scans rest
      rw [gathers.behind] at behind
      rwa [List.drop_append_of_le_length within]

end OpenComment
end Munch
