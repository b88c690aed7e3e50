import Mathlib.Data.List.Count
import Munch.Proofs.JsonGrammar
import Munch.Settings.Declared

/-! What decoders make of objects. What is assumed of a decoder is what is known of any: the
values that stand for what is declared, what it does with one member, and that it takes the
members of an object in their order. Main statement: the members of an object come to what is
given for each of the declared names, whatever else is given; what is given for a name depends
on the members that have it, which are one at most. -/
namespace Munch
open Json

namespace Json

/- The two ways to write a variant that has no content: its name, or an object with the name
as its one key and nothing behind it. -/
def Value.Names (v : Value) (name : String) : Prop :=
  v = .text (some name) ∨ v = .object [(some name,.null)]

end Json

namespace Decoder
variable {α : Type} {d : Declared α}

structure Documented (decoder : Decoder d) : Prop where
  flag : ∀ v value, decoder.value .flag v = .ok value ↔ v = .flag value
  variant : ∀ {β : Type} (all : List β) (name : β → String) v b,
    decoder.value (.variants all name) v = .ok b ↔
      ∃ text, v.Names text ∧ all.find? (fun b => name b = text) = some b
  /-- Nothing is held in front of the first member. -/
  start : ∀ k, decoder.held decoder.start k = none
  /-- A member whose name is not declared is skipped, whatever its value is. -/
  unknown : ∀ s name v, (∀ k, d.name k ≠ name) → decoder.member s (name,v) = .ok s
  /-- A declared name is refused when it is given once more. -/
  repeated : ∀ s k v, decoder.held s k ≠ none →
    ∃ rejection, decoder.member s (d.name k,v) = .error rejection
  unreadable : ∀ s k v rejection, decoder.value (d.shape k) v = .error rejection →
    ∃ rejection, decoder.member s (d.name k,v) = .error rejection
  /-- A value that is read is held for its name, and for no other. -/
  given : ∀ s k v a, decoder.held s k = none → decoder.value (d.shape k) v = .ok a →
    ∃ s', decoder.member s (d.name k,v) = .ok s' ∧ decoder.held s' k = some a ∧
      ∀ j, j ≠ k → decoder.held s' j = decoder.held s j
  present : ∀ s k a, decoder.held s k = some a → decoder.complete s k = a
  absent : ∀ s k, decoder.held s k = none → decoder.complete s k = d.absent k
  /-- An object is read by its members, from the first to the last. -/
  object : ∀ {text : String} {ms : List (String × Value)}, Document text ms → ∀ a,
    decoder.document text = .ok a ↔
      ∃ s, ms.foldlM decoder.member decoder.start = .ok s ∧ a = d.build (decoder.complete s)

end Decoder

/-! What is given for a name. -/

namespace Json
variable {α : Type} {read : Value → Option α} {key : String} {ms : List (String × Value)}

/- A key is given at most once, and its value has to be readable. -/
def once (read : Value → Option α) (key : String) (taken : Option α) (m : String × Value) :
    Option (Option α) :=
  if m.1 = key then if taken.isSome then none else (read m.2).map some else some taken

theorem onceOther {taken : Option α} {m : String × Value} (other : m.1 ≠ key) :
    once read key taken m = some taken := if_neg other

def given? (read : Value → Option α) (key : String) (ms : List (String × Value)) :
    Option (Option α) :=
  match ms.filter (·.1 = key) with
  | [] => some none
  | [m] => (read m.2).map some
  | _ => none

theorem onceFilter (taken : Option α) : ms.foldlM (once read key) taken =
    (ms.filter (·.1 = key)).foldlM (once read key) taken := by
  induction ms generalizing taken with
  | nil => rfl
  | cons m ms ih =>
    by_cases is : m.1 = key
    · rw [List.filter_cons_of_pos (by simpa using is),List.foldlM_cons,List.foldlM_cons]
      exact congrArg _ (funext ih)
    · rw [List.filter_cons_of_neg (by simpa using is),List.foldlM_cons,onceOther is]
      exact ih taken

theorem onceGiven : ms.foldlM (once read key) none = given? read key ms := by
  have keyed : ∀ m ∈ ms.filter (·.1 = key), m.1 = key := fun m member => by
    simpa using (List.mem_filter.mp member).2
  rw [onceFilter,given?]
  generalize ms.filter (·.1 = key) = known at keyed
  match known, keyed with
  | [], _ => rfl
  | [m], keyed =>
    rw [List.foldlM_cons,once,if_pos (keyed m (by simp))]
    dsimp only
    cases read m.2 <;> rfl
  | m::m'::rest, keyed =>
    rw [List.foldlM_cons,once,if_pos (keyed m (by simp))]
    cases read m.2 with
    | none => rfl
    | some a =>
      have again : (m'::rest).foldlM (once read key) (some a) = none := by
        rw [List.foldlM_cons,once,if_pos (keyed m' (by simp))]
        rfl
      exact again

theorem countFilter : (ms.map Prod.fst).count key = (ms.filter (·.1 = key)).length := by
  rw [List.count,List.countP_map,List.countP_eq_length_filter]
  rfl

theorem memberIff (ms : List (String × Value)) {v : Value} :
    (key,v) ∈ ms ↔ (key,v) ∈ ms.filter (·.1 = key) := by
  simp

/- A key that is not repeated is absent or has the one value. -/
theorem givenOnce (read : Value → Option α) (single : (ms.map Prod.fst).count key ≤ 1) :
    (given? read key ms = some none ∧ ∀ v, (key,v) ∉ ms) ∨
    ∃ v, given? read key ms = (read v).map some ∧ ∀ u, (key,u) ∈ ms ↔ u = v := by
  have keyed : ∀ m ∈ ms.filter (·.1 = key), m.1 = key := fun m member => by
    simpa using (List.mem_filter.mp member).2
  rw [countFilter] at single
  simp only [given?,memberIff ms]
  generalize ms.filter (·.1 = key) = known at single keyed
  match known, single with
  | [], _ => exact .inl ⟨rfl,fun _ => List.not_mem_nil⟩
  | [(name,v)], _ =>
    obtain rfl : name = key := keyed _ (List.mem_singleton_self _)
    exact .inr ⟨v,rfl,fun u => by simp⟩

theorem givenRepeated (repeated : 1 < (ms.map Prod.fst).count key) : given? read key ms = none := by
  rw [countFilter] at repeated
  rw [given?]
  generalize ms.filter (·.1 = key) = known at repeated
  match known, repeated with
  | _::_::_, _ => rfl

theorem givenReads {taken : Option α} (given : given? read key ms = some taken) :
    (∀ v, (key,v) ∈ ms → ∃ a, taken = some a ∧ read v = some a) ∧
    ((∀ v, (key,v) ∉ ms) → taken = none) := by
  rcases Nat.lt_or_ge 1 ((ms.map Prod.fst).count key) with repeated | single
  · cases (givenRepeated repeated).symm.trans given
  · rcases givenOnce read single with ⟨none,absent⟩ | ⟨v,reads,sole⟩
    · cases none.symm.trans given
      exact ⟨fun v member => absurd member (absent v),fun _ => rfl⟩
    · obtain ⟨a,read,rfl⟩ := Option.map_eq_some_iff.mp (reads.symm.trans given)
      refine ⟨fun u member => ⟨a,rfl,?_⟩,fun absent => absurd ((sole v).mpr rfl) (absent v)⟩
      rw [(sole u).mp member,read]

theorem givenReadable (read : Value → Option α) (single : (ms.map Prod.fst).count key ≤ 1) :
    (∃ taken, given? read key ms = some taken) ↔ ∀ v, (key,v) ∈ ms → ∃ a, read v = some a := by
  constructor
  · rintro ⟨taken,given⟩ v member
    obtain ⟨a,_,reads⟩ := (givenReads given).1 v member
    exact ⟨a,reads⟩
  · intro readable
    rcases givenOnce read single with ⟨none,_⟩ | ⟨v,reads,sole⟩
    · exact ⟨_,none⟩
    · obtain ⟨a,read⟩ := readable v ((sole v).mpr rfl)
      exact ⟨some a,by rw [reads,read]; rfl⟩

/- What is given for a key depends on the members that have it alone, in any order. -/
theorem givenPerm {ms' : List (String × Value)}
    (perm : (ms'.filter (·.1 = key)).Perm (ms.filter (·.1 = key))) :
    given? read key ms' = given? read key ms := by
  rw [given?,given?]
  generalize ms'.filter (·.1 = key) = l' at perm
  generalize ms.filter (·.1 = key) = l at perm
  match l, l', perm.length_eq with
  | [], [], _ => rfl
  | [m], [m'], _ => rw [List.singleton_perm_singleton.mp perm]
  | _::_::_, _::_::_, _ => rfl

end Json

theorem toOptionIff {ε α : Type} {answer : Except ε α} {a : α} :
    answer.toOption = some a ↔ answer = .ok a := by
  cases answer <;> simp [Except.toOption]

namespace Decoder
variable {α : Type} {d : Declared α} (decoder : Decoder d)

/- A value as it is read for a declared name. -/
def reads (k : d.Key) (v : Value) : Option (d.Val k) := (decoder.value (d.shape k) v).toOption

/- One more member, for one of the declared names. -/
def step (k : d.Key) : Option (d.Val k) → String × Value → Option (Option (d.Val k)) :=
  once (decoder.reads k) (d.name k)

variable {decoder} (documented : decoder.Documented)
include documented

namespace Documented

/- A member is taken for every declared name, or is refused, for one of them. -/
theorem takes (s : decoder.State) (m : String × Value) :
    (∃ s', decoder.member s m = .ok s' ∧
      ∀ k, decoder.step k (decoder.held s k) m = some (decoder.held s' k)) ∨
    (∃ rejection, decoder.member s m = .error rejection) ∧
      ∃ k, decoder.step k (decoder.held s k) m = none := by
  obtain ⟨name,v⟩ := m
  by_cases known : ∃ k, d.name k = name
  · obtain ⟨k,rfl⟩ := known
    cases held : decoder.held s k with
    | some a =>
      have full : decoder.held s k ≠ none := by simp [held]
      exact .inr ⟨documented.repeated s k v full,k,by simp [step,once,held]⟩
    | none =>
      cases read : decoder.value (d.shape k) v with
      | error rejection =>
        exact .inr ⟨documented.unreadable s k v rejection read,k,
          by simp [step,once,held,reads,read,Except.toOption]⟩
      | ok a =>
        obtain ⟨s',taken,holds,others⟩ := documented.given s k v a held read
        refine .inl ⟨s',taken,fun j => ?_⟩
        by_cases same : j = k
        · subst same
          simp [step,once,held,reads,read,Except.toOption,holds]
        · have other : d.name k ≠ d.name j := fun named => same (d.distinct j k named.symm)
          rw [others j same]
          exact onceOther other
  · have other : ∀ k, d.name k ≠ name := not_exists.mp known
    exact .inl ⟨s,documented.unknown s name v other,fun k => onceOther (Ne.symm (other k))⟩

theorem takesAll (s : decoder.State) (ms : List (String × Value)) :
    (∃ s', ms.foldlM decoder.member s = .ok s' ∧
      ∀ k, ms.foldlM (decoder.step k) (decoder.held s k) = some (decoder.held s' k)) ∨
    (∃ rejection, ms.foldlM decoder.member s = .error rejection) ∧
      ∃ k, ms.foldlM (decoder.step k) (decoder.held s k) = none := by
  induction ms generalizing s with
  | nil => exact .inl ⟨s,rfl,fun _ => rfl⟩
  | cons m ms ih =>
    simp only [List.foldlM_cons]
    rcases documented.takes s m with ⟨s',taken,holds⟩ | ⟨⟨rejection,refused⟩,k,none⟩
    · simp only [taken,holds]
      exact ih s'
    · refine .inr ⟨⟨rejection,?_⟩,k,?_⟩
      · rw [refused]
        rfl
      · rw [none]
        rfl

theorem completes (s : decoder.State) (k : d.Key) :
    decoder.complete s k = (decoder.held s k).getD (d.absent k) := by
  cases held : decoder.held s k with
  | none => exact documented.absent s k held
  | some a => exact documented.present s k a held

/- An object is read by what is given for each of the declared names. -/
theorem objectGiven {text : String} {ms : List (String × Value)} (document : Document text ms)
    {a : α} : decoder.document text = .ok a ↔ ∃ given : ∀ k, Option (d.Val k),
      (∀ k, given? (decoder.reads k) (d.name k) ms = some (given k)) ∧
        a = d.build fun k => (given k).getD (d.absent k) := by
  have taken := documented.takesAll decoder.start ms
  simp only [documented.start,step,onceGiven] at taken
  rw [documented.object document]
  rcases taken with ⟨s',run,holds⟩ | ⟨⟨rejection,refused⟩,k,none⟩
  · have complete : decoder.complete s' = fun k => (decoder.held s' k).getD (d.absent k) :=
      funext (documented.completes s')
    constructor
    · rintro ⟨s,run',rfl⟩
      cases run.symm.trans run'
      exact ⟨decoder.held s',holds,congrArg d.build complete⟩
    · rintro ⟨given,givens,rfl⟩
      have same : given = decoder.held s' :=
        funext fun k => Option.some.inj ((givens k).symm.trans (holds k))
      exact ⟨s',run,by rw [same,complete]⟩
  · constructor
    · rintro ⟨s,run,_⟩
      cases refused.symm.trans run
    · rintro ⟨given,givens,_⟩
      cases none.symm.trans (givens k)

end Documented
end Decoder
end Munch
