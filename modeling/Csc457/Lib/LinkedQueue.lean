import Mathlib.Data.Fintype.Card
import Mathlib.Data.List.Basic
import Mathlib.Logic.Function.Basic
import Mathlib.Logic.Relation

/-!
# Chains of pointers

`Chain next head l`: from `head` the pointers lead over the nodes of `l`, in that order, to
an end.  Such a chain repeats no node.  Queues that are linked through their members are
chains, and so is the sequence of those a blocked process waits for; it is the same lemmas
that say how a queue is changed and that no process comes to wait for itself.
-/

set_option autoImplicit false

namespace Csc457.Lib.LinkedQueue

open Function

variable {ι : Type} {next : ι → Option ι} {head : Option ι} {l : List ι}

inductive Chain (next : ι → Option ι) : Option ι → List ι → Prop where
  | nil : Chain next none []
  | cons {a : ι} {rest : List ι} (tail : Chain next (next a) rest) :
      Chain next (some a) (a :: rest)

theorem Chain.unique {l' : List ι} (chain : Chain next head l) (chain' : Chain next head l') :
    l = l' := by
  induction chain generalizing l' with
  | nil =>
      cases chain'
      rfl
  | @cons a rest _ ih =>
      cases chain' with
      | cons tail' => rw [ih tail']

theorem Chain.head_eq (chain : Chain next head l) : head = l.head? := by
  cases chain <;> rfl

theorem Chain.suffix {A B : List ι} {a : ι} (chain : Chain next head (A ++ a :: B)) :
    Chain next (some a) (a :: B) := by
  induction A generalizing head with
  | nil =>
      rw [chain.head_eq] at chain
      exact chain
  | cons x A ih =>
      cases chain with
      | cons tail => exact ih tail

theorem Chain.after {A B : List ι} {a : ι} (chain : Chain next head (A ++ a :: B)) :
    Chain next (next a) B := by
  cases chain.suffix with
  | cons tail => exact tail

theorem Chain.nodup (chain : Chain next head l) : l.Nodup := by
  induction chain with
  | nil => exact List.nodup_nil
  | @cons a rest tail ih =>
      refine List.nodup_cons.mpr ⟨fun again => ?_, ih⟩
      obtain ⟨A, B, rfl⟩ := List.append_of_mem again
      have same := tail.suffix.unique (.cons tail)
      have lengths := congrArg List.length same
      simp only [List.length_cons, List.length_append] at lengths
      omega

theorem Chain.length_le [Fintype ι] (chain : Chain next head l) : l.length ≤ Fintype.card ι :=
  chain.nodup.length_le_card

theorem Chain.congr {next' : ι → Option ι} (chain : Chain next head l)
    (same : ∀ a ∈ l, next' a = next a) : Chain next' head l := by
  induction chain with
  | nil => exact .nil
  | @cons a rest _ ih =>
      have here := same a List.mem_cons_self
      refine .cons (here ▸ ih fun b member => same b (List.mem_cons_of_mem a member))

theorem Chain.last_next {A : List ι} {a : ι} (chain : Chain next head (A ++ [a])) :
    next a = none := by
  have after := chain.after
  cases h : next a with
  | none => rfl
  | some b =>
      rw [h] at after
      cases after

section Changes
variable [DecidableEq ι]

theorem Chain.update_other {x : ι} {v : Option ι} (chain : Chain next head l) (other : x ∉ l) :
    Chain (update next x v) head l :=
  chain.congr fun _ member => update_of_ne (ne_of_mem_of_not_mem member other) ..

theorem Chain.push {x : ι} (chain : Chain next head l) (other : x ∉ l) :
    Chain (update next x head) (some x) (x :: l) := by
  refine .cons ?_
  rw [update_self]
  exact chain.update_other other

theorem Chain.splice {A B C : List ι} {a : ι} {tail : Option ι}
    (chain : Chain next head (A ++ a :: B)) (chain' : Chain next tail C) (other : a ∉ C) :
    Chain (update next a tail) head (A ++ a :: C) := by
  induction A generalizing head with
  | nil =>
      rw [chain.head_eq]
      refine .cons ?_
      rw [update_self]
      exact chain'.update_other other
  | cons x A ih =>
      have differ : x ≠ a := by
        rintro rfl
        have nodup := chain.nodup
        simp at nodup
      cases chain with
      | cons rest =>
          refine .cons ?_
          rw [update_of_ne differ]
          exact ih rest

theorem Chain.append {A : List ι} {a x : ι} (chain : Chain next head (A ++ [a]))
    (differ : x ≠ a) (null : next x = none) :
    Chain (update next a (some x)) head (A ++ [a, x]) := by
  have single : Chain next (some x) [x] := .cons (null ▸ .nil)
  exact chain.splice single (by simpa using differ.symm)

theorem Chain.unlink {A B : List ι} {a x : ι} (chain : Chain next head (A ++ a :: x :: B)) :
    Chain (update next a (next x)) head (A ++ a :: B) := by
  have rest : Chain next (next x) B :=
    Chain.after (A := A ++ [a]) (by simpa using chain)
  refine chain.splice rest fun member => ?_
  have nodup := chain.nodup
  simp [List.nodup_append, member] at nodup

/-- A node is given another successor, whose own chain does not lead back to it: every
chain still comes to an end. -/
theorem ends_update (ends : ∀ a, ∃ l, Chain next (some a) l) {a : ι} {tail : Option ι}
    {C : List ι} (chain : Chain next tail C) (other : a ∉ C) (b : ι) :
    ∃ l, Chain (update next a tail) (some b) l := by
  obtain ⟨l, chain'⟩ := ends b
  by_cases member : a ∈ l
  · obtain ⟨A, B, rfl⟩ := List.append_of_mem member
    exact ⟨_, chain'.splice chain other⟩
  · exact ⟨l, chain'.update_other member⟩

/-! ## Pointers to pointers

`store next head prev v` is the queue after `*xpp = v`, where xpp points to the link of
`prev`, or to the head. -/

def store (next : ι → Option ι) (head prev v : Option ι) : (ι → Option ι) × Option ι :=
  match prev with
  | none => (next, v)
  | some x => (update next x v, head)

theorem store_next_of_ne {prev v : Option ι} {a : ι} (other : prev ≠ some a) :
    (store next head prev v).1 a = next a := by
  cases prev with
  | none => rfl
  | some x =>
      have differ : a ≠ x := fun same => other (by rw [same])
      exact update_of_ne differ ..

theorem Chain.remove {A B : List ι} {x : ι} (chain : Chain next head (A ++ x :: B)) :
    Chain (store next head A.getLast? (next x)).1 (store next head A.getLast? (next x)).2
      (A ++ B) := by
  rcases List.eq_nil_or_concat A with rfl | ⟨A, a, rfl⟩
  · exact chain.after
  · have last : (A.concat a).getLast? = some a := by simp
    rw [last]
    rw [List.concat_eq_append, List.append_assoc] at *
    exact chain.unlink

/-- A node goes to the end, where the pointer is that at the end and the node's own is
null. -/
theorem Chain.add {x : ι} (chain : Chain next head l) (other : x ∉ l) (null : next x = none) :
    Chain (store next head l.getLast? (some x)).1 (store next head l.getLast? (some x)).2
      (l ++ [x]) := by
  rcases List.eq_nil_or_concat l with rfl | ⟨A, a, rfl⟩
  · refine .cons ?_
    have here : (store next head [].getLast? (some x)).1 x = none := null
    rw [here]
    exact .nil
  · have last : (A.concat a).getLast? = some a := by simp
    rw [last]
    rw [List.concat_eq_append] at *
    have differ : x ≠ a := by
      rintro rfl
      simp at other
    rw [List.append_assoc]
    exact chain.append differ null

theorem getLast?_remove {A B : List ι} {x : ι} (nodup : (A ++ x :: B).Nodup) :
    (if (A ++ x :: B).getLast? = some x then A.getLast? else (A ++ x :: B).getLast?) =
      (A ++ B).getLast? := by
  cases B with
  | nil => simp
  | cons b B =>
      have last : (A ++ x :: b :: B).getLast? = (b :: B).getLast? := by
        rw [List.getLast?_append_of_ne_nil _ (List.cons_ne_nil x _), List.getLast?_cons_cons]
      have last' : (A ++ b :: B).getLast? = (b :: B).getLast? := by
        rw [List.getLast?_append_of_ne_nil _ (List.cons_ne_nil b B)]
      have other : (b :: B).getLast? ≠ some x := by
        intro isLast
        have member := List.mem_of_getLast? isLast
        simp only [List.nodup_append, List.nodup_cons] at nodup
        exact nodup.2.1.1 member
      rw [last, last', if_neg other]

end Changes

/-! ## Walking -/

/-- Follow the pointers to the first node with the property; the answer is that node and the
one before it, and there is none if the walk never ends. -/
def search (next : ι → Option ι) (found : ι → Bool) :
    Nat → Option ι → Option ι → Option (Option (Option ι × ι))
  | _, _, none => some none
  | 0, _, some _ => none
  | fuel + 1, before, some a =>
      if found a then some (some (before, a)) else search next found fuel (some a) (next a)

theorem search_chain (found : ι → Bool) {fuel : Nat} (before : Option ι)
    (chain : Chain next head l) (enough : l.length ≤ fuel) :
    (search next found fuel before head = some none ∧ ∀ a ∈ l, found a = false) ∨
      ∃ A a B, l = A ++ a :: B ∧ (∀ x ∈ A, found x = false) ∧ found a = true ∧
        search next found fuel before head = some (some (A.getLast?.or before, a)) := by
  induction chain generalizing fuel before with
  | nil => exact .inl ⟨by unfold search; rfl, by simp⟩
  | @cons a rest _ ih =>
      cases fuel with
      | zero => simp at enough
      | succ fuel =>
          by_cases here : found a = true
          · exact .inr ⟨[], a, rest, rfl, by simp, here, by simp [search, here]⟩
          · have notHere : found a = false := by simpa using here
            have step : search next found (fuel + 1) before (some a) =
                search next found fuel (some a) (next a) := by simp [search, notHere]
            rw [step]
            obtain ⟨nothing, none⟩ | ⟨A, b, B, split, none, isFound, result⟩ :=
              ih (some a) (Nat.le_of_succ_le_succ enough)
            · refine .inl ⟨nothing, fun x member => ?_⟩
              rcases List.mem_cons.mp member with rfl | member
              · exact notHere
              · exact none x member
            · refine .inr ⟨a :: A, b, B, by rw [split]; rfl, fun x member => ?_, isFound, ?_⟩
              · rcases List.mem_cons.mp member with rfl | member
                · exact notHere
                · exact none x member
              · rw [result]
                cases A with
                | nil => rfl
                | cons x A =>
                    rw [List.getLast?_cons_cons, List.getLast?_eq_some_getLast (List.cons_ne_nil x A)]
                    rfl

/-- The pointers lead from `a` to `b`, in one step or in more. -/
def Leads (next : ι → Option ι) : ι → ι → Prop := Relation.TransGen fun x y => next x = some y

theorem Chain.mem_iff {a b : ι} (chain : Chain next (next a) l) : b ∈ l ↔ Leads next a b := by
  induction l generalizing a with
  | nil =>
      refine iff_of_false List.not_mem_nil fun leads => ?_
      obtain ⟨c, first, _⟩ := Relation.TransGen.head'_iff.mp leads
      rw [first] at chain
      cases chain
  | cons c rest ih =>
      have first : next a = some c := chain.head_eq
      have tail : Chain next (next c) rest := chain.suffix (A := []).after (A := [])
      rw [List.mem_cons, ih tail]
      refine Relation.reflTransGen_iff_eq_or_transGen.symm.trans ⟨fun rest => ?_, fun leads => ?_⟩
      · exact Relation.TransGen.head'_iff.mpr ⟨c, first, rest⟩
      · obtain ⟨c', first', rest⟩ := Relation.TransGen.head'_iff.mp leads
        rw [first] at first'
        cases first'
        exact rest

theorem Chain.not_leads {a : ι} (chain : Chain next (some a) l) : ¬ Leads next a a := by
  cases chain with
  | @cons _ rest tail =>
      rw [← tail.mem_iff]
      exact (List.nodup_cons.mp (Chain.cons tail).nodup).1

end Csc457.Lib.LinkedQueue
