import Mathlib.Data.List.Nodup
import Mathlib.Data.List.Perm.Basic
import Mathlib.Logic.Function.Basic

/-!
# Circular doubly linked lists

`two` and `one` are the links of the nodes, forward and backward.  A `Path`
goes from one node to another through a list of nodes, each link the inverse of
the other; a `Ring` is a path from a node back to itself.  A ring can be
started at any of its nodes, takes a new node at its end, and gives one up.
-/

set_option autoImplicit false

namespace Csc457.Lib.CircularList

variable {ν : Type}

/-- `two` leads from `a` through the nodes of the list to `b`, and `one` back. -/
def Path (two one : ν → Option ν) : ν → List ν → ν → Prop
  | a, [], b => two a = some b ∧ one b = some a
  | a, x :: l, b => (two a = some x ∧ one x = some a) ∧ Path two one x l b

/-- The nodes of the list, in this order, once around. -/
def Ring (two one : ν → Option ν) : List ν → Prop
  | [] => True
  | h :: l => Path two one h l h

section Path
variable {two one two' one' : ν → Option ν} {a b : ν}

theorem path_append {A B : List ν} {x : ν} :
    Path two one a (A ++ x :: B) b ↔ Path two one a A x ∧ Path two one x B b := by
  induction A generalizing a with
  | nil => exact Iff.rfl
  | cons y A ih =>
      simp only [List.cons_append, Path, ih]
      exact and_assoc.symm

/-- A path reads the forward links of all its nodes but the last, and the
backward links of all but the first. -/
theorem Path.congr {l : List ν} (path : Path two one a l b)
    (forward : ∀ x ∈ a :: l, two' x = two x) (backward : ∀ x ∈ l ++ [b], one' x = one x) :
    Path two' one' a l b := by
  induction l generalizing a with
  | nil =>
      obtain ⟨next, prev⟩ := path
      exact ⟨(forward a (by simp)).trans next, (backward b (by simp)).trans prev⟩
  | cons x l ih =>
      obtain ⟨⟨next, prev⟩, rest⟩ := path
      refine ⟨⟨(forward a (by simp)).trans next, (backward x (by simp)).trans prev⟩, ?_⟩
      exact ih rest (fun y member => forward y (List.mem_cons_of_mem a member))
        fun y member => backward y (List.mem_cons_of_mem x member)

end Path

/-- The forward links lead from `a` through the nodes of the list to `b`. -/
def Leads (two : ν → Option ν) : ν → List ν → ν → Prop
  | a, [], b => two a = some b
  | a, x :: l, b => two a = some x ∧ Leads two x l b

section Leads
variable {two two' one : ν → Option ν} {a b : ν}

theorem Path.leads {l : List ν} (path : Path two one a l b) : Leads two a l b := by
  induction l generalizing a with
  | nil => exact path.1
  | cons x l ih => exact ⟨path.1.1, ih path.2⟩

theorem leads_append {A B : List ν} {x : ν} (first : Leads two a A x) (rest : Leads two x B b) :
    Leads two a (A ++ x :: B) b := by
  induction A generalizing a with
  | nil => exact ⟨first, rest⟩
  | cons y A ih => exact ⟨first.1, ih first.2⟩

theorem Leads.congr {l : List ν} (leads : Leads two a l b)
    (same : ∀ x ∈ a :: l, two' x = two x) : Leads two' a l b := by
  induction l generalizing a with
  | nil => exact (same a (by simp)).trans leads
  | cons x l ih =>
      exact ⟨(same a (by simp)).trans leads.1,
        ih leads.2 fun y member => same y (List.mem_cons_of_mem a member)⟩

theorem Leads.unique {l l' : List ν} (leads : Leads two a l b) (leads' : Leads two a l' b)
    (avoids : b ∉ l) (avoids' : b ∉ l') : l = l' := by
  induction l generalizing a l' with
  | nil =>
      cases l' with
      | nil => rfl
      | cons y l' =>
          have same : some b = some y := leads.symm.trans leads'.1
          exact absurd (by simp [Option.some.inj same]) avoids'
  | cons x l ih =>
      cases l' with
      | nil =>
          have same : some x = some b := leads.1.symm.trans leads'
          exact absurd (by simp [Option.some.inj same]) avoids
      | cons y l' =>
          have same : some x = some y := leads.1.symm.trans leads'.1
          obtain rfl := Option.some.inj same
          rw [ih leads.2 leads'.2 (fun member => avoids (List.mem_cons_of_mem x member))
            fun member => avoids' (List.mem_cons_of_mem x member)]

end Leads

section Ring
variable {two one : ν → Option ν} {l A B : List ν} {h v : ν}

theorem Ring.congr {two' one' : ν → Option ν} (ring : Ring two one l)
    (forward : ∀ x ∈ l, two' x = two x) (backward : ∀ x ∈ l, one' x = one x) :
    Ring two' one' l := by
  cases l with
  | nil => trivial
  | cons h l =>
      refine Path.congr ring forward fun x member => backward x ?_
      simpa [or_comm] using member

theorem Ring.rotate (ring : Ring two one (h :: l)) : Ring two one (l ++ [h]) := by
  cases l with
  | nil => exact ring
  | cons x l =>
      obtain ⟨first, rest⟩ := ring
      exact path_append.mpr ⟨rest, first⟩

theorem Ring.append_comm (ring : Ring two one (A ++ B)) : Ring two one (B ++ A) := by
  induction A generalizing B with
  | nil => simpa using ring
  | cons a A ih =>
      have turned : Ring two one (A ++ (B ++ [a])) := by
        simpa using Ring.rotate ring
      simpa using ih turned

theorem Ring.two_head (ring : Ring two one (h :: l)) : two h = (l ++ [h]).head? := by
  cases l with
  | nil => exact ring.1
  | cons x l => exact ring.1.1

theorem Ring.one_head (ring : Ring two one (h :: l)) : one h = (h :: l).getLast? := by
  rcases List.eq_nil_or_concat' l with rfl | ⟨l, y, rfl⟩
  · exact ring.2
  · have last := (path_append.mp ring).2.2
    simpa [List.getLast?_cons] using last

theorem Ring.links (ring : Ring two one (A ++ v :: B)) :
    two v = (B ++ A ++ [v]).head? ∧ one v = (v :: (B ++ A)).getLast? := by
  have turned : Ring two one (v :: (B ++ A)) := Ring.append_comm ring
  exact ⟨turned.two_head, turned.one_head⟩

theorem Ring.next (ring : Ring two one l) (member : v ∈ l) :
    ∃ x ∈ l, two v = some x ∧ one x = some v := by
  obtain ⟨A, B, rfl⟩ := List.append_of_mem member
  have turned : Ring two one (v :: (B ++ A)) := Ring.append_comm ring
  rcases others : B ++ A with _ | ⟨x, C⟩
  · rw [others] at turned
    exact ⟨v, member, turned⟩
  · rw [others] at turned
    have other : x ∈ A ++ v :: B := by
      have inRest : x ∈ B ∨ x ∈ A := List.mem_append.mp (by simp [others])
      simpa using inRest.symm.imp_right Or.inr
    exact ⟨x, other, turned.1⟩

theorem Ring.prev (ring : Ring two one l) (member : v ∈ l) :
    ∃ y ∈ l, one v = some y ∧ two y = some v := by
  obtain ⟨A, B, rfl⟩ := List.append_of_mem member
  have turned : Ring two one (v :: (B ++ A)) := Ring.append_comm ring
  rcases List.eq_nil_or_concat' (B ++ A) with others | ⟨C, y, others⟩
  · rw [others] at turned
    exact ⟨v, member, turned.2, turned.1⟩
  · rw [others] at turned
    have other : y ∈ A ++ v :: B := by
      have inRest : y ∈ B ∨ y ∈ A := List.mem_append.mp (by simp [others])
      simpa using inRest.symm.imp_right Or.inr
    obtain ⟨next, prev⟩ := (path_append.mp turned).2
    exact ⟨y, other, prev, next⟩

theorem Ring.getLast_of_two (ring : Ring two one (h :: l)) (nodup : (h :: l).Nodup)
    (member : v ∈ h :: l) (back : two v = some h) : (h :: l).getLast? = some v := by
  obtain ⟨A, B, split⟩ := List.append_of_mem member
  rw [split] at ring nodup ⊢
  cases B with
  | nil => simp
  | cons x B =>
      have next := ring.links.1
      rw [back] at next
      have same : h = x := by simpa using next
      cases A with
      | nil =>
          obtain ⟨rfl, _⟩ := List.cons.inj split
          exact absurd nodup (by simp [same])
      | cons y A =>
          obtain ⟨rfl, _⟩ := List.cons.inj split
          exact absurd nodup (by simp [same])

theorem ends_fresh {x y : ν} (nodup : (x :: (l ++ [y])).Nodup) : x ∉ l ++ [y] ∧ y ∉ x :: l := by
  obtain ⟨xFresh, rest⟩ := List.nodup_cons.mp nodup
  obtain ⟨_, _, apart⟩ := List.nodup_append.mp rest
  refine ⟨xFresh, fun member => ?_⟩
  rcases List.mem_cons.mp member with rfl | member
  · exact xFresh (by simp)
  · exact apart y member y (by simp) rfl

theorem alone_of_ends (gone : v ∉ A ++ B)
    (first : (A ++ v :: B).head? = some v) (last : (A ++ v :: B).getLast? = some v) :
    A ++ B = [] := by
  cases A with
  | nil =>
      rcases List.eq_nil_or_concat' B with rfl | ⟨B, b, rfl⟩
      · rfl
      · have same : b = v := by simpa [List.getLast?_cons] using last
        exact absurd (by simp [same]) gone
  | cons a A =>
      have same : a = v := by simpa using first
      exact absurd (by simp [same]) gone

end Ring

/-! ## Putting a node in and taking one out -/

section Edit
open Function
variable [DecidableEq ν] {two one : ν → Option ν} {l : List ν} {h t n v : ν}

theorem ring_singleton : Ring (update two n (some n)) (update one n (some n)) [n] :=
  ⟨update_self .., update_self ..⟩

theorem Ring.insert (ring : Ring two one (h :: l)) (last : (h :: l).getLast? = some t)
    (fresh : n ∉ h :: l) (nodup : (h :: l).Nodup) :
    Ring (update (update two n (some h)) t (some n)) (update (update one n (some t)) h (some n))
      (h :: l ++ [n]) := by
  have nh : n ≠ h := fun same => fresh (by simp [same])
  have tMember : t ∈ h :: l := List.mem_of_getLast? last
  have nt : n ≠ t := fun same => fresh (same ▸ tMember)
  have link : update (update two n (some h)) t (some n) t = some n := update_self ..
  have newLink : update (update two n (some h)) t (some n) n = some h := by
    rw [update_of_ne nt, update_self]
  have back : update (update one n (some t)) h (some n) h = some n := update_self ..
  have newBack : update (update one n (some t)) h (some n) n = some t := by
    rw [update_of_ne nh, update_self]
  rcases List.eq_nil_or_concat' l with rfl | ⟨l, y, rfl⟩
  · have same : h = t := by simpa using last
    subst same
    exact ⟨⟨link, newBack⟩, newLink, back⟩
  · have same : y = t := by simpa [List.getLast?_cons] using last
    subst same
    have old := (path_append.mp ring).1
    obtain ⟨hFresh, yFresh⟩ := ends_fresh nodup
    have split : h :: (l ++ [y]) ++ [n] = h :: (l ++ y :: [n]) := by simp
    rw [split]
    refine path_append.mpr ⟨old.congr ?_ ?_, ⟨link, newBack⟩, newLink, back⟩
    · intro x member
      have xy : x ≠ y := fun same => yFresh (same ▸ member)
      have xn : x ≠ n := fun same => fresh (same ▸ by
        rcases List.mem_cons.mp member with rfl | member
        · simp
        · simp [member])
      rw [update_of_ne xy, update_of_ne xn]
    · intro x member
      have xh : x ≠ h := fun same => hFresh (same ▸ member)
      have xn : x ≠ n := fun same => fresh (same ▸ List.mem_cons_of_mem h member)
      rw [update_of_ne xh, update_of_ne xn]

/-- A new node put after `t` and pointing to the first node, wherever `t` stands:
the way around leads over `t` and leaves out all nodes after it. -/
theorem Ring.short_cut {A B : List ν} (ring : Ring two one (A ++ t :: B))
    (first : (A ++ t :: B).head? = some h) (fresh : n ∉ A ++ t :: B)
    (nodup : (A ++ t :: B).Nodup) :
    ∃ X, Leads (update (update two n (some h)) t (some n)) h X h ∧ h ∉ X ∧
      X.length = A.length + 1 := by
  have nt : n ≠ t := fun same => fresh (by simp [same])
  have link : update (update two n (some h)) t (some n) t = some n := update_self ..
  have newLink : update (update two n (some h)) t (some n) n = some h := by
    rw [update_of_ne nt, update_self]
  cases A with
  | nil =>
      have same : t = h := by simpa using first
      subst same
      exact ⟨[n], ⟨link, newLink⟩, by simpa using nt.symm, rfl⟩
  | cons a A =>
      have same : a = h := by simpa using first
      subst same
      have old := (path_append.mp ring).1.leads
      obtain ⟨aFresh, rest⟩ := List.nodup_cons.mp nodup
      have at_ : a ≠ t := fun same => aFresh (by simp [same])
      have na : n ≠ a := fun same => fresh (by simp [same])
      have tFresh : t ∉ A := by
        obtain ⟨_, _, apart⟩ := List.nodup_append.mp rest
        exact fun member => apart t member t (by simp) rfl
      refine ⟨A ++ t :: [n], leads_append (old.congr ?_) ⟨link, newLink⟩, ?_, by simp⟩
      · intro x member
        have xt : x ≠ t := by
          rcases List.mem_cons.mp member with rfl | member
          · exact at_
          · exact fun same => tFresh (same ▸ member)
        have xn : x ≠ n := by
          rintro rfl
          apply fresh
          rcases List.mem_cons.mp member with rfl | member
          · simp
          · simp [member]
        rw [update_of_ne xt, update_of_ne xn]
      · intro member
        rcases List.mem_append.mp member with member | member
        · exact aFresh (by simp [member])
        · rcases List.mem_cons.mp member with same | member
          · exact at_ same
          · exact na (by simpa using member : a = n).symm

theorem Ring.unlink_head {x y : ν} (ring : Ring two one (v :: x :: l))
    (last : (x :: l).getLast? = some y) (nodup : (x :: l).Nodup) :
    Ring (update two y (some x)) (update one x (some y)) (x :: l) := by
  have link : update two y (some x) y = some x := update_self ..
  have back : update one x (some y) x = some y := update_self ..
  obtain ⟨_, path⟩ := ring
  rcases List.eq_nil_or_concat' l with rfl | ⟨l, z, rfl⟩
  · have same : x = y := by simpa using last
    subst same
    exact ⟨link, back⟩
  · have same : z = y := by simpa [List.getLast?_cons] using last
    subst same
    have old := (path_append.mp path).1
    obtain ⟨xFresh, zFresh⟩ := ends_fresh nodup
    refine path_append.mpr ⟨old.congr ?_ ?_, link, back⟩
    · intro w member
      have wz : w ≠ z := fun same => zFresh (same ▸ member)
      exact update_of_ne wz ..
    · intro w member
      have wx : w ≠ x := fun same => xFresh (same ▸ member)
      exact update_of_ne wx ..

theorem Ring.unlink {A B : List ν} (ring : Ring two one (A ++ v :: B)) (some : A ++ B ≠ [])
    (nodup : (A ++ v :: B).Nodup) :
    ∃ x y, two v = .some x ∧ one v = .some y ∧ (B ++ A).head? = .some x ∧
      (B ++ A).getLast? = .some y ∧
      Ring (update two y (.some x)) (update one x (.some y)) (A ++ B) := by
  have turned : Ring two one (v :: (B ++ A)) := Ring.append_comm ring
  have rotated : (A ++ v :: B).Perm (v :: (B ++ A)) := List.perm_append_comm
  have nodup : (v :: (B ++ A)).Nodup := rotated.nodup_iff.mp nodup
  have next := turned.two_head
  have prev := turned.one_head
  rcases others : B ++ A with _ | ⟨x, l⟩
  · obtain ⟨rfl, rfl⟩ := List.append_eq_nil_iff.mp others
    exact absurd rfl some
  · rw [others] at turned nodup next prev
    obtain ⟨y, last⟩ : ∃ y, (x :: l).getLast? = .some y :=
      ⟨_, List.getLast?_eq_some_getLast (by simp)⟩
    refine ⟨x, y, next, ?_, rfl, last, ?_⟩
    · rw [prev, List.getLast?_cons, last]
      rfl
    · have cut := turned.unlink_head last (List.nodup_cons.mp nodup).2
      rw [← others] at cut
      exact Ring.append_comm cut

theorem head_unlink {A B : List ν} {x : ν} (gone : v ∉ A ++ B)
    (first : (B ++ A).head? = some x) :
    (if (A ++ v :: B).head? = some v then some x else (A ++ v :: B).head?) = (A ++ B).head? := by
  cases A with
  | nil =>
      rw [if_pos (by simp), ← first]
      simp
  | cons a A =>
      have other : ¬ ((a :: A ++ v :: B).head? = some v) := by
        intro same
        have same : a = v := by simpa using same
        exact gone (by simp [same])
      rw [if_neg other]
      rfl

theorem getLast_unlink {A B : List ν} {y : ν} (gone : v ∉ A ++ B)
    (last : (B ++ A).getLast? = some y) :
    (if (A ++ v :: B).getLast? = some v then some y else (A ++ v :: B).getLast?) =
      (A ++ B).getLast? := by
  rcases List.eq_nil_or_concat' B with rfl | ⟨B, b, rfl⟩
  · rw [if_pos (by simp), ← last]
    simp
  · have other : ¬ ((A ++ v :: (B ++ [b])).getLast? = some v) := by
      intro same
      have same : b = v := by simpa [List.getLast?_cons] using same
      exact gone (by simp [same])
    rw [if_neg other]
    simp [List.getLast?_cons]

end Edit

/-! ## Turning a list -/

section Turned
variable [DecidableEq ν] {l A B : List ν} {t h : ν}

/-- The list turned so that `t` comes last. -/
def turned (l : List ν) : Option ν → List ν
  | none => l
  | some t =>
      (l.dropWhile fun x => decide (x ≠ t)).tail ++ (l.takeWhile fun x => decide (x ≠ t)) ++ [t]

theorem turned_split (fresh : t ∉ A) : turned (A ++ t :: B) (some t) = B ++ A ++ [t] := by
  have others : ∀ x ∈ A, decide (x ≠ t) = true := by
    intro x member
    simpa using fun same : x = t => fresh (same ▸ member)
  rw [turned, List.dropWhile_append_of_pos others, List.takeWhile_append_of_pos others]
  simp

theorem turned_rotation {prev : Option ν} (known : ∀ t, prev = some t → t ∈ l) (nodup : l.Nodup) :
    ∃ L R, l = L ++ R ∧ turned l prev = R ++ L := by
  cases prev with
  | none => exact ⟨[], l, rfl, by simp [turned]⟩
  | some t =>
      obtain ⟨A, B, rfl⟩ := List.append_of_mem (known t rfl)
      have fresh : t ∉ A := fun member =>
        (List.nodup_append.mp nodup).2.2 t member t (by simp) rfl
      exact ⟨A ++ [t], B, by simp, by rw [turned_split fresh, List.append_assoc]⟩

theorem turned_again {L R X Y : List ν} (nodup : (L ++ R).Nodup)
    (split : R ++ L = X ++ h :: Y) : turned (L ++ R) (some h) = Y ++ X ++ [h] := by
  have fresh : h ∉ X := by
    have same : (X ++ h :: Y).Nodup := split ▸ List.nodup_append_comm.mp nodup
    exact fun member => (List.nodup_append.mp same).2.2 h member h (by simp) rfl
  rcases List.append_eq_append_iff.mp split with ⟨X', rfl, rest⟩ | ⟨Y', rfl, rest⟩
  · -- the node is in the part that came last
    rw [rest, List.append_assoc, List.cons_append]
    rw [turned_split fun member => fresh (List.mem_append_right R member)]
    simp
  · cases Y' with
    | nil =>
        obtain rfl : L = h :: Y := by simpa using rest.symm
        have turn := turned_split (A := []) (B := Y ++ X) (t := h) (by simp)
        simpa using turn
    | cons y Y' =>
        obtain ⟨rfl, rfl⟩ := List.cons.inj rest
        rw [← List.append_assoc] at nodup ⊢
        have inLeft : h ∉ L ++ X := fun member =>
          (List.nodup_append.mp nodup).2.2 h member h (by simp) rfl
        rw [turned_split inLeft]
        simp

/-- The first node of the turned list that satisfies `p` is the last one once it is
turned on to that node. -/
theorem filter_turned {prev : Option ν} {p : ν → Bool} {rest : List ν}
    (known : ∀ t, prev = some t → t ∈ l) (nodup : l.Nodup)
    (first : (turned l prev).filter p = h :: rest) :
    (turned l (some h)).filter p = rest ++ [h] := by
  obtain ⟨L, R, rfl, isTurned⟩ := turned_rotation known nodup
  rw [isTurned] at first
  obtain ⟨X, Y, split, skipped, found, rfl⟩ := List.filter_eq_cons_iff.mp first
  have none : X.filter p = [] := List.filter_eq_nil_iff.mpr skipped
  rw [turned_again nodup split, List.filter_append, List.filter_append, none]
  simp [found]

end Turned

end Csc457.Lib.CircularList
