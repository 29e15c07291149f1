/-
  RfqSettlement.Lib.ListSum

  Sums of natural numbers over a list: what one assignment does to the sum, and
  when a selection of positions already carries all of it.
-/

import Mathlib.Algebra.BigOperators.Group.List.Basic
import Mathlib.Algebra.GroupWithZero.Nat
import Mathlib.Algebra.BigOperators.Group.Finset.Basic
import Mathlib.Algebra.Order.BigOperators.Group.List
import Mathlib.Algebra.Order.Group.Nat

namespace List

variable {α : Type*}

/-- Assigning one position exchanges its contribution to the sum. -/
theorem sum_map_set_add {l : List α} {i : Nat} {old : α} (new : α) (g : α → Nat)
    (h : l[i]? = some old) :
    ((l.set i new).map g).sum + g old = (l.map g).sum + g new := by
  induction l generalizing i with
  | nil => simp at h
  | cons x xs ih =>
      cases i with
      | zero =>
          simp only [getElem?_cons_zero, Option.some.injEq] at h
          subst h
          simp only [set_cons_zero, map_cons, sum_cons]
          omega
      | succ i =>
          have := ih (by simpa using h)
          simp only [set_cons_succ, map_cons, sum_cons]
          omega

/-- So does rewriting it in place. -/
theorem sum_map_modify_add {l : List α} {i : Nat} {old : α} (f : α → α) (g : α → Nat)
    (h : l[i]? = some old) :
    ((l.modify i f).map g).sum + g old = (l.map g).sum + g (f old) := by
  have hset : l.modify i f = l.set i (f old) := by
    apply ext_getElem?
    intro j
    rw [getElem?_modify, getElem?_set]
    obtain ⟨hlt, hget⟩ := getElem?_eq_some_iff.mp h
    by_cases hij : i = j
    · subst hij
      simp [hget, hlt]
    · simp [hij]
  rw [hset]
  exact sum_map_set_add (f old) g h

/-- The sum of a list, position by position. -/
theorem sum_map_eq_sum_range (l : List α) (g : α → Nat) :
    (l.map g).sum = (Finset.range l.length).sum fun i => (l[i]?).elim 0 g := by
  induction l with
  | nil => simp
  | cons x xs ih =>
      rw [length_cons, Finset.sum_range_succ']
      simp [ih, Nat.add_comm]

/-- A duplicate-free selection of positions carries the whole sum, once every
    position it leaves out contributes nothing. -/
theorem sum_map_of_selection {l : List α} {is : List Nat} (g : α → Nat) (hnodup : is.Nodup)
    (hrange : ∀ i ∈ is, i < l.length)
    (hrest : ∀ i x, l[i]? = some x → i ∉ is → g x = 0) :
    (is.map fun i => (l[i]?).elim 0 g).sum = (l.map g).sum := by
  rw [sum_map_eq_sum_range l g, ← List.sum_toFinset _ hnodup]
  apply Finset.sum_subset
  · intro i hi
    simpa using hrange i (by simpa using hi)
  · intro i hi hni
    obtain ⟨x, hx⟩ : ∃ x, l[i]? = some x :=
      ⟨_, List.getElem?_eq_getElem (Finset.mem_range.mp hi)⟩
    rw [hx]
    exact hrest i x hx (by simpa using hni)

/-- What one item of a duplicate-free list contributes, the list contributes. -/
theorem sum_map_ite_key {κ : Type*} [DecidableEq κ] {l : List α} {key : α → κ} {x : α}
    (hnodup : (l.map key).Nodup) (hx : x ∈ l) (c : Nat) :
    (l.map fun y => if key y = key x then c else 0).sum = c := by
  induction l with
  | nil => cases hx
  | cons y ys ih =>
      obtain ⟨hnot, hnodup⟩ := nodup_cons.mp hnodup
      rw [map_cons, sum_cons]
      rcases mem_cons.mp hx with rfl | hx
      · have hrest : (ys.map fun y => if key y = key x then c else 0).sum = 0 := by
          refine sum_eq_zero fun n hn => ?_
          obtain ⟨z, hz, rfl⟩ := mem_map.mp hn
          have hne : key z ≠ key x := fun heq => hnot (heq ▸ mem_map_of_mem hz)
          exact if_neg hne
        rw [if_pos rfl, hrest, Nat.add_zero]
      · have hne : key y ≠ key x := fun heq => hnot (heq ▸ mem_map_of_mem hx)
        rw [if_neg hne, Nat.zero_add, ih hnodup hx]

/-- A sum that grows by `c` at one item, at most. -/
theorem sum_map_le_add {κ : Type*} [DecidableEq κ] {l : List α} {key : α → κ} {x : α}
    {f g : α → Nat} {c : Nat} (hnodup : (l.map key).Nodup) (hx : x ∈ l)
    (hat : f x ≤ g x + c) (hoff : ∀ y ∈ l, key y ≠ key x → f y ≤ g y) :
    (l.map f).sum ≤ (l.map g).sum + c := by
  have hsum := sum_map_ite_key hnodup hx c
  have hadd : (l.map fun y => g y + if key y = key x then c else 0).sum = (l.map g).sum + c := by
    rw [sum_map_add, hsum]
  rw [← hadd]
  refine sum_le_sum fun y hy => ?_
  by_cases hkey : key y = key x
  · obtain rfl := inj_on_of_nodup_map hnodup hy hx hkey
    simpa using hat
  · simpa [hkey] using hoff y hy hkey

end List
