/-
  RfqSettlement.Lib.Feed

  Reading a growing list in order, behind a cursor and a set of seen keys.

    * `walk`  one pass: the items up to the first that is not ready, less those
      whose keys were seen.
    * `walk_behind`  the list is what was read followed by the rest, and items that
      are not ready are followed by none that is.  A pass that starts anywhere in
      what was read returns the ready items of the rest, and no others.
-/

import Mathlib.Data.List.Nodup
import Mathlib.Data.List.TakeWhile
import Mathlib.Tactic.Tauto

namespace Feed

variable {α κ : Type*} {key : α → κ} {ready : α → Bool} {seen : List κ} {xs rs us : List α} {c : Nat}

/-- `seen` holds the keys of `rs`. -/
def Seen (key : α → κ) (seen : List κ) (rs : List α) : Prop := ∀ k, k ∈ seen ↔ ∃ x ∈ rs, key x = k

theorem seen_nil : Seen key [] [] := fun _ => by simp

/-- Readiness is lost once and for all along the list. -/
def Declines (ready : α → Bool) (xs : List α) : Prop :=
  xs.Pairwise fun x y => ready y = true → ready x = true

theorem Declines.takeWhile_eq_nil (h : Declines ready (rs ++ us)) {x : α} (hx : x ∈ rs)
    (hready : ready x = false) : us.takeWhile ready = [] := by
  cases us with
  | nil => rfl
  | cons u us =>
      have hu : ready u = false := by
        by_contra hu
        have := (List.pairwise_append.mp h).2.2 x hx u (by simp) (by simpa using hu)
        simp [hready] at this
      simp [hu]

/-- Past the first item that is not ready none is. -/
theorem Declines.not_ready (h : Declines ready us) {x : α} (hx : x ∈ us.dropWhile ready) :
    ready x = false := by
  induction us with
  | nil => cases hx
  | cons u us ih =>
      obtain ⟨hu, htail⟩ := List.pairwise_cons.mp h
      cases hready : ready u with
      | true => exact ih htail (by simpa [hready] using hx)
      | false =>
          rw [List.dropWhile_cons, hready] at hx
          rcases List.mem_cons.mp hx with rfl | hx
          · exact hready
          · by_contra hne
            have := hu x hx (by simpa using hne)
            simp [hready] at this

variable [DecidableEq κ]

def walk (key : α → κ) (ready : α → Bool) : List κ → List α → List α
  | _, [] => []
  | seen, x :: xs =>
    if ready x then
      if key x ∈ seen then walk key ready seen xs else x :: walk key ready (key x :: seen) xs
    else []

theorem walk_sublist : (walk key ready seen xs).Sublist xs := by
  induction xs generalizing seen with
  | nil => exact .slnil
  | cons x xs ih =>
      unfold walk
      split
      · split
        · exact ih.cons x
        · exact ih.cons_cons x
      · exact List.nil_sublist _

/-- A pass returns nothing seen before it. -/
theorem not_seen_of_walk {x : α} (hx : x ∈ walk key ready seen xs) : key x ∉ seen := by
  induction xs generalizing seen with
  | nil => cases hx
  | cons y xs ih =>
      unfold walk at hx
      split at hx
      · split at hx
        · exact ih hx
        next hy =>
          rcases List.mem_cons.mp hx with rfl | hx
          · exact hy
          · exact fun hmem => ih hx (List.mem_cons_of_mem _ hmem)
      · cases hx

/-- Items none of whose keys was seen. -/
theorem walk_fresh (hnodup : (us.map key).Nodup) (hfresh : ∀ x ∈ us, key x ∉ seen) :
    walk key ready seen us = us.takeWhile ready := by
  induction us generalizing seen with
  | nil => rfl
  | cons x us ih =>
      obtain ⟨hnot, hnodup⟩ := List.nodup_cons.mp hnodup
      cases hready : ready x with
      | false => simp [walk, hready]
      | true =>
          have hrest : ∀ y ∈ us, key y ∉ key x :: seen := by
            intro y hy hmem
            rcases List.mem_cons.mp hmem with heq | hmem
            · exact hnot (heq ▸ List.mem_map_of_mem hy)
            · exact hfresh y (by simp [hy]) hmem
          simp [walk, hready, hfresh x, ih hnodup hrest]

/-- Items all of whose keys were seen are passed over. -/
theorem walk_seen (hseen : ∀ x ∈ rs, key x ∈ seen) (hready : ∀ x ∈ rs, ready x = true) :
    walk key ready seen (rs ++ us) = walk key ready seen us := by
  induction rs with
  | nil => rfl
  | cons x rs ih =>
      have htail := ih (fun y hy => hseen y (by simp [hy])) fun y hy => hready y (by simp [hy])
      simp [walk, hseen x, hready x, htail]

/-- A pass over seen items stops at the first that is not ready. -/
theorem walk_stops (hseen : ∀ x ∈ rs, key x ∈ seen) {x : α} (hx : x ∈ rs)
    (hready : ready x = false) : walk key ready seen (rs ++ us) = [] := by
  induction rs with
  | nil => cases hx
  | cons y rs ih =>
      cases hy : ready y with
      | false => simp [walk, hy]
      | true =>
          have hx : x ∈ rs := by
            rcases List.mem_cons.mp hx with rfl | hx
            · simp [hready] at hy
            · exact hx
          have htail := ih (fun z hz => hseen z (by simp [hz])) hx
          simp [walk, hy, hseen y, htail]

/-- A pass returns the ready items that follow those already read, and no others. -/
theorem walk_behind (hnodup : ((rs ++ us).map key).Nodup) (hseen : Seen key seen rs)
    (hdeclines : Declines ready (rs ++ us)) :
    walk key ready seen (rs.drop c ++ us) = us.takeWhile ready := by
  have hold : ∀ x ∈ rs.drop c, key x ∈ seen :=
    fun x hx => (hseen _).mpr ⟨x, List.mem_of_mem_drop hx, rfl⟩
  by_cases hall : ∀ x ∈ rs.drop c, ready x = true
  · rw [walk_seen hold hall]
    rw [List.map_append, List.nodup_append] at hnodup
    refine walk_fresh hnodup.2.1 fun x hx hmem => ?_
    obtain ⟨y, hy, heq⟩ := (hseen _).mp hmem
    exact hnodup.2.2 _ (List.mem_map_of_mem hy) _ (List.mem_map_of_mem hx) heq
  · obtain ⟨x, hx, hready⟩ : ∃ x ∈ rs.drop c, ready x = false := by simpa using hall
    rw [walk_stops hold hx hready, hdeclines.takeWhile_eq_nil (List.mem_of_mem_drop hx) hready]

/-- A pass over items with something beside them. -/
theorem walk_map {β : Type*} {f : β → α} {ys : List β} :
    (walk (key ∘ f) (ready ∘ f) seen ys).map f = walk key ready seen (ys.map f) := by
  induction ys generalizing seen with
  | nil => rfl
  | cons y ys ih =>
      simp only [List.map_cons, walk, Function.comp_apply]
      split
      · split
        · exact ih
        · rw [List.map_cons, ih]
      · rfl

/-- A pass only asks which keys were seen. -/
theorem walk_congr {seen' : List κ} (h : ∀ k, k ∈ seen ↔ k ∈ seen') :
    walk key ready seen xs = walk key ready seen' xs := by
  induction xs generalizing seen seen' with
  | nil => rfl
  | cons x xs ih =>
      have hcons : ∀ k, k ∈ key x :: seen ↔ k ∈ key x :: seen' := by
        intro k
        rw [List.mem_cons, List.mem_cons, h k]
      simp only [walk, h, ih h, ih hcons]

/-- A pass that stops for nothing. -/
abbrev fresh (key : α → κ) (seen : List κ) (xs : List α) : List α := walk key (fun _ => true) seen xs

theorem walk_eq_fresh : walk key ready seen xs = fresh key seen (xs.takeWhile ready) := by
  induction xs generalizing seen with
  | nil => rfl
  | cons x xs ih =>
      cases hready : ready x with
      | false => simp [walk, hready]
      | true => simp [walk, hready, ih]

theorem fresh_eq_nil (h : ∀ x ∈ xs, key x ∈ seen) : fresh key seen xs = [] := by
  have hseen : fresh key seen (xs ++ []) = fresh key seen [] := walk_seen h fun _ _ => rfl
  simpa [walk] using hseen

/-- Whatever is seen after a pass was seen before it or is in it. -/
theorem fresh_append (xs ys : List α) (seen : List κ) :
    fresh key seen (xs ++ ys) = fresh key seen xs ++ fresh key (xs.map key ++ seen) ys := by
  induction xs generalizing seen with
  | nil => rfl
  | cons x xs ih =>
      simp only [fresh, List.cons_append, walk, if_true, List.map_cons]
      by_cases hx : key x ∈ seen
      · simp only [if_pos hx]
        refine (ih seen).trans (congrArg _ (walk_congr fun k => ?_))
        simp only [List.mem_cons, List.mem_append]
        constructor
        · exact .inr
        · rintro (rfl | hk)
          · exact .inr hx
          · exact hk
      · simp only [if_neg hx, List.cons_append]
        refine congrArg _ ((ih (key x :: seen)).trans (congrArg _ (walk_congr fun k => ?_)))
        simp only [List.mem_cons, List.mem_append]
        tauto

theorem mem_fresh_or_seen {x : α} (hx : x ∈ xs) :
    key x ∈ seen ∨ ∃ y ∈ fresh key seen xs, key y = key x := by
  induction xs generalizing seen with
  | nil => cases hx
  | cons z xs ih =>
      simp only [fresh, walk, if_true]
      by_cases hz : key z ∈ seen
      · simp only [if_pos hz]
        rcases List.mem_cons.mp hx with rfl | hx
        · exact .inl hz
        · exact ih hx
      · simp only [if_neg hz]
        rcases List.mem_cons.mp hx with rfl | hx
        · exact .inr ⟨x, List.mem_cons_self, rfl⟩
        · have hrest : key x ∈ key z :: seen ∨ ∃ y ∈ fresh key (key z :: seen) xs, key y = key x := ih hx
          rcases hrest with hmem | ⟨y, hy, hkey⟩
          · rcases List.mem_cons.mp hmem with heq | hmem
            · exact .inr ⟨z, List.mem_cons_self, heq.symm⟩
            · exact .inl hmem
          · exact .inr ⟨y, List.mem_cons_of_mem _ hy, hkey⟩

omit [DecidableEq κ] in
/-- A cursor that starts in what was read ends in what is read. -/
theorem cursor_le (hc : c ≤ rs.length) :
    c + ((rs.drop c ++ us).takeWhile ready).length ≤ (rs ++ us.takeWhile ready).length := by
  have hinit : (rs.drop c).takeWhile ready <+: rs.drop c := List.takeWhile_prefix ready
  have hlen := hinit.length_le
  rw [List.length_drop] at hlen
  rw [List.takeWhile_append]
  split
  · simp only [List.length_append, List.length_drop]
    omega
  · rw [List.length_append]
    omega

end Feed
