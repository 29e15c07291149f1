/-
  RfqSettlement.Lib.Entrywise

  Two lists alike entry by entry, and two optional values.

  What reads one position, writes one position or folds the whole list keeps two
  such lists alike if it does so at a single entry.
-/

import Mathlib.Data.List.Forall2

namespace Entrywise

variable {α β σ τ : Type*} {R : α → β → Prop} {S : σ → τ → Prop} {xs : List α} {ys : List β}

theorem getElem? (h : List.Forall₂ R xs ys) (i : Nat) : Option.Rel R xs[i]? ys[i]? := by
  induction h generalizing i with
  | nil => exact .none
  | cons hx _ ih =>
      cases i with
      | zero => exact .some hx
      | succ i => exact ih i

theorem set (h : List.Forall₂ R xs ys) (i : Nat) {x : α} {y : β} (hx : R x y) :
    List.Forall₂ R (xs.set i x) (ys.set i y) := by
  induction h generalizing i with
  | nil => exact .nil
  | cons hhead htail ih =>
      cases i with
      | zero => exact .cons hx htail
      | succ i => exact .cons hhead (ih i)

theorem modify (h : List.Forall₂ R xs ys) (i : Nat) {f : α → α} {g : β → β}
    (hf : ∀ x y, R x y → R (f x) (g y)) : List.Forall₂ R (xs.modify i f) (ys.modify i g) := by
  induction h generalizing i with
  | nil =>
      cases i <;> exact .nil
  | cons hhead htail ih =>
      cases i with
      | zero => exact .cons (hf _ _ hhead) htail
      | succ i => exact .cons hhead (ih i)

theorem trans {γ : Type*} {T : β → γ → Prop} {U : α → γ → Prop} {zs : List γ}
    (hU : ∀ x y z, R x y → T y z → U x z) (h : List.Forall₂ R xs ys) (h' : List.Forall₂ T ys zs) :
    List.Forall₂ U xs zs := by
  induction h generalizing zs with
  | nil =>
      cases h' with
      | nil => exact .nil
  | cons hx _ ih =>
      cases h' with
      | cons hy hys => exact .cons (hU _ _ _ hx hy) (ih hys)

/-- Two lists are equal up to a rewrite of one entry. -/
theorem modify_eq_modify_iff {xs xs' : List α} {i : Nat} {f : α → α} :
    xs.modify i f = xs'.modify i f ↔ (∀ j : Nat, j ≠ i → xs[j]? = xs'[j]?) ∧ (xs[i]?).map f = (xs'[i]?).map f := by
  constructor
  · intro h
    have hget : ∀ j : Nat, (xs.modify i f)[j]? = (xs'.modify i f)[j]? := fun j => by rw [h]
    refine ⟨fun j hj => ?_, ?_⟩
    · have hj' := hget j
      rwa [List.getElem?_modify_ne _ _ (Ne.symm hj), List.getElem?_modify_ne _ _ (Ne.symm hj)] at hj'
    · have hi := hget i
      rwa [List.getElem?_modify_eq, List.getElem?_modify_eq] at hi
  · rintro ⟨hother, hself⟩
    refine List.ext_getElem? fun j => ?_
    by_cases hj : j = i
    · subst hj
      rwa [List.getElem?_modify_eq, List.getElem?_modify_eq]
    · rw [List.getElem?_modify_ne _ _ (Ne.symm hj), List.getElem?_modify_ne _ _ (Ne.symm hj), hother j hj]

/-- A fold that keeps its accumulators alike at every entry keeps them alike. -/
theorem foldl {γ : Type*} {f : σ → γ → σ} {g : τ → γ → τ} (hf : ∀ s t x, S s t → S (f s x) (g t x))
    (xs : List γ) {s : σ} {t : τ} (hs : S s t) : S (xs.foldl f s) (xs.foldl g t) := by
  induction xs generalizing s t with
  | nil => exact hs
  | cons x xs ih => exact ih (hf _ _ x hs)

theorem map_eq {γ : Type*} {f : α → γ} {g : β → γ} {x : Option α} {y : Option β}
    (h : Option.Rel R x y) (hf : ∀ a b, R a b → f a = g b) : x.map f = y.map g := by
  cases h with
  | none => rfl
  | some hab => exact congrArg some (hf _ _ hab)

/-- What is picked by first components is the same in lists with the same ones. -/
theorem filterMap_fst {γ : Type*} {f : α × β → Option γ} (hf : ∀ x y, x.1 = y.1 → f x = f y)
    {xs ys : List (α × β)} (h : xs.map Prod.fst = ys.map Prod.fst) : xs.filterMap f = ys.filterMap f := by
  induction xs generalizing ys with
  | nil =>
      rw [List.map_nil, eq_comm, List.map_eq_nil_iff] at h
      rw [h]
  | cons x xs ih =>
      obtain ⟨y, ys', rfl, hy, htail⟩ := List.map_eq_cons_iff.mp h.symm
      rw [List.filterMap_cons, List.filterMap_cons, hf x y hy.symm, ih htail.symm]

end Entrywise
