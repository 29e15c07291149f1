/-
  RfqSettlement.Lib.Path

  Singly linked lists: nodes that carry the name of the next node, or nil.
  `Path name next head as tail` says that the link `head` leads through exactly
  the nodes `as`, in order, to the link `tail`.

  Pushing in front, and unlinking the front node or one behind another, are one
  lemma each; a path only depends on the nodes it visits (`Path.congr`), so
  several can share a store.
-/

import Mathlib.Data.List.Nodup

namespace Intrusive

variable {α ι : Type*}

def Path (name : α → ι) (next : α → Option (Option ι)) : Option ι → List α → Option ι → Prop
  | head, [], tail => head = tail
  | head, a :: as, tail => head = some (name a) ∧ ∃ n, next a = some n ∧ Path name next n as tail

variable {name : α → ι} {next next' : α → Option (Option ι)} {head tail n : Option ι} {a p : α}
  {as xs ys : List α}

@[simp] theorem path_nil : Path name next head [] tail ↔ head = tail := Iff.rfl

theorem path_cons :
    Path name next head (a :: as) tail ↔
      head = some (name a) ∧ ∃ n, next a = some n ∧ Path name next n as tail :=
  Iff.rfl

theorem path_append :
    Path name next head (xs ++ ys) tail ↔
      ∃ m, Path name next head xs m ∧ Path name next m ys tail := by
  induction xs generalizing head with
  | nil => simp
  | cons x xs ih =>
      simp only [List.cons_append, path_cons, ih]
      constructor
      · rintro ⟨hhead, n, hn, m, hxs, hys⟩
        exact ⟨m, ⟨hhead, n, hn, hxs⟩, hys⟩
      · rintro ⟨m, ⟨hhead, n, hn, hxs⟩, hys⟩
        exact ⟨hhead, n, hn, m, hxs, hys⟩

/-- A path only depends on the nodes it visits. -/
theorem Path.congr (h : Path name next head as tail) (hnext : ∀ a ∈ as, next' a = next a) :
    Path name next' head as tail := by
  induction as generalizing head with
  | nil => exact h
  | cons a as ih =>
      obtain ⟨hhead, n, hn, hrest⟩ := h
      exact ⟨hhead, n, (hnext a (by simp)).trans hn,
        ih hrest fun b hb => hnext b (by simp [hb])⟩

/-- A path to nil starts at its first node. -/
theorem Path.head_eq (h : Path name next head as none) : head = as.head?.map name := by
  cases as with
  | nil => exact h
  | cons a as => exact h.1

/-- Every node of a path is stored. -/
theorem Path.isSome_of_mem (h : Path name next head as tail) (ha : a ∈ as) : (next a).isSome := by
  induction as generalizing head with
  | nil => cases ha
  | cons b as ih =>
      obtain ⟨-, n, hn, hrest⟩ := h
      rcases List.mem_cons.mp ha with rfl | ha
      · simp [hn]
      · exact ih hrest ha

/-- The front node goes: the head takes its successor. -/
theorem Path.unlinkHead (h : Path name next head (a :: as) tail) (hn : next a = some n) :
    Path name next n as tail := by
  obtain ⟨-, n', hn', hrest⟩ := h
  rw [hn, Option.some.injEq] at hn'
  exact hn' ▸ hrest

/-- A node behind `p` goes: `p` takes its successor. -/
theorem Path.unlinkAfter (h : Path name next head (xs ++ p :: a :: ys) tail) (hn : next a = some n)
    (hp : next' p = some n) (hnext : ∀ b ∈ xs ++ ys, next' b = next b) :
    Path name next' head (xs ++ p :: ys) tail := by
  obtain ⟨m, hxs, hm, n', hn', hrest⟩ := path_append.mp h
  refine path_append.mpr ⟨m, hxs.congr fun b hb => hnext b (by simp [hb]), hm, n, hp, ?_⟩
  exact (hrest.unlinkHead hn).congr fun b hb => hnext b (by simp [hb])

/-- A node comes in front. -/
theorem Path.push (h : Path name next head as tail) (ha : next' a = some head)
    (hnext : ∀ b ∈ as, next' b = next b) : Path name next' (some (name a)) (a :: as) tail :=
  ⟨rfl, head, ha, h.congr hnext⟩

end Intrusive
