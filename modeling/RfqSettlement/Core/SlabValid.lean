/-
  RfqSettlement.Core.SlabValid

  Totals over the occupied slots of a slab, and the validity of its free list.

    * `Slab.sum s f`  adds `f` over the stored values; `sum_insert`,
      `sum_remove` and `sum_modify` say how each operation moves it.
    * `Slab.Valid s`  the free list is acyclic and is exactly the vacant slots
      that were not retired, and `live` counts the occupied slots.  Every
      operation keeps it, and it is what makes `hasRoom` tell the truth.
-/

import RfqSettlement.Core.Slab
import RfqSettlement.Lib.ListSum
import Mathlib.Algebra.Order.BigOperators.Group.List
import Mathlib.Algebra.Order.Group.Nat

namespace RfqSettlement

namespace Slab

variable {kind : SlabKind} {α : Type} {s s' : Slab kind α} {handle handle' : Handle kind}
  {value : α} {f : α → α} {index : Nat}

-- ============================================================================
-- Totals
-- ============================================================================

/-- What a slot contributes to a total. -/
def slotTotal (f : α → Nat) (slot : Slot α) : Nat :=
  match slot.state with
  | .occupied value => f value
  | .vacant _ => 0

/-- The total of `f` over the stored values. -/
def sum (s : Slab kind α) (f : α → Nat) : Nat :=
  (s.slots.map (slotTotal f)).sum

/-- The number of occupied slots. -/
def count (s : Slab kind α) : Nat := s.sum fun _ => 1

theorem sum_modify (g : α → Nat) (h : s.get handle = some value) :
    (s.modify handle f).sum g + g value = s.sum g + g (f value) := by
  rw [modify_of_get h]
  exact List.sum_map_set_add _ _ (get_eq_some.mp h)

/-- A total that does not see what an assignment writes is unchanged by it. -/
theorem sum_modify_of_eq (g : α → Nat) (hg : ∀ v, g (f v) = g v) :
    (s.modify handle f).sum g = s.sum g := by
  cases h : s.get handle with
  | none => rw [modify_of_stale h]
  | some v =>
      have := sum_modify (f := f) g h
      rw [hg] at this
      omega

theorem sum_modifyAt_of_eq (g : α → Nat) (hg : ∀ v, g (f v) = g v) :
    (s.modifyAt index f).sum g = s.sum g := by
  unfold modifyAt
  split
  · exact sum_modify_of_eq g hg
  · rfl

theorem sum_remove (g : α → Nat) (h : s.get handle = some value) :
    (s.remove handle).2.sum g + g value = s.sum g := by
  obtain ⟨generation, next, hslots⟩ := remove_slots h
  have hset := List.sum_map_set_add ⟨generation, .vacant next⟩ (slotTotal g) (get_eq_some.mp h)
  simp only [sum, hslots]
  simpa [slotTotal] using hset

theorem sum_insert (g : α → Nat) (h : s.insert value = some (handle, s')) :
    s'.sum g = s.sum g + g value := by
  unfold insert at h
  split at h
  · cases h
  next index hhead =>
  split at h
  next generation next hslot =>
    simp only [Option.some.injEq, Prod.mk.injEq] at h
    obtain ⟨rfl, rfl⟩ := h
    have hset := List.sum_map_set_add ⟨generation, .occupied value⟩ (slotTotal g) hslot
    simpa [sum, slotTotal] using hset
  · cases h

theorem sum_withCapacity (g : α → Nat) (n : Nat) : (withCapacity kind α n).sum g = 0 := by
  simp [sum, withCapacity, slotTotal, Function.comp_def]

/-- Splitting a total. -/
theorem sum_add (g g' : α → Nat) : s.sum (fun v => g v + g' v) = s.sum g + s.sum g' := by
  unfold sum
  induction s.slots with
  | nil => rfl
  | cons slot slots ih =>
      simp only [List.map_cons, List.sum_cons, ih]
      cases hstate : slot.state with
      | vacant next => simp [slotTotal, hstate]
      | occupied v =>
          simp only [slotTotal, hstate]
          omega

theorem sum_le_sum {g g' : α → Nat} (h : ∀ handle v, s.get handle = some v → g v ≤ g' v) :
    s.sum g ≤ s.sum g' := by
  unfold sum
  apply List.sum_le_sum
  intro slot hslot
  obtain ⟨index, hindex⟩ := List.mem_iff_getElem?.mp hslot
  obtain ⟨generation, state⟩ := slot
  cases state with
  | vacant next => simp [slotTotal]
  | occupied v => exact h ⟨index, generation⟩ v (get_eq_some.mpr hindex)

@[simp] theorem sum_zero : s.sum (fun _ => 0) = 0 := by
  unfold sum
  induction s.slots with
  | nil => rfl
  | cons slot slots ih =>
      simp only [List.map_cons, List.sum_cons, ih]
      cases hstate : slot.state <;> simp [slotTotal, hstate]

theorem sum_congr {g g' : α → Nat} (h : ∀ handle v, s.get handle = some v → g v = g' v) :
    s.sum g = s.sum g' :=
  Nat.le_antisymm (sum_le_sum fun handle v hv => (h handle v hv).le)
    (sum_le_sum fun handle v hv => (h handle v hv).ge)

theorem le_sum (g : α → Nat) (h : s.get handle = some value) : g value ≤ s.sum g := by
  have := sum_remove g h
  omega

theorem sum_eq_zero {g : α → Nat} (h : ∀ handle v, s.get handle = some v → g v = 0) :
    s.sum g = 0 := by
  exact (sum_congr h).trans sum_zero

/-- A duplicate-free list naming exactly the slots whose value satisfies `P`
    carries the total over those values. -/
theorem sum_of_members {is : List Nat} {P : α → Prop} [DecidablePred P] (g : α → Nat)
    (hnodup : is.Nodup) (hmem : ∀ i, i ∈ is ↔ ∃ v, s.valueAt i = some v ∧ P v) :
    (is.map fun i => (s.valueAt i).elim 0 g).sum = s.sum fun v => if P v then g v else 0 := by
  have hval : ∀ i ∈ is, (s.valueAt i).elim 0 g =
      (s.slots[i]?).elim 0 (slotTotal fun v => if P v then g v else 0) := by
    intro i hi
    obtain ⟨v, hv, hP⟩ := (hmem i).mp hi
    obtain ⟨handle, rfl, hget⟩ := valueAt_eq_some.mp hv
    rw [hv, get_eq_some.mp hget]
    simp [slotTotal, hP]
  rw [List.map_congr_left hval]
  apply List.sum_map_of_selection _ hnodup
  · intro i hi
    obtain ⟨v, hv, -⟩ := (hmem i).mp hi
    obtain ⟨handle, rfl, hget⟩ := valueAt_eq_some.mp hv
    exact length_of_get hget
  · intro i slot hslot hi
    obtain ⟨generation, state⟩ := slot
    cases state with
    | vacant next => rfl
    | occupied v =>
        have hv : s.valueAt i = some v :=
          valueAt_eq_some.mpr ⟨⟨i, generation⟩, rfl, get_eq_some.mpr hslot⟩
        have hP : ¬ P v := fun hP => hi ((hmem i).mpr ⟨v, hv, hP⟩)
        simp [slotTotal, hP]

-- ============================================================================
-- The free list
-- ============================================================================

/-- The vacant slots reached from `head`, in order. -/
def FreeChain (slots : List (Slot α)) : Link → List Nat → Prop
  | head, [] => head = none
  | head, i :: is => head = some i ∧
      ∃ generation next, slots[i]? = some ⟨generation, .vacant next⟩ ∧ FreeChain slots next is

/-- `free` is the free list: duplicate-free, and missing only retired slots. -/
structure FreeList (s : Slab kind α) (free : List Nat) : Prop where
  chain : FreeChain s.slots s.freeHead free
  nodup : free.Nodup
  retired : ∀ i generation next, s.slots[i]? = some ⟨generation, .vacant next⟩ → i ∉ free →
    generation = u32Max

/-- The slab's own invariant. -/
structure Valid (s : Slab kind α) : Prop where
  free : ∃ free, s.FreeList free
  live : s.live = s.count
  capacity : s.slots.length < u32Max
  generation : ∀ (i : Nat) (slot : Slot α), s.slots[i]? = some slot → slot.generation ≤ u32Max

theorem FreeChain.vacant {slots : List (Slot α)} {head : Link} {is : List Nat}
    (h : FreeChain slots head is) {i : Nat} (hi : i ∈ is) :
    ∃ generation next, slots[i]? = some ⟨generation, .vacant next⟩ := by
  induction is generalizing head with
  | nil => cases hi
  | cons x xs ih =>
      obtain ⟨-, generation, next, hslot, hrest⟩ := h
      rcases List.mem_cons.mp hi with rfl | hi
      · exact ⟨generation, next, hslot⟩
      · exact ih hrest hi

/-- Writing a slot off the list leaves the list alone. -/
theorem FreeChain.set {slots : List (Slot α)} {head : Link} {is : List Nat} {slot : Slot α}
    (h : FreeChain slots head is) (hi : index ∉ is) : FreeChain (slots.set index slot) head is := by
  induction is generalizing head with
  | nil => exact h
  | cons x xs ih =>
      simp only [List.mem_cons, not_or] at hi
      obtain ⟨hhead, generation, next, hslot, hrest⟩ := h
      refine ⟨hhead, generation, next, ?_, ih hrest hi.2⟩
      rw [List.getElem?_set_ne hi.1, hslot]

theorem count_le_capacity : s.count ≤ s.slots.length := by
  unfold count sum
  induction s.slots with
  | nil => rfl
  | cons slot slots ih =>
      simp only [List.map_cons, List.sum_cons, List.length_cons]
      have : slotTotal (fun _ => 1) slot ≤ 1 := by
        cases hstate : slot.state <;> simp [slotTotal, hstate]
      omega

/-- The generations of the slots. -/
def generations (s : Slab kind α) : List Nat := s.slots.map Slot.generation

theorem length_modify : (s.modify handle f).slots.length = s.slots.length := by
  cases h : s.get handle with
  | none => rw [modify_of_stale h]
  | some v => simp [modify_of_get h]

theorem length_remove : (s.remove handle).2.slots.length = s.slots.length := by
  cases h : s.get handle with
  | none => rw [remove_of_stale h]
  | some v =>
      obtain ⟨generation, next, hslots⟩ := remove_slots h
      simp [hslots]

/-- A freed slot can be used again, unless its generations are spent. -/
theorem hasRoom_remove (h : s.get handle = some value) :
    (s.remove handle).2.hasRoom = (s.hasRoom || decide (handle.generation + 1 ≤ u32Max)) := by
  have hget := get_eq_some.mp h
  simp only [remove, hget, if_true, hasRoom]
  split
  next hgen => simp [hgen]
  next hgen => simp [hgen]

/-- Writing a slot whose generation is in range keeps every generation in range. -/
theorem generation_set {slots : List (Slot α)} {new : Slot α} (hnew : new.generation ≤ u32Max)
    (h : ∀ (i : Nat) (slot : Slot α), slots[i]? = some slot → slot.generation ≤ u32Max) (i : Nat)
    (slot : Slot α) (hslot : (slots.set index new)[i]? = some slot) :
    slot.generation ≤ u32Max := by
  by_cases hi : index = i
  · subst hi
    simp only [List.getElem?_set, if_true, Option.ite_none_right_eq_some, Option.some.injEq]
      at hslot
    rw [← hslot.2]
    exact hnew
  · rw [List.getElem?_set_ne hi] at hslot
    exact h i slot hslot

private theorem set_of_getElem? {β : Type} {xs : List β} {x : β} (h : xs[index]? = some x) :
    xs.set index x = xs := by
  obtain ⟨hlt, rfl⟩ := List.getElem?_eq_some_iff.mp h
  exact List.set_getElem_self hlt

theorem generations_modify : (s.modify handle f).generations = s.generations := by
  cases h : s.get handle with
  | none => rw [modify_of_stale h]
  | some v =>
      have hslot := get_eq_some.mp h
      rw [modify_of_get h]
      simp only [generations, List.map_set]
      exact set_of_getElem? (by simp [hslot])

theorem generations_insert (h : s.insert value = some (handle, s')) :
    s'.generations = s.generations := by
  unfold Slab.insert at h
  split at h
  · cases h
  split at h
  next generation next hslot =>
    simp only [Option.some.injEq, Prod.mk.injEq] at h
    obtain ⟨-, rfl⟩ := h
    simp only [generations, List.map_set]
    exact set_of_getElem? (by simp [hslot])
  · cases h

/-- A slab without room is full, unless one of its slots was retired. -/
theorem Valid.count_of_not_hasRoom (h : s.Valid) (hroom : s.hasRoom = false)
    (hfresh : ∀ generation ∈ s.generations, generation < u32Max) :
    s.count = s.slots.length := by
  obtain ⟨free, hchain, -, hretired⟩ := h.free
  have hfree : free = [] := by
    cases free with
    | nil => rfl
    | cons i is =>
        have hnone : s.freeHead = none := by simpa [hasRoom] using hroom
        rw [show s.freeHead = some i from hchain.1] at hnone
        cases hnone
  have hone : ∀ slot ∈ s.slots, slotTotal (fun _ => 1) slot = 1 := by
    rintro ⟨generation, state⟩ hslot
    cases state with
    | occupied v => rfl
    | vacant next =>
        obtain ⟨i, hi⟩ := List.mem_iff_getElem?.mp hslot
        have hgen := hretired i generation next hi (by simp [hfree])
        have hlt := hfresh generation (List.mem_map.mpr ⟨_, hslot, rfl⟩)
        omega
  rw [count, sum, List.map_congr_left hone]
  simp

/-- A valid slab with room hands out a handle. -/
theorem Valid.insert_isSome (h : s.Valid) (hroom : s.hasRoom) (value : α) :
    (s.insert value).isSome := by
  obtain ⟨free, hchain, -, -⟩ := h.free
  unfold hasRoom at hroom
  cases free with
  | nil => rw [show s.freeHead = none from hchain] at hroom; cases hroom
  | cons i is =>
      obtain ⟨hhead, generation, next, hslot, -⟩ := hchain
      simp [insert, hhead, hslot]

theorem insert_eq_none_of_not_hasRoom (h : s.hasRoom = false) : s.insert value = none := by
  have : s.freeHead = none := by simpa [hasRoom] using h
  simp [insert, this]

/-- An occupied slot is not on the free list. -/
theorem FreeList.not_mem {free : List Nat} (hfree : s.FreeList free)
    (h : s.get handle = some value) : handle.index ∉ free := by
  intro hi
  obtain ⟨g, n, hg⟩ := hfree.chain.vacant hi
  rw [get_eq_some.mp h] at hg
  cases hg

/-- Inserting takes the first free slot. -/
theorem FreeList.insert {free : List Nat} (hfree : s.FreeList free)
    (h : s.insert value = some (handle, s')) :
    ∃ rest, free = handle.index :: rest ∧ s'.FreeList rest := by
  unfold Slab.insert at h
  split at h
  · cases h
  next index hhead =>
  split at h
  next generation next hslot =>
    simp only [Option.some.injEq, Prod.mk.injEq] at h
    obtain ⟨rfl, rfl⟩ := h
    obtain ⟨hchain, hnodup, hretired⟩ := hfree
    cases free with
    | nil =>
      rw [show s.freeHead = none from hchain] at hhead
      cases hhead
    | cons i is =>
      obtain ⟨hi, generation', next', hslot', hrest⟩ := hchain
      rw [hhead, Option.some.injEq] at hi
      subst hi
      rw [hslot, Option.some.injEq, Slot.mk.injEq, SlotState.vacant.injEq] at hslot'
      obtain ⟨rfl, rfl⟩ := hslot'
      obtain ⟨hnot, hnodup⟩ := List.nodup_cons.mp hnodup
      refine ⟨is, rfl, hrest.set hnot, hnodup, ?_⟩
      intro j g n hj hjfree
      by_cases hij : index = j
      · subst hij
        simp [(List.getElem?_eq_some_iff.mp hslot).1] at hj
      · rw [List.getElem?_set_ne hij] at hj
        exact hretired j g n hj (by simp [Ne.symm hij, hjfree])
  · cases h

theorem FreeList.modify {free : List Nat} (hfree : s.FreeList free) :
    (s.modify handle f).FreeList free := by
  cases h : s.get handle with
  | none => rw [modify_of_stale h]; exact hfree
  | some v =>
      have hnot := hfree.not_mem h
      rw [modify_of_get h]
      refine ⟨hfree.chain.set hnot, hfree.nodup, ?_⟩
      intro j g n hj hjfree
      by_cases hij : handle.index = j
      · subst hij
        simp [length_of_get h] at hj
      · rw [List.getElem?_set_ne hij] at hj
        exact hfree.retired j g n hj hjfree

/-- Removing puts a slot first, or retires it. -/
theorem FreeList.remove {free : List Nat} (hfree : s.FreeList free) (h : s.get handle = some value)
    (hmax : handle.generation ≤ u32Max) :
    (s.remove handle).2.FreeList
      (if handle.generation + 1 ≤ u32Max then handle.index :: free else free) := by
  have hnot := hfree.not_mem h
  have hlt := length_of_get h
  obtain ⟨hchain, hnodup, hretired⟩ := hfree
  unfold Slab.remove
  simp only [get_eq_some.mp h, if_true]
  by_cases hgen : handle.generation + 1 ≤ u32Max
  · rw [if_pos hgen, if_pos hgen]
    refine ⟨⟨rfl, handle.generation + 1, s.freeHead, ?_, hchain.set hnot⟩, ?_, ?_⟩
    · simp [hlt]
    · exact List.nodup_cons.mpr ⟨hnot, hnodup⟩
    · intro j g n hj hjfree
      simp only [List.mem_cons, not_or] at hjfree
      rw [List.getElem?_set_ne (Ne.symm hjfree.1)] at hj
      exact hretired j g n hj hjfree.2
  · rw [if_neg hgen, if_neg hgen]
    refine ⟨hchain.set hnot, hnodup, ?_⟩
    intro j g n hj hjfree
    by_cases hij : handle.index = j
    · subst hij
      simp only [List.getElem?_set, if_true, Option.ite_none_right_eq_some,
        Option.some.injEq, Slot.mk.injEq] at hj
      omega
    · rw [List.getElem?_set_ne hij] at hj
      exact hretired j g n hj hjfree

theorem Valid.insert (hs : s.Valid) (h : s.insert value = some (handle, s')) : s'.Valid := by
  have hcount : s'.count = s.count + 1 := sum_insert _ h
  obtain ⟨free, hfree⟩ := hs.free
  obtain ⟨rest, -, hrest⟩ := hfree.insert h
  unfold Slab.insert at h
  split at h
  · cases h
  next index hhead =>
  split at h
  next generation next hslot =>
    simp only [Option.some.injEq, Prod.mk.injEq] at h
    obtain ⟨rfl, rfl⟩ := h
    refine ⟨⟨rest, hrest⟩, ?_, by simpa using hs.capacity, ?_⟩
    · have hle : s.count < s.slots.length ∨ s.count = s.slots.length := by
        have := count_le_capacity (s := s)
        omega
      have := hs.capacity
      rw [hcount]
      simp only [hs.live]
      omega
    · have hgen := hs.generation _ _ hslot
      exact generation_set hgen hs.generation
  · cases h

theorem Valid.modify (hs : s.Valid) : (s.modify handle f).Valid := by
  cases h : s.get handle with
  | none => rw [modify_of_stale h]; exact hs
  | some v =>
      have hcount : (s.modify handle f).count = s.count := sum_modify_of_eq _ fun _ => rfl
      obtain ⟨free, hfree⟩ := hs.free
      have hkept : (s.modify handle f).FreeList free := hfree.modify
      have hslot := get_eq_some.mp h
      rw [modify_of_get h] at hcount hkept ⊢
      exact ⟨⟨free, hkept⟩, hs.live.trans hcount.symm, by simpa using hs.capacity,
        generation_set (hs.generation _ ⟨handle.generation, .occupied v⟩ hslot) hs.generation⟩

theorem Valid.modifyAt (hs : s.Valid) : (s.modifyAt index f).Valid := by
  unfold Slab.modifyAt
  split
  · exact hs.modify
  · exact hs

theorem length_modifyAt : (s.modifyAt index f).slots.length = s.slots.length := by
  unfold modifyAt
  split
  · exact length_modify
  · rfl

theorem length_insert (h : s.insert value = some (handle, s')) :
    s'.slots.length = s.slots.length := by
  unfold Slab.insert at h
  split at h
  · cases h
  split at h
  · simp only [Option.some.injEq, Prod.mk.injEq] at h
    obtain ⟨-, rfl⟩ := h
    simp
  · cases h

/-- A slab that can take a value is not full. -/
theorem Valid.count_lt_of_hasRoom (h : s.Valid) (hroom : s.hasRoom = true) (value : α) :
    s.count < s.slots.length := by
  obtain ⟨⟨handle, s'⟩, hins⟩ := Option.isSome_iff_exists.mp (h.insert_isSome hroom value)
  have hcount : s'.count = s.count + 1 := sum_insert (fun _ => 1) hins
  have hle : s'.count ≤ s'.slots.length := count_le_capacity
  rw [length_insert hins] at hle
  omega

theorem Valid.remove (hs : s.Valid) : (s.remove handle).2.Valid := by
  cases h : s.get handle with
  | none => rw [remove_of_stale h]; exact hs
  | some v =>
      have hcount : (s.remove handle).2.count + 1 = s.count := sum_remove _ h
      have hslot := get_eq_some.mp h
      have hmax : handle.generation ≤ u32Max := hs.generation _ _ hslot
      obtain ⟨free, hfree⟩ := hs.free
      have hkept := hfree.remove h hmax
      have hlive := hs.live
      refine ⟨⟨_, hkept⟩, ?_, by rw [length_remove]; exact hs.capacity, ?_⟩
      · unfold Slab.remove at hcount ⊢
        simp only [hslot, if_true] at hcount ⊢
        split at hcount
        all_goals
          next hgen =>
          first | rw [if_pos hgen] | rw [if_neg hgen]
          simp only at hcount ⊢
          omega
      · unfold Slab.remove
        simp only [hslot, if_true]
        split
        next hgen => exact generation_set hgen hs.generation
        next hgen => exact generation_set hmax hs.generation

-- ============================================================================
-- Spent handles
-- ============================================================================

/-- A handle that names nothing and never will: its slot is of a later generation, or
    was retired at this one. -/
def Spent (s : Slab kind α) (handle : Handle kind) : Prop :=
  ∃ free slot, s.FreeList free ∧ s.slots[handle.index]? = some slot ∧
    (handle.generation < slot.generation ∨
      handle.generation = slot.generation ∧ (∃ next, slot.state = .vacant next) ∧
        handle.index ∉ free)

theorem Spent.get (h : s.Spent handle) : s.get handle = none := by
  obtain ⟨free, ⟨generation, state⟩, -, hslot, hlater⟩ := h
  cases hget : s.get handle with
  | none => rfl
  | some v =>
      rw [get_eq_some.mp hget, Option.some.injEq, Slot.mk.injEq] at hslot
      obtain ⟨rfl, rfl⟩ := hslot
      rcases hlater with hlt | ⟨-, ⟨next, hstate⟩, -⟩
      · exact absurd hlt (Nat.lt_irrefl _)
      · cases hstate

/-- A removed handle is spent. -/
theorem Valid.spent_remove (hs : s.Valid) (h : s.get handle = some value) :
    (s.remove handle).2.Spent handle := by
  obtain ⟨free, hfree⟩ := hs.free
  have hslot := get_eq_some.mp h
  have hkept := hfree.remove h (hs.generation _ _ hslot)
  have hlt := length_of_get h
  have hnot := hfree.not_mem h
  unfold Slab.remove at hkept ⊢
  simp only [hslot, if_true] at hkept ⊢
  by_cases hgen : handle.generation + 1 ≤ u32Max
  · rw [if_pos hgen] at hkept ⊢
    exact ⟨_, _, hkept, List.getElem?_set_self hlt, .inl (Nat.lt_succ_self _)⟩
  · rw [if_neg hgen, if_neg hgen] at hkept
    rw [if_neg hgen]
    exact ⟨_, _, hkept, List.getElem?_set_self hlt, .inr ⟨rfl, ⟨_, rfl⟩, hnot⟩⟩

theorem Spent.modify (h : s.Spent handle') : (s.modify handle f).Spent handle' := by
  cases hget : s.get handle with
  | none => rwa [modify_of_stale hget]
  | some v =>
      obtain ⟨free, slot, hfree, hslot, hlater⟩ := h
      have hkept : (s.modify handle f).FreeList free := hfree.modify
      rw [modify_of_get hget] at hkept ⊢
      by_cases hi : handle.index = handle'.index
      · rw [← hi, get_eq_some.mp hget, Option.some.injEq] at hslot
        subst hslot
        refine ⟨free, ⟨handle.generation, .occupied (f v)⟩, hkept, ?_, .inl ?_⟩
        · rw [← hi]
          exact List.getElem?_set_self (length_of_get hget)
        · rcases hlater with hlt | ⟨-, ⟨next, hstate⟩, -⟩
          · exact hlt
          · cases hstate
      · exact ⟨free, slot, hkept, by rw [List.getElem?_set_ne hi]; exact hslot, hlater⟩

theorem Spent.remove (hs : s.Valid) (h : s.Spent handle') :
    (s.remove handle).2.Spent handle' := by
  cases hget : s.get handle with
  | none => rwa [remove_of_stale hget]
  | some v =>
      obtain ⟨free, slot, hfree, hslot, hlater⟩ := h
      have hkept := hfree.remove hget (hs.generation _ _ (get_eq_some.mp hget))
      obtain ⟨generation, next, hslots, hgen⟩ : ∃ generation next,
          (s.remove handle).2.slots = s.slots.set handle.index ⟨generation, .vacant next⟩ ∧
            handle.generation ≤ generation := by
        unfold Slab.remove
        simp only [get_eq_some.mp hget, if_true]
        split
        · exact ⟨_, _, rfl, Nat.le_succ _⟩
        · exact ⟨_, _, rfl, Nat.le_refl _⟩
      by_cases hi : handle.index = handle'.index
      · rw [← hi, get_eq_some.mp hget, Option.some.injEq] at hslot
        subst hslot
        refine ⟨_, ⟨generation, .vacant next⟩, hkept, ?_, .inl ?_⟩
        · rw [hslots, ← hi]
          exact List.getElem?_set_self (length_of_get hget)
        · rcases hlater with hlt | ⟨-, ⟨next, hstate⟩, -⟩
          · exact Nat.lt_of_lt_of_le hlt hgen
          · cases hstate
      · refine ⟨_, slot, hkept, by rw [hslots, List.getElem?_set_ne hi]; exact hslot, ?_⟩
        refine hlater.imp_right fun ⟨heq, hvacant, hnot⟩ => ⟨heq, hvacant, ?_⟩
        split
        · rw [List.mem_cons, not_or]
          exact ⟨Ne.symm hi, hnot⟩
        · exact hnot

theorem Spent.insert (hs : s.Spent handle') (h : s.insert value = some (handle, s')) :
    s'.Spent handle' := by
  obtain ⟨free, slot, hfree, hslot, hlater⟩ := hs
  obtain ⟨rest, rfl, hrest⟩ := hfree.insert h
  have hget : s'.get handle = some value := by
    rw [(get_insert h).2 handle, if_pos rfl]
  obtain ⟨hslots, hfresh⟩ : (∃ slot, s'.slots = s.slots.set handle.index slot) ∧
      ∃ next, s.slots[handle.index]? = some ⟨handle.generation, .vacant next⟩ := by
    unfold Slab.insert at h
    split at h
    · cases h
    split at h
    next hslot =>
      simp only [Option.some.injEq, Prod.mk.injEq] at h
      obtain ⟨rfl, rfl⟩ := h
      exact ⟨⟨_, rfl⟩, _, hslot⟩
    · cases h
  by_cases hi : handle.index = handle'.index
  · obtain ⟨next, hfresh⟩ := hfresh
    rw [← hi, hfresh, Option.some.injEq] at hslot
    subst hslot
    refine ⟨rest, _, hrest, by rw [← hi]; exact get_eq_some.mp hget, .inl ?_⟩
    rcases hlater with hlt | ⟨-, -, hnot⟩
    · exact hlt
    · exact absurd (by simp [hi]) hnot
  · obtain ⟨new, hslots⟩ := hslots
    refine ⟨rest, slot, hrest, by rw [hslots, List.getElem?_set_ne hi]; exact hslot, ?_⟩
    exact hlater.imp_right fun ⟨heq, hvacant, hnot⟩ =>
      ⟨heq, hvacant, fun hmem => hnot (List.mem_cons_of_mem _ hmem)⟩

/-- `s'` is a later state of `s`: a spent handle stays spent, and a stored value is
    stored still or its handle is spent. -/
structure Ages (s s' : Slab kind α) : Prop where
  valid : s'.Valid
  spent : ∀ handle, s.Spent handle → s'.Spent handle
  kept : ∀ handle v, s.get handle = some v →
    (∃ v', s'.get handle = some v') ∨ s'.Spent handle

theorem Ages.refl (hs : s.Valid) : s.Ages s := ⟨hs, fun _ => id, fun _ v hv => .inl ⟨v, hv⟩⟩

theorem Ages.trans {s'' : Slab kind α} (h : s.Ages s') (h' : s'.Ages s'') : s.Ages s'' where
  valid := h'.valid
  spent handle hspent := h'.spent handle (h.spent handle hspent)
  kept handle v hv := by
    rcases h.kept handle v hv with ⟨v', hv'⟩ | hspent
    · exact h'.kept handle v' hv'
    · exact .inr (h'.spent handle hspent)

theorem Valid.ages_insert (hs : s.Valid) (h : s.insert value = some (handle, s')) : s.Ages s' where
  valid := hs.insert h
  spent _ hspent := hspent.insert h
  kept handle' v hv := by
    by_cases heq : handle' = handle
    · exact .inl ⟨value, by rw [(get_insert h).2, if_pos heq]⟩
    · exact .inl ⟨v, by rw [(get_insert h).2, if_neg heq]; exact hv⟩

/-- A fresh slab is threaded from slot to slot. -/
theorem freeChain_withCapacity (kind : SlabKind) (n : Nat) (i : Nat) (hi : i ≤ n) :
    FreeChain (withCapacity kind α n).slots (if n - i = 0 then none else some i)
      (List.range' i (n - i)) := by
  induction hk : n - i generalizing i with
  | zero => simp [FreeChain]
  | succ k ih =>
      have hlt : i < n := by omega
      rw [List.range'_succ]
      refine ⟨by simp, 0, if i + 1 < n then some (i + 1) else none, ?_, ?_⟩
      · simp [withCapacity, hlt]
      · have hrest := ih (i + 1) (by omega) (by omega)
        by_cases hnext : i + 1 < n
        · rw [if_pos hnext]
          rwa [if_neg (by omega)] at hrest
        · rw [if_neg hnext]
          rwa [if_pos (by omega)] at hrest

theorem valid_withCapacity {n : Nat} (h : n < u32Max) : (withCapacity kind α n).Valid := by
  refine ⟨⟨List.range' 0 n, ?_, List.nodup_range', ?_⟩, ?_, by simpa [withCapacity] using h, ?_⟩
  · have hchain := freeChain_withCapacity (α := α) kind n 0 (Nat.zero_le n)
    simp only [Nat.sub_zero] at hchain
    exact hchain
  · intro i g next hi hfree
    exfalso
    apply hfree
    have := (List.getElem?_eq_some_iff.mp hi).1
    simp only [withCapacity, List.length_map, List.length_range] at this
    simp [List.mem_range', this]
  · exact (sum_withCapacity _ n).symm
  · intro i slot hi
    obtain ⟨hlt, rfl⟩ := List.getElem?_eq_some_iff.mp hi
    simp [withCapacity]

theorem get_withCapacity (n : Nat) : (withCapacity kind α n).get handle = none := by
  cases h : (withCapacity kind α n).get handle with
  | none => rfl
  | some v =>
      rw [get_eq_some] at h
      obtain ⟨hlt, heq⟩ := List.getElem?_eq_some_iff.mp h
      simp [withCapacity] at heq

end Slab

end RfqSettlement
