/-
  RfqSettlement.Core.Slab

  The generation-counted slab (`core/src/slab.rs`): slots preallocated to a
  capacity, an intrusive free list, and handles that carry the generation of
  the slot they were issued against.

  The second half is the interface the ledger's proofs use: how `get` reads
  back each operation, `Slab.sum` (a total over the occupied slots), and
  `Slab.Valid` (the free list is exactly the reusable vacant slots and `live`
  is exactly the number of occupied ones).
-/

import RfqSettlement.Core.Types
import Mathlib.Data.List.Nodup
import Mathlib.Algebra.BigOperators.Group.List.Basic
import Mathlib.Algebra.GroupWithZero.Nat

namespace RfqSettlement

-- ============================================================================
-- The slab
-- ============================================================================

/-- Which of the ledger's preallocated slabs.  It types the handles, so that a
    request handle cannot be passed to the quote slab. -/
inductive SlabKind where
  | reservation
  | request
  | quote
deriving DecidableEq, Repr

/-- A slot index with the generation it was issued against. -/
structure Handle (kind : SlabKind) where
  index : Nat
  generation : Nat
deriving DecidableEq, Repr

/-- What a slot holds: a value, or the free-list link in its place. -/
inductive SlotState (α : Type) where
  | vacant (next : Link)
  | occupied (value : α)
deriving DecidableEq, Repr

structure Slot (α : Type) where
  generation : Nat
  state : SlotState α
deriving DecidableEq, Repr

/-- A preallocated slab with an intrusive free list.  It never grows. -/
structure Slab (kind : SlabKind) (α : Type) where
  slots : List (Slot α)
  freeHead : Link
  live : Nat
deriving DecidableEq, Repr

namespace Slab

variable {kind : SlabKind} {α : Type}

/-- Link each slot to its successor, so allocation walks the slab in order. -/
def withCapacity (kind : SlabKind) (α : Type) (capacity : Nat) : Slab kind α where
  slots := (List.range capacity).map fun index =>
    ⟨0, .vacant (if index + 1 < capacity then some (index + 1) else none)⟩
  freeHead := if capacity = 0 then none else some 0
  live := 0

def capacity (s : Slab kind α) : Nat := s.slots.length

def hasRoom (s : Slab kind α) : Bool := s.freeHead.isSome

def len (s : Slab kind α) : Nat := s.live

/-- Take a free slot, or reject with `SlabFull` (`none`). -/
def insert (s : Slab kind α) (value : α) : Option (Handle kind × Slab kind α) :=
  match s.freeHead with
  | none => none
  | some index =>
    match s.slots[index]? with
    | some ⟨generation, .vacant next⟩ =>
      some (⟨index, generation⟩,
        { slots := s.slots.set index ⟨generation, .occupied value⟩
          freeHead := next
          live := min (s.live + 1) u32Max })
    | _ => none

/-- The entry a handle names, or `none` if the handle is stale. -/
def get (s : Slab kind α) (handle : Handle kind) : Option α :=
  match s.slots[handle.index]? with
  | some ⟨generation, .occupied value⟩ =>
    if generation = handle.generation then some value else none
  | _ => none

/-- Assignment through `get_mut`: nothing happens on a stale handle. -/
def modify (s : Slab kind α) (handle : Handle kind) (f : α → α) : Slab kind α :=
  match s.slots[handle.index]? with
  | some ⟨generation, .occupied value⟩ =>
    if generation = handle.generation then
      { s with slots := s.slots.set handle.index ⟨generation, .occupied (f value)⟩ }
    else s
  | _ => s

/-- Free the slot a handle names.  A stale handle mutates nothing.  The
    generation is bumped first; on overflow the slot is retired, off the free
    list for good. -/
def remove (s : Slab kind α) (handle : Handle kind) : Option α × Slab kind α :=
  match s.slots[handle.index]? with
  | some ⟨generation, .occupied value⟩ =>
    if generation = handle.generation then
      if generation + 1 ≤ u32Max then
        (some value,
          { slots := s.slots.set handle.index ⟨generation + 1, .vacant s.freeHead⟩
            freeHead := some handle.index
            live := s.live - 1 })
      else
        (some value,
          { s with
            slots := s.slots.set handle.index ⟨generation, .vacant none⟩
            live := s.live - 1 })
    else (none, s)
  | _ => (none, s)

/-- The handle naming whatever occupies `index`. -/
def handleAt (s : Slab kind α) (index : Nat) : Option (Handle kind) :=
  match s.slots[index]? with
  | some ⟨generation, .occupied _⟩ => some ⟨index, generation⟩
  | _ => none

/-- Every occupied slot, in ascending index order. -/
def iter (s : Slab kind α) : List (Handle kind × α) :=
  s.slots.zipIdx.filterMap fun (slot, index) =>
    match slot with
    | ⟨generation, .occupied value⟩ => some (⟨index, generation⟩, value)
    | _ => none

/-- The value at a bare index, for walking an intrusive chain. -/
def valueAt (s : Slab kind α) (index : Nat) : Option α :=
  (s.handleAt index).bind s.get

/-- Assignment at a bare index. -/
def modifyAt (s : Slab kind α) (index : Nat) (f : α → α) : Slab kind α :=
  match s.handleAt index with
  | some handle => s.modify handle f
  | none => s

-- ============================================================================
-- Reading an operation back
-- ============================================================================

variable {s s' : Slab kind α} {handle handle' : Handle kind} {value : α} {f : α → α}
  {index : Nat}

theorem get_eq_some :
    s.get handle = some value ↔
      s.slots[handle.index]? = some ⟨handle.generation, .occupied value⟩ := by
  unfold get
  split
  next generation v hslot =>
    by_cases hgen : generation = handle.generation <;> simp [hslot, hgen]
  next hslot =>
    refine ⟨fun h => by simp at h, fun h => absurd h (hslot _ _)⟩

theorem handleAt_eq_some :
    s.handleAt index = some handle ↔ handle.index = index ∧ (s.get handle).isSome := by
  rw [Option.isSome_iff_exists]
  simp only [get_eq_some]
  obtain ⟨i, g⟩ := handle
  unfold handleAt
  split
  next generation v hslot =>
    constructor
    · intro h
      simp only [Option.some.injEq, Handle.mk.injEq] at h
      obtain ⟨rfl, rfl⟩ := h
      exact ⟨rfl, v, hslot⟩
    · rintro ⟨rfl, w, hw⟩
      simp only [hslot, Option.some.injEq, Slot.mk.injEq] at hw
      simp [hw.1]
  next hslot =>
    constructor
    · intro h
      cases h
    · rintro ⟨rfl, w, hw⟩
      exact absurd hw (hslot _ _)

theorem handleAt_of_get (h : s.get handle = some value) : s.handleAt handle.index = some handle :=
  handleAt_eq_some.mpr ⟨rfl, by simp [h]⟩

/-- Two live handles on one slot are the same handle. -/
theorem eq_of_index_eq (h : (s.get handle).isSome) (h' : (s.get handle').isSome)
    (hindex : handle.index = handle'.index) : handle = handle' := by
  have h₁ := handleAt_eq_some.mpr ⟨rfl, h⟩
  have h₂ := handleAt_eq_some.mpr ⟨rfl, h'⟩
  rw [hindex] at h₁
  exact Option.some.inj (h₁.symm.trans h₂)

theorem valueAt_eq_some :
    s.valueAt index = some value ↔ ∃ handle, handle.index = index ∧ s.get handle = some value := by
  unfold valueAt
  simp only [Option.bind_eq_some_iff, handleAt_eq_some]
  constructor
  · rintro ⟨handle, ⟨hi, -⟩, hv⟩
    exact ⟨handle, hi, hv⟩
  · rintro ⟨handle, hi, hv⟩
    exact ⟨handle, ⟨hi, by simp [hv]⟩, hv⟩

theorem valueAt_of_get (h : s.get handle = some value) : s.valueAt handle.index = some value :=
  valueAt_eq_some.mpr ⟨handle, rfl, h⟩

theorem modify_of_get (h : s.get handle = some value) :
    s.modify handle f =
      { s with slots := s.slots.set handle.index ⟨handle.generation, .occupied (f value)⟩ } := by
  rw [get_eq_some] at h
  simp [modify, h]

theorem modify_of_stale (h : s.get handle = none) : s.modify handle f = s := by
  unfold modify
  split
  next generation v hslot =>
    by_cases hgen : generation = handle.generation
    · subst hgen
      simp [get_eq_some.mpr hslot] at h
    · simp [hgen]
  next => rfl

theorem length_of_get (h : s.get handle = some value) : handle.index < s.slots.length := by
  rw [get_eq_some] at h
  exact (List.getElem?_eq_some_iff.mp h).1

theorem get_modify :
    (s.modify handle f).get handle' = if handle' = handle then (s.get handle).map f
      else s.get handle' := by
  cases hget : s.get handle with
  | none =>
    rw [modify_of_stale hget]
    split
    next heq => simp [heq, hget]
    next => rfl
  | some value =>
    have hlt := length_of_get hget
    rw [modify_of_get hget]
    split
    next heq =>
      subst heq
      simp only [Option.map_some, get_eq_some]
      simp [hlt]
    next hne =>
      by_cases hindex : handle'.index = handle.index
      · have hstale : s.get handle' = none := by
          cases hget' : s.get handle' with
          | none => rfl
          | some v =>
            exact absurd (eq_of_index_eq (s := s) (by simp [hget']) (by simp [hget]) hindex) hne
        have hgen : handle.generation ≠ handle'.generation := by
          intro hgen
          apply hne
          cases handle
          cases handle'
          simp_all
        rw [hstale]
        simp [get, hindex, hlt, hgen]
      · simp [get, List.getElem?_set_ne (Ne.symm hindex)]

theorem get_modify_self : (s.modify handle f).get handle = (s.get handle).map f := by
  simp [get_modify]

theorem get_modify_ne (h : handle' ≠ handle) : (s.modify handle f).get handle' = s.get handle' := by
  simp [get_modify, h]

theorem isSome_get_modify :
    ((s.modify handle f).get handle').isSome = (s.get handle').isSome := by
  rw [get_modify]
  split
  next h => simp [h]
  next => rfl

theorem handleAt_modify : (s.modify handle f).handleAt index = s.handleAt index := by
  apply Option.ext
  intro h
  simp only [handleAt_eq_some, isSome_get_modify]

theorem modifyAt_of_get (h : s.get handle = some value) :
    s.modifyAt handle.index f = s.modify handle f := by
  simp [modifyAt, handleAt_of_get h]

theorem remove_of_stale (h : s.get handle = none) : s.remove handle = (none, s) := by
  unfold remove
  split
  next generation v hslot =>
    by_cases hgen : generation = handle.generation
    · subst hgen
      simp [get_eq_some.mpr hslot] at h
    · simp [hgen]
  next => rfl

theorem remove_fst : (s.remove handle).1 = s.get handle := by
  cases hget : s.get handle with
  | none => rw [remove_of_stale hget]
  | some value =>
    rw [get_eq_some] at hget
    simp only [remove, hget, if_true]
    split <;> rfl

/-- Removing a live entry rewrites one slot to vacant. -/
theorem remove_slots (h : s.get handle = some value) :
    ∃ generation next, (s.remove handle).2.slots =
      s.slots.set handle.index ⟨generation, .vacant next⟩ := by
  rw [get_eq_some] at h
  simp only [remove, h, if_true]
  split
  · exact ⟨_, _, rfl⟩
  · exact ⟨_, _, rfl⟩

theorem get_remove (h : (s.get handle).isSome) :
    (s.remove handle).2.get handle' = if handle' = handle then none else s.get handle' := by
  obtain ⟨value, hget⟩ := Option.isSome_iff_exists.mp h
  obtain ⟨generation, next, hslots⟩ := remove_slots hget
  have hlt := length_of_get hget
  by_cases hindex : handle'.index = handle.index
  · have hnone : (s.remove handle).2.get handle' = none := by
      simp [get, hslots, hindex, hlt]
    rw [hnone]
    split
    next => rfl
    next hne =>
      cases hget' : s.get handle' with
      | none => rfl
      | some v =>
        exact absurd (eq_of_index_eq (s := s) (by simp [hget']) h hindex) hne
  · have hne : handle' ≠ handle := fun e => hindex (by rw [e])
    simp [get, hslots, List.getElem?_set_ne (Ne.symm hindex), hne]

theorem get_insert (h : s.insert value = some (handle, s')) :
    s.get handle = none ∧
      ∀ handle', s'.get handle' = if handle' = handle then some value else s.get handle' := by
  unfold insert at h
  split at h
  · cases h
  next index hhead =>
  split at h
  next generation next hslot =>
    simp only [Option.some.injEq, Prod.mk.injEq] at h
    obtain ⟨rfl, rfl⟩ := h
    have hlt := (List.getElem?_eq_some_iff.mp hslot).1
    refine ⟨by simp [get, hslot], ?_⟩
    intro handle'
    by_cases hindex : handle'.index = index
    · have hstale : s.get handle' = none := by simp [get, hindex, hslot]
      by_cases hgen : generation = handle'.generation
      · have : handle' = ⟨index, generation⟩ := by
          cases handle'
          simp_all
        simp [this, get, hlt]
      · have hne : handle' ≠ ⟨index, generation⟩ := fun e => hgen (by rw [e])
        rw [if_neg hne, hstale]
        simp [get, hindex, hlt, hgen]
    · have hne : handle' ≠ ⟨index, generation⟩ := fun e => hindex (by rw [e])
      simp [get, List.getElem?_set_ne (Ne.symm hindex), hne]
  · cases h

-- ============================================================================
-- Reading an operation back at a bare index
-- ============================================================================

theorem valueAt_eq_none : s.valueAt index = none ↔ s.handleAt index = none := by
  unfold valueAt
  cases h : s.handleAt index with
  | none => simp
  | some handle =>
      obtain ⟨v, hv⟩ := Option.isSome_iff_exists.mp (handleAt_eq_some.mp h).2
      simp [hv]

theorem valueAt_modify (h : (s.get handle).isSome) :
    (s.modify handle f).valueAt index =
      if index = handle.index then (s.valueAt index).map f else s.valueAt index := by
  unfold valueAt
  rw [handleAt_modify]
  cases hat : s.handleAt index with
  | none => simp
  | some handle' =>
      obtain ⟨rfl, hsome⟩ := handleAt_eq_some.mp hat
      simp only [Option.bind_some]
      by_cases heq : handle' = handle
      · subst heq
        simp [get_modify_self]
      · have hindex : handle'.index ≠ handle.index := fun e => heq (eq_of_index_eq hsome h e)
        simp [get_modify_ne heq, hindex]

theorem valueAt_modifyAt {j : Nat} :
    (s.modifyAt index f).valueAt j =
      if j = index then (s.valueAt j).map f else s.valueAt j := by
  unfold modifyAt
  split
  next handle hat =>
      obtain ⟨rfl, hsome⟩ := handleAt_eq_some.mp hat
      exact valueAt_modify hsome
  next hat =>
      split
      next heq => rw [heq, valueAt_eq_none.mpr hat, Option.map_none]
      next => rfl

theorem get_modifyAt :
    (s.modifyAt index f).get handle =
      if handle.index = index then (s.get handle).map f else s.get handle := by
  unfold modifyAt
  split
  next handle' hat =>
      obtain ⟨rfl, hsome⟩ := handleAt_eq_some.mp hat
      rw [get_modify]
      by_cases heq : handle = handle'
      · simp [heq]
      · rw [if_neg heq]
        split
        next hindex =>
            cases hget : s.get handle with
            | none => rfl
            | some v => exact absurd (eq_of_index_eq (s := s) (by simp [hget]) hsome hindex) heq
        next => rfl
  next hat =>
      split
      next hindex =>
          cases hget : s.get handle with
          | none => rfl
          | some v =>
              rw [← hindex, handleAt_of_get hget] at hat
              cases hat
      next => rfl

theorem valueAt_remove (h : (s.get handle).isSome) :
    (s.remove handle).2.valueAt index =
      if index = handle.index then none else s.valueAt index := by
  apply Option.ext
  intro v
  have hsplit : (s.remove handle).2.valueAt index = some v ↔
      ∃ handle', handle'.index = index ∧ handle' ≠ handle ∧ s.get handle' = some v := by
    rw [valueAt_eq_some]
    constructor
    · rintro ⟨handle', hi, hv⟩
      rw [get_remove h] at hv
      split at hv
      next => cases hv
      next hne => exact ⟨handle', hi, hne, hv⟩
    · rintro ⟨handle', hi, hne, hv⟩
      exact ⟨handle', hi, by rw [get_remove h, if_neg hne, hv]⟩
  rw [hsplit]
  split
  next hindex =>
      simp only [reduceCtorEq, iff_false, not_exists, not_and]
      rintro handle' rfl hne hv
      exact hne (eq_of_index_eq (s := s) (by simp [hv]) h hindex)
  next hindex =>
      rw [valueAt_eq_some]
      constructor
      · rintro ⟨handle', hi, -, hv⟩
        exact ⟨handle', hi, hv⟩
      · rintro ⟨handle', hi, hv⟩
        exact ⟨handle', hi, fun e => hindex (by rw [← hi, e]), hv⟩

theorem valueAt_insert (h : s.insert value = some (handle, s')) :
    s.valueAt handle.index = none ∧
      ∀ j, s'.valueAt j = if j = handle.index then some value else s.valueAt j := by
  obtain ⟨-, hget⟩ := get_insert h
  have hfree : s.valueAt handle.index = none := by
    unfold insert at h
    split at h
    · cases h
    split at h
    next hslot =>
      simp only [Option.some.injEq, Prod.mk.injEq] at h
      obtain ⟨rfl, rfl⟩ := h
      rw [valueAt_eq_none]
      simp [handleAt, hslot]
    · cases h
  refine ⟨hfree, fun j => ?_⟩
  split
  next hj =>
      subst hj
      exact valueAt_eq_some.mpr ⟨handle, rfl, by rw [hget, if_pos rfl]⟩
  next hj =>
      apply Option.ext
      intro v
      simp only [valueAt_eq_some]
      constructor
      · rintro ⟨handle', rfl, hv⟩
        rw [hget, if_neg fun e => hj (by rw [e])] at hv
        exact ⟨handle', rfl, hv⟩
      · rintro ⟨handle', rfl, hv⟩
        exact ⟨handle', rfl, by rw [hget, if_neg fun e => hj (by rw [e]), hv]⟩

theorem mem_iter : (handle, value) ∈ s.iter ↔ s.get handle = some value := by
  rw [get_eq_some]
  obtain ⟨index, generation⟩ := handle
  simp only [iter, List.mem_filterMap, Prod.exists, List.mk_mem_zipIdx_iff_getElem?]
  constructor
  · rintro ⟨slot, i, hslot, hmatch⟩
    split at hmatch
    next g v =>
      simp only [Option.some.injEq, Prod.mk.injEq, Handle.mk.injEq] at hmatch
      obtain ⟨⟨rfl, rfl⟩, rfl⟩ := hmatch
      exact hslot
    next => cases hmatch
  · intro hslot
    exact ⟨_, index, hslot, rfl⟩

/-- `iter` names no slot twice. -/
theorem nodup_iter : (s.iter.map Prod.fst).Nodup := by
  have hidx : s.slots.zipIdx.Pairwise fun x y => x.2 ≠ y.2 := by
    have hnodup : (s.slots.zipIdx.map Prod.snd).Nodup := by
      rw [List.zipIdx_map_snd]
      exact List.nodup_range'
    exact List.pairwise_map.mp hnodup
  unfold List.Nodup iter
  rw [List.pairwise_map, List.pairwise_filterMap]
  refine hidx.imp ?_
  rintro ⟨⟨g, state⟩, i⟩ ⟨⟨g', state'⟩, i'⟩ hne x hx y hy
  cases state <;> cases state' <;> simp_all
  rw [← hx, ← hy]
  simp [hne]

end Slab

end RfqSettlement
