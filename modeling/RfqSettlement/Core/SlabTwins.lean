/-
  RfqSettlement.Core.SlabTwins

  Two slabs alike up to what their slots hold.

  `Slab.Twins R` says that two slabs have the same slots free and occupied, at the same
  generations and on the same free list, with values that `R` relates.  No operation of a
  slab looks at a value: each answers alike on two such slabs and leaves two such slabs.
-/

import RfqSettlement.Core.Slab
import RfqSettlement.Lib.Entrywise

namespace RfqSettlement

variable {kind : SlabKind} {α : Type} {R : α → α → Prop}

/-- The same link, or values that `R` relates. -/
inductive SlotState.Twins (R : α → α → Prop) : SlotState α → SlotState α → Prop where
  | vacant {next : Link} : SlotState.Twins R (.vacant next) (.vacant next)
  | occupied {v v' : α} (h : R v v') : SlotState.Twins R (.occupied v) (.occupied v')

structure Slot.Twins (R : α → α → Prop) (x x' : Slot α) : Prop where
  generation : x.generation = x'.generation
  state : SlotState.Twins R x.state x'.state

structure Slab.Twins (R : α → α → Prop) (s s' : Slab kind α) : Prop where
  slots : List.Forall₂ (Slot.Twins R) s.slots s'.slots
  freeHead : s.freeHead = s'.freeHead
  live : s.live = s'.live

namespace Slab

variable {s s' : Slab kind α}

theorem Twins.refl (hR : ∀ v, R v v) (s : Slab kind α) : Twins R s s where
  slots := List.forall₂_same.mpr fun x _ => ⟨rfl, by cases x.state with
    | vacant => exact .vacant
    | occupied v => exact .occupied (hR v)⟩
  freeHead := rfl
  live := rfl

theorem Twins.symm (hR : ∀ v v', R v v' → R v' v) (h : Twins R s s') : Twins R s' s := by
  refine ⟨(h.slots.imp fun x x' hx => ⟨hx.generation.symm, ?_⟩).flip, h.freeHead.symm, h.live.symm⟩
  have hstate := hx.state
  generalize x.state = v at hstate ⊢
  generalize x'.state = v' at hstate ⊢
  cases hstate with
  | vacant => exact .vacant
  | occupied hv => exact .occupied (hR _ _ hv)

theorem Twins.trans {s'' : Slab kind α} (hR : ∀ v v' v'', R v v' → R v' v'' → R v v'') (h : Twins R s s')
    (h' : Twins R s' s'') : Twins R s s'' := by
  refine ⟨?_, h.freeHead.trans h'.freeHead, h.live.trans h'.live⟩
  refine Entrywise.trans (fun x x' x'' hx hx' => ⟨hx.generation.trans hx'.generation, ?_⟩) h.slots h'.slots
  have hstate := hx.state
  have hstate' := hx'.state
  generalize x.state = v at hstate ⊢
  generalize x'.state = v' at hstate hstate'
  generalize x''.state = v'' at hstate' ⊢
  cases hstate with
  | vacant =>
      cases hstate' with
      | vacant => exact .vacant
  | occupied hv =>
      cases hstate' with
      | occupied hv' => exact .occupied (hR _ _ _ hv hv')

/-- What stands in one slot of the two slabs. -/
theorem Twins.slot (h : Twins R s s') (i : Nat) :
    (s.slots[i]? = none ∧ s'.slots[i]? = none) ∨
      (∃ g next, s.slots[i]? = some ⟨g, .vacant next⟩ ∧ s'.slots[i]? = some ⟨g, .vacant next⟩) ∨
      ∃ g v v', R v v' ∧ s.slots[i]? = some ⟨g, .occupied v⟩ ∧ s'.slots[i]? = some ⟨g, .occupied v'⟩ := by
  have hslot := Entrywise.getElem? h.slots i
  generalize s.slots[i]? = x at hslot
  generalize s'.slots[i]? = x' at hslot
  cases hslot with
  | none => exact .inl ⟨rfl, rfl⟩
  | @some x x' hx =>
      obtain ⟨g, state⟩ := x
      obtain ⟨g', state'⟩ := x'
      obtain ⟨hg, hstate⟩ := hx
      obtain rfl : g = g' := hg
      cases hstate with
      | vacant => exact .inr (.inl ⟨g, _, rfl, rfl⟩)
      | occupied hv => exact .inr (.inr ⟨g, _, _, hv, rfl, rfl⟩)

theorem Twins.capacity (h : Twins R s s') : s.capacity = s'.capacity := h.slots.length_eq

theorem Twins.hasRoom (h : Twins R s s') : s.hasRoom = s'.hasRoom := by
  rw [Slab.hasRoom, Slab.hasRoom, h.freeHead]

theorem Twins.get (h : Twins R s s') (handle : Handle kind) :
    Option.Rel R (s.get handle) (s'.get handle) := by
  unfold Slab.get
  rcases h.slot handle.index with ⟨hx, hx'⟩ | ⟨g, next, hx, hx'⟩ | ⟨g, v, v', hv, hx, hx'⟩
  · rw [hx, hx']
    exact .none
  · rw [hx, hx']
    exact .none
  · rw [hx, hx']
    dsimp only
    split
    · exact .some hv
    · exact .none

theorem Twins.handleAt (h : Twins R s s') (i : Nat) : s.handleAt i = s'.handleAt i := by
  unfold Slab.handleAt
  rcases h.slot i with ⟨hx, hx'⟩ | ⟨g, next, hx, hx'⟩ | ⟨g, v, v', hv, hx, hx'⟩
  all_goals rw [hx, hx']

theorem Twins.valueAt (h : Twins R s s') (i : Nat) : Option.Rel R (s.valueAt i) (s'.valueAt i) := by
  rw [Slab.valueAt, Slab.valueAt, h.handleAt]
  cases s'.handleAt i with
  | none => exact .none
  | some handle => exact h.get handle

theorem Twins.modify (h : Twins R s s') (handle : Handle kind) {f f' : α → α}
    (hf : ∀ v v', s.get handle = some v → R v v' → R (f v) (f' v')) :
    Twins R (s.modify handle f) (s'.modify handle f') := by
  unfold Slab.modify
  rcases h.slot handle.index with ⟨hx, hx'⟩ | ⟨g, next, hx, hx'⟩ | ⟨g, v, v', hv, hx, hx'⟩
  · rw [hx, hx']
    exact h
  · rw [hx, hx']
    exact h
  · rw [hx, hx']
    dsimp only
    split
    next hg =>
      have hget : s.get handle = some v := get_eq_some.mpr (by rw [hx, hg])
      exact ⟨Entrywise.set h.slots _ ⟨rfl, .occupied (hf v v' hget hv)⟩, h.freeHead, h.live⟩
    next => exact h

theorem Twins.modifyAt (h : Twins R s s') (i : Nat) {f f' : α → α}
    (hf : ∀ v v', s.valueAt i = some v → R v v' → R (f v) (f' v')) :
    Twins R (s.modifyAt i f) (s'.modifyAt i f') := by
  rw [Slab.modifyAt, Slab.modifyAt, ← h.handleAt]
  cases hhandle : s.handleAt i with
  | none => exact h
  | some handle =>
      refine h.modify handle fun v v' hget hv => hf v v' ?_ hv
      rw [Slab.valueAt, hhandle]
      exact hget

theorem Twins.remove (h : Twins R s s') (handle : Handle kind) :
    Option.Rel R (s.remove handle).1 (s'.remove handle).1 ∧
      Twins R (s.remove handle).2 (s'.remove handle).2 := by
  unfold Slab.remove
  rcases h.slot handle.index with ⟨hx, hx'⟩ | ⟨g, next, hx, hx'⟩ | ⟨g, v, v', hv, hx, hx'⟩
  · rw [hx, hx']
    exact ⟨.none, h⟩
  · rw [hx, hx']
    exact ⟨.none, h⟩
  · rw [hx, hx', h.freeHead, h.live]
    dsimp only
    split
    · split
      · exact ⟨.some hv, Entrywise.set h.slots _ ⟨rfl, .vacant⟩, rfl, rfl⟩
      · exact ⟨.some hv, Entrywise.set h.slots _ ⟨rfl, .vacant⟩, rfl, rfl⟩
    · exact ⟨.none, h⟩

/-- An insertion finds room in both or in neither, and issues one handle. -/
theorem Twins.insert (h : Twins R s s') {v v' : α} (hv : R v v') :
    (s.insert v = none ∧ s'.insert v' = none) ∨
      ∃ handle t t', s.insert v = some (handle, t) ∧ s'.insert v' = some (handle, t') ∧ Twins R t t' := by
  unfold Slab.insert
  rw [h.freeHead, h.live]
  cases s'.freeHead with
  | none => exact .inl ⟨rfl, rfl⟩
  | some i =>
      dsimp only
      rcases h.slot i with ⟨hx, hx'⟩ | ⟨g, next, hx, hx'⟩ | ⟨g, w, w', hw, hx, hx'⟩
      · rw [hx, hx']
        exact .inl ⟨rfl, rfl⟩
      · rw [hx, hx']
        exact .inr ⟨_, _, _, rfl, rfl, Entrywise.set h.slots _ ⟨rfl, .occupied hv⟩, rfl, rfl⟩
      · rw [hx, hx']
        exact .inl ⟨rfl, rfl⟩

theorem modify_id (s : Slab kind α) (handle : Handle kind) :
    s.modify handle id = s := by
  unfold Slab.modify
  split
  next g v hslot =>
    split
    · have hset : s.slots.set handle.index ⟨g, .occupied (id v)⟩ = s.slots := by
        refine List.ext_getElem? fun i => ?_
        rw [List.getElem?_set]
        split
        next hi =>
          subst hi
          split
          · exact hslot.symm
          next hlt => rw [List.getElem?_eq_none (Nat.not_lt.mp hlt)]
        next => rfl
      rw [hset]
    · rfl
  next => rfl

/-- A rewrite of one of them that `R` does not see. -/
theorem Twins.modify_right (h : Twins R s s') (handle : Handle kind) {f : α → α}
    (hf : ∀ v v', R v v' → R v (f v')) : Twins R s (s'.modify handle f) := by
  have hmodified : Twins R (s.modify handle id) (s'.modify handle f) :=
    h.modify handle fun v v' _ hv => hf v v' hv
  rwa [modify_id] at hmodified

-- ============================================================================
-- One shape
-- ============================================================================

theorem Twins.imp {R' : α → α → Prop} (h : Twins R s s') (himp : ∀ v v', R v v' → R' v v') :
    Twins R' s s' := by
  refine ⟨h.slots.imp fun x x' hx => ⟨hx.generation, ?_⟩, h.freeHead, h.live⟩
  have hstate := hx.state
  generalize x.state = v at hstate ⊢
  generalize x'.state = v' at hstate ⊢
  cases hstate with
  | vacant => exact .vacant
  | occupied hv => exact .occupied (himp _ _ hv)

/-- Of two slabs of one shape, what stands under each handle is all there is to compare. -/
theorem Twins.of_get (h : Twins (fun _ _ => True) s s')
    (hget : ∀ handle, Option.Rel R (s.get handle) (s'.get handle)) : Twins R s s' := by
  refine ⟨List.forall₂_iff_get.mpr ⟨h.slots.length_eq, fun i hi hi' => ?_⟩, h.freeHead, h.live⟩
  rcases h.slot i with ⟨hx, -⟩ | ⟨g, next, hx, hx'⟩ | ⟨g, v, v', -, hx, hx'⟩
  · rw [List.getElem?_eq_getElem hi] at hx
    cases hx
  · rw [List.get_eq_getElem, List.get_eq_getElem, (List.getElem?_eq_some_iff.mp hx).2,
      (List.getElem?_eq_some_iff.mp hx').2]
    exact ⟨rfl, .vacant⟩
  · have hvalue := hget ⟨i, g⟩
    rw [get_eq_some.mpr hx, get_eq_some.mpr hx'] at hvalue
    rw [List.get_eq_getElem, List.get_eq_getElem, (List.getElem?_eq_some_iff.mp hx).2,
      (List.getElem?_eq_some_iff.mp hx').2]
    cases hvalue with
    | some hv => exact ⟨rfl, .occupied hv⟩

theorem Twins.eq (h : Twins Eq s s') : s = s' := by
  obtain ⟨hslots, hfree, hlive⟩ := h
  obtain ⟨slots, freeHead, live⟩ := s
  obtain ⟨slots', freeHead', live'⟩ := s'
  obtain rfl : freeHead = freeHead' := hfree
  obtain rfl : live = live' := hlive
  obtain rfl : slots = slots' := by
    refine List.forall₂_eq_eq_eq ▸ hslots.imp fun x x' hx => ?_
    obtain ⟨g, state⟩ := x
    obtain ⟨g', state'⟩ := x'
    obtain ⟨hg, hstate⟩ := hx
    obtain rfl : g = g' := hg
    cases hstate with
    | vacant => rfl
    | occupied hv => rw [hv]
  rfl

/-- Rewriting one value changes no shape. -/
theorem shape_modify (s : Slab kind α) (handle : Handle kind) (f : α → α) :
    Twins (fun _ _ => True) s (s.modify handle f) :=
  (Twins.refl (fun _ => trivial) s).modify_right handle fun _ _ _ => trivial

/-- Two slabs are equal up to a rewrite of one value. -/
theorem modify_eq_modify_iff {handle : Handle kind} {f f' : α → α} :
    s.modify handle f = s'.modify handle f' ↔
      Twins (fun _ _ => True) s s' ∧ (∀ h ≠ handle, s.get h = s'.get h) ∧
        (s.get handle).map f = (s'.get handle).map f' := by
  constructor
  · intro heq
    refine ⟨?_, fun h hne => ?_, ?_⟩
    · have hback := (shape_modify s' handle f').symm fun _ _ _ => trivial
      rw [← heq] at hback
      exact (shape_modify s handle f).trans (fun _ _ _ _ _ => trivial) hback
    · have hget := congrArg (fun s => s.get h) heq
      rwa [get_modify_ne hne, get_modify_ne hne] at hget
    · have hget := congrArg (fun s => s.get handle) heq
      rwa [get_modify_self, get_modify_self] at hget
  · rintro ⟨hshape, hother, hself⟩
    have hmodified : Twins (fun _ _ => True) (s.modify handle f) (s'.modify handle f') :=
      hshape.modify handle fun _ _ _ _ => trivial
    refine (hmodified.of_get fun h => ?_).eq
    have hget : (s.modify handle f).get h = (s'.modify handle f').get h := by
      rw [get_modify, get_modify]
      split
      · exact hself
      next hne => exact hother h hne
    rw [hget]
    cases (s'.modify handle f').get h with
    | none => exact .none
    | some v => exact .some rfl

end Slab

end RfqSettlement
