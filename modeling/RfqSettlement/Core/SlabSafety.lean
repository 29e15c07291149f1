/-
  RfqSettlement.Core.SlabSafety

  A slab under any sequence of operations.

  `Slab.Use` is a slab with what its user knows of it: the handles it was
  issued, the handles it removed, and the value each handle was last given.
  The slab is right when it agrees with that record after every operation,
  whatever handles the operations name: `Use.Sound` is what one operation
  keeps, and `Use.sound_run` is the run.
-/

import RfqSettlement.Core.SlabValid

namespace RfqSettlement

namespace Slab

variable {kind : SlabKind} {α : Type} {s s' : Slab kind α} {handle handle' : Handle kind}
  {value : α} {f : α → α}

-- ============================================================================
-- Operations and their record
-- ============================================================================

/-- One operation on a slab.  `getMut` writes through the reference it gets. -/
inductive Op (kind : SlabKind) (α : Type) where
  | insert (value : α)
  | get (handle : Handle kind)
  | getMut (handle : Handle kind) (f : α → α)
  | remove (handle : Handle kind)

/-- A slab and what its user knows of it. -/
structure Use (kind : SlabKind) (α : Type) where
  slab : Slab kind α
  issued : List (Handle kind)
  freed : List (Handle kind)
  named : Handle kind → Option α

/-- A new slab: nothing issued, nothing named. -/
def Use.new (kind : SlabKind) (α : Type) (capacity : Nat) : Use kind α :=
  ⟨withCapacity kind α capacity, [], [], fun _ => none⟩

/-- The record moves with what the operation answers: a handle issued names the value
    inserted, a write changes what its own handle names, a handle whose removal
    returned a value is freed. -/
def Use.perform (u : Use kind α) : Op kind α → Use kind α
  | .insert value =>
      match u.slab.insert value with
      | some (handle, slab) =>
          { slab
            issued := handle :: u.issued
            freed := u.freed
            named := fun h => if h = handle then some value else u.named h }
      | none => u
  | .get _ => u
  | .getMut handle f =>
      { u with
        slab := u.slab.modify handle f
        named := fun h => if h = handle then (u.named h).map f else u.named h }
  | .remove handle =>
      match u.slab.remove handle with
      | (some _, slab) =>
          { slab
            issued := u.issued
            freed := handle :: u.freed
            named := fun h => if h = handle then none else u.named h }
      | (none, slab) => { u with slab }

def Use.run (u : Use kind α) (ops : List (Op kind α)) : Use kind α := ops.foldl Use.perform u

-- ============================================================================
-- The free list, with the retired slots named
-- ============================================================================

/-- The slot at `i` holds no value. -/
def Vacant (s : Slab kind α) (i : Nat) : Prop :=
  ∃ generation next, s.slots[i]? = some ⟨generation, .vacant next⟩

/-- A link determines the list that is reached from it. -/
theorem FreeChain.unique {slots : List (Slot α)} {head : Link} {is js : List Nat}
    (h : FreeChain slots head is) (h' : FreeChain slots head js) : is = js := by
  induction is generalizing head js with
  | nil =>
      cases js with
      | nil => rfl
      | cons j js =>
          rw [show head = none from h] at h'
          cases h'.1
  | cons i is ih =>
      obtain ⟨rfl, generation, next, hslot, hrest⟩ := h
      cases js with
      | nil => cases (show some i = none from h')
      | cons j js =>
          obtain ⟨hij, generation', next', hslot', hrest'⟩ := h'
          rw [← Option.some.inj hij] at hslot' ⊢
          rw [hslot, Option.some.injEq, Slot.mk.injEq, SlotState.vacant.injEq] at hslot'
          obtain ⟨rfl, rfl⟩ := hslot'
          rw [ih hrest hrest']

/-- A spent handle of the last generation names a slot off the free list. -/
theorem Spent.not_free (hs : s.Valid) (h : s.Spent handle) (hmax : handle.generation = u32Max)
    {free : List Nat} (hfree : FreeChain s.slots s.freeHead free) : handle.index ∉ free := by
  obtain ⟨free', slot, hfree', hslot, hlater⟩ := h
  rw [hfree.unique hfree'.chain]
  rcases hlater with hlt | ⟨-, -, hnot⟩
  · have := hs.generation _ _ hslot
    omega
  · exact hnot

theorem not_vacant_of_get (h : s.get handle = some value) : ¬ s.Vacant handle.index := by
  rintro ⟨generation, next, hslot⟩
  rw [get_eq_some.mp h] at hslot
  cases hslot

/-- An assignment leaves the vacant slots alone. -/
theorem vacant_modify {i : Nat} : (s.modify handle f).Vacant i ↔ s.Vacant i := by
  cases hget : s.get handle with
  | none => rw [modify_of_stale hget]
  | some v =>
      have hlt := length_of_get hget
      rw [modify_of_get hget]
      unfold Vacant
      by_cases hi : handle.index = i
      · subst hi
        rw [get_eq_some.mp hget]
        simp [hlt]
      · rw [List.getElem?_set_ne hi]

/-- An insertion fills one vacant slot. -/
theorem vacant_insert (h : s.insert value = some (handle, s')) {i : Nat} (hi : s'.Vacant i) :
    i ≠ handle.index ∧ s.Vacant i := by
  have hget : s'.get handle = some value := by
    rw [(get_insert h).2, if_pos rfl]
  have hne : i ≠ handle.index := fun e => not_vacant_of_get hget (e ▸ hi)
  refine ⟨hne, ?_⟩
  unfold Slab.insert at h
  split at h
  · cases h
  split at h
  · simp only [Option.some.injEq, Prod.mk.injEq] at h
    obtain ⟨rfl, rfl⟩ := h
    obtain ⟨generation, next, hslot⟩ := hi
    rw [List.getElem?_set_ne (Ne.symm hne)] at hslot
    exact ⟨generation, next, hslot⟩
  · cases h

/-- A removal empties one slot. -/
theorem vacant_remove (h : s.get handle = some value) {i : Nat}
    (hi : (s.remove handle).2.Vacant i) : i = handle.index ∨ s.Vacant i := by
  obtain ⟨generation, next, hslots⟩ := remove_slots h
  by_cases heq : i = handle.index
  · exact .inl heq
  · obtain ⟨generation', next', hslot⟩ := hi
    rw [hslots, List.getElem?_set_ne (Ne.symm heq)] at hslot
    exact .inr ⟨generation', next', hslot⟩

/-- The occupied slots are those `iter` lists. -/
theorem count_eq_length_iter : s.count = s.iter.length := by
  have hlist : ∀ (entry : Slot α × Nat → Option (Handle kind × α)),
      (∀ generation v i, entry (⟨generation, .occupied v⟩, i) = some (⟨i, generation⟩, v)) →
      (∀ generation next i, entry (⟨generation, .vacant next⟩, i) = none) →
      ∀ (slots : List (Slot α)) (k : Nat),
        (slots.map (slotTotal fun _ => 1)).sum = ((slots.zipIdx k).filterMap entry).length := by
    intro entry hoccupied hvacant slots
    induction slots with
    | nil => intro k; rfl
    | cons slot slots ih =>
        intro k
        obtain ⟨generation, state⟩ := slot
        rw [List.map_cons, List.sum_cons, List.zipIdx_cons, List.filterMap_cons, ih (k + 1)]
        cases state with
        | vacant next => simp [slotTotal, hvacant]
        | occupied v =>
            simp only [slotTotal, hoccupied, List.length_cons]
            omega
  exact hlist _ (fun _ _ _ => rfl) (fun _ _ _ => rfl) s.slots 0

-- ============================================================================
-- What an operation keeps
-- ============================================================================

/-- The slab agrees with the record. -/
structure Use.Sound (u : Use kind α) : Prop where
  valid : u.slab.Valid
  named : ∀ h, u.slab.get h = u.named h
  spent : ∀ h ∈ u.freed, u.slab.Spent h
  issued : ∀ h, h ∈ u.issued ↔ h ∈ u.freed ∨ (u.slab.get h).isSome
  fresh : u.issued.Nodup
  retired : ∃ free, u.slab.FreeList free ∧
    ∀ i, u.slab.Vacant i → i ∉ free → ⟨i, u32Max⟩ ∈ u.freed

theorem Use.sound_new {n : Nat} (h : n < u32Max) : (Use.new kind α n).Sound where
  valid := valid_withCapacity h
  named _ := get_withCapacity n
  spent _ hmem := by cases hmem
  issued h := by simp [Use.new, get_withCapacity]
  fresh := List.nodup_nil
  retired := by
    have hvalid : (withCapacity kind α n).Valid := valid_withCapacity h
    obtain ⟨free, hfree⟩ := hvalid.free
    refine ⟨free, hfree, fun i hi hnot => ?_⟩
    obtain ⟨generation, next, hslot⟩ := hi
    have hgen := hfree.retired i generation next hslot hnot
    obtain ⟨hlt, heq⟩ := List.getElem?_eq_some_iff.mp hslot
    have hzero : generation = 0 := by
      simp only [Use.new, withCapacity, List.getElem_map, Slot.mk.injEq] at heq
      exact heq.1.symm
    rw [hzero] at hgen
    cases hgen

theorem Use.Sound.insert {u : Use kind α} (h : u.Sound) (value : α) :
    (u.perform (.insert value)).Sound := by
  cases hins : u.slab.insert value with
  | none => simpa only [Use.perform, hins] using h
  | some p =>
      obtain ⟨handle, slab⟩ := p
      simp only [Use.perform, hins]
      obtain ⟨hnone, hget⟩ := get_insert hins
      -- a freed handle stays spent, so it is not the one issued now
      have hspent : ∀ h ∈ u.freed, slab.Spent h := fun h' hmem => (h.spent h' hmem).insert hins
      have hnew : handle ∉ u.freed := by
        intro hmem
        have := (hspent handle hmem).get
        rw [hget, if_pos rfl] at this
        cases this
      refine ⟨h.valid.insert hins, fun h' => ?_, hspent, fun h' => ?_, ?_, ?_⟩
      · show slab.get h' = if h' = handle then some value else u.named h'
        rw [hget, h.named]
      · rw [List.mem_cons, hget, h.issued]
        by_cases heq : h' = handle
        · simp [heq]
        · simp [heq]
      · refine List.nodup_cons.mpr ⟨fun hmem => ?_, h.fresh⟩
        rcases (h.issued handle).mp hmem with hfreed | hsome
        · exact hnew hfreed
        · rw [hnone] at hsome
          cases hsome
      · obtain ⟨free, hfree, hretired⟩ := h.retired
        obtain ⟨rest, rfl, hrest⟩ := hfree.insert hins
        refine ⟨rest, hrest, fun i hi hnot => ?_⟩
        obtain ⟨hne, hvacant⟩ := vacant_insert hins hi
        exact hretired i hvacant (by simp [hne, hnot])

theorem Use.Sound.getMut {u : Use kind α} (h : u.Sound) (handle : Handle kind) (f : α → α) :
    (u.perform (.getMut handle f)).Sound where
  valid := h.valid.modify
  named h' := by
    show (u.slab.modify handle f).get h' = if h' = handle then (u.named h').map f else u.named h'
    rw [get_modify, h.named, h.named]
    split
    next heq => rw [heq]
    next => rfl
  spent h' hmem := (h.spent h' hmem).modify
  issued h' := by
    show h' ∈ u.issued ↔ h' ∈ u.freed ∨ ((u.slab.modify handle f).get h').isSome
    rw [isSome_get_modify]
    exact h.issued h'
  fresh := h.fresh
  retired := by
    obtain ⟨free, hfree, hretired⟩ := h.retired
    exact ⟨free, hfree.modify, fun i hi hnot => hretired i (vacant_modify.mp hi) hnot⟩

theorem Use.Sound.remove {u : Use kind α} (h : u.Sound) (handle : Handle kind) :
    (u.perform (.remove handle)).Sound := by
  cases hget : u.slab.get handle with
  | none => simpa only [Use.perform, remove_of_stale hget] using h
  | some value =>
      have hrem : u.slab.remove handle = (some value, (u.slab.remove handle).2) :=
        Prod.ext (remove_fst.trans hget) rfl
      have hread : ∀ h', (u.slab.remove handle).2.get h' = if h' = handle then none
          else u.slab.get h' := fun h' => get_remove (by simp [hget])
      rw [Use.perform, hrem]
      refine ⟨h.valid.remove, fun h' => ?_, fun h' hmem => ?_, fun h' => ?_, h.fresh, ?_⟩
      · show (u.slab.remove handle).2.get h' = if h' = handle then none else u.named h'
        rw [hread, h.named]
      · rcases List.mem_cons.mp hmem with rfl | hmem
        · exact h.valid.spent_remove hget
        · exact (h.spent h' hmem).remove h.valid
      · show h' ∈ u.issued ↔ h' ∈ handle :: u.freed ∨ ((u.slab.remove handle).2.get h').isSome
        rw [hread, List.mem_cons, h.issued]
        by_cases heq : h' = handle
        · simp [heq, hget]
        · simp [heq]
      · obtain ⟨free, hfree, hretired⟩ := h.retired
        have hmax : handle.generation ≤ u32Max :=
          h.valid.generation _ _ (get_eq_some.mp hget)
        refine ⟨_, hfree.remove hget hmax, fun i hi hnot => ?_⟩
        rcases vacant_remove hget hi with rfl | hvacant
        · -- the slot was not put back, so its generation was the last
          by_cases hgen : handle.generation + 1 ≤ u32Max
          · rw [if_pos hgen] at hnot
            exact absurd List.mem_cons_self hnot
          · have heq : handle.generation = u32Max := by omega
            rw [← heq]
            exact List.mem_cons_self
        · apply List.mem_cons_of_mem
          apply hretired i hvacant
          intro hmem
          apply hnot
          split
          · exact List.mem_cons_of_mem _ hmem
          · exact hmem

/-- One operation keeps the record right. -/
theorem Use.Sound.perform {u : Use kind α} (h : u.Sound) (op : Op kind α) :
    (u.perform op).Sound := by
  cases op with
  | insert value => exact h.insert value
  | get handle => exact h
  | getMut handle f => exact h.getMut handle f
  | remove handle => exact h.remove handle

theorem Use.length_perform (u : Use kind α) (op : Op kind α) :
    (u.perform op).slab.slots.length = u.slab.slots.length := by
  cases op with
  | insert value =>
      cases hins : u.slab.insert value with
      | none => simp only [Use.perform, hins]
      | some p =>
          simp only [Use.perform, hins]
          exact length_insert hins
  | get handle => rfl
  | getMut handle f => exact length_modify
  | remove handle =>
      have hlength : (u.slab.remove handle).2.slots.length = u.slab.slots.length := length_remove
      rcases hrem : u.slab.remove handle with ⟨value, slab⟩
      rw [hrem] at hlength
      cases value with
      | none => simpa only [Use.perform, hrem] using hlength
      | some v => simpa only [Use.perform, hrem] using hlength

/-- A run keeps the record right, and the slots it was given. -/
theorem Use.sound_run {u : Use kind α} (h : u.Sound) (ops : List (Op kind α)) :
    (u.run ops).Sound ∧ (u.run ops).slab.slots.length = u.slab.slots.length := by
  induction ops generalizing u with
  | nil => exact ⟨h, rfl⟩
  | cons op ops ih =>
      obtain ⟨hsound, hlength⟩ := ih (h.perform op)
      exact ⟨hsound, hlength.trans (u.length_perform op)⟩

-- ============================================================================
-- Handles over a run
-- ============================================================================

/-- What an operation writes to the value a live handle names. -/
def Op.write (handle : Handle kind) (v : α) : Op kind α → α
  | .getMut h f => if h = handle then f v else v
  | _ => v

/-- The operation asks to free `handle`. -/
def Op.Frees (handle : Handle kind) : Op kind α → Prop
  | .remove h => h = handle
  | _ => False

theorem Use.run_cons (u : Use kind α) (op : Op kind α) (ops : List (Op kind α)) :
    u.run (op :: ops) = (u.perform op).run ops := rfl

theorem Use.run_append (u : Use kind α) (ops ops' : List (Op kind α)) :
    u.run (ops ++ ops') = (u.run ops).run ops' := List.foldl_append

theorem Use.freed_perform {u : Use kind α} (op : Op kind α) (h : handle ∈ u.freed) :
    handle ∈ (u.perform op).freed := by
  cases op with
  | insert value =>
      cases hins : u.slab.insert value with
      | none => simpa only [Use.perform, hins] using h
      | some p => simpa only [Use.perform, hins] using h
  | get handle' => exact h
  | getMut handle' f => exact h
  | remove handle' =>
      rcases hrem : u.slab.remove handle' with ⟨value, slab⟩
      cases value with
      | none => simpa only [Use.perform, hrem] using h
      | some v =>
          simp only [Use.perform, hrem]
          exact List.mem_cons_of_mem _ h

/-- A handle once freed stays freed. -/
theorem Use.freed_run {u : Use kind α} (h : handle ∈ u.freed) (ops : List (Op kind α)) :
    handle ∈ (u.run ops).freed := by
  induction ops generalizing u with
  | nil => exact h
  | cons op ops ih => exact ih (Use.freed_perform op h)

/-- What a live handle names moves only with the writes through that handle. -/
theorem Use.Sound.named_perform {u : Use kind α} (hu : u.Sound) {op : Op kind α}
    (h : u.named handle = some value) (hop : ¬ op.Frees handle) :
    (u.perform op).named handle = some (op.write handle value) := by
  cases op with
  | insert w =>
      cases hins : u.slab.insert w with
      | none => simpa only [Use.perform, hins, Op.write] using h
      | some p =>
          obtain ⟨handle', slab⟩ := p
          have hne : handle ≠ handle' := by
            rintro rfl
            have hnone := (get_insert hins).1
            rw [hu.named, h] at hnone
            cases hnone
          simp only [Use.perform, hins, if_neg hne]
          exact h
  | get handle' => exact h
  | getMut handle' f =>
      simp only [Use.perform, Op.write]
      by_cases heq : handle = handle'
      · rw [if_pos heq, if_pos heq.symm, h]
        rfl
      · rw [if_neg heq, if_neg (Ne.symm heq), h]
  | remove handle' =>
      have hne : handle ≠ handle' := fun e => hop e.symm
      rcases hrem : u.slab.remove handle' with ⟨value', slab⟩
      cases value' with
      | none => simpa only [Use.perform, hrem, Op.write] using h
      | some v =>
          simp only [Use.perform, hrem, if_neg hne]
          exact h

/-- A handle that no operation frees keeps naming its own value, as last written. -/
theorem Use.Sound.named_run {u : Use kind α} (hu : u.Sound) {ops : List (Op kind α)}
    (h : u.named handle = some value) (hops : ∀ op ∈ ops, ¬ op.Frees handle) :
    (u.run ops).named handle = some (ops.foldl (fun v op => op.write handle v) value) := by
  induction ops generalizing u value with
  | nil => exact h
  | cons op ops ih =>
      have hstep := hu.named_perform h (hops op List.mem_cons_self)
      exact ih (hu.perform op) hstep fun op' hmem => hops op' (List.mem_cons_of_mem _ hmem)

/-- Whatever is done to a slab: its free list is acyclic and visits exactly the vacant
    slots that were not retired; it takes a value if and only if it has room; it counts its
    occupied slots and keeps its capacity; a handle is issued once, and from then on it
    either resolves to its own value or has been removed; and a removed handle resolves to
    nothing and removes nothing, whatever is done after. -/
theorem generational_safety {n : Nat} (hn : n < u32Max) (ops : List (Op kind α)) :
    let u := (Use.new kind α n).run ops
    (∃ free, FreeChain u.slab.slots u.slab.freeHead free ∧ free.Nodup ∧
      ∀ i, i ∈ free ↔ u.slab.Vacant i ∧ ⟨i, u32Max⟩ ∉ u.freed) ∧
    (∀ value, (u.slab.insert value).isSome = u.slab.hasRoom) ∧
    u.slab.len = u.slab.iter.length ∧ u.slab.capacity = n ∧
    u.issued.Nodup ∧
    (∀ handle, handle ∈ u.issued ↔ handle ∈ u.freed ∨ (u.slab.get handle).isSome) ∧
    (∀ handle value, u.slab.get handle = some value →
      u.named handle = some value ∧
      ∀ later : List (Op kind α), (∀ op ∈ later, ¬ op.Frees handle) →
        (u.run later).slab.get handle =
          some (later.foldl (fun v op => op.write handle v) value)) ∧
    ∀ handle ∈ u.freed, ∀ later : List (Op kind α),
      (u.run later).slab.get handle = none ∧
        (u.run later).slab.remove handle = (none, (u.run later).slab) ∧
        ∀ f, (u.run later).slab.modify handle f = (u.run later).slab := by
  intro u
  have hnew : (Use.new kind α n).Sound := Use.sound_new hn
  obtain ⟨hsound, hlength⟩ := Use.sound_run hnew ops
  refine ⟨?_, fun value => ?_, ?_, ?_, hsound.fresh, hsound.issued, ?_, ?_⟩
  · obtain ⟨free, hfree, hretired⟩ := hsound.retired
    refine ⟨free, hfree.chain, hfree.nodup, fun i => ⟨fun hi => ⟨hfree.chain.vacant hi, ?_⟩, ?_⟩⟩
    · intro hmem
      exact (hsound.spent _ hmem).not_free hsound.valid rfl hfree.chain hi
    · rintro ⟨hvacant, hnot⟩
      by_contra hi
      exact hnot (hretired i hvacant hi)
  · cases hroom : u.slab.hasRoom with
    | true => exact hsound.valid.insert_isSome hroom value
    | false => rw [insert_eq_none_of_not_hasRoom hroom]; rfl
  · exact hsound.valid.live.trans count_eq_length_iter
  · refine hlength.trans ?_
    simp [Use.new, withCapacity]
  · intro handle value hget
    rw [hsound.named] at hget
    refine ⟨hget, fun later hlater => ?_⟩
    rw [(Use.sound_run hsound later).1.named]
    exact hsound.named_run hget hlater
  · intro handle hmem later
    have hlater := (Use.sound_run hsound later).1
    have hnone := (hlater.spent handle (Use.freed_run hmem later)).get
    exact ⟨hnone, remove_of_stale hnone, fun f => modify_of_stale hnone⟩

/-- A slot reissued: its old handle resolves to nothing, its new one to the new value. -/
theorem generational_safety_reissued :
    let u := (Use.new .quote Nat 1).run [.insert 5, .remove ⟨0, 0⟩, .insert 7]
    u.slab.get ⟨0, 1⟩ = some 7 ∧ u.slab.get ⟨0, 0⟩ = none := by
  have h := generational_safety (n := 1) (by decide)
    ([.insert 5, .remove ⟨0, 0⟩, .insert 7] : List (Op .quote Nat))
  obtain ⟨-, -, -, -, -, -, -, hfreed⟩ := h
  exact ⟨by decide, (hfreed ⟨0, 0⟩ (by decide) []).1⟩

-- ============================================================================
-- A slot that is used up
-- ============================================================================

/-- Filling and freeing the first slot, `k` times. -/
def cycles (kind : SlabKind) (value : α) : Nat → List (Op kind α)
  | 0 => []
  | k + 1 => cycles kind value k ++ [.insert value, .remove ⟨0, k⟩]

theorem slab_cycles (kind : SlabKind) (value : α) {k : Nat} (hk : k ≤ u32Max) :
    ((Use.new kind α 1).run (cycles kind value k)).slab = ⟨[⟨k, .vacant none⟩], some 0, 0⟩ := by
  induction k with
  | zero => rfl
  | succ k ih =>
      have hslab := ih (by omega)
      rw [cycles, Use.run_append, Use.run_cons, Use.run_cons]
      generalize (Use.new kind α 1).run (cycles kind value k) = u at hslab ⊢
      simp [Use.run, Use.perform, hslab, Slab.insert, Slab.remove, hk]

/-- The last generation is used like any other, and then the slot is retired: the slab
    has no room, though nothing is stored. -/
theorem slab_retires (kind : SlabKind) (value : α) {k : Nat} (hk : k = u32Max) :
    ((Use.new kind α 1).run (cycles kind value (k + 1))).slab =
      ⟨[⟨k, .vacant none⟩], none, 0⟩ := by
  have hslab := slab_cycles kind value hk.le
  have hlast : ¬ k + 1 ≤ u32Max := by omega
  rw [cycles, Use.run_append, Use.run_cons, Use.run_cons]
  generalize (Use.new kind α 1).run (cycles kind value k) = u at hslab ⊢
  simp [Use.run, Use.perform, hslab, Slab.insert, Slab.remove, hlast]

end Slab

end RfqSettlement
