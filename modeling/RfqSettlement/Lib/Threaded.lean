/-
  RfqSettlement.Lib.Threaded

  Doubly linked lists threaded through a node store, over an arbitrary index
  type.  A `Chain` is a store of `(prev, next)` pairs with two endpoints;
  `Chain.Holds c is` says that the chain visits exactly `is`, in order, with
  every back pointer right.

  Three operations edit a chain by a bounded number of pointer writes:

    * `Chain.unlink`      removes an entry, wherever it stands;
    * `Chain.spliceAfter` inserts an entry behind a given one;
    * `Chain.spliceHead`  inserts an entry in front.

  Each has a `_holds` lemma (what the edited chain visits) and a
  `_node_of_notMem` lemma (no node off the chain is written), which is what
  lets several chains share one store.
-/

import Mathlib.Data.List.Nodup

namespace Intrusive

variable {ι : Type*}

-- ============================================================================
-- Segments
-- ============================================================================

/-- `is` is threaded in `node`: the first entry points back at `p`, the last
    points on to `n`, and neighbours point at each other. -/
def Segment (node : ι → Option (Option ι × Option ι)) : Option ι → List ι → Option ι → Prop
  | _, [], _ => True
  | p, i :: is, n => node i = some (p, is.head?.or n) ∧ Segment node (some i) is n

variable {node node' : ι → Option (Option ι × Option ι)} {p q n m : Option ι} {i : ι}
  {is xs ys : List ι}

@[simp] theorem segment_nil : Segment node p [] n := trivial

theorem segment_cons :
    Segment node p (i :: is) n ↔ node i = some (p, is.head?.or n) ∧ Segment node (some i) is n :=
  Iff.rfl

theorem segment_append :
    Segment node p (xs ++ ys) n ↔
      Segment node p xs (ys.head?.or n) ∧ Segment node (xs.getLast?.or p) ys n := by
  induction xs generalizing p with
  | nil => simp
  | cons x xs ih =>
      have hhead : (xs ++ ys).head?.or n = xs.head?.or (ys.head?.or n) := by
        cases xs <;> simp
      have hlast : (x :: xs).getLast?.or p = xs.getLast?.or (some x) := by
        rw [List.getLast?_cons]
        cases xs.getLast? <;> rfl
      rw [List.cons_append, segment_cons, segment_cons, ih, hhead, hlast, and_assoc]

/-- A segment only depends on the nodes it visits. -/
theorem Segment.congr (h : Segment node p is n) (hnode : ∀ j ∈ is, node' j = node j) :
    Segment node' p is n := by
  induction is generalizing p with
  | nil => trivial
  | cons x xs ih =>
      obtain ⟨hx, hxs⟩ := h
      refine ⟨by rw [hnode x (by simp), hx], ih hxs ?_⟩
      intro j hj
      exact hnode j (List.mem_cons_of_mem _ hj)

/-- Redirecting the last entry moves the far end of a segment. -/
theorem Segment.relast (h : Segment node p (xs ++ [i]) n)
    (hi : node' i = (node i).map fun l => (l.1, m)) (hxs : ∀ j ∈ xs, node' j = node j) :
    Segment node' p (xs ++ [i]) m := by
  rw [segment_append] at h ⊢
  obtain ⟨hx, hlast, -⟩ := h
  refine ⟨hx.congr hxs, ?_, trivial⟩
  rw [hi, hlast]
  simp

/-- Redirecting the first entry moves the near end of a segment. -/
theorem Segment.refirst (h : Segment node p (i :: is) n)
    (hi : node' i = (node i).map fun l => (q, l.2)) (his : ∀ j ∈ is, node' j = node j) :
    Segment node' q (i :: is) n := by
  obtain ⟨hx, hxs⟩ := h
  exact ⟨by rw [hi, hx]; simp, hxs.congr his⟩

/-- Every visited entry is a node of the store. -/
theorem Segment.isSome_of_mem (h : Segment node p is n) (hi : i ∈ is) : (node i).isSome := by
  induction is generalizing p with
  | nil => cases hi
  | cons x xs ih =>
      obtain ⟨hx, hxs⟩ := h
      rcases List.mem_cons.mp hi with rfl | hi
      · simp [hx]
      · exact ih hxs hi

/-- The pointers of an entry in the middle of a segment. -/
theorem Segment.node_eq (h : Segment node p (xs ++ i :: ys) n) :
    node i = some (xs.getLast?.or p, ys.head?.or n) :=
  (segment_append.mp h).2.1

-- ============================================================================
-- Chains
-- ============================================================================

/-- A node store with the two ends of one chain through it. -/
structure Chain (ι : Type*) where
  node : ι → Option (Option ι × Option ι)
  head : Option ι
  tail : Option ι

namespace Chain

/-- The chain visits exactly `is`, in this order. -/
structure Holds (c : Chain ι) (is : List ι) : Prop where
  nodup : is.Nodup
  segment : Segment c.node none is none
  head : c.head = is.head?
  tail : c.tail = is.getLast?

variable [DecidableEq ι] {c : Chain ι} {j a : ι}

/-- Redirect the forward pointer of `i`. -/
def setNext (c : Chain ι) (i : ι) (n : Option ι) : Chain ι :=
  { c with node := fun j => if j = i then (c.node j).map fun l => (l.1, n) else c.node j }

/-- Redirect the back pointer of `i`. -/
def setPrev (c : Chain ι) (i : ι) (p : Option ι) : Chain ι :=
  { c with node := fun j => if j = i then (c.node j).map fun l => (p, l.2) else c.node j }

/-- Remove `i`, fixing whichever of its neighbours and endpoints named it. -/
def unlink (c : Chain ι) (i : ι) : Chain ι :=
  match c.node i with
  | none => c
  | some (prev, next) =>
    let c := match prev with
      | some p => c.setNext p next
      | none => { c with head := next }
    let c := match next with
      | some n => c.setPrev n prev
      | none => { c with tail := prev }
    (c.setPrev i none).setNext i none

/-- Insert `i` immediately behind `a`, fixing the tail if `a` was it. -/
def spliceAfter (c : Chain ι) (i a : ι) : Chain ι :=
  let next := ((c.node a).map Prod.snd).getD none
  let c := c.setNext a (some i)
  let c := (c.setPrev i (some a)).setNext i next
  match next with
  | some n => c.setPrev n (some i)
  | none => { c with tail := some i }

/-- Insert `i` in front, fixing the tail if the chain was empty. -/
def spliceHead (c : Chain ι) (i : ι) : Chain ι :=
  let head := c.head
  let c := (c.setPrev i none).setNext i head
  let c := match head with
    | some h => c.setPrev h (some i)
    | none => { c with tail := some i }
  { c with head := some i }

-- ============================================================================
-- Removal
-- ============================================================================

theorem unlink_holds (h : c.Holds (xs ++ i :: ys)) : (c.unlink i).Holds (xs ++ ys) := by
  obtain ⟨hnodup, hseg, hhead, htail⟩ := h
  have hnode := hseg.node_eq
  have hnodup' : (xs ++ ys).Nodup := by
    rw [List.nodup_append] at hnodup ⊢
    obtain ⟨hx, hy, hd⟩ := hnodup
    exact ⟨hx, (List.nodup_cons.mp hy).2, fun a ha b hb => hd a ha b (List.mem_cons_of_mem _ hb)⟩
  have hix : i ∉ xs := fun hi => by
    have := (List.nodup_append.mp hnodup).2.2 i hi i (by simp)
    exact this rfl
  have hiy : i ∉ ys := (List.nodup_cons.mp (List.nodup_append.mp hnodup).2.1).1
  have hdisj := (List.nodup_append.mp hnodup').2.2
  obtain ⟨hsx, -, hsy⟩ := segment_append.mp hseg
  simp only [Option.or_none] at hnode
  unfold unlink
  rw [hnode]
  rcases xs.eq_nil_or_concat' with rfl | ⟨xs', x, rfl⟩ <;> rcases ys with _ | ⟨y, ys'⟩
  · exact ⟨by simp, trivial, rfl, rfl⟩
  · refine ⟨hnodup', ?_, by simp [setNext, setPrev], ?_⟩
    · refine (Segment.refirst hsy ?_ ?_ : Segment _ none (y :: ys') none)
      · have : y ≠ i := fun e => hiy (by simp [e])
        simp [setNext, setPrev, this]
      · intro j hj
        have hji : j ≠ i := fun e => hiy (by simp [← e, hj])
        have hjy : j ≠ y := fun e => (List.nodup_cons.mp hnodup').1 (e ▸ hj)
        simp [setNext, setPrev, hji, hjy]
    · simpa [setNext, setPrev] using htail
  · refine ⟨hnodup', ?_, ?_, by simp [setNext, setPrev]⟩
    · simp only [List.append_nil]
      refine Segment.relast hsx ?_ ?_
      · have : x ≠ i := fun e => hix (by simp [e])
        simp [setNext, setPrev, this]
      · intro j hj
        have hji : j ≠ i := fun e => hix (by simp [← e, hj])
        have hjx : j ≠ x := by
          rintro rfl
          simp [List.nodup_append] at hnodup'
          exact hnodup'.2 j hj rfl
        simp [setNext, setPrev, hji, hjx]
    · simpa [setNext, setPrev] using hhead
  · have hxi : x ≠ i := fun e => hix (by simp [e])
    have hyi : y ≠ i := fun e => hiy (by simp [e])
    have hxy : x ≠ y := hdisj x (by simp) y (by simp)
    refine ⟨hnodup', segment_append.mpr ⟨?_, ?_⟩, ?_, ?_⟩
    · refine Segment.relast hsx ?_ ?_
      · simp [setNext, setPrev, hxi, hxy]
      · intro j hj
        have hji : j ≠ i := fun e => hix (by simp [← e, hj])
        have hjy : j ≠ y := hdisj j (by simp [hj]) y (by simp)
        have hjx : j ≠ x := by
          rintro rfl
          have := (List.nodup_append.mp (List.nodup_append.mp hnodup').1).2.2 j hj j (by simp)
          exact this rfl
        simp [setNext, setPrev, hji, hjx, hjy]
    · refine Segment.refirst hsy ?_ ?_
      · simp [setNext, setPrev, hyi, hxy.symm]
      · intro j hj
        have hji : j ≠ i := fun e => hiy (by simp [← e, hj])
        have hjx : j ≠ x := fun e => hdisj x (by simp) j (by simp [hj]) e.symm
        have hjy : j ≠ y :=
          fun e => (List.nodup_cons.mp (List.nodup_append.mp hnodup').2.1).1 (e ▸ hj)
        simp [setNext, setPrev, hji, hjx, hjy]
    · simpa [setNext, setPrev] using hhead
    · simpa [setNext, setPrev] using htail

theorem unlink_node_of_notMem (h : c.Holds (xs ++ i :: ys)) (hj : j ∉ xs ++ i :: ys) :
    (c.unlink i).node j = c.node j := by
  have hnode := h.segment.node_eq
  simp only [Option.or_none] at hnode
  simp only [List.mem_append, List.mem_cons, not_or] at hj
  obtain ⟨hjx, hji, hjy⟩ := hj
  unfold unlink
  rw [hnode]
  rcases xs.eq_nil_or_concat' with rfl | ⟨xs', x, rfl⟩ <;> rcases ys with _ | ⟨y, ys'⟩
  all_goals simp_all [setNext, setPrev]

-- ============================================================================
-- Insertion
-- ============================================================================

theorem spliceHead_holds (h : c.Holds is) (hi : i ∉ is) (hsome : (c.node i).isSome) :
    (c.spliceHead i).Holds (i :: is) := by
  obtain ⟨hnodup, hseg, hhead, htail⟩ := h
  obtain ⟨l, hl⟩ := Option.isSome_iff_exists.mp hsome
  unfold spliceHead
  rw [hhead]
  rcases is with _ | ⟨x, xs⟩
  · exact ⟨by simp, ⟨by simp [setNext, setPrev, hl], trivial⟩, by simp, by simp⟩
  · have hxi : x ≠ i := fun e => hi (by simp [e])
    refine ⟨List.nodup_cons.mpr ⟨hi, hnodup⟩, ⟨?_, ?_⟩, by simp, ?_⟩
    · simp [setNext, setPrev, hl, hxi.symm]
    · refine Segment.refirst hseg ?_ ?_
      · simp [setNext, setPrev, hxi]
      · intro j hj
        have hji : j ≠ i := fun e => hi (by simp [← e, hj])
        have hjx : j ≠ x := fun e => (List.nodup_cons.mp hnodup).1 (e ▸ hj)
        simp [setNext, setPrev, hji, hjx]
    · simpa [setNext, setPrev, List.getLast?_cons_cons] using htail

theorem spliceHead_node_of_notMem (h : c.Holds is) (hj : j ∉ is) (hji : j ≠ i) :
    (c.spliceHead i).node j = c.node j := by
  unfold spliceHead
  rw [h.head]
  rcases is with _ | ⟨x, xs⟩
  all_goals simp_all [setNext, setPrev]

theorem spliceAfter_holds (h : c.Holds (xs ++ a :: ys)) (hi : i ∉ xs ++ a :: ys)
    (hsome : (c.node i).isSome) : (c.spliceAfter i a).Holds (xs ++ a :: i :: ys) := by
  obtain ⟨hnodup, hseg, hhead, htail⟩ := h
  obtain ⟨l, hl⟩ := Option.isSome_iff_exists.mp hsome
  have hnode := hseg.node_eq
  simp only [Option.or_none] at hnode
  have hnodup' : (xs ++ a :: i :: ys).Nodup := by
    rw [show xs ++ a :: i :: ys = (xs ++ [a]) ++ i :: ys by simp, List.nodup_middle]
    exact List.nodup_cons.mpr ⟨by simpa using hi, by simpa using hnodup⟩
  simp only [List.mem_append, List.mem_cons, not_or] at hi
  obtain ⟨hix, hia, hiy⟩ := hi
  have hax : a ∉ xs := fun ha => (List.nodup_append.mp hnodup).2.2 a ha a (by simp) rfl
  obtain ⟨haY, hy⟩ := List.nodup_cons.mp (List.nodup_append.mp hnodup).2.1
  have hdisj := (List.nodup_append.mp hnodup).2.2
  obtain ⟨hsx, hsa⟩ := segment_append.mp hseg
  unfold spliceAfter
  simp only [hnode, Option.map_some, Option.getD_some]
  rcases ys with _ | ⟨y, ys'⟩
  · refine ⟨hnodup', segment_append.mpr ⟨hsx.congr ?_, ⟨?_, ?_, trivial⟩⟩, ?_, by simp⟩
    · intro j hj
      have hji : j ≠ i := fun e => hix (e ▸ hj)
      have hja : j ≠ a := fun e => hax (e ▸ hj)
      simp [setNext, setPrev, hji, hja]
    · simp [setNext, setPrev, hnode, Ne.symm hia]
    · simp [setNext, setPrev, hl, hia]
    · cases xs <;> simpa [setNext, setPrev] using hhead
  · have hyi : y ≠ i := fun e => hiy (by simp [e])
    have hya : y ≠ a := fun e => haY (by simp [e])
    refine ⟨hnodup', segment_append.mpr ⟨hsx.congr ?_, ⟨?_, ?_, ?_⟩⟩, ?_, ?_⟩
    · intro j hj
      have hji : j ≠ i := fun e => hix (e ▸ hj)
      have hja : j ≠ a := fun e => hax (e ▸ hj)
      have hjy : j ≠ y := hdisj j hj y (by simp)
      simp [setNext, setPrev, hji, hja, hjy]
    · simp [setNext, setPrev, hnode, Ne.symm hia, Ne.symm hya]
    · simp [setNext, setPrev, hl, hia, Ne.symm hyi]
    · refine Segment.refirst hsa.2 ?_ ?_
      · simp [setNext, setPrev, hyi, hya]
      · intro j hj
        have hji : j ≠ i := fun e => hiy (by simp [← e, hj])
        have hja : j ≠ a := fun e => haY (by simp [← e, hj])
        have hjy : j ≠ y := fun e => (List.nodup_cons.mp hy).1 (e ▸ hj)
        simp [setNext, setPrev, hji, hja, hjy]
    · cases xs <;> simpa [setNext, setPrev] using hhead
    · simpa [setNext, setPrev, List.getLast?_append, List.getLast?_cons_cons] using htail

theorem spliceAfter_node_of_notMem (h : c.Holds (xs ++ a :: ys)) (hj : j ∉ xs ++ a :: ys)
    (hji : j ≠ i) : (c.spliceAfter i a).node j = c.node j := by
  have hnode := h.segment.node_eq
  simp only [Option.or_none] at hnode
  simp only [List.mem_append, List.mem_cons, not_or] at hj
  obtain ⟨hjx, hja, hjy⟩ := hj
  unfold spliceAfter
  simp only [hnode, Option.map_some, Option.getD_some]
  rcases ys with _ | ⟨y, ys'⟩
  all_goals simp_all [setNext, setPrev]

end Chain

end Intrusive
