import OpenShmem.MutableViews

/-! What a view opened by `write` holds before anything is stored through it, and what
it sends when only some of its elements were. -/
namespace OpenShmem

open Overlay

variable {P : Nat} {T : Type} [Pod T]

section

variable (build : Build) (me : Fin P) (on : PEReference P) (shbox : Shbox T) (range : RangeBounds)

/-- A view which is a copy of the elements `a`: finishing it sends what the caller
stored, and `a` where nothing was stored. -/
structure CopyOf (w : World P) (a : List T) (view : MutableArrayView P T) : Prop where
  opened : (on.write build shbox range).run w = .ok view w
  shows_ : view.buf.elems = a
  sends : ∀ (values : Nat → Option T) (later : World P), ∃ next,
    ((view.assign values).finish build).run later = .ok () next ∧ next.mem = later.mem ∧
    next.puts = later.puts ++ [⟨on.target, shbox.addr + range.lo * Pod.size T,
      encode (a.mapIdx fun i t => (values i).getD t)⟩]
  untouched : on.target = me → ∀ garbage : Nat → UInt8, ∃ next put,
    (view.finish build).run { w with garbage } = .ok () next ∧
    next.puts = w.puts ++ [put] ∧ put.apply w.mem = w.mem

/-- The view `write` opens is a copy of the caller's own array in the range. -/
def CopiesLocal (w : World P) : Prop :=
  ∃ a view, range.sliceIndex (shbox.contents (w.mem me)) = some a ∧
    CopyOf build me on shbox range w a view

/-- The memory a fresh buffer lands on happens to hold the caller's elements. -/
def AlreadyLocal (w : World P) : Prop :=
  ∀ x < (range.hi shbox.len.toNat - range.lo) * Pod.size T,
    w.garbage x = w.mem me (shbox.addr + range.lo * Pod.size T + x)

end

section

variable {build : Build} {me : Fin P} {self : PEReference P} {shbox : Shbox T}
  {range : RangeBounds} {w : World P} {first size : Usize} {view : MutableArrayView P T}

/-- The fresh memory of the range, as elements. -/
theorem alreadyLocal_iff : AlreadyLocal me shbox range w ↔
    elements T w.garbage 0 (range.hi shbox.len.toNat - range.lo) =
      elements T (w.mem me) (shbox.addr + range.lo * Pod.size T)
        (range.hi shbox.len.toNat - range.lo) := by
  rw [elements_eq_iff, AlreadyLocal]
  simp only [Nat.zero_add]

theorem assign_none (buf : Slice T) : buf.assign (fun _ => none) = buf := by
  apply Slice.ext
  apply List.ext_getElem
  · simp
  · intro i _ _
    simp [Slice.assign]

/-- A range which names its end opens a buffer with one element for each of its own. -/
theorem opens_bounded (self : PEReference P) (w : World P) (valid : range.ValidFor shbox.len.toNat)
    (opened : resolve build range shbox.len = .ok (first, size))
    (count : size.toNat = range.hi shbox.len.toNat - range.lo) :
    ∃ buf : Slice T, (self.write build shbox range).run w =
        .ok ⟨shbox, range, self.target, buf⟩ w ∧ buf.len = size ∧
      buf.elems = elements T w.garbage 0 (range.hi shbox.len.toNat - range.lo) := by
  have inside : range.hi shbox.len.toNat ≤ shbox.len.toNat := valid.2
  have fits : size.toNat * Pod.size T ≤ isizeMax :=
    Nat.le_trans (Nat.mul_le_mul_right _ (by omega)) shbox.layout
  obtain ⟨buf, result, length, fresh⟩ := PEReference.write_resolved self (w := w) opened fits
  rw [count] at fresh
  exact ⟨buf, result, Slice.len_eq length, fresh⟩

/-- An unbounded range opens a buffer of another length. -/
theorem copies_bounded (valid : range.ValidFor shbox.len.toNat)
    (nonempty : range.lo < range.hi shbox.len.toNat)
    (copies : CopiesLocal build me self shbox range w) : range.endBound ≠ .unbounded := by
  intro unbounded
  obtain ⟨a, view, indexed, copy⟩ := copies
  have opened := copy.opened
  rcases resolve_cases build range shbox.len (Pod.size T) with
    ⟨first, size, resolved, fits⟩ | never
  · obtain ⟨buf, result, length, _⟩ := PEReference.write_resolved self (w := w) resolved fits
    cases result.symm.trans opened
    have shown : buf.elems = a := copy.shows_
    rw [shbox.sliceIndex_contents _ valid, Option.some.injEq] at indexed
    obtain ⟨_, sized⟩ := (resolve_since valid unbounded).mp resolved
    rw [shown, ← indexed, elements_length] at length
    have hi : range.hi shbox.len.toNat = shbox.len.toNat := RangeBounds.hi_unbounded unbounded
    omega
  · obtain ⟨p, result⟩ := PEReference.write_rejected self (w := w) never
    cases result.symm.trans opened

/-- The put of a view over a bounded range which starts at element 0 or 1. -/
theorem finish_sends (self : PEReference P) (opened : resolve build range shbox.len = .ok (first, size))
    (place : first.toNat = range.lo) (bounded : range.endBound ≠ .unbounded)
    (enough : range.endBound.last build shbox.len.toNat ≤ size.toNat)
    {buf : Slice T} (bufLen : buf.len = size) (values : Nat → Option T) (later : World P) :
    ∃ next, (MutableArrayView.finish build
        (MutableArrayView.assign ⟨shbox, range, self.target, buf⟩ values)).run later =
          .ok () next ∧ next.mem = later.mem ∧
      next.puts = later.puts ++ [⟨self.target, shbox.addr + range.lo * Pod.size T,
        encode (buf.elems.mapIdx fun i t => (values i).getD t)⟩] := by
  have assigned : (buf.assign values).len = size := (buf.assign_len values).trans bufLen
  have again : resolve build range (buf.assign values).len = .ok (first, size) := by
    rw [assigned]
    exact (reresolve_bounded opened bounded).mpr ⟨rfl, rfl, enough⟩
  have sent : window ((buf.assign values).memory later.garbage) 0 (size.toNat * Pod.size T) =
      encode (buf.assign values).elems := by
    rw [← assigned, Slice.len_toNat, Slice.memory_window]
  refine ⟨_, MutableArrayView.drop_resolved again, rfl, ?_⟩
  simp only [World.sent, MutableArrayView.assign, Shbox.offset, place, sent]
  rfl

/-- With its range resolved exactly and enough elements to resolve it again, a view
is a copy of the caller's elements if the memory of its buffer was. -/
theorem copies_of_alreadyLocal (valid : range.ValidFor shbox.len.toNat)
    (nonempty : range.lo < range.hi shbox.len.toNat) (bounded : range.endBound ≠ .unbounded)
    (early : range.lo ≤ 1) (already : AlreadyLocal me shbox range w) :
    CopiesLocal build me self shbox range w := by
  obtain ⟨first, size, resolved, place, count⟩ := resolve_bounded build valid nonempty bounded
  obtain ⟨buf, result, bufLen, fresh⟩ := opens_bounded self w valid resolved count
  rw [alreadyLocal_iff.mp already] at fresh
  have last : range.endBound.last build shbox.len.toNat = range.hi shbox.len.toNat - 1 :=
    RangeBounds.last_nonempty build bounded nonempty
  have enough : range.endBound.last build shbox.len.toNat ≤ size.toNat := by omega
  refine ⟨buf.elems, ⟨shbox, range, self.target, buf⟩, ?_, ?_⟩
  · rw [shbox.sliceIndex_contents _ valid, fresh]
  constructor
  · exact result
  · rfl
  · intro values later
    exact finish_sends self resolved place bounded enough bufLen values later
  · intro own garbage
    obtain ⟨next, finished, _, puts⟩ :=
      finish_sends self resolved place bounded enough bufLen (fun _ => none) { w with garbage }
    have same : buf.assign (fun _ => none) = buf := assign_none buf
    refine ⟨next, _, ?_, puts, ?_⟩
    · rwa [MutableArrayView.assign, same] at finished
    · have sent : encode (buf.assign fun _ => none).elems =
          window (w.mem me) (shbox.addr + range.lo * Pod.size T)
            ((range.hi shbox.len.toNat - range.lo) * Pod.size T) := by
        rw [same, fresh, encode_elements]
      simp only [Slice.assign] at sent
      rw [Write.apply, sent, own, overlay_window, Function.update_eq_self]

/-- A copy over a bounded range starts at element 0 or 1, or it could not be finished,
and its elements were in memory before. -/
theorem copies_early (valid : range.ValidFor shbox.len.toNat)
    (nonempty : range.lo < range.hi shbox.len.toNat) (bounded : range.endBound ≠ .unbounded)
    (copies : CopiesLocal build me self shbox range w) :
    range.lo ≤ 1 ∧ AlreadyLocal me shbox range w := by
  obtain ⟨a, view, indexed, copy⟩ := copies
  obtain ⟨first, size, resolved, _, count⟩ := resolve_bounded build valid nonempty bounded
  obtain ⟨buf, result, bufLen, fresh⟩ := opens_bounded self w valid resolved count
  cases result.symm.trans copy.opened
  have last : range.endBound.last build shbox.len.toNat = range.hi shbox.len.toNat - 1 :=
    RangeBounds.last_nonempty build bounded nonempty
  constructor
  · obtain ⟨next, finished, _⟩ := copy.sends (fun _ => none) w
    have assigned : (buf.assign fun _ => none).len = size := (buf.assign_len _).trans bufLen
    cases again : resolve build range (buf.assign fun _ => none).len with
    | error p =>
      have refused : (MutableArrayView.finish build (MutableArrayView.assign
          ⟨shbox, range, self.target, buf⟩ fun _ => none)).run w = .panic p w :=
        MutableArrayView.drop_rejected again
      cases refused.symm.trans finished
    | ok pair =>
      rw [assigned] at again
      obtain ⟨_, _, enough⟩ := (reresolve_bounded resolved bounded).mp again
      omega
  · have shown : buf.elems = a := copy.shows_
    rw [shbox.sliceIndex_contents _ valid, Option.some.injEq] at indexed
    rw [alreadyLocal_iff, ← fresh, shown, indexed]

end

/-- The views `write` opens are copies of the local array only over ranges which name
their end and start at element 0 or 1, and then only where fresh memory happens to hold
the elements: what it held shows in the view, and only elements without bytes are safe. -/
theorem copiesLocal_iff (build : Build) (me : Fin P) (self : PEReference P) (shbox : Shbox T)
    (range : RangeBounds) (w : World P) (valid : range.ValidFor shbox.len.toNat)
    (nonempty : range.lo < range.hi shbox.len.toNat) :
    (CopiesLocal build me self shbox range w ↔
      range.endBound ≠ .unbounded ∧ range.lo ≤ 1 ∧ AlreadyLocal me shbox range w) ∧
    ((∀ garbage, CopiesLocal build me self shbox range { w with garbage }) ↔
      range.endBound ≠ .unbounded ∧ range.lo ≤ 1 ∧ Pod.size T = 0) := by
  have once (w : World P) : CopiesLocal build me self shbox range w ↔
      range.endBound ≠ .unbounded ∧ range.lo ≤ 1 ∧ AlreadyLocal me shbox range w := by
    constructor
    · intro copies
      have bounded := copies_bounded valid nonempty copies
      exact ⟨bounded, copies_early valid nonempty bounded copies⟩
    · intro condition
      obtain ⟨bounded, early, already⟩ := condition
      exact copies_of_alreadyLocal valid nonempty bounded early already
  refine ⟨once w, ?_⟩
  simp only [once]
  constructor
  · intro always
    obtain ⟨bounded, early, _⟩ := always w.garbage
    refine ⟨bounded, early, ?_⟩
    by_contra sized
    -- A buffer whose first byte differs from the local one.
    obtain ⟨_, _, already⟩ := always fun _ => w.mem me (shbox.addr + range.lo * Pod.size T) + 1
    have first := already 0 (Nat.mul_pos (Nat.sub_pos_of_lt nonempty) (Nat.pos_of_ne_zero sized))
    simp at first
  · intro condition garbage
    obtain ⟨bounded, early, zero⟩ := condition
    refine ⟨bounded, early, ?_⟩
    intro x inside
    rw [zero] at inside
    exact absurd inside (Nat.not_lt_zero x)

/-- A world of two PEs whose fresh memory holds what the arrays hold from 17 on. -/
def staleCopy : World 2 :=
  { World.blank 2 with mem := fun p x => UInt8.ofNat (x + p), garbage := fun x => UInt8.ofNat (17 + x) }

/-- A view of the last two of three elements comes out right there. -/
theorem copiesLocal_stale :
    CopiesLocal .release (0 : Fin 2) ⟨⟨1⟩, by decide⟩ (⟨16, 3, by decide⟩ : Shbox UInt8)
      (.span 1 3) staleCopy :=
  (copiesLocal_iff .release 0 _ _ _ staleCopy (by decide) (by decide)).1.mpr
    ⟨by decide, by decide, by unfold AlreadyLocal; decide⟩

/-- An array of one 7, opened in memory which holds zeros, shows a zero. -/
theorem write_not_local :
    ¬ ∀ garbage, CopiesLocal .release (0 : Fin 1) ⟨⟨0⟩, by decide⟩
      (⟨16, 1, by decide⟩ : Shbox UInt8) (.span 0 1)
      { World.blank 1 with mem := fun _ _ => 7, garbage } := by
  intro always
  obtain ⟨a, view, indexed, copy⟩ := always fun _ => 0
  cases copy.opened
  cases indexed
  exact absurd copy.shows_ (by decide)

end OpenShmem
