import OpenShmem.TransferBounds

/-! `read` against Rust's slice indexing: which ranges are refused, and what is
returned for the others. -/
namespace OpenShmem

variable {P : Nat} {T : Type} [Pod T]

/-- The outcome slice indexing would have: its elements for a valid range, and a
panic before any transfer for the others. -/
def IndexesLike (a : List T) (range : RangeBounds) (w : World P) : Outcome P (Slice T) → Prop
  | .ok s _ => range.sliceIndex a = some s.elems
  | .panic _ next => range.sliceIndex a = none ∧ next = w

/-- The invalid ranges which are read all the same. The first kind ends one past
the last element; the others are the wrapped bounds of a release build. -/
def RangeBounds.SlipsPast (build : Build) (size len : Nat) (range : RangeBounds) : Prop :=
  (range.hi len = len + 1 ∧ range.lo ≤ len ∧ (len + 1 - range.lo) * size ≤ isizeMax ∧
    ¬ (build = .debug ∧ len + 1 - range.lo = 2^64)) ∨
  (build = .release ∧ range.lo = 2^64 ∧
    if range.endBound = .unbounded then (len + 1) * size ≤ isizeMax
    else 1 ≤ range.hi len ∧ range.hi len ≤ len + 1 ∧ range.hi len * size ≤ isizeMax) ∨
  (build = .release ∧ len = usizeMax ∧ range.endBound = .excluded 0 ∧ 0 < range.lo)

/-- The ranges on which `read` does what slice indexing does: among the valid ones
those which name their end and are not empty, among the others those which do not
slip past the checks. (An array of `usize::MAX` elements of size zero makes `0..0`
come out empty in a release build.) -/
def RangeBounds.ReadsAsSlice (build : Build) (size len : Nat) (range : RangeBounds) : Prop :=
  if range.ValidFor len then
    (range.endBound ≠ .unbounded ∧ range.lo < range.hi len) ∨
    (build = .release ∧ len = usizeMax ∧ range.endBound = .excluded 0)
  else ¬ range.SlipsPast build size len

/-- The offsets both bounds come to are in order and inside, and the elements they
enclose fit an allocation and a count. -/
def RangeBounds.Accepts (build : Build) (size len : Nat) (range : RangeBounds) : Prop :=
  range.startBound.start build ≤ range.endBound.last build len ∧
  range.endBound.last build len ≤ len ∧
  (range.endBound.last build len - range.startBound.start build + 1) * size ≤ isizeMax ∧
  ¬ (build = .debug ∧ range.endBound.last build len - range.startBound.start build + 1 = 2^64)

section

variable {build : Build} {range : RangeBounds} {len : Usize} {size : Nat}

/-- Only elements of size zero can fill all of `usize`. -/
theorem size_zero_of_full (layout : len.toNat * size ≤ isizeMax) (full : len.toNat = usizeMax) :
    size = 0 := by
  rw [full] at layout
  simp only [usizeMax, isizeMax] at layout
  omega

/-- The ranges which reach the transfer, with the elements they ask for. -/
theorem accepts_iff (layout : len.toNat * size ≤ isizeMax) :
    (∃ start count, resolve build range len = .ok (start, count) ∧
      count.toNat * size ≤ isizeMax) ↔
      range.Accepts build size len.toNat := by
  have bound := len.isLt
  rw [RangeBounds.Accepts]
  constructor
  · rintro ⟨start, count, accepted, fits⟩
    obtain ⟨first, ordered, inside, counted⟩ := resolve_ok.mp accepted
    rw [← first]
    rcases counted with ⟨exact_, value⟩ | ⟨release, wraps, value⟩
    · exact ⟨ordered, inside, by rwa [← value], by omega⟩
    · have zero := size_zero_of_full layout (by simp only [usizeMax]; omega)
      refine ⟨ordered, inside, by simp [zero], ?_⟩
      simp [release]
  · rintro ⟨ordered, inside, fits, unwrapped⟩
    obtain ⟨start, start_eq⟩ := exists_usize (n := range.startBound.start build) (by omega)
    rw [← start_eq] at ordered fits unwrapped
    have within : range.endBound.last build len.toNat - start.toNat + 1 ≤ 2^64 := by omega
    obtain ⟨count, counted⟩ := exists_count build within fun debug =>
      Nat.lt_of_le_of_ne within fun wraps => unwrapped ⟨debug, wraps⟩
    refine ⟨start, count, resolve_ok.mpr ⟨start_eq, ordered, inside, counted⟩, ?_⟩
    rcases counted with ⟨_, count_eq⟩ | ⟨_, _, zero⟩
    · rwa [count_eq]
    · simp [zero]

theorem Bound.last_release_zero : (Bound.excluded 0).last .release len.toNat = usizeMax := rfl

theorem Bound.last_debug_zero : (Bound.excluded 0).last .debug len.toNat = 2^64 := rfl

theorem Bound.ne_excluded_zero {bound : Bound} {len : Nat} (positive : 0 < bound.hi len) :
    bound ≠ .excluded 0 := by
  rintro rfl
  exact absurd positive (Nat.lt_irrefl 0)

/-- A start which wraps to zero takes everything up to the end bound with it. -/
theorem slipsPast_wrapped (layout : len.toNat * size ≤ isizeMax) (top : range.lo = 2^64) :
    range.Accepts .release size len.toNat ↔ range.SlipsPast .release size len.toNat := by
  have bound := len.isLt
  have start : range.startBound.start .release = 0 := if_pos ⟨rfl, top⟩
  have full := size_zero_of_full layout
  rw [RangeBounds.Accepts, RangeBounds.SlipsPast, start, top]
  by_cases unbounded : range.endBound = .unbounded
  · simp [RangeBounds.hi, unbounded, Bound.last, Bound.hi]
  by_cases positive : 0 < range.hi len.toNat
  · have last : range.endBound.last .release len.toNat = range.hi len.toNat - 1 :=
      Bound.last_of_pos .release unbounded positive
    have count : range.hi len.toNat - 1 - 0 + 1 = range.hi len.toNat := by omega
    have named : range.endBound ≠ .excluded 0 := Bound.ne_excluded_zero positive
    rw [last, if_neg unbounded, count]
    constructor
    · rintro ⟨_, inside, fits, _⟩
      exact .inr (.inl ⟨rfl, rfl, positive, by omega, fits⟩)
    · intro slips
      rcases slips with ⟨_, _, _⟩ | ⟨_, _, _, inside, fits⟩ | ⟨_, _, zero, _⟩
      · omega
      · exact ⟨Nat.zero_le _, by omega, fits, by simp⟩
      · exact absurd zero named
  · have zero : range.hi len.toNat = 0 := by omega
    rw [Bound.eq_excluded_zero unbounded zero, Bound.last_release_zero, zero]
    constructor
    · rintro ⟨_, inside, _, _⟩
      exact .inr (.inr ⟨rfl, by simp only [usizeMax] at *; omega, rfl, by decide⟩)
    · intro slips
      rcases slips with ⟨_, _, _⟩ | ⟨_, _, counted⟩ | ⟨_, everything, _, _⟩
      · omega
      · simp at counted
      · simp [full everything, everything]

/-- Where the start is exact, an invalid range is accepted only for its end: one past
the length, or an `Excluded(0)` which wraps to a length of `usize::MAX`. -/
theorem slipsPast_exact (layout : len.toNat * size ≤ isizeMax)
    (start : range.startBound.start build = range.lo)
    (exact_ : ¬ (build = .release ∧ range.lo = 2^64)) (invalid : ¬ range.ValidFor len.toNat) :
    range.Accepts build size len.toNat ↔ range.SlipsPast build size len.toNat := by
  have bound := len.isLt
  have full := size_zero_of_full layout
  rw [RangeBounds.ValidFor] at invalid
  rw [RangeBounds.Accepts, RangeBounds.SlipsPast, start]
  by_cases unbounded : range.endBound = .unbounded
  · have last : range.endBound.last build len.toNat = len.toNat := by rw [unbounded]; rfl
    have hi : range.hi len.toNat = len.toNat := RangeBounds.hi_unbounded unbounded
    rw [last, hi]
    constructor
    · rintro ⟨ordered, _⟩
      omega
    · intro slips
      rcases slips with ⟨_, _⟩ | ⟨release, top, _⟩ | ⟨_, _, named, _⟩
      · omega
      · exact absurd ⟨release, top⟩ exact_
      · rw [unbounded] at named
        cases named
  by_cases positive : 0 < range.hi len.toNat
  · have last : range.endBound.last build len.toNat = range.hi len.toNat - 1 :=
      Bound.last_of_pos build unbounded positive
    have named : range.endBound ≠ .excluded 0 := Bound.ne_excluded_zero positive
    have count (end_eq : range.hi len.toNat = len.toNat + 1) (ordered : range.lo ≤ len.toNat) :
        range.hi len.toNat - 1 - range.lo + 1 = len.toNat + 1 - range.lo := by omega
    rw [last]
    constructor
    · rintro ⟨ordered, inside, fits, unwrapped⟩
      have end_eq : range.hi len.toNat = len.toNat + 1 := by omega
      rw [count end_eq (by omega)] at fits unwrapped
      exact .inl ⟨end_eq, by omega, fits, unwrapped⟩
    · intro slips
      rcases slips with ⟨end_eq, ordered, fits, unwrapped⟩ | ⟨release, top, _⟩ | ⟨_, _, zero, _⟩
      · rw [count end_eq ordered]
        exact ⟨by omega, by omega, fits, unwrapped⟩
      · exact absurd ⟨release, top⟩ exact_
      · exact absurd zero named
  · have zero : range.hi len.toNat = 0 := by omega
    rw [Bound.eq_excluded_zero unbounded zero, zero]
    cases build with
    | debug =>
      rw [Bound.last_debug_zero]
      constructor
      · rintro ⟨_, inside, _⟩
        omega
      · intro slips
        rcases slips with ⟨_, _⟩ | ⟨release, _⟩ | ⟨release, _⟩
        · omega
        · cases release
        · cases release
    | release =>
      rw [Bound.last_release_zero]
      constructor
      · rintro ⟨_, inside, _, _⟩
        exact .inr (.inr ⟨rfl, by simp only [usizeMax] at *; omega, rfl, by omega⟩)
      · intro slips
        rcases slips with ⟨_, _, _⟩ | ⟨_, top, _⟩ | ⟨_, everything, _, _⟩
        · omega
        · exact absurd ⟨rfl, top⟩ exact_
        · have below : range.lo ≤ 2^64 := range.startBound.lo_le
          have different : range.lo ≠ 2^64 := fun top => exact_ ⟨rfl, top⟩
          simp [full everything, everything, usizeMax]
          omega

/-- Among the invalid ranges, the accepted ones are those which slip past. -/
theorem slipsPast_iff (layout : len.toNat * size ≤ isizeMax)
    (invalid : ¬ range.ValidFor len.toNat) :
    (∃ start count, resolve build range len = .ok (start, count) ∧
      count.toNat * size ≤ isizeMax) ↔ range.SlipsPast build size len.toNat := by
  rw [accepts_iff layout]
  by_cases wraps : build = .release ∧ range.lo = 2^64
  · obtain ⟨rfl, top⟩ := wraps
    exact slipsPast_wrapped layout top
  · exact slipsPast_exact layout (if_neg wraps) wraps invalid

/-- Among the valid ranges, those whose count comes out right. -/
theorem counts_iff (layout : len.toNat * size ≤ isizeMax) (valid : range.ValidFor len.toNat) :
    (∃ start count, resolve build range len = .ok (start, count) ∧
      count.toNat * size ≤ isizeMax ∧ count.toNat = range.hi len.toNat - range.lo) ↔
    (range.endBound ≠ .unbounded ∧ range.lo < range.hi len.toNat) ∨
      (build = .release ∧ len.toNat = usizeMax ∧ range.endBound = .excluded 0) := by
  have bound := len.isLt
  obtain ⟨ordered, inside⟩ := valid
  have start : range.startBound.start build = range.lo :=
    Bound.start_exact (Nat.lt_of_le_of_lt (Nat.le_trans ordered inside) bound)
  constructor
  · rintro ⟨s, count, accepted, _, exact_⟩
    obtain ⟨first, below, last_le, counted⟩ := resolve_ok.mp accepted
    rw [start] at first
    by_cases unbounded : range.endBound = .unbounded
    · -- The count is one more than the elements there are.
      have last : range.endBound.last build len.toNat = len.toNat := by rw [unbounded]; rfl
      have hi : range.hi len.toNat = len.toNat := RangeBounds.hi_unbounded unbounded
      rw [last] at counted
      omega
    · by_cases positive : 0 < range.hi len.toNat
      · have last : range.endBound.last build len.toNat = range.hi len.toNat - 1 :=
          Bound.last_of_pos build unbounded positive
        rw [last] at below
        exact .inl ⟨unbounded, by omega⟩
      · have zero : range.hi len.toNat = 0 := by omega
        have named : range.endBound = .excluded 0 := Bound.eq_excluded_zero unbounded zero
        cases build with
        | debug =>
          rw [named, Bound.last_debug_zero] at last_le
          omega
        | release =>
          rw [named, Bound.last_release_zero] at last_le
          exact .inr ⟨rfl, by simp only [usizeMax] at *; omega, named⟩
  · intro exact_
    rcases exact_ with ⟨bounded, nonempty⟩ | ⟨rfl, full, named⟩
    · obtain ⟨first, count, opened, _, count_eq⟩ :=
        resolve_bounded build ⟨ordered, inside⟩ nonempty bounded
      exact ⟨first, count, opened, Nat.le_trans (Nat.mul_le_mul_right _ (by omega)) layout, count_eq⟩
    · have empty : range.hi len.toNat = 0 := by rw [RangeBounds.hi, named]; rfl
      have zero : range.lo = 0 := by omega
      refine ⟨0, 0, resolve_ok.mpr ?_, by simp, by simp [empty]⟩
      rw [start, zero, named, Bound.last_release_zero, full]
      exact ⟨rfl, Nat.zero_le _, Nat.le_refl _, .inr ⟨rfl, rfl, rfl⟩⟩

end

section

variable {build : Build} {self : PEReference P} {shbox : Shbox T} {range : RangeBounds}
  {start count : Usize} {w : World P}

theorem read_indexes_ok (accepted : resolve build range shbox.len = .ok (start, count))
    (fits : count.toNat * Pod.size T ≤ isizeMax) :
    IndexesLike (shbox.contents (w.mem self.target)) range w ((self.read build shbox range).run w) ↔
      range.sliceIndex (shbox.contents (w.mem self.target)) =
        some (elements T (w.mem self.target) (shbox.offset start) count.toNat) := by
  obtain ⟨s, result, elems⟩ := PEReference.read_resolved self (w := w) accepted fits
  rw [result, ← elems]
  exact Iff.rfl

theorem read_indexes_panic
    (never : ∀ start count, resolve build range shbox.len = .ok (start, count) →
      ¬ count.toNat * Pod.size T ≤ isizeMax) :
    IndexesLike (shbox.contents (w.mem self.target)) range w ((self.read build shbox range).run w) ↔
      ¬ range.ValidFor shbox.len.toNat := by
  obtain ⟨p, result⟩ := PEReference.read_rejected self (w := w) never
  rw [result]
  simp [IndexesLike, RangeBounds.sliceIndex]

/-- A valid range is read as slice indexing reads it when its count comes out right. -/
theorem read_valid (valid : range.ValidFor shbox.len.toNat)
    (accepted : resolve build range shbox.len = .ok (start, count))
    (fits : count.toNat * Pod.size T ≤ isizeMax) :
    IndexesLike (shbox.contents (w.mem self.target)) range w ((self.read build shbox range).run w) ↔
      count.toNat = range.hi shbox.len.toNat - range.lo := by
  have first : start.toNat = range.lo := by
    rw [(resolve_ok.mp accepted).1]
    exact Bound.start_exact (Nat.lt_of_le_of_lt (Nat.le_trans valid.1 valid.2) shbox.len.isLt)
  rw [read_indexes_ok accepted fits, shbox.sliceIndex_contents _ valid, Shbox.offset, first,
    Option.some.injEq]
  constructor
  · intro same
    simpa using (congrArg List.length same).symm
  · intro same
    rw [same]

/-- `read` and `get` index as slices do on the ranges which read as slices, and on no others. -/
theorem read_indexes_iff (build : Build) (self : PEReference P) (shbox : Shbox T)
    (range : RangeBounds) (w : World P) :
    (IndexesLike (shbox.contents (w.mem self.target)) range w
        ((self.read build shbox range).run w) ∧
      IndexesLike (shbox.contents (w.mem self.target)) range w
        ((self.get build shbox range).run w)) ↔
      range.ReadsAsSlice build (Pod.size T) shbox.len.toNat := by
  rw [PEReference.get, and_self, RangeBounds.ReadsAsSlice]
  rcases resolve_cases build range shbox.len (Pod.size T) with
    ⟨start, count, accepted, fits⟩ | never
  · split_ifs with valid
    · rw [read_valid valid accepted fits, ← counts_iff shbox.layout valid]
      constructor
      · intro counted
        exact ⟨start, count, accepted, fits, counted⟩
      · rintro ⟨start', count', accepted', _, counted⟩
        cases accepted.symm.trans accepted'
        exact counted
    · have slips := (slipsPast_iff shbox.layout valid).mp ⟨start, count, accepted, fits⟩
      rw [read_indexes_ok accepted fits, RangeBounds.sliceIndex, Shbox.contents_length,
        if_neg valid]
      simp [slips]
  · rw [read_indexes_panic never]
    split_ifs with valid
    · rw [← counts_iff shbox.layout valid]
      refine iff_of_false (fun invalid => invalid valid) ?_
      rintro ⟨start, count, accepted, fits, _⟩
      exact never start count accepted fits
    · rw [← slipsPast_iff shbox.layout valid]
      refine iff_of_true valid ?_
      rintro ⟨start, count, accepted, fits⟩
      exact never start count accepted fits

/-- `read(&rows, ..)` does not return the rows: it has one element too many. -/
theorem read_full_not_slice :
    ¬ ∀ w : World 1,
      IndexesLike ((⟨16, 5, by decide⟩ : Shbox UInt8).contents (w.mem 0)) .full w
        ((PEReference.read .release ⟨⟨0⟩, by decide⟩ (⟨16, 5, by decide⟩ : Shbox UInt8)
          .full).run w) := by
  intro indexes
  exact absurd (congrArg (Option.map List.length) (indexes (.blank 1))) (by decide)

end

end OpenShmem
