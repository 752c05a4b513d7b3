import Mathlib.Data.BitVec
import Mathlib.Tactic.SplitIfs

/-! `usize` arithmetic under both overflow policies, the three kinds of bound of
a `RangeBounds<usize>`, and `apply_range_bounds`. Exact slice indexing is stated
next to it, as the yardstick the callers are compared with. -/
namespace OpenShmem

abbrev Usize := BitVec 64

def usizeMax : Nat := 2^64 - 1
def isizeMax : Nat := 2^63 - 1

/-- Overflow of `+`, `-` and `*` panics in a debug build and wraps in a release build. -/
inductive Build where
  | debug
  | release
  deriving DecidableEq, Repr

inductive Panic where
  | addOverflow
  | subtractOverflow
  | multiplyOverflow
  | endOutOfBounds (end_ len : Nat)
  | startOutOfBounds (shown len : Nat)
  | startAfterEnd (start end_ : Nat)
  | capacityOverflow
  | bufferTooSmall
  | tooMuchData
  | indexOutOfBounds (len idx : Nat)
  | invalidPe (pe : Nat)
  | nbiOpDropped
  | nbiSliceOpDropped
  deriving DecidableEq, Repr

def Panic.message : Panic → String
  | .addOverflow => "attempt to add with overflow"
  | .subtractOverflow => "attempt to subtract with overflow"
  | .multiplyOverflow => "attempt to multiply with overflow"
  | .endOutOfBounds end_ len => s!"end of range out of bounds: {end_} > {len}"
  | .startOutOfBounds shown len => s!"start of range out of bounds: {shown} > {len}"
  | .startAfterEnd start end_ => s!"invalid range: start before end: {start}..{end_}"
  | .capacityOverflow => "capacity overflow"
  | .bufferTooSmall => "provided buffer was not large enough!"
  | .tooMuchData => "tried to write more data into a shbox than would fit!"
  | .indexOutOfBounds len idx => s!"tried to idx out of bounds: len {len}, idx {idx}"
  | .invalidPe pe => s!"ctx.pe() called with invalid PE idx {pe}"
  | .nbiOpDropped => "PendingNbiOp MUST be passed to ShmemCtx::quiet!\n" ++
      "                You MUST NOT let this type be dropped!"
  | .nbiSliceOpDropped => "PendingNbiSliceOp MUST be passed to ShmemCtx::quiet!\n" ++
      "                You MUST NOT let this type be dropped!"

/-- A machine operation: its wrapped result, unless a debug build saw it overflow. -/
def checked (build : Build) (fits : Bool) (overflow : Panic) (wrapped : Usize) :
    Except Panic Usize :=
  if fits || build == .release then .ok wrapped else .error overflow

def usizeAdd (build : Build) (x y : Usize) : Except Panic Usize :=
  checked build (decide (x.toNat + y.toNat < 2^64)) .addOverflow (x + y)

def usizeSub (build : Build) (x y : Usize) : Except Panic Usize :=
  checked build (decide (y.toNat ≤ x.toNat)) .subtractOverflow (x - y)

def usizeMul (build : Build) (x y : Usize) : Except Panic Usize :=
  checked build (decide (x.toNat * y.toNat < 2^64)) .multiplyOverflow (x * y)

inductive Bound where
  | included (x : Usize)
  | excluded (x : Usize)
  | unbounded
  deriving DecidableEq, Repr

structure RangeBounds where
  startBound : Bound
  endBound : Bound
  deriving DecidableEq, Repr

namespace RangeBounds

/-- The range forms of the surface syntax. -/
def full : RangeBounds := ⟨.unbounded, .unbounded⟩
def span (start end_ : Usize) : RangeBounds := ⟨.included start, .excluded end_⟩

end RangeBounds

def endOf (build : Build) (bound : Bound) (len : Usize) : Except Panic Usize :=
  match bound with
  | .included x => .ok x
  | .excluded x => usizeSub build x 1
  | .unbounded => .ok len

def startOf (build : Build) (bound : Bound) : Except Panic Usize :=
  match bound with
  | .included x => .ok x
  | .excluded x => usizeAdd build x 1
  | .unbounded => .ok 0

/-- `t` enters only through its length. The pair holds the offset of the first
element and, for a bounded end, the offset of the last one. -/
def applyRangeBounds (build : Build) (bounds : RangeBounds) (len : Usize) :
    Except Panic (Usize × Usize) := do
  let end_ ← endOf build bounds.endBound len
  let start ← startOf build bounds.startBound
  if end_.toNat > len.toNat then
    throw (.endOutOfBounds end_.toNat len.toNat)
  -- The message of this check shows `end`, as the source does.
  if start.toNat > len.toNat then
    throw (.startOutOfBounds end_.toNat len.toNat)
  if start.toNat > end_.toNat then
    throw (.startAfterEnd start.toNat end_.toNat)
  return (start, end_)

/-- `end - start + 1`, as every caller writes it. -/
def elementCount (build : Build) (start end_ : Usize) : Except Panic Usize := do
  usizeAdd build (← usizeSub build end_ start) 1

/-- The two lines every caller starts with: the offset of the first element and
the number of elements it goes on to transfer. -/
def resolve (build : Build) (bounds : RangeBounds) (len : Usize) :
    Except Panic (Usize × Usize) := do
  let (start, end_) ← applyRangeBounds build bounds len
  return (start, ← elementCount build start end_)

theorem exists_usize {n : Nat} (small : n < 2^64) : ∃ x : Usize, x.toNat = n :=
  ⟨BitVec.ofNat 64 n, by simp only [BitVec.toNat_ofNat]; exact Nat.mod_eq_of_lt small⟩

/-- A count of up to `2^64`, as the build has it: a debug build does not get that far. -/
theorem exists_count (build : Build) {n : Nat} (small : n ≤ 2^64)
    (checks : build = .debug → n < 2^64) :
    ∃ count : Usize, (n < 2^64 ∧ count.toNat = n) ∨
      (build = .release ∧ n = 2^64 ∧ count.toNat = 0) := by
  by_cases fits : n < 2^64
  · obtain ⟨count, count_eq⟩ := exists_usize fits
    exact ⟨count, .inl ⟨fits, count_eq⟩⟩
  · cases build with
    | debug => exact absurd (checks rfl) fits
    | release => exact ⟨0, .inr ⟨rfl, by omega, rfl⟩⟩

theorem usizeAdd_fits (build : Build) {x y : Usize} (fits : x.toNat + y.toNat < 2^64) :
    usizeAdd build x y = .ok (x + y) := by
  rw [usizeAdd, decide_eq_true fits]
  rfl

theorem usizeSub_fits (build : Build) {x y : Usize} (fits : y.toNat ≤ x.toNat) :
    usizeSub build x y = .ok (x - y) := by
  rw [usizeSub, decide_eq_true fits]
  rfl

theorem usizeMul_fits (build : Build) {x y : Usize} (fits : x.toNat * y.toNat < 2^64) :
    usizeMul build x y = .ok (x * y) := by
  rw [usizeMul, decide_eq_true fits]
  rfl

/-- The offset exact arithmetic gives a start bound; `Excluded(usize::MAX)` gives `2^64`. -/
def Bound.lo : Bound → Nat
  | .included x => x.toNat
  | .excluded x => x.toNat + 1
  | .unbounded => 0

/-- The first offset past the range, in exact arithmetic. -/
def Bound.hi (len : Nat) : Bound → Nat
  | .included x => x.toNat + 1
  | .excluded x => x.toNat
  | .unbounded => len

/-- The start a build works with: in a release build `Excluded(usize::MAX)` wraps to zero. -/
def Bound.start (build : Build) (bound : Bound) : Nat :=
  if build = .release ∧ bound.lo = 2^64 then 0 else bound.lo

/-- The last offset a build works with. An unbounded end stands for the length,
one more than the last offset; `Excluded(0)` wraps in a release build and is out
of every range in a debug build. -/
def Bound.last (build : Build) (len : Nat) (bound : Bound) : Nat :=
  if bound = .unbounded then len
  else if bound.hi len = 0 then (if build = .release then usizeMax else 2^64)
  else bound.hi len - 1

namespace RangeBounds

def lo (bounds : RangeBounds) : Nat := bounds.startBound.lo
def hi (bounds : RangeBounds) (len : Nat) : Nat := bounds.endBound.hi len

/-- The ranges which index a slice of this length without a panic. -/
def ValidFor (bounds : RangeBounds) (len : Nat) : Prop :=
  bounds.lo ≤ bounds.hi len ∧ bounds.hi len ≤ len

instance (bounds : RangeBounds) (len : Nat) : Decidable (bounds.ValidFor len) :=
  inferInstanceAs (Decidable (_ ∧ _))

/-- Rust's `a[R]`, with `none` for the panic of an invalid range. -/
def sliceIndex {T : Type} (bounds : RangeBounds) (a : List T) : Option (List T) :=
  if bounds.ValidFor a.length then
    some ((a.drop bounds.lo).take (bounds.hi a.length - bounds.lo))
  else none

end RangeBounds

theorem Bound.lo_le (bound : Bound) : bound.lo ≤ 2^64 := by
  cases bound with
  | included x => have := x.isLt; simp only [Bound.lo]; omega
  | excluded x => have := x.isLt; simp only [Bound.lo]; omega
  | unbounded => simp [Bound.lo]

theorem startOf_ok {build : Build} {bound : Bound} {s : Usize} :
    startOf build bound = .ok s ↔ s.toNat = bound.start build := by
  have small := s.isLt
  cases bound with
  | included x =>
    have different : x.toNat ≠ 2^64 := by have := x.isLt; omega
    simp only [startOf, Bound.start, Bound.lo, different, and_false, if_false, Except.ok.injEq,
      ← BitVec.toNat_inj, eq_comm]
  | unbounded =>
    simp only [startOf, Bound.start, Bound.lo, Except.ok.injEq, ← BitVec.toNat_inj]
    simp [eq_comm]
  | excluded x =>
    by_cases fits : x.toNat + (1 : Usize).toNat < 2^64
    · have different : x.toNat + 1 ≠ 2^64 := Nat.ne_of_lt fits
      simp only [startOf, usizeAdd_fits build fits, Bound.start, Bound.lo, different, and_false,
        if_false, Except.ok.injEq, ← BitVec.toNat_inj, BitVec.toNat_add, Nat.mod_eq_of_lt fits]
      exact eq_comm
    · have top : x.toNat = 2^64 - 1 := by have := x.isLt; simp at fits; omega
      cases build with
      | debug => simp [startOf, usizeAdd, checked, Bound.start, Bound.lo, top]; omega
      | release =>
        simp [startOf, usizeAdd, checked, Bound.start, Bound.lo, top, ← BitVec.toNat_inj, eq_comm]

theorem endOf_ok {build : Build} {bound : Bound} {len e : Usize} :
    endOf build bound len = .ok e ↔ e.toNat = bound.last build len.toNat := by
  have small := e.isLt
  cases bound with
  | included x =>
    simp [endOf, Bound.last, Bound.hi, ← BitVec.toNat_inj, eq_comm]
  | unbounded =>
    simp [endOf, Bound.last, ← BitVec.toNat_inj, eq_comm]
  | excluded x =>
    by_cases positive : (1 : Usize).toNat ≤ x.toNat
    · have nonzero : x.toNat ≠ 0 := Nat.ne_of_gt positive
      simp only [endOf, usizeSub_fits build positive, Bound.last, Bound.hi, nonzero, if_false,
        reduceCtorEq, Except.ok.injEq, ← BitVec.toNat_inj,
        BitVec.toNat_sub_of_le (BitVec.le_def.mpr positive)]
      exact eq_comm
    · have zero : x = 0 := by apply BitVec.eq_of_toNat_eq; simp at *; omega
      subst zero
      cases build with
      | debug => simp [endOf, usizeSub, checked, Bound.last, Bound.hi]; omega
      | release =>
        simp [endOf, usizeSub, checked, Bound.last, Bound.hi, usizeMax, ← BitVec.toNat_inj, eq_comm]

/-- `apply_range_bounds` on natural numbers: which pairs it returns. -/
theorem applyRangeBounds_ok {build : Build} {bounds : RangeBounds} {len s e : Usize} :
    applyRangeBounds build bounds len = .ok (s, e) ↔
      s.toNat = bounds.startBound.start build ∧
      e.toNat = bounds.endBound.last build len.toNat ∧
      s.toNat ≤ e.toNat ∧ e.toNat ≤ len.toNat := by
  rw [← startOf_ok, ← endOf_ok]
  unfold applyRangeBounds
  cases endOf build bounds.endBound len with
  | error p => simp [bind, Except.bind]
  | ok e' =>
    cases startOf build bounds.startBound with
    | error p => simp [bind, Except.bind]
    | ok s' =>
      simp only [bind, Except.bind, throw, throwThe, MonadExceptOf.throw, pure, Except.pure]
      constructor
      · intro accepted
        split_ifs at accepted
        cases accepted
        exact ⟨rfl, rfl, by omega, by omega⟩
      · rintro ⟨start, last, ordered, inside⟩
        cases start
        cases last
        rw [if_neg (by omega), if_neg (by omega), if_neg (by omega)]

/-- The callers' count of an accepted pair. It wraps only for the pair `(0, usize::MAX)`. -/
theorem elementCount_ok {build : Build} {s e count : Usize} (ordered : s.toNat ≤ e.toNat) :
    elementCount build s e = .ok count ↔
      (e.toNat - s.toNat + 1 < 2^64 ∧ count.toNat = e.toNat - s.toNat + 1) ∨
      (build = .release ∧ e.toNat - s.toNat + 1 = 2^64 ∧ count.toNat = 0) := by
  have difference : (e - s).toNat = e.toNat - s.toNat :=
    BitVec.toNat_sub_of_le (BitVec.le_def.mpr ordered)
  have one : (1 : Usize).toNat = 1 := rfl
  have bound := e.isLt
  simp only [elementCount, usizeSub_fits build ordered, bind, Except.bind]
  by_cases fits : e.toNat - s.toNat + 1 < 2^64
  · rw [usizeAdd_fits build (by rw [difference, one]; exact fits), Except.ok.injEq,
      ← BitVec.toNat_inj, BitVec.toNat_add, difference, one, Nat.mod_eq_of_lt fits]
    omega
  · have top : e.toNat - s.toNat + 1 = 2^64 := by omega
    cases build with
    | debug => simp [usizeAdd, checked, difference, top]
    | release =>
      simp only [usizeAdd, checked, beq_self_eq_true, Bool.or_true, if_true, Except.ok.injEq,
        ← BitVec.toNat_inj, BitVec.toNat_add, difference, one, top, true_and]
      omega

/-- The ranges the callers accept, with the offset and count they work with: the
offset is exact but for the wrapped `Excluded(usize::MAX)`, and the count is one
too many for an unbounded end. -/
theorem resolve_ok {build : Build} {bounds : RangeBounds} {len start count : Usize} :
    resolve build bounds len = .ok (start, count) ↔
      start.toNat = bounds.startBound.start build ∧
      start.toNat ≤ bounds.endBound.last build len.toNat ∧
      bounds.endBound.last build len.toNat ≤ len.toNat ∧
      ((bounds.endBound.last build len.toNat - start.toNat + 1 < 2^64 ∧
          count.toNat = bounds.endBound.last build len.toNat - start.toNat + 1) ∨
        (build = .release ∧ bounds.endBound.last build len.toNat - start.toNat + 1 = 2^64 ∧
          count.toNat = 0)) := by
  generalize hlast : bounds.endBound.last build len.toNat = last
  constructor
  · intro resolved
    cases accepted : applyRangeBounds build bounds len with
    | error p => simp [resolve, accepted, bind, Except.bind] at resolved
    | ok pair =>
      obtain ⟨s, e⟩ := pair
      simp only [resolve, accepted, bind, Except.bind] at resolved
      cases size : elementCount build s e with
      | error p => simp [size] at resolved
      | ok c =>
        simp only [size, pure, Except.pure, Except.ok.injEq, Prod.mk.injEq] at resolved
        obtain ⟨rfl, rfl⟩ := resolved
        obtain ⟨first, final, ordered, inside⟩ := applyRangeBounds_ok.mp accepted
        rw [hlast] at final
        rw [← final]
        exact ⟨first, ordered, inside, (elementCount_ok ordered).mp size⟩
  · rintro ⟨first, ordered, inside, size⟩
    have small : last < 2^64 := Nat.lt_of_le_of_lt inside len.isLt
    obtain ⟨e, rfl⟩ := exists_usize small
    have accepted := applyRangeBounds_ok.mpr ⟨first, hlast.symm, ordered, inside⟩
    simp only [resolve, accepted, bind, Except.bind, (elementCount_ok ordered).mpr size, pure,
      Except.pure]

theorem resolve_count_le {build : Build} {bounds : RangeBounds} {len start count : Usize}
    (accepted : resolve build bounds len = .ok (start, count)) :
    count.toNat ≤ len.toNat + 1 := by
  obtain ⟨_, _, inside, size⟩ := resolve_ok.mp accepted
  omega

/-- A range is resolved to elements which fit an allocation, or it never is. -/
theorem resolve_cases (build : Build) (range : RangeBounds) (len : Usize) (size : Nat) :
    (∃ start count, resolve build range len = .ok (start, count) ∧
      count.toNat * size ≤ isizeMax) ∨
    ∀ start count, resolve build range len = .ok (start, count) →
      ¬ count.toNat * size ≤ isizeMax := by
  by_cases accepted : ∃ start count, resolve build range len = .ok (start, count) ∧
      count.toNat * size ≤ isizeMax
  · exact .inl accepted
  · right
    intro start count resolves fits
    exact accepted ⟨start, count, resolves, fits⟩

theorem Bound.last_bounded {build : Build} {bound : Bound} (len len' : Nat)
    (bounded : bound ≠ .unbounded) : bound.last build len' = bound.last build len := by
  cases bound with
  | included x => rfl
  | excluded x => rfl
  | unbounded => exact absurd rfl bounded

theorem Bound.last_of_pos (build : Build) {bound : Bound} {len : Nat}
    (bounded : bound ≠ .unbounded)
    (positive : 0 < bound.hi len) : bound.last build len = bound.hi len - 1 := by
  rw [Bound.last, if_neg bounded, if_neg (by omega)]

theorem Bound.eq_excluded_zero {bound : Bound} {len : Nat} (bounded : bound ≠ .unbounded)
    (zero : bound.hi len = 0) : bound = .excluded 0 := by
  cases bound with
  | included x => simp [Bound.hi] at zero
  | excluded x => rw [BitVec.eq_of_toNat_eq (y := 0) zero]
  | unbounded => exact absurd rfl bounded

theorem RangeBounds.hi_unbounded {range : RangeBounds} {len : Nat}
    (unbounded : range.endBound = .unbounded) : range.hi len = len := by
  rw [RangeBounds.hi, unbounded]
  rfl

/-- The last element of a range which names its end and is not empty. -/
theorem RangeBounds.last_nonempty (build : Build) {range : RangeBounds} {len : Nat}
    (bounded : range.endBound ≠ .unbounded) (nonempty : range.lo < range.hi len) :
    range.endBound.last build len = range.hi len - 1 :=
  Bound.last_of_pos build bounded (Nat.lt_of_le_of_lt (Nat.zero_le _) nonempty)

theorem Bound.start_exact {build : Build} {bound : Bound} (small : bound.lo < 2^64) :
    bound.start build = bound.lo := if_neg (by omega)

/-- A valid range which is not empty and names its end is resolved exactly. -/
theorem resolve_bounded (build : Build) {range : RangeBounds} {len : Usize}
    (valid : range.ValidFor len.toNat)
    (nonempty : range.lo < range.hi len.toNat) (bounded : range.endBound ≠ .unbounded) :
    ∃ first size, resolve build range len = .ok (first, size) ∧
      first.toNat = range.lo ∧ size.toNat = range.hi len.toNat - range.lo := by
  have bound := len.isLt
  obtain ⟨_, inside⟩ := valid
  have last : range.endBound.last build len.toNat = range.hi len.toNat - 1 :=
    RangeBounds.last_nonempty build bounded nonempty
  obtain ⟨first, first_eq⟩ := exists_usize (n := range.lo) (by omega)
  obtain ⟨size, size_eq⟩ := exists_usize (n := range.hi len.toNat - range.lo) (by omega)
  refine ⟨first, size, resolve_ok.mpr ⟨?_, ?_, ?_, .inl ⟨?_, ?_⟩⟩, first_eq, size_eq⟩
  · rw [first_eq]
    exact (Bound.start_exact (show range.startBound.lo < 2^64 from by
      unfold RangeBounds.lo at *; omega)).symm
  all_goals rw [last]; omega

theorem resolve_span (build : Build) {a b len : Usize} (ordered : a.toNat < b.toNat)
    (inside : b.toNat ≤ len.toNat) :
    ∃ size : Usize, resolve build (.span a b) len = .ok (a, size) ∧
      size.toNat = b.toNat - a.toNat := by
  have valid : (RangeBounds.span a b).ValidFor len.toNat := ⟨Nat.le_of_lt ordered, inside⟩
  obtain ⟨first, size, opened, first_eq, size_eq⟩ :=
    resolve_bounded build valid ordered (by simp [RangeBounds.span])
  obtain rfl : first = a := BitVec.eq_of_toNat_eq first_eq
  exact ⟨size, opened, size_eq⟩

/-! A range resolved once more against a buffer of the count it resolved to. -/
section

variable {build : Build} {bounds : RangeBounds} {len first size start count : Usize}

/-- A bounded range names the same elements, if its last offset is a length at most. -/
theorem reresolve_bounded (opened : resolve build bounds len = .ok (first, size))
    (bounded : bounds.endBound ≠ .unbounded) :
    resolve build bounds size = .ok (start, count) ↔
      start = first ∧ count = size ∧ bounds.endBound.last build len.toNat ≤ size.toNat := by
  obtain ⟨first_eq, ordered, inside, size_eq⟩ := resolve_ok.mp opened
  rw [resolve_ok, Bound.last_bounded len.toNat _ bounded]
  simp only [← BitVec.toNat_inj]
  cases build <;> simp only [true_and, false_and, or_false, reduceCtorEq] at size_eq ⊢ <;> omega

/-- An unbounded range stretches to the longer buffer and past its end. -/
theorem reresolve_unbounded (opened : resolve build bounds len = .ok (first, size))
    (unbounded : bounds.endBound = .unbounded) :
    resolve build bounds size = .ok (start, count) ↔
      start = first ∧ start.toNat ≤ size.toNat ∧
      ((size.toNat - start.toNat + 1 < 2^64 ∧ count.toNat = size.toNat - start.toNat + 1) ∨
        (build = .release ∧ size.toNat - start.toNat + 1 = 2^64 ∧ count.toNat = 0)) := by
  obtain ⟨first_eq, ordered, inside, size_eq⟩ := resolve_ok.mp opened
  rw [resolve_ok, unbounded]
  simp only [Bound.last, if_true, ← BitVec.toNat_inj]
  cases build <;> simp only [true_and, false_and, or_false, reduceCtorEq] <;> omega

end

end OpenShmem
