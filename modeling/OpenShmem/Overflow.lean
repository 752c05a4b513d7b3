import OpenShmem.SliceReads

/-! What the two builds make of a range, against the same lines in exact arithmetic. -/
namespace OpenShmem

def exactEnd (len : Int) : Bound → Int
  | .included x => x.toNat
  | .excluded x => x.toNat - 1
  | .unbounded => len

def exactStart : Bound → Int
  | .included x => x.toNat
  | .excluded x => x.toNat + 1
  | .unbounded => 0

/-- The lines of `resolve` on integers, where nothing overflows. -/
def resolveExact (bounds : RangeBounds) (len : Int) : Option (Int × Int) :=
  let end_ := exactEnd len bounds.endBound
  let start := exactStart bounds.startBound
  if end_ > len ∨ start > len ∨ start > end_ then none else some (start, end_ - start + 1)

/-- What a build accepts a range as: the offset and the count, or nothing. -/
def outcome (build : Build) (bounds : RangeBounds) (len : Usize) : Option (Int × Int) :=
  match resolve build bounds len with
  | .ok (start, count) => some (start.toNat, count.toNat)
  | .error _ => none

/-- Both builds accept what exact arithmetic accepts, as the same elements. Where the
release build accepts, the checks of the debug build find no overflow. -/
structure BuildIndependent (bounds : RangeBounds) (len : Usize) : Prop where
  exactly : ∀ build, outcome build bounds len = resolveExact bounds len.toNat
  unwrapped : ∀ start count, resolve .release bounds len = .ok (start, count) →
    resolve .debug bounds len = .ok (start, count)

/-- The bounds whose arithmetic wraps without being turned back. `Excluded(usize::MAX)`
starts at element 0 again where the end is accepted. The others need an array of
`usize::MAX` elements: there `Excluded(0)` ends at the length, and a range from element
0 to it has one element more than can be counted. -/
def RangeBounds.Wraps (len : Nat) (bounds : RangeBounds) : Prop :=
  (bounds.lo = 2^64 ∧
    (bounds.endBound = .unbounded ∨ 1 ≤ bounds.hi len ∧ bounds.hi len ≤ len + 1)) ∨
  (len = usizeMax ∧
    (bounds.endBound = .excluded 0 ∨ bounds.lo = 0 ∧ bounds.PastEnd len))

section

variable {build : Build} {bounds : RangeBounds} {len start count : Usize}

theorem outcome_ok (accepted : resolve build bounds len = .ok (start, count)) :
    outcome build bounds len = some ((start.toNat : Int), (count.toNat : Int)) := by
  rw [outcome, accepted]

/-- The ranges a build accepts, whatever the size of the elements. -/
theorem resolves_iff :
    (∃ start count, resolve build bounds len = .ok (start, count)) ↔
      bounds.Accepts build 0 len.toNat := by
  rw [← accepts_iff (show len.toNat * 0 ≤ isizeMax from Nat.zero_le _)]
  simp

theorem exactStart_eq (bound : Bound) : exactStart bound = bound.lo := by
  cases bound with
  | included x => rfl
  | excluded x => rfl
  | unbounded => rfl

theorem exactEnd_bounded {bound : Bound} {len : Nat} (bounded : bound ≠ .unbounded) :
    exactEnd len bound = bound.hi len - 1 := by
  cases bound with
  | included x => simp [exactEnd, Bound.hi]
  | excluded x => rfl
  | unbounded => exact absurd rfl bounded

/-- The ranges exact arithmetic accepts. -/
theorem resolveExact_some {bounds : RangeBounds} {len : Nat} {s c : Int} :
    resolveExact bounds len = some (s, c) ↔
      bounds.lo ≤ exactEnd len bounds.endBound ∧ exactEnd len bounds.endBound ≤ len ∧
      s = bounds.lo ∧ c = exactEnd len bounds.endBound - bounds.lo + 1 := by
  simp only [resolveExact, exactStart_eq, RangeBounds.lo]
  split
  · simp only [reduceCtorEq, false_iff]
    omega
  · simp only [Option.some.injEq, Prod.mk.injEq]
    omega

/-- An accepted end is exact, but for `Excluded(0)` on an array of `usize::MAX` elements. -/
theorem last_exact (safe : ¬ bounds.Wraps len.toNat)
    (inside : bounds.endBound.last build len.toNat ≤ len.toNat) :
    (bounds.endBound.last build len.toNat : Int) = exactEnd len.toNat bounds.endBound := by
  have bound := len.isLt
  by_cases unbounded : bounds.endBound = .unbounded
  · rw [unbounded]
    rfl
  by_cases positive : 0 < bounds.hi len.toNat
  · have last : bounds.endBound.last build len.toNat = bounds.hi len.toNat - 1 :=
      Bound.last_of_pos build unbounded positive
    rw [exactEnd_bounded unbounded, last]
    simp only [RangeBounds.hi] at *
    omega
  · have named : bounds.endBound = .excluded 0 :=
      Bound.eq_excluded_zero unbounded (Nat.eq_zero_of_not_pos positive)
    rw [named] at inside
    cases build with
    | debug =>
      rw [Bound.last_debug_zero] at inside
      omega
    | release =>
      rw [Bound.last_release_zero] at inside
      have full : len.toNat = usizeMax := by
        simp only [usizeMax] at *
        omega
      exact absurd (.inr ⟨full, .inl named⟩) safe

/-- An accepted start is exact as well. -/
theorem start_exact (safe : ¬ bounds.Wraps len.toNat)
    (inside : bounds.endBound.last build len.toNat ≤ len.toNat) :
    bounds.startBound.start build = bounds.lo := by
  apply if_neg
  intro wraps
  obtain ⟨_, top⟩ := wraps
  have last := last_exact safe inside
  apply safe
  refine .inl ⟨top, ?_⟩
  by_cases unbounded : bounds.endBound = .unbounded
  · exact .inl unbounded
  · rw [exactEnd_bounded unbounded] at last
    simp only [RangeBounds.hi]
    omega

/-- Where nothing wraps, every accepted range is the exact one. -/
theorem outcome_exact (safe : ¬ bounds.Wraps len.toNat)
    (accepted : resolve build bounds len = .ok (start, count)) :
    outcome build bounds len = resolveExact bounds len.toNat := by
  obtain ⟨first, ordered, inside, counted⟩ := resolve_ok.mp accepted
  have last := last_exact safe inside
  rw [start_exact safe inside] at first
  rw [outcome_ok accepted, eq_comm, resolveExact_some, ← last]
  rcases counted with ⟨_, size⟩ | ⟨_, wraps, _⟩
  · omega
  · have bound := len.isLt
    refine absurd (.inr ⟨by simp only [usizeMax]; omega, .inr ⟨by omega, ?_⟩⟩) safe
    by_cases unbounded : bounds.endBound = .unbounded
    · exact .inl unbounded
    · rw [exactEnd_bounded unbounded] at last
      refine .inr ?_
      simp only [RangeBounds.hi]
      omega

/-- Where nothing wraps, both builds accept what exact arithmetic accepts. -/
theorem resolves_of_exact (build : Build) (safe : ¬ bounds.Wraps len.toNat) {s c : Int}
    (exact_ : resolveExact bounds len.toNat = some (s, c)) :
    ∃ start count, resolve build bounds len = .ok (start, count) := by
  obtain ⟨ordered, inside, rfl, rfl⟩ := resolveExact_some.mp exact_
  have bound := len.isLt
  have last : (bounds.endBound.last build len.toNat : Int) =
      exactEnd len.toNat bounds.endBound := by
    by_cases unbounded : bounds.endBound = .unbounded
    · rw [unbounded]
      rfl
    · rw [exactEnd_bounded unbounded] at ordered ⊢
      rw [Bound.last_of_pos build unbounded (by omega)]
      omega
  have start : bounds.startBound.start build = bounds.lo :=
    Bound.start_exact (show bounds.startBound.lo < 2^64 by simp only [RangeBounds.lo] at *; omega)
  rw [resolves_iff, RangeBounds.Accepts, start]
  refine ⟨by omega, by omega, Nat.zero_le _, ?_⟩
  intro full
  obtain ⟨_, full⟩ := full
  refine safe (.inr ⟨by simp only [usizeMax]; omega, .inr ⟨by omega, ?_⟩⟩)
  by_cases unbounded : bounds.endBound = .unbounded
  · exact .inl unbounded
  · rw [exactEnd_bounded unbounded] at last inside
    refine .inr ?_
    simp only [RangeBounds.hi]
    omega

theorem BuildIndependent.of_safe (safe : ¬ bounds.Wraps len.toNat) :
    BuildIndependent bounds len := by
  have exactly (build : Build) : outcome build bounds len = resolveExact bounds len.toNat := by
    cases resolved : resolve build bounds len with
    | ok pair => exact outcome_exact safe resolved
    | error p =>
      cases exact_ : resolveExact bounds len.toNat with
      | none => rw [outcome, resolved]
      | some pair =>
        obtain ⟨start, count, accepted⟩ := resolves_of_exact build safe exact_
        rw [resolved] at accepted
        cases accepted
  refine ⟨exactly, ?_⟩
  intro start count accepted
  have same : outcome .debug bounds len = some ((start.toNat : Int), (count.toNat : Int)) := by
    rw [exactly, ← exactly .release, outcome_ok accepted]
  unfold outcome at same
  cases resolved : resolve .debug bounds len with
  | error p => simp [resolved] at same
  | ok pair =>
    simp only [resolved, Option.some.injEq, Prod.mk.injEq, Int.natCast_inj, BitVec.toNat_inj] at same
    rw [← same.1, ← same.2]

/-- A release build accepts whatever ends inside once its start has wrapped. -/
theorem accepts_wrapped_start (top : bounds.lo = 2^64)
    (inside : bounds.endBound.last .release len.toNat ≤ len.toNat) :
    ∃ start count, resolve .release bounds len = .ok (start, count) := by
  have start : bounds.startBound.start .release = 0 := if_pos ⟨rfl, top⟩
  rw [resolves_iff, RangeBounds.Accepts, start]
  exact ⟨Nat.zero_le _, inside, Nat.zero_le _, by simp⟩

theorem accepts_wrapped_end (full : len.toNat = usizeMax) (named : bounds.endBound = .excluded 0) :
    ∃ start count, resolve .release bounds len = .ok (start, count) := by
  have start : bounds.startBound.start .release ≤ usizeMax := by
    have below := bounds.startBound.lo_le
    unfold Bound.start
    split
    · exact Nat.zero_le _
    next exact_ =>
      have different : bounds.startBound.lo ≠ 2^64 := fun top => exact_ ⟨rfl, top⟩
      simp only [usizeMax]
      omega
  rw [resolves_iff, RangeBounds.Accepts, named, Bound.last_release_zero]
  exact ⟨start, Nat.le_of_eq full.symm, Nat.zero_le _, by simp⟩

/-- Every range which wraps comes out differently in a release build. -/
theorem wraps_not_exact (wraps : bounds.Wraps len.toNat) :
    outcome .release bounds len ≠ resolveExact bounds len.toNat := by
  have bound := len.isLt
  intro same
  rcases wraps with ⟨top, ending⟩ | ⟨full, named | ⟨zero, past⟩⟩
  · have inside : bounds.endBound.last .release len.toNat ≤ len.toNat := by
      rcases ending with unbounded | ⟨positive, inside⟩
      · rw [unbounded]
        exact Nat.le_refl _
      · by_cases unbounded : bounds.endBound = .unbounded
        · rw [unbounded]
          exact Nat.le_refl _
        · rw [Bound.last_of_pos .release unbounded positive]
          simp only [RangeBounds.hi] at inside
          omega
    obtain ⟨start, count, accepted⟩ := accepts_wrapped_start top inside
    rw [outcome_ok accepted, eq_comm, resolveExact_some] at same
    omega
  · obtain ⟨start, count, accepted⟩ := accepts_wrapped_end full named
    rw [outcome_ok accepted, eq_comm, resolveExact_some, named] at same
    have below : (bounds.lo : Int) ≤ 0 - 1 := same.1
    omega
  · -- The exact count is one more than the largest `usize`.
    have last : exactEnd len.toNat bounds.endBound = usizeMax := by
      rcases past with unbounded | hi
      · rw [unbounded, ← full]
        rfl
      · by_cases unbounded : bounds.endBound = .unbounded
        · rw [unbounded, ← full]
          rfl
        · rw [exactEnd_bounded unbounded]
          simp only [RangeBounds.hi] at hi
          omega
    have counted : resolveExact bounds len.toNat = some (0, 2^64) := by
      rw [resolveExact_some, last, zero]
      simp only [usizeMax] at *
      omega
    rw [counted] at same
    unfold outcome at same
    split at same
    next start count _ =>
      have small := count.isLt
      simp only [Option.some.injEq, Prod.mk.injEq] at same
      omega
    next => cases same

end

/-- The builds agree with each other and with exact arithmetic unless a bound wraps. -/
theorem buildIndependent_iff (bounds : RangeBounds) (len : Usize) :
    BuildIndependent bounds len ↔ ¬ bounds.Wraps len.toNat := by
  constructor
  · intro independent wraps
    exact wraps_not_exact wraps (independent.exactly .release)
  · exact BuildIndependent.of_safe

/-- A release build takes the elements after the largest `usize`, up to element 2, for
those from element 0 on. -/
theorem excluded_max_wraps : ¬ ∀ bounds len, BuildIndependent bounds len := by
  intro independent
  have exactly := (independent ⟨.excluded (-1), .included 2⟩ 5).exactly .release
  exact absurd exactly (by decide)

end OpenShmem
