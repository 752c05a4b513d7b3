import Mathlib.Algebra.BigOperators.Fin
import Mathlib.Algebra.Order.BigOperators.Group.Finset
import OpenShmem.World

/-! `ctx.collect`: a reduction adds up the local lengths, and one collective call
gathers the bytes of all PEs. -/
namespace OpenShmem

open Overlay

variable {P : Nat} {T : Type} [Pod T]

/-- The collective routines, known by what their specification promises: `sumReduce`
is what every PE finds in its shbox, and `collectmem` is what every PE finds at `dest`
when PE `p` passes `src p` and its own byte count `nbytes p`. -/
structure Collectives (P : Nat) where
  sumReduce : (Fin P → Usize) → Usize
  collectmem : (src : Fin P → Nat → UInt8) → (nbytes : Fin P → Nat) → List UInt8
  sum_spec : ∀ values, (sumReduce values).toNat = (∑ p, (values p).toNat) % 2^64
  collect_spec : ∀ src nbytes,
    collectmem src nbytes = (List.ofFn fun p => window (src p) 0 (nbytes p)).flatten

/-- What one PE's call returns, the bytes it asked for from each PE, and the bytes
stored from the start of its result buffer on. -/
structure Collected (T : Type) [Pod T] where
  box : Slice T
  requested : Nat
  stored : Nat

/-- The call of one PE. `src` holds the local slices and `behind` the memory after
them; every PE computes the same byte count, from the same total. -/
def collect (lib : Collectives P) (build : Build) (src : Fin P → Slice T)
    (behind : Fin P → Nat → UInt8) : Shmem P (Collected T) := do
  let totalBufferSize := lib.sumReduce fun p => (src p).len
  let buf ← newUninitSlice T totalBufferSize
  let nbytes ← attempt (usizeMul build totalBufferSize (sizeOf T))
  let bytes := lib.collectmem (fun p => (src p).memory (behind p)) fun _ => nbytes.toNat
  return ⟨buf.receive bytes, nbytes.toNat, bytes.length⟩

/-- The result is the concatenation in PE order, all of it stored by the collective,
nothing behind it, and nothing read behind a local slice. -/
structure Gathers (src : Fin P → Slice T) (c : Collected T) : Prop where
  concat : c.box.elems = (List.ofFn fun p => (src p).elems).flatten
  length : c.box.elems.length = ∑ p, (src p).elems.length
  complete : c.box.elems.length * Pod.size T ≤ c.stored
  inBounds : c.stored ≤ c.box.elems.length * Pod.size T
  noOverRead : ∀ p, c.requested ≤ (src p).elems.length * Pod.size T

/-- Every PE's call returns, with a result that gathers. -/
def CollectsAll (lib : Collectives P) (build : Build) (src : Fin P → Slice T)
    (behind : Fin P → Nat → UInt8) : Prop :=
  ∀ w : World P, ∃ c next, (collect lib build src behind).run w = .ok c next ∧ Gathers src c

section

variable {lib : Collectives P} {build : Build} {src : Fin P → Slice T}
  {behind : Fin P → Nat → UInt8} {w next : World P} {c : Collected T}

/-- The total every PE works with. -/
def total (src : Fin P → Slice T) : Nat := (∑ p, (src p).elems.length) % 2^64

theorem sumReduce_total : (lib.sumReduce fun p => (src p).len).toNat = total src := by
  simp [lib.sum_spec, total]

theorem collect_ok (lib : Collectives P) (build : Build) (behind : Fin P → Nat → UInt8)
    (fits : total src * Pod.size T ≤ isizeMax) :
    ∃ buf : Slice T, buf.elems.length = total src ∧ ∃ bytes,
      bytes = (List.ofFn fun p =>
        window ((src p).memory (behind p)) 0 (total src * Pod.size T)).flatten ∧
      (collect lib build src behind).run w =
        .ok ⟨buf.receive bytes, total src * Pod.size T, bytes.length⟩ w := by
  have size : (lib.sumReduce fun p => (src p).len).toNat = total src := sumReduce_total
  obtain ⟨buf, alloc, length, _⟩ := newUninitSlice_fits (T := T) (w := w)
    (show (lib.sumReduce fun p => (src p).len).toNat * Pod.size T ≤ isizeMax by rwa [size])
  obtain ⟨product, value⟩ := usizeMul_layout build (x := lib.sumReduce fun p => (src p).len)
    (y := sizeOf T) (by rwa [size, sizeOf_toNat])
  rw [size, sizeOf_toNat] at value
  refine ⟨buf, length.trans size, _, rfl, ?_⟩
  rw [collect, bind_ok alloc, product, bind_ok (run_attempt_ok _ w)]
  simp only [run_pure, lib.collect_spec, value]

theorem collect_panics (overflows : ¬ total src * Pod.size T ≤ isizeMax) :
    (collect lib build src behind).run w = .panic .capacityOverflow w := by
  rw [collect]
  exact bind_panic (newUninitSlice_overflows (by rwa [sumReduce_total]))

omit [Pod T] in
theorem length_concat {parts : Fin P → List T} :
    (List.ofFn parts).flatten.length = ∑ p, (parts p).length := by
  rw [List.length_flatten, List.map_ofFn, List.sum_ofFn]
  rfl

/-- Lists of elements without bytes differ in length only. -/
theorem eq_of_unsized (unsized : Pod.size T = 0) {xs ys : List T} (length : xs.length = ys.length) :
    xs = ys := by
  have single (t : T) : t = Pod.ofBytes [] := by
    rw [← Pod.ofBytes_toBytes t, List.eq_nil_of_length_eq_zero
      ((Pod.length_toBytes t).trans unsized)]
  apply List.ext_getElem length
  intro i h h'
  rw [single xs[i], single ys[i]]

/-- Two PEs cannot both hold all there is, unless that is nothing. -/
theorem sum_eq_zero {lens : Fin P → Nat} (several : P ≠ 1) (all : ∀ p, ∑ q, lens q ≤ lens p) :
    ∑ p, lens p = 0 := by
  by_contra some_
  obtain ⟨p, _, positive⟩ := Finset.exists_ne_zero_of_sum_ne_zero some_
  have other : ∃ q, q ≠ p := by
    by_contra only
    push Not at only
    have one : P ≤ 1 := by
      have := Fintype.card_le_one_iff.mpr fun a b => (only a).trans (only b).symm
      simpa using this
    have := p.isLt
    omega
  obtain ⟨q, different⟩ := other
  have both : lens q + lens p ≤ ∑ q, lens q :=
    Finset.add_le_sum (fun _ _ => Nat.zero_le _) (Finset.mem_univ q) (Finset.mem_univ p) different
  have := all q
  omega

/-- What a gathering call says about the lengths it was given. -/
theorem lengths_of_gathers (result : (collect lib build src behind).run w = .ok c next)
    (gathers : Gathers src c) :
    P = 1 ∨ ∑ p, (src p).elems.length = 0 ∨
      (Pod.size T = 0 ∧ ∑ p, (src p).elems.length < 2^64) := by
  by_cases fits : total src * Pod.size T ≤ isizeMax
  · obtain ⟨buf, length, bytes, _, returned⟩ :=
      collect_ok (w := w) lib build behind fits
    rw [returned] at result
    cases result
    have exact_ : total src = ∑ p, (src p).elems.length := by
      rw [← length, ← buf.receive_length bytes, gathers.length]
    by_cases unsized : Pod.size T = 0
    · exact .inr (.inr ⟨unsized, by rw [← exact_]; exact Nat.mod_lt _ (by decide)⟩)
    · by_cases one : P = 1
      · exact .inl one
      · refine .inr (.inl (sum_eq_zero one fun p => ?_))
        rw [← exact_]
        exact Nat.le_of_mul_le_mul_right (gathers.noOverRead p) (Nat.pos_of_ne_zero unsized)
  · rw [collect_panics fits] at result
    cases result

/-- Where nothing has to be moved, the lengths alone have to be right. -/
theorem collects_nothing (exact_ : ∑ p, (src p).elems.length < 2^64)
    (nothing : (∑ p, (src p).elems.length) * Pod.size T = 0) :
    CollectsAll lib build src behind := by
  intro w
  have total_eq : total src = ∑ p, (src p).elems.length := Nat.mod_eq_of_lt exact_
  rw [← total_eq] at nothing
  obtain ⟨buf, length, bytes, content, result⟩ :=
    collect_ok (w := w) lib build behind
      (by rw [nothing]; exact Nat.zero_le _)
  have empty : bytes = [] := by
    rw [content, nothing, List.flatten_eq_nil_iff]
    simp [window]
  have sum : (buf.receive bytes).elems.length = ∑ p, (src p).elems.length := by
    rw [buf.receive_length, length, total_eq]
  refine ⟨_, _, result, ?_, sum, ?_, ?_, ?_⟩
  · rcases Nat.mul_eq_zero.mp nothing with none_ | unsized
    · apply List.eq_nil_of_length_eq_zero (by rw [sum, ← total_eq, none_]) |>.trans
      exact (List.eq_nil_of_length_eq_zero (by rw [length_concat, ← total_eq, none_])).symm
    · exact eq_of_unsized unsized (by rw [sum, length_concat])
  · rw [buf.receive_length, length, nothing]
    exact Nat.zero_le _
  · simp [empty]
  · intro p
    rw [nothing]
    exact Nat.zero_le _

/-- A single PE gets its own slice back. -/
theorem collects_alone {src : Fin 1 → Slice T} {behind : Fin 1 → Nat → UInt8}
    {lib : Collectives 1} : CollectsAll lib build src behind := by
  intro w
  have total_eq : total src = (src 0).elems.length := by
    rw [total, Fin.sum_univ_one, Nat.mod_eq_of_lt (src 0).length_lt]
  obtain ⟨buf, length, bytes, content, result⟩ :=
    collect_ok (w := w) lib build behind
      (by rw [total_eq]; exact (src 0).layout)
  rw [total_eq] at length content result
  have own : bytes = window ((src 0).memory (behind 0)) 0 (buf.elems.length * Pod.size T) := by
    rw [content, length]
    simp
  have box : (buf.receive bytes).elems = (src 0).elems := by
    rw [own, buf.receive_window, length]
    exact elements_overlay _ _ _
  have stored : bytes.length = (src 0).elems.length * Pod.size T := by rw [own, length]; simp
  refine ⟨_, _, result, ?_, ?_, ?_, ?_, ?_⟩
  · rw [box]
    simp
  · rw [box, Fin.sum_univ_one]
  · rw [box, stored]
  · rw [box, stored]
  · intro p
    rw [Subsingleton.elim p 0]

/-- All PEs get the concatenation, within bounds, exactly when there is a single PE
or no byte to gather. -/
theorem collect_gathers_iff (lib : Collectives P) (build : Build) (src : Fin P → Slice T)
    (behind : Fin P → Nat → UInt8) :
    CollectsAll lib build src behind ↔
      P = 1 ∨ ∑ p, (src p).elems.length = 0 ∨
        (Pod.size T = 0 ∧ ∑ p, (src p).elems.length < 2^64) := by
  constructor
  · intro collects
    obtain ⟨c, next, result, gathers⟩ := collects (.blank P)
    exact lengths_of_gathers result gathers
  · intro small
    rcases small with rfl | none_ | ⟨unsized, exact_⟩
    · exact collects_alone
    · exact collects_nothing (by rw [none_]; decide) (by rw [none_, Nat.zero_mul])
    · exact collects_nothing exact_ (by rw [unsized, Nat.mul_zero])

/-- The routines as specified. -/
def Collectives.specified (P : Nat) : Collectives P where
  sumReduce values := BitVec.ofNat 64 (∑ p, (values p).toNat)
  collectmem src nbytes := (List.ofFn fun p => window (src p) 0 (nbytes p)).flatten
  sum_spec _ := by simp
  collect_spec _ _ := rfl

/-- Two PEs with one byte each read two, and store four in a buffer of two. -/
theorem collect_two_overruns :
    ¬ CollectsAll (.specified 2) .release
      (fun _ => (⟨[7], by decide, by decide⟩ : Slice UInt8)) (fun _ _ => 0) := by
  intro collects
  obtain ⟨c, next, result, gathers⟩ := collects (.blank 2)
  have asked : c.requested = 2 := by
    cases result
    rfl
  have overrun := gathers.noOverRead 0
  rw [asked] at overrun
  exact absurd overrun (by decide)

end

end OpenShmem
