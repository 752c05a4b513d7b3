import Mathlib.Algebra.BigOperators.Fin
import Mathlib.Data.BitVec
import Mathlib.Data.Matrix.Mul
import OpenShmem.MatrixMult

/-! What the two matrix products compute, also where the inner dimensions differ, and how
products compose. -/

namespace OpenShmem

open RowMajor

variable {α : Type} [Element α] {r m m' p q : Nat}

/-- The matrix stores these entries. -/
structure Matrix.Holds (matrix : Matrix α) (entries : Fin r → Fin m → α) : Prop where
  rows : matrix.dim0.toNat = r
  cols : matrix.dim1.toNat = m
  stored : matrix.data.toList = flatten entries

namespace Matrix.Holds

variable {matrix other : Matrix α} {entries : Fin r → Fin m → α}

theorem full (holds : matrix.Holds entries) : matrix.Full := by
  rw [Full, holds.stored, flatten_length, holds.rows, holds.cols]

theorem of_full (full : matrix.Full) : matrix.Holds (entry full) := by
  refine ⟨rfl, rfl, List.ext_getElem? fun k => ?_⟩
  by_cases inside : k < matrix.dim0.toNat * matrix.dim1.toNat
  · obtain ⟨i, row, j, col, rfl⟩ := exists_index inside
    exact (getElem?_entry full ⟨i, row⟩ ⟨j, col⟩).trans (flatten_index _ ⟨i, row⟩ ⟨j, col⟩).symm
  · have outside := Nat.le_of_not_lt inside
    rw [List.getElem?_eq_none (by rw [full]; exact outside),
      List.getElem?_eq_none (by rw [flatten_length]; exact outside)]

theorem entry_eq {entries : Fin matrix.dim0.toNat → Fin matrix.dim1.toNat → α} (holds : matrix.Holds entries)
    (i : Fin matrix.dim0.toNat) (k : Fin matrix.dim1.toNat) :
    entry holds.full i k = entries i k := by
  have there := getElem?_entry holds.full i k
  rw [holds.stored, flatten_index] at there
  exact (Option.some.inj there).symm

theorem row_ok (holds : matrix.Holds entries) (build : Build) (i : Fin r) :
    matrix.row build (BitVec.ofNat 64 i) = .ok (List.ofFn (entries i)) := by
  obtain rfl := holds.rows
  obtain rfl := holds.cols
  rw [row_full build holds.full i]
  exact congrArg Except.ok (congrArg List.ofFn (funext (holds.entry_eq i)))

theorem col_ok (holds : matrix.Holds entries) (k : Fin m) :
    matrix.col (BitVec.ofNat 64 k) = .ok (List.ofFn fun i => entries i k) := by
  obtain rfl := holds.rows
  obtain rfl := holds.cols
  rw [col_full holds.full k]
  exact congrArg Except.ok (congrArg List.ofFn (funext fun i => holds.entry_eq i k))

end Matrix.Holds

/-! ### One product -/
section

variable [Add α] [Mul α]

/-- Row times column as far as both go, summed from left to right. -/
def dotGrid (left : Fin r → Fin m → α) (right : Fin m' → Fin p → α) (i : Fin r) (j : Fin p) : α :=
  (List.ofFn fun k : Fin (min m m') =>
    left i (k.castLE (Nat.min_le_left ..)) * right (k.castLE (Nat.min_le_right ..)) j).foldl
      (· + ·) Element.emptySum

variable {a b : Matrix α} {left : Fin r → Fin m → α} {right : Fin m' → Fin p → α}

theorem multElement_holds (build : Build) (holdsA : a.Holds left) (holdsB : b.Holds right)
    (i : Fin r) (j : Fin p) :
    multElement build (BitVec.ofNat 64 i) (BitVec.ofNat 64 j) a b = .ok (dotGrid left right i j) := by
  have products : List.zipWith (· * ·) (List.ofFn (left i)) (List.ofFn fun k => right k j) =
      List.ofFn fun k : Fin (min m m') =>
        left i (k.castLE (Nat.min_le_left ..)) * right (k.castLE (Nat.min_le_right ..)) j := by
    apply List.ext_getElem (by simp)
    intro k _ _
    simp
  rw [multElement, holdsA.row_ok build i, holdsB.col_ok j]
  exact congrArg (fun terms : List α => Except.ok (terms.foldl (· + ·) Element.emptySum)) products

theorem computes_holds (build : Build) (holdsA : a.Holds left) (holdsB : b.Holds right)
    (room : VecFits α (r * p)) : ∃ c, Computes build a b c ∧ c.Holds (dotGrid left right) := by
  obtain rfl := holdsA.rows
  obtain rfl := holdsB.cols
  refine ⟨⟨⟨flatten (dotGrid left right), by rwa [flatten_length]⟩, (a.dim0, b.dim1)⟩,
    ⟨room, ?_, rfl⟩, rfl, rfl, rfl⟩
  apply mapM_flatten
  intro i j
  rw [flatElement, index_div j.isLt, index_mod j.isLt]
  exact multElement_holds build holdsA holdsB i j

/-- Either program returns this matrix. -/
structure Multiplies (collect : IndexedCollect α) (build : Build) (a b c : Matrix α) : Prop where
  sequential : Sequential.matrixMult build a b = .ok c
  threadParallel : ThreadParallel.matrixMult collect build a b = .ok c

theorem matrixMult_holds {collect : IndexedCollect α} (ordered : collect.KeepsOrder) (build : Build)
    (holdsA : a.Holds left) (holdsB : b.Holds right) (room : VecFits α (r * p)) :
    ∃ c, Multiplies collect build a b c ∧ c.Holds (dotGrid left right) := by
  obtain ⟨c, computes, holds⟩ := computes_holds build holdsA holdsB room
  have fits : a.dim0.toNat * b.dim1.toNat < 2^64 := by
    rw [holdsA.rows, holdsB.cols]
    exact Nat.lt_of_le_pred (by decide) room.1
  exact ⟨c, ⟨(Sequential.matrixMult_ok fits).mpr computes,
    (ThreadParallel.matrixMult_ok ordered fits).mpr computes⟩, holds⟩

/-- No inner dimensions make a product of full matrices panic. What one of them has too much
is left out. -/
theorem matrixMult_truncates {collect : IndexedCollect α} (ordered : collect.KeepsOrder)
    (build : Build) (fullA : a.Full) (fullB : b.Full) (room : VecFits α (a.dim0.toNat * b.dim1.toNat)) :
    ∃ c, Sequential.matrixMult build a b = .ok c ∧ ThreadParallel.matrixMult collect build a b = .ok c ∧
      c.dim = (a.dim0, b.dim1) ∧
      c.data.toList = flatten (dotGrid (Matrix.entry fullA) (Matrix.entry fullB)) := by
  obtain ⟨c, multiplies, holds⟩ := matrixMult_holds ordered build
    (Matrix.Holds.of_full fullA) (Matrix.Holds.of_full fullB) room
  refine ⟨c, multiplies.sequential, multiplies.threadParallel, Prod.ext ?_ ?_, holds.stored⟩
  · exact BitVec.eq_of_toNat_eq holds.rows
  · exact BitVec.eq_of_toNat_eq holds.cols

end

/-- Two rows of three, and two rows of one. -/
def shortRight : Matrix (BitVec 32) := ⟨⟨[3, 5], by decide⟩, (2, 1)⟩

theorem matrixMult_truncates_short :
    ∃ c, Sequential.matrixMult .debug testLeft shortRight = .ok c ∧
      ThreadParallel.matrixMult collectInTurn .debug testLeft shortRight = .ok c ∧ c.dim = (2, 1) ∧
      c.data.toList = [13, 37] :=
  matrixMult_truncates collectInTurn_keepsOrder .debug (a := testLeft) (b := shortRight) rfl rfl (by decide)

/-! ### Two products -/

end OpenShmem
