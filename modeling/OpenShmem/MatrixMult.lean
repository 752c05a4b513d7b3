import OpenShmem.Range
import OpenShmem.RowMajor

/-! The two matrix products of the book's program: the nested loops of `sequential.rs` and
the flat parallel map of `thread_parallel.rs`. Their matrices, rows, columns and dot
products are the same word for word. -/
namespace OpenShmem

/-- What the program uses of its element type besides `+` and `*`. -/
class Element (α : Type) where
  /-- `size_of` -/
  size : Nat
  /-- `0.0` -/
  zero : α
  /-- The sum of no elements. -/
  emptySum : α

inductive MatrixPanic where
  | arithmetic (panic : Panic)
  | divideByZero
  | remainderByZero
  /-- `assert!(n < matrix.dim.1)` -/
  | columnOutOfBounds
  | stepByZero
  | sliceStartAfterEnd (start end_ : Nat)
  | sliceEndOutOfRange (end_ len : Nat)
  | indexOutOfBounds (len idx : Nat)
  | capacityOverflow
  deriving DecidableEq, Repr

def arithmetic {α : Type} : Except Panic α → Except MatrixPanic α := Except.mapError .arithmetic

def usizeDiv (x y : Usize) : Except MatrixPanic Usize :=
  if y = 0 then .error .divideByZero else .ok (x / y)

def usizeRem (x y : Usize) : Except MatrixPanic Usize :=
  if y = 0 then .error .remainderByZero else .ok (x % y)

/-- `0..n` -/
def usizeRange (n : Usize) : List Usize := (List.range n.toNat).map (BitVec.ofNat 64)

/-- The lengths a `Vec` can have. -/
def VecFits (α : Type) [Element α] (len : Nat) : Prop :=
  len ≤ usizeMax ∧ len * Element.size α ≤ isizeMax

instance (α : Type) [Element α] (len : Nat) : Decidable (VecFits α len) :=
  inferInstanceAs (Decidable (_ ∧ _))

@[ext] structure Vec (α : Type) [Element α] where
  toList : List α
  fits : VecFits α toList.length

namespace Vec

variable {α : Type} [Element α]

/-- `vec![x; n]` -/
def filled (x : α) (n : Usize) : Except MatrixPanic (Vec α) :=
  if fits : VecFits α n.toNat then
    .ok ⟨List.replicate n.toNat x, by rwa [List.length_replicate]⟩
  else .error .capacityOverflow

/-- `data[idx] = x` -/
def assign (data : Vec α) (idx : Usize) (x : α) : Except MatrixPanic (Vec α) :=
  if idx.toNat < data.toList.length then
    .ok ⟨data.toList.set idx.toNat x, by rw [List.length_set]; exact data.fits⟩
  else .error (.indexOutOfBounds data.toList.length idx.toNat)

/-- `data[start..end]` -/
def slice (data : Vec α) (start end_ : Usize) : Except MatrixPanic (List α) :=
  if end_.toNat < start.toNat then .error (.sliceStartAfterEnd start.toNat end_.toNat)
  else if data.toList.length < end_.toNat then
    .error (.sliceEndOutOfRange end_.toNat data.toList.length)
  else .ok ((data.toList.drop start.toNat).take (end_.toNat - start.toNat))

theorem slice_ok {data : Vec α} {start end_ : Usize} (forward : start.toNat ≤ end_.toNat)
    (inside : end_.toNat ≤ data.toList.length) :
    data.slice start end_ =
      .ok ((data.toList.drop start.toNat).take (end_.toNat - start.toNat)) := by
  rw [slice, if_neg (Nat.not_lt.mpr forward), if_neg (Nat.not_lt.mpr inside)]

end Vec

/-- `step_by`, which rejects 0. -/
def stepBy {α : Type} (step : Usize) (items : List α) : Except MatrixPanic (List α) :=
  if step = 0 then .error .stepByZero else .ok (RowMajor.strided step.toNat 0 items)

/-- `dim` has the number of rows first and that of columns second. -/
@[ext] structure Matrix (α : Type) [Element α] where
  data : Vec α
  dim : Usize × Usize

/-- Both return, and the same, or both panic. -/
def Agree {ε β : Type} : Except ε β → Except ε β → Prop
  | .ok x, .ok y => x = y
  | .error _, .error _ => True
  | _, _ => False

variable {α : Type} [Element α]

namespace Matrix

/-- `dim.0` -/
abbrev dim0 (matrix : Matrix α) : Usize := matrix.dim.1

/-- `dim.1` -/
abbrev dim1 (matrix : Matrix α) : Usize := matrix.dim.2

def col (matrix : Matrix α) (n : Usize) : Except MatrixPanic (List α) :=
  if n.toNat < matrix.dim1.toNat then stepBy matrix.dim1 (matrix.data.toList.drop n.toNat)
  else .error .columnOutOfBounds

def row (build : Build) (matrix : Matrix α) (n : Usize) : Except MatrixPanic (List α) := do
  let start ← arithmetic (usizeMul build matrix.dim1 n)
  let next ← arithmetic (usizeAdd build n 1)
  let end_ ← arithmetic (usizeMul build matrix.dim1 next)
  matrix.data.slice start end_

end Matrix

section

variable [Add α] [Mul α]

/-- `zip` ends with the shorter of the two. -/
def dot (xs ys : List α) : α := (List.zipWith (· * ·) xs ys).foldl (· + ·) Element.emptySum

def multElement (build : Build) (x y : Usize) (a b : Matrix α) : Except MatrixPanic α := do
  let xs ← a.row build x
  let ys ← b.col y
  return dot xs ys

def Sequential.matrixMult (build : Build) (a b : Matrix α) : Except MatrixPanic (Matrix α) := do
  let len ← arithmetic (usizeMul build a.dim0 b.dim1)
  let mut prod : Matrix α := ⟨← Vec.filled Element.zero len, (a.dim0, b.dim1)⟩
  for row in usizeRange a.dim0 do
    for col in usizeRange b.dim1 do
      let x ← multElement build row col a b
      let start ← arithmetic (usizeMul build row b.dim1)
      let idx ← arithmetic (usizeAdd build start col)
      prod := { prod with data := ← prod.data.assign idx x }
  return prod

/-- `(0..n).into_par_iter().map(f).collect()` -/
abbrev IndexedCollect (α : Type) [Element α] :=
  Usize → (Usize → Except MatrixPanic α) → Except MatrixPanic (Vec α)

/-- What rayon says of it: a `Vec` it returns has the values in the order of their
indices, and it returns one where every value comes and a `Vec` can hold them. -/
structure IndexedCollect.KeepsOrder (collect : IndexedCollect α) : Prop where
  inOrder : ∀ n f data, collect n f = .ok data → (usizeRange n).map f = data.toList.map .ok
  returns : ∀ n f, (∀ i ∈ usizeRange n, ∃ x, f i = .ok x) → VecFits α n.toNat →
    ∃ data, collect n f = .ok data

def ThreadParallel.matrixMult (collect : IndexedCollect α) (build : Build) (a b : Matrix α) :
    Except MatrixPanic (Matrix α) := do
  let len ← arithmetic (usizeMul build a.dim0 b.dim1)
  let data ← collect len fun idx => do
    let x ← usizeDiv idx b.dim1
    let y ← usizeRem idx b.dim1
    multElement build x y a b
  return ⟨data, (a.dim0, b.dim1)⟩

end

/-! ### Where an element is stored -/

theorem arithmetic_mul (build : Build) {x y : Usize} (fits : x.toNat * y.toNat < 2^64) :
    ∃ z : Usize, arithmetic (usizeMul build x y) = .ok z ∧ z.toNat = x.toNat * y.toNat := by
  rw [usizeMul_fits build fits]
  exact ⟨x * y, rfl, by rw [BitVec.toNat_mul, Nat.mod_eq_of_lt fits]⟩

theorem arithmetic_add (build : Build) {x y : Usize} (fits : x.toNat + y.toNat < 2^64) :
    ∃ z : Usize, arithmetic (usizeAdd build x y) = .ok z ∧ z.toNat = x.toNat + y.toNat := by
  rw [usizeAdd_fits build fits]
  exact ⟨x + y, rfl, by rw [BitVec.toNat_add, Nat.mod_eq_of_lt fits]⟩

theorem usize_ofNat {k : Nat} (small : k < 2^64) : (BitVec.ofNat 64 k).toNat = k := by
  rw [BitVec.toNat_ofNat, Nat.mod_eq_of_lt small]

/-- The assignment in the inner loop. -/
def Sequential.store (build : Build) (b prod : Matrix α) (row col : Usize) (x : α) :
    Except MatrixPanic (Matrix α) := do
  let start ← arithmetic (usizeMul build row b.dim1)
  let idx ← arithmetic (usizeAdd build start col)
  return { prod with data := ← prod.data.assign idx x }

/-- The same at a flat index. -/
def Sequential.storeFlat (build : Build) (b prod : Matrix α) (k : Nat) (x : α) :
    Except MatrixPanic (Matrix α) :=
  store build b prod (BitVec.ofNat 64 (k / b.dim1.toNat)) (BitVec.ofNat 64 (k % b.dim1.toNat)) x

/-- It goes to that index, whatever the dimensions. -/
theorem Sequential.stores {n : Nat} (build : Build) (b : Matrix α) (fits : n < 2^64) :
    RowMajor.Stores (fun prod : Matrix α => prod.data.toList) Matrix.dim (storeFlat build b) n := by
  intro prod k x room within
  have whole : k / b.dim1.toNat * b.dim1.toNat + k % b.dim1.toNat = k := Nat.div_add_mod' ..
  have row := usize_ofNat (k := k / b.dim1.toNat)
    (Nat.lt_of_le_of_lt (Nat.div_le_self ..) (Nat.lt_trans within fits))
  have col := usize_ofNat (k := k % b.dim1.toNat)
    (Nat.lt_of_le_of_lt (Nat.mod_le ..) (Nat.lt_trans within fits))
  obtain ⟨start, start_eq, start_toNat⟩ := arithmetic_mul build
    (x := BitVec.ofNat 64 (k / b.dim1.toNat)) (y := b.dim1) (by rw [row]; omega)
  rw [row] at start_toNat
  obtain ⟨idx, idx_eq, idx_toNat⟩ := arithmetic_add build
    (x := start) (y := BitVec.ofNat 64 (k % b.dim1.toNat)) (by rw [start_toNat, col]; omega)
  rw [start_toNat, col, whole] at idx_toNat
  have inside : idx.toNat < prod.data.toList.length := by rw [idx_toNat, room]; exact within
  simp only [storeFlat, store, start_eq, idx_eq, Vec.assign, if_pos inside, bind, Except.bind]
  exact ⟨_, rfl, by simp only [idx_toNat], rfl⟩

/-! ### Collecting -/

/-- A `collect` returns exactly where all values come, with these in their order. -/
theorem IndexedCollect.KeepsOrder.collect_ok {collect : IndexedCollect α}
    (ordered : collect.KeepsOrder) {n : Usize} {f : Usize → Except MatrixPanic α} {data : Vec α} :
    collect n f = .ok data ↔ (usizeRange n).map f = data.toList.map .ok := by
  constructor
  · exact ordered.inOrder n f data
  · intro values
    have come : ∀ i ∈ usizeRange n, ∃ x, f i = .ok x := by
      intro i member
      have value : f i ∈ data.toList.map Except.ok := by
        rw [← values]
        exact List.mem_map_of_mem member
      obtain ⟨x, _, same⟩ := List.mem_map.mp value
      exact ⟨x, same.symm⟩
    have count : data.toList.length = n.toNat := by
      have lengths := congrArg List.length values
      simpa [usizeRange] using lengths.symm
    obtain ⟨data', collected⟩ := ordered.returns n f come (by rw [← count]; exact data.fits)
    have others := ordered.inOrder n f data' collected
    rw [values] at others
    have same : data.toList = data'.toList :=
      (List.map_injective_iff.mpr fun _ _ => Except.ok.inj) others
    rw [collected, Vec.ext same]

/-- A `collect` on one thread. -/
def collectInTurn : IndexedCollect α := fun n f =>
  match (usizeRange n).mapM f with
  | .error panic => .error panic
  | .ok values =>
    if fits : VecFits α values.length then .ok ⟨values, fits⟩ else .error .capacityOverflow

theorem collectInTurn_keepsOrder : (collectInTurn : IndexedCollect α).KeepsOrder := by
  constructor
  · intro n f data collected
    unfold collectInTurn at collected
    split at collected
    next => cases collected
    next values come =>
      split at collected
      next => cases collected; exact RowMajor.mapM_ok_iff.mp come
      next => cases collected
  · intro n f come room
    cases run : (usizeRange n).mapM f with
    | error panic =>
      obtain ⟨i, member, failed⟩ := RowMajor.mapM_error run
      obtain ⟨x, returned⟩ := come i member
      rw [failed] at returned
      cases returned
    | ok values =>
      have length : values.length = n.toNat := by
        rw [RowMajor.mapM_length run, usizeRange, List.length_map, List.length_range]
      exact ⟨⟨values, by rwa [length]⟩, by simp [collectInTurn, run, length, room]⟩

/-! ### Full matrices -/

namespace Matrix

/-- As many elements as the dimensions say. -/
def Full (matrix : Matrix α) : Prop :=
  matrix.data.toList.length = matrix.dim0.toNat * matrix.dim1.toNat

variable {matrix : Matrix α}

def entry (full : matrix.Full) (i : Fin matrix.dim0.toNat) (k : Fin matrix.dim1.toNat) : α :=
  matrix.data.toList.get ⟨i * matrix.dim1.toNat + k,
    Nat.lt_of_lt_of_eq (RowMajor.index_lt i.isLt k.isLt) full.symm⟩

theorem getElem?_entry (full : matrix.Full) (i : Fin matrix.dim0.toNat)
    (k : Fin matrix.dim1.toNat) :
    matrix.data.toList[i.val * matrix.dim1.toNat + k.val]? = some (entry full i k) :=
  List.getElem?_eq_getElem _

theorem row_ok (build : Build) {n : Usize} (next : n.toNat + 1 < 2^64)
    (inside : matrix.dim1.toNat * (n.toNat + 1) ≤ matrix.data.toList.length) :
    matrix.row build n =
      .ok ((matrix.data.toList.drop (matrix.dim1.toNat * n.toNat)).take matrix.dim1.toNat) := by
  have bounded : matrix.data.toList.length < 2^64 := Nat.lt_of_le_pred (by decide) matrix.data.fits.1
  rw [Nat.mul_succ] at inside
  obtain ⟨start, start_eq, start_toNat⟩ := arithmetic_mul build (x := matrix.dim1) (y := n)
    (by omega)
  obtain ⟨later, later_eq, later_toNat⟩ := arithmetic_add build (x := n) (y := 1) next
  have successor : later.toNat = n.toNat + 1 := later_toNat
  obtain ⟨end_, end_eq, end_toNat⟩ := arithmetic_mul build (x := matrix.dim1) (y := later)
    (by rw [successor, Nat.mul_succ]; omega)
  rw [successor, Nat.mul_succ] at end_toNat
  have width : end_.toNat - start.toNat = matrix.dim1.toNat := by omega
  simp only [row, start_eq, later_eq, end_eq, bind, Except.bind]
  rw [Vec.slice_ok (by omega) (by omega), width, start_toNat]

/-- The rows and columns of a full matrix are those of its entries. -/
theorem row_full (build : Build) (full : matrix.Full) (i : Fin matrix.dim0.toNat) :
    matrix.row build (BitVec.ofNat 64 i) = .ok (List.ofFn (entry full i)) := by
  have length : matrix.data.toList.length = matrix.dim0.toNat * matrix.dim1.toNat := full
  have rows := matrix.dim0.isLt
  have below := i.isLt
  have number := usize_ofNat (Nat.lt_trans below rows)
  have inside : matrix.dim1.toNat * (i + 1) ≤ matrix.data.toList.length := by
    rw [length, Nat.mul_comm]
    exact Nat.mul_le_mul_right _ below
  rw [row_ok build (by rw [number]; omega) (by rwa [number]), number, Except.ok.injEq]
  apply List.ext_getElem?
  intro k
  rw [List.getElem?_take, List.getElem?_drop, List.getElem?_ofFn, Nat.mul_comm]
  split
  next within => exact getElem?_entry full i ⟨k, within⟩
  next => rfl

theorem col_full (full : matrix.Full) (j : Fin matrix.dim1.toNat) :
    matrix.col (BitVec.ofNat 64 j) = .ok (List.ofFn fun k => entry full k j) := by
  have length : matrix.data.toList.length = matrix.dim0.toNat * matrix.dim1.toNat := full
  have below := j.isLt
  have number := usize_ofNat (Nat.lt_trans below matrix.dim1.isLt)
  have positive : 0 < matrix.dim1.toNat := Nat.zero_lt_of_lt below
  have nonzero : matrix.dim1 ≠ 0 := by
    intro zero
    rw [zero] at positive
    exact absurd positive (Nat.lt_irrefl 0)
  rw [col, number, if_pos below, stepBy, if_neg nonzero, Except.ok.injEq]
  apply List.ext_getElem?
  intro k
  rw [RowMajor.strided_getElem? positive, List.getElem?_drop, List.getElem?_ofFn, Nat.zero_add,
    Nat.add_comm]
  split
  next within => exact getElem?_entry full ⟨k, within⟩ j
  next outside =>
    have past : matrix.dim0.toNat * matrix.dim1.toNat ≤ k * matrix.dim1.toNat :=
      Nat.mul_le_mul_right _ (Nat.le_of_not_lt outside)
    exact List.getElem?_eq_none (by omega)

end Matrix

variable [Add α] [Mul α] {build : Build} {a b c : Matrix α}

/-! ### What either program returns -/

/-- The element of the product at a flat index. -/
def flatElement (build : Build) (a b : Matrix α) (k : Nat) : Except MatrixPanic α :=
  multElement build (BitVec.ofNat 64 (k / b.dim1.toNat)) (BitVec.ofNat 64 (k % b.dim1.toNat)) a b

/-- `c` has the product's dimensions and all of its elements, in the order of their indices. -/
structure Computes (build : Build) (a b c : Matrix α) : Prop where
  fits : VecFits α (a.dim0.toNat * b.dim1.toNat)
  elements : (List.range (a.dim0.toNat * b.dim1.toNat)).mapM (flatElement build a b) =
    .ok c.data.toList
  dim : c.dim = (a.dim0, b.dim1)

theorem Sequential.matrixMult_fill (build : Build) (a b : Matrix α) :
    Sequential.matrixMult build a b = (do
      let len ← arithmetic (usizeMul build a.dim0 b.dim1)
      let zeros ← Vec.filled Element.zero len
      RowMajor.fill (storeFlat build b) (flatElement build a b) (a.dim0.toNat * b.dim1.toNat)
        ⟨zeros, (a.dim0, b.dim1)⟩) := by
  have inner (row : Usize) (prod : Matrix α) :
      (forIn (usizeRange b.dim1) prod fun col prod => do
        let x ← multElement build row col a b
        let start ← arithmetic (usizeMul build row b.dim1)
        let idx ← arithmetic (usizeAdd build start col)
        let data ← prod.data.assign idx x
        pure (ForInStep.yield { prod with data })) =
      (usizeRange b.dim1).foldlM (fun prod col => do
        let x ← multElement build row col a b
        store build b prod row col x) prod := by
    rw [← RowMajor.forIn_yield]
    simp [store]
  simp only [matrixMult, inner, RowMajor.forIn_yield, bind_pure]
  simp only [usizeRange, List.foldlM_map, RowMajor.foldlM_nested]
  rfl

theorem Sequential.matrixMult_ok (fits : a.dim0.toNat * b.dim1.toNat < 2^64) :
    Sequential.matrixMult build a b = .ok c ↔ Computes build a b c := by
  obtain ⟨len, len_eq, len_toNat⟩ := arithmetic_mul build fits
  rw [matrixMult_fill, len_eq]
  by_cases room : VecFits α len.toNat
  · have cells : (List.replicate len.toNat (Element.zero : α)).length =
        a.dim0.toNat * b.dim1.toNat := by rw [List.length_replicate, len_toNat]
    simp only [Vec.filled, dif_pos room, bind, Except.bind]
    constructor
    · intro returned
      obtain ⟨elements, dim⟩ := RowMajor.fill_returned (stores build b fits) cells returned
      exact ⟨by rwa [← len_toNat], elements, dim⟩
    · intro computes
      obtain ⟨c', returned, elements, dim⟩ := RowMajor.fill_returns (stores build b fits)
        (s := ⟨⟨_, by rwa [List.length_replicate]⟩, (a.dim0, b.dim1)⟩) cells computes.elements
      have same : c' = c := Matrix.ext (Vec.ext elements) (dim.trans computes.dim.symm)
      rwa [same] at returned
  · simp only [Vec.filled, dif_neg room, bind, Except.bind]
    refine iff_of_false (by simp) ?_
    intro computes
    rw [len_toNat] at room
    exact room computes.fits

/-- What is computed at an index of the parallel range. -/
def ThreadParallel.element (build : Build) (a b : Matrix α) (idx : Usize) :
    Except MatrixPanic α := do
  let x ← usizeDiv idx b.dim1
  let y ← usizeRem idx b.dim1
  multElement build x y a b

theorem ThreadParallel.elements {len : Usize} (count : len.toNat = a.dim0.toNat * b.dim1.toNat) :
    (usizeRange len).map (element build a b) =
      (List.range (a.dim0.toNat * b.dim1.toNat)).map (flatElement build a b) := by
  rw [usizeRange, count, List.map_map]
  apply List.map_congr_left
  intro k member
  have within := List.mem_range.mp member
  have small : k < 2^64 := by rw [← count] at within; exact Nat.lt_trans within len.isLt
  -- There is no index where there is no column.
  have nonzero : b.dim1 ≠ 0 := by
    intro zero
    rw [zero] at within
    exact absurd within (Nat.not_lt_zero _)
  have quotient : BitVec.ofNat 64 k / b.dim1 = BitVec.ofNat 64 (k / b.dim1.toNat) := by
    apply BitVec.eq_of_toNat_eq
    rw [BitVec.toNat_udiv, usize_ofNat small,
      usize_ofNat (Nat.lt_of_le_of_lt (Nat.div_le_self ..) small)]
  have remainder : BitVec.ofNat 64 k % b.dim1 = BitVec.ofNat 64 (k % b.dim1.toNat) := by
    apply BitVec.eq_of_toNat_eq
    rw [BitVec.toNat_umod, usize_ofNat small,
      usize_ofNat (Nat.lt_of_le_of_lt (Nat.mod_le ..) small)]
  simp only [Function.comp_apply, element, usizeDiv, usizeRem, if_neg nonzero, quotient, remainder]
  rfl

theorem ThreadParallel.matrixMult_ok {collect : IndexedCollect α} (ordered : collect.KeepsOrder)
    (fits : a.dim0.toNat * b.dim1.toNat < 2^64) :
    ThreadParallel.matrixMult collect build a b = .ok c ↔ Computes build a b c := by
  obtain ⟨len, len_eq, count⟩ := arithmetic_mul build fits
  have unfolded : ThreadParallel.matrixMult collect build a b = (do
      let data ← collect len (element build a b)
      return ⟨data, (a.dim0, b.dim1)⟩) := by
    rw [matrixMult, len_eq]
    rfl
  have collected (data : Vec α) : collect len (element build a b) = .ok data ↔
      (List.range (a.dim0.toNat * b.dim1.toNat)).mapM (flatElement build a b) = .ok data.toList := by
    rw [ordered.collect_ok, RowMajor.mapM_ok_iff, elements count]
  rw [unfolded]
  constructor
  · intro returned
    cases run : collect len (element build a b) with
    | error panic =>
      rw [run] at returned
      cases returned
    | ok data =>
      rw [run] at returned
      cases returned
      have values := (collected data).mp run
      have room := data.fits
      rw [RowMajor.mapM_length values, List.length_range] at room
      exact ⟨room, values, rfl⟩
  · intro computes
    have product : (⟨c.data, (a.dim0, b.dim1)⟩ : Matrix α) = c := Matrix.ext rfl computes.dim.symm
    rw [(collected c.data).mpr computes.elements, ← product]
    rfl

/-! ### The product of full matrices -/

/-- Entry `(i, j)` of the product, summed from left to right. -/
def productEntry (fullA : a.Full) (fullB : b.Full) (inner : a.dim1 = b.dim0)
    (i : Fin a.dim0.toNat) (j : Fin b.dim1.toNat) : α :=
  (List.ofFn fun k : Fin a.dim1.toNat =>
    Matrix.entry fullA i k * Matrix.entry fullB (k.cast (congrArg BitVec.toNat inner)) j).foldl
      (· + ·) Element.emptySum

theorem multElement_full (build : Build) (fullA : a.Full) (fullB : b.Full)
    (inner : a.dim1 = b.dim0) (i : Fin a.dim0.toNat) (j : Fin b.dim1.toNat) :
    multElement build (BitVec.ofNat 64 i) (BitVec.ofNat 64 j) a b =
      .ok (productEntry fullA fullB inner i j) := by
  have rows : a.dim1.toNat = b.dim0.toNat := congrArg BitVec.toNat inner
  have products : List.zipWith (· * ·) (List.ofFn (Matrix.entry fullA i))
      (List.ofFn fun k => Matrix.entry fullB k j) =
      List.ofFn fun k => Matrix.entry fullA i k * Matrix.entry fullB (k.cast rows) j := by
    apply List.ext_getElem (by simp [rows])
    intro k _ _
    simp
  rw [multElement, Matrix.row_full build fullA i, Matrix.col_full fullB j]
  exact congrArg (fun terms : List α => Except.ok (terms.foldl (· + ·) Element.emptySum)) products

/-- Every element is computed, and a product which a `Vec` can hold is returned. -/
theorem computes_full (build : Build) (fullA : a.Full) (fullB : b.Full) (inner : a.dim1 = b.dim0)
    (room : VecFits α (a.dim0.toNat * b.dim1.toNat)) :
    ∃ c, Computes build a b c ∧ c.data.toList = RowMajor.flatten (productEntry fullA fullB inner) := by
  refine ⟨⟨⟨RowMajor.flatten (productEntry fullA fullB inner), ?_⟩, (a.dim0, b.dim1)⟩,
    ⟨room, ?_, rfl⟩, rfl⟩
  · rwa [RowMajor.flatten_length]
  · apply RowMajor.mapM_flatten
    intro i j
    rw [flatElement, RowMajor.index_div j.isLt, RowMajor.index_mod j.isLt]
    exact multElement_full build fullA fullB inner i j

theorem agree_of_iff {ε β : Type} {x y : Except ε β} (same : ∀ z, x = .ok z ↔ y = .ok z) :
    Agree x y := by
  cases x with
  | ok z =>
    rw [(same z).mp rfl]
    rfl
  | error e =>
    cases y with
    | ok z => cases (same z).mpr rfl
    | error e' => trivial

/-- The two programs agree on all matrices of a product whose size is a `usize`. On full
ones with the same inner dimension neither panics where a `Vec` can hold the product, and
its entries are sums from left to right. -/
theorem matrixMults_agree {collect : IndexedCollect α} (ordered : collect.KeepsOrder)
    (build : Build) (a b : Matrix α) (fits : a.dim0.toNat * b.dim1.toNat < 2^64) :
    Agree (Sequential.matrixMult build a b) (ThreadParallel.matrixMult collect build a b) ∧
    ∀ (fullA : a.Full) (fullB : b.Full) (inner : a.dim1 = b.dim0),
      a.dim0.toNat * b.dim1.toNat * Element.size α ≤ isizeMax →
      ∃ c, Sequential.matrixMult build a b = .ok c ∧
        ThreadParallel.matrixMult collect build a b = .ok c ∧ c.dim = (a.dim0, b.dim1) ∧
        ∀ i j, c.data.toList[i.val * b.dim1.toNat + j.val]? =
          some (productEntry fullA fullB inner i j) := by
  constructor
  · apply agree_of_iff
    intro c
    rw [Sequential.matrixMult_ok fits, ThreadParallel.matrixMult_ok ordered fits]
  · intro fullA fullB inner small
    have room : VecFits α (a.dim0.toNat * b.dim1.toNat) := ⟨Nat.le_pred_of_lt fits, small⟩
    obtain ⟨c, computes, entries⟩ := computes_full build fullA fullB inner room
    refine ⟨c, (Sequential.matrixMult_ok fits).mpr computes,
      (ThreadParallel.matrixMult_ok ordered fits).mpr computes, computes.dim, ?_⟩
    intro i j
    rw [entries, RowMajor.flatten_index]

/-! ### Elements of four bytes -/

instance : Element (BitVec 32) := ⟨4, 0, 0⟩

instance : Element Float32 := ⟨4, 0.0, -0.0⟩

/-- The matrices of `test_matrix_mult`, with the entries of the second doubled. -/
def testLeft : Matrix (BitVec 32) := ⟨⟨[1, 2, 3, 4, 5, 6], by decide⟩, (2, 3)⟩
def testRight : Matrix (BitVec 32) := ⟨⟨[3, 5, 7], by decide⟩, (3, 1)⟩

theorem matrixMults_agree_test :
    Agree (Sequential.matrixMult .debug testLeft testRight)
      (ThreadParallel.matrixMult collectInTurn .debug testLeft testRight) ∧
    ∃ c, Sequential.matrixMult .debug testLeft testRight = .ok c ∧
      c.data.toList[0]? = some 34 ∧ c.data.toList[1]? = some 79 := by
  have both := matrixMults_agree collectInTurn_keepsOrder .debug testLeft testRight (by decide)
  obtain ⟨c, returned, _, _, entries⟩ := both.2 rfl rfl rfl (by decide)
  exact ⟨both.1, c, returned, entries ⟨0, by decide⟩ ⟨0, by decide⟩,
    entries ⟨1, by decide⟩ ⟨0, by decide⟩⟩

/-- Matrices without elements, but with `2^61` rows and one column. -/
def emptyLeft : Matrix Float32 := ⟨⟨[], by decide⟩, (BitVec.ofNat 64 (2^61), 0)⟩
def emptyRight : Matrix Float32 := ⟨⟨[], by decide⟩, (0, 1)⟩

/-- Their product of `2^61` zeros is larger than a `Vec` can be. -/
theorem product_too_large :
    ¬ ∀ (build : Build) (a b : Matrix Float32), a.dim0.toNat * b.dim1.toNat < 2^64 →
      a.Full → b.Full → a.dim1 = b.dim0 → ∃ c, Sequential.matrixMult build a b = .ok c := by
  intro returns
  have fits : emptyLeft.dim0.toNat * emptyRight.dim1.toNat < 2^64 := by decide
  obtain ⟨c, returned⟩ := returns .release emptyLeft emptyRight fits rfl rfl rfl
  have computes := (Sequential.matrixMult_ok fits).mp returned
  exact absurd computes.fits.2 (by decide)

end OpenShmem
