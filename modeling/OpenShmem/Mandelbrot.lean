import OpenShmem.MatrixMult
import OpenShmem.Spmd
import OpenShmem.TransferBounds

/-! The program `mandlebrot.rs`: each PE calculates a piece of the rows of an image in its
part of a symmetric array, and PE 0 reads the parts one after the other. Together they are
the image, row by row, for any number of PEs. -/
namespace OpenShmem

open Overlay

variable {P : Nat} {T : Type} [Pod T]

namespace Mandelbrot

/-! ### The code of one PE -/
section

variable (build : Build) (resolution : Usize × Usize) (npes : Usize)

def maxRowCount : Except MatrixPanic Usize := do
  let whole ← usizeDiv resolution.2 npes
  let rest ← usizeRem resolution.2 npes
  arithmetic (usizeAdd build whole rest)

/-- `my_row_count`, and the rows in `their_element_count`. The last PE takes the rest. -/
def rowCount (pe : Usize) : Except MatrixPanic Usize := do
  let last ← arithmetic (usizeSub build npes 1)
  if pe = last then maxRowCount build resolution npes else usizeDiv resolution.2 npes

def myRowStart (pe : Usize) : Except MatrixPanic Usize := do
  let whole ← usizeDiv resolution.2 npes
  arithmetic (usizeMul build whole pe)

/-- The length of `rows`, the same on every PE. -/
def len : Except MatrixPanic Usize := do
  let count ← maxRowCount build resolution npes
  arithmetic (usizeMul build count resolution.1)

/-- `start..end` -/
def usizeSpan (start end_ : Usize) : List Usize :=
  (List.range' start.toNat (end_.toNat - start.toNat)).map (BitVec.ofNat 64)

/-- `rows[(row - my_row_range.start) * RESOLUTION.0 + col] = pixel(col, row)`, as the index
and the value of a store. -/
def assign (pixel : Usize → Usize → T) (rows : Shbox T) (start row col : Usize) :
    Except MatrixPanic (Usize × T) := do
  let below ← arithmetic (usizeSub build row start)
  let first ← arithmetic (usizeMul build below resolution.1)
  let idx ← arithmetic (usizeAdd build first col)
  if idx.toNat < rows.len.toNat then
    return (idx, pixel col row)
  else
    throw (.indexOutOfBounds rows.len.toNat idx.toNat)

/-- The stores of both loops, in order. -/
def calculate (pixel : Usize → Usize → T) (rows : Shbox T) (pe : Usize) :
    Except MatrixPanic (List (Usize × T)) := do
  let start ← myRowStart build resolution npes pe
  let end_ ← arithmetic (usizeAdd build start (← rowCount build resolution npes pe))
  let lines ← (usizeSpan start end_).mapM fun row =>
    (usizeRange resolution.1).mapM fun col => assign build resolution pixel rows start row col
  return lines.flatten

def theirElementCount (pe : Usize) : Except MatrixPanic Usize := do
  let count ← rowCount build resolution npes pe
  arithmetic (usizeMul build count resolution.1)

end

/-- `ctx.pe(pe).read(&rows, ..)` -/
def theirData (build : Build) (rows : Shbox T) (pe : Usize) : Shmem P (Slice T) := do
  let self ← attempt (ctxPe P pe)
  self.read build rows .full

/-- `their_data[i]` for `i` in `0..count` -/
def written (theirData : Slice T) (count : Usize) : Except MatrixPanic (List T) :=
  if count.toNat ≤ theirData.elems.length then .ok (theirData.elems.take count.toNat)
  else .error (.indexOutOfBounds theirData.elems.length theirData.elems.length)

/-- What PE 0 writes to its file for one PE. -/
def savePart (P : Nat) (build : Build) (resolution : Usize × Usize) (rows : Shbox T)
    (out : List T) (pe : Usize) : ExceptT MatrixPanic (Shmem P) (List T) := do
  let count ← theirElementCount build resolution (nPes P) pe
  let data ← ExceptT.lift (theirData build rows pe)
  return out ++ (← written data count)

/-- And for all of them, below the header. -/
def save (P : Nat) (build : Build) (resolution : Usize × Usize) (rows : Shbox T) :
    ExceptT MatrixPanic (Shmem P) (List T) :=
  (usizeRange (nPes P)).foldlM (savePart P build resolution rows) []

/-! ### The program of all PEs -/

/-- `shmallocator.array_default(max_row_count * RESOLUTION.0)` -/
def array (P : Nat) (default : T) (rows : Shbox T) : Constructor P T :=
  arrayDefault (zeroed T) default rows.len.toNat

/-- A PE which panics stores nothing. -/
def calculation (P : Nat) (build : Build) (resolution : Usize × Usize) (pixel : Usize → Usize → T)
    (rows : Shbox T) : Phases.Phase P (Step P T) := fun p =>
  match calculate build resolution (nPes P) pixel rows (myPe p) with
  | .ok stores => stores.map fun (idx, value) => .store p idx.toNat value
  | .error _ => []

/-- In the last phase PE 0 reads and writes its file. -/
def main (P : Nat) (build : Build) (resolution : Usize × Usize) (pixel : Usize → Usize → T)
    (default : T) (rows : Shbox T) : Phases.Program P (Step P T) :=
  [allocation, (array P default rows).stores, calculation P build resolution pixel rows, fun _ => []]

/-! ### Pieces of the image -/

/-- The pixel at a flat index of the image. -/
def image (resolution : Usize × Usize) (pixel : Usize → Usize → T) (k : Nat) : T :=
  pixel (BitVec.ofNat 64 (k % resolution.1.toNat)) (BitVec.ofNat 64 (k / resolution.1.toNat))

/-- The first row of the piece of a PE, and behind the last PE that below the image. -/
def cut (P height p : Nat) : Nat := if p < P then height / P * p else height

/-- The rows of a PE, as the image has them. -/
def piece (resolution : Usize × Usize) (pixel : Usize → Usize → T) (p : Fin P) : List T :=
  (List.range' (cut P resolution.2.toNat p * resolution.1.toNat)
    (cut P resolution.2.toNat (p + 1) * resolution.1.toNat -
      cut P resolution.2.toNat p * resolution.1.toNat)).map (image resolution pixel)

theorem cut_rest (P height : Nat) : height / P * P + height % P = height := Nat.div_add_mod' ..

theorem cut_ascending (height : Nat) {p : Nat} (inside : p < P) :
    cut P height p ≤ cut P height (p + 1) := by
  have whole := cut_rest P height
  simp only [cut, if_pos inside]
  split
  · exact Nat.mul_le_mul_left _ (Nat.le_succ p)
  · have := Nat.mul_le_mul_left (height / P) (Nat.le_of_lt inside)
    omega

omit [Pod T] in
/-- The pieces are the image. -/
theorem pieces (positive : 0 < P) (resolution : Usize × Usize) (pixel : Usize → Usize → T) :
    (List.ofFn fun p : Fin P => piece resolution pixel p).flatten =
      (List.range (resolution.2.toNat * resolution.1.toNat)).map (image resolution pixel) := by
  have first : cut P resolution.2.toNat 0 * resolution.1.toNat = 0 := by simp [cut, positive]
  have ascending (p : Nat) (inside : p < P) : cut P resolution.2.toNat p * resolution.1.toNat ≤
      cut P resolution.2.toNat (p + 1) * resolution.1.toNat :=
    Nat.mul_le_mul_right _ (cut_ascending _ inside)
  have whole := RowMajor.flatMap_pieces first ascending
  have last : cut P resolution.2.toNat P = resolution.2.toNat := if_neg (Nat.lt_irrefl P)
  rw [last] at whole
  rw [← whole, List.map_flatMap, ← List.flatMap_id, List.ofFn_eq_map, List.flatMap_map,
    ← List.map_coe_finRange_eq_range, List.flatMap_map]
  rfl

/-! ### The arithmetic of one PE -/

/-- The image fits an allocation, with one element to spare: the buffer for a read of `..` has
one more than the array. -/
def Fits (resolution : Usize × Usize) (size : Nat) : Prop :=
  0 < size ∧ (resolution.2.toNat * resolution.1.toNat + 1) * size ≤ isizeMax

instance (resolution : Usize × Usize) (size : Nat) : Decidable (Fits resolution size) :=
  inferInstanceAs (Decidable (_ ∧ _))

/-- The program's own `RESOLUTION`, with its pixels of type `f32`. -/
example : Fits (8192, 7428) 4 := by decide

section

variable (build : Build) {resolution : Usize × Usize} {size : Nat}

theorem Fits.small (fits : Fits resolution size) :
    resolution.2.toNat * resolution.1.toNat + 1 ≤ isizeMax :=
  Nat.le_trans (Nat.le_mul_of_pos_right _ fits.1) fits.2

theorem usizeDiv_nPes (few : P ≤ cIntMax) (positive : 0 < P) (x : Usize) :
    ∃ z, usizeDiv x (nPes P) = .ok z ∧ z.toNat = x.toNat / P := by
  refine ⟨x / nPes P, by rw [usizeDiv, if_neg (nPes_ne_zero few positive)], ?_⟩
  rw [BitVec.toNat_udiv, nPes_toNat few]

theorem usizeRem_nPes (few : P ≤ cIntMax) (positive : 0 < P) (x : Usize) :
    ∃ z, usizeRem x (nPes P) = .ok z ∧ z.toNat = x.toNat % P := by
  refine ⟨x % nPes P, by rw [usizeRem, if_neg (nPes_ne_zero few positive)], ?_⟩
  rw [BitVec.toNat_umod, nPes_toNat few]

theorem maxRowCount_ok (resolution : Usize × Usize) (few : P ≤ cIntMax) (positive : 0 < P) :
    ∃ z, maxRowCount build resolution (nPes P) = .ok z ∧
      z.toNat = resolution.2.toNat / P + resolution.2.toNat % P := by
  obtain ⟨whole, whole_eq, whole_toNat⟩ := usizeDiv_nPes few positive resolution.2
  obtain ⟨rest, rest_eq, rest_toNat⟩ := usizeRem_nPes few positive resolution.2
  have bound := resolution.2.isLt
  have split := cut_rest P resolution.2.toNat
  have part : resolution.2.toNat / P ≤ resolution.2.toNat / P * P := Nat.le_mul_of_pos_right _ positive
  obtain ⟨z, sum, value⟩ := arithmetic_add build (x := whole) (y := rest) (by
    rw [whole_toNat, rest_toNat]
    omega)
  refine ⟨z, ?_, by rw [value, whole_toNat, rest_toNat]⟩
  rw [maxRowCount, whole_eq, rest_eq]
  exact sum

/-- The rows of a PE are those of its piece. -/
theorem rowCount_ok (resolution : Usize × Usize) (few : P ≤ cIntMax) (p : Fin P) :
    ∃ z, rowCount build resolution (nPes P) (myPe p) = .ok z ∧
      z.toNat = cut P resolution.2.toNat (p + 1) - cut P resolution.2.toNat p ∧
      z.toNat ≤ resolution.2.toNat / P + resolution.2.toNat % P := by
  have inside := p.isLt
  have positive := Nat.zero_lt_of_lt inside
  have number := nPes_toNat few
  have mine := myPe_toNat few p
  have one : (1 : Usize).toNat = 1 := rfl
  have below : (1 : Usize).toNat ≤ (nPes P).toNat := by rw [number, one]; exact positive
  have last : (nPes P - 1).toNat = P - 1 := by
    rw [BitVec.toNat_sub_of_le (BitVec.le_def.mpr below), number, one]
  have split := cut_rest P resolution.2.toNat
  rw [rowCount, usizeSub_fits build below]
  simp only [arithmetic, Except.mapError, bind, Except.bind]
  by_cases final : myPe p = nPes P - 1
  · have same : p.val + 1 = P := by
      have := congrArg BitVec.toNat final
      omega
    obtain ⟨z, returned, value⟩ := maxRowCount_ok build resolution few positive
    refine ⟨z, by rw [if_pos final]; exact returned, ?_, by omega⟩
    have product : resolution.2.toNat / P * P = resolution.2.toNat / P * p + resolution.2.toNat / P := by
      rw [← Nat.mul_succ]
      exact congrArg (resolution.2.toNat / P * ·) same.symm
    rw [value, cut, cut, if_neg (by omega), if_pos inside]
    omega
  · have other : p.val + 1 < P := by
      by_contra final'
      apply final
      apply BitVec.eq_of_toNat_eq
      omega
    obtain ⟨z, returned, value⟩ := usizeDiv_nPes few positive resolution.2
    refine ⟨z, by rw [if_neg final]; exact returned, ?_, by omega⟩
    rw [value, cut, cut, if_pos other, if_pos inside, Nat.mul_succ]
    omega

theorem cut_le (P height p : Nat) : cut P height p ≤ height := by
  unfold cut
  split
  · rename_i inside
    have whole := cut_rest P height
    have part := Nat.mul_le_mul_left (height / P) (Nat.le_of_lt inside)
    omega
  · exact Nat.le_refl _

theorem myRowStart_ok (resolution : Usize × Usize) (few : P ≤ cIntMax) (p : Fin P) :
    ∃ z, myRowStart build resolution (nPes P) (myPe p) = .ok z ∧
      z.toNat = cut P resolution.2.toNat p := by
  have inside := p.isLt
  have bound := resolution.2.isLt
  have below := cut_le P resolution.2.toNat p
  rw [cut, if_pos inside] at below ⊢
  obtain ⟨whole, whole_eq, whole_toNat⟩ := usizeDiv_nPes few (Nat.zero_lt_of_lt inside) resolution.2
  obtain ⟨z, product, value⟩ := arithmetic_mul build (x := whole) (y := myPe p) (by
    rw [whole_toNat, myPe_toNat few]
    omega)
  refine ⟨z, ?_, by rw [value, whole_toNat, myPe_toNat few]⟩
  rw [myRowStart, whole_eq]
  exact product

theorem piece_le (height width : Nat) (p : Fin P) :
    (cut P height (p + 1) - cut P height p) * width ≤ height * width :=
  Nat.mul_le_mul_right _ (Nat.le_trans (Nat.sub_le _ _) (cut_le P height _))

theorem theirElementCount_ok (few : P ≤ cIntMax) (fits : Fits resolution size) (p : Fin P) :
    ∃ z, theirElementCount build resolution (nPes P) (myPe p) = .ok z ∧
      z.toNat = (cut P resolution.2.toNat (p + 1) - cut P resolution.2.toNat p) *
        resolution.1.toNat := by
  have small := fits.small
  have part := piece_le resolution.2.toNat resolution.1.toNat p
  simp only [isizeMax] at small
  obtain ⟨count, count_eq, count_toNat, _⟩ := rowCount_ok build resolution few p
  obtain ⟨z, product, value⟩ := arithmetic_mul build (x := count) (y := resolution.1) (by
    rw [count_toNat]
    omega)
  refine ⟨z, ?_, by rw [value, count_toNat]⟩
  rw [theirElementCount, count_eq]
  exact product

/-! ### The loops -/

theorem mem_usizeSpan {start end_ row : Usize} :
    row ∈ usizeSpan start end_ ↔ start.toNat ≤ row.toNat ∧ row.toNat < end_.toNat := by
  have bound := end_.isLt
  simp only [usizeSpan, List.mem_map, List.mem_range'_1]
  constructor
  · rintro ⟨r, ⟨low, high⟩, rfl⟩
    rw [usize_ofNat (by omega)]
    omega
  · rintro ⟨low, high⟩
    exact ⟨row.toNat, by omega, by simp⟩

theorem mem_usizeRange {width col : Usize} : col ∈ usizeRange width ↔ col.toNat < width.toNat := by
  have bound := width.isLt
  simp only [usizeRange, List.mem_map, List.mem_range]
  constructor
  · rintro ⟨c, inside, rfl⟩
    rwa [usize_ofNat (by omega)]
  · intro inside
    exact ⟨col.toNat, inside, by simp⟩

variable {pixel : Usize → Usize → T} {rows : Shbox T}

/-- The length of the array on each PE. -/
def Allocated (P : Nat) (resolution : Usize × Usize) (rows : Shbox T) : Prop :=
  rows.len.toNat = (resolution.2.toNat / P + resolution.2.toNat % P) * resolution.1.toNat

/-- What the program asks of the allocator comes to that. -/
theorem allocated_of_len (positive : 0 < P) (fits : Fits resolution size) (few : P ≤ cIntMax)
    (asked : len build resolution (nPes P) = .ok rows.len) : Allocated P resolution rows := by
  have small := fits.small
  have whole := cut_rest P resolution.2.toNat
  have part : resolution.2.toNat / P ≤ resolution.2.toNat / P * P := Nat.le_mul_of_pos_right _ positive
  obtain ⟨count, count_eq, count_toNat⟩ := maxRowCount_ok build resolution few positive
  have most : count.toNat * resolution.1.toNat ≤ resolution.2.toNat * resolution.1.toNat :=
    Nat.mul_le_mul_right _ (by omega)
  simp only [isizeMax] at small
  obtain ⟨z, product, value⟩ := arithmetic_mul build (x := count) (y := resolution.1) (by omega)
  rw [len, count_eq] at asked
  have same : z = rows.len := Except.ok.inj (product.symm.trans asked)
  rw [Allocated, ← same, value, count_toNat]

theorem Allocated.piece_le (allocated : Allocated P resolution rows) (few : P ≤ cIntMax) (p : Fin P) :
    (cut P resolution.2.toNat (p + 1) - cut P resolution.2.toNat p) * resolution.1.toNat ≤
      rows.len.toNat := by
  obtain ⟨_, _, count, most⟩ := rowCount_ok .debug resolution few p
  rw [allocated, ← count]
  exact Nat.mul_le_mul_right _ most

/-- A pixel of the PE's rows is stored at its index among them, and that is in the array. -/
theorem assign_ok (allocated : Allocated P resolution rows) (few : P ≤ cIntMax) (p : Fin P)
    {start row col : Usize} (first : start.toNat = cut P resolution.2.toNat p)
    (low : start.toNat ≤ row.toNat) (high : row.toNat < cut P resolution.2.toNat (p + 1))
    (inside : col.toNat < resolution.1.toNat) :
    assign build resolution pixel rows start row col =
      .ok (BitVec.ofNat 64 ((row.toNat - start.toNat) * resolution.1.toNat + col.toNat),
        pixel col row) := by
  have bound := rows.len.isLt
  have within : (row.toNat - start.toNat) * resolution.1.toNat + col.toNat < rows.len.toNat := by
    refine Nat.lt_of_lt_of_le (RowMajor.index_lt ?_ inside) (allocated.piece_le few p)
    omega
  have below : (row - start).toNat = row.toNat - start.toNat :=
    BitVec.toNat_sub_of_le (BitVec.le_def.mpr low)
  obtain ⟨line, line_eq, line_toNat⟩ := arithmetic_mul build (x := row - start) (y := resolution.1) (by
    rw [below]
    omega)
  rw [below] at line_toNat
  obtain ⟨idx, idx_eq, idx_toNat⟩ := arithmetic_add build (x := line) (y := col) (by omega)
  rw [line_toNat] at idx_toNat
  have same : idx = BitVec.ofNat 64 ((row.toNat - start.toNat) * resolution.1.toNat + col.toNat) := by
    rw [← idx_toNat, BitVec.ofNat_toNat, BitVec.setWidth_eq]
  rw [assign, usizeSub_fits build low]
  simp only [arithmetic, Except.mapError, bind, Except.bind] at line_eq idx_eq ⊢
  rw [line_eq]
  simp only
  rw [idx_eq]
  simp only
  rw [if_pos (by rw [idx_toNat]; exact within), same]
  rfl

/-- The stores to the elements of one row. -/
def line (resolution : Usize × Usize) (pixel : Usize → Usize → T) (start row : Usize) :
    List (Usize × T) :=
  (usizeRange resolution.1).map fun col =>
    (BitVec.ofNat 64 ((row.toNat - start.toNat) * resolution.1.toNat + col.toNat), pixel col row)

/-- The loops return, and have stored every pixel of the piece at its place and nothing else. -/
theorem calculate_ok (pixel : Usize → Usize → T) (allocated : Allocated P resolution rows) (few : P ≤ cIntMax) (p : Fin P) :
    ∃ stores, calculate build resolution (nPes P) pixel rows (myPe p) = .ok stores ∧
      ∀ store, store ∈ stores ↔ ∃ k < (cut P resolution.2.toNat (p + 1) -
          cut P resolution.2.toNat p) * resolution.1.toNat,
        store = (BitVec.ofNat 64 k,
          image resolution pixel (cut P resolution.2.toNat p * resolution.1.toNat + k)) := by
  have bound := resolution.2.isLt
  have ascending := cut_ascending resolution.2.toNat p.isLt
  have end_le := cut_le P resolution.2.toNat (p + 1)
  obtain ⟨start, start_eq, first⟩ := myRowStart_ok build resolution few p
  obtain ⟨count, count_eq, count_toNat, _⟩ := rowCount_ok build resolution few p
  obtain ⟨end_, end_eq, end_toNat⟩ := arithmetic_add build (x := start) (y := count) (by omega)
  have last : end_.toNat = cut P resolution.2.toNat (p + 1) := by omega
  have lines : ((usizeSpan start end_).mapM fun row => (usizeRange resolution.1).mapM fun col =>
      assign build resolution pixel rows start row col) =
      .ok ((usizeSpan start end_).map (line resolution pixel start)) := by
    refine RowMajor.mapM_of_ok fun row inRange => RowMajor.mapM_of_ok fun col inLine => ?_
    obtain ⟨low, high⟩ := mem_usizeSpan.mp inRange
    exact assign_ok build allocated few p first low (last ▸ high) (mem_usizeRange.mp inLine)
  refine ⟨((usizeSpan start end_).map (line resolution pixel start)).flatten, ?_, ?_⟩
  · rw [calculate, start_eq, count_eq]
    simp only [bind, Except.bind] at end_eq lines ⊢
    rw [end_eq]
    simp only
    rw [lines]
    rfl
  · intro store
    rw [← List.flatMap_def, List.mem_flatMap]
    constructor
    · rintro ⟨row, inRange, stored⟩
      obtain ⟨low, high⟩ := mem_usizeSpan.mp inRange
      obtain ⟨col, inLine, rfl⟩ := List.mem_map.mp stored
      have inside := mem_usizeRange.mp inLine
      obtain ⟨r, row_eq⟩ := Nat.exists_eq_add_of_le low
      have flat : cut P resolution.2.toNat p * resolution.1.toNat +
          (r * resolution.1.toNat + col.toNat) = row.toNat * resolution.1.toNat + col.toNat := by
        rw [row_eq, first, Nat.add_mul, Nat.add_assoc]
      refine ⟨r * resolution.1.toNat + col.toNat, RowMajor.index_lt (by omega) inside, ?_⟩
      rw [image, flat, RowMajor.index_div inside, RowMajor.index_mod inside, row_eq,
        Nat.add_sub_cancel_left, ← row_eq]
      simp
    · rintro ⟨k, inside, rfl⟩
      obtain ⟨r, inRange, c, inLine, rfl⟩ := RowMajor.exists_index inside
      have row : (BitVec.ofNat 64 (start.toNat + r)).toNat = start.toNat + r := usize_ofNat (by omega)
      have col : (BitVec.ofNat 64 c).toNat = c :=
        usize_ofNat (Nat.lt_trans inLine resolution.1.isLt)
      have flat : cut P resolution.2.toNat p * resolution.1.toNat + (r * resolution.1.toNat + c) =
          (start.toNat + r) * resolution.1.toNat + c := by
        rw [first, Nat.add_mul, Nat.add_assoc]
      refine ⟨BitVec.ofNat 64 (start.toNat + r), mem_usizeSpan.mpr (by omega),
        List.mem_map.mpr ⟨BitVec.ofNat 64 c, mem_usizeRange.mpr (by omega), ?_⟩⟩
      rw [row, col, Nat.add_sub_cancel_left, flat, image, RowMajor.index_div inLine,
        RowMajor.index_mod inLine]

end

/-! ### All PEs -/
section

variable {build : Build} {resolution : Usize × Usize} {pixel : Usize → Usize → T} {rows : Shbox T}

theorem mem_calculation (allocated : Allocated P resolution rows) (few : P ≤ cIntMax)
    {step : Step P T} :
    step ∈ (calculation P build resolution pixel rows).all ↔ ∃ p : Fin P,
      ∃ k < (cut P resolution.2.toNat (p + 1) - cut P resolution.2.toNat p) * resolution.1.toNat,
        step = .store p k
          (image resolution pixel (cut P resolution.2.toNat p * resolution.1.toNat + k)) := by
  have bound := rows.len.isLt
  rw [Phases.Phase.mem_all]
  refine exists_congr fun p => ?_
  obtain ⟨stores, returned, stored⟩ := calculate_ok build pixel allocated few p
  have part := allocated.piece_le few p
  simp only [calculation, returned, List.mem_map]
  constructor
  · rintro ⟨store, member, rfl⟩
    obtain ⟨k, inside, rfl⟩ := (stored store).mp member
    refine ⟨k, inside, ?_⟩
    simp only
    rw [usize_ofNat (by omega)]
  · rintro ⟨k, inside, rfl⟩
    refine ⟨_, (stored _).mpr ⟨k, inside, rfl⟩, ?_⟩
    simp only
    rw [usize_ofNat (by omega)]

theorem commutes (default : T) (allocated : Allocated P resolution rows) (few : P ≤ cIntMax) :
    ∀ phase ∈ main P build resolution pixel default rows,
      (array P default rows).meaning.Commutes phase := by
  intro phase member
  simp only [main, List.mem_cons, List.not_mem_nil, or_false] at member
  rcases member with rfl | rfl | rfl | rfl
  · exact (array P default rows).commutes_allocation
  · exact (array P default rows).commutes_stores
  · intro a one b other mem
    obtain ⟨p, i, _, rfl⟩ := (mem_calculation allocated few).mp one
    obtain ⟨q, j, _, rfl⟩ := (mem_calculation allocated few).mp other
    refine (array P default rows).commute_stores ?_ mem
    rintro rfl rfl
    rfl
  · intro a one
    simp at one

/-- Behind the calculation the part of each PE begins with its piece of the image. -/
theorem calculated (default : T) (allocated : Allocated P resolution rows) (few : P ≤ cIntMax)
    (mem : Fin P → Nat → T) (p : Fin P) {k : Nat}
    (inside : k < (cut P resolution.2.toNat (p + 1) - cut P resolution.2.toNat p) *
      resolution.1.toNat) :
    (array P default rows).meaning.memory (main P build resolution pixel default rows) mem 3 p k =
      image resolution pixel (cut P resolution.2.toNat p * resolution.1.toNat + k) := by
  have keeps : ∀ step ∈ (calculation P build resolution pixel rows).all, ∀ mem : Fin P → Nat → T,
      mem p k = image resolution pixel (cut P resolution.2.toNat p * resolution.1.toNat + k) →
      (array P default rows).meaning.act step mem p k =
        image resolution pixel (cut P resolution.2.toNat p * resolution.1.toNat + k) := by
    intro step member mem held
    obtain ⟨q, j, _, rfl⟩ := (mem_calculation allocated few).mp member
    refine (array P default rows).act_store_keeps held ?_
    rintro rfl rfl
    rfl
  exact (array P default rows).meaning.perform_establishes
    (fun mem => mem p k =
      image resolution pixel (cut P resolution.2.toNat p * resolution.1.toNat + k))
    keeps ((mem_calculation allocated few).mpr ⟨p, k, inside, rfl⟩)
    ((array P default rows).act_store_self p k _) _

/-! ### PE 0 -/

/-- What is read of a PE: its part, and an element from behind it. -/
theorem theirData_run (build : Build) (fits : (rows.len.toNat + 1) * Pod.size T ≤ isizeMax)
    (small : rows.len.toNat + 1 < 2^64) (few : P ≤ cIntMax) {pe : Usize} {p : Fin P}
    (number : pe.toNat = p.val) (w : World P) :
    ∃ after data, (theirData build rows pe).run w = .ok data after ∧ after.mem = w.mem ∧
      data.elems = elements T (w.mem p) rows.addr (rows.len.toNat + 1) := by
  obtain ⟨self, made, target⟩ := ctxPe_target few number
  obtain ⟨count, count_toNat⟩ := exists_usize small
  have first : Bound.unbounded.start build = 0 := Bound.start_exact (by simp [Bound.lo])
  have last : Bound.unbounded.last build rows.len.toNat = rows.len.toNat := if_pos rfl
  have resolved : resolve build .full rows.len = .ok (0, count) := by
    refine resolve_ok.mpr ⟨first.symm, ?_, ?_, .inl ⟨?_, ?_⟩⟩
    · exact Nat.zero_le _
    · exact Nat.le_of_eq last
    · simpa [RangeBounds.full, last] using small
    · simpa [RangeBounds.full, last] using count_toNat
  obtain ⟨data, read, elems⟩ := PEReference.read_resolved self resolved (w := w)
    (by rwa [count_toNat])
  have run : (theirData build rows pe).run w = (self.read build rows .full).run w := by
    rw [theirData, made, bind_ok (run_attempt_ok _ w)]
  refine ⟨_, data, run.trans read, rfl, ?_⟩
  rw [elems, count_toNat, target]
  simp [Shbox.offset]

omit [Pod T] in
theorem bind_returned {ε α β : Type} {x : ExceptT ε (Shmem P) α} {f : α → ExceptT ε (Shmem P) β}
    {w next : World P} {a : α} (first : x.run.run w = .ok (.ok a) next) :
    (x >>= f).run.run w = (f a).run.run next := by
  rw [ExceptT.run_bind, bind_ok first]

/-- Behind the part of each PE its piece has been written. -/
theorem savePart_run (build : Build) (fits : Fits resolution (Pod.size T))
    (allocated : Allocated P resolution rows) (few : P ≤ cIntMax) {mem : Fin P → Nat → UInt8}
    (calculated : ∀ p : Fin P, ∀ k < (cut P resolution.2.toNat (p + 1) -
      cut P resolution.2.toNat p) * resolution.1.toNat, rows.elementsOn mem p k =
        image resolution pixel (cut P resolution.2.toNat p * resolution.1.toNat + k))
    (p : Fin P) (out : List T) {w : World P} (same : w.mem = mem) :
    ∃ after, (savePart P build resolution rows out (myPe p)).run.run w =
      .ok (.ok (out ++ piece resolution pixel p)) after ∧ after.mem = mem := by
  have small := fits.small
  have positive := Nat.zero_lt_of_lt p.isLt
  have length : rows.len.toNat ≤ resolution.2.toNat * resolution.1.toNat := by
    have whole := cut_rest P resolution.2.toNat
    have part : resolution.2.toNat / P ≤ resolution.2.toNat / P * P :=
      Nat.le_mul_of_pos_right _ positive
    rw [allocated]
    exact Nat.mul_le_mul_right _ (by omega)
  have room : (rows.len.toNat + 1) * Pod.size T ≤ isizeMax :=
    Nat.le_trans (Nat.mul_le_mul_right _ (Nat.succ_le_succ length)) fits.2
  simp only [isizeMax] at small
  obtain ⟨after, data, read, kept, elems⟩ :=
    theirData_run build room (by omega) few (myPe_toNat few p) w
  obtain ⟨count, count_eq, count_toNat⟩ := theirElementCount_ok build few fits p
  have part := allocated.piece_le few p
  have enough : count.toNat ≤ data.elems.length := by
    rw [elems, elements_length]
    omega
  have taken : data.elems.take count.toNat = piece resolution pixel p := by
    apply List.ext_getElem
    · rw [List.length_take_of_le enough, count_toNat, Nat.sub_mul, piece, List.length_map,
        List.length_range']
    intro k short _
    have inside : k < (cut P resolution.2.toNat (p + 1) - cut P resolution.2.toNat p) *
        resolution.1.toNat := by
      rw [List.length_take_of_le enough, count_toNat] at short
      exact short
    have value := calculated p k inside
    rw [Shbox.elementsOn, ← same] at value
    simp only [elems, List.getElem_take, elements_getElem, piece, List.getElem_map,
      List.getElem_range', Nat.one_mul]
    exact value
  refine ⟨after, ?_, kept.trans same⟩
  have first : (liftM (theirElementCount build resolution (nPes P) (myPe p)) :
      ExceptT MatrixPanic (Shmem P) Usize).run.run w = .ok (.ok count) w := by
    rw [count_eq]
    rfl
  have second : (ExceptT.lift (theirData build rows (myPe p)) :
      ExceptT MatrixPanic (Shmem P) (Slice T)).run.run w = .ok (.ok data) after := by
    rw [ExceptT.run_lift]
    exact bind_ok read
  rw [savePart, bind_returned first, bind_returned second, written, if_pos enough, taken]
  rfl

theorem usizeRange_nPes (few : P ≤ cIntMax) : usizeRange (nPes P) = (List.finRange P).map myPe := by
  rw [usizeRange, nPes_toNat few, ← List.map_coe_finRange_eq_range, List.map_map]
  refine List.map_congr_left fun p _ => ?_
  apply BitVec.eq_of_toNat_eq
  rw [myPe_toNat few]
  have inside := p.isLt
  simp only [cIntMax] at few
  exact usize_ofNat (show p.val < 2^64 by omega)

/-- All of the image has been written. -/
theorem save_run (build : Build) (positive : 0 < P) (fits : Fits resolution (Pod.size T))
    (allocated : Allocated P resolution rows) (few : P ≤ cIntMax) {mem : Fin P → Nat → UInt8}
    (calculated : ∀ p : Fin P, ∀ k < (cut P resolution.2.toNat (p + 1) -
      cut P resolution.2.toNat p) * resolution.1.toNat, rows.elementsOn mem p k =
        image resolution pixel (cut P resolution.2.toNat p * resolution.1.toNat + k))
    {w : World P} (same : w.mem = mem) :
    ∃ after, (save P build resolution rows).run.run w =
      .ok (.ok ((List.range (resolution.2.toNat * resolution.1.toNat)).map (image resolution pixel)))
        after := by
  have parts (l : List (Fin P)) (out : List T) (w : World P) (same : w.mem = mem) :
      ∃ after, ((l.map myPe).foldlM (savePart P build resolution rows) out).run.run w =
        .ok (.ok (out ++ l.flatMap (piece resolution pixel))) after := by
    induction l generalizing out w with
    | nil => exact ⟨w, by rw [List.flatMap_nil, List.append_nil]; rfl⟩
    | cons p rest ih =>
      obtain ⟨after, first, kept⟩ := savePart_run build fits allocated few calculated p out same
      obtain ⟨last, later⟩ := ih (out ++ piece resolution pixel p) after kept
      refine ⟨last, ?_⟩
      rw [List.flatMap_cons, ← List.append_assoc, ← later, List.map_cons, List.foldlM_cons,
        bind_returned first]
  have whole := pieces positive resolution pixel
  obtain ⟨after, run⟩ := parts (List.finRange P) [] w same
  refine ⟨after, ?_⟩
  rw [save, usizeRange_nPes few, run, List.nil_append, ← whole, List.ofFn_eq_map, List.flatMap_def]

end

/-- No PE panics in its loops, and PE 0 writes the whole image. -/
structure Renders (build : Build) (resolution : Usize × Usize) (pixel : Usize → Usize → T)
    (default : T) (rows : Shbox T) (s : Phases.State P (Step P T) (Fin P → Nat → UInt8))
    (length : Nat) : Prop where
  calculates : ∀ p : Fin P, ∃ stores,
    calculate build resolution (nPes P) pixel rows (myPe p) = .ok stores
  saves : ∀ p i, s.place p = .working 3 i → ∀ w : World P, w.mem = s.mem →
    ∃ after, (save P build resolution rows).run.run w =
      .ok (.ok ((List.range (resolution.2.toNat * resolution.1.toNat)).map (image resolution pixel)))
        after
  ends : Phases.Ends (main P build resolution pixel default rows) s length

end Mandelbrot

open Mandelbrot in
/-- For any number of PEs, whether it divides the number of rows or not. -/
theorem mandelbrot_renders (build : Build) (resolution : Usize × Usize) (pixel : Usize → Usize → T)
    (default : T) (rows : Shbox T) (few : P ≤ cIntMax) (fits : Fits resolution (Pod.size T))
    (asked : len build resolution (nPes P) = .ok rows.len) (mem : Fin P → Nat → UInt8)
    (events : List (Phases.Event P))
    (run : ((rows.meaning (Mandelbrot.array P default rows)).machine
      (main P build resolution pixel default rows)).Admits (Phases.start P _ mem) events) :
    Renders build resolution pixel default rows (((rows.meaning
      (Mandelbrot.array P default rows)).machine (main P build resolution pixel default rows)).after
        (Phases.start P _ mem) events) events.length := by
  refine ⟨?_, ?_, Phases.ends run⟩
  · intro p
    have allocated := allocated_of_len build (Nat.zero_lt_of_lt p.isLt) fits few asked
    obtain ⟨stores, returned, _⟩ := calculate_ok build pixel allocated few p
    exact ⟨stores, returned⟩
  · intro p i working w same
    have positive := Nat.zero_lt_of_lt p.isLt
    have allocated := allocated_of_len build positive fits few asked
    refine save_run build positive fits allocated few ?_ same
    have idle : ((main P build resolution pixel default rows).actions 3).all = [] := by
      simp [Phases.Program.actions, Phases.Phase.all, main]
    have elements := rows.elementsOn_idle _ run working (commutes default allocated few) idle
    intro q k inside
    exact (congrFun (congrFun elements q) k).trans (calculated default allocated few _ q inside)

/-- Three rows on two PEs. -/
theorem mandelbrot_renders_two :
    Mandelbrot.Renders .release (2, 3) (fun x y => UInt8.ofNat (10 * y.toNat + x.toNat)) 0
      (⟨16, 4, by decide⟩ : Shbox UInt8)
      ((((⟨16, 4, by decide⟩ : Shbox UInt8).meaning
        (Mandelbrot.array 2 0 ⟨16, 4, by decide⟩)).machine (Mandelbrot.main 2 .release (2, 3)
          (fun x y => UInt8.ofNat (10 * y.toNat + x.toNat)) 0 ⟨16, 4, by decide⟩)).after
        (Phases.start 2 _ fun _ _ => 3)
        ([.act 0, .act 1, .arrive 0, .arrive 1, .leave 0, .leave 1] ++
          List.replicate 4 (.act 1) ++ List.replicate 4 (.act 0) ++
          [.arrive 0, .arrive 1, .leave 1, .leave 0] ++ List.replicate 4 (.act 1) ++
          List.replicate 2 (.act 0) ++ [.arrive 1, .arrive 0, .leave 0])) 27 :=
  mandelbrot_renders .release _ _ _ _ (by decide) (by decide) (by decide) _ _ (by decide)

end OpenShmem
