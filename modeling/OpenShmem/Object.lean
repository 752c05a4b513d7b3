import OpenShmem.Range
import OpenShmem.Overlay
import OpenShmem.RowMajor

/-! Rust objects as bytes. A `Pod` element is exactly its bytes; a boxed slice and
a symmetric array carry the layout bound every Rust allocation satisfies. -/
namespace OpenShmem

open Overlay

/-- Every pattern of `size` bytes is a value and a value is nothing but its bytes. -/
class Pod (T : Type) where
  size : Nat
  size_le : size ≤ isizeMax
  toBytes : T → List UInt8
  ofBytes : List UInt8 → T
  length_toBytes : ∀ t, (toBytes t).length = size
  ofBytes_toBytes : ∀ t, ofBytes (toBytes t) = t
  toBytes_ofBytes : ∀ bytes, bytes.length = size → toBytes (ofBytes bytes) = bytes

instance : Pod UInt8 where
  size := 1
  size_le := by decide
  toBytes byte := [byte]
  ofBytes bytes := bytes.headD 0
  length_toBytes _ := rfl
  ofBytes_toBytes _ := rfl
  toBytes_ofBytes bytes one := by
    obtain ⟨byte, rfl⟩ := List.length_eq_one_iff.mp one
    rfl

instance : Pod Unit where
  size := 0
  size_le := by decide
  toBytes _ := []
  ofBytes _ := ()
  length_toBytes _ := rfl
  ofBytes_toBytes _ := rfl
  toBytes_ofBytes bytes zero := (List.length_eq_zero_iff.mp zero).symm

variable {T : Type} [Pod T]

def sizeOf (T : Type) [Pod T] : Usize := BitVec.ofNat 64 (Pod.size T)

@[simp] theorem sizeOf_toNat : (sizeOf T).toNat = Pod.size T := by
  have := Pod.size_le (T := T)
  simp only [sizeOf, BitVec.toNat_ofNat]
  exact Nat.mod_eq_of_lt (by simp only [isizeMax] at this; omega)

/-- The element at index `i` of an array whose first byte is at `addr`. -/
def element (T : Type) [Pod T] (m : Nat → UInt8) (addr i : Nat) : T :=
  Pod.ofBytes (window m (addr + i * Pod.size T) (Pod.size T))

def elements (T : Type) [Pod T] (m : Nat → UInt8) (addr count : Nat) : List T :=
  (List.range count).map (element T m addr)

def encode (elems : List T) : List UInt8 := elems.flatMap Pod.toBytes

@[simp] theorem elements_length (m : Nat → UInt8) (addr count : Nat) :
    (elements T m addr count).length = count := by simp [elements]

@[simp] theorem elements_getElem (m : Nat → UInt8) (addr count i : Nat)
    (h : i < (elements T m addr count).length) :
    (elements T m addr count)[i] = element T m addr i := by simp [elements]

@[simp] theorem encode_length (elems : List T) :
    (encode elems).length = elems.length * Pod.size T := by
  induction elems with
  | nil => simp [encode]
  | cons t rest ih =>
    simp only [encode, List.flatMap_cons, List.length_append, Pod.length_toBytes] at *
    rw [ih, List.length_cons, Nat.add_mul]
    omega

theorem toBytes_element (m : Nat → UInt8) (addr i : Nat) :
    Pod.toBytes (element T m addr i) = window m (addr + i * Pod.size T) (Pod.size T) :=
  Pod.toBytes_ofBytes _ (by simp)

/-- Arrays are equal exactly when their bytes are. -/
theorem elements_eq_iff {m m' : Nat → UInt8} {addr addr' count : Nat} :
    elements T m addr count = elements T m' addr' count ↔
      ∀ x < count * Pod.size T, m (addr + x) = m' (addr' + x) := by
  constructor
  · intro same x inside
    have positive : 0 < Pod.size T := Nat.pos_of_lt_mul_left inside
    have inside' : x / Pod.size T < count := Nat.div_lt_of_lt_mul (by rwa [Nat.mul_comm])
    have element_eq := List.getElem_of_eq same (i := x / Pod.size T) (by simpa using inside')
    simp only [elements_getElem] at element_eq
    have bytes := congrArg Pod.toBytes element_eq
    rw [toBytes_element, toBytes_element] at bytes
    have split := Nat.div_add_mod x (Pod.size T)
    rw [Nat.mul_comm] at split
    have := window_inj bytes (Nat.mod_lt x positive)
    rwa [Nat.add_assoc, Nat.add_assoc, split] at this
  · intro same
    apply List.map_congr_left
    intro i member
    unfold element
    congr 1
    apply window_congr
    intro k hk
    rw [Nat.add_assoc, Nat.add_assoc]
    exact same _ (RowMajor.index_lt (List.mem_range.mp member) hk)

/-- A run of elements inside an array. -/
theorem elements_sub (m : Nat → UInt8) (addr start count len : Nat)
    (inside : start + count ≤ len) :
    elements T m (addr + start * Pod.size T) count =
      ((elements T m addr len).drop start).take count := by
  apply List.ext_getElem
  · simp; omega
  · intro i _ _
    simp [element, Nat.add_mul, Nat.add_assoc]

/-- Loading an array and encoding it again gives its bytes. -/
theorem encode_elements (m : Nat → UInt8) (addr count : Nat) :
    encode (elements T m addr count) = window m addr (count * Pod.size T) := by
  induction count with
  | zero => simp [encode, elements, window]
  | succ count ih =>
    rw [Nat.add_mul, Nat.one_mul, window_append, ← ih, ← toBytes_element]
    simp [encode, elements, List.range_succ]

theorem encode_getElem? (elems : List T) {i k : Nat} (hi : i < elems.length)
    (hk : k < Pod.size T) :
    (encode elems)[i * Pod.size T + k]? = (Pod.toBytes elems[i])[k]? := by
  induction elems generalizing i with
  | nil => simp at hi
  | cons t rest ih =>
    have length := Pod.length_toBytes t
    cases i with
    | zero =>
      simp only [encode, List.flatMap_cons, List.getElem_cons_zero, Nat.zero_mul, Nat.zero_add]
      exact List.getElem?_append_left (by omega)
    | succ i =>
      have tail := ih (i := i) (by simpa using hi)
      simp only [List.getElem_cons_succ, ← tail, encode, List.flatMap_cons]
      rw [List.getElem?_append_right (by rw [length, Nat.add_mul]; omega), length, Nat.add_mul]
      congr 1
      omega

/-- Storing an encoded list and loading it as an array gives the list back. -/
theorem elements_overlay (m : Nat → UInt8) (addr : Nat) (elems : List T) :
    elements T (overlay m addr (encode elems)) addr elems.length = elems := by
  apply List.ext_getElem
  · simp
  · intro i _ hi
    rw [elements_getElem, ← Pod.ofBytes_toBytes elems[i], element]
    congr 1
    apply List.ext_getElem
    · simp [Pod.length_toBytes]
    · intro k hk bound
      have hk : k < Pod.size T := by simpa using hk
      rw [window_getElem, Nat.add_assoc]
      apply overlay_some
      rw [encode_getElem? elems hi hk, List.getElem?_eq_getElem bound]

/-- Elements are equal when their bytes are. -/
theorem element_congr {m m' : Nat → UInt8} {addr addr' i j : Nat}
    (same : ∀ x < Pod.size T, m (addr + i * Pod.size T + x) = m' (addr' + j * Pod.size T + x)) :
    element T m addr i = element T m' addr' j := by
  unfold element
  congr 1
  exact window_congr same

section

variable (m source : Nat → UInt8) (addr start count : Nat) {i : Nat}

/-- The elements a transfer of `count` of them stores are those of its source. -/
theorem element_put_inside (inside : i < count) :
    element T (overlay m (addr + start * Pod.size T) (window source 0 (count * Pod.size T)))
      addr (start + i) = element T source 0 i := by
  apply element_congr
  intro x hx
  have byte := RowMajor.index_lt inside hx
  have place : addr + (start + i) * Pod.size T + x =
      addr + start * Pod.size T + (i * Pod.size T + x) := by rw [Nat.add_mul]; omega
  rw [place, overlay_inside _ _ _ (by simpa using byte), window_getElem, Nat.zero_add, Nat.zero_add]

theorem element_put_after (after : count ≤ i) :
    element T (overlay m (addr + start * Pod.size T) (window source 0 (count * Pod.size T)))
      addr (start + i) = element T m addr (start + i) := by
  apply element_congr
  intro x _
  apply overlay_outside
  have := Nat.mul_le_mul_right (Pod.size T) after
  rw [window_length, Nat.add_mul]
  omega

end

/-- A boxed or borrowed slice. -/
@[ext] structure Slice (T : Type) [Pod T] where
  elems : List T
  length_lt : elems.length < 2^64
  layout : elems.length * Pod.size T ≤ isizeMax

def Slice.len (s : Slice T) : Usize := BitVec.ofNat 64 s.elems.length

@[simp] theorem Slice.len_toNat (s : Slice T) : s.len.toNat = s.elems.length := by
  simp only [Slice.len, BitVec.toNat_ofNat]
  exact Nat.mod_eq_of_lt s.length_lt

theorem Slice.len_eq {s : Slice T} {count : Usize} (length : s.elems.length = count.toNat) :
    s.len = count :=
  BitVec.eq_of_toNat_eq (by rw [Slice.len_toNat, length])

/-- The process memory from the first byte of a slice on. -/
def Slice.memory (s : Slice T) (behind : Nat → UInt8) : Nat → UInt8 :=
  overlay behind 0 (encode s.elems)

theorem Slice.memory_inside (s : Slice T) (behind behind' : Nat → UInt8) {x : Nat}
    (inside : x < s.elems.length * Pod.size T) : s.memory behind x = s.memory behind' x := by
  have bound : x < (encode s.elems).length := by simpa using inside
  have loaded := overlay_inside behind 0 (encode s.elems) bound
  have loaded' := overlay_inside behind' 0 (encode s.elems) bound
  rw [Nat.zero_add] at loaded loaded'
  exact loaded.trans loaded'.symm

/-- The bytes of a slice are those of its elements. -/
theorem Slice.memory_window (s : Slice T) (behind : Nat → UInt8) :
    window (s.memory behind) 0 (s.elems.length * Pod.size T) = encode s.elems := by
  rw [Slice.memory, ← encode_length, window_overlay]

theorem Slice.memory_element (s : Slice T) (behind : Nat → UInt8) {i : Nat} {t : T}
    (stored : s.elems[i]? = some t) : element T (s.memory behind) 0 i = t := by
  obtain ⟨inside, rfl⟩ := List.getElem?_eq_some_iff.mp stored
  have same := elements_overlay behind 0 s.elems
  have loaded := List.getElem_of_eq same (i := i) (by simpa using inside)
  rwa [elements_getElem] at loaded

/-- The slice after a foreign call stored `bytes` from its first byte on. -/
def Slice.receive (s : Slice T) (bytes : List UInt8) : Slice T where
  elems := elements T (overlay (s.memory (fun _ => 0)) 0 bytes) 0 s.elems.length
  length_lt := by simpa using s.length_lt
  layout := by simpa using s.layout

@[simp] theorem Slice.receive_length (s : Slice T) (bytes : List UInt8) :
    (s.receive bytes).elems.length = s.elems.length := by simp [Slice.receive]

/-- Stores through `&mut [T]`: an index the caller assigns takes the new value. -/
def Slice.assign (s : Slice T) (values : Nat → Option T) : Slice T where
  elems := s.elems.mapIdx fun i t => (values i).getD t
  length_lt := by simpa using s.length_lt
  layout := by simpa using s.layout

@[simp] theorem Slice.assign_length (s : Slice T) (values : Nat → Option T) :
    (s.assign values).elems.length = s.elems.length := by simp [Slice.assign]

@[simp] theorem Slice.assign_len (s : Slice T) (values : Nat → Option T) :
    (s.assign values).len = s.len := by simp [Slice.len]

/-- An array on the symmetric heap: the same address and length on every PE. -/
structure Shbox (T : Type) [Pod T] where
  addr : Nat
  len : Usize
  layout : len.toNat * Pod.size T ≤ isizeMax

def Shbox.contents (shbox : Shbox T) (m : Nat → UInt8) : List T :=
  elements T m shbox.addr shbox.len.toNat

@[simp] theorem Shbox.contents_length (shbox : Shbox T) (m : Nat → UInt8) :
    (shbox.contents m).length = shbox.len.toNat := by simp [Shbox.contents]

/-- A valid range of an array is a run of elements of its memory. -/
theorem Shbox.sliceIndex_contents (shbox : Shbox T) (m : Nat → UInt8) {range : RangeBounds}
    (valid : range.ValidFor shbox.len.toNat) :
    range.sliceIndex (shbox.contents m) =
      some (elements T m (shbox.addr + range.lo * Pod.size T)
        (range.hi shbox.len.toNat - range.lo)) := by
  obtain ⟨ordered, inside⟩ := valid
  rw [RangeBounds.sliceIndex, Shbox.contents_length, if_pos ⟨ordered, inside⟩, Shbox.contents,
    elements_sub _ _ _ _ shbox.len.toNat (by omega)]

theorem Shbox.len_small (shbox : Shbox T) (sized : Pod.size T ≠ 0) :
    shbox.len.toNat ≤ isizeMax :=
  Nat.le_trans (Nat.le_mul_of_pos_right _ (Nat.pos_of_ne_zero sized)) shbox.layout

/-- A slice which receives exactly its own number of bytes holds the sender's elements. -/
theorem Slice.receive_window (s : Slice T) (m : Nat → UInt8) (addr : Nat) :
    (s.receive (window m addr (s.elems.length * Pod.size T))).elems =
      elements T m addr s.elems.length := by
  apply elements_eq_iff.mpr
  intro x inside
  rw [overlay_inside _ _ _ (by simpa using inside), window_getElem]

end OpenShmem
