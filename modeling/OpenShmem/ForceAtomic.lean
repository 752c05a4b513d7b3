import Mathlib.Data.Nat.Digits.Defs
import OpenShmem.Atomics
import OpenShmem.LiveBlocks

/-! `ForceAtomicFetch`: the atomic fetch, set and swap of a `u32` or `u64` on any plain
value of that size. The size is all that is compared; the box gets its alignment from
the value's own type. -/
namespace OpenShmem

/-- The alignment the compiler gives a type. -/
class Aligned (T : Type) [Pod T] where
  align : Alignment
  divides : align.toNat ∣ Pod.size T
  fits : Pod.size T + (align.toNat - 1) ≤ isizeMax

/-- `Layout::new::<T>()`. -/
def Layout.of (T : Type) [Pod T] [Aligned T] : Layout := ⟨Pod.size T, Aligned.align T, Aligned.fits⟩

inductive Size where
  | size32
  | size64
  deriving DecidableEq, Repr

def Size.bytes : Size → Nat
  | .size32 => 4
  | .size64 => 8

/-- `u32` and `u64`. -/
abbrev Size.TreatAsA (s : Size) := BitVec (8 * s.bytes)

/-! ### Words as bytes -/

/-- The `n` low bytes of a number, from the lowest on. -/
def lowBytes : Nat → Nat → List UInt8
  | 0, _ => []
  | n + 1, x => UInt8.ofNat x :: lowBytes n (x / 256)

def byteDigits (bytes : List UInt8) : Nat := Nat.ofDigits 256 (bytes.map UInt8.toNat)

theorem lowBytes_length (n x : Nat) : (lowBytes n x).length = n := by
  induction n generalizing x with
  | zero => rfl
  | succ n ih => rw [lowBytes, List.length_cons, ih]

theorem byteDigits_cons (byte : UInt8) (rest : List UInt8) :
    byteDigits (byte :: rest) = byte.toNat + 256 * byteDigits rest := Nat.ofDigits_cons

theorem byteDigits_lt (bytes : List UInt8) : byteDigits bytes < 256 ^ bytes.length := by
  have bound : byteDigits bytes < 256 ^ (bytes.map UInt8.toNat).length := by
    refine Nat.ofDigits_lt_base_pow_length (by decide) ?_
    intro digit member
    obtain ⟨byte, _, rfl⟩ := List.mem_map.mp member
    exact byte.toNat_lt
  rwa [List.length_map] at bound

theorem byteDigits_lowBytes (n x : Nat) : byteDigits (lowBytes n x) = x % 256 ^ n := by
  induction n generalizing x with
  | zero => rw [Nat.pow_zero, Nat.mod_one]; rfl
  | succ n ih => rw [lowBytes, byteDigits_cons, ih, Nat.pow_succ', Nat.mod_mul]; rfl

theorem lowBytes_byteDigits (bytes : List UInt8) :
    lowBytes bytes.length (byteDigits bytes) = bytes := by
  induction bytes with
  | nil => rfl
  | cons byte rest ih =>
    have small := byte.toNat_lt
    have quotient : (byte.toNat + 256 * byteDigits rest) / 256 = byteDigits rest := by omega
    have lowest : UInt8.ofNat (byte.toNat + 256 * byteDigits rest) = byte := by
      apply UInt8.toNat_inj.mp
      rw [UInt8.toNat_ofNat']
      omega
    rw [byteDigits_cons, List.length_cons, lowBytes, quotient, lowest, ih]

theorem Size.words (s : Size) : 2 ^ (8 * s.bytes) = 256 ^ s.bytes := by
  rw [Nat.pow_mul]

instance (s : Size) : Pod s.TreatAsA where
  size := s.bytes
  size_le := by cases s <;> decide
  toBytes word := lowBytes s.bytes word.toNat
  ofBytes bytes := BitVec.ofNat _ (byteDigits bytes)
  length_toBytes word := lowBytes_length ..
  ofBytes_toBytes word := by
    rw [byteDigits_lowBytes, ← s.words, Nat.mod_eq_of_lt word.isLt, BitVec.ofNat_toNat,
      BitVec.setWidth_eq]
  toBytes_ofBytes bytes fit := by
    have small := byteDigits_lt bytes
    rw [fit, ← s.words] at small
    rw [BitVec.toNat_ofNat, Nat.mod_eq_of_lt small, ← fit, lowBytes_byteDigits]

instance (s : Size) : Aligned s.TreatAsA where
  align := ⟨s.bytes, by cases s <;> [exact ⟨2, rfl⟩; exact ⟨3, rfl⟩]⟩
  divides := Nat.dvd_refl _
  fits := by cases s <;> decide

/-! ### The wrapper -/

/-- `bytemuck::cast`. It panics for types of different sizes. -/
def cast {A B : Type} [Pod A] [Pod B] (_same : Pod.size A = Pod.size B) (a : A) : B :=
  Pod.ofBytes (Pod.toBytes a)

/-- `ForceAtomicFetch<T, S>`, with the comparison that is made when it is compiled. Its
layout is that of `T`. -/
structure ForceAtomicFetch (T : Type) [Pod T] (s : Size) where
  val : T
  size_matches : Pod.size T = s.bytes

section

variable {T : Type} [Pod T] {s : Size}

def forceAtomic32 (t : T) (size_matches : Pod.size T = 4) : ForceAtomicFetch T .size32 :=
  ⟨t, size_matches⟩

def forceAtomic64 (t : T) (size_matches : Pod.size T = 8) : ForceAtomicFetch T .size64 :=
  ⟨t, size_matches⟩

/-- A call of a routine, and what is made of the word it returns. -/
structure Returning (w : Nat) (α : Type) where
  call : AtomicCall w
  result : BitVec w → α

namespace ForceAtomicFetch

def layout [Aligned T] (_self : ForceAtomicFetch T s) : Layout := Layout.of T

def toWord (self : ForceAtomicFetch T s) : s.TreatAsA := cast self.size_matches self.val

def ofWord (size_matches : Pod.size T = s.bytes) (word : s.TreatAsA) : ForceAtomicFetch T s :=
  ⟨cast size_matches.symm word, size_matches⟩

/-! The three functions of `AtomicFetch`. The box is passed on as one of a `u32` or `u64`
at the same address. -/

def atomicFetch (size_matches : Pod.size T = s.bytes) (shbox : Nat) (pe : PE) :
    Returning (8 * s.bytes) (ForceAtomicFetch T s) :=
  ⟨OpenShmem.atomicFetch shbox pe, ofWord size_matches⟩

def atomicSet (shbox : Nat) (new : ForceAtomicFetch T s) (pe : PE) : Returning (8 * s.bytes) Unit :=
  ⟨OpenShmem.atomicSet shbox new.toWord pe, fun _ => ()⟩

def atomicSwap (shbox : Nat) (new : ForceAtomicFetch T s) (pe : PE) :
    Returning (8 * s.bytes) (ForceAtomicFetch T s) :=
  ⟨OpenShmem.atomicSwap shbox new.toWord pe, ofWord new.size_matches⟩

end ForceAtomicFetch

/-- The calls of a program on a box of a forced value, with their arguments. -/
inductive ForcedOp (T : Type) [Pod T] (s : Size) where
  | atomicFetch (size_matches : Pod.size T = s.bytes)
  | atomicSet (new : ForceAtomicFetch T s)
  | atomicSwap (new : ForceAtomicFetch T s)

def ForcedOp.call (shbox : Nat) (pe : PE) : ForcedOp T s → AtomicCall (8 * s.bytes)
  | .atomicFetch size_matches => (ForceAtomicFetch.atomicFetch size_matches shbox pe).call
  | .atomicSet new => (ForceAtomicFetch.atomicSet shbox new pe).call
  | .atomicSwap new => (ForceAtomicFetch.atomicSwap shbox new pe).call

/-- The word a routine works on is one of its type, inside the block of the box. -/
structure WordInside (heap : Heap) (box : NonNull) (call : AtomicCall (8 * s.bytes)) : Prop where
  aligned : s.bytes ∣ call.addr
  inside : ∃ cells, heap box.addr = some cells ∧ box.addr ≤ call.addr ∧
    call.addr + s.bytes ≤ box.addr + cells.length

/-- From any state on: a box is built for the value, and whatever else the allocator does
until the box is dropped, every operation through it is on a word inside. -/
def WordsInside [Aligned T] (fundamental : Alignment) (forced : ForceAtomicFetch T s) : Prop :=
  ∀ (state : History) (lib : Library), lib.Conforms fundamental state.heap →
    ∀ box heap, (Shmallocator.shbox lib forced.layout).run state.heap = (.ok box, heap) →
    ∀ events, ((History.machine fundamental).under (History.Spares box)).Admits
      (state.next (.shbox lib forced.layout)) events →
    ∀ (op : ForcedOp T s) (pe : PE), WordInside
      ((History.machine fundamental).after (state.next (.shbox lib forced.layout)) events).heap
      box (op.call box.addr pe)

/-! ### Values through words -/

@[simp] theorem cast_cast {A B : Type} [Pod A] [Pod B] (same : Pod.size A = Pod.size B) (a : A) :
    cast same.symm (cast same a : B) = a := by
  have fit : (Pod.toBytes a).length = Pod.size B := (Pod.length_toBytes a).trans same
  rw [cast, cast, Pod.toBytes_ofBytes _ fit, Pod.ofBytes_toBytes]

@[simp] theorem ForceAtomicFetch.ofWord_toWord (self : ForceAtomicFetch T s)
    (size_matches : Pod.size T = s.bytes) : ofWord size_matches self.toWord = self := by
  rw [ofWord, toWord, cast_cast]

/-! ### Where the word lies -/

theorem ForcedOp.call_addr (op : ForcedOp T s) (shbox : Nat) (pe : PE) :
    (op.call shbox pe).addr = shbox := by
  cases op <;> rfl

theorem Size.bytes_ne_zero (s : Size) : s.bytes ≠ 0 := by cases s <;> decide

/-- The word is inside any block of its size, and is aligned where the block is. -/
theorem wordInside_of_block {heap : Heap} {box : NonNull} {cells : List UInt8} (op : ForcedOp T s)
    (pe : PE) (live : heap box.addr = some cells) (length : cells.length = s.bytes)
    (aligned : s.bytes ∣ box.addr) : WordInside heap box (op.call box.addr pe) := by
  refine ⟨?_, cells, live, ?_, ?_⟩
  · rwa [op.call_addr]
  · rw [op.call_addr]
  · rw [op.call_addr, length]

variable [Aligned T]

/-- A box is built only over a fresh block of the layout of `T`. -/
theorem shbox_fresh {fundamental : Alignment} {heap after : Heap} {lib : Library} {box : NonNull}
    (forced : ForceAtomicFetch T s) (conforms : lib.Conforms fundamental heap)
    (built : (Shmallocator.shbox lib forced.layout).run heap = (.ok box, after)) :
    ∃ reply : Reply, reply.Fresh heap (Aligned.align T).toNat s.bytes ∧ reply.ptr = box ∧
      after = heap.allocate box.addr reply.cells := by
  have size : forced.layout.size = s.bytes := forced.size_matches
  have sized : forced.layout.size ≠ 0 := by rw [size]; exact s.bytes_ne_zero
  have allocated : Shmallocator.Allocated forced.layout.align.toNat forced.layout.size heap
      ((Shmallocator.allocate lib forced.layout).run heap) :=
    Shmallocator.allocate_allocated conforms
  rw [Shmallocator.shbox, Shmallocator.boxed_request sized] at built
  generalize (Shmallocator.allocate lib forced.layout).run heap = result at allocated built
  cases allocated with
  | refused => cases built
  | granted reply fresh =>
    cases built
    rw [size] at fresh
    exact ⟨reply, fresh, rfl, rfl⟩

/-- Until it is dropped, a box has its block of exactly the word's size, at an address of
the alignment of `T`. -/
theorem shbox_block {fundamental : Alignment} {state : History} {heap : Heap} {lib : Library}
    {box : NonNull} {events : List History.Event} (forced : ForceAtomicFetch T s)
    (conforms : lib.Conforms fundamental state.heap)
    (built : (Shmallocator.shbox lib forced.layout).run state.heap = (.ok box, heap))
    (run : ((History.machine fundamental).under (History.Spares box)).Admits
      (state.next (.shbox lib forced.layout)) events) :
    (Aligned.align T).toNat ∣ box.addr ∧ ∃ cells, cells.length = s.bytes ∧
      ((History.machine fundamental).after (state.next (.shbox lib forced.layout)) events).heap
        box.addr = some cells := by
  obtain ⟨reply, fresh, rfl, rfl⟩ := shbox_fresh forced conforms built
  have nonempty : reply.cells.length ≠ 0 := by rw [fresh.length]; exact s.bytes_ne_zero
  have live : (state.next (.shbox lib forced.layout)).heap reply.ptr.addr = some reply.cells := by
    simp only [History.next, History.built_heap, built]
    exact Blocks.allocate_self
  exact ⟨fresh.aligned, reply.cells, fresh.length, History.spares_run nonempty live run⟩

/-- A library which puts a block at the first address of the alignment it is asked for. -/
def leastPlace (align : Alignment) : Library
  | .align alignment size =>
    if alignment = align.toNat then some ⟨.dangling align, List.replicate size 0⟩ else none
  | _ => none

theorem leastPlace_conforms (fundamental align : Alignment) {heap : Heap}
    (free : ∀ size, heap.Free align.toNat size) : (leastPlace align).Conforms fundamental heap := by
  intro request reply answered
  unfold leastPlace at answered
  split at answered
  · split at answered
    next same =>
      cases answered
      exact ⟨same ▸ Nat.dvd_refl _, List.length_replicate .., free _⟩
    next => cases answered
  · cases answered

theorem leastPlace_shbox (forced : ForceAtomicFetch T s) :
    (Shmallocator.shbox (leastPlace (Aligned.align T)) forced.layout).run Blocks.empty =
      (.ok (.dangling (Aligned.align T)), Blocks.empty.allocate (Aligned.align T).toNat
        (List.replicate s.bytes 0)) := by
  have size : forced.layout.size = s.bytes := forced.size_matches
  have sized : forced.layout.size ≠ 0 := by rw [size]; exact s.bytes_ne_zero
  have found : leastPlace (Aligned.align T) (.align forced.layout.align.toNat forced.layout.size) =
      some ⟨.dangling (Aligned.align T), List.replicate forced.layout.size 0⟩ := if_pos rfl
  rw [Shmallocator.shbox, Shmallocator.boxed_request sized, Shmallocator.allocate, shmemAlign,
    Shmallocator.answer_run, found, size]
  rfl

/-- A type of a smaller alignment has a box in the wrong place. -/
theorem align_eq_of_wordsInside {fundamental : Alignment} {forced : ForceAtomicFetch T s}
    (inside : WordsInside fundamental forced) : (Aligned.align T).toNat = s.bytes := by
  have word := inside (History.start Blocks.empty) (leastPlace (Aligned.align T))
    (leastPlace_conforms _ _ fun _ => Blocks.free_empty) _ _ (leastPlace_shbox forced) [] trivial
    (.atomicFetch forced.size_matches) ⟨0⟩
  have upper : s.bytes ∣ (Aligned.align T).toNat := word.aligned
  have lower : (Aligned.align T).toNat ∣ s.bytes := by
    rw [← forced.size_matches]
    exact Aligned.divides
  exact Nat.dvd_antisymm lower upper

/-- Every operation on every box of `T` is on an aligned word inside the box's own block
exactly where the alignment of `T` is that of the word. -/
theorem wordsInside_iff (fundamental : Alignment) (forced : ForceAtomicFetch T s) :
    WordsInside fundamental forced ↔ (Aligned.align T).toNat = s.bytes := by
  constructor
  · intro inside
    exact align_eq_of_wordsInside inside
  · intro same state lib conforms box heap built events run op pe
    obtain ⟨aligned, cells, length, live⟩ := shbox_block forced conforms built run
    rw [same] at aligned
    exact wordInside_of_block op pe live length aligned

/-- A `u64` itself is where it has to be. -/
theorem wordsInside_word : WordsInside ⟨16, 4, rfl⟩ (forceAtomic64 (7 : Size.TreatAsA .size64) rfl) :=
  (wordsInside_iff _ _).mpr rfl

end

/-! ### Four bytes -/

instance : Pod (Vector UInt8 4) where
  size := 4
  size_le := by decide
  toBytes bytes := bytes.toList
  ofBytes bytes := ⟨(bytes.takeD 4 0).toArray, List.takeD_length ..⟩
  length_toBytes bytes := Vector.length_toList
  ofBytes_toBytes bytes := by
    have unpadded : bytes.toList.takeD 4 0 = bytes.toList := by
      rw [List.takeD_eq_take _ (Nat.le_of_eq Vector.length_toList.symm),
        List.take_of_length_le (Nat.le_of_eq Vector.length_toList)]
    apply Vector.toList_inj.mp
    exact unpadded
  toBytes_ofBytes bytes fit :=
    (List.takeD_eq_take _ (Nat.le_of_eq fit.symm)).trans (List.take_of_length_le (Nat.le_of_eq fit))

theorem one_power : ∃ k, 1 = 2^k := ⟨0, rfl⟩

instance : Aligned (Vector UInt8 4) where
  align := ⟨1, one_power⟩
  divides := by decide
  fits := by decide

/-- `[u8; 4]` is as large as a `u32`, but may lie anywhere. -/
theorem bytes_misaligned :
    ¬ ∀ (T : Type) [Pod T] [Aligned T] (s : Size) (forced : ForceAtomicFetch T s),
      WordsInside ⟨16, 4, rfl⟩ forced := by
  intro inside
  have aligned := align_eq_of_wordsInside (inside (Vector UInt8 4) .size32
    (forceAtomic32 #v[0, 0, 0, 0] rfl))
  exact absurd aligned (by decide)

end OpenShmem
