import Mathlib.Data.Nat.Prime.Basic
import OpenShmem.Blocks
import OpenShmem.Range

/-! `Shmallocator` as an allocator: its methods over the four routines of the library
which manage the symmetric heap. A null pointer is all these report on failure. -/
namespace OpenShmem

structure Alignment where
  toNat : Nat
  power : ∃ k, toNat = 2^k

theorem Alignment.dvd_iff (a b : Alignment) : a.toNat ∣ b.toNat ↔ a.toNat ≤ b.toNat := by
  obtain ⟨j, first⟩ := a.power
  obtain ⟨k, second⟩ := b.power
  rw [first, second, Nat.pow_dvd_pow_iff_le_right (by decide),
    Nat.pow_le_pow_iff_right (by decide)]

theorem Alignment.pos (a : Alignment) : a.toNat ≠ 0 := by
  obtain ⟨k, power⟩ := a.power
  rw [power]
  exact pow_ne_zero k (by decide)

/-- The size is still an `isize` when it is rounded up to the alignment. -/
structure Layout where
  size : Nat
  align : Alignment
  fits : size + (align.toNat - 1) ≤ isizeMax

@[ext] structure NonNull where
  addr : Nat
  nonnull : addr ≠ 0

def NonNull.new (ptr : Nat) : Option NonNull := if h : ptr ≠ 0 then some ⟨ptr, h⟩ else none

@[simp] theorem NonNull.new_addr (ptr : NonNull) : NonNull.new ptr.addr = some ptr :=
  dif_pos ptr.nonnull

/-- `NonNull<[u8]>`. -/
structure NonNullSlice where
  ptr : NonNull
  len : Nat

structure AllocError where

abbrev Heap := Blocks UInt8

/-! ### The library -/

inductive Request where
  | align (alignment size : Nat)
  | calloc (count size : Nat)
  | realloc (ptr : NonNull) (size : Nat)

/-- The block a request is answered with. -/
structure Reply where
  ptr : NonNull
  cells : List UInt8

/-- What the library decides about a request which it could refuse. -/
abbrev Library := Request → Option Reply

structure Reply.Fresh (heap : Heap) (alignment size : Nat) (reply : Reply) : Prop where
  aligned : alignment ∣ reply.ptr.addr
  length : reply.cells.length = size
  free : heap.Free reply.ptr.addr size

/-- A fresh block is not at the address of a live one. -/
theorem Reply.Fresh.elsewhere {heap : Heap} {alignment size p : Nat} {reply : Reply}
    {cells : List UInt8} (fresh : reply.Fresh heap alignment size) (sized : size ≠ 0)
    (live : heap p = some cells) (nonempty : cells.length ≠ 0) : p ≠ reply.ptr.addr := by
  rintro rfl
  have apart := fresh.free _ cells live
  rw [Blocks.Apart] at apart
  omega

/-- The specification of the three routines. Only `shmem_align` takes an alignment; the
others keep to the fundamental one. -/
def Reply.Answers (fundamental : Alignment) (heap : Heap) (reply : Reply) : Request → Prop
  | .align alignment size => reply.Fresh heap alignment size
  | .calloc count size => reply.Fresh heap fundamental.toNat (count * size) ∧
    ∀ cell ∈ reply.cells, cell = 0
  | .realloc ptr size => reply.Fresh (heap.release ptr.addr) fundamental.toNat size ∧
    ∀ cells, heap ptr.addr = some cells →
      reply.cells.take (min cells.length size) = cells.take (min cells.length size)

def Library.Conforms (fundamental : Alignment) (heap : Heap) (lib : Library) : Prop :=
  ∀ request reply, lib request = some reply → reply.Answers fundamental heap request

section

variable (lib : Library)

def answer (reply : Option Reply) : StateM Heap Nat := fun heap =>
  match reply with
  | none => (0, heap)
  | some reply => (reply.ptr.addr, heap.allocate reply.ptr.addr reply.cells)

def shmemAlign (alignment size : Nat) : StateM Heap Nat := answer (lib (.align alignment size))

def shmemCalloc (count size : Nat) : StateM Heap Nat := answer (lib (.calloc count size))

/-- With size 0 the block is freed. When a request is refused it stays as it is. -/
def shmemRealloc (ptr : NonNull) (size : Nat) : StateM Heap Nat := fun heap =>
  if size = 0 then (0, heap.release ptr.addr)
  else match lib (.realloc ptr size) with
    | none => (0, heap)
    | some reply => answer (some reply) (heap.release ptr.addr)

def shmemFree (ptr : NonNull) : StateM Heap Unit := modify (·.release ptr.addr)

/-! ### The allocator -/

/-- `NonNull::new(ptr).ok_or(AllocError)` as a slice of `size` bytes. -/
def sliceFromRaw (ptr size : Nat) : Except AllocError NonNullSlice :=
  match NonNull.new ptr with
  | some ptr => .ok ⟨ptr, size⟩
  | none => .error ⟨⟩

namespace Shmallocator

def allocate (layout : Layout) : StateM Heap (Except AllocError NonNullSlice) := do
  let ptr ← shmemAlign lib layout.align.toNat layout.size
  return sliceFromRaw ptr layout.size

def deallocate (ptr : NonNull) (_layout : Layout) : StateM Heap Unit := shmemFree ptr

def grow (ptr : NonNull) (_oldLayout newLayout : Layout) :
    StateM Heap (Except AllocError NonNullSlice) := do
  let ptr ← shmemRealloc lib ptr newLayout.size
  return sliceFromRaw ptr newLayout.size

def shrink (ptr : NonNull) (oldLayout newLayout : Layout) :
    StateM Heap (Except AllocError NonNullSlice) := grow lib ptr oldLayout newLayout

def allocateZeroed (layout : Layout) : StateM Heap (Except AllocError NonNullSlice) := do
  let ptr ← shmemCalloc lib 1 layout.size
  return sliceFromRaw ptr layout.size

end Shmallocator

end

/-! ### What each method comes to -/
namespace Shmallocator

variable {fundamental : Alignment} {lib : Library} {heap : Heap} {ptr : NonNull}
  {layout old new : Layout}

@[simp] theorem sliceFromRaw_addr (ptr : NonNull) (size : Nat) :
    sliceFromRaw ptr.addr size = .ok ⟨ptr, size⟩ := by
  rw [sliceFromRaw, NonNull.new_addr]

/-- The slice made of the library's answer. -/
theorem answer_run (reply : Option Reply) (size : Nat) (heap : Heap) :
    (do
      let ptr ← answer reply
      return sliceFromRaw ptr size : StateM Heap (Except AllocError NonNullSlice)).run heap =
      match reply with
      | none => (.error ⟨⟩, heap)
      | some reply => (.ok ⟨reply.ptr, size⟩, heap.allocate reply.ptr.addr reply.cells) := by
  cases reply with
  | none => rfl
  | some reply =>
    change (sliceFromRaw reply.ptr.addr size, _) = _
    rw [sliceFromRaw_addr]

/-- A request for a new block is refused, or answered at a free and aligned place. -/
inductive Allocated (alignment size : Nat) (heap : Heap) : Except AllocError NonNullSlice × Heap → Prop
  | refused : Allocated alignment size heap (.error ⟨⟩, heap)
  | granted (reply : Reply) (fresh : reply.Fresh heap alignment size) :
    Allocated alignment size heap
      (.ok ⟨reply.ptr, size⟩, heap.allocate reply.ptr.addr reply.cells)

theorem allocate_allocated (conforms : lib.Conforms fundamental heap) :
    Allocated layout.align.toNat layout.size heap ((allocate lib layout).run heap) := by
  rw [allocate, shmemAlign, answer_run]
  cases answered : lib (.align layout.align.toNat layout.size) with
  | none => exact .refused
  | some reply => exact .granted reply (conforms _ reply answered)

theorem allocateZeroed_allocated (conforms : lib.Conforms fundamental heap) :
    Allocated fundamental.toNat layout.size heap ((allocateZeroed lib layout).run heap) := by
  rw [allocateZeroed, shmemCalloc, answer_run]
  cases answered : lib (.calloc 1 layout.size) with
  | none => exact .refused
  | some reply =>
    have fresh : reply.Fresh heap fundamental.toNat (1 * layout.size) :=
      (conforms _ reply answered).1
    rw [Nat.one_mul] at fresh
    exact .granted reply fresh

/-- No live block is touched by a request for a new one. -/
theorem Allocated.stays {alignment size p : Nat} {cells : List UInt8}
    {result : Except AllocError NonNullSlice × Heap}
    (allocated : Allocated alignment size heap result) (sized : size ≠ 0)
    (live : heap p = some cells) (nonempty : cells.length ≠ 0) : result.2 p = some cells := by
  cases allocated with
  | refused => exact live
  | granted reply fresh =>
    exact (Blocks.allocate_other (fresh.elsewhere sized live nonempty)).trans live

/-- A null pointer for size 0 means that the block is gone, and for any other size
that nothing has happened. -/
theorem grow_zero (zero : new.size = 0) :
    (grow lib ptr old new).run heap = (.error ⟨⟩, heap.release ptr.addr) := by
  have freed : shmemRealloc lib ptr new.size heap = (0, heap.release ptr.addr) := if_pos zero
  exact congrArg (fun r : Nat × Heap => (sliceFromRaw r.1 new.size, r.2)) freed

/-- A block is left as it is, or replaced by one which starts with its bytes. -/
inductive Resized (fundamental : Alignment) (ptr : NonNull) (size : Nat) (heap : Heap) :
    Except AllocError NonNullSlice × Heap → Prop
  | refused : Resized fundamental ptr size heap (.error ⟨⟩, heap)
  | granted (reply : Reply) (answers : reply.Answers fundamental heap (.realloc ptr size)) :
    Resized fundamental ptr size heap
      (.ok ⟨reply.ptr, size⟩, (heap.release ptr.addr).allocate reply.ptr.addr reply.cells)

/-- A resize touches no live block but its own. -/
theorem Resized.stays {size p : Nat} {cells : List UInt8}
    {result : Except AllocError NonNullSlice × Heap}
    (resized : Resized fundamental ptr size heap result) (sized : size ≠ 0)
    (other : ptr.addr ≠ p) (live : heap p = some cells) (nonempty : cells.length ≠ 0) :
    result.2 p = some cells := by
  cases resized with
  | refused => exact live
  | granted reply answers =>
    have kept : heap.release ptr.addr p = some cells := (Blocks.release_other other.symm).trans live
    exact (Blocks.allocate_other (answers.1.elsewhere sized kept nonempty)).trans kept

theorem grow_resized (conforms : lib.Conforms fundamental heap) (nonzero : new.size ≠ 0) :
    Resized fundamental ptr new.size heap ((grow lib ptr old new).run heap) := by
  cases answered : lib (.realloc ptr new.size) with
  | none =>
    have kept : shmemRealloc lib ptr new.size heap = (0, heap) := by
      simp [shmemRealloc, nonzero, answered]
    have refused : (grow lib ptr old new).run heap = (.error ⟨⟩, heap) :=
      congrArg (fun r : Nat × Heap => (sliceFromRaw r.1 new.size, r.2)) kept
    rw [refused]
    exact .refused
  | some reply =>
    have moved : shmemRealloc lib ptr new.size heap =
        answer (some reply) (heap.release ptr.addr) := by
      simp [shmemRealloc, nonzero, answered]
    have granted : (grow lib ptr old new).run heap = _ :=
      (congrArg (fun r : Nat × Heap => (sliceFromRaw r.1 new.size, r.2)) moved).trans
        (answer_run (some reply) new.size (heap.release ptr.addr))
    rw [granted]
    exact .granted reply (conforms _ reply answered)

end Shmallocator

/-! ### Failed requests -/

inductive Resize where
  | grow
  | shrink
  deriving DecidableEq, Repr

def Resize.run : Resize → Library → NonNull → Layout → Layout →
    StateM Heap (Except AllocError NonNullSlice)
  | .grow => Shmallocator.grow
  | .shrink => Shmallocator.shrink

/-- What `Allocator` asks of a resize: an error leaves the old block alone, and a new
block starts with the old contents and replaces it. -/
def Keeps (heap : Heap) (ptr : NonNull) (old new : Layout) :
    Except AllocError NonNullSlice × Heap → Prop
  | (.error _, after) => after ptr.addr = heap ptr.addr
  | (.ok slice, after) =>
    (∃ cells cells', heap ptr.addr = some cells ∧ after slice.ptr.addr = some cells' ∧
      cells'.take (min old.size new.size) = cells.take (min old.size new.size)) ∧
    (slice.ptr ≠ ptr → after ptr.addr = none)

section

variable {fundamental : Alignment} {heap : Heap} {ptr : NonNull} {old new : Layout}

theorem resize_eq_grow (method : Resize) : method.run = Shmallocator.grow := by
  cases method <;> rfl

theorem Shmallocator.Resized.keeps {cells : List UInt8} {result : Except AllocError NonNullSlice × Heap}
    (resized : Shmallocator.Resized fundamental ptr new.size heap result)
    (live : heap ptr.addr = some cells) (fit : cells.length = old.size) :
    Keeps heap ptr old new result := by
  cases resized with
  | refused => rfl
  | granted reply answers =>
    refine ⟨⟨cells, reply.cells, live, Blocks.allocate_self, ?_⟩, ?_⟩
    · have same := answers.2 cells live
      rwa [fit] at same
    · intro moved
      have different : ptr.addr ≠ reply.ptr.addr := fun same => moved (NonNull.ext same.symm)
      rw [Blocks.allocate_other different, Blocks.release_self]

end

open Shmallocator in
/-- Resizing a live block keeps the contract of `Allocator`, whatever the library
answers, except to size 0. There the block is freed and the error says it was not. -/
theorem resize_keeps_iff (fundamental : Alignment) (method : Resize) (heap : Heap)
    (ptr : NonNull) (old new : Layout) {cells : List UInt8}
    (live : heap ptr.addr = some cells) (fit : cells.length = old.size) :
    (∀ lib : Library, lib.Conforms fundamental heap →
      Keeps heap ptr old new ((method.run lib ptr old new).run heap)) ↔ new.size ≠ 0 := by
  rw [resize_eq_grow]
  constructor
  · intro keeps zero
    have refuses : Library.Conforms fundamental heap fun _ => none := by
      intro request reply answered
      cases answered
    have kept := keeps _ refuses
    rw [grow_zero zero] at kept
    have gone : heap.release ptr.addr ptr.addr = heap ptr.addr := kept
    rw [Blocks.release_self, live] at gone
    cases gone
  · intro nonzero lib conforms
    exact (grow_resized conforms nonzero).keeps live fit

def bytes (size : Nat) (fits : size + (1 - 1) ≤ isizeMax) : Layout := ⟨size, ⟨1, 0, rfl⟩, fits⟩

/-- A heap with a block of four bytes. -/
def fourBytes (ptr : NonNull) : Heap := Blocks.empty.allocate ptr.addr [1, 2, 3, 4]

theorem only_four {ptr : NonNull} {q : Nat} {cells : List UInt8}
    (live : fourBytes ptr q = some cells) : q = ptr.addr ∧ cells = [1, 2, 3, 4] := by
  rcases Blocks.live_of_allocate live with only | ⟨_, none⟩
  · exact only
  · cases none

/-- A library which moves that block when it is to have eight bytes. -/
def movesTo (place : NonNull) : Library
  | .realloc _ 8 => some ⟨place, [1, 2, 3, 4, 0, 0, 0, 0]⟩
  | _ => none

theorem movesTo_conforms :
    (movesTo ⟨128, by decide⟩).Conforms ⟨16, 4, rfl⟩ (fourBytes ⟨64, by decide⟩) := by
  intro request reply answered
  unfold movesTo at answered
  split at answered
  · cases answered
    refine ⟨⟨by decide, rfl, ?_⟩, ?_⟩
    · intro q cells live
      obtain ⟨rfl, rfl⟩ := only_four (Blocks.live_of_release live)
      exact .inr (by decide)
    · intro cells live
      obtain ⟨_, rfl⟩ := only_four live
      rfl
  · cases answered

theorem grow_keeps_four :
    Keeps (fourBytes ⟨64, by decide⟩) ⟨64, by decide⟩ (bytes 4 (by decide)) (bytes 8 (by decide))
      ((Resize.grow.run (movesTo ⟨128, by decide⟩) ⟨64, by decide⟩ (bytes 4 (by decide))
        (bytes 8 (by decide))).run (fourBytes ⟨64, by decide⟩)) :=
  (resize_keeps_iff ⟨16, 4, rfl⟩ .grow _ _ _ _ Blocks.allocate_self rfl).mpr (by decide) _
    movesTo_conforms

/-- Shrinking to nothing reports an error for a block which is gone. -/
theorem shrink_frees :
    ¬ ∀ lib : Library, lib.Conforms ⟨16, 4, rfl⟩ (fourBytes ⟨64, by decide⟩) →
      Keeps (fourBytes ⟨64, by decide⟩) ⟨64, by decide⟩ (bytes 4 (by decide)) (bytes 0 (by decide))
        ((Resize.shrink.run lib ⟨64, by decide⟩ (bytes 4 (by decide))
          (bytes 0 (by decide))).run (fourBytes ⟨64, by decide⟩)) := by
  intro keeps
  have kept := keeps (fun _ => none) fun _ _ answered => by cases answered
  rw [resize_eq_grow, Shmallocator.grow_zero rfl] at kept
  have gone : Blocks.release _ 64 64 = fourBytes ⟨64, by decide⟩ 64 := kept
  rw [Blocks.release_self, fourBytes, Blocks.allocate_self] at gone
  cases gone

end OpenShmem
