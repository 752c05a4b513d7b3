import OpenShmem.World

/-! The remote-memory methods of `PEReference` and the view `write` opens, each
written as the source writes it, down to the repeated `end - start + 1`. -/
namespace OpenShmem

open Overlay

variable {P : Nat} {T : Type} [Pod T]

/-- The byte address of an element of a symmetric array. -/
def Shbox.offset (shbox : Shbox T) (start : Usize) : Nat :=
  shbox.addr + start.toNat * Pod.size T

/-- A view into an array on a remote PE. -/
structure MutableArrayView (P : Nat) (T : Type) [Pod T] where
  into : Shbox T
  range : RangeBounds
  on : Fin P
  buf : Slice T

structure PendingNbiOp (T : Type) where
  inner : Nat
  deriving DecidableEq, Repr

/-- The box knows its length: `inner` is a fat pointer. -/
structure PendingNbiSliceOp (T : Type) where
  inner : Nat
  len : Usize
  deriving DecidableEq, Repr

namespace PEReference

variable (build : Build) (self : PEReference P)

def write (shbox : Shbox T) (range : RangeBounds) : Shmem P (MutableArrayView P T) := do
  let (_, bufferSize) ← attempt (resolve build range shbox.len)
  let buf ← newUninitSlice T bufferSize
  return { into := shbox, range, on := self.target, buf }

def writeFrom (shbox : Shbox T) (data : Slice T) : Shmem P Unit := do
  if data.len.toNat > shbox.len.toNat then
    attempt (.error .tooMuchData)
  let nbytes ← attempt (usizeMul build (sizeOf T) data.len)
  shmemPutmem shbox.addr (data.memory (← world).garbage) nbytes.toNat
    (data.elems.length * Pod.size T) self.target

def read (shbox : Shbox T) (range : RangeBounds) : Shmem P (Slice T) := do
  let (start, bufferSize) ← attempt (resolve build range shbox.len)
  let buffer ← newUninitSlice T bufferSize
  let nbytes ← attempt (usizeMul build bufferSize (sizeOf T))
  let bytes ← shmemGetmem (shbox.offset start) nbytes.toNat (buffer.elems.length * Pod.size T)
    self.target
  return buffer.receive bytes

/-- Alias to `read`. -/
def get (shbox : Shbox T) (range : RangeBounds) : Shmem P (Slice T) :=
  self.read build shbox range

/-- Returns the caller's buffer as the call leaves it. -/
def readInto (shbox : Shbox T) (range : RangeBounds) (into : Slice T) : Shmem P (Slice T) := do
  let (start, bufferSize) ← attempt (resolve build range shbox.len)
  if into.len.toNat < bufferSize.toNat then
    attempt (.error .bufferTooSmall)
  let nbytes ← attempt (usizeMul build bufferSize (sizeOf T))
  let bytes ← shmemGetmem (shbox.offset start) nbytes.toNat (into.elems.length * Pod.size T)
    self.target
  return into.receive bytes

def readNbi (shbox : Shbox T) (range : RangeBounds) : Shmem P (PendingNbiSliceOp T) := do
  let (start, bufferSize) ← attempt (resolve build range shbox.len)
  let buffer ← newUninitBlock T .nbiSliceOp bufferSize
  let nbytes ← attempt (usizeMul build bufferSize (sizeOf T))
  shmemGetmemNbi buffer (shbox.offset start) nbytes.toNat (bufferSize.toNat * Pod.size T)
    self.target
  return ⟨buffer, bufferSize⟩

def getSingleNbi (shbox : Shbox T) (idx : Usize) : Shmem P (PendingNbiOp T) := do
  if ¬ idx.toNat < shbox.len.toNat then
    attempt (.error (.indexOutOfBounds shbox.len.toNat idx.toNat))
  let buffer ← newUninitBlock T .nbiOp 1
  shmemGetmemNbi buffer (shbox.offset idx) (Pod.size T) (Pod.size T) self.target
  return ⟨buffer⟩

end PEReference

namespace MutableArrayView

variable (build : Build) (view : MutableArrayView P T)

/-- What the caller stores through `DerefMut`. -/
def assign (values : Nat → Option T) : MutableArrayView P T :=
  { view with buf := view.buf.assign values }

/-- The range is resolved again, now against the view's own buffer. -/
def drop : Shmem P Unit := do
  let (start, count) ← attempt (resolve build view.range view.buf.len)
  let nbytes ← attempt (usizeMul build (sizeOf T) count)
  shmemPutmem (view.into.offset start) (view.buf.memory (← world).garbage) nbytes.toNat
    (view.buf.elems.length * Pod.size T) view.on

def finish : Shmem P Unit := view.drop build

end MutableArrayView

/-! ### What each method comes to once its range is resolved -/

variable {build : Build} {self : PEReference P} {shbox : Shbox T} {range : RangeBounds}
  {start count : Usize} {w : World P}

/-- The call log entry of a transfer of `nbytes` bytes at an element of `shbox`. -/
def transferCall (routine : Routine) (pe : Fin P) (shbox : Shbox T) (start : Usize)
    (nbytes bufferBytes : Nat) (dest : Option Nat) : Call P :=
  ⟨routine, pe, shbox.offset start, nbytes, bufferBytes, dest⟩

/-- `buffer_size * size_of::<T>()`, once the elements are known to fit. -/
theorem nbytes_ok (build : Build) {α : Type} {next : Usize → Shmem P α}
    (fits : count.toNat * Pod.size T ≤ isizeMax) :
    ∃ nbytes : Usize, nbytes.toNat = count.toNat * Pod.size T ∧
      (attempt (usizeMul build count (sizeOf T)) >>= next).run w = (next nbytes).run w := by
  obtain ⟨product, value⟩ := usizeMul_layout build (x := count) (y := sizeOf T)
    (by simpa using fits)
  rw [sizeOf_toNat] at value
  exact ⟨_, value, by rw [product, bind_ok (run_attempt_ok _ w)]⟩

theorem nbytes_swap : usizeMul build (sizeOf T) count = usizeMul build count (sizeOf T) := by
  simp only [usizeMul, BitVec.mul_comm, Nat.mul_comm]

namespace PEReference

variable (self)

theorem read_resolved (accepted : resolve build range shbox.len = .ok (start, count))
    (fits : count.toNat * Pod.size T ≤ isizeMax) :
    ∃ s : Slice T, (self.read build shbox range).run w = .ok s { w with
        calls := w.calls ++ [transferCall .getmem self.target shbox start
          (count.toNat * Pod.size T) (count.toNat * Pod.size T) none] } ∧
      s.elems = elements T (w.mem self.target) (shbox.offset start) count.toNat := by
  obtain ⟨buffer, alloc, length, _⟩ := newUninitSlice_fits (T := T) (w := w) fits
  refine ⟨buffer.receive (window (w.mem self.target) (shbox.offset start)
    (count.toNat * Pod.size T)), ?_, ?_⟩
  · rw [PEReference.read, accepted, bind_ok (run_attempt_ok _ w), bind_ok alloc]
    obtain ⟨nbytes, value, step⟩ := nbytes_ok build (w := w) fits
    rw [step, value, length]
    rfl
  · rw [← length, buffer.receive_window, length]

theorem read_rejected (never : ∀ start count, resolve build range shbox.len = .ok (start, count) →
    ¬ count.toNat * Pod.size T ≤ isizeMax) :
    ∃ p, (self.read build shbox range).run w = .panic p w := by
  rw [PEReference.read]
  cases accepted : resolve build range shbox.len with
  | error p => exact ⟨p, bind_panic (run_attempt_error p w)⟩
  | ok pair =>
    rw [bind_ok (run_attempt_ok _ w), bind_panic (newUninitSlice_overflows (never _ _ accepted))]
    exact ⟨_, rfl⟩

theorem readInto_resolved {into : Slice T}
    (accepted : resolve build range shbox.len = .ok (start, count))
    (room : count.toNat ≤ into.elems.length) :
    (self.readInto build shbox range into).run w =
      .ok (into.receive (window (w.mem self.target) (shbox.offset start)
        (count.toNat * Pod.size T))) { w with
        calls := w.calls ++ [transferCall .getmem self.target shbox start
          (count.toNat * Pod.size T) (into.elems.length * Pod.size T) none] } := by
  have fits : count.toNat * Pod.size T ≤ isizeMax :=
    Nat.le_trans (Nat.mul_le_mul_right _ room) into.layout
  rw [readInto, accepted, bind_ok (run_attempt_ok _ w)]
  simp only [Slice.len_toNat, Nat.not_lt.mpr room, if_false]
  obtain ⟨nbytes, value, step⟩ := nbytes_ok build (w := w) fits
  rw [step, value]
  rfl

theorem readInto_rejected {into : Slice T}
    (never : ∀ start count, resolve build range shbox.len = .ok (start, count) →
      ¬ count.toNat ≤ into.elems.length) :
    ∃ p, (self.readInto build shbox range into).run w = .panic p w := by
  rw [readInto]
  cases accepted : resolve build range shbox.len with
  | error p => exact ⟨p, bind_panic (run_attempt_error p w)⟩
  | ok pair =>
    have short := never _ _ accepted
    rw [bind_ok (run_attempt_ok _ w)]
    simp only [Slice.len_toNat, Nat.lt_of_not_le short, if_true]
    exact ⟨.bufferTooSmall, rfl⟩

/-- The world after a non-blocking get into a fresh block. -/
def requested (w : World P) (owner : Owner) (pe : Fin P) (remote nbytes : Nat) : World P :=
  { w with
    heap := w.heap ++ [⟨window w.garbage 0 nbytes, some owner, 0⟩]
    gets := w.gets ++ [⟨w.heap.length, pe, remote, nbytes⟩]
    calls := w.calls ++ [⟨.getmemNbi, pe, remote, nbytes, nbytes, some w.heap.length⟩] }

theorem readNbi_resolved (accepted : resolve build range shbox.len = .ok (start, count))
    (fits : count.toNat * Pod.size T ≤ isizeMax) :
    (self.readNbi build shbox range : Shmem P (PendingNbiSliceOp T)).run w =
      .ok ⟨w.heap.length, count⟩ (requested w .nbiSliceOp self.target (shbox.offset start)
        (count.toNat * Pod.size T)) := by
  rw [readNbi, accepted, bind_ok (run_attempt_ok _ w), bind_ok (newUninitBlock_fits fits)]
  obtain ⟨nbytes, value, step⟩ := nbytes_ok build fits
  rw [step, value]
  rfl

theorem readNbi_rejected
    (never : ∀ start count, resolve build range shbox.len = .ok (start, count) →
      ¬ count.toNat * Pod.size T ≤ isizeMax) :
    ∃ p, (self.readNbi build shbox range : Shmem P (PendingNbiSliceOp T)).run w = .panic p w := by
  rw [readNbi]
  cases accepted : resolve build range shbox.len with
  | error p => exact ⟨p, bind_panic (run_attempt_error p w)⟩
  | ok pair =>
    rw [bind_ok (run_attempt_ok _ w), bind_panic (newUninitBlock_overflows (never _ _ accepted))]
    exact ⟨_, rfl⟩

theorem getSingleNbi_resolved {idx : Usize} (inside : idx.toNat < shbox.len.toNat) :
    (self.getSingleNbi shbox idx : Shmem P (PendingNbiOp T)).run w =
      .ok ⟨w.heap.length⟩ (requested w .nbiOp self.target (shbox.offset idx) (Pod.size T)) := by
  have one : (1 : Usize).toNat * Pod.size T = Pod.size T := by simp
  have fits : (1 : Usize).toNat * Pod.size T ≤ isizeMax := by
    rw [one]
    exact Pod.size_le
  rw [getSingleNbi]
  simp only [inside, not_true, if_false]
  rw [bind_ok (newUninitBlock_fits fits), one]
  rfl

theorem getSingleNbi_rejected {idx : Usize} (outside : ¬ idx.toNat < shbox.len.toNat) :
    (self.getSingleNbi shbox idx : Shmem P (PendingNbiOp T)).run w =
      .panic (.indexOutOfBounds shbox.len.toNat idx.toNat) w := by
  rw [getSingleNbi]
  simp only [outside, not_false_eq_true, if_true]
  rfl

theorem write_resolved (accepted : resolve build range shbox.len = .ok (start, count))
    (fits : count.toNat * Pod.size T ≤ isizeMax) :
    ∃ buf : Slice T, (self.write build shbox range).run w =
        .ok ⟨shbox, range, self.target, buf⟩ w ∧
      buf.elems.length = count.toNat ∧ buf.elems = elements T w.garbage 0 count.toNat := by
  obtain ⟨buf, alloc, length, fresh⟩ := newUninitSlice_fits (T := T) (w := w) fits
  refine ⟨buf, ?_, length, fresh⟩
  rw [PEReference.write, accepted, bind_ok (run_attempt_ok _ w), bind_ok alloc]
  rfl

theorem write_rejected (never : ∀ start count, resolve build range shbox.len = .ok (start, count) →
    ¬ count.toNat * Pod.size T ≤ isizeMax) :
    ∃ p, (self.write build shbox range).run w = .panic p w := by
  rw [PEReference.write]
  cases accepted : resolve build range shbox.len with
  | error p => exact ⟨p, bind_panic (run_attempt_error p w)⟩
  | ok pair =>
    rw [bind_ok (run_attempt_ok _ w), bind_panic (newUninitSlice_overflows (never _ _ accepted))]
    exact ⟨_, rfl⟩

end PEReference

/-- A put the library has accepted: its bytes are those of the source at the call. -/
def World.sent (w : World P) (shbox : Shbox T) (start : Usize) (source : Slice T) (nbytes : Nat)
    (pe : Fin P) : World P :=
  { w with
    puts := w.puts ++ [⟨pe, shbox.offset start, window (source.memory w.garbage) 0 nbytes⟩]
    calls := w.calls ++ [transferCall .putmem pe shbox start nbytes
      (source.elems.length * Pod.size T) none] }

namespace PEReference

variable (self)

theorem writeFrom_resolved {data : Slice T} (room : data.elems.length ≤ shbox.len.toNat) :
    (self.writeFrom build shbox data).run w =
      .ok () (w.sent shbox 0 data (data.elems.length * Pod.size T) self.target) := by
  obtain ⟨product, value⟩ := usizeMul_layout build (x := data.len) (y := sizeOf T)
    (by simpa using data.layout)
  rw [sizeOf_toNat, Slice.len_toNat] at value
  have start : shbox.offset 0 = shbox.addr := by simp [Shbox.offset]
  rw [writeFrom]
  simp only [Slice.len_toNat, Nat.not_lt.mpr room, if_false, nbytes_swap, product]
  simp only [World.sent, transferCall, start, ← value]
  rfl

theorem writeFrom_rejected {data : Slice T} (longer : shbox.len.toNat < data.elems.length) :
    (self.writeFrom build shbox data).run w = .panic .tooMuchData w := by
  rw [writeFrom]
  simp only [Slice.len_toNat, longer, if_true]
  rfl

end PEReference

/-- The put of a view may be one element longer than its buffer, which still does
not overflow the byte count. -/
theorem MutableArrayView.drop_resolved {view : MutableArrayView P T}
    (accepted : resolve build view.range view.buf.len = .ok (start, count)) :
    (view.drop build).run w =
      .ok () (w.sent view.into start view.buf (count.toNat * Pod.size T) view.on) := by
  have fits : count.toNat * Pod.size T < 2^64 := by
    have longer := resolve_count_le accepted
    have layout := view.buf.layout
    have one := Pod.size_le (T := T)
    rw [Slice.len_toNat] at longer
    have := Nat.mul_le_mul_right (Pod.size T) longer
    simp only [isizeMax] at *
    rw [Nat.add_mul] at this
    omega
  have product : usizeMul build count (sizeOf T) = .ok (count * sizeOf T) :=
    usizeMul_fits build (by simpa using fits)
  have value : (count * sizeOf T).toNat = count.toNat * Pod.size T := by
    rw [BitVec.toNat_mul, sizeOf_toNat, Nat.mod_eq_of_lt fits]
  rw [drop, accepted, bind_ok (run_attempt_ok _ w)]
  simp only [nbytes_swap, product]
  rw [bind_ok (run_attempt_ok _ w), value]
  rfl

theorem MutableArrayView.drop_rejected {view : MutableArrayView P T} {p : Panic}
    (refused : resolve build view.range view.buf.len = .error p) :
    (view.drop build).run w = .panic p w := by
  rw [drop, refused]
  exact bind_panic (run_attempt_error p w)

end OpenShmem
