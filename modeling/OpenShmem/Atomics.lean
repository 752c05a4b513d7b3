import OpenShmem.PeNumbers
import OpenShmem.Construct

/-! The atomic operations on a symmetric word. They take a plain `PE`, whose number
anybody can choose, where the methods of `PEReference` have one that `ctx.pe` checked. -/
namespace OpenShmem

variable {P w : Nat} {T : Type} [Pod T]

inductive AtomicRoutine where
  | fetch
  | set
  | swap
  | compareSwap
  | fetchInc
  | inc
  | fetchAdd
  | add
  | fetchAnd
  | and
  | fetchOr
  | or
  | fetchXor
  | xor
  deriving DecidableEq, Repr

/-- One call of `shmem_<type>_atomic_<routine>`, for a type of `w` bits: the symmetric
address and the PE number it is given, and what the routine does to the word there. -/
structure AtomicCall (w : Nat) where
  routine : AtomicRoutine
  addr : Nat
  pe : Int
  update : BitVec w → BitVec w

def PE.raw (self : PE) : Usize := self.id.setWidth 64

/-- `raw as c_int`. -/
def rawCInt (raw : Usize) : Int := (raw.setWidth 32).toInt

/-- What every implementation of the atomic traits comes to. -/
def atomicCall (routine : AtomicRoutine) (update : BitVec w → BitVec w) (shbox : Nat) (pe : PE) :
    AtomicCall w := ⟨routine, shbox, rawCInt pe.raw, update⟩

/-! ### The methods of `Shbox<Atomic<T>>` -/
section

variable (shbox : Nat)

def atomicFetch (pe : PE) : AtomicCall w := atomicCall .fetch id shbox pe

def atomicSet (new_value : BitVec w) (pe : PE) : AtomicCall w :=
  atomicCall .set (fun _ => new_value) shbox pe

def atomicSwap (new_value : BitVec w) (pe : PE) : AtomicCall w :=
  atomicCall .swap (fun _ => new_value) shbox pe

def atomicInc (pe : PE) : AtomicCall w := atomicCall .inc (· + 1) shbox pe

def atomicFetchInc (pe : PE) : AtomicCall w := atomicCall .fetchInc (· + 1) shbox pe

def atomicAdd (plus : BitVec w) (pe : PE) : AtomicCall w := atomicCall .add (· + plus) shbox pe

def atomicFetchAdd (plus : BitVec w) (pe : PE) : AtomicCall w :=
  atomicCall .fetchAdd (· + plus) shbox pe

def atomicCompareSwap (if_equals then_set_to : BitVec w) (pe : PE) : AtomicCall w :=
  atomicCall .compareSwap (fun old => if old = if_equals then then_set_to else old) shbox pe

def atomicAnd (mask : BitVec w) (pe : PE) : AtomicCall w := atomicCall .and (mask &&& ·) shbox pe

def atomicFetchAnd (mask : BitVec w) (pe : PE) : AtomicCall w :=
  atomicCall .fetchAnd (mask &&& ·) shbox pe

def atomicOr (mask : BitVec w) (pe : PE) : AtomicCall w := atomicCall .or (mask ||| ·) shbox pe

def atomicFetchOr (mask : BitVec w) (pe : PE) : AtomicCall w :=
  atomicCall .fetchOr (mask ||| ·) shbox pe

def atomicXor (mask : BitVec w) (pe : PE) : AtomicCall w := atomicCall .xor (mask ^^^ ·) shbox pe

def atomicFetchXor (mask : BitVec w) (pe : PE) : AtomicCall w :=
  atomicCall .fetchXor (mask ^^^ ·) shbox pe

/-- `Atomic::fetch`, an associated function. -/
def Atomic.fetch (pe : PE) : AtomicCall w := atomicFetch shbox pe

end

/-- The operations above, with their arguments. -/
inductive AtomicOp (w : Nat) where
  | atomicFetch
  | atomicSet (new_value : BitVec w)
  | atomicSwap (new_value : BitVec w)
  | atomicInc
  | atomicFetchInc
  | atomicAdd (plus : BitVec w)
  | atomicFetchAdd (plus : BitVec w)
  | atomicCompareSwap (if_equals then_set_to : BitVec w)
  | atomicAnd (mask : BitVec w)
  | atomicFetchAnd (mask : BitVec w)
  | atomicOr (mask : BitVec w)
  | atomicFetchOr (mask : BitVec w)
  | atomicXor (mask : BitVec w)
  | atomicFetchXor (mask : BitVec w)
  | fetch

def AtomicOp.call (shbox : Nat) (pe : PE) : AtomicOp w → AtomicCall w
  | .atomicFetch => OpenShmem.atomicFetch shbox pe
  | .atomicSet new_value => OpenShmem.atomicSet shbox new_value pe
  | .atomicSwap new_value => OpenShmem.atomicSwap shbox new_value pe
  | .atomicInc => OpenShmem.atomicInc shbox pe
  | .atomicFetchInc => OpenShmem.atomicFetchInc shbox pe
  | .atomicAdd plus => OpenShmem.atomicAdd shbox plus pe
  | .atomicFetchAdd plus => OpenShmem.atomicFetchAdd shbox plus pe
  | .atomicCompareSwap if_equals then_set_to =>
    OpenShmem.atomicCompareSwap shbox if_equals then_set_to pe
  | .atomicAnd mask => OpenShmem.atomicAnd shbox mask pe
  | .atomicFetchAnd mask => OpenShmem.atomicFetchAnd shbox mask pe
  | .atomicOr mask => OpenShmem.atomicOr shbox mask pe
  | .atomicFetchOr mask => OpenShmem.atomicFetchOr shbox mask pe
  | .atomicXor mask => OpenShmem.atomicXor shbox mask pe
  | .atomicFetchXor mask => OpenShmem.atomicFetchXor shbox mask pe
  | .fetch => Atomic.fetch shbox pe

/-- The safe remote operations: a method of the reference to the PE of some index, or
an atomic operation on a PE number of the caller's choice. -/
inductive RemoteOp : Type 1 where
  | viaPe {T : Type} [Pod T] (pe : Usize) (shbox : Shbox T) (method : PeMethod T)
  | atomic {w : Nat} (pe : PE) (shbox : Nat) (op : AtomicOp w)

/-- The C int PE numbers an operation passes to routines, one for each it calls. -/
def RemoteOp.peNumbers (build : Build) (w : World P) : RemoteOp → List Int
  | @RemoteOp.viaPe _ _ pe shbox method =>
    match ctxPe P pe with
    -- `self.pe.0 as _` in every call.
    | .ok self => (issued (method.run build self shbox) w).map fun _ => self.pe.cInt
    | .error _ => []
  | .atomic pe shbox op => [(op.call shbox pe).pe]

/-- The operation goes through a `PEReference`, or its PE number belongs to a PE. -/
def RemoteOp.InWorld (P : Nat) : RemoteOp → Prop
  | @RemoteOp.viaPe _ _ _ _ _ => True
  | .atomic pe _ _ => pe.id.toNat < P ∧ pe.id.toNat ≤ cIntMax

/-- Through `usize` and back, the routine gets the `u32` as a C int. -/
theorem rawCInt_raw (pe : PE) : rawCInt pe.raw = pe.cInt := by
  rw [rawCInt, PE.raw, BitVec.setWidth_setWidth_of_le _ (by decide), BitVec.setWidth_eq, PE.cInt]

/-- No atomic operation looks at its PE number. -/
theorem AtomicOp.call_pe (op : AtomicOp w) (shbox : Nat) (pe : PE) :
    (op.call shbox pe).pe = pe.cInt := by
  cases op <;> exact rawCInt_raw pe

/-- The C int is the number of a PE where the `u32` is one that a C int can hold. -/
theorem PE.cInt_valid_iff (pe : PE) :
    (0 ≤ pe.cInt ∧ pe.cInt < P) ↔ pe.id.toNat < P ∧ pe.id.toNat ≤ cIntMax := by
  have bound := pe.id.isLt
  simp only [PE.cInt, BitVec.toInt_eq_toNat_cond, cIntMax]
  split <;> omega

theorem PEReference.cInt_valid (self : PEReference P) : 0 ≤ self.pe.cInt ∧ self.pe.cInt < P := by
  have accessible := self.accessible
  simpa only [peAccessible, Bool.and_eq_true, decide_eq_true_eq] using accessible

/-- Every PE number that reaches a routine is valid, for whatever happens before, exactly
where it has been through `ctx.pe` or the caller chose a valid one. -/
theorem peNumbers_valid_iff (P : Nat) (op : RemoteOp) :
    (∀ (build : Build) (w : World P), ∀ k ∈ op.peNumbers build w, 0 ≤ k ∧ k < P) ↔
      op.InWorld P := by
  cases op with
  | viaPe pe shbox method =>
    refine iff_of_true ?_ trivial
    intro build w k member
    rw [RemoteOp.peNumbers] at member
    split at member
    next self _ =>
      obtain ⟨c, _, rfl⟩ := List.mem_map.mp member
      exact self.cInt_valid
    next => cases member
  | atomic pe shbox op =>
    rw [RemoteOp.InWorld, ← PE.cInt_valid_iff]
    constructor
    · intro valid
      have number := valid .release (.blank P) _ (List.mem_singleton_self _)
      rwa [op.call_pe] at number
    · intro valid build w k member
      obtain rfl := List.mem_singleton.mp member
      rwa [op.call_pe]

/-- With one PE in the world, fetching from PE 5 is not turned back. -/
theorem atomicFetch_unchecked :
    ¬ ∀ P, 1 ≤ P → ∀ (op : RemoteOp) (build : Build) (w : World P),
      ∀ k ∈ op.peNumbers build w, 0 ≤ k ∧ k < P := by
  intro valid
  have number := valid 1 (Nat.le_refl 1) (.atomic ⟨5⟩ 16 (.atomicFetch : AtomicOp 32)) .release
    (.blank 1) 5 (List.mem_singleton_self _)
  exact absurd number.2 (by decide)

/-! ### The operations as updates -/

/-- What a call does to the words of a world, where its number is that of a PE. A call
with any other number is undefined. -/
def AtomicCall.toUpdate (P : Nat) (call : AtomicCall w) : Option (Update P (BitVec w)) :=
  if inside : 0 ≤ call.pe ∧ call.pe < P then
    some ⟨⟨call.pe.toNat, by omega⟩, 0, [call.update]⟩
  else none

/-- An atomic operation is an update of one element, and of that on the PE it names. -/
theorem AtomicOp.toUpdate_some (op : AtomicOp w) (shbox : Nat) {pe : PE} (target : Fin P)
    (names : pe.cInt = target.val) :
    (op.call shbox pe).toUpdate P = some ⟨target, 0, [(op.call shbox pe).update]⟩ := by
  have inside : 0 ≤ (op.call shbox pe).pe ∧ (op.call shbox pe).pe < P := by
    rw [op.call_pe, names]
    omega
  have same : (⟨(op.call shbox pe).pe.toNat, by omega⟩ : Fin P) = target := by
    apply Fin.ext
    simp only [op.call_pe, names, Int.toNat_natCast]
  rw [AtomicCall.toUpdate, dif_pos inside, same]

section

variable {pe : PE} (target : Fin P) (names : pe.cInt = target.val) (shbox : Nat)
include names

theorem atomicSet_update (new_value : BitVec w) :
    (atomicSet shbox new_value pe).toUpdate P = some (.atomicSet new_value target) :=
  (AtomicOp.atomicSet new_value).toUpdate_some shbox target names

theorem atomicAdd_update (plus : BitVec w) :
    (atomicAdd shbox plus pe).toUpdate P = some (.atomicAdd plus target) :=
  (AtomicOp.atomicAdd plus).toUpdate_some shbox target names

theorem atomicFetchAdd_update (plus : BitVec w) :
    (atomicFetchAdd shbox plus pe).toUpdate P = some (.atomicFetchAdd plus target) :=
  (AtomicOp.atomicFetchAdd plus).toUpdate_some shbox target names

theorem atomicInc_update :
    (atomicInc shbox pe : AtomicCall w).toUpdate P = some (.atomicInc target) :=
  (AtomicOp.atomicInc : AtomicOp w).toUpdate_some shbox target names

end

end OpenShmem
