import OpenShmem.Object

/-! The world a PE's code runs in. The OpenSHMEM routines have the effect their
specification documents and nothing earlier: a put is in flight when its call
returns, a non-blocking get is in flight until it is delivered. Panics keep the
state they happen in. -/
namespace OpenShmem

open Overlay

inductive Routine where
  | getmem
  | getmemNbi
  | putmem
  deriving DecidableEq, Repr

/-- One call of a routine which moves bytes. `bufferBytes` is the size of the
local object on the other side, and `dest` names it when it is a heap block. -/
structure Call (P : Nat) where
  routine : Routine
  pe : Fin P
  remote : Nat
  nbytes : Nat
  bufferBytes : Nat
  dest : Option Nat
  deriving DecidableEq, Repr

/-- A non-blocking get on its way: `nbytes` from `remote` on `pe` into block `dest`. -/
structure Get (P : Nat) where
  dest : Nat
  pe : Fin P
  remote : Nat
  nbytes : Nat
  deriving DecidableEq, Repr

inductive Owner where
  | nbiOp
  | nbiSliceOp
  | boxed
  deriving DecidableEq, Repr

/-- A private heap block. It is owned by nobody once it is freed or leaked. -/
structure Block where
  bytes : List UInt8
  owner : Option Owner
  frees : Nat
  deriving DecidableEq, Repr

structure World (P : Nat) where
  mem : Fin P → Nat → UInt8
  puts : List (Write (Fin P) UInt8)
  gets : List (Get P)
  heap : List Block
  /-- What process memory holds where this code stored nothing. -/
  garbage : Nat → UInt8
  calls : List (Call P)

/-- A world in which nothing has happened and all memory is zero. -/
def World.blank (P : Nat) : World P := ⟨fun _ _ => 0, [], [], [], fun _ => 0, []⟩

/-- The network completes the put at this position of those in flight. -/
def World.deliverPut {P : Nat} (w : World P) (k : Nat) : World P :=
  match w.puts[k]? with
  | some put => { w with mem := put.apply w.mem, puts := w.puts.eraseIdx k }
  | none => w

theorem deliverPut_settles {P : Nat} {w : World P} {spec : Fin P → Nat → UInt8}
    (settles : Settles w.mem w.puts spec) (k : Nat) :
    Settles (w.deliverPut k).mem (w.deliverPut k).puts spec := by
  unfold World.deliverPut
  cases chosen : w.puts[k]? with
  | none => exact settles
  | some put => exact settles.deliver chosen

/-- Nothing is in flight after a delivery that was not before. -/
theorem mem_deliverPut {P : Nat} {w : World P} {k : Nat} {put : Write (Fin P) UInt8}
    (member : put ∈ (w.deliverPut k).puts) : put ∈ w.puts := by
  unfold World.deliverPut at member
  split at member
  · exact List.mem_of_mem_eraseIdx member
  · exact member

/-- A block after a foreign call stored `cells` from its first byte on. -/
def Block.receive (block : Block) (cells : List UInt8) : Block :=
  { block with bytes := cells.take block.bytes.length ++ block.bytes.drop cells.length }

/-- `mem::forget` of the last owner: the block is never freed. -/
def Block.forget (block : Block) : Block := { block with owner := none }

/-- The box is dropped. One without bytes has no allocation to release. -/
def Block.free (block : Block) : Block :=
  { block with owner := none, frees := block.frees + if block.bytes = [] then 0 else 1 }

def World.modifyBlock {P : Nat} (w : World P) (d : Nat) (f : Block → Block) : World P :=
  { w with heap := w.heap.modify d f }

/-- The network completes the non-blocking get at this position of those in flight. -/
def World.deliverGet {P : Nat} (w : World P) (k : Nat) : World P :=
  match w.gets[k]? with
  | some get => { w with
      heap := w.heap.modify get.dest (·.receive (window (w.mem get.pe) get.remote get.nbytes))
      gets := w.gets.eraseIdx k }
  | none => w

/-- A panic keeps the world it happens in: earlier effects are not undone. -/
inductive Outcome (P : Nat) (α : Type) where
  | ok (a : α) (w : World P)
  | panic (p : Panic) (w : World P)

def Outcome.world {P : Nat} {α : Type} : Outcome P α → World P
  | .ok _ w => w
  | .panic _ w => w

structure Shmem (P : Nat) (α : Type) where
  run : World P → Outcome P α

variable {P : Nat} {α β : Type}

instance : Monad (Shmem P) where
  pure a := ⟨fun w => .ok a w⟩
  bind x f := ⟨fun w =>
    match x.run w with
    | .ok a next => (f a).run next
    | .panic p next => .panic p next⟩

/-- A computation which may panic but touches nothing. -/
def attempt (x : Except Panic α) : Shmem P α := ⟨fun w =>
  match x with
  | .ok a => .ok a w
  | .error p => .panic p w⟩

def world : Shmem P (World P) := ⟨fun w => .ok w w⟩

@[simp] theorem run_pure (a : α) (w : World P) : (pure a : Shmem P α).run w = .ok a w := rfl

@[simp] theorem run_world (w : World P) : world.run w = .ok w w := rfl

@[simp] theorem run_attempt_ok (a : α) (w : World P) : (attempt (.ok a)).run w = .ok a w := rfl

@[simp] theorem run_attempt_error (p : Panic) (w : World P) :
    (attempt (.error p) : Shmem P α).run w = .panic p w := rfl

theorem run_bind (x : Shmem P α) (f : α → Shmem P β) (w : World P) :
    (x >>= f).run w =
      match x.run w with
      | .ok a next => (f a).run next
      | .panic p next => .panic p next := rfl

theorem bind_ok {x : Shmem P α} {f : α → Shmem P β} {w next : World P} {a : α}
    (first : x.run w = .ok a next) : (x >>= f).run w = (f a).run next := by
  rw [run_bind, first]

theorem bind_panic {x : Shmem P α} {f : α → Shmem P β} {w next : World P} {p : Panic}
    (first : x.run w = .panic p next) : (x >>= f).run w = .panic p next := by
  rw [run_bind, first]

/-! ### Processing elements -/

structure PE where
  id : BitVec 32
  deriving DecidableEq, Repr

/-- `pe.0 as c_int`. -/
def PE.cInt (pe : PE) : Int := pe.id.toInt

/-- `shmem_pe_accessible` in a world of `P` PEs. -/
def peAccessible (P : Nat) (pe : PE) : Bool := 0 ≤ pe.cInt && pe.cInt < P

/-- A reference exists only for a PE that passed the check of `ctx.pe`. -/
structure PEReference (P : Nat) where
  pe : PE
  accessible : peAccessible P pe = true

def PEReference.target (self : PEReference P) : Fin P :=
  ⟨self.pe.cInt.toNat, by
    have := self.accessible
    simp only [peAccessible, Bool.and_eq_true, decide_eq_true_eq] at this
    omega⟩

def ctxPe (P : Nat) (pe : Usize) : Except Panic (PEReference P) :=
  let pe' : PE := ⟨pe.setWidth 32⟩
  if h : peAccessible P pe' = true then .ok ⟨pe', h⟩ else .error (.invalidPe pe.toNat)

/-! ### Routines of the library -/

def shmemGetmem (remote nbytes bufferBytes : Nat) (pe : Fin P) : Shmem P (List UInt8) := ⟨fun w =>
  .ok (window (w.mem pe) remote nbytes)
    { w with calls := w.calls ++ [⟨.getmem, pe, remote, nbytes, bufferBytes, none⟩] }⟩

/-- The source buffer is read before the call returns; its bytes travel on. -/
def shmemPutmem (remote : Nat) (source : Nat → UInt8) (nbytes bufferBytes : Nat) (pe : Fin P) :
    Shmem P Unit := ⟨fun w =>
  .ok () { w with
    puts := w.puts ++ [⟨pe, remote, window source 0 nbytes⟩]
    calls := w.calls ++ [⟨.putmem, pe, remote, nbytes, bufferBytes, none⟩] }⟩

def shmemGetmemNbi (dest remote nbytes bufferBytes : Nat) (pe : Fin P) : Shmem P Unit := ⟨fun w =>
  .ok () { w with
    gets := w.gets ++ [⟨dest, pe, remote, nbytes⟩]
    calls := w.calls ++ [⟨.getmemNbi, pe, remote, nbytes, bufferBytes, some dest⟩] }⟩

/-! ### Allocation -/

variable (T : Type) [Pod T]

/-- `Box::new_uninit_slice`, for a box which stays a local value. -/
def newUninitSlice (count : Usize) : Shmem P (Slice T) := ⟨fun w =>
  if fits : count.toNat * Pod.size T ≤ isizeMax then
    .ok ⟨elements T w.garbage 0 count.toNat, by simpa using count.isLt, by simpa using fits⟩ w
  else .panic .capacityOverflow w⟩

/-- The same for a box a foreign call writes to later: it needs an identity. -/
def newUninitBlock (owner : Owner) (count : Usize) : Shmem P Nat := ⟨fun w =>
  if count.toNat * Pod.size T ≤ isizeMax then
    .ok w.heap.length { w with
      heap := w.heap ++ [⟨window w.garbage 0 (count.toNat * Pod.size T), some owner, 0⟩] }
  else .panic .capacityOverflow w⟩

variable {T} {count : Usize} {w : World P}

theorem newUninitSlice_fits (fits : count.toNat * Pod.size T ≤ isizeMax) :
    ∃ s : Slice T, (newUninitSlice T count).run w = .ok s w ∧
      s.elems.length = count.toNat ∧ s.elems = elements T w.garbage 0 count.toNat :=
  ⟨⟨elements T w.garbage 0 count.toNat, by simpa using count.isLt, by simpa using fits⟩,
    dif_pos fits, by simp, rfl⟩

theorem newUninitSlice_overflows (overflows : ¬ count.toNat * Pod.size T ≤ isizeMax) :
    (newUninitSlice T count).run w = .panic .capacityOverflow w := dif_neg overflows

theorem newUninitBlock_fits {owner : Owner} (fits : count.toNat * Pod.size T ≤ isizeMax) :
    (newUninitBlock T owner count).run w = .ok w.heap.length { w with
      heap := w.heap ++ [⟨window w.garbage 0 (count.toNat * Pod.size T), some owner, 0⟩] } :=
  if_pos fits

theorem newUninitBlock_overflows {owner : Owner} (overflows : ¬ count.toNat * Pod.size T ≤ isizeMax) :
    (newUninitBlock T owner count).run w = .panic .capacityOverflow w := if_neg overflows

/-- The byte count of a transfer does not overflow once the elements fit an allocation. -/
theorem usizeMul_layout (build : Build) {x y : Usize} (fits : x.toNat * y.toNat ≤ isizeMax) :
    usizeMul build x y = .ok (x * y) ∧ (x * y).toNat = x.toNat * y.toNat := by
  have small : x.toNat * y.toNat < 2^64 := by simp only [isizeMax] at fits; omega
  exact ⟨usizeMul_fits build small, by rw [BitVec.toNat_mul, Nat.mod_eq_of_lt small]⟩

end OpenShmem
