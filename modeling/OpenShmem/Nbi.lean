import Mathlib.Data.Fin.Tuple.Basic
import Mathlib.Data.List.Nodup
import OpenShmem.Rma

/-! Pending operations, the values `quiet` accepts, and what becomes of their
buffers. `Takes` is the frame rule of computations which use up heap blocks. -/
namespace OpenShmem

open Overlay

variable {P : Nat} {T : Type} [Pod T]

/-- The elements a box of `len` elements holds when its bytes are `bytes`. -/
def decode (T : Type) [Pod T] (bytes : List UInt8) (len : Usize) : List T :=
  elements T (overlay (fun _ => 0) 0 bytes) 0 len.toNat

theorem decode_window (m : Nat → UInt8) (addr : Nat) (len : Usize) :
    decode T (window m addr (len.toNat * Pod.size T)) len = elements T m addr len.toNat := by
  apply elements_eq_iff.mpr
  intro x inside
  rw [overlay_inside _ _ _ (by simpa using inside), window_getElem]

def World.block (w : World P) (d : Nat) : Block := w.heap.getD d ⟨[], none, 0⟩

theorem World.block_some {w : World P} {d : Nat} {block : Block} (found : w.heap[d]? = some block) :
    w.block d = block := by
  rw [World.block, List.getD_eq_getElem?_getD, found, Option.getD_some]

theorem World.block_none {w : World P} {d : Nat} (found : w.heap[d]? = none) :
    w.block d = ⟨[], none, 0⟩ := by
  rw [World.block, List.getD_eq_getElem?_getD, found, Option.getD_none]

/-- Changes the block `d`, and returns something read from it before. -/
def useBlock {α : Type} (d : Nat) (read : Block → α) (change : Block → Block) : Shmem P α := ⟨fun w =>
  .ok (read (w.block d)) (w.modifyBlock d change)⟩

/-- The element is read out, and the box is forgotten with it. -/
def PendingNbiOp.intoInner (self : PendingNbiOp T) : Shmem P T :=
  useBlock self.inner (fun block => Pod.ofBytes block.bytes) Block.forget

/-- The box itself is read out: it changes hands. -/
def PendingNbiSliceOp.intoInner (self : PendingNbiSliceOp T) : Shmem P (List T) :=
  useBlock self.inner (fun block => decode T block.bytes self.len)
    ({ · with owner := some .boxed })

/-- A `Box<[T]>` is dropped. -/
def dropBox (d : Nat) : Shmem P Unit := useBlock d (fun _ => ()) Block.free

/-- The values which implement `NbiOp`, by the type `quiet` returns for them. -/
inductive Nbis : Type → Type 1 where
  | op {T : Type} [Pod T] (pending : PendingNbiOp T) : Nbis T
  | slice {T : Type} [Pod T] (pending : PendingNbiSliceOp T) : Nbis (List T)
  | vecSlice {T : Type} [Pod T] (pending : List (PendingNbiSliceOp T)) : Nbis (List T)
  | vecOp {T : Type} [Pod T] (pending : List (PendingNbiOp T)) : Nbis (List T)
  | unit : Nbis Unit
  | tuple {k : Nat} (arity : 2 ≤ k ∧ k ≤ 8) {A : Fin k → Type}
      (components : ∀ i, Nbis (A i)) : Nbis (∀ i, A i)

/-- Runs the computations one after the other and keeps their results in order. -/
def inOrder {α : Type} : List (Shmem P α) → Shmem P (List α)
  | [] => pure []
  | x :: rest => do
    let a ← x
    let as ← inOrder rest
    return a :: as

def inTuple : {k : Nat} → {A : Fin k → Type} → (∀ i, Shmem P (A i)) → Shmem P (∀ i, A i)
  | 0, _, _ => pure fun i => i.elim0
  | _ + 1, _, x => do
    let a ← x 0
    let as ← inTuple fun i => x i.succ
    return Fin.cons a as

namespace Nbis

def afterQuiet : {A : Type} → Nbis A → Shmem P A
  | _, @Nbis.op _ _ pending => pending.intoInner
  | _, @Nbis.slice _ _ pending => pending.intoInner
  | _, @Nbis.vecSlice _ _ pending => do
    -- `flatten` frees each box once its elements have moved to the vector.
    let parts ← inOrder (pending.map fun op => do
      let part ← op.intoInner
      dropBox op.inner
      return part)
    return parts.flatten
  | _, @Nbis.vecOp _ _ pending => inOrder (pending.map (·.intoInner))
  | _, .unit => pure ()
  | _, .tuple _ components => inTuple fun i => (components i).afterQuiet

/-- The pending operations in a value: their blocks, and which kind each is. -/
def ops : {A : Type} → Nbis A → List (Nat × Owner)
  | _, @Nbis.op _ _ pending => [(pending.inner, .nbiOp)]
  | _, @Nbis.slice _ _ pending => [(pending.inner, .nbiSliceOp)]
  | _, @Nbis.vecSlice _ _ pending => pending.map fun op => (op.inner, .nbiSliceOp)
  | _, @Nbis.vecOp _ _ pending => pending.map fun op => (op.inner, .nbiOp)
  | _, .unit => []
  | _, .tuple _ components => (List.ofFn fun i => (components i).ops).flatten

def blocks {A : Type} (nbis : Nbis A) : List Nat := nbis.ops.map (·.1)

end Nbis

/-- The network delivers some gets in an order of its own, and then what is left. -/
def World.quiet (order : List Nat) (w : World P) : World P :=
  let w := order.foldl World.deliverGet w
  w.gets.foldl (fun w _ => w.deliverGet 0) w

/-- `shmem_quiet` returns when nothing is in flight. -/
def shmemQuiet (order : List Nat) : Shmem P Unit := ⟨fun w => .ok () (w.quiet order)⟩

def ctxQuiet {A : Type} (order : List Nat) (nbis : Nbis A) : Shmem P A := do
  shmemQuiet order
  nbis.afterQuiet

/-! ### Using up blocks -/
section

variable {α β : Type} {ds es : List Nat} {d : Nat} {w w' next last : World P}

/-- Only the owners of the blocks `ds` differ, and none of these is pending any more. -/
structure Consumed (ds : List Nat) (w next : World P) : Prop where
  kept : next = { w with heap := next.heap }
  bytes : next.heap.map (·.bytes) = w.heap.map (·.bytes)
  others : ∀ d ∉ ds, next.heap[d]? = w.heap[d]?
  used : ∀ d ∈ ds, ∀ block, next.heap[d]? = some block →
    block.owner ≠ some .nbiOp ∧ block.owner ≠ some .nbiSliceOp

theorem Consumed.gets (consumed : Consumed ds w next) : next.gets = w.gets := by
  rw [consumed.kept]

theorem Consumed.heap_length (consumed : Consumed ds w next) :
    next.heap.length = w.heap.length := by
  simpa using congrArg List.length consumed.bytes

theorem Consumed.none (w : World P) : Consumed [] w w :=
  ⟨rfl, rfl, fun _ _ => rfl, fun _ member => by cases member⟩

theorem Consumed.trans (first : Consumed ds w next) (second : Consumed es next last) :
    Consumed (ds ++ es) w last := by
  refine ⟨?_, second.bytes.trans first.bytes, ?_, ?_⟩
  · rw [second.kept, first.kept]
  · intro d outside
    rw [List.mem_append, not_or] at outside
    rw [second.others d outside.2, first.others d outside.1]
  · intro d member block found
    by_cases again : d ∈ es
    · exact second.used d again block found
    · rw [second.others d again] at found
      exact first.used d ((List.mem_append.mp member).resolve_right again) block found

theorem Consumed.modifyBlock (change : Block → Block)
    (bytes : ∀ block, (change block).bytes = block.bytes)
    (used : ∀ block, (change block).owner ≠ some .nbiOp ∧ (change block).owner ≠ some .nbiSliceOp)
    (w : World P) (d : Nat) : Consumed [d] w (w.modifyBlock d change) := by
  refine ⟨rfl, ?_, ?_, ?_⟩
  · apply List.ext_getElem?
    intro i
    simp only [World.modifyBlock, List.getElem?_map, List.getElem?_modify]
    split <;> simp [Function.comp_def, bytes]
  · intro i outside
    have different : d ≠ i := fun same => outside (by simp [same])
    simp [World.modifyBlock, different]
  · intro i member block found
    obtain rfl := List.mem_singleton.mp member
    simp only [World.modifyBlock, List.getElem?_modify, if_true, Option.map_eq_map,
      Option.map_eq_some_iff] at found
    obtain ⟨before, _, rfl⟩ := found
    exact used before

/-- The computation uses up the blocks `ds` as they are in `w`, whatever else has
changed, and returns `v`. -/
def Takes (w : World P) (ds : List Nat) (x : Shmem P α) (v : α) : Prop :=
  ∀ w', (∀ d ∈ ds, w'.heap[d]? = w.heap[d]?) → ∃ next, x.run w' = .ok v next ∧ Consumed ds w' next

theorem takes_pure (w : World P) (v : α) : Takes w [] (pure v) v :=
  fun w' _ => ⟨w', rfl, .none w'⟩

theorem Takes.bind {x : Shmem P α} {f : α → Shmem P β} {a : α} {b : β} (first : Takes w ds x a)
    (second : Takes w es (f a) b) (apart : ds.Disjoint es) : Takes w (ds ++ es) (x >>= f) b := by
  intro w' same
  obtain ⟨middle, ran, consumed⟩ := first w' fun d member => same d (List.mem_append_left _ member)
  obtain ⟨last, ran', consumed'⟩ := second middle fun d member => by
    rw [consumed.others d fun member' => apart member' member]
    exact same d (List.mem_append_right _ member)
  exact ⟨last, by rw [bind_ok ran, ran'], consumed.trans consumed'⟩

theorem Takes.map {x : Shmem P α} {a : α} (takes : Takes w ds x a) (f : α → β) :
    Takes w ds (x >>= fun a => pure (f a)) (f a) := by
  have mapped : Takes w (ds ++ []) (x >>= fun a => pure (f a)) (f a) :=
    takes.bind (takes_pure w (f a)) (List.disjoint_nil_right ds)
  rwa [List.append_nil] at mapped

theorem block_congr (same : w'.heap[d]? = w.heap[d]?) : w'.block d = w.block d := by
  simp only [World.block, List.getD_eq_getElem?_getD, same]

theorem takes_useBlock {read : Block → α} {change : Block → Block}
    (bytes : ∀ block, (change block).bytes = block.bytes)
    (used : ∀ block, (change block).owner ≠ some .nbiOp ∧ (change block).owner ≠ some .nbiSliceOp) :
    Takes w [d] (useBlock d read change) (read (w.block d)) := by
  intro w' same
  refine ⟨w'.modifyBlock d change, ?_, .modifyBlock change bytes used w' d⟩
  rw [← block_congr (same d (List.mem_singleton_self d))]
  rfl

theorem takes_op {op : PendingNbiOp T} :
    Takes w [op.inner] op.intoInner (Pod.ofBytes (w.block op.inner).bytes) :=
  takes_useBlock (fun _ => rfl) (fun _ => by simp [Block.forget])

theorem takes_slice (op : PendingNbiSliceOp T) :
    Takes w [op.inner] op.intoInner (decode T (w.block op.inner).bytes op.len) :=
  takes_useBlock (fun _ => rfl) (fun _ => by simp)

/-- A box whose elements are moved out is freed. -/
theorem takes_part {op : PendingNbiSliceOp T} :
    Takes w [op.inner] (do
        let part ← op.intoInner
        dropBox op.inner
        return part) (decode T (w.block op.inner).bytes op.len) := by
  intro w' same
  obtain ⟨middle, ran, consumed⟩ := takes_slice op w' same
  have freed : Consumed [op.inner] middle (middle.modifyBlock op.inner Block.free) :=
    .modifyBlock Block.free (fun _ => rfl) (fun _ => by simp [Block.free]) middle op.inner
  have both := consumed.trans freed
  refine ⟨middle.modifyBlock op.inner Block.free, by rw [bind_ok ran]; rfl, both.kept, both.bytes, ?_, ?_⟩
  · intro d outside
    exact both.others d (by simpa using outside)
  · intro d member
    exact both.used d (by simpa using member)

theorem takes_inOrder {items : List α} {x : α → Shmem P β} {block : α → Nat} {v : α → β}
    (each : ∀ a ∈ items, Takes w [block a] (x a) (v a)) (nodup : (items.map block).Nodup) :
    Takes w (items.map block) (inOrder (items.map x)) (items.map v) := by
  induction items with
  | nil => exact takes_pure w []
  | cons a rest ih =>
    rw [List.map_cons, List.nodup_cons] at nodup
    have head := each a (List.mem_cons_self ..)
    have tail := ih (fun b member => each b (List.mem_cons_of_mem a member)) nodup.2
    exact head.bind (tail.map (v a :: ·)) (List.singleton_disjoint.mpr nodup.1)

theorem takes_inTuple {k : Nat} {A : Fin k → Type} {x : ∀ i, Shmem P (A i)} {ds : Fin k → List Nat}
    {v : ∀ i, A i} (each : ∀ i, Takes w (ds i) (x i) (v i)) (nodup : (List.ofFn ds).flatten.Nodup) :
    Takes w (List.ofFn ds).flatten (inTuple x) v := by
  induction k with
  | zero =>
    rw [show v = fun i => i.elim0 from funext fun i => i.elim0]
    exact takes_pure w _
  | succ k ih =>
    rw [List.ofFn_succ, List.flatten_cons] at nodup ⊢
    obtain ⟨_, nodup, apart⟩ := List.nodup_append'.mp nodup
    have tail := (ih (fun i => each i.succ) nodup).map (Fin.cons (v 0) : _ → ∀ i, A i)
    rw [show Fin.cons (v 0) (fun i => v i.succ) = v from Fin.cons_self_tail v] at tail
    exact (each 0).bind tail apart

end

namespace Nbis

/-- What the buffers in a value hold, in its shape. -/
def held (w : World P) : {A : Type} → Nbis A → A
  | _, @Nbis.op _ _ pending => Pod.ofBytes (w.block pending.inner).bytes
  | _, @Nbis.slice T _ pending => decode T (w.block pending.inner).bytes pending.len
  | _, @Nbis.vecSlice T _ pending =>
    (pending.map fun op => decode T (w.block op.inner).bytes op.len).flatten
  | _, @Nbis.vecOp _ _ pending => pending.map fun op => Pod.ofBytes (w.block op.inner).bytes
  | _, .unit => ()
  | _, .tuple _ components => fun i => (components i).held w

/-- `after_quiet` uses up all pending operations of a value, and no other, and
returns what their buffers hold. -/
theorem afterQuiet_takes {A : Type} {w : World P} (nbis : Nbis A) (nodup : nbis.blocks.Nodup) :
    Takes w nbis.blocks nbis.afterQuiet (nbis.held w) := by
  induction nbis with
  | op pending => exact takes_op
  | slice pending => exact takes_slice pending
  | vecSlice pending =>
    have blocks_eq : (Nbis.vecSlice pending).blocks = pending.map (·.inner) := by
      simp [blocks, ops, Function.comp_def]
    rw [blocks_eq] at nodup ⊢
    exact (takes_inOrder (fun op _ => takes_part) nodup).map List.flatten
  | vecOp pending =>
    have blocks_eq : (Nbis.vecOp pending).blocks = pending.map (·.inner) := by
      simp [blocks, ops, Function.comp_def]
    rw [blocks_eq] at nodup ⊢
    exact takes_inOrder (fun op _ => takes_op) nodup
  | unit => exact takes_pure w ()
  | tuple arity components ih =>
    have blocks_eq : (Nbis.tuple arity components).blocks =
        (List.ofFn fun i => (components i).blocks).flatten := by
      simp [blocks, ops, List.map_flatten, List.map_ofFn, Function.comp_def]
    rw [blocks_eq] at nodup ⊢
    refine takes_inTuple (fun i => ih i ?_) nodup
    rw [List.nodup_flatten] at nodup
    exact nodup.1 _ (List.mem_ofFn.mpr ⟨i, rfl⟩)

end Nbis

end OpenShmem
