import OpenShmem.NbiRuns

/-! How long the buffers of non-blocking gets live: runs of one PE in which the caller
may also drop pending operations. Their `Drop` panics, and the fields are dropped after
that, which frees the buffer whether or not its transfer is complete. -/
namespace OpenShmem

open Overlay

variable {P : Nat} {T : Type} [Pod T] {w : World P}

/-- The body of `drop` panics, and unwinding from it drops the field `inner`. -/
def dropPending (p : Panic) (inner : Nat) : Shmem P Unit := ⟨fun w =>
  .panic p (w.modifyBlock inner Block.free)⟩

def PendingNbiOp.drop (self : PendingNbiOp T) : Shmem P Unit := dropPending .nbiOpDropped self.inner

def PendingNbiSliceOp.drop (self : PendingNbiSliceOp T) : Shmem P Unit :=
  dropPending .nbiSliceOpDropped self.inner

/-- A running PE, or one whose process has aborted. -/
structure Lifetime (P : Nat) : Type 1 where
  running : Running P
  aborted : Bool

namespace Lifetime

inductive Event (P : Nat) : Type 1 where
  | step (e : Running.Event P)
  | dropNbiOp {T : Type} [Pod T] (pending : PendingNbiOp T)
  | dropNbiSliceOp {T : Type} [Pod T] (pending : PendingNbiSliceOp T)

def owns (s : Lifetime P) (inner : Nat) (owner : Owner) : Prop :=
  (s.running.world.block inner).owner = some owner

def enabled (s : Lifetime P) (e : Event P) : Prop :=
  s.aborted = false ∧
    match e with
    | .step e => s.running.enabled e
    | @Event.dropNbiOp _ _ _ pending => s.owns pending.inner .nbiOp
    | @Event.dropNbiSliceOp _ _ _ pending => s.owns pending.inner .nbiSliceOp

/-- Drops run while another panic unwinds too. The panic of such a drop aborts the process
where it would get out of the drop, and its field has been dropped by then. -/
def dropped (s : Lifetime P) (drop : Shmem P Unit) : Lifetime P where
  running := s.running.settle (fun _ => []) (drop.run s.running.world)
  aborted := s.running.unwinding

def next (build : Build) (s : Lifetime P) : Event P → Lifetime P
  | .step e => { s with running := s.running.next build e }
  | @Event.dropNbiOp _ _ _ pending => s.dropped pending.drop
  | @Event.dropNbiSliceOp _ _ _ pending => s.dropped pending.drop

def machine (P : Nat) (build : Build) : Machine (Lifetime P) (Event P) := ⟨enabled, next build⟩

def start (mem : Fin P → Nat → UInt8) (garbage : Nat → UInt8) : Lifetime P :=
  ⟨Running.start mem garbage, false⟩

/-- Nothing is still to arrive in the block. -/
def Arrived (w : World P) (inner : Nat) : Prop :=
  ∀ get ∈ w.gets, get.dest = inner → get.nbytes = 0

/-- A pending operation is only dropped once its data has arrived. -/
def Completed (s : Lifetime P) : Event P → Prop
  | .step _ => True
  | @Event.dropNbiOp _ _ _ pending => Arrived s.running.world pending.inner
  | @Event.dropNbiSliceOp _ _ _ pending => Arrived s.running.world pending.inner

end Lifetime

/-- The buffer of every get in flight is still allocated. -/
def World.Allocated (w : World P) : Prop :=
  ∀ get ∈ w.gets, ∃ block, w.heap[get.dest]? = some block ∧ block.frees = 0

/-! ### Buffers in flight -/

/-- The block waits for all of its bytes, and belongs to a pending operation if it has any. -/
structure Block.Awaits (block : Block) (nbytes : Nat) : Prop where
  kept : block.frees = 0
  length : block.bytes.length = nbytes
  pending : nbytes ≠ 0 → block.owner = some .nbiOp ∨ block.owner = some .nbiSliceOp

def World.Awaited (w : World P) : Prop :=
  ∀ get ∈ w.gets, ∃ block, w.heap[get.dest]? = some block ∧ block.Awaits get.nbytes

theorem World.Awaited.allocated (awaited : w.Awaited) : w.Allocated := by
  intro get flying
  obtain ⟨block, found, awaits⟩ := awaited get flying
  exact ⟨block, found, awaits.kept⟩

theorem Block.Awaits.receive {block : Block} {nbytes : Nat} (awaits : block.Awaits nbytes)
    (cells : List UInt8) (fits : cells.length ≤ block.bytes.length) :
    (block.receive cells).Awaits nbytes := by
  refine ⟨awaits.kept, ?_, awaits.pending⟩
  have length := awaits.length
  simp only [Block.receive, List.length_append, List.length_take, List.length_drop]
  omega

/-- A box without bytes has nothing to release. -/
theorem Block.Awaits.free {block : Block} (awaits : block.Awaits 0) : block.free.Awaits 0 := by
  have empty : block.bytes = [] := List.eq_nil_of_length_eq_zero awaits.length
  refine ⟨?_, awaits.length, fun sized => absurd rfl sized⟩
  simp [Block.free, empty, awaits.kept]

theorem World.Awaited.requested (awaited : w.Awaited) {owner : Owner}
    (pending : owner = .nbiOp ∨ owner = .nbiSliceOp) (pe : Fin P) (remote nbytes : Nat) :
    (PEReference.requested w owner pe remote nbytes).Awaited := by
  intro get flying
  rcases List.mem_append.mp flying with older | newest
  · obtain ⟨block, found, awaits⟩ := awaited get older
    have bound := (List.getElem?_eq_some_iff.mp found).1
    exact ⟨block, (List.getElem?_append_left bound).trans found, awaits⟩
  · obtain rfl := List.mem_singleton.mp newest
    refine ⟨_, List.getElem?_concat_length, rfl, by simp, ?_⟩
    intro _
    simpa using pending

/-- Only the gets to a block care how it changes. -/
theorem World.Awaited.modifyBlock (awaited : w.Awaited) {d : Nat} {change : Block → Block}
    (changes : ∀ get ∈ w.gets, get.dest = d → ∀ block, w.heap[d]? = some block →
      block.Awaits get.nbytes → (change block).Awaits get.nbytes) :
    (w.modifyBlock d change).Awaited := by
  intro get flying
  obtain ⟨block, found, awaits⟩ := awaited get flying
  by_cases same : get.dest = d
  · rw [same] at found
    exact ⟨change block, by simp [World.modifyBlock, same, found],
      changes get flying same block found awaits⟩
  · exact ⟨block, by simp [World.modifyBlock, Ne.symm same, found], awaits⟩

theorem World.Awaited.fewer (awaited : w.Awaited) {gets : List (Get P)}
    (fewer : ∀ get ∈ gets, get ∈ w.gets) : World.Awaited { w with gets } :=
  fun get flying => awaited get (fewer get flying)

theorem World.Awaited.deliver (awaited : w.Awaited) (k : Nat) : (w.deliverGet k).Awaited := by
  unfold World.deliverGet
  cases chosen : w.gets[k]? with
  | none => exact awaited
  | some arriving =>
    refine World.Awaited.fewer (w := w.modifyBlock arriving.dest
      (·.receive (window (w.mem arriving.pe) arriving.remote arriving.nbytes)))
      (awaited.modifyBlock ?_) fun get => List.mem_of_mem_eraseIdx
    intro get flying same block found awaits
    obtain ⟨block', found', awaits'⟩ := awaited arriving (List.mem_of_getElem? chosen)
    cases found.symm.trans found'
    exact awaits.receive _ (by simp [awaits'.length])

/-- Freeing a block to which nothing is still to arrive. -/
theorem World.Awaited.free (awaited : w.Awaited) {d : Nat} (arrived : Lifetime.Arrived w d) :
    (w.modifyBlock d Block.free).Awaited := by
  apply awaited.modifyBlock
  intro get flying same block _ awaits
  rw [arrived get flying same] at awaits ⊢
  exact awaits.free

theorem World.Awaited.dropBox (awaited : w.Awaited) {d : Nat}
    (boxed : (w.block d).owner = some .boxed) : (w.modifyBlock d Block.free).Awaited := by
  apply awaited.free
  rintro get flying rfl
  obtain ⟨block, found, awaits⟩ := awaited get flying
  rw [World.block_some found] at boxed
  by_contra sized
  simpa [boxed] using awaits.pending sized

/-- After `quiet` nothing is in flight. -/
theorem awaited_quiet {A : Type} {next : World P} {order : List Nat} {nbis : Nbis A}
    (consumed : Consumed nbis.blocks (w.quiet order) next) : next.Awaited := by
  intro get flying
  rw [consumed.kept] at flying
  rw [World.quiet_gets] at flying
  cases flying

namespace Lifetime

variable {build : Build} {s : Lifetime P}

theorem called_keeps {s after : Running P} (awaited : s.world.Awaited)
    (called : Running.Called build s after) : after.world.Awaited := by
  cases called with
  | panicked => exact awaited
  | requested owner pending pe remote nbytes r asks found =>
    exact awaited.requested pending pe remote nbytes

theorem running_step (s : Running P) (e : Running.Event P) (awaited : s.world.Awaited)
    (fires : s.enabled e) : (s.next build e).world.Awaited := by
  cases e with
  | getSingleNbi self shbox idx =>
    exact called_keeps awaited (Running.called_getSingleNbi build s self shbox idx)
  | readNbi self shbox range =>
    exact called_keeps awaited (Running.called_readNbi build s self shbox range)
  | deliver k => exact awaited.deliver k
  | quiet order nbis =>
    obtain ⟨w, result, consumed⟩ := Running.ctxQuiet_run order nbis s.world fires.2.nodup
    simp only [Running.next, result, Running.settle]
    exact awaited_quiet consumed
  | dropBox d => exact awaited.dropBox fires
  | catchUnwind => exact awaited
  | store mem => exact awaited

/-- Both kinds of pending operations are dropped alike. -/
theorem dropped_keeps (awaited : s.running.world.Awaited) (p : Panic) {inner : Nat}
    (arrived : Arrived s.running.world inner) :
    (s.dropped (dropPending p inner)).running.world.Awaited := awaited.free arrived

theorem step (s : Lifetime P) (e : Event P) (awaited : s.running.world.Awaited)
    (fires : ((machine P build).under Completed).enabled s e) :
    ((machine P build).next s e).running.world.Awaited := by
  obtain ⟨⟨_, fires⟩, completed⟩ := fires
  cases e with
  | step e => exact running_step s.running e awaited fires
  | dropNbiOp pending => exact dropped_keeps awaited _ completed
  | dropNbiSliceOp pending => exact dropped_keeps awaited _ completed

end Lifetime

/-- While pending operations are only dropped after their data has arrived, no buffer
is freed under a get in flight. -/
theorem buffers_outlive (P : Nat) (build : Build) (mem : Fin P → Nat → UInt8)
    (garbage : Nat → UInt8) {events : List (Lifetime.Event P)}
    (run : ((Lifetime.machine P build).under Lifetime.Completed).Admits
      (Lifetime.start mem garbage) events) :
    ((Lifetime.machine P build).after (Lifetime.start mem garbage) events).running.world.Allocated := by
  have initial : (Lifetime.start mem garbage).running.world.Awaited := by
    intro get flying
    cases flying
  have awaited : ((Lifetime.machine P build).after (Lifetime.start mem garbage)
      events).running.world.Awaited :=
    ((Lifetime.machine P build).under Lifetime.Completed).invariant Lifetime.step initial run
  exact awaited.allocated

/-- A get of one byte. -/
def oneGet (self : PEReference 2) : Lifetime.Event 2 :=
  .step (.getSingleNbi self pairOfBytes 0)

def droppedOp (inner : Nat) : Lifetime.Event 2 := .dropNbiOp (⟨inner⟩ : PendingNbiOp UInt8)

/-- Of three gets the last one is still in flight when the operations of the other two are
dropped, the second one by the panic of the first. -/
theorem buffers_outlive_delivered :
    ((Lifetime.machine 2 .debug).after (Lifetime.start (fun _ _ => 0) fun _ => 0)
      [oneGet ⟨⟨1⟩, by decide⟩, oneGet ⟨⟨1⟩, by decide⟩, oneGet ⟨⟨1⟩, by decide⟩, .step (.deliver 0),
        .step (.deliver 0), droppedOp 0, droppedOp 1]).running.world.Allocated := by
  refine buffers_outlive 2 .debug _ _ ⟨⟨⟨rfl, rfl⟩, trivial⟩, ⟨⟨rfl, rfl⟩, trivial⟩, ⟨⟨rfl, rfl⟩, trivial⟩,
    ⟨⟨rfl, Nat.zero_lt_succ 2⟩, trivial⟩, ⟨⟨rfl, Nat.zero_lt_succ 1⟩, trivial⟩, ⟨⟨rfl, rfl⟩, ?_⟩,
    ⟨⟨rfl, rfl⟩, ?_⟩, trivial⟩
  all_goals
    intro get flying elsewhere
    obtain rfl := List.mem_singleton.mp flying
    cases elsewhere

/-- Dropped at once, an operation frees its buffer before the network has filled it. -/
theorem drop_frees_in_flight :
    ¬ ∀ events, (Lifetime.machine 2 .debug).Admits (Lifetime.start (fun _ _ => 0) fun _ => 0) events →
      ((Lifetime.machine 2 .debug).after (Lifetime.start (fun _ _ => 0) fun _ => 0)
        events).running.world.Allocated := by
  intro allocated
  obtain ⟨block, found, kept⟩ := allocated [oneGet ⟨⟨1⟩, by decide⟩, droppedOp 0]
    ⟨⟨rfl, rfl⟩, ⟨rfl, rfl⟩, trivial⟩ _ (.head _)
  cases found
  exact absurd kept (by decide)

end OpenShmem
