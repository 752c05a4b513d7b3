import OpenShmem.Machine
import OpenShmem.Shmalloc

/-! Allocation histories of a `Shmallocator`: any sequence of its methods and of the
constructors built on them, each with a library of its own which answers as specified. -/
namespace OpenShmem

/-- `Layout::array`, with `none` for its overflow. -/
def Layout.array (elem : Layout) (len : Usize) : Option Layout :=
  if fits : elem.size * len.toNat + (elem.align.toNat - 1) ≤ isizeMax then
    some ⟨elem.size * len.toNat, elem.align, fits⟩
  else none

/-- The address of a box which needs no block. -/
def NonNull.dangling (align : Alignment) : NonNull := ⟨align.toNat, align.pos⟩

inductive Failure where
  | capacityOverflow
  | handleAllocError
  deriving DecidableEq, Repr

namespace Shmallocator

variable (lib : Library)

/-- A box over the block a request returns. None is requested for a layout of size 0. -/
def boxed (layout : Layout) (request : StateM Heap (Except AllocError NonNullSlice)) :
    StateM Heap (Except Failure NonNull) := do
  if layout.size = 0 then
    return .ok (.dangling layout.align)
  match ← request with
  | .ok slice => return .ok slice.ptr
  | .error _ => return .error .handleAllocError

theorem boxed_dangling {layout : Layout}
    {request : StateM Heap (Except AllocError NonNullSlice)} {heap : Heap}
    (empty : layout.size = 0) :
    (boxed layout request).run heap = (.ok (.dangling layout.align), heap) := by
  rw [boxed, if_pos empty]
  rfl

theorem boxed_request {layout : Layout}
    {request : StateM Heap (Except AllocError NonNullSlice)} {heap : Heap}
    (sized : layout.size ≠ 0) :
    (boxed layout request).run heap =
      match request.run heap with
      | (.ok slice, after) => (.ok slice.ptr, after)
      | (.error _, after) => (.error .handleAllocError, after) := by
  rw [boxed, if_neg sized]
  simp only [StateT.run_bind]
  cases request.run heap with
  | mk result after => cases result <;> rfl

/-- `Box::new_zeroed_slice_in(len, self)`. -/
def newZeroedSliceIn (elem : Layout) (len : Usize) : StateM Heap (Except Failure NonNull) :=
  match elem.array len with
  | some layout => boxed layout (allocateZeroed lib layout)
  | none => return .error .capacityOverflow

/-! The allocations of the constructors. The elements are filled in place afterwards. -/

def arrayDefault (elem : Layout) (len : Usize) : StateM Heap (Except Failure NonNull) :=
  newZeroedSliceIn lib elem len

def arrayGen (elem : Layout) (len : Usize) : StateM Heap (Except Failure NonNull) :=
  newZeroedSliceIn lib elem len

def array (elem : Layout) (len : Usize) : StateM Heap (Except Failure NonNull) :=
  newZeroedSliceIn lib elem len

/-- `Box::new_in(t, self)`. -/
def shbox (layout : Layout) : StateM Heap (Except Failure NonNull) :=
  boxed layout (allocate lib layout)

end Shmallocator

inductive ArrayConstructor where
  | arrayDefault
  | arrayGen
  | array
  deriving DecidableEq, Repr

def ArrayConstructor.run : ArrayConstructor → Library → Layout → Usize →
    StateM Heap (Except Failure NonNull)
  | .arrayDefault => Shmallocator.arrayDefault
  | .arrayGen => Shmallocator.arrayGen
  | .array => Shmallocator.array

/-- The sizes a resize may ask for. -/
def Resize.Allows : Resize → Layout → Layout → Prop
  | .grow, old, new => old.size ≤ new.size
  | .shrink, old, new => new.size ≤ old.size

/-- `layouts` has the blocks which were returned and are live, each with its current
layout, and `shboxes` all boxes which were built. `clashed` remembers whether a block was
ever returned at the address of one which was still live. -/
structure History where
  heap : Heap
  layouts : Nat → Option Layout
  shboxes : List (NonNull × Alignment)
  clashed : Bool

namespace History

inductive Event where
  | allocate (lib : Library) (layout : Layout)
  | allocateZeroed (lib : Library) (layout : Layout)
  | resize (method : Resize) (lib : Library) (ptr : NonNull) (new : Layout)
  | deallocate (ptr : NonNull)
  | shbox (lib : Library) (layout : Layout)
  | array (method : ArrayConstructor) (lib : Library) (elem : Layout) (len : Usize)

def enabled (fundamental : Alignment) (s : History) : Event → Prop
  | .allocate lib layout | .allocateZeroed lib layout =>
    lib.Conforms fundamental s.heap ∧ layout.size ≠ 0
  | .resize method lib ptr new => lib.Conforms fundamental s.heap ∧ new.size ≠ 0 ∧
    ∃ old, s.layouts ptr.addr = some old ∧ method.Allows old new
  | .deallocate ptr => ∃ layout, s.layouts ptr.addr = some layout
  | .shbox lib _ | .array _ lib _ _ => lib.Conforms fundamental s.heap

/-- The block at `ptr`, if there is one, is the caller's no more. -/
def without (s : History) (ptr : NonNull) : History :=
  { s with layouts := Function.update s.layouts ptr.addr none }

/-- A request has come back: on success the caller has a block of this layout. -/
def returned (s : History) (layout : Layout) : Except AllocError NonNullSlice × Heap → History
  | (.ok slice, heap) => { s with
    heap
    layouts := Function.update s.layouts slice.ptr.addr (some layout)
    clashed := s.clashed || (s.layouts slice.ptr.addr).isSome }
  | (.error _, heap) => { s with heap }

def resized (s : History) (ptr : NonNull) (new : Layout) :
    Except AllocError NonNullSlice × Heap → History
  | (.ok slice, heap) => (s.without ptr).returned new (.ok slice, heap)
  | (.error _, heap) => { s with heap }

/-- A constructor has come back: its box has a block unless the layout has size 0. -/
def built (s : History) (layout : Layout) : Except Failure NonNull × Heap → History
  | (.ok ptr, heap) =>
    let next := if layout.size = 0 then { s with heap }
      else s.returned layout (.ok ⟨ptr, layout.size⟩, heap)
    { next with shboxes := s.shboxes ++ [(ptr, layout.align)] }
  | (.error _, heap) => { s with heap }

def next (s : History) : Event → History
  | .allocate lib layout => s.returned layout ((Shmallocator.allocate lib layout).run s.heap)
  | .allocateZeroed lib layout =>
    s.returned layout ((Shmallocator.allocateZeroed lib layout).run s.heap)
  | .resize method lib ptr new =>
    match s.layouts ptr.addr with
    | some old => s.resized ptr new ((method.run lib ptr old new).run s.heap)
    | none => s
  | .deallocate ptr =>
    match s.layouts ptr.addr with
    | some layout =>
      { s.without ptr with heap := ((Shmallocator.deallocate ptr layout).run s.heap).2 }
    | none => s
  | .shbox lib layout => s.built layout ((Shmallocator.shbox lib layout).run s.heap)
  | .array method lib elem len =>
    match elem.array len with
    | some layout => s.built layout ((method.run lib elem len).run s.heap)
    | none => { s with heap := ((method.run lib elem len).run s.heap).2 }

def machine (fundamental : Alignment) : Machine History Event := ⟨enabled fundamental, next⟩

def start (heap : Heap) : History := ⟨heap, fun _ => none, [], false⟩

/-- What holders of blocks and boxes rely on. -/
structure Sound (s : History) : Prop where
  sized : ∀ p layout, s.layouts p = some layout →
    ∃ cells, s.heap p = some cells ∧ layout.size ≤ cells.length
  aligned : ∀ p layout, s.layouts p = some layout → layout.align.toNat ∣ p
  apart : ∀ p q a b, p ≠ q → s.layouts p = some a → s.layouts q = some b →
    Blocks.Apart p a.size q b.size
  unclashed : s.clashed = false
  boxes : ∀ box ∈ s.shboxes, box.2.toNat ∣ box.1.addr

/-- The layouts of the requests which go to the routines without an alignment. -/
def Asks (allowed : Layout → Prop) (_s : History) : Event → Prop
  | .allocateZeroed _ layout | .resize _ _ _ layout => allowed layout
  | .array _ _ elem len => ∀ layout, elem.array len = some layout → allowed layout
  | .allocate _ _ | .deallocate _ | .shbox _ _ => True

/-! ### What every call keeps -/

variable {fundamental : Alignment} {allowed : Layout → Prop} {s : History}

/-- The block of a layout at `p`: live, not empty, with exactly the bytes of the layout
and at an address of its alignment. -/
structure Holds (heap : Heap) (p : Nat) (layout : Layout) : Prop where
  live : ∃ cells, heap p = some cells ∧ cells.length = layout.size
  sized : layout.size ≠ 0
  aligned : layout.align.toNat ∣ p

/-- Every block the caller has is held in a heap of separate blocks. -/
structure Kept (s : History) : Prop where
  separate : s.heap.Separate
  held : ∀ p layout, s.layouts p = some layout → Holds s.heap p layout
  unclashed : s.clashed = false
  boxes : ∀ box ∈ s.shboxes, box.2.toNat ∣ box.1.addr

theorem Kept.sound (kept : s.Kept) : s.Sound := by
  constructor
  · intro p layout has
    obtain ⟨cells, live, length⟩ := (kept.held p layout has).live
    exact ⟨cells, live, Nat.le_of_eq length.symm⟩
  · intro p layout has
    exact (kept.held p layout has).aligned
  · intro p q a b different first second
    obtain ⟨cells, live, length⟩ := (kept.held p a first).live
    obtain ⟨cells', live', length'⟩ := (kept.held q b second).live
    rw [← length, ← length']
    exact kept.separate p q cells cells' different live live'
  · exact kept.unclashed
  · exact kept.boxes

theorem kept_start {heap : Heap} (separate : heap.Separate) : (start heap).Kept := by
  refine ⟨separate, ?_, rfl, ?_⟩
  · intro p layout has
    cases has
  · intro box member
    cases member

/-- A fresh block is not at the address of a block the caller has. -/
theorem Kept.unused (kept : s.Kept) {alignment size : Nat} {reply : Reply}
    (fresh : reply.Fresh s.heap alignment size) (sized : size ≠ 0) :
    s.layouts reply.ptr.addr = none := by
  cases has : s.layouts reply.ptr.addr with
  | none => rfl
  | some layout =>
    have holds := kept.held _ layout has
    obtain ⟨cells, live, length⟩ := holds.live
    have nonempty : cells.length ≠ 0 := by rw [length]; exact holds.sized
    exact absurd rfl (fresh.elsewhere sized live nonempty)

/-- A fresh block for a layout whose alignment divides that of the request. -/
theorem Kept.granted (kept : s.Kept) {alignment : Nat} {layout : Layout} {reply : Reply}
    (fresh : reply.Fresh s.heap alignment layout.size) (sized : layout.size ≠ 0)
    (aligned : layout.align.toNat ∣ alignment) :
    (s.returned layout (.ok ⟨reply.ptr, layout.size⟩,
      s.heap.allocate reply.ptr.addr reply.cells)).Kept := by
  refine ⟨kept.separate.allocate (by rw [fresh.length]; exact fresh.free), ?_, ?_, kept.boxes⟩
  · intro p other has
    by_cases new : p = reply.ptr.addr
    · subst new
      simp only [returned, Function.update_self, Option.some.injEq] at has
      subst has
      exact ⟨⟨reply.cells, Blocks.allocate_self, fresh.length⟩, sized,
        Nat.dvd_trans aligned fresh.aligned⟩
    · simp only [returned, Function.update_of_ne new] at has
      have holds := kept.held p other has
      exact ⟨by simpa only [returned, Blocks.allocate_other new] using holds.live, holds.sized,
        holds.aligned⟩
  · simp only [returned, kept.unused fresh sized, kept.unclashed]
    rfl

theorem Kept.released (kept : s.Kept) (ptr : NonNull) :
    Kept { s.without ptr with heap := s.heap.release ptr.addr } := by
  refine ⟨kept.separate.release ptr.addr, ?_, kept.unclashed, kept.boxes⟩
  intro p layout has
  by_cases gone : p = ptr.addr
  · subst gone
    simp [without] at has
  · simp only [without, Function.update_of_ne gone] at has
    have holds := kept.held p layout has
    exact ⟨by simpa only [Blocks.release_other gone] using holds.live, holds.sized, holds.aligned⟩

theorem Kept.returned (kept : s.Kept) {alignment : Nat} {layout : Layout}
    {result : Except AllocError NonNullSlice × Heap}
    (allocated : Shmallocator.Allocated alignment layout.size s.heap result)
    (sized : layout.size ≠ 0) (aligned : layout.align.toNat ∣ alignment) :
    (s.returned layout result).Kept := by
  cases allocated with
  | refused => exact ⟨kept.separate, kept.held, kept.unclashed, kept.boxes⟩
  | granted reply fresh => exact kept.granted fresh sized aligned

theorem Kept.resized (kept : s.Kept) {ptr : NonNull} {new : Layout}
    {result : Except AllocError NonNullSlice × Heap}
    (resized : Shmallocator.Resized fundamental ptr new.size s.heap result)
    (sized : new.size ≠ 0) (aligned : new.align.toNat ∣ fundamental.toNat) :
    (s.resized ptr new result).Kept := by
  cases resized with
  | refused => exact ⟨kept.separate, kept.held, kept.unclashed, kept.boxes⟩
  | granted reply answers => exact (kept.released ptr).granted answers.1 sized aligned

theorem Kept.box (kept : s.Kept) {ptr : NonNull} {align : Alignment}
    (aligned : align.toNat ∣ ptr.addr) :
    Kept { s with shboxes := s.shboxes ++ [(ptr, align)] } := by
  refine ⟨kept.separate, kept.held, kept.unclashed, ?_⟩
  intro box member
  rcases List.mem_append.mp member with older | newest
  · exact kept.boxes box older
  · obtain rfl := List.mem_singleton.mp newest
    exact aligned

/-- A box which is built stands at an address of its alignment, with or without a block. -/
theorem Kept.built (kept : s.Kept) {alignment : Nat} {layout : Layout}
    {request : StateM Heap (Except AllocError NonNullSlice)}
    (allocated : Shmallocator.Allocated alignment layout.size s.heap (request.run s.heap))
    (aligned : layout.size ≠ 0 → layout.align.toNat ∣ alignment) :
    (s.built layout ((Shmallocator.boxed layout request).run s.heap)).Kept := by
  by_cases empty : layout.size = 0
  · rw [Shmallocator.boxed_dangling empty]
    simp only [History.built, if_pos empty]
    exact kept.box (Nat.dvd_refl _)
  · rw [Shmallocator.boxed_request empty]
    have block := kept.returned allocated empty (aligned empty)
    generalize request.run s.heap = result at allocated block ⊢
    cases allocated with
    | refused => exact block
    | granted reply fresh =>
      simp only [History.built, if_neg empty]
      exact block.box (Nat.dvd_trans (aligned empty) fresh.aligned)

theorem array_run (method : ArrayConstructor) (lib : Library) (elem : Layout) (len : Usize) :
    method.run lib elem len = Shmallocator.newZeroedSliceIn lib elem len := by
  cases method <;> rfl

/-- One call of the allocator or of a constructor. -/
theorem Kept.step
    (enough : ∀ layout, allowed layout → layout.size ≠ 0 →
      layout.align.toNat ∣ fundamental.toNat)
    (s : History) (e : Event) (kept : s.Kept)
    (fires : ((machine fundamental).under (Asks allowed)).enabled s e) :
    Kept ((machine fundamental).next s e) := by
  obtain ⟨fires, asks⟩ := fires
  cases e with
  | allocate lib layout =>
    exact kept.returned (Shmallocator.allocate_allocated fires.1) fires.2 (Nat.dvd_refl _)
  | allocateZeroed lib layout =>
    exact kept.returned (Shmallocator.allocateZeroed_allocated fires.1) fires.2
      (enough layout asks fires.2)
  | resize method lib ptr new =>
    obtain ⟨conforms, sized, old, live, _⟩ := fires
    simp only [machine, next, live, resize_eq_grow]
    exact kept.resized (Shmallocator.grow_resized conforms sized) sized (enough new asks sized)
  | deallocate ptr =>
    obtain ⟨layout, live⟩ := fires
    simp only [machine, next, live]
    exact kept.released ptr
  | shbox lib layout =>
    exact kept.built (Shmallocator.allocate_allocated fires) fun _ => Nat.dvd_refl _
  | array method lib elem len =>
    simp only [machine, next, array_run, Shmallocator.newZeroedSliceIn]
    cases fits : elem.array len with
    | none => exact ⟨kept.separate, kept.held, kept.unclashed, kept.boxes⟩
    | some layout =>
      exact kept.built (Shmallocator.allocateZeroed_allocated fires)
        (enough layout (asks layout fits))

/-! ### Blocks a history leaves alone -/

/-- The event neither frees nor resizes the block at `ptr`. -/
def Spares (ptr : NonNull) (_s : History) : Event → Prop
  | .deallocate other | .resize _ _ other _ => other.addr ≠ ptr.addr
  | .allocate _ _ | .allocateZeroed _ _ | .shbox _ _ | .array _ _ _ _ => True

@[simp] theorem returned_heap (layout : Layout) (result : Except AllocError NonNullSlice × Heap) :
    (s.returned layout result).heap = result.2 := by
  obtain ⟨result, heap⟩ := result
  cases result <;> rfl

@[simp] theorem resized_heap (ptr : NonNull) (new : Layout)
    (result : Except AllocError NonNullSlice × Heap) : (s.resized ptr new result).heap = result.2 := by
  obtain ⟨result, heap⟩ := result
  cases result <;> rfl

@[simp] theorem built_heap (layout : Layout) (result : Except Failure NonNull × Heap) :
    (s.built layout result).heap = result.2 := by
  obtain ⟨result, heap⟩ := result
  cases result with
  | error failure => rfl
  | ok ptr =>
    simp only [built]
    split <;> rfl

section

variable {ptr : NonNull} {cells : List UInt8}

theorem boxed_stays {p alignment : Nat} {layout : Layout} {heap : Heap}
    {request : StateM Heap (Except AllocError NonNullSlice)}
    (allocated : Shmallocator.Allocated alignment layout.size heap (request.run heap))
    (live : heap p = some cells) (nonempty : cells.length ≠ 0) :
    ((Shmallocator.boxed layout request).run heap).2 p = some cells := by
  by_cases empty : layout.size = 0
  · rw [Shmallocator.boxed_dangling empty]
    exact live
  · rw [Shmallocator.boxed_request empty]
    have kept := allocated.stays empty live nonempty
    generalize request.run heap = result at kept ⊢
    obtain ⟨result, after⟩ := result
    cases result <;> exact kept

/-- An event which spares a block keeps it as it is. -/
theorem spares_step (nonempty : cells.length ≠ 0) (s : History) (e : Event)
    (live : s.heap ptr.addr = some cells)
    (fires : ((machine fundamental).under (Spares ptr)).enabled s e) :
    ((machine fundamental).next s e).heap ptr.addr = some cells := by
  obtain ⟨fires, spares⟩ := fires
  cases e with
  | allocate lib layout =>
    simp only [machine, next, returned_heap]
    exact (Shmallocator.allocate_allocated fires.1).stays fires.2 live nonempty
  | allocateZeroed lib layout =>
    simp only [machine, next, returned_heap]
    exact (Shmallocator.allocateZeroed_allocated fires.1).stays fires.2 live nonempty
  | resize method lib other new =>
    obtain ⟨conforms, sized, old, held, _⟩ := fires
    simp only [machine, next, held, resize_eq_grow, resized_heap]
    exact (Shmallocator.grow_resized conforms sized).stays sized spares live nonempty
  | deallocate other =>
    obtain ⟨layout, held⟩ := fires
    simp only [machine, next, held]
    exact (Blocks.release_other (Ne.symm spares)).trans live
  | shbox lib layout =>
    simp only [machine, next, built_heap]
    exact boxed_stays (Shmallocator.allocate_allocated fires) live nonempty
  | array method lib elem len =>
    simp only [machine, next, array_run, Shmallocator.newZeroedSliceIn]
    cases fits : elem.array len with
    | none => exact live
    | some layout =>
      simp only [built_heap]
      exact boxed_stays (Shmallocator.allocateZeroed_allocated fires) live nonempty

/-- So does a whole run. -/
theorem spares_run (nonempty : cells.length ≠ 0) {s : History} {events : List Event}
    (live : s.heap ptr.addr = some cells)
    (run : ((machine fundamental).under (Spares ptr)).Admits s events) :
    ((machine fundamental).after s events).heap ptr.addr = some cells := by
  have kept : (fun s : History => s.heap ptr.addr = some cells)
      ((machine fundamental).after s events) :=
    Machine.invariant _ (spares_step nonempty) live run
  exact kept

end

/-! ### Zeroed blocks of more than the fundamental alignment -/

/-- A library which puts every zeroed block at the first address it may. -/
def lowest (fundamental : Alignment) : Library
  | .calloc count size => some ⟨.dangling fundamental, List.replicate (count * size) 0⟩
  | _ => none

theorem lowest_conforms (fundamental : Alignment) :
    (lowest fundamental).Conforms fundamental Blocks.empty := by
  intro request reply answered
  unfold lowest at answered
  split at answered
  · cases answered
    exact ⟨⟨Nat.dvd_refl _, List.length_replicate .., Blocks.free_empty⟩,
      fun cell member => List.eq_of_mem_replicate member⟩
  · cases answered

theorem lowest_layouts (fundamental : Alignment) (layout : Layout) :
    ((start Blocks.empty).next
      (.allocateZeroed (lowest fundamental) layout)).layouts fundamental.toNat = some layout := by
  rw [next, Shmallocator.allocateZeroed, shmemCalloc, Shmallocator.answer_run]
  exact Function.update_self ..

end History

/-- Which layouts a program may use where the library is not told the alignment, so
that all its blocks and boxes stay as large as, aligned as and apart from one another
as they have to be in every history: those up to the fundamental alignment. -/
theorem live_blocks_iff (fundamental : Alignment) (allowed : Layout → Prop) :
    (∀ heap : Heap, heap.Separate → ∀ events,
      ((History.machine fundamental).under (History.Asks allowed)).Admits
        (History.start heap) events →
      ((History.machine fundamental).after (History.start heap) events).Sound) ↔
    ∀ layout, allowed layout → layout.size ≠ 0 →
      layout.align.toNat ≤ fundamental.toNat := by
  simp only [← Alignment.dvd_iff]
  constructor
  · intro sound layout asked sized
    have after := sound Blocks.empty Blocks.separate_empty
      [.allocateZeroed (History.lowest fundamental) layout]
      ⟨⟨⟨History.lowest_conforms fundamental, sized⟩, asked⟩, trivial⟩
    exact after.aligned _ layout (History.lowest_layouts fundamental layout)
  · intro enough heap separate events run
    exact (Machine.invariant _ (History.Kept.step enough) (History.kept_start separate) run).sound

/-- An array of one element of 64 bytes, aligned to 64, in a library which aligns to 16. -/
theorem array_misaligned :
    ¬ ∀ events, (History.machine ⟨16, 4, rfl⟩).Admits (History.start Blocks.empty) events →
      ((History.machine ⟨16, 4, rfl⟩).after (History.start Blocks.empty) events).Sound := by
  intro sound
  have after := sound [.array .array (History.lowest ⟨16, 4, rfl⟩)
    ⟨64, ⟨64, 6, rfl⟩, by decide⟩ 1] ⟨History.lowest_conforms _, trivial⟩
  exact absurd (after.boxes _ (.head _)) (by decide)

end OpenShmem
