import OpenShmem.NbiRuns

/-! The four ways to read a symmetric array, compared on every range: `read`,
`read_into`, `read_nbi` with `quiet`, and one `get_single_nbi` for each element. -/
namespace OpenShmem

open Overlay

variable {P : Nat} {T : Type} [Pod T] {α β : Type}

/-! ### A buffer of the caller -/

/-- Code which holds a `&mut [T]`: what it has stored there stays, whether it returns
or panics. -/
structure Borrowing (P : Nat) (T : Type) [Pod T] (α : Type) where
  run : Slice T → World P → Slice T × Outcome P α

instance : Monad (Borrowing P T) where
  pure a := ⟨fun into w => (into, .ok a w)⟩
  bind x f := ⟨fun into w =>
    match x.run into w with
    | (into, .ok a next) => (f a).run into next
    | (into, .panic p next) => (into, .panic p next)⟩

namespace Borrowing

/-- Code which has nothing to do with the buffer. -/
def lift (x : Shmem P α) : Borrowing P T α := ⟨fun into w => (into, x.run w)⟩

def buffer : Borrowing P T (Slice T) := ⟨fun into w => (into, .ok into w)⟩

/-- A foreign call stores `bytes` from the first byte of the buffer on. -/
def fill (bytes : List UInt8) : Borrowing P T Unit := ⟨fun into w => (into.receive bytes, .ok () w)⟩

end Borrowing

/-- `read_into`, with the caller's buffer as part of the state. -/
def PEReference.readIntoMut (build : Build) (self : PEReference P) (shbox : Shbox T)
    (range : RangeBounds) : Borrowing P T Unit := do
  let (start, bufferSize) ← .lift (attempt (resolve build range shbox.len))
  let into ← .buffer
  if into.len.toNat < bufferSize.toNat then
    .lift (attempt (.error .bufferTooSmall))
  let nbytes ← .lift (attempt (usizeMul build bufferSize (sizeOf T)))
  let bytes ← .lift (shmemGetmem (shbox.offset start) nbytes.toNat
    (into.elems.length * Pod.size T) self.target)
  .fill bytes

/-- The buffer is what `read_into` returns, or what it was given. -/
theorem readIntoMut_run (build : Build) (self : PEReference P) (shbox : Shbox T)
    (range : RangeBounds) (into : Slice T) (w : World P) :
    (self.readIntoMut build shbox range).run into w =
      match (self.readInto build shbox range into).run w with
      | .ok s next => (s, .ok () next)
      | .panic p next => (into, .panic p next) := by
  cases resolved : resolve build range shbox.len with
  | error p => simp [PEReference.readIntoMut, PEReference.readInto, resolved, bind, attempt, Borrowing.lift]
  | ok pair =>
    simp only [PEReference.readIntoMut, PEReference.readInto, resolved, bind, attempt,
      Borrowing.lift, Borrowing.buffer]
    by_cases short : into.len.toNat < pair.2.toNat
    · simp only [short, if_true]
    · simp only [short, if_false]
      cases usizeMul build pair.2 (sizeOf T) with
      | error p => rfl
      | ok nbytes => rfl

/-! ### What happens between a call and `quiet` -/

namespace Running

/-- No store of other code changes the memory of PE `q`. -/
def Still (q : Fin P) (s : Running P) : Event P → Prop
  | .store mem => mem q = s.world.mem q
  | _ => True

/-- What one step can do to the world, with the stores other code may do. -/
inductive Moved (stores : (Fin P → Nat → UInt8) → Prop) (w : World P) : World P → Prop
  | unchanged : Moved stores w w
  | requested (owner : Owner) (pe : Fin P) (remote nbytes : Nat) :
    Moved stores w (PEReference.requested w owner pe remote nbytes)
  | deliver (k : Nat) : Moved stores w (w.deliverGet k)
  | consumed {ds : List Nat} {next : World P} (consumed : Consumed ds w next) : Moved stores w next
  | quiet (order : List Nat) {ds : List Nat} {next : World P}
    (consumed : Consumed ds (w.quiet order) next) : Moved stores w next
  | store (mem : Fin P → Nat → UInt8) (stored : stores mem) : Moved stores w { w with mem }

variable {build : Build} {q : Fin P} {s : Running P} {w next : World P}
  {stores : (Fin P → Nat → UInt8) → Prop}

theorem Called.moved {after : Running P} (called : Called build s after) :
    Moved stores s.world after.world := by
  cases called with
  | requested owner _ pe remote nbytes => exact .requested owner pe remote nbytes
  | panicked => exact .unchanged

theorem moved_of_fires {e : Event P} (fires : s.enabled e)
    (stored : ∀ mem, e = .store mem → stores mem) :
    Moved stores s.world (s.next build e).world := by
  cases e with
  | getSingleNbi self shbox idx => exact (called_getSingleNbi build s self shbox idx).moved
  | readNbi self shbox range => exact (called_readNbi build s self shbox range).moved
  | deliver k => exact .deliver k
  | quiet order nbis =>
    obtain ⟨next, result, consumed⟩ := ctxQuiet_run order nbis s.world fires.2.nodup
    simp only [Running.next, result, settle]
    exact .quiet order consumed
  | dropBox d =>
    have freed : Consumed [d] s.world (s.world.modifyBlock d Block.free) :=
      .modifyBlock Block.free (fun _ => rfl) (fun _ => by simp [Block.free]) s.world d
    exact .consumed freed
  | catchUnwind => exact .unchanged
  | store mem => exact .store mem (stored mem rfl)

/-- The gets in flight have their blocks, and there were `n` blocks before. -/
structure Kept (n : Nat) (w : World P) : Prop where
  bounded : GetsBounded w
  grown : n ≤ w.heap.length

variable {n : Nat} {get : Get P} {cells : List UInt8}

theorem deliverGet_mem (w : World P) (k : Nat) : (w.deliverGet k).mem = w.mem := by
  unfold World.deliverGet
  split <;> rfl

theorem Kept.deliver (kept : Kept n w) (k : Nat) : Kept n (w.deliverGet k) := by
  refine ⟨kept.bounded.deliver k, ?_⟩
  unfold World.deliverGet
  split
  · simpa using kept.grown
  · exact kept.grown

theorem Kept.consumed {ds : List Nat} (kept : Kept n w) (consumed : Consumed ds w next) :
    Kept n next := by
  refine ⟨kept.bounded.consumed consumed, ?_⟩
  rw [consumed.heap_length]
  exact kept.grown

theorem Kept.moved (kept : Kept n w) (moved : Moved stores w next) : Kept n next := by
  cases moved with
  | unchanged => exact kept
  | requested owner pe remote nbytes =>
    refine ⟨kept.bounded.requested owner pe remote nbytes, ?_⟩
    exact Nat.le_trans kept.grown (by simp [PEReference.requested])
  | deliver k => exact kept.deliver k
  | consumed consumed => exact kept.consumed consumed
  | quiet order consumed =>
    exact (World.quiet_induction (Kept n) (fun w k kept => kept.deliver k) order kept).consumed
      consumed
  | store mem stored => exact ⟨kept.bounded, kept.grown⟩

theorem Moved.still (moved : Moved (fun mem => mem q = w.mem q) w next) : next.mem q = w.mem q := by
  cases moved with
  | unchanged => rfl
  | requested owner pe remote nbytes => rfl
  | deliver k => rw [deliverGet_mem]
  | consumed consumed => rw [consumed.kept]
  | quiet order consumed =>
    have quiet : (w.quiet order).mem = w.mem :=
      World.quiet_induction (·.mem = w.mem) (fun w' k same => (deliverGet_mem w' k).trans same)
        order rfl
    rw [consumed.kept, quiet]
  | store mem stored => exact stored

/-- A get from `q` keeps carrying its bytes. -/
theorem carries_moved (carries : Carries w get cells)
    (moved : Moved (fun mem => mem get.pe = w.mem get.pe) w next) : Carries next get cells := by
  cases moved with
  | unchanged => exact carries
  | requested owner pe remote nbytes => exact carries.requested owner pe remote nbytes
  | deliver k => exact carries.deliver k
  | consumed consumed => exact carries.consumed consumed
  | quiet order consumed =>
    exact (World.quiet_induction (Carries · get cells) (fun w k carries => carries.deliver k)
      order carries).consumed consumed
  | store mem stored =>
    refine carries.store fun _ => ?_
    rw [stored]

/-- What every step keeps of the world, a run keeps. -/
theorem still_keeps {inv : World P → Prop}
    (step : ∀ w next, inv w → Moved (fun mem => mem q = w.mem q) w next → inv next)
    (initial : inv s.world) {events : List (Event P)}
    (run : ((machine P build).under (Still q)).Admits s events) :
    inv ((machine P build).after s events).world := by
  have each (s : Running P) (e : Event P) (holds : inv s.world)
      (fires : ((machine P build).under (Still q)).enabled s e) :
      inv ((machine P build).next s e).world := by
    apply step _ _ holds
    apply moved_of_fires fires.1
    rintro mem rfl
    exact fires.2
  exact ((machine P build).under (Still q)).invariant each initial run

theorem carries_run (carries : Carries s.world get cells) {events : List (Event P)}
    (run : ((machine P build).under (Still get.pe)).Admits s events) :
    Carries ((machine P build).after s events).world get cells := by
  have step (w next : World P) (carries : Carries w get cells)
      (moved : Moved (fun mem => mem get.pe = w.mem get.pe) w next) : Carries next get cells :=
    carries_moved carries moved
  exact still_keeps step carries run

theorem kept_run (kept : Kept n s.world) {events : List (Event P)}
    (run : ((machine P build).under (Still q)).Admits s events) :
    Kept n ((machine P build).after s events).world := by
  have step (w next : World P) (kept : Kept n w)
      (moved : Moved (fun mem => mem q = w.mem q) w next) : Kept n next := kept.moved moved
  exact still_keeps step kept run

theorem still_run {events : List (Event P)}
    (run : ((machine P build).under (Still q)).Admits s events) :
    ((machine P build).after s events).world.mem q = s.world.mem q := by
  have step (w next : World P) (same : w.mem q = s.world.mem q)
      (moved : Moved (fun mem => mem q = w.mem q) w next) : next.mem q = s.world.mem q :=
    moved.still.trans same
  exact still_keeps step rfl run

/-- In every state a run reaches, the gets in flight have their blocks. -/
theorem reached_bounded {mem : Fin P → Nat → UInt8} {garbage : Nat → UInt8}
    {events : List (Event P)} (run : (machine P build).Admits (start mem garbage) events) :
    GetsBounded ((machine P build).after (start mem garbage) events).world := by
  have each (s : Running P) (e : Event P) (kept : Kept 0 s.world)
      (fires : (machine P build).enabled s e) : Kept 0 ((machine P build).next s e).world := by
    have moved : Moved (fun _ => True) s.world (s.next build e).world :=
      moved_of_fires fires fun _ _ => trivial
    exact kept.moved moved
  have initial : Kept 0 (start mem garbage).world := by
    refine ⟨?_, Nat.zero_le _⟩
    intro get flying
    cases flying
  exact ((machine P build).invariant each initial run).bounded

end Running

/-! ### The four ways -/

def Panics (x : Shmem P α) (w : World P) : Prop := ∃ p next, x.run w = .panic p next

/-- `get_single_nbi` is called for one index after the other, and returns these
operations. Other steps may follow each call, but leave the target's memory alone. -/
inductive GetsEach (build : Build) (self : PEReference P) (shbox : Shbox T) :
    Running P → List Usize → List (PendingNbiOp T) → Running P → Prop
  | done (s : Running P) : GetsEach build self shbox s [] [] s
  | call {s last : Running P} {idx : Usize} {rest : List Usize} {op : PendingNbiOp T}
    {ops : List (PendingNbiOp T)} (events : List (Running.Event P))
    (returns : (self.getSingleNbi shbox idx).run s.world =
      .ok op (s.next build (.getSingleNbi self shbox idx)).world)
    (run : ((Running.machine P build).under (Running.Still self.target)).Admits
      (s.next build (.getSingleNbi self shbox idx)) events)
    (others : GetsEach build self shbox ((Running.machine P build).after
      (s.next build (.getSingleNbi self shbox idx)) events) rest ops last) :
    GetsEach build self shbox s (idx :: rest) (op :: ops) last

/-- The indices `a, ..., b-1`. -/
def indices (a b : Usize) : List Usize :=
  (List.range' a.toNat (b.toNat - a.toNat)).map (BitVec.ofNat 64)

/-- All ways of reading agree from the state `s` on. -/
structure ReadPathsAgree (build : Build) (self : PEReference P) (shbox : Shbox T)
    (s : Running P) : Prop where
  nbi_panics : ∀ range, Panics (self.read build shbox range) s.world ↔
    Panics (self.readNbi build shbox range : Shmem P (PendingNbiSliceOp T)) s.world
  into_panics : ∀ range, Panics (self.read build shbox range) s.world ↔
    ∀ into : Slice T, ∃ p next,
      ((self.readIntoMut build shbox range).run into s.world).2 = .panic p next
  nbi : ∀ range elems next, (self.read build shbox range).run s.world = .ok elems next →
    ∃ op, (self.readNbi build shbox range : Shmem P (PendingNbiSliceOp T)).run s.world =
        .ok op (s.next build (.readNbi self shbox range)).world ∧
      ∀ events, ((Running.machine P build).under (Running.Still self.target)).Admits
          (s.next build (.readNbi self shbox range)) events → ∀ order, ∃ last,
        (ctxQuiet order (.slice op)).run ((Running.machine P build).after
          (s.next build (.readNbi self shbox range)) events).world = .ok elems.elems last
  into : ∀ range elems next, (self.read build shbox range).run s.world = .ok elems next →
    ∀ into : Slice T, elems.elems.length ≤ into.elems.length → ∃ filled last,
      (self.readIntoMut build shbox range).run into s.world = (filled, .ok () last) ∧
      filled.elems = elems.elems ++ into.elems.drop elems.elems.length
  short : ∀ range elems next, (self.read build shbox range).run s.world = .ok elems next →
    ∀ into : Slice T, into.elems.length < elems.elems.length → ∃ p last,
      (self.readIntoMut build shbox range).run into s.world = (into, .panic p last)
  singles : ∀ a b : Usize, a.toNat < b.toNat → b.toNat ≤ shbox.len.toNat →
    ∃ elems next, (self.read build shbox (.span a b)).run s.world = .ok elems next ∧
      (∃ ops last, GetsEach build self shbox s (indices a b) ops last) ∧
      ∀ ops last, GetsEach build self shbox s (indices a b) ops last → ∀ order, ∃ after,
        (ctxQuiet order (.vecOp ops)).run last.world = .ok elems.elems after

section

variable {build : Build} {self : PEReference P} {shbox : Shbox T} {range : RangeBounds}
  {start count : Usize} {w : World P} {s : Running P}

theorem read_panics_iff : Panics (self.read build shbox range) w ↔
    ∀ start count, resolve build range shbox.len = .ok (start, count) →
      ¬ count.toNat * Pod.size T ≤ isizeMax := by
  constructor
  · rintro ⟨p, next, panics⟩ start count accepted fits
    obtain ⟨elems, returns, _⟩ := PEReference.read_resolved self (w := w) accepted fits
    rw [panics] at returns
    cases returns
  · intro never
    obtain ⟨p, panics⟩ := PEReference.read_rejected self (w := w) never
    exact ⟨p, w, panics⟩

theorem readNbi_panics_iff :
    Panics (self.readNbi build shbox range : Shmem P (PendingNbiSliceOp T)) w ↔
    ∀ start count, resolve build range shbox.len = .ok (start, count) →
      ¬ count.toNat * Pod.size T ≤ isizeMax := by
  constructor
  · rintro ⟨p, next, panics⟩ start count accepted fits
    rw [PEReference.readNbi_resolved self accepted fits] at panics
    cases panics
  · intro never
    obtain ⟨p, panics⟩ := PEReference.readNbi_rejected self (w := w) never
    exact ⟨p, w, panics⟩

/-- What a `read` which returns has resolved its range to. -/
theorem read_returned {elems : Slice T} {next : World P}
    (returns : (self.read build shbox range).run w = .ok elems next) :
    ∃ start count, resolve build range shbox.len = .ok (start, count) ∧
      count.toNat * Pod.size T ≤ isizeMax ∧
      elems.elems = elements T (w.mem self.target) (shbox.offset start) count.toNat := by
  by_contra never
  have panics : Panics (self.read build shbox range) w := by
    rw [read_panics_iff]
    intro start count accepted fits
    obtain ⟨elems', returns', same⟩ := PEReference.read_resolved self (w := w) accepted fits
    rw [returns] at returns'
    cases returns'
    exact never ⟨start, count, accepted, fits, same⟩
  obtain ⟨p, next', panics⟩ := panics
  rw [returns] at panics
  cases panics

/-- A buffer with room for `count` elements takes them, and keeps the others. -/
theorem Slice.receive_prefix (into : Slice T) (m : Nat → UInt8) (addr : Nat) {count : Nat}
    (room : count ≤ into.elems.length) :
    (into.receive (window m addr (count * Pod.size T))).elems =
      elements T m addr count ++ into.elems.drop count := by
  have source : window m addr (count * Pod.size T) =
      window (fun x => m (addr + x)) 0 (count * Pod.size T) := by
    apply window_congr
    intro x _
    rw [Nat.zero_add]
  apply List.ext_getElem
  · simp only [Slice.receive_length, List.length_append, elements_length, List.length_drop]
    omega
  · intro i inside _
    rw [Slice.receive_length] at inside
    have put := element_put_inside (T := T) (into.memory fun _ => 0) (fun x => m (addr + x)) 0 0 count
      (i := i)
    have after := element_put_after (T := T) (into.memory fun _ => 0) (fun x => m (addr + x)) 0 0 count
      (i := i)
    simp only [Nat.zero_mul, Nat.zero_add, ← source] at put after
    simp only [Slice.receive, elements_getElem]
    by_cases early : i < count
    · rw [put early, List.getElem_append_left (by simpa using early), elements_getElem]
      apply element_congr
      intro x _
      rw [Nat.zero_add, Nat.add_assoc]
    · rw [after (Nat.le_of_not_lt early), List.getElem_append_right (by simpa using early)]
      simp only [elements_length, List.getElem_drop]
      apply Slice.memory_element
      rw [List.getElem?_eq_some_iff]
      exact ⟨inside, by congr 1; omega⟩

theorem readIntoMut_short (self : PEReference P) (w : World P) (into : Slice T)
    (never : ∀ start count, resolve build range shbox.len = .ok (start, count) →
      ¬ count.toNat ≤ into.elems.length) :
    ∃ p, (self.readIntoMut build shbox range).run into w = (into, .panic p w) := by
  obtain ⟨p, panics⟩ := PEReference.readInto_rejected self (w := w) never
  exact ⟨p, by rw [readIntoMut_run, panics]⟩

theorem readIntoMut_fills (self : PEReference P) (w : World P) (into : Slice T)
    (accepted : resolve build range shbox.len = .ok (start, count))
    (room : count.toNat ≤ into.elems.length) :
    ∃ filled next, (self.readIntoMut build shbox range).run into w = (filled, .ok () next) ∧
      filled.elems = elements T (w.mem self.target) (shbox.offset start) count.toNat ++
        into.elems.drop count.toNat := by
  have filled := into.receive_prefix (w.mem self.target) (shbox.offset start) room
  have result := readIntoMut_run build self shbox range into w
  rw [PEReference.readInto_resolved self accepted room] at result
  exact ⟨_, _, result, filled⟩

theorem into_panics_iff : Panics (self.read build shbox range) w ↔
    ∀ into : Slice T, ∃ p next, ((self.readIntoMut build shbox range).run into w).2 = .panic p next := by
  constructor
  · intro panics into
    have never := read_panics_iff.mp panics
    obtain ⟨p, result⟩ := readIntoMut_short self w into fun start count accepted room =>
      never start count accepted (Nat.le_trans (Nat.mul_le_mul_right _ room) into.layout)
    exact ⟨p, w, by rw [result]⟩
  · intro panics
    rw [read_panics_iff]
    intro start count accepted fits
    obtain ⟨into, _, length, _⟩ := newUninitSlice_fits (T := T) (w := w) fits
    obtain ⟨filled, next, result, _⟩ := readIntoMut_fills self w into accepted (Nat.le_of_eq length.symm)
    obtain ⟨p, next', panicked⟩ := panics into
    rw [result] at panicked
    cases panicked

/-- After `quiet`, a buffer holds what its get was to fetch. -/
theorem quiet_carried {get : Get P} {cells : List UInt8} (carries : Carries w get cells)
    (order : List Nat) : ((w.quiet order).block get.dest).bytes = cells := by
  have still := World.quiet_induction (Carries · get cells) (fun _ k carries => carries.deliver k)
    order carries
  exact still.arrived (World.quiet_gets order w)

/-- `quiet` on a slice operation returns what the target held when it was asked for, if
the target's memory has not changed since. -/
theorem readNbi_quiet (self : PEReference P) (bounded : GetsBounded s.world)
    (accepted : resolve build range shbox.len = .ok (start, count))
    (fits : count.toNat * Pod.size T ≤ isizeMax) :
    ∃ op, (self.readNbi build shbox range : Shmem P (PendingNbiSliceOp T)).run s.world =
        .ok op (s.next build (.readNbi self shbox range)).world ∧
      ∀ events, ((Running.machine P build).under (Running.Still self.target)).Admits
          (s.next build (.readNbi self shbox range)) events → ∀ order, ∃ last,
        (ctxQuiet order (.slice op)).run ((Running.machine P build).after
          (s.next build (.readNbi self shbox range)) events).world =
            .ok (elements T (s.world.mem self.target) (shbox.offset start) count.toNat) last := by
  have called := PEReference.readNbi_resolved self (w := s.world) accepted fits
  have after : (s.next build (.readNbi self shbox range)).world =
      PEReference.requested s.world .nbiSliceOp self.target (shbox.offset start)
        (count.toNat * Pod.size T) := by
    rw [Running.next, called]
    rfl
  refine ⟨⟨s.world.heap.length, count⟩, by rw [after, called], ?_⟩
  intro events run order
  have initial := carries_new bounded .nbiSliceOp self.target (shbox.offset start)
    (count.toNat * Pod.size T)
  rw [← after] at initial
  have carries := Running.carries_run initial run
  obtain ⟨last, result, _⟩ := Running.ctxQuiet_run order
    (.slice (⟨s.world.heap.length, count⟩ : PendingNbiSliceOp T)) _ (by simp [Nbis.blocks, Nbis.ops])
  refine ⟨last, ?_⟩
  have bytes := quiet_carried carries order
  rw [result, Nbis.held, bytes, decode_window]

end

/-! ### One get for each element -/
namespace GetsEach

variable {build : Build} {self : PEReference P} {shbox : Shbox T} {s last : Running P}
  {idxs : List Usize} {ops : List (PendingNbiOp T)}

/-- The call returns the next block, and leaves a get to it in flight. -/
theorem called {idx : Usize} {op : PendingNbiOp T} (returns : (self.getSingleNbi shbox idx).run
      s.world = .ok op (s.next build (.getSingleNbi self shbox idx)).world) :
    op.inner = s.world.heap.length ∧ (s.next build (.getSingleNbi self shbox idx)).world =
      PEReference.requested s.world .nbiOp self.target (shbox.offset idx) (Pod.size T) := by
  by_cases inside : idx.toNat < shbox.len.toNat
  · rw [PEReference.getSingleNbi_resolved self inside, Outcome.ok.injEq] at returns
    obtain ⟨rfl, after⟩ := returns
    exact ⟨rfl, after.symm⟩
  · rw [PEReference.getSingleNbi_rejected self inside] at returns
    cases returns

/-- What every step keeps of the world, the calls and the steps between them keep. -/
theorem keeps {inv : World P → Prop}
    (step : ∀ w next, inv w → Running.Moved (fun mem => mem self.target = w.mem self.target) w next →
      inv next) (gathers : GetsEach build self shbox s idxs ops last) (initial : inv s.world) :
    inv last.world := by
  induction gathers with
  | done s => exact initial
  | call events returns run others ih =>
    exact ih (Running.still_keeps step
      (step _ _ initial (Running.called_getSingleNbi build _ self shbox _).moved) run)

/-- Calls inside the array return. -/
theorem exist (build : Build) (self : PEReference P) (shbox : Shbox T) (s : Running P)
    (inside : ∀ idx ∈ idxs, idx.toNat < shbox.len.toNat) :
    ∃ ops last, GetsEach build self shbox s idxs ops last := by
  induction idxs generalizing s with
  | nil => exact ⟨[], s, .done s⟩
  | cons idx rest ih =>
    have returns := PEReference.getSingleNbi_resolved self (w := s.world)
      (inside idx (List.mem_cons_self ..))
    have after : (s.next build (.getSingleNbi self shbox idx)).world =
        PEReference.requested s.world .nbiOp self.target (shbox.offset idx) (Pod.size T) := by
      rw [Running.next, returns]
      rfl
    obtain ⟨ops, last, others⟩ := ih (s.next build (.getSingleNbi self shbox idx))
      fun idx' member => inside idx' (List.mem_cons_of_mem idx member)
    exact ⟨_, last, .call [] (by rw [after, returns]) trivial others⟩

/-- What `get_single_nbi` of index `idx` is to fetch from memory `m`. -/
def Fetches (self : PEReference P) (shbox : Shbox T) (m : Nat → UInt8) (w : World P) (idx : Usize)
    (op : PendingNbiOp T) : Prop :=
  Carries w ⟨op.inner, self.target, shbox.offset idx, Pod.size T⟩
    (window m (shbox.offset idx) (Pod.size T))

/-- In the end, each operation is to fetch the element of its index, into a block of its own. -/
theorem fetched {n : Nat} (gathers : GetsEach build self shbox s idxs ops last)
    (kept : Running.Kept n s.world) :
    List.Forall₂ (Fetches self shbox (s.world.mem self.target) last.world) idxs ops ∧
      (∀ op ∈ ops, n ≤ op.inner) ∧ (ops.map (·.inner)).Nodup := by
  induction gathers generalizing n with
  | done s => exact ⟨.nil, by simp, List.nodup_nil⟩
  | @call s last idx rest op ops events returns run others ih =>
    obtain ⟨inner, after⟩ := called returns
    have grown : Running.Kept (s.world.heap.length + 1)
        (s.next build (.getSingleNbi self shbox idx)).world := by
      rw [after]
      exact ⟨kept.bounded.requested _ _ _ _, by simp [PEReference.requested]⟩
    have first : Fetches self shbox (s.world.mem self.target)
        (s.next build (.getSingleNbi self shbox idx)).world idx op := by
      rw [Fetches, inner, after]
      exact carries_new kept.bounded _ _ _ _
    have memory : (s.next build (.getSingleNbi self shbox idx)).world.mem self.target =
        s.world.mem self.target := by
      rw [after]
      rfl
    obtain ⟨fetches, beyond, nodup⟩ := ih (Running.kept_run grown run)
    rw [Running.still_run run, memory] at fetches
    refine ⟨.cons ?_ fetches, ?_, ?_⟩
    · have step (w next : World P) (fetches : Fetches self shbox (s.world.mem self.target) w idx op)
          (moved : Running.Moved (fun mem => mem self.target = w.mem self.target) w next) :
          Fetches self shbox (s.world.mem self.target) next idx op :=
        Running.carries_moved fetches moved
      exact others.keeps step (Running.carries_run first run)
    · intro op' member
      rcases List.mem_cons.mp member with rfl | later
      · rw [inner]
        exact kept.grown
      · exact Nat.le_trans kept.grown (Nat.le_of_succ_le (beyond op' later))
    · rw [List.map_cons, List.nodup_cons]
      refine ⟨?_, nodup⟩
      intro again
      obtain ⟨op', later, same⟩ := List.mem_map.mp again
      have := beyond op' later
      rw [same, inner] at this
      exact absurd this (Nat.not_succ_le_self _)

theorem held {m : Nat → UInt8} {w : World P} (order : List Nat)
    (fetches : List.Forall₂ (Fetches self shbox m w) idxs ops) :
    (Nbis.vecOp ops).held (w.quiet order) =
      idxs.map fun idx => element T m (shbox.offset idx) 0 := by
  induction fetches with
  | nil => rfl
  | cons carries _ ih =>
    have bytes := quiet_carried carries order
    refine congrArg₂ List.cons ?_ ih
    simp only at bytes
    simp only [bytes, element, Nat.zero_mul, Nat.add_zero]

/-- `quiet` on all of them returns the elements of the indices, in order. -/
theorem quiet (gathers : GetsEach build self shbox s idxs ops last) (bounded : GetsBounded s.world)
    (order : List Nat) : ∃ after, (ctxQuiet order (.vecOp ops)).run last.world =
      .ok (idxs.map fun idx => element T (s.world.mem self.target) (shbox.offset idx) 0) after := by
  obtain ⟨fetches, _, nodup⟩ := gathers.fetched ⟨bounded, Nat.zero_le _⟩
  obtain ⟨after, result, _⟩ := Running.ctxQuiet_run order (.vecOp ops) last.world
    (by simpa [Nbis.blocks, Nbis.ops, Function.comp_def] using nodup)
  exact ⟨after, by rw [result, held order fetches]⟩

end GetsEach

/-- The elements `a..b` one by one. -/
theorem indices_elements (shbox : Shbox T) (m : Nat → UInt8) (a b : Usize) :
    (indices a b).map (fun idx => element T m (shbox.offset idx) 0) =
      elements T m (shbox.offset a) (b.toNat - a.toNat) := by
  have bound := b.isLt
  apply List.ext_getElem
  · simp [indices]
  · intro i early _
    have early : i < b.toNat - a.toNat := by simpa [indices] using early
    have value : (BitVec.ofNat 64 (a.toNat + i)).toNat = a.toNat + i := by
      simp only [BitVec.toNat_ofNat]
      exact Nat.mod_eq_of_lt (by omega)
    simp only [indices, List.getElem_map, List.getElem_range', Nat.one_mul, elements_getElem]
    apply element_congr
    intro x _
    rw [Shbox.offset, Shbox.offset, value, Nat.add_mul]
    congr 1
    omega

/-- All ways of reading a symmetric array agree in every state a run reaches. -/
theorem read_paths_agree (build : Build) (mem : Fin P → Nat → UInt8) (garbage : Nat → UInt8)
    {events : List (Running.Event P)}
    (run : (Running.machine P build).Admits (Running.start mem garbage) events)
    (self : PEReference P) (shbox : Shbox T) :
    ReadPathsAgree build self shbox
      ((Running.machine P build).after (Running.start mem garbage) events) := by
  have bounded := Running.reached_bounded run
  generalize (Running.machine P build).after (Running.start mem garbage) events = s at *
  constructor
  · intro range
    rw [read_panics_iff, readNbi_panics_iff]
  · intro range
    exact into_panics_iff
  · intro range elems next returns
    obtain ⟨start, count, accepted, fits, same⟩ := read_returned returns
    rw [same]
    exact readNbi_quiet self bounded accepted fits
  · intro range elems next returns into room
    obtain ⟨start, count, accepted, fits, same⟩ := read_returned returns
    have length : elems.elems.length = count.toNat := by rw [same, elements_length]
    rw [length] at room ⊢
    rw [same]
    exact readIntoMut_fills self s.world into accepted room
  · intro range elems next returns into short
    obtain ⟨start, count, accepted, fits, same⟩ := read_returned returns
    have length : elems.elems.length = count.toNat := by rw [same, elements_length]
    rw [length] at short
    have never (start' count' : Usize) (resolves : resolve build range shbox.len = .ok (start', count')) :
        ¬ count'.toNat ≤ into.elems.length := by
      cases accepted.symm.trans resolves
      exact Nat.not_le.mpr short
    obtain ⟨p, result⟩ := readIntoMut_short self s.world into never
    exact ⟨p, _, result⟩
  · intro a b ordered inside
    obtain ⟨size, opened, size_eq⟩ := resolve_span build ordered inside
    have fits : size.toNat * Pod.size T ≤ isizeMax :=
      Nat.le_trans (Nat.mul_le_mul_right _ (by omega)) shbox.layout
    obtain ⟨elems, returns, same⟩ := PEReference.read_resolved self (w := s.world) opened fits
    refine ⟨elems, _, returns, ?_, ?_⟩
    · apply GetsEach.exist
      intro idx member
      obtain ⟨i, listed, rfl⟩ := List.mem_map.mp member
      have bound := shbox.len.isLt
      rw [List.mem_range'_1] at listed
      rw [BitVec.toNat_ofNat, Nat.mod_eq_of_lt (by omega)]
      omega
    · intro ops last gathers order
      rw [same, size_eq, ← indices_elements]
      exact gathers.quiet bounded order

/-- They agree on an array of two bytes which has changed under two gets, one of them still in
flight. -/
theorem read_paths_agree_pair :
    ReadPathsAgree .release ⟨⟨1⟩, by decide⟩ pairOfBytes
      ((Running.machine 2 .release).after (Running.start (fun _ x => UInt8.ofNat x) fun _ => 0)
        (twoGets ⟨⟨1⟩, by decide⟩ ++ [.store fun _ x => UInt8.ofNat (3 * x), .deliver 1])) := by
  refine read_paths_agree .release _ _ ?_ _ pairOfBytes
  exact ⟨rfl, rfl, trivial, Nat.one_lt_two, trivial⟩

end OpenShmem
