import OpenShmem.Rma

/-! Where the transfers of the ranged operations start and end, against the
symmetric array and against the local object on the other side. -/
namespace OpenShmem

variable {P : Nat} {T : Type} [Pod T]

/-- The operations which take a range. A view is opened, assigned through and then
finished or dropped. -/
inductive RangeOp (T : Type) [Pod T] where
  | read
  | get
  | readInto (into : Slice T)
  | readNbi
  | writeDrop (values : Nat → Option T)
  | writeFinish (values : Nat → Option T)

def RangeOp.run (build : Build) (self : PEReference P) (shbox : Shbox T) (range : RangeBounds) :
    RangeOp T → Shmem P Unit
  | .read => do let _ ← self.read build shbox range
  | .get => do let _ ← self.get build shbox range
  | .readInto into => do let _ ← self.readInto build shbox range into
  | .readNbi => do let _ : PendingNbiSliceOp T ← self.readNbi build shbox range
  | .writeDrop values => do
    let view ← self.write build shbox range
    (view.assign values).drop build
  | .writeFinish values => do
    let view ← self.write build shbox range
    (view.assign values).finish build

/-- The calls a computation adds to the log, whether it returns or panics. -/
def issued {α : Type} (x : Shmem P α) (w : World P) : List (Call P) :=
  (x.run w).world.calls.drop w.calls.length

/-- The bytes moved lie inside the array on the target and inside the local buffer. -/
def Call.Inside (c : Call P) (shbox : Shbox T) : Prop :=
  shbox.addr ≤ c.remote ∧
  c.remote + c.nbytes ≤ shbox.addr + shbox.len.toNat * Pod.size T ∧
  c.nbytes ≤ c.bufferBytes

instance (c : Call P) (shbox : Shbox T) : Decidable (c.Inside shbox) :=
  inferInstanceAs (Decidable (_ ∧ _ ∧ _))

/-- The end bound names the position one past the last element: `..`, `..=len` or `..len+1`. -/
def RangeBounds.PastEnd (range : RangeBounds) (len : Nat) : Prop :=
  range.endBound = .unbounded ∨ range.hi len = len + 1

instance (range : RangeBounds) (len : Nat) : Decidable (range.PastEnd len) :=
  inferInstanceAs (Decidable (_ ∨ _))

/-- What lets a range one past the end through to a transfer: its start is accepted
and the elements fit the allocation, or the buffer `read_into` is given. A view
also resolves its range against its own buffer, which only starts 0 and 1 survive
with the overrun. -/
def RangeOp.Overruns (build : Build) (range : RangeBounds) (len : Nat) (op : RangeOp T) : Prop :=
  let start := range.startBound.start build
  Pod.size T ≠ 0 ∧ range.PastEnd len ∧ start ≤ len ∧
  match op with
  | .read | .get | .readNbi => (len - start + 1) * Pod.size T ≤ isizeMax
  | .readInto into => len - start + 1 ≤ into.elems.length
  | .writeDrop _ | .writeFinish _ => start ≤ 1 ∧ (len - start + 1) * Pod.size T ≤ isizeMax

theorem Bound.last_eq_len (build : Build) (bound : Bound) {len : Nat} (small : len < usizeMax) :
    bound.last build len = len ↔ bound = .unbounded ∨ bound.hi len = len + 1 := by
  simp only [usizeMax] at small
  unfold Bound.last
  split_ifs with unbounded zero release <;> simp [unbounded, usizeMax] <;> omega

section

variable {build : Build} {range : RangeBounds} {len start count : Usize}

/-- With elements of some size nothing in an accepted range wraps. -/
theorem resolve_sized (small : len.toNat ≤ isizeMax) :
    resolve build range len = .ok (start, count) ↔
      start.toNat = range.startBound.start build ∧
      start.toNat ≤ range.endBound.last build len.toNat ∧
      range.endBound.last build len.toNat ≤ len.toNat ∧
      start.toNat + count.toNat = range.endBound.last build len.toNat + 1 := by
  simp only [isizeMax] at small
  rw [resolve_ok]
  omega

theorem resolve_pastEnd (small : len.toNat ≤ isizeMax) (past : range.PastEnd len.toNat) :
    resolve build range len = .ok (start, count) ↔
      start.toNat = range.startBound.start build ∧ start.toNat ≤ len.toNat ∧
      count.toNat = len.toNat - start.toNat + 1 := by
  have last : range.endBound.last build len.toNat = len.toNat :=
    (Bound.last_eq_len _ _ (by simp only [isizeMax, usizeMax] at *; omega)).mpr past
  rw [resolve_sized small, last]
  omega

end

section

variable {build : Build} {self : PEReference P} {shbox : Shbox T} {range : RangeBounds}
  {start count : Usize} {w : World P} {c : Call P}

/-- For elements of some size, bytes inside are elements inside. -/
theorem transferCall_inside (sized : Pod.size T ≠ 0) {routine : Routine} {pe : Fin P} {buf : Nat}
    {dest : Option Nat} :
    (transferCall routine pe shbox start (count.toNat * Pod.size T) (buf * Pod.size T)
        dest).Inside shbox ↔
      start.toNat + count.toNat ≤ shbox.len.toNat ∧ count.toNat ≤ buf := by
  have positive := Nat.pos_of_ne_zero sized
  simp only [Call.Inside, transferCall, Shbox.offset, Nat.mul_le_mul_right_iff positive,
    Nat.le_add_right, true_and, Nat.add_assoc, Nat.add_le_add_iff_left, ← Nat.add_mul]

theorem transferCall_inside_zero (sized : Pod.size T = 0) {routine : Routine} {pe : Fin P}
    {buf : Nat} {dest : Option Nat} :
    (transferCall routine pe shbox start (count.toNat * Pod.size T) (buf * Pod.size T)
      dest).Inside shbox := by
  simp [Call.Inside, transferCall, Shbox.offset, sized]

theorem issued_ok {α : Type} {x : Shmem P α} {a : α} {next : World P} {calls : List (Call P)}
    (result : x.run w = .ok a next) (log : next.calls = w.calls ++ calls) :
    issued x w = calls := by
  simp [issued, result, Outcome.world, log]

theorem issued_panic {α : Type} {x : Shmem P α} {p : Panic} (result : x.run w = .panic p w) :
    issued x w = [] := by
  simp [issued, result, Outcome.world]

theorem issued_discard {α : Type} (x : Shmem P α) :
    issued (do let _ ← x) w = issued x w := by
  simp only [issued, run_bind]
  cases x.run w <;> rfl

/-- An operation on one resolved range issues one call, or panics before any. -/
theorem mem_issued {α : Type} {x : Shmem P α} {len : Usize} {room : Usize → Prop}
    {call : Usize → Usize → Call P}
    (moves : ∀ start count, resolve build range len = .ok (start, count) → room count →
      ∃ a next, x.run w = .ok a next ∧ next.calls = w.calls ++ [call start count])
    (stops : (∀ start count, resolve build range len = .ok (start, count) → ¬ room count) →
      ∃ p, x.run w = .panic p w) :
    c ∈ issued x w ↔ ∃ start count, resolve build range len = .ok (start, count) ∧
      room count ∧ c = call start count := by
  by_cases accepted : ∃ start count, resolve build range len = .ok (start, count) ∧ room count
  · obtain ⟨start, count, accepted, fits⟩ := accepted
    obtain ⟨a, next, result, log⟩ := moves start count accepted fits
    rw [issued_ok result log, List.mem_singleton]
    constructor
    · rintro rfl
      exact ⟨start, count, accepted, fits, rfl⟩
    · rintro ⟨start', count', accepted', _, rfl⟩
      cases accepted.symm.trans accepted'
      rfl
  · obtain ⟨p, result⟩ := stops fun start count resolves fits =>
      accepted ⟨start, count, resolves, fits⟩
    rw [issued_panic result]
    constructor
    · simp
    · rintro ⟨start, count, resolves, fits, _⟩
      exact absurd ⟨start, count, resolves, fits⟩ accepted

theorem mem_issued_read :
    c ∈ issued (self.read build shbox range) w ↔
      ∃ start count, resolve build range shbox.len = .ok (start, count) ∧
        count.toNat * Pod.size T ≤ isizeMax ∧
        c = transferCall .getmem self.target shbox start (count.toNat * Pod.size T)
          (count.toNat * Pod.size T) none := by
  apply mem_issued
  · intro start count accepted fits
    obtain ⟨s, result, _⟩ := PEReference.read_resolved self (w := w) accepted fits
    exact ⟨s, _, result, rfl⟩
  · exact PEReference.read_rejected self

theorem mem_issued_readInto {into : Slice T} :
    c ∈ issued (self.readInto build shbox range into) w ↔
      ∃ start count, resolve build range shbox.len = .ok (start, count) ∧
        count.toNat ≤ into.elems.length ∧
        c = transferCall .getmem self.target shbox start (count.toNat * Pod.size T)
          (into.elems.length * Pod.size T) none := by
  apply mem_issued
  · intro start count accepted room
    exact ⟨_, _, PEReference.readInto_resolved self accepted room, rfl⟩
  · exact PEReference.readInto_rejected self

theorem mem_issued_readNbi :
    c ∈ issued (self.readNbi build shbox range : Shmem P (PendingNbiSliceOp T)) w ↔
      ∃ start count, resolve build range shbox.len = .ok (start, count) ∧
        count.toNat * Pod.size T ≤ isizeMax ∧
        c = transferCall .getmemNbi self.target shbox start (count.toNat * Pod.size T)
          (count.toNat * Pod.size T) (some w.heap.length) := by
  apply mem_issued
  · intro start count accepted fits
    exact ⟨_, _, PEReference.readNbi_resolved self accepted fits, rfl⟩
  · exact PEReference.readNbi_rejected self

/-- The put of an opened view, whose range is resolved again against its buffer. -/
theorem mem_issued_drop {first bufferSize : Usize} {values : Nat → Option T}
    (accepted : resolve build range shbox.len = .ok (first, bufferSize))
    (fits : bufferSize.toNat * Pod.size T ≤ isizeMax) :
    c ∈ issued (do
        let view ← self.write build shbox range
        (view.assign values).drop build) w ↔
      ∃ start count, resolve build range bufferSize = .ok (start, count) ∧ True ∧
        c = transferCall .putmem self.target shbox start (count.toNat * Pod.size T)
          (bufferSize.toNat * Pod.size T) none := by
  obtain ⟨buf, result, length, _⟩ := PEReference.write_resolved self (w := w) accepted fits
  have bufLen : (buf.assign values).len = bufferSize := (buf.assign_len values).trans (Slice.len_eq length)
  apply mem_issued
  · intro start count again _
    refine ⟨(), w.sent shbox start (buf.assign values) (count.toNat * Pod.size T) self.target, ?_, ?_⟩
    · rw [bind_ok result]
      apply MutableArrayView.drop_resolved
      simpa only [MutableArrayView.assign, bufLen] using again
    · simp only [World.sent, Slice.assign_length, length]
  · intro never
    rw [bind_ok result]
    cases again : resolve build range bufferSize with
    | ok pair => exact absurd trivial (never pair.1 pair.2 again)
    | error p =>
      refine ⟨p, MutableArrayView.drop_rejected ?_⟩
      simpa only [MutableArrayView.assign, bufLen] using again

theorem mem_issued_write {values : Nat → Option T} :
    c ∈ issued (do
        let view ← self.write build shbox range
        (view.assign values).drop build) w ↔
      ∃ first bufferSize start count,
        resolve build range shbox.len = .ok (first, bufferSize) ∧
        bufferSize.toNat * Pod.size T ≤ isizeMax ∧
        resolve build range bufferSize = .ok (start, count) ∧
        c = transferCall .putmem self.target shbox start (count.toNat * Pod.size T)
          (bufferSize.toNat * Pod.size T) none := by
  rcases resolve_cases build range shbox.len (Pod.size T) with
    ⟨first, bufferSize, accepted, fits⟩ | never
  · rw [mem_issued_drop accepted fits]
    constructor
    · rintro ⟨start, count, again, _, rfl⟩
      exact ⟨first, bufferSize, start, count, accepted, fits, again, rfl⟩
    · rintro ⟨first', bufferSize', start, count, accepted', _, again, rfl⟩
      cases accepted.symm.trans accepted'
      exact ⟨start, count, again, trivial, rfl⟩
  · obtain ⟨p, result⟩ := PEReference.write_rejected self (w := w) never
    rw [issued_panic (bind_panic result)]
    constructor
    · simp
    · rintro ⟨first, bufferSize, _, _, accepted, fits, _⟩
      exact absurd fits (never first bufferSize accepted)

/-- A single resolution keeps inside the array unless it is one past the end. -/
theorem resolve_inside_iff (build : Build) (range : RangeBounds) {len : Usize} (room : Nat → Prop)
    (small : len.toNat ≤ isizeMax) :
    (∀ start count, resolve build range len = .ok (start, count) → room count.toNat →
      start.toNat + count.toNat ≤ len.toNat) ↔
    ¬ (range.PastEnd len.toNat ∧ range.startBound.start build ≤ len.toNat ∧
      room (len.toNat - range.startBound.start build + 1)) := by
  constructor
  · rintro inside ⟨past, start_le, fits⟩
    have small' : len.toNat < 2^64 - 1 := by simp only [isizeMax] at small; omega
    obtain ⟨start, start_eq⟩ := exists_usize (n := range.startBound.start build) (by omega)
    obtain ⟨count, count_eq⟩ :=
      exists_usize (n := len.toNat - range.startBound.start build + 1) (by omega)
    have accepted : resolve build range len = .ok (start, count) :=
      (resolve_pastEnd small past).mpr ⟨start_eq, by omega, by omega⟩
    have := inside start count accepted (by rwa [count_eq])
    omega
  · intro safe start count accepted fits
    obtain ⟨first, ordered, inside, size⟩ := (resolve_sized small).mp accepted
    by_contra outside
    have last : range.endBound.last build len.toNat = len.toNat := by omega
    have past : range.PastEnd len.toNat :=
      (Bound.last_eq_len _ _ (by simp only [isizeMax, usizeMax] at *; omega)).mp last
    refine safe ⟨past, by omega, ?_⟩
    rwa [← first, show len.toNat - start.toNat + 1 = count.toNat by omega]

/-- Resolving the range again against the view's buffer turns back most overruns:
the ones left start at element 0 or 1. -/
theorem reresolve_inside_iff {len : Usize} (small : len.toNat ≤ isizeMax) :
    (∀ first size start count, resolve build range len = .ok (first, size) →
      size.toNat * Pod.size T ≤ isizeMax →
      resolve build range size = .ok (start, count) →
      start.toNat + count.toNat ≤ len.toNat ∧ count.toNat ≤ size.toNat) ↔
    ¬ (range.PastEnd len.toNat ∧ range.startBound.start build ≤ len.toNat ∧
      range.startBound.start build ≤ 1 ∧
      (len.toNat - range.startBound.start build + 1) * Pod.size T ≤ isizeMax) := by
  have half : len.toNat < 2^63 := by simp only [isizeMax] at small; omega
  have last_iff := Bound.last_eq_len build range.endBound
    (show len.toNat < usizeMax by simp only [usizeMax]; omega)
  constructor
  · rintro inside ⟨past, start_le, early, fits⟩
    obtain ⟨start, start_eq⟩ := exists_usize (n := range.startBound.start build) (by omega)
    obtain ⟨size, size_eq⟩ := exists_usize (n := len.toNat - start.toNat + 1) (by omega)
    have opened : resolve build range len = .ok (start, size) :=
      (resolve_pastEnd small past).mpr ⟨start_eq, by omega, size_eq⟩
    rw [← start_eq, ← size_eq] at fits
    by_cases unbounded : range.endBound = .unbounded
    · -- The buffer is one element too long, and its own end is overrun once more.
      obtain ⟨count, count_eq⟩ := exists_usize (n := size.toNat - start.toNat + 1) (by omega)
      have := inside start size start count opened fits
        ((reresolve_unbounded opened unbounded).mpr
          ⟨rfl, by omega, .inl ⟨by omega, count_eq⟩⟩)
      omega
    · have := inside start size start size opened fits
        ((reresolve_bounded opened unbounded).mpr ⟨rfl, rfl, by rw [last_iff.mpr past]; omega⟩)
      omega
  · intro safe first size start count opened fits again
    obtain ⟨first_eq, ordered, inside, size_eq⟩ := (resolve_sized small).mp opened
    by_cases late : range.PastEnd len.toNat ∧ first.toNat ≤ 1
    · refine absurd ⟨late.1, by omega, by omega, ?_⟩ safe
      rw [last_iff.mpr late.1] at size_eq
      rwa [← first_eq, show len.toNat - first.toNat + 1 = size.toNat by omega]
    · by_cases unbounded : range.endBound = .unbounded
      · have past : range.PastEnd len.toNat := .inl unbounded
        rw [last_iff.mpr past] at size_eq
        obtain ⟨rfl, _, _⟩ := (reresolve_unbounded opened unbounded).mp again
        have : ¬ start.toNat ≤ 1 := fun early => late ⟨past, early⟩
        omega
      · obtain ⟨rfl, rfl, last_le⟩ := (reresolve_bounded opened unbounded).mp again
        have : ¬ (range.endBound.last build len.toNat = len.toNat ∧ start.toNat ≤ 1) := by
          rwa [last_iff]
        omega

/-- Which transfer an operation may issue, as the offset and count it moves and
the elements its local buffer has. -/
def RangeOp.Moves (build : Build) (range : RangeBounds) (len start count : Usize) (buffer : Nat) :
    RangeOp T → Prop
  | .read | .get | .readNbi => resolve build range len = .ok (start, count) ∧
      count.toNat * Pod.size T ≤ isizeMax ∧ buffer = count.toNat
  | .readInto into => resolve build range len = .ok (start, count) ∧
      count.toNat ≤ into.elems.length ∧ buffer = into.elems.length
  | .writeDrop _ | .writeFinish _ => ∃ first size, resolve build range len = .ok (first, size) ∧
      size.toNat * Pod.size T ≤ isizeMax ∧ resolve build range size = .ok (start, count) ∧
      buffer = size.toNat

theorem moves_of_issued {op : RangeOp T} (member : c ∈ issued (op.run build self shbox range) w) :
    ∃ start count buffer, op.Moves build range shbox.len start count buffer ∧
      ∃ routine dest, c = transferCall routine self.target shbox start
        (count.toNat * Pod.size T) (buffer * Pod.size T) dest := by
  cases op with
  | read =>
    simp only [RangeOp.run, issued_discard, mem_issued_read] at member
    obtain ⟨start, count, accepted, fits, rfl⟩ := member
    exact ⟨start, count, _, ⟨accepted, fits, rfl⟩, _, _, rfl⟩
  | get =>
    simp only [RangeOp.run, issued_discard, PEReference.get, mem_issued_read] at member
    obtain ⟨start, count, accepted, fits, rfl⟩ := member
    exact ⟨start, count, _, ⟨accepted, fits, rfl⟩, _, _, rfl⟩
  | readInto into =>
    simp only [RangeOp.run, issued_discard, mem_issued_readInto] at member
    obtain ⟨start, count, accepted, room, rfl⟩ := member
    exact ⟨start, count, _, ⟨accepted, room, rfl⟩, _, _, rfl⟩
  | readNbi =>
    simp only [RangeOp.run, issued_discard, mem_issued_readNbi] at member
    obtain ⟨start, count, accepted, fits, rfl⟩ := member
    exact ⟨start, count, _, ⟨accepted, fits, rfl⟩, _, _, rfl⟩
  | writeDrop values | writeFinish values =>
    obtain ⟨first, size, start, count, opened, fits, again, rfl⟩ := mem_issued_write.mp member
    exact ⟨start, count, _, ⟨first, size, opened, fits, again, rfl⟩, _, _, rfl⟩

theorem issued_of_moves (self : PEReference P) (w : World P) {op : RangeOp T} {buffer : Nat}
    (moves : op.Moves build range shbox.len start count buffer) :
    ∃ routine dest, transferCall routine self.target shbox start (count.toNat * Pod.size T)
      (buffer * Pod.size T) dest ∈ issued (op.run build self shbox range) w := by
  cases op with
  | read =>
    obtain ⟨accepted, fits, rfl⟩ := moves
    simp only [RangeOp.run, issued_discard, mem_issued_read]
    exact ⟨_, _, start, count, accepted, fits, rfl⟩
  | get =>
    obtain ⟨accepted, fits, rfl⟩ := moves
    simp only [RangeOp.run, issued_discard, PEReference.get, mem_issued_read]
    exact ⟨_, _, start, count, accepted, fits, rfl⟩
  | readInto into =>
    obtain ⟨accepted, room, rfl⟩ := moves
    simp only [RangeOp.run, issued_discard, mem_issued_readInto]
    exact ⟨_, _, start, count, accepted, room, rfl⟩
  | readNbi =>
    obtain ⟨accepted, fits, rfl⟩ := moves
    simp only [RangeOp.run, issued_discard, mem_issued_readNbi]
    exact ⟨_, _, start, count, accepted, fits, rfl⟩
  | writeDrop values | writeFinish values =>
    obtain ⟨first, size, opened, fits, again, rfl⟩ := moves
    exact ⟨_, _, mem_issued_write.mpr ⟨first, size, start, count, opened, fits, again, rfl⟩⟩

/-- The transfers of an operation are inside exactly when its elements are. -/
theorem issued_inside_iff (sized : Pod.size T ≠ 0) {op : RangeOp T} :
    (∀ w : World P, ∀ c ∈ issued (op.run build self shbox range) w, c.Inside shbox) ↔
      ∀ start count buffer, op.Moves build range shbox.len start count buffer →
        start.toNat + count.toNat ≤ shbox.len.toNat ∧ count.toNat ≤ buffer := by
  constructor
  · intro inside start count buffer moves
    obtain ⟨routine, dest, member⟩ := issued_of_moves self (.blank P) moves
    exact (transferCall_inside sized).mp (inside _ _ member)
  · intro inside w c member
    obtain ⟨start, count, buffer, moves, routine, dest, rfl⟩ := moves_of_issued member
    exact (transferCall_inside sized).mpr (inside start count buffer moves)

/-- Every transfer stays inside both objects, unless the operation overruns. -/
theorem transfers_inside_iff (build : Build) (self : PEReference P) (shbox : Shbox T)
    (range : RangeBounds) (op : RangeOp T) :
    (∀ w : World P, ∀ c ∈ issued (op.run build self shbox range) w, c.Inside shbox) ↔
      ¬ op.Overruns build range shbox.len.toNat := by
  by_cases sized : Pod.size T = 0
  · refine iff_of_true ?_ (fun overruns => overruns.1 sized)
    intro w c member
    obtain ⟨start, count, buffer, _, routine, dest, rfl⟩ := moves_of_issued member
    exact transferCall_inside_zero sized
  have small := shbox.len_small sized
  rw [issued_inside_iff sized]
  have single := resolve_inside_iff build range (fun n => n * Pod.size T ≤ isizeMax) small
  cases op with
  | read | get | readNbi =>
    simp only [RangeOp.Overruns, ne_eq, sized, not_false_eq_true, true_and]
    rw [← single]
    constructor
    · intro inside start count accepted fits
      exact (inside start count _ ⟨accepted, fits, rfl⟩).1
    · rintro inside start count buffer ⟨accepted, fits, rfl⟩
      exact ⟨inside start count accepted fits, Nat.le_refl _⟩
  | readInto into =>
    simp only [RangeOp.Overruns, ne_eq, sized, not_false_eq_true, true_and]
    rw [← resolve_inside_iff build range (fun n => n ≤ into.elems.length) small]
    constructor
    · intro inside start count accepted room
      exact (inside start count _ ⟨accepted, room, rfl⟩).1
    · rintro inside start count buffer ⟨accepted, room, rfl⟩
      exact ⟨inside start count accepted room, room⟩
  | writeDrop values | writeFinish values =>
    simp only [RangeOp.Overruns, ne_eq, sized, not_false_eq_true, true_and]
    rw [← reresolve_inside_iff small]
    constructor
    · intro inside first size start count opened fits again
      exact inside start count _ ⟨first, size, opened, fits, again, rfl⟩
    · rintro inside start count buffer ⟨first, size, opened, fits, again, rfl⟩
      exact inside first size start count opened fits again

/-- Reading all of a five-byte array asks for six bytes. -/
theorem read_full_outside :
    ¬ ∀ w : World 1, ∀ c ∈ issued (RangeOp.run .release ⟨⟨0⟩, by decide⟩
        (⟨16, 5, by decide⟩ : Shbox UInt8) .full .read) w,
      c.Inside (⟨16, 5, by decide⟩ : Shbox UInt8) := by
  intro inside
  exact absurd (inside (.blank 1) ⟨.getmem, 0, 16, 6, 6, none⟩ (by decide)) (by decide)

end

end OpenShmem
