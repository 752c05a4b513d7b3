import OpenShmem.Updates
import OpenShmem.Visibility

/-! Sequences of `write_from` calls between barriers: the arrays of all PEs against the
fold of the calls over lists, and the reads which follow. -/
namespace OpenShmem

open Overlay

variable {P : Nat} {T : Type} [Pod T]

/-- `shmem_barrier_all` returns when every put has arrived, in an order of the
network's own. -/
def World.barrier (order : List Nat) (w : World P) : World P :=
  let w := order.foldl World.deliverPut w
  w.puts.foldl (fun w _ => w.deliverPut 0) w

/-- One call and the barrier after it. The caller is any PE: what there is of it is its
data and the rest of its memory. -/
structure WriteCall (P : Nat) (T : Type) [Pod T] where
  self : PEReference P
  data : Slice T
  garbage : Nat → UInt8
  order : List Nat

namespace WriteCall

variable (build : Build) (shbox : Shbox T)

/-- The call, which may panic: a panic is caught, and the world stays as it found it. -/
def next (w : World P) (call : WriteCall P T) : World P :=
  ((call.self.writeFrom build shbox call.data).run { w with garbage := call.garbage }).world.barrier
    call.order

/-- The array of the target gets a new prefix, if that is not longer than the array. -/
def overlayPrefix (len : Nat) (arrays : Fin P → List T) (call : WriteCall P T) : Fin P → List T :=
  if call.data.elems.length ≤ len then
    Function.update arrays call.self.target
      (call.data.elems ++ (arrays call.self.target).drop call.data.elems.length)
  else arrays

end WriteCall

/-- A sequence of calls leaves the fold of its prefixes in the arrays, everything else as
it was, and later reads return just that. A call panics, and then at once, exactly if
its data is longer than the array. -/
structure FoldsPrefixes (build : Build) (shbox : Shbox T) (mem : Fin P → Nat → UInt8)
    (calls : List (WriteCall P T)) : Prop where
  arrays : ∀ q, shbox.contents ((calls.foldl (WriteCall.next build shbox)
      { World.blank P with mem }).mem q) =
    calls.foldl (WriteCall.overlayPrefix shbox.len.toNat) (fun q => shbox.contents (mem q)) q
  frame : ∀ q x, x < shbox.addr ∨ shbox.addr + shbox.len.toNat * Pod.size T ≤ x →
    (calls.foldl (WriteCall.next build shbox) { World.blank P with mem }).mem q x = mem q x
  reads : ∀ (self : PEReference P) (a b : Usize) (garbage : Nat → UInt8), a.toNat < b.toNat →
    b.toNat ≤ shbox.len.toNat → ∃ s : Slice T, ∃ after,
      (self.read build shbox (.span a b)).run
        { calls.foldl (WriteCall.next build shbox) { World.blank P with mem } with garbage } =
          .ok s after ∧
      s.elems = ((calls.foldl (WriteCall.overlayPrefix shbox.len.toNat)
        (fun q => shbox.contents (mem q)) self.target).drop a.toNat).take (b.toNat - a.toNat)
  returns : ∀ (call : WriteCall P T) (w : World P), call.data.elems.length ≤ shbox.len.toNat →
    ∃ after, (call.self.writeFrom build shbox call.data).run w = .ok () after
  panics : ∀ (call : WriteCall P T) (w : World P), shbox.len.toNat < call.data.elems.length →
    (call.self.writeFrom build shbox call.data).run w = .panic .tooMuchData w

section

variable {build : Build} {shbox : Shbox T} {mem : Fin P → Nat → UInt8} {w : World P}
  {arrays : Fin P → List T}

/-! ### Barriers -/

theorem deliverPut_first (w : World P) : (w.deliverPut 0).puts = w.puts.tail := by
  unfold World.deliverPut
  cases puts : w.puts with
  | nil => simp [puts]
  | cons put rest => rfl

/-- After a barrier nothing is in flight, and memory is what was to come. -/
theorem barrier_settles {spec : Fin P → Nat → UInt8} (settles : Settles w.mem w.puts spec)
    (order : List Nat) : (w.barrier order).puts = [] ∧ (w.barrier order).mem = spec := by
  have some_ (order : List Nat) (w : World P) (settles : Settles w.mem w.puts spec) :
      Settles (order.foldl World.deliverPut w).mem (order.foldl World.deliverPut w).puts spec := by
    induction order generalizing w with
    | nil => exact settles
    | cons k rest ih => exact ih _ (deliverPut_settles settles k)
  have all (todo : List (Write (Fin P) UInt8)) (w : World P) (length : w.puts.length ≤ todo.length)
      (settles : Settles w.mem w.puts spec) :
      (todo.foldl (fun w _ => w.deliverPut 0) w).puts = [] ∧
        (todo.foldl (fun w _ => w.deliverPut 0) w).mem = spec := by
    induction todo generalizing w with
    | nil =>
      have empty : w.puts = [] := List.eq_nil_of_length_eq_zero (Nat.le_zero.mp length)
      rw [empty] at settles
      exact ⟨empty, settles.done⟩
    | cons put rest ih =>
      apply ih
      · rw [deliverPut_first, List.length_tail]
        exact Nat.sub_le_of_le_add length
      · exact deliverPut_settles settles 0
  exact all _ _ (Nat.le_refl _) (some_ order w settles)

/-! ### One call -/

/-- The put of a call. -/
def WriteCall.put (shbox : Shbox T) (call : WriteCall P T) : Write (Fin P) UInt8 :=
  ⟨call.self.target, shbox.offset 0,
    window (call.data.memory call.garbage) 0 (call.data.elems.length * Pod.size T)⟩

/-- The put, on the elements of the arrays. -/
theorem contents_put (call : WriteCall P T) (room : call.data.elems.length ≤ shbox.len.toNat)
    (q : Fin P) : shbox.contents ((call.put shbox).apply mem q) =
      call.overlayPrefix shbox.len.toNat (fun q => shbox.contents (mem q)) q := by
  have updates := put_updates shbox call.data call.garbage 0 call.self.target mem
  have zero : (0 : Usize).toNat = 0 := rfl
  rw [WriteCall.overlayPrefix, if_pos room]
  apply List.ext_getElem
  · by_cases same : q = call.self.target
    · subst same
      simp
      omega
    · simp [same]
  · intro i inside _
    have each := congrFun (congrFun updates q) i
    simp only [Shbox.elementsOn] at each
    simp only [Shbox.contents, elements_getElem, WriteCall.put, each, Update.apply, Update.action,
      Update.finish, zero, Nat.zero_le, and_true, Nat.sub_zero]
    by_cases same : q = call.self.target
    · subst same
      simp only [if_true, Function.update_self]
      by_cases early : i < call.data.elems.length
      · rw [List.getElem_append_left early]
        simp [early]
      · have late := Nat.le_of_not_lt early
        rw [List.getElem_append_right late]
        simp [late, Shbox.elementsOn, Nat.add_sub_cancel' late]
    · simp [same, Ne.symm same, Shbox.elementsOn]

/-- The put stays inside the arrays. -/
theorem put_outside (call : WriteCall P T) (room : call.data.elems.length ≤ shbox.len.toNat)
    {q : Fin P} {x : Nat}
    (outside : x < shbox.addr ∨ shbox.addr + shbox.len.toNat * Pod.size T ≤ x) :
    (call.put shbox).apply mem q x = mem q x := by
  apply Write.apply_uncovered
  intro covered
  obtain ⟨_, low, high⟩ := covered
  have fits := Nat.mul_le_mul_right (Pod.size T) room
  have start : shbox.offset 0 = shbox.addr := by simp [Shbox.offset]
  simp only [WriteCall.put, start, window_length] at low high
  omega

/-- What a run of calls keeps: nothing is in flight, the arrays are the fold so far, and
all other memory is as it was. -/
structure Holds (shbox : Shbox T) (mem : Fin P → Nat → UInt8) (arrays : Fin P → List T)
    (w : World P) : Prop where
  settled : w.puts = []
  arrays : (fun q => shbox.contents (w.mem q)) = arrays
  frame : ∀ q x, x < shbox.addr ∨ shbox.addr + shbox.len.toNat * Pod.size T ≤ x →
    w.mem q x = mem q x

/-- A call which fits is one more prefix. -/
theorem Holds.returns (holds : Holds shbox mem arrays w) (call : WriteCall P T)
    (room : call.data.elems.length ≤ shbox.len.toNat) :
    Holds shbox mem (call.overlayPrefix shbox.len.toNat arrays) (call.next build shbox w) := by
  have sent : (call.self.writeFrom build shbox call.data).run { w with garbage := call.garbage } =
      _ := PEReference.writeFrom_resolved call.self room
  have alone : Settles w.mem (w.puts ++ [call.put shbox]) ((call.put shbox).apply w.mem) := by
    rw [holds.settled]
    exact (Settles.start w.mem).issue _ fun other member => by cases member
  rw [WriteCall.next, sent]
  obtain ⟨settled, landed⟩ := barrier_settles (w := World.sent { w with garbage := call.garbage }
    shbox 0 call.data (call.data.elems.length * Pod.size T) call.self.target) alone call.order
  refine ⟨settled, ?_, ?_⟩
  · funext q
    rw [Outcome.world, landed, contents_put call room, holds.arrays]
  · intro q x outside
    rw [Outcome.world, landed, put_outside call room outside]
    exact holds.frame q x outside

/-- A call which does not fit changes nothing. -/
theorem Holds.panics (holds : Holds shbox mem arrays w) (call : WriteCall P T)
    (longer : shbox.len.toNat < call.data.elems.length) :
    Holds shbox mem (call.overlayPrefix shbox.len.toNat arrays) (call.next build shbox w) := by
  have idle : Settles w.mem w.puts w.mem := by
    rw [holds.settled]
    exact Settles.start w.mem
  rw [WriteCall.next, PEReference.writeFrom_rejected call.self longer, WriteCall.overlayPrefix,
    if_neg (Nat.not_le.mpr longer)]
  obtain ⟨settled, landed⟩ :=
    barrier_settles (w := { w with garbage := call.garbage }) idle call.order
  refine ⟨settled, ?_, ?_⟩
  · rw [Outcome.world, landed]
    exact holds.arrays
  · intro q x outside
    rw [Outcome.world, landed]
    exact holds.frame q x outside

theorem Holds.step (holds : Holds shbox mem arrays w) (call : WriteCall P T) :
    Holds shbox mem (call.overlayPrefix shbox.len.toNat arrays) (call.next build shbox w) := by
  by_cases room : call.data.elems.length ≤ shbox.len.toNat
  · exact holds.returns call room
  · exact holds.panics call (Nat.lt_of_not_le room)

theorem Holds.run (holds : Holds shbox mem arrays w) (calls : List (WriteCall P T)) :
    Holds shbox mem (calls.foldl (WriteCall.overlayPrefix shbox.len.toNat) arrays)
      (calls.foldl (WriteCall.next build shbox) w) := by
  induction calls generalizing arrays w with
  | nil => exact holds
  | cons call rest ih => exact ih (holds.step call)

end

/-- Whatever PEs call `write_from` on whatever targets, between barriers the arrays are
those of the fold. -/
theorem writes_fold (build : Build) (shbox : Shbox T) (mem : Fin P → Nat → UInt8)
    (calls : List (WriteCall P T)) : FoldsPrefixes build shbox mem calls := by
  have initial : Holds shbox mem (fun q => shbox.contents (mem q)) { World.blank P with mem } :=
    ⟨rfl, rfl, fun _ _ _ => rfl⟩
  have holds : Holds shbox mem _ (calls.foldl (WriteCall.next build shbox) _) := initial.run calls
  refine ⟨fun q => congrFun holds.arrays q, holds.frame, ?_, ?_, ?_⟩
  · intro self a b garbage ordered inside
    obtain ⟨s, after, result, elems⟩ := read_span (w := { calls.foldl (WriteCall.next build shbox)
      { World.blank P with mem } with garbage }) build self shbox ordered inside
    refine ⟨s, after, result, ?_⟩
    rw [elems, Shbox.offset, elements_sub _ _ _ _ shbox.len.toNat (by omega)]
    exact congrArg (fun elems => (elems.drop a.toNat).take (b.toNat - a.toNat))
      (congrFun holds.arrays self.target)
  · intro call w room
    exact ⟨_, PEReference.writeFrom_resolved call.self room⟩
  · intro call w longer
    exact PEReference.writeFrom_rejected call.self longer

end OpenShmem
