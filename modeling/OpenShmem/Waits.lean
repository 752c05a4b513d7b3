import Mathlib.Data.List.Perm.Subperm
import OpenShmem.ForceAtomic
import OpenShmem.Updates
import OpenShmem.WriteOnce

/-! The waits of `Waitable`, on an object into which PEs put while others wait. A put arrives
in pieces, one for each element, in any order. -/
namespace OpenShmem

open WriteOnce

variable {P : Nat} {T : Type}

inductive ShmemCompareOp where
  | equal
  | notEqual
  | greater
  | greaterEqual
  | lesser
  | lesserEqual
  deriving DecidableEq, Repr

/-- The types of `impl_waitable!` are integers, which the routines compare as such. -/
class Waitable (T : Type) extends Pod T where
  number : T → Int

/-- `u32`, `u64` and `usize`, or `i32` and `i64`. -/
abbrev Waitable.int (s : Size) (signed : Bool) : Waitable s.TreatAsA where
  number word := if signed then word.toInt else word.toNat

def ShmemCompareOp.compare : ShmemCompareOp → Int → Int → Bool
  | .equal, x, y => x = y
  | .notEqual, x, y => x ≠ y
  | .greater, x, y => x > y
  | .greaterEqual, x, y => x ≥ y
  | .lesser, x, y => x < y
  | .lesserEqual, x, y => x ≤ y

/-- What the documentation of the operators says of a value `x` and the given `y`. -/
def ShmemCompareOp.Holds [Waitable T] (op : ShmemCompareOp) (x y : T) : Prop :=
  op.compare (Waitable.number x) (Waitable.number y)

instance [Waitable T] (op : ShmemCompareOp) (x y : T) : Decidable (op.Holds x y) :=
  inferInstanceAs (Decidable (_ = true))

inductive WaitRoutine where
  | waitUntil
  | waitUntilAll
  | waitUntilSome
  | waitUntilAny
  deriving DecidableEq, Repr

/-- One call of `shmem_<type>_<routine>`. No status is passed, so all elements take part. -/
structure WaitCall (T : Type) where
  routine : WaitRoutine
  ivars : Nat
  nelems : Nat
  cmp : ShmemCompareOp
  cmpValue : T

/-! ### The methods of `Waitable` -/
section

variable [Pod T] (shbox : Shbox T) (op : ShmemCompareOp) (x : T)

def waitUntil (shbox : Nat) : WaitCall T := ⟨.waitUntil, shbox, 1, op, x⟩

def waitUntilAll : WaitCall T := ⟨.waitUntilAll, shbox.addr, shbox.len.toNat, op, x⟩

/-- `vec![0; shbox.len()]` comes before the call. -/
def waitUntilSome : Except Panic (WaitCall T) :=
  if 8 * shbox.len.toNat ≤ isizeMax then
    .ok ⟨.waitUntilSome, shbox.addr, shbox.len.toNat, op, x⟩
  else .error .capacityOverflow

def waitUntilAny : WaitCall T := ⟨.waitUntilAny, shbox.addr, shbox.len.toNat, op, x⟩

end

/-- The methods above, with their arguments. -/
inductive WaitMethod (T : Type) [Pod T] where
  | waitUntil (shbox : Nat) (op : ShmemCompareOp) (x : T)
  | waitUntilAll (shbox : Shbox T) (op : ShmemCompareOp) (x : T)
  | waitUntilSome (shbox : Shbox T) (op : ShmemCompareOp) (x : T)
  | waitUntilAny (shbox : Shbox T) (op : ShmemCompareOp) (x : T)

def WaitMethod.call [Pod T] : WaitMethod T → Except Panic (WaitCall T)
  | .waitUntil shbox op x => .ok (OpenShmem.waitUntil op x shbox)
  | .waitUntilAll shbox op x => .ok (OpenShmem.waitUntilAll shbox op x)
  | .waitUntilSome shbox op x => OpenShmem.waitUntilSome shbox op x
  | .waitUntilAny shbox op x => .ok (OpenShmem.waitUntilAny shbox op x)

/-- Each index is that of an element which matches. -/
def Indexes (nelems : Nat) (found : Nat → Prop) (reply : List Usize) : Prop :=
  ∀ i ∈ reply, i.toNat < nelems ∧ found i.toNat

instance (nelems : Nat) (found : Nat → Prop) [DecidablePred found] (reply : List Usize) :
    Decidable (Indexes nelems found reply) := List.decidableBAll ..

/-- What a routine can reply with on `nelems` elements, given the ones which match. -/
def WaitRoutine.Replies (nelems : Nat) (found : Nat → Prop) (reply : List Usize) :
    WaitRoutine → Prop
  | .waitUntil | .waitUntilAll => reply = [] ∧ ∀ i < nelems, found i
  | .waitUntilSome => reply.Nodup ∧ (reply = [] → nelems = 0) ∧ Indexes nelems found reply
  | .waitUntilAny => (nelems = 0 ∧ reply = [BitVec.allOnes 64]) ∨
    reply.length = 1 ∧ Indexes nelems found reply

instance (nelems : Nat) (found : Nat → Prop) [DecidablePred found] (reply : List Usize) :
    (routine : WaitRoutine) → Decidable (routine.Replies nelems found reply)
  | .waitUntil | .waitUntilAll | .waitUntilSome => inferInstanceAs (Decidable (_ ∧ _))
  | .waitUntilAny => inferInstanceAs (Decidable (_ ∨ _))

/-- The routine stores its indices from the beginning of `idxs`, and `idxs.truncate(n)` keeps
as many. -/
def truncated (len : Nat) (reply : List Usize) : List Usize :=
  let idxs := List.replicate len (0 : Usize)
  let stored := reply.take len ++ idxs.drop reply.length
  stored.take reply.length

/-- What the method returns. -/
def WaitCall.result (call : WaitCall T) (reply : List Usize) : List Usize :=
  match call.routine with
  | .waitUntilSome => truncated call.nelems reply
  | .waitUntil | .waitUntilAll | .waitUntilAny => reply

theorem Indexes.imp {nelems : Nat} {found found' : Nat → Prop} {reply : List Usize}
    (indexes : Indexes nelems found reply) (still : ∀ i < nelems, found i → found' i) :
    Indexes nelems found' reply := by
  intro i member
  obtain ⟨inside, matches_⟩ := indexes i member
  exact ⟨inside, still _ inside matches_⟩

theorem WaitRoutine.Replies.imp {nelems : Nat} {found found' : Nat → Prop} {reply : List Usize}
    {routine : WaitRoutine} (replies : routine.Replies nelems found reply)
    (still : ∀ i < nelems, found i → found' i) : routine.Replies nelems found' reply := by
  cases routine with
  | waitUntil | waitUntilAll => exact ⟨replies.1, fun i inside => still i inside (replies.2 i inside)⟩
  | waitUntilSome => exact ⟨replies.1, replies.2.1, replies.2.2.imp still⟩
  | waitUntilAny => exact replies.imp_right fun ⟨one, each⟩ => ⟨one, each.imp still⟩

/-- The indices of a reply fit into the vector which has a place for each element. -/
theorem WaitRoutine.Replies.length_le {nelems : Nat} {found : Nat → Prop} {reply : List Usize}
    (replies : WaitRoutine.waitUntilSome.Replies nelems found reply) : reply.length ≤ nelems := by
  obtain ⟨nodup, _, each⟩ := replies
  have distinct : (reply.map BitVec.toNat).Nodup := nodup.map fun _ _ => BitVec.eq_of_toNat_eq
  have inside : reply.map BitVec.toNat ⊆ List.range nelems := by
    intro i member
    obtain ⟨idx, given, rfl⟩ := List.mem_map.mp member
    exact List.mem_range.mpr (each idx given).1
  simpa using (distinct.subperm inside).length_le

theorem WaitCall.result_eq {call : WaitCall T} {found : Nat → Prop} {reply : List Usize}
    (replies : call.routine.Replies call.nelems found reply) : call.result reply = reply := by
  obtain ⟨routine, ivars, nelems, cmp, cmpValue⟩ := call
  cases routine with
  | waitUntilSome =>
    have fits := WaitRoutine.Replies.length_le replies
    simp [WaitCall.result, truncated, List.take_of_length_le fits]
  | waitUntil | waitUntilAll | waitUntilAny => rfl

/-! ### Runs -/

/-- The elements of the object on all PEs, what is put to them and who waits. `issued` and
`returned` only record. -/
structure Waits (P : Nat) (T : Type) where
  mem : Fin P × Nat → T
  flight : List (Piece (Fin P × Nat) T)
  issued : List (Piece (Fin P × Nat) T)
  waiting : Fin P → Option (WaitCall T)
  returned : List (Fin P × WaitCall T × List Usize)

namespace Waits

inductive Event (P : Nat) (T : Type) [Pod T] where
  | put (p : Fin P) (start : Nat) (data : List T) (pe : Fin P)
  | land (j : Nat)
  | call (p : Fin P) (method : WaitMethod T)
  | wake (p : Fin P) (reply : List Usize)

/-- What a put comes to pieces into. -/
def pieces (start : Nat) (data : List T) (pe : Fin P) : List (Piece (Fin P × Nat) T) :=
  data.mapIdx fun k v => ⟨(pe, start + k), v⟩

theorem mem_pieces {start : Nat} {data : List T} {pe : Fin P} {piece : Piece (Fin P × Nat) T} :
    piece ∈ pieces start data pe ↔ ∃ k, piece.cell = (pe, start + k) ∧ data[k]? = some piece.value := by
  rw [pieces, List.mem_mapIdx]
  constructor
  · rintro ⟨k, inside, rfl⟩
    exact ⟨k, rfl, List.getElem?_eq_getElem inside⟩
  · rintro ⟨k, cell, stored⟩
    obtain ⟨inside, value⟩ := List.getElem?_eq_some_iff.mp stored
    refine ⟨k, inside, ?_⟩
    rw [← cell, value]

theorem once_pieces (start : Nat) (data : List T) (pe : Fin P) : Once (pieces start data pe) := by
  rw [Once, pieces, List.nodup_iff_injective_get]
  intro first second same
  simp only [List.get_eq_getElem, List.getElem_map, List.getElem_mapIdx, Prod.mk.injEq] at same
  exact Fin.ext (Nat.add_left_cancel same.2)

/-- In whatever order the pieces arrive, together they are the update which the put makes. -/
theorem pieces_update {start : Nat} {data : List T} {pe : Fin P} {order : List (Piece (Fin P × Nat) T)}
    (all : order.Perm (pieces start data pe)) (mem : Fin P × Nat → T) :
    (fun q i => order.foldl WriteOnce.land mem (q, i)) =
      (Update.finish start data pe).apply fun q i => mem (q, i) := by
  have once : Once order := ((all.map Piece.cell).nodup_iff).mpr (once_pieces start data pe)
  funext q i
  cases found : (Update.finish start data pe).action q i with
  | some f =>
    have shown := found
    rw [Update.action, Update.finish, Option.ite_none_right_eq_some] at shown
    obtain ⟨⟨rfl, low⟩, stored⟩ := shown
    obtain ⟨k, rfl⟩ := Nat.exists_eq_add_of_le low
    rw [Nat.add_sub_cancel_left, List.getElem?_map, Option.map_eq_some_iff] at stored
    obtain ⟨v, stored, rfl⟩ := stored
    have member : ⟨(pe, start + k), v⟩ ∈ order := all.mem_iff.mpr (mem_pieces.mpr ⟨k, rfl, stored⟩)
    rw [Update.apply, found]
    exact foldl_land once member mem
  | none =>
    rw [Update.apply, found]
    refine foldl_land_other (fun piece member same => ?_) mem
    obtain ⟨k, cell, stored⟩ := mem_pieces.mp (all.mem_iff.mp member)
    obtain ⟨rfl, rfl⟩ := Prod.mk.inj (same.symm.trans cell)
    simp [Update.action, Update.finish, stored] at found

variable [Waitable T] (addr len : Nat)

/-- A PE which waits does nothing else. -/
def enabled (s : Waits P T) : Event P T → Prop
  | .put p start data _ => s.waiting p = none ∧ start + data.length ≤ len
  | .land j => j < s.flight.length
  | .call p method => s.waiting p = none ∧
    ∃ call ∈ method.call.toOption, call.ivars = addr ∧ call.nelems = len
  | .wake p reply => ∃ call ∈ s.waiting p, call.routine.Replies call.nelems
    (fun i => call.cmp.Holds (s.mem (p, i)) call.cmpValue) reply

instance (s : Waits P T) : (e : Event P T) → Decidable (enabled addr len s e)
  | .put _ _ _ _ | .call _ _ => inferInstanceAs (Decidable (_ ∧ _))
  | .land _ => inferInstanceAs (Decidable (_ < _))
  | .wake p _ => inferInstanceAs (Decidable (∃ call ∈ s.waiting p, _))

def next (s : Waits P T) : Event P T → Waits P T
  | .put _ start data pe => { s with
      flight := s.flight ++ pieces start data pe
      issued := s.issued ++ pieces start data pe }
  | .land j => match s.flight[j]? with
    | some piece => { s with
        mem := WriteOnce.land s.mem piece
        flight := s.flight.eraseIdx j }
    | none => s
  | .call p method => { s with waiting := Function.update s.waiting p method.call.toOption }
  | .wake p reply => match s.waiting p with
    | some call => { s with
        waiting := Function.update s.waiting p none
        returned := s.returned ++ [(p, call, call.result reply)] }
    | none => s

def machine : Machine (Waits P T) (Event P T) := ⟨enabled addr len, next⟩

instance (s : Waits P T) (e : Event P T) : Decidable ((machine addr len).enabled s e) :=
  inferInstanceAs (Decidable (enabled addr len s e))

def start (mem : Fin P × Nat → T) : Waits P T := ⟨mem, [], [], fun _ => none, []⟩

/-- An element holds what was put there, and nothing more is on its way. -/
def Arrived (s : Waits P T) (p : Fin P) (i : Nat) : Prop :=
  WriteOnce.Arrived s.mem s.issued s.flight (p, i)

/-- Somebody has put the element. -/
def Put (s : Waits P T) (p : Fin P) (i : Nat) : Prop := ∃ piece ∈ s.issued, piece.cell = (p, i)

/-- What a wait has returned are elements which have arrived by then, for good. Where nothing
can arrive or return any more, whoever still waits could not return with all that was put. -/
structure Gathers (cmp : ShmemCompareOp) (value : T) (s : Waits P T) : Prop where
  finds : ∀ p call result, (p, call, result) ∈ s.returned → call.cmp = cmp → call.cmpValue = value →
    call.routine.Replies call.nelems (s.Arrived p) result
  starves : (∀ piece ∈ s.issued, cmp.Holds piece.value value) →
    (∀ j, ¬ (machine addr len).enabled s (.land j)) →
    (∀ p reply, ¬ (machine addr len).enabled s (.wake p reply)) →
    ∀ p, ∀ call ∈ s.waiting p, call.cmp = cmp → call.cmpValue = value →
      ∀ reply, ¬ call.routine.Replies call.nelems (s.Put p) reply

/-- What every run keeps which puts no element twice. -/
structure Sound (cmp : ShmemCompareOp) (value : T) (initial : Fin P × Nat → T) (s : Waits P T) :
    Prop where
  accounted : Accounted initial s.mem s.issued s.flight
  calls : ∀ p, ∀ call ∈ s.waiting p, call.nelems = len
  finds : ∀ p call result, (p, call, result) ∈ s.returned → call.cmp = cmp → call.cmpValue = value →
    call.routine.Replies call.nelems (s.Arrived p) result

namespace Sound

variable {addr len} {cmp : ShmemCompareOp} {value : T} {initial : Fin P × Nat → T} {s : Waits P T}

/-- An element which matches is not as it was. -/
theorem arrived (sound : Sound len cmp value initial s)
    (blank : ∀ p, ∀ i < len, ¬ cmp.Holds (initial (p, i)) value) {p : Fin P} {i : Nat} (inside : i < len)
    (found : cmp.Holds (s.mem (p, i)) value) : s.Arrived p i := by
  apply sound.accounted.arrived
  intro same
  rw [same] at found
  exact blank p i inside found

theorem step (blank : ∀ p, ∀ i < len, ¬ cmp.Holds (initial (p, i)) value) (s : Waits P T) (e : Event P T)
    (sound : Once s.issued → Sound len cmp value initial s) (fires : (machine addr len).enabled s e)
    (once : Once ((machine addr len).next s e).issued) :
    Sound len cmp value initial ((machine addr len).next s e) := by
  cases e with
  | put p start data pe =>
    obtain ⟨accounted, calls, finds⟩ := sound once.earlier
    refine ⟨accounted.issue once, calls, ?_⟩
    intro q call result member same_cmp same_value
    exact (finds q call result member same_cmp same_value).imp fun i _ arrived => arrived.issue once
  | land j =>
    have chosen : s.flight[j]? = some s.flight[j] := List.getElem?_eq_getElem fires
    simp only [machine, next, chosen] at once ⊢
    obtain ⟨accounted, calls, finds⟩ := sound once
    refine ⟨accounted.land once chosen, calls, ?_⟩
    intro q call result member same_cmp same_value
    exact (finds q call result member same_cmp same_value).imp fun i _ arrived => arrived.land chosen
  | call p method =>
    obtain ⟨accounted, calls, finds⟩ := sound once
    refine ⟨accounted, ?_, finds⟩
    intro q call waits
    by_cases same : q = p
    · subst same
      obtain ⟨given, called, _, length⟩ := fires.2
      obtain rfl : given = call := by
        simpa [machine, next, Option.mem_def.mp called] using waits
      exact length
    · exact calls q call (by simpa [machine, next, same] using waits)
  | wake p reply =>
    obtain ⟨call, waits, replies⟩ := fires
    simp only [machine, next, Option.mem_def.mp waits] at once ⊢
    obtain ⟨accounted, calls, finds⟩ := sound once
    refine ⟨accounted, ?_, ?_⟩
    · intro q other others
      by_cases same : q = p
      · simp [same] at others
      · exact calls q other (by simpa [same] using others)
    · intro q other result member same_cmp same_value
      rcases List.mem_append.mp member with older | newest
      · exact finds q other result older same_cmp same_value
      · obtain ⟨rfl, rfl, rfl⟩ : q = p ∧ other = call ∧ result = call.result reply := by
          simpa using newest
        rw [WaitCall.result_eq replies]
        refine replies.imp fun i inside found => ?_
        rw [same_cmp, same_value] at found
        exact (sound once).arrived blank (calls q other waits ▸ inside) found

theorem run (blank : ∀ p, ∀ i < len, ¬ cmp.Holds (initial (p, i)) value) {events : List (Event P T)}
    (admitted : (machine addr len).Admits (start initial) events)
    (once : Once ((machine addr len).after (start initial) events).issued) :
    Sound len cmp value initial ((machine addr len).after (start initial) events) := by
  have first : Sound len cmp value initial (start initial) :=
    ⟨Accounted.start initial, fun _ _ waits => absurd waits (by simp [start]),
      fun _ _ _ member => absurd member List.not_mem_nil⟩
  exact (machine addr len).invariant (step blank) (fun _ => first) admitted once

/-- Once everything has arrived, what was put is there. -/
theorem landed (sound : Sound len cmp value initial s)
    (signals : ∀ piece ∈ s.issued, cmp.Holds piece.value value) (settled : s.flight = []) {p : Fin P}
    {i : Nat} (put : s.Put p i) : cmp.Holds (s.mem (p, i)) value := by
  obtain ⟨piece, issued, same⟩ := put
  rcases sound.accounted.landed piece issued with travels | holds
  · simp [settled] at travels
  · rw [← same, holds]
    exact signals piece issued

end Sound

end Waits

/-- The waits for a condition which no element meets at first, where no element is put twice. -/
theorem waits_gather [Waitable T] (addr len : Nat) (cmp : ShmemCompareOp) (value : T)
    (initial : Fin P × Nat → T) (events : List (Waits.Event P T))
    (run : (Waits.machine addr len).Admits (Waits.start initial) events)
    (blank : ∀ p, ∀ i < len, ¬ cmp.Holds (initial (p, i)) value)
    (once : Once ((Waits.machine addr len).after (Waits.start initial) events).issued) :
    Waits.Gathers addr len cmp value ((Waits.machine addr len).after (Waits.start initial) events) := by
  have sound := Waits.Sound.run blank run once
  refine ⟨sound.finds, ?_⟩
  intro signals still asleep p call waits same_cmp same_value reply replies
  have settled : ((Waits.machine addr len).after (Waits.start initial) events).flight = [] := by
    refine List.eq_nil_of_length_eq_zero (Nat.eq_zero_of_not_pos fun some_ => still 0 some_)
  refine asleep p reply ⟨call, waits, replies.imp fun i _ put => ?_⟩
  rw [same_cmp, same_value]
  exact sound.landed signals settled put

instance : Waitable Size.size32.TreatAsA := Waitable.int .size32 false

/-- Two words of PE 0. -/
def twoWords : Shbox Size.size32.TreatAsA := ⟨16, 2, by decide⟩

/-- PE 0 waits for some of the two elements which PE 1 puts, and then for all of them. -/
theorem waits_gather_two :
    Waits.Gathers 16 2 .greater 0 ((Waits.machine 16 2).after
      (Waits.start fun _ : Fin 2 × Nat => (0 : Size.size32.TreatAsA))
        [.call 0 (.waitUntilSome twoWords .greater 0), .put 1 0 [7, 9] 0, .land 1, .wake 0 [1],
          .call 0 (.waitUntilAll twoWords .greater 0)]) :=
  waits_gather 16 2 .greater 0 _ _ (by decide) (by decide) (by decide)

end OpenShmem
