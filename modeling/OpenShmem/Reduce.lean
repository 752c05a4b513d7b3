import Mathlib.Data.BitVec
import Mathlib.Order.Bounds.Basic
import Mathlib.Tactic.Order
import OpenShmem.ForceAtomic
import OpenShmem.Lockstep

/-! Reductions of a symmetric object into itself. All PEs call one; each gets the elements
of all of them combined, in an order which is up to the library. -/
namespace OpenShmem

variable {P w : Nat} {T : Type}

inductive ReduceRoutine where
  | sum
  | prod
  | and
  | or
  | xor
  | max
  | min
  deriving DecidableEq, Repr

/-- What the routines of a type do with two of its values. -/
structure Typename (T : Type) where
  combine : ReduceRoutine → T → T → T

/-- One call of `shmem_<typename>_<routine>_reduce` on the world team. -/
structure ReduceCall (T : Type) where
  routine : ReduceRoutine
  combine : T → T → T
  dest : Nat
  source : Nat
  nreduce : Nat

inductive ReducePanic where
  /-- `assert!(shbox.len() >= n)` -/
  | lenBelow (len n : Nat)
  deriving DecidableEq, Repr

/-- What every implementation of the reduction traits comes to. -/
def reduceCall (typename : Typename T) (routine : ReduceRoutine) (shbox n : Nat) : ReduceCall T :=
  ⟨routine, typename.combine routine, shbox, shbox, n⟩

/-! ### The traits -/
section

variable (typename : Typename T)

def sumInto (shbox : Nat) : ReduceCall T := reduceCall typename .sum shbox 1

def prodInto (shbox : Nat) : ReduceCall T := reduceCall typename .prod shbox 1

def andInto (shbox : Nat) : ReduceCall T := reduceCall typename .and shbox 1

def orInto (shbox : Nat) : ReduceCall T := reduceCall typename .or shbox 1

def xorInto (shbox : Nat) : ReduceCall T := reduceCall typename .xor shbox 1

def maxInto (shbox : Nat) : ReduceCall T := reduceCall typename .max shbox 1

def minInto (shbox : Nat) : ReduceCall T := reduceCall typename .min shbox 1

variable [Pod T] (shbox : Shbox T) (n : Usize)

/-- The arithmetic reductions of many elements look at the length first. -/
def checkedCall (routine : ReduceRoutine) : Except ReducePanic (ReduceCall T) :=
  if n.toNat ≤ shbox.len.toNat then .ok (reduceCall typename routine shbox.addr n.toNat)
  else .error (.lenBelow shbox.len.toNat n.toNat)

def sumIntoMany : Except ReducePanic (ReduceCall T) := checkedCall typename shbox n .sum

def prodIntoMany : Except ReducePanic (ReduceCall T) := checkedCall typename shbox n .prod

def andIntoMany : ReduceCall T := reduceCall typename .and shbox.addr n.toNat

def orIntoMany : ReduceCall T := reduceCall typename .or shbox.addr n.toNat

def xorIntoMany : ReduceCall T := reduceCall typename .xor shbox.addr n.toNat

def maxIntoMany : ReduceCall T := reduceCall typename .max shbox.addr n.toNat

def minIntoMany : ReduceCall T := reduceCall typename .min shbox.addr n.toNat

end

/-! ### The methods of `Shbox` -/

/-- A `Shbox<T>`, by its address, or a `Shbox<[T]>`. -/
inductive Reducible (T : Type) [Pod T] where
  | one (shbox : Nat)
  | many (shbox : Shbox T)

namespace Reducible

variable [Pod T] (typename : Typename T)

def addr : Reducible T → Nat
  | .one shbox => shbox
  | .many shbox => shbox.addr

def len : Reducible T → Nat
  | .one _ => 1
  | .many shbox => shbox.len.toNat

def reduceSum : Reducible T → Except ReducePanic (ReduceCall T)
  | .one shbox => .ok (sumInto typename shbox)
  | .many shbox => sumIntoMany typename shbox shbox.len

def reduceProd : Reducible T → Except ReducePanic (ReduceCall T)
  | .one shbox => .ok (prodInto typename shbox)
  | .many shbox => prodIntoMany typename shbox shbox.len

def reduceAnd : Reducible T → ReduceCall T
  | .one shbox => andInto typename shbox
  | .many shbox => andIntoMany typename shbox shbox.len

def reduceOr : Reducible T → ReduceCall T
  | .one shbox => orInto typename shbox
  | .many shbox => orIntoMany typename shbox shbox.len

def reduceXor : Reducible T → ReduceCall T
  | .one shbox => xorInto typename shbox
  | .many shbox => xorIntoMany typename shbox shbox.len

def reduceMax : Reducible T → ReduceCall T
  | .one shbox => maxInto typename shbox
  | .many shbox => maxIntoMany typename shbox shbox.len

def reduceMin : Reducible T → ReduceCall T
  | .one shbox => minInto typename shbox
  | .many shbox => minIntoMany typename shbox shbox.len

def reduce (shbox : Reducible T) : ReduceRoutine → Except ReducePanic (ReduceCall T)
  | .sum => shbox.reduceSum typename
  | .prod => shbox.reduceProd typename
  | .and => .ok (shbox.reduceAnd typename)
  | .or => .ok (shbox.reduceOr typename)
  | .xor => .ok (shbox.reduceXor typename)
  | .max => .ok (shbox.reduceMax typename)
  | .min => .ok (shbox.reduceMin typename)

/-- Every method calls its routine, in place and on all elements. -/
theorem reduce_ok (shbox : Reducible T) (routine : ReduceRoutine) :
    shbox.reduce typename routine = .ok (reduceCall typename routine shbox.addr shbox.len) := by
  have checked (shbox : Shbox T) (routine : ReduceRoutine) :
      checkedCall typename shbox shbox.len routine =
        .ok (reduceCall typename routine shbox.addr shbox.len.toNat) := if_pos (Nat.le_refl _)
  cases shbox <;> cases routine <;> first | rfl | exact checked _ _

end Reducible

/-! ### Integers -/

/-- The later of two values, unless the earlier one has the greater key. -/
def pick {κ : Type} [LinearOrder κ] (key : T → κ) (a b : T) : T := if key a ≤ key b then b else a

/-- The integer types, of which a signed one only compares in another way. -/
def ints (w : Nat) (signed : Bool) : Typename (BitVec w) where
  combine
    | .sum => (· + ·)
    | .prod => (· * ·)
    | .and => (· &&& ·)
    | .or => (· ||| ·)
    | .xor => (· ^^^ ·)
    | .max => if signed then pick BitVec.toInt else pick BitVec.toNat
    | .min => if signed then pick (-BitVec.toInt ·) else pick (fun v => -(v.toNat : Int))

section

variable {κ : Type} [LinearOrder κ] {key : T → κ}

theorem pick_comm (injective : Function.Injective key) : Std.Commutative (pick key) := by
  refine ⟨fun a b => ?_⟩
  rcases lt_trichotomy (key a) (key b) with less | same | greater
  · simp [pick, less.le, not_le.mpr less]
  · rw [injective same]
  · simp [pick, greater.le, not_le.mpr greater]

theorem pick_assoc : Std.Associative (pick key) := by
  refine ⟨fun a b c => ?_⟩
  unfold pick
  split_ifs <;> first | rfl | (exfalso; order)

end

theorem ints_lawful (w : Nat) (signed : Bool) (routine : ReduceRoutine) :
    Std.Commutative ((ints w signed).combine routine) ∧
      Std.Associative ((ints w signed).combine routine) := by
  cases routine with
  | sum => exact ⟨⟨BitVec.add_comm⟩, ⟨BitVec.add_assoc⟩⟩
  | prod => exact ⟨⟨BitVec.mul_comm⟩, ⟨BitVec.mul_assoc⟩⟩
  | and => exact ⟨⟨BitVec.and_comm⟩, ⟨BitVec.and_assoc⟩⟩
  | or => exact ⟨⟨BitVec.or_comm⟩, ⟨BitVec.or_assoc⟩⟩
  | xor => exact ⟨⟨BitVec.xor_comm⟩, ⟨BitVec.xor_assoc⟩⟩
  | max =>
    cases signed
    · exact ⟨pick_comm fun _ _ same => BitVec.eq_of_toNat_eq same, pick_assoc⟩
    · exact ⟨pick_comm fun _ _ same => BitVec.eq_of_toInt_eq same, pick_assoc⟩
  | min =>
    cases signed
    · exact ⟨pick_comm fun _ _ same => BitVec.eq_of_toNat_eq (by simpa using same), pick_assoc⟩
    · exact ⟨pick_comm fun _ _ same => BitVec.eq_of_toInt_eq (by simpa using same), pick_assoc⟩

/-! ### Programs of reductions -/

/-- What a PE does with its part of the object before it calls the routine. -/
abbrev LocalWork (P : Nat) (T : Type) := Fin P → List ((Nat → T) → Nat → T)

/-- The routine on parts which begin where the object does. -/
def ReduceCall.round (orders : Lockstep.Orders P Nat) (work : LocalWork P T) (call : ReduceCall T) :
    Lockstep.Round P (Nat → T) (Nat → T) :=
  .reduce work orders call.combine fun i => i < call.nreduce

section

variable [Pod T]

/-- What all PEs do, step by step: each works on its part and then calls a method. The orders are
those of each call. -/
def rounds (typename : Typename T) (shbox : Reducible T) (orders : Nat → Lockstep.Orders P Nat)
    (program : List (LocalWork P T × ReduceRoutine)) : List (Lockstep.Round P (Nat → T) (Nat → T)) :=
  program.mapIdx fun k (work, routine) =>
    (reduceCall typename routine shbox.addr shbox.len).round (orders k) work

/-- The PEs which run such a program. -/
abbrev reducing (typename : Typename T) (shbox : Reducible T) (orders : Nat → Lockstep.Orders P Nat)
    (program : List (LocalWork P T × ReduceRoutine)) :
    Machine (Phases.State P (Lockstep.Act P (Nat → T) (Nat → T)) (Lockstep.Memory P (Nat → T) (Nat → T)))
      (Phases.Event P) :=
  (Lockstep.meaning P (Nat → T) (Nat → T)).machine
    (Lockstep.program (rounds typename shbox orders program))

/-- Every call covers the object, and behind each PE finds what all would have come to in
turn. There the elements of all PEs are equal, whatever the order in which the library combines
them. -/
structure Reduces (typename : Typename T) (shbox : Reducible T) (orders : Nat → Lockstep.Orders P Nat)
    (program : List (LocalWork P T × ReduceRoutine)) (initial : Fin P → Nat → T)
    (s : Phases.State P (Lockstep.Act P (Nat → T) (Nat → T)) (Lockstep.Memory P (Nat → T) (Nat → T)))
    (length : Nat) : Prop where
  calls : ∀ routine, shbox.reduce typename routine =
    .ok ⟨routine, typename.combine routine, shbox.addr, shbox.addr, shbox.len⟩
  finds : ∀ p k i, s.place p = .working k (i + 1) →
    s.mem.state p = Lockstep.perform
      ((Lockstep.work (rounds typename shbox orders program) k p).take i)
      (Lockstep.behind (rounds typename shbox orders program) initial k p)
  combined : ∀ k work routine, program[k]? = some (work, routine) → ∀ p, ∀ i < shbox.len,
    some (Lockstep.behind (rounds typename shbox orders program) initial (k + 1) p i) =
      Lockstep.foldAll (typename.combine routine) (List.ofFn fun q =>
        Lockstep.perform (work q)
          (Lockstep.behind (rounds typename shbox orders program) initial k q) i)
  rest : ∀ k work routine, program[k]? = some (work, routine) → ∀ p, ∀ i ≥ shbox.len,
    Lockstep.behind (rounds typename shbox orders program) initial (k + 1) p i =
      Lockstep.perform (work p)
        (Lockstep.behind (rounds typename shbox orders program) initial k p) i
  ends : Phases.Ends (Lockstep.program (rounds typename shbox orders program)) s length

/-- For all programs of reductions by associative and commutative operations, and all
schedules. -/
theorem reductions_agree (typename : Typename T) (shbox : Reducible T) (orders : Nat → Lockstep.Orders P Nat)
    (program : List (LocalWork P T × ReduceRoutine))
    (lawful : ∀ step ∈ program, Std.Commutative (typename.combine step.2) ∧
      Std.Associative (typename.combine step.2))
    (initial : Fin P → Nat → T) (given : Nat → Fin P → Nat → T) (events : List (Phases.Event P))
    (run : (reducing typename shbox orders program).Admits (Phases.start P _ ⟨initial, given⟩) events) :
    Reduces typename shbox orders program initial
      ((reducing typename shbox orders program).after (Phases.start P _ ⟨initial, given⟩) events)
      events.length := by
  have round (k : Nat) (work : LocalWork P T) (routine : ReduceRoutine)
      (step : program[k]? = some (work, routine)) : (rounds typename shbox orders program)[k]? =
        some ((reduceCall typename routine shbox.addr shbox.len).round (orders k) work) := by
    rw [rounds, List.getElem?_mapIdx, step]
    rfl
  refine ⟨shbox.reduce_ok typename, ?_, ?_, ?_, Phases.ends run⟩
  · intro p k i at_
    exact (Lockstep.Agrees.run _ initial given run).working at_
  · intro k work routine step p i inside
    obtain ⟨commutative, associative⟩ := lawful _ (List.mem_of_getElem? step)
    rw [Lockstep.behind_succ (round k work routine step)]
    exact Lockstep.Round.run_reduce (typename.combine routine) work (orders k) (· < shbox.len) _ p inside
  · intro k work routine step p i outside
    rw [Lockstep.behind_succ (round k work routine step)]
    exact Lockstep.Round.run_reduce_outside _ work (orders k) (· < shbox.len) _ p (Nat.not_lt.mpr outside)

end

/-- From the first PE on, or from the last one on. -/
def eitherOrder {ι : Type} (fromLast : Fin P → ι → Bool) : Lockstep.Orders P ι where
  order p i := if fromLast p i then (List.finRange P).reverse else List.finRange P
  all p i := by
    split
    · exact List.reverse_perm _
    · exact List.Perm.refl _

/-- Another order for each call, each PE and each element. -/
def alternating (k : Nat) : Lockstep.Orders 2 Nat := eitherOrder fun p i => (k + p.val + i) % 2 = 0

/-- Two elements, to which PE 1 adds one before both take the sum, and then the maximum. -/
theorem reductions_agree_two :
    Reduces (ints (8 * Size.size32.bytes) true) (.many ⟨16, 2, by decide⟩) alternating
      [(fun p => if p = 1 then [fun part i => part i + 1] else [], .sum), (fun _ => [], .max)]
      (fun p i => BitVec.ofNat _ (3 * p.val + i))
      ((reducing (ints (8 * Size.size32.bytes) true) (.many ⟨16, 2, by decide⟩) alternating
        [(fun p => if p = 1 then [fun part i => part i + 1] else [], .sum), (fun _ => [], .max)]).after
        (Phases.start 2 _ ⟨fun p i => BitVec.ofNat _ (3 * p.val + i), fun _ _ _ => 0⟩) [.act 1, .act 0, .act 0,
          .arrive 0, .act 1, .act 1, .arrive 1, .leave 1, .act 1, .leave 0, .act 0, .act 0, .act 1, .arrive 1,
          .arrive 0, .leave 0, .act 0, .leave 1, .act 1]) 19 :=
  reductions_agree _ _ _ _ (fun step _ => ints_lawful _ _ step.2) _ _ _ (by decide)

/-! ### Reducing again -/

/-- What reducing a value on which all PEs agree `m` times comes to. -/
def again (P m : Nat) (v : BitVec w) : ReduceRoutine → BitVec w
  | .sum => BitVec.ofNat w (P ^ m) * v
  | .prod => v ^ P ^ m
  | .and | .or | .max | .min => v
  | .xor => if m = 0 ∨ P % 2 = 1 then v else 0

theorem power_ints (signed : Bool) (routine : ReduceRoutine) {count : Nat} (positive : 0 < count)
    (v : BitVec w) :
    Lockstep.power ((ints w signed).combine routine) count v = again count 1 v routine := by
  cases routine with
  | and => exact Lockstep.power_idempotent (fun _ => BitVec.and_self) positive v
  | or => exact Lockstep.power_idempotent (fun _ => BitVec.or_self) positive v
  | max => exact Lockstep.power_idempotent (fun _ => by cases signed <;> exact ite_self _) positive v
  | min => exact Lockstep.power_idempotent (fun _ => by cases signed <;> exact ite_self _) positive v
  | sum =>
    induction count, positive using Nat.le_induction with
    | base => simp [again]
    | succ count positive ih =>
      rw [Lockstep.power_succ _ positive, ih]
      simp only [ints, again, Nat.pow_one, BitVec.ofNat_add, BitVec.add_mul,
        BitVec.one_mul]
  | prod =>
    induction count, positive using Nat.le_induction with
    | base => simp [again]
    | succ count positive ih =>
      rw [Lockstep.power_succ _ positive, ih]
      simp only [ints, again, Nat.pow_one, BitVec.pow_succ]
  | xor =>
    induction count, positive using Nat.le_induction with
    | base => simp [again]
    | succ count positive ih =>
      rw [Lockstep.power_succ _ positive, ih]
      simp only [ints, again, Nat.one_ne_zero, false_or]
      rcases Nat.mod_two_eq_zero_or_one count with even | odd
      · simp [even, Nat.add_mod]
      · simp [odd, Nat.add_mod]

theorem iterate_power_ints (signed : Bool) (routine : ReduceRoutine) (positive : 0 < P) (m : Nat)
    (v : BitVec w) :
    (Lockstep.power ((ints w signed).combine routine) P)^[m] v = again P m v routine := by
  induction m with
  | zero => cases routine <;> simp [again]
  | succ m ih =>
    rw [Function.iterate_succ_apply', ih, power_ints signed routine positive]
    cases routine with
    | sum => simp only [again, pow_one, pow_succ' P m, BitVec.ofNat_mul, BitVec.mul_assoc]
    | prod => simp only [again, pow_one, pow_succ P m, pow_mul]
    | and | or | max | min => rfl
    | xor =>
      simp only [again, Nat.succ_ne_zero, false_or]
      split_ifs <;> simp_all

/-- A second reduction is not for nothing: sums are multiplied by the number of PEs, products
raised to it, and what is xored with itself an even number of times is gone. -/
theorem reductions_again [Pod (BitVec w)] (signed : Bool) (shbox : Reducible (BitVec w))
    (orders : Nat → Lockstep.Orders P Nat) (routine : ReduceRoutine) (m : Nat) (initial : Fin P → Nat → BitVec w)
    (given : Nat → Fin P → Nat → BitVec w) (events : List (Phases.Event P))
    (run : (reducing (ints w signed) shbox orders (List.replicate (m + 1)
      (fun _ => [], routine))).Admits (Phases.start P _ ⟨initial, given⟩) events)
    (p : Fin P) (i : Nat) (through : ((reducing (ints w signed) shbox orders (List.replicate (m + 1)
      (fun _ => [], routine))).after (Phases.start P _ ⟨initial, given⟩) events).place p =
        .working (m + 1) (i + 1))
    {j : Nat} (inside : j < shbox.len) {total : BitVec w}
    (once : Lockstep.foldAll ((ints w signed).combine routine) (List.ofFn fun q => initial q j) =
      some total) :
    ((reducing (ints w signed) shbox orders (List.replicate (m + 1) (fun _ => [], routine))).after
      (Phases.start P _ ⟨initial, given⟩) events).mem.state p j = again P m total routine := by
  obtain ⟨commutative, associative⟩ := ints_lawful w signed routine
  have each (k : Nat) (early : k ≤ m) : (rounds (ints w signed) shbox orders
      (List.replicate (m + 1) ((fun _ => [] : LocalWork P (BitVec w)), routine)))[k]? =
        some (.reduce (fun _ => []) (orders k) ((ints w signed).combine routine) (· < shbox.len)) := by
    rw [rounds, List.getElem?_mapIdx, List.getElem?_replicate, if_pos (Nat.lt_succ_of_le early)]
    rfl
  have idle : Lockstep.work (rounds (ints w signed) shbox orders
      (List.replicate (m + 1) ((fun _ => [] : LocalWork P (BitVec w)), routine))) (m + 1) p = [] := by
    rw [Lockstep.work, List.getElem?_eq_none (by simp [rounds])]
  rw [(Lockstep.Agrees.run _ initial given run).working through, idle, List.take_nil,
    ← iterate_power_ints signed routine (Nat.zero_lt_of_lt p.isLt)]
  exact Lockstep.behind_reduce_again _ (· < shbox.len) initial p inside once each

/-- Two PEs, which xor twice. -/
theorem reductions_again_two :
    ((reducing (ints (8 * Size.size32.bytes) false) (.one 16) alternating
      (List.replicate 2 (fun _ => [], .xor))).after
        (Phases.start 2 _ ⟨fun p _ => if p = 0 then 5 else 9, fun _ _ _ => 0⟩) [.act 1, .act 0, .act 0,
          .arrive 0, .act 1, .arrive 1, .leave 1, .act 1, .leave 0, .act 0, .act 0, .act 1, .arrive 1,
          .arrive 0, .leave 0, .act 0]).mem.state 0 0 =
      again 2 1 (12 : BitVec (8 * Size.size32.bytes)) .xor :=
  reductions_again false _ _ .xor 1 _ _ _ (by decide) 0 0 (by decide) (by decide) rfl

end OpenShmem
