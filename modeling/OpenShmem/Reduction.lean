import OpenShmem.Reduce
import OpenShmem.Spmd

/-! The program `reduction.rs`: every PE has four numbers and the largest of them. Then
all take the minimum of the numbers, one by one, and the maximum of the largest ones. -/
namespace OpenShmem

variable {P : Nat} {T : Type}

namespace Reduction

/-- The elements of `numbers` and that of `max`. -/
inductive Cell where
  | numbers (i : Nat)
  | max
  deriving DecidableEq, Repr

def Cell.InNumbers (count : Nat) : Cell → Prop
  | .numbers i => i < count
  | .max => False

def Cell.InMax (count : Nat) : Cell → Prop
  | .numbers _ => False
  | .max => 0 < count

instance (count : Nat) : DecidablePred (Cell.InNumbers count)
  | .numbers _ => inferInstanceAs (Decidable (_ < _))
  | .max => .isFalse id

instance (count : Nat) : DecidablePred (Cell.InMax count)
  | .numbers _ => .isFalse id
  | .max => inferInstanceAs (Decidable (_ < _))

def store (cell : Cell) (value : (Cell → T) → T) (cells : Cell → T) : Cell → T :=
  Function.update cells cell (value cells)

variable [LinearOrder T]

/-- `*numbers.iter().max_by(|a, b| a.total_cmp(b)).unwrap()` -/
def largest (cells : Cell → T) : T :=
  (Lockstep.foldAll max ((List.range 4).map fun i => cells (.numbers i))).getD (cells .max)

variable [Pod T]

/-- From the allocation of `numbers` to the last reduction. Both allocations are barriers, and
that of `max` leaves what was there. The orders are those of the two reductions. -/
def main (typename : Typename T) (orders : Nat → Lockstep.Orders P Cell) (numbers : Shbox T) (max : Nat)
    (randoms : Fin P → Nat → T) : List (Lockstep.Round P (Cell → T) (Cell → T)) :=
  [.barrier (fun _ => (List.range 4).map fun i => store (.numbers i) fun _ => zeroed T) id,
    .barrier (fun p => (List.range 4).map fun i => store (.numbers i) fun _ => randoms p i) id,
    .barrier (fun _ => [store .max largest]) id,
    .reduce (fun _ => []) (orders 0) ((Reducible.many numbers).reduceMin typename).combine
      (Cell.InNumbers ((Reducible.many numbers).reduceMin typename).nreduce),
    .reduce (fun _ => []) (orders 1) ((Reducible.one max : Reducible T).reduceMax typename).combine
      (Cell.InMax ((Reducible.one max : Reducible T).reduceMax typename).nreduce)]

abbrev machine (typename : Typename T) (orders : Nat → Lockstep.Orders P Cell) (numbers : Shbox T) (max : Nat)
    (randoms : Fin P → Nat → T) :
    Machine (Phases.State P (Lockstep.Act P (Cell → T) (Cell → T))
      (Lockstep.Memory P (Cell → T) (Cell → T))) (Phases.Event P) :=
  (Lockstep.meaning P (Cell → T) (Cell → T)).machine
    (Lockstep.program (main typename orders numbers max randoms))

end Reduction

/-! ### Extreme values -/
section

variable [LinearOrder T] {l : List T} {v : T}

theorem foldAll_min (folded : Lockstep.foldAll min l = some v) : IsLeast {x | x ∈ l} v := by
  have least : l.min? = some v := by cases l <;> exact folded
  exact List.min?_eq_some_iff.mp least

theorem foldAll_max (folded : Lockstep.foldAll max l = some v) : IsGreatest {x | x ∈ l} v := by
  have greatest : l.max? = some v := by cases l <;> exact folded
  exact List.max?_eq_some_iff.mp greatest

end

namespace Reduction

theorem store_self (cell : Cell) (value : (Cell → T) → T) (cells : Cell → T) :
    store cell value cells cell = value cells := Function.update_self ..

theorem store_other {cell other : Cell} (apart : other ≠ cell) (value : (Cell → T) → T)
    (cells : Cell → T) : store cell value cells other = cells other := Function.update_of_ne apart ..

/-- The stores of the first numbers. -/
theorem perform_numbers (numbers : Nat → T) (cells : Cell → T) {count i : Nat} (inside : i < count) :
    Lockstep.perform ((List.range count).map fun i => store (.numbers i) fun _ => numbers i) cells
      (.numbers i) = numbers i := by
  induction count with
  | zero => exact absurd inside (Nat.not_lt_zero i)
  | succ count ih =>
    rw [List.range_succ, List.map_append, List.map_singleton, Lockstep.perform_concat]
    by_cases last : i = count
    · rw [last, store_self]
    · rw [store_other (fun same => last (Cell.numbers.inj same))]
      exact ih (Nat.lt_of_le_of_ne (Nat.le_of_lt_succ inside) last)

variable [LinearOrder T]

/-- The extreme values of all PEs. -/
structure Extremes (randoms : Fin P → Nat → T) (cells : Cell → T) : Prop where
  numbers : ∀ i < 4, IsLeast {x | ∃ q, randoms q i = x} (cells (.numbers i))
  max : IsGreatest {x | ∃ q, ∃ i < 4, randoms q i = x} (cells .max)

/-- The largest of a PE's own numbers. -/
theorem largest_greatest {numbers : Nat → T} {cells : Cell → T}
    (held : ∀ i < 4, cells (.numbers i) = numbers i) :
    IsGreatest {x | ∃ i < 4, numbers i = x} (largest cells) := by
  have four : (List.range 4).map (fun i => cells (.numbers i)) = (List.range 4).map numbers :=
    List.map_congr_left fun i member => held i (List.mem_range.mp member)
  have some_ : (List.range 4).map numbers ≠ [] := List.cons_ne_nil _ _
  obtain ⟨v, folded⟩ := Lockstep.foldAll_isSome max some_
  have greatest := foldAll_max folded
  rw [largest, four, folded, Option.getD_some]
  simpa only [List.mem_map, List.mem_range] using greatest

section

variable [Pod T] (typename : Typename T) (orders : Nat → Lockstep.Orders P Cell) (numbers : Shbox T) (box : Nat)
  (randoms : Fin P → Nat → T) (initial : Fin P → Cell → T)

/-- Up to the reductions every PE has its own numbers, and the largest of them. -/
theorem behind_own (p : Fin P) :
    (∀ i < 4, Lockstep.behind (main typename orders numbers box randoms) initial 3 p (.numbers i) =
        randoms p i) ∧
      IsGreatest {x | ∃ i < 4, randoms p i = x}
        (Lockstep.behind (main typename orders numbers box randoms) initial 3 p .max) := by
  have stored (i : Nat) (inside : i < 4) :
      Lockstep.behind (main typename orders numbers box randoms) initial 2 p (.numbers i) =
        randoms p i := perform_numbers (randoms p) _ inside
  have own : Lockstep.behind (main typename orders numbers box randoms) initial 3 p =
      store .max largest (Lockstep.behind (main typename orders numbers box randoms) initial 2 p) := rfl
  rw [own]
  constructor
  · intro i inside
    rw [store_other Cell.noConfusion, stored i inside]
  · rw [store_self]
    exact largest_greatest stored

/-- The first reduction is that of `numbers`. -/
theorem behind_numbers (four : numbers.len = 4) (minimum : typename.combine .min = min) (p : Fin P) :
    (∀ i < 4, IsLeast {x | ∃ q, randoms q i = x}
        (Lockstep.behind (main typename orders numbers box randoms) initial 4 p (.numbers i))) ∧
      Lockstep.behind (main typename orders numbers box randoms) initial 4 p .max =
        Lockstep.behind (main typename orders numbers box randoms) initial 3 p .max := by
  have commutative : Std.Commutative (typename.combine .min) := by
    rw [minimum]
    infer_instance
  have associative : Std.Associative (typename.combine .min) := by
    rw [minimum]
    infer_instance
  have length : ((Reducible.many numbers).reduceMin typename).nreduce = 4 := congrArg BitVec.toNat four
  constructor
  · intro i inside
    have within : Cell.InNumbers ((Reducible.many numbers).reduceMin typename).nreduce (.numbers i) := by
      rw [length]
      exact inside
    have reduced : some (Lockstep.behind (main typename orders numbers box randoms) initial 4 p
        (.numbers i)) = Lockstep.foldAll (typename.combine .min) (List.ofFn fun q =>
          Lockstep.perform [] (Lockstep.behind (main typename orders numbers box randoms) initial 3 q)
            (.numbers i)) :=
      Lockstep.Round.run_reduce (typename.combine .min) (fun _ => []) (orders 0) _ _ p within
    have own : (List.ofFn fun q => Lockstep.perform []
        (Lockstep.behind (main typename orders numbers box randoms) initial 3 q) (.numbers i)) =
          List.ofFn fun q => randoms q i :=
      congrArg List.ofFn (funext fun q => (behind_own typename orders numbers box randoms initial q).1 i inside)
    rw [own, minimum] at reduced
    simpa only [List.mem_ofFn] using foldAll_min reduced.symm
  · exact Lockstep.Round.run_reduce_outside _ (fun _ => []) (orders 0) _ _ p id

/-- The second one is that of `max`. -/
theorem behind_extremes (four : numbers.len = 4) (minimum : typename.combine .min = min)
    (maximum : typename.combine .max = max) (p : Fin P) :
    Extremes randoms (Lockstep.behind (main typename orders numbers box randoms) initial 5 p) := by
  have commutative : Std.Commutative (typename.combine .max) := by
    rw [maximum]
    infer_instance
  have associative : Std.Associative (typename.combine .max) := by
    rw [maximum]
    infer_instance
  constructor
  · intro i inside
    have kept : Lockstep.behind (main typename orders numbers box randoms) initial 5 p (.numbers i) =
        Lockstep.behind (main typename orders numbers box randoms) initial 4 p (.numbers i) :=
      Lockstep.Round.run_reduce_outside _ (fun _ => []) (orders 1) _ _ p id
    rw [kept]
    exact (behind_numbers typename orders numbers box randoms initial four minimum p).1 i inside
  · have within : Cell.InMax ((Reducible.one box : Reducible T).reduceMax typename).nreduce .max :=
      Nat.zero_lt_one
    have reduced : some (Lockstep.behind (main typename orders numbers box randoms) initial 5 p .max) =
        Lockstep.foldAll (typename.combine .max) (List.ofFn fun q => Lockstep.perform []
          (Lockstep.behind (main typename orders numbers box randoms) initial 4 q) .max) :=
      Lockstep.Round.run_reduce (typename.combine .max) (fun _ => []) (orders 1) _ _ p within
    have own : (List.ofFn fun q => Lockstep.perform []
        (Lockstep.behind (main typename orders numbers box randoms) initial 4 q) .max) =
          List.ofFn fun q => Lockstep.behind (main typename orders numbers box randoms) initial 3 q .max :=
      congrArg List.ofFn (funext fun q =>
        (behind_numbers typename orders numbers box randoms initial four minimum q).2)
    rw [own, maximum] at reduced
    obtain ⟨found, above⟩ := foldAll_max reduced.symm
    constructor
    · obtain ⟨q, same⟩ := List.mem_ofFn.mp found
      obtain ⟨i, inside, number⟩ := (behind_own typename orders numbers box randoms initial q).2.1
      exact ⟨q, i, inside, number.trans same⟩
    · rintro x ⟨q, i, inside, rfl⟩
      refine le_trans ((behind_own typename orders numbers box randoms initial q).2.2 ⟨i, inside, rfl⟩) ?_
      exact above (List.mem_ofFn.mpr ⟨q, rfl⟩)

/-- Behind the last reduction every PE sees these, and every schedule ends there. -/
structure Prints (s : Phases.State P (Lockstep.Act P (Cell → T) (Cell → T))
    (Lockstep.Memory P (Cell → T) (Cell → T))) (length : Nat) : Prop where
  sees : ∀ p i, s.place p = .working 5 (i + 1) → Extremes randoms (s.mem.state p)
  ends : Phases.Ends (Lockstep.program (main typename orders numbers box randoms)) s length

end

end Reduction

/-- For every order in which the PEs run and the library combines. -/
theorem reduction_prints [LinearOrder T] [Pod T] (typename : Typename T)
    (minimum : typename.combine .min = min) (maximum : typename.combine .max = max)
    (orders : Nat → Lockstep.Orders P Reduction.Cell) (numbers : Shbox T) (four : numbers.len = 4) (box : Nat)
    (randoms : Fin P → Nat → T) (initial : Fin P → Reduction.Cell → T)
    (given : Nat → Fin P → Reduction.Cell → T) (events : List (Phases.Event P))
    (run : (Reduction.machine typename orders numbers box randoms).Admits
      (Phases.start P _ ⟨initial, given⟩) events) :
    Reduction.Prints typename orders numbers box randoms
      ((Reduction.machine typename orders numbers box randoms).after
        (Phases.start P _ ⟨initial, given⟩) events) events.length := by
  refine ⟨?_, Phases.ends run⟩
  intro p i through
  have idle : Lockstep.work (Reduction.main typename orders numbers box randoms) 5 p = [] := rfl
  rw [(Lockstep.Agrees.run _ initial given run).working through, idle, List.take_nil]
  exact Reduction.behind_extremes typename orders numbers box randoms initial four minimum maximum p

/-- Bytes in their own order. -/
instance byteOrder : LinearOrder UInt8 where
  le_refl := UInt8.le_refl
  le_trans _ _ _ := UInt8.le_trans
  le_antisymm _ _ := UInt8.le_antisymm
  le_total := UInt8.le_total
  lt_iff_le_not_ge a b := by
    simp only [UInt8.lt_iff_toNat_lt, UInt8.le_iff_toNat_le]
    omega
  toDecidableLE := inferInstance
  toDecidableEq := inferInstance
  toDecidableLT := inferInstance

/-- Bytes with their minimum and maximum. -/
def byteExtremes : Typename UInt8 := ⟨fun routine => if routine = .min then min else max⟩

/-- The least number is one of PE 0 at two places and one of PE 1 at the others. -/
def byteNumbers (p : Fin 2) (i : Nat) : UInt8 := UInt8.ofNat (if p.val = 0 then 3 + 7 * i else 30 - 9 * i)

/-- Two PEs in turn up to their prints. -/
theorem reduction_prints_two :
    Reduction.Prints byteExtremes (fun k => eitherOrder fun p cell => k = p.val ∨ cell = .numbers 2)
      (⟨16, 4, by decide⟩ : Shbox UInt8) 24 byteNumbers
      ((Reduction.machine byteExtremes (fun k => eitherOrder fun p cell => k = p.val ∨ cell = .numbers 2)
        ⟨16, 4, by decide⟩ 24 byteNumbers).after (Phases.start 2 _ ⟨fun _ _ => 9, fun _ _ _ => 0⟩)
          (([6, 6, 3, 2, 2].flatMap fun count => (List.replicate count [.act 0, .act 1]).flatten ++
            [.arrive 0, .arrive 1, .leave 1, .leave 0]) ++ [.act 0, .act 1])) 60 :=
  reduction_prints _ rfl rfl _ _ rfl _ _ _ _ _ (by decide +kernel)

end OpenShmem
