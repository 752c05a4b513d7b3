import OpenShmem.Atomics
import OpenShmem.Spmd

/-! The programs `atomic.rs` and `estimate-pi.rs`. In both every PE increments a counter on
PE 0, which PE 0 reads behind a barrier. Only the first has a barrier between the constructor
of the counter and the increments. -/
namespace OpenShmem

variable {P w : Nat}

/-- What a call is in a program, where its number is that of a PE. -/
def AtomicCall.step (P : Nat) (call : AtomicCall w) : Option (Step P (BitVec w)) :=
  (call.toUpdate P).map fun update => .atomic call.update update.target

theorem AtomicOp.step_some (op : AtomicOp w) (shbox : Nat) {pe : PE} (target : Fin P)
    (names : pe.cInt = target.val) :
    (op.call shbox pe).step P = some (.atomic (op.call shbox pe).update target) := by
  rw [AtomicCall.step, op.toUpdate_some shbox target names, Option.map_some]

/-! ### `atomic.rs` -/

namespace Hammer

/-- `shmalloc.shbox(Atomic::new(0usize))` -/
def int (P : Nat) : Constructor P Usize := shbox fun _ => 0

/-- `int.atomic_inc(PE(0), &ctx)`, twenty times. -/
def increments (P addr : Nat) : Phases.Phase P (Step P Usize) :=
  fun _ => (List.replicate 20 (atomicInc addr ⟨0⟩)).filterMap (AtomicCall.step P)

/-- Behind the last barrier PE 0 reads the counter, and nobody acts. -/
def main (P addr : Nat) : Phases.Program P (Step P Usize) :=
  [allocation, (int P).stores, increments P addr]

/-- `int.atomic_fetch_local(&ctx) == ctx.n_pes() * 20` -/
def counterMatches (build : Build) (P : Nat) (counter : Usize) : Except Panic Bool := do
  let expected ← usizeMul build (nPes P) 20
  return counter == expected

end Hammer

/-- Atomic operations on one PE which increment its word. -/
theorem perform_increments (c : Constructor P (BitVec w)) (pe : Fin P) (count : Nat)
    (mem : Fin P → Nat → BitVec w) :
    c.meaning.perform mem (List.replicate count (.atomic (· + 1) pe)) pe 0 =
      mem pe 0 + BitVec.ofNat w count := by
  induction count generalizing mem with
  | zero => simp [Phases.Meaning.perform]
  | succ count ih =>
    have first : c.meaning.act (.atomic (· + 1) pe) mem pe 0 = mem pe 0 + 1 := by
      simp [Constructor.meaning, Step.update, Update.apply, Update.action]
    have later := ih (c.meaning.act (.atomic (· + 1) pe) mem)
    rw [first, BitVec.add_assoc] at later
    rw [List.replicate_succ]
    refine later.trans ?_
    rw [Nat.add_comm count 1, BitVec.ofNat_add]
    rfl

namespace Hammer

variable {addr : Nat} {root : Fin P}

theorem increments_eq (first : root.val = 0) :
    increments P addr = fun _ => List.replicate 20 (.atomic (· + 1) root) := by
  have step : (atomicInc addr ⟨0⟩ : AtomicCall 64).step P = some (.atomic (· + 1) root) :=
    (AtomicOp.atomicInc : AtomicOp 64).step_some addr root (by rw [first]; rfl)
  funext _
  rw [increments, List.filterMap_replicate, step]

theorem all_increments (first : root.val = 0) :
    (increments P addr).all = List.replicate (P * 20) (.atomic (· + 1) root) := by
  rw [increments_eq first, List.eq_replicate_iff, Phases.Phase.all]
  constructor
  · simp
  · intro step member
    obtain ⟨_, _, stepped⟩ := List.mem_flatMap.mp member
    exact List.eq_of_mem_replicate stepped

theorem commutes (first : root.val = 0) :
    ∀ phase ∈ main P addr, (int P).meaning.Commutes phase := by
  intro phase member
  simp only [main, List.mem_cons, List.not_mem_nil, or_false] at member
  rcases member with rfl | rfl | rfl
  · exact (int P).commutes_allocation
  · exact (int P).commutes_stores
  · intro a one b other mem
    rw [all_increments first] at one other
    rw [List.eq_of_mem_replicate one, List.eq_of_mem_replicate other]

theorem counter (first : root.val = 0) (mem : Fin P → Nat → Usize) :
    (int P).meaning.memory (main P addr) mem 3 root 0 = BitVec.ofNat 64 (P * 20) := by
  have whole : (int P).meaning.memory (main P addr) mem 3 = (int P).meaning.perform
      ((int P).meaning.perform ((int P).meaning.perform mem allocation.all) (int P).stores.all)
      (increments P addr).all := rfl
  rw [whole, all_increments first, perform_increments,
    (int P).stores_value _ root (show 0 < (int P).len from Nat.zero_lt_one)]
  exact BitVec.zero_add _

theorem counterMatches_total (build : Build) (few : P ≤ cIntMax) :
    counterMatches build P (BitVec.ofNat 64 (P * 20)) = .ok true := by
  have number := nPes_toNat few
  simp only [cIntMax] at few
  have fits : (nPes P).toNat * (20 : Usize).toNat < 2^64 := by
    rw [number]
    simp
    omega
  have total : nPes P * 20 = BitVec.ofNat 64 (P * 20) := by
    rw [nPes, BitVec.ofNat_mul]
    rfl
  rw [counterMatches, usizeMul_fits build fits, total]
  simp [bind, Except.bind, pure, Except.pure]

/-- Behind the last barrier the assertion of PE 0 holds, and every run which is not cut
short gets there. -/
structure Asserts (build : Build) (addr : Nat) (s : Phases.State P (Step P Usize) (Fin P → Nat → Usize))
    (length : Nat) : Prop where
  holds : ∀ root i, root.val = 0 → s.place root = .working 3 i →
    counterMatches build P (s.mem root 0) = .ok true
  ends : Phases.Ends (main P addr) s length

end Hammer

/-- Whatever the order in which the PEs run and their increments arrive. -/
theorem hammer_asserts (build : Build) (addr : Nat) (few : P ≤ cIntMax) (mem : Fin P → Nat → Usize)
    (events : List (Phases.Event P))
    (run : ((Hammer.int P).meaning.machine (Hammer.main P addr)).Admits (Phases.start P _ mem) events) :
    Hammer.Asserts build addr (((Hammer.int P).meaning.machine (Hammer.main P addr)).after
      (Phases.start P _ mem) events) events.length := by
  have sound := Phases.Sound.run run
  refine ⟨?_, Phases.ends run⟩
  intro root i first working
  have commutes (phase) (early : phase ∈ (Hammer.main P addr).take 3) :
      (Hammer.int P).meaning.Commutes phase := Hammer.commutes first phase (List.mem_of_mem_take early)
  have idle : ((Hammer.main P addr).actions 3).all = [] := by
    simp [Phases.Program.actions, Phases.Phase.all, Hammer.main]
  rw [sound.mem_idle working commutes idle, Hammer.counter first]
  exact Hammer.counterMatches_total build few

/-- Two PEs in turn, all of whose increments are still on their way when both are at the last
barrier. -/
theorem hammer_asserts_two :
    Hammer.Asserts .debug 16 (((Hammer.int 2).meaning.machine (Hammer.main 2 16)).after
      (Phases.start 2 _ fun _ _ => 5)
      ((List.replicate 2 [.act 0, .act 1, .arrive 0, .arrive 1, .leave 0, .leave 1]).flatten ++
        (List.replicate 20 [.act 0, .act 1]).flatten ++ [.arrive 1, .arrive 0] ++
          List.replicate 40 (.land 0) ++ [.leave 1, .leave 0])) 96 :=
  hammer_asserts .debug 16 (by decide) _ _ (by decide +kernel)

/-! ### `estimate-pi.rs` -/

namespace Estimate

/-- The steps of all PEs. A PE which has its counter may hit at once. -/
inductive Event (P : Nat) where
  | allocate (p : Fin P)
  | allocated (p : Fin P)
  | store (p : Fin P)
  | hit (p : Fin P)
  | deliver (j : Nat)
  deriving DecidableEq, Repr

/-- `shmalloc.shbox(Atomic::new(0usize))` -/
def hit (P : Nat) : Constructor P Usize := shbox fun _ => 0

/-- `hit.atomic_inc(PE(0), &ctx)` -/
def Event.step (root : Fin P) : Event P → Object.Event P Usize
  | .allocate p => .allocate p
  | .allocated p => .allocated p
  | .store p => .store p
  | .hit p => .issue p (.atomicInc root)
  | .deliver j => .deliver j

def machine (root : Fin P) : Machine (Object P Usize) (Event P) where
  enabled s e := Object.enabled (hit P) s (e.step root)
  next s e := Object.next (hit P) s (e.step root)

instance (root : Fin P) (s : Object P Usize) (e : Event P) : Decidable ((machine root).enabled s e) :=
  inferInstanceAs (Decidable (Object.enabled (hit P) s (e.step root)))

def Event.isHit : Event P → Bool
  | .hit _ => true
  | _ => false

def Event.isArrival : Event P → Bool
  | .deliver _ => true
  | _ => false

/-- The increments which arrive before the root has stored its initial zero. -/
def lost (root : Fin P) (events : List (Event P)) : Nat :=
  (events.takeWhile (· ≠ .store root)).countP Event.isArrival

/-- Increments of the root's word are all there is on the way, and that word is the first
its constructor stores. -/
structure Counts (root : Fin P) (s : Object P Usize) : Prop where
  flight : ∀ u ∈ s.flight, u = .atomicInc root
  single : ∀ k, s.stage root = .storing k → k = 0

variable {root : Fin P} {s : Object P Usize}

theorem increment_self (mem : Fin P → Nat → Usize) :
    (Update.atomicInc root).apply mem root 0 = mem root 0 + 1 := by
  simp [Update.atomicInc, Update.atomicAdd, Update.apply, Update.action]

theorem Counts.next (counts : Counts root s) (e : Event P) (fires : (machine root).enabled s e) :
    Counts root ((machine root).next s e) := by
  have other (p : Fin P) (stage : Stage) (single : ∀ k, stage = .storing k → k = 0) (k : Nat)
      (storing : Function.update s.stage p stage root = .storing k) : k = 0 := by
    by_cases same : root = p
    · rw [same, Function.update_self] at storing
      exact single k storing
    · rw [Function.update_of_ne same] at storing
      exact counts.single k storing
  cases e with
  | allocate p => exact ⟨counts.flight, other p .arrived fun k storing => by cases storing⟩
  | allocated p =>
    refine ⟨counts.flight, other p (.after 1 0) fun k storing => ?_⟩
    cases storing
    rfl
  | store p =>
    simp only [machine, Event.step, Object.next]
    cases stage : s.stage p with
    | storing k =>
      refine ⟨counts.flight, other p (.after 1 (k + 1)) fun k' storing => ?_⟩
      simp [Stage.after] at storing
    | outside | arrived | returned => exact counts
  | hit p =>
    refine ⟨fun u member => ?_, counts.single⟩
    rcases List.mem_append.mp member with older | newest
    · exact counts.flight u older
    · exact List.mem_singleton.mp newest
  | deliver j =>
    simp only [machine, Event.step, Object.next]
    split
    · exact ⟨fun u member => counts.flight u (List.mem_of_mem_eraseIdx member), counts.single⟩
    · exact counts

/-- What a step other than the root's store does to the root's word, to the number of
increments on the way, and to the root's place. -/
theorem Counts.other (counts : Counts root s) {e : Event P} (other : e ≠ .store root)
    (fires : (machine root).enabled s e) :
    ((machine root).next s e).mem root 0 =
        s.mem root 0 + BitVec.ofNat 64 (if e.isArrival then 1 else 0) ∧
      ((machine root).next s e).flight.length + (if e.isArrival then 1 else 0) =
        s.flight.length + (if e.isHit then 1 else 0) ∧
      (((machine root).next s e).stage root = .returned ↔ s.stage root = .returned) := by
  cases e with
  | allocate p =>
    refine ⟨?_, rfl, ?_⟩
    · by_cases same : root = p
      · subst same
        simp [machine, Event.step, Object.next, Object.allocate, hit, shbox, Event.isArrival]
      · simp [machine, Event.step, Object.next, same, Event.isArrival]
    · by_cases same : root = p
      · subst same
        have outside : s.stage root = .outside := fires
        simp [machine, Event.step, Object.next, outside]
      · simp [machine, Event.step, Object.next, same]
  | allocated p =>
    refine ⟨by simp [machine, Event.step, Object.next, Event.isArrival], rfl, ?_⟩
    by_cases same : root = p
    · subst same
      have arrived : s.stage root = .arrived := fires.1
      simp [machine, Event.step, Object.next, arrived, Stage.after, hit, shbox]
    · simp [machine, Event.step, Object.next, same]
  | store p =>
    have same : root ≠ p := by
      rintro rfl
      exact other rfl
    cases stage : s.stage p with
    | storing k =>
      simp [machine, Event.step, Object.next, stage, Object.store, same, Event.isArrival, Event.isHit]
    | outside | arrived | returned =>
      simp [machine, Event.step, Object.enabled, stage, Stage.IsStoring] at fires
  | hit p =>
    refine ⟨by simp [machine, Event.step, Object.next, Event.isArrival], ?_, Iff.rfl⟩
    simp [machine, Event.step, Object.next, Event.isArrival, Event.isHit]
  | deliver j =>
    have bound : j < s.flight.length := fires
    have increment := counts.flight _ (List.getElem_mem bound)
    have positive := Nat.zero_lt_of_lt bound
    simp only [machine, Event.step, Object.next, List.getElem?_eq_getElem bound, increment,
      increment_self, List.length_eraseIdx_of_lt bound, Event.isArrival, Event.isHit]
    refine ⟨rfl, ?_, trivial⟩
    simp
    omega

/-- The root's store is that of its zero. -/
theorem Counts.store (counts : Counts root s) (fires : (machine root).enabled s (.store root)) :
    ((machine root).next s (.store root)).mem root 0 = 0 ∧
      ((machine root).next s (.store root)).flight = s.flight ∧
      ((machine root).next s (.store root)).stage root = .returned ∧ s.stage root ≠ .returned := by
  cases stage : s.stage root with
  | storing k =>
    obtain rfl := counts.single k stage
    simp [machine, Event.step, Object.next, stage, Object.store, hit, shbox, Stage.after]
  | outside | arrived | returned =>
    simp [machine, Event.step, Object.enabled, stage, Stage.IsStoring] at fires

/-- Once the root has its zero, every hit is in its word or on the way there. -/
theorem Counts.kept (counts : Counts root s) (returned : s.stage root = .returned)
    {events : List (Event P)} (run : (machine root).Admits s events) :
    ((machine root).after s events).mem root 0 +
        BitVec.ofNat 64 ((machine root).after s events).flight.length =
      s.mem root 0 + BitVec.ofNat 64 (s.flight.length + events.countP Event.isHit) := by
  induction events generalizing s with
  | nil => simp
  | cons e rest ih =>
    obtain ⟨fires, run⟩ := run
    have other : e ≠ .store root := by
      rintro rfl
      exact (counts.store fires).2.2.2 returned
    obtain ⟨word, flight, stage⟩ := counts.other other fires
    have later := ih (counts.next e fires) (stage.mpr returned) run
    rw [Machine.after_cons, later, word, BitVec.add_assoc, ← BitVec.ofNat_add, List.countP_cons]
    congr 2
    omega

/-- Before that, those which have arrived so far are lost. -/
theorem Counts.missed (counts : Counts root s) (early : s.stage root ≠ .returned)
    {events : List (Event P)} (run : (machine root).Admits s events)
    (returned : ((machine root).after s events).stage root = .returned) :
    ((machine root).after s events).mem root 0 +
        BitVec.ofNat 64 (((machine root).after s events).flight.length + lost root events) =
      BitVec.ofNat 64 (s.flight.length + events.countP Event.isHit) := by
  induction events generalizing s with
  | nil => exact absurd returned early
  | cons e rest ih =>
    obtain ⟨fires, run⟩ := run
    have counts' := counts.next e fires
    rw [Machine.after_cons] at returned ⊢
    by_cases store : e = .store root
    · subst store
      obtain ⟨zero, flight, stored, _⟩ := counts.store fires
      have later := counts'.kept stored run
      rw [zero, flight] at later
      simpa [lost, Event.isHit] using later
    · obtain ⟨_, flight, stage⟩ := counts.other store fires
      have later := ih counts' (fun stored => early (stage.mp stored)) run returned
      have first : lost root (e :: rest) = lost root rest + if e.isArrival then 1 else 0 := by
        rw [lost, List.takeWhile_cons_of_pos (by simpa using store), List.countP_cons]
        rfl
      rw [first, List.countP_cons, ← Nat.add_assoc, BitVec.ofNat_add, ← BitVec.add_assoc, later,
        ← BitVec.ofNat_add]
      congr 1
      omega

end Estimate

/-- Whenever PE 0 has its counter, what is missing from it are the increments on the way and
those which arrived before it stored its zero. -/
theorem estimate_misses (root : Fin P) (mem : Fin P → Nat → Usize) (events : List (Estimate.Event P))
    (run : (Estimate.machine root).Admits (Object.start mem) events)
    (returned : ((Estimate.machine root).after (Object.start mem) events).stage root = .returned) :
    ((Estimate.machine root).after (Object.start mem) events).mem root 0 +
        BitVec.ofNat 64 (((Estimate.machine root).after (Object.start mem) events).flight.length +
          Estimate.lost root events) =
      BitVec.ofNat 64 (events.countP Estimate.Event.isHit) := by
  have counts : Estimate.Counts root (Object.start mem) := by
    constructor
    · intro u member
      cases member
    · intro k storing
      cases storing
  have missed := counts.missed (by simp [Object.start]) run returned
  simpa [Object.start] using missed

/-- The hit of PE 1 arrives while PE 0 has yet to store its zero, and that of PE 0 later. -/
theorem estimate_misses_one :
    ((Estimate.machine (0 : Fin 2)).after (Object.start fun _ _ => 7) [.allocate 0, .allocate 1,
        .allocated 1, .store 1, .allocated 0, .hit 1, .deliver 0, .store 0, .hit 0, .deliver 0]).mem 0 0 +
        BitVec.ofNat 64 (0 + 1) = BitVec.ofNat 64 2 :=
  estimate_misses 0 _ _ (by decide) rfl

end OpenShmem
