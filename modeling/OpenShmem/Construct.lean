import Mathlib.Data.BitVec
import OpenShmem.Machine

/-! The collective constructors of a symmetric object, and the remote updates of the
PEs whose constructor has returned. The allocation acts as a barrier; the initial
values are stored behind it, by each PE for itself and one element at a time. -/
namespace OpenShmem

variable {P : Nat} {V : Type}

/-- What a constructor asks of the allocator and then stores. `zeroed` is the value
`shmem_calloc` leaves; `shmem_align` leaves what was there. -/
structure Constructor (P : Nat) (V : Type) where
  len : Nat
  zeroed : Option V
  value : Fin P → Nat → V

/-- `Box::new_in(t, self)`. Every PE passes its own `t`. -/
def shbox (t : Fin P → V) : Constructor P V := ⟨1, none, fun p _ => t p⟩

def array (zero : V) (t : Fin P → V) (len : Nat) : Constructor P V := ⟨len, some zero, fun p _ => t p⟩

def arrayDefault (zero default : V) (len : Nat) : Constructor P V := ⟨len, some zero, fun _ _ => default⟩

def arrayGen (zero : V) (f : Fin P → Nat → V) (len : Nat) : Constructor P V := ⟨len, some zero, f⟩

/-- Where a PE stands in the constructor: before the allocation, waiting in it for
the others, about to store element `k`, or through. -/
inductive Stage where
  | outside
  | arrived
  | storing (k : Nat)
  | returned
  deriving DecidableEq, Repr

/-- The next thing to do once `k` of `len` elements are stored. -/
def Stage.after (len k : Nat) : Stage := if k < len then .storing k else .returned

def Stage.IsStoring : Stage → Prop
  | .storing _ => True
  | .outside | .arrived | .returned => False

instance : (stage : Stage) → Decidable stage.IsStoring
  | .storing _ => .isTrue trivial
  | .outside | .arrived | .returned => .isFalse id

/-- The elements a PE at this stage has stored. -/
def Stage.Stored (i : Nat) : Stage → Prop
  | .outside | .arrived => False
  | .storing k => i < k
  | .returned => True

instance (i : Nat) : (stage : Stage) → Decidable (stage.Stored i)
  | .outside | .arrived => .isFalse id
  | .storing _ => inferInstanceAs (Decidable (_ < _))
  | .returned => .isTrue trivial

/-- A remote update of consecutive elements, each of which it changes atomically. -/
structure Update (P : Nat) (V : Type) where
  target : Fin P
  start : Nat
  actions : List (V → V)

namespace Update

def atomicSet (new_value : V) (pe : Fin P) : Update P V := ⟨pe, 0, [fun _ => new_value]⟩

def atomicAdd [Add V] (plus : V) (pe : Fin P) : Update P V := ⟨pe, 0, [(· + plus)]⟩

/-- `atomic_fetch_add` also returns the value it meets. -/
def atomicFetchAdd [Add V] (plus : V) (pe : Fin P) : Update P V := atomicAdd plus pe

def atomicInc [Add V] [One V] (pe : Fin P) : Update P V := atomicAdd 1 pe

/-- The put of a view which has `data` for its range from `start` on. -/
def finish (start : Nat) (data : List V) (pe : Fin P) : Update P V :=
  ⟨pe, start, data.map fun v _ => v⟩

def writeFrom (data : List V) (pe : Fin P) : Update P V := finish 0 data pe

/-- What the update does to an element, if anything. -/
def action (u : Update P V) (q : Fin P) (i : Nat) : Option (V → V) :=
  if u.target = q ∧ u.start ≤ i then u.actions[i - u.start]? else none

def apply (u : Update P V) (mem : Fin P → Nat → V) (q : Fin P) (i : Nat) : V :=
  match u.action q i with
  | some f => f (mem q i)
  | none => mem q i

end Update

/-- An object under construction and in use. The last three fields only record:
the actions issued to an element and those applied to it, in order, and the elements
whose initialising store met an update. -/
structure Object (P : Nat) (V : Type) where
  mem : Fin P → Nat → V
  stage : Fin P → Stage
  flight : List (Update P V)
  issued : Fin P → Nat → List (V → V)
  applied : Fin P → Nat → List (V → V)
  overwritten : List (Fin P × Nat)

namespace Object

variable (c : Constructor P V)

inductive Event (P : Nat) (V : Type) where
  | allocate (p : Fin P)
  | allocated (p : Fin P)
  | store (p : Fin P)
  | issue (p : Fin P) (u : Update P V)
  | deliver (j : Nat)

def enabled (s : Object P V) : Event P V → Prop
  | .allocate p => s.stage p = .outside
  | .allocated p => s.stage p = .arrived ∧ ∀ q, s.stage q ≠ .outside
  | .store p => (s.stage p).IsStoring
  | .issue p u => s.stage p = .returned ∧ u.start + u.actions.length ≤ c.len
  | .deliver j => j < s.flight.length

instance (s : Object P V) : (e : Event P V) → Decidable (enabled c s e)
  | .allocate _ => inferInstanceAs (Decidable (_ = _))
  | .allocated _ | .issue _ _ => inferInstanceAs (Decidable (_ ∧ _))
  | .store p => inferInstanceAs (Decidable (s.stage p).IsStoring)
  | .deliver _ => inferInstanceAs (Decidable (_ < _))

/-- The memory a PE brings into the barrier. -/
def allocate (mem : Nat → V) : Nat → V :=
  match c.zeroed with
  | some zero => fun i => if i < c.len then zero else mem i
  | none => mem

/-- The local store of one initial value. -/
def store (s : Object P V) (p : Fin P) (k : Nat) : Object P V :=
  { s with
    mem := Function.update s.mem p (Function.update (s.mem p) k (c.value p k))
    stage := Function.update s.stage p (.after c.len (k + 1))
    overwritten := if (s.applied p k).isEmpty then s.overwritten else s.overwritten ++ [(p, k)] }

def next (s : Object P V) : Event P V → Object P V
  | .allocate p => { s with
      mem := Function.update s.mem p (allocate c (s.mem p))
      stage := Function.update s.stage p .arrived }
  | .allocated p => { s with stage := Function.update s.stage p (.after c.len 0) }
  | .store p => match s.stage p with
    | .storing k => store c s p k
    | _ => s
  | .issue _ u => { s with
      flight := s.flight ++ [u]
      issued := fun q i => s.issued q i ++ (u.action q i).toList }
  | .deliver j => match s.flight[j]? with
    | some u => { s with
        mem := u.apply s.mem
        flight := s.flight.eraseIdx j
        applied := fun q i => s.applied q i ++ (u.action q i).toList }
    | none => s

def machine : Machine (Object P V) (Event P V) := ⟨enabled c, next c⟩

instance (s : Object P V) (e : Event P V) : Decidable ((machine c).enabled s e) :=
  inferInstanceAs (Decidable (enabled c s e))

def start (mem : Fin P → Nat → V) : Object P V :=
  ⟨mem, fun _ => .outside, [], fun _ _ => [], fun _ _ => [], []⟩

/-- An update reaches only elements which their own PE has stored already. -/
def Constructed (s : Object P V) : Event P V → Prop
  | .deliver j => ∀ u ∈ s.flight[j]?, ∀ k < u.actions.length,
    (s.stage u.target).Stored (u.start + k)
  | _ => True

instance (s : Object P V) : (e : Event P V) → Decidable (Constructed s e)
  | .deliver j => inferInstanceAs (Decidable (∀ u ∈ s.flight[j]?, _))
  | .allocate _ | .allocated _ | .store _ | .issue _ _ => .isTrue trivial

/-- No update is overwritten. Where nothing is in flight any more, an element to which
only additions were issued holds its initial value plus all of them. -/
structure Keeps (s : Object P V) : Prop where
  overwritten : s.overwritten = []
  total : ∀ [AddCommMonoid V], s.flight = [] → ∀ q, s.stage q = .returned → ∀ i < c.len,
    ∀ added : List V, s.issued q i = added.map (fun d v => v + d) →
      s.mem q i = c.value q i + added.sum

theorem Stage.stored_after {len k i : Nat} (inside : i < len) :
    (Stage.after len k).Stored i ↔ i < k := by
  unfold Stage.after
  split
  · exact Iff.rfl
  · exact iff_of_true trivial (by omega)

theorem Stage.stored_next {len k i : Nat} (stored : (Stage.storing k).Stored i) :
    (Stage.after len (k + 1)).Stored i := by
  unfold Stage.after
  split
  · exact Nat.lt_succ_of_lt stored
  · trivial

/-- What every run keeps whose updates reach constructed elements only. -/
structure Sound (s : Object P V) : Prop where
  overwritten : s.overwritten = []
  unstored : ∀ q i, ¬ (s.stage q).Stored i → s.applied q i = []
  value : ∀ q, ∀ i < c.len, (s.stage q).Stored i →
    s.mem q i = (s.applied q i).foldl (fun v f => f v) (c.value q i)
  issued : ∀ q i, (s.issued q i).Perm
    (s.applied q i ++ s.flight.flatMap fun u => (u.action q i).toList)

variable {c} {s : Object P V} {p : Fin P}

/-- A PE moves on and changes memory of its own, neither of which undoes a store or
concerns an element it has stored before. -/
theorem Sound.move (sound : Sound c s) (p : Fin P) (stage : Stage) (mem : Nat → V)
    (kept : ∀ i, (s.stage p).Stored i → stage.Stored i)
    (value : ∀ i < c.len, stage.Stored i →
      mem i = (s.applied p i).foldl (fun v f => f v) (c.value p i)) :
    Sound c { s with
      mem := Function.update s.mem p mem, stage := Function.update s.stage p stage } := by
  have grows (q : Fin P) (i : Nat) (stored : (s.stage q).Stored i) :
      (Function.update s.stage p stage q).Stored i := by
    by_cases same : q = p
    · subst same
      rw [Function.update_self]
      exact kept i stored
    · rwa [Function.update_of_ne same]
  refine ⟨sound.overwritten, ?_, ?_, sound.issued⟩
  · intro q i unstored
    exact sound.unstored q i fun stored => unstored (grows q i stored)
  · intro q i inside
    by_cases same : q = p
    · subst same
      simp only [Function.update_self]
      exact value i inside
    · simp only [Function.update_of_ne same]
      exact sound.value q i inside

theorem Sound.store {k : Nat} (sound : Sound c s) (storing : s.stage p = .storing k) :
    Sound c (store c s p k) := by
  have fresh : s.applied p k = [] := by
    apply sound.unstored
    rw [storing]
    exact Nat.lt_irrefl k
  have moved := sound.move p (.after c.len (k + 1)) (Function.update (s.mem p) k (c.value p k))
    (by rw [storing]; exact fun i => Stage.stored_next) ?_
  · simpa [Object.store, fresh] using moved
  · intro i inside stored
    by_cases same : i = k
    · subst same
      rw [Function.update_self, fresh]
      rfl
    · rw [Function.update_of_ne same]
      apply sound.value p i inside
      rw [storing]
      have := (Stage.stored_after inside).mp stored
      exact Nat.lt_of_le_of_ne (Nat.le_of_lt_succ this) same

theorem action_some {u : Update P V} {q : Fin P} {i : Nat} {f : V → V}
    (action : u.action q i = some f) :
    u.target = q ∧ ∃ j < u.actions.length, u.start + j = i := by
  unfold Update.action at action
  split at action
  next touched =>
    have inside := (List.getElem?_eq_some_iff.mp action).1
    exact ⟨touched.1, i - u.start, inside, by omega⟩
  next => cases action

theorem Sound.issue (sound : Sound c s) (p : Fin P) (u : Update P V) :
    Sound c (next c s (.issue p u)) := by
  refine ⟨sound.overwritten, sound.unstored, sound.value, ?_⟩
  intro q i
  simp only [next, List.flatMap_append, List.flatMap_cons, List.flatMap_nil, List.append_nil]
  rw [← List.append_assoc]
  exact (sound.issued q i).append_right _

theorem Sound.deliver (sound : Sound c s) (j : Nat) (constructed : Constructed s (.deliver j)) :
    Sound c (next c s (.deliver j)) := by
  cases chosen : s.flight[j]? with
  | none => simpa only [next, chosen] using sound
  | some u =>
    simp only [next, chosen]
    have touches (q : Fin P) (i : Nat) (f : V → V) (action : u.action q i = some f) :
        (s.stage q).Stored i := by
      obtain ⟨rfl, k, inside, rfl⟩ := action_some action
      exact constructed u chosen k inside
    obtain ⟨bound, rfl⟩ := List.getElem?_eq_some_iff.mp chosen
    refine ⟨sound.overwritten, ?_, ?_, ?_⟩
    · intro q i unstored
      cases action : s.flight[j].action q i with
      | none => simpa [action] using sound.unstored q i unstored
      | some f => exact absurd (touches q i f action) unstored
    · intro q i inside stored
      simp only [Update.apply]
      cases action : s.flight[j].action q i with
      | none => simpa using sound.value q i inside stored
      | some f => simp [sound.value q i inside stored]
    · intro q i
      have split := (List.getElem_cons_eraseIdx_perm bound).flatMap_right
        fun u => (u.action q i).toList
      rw [List.flatMap_cons] at split
      simp only [List.append_assoc]
      exact (sound.issued q i).trans (split.symm.append_left _)

theorem Sound.step (s : Object P V) (e : Event P V) (sound : Sound c s)
    (fires : ((machine c).under Constructed).enabled s e) : Sound c ((machine c).next s e) := by
  obtain ⟨fires, constructed⟩ := fires
  cases e with
  | allocate p =>
    refine sound.move p .arrived (allocate c (s.mem p)) ?_ fun i _ stored => absurd stored id
    intro i
    rw [show s.stage p = .outside from fires]
    exact id
  | allocated p =>
    have moved := sound.move p (.after c.len 0) (s.mem p)
      (by rw [fires.1]; exact fun i stored => absurd stored id)
      fun i inside stored => absurd ((Stage.stored_after inside).mp stored) (Nat.not_lt_zero i)
    simpa [machine, next] using moved
  | store p =>
    simp only [machine, next]
    cases stage : s.stage p with
    | storing k => exact sound.store stage
    | outside | arrived | returned => exact sound
  | issue p u => exact sound.issue p u
  | deliver j => exact sound.deliver j constructed

theorem Sound.start (mem : Fin P → Nat → V) : Sound c (start mem) := by
  refine ⟨rfl, fun _ _ _ => rfl, ?_, fun _ _ => List.Perm.refl _⟩
  intro q i _ stored
  cases stored

theorem foldl_added [AddCommMonoid V] (added : List V) (v : V) :
    added.foldl (fun v d => v + d) v = v + added.sum := by
  induction added generalizing v with
  | nil => simp
  | cons d rest ih => rw [List.foldl_cons, ih, List.sum_cons, add_assoc]

theorem Sound.keeps (sound : Sound c s) : Keeps c s := by
  refine ⟨sound.overwritten, ?_⟩
  intro _ settled q returned i inside added issued
  have same := sound.issued q i
  rw [settled, List.flatMap_nil, List.append_nil, issued] at same
  have commute : ∀ f ∈ added.map (fun d (v : V) => v + d), ∀ g ∈ added.map (fun d (v : V) => v + d),
      ∀ v, g (f v) = f (g v) := by
    intro f hf g hg v
    obtain ⟨d, _, rfl⟩ := List.mem_map.mp hf
    obtain ⟨e, _, rfl⟩ := List.mem_map.mp hg
    exact add_right_comm v d e
  rw [sound.value q i inside (by rw [returned]; trivial), ← same.foldl_eq' commute, List.foldl_map,
    foldl_added]

end Object

/-- A run whose updates reach constructed elements only overwrites none of them. -/
theorem construction_keeps (c : Constructor P V) (mem : Fin P → Nat → V)
    (events : List (Object.Event P V))
    (constructed : ((Object.machine c).under Object.Constructed).Admits (Object.start mem) events) :
    Object.Keeps c ((Object.machine c).after (Object.start mem) events) :=
  (Machine.invariant _ Object.Sound.step (Object.Sound.start mem) constructed).keeps

/-- Two PEs construct an atomic zero, and then PE 1 increments that of PE 0. -/
theorem construction_keeps_increment :
    Object.Keeps (shbox fun _ => (0 : BitVec 64)) ((Object.machine (shbox fun _ => 0)).after
      (Object.start fun (_ : Fin 2) _ => 0)
      [.allocate 0, .allocate 1, .allocated 0, .store 0, .allocated 1, .store 1,
        .issue 1 (.atomicInc 0), .deliver 0]) :=
  construction_keeps _ _ _ (by decide)

/-- PE 1 increments before PE 0 has stored its initial value, which then wins. -/
theorem construction_loses_increment :
    ¬ ∀ events, (Object.machine (shbox fun _ => (0 : BitVec 64))).Admits
        (Object.start fun (_ : Fin 2) _ => 0) events →
      Object.Keeps (shbox fun _ => (0 : BitVec 64))
        ((Object.machine (shbox fun _ => 0)).after (Object.start fun (_ : Fin 2) _ => 0) events) := by
  intro keeps
  have run := keeps [.allocate 0, .allocate 1, .allocated 0, .allocated 1, .store 1,
    .issue 1 (.atomicInc 0), .deliver 0, .store 0] (by decide)
  exact absurd run.overwritten (by decide)

end OpenShmem
