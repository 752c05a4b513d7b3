import Mathlib.Algebra.BigOperators.Pi
import OpenShmem.Construct

/-! `Shmlock` and its guards. The lock word lives on a fixed home PE; every PE
constructs its own copy of the word and stores the initial zero into that. -/
namespace OpenShmem

variable {P : Nat}

inductive LockWord (P : Nat) where
  | free
  | held (p : Fin P)
  | other
  deriving DecidableEq, Repr

/-- `shmalloc.shbox(0)`. -/
def Shmlock.new (P : Nat) : Constructor P (LockWord P) := shbox fun _ => .free

/-- `guards` counts the live `ShmlockLock` values of each PE. `acquired` and `cleared`
only record the acquisitions, and what each `shmem_clear_lock` found. -/
structure Locking (P : Nat) where
  lock : Object P (LockWord P)
  guards : Fin P → Nat
  acquired : Fin P → Nat
  cleared : List (Fin P × LockWord P)

namespace Locking

inductive Event (P : Nat) where
  | allocate (p : Fin P)
  | allocated (p : Fin P)
  | store (p : Fin P)
  | setLock (p : Fin P)
  | clearLock (p : Fin P)

variable (home : Fin P)

def word (s : Locking P) : LockWord P := s.lock.mem home 0

def setWord (s : Locking P) (word : LockWord P) : Object P (LockWord P) :=
  { s.lock with
    mem := Function.update s.lock.mem home (Function.update (s.lock.mem home) 0 word) }

/-- `lock()` blocks while the word is not zero; a guard is dropped only once. -/
def enabled (s : Locking P) : Event P → Prop
  | .allocate p => Object.enabled (Shmlock.new P) s.lock (.allocate p)
  | .allocated p => Object.enabled (Shmlock.new P) s.lock (.allocated p)
  | .store p => Object.enabled (Shmlock.new P) s.lock (.store p)
  | .setLock p => s.lock.stage p = .returned ∧ s.word home = .free
  | .clearLock p => 0 < s.guards p

instance (s : Locking P) : (e : Event P) → Decidable (enabled home s e)
  | .allocate p => inferInstanceAs (Decidable (Object.enabled (Shmlock.new P) s.lock (.allocate p)))
  | .allocated p =>
    inferInstanceAs (Decidable (Object.enabled (Shmlock.new P) s.lock (.allocated p)))
  | .store p => inferInstanceAs (Decidable (Object.enabled (Shmlock.new P) s.lock (.store p)))
  | .setLock _ => inferInstanceAs (Decidable (_ ∧ _))
  | .clearLock _ => inferInstanceAs (Decidable (_ < _))

def next (s : Locking P) : Event P → Locking P
  | .allocate p => { s with lock := Object.next (Shmlock.new P) s.lock (.allocate p) }
  | .allocated p => { s with lock := Object.next (Shmlock.new P) s.lock (.allocated p) }
  | .store p => { s with lock := Object.next (Shmlock.new P) s.lock (.store p) }
  | .setLock p => { s with
      lock := s.setWord home (.held p)
      guards := Function.update s.guards p (s.guards p + 1)
      acquired := Function.update s.acquired p (s.acquired p + 1) }
  | .clearLock p => { s with
      lock := s.setWord home .free
      guards := Function.update s.guards p (s.guards p - 1)
      cleared := s.cleared ++ [(p, s.word home)] }

def machine : Machine (Locking P) (Event P) := ⟨enabled home, next home⟩

instance (s : Locking P) (e : Event P) : Decidable ((machine home).enabled s e) :=
  inferInstanceAs (Decidable (enabled home s e))

/-- The words are what the memory happened to hold. -/
def start (mem : Fin P → Nat → LockWord P) : Locking P :=
  ⟨Object.start mem, fun _ => 0, fun _ => 0, []⟩

/-- The home PE stores its initial zero while no guard is live. -/
def HomeUnheld (s : Locking P) : Event P → Prop
  | .store p => p = home → ∀ q, s.guards q = 0
  | _ => True

instance (s : Locking P) : (e : Event P) → Decidable (HomeUnheld home s e)
  | .store _ => inferInstanceAs (Decidable (_ → _))
  | .allocate _ | .allocated _ | .setLock _ | .clearLock _ => .isTrue trivial

/-- At most one guard is live, and every acquisition is cleared once, by its holder. -/
structure Excludes (s : Locking P) : Prop where
  exclusive : ∑ p, s.guards p ≤ 1
  byHolder : ∀ c ∈ s.cleared, c.2 = .held c.1
  balanced : ∀ p, s.acquired p = s.cleared.countP (·.1 = p) + s.guards p

/-- The lock word and the live guards agree. Before the home PE has stored its zero
the word may also hold anything, which keeps everybody out. -/
inductive Agrees (stage : Stage) (word : LockWord P) (guards : Fin P → Nat) : Prop
  | free (isFree : word = .free) (unheld : guards = fun _ => 0)
  | held (p : Fin P) (isHeld : word = .held p) (one : guards = Pi.single p 1)
  | unstored (early : stage ≠ .returned) (unheld : guards = fun _ => 0)

theorem Agrees.stage {stage later : Stage} {word : LockWord P} {guards : Fin P → Nat}
    (agrees : Agrees stage word guards) (early : later ≠ .returned) : Agrees later word guards := by
  cases agrees with
  | free isFree unheld => exact .free isFree unheld
  | held p isHeld one => exact .held p isHeld one
  | unstored _ unheld => exact .unstored early unheld

/-- What every run keeps in which the home PE stores its zero while no guard is live. -/
structure Sound (s : Locking P) : Prop where
  single : ∀ p k, s.lock.stage p = .storing k → k = 0
  agrees : Agrees (s.lock.stage home) (s.word home) s.guards
  byHolder : ∀ c ∈ s.cleared, c.2 = .held c.1
  balanced : ∀ p, s.acquired p = s.cleared.countP (·.1 = p) + s.guards p

variable {home} {s : Locking P}

theorem Sound.excludes (sound : Sound home s) : Excludes s := by
  refine ⟨?_, sound.byHolder, sound.balanced⟩
  cases sound.agrees with
  | free _ unheld => simp [unheld]
  | held p _ one =>
    rw [one, Finset.sum_pi_single']
    simp
  | unstored _ unheld => simp [unheld]

/-- A step of the construction at PE `p`. -/
theorem Sound.construct (sound : Sound home s) (p : Fin P) (stage : Stage)
    (lock : Object P (LockWord P)) (single : ∀ k, stage = .storing k → k = 0)
    (stages : lock.stage = Function.update s.lock.stage p stage)
    (others : p ≠ home → lock.mem home 0 = s.lock.mem home 0)
    (own : p = home → Agrees stage (lock.mem home 0) s.guards) : Sound home { s with lock } := by
  refine ⟨?_, ?_, sound.byHolder, sound.balanced⟩
  · intro q k
    simp only [stages]
    by_cases same : q = p
    · subst same
      rw [Function.update_self]
      exact single k
    · rw [Function.update_of_ne same]
      exact sound.single q k
  · by_cases same : p = home
    · subst same
      simp only [word, stages, Function.update_self]
      exact own rfl
    · simp only [word, stages, Function.update_of_ne (Ne.symm same), others same]
      exact sound.agrees

@[simp] theorem setWord_word (s : Locking P) (new : LockWord P) :
    (s.setWord home new).mem home 0 = new := by simp [setWord]

theorem Sound.setLock {p : Fin P} (sound : Sound home s) (free : s.word home = .free) :
    Sound home (next home s (.setLock p)) := by
  have unheld : s.guards = fun _ => 0 := by
    cases sound.agrees with
    | free _ unheld | unstored _ unheld => exact unheld
    | held q isHeld _ =>
      rw [free] at isHeld
      cases isHeld
  refine ⟨sound.single, .held p (setWord_word s _) ?_, sound.byHolder, ?_⟩
  · simp [next, unheld, Pi.single]
    rfl
  · intro q
    by_cases same : q = p
    · subst same
      simp [next, sound.balanced q, Nat.add_assoc]
    · simp [next, same, sound.balanced q]

/-- The PE whose guard is live holds the lock. -/
theorem Sound.holder {p : Fin P} (sound : Sound home s) (live : 0 < s.guards p) :
    s.word home = .held p ∧ s.guards = Pi.single p 1 := by
  cases sound.agrees with
  | free _ unheld | unstored _ unheld =>
    rw [unheld] at live
    exact absurd live (Nat.lt_irrefl 0)
  | held q isHeld one =>
    by_cases same : p = q
    · subst same
      exact ⟨isHeld, one⟩
    · rw [one, Pi.single_eq_of_ne same] at live
      exact absurd live (Nat.lt_irrefl 0)

theorem Sound.clearLock {p : Fin P} (sound : Sound home s) (live : 0 < s.guards p) :
    Sound home (next home s (.clearLock p)) := by
  obtain ⟨held, one⟩ := sound.holder live
  refine ⟨sound.single, .free (setWord_word s _) ?_, ?_, ?_⟩
  · funext q
    by_cases same : q = p
    · subst same
      simp [next, one]
    · simp [next, one, same]
  · intro c member
    rcases List.mem_append.mp member with older | newest
    · exact sound.byHolder c older
    · obtain rfl := List.mem_singleton.mp newest
      exact held
  · intro q
    by_cases same : q = p
    · subst same
      simp [next, sound.balanced q, one]
    · simp [next, sound.balanced q, same, Ne.symm same]

theorem Sound.step (s : Locking P) (e : Event P) (sound : Sound home s)
    (fires : ((machine home).under (HomeUnheld home)).enabled s e) :
    Sound home ((machine home).next s e) := by
  obtain ⟨fires, unheld⟩ := fires
  cases e with
  | allocate p =>
    refine sound.construct p .arrived _ (by simp) rfl
      (fun other => by simp [Object.next, Ne.symm other]) ?_
    rintro rfl
    -- `shmem_align` leaves the word as it was.
    simpa [Object.next, Object.allocate, Shmlock.new, shbox, word] using
      sound.agrees.stage (by simp)
  | allocated p =>
    refine sound.construct p (.storing 0) _ (by simp) rfl (fun _ => rfl) ?_
    rintro rfl
    exact sound.agrees.stage (by simp)
  | store p =>
    simp only [machine, next, Object.next]
    cases stage : s.lock.stage p with
    | storing k =>
      obtain rfl := sound.single p k stage
      refine sound.construct p .returned _ (by simp) rfl
        (fun other => by simp [Object.store, Ne.symm other]) ?_
      rintro rfl
      exact .free (by simp [Object.store]; rfl) (funext (unheld rfl))
    | outside | arrived | returned => exact sound
  | setLock p => exact sound.setLock fires.2
  | clearLock p => exact sound.clearLock fires

theorem Sound.start (mem : Fin P → Nat → LockWord P) : Sound home (start mem) := by
  refine ⟨?_, .unstored (by simp [Locking.start, Object.start]) rfl, ?_, fun _ => rfl⟩
  · intro p k storing
    cases storing
  · intro c member
    cases member

end Locking

/-- Unless the home PE stores its zero under a live guard, the lock excludes. -/
theorem lock_excludes (home : Fin P) (mem : Fin P → Nat → LockWord P)
    (events : List (Locking.Event P))
    (unheld : ((Locking.machine home).under (Locking.HomeUnheld home)).Admits
      (Locking.start mem) events) :
    Locking.Excludes ((Locking.machine home).after (Locking.start mem) events) :=
  (Machine.invariant _ Locking.Sound.step (Locking.Sound.start mem) unheld).excludes

/-- Two PEs hold the lock in turn. -/
theorem lock_excludes_turns :
    Locking.Excludes ((Locking.machine (0 : Fin 2)).after (Locking.start fun _ _ => .other)
      [.allocate 0, .allocate 1, .allocated 0, .store 0, .allocated 1, .store 1,
        .setLock 1, .clearLock 1, .setLock 0]) :=
  lock_excludes 0 _ _ (by decide)

/-- PE 1 takes the lock before the home PE stores its zero, and then both hold it. -/
theorem lock_taken_twice :
    ¬ ∀ events, (Locking.machine (0 : Fin 2)).Admits (Locking.start fun _ _ => .free) events →
      Locking.Excludes ((Locking.machine (0 : Fin 2)).after (Locking.start fun _ _ => .free)
        events) := by
  intro excludes
  have run := excludes [.allocate 0, .allocate 1, .allocated 0, .allocated 1, .store 1,
    .setLock 1, .store 0, .setLock 0] (by decide)
  exact absurd run.exclusive (by decide)

end OpenShmem
