import Mathlib.Logic.Function.Basic
import OpenShmem.Machine

/-! `ShmemCtx::init` and `drop`, step by step, in a process of any number of threads. -/
namespace OpenShmem

inductive ShmemError where
  | inaccessible (pe : Nat)
  | alreadyInitialized
  | implementationDefined (code : Int)
  deriving DecidableEq, Repr

/-- Where a thread stands in its call of `init`. -/
inductive InitStage where
  | outside
  | checked
  | initializing
  | initialized
  deriving DecidableEq, Repr

/-- The process of one PE. `completed` is the state of `CTX_INITIALIZED`, `contexts`
counts the live `ShmemCtx` values, and `returned` logs the results of `init`. -/
structure Process (n : Nat) where
  completed : Bool
  stage : Fin n → InitStage
  inits : Nat
  initsReturned : Nat
  finalizes : Nat
  contexts : Nat
  returned : List (Except ShmemError Unit)

namespace Process

variable {n : Nat}

inductive Event (n : Nat) where
  | isCompleted (t : Fin n)
  | shmemInit (t : Fin n)
  | shmemInitReturns (t : Fin n)
  | callOnce (t : Fin n)
  | drop
  | finalize

def enabled (s : Process n) : Event n → Prop
  | .isCompleted t => s.stage t = .outside
  | .shmemInit t => s.stage t = .checked
  | .shmemInitReturns t => s.stage t = .initializing
  | .callOnce t => s.stage t = .initialized
  | .drop | .finalize => 0 < s.contexts

instance (s : Process n) : (e : Event n) → Decidable (enabled s e)
  | .isCompleted _ | .shmemInit _ | .shmemInitReturns _ | .callOnce _ =>
    inferInstanceAs (Decidable (_ = _))
  | .drop | .finalize => inferInstanceAs (Decidable (_ < _))

def dropContext (s : Process n) : Process n :=
  { s with finalizes := s.finalizes + 1, contexts := s.contexts - 1 }

def next (s : Process n) : Event n → Process n
  | .isCompleted t =>
    if s.completed then { s with returned := s.returned ++ [.error .alreadyInitialized] }
    else { s with stage := Function.update s.stage t .checked }
  | .shmemInit t =>
    { s with stage := Function.update s.stage t .initializing, inits := s.inits + 1 }
  | .shmemInitReturns t =>
    { s with stage := Function.update s.stage t .initialized, initsReturned := s.initsReturned + 1 }
  | .callOnce t =>
    { s with
      completed := true
      stage := Function.update s.stage t .outside
      contexts := s.contexts + 1
      returned := s.returned ++ [.ok ()] }
  | .drop => s.dropContext
  -- The body is `drop(self)`.
  | .finalize => s.dropContext

def machine (n : Nat) : Machine (Process n) (Event n) := ⟨enabled, next⟩

instance (s : Process n) (e : Event n) : Decidable ((machine n).enabled s e) :=
  inferInstanceAs (Decidable (enabled s e))

def start (n : Nat) : Process n := ⟨false, fun _ => .outside, 0, 0, 0, 0, []⟩

/-- One `shmem_init`, one context, and one `shmem_finalize` after the initialization. -/
structure OnceOnly (s : Process n) : Prop where
  inits : s.inits ≤ 1
  contexts : s.returned.countP (·.isOk) ≤ 1
  others : ∀ r ∈ s.returned, r = .ok () ∨ r = .error .alreadyInitialized
  finalizes : s.finalizes ≤ 1
  after : 0 < s.finalizes → 0 < s.initsReturned

/-- The check finds nothing completed only while no call of `init` is past its own check. -/
def Alone (s : Process n) : Event n → Prop
  | .isCompleted _ => s.completed = true ∨ ∀ t, s.stage t = .outside
  | _ => True

instance (s : Process n) : (e : Event n) → Decidable (Alone s e)
  | .isCompleted _ => inferInstanceAs (Decidable (_ ∨ _))
  | .shmemInit _ | .shmemInitReturns _ | .callOnce _ | .drop | .finalize => .isTrue trivial

/-- The `shmem_init` calls begun, and ended, by a thread alone at this stage. -/
def begun : InitStage → Nat
  | .outside | .checked => 0
  | .initializing | .initialized => 1

def ended : InitStage → Nat
  | .outside | .checked | .initializing => 0
  | .initialized => 1

/-- The states which calls of `init` reach one at a time. -/
inductive Orderly : Process n → Prop
  | untouched : Orderly (start n)
  | inside (t : Fin n) (stage : InitStage) (entered : stage ≠ .outside) :
    Orderly ⟨false, Function.update (fun _ => .outside) t stage, begun stage, ended stage, 0, 0, []⟩
  | settled (finalizes contexts later : Nat) (one : finalizes + contexts = 1) :
    Orderly ⟨true, fun _ => .outside, 1, 1, finalizes, contexts,
      .ok () :: List.replicate later (.error .alreadyInitialized)⟩

theorem Orderly.onceOnly {s : Process n} (orderly : Orderly s) : OnceOnly s := by
  cases orderly with
  | untouched => constructor <;> simp [start]
  | inside t stage => constructor <;> simp; cases stage <;> decide
  | settled finalizes contexts later one =>
    constructor
    · simp
    · simp [List.countP_replicate, Except.isOk, Except.toBool]
    · simp +contextual [List.mem_replicate]
    · change finalizes ≤ 1
      omega
    · simp

/-- Only the thread inside `init` is at a later stage. -/
theorem stage_update {t u : Fin n} {stage other : InitStage}
    (found : Function.update (fun _ => InitStage.outside) t stage u = other)
    (inside : other ≠ .outside) : u = t ∧ stage = other := by
  by_cases same : u = t
  · subst same
    exact ⟨rfl, by simpa using found⟩
  · rw [Function.update_of_ne same] at found
    exact absurd found.symm inside

/-- The thread inside `init` takes its next step. -/
theorem Orderly.advance {s : Process n} {t : Fin n} {stage : InitStage} (after : InitStage)
    (entered : after ≠ .outside) (inits : s.inits = begun after)
    (initsReturned : s.initsReturned = ended after) (completed : s.completed = false)
    (stages : s.stage = Function.update (Function.update (fun _ => .outside) t stage) t after)
    (rest : s.finalizes = 0 ∧ s.contexts = 0 ∧ s.returned = []) : Orderly s := by
  obtain ⟨finalizes, contexts, returned⟩ := rest
  rw [Function.update_idem] at stages
  obtain ⟨_, _, _, _, _, _, _⟩ := s
  cases completed
  cases stages
  cases inits
  cases initsReturned
  cases finalizes
  cases contexts
  cases returned
  exact .inside t after entered

theorem Orderly.step (s : Process n) (e : Event n) (orderly : Orderly s)
    (fires : ((machine n).under Alone).enabled s e) : Orderly ((machine n).next s e) := by
  obtain ⟨fires, alone⟩ := fires
  cases orderly with
  | untouched =>
    cases e with
    | isCompleted t => exact .inside t .checked (by simp)
    | shmemInit t | shmemInitReturns t | callOnce t => cases fires
    | drop | finalize => exact absurd fires (Nat.lt_irrefl 0)
  | inside t stage entered =>
    cases e with
    | isCompleted u =>
      rcases alone with completed | outside
      · cases completed
      · exact absurd (by simpa using outside t) entered
    | shmemInit u =>
      obtain ⟨rfl, rfl⟩ := stage_update fires (by simp)
      exact .advance .initializing (by simp) rfl rfl rfl rfl ⟨rfl, rfl, rfl⟩
    | shmemInitReturns u =>
      obtain ⟨rfl, rfl⟩ := stage_update fires (by simp)
      exact .advance .initialized (by simp) rfl rfl rfl rfl ⟨rfl, rfl, rfl⟩
    | callOnce u =>
      obtain ⟨rfl, rfl⟩ := stage_update fires (by simp)
      have outside : Function.update (Function.update (fun _ => InitStage.outside) u .initialized)
          u .outside = fun _ => .outside := by rw [Function.update_idem, Function.update_eq_self]
      simp only [machine, next, outside]
      exact .settled 0 1 0 rfl
    | drop | finalize => exact absurd fires (Nat.lt_irrefl 0)
  | settled finalizes contexts later one =>
    cases e with
    | isCompleted t =>
      have longer := List.replicate_succ' (n := later) (a := (.error .alreadyInitialized :
        Except ShmemError Unit))
      have settled := Orderly.settled (n := n) finalizes contexts (later + 1) one
      rw [longer] at settled
      exact settled
    | shmemInit t | shmemInitReturns t | callOnce t => cases fires
    | drop | finalize =>
      have live : 0 < contexts := fires
      exact .settled (finalizes + 1) (contexts - 1) later (by omega)

end Process

/-- While no check of `init` runs beside another call of `init`, everything happens once. -/
theorem init_once (n : Nat) (events : List (Process.Event n))
    (alone : ((Process.machine n).under Process.Alone).Admits (Process.start n) events) :
    Process.OnceOnly ((Process.machine n).after (Process.start n) events) :=
  (Machine.invariant _ Process.Orderly.step .untouched alone).onceOnly

/-- Two threads, one after the other, and then the context is dropped. -/
theorem init_once_run : Process.OnceOnly ((Process.machine 2).after (Process.start 2)
    [.isCompleted 0, .shmemInit 0, .shmemInitReturns 0, .callOnce 0, .isCompleted 1, .drop]) :=
  init_once 2 _ (by decide)

/-- Two threads check before either completes, and both initialize. -/
theorem init_twice :
    ¬ ∀ events, (Process.machine 2).Admits (Process.start 2) events →
      Process.OnceOnly ((Process.machine 2).after (Process.start 2) events) := by
  intro once
  have run := once [.isCompleted 0, .isCompleted 1, .shmemInit 0, .shmemInit 1] (by decide)
  exact absurd run.inits (by decide)

end OpenShmem
