import Mathlib.Logic.Basic

/-! Labelled machines: which events a state enables, and the state each leads to.
A run is a list of events; `under` keeps the events a side condition allows, so a
law of restricted runs is an invariant of the restricted machine. -/

universe u v

structure Machine (σ : Type u) (ε : Type v) where
  enabled : σ → ε → Prop
  next : σ → ε → σ

namespace Machine

variable {σ : Type u} {ε : Type v} (m : Machine σ ε)

def after (s : σ) (events : List ε) : σ := events.foldl m.next s

/-- Every event of the run is enabled in the state in which it happens. -/
def Admits : σ → List ε → Prop
  | _, [] => True
  | s, e :: rest => m.enabled s e ∧ Admits (m.next s e) rest

instance Admits.decidable [∀ s e, Decidable (m.enabled s e)] :
    (s : σ) → (events : List ε) → Decidable (m.Admits s events)
  | _, [] => .isTrue trivial
  | s, e :: rest =>
    have := Admits.decidable (m.next s e) rest
    inferInstanceAs (Decidable (m.enabled s e ∧ m.Admits (m.next s e) rest))

/-- The machine whose events are also subject to a condition on the state before them. -/
def under (guard : σ → ε → Prop) : Machine σ ε :=
  ⟨fun s e => m.enabled s e ∧ guard s e, m.next⟩

instance under_decidable (guard : σ → ε → Prop) [∀ s e, Decidable (m.enabled s e)]
    [∀ s e, Decidable (guard s e)] (s : σ) (e : ε) : Decidable ((m.under guard).enabled s e) :=
  inferInstanceAs (Decidable (m.enabled s e ∧ guard s e))

@[simp] theorem after_nil (s : σ) : m.after s [] = s := rfl

@[simp] theorem after_cons (s : σ) (e : ε) (rest : List ε) :
    m.after s (e :: rest) = m.after (m.next s e) rest := rfl

@[simp] theorem admits_nil (s : σ) : m.Admits s [] := trivial

@[simp] theorem admits_cons (s : σ) (e : ε) (rest : List ε) :
    m.Admits s (e :: rest) ↔ m.enabled s e ∧ m.Admits (m.next s e) rest := Iff.rfl

/-- What one enabled event preserves holds in every state of a run. -/
theorem invariant {inv : σ → Prop} (step : ∀ s e, inv s → m.enabled s e → inv (m.next s e))
    {s : σ} (initial : inv s) {events : List ε} (run : m.Admits s events) :
    inv (m.after s events) := by
  induction events generalizing s with
  | nil => exact initial
  | cons e rest ih => exact ih (step s e initial run.1) run.2

/-- A run is no longer than what its first state allows, where each event costs something. -/
theorem length_le {inv : σ → Prop} {cost : σ → Nat}
    (step : ∀ s e, inv s → m.enabled s e → inv (m.next s e) ∧ cost (m.next s e) < cost s)
    {s : σ} (initial : inv s) {events : List ε} (run : m.Admits s events) :
    events.length ≤ cost s := by
  induction events generalizing s with
  | nil => exact Nat.zero_le _
  | cons e rest ih =>
    obtain ⟨kept, less⟩ := step s e initial run.1
    exact Nat.le_trans (Nat.succ_le_succ (ih kept run.2)) less

/-- Where a condition says exactly which events preserve an invariant, the runs which keep
it in every state are those of the restricted machine. -/
theorem invariant_iff {inv : σ → Prop} {guard : σ → ε → Prop}
    (step : ∀ s e, inv s → m.enabled s e → (inv (m.next s e) ↔ guard s e))
    {s : σ} (initial : inv s) {events : List ε} (run : m.Admits s events) :
    (∀ past, past <+: events → inv (m.after s past)) ↔ (m.under guard).Admits s events := by
  induction events generalizing s with
  | nil =>
    refine iff_of_true ?_ trivial
    intro past none
    rwa [List.prefix_nil.mp none]
  | cons e rest ih =>
    constructor
    · intro always
      have kept : inv (m.next s e) := always [e] (List.prefix_append [e] rest)
      refine ⟨⟨run.1, (step s e initial run.1).mp kept⟩, (ih kept run.2).mp fun past early => ?_⟩
      exact always (e :: past) ((List.prefix_cons_inj e).mpr early)
    · intro restricted past early
      have kept : inv (m.next s e) := (step s e initial run.1).mpr restricted.1.2
      cases past with
      | nil => exact initial
      | cons first past =>
        obtain ⟨rfl, earlier⟩ := List.cons_prefix_cons.mp early
        exact (ih kept run.2).mpr restricted.2 past earlier

end Machine
