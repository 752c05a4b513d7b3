import Mathlib.Data.List.Basic
import Mathlib.Data.List.Pairwise
import Mathlib.Data.List.Perm.Basic

/-! A cell on which operations are served one after the other. The record of what has been
served holds each operation with the value it found. -/

universe u v u' v'

namespace Serial

variable {A : Type v} {σ : Type u}

/-- From `s` the recorded operations lead to `t`, and each found what those before it left. -/
def Chain (apply : A → σ → σ) : σ → List (A × σ) → σ → Prop
  | s, [], t => s = t
  | s, x :: rest, t => x.2 = s ∧ Chain apply (apply x.1 s) rest t

namespace Chain

variable {apply : A → σ → σ} {s t : σ} {log : List (A × σ)}

/-- Serving one more operation. -/
theorem concat (chain : Chain apply s log t) (a : A) : Chain apply s (log ++ [(a, t)]) (apply a t) := by
  induction log generalizing s with
  | nil =>
    obtain rfl : s = t := chain
    exact ⟨rfl, rfl⟩
  | cons x rest ih =>
    obtain ⟨found, later⟩ := chain
    exact ⟨found, ih later⟩

theorem foldl (chain : Chain apply s log t) :
    (log.map Prod.fst).foldl (fun s a => apply a s) s = t := by
  induction log generalizing s with
  | nil => exact chain
  | cons x rest ih => exact ih chain.2

/-- What holds at first and is kept by every operation is found by each. -/
theorem keeps {good : σ → Prop} (kept : ∀ x ∈ log, ∀ s, good s → good (apply x.1 s))
    (initial : good s) (chain : Chain apply s log t) : (∀ x ∈ log, good x.2) ∧ good t := by
  induction log generalizing s with
  | nil =>
    obtain rfl : s = t := chain
    exact ⟨fun x member => absurd member List.not_mem_nil, initial⟩
  | cons x rest ih =>
    obtain ⟨found, later⟩ := chain
    have next := ih (fun y member => kept y (List.mem_cons_of_mem x member))
      (kept x List.mem_cons_self s initial) later
    refine ⟨fun y member => ?_, next.2⟩
    rcases List.mem_cons.mp member with rfl | member
    · rwa [found]
    · exact next.1 y member

/-- What nothing in the log brings about is never found. -/
theorem undone (done : σ → Prop) (brings : A → Prop)
    (leaves : ∀ x ∈ log, ¬ brings x.1 → ∀ s, ¬ done s → ¬ done (apply x.1 s))
    (never : ∀ x ∈ log, ¬ brings x.1) (initial : ¬ done s) (chain : Chain apply s log t) :
    (∀ x ∈ log, ¬ done x.2) ∧ ¬ done t :=
  keeps (fun x member => leaves x member (never x member)) initial chain

/-- A log whose operations stand for those of another cell is a log of that cell. -/
theorem lift {B : Type v'} {τ : Type u'} {apply' : B → τ → τ} (f : B → A) (g : τ → σ)
    (stands : ∀ b v, apply (f b) (g v) = g (apply' b v)) {s : τ} (images : ∀ x ∈ log, ∃ b, f b = x.1)
    (chain : Chain apply (g s) log t) :
    ∃ log' t', Chain apply' s log' t' ∧ log = log'.map (fun x => (f x.1, g x.2)) ∧ t = g t' := by
  induction log generalizing s with
  | nil =>
    obtain rfl : g s = t := chain
    exact ⟨[], s, rfl, rfl, rfl⟩
  | cons x rest ih =>
    obtain ⟨found, later⟩ := chain
    obtain ⟨b, image⟩ := images x List.mem_cons_self
    rw [← image, stands] at later
    obtain ⟨log', t', below, same, last⟩ := ih (fun y member => images y (List.mem_cons_of_mem x member)) later
    refine ⟨(b, s) :: log', t', ⟨rfl, below⟩, ?_, last⟩
    rw [List.map_cons, ← same]
    exact congrArg (· :: rest) (Prod.ext image.symm found)

/-- Operations which commute leave the same in any order. -/
theorem foldl_perm (chain : Chain apply s log t) {calls : List A} (same : (log.map Prod.fst).Perm calls)
    (commute : ∀ a ∈ calls, ∀ b ∈ calls, ∀ s, apply a (apply b s) = apply b (apply a s)) :
    t = calls.foldl (fun s a => apply a s) s := by
  rw [← chain.foldl]
  refine same.foldl_eq' ?_ s
  intro a first b second s
  exact commute b (same.subset second) a (same.subset first) s

end Chain

/-! ### The first to bring something about -/

/-- In the log `before ++ x :: after` it is `x` which brings about what stays done. -/
structure First (apply : A → σ → σ) (done : σ → Prop) (brings : A → Prop)
    (before : List (A × σ)) (x : A × σ) (after : List (A × σ)) (t : σ) : Prop where
  earlier : ∀ y ∈ before, ¬ brings y.1 ∧ ¬ done y.2
  brings : brings x.1
  found : ¬ done x.2
  later : Chain apply (apply x.1 x.2) after t
  done : ∀ y ∈ after, done y.2

variable {apply : A → σ → σ} {done : σ → Prop} {brings : A → Prop} {s t : σ}
  {log before after : List (A × σ)} {x : A × σ}

theorem Chain.first (done : σ → Prop) (brings : A → Prop)
    (kept : ∀ x ∈ log, ∀ s, done s → done (apply x.1 s))
    (makes : ∀ x ∈ log, brings x.1 → ∀ s, done (apply x.1 s))
    (leaves : ∀ x ∈ log, ¬ brings x.1 → ∀ s, ¬ done s → ¬ done (apply x.1 s))
    (initial : ¬ done s) (somebody : ∃ x ∈ log, brings x.1) (chain : Chain apply s log t) :
    ∃ before x after, log = before ++ x :: after ∧ First apply done brings before x after t := by
  induction log generalizing s with
  | nil =>
    obtain ⟨x, member, _⟩ := somebody
    exact absurd member List.not_mem_nil
  | cons x rest ih =>
    obtain ⟨found, later⟩ := chain
    by_cases now : brings x.1
    · refine ⟨[], x, rest, rfl, ⟨fun y member => absurd member List.not_mem_nil, now, ?_, ?_, ?_⟩⟩
      · rwa [found]
      · rwa [found]
      · exact (later.keeps (fun y member => kept y (List.mem_cons_of_mem x member))
          (makes x List.mem_cons_self now s)).1
    · have rests : ∃ y ∈ rest, brings y.1 := by
        obtain ⟨y, member, bringing⟩ := somebody
        rcases List.mem_cons.mp member with rfl | member
        · exact absurd bringing now
        · exact ⟨y, member, bringing⟩
      obtain ⟨before, y, after, rfl, first⟩ := ih
        (fun y member => kept y (List.mem_cons_of_mem x member))
        (fun y member => makes y (List.mem_cons_of_mem x member))
        (fun y member => leaves y (List.mem_cons_of_mem x member))
        (leaves x List.mem_cons_self now s initial) rests later
      refine ⟨x :: before, y, after, rfl, { first with earlier := fun z member => ?_ }⟩
      rcases List.mem_cons.mp member with rfl | member
      · exact ⟨now, by rwa [found]⟩
      · exact first.earlier z member

/-- One operation brings it about, and those which would have find it done. -/
theorem First.filter {wins : A × σ → Bool} (decides : ∀ y, wins y ↔ brings y.1 ∧ ¬ done y.2)
    (first : First apply done brings before x after t) :
    (before ++ x :: after).filter wins = [x] := by
  have nobody : before.filter wins = [] := by
    rw [List.filter_eq_nil_iff]
    exact fun y member wins => (first.earlier y member).1 ((decides y).mp wins).1
  have rest : after.filter wins = [] := by
    rw [List.filter_eq_nil_iff]
    exact fun y member wins => ((decides y).mp wins).2 (first.done y member)
  rw [List.filter_append, nobody, List.nil_append,
    List.filter_cons_of_pos ((decides x).mpr ⟨first.brings, first.found⟩), rest]

end Serial
