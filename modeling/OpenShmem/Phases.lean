import Mathlib.Algebra.BigOperators.Fin
import Mathlib.Algebra.BigOperators.Intervals
import Mathlib.Data.List.FinRange
import Mathlib.Data.List.Flatten
import Mathlib.Data.List.Perm.Basic
import OpenShmem.Machine

/-! Parties which share a memory and meet at barriers. Between two barriers each party
takes its actions in turn; an action is done at once or travels, and a barrier waits for
those which do. Where the actions between two barriers commute, all schedules agree. -/

universe u v w

namespace Phases

variable {n : Nat} {A : Type v} {σ : Type u}

/-- What an action does to the memory, and whether it may take its time. -/
structure Meaning (A : Type v) (σ : Type u) where
  act : A → σ → σ
  travels : A → Bool

/-- The actions of each party between two barriers. -/
abbrev Phase (n : Nat) (A : Type v) := Fin n → List A

def Phase.all (phase : Phase n A) : List A := (List.finRange n).flatMap phase

/-- Phases with a barrier behind each. After the last barrier nobody acts any more. -/
abbrev Program (n : Nat) (A : Type v) := List (Phase n A)

def Program.actions (program : Program n A) (k : Nat) : Phase n A := program[k]?.getD fun _ => []

namespace Meaning

variable (m : Meaning A σ)

def perform (s : σ) (actions : List A) : σ := actions.foldl (fun s a => m.act a s) s

/-- The memory once the first `k` phases are over. -/
def memory (program : Program n A) (start : σ) (k : Nat) : σ :=
  (program.take k).foldl (fun s phase => m.perform s phase.all) start

/-- The memory after the first `count` of these lists, one after the other. -/
def replay (landed : Nat → List A) (start : σ) (count : Nat) : σ :=
  (List.range count).foldl (fun s k => m.perform s (landed k)) start

def Commutes (phase : Phase n A) : Prop :=
  ∀ a ∈ phase.all, ∀ b ∈ phase.all, ∀ s, m.act a (m.act b s) = m.act b (m.act a s)

end Meaning

/-- A party works in phase `k`, with `i` actions done, or waits at the barrier behind it. -/
inductive Place where
  | working (k i : Nat)
  | waiting (k : Nat)
  deriving DecidableEq, Repr

def Place.phase : Place → Nat
  | .working k _ => k
  | .waiting k => k

/-- It waits at the barrier behind phase `k`, or has left it. -/
def Place.Reached (k : Nat) : Place → Prop
  | .working k' _ => k < k'
  | .waiting k' => k ≤ k'

instance (k : Nat) : (place : Place) → Decidable (place.Reached k)
  | .working _ _ => inferInstanceAs (Decidable (_ < _))
  | .waiting _ => inferInstanceAs (Decidable (_ ≤ _))

/-- Each action on its way carries its phase. `landed` only records what has been done in
each phase, in order. -/
structure State (n : Nat) (A : Type v) (σ : Type u) where
  mem : σ
  place : Fin n → Place
  flight : List (Nat × A)
  landed : Nat → List A

inductive Event (n : Nat) where
  | act (p : Fin n)
  | arrive (p : Fin n)
  | leave (p : Fin n)
  | land (j : Nat)
  deriving DecidableEq, Repr

def start (n : Nat) (A : Type v) (mem : σ) : State n A σ :=
  ⟨mem, fun _ => .working 0 0, [], fun _ => []⟩

/-- A party which has not done its `length k` actions. -/
def Place.Acts (length : Nat → Nat) : Place → Prop
  | .working k i => i < length k
  | .waiting _ => False

/-- One which has, in a phase with a barrier behind it. -/
def Place.Arrives (length : Nat → Nat) (barriers : Nat) : Place → Prop
  | .working k i => i = length k ∧ k < barriers
  | .waiting _ => False

def Place.Leaves (complete : Nat → Prop) : Place → Prop
  | .working _ _ => False
  | .waiting k => complete k

instance (length : Nat → Nat) : (place : Place) → Decidable (place.Acts length)
  | .working _ _ => inferInstanceAs (Decidable (_ < _))
  | .waiting _ => .isFalse id

instance (length : Nat → Nat) (barriers : Nat) :
    (place : Place) → Decidable (place.Arrives length barriers)
  | .working _ _ => inferInstanceAs (Decidable (_ ∧ _))
  | .waiting _ => .isFalse id

instance (complete : Nat → Prop) [DecidablePred complete] :
    (place : Place) → Decidable (place.Leaves complete)
  | .working _ _ => .isFalse id
  | .waiting k => inferInstanceAs (Decidable (complete k))

/-- Everybody is at the barrier or past it, and nothing issued before it is on its way. -/
def State.Complete (s : State n A σ) (k : Nat) : Prop :=
  (∀ q, (s.place q).Reached k) ∧ ∀ f ∈ s.flight, f.1 ≠ k

instance (s : State n A σ) (k : Nat) : Decidable (s.Complete k) :=
  inferInstanceAs (Decidable (_ ∧ _))

def enabled (program : Program n A) (s : State n A σ) : Event n → Prop
  | .act p => (s.place p).Acts fun k => (program.actions k p).length
  | .arrive p => (s.place p).Arrives (fun k => (program.actions k p).length) program.length
  | .leave p => (s.place p).Leaves s.Complete
  | .land j => j < s.flight.length

instance (program : Program n A) (s : State n A σ) : (e : Event n) → Decidable (enabled program s e)
  | .act _ => inferInstanceAs (Decidable (Place.Acts _ _))
  | .arrive _ => inferInstanceAs (Decidable (Place.Arrives _ _ _))
  | .leave _ => inferInstanceAs (Decidable (Place.Leaves _ _))
  | .land _ => inferInstanceAs (Decidable (_ < _))

namespace Meaning

variable (m : Meaning A σ)

/-- An action of phase `k` happens. -/
def done (s : State n A σ) (k : Nat) (a : A) : State n A σ :=
  { s with mem := m.act a s.mem, landed := Function.update s.landed k (s.landed k ++ [a]) }

def issue (s : State n A σ) (k : Nat) (a : A) : State n A σ :=
  if m.travels a then { s with flight := s.flight ++ [(k, a)] } else m.done s k a

def next (program : Program n A) (s : State n A σ) : Event n → State n A σ
  | .act p => match s.place p with
    | .working k i => match (program.actions k p)[i]? with
      | some a => { m.issue s k a with place := Function.update s.place p (.working k (i + 1)) }
      | none => s
    | .waiting _ => s
  | .arrive p => { s with place := Function.update s.place p (.waiting (s.place p).phase) }
  | .leave p => { s with place := Function.update s.place p (.working ((s.place p).phase + 1) 0) }
  | .land j => match s.flight[j]? with
    | some f => { m.done s f.1 f.2 with flight := s.flight.eraseIdx j }
    | none => s

def machine (program : Program n A) : Machine (State n A σ) (Event n) :=
  ⟨enabled program, m.next program⟩

instance (program : Program n A) (s : State n A σ) (e : Event n) :
    Decidable ((m.machine program).enabled s e) :=
  inferInstanceAs (Decidable (enabled program s e))

end Meaning

@[simp] theorem Phase.mem_all {phase : Phase n A} {a : A} : a ∈ phase.all ↔ ∃ p, a ∈ phase p := by
  simp [Phase.all]

/-! ### What every run keeps -/

namespace Meaning

variable (m : Meaning A σ) {landed landed' : Nat → List A} {mem : σ}

section

variable {good : σ → Prop} {actions : List A}

theorem perform_keeps (keeps : ∀ a ∈ actions, ∀ s, good s → good (m.act a s)) {s : σ}
    (initial : good s) : good (m.perform s actions) := by
  induction actions generalizing s with
  | nil => exact initial
  | cons a rest ih =>
    refine ih (fun b later => keeps b (List.mem_cons_of_mem a later)) ?_
    exact keeps a List.mem_cons_self s initial

/-- What one of the actions brings about and all keep holds after them. -/
theorem perform_establishes (good : σ → Prop) (keeps : ∀ a ∈ actions, ∀ s, good s → good (m.act a s)) {a : A}
    (member : a ∈ actions) (makes : ∀ s, good (m.act a s)) (s : σ) : good (m.perform s actions) := by
  obtain ⟨before, after, rfl⟩ := List.append_of_mem member
  rw [perform, List.foldl_append, List.foldl_cons]
  refine m.perform_keeps (fun b later => keeps b ?_) (makes _)
  exact List.mem_append_right _ (List.mem_cons_of_mem a later)

end

theorem landed_done_self (s : State n A σ) (k : Nat) (a : A) :
    (m.done s k a).landed k = s.landed k ++ [a] := Function.update_self ..

theorem landed_done_of_ne {s : State n A σ} {k k' : Nat} {a : A} (other : k' ≠ k) :
    (m.done s k a).landed k' = s.landed k' := Function.update_of_ne other ..

theorem perform_concat (s : σ) (actions : List A) (a : A) :
    m.perform s (actions ++ [a]) = m.act a (m.perform s actions) := by
  simp [perform]

theorem replay_succ (count : Nat) :
    m.replay landed mem (count + 1) = m.perform (m.replay landed mem count) (landed count) := by
  simp [replay, List.range_succ]

theorem replay_congr {count : Nat} (same : ∀ k < count, landed k = landed' k) :
    m.replay landed mem count = m.replay landed' mem count := by
  induction count with
  | zero => rfl
  | succ count ih =>
    rw [m.replay_succ, m.replay_succ, same count (Nat.lt_succ_self count),
      ih fun k before => same k (Nat.lt_succ_of_lt before)]

/-- Empty lists at the end do nothing. -/
theorem replay_rest {k last : Nat} (within : k ≤ last) (later : ∀ k', k < k' → landed k' = []) :
    m.replay landed mem (last + 1) = m.replay landed mem (k + 1) := by
  induction last, within using Nat.le_induction with
  | base => rfl
  | succ last above ih =>
    rw [m.replay_succ, later _ (Nat.lt_succ_of_le above), ih]
    rfl

end Meaning

/-- The actions of phase `k` a party has issued when it is at this place. -/
def Place.issued (actions : Nat → List A) (k : Nat) : Place → List A
  | .working k' i => if k < k' then actions k else if k = k' then (actions k).take i else []
  | .waiting k' => if k ≤ k' then actions k else []

/-- The places of a party in a program. -/
def Place.Within (length : Nat → Nat) (barriers : Nat) : Place → Prop
  | .working k i => k ≤ barriers ∧ i ≤ length k
  | .waiting k => k < barriers

section

variable {actions : Nat → List A} {place : Place} {k : Nat}

theorem Place.Within.phase_le {length : Nat → Nat} {barriers : Nat}
    (within : place.Within length barriers) : place.phase ≤ barriers := by
  cases place with
  | working k i => exact within.1
  | waiting k => exact Nat.le_of_lt within

theorem Place.issued_later (later : place.phase < k) : place.issued actions k = [] := by
  cases place with
  | working k' i =>
    simp only [Place.phase] at later
    simp only [Place.issued, if_neg (Nat.lt_asymm later), if_neg (Nat.ne_of_gt later)]
  | waiting k' =>
    simp only [Place.phase] at later
    simp only [Place.issued, if_neg (Nat.not_le_of_lt later)]

theorem Place.issued_reached (reached : place.Reached k) : place.issued actions k = actions k := by
  cases place with
  | working k' i => exact if_pos reached
  | waiting k' => exact if_pos reached

theorem Place.issued_sublist : (place.issued actions k).Sublist (actions k) := by
  cases place with
  | working k' i =>
    simp only [Place.issued]
    split_ifs
    · exact List.Sublist.refl _
    · exact List.take_sublist _ _
    · exact List.nil_sublist _
  | waiting k' =>
    simp only [Place.issued]
    split_ifs
    · exact List.Sublist.refl _
    · exact List.nil_sublist _

theorem Place.issued_arrive (k k' : Nat) :
    (Place.waiting k).issued actions k' = (Place.working k (actions k).length).issued actions k' := by
  simp only [Place.issued, Nat.le_iff_lt_or_eq]
  rcases Nat.lt_trichotomy k' k with earlier | rfl | later
  · simp [earlier]
  · simp
  · simp [Nat.lt_asymm later, Nat.ne_of_gt later]

theorem Place.issued_leave (k k' : Nat) :
    (Place.working (k + 1) 0).issued actions k' = (Place.waiting k).issued actions k' := by
  simp only [Place.issued, Nat.lt_succ_iff, List.take_zero, ite_self]

theorem Place.issued_act {k i : Nat} {a : A} (issues : (actions k)[i]? = some a) (k' : Nat) :
    (Place.working k (i + 1)).issued actions k' =
      (Place.working k i).issued actions k' ++ if k' = k then [a] else [] := by
  simp only [Place.issued]
  rcases Nat.lt_trichotomy k' k with earlier | rfl | later
  · simp [earlier, Nat.ne_of_lt earlier]
  · simp [List.take_add_one, issues]
  · simp [Nat.lt_asymm later, Nat.ne_of_gt later]

end

/-- What the parties have issued of phase `k`. -/
def State.issued (program : Program n A) (s : State n A σ) (k : Nat) : List A :=
  (List.finRange n).flatMap fun p => (s.place p).issued (program.actions · p) k

/-- What is on its way of phase `k`. -/
def State.travelling (s : State n A σ) (k : Nat) : List A :=
  (s.flight.filter (·.1 = k)).map Prod.snd

/-- The phases follow each other: where somebody is in one, those before it are complete. -/
structure Sound (m : Meaning A σ) (program : Program n A) (mem : σ) (s : State n A σ) : Prop where
  within : ∀ p, (s.place p).Within (fun k => (program.actions k p).length) program.length
  complete : ∀ p, ∀ k < (s.place p).phase, s.Complete k
  issued : ∀ k, (s.landed k ++ s.travelling k).Perm (s.issued program k)
  memory : s.mem = m.replay s.landed mem (program.length + 1)

namespace Sound

variable {m : Meaning A σ} {program : Program n A} {mem : σ} {s : State n A σ} {p : Fin n}
  {k i : Nat} {a : A}

/-- Of a phase nobody is in yet nothing has been issued. -/
theorem later (sound : Sound m program mem s) (early : ∀ q, (s.place q).phase < k) :
    s.landed k = [] ∧ s.travelling k = [] := by
  have nothing : s.issued program k = [] := by
    rw [State.issued, List.flatMap_eq_nil_iff]
    exact fun q _ => Place.issued_later (early q)
  have same := sound.issued k
  rw [nothing] at same
  exact List.append_eq_nil_iff.mp same.eq_nil

/-- Of a phase whose barrier everybody has reached everything has been issued. -/
theorem landed_perm (sound : Sound m program mem s) (complete : s.Complete k) :
    (s.landed k).Perm (program.actions k).all := by
  have none_ : s.travelling k = [] := by
    rw [State.travelling, List.map_eq_nil_iff, List.filter_eq_nil_iff]
    intro f member
    simpa using complete.2 f member
  have all : s.issued program k = (program.actions k).all := by
    rw [State.issued, Phase.all]
    congr 1
    funext q
    exact Place.issued_reached (complete.1 q)
  have same := sound.issued k
  rwa [none_, List.append_nil, all] at same

theorem landed_subperm (sound : Sound m program mem s) (k : Nat) :
    (s.landed k).Subperm (program.actions k).all := by
  have part : (s.landed k).Subperm (s.issued program k) :=
    (List.sublist_append_left _ _).subperm.trans (sound.issued k).subperm
  exact part.trans (List.Sublist.flatMap_right _ fun q _ => Place.issued_sublist).subperm

/-- A party which works in a phase is as far as anybody. -/
theorem last_of_working (sound : Sound m program mem s) (working : s.place p = .working k i)
    (q : Fin n) : (s.place q).phase ≤ k := by
  by_contra further
  have reached := (sound.complete q k (Nat.lt_of_not_le further)).1 p
  rw [working] at reached
  exact absurd reached (Nat.lt_irrefl k)

theorem last_of_travelling (sound : Sound m program mem s) {f : Nat × A} (member : f ∈ s.flight)
    (q : Fin n) : (s.place q).phase ≤ f.1 := by
  by_contra further
  exact (sound.complete q f.1 (Nat.lt_of_not_le further)).2 f member rfl

theorem travelling_within (sound : Sound m program mem s) {f : Nat × A} (member : f ∈ s.flight) :
    f.1 ≤ program.length := by
  by_contra beyond
  have none_ := (sound.later (k := f.1) fun q =>
    Nat.lt_of_le_of_lt (sound.within q).phase_le (Nat.lt_of_not_le beyond)).2
  rw [State.travelling, List.map_eq_nil_iff, List.filter_eq_nil_iff] at none_
  exact none_ f member (by simp)

/-- What happens in the last phase anybody is in, happens last. -/
theorem memory_done (sound : Sound m program mem s) (within : k ≤ program.length)
    (last : ∀ q, (s.place q).phase ≤ k) :
    (m.done s k a).mem = m.replay (m.done s k a).landed mem (program.length + 1) := by
  have later (k' : Nat) (after : k < k') : s.landed k' = [] :=
    (sound.later fun q => Nat.lt_of_le_of_lt (last q) after).1
  calc m.act a s.mem
      = m.act a (m.replay s.landed mem (k + 1)) := by
        rw [sound.memory, m.replay_rest within later]
    _ = m.replay (m.done s k a).landed mem (k + 1) := by
        have earlier : m.replay (m.done s k a).landed mem k = m.replay s.landed mem k :=
          m.replay_congr fun k' before => m.landed_done_of_ne (Nat.ne_of_lt before)
        rw [m.replay_succ, m.replay_succ, m.landed_done_self, m.perform_concat, earlier]
    _ = m.replay (m.done s k a).landed mem (program.length + 1) := by
        refine (m.replay_rest within ?_).symm
        intro k' after
        rw [m.landed_done_of_ne (Nat.ne_of_gt after), later k' after]

/-! ### Steps -/

theorem reached_update {place : Fin n → Place} {new : Place}
    (grows : (place p).Reached k → new.Reached k) (q : Fin n) (reached : (place q).Reached k) :
    (Function.update place p new q).Reached k := by
  by_cases same : q = p
  · subst same
    rw [Function.update_self]
    exact grows reached
  · rwa [Function.update_of_ne same]

/-- A party moves on without an action. -/
theorem move (sound : Sound m program mem s) (p : Fin n) (new : Place)
    (within : new.Within (fun k => (program.actions k p).length) program.length)
    (grows : ∀ k, (s.place p).Reached k → new.Reached k)
    (complete : ∀ k < new.phase, s.Complete k)
    (issued : ∀ k, new.issued (program.actions · p) k =
      (s.place p).issued (program.actions · p) k) :
    Sound m program mem { s with place := Function.update s.place p new } := by
  refine ⟨?_, ?_, ?_, sound.memory⟩
  · intro q
    by_cases same : q = p
    · subst same
      simpa only [Function.update_self] using within
    · simpa only [Function.update_of_ne same] using sound.within q
  · intro q k before
    have earlier : s.Complete k := by
      by_cases same : q = p
      · subst same
        exact complete k (by simpa only [Function.update_self] using before)
      · exact sound.complete q k (by simpa only [Function.update_of_ne same] using before)
    exact ⟨fun q => reached_update (grows k) q (earlier.1 q), earlier.2⟩
  · intro k
    have same : State.issued program { s with place := Function.update s.place p new } k =
        s.issued program k := by
      simp only [State.issued]
      congr 1
      funext q
      by_cases same : q = p
      · subst same
        rw [Function.update_self, issued k]
      · rw [Function.update_of_ne same]
    rw [same]
    exact sound.issued k

theorem arrive (sound : Sound m program mem s) (p : Fin n)
    (fires : enabled program s (.arrive p)) : Sound m program mem (m.next program s (.arrive p)) := by
  simp only [enabled] at fires
  cases place : s.place p with
  | waiting k =>
    rw [place] at fires
    exact fires.elim
  | working k i =>
    rw [place] at fires
    obtain ⟨rfl, behind⟩ := fires
    simp only [Meaning.next, place, Place.phase]
    refine sound.move p (.waiting k) behind ?_ ?_ ?_
    · rw [place]
      exact fun k' reached => Nat.le_of_lt reached
    · intro k' before
      exact sound.complete p k' (by rwa [place])
    · rw [place]
      exact Place.issued_arrive k

theorem leave (sound : Sound m program mem s) (p : Fin n)
    (fires : enabled program s (.leave p)) : Sound m program mem (m.next program s (.leave p)) := by
  simp only [enabled] at fires
  cases place : s.place p with
  | working k i =>
    rw [place] at fires
    exact fires.elim
  | waiting k =>
    have within := sound.within p
    rw [place] at fires within
    have complete : s.Complete k := fires
    simp only [Meaning.next, place, Place.phase]
    refine sound.move p (.working (k + 1) 0) ⟨within, Nat.zero_le _⟩ ?_ ?_ ?_
    · rw [place]
      exact fun k' reached => Nat.lt_succ_of_le reached
    · intro k' before
      rcases Nat.lt_succ_iff_lt_or_eq.mp before with earlier | rfl
      · exact sound.complete p k' (by rwa [place])
      · exact complete
    · rw [place]
      exact Place.issued_leave k

theorem land (sound : Sound m program mem s) (j : Nat) :
    Sound m program mem (m.next program s (.land j)) := by
  cases chosen : s.flight[j]? with
  | none => simpa only [Meaning.next, chosen] using sound
  | some f =>
    simp only [Meaning.next, chosen]
    obtain ⟨bound, rfl⟩ := List.getElem?_eq_some_iff.mp chosen
    have member : s.flight[j] ∈ s.flight := List.getElem_mem bound
    refine ⟨sound.within, ?_, ?_, ?_⟩
    · intro q k before
      have earlier := sound.complete q k before
      exact ⟨earlier.1, fun f member => earlier.2 f (List.mem_of_mem_eraseIdx member)⟩
    · intro k
      have split := ((List.getElem_cons_eraseIdx_perm bound).filter (·.1 = k)).map Prod.snd
      have whole : s.issued program k = State.issued program
          { m.done s s.flight[j].1 s.flight[j].2 with flight := s.flight.eraseIdx j } k := rfl
      rw [← whole]
      refine List.Perm.trans ?_ (sound.issued k)
      by_cases same : s.flight[j].1 = k
      · subst same
        rw [List.filter_cons_of_pos (by simp), List.map_cons] at split
        rw [m.landed_done_self, List.append_assoc]
        exact split.append_left _
      · rw [List.filter_cons_of_neg (by simpa using same)] at split
        rw [m.landed_done_of_ne (Ne.symm same)]
        exact split.append_left _
    · exact sound.memory_done (sound.travelling_within member) (sound.last_of_travelling member)

theorem flatMap_append {f g : Fin n → List A} {l : List A} (own : g p = f p ++ l)
    (others : ∀ q, q ≠ p → g q = f q) :
    ((List.finRange n).flatMap g).Perm ((List.finRange n).flatMap f ++ l) := by
  have split := List.perm_cons_erase (List.mem_finRange p)
  have rest : ((List.finRange n).erase p).flatMap g = ((List.finRange n).erase p).flatMap f := by
    apply List.flatMap_congr
    intro q member
    exact others q ((List.nodup_finRange n).mem_erase_iff.mp member).1
  have before := split.flatMap_right f
  have after := split.flatMap_right g
  rw [List.flatMap_cons] at before after
  rw [own, rest, List.append_assoc] at after
  refine after.trans (List.Perm.trans ?_ (before.symm.append_right l))
  rw [List.append_assoc]
  exact List.perm_append_comm.append_left _

/-- A party takes its next action, which is now among those on their way or those done. -/
theorem acts (sound : Sound m program mem s) (working : s.place p = .working k i)
    (next : (program.actions k p)[i]? = some a) {s' : State n A σ}
    (place : s'.place = Function.update s.place p (.working k (i + 1)))
    (flight : ∀ f ∈ s'.flight, f ∈ s.flight ∨ f.1 = k)
    (issued : ∀ k', (s'.landed k' ++ s'.travelling k').Perm
      (s.landed k' ++ s.travelling k' ++ if k' = k then [a] else []))
    (memory : s'.mem = m.replay s'.landed mem (program.length + 1)) : Sound m program mem s' := by
  have inside : i < (program.actions k p).length := (List.getElem?_eq_some_iff.mp next).1
  have phases (q : Fin n) : (s'.place q).phase = (s.place q).phase := by
    rw [place]
    by_cases same : q = p
    · subst same
      rw [Function.update_self, working]
      rfl
    · rw [Function.update_of_ne same]
  refine ⟨?_, ?_, ?_, memory⟩
  · intro q
    have within := sound.within q
    rw [place]
    by_cases same : q = p
    · subst same
      rw [working] at within
      rw [Function.update_self]
      exact ⟨within.1, inside⟩
    · rwa [Function.update_of_ne same]
  · intro q k' before
    rw [phases q] at before
    obtain ⟨reached, empty⟩ := sound.complete q k' before
    refine ⟨fun q => ?_, fun f member => ?_⟩
    · rw [place]
      refine reached_update ?_ q (reached q)
      rw [working]
      exact id
    · rcases flight f member with older | own
      · exact empty f older
      · rw [own]
        exact Nat.ne_of_gt (Nat.lt_of_lt_of_le before (sound.last_of_working working q))
  · intro k'
    refine (issued k').trans (((sound.issued k').append_right _).trans ?_)
    refine (flatMap_append (p := p) ?_ ?_).symm
    · rw [place, Function.update_self, working]
      exact Place.issued_act next k'
    · intro q other
      rw [place, Function.update_of_ne other]

theorem act (sound : Sound m program mem s) (p : Fin n) :
    Sound m program mem (m.next program s (.act p)) := by
  cases working : s.place p with
  | waiting k => simpa only [Meaning.next, working] using sound
  | working k i =>
    cases next : (program.actions k p)[i]? with
    | none => simpa only [Meaning.next, working, next] using sound
    | some a =>
      simp only [Meaning.next, working, next]
      have within : k ≤ program.length := by
        have within := sound.within p
        rw [working] at within
        exact within.1
      by_cases travels : m.travels a = true
      · refine sound.acts working next rfl ?_ ?_ ?_
        · intro f member
          rw [Meaning.issue, if_pos travels] at member
          rcases List.mem_append.mp member with older | newest
          · exact .inl older
          · obtain rfl := List.mem_singleton.mp newest
            exact .inr rfl
        · intro k'
          rw [Meaning.issue, if_pos travels, List.append_assoc]
          refine List.Perm.append_left _ (List.Perm.of_eq ?_)
          by_cases same : k = k'
          · simp [State.travelling, same]
          · simp [State.travelling, same, Ne.symm same]
        · rw [Meaning.issue, if_pos travels]
          exact sound.memory
      · refine sound.acts working next rfl ?_ ?_ ?_
        · intro f member
          rw [Meaning.issue, if_neg travels] at member
          exact .inl member
        · intro k'
          rw [Meaning.issue, if_neg travels]
          by_cases same : k' = k
          · subst same
            rw [if_pos rfl, m.landed_done_self, List.append_assoc, List.append_assoc]
            exact List.perm_append_comm.append_left _
          · rw [if_neg same, m.landed_done_of_ne same, List.append_nil]
            exact List.Perm.refl _
        · rw [Meaning.issue, if_neg travels]
          exact sound.memory_done within (sound.last_of_working working)

theorem step (s : State n A σ) (e : Event n) (sound : Sound m program mem s)
    (fires : (m.machine program).enabled s e) :
    Sound m program mem ((m.machine program).next s e) := by
  cases e with
  | act p => exact sound.act p
  | arrive p => exact sound.arrive p fires
  | leave p => exact sound.leave p fires
  | land j => exact sound.land j

theorem start (m : Meaning A σ) (program : Program n A) (mem : σ) :
    Sound m program mem (start n A mem) := by
  refine ⟨fun p => ⟨Nat.zero_le _, Nat.zero_le _⟩, ?_, ?_, ?_⟩
  · intro p k before
    exact absurd before (Nat.not_lt_zero k)
  · intro k
    have nothing : State.issued program (Phases.start n A mem) k = [] := by
      rw [State.issued, List.flatMap_eq_nil_iff]
      intro q _
      simp [Phases.start, Place.issued]
    rw [nothing]
    exact List.Perm.refl _
  · have idle (count : Nat) : m.replay (fun _ => []) mem count = mem := by
      induction count with
      | zero => rfl
      | succ count ih =>
        rw [m.replay_succ, ih]
        rfl
    exact (idle _).symm

theorem run {events : List (Event n)} (admitted : (m.machine program).Admits (Phases.start n A mem) events) :
    Sound m program mem ((m.machine program).after (Phases.start n A mem) events) :=
  Machine.invariant _ step (start m program mem) admitted

/-- Where no action takes its time nothing is ever on its way. -/
theorem flight_next (still : ∀ a, m.travels a = false) (empty : s.flight = []) (e : Event n) :
    (m.next program s e).flight = [] := by
  cases e with
  | arrive p => exact empty
  | leave p => exact empty
  | act p =>
    simp only [Meaning.next]
    split
    · split
      · rw [Meaning.issue, if_neg (by rw [still]; exact Bool.false_ne_true)]
        exact empty
      · exact empty
    · exact empty
  | land j =>
    simp only [Meaning.next, empty, List.getElem?_nil]

/-! ### What a party finds -/

theorem replay_memory (sound : Sound m program mem s)
    (commutes : ∀ phase ∈ program.take k, m.Commutes phase) (complete : ∀ k' < k, s.Complete k')
    (within : k ≤ program.length) : m.replay s.landed mem k = m.memory program mem k := by
  induction k with
  | zero => rfl
  | succ k ih =>
    have phase : program.actions k = program[k] := by
      rw [Program.actions, List.getElem?_eq_getElem within, Option.getD_some]
    have split : program.take (k + 1) = program.take k ++ [program[k]] :=
      List.take_succ_eq_append_getElem within
    have earlier : m.replay s.landed mem k = m.memory program mem k := by
      refine ih (fun phase member => commutes phase ?_) (fun k' before => ?_) (Nat.le_of_lt within)
      · rw [split]
        exact List.mem_append_left _ member
      · exact complete k' (Nat.lt_succ_of_lt before)
    have here : m.Commutes program[k] := by
      refine commutes _ ?_
      rw [split]
      exact List.mem_append_right _ (List.mem_singleton_self _)
    have same := sound.landed_perm (complete k (Nat.lt_succ_self k))
    rw [phase] at same
    rw [m.replay_succ, earlier, Meaning.memory, Meaning.memory, split, List.foldl_append]
    refine same.foldl_eq' ?_ _
    intro a first b second mem
    exact (here a (same.subset first) b (same.subset second) mem).symm

/-- Where the phases before it commute, a party in phase `k` finds what they come to, and
on top of it some of the actions of its own phase. -/
theorem mem_working (sound : Sound m program mem s) (working : s.place p = .working k i)
    (commutes : ∀ phase ∈ program.take k, m.Commutes phase) :
    s.mem = m.perform (m.memory program mem k) (s.landed k) ∧
      (s.landed k).Subperm (program.actions k).all := by
  refine ⟨?_, sound.landed_subperm k⟩
  have within : k ≤ program.length := by
    have within := sound.within p
    rw [working] at within
    exact within.1
  have complete (k' : Nat) (before : k' < k) : s.Complete k' :=
    sound.complete p k' (by rwa [working])
  have later (k' : Nat) (after : k < k') : s.landed k' = [] :=
    (sound.later fun q => Nat.lt_of_le_of_lt (sound.last_of_working working q) after).1
  rw [sound.memory, m.replay_rest within later, m.replay_succ,
    sound.replay_memory commutes complete within]

/-- In a phase without actions it finds just that. -/
theorem mem_idle (sound : Sound m program mem s) (working : s.place p = .working k i)
    (commutes : ∀ phase ∈ program.take k, m.Commutes phase)
    (idle : (program.actions k).all = []) : s.mem = m.memory program mem k := by
  obtain ⟨found, part⟩ := sound.mem_working working commutes
  rw [idle] at part
  rw [found, List.subperm_nil.mp part]
  rfl

/-! ### Runs end -/

/-- A state in which nothing can happen is one in which everybody is past all barriers. -/
theorem finished (sound : Sound m program mem s) (stuck : ∀ e, ¬ enabled program s e) (p : Fin n) :
    s.place p = .working program.length 0 := by
  have empty : s.flight = [] := by
    apply List.eq_nil_of_length_eq_zero
    exact Nat.eq_zero_of_not_pos fun some_ => stuck (.land 0) some_
  have last (q : Fin n) (k i : Nat) (working : s.place q = .working k i) :
      k = program.length ∧ i = 0 := by
    have within := sound.within q
    have idle := stuck (.act q)
    have stays := stuck (.arrive q)
    simp only [enabled, working] at idle stays within
    have all : i = (program.actions k q).length := Nat.le_antisymm within.2 (Nat.le_of_not_lt idle)
    have end_ : k = program.length :=
      Nat.le_antisymm within.1 (Nat.le_of_not_lt fun before => stays ⟨all, before⟩)
    refine ⟨end_, ?_⟩
    rw [all, end_, Program.actions, List.getElem?_eq_none (Nat.le_refl _)]
    rfl
  have nobody (q : Fin n) (k : Nat) : s.place q ≠ .waiting k := by
    intro waiting
    have some_ : ∃ k q, s.place q = .waiting k := ⟨k, q, waiting⟩
    classical
    obtain ⟨q, waiting⟩ := Nat.find_spec some_
    have first (q' : Fin n) (k' : Nat) (waiting' : s.place q' = .waiting k') :
        Nat.find some_ ≤ k' := Nat.find_min' some_ ⟨q', waiting'⟩
    have within := sound.within q
    rw [waiting] at within
    refine stuck (.leave q) ?_
    simp only [enabled, waiting]
    refine ⟨fun q' => ?_, ?_⟩
    · cases place : s.place q' with
      | working k' i =>
        rw [(last q' k' i place).1]
        exact within
      | waiting k' => exact first q' k' place
    · rw [empty]
      exact fun f member => absurd member List.not_mem_nil
  cases place : s.place p with
  | waiting k => exact absurd place (nobody p k)
  | working k i =>
    obtain ⟨rfl, rfl⟩ := last p k i place
    rfl

end Sound

/-! ### How long runs can be -/

/-- What a party has left to do from the beginning of phase `k` on, if every action took
two steps. -/
def ahead (length : Nat → Nat) (barriers k : Nat) : Nat :=
  ∑ k' ∈ Finset.Ico k (barriers + 1), (2 * length k' + 2)

def Place.cost (length : Nat → Nat) (barriers : Nat) : Place → Nat
  | .working k i => ahead length barriers (k + 1) + 2 * (length k - i) + 2
  | .waiting k => ahead length barriers (k + 1) + 1

def Program.cost (program : Program n A) (s : State n A σ) : Nat :=
  ∑ p, (s.place p).cost (fun k => (program.actions k p).length) program.length + s.flight.length

/-- Twice the actions and the barriers of all parties. -/
def Program.size (program : Program n A) : Nat :=
  ∑ p, ahead (fun k => (program.actions k p).length) program.length 0

theorem ahead_succ {length : Nat → Nat} {barriers k : Nat} (within : k ≤ barriers) :
    ahead length barriers k = 2 * length k + 2 + ahead length barriers (k + 1) :=
  Finset.sum_eq_sum_Ico_succ_bot (Nat.lt_succ_of_le within) _

theorem sum_update {α : Type w} (f : Fin n → α → Nat) (g : Fin n → α) (p : Fin n) (new : α) :
    ∑ q, f q (Function.update g p new q) + f p (g p) = ∑ q, f q (g q) + f p new := by
  have rest : ∑ q ∈ Finset.univ.erase p, f q (Function.update g p new q) =
      ∑ q ∈ Finset.univ.erase p, f q (g q) := by
    apply Finset.sum_congr rfl
    intro q other
    rw [Function.update_of_ne (Finset.ne_of_mem_erase other)]
  rw [← Finset.add_sum_erase _ _ (Finset.mem_univ p),
    ← Finset.add_sum_erase _ (fun q => f q (g q)) (Finset.mem_univ p), rest, Function.update_self]
  omega

theorem cost_update {program : Program n A} {s s' : State n A σ} {p : Fin n} {new : Place}
    (place : s'.place = Function.update s.place p new)
    (less : new.cost (fun k => (program.actions k p).length) program.length + s'.flight.length <
      (s.place p).cost (fun k => (program.actions k p).length) program.length + s.flight.length) :
    program.cost s' < program.cost s := by
  have sum := sum_update
    (fun q place => place.cost (fun k => (program.actions k q).length) program.length) s.place p new
  simp only [Program.cost, place]
  omega

theorem cost_next {m : Meaning A σ} {program : Program n A} {mem : σ} {s : State n A σ}
    (sound : Sound m program mem s) (e : Event n) (fires : enabled program s e) :
    program.cost (m.next program s e) < program.cost s := by
  cases e with
  | land j =>
    have bound : j < s.flight.length := fires
    simp only [Meaning.next, List.getElem?_eq_getElem bound, Program.cost, Meaning.done,
      List.length_eraseIdx_of_lt bound]
    omega
  | arrive p =>
    simp only [enabled] at fires
    cases place : s.place p with
    | waiting k =>
      rw [place] at fires
      exact fires.elim
    | working k i =>
      refine cost_update (p := p) rfl ?_
      rw [place]
      simp only [Meaning.next, Place.phase, Place.cost]
      omega
  | leave p =>
    simp only [enabled] at fires
    cases place : s.place p with
    | working k i =>
      rw [place] at fires
      exact fires.elim
    | waiting k =>
      have within := sound.within p
      rw [place] at within
      refine cost_update (p := p) rfl ?_
      rw [place]
      simp only [Meaning.next, Place.phase, Place.cost]
      rw [ahead_succ (k := k + 1) within]
      omega
  | act p =>
    simp only [enabled] at fires
    cases place : s.place p with
    | waiting k =>
      rw [place] at fires
      exact fires.elim
    | working k i =>
      rw [place] at fires
      have inside : i < (program.actions k p).length := fires
      simp only [Meaning.next, place, List.getElem?_eq_getElem inside]
      refine cost_update (p := p) rfl ?_
      rw [place]
      simp only [Place.cost]
      have flight : (m.issue s k (program.actions k p)[i]).flight.length ≤ s.flight.length + 1 := by
        unfold Meaning.issue
        split
        · simp
        · exact Nat.le_succ _
      omega

theorem cost_start (program : Program n A) (mem : σ) :
    program.cost (start n A mem) = program.size := by
  simp only [Program.cost, Program.size, start, Place.cost, List.length_nil, Nat.add_zero]
  apply Finset.sum_congr rfl
  intro p _
  rw [ahead_succ (Nat.zero_le _)]
  omega

/-- No schedule keeps the parties busy for ever. -/
theorem length_le_size {m : Meaning A σ} {program : Program n A} {mem : σ} {events : List (Event n)}
    (admitted : (m.machine program).Admits (start n A mem) events) :
    events.length ≤ program.size := by
  rw [← cost_start program mem]
  have step (s : State n A σ) (e : Event n) (sound : Sound m program mem s)
      (fires : (m.machine program).enabled s e) :
      Sound m program mem ((m.machine program).next s e) ∧
        program.cost ((m.machine program).next s e) < program.cost s :=
    ⟨sound.step s e fires, cost_next sound e fires⟩
  exact Machine.length_le _ step (Sound.start m program mem) admitted

/-- Schedules end, and only when everybody is past the last barrier. -/
structure Ends (program : Program n A) (s : State n A σ) (length : Nat) : Prop where
  bounded : length ≤ program.size
  completes : (∀ e, ¬ enabled program s e) → ∀ p, s.place p = .working program.length 0

theorem ends {m : Meaning A σ} {program : Program n A} {mem : σ} {events : List (Event n)}
    (admitted : (m.machine program).Admits (start n A mem) events) :
    Ends program ((m.machine program).after (start n A mem) events) events.length :=
  ⟨length_le_size admitted, (Sound.run admitted).finished⟩

/-! ### Views -/

/-- What is seen of a state whose memory is seen through `view`. -/
def State.view {τ : Type w} (view : σ → τ) (s : State n A σ) : State n A τ :=
  ⟨view s.mem, s.place, s.flight, s.landed⟩

section

variable {τ : Type w} {m : Meaning A σ} {m' : Meaning A τ} {view : σ → τ}

/-- An action seen through the view is what `m'` says of it. -/
structure Views (m : Meaning A σ) (m' : Meaning A τ) (view : σ → τ) : Prop where
  act : ∀ a s, view (m.act a s) = m'.act a (view s)
  travels : m'.travels = m.travels

theorem Views.next (views : Views m m' view) (program : Program n A) (s : State n A σ)
    (e : Event n) : (m.next program s e).view view = m'.next program (s.view view) e := by
  cases e with
  | arrive p => rfl
  | leave p => rfl
  | land j =>
    simp only [Meaning.next, State.view]
    split
    · simp only [Meaning.done, views.act]
    · rfl
  | act p =>
    simp only [Meaning.next, State.view]
    split
    · split
      · simp only [Meaning.issue, views.travels]
        split
        · rfl
        · simp only [Meaning.done, views.act]
      · rfl
    · rfl

/-- A run is seen as a run of what is seen of its actions. -/
theorem Views.run (views : Views m m' view) {program : Program n A} {s : State n A σ}
    {events : List (Event n)} (admitted : (m.machine program).Admits s events) :
    (m'.machine program).Admits (s.view view) events ∧
      (m'.machine program).after (s.view view) events =
        ((m.machine program).after s events).view view := by
  induction events generalizing s with
  | nil => exact ⟨trivial, rfl⟩
  | cons e rest ih =>
    obtain ⟨first, later⟩ := admitted
    have next := views.next program s e
    obtain ⟨runs, found⟩ := ih later
    simp only [Meaning.machine] at *
    rw [next] at runs found
    exact ⟨⟨first, runs⟩, found⟩

end

end Phases
