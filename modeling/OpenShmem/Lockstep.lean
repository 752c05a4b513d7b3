import OpenShmem.Phases

/-! Parties with a state of their own which meet only in collectives. Each party hands in a
contribution, and what it takes back depends on all of them; in between it works on its own
state. Whatever the schedule, a party finds what it would find if all took turns. -/

universe u v

namespace Lockstep

open Phases

variable {n : Nat} {σ : Type u} {γ : Type v}

/-- The work of each party up to a collective, and that collective. -/
structure Round (n : Nat) (σ : Type u) (γ : Type v) where
  work : Fin n → List (σ → σ)
  give : σ → γ
  take : Fin n → (Fin n → γ) → σ → σ

/-! ### Taking turns -/

def perform (work : List (σ → σ)) (s : σ) : σ := work.foldl (fun s f => f s) s

namespace Round

variable (r : Round n σ γ)

def worked (s : Fin n → σ) (p : Fin n) : σ := perform (r.work p) (s p)

def run (s : Fin n → σ) (p : Fin n) : σ := r.take p (fun q => r.give (r.worked s q)) (r.worked s p)

end Round

/-- The state of each party behind the first `k` rounds. -/
def behind (rounds : List (Round n σ γ)) (s : Fin n → σ) (k : Nat) : Fin n → σ :=
  (rounds.take k).foldl (fun s r => r.run s) s

/-! ### Any order -/

inductive Act (n : Nat) (σ : Type u) (γ : Type v) where
  | work (p : Fin n) (f : σ → σ)
  | give (p : Fin n) (k : Nat) (f : σ → γ)
  | take (p : Fin n) (k : Nat) (f : (Fin n → γ) → σ → σ)

/-- `given k` are the contributions to round `k`, once they are made. -/
structure Memory (n : Nat) (σ : Type u) (γ : Type v) where
  state : Fin n → σ
  given : Nat → Fin n → γ

def Memory.setState (m : Memory n σ γ) (p : Fin n) (s : σ) : Memory n σ γ :=
  { m with state := Function.update m.state p s }

def Memory.setGiven (m : Memory n σ γ) (k : Nat) (p : Fin n) (c : γ) : Memory n σ γ :=
  { m with given := Function.update m.given k (Function.update (m.given k) p c) }

def Act.run (m : Memory n σ γ) : Act n σ γ → Memory n σ γ
  | .work p f => m.setState p (f (m.state p))
  | .give p k f => m.setGiven k p (f (m.state p))
  | .take p k f => m.setState p (f (m.given k) (m.state p))

def meaning (n : Nat) (σ : Type u) (γ : Type v) : Meaning (Act n σ γ) (Memory n σ γ) :=
  ⟨fun a m => a.run m, fun _ => false⟩

/-- What a party does first behind the barrier of round `k - 1`. -/
def resume (rounds : List (Round n σ γ)) (p : Fin n) : Nat → Act n σ γ
  | 0 => .work p id
  | k + 1 => match rounds[k]? with
    | some r => .take p k (r.take p)
    | none => .work p id

/-- A party may leave a collective once everybody has made a contribution. -/
def phase (rounds : List (Round n σ γ)) (k : Nat) : Phase n (Act n σ γ) := fun p =>
  resume rounds p k :: match rounds[k]? with
    | some r => (r.work p).map (.work p) ++ [.give p k r.give]
    | none => []

/-- Behind the last collective there is only its result to be taken. -/
def program (rounds : List (Round n σ γ)) : Program n (Act n σ γ) :=
  (List.range (rounds.length + 1)).map (phase rounds)

def work (rounds : List (Round n σ γ)) (k : Nat) (p : Fin n) : List (σ → σ) :=
  match rounds[k]? with
  | some r => r.work p
  | none => []

/-- What a party at this place finds when all take turns. -/
def expected (rounds : List (Round n σ γ)) (s : Fin n → σ) (p : Fin n) : Place → σ
  | .working 0 0 => s p
  | .working (k + 1) 0 => perform (work rounds k p) (behind rounds s k p)
  | .working k (i + 1) => perform ((work rounds k p).take i) (behind rounds s k p)
  | .waiting k => perform (work rounds k p) (behind rounds s k p)

/-- A party at this place has made its contribution to round `k`. -/
def Contributed (rounds : List (Round n σ γ)) (p : Fin n) (k : Nat) : Place → Prop
  | .working k' i => k < k' ∨ k = k' ∧ (work rounds k p).length + 1 < i
  | .waiting k' => k ≤ k'

/-- What every run keeps. -/
structure Agrees (rounds : List (Round n σ γ)) (initial : Fin n → σ) (mem : Memory n σ γ)
    (place : Fin n → Place) : Prop where
  state : ∀ p, mem.state p = expected rounds initial p (place p)
  given : ∀ k r, rounds[k]? = some r → ∀ p, Contributed rounds p k (place p) →
    mem.given k p = r.give (r.worked (behind rounds initial k) p)

section

variable {rounds : List (Round n σ γ)} {initial : Fin n → σ} {p q : Fin n} {k i : Nat} {a : Act n σ γ}
  {r : Round n σ γ}

theorem perform_concat (work : List (σ → σ)) (f : σ → σ) (s : σ) :
    perform (work ++ [f]) s = f (perform work s) := by
  simp [perform]

theorem program_length : (program rounds).length = rounds.length + 1 := by
  simp [program]

theorem actions_phase (within : k ≤ rounds.length) : (program rounds).actions k = phase rounds k := by
  simp [Program.actions, program, Nat.lt_succ_of_le within]

theorem work_some (round : rounds[k]? = some r) : work rounds k p = r.work p := by
  rw [work, round]

theorem behind_succ (round : rounds[k]? = some r) :
    behind rounds initial (k + 1) = r.run (behind rounds initial k) := by
  rw [behind, List.take_add_one, round, Option.toList_some, List.foldl_append]
  rfl

/-- What a party does next. -/
theorem actions_cases (act : ((program rounds).actions k p)[i]? = some a) :
    k ≤ rounds.length ∧ (i = 0 ∧ a = resume rounds p k ∨ ∃ r j, rounds[k]? = some r ∧ i = j + 1 ∧
      ((∃ f, (r.work p)[j]? = some f ∧ a = .work p f) ∨
        j = (r.work p).length ∧ a = .give p k r.give)) := by
  have within : k ≤ rounds.length := by
    by_contra beyond
    have nothing : (program rounds)[k]? = none :=
      List.getElem?_eq_none (by rw [program_length]; omega)
    rw [Program.actions, nothing] at act
    simp at act
  refine ⟨within, ?_⟩
  rw [actions_phase within, phase] at act
  cases i with
  | zero => exact .inl ⟨rfl, (Option.some.inj act).symm⟩
  | succ j =>
    right
    rw [List.getElem?_cons_succ] at act
    cases round : rounds[k]? with
    | none => simp [round] at act
    | some r =>
      simp only [round] at act
      refine ⟨r, j, rfl, rfl, ?_⟩
      rcases Nat.lt_or_ge j (r.work p).length with working | giving
      · rw [List.getElem?_append_left (by simpa using working), List.getElem?_map,
          Option.map_eq_some_iff] at act
        obtain ⟨f, works, rfl⟩ := act
        exact .inl ⟨f, works, rfl⟩
      · rw [List.getElem?_append_right (by simpa using giving), List.length_map,
          List.getElem?_singleton] at act
        split at act
        · exact .inr ⟨by omega, (Option.some.inj act).symm⟩
        · cases act

/-- A party which has nothing left to do before the barrier has worked and contributed. -/
theorem length_actions (within : k ≤ rounds.length) :
    ((program rounds).actions k p).length =
      (work rounds k p).length + if k < rounds.length then 2 else 1 := by
  rw [actions_phase within, phase, List.length_cons, work]
  by_cases inside : k < rounds.length
  · simp [inside]
  · simp [inside]

theorem contributed_of_reached {place : Place} (reached : place.Reached k) :
    Contributed rounds p k place := by
  cases place with
  | working k' i => exact .inl reached
  | waiting k' => exact reached

end

namespace Agrees

variable {rounds : List (Round n σ γ)} {initial : Fin n → σ} {mem : Memory n σ γ}
  {place : Fin n → Place} {p : Fin n} {k i : Nat}

/-- A party goes to another place with another state. -/
theorem move (agrees : Agrees rounds initial mem place) {state : σ} {new : Place}
    (moved : state = expected rounds initial p new)
    (contributed : ∀ k < rounds.length, Contributed rounds p k new → Contributed rounds p k (place p)) :
    Agrees rounds initial (mem.setState p state) (Function.update place p new) := by
  constructor
  · intro q
    by_cases same : q = p
    · subst same
      simpa [Memory.setState] using moved
    · simpa [Memory.setState, same] using agrees.state q
  · intro k r round q
    by_cases same : q = p
    · subst same
      rw [Function.update_self]
      exact fun later =>
        agrees.given k r round q (contributed k (List.getElem?_eq_some_iff.mp round).1 later)
    · rw [Function.update_of_ne same]
      exact agrees.given k r round q

/-- And with the state it has. -/
theorem stay (agrees : Agrees rounds initial mem place) {new : Place}
    (same : expected rounds initial p new = expected rounds initial p (place p))
    (contributed : ∀ k < rounds.length, Contributed rounds p k new → Contributed rounds p k (place p)) :
    Agrees rounds initial mem (Function.update place p new) := by
  have moved := agrees.move ((agrees.state p).trans same.symm) contributed
  rwa [Memory.setState, Function.update_eq_self] at moved

/-- It makes its contribution. -/
theorem give (agrees : Agrees rounds initial mem place) {r : Round n σ γ}
    (round : rounds[k]? = some r) (at_ : place p = .working k ((r.work p).length + 1)) :
    Agrees rounds initial (mem.setGiven k p (r.give (mem.state p)))
      (Function.update place p (.working k ((r.work p).length + 2))) := by
  have worked : mem.state p = r.worked (behind rounds initial k) p := by
    rw [agrees.state p, at_, expected, work_some round, List.take_length]
    rfl
  constructor
  · intro q
    by_cases same : q = p
    · subst same
      rw [Function.update_self, Memory.setGiven, worked, expected, work_some round,
        List.take_of_length_le (Nat.le_succ _)]
      rfl
    · rw [Function.update_of_ne same]
      exact agrees.state q
  · intro k' r' round' q contributed
    by_cases same : q = p
    · subst same
      rw [Function.update_self] at contributed
      by_cases here : k' = k
      · subst here
        obtain rfl := Option.some.inj (round.symm.trans round')
        simp [Memory.setGiven, worked]
      · have earlier : k' < k := contributed.resolve_right fun later => here later.1
        have kept := agrees.given k' r' round' q (by rw [at_]; exact .inl earlier)
        simpa [Memory.setGiven, here] using kept
    · rw [Function.update_of_ne same] at contributed
      have kept := agrees.given k' r' round' q contributed
      by_cases here : k' = k
      · subst here
        simpa [Memory.setGiven, same] using kept
      · simpa [Memory.setGiven, here] using kept

/-- It takes what it gets of a round to which everybody has contributed. -/
theorem take (agrees : Agrees rounds initial mem place) {r : Round n σ γ}
    (round : rounds[k]? = some r) (at_ : place p = .working (k + 1) 0)
    (complete : ∀ q, (place q).Reached k) :
    Agrees rounds initial (mem.setState p (r.take p (mem.given k) (mem.state p)))
      (Function.update place p (.working (k + 1) 1)) := by
  have given : mem.given k = fun q => r.give (r.worked (behind rounds initial k) q) := by
    funext q
    exact agrees.given k r round q (contributed_of_reached (complete q))
  have worked : mem.state p = r.worked (behind rounds initial k) p := by
    rw [agrees.state p, at_, expected, work_some round]
    rfl
  refine agrees.move ?_ fun k' inside contributed => ?_
  · rw [given, worked, expected, behind_succ round]
    rfl
  · rw [at_]
    rcases contributed with earlier | ⟨_, short⟩
    · exact .inl earlier
    · omega

theorem act (agrees : Agrees rounds initial mem place)
    (complete : ∀ k < (place p).phase, ∀ q, (place q).Reached k) (at_ : place p = .working k i)
    {a : Act n σ γ} (next : ((program rounds).actions k p)[i]? = some a) :
    Agrees rounds initial (a.run mem) (Function.update place p (.working k (i + 1))) := by
  obtain ⟨within, ⟨rfl, rfl⟩ | ⟨r, j, round, rfl, ⟨f, works, rfl⟩ | ⟨rfl, rfl⟩⟩⟩ := actions_cases next
  · cases k with
    | zero =>
      refine agrees.move ?_ fun k' inside contributed => ?_
      · rw [agrees.state p, at_]
        rfl
      · rcases contributed with earlier | ⟨_, short⟩
        · exact absurd earlier (Nat.not_lt_zero k')
        · omega
    | succ k =>
      have round : rounds[k]? = some rounds[k] := List.getElem?_eq_getElem within
      simp only [resume, round]
      exact agrees.take round at_ (complete k (by rw [at_]; exact Nat.lt_succ_self k))
  · have short := (List.getElem?_eq_some_iff.mp works).1
    refine agrees.move ?_ fun k' inside contributed => ?_
    · rw [agrees.state p, at_, expected, expected, work_some round, List.take_add_one, works,
        Option.toList_some, perform_concat]
    · rw [at_]
      rcases contributed with earlier | ⟨rfl, done⟩
      · exact .inl earlier
      · rw [work_some round] at done
        omega
  · exact agrees.give round at_

theorem arrive (agrees : Agrees rounds initial mem place) (at_ : place p = .working k i)
    (within : k ≤ rounds.length) (all : i = ((program rounds).actions k p).length) :
    Agrees rounds initial mem (Function.update place p (.waiting k)) := by
  rw [length_actions within] at all
  refine agrees.stay ?_ fun k' inside contributed => ?_
  · obtain ⟨j, rfl⟩ : ∃ j, i = j + 1 := ⟨i - 1, by split at all <;> omega⟩
    rw [at_, expected, expected, List.take_of_length_le (by split at all <;> omega)]
  · rw [at_]
    rcases Nat.lt_or_eq_of_le contributed with earlier | rfl
    · exact .inl earlier
    · exact .inr ⟨rfl, by rw [if_pos inside] at all; omega⟩

theorem leave (agrees : Agrees rounds initial mem place) (at_ : place p = .waiting k) :
    Agrees rounds initial mem (Function.update place p (.working (k + 1) 0)) := by
  refine agrees.stay ?_ fun k' inside contributed => ?_
  · rw [at_, expected, expected]
  · rw [at_]
    rcases contributed with earlier | ⟨_, short⟩
    · exact Nat.le_of_lt_succ earlier
    · exact absurd short (Nat.not_lt_zero _)

theorem step {s : State n (Act n σ γ) (Memory n σ γ)} {start : Memory n σ γ} (e : Event n)
    (sound : Sound (meaning n σ γ) (program rounds) start s)
    (empty : s.flight = []) (agrees : Agrees rounds initial s.mem s.place)
    (fires : enabled (program rounds) s e) :
    Agrees rounds initial ((meaning n σ γ).next (program rounds) s e).mem
      ((meaning n σ γ).next (program rounds) s e).place := by
  cases e with
  | act p =>
    cases at_ : s.place p with
    | waiting k => simpa only [Meaning.next, at_] using agrees
    | working k i =>
      cases next : ((program rounds).actions k p)[i]? with
      | none => simpa only [Meaning.next, at_, next] using agrees
      | some a =>
        simp only [Meaning.next, at_, next]
        refine agrees.act (fun k before q => ?_) at_ next
        exact (sound.complete p k before).1 q
  | arrive p =>
    have within := sound.within p
    cases at_ : s.place p with
    | waiting k =>
      rw [enabled, at_] at fires
      exact fires.elim
    | working k i =>
      rw [enabled, at_] at fires
      simp only [Meaning.next, at_, Place.phase]
      refine agrees.arrive at_ ?_ fires.1
      exact Nat.le_of_lt_succ (Nat.lt_of_lt_of_eq fires.2 program_length)
  | leave p =>
    cases at_ : s.place p with
    | waiting k =>
      simp only [Meaning.next, at_, Place.phase]
      exact agrees.leave at_
    | working k i =>
      rw [enabled, at_] at fires
      exact fires.elim
  | land j =>
    rw [enabled, empty] at fires
    exact absurd fires (Nat.not_lt_zero j)

theorem start (rounds : List (Round n σ γ)) (initial : Fin n → σ) (given : Nat → Fin n → γ) :
    Agrees rounds initial ⟨initial, given⟩ fun _ => .working 0 0 := by
  refine ⟨fun p => rfl, fun k r _ p contributed => ?_⟩
  rcases contributed with earlier | ⟨_, done⟩
  · exact absurd earlier (Nat.not_lt_zero k)
  · exact absurd done (Nat.not_lt_zero _)

theorem run (rounds : List (Round n σ γ)) (initial : Fin n → σ) (given : Nat → Fin n → γ)
    {events : List (Event n)} (admitted : ((meaning n σ γ).machine (program rounds)).Admits
      (Phases.start n _ ⟨initial, given⟩) events) :
    Agrees rounds initial
      (((meaning n σ γ).machine (program rounds)).after (Phases.start n _ ⟨initial, given⟩) events).mem
      (((meaning n σ γ).machine (program rounds)).after
        (Phases.start n _ ⟨initial, given⟩) events).place := by
  have step (s : State n (Act n σ γ) (Memory n σ γ)) (e : Event n)
      (kept : s.flight = [] ∧ Sound (meaning n σ γ) (program rounds) ⟨initial, given⟩ s ∧
        Agrees rounds initial s.mem s.place)
      (fires : ((meaning n σ γ).machine (program rounds)).enabled s e) :
      ((meaning n σ γ).next (program rounds) s e).flight = [] ∧
        Sound (meaning n σ γ) (program rounds) ⟨initial, given⟩
          ((meaning n σ γ).next (program rounds) s e) ∧
        Agrees rounds initial ((meaning n σ γ).next (program rounds) s e).mem
          ((meaning n σ γ).next (program rounds) s e).place := by
    obtain ⟨empty, sound, agrees⟩ := kept
    exact ⟨Sound.flight_next (fun _ => rfl) empty e, sound.step s e fires,
      agrees.step e sound empty fires⟩
  exact (Machine.invariant _ step ⟨rfl, Sound.start _ _ _, start rounds initial given⟩ admitted).2.2

/-- Behind the collective of round `k` a party has what all have agreed on, and then its own
work on it. -/
theorem working (agrees : Agrees rounds initial mem place) (at_ : place p = .working k (i + 1)) :
    mem.state p = perform ((work rounds k p).take i) (behind rounds initial k p) := by
  rw [agrees.state p, at_, expected]

end Agrees

/-! ### Barriers and reductions -/

/-- A collective in which nothing is exchanged. -/
def Round.barrier (work : Fin n → List (σ → σ)) (give : σ → γ) : Round n σ γ :=
  ⟨work, give, fun _ _ mine => mine⟩

section

variable {α : Type v} {ι : Type u}

def foldAll (f : α → α → α) : List α → Option α
  | [] => none
  | v :: rest => some (rest.foldl f v)

/-- The order in which each party combines what all have handed in for a cell. -/
structure Orders (n : Nat) (ι : Type u) where
  order : Fin n → ι → List (Fin n)
  all : ∀ p i, (order p i).Perm (List.finRange n)

/-- The parties combine their values of some cells. -/
def Round.reduce (work : Fin n → List ((ι → α) → ι → α)) (orders : Orders n ι) (f : α → α → α)
    (cells : ι → Prop) [DecidablePred cells] : Round n (ι → α) (ι → α) where
  work := work
  give := id
  take p given mine i :=
    if cells i then (foldAll f ((orders.order p i).map fun q => given q i)).getD (mine i) else mine i

/-- What combining equal values comes to. -/
def power (f : α → α → α) (count : Nat) (v : α) : α := (foldAll f (List.replicate count v)).getD v

variable {f : α → α → α}

theorem foldAll_perm [Std.Commutative f] [Std.Associative f] {l l' : List α} (same : l.Perm l') :
    foldAll f l = foldAll f l' := by
  induction same with
  | nil => rfl
  | cons x rest _ => exact congrArg some (rest.foldl_eq x)
  | swap x y rest =>
    have first : f y x = f x y := Std.Commutative.comm y x
    simp only [foldAll, List.foldl_cons, first]
  | trans _ _ first second => exact first.trans second

theorem foldAll_isSome (f : α → α → α) {l : List α} (nonempty : l ≠ []) : ∃ v, foldAll f l = some v := by
  cases l with
  | nil => exact absurd rfl nonempty
  | cons x rest => exact ⟨_, rfl⟩

@[simp] theorem power_one (f : α → α → α) (v : α) : power f 1 v = v := rfl

theorem power_succ (f : α → α → α) {count : Nat} (positive : 0 < count) (v : α) :
    power f (count + 1) v = f (power f count v) v := by
  obtain ⟨k, rfl⟩ := Nat.exists_eq_succ_of_ne_zero (Nat.ne_of_gt positive)
  have last : (List.replicate (k + 1) v).foldl f v = f ((List.replicate k v).foldl f v) v := by
    rw [List.replicate_succ', List.foldl_append, List.foldl_cons, List.foldl_nil]
  exact last

theorem power_idempotent (idempotent : ∀ v, f v v = v) {count : Nat} (positive : 0 < count) (v : α) :
    power f count v = v := by
  induction count, positive using Nat.le_induction with
  | base => rfl
  | succ count positive ih => rw [power_succ f positive, ih, idempotent]

variable (work : Fin n → List ((ι → α) → ι → α)) (orders : Orders n ι) (f) (cells : ι → Prop)
  [DecidablePred cells] (s : Fin n → ι → α) (p : Fin n) {i : ι}

/-- Whatever the orders, every party has the values of all combined. -/
theorem Round.run_reduce [Std.Commutative f] [Std.Associative f] (inside : cells i) :
    some ((Round.reduce work orders f cells).run s p i) =
      foldAll f (List.ofFn fun q => perform (work q) (s q) i) := by
  have all : ((orders.order p i).map fun q => perform (work q) (s q) i).Perm
      (List.ofFn fun q => perform (work q) (s q) i) := by
    rw [List.ofFn_eq_map]
    exact (orders.all p i).map _
  have nonempty : (orders.order p i).map (fun q => perform (work q) (s q) i) ≠ [] := by
    have member : p ∈ orders.order p i := (orders.all p i).mem_iff.mpr (List.mem_finRange p)
    exact List.ne_nil_of_mem (List.mem_map_of_mem member)
  obtain ⟨v, combined⟩ := foldAll_isSome f nonempty
  rw [← foldAll_perm all, combined, Round.run, Round.reduce]
  simp only [id, Round.worked, inside, if_true]
  rw [combined, Option.getD_some]

theorem Round.run_reduce_outside (outside : ¬ cells i) :
    (Round.reduce work orders f cells).run s p i = perform (work p) (s p) i := if_neg outside

/-- Values on which all agree already are combined with themselves. -/
theorem Round.run_reduce_agreed [Std.Commutative f] [Std.Associative f] (inside : cells i) {v : α}
    (agreed : ∀ q, perform (work q) (s q) i = v) :
    (Round.reduce work orders f cells).run s p i = power f n v := by
  have combined := Round.run_reduce f work orders cells s p inside
  simp only [agreed, List.ofFn_const] at combined
  rw [power, ← combined, Option.getD_some]

/-- Reducing again and again, in other orders each time. -/
theorem behind_reduce_again [Std.Commutative f] [Std.Associative f] {orders : Nat → Orders n ι}
    {rounds : List (Round n (ι → α) (ι → α))} (inside : cells i) {v : α}
    (first : foldAll f (List.ofFn fun q => s q i) = some v) {m : Nat}
    (each : ∀ k ≤ m, rounds[k]? = some (Round.reduce (fun _ => []) (orders k) f cells)) :
    behind rounds s (m + 1) p i = (power f n)^[m] v := by
  induction m generalizing p with
  | zero =>
    rw [behind_succ (each 0 (Nat.le_refl 0))]
    have combined := Round.run_reduce f (fun _ => []) (orders 0) cells s p inside
    exact Option.some.inj (combined.trans first)
  | succ m ih =>
    rw [behind_succ (each (m + 1) (Nat.le_refl _)), Function.iterate_succ_apply']
    refine Round.run_reduce_agreed f (fun _ => []) (orders (m + 1)) cells _ p inside fun q => ?_
    exact ih q fun k before => each k (Nat.le_succ_of_le before)

end

end Lockstep
