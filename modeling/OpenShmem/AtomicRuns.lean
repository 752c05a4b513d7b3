import OpenShmem.Atomics
import OpenShmem.Serial

/-! Runs of the PEs' atomic operations on one symmetric word. An operation which returns the
value it finds is served before its call returns; any other may take its time. -/
namespace OpenShmem

open Serial

variable {P w : Nat}

def AtomicRoutine.fetches : AtomicRoutine → Bool
  | .fetch | .swap | .compareSwap | .fetchInc | .fetchAdd | .fetchAnd | .fetchOr | .fetchXor => true
  | .set | .inc | .add | .and | .or | .xor => false

namespace AtomicOp

/-- What every call of the operation does to the word, wherever that is. -/
def update (op : AtomicOp w) : BitVec w → BitVec w := (op.call 0 ⟨0⟩).update

def fetches (op : AtomicOp w) : Bool := (op.call 0 ⟨0⟩).routine.fetches

@[simp] theorem call_update (op : AtomicOp w) (shbox : Nat) (pe : PE) :
    (op.call shbox pe).update = op.update := by
  cases op <;> rfl

@[simp] theorem call_fetches (op : AtomicOp w) (shbox : Nat) (pe : PE) :
    (op.call shbox pe).routine.fetches = op.fetches := by
  cases op <;> rfl

end AtomicOp

/-- The words of all PEs and the operations on their way. `called` and `served` only record, for
the word of each PE, what was asked and what was done, with the value found. -/
structure Words (P w : Nat) where
  mem : Fin P → BitVec w
  flight : List (Fin P × AtomicOp w)
  called : Fin P → List (AtomicOp w)
  served : Fin P → List (AtomicOp w × BitVec w)

namespace Words

inductive Event (w : Nat) where
  | call (op : AtomicOp w) (pe : PE)
  | land (j : Nat)

/-- The PE an operation goes to. -/
def target (P shbox : Nat) (op : AtomicOp w) (pe : PE) : Option (Fin P) :=
  ((op.call shbox pe).toUpdate P).map Update.target

def serve (s : Words P w) (q : Fin P) (op : AtomicOp w) : Words P w :=
  { s with
    mem := Function.update s.mem q (op.update (s.mem q))
    served := Function.update s.served q (s.served q ++ [(op, s.mem q)]) }

def ask (s : Words P w) (q : Fin P) (op : AtomicOp w) : Words P w :=
  { s with called := Function.update s.called q (s.called q ++ [op]) }

def enabled (shbox : Nat) (s : Words P w) : Event w → Prop
  | .call op pe => (target P shbox op pe).isSome
  | .land j => j < s.flight.length

instance (shbox : Nat) (s : Words P w) : (e : Event w) → Decidable (enabled shbox s e)
  | .call _ _ => inferInstanceAs (Decidable (_ = _))
  | .land _ => inferInstanceAs (Decidable (_ < _))

def next (shbox : Nat) (s : Words P w) : Event w → Words P w
  | .call op pe => match target P shbox op pe with
    | some q =>
      if op.fetches then (s.ask q op).serve q op
      else { s.ask q op with flight := s.flight ++ [(q, op)] }
    | none => s
  | .land j => match s.flight[j]? with
    | some request => { s.serve request.1 request.2 with flight := s.flight.eraseIdx j }
    | none => s

def machine (P w shbox : Nat) : Machine (Words P w) (Event w) := ⟨enabled shbox, next shbox⟩

instance (shbox : Nat) (s : Words P w) (e : Event w) :
    Decidable ((machine P w shbox).enabled s e) := inferInstanceAs (Decidable (enabled shbox s e))

def start (mem : Fin P → BitVec w) : Words P w := ⟨mem, [], fun _ => [], fun _ => []⟩

/-- The operations on their way to the word of a PE. -/
def onWay (s : Words P w) (q : Fin P) : List (AtomicOp w) :=
  (s.flight.filter (·.1 = q)).map Prod.snd

/-- Each word is what the operations served on it come to, and these are the ones which were
called and are not on their way. -/
structure Sound (initial : Fin P → BitVec w) (s : Words P w) : Prop where
  travels : ∀ request ∈ s.flight, request.2.fetches = false
  chain : ∀ q, Chain AtomicOp.update (initial q) (s.served q) (s.mem q)
  called : ∀ q, ((s.served q).map Prod.fst ++ s.onWay q).Perm (s.called q)

namespace Sound

variable {initial : Fin P → BitVec w} {s : Words P w} {shbox : Nat}

theorem chain_serve (sound : Sound initial s) (p : Fin P) (op : AtomicOp w) (q : Fin P) :
    Chain AtomicOp.update (initial q) ((s.serve p op).served q) ((s.serve p op).mem q) := by
  by_cases same : q = p
  · subst same
    simpa [serve] using (sound.chain q).concat op
  · simpa [serve, same] using sound.chain q

theorem called_serve (p : Fin P) (op : AtomicOp w) (q : Fin P) :
    ((s.serve p op).served q).map Prod.fst =
      (s.served q).map Prod.fst ++ if q = p then [op] else [] := by
  by_cases same : q = p
  · subst same
    simp [serve]
  · simp [serve, same]

theorem called_ask (p : Fin P) (op : AtomicOp w) (q : Fin P) :
    (s.ask p op).called q = s.called q ++ if q = p then [op] else [] := by
  by_cases same : q = p
  · subst same
    simp [ask]
  · simp [ask, same]

theorem step (s : Words P w) (e : Event w) (sound : Sound initial s)
    (fires : (machine P w shbox).enabled s e) : Sound initial ((machine P w shbox).next s e) := by
  cases e with
  | call op pe =>
    simp only [machine, next]
    split
    next p _ =>
      by_cases fetches : op.fetches
      · rw [if_pos fetches]
        refine ⟨sound.travels, sound.chain_serve p op, fun q => ?_⟩
        have records : (((s.ask p op).serve p op).called q) = (s.ask p op).called q := rfl
        rw [called_serve, records, called_ask, List.append_assoc]
        refine (List.perm_append_comm.append_left _).trans ?_
        rw [← List.append_assoc]
        exact (sound.called q).append_right _
      · rw [if_neg fetches]
        refine ⟨?_, sound.chain, fun q => ?_⟩
        · intro request member
          rcases List.mem_append.mp member with older | newest
          · exact sound.travels request older
          · obtain rfl := List.mem_singleton.mp newest
            exact Bool.eq_false_iff.mpr fetches
        have travels : onWay { s.ask p op with flight := s.flight ++ [(p, op)] } q =
            s.onWay q ++ if q = p then [op] else [] := by
          by_cases same : p = q
          · simp [onWay, same]
          · simp [onWay, same, Ne.symm same]
        rw [travels, called_ask, ← List.append_assoc]
        exact (sound.called q).append_right _
    next => exact sound
  | land j =>
    have bound : j < s.flight.length := fires
    simp only [machine, next, List.getElem?_eq_getElem bound]
    refine ⟨fun request member => ?_, sound.chain_serve _ _, fun q => ?_⟩
    · exact sound.travels request (List.mem_of_mem_eraseIdx member)
    have lands : (s.onWay q).Perm ((if q = s.flight[j].1 then [s.flight[j].2] else []) ++
        onWay { s.serve s.flight[j].1 s.flight[j].2 with flight := s.flight.eraseIdx j } q) := by
      have split := ((List.getElem_cons_eraseIdx_perm bound).filter (·.1 = q)).map Prod.snd
      refine split.symm.trans (List.Perm.of_eq ?_)
      by_cases same : s.flight[j].1 = q
      · simp [onWay, same]
      · simp [onWay, same, Ne.symm same]
    rw [called_serve, List.append_assoc]
    exact (lands.symm.append_left _).trans (sound.called q)

theorem start (initial : Fin P → BitVec w) : Sound initial (Words.start initial) :=
  ⟨fun _ member => absurd member List.not_mem_nil, fun _ => rfl, fun _ => List.Perm.refl _⟩

theorem run {events : List (Event w)} (admitted : (machine P w shbox).Admits (Words.start initial) events) :
    Sound initial ((machine P w shbox).after (Words.start initial) events) :=
  Machine.invariant _ step (start initial) admitted

/-- What has been served was called. -/
theorem served_called (sound : Sound initial s) {q : Fin P} {x : AtomicOp w × BitVec w}
    (member : x ∈ s.served q) : x.1 ∈ s.called q :=
  (sound.called q).subset (List.mem_append_left _ (List.mem_map_of_mem member))

/-- Operations which all fetch have all been served. -/
theorem served_perm (sound : Sound initial s) {q : Fin P} (fetch : ∀ op ∈ s.called q, op.fetches) :
    ((s.served q).map Prod.fst).Perm (s.called q) := by
  have none_ : s.onWay q = [] := by
    rw [List.eq_nil_iff_forall_not_mem]
    intro op member
    have fetches := fetch op ((sound.called q).subset (List.mem_append_right _ member))
    obtain ⟨request, inFlight, rfl⟩ := List.mem_map.mp member
    rw [sound.travels request (List.mem_of_mem_filter inFlight)] at fetches
    exact absurd fetches Bool.false_ne_true
  have same := sound.called q
  rwa [none_, List.append_nil] at same

end Sound

end Words

end OpenShmem
