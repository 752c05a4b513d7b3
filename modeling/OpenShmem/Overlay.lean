import Mathlib.Logic.Function.Basic
import Mathlib.Data.List.GetD

/-! Total memories, their windows, and writes of a list of cells which travel to
one of a family of memories and take effect in any order. -/

universe u v

namespace Overlay

variable {ι : Type u} {β : Type v}

def window (m : Nat → β) (start count : Nat) : List β :=
  (List.range count).map (fun i => m (start + i))

def overlay (m : Nat → β) (start : Nat) (cells : List β) : Nat → β :=
  fun x => if start ≤ x then cells.getD (x - start) (m x) else m x

@[simp] theorem window_length (m : Nat → β) (start count : Nat) :
    (window m start count).length = count := by simp [window]

@[simp] theorem window_getElem (m : Nat → β) (start count i : Nat)
    (h : i < (window m start count).length) : (window m start count)[i] = m (start + i) := by
  simp [window]

theorem window_congr {m m' : Nat → β} {start start' count : Nat}
    (same : ∀ i < count, m (start + i) = m' (start' + i)) :
    window m start count = window m' start' count := by
  apply List.map_congr_left
  intro i member
  exact same i (List.mem_range.mp member)

theorem window_inj {m m' : Nat → β} {start start' count : Nat}
    (same : window m start count = window m' start' count) {i : Nat} (h : i < count) :
    m (start + i) = m' (start' + i) := by
  have := List.getElem_of_eq same (i := i) (by simpa using h)
  simpa using this

theorem window_append (m : Nat → β) (start first second : Nat) :
    window m start (first + second) =
      window m start first ++ window m (start + first) second := by
  simp [window, List.range_add, Nat.add_assoc]

theorem overlay_inside (m : Nat → β) (start : Nat) (cells : List β) {i : Nat}
    (h : i < cells.length) : overlay m start cells (start + i) = cells[i] := by
  simp [overlay, h]

theorem overlay_some (m : Nat → β) (start : Nat) {cells : List β} {i : Nat} {b : β}
    (h : cells[i]? = some b) : overlay m start cells (start + i) = b := by
  obtain ⟨inside, rfl⟩ := List.getElem?_eq_some_iff.mp h
  exact overlay_inside m start cells inside

theorem overlay_outside (m : Nat → β) (start : Nat) (cells : List β) {x : Nat}
    (apart : x < start ∨ start + cells.length ≤ x) : overlay m start cells x = m x := by
  unfold overlay
  split
  · exact List.getD_eq_default _ _ (by omega)
  · rfl

/-- The cells just written can be read back. -/
theorem window_overlay (m : Nat → β) (start : Nat) (cells : List β) :
    window (overlay m start cells) start cells.length = cells := by
  apply List.ext_getElem
  · simp
  · intro i _ inside
    rw [window_getElem, overlay_inside m start cells inside]

/-- Writing back what is there changes nothing. -/
theorem overlay_window (m : Nat → β) (start count : Nat) :
    overlay m start (window m start count) = m := by
  funext x
  by_cases inside : start ≤ x ∧ x < start + count
  · obtain ⟨i, rfl⟩ := Nat.exists_eq_add_of_le inside.1
    rw [overlay_inside _ _ _ (by simpa using inside.2), window_getElem]
  · apply overlay_outside
    rw [window_length]
    omega

/-- A write on its way to the memory of `target`. -/
structure Write (ι : Type u) (β : Type v) where
  target : ι
  start : Nat
  cells : List β

namespace Write

def Covers (w : Write ι β) (i : ι) (x : Nat) : Prop :=
  w.target = i ∧ w.start ≤ x ∧ x < w.start + w.cells.length

variable [DecidableEq ι]

instance (w : Write ι β) (i : ι) (x : Nat) : Decidable (w.Covers i x) :=
  inferInstanceAs (Decidable (_ ∧ _ ∧ _))

def apply (w : Write ι β) (mem : ι → Nat → β) : ι → Nat → β :=
  Function.update mem w.target (overlay (mem w.target) w.start w.cells)

theorem apply_uncovered (w : Write ι β) (mem : ι → Nat → β) {i : ι} {x : Nat}
    (free : ¬ w.Covers i x) : w.apply mem i x = mem i x := by
  by_cases same : i = w.target
  · subst same
    simp only [apply, Function.update_self]
    apply overlay_outside
    simp only [Covers, true_and] at free
    omega
  · simp [apply, same]

/-- What a write puts on a covered cell does not depend on the memory it meets. -/
theorem apply_covered (w : Write ι β) (mem mem' : ι → Nat → β) {i : ι} {x : Nat}
    (covered : w.Covers i x) : w.apply mem i x = w.apply mem' i x := by
  obtain ⟨rfl, low, high⟩ := covered
  obtain ⟨k, rfl⟩ := Nat.exists_eq_add_of_le low
  have inside : k < w.cells.length := by omega
  simp [apply, overlay_inside _ _ _ inside]

/-- No cell is covered by both writes. -/
def Apart (w w' : Write ι β) : Prop := ∀ i x, ¬ (w.Covers i x ∧ w'.Covers i x)

end Write

section Settling

variable [DecidableEq ι]

/-- Once the writes in flight have taken effect, in whichever order, `spec` is
what the memories hold. -/
structure Settles (mem : ι → Nat → β) (flight : List (Write ι β)) (spec : ι → Nat → β) :
    Prop where
  agree : ∀ w ∈ flight, ∀ i x, w.Covers i x → w.apply spec i x = spec i x
  rest : ∀ i x, (∃ w ∈ flight, w.Covers i x) ∨ mem i x = spec i x

theorem Settles.done {mem spec : ι → Nat → β} (settles : Settles mem [] spec) : mem = spec := by
  funext i x
  simpa using settles.rest i x

theorem Settles.start (mem : ι → Nat → β) : Settles mem [] mem :=
  ⟨by simp, fun _ _ => .inr rfl⟩

/-- The order of delivery does not matter. -/
theorem Settles.deliver {mem spec : ι → Nat → β} {flight : List (Write ι β)}
    (settles : Settles mem flight spec) {k : Nat} {w : Write ι β} (chosen : flight[k]? = some w) :
    Settles (w.apply mem) (flight.eraseIdx k) spec := by
  obtain ⟨bound, rfl⟩ := List.getElem?_eq_some_iff.mp chosen
  constructor
  · intro w' member
    exact settles.agree w' (List.mem_of_mem_eraseIdx member)
  · intro i x
    by_cases covered : flight[k].Covers i x
    · right
      rw [flight[k].apply_covered mem spec covered]
      exact settles.agree _ (List.getElem_mem bound) i x covered
    · rcases settles.rest i x with ⟨w', member, covers⟩ | settled
      · left
        refine ⟨w', ?_, covers⟩
        obtain ⟨j, inside, rfl⟩ := List.mem_iff_getElem.mp member
        have different : j ≠ k := by rintro rfl; exact covered covers
        exact List.mem_eraseIdx_iff_getElem?.mpr ⟨j, different, List.getElem?_eq_getElem inside⟩
      · right
        rw [Write.apply_uncovered _ _ covered, settled]

/-- A write issued apart from all those in flight is one more update of the outcome. -/
theorem Settles.issue {mem spec : ι → Nat → β} {flight : List (Write ι β)}
    (settles : Settles mem flight spec) (w : Write ι β) (apart : ∀ w' ∈ flight, w.Apart w') :
    Settles mem (flight ++ [w]) (w.apply spec) := by
  constructor
  · intro w' member i x covered
    rcases List.mem_append.mp member with older | newest
    · have free : ¬ w.Covers i x := fun both => apart w' older i x ⟨both, covered⟩
      rw [w'.apply_covered _ spec covered, w.apply_uncovered _ free]
      exact settles.agree w' older i x covered
    · obtain rfl := List.mem_singleton.mp newest
      exact w'.apply_covered _ _ covered
  · intro i x
    by_cases covered : w.Covers i x
    · exact .inl ⟨w, by simp, covered⟩
    · rcases settles.rest i x with ⟨w', member, covers⟩ | settled
      · exact .inl ⟨w', List.mem_append_left _ member, covers⟩
      · exact .inr (by rw [w.apply_uncovered _ covered, settled])

/-- Where the region holds `spec`, and no write in flight would change that. -/
structure Steady (region : ι → Nat → Prop) (mem : ι → Nat → β) (flight : List (Write ι β))
    (spec : ι → Nat → β) : Prop where
  holds : ∀ i x, region i x → mem i x = spec i x
  keeps : ∀ w ∈ flight, ∀ i x, region i x → w.apply spec i x = spec i x

/-- A steady region stays as it is, whatever is delivered. -/
theorem Steady.deliver {region : ι → Nat → Prop} {mem spec : ι → Nat → β}
    {flight : List (Write ι β)} (steady : Steady region mem flight spec) {k : Nat} {w : Write ι β}
    (chosen : flight[k]? = some w) : Steady region (w.apply mem) (flight.eraseIdx k) spec := by
  have member : w ∈ flight := List.mem_of_getElem? chosen
  constructor
  · intro i x inside
    by_cases covered : w.Covers i x
    · rw [w.apply_covered mem spec covered, steady.keeps w member i x inside]
    · rw [w.apply_uncovered mem covered, steady.holds i x inside]
  · intro w' member'
    exact steady.keeps w' (List.mem_of_mem_eraseIdx member')

end Settling

end Overlay
