import Mathlib.Data.List.FinRange
import OpenShmem.PeNumbers

/-! The two queries about a team, over all of its members. -/
namespace OpenShmem

variable {P : Nat}

/-- The member PEs of a team, in the order of their indices in it. -/
structure Team (P : Nat) where
  members : List (Fin P)
  nodup : members.Nodup

/-- What a handle refers to; `none` where it has become invalid. -/
abbrev TeamHandle (P : Nat) := Option (Team P)

/-- The PEs on which a handle is valid. -/
def membersOf : TeamHandle P → List (Fin P)
  | some team => team.members
  | none => []

def shmemTeamMyPe (me : Fin P) (team : TeamHandle P) : Int :=
  if me ∈ membersOf team then (membersOf team).idxOf me else -1

/-- `SHMEM_TEAM_WORLD`. -/
def ctxTeam (P : Nat) : TeamHandle P := some ⟨List.finRange P, List.nodup_finRange P⟩

/-- `shmem_n_pes() as usize`. -/
def ctxNPes (P : Nat) : Usize := BitVec.ofInt 64 P

/-- Both queries take -1 for an invalid team. -/
def validPe (raw : Int) : Option PE := if raw = -1 then none else some ⟨BitVec.ofInt 32 raw⟩

def ctxTeamMyPe (me : Fin P) (team : TeamHandle P) : Option PE := validPe (shmemTeamMyPe me team)

/-- The routine called is `shmem_team_my_pe` here, too. -/
def ctxTeamNPes (me : Fin P) (team : TeamHandle P) : Option PE := validPe (shmemTeamMyPe me team)

/-- The numbers `0, ..., n-1` over the `n` members of a team, each once. -/
def Numbered (team : TeamHandle P) : Prop :=
  ∀ k < (membersOf team).length, ∃! me, me ∈ membersOf team ∧
    ∃ pe, ctxTeamMyPe me team = some pe ∧ pe.id.toNat = k

/-- What the two queries say about a team, taken together. -/
structure TeamLaw (team : TeamHandle P) : Prop where
  size : ∀ me ∈ membersOf team, ∃ total, ctxTeamNPes me team = some total ∧
    total.id.toNat = (membersOf team).length
  below : ∀ me ∈ membersOf team, ∃ mine total, ctxTeamMyPe me team = some mine ∧
    ctxTeamNPes me team = some total ∧ mine.id.toNat < total.id.toNat
  numbered : Numbered team
  invalid : ∀ me ∉ membersOf team, ctxTeamMyPe me team = none ∧ ctxTeamNPes me team = none
  world : team = ctxTeam P → ∀ me ∈ membersOf team, ∃ total, ctxTeamNPes me team = some total ∧
    total.id.toNat = (ctxNPes P).toNat

theorem membersOf_nodup (team : TeamHandle P) : (membersOf team).Nodup := by
  cases team with
  | some team => exact team.nodup
  | none => exact List.nodup_nil

theorem membersOf_length_le (team : TeamHandle P) : (membersOf team).length ≤ P := by
  have bound := (membersOf_nodup team).length_le_card
  rwa [Fintype.card_fin] at bound

section

variable {me : Fin P} {team : TeamHandle P}

theorem ctxTeamMyPe_invalid (outside : me ∉ membersOf team) : ctxTeamMyPe me team = none := by
  simp [ctxTeamMyPe, shmemTeamMyPe, outside, validPe]

/-- A member is told its index in the team. -/
theorem ctxTeamMyPe_member (small : P ≤ cIntMax) (member : me ∈ membersOf team) :
    ∃ pe, ctxTeamMyPe me team = some pe ∧ pe.id.toNat = (membersOf team).idxOf me := by
  have inside := List.idxOf_lt_length_of_mem member
  have bound := membersOf_length_le team
  simp only [cIntMax] at small
  refine ⟨⟨BitVec.ofInt 32 ((membersOf team).idxOf me)⟩, ?_, ?_⟩
  · simp only [ctxTeamMyPe, shmemTeamMyPe, member, if_true, validPe]
    rw [if_neg (by omega)]
  · simp only [BitVec.ofInt_natCast, BitVec.toNat_ofNat]
    exact Nat.mod_eq_of_lt (by omega)

/-- The first member is told 0, whatever it asked for. -/
theorem ctxTeamNPes_first (member : me ∈ membersOf team) (first : (membersOf team).idxOf me = 0) :
    ∃ pe, ctxTeamNPes me team = some pe ∧ pe.id.toNat = 0 := by
  refine ⟨⟨BitVec.ofInt 32 0⟩, ?_, rfl⟩
  simp [ctxTeamNPes, shmemTeamMyPe, member, first, validPe]

/-- `team_my_pe` numbers the members of every team. -/
theorem teamMyPe_numbers (small : P ≤ cIntMax) (team : TeamHandle P) : Numbered team := by
  intro k inside
  have nodup := membersOf_nodup team
  refine ⟨(membersOf team)[k], ⟨List.getElem_mem inside, ?_⟩, ?_⟩
  · obtain ⟨pe, told, number⟩ := ctxTeamMyPe_member small (List.getElem_mem inside)
    exact ⟨pe, told, by rw [number, nodup.idxOf_getElem k inside]⟩
  · intro other both
    obtain ⟨member, pe, told, number⟩ := both
    obtain ⟨pe', told', number'⟩ := ctxTeamMyPe_member small member
    cases told.symm.trans told'
    rw [number] at number'
    simp only [number', List.getElem_idxOf]

end

/-- The queries fit together on no team which has a member: the size it is asked for is
not what `team_n_pes` returns there. -/
theorem teamLaw_iff (team : TeamHandle P) : TeamLaw team ↔ membersOf team = [] := by
  constructor
  · intro law
    cases members : membersOf team with
    | nil => rfl
    | cons me rest =>
      have member : me ∈ membersOf team := by simp [members]
      have first : (membersOf team).idxOf me = 0 := by simp [members]
      obtain ⟨pe, told, zero⟩ := ctxTeamNPes_first member first
      obtain ⟨total, told', size⟩ := law.size me member
      cases told.symm.trans told'
      rw [zero, members] at size
      cases size
  · intro empty
    have outside (me : Fin P) : me ∉ membersOf team := by simp [empty]
    refine ⟨?_, ?_, ?_, ?_, ?_⟩
    · intro me member
      exact absurd member (outside me)
    · intro me member
      exact absurd member (outside me)
    · intro k inside
      rw [empty] at inside
      exact absurd inside (Nat.not_lt_zero k)
    · intro me invalid
      exact ⟨ctxTeamMyPe_invalid invalid, ctxTeamMyPe_invalid invalid⟩
    · intro _ me member
      exact absurd member (outside me)

/-- The world of one PE has no PE by its own account. -/
theorem world_size_wrong : ¬ ∀ P, 1 ≤ P → P ≤ cIntMax → TeamLaw (ctxTeam P) := by
  intro law
  obtain ⟨total, told, size⟩ := (law 1 (Nat.le_refl 1) (by decide)).size 0 (by decide)
  cases told
  exact absurd size (by decide)

end OpenShmem
