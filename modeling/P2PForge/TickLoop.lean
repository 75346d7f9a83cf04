import Mathlib

/-! Loops that wait for a tick or for the end.
The loop selects between a ticker, whose channel holds one tick at most, and a signal that it is
to end. If both are there it may take either, so a loop that is told to end can go on working for
as long as ticks keep coming. -/
namespace P2PForge.TickLoop

/-- Where a loop stands, and whether there is a tick in its channel. -/
inductive Phase
  | waiting (pending : Bool)
  | busy (pending : Bool)
  | ended
  deriving DecidableEq

inductive Move
  | tick
  | take
  | finish
  | quit
  deriving DecidableEq

def step (done : Bool) : Phase → Move → Option Phase
  | .waiting _,.tick => some (.waiting true)
  | .busy _,.tick => some (.busy true)
  | .waiting true,.take => some (.busy false)
  | .busy pending,.finish => some (.waiting pending)
  | .waiting _,.quit => if done then some .ended else none
  | _,_ => none

/-- How often the work will still be finished if no tick comes: for the tick in the channel, and
for the work that is under way. -/
def Phase.owed : Phase → ℕ
  | .waiting pending => pending.toNat
  | .busy pending => pending.toNat + 1
  | .ended => 0

variable {done : Bool} {phase phase' : Phase} {m : Move}

theorem step_cases (h : step done phase m = some phase') :
    (m = .tick ∧ ∃ pending, phase = .waiting pending ∧ phase' = .waiting true ∨
        phase = .busy pending ∧ phase' = .busy true) ∨
      (m = .take ∧ phase = .waiting true ∧ phase' = .busy false) ∨
      (m = .finish ∧ ∃ pending, phase = .busy pending ∧ phase' = .waiting pending) ∨
      (m = .quit ∧ done = true ∧ phase' = .ended ∧ ∃ pending, phase = .waiting pending) := by
  revert h
  fun_cases step done phase m with
  | case1 pending =>
    rintro ⟨⟩
    exact .inl ⟨rfl,pending,.inl ⟨rfl,rfl⟩⟩
  | case2 pending =>
    rintro ⟨⟩
    exact .inl ⟨rfl,pending,.inr ⟨rfl,rfl⟩⟩
  | case3 =>
    rintro ⟨⟩
    exact .inr (.inl ⟨rfl,rfl,rfl⟩)
  | case4 pending =>
    rintro ⟨⟩
    exact .inr (.inr (.inl ⟨rfl,pending,rfl,rfl⟩))
  | case5 pending hdone =>
    rintro ⟨⟩
    exact .inr (.inr (.inr ⟨rfl,hdone,rfl,pending,rfl⟩))
  | case6 => intro h; cases h
  | case7 => intro h; cases h

/-- Work is finished only for a tick that came. -/
theorem owed_step (h : step done phase m = some phase') :
    phase'.owed + (if m = .finish then 1 else 0) ≤ phase.owed + if m = .tick then 1 else 0 := by
  rcases step_cases h with ⟨rfl,pending,⟨rfl,rfl⟩ | ⟨rfl,rfl⟩⟩ | ⟨rfl,rfl,rfl⟩ |
    ⟨rfl,pending,rfl,rfl⟩ | ⟨rfl,_,rfl,pending,rfl⟩ <;> simp [Phase.owed]

theorem done_of_ended (h : step done phase m = some .ended) : done = true := by
  rcases step_cases h with ⟨_,_,⟨_,h⟩ | ⟨_,h⟩⟩ | ⟨_,_,h⟩ | ⟨_,_,_,h⟩ | ⟨_,hdone,_⟩
  any_goals cases h
  exact hdone

end P2PForge.TickLoop
