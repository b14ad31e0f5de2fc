/-!
# Running a system of actors

Two ways to run a system whose parts each can, or cannot, take a step, until none can.  With
`settle` the first part that can take a step does so, over and over.  With `runInTurn` the parts
wait in a queue: the one in front goes on until it cannot, and whoever becomes able to go on
meanwhile joins the queue.  The number of steps is bounded from outside.
-/

set_option autoImplicit false

namespace EdgeCache

/-- The state after the first of the moves that is possible. -/
def firstMove {σ : Type} (s : σ) : List (σ → Option σ) → Option σ
  | [] => none
  | m :: ms =>
    match m s with
    | some s' => some s'
    | none => firstMove s ms

/-- Make moves until none is possible, at most `fuel` of them. -/
def settle {σ : Type} (moves : σ → List (σ → Option σ)) : Nat → σ → σ
  | 0, s => s
  | fuel + 1, s =>
    match firstMove s (moves s) with
    | some s' => settle moves fuel s'
    | none => s

/-- The actors that can go on and are not in the queue yet. -/
def joining {σ α : Type} [BEq α] (actors : σ → List α) (step : α → σ → Option σ) (queue : List α)
    (s : σ) : List α :=
  (actors s).filter fun a => !queue.contains a && (step a s).isSome

/-- Let actors go on in the order of a queue until none can, with at most `fuel` steps and changes
of turn. -/
def runInTurn {σ α : Type} [BEq α] (actors : σ → List α) (step : α → σ → Option σ) :
    (fuel : Nat) → List α → σ → σ
  | 0, _, s => s
  | fuel + 1, [], s =>
    match joining actors step [] s with
    | [] => s
    | queue => runInTurn actors step fuel queue s
  | fuel + 1, a :: queue, s =>
    match step a s with
    | some s' => runInTurn actors step fuel (a :: (queue ++ joining actors step (a :: queue) s')) s'
    | none => runInTurn actors step fuel queue s

/-- More moves than any single input needs. -/
def plenty : Nat := 10000000

end EdgeCache
