/-! # Runs of numbers

A set of numbers is written as the ascending list of the points where membership changes: the first
point opens the first run, the second is the first number after it, and so on.
-/
namespace TypeErasure.Text

def inRuns (changes : List Nat) (n : Nat) : Bool := (changes.takeWhile (· ≤ n)).length % 2 = 1

example : (List.range 8).filter (inRuns [2, 4, 7]) = [2, 3, 7] := by decide

end TypeErasure.Text
