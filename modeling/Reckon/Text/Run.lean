/-!
# Runs of characters

A class of characters is given by its runs: the numbers of the first and the last character of each.
-/

namespace Reckon

/-- Lies in one of the runs. -/
def inRuns (runs : List (Nat × Nat)) (c : Char) : Bool :=
  runs.any fun run => run.1 ≤ c.toNat && c.toNat ≤ run.2

end Reckon
