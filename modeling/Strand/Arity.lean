/-!
# Expected numbers of arguments
-/

namespace Strand

/-- How many arguments something takes, as a message says it. -/
inductive Arity where
  | exactly (n : Nat)
  | atLeast (n : Nat)
  | atMost (n : Nat)
  | between (low high : Nat)
deriving DecidableEq, Inhabited

def Arity.text : Arity → String
  | .exactly n => toString n
  | .atLeast n => "at least " ++ toString n
  | .atMost n => "at most " ++ toString n
  | .between low high => toString low ++ " to " ++ toString high

end Strand
