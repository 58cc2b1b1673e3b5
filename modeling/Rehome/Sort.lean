/-!
# Sorting

Lists that are nearly in order already are sorted by putting one item after the other at its place.
Items that stand alike keep their order.
-/
namespace Rehome

variable {α : Type}

/-- Puts an item before the first one that it may stand ahead of. -/
def insertBy (ahead : α → α → Bool) (a : α) : List α → List α
  | [] => [a]
  | b :: rest => if ahead a b then a :: b :: rest else b :: insertBy ahead a rest

def sortBy (ahead : α → α → Bool) : List α → List α
  | [] => []
  | a :: rest => insertBy ahead a (sortBy ahead rest)

end Rehome
