/-!
# Pairs — lists of keys and values

A list of pairs is looked up by key, and keeps the order in which keys were added.
-/

namespace SimRelay

/-- A list of pairs with the value of one key replaced, or added at the end. -/
def setPair {α β : Type} [BEq α] (key : α) (value : β) : List (α × β) → List (α × β)
  | [] => [(key, value)]
  | p :: ps => if p.1 == key then (key, value) :: ps else p :: setPair key value ps

end SimRelay
