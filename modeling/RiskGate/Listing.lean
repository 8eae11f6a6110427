/-! # Lists without repeats

Reports list things in an order that depends on their content alone.
-/

namespace RiskGate

/-- The items in their order, each once, without those that have been seen. What is kept has been
seen from then on. -/
def unseen {α : Type} [DecidableEq α] (seen : List α) : List α → List α
  | [] => []
  | x :: xs => if x ∈ seen then unseen seen xs else x :: unseen (x :: seen) xs

/-- The items in the order of their first occurrence, each once. -/
def firstOccurrences {α : Type} [DecidableEq α] (items : List α) : List α := unseen [] items

/-- The texts in ascending order, each once. Texts are compared character by character, which is the
order of their UTF-8 bytes. -/
def normalized (texts : List String) : List String :=
  firstOccurrences (texts.mergeSort fun a b => a ≤ b)

end RiskGate
