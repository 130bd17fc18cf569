import MessageExtraction.Folding.Rules

namespace MessageExtraction.Source

open Folding

/-- The value of an expression. A constant is followed only while it is pending, so that one which
refers to itself has no value. -/
def foldWith (s : Source) (pending : List (List Nat)) (p : Place) : Outcome :=
  rule s p (fun q ↦ s.foldWith pending q.1) fun b value ↦
    if _h : b.place.path ∈ pending then s.foldWith (pending.erase b.place.path) value
    else .error .notConstant
termination_by (pending.length, sizeOf p.node)
decreasing_by
  · exact Prod.Lex.right _ q.2
  · refine Prod.Lex.left _ _ ?_
    rw [List.length_erase_of_mem _h]
    have := List.length_pos_of_mem _h
    omega

/-- A constant is followed only while it is pending. -/
def followPending (s : Source) (pending : List (List Nat)) (b : Binding) (value : Place) : Outcome :=
  if b.place.path ∈ pending then s.foldWith (pending.erase b.place.path) value
  else .error .notConstant

/-- The value of an expression, with every declaration of the source still to be followed. -/
def fold (s : Source) (p : Place) : Outcome := s.foldWith (s.places.map Place.path) p

end MessageExtraction.Source
