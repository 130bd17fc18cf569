import MessageExtraction.Folding.Fold
import MessageExtraction.Proofs.Folding.Completeness

namespace MessageExtraction

open Folding

namespace Source

variable {s : Source}

theorem foldWith_eq_foldFrom (pending : List (List Nat)) (p : Place) :
    s.foldWith pending p = s.foldFrom (s.followPending pending) p := by
  rw [foldWith, foldFrom]
  congr 1
  funext q
  have := q.2
  exact foldWith_eq_foldFrom pending q.1
termination_by sizeOf p.node

theorem fold_literal {p : Place} {v : Value} (h : (p.kind, v) ∈
    [("true", Value.bool true), ("false", .bool false), ("null", .null),
      ("undefined", .undefined)]) : s.fold p = .ok v := by
  rw [fold, foldWith_eq_foldFrom]
  exact Judgement.holds_literal rfl h

/-- What a fold finds can be derived. -/
theorem derives_of_foldWith {pending : List (List Nat)} {p : Place} {v : Value}
    (h : s.foldWith pending p = .ok v) : Derives s (.value p v) := by
  rw [foldWith] at h
  refine derives_of_rule (fun q w hq ↦ ?_) (fun b value w hb ↦ ?_) h
  · have := q.2
    exact derives_of_foldWith hq
  · split at hb
    · rename_i hpending
      have := List.length_erase_of_mem hpending
      have := List.length_pos_of_mem hpending
      exact derives_of_foldWith hb
    · cases hb
termination_by (pending.length, sizeOf p.node)

theorem settles_followTo_succ (n : Nat) (b : Binding) (value : Place) :
    Settles (s.followTo n b value) (s.followTo (n + 1) b value) := by
  induction n generalizing b value with
  | zero => exact .of_notConstant _
  | succ n ih =>
    rw [followTo, followTo]
    split
    · exact settles_foldFrom ih value
    · exact .refl _

/-- Following constants deeper keeps the outcomes that were found. -/
theorem settles_foldFrom_followTo {n m : Nat} (h : n ≤ m) (p : Place) :
    Settles (s.foldFrom (s.followTo n) p) (s.foldFrom (s.followTo m) p) := by
  induction h with
  | refl => exact .refl _
  | step _ ih => exact ih.trans (settles_foldFrom (settles_followTo_succ _) p)

/-- The constants that are no longer pending have initial values without an outcome so many deep. -/
def LeavesOutUnfolded (s : Source) (pending : List (List Nat)) (n : Nat) : Prop :=
  ∀ b value, s.Declares b value → b.place.path ∉ pending →
    ∀ m < n, s.foldFrom (s.followTo m) value = .error .notConstant

/-- A fold finds what comes out when constants are followed so many deep, if those that it does not
follow have no outcome less deep. -/
theorem settles_foldWith {n : Nat} {pending : List (List Nat)} (h : s.LeavesOutUnfolded pending n)
    (p : Place) : Settles (s.foldFrom (s.followTo n) p) (s.foldWith pending p) := by
  induction n using Nat.strong_induction_on generalizing pending p with
  | _ n ih =>
    rw [foldWith_eq_foldFrom]
    refine settles_foldFrom (fun b value hv ↦ ?_) p
    cases n with
    | zero => exact absurd rfl hv
    | succ n =>
      rw [followTo] at hv ⊢
      split at hv
      · rename_i hd
        have hpending : b.place.path ∈ pending := by
          by_contra hnot
          exact hv (h b value hd hnot n (Nat.lt_succ_self n))
        rw [followPending, if_pos hpending, if_pos hd]
        -- The constant is followed no deeper than its outcome needs, so that nothing on the way to it
        -- can need the constant again.
        classical
        have hex : ∃ k, s.foldFrom (s.followTo k) value ≠ .error .notConstant := ⟨n, hv⟩
        have hle : Nat.find hex ≤ n := Nat.find_min' hex hv
        have hleft : s.LeavesOutUnfolded (pending.erase b.place.path) (Nat.find hex) := by
          intro c value' hc hnot m hm
          by_cases hcb : c.place.path = b.place.path
          · obtain rfl := hc.unique hd hcb
            exact not_not.mp (Nat.find_min hex hm)
          · have hnot' : c.place.path ∉ pending :=
              fun hmem ↦ hnot ((List.mem_erase_of_ne hcb).mpr hmem)
            exact h c value' hc hnot' m (by omega)
        rw [ih (Nat.find hex) (by omega) hleft value (Nat.find_spec hex)]
        exact (settles_foldFrom_followTo hle value (Nat.find_spec hex)).symm
      · exact absurd rfl hv

theorem extends_foldWith {n : Nat} {pending : List (List Nat)} (h : s.LeavesOutUnfolded pending n)
    (p : Place) : Extends (s.foldFrom (s.followTo n) p) (s.foldWith pending p) :=
  (settles_foldWith h p).extends

/-- A fold comes to an end on every expression of a source, and with a value exactly if that value can
be derived: constants that refer to each other are left without one only if nothing can be derived
for them. -/
theorem fold_eq_ok_iff_derives {p : Place} (hp : p ∈ s.places) (v : Value) :
    s.fold p = .ok v ↔ Derives s (.value p v) := by
  constructor
  · exact derives_of_foldWith
  · intro h
    obtain ⟨n, hn⟩ := (eventually_holds h hp).exists
    refine extends_foldWith (fun b value hd hnot ↦ ?_) p v hn
    exact absurd (List.mem_map_of_mem hd.place_mem) hnot

end Source

section SelfReference

/-- The block `{ const a = true || a }`. -/
def selfReferring : Source where
  filename := "a.js"
  path := "a.js"
  bytes := (Utf8.encode? "\x7b const a = true || a \x7d").getD []
  tree := ⟨"program", true, 0, 23, [],
    [⟨"statement_block", true, 0, 23, [],
      [.token "\x7b" 0 1,
        ⟨"lexical_declaration", true, 2, 21, [("kind", 0)],
          [.token "const" 2 7,
            ⟨"variable_declarator", true, 8, 21, [("name", 0), ("value", 2)],
              [.leaf "identifier" 8 9, .token "=" 10 11,
                ⟨"binary_expression", true, 12, 21, [("left", 0), ("operator", 1), ("right", 2)],
                  [.leaf "true" 12 16, .token "||" 17 19,
                    .leaf "identifier" 20 21]⟩]⟩]⟩,
        .token "\x7d" 22 23]⟩]⟩
  hasErrors := false

def childAt (p : Place) (i : Nat) : Place := p.children[i]?.getD default

def selfReferringBlock : Place := childAt selfReferring.root 0

def selfReferringDeclarator : Place := childAt (childAt selfReferringBlock 1) 1

/-- The binding of the name, with its initial value. -/
def selfReferringBinding : Binding :=
  ⟨"a", childAt selfReferringDeclarator 0,
    .declared "const" (some (childAt selfReferringDeclarator 2))⟩

/-- The name in its own initial value. -/
def selfReference : Place := childAt (childAt selfReferringDeclarator 2) 2

theorem lookup_selfReference :
    selfReferring.lookup selfReference "a" = .ok (some selfReferringBinding) := by
  have hscopes : selfReference.ancestors.filter Place.isScope =
      [selfReferringBlock, selfReferring.root] := by cbv
  have hblock : selfReferring.blockBindings selfReferringBlock = .ok [selfReferringBinding] := by cbv
  have hdeclarations : selfReferring.declarations selfReferringBlock =
      .ok [selfReferringBinding] := by
    rw [Source.declarations, if_neg (by decide), if_neg (by decide), if_pos (by decide), hblock]
  rw [Source.lookup, hscopes, Source.lookupIn, hdeclarations]
  cbv

/-- The name folds though it stands in its own initial value, where the left operand is enough. -/
theorem selfReference_folds : selfReference ∈ selfReferring.places ∧
    selfReferring.fold selfReference = .ok (.bool true) := by
  have hp : selfReference ∈ selfReferring.places :=
    List.mem_of_getElem? (show selfReferring.places[11]? = some selfReference by cbv)
  have ho : (childAt selfReferringDeclarator 2).field? "operator" =
      some (childAt (childAt selfReferringDeclarator 2) 1) := by cbv
  have hl : (childAt selfReferringDeclarator 2).field? "left" =
      some (childAt (childAt selfReferringDeclarator 2) 0) := by cbv
  have hr : (childAt selfReferringDeclarator 2).field? "right" = some selfReference := by cbv
  refine ⟨hp, (Source.fold_eq_ok_iff_derives hp _).mpr ?_⟩
  refine .identifier (by cbv) (.constant (by cbv) lookup_selfReference rfl rfl ?_)
  exact .left (by cbv) ho hl hr (.yes (by cbv)) (by cbv)

end SelfReference

end MessageExtraction
