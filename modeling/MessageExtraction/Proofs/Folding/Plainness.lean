import MessageExtraction.Proofs.Folding.Faults

/-!
What a fold finds is a value of a script, unless a negative number is raised to a broken power on the way.
-/

namespace MessageExtraction

open Folding

namespace Folding

/-- What one step keeps, knowing the steps before it, a run over a list that succeeds keeps. -/
theorem foldlM_keeps_of_split {α β ε : Type} {P : β → Prop} {f : β → α → Except ε β} {l : List α}
    {b b' : β} (hb : P b) (hf : ∀ before a after c c', l = before ++ a :: after →
      before.foldlM f b = .ok c → P c → f c a = .ok c' → P c') (h : l.foldlM f b = .ok b') : P b' := by
  induction l using List.reverseRecOn generalizing b' with
  | nil => exact pure_eq_ok.mp h ▸ hb
  | append_singleton l a ih =>
    rw [List.foldlM_append] at h
    obtain ⟨c, hc, h⟩ := bind_eq_ok.mp h
    rw [List.foldlM_cons] at h
    obtain ⟨c', hc', h⟩ := bind_eq_ok.mp h
    rw [← pure_eq_ok.mp h]
    refine hf l a [] c c' rfl hc (ih ?_ hc) hc'
    intro before a' after d d' hsplit
    exact hf before a' (after ++ [a]) d d' (by rw [hsplit, List.append_assoc, List.cons_append])

/-- A negative number is raised to a broken power. -/
inductive TakesBrokenPower (s : Source) : Task → Prop
  | binary {p operator l r : Place} {v w : Value} :
      p.kind = "binary_expression" → p.field? "operator" = some operator →
      p.field? "left" = some l → p.field? "right" = some r → Derives s (.value l v) →
      Derives s (.value r w) → IsBrokenPower operator.kind v w → TakesBrokenPower s (.value p)

section Plainness

variable {s : Source} {p : Place} {v : Value} {follow : Binding → Place → Outcome}
  {inner : Inner p → Outcome}

theorem isPlain_of_globalConstant? {name : Text} (h : globalConstant? name = some v) : v.IsPlain := by
  rw [globalConstant?] at h
  split at h
  · cases h
    exact .undefined
  split at h
  · cases h
    exact .nan
  split at h
  · cases h
    exact .float _
  · cases h

theorem isPlain_of_ofName
    (hfollow : ∀ b q w, Needs s (.name p) (.value q) → follow b q = .ok w → w.IsPlain)
    (h : ofName s follow p = .ok v) : v.IsPlain := by
  obtain ⟨name, hname, ⟨-, hg⟩ | ⟨b, value, hb, hv, hc, h⟩⟩ := ofName_eq_ok.mp h
  · exact isPlain_of_globalConstant? hg
  · exact hfollow b value v (.constant hname hb hv hc) h

theorem isPlain_of_ofBinary (hk : p.kind = "binary_expression")
    (hvalue : ∀ q w, inner q = .ok w → Derives s (.value q.1 w))
    (hplain : ∀ q w, Needs s (.value p) (.value q.1) → inner q = .ok w → w.IsPlain)
    (hpower : ¬TakesBrokenPower s (.value p)) (h : ofBinary p inner = .ok v) : v.IsPlain := by
  obtain ⟨operator, l, r, ho, hl, hr, u, hu, ⟨-, rfl⟩ | ⟨hs, h⟩ | ⟨hs, w, hw, h⟩⟩ := ofBinary_eq_ok.mp h
  · exact hplain l u (.left hk ho hl hr) hu
  · exact hplain r v (.right hk ho hl hr (hvalue l u hu) (by simp [hs])) h
  · refine isPlain_of_operate h fun hbroken ↦ hpower ?_
    exact .binary hk ho hl hr (hvalue l u hu) (hvalue r w hw) hbroken

theorem isPlain_of_ofUnary (hk : p.kind = "unary_expression")
    (hplain : ∀ q w, Needs s (.value p) (.value q.1) → inner q = .ok w → w.IsPlain)
    (h : ofUnary p inner = .ok v) : v.IsPlain := by
  unfold ofUnary at h
  split at h
  · rename_i operator argument ho ha
    rw [fieldOf?_eq_some] at ho ha
    split at h
    · cases h
      exact .undefined
    · rename_i hop
      obtain ⟨w, hw, h⟩ := bind_eq_ok.mp h
      exact isPlain_of_operateAlone (hplain argument w (.argument hk ho ha hop) hw) h
  · cases h

theorem isPlain_of_ofTernary (hk : p.kind = "ternary_expression")
    (hvalue : ∀ q w, inner q = .ok w → Derives s (.value q.1 w))
    (hplain : ∀ q w, Needs s (.value p) (.value q.1) → inner q = .ok w → w.IsPlain)
    (h : ofTernary p inner = .ok v) : v.IsPlain := by
  obtain ⟨w, hw, h⟩ := bind_eq_ok.mp h
  obtain ⟨condition, hcondition, hw⟩ := ofField_eq_ok.mp hw
  obtain ⟨branch, hbranch, h⟩ := ofField_eq_ok.mp h
  exact hplain branch v (.branch hk hcondition (hvalue condition w hw) hbranch) h

theorem isPlain_of_ofArray (hk : p.kind = "array")
    (hvalue : ∀ q w, inner q = .ok w → Derives s (.value q.1 w))
    (hplain : ∀ q w, Needs s (.value p) (.value q.1) → inner q = .ok w → w.IsPlain)
    (h : ofArray p inner = .ok v) : v.IsPlain := by
  obtain ⟨vs, hvs, h⟩ := bind_eq_ok.mp h
  rw [← pure_eq_ok.mp h]
  refine .list fun w hw ↦ ?_
  obtain ⟨c, hc, hcw⟩ := exists_mem_of_mapM hvs hw
  obtain ⟨before, after, hsplit⟩ := List.append_of_mem hc
  rw [hsplit, List.mapM_append] at hvs
  obtain ⟨us, hus, -⟩ := bind_eq_ok.mp hvs
  have hparts : p.parts = before.map Subtype.val ++ c.1 :: after.map Subtype.val := by
    rw [← map_val_partsOf, hsplit, List.map_append, List.map_cons]
  split at hcw
  · cases hcw
  · rename_i hspread
    exact hplain c w (.item hk hparts (derives_of_items hvalue hus) hspread) hcw

theorem isPlain_of_ofObject (hk : p.kind = "object")
    (hvalue : ∀ q w, inner q = .ok w → Derives s (.value q.1 w))
    (hplain : ∀ q w, Needs s (.value p) (.value q.1) → inner q = .ok w → w.IsPlain)
    (hfollow : ∀ b q w, follow b q = .ok w → Derives s (.value q w))
    (hname : ∀ c w, Needs s (.value p) (.name c) → ofName s follow c = .ok w → w.IsPlain)
    (h : ofObject s p inner (ofName s follow) = .ok v) : v.IsPlain := by
  obtain ⟨members, hmembers, h⟩ := bind_eq_ok.mp h
  rw [← pure_eq_ok.mp h]
  refine .object (foldlM_keeps_of_split (P := fun ms ↦ ∀ m ∈ ms, m.2.IsPlain) (by simp) ?_ hmembers)
  intro before c after ms ms' hsplit hbefore hms hc
  have hparts : p.parts = before.map Subtype.val ++ c.1 :: after.map Subtype.val := by
    rw [← map_val_partsOf, hsplit, List.map_append, List.map_cons]
  have hd := derives_of_members hvalue (fun q w ↦ derives_of_ofName hfollow) hbefore
  unfold addMember at hc
  split at hc
  · rename_i hpair
    split at hc
    · rename_i key value hkey hval
      obtain ⟨name, hn, hc⟩ := bind_eq_ok.mp hc
      obtain ⟨w, hw, hc⟩ := bind_eq_ok.mp hc
      rw [← pure_eq_ok.mp hc]
      rw [fieldOf?_eq_some] at hkey hval
      exact .insertMember (hplain _ w (.member hk hparts hd hpair hkey hval hn) hw) hms
    · cases hc
  · rename_i hshort
    obtain ⟨w, hw, hc⟩ := bind_eq_ok.mp hc
    obtain ⟨name, -, hc⟩ := bind_eq_ok.mp hc
    rw [← pure_eq_ok.mp hc]
    exact .insertMember (hname c.1 w (.shorthand hk hparts hd hshort) hw) hms
  · cases hc

/-- A rule keeps to the values of a script, unless it takes a broken power. -/
theorem isPlain_of_rule (hvalue : ∀ q w, inner q = .ok w → Derives s (.value q.1 w))
    (hplain : ∀ q w, Needs s (.value p) (.value q.1) → inner q = .ok w → w.IsPlain)
    (hfollow : ∀ b q w, follow b q = .ok w → Derives s (.value q w))
    (hname : ∀ c w, Needs s (.value p) (.name c) → ofName s follow c = .ok w → w.IsPlain)
    (hpower : ¬TakesBrokenPower s (.value p)) (h : rule s p inner follow = .ok v) : v.IsPlain := by
  unfold rule at h
  split at h
  · rename_i hw
    split at h
    · rename_i q rest hq
      have hparts : p.parts = q.1 :: rest.map Subtype.val := by
        rw [← map_val_partsOf, hq, List.map_cons]
      exact hplain q v (.wrapper hw hparts) h
    · cases h
  split at h <;> rename_i hk
  · obtain ⟨t, -, h⟩ := bind_eq_ok.mp h
    rw [← pure_eq_ok.mp h]
    exact .text t
  · obtain ⟨ts, -, h⟩ := bind_eq_ok.mp h
    rw [← pure_eq_ok.mp h]
    exact .text _
  · obtain ⟨n, -, h⟩ := bind_eq_ok.mp h
    rw [← pure_eq_ok.mp h]
    exact .ofLiteral n
  · cases h
    exact .bool true
  · cases h
    exact .bool false
  · cases h
    exact .null
  · cases h
    exact .undefined
  · exact hname p v (.identifier hk) h
  · obtain ⟨q, hq, h⟩ := ofOnlyPart_eq_ok.mp h
    exact hplain q v (.embedded hk hq) h
  · exact isPlain_of_ofBinary hk hvalue hplain hpower h
  · exact isPlain_of_ofUnary hk hplain h
  · exact isPlain_of_ofTernary hk hvalue hplain h
  · exact isPlain_of_ofObject hk hvalue hplain hfollow hname h
  · exact isPlain_of_ofArray hk hvalue hplain h
  · cases h

end Plainness

end Folding

namespace Source

variable {s : Source}

theorem isPlain_of_foldWith {pending : List (List Nat)} {p : Place} {v : Value}
    (hpower : ∀ t, Relation.ReflTransGen (Needs s) (.value p) t → ¬TakesBrokenPower s t)
    (h : s.foldWith pending p = .ok v) : v.IsPlain := by
  rw [foldWith] at h
  refine isPlain_of_rule (fun q w hq ↦ derives_of_foldWith hq) (fun q w hneeds hq ↦ ?_)
    (fun b value w hb ↦ ?_) (fun c w hneeds hc ↦ ?_) (hpower _ .refl) h
  · have := q.2
    exact isPlain_of_foldWith (fun t ht ↦ hpower t (.head hneeds ht)) hq
  · split at hb
    · exact derives_of_foldWith hb
    · cases hb
  · refine isPlain_of_ofName (fun b value w hvalue hb ↦ ?_) hc
    split at hb
    · rename_i hpending
      have := List.length_erase_of_mem hpending
      have := List.length_pos_of_mem hpending
      exact isPlain_of_foldWith (fun t ht ↦ hpower t (.head hneeds (.head hvalue ht))) hb
    · cases hb
termination_by (pending.length, sizeOf p.node)

/-- A fold breaks exactly if one of the things that have to be worked out for it breaks by itself, and what
it finds is a value of a script unless one of them is a negative number to a broken power. -/
theorem fold_breaks_iff {p : Place} (hp : p ∈ s.places) :
    (∀ f, s.fold p = .error (.fault f) ↔
      ∃ t, Relation.ReflTransGen (Needs s) (.value p) t ∧ Breaks s t f) ∧
    ((∀ t, Relation.ReflTransGen (Needs s) (.value p) t → ¬TakesBrokenPower s t) →
      ∀ v, s.fold p = .ok v → v.IsPlain) :=
  ⟨fold_eq_fault_iff_raises hp, fun hpower _ ↦ isPlain_of_foldWith hpower⟩

end Source

section HugeQuotient

/-- The declaration `const p = 2n ** 1024n / 1n;`. -/
def hugeQuotient : Source where
  filename := "a.js"
  path := "a.js"
  bytes := (Utf8.encode? "const p = 2n ** 1024n / 1n;").getD []
  tree := ⟨"program", true, 0, 27, [],
    [⟨"lexical_declaration", true, 0, 27, [],
      [.token "const" 0 5,
        ⟨"variable_declarator", true, 6, 26, [("name", 0), ("value", 2)],
          [.leaf "identifier" 6 7, .token "=" 8 9,
            ⟨"binary_expression", true, 10, 26, [("left", 0), ("operator", 1), ("right", 2)],
              [⟨"binary_expression", true, 10, 21, [("left", 0), ("operator", 1), ("right", 2)],
                [.leaf "number" 10 12, .token "**" 13 15,
                  .leaf "number" 16 21]⟩,
                .token "/" 22 23, .leaf "number" 24 26]⟩]⟩,
        .token ";" 26 27]⟩]⟩
  hasErrors := false

/-- The quotient that is the initial value. -/
def hugeValue : Place := childAt (childAt (childAt hugeQuotient.root 0) 1) 2

/-- The power that is divided. -/
def hugePower : Place := childAt hugeValue 0

theorem mem_places_hugeValue : hugeValue ∈ hugeQuotient.places :=
  List.mem_of_getElem? (show hugeQuotient.places[6]? = some hugeValue by cbv)

theorem mem_places_hugePower : hugePower ∈ hugeQuotient.places :=
  List.mem_of_getElem? (show hugeQuotient.places[7]? = some hugePower by cbv)

theorem operate_power (m : Int) (n : Nat) : operate "**" (.int m) (.int n) = .ok (.int (m ^ n)) := rfl

theorem derives_hugePower : Derives hugeQuotient (.value hugePower (.int (2 ^ 1024))) := by
  have hl : hugeQuotient.numberValue (childAt hugePower 0) = .ok (.int 2) := by cbv
  have hr : hugeQuotient.numberValue (childAt hugePower 2) = .ok (.int 1024) := by cbv
  have ho : hugePower.field? "operator" = some (childAt hugePower 1) := by cbv
  have hop : (childAt hugePower 1).kind = "**" := by cbv
  refine .binary (by cbv) ho (by cbv) (by cbv) (.number (by cbv) hl) ?_ (.number (by cbv) hr) ?_
  · rw [hop]
    rfl
  · rw [hop]
    exact operate_power 2 1024

theorem fold_hugePower : hugeQuotient.fold hugePower = .ok (.int (2 ^ 1024)) := by
  obtain ⟨n, hn⟩ := (eventually_holds derives_hugePower mem_places_hugePower).exists
  exact (Source.settles_fold n hugePower).extends _ hn

/-- Nothing that has to be worked out for the power breaks. -/
theorem hugePower_breaks_nowhere : hugePower ∈ hugeQuotient.places ∧
    ∀ t f, Relation.ReflTransGen (Needs hugeQuotient) (.value hugePower) t → ¬Breaks hugeQuotient t f := by
  refine ⟨mem_places_hugePower, fun t f ht hbreaks ↦ ?_⟩
  have h := ((Source.fold_breaks_iff mem_places_hugePower).1 f).mpr ⟨t, ht, hbreaks⟩
  rw [fold_hugePower] at h
  cases h

theorem breaks_hugeValue : Breaks hugeQuotient (.value hugeValue) .tooLarge := by
  have hr : hugeQuotient.numberValue (childAt hugeValue 2) = .ok (.int 1) := by cbv
  have ho : hugeValue.field? "operator" = some (childAt hugeValue 1) := by cbv
  have hop : (childAt hugeValue 1).kind = "/" := by cbv
  have hnone : Binary.nearest? (2 ^ 1024 : Int).natAbs (1 : Int).natAbs = none := by
    rw [Int.natAbs_pow]
    decide +kernel
  refine .operation (by cbv) ho (by cbv) (by cbv) derives_hugePower ?_ (.number (by cbv) hr) ?_
  · rw [hop]
    rfl
  · exact .quotient hop rfl rfl (by decide) hnone

/-- The source is well encoded, and yet dividing the power by one breaks. -/
theorem hugeValue_breaks :
    Utf8.decode hugeQuotient.bytes = .ok (Text.ofString "const p = 2n ** 1024n / 1n;") ∧
      hugeValue ∈ hugeQuotient.places ∧ hugeQuotient.fold hugeValue = .error (.fault .tooLarge) :=
  ⟨by decide +kernel, mem_places_hugeValue,
    (Source.fold_eq_fault_iff_raises mem_places_hugeValue _).mpr breaks_hugeValue.raises⟩

end HugeQuotient

end MessageExtraction
