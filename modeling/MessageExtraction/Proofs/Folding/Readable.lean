import MessageExtraction.Proofs.Folding.Faults
import MessageExtraction.Proofs.Scope.Writes

/-!
What breaks in a source that can be read. Working out an expression stays within it and within the initial
values of constants, and if the source can be read, it is only numbers out of range that break it.
-/

namespace MessageExtraction

open Folding Value

namespace Source

variable {s : Source} {p q : Place}

/-- All that stands in a source can be read: its nodes are text, its escapes, references and numbers are
ones that there are, and its conditional expressions have all their parts. -/
structure IsReadable (s : Source) : Prop where
  text : ∀ p ∈ s.places, s.Reads p
  escape : ∀ p ∈ s.places, p.kind = "escape_sequence" → ∀ t, s.textOf p = .ok t →
    ∃ u, Text.decodeEscape t = .ok u
  reference : ∀ p ∈ s.places, p.kind = "html_character_reference" → ∀ t, s.textOf p = .ok t →
    ∃ u, Text.unescapeReferences t = .ok u
  number : ∀ p ∈ s.places, p.kind = "number" → ∃ n, s.numberValue p = .ok n
  conditional : ∀ p ∈ s.places, p.kind = "ternary_expression" →
    ∀ name ∈ ["condition", "consequence", "alternative"], ∃ q, p.field? name = some q

theorem mem_places_of_childOfKind? {kind : String} (hp : p ∈ s.places)
    (hq : p.childOfKind? kind = some q) : q ∈ s.places :=
  mem_places_of_mem_children hp (List.mem_of_find?_eq_some hq)

theorem mem_places_of_holds {scope statement : Place} (hscope : scope ∈ s.places)
    (h : scope.Holds statement) : statement ∈ s.places := by
  obtain ⟨q, hq, hstatement⟩ := List.mem_filterMap.mp h.2
  have hq := mem_places_of_mem_parts hscope hq
  rw [exported?] at hstatement
  split at hstatement
  · exact mem_places_of_field? hq hstatement
  · cases hstatement
    exact hq

theorem mem_places_of_assigned? {t : Place} (hp : p ∈ s.places) (ht : assigned? p = some t) :
    t ∈ s.places := by
  rw [assigned?] at ht
  split at ht
  · exact mem_places_of_field? hp ht
  · exact mem_places_of_field? hp ht
  · exact mem_places_of_field? hp ht
  · cases ht

namespace IsReadable

theorem exists_stringValue (hs : s.IsReadable) (hp : p ∈ s.places) : ∃ t, s.stringValue p = .ok t := by
  suffices h : ∀ c ∈ p.children, ∃ t, s.stringPiece (p.parent?.any (·.kind == "jsx_attribute")) c = .ok t by
    obtain ⟨ts, hts⟩ := exists_mapM_eq_ok_iff.mpr h
    exact ⟨ts.flatten, bind_eq_ok.mpr ⟨ts, hts, rfl⟩⟩
  intro c hc
  have hc := mem_places_of_mem_children hp hc
  obtain ⟨t, ht⟩ := hs.text c hc
  rw [stringPiece, ht, ok_bind]
  split
  · exact ⟨[], rfl⟩
  split
  · rename_i hescape
    exact hs.escape c hc hescape.1 t ht
  split
  · rename_i hreference
    exact hs.reference c hc hreference t ht
  · exact ⟨t, rfl⟩

theorem exists_exportedName (hs : s.IsReadable) (hp : p ∈ s.places) : ∃ t, s.exportedName p = .ok t := by
  rw [exportedName]
  split
  · exact hs.exists_stringValue hp
  · exact hs.text p hp

theorem readable (hs : s.IsReadable) {scope : Place} (hscope : scope ∈ s.places) : s.Readable scope := by
  refine ⟨fun statement hstatement _ source clause hsource hclause ↦ ?_, fun x k hx ↦ ?_⟩
  · have hstatement := mem_places_of_holds hscope hstatement
    refine ⟨hs.exists_stringValue (mem_places_of_field? hstatement hsource), ?_⟩
    intro part hpart _ specifier hspecifier _ name hname
    have hpart := mem_places_of_mem_parts (mem_places_of_childOfKind? hstatement hclause) hpart
    exact hs.exists_exportedName (mem_places_of_field? (mem_places_of_mem_parts hpart hspecifier) hname)
  · exact hs.text x (Place.mem_subtree_trans hscope hx.exposes.mem_subtree)

theorem exists_lookup (hs : s.IsReadable) (hp : p ∈ s.places) (name : Text) :
    ∃ found, s.lookup p name = .ok found := by
  suffices h : ∀ scopes : List Place, (∀ scope ∈ scopes, scope ∈ s.places) →
      ∃ found, s.lookupIn name scopes = .ok found from
    h _ fun scope hscope ↦ mem_places_of_mem_ancestors hp (List.mem_of_mem_filter hscope)
  intro scopes hscopes
  induction scopes with
  | nil => exact ⟨none, rfl⟩
  | cons scope outer ih =>
    obtain ⟨hscope, houter⟩ := List.forall_mem_cons.mp hscopes
    obtain ⟨bs, hbs⟩ := exists_declarations_iff.mpr (hs.readable hscope)
    rw [lookupIn, hbs, ok_bind]
    split
    · exact ⟨_, rfl⟩
    · exact ih houter

theorem exists_isConstant (hs : s.IsReadable) (b : Binding) : ∃ constant, s.isConstant b = .ok constant := by
  have hreassigned : ∃ names, s.reassigned = .ok names := by
    refine exists_mapM_eq_ok_iff.mpr fun t ht ↦ ?_
    obtain ⟨p, hp, hassigns, -⟩ := mem_assignedNames_iff.mp ht
    exact hs.text t (mem_places_of_assigned? hp hassigns)
  obtain ⟨names, hnames⟩ := hreassigned
  rw [isConstant]
  split
  · exact ⟨true, rfl⟩
  · rw [hnames]
    exact ⟨_, rfl⟩
  · rw [hnames]
    exact ⟨_, rfl⟩
  · exact ⟨false, rfl⟩

end IsReadable

end Source

namespace Folding

variable {s : Source} {p : Place} {t : Task} {f : Fault}

/-- A number is out of the range of what is done with it: it is too large to be computed with, or too long
to be written in a template or as the name of a member. -/
inductive OutOfRange (s : Source) : Task → Fault → Prop
  | operation {p operator l r : Place} {v w : Value} {f : Fault} :
      p.kind = "binary_expression" → p.field? "operator" = some operator →
      p.field? "left" = some l → p.field? "right" = some r → Derives s (.value l v) →
      leftSettles? operator.kind v = none → Derives s (.value r w) →
      OperationBreaks operator.kind v w f → OutOfRange s (.value p) f
  | substitution {p c q : Place} {before after : List Place} {ts : List Text} {v : Value} :
      p.kind = "template_string" → p.children = before ++ c :: after → Derives s (.pieces before ts) →
      c.kind = "template_substitution" → c.parts = [q] → Derives s (.value q v) → v.HasLongInteger →
      OutOfRange s (.value p) (.tooManyDigits none)
  | key {p c key value : Place} {before after : List Place} {members : List (Text × Value)}
      {n : Number.Literal} :
      p.kind = "object" → p.parts = before ++ c :: after → Derives s (.members before [] members) →
      c.kind = "pair" → c.field? "key" = some key → c.field? "value" = some value →
      key.kind = "number" → s.numberValue key = .ok n → (ofLiteral n).HasLongInteger →
      OutOfRange s (.value p) (.tooManyDigits none)

theorem OutOfRange.breaks (h : OutOfRange s t f) : Breaks s t f := by
  cases h with
  | operation hk ho hl hr hv hs hw h => exact .operation hk ho hl hr hv hs hw h
  | substitution hk hchildren hbefore hc hq hv hlong =>
    exact .piece hk hchildren hbefore (.substitution hc hq hv hlong)
  | @key _ _ key _ _ _ _ n hk hparts hbefore hc hkey hvalue hnumber hn hlong =>
    refine .key hk hparts hbefore hc hkey hvalue ?_
    rw [memberName, hnumber]
    refine bind_eq_error.mpr (.inr ⟨n, lift_eq_ok.mpr hn, lift_eq_fault_iff.mpr ?_⟩)
    exact (toText_eq_error_iff _).mpr ⟨rfl, hlong⟩

/-- If a source can be read, what breaks in it is a number that is out of range. -/
theorem outOfRange_of_breaks (hs : s.IsReadable) (ht : t.IsIn s) (h : Breaks s t f) : OutOfRange s t f := by
  have hreads {α : Type} {x : Except Fault α} (hok : ∃ a, x = .ok a) (h : x = .error f) : False := by
    obtain ⟨a, ha⟩ := hok
    rw [ha] at h
    cases h
  cases h with
  | operation hk ho hl hr hv hs hw h => exact .operation hk ho hl hr hv hs hw h
  | string _ h => exact (hreads (hs.exists_stringValue ht) h).elim
  | number hk h => exact (hreads (hs.number _ ht hk) h).elim
  | text h => exact (hreads (hs.text _ ht) h).elim
  | lookup _ h => exact (hreads (hs.exists_lookup ht _) h).elim
  | constancy _ _ _ h => exact (hreads (hs.exists_isConstant _) h).elim
  | condition hk hnone =>
    obtain ⟨q, hq⟩ := hs.conditional _ ht hk "condition" (by simp)
    exact (Option.some_ne_none q (hq.symm.trans hnone)).elim
  | @branch p _ v hk _ _ hnone =>
    have hname : (if v.isTruthy then "consequence" else "alternative") ∈
        ["condition", "consequence", "alternative"] := by
      split <;> simp
    obtain ⟨q, hq⟩ := hs.conditional p ht hk _ hname
    exact (Option.some_ne_none q (hq.symm.trans hnone)).elim
  | piece hk hchildren hbefore hpiece =>
    have hc := Source.mem_places_of_mem_children ht (hchildren ▸ List.mem_append_right _ List.mem_cons_self)
    cases hpiece with
    | text _ _ h => exact (hreads (hs.text _ hc) h).elim
    | escape hescape htext h => exact (hreads (hs.escape _ hc hescape _ htext) h).elim
    | substitution h₁ hq hv hlong => exact .substitution hk hchildren hbefore h₁ hq hv hlong
  | @key _ c key _ _ _ _ _ hk hparts hbefore hc hkey hvalue h =>
    have hpair : c ∈ s.places :=
      Source.mem_places_of_mem_parts ht (hparts ▸ List.mem_append_right _ List.mem_cons_self)
    have hplace := Source.mem_places_of_field? hpair hkey
    unfold memberName at h
    split at h
    · exact (hreads (hs.text _ hplace) (lift_eq_fault_iff.mp h)).elim
    · exact (hreads (hs.text _ hplace) (lift_eq_fault_iff.mp h)).elim
    · exact (hreads (hs.exists_stringValue hplace) (lift_eq_fault_iff.mp h)).elim
    · rename_i hnumber
      obtain h | ⟨n, hn, h⟩ := bind_eq_error.mp h
      · exact (hreads (hs.number _ hplace hnumber) (lift_eq_fault_iff.mp h)).elim
      · obtain ⟨rfl, hlong⟩ := (toText_eq_error_iff _).mp (lift_eq_fault_iff.mp h)
        exact .key hk hparts hbefore hc hkey hvalue hnumber (lift_eq_ok.mp hn) hlong
    · cases h

theorem isIn_of_reaches {u : Task} (ht : t.IsIn s) (h : Relation.ReflTransGen (Needs s) t u) : u.IsIn s := by
  induction h with
  | refl => exact ht
  | tail _ hstep ih => exact isIn_of_needs hstep ih

/-- The operators of which an operation on numbers, or on a number and a text, may break. -/
def fallibleOperators : List String := ["+", "-", "*", "/", "%", "**"]

theorem mem_fallibleOperators {operator : String} {v w : Value} (h : OperationBreaks operator v w f) :
    operator ∈ fallibleOperators := by
  cases h with
  | noDouble _ _ htakes _ =>
    obtain ⟨hop, -⟩ | ⟨rfl, -⟩ | ⟨rfl, -⟩ | ⟨rfl, -⟩ := htakes
    · exact List.mem_of_mem_take (show operator ∈ fallibleOperators.take 3 from hop)
    · decide
    · decide
    · decide
  | text hop | quotient hop | remainder hop | power hop => exact hop ▸ by decide

theorem fault_of_operationBreaks {operator : String} {v w : Value} (h : OperationBreaks operator v w f) :
    f ∈ [.tooManyDigits none, .tooLarge, .undefinedRemainder, .divisionByZero] := by
  cases h with
  | @power _ _ x y _ _ _ _ _ _ _ h =>
    have hends := powerEnds_powFloat x y
    rw [h] at hends
    cases hends <;> simp
  | _ => simp

end Folding

namespace Source

variable {s : Source} {p : Place} {f : Fault}

/-- If a source can be read, a fold breaks exactly if a number that has to be worked out is out of range. -/
theorem IsReadable.fold_eq_fault_iff (hs : s.IsReadable) (hp : p ∈ s.places) :
    s.fold p = .error (.fault f) ↔
      ∃ t, Relation.ReflTransGen (Needs s) (.value p) t ∧ OutOfRange s t f := by
  rw [fold_eq_fault_iff_raises hp]
  refine exists_congr fun t ↦ and_congr_right fun ht ↦ ?_
  exact ⟨outOfRange_of_breaks hs (isIn_of_reaches (t := .value p) hp ht), OutOfRange.breaks⟩

/-- If a source can be read, a fold breaks only by the faults of arithmetic, and only where the source has
an operator of arithmetic, something put in a template or a number for the name of a member. -/
theorem IsReadable.arithmetic_of_fold (hs : s.IsReadable) (hp : p ∈ s.places)
    (h : s.fold p = .error (.fault f)) :
    f ∈ [.tooManyDigits none, .tooLarge, .undefinedRemainder, .divisionByZero] ∧
      ∃ q ∈ s.places, q.kind ∈ fallibleOperators ∨ q.kind = "template_substitution" ∨
        q.kind = "pair" ∧ ∃ key, q.field? "key" = some key ∧ key.kind = "number" := by
  obtain ⟨t, ht, hrange⟩ := (hs.fold_eq_fault_iff hp).mp h
  have hin := isIn_of_reaches (t := .value p) hp ht
  cases hrange with
  | operation _ ho _ _ _ _ _ h =>
    exact ⟨fault_of_operationBreaks h, _, mem_places_of_field? hin ho, .inl (mem_fallibleOperators h)⟩
  | substitution _ hchildren _ hc =>
    refine ⟨by simp, _, mem_places_of_mem_children hin ?_, .inr (.inl hc)⟩
    exact hchildren ▸ List.mem_append_right _ List.mem_cons_self
  | key _ hparts _ hc hkey _ hnumber =>
    refine ⟨by simp, _, mem_places_of_mem_parts hin ?_, .inr (.inr ⟨hc, _, hkey, hnumber⟩)⟩
    exact hparts ▸ List.mem_append_right _ List.mem_cons_self

end Source

end MessageExtraction
