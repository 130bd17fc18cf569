import Mathlib
import MessageExtraction.Folding.Memory
import MessageExtraction.Proofs.Folding.Faults

/-!
A memory changes no answer. Every computation with a memory ends as the one without does, from
whatever has been kept of the source, and leaves behind nothing that is being followed.
-/

namespace MessageExtraction

open Folding

/-- What is kept is what would be worked out from the source. -/
structure Memory.IsSound (m : Memory) (s : Source) : Prop where
  tables : ∀ scope ∈ s.places, ∀ table, m.tables.lookup scope.path = some table →
    s.declarations scope = .ok table
  names : ∀ names, m.reassigned? = some names → s.reassigned = .ok names

theorem Memory.isSound_empty (s : Source) : Memory.IsSound {} s where
  tables := by simp
  names := by simp

/-- From a sound memory with these declarations being followed, a computation ends as another does
without a memory, and the memory is then again such a one. -/
def Recall.Agrees {ε α : Type} (s : Source) (resolving : List (List Nat)) (y : Recall ε α)
    (x : Except ε α) : Prop :=
  ∀ m : Memory, m.IsSound s → m.resolving = resolving →
    ∃ m' : Memory, m'.IsSound s ∧ m'.resolving = resolving ∧ y m = Recall.of x m'

namespace Recall.Agrees

variable {ε α β : Type} {s : Source} {resolving : List (List Nat)} {y : Recall ε α} {x : Except ε α}

theorem of (x : Except ε α) : Agrees s resolving (Recall.of x) x :=
  fun m hm hr ↦ ⟨m, hm, hr, rfl⟩

theorem pure (a : α) : Agrees s resolving (pure a : Recall ε α) (.ok a) := of (.ok a)

theorem bind_of_ok {g : α → Recall ε β} {f : α → Except ε β} (hy : Agrees s resolving y x)
    (hg : ∀ a, x = .ok a → Agrees s resolving (g a) (f a)) :
    Agrees s resolving (y >>= g) (x >>= f) := by
  intro m hm hr
  obtain ⟨m', hm', hr', hy⟩ := hy m hm hr
  -- A bind looks at no more than how its first part ends.
  have hbind : (y >>= g) m = (Recall.of x >>= g) m' := by
    show EStateM.bind y g m = EStateM.bind (Recall.of x) g m'
    rw [EStateM.bind, EStateM.bind, hy]
  rw [hbind]
  cases x with
  | error e => exact ⟨m', hm', hr', rfl⟩
  | ok a => exact hg a rfl m' hm' hr'

theorem bind {g : α → Recall ε β} {f : α → Except ε β} (hy : Agrees s resolving y x)
    (hg : ∀ a, Agrees s resolving (g a) (f a)) : Agrees s resolving (y >>= g) (x >>= f) :=
  hy.bind_of_ok fun a _ ↦ hg a

theorem mapM {g : α → Recall ε β} {f : α → Except ε β} {l : List α}
    (hg : ∀ a ∈ l, Agrees s resolving (g a) (f a)) :
    Agrees s resolving (l.mapM g) (l.mapM f) := by
  induction l with
  | nil => exact pure []
  | cons a l ih =>
    obtain ⟨ha, hl⟩ := List.forall_mem_cons.mp hg
    rw [List.mapM_cons, List.mapM_cons]
    exact ha.bind fun b ↦ (ih hl).bind fun bs ↦ pure (b :: bs)

theorem foldlM {g : β → α → Recall ε β} {f : β → α → Except ε β} {l : List α}
    (hg : ∀ a ∈ l, ∀ b, Agrees s resolving (g b a) (f b a)) (b : β) :
    Agrees s resolving (l.foldlM g b) (l.foldlM f b) := by
  induction l generalizing b with
  | nil => exact pure b
  | cons a l ih =>
    obtain ⟨ha, hl⟩ := List.forall_mem_cons.mp hg
    rw [List.foldlM_cons, List.foldlM_cons]
    exact (ha b).bind fun c ↦ ih hl c

theorem lifted {y : Recall Fault α} {x : Except Fault α} (h : Agrees s resolving y x) :
    Agrees s resolving (lifted y) (lift x) := by
  intro m hm hr
  obtain ⟨m', hm', hr', hy⟩ := h m hm hr
  refine ⟨m', hm', hr', ?_⟩
  show EStateM.adaptExcept _ y m = _
  rw [EStateM.adaptExcept, hy]
  cases x <;> rfl

/-- What is kept is what the computation gives, and keeping that leaves the memory sound. -/
theorem keeping {kept? : Memory → Option α} {keep : α → Memory → Memory}
    (hkept : ∀ m : Memory, m.IsSound s → ∀ a, kept? m = some a → x = .ok a)
    (hkeep : ∀ m : Memory, m.IsSound s → ∀ a, x = .ok a →
      (keep a m).IsSound s ∧ (keep a m).resolving = m.resolving) :
    Agrees s resolving (keeping kept? keep x) x := by
  intro m hm hr
  cases hfound : kept? m with
  | some a =>
    have hrun : Recall.keeping kept? keep x m = Recall.of (.ok a) m := by
      simp only [Recall.keeping, Bind.bind, EStateM.bind, get, getThe, MonadStateOf.get, EStateM.get,
        hfound]
      rfl
    rw [hrun, hkept m hm a hfound]
    exact ⟨m, hm, hr, rfl⟩
  | none =>
    have hrun : Recall.keeping kept? keep x m =
        (Recall.of x >>= fun a ↦ modify (keep a) >>= fun _ ↦ Pure.pure a : Recall ε α) m := by
      simp only [Recall.keeping, Bind.bind, EStateM.bind, get, getThe, MonadStateOf.get, EStateM.get,
        hfound]
    rw [hrun]
    cases hx : x with
    | error e => exact ⟨m, hm, hr, rfl⟩
    | ok a =>
      obtain ⟨hsound, hresolving⟩ := hkeep m hm a hx
      exact ⟨keep a m, hsound, hresolving.trans hr, rfl⟩

/-- However the computation ends, what was followed for it is followed no longer. -/
theorem following {declaration : List Nat} (h : Agrees s (declaration :: resolving) y x) :
    Agrees s resolving (following declaration y) x := by
  intro m hm hr
  obtain ⟨m', hm', hr', hy⟩ := h { m with resolving := declaration :: m.resolving }
    ⟨hm.tables, hm.names⟩ (congrArg _ hr)
  refine ⟨{ m' with resolving := m'.resolving.erase declaration }, ⟨hm'.tables, hm'.names⟩, ?_, ?_⟩
  · simp [hr']
  · show (tryFinally y _ : Recall ε α) _ = _
    simp only [tryFinally, MonadFinally.tryFinally', Functor.map, EStateM.map]
    rw [hy]
    cases x <;> rfl

/-- What is being followed has no value, and anything else is followed. -/
theorem followingOnce {declaration : List Nat} {y : Recall Stop α} {x : Except Stop α}
    (hx : declaration ∈ resolving → x = .error .notConstant)
    (h : Agrees s (declaration :: resolving) y x) :
    Agrees s resolving (followingOnce declaration y) x := by
  intro m hm hr
  have hrun : Recall.followingOnce declaration y m =
      (if m.resolving.contains declaration then MonadExcept.throw .notConstant
        else Recall.following declaration y : Recall Stop α) m := rfl
  rw [hrun]
  split
  · rename_i hmem
    rw [hr, List.contains_iff_mem] at hmem
    rw [hx hmem]
    exact ⟨m, hm, hr, rfl⟩
  · exact h.following m hm hr

end Recall.Agrees

namespace Source

open Recall

variable {s : Source} {resolving : List (List Nat)} {p : Place}

theorem agrees_recallTable {scope : Place} (hscope : scope ∈ s.places) :
    Agrees s resolving (s.recallTable scope) (s.declarations scope) := by
  apply Agrees.keeping
  · intro m hm table htable
    exact hm.tables scope hscope table htable
  · intro m hm table htable
    refine ⟨⟨?_, hm.names⟩, rfl⟩
    intro other hother kept hkept
    rw [List.lookup_cons] at hkept
    split at hkept
    · rename_i heq
      rw [eq_of_path_eq hother hscope (beq_iff_eq.mp heq), htable, Option.some.inj hkept]
    · exact hm.tables other hother kept hkept

theorem agrees_recallReassigned : Agrees s resolving s.recallReassigned s.reassigned := by
  apply Agrees.keeping
  · intro m hm names hnames
    exact hm.names names hnames
  · intro m hm names hnames
    refine ⟨⟨hm.tables, ?_⟩, rfl⟩
    intro kept hkept
    rw [hnames, Option.some.inj hkept]

theorem agrees_lookupIn {name : Text} {scopes : List Place} (h : ∀ q ∈ scopes, q ∈ s.places) :
    Agrees s resolving (Monadic.lookupIn s.recallTable name scopes) (s.lookupIn name scopes) := by
  induction scopes with
  | nil => exact .pure none
  | cons scope outer ih =>
    obtain ⟨hscope, houter⟩ := List.forall_mem_cons.mp h
    apply (agrees_recallTable hscope).bind
    intro table
    cases table.find? (·.name == name) with
    | some b => exact .pure (some b)
    | none => exact ih houter

theorem agrees_recallBinding {name : Text} (hp : p ∈ s.places) :
    Agrees s resolving (s.recallBinding p name) (s.lookup p name) := by
  apply agrees_lookupIn
  intro q hq
  exact mem_places_of_mem_ancestors hp (List.mem_of_mem_filter hq)

theorem agrees_recallNode (hp : p ∈ s.places) :
    Agrees s resolving (s.recallNode p) (s.lookupNode p) :=
  (Agrees.of _).bind fun _ ↦ agrees_recallBinding hp

theorem isConstant_eq (b : Binding) :
    s.isConstant b = Monadic.isConstant (m := Except Fault) s.reassigned b := rfl

theorem agrees_recallConstant (b : Binding) :
    Agrees s resolving (s.recallConstant b) (s.isConstant b) := by
  rw [isConstant_eq, recallConstant]
  unfold Monadic.isConstant
  split
  · exact .pure true
  · exact agrees_recallReassigned.bind fun _ ↦ .pure _
  · exact agrees_recallReassigned.bind fun _ ↦ .pure _
  · exact .pure false

theorem resolveImport_eq (p : Place) :
    s.resolveImport p = Monadic.resolveImport (m := Except Fault) s s.lookupNode p := rfl

theorem mem_children_of_memberParts? {object property : Place}
    (h : memberParts? p = some (object, property)) :
    object ∈ p.children ∧ property ∈ p.children := by
  unfold memberParts? at h
  split at h
  · rename_i hobject hproperty
    cases h
    exact ⟨Place.mem_children_of_field? hobject, Place.mem_children_of_field? hproperty⟩
  · rename_i hparts _
    cases h
    exact ⟨Place.mem_children_of_mem_parts (by simp [hparts]),
      Place.mem_children_of_mem_parts (by simp [hparts])⟩
  · cases h

theorem agrees_recallImport (hp : p ∈ s.places) :
    Agrees s resolving (s.recallImport p) (s.resolveImport p) := by
  rw [resolveImport_eq, recallImport]
  unfold Monadic.resolveImport
  split
  · apply (agrees_recallNode hp).bind
    intro found
    split
    · exact .pure _
    · exact .pure _
  split
  · split
    · exact .pure _
    · rename_i object property hparts
      split
      · have hobject := mem_places_of_mem_children hp (mem_children_of_memberParts? hparts).1
        apply (agrees_recallNode hobject).bind
        intro found
        split
        · exact (Agrees.of _).bind fun _ ↦ .pure _
        · split
          · exact (Agrees.of _).bind fun _ ↦ .pure _
          · exact .pure _
        · exact .pure _
      · exact .pure _
  · exact .pure _

theorem agrees_recallReference (hp : p ∈ s.places) (module name : Text) :
    Agrees s resolving (s.recallReference p module name) (s.referencesImport p module name) :=
  (agrees_recallImport hp).bind fun _ ↦ .pure _

end Source

namespace Monadic

open Folding Recall

variable {s : Source} {resolving : List (List Nat)} {p : Place}
  {inner : Inner p → Recall Stop Value} {inner' : Inner p → Outcome}
  {byName : Place → Recall Stop Value} {byName' : Place → Outcome}

theorem agrees_stop {α : Type} (why : Stop) :
    Agrees s resolving (stop why : Recall Stop α) (stop why) :=
  .of (.error why)

theorem mem_places_of_mem_partsOf {q : Inner p} (hp : p ∈ s.places) (hq : q ∈ partsOf p) :
    q.1 ∈ s.places := by
  apply Source.mem_places_of_mem_parts hp
  rw [← map_val_partsOf]
  exact List.mem_map_of_mem hq

theorem mem_places_of_mem_childrenOf {q : Inner p} (hp : p ∈ s.places) (hq : q ∈ childrenOf p) :
    q.1 ∈ s.places := by
  apply Source.mem_places_of_mem_children hp
  rw [← map_val_childrenOf]
  exact List.mem_map_of_mem hq

theorem mem_places_of_fieldOf? {q : Inner p} {name : String} (hp : p ∈ s.places)
    (hq : fieldOf? p name = some q) : q.1 ∈ s.places :=
  Source.mem_places_of_field? hp (fieldOf?_eq_some.mp hq)

section Rules

variable (hp : p ∈ s.places)
  (hinner : ∀ q : Inner p, q.1 ∈ s.places → Agrees s resolving (inner q) (inner' q))

include hp hinner

theorem agrees_ofOnlyPart :
    Agrees s resolving (ofOnlyPart p inner) (ofOnlyPart p inner') := by
  unfold ofOnlyPart
  split
  · rename_i q hq
    exact hinner q (mem_places_of_mem_partsOf hp (by simp [hq]))
  · exact agrees_stop _

theorem agrees_ofTemplate :
    Agrees s resolving (ofTemplate s p inner) (ofTemplate s p inner') := by
  refine (Agrees.mapM fun c hc ↦ ?_).bind fun _ ↦ .pure _
  have hc := mem_places_of_mem_childrenOf hp hc
  unfold templatePiece
  split
  · exact .pure _
  · exact (Agrees.of _).bind fun _ ↦ .of _
  · exact (agrees_ofOnlyPart hc fun q hq ↦ hinner (c.trans q) hq).bind fun _ ↦ .of _
  · exact .of _

theorem agrees_ofBinary : Agrees s resolving (ofBinary p inner) (ofBinary p inner') := by
  unfold ofBinary
  split
  · rename_i operator left right _ hleft hright
    have hright := hinner right (mem_places_of_fieldOf? hp hright)
    apply (hinner left (mem_places_of_fieldOf? hp hleft)).bind
    intro v
    split
    · split
      · exact hright
      · exact .pure v
    · split
      · exact .pure v
      · exact hright
    · split
      · exact hright
      · exact .pure v
    · exact hright.bind fun _ ↦ .of _
  · exact agrees_stop _

theorem agrees_ofUnary : Agrees s resolving (ofUnary p inner) (ofUnary p inner') := by
  unfold ofUnary
  split
  · rename_i operator argument _ hargument
    split
    · exact .pure _
    · exact (hinner argument (mem_places_of_fieldOf? hp hargument)).bind fun _ ↦ .of _
  · exact agrees_stop _

theorem agrees_ofField (name : String) :
    Agrees s resolving (ofField p inner name) (ofField p inner' name) := by
  unfold ofField
  split
  · rename_i q hq
    exact hinner q (mem_places_of_fieldOf? hp hq)
  · exact agrees_stop _

theorem agrees_ofArray : Agrees s resolving (ofArray p inner) (ofArray p inner') := by
  refine (Agrees.mapM fun c hc ↦ ?_).bind fun _ ↦ .pure _
  split
  · exact agrees_stop _
  · exact hinner c (mem_places_of_mem_partsOf hp hc)

variable (hname : ∀ q ∈ s.places, Agrees s resolving (byName q) (byName' q))

include hname

theorem agrees_ofObject :
    Agrees s resolving (ofObject s p inner byName) (ofObject s p inner' byName') := by
  refine (Agrees.foldlM (fun c hc members ↦ ?_) []).bind fun _ ↦ .pure _
  have hc := mem_places_of_mem_partsOf hp hc
  unfold addMember
  split
  · split
    · rename_i key value _ hvalue
      have hplace : value.1 ∈ s.places := mem_places_of_fieldOf? hc hvalue
      apply (Agrees.of _).bind
      intro name
      exact (hinner (c.trans value) hplace).bind fun _ ↦ .pure _
    · exact agrees_stop _
  · apply (hname c.1 hc).bind
    intro v
    exact (Agrees.of _).bind fun _ ↦ .pure _
  · exact agrees_stop _

/-- A rule keeps the agreement of what it is built from. -/
theorem agrees_rule : Agrees s resolving (rule s p inner byName) (rule s p inner' byName') := by
  unfold rule
  split
  · split
    · rename_i q _ hq
      exact hinner q (mem_places_of_mem_partsOf hp (by simp [hq]))
    · exact agrees_stop _
  split
  · exact (Agrees.of _).bind fun _ ↦ .pure _
  · exact agrees_ofTemplate hp hinner
  · exact (Agrees.of _).bind fun _ ↦ .pure _
  · exact .pure _
  · exact .pure _
  · exact .pure _
  · exact .pure _
  · exact hname p hp
  · exact agrees_ofOnlyPart hp hinner
  · exact agrees_ofBinary hp hinner
  · exact agrees_ofUnary hp hinner
  · exact (agrees_ofField hp hinner _).bind fun _ ↦ agrees_ofField hp hinner _
  · exact agrees_ofObject hp hinner hname
  · exact agrees_ofArray hp hinner
  · exact agrees_stop _

end Rules

end Monadic

namespace Source

open Recall

variable {s : Source}

theorem agrees_evaluateName {resolving : List (List Nat)} {p : Place}
    {follow : Binding → Place → Recall Stop Value} {follow' : Binding → Place → Outcome}
    (hp : p ∈ s.places)
    (hfollow : ∀ b value, s.Declares b value →
      Agrees s resolving (follow b value) (follow' b value)) :
    Agrees s resolving (s.evaluateName follow p) (ofName s follow' p) := by
  apply (Agrees.of _).bind
  intro name
  apply (agrees_recallBinding hp).lifted.bind_of_ok
  intro found hfound
  cases found with
  | none =>
    cases globalConstant? name with
    | none => exact .of (.error Stop.notConstant)
    | some v => exact .pure v
  | some b =>
    cases hvalue : b.value? with
    | none =>
      simp only [hvalue]
      exact .of (.error Stop.notConstant)
    | some value =>
      simp only [hvalue]
      apply (agrees_recallConstant b).lifted.bind
      intro constant
      cases constant with
      | false => exact .of (.error Stop.notConstant)
      | true => exact hfollow b value (declares_of_lookup hp (lift_eq_ok.mp hfound) hvalue)

/-- An evaluation ends as a fold does with the same constants pending, if none of these is being
followed. -/
theorem agrees_evaluateWith {resolving pending : List (List Nat)} {p : Place} (hp : p ∈ s.places)
    (hnodup : pending.Nodup) (hdisjoint : ∀ d ∈ resolving, d ∉ pending) :
    Agrees s resolving (s.evaluateWith pending p) (s.foldWith pending p) := by
  rw [evaluateWith, foldWith]
  apply Monadic.agrees_rule hp
  · intro q hq
    have hlt := q.2
    exact agrees_evaluateWith hq hnodup hdisjoint
  -- A constant that is being followed is not pending, so the memory and the pending constants stop
  -- the same names; following one moves it from those pending to those being followed.
  · intro q hq
    apply agrees_evaluateName hq
    intro b value hdeclares
    apply Agrees.followingOnce
    · intro hmem
      rw [dif_neg (hdisjoint _ hmem)]
    · split
      · rename_i hd
        have hlength := List.length_erase_of_mem hd
        have hpos := List.length_pos_of_mem hd
        apply agrees_evaluateWith hdeclares.value_mem (hnodup.erase _)
        intro d hmem
        obtain rfl | hmem := List.mem_cons.mp hmem
        · exact hnodup.not_mem_erase
        · exact fun h ↦ hdisjoint d hmem (List.mem_of_mem_erase h)
      · exact .of (.error Stop.notConstant)
termination_by (pending.length, sizeOf p.node)

theorem nodup_paths (s : Source) : (s.places.map Place.path).Nodup :=
  (Place.nodup_subtree s.root).map_on fun _ hp _ hq h ↦ eq_of_path_eq hp hq h

theorem agrees_evaluate {p : Place} (hp : p ∈ s.places) : Agrees s [] (s.evaluate p) (s.fold p) :=
  agrees_evaluateWith hp (nodup_paths s) (by simp)

/-- The answer to a question when nothing is kept. -/
def answer (s : Source) : Query → Answer
  | .value p => .value (s.fold p)
  | .binding p name => .binding (s.lookup p name)
  | .reference p => .binding (s.lookupNode p)
  | .constant b => .truth (s.isConstant b)
  | .imported p => .imported (s.resolveImport p)
  | .refers p module name => .truth (s.referencesImport p module name)

end Source

/-- A question about a place of a source. -/
def Query.IsAbout (s : Source) : Query → Prop
  | .value p | .binding p _ | .reference p | .imported p | .refers p _ _ => p ∈ s.places
  | .constant _ => True

theorem Recall.Agrees.runFrom_sound {ε α : Type} {s : Source} {m : Memory} {y : Recall ε α} {x : Except ε α}
    (h : Agrees s [] y x) (hm : m.IsSound s) (hr : m.resolving = []) :
    (runFrom m y).1 = x ∧ (runFrom m y).2.IsSound s ∧ (runFrom m y).2.resolving = [] := by
  obtain ⟨m', hm', hr', hy⟩ := h m hm hr
  have hrun : runFrom m y = (x, m') := by
    rw [Recall.runFrom, EStateM.run, hy]
    cases x <;> rfl
  rw [hrun]
  exact ⟨rfl, hm', hr'⟩

namespace Source

variable {s : Source}

/-- One question is answered from the source alone, and leaves a sound memory with nothing being
followed. -/
theorem ask_sound {m : Memory} {q : Query} (hq : q.IsAbout s) (hm : m.IsSound s)
    (hr : m.resolving = []) :
    (s.ask m q).1 = s.answer q ∧ (s.ask m q).2.IsSound s ∧ (s.ask m q).2.resolving = [] := by
  cases q with
  | value p =>
    obtain ⟨hanswer, hkept⟩ := (agrees_evaluate hq).runFrom_sound hm hr
    exact ⟨congrArg _ hanswer, hkept⟩
  | binding p name =>
    obtain ⟨hanswer, hkept⟩ := (agrees_recallBinding hq).runFrom_sound hm hr
    exact ⟨congrArg _ hanswer, hkept⟩
  | reference p =>
    obtain ⟨hanswer, hkept⟩ := (agrees_recallNode hq).runFrom_sound hm hr
    exact ⟨congrArg _ hanswer, hkept⟩
  | constant b =>
    obtain ⟨hanswer, hkept⟩ := (agrees_recallConstant b).runFrom_sound hm hr
    exact ⟨congrArg _ hanswer, hkept⟩
  | imported p =>
    obtain ⟨hanswer, hkept⟩ := (agrees_recallImport hq).runFrom_sound hm hr
    exact ⟨congrArg _ hanswer, hkept⟩
  | refers p module name =>
    obtain ⟨hanswer, hkept⟩ := (agrees_recallReference hq module name).runFrom_sound hm hr
    exact ⟨congrArg _ hanswer, hkept⟩

/-- After any questions what is kept is sound, and nothing is being followed. -/
theorem memoryAfter_sound {qs : List Query} (hqs : ∀ q ∈ qs, q.IsAbout s) :
    (s.memoryAfter qs).IsSound s ∧ (s.memoryAfter qs).resolving = [] := by
  have hfoldl {m : Memory} (hm : m.IsSound s ∧ m.resolving = []) :
      (qs.foldl (fun m q ↦ (s.ask m q).2) m).IsSound s ∧
        (qs.foldl (fun m q ↦ (s.ask m q).2) m).resolving = [] := by
    induction qs generalizing m with
    | nil => exact hm
    | cons q qs ih =>
      obtain ⟨hq, hqs⟩ := List.forall_mem_cons.mp hqs
      exact ih hqs (ask_sound hq hm.1 hm.2).2
  exact hfoldl ⟨Memory.isSound_empty s, rfl⟩

/-- Whatever has been asked about a source before, and however that was answered, nothing is being
followed, what is kept is what the source gives, and every question is answered as if it were the
first. -/
theorem asked_before_same_answer {qs : List Query} {q : Query} (hqs : ∀ q ∈ qs, q.IsAbout s)
    (hq : q.IsAbout s) :
    (s.memoryAfter qs).resolving = [] ∧ (s.memoryAfter qs).IsSound s ∧
      (s.ask (s.memoryAfter qs) q).1 = (s.ask {} q).1 ∧ (s.ask {} q).1 = s.answer q := by
  obtain ⟨hsound, hresolving⟩ := memoryAfter_sound hqs
  have hafter := (ask_sound hq hsound hresolving).1
  have hfirst := (ask_sound hq (Memory.isSound_empty s) rfl).1
  exact ⟨hresolving, hsound, hafter.trans hfirst.symm, hfirst⟩

end Source

section SelfReference

/-- The initial value of the name, in which the name stands. -/
def selfReferringValue : Place := childAt selfReferringDeclarator 2

/-- Questions about the block `{ const a = true || a }`. -/
def askedBefore : List Query :=
  [.value selfReferringBlock, .reference selfReference, .value selfReference,
    .constant selfReferringBinding, .imported selfReference]

/-- The initial value is known from its left operand, also when its name has been followed before. -/
theorem selfReferring_answered_alike :
    (∀ q ∈ askedBefore, q.IsAbout selfReferring) ∧ selfReferringValue ∈ selfReferring.places ∧
    (selfReferring.memoryAfter askedBefore).resolving = [] ∧
    (selfReferring.ask (selfReferring.memoryAfter askedBefore) (.value selfReferringValue)).1 =
      .value (.ok (.bool true)) ∧
    (selfReferring.ask {} (.value selfReferringValue)).1 = .value (.ok (.bool true)) := by
  have hblock : selfReferringBlock ∈ selfReferring.places :=
    List.mem_of_getElem? (show selfReferring.places[1]? = some selfReferringBlock by cbv)
  have hvalue : selfReferringValue ∈ selfReferring.places :=
    List.mem_of_getElem? (show selfReferring.places[8]? = some selfReferringValue by cbv)
  have hname : selfReference ∈ selfReferring.places :=
    List.mem_of_getElem? (show selfReferring.places[11]? = some selfReference by cbv)
  have hqs : ∀ q ∈ askedBefore, q.IsAbout selfReferring := by
    simp [askedBefore, Query.IsAbout, hblock, hname]
  have ho : selfReferringValue.field? "operator" = some (childAt selfReferringValue 1) := by cbv
  have hl : selfReferringValue.field? "left" = some (childAt selfReferringValue 0) := by cbv
  have hr : selfReferringValue.field? "right" = some (childAt selfReferringValue 2) := by cbv
  have hfold : selfReferring.fold selfReferringValue = .ok (.bool true) :=
    Source.fold_of_derives hvalue (.left (by cbv) ho hl hr (.yes (by cbv)) (by cbv))
  obtain ⟨hresolving, -, hafter, hfirst⟩ :=
    Source.asked_before_same_answer (q := .value selfReferringValue) hqs hvalue
  have hanswer : selfReferring.answer (.value selfReferringValue) = .value (.ok (.bool true)) := by
    rw [Source.answer, hfold]
  exact ⟨hqs, hvalue, hresolving, hafter.trans (hfirst.trans hanswer), hfirst.trans hanswer⟩

end SelfReference

end MessageExtraction
