import MessageExtraction.Proofs.Catalog.Invariant
import MessageExtraction.Proofs.Value.Equality

/-!
Declarations in any order. Whether all of a list of declarations are accepted depends on what each of
them says and on whether those of one id say the same, and on nothing that an order decides. Equality of
data being an equivalence, it does not matter which declaration of an id comes first.
-/

namespace MessageExtraction

section Matching

variable {α β : Type*} {R : α → β → Prop} {l : List α} {l' : List β}

/-- A relation that pairs each item of either list with one of the other, and none with two, pairs the
lists off. -/
theorem exists_perm_forall₂ (hl : l.Pairwise fun a a' ↦ ∀ b, R a b → ¬R a' b)
    (hl' : l'.Pairwise fun b b' ↦ ∀ a, R a b → ¬R a b') (h : ∀ a ∈ l, ∃ b ∈ l', R a b)
    (h' : ∀ b ∈ l', ∃ a ∈ l, R a b) : ∃ bs, bs.Perm l' ∧ List.Forall₂ R l bs := by
  induction l generalizing l' with
  | nil =>
    cases l' with
    | nil => exact ⟨[], .refl _, .nil⟩
    | cons b l' =>
      obtain ⟨a, ha, -⟩ := h' b List.mem_cons_self
      cases ha
  | cons a l ih =>
    rw [List.pairwise_cons] at hl
    obtain ⟨b, hb, hab⟩ := h a List.mem_cons_self
    obtain ⟨xs, ys, rfl⟩ := List.append_of_mem hb
    have hsymm : ∀ {x y}, (∀ a, R a x → ¬R a y) → ∀ a, R a y → ¬R a x := by
      intro x y hxy a hy hx
      exact hxy a hx hy
    obtain ⟨hrest, hl'⟩ := List.pairwise_cons.mp ((List.perm_middle.pairwise_iff hsymm).mp hl')
    -- the others are paired off without `a` and `b`
    have hothers : ∀ a' ∈ l, ∃ b' ∈ xs ++ ys, R a' b' := by
      intro a' ha'
      obtain ⟨b', hb', hab'⟩ := h a' (List.mem_cons_of_mem _ ha')
      obtain rfl | hb' := List.mem_cons.mp (List.perm_middle.mem_iff.mp hb')
      · exact absurd hab' (hl.1 a' ha' b' hab)
      · exact ⟨b', hb', hab'⟩
    have hothers' : ∀ b' ∈ xs ++ ys, ∃ a' ∈ l, R a' b' := by
      intro b' hb'
      obtain ⟨a', ha', hab'⟩ := h' b' (List.perm_middle.mem_iff.mpr (List.mem_cons_of_mem _ hb'))
      obtain rfl | ha' := List.mem_cons.mp ha'
      · exact absurd hab' (hrest b' hb' a' hab)
      · exact ⟨a', ha', hab'⟩
    obtain ⟨bs, hperm, hbs⟩ := ih hl.2 hl' hothers hothers'
    exact ⟨b :: bs, (hperm.cons b).trans List.perm_middle.symm, .cons hab hbs⟩

end Matching

/-- A value that is data without `NaN`. -/
def Value.IsData (v : Value) : Prop := ∃ j : Json, j.isData = true ∧ v = j.toValue

namespace Value.IsData

variable {u v w : Value}

theorem toValue_of_toJson? {j : Json} (hv : v.IsData) (h : v.toJson? = some j) : j.toValue = v := by
  obtain ⟨i, -, rfl⟩ := hv
  rw [Json.toJson?_toValue] at h
  rw [Option.some.inj h]

theorem equal_self (hv : v.IsData) : v.equal v = true := by
  obtain ⟨j, hj, rfl⟩ := hv
  rw [Json.equal_toValue]
  exact Json.same_refl hj

theorem equal_symm (hv : v.IsData) (hw : w.IsData) (h : v.equal w = true) : w.equal v = true := by
  obtain ⟨j, hj, rfl⟩ := hv
  obtain ⟨k, hk, rfl⟩ := hw
  rw [Json.equal_toValue] at h ⊢
  exact Json.same_symm hj hk h

theorem equal_trans (hu : u.IsData) (hv : v.IsData) (hw : w.IsData) (huv : u.equal v = true)
    (hvw : v.equal w = true) : u.equal w = true := by
  obtain ⟨i, -, rfl⟩ := hu
  obtain ⟨j, -, rfl⟩ := hv
  obtain ⟨k, -, rfl⟩ := hw
  rw [Json.equal_toValue] at huv hvw ⊢
  exact Json.same_trans huv hvw

end Value.IsData

/-- A descriptor whose fields are data without `NaN`. -/
structure Descriptor.IsData (d : Descriptor) : Prop where
  id : d.id.IsData
  description : d.description.IsData
  defaultMessage : d.defaultMessage.IsData

/-- Whether two descriptors say the same of their messages. -/
def Descriptor.agrees (d e : Descriptor) : Bool :=
  d.description.equal e.description && d.defaultMessage.equal e.defaultMessage

namespace Descriptor.IsData

variable {d e f : Descriptor}

theorem agrees_self (hd : d.IsData) : d.agrees d = true := by
  rw [agrees, Bool.and_eq_true]
  exact ⟨hd.description.equal_self, hd.defaultMessage.equal_self⟩

theorem agrees_symm (hd : d.IsData) (he : e.IsData) (h : d.agrees e = true) : e.agrees d = true := by
  rw [agrees, Bool.and_eq_true] at h ⊢
  exact ⟨hd.description.equal_symm he.description h.1,
    hd.defaultMessage.equal_symm he.defaultMessage h.2⟩

theorem agrees_trans (hd : d.IsData) (he : e.IsData) (hf : f.IsData) (hde : d.agrees e = true)
    (hef : e.agrees f = true) : d.agrees f = true := by
  rw [agrees, Bool.and_eq_true] at hde hef ⊢
  exact ⟨hd.description.equal_trans he.description hf.description hde.1 hef.1,
    hd.defaultMessage.equal_trans he.defaultMessage hf.defaultMessage hde.2 hef.2⟩

end Descriptor.IsData

theorem MessageId.toValue_of_ofValue? {v : Value} {i : MessageId} (h : ofValue? v = some i) :
    i.toValue = v := by
  cases v with
  | text t =>
    rw [ofValue?] at h
    split at h
    · cases h
    · cases h
      rfl
  | int | float | nan =>
    cases h
    rfl
  | _ => cases h

/-- Two messages of one id that say the same, wherever they were found. -/
structure Message.SaysSame (m m' : Message) : Prop where
  id : m.id.same m'.id = true
  description : m.description.toValue.equal m'.description.toValue = true
  defaultMessage : m.defaultMessage = m'.defaultMessage

theorem Catalog.eq_of_equal_textValue {t t' : Option Text}
    (h : (textValue t).equal (textValue t') = true) : t = t' := by
  cases t <;> cases t' <;> first | rfl | cases h | exact congrArg some (beq_iff_eq.mp h)

theorem Catalog.exists_textValue_of_equal {t : Option Text} {v : Value}
    (h : (textValue t).equal v = true) : ∃ t', v = textValue t' := by
  cases t <;> cases v <;> first | exact ⟨none, rfl⟩ | exact ⟨some _, rfl⟩ | cases h

theorem Catalog.exists_store {d : Descriptor} (hd : d.IsData)
    (ht : ∃ t, d.defaultMessage = textValue t) (s : Source) (o : Options) (id : MessageId)
    (p : Place) : ∃ m, store s o id d p = .ok m := by
  obtain ⟨j, -, hj⟩ := hd.description
  obtain ⟨t, ht⟩ := ht
  have hjson : storedJson d.description = .ok j := by
    rw [storedJson_eq_ok_iff, hj, Json.toJson?_toValue]
  rw [store, hjson, ok_bind, storedText_eq_ok_iff.mpr ht, ok_bind]
  split <;> exact ⟨_, rfl⟩

namespace Declaration

variable {s : Source} {o : Options} {d e : Declaration} {ds : List Declaration} {m m' : Message}

theorem sameId_comm (d e : Declaration) : d.sameId e = e.sameId d := by
  rw [sameId, sameId]
  cases d.id? <;> cases e.id? <;> first | rfl | exact MessageId.same_comm _ _

theorem mem_of_mem_firsts (h : d ∈ firsts ds) : d ∈ ds := by
  induction ds with
  | nil => exact h
  | cons e ds ih =>
    rw [firsts, List.mem_cons] at h
    rw [List.mem_cons]
    exact h.imp_right fun h ↦ ih (List.mem_filter.mp h).1

theorem sameId_iff {i j : MessageId} (hi : d.id? = some i) (hj : e.id? = some j) :
    d.sameId e = i.same j := by
  rw [sameId, hi, hj]

/-- A descriptor agrees with a stored message iff it says what the stored one did. -/
theorem IsStoredAs.agrees_eq (h : d.IsStoredAs s o m) (hd : d.descriptor.IsData) (e : Descriptor) :
    Catalog.agrees m e = d.descriptor.agrees e := by
  rw [Catalog.agrees, Descriptor.agrees, hd.description.toValue_of_toJson? h.description,
    h.defaultMessage]

theorem IsStoredAs.saysSame (h : d.IsStoredAs s o m) (h' : e.IsStoredAs s o m')
    (hd : d.descriptor.IsData) (he : e.descriptor.IsData) (hid : d.sameId e = true)
    (hagrees : d.descriptor.agrees e.descriptor = true) : m.SaysSame m' := by
  rw [Descriptor.agrees, Bool.and_eq_true] at hagrees
  refine ⟨?_, ?_, ?_⟩
  · rw [← sameId_iff h.id h'.id]
    exact hid
  · rw [hd.description.toValue_of_toJson? h.description,
      he.description.toValue_of_toJson? h'.description]
    exact hagrees.1
  · have htext := hagrees.2
    rw [h.defaultMessage, h'.defaultMessage] at htext
    exact Catalog.eq_of_equal_textValue htext

/-- What makes a list of declarations acceptable: each is by itself, and any two of one id say the
same. -/
structure Consistent (o : Options) (ds : List Declaration) : Prop where
  ids : ∀ d ∈ ds, ∃ i, d.id? = some i
  described : o.enforceDescriptions = true →
    ∀ d ∈ ds, Catalog.isMissing d.descriptor.description = false
  texts : ∀ d ∈ ds, ∃ t, d.descriptor.defaultMessage = Catalog.textValue t
  agree : ∀ d ∈ ds, ∀ e ∈ ds, d.sameId e = true → d.descriptor.agrees e.descriptor = true

theorem consistent_nil (o : Options) : Consistent o [] := by
  constructor <;> simp

/-- Without `NaN` an id is the same as itself. -/
theorem Consistent.sameId_self (h : Consistent o ds) (hd : d ∈ ds) (hdata : d.descriptor.IsData) :
    d.sameId d = true := by
  obtain ⟨i, hi⟩ := h.ids d hd
  obtain ⟨j, hj, heq⟩ := hdata.id
  rw [sameId_iff hi hi, MessageId.same, MessageId.toValue_of_ofValue? hi, heq]
  exact Json.same_refl hj

theorem Consistent.of_subset {ds' : List Declaration} (h : Consistent o ds) (hds : ds' ⊆ ds) :
    Consistent o ds' where
  ids d hd := h.ids d (hds hd)
  described ho d hd := h.described ho d (hds hd)
  texts d hd := h.texts d (hds hd)
  agree d hd e he := h.agree d (hds hd) e (hds he)

/-- One more declaration is acceptable if it says the same as some one of its id, there being any. -/
theorem Consistent.append (h : Consistent o ds) (hdata : ∀ e ∈ ds, e.descriptor.IsData)
    (hd : d.descriptor.IsData) (hid : ∃ i, d.id? = some i)
    (hdescribed : o.enforceDescriptions = true →
      Catalog.isMissing d.descriptor.description = false)
    (htext : ∃ t, d.descriptor.defaultMessage = Catalog.textValue t)
    (hagree : (∃ e ∈ ds, e.sameId d = true) →
      ∃ e ∈ ds, e.sameId d = true ∧ e.descriptor.agrees d.descriptor = true) :
    Consistent o (ds ++ [d]) := by
  have hold (e) (he : e ∈ ds) (hsame : e.sameId d = true) :
      e.descriptor.agrees d.descriptor = true := by
    obtain ⟨f, hf, hfid, hfd⟩ := hagree ⟨e, he, hsame⟩
    have hef := h.agree e he f hf (sameId_trans hsame (sameId_comm f d ▸ hfid))
    exact (hdata e he).agrees_trans (hdata f hf) hd hef hfd
  refine ⟨?_, ?_, ?_, ?_⟩
  · simpa [or_imp, forall_and] using ⟨h.ids, hid⟩
  · simpa [or_imp, forall_and] using ⟨h.described, hdescribed⟩
  · simpa [or_imp, forall_and] using ⟨h.texts, htext⟩
  · intro e he f hf hsame
    simp only [List.mem_append, List.mem_singleton] at he hf
    obtain he | rfl := he <;> obtain hf | rfl := hf
    · exact h.agree e he f hf hsame
    · exact hold e he hsame
    · exact (hdata f hf).agrees_symm hd (hold f hf (sameId_comm e f ▸ hsame))
    · exact hd.agrees_self

theorem exists_mem_of_perm {ds' : List Declaration}
    (hperm : (ds.map (·.descriptor)).Perm (ds'.map (·.descriptor))) (d' : Declaration)
    (hd' : d' ∈ ds') : ∃ d ∈ ds, d.descriptor = d'.descriptor :=
  List.mem_map.mp (hperm.mem_iff.mpr (List.mem_map_of_mem hd'))

theorem isData_of_perm {ds' : List Declaration}
    (hperm : (ds.map (·.descriptor)).Perm (ds'.map (·.descriptor)))
    (hdata : ∀ d ∈ ds, d.descriptor.IsData) : ∀ d' ∈ ds', d'.descriptor.IsData := by
  intro d' hd'
  obtain ⟨d, hd, heq⟩ := exists_mem_of_perm hperm d' hd'
  exact heq ▸ hdata d hd

theorem Consistent.of_perm {ds' : List Declaration} (h : Consistent o ds)
    (hperm : (ds.map (·.descriptor)).Perm (ds'.map (·.descriptor))) : Consistent o ds' := by
  have hmem := exists_mem_of_perm hperm
  refine ⟨fun d' hd' ↦ ?_, fun ho d' hd' ↦ ?_, fun d' hd' ↦ ?_, fun d' hd' e' he' hid ↦ ?_⟩
  · obtain ⟨d, hd, heq⟩ := hmem d' hd'
    rw [id?, ← heq]
    exact h.ids d hd
  · obtain ⟨d, hd, heq⟩ := hmem d' hd'
    rw [← heq]
    exact h.described ho d hd
  · obtain ⟨d, hd, heq⟩ := hmem d' hd'
    rw [← heq]
    exact h.texts d hd
  · obtain ⟨d, hd, hdeq⟩ := hmem d' hd'
    obtain ⟨e, he, heeq⟩ := hmem e' he'
    rw [← hdeq, ← heeq]
    refine h.agree d hd e he ?_
    rw [sameId, id?, id?, hdeq, heeq]
    exact hid

end Declaration

namespace Catalog

open Declaration

variable {s : Source} {o : Options} {c c' : Catalog} {hs ds : List Declaration} {d : Declaration}
  {m : Message}

/-- Puts declarations one after the other; the first that is refused ends it. -/
def putAll (s : Source) (o : Options) (c : Catalog) : List Declaration → Except Failure Catalog
  | [] => .ok c
  | d :: ds =>
    match c.put s o d.descriptor d.place with
    | .ok _ c' => c'.putAll s o ds
    | .error f _ => .error f

theorem putAll_cons_eq_ok {c'' : Catalog} : c.putAll s o (d :: ds) = .ok c'' ↔
    ∃ m c', c.put s o d.descriptor d.place = .ok m c' ∧ c'.putAll s o ds = .ok c'' := by
  rw [putAll]
  cases c.put s o d.descriptor d.place <;> simp

theorem Records.putAll (h : c.Records s o hs) (hputs : c.putAll s o ds = .ok c') :
    c'.Records s o (hs ++ ds) := by
  induction ds generalizing c hs with
  | nil =>
    cases hputs
    rw [List.append_nil]
    exact h
  | cons d ds ih =>
    obtain ⟨m, c₁, hput, hputs⟩ := putAll_cons_eq_ok.mp hputs
    have := ih (h.put hput) hputs
    rwa [List.append_assoc] at this

/-- The entry of an id is that of the first declaration of the id. -/
theorem Holds.exists_of_find? {e : Entry} {id : MessageId} (h : c.Holds s o hs)
    (hid : d.id? = some id) (he : c.find? id.toValue = some e) :
    ∃ f ∈ hs, f.sameId d = true ∧ f.IsStoredAs s o e.message := by
  obtain ⟨f, hf, hentry⟩ := exists_mem_of_forall₂ h.flip (List.mem_of_find?_eq_some he)
  refine ⟨f, mem_of_mem_firsts hf, ?_, hentry.1⟩
  have hsame := List.find?_some he
  rw [sameId_iff hentry.1.id hid]
  exact hsame

/-- A declaration is accepted iff it is acceptable together with those before it. -/
theorem Holds.exists_put_iff (h : c.Holds s o hs) (hdata : ∀ f ∈ hs, f.descriptor.IsData)
    (hd : d.descriptor.IsData) (hconsistent : Consistent o hs) :
    (∃ m c', c.put s o d.descriptor d.place = .ok m c') ↔ Consistent o (hs ++ [d]) := by
  constructor
  · rintro ⟨m, c', hput⟩
    obtain ⟨id, hid, hdescribed, hcases⟩ := put_cases hput
    obtain ⟨e, he, ha, -⟩ | ⟨hnone, hm, -⟩ := hcases
    · obtain ⟨f, hf, hfid, hstored⟩ := h.exists_of_find? hid he
      rw [hstored.agrees_eq (hdata f hf)] at ha
      refine hconsistent.append hdata hd ⟨id, hid⟩ hdescribed ?_ fun _ ↦ ⟨f, hf, hfid, ha⟩
      obtain ⟨t, ht⟩ := hconsistent.texts f hf
      rw [Descriptor.agrees, ht, Bool.and_eq_true] at ha
      exact exists_textValue_of_equal ha.2
    · have hstored := isStoredAs_of_store hid hm
      refine hconsistent.append hdata hd ⟨id, hid⟩ hdescribed ⟨_, hstored.defaultMessage⟩ ?_
      intro hany
      have hfind := h.find?_isSome hid
      rw [hnone, List.any_eq_true.mpr hany] at hfind
      cases hfind
  · intro hall
    have hlast : d ∈ hs ++ [d] := List.mem_append_right _ (List.mem_singleton_self d)
    obtain ⟨id, hid⟩ := hall.ids d hlast
    have hdescribed : (o.enforceDescriptions && isMissing d.descriptor.description) = false := by
      cases ho : o.enforceDescriptions with
      | false => rfl
      | true => exact hall.described ho d hlast
    cases he : c.find? id.toValue with
    | some e =>
      obtain ⟨f, hf, hfid, hstored⟩ := h.exists_of_find? hid he
      have ha := hall.agree f (List.mem_append_left _ hf) d hlast hfid
      rw [← hstored.agrees_eq (hdata f hf)] at ha
      exact ⟨_, _, put_of_stored hid he ha hdescribed⟩
    | none =>
      rw [put_of_new hid he hdescribed]
      obtain ⟨m, hm⟩ := exists_store hd (hall.texts d hlast) s o id d.place
      exact ⟨m, _, by rw [hm]⟩

/-- The declarations of a list are all accepted iff they are consistent. -/
theorem Records.exists_putAll_iff (h : c.Records s o hs)
    (hdata : ∀ f ∈ hs ++ ds, f.descriptor.IsData) (hconsistent : Consistent o hs) :
    (∃ c', c.putAll s o ds = .ok c') ↔ Consistent o (hs ++ ds) := by
  induction ds generalizing c hs with
  | nil =>
    rw [List.append_nil]
    exact ⟨fun _ ↦ hconsistent, fun _ ↦ ⟨c, rfl⟩⟩
  | cons d ds ih =>
    have hassoc : hs ++ d :: ds = hs ++ [d] ++ ds := by rw [List.append_assoc]; rfl
    rw [hassoc] at hdata ⊢
    have hput := h.holds.exists_put_iff (fun f hf ↦ hdata f (by simp [hf]))
      (hdata d (by simp)) hconsistent
    constructor
    · rintro ⟨c'', hputs⟩
      obtain ⟨m, c', hd, hputs⟩ := putAll_cons_eq_ok.mp hputs
      exact (ih (h.put hd) hdata (hput.mp ⟨m, c', hd⟩)).mp ⟨c'', hputs⟩
    · intro hall
      have hfirst := hall.of_subset (List.subset_append_left (hs ++ [d]) ds)
      obtain ⟨m, c', hd⟩ := hput.mpr hfirst
      obtain ⟨c'', hputs⟩ := (ih (h.put hd) hdata hfirst).mpr hall
      exact ⟨c'', putAll_cons_eq_ok.mpr ⟨m, c', hd, hputs⟩⟩

/-- What is stored of a declaration says the same as what another history stores for its id. -/
theorem Records.exists_saysSame (h : c.Records s o ds) {ds' : List Declaration}
    (h' : c'.Records s o ds') (hdata : ∀ d ∈ ds, d.descriptor.IsData)
    (hconsistent : Consistent o ds') (hperm : (ds.map (·.descriptor)).Perm (ds'.map (·.descriptor)))
    (hm : m ∈ c.messages) : ∃ m' ∈ c'.messages, m.SaysSame m' ∧ m'.SaysSame m := by
  obtain ⟨d, hd, hstored⟩ := exists_mem_of_forall₂ h.holds.messages.flip hm
  have hd := mem_of_mem_firsts hd
  obtain ⟨d', hd', heq⟩ := exists_mem_of_perm hperm.symm d hd
  have hdata' := isData_of_perm hperm hdata
  have hid : d'.id? = some m.id := by
    rw [id?, heq]
    exact hstored.id
  -- the first declaration of the id in the other history
  have hany : (firsts ds').any (·.sameId d') = true := by
    rw [any_firsts, List.any_eq_true]
    exact ⟨d', hd', hconsistent.sameId_self hd' (hdata' d' hd')⟩
  obtain ⟨f, hf, hfid⟩ := List.any_eq_true.mp hany
  obtain ⟨m', hm', hstored'⟩ := exists_mem_of_forall₂ h'.holds.messages hf
  have hf := mem_of_mem_firsts hf
  have hagrees := hconsistent.agree f hf d' hd' hfid
  have hfid : f.sameId d = true := by
    rw [sameId, id?, id?, ← heq]
    exact hfid
  rw [heq] at hagrees
  refine ⟨m', hm', ?_, hstored'.saysSame hstored (hdata' f hf) (hdata d hd) hfid hagrees⟩
  exact hstored.saysSame hstored' (hdata d hd) (hdata' f hf) (sameId_comm f d ▸ hfid)
    ((hdata' f hf).agrees_symm (hdata d hd) hagrees)

theorem Records.unshared (h : c.Records s o ds) :
    c.messages.Pairwise fun m n ↦ ∀ m' : Message, m.SaysSame m' → ¬n.SaysSame m' := by
  refine h.distinct.imp fun hdistinct m' hm hn ↦ ?_
  rw [MessageId.same_trans hm.id (MessageId.same_comm _ _ ▸ hn.id)] at hdistinct
  cases hdistinct

theorem Records.unshared_right (h : c.Records s o ds) :
    c.messages.Pairwise fun m n ↦ ∀ m' : Message, m'.SaysSame m → ¬m'.SaysSame n := by
  refine h.distinct.imp fun hdistinct m' hm hn ↦ ?_
  rw [MessageId.same_trans (MessageId.same_comm _ _ ▸ hm.id) hn.id] at hdistinct
  cases hdistinct

/-- Whatever the order of declarations of data, and wherever they stand, all are accepted if all are in
one order, and the catalogs say the same. -/
theorem putAll_of_perm {ds' : List Declaration} (hdata : ∀ d ∈ ds, d.descriptor.IsData)
    (hperm : (ds.map (·.descriptor)).Perm (ds'.map (·.descriptor)))
    (hputs : empty.putAll s o ds = .ok c) :
    ∃ c', empty.putAll s o ds' = .ok c' ∧
      ∃ ms, ms.Perm c'.messages ∧ List.Forall₂ Message.SaysSame c.messages ms := by
  have hdata' := isData_of_perm hperm hdata
  have hempty := records_empty s o
  have hconsistent : Consistent o ds :=
    (hempty.exists_putAll_iff hdata (consistent_nil o)).mp ⟨c, hputs⟩
  have hconsistent' := hconsistent.of_perm hperm
  obtain ⟨c', hputs'⟩ := (hempty.exists_putAll_iff hdata' (consistent_nil o)).mpr hconsistent'
  have hc : c.Records s o ds := hempty.putAll hputs
  have hc' : c'.Records s o ds' := hempty.putAll hputs'
  refine ⟨c', hputs', exists_perm_forall₂ hc.unshared hc'.unshared_right ?_ ?_⟩
  · intro m hm
    obtain ⟨m', hm', hsame, -⟩ := hc.exists_saysSame hc' hdata hconsistent' hperm hm
    exact ⟨m', hm', hsame⟩
  · intro m' hm'
    obtain ⟨m, hm, -, hsame⟩ := hc'.exists_saysSame hc hdata' hconsistent hperm.symm hm'
    exact ⟨m, hm, hsame⟩

section TwoSpellings

/-- A message whose id is the number one and whose description holds a two and a truth value. -/
def wholeSpelling : Json × Json := (.int 1, .object [("a", .int 2), ("b", .bool true)])

/-- The same in doubles, with the members of the description the other way round. -/
def doubleSpelling : Json × Json := (.float 1, .object [("b", .float 1), ("a", .float 2)])

def declares (spelling : Json × Json) (p : Place) : Declaration :=
  ⟨⟨spelling.1.toValue, spelling.2.toValue, .text "Hi"⟩, p, none⟩

theorem isData_declares {spelling : Json × Json} (p : Place) (hid : spelling.1.isData = true)
    (hdescription : spelling.2.isData = true) : (declares spelling p).descriptor.IsData :=
  ⟨⟨_, hid, rfl⟩, ⟨_, hdescription, rfl⟩, ⟨.text "Hi", rfl, rfl⟩⟩

def emptySource : Source := ⟨"a.js", "/proj/a.js", [], default, false⟩

theorem putAll_twoSpellings : ∃ c c',
    empty.putAll emptySource .standard [declares wholeSpelling default,
      declares doubleSpelling default] = .ok c ∧
    empty.putAll emptySource .standard [declares doubleSpelling default,
      declares wholeSpelling default] = .ok c' ∧
    ∃ ms, ms.Perm c'.messages ∧ List.Forall₂ Message.SaysSame c.messages ms := by
  have haccepted : (empty.putAll emptySource .standard [declares wholeSpelling default,
      declares doubleSpelling default]).isOk = true := by decide +kernel
  cases hc : empty.putAll emptySource .standard [declares wholeSpelling default,
      declares doubleSpelling default] with
  | error f =>
    rw [hc] at haccepted
    cases haccepted
  | ok c =>
    refine ⟨c, (putAll_of_perm ?_ ((List.Perm.swap _ _ []).map _) hc).imp fun c' h ↦ ⟨rfl, h⟩⟩
    rw [List.forall_mem_cons, List.forall_mem_singleton]
    exact ⟨isData_declares _ (by decide) (by decide), isData_declares _ (by decide) (by decide)⟩

end TwoSpellings

end Catalog

end MessageExtraction
