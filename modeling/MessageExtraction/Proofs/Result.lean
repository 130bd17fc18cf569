import MessageExtraction.Fault
import Mathlib.Data.List.Forall2

namespace MessageExtraction

variable {ε ε' α β : Type}

/-- A sequence of two computations succeeds iff both do, the second on what the first gives. -/
theorem bind_eq_ok {x : Except ε α} {f : α → Except ε β} {b : β} :
    (x >>= f) = .ok b ↔ ∃ a, x = .ok a ∧ f a = .ok b := by
  cases x <;> simp [bind, Except.bind]

/-- A sequence of two computations fails where the first does, or else where the second does on what the
first gives. -/
theorem bind_eq_error {x : Except ε α} {f : α → Except ε β} {e : ε} :
    (x >>= f) = .error e ↔ x = .error e ∨ ∃ a, x = .ok a ∧ f a = .error e := by
  cases x <;> simp [bind, Except.bind]

theorem map_eq_ok {x : Except ε α} {f : α → β} {b : β} : x.map f = .ok b ↔ ∃ a, x = .ok a ∧ f a = b := by
  cases x <;> simp [Except.map]

theorem ok_bind (a : α) (f : α → Except ε β) : (Except.ok a >>= f) = f a := rfl

theorem error_bind (e : ε) (f : α → Except ε β) : (Except.error e >>= f) = .error e := rfl

theorem pure_eq_ok {a b : α} : (pure a : Except ε α) = .ok b ↔ a = b := by
  simp [pure, Except.pure]

theorem throw_ne_ok {e : ε} {a : α} : (throw e : Except ε α) ≠ .ok a := by
  simp [throw, throwThe, MonadExceptOf.throw]

theorem mapError_eq_ok_iff {x : Except ε α} {a : α} (f : ε → ε') :
    x.mapError f = .ok a ↔ x = .ok a := by
  cases x <;> simp [Except.mapError]

@[simp] theorem run_liftExcept_ok {σ : Type} (a : α) (s : σ) :
    (liftExcept (.ok a : Except ε α) : EStateM ε σ α).run s = .ok a s := rfl

@[simp] theorem run_liftExcept_error {σ : Type} (e : ε) (s : σ) :
    (liftExcept (.error e : Except ε α) : EStateM ε σ α).run s = .error e s := rfl

/-- A list of computations succeeds iff each of them does. -/
theorem mapM_eq_ok {f : α → Except ε β} {l : List α} {l' : List β} :
    l.mapM f = .ok l' ↔ List.Forall₂ (fun a b ↦ f a = .ok b) l l' := by
  induction l generalizing l' with
  | nil => rw [List.mapM_nil, pure_eq_ok, List.forall₂_nil_left_iff, eq_comm]
  | cons a l ih =>
    rw [List.mapM_cons, bind_eq_ok, List.forall₂_cons_left_iff]
    constructor
    · rintro ⟨b, hb, h⟩
      obtain ⟨bs, hbs, h⟩ := bind_eq_ok.mp h
      exact ⟨b, bs, hb, ih.mp hbs, (pure_eq_ok.mp h).symm⟩
    · rintro ⟨b, bs, hb, hbs, rfl⟩
      exact ⟨b, hb, bind_eq_ok.mpr ⟨bs, ih.mpr hbs, rfl⟩⟩

/-- A list of computations fails as the first of them does that fails. -/
theorem mapM_eq_error {f : α → Except ε β} {l : List α} {e : ε} :
    l.mapM f = .error e ↔
      ∃ before a after bs, l = before ++ a :: after ∧ before.mapM f = .ok bs ∧ f a = .error e := by
  constructor
  · intro h
    induction l with
    | nil => cases h
    | cons a l ih =>
      rw [List.mapM_cons, bind_eq_error] at h
      obtain h | ⟨b, hb, h⟩ := h
      · exact ⟨[], a, l, [], rfl, rfl, h⟩
      · obtain h | ⟨bs, -, h⟩ := bind_eq_error.mp h
        · obtain ⟨before, a', after, bs, rfl, hbs, ha'⟩ := ih h
          refine ⟨a :: before, a', after, b :: bs, rfl, ?_, ha'⟩
          exact mapM_eq_ok.mpr (.cons hb (mapM_eq_ok.mp hbs))
        · cases h
  · rintro ⟨before, a, after, bs, rfl, hbs, ha⟩
    rw [List.mapM_append, List.mapM_cons, hbs, ok_bind, ha]
    rfl

/-- A run over a list fails as the first step does that fails. -/
theorem foldlM_eq_error {f : β → α → Except ε β} {l : List α} {b : β} {e : ε} :
    l.foldlM f b = .error e ↔
      ∃ before a after c, l = before ++ a :: after ∧ before.foldlM f b = .ok c ∧ f c a = .error e := by
  constructor
  · intro h
    induction l generalizing b with
    | nil => cases h
    | cons a l ih =>
      rw [List.foldlM_cons, bind_eq_error] at h
      obtain h | ⟨c, hc, h⟩ := h
      · exact ⟨[], a, l, b, rfl, rfl, h⟩
      · obtain ⟨before, a', after, d, rfl, hd, ha'⟩ := ih h
        refine ⟨a :: before, a', after, d, rfl, ?_, ha'⟩
        rw [List.foldlM_cons, hc]
        exact hd
  · rintro ⟨before, a, after, c, rfl, hc, ha⟩
    rw [List.foldlM_append, hc, ok_bind, List.foldlM_cons, ha]
    rfl

theorem exists_mem_of_mapM {f : α → Except ε β} {l : List α} {l' : List β} (h : l.mapM f = .ok l')
    {b : β} (hb : b ∈ l') : ∃ a ∈ l, f a = .ok b := by
  rw [mapM_eq_ok] at h
  induction h with
  | nil => cases hb
  | @cons a c l l' hac _ ih =>
    obtain rfl | hb := List.mem_cons.mp hb
    · exact ⟨a, List.mem_cons_self, hac⟩
    · obtain ⟨a', ha', h'⟩ := ih hb
      exact ⟨a', List.mem_cons_of_mem _ ha', h'⟩

theorem exists_mem_of_forall₂ {R : α → β → Prop} {l : List α} {l' : List β}
    (h : List.Forall₂ R l l') {a : α} (ha : a ∈ l) : ∃ b ∈ l', R a b := by
  obtain ⟨i, hi, rfl⟩ := List.getElem_of_mem ha
  have hi' : i < l'.length := h.length_eq ▸ hi
  exact ⟨l'[i], List.getElem_mem hi', h.get hi hi'⟩

/-- What a list of computations gives is what each of them gives. -/
theorem mem_of_mapM_iff {f : α → Except ε β} {l : List α} {l' : List β} (h : l.mapM f = .ok l')
    {b : β} : b ∈ l' ↔ ∃ a ∈ l, f a = .ok b := by
  refine ⟨exists_mem_of_mapM h, ?_⟩
  intro ⟨a, ha, hb⟩
  rw [mapM_eq_ok] at h
  induction h with
  | nil => cases ha
  | @cons c d l l' hcd _ ih =>
    obtain rfl | ha := List.mem_cons.mp ha
    · rw [Except.ok.inj (hb.symm.trans hcd)]
      exact List.mem_cons_self
    · exact List.mem_cons_of_mem _ (ih ha)

/-- A list of computations succeeds with results of a kind iff each of them does. -/
theorem mapM_ok_forall_iff {f : α → Except ε β} {P : β → Prop} {l : List α} :
    (∃ l', l.mapM f = .ok l' ∧ ∀ b ∈ l', P b) ↔ ∀ a ∈ l, ∃ b, f a = .ok b ∧ P b := by
  simp only [mapM_eq_ok]
  induction l with
  | nil => simp
  | cons a l ih =>
    rw [List.forall_mem_cons, ← ih]
    constructor
    · rintro ⟨l', hl', hP⟩
      obtain ⟨b, bs, hb, hbs, rfl⟩ := List.forall₂_cons_left_iff.mp hl'
      exact ⟨⟨b, hb, hP b List.mem_cons_self⟩, bs, hbs, fun c hc ↦ hP c (List.mem_cons_of_mem _ hc)⟩
    · rintro ⟨⟨b, hb, hPb⟩, bs, hbs, hP⟩
      exact ⟨b :: bs, .cons hb hbs, List.forall_mem_cons.mpr ⟨hPb, hP⟩⟩

theorem exists_mapM_eq_ok_iff {f : α → Except ε β} {l : List α} :
    (∃ l', l.mapM f = .ok l') ↔ ∀ a ∈ l, ∃ b, f a = .ok b := by
  simpa using mapM_ok_forall_iff (f := f) (P := fun _ ↦ True) (l := l)

/-- What one step keeps, a run over a list that succeeds keeps. -/
theorem foldlM_keeps {P : β → Prop} {f : β → α → Except ε β} {l : List α} {b b' : β} (hb : P b)
    (hf : ∀ b a b', a ∈ l → P b → f b a = .ok b' → P b') (h : l.foldlM f b = .ok b') : P b' := by
  induction l generalizing b with
  | nil => exact pure_eq_ok.mp h ▸ hb
  | cons a l ih =>
    rw [List.foldlM_cons] at h
    obtain ⟨c, hc, h⟩ := bind_eq_ok.mp h
    exact ih (hf b a c List.mem_cons_self hb hc)
      (fun b a b' ha ↦ hf b a b' (List.mem_cons_of_mem _ ha)) h

end MessageExtraction
