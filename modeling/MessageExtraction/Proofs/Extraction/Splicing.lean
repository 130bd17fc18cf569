import Mathlib.Data.List.Nodup
import MessageExtraction.Extraction.State

/-!
Spans that are cut out of a text one after the other, from the last to the first, each where it
stood in the whole text. What is left is the text without them unless two of them share a byte and
something stands behind.
-/

namespace MessageExtraction.Extraction

variable {spans : List (Nat × Nat)} {bytes : Bytes} {k i : Nat}

def covers (span : Nat × Nat) (i : Nat) : Bool := span.1 ≤ i && i < span.2

def isCovered (spans : List (Nat × Nat)) (i : Nat) : Bool := spans.any (covers · i)

/-- The bytes that no span holds, where the first of them stands at a given position. -/
def keptFrom (spans : List (Nat × Nat)) (k : Nat) (bytes : Bytes) : Bytes :=
  ((bytes.zipIdx k).filter fun b ↦ !isCovered spans b.2).map Prod.fst

theorem covers_iff {span : Nat × Nat} : covers span i = true ↔ span.1 ≤ i ∧ i < span.2 := by
  simp [covers]

theorem isCovered_iff : isCovered spans i = true ↔ ∃ u ∈ spans, u.1 ≤ i ∧ i < u.2 := by
  simp [isCovered, covers]

theorem keptFrom_cons (b : UInt8) : keptFrom spans k (b :: bytes) =
    if isCovered spans k = true then keptFrom spans (k + 1) bytes
    else b :: keptFrom spans (k + 1) bytes := by
  cases h : isCovered spans k <;> simp [keptFrom, List.zipIdx_cons, h]

theorem keptFrom_split (spans : List (Nat × Nat)) (k n : Nat) (bytes : Bytes) :
    keptFrom spans k bytes =
      keptFrom spans k (bytes.take n) ++ keptFrom spans (k + n) (bytes.drop n) := by
  induction n generalizing k bytes with
  | zero => simp [keptFrom]
  | succ n ih =>
    cases bytes with
    | nil => rfl
    | cons b bytes =>
      have hnext : k + 1 + n = k + (n + 1) := by omega
      rw [List.take_succ_cons, List.drop_succ_cons, keptFrom_cons, keptFrom_cons, ih (k + 1), hnext]
      split <;> rfl

theorem keptFrom_eq_self (h : ∀ i, k ≤ i → i < k + bytes.length → isCovered spans i = false) :
    keptFrom spans k bytes = bytes := by
  induction bytes generalizing k with
  | nil => rfl
  | cons b bytes ih =>
    rw [List.length_cons] at h
    rw [keptFrom_cons, h k (Nat.le_refl k) (by omega), if_neg Bool.false_ne_true,
      ih fun i hk hi ↦ h i (by omega) (by omega)]

theorem keptFrom_eq_nil_iff :
    keptFrom spans k bytes = [] ↔ ∀ i, k ≤ i → i < k + bytes.length → isCovered spans i = true := by
  induction bytes generalizing k with
  | nil =>
    refine ⟨fun _ i hk hi ↦ ?_, fun _ ↦ rfl⟩
    rw [List.length_nil] at hi
    omega
  | cons b bytes ih =>
    rw [keptFrom_cons, List.length_cons]
    cases hc : isCovered spans k with
    | true =>
      rw [if_pos rfl, ih]
      constructor
      · intro h i hk hi
        by_cases hik : i = k
        · rw [hik, hc]
        · exact h i (by omega) (by omega)
      · intro h i hk hi
        exact h i (by omega) (by omega)
    | false =>
      rw [if_neg Bool.false_ne_true]
      refine ⟨fun h ↦ (List.cons_ne_nil _ _ h).elim, fun h ↦ ?_⟩
      rw [h k (Nat.le_refl k) (by omega)] at hc
      cases hc

theorem length_keptFrom_le (spans : List (Nat × Nat)) (k : Nat) (bytes : Bytes) :
    (keptFrom spans k bytes).length ≤ bytes.length := by
  rw [keptFrom, List.length_map]
  exact Nat.le_trans (List.length_filter_le _ _) (Nat.le_of_eq List.length_zipIdx)

theorem length_keptFrom_lt (hk : k ≤ i) (hi : i < k + bytes.length)
    (hc : isCovered spans i = true) : (keptFrom spans k bytes).length < bytes.length := by
  induction bytes generalizing k with
  | nil =>
    rw [List.length_nil] at hi
    omega
  | cons b bytes ih =>
    rw [List.length_cons] at hi
    have hle := length_keptFrom_le spans (k + 1) bytes
    rw [keptFrom_cons]
    split
    · rw [List.length_cons]
      omega
    · rename_i hnot
      have hne : i ≠ k := by
        rintro rfl
        exact hnot hc
      have := ih (k := k + 1) (by omega) (by omega)
      rw [List.length_cons, List.length_cons]
      omega

theorem keptFrom_congr {spans' : List (Nat × Nat)}
    (h : ∀ i, k ≤ i → i < k + bytes.length → isCovered spans i = isCovered spans' i) :
    keptFrom spans k bytes = keptFrom spans' k bytes := by
  induction bytes generalizing k with
  | nil => rfl
  | cons b bytes ih =>
    rw [List.length_cons] at h
    rw [keptFrom_cons, keptFrom_cons, h k (Nat.le_refl k) (by omega),
      ih fun i hk hi ↦ h i (by omega) (by omega)]

/-- Cuts spans out of a text, the last of the list first. -/
def splice (spans : List (Nat × Nat)) (bytes : Bytes) : Bytes :=
  spans.foldr (fun u b ↦ cut b u) bytes

/-- Spans that share a byte have nothing behind them that is left. -/
def Untangled (spans : List (Nat × Nat)) (length : Nat) : Prop :=
  ∀ u ∈ spans, ∀ v ∈ spans, u ≠ v → (∃ i, covers u i = true ∧ covers v i = true) →
    ∀ i, u.2 ≤ i → i < length → isCovered spans i = true

theorem cut_eq (b : Bytes) {u : Nat × Nat} (hu : u.1 ≤ u.2) :
    cut b u = b.take u.1 ++ (b.drop u.1).drop (u.2 - u.1) := by
  rw [cut, List.drop_drop, Nat.add_sub_cancel' hu]

theorem take_cut {b : Bytes} {u : Nat × Nat} {n : Nat} (hu : u.1 ≤ u.2) (hn : n ≤ u.1) :
    (cut b u).take n = b.take n := by
  rw [cut, List.take_append, List.take_take, Nat.min_eq_left hn, List.length_take]
  by_cases hb : u.1 ≤ b.length
  · have hzero : n - min u.1 b.length = 0 := by omega
    rw [hzero, List.take_zero, List.append_nil]
  · rw [List.drop_eq_nil_of_le (by omega), List.take_nil, List.append_nil]

theorem take_splice {n : Nat} (hforward : ∀ u ∈ spans, u.1 ≤ u.2) (hn : ∀ u ∈ spans, n ≤ u.1) :
    (splice spans bytes).take n = bytes.take n := by
  induction spans with
  | nil => rfl
  | cons u spans ih =>
    rw [List.forall_mem_cons] at hforward hn
    rw [splice, List.foldr_cons, take_cut hforward.1 hn.1]
    exact ih hforward.2 hn.2

section Step

variable {a : Nat × Nat} {rest : List (Nat × Nat)}

/-- What other spans leave between the ends of a span. -/
def between (rest : List (Nat × Nat)) (a : Nat × Nat) (bytes : Bytes) : Bytes :=
  keptFrom rest a.1 ((bytes.drop a.1).take (a.2 - a.1))

/-- What other spans leave behind a span. -/
def behind (rest : List (Nat × Nat)) (a : Nat × Nat) (bytes : Bytes) : Bytes :=
  keptFrom rest a.2 (bytes.drop a.2)

theorem keptFrom_parts (bytes : Bytes) (ha : a.1 ≤ a.2) (hstart : ∀ v ∈ rest, a.1 ≤ v.1) :
    keptFrom rest 0 bytes = bytes.take a.1 ++ (between rest a bytes ++ behind rest a bytes) := by
  have hfirst : keptFrom rest 0 (bytes.take a.1) = bytes.take a.1 := by
    apply keptFrom_eq_self
    intro i _ hi
    rw [Bool.eq_false_iff]
    intro hc
    obtain ⟨v, hv, hvi, -⟩ := isCovered_iff.mp hc
    have := hstart v hv
    rw [List.length_take] at hi
    omega
  rw [keptFrom_split rest 0 a.1, keptFrom_split rest (0 + a.1) (a.2 - a.1), hfirst, List.drop_drop,
    Nat.zero_add, Nat.add_sub_cancel' ha]
  rfl

theorem covers_eq_false_of_le (h : a.2 ≤ i) : covers a i = false := by
  rw [Bool.eq_false_iff]
  intro hc
  have := (covers_iff.mp hc).2
  omega

theorem isCovered_cons_of_le (h : a.2 ≤ i) : isCovered (a :: rest) i = isCovered rest i := by
  rw [isCovered, List.any_cons, covers_eq_false_of_le h, Bool.false_or]
  rfl

theorem isCovered_cons_of_isCovered (h : isCovered rest i = true) :
    isCovered (a :: rest) i = true := by
  rw [isCovered, List.any_cons, ← isCovered, h, Bool.or_true]

/-- With the span itself, nothing is left between its ends. -/
theorem keptFrom_cons_parts (bytes : Bytes) (ha : a.1 ≤ a.2) (hstart : ∀ v ∈ rest, a.1 ≤ v.1) :
    keptFrom (a :: rest) 0 bytes = bytes.take a.1 ++ behind rest a bytes := by
  have hall : ∀ v ∈ a :: rest, a.1 ≤ v.1 := List.forall_mem_cons.mpr ⟨Nat.le_refl _, hstart⟩
  have hbetween : between (a :: rest) a bytes = [] := by
    rw [between, keptFrom_eq_nil_iff]
    intro i hi hlt
    rw [List.length_take] at hlt
    exact isCovered_iff.mpr ⟨a, List.mem_cons_self, hi, by omega⟩
  have hbehind : behind (a :: rest) a bytes = behind rest a bytes :=
    keptFrom_congr fun i hi _ ↦ isCovered_cons_of_le hi
  rw [keptFrom_parts bytes ha hall, hbetween, hbehind, List.nil_append]

theorem behind_eq_nil_iff : behind rest a bytes = [] ↔
    ∀ i, a.2 ≤ i → i < bytes.length → isCovered rest i = true := by
  rw [behind, keptFrom_eq_nil_iff, List.length_drop]
  constructor
  · intro h i ha hi
    exact h i ha (by omega)
  · intro h i ha hi
    exact h i ha (by omega)

theorem length_between_le (rest : List (Nat × Nat)) (a : Nat × Nat) (bytes : Bytes) :
    (between rest a bytes).length ≤ a.2 - a.1 :=
  Nat.le_trans (length_keptFrom_le _ _ _) (List.length_take_le _ _)

theorem length_segment (h : a.2 ≤ bytes.length) :
    ((bytes.drop a.1).take (a.2 - a.1)).length = a.2 - a.1 := by
  rw [List.length_take, List.length_drop]
  omega

theorem length_between_lt (h : a.2 ≤ bytes.length) (hi : covers a i = true)
    (hc : isCovered rest i = true) : (between rest a bytes).length < a.2 - a.1 := by
  have hsegment := length_segment h
  have hai := covers_iff.mp hi
  rw [← hsegment]
  exact length_keptFrom_lt hai.1 (by omega) hc

theorem length_between_eq (h : a.2 ≤ bytes.length)
    (halone : ∀ i, covers a i = true → isCovered rest i = false) :
    (between rest a bytes).length = a.2 - a.1 := by
  have hsegment := length_segment h
  rw [between, keptFrom_eq_self, hsegment]
  intro i hi hlt
  exact halone i (covers_iff.mpr ⟨hi, by omega⟩)

/-- If nothing is left behind a span, spans that start no earlier are untangled with it. -/
theorem untangled_of_nothing_behind {length : Nat} (hforward : ∀ u ∈ a :: rest, u.1 ≤ u.2)
    (hstart : ∀ v ∈ rest, a.1 ≤ v.1)
    (hnone : ∀ i, a.2 ≤ i → i < length → isCovered rest i = true) :
    Untangled (a :: rest) length := by
  intro u hu v hv hne hshare i hui hi
  have hall : ∀ w ∈ a :: rest, a.1 ≤ w.1 := List.forall_mem_cons.mpr ⟨Nat.le_refl _, hstart⟩
  have hau := hall u hu
  have huu := hforward u hu
  by_cases hia : i < a.2
  · exact isCovered_iff.mpr ⟨a, List.mem_cons_self, by omega, hia⟩
  · exact isCovered_cons_of_isCovered (hnone i (by omega) hi)

/-- A span that shares a byte with others is tangled if something is left behind it. -/
theorem not_untangled_of_shared {length j : Nat} (hnot : a ∉ rest) (hj : covers a j = true)
    (hshare : isCovered rest j = true) (hai : a.2 ≤ i) (hi : i < length)
    (hleft : isCovered rest i = false) : ¬Untangled (a :: rest) length := by
  intro h
  obtain ⟨v, hv, hvj⟩ := isCovered_iff.mp hshare
  have hne : a ≠ v := by
    rintro rfl
    exact hnot hv
  have hcovered := h a List.mem_cons_self v (List.mem_cons_of_mem _ hv) hne
    ⟨j, hj, covers_iff.mpr hvj⟩ i hai hi
  rw [isCovered_cons_of_le hai, hleft] at hcovered
  cases hcovered

/-- A span that shares no byte with those that start no earlier makes no difference. -/
theorem untangled_cons_iff {length : Nat} (hstart : ∀ v ∈ rest, a.1 ≤ v.1)
    (halone : ∀ j, covers a j = true → isCovered rest j = false) :
    Untangled (a :: rest) length ↔ Untangled rest length := by
  have hnone : ∀ w ∈ rest, ∀ j, covers w j = true → covers a j = false := by
    intro w hw j hwj
    rw [Bool.eq_false_iff]
    intro haj
    have hrest : isCovered rest j = true := isCovered_iff.mpr ⟨w, hw, covers_iff.mp hwj⟩
    rw [halone j haj] at hrest
    cases hrest
  constructor
  · intro h u hu v hv hne hshare i hui hi
    have hcovered :=
      h u (List.mem_cons_of_mem _ hu) v (List.mem_cons_of_mem _ hv) hne hshare i hui hi
    -- `u` stands behind the span, as it holds a byte
    obtain ⟨j, hj, -⟩ := hshare
    have hau := hstart u hu
    have huj := covers_iff.mp hj
    have hbehind : a.2 ≤ j := by
      by_contra hlt
      have haj : covers a j = true := covers_iff.mpr ⟨by omega, by omega⟩
      rw [hnone u hu j hj] at haj
      cases haj
    rw [isCovered_cons_of_le (by omega)] at hcovered
    exact hcovered
  · rintro h u hu v hv hne ⟨j, hju, hjv⟩ i hui hi
    obtain rfl | hu' := List.mem_cons.mp hu
    · obtain rfl | hv' := List.mem_cons.mp hv
      · exact absurd rfl hne
      · rw [hnone v hv' j hjv] at hju
        cases hju
    · obtain rfl | hv' := List.mem_cons.mp hv
      · rw [hnone u hu' j hju] at hjv
        cases hjv
      · exact isCovered_cons_of_isCovered (h u hu' v hv' hne ⟨j, hju, hjv⟩ i hui hi)

/-- What the spans leave is the text without them, and they are untangled, or it is shorter. -/
def Leaves (spans : List (Nat × Nat)) (bytes : Bytes) : Prop :=
  (Untangled spans bytes.length ∧ splice spans bytes = keptFrom spans 0 bytes) ∨
    (¬Untangled spans bytes.length ∧
      (splice spans bytes).length < (keptFrom spans 0 bytes).length)

theorem Leaves.length_le (h : Leaves rest bytes) :
    (splice rest bytes).length ≤ (keptFrom rest 0 bytes).length := by
  obtain ⟨-, h⟩ | ⟨-, h⟩ := h
  · exact Nat.le_of_eq (congrArg _ h)
  · exact Nat.le_of_lt h

theorem leaves_cons (hforward : ∀ u ∈ a :: rest, u.1 ≤ u.2) (hstart : ∀ v ∈ rest, a.1 ≤ v.1)
    (hnot : a ∉ rest) (ih : Leaves rest bytes) : Leaves (a :: rest) bytes := by
  obtain ⟨ha, hforward'⟩ := List.forall_mem_cons.mp hforward
  have hparts := keptFrom_parts bytes ha hstart
  -- the cut keeps what stands before the span and takes as many bytes as it is long from `left`
  generalize hleft : (splice rest bytes).drop a.1 = left
  have hfirst : (splice rest bytes).take a.1 = bytes.take a.1 := take_splice hforward' hstart
  have hrest : splice rest bytes = bytes.take a.1 ++ left := by
    rw [← hfirst, ← hleft, List.take_append_drop]
  have hsplice : splice (a :: rest) bytes = bytes.take a.1 ++ left.drop (a.2 - a.1) := by
    rw [← hleft, ← hfirst]
    exact cut_eq _ ha
  have hle : left.length ≤ (between rest a bytes).length + (behind rest a bytes).length := by
    have hlength := ih.length_le
    rw [hrest, hparts, List.length_append, List.length_append, List.length_append] at hlength
    omega
  rw [Leaves, hsplice, keptFrom_cons_parts bytes ha hstart, List.length_append, List.length_append,
    List.length_drop]
  by_cases hnone : ∀ i, a.2 ≤ i → i < bytes.length → isCovered rest i = true
  · have hbetween := length_between_le rest a bytes
    rw [behind_eq_nil_iff.mpr hnone, List.length_nil] at hle
    left
    refine ⟨untangled_of_nothing_behind hforward hstart hnone, ?_⟩
    rw [behind_eq_nil_iff.mpr hnone, List.drop_eq_nil_of_le (by omega)]
  · have hbehind : 0 < (behind rest a bytes).length := by
      rw [List.length_pos_iff]
      exact mt behind_eq_nil_iff.mp hnone
    obtain ⟨i, hai, hi, hkept⟩ : ∃ i, a.2 ≤ i ∧ i < bytes.length ∧ ¬isCovered rest i = true := by
      simpa only [not_forall, exists_prop] using hnone
    have hstop : a.2 ≤ bytes.length := by omega
    by_cases hshare : ∃ j, covers a j = true ∧ isCovered rest j = true
    · -- bytes of the span are gone already, so the cut goes on behind it
      obtain ⟨j, hj, hcovered⟩ := hshare
      have hbetween := length_between_lt hstop hj hcovered
      right
      refine ⟨not_untangled_of_shared hnot hj hcovered hai hi (Bool.eq_false_iff.mpr hkept), ?_⟩
      omega
    · have halone : ∀ j, covers a j = true → isCovered rest j = false := by
        intro j hj
        rw [Bool.eq_false_iff]
        intro hc
        exact hshare ⟨j, hj, hc⟩
      have hbetween := length_between_eq hstop halone
      rw [untangled_cons_iff hstart halone]
      obtain ⟨huntangled, h⟩ | ⟨htangled, h⟩ := ih
      · left
        rw [hrest, hparts] at h
        rw [List.append_cancel_left h, ← hbetween, List.drop_left]
        exact ⟨huntangled, rfl⟩
      · right
        rw [hrest, hparts, List.length_append, List.length_append, List.length_append] at h
        exact ⟨htangled, by omega⟩

end Step

theorem leaves_of_sorted (bytes : Bytes) (hsorted : spans.Pairwise fun u v ↦ u.1 ≤ v.1)
    (hforward : ∀ u ∈ spans, u.1 ≤ u.2) (hnodup : spans.Nodup) : Leaves spans bytes := by
  induction spans with
  | nil =>
    left
    refine ⟨?_, (keptFrom_eq_self fun _ _ _ ↦ rfl).symm⟩
    intro u hu
    cases hu
  | cons a rest ih =>
    rw [List.pairwise_cons] at hsorted
    rw [List.nodup_cons] at hnodup
    have hrest := ih hsorted.2 (List.forall_mem_cons.mp hforward).2 hnodup.2
    exact leaves_cons hforward hsorted.1 hnodup.1 hrest

theorem splice_eq_keptFrom_iff (bytes : Bytes) (hsorted : spans.Pairwise fun u v ↦ u.1 ≤ v.1)
    (hforward : ∀ u ∈ spans, u.1 ≤ u.2) (hnodup : spans.Nodup) :
    splice spans bytes = keptFrom spans 0 bytes ↔ Untangled spans bytes.length := by
  obtain ⟨huntangled, h⟩ | ⟨htangled, h⟩ := leaves_of_sorted bytes hsorted hforward hnodup
  · exact ⟨fun _ ↦ huntangled, fun _ ↦ h⟩
  · refine ⟨fun heq ↦ ?_, fun hu ↦ absurd hu htangled⟩
    rw [heq] at h
    exact absurd h (Nat.lt_irrefl _)

theorem isCovered_congr {spans' : List (Nat × Nat)} (h : ∀ u, u ∈ spans ↔ u ∈ spans') (i : Nat) :
    isCovered spans i = isCovered spans' i := by
  rw [Bool.eq_iff_iff, isCovered_iff, isCovered_iff]
  exact exists_congr fun u ↦ and_congr_left fun _ ↦ h u

theorem untangled_congr {spans' : List (Nat × Nat)} {length : Nat}
    (h : ∀ u, u ∈ spans ↔ u ∈ spans') : Untangled spans length ↔ Untangled spans' length := by
  simp only [Untangled, h, isCovered_congr h]

/-- The bytes of the source with all that was scheduled for removal cut out. -/
def spliced (x : Extraction) : Bytes := (x.removals.mergeSort laterSpan).foldl cut x.source.bytes

theorem code_eq (x : Extraction) : x.code = Utf8.decodeReplacing x.spliced := rfl

theorem laterSpan_iff {u v : Nat × Nat} :
    laterSpan u v = true ↔ v.1 < u.1 ∨ u.1 = v.1 ∧ v.2 ≤ u.2 := by
  simp [laterSpan]

theorem spliced_eq_splice (x : Extraction) :
    x.spliced = splice (x.removals.mergeSort laterSpan).reverse x.source.bytes := by
  rw [spliced, splice, List.foldr_reverse]

theorem pairwise_mergeSort_laterSpan (spans : List (Nat × Nat)) :
    (spans.mergeSort laterSpan).Pairwise fun u v ↦ laterSpan u v = true := by
  have htrans (u v w : Nat × Nat) (huv : laterSpan u v = true) (hvw : laterSpan v w = true) :
      laterSpan u w = true := by
    rw [laterSpan_iff] at huv hvw ⊢
    omega
  have htotal (u v : Nat × Nat) : (laterSpan u v || laterSpan v u) = true := by
    rw [Bool.or_eq_true, laterSpan_iff, laterSpan_iff]
    omega
  exact List.pairwise_mergeSort htrans htotal spans

theorem sorted_removals (x : Extraction) :
    (x.removals.mergeSort laterSpan).reverse.Pairwise fun u v ↦ u.1 ≤ v.1 := by
  rw [List.pairwise_reverse]
  refine (pairwise_mergeSort_laterSpan x.removals).imp ?_
  intro u v h
  rw [laterSpan_iff] at h
  omega

/-- What is left is the source without the spans to remove iff these are untangled. -/
theorem spliced_eq_keptFrom_iff (x : Extraction) (hforward : ∀ u ∈ x.removals, u.1 ≤ u.2)
    (hnodup : x.removals.Nodup) :
    x.spliced = keptFrom x.removals 0 x.source.bytes ↔
      Untangled x.removals x.source.bytes.length := by
  have hmem : ∀ u, u ∈ (x.removals.mergeSort laterSpan).reverse ↔ u ∈ x.removals := by
    intro u
    rw [List.mem_reverse, List.mem_mergeSort]
  have hnodup' : (x.removals.mergeSort laterSpan).reverse.Nodup := by
    rw [List.nodup_reverse]
    exact (List.mergeSort_perm _ _).nodup_iff.mpr hnodup
  have hforward' : ∀ u ∈ (x.removals.mergeSort laterSpan).reverse, u.1 ≤ u.2 :=
    fun u hu ↦ hforward u ((hmem u).mp hu)
  have hsplice := splice_eq_keptFrom_iff x.source.bytes (sorted_removals x) hforward' hnodup'
  rw [keptFrom_congr fun i _ _ ↦ isCovered_congr hmem i, untangled_congr hmem] at hsplice
  rw [spliced_eq_splice, hsplice]

end MessageExtraction.Extraction
