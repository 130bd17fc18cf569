import MessageExtraction.Project.Walker
import MessageExtraction.Proofs.Project.Walk

/-!
What a walk does that visits the files that it takes: it visits one file after another, each below the
directory that it goes through and each there to be taken when its turn has come.
-/

namespace MessageExtraction

namespace Stretch

variable {σ ε : Type} {first second third : Stretch σ ε} {x y : σ} {taken : List Path}

theorem andThen_of_none (h : first x = (taken, y, none)) :
    first.andThen second x = (taken ++ (second y).1, (second y).2) := by
  rw [andThen, h]

theorem andThen_of_some {e : ε} (h : first x = (taken, y, some e)) :
    first.andThen second x = (taken, y, some e) := by
  rw [andThen, h]

theorem andThen_assoc : (first.andThen second).andThen third = first.andThen (second.andThen third) := by
  funext x
  rcases hs : first x with ⟨taken, y, _ | e⟩
  · rw [andThen_of_none hs]
    rcases hb : second y with ⟨more, z, _ | e⟩
    · have hboth : first.andThen second x = (taken ++ more, z, none) := by rw [andThen_of_none hs, hb]
      rw [andThen_of_none hboth, andThen_of_none hb, List.append_assoc]
    · have hboth : first.andThen second x = (taken ++ more, z, some e) := by rw [andThen_of_none hs, hb]
      rw [andThen_of_some hboth, andThen_of_some hb]
  · rw [andThen_of_some hs, andThen_of_some (andThen_of_some hs)]

theorem inTurn_append (before after : List (Stretch σ ε)) :
    inTurn (before ++ after) = (inTurn before).andThen (inTurn after) := by
  induction before with
  | nil => rfl
  | cons stretch before ih => rw [List.cons_append, inTurn, ih, inTurn, andThen_assoc]

end Stretch

namespace Walker

open FileSystem Stretch

variable {σ ε : Type} {w : Walker σ ε} {directory p : Path} {name : Text} {x y z : σ}
  {ps qs : List Path} {e : Option ε}

/-- From a state on files are visited one after another up to a state, and the last visit may end the
walk. -/
inductive Takes (w : Walker σ ε) (directory : Path) : σ → List Path → σ → Option ε → Prop
  | done (x : σ) : Takes w directory x [] x none
  | next {x y z : σ} {p : Path} {ps : List Path} {e : Option ε} : p.IsBelow directory →
      (w.files x).takes (w.sieve (w.files x)) p = true → w.visit x p = (y, none) →
      Takes w directory y ps z e → Takes w directory x (p :: ps) z e
  | ended {x y : σ} {p : Path} {e : ε} : p.IsBelow directory →
      (w.files x).takes (w.sieve (w.files x)) p = true → w.visit x p = (y, some e) →
      Takes w directory x [p] y (some e)

theorem Takes.append (h : w.Takes directory x ps y none) (h' : w.Takes directory y qs z e) :
    w.Takes directory x (ps ++ qs) z e := by
  generalize hnone : (none : Option ε) = outcome at h
  induction h with
  | done x => exact h'
  | next hp htaken hvisit _ ih => exact .next hp htaken hvisit (ih h' hnone)
  | ended => cases hnone

theorem Takes.of_child (h : w.Takes (directory.child name) x ps y e) : w.Takes directory x ps y e := by
  induction h with
  | done x => exact .done x
  | next hp htaken hvisit _ ih => exact .next hp.of_child htaken hvisit ih
  | ended hp htaken hvisit => exact .ended hp.of_child htaken hvisit

/-- What every visit of a file that is there to be taken keeps holds at the end, if it has held at the
start. -/
theorem Takes.keeps {P : σ → Prop} (h : w.Takes directory x ps y e)
    (hvisit : ∀ x p, P x → p.IsBelow directory → (w.files x).takes (w.sieve (w.files x)) p = true →
      P (w.visit x p).1) (hx : P x) : P y := by
  induction h with
  | done x => exact hx
  | @next x y z p ps e hp htaken hv _ ih =>
    have hnext := hvisit x p hx hp htaken
    rw [hv] at hnext
    exact ih hnext
  | @ended x y p e hp htaken hv =>
    have hlast := hvisit x p hx hp htaken
    rwa [hv] at hlast

/-- A stretch of a walk does nothing but take files below a directory. -/
def Stays (w : Walker σ ε) (directory : Path) (stretch : Stretch σ ε) : Prop :=
  ∀ x, w.Takes directory x (stretch x).1 (stretch x).2.1 (stretch x).2.2

theorem stays_nothing : w.Stays directory nothing := fun x ↦ .done x

theorem stays_take (hp : p.IsBelow directory) : w.Stays directory (w.take p) := by
  intro x
  rw [take]
  split
  · rename_i htaken
    rcases hv : w.visit x p with ⟨y, _ | e⟩
    · exact .next hp htaken hv (.done y)
    · exact .ended hp htaken hv
  · exact .done x

theorem stays_andThen {first second : Stretch σ ε} (h : w.Stays directory first)
    (h' : w.Stays directory second) : w.Stays directory (first.andThen second) := by
  intro x
  have hx := h x
  rcases hs : first x with ⟨taken, y, _ | e⟩
  · rw [hs] at hx
    rw [andThen_of_none hs]
    exact hx.append (h' y)
  · rw [hs] at hx
    rw [andThen_of_some hs]
    exact hx

theorem stays_inTurn {stretches : List (Stretch σ ε)} (h : ∀ s ∈ stretches, w.Stays directory s) :
    w.Stays directory (inTurn stretches) := by
  induction stretches with
  | nil => exact stays_nothing
  | cons stretch rest ih =>
    obtain ⟨hstretch, hrest⟩ := List.forall_mem_cons.mp h
    exact stays_andThen hstretch (ih hrest)

theorem stays_belowNew (w : Walker σ ε) (directory : Path) :
    w.Stays directory (w.belowNew directory) := by
  intro x
  rw [belowNew]
  split
  · refine stays_inTurn (fun s hs ↦ ?_) x
    obtain ⟨f, hf, rfl⟩ := List.mem_map.mp hs
    exact stays_take (isBelow_filesBelow hf)
  · exact .done x

theorem stays_enter {known : List (Text × Stretch σ ε)}
    (h : ∀ name stretch, known.lookup name = some stretch → w.Stays (directory.child name) stretch) :
    w.Stays directory (w.enter directory known) := by
  intro x
  rw [enter]
  split
  · refine stays_inTurn (fun s hs ↦ ?_) x
    obtain hs | hs := List.mem_append.mp hs
    · obtain ⟨item, -, rfl⟩ := List.mem_map.mp hs
      exact stays_take (Path.isBelow_child directory item.1)
    · obtain ⟨item, -, rfl⟩ := List.mem_map.mp hs
      have hinner : w.Stays (directory.child item.1)
          ((known.lookup item.1).getD (w.belowNew (directory.child item.1))) := by
        cases hk : known.lookup item.1 with
        | none => exact stays_belowNew w _
        | some stretch => exact h item.1 stretch hk
      exact fun x ↦ (hinner x).of_child
  · exact .done x

theorem lookup_belowEach (w : Walker σ ε) (directory : Path) (items : List (Text × Item)) (name : Text) :
    (w.belowEach directory items).lookup name =
      (items.lookup name).map fun i ↦ w.below (directory.child name) i := by
  induction items with
  | nil => rfl
  | cons item items ih =>
    obtain ⟨n, i⟩ := item
    rw [belowEach, List.lookup_cons, List.lookup_cons]
    by_cases hn : name = n
    · simp [hn]
    · rw [beq_eq_false_iff_ne.mpr hn]
      exact ih

/-- Below a directory a walk takes files below it, whatever stood there at the start. -/
theorem stays_below (w : Walker σ ε) (directory : Path) (i : Item) :
    w.Stays directory (w.below directory i) := by
  cases i with
  | file f =>
    rw [below]
    · exact stays_nothing
    · nofun
  | link target =>
    rw [below]
    · exact stays_nothing
    · nofun
  | directory items =>
    rw [below]
    refine stays_enter fun name stretch hs ↦ ?_
    rw [lookup_belowEach] at hs
    obtain ⟨i, hi, rfl⟩ := Option.map_eq_some_iff.mp hs
    obtain ⟨before, after, hsplit, -⟩ := List.lookup_eq_some_iff.mp hi
    have hmem : (name, i) ∈ items := hsplit ▸ List.mem_append_right before List.mem_cons_self
    have hlt : sizeOf i < 1 + sizeOf items := by simpa using Item.sizeOf_lt_of_mem hmem
    exact stays_below w (directory.child name) i
termination_by sizeOf i

theorem takes_walk (w : Walker σ ε) (root : Path) (x : σ) :
    w.Takes ((w.files x).canonical root) x (w.walk root x).1 (w.walk root x).2.1
      (w.walk root x).2.2 := by
  rw [walk]
  split
  · exact stays_below w _ _ x
  · exact .done x

/-- Where nothing is found to start from, nothing is taken. -/
theorem walk_of_find?_eq_none {root : Path} (h : (w.files x).find? ((w.files x).canonical root) = none) :
    w.walk root x = ([], x, none) := by
  rw [walk]
  simp only [h]
  rfl

section Plan

variable {kept : σ → Prop} {stretch : Stretch σ ε}

/-- Visits a file without a look at what is there. -/
def visitOnly (w : Walker σ ε) (p : Path) : Stretch σ ε := fun x ↦ ([p], w.visit x p)

/-- From states of a kind a stretch of a walk visits files that are given beforehand. -/
def Visits (w : Walker σ ε) (kept : σ → Prop) (stretch : Stretch σ ε) (ps : List Path) : Prop :=
  ∀ x, kept x → stretch x = inTurn (ps.map w.visitOnly) x

theorem inTurn_visitOnly_cons (w : Walker σ ε) (p : Path) (ps : List Path) (x : σ) :
    inTurn ((p :: ps).map w.visitOnly) x = match w.visit x p with
      | (y, none) => (p :: (inTurn (ps.map w.visitOnly) y).1, (inTurn (ps.map w.visitOnly) y).2)
      | (y, some e) => ([p], y, some e) := by
  rw [List.map_cons, inTurn]
  rcases hv : w.visit x p with ⟨y, _ | e⟩
  · rw [andThen_of_none (show w.visitOnly p x = ([p], y, none) by rw [visitOnly, hv])]
    rfl
  · exact andThen_of_some (show w.visitOnly p x = ([p], y, some e) by rw [visitOnly, hv])

/-- Of files that are visited one after another the first ones are visited, and all of them unless a visit
has ended the walk. -/
theorem visited_isPrefix (w : Walker σ ε) (ps : List Path) (x : σ) :
    (inTurn (ps.map w.visitOnly) x).1 <+: ps ∧
      ((inTurn (ps.map w.visitOnly) x).2.2 = none → (inTurn (ps.map w.visitOnly) x).1 = ps) := by
  induction ps generalizing x with
  | nil => exact ⟨List.nil_prefix, fun _ ↦ rfl⟩
  | cons p ps ih =>
    rw [inTurn_visitOnly_cons]
    rcases w.visit x p with ⟨y, _ | e⟩
    · obtain ⟨hfirst, hall⟩ := ih y
      exact ⟨List.cons_prefix_cons.mpr ⟨rfl, hfirst⟩, fun h ↦ congrArg (p :: ·) (hall h)⟩
    · exact ⟨List.cons_prefix_cons.mpr ⟨rfl, List.nil_prefix⟩, nofun⟩

theorem kept_of_visitOnly (hkept : ∀ x p y, kept x → w.visit x p = (y, none) → kept y) {qs : List Path}
    (hx : kept x) (h : inTurn (ps.map w.visitOnly) x = (qs, y, none)) : kept y := by
  induction ps generalizing x qs with
  | nil =>
    cases h
    exact hx
  | cons p ps ih =>
    rw [inTurn_visitOnly_cons] at h
    rcases hv : w.visit x p with ⟨z, _ | e⟩
    · rw [hv] at h
      obtain ⟨rfl, hrest⟩ := Prod.mk.inj h
      exact ih (hkept x p z hx hv) (Prod.ext rfl hrest)
    · rw [hv] at h
      cases h

theorem visits_nothing (w : Walker σ ε) (kept : σ → Prop) : w.Visits kept nothing [] := fun _ _ ↦ rfl

theorem visits_take {isTaken : Bool}
    (h : ∀ x, kept x → (w.files x).takes (w.sieve (w.files x)) p = isTaken) :
    w.Visits kept (w.take p) (if isTaken then [p] else []) := by
  intro x hx
  rw [take, h x hx]
  cases isTaken with
  | false => rfl
  | true =>
    rw [if_pos rfl, if_pos rfl, inTurn_visitOnly_cons]
    rcases w.visit x p with ⟨y, _ | e⟩ <;> rfl

/-- Stretches that visit files which are given beforehand visit them all in turn. -/
theorem visits_inTurn (hkept : ∀ x p y, kept x → w.visit x p = (y, none) → kept y)
    {stretches : List (Stretch σ ε)} {pss : List (List Path)}
    (h : List.Forall₂ (w.Visits kept) stretches pss) : w.Visits kept (inTurn stretches) pss.flatten := by
  induction h with
  | nil => exact visits_nothing w kept
  | @cons stretch ps stretches pss hstretch _ ih =>
    intro x hx
    rw [List.flatten_cons, List.map_append, inTurn_append, inTurn]
    rcases hs : stretch x with ⟨taken, y, _ | e⟩
    · have hvisited := (hstretch x hx).symm.trans hs
      rw [andThen_of_none hs, andThen_of_none hvisited, ih y (kept_of_visitOnly hkept hx hvisited)]
    · rw [andThen_of_some hs, andThen_of_some ((hstretch x hx).symm.trans hs)]

end Plan

end Walker

end MessageExtraction
