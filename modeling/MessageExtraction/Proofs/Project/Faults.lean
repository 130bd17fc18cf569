import MessageExtraction.Project.Emission
import MessageExtraction.Proofs.Result
import MessageExtraction.Proofs.Tree.Places

namespace MessageExtraction

namespace FileSystem

/-- A catalog whose directory can be made ends in a fault when it cannot be put into words, and when
the file for it can be opened but its text cannot be encoded. -/
theorem writeCatalog_eq_fault_iff {fs : FileSystem} {messages : List Message} {p : Path} {f : Fault} :
    (fs.writeCatalog messages p).2 = .error (.fault f) ↔
      ∃ made, fs.makeDirectories p.parent = (made, .ok ()) ∧
        (Message.dump messages = .error f ∨
          ∃ t place, Message.dump messages = .ok t ∧ made.writable p = .ok place ∧
            Utf8.encode? t = none ∧ f = .unencodable) := by
  rw [writeCatalog]
  rcases hm : fs.makeDirectories p.parent with ⟨made, e | ⟨⟩⟩
  · simp
  · cases hd : Message.dump messages with
    | error g => simp
    | ok t =>
      cases hw : made.writable p with
      | error e => simp [writeText, hw]
      | ok place => cases he : Utf8.encode? t <;> simp [writeText, hw, he, eq_comm]

end FileSystem

namespace Extraction

theorem catalogPath?_begin (x : Extraction) (cwd : Path) :
    x.begin.catalogPath? cwd = x.catalogPath? cwd := rfl

/-- Visiting nodes of kinds that nothing is tried on changes nothing. -/
theorem visitAll_of_unrecognized {x : Extraction} {ps : List Place}
    (h : ∀ kind ∈ ps.map Place.kind, recognizers kind = []) : x.visitAll ps = (x, none) := by
  induction ps with
  | nil => rfl
  | cons p ps ih =>
    rw [List.map_cons, List.forall_mem_cons] at h
    have hp : x.visit p = .ok () x := by rw [visit, h.1]; rfl
    rw [visitAll, hp]
    exact ih h.2

theorem isMessageCall_of_name {x : Extraction} {p : Place} (hk : p.kind = "identifier")
    (ht : x.source.textOf p = .ok Complaint.functionName) : x.isMessageCall p = .ok true := by
  have hw : p.isWrapper = false := by
    rw [Place.isWrapper, hk]
    decide
  rw [isMessageCall, Place.unwrapped_of_not_isWrapper hw]
  simp only [hk, ht]
  rfl

/-- Nodes that are visited in order end in a failure iff one of them does, the nodes before it having
been visited without one. -/
theorem visitAll_eq_failure_iff {x : Extraction} {ps : List Place} {e : Failure} :
    (x.visitAll ps).2 = some e ↔
      ∃ before p after y z, ps = before ++ p :: after ∧ x.visitAll before = (y, none) ∧
        y.visit p = .error e z := by
  induction ps generalizing x with
  | nil => simp [visitAll]
  | cons q ps ih =>
    cases hv : x.visit q with
    | error g w =>
      simp only [visitAll, hv, Option.some.injEq]
      constructor
      · rintro rfl
        exact ⟨[], q, ps, x, w, rfl, rfl, hv⟩
      · rintro ⟨_ | ⟨b, before⟩, p, after, y, z, hps, hb, hp⟩
        · obtain ⟨rfl, rfl⟩ := List.cons.inj hps
          cases hb
          rw [hv] at hp
          cases hp
          rfl
        · obtain ⟨rfl, rfl⟩ := List.cons.inj hps
          simp [visitAll, hv] at hb
    | ok _ w =>
      simp only [visitAll, hv]
      rw [ih]
      constructor
      · rintro ⟨before, p, after, y, z, rfl, hb, hp⟩
        exact ⟨q :: before, p, after, y, z, rfl, by rw [visitAll, hv]; exact hb, hp⟩
      · rintro ⟨_ | ⟨b, before⟩, p, after, y, z, hps, hb, hp⟩
        · obtain ⟨rfl, rfl⟩ := List.cons.inj hps
          cases hb
          simp [hv] at hp
        · obtain ⟨rfl, rfl⟩ := List.cons.inj hps
          rw [visitAll, hv] at hb
          exact ⟨before, p, after, y, z, rfl, hb, hp⟩

/-- A file ends in a fault: one arises when a node is visited, when the catalog of the messages is put
into words, or when these are encoded. -/
inductive Faults (x : Extraction) (fs : FileSystem) (cwd : Path) : Fault → Prop
  | visiting {before after : List Place} {p : Place} {y z : Extraction} {f : Fault} :
      x.source.places = before ++ p :: after → x.begin.visitAll before = (y, none) →
      y.visit p = .error (.fault f) z → Faults x fs cwd f
  | printing {y : Extraction} {p : Path} {made : FileSystem} {f : Fault} :
      x.begin.visitAll x.source.places = (y, none) → y.catalogPath? cwd = some p →
      fs.makeDirectories p.parent = (made, .ok ()) → Message.dump y.messages = .error f →
      Faults x fs cwd f
  | encoding {y : Extraction} {p : Path} {made : FileSystem} {t : Text} {place : List Text} :
      x.begin.visitAll x.source.places = (y, none) → y.catalogPath? cwd = some p →
      fs.makeDirectories p.parent = (made, .ok ()) → Message.dump y.messages = .ok t →
      made.writable p = .ok place → Utf8.encode? t = none → Faults x fs cwd .unencodable

theorem Faults.eq_of_visitAll {x : Extraction} {fs : FileSystem} {cwd : Path} {f : Fault} {e : Failure}
    (h : x.Faults fs cwd f) (he : (x.begin.visitAll x.source.places).2 = some e) : e = .fault f := by
  cases h with
  | visiting hs hb hp =>
    rw [visitAll_eq_failure_iff.mpr ⟨_, _, _, _, _, hs, hb, hp⟩] at he
    exact (Option.some.inj he).symm
  | printing hv => simp [hv] at he
  | encoding hv => simp [hv] at he

theorem emit_eq_fault_iff {x : Extraction} {fs : FileSystem} {cwd : Path} {f : Fault} :
    (x.emit fs cwd).2.2 = .error (.source (.fault f)) ↔
      ∃ p, x.catalogPath? cwd = some p ∧ (fs.writeCatalog x.messages p).2 = .error (.fault f) := by
  rw [emit, catalogPath?_begin]
  cases hp : x.catalogPath? cwd with
  | none => simp
  | some p =>
    have hb : x.begin.messages = x.messages := rfl
    simp only [hb]
    rcases hw : fs.writeCatalog x.messages p with ⟨fs', (e | g) | ⟨⟩⟩ <;>
      simp [WriteError.toFailure, hw]

theorem runOn_eq_fault_iff {x : Extraction} {fs : FileSystem} {cwd : Path} {f : Fault} :
    (x.runOn fs cwd).2.2 = .error (.source (.fault f)) ↔ x.Faults fs cwd f := by
  have ht : x.begin.traverse = x.begin.visitAll x.source.places := rfl
  rw [runOn, ht]
  constructor
  · intro h
    rcases hv : x.begin.visitAll x.source.places with ⟨y, _ | e⟩
    · rw [hv] at h
      obtain ⟨p, hp, hw⟩ := emit_eq_fault_iff.mp h
      obtain ⟨made, hm, hd | ⟨t, place, hd, hplace, ht, rfl⟩⟩ :=
        FileSystem.writeCatalog_eq_fault_iff.mp hw
      · exact .printing hv hp hm hd
      · exact .encoding hv hp hm hd hplace ht
    · obtain rfl : e = .fault f := by simpa [hv] using h
      obtain ⟨before, p, after, z, w, hs, hb, hp⟩ := visitAll_eq_failure_iff.mp (congrArg Prod.snd hv)
      exact .visiting hs hb hp
  · rintro (⟨hs, hb, hp⟩ | ⟨hv, hp, hm, hd⟩ | ⟨hv, hp, hm, hd, hplace, ht⟩)
    · have he := visitAll_eq_failure_iff.mpr ⟨_, _, _, _, _, hs, hb, hp⟩
      rcases hv : x.begin.visitAll x.source.places with ⟨y, e⟩
      obtain rfl : e = some (.fault f) := by simpa [hv] using he
      rfl
    · rw [hv]
      exact emit_eq_fault_iff.mpr
        ⟨_, hp, FileSystem.writeCatalog_eq_fault_iff.mpr ⟨_, hm, .inl hd⟩⟩
    · rw [hv]
      exact emit_eq_fault_iff.mpr
        ⟨_, hp, FileSystem.writeCatalog_eq_fault_iff.mpr
          ⟨_, hm, .inr ⟨_, _, hd, hplace, ht, rfl⟩⟩⟩

end Extraction

end MessageExtraction
