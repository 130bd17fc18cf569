import MessageExtraction.Proofs.Text.Utf8
import MessageExtraction.Proofs.Tree.Spans
import Mathlib.Data.List.DropRight

/-!
Points in characters. An offset between two characters of a source is the point at which the text before
it ends, and points follow each other as the offsets do.
-/

namespace MessageExtraction

/-- Points in the order of their lines, and in one line of their columns. -/
instance : LE Position := ⟨fun a b ↦ a.line < b.line ∨ a.line = b.line ∧ a.column ≤ b.column⟩

theorem Position.le_def {a b : Position} :
    a ≤ b ↔ a.line < b.line ∨ a.line = b.line ∧ a.column ≤ b.column := Iff.rfl

instance (a b : Position) : Decidable (a ≤ b) := decidable_of_iff _ Position.le_def.symm

/-- What stands in a text after its last line feed. -/
def Text.lastLine (t : Text) : Text := t.rtakeWhile (· != CodePoint.lineFeed)

/-- The point at which a text ends. -/
def Position.after (t : Text) : Position := ⟨t.count CodePoint.lineFeed + 1, t.lastLine.length⟩

namespace Utf8

variable {c : Nat} {t : Text} {bytes : Bytes}

theorem Encodes.eq_lineFeed (h : Encodes CodePoint.lineFeed bytes) : bytes = [Source.lineFeed] := by
  obtain ⟨-, rfl⟩ | ⟨hge, -⟩ := h.ascii_or
  · rfl
  · exact absurd hge (by decide)

theorem Encodes.lineFeed_notMem (h : Encodes c bytes) (hc : c ≠ CodePoint.lineFeed) :
    Source.lineFeed ∉ bytes := by
  intro hmem
  obtain ⟨hlt, rfl⟩ | ⟨-, hbytes⟩ := h.ascii_or
  · apply hc
    have hbyte := congrArg UInt8.toNat (List.mem_singleton.mp hmem)
    rw [toNat_ofNat (by omega)] at hbyte
    exact hbyte.symm
  · exact absurd (hbytes _ hmem) (by decide)

theorem count_lineFeed (h : encode? t = some bytes) :
    bytes.count Source.lineFeed = t.count CodePoint.lineFeed := by
  induction t generalizing bytes with
  | nil =>
    obtain rfl := encode?_nil_eq_some_iff.mp h
    rfl
  | cons c t ih =>
    obtain ⟨first, rest, hfirst, hrest, rfl⟩ := encode?_cons_eq_some_iff.mp h
    rw [List.count_append, ih hrest, List.count_cons]
    by_cases hc : c = CodePoint.lineFeed
    · subst hc
      rw [hfirst.eq_lineFeed, List.count_singleton_self]
      simp [Nat.add_comm]
    · rw [List.count_eq_zero_of_not_mem (hfirst.lineFeed_notMem hc)]
      simp [hc]

end Utf8

/-- What satisfies a test at the end is added to what does before it. -/
theorem rtakeWhile_append {α : Type} {p : α → Bool} (l : List α) {more : List α} (h : ∀ a ∈ more, p a) :
    (l ++ more).rtakeWhile p = l.rtakeWhile p ++ more := by
  rw [List.rtakeWhile, List.reverse_append, List.takeWhile_append_of_pos, List.reverse_append,
    List.reverse_reverse]
  · rfl
  · exact fun a ha ↦ h a (List.mem_reverse.mp ha)

/-- Only what stands behind the last failure of a test satisfies it up to the end. -/
theorem rtakeWhile_append_cons {α : Type} {p : α → Bool} (l : List α) {a : α} (m : List α) (h : ¬p a) :
    (l ++ a :: m).rtakeWhile p = m.rtakeWhile p := by
  induction m using List.reverseRecOn with
  | nil => exact List.rtakeWhile_concat_neg _ _ _ h
  | append_singleton m b ih =>
    rw [← List.cons_append, ← List.append_assoc, List.rtakeWhile_concat, List.rtakeWhile_concat, ih]

theorem count_append_cons_of_notMem {α : Type} [BEq α] [LawfulBEq α] {a : α} {front : List α} (h : a ∉ front)
    (rest : List α) : (front ++ a :: rest).count a = rest.count a + 1 := by
  rw [List.count_append, List.count_eq_zero_of_not_mem h, List.count_cons_self, Nat.zero_add]

namespace Text

theorem lastLine_append {u : Text} (t : Text) (h : CodePoint.lineFeed ∉ u) :
    lastLine (t ++ u) = t.lastLine ++ u :=
  rtakeWhile_append t fun _ hc ↦ bne_iff_ne.mpr (ne_of_mem_of_not_mem hc h)

theorem lastLine_append_lineFeed (t u : Text) : lastLine (t ++ CodePoint.lineFeed :: u) = u.lastLine :=
  rtakeWhile_append_cons t u (by simp)

theorem lastLine_concat_lineFeed (t : Text) : lastLine (t ++ [CodePoint.lineFeed]) = [] :=
  List.rtakeWhile_concat_neg _ _ _ (by simp)

end Text

namespace Source

variable {s : Source} {t before : Text} {bytes more : Bytes} {offset : Nat}

theorem afterLastLine_append (h : lineFeed ∉ more) :
    afterLastLine (bytes ++ more) = afterLastLine bytes ++ more :=
  rtakeWhile_append bytes fun _ hb ↦ bne_iff_ne.mpr (ne_of_mem_of_not_mem hb h)

theorem afterLastLine_concat_lineFeed (bytes : Bytes) : afterLastLine (bytes ++ [lineFeed]) = [] :=
  List.rtakeWhile_concat_neg _ _ _ (by simp)

/-- The bytes after the last line feed are the text after the last line feed. -/
theorem encode?_lastLine (h : Utf8.encode? t = some bytes) :
    Utf8.encode? t.lastLine = some (afterLastLine bytes) := by
  induction t using List.reverseRecOn generalizing bytes with
  | nil =>
    obtain rfl := Utf8.encode?_nil_eq_some_iff.mp h
    rfl
  | append_singleton t c ih =>
    obtain ⟨first, rest, hfirst, hrest, rfl⟩ := Utf8.encode?_append_eq_some h
    by_cases hc : c = CodePoint.lineFeed
    · subst hc
      rw [(Utf8.encode?_singleton hrest).eq_lineFeed, Text.lastLine_concat_lineFeed,
        afterLastLine_concat_lineFeed]
      rfl
    · rw [Text.lastLine_append t (by simpa using Ne.symm hc),
        afterLastLine_append ((Utf8.encode?_singleton hrest).lineFeed_notMem hc)]
      exact Utf8.encode?_append (ih hfirst) hrest

/-- Between two characters the point is the one at which the text before ends. -/
theorem position_eq_after (h : Utf8.decode (s.bytes.take offset) = .ok before) :
    s.position offset = .after before := by
  have hbytes := Utf8.decode_eq_ok_iff.mp h
  rw [position, Utf8.count_lineFeed hbytes, Utf8.decodeReplacing_of_encode? (encode?_lastLine hbytes)]
  rfl

theorem splitLines_ne_nil (bytes : Bytes) : splitLines bytes ≠ [] := by
  cases bytes with
  | nil => exact List.cons_ne_nil _ _
  | cons b bytes =>
    rw [splitLines]
    split
    · exact List.cons_ne_nil _ _
    · split <;> exact List.cons_ne_nil _ _

theorem splitLines_lineFeed (bytes : Bytes) : splitLines (lineFeed :: bytes) = [] :: splitLines bytes := by
  obtain ⟨line, lines, h⟩ := List.exists_cons_of_ne_nil (splitLines_ne_nil bytes)
  rw [splitLines, h]
  exact if_pos rfl

theorem splitLines_append {first : Bytes} (h : lineFeed ∉ first) {line : Bytes} {lines : List Bytes}
    (hrest : splitLines bytes = line :: lines) : splitLines (first ++ bytes) = (first ++ line) :: lines := by
  induction first with
  | nil => exact hrest
  | cons b first ih =>
    obtain ⟨hb, hfirst⟩ := not_or.mp (mt List.mem_cons.mpr h)
    rw [List.cons_append, splitLines, ih hfirst]
    exact if_neg (Ne.symm hb)

/-- What stands before a line feed has no part in the last line. -/
theorem afterLastLine_append_lineFeed (front rest : Bytes) :
    afterLastLine (front ++ lineFeed :: rest) = afterLastLine rest :=
  rtakeWhile_append_cons front rest (by simp)

theorem afterLastLine_of_notMem (h : lineFeed ∉ bytes) : afterLastLine bytes = bytes := by
  rw [← List.nil_append bytes, afterLastLine_append h]
  rfl

/-- The line in which some bytes end begins with what follows their last line feed. -/
theorem exists_getElem?_splitLines (bytes more : Bytes) :
    ∃ rest, (splitLines (bytes ++ more))[bytes.count lineFeed]? = some (afterLastLine bytes ++ rest) := by
  by_cases h : lineFeed ∈ bytes
  · obtain ⟨front, after, rfl, hfront⟩ := List.eq_append_cons_of_mem h
    obtain ⟨rest, hrest⟩ := exists_getElem?_splitLines after more
    have hlines : splitLines (front ++ lineFeed :: (after ++ more)) = front :: splitLines (after ++ more) := by
      rw [splitLines_append hfront (splitLines_lineFeed _), List.append_nil]
    refine ⟨rest, ?_⟩
    rw [count_append_cons_of_notMem hfront, List.append_assoc, List.cons_append, hlines, List.getElem?_cons_succ, hrest,
      afterLastLine_append_lineFeed]
  · obtain ⟨line, lines, hlines⟩ := List.exists_cons_of_ne_nil (splitLines_ne_nil more)
    refine ⟨line, ?_⟩
    rw [List.count_eq_zero_of_not_mem h, splitLines_append h hlines, List.getElem?_cons_zero,
      afterLastLine_of_notMem h]
termination_by bytes.length

/-- The point of a row and of the bytes before it in the row: the line is cut there and decoded. -/
def pointAt (s : Source) (row column : Nat) : Position :=
  ⟨row + 1, (Utf8.decodeReplacing ((s.lines[row]?.getD []).take column)).length⟩

/-- The point of an offset is that of its row, the line feeds before it, and of its column, the bytes after
the last of them. -/
theorem position_eq_pointAt (s : Source) (offset : Nat) : s.position offset =
    s.pointAt ((s.bytes.take offset).count lineFeed) (afterLastLine (s.bytes.take offset)).length := by
  obtain ⟨rest, hline⟩ := exists_getElem?_splitLines (s.bytes.take offset) (s.bytes.drop offset)
  rw [List.take_append_drop] at hline
  rw [pointAt, lines, hline, Option.getD_some, List.take_left, position]

end Source

theorem Position.after_le_append (t u : Text) : Position.after t ≤ Position.after (t ++ u) := by
  rw [Position.le_def, Position.after, Position.after, List.count_append]
  by_cases hu : CodePoint.lineFeed ∈ u
  · have hpos := List.count_pos_iff.mpr hu
    left
    simp only
    omega
  · rw [List.count_eq_zero_of_not_mem hu, Text.lastLine_append t hu, List.length_append]
    exact .inr ⟨rfl, Nat.le_add_right _ _⟩

namespace Source

variable {s : Source} {before through : Text} {first last : Nat}

theorem position_le_position (hle : first ≤ last) (hfirst : Utf8.decode (s.bytes.take first) = .ok before)
    (hlast : Utf8.decode (s.bytes.take last) = .ok through) : s.position first ≤ s.position last := by
  have hsplit : s.bytes.take last = s.bytes.take first ++ (s.bytes.take last).drop first := by
    conv_lhs => rw [← List.take_append_drop first (s.bytes.take last), List.take_take, Nat.min_eq_left hle]
  obtain ⟨after, rfl⟩ := Utf8.prefix_of_decode (hsplit ▸ hlast) hfirst
  rw [position_eq_after hfirst, position_eq_after hlast]
  exact Position.after_le_append before after

/-- Whether the bytes before an offset are whole characters. -/
def IsBoundary (s : Source) (offset : Nat) : Prop := ∃ before, Utf8.decode (s.bytes.take offset) = .ok before

/-- A node that starts and ends between characters. -/
def IsAligned (s : Source) (p : Place) : Prop := s.IsBoundary p.node.start ∧ s.IsBoundary p.node.stop

/-- In a source that is a text, a node between characters starts and ends at the points at which the text
before its start and the text before its end do; it ends no earlier than it starts, and what is below it
lies in it. -/
theorem span_exact {t : Text} {p : Place} (ht : Utf8.decode s.bytes = .ok t) (hp : s.IsAligned p) :
    (∃ before, Utf8.decode (s.bytes.take p.node.start) = .ok before ∧ before <+: t ∧
      s.startOf p = .after before) ∧
    (∃ before, Utf8.decode (s.bytes.take p.node.stop) = .ok before ∧ before <+: t ∧
      s.stopOf p = .after before) ∧
    (s.InOrder → p ∈ s.places → s.startOf p ≤ s.stopOf p ∧
      ∀ q ∈ p.subtree, s.IsAligned q → s.startOf p ≤ s.startOf q ∧ s.stopOf q ≤ s.stopOf p) := by
  obtain ⟨⟨before, hstart⟩, ⟨through, hstop⟩⟩ := hp
  have hprefix {offset : Nat} {u : Text} (hu : Utf8.decode (s.bytes.take offset) = .ok u) : u <+: t :=
    Utf8.prefix_of_decode (by rwa [List.take_append_drop]) hu
  refine ⟨⟨before, hstart, hprefix hstart, position_eq_after hstart⟩,
    ⟨through, hstop, hprefix hstop, position_eq_after hstop⟩, ?_⟩
  intro hs hp
  refine ⟨position_le_position (hs p hp).forward hstart hstop, ?_⟩
  intro q hq ⟨⟨_, hstart'⟩, ⟨_, hstop'⟩⟩
  obtain ⟨hle, hle'⟩ := hs.within hp hq
  exact ⟨position_le_position hle hstart hstart', position_le_position hle' hstop' hstop⟩

/-- Two literals in two lines, the first with a character of two bytes, the second with one of four. -/
def twoLiterals : Source where
  filename := "a.js"
  path := "a.js"
  bytes := (Utf8.encode? [0x22, 0xE9, 0x22, 0x0A, 0x27, 0x1F600, 0x27]).getD []
  tree := ⟨"program", true, 0, 11, [], [.leaf "string" 0 4, .leaf "string" 5 11]⟩
  hasErrors := false

/-- The second literal is three characters long at the start of the second line, and lies in the program. -/
theorem twoLiterals_second :
    let literal : Place := ⟨.leaf "string" 5 11, [(twoLiterals.tree, 1)]⟩
    twoLiterals.IsAligned twoLiterals.root ∧ twoLiterals.IsAligned literal ∧ twoLiterals.InOrder ∧
      twoLiterals.startOf literal = ⟨2, 0⟩ ∧ twoLiterals.stopOf literal = ⟨2, 3⟩ ∧
      twoLiterals.startOf twoLiterals.root ≤ twoLiterals.startOf literal ∧
      twoLiterals.stopOf literal ≤ twoLiterals.stopOf twoLiterals.root := by
  intro literal
  have htext : Utf8.decode twoLiterals.bytes = .ok [0x22, 0xE9, 0x22, 0x0A, 0x27, 0x1F600, 0x27] :=
    Utf8.decode_eq_ok_iff.mpr (by decide)
  have hstart : Utf8.decode (twoLiterals.bytes.take 5) = .ok [0x22, 0xE9, 0x22, 0x0A] :=
    Utf8.decode_eq_ok_iff.mpr (by decide)
  have hempty : Utf8.decode (twoLiterals.bytes.take 0) = .ok [] := Utf8.decode_eq_ok_iff.mpr (by decide)
  have hroot : twoLiterals.IsAligned twoLiterals.root := ⟨⟨_, hempty⟩, ⟨_, htext⟩⟩
  have hliteral : twoLiterals.IsAligned literal := ⟨⟨_, hstart⟩, ⟨_, htext⟩⟩
  have hplaces : twoLiterals.places = [twoLiterals.root,
      ⟨.leaf "string" 0 4, [(twoLiterals.tree, 0)]⟩, literal] := by
    cbv
  have hs : twoLiterals.InOrder := by
    rw [InOrder, hplaces]
    decide
  obtain ⟨⟨before, hbefore, -, hstart'⟩, ⟨through, hthrough, -, hstop'⟩, -⟩ := span_exact htext hliteral
  obtain ⟨-, -, hwithin⟩ := span_exact htext hroot
  obtain rfl := Except.ok.inj (hstart.symm.trans hbefore)
  obtain rfl := Except.ok.inj (htext.symm.trans hthrough)
  obtain ⟨-, hwithin⟩ := hwithin hs (Place.self_mem_subtree _)
  have hbelow : literal ∈ twoLiterals.root.subtree := by
    have hmem : literal ∈ twoLiterals.places := by rw [hplaces]; simp
    exact hmem
  exact ⟨hroot, hliteral, hs, hstart', hstop', hwithin literal hbelow hliteral⟩

end Source

end MessageExtraction
