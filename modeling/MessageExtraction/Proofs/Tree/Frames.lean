import Mathlib.Data.List.GetD
import MessageExtraction.Proofs.Number.Decimal
import MessageExtraction.Proofs.Path
import MessageExtraction.Proofs.Tree.Positions

/-!
Frames around a node. They show the lines of a text with their numbers, one of them marked, and below
that one a caret at the character at which the node starts.
-/

namespace MessageExtraction

namespace Text

variable {c : CodePoint} {t u : Text}

theorem lastLine_of_notMem (h : CodePoint.lineFeed ∉ t) : t.lastLine = t := by
  rw [← List.nil_append t, lastLine_append [] h]
  rfl

/-- The line in which a text ends goes on up to the next line feed behind it. -/
theorem getElem?_splitAt_lineFeed (before after : Text) :
    (splitAt CodePoint.lineFeed (before ++ after))[before.count CodePoint.lineFeed]? =
      some (before.lastLine ++ after.takeWhile (· != CodePoint.lineFeed)) := by
  by_cases h : CodePoint.lineFeed ∈ before
  · -- the first line is a whole one, and the rest is shorter
    obtain ⟨front, rest, rfl, hfront⟩ := List.eq_append_cons_of_mem h
    rw [count_append_cons_of_notMem hfront, List.append_assoc, List.cons_append, splitAt_append hfront,
      List.getElem?_cons_succ, getElem?_splitAt_lineFeed rest after, lastLine_append_lineFeed]
  · rw [List.count_eq_zero_of_not_mem h, ← List.head?_eq_getElem?, head?_splitAt, lastLine_of_notMem h,
      List.takeWhile_append_of_pos fun c hc ↦ bne_iff_ne.mpr (ne_of_mem_of_not_mem hc h)]
termination_by before.length

theorem trimEnd_append_of_blank (t : Text) (h : ∀ c ∈ u, CodePoint.isBlank c = true) :
    trimEnd (t ++ u) = trimEnd t := by
  rw [trimEnd, dropEndWhile, List.reverse_append,
    List.dropWhile_append_of_pos fun c hc ↦ h c (List.mem_reverse.mp hc)]
  rfl

/-- What is stripped at the end and blank is stripped with the blanks. -/
theorem trimEnd_append_dropEndWhile {p : CodePoint → Bool} (hp : ∀ c, p c = true → CodePoint.isBlank c = true)
    (t u : Text) : trimEnd (t ++ dropEndWhile p u) = trimEnd (t ++ u) := by
  have hu : dropEndWhile p u ++ u.rtakeWhile p = u := List.rdropWhile_append_rtakeWhile
  conv_rhs => rw [← hu, ← List.append_assoc]
  rw [trimEnd_append_of_blank _ fun c hc ↦ hp c (List.mem_rtakeWhile_imp hc)]

theorem trimEnd_isPrefix (t : Text) : trimEnd t <+: t := List.rdropWhile_prefix _ t

theorem head?_trimEnd_of_isBlank_eq_false (hc : CodePoint.isBlank c = false) (t : Text) :
    (trimEnd (c :: t)).head? = some c := by
  have hne : trimEnd (c :: t) ≠ [] := by
    intro h
    have hall := List.rdropWhile_eq_nil_iff.mp h c List.mem_cons_self
    rw [hc] at hall
    cases hall
  obtain ⟨d, rest, hd⟩ := List.exists_cons_of_ne_nil hne
  have hprefix := trimEnd_isPrefix (c :: t)
  rw [hd, List.cons_prefix_cons] at hprefix
  rw [hd, hprefix.1, List.head?_cons]

theorem length_padLeft {width : Nat} (h : t.length ≤ width) (fill : CodePoint) :
    (padLeft width fill t).length = width := by
  rw [padLeft, List.length_append, List.length_replicate]
  omega

theorem length_ofNat_le_of_le {n m : Nat} (h : n ≤ m) : (ofNat n).length ≤ (ofNat m).length := by
  have hpos : 0 < (ofNat m).length := List.length_pos_iff.mpr (ofNat_ne_nil m)
  rw [length_ofNat_le_iff hpos]
  exact Nat.lt_of_le_of_lt h ((length_ofNat_le_iff hpos).mp (Nat.le_refl _))

end Text

namespace Source

open CodePoint Text

variable {s : Source} {p : Place} {t before after : Text} {bytes : Bytes}

/-- The lines of the bytes of a text are the bytes of the lines of the text. -/
theorem forall₂_splitLines (h : Utf8.encode? t = some bytes) :
    List.Forall₂ (fun part line ↦ Utf8.encode? part = some line) (t.splitAt CodePoint.lineFeed)
      (splitLines bytes) := by
  induction t generalizing bytes with
  | nil =>
    obtain rfl := Utf8.encode?_nil_eq_some_iff.mp h
    exact .cons rfl .nil
  | cons c t ih =>
    obtain ⟨first, rest, hfirst, hrest, rfl⟩ := Utf8.encode?_cons_eq_some_iff.mp h
    by_cases hc : c = CodePoint.lineFeed
    · subst hc
      rw [hfirst.eq_lineFeed, splitAt_cons_separator, List.singleton_append, splitLines_lineFeed]
      exact .cons rfl (ih hrest)
    · obtain ⟨part, parts, hsplit⟩ := List.exists_cons_of_ne_nil (splitAt_ne_nil CodePoint.lineFeed t)
      obtain ⟨line, lines, hlines⟩ := List.exists_cons_of_ne_nil (splitLines_ne_nil rest)
      have hboth := ih hrest
      rw [hsplit, hlines, List.forall₂_cons] at hboth
      rw [splitAt_cons_of_ne hc hsplit, splitLines_append (hfirst.lineFeed_notMem hc) hlines]
      exact .cons (Utf8.encode?_cons_eq_some_iff.mpr ⟨first, line, hfirst, hboth.1, rfl⟩) hboth.2

theorem map_decodeReplacing_lines (ht : Utf8.decode s.bytes = .ok t) :
    s.lines.map Utf8.decodeReplacing = t.splitAt CodePoint.lineFeed := by
  have h := forall₂_splitLines (Utf8.decode_eq_ok_iff.mp ht)
  rw [lines]
  generalize t.splitAt CodePoint.lineFeed = parts, splitLines s.bytes = lines at h ⊢
  induction h with
  | nil => rfl
  | cons hline _ ih => rw [List.map_cons, ih, Utf8.decodeReplacing_of_encode? hline]

/-- What stands before a line in a frame: the mark, the number, and a bar. -/
def gutter (width number : Nat) (isMarked : Bool) : Text :=
  (if isMarked then ("> " : Text) else ("  " : Text)) ++ padLeft width space (ofNat number) ++ (" | " : Text)

theorem frameLine_eq (width number : Nat) (isMarked : Bool) (line : Bytes) :
    frameLine width number isMarked line =
      trimEnd (gutter width number isMarked ++ Utf8.decodeReplacing line) := by
  have hreturn (c : CodePoint) (hc : (c == carriageReturn) = true) : isBlank c = true := by
    rw [beq_iff_eq.mp hc]
    decide
  exact trimEnd_append_dropEndWhile hreturn _ _

theorem lineFeed_notMem_gutter (width number : Nat) (isMarked : Bool) :
    CodePoint.lineFeed ∉ gutter width number isMarked := by
  have hmark : CodePoint.lineFeed ∉ (if isMarked then ("> " : Text) else ("  " : Text)) := by
    cases isMarked <;> decide
  have hnumber : CodePoint.lineFeed ∉ ofNat number :=
    fun h ↦ forall_mem_ofNat (P := (· ≠ CodePoint.lineFeed)) (by decide) number _ h rfl
  have hbar : CodePoint.lineFeed ∉ (" | " : Text) := by decide
  simp [gutter, padLeft, hmark, hnumber, hbar]

theorem length_gutter {width number : Nat} (h : (ofNat number).length ≤ width) (isMarked : Bool) :
    (gutter width number isMarked).length = width + 5 := by
  have hmark : (if isMarked then ("> " : Text) else ("  " : Text)).length = 2 := by
    cases isMarked <;> rfl
  have hbar : (" | " : Text).length = 3 := rfl
  rw [gutter, List.length_append, List.length_append, hmark, hbar, length_padLeft h]
  omega

theorem lineFeed_notMem_caretLine (width column : Nat) : CodePoint.lineFeed ∉ caretLine width column := by
  have hbar : CodePoint.lineFeed ∉ (" | " : Text) := by decide
  simp [caretLine, blanks, hbar]

theorem head?_caretLine (width column : Nat) : (caretLine width column).head? = some space := by
  rw [caretLine, blanks, Nat.add_comm, List.replicate_succ]
  rfl

theorem idxOf_caretLine (width column : Nat) : (caretLine width column).idxOf caret = width + 5 + column := by
  have hbar : caret ∉ (" | " : Text) := by decide
  have hfront : caret ∉ blanks (2 + width) ++ (" | " : Text) ++ blanks column := by
    simp [blanks, hbar]
  have hlength : (" | " : Text).length = 3 := rfl
  rw [caretLine, List.idxOf_append_of_notMem hfront, List.idxOf_cons_self]
  simp only [List.length_append, blanks, List.length_replicate, hlength]
  omega

/-- The numbers of the first and of the last line in a frame around a row. -/
def firstShown (row : Nat) : Nat := max 1 (row - 2)

def lastShown (t : Text) (row : Nat) : Nat := min (t.splitAt CodePoint.lineFeed).length (row + 2)

/-- The width of the numbers in a frame, which is that of the last one. -/
def numberWidth (t : Text) (row : Nat) : Nat := (ofNat (lastShown t row)).length

/-- The line with a number in a frame around a row, with all the blanks at its end. -/
def framedLine (t : Text) (row number : Nat) : Text :=
  gutter (numberWidth t row) number (number == row) ++ (t.splitAt CodePoint.lineFeed).getD (number - 1) []

theorem lineFeed_notMem_framedLine (t : Text) (row number : Nat) :
    CodePoint.lineFeed ∉ framedLine t row number := by
  have hline : CodePoint.lineFeed ∉ (t.splitAt CodePoint.lineFeed).getD (number - 1) [] := by
    rw [List.getD_eq_getElem?_getD]
    cases h : (t.splitAt CodePoint.lineFeed)[number - 1]? with
    | none => exact List.not_mem_nil
    | some part => exact notMem_of_mem_splitAt (List.mem_of_getElem? h)
  rw [framedLine, List.mem_append]
  exact not_or.mpr ⟨lineFeed_notMem_gutter _ _ _, hline⟩

/-- The mark of the row that a frame is around. -/
def rowMark : CodePoint := 0x3E

theorem head?_trimEnd_framedLine (t : Text) (row number : Nat) :
    (trimEnd (framedLine t row number)).head? = some rowMark ↔ number = row := by
  constructor
  · intro h
    by_contra hne
    obtain ⟨rest, hrest⟩ : ∃ rest, framedLine t row number = space :: rest := by
      rw [framedLine, beq_eq_false_iff_ne.mpr hne]
      exact ⟨_, rfl⟩
    obtain ⟨more, hmore⟩ := List.head?_eq_some_iff.mp h
    have hprefix := trimEnd_isPrefix (framedLine t row number)
    rw [hmore, hrest, List.cons_prefix_cons] at hprefix
    exact absurd hprefix.1 (by decide)
  · rintro rfl
    obtain ⟨rest, hrest⟩ : ∃ rest, framedLine t number number = rowMark :: rest := by
      rw [framedLine, beq_self_eq_true]
      exact ⟨_, rfl⟩
    rw [hrest]
    exact head?_trimEnd_of_isBlank_eq_false (by decide) rest

/-- A run of lines with their numbers, which count from one. -/
theorem mapIdx_take_drop {α β : Type} (f : Nat → α → β) (d : α) {lines : List α} {first last : Nat}
    (hfirst : 1 ≤ first) (hlast : last ≤ lines.length) :
    ((lines.take last).drop (first - 1)).mapIdx (fun i line ↦ f (first + i) line) =
      (List.range' first (last + 1 - first)).map fun n ↦ f n (lines.getD (n - 1) d) := by
  apply List.ext_getElem
  · rw [List.length_mapIdx, List.length_drop, List.length_take, List.length_map, List.length_range']
    omega
  · intro i hi hi'
    rw [List.length_map, List.length_range'] at hi'
    have hindex : first + 1 * i - 1 = first - 1 + i := by omega
    have hlt : first - 1 + i < lines.length := by omega
    simp only [List.getElem_mapIdx, List.getElem_drop, List.getElem_take, List.getElem_map,
      List.getElem_range', hindex]
    rw [Nat.one_mul, List.getD_eq_getElem _ _ hlt]

/-- The lines of a frame around the row in which a node starts, with a caret below that row. -/
theorem frame_eq (ht : Utf8.decode s.bytes = .ok t) {row column : Nat} (hp : s.startOf p = ⟨row, column⟩) :
    s.frame p = joinWith [CodePoint.lineFeed]
      ((List.range' (firstShown row) (lastShown t row + 1 - firstShown row)).flatMap fun n ↦
        if n = row then [trimEnd (framedLine t row n), caretLine (numberWidth t row) column]
        else [trimEnd (framedLine t row n)]) := by
  have hlength : s.lines.length = (t.splitAt CodePoint.lineFeed).length := by
    rw [← map_decodeReplacing_lines ht, List.length_map]
  have hlast : min s.lines.length (row + frameMargin) = lastShown t row := by
    rw [hlength]
    rfl
  have hline (n : Nat) (isMarked : Bool) (h : (n == row) = isMarked) :
      frameLine (numberWidth t row) n isMarked (s.lines.getD (n - 1) []) = trimEnd (framedLine t row n) := by
    have hdecoded : Utf8.decodeReplacing (s.lines.getD (n - 1) []) =
        (t.splitAt CodePoint.lineFeed).getD (n - 1) [] := by
      have hempty : Utf8.decodeReplacing [] = [] := Utf8.decodeReplacing_of_encode? rfl
      have hmap := List.getD_map s.lines [] (n := n - 1) Utf8.decodeReplacing
      rw [hempty, map_decodeReplacing_lines ht] at hmap
      exact hmap.symm
    rw [frameLine_eq, hdecoded, framedLine, h]
  -- the lines are counted from one here, and from the first that is shown in the frame
  simp only [frame, hp, hlast]
  congr 1
  rw [List.flatMap_def]
  congr 1
  refine (mapIdx_take_drop (fun n line ↦ if n = row then [frameLine (numberWidth t row) n true line,
    caretLine (numberWidth t row) column] else [frameLine (numberWidth t row) n false line]) []
    (Nat.le_max_left _ _) ?_).trans ?_
  · rw [hlength]
    exact Nat.min_le_left _ _
  · apply List.map_congr_left
    intro n _
    by_cases hn : n = row
    · rw [if_pos hn, if_pos hn, hline n true (beq_iff_eq.mpr hn)]
    · rw [if_neg hn, if_neg hn, hline n false (beq_eq_false_iff_ne.mpr hn)]

/-- Before and after one member of a run of numbers, a choice made for that one is made the other way. -/
theorem flatMap_range'_split {α : Type} (f : Nat → α) (extra : α) {first row last : Nat} (hfirst : first ≤ row)
    (hlast : row ≤ last) :
    ((List.range' first (last + 1 - first)).flatMap fun n ↦ if n = row then [f n, extra] else [f n]) =
      (List.range' first (row - first)).map f ++ f row :: extra :: (List.range' (row + 1) (last - row)).map f := by
  have hrange : List.range' first (last + 1 - first) =
      List.range' first (row - first) ++ row :: List.range' (row + 1) (last - row) := by
    have hlength : last + 1 - first = (row - first) + (last - row + 1) := by omega
    have hrow : first + (row - first) = row := by omega
    rw [hlength, ← List.range'_append_1, hrow, List.range'_succ]
  have hothers (l : List Nat) (hl : row ∉ l) :
      (l.flatMap fun n ↦ if n = row then [f n, extra] else [f n]) = l.map f := by
    rw [List.map_eq_flatMap]
    apply List.flatMap_congr
    intro n hn
    exact if_neg (ne_of_mem_of_not_mem hn hl)
  rw [hrange, List.flatMap_append, List.flatMap_cons, if_pos rfl, hothers _ (by simp; omega),
    hothers _ (by simp)]
  rfl

theorem row_le_lastShown (before after : Text) :
    before.count CodePoint.lineFeed + 1 ≤ lastShown (before ++ after) (before.count CodePoint.lineFeed + 1) := by
  have hrow := getElem?_splitAt_lineFeed before after
  have hlt := (List.getElem?_eq_some_iff.mp hrow).1
  rw [lastShown]
  omega

/-- In the line in which a text ends, the rest of the line stands behind as many characters as the caret
has before it. -/
theorem framedLine_eq_append (before after : Text) :
    let row := before.count CodePoint.lineFeed + 1
    ∃ front : Text,
      framedLine (before ++ after) row row = front ++ after.takeWhile (· != CodePoint.lineFeed) ∧
      front.length =
        (caretLine (numberWidth (before ++ after) row) before.lastLine.length).idxOf caret := by
  intro row
  have hline : ((before ++ after).splitAt CodePoint.lineFeed).getD (row - 1) [] =
      before.lastLine ++ after.takeWhile (· != CodePoint.lineFeed) := by
    rw [List.getD_eq_getElem?_getD, Nat.add_sub_cancel, getElem?_splitAt_lineFeed, Option.getD_some]
  refine ⟨gutter (numberWidth (before ++ after) row) row (row == row) ++ before.lastLine, ?_, ?_⟩
  · rw [framedLine, hline, List.append_assoc]
  · have hwidth : (ofNat row).length ≤ numberWidth (before ++ after) row :=
      length_ofNat_le_of_le (row_le_lastShown before after)
    rw [List.length_append, idxOf_caretLine, length_gutter hwidth]

/-- The rows of a frame: those before the row in which a node starts, that row, a row with a caret, and
those behind. -/
theorem splitAt_frame (ht : Utf8.decode s.bytes = .ok t) {row column : Nat} (hp : s.startOf p = ⟨row, column⟩)
    (hfirst : firstShown row ≤ row) (hlast : row ≤ lastShown t row) :
    (s.frame p).splitAt CodePoint.lineFeed =
      (List.range' (firstShown row) (row - firstShown row)).map (fun n ↦ trimEnd (framedLine t row n)) ++
        trimEnd (framedLine t row row) :: caretLine (numberWidth t row) column ::
          (List.range' (row + 1) (lastShown t row - row)).map fun n ↦ trimEnd (framedLine t row n) := by
  rw [frame_eq ht hp, flatMap_range'_split _ _ hfirst hlast]
  have hframed (n : Nat) : CodePoint.lineFeed ∉ trimEnd (framedLine t row n) :=
    fun h ↦ lineFeed_notMem_framedLine t row n ((trimEnd_isPrefix _).subset h)
  apply splitAt_joinWith (by simp)
  intro part hpart
  simp only [List.mem_append, List.mem_cons, List.mem_map] at hpart
  obtain ⟨n, -, rfl⟩ | rfl | rfl | ⟨n, -, rfl⟩ := hpart
  · exact hframed n
  · exact hframed row
  · exact lineFeed_notMem_caretLine _ _
  · exact hframed n

/-- The frame around a node that starts where a text ends within a larger one. It shows the rows from two
before that in which the node starts up to two behind it, each without the blanks at its end; this row
alone is marked, and what follows it is a caret below the character at which the node starts. -/
theorem frame_points_at_start (ht : Utf8.decode s.bytes = .ok t)
    (hbefore : Utf8.decode (s.bytes.take p.node.start) = .ok before) :
    let row := before.count CodePoint.lineFeed + 1
    let framed := fun n ↦ trimEnd (framedLine t row n)
    ∃ caretRow : Text,
      (s.frame p).splitAt CodePoint.lineFeed =
        (List.range' (firstShown row) (row - firstShown row)).map framed ++
          framed row :: caretRow :: (List.range' (row + 1) (lastShown t row - row)).map framed ∧
      (firstShown row ≤ row ∧ row ≤ lastShown t row) ∧
      (∀ n, (framed n).head? = some rowMark ↔ n = row) ∧ caretRow.head? ≠ some rowMark ∧
      ∃ front after, t = before ++ after ∧
        framedLine t row row = front ++ after.takeWhile (· != CodePoint.lineFeed) ∧
        front.length = caretRow.idxOf caret ∧ caret ∈ caretRow := by
  intro row framed
  obtain ⟨after, rfl⟩ : before <+: t := Utf8.prefix_of_decode (by rwa [List.take_append_drop]) hbefore
  have hfirst : firstShown row ≤ row := by
    rw [firstShown]
    omega
  have hlast : row ≤ lastShown (before ++ after) row := row_le_lastShown before after
  obtain ⟨front, hframed, hfront⟩ := framedLine_eq_append before after
  refine ⟨caretLine (numberWidth (before ++ after) row) before.lastLine.length,
    splitAt_frame ht (position_eq_after hbefore) hfirst hlast, ⟨hfirst, hlast⟩,
    head?_trimEnd_framedLine _ row, ?_, front, after, rfl, hframed, hfront, ?_⟩
  · rw [head?_caretLine]
    decide
  · simp [caretLine]

end Source

namespace LateCall

open CodePoint Source

/-- What stands before a call in the ninth of ten lines: eight empty lines, and a string with a character
of two bytes and one of four. -/
def before : Text := List.replicate 8 CodePoint.lineFeed ++ ("\"é😀\" " : Text)

/-- The call with blanks behind it, and the last line. -/
def after : Text := "f() \r\ng"

def source : Source where
  filename := "a.js"
  path := "a.js"
  bytes := (Utf8.encode? (before ++ after)).getD []
  tree := ⟨"program", true, 8, 24, [],
    [.leaf "string" 8 16, .leaf "call_expression" 17 20]⟩
  hasErrors := false

def call : Place := ⟨.leaf "call_expression" 17 20, [(source.tree, 1)]⟩

/-- The caret stands below the first letter of the call, behind numbers of two digits and a string in
which characters are longer than bytes. -/
theorem caret_below_call : Utf8.decode source.bytes = .ok (before ++ after) ∧
    Utf8.decode (source.bytes.take call.node.start) = .ok before ∧
    ∃ caretRow : Text, (source.frame call).splitAt CodePoint.lineFeed =
        [("   7 |" : Text), ("   8 |" : Text), (">  9 | \"é😀\" f()" : Text), caretRow, ("  10 | g" : Text)] ∧
      caretRow.idxOf caret = 12 := by
  have htext : Utf8.decode source.bytes = .ok (before ++ after) := Utf8.decode_eq_ok_iff.mpr (by decide)
  have hbefore : Utf8.decode (source.bytes.take call.node.start) = .ok before :=
    Utf8.decode_eq_ok_iff.mpr (by decide)
  obtain ⟨caretRow, hlines, -, -, -, front, rest, hrest, hframed, hfront, -⟩ :=
    frame_points_at_start htext hbefore
  refine ⟨htext, hbefore, caretRow, ?_, ?_⟩
  · rw [hlines]
    cbv
  · obtain rfl := List.append_cancel_left hrest
    have hcount : before.count CodePoint.lineFeed + 1 = 9 := by decide
    have hrow : (framedLine (before ++ after) 9 9).length = 17 := by cbv
    have hshown : (after.takeWhile (· != CodePoint.lineFeed)).length = 5 := by decide
    have hlength := congrArg List.length hframed
    rw [hcount, hrow, List.length_append, hfront, hshown] at hlength
    omega

end LateCall

end MessageExtraction
