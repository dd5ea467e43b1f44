import Offside.Proofs.Cursor

/-! The lines of a text. A line holds code if anything but layout stands in front of its comment;
what a margin measures is the width of the first line that does. -/

namespace Offside

def CodeUnit.isLayout (u : CodeUnit) : Bool := u == space || u == tab || u == carriageReturn

theorem CodeUnit.isLayout_of_isBlank {u : CodeUnit} (h : u.isBlank = true) : u.isLayout = true := by
  rw [isBlank] at h
  rw [isLayout, h]
  rfl

namespace Text

theorem isLayout_returns (k : Nat) : ∀ u ∈ returns k, u.isLayout = true := by
  intro u hu
  rw [List.eq_of_mem_replicate hu]
  rfl

def lines (t : Text) : List Text := t.splitOn .lineFeed

def code (line : Text) : Text := line.takeWhile (· != .hash)

def isCode (line : Text) : Bool := (code line).any fun u => !u.isLayout

def columns (t : Text) : Nat := t.count .space + 3 * t.count .tab

def width (line : Text) : Nat := min 32767 (columns ((code line).takeWhile CodeUnit.isLayout))

def codeWidth? (lines : List Text) : Option Nat := (lines.find? isCode).map width

theorem lines_nil : lines [] = [[]] := rfl

theorem lines_lineFeed (t : Text) : lines (.lineFeed :: t) = [] :: lines t :=
  List.splitOn_append_cons_self [] t

theorem lines_cons {u : CodeUnit} {t line : Text} {rest : List Text} (hu : u ≠ .lineFeed)
    (ht : lines t = line :: rest) : lines (u :: t) = (u :: line) :: rest := by
  rw [lines, List.splitOn_cons_eq_if_modifyHead, if_neg (by simpa using hu)]
  change (lines t).modifyHead (u :: ·) = _
  rw [ht, List.modifyHead_cons]

theorem exists_lines (t : Text) : ∃ line rest, lines t = line :: rest :=
  List.exists_cons_of_ne_nil (List.splitOn_ne_nil _ t)

theorem lines_append {pre t line : Text} {rest : List Text} (hpre : .lineFeed ∉ pre)
    (ht : lines t = line :: rest) : lines (pre ++ t) = (pre ++ line) :: rest := by
  induction pre with
  | nil => exact ht
  | cons u pre ih =>
    rw [List.mem_cons, not_or] at hpre
    exact lines_cons (Ne.symm hpre.1) (ih hpre.2)

theorem lineFeed_not_mem_of_forall {p : CodeUnit → Bool} {t : Text} (hp : p .lineFeed = false)
    (h : ∀ u ∈ t, p u = true) : .lineFeed ∉ t := by
  intro hl
  rw [h _ hl] at hp
  cases hp

theorem lineFeed_not_mem_of_mem_lines {t line : Text} (h : line ∈ t.lines) : .lineFeed ∉ line := by
  induction t generalizing line with
  | nil =>
    rw [List.mem_singleton.1 h]
    exact List.not_mem_nil
  | cons u t ih =>
    by_cases hu : u = .lineFeed
    · subst hu
      rw [lines_lineFeed] at h
      rcases List.mem_cons.1 h with rfl | h
      · exact List.not_mem_nil
      · exact ih h
    · obtain ⟨first, rest, hlines⟩ := exists_lines t
      rw [lines_cons hu hlines] at h
      rcases List.mem_cons.1 h with rfl | h
      · rw [List.mem_cons, not_or]
        exact ⟨Ne.symm hu, ih (by rw [hlines]; exact List.mem_cons_self)⟩
      · exact ih (by rw [hlines]; exact List.mem_cons_of_mem first h)

theorem length_lines (t : Text) : t.lines.length = t.count .lineFeed + 1 := by
  induction t with
  | nil => rfl
  | cons u t ih =>
    by_cases hu : u = .lineFeed
    · rw [hu, lines_lineFeed, List.length_cons, ih, List.count_cons_self]
    · obtain ⟨line, rest, hlines⟩ := exists_lines t
      rw [hlines] at ih
      rw [lines_cons hu hlines, List.count_cons_of_ne hu]
      exact ih

theorem drop_lines (behind t : Text) :
    (lines (behind ++ .lineFeed :: t)).drop (behind.count .lineFeed + 1) = t.lines := by
  rw [lines, List.splitOn_append_cons_self, ← length_lines]
  exact List.drop_left

theorem code_cons {u : CodeUnit} (hu : u ≠ .hash) (line : Text) :
    code (u :: line) = u :: code line := by
  rw [code, List.takeWhile_cons, if_pos (by simpa using hu)]
  rfl

theorem code_hash (line : Text) : code (.hash :: line) = [] := rfl

theorem isCode_layout {u : CodeUnit} (hu : u.isLayout = true) (line : Text) :
    isCode (u :: line) = isCode line := by
  have hne : u ≠ .hash := by
    rintro rfl
    exact absurd hu (by decide)
  rw [isCode, code_cons hne, List.any_cons, hu]
  rfl

theorem isCode_cons {u : CodeUnit} (hu : u.isLayout = false) (hh : u ≠ .hash) (line : Text) :
    isCode (u :: line) = true := by
  rw [isCode, code_cons hh, List.any_cons, hu]
  rfl

theorem isCode_hash (line : Text) : isCode (.hash :: line) = false := rfl

theorem isCode_append {run : Text} (hrun : ∀ u ∈ run, u.isLayout = true) (line : Text) :
    isCode (run ++ line) = isCode line := by
  induction run with
  | nil => rfl
  | cons u run ih =>
    rw [List.cons_append, isCode_layout (hrun u List.mem_cons_self)]
    exact ih fun v hv => hrun v (List.mem_cons_of_mem u hv)

theorem codeWidth?_append (above below : List Text) :
    codeWidth? (above ++ below) = (codeWidth? above).or (codeWidth? below) := by
  rw [codeWidth?, codeWidth?, codeWidth?, List.find?_append]
  cases above.find? Text.isCode <;> rfl

theorem codeWidth?_cons_of_isCode {line : Text} (h : line.isCode = true) (rest : List Text) :
    codeWidth? (line :: rest) = some line.width := by
  rw [codeWidth?, List.find?_cons_of_pos h]
  rfl

theorem codeWidth?_cons_of_not_isCode {line : Text} (h : line.isCode = false) (rest : List Text) :
    codeWidth? (line :: rest) = codeWidth? rest := by
  rw [codeWidth?, List.find?_cons_of_neg (by rw [h]; exact Bool.false_ne_true), codeWidth?]

theorem isCode_of_codeWidth?_eq_none {ls : List Text} (h : codeWidth? ls = none) :
    ∀ l ∈ ls, l.isCode = false := by
  rw [codeWidth?, Option.map_eq_none_iff, List.find?_eq_none] at h
  intro l hl
  exact Bool.eq_false_iff.2 (h l hl)

end Text

namespace Margin

open Text

/-- The width that measuring on from a width leads to: that of the line at hand if it still can hold
code, and that of a later one otherwise. -/
def expected (comment : Bool) (width : Nat) : List Text → Option Nat
  | [] => none
  | line :: rest =>
    if comment = false ∧ isCode line then
      some (min 32767 (width + columns ((code line).takeWhile CodeUnit.isLayout)))
    else codeWidth? rest

theorem expected_start (lines : List Text) : expected false 0 lines = codeWidth? lines := by
  cases lines with
  | nil => rfl
  | cons line rest =>
    cases h : isCode line <;> simp [expected, codeWidth?, h, Text.width]

theorem expected_comment (width : Nat) (u : CodeUnit) (line : Text) (rest : List Text) :
    expected true width ((u :: line) :: rest) = expected true width (line :: rest) := by
  simp [expected]

theorem expected_layout {u : CodeUnit} (hu : u.isLayout = true) (width : Nat) (line : Text)
    (rest : List Text) :
    expected false width ((u :: line) :: rest) =
      expected false (widen width (columns [u])) (line :: rest) := by
  have hne : u ≠ .hash := by
    rintro rfl
    exact absurd hu (by decide)
  have hw : ∀ run, min 32767 (width + columns (u :: run)) =
      min 32767 (widen width (columns [u]) + columns run) := by
    intro run
    simp only [columns, widen, maxWidth, List.count_cons, List.count_nil]
    omega
  rw [expected, expected, isCode_layout hu, code_cons hne, List.takeWhile_cons, if_pos hu, hw]

theorem expected_code {u : CodeUnit} (hu : u.isLayout = false) (hh : u ≠ .hash) {width : Nat}
    (hw : width ≤ maxWidth) (line : Text) (rest : List Text) :
    expected false width ((u :: line) :: rest) = some width := by
  have hcolumns : columns ((code (u :: line)).takeWhile CodeUnit.isLayout) = 0 := by
    rw [code_cons hh, List.takeWhile_cons, hu]
    rfl
  rw [expected, if_pos ⟨rfl, isCode_cons hu hh line⟩, hcolumns, Nat.add_zero]
  exact congrArg some (Nat.min_eq_right hw)

section Measure

variable {u : CodeUnit} {width : Nat} (passed : Nat) (t : Text)

theorem measureFrom_lineFeed (comment : Bool) (width : Nat) :
    measureFrom comment width passed (.lineFeed :: t) = measureFrom false 0 (passed + 1) t := by
  rw [measureFrom, if_pos rfl]

theorem measureFrom_comment (width : Nat) (hu : u ≠ .lineFeed) :
    measureFrom true width passed (u :: t) = measureFrom true width (passed + 1) t := by
  rw [measureFrom, if_neg hu, if_pos rfl]

theorem measureFrom_hash (width : Nat) :
    measureFrom false width passed (.hash :: t) = measureFrom true width (passed + 1) t := rfl

theorem measureFrom_layout (hu : u.isLayout = true) (hw : width ≤ maxWidth) :
    measureFrom false width passed (u :: t) =
      measureFrom false (widen width (columns [u])) (passed + 1) t := by
  simp only [CodeUnit.isLayout, Bool.or_eq_true, beq_iff_eq, or_assoc] at hu
  rcases hu with rfl | rfl | rfl
  · rfl
  · rfl
  · have hzero : widen width (columns [CodeUnit.carriageReturn]) = width := Nat.min_eq_right hw
    rw [hzero]
    rfl

theorem measureFrom_code (hu : u.isLayout = false) (hh : u ≠ .hash) (hl : u ≠ .lineFeed) :
    measureFrom false width passed (u :: t) = ⟨width, passed⟩ := by
  simp only [CodeUnit.isLayout, Bool.or_eq_false_iff, beq_eq_false_iff_ne] at hu
  rw [measureFrom, if_neg hl, if_neg Bool.false_ne_true, if_neg hu.2, if_neg hu.1.1,
    if_neg hu.1.2, if_neg hh]

end Measure

theorem measureFrom_spec (comment : Bool) (width passed : Nat) (t : Text) (hw : width ≤ maxWidth) :
    (measureFrom comment width passed t).width = (expected comment width t.lines).getD 0 ∧
      ((measureFrom comment width passed t).passed < passed + t.length ↔
        (expected comment width t.lines).isSome) := by
  induction t generalizing comment width passed with
  | nil => cases comment <;> simp [measureFrom, expected, lines_nil, isCode, code, codeWidth?]
  | cons u t ih =>
    obtain ⟨line, rest, hlines⟩ := exists_lines t
    have hlength : passed + (u :: t).length = passed + 1 + t.length := by
      rw [List.length_cons, Nat.add_assoc, Nat.add_comm 1]
    rw [hlength]
    by_cases hl : u = .lineFeed
    · subst hl
      have hstart : expected comment width ([] :: lines t) = expected false 0 (lines t) := by
        rw [expected_start]
        simp [expected, isCode, code]
      rw [measureFrom_lineFeed, lines_lineFeed, hstart]
      exact ih false 0 (passed + 1) (Nat.zero_le _)
    rw [lines_cons hl hlines]
    cases comment with
    | true =>
      rw [measureFrom_comment passed t width hl, expected_comment, ← hlines]
      exact ih true width (passed + 1) hw
    | false =>
      by_cases hh : u = .hash
      · subst hh
        have hcomment : expected false width ((.hash :: line) :: rest) =
            expected true width (line :: rest) := by
          simp [expected, isCode_hash]
        rw [measureFrom_hash, hcomment, ← hlines]
        exact ih true width (passed + 1) hw
      · cases hu : u.isLayout with
        | true =>
          rw [measureFrom_layout passed t hu hw, expected_layout hu, ← hlines]
          exact ih false _ (passed + 1) (Nat.min_le_left ..)
        | false =>
          rw [measureFrom_code passed t hu hh hl, expected_code hu hh hw]
          refine ⟨rfl, ?_⟩
          simp only [Option.isSome_some, iff_true]
          omega

theorem width_ofText (t : Text) : (ofText t).width = (codeWidth? t.lines).getD 0 := by
  rw [ofText, (measureFrom_spec false 0 0 t (Nat.zero_le _)).1, expected_start]

theorem passed_ofText_lt_iff (t : Text) :
    (ofText t).passed < t.length ↔ (codeWidth? t.lines).isSome := by
  have h := (measureFrom_spec false 0 0 t (Nat.zero_le _)).2
  rwa [Nat.zero_add, expected_start] at h

end Margin

end Offside
