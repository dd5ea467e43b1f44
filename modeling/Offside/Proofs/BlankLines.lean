import Offside.Proofs.Marks

/-! Lines without code. Every line feed is measured on its own, so one more line is one more
measurement of the same code line. Main statement: putting in a line without code leaves the block
structure as it is, except in front of a code line that is wider than the block that its own line
break returned to; there it opens a block. -/

namespace Offside

namespace Text

def IsBlank (line : Text) : Prop :=
  ∃ run : Text, (∀ u ∈ run, u.isLayout = true) ∧
    (line = run ∨ ∃ body : Text, .lineFeed ∉ body ∧ line = run ++ .hash :: body)

/-- Puts a line in front of the line with number `i`, counted from zero, or behind the last. -/
def insertLine (source : Text) (i : Nat) (line : Text) : Text :=
  join [.lineFeed] (source.lines.take i ++ line :: source.lines.drop i)

namespace IsBlank

variable {line : Text}

theorem isCode (h : line.IsBlank) : line.isCode = false := by
  obtain ⟨run, hrun, rfl | ⟨body, -, rfl⟩⟩ := h
  · rw [← List.append_nil line, isCode_append hrun]
    rfl
  · rw [isCode_append hrun, isCode_hash]

theorem lineFeed_not_mem (h : line.IsBlank) : .lineFeed ∉ line := by
  obtain ⟨run, hrun, hline⟩ := h
  have hnot := lineFeed_not_mem_of_forall rfl hrun
  rcases hline with rfl | ⟨body, hbody, rfl⟩
  · exact hnot
  · rw [List.mem_append, List.mem_cons, not_or, not_or]
    exact ⟨hnot, by decide, hbody⟩

end IsBlank

theorem lines_insertLine (source : Text) (i : Nat) {line : Text} (h : .lineFeed ∉ line) :
    (source.insertLine i line).lines = source.lines.take i ++ line :: source.lines.drop i := by
  apply List.splitOn_intercalate
  · intro l hl
    rcases List.mem_append.1 hl with hl | hl
    · exact lineFeed_not_mem_of_mem_lines (List.mem_of_mem_take hl)
    · rcases List.mem_cons.1 hl with rfl | hl
      · exact h
      · exact lineFeed_not_mem_of_mem_lines (List.mem_of_mem_drop hl)
  · exact List.append_ne_nil_of_right_ne_nil _ (List.cons_ne_nil _ _)

end Text

namespace Outline

open Text (codeWidth? codeWidth?_append codeWidth?_cons_of_isCode codeWidth?_cons_of_not_isCode)

/-- The most blocks that lines have open at once, where any number can be tracked. -/
def nesting (stack : List Nat) : List Text → Nat
  | [] => stack.length
  | _ :: rest =>
    max stack.length (nesting (opened (stack.length + 1) stack (codeWidth? rest)) rest)

/-- The width of the innermost block that is open behind the first `i` lines. -/
def currentAt (capacity : Nat) (lines : List Text) (i : Nat) : Nat :=
  (behind capacity (codeWidth? (lines.drop i)) [0] (lines.take i)).headD 0

section Words

theorem words_eq_nil_iff (offset : Nat) (t : Text) :
    words offset t = [] ↔ t.any (fun u => !u.isLayout) = false := by
  fun_induction words offset t with
  | case1 => exact iff_of_true rfl rfl
  | case2 offset u t hu ih => rw [ih, List.any_cons, hu, Bool.not_true, Bool.false_or]
  | case3 offset u t hu hs ih => simp [hu]
  | case4 offset u t hu hs length ih => simp [hu]

theorem texts_eq_nil_iff (line : Text) : texts line = [] ↔ line.isCode = false := by
  rw [texts, List.map_eq_nil_iff, words_eq_nil_iff]
  rfl

end Words

section Opened

variable {capacity width : Nat} {stack : List Nat} {next : Option Nat}

theorem remaining_of_le (h : stack.headD 0 ≤ width) : remaining width stack = stack := by
  cases stack with
  | nil => rfl
  | cons top stack =>
    cases stack with
    | nil => rfl
    | cons outer rest =>
      rw [remaining]
      exact if_neg (Nat.not_lt.2 h)

theorem getLast?_remaining (width : Nat) (stack : List Nat) :
    (remaining width stack).getLast? = stack.getLast? := by
  fun_induction remaining width stack with
  | case1 top outer rest _ ih => rw [ih, List.getLast?_cons_cons]
  | case2 => rfl
  | case3 => rfl

theorem headD_remaining_le (h : stack.getLast? = some 0) :
    (remaining width stack).headD 0 ≤ width := by
  fun_induction remaining width stack with
  | case1 top outer rest _ ih =>
    rw [List.getLast?_cons_cons] at h
    exact ih h
  | case2 top outer rest hle => exact Nat.not_lt.1 hle
  | case3 stack hshort =>
    cases stack with
    | nil => exact Nat.zero_le _
    | cons top rest =>
      cases rest with
      | nil =>
        cases h
        exact Nat.zero_le _
      | cons outer rest => exact absurd rfl (hshort top outer rest)

theorem getLast?_opened (h : stack.getLast? = some 0) :
    (opened capacity stack next).getLast? = some 0 := by
  simp only [opened]
  split
  · split
    · rw [List.getLast?_cons, h]
      rfl
    · exact h
  · rw [getLast?_remaining, h]

theorem headD_opened_le (h : stack.getLast? = some 0) :
    (opened capacity stack next).headD 0 ≤ next.getD 0 := by
  simp only [opened]
  split
  · rename_i hlt
    split
    · exact Nat.le_refl _
    · exact Nat.le_of_lt hlt
  · exact headD_remaining_le h

theorem opened_of_eq (h : stack.headD 0 = next.getD 0) : opened capacity stack next = stack := by
  simp only [opened, h, Nat.lt_irrefl, if_false]
  exact remaining_of_le (Nat.le_of_eq h)

theorem turns_of_eq (h : stack.headD 0 = next.getD 0) : turns capacity stack next = [] := by
  rw [turns, if_neg (Nat.not_lt.2 (Nat.le_of_eq h.symm)), returned_of_le (Nat.le_of_eq h)]
  rfl

theorem headD_opened_eq (hle : stack.headD 0 ≤ next.getD 0)
    (hroom : stack.headD 0 < next.getD 0 → stack.length < capacity) :
    (opened capacity stack next).headD 0 = next.getD 0 := by
  rcases Nat.lt_or_eq_of_le hle with h | h
  · simp only [opened, h, hroom h, if_true]
    rfl
  · rw [opened_of_eq h, h]

end Opened

section Nesting

variable {capacity : Nat} {stack : List Nat} {line : Text} {rest : List Text}

theorem length_le_nesting (stack : List Nat) (lines : List Text) :
    stack.length ≤ nesting stack lines := by
  cases lines with
  | nil => exact Nat.le_refl _
  | cons line rest => exact Nat.le_max_left ..

theorem room_of_nesting (h : nesting stack (line :: rest) ≤ capacity)
    (hlt : stack.headD 0 < (codeWidth? rest).getD 0) : stack.length < capacity := by
  have hrest := Nat.le_trans (length_le_nesting _ rest) (Nat.max_le.1 h).2
  simp only [opened, hlt, Nat.lt_succ_self, if_true] at hrest
  exact hrest

theorem nesting_opened (h : nesting stack (line :: rest) ≤ capacity) :
    nesting (opened capacity stack (codeWidth? rest)) rest ≤ capacity := by
  have hopened : opened capacity stack (codeWidth? rest) =
      opened (stack.length + 1) stack (codeWidth? rest) := by
    simp only [opened]
    split
    · rename_i hlt
      rw [if_pos (room_of_nesting h hlt), if_pos (Nat.lt_succ_self _)]
    · rfl
  rw [hopened]
  exact (Nat.max_le.1 h).2

end Nesting

section Behind

variable {capacity : Nat} {stack : List Nat} {above below : List Text}

theorem headD_behind_le {next : Option Nat} (hlast : stack.getLast? = some 0)
    (h : stack.headD 0 ≤ ((codeWidth? above).or next).getD 0) :
    (behind capacity next stack above).headD 0 ≤ next.getD 0 := by
  induction above generalizing stack with
  | nil => exact h
  | cons line above ih => exact ih (getLast?_opened hlast) (headD_opened_le hlast)

theorem nesting_behind (h : nesting stack (above ++ below) ≤ capacity) :
    nesting (behind capacity (codeWidth? below) stack above) below ≤ capacity := by
  induction above generalizing stack with
  | nil => exact h
  | cons line above ih =>
    rw [behind, ← codeWidth?_append]
    exact ih (nesting_opened h)

end Behind

section Insert

variable {capacity : Nat} {stack : List Nat} {line : Text} {below : List Text}

theorem marks_cons_of_not_isCode (h : line.isCode = false) (rest : List Text) :
    marks capacity none stack (line :: rest) =
      turns capacity stack (codeWidth? rest) ++
        marks capacity none (opened capacity stack (codeWidth? rest)) rest := by
  rw [marks, Option.or_none, (texts_eq_nil_iff line).2 h]
  rfl

theorem marks_cons_of_level (hline : line.isCode = false)
    (h : stack.headD 0 = (codeWidth? below).getD 0) :
    marks capacity none stack (line :: below) = marks capacity none stack below := by
  rw [marks_cons_of_not_isCode hline, turns_of_eq h, opened_of_eq h]
  rfl

theorem marks_cons_ne_of_lt (hline : line.isCode = false) {next : Text} {rest : List Text}
    (hnext : next.isCode = true) (h : stack.headD 0 < next.width) :
    marks capacity none stack (line :: next :: rest) ≠
      marks capacity none stack (next :: rest) := by
  obtain ⟨text, more, htexts⟩ : ∃ text more, texts next = text :: more := by
    apply List.exists_cons_of_ne_nil
    rw [ne_eq, texts_eq_nil_iff, hnext]
    exact Bool.false_ne_true.symm
  have hhead : (marks capacity none stack (next :: rest)).head? = some (.content text) := by
    rw [marks, htexts]
    rfl
  intro heq
  rw [← heq, marks_cons_of_not_isCode hline, codeWidth?_cons_of_isCode hnext, turns,
    Option.getD_some, if_pos h] at hhead
  cases hhead

theorem marks_cons_of_unchanged (hline : line.isCode = false)
    (hle : stack.headD 0 ≤ (codeWidth? below).getD 0) (hnest : nesting stack below ≤ capacity)
    (h : ∀ next, below.head? = some next → next.isCode = true → next.width ≤ stack.headD 0) :
    marks capacity none stack (line :: below) = marks capacity none stack below := by
  cases below with
  | nil => exact marks_cons_of_level hline (Nat.le_antisymm hle (Nat.zero_le _))
  | cons next rest =>
    cases hnext : next.isCode with
    | true =>
      rw [codeWidth?_cons_of_isCode hnext] at hle
      apply marks_cons_of_level hline
      rw [codeWidth?_cons_of_isCode hnext]
      exact Nat.le_antisymm hle (h next rfl hnext)
    | false =>
      -- The line below has no code either, so that both sides measure the same code line, one
      -- once more than the other; the first time already opens the block.
      have hwidth := codeWidth?_cons_of_not_isCode hnext rest
      rw [hwidth] at hle
      have hlevel : (opened capacity stack (codeWidth? rest)).headD 0 = (codeWidth? rest).getD 0 :=
        headD_opened_eq hle (room_of_nesting hnest)
      rw [marks_cons_of_not_isCode hline, hwidth, marks_cons_of_level hnext hlevel,
        marks_cons_of_not_isCode hnext]

theorem marks_insert_iff (hline : line.isCode = false) (lines : List Text) (i : Nat)
    (hnest : nesting [0] lines ≤ capacity) :
    marks capacity none [0] (lines.take i ++ line :: lines.drop i) =
        marks capacity none [0] lines ↔
      ∀ next, lines[i]? = some next → next.isCode = true →
        next.width ≤ currentAt capacity lines i := by
  have hwidth := codeWidth?_cons_of_not_isCode hline (lines.drop i)
  have hsplit : marks capacity none [0] lines =
      marks capacity none [0] (lines.take i ++ lines.drop i) := by
    rw [List.take_append_drop]
  have hle : currentAt capacity lines i ≤ (codeWidth? (lines.drop i)).getD 0 :=
    headD_behind_le rfl (Nat.zero_le _)
  rw [← List.take_append_drop i lines] at hnest
  rw [hsplit, marks_append, marks_append, hwidth, Option.or_none, List.append_cancel_left_eq,
    ← List.head?_drop]
  constructor
  · intro heq next hnext hcode
    obtain ⟨rest, hrest⟩ := List.head?_eq_some_iff.1 hnext
    rw [hrest] at heq
    apply Nat.not_lt.1
    intro hlt
    rw [currentAt, hrest] at hlt
    exact marks_cons_ne_of_lt hline hcode hlt heq
  · exact marks_cons_of_unchanged hline hle (nesting_behind hnest)

end Insert

end Outline

/-- Putting a blank or comment-only line into a source whose nesting fits the capacity leaves its
indents, dedents and words as they are, if and only if the line below it is no code or is no wider
than the block that is open there. -/
theorem marks_insertLine_eq_iff (settings : Settings) (source line : Text) (i : Nat)
    (hline : line.IsBlank) (hnest : Outline.nesting [0] source.lines ≤ settings.capacity) :
    marks settings (source.insertLine i line) = marks settings source ↔
      ∀ next, source.lines[i]? = some next → next.isCode = true →
        next.width ≤ Outline.currentAt settings.capacity source.lines i := by
  rw [marks_eq_outline, marks_eq_outline, Text.lines_insertLine source i hline.lineFeed_not_mem]
  exact Outline.marks_insert_iff hline.isCode source.lines i hnest

theorem marks_insertLine_eq_comment :
    let source : Text := [.bar, .lineFeed, .space, .space, .bar, .lineFeed, .bar]
    Outline.nesting [0] source.lines ≤ Blocks.defaultCapacity ∧
      marks {} (source.insertLine 2 [.space, .hash, .bar]) = marks {} source := by
  refine ⟨by decide, (marks_insertLine_eq_iff {} _ _ 2 ?_ (by decide)).2 ?_⟩
  · exact ⟨[.space], List.forall_mem_singleton.2 rfl, .inr ⟨[.bar], by decide, rfl⟩⟩
  · rintro next ⟨⟩ -
    decide

/-- An empty line in front of a line that closes a block and matches none: its own line break
returns to the base, and the additional one then opens a block. -/
theorem marks_insertLine_ne :
    ¬∀ (source line : Text) (i : Nat), 1 ≤ i → i ≤ source.lines.length → line.IsBlank →
      Outline.nesting [0] source.lines ≤ Blocks.defaultCapacity →
      marks {} (source.insertLine i line) = marks {} source := by
  intro h
  have heq := h [.bar, .lineFeed, .space, .space, .bar, .lineFeed, .space, .bar] [] 2 (by decide)
    (by decide) ⟨[], List.forall_mem_nil _, .inl rfl⟩ (by decide)
  exact absurd heq (by decide +kernel)

end Offside
