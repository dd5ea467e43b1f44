import Offside.Proofs.Blocks
import Offside.Proofs.Line
import Offside.Proofs.Steps

/-! The tokens of a source, read off its lines. An outline knows neither cursor nor scanner: it cuts
every line into words and compares, at every line break, the width of the next code line with a
stack of widths. Main statement: tokenizing without instructions gives the outline. -/

namespace Offside

namespace Outline

def inWord (u : CodeUnit) : Bool := !(u.isLayout || u == .bar || u == .closeBrace)

/-- The words of a piece of code that stands at an offset: single bars and closing braces, and the
longest runs of units that are neither these nor layout. -/
def words (offset : Nat) : Text → List Span
  | [] => []
  | u :: t =>
    if u.isLayout then words (offset + 1) t
    else if u = .bar ∨ u = .closeBrace then ⟨offset, offset + 1⟩ :: words (offset + 1) t
    else
      let length := 1 + (t.takeWhile inWord).length
      ⟨offset, offset + length⟩ :: words (offset + length) (t.dropWhile inWord)
termination_by t => t.length
decreasing_by
  · exact Nat.lt_succ_self _
  · exact Nat.lt_succ_self _
  · exact Nat.lt_succ_of_le (List.dropWhile_sublist inWord).length_le

def contents (offset : Nat) (line : Text) : List Lexeme :=
  (words offset line.code).map fun span => ⟨.content, span, 0⟩

/-- The widths that are returned to when blocks are closed, innermost first, until none is wider
than `width`. -/
def returned (width : Nat) : List Nat → List Nat
  | top :: next :: rest => if width < top then next :: returned width (next :: rest) else []
  | _ => []

def remaining (width : Nat) : List Nat → List Nat
  | top :: next :: rest =>
    if width < top then remaining width (next :: rest) else top :: next :: rest
  | stack => stack

theorem returned_remaining (width : Nat) (stack : List Nat) :
    returned width (remaining width stack) = [] := by
  induction stack with
  | nil => rfl
  | cons top stack ih =>
    cases stack with
    | nil => rfl
    | cons next rest =>
      by_cases h : width < top
      · rwa [remaining, if_pos h]
      · rw [remaining, if_neg h, returned, if_neg h]

/-- The blocks that are open behind a line break, given the width of the next code line. -/
def opened (capacity : Nat) (stack : List Nat) (next : Option Nat) : List Nat :=
  let width := next.getD 0
  if stack.headD 0 < width then if stack.length < capacity then width :: stack else stack
  else remaining width stack

/-- The tokens of the line feed at an offset. One that returns to several blocks gives a dedent for
each, and all but the first are empty. There is no newline if no code follows. -/
def breaks (capacity : Nat) (stack : List Nat) (offset : Nat) (next : Option Nat) : List Lexeme :=
  let width := next.getD 0
  if stack.headD 0 < width then
    [⟨.indent, ⟨offset, offset + 1⟩, (opened capacity stack next).headD 0⟩]
  else if width < stack.headD 0 then
    match returned width stack with
    | [] => []
    | first :: rest =>
      ⟨.dedent, ⟨offset, offset + 1⟩, first⟩ ::
        rest.map (⟨.dedent, ⟨offset + 1, offset + 1⟩, ·⟩)
  else if next.isSome then [⟨.newline, ⟨offset, offset + 1⟩, 0⟩]
  else []

def tokens (capacity : Nat) (stack : List Nat) (offset : Nat) : List Text → List Lexeme
  | [] => []
  | [line] =>
    let stop := offset + line.length
    contents offset line ++ (returned 0 stack).map (⟨.dedent, ⟨stop, stop⟩, ·⟩) ++
      [⟨.endOfInput, ⟨stop, stop⟩, 0⟩]
  | line :: next :: rest =>
    let width := Text.codeWidth? (next :: rest)
    contents offset line ++ breaks capacity stack (offset + line.length) width ++
      tokens capacity (opened capacity stack width) (offset + line.length + 1) (next :: rest)

def ofText (capacity : Nat) (source : Text) : List Lexeme := tokens capacity [0] 0 source.lines

section Contents

variable {u : CodeUnit}

theorem contents_nil (offset : Nat) : contents offset [] = [] := by
  simp [contents, Text.code, words]

theorem contents_hash (offset : Nat) (line : Text) : contents offset (.hash :: line) = [] := by
  simp [contents, Text.code_hash, words]

theorem contents_layout {run : Text} (hrun : ∀ u ∈ run, u.isLayout = true) (offset : Nat)
    (line : Text) : contents offset (run ++ line) = contents (offset + run.length) line := by
  induction run generalizing offset with
  | nil => rfl
  | cons u run ih =>
    have hu := hrun u List.mem_cons_self
    have hne : u ≠ .hash := by
      rintro rfl
      exact absurd hu (by decide)
    have hstep : contents offset (u :: (run ++ line)) = contents (offset + 1) (run ++ line) := by
      rw [contents, Text.code_cons hne, words, if_pos hu, contents]
    rw [List.cons_append, hstep, ih fun v hv => hrun v (List.mem_cons_of_mem _ hv),
      List.length_cons, Nat.add_assoc, Nat.add_comm 1]

theorem contents_single (hu : u.standsAlone = true) (offset : Nat) (line : Text) :
    contents offset (u :: line) =
      ⟨.content, ⟨offset, offset + 1⟩, 0⟩ :: contents (offset + 1) line := by
  simp only [CodeUnit.standsAlone, Bool.or_eq_true, beq_iff_eq] at hu
  have hlayout : ¬u.isLayout = true := by rcases hu with rfl | rfl <;> decide
  have hne : u ≠ .hash := by rcases hu with rfl | rfl <;> decide
  rw [contents, Text.code_cons hne, words, if_neg hlayout, if_pos hu, List.map_cons, contents]

theorem inWord_of_isContent (hu : u.isContent = true) : inWord u = true ∧ u ≠ .hash := by
  simp_all [CodeUnit.isContent, CodeUnit.isBlank, CodeUnit.standsAlone, inWord, CodeUnit.isLayout]

theorem code_append {run : Text} (hrun : ∀ u ∈ run, u ≠ .hash) (line : Text) :
    Text.code (run ++ line) = run ++ Text.code line :=
  List.takeWhile_append_of_pos (by simpa using hrun)

theorem contents_word {run : Text} (hne : run ≠ []) (hrun : ∀ u ∈ run, u.isContent = true)
    (offset : Nat) {line : Text} (hline : ∀ u, line.code.head? = some u → inWord u = false) :
    contents offset (run ++ line) =
      ⟨.content, ⟨offset, offset + run.length⟩, 0⟩ :: contents (offset + run.length) line := by
  have hcode := code_append (fun u hu => (inWord_of_isContent (hrun u hu)).2) line
  obtain ⟨u, run, rfl⟩ := List.exists_cons_of_ne_nil hne
  have hword : ∀ v ∈ run, inWord v = true := fun v hv =>
    (inWord_of_isContent (hrun v (List.mem_cons_of_mem _ hv))).1
  have hu := (inWord_of_isContent (hrun u List.mem_cons_self)).1
  simp only [inWord, Bool.not_eq_true', Bool.or_eq_false_iff, beq_eq_false_iff_ne] at hu
  have htake := Text.takeWhile_run hword hline
  have hdrop : (run ++ line.code).dropWhile inWord = line.code := by
    rw [← Text.drop_length_takeWhile, htake, List.drop_left]
  rw [contents, hcode, List.cons_append, words, if_neg (by simp [hu]), if_neg (by simp [hu]), htake,
    hdrop, List.length_cons, Nat.add_comm run.length 1]
  rfl

end Contents

section Tokens

variable (capacity : Nat) (stack : List Nat) {offset : Nat} {t : Text}

theorem tokens_append (pre : Text) (xs : List Lexeme) (hpre : .lineFeed ∉ pre)
    (h : ∀ line, t.lines.head? = some line →
      contents offset (pre ++ line) = xs ++ contents (offset + pre.length) line) :
    tokens capacity stack offset (Text.lines (pre ++ t)) =
      xs ++ tokens capacity stack (offset + pre.length) t.lines := by
  obtain ⟨line, rest, hlines⟩ := Text.exists_lines t
  have hlength : offset + (pre ++ line).length = offset + pre.length + line.length := by
    rw [List.length_append, Nat.add_assoc]
  have hcontents := h line (by rw [hlines]; rfl)
  rw [Text.lines_append hpre hlines, hlines]
  cases rest with
  | nil => simp only [tokens, hcontents, hlength, List.append_assoc]
  | cons next rest => simp only [tokens, hcontents, hlength, List.append_assoc]

theorem tokens_layout {run : Text} (hrun : ∀ u ∈ run, u.isLayout = true) :
    tokens capacity stack offset (Text.lines (run ++ t)) =
      tokens capacity stack (offset + run.length) t.lines := by
  apply tokens_append capacity stack run []
  · intro hl
    exact absurd (hrun _ hl) (by decide)
  · intro line _
    exact contents_layout hrun offset line

theorem head?_lines (h : ∀ u, t.head? = some u → u = .lineFeed) : t.lines.head? = some [] := by
  cases t with
  | nil => rfl
  | cons u t => rw [h u rfl, Text.lines_lineFeed]; rfl

theorem tokens_comment {run body : Text} (hrun : ∀ u ∈ run, u.isLayout = true)
    (hbody : .lineFeed ∉ body) (ht : ∀ u, t.head? = some u → u = .lineFeed) :
    tokens capacity stack offset (Text.lines (run ++ .hash :: body ++ t)) =
      tokens capacity stack (offset + (run ++ .hash :: body).length) t.lines := by
  apply tokens_append capacity stack (run ++ .hash :: body) []
  · intro hl
    rcases List.mem_append.1 hl with hl | hl
    · exact absurd (hrun _ hl) (by decide)
    · rcases List.mem_cons.1 hl with hl | hl
      · exact absurd hl (by decide)
      · exact hbody hl
  · intro line hline
    rw [head?_lines ht, Option.some.injEq] at hline
    subst hline
    rw [List.append_nil, contents_layout hrun, contents_hash, contents_nil]
    rfl

theorem tokens_single {u : CodeUnit} (hu : u.standsAlone = true) :
    tokens capacity stack offset (Text.lines (u :: t)) =
      ⟨.content, ⟨offset, offset + 1⟩, 0⟩ :: tokens capacity stack (offset + 1) t.lines := by
  apply tokens_append capacity stack [u] [_]
  · intro hl
    rw [← List.mem_singleton.1 hl] at hu
    exact absurd hu (by decide)
  · intro line _
    exact contents_single hu offset line

theorem not_inWord_of_head? {line : Text} (ht : ∀ u, t.head? = some u → u.isContent = false)
    (hline : t.lines.head? = some line) (u : CodeUnit) (hu : line.code.head? = some u) :
    inWord u = false := by
  cases t with
  | nil =>
    rw [Text.lines_nil, List.head?_cons, Option.some.injEq] at hline
    subst hline
    exact absurd hu (by simp [Text.code])
  | cons v t =>
    by_cases hl : v = .lineFeed
    · rw [hl, Text.lines_lineFeed, List.head?_cons, Option.some.injEq] at hline
      subst hline
      exact absurd hu (by simp [Text.code])
    obtain ⟨line', rest, hlines⟩ := Text.exists_lines t
    rw [Text.lines_cons hl hlines, List.head?_cons, Option.some.injEq] at hline
    subst hline
    by_cases hh : v = .hash
    · rw [hh, Text.code_hash] at hu
      exact absurd hu (by simp)
    · rw [Text.code_cons hh, List.head?_cons, Option.some.injEq] at hu
      subst hu
      have hv := ht v rfl
      simp only [CodeUnit.isContent, CodeUnit.isBlank, CodeUnit.standsAlone, Bool.not_eq_false',
        Bool.or_eq_true, beq_iff_eq, hl, hh, or_false] at hv
      simp only [inWord, CodeUnit.isLayout, Bool.not_eq_false', Bool.or_eq_true, beq_iff_eq]
      rcases hv with ((h | h) | h) | h | h <;> simp [h]

theorem tokens_word {run : Text} (hne : run ≠ []) (hrun : ∀ u ∈ run, u.isContent = true)
    (ht : ∀ u, t.head? = some u → u.isContent = false) :
    tokens capacity stack offset (Text.lines (run ++ t)) =
      ⟨.content, ⟨offset, offset + run.length⟩, 0⟩ ::
        tokens capacity stack (offset + run.length) t.lines := by
  apply tokens_append capacity stack run [_]
  · intro hl
    exact absurd (hrun _ hl) (by decide)
  · intro line hline
    exact contents_word hne hrun offset (not_inWord_of_head? ht hline)

theorem tokens_lineFeed :
    tokens capacity stack offset (Text.lines (.lineFeed :: t)) =
      breaks capacity stack offset (Text.codeWidth? t.lines) ++
        tokens capacity (opened capacity stack (Text.codeWidth? t.lines)) (offset + 1) t.lines := by
  obtain ⟨line, rest, hlines⟩ := Text.exists_lines t
  rw [Text.lines_lineFeed, hlines, tokens, contents_nil]
  rfl

theorem tokens_nil :
    tokens capacity stack offset (Text.lines []) =
      (returned 0 stack).map (⟨.dedent, ⟨offset, offset⟩, ·⟩) ++
        [⟨.endOfInput, ⟨offset, offset⟩, 0⟩] := by
  rw [Text.lines_nil, tokens, contents_nil]
  rfl

end Tokens

end Outline

namespace Blocks

theorem returned_stack (width : Nat) (b : Blocks) :
    Outline.returned width b.stack =
      if width < b.current then b.pop.current :: Outline.returned width b.pop.stack else [] := by
  obtain ⟨capacity, opened⟩ := b
  cases opened with
  | nil => rfl
  | cons top rest => cases rest <;> rfl

theorem remaining_stack (width : Nat) (b : Blocks) :
    Outline.remaining width b.stack =
      if width < b.current then Outline.remaining width b.pop.stack else b.stack := by
  obtain ⟨capacity, opened⟩ := b
  cases opened with
  | nil => rfl
  | cons top rest => cases rest <;> rfl

end Blocks

def Scanner.target (s : Scanner) : Nat := (s.deferred.map Int.toNat).getD s.blocks.current

/-- The outline of what is ahead: the dedents that are still owed, and then the lines. -/
def Place.outline (p : Place) : List Lexeme :=
  (Outline.returned p.scanner.target p.scanner.blocks.stack).map
      (⟨.dedent, ⟨p.offset, p.offset⟩, ·⟩) ++
    Outline.tokens p.scanner.blocks.capacity
      (Outline.remaining p.scanner.target p.scanner.blocks.stack) p.offset p.ahead.lines

namespace Place

variable {m : Mode} {s : Scanner} {o : Nat} {t : Text}

theorem outline_of_le (h : s.blocks.current ≤ s.target) :
    outline ⟨m, s, o, t⟩ =
      Outline.tokens s.blocks.capacity s.blocks.stack o t.lines := by
  rw [outline, Blocks.returned_stack, Blocks.remaining_stack, if_neg (Nat.not_lt.2 h),
    if_neg (Nat.not_lt.2 h)]
  rfl

theorem outline_settled :
    outline ⟨m, s.settled, o, t⟩ =
      Outline.tokens s.blocks.capacity s.blocks.stack o t.lines :=
  outline_of_le (Nat.le_refl _)

theorem outline_of_quiet (h : ∀ target, ¬s.Owes target) :
    outline ⟨m, s, o, t⟩ =
      Outline.tokens s.blocks.capacity s.blocks.stack o t.lines := by
  apply outline_of_le
  rw [Scanner.target]
  cases hd : s.deferred with
  | none => exact Nat.le_refl _
  | some target =>
    change s.blocks.current ≤ target.toNat
    by_cases hlt : target < s.blocks.current
    · have hdepth : ¬1 < s.blocks.depth := fun hdepth => h target ⟨hd, hlt, hdepth⟩
      have hnil : s.blocks.opened = [] := by
        rw [← List.length_eq_zero_iff]
        exact Nat.le_zero.1 (Nat.le_of_succ_le_succ (Nat.not_lt.1 hdepth))
      rw [Blocks.current, hnil]
      exact Nat.zero_le _
    · exact Int.ofNat_le.1 (Int.le_trans (Int.not_lt.1 hlt) (Int.self_le_toNat target))

theorem outline_dedentTo (width : Nat) :
    outline ⟨m, s.dedentTo width, o, t⟩ =
      (Outline.returned width s.blocks.pop.stack).map (⟨.dedent, ⟨o, o⟩, ·⟩) ++
        Outline.tokens s.blocks.capacity (Outline.remaining width s.blocks.pop.stack) o
          t.lines := by
  rcases Nat.lt_or_ge width s.blocks.pop.current with h | h
  · have htarget : (s.dedentTo width).target = width := by
      simp [Scanner.target, Scanner.dedentTo, Nat.not_le.2 h]
    rw [outline, htarget]
    rfl
  · have htarget : (s.dedentTo width).target = s.blocks.pop.current := by
      simp [Scanner.target, Scanner.dedentTo, h]
    rw [outline_of_le (Nat.le_of_eq htarget.symm), Blocks.returned_stack, Blocks.remaining_stack,
      if_neg (Nat.not_lt.2 h), if_neg (Nat.not_lt.2 h)]
    rfl

theorem outline_of_owes {width : Nat} (h : s.Owes width) :
    outline ⟨m, s, o, t⟩ =
      ⟨.dedent, ⟨o, o⟩, s.blocks.pop.current⟩ :: outline ⟨.lines, s.dedentTo width, o, t⟩ := by
  have htarget : s.target = width := by
    rw [Scanner.target, h.1]
    rfl
  have hlt : width < s.blocks.current := Int.ofNat_lt.1 h.2.1
  rw [outline_dedentTo, outline, htarget, Blocks.returned_stack, Blocks.remaining_stack,
    if_pos hlt, if_pos hlt]
  rfl

section Break

variable {k : Nat} (hs : ∀ target, ¬s.Owes target)
include hs

theorem outline_lineFeed :
    outline ⟨m, s, o, Text.returns k ++ .lineFeed :: t⟩ =
      Outline.breaks s.blocks.capacity s.blocks.stack (o + k) (Text.codeWidth? t.lines) ++
        Outline.tokens s.blocks.capacity
          (Outline.opened s.blocks.capacity s.blocks.stack (Text.codeWidth? t.lines))
          (o + k + 1) t.lines := by
  rw [outline_of_quiet hs, Outline.tokens_layout _ _ (Text.isLayout_returns k), Text.length_returns,
    Outline.tokens_lineFeed]

theorem outline_of_indent {b : Blocks} (hw : s.blocks.current < (Margin.ofText t).width)
    (hb : s.blocks.push? (Margin.ofText t).width = some b) :
    outline ⟨m, s, o, Text.returns k ++ .lineFeed :: t⟩ =
      ⟨.indent, ⟨o + k, o + k + 1⟩, b.current⟩ ::
        outline ⟨.lines, Scanner.settled { s with blocks := b }, o + k + 1, t⟩ := by
  rw [Blocks.push?_of_lt hw] at hb
  split at hb
  · rename_i hd
    rw [Option.some.injEq] at hb
    subst hb
    rw [outline_settled, outline_lineFeed hs]
    simp only [Outline.breaks, Outline.opened, ← Margin.width_ofText, Blocks.headD_stack,
      Blocks.length_stack, hw, hd, if_true]
    rfl
  · simp at hb

theorem outline_of_capped (hw : s.blocks.current < (Margin.ofText t).width)
    (hb : s.blocks.push? (Margin.ofText t).width = none) :
    outline ⟨m, s, o, Text.returns k ++ .lineFeed :: t⟩ =
      ⟨.indent, ⟨o + k, o + k + 1⟩, s.blocks.current⟩ ::
        outline ⟨.lines, s.settled, o + k + 1, t⟩ := by
  rw [Blocks.push?_of_lt hw] at hb
  split at hb
  · simp at hb
  · rename_i hd
    rw [outline_settled, outline_lineFeed hs]
    simp only [Outline.breaks, Outline.opened, ← Margin.width_ofText, Blocks.headD_stack,
      Blocks.length_stack, hw, hd, if_true, if_false]
    rfl

theorem outline_of_dedent (hw : (Margin.ofText t).width < s.blocks.current) :
    outline ⟨m, s, o, Text.returns k ++ .lineFeed :: t⟩ =
      ⟨.dedent, ⟨o + k, o + k + 1⟩, s.blocks.pop.current⟩ ::
        outline ⟨.lines, s.dedentTo (Margin.ofText t).width, o + k + 1, t⟩ := by
  have hn : ¬s.blocks.current < (Margin.ofText t).width := Nat.lt_asymm hw
  rw [outline_dedentTo, outline_lineFeed hs]
  simp only [Outline.breaks, Outline.opened, ← Margin.width_ofText, Blocks.headD_stack, hw, hn,
    if_true, if_false]
  rw [Blocks.returned_stack, Blocks.remaining_stack, if_pos hw, if_pos hw]
  rfl

theorem outline_of_newline (hw : (Margin.ofText t).width = s.blocks.current)
    (hp : (Margin.ofText t).passed < t.length) :
    outline ⟨m, s, o, Text.returns k ++ .lineFeed :: t⟩ =
      ⟨.newline, ⟨o + k, o + k + 1⟩, 0⟩ :: outline ⟨.lines, s.settled, o + k + 1, t⟩ := by
  have hsome := (Margin.passed_ofText_lt_iff t).1 hp
  have hremaining := Blocks.remaining_stack s.blocks.current s.blocks
  rw [if_neg (Nat.lt_irrefl _)] at hremaining
  rw [outline_settled, outline_lineFeed hs]
  simp only [Outline.breaks, Outline.opened, ← Margin.width_ofText, Blocks.headD_stack, hw, hsome,
    Nat.lt_irrefl, if_true, if_false, hremaining]
  rfl

end Break

theorem outline_of_declined (hs : ∀ target, ¬s.Owes target)
    (hw : (Margin.ofText t).width = s.blocks.current) (hp : t.length ≤ (Margin.ofText t).passed) :
    outline ⟨m, s, o, .lineFeed :: t⟩ =
      Outline.tokens s.blocks.capacity s.blocks.stack (o + 1) t.lines := by
  have hnone : (Text.codeWidth? t.lines).isSome = false :=
    Bool.eq_false_iff.2 (mt (Margin.passed_ofText_lt_iff t).2 (Nat.not_lt.2 hp))
  have hremaining := Blocks.remaining_stack s.blocks.current s.blocks
  rw [if_neg (Nat.lt_irrefl _)] at hremaining
  rw [outline_of_quiet hs, Outline.tokens_lineFeed]
  simp only [Outline.breaks, Outline.opened, ← Margin.width_ofText, Blocks.headD_stack, hw, hnone,
    Nat.lt_irrefl, if_false, hremaining]
  rfl

theorem outline_of_closing {k : Nat} (hs : ∀ target, ¬s.Owes target) (hw : 0 < s.blocks.current) :
    outline ⟨m, s, o, Text.returns k⟩ =
      ⟨.dedent, ⟨o + k, o + k⟩, s.blocks.pop.current⟩ ::
        outline ⟨.lines, s.dedentTo (0 : Nat), o + k, []⟩ := by
  have hlayout :
      Outline.tokens s.blocks.capacity s.blocks.stack o (Text.lines (Text.returns k ++ [])) =
      Outline.tokens s.blocks.capacity s.blocks.stack (o + k) (Text.lines []) := by
    rw [Outline.tokens_layout _ _ (Text.isLayout_returns k), Text.length_returns]
  rw [List.append_nil] at hlayout
  rw [outline_of_quiet hs, hlayout, outline_dedentTo, Outline.tokens_nil, Outline.tokens_nil,
    Outline.returned_remaining, Blocks.returned_stack, if_pos hw]
  rfl

end Place

open Place in
theorem Move.outline {p q : Place} {x : Option Lexeme} {ns : List Notice} (h : Move false p x ns q)
    (hm : p.mode = .lines) (hn : ∀ target, p.scanner.deferred = some target → 0 ≤ target) :
    p.outline = x.toList ++ q.outline := by
  cases h with
  | interpolation => cases hm
  | segment => cases hm
  | owed hy ho =>
    -- A target below zero would close as many blocks, but the outline counts in naturals.
    obtain ⟨width, rfl⟩ := Int.eq_ofNat_of_zero_le (hn _ ho.1)
    exact outline_of_owes ho
  | indent hq hw hb => exact outline_of_indent hq.settled hw hb
  | capped hq hw hb => exact outline_of_capped hq.settled hw hb
  | dedent hq hw => exact outline_of_dedent hq.settled hw
  | newline hq hw hp => exact outline_of_newline hq.settled hw hp
  | closing hq hw => exact outline_of_closing hq.settled hw
  | blanks hm hq hne hrun =>
    rw [outline_of_quiet hq.settled, outline_settled]
    exact Outline.tokens_layout _ _ fun u hu => CodeUnit.isLayout_of_isBlank (hrun u hu)
  | comment hm hq hrun hbody hrest =>
    rw [outline_of_quiet hq.settled, outline_settled]
    exact Outline.tokens_comment _ _ (fun u hu => CodeUnit.isLayout_of_isBlank (hrun u hu)) hbody
      hrest
  | skip hq hd hu =>
    rcases hu with rfl | rfl
    · obtain ⟨hw, hp⟩ := hd.atBreak 0 _ rfl
      rw [outline_settled]
      exact outline_of_declined hq.settled hw hp
    · rw [outline_of_quiet hq.settled, outline_settled]
      exact Outline.tokens_layout _ _ (Text.isLayout_returns 1)
  | single hm hq hu =>
    rw [outline_of_quiet hq.settled, outline_settled]
    exact Outline.tokens_single _ _ hu
  | word hm hq hne hrun hrest =>
    rw [outline_of_quiet hq.settled, outline_settled]
    exact Outline.tokens_word _ _ hne hrun hrest

namespace Move

variable {instructions : Bool} {p q : Place} {x : Option Lexeme} {ns : List Notice}

theorem mode_eq_lines (h : Move false p x ns q) (hm : p.mode = .lines) : q.mode = .lines := by
  cases h with
  | interpolation => cases hm
  | segment => cases hm
  | owed => rfl
  | indent => rfl
  | capped => rfl
  | dedent => rfl
  | newline => rfl
  | closing => rfl
  | blanks => exact hm
  | comment => exact hm
  | skip => exact hm
  | single => cases hm; rfl
  | word => cases hm; rfl

theorem dedentTo_nonneg {s : Scanner} {target : Int} (h : 0 ≤ target) :
    ∀ width, (s.dedentTo target).deferred = some width → 0 ≤ width := by
  intro width hw
  simp only [Scanner.dedentTo] at hw
  split at hw
  · cases hw
  · cases hw
    exact h

theorem deferred_nonneg (h : Move instructions p x ns q)
    (hn : ∀ target, p.scanner.deferred = some target → 0 ≤ target) :
    ∀ target, q.scanner.deferred = some target → 0 ≤ target := by
  cases h with
  | interpolation => exact hn
  | segment => exact hn
  | owed _ ho => exact dedentTo_nonneg (hn _ ho.1)
  | indent => rintro target ⟨⟩
  | capped => rintro target ⟨⟩
  | dedent => exact dedentTo_nonneg (Int.natCast_nonneg _)
  | newline => rintro target ⟨⟩
  | closing => exact dedentTo_nonneg (Int.le_refl 0)
  | blanks => rintro target ⟨⟩
  | comment => rintro target ⟨⟩
  | skip => rintro target ⟨⟩
  | single => rintro target ⟨⟩
  | word => rintro target ⟨⟩

end Move

theorem Run.outline {p : Place} {xs : List Lexeme} {ns : List Notice} {last : Scanner}
    (h : Run false p xs ns last) (hm : p.mode = .lines)
    (hn : ∀ target, p.scanner.deferred = some target → 0 ≤ target) : xs = p.outline := by
  induction h with
  | stop hq hd =>
    have hcurrent := hd.atEnd 0 rfl
    rw [Place.outline_of_quiet hq.settled, Outline.tokens_nil, Blocks.returned_stack,
      if_neg (by rw [hcurrent]; exact Nat.lt_irrefl 0)]
    rfl
  | move hmove _ ih =>
    rw [hmove.outline hm hn, ih (hmove.mode_eq_lines hm) (hmove.deferred_nonneg hn)]

/-- Without instructions, the tokens of a source are those of its lines: words, and at every line
break what the width of the next code line asks for. -/
theorem tokens_eq_outline (source : Text) (trace : Bool) (settings : Settings) :
    (tokenize source ⟨false, trace, settings⟩).tokens.toList.map Token.toLexeme =
      Outline.ofText settings.capacity source := by
  have hrun := tokenize_isRun source ⟨false, trace, settings⟩
  exact hrun.outline rfl (by rintro target ⟨⟩)

end Offside
