import Offside.Reader

/-! What the operations of a cursor do to the text ahead of it, and the spans of the tokens that are
begun at a cursor. -/

namespace Offside

theorem Text.drop_length_takeWhile (p : CodeUnit → Bool) (t : Text) :
    t.drop (t.takeWhile p).length = t.dropWhile p := by
  induction t with
  | nil => rfl
  | cons u t ih =>
    cases hu : p u with
    | true => simp [hu, ih]
    | false => simp [hu]

theorem Text.takeWhile_run {p : CodeUnit → Bool} {run rest : Text} (hrun : ∀ u ∈ run, p u = true)
    (hrest : ∀ u, rest.head? = some u → p u = false) :
    (run ++ rest).takeWhile p = run := by
  rw [List.takeWhile_append_of_pos hrun]
  cases rest with
  | nil => simp
  | cons u rest => simp [hrest u rfl]

theorem Text.eq_run_append (p : CodeUnit → Bool) (t : Text) :
    ∃ run rest, t = run ++ rest ∧ (∀ u ∈ run, p u = true) ∧
      ∀ u, rest.head? = some u → p u = false := by
  refine ⟨t.takeWhile p, t.dropWhile p, List.takeWhile_append_dropWhile.symm, ?_, ?_⟩
  · exact List.all_eq_true.1 List.all_takeWhile
  · intro u hu
    have := List.head?_dropWhile_not p t
    simpa [hu] using this

def Text.returns (k : Nat) : Text := List.replicate k .carriageReturn

@[simp] theorem Text.length_returns (k : Nat) : (returns k).length = k := List.length_replicate

theorem Text.drop_returns (k : Nat) (t : Text) : (returns k ++ t).drop k = t :=
  List.drop_left' (length_returns k)

theorem Text.returns_append_inj {u v : CodeUnit} (hu : u ≠ .carriageReturn)
    (hv : v ≠ .carriageReturn) {k l : Nat} {t t' : Text}
    (h : returns k ++ u :: t = returns l ++ v :: t') : k = l ∧ u = v ∧ t = t' := by
  induction k generalizing l with
  | zero =>
    cases l with
    | zero =>
      obtain ⟨rfl, rfl⟩ := List.cons.inj h
      exact ⟨rfl, rfl, rfl⟩
    | succ l => exact absurd (List.cons.inj h).1 hu
  | succ k ih =>
    cases l with
    | zero => exact absurd (List.cons.inj h).1.symm hv
    | succ l =>
      obtain ⟨rfl, heq⟩ := ih (List.cons.inj h).2
      exact ⟨rfl, heq⟩

theorem Text.returns_ne_append {u : CodeUnit} (hu : u ≠ .carriageReturn) (k l : Nat) (t : Text) :
    returns k ≠ returns l ++ u :: t := by
  intro h
  apply hu
  apply List.eq_of_mem_replicate
  rw [returns] at h
  rw [h]
  simp

theorem Text.eq_returns_append (t : Text) :
    ∃ k rest, t = returns k ++ rest ∧ rest.head? ≠ some .carriageReturn := by
  obtain ⟨run, rest, rfl, hrun, hrest⟩ := t.eq_run_append (· == .carriageReturn)
  refine ⟨run.length, rest, ?_, ?_⟩
  · rw [returns, ← List.eq_replicate_of_mem (by simpa using hrun)]
  · intro h
    simpa using hrest _ h

theorem Text.takeWhile_returns {k : Nat} {rest : Text} (h : rest.head? ≠ some .carriageReturn) :
    (returns k ++ rest).takeWhile (· == .carriageReturn) = returns k := by
  apply takeWhile_run
  · intro u hu
    rw [List.eq_of_mem_replicate hu]
    rfl
  · intro u hu
    rw [beq_eq_false_iff_ne]
    rintro rfl
    exact h hu

namespace Cursor

theorem lookahead_eq_head? (c : Cursor) : c.lookahead = c.ahead.head? := (head?_ahead c).symm

@[simp] theorem ahead_begin (c : Cursor) : c.begin.ahead = c.ahead := rfl

@[simp] theorem ahead_markEnd (c : Cursor) : c.markEnd.ahead = c.ahead := rfl

theorem drop_source (c : Cursor) (n : Nat) : c.source.drop (c.offset + n) = c.ahead.drop n := by
  rw [ahead, List.drop_drop]

theorem drop_min_remaining (c : Cursor) (n : Nat) :
    c.source.drop (c.offset + min n c.remaining) = c.ahead.drop n := by
  rw [drop_source, ← length_ahead]
  rcases Nat.le_total n c.ahead.length with h | h
  · rw [Nat.min_eq_left h]
  · rw [Nat.min_eq_right h, List.drop_length, List.drop_eq_nil_of_le h]

@[simp] theorem ahead_advanceBy (n : Nat) (c : Cursor) : (c.advanceBy n).ahead = c.ahead.drop n :=
  drop_min_remaining c n

@[simp] theorem ahead_skipBy (n : Nat) (c : Cursor) : (c.skipBy n).ahead = c.ahead.drop n :=
  drop_min_remaining c n

theorem atEnd_iff_ahead (c : Cursor) : c.atEnd = true ↔ c.ahead = [] := by
  rw [atEnd_iff, ← length_ahead, List.length_eq_zero_iff]

@[simp] theorem ahead_rewind (c : Cursor) : c.rewind.ahead = c.source.drop c.origin := rfl

theorem offset_advanceBy_of_ahead {c : Cursor} {run rest : Text} (h : c.ahead = run ++ rest) :
    (c.advanceBy run.length).offset = c.offset + run.length := by
  have hr : run.length ≤ c.remaining := by
    rw [← length_ahead, h, List.length_append]
    exact Nat.le_add_right ..
  rw [offset_advanceBy, Nat.min_eq_left hr]

theorem offset_skipBy_of_ahead {c : Cursor} {run rest : Text} (h : c.ahead = run ++ rest) :
    (c.skipBy run.length).offset = c.offset + run.length :=
  offset_advanceBy_of_ahead h

theorem start_skipBy_begin {c : Cursor} {run rest : Text} (h : c.ahead = run ++ rest) :
    (c.begin.skipBy run.length).start = c.offset + run.length := by
  have hr : run.length ≤ c.begin.remaining := by
    rw [← length_ahead, ahead_begin, h, List.length_append]
    exact Nat.le_add_right ..
  rw [skipBy, Nat.min_eq_left hr]
  cases run with
  | nil => rfl
  | cons u run => rfl

theorem span_advanceBy_begin {c : Cursor} {run rest : Text} (h : c.ahead = run ++ rest) :
    (c.begin.advanceBy run.length).span = ⟨c.offset, c.offset + run.length⟩ := by
  have ho := offset_advanceBy_of_ahead (c := c.begin) h
  simp only [offset_begin] at ho
  simp only [span, mark_advanceBy, mark_begin, Option.getD_none, ho]
  congr 1
  exact Nat.min_eq_left (Nat.le_add_right ..)

theorem span_markEnd_advanceBy_begin {c : Cursor} {run rest : Text} (h : c.ahead = run ++ rest) :
    (c.begin.advanceBy run.length).markEnd.span = ⟨c.offset, c.offset + run.length⟩ :=
  span_advanceBy_begin h

theorem advanceWhile_run {c : Cursor} {p : CodeUnit → Bool} {run rest : Text}
    (h : c.ahead = run ++ rest) (hrun : ∀ u ∈ run, p u = true)
    (hrest : ∀ u, rest.head? = some u → p u = false) :
    c.advanceWhile p = c.advanceBy run.length := by
  rw [advanceWhile, h, Text.takeWhile_run hrun hrest]

theorem skipWhile_run {c : Cursor} {p : CodeUnit → Bool} {run rest : Text}
    (h : c.ahead = run ++ rest) (hrun : ∀ u ∈ run, p u = true)
    (hrest : ∀ u, rest.head? = some u → p u = false) :
    c.skipWhile p = c.skipBy run.length := by
  rw [skipWhile, h, Text.takeWhile_run hrun hrest]

section Fallback

variable {c : Cursor} {run rest : Text}

theorem text_advanceBy_begin (h : c.ahead = run ++ rest) :
    (c.begin.advanceBy run.length).text = run := by
  rw [text, span_advanceBy_begin h, Text.slice, source_advanceBy, source_begin,
    Nat.add_sub_cancel_left]
  change c.ahead.take run.length = run
  rw [h, List.take_left]

theorem word_single {u : CodeUnit} (hu : u.standsAlone = true) (h : c.ahead = [u] ++ rest) :
    c.begin.word = c.begin.advanceBy [u].length := by
  have hl : c.begin.lookahead = some u := by rw [lookahead_eq_head?, ahead_begin, h]; rfl
  simp [word, hl, hu, advance]

theorem word_run (hne : run ≠ []) (hrun : ∀ u ∈ run, u.isContent = true)
    (hrest : ∀ u, rest.head? = some u → u.isContent = false) (h : c.ahead = run ++ rest) :
    c.begin.word = c.begin.advanceBy run.length := by
  obtain ⟨u, tail, rfl⟩ := List.exists_cons_of_ne_nil hne
  have hl : c.begin.lookahead = some u := by rw [lookahead_eq_head?, ahead_begin, h]; rfl
  have hu : u.standsAlone = false := by
    have := hrun u List.mem_cons_self
    simp only [CodeUnit.isContent, Bool.not_eq_true', Bool.or_eq_false_iff] at this
    exact this.2
  have hw : c.begin.advanceWhile CodeUnit.isContent = c.begin.advanceBy (u :: tail).length :=
    advanceWhile_run h hrun hrest
  simp only [word, hl, hu, hw]
  rfl

theorem skipLayout_blanks (hrun : ∀ u ∈ run, u.isBlank = true)
    (hrest : ∀ u, rest.head? = some u → u.isBlank = false) (hhash : rest.head? ≠ some .hash)
    (h : c.ahead = run ++ rest) : c.skipLayout = c.skipBy run.length := by
  have hl : (c.skipBy run.length).lookahead ≠ some .hash := by
    rw [lookahead_eq_head?, ahead_skipBy, h, List.drop_left]
    exact hhash
  simp only [skipLayout, skipWhile_run h hrun hrest, hl, if_false]

theorem skipLayout_comment {body : Text} (hrun : ∀ u ∈ run, u.isBlank = true)
    (hbody : .lineFeed ∉ body) (hrest : ∀ u, rest.head? = some u → u = .lineFeed)
    (h : c.ahead = run ++ .hash :: body ++ rest) :
    c.skipLayout.offset = c.offset + (run ++ .hash :: body).length ∧ c.skipLayout.ahead = rest := by
  rw [List.append_assoc] at h
  have hblank : ∀ u, (.hash :: body ++ rest).head? = some u → u.isBlank = false := by
    rintro u ⟨⟩
    rfl
  have hahead : (c.skipBy run.length).ahead = .hash :: body ++ rest := by
    rw [ahead_skipBy, h, List.drop_left]
  have hl : (c.skipBy run.length).lookahead = some .hash := by
    rw [lookahead_eq_head?, hahead]
    rfl
  have hskip : (c.skipBy run.length).skipComment =
      (c.skipBy run.length).skipBy (.hash :: body).length := by
    apply skipWhile_run hahead
    · intro u hu
      rcases List.mem_cons.1 hu with rfl | hu
      · rfl
      · rw [bne_iff_ne]
        rintro rfl
        exact hbody hu
    · intro u hu
      rw [hrest u hu]
      rfl
  have hlayout : c.skipLayout = (c.skipBy run.length).skipBy (.hash :: body).length := by
    simp only [skipLayout, skipWhile_run h hrun hblank, hl, if_true, hskip]
  rw [hlayout, offset_skipBy_of_ahead hahead, offset_skipBy_of_ahead h, ahead_skipBy, hahead,
    List.drop_left, List.length_append, Nat.add_assoc]
  exact ⟨rfl, rfl⟩

end Fallback

section Break

variable {c : Cursor} {k : Nat} {rest : Text}

theorem skipWhile_returns (h : c.ahead = Text.returns k ++ rest)
    (hrest : rest.head? ≠ some .carriageReturn) :
    c.skipWhile (· == .carriageReturn) = c.skipBy k := by
  rw [skipWhile, h, Text.takeWhile_returns hrest, Text.length_returns]

theorem lookahead_skipBy_returns (h : c.ahead = Text.returns k ++ rest) :
    (c.skipBy k).lookahead = rest.head? := by
  rw [lookahead_eq_head?, ahead_skipBy, h, Text.drop_returns]

theorem measureBreak_of_end (h : c.ahead = Text.returns k) :
    c.measureBreak = (some 0, (c.skipBy k).markEnd) := by
  have h' : c.ahead = Text.returns k ++ [] := by rw [h, List.append_nil]
  have hrest : ([] : Text).head? ≠ some .carriageReturn := by simp
  simp only [measureBreak, skipWhile_returns h' hrest, lookahead_skipBy_returns h',
    List.head?_nil]

theorem measureBreak_of_lineFeed
    (h : c.ahead = Text.returns k ++ .lineFeed :: rest) :
    c.measureBreak = (some (Margin.ofText rest).width,
      ((c.skipBy k).advance.markEnd).skipBy (Margin.ofText rest).passed) := by
  have hahead : (c.skipBy k).advance.markEnd.ahead = rest := by
    rw [ahead_markEnd, advance, ahead_advanceBy, ahead_skipBy, h,
      Text.drop_returns]
    rfl
  have hrest : (CodeUnit.lineFeed :: rest).head? ≠ some .carriageReturn := by
    rw [List.head?_cons]
    decide
  simp only [measureBreak, skipWhile_returns h hrest, lookahead_skipBy_returns h,
    List.head?_cons, if_true, hahead]

theorem measureBreak_of_other {u : CodeUnit} (hl : u ≠ .lineFeed) (hr : u ≠ .carriageReturn)
    (h : c.ahead = Text.returns k ++ u :: rest) :
    c.measureBreak = (none, c.skipBy k) := by
  simp only [measureBreak, skipWhile_returns h (by simpa using hr), lookahead_skipBy_returns h,
    List.head?_cons, hl, if_false]

theorem measureBreak_eq_some {c' : Cursor} {width : Nat} (h : c.measureBreak = (some width, c')) :
    (∃ k, c.ahead = Text.returns k ∧ width = 0) ∨
      ∃ k rest, c.ahead = Text.returns k ++ .lineFeed :: rest ∧
        width = (Margin.ofText rest).width := by
  obtain ⟨k, rest, hahead, hrest⟩ := c.ahead.eq_returns_append
  cases rest with
  | nil =>
    rw [List.append_nil] at hahead
    rw [measureBreak_of_end hahead] at h
    cases h
    exact .inl ⟨k, hahead, rfl⟩
  | cons u rest =>
    by_cases hu : u = .lineFeed
    · subst hu
      rw [measureBreak_of_lineFeed hahead] at h
      cases h
      exact .inr ⟨k, rest, hahead, rfl⟩
    · rw [measureBreak_of_other hu (by simpa using hrest) hahead] at h
      cases h

theorem atBreak_of_measureBreak {c' : Cursor} {width : Nat}
    (h : c.measureBreak = (some width, c')) : c.atBreak = true := by
  rw [atBreak, lookahead_eq_head?]
  rcases measureBreak_eq_some h with ⟨k, hahead, -⟩ | ⟨k, rest, hahead, -⟩
  · rw [hahead]
    cases k <;> rfl
  · rw [hahead]
    cases k <;> rfl

theorem span_end (h : c.ahead = Text.returns k) :
    (c.begin.skipBy k).markEnd.span = ⟨c.offset + k, c.offset + k⟩ := by
  have h' : c.ahead = Text.returns k ++ [] := by rw [h, List.append_nil]
  have hs := start_skipBy_begin h'
  have ho := offset_skipBy_of_ahead (c := c.begin) h'
  simp only [Text.length_returns, offset_begin] at hs ho
  simp only [span, mark_markEnd, Option.getD_some, ho]
  congr 1
  exact Nat.min_eq_right (Nat.le_of_eq hs.symm)

theorem span_lineFeed (n : Nat)
    (h : c.ahead = Text.returns k ++ .lineFeed :: rest) :
    (((c.begin.skipBy k).advance.markEnd).skipBy n).span = ⟨c.offset + k, c.offset + k + 1⟩ := by
  have hs := start_skipBy_begin h
  have ho := offset_skipBy_of_ahead (c := c.begin) h
  simp only [Text.length_returns, offset_begin] at hs ho
  have hahead : (c.begin.skipBy k).ahead = [.lineFeed] ++ rest := by
    rw [ahead_skipBy, ahead_begin, h, Text.drop_returns]
    rfl
  have hoff := offset_advanceBy_of_ahead hahead
  have hstart : (((c.begin.skipBy k).advance.markEnd).skipBy n).start = c.offset + k := by
    have hinc : (c.begin.skipBy k).advance.markEnd.included = true := by
      have hpos : 0 < (c.begin.skipBy k).remaining := by simp [← length_ahead, hahead]
      have : min 1 (c.begin.skipBy k).remaining ≠ 0 := by omega
      simp [advance, advanceBy, markEnd, this]
    rw [skipBy, hinc]
    exact hs
  simp only [span, mark_skipBy, mark_markEnd, Option.getD_some, hstart]
  have hstop : (c.begin.skipBy k).advance.offset = c.offset + k + 1 := by
    rw [advance]
    exact hoff.trans (by rw [ho]; rfl)
  rw [hstop]
  congr 1
  exact Nat.min_eq_left (Nat.le_succ _)

end Break

end Cursor

end Offside
