import Offside.Proofs.Line

/-! What the measurement of a line break comes to, by positions in the source. A margin is made of
layout, line feeds and comments that nothing but layout precedes on their line. Main statement:
behind a line feed the measurement stops at the first unit outside of a margin, and the width counts
the columns in front of it. -/

namespace Offside

open Text (columns)

/-- A position lies in the comment that starts at a hash; in front of the hash there is nothing but
layout on its line. -/
structure InComment (source : Text) (hash i : Nat) : Prop where
  le : hash ≤ i
  starts : source[hash]? = some .hash
  goesOn : ∀ j, hash ≤ j → j ≤ i → source[j]? ≠ some .lineFeed
  first : ∀ j, j < hash → (∀ l, j ≤ l → l < hash → source[l]? ≠ some .lineFeed) →
    ∃ u, source[j]? = some u ∧ u.isLayout = true

def InMargin (source : Text) (i : Nat) : Prop :=
  (∃ u, source[i]? = some u ∧ (u.isLayout = true ∨ u = .lineFeed)) ∨ ∃ hash, InComment source hash i

structure LastLineFeed (source : Text) (i feed : Nat) : Prop where
  lt : feed < i
  feeds : source[feed]? = some .lineFeed
  last : ∀ j, feed < j → j < i → source[j]? ≠ some .lineFeed

namespace Margin

/-- Where a margin from a position on stops, and its width: at the end of input with none, or in
front of the first unit that belongs to no margin, with the columns since the last line feed. -/
inductive Stops (source : Text) (start : Nat) : (stop width : Nat) → Prop
  | atEnd : (∀ j, start ≤ j → j < source.length → InMargin source j) →
      Stops source start source.length 0
  | atCode {stop feed} : (∀ j, start ≤ j → j < stop → InMargin source j) → start ≤ stop →
      stop < source.length → ¬InMargin source stop → LastLineFeed source stop feed →
      Stops source start stop (min 32767 (columns (source.slice (feed + 1) stop)))

inductive Begun (behind : Text) : (comment : Bool) → (width : Nat) → Prop
  | layout (above line : Text) : behind = above ++ .lineFeed :: line →
      (∀ u ∈ line, u.isLayout = true) → Begun behind false (min 32767 (columns line))
  | comment (above run body : Text) {width} :
      behind = above ++ .lineFeed :: (run ++ .hash :: body) →
      (∀ u ∈ run, u.isLayout = true) → .lineFeed ∉ body → Begun behind true width

section Positions

variable {above run rest : Text} {i : Nat}

theorem length_above (above line : Text) :
    (above ++ .lineFeed :: line).length = above.length + 1 + line.length := by
  rw [List.length_append, List.length_cons]
  omega

theorem getElem?_above (above rest : Text) (u : CodeUnit) :
    (above ++ u :: rest)[above.length]? = some u := by
  rw [List.getElem?_append_right (Nat.le_refl _), Nat.sub_self, List.getElem?_cons_zero]

theorem exists_mem_run (above run rest : Text) (hi : above.length ≤ i)
    (hlt : i < above.length + run.length) :
    ∃ u ∈ run, (above ++ (run ++ rest))[i]? = some u := by
  have hlt' : i - above.length < run.length := by omega
  refine ⟨run[i - above.length], List.getElem_mem hlt', ?_⟩
  rw [List.getElem?_append_right hi, List.getElem?_append_left hlt', List.getElem?_eq_getElem hlt']

theorem exists_mem_line (above run rest : Text) (hi : above.length < i)
    (hlt : i < above.length + 1 + run.length) :
    ∃ u ∈ run, (above ++ .lineFeed :: (run ++ rest))[i]? = some u := by
  rw [List.append_cons]
  apply exists_mem_run
  · rw [List.length_append]
    exact hi
  · rw [List.length_append]
    exact hlt

theorem lt_of_no_lineFeed
    (hline : ∀ j, i ≤ j → j < above.length + 1 + run.length →
      (above ++ .lineFeed :: (run ++ rest))[j]? ≠ some .lineFeed) : above.length < i := by
  apply Nat.lt_of_not_le
  intro hle
  exact hline above.length hle (by omega) (getElem?_above above (run ++ rest) .lineFeed)

end Positions

namespace Begun

variable {behind : Text} {width : Nat} {u : CodeUnit}

theorem lineFeed (behind : Text) : Begun (behind ++ [.lineFeed]) false 0 :=
  .layout behind [] rfl (by simp)

theorem cons_layout (h : Begun behind false width) (hu : u.isLayout = true) :
    Begun (behind ++ [u]) false (widen width (columns [u])) := by
  cases h with
  | @layout above line hbehind hline =>
    have hwidth : widen (min 32767 (columns line)) (columns [u]) =
        min 32767 (columns (line ++ [u])) := by
      simp only [columns, widen, maxWidth, List.count_append]
      omega
    rw [hwidth]
    apply layout above
    · rw [hbehind, List.append_assoc, List.cons_append]
    · intro v hv
      rcases List.mem_append.1 hv with hv | hv
      · exact hline v hv
      · rwa [List.mem_singleton.1 hv]

theorem cons_hash (h : Begun behind false width) : Begun (behind ++ [.hash]) true width := by
  cases h with
  | @layout above line hbehind hline =>
    apply comment above line []
    · rw [hbehind, List.append_assoc, List.cons_append]
    · exact hline
    · exact List.not_mem_nil

theorem cons_comment (h : Begun behind true width) (hu : u ≠ .lineFeed) :
    Begun (behind ++ [u]) true width := by
  cases h with
  | @comment above run body _ hbehind hrun hbody =>
    apply comment above run (body ++ [u])
    · rw [hbehind, List.append_assoc, List.cons_append, List.append_assoc, List.cons_append]
    · exact hrun
    · rw [List.mem_append, List.mem_singleton, not_or]
      exact ⟨hbody, Ne.symm hu⟩

theorem width_le (h : Begun behind false width) : width ≤ maxWidth := by
  cases h with
  | layout => exact Nat.min_le_left ..

theorem inMargin (h : Begun (behind ++ [u]) true width) (t : Text) :
    InMargin (behind ++ u :: t) behind.length := by
  cases h with
  | @comment above run body _ hbehind hrun hbody =>
    have hlength := congrArg List.length hbehind
    simp only [List.length_append, List.length_cons, List.length_nil] at hlength
    have hsource : behind ++ u :: t = above ++ .lineFeed :: (run ++ (.hash :: body ++ t)) := by
      rw [List.append_cons, hbehind]
      simp
    rw [hsource]
    refine .inr ⟨above.length + 1 + run.length, by omega, ?_, ?_, ?_⟩
    · rw [← length_above, ← List.cons_append, ← List.append_assoc]
      exact getElem?_above _ _ _
    · intro j hj hle hl
      obtain ⟨v, hv, hvj⟩ := exists_mem_line above (run ++ .hash :: body) t
        (i := j) (by omega) (by simp only [List.length_append, List.length_cons]; omega)
      rw [List.append_assoc, hl, Option.some.injEq] at hvj
      subst hvj
      rcases List.mem_append.1 hv with hv | hv
      · exact absurd (hrun _ hv) (by decide)
      · rcases List.mem_cons.1 hv with hv | hv
        · exact absurd hv (by decide)
        · exact hbody hv
    · intro j hj hline
      obtain ⟨v, hv, hvj⟩ := exists_mem_line above run _ (lt_of_no_lineFeed hline) hj
      exact ⟨v, hvj, hrun v hv⟩

theorem not_inMargin (h : Begun behind false width) (hu : u.isLayout = false)
    (hl : u ≠ .lineFeed) (hh : u ≠ .hash) (t : Text) :
    ¬InMargin (behind ++ u :: t) behind.length := by
  have hat := getElem?_above behind t u
  cases h with
  | @layout above line hbehind hline =>
    rintro (⟨v, hv, hlayout⟩ | ⟨hash, hcomment⟩)
    · rw [hat, Option.some.injEq] at hv
      subst hv
      rcases hlayout with hlayout | hlayout
      · cases hu.symm.trans hlayout
      · exact hl hlayout
    · rcases Nat.lt_or_eq_of_le hcomment.le with hlt | rfl
      · have hsource : behind ++ u :: t = above ++ .lineFeed :: (line ++ u :: t) := by
          rw [hbehind, List.append_assoc, List.cons_append]
        have hno := hcomment.goesOn
        have hstarts := hcomment.starts
        rw [hsource] at hno hstarts
        rw [hbehind, length_above] at hlt hno
        obtain ⟨v, hv, hvh⟩ := exists_mem_line above line _
          (lt_of_no_lineFeed fun j hj hle => hno j hj (Nat.le_of_lt hle)) hlt
        rw [hstarts, Option.some.injEq] at hvh
        subst hvh
        exact absurd (hline _ hv) (by decide)
      · rw [hcomment.starts, Option.some.injEq] at hat
        exact hh hat.symm

theorem exists_lastLineFeed (h : Begun behind false width) (t : Text) :
    ∃ feed, LastLineFeed (behind ++ t) behind.length feed ∧
      width = min 32767 (columns (Text.slice (behind ++ t) (feed + 1) behind.length)) := by
  cases h with
  | @layout above line hbehind hline =>
    have hsource : behind ++ t = above ++ .lineFeed :: (line ++ t) := by
      rw [hbehind, List.append_assoc, List.cons_append]
    have hlength := congrArg List.length hbehind
    rw [length_above] at hlength
    rw [hsource, hlength]
    refine ⟨above.length, ⟨by omega, getElem?_above above _ _, ?_⟩, ?_⟩
    · intro j hj hlt hl
      obtain ⟨v, hv, hvj⟩ := exists_mem_line above line t hj hlt
      rw [hl, Option.some.injEq] at hvj
      subst hvj
      exact absurd (hline _ hv) (by decide)
    · rw [Text.slice, List.append_cons, Nat.add_sub_cancel_left,
        List.drop_left' (by rw [List.length_append]; rfl), List.take_left]

end Begun

theorem Stops.extend {source : Text} {start stop width : Nat}
    (h : Stops source (start + 1) stop width) (hstart : InMargin source start) :
    Stops source start stop width := by
  have hall : ∀ {stop}, (∀ j, start + 1 ≤ j → j < stop → InMargin source j) →
      ∀ j, start ≤ j → j < stop → InMargin source j := by
    intro stop hmargin j hj hlt
    rcases Nat.eq_or_lt_of_le hj with rfl | hj
    · exact hstart
    · exact hmargin j hj hlt
  cases h with
  | atEnd hmargin => exact .atEnd (hall hmargin)
  | atCode hmargin hle hlt hcode hfeed =>
    exact .atCode (hall hmargin) (Nat.le_of_succ_le hle) hlt hcode hfeed

theorem Stops.le_length {source : Text} {start stop width : Nat}
    (h : Stops source start stop width) : stop ≤ source.length := by
  cases h with
  | atEnd => exact Nat.le_refl _
  | atCode _ _ hlt => exact Nat.le_of_lt hlt

theorem measureFrom_stops {behind : Text} {comment : Bool} {width : Nat}
    (h : Begun behind comment width) (passed : Nat) (t : Text) :
    ∃ n, (measureFrom comment width passed t).passed = passed + n ∧
      Stops (behind ++ t) behind.length (behind.length + n)
        (measureFrom comment width passed t).width := by
  -- What is behind grows by the unit that is passed, so the source stays the same.
  induction t generalizing behind comment width passed with
  | nil =>
    refine ⟨0, rfl, ?_⟩
    rw [List.append_nil]
    exact .atEnd fun j hj hlt => absurd hlt (Nat.not_lt.2 hj)
  | cons u t ih =>
    have hpass : ∀ {comment' width'}, Begun (behind ++ [u]) comment' width' →
        InMargin (behind ++ u :: t) behind.length →
        ∃ n, (measureFrom comment' width' (passed + 1) t).passed = passed + n ∧
          Stops (behind ++ u :: t) behind.length (behind.length + n)
            (measureFrom comment' width' (passed + 1) t).width := by
      intro comment' width' hbegun hmargin
      obtain ⟨n, hpassed, hstops⟩ := ih hbegun (passed + 1)
      refine ⟨n + 1, by rw [hpassed, Nat.add_assoc, Nat.add_comm 1], ?_⟩
      rw [← List.append_cons, List.length_append, List.length_singleton, Nat.add_assoc,
        Nat.add_comm 1 n] at hstops
      exact hstops.extend hmargin
    have hat := getElem?_above behind t u
    by_cases hl : u = .lineFeed
    · subst hl
      rw [measureFrom_lineFeed]
      exact hpass (.lineFeed behind) (.inl ⟨_, hat, .inr rfl⟩)
    cases comment with
    | true =>
      have hgrown := h.cons_comment hl
      rw [measureFrom_comment passed t width hl]
      exact hpass hgrown (hgrown.inMargin t)
    | false =>
      by_cases hh : u = .hash
      · subst hh
        rw [measureFrom_hash]
        exact hpass h.cons_hash (h.cons_hash.inMargin t)
      · cases hu : u.isLayout with
        | true =>
          rw [measureFrom_layout passed t hu h.width_le]
          exact hpass (h.cons_layout hu) (.inl ⟨u, hat, .inl hu⟩)
        | false =>
          obtain ⟨feed, hfeed, hwidth⟩ := h.exists_lastLineFeed (u :: t)
          rw [measureFrom_code passed t hu hh hl]
          refine ⟨0, rfl, ?_⟩
          change Stops _ _ _ width
          rw [hwidth]
          apply Stops.atCode
          · exact fun j hj hlt => absurd hlt (Nat.not_lt.2 hj)
          · exact Nat.le_refl _
          · simp
          · exact h.not_inMargin hu hl hh t
          · exact hfeed

theorem ofText_stops (above t : Text) :
    Stops (above ++ .lineFeed :: t) (above.length + 1)
      (above.length + 1 + (ofText t).passed) (ofText t).width := by
  obtain ⟨n, hpassed, hstops⟩ := measureFrom_stops (.lineFeed above) 0 t
  rw [← List.append_cons, List.length_append, List.length_singleton] at hstops
  rw [ofText, hpassed, Nat.zero_add]
  exact hstops

end Margin

namespace Cursor

variable {c : Cursor} {k : Nat} {t : Text}

theorem measured_of_other {u : CodeUnit} (hl : u ≠ .lineFeed) (hr : u ≠ .carriageReturn)
    (h : c.ahead = Text.returns k ++ u :: t) :
    c.begin.measureBreak.1 = none ∧ c.begin.measureBreak.2.offset = c.offset + k := by
  have hoffset := offset_skipBy_of_ahead (c := c.begin) h
  rw [Text.length_returns] at hoffset
  rw [measureBreak_of_other (c := c.begin) hl hr h]
  exact ⟨rfl, hoffset⟩

theorem measured_of_end (h : c.ahead = Text.returns k) :
    c.begin.measureBreak.1 = some 0 ∧
      c.begin.measureBreak.2.span = ⟨c.offset + k, c.offset + k⟩ := by
  rw [measureBreak_of_end (c := c.begin) h]
  exact ⟨rfl, span_end h⟩

theorem measured_of_lineFeed (h : c.ahead = Text.returns k ++ .lineFeed :: t) :
    c.begin.measureBreak.2.span = ⟨c.offset + k, c.offset + k + 1⟩ := by
  rw [measureBreak_of_lineFeed (c := c.begin) h]
  exact span_lineFeed _ h

theorem stops_measureBreak (hc : c.offset ≤ c.source.length)
    (h : c.ahead = Text.returns k ++ .lineFeed :: t) :
    ∃ width, c.begin.measureBreak.1 = some width ∧
      Margin.Stops c.source (c.offset + k + 1) c.begin.measureBreak.2.offset width := by
  have hsource : c.source =
      (c.source.take c.offset ++ Text.returns k) ++ .lineFeed :: t := by
    rw [List.append_assoc, ← h]
    exact (List.take_append_drop c.offset c.source).symm
  have hlength : (c.source.take c.offset ++ Text.returns k).length = c.offset + k := by
    rw [List.length_append, Text.length_returns, List.length_take_of_le hc]
  have hstops := Margin.ofText_stops (c.source.take c.offset ++ Text.returns k) t
  rw [← hsource, hlength] at hstops
  rw [measureBreak_of_lineFeed (c := c.begin) h]
  refine ⟨_, rfl, ?_⟩
  have hoffset : ((c.begin.skipBy k).advance.markEnd.skipBy (Margin.ofText t).passed).offset =
      c.offset + k + 1 + (Margin.ofText t).passed := by
    have hle := hstops.le_length
    have hall := congrArg List.length hsource
    rw [List.length_append, hlength, List.length_cons] at hall
    simp only [advance, offset_skipBy, offset_markEnd, offset_advanceBy, offset_begin, remaining,
      source_skipBy, source_markEnd, source_advanceBy, source_begin]
    omega
  rw [hoffset]
  exact hstops

/-- What measuring comes to at a begun token, told from the first unit behind the carriage returns
that are ahead: nothing is found in front of another unit; at the end of input the token is empty; a
line feed makes a token of its own, and the margin behind it is passed and measured. -/
theorem measureBreak_exact (c : Cursor) (hc : c.offset ≤ c.source.length) :
    let stop := c.offset + (c.ahead.takeWhile (· == .carriageReturn)).length
    let width? := c.begin.measureBreak.1
    let reached := c.begin.measureBreak.2
    (∀ u, c.source[stop]? = some u → u ≠ .lineFeed → width? = none ∧ reached.offset = stop) ∧
      (c.source[stop]? = none → width? = some 0 ∧
        reached.span = ⟨c.source.length, c.source.length⟩ ∧
        reached.accept.offset = c.source.length) ∧
      (c.source[stop]? = some .lineFeed → reached.span = ⟨stop, stop + 1⟩ ∧
        reached.accept.offset = stop + 1 ∧
        ∃ width, width? = some width ∧
          Margin.Stops c.source (stop + 1) reached.offset width) := by
  intro stop width? reached
  obtain ⟨k, rest, hahead, hrest⟩ := c.ahead.eq_returns_append
  have hstop : stop = c.offset + k := by
    change c.offset + (c.ahead.takeWhile (· == .carriageReturn)).length = c.offset + k
    rw [hahead, Text.takeWhile_returns hrest, Text.length_returns]
  have hat : c.source[stop]? = rest.head? := by
    rw [hstop, ← List.head?_drop, drop_source, hahead, Text.drop_returns]
  rw [hat, hstop]
  cases rest with
  | nil =>
    rw [List.append_nil] at hahead
    have hlength : c.source.length = c.offset + k := by
      have := congrArg List.length hahead
      rw [length_ahead, Text.length_returns, remaining] at this
      omega
    obtain ⟨hwidth, hspan⟩ := measured_of_end hahead
    rw [hlength]
    exact ⟨by simp, fun _ => ⟨hwidth, hspan, congrArg Span.stop hspan⟩, by simp⟩
  | cons u t =>
    rw [List.head?_cons]
    by_cases hu : u = .lineFeed
    · subst hu
      have hspan := measured_of_lineFeed hahead
      refine ⟨by rintro u ⟨⟩ hne; exact absurd rfl hne, by simp, fun _ => ?_⟩
      exact ⟨hspan, congrArg Span.stop hspan, stops_measureBreak hc hahead⟩
    · have hmeasured := measured_of_other hu (by simpa using hrest) hahead
      exact ⟨fun _ _ _ => hmeasured, by simp, fun h => absurd (Option.some.inj h) hu⟩

theorem measureBreak_exact_comment :
    let c : Cursor := ⟨[.bar, .carriageReturn, .lineFeed, .space, .lineFeed, .tab, .hash, .bar,
      .lineFeed, .space, .tab, .bar], 1, 0, 0, none, false⟩
    c.offset ≤ c.source.length ∧ c.begin.measureBreak.1 = some 4 ∧
      c.begin.measureBreak.2.span = ⟨2, 3⟩ ∧ Margin.Stops c.source 3 11 4 := by
  intro c
  have hc : c.offset ≤ c.source.length := by decide
  obtain ⟨-, -, hfeed⟩ := measureBreak_exact c hc
  obtain ⟨hspan, -, width, hwidth, hstops⟩ := hfeed (by decide)
  have hfour : width = 4 := Option.some.inj (hwidth.symm.trans (by decide))
  subst hfour
  exact ⟨hc, hwidth, hspan, hstops⟩

end Cursor

end Offside
