import Offside.Proofs.Moves

/-! A reader and its moves. Main statements: a reader makes every move that there is from its place,
and every step that it takes is a move, so its tokens are those of the one run from there. -/

namespace Offside

open Text (returns)

namespace Mode

@[simp] theorem newline_mem_accepted (m : Mode) : .newline ∈ m.accepted := by cases m <;> decide
@[simp] theorem indent_mem_accepted (m : Mode) : .indent ∈ m.accepted := by cases m <;> decide
@[simp] theorem dedent_mem_accepted (m : Mode) : .dedent ∈ m.accepted := by cases m <;> decide

@[simp] theorem textSegment_mem_accepted (m : Mode) : .textSegment ∈ m.accepted ↔ m = .text := by
  cases m <;> decide

@[simp] theorem interpolationStart_mem_accepted (m : Mode) :
    .interpolationStart ∈ m.accepted ↔ m = .text := by
  cases m <;> decide

end Mode

/-- A scan turns to instruction text: at an open brace if interpolations are accepted, and at any
other unit that goes on a text segment if those are. -/
def Cursor.ReadsText (c : Cursor) (accepted : List Kind) : Prop :=
  (.interpolationStart ∈ accepted ∧ c.lookahead = some .openBrace) ∨
    (.textSegment ∈ accepted ∧ ¬c.atTextEnd)

instance (c : Cursor) (accepted : List Kind) : Decidable (c.ReadsText accepted) :=
  inferInstanceAs (Decidable (_ ∨ _))

namespace Scanner

variable {s : Scanner} {accepted : List Kind}

theorem settle_of_owes {target : Int} (hd : .dedent ∈ accepted) (h : s.Owes target) :
    s.settle accepted = (some .dedent, s.dedentTo target) := by
  obtain ⟨hs, ht, hdepth⟩ := h
  simp [settle, hs, hd, ht, hdepth, dedentTo]

theorem settle_of_not_owes (hd : .dedent ∈ accepted) (h : ∀ target, ¬s.Owes target) :
    s.settle accepted = (none, s.settled) := by
  rw [settle]
  split
  · rename_i hs
    rw [settled, ← hs]
  · rename_i target hs
    have hnot : ¬(target < s.blocks.current ∧ 1 < s.blocks.depth) := fun hc =>
      h target ⟨hs, hc.1, hc.2⟩
    simp [hd, hnot, settled]

section Pick

variable {m : Mode} {c : Cursor}

theorem pick_of_interpolation {t : Text} (hi : .interpolationStart ∈ accepted)
    (h : c.ahead = .openBrace :: .bang :: t) :
    s.pick accepted c = ⟨some .interpolationStart, s, (c.advanceBy 2).markEnd, []⟩ := by
  have hl : c.lookahead = some .openBrace := by rw [Cursor.lookahead_eq_head?, h]; rfl
  have hb : c.advance.lookahead = some .bang := by
    rw [Cursor.lookahead_eq_head?, Cursor.advance, Cursor.ahead_advanceBy, h]
    rfl
  rw [Cursor.advanceBy_succ]
  simp [pick, Cursor.interpolation, hi, hl, hb]
  rfl

theorem pick_of_segment {u : CodeUnit} {run rest : Text} (hi : .interpolationStart ∈ accepted)
    (ht : .textSegment ∈ accepted) (hu : u ≠ .lineFeed)
    (hb : u = .openBrace → (run ++ rest).head? ≠ some .bang) (hrun : ∀ v ∈ run, v.isPlain = true)
    (hrest : ∀ v, rest.head? = some v → v.isPlain = false) (h : c.ahead = u :: run ++ rest) :
    s.pick accepted c =
      ⟨some .textSegment, s, (c.advanceBy (u :: run).length).markEnd, []⟩ := by
  have hl : c.lookahead = some u := by rw [Cursor.lookahead_eq_head?, h]; rfl
  have hahead : c.advance.ahead = run ++ rest := by
    rw [Cursor.advance, Cursor.ahead_advanceBy, h]
    rfl
  by_cases hbrace : u = .openBrace
  · subst hbrace
    have hbang : c.advance.lookahead ≠ some .bang := by
      rw [Cursor.lookahead_eq_head?, hahead]
      exact hb rfl
    have hrun' : c.advance.textSegment = (c.advance.advanceBy run.length).markEnd :=
      congrArg Cursor.markEnd (Cursor.advanceWhile_run hahead hrun hrest)
    simp [pick, Cursor.interpolation, hi, ht, hl, hbang, hrun', Cursor.advanceBy_succ]
  · have hplain : ∀ v ∈ u :: run, v.isPlain = true := by
      intro v hv
      rcases List.mem_cons.1 hv with rfl | hv
      · simp [CodeUnit.isPlain, hu, hbrace]
      · exact hrun v hv
    have hrun' : c.textSegment = (c.advanceBy (u :: run).length).markEnd :=
      congrArg Cursor.markEnd (Cursor.advanceWhile_run h hplain hrest)
    simp [pick, Cursor.atTextEnd, ht, hl, hu, hbrace, hrun']

theorem pick_of_not_readsText (h : ¬c.ReadsText accepted) :
    s.pick accepted c =
      match s.settle accepted with
      | (some kind, s) => ⟨some kind, s, c, []⟩
      | (none, s) => if c.atBreak then s.lineBreak accepted c else ⟨none, s, c, []⟩ :=
  (if_neg fun hi => h (.inl hi)).trans (if_neg fun ht => h (.inr ht))

theorem not_readsText_of_yields (h : ∀ u, c.ahead.head? = some u → u = .lineFeed)
    (accepted : List Kind) : ¬c.ReadsText accepted := by
  rw [← Cursor.lookahead_eq_head?] at h
  rintro (⟨-, hl⟩ | ⟨-, hl⟩)
  · exact absurd (h _ hl) (by decide)
  · apply hl
    rw [Cursor.atTextEnd]
    split
    · rfl
    · rename_i u hu
      rw [h u hu]
      rfl

theorem pick_of_yields (h : m = .text → ∀ u, c.ahead.head? = some u → u = .lineFeed) :
    s.pick m.accepted c =
      match s.settle m.accepted with
      | (some kind, s) => ⟨some kind, s, c, []⟩
      | (none, s) => if c.atBreak then s.lineBreak m.accepted c else ⟨none, s, c, []⟩ := by
  apply pick_of_not_readsText
  by_cases hm : m = .text
  · exact not_readsText_of_yields (h hm) m.accepted
  · rintro (⟨hi, -⟩ | ⟨ht, -⟩)
    · exact hm ((Mode.interpolationStart_mem_accepted m).1 hi)
    · exact hm ((Mode.textSegment_mem_accepted m).1 ht)

theorem pick_of_owes {target : Int}
    (h : m = .text → ∀ u, c.ahead.head? = some u → u = .lineFeed) (ho : s.Owes target) :
    s.pick m.accepted c = ⟨some .dedent, s.dedentTo target, c, []⟩ := by
  rw [pick_of_yields h, settle_of_owes (by simp) ho]

theorem pick_of_quiet (h : Quiet m s c.ahead) :
    s.pick m.accepted c =
      if c.atBreak then s.settled.lineBreak m.accepted c else ⟨none, s.settled, c, []⟩ := by
  rw [pick_of_yields h.yields, settle_of_not_owes (by simp) h.settled]

end Pick

section Break

variable {m : Mode} {c : Cursor} {width : Nat}

theorem decideBreak_of_lt {b : Blocks} (hw : s.blocks.current < width)
    (hb : s.blocks.push? width = some b) :
    s.settled.decideBreak m.accepted width c =
      ⟨some .indent, { s with blocks := b, deferred := none }, c,
        [.boundary width s.blocks.current]⟩ := by
  simp [decideBreak, settled, hw, hb]

theorem decideBreak_of_full (hw : s.blocks.current < width) (hb : s.blocks.push? width = none) :
    s.settled.decideBreak m.accepted width c =
      ⟨some .indent, s.settled, c,
        [.boundary width s.blocks.current, .notice (.depthLimit s.blocks.capacity width)]⟩ := by
  simp [decideBreak, settled, hw, hb]

theorem decideBreak_of_gt (hw : width < s.blocks.current) :
    s.settled.decideBreak m.accepted width c =
      ⟨some .dedent, s.dedentTo width, c, [.boundary width s.blocks.current]⟩ := by
  have hn : ¬s.blocks.current < width := Nat.lt_asymm hw
  rcases Nat.lt_or_ge width s.blocks.pop.current with h | h
  · simp [decideBreak, hw, hn, settled, dedentTo, h, Nat.not_le.2 h]
  · simp [decideBreak, hw, hn, settled, dedentTo, h, Nat.not_lt.2 h]

theorem decideBreak_of_eq (hw : width = s.blocks.current) :
    s.settled.decideBreak m.accepted width c =
      ⟨if c.atEnd then none else some .newline, s.settled, c,
        [.boundary width s.blocks.current]⟩ := by
  subst hw
  cases h : c.atEnd <;> simp [decideBreak, settled, h]

end Break

end Scanner

def Reader.place (r : Reader) : Place := ⟨r.mode, r.scanner, r.cursor.offset, r.cursor.ahead⟩

def Step.Follows (instructions : Bool) (p : Place) : Step × List Event → Prop
  | (.token x next, events) =>
    Move instructions p (some x) (events.filterMap Event.notice?) next.place
  | (.layout next, events) => Move instructions p none (events.filterMap Event.notice?) next.place
  | (.done x last, events) =>
    Run instructions p [x] (events.filterMap Event.notice?) last.scanner

def Step.Leads (x : Option Lexeme) (ns : List Notice) (q : Place) : Step × List Event → Prop
  | (.token y next, events) => x = some y ∧ ns = events.filterMap Event.notice? ∧ q = next.place
  | (.layout next, events) => x = none ∧ ns = events.filterMap Event.notice? ∧ q = next.place
  | (.done _ _, _) => False

theorem Step.Leads.follows {instructions : Bool} {p q : Place} {x : Option Lexeme}
    {ns : List Notice} {step : Step × List Event} (h : Step.Leads x ns q step)
    (hm : Move instructions p x ns q) : Step.Follows instructions p step := by
  obtain ⟨step, events⟩ := step
  cases step with
  | token y next =>
    obtain ⟨rfl, rfl, rfl⟩ := h
    exact hm
  | layout next =>
    obtain ⟨rfl, rfl, rfl⟩ := h
    exact hm
  | done y last => exact h.elim

namespace Reader

variable {instructions : Bool}

section Fallback

variable {m : Mode} {s : Scanner} {c : Cursor}

theorem fallback_of_end (h : c.ahead = []) :
    fallback instructions ⟨m, s, c⟩ =
      .done ⟨.endOfInput, ⟨c.offset, c.offset⟩, 0⟩ ⟨m, s, c.begin.accept⟩ := by
  have hspan : c.begin.span = ⟨c.offset, c.offset⟩ := by
    simp only [Cursor.span, Cursor.begin, Option.getD_none, Nat.min_self]
  simp [fallback, (Cursor.atEnd_iff_ahead c).2 h, hspan]

theorem fallback_of_layout (h : c.ahead ≠ []) (hs : c.skipLayout.offset ≠ c.offset) :
    fallback instructions ⟨m, s, c⟩ = .layout ⟨m, s, c.skipLayout⟩ := by
  have he : ¬c.atEnd = true := mt (Cursor.atEnd_iff_ahead c).1 h
  simp [fallback, he, hs]

theorem skipLayout_eq_self {u : CodeUnit} {t : Text} (h : c.ahead = u :: t)
    (hblank : u.isBlank = false) (hhash : u ≠ .hash) : c.skipLayout = c := by
  have h' : c.ahead = [] ++ (u :: t) := h
  rw [Cursor.skipLayout_blanks (by simp) (by simpa using hblank) (by simpa using hhash) h']
  exact Cursor.skipBy_zero c

theorem fallback_of_break {u : CodeUnit} {t : Text} (h : c.ahead = u :: t)
    (hu : u = .lineFeed ∨ u = .carriageReturn) :
    fallback instructions ⟨m, s, c⟩ = .layout ⟨m, s, c.skip⟩ := by
  have he : ¬c.atEnd = true := by simp [Cursor.atEnd_iff_ahead, h]
  have hb : c.atBreak = true := by
    rw [Cursor.atBreak, Cursor.lookahead_eq_head?, h]
    rcases hu with rfl | rfl <;> rfl
  have hs : c.skipLayout = c := by
    apply skipLayout_eq_self h
    · rcases hu with rfl | rfl <;> rfl
    · rcases hu with rfl | rfl <;> decide
  simp [fallback, he, hb, hs]

theorem fallback_of_word {u : CodeUnit} {t : Text} (h : c.ahead = u :: t)
    (hblank : u.isBlank = false) (hhash : u ≠ .hash) (hl : u ≠ .lineFeed)
    (hr : u ≠ .carriageReturn) :
    fallback instructions ⟨m, s, c⟩ =
      .token ⟨.content, c.begin.word.span, 0⟩
        ⟨m.afterContent c.begin.word.text instructions, s, c.begin.word.accept⟩ := by
  have he : ¬c.atEnd = true := by simp [Cursor.atEnd_iff_ahead, h]
  have hb : ¬c.atBreak = true := by
    rw [Cursor.atBreak, Cursor.lookahead_eq_head?, h]
    simp [hl, hr]
  simp [fallback, he, hb, skipLayout_eq_self h hblank hhash]

end Fallback

section Declined

variable {m : Mode} {s : Scanner} {c : Cursor} {events : List Event} {run rest : Text}
  (hn : events.filterMap Event.notice? = [])
include hn

theorem fallback_blanks (ha : c.ahead = run ++ rest) (hne : run ≠ [])
    (hrun : ∀ u ∈ run, u.isBlank = true)
    (hrest : ∀ u, rest.head? = some u → u.isBlank = false ∧ u ≠ .hash) :
    Step.Leads none [] ⟨m, s, c.offset + run.length, rest⟩
      (fallback instructions ⟨m, s, c⟩, events) := by
  have hhash : rest.head? ≠ some .hash := fun h => (hrest _ h).2 rfl
  have hskip := Cursor.skipLayout_blanks hrun (fun u hu => (hrest u hu).1) hhash ha
  have ho : c.skipLayout.offset = c.offset + run.length := by
    rw [hskip, Cursor.offset_skipBy_of_ahead ha]
  have hahead : c.skipLayout.ahead = rest := by
    rw [hskip, Cursor.ahead_skipBy, ha, List.drop_left]
  rw [fallback_of_layout (by simp [ha, hne]) (by simpa [ho] using hne)]
  simp only [Step.Leads, hn, place, ho, hahead, and_self]

theorem fallback_comment {body : Text} (ha : c.ahead = run ++ .hash :: body ++ rest)
    (hrun : ∀ u ∈ run, u.isBlank = true) (hbody : .lineFeed ∉ body)
    (hrest : ∀ u, rest.head? = some u → u = .lineFeed) :
    Step.Leads none [] ⟨m, s, c.offset + (run ++ .hash :: body).length, rest⟩
      (fallback instructions ⟨m, s, c⟩, events) := by
  obtain ⟨ho, hahead⟩ := Cursor.skipLayout_comment hrun hbody hrest ha
  rw [fallback_of_layout (by simp [ha]) (by simp [ho])]
  simp only [Step.Leads, hn, place, ho, hahead, and_self]

theorem fallback_skip {u : CodeUnit} (ha : c.ahead = u :: rest)
    (hu : u = .lineFeed ∨ u = .carriageReturn) :
    Step.Leads none [] ⟨m, s, c.offset + 1, rest⟩ (fallback instructions ⟨m, s, c⟩, events) := by
  have ha' : c.ahead = [u] ++ rest := ha
  have ho : c.skip.offset = c.offset + 1 := Cursor.offset_skipBy_of_ahead ha'
  have hahead : c.skip.ahead = rest := by
    rw [Cursor.skip, Cursor.ahead_skipBy, ha]
    rfl
  rw [fallback_of_break ha hu]
  simp only [Step.Leads, hn, place, ho, hahead, and_self]

theorem fallback_word {u : CodeUnit} (ha : c.ahead = u :: run ++ rest) (hblank : u.isBlank = false)
    (hhash : u ≠ .hash) (hl : u ≠ .lineFeed) (hr : u ≠ .carriageReturn)
    (hw : c.begin.word = c.begin.advanceBy (u :: run).length) :
    Step.Leads (some ⟨.content, ⟨c.offset, c.offset + (u :: run).length⟩, 0⟩) []
      ⟨m.afterContent (u :: run) instructions, s, c.offset + (u :: run).length, rest⟩
      (fallback instructions ⟨m, s, c⟩, events) := by
  have hspan := Cursor.span_advanceBy_begin ha
  have htext := Cursor.text_advanceBy_begin ha
  have ho : (c.begin.advanceBy (u :: run).length).accept.offset =
      c.offset + (u :: run).length := congrArg Span.stop hspan
  have hahead : (c.begin.advanceBy (u :: run).length).accept.ahead = rest := by
    change c.source.drop (c.begin.advanceBy (u :: run).length).span.stop = rest
    rw [hspan, Cursor.drop_source, ha, List.drop_left]
  rw [fallback_of_word ha hblank hhash hl hr, hw]
  simp only [Step.Leads, hn, place, hspan, htext, ho, hahead, and_self]

theorem fallback_single {u : CodeUnit} (ha : c.ahead = u :: rest) (hu : u.standsAlone = true) :
    Step.Leads (some ⟨.content, ⟨c.offset, c.offset + 1⟩, 0⟩) []
      ⟨m.afterContent [u] instructions, s, c.offset + 1, rest⟩
      (fallback instructions ⟨m, s, c⟩, events) := by
  have hw := Cursor.word_single hu ha
  have ha' : c.ahead = [u] ++ rest := ha
  simp only [CodeUnit.standsAlone, Bool.or_eq_true, beq_iff_eq] at hu
  apply fallback_word hn ha' _ _ _ _ hw <;> rcases hu with rfl | rfl <;> decide

theorem fallback_run (ha : c.ahead = run ++ rest) (hne : run ≠ [])
    (hrun : ∀ u ∈ run, u.isContent = true)
    (hrest : ∀ u, rest.head? = some u → u.isContent = false) :
    Step.Leads (some ⟨.content, ⟨c.offset, c.offset + run.length⟩, 0⟩) []
      ⟨m.afterContent run instructions, s, c.offset + run.length, rest⟩
      (fallback instructions ⟨m, s, c⟩, events) := by
  have hw := Cursor.word_run hne hrun hrest ha
  obtain ⟨u, run, rfl⟩ := List.exists_cons_of_ne_nil hne
  have hu := hrun u List.mem_cons_self
  simp only [CodeUnit.isContent, Bool.not_eq_true', Bool.or_eq_false_iff, beq_eq_false_iff_ne] at hu
  exact fallback_word hn ha hu.1.1.1.1 hu.1.2 hu.1.1.1.2 hu.1.1.2 hw

end Declined

section Scan

variable {r : Reader} {s : Scanner} {c : Cursor} {events : List Event}

theorem notices_scan (s : Scanner) (accepted : List Kind) (c : Cursor) :
    (s.scan accepted c).events.filterMap Event.notice? =
      (s.pick accepted c).events.filterMap Event.notice? := by
  rw [Scanner.scan, List.cons_append, List.filterMap_cons, List.filterMap_append]
  simp [Event.notice?]

theorem leads_of_pick {kind : Kind} {a n : Nat} {rest : Text}
    (h : r.scanner.pick r.mode.accepted r.cursor.begin = ⟨some kind, s, c, events⟩)
    (hspan : c.span = ⟨a, r.cursor.offset + n⟩) (hrest : r.cursor.ahead.drop n = rest) :
    Step.Leads (some ⟨kind, ⟨a, r.cursor.offset + n⟩, s.payload kind⟩)
      (events.filterMap Event.notice?) ⟨r.mode.afterToken kind, s, r.cursor.offset + n, rest⟩
      (r.step instructions) := by
  have hcursor := Scanner.continues_pick r.scanner r.mode.accepted r.cursor.begin
  rw [h] at hcursor
  have hahead : c.accept.ahead = rest := by
    change c.source.drop c.span.stop = rest
    rw [hspan, hcursor.source, Cursor.source_begin, Cursor.drop_source, hrest]
  have hoffset : c.accept.offset = r.cursor.offset + n := congrArg Span.stop hspan
  have hn := notices_scan r.scanner r.mode.accepted r.cursor.begin
  simp only [Scanner.scan, h] at hn
  simp only [step, Scanner.scan, h, Step.Leads]
  exact ⟨by rw [hspan], hn.symm, by rw [place, hoffset, hahead]⟩

theorem step_of_declined
    (h : r.scanner.pick r.mode.accepted r.cursor.begin = ⟨none, s, c, events⟩)
    (hn : events.filterMap Event.notice? = []) :
    ∃ c' events', r.step instructions = (fallback instructions ⟨r.mode, s, c'⟩, events') ∧
      c'.offset = r.cursor.offset ∧ c'.ahead = r.cursor.ahead ∧
      events'.filterMap Event.notice? = [] := by
  have hcursor := Scanner.continues_pick r.scanner r.mode.accepted r.cursor.begin
  rw [h] at hcursor
  have horigin : c.origin = r.cursor.offset := hcursor.origin
  have hscan := notices_scan r.scanner r.mode.accepted r.cursor.begin
  simp only [Scanner.scan, h, hn] at hscan
  refine ⟨c.rewind, _, by simp only [step, Scanner.scan, h], horigin, ?_, hscan⟩
  rw [Cursor.ahead_rewind, hcursor.source, horigin]
  rfl

end Scan

section Pick

variable {m : Mode} {s : Scanner} {c : Cursor} {k : Nat} {t : Text}

theorem pick_of_measured {d : Cursor} {width : Nat} (hq : Quiet m s c.ahead)
    (hm : c.begin.measureBreak = (some width, d)) :
    s.pick m.accepted c.begin = s.settled.decideBreak m.accepted width d := by
  rw [Scanner.pick_of_quiet (c := c.begin) hq, if_pos (Cursor.atBreak_of_measureBreak hm),
    Scanner.lineBreak, hm]

theorem pick_of_end (ha : c.ahead = returns k) (hq : Quiet m s c.ahead) :
    s.pick m.accepted c.begin =
      s.settled.decideBreak m.accepted 0 (c.begin.skipBy k).markEnd :=
  pick_of_measured hq (Cursor.measureBreak_of_end (c := c.begin) ha)

theorem pick_of_break (ha : c.ahead = returns k ++ .lineFeed :: t) (hq : Quiet m s c.ahead) :
    s.pick m.accepted c.begin =
      s.settled.decideBreak m.accepted (Margin.ofText t).width
        (((c.begin.skipBy k).advance.markEnd).skipBy (Margin.ofText t).passed) :=
  pick_of_measured hq (Cursor.measureBreak_of_lineFeed (c := c.begin) ha)

theorem drop_break (ha : c.ahead = returns k ++ .lineFeed :: t) : c.ahead.drop (k + 1) = t := by
  rw [ha, ← List.drop_drop, Text.drop_returns]
  rfl

theorem atEnd_break (ha : c.ahead = returns k ++ .lineFeed :: t) :
    (((c.begin.skipBy k).advance.markEnd).skipBy (Margin.ofText t).passed).atEnd = true ↔
      t.length ≤ (Margin.ofText t).passed := by
  have hahead : ((c.begin.skipBy k).advance.markEnd).ahead = t := by
    rw [Cursor.ahead_markEnd, Cursor.advance, Cursor.ahead_advanceBy, Cursor.ahead_skipBy,
      Cursor.ahead_begin, List.drop_drop, drop_break ha]
  rw [Cursor.atEnd_iff_ahead, Cursor.ahead_skipBy, hahead, List.drop_eq_nil_iff]

theorem pick_of_declines (hq : Quiet m s c.ahead) (hd : s.Declines c.ahead) :
    ∃ c' events, s.pick m.accepted c.begin = ⟨none, s.settled, c', events⟩ ∧
      events.filterMap Event.notice? = [] := by
  obtain ⟨k, rest, ha, hrest⟩ := c.ahead.eq_returns_append
  cases rest with
  | nil =>
    rw [List.append_nil] at ha
    have hend : (c.begin.skipBy k).markEnd.atEnd = true := by
      rw [Cursor.atEnd_iff_ahead, Cursor.ahead_markEnd, Cursor.ahead_skipBy, Cursor.ahead_begin, ha]
      exact List.drop_eq_nil_of_le (Nat.le_of_eq (Text.length_returns k))
    rw [pick_of_end ha hq, Scanner.decideBreak_of_eq (hd.atEnd k ha).symm, if_pos hend]
    exact ⟨_, _, rfl, rfl⟩
  | cons u t =>
    by_cases hu : u = .lineFeed
    · subst hu
      obtain ⟨hw, hp⟩ := hd.atBreak k t ha
      rw [pick_of_break ha hq, Scanner.decideBreak_of_eq hw, if_pos ((atEnd_break ha).2 hp)]
      exact ⟨_, _, rfl, rfl⟩
    · have hr : u ≠ .carriageReturn := by simpa using hrest
      rw [Scanner.pick_of_quiet (c := c.begin) hq]
      split
      · rw [Scanner.lineBreak, Cursor.measureBreak_of_other (c := c.begin) hu hr ha]
        exact ⟨_, _, rfl, rfl⟩
      · exact ⟨_, _, rfl, rfl⟩

end Pick

section Steps

variable {m : Mode} {s : Scanner} {c : Cursor} {x : Option Lexeme} {ns : List Notice} {q : Place}

theorem step_of_quiet (instructions : Bool) (hq : Quiet m s c.ahead) (hd : s.Declines c.ahead) :
    ∃ c' events, step instructions ⟨m, s, c⟩ =
        (fallback instructions ⟨m, s.settled, c'⟩, events) ∧
      c'.offset = c.offset ∧ c'.ahead = c.ahead ∧ events.filterMap Event.notice? = [] := by
  obtain ⟨c', events, hpick, hn⟩ := pick_of_declines hq hd
  exact step_of_declined (r := ⟨m, s, c⟩) hpick hn

theorem leads_of_quiet (hq : Quiet m s c.ahead) (hd : s.Declines c.ahead)
    (h : ∀ c' events, c'.offset = c.offset → c'.ahead = c.ahead →
      events.filterMap Event.notice? = [] →
      Step.Leads x ns q (fallback instructions ⟨m, s.settled, c'⟩, events)) :
    Step.Leads x ns q (step instructions ⟨m, s, c⟩) := by
  obtain ⟨c', events, hstep, ho, ha, hn⟩ := step_of_quiet instructions hq hd
  rw [hstep]
  exact h c' events ho ha hn

theorem step_of_end (instructions : Bool) (ha : c.ahead = []) (hq : Quiet m s [])
    (hd : s.Declines []) :
    ∃ last events, step instructions ⟨m, s, c⟩ =
        (.done ⟨.endOfInput, ⟨c.offset, c.offset⟩, 0⟩ last, events) ∧
      last.scanner = s.settled ∧ events.filterMap Event.notice? = [] := by
  obtain ⟨c', events, hstep, ho, ha', hn⟩ := step_of_quiet instructions (ha ▸ hq) (ha ▸ hd)
  rw [hstep, fallback_of_end (ha'.trans ha), ho]
  exact ⟨_, _, rfl, rfl, hn⟩

theorem step_of_move {r : Reader} (h : Move instructions r.place x ns q) :
    Step.Leads x ns q (r.step instructions) := by
  obtain ⟨m, s, c⟩ := r
  generalize hp : place ⟨m, s, c⟩ = p at h
  cases h with
  | interpolation =>
    obtain ⟨rfl, rfl, rfl, ha⟩ := Place.mk.inj hp
    have hbrace : c.ahead = [.openBrace, .bang] ++ _ := ha
    have hspan := Cursor.span_markEnd_advanceBy_begin hbrace
    apply leads_of_pick (r := ⟨.text, s, c⟩) (Scanner.pick_of_interpolation (by simp) ha) hspan
    rw [ha]
    rfl
  | segment hu hbrace hrun hrest =>
    obtain ⟨rfl, rfl, rfl, ha⟩ := Place.mk.inj hp
    apply leads_of_pick
      (Scanner.pick_of_segment (c := c.begin) (by simp) (by simp) hu hbrace hrun hrest ha)
      (Cursor.span_markEnd_advanceBy_begin ha)
    rw [ha, List.drop_left]
  | owed hy ho =>
    obtain ⟨rfl, rfl, rfl, rfl⟩ := Place.mk.inj hp
    apply leads_of_pick (n := 0) (Scanner.pick_of_owes (c := c.begin) hy ho) _ rfl
    simp only [Cursor.span, Cursor.begin, Option.getD_none, Nat.min_self, Nat.add_zero]
  | indent hq hw hb =>
    obtain ⟨rfl, rfl, rfl, ha⟩ := Place.mk.inj hp
    have hpick := (pick_of_break ha (ha ▸ hq)).trans (Scanner.decideBreak_of_lt hw hb)
    exact leads_of_pick hpick (Cursor.span_lineFeed _ ha) (drop_break ha)
  | capped hq hw hb =>
    obtain ⟨rfl, rfl, rfl, ha⟩ := Place.mk.inj hp
    have hpick := (pick_of_break ha (ha ▸ hq)).trans (Scanner.decideBreak_of_full hw hb)
    exact leads_of_pick hpick (Cursor.span_lineFeed _ ha) (drop_break ha)
  | dedent hq hw =>
    obtain ⟨rfl, rfl, rfl, ha⟩ := Place.mk.inj hp
    have hpick := (pick_of_break ha (ha ▸ hq)).trans (Scanner.decideBreak_of_gt hw)
    exact leads_of_pick hpick (Cursor.span_lineFeed _ ha) (drop_break ha)
  | newline hq hw hpassed =>
    obtain ⟨rfl, rfl, rfl, ha⟩ := Place.mk.inj hp
    have hpick := (pick_of_break ha (ha ▸ hq)).trans (Scanner.decideBreak_of_eq hw)
    rw [if_neg (mt (atEnd_break ha).1 (Nat.not_le.2 hpassed))] at hpick
    exact leads_of_pick hpick (Cursor.span_lineFeed _ ha) (drop_break ha)
  | closing hq hw =>
    obtain ⟨rfl, rfl, rfl, ha⟩ := Place.mk.inj hp
    have hpick := (pick_of_end ha (ha ▸ hq)).trans (Scanner.decideBreak_of_gt hw)
    apply leads_of_pick hpick (Cursor.span_end ha)
    rw [ha]
    exact List.drop_eq_nil_of_le (Nat.le_of_eq (Text.length_returns _))
  | blanks hm hq hne hrun hrest =>
    obtain ⟨rfl, rfl, rfl, ha⟩ := Place.mk.inj hp
    apply leads_of_quiet (ha ▸ hq) (ha ▸ .of_run hne hrun ⟨rfl, rfl⟩)
    intro c' events ho ha' hn
    rw [← ho]
    exact fallback_blanks hn (ha'.trans ha) hne hrun hrest
  | @comment _ _ _ run body rest hm hq hrun hbody hrest =>
    obtain ⟨rfl, rfl, rfl, ha⟩ := Place.mk.inj hp
    have hd : s.Declines (run ++ .hash :: body ++ rest) := by
      cases run with
      | nil => exact .of_head (p := (· == .hash)) rfl rfl ⟨rfl, rfl⟩
      | cons u run => exact .of_head rfl (hrun u List.mem_cons_self) ⟨rfl, rfl⟩
    apply leads_of_quiet (ha ▸ hq) (ha ▸ hd)
    intro c' events ho ha' hn
    rw [← ho]
    exact fallback_comment hn (ha'.trans ha) hrun hbody hrest
  | skip hq hd hu =>
    obtain ⟨rfl, rfl, rfl, ha⟩ := Place.mk.inj hp
    apply leads_of_quiet (ha ▸ hq) (ha ▸ hd)
    intro c' events ho ha' hn
    rw [← ho]
    exact fallback_skip hn (ha'.trans ha) hu
  | single hm hq hu =>
    obtain ⟨rfl, rfl, rfl, ha⟩ := Place.mk.inj hp
    apply leads_of_quiet (ha ▸ hq) (ha ▸ .of_head rfl hu ⟨rfl, rfl⟩)
    intro c' events ho ha' hn
    rw [← ho]
    exact fallback_single hn (ha'.trans ha) hu
  | word hm hq hne hrun hrest =>
    obtain ⟨rfl, rfl, rfl, ha⟩ := Place.mk.inj hp
    apply leads_of_quiet (ha ▸ hq) (ha ▸ .of_run hne hrun ⟨rfl, rfl⟩)
    intro c' events ho ha' hn
    rw [← ho]
    exact fallback_run hn (ha'.trans ha) hne hrun hrest

theorem step_follows (instructions : Bool) (r : Reader) :
    Step.Follows instructions r.place (r.step instructions) := by
  obtain ⟨m, s, c⟩ := r
  rcases Place.exists_move instructions m s c.offset c.ahead with ⟨x, ns, q, hmove⟩ | ⟨ha, hq, hd⟩
  · exact (step_of_move hmove).follows hmove
  · obtain ⟨last, events, hstep, hlast, hn⟩ := step_of_end instructions ha hq hd
    rw [hstep, place]
    simp only [Step.Follows, hn, hlast, ha]
    exact .stop hq hd

end Steps

theorem run_isRun (instructions : Bool) (r : Reader) :
    Run instructions r.place (r.run instructions).lexemes
      ((r.run instructions).events.filterMap Event.notice?) (r.run instructions).scanner := by
  fun_induction run instructions r with
  | case1 r x next events h rest hlt ih =>
    have hstep := step_follows instructions r
    rw [h] at hstep
    rw [List.filterMap_append]
    exact .move hstep ih
  | case2 r next events h rest hlt ih =>
    have hstep := step_follows instructions r
    rw [h] at hstep
    rw [List.filterMap_append]
    exact .move hstep ih
  | case3 r x last events h =>
    have hstep := step_follows instructions r
    rwa [h] at hstep

theorem eq_run_of_isRun {instructions : Bool} {r : Reader} {xs : List Lexeme} {ns : List Notice}
    {last : Scanner} (h : Run instructions r.place xs ns last) :
    (r.run instructions).lexemes = xs ∧
      (r.run instructions).events.filterMap Event.notice? = ns ∧
      (r.run instructions).scanner = last := by
  generalize hp : r.place = p at h
  induction h generalizing r with
  | stop hq hd =>
    obtain ⟨m, s, c⟩ := r
    obtain ⟨rfl, rfl, rfl, ha⟩ := Place.mk.inj hp
    obtain ⟨last, events, hstep, hlast, hn⟩ := step_of_end instructions ha hq hd
    rw [run_of_done hstep]
    exact ⟨rfl, hn, hlast⟩
  | move hmove _ ih =>
    subst hp
    have hleads := step_of_move hmove
    rcases hstep : r.step instructions with ⟨step, events⟩
    rw [hstep] at hleads
    cases step with
    | token x next =>
      obtain ⟨rfl, rfl, hq⟩ := hleads
      obtain ⟨hxs, hns, hlast⟩ := ih hq.symm
      rw [run_of_token hstep, List.filterMap_append, hxs, hns]
      exact ⟨rfl, rfl, hlast⟩
    | layout next =>
      obtain ⟨rfl, rfl, hq⟩ := hleads
      obtain ⟨hxs, hns, hlast⟩ := ih hq.symm
      rw [run_of_layout hstep, List.filterMap_append, hns]
      exact ⟨hxs, rfl, hlast⟩
    | done x last => exact hleads.elim

end Reader

theorem toLexeme_tokens (source : Text) (options : Options) :
    (tokenize source options).tokens.toList.map Token.toLexeme =
      ((Reader.start source options.settings).run options.instructions).lexemes := by
  rw [tokens_tokenize, Store.toList_ofList, List.map_map]
  exact List.map_id _

theorem tokenize_isRun (source : Text) (options : Options) :
    Run options.instructions (Reader.start source options.settings).place
      ((tokenize source options).tokens.toList.map Token.toLexeme)
      ((tokenize source { options with trace := true }).events.filterMap Event.notice?)
      (tokenize source options).scanner := by
  rw [toLexeme_tokens, events_tokenize, scanner_tokenize]
  exact Reader.run_isRun options.instructions (Reader.start source options.settings)

end Offside
