import Offside.Proofs.Cursor

/-! A scan depends only on what it reads. Main statement: where two sources agree on the units that
one scan passes and on the unit after them, a scan of the other goes the same way, however far it
looks ahead and wherever in the sources the two begin. -/

namespace Offside

namespace Text

/-- Two texts agree on their first `n` units and on the one after them, or both end there. -/
def Agree (n : Nat) (t t' : Text) : Prop := t.take (n + 1) = t'.take (n + 1)

namespace Agree

variable {n m : Nat} {u : CodeUnit} {t t' : Text}

theorem head? (h : Agree n t t') : t'.head? = t.head? := by
  have := congrArg List.head? h
  rw [List.head?_take, List.head?_take, if_neg (Nat.succ_ne_zero n)] at this
  exact this.symm

theorem eq_nil (h : Agree n [] t') : t' = [] := by
  simpa using h.head?

theorem exists_cons (h : Agree n (u :: t) t') :
    ∃ rest, t' = u :: rest ∧ ∀ m, n = m + 1 → Agree m t rest := by
  obtain ⟨rest, rfl⟩ := List.head?_eq_some_iff.1 h.head?
  refine ⟨rest, rfl, ?_⟩
  rintro m rfl
  exact (List.cons.inj h).2

theorem drop (h : Agree n t t') (hm : m ≤ n) : Agree (n - m) (t.drop m) (t'.drop m) := by
  have := congrArg (List.drop m) h
  rwa [List.drop_take, List.drop_take, Nat.sub_add_comm hm] at this

theorem min_length (h : Agree n t t') (hm : min m t.length ≤ n) :
    min m t'.length = min m t.length := by
  have := congrArg List.length h
  rw [List.length_take, List.length_take] at this
  omega

theorem takeWhile {p : CodeUnit → Bool} (h : Agree n t t') (hn : (t.takeWhile p).length ≤ n) :
    t'.takeWhile p = t.takeWhile p := by
  induction t generalizing n t' with
  | nil => rw [h.eq_nil]
  | cons u t ih =>
    obtain ⟨rest, rfl, hrest⟩ := h.exists_cons
    cases hu : p u with
    | false => simp [hu]
    | true =>
      rw [List.takeWhile_cons_of_pos hu, List.length_cons] at hn
      rw [List.takeWhile_cons_of_pos hu, List.takeWhile_cons_of_pos hu]
      cases n with
      | zero => exact absurd hn (Nat.not_succ_le_zero _)
      | succ n => rw [ih (hrest n rfl) (Nat.le_of_succ_le_succ hn)]

end Agree

end Text

namespace Margin

theorem measureFrom_cons (comment : Bool) (width passed : Nat) (u : CodeUnit) :
    (∀ t, measureFrom comment width passed (u :: t) = ⟨width, passed⟩) ∨
      ∃ comment' width', ∀ t,
        measureFrom comment width passed (u :: t) = measureFrom comment' width' (passed + 1) t := by
  simp only [measureFrom]
  split
  · exact .inr ⟨_, _, fun _ => rfl⟩
  · split
    · exact .inr ⟨_, _, fun _ => rfl⟩
    · split
      · exact .inr ⟨_, _, fun _ => rfl⟩
      · split
        · exact .inr ⟨_, _, fun _ => rfl⟩
        · split
          · exact .inr ⟨_, _, fun _ => rfl⟩
          · split
            · exact .inr ⟨_, _, fun _ => rfl⟩
            · exact .inl fun _ => rfl

theorem passed_bounds (comment : Bool) (width passed : Nat) (t : Text) :
    passed ≤ (measureFrom comment width passed t).passed ∧
      (measureFrom comment width passed t).passed ≤ passed + t.length := by
  induction t generalizing comment width passed with
  | nil => exact ⟨Nat.le_refl _, Nat.le_refl _⟩
  | cons u t ih =>
    rcases measureFrom_cons comment width passed u with hstop | ⟨comment', width', hpass⟩
    · rw [hstop]
      exact ⟨Nat.le_refl _, Nat.le_add_right ..⟩
    · obtain ⟨hlow, hhigh⟩ := ih comment' width' (passed + 1)
      rw [hpass, List.length_cons]
      omega

theorem measureFrom_congr {comment : Bool} {width passed n : Nat} {t t' : Text}
    (h : Text.Agree n t t') (hn : (measureFrom comment width passed t).passed ≤ passed + n) :
    measureFrom comment width passed t' = measureFrom comment width passed t := by
  induction t generalizing comment width passed n t' with
  | nil => rw [h.eq_nil]
  | cons u t ih =>
    obtain ⟨rest, rfl, hrest⟩ := h.exists_cons
    rcases measureFrom_cons comment width passed u with hstop | ⟨comment', width', hpass⟩
    · rw [hstop, hstop]
    · rw [hpass] at hn ⊢
      rw [hpass]
      have hle := (passed_bounds comment' width' (passed + 1) t).1
      cases n with
      | zero => exact absurd (Nat.le_trans hle hn) (Nat.not_succ_le_self passed)
      | succ n => exact ih (hrest n rfl) (by omega)

end Margin

namespace Cursor

/-- Two cursors that stand equally far from their origins, with all that goes with it, and agree on
what is ahead of them up to a limit of the first. -/
structure Alike (limit : Nat) (c c' : Cursor) : Prop where
  reached : c.offset ≤ limit
  ahead : Text.Agree (limit - c.offset) c.ahead c'.ahead
  offset : c'.offset + c.origin = c.offset + c'.origin
  start : c'.start + c.origin = c.start + c'.origin
  mark : c'.mark.map (· + c.origin) = c.mark.map (· + c'.origin)
  included : c'.included = c.included

namespace Alike

variable {limit n : Nat} {c c' : Cursor}

theorem lookahead (h : Alike limit c c') : c'.lookahead = c.lookahead := by
  rw [lookahead_eq_head?, lookahead_eq_head?, h.ahead.head?]

theorem atEnd (h : Alike limit c c') : c'.atEnd = c.atEnd := by
  have hl := h.lookahead
  rw [Bool.eq_iff_iff, atEnd_iff, atEnd_iff, ← lookahead_eq_none_iff, ← lookahead_eq_none_iff, hl]

theorem atBreak (h : Alike limit c c') : c'.atBreak = c.atBreak := by
  rw [Cursor.atBreak, Cursor.atBreak, h.lookahead]

theorem atTextEnd (h : Alike limit c c') : c'.atTextEnd = c.atTextEnd := by
  rw [Cursor.atTextEnd, Cursor.atTextEnd, h.lookahead]

theorem min_remaining (h : Alike limit c c') (hn : c.offset + min n c.remaining ≤ limit) :
    min n c'.remaining = min n c.remaining := by
  rw [← length_ahead] at hn ⊢
  rw [← length_ahead]
  exact h.ahead.min_length (by omega)

theorem drop (h : Alike limit c c') (hn : c.offset + min n c.remaining ≤ limit) :
    Text.Agree (limit - (c.offset + min n c.remaining)) (c.ahead.drop n) (c'.ahead.drop n) := by
  have hdrop := h.ahead.drop (Nat.le_sub_of_add_le' hn)
  rw [Nat.sub_sub] at hdrop
  rw [← drop_min_remaining, ← drop_min_remaining, drop_source, drop_source, h.min_remaining hn]
  exact hdrop

theorem advanceBy (h : Alike limit c c') (hn : (c.advanceBy n).offset ≤ limit) :
    Alike limit (c.advanceBy n) (c'.advanceBy n) where
  reached := hn
  ahead := by
    rw [ahead_advanceBy, ahead_advanceBy]
    exact h.drop hn
  offset := by
    have ho := h.offset
    simp only [offset_advanceBy, origin_advanceBy, h.min_remaining hn]
    omega
  start := h.start
  mark := h.mark
  included := by simp only [Cursor.advanceBy, h.min_remaining hn, h.included]

theorem skipBy (h : Alike limit c c') (hn : (c.skipBy n).offset ≤ limit) :
    Alike limit (c.skipBy n) (c'.skipBy n) where
  reached := hn
  ahead := by
    rw [ahead_skipBy, ahead_skipBy]
    exact h.drop hn
  offset := by
    have ho := h.offset
    simp only [offset_skipBy, origin_skipBy, h.min_remaining hn]
    omega
  start := by
    have ho := h.offset
    have hs := h.start
    simp only [Cursor.skipBy, h.min_remaining hn, h.included]
    split <;> omega
  mark := h.mark
  included := h.included

theorem markEnd (h : Alike limit c c') : Alike limit c.markEnd c'.markEnd where
  reached := h.reached
  ahead := h.ahead
  offset := h.offset
  start := h.start
  mark := congrArg some h.offset
  included := h.included

theorem run (h : Alike limit c c') {p : CodeUnit → Bool}
    (hn : c.offset + min (c.ahead.takeWhile p).length c.remaining ≤ limit) :
    c'.ahead.takeWhile p = c.ahead.takeWhile p := by
  have hle : (c.ahead.takeWhile p).length ≤ c.remaining := by
    rw [← length_ahead]
    exact (List.takeWhile_prefix p).length_le
  exact h.ahead.takeWhile (by omega)

theorem advanceWhile (h : Alike limit c c') {p : CodeUnit → Bool}
    (hn : (c.advanceWhile p).offset ≤ limit) :
    Alike limit (c.advanceWhile p) (c'.advanceWhile p) := by
  rw [Cursor.advanceWhile, Cursor.advanceWhile, h.run hn]
  exact h.advanceBy hn

theorem skipWhile (h : Alike limit c c') {p : CodeUnit → Bool}
    (hn : (c.skipWhile p).offset ≤ limit) : Alike limit (c.skipWhile p) (c'.skipWhile p) := by
  rw [Cursor.skipWhile, Cursor.skipWhile, h.run hn]
  exact h.skipBy hn

theorem textSegment (h : Alike limit c c') (hn : c.textSegment.offset ≤ limit) :
    Alike limit c.textSegment c'.textSegment :=
  (h.advanceWhile hn).markEnd

theorem interpolation (h : Alike limit c c') {accepted : List Kind}
    (hn : (c.interpolation accepted).2.offset ≤ limit) :
    (c'.interpolation accepted).1 = (c.interpolation accepted).1 ∧
      Alike limit (c.interpolation accepted).2 (c'.interpolation accepted).2 := by
  have hle : c.advance.offset ≤ (c.interpolation accepted).2.offset := by
    rw [Cursor.interpolation]
    split
    · exact Nat.le_add_right ..
    · split
      · exact Nat.le_add_right ..
      · exact Nat.le_refl _
  have hopen : Alike limit c.advance c'.advance := h.advanceBy (Nat.le_trans hle hn)
  simp only [Cursor.interpolation, hopen.lookahead] at hn ⊢
  split
  · rename_i hbang
    rw [if_pos hbang] at hn
    exact ⟨rfl, (hopen.advanceBy hn).markEnd⟩
  · rename_i hbang
    rw [if_neg hbang] at hn
    split
    · rename_i ht
      rw [if_pos ht] at hn
      exact ⟨rfl, hopen.textSegment hn⟩
    · exact ⟨rfl, hopen⟩

theorem margin (h : Alike limit c c')
    (hn : c.offset + min (Margin.ofText c.ahead).passed c.remaining ≤ limit) :
    Margin.ofText c'.ahead = Margin.ofText c.ahead := by
  have hle := (Margin.passed_bounds false 0 0 c.ahead).2
  rw [length_ahead, Nat.zero_add] at hle
  rw [Margin.ofText, Nat.min_eq_left hle] at hn
  exact Margin.measureFrom_congr h.ahead (by omega)

theorem measureBreak (h : Alike limit c c') (hn : c.measureBreak.2.offset ≤ limit) :
    c'.measureBreak.1 = c.measureBreak.1 ∧ Alike limit c.measureBreak.2 c'.measureBreak.2 := by
  -- The carriage returns in front are within the limit, whatever is passed behind them.
  have hle : (c.skipWhile (· == .carriageReturn)).offset ≤ c.measureBreak.2.offset := by
    simp only [Cursor.measureBreak]
    split
    · exact Nat.le_refl _
    · split
      · exact Nat.le_trans (Nat.le_add_right ..) (Nat.le_add_right ..)
      · exact Nat.le_refl _
  have hreturns := h.skipWhile (Nat.le_trans hle hn)
  simp only [Cursor.measureBreak, hreturns.lookahead] at hn ⊢
  cases hl : (c.skipWhile (· == .carriageReturn)).lookahead with
  | none => exact ⟨rfl, hreturns.markEnd⟩
  | some u =>
    rw [hl] at hn
    by_cases hu : u = .lineFeed
    · simp only [hu, if_true] at hn ⊢
      have hfeed := (hreturns.advanceBy (Nat.le_trans (Nat.le_add_right ..) hn)).markEnd
      have hmargin := hfeed.margin hn
      rw [Cursor.advance, Cursor.advance, hmargin]
      exact ⟨rfl, hfeed.skipBy hn⟩
    · simp only [hu, if_false, true_and]
      exact hreturns

theorem begin (h : Text.Agree n c.ahead c'.ahead) : Alike (c.offset + n) c.begin c'.begin where
  reached := Nat.le_add_right ..
  ahead := by
    rw [offset_begin, Nat.add_sub_cancel_left]
    exact h
  offset := Nat.add_comm ..
  start := Nat.add_comm ..
  mark := rfl
  included := rfl

theorem span (h : Alike limit c c') :
    c'.span.start + c.origin = c.span.start + c'.origin ∧
      c'.span.stop + c.origin = c.span.stop + c'.origin := by
  have hstop : c'.mark.getD c'.offset + c.origin = c.mark.getD c.offset + c'.origin := by
    have hmark := h.mark
    cases hc : c.mark with
    | none =>
      rw [hc, Option.map_none, Option.map_eq_none_iff] at hmark
      rw [hmark]
      exact h.offset
    | some m =>
      rw [hc] at hmark
      obtain ⟨m', hm', heq⟩ := Option.map_eq_some_iff.1 hmark
      rw [hm']
      exact heq
  have hstart := h.start
  simp only [Cursor.span]
  omega

end Alike

end Cursor

structure Scanner.Alike (s s' : Scanner) : Prop where
  blocks : s'.blocks = s.blocks
  deferred : s'.deferred = s.deferred

structure Outcome.Alike (limit : Nat) (o o' : Outcome) : Prop where
  kind : o'.kind = o.kind
  scanner : Scanner.Alike o.scanner o'.scanner
  cursor : Cursor.Alike limit o.cursor o'.cursor

namespace Scanner

theorem cursor_lineBreak (s : Scanner) (accepted : List Kind) (c : Cursor) :
    (s.lineBreak accepted c).cursor = c.measureBreak.2 := by
  rw [lineBreak]
  split
  · rename_i h
    rw [h]
  · rename_i h
    rw [h, cursor_decideBreak]

namespace Alike

variable {limit : Nat} {s s' : Scanner} {accepted : List Kind} {c c' : Cursor}

theorem settle (h : Alike s s') (accepted : List Kind) :
    (s'.settle accepted).1 = (s.settle accepted).1 ∧
      Alike (s.settle accepted).2 (s'.settle accepted).2 := by
  rw [Scanner.settle, Scanner.settle, h.blocks, h.deferred]
  split
  · exact ⟨rfl, h⟩
  · split
    · split <;> exact ⟨rfl, rfl, rfl⟩
    · exact ⟨rfl, h⟩

theorem decideBreak (h : Alike s s') (hc : Cursor.Alike limit c c') (width : Nat) :
    Outcome.Alike limit (s.decideBreak accepted width c) (s'.decideBreak accepted width c') := by
  simp only [Scanner.decideBreak, h.blocks, h.deferred, hc.atEnd]
  split
  · split <;> exact ⟨rfl, ⟨rfl, rfl⟩, hc⟩
  · split
    · exact ⟨rfl, ⟨rfl, rfl⟩, hc⟩
    · split
      · exact ⟨rfl, ⟨rfl, rfl⟩, hc⟩
      · exact ⟨rfl, h, hc⟩

theorem lineBreak (h : Alike s s') (hc : Cursor.Alike limit c c')
    (hn : (s.lineBreak accepted c).cursor.offset ≤ limit) :
    Outcome.Alike limit (s.lineBreak accepted c) (s'.lineBreak accepted c') := by
  rw [cursor_lineBreak] at hn
  obtain ⟨hwidth, hmeasured⟩ := hc.measureBreak hn
  rw [Scanner.lineBreak, Scanner.lineBreak]
  generalize c.measureBreak = m, c'.measureBreak = m' at hwidth hmeasured ⊢
  obtain ⟨width, d⟩ := m
  obtain ⟨_, d'⟩ := m'
  cases hwidth
  cases width with
  | none => exact ⟨rfl, h, hmeasured⟩
  | some width => exact h.decideBreak hmeasured width

theorem pick (h : Alike s s') (hc : Cursor.Alike limit c c')
    (hn : (s.pick accepted c).cursor.offset ≤ limit) :
    Outcome.Alike limit (s.pick accepted c) (s'.pick accepted c') := by
  obtain ⟨hkind, hsettled⟩ := h.settle accepted
  simp only [Scanner.pick, hc.lookahead, hc.atTextEnd, hc.atBreak] at hn ⊢
  split
  · rename_i hi
    rw [if_pos hi] at hn
    obtain ⟨hkind, hcursor⟩ := hc.interpolation hn
    exact ⟨hkind, h, hcursor⟩
  · rename_i hi
    rw [if_neg hi] at hn
    split
    · rename_i ht
      rw [if_pos ht] at hn
      exact ⟨rfl, h, hc.textSegment hn⟩
    · rename_i ht
      rw [if_neg ht] at hn
      generalize s.settle accepted = r, s'.settle accepted = r' at hkind hsettled hn ⊢
      obtain ⟨kind, r⟩ := r
      obtain ⟨_, r'⟩ := r'
      cases hkind
      cases kind with
      | some kind => exact ⟨rfl, hsettled, hc⟩
      | none =>
        dsimp only at hn ⊢
        split
        · rename_i hb
          rw [if_pos hb] at hn
          exact hsettled.lineBreak hc hn
        · exact ⟨rfl, hsettled, hc⟩

end Alike

/-- One scan passes `n` units. Another, with the same blocks and the same deferred width, begins
where the same `n` units are ahead, and after them the same unit or the end. Then it passes `n`
units too, gives the same kind or declines as well, leaves the same blocks and the same deferred
width, and the span of its token is equally far from where it began. -/
theorem scan_reads_only_passed {s₁ s₂ : Scanner} (hblocks : s₂.blocks = s₁.blocks)
    (hdeferred : s₂.deferred = s₁.deferred) (accepted : List Kind) {c₁ c₂ : Cursor} {n : Nat}
    (hpassed : (s₁.scan accepted c₁.begin).cursor.offset = c₁.offset + n)
    (hread : c₁.ahead.take n = c₂.ahead.take n) (hnext : c₁.ahead[n]? = c₂.ahead[n]?) :
    let o₁ := s₁.scan accepted c₁.begin
    let o₂ := s₂.scan accepted c₂.begin
    o₂.cursor.offset = c₂.offset + n ∧ o₂.kind = o₁.kind ∧
      o₂.scanner.blocks = o₁.scanner.blocks ∧ o₂.scanner.deferred = o₁.scanner.deferred ∧
      o₂.cursor.span.start + c₁.offset = o₁.cursor.span.start + c₂.offset ∧
      o₂.cursor.span.stop + c₁.offset = o₁.cursor.span.stop + c₂.offset := by
  intro o₁ o₂
  have hagree : Text.Agree n c₁.ahead c₂.ahead := by
    rw [Text.Agree, List.take_add_one, List.take_add_one, hread, hnext]
  have halike : Outcome.Alike (c₁.offset + n) o₁ o₂ := by
    obtain ⟨hkind, hscanner, hcursor⟩ :=
      Alike.pick ⟨hblocks, hdeferred⟩ (.begin hagree) (Nat.le_of_eq hpassed)
    exact ⟨hkind, hscanner, hcursor⟩
  have horigin₁ : o₁.cursor.origin = c₁.offset := (continues_pick s₁ accepted c₁.begin).origin
  have horigin₂ : o₂.cursor.origin = c₂.offset := (continues_pick s₂ accepted c₂.begin).origin
  have hoffset := halike.cursor.offset
  have hspan := halike.cursor.span
  rw [horigin₁, horigin₂] at hoffset hspan
  refine ⟨?_, halike.kind, halike.scanner.blocks, halike.scanner.deferred, hspan⟩
  rw [show o₁.cursor.offset = c₁.offset + n from hpassed] at hoffset
  omega

theorem scan_reads_only_passed_comment :
    let s₁ : Scanner := ⟨⟨2, []⟩, none, .bytes 1024⟩
    let s₂ : Scanner := ⟨⟨2, []⟩, none, .unspecified⟩
    let read : Text := [.lineFeed, .hash, .quote, .lineFeed, .space, .space]
    let c₁ := Cursor.ofText (read ++ [.bar, .openBrace])
    let c₂ := { Cursor.ofText (.slash :: .slash :: read ++ [.bar]) with offset := 2 }
    let o₁ := s₁.scan [.indent] c₁.begin
    let o₂ := s₂.scan [.indent] c₂.begin
    o₁.cursor.offset = 6 ∧ o₁.kind = some .indent ∧ o₁.scanner.blocks.entries = [0, 2] ∧
      o₁.cursor.span = ⟨0, 1⟩ ∧ o₂.cursor.offset = 8 ∧ o₂.kind = some .indent ∧
      o₂.scanner.blocks.entries = [0, 2] ∧ o₂.cursor.span.start = 2 ∧
      o₂.cursor.span.stop = 3 := by
  intro s₁ s₂ read c₁ c₂ o₁ o₂
  have hfirst : o₁.cursor.offset = 6 ∧ o₁.kind = some .indent ∧
      o₁.scanner.blocks.entries = [0, 2] ∧ o₁.cursor.span = ⟨0, 1⟩ := by decide
  obtain ⟨hpassed, hindent, hentries, hspan⟩ := hfirst
  obtain ⟨hoffset, hkind, hblocks, -, hstart, hstop⟩ :=
    @scan_reads_only_passed s₁ s₂ rfl rfl [.indent] c₁ c₂ 6 hpassed (by decide) (by decide)
  rw [show (s₁.scan [.indent] c₁.begin).cursor.span = ⟨0, 1⟩ from hspan] at hstart hstop
  exact ⟨hpassed, hindent, hentries, hspan, hoffset, hkind.trans hindent,
    (congrArg Blocks.entries hblocks).trans hentries, (Nat.add_zero _).symm.trans hstart,
    (Nat.add_zero _).symm.trans hstop⟩

end Scanner

end Offside
