import Offside.Scanner.Scan

/-!
Why scanning comes to an end. A token either takes a unit of the source or closes a block, and a
scan that declines leaves the blocks alone.
-/

namespace Offside

/-- A step from a cursor and blocks that takes at least one unit and opens at most one block, or
takes none and closes one. -/
def Progress (c c' : Cursor) (b b' : Blocks) : Prop :=
  (c.offset < c'.span.stop ∧ c'.span.stop ≤ c.offset + c.remaining ∧
      b'.opened.length ≤ b.opened.length + 1) ∨
    (c.offset ≤ c'.span.stop ∧ b'.opened.length < b.opened.length)

theorem Progress.less {c c' : Cursor} {b b' : Blocks} (h : Progress c c' b b')
    (hsource : c'.source = c.source) :
    2 * c'.accept.remaining + b'.opened.length < 2 * c.remaining + b.opened.length := by
  simp only [Progress, Cursor.span, Cursor.remaining] at h
  simp only [Cursor.remaining, Cursor.source_accept, Cursor.offset_accept, hsource]
  omega

namespace Cursor

theorem Continues.textSegment {c c' : Cursor} (h : c.Continues c') : c.Continues c'.textSegment :=
  (h.advanceBy _).markEnd

theorem continues_interpolation (accepted : List Kind) (c : Cursor) :
    c.Continues (c.interpolation accepted).2 := by
  have hbrace := (Continues.refl c).advanceBy 1
  simp only [interpolation]
  split
  · exact (hbrace.advanceBy 1).markEnd
  · split
    · exact hbrace.textSegment
    · exact hbrace

theorem stop_textSegment (c : Cursor) :
    c.offset ≤ c.textSegment.span.stop ∧ c.textSegment.span.stop ≤ c.offset + c.remaining := by
  simp only [textSegment, span, advanceWhile, mark_markEnd, Option.getD_some, offset_advanceBy]
  omega

theorem lt_stop_textSegment {c : Cursor} (h : c.atTextEnd = false) :
    c.offset < c.textSegment.span.stop := by
  simp only [atTextEnd] at h
  split at h
  · simp at h
  · rename_i u hu
    simpa [textSegment, span] using
      offset_lt_offset_advanceWhile (p := fun u => u != .lineFeed && u != .openBrace) hu
        (by simpa using h)

theorem stop_interpolation {c c' : Cursor} {accepted : List Kind} {kind : Kind}
    (hl : c.lookahead = some .openBrace) (h : c.interpolation accepted = (some kind, c')) :
    c.offset < c'.span.stop ∧ c'.span.stop ≤ c.offset + c.remaining := by
  have hr := remaining_pos_of_lookahead hl
  simp only [interpolation] at h
  split at h
  · simp only [Prod.mk.injEq] at h
    simp only [← h.2, span, mark_markEnd, Option.getD_some, advance, offset_advanceBy, remaining,
      source_advanceBy] at hr ⊢
    omega
  · split at h
    · simp only [Prod.mk.injEq] at h
      have := stop_textSegment c.advance
      simp only [← h.2, advance, offset_advanceBy, remaining, source_advanceBy] at hr this ⊢
      omega
    · simp at h

end Cursor

namespace Scanner

theorem blocks_settle_of_none {s s' : Scanner} {accepted : List Kind}
    (h : s.settle accepted = (none, s')) : s'.blocks = s.blocks := by
  simp only [settle] at h
  split at h
  · simp_all
  · split at h
    · split at h <;> simp at h
      simp [← h]
    · simp_all

theorem length_opened_settle {s s' : Scanner} {accepted : List Kind} {kind : Kind}
    (h : s.settle accepted = (some kind, s')) :
    s'.blocks.opened.length < s.blocks.opened.length := by
  simp only [settle] at h
  split at h
  · simp at h
  · split at h
    · split at h <;> simp at h
      rename_i hlt
      have := List.length_pos_iff.2 (show s.blocks.opened ≠ [] by
        intro h0; simp [Blocks.depth, h0] at hlt)
      simp [← h.2]
      omega
    · simp at h

theorem cursor_decideBreak (s : Scanner) (accepted : List Kind) (width : Nat) (c : Cursor) :
    (s.decideBreak accepted width c).cursor = c := by
  simp only [decideBreak]
  split
  · split <;> rfl
  · split
    · rfl
    · split <;> rfl

theorem blocks_decideBreak_of_none {s : Scanner} {accepted : List Kind} {width : Nat} {c : Cursor}
    (h : (s.decideBreak accepted width c).kind = none) :
    (s.decideBreak accepted width c).scanner.blocks = s.blocks := by
  simp only [decideBreak] at h ⊢
  split at h
  · split at h <;> simp at h
  · rename_i hi
    simp only [hi, if_false]
    split at h
    · simp at h
    · rename_i hd
      simp only [hd, if_false]
      split <;> rfl

theorem progress_decideBreak {s : Scanner} {accepted : List Kind} {width : Nat} {c c' : Cursor}
    (hm : c.measureBreak = (some width, c')) {kind : Kind}
    (h : (s.decideBreak accepted width c').kind = some kind) :
    Progress c c' s.blocks (s.decideBreak accepted width c').scanner.blocks := by
  obtain ⟨m, hmark, hle, hbound, hend⟩ := Cursor.mark_measureBreak hm
  have hstop : c'.span.stop = m := by simp [Cursor.span, hmark]
  simp only [Progress, hstop]
  simp only [decideBreak] at h ⊢
  split
  · rename_i hi
    left
    refine ⟨?_, hbound, ?_⟩
    · by_cases heq : m = c.offset
      · have := (hend heq).1
        omega
      · omega
    · split
      · rename_i b hb
        simp [Blocks.opened_of_push? hb]
      · simp
  · rename_i hi
    split
    · rename_i hd
      right
      have := List.length_pos_iff.2 (Blocks.opened_ne_nil_of_lt_current hd.2)
      simp
      omega
    · rename_i hd
      left
      simp only [hi, hd, if_false] at h
      refine ⟨?_, hbound, ?_⟩
      · by_cases heq : m = c.offset
        · have := (hend heq).2
          split at h <;> simp_all
        · omega
      · split <;> simp

theorem continues_lineBreak (s : Scanner) (accepted : List Kind) (c : Cursor) :
    c.Continues (s.lineBreak accepted c).cursor := by
  have h := c.continues_measureBreak
  simp only [lineBreak]
  split
  · rename_i hm
    rwa [hm] at h
  · rename_i hm
    rw [cursor_decideBreak]
    rwa [hm] at h

theorem continues_pick (s : Scanner) (accepted : List Kind) (c : Cursor) :
    c.Continues (s.pick accepted c).cursor := by
  simp only [pick]
  split
  · exact c.continues_interpolation accepted
  · split
    · exact (Cursor.Continues.refl c).textSegment
    · split
      · exact .refl c
      · split
        · exact continues_lineBreak _ _ _
        · exact .refl c

theorem blocks_pick_of_none {s : Scanner} {accepted : List Kind} {c : Cursor}
    (h : (s.pick accepted c).kind = none) : (s.pick accepted c).scanner.blocks = s.blocks := by
  simp only [pick] at h ⊢
  split
  · rfl
  · rename_i hi
    simp only [hi, if_false] at h
    split
    · rfl
    · rename_i ht
      simp only [ht, if_false] at h
      split
      · rename_i hs
        simp [hs] at h
      · rename_i s' hs
        simp only [hs] at h
        rw [← blocks_settle_of_none hs]
        split
        · rename_i hb
          simp only [hb, if_true, lineBreak] at h ⊢
          split
          · rfl
          · rename_i w c' hm
            simp only [hm] at h
            exact blocks_decideBreak_of_none h
        · rfl

theorem progress_pick {s : Scanner} {accepted : List Kind} {c : Cursor} {kind : Kind}
    (hc : c.mark = none) (h : (s.pick accepted c).kind = some kind) :
    Progress c (s.pick accepted c).cursor s.blocks (s.pick accepted c).scanner.blocks := by
  simp only [pick] at h ⊢
  split
  · rename_i hi
    simp only [hi, and_self, if_true] at h
    have := Cursor.stop_interpolation hi.2
      (show c.interpolation accepted = (some kind, (c.interpolation accepted).2) by
        rw [← h])
    exact .inl ⟨this.1, this.2, by simp⟩
  · rename_i hi
    simp only [hi, if_false] at h
    split
    · rename_i ht
      have hend : c.atTextEnd = false := by simpa using ht.2
      exact .inl ⟨Cursor.lt_stop_textSegment hend, (Cursor.stop_textSegment c).2, by simp⟩
    · rename_i ht
      simp only [ht, if_false] at h
      split
      · rename_i hs
        exact .inr ⟨by simp [Cursor.span, hc], length_opened_settle hs⟩
      · rename_i s' hs
        simp only [hs] at h
        rw [← blocks_settle_of_none hs]
        split
        · rename_i hb
          simp only [hb, if_true, lineBreak] at h ⊢
          split
          · rename_i hm
            simp [hm] at h
          · rename_i w c' hm
            simp only [hm] at h
            rw [cursor_decideBreak]
            exact progress_decideBreak hm h
        · rename_i hb
          simp [hb] at h

end Scanner

end Offside
