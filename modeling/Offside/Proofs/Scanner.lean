import Offside.Proofs.Blocks
import Offside.Snapshot
import Offside.Scanner.Scan

/-! The invariant of a scanner. Whatever is scanned, however the scanner is reset and whatever bytes
it is restored from, its blocks nest and every width it holds fits sixteen bits. -/

namespace Offside

namespace Margin

theorem widen_le (width columns : Nat) : widen width columns ≤ maxWidth := Nat.min_le_left ..

theorem width_measureFrom_le {comment : Bool} {width passed : Nat} {t : Text}
    (h : width ≤ maxWidth) : (measureFrom comment width passed t).width ≤ maxWidth := by
  fun_induction measureFrom comment width passed t with
  | case1 => exact Nat.zero_le _
  | case2 _ _ _ _ ih => exact ih (Nat.zero_le _)
  | case3 _ _ _ _ _ ih => exact ih h
  | case4 _ _ _ _ _ _ ih => exact ih h
  | case5 _ _ _ _ _ _ _ ih => exact ih (widen_le ..)
  | case6 _ _ _ _ _ _ _ _ ih => exact ih (widen_le ..)
  | case7 _ _ _ _ _ _ _ _ _ ih => exact ih h
  | case8 => exact h

end Margin

theorem Cursor.width_measureBreak_le {c c' : Cursor} {width : Nat}
    (h : c.measureBreak = (some width, c')) : width ≤ Margin.maxWidth := by
  simp only [measureBreak] at h
  split at h
  · cases h
    exact Nat.zero_le _
  · split at h
    · cases h
      exact Margin.width_measureFrom_le (Nat.zero_le _)
    · cases h

namespace Snapshot

def maxWidth : Nat := 0xFFFF

theorem decode16_le (low high : UInt8) : decode16 low high ≤ maxWidth := by
  have hlow := low.toNat_lt
  have hhigh := high.toNat_lt
  rw [decode16, maxWidth]
  omega

theorem le_of_mem_pairs {bytes : Bytes} : ∀ w ∈ pairs bytes, w ≤ maxWidth := by
  fun_induction pairs bytes with
  | case1 low high rest ih =>
    intro w hw
    rcases List.mem_cons.1 hw with rfl | hw
    · exact decode16_le low high
    · exact ih w hw
  | case2 =>
    intro w hw
    cases hw

theorem signed16_le {n : Nat} (h : n ≤ maxWidth) : signed16 n ≤ Margin.maxWidth := by
  rw [maxWidth] at h
  rw [signed16, Margin.maxWidth]
  split <;> omega

end Snapshot

namespace Scanner

/-- The blocks nest and hold no width above `limit`, and a deferred width is one that can be
measured. -/
structure Sound (settings : Settings) (limit : Nat) (s : Scanner) : Prop where
  blocks : s.blocks.Sound
  capacity : s.blocks.capacity = settings.capacity
  widths : ∀ w ∈ s.blocks.opened, w ≤ limit
  deferred : ∀ target ∈ s.deferred, 0 ≤ target ∧ target ≤ Margin.maxWidth
  budget : s.budget = settings.budget

theorem sound_create {settings : Settings} (limit : Nat) (h : 1 ≤ settings.capacity) :
    (create settings).Sound settings limit where
  blocks := Blocks.sound_base h
  capacity := rfl
  widths := by rintro w ⟨⟩
  deferred := by rintro target ⟨⟩
  budget := rfl

namespace Sound

variable {settings : Settings} {limit : Nat} {s : Scanner}

theorem length_entries_le (h : s.Sound settings limit) :
    s.blocks.entries.length ≤ settings.capacity := by
  rw [Blocks.length_entries, ← h.capacity]
  exact h.blocks.fits

theorem le_of_mem_entries (h : s.Sound settings limit) : ∀ w ∈ s.blocks.entries, w ≤ limit := by
  intro w hw
  rcases List.mem_cons.1 hw with rfl | hw
  · exact Nat.zero_le _
  · exact h.widths w (List.mem_reverse.1 hw)

theorem pairwise_entries (h : s.Sound settings limit) : s.blocks.entries.Pairwise (· < ·) :=
  h.blocks.usable_entries.2

theorem defer (h : s.Sound settings limit) {deferred : Option Int}
    (hd : ∀ target ∈ deferred, 0 ≤ target ∧ target ≤ Margin.maxWidth) :
    Sound settings limit { s with deferred } where
  blocks := h.blocks
  capacity := h.capacity
  widths := h.widths
  deferred := hd
  budget := h.budget

theorem undefer (h : s.Sound settings limit) : Sound settings limit { s with deferred := none } :=
  h.defer (by rintro target ⟨⟩)

theorem push (h : s.Sound settings limit) {b : Blocks} {width : Nat} (hw : width ≤ limit)
    (hb : s.blocks.push? width = some b) : Sound settings limit { s with blocks := b } := by
  have hsound := h.blocks.push hb
  obtain ⟨-, -, rfl⟩ := Blocks.push?_eq_some_iff.1 hb
  refine ⟨hsound, h.capacity, ?_, h.deferred, h.budget⟩
  intro w hmem
  rcases List.mem_cons.1 hmem with rfl | hmem
  · exact hw
  · exact h.widths w hmem

theorem pop (h : s.Sound settings limit) :
    Sound settings limit { s with blocks := s.blocks.pop } where
  blocks := h.blocks.pop
  capacity := h.capacity
  widths := fun w hw => h.widths w (List.mem_of_mem_tail hw)
  deferred := h.deferred
  budget := h.budget

theorem reset (h : s.Sound settings limit) : s.reset.Sound settings limit where
  blocks := h.blocks.reset
  capacity := h.capacity
  widths := by rintro w ⟨⟩
  deferred := by rintro target ⟨⟩
  budget := h.budget

theorem settle (h : s.Sound settings limit) (accepted : List Kind) :
    (s.settle accepted).2.Sound settings limit := by
  rw [Scanner.settle]
  split
  · exact h
  · rename_i target htarget
    split
    · split
      · apply h.pop.defer
        intro t ht
        split at ht
        · cases ht
        · cases ht
          exact h.deferred target htarget
      · exact h.undefer
    · exact h

theorem decideBreak (h : s.Sound settings limit) (hl : Margin.maxWidth ≤ limit)
    {width : Nat} (hw : width ≤ Margin.maxWidth) (accepted : List Kind) (c : Cursor) :
    (s.decideBreak accepted width c).scanner.Sound settings limit := by
  have hwidth : ∀ target ∈ some (width : Int), 0 ≤ target ∧ target ≤ Margin.maxWidth := by
    rintro target ⟨⟩
    exact ⟨Int.natCast_nonneg width, Int.ofNat_le.2 hw⟩
  simp only [Scanner.decideBreak]
  split
  · split
    · rename_i b hb
      exact (h.push (Nat.le_trans hw hl) hb).undefer
    · exact h.undefer
  · split
    · apply h.pop.defer
      split
      · exact hwidth
      · exact h.deferred
    · split
      · exact h.defer hwidth
      · exact h

theorem lineBreak (h : s.Sound settings limit) (hl : Margin.maxWidth ≤ limit)
    (accepted : List Kind) (c : Cursor) :
    (s.lineBreak accepted c).scanner.Sound settings limit := by
  rw [Scanner.lineBreak]
  split
  · exact h
  · rename_i width c' hbreak
    exact h.decideBreak hl (Cursor.width_measureBreak_le hbreak) accepted c'

theorem pick (h : s.Sound settings limit) (hl : Margin.maxWidth ≤ limit)
    (accepted : List Kind) (c : Cursor) : (s.pick accepted c).scanner.Sound settings limit := by
  have hsettle := h.settle accepted
  simp only [Scanner.pick]
  split
  · exact h
  · split
    · exact h
    · split
      · rename_i kind s' hs
        rw [hs] at hsettle
        exact hsettle
      · rename_i s' hs
        rw [hs] at hsettle
        split
        · exact Sound.lineBreak hsettle hl accepted c
        · exact hsettle

theorem scan (h : s.Sound settings limit) (hl : Margin.maxWidth ≤ limit)
    (accepted : List Kind) (c : Cursor) : (s.scan accepted c).scanner.Sound settings limit :=
  h.pick hl accepted c

theorem deferredOf (bytes : Bytes) :
    ∀ target ∈ Scanner.deferredOf bytes, 0 ≤ target ∧ target ≤ Margin.maxWidth := by
  intro target htarget
  rw [Option.mem_def, Scanner.deferredOf.eq_def] at htarget
  split at htarget
  · rename_i version depth low high rest
    dsimp only at htarget
    split at htarget
    · cases htarget
    · rename_i hneg
      cases htarget
      exact ⟨Int.not_lt.1 hneg, Snapshot.signed16_le (Snapshot.decode16_le low high)⟩
  · cases htarget

theorem restore (h : s.Sound settings limit) (hl : Snapshot.maxWidth ≤ limit) (bytes : Bytes) :
    (s.restore bytes).1.Sound settings limit := by
  rw [Scanner.restore.eq_def]
  dsimp only
  split
  · exact h.reset
  · rename_i first rest
    split
    · refine ⟨h.reset.blocks.restore, ?_, ?_, deferredOf (first :: rest), h.budget⟩
      · exact (Blocks.capacity_restore _).trans h.capacity
      · intro w hw
        have hmem := List.mem_of_mem_take (Blocks.mem_widths_of_mem_restore w hw)
        exact Nat.le_trans (Snapshot.le_of_mem_pairs w hmem) hl
    · exact h.reset

end Sound

end Scanner

end Offside
