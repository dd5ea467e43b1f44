import Offside.Scanner.Basic

/-! What the operations on blocks keep true: the widths nest, and no more of them are open than can
be tracked. -/

namespace Offside

namespace Blocks

variable {b b' : Blocks} {width : Nat}

def stack (b : Blocks) : List Nat := b.opened ++ [0]

theorem headD_stack (b : Blocks) : b.stack.headD 0 = b.current := by
  rw [stack, current]
  cases b.opened <;> rfl

theorem length_stack (b : Blocks) : b.stack.length = b.depth := by
  rw [stack, List.length_append]
  rfl

theorem entries_eq_reverse_stack (b : Blocks) : b.entries = b.stack.reverse := by
  rw [entries, stack, List.reverse_append]
  rfl

theorem exists_stack (b : Blocks) : ∃ rest, b.stack = b.current :: rest := by
  rw [stack, current]
  cases b.opened with
  | nil => exact ⟨[], rfl⟩
  | cons top rest => exact ⟨rest ++ [0], rfl⟩

theorem stack_of_ne_nil (h : b.opened ≠ []) : b.stack = b.current :: b.pop.stack := by
  rw [stack, stack, current, pop]
  cases hb : b.opened with
  | nil => exact absurd hb h
  | cons top rest => rfl

theorem entries_of_ne_nil (h : b.opened ≠ []) : b.entries = b.pop.entries ++ [b.current] := by
  rw [entries_eq_reverse_stack, stack_of_ne_nil h, List.reverse_cons, ← entries_eq_reverse_stack]

theorem current_mem_entries (b : Blocks) : b.current ∈ b.entries := by
  obtain ⟨rest, hrest⟩ := b.exists_stack
  rw [entries_eq_reverse_stack, List.mem_reverse, hrest]
  exact List.mem_cons_self

theorem le_current_of_mem_entries (h : b.entries.Pairwise (· < ·)) :
    ∀ w ∈ b.entries, w ≤ b.current := by
  obtain ⟨rest, hrest⟩ := b.exists_stack
  rw [entries_eq_reverse_stack, List.pairwise_reverse, hrest] at h
  intro w hw
  rw [entries_eq_reverse_stack, List.mem_reverse, hrest] at hw
  rcases List.mem_cons.1 hw with rfl | hw
  · exact Nat.le_refl _
  · exact Nat.le_of_lt (List.rel_of_pairwise_cons h hw)

theorem forall_le_iff_current_le (h : b.entries.Pairwise (· < ·)) :
    (∀ w ∈ b.entries, w ≤ width) ↔ b.current ≤ width := by
  constructor
  · intro hall
    exact hall _ b.current_mem_entries
  · intro hle w hw
    exact Nat.le_trans (le_current_of_mem_entries h w hw) hle

theorem one_lt_depth (h : b.opened ≠ []) : 1 < b.depth :=
  Nat.succ_lt_succ (List.length_pos_iff.2 h)

theorem push?_of_lt (h : b.current < width) :
    b.push? width =
      if b.depth < b.capacity then some { b with opened := width :: b.opened } else none := by
  rw [push?, isFull, decide_eq_false (Nat.not_le.2 h), Bool.or_false]
  rcases Nat.lt_or_ge b.depth b.capacity with hd | hd
  · rw [if_pos hd, decide_eq_false (Nat.not_le.2 hd)]
    rfl
  · rw [if_neg (Nat.not_lt.2 hd), decide_eq_true hd]
    rfl

theorem push?_eq_some_iff :
    b.push? width = some b' ↔
      b.current < width ∧ b.depth < b.capacity ∧ b' = { b with opened := width :: b.opened } := by
  rcases Nat.lt_or_ge b.current width with h | h
  · rw [push?_of_lt h]
    split
    · rename_i hd
      simp [h, hd, eq_comm]
    · rename_i hd
      simp [hd]
  · simp [push?, h, Nat.not_lt.2 h]

/-- Widths that blocks can have: they start at zero and increase. -/
def Usable (widths : List Nat) : Prop := widths.head? = some 0 ∧ widths.Pairwise (· < ·)

instance : DecidablePred Usable := fun _ => inferInstanceAs (Decidable (_ ∧ _))

structure Sound (b : Blocks) : Prop where
  nested : b.stack.Pairwise (· > ·)
  fits : b.depth ≤ b.capacity

theorem sound_base {capacity : Nat} (h : 1 ≤ capacity) : (base capacity).Sound where
  nested := List.pairwise_singleton _ 0
  fits := h

namespace Sound

theorem usable_entries (h : b.Sound) : Usable b.entries := by
  refine ⟨rfl, ?_⟩
  rw [entries_eq_reverse_stack, List.pairwise_reverse]
  exact h.nested

theorem le_current (h : b.Sound) : ∀ w ∈ b.stack, w ≤ b.current := by
  intro w hw
  apply le_current_of_mem_entries h.usable_entries.2
  rwa [entries_eq_reverse_stack, List.mem_reverse]

theorem push (h : b.Sound) (hb : b.push? width = some b') : b'.Sound := by
  obtain ⟨hw, hd, rfl⟩ := push?_eq_some_iff.1 hb
  refine ⟨List.pairwise_cons.2 ⟨?_, h.nested⟩, hd⟩
  intro w hmem
  exact Nat.lt_of_le_of_lt (h.le_current w hmem) hw

theorem pop (h : b.Sound) : b.pop.Sound := by
  by_cases hne : b.opened = []
  · have hpop : b.pop = b := by
      rw [Blocks.pop, hne, List.tail_nil, ← hne]
    rw [hpop]
    exact h
  · have hnested := h.nested
    rw [stack_of_ne_nil hne] at hnested
    refine ⟨hnested.of_cons, Nat.le_trans ?_ h.fits⟩
    rw [depth, length_opened_pop]
    exact Nat.succ_le_succ (Nat.sub_le _ 1)

theorem current_pop_le (h : b.Sound) : b.pop.current ≤ b.current := by
  by_cases hne : b.opened = []
  · rw [current, current, Blocks.pop, hne]
    exact Nat.le_refl _
  · apply h.le_current
    obtain ⟨rest, hrest⟩ := b.pop.exists_stack
    rw [stack_of_ne_nil hne, hrest]
    exact List.mem_cons_of_mem _ List.mem_cons_self

theorem reset (h : b.Sound) : b.reset.Sound where
  nested := List.pairwise_singleton _ 0
  fits := Nat.le_trans (Nat.succ_le_succ (Nat.zero_le _)) h.fits

theorem opened_eq_nil (h : b.Sound) (h0 : b.current = 0) : b.opened = [] := by
  cases hb : b.opened with
  | nil => rfl
  | cons top rest =>
    have hne : b.opened ≠ [] := by rw [hb]; exact List.cons_ne_nil top rest
    have hnested := h.nested
    rw [stack_of_ne_nil hne, h0] at hnested
    obtain ⟨tail, htail⟩ := b.pop.exists_stack
    rw [htail] at hnested
    exact absurd (List.rel_of_pairwise_cons hnested List.mem_cons_self) (Nat.not_lt_zero _)

theorem stack_eq (h : b.Sound) (h0 : b.current = 0) : b.stack = [0] := by
  rw [stack, h.opened_eq_nil h0]
  rfl

theorem outer {capacity : Nat} {inner opened : List Nat} (h : Sound ⟨capacity, inner ++ opened⟩) :
    Sound ⟨capacity, opened⟩ := by
  induction inner with
  | nil => exact h
  | cons top rest ih => exact ih h.pop

theorem push?_outer {capacity : Nat} {opened : List Nat} (h : Sound ⟨capacity, width :: opened⟩) :
    push? ⟨capacity, opened⟩ width = some ⟨capacity, width :: opened⟩ := by
  obtain ⟨rest, hrest⟩ := exists_stack ⟨capacity, opened⟩
  have hnested : (width :: stack ⟨capacity, opened⟩).Pairwise (· > ·) := h.nested
  rw [hrest] at hnested
  have hw := List.rel_of_pairwise_cons hnested List.mem_cons_self
  exact push?_eq_some_iff.2 ⟨hw, h.fits, rfl⟩

end Sound

section Extend

variable {widths : List Nat}

theorem extend_preserves {P : Blocks → Prop}
    (hpush : ∀ b b' w, w ∈ widths → P b → b.push? w = some b' → P b') (hb : P b) :
    P (b.extend widths) := by
  induction widths generalizing b with
  | nil => exact hb
  | cons w rest ih =>
    rw [extend]
    split
    · rename_i b' hb'
      apply ih
      · intro c c' v hv
        exact hpush c c' v (List.mem_cons_of_mem w hv)
      · exact hpush b b' w List.mem_cons_self hb hb'
    · exact hb

theorem restore_preserves {P : Blocks → Prop}
    (hpush : ∀ b b' w, w ∈ widths → P b → b.push? w = some b' → P b') (hb : P b.reset) :
    P (b.restore widths) := by
  rw [restore.eq_def]
  split
  · apply extend_preserves _ hb
    intro c c' w hw
    exact hpush c c' w (List.mem_cons_of_mem 0 hw)
  · exact hb

theorem restore_congr (h : b'.capacity = b.capacity) : b'.restore widths = b.restore widths := by
  change (base b'.capacity).restore widths = (base b.capacity).restore widths
  rw [h]

theorem Sound.restore (h : b.Sound) : (b.restore widths).Sound :=
  restore_preserves (fun _ _ _ _ hc hpush => hc.push hpush) h.reset

theorem capacity_restore (b : Blocks) : (b.restore widths).capacity = b.capacity := by
  apply restore_preserves (P := fun c => c.capacity = b.capacity) _ rfl
  intro c c' w hw hc hpush
  obtain ⟨-, -, rfl⟩ := push?_eq_some_iff.1 hpush
  exact hc

theorem mem_widths_of_mem_restore : ∀ w ∈ (b.restore widths).opened, w ∈ widths := by
  apply restore_preserves (P := fun c => ∀ w ∈ c.opened, w ∈ widths)
  · intro c c' v hv hc hpush
    obtain ⟨-, -, rfl⟩ := push?_eq_some_iff.1 hpush
    intro w hw
    rcases List.mem_cons.1 hw with rfl | hw
    · exact hv
    · exact hc w hw
  · intro w hw
    cases hw

theorem extend_of_sound {capacity : Nat} {opened : List Nat}
    (h : Sound ⟨capacity, widths.reverse ++ opened⟩) :
    extend ⟨capacity, opened⟩ widths = ⟨capacity, widths.reverse ++ opened⟩ := by
  induction widths generalizing opened with
  | nil => rfl
  | cons w rest ih =>
    have hassoc : (w :: rest).reverse ++ opened = rest.reverse ++ w :: opened := by
      rw [List.reverse_cons, List.append_assoc]
      rfl
    rw [hassoc] at h ⊢
    rw [extend, h.outer.push?_outer]
    exact ih h

theorem restore_entries (h : b.Sound) (hc : b'.capacity = b.capacity) :
    b'.restore b.entries = b := by
  have hopened : b.opened.reverse.reverse ++ [] = b.opened := by
    rw [List.reverse_reverse, List.append_nil]
  have hextend : extend ⟨b.capacity, []⟩ b.opened.reverse = b := by
    rw [extend_of_sound (by rw [hopened]; exact h), hopened]
  rw [entries, restore, reset, hc]
  exact hextend

theorem entries_restore_of_usable (h : Usable widths) (hfits : widths.length ≤ b.capacity) :
    (b.restore widths).entries = widths := by
  obtain ⟨hhead, hincreasing⟩ := h
  obtain ⟨rest, rfl⟩ := List.head?_eq_some_iff.1 hhead
  have hentries : entries ⟨b.capacity, rest.reverse⟩ = 0 :: rest := by
    rw [entries, List.reverse_reverse]
  have hsound : Sound ⟨b.capacity, rest.reverse⟩ := by
    constructor
    · rw [← List.pairwise_reverse, ← entries_eq_reverse_stack, hentries]
      exact hincreasing
    · rw [← length_entries, hentries]
      exact hfits
  have hrestore : b.restore (0 :: rest) = ⟨b.capacity, rest.reverse⟩ := by
    rw [← hentries]
    exact restore_entries hsound rfl
  rw [hrestore, hentries]

theorem Usable.take {n : Nat} (h : Usable widths) (hn : n ≠ 0) : Usable (widths.take n) := by
  refine ⟨?_, h.2.sublist (List.take_sublist ..)⟩
  rw [List.head?_take, if_neg hn]
  exact h.1

theorem entries_restore_take {n : Nat} (h : Usable widths) (hn : n ≤ b.capacity) :
    (b.restore (widths.take n)).entries = widths.take (max 1 n) := by
  cases n with
  | zero =>
    obtain ⟨rest, rfl⟩ := List.head?_eq_some_iff.1 h.1
    rfl
  | succ n =>
    rw [Nat.max_eq_right (Nat.succ_le_succ (Nat.zero_le n))]
    apply entries_restore_of_usable (h.take (Nat.succ_ne_zero n))
    exact Nat.le_trans (List.length_take_le ..) hn

end Extend

theorem capacityOf_bounds (n : Number) : 1 ≤ capacityOf n ∧ capacityOf n ≤ maxCapacity := by
  rw [capacityOf]
  split
  · exact ⟨Nat.le_min.2 ⟨by decide, Nat.le_max_left ..⟩, Nat.min_le_left ..⟩
  · exact ⟨by decide, by decide⟩

end Blocks

theorem Settings.capacity_bounds (maxDepth bufferSize : Option Number) :
    1 ≤ (ofNumbers maxDepth bufferSize).capacity ∧
      (ofNumbers maxDepth bufferSize).capacity ≤ Blocks.maxCapacity := by
  cases maxDepth with
  | none => exact ⟨Nat.le_of_ble_eq_true rfl, Nat.le_of_ble_eq_true rfl⟩
  | some n => exact Blocks.capacityOf_bounds n

end Offside
