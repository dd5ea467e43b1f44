import Offside.Proofs.Scanner

/-! Reachable scanners. Main statement: whatever is done with a scanner, in any order and with any
cursors, kinds and bytes, its capacity stays, its blocks nest within it, and its widths stay in
range. -/

namespace Offside

/-- What can be done with a scanner. A line break or a deferred dedent can also be asked for on its
own, without a scan around it. -/
inductive Operation where
  | scan (accepted : List Kind) (cursor : Cursor)
  | lineBreak (accepted : List Kind) (cursor : Cursor)
  | settle (accepted : List Kind)
  | snapshot
  | restore (bytes : Bytes)
  | reset
  | destroy

namespace Scanner

def apply (s : Scanner) : Operation → Scanner
  | .scan accepted cursor => (s.scan accepted cursor).scanner
  | .lineBreak accepted cursor => (s.lineBreak accepted cursor).scanner
  | .settle accepted => (s.settle accepted).2
  | .snapshot => s
  | .restore bytes => (s.restore bytes).1
  | .reset => s.reset
  | .destroy => s.reset

def applyAll (s : Scanner) (operations : List Operation) : Scanner := operations.foldl apply s

namespace Sound

variable {settings : Settings} {limit : Nat} {s : Scanner}

theorem apply (h : s.Sound settings limit) (hl : Margin.maxWidth ≤ limit) (operation : Operation)
    (hr : ∀ bytes, operation = .restore bytes → Snapshot.maxWidth ≤ limit) :
    (s.apply operation).Sound settings limit := by
  cases operation with
  | scan accepted cursor => exact h.scan hl accepted cursor
  | lineBreak accepted cursor => exact h.lineBreak hl accepted cursor
  | settle accepted => exact h.settle accepted
  | snapshot => exact h
  | restore bytes => exact h.restore (hr bytes rfl) bytes
  | reset => exact h.reset
  | destroy => exact h.reset

theorem applyAll (h : s.Sound settings limit) (hl : Margin.maxWidth ≤ limit)
    (operations : List Operation)
    (hr : ∀ bytes, .restore bytes ∈ operations → Snapshot.maxWidth ≤ limit) :
    (s.applyAll operations).Sound settings limit := by
  induction operations generalizing s with
  | nil => exact h
  | cons operation rest ih =>
    apply ih
    · apply h.apply hl operation
      rintro bytes rfl
      exact hr bytes List.mem_cons_self
    · intro bytes hmem
      exact hr bytes (List.mem_cons_of_mem operation hmem)

end Sound

/-- Every scanner that can be reached from a new one: the capacity is that of the settings, between
one and 255; the widths start at zero, increase and fit the capacity; they fit sixteen bits, and
fifteen as long as nothing was restored; a deferred width fits fifteen bits. -/
theorem reachable_sound (maxDepth bufferSize : Option Number) (operations : List Operation) :
    let settings := Settings.ofNumbers maxDepth bufferSize
    let s := (create settings).applyAll operations
    (1 ≤ settings.capacity ∧ settings.capacity ≤ 255) ∧
      s.blocks.capacity = settings.capacity ∧
      s.blocks.entries.head? = some 0 ∧
      s.blocks.entries.Pairwise (· < ·) ∧
      s.blocks.entries.length ≤ settings.capacity ∧
      (∀ w ∈ s.blocks.entries, w ≤ 65535) ∧
      ((∀ bytes, .restore bytes ∉ operations) → ∀ w ∈ s.blocks.entries, w ≤ 32767) ∧
      ∀ target ∈ s.deferred, 0 ≤ target ∧ target ≤ 32767 := by
  intro settings s
  have hcapacity := Settings.capacity_bounds maxDepth bufferSize
  have hsound : s.Sound settings Snapshot.maxWidth :=
    (sound_create _ hcapacity.1).applyAll (by decide) operations fun _ _ => Nat.le_refl _
  refine ⟨hcapacity, hsound.capacity, rfl, hsound.pairwise_entries, hsound.length_entries_le,
    hsound.le_of_mem_entries, ?_, hsound.deferred⟩
  intro hnone
  have hmeasured : s.Sound settings Margin.maxWidth :=
    (sound_create _ hcapacity.1).applyAll (Nat.le_refl _) operations
      fun bytes hmem => absurd hmem (hnone bytes)
  exact hmeasured.le_of_mem_entries

end Scanner

end Offside
