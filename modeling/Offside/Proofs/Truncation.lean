import Offside.Proofs.Session

/-! Snapshots that a buffer has no room for. Main statement: how many widths are written, how many
of them come back, and when either loss is reported, for every size that a buffer can have. -/

namespace Offside

theorem Budget.ofNumber_eq_bytes {n : Number} {size : Nat} (hn : n.floor? = some (size : Int))
    (hlow : headerSize ≤ size) (hhigh : size ≤ Number.maxExact) : ofNumber n = .bytes size := by
  rw [ofNumber_of_floor? hn, Int.toNat_natCast, if_pos hhigh, Nat.max_eq_right hlow]

namespace Scanner

open Snapshot

variable {s : Scanner} {n : Number} {size : Nat}

theorem snapshot_of_floor? (hbudget : s.budget = .ofNumber n) (hn : n.floor? = some (size : Int))
    (hlow : Budget.headerSize ≤ size) (hhigh : size ≤ Number.maxExact) :
    s.snapshot = .ok (s.snapshotWithin size) := by
  rw [snapshot, hbudget, Budget.ofNumber_eq_bytes hn hlow hhigh]

theorem no_snapshot_of_unavailable {asked : Number} (h : s.budget = .unavailable asked) :
    ¬∃ bytes notices, s.snapshot = .ok (bytes, notices) := by
  rintro ⟨bytes, notices, hsnapshot⟩
  rw [snapshot, h] at hsnapshot
  cases hsnapshot

theorem length_snapshotWithin (s : Scanner) (size : Nat) :
    (s.snapshotWithin size).1.length = 4 + 2 * min s.blocks.depth (room size) := by
  simp only [snapshotWithin, List.length_append, length_flatMap_encode16, List.length_take,
    Blocks.length_entries]
  rw [Nat.min_comm]
  rfl

theorem Storable.usable (h : s.Storable) : Blocks.Usable s.blocks.entries := ⟨rfl, h.increasing⟩

theorem entries_restore_snapshotWithin (h : s.Storable) (r : Scanner) (size : Nat) :
    (r.restore (s.snapshotWithin size).1).1.blocks.entries =
      s.blocks.entries.take (max 1 (min (min s.blocks.depth (room size)) r.blocks.capacity)) := by
  rw [restore_snapshotWithin h]
  exact Blocks.entries_restore_take h.usable (Nat.min_le_right ..)

theorem deferred_restore_snapshotWithin (h : s.Storable) (r : Scanner) (size : Nat) :
    (r.restore (s.snapshotWithin size).1).1.deferred = s.deferred := by
  rw [restore_snapshotWithin h]

theorem notices_restore_snapshotWithin (h : s.Storable) (r : Scanner) (size : Nat) :
    (r.restore (s.snapshotWithin size).1).2 =
      let kept := max 1 (min (min s.blocks.depth (room size)) r.blocks.capacity)
      if kept ≠ s.blocks.depth then [.malformed s.blocks.depth kept] else [] := by
  have hentries := congrArg List.length (entries_restore_snapshotWithin h r size)
  have hpos : 0 < s.blocks.depth := Nat.succ_pos _
  rw [restore_snapshotWithin h] at hentries ⊢
  simp only [Blocks.length_entries, List.length_take] at hentries
  simp only [hentries]
  rw [Nat.min_eq_left (by omega)]

theorem restore_of_room (h : s.Storable) (hn : n.floor? = some (size : Int))
    (hlow : 4 + 2 * s.blocks.depth ≤ size) (hhigh : size ≤ Number.maxExact) {r : Scanner}
    (hfits : s.blocks.depth ≤ max 1 r.blocks.capacity) :
    ∃ bytes, ({ s with budget := .ofNumber n } : Scanner).snapshot = .ok (bytes, []) ∧
      (r.restore bytes).1.blocks.entries = s.blocks.entries ∧
      (r.restore bytes).1.deferred = s.deferred := by
  have hpos : 0 < s.blocks.depth := Nat.succ_pos _
  have hroom : s.blocks.depth ≤ room size := by
    rw [room, Budget.headerSize]
    omega
  have hsize : Budget.headerSize ≤ size := by
    rw [Budget.headerSize]
    omega
  have hnotices : (s.snapshotWithin size).2 = [] := by
    rw [notices_snapshotWithin, if_neg (Nat.not_lt.2 hroom)]
  have hkept : s.blocks.entries.length ≤
      max 1 (min (min s.blocks.depth (room size)) r.blocks.capacity) := by
    rw [Blocks.length_entries]
    omega
  refine ⟨(s.snapshotWithin size).1, ?_, ?_, deferred_restore_snapshotWithin h r size⟩
  · rw [snapshot_of_floor? rfl hn hsize hhigh, ← hnotices]
    rfl
  · rw [entries_restore_snapshotWithin h, List.take_of_length_le hkept]

/-- A snapshot within any size that a buffer can have. The widths that fit are written, and it is
reported if some do not. Whatever it is restored into, the widths come back that were written and
can be tracked there, but no fewer than the base, and the deferred width with them; it is reported
if they are not all. -/
theorem restore_snapshot_truncated (h : s.Storable) (hbudget : s.budget = .ofNumber n)
    (hn : n.floor? = some (size : Int)) (hlow : 4 ≤ size) (hhigh : size ≤ Number.maxExact)
    (r : Scanner) :
    let stack := s.blocks.entries
    let written := min stack.length ((size - 4) / 2)
    let kept := max 1 (min written r.blocks.capacity)
    ∃ bytes notices,
      s.snapshot = .ok (bytes, notices) ∧
        bytes.length = 4 + 2 * written ∧ bytes.length ≤ size ∧
        notices = (if size < 4 + 2 * stack.length then [.truncated stack.length written] else []) ∧
        (r.restore bytes).1.blocks.entries = stack.take kept ∧
        (r.restore bytes).1.deferred = s.deferred ∧
        (r.restore bytes).2 =
          if kept ≠ stack.length then [.malformed stack.length kept] else [] := by
  intro stack written kept
  have hstack : stack.length = s.blocks.depth := Blocks.length_entries _
  have hlength : (s.snapshotWithin size).1.length = 4 + 2 * written := by
    rw [length_snapshotWithin, ← hstack]
    rfl
  refine ⟨(s.snapshotWithin size).1, (s.snapshotWithin size).2,
    snapshot_of_floor? hbudget hn hlow hhigh, hlength, ?_, ?_, ?_, ?_, ?_⟩
  · rw [hlength]
    omega
  · rw [notices_snapshotWithin, ← hstack, room, Budget.headerSize]
    by_cases hroom : (size - 4) / 2 < stack.length
    · rw [if_pos hroom, if_pos (by omega)]
      simp only [written, Nat.min_eq_right (Nat.le_of_lt hroom)]
    · rw [if_neg hroom, if_neg (by omega)]
  · rw [entries_restore_snapshotWithin h, ← hstack]
    rfl
  · exact deferred_restore_snapshotWithin h r size
  · rw [notices_restore_snapshotWithin h, ← hstack]
    rfl

theorem restore_snapshot_truncated_odd :
    let s : Scanner := ⟨⟨100, [300, 3]⟩, some 3, .ofNumber (.ofNat 9)⟩
    let r : Scanner := ⟨⟨100, [7, 5]⟩, none, .bytes 64⟩
    s.Storable ∧ ∃ bytes notices,
      s.snapshot = .ok (bytes, notices) ∧ bytes.length = 8 ∧ notices = [.truncated 3 2] ∧
        (r.restore bytes).1.blocks.entries = [0, 3] ∧ (r.restore bytes).1.deferred = some 3 ∧
        (r.restore bytes).2 = [.malformed 3 2] := by
  intro s r
  have hs : s.Storable := ⟨by decide, by decide, by decide, by rintro target ⟨⟩; decide⟩
  have hbudget : s.budget = .ofNumber (.ofNat 9) := rfl
  have hsize : (Number.ofNat 9).floor? = some (9 : Nat) := by decide
  obtain ⟨bytes, notices, hsnapshot, hlength, -, hnotices, hentries, hdeferred, hreport⟩ :=
    restore_snapshot_truncated hs hbudget hsize (by decide) (by decide) r
  exact ⟨hs, bytes, notices, hsnapshot, hlength, hnotices, hentries, hdeferred, hreport⟩

/-- No buffer has as many bytes as this finite size asks for, and there is no snapshot at all. -/
theorem snapshot_of_no_buffer :
    let n := Number.ofNat 9007199254740992
    let s : Scanner := create (.ofNumbers none (some n))
    n.floor? = some 9007199254740992 ∧ s.Storable ∧ s.budget = .ofNumber n ∧
      ¬∃ bytes notices, s.snapshot = .ok (bytes, notices) := by
  intro n s
  have hbudget : s.budget = .unavailable n := by decide +kernel
  exact ⟨by decide +kernel, storable_of_rest rfl rfl, rfl, no_snapshot_of_unavailable hbudget⟩

end Scanner

end Offside
