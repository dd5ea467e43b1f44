import Offside.Proofs.Deferral
import Offside.Proofs.Snapshot

/-! What is deferred is owed. A deferred width is set, kept and dropped in several places, while
blocks are opened and closed above it. Main statement: as long as a scanner is only scanned with,
reset and restored from complete snapshots, a deferred width lies below the innermost block, so
settling it never comes to nothing. -/

namespace Offside

namespace Scanner

/-- Nothing is deferred but a width below the innermost block. -/
def Due (s : Scanner) : Prop := ∀ target ∈ s.deferred, target < s.blocks.current

/-- A scanner that was reached from a new one by scans, resets and snapshots without anything left
out. A snapshot may be of any scanner that was reached with the same settings. -/
inductive Reached (settings : Settings) : Scanner → Prop
  | create : Reached settings (create settings)
  | scan {s} (accepted : List Kind) (c : Cursor) : Reached settings s →
      Reached settings (s.scan accepted c).scanner
  | reset {s} : Reached settings s → Reached settings s.reset
  | restore {s t bytes} : Reached settings s → Reached settings t →
      t.snapshot = .ok (bytes, []) → Reached settings (s.restore bytes).1

end Scanner

theorem Decision.due {accepted : List Kind} {s s' : Scanner} {kind : Option Kind}
    {measured : Option Nat} (h : Decision accepted s kind measured s') (hs : s.Due) : s'.Due := by
  intro target htarget
  cases h with
  | text => exact hs target htarget
  | owed =>
    obtain ⟨rfl, hlt⟩ := Scanner.lt_current_of_deferred_dedentTo htarget
    exact hlt
  | pass =>
    rw [Scanner.blocks_ready]
    exact hs target (Scanner.deferred_of_ready htarget)
  | indent => cases htarget
  | capped => cases htarget
  | dedent =>
    obtain ⟨rfl, hlt⟩ := Scanner.lt_current_of_deferred_dedentTo htarget
    exact hlt
  | defer _ hlt =>
    cases htarget
    exact Int.ofNat_lt.2 hlt
  | level =>
    rw [Scanner.blocks_ready]
    exact hs target (Scanner.deferred_of_ready htarget)

namespace Scanner

variable {settings : Settings} {s t : Scanner} {bytes : Bytes}

theorem Due.owes {target : Int} (h : s.Due) (hd : s.deferred = some target) (hpos : 0 ≤ target) :
    s.Owes target := by
  have hlt := h target hd
  have hopen : s.blocks.opened ≠ [] := Blocks.opened_ne_nil_of_lt_current (n := 0) (by omega)
  exact ⟨hd, hlt, Blocks.one_lt_depth hopen⟩

theorem restore_of_snapshot (hs : s.Sound settings Snapshot.maxWidth)
    (ht : t.Sound settings Snapshot.maxWidth) (hcapacity : settings.capacity ≤ Blocks.maxCapacity)
    (h : t.snapshot = .ok (bytes, [])) :
    (s.restore bytes).1 = t ∨ (s.restore bytes).1 = s.reset := by
  rw [snapshot] at h
  split at h
  · rename_i size hsize
    have hwithin := Except.ok.inj h
    have hrestore := restore_of_untruncated ht hcapacity (congrArg Prod.snd hwithin) hs.capacity
      hs.budget
    rw [hwithin] at hrestore
    exact .inl (congrArg Prod.fst hrestore)
  · cases h
    exact .inr rfl
  · cases h

namespace Reached

theorem sound (h : Reached settings s) (hlow : 1 ≤ settings.capacity) :
    s.Sound settings Snapshot.maxWidth := by
  induction h with
  | create => exact sound_create _ hlow
  | scan accepted c _ ih => exact ih.scan (by decide) accepted c
  | reset _ ih => exact ih.reset
  | restore _ _ _ ih => exact ih.restore (Nat.le_refl _) _

theorem due (h : Reached settings s) (hlow : 1 ≤ settings.capacity)
    (hhigh : settings.capacity ≤ Blocks.maxCapacity) : s.Due := by
  induction h with
  | create => nofun
  | scan accepted c _ ih => exact (scan_decides _ accepted c).due ih
  | reset => nofun
  | restore hs ht hsnapshot _ ih =>
    -- What comes back is the scanner that the snapshot is of; the one restored into plays no part.
    rcases restore_of_snapshot (hs.sound hlow) (ht.sound hlow) hhigh hsnapshot with heq | heq
    · rw [heq]
      exact ih
    · rw [heq]
      nofun

end Reached

/-- A width that is deferred by a scanner in use lies below the innermost block, so some block is
open above the base. Where dedents are accepted, settling it gives a dedent and closes that block,
and never drops the width for nothing. -/
theorem deferred_is_owed (maxDepth bufferSize : Option Number)
    (h : Reached (.ofNumbers maxDepth bufferSize) s) {target : Int}
    (hd : s.deferred = some target) :
    (0 ≤ target ∧ target < s.blocks.current ∧ 2 ≤ s.blocks.entries.length) ∧
      ∀ accepted, .dedent ∈ accepted →
        (s.settle accepted).1 = some .dedent ∧ (s.settle accepted).2.blocks = s.blocks.pop := by
  obtain ⟨hlow, hhigh⟩ := Settings.capacity_bounds maxDepth bufferSize
  have hpos : 0 ≤ target := ((h.sound hlow).deferred target hd).1
  have howes := (h.due hlow hhigh).owes hd hpos
  refine ⟨⟨hpos, howes.2.1, ?_⟩, ?_⟩
  · rw [Blocks.length_entries]
    exact howes.2.2
  · intro accepted hdedent
    rw [settle_of_owes hdedent howes]
    exact ⟨rfl, rfl⟩

theorem deferred_is_owed_restored :
    let settings := Settings.ofNumbers (some (.ofNat 2)) (some (.ofNat 8))
    let opened := ((create settings).scan [.indent] (.ofText [.lineFeed, .space, .bar])).scanner
    let waiting := (opened.scan [.newline] (.ofText [.lineFeed, .bar])).scanner
    let bytes : Bytes := [1, 2, 0, 0, 0, 0, 1, 0]
    let s := ((create settings).restore bytes).1
    waiting.snapshot = .ok (bytes, []) ∧ Reached settings s ∧ s.deferred = some 0 ∧
      0 < s.blocks.current ∧ (s.settle [.dedent]).1 = some .dedent := by
  intro settings opened waiting bytes s
  have hsnapshot : waiting.snapshot = .ok (bytes, []) := rfl
  have hreached : Reached settings s := .restore .create (.scan _ _ (.scan _ _ .create)) hsnapshot
  obtain ⟨⟨-, hlt, -⟩, hsettle⟩ :=
    deferred_is_owed (some (.ofNat 2)) (some (.ofNat 8)) hreached rfl
  exact ⟨hsnapshot, hreached, rfl, Int.ofNat_lt.1 hlt, (hsettle [.dedent] List.mem_cons_self).1⟩

end Scanner

end Offside
