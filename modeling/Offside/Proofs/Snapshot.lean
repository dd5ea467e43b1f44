import Offside.Proofs.Scanner

/-! What comes back of a snapshot. The widths that it had room for and that the restored scanner can
track come back, with the deferred width; if no width was left out, so does the whole scanner. -/

namespace Offside

namespace Snapshot

theorem toNat_toUInt8 {n : Nat} (h : n ≤ 0xFF) : n.toUInt8.toNat = n :=
  Nat.mod_eq_of_lt (Nat.lt_succ_of_le h)

theorem decode16_encode16 (n : Int) :
    decode16 (n % 256).toNat.toUInt8 (n / 256 % 256).toNat.toUInt8 = (n % 0x10000).toNat := by
  rw [decode16, toNat_toUInt8, toNat_toUInt8] <;> omega

theorem signed16_encode16 {n : Int} (hlow : -1 ≤ n) (hhigh : n ≤ Margin.maxWidth) :
    signed16 (n % 0x10000).toNat = n := by
  rw [Margin.maxWidth] at hhigh
  rw [signed16]
  split <;> omega

theorem pairs_flatMap_encode16 {widths : List Nat} (h : ∀ w ∈ widths, w ≤ maxWidth) :
    pairs (widths.flatMap fun (width : Nat) => encode16 width) = widths := by
  induction widths with
  | nil => rfl
  | cons w rest ih =>
    have hw : ((w : Int) % 0x10000).toNat = w := by
      have hle := h w List.mem_cons_self
      rw [maxWidth] at hle
      omega
    have hrest : ∀ v ∈ rest, v ≤ maxWidth := fun v hv => h v (List.mem_cons_of_mem w hv)
    rw [List.flatMap_cons, encode16]
    change decode16 _ _ :: pairs (rest.flatMap _) = _
    rw [decode16_encode16, hw, ih hrest]

theorem length_flatMap_encode16 (widths : List Nat) :
    (widths.flatMap fun (width : Nat) => encode16 width).length = 2 * widths.length := by
  induction widths with
  | nil => rfl
  | cons width rest ih =>
    rw [List.flatMap_cons, List.length_append, ih, List.length_cons, encode16]
    exact Nat.add_comm ..

theorem deferredOf_header {deferred : Option Int} (depth : Nat) (rest : Bytes)
    (h : ∀ target ∈ deferred, 0 ≤ target ∧ target ≤ Margin.maxWidth) :
    Scanner.deferredOf (header depth deferred ++ rest) = deferred := by
  change (let width := signed16 (decode16 _ _); if width < 0 then none else some width) = _
  rw [decode16_encode16]
  cases deferred with
  | none => rfl
  | some target =>
    obtain ⟨hlow, hhigh⟩ := h target rfl
    rw [Option.getD_some, signed16_encode16 (Int.le_trans (by decide) hlow) hhigh]
    exact if_neg (Int.not_lt.2 hlow)

end Snapshot

namespace Scanner

open Snapshot

/-- A scanner that a snapshot has fields for: its widths increase and fit sixteen bits, its depth
fits a byte, and a deferred width fits fifteen bits. -/
structure Storable (s : Scanner) : Prop where
  increasing : s.blocks.entries.Pairwise (· < ·)
  widths : ∀ w ∈ s.blocks.entries, w ≤ 65535
  depth : s.blocks.entries.length ≤ 255
  deferred : ∀ target ∈ s.deferred, 0 ≤ target ∧ target ≤ 32767

variable {settings : Settings} {s : Scanner} {size : Nat}

theorem Sound.storable (h : s.Sound settings maxWidth)
    (hcapacity : settings.capacity ≤ Blocks.maxCapacity) : s.Storable where
  increasing := h.pairwise_entries
  widths := h.le_of_mem_entries
  depth := Nat.le_trans h.length_entries_le hcapacity
  deferred := h.deferred

theorem storable_of_rest (hentries : s.blocks.entries = [0]) (hdeferred : s.deferred = none) :
    s.Storable := by
  constructor
  · rw [hentries]
    exact List.pairwise_singleton _ 0
  · rw [hentries]
    decide
  · rw [hentries]
    decide
  · rw [hdeferred]
    nofun

theorem notices_snapshotWithin (s : Scanner) (size : Nat) :
    (s.snapshotWithin size).2 =
      if room size < s.blocks.depth then [.truncated s.blocks.depth (room size)] else [] := by
  simp only [snapshotWithin, List.length_take, Blocks.length_entries]
  rcases Nat.lt_or_ge (room size) s.blocks.depth with h | h
  · rw [Nat.min_eq_left (Nat.le_of_lt h)]
  · rw [Nat.min_eq_right h, if_neg (Nat.lt_irrefl _), if_neg (Nat.not_lt.2 h)]

theorem untruncated_of_room (h : s.Sound settings maxWidth)
    (hroom : Budget.headerSize + 2 * settings.capacity ≤ size) :
    (s.snapshotWithin size).2 = [] := by
  have hle : s.blocks.depth ≤ room size := by
    have hlength := h.length_entries_le
    rw [Blocks.length_entries] at hlength
    rw [Budget.headerSize] at hroom
    rw [room, Budget.headerSize]
    omega
  rw [notices_snapshotWithin, if_neg (Nat.not_lt.2 hle)]

theorem restore_header (s : Scanner) (depth : Nat) (deferred : Option Int) (rest : Bytes) :
    s.restore (header depth deferred ++ rest) =
      let declared := depth.toUInt8.toNat
      let blocks := s.blocks.reset.restore ((pairs rest).take (min declared s.blocks.capacity))
      ({ s with blocks, deferred := deferredOf (header depth deferred ++ rest) },
        if 0 < declared ∧ blocks.depth ≠ declared then [.malformed declared blocks.depth]
        else []) := by
  rw [restore.eq_def]
  exact if_pos rfl

theorem restore_snapshotWithin (h : s.Storable) (r : Scanner) (size : Nat) :
    r.restore (s.snapshotWithin size).1 =
      let kept := min (min s.blocks.depth (room size)) r.blocks.capacity
      let blocks := r.blocks.restore (s.blocks.entries.take kept)
      ({ r with blocks, deferred := s.deferred },
        if blocks.depth ≠ s.blocks.depth then [.malformed s.blocks.depth blocks.depth]
        else []) := by
  -- The depth is written in full, although fewer widths may follow it.
  have hdepth := h.depth
  rw [Blocks.length_entries] at hdepth
  have hdeclared : s.blocks.depth.toUInt8.toNat = s.blocks.depth := toNat_toUInt8 hdepth
  have hwritten : ∀ w ∈ s.blocks.entries.take (room size), w ≤ maxWidth :=
    fun w hw => h.widths w (List.mem_of_mem_take hw)
  have hkept : min (min s.blocks.depth r.blocks.capacity) (room size) =
      min (min s.blocks.depth (room size)) r.blocks.capacity := by omega
  have hpos : 0 < s.blocks.depth := Nat.succ_pos _
  simp only [snapshotWithin, Blocks.length_entries]
  rw [restore_header, deferredOf_header _ _ h.deferred, pairs_flatMap_encode16 hwritten, hdeclared]
  simp only [List.take_take, hkept, hpos, true_and]
  rfl

theorem restore_of_untruncated {other : Scanner} (h : s.Sound settings maxWidth)
    (hcapacity : settings.capacity ≤ Blocks.maxCapacity)
    (huntruncated : (s.snapshotWithin size).2 = [])
    (hother : other.blocks.capacity = settings.capacity)
    (hbudget : other.budget = settings.budget) :
    other.restore (s.snapshotWithin size).1 = (s, []) := by
  have hroom : s.blocks.depth ≤ room size := by
    rw [notices_snapshotWithin] at huntruncated
    split at huntruncated
    · cases huntruncated
    · exact Nat.not_lt.1 ‹_›
  have hfits : s.blocks.depth ≤ other.blocks.capacity := by
    rw [← Blocks.length_entries, hother]
    exact h.length_entries_le
  have hall : s.blocks.entries.take s.blocks.depth = s.blocks.entries := by
    rw [← Blocks.length_entries, List.take_length]
  have hblocks : other.blocks.restore s.blocks.entries = s.blocks :=
    Blocks.restore_entries h.blocks (hother.trans h.capacity.symm)
  rw [restore_snapshotWithin (h.storable hcapacity), Nat.min_eq_left hroom, Nat.min_eq_left hfits]
  simp only [hall, hblocks, ne_eq, not_true_eq_false, if_false]
  rw [hbudget, ← h.budget]

end Scanner

end Offside
