import Offside.Proofs.Truncation

/-! What restoring makes of bytes of any origin. Main statements: the blocks are the longest usable
beginning of the widths that the bytes hold, whatever was open before; and what is missing or out of
order is reported, unless a single block was declared. -/

namespace Offside

namespace Blocks

variable {b : Blocks} {kept widths : List Nat}

structure Longest (kept widths : List Nat) : Prop where
  isPrefix : kept <+: widths
  usable : Usable kept
  longest : ∀ p, p <+: widths → Usable p → p.length ≤ kept.length

/-- What can be recovered of widths: the longest usable beginning, or the base if there is none. -/
def Recovered (kept widths : List Nat) : Prop :=
  Longest kept widths ∨ (∀ p, p <+: widths → ¬Usable p) ∧ kept = [0]

theorem head?_of_isPrefix {p : List Nat} (hp : p <+: widths) (h : Usable p) :
    widths.head? = some 0 := by
  obtain ⟨rest, rfl⟩ := hp
  rw [List.head?_append, h.1]
  rfl

theorem extend_stops (b : Blocks) (widths : List Nat) :
    ∃ rest, (b.extend widths).entries ++ rest = b.entries ++ widths ∧
      ∀ w ∈ rest.head?, (b.extend widths).push? w = none := by
  induction widths generalizing b with
  | nil => exact ⟨[], rfl, by rintro w ⟨⟩⟩
  | cons w widths ih =>
    rw [extend]
    split
    · rename_i b' hb'
      obtain ⟨rest, hrest, hstop⟩ := ih b'
      refine ⟨rest, ?_, hstop⟩
      rw [hrest, entries_of_push? hb', List.append_assoc]
      rfl
    · rename_i hnone
      refine ⟨w :: widths, rfl, ?_⟩
      rintro v ⟨⟩
      exact hnone

theorem length_le_of_push?_eq_none {p rest : List Nat} (hp : p <+: b.entries ++ rest)
    (hfits : (b.entries ++ rest).length ≤ b.capacity) (husable : Usable p)
    (hstop : ∀ w ∈ rest.head?, b.push? w = none) : p.length ≤ b.entries.length := by
  cases rest with
  | nil =>
    rw [List.append_nil] at hp
    exact hp.length_le
  | cons w rest =>
    apply Nat.le_of_not_lt
    intro hlt
    -- A longer beginning has the width behind the blocks, so it is wider than all of them.
    have hnext : b.entries ++ [w] <+: b.entries ++ w :: rest := ⟨rest, List.append_assoc ..⟩
    have hmore : b.entries ++ [w] <+: p := by
      apply List.prefix_of_prefix_length_le hnext hp
      rw [List.length_append]
      exact hlt
    have hwide : b.current < w :=
      (List.pairwise_append.1 (husable.2.sublist hmore.sublist)).2.2 _ b.current_mem_entries w
        List.mem_cons_self
    have hroom : b.depth < b.capacity := by
      rw [List.length_append, length_entries, List.length_cons] at hfits
      omega
    have hsome := push?_eq_some_iff.2 ⟨hwide, hroom, rfl⟩
    cases (hstop w rfl).symm.trans hsome

theorem recovered_restore (hfits : widths.length ≤ b.capacity) :
    Recovered (b.restore widths).entries widths := by
  by_cases hhead : widths.head? = some 0
  · obtain ⟨widths, rfl⟩ := List.head?_eq_some_iff.1 hhead
    have hpos : 1 ≤ b.capacity := Nat.le_trans (Nat.succ_le_succ (Nat.zero_le _)) hfits
    have hsound : ((base b.capacity).restore (0 :: widths)).Sound := (sound_base hpos).restore
    have hcapacity : (b.restore (0 :: widths)).capacity = b.capacity := capacity_restore b
    -- The base is the first of the widths, so what follows it is what is opened.
    obtain ⟨rest, hrest, hstop⟩ := b.reset.extend_stops widths
    rw [entries_reset, List.singleton_append] at hrest
    refine .inl ⟨⟨rest, hrest⟩, hsound.usable_entries, ?_⟩
    intro p hp husable
    rw [← hrest] at hp hfits
    apply length_le_of_push?_eq_none hp _ husable hstop
    exact Nat.le_trans hfits (Nat.le_of_eq hcapacity.symm)
  · refine .inr ⟨fun p hp husable => hhead (head?_of_isPrefix hp husable), ?_⟩
    rw [restore.eq_def]
    split
    · exact absurd rfl hhead
    · rfl

namespace Recovered

variable {n : Nat}

theorem usable (h : Recovered kept widths) : Usable kept := by
  rcases h with h | ⟨-, rfl⟩
  · exact h.usable
  · decide

theorem length_le (h : Recovered kept widths) : kept.length ≤ max 1 widths.length := by
  rcases h with h | ⟨-, rfl⟩
  · exact Nat.le_trans h.isPrefix.length_le (Nat.le_max_right ..)
  · exact Nat.le_max_left ..

theorem eq_zero_or_mem (h : Recovered kept widths) : ∀ w ∈ kept, w = 0 ∨ w ∈ widths := by
  intro w hw
  rcases h with h | ⟨-, rfl⟩
  · exact .inr (h.isPrefix.subset hw)
  · exact .inl (List.mem_singleton.1 hw)

theorem length_eq_iff (h : Recovered kept widths) (hlength : widths.length ≤ n) (hn : 2 ≤ n) :
    kept.length = n ↔ Usable widths ∧ widths.length = n := by
  rcases h with h | ⟨hnone, rfl⟩
  · constructor
    · intro heq
      have hall : kept = widths := h.isPrefix.eq_of_length_le (by omega)
      rw [← hall]
      exact ⟨h.usable, heq⟩
    · rintro ⟨husable, heq⟩
      have hlow := h.longest widths (List.prefix_refl _) husable
      have hhigh := h.isPrefix.length_le
      omega
  · constructor
    · intro heq
      rw [List.length_singleton] at heq
      omega
    · rintro ⟨husable, -⟩
      exact absurd husable (hnone widths (List.prefix_refl _))

end Recovered

end Blocks

namespace Snapshot

variable {bytes : Bytes} {capacity : Nat}

def word (bytes : Bytes) (offset : Nat) : Nat :=
  (bytes.getD offset 0).toNat + 256 * (bytes.getD (offset + 1) 0).toNat

def declared (bytes : Bytes) : Nat := (bytes.getD 1 0).toNat

/-- The widths that bytes hold in full behind the header, up to a number of them. -/
def held (bytes : Bytes) (limit : Nat) : List Nat :=
  (List.range (min limit ((bytes.length - 4) / 2))).map fun i => word bytes (4 + 2 * i)

/-- The deferred width that bytes hold: sixteen bits with a sign, and not negative. -/
def marker (bytes : Bytes) : Option Int :=
  let width := (word bytes 2 : Int).bmod 0x10000
  if 4 ≤ bytes.length ∧ 0 ≤ width then some width else none

/-- Bytes with a stack that fits a capacity: all declared widths are there, and they are usable. -/
structure Complete (bytes : Bytes) (capacity : Nat) : Prop where
  fits : declared bytes ≤ capacity
  present : 4 + 2 * declared bytes ≤ bytes.length
  base : word bytes 4 = 0
  increasing : ∀ i j, i < j → j < declared bytes → word bytes (4 + 2 * i) < word bytes (4 + 2 * j)

theorem pairs_eq (bytes : Bytes) :
    pairs bytes = (List.range (bytes.length / 2)).map fun i => word bytes (2 * i) := by
  fun_induction pairs bytes with
  | case1 low high rest ih =>
    have hlength : (low :: high :: rest).length / 2 = rest.length / 2 + 1 := by
      rw [List.length_cons, List.length_cons]
      omega
    rw [ih, hlength, List.range_succ_eq_map, List.map_cons, List.map_map]
    rfl
  | case2 bytes hshort =>
    cases bytes with
    | nil => rfl
    | cons low rest =>
      cases rest with
      | nil => simp
      | cons high rest => exact absurd rfl (hshort low high rest)

theorem word_drop (bytes : Bytes) (start offset : Nat) :
    word (bytes.drop start) offset = word bytes (start + offset) := by
  simp only [word, List.getD_eq_getElem?_getD, List.getElem?_drop, Nat.add_assoc]

theorem take_pairs (bytes : Bytes) (limit : Nat) :
    (pairs (bytes.drop Budget.headerSize)).take limit = held bytes limit := by
  rw [pairs_eq, ← List.map_take, List.take_range, List.length_drop, Budget.headerSize, held]
  simp only [word_drop]

theorem signed16_eq {n : Nat} (h : n ≤ maxWidth) : signed16 n = (n : Int).bmod 0x10000 := by
  rw [maxWidth] at h
  rw [signed16, Int.bmod]
  split <;> split <;> omega

theorem deferredOf_eq : ∀ bytes, Scanner.deferredOf bytes = marker bytes
  | [] => rfl
  | [_] => rfl
  | [_, _] => rfl
  | [_, _, _] => rfl
  | version :: depth :: low :: high :: rest => by
    have hword : word (version :: depth :: low :: high :: rest) 2 = decode16 low high := rfl
    have hlong : 4 ≤ (version :: depth :: low :: high :: rest).length :=
      Nat.le_add_left 4 rest.length
    simp only [Scanner.deferredOf, marker, hword, ← signed16_eq (decode16_le low high), hlong,
      true_and]
    by_cases h : signed16 (decode16 low high) < 0
    · rw [if_pos h, if_neg (Int.not_le.2 h)]
    · rw [if_neg h, if_pos (Int.not_lt.1 h)]

theorem length_held_le (bytes : Bytes) (limit : Nat) : (held bytes limit).length ≤ limit := by
  rw [held, List.length_map, List.length_range]
  exact Nat.min_le_left ..

theorem declared_le (bytes : Bytes) : declared bytes ≤ 255 :=
  Nat.le_of_lt_succ (bytes.getD 1 0).toNat_lt

theorem complete_iff (h : 1 ≤ declared bytes) :
    Complete bytes capacity ↔
      Blocks.Usable (held bytes (min (declared bytes) capacity)) ∧
        (held bytes (min (declared bytes) capacity)).length = declared bytes := by
  rw [held, Blocks.Usable, List.pairwise_map, List.head?_map, List.head?_range, List.length_map,
    List.length_range]
  constructor
  · intro hc
    have hfits := hc.fits
    have hpresent := hc.present
    have hcount :
        min (min (declared bytes) capacity) ((bytes.length - 4) / 2) = declared bytes := by
      omega
    rw [hcount, if_neg (by omega)]
    refine ⟨⟨congrArg some hc.base, ?_⟩, rfl⟩
    apply List.pairwise_lt_range.imp_of_mem
    intro i j _ hj hij
    exact hc.increasing i j hij (List.mem_range.1 hj)
  · rintro ⟨⟨hbase, hincreasing⟩, hcount⟩
    rw [hcount] at hbase hincreasing
    rw [if_neg (by omega)] at hbase
    refine ⟨by omega, by omega, Option.some.inj hbase, ?_⟩
    intro i j hij hj
    have hlt := List.pairwise_iff_getElem.1 hincreasing i j (by rw [List.length_range]; omega)
      (by rw [List.length_range]; omega) hij
    rw [List.getElem_range, List.getElem_range] at hlt
    exact hlt

end Snapshot

namespace Scanner

open Snapshot

variable {s : Scanner} {bytes : Bytes}

theorem restore_of_version (h : bytes.head? = some version) :
    s.restore bytes =
      let blocks := s.blocks.restore (held bytes (min (declared bytes) s.blocks.capacity))
      ({ s with blocks, deferred := marker bytes },
        if 0 < declared bytes ∧ blocks.depth ≠ declared bytes then
          [.malformed (declared bytes) blocks.depth]
        else []) := by
  obtain ⟨rest, rfl⟩ := List.head?_eq_some_iff.1 h
  have hdeclared : (rest.headD 0).toNat = declared (version :: rest) := by
    cases rest <;> rfl
  rw [restore.eq_def]
  simp only [if_true, hdeclared, take_pairs, deferredOf_eq]
  rfl

theorem restore_of_not_version (h : bytes.head? ≠ some version) :
    (s.restore bytes).1 = s.reset := by
  cases bytes with
  | nil => rfl
  | cons first rest =>
    have hfirst : first ≠ version := fun heq => h (congrArg some heq)
    rw [restore.eq_def]
    simp only [hfirst, if_false]

theorem recovered_of_version (h : bytes.head? = some version) :
    Blocks.Recovered (s.restore bytes).1.blocks.entries
      (held bytes (min (declared bytes) s.blocks.capacity)) := by
  rw [restore_of_version h]
  apply Blocks.recovered_restore
  exact Nat.le_trans (length_held_le ..) (Nat.min_le_right ..)

theorem depth_le_of_version (h : bytes.head? = some version) :
    (s.restore bytes).1.blocks.depth ≤ max 1 (min (declared bytes) s.blocks.capacity) := by
  have hlength := length_held_le bytes (min (declared bytes) s.blocks.capacity)
  have hdepth := (recovered_of_version (s := s) h).length_le
  rw [Blocks.length_entries] at hdepth
  omega

theorem deferred_of_version (h : bytes.head? = some version) :
    (s.restore bytes).1.deferred = marker bytes := by
  rw [restore_of_version h]

theorem storable_restore (s : Scanner) (bytes : Bytes) : (s.restore bytes).1.Storable := by
  by_cases h : bytes.head? = some version
  · have hrecovered := recovered_of_version (s := s) h
    refine ⟨hrecovered.usable.2, ?_, ?_, ?_⟩
    · intro w hw
      rcases hrecovered.eq_zero_or_mem w hw with rfl | hmem
      · exact Nat.zero_le _
      · rw [← take_pairs] at hmem
        exact le_of_mem_pairs w (List.mem_of_mem_take hmem)
    · have hdepth := depth_le_of_version (s := s) h
      have hdeclared := declared_le bytes
      rw [Blocks.length_entries]
      omega
    · rw [deferred_of_version h, ← deferredOf_eq]
      exact Sound.deferredOf bytes
  · rw [restore_of_not_version h]
    exact storable_of_rest rfl rfl

theorem depth_restore_le (s : Scanner) (bytes : Bytes) :
    (s.restore bytes).1.blocks.depth ≤ max 1 s.blocks.capacity := by
  by_cases h : bytes.head? = some version
  · have hdepth := depth_le_of_version (s := s) h
    omega
  · rw [restore_of_not_version h]
    exact Nat.le_max_left ..

/-- Restoring from any bytes. What is restored depends on the bytes and the capacity alone. Bytes
without the known version give a new scanner. Otherwise as many widths are read as are declared, can
be tracked and are held in full; the blocks are the longest usable beginning of them, and the
deferred width is the one behind the depth, if it is there and not negative. A snapshot with room
for what was restored gives it back. -/
theorem restore_recovers (s : Scanner) (bytes : Bytes) :
    let r := (s.restore bytes).1
    (∀ other : Scanner, other.blocks.capacity = s.blocks.capacity →
      (other.restore bytes).1.blocks.entries = r.blocks.entries ∧
        (other.restore bytes).1.deferred = r.deferred) ∧
      (bytes.head? ≠ some 1 → r = create ⟨s.blocks.capacity, s.budget⟩) ∧
      (bytes.head? = some 1 →
        Blocks.Recovered r.blocks.entries
            (held bytes (min (declared bytes) s.blocks.capacity)) ∧
          r.deferred = marker bytes) ∧
      ∀ (n : Number) (size : Nat) (other : Scanner), n.floor? = some (size : Int) →
        4 + 2 * r.blocks.depth ≤ size → size ≤ Number.maxExact →
        other.blocks.capacity = s.blocks.capacity →
        ∃ saved, ({ r with budget := .ofNumber n } : Scanner).snapshot = .ok (saved, []) ∧
          (other.restore saved).1.blocks.entries = r.blocks.entries ∧
          (other.restore saved).1.deferred = r.deferred := by
  intro r
  refine ⟨?_, restore_of_not_version, ?_, ?_⟩
  · intro other hother
    by_cases h : bytes.head? = some version
    · simp only [r, restore_of_version h, hother]
      exact ⟨congrArg Blocks.entries (Blocks.restore_congr hother), trivial⟩
    · simp only [r, restore_of_not_version h]
      exact ⟨rfl, rfl⟩
  · intro h
    exact ⟨recovered_of_version h, deferred_of_version h⟩
  · intro n size other hn hlow hhigh hother
    apply restore_of_room (storable_restore s bytes) hn hlow hhigh
    rw [hother]
    exact depth_restore_le s bytes

theorem restore_recovers_unordered :
    let s : Scanner := ⟨⟨10, [8]⟩, none, .bytes 64⟩
    let bytes : Bytes := [1, 4, 2, 0, 0, 0, 3, 0, 3, 0, 9, 0]
    let r := (s.restore bytes).1
    let other : Scanner := ⟨⟨10, [1]⟩, some 5, .bytes 4⟩
    bytes.head? = some 1 ∧ held bytes (min (declared bytes) 10) = [0, 3, 3, 9] ∧
      Blocks.Recovered [0, 3] [0, 3, 3, 9] ∧ r.deferred = some 2 ∧
      (Number.ofNat 8).floor? = some (8 : Nat) ∧
      ∃ saved, ({ r with budget := .ofNumber (.ofNat 8) } : Scanner).snapshot = .ok (saved, []) ∧
        (other.restore saved).1.blocks.entries = [0, 3] ∧
        (other.restore saved).1.deferred = some 2 := by
  intro s bytes r other
  obtain ⟨-, -, hversion, hsaved⟩ := restore_recovers s bytes
  obtain ⟨hrecovered, hdeferred⟩ := hversion rfl
  have hentries : r.blocks.entries = [0, 3] := by decide
  have hheld : held bytes (min (declared bytes) 10) = [0, 3, 3, 9] := by decide
  have hmarker : marker bytes = some 2 := by decide
  have hsize : (Number.ofNat 8).floor? = some (8 : Nat) := by decide
  obtain ⟨saved, hsnapshot, hagain⟩ :=
    hsaved (.ofNat 8) 8 other hsize (by decide) (by decide) rfl
  rw [hentries, hheld] at hrecovered
  rw [hentries, hdeferred, hmarker] at hagain
  exact ⟨rfl, hheld, hrecovered, hdeferred.trans hmarker, hsize, saved, hsnapshot, hagain⟩

/-- Any bytes give something back, but no buffer has the finite size that is asked for. -/
theorem restored_without_buffer :
    let n := Number.ofNat 9007199254740992
    let r := ((create (.ofNumbers none (some n))).restore [1, 1, 0xFF, 0xFF, 0, 0]).1
    n.floor? = some 9007199254740992 ∧ r.budget = .ofNumber n ∧ r.blocks.entries = [0] ∧
      4 + 2 * r.blocks.depth ≤ 9007199254740992 ∧
      ¬∃ saved notices, r.snapshot = .ok (saved, notices) := by
  intro n r
  have hbudget : r.budget = .unavailable n := by decide +kernel
  exact ⟨by decide +kernel, rfl, by decide, by decide, no_snapshot_of_unavailable hbudget⟩

theorem depth_eq_declared_iff (h : bytes.head? = some version) (hdeclared : 2 ≤ declared bytes) :
    (s.restore bytes).1.blocks.depth = declared bytes ↔ Complete bytes s.blocks.capacity := by
  rw [complete_iff (Nat.le_of_succ_le hdeclared), ← Blocks.length_entries]
  apply (recovered_of_version h).length_eq_iff _ hdeclared
  exact Nat.le_trans (length_held_le ..) (Nat.min_le_left ..)

theorem notices_of_version (h : bytes.head? = some version) (hdeclared : 1 ≤ declared bytes) :
    (s.restore bytes).2 =
      let depth := (s.restore bytes).1.blocks.depth
      if depth ≠ declared bytes then [.malformed (declared bytes) depth] else [] := by
  rw [restore_of_version h]
  simp only [show 0 < declared bytes from hdeclared, true_and]

theorem depth_eq_one (h : bytes.head? = some version) (hdeclared : declared bytes = 1) :
    (s.restore bytes).1.blocks.depth = 1 := by
  have hdepth := depth_le_of_version (s := s) h
  have hpos : 0 < (s.restore bytes).1.blocks.depth := Nat.succ_pos _
  omega

/-- Incomplete bytes of the known version are reported, unless they declare a single block: that one
is there without being read. -/
theorem malformed_reported_iff (h : bytes.head? = some 1) (hdeclared : 1 ≤ declared bytes) :
    (∃ n ∈ (s.restore bytes).2, n.code = .malformed) ↔
      ¬Complete bytes s.blocks.capacity ∧ declared bytes ≠ 1 := by
  have hreported : (∃ n ∈ (s.restore bytes).2, n.code = .malformed) ↔
      (s.restore bytes).1.blocks.depth ≠ declared bytes := by
    rw [notices_of_version h hdeclared]
    by_cases hdepth : (s.restore bytes).1.blocks.depth = declared bytes
    · simp [hdepth]
    · simp [hdepth, Notice.code]
  rw [hreported]
  rcases Nat.lt_or_eq_of_le hdeclared with hmany | hone
  · rw [ne_eq, depth_eq_declared_iff h hmany]
    exact ⟨fun hc => ⟨hc, Nat.ne_of_gt hmany⟩, And.left⟩
  · rw [depth_eq_one h hone.symm]
    exact ⟨fun hc => absurd hone hc, fun hc => absurd hone.symm hc.2⟩

theorem malformed_reported_iff_equal :
    let s : Scanner := create {}
    let bytes : Bytes := [1, 2, 0xFF, 0xFF, 0, 0, 0, 0]
    bytes.head? = some 1 ∧ 1 ≤ declared bytes ∧ ¬Complete bytes s.blocks.capacity ∧
      ∃ n ∈ (s.restore bytes).2, n.code = .malformed := by
  intro s bytes
  have hincomplete : ¬Complete bytes s.blocks.capacity := fun h =>
    absurd (h.increasing 0 1 (by decide) (by decide)) (by decide)
  refine ⟨rfl, by decide, hincomplete, ?_⟩
  exact (malformed_reported_iff rfl (by decide)).2 ⟨hincomplete, by decide⟩

/-- The only block that is declared does not have the width of the base, and nothing is reported. -/
theorem restore_silent_of_wrong_base :
    let s : Scanner := create {}
    let bytes : Bytes := [1, 1, 0xFF, 0xFF, 5, 0]
    bytes.head? = some 1 ∧ 1 ≤ declared bytes ∧ ¬Complete bytes s.blocks.capacity ∧
      (s.restore bytes).2 = [] := by
  intro s bytes
  have hincomplete : ¬Complete bytes s.blocks.capacity := fun h => absurd h.base (by decide)
  exact ⟨rfl, by decide, hincomplete, by decide⟩

end Scanner

end Offside
