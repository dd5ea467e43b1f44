import Offside.Proofs.Blocks
import Offside.Proofs.Decision
import Offside.Proofs.Line

/-! What one scan changes and reports. Main statement: a scan gives only a kind that is accepted;
instruction text leaves the scanner alone, a newline and a decline leave the blocks alone, a dedent
closes one block and an indent opens one; nothing is reported but an indent past the capacity. -/

namespace Offside

def Outcome.notices (o : Outcome) : List Notice := o.events.filterMap Event.notice?

/-- What becomes of a scanner `s`, and what is reported, in a scan at `c` that gives a token of some
kind or none. -/
def Effect (s : Scanner) (c : Cursor) (s' : Scanner) (notices : List Notice) : Option Kind → Prop
  | none | some .newline => s'.blocks = s.blocks ∧ notices = []
  | some .textSegment | some .interpolationStart => s' = s ∧ notices = []
  | some .dedent =>
    2 ≤ s.blocks.entries.length ∧ s'.blocks.entries = s.blocks.entries.dropLast ∧ notices = []
  | some .indent =>
    s'.deferred = none ∧
      ∃ width, c.measureBreak.1 = some width ∧ Text.codeWidth? c.ahead.lines.tail = some width ∧
        s.blocks.current < width ∧
        if s.blocks.depth < s.blocks.capacity then
          s'.blocks.entries = s.blocks.entries ++ [width] ∧ notices = []
        else s'.blocks = s.blocks ∧ notices = [.depthLimit s.blocks.capacity width]
  | some .content | some .endOfInput => False

theorem Cursor.codeWidth?_of_measureBreak {c c' : Cursor} {width : Nat}
    (h : c.measureBreak = (some width, c')) (hpos : 0 < width) :
    Text.codeWidth? c.ahead.lines.tail = some width := by
  rcases measureBreak_eq_some h with ⟨k, -, rfl⟩ | ⟨k, rest, hahead, rfl⟩
  · exact absurd hpos (Nat.lt_irrefl 0)
  · have hreturns : .lineFeed ∉ Text.returns k :=
      Text.lineFeed_not_mem_of_forall rfl (Text.isLayout_returns k)
    rw [hahead, Text.lines_append hreturns (Text.lines_lineFeed rest), List.tail_cons]
    rw [Margin.width_ofText] at hpos ⊢
    cases hwidth : Text.codeWidth? (Text.lines rest) with
    | none =>
      rw [hwidth] at hpos
      exact absurd hpos (Nat.lt_irrefl 0)
    | some width => rfl

namespace Scanner

variable {s : Scanner} {accepted : List Kind} {c : Cursor}

def reported (s : Scanner) (kind : Option Kind) (measured : Option Nat) : List Notice :=
  match kind, measured with
  | some .indent, some width =>
    if s.blocks.depth < s.blocks.capacity then [] else [.depthLimit s.blocks.capacity width]
  | _, _ => []

theorem reported_of_ne {kind : Option Kind} (h : kind ≠ some .indent) (measured : Option Nat) :
    s.reported kind measured = [] := by
  rw [reported.eq_def]
  split
  · exact absurd rfl h
  · rfl

theorem notices_decideBreak (s : Scanner) (accepted : List Kind) (width : Nat) (c : Cursor) :
    (s.decideBreak accepted width c).notices =
      s.reported (s.decideBreak accepted width c).kind (some width) := by
  simp only [decideBreak]
  split
  · rename_i hi
    rw [Blocks.push?_of_lt hi.2]
    by_cases hroom : s.blocks.depth < s.blocks.capacity
    · rw [if_pos hroom]
      exact (if_pos hroom).symm
    · rw [if_neg hroom]
      exact (if_neg hroom).symm
  · split
    · rfl
    · have hk : (if .newline ∈ accepted ∧ ¬c.atEnd then some Kind.newline else none) ≠
          some .indent := by
        split <;> simp
      split <;> exact (reported_of_ne hk _).symm

theorem notices_eq_reported (s : Scanner) (accepted : List Kind) (c : Cursor) :
    (s.scan accepted c).notices =
        s.reported (s.scan accepted c).kind (s.scan accepted c).measured? ∧
      ∀ width, (s.scan accepted c).measured? = some width → c.measureBreak.1 = some width := by
  have hpick : (s.scan accepted c).notices = (s.pick accepted c).notices :=
    Reader.notices_scan s accepted c
  rw [measured_scan, hpick]
  change (s.pick accepted c).notices = s.reported (s.pick accepted c).kind _ ∧ _
  rcases pick_cases s accepted c with ⟨kind, c', -, h⟩ | ⟨target, -, -, h⟩ |
    ⟨-, ⟨c', h⟩ | ⟨width, c', hm, h⟩⟩
  · rw [h]
    refine ⟨?_, nofun⟩
    rw [reported.eq_def]
    split
    · rename_i hnone
      cases hnone
    · rfl
  · rw [h]
    exact ⟨rfl, nofun⟩
  · rw [h]
    exact ⟨rfl, nofun⟩
  · rw [h, measured_decideBreak, notices_decideBreak, hm]
    refine ⟨?_, fun _ hw => hw⟩
    simp only [reported, blocks_ready]

end Scanner

namespace Decision

variable {accepted : List Kind} {s s' : Scanner} {kind : Option Kind} {measured : Option Nat}

theorem accepts (h : Decision accepted s kind measured s') : ∀ k ∈ kind, k ∈ accepted := by
  intro k hk
  cases h with
  | text htext => exact (htext k hk).1
  | owed hd => exact Option.some.inj hk ▸ hd
  | pass => cases hk
  | indent _ hi => exact Option.some.inj hk ▸ hi
  | capped _ hi => exact Option.some.inj hk ▸ hi
  | dedent _ hd => exact Option.some.inj hk ▸ hd
  | defer _ _ hnewline => exact (hnewline k hk).1
  | level _ _ _ hnewline => exact (hnewline k hk).1

theorem frame (h : Decision accepted s kind measured s') :
    s'.blocks.capacity = s.blocks.capacity ∧ s'.budget = s.budget := by
  cases h with
  | text => exact ⟨rfl, rfl⟩
  | owed => exact ⟨rfl, rfl⟩
  | pass => exact ⟨by rw [Scanner.blocks_ready], Scanner.budget_ready s accepted⟩
  | indent _ _ _ hpush =>
    obtain ⟨-, -, rfl⟩ := Blocks.push?_eq_some_iff.1 hpush
    exact ⟨rfl, rfl⟩
  | capped => exact ⟨rfl, rfl⟩
  | dedent => exact ⟨rfl, rfl⟩
  | defer => exact ⟨rfl, rfl⟩
  | level => exact ⟨by rw [Scanner.blocks_ready], Scanner.budget_ready s accepted⟩

theorem effect {c : Cursor} (h : Decision accepted s kind measured s')
    (hm : ∀ width, measured = some width → s.blocks.current < width →
      c.measureBreak.1 = some width ∧ Text.codeWidth? c.ahead.lines.tail = some width) :
    Effect s c s' (s.reported kind measured) kind := by
  have hnewline : ∀ {t : Scanner}, t.blocks = s.blocks →
      (∀ k ∈ kind, k ∈ accepted ∧ k = .newline) → Effect s c t (s.reported kind measured) kind := by
    intro t ht hk
    cases hkind : kind with
    | none => exact ⟨ht, rfl⟩
    | some k =>
      obtain rfl := (hk k hkind).2
      exact ⟨ht, rfl⟩
  have hclosed : s.blocks.opened ≠ [] → 2 ≤ s.blocks.entries.length ∧
      s.blocks.pop.entries = s.blocks.entries.dropLast := by
    intro hne
    refine ⟨?_, ?_⟩
    · rw [Blocks.length_entries]
      exact Blocks.one_lt_depth hne
    · rw [Blocks.entries_of_ne_nil hne, List.dropLast_concat]
  cases h with
  | text htext =>
    cases hkind : kind with
    | none => exact ⟨rfl, rfl⟩
    | some k => rcases (htext k hkind).2 with rfl | rfl <;> exact ⟨rfl, rfl⟩
  | owed _ ho =>
    obtain ⟨hlen, hentries⟩ := hclosed (List.ne_nil_of_length_pos (Nat.lt_of_succ_lt_succ ho.2.2))
    exact ⟨hlen, hentries, rfl⟩
  | pass => exact ⟨Scanner.blocks_ready s accepted, rfl⟩
  | indent _ _ hlt hpush =>
    obtain ⟨-, hroom, -⟩ := Blocks.push?_eq_some_iff.1 hpush
    obtain ⟨hbreak, hcode⟩ := hm _ rfl hlt
    refine ⟨rfl, _, hbreak, hcode, hlt, ?_⟩
    rw [if_pos hroom]
    exact ⟨Blocks.entries_of_push? hpush, if_pos hroom⟩
  | capped _ _ hlt hpush =>
    have hroom : ¬s.blocks.depth < s.blocks.capacity := by
      intro hroom
      rw [Blocks.push?_of_lt hlt, if_pos hroom] at hpush
      cases hpush
    obtain ⟨hbreak, hcode⟩ := hm _ rfl hlt
    refine ⟨rfl, _, hbreak, hcode, hlt, ?_⟩
    rw [if_neg hroom]
    exact ⟨rfl, if_neg hroom⟩
  | dedent _ _ hlt =>
    obtain ⟨hlen, hentries⟩ := hclosed (Blocks.opened_ne_nil_of_lt_current hlt)
    exact ⟨hlen, hentries, rfl⟩
  | defer _ _ hk => exact hnewline rfl hk
  | level _ _ _ hk => exact hnewline (Scanner.blocks_ready s accepted) hk

end Decision

/-- Whatever the scanner, the cursor and the kinds that are accepted, a scan gives only a kind that
is accepted and has the effect that goes with it; the capacity and the budget stay as they are. -/
theorem Scanner.scan_effect (s : Scanner) (accepted : List Kind) (c : Cursor) :
    let o := s.scan accepted c
    (∀ kind ∈ o.kind, kind ∈ accepted) ∧ Effect s c o.scanner o.notices o.kind ∧
      o.scanner.blocks.capacity = s.blocks.capacity ∧ o.scanner.budget = s.budget := by
  intro o
  have hdecision := s.scan_decides accepted c
  obtain ⟨hnotices, hmeasured⟩ := notices_eq_reported s accepted c
  refine ⟨hdecision.accepts, ?_, hdecision.frame⟩
  rw [hnotices]
  apply hdecision.effect
  intro width hw hlt
  have hbreak := hmeasured width hw
  refine ⟨hbreak, ?_⟩
  exact Cursor.codeWidth?_of_measureBreak (Prod.ext hbreak rfl) (Nat.zero_lt_of_lt hlt)

end Offside
