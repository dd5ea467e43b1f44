import Offside.Proofs.Blocks
import Offside.Proofs.Deferral

/-! How many blocks one line closes. A line narrower than the innermost block closes the blocks that
are wider than it, at its own line break or later, one at each scan that can give a dedent. Main
statement: whatever is scanned in between, these dedents close all blocks wider than the line and no
other. -/

namespace Offside

/-- A scan that can give a dedent: it accepts them and does not turn to instruction text. -/
def Closes (call : List Kind × Cursor) : Prop := .dedent ∈ call.1 ∧ ¬call.2.ReadsText call.1

instance : DecidablePred Closes := fun _ => inferInstanceAs (Decidable (_ ∧ _))

namespace Scanner

/-- How a scan goes on the way down to the widths `within`: nothing changes where no dedent can be
given; otherwise one block is closed, until none but those within are open and nothing is deferred
any more. -/
structure Descends (within : List Nat) (s : Scanner) (call : List Kind × Cursor) : Prop where
  unchanged : ¬Closes call → (s.scan call.1 call.2).scanner = s
  closes : Closes call → s.blocks.entries ≠ within →
    (s.scan call.1 call.2).kind = some .dedent ∧
      s.blocks.entries = (s.scan call.1 call.2).scanner.blocks.entries ++ [s.blocks.current]
  settled : s.blocks.entries = within → s.deferred = none
  declines : Closes call → s.blocks.entries = within →
    (s.scan call.1 call.2).kind = none ∧ (s.scan call.1 call.2).scanner = s

structure Descending (entries : List Nat) (width : Nat) (s : Scanner) : Prop where
  opened : ∃ closed, entries = s.blocks.entries ++ closed ∧ ∀ w ∈ closed, width < w
  deferred : s.deferred = if s.blocks.current ≤ width then none else some (width : Int)

def wider (s : Scanner) (width : Nat) : Nat := s.blocks.entries.countP (width < ·)

variable {s : Scanner} {accepted : List Kind} {c : Cursor} {width : Nat} {entries : List Nat}

theorem wider_dedentTo (h : width < s.blocks.current) :
    s.wider width = (s.dedentTo width).wider width + 1 := by
  have hne := Blocks.opened_ne_nil_of_lt_current h
  rw [wider, Blocks.entries_of_ne_nil hne, List.countP_append]
  simp [wider, dedentTo, h]

theorem wider_eq_zero_iff (h : s.blocks.entries.Pairwise (· < ·)) :
    s.wider width = 0 ↔ s.blocks.current ≤ width := by
  rw [wider, List.countP_eq_zero, ← Blocks.forall_le_iff_current_le h]
  simp

namespace Descending

theorem increasing (h : s.Descending entries width) (hs : entries.Pairwise (· < ·)) :
    s.blocks.entries.Pairwise (· < ·) := by
  obtain ⟨closed, rfl, -⟩ := h.opened
  exact (List.pairwise_append.1 hs).1

theorem entries_eq_iff (h : s.Descending entries width) (hs : entries.Pairwise (· < ·)) :
    s.blocks.entries = entries.filter (· ≤ width) ↔ s.blocks.current ≤ width := by
  have hopen := h.increasing hs
  obtain ⟨closed, rfl, hclosed⟩ := h.opened
  have hnone : closed.filter (· ≤ width) = [] := by
    rw [List.filter_eq_nil_iff]
    intro w hw
    simpa using hclosed w hw
  rw [List.filter_append, hnone, List.append_nil, eq_comm, List.filter_eq_self,
    ← Blocks.forall_le_iff_current_le hopen]
  simp

theorem dedentTo (h : s.Descending entries width) (hlt : width < s.blocks.current) :
    (s.dedentTo width).Descending entries width := by
  obtain ⟨closed, hentries, hclosed⟩ := h.opened
  refine ⟨⟨s.blocks.current :: closed, ?_, ?_⟩, ?_⟩
  · rw [hentries, Blocks.entries_of_ne_nil (Blocks.opened_ne_nil_of_lt_current hlt),
      List.append_assoc]
    rfl
  · intro w hw
    rcases List.mem_cons.1 hw with rfl | hw
    · exact hlt
    · exact hclosed w hw
  · simp [Scanner.dedentTo]

theorem owes (h : s.Descending entries width) (hlt : width < s.blocks.current) :
    s.Owes width := by
  refine ⟨?_, Int.ofNat_lt.2 hlt, Blocks.one_lt_depth (Blocks.opened_ne_nil_of_lt_current hlt)⟩
  rw [h.deferred, if_neg (Nat.not_le.2 hlt)]

theorem scan_cases (h : s.Descending entries width) (accepted : List Kind)
    (hb : c.atBreak = false) :
    (Closes (accepted, c) ∧ width < s.blocks.current ∧
      (s.scan accepted c).kind = some .dedent ∧
      (s.scan accepted c).scanner = s.dedentTo width) ∨
    ((Closes (accepted, c) → s.blocks.current ≤ width ∧ (s.scan accepted c).kind = none) ∧
      (s.scan accepted c).kind ≠ some .dedent ∧ (s.scan accepted c).scanner = s) := by
  have hkind : (s.scan accepted c).kind = (s.pick accepted c).kind := rfl
  have hscanner : (s.scan accepted c).scanner = (s.pick accepted c).scanner := rfl
  rw [hkind, hscanner]
  by_cases ht : c.ReadsText accepted
  · obtain ⟨kind, c', htext, hpick⟩ := pick_of_readsText (s := s) ht
    rw [hpick]
    refine .inr ⟨fun hcloses => absurd ht hcloses.2, ?_, rfl⟩
    intro hdedent
    rcases (htext .dedent hdedent).2 with h | h <;> cases h
  · by_cases hd : .dedent ∈ accepted
    · rcases Nat.lt_or_ge width s.blocks.current with hlt | hle
      · rw [pick_of_owed ht hd (h.owes hlt)]
        exact .inl ⟨⟨hd, ht⟩, hlt, rfl, rfl⟩
      · have hnone : s.deferred = none := by rw [h.deferred, if_pos hle]
        have hwaits : s.Waits accepted := by
          rintro - target ⟨hsome, -⟩
          cases hnone.symm.trans hsome
        have hready : s.ready accepted = s := by
          rw [ready, if_pos hd, Scanner.settled, ← hnone]
        rw [pick_of_waits ht hwaits, hb, hready]
        exact .inr ⟨fun _ => ⟨hle, rfl⟩, (Option.some_ne_none _).symm, rfl⟩
    · have hready : s.ready accepted = s := if_neg hd
      rw [pick_of_waits ht fun h => absurd h hd, hb, hready]
      exact .inr ⟨fun hcloses => absurd hcloses.1 hd, (Option.some_ne_none _).symm, rfl⟩

theorem scan (h : s.Descending entries width) (accepted : List Kind) (hb : c.atBreak = false) :
    (s.scan accepted c).scanner.Descending entries width := by
  rcases h.scan_cases accepted hb with ⟨-, hlt, -, heq⟩ | ⟨-, -, heq⟩
  · rw [heq]
    exact h.dedentTo hlt
  · rw [heq]
    exact h

theorem descends (h : s.Descending entries width) (hs : entries.Pairwise (· < ·))
    (hb : c.atBreak = false) : s.Descends (entries.filter (· ≤ width)) (accepted, c) := by
  rcases h.scan_cases accepted hb with ⟨hcloses, hlt, hkind, heq⟩ | ⟨hnone, -, heq⟩
  · have hopen : s.blocks.entries ≠ entries.filter (· ≤ width) :=
      mt (h.entries_eq_iff hs).1 (Nat.not_le.2 hlt)
    refine ⟨fun hn => absurd hcloses hn, fun _ _ => ⟨hkind, ?_⟩, fun he => absurd he hopen,
      fun _ he => absurd he hopen⟩
    rw [heq]
    exact Blocks.entries_of_ne_nil (Blocks.opened_ne_nil_of_lt_current hlt)
  · refine ⟨fun _ => heq, fun hc hopen => ?_, fun he => ?_, fun hc _ => ⟨(hnone hc).2, heq⟩⟩
    · exact absurd ((h.entries_eq_iff hs).2 (hnone hc).1) hopen
    · rw [h.deferred, if_pos ((h.entries_eq_iff hs).1 he)]

theorem scans (h : s.Descending entries width) (hs : entries.Pairwise (· < ·))
    {calls : List (List Kind × Cursor)} (hcalls : ∀ call ∈ calls, call.2.atBreak = false) :
    (s.behind (s.scans calls)).Descending entries width ∧
      (s.scans calls).countP (·.kind = some .dedent) = min (s.wider width) (calls.countP Closes) ∧
      (s.behind (s.scans calls)).wider width = s.wider width - calls.countP Closes := by
  induction calls generalizing s with
  | nil => exact ⟨h, by simp [Scanner.scans], rfl⟩
  | cons call rest ih =>
    obtain ⟨accepted, c⟩ := call
    have hb : c.atBreak = false := hcalls _ List.mem_cons_self
    obtain ⟨hrest, hcount, hwider⟩ :=
      ih (h.scan accepted hb) fun call hmem => hcalls call (List.mem_cons_of_mem _ hmem)
    refine ⟨hrest, ?_⟩
    rw [Scanner.scans, behind, List.countP_cons, List.countP_cons, hcount, hwider]
    rcases h.scan_cases accepted hb with ⟨hcloses, hlt, hkind, heq⟩ | ⟨hnone, hkind, heq⟩
    · have hfewer := wider_dedentTo hlt
      rw [heq]
      simp only [hkind, hcloses, decide_true, if_true]
      omega
    · rw [heq]
      simp only [hkind, decide_false, Bool.false_eq_true, if_false, Nat.add_zero]
      by_cases hcloses : Closes (accepted, c)
      · have hzero := (wider_eq_zero_iff (h.increasing hs)).2 (hnone hcloses).1
        omega
      · simp [hcloses]

end Descending

theorem scan_of_narrower (hd : s.deferred = none) (hn : ¬c.ReadsText accepted)
    (hbreak : c.measureBreak.1 = some width) (hlt : width < s.blocks.current) :
    (.dedent ∈ accepted ∧ (s.scan accepted c).kind = some .dedent ∧
      (s.scan accepted c).scanner = s.dedentTo width) ∨
    (.dedent ∉ accepted ∧ (s.scan accepted c).kind ≠ some .dedent ∧
      (s.scan accepted c).scanner = { s with deferred := some (width : Int) }) := by
  have hwaits : s.Waits accepted := by
    rintro - target ⟨hsome, -⟩
    cases hd.symm.trans hsome
  have hmeasured : (s.scan accepted c).measured? = some width := by
    rw [measured_scan, pick_of_measureBreak hn hwaits (Prod.ext hbreak rfl), measured_decideBreak]
  have hdecision := s.scan_decides accepted c
  rw [hmeasured] at hdecision
  generalize (s.scan accepted c).kind = kind, (s.scan accepted c).scanner = s' at hdecision ⊢
  cases hdecision with
  | indent _ _ hgt => exact absurd hgt (Nat.lt_asymm hlt)
  | capped _ _ hgt => exact absurd hgt (Nat.lt_asymm hlt)
  | dedent _ hdedent => exact .inl ⟨hdedent, rfl, rfl⟩
  | defer hdedent _ hk =>
    refine .inr ⟨hdedent, ?_, rfl⟩
    rintro rfl
    cases (hk .dedent rfl).2
  | level _ hle => exact absurd hle (Nat.not_le.2 hlt)

theorem descending_of_narrower (hd : s.deferred = none) (hn : ¬c.ReadsText accepted)
    (hbreak : c.measureBreak.1 = some width) (hlt : width < s.blocks.current) :
    (s.scan accepted c).scanner.Descending s.blocks.entries width := by
  rcases scan_of_narrower hd hn hbreak hlt with ⟨-, -, heq⟩ | ⟨-, -, heq⟩
  · rw [heq]
    refine ⟨⟨[s.blocks.current], ?_, ?_⟩, ?_⟩
    · exact Blocks.entries_of_ne_nil (Blocks.opened_ne_nil_of_lt_current hlt)
    · simpa using hlt
    · simp [dedentTo]
  · rw [heq]
    exact ⟨⟨[], (List.append_nil _).symm, List.forall_mem_nil _⟩, (if_neg (Nat.not_le.2 hlt)).symm⟩

/-- A line of a width below the innermost block is scanned with nothing deferred and no instruction
text accepted, and then any scans follow that are not made at line breaks. Each of these goes down
toward the blocks no wider than the line; the dedents are as many as there are wider blocks, or as
there are scans that can give one, if these are fewer; and if they are not, only the blocks no wider
than the line stay open and nothing stays deferred. -/
theorem line_closes_wider (hs : s.blocks.entries.Pairwise (· < ·)) (hd : s.deferred = none)
    (hi : .interpolationStart ∉ accepted) (ht : .textSegment ∉ accepted)
    (hbreak : c.measureBreak.1 = some width) (hlt : width < s.blocks.current)
    (calls : List (List Kind × Cursor)) (hcalls : ∀ call ∈ calls, call.2.atBreak = false) :
    let within := s.blocks.entries.filter (· ≤ width)
    let wider := s.blocks.entries.countP (width < ·)
    let first := s.scan accepted c
    let later := first.scanner.scans calls
    let tries := ((accepted, c) :: calls).countP Closes
    (∀ before call after, calls = before ++ call :: after →
        (first.scanner.behind (first.scanner.scans before)).Descends within call) ∧
      (first :: later).countP (·.kind = some .dedent) = min wider tries ∧
      (wider ≤ tries → (first.scanner.behind later).blocks.entries = within ∧
        (first.scanner.behind later).deferred = none) := by
  intro within wider first later tries
  have hn : ¬c.ReadsText accepted := by
    rintro (⟨h, -⟩ | ⟨h, -⟩)
    · exact hi h
    · exact ht h
  have hfirst : first.scanner.Descending s.blocks.entries width :=
    descending_of_narrower hd hn hbreak hlt
  obtain ⟨hlast, hcount, hwider⟩ := hfirst.scans hs hcalls
  have htotal : (first :: later).countP (·.kind = some .dedent) = min (s.wider width) tries ∧
      (first.scanner.behind later).wider width = s.wider width - tries := by
    rw [List.countP_cons, hcount, hwider]
    simp only [tries, List.countP_cons]
    rcases scan_of_narrower hd hn hbreak hlt with ⟨hdedent, hkind, heq⟩ | ⟨hdedent, hkind, heq⟩
    · have hcloses : Closes (accepted, c) := ⟨hdedent, hn⟩
      have hfewer : s.wider width = (s.scan accepted c).scanner.wider width + 1 := by
        rw [heq]
        exact wider_dedentTo hlt
      simp only [first, hkind, hcloses, decide_true, if_true]
      omega
    · have hcloses : ¬Closes (accepted, c) := fun h => hdedent h.1
      have hsame : s.wider width = (s.scan accepted c).scanner.wider width := by
        rw [heq]
        rfl
      simp only [first, hkind, hcloses, decide_false, Bool.false_eq_true, if_false, Nat.add_zero]
      omega
  refine ⟨?_, htotal.1, ?_⟩
  · rintro before call after rfl
    have hbefore := (hfirst.scans hs fun call hmem => hcalls call (List.mem_append_left _ hmem)).1
    exact hbefore.descends hs (hcalls call (by simp))
  · intro henough
    have hle : (first.scanner.behind later).blocks.current ≤ width := by
      rw [← wider_eq_zero_iff (hlast.increasing hs), htotal.2]
      exact Nat.sub_eq_zero_of_le henough
    exact ⟨(hlast.entries_eq_iff hs).2 hle, by rw [hlast.deferred, if_pos hle]⟩

theorem line_closes_wider_between :
    let s : Scanner := ⟨⟨100, [6, 4, 2]⟩, none, .bytes 1024⟩
    let c := Cursor.ofText [.lineFeed, .space, .space, .space, .bar]
    let calls := [([.dedent, .newline], .ofText [.bar]), ([.dedent, .textSegment], .ofText [.bar]),
      ([.dedent, .textSegment], .ofText [.openBrace]), ([.dedent], .ofText [.bar])]
    let first := s.scan [.newline] c
    c.measureBreak.1 = some 3 ∧ first.kind = some .newline ∧
      (first :: first.scanner.scans calls).countP (·.kind = some .dedent) = 2 ∧
      (first.scanner.behind (first.scanner.scans calls)).blocks.entries = [0, 2] ∧
      (first.scanner.behind (first.scanner.scans calls)).deferred = none := by
  intro s c calls first
  have hfirst : first.kind = some .newline := by decide
  have hinterpolation : Kind.interpolationStart ∉ [Kind.newline] := by decide
  have hbreak : c.measureBreak.1 = some 3 := by decide
  obtain ⟨-, hcount, hlast⟩ := @line_closes_wider s [.newline] c 3 (by decide) rfl hinterpolation
    (by decide) hbreak (by decide) calls (by decide)
  obtain ⟨hentries, hdeferred⟩ := hlast (by decide)
  exact ⟨hbreak, hfirst, hcount, hentries, hdeferred⟩

end Scanner

end Offside
