import Offside.Proofs.Decision
import Offside.Proofs.Scanner

/-! Deferred dedents. The width of a line that asks for a dedent is put off as long as dedents are
not accepted, and lines that are measured meanwhile may say otherwise. Main statement: a dedent
closes a block wider than the line that was measured last, except where that line stood no lower
than its block and the deferred width was still kept. -/

namespace Offside

/-- The scan measured a line no narrower than the innermost block, and a dedent is still put off. -/
def Outcome.Overlooks (o : Outcome) : Prop :=
  ∃ width, o.measured? = some width ∧ o.scanner.blocks.current ≤ width ∧ o.scanner.deferred ≠ none

/-- The last of some scans that measured a line break. -/
def lastMeasuring (outcomes : List Outcome) : Option Outcome :=
  outcomes.reverse.find? (·.measured?.isSome)

namespace Scanner

def scans (s : Scanner) : List (List Kind × Cursor) → List Outcome
  | [] => []
  | (accepted, cursor) :: rest =>
    s.scan accepted cursor :: (s.scan accepted cursor).scanner.scans rest

def behind (s : Scanner) : List Outcome → Scanner
  | [] => s
  | o :: rest => o.scanner.behind rest

end Scanner

section LastMeasuring

variable {past : List Outcome} {o : Outcome}

theorem lastMeasuring_of_none (h : o.measured? = none) :
    lastMeasuring (past ++ [o]) = lastMeasuring past := by
  rw [lastMeasuring, List.reverse_append]
  exact List.find?_cons_of_neg (by rw [h]; exact Bool.false_ne_true)

theorem lastMeasuring_of_some {width : Nat} (h : o.measured? = some width) :
    lastMeasuring (past ++ [o]) = some o := by
  rw [lastMeasuring, List.reverse_append]
  exact List.find?_cons_of_pos (by rw [h]; rfl)

end LastMeasuring

namespace Scanner

variable {s : Scanner}

theorem lt_current_of_deferred_dedentTo {target width : Int}
    (h : (s.dedentTo target).deferred = some width) :
    width = target ∧ target < (s.dedentTo target).blocks.current := by
  rw [dedentTo] at h
  dsimp only at h
  split at h
  · cases h
  · rename_i hlt
    cases h
    exact ⟨rfl, Int.not_le.1 hlt⟩

theorem deferred_of_ready {accepted : List Kind} {target : Int}
    (h : (s.ready accepted).deferred = some target) : s.deferred = some target := by
  rw [ready] at h
  split at h
  · cases h
  · exact h

end Scanner

namespace Decision

variable {accepted : List Kind} {s s' : Scanner} {kind : Option Kind} {width : Nat} {target : Int}

theorem deferred_of_unmeasured (h : Decision accepted s kind none s')
    (hd : s'.deferred = some target) : s.deferred = some target := by
  cases h with
  | text => exact hd
  | owed _ ho =>
    obtain ⟨rfl, -⟩ := Scanner.lt_current_of_deferred_dedentTo hd
    exact ho.1
  | pass => exact Scanner.deferred_of_ready hd

theorem current_le_of_unmeasured (h : Decision accepted s kind none s') (hs : s.blocks.Sound) :
    s'.blocks.current ≤ s.blocks.current := by
  cases h with
  | text => exact Nat.le_refl _
  | owed => exact hs.current_pop_le
  | pass => exact Nat.le_of_eq (congrArg Blocks.current (Scanner.blocks_ready s accepted))

theorem deferred_of_measured (h : Decision accepted s kind (some width) s')
    (hd : s'.deferred = some target) : width < s'.blocks.current → target = width := by
  intro hlt
  cases h with
  | indent => cases hd
  | capped => cases hd
  | dedent => exact (Scanner.lt_current_of_deferred_dedentTo hd).1
  | defer => cases hd; rfl
  | level _ hle =>
    rw [Scanner.blocks_ready] at hlt
    exact absurd hlt (Nat.not_lt.2 hle)

theorem dedent_cases {measured : Option Nat} (h : Decision accepted s (some .dedent) measured s') :
    (measured = none ∧ ∃ target, s.Owes target) ∨
      ∃ width, measured = some width ∧ width < s.blocks.current ∧
        (s'.deferred ≠ none → width < s'.blocks.current) := by
  cases h with
  | text hk => rcases (hk .dedent rfl).2 with h | h <;> cases h
  | owed _ ho => exact .inl ⟨rfl, _, ho⟩
  | dedent _ _ hw =>
    refine .inr ⟨_, rfl, hw, ?_⟩
    intro hd
    obtain ⟨target, htarget⟩ := Option.ne_none_iff_exists'.1 hd
    exact Int.ofNat_lt.1 (Scanner.lt_current_of_deferred_dedentTo htarget).2
  | defer _ _ hk => cases (hk .dedent rfl).2
  | level _ _ _ hk => cases (hk .dedent rfl).2

end Decision

def Accounts (past : List Outcome) (s : Scanner) : Prop :=
  ∀ target, s.deferred = some target → ∃ o width, lastMeasuring past = some o ∧
    o.measured? = some width ∧ (o.Overlooks → s.blocks.current ≤ width) ∧
    (¬o.Overlooks → target = width)

namespace Accounts

variable {past : List Outcome} {s : Scanner} {accepted : List Kind} {c : Cursor}

theorem scan (h : Accounts past s) (hs : s.blocks.Sound) :
    Accounts (past ++ [s.scan accepted c]) (s.scan accepted c).scanner := by
  have hdecision := s.scan_decides accepted c
  intro target hd
  cases hm : (s.scan accepted c).measured? with
  | none =>
    rw [hm] at hdecision
    obtain ⟨o, width, hlast, hwidth, hover, hkept⟩ := h target (hdecision.deferred_of_unmeasured hd)
    refine ⟨o, width, ?_, hwidth, ?_, hkept⟩
    · rw [lastMeasuring_of_none hm, hlast]
    · intro ho
      exact Nat.le_trans (hdecision.current_le_of_unmeasured hs) (hover ho)
  | some width =>
    rw [hm] at hdecision
    refine ⟨_, width, lastMeasuring_of_some hm, hm, ?_, ?_⟩
    · rintro ⟨w, hw, hle, -⟩
      rw [hm, Option.some.injEq] at hw
      rwa [← hw] at hle
    · intro ho
      apply hdecision.deferred_of_measured hd
      apply Nat.not_le.1
      intro hle
      exact ho ⟨width, hm, hle, by rw [hd]; exact Option.some_ne_none target⟩

theorem dedent (h : Accounts past s) (hk : (s.scan accepted c).kind = some .dedent) :
    ∃ o width, lastMeasuring (past ++ [s.scan accepted c]) = some o ∧ o.measured? = some width ∧
      (width < s.blocks.current ↔ ¬o.Overlooks) := by
  have hdecision := s.scan_decides accepted c
  rw [hk] at hdecision
  rcases hdecision.dedent_cases with ⟨hm, target, htarget, hlt, -⟩ | ⟨width, hm, hlt, hd⟩
  · obtain ⟨o, width, hlast, hwidth, hover, hkept⟩ := h target htarget
    refine ⟨o, width, ?_, hwidth, ?_, ?_⟩
    · rw [lastMeasuring_of_none hm, hlast]
    · intro hw ho
      exact absurd hw (Nat.not_lt.2 (hover ho))
    · intro ho
      rw [hkept ho] at hlt
      exact Int.ofNat_lt.1 hlt
  · refine ⟨_, width, lastMeasuring_of_some hm, hm, ?_⟩
    apply iff_of_true hlt
    rintro ⟨w, hw, hle, hne⟩
    rw [hm, Option.some.injEq] at hw
    rw [← hw] at hle
    exact absurd (hd hne) (Nat.not_lt.2 hle)

end Accounts

namespace Scanner

theorem dedent_of_scans {settings : Settings} {limit : Nat} {calls : List (List Kind × Cursor)}
    {s : Scanner} {past before after : List Outcome} {o : Outcome} (h : Accounts past s)
    (hs : s.Sound settings limit) (hl : Margin.maxWidth ≤ limit)
    (hscans : s.scans calls = before ++ o :: after) (hk : o.kind = some .dedent) :
    ∃ last width, lastMeasuring (past ++ before ++ [o]) = some last ∧ last.measured? = some width ∧
      (width < (s.behind before).blocks.current ↔ ¬last.Overlooks) := by
  induction calls generalizing s past before with
  | nil => simp [scans] at hscans
  | cons call rest ih =>
    obtain ⟨accepted, c⟩ := call
    rw [scans] at hscans
    cases before with
    | nil =>
      obtain ⟨rfl, -⟩ := List.cons.inj hscans
      rw [List.append_nil]
      exact h.dedent hk
    | cons first before =>
      obtain ⟨rfl, hrest⟩ := List.cons.inj hscans
      rw [List.append_cons past]
      exact ih (h.scan hs.blocks) (hs.scan hl accepted c) hrest

/-- In every run of scans from a new scanner, whenever a dedent is returned some line was measured
before or with it, and the last such line is narrower than the block that is closed exactly if it
did not overlook the dedent. -/
theorem dedent_lt_iff_not_overlooked (maxDepth bufferSize : Option Number)
    (calls : List (List Kind × Cursor)) {before after : List Outcome} {o : Outcome}
    (hscans : (create (.ofNumbers maxDepth bufferSize)).scans calls = before ++ o :: after)
    (hk : o.kind = some .dedent) :
    ∃ last width, lastMeasuring (before ++ [o]) = some last ∧ last.measured? = some width ∧
      (width < ((create (.ofNumbers maxDepth bufferSize)).behind before).blocks.current ↔
        ¬last.Overlooks) := by
  have hsound := sound_create Margin.maxWidth (Settings.capacity_bounds maxDepth bufferSize).1
  have hnew : Accounts [] (create (.ofNumbers maxDepth bufferSize)) := by
    rintro target ⟨⟩
  exact dedent_of_scans hnew hsound (Nat.le_refl _) hscans hk

def retracted : List (List Kind × Cursor) :=
  [([.indent], .ofText [.lineFeed, .space, .space, .bar]),
    ([.newline], .ofText [.lineFeed, .bar]),
    ([.newline], .ofText [.lineFeed, .space, .space, .bar]),
    ([.dedent], .ofText [.bar])]

theorem dedent_lt_iff_not_overlooked_retracted :
    let s := create (.ofNumbers none none)
    let before := (s.scans retracted).take 3
    let o := (s.behind before).scan [.dedent] (.ofText [.bar])
    s.scans retracted = before ++ [o] ∧ o.kind = some .dedent ∧
      ∃ last width, lastMeasuring (before ++ [o]) = some last ∧ last.measured? = some width ∧
        (width < (s.behind before).blocks.current ↔ ¬last.Overlooks) :=
  ⟨rfl, rfl, dedent_lt_iff_not_overlooked none none retracted rfl rfl⟩

/-- Not every dedent closes a block wider than the line that was measured last. -/
theorem dedent_of_overlooked :
    ¬∀ (calls : List (List Kind × Cursor)) (before after : List Outcome) (o : Outcome),
      (create (.ofNumbers none none)).scans calls = before ++ o :: after →
      o.kind = some .dedent →
      ∃ last width, lastMeasuring (before ++ [o]) = some last ∧ last.measured? = some width ∧
        width < ((create (.ofNumbers none none)).behind before).blocks.current := by
  intro h
  obtain ⟨last, width, hlast, hwidth, hlt⟩ :=
    h retracted (((create (.ofNumbers none none)).scans retracted).take 3) [] _ rfl rfl
  cases hlast
  cases hwidth
  exact absurd hlt (by decide)

end Scanner

end Offside
