import Offside.Proofs.Steps

/-! What one scan can do to a scanner, whatever kinds it accepts and wherever it stands. Everything
that scans preserve can be read off the ways to decide. -/

namespace Offside

def Event.width? : Event → Option Nat
  | .boundary width _ => some width
  | _ => none

/-- The width of the line break that a scan measured, if it came to measure one. -/
def Outcome.measured? (o : Outcome) : Option Nat := o.events.findSome? Event.width?

namespace Scanner

def ready (s : Scanner) (accepted : List Kind) : Scanner :=
  if .dedent ∈ accepted then s.settled else s

/-- No dedent is owed that would be accepted. -/
def Waits (s : Scanner) (accepted : List Kind) : Prop :=
  .dedent ∈ accepted → ∀ target, ¬s.Owes target

theorem blocks_ready (s : Scanner) (accepted : List Kind) :
    (s.ready accepted).blocks = s.blocks := by
  rw [ready]
  split <;> rfl

theorem budget_ready (s : Scanner) (accepted : List Kind) :
    (s.ready accepted).budget = s.budget := by
  rw [ready]
  split <;> rfl

end Scanner

/-- What a scan can do: the kind that it returns, the width of the line break that it measured, if
it came to measure one, and the scanner that it leaves. -/
inductive Decision (accepted : List Kind) :
    Scanner → Option Kind → Option Nat → Scanner → Prop
  | text {s kind} : (∀ k ∈ kind, k ∈ accepted ∧ (k = .interpolationStart ∨ k = .textSegment)) →
      Decision accepted s kind none s
  | owed {s target} : .dedent ∈ accepted → s.Owes target →
      Decision accepted s (some .dedent) none (s.dedentTo target)
  | pass {s} : s.Waits accepted → Decision accepted s none none (s.ready accepted)
  | indent {s width b} : s.Waits accepted → .indent ∈ accepted → s.blocks.current < width →
      s.blocks.push? width = some b →
      Decision accepted s (some .indent) (some width) { s with blocks := b, deferred := none }
  | capped {s width} : s.Waits accepted → .indent ∈ accepted → s.blocks.current < width →
      s.blocks.push? width = none → Decision accepted s (some .indent) (some width) s.settled
  | dedent {s width} : s.Waits accepted → .dedent ∈ accepted → width < s.blocks.current →
      Decision accepted s (some .dedent) (some width) (s.dedentTo width)
  | defer {s kind width} : .dedent ∉ accepted → width < s.blocks.current →
      (∀ k ∈ kind, k ∈ accepted ∧ k = .newline) →
      Decision accepted s kind (some width) { s with deferred := some (width : Int) }
  | level {s kind width} : s.Waits accepted → s.blocks.current ≤ width →
      (.indent ∈ accepted → width = s.blocks.current) →
      (∀ k ∈ kind, k ∈ accepted ∧ k = .newline) →
      Decision accepted s kind (some width) (s.ready accepted)

namespace Scanner

variable {s : Scanner} {accepted : List Kind}

theorem settle_cases (s : Scanner) (accepted : List Kind) :
    (∃ target, .dedent ∈ accepted ∧ s.Owes target ∧
      s.settle accepted = (some .dedent, s.dedentTo target)) ∨
    (s.Waits accepted ∧ s.settle accepted = (none, s.ready accepted)) := by
  by_cases hd : .dedent ∈ accepted
  · by_cases ho : ∃ target, s.Owes target
    · obtain ⟨target, ho⟩ := ho
      exact .inl ⟨target, hd, ho, settle_of_owes hd ho⟩
    · refine .inr ⟨fun _ => not_exists.1 ho, ?_⟩
      rw [settle_of_not_owes hd (not_exists.1 ho), ready, if_pos hd]
  · refine .inr ⟨fun h => absurd h hd, ?_⟩
    rw [settle, ready, if_neg hd]
    split
    · rfl
    · exact if_neg hd

theorem decideBreak_decides (hw : s.Waits accepted) (width : Nat) (c : Cursor) :
    Decision accepted s ((s.ready accepted).decideBreak accepted width c).kind (some width)
      ((s.ready accepted).decideBreak accepted width c).scanner := by
  have hnewline : ∀ k ∈ (if .newline ∈ accepted ∧ ¬c.atEnd then some Kind.newline else none),
      k ∈ accepted ∧ k = .newline := by
    intro k hk
    split at hk
    · rename_i hn
      cases hk
      exact ⟨hn.1, rfl⟩
    · cases hk
  simp only [decideBreak, blocks_ready, budget_ready]
  split
  · rename_i hi
    split
    · rename_i b hb
      exact .indent hw hi.1 hi.2 hb
    · rename_i hb
      exact .capped hw hi.1 hi.2 hb
  · rename_i hi
    split
    · rename_i hd
      have hto : s.dedentTo width =
          { s with
            blocks := s.blocks.pop
            deferred := if width < s.blocks.pop.current then some (width : Int)
              else (s.ready accepted).deferred } := by
        rw [ready, if_pos hd.1]
        rcases Nat.lt_or_ge width s.blocks.pop.current with h | h
        · simp [dedentTo, h, Nat.not_le.2 h]
        · simp [dedentTo, h, Nat.not_lt.2 h, settled]
      rw [← hto]
      exact .dedent hw hd.1 hd.2
    · rename_i hd
      split
      · rename_i hlt
        exact .defer (fun h => hd ⟨h, hlt⟩) hlt hnewline
      · rename_i hlt
        have hle := Nat.not_lt.1 hlt
        refine .level hw hle ?_ hnewline
        intro h
        exact Nat.le_antisymm (Nat.not_lt.1 fun hgt => hi ⟨h, hgt⟩) hle

theorem measured_decideBreak (s : Scanner) (accepted : List Kind) (width : Nat) (c : Cursor) :
    (s.decideBreak accepted width c).measured? = some width := by
  simp only [decideBreak]
  split
  · split <;> rfl
  · split
    · rfl
    · split <;> rfl

theorem measured_scan (s : Scanner) (accepted : List Kind) (c : Cursor) :
    (s.scan accepted c).measured? = (s.pick accepted c).measured? := by
  rw [Outcome.measured?, Outcome.measured?, scan]
  change ((s.pick accepted c).events ++ [Event.closed _ _]).findSome? Event.width? = _
  rw [List.findSome?_append]
  exact Option.or_none

theorem kind_interpolation {c : Cursor} (hi : .interpolationStart ∈ accepted) :
    ∀ k ∈ (c.interpolation accepted).1,
      k ∈ accepted ∧ (k = .interpolationStart ∨ k = .textSegment) := by
  intro k hk
  rw [Cursor.interpolation] at hk
  split at hk
  · cases hk
    exact ⟨hi, .inl rfl⟩
  · split at hk
    · rename_i ht
      cases hk
      exact ⟨ht, .inr rfl⟩
    · cases hk

section Pick

variable {c c' : Cursor} {width : Nat}

theorem pick_of_readsText (h : c.ReadsText accepted) :
    ∃ kind c', (∀ k ∈ kind, k ∈ accepted ∧ (k = .interpolationStart ∨ k = .textSegment)) ∧
      s.pick accepted c = ⟨kind, s, c', []⟩ := by
  simp only [pick]
  split
  · rename_i hi
    exact ⟨_, _, kind_interpolation hi.1, rfl⟩
  · rename_i hi
    have ht := h.resolve_left hi
    rw [if_pos ht]
    refine ⟨_, _, ?_, rfl⟩
    rintro k ⟨⟩
    exact ⟨ht.1, .inr rfl⟩

theorem pick_of_owed {target : Int} (h : ¬c.ReadsText accepted) (hd : .dedent ∈ accepted)
    (ho : s.Owes target) : s.pick accepted c = ⟨some .dedent, s.dedentTo target, c, []⟩ := by
  rw [pick_of_not_readsText h, settle_of_owes hd ho]

theorem pick_of_waits (h : ¬c.ReadsText accepted) (hw : s.Waits accepted) :
    s.pick accepted c =
      if c.atBreak then (s.ready accepted).lineBreak accepted c
      else ⟨none, s.ready accepted, c, []⟩ := by
  rw [pick_of_not_readsText h]
  rcases settle_cases s accepted with ⟨target, hd, ho, -⟩ | ⟨-, hs⟩
  · exact absurd ho (hw hd target)
  · rw [hs]

theorem pick_of_measureBreak (h : ¬c.ReadsText accepted) (hw : s.Waits accepted)
    (hm : c.measureBreak = (some width, c')) :
    s.pick accepted c = (s.ready accepted).decideBreak accepted width c' := by
  rw [pick_of_waits h hw, if_pos (Cursor.atBreak_of_measureBreak hm), lineBreak, hm]

theorem pick_cases (s : Scanner) (accepted : List Kind) (c : Cursor) :
    (∃ kind c', (∀ k ∈ kind, k ∈ accepted ∧ (k = .interpolationStart ∨ k = .textSegment)) ∧
      s.pick accepted c = ⟨kind, s, c', []⟩) ∨
    (∃ target, .dedent ∈ accepted ∧ s.Owes target ∧
      s.pick accepted c = ⟨some .dedent, s.dedentTo target, c, []⟩) ∨
    s.Waits accepted ∧ ((∃ c', s.pick accepted c = ⟨none, s.ready accepted, c', []⟩) ∨
      ∃ width c', c.measureBreak = (some width, c') ∧
        s.pick accepted c = (s.ready accepted).decideBreak accepted width c') := by
  by_cases ht : c.ReadsText accepted
  · exact .inl (pick_of_readsText ht)
  · refine .inr ?_
    rcases settle_cases s accepted with ⟨target, hd, ho, -⟩ | ⟨hw, -⟩
    · exact .inl ⟨target, hd, ho, pick_of_owed ht hd ho⟩
    · refine .inr ⟨hw, ?_⟩
      rcases hm : c.measureBreak with ⟨_ | width, c'⟩
      · refine .inl ?_
        rw [pick_of_waits ht hw]
        split
        · rw [lineBreak, hm]
          exact ⟨c', rfl⟩
        · exact ⟨c, rfl⟩
      · exact .inr ⟨width, c', rfl, pick_of_measureBreak ht hw hm⟩

end Pick

theorem scan_decides (s : Scanner) (accepted : List Kind) (c : Cursor) :
    Decision accepted s (s.scan accepted c).kind (s.scan accepted c).measured?
      (s.scan accepted c).scanner := by
  rw [measured_scan]
  change Decision accepted s (s.pick accepted c).kind _ (s.pick accepted c).scanner
  rcases pick_cases s accepted c with ⟨kind, c', hk, h⟩ | ⟨target, hd, ho, h⟩ |
    ⟨hw, ⟨c', h⟩ | ⟨width, c', -, h⟩⟩
  · rw [h]
    exact .text hk
  · rw [h]
    exact .owed hd ho
  · rw [h]
    exact .pass hw
  · rw [h, measured_decideBreak]
    exact decideBreak_decides hw width c'

end Scanner

end Offside
