import Mathlib.Data.List.DropRight
import Offside.Cursor

/-! Actions on a cursor, in any order. Main statement: the offset stays between the last begin and
the end of the text, so does every accepted token, and rewinding takes back all that was done since
the last begin. -/

namespace Offside

namespace Cursor

inductive Action where
  | begin
  | advance
  | skip
  | markEnd
  | accept
  | rewind
  deriving DecidableEq

def perform (c : Cursor) : Action → Cursor
  | .begin => c.begin
  | .advance => c.advance
  | .skip => c.skip
  | .markEnd => c.markEnd
  | .accept => c.accept
  | .rewind => c.rewind

def answer (c : Cursor) : Action → Option Span
  | .accept => some c.span
  | _ => none

def performAll (c : Cursor) (actions : List Action) : Cursor := actions.foldl perform c

def answers (c : Cursor) : List Action → List (Option Span × Cursor)
  | [] => []
  | action :: rest => (c.answer action, c.perform action) :: (c.perform action).answers rest

/-- The cursor that the last begin left, or the one before all actions. -/
def lastBegun (c : Cursor) (actions : List Action) : Cursor :=
  c.performAll (actions.rdropWhile (· ≠ .begin))

variable {c begun : Cursor}

theorem performAll_concat (c : Cursor) (actions : List Action) (action : Action) :
    c.performAll (actions ++ [action]) = (c.performAll actions).perform action := by
  rw [performAll, List.foldl_append]
  rfl

theorem lastBegun_concat_begin (c : Cursor) (actions : List Action) :
    c.lastBegun (actions ++ [.begin]) = (c.performAll actions).begin := by
  rw [lastBegun, List.rdropWhile_concat_neg _ _ _ (by decide), performAll_concat]
  rfl

theorem lastBegun_concat (c : Cursor) (actions : List Action) {action : Action}
    (h : action ≠ .begin) : c.lastBegun (actions ++ [action]) = c.lastBegun actions := by
  rw [lastBegun, List.rdropWhile_concat_pos _ _ _ (by simpa using h), lastBegun]

@[simp] theorem source_perform (c : Cursor) (action : Action) :
    (c.perform action).source = c.source := by
  cases action <;> rfl

@[simp] theorem source_performAll (c : Cursor) (actions : List Action) :
    (c.performAll actions).source = c.source := by
  induction actions using List.reverseRecOn with
  | nil => rfl
  | append_singleton actions action ih => rw [performAll_concat, source_perform, ih]

structure Since (begun c : Cursor) : Prop where
  rewind : c.rewind = begun
  le_offset : begun.offset ≤ c.offset
  offset_le : c.offset ≤ c.source.length
  le_start : begun.offset ≤ c.start
  mark : ∀ m ∈ c.mark, begun.offset ≤ m ∧ m ≤ c.source.length

namespace Since

theorem begin (h : c.offset ≤ c.source.length) : Since c.begin c.begin where
  rewind := rfl
  le_offset := Nat.le_refl _
  offset_le := h
  le_start := Nat.le_refl _
  mark := by simp

theorem origin_eq (h : Since begun c) : c.origin = begun.offset := congrArg offset h.rewind

theorem offset_min_remaining (h : Since begun c) (n : Nat) :
    begun.offset ≤ c.offset + min n c.remaining ∧
      c.offset + min n c.remaining ≤ c.source.length := by
  have hle := h.le_offset
  have hlength := h.offset_le
  rw [remaining]
  omega

theorem stop (h : Since begun c) :
    begun.offset ≤ c.mark.getD c.offset ∧ c.mark.getD c.offset ≤ c.source.length := by
  cases hmark : c.mark with
  | none => exact ⟨h.le_offset, h.offset_le⟩
  | some m => exact h.mark m hmark

theorem perform (h : Since begun c) {action : Action} (haction : action ≠ .begin) :
    Since begun (c.perform action) := by
  cases action with
  | begin => exact absurd rfl haction
  | advance =>
    exact ⟨h.rewind, (h.offset_min_remaining 1).1, (h.offset_min_remaining 1).2, h.le_start, h.mark⟩
  | skip =>
    refine ⟨h.rewind, (h.offset_min_remaining 1).1, (h.offset_min_remaining 1).2, ?_, h.mark⟩
    simp only [Cursor.perform, skip, skipBy]
    split
    · exact h.le_start
    · exact (h.offset_min_remaining 1).1
  | markEnd =>
    refine ⟨h.rewind, h.le_offset, h.offset_le, h.le_start, ?_⟩
    rintro m ⟨⟩
    exact ⟨h.le_offset, h.offset_le⟩
  | accept => exact ⟨h.rewind, h.stop.1, h.stop.2, h.le_start, h.mark⟩
  | rewind =>
    refine ⟨h.rewind, h.origin_eq.ge, ?_, h.origin_eq.ge, by simp [Cursor.perform, Cursor.rewind]⟩
    exact h.origin_eq.trans_le (h.le_offset.trans h.offset_le)

theorem performAll (t : Text) (actions : List Action) :
    Since ((ofText t).lastBegun actions) ((ofText t).performAll actions) := by
  induction actions using List.reverseRecOn with
  | nil => exact begin (c := ofText t) (Nat.zero_le _)
  | append_singleton actions action ih =>
    rw [performAll_concat]
    by_cases haction : action = .begin
    · rw [haction, lastBegun_concat_begin]
      exact begin ih.offset_le
    · rw [lastBegun_concat _ _ haction]
      exact ih.perform haction

theorem span_bounds (h : Since begun c) :
    begun.offset ≤ c.span.start ∧ c.span.start ≤ c.span.stop ∧ c.span.stop ≤ c.source.length := by
  refine ⟨?_, Nat.min_le_right _ _, h.stop.2⟩
  exact Nat.le_min.2 ⟨h.le_start, h.stop.1⟩

theorem rewind_eq_begin (h : Since begun c) :
    c.rewind = { c with offset := begun.offset }.begin := by
  rw [Cursor.rewind, h.origin_eq]
  rfl

end Since

theorem accept_accept (c : Cursor) : c.accept.accept = c.accept := by
  rw [accept, accept]
  cases c.mark <;> rfl

theorem span_accept (c : Cursor) : c.accept.span = c.span := by
  rw [span, span, accept]
  cases c.mark <;> rfl

/-- Whatever is done with a cursor, its offset is neither in front of the last begin nor behind the
text; the token that can be accepted lies between the two, accepting it resumes at its end, and
accepting again gives it again; and rewinding leads back to the last begin, as if begun anew. -/
theorem performAll_disciplined (t : Text) (actions : List Action) :
    let c := (ofText t).performAll actions
    let begun := (ofText t).lastBegun actions
    (begun.offset ≤ c.offset ∧ c.offset ≤ t.length) ∧
      (∃ span, c.answers [.accept, .accept] = [(some span, c.accept), (some span, c.accept)] ∧
        begun.offset ≤ span.start ∧ span.start ≤ span.stop ∧ span.stop ≤ t.length ∧
        c.accept.offset = span.stop) ∧
      c.rewind = begun ∧
      ∀ later, c.answers (.rewind :: later) =
        { c with offset := begun.offset }.answers (.begin :: later) := by
  intro c begun
  have h := Since.performAll t actions
  have hsource : c.source = t := source_performAll (ofText t) actions
  refine ⟨⟨h.le_offset, hsource ▸ h.offset_le⟩, ⟨c.span, ?_, ?_⟩, h.rewind, ?_⟩
  · simp only [answers, answer, perform, span_accept, accept_accept]
  · obtain ⟨hstart, hstop, hlength⟩ := h.span_bounds
    exact ⟨hstart, hstop, hsource ▸ hlength, rfl⟩
  · intro later
    simp only [answers, answer, perform]
    rw [h.rewind_eq_begin]

end Cursor

end Offside
