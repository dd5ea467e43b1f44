import Offside.Mode
import Offside.Scanner.Progress
import Offside.Token

/-!
A reader drives the scanner over a source. What the scanner declines is passed over, if it is blank,
a comment or a line break, and read as a word otherwise. Every step that is not the last leaves less
to do, so reading ends.
-/

namespace Offside

namespace CodeUnit

def isBlank (u : CodeUnit) : Bool := u == space || u == tab

def standsAlone (u : CodeUnit) : Bool := u == bar || u == closeBrace

def isContent (u : CodeUnit) : Bool :=
  !(u.isBlank || u == lineFeed || u == carriageReturn || u == hash || u.standsAlone)

end CodeUnit

namespace Cursor

def skipLayout (c : Cursor) : Cursor :=
  let c := c.skipWhile CodeUnit.isBlank
  if c.lookahead = some .hash then c.skipComment else c

def word (c : Cursor) : Cursor :=
  match c.lookahead with
  | none => c
  | some u => if u.standsAlone then c.advance else c.advanceWhile CodeUnit.isContent

@[simp] theorem source_skipLayout (c : Cursor) : c.skipLayout.source = c.source := by
  simp only [skipLayout]
  split <;> rfl

theorem offset_le_offset_skipLayout (c : Cursor) : c.offset ≤ c.skipLayout.offset := by
  have h := c.offset_le_offset_skipWhile CodeUnit.isBlank
  simp only [skipLayout]
  split
  · exact Nat.le_trans h (offset_le_offset_skipWhile _ _)
  · exact h

theorem exists_word_eq (c : Cursor) : ∃ n, c.word = c.advanceBy n := by
  simp only [word]
  split
  · exact ⟨0, by simp [advanceBy]⟩
  · split
    · exact ⟨1, rfl⟩
    · exact ⟨_, rfl⟩

@[simp] theorem source_word (c : Cursor) : c.word.source = c.source := by
  obtain ⟨n, hn⟩ := c.exists_word_eq
  rw [hn, source_advanceBy]

@[simp] theorem mark_word (c : Cursor) : c.word.mark = c.mark := by
  obtain ⟨n, hn⟩ := c.exists_word_eq
  rw [hn, mark_advanceBy]

theorem isContent_or_standsAlone {c : Cursor} (hskip : c.skipLayout.offset = c.offset)
    (hbreak : c.atBreak = false) :
    ∃ u, c.lookahead = some u ∧ (u.standsAlone = false → u.isContent = true) := by
  cases hl : c.lookahead with
  | none => simp [atBreak, hl] at hbreak
  | some u =>
    refine ⟨u, rfl, fun hu => ?_⟩
    have hblank : u.isBlank = false := by
      rcases hb : u.isBlank with _ | _
      · rfl
      · have hlt := offset_lt_offset_skipWhile hl hb
        simp only [skipLayout] at hskip
        split at hskip
        · have := offset_le_offset_skipWhile (· != .lineFeed) (c.skipWhile CodeUnit.isBlank)
          simp only [skipComment] at hskip
          omega
        · omega
    simp only [atBreak, hl, Bool.or_eq_false_iff] at hbreak
    have hhash : (u == .hash) = false := by
      rcases hh : u == .hash with _ | _
      · rfl
      · simp only [beq_iff_eq] at hh
        have hlt := offset_lt_offset_skipWhile (p := (· != .lineFeed)) hl (by rw [hh]; decide)
        simp only [skipLayout, skipWhile_of_lookahead hl hblank, hl, hh, if_true, skipComment]
          at hskip
        omega
    simp [CodeUnit.isContent, hblank, hbreak, hhash, hu]

theorem offset_lt_offset_word {c : Cursor} (hskip : c.skipLayout.offset = c.offset)
    (hbreak : c.atBreak = false) : c.offset < c.begin.word.offset := by
  obtain ⟨u, hl, hu⟩ := isContent_or_standsAlone hskip hbreak
  have hb : c.begin.lookahead = some u := hl
  have hpos := remaining_pos_of_lookahead hb
  simp only [word, hb]
  split
  · simp only [advance, offset_advanceBy, offset_begin]
    omega
  · exact offset_lt_offset_advanceWhile hb (hu (by simpa using ‹¬u.standsAlone = true›))

end Cursor

namespace Scanner

def payload (s : Scanner) : Kind → Nat
  | .indent | .dedent => s.blocks.current
  | _ => 0

end Scanner

structure Reader where
  mode : Mode
  scanner : Scanner
  cursor : Cursor
  deriving DecidableEq, Repr

inductive Step where
  | token (lexeme : Lexeme) (next : Reader)
  | layout (next : Reader)
  | done (lexeme : Lexeme) (last : Reader)
  deriving DecidableEq, Repr

namespace Step

def next? : Step → Option Reader
  | .token _ next => some next
  | .layout next => some next
  | .done _ _ => none

end Step

structure Reading where
  lexemes : List Lexeme
  scanner : Scanner
  events : List Event
  deriving DecidableEq, Repr

namespace Reader

def start (source : Text) (settings : Settings) : Reader :=
  ⟨.lines, .create settings, .ofText source⟩

def fallback (instructions : Bool) (r : Reader) : Step :=
  let c := r.cursor
  if c.atEnd then
    .done ⟨.endOfInput, c.begin.span, 0⟩ { r with cursor := c.begin.accept }
  else if c.skipLayout.offset ≠ c.offset then .layout { r with cursor := c.skipLayout }
  else if c.atBreak then .layout { r with cursor := c.skip }
  else
    let c := c.begin.word
    .token ⟨.content, c.span, 0⟩
      { r with mode := r.mode.afterContent c.text instructions, cursor := c.accept }

def step (instructions : Bool) (r : Reader) : Step × List Event :=
  let o := r.scanner.scan r.mode.accepted r.cursor.begin
  match o.kind with
  | some kind =>
    (.token ⟨kind, o.cursor.span, o.scanner.payload kind⟩
      ⟨r.mode.afterToken kind, o.scanner, o.cursor.accept⟩, o.events)
  | none =>
    (fallback instructions { r with scanner := o.scanner, cursor := o.cursor.rewind }, o.events)

/-- What is left to do: every unit ahead may open a block, and every open block has to be closed. -/
def work (r : Reader) : Nat := 2 * r.cursor.remaining + r.scanner.blocks.opened.length

theorem work_lt_of_fallback {instructions : Bool} {r next : Reader}
    (h : (fallback instructions r).next? = some next) : next.work < r.work := by
  simp only [fallback] at h
  split at h
  · simp [Step.next?] at h
  · rename_i hend
    have hpos : 0 < r.cursor.remaining := by
      have := mt (Cursor.atEnd_iff r.cursor).2 hend
      omega
    split at h
    · simp only [Step.next?, Option.some.injEq] at h
      have := r.cursor.offset_le_offset_skipLayout
      simp only [← h, work, Cursor.remaining, Cursor.source_skipLayout] at hpos ⊢
      omega
    · rename_i hskip
      split at h
      · simp only [Step.next?, Option.some.injEq] at h
        simp only [← h, work, Cursor.skip, Cursor.remaining, Cursor.source_skipBy,
          Cursor.offset_skipBy] at hpos ⊢
        omega
      · rename_i hbreak
        simp only [Step.next?, Option.some.injEq] at h
        have := Cursor.offset_lt_offset_word (by simpa using hskip) (by simpa using hbreak)
        simp only [← h, work, Cursor.remaining, Cursor.source_accept, Cursor.offset_accept,
          Cursor.source_word, Cursor.mark_word, Cursor.source_begin, Cursor.mark_begin,
          Option.getD_none] at hpos ⊢
        omega

theorem work_lt_of_step {instructions : Bool} {r next : Reader}
    (h : (step instructions r).1.next? = some next) : next.work < r.work := by
  simp only [step, Scanner.scan] at h
  have hcursor := Scanner.continues_pick r.scanner r.mode.accepted r.cursor.begin
  split at h
  · rename_i kind hkind
    simp only [Step.next?, Option.some.injEq] at h
    rw [← h]
    exact (Scanner.progress_pick rfl hkind).less hcursor.source
  · rename_i hkind
    have hblocks := Scanner.blocks_pick_of_none hkind
    have := work_lt_of_fallback h
    simpa [work, Cursor.remaining, hcursor.source, hblocks, hcursor.origin] using this

def run (instructions : Bool) (r : Reader) : Reading :=
  match h : step instructions r with
  | (.token lexeme next, events) =>
    have : next.work < r.work := work_lt_of_step (by rw [h]; rfl)
    let rest := run instructions next
    { rest with lexemes := lexeme :: rest.lexemes, events := events ++ rest.events }
  | (.layout next, events) =>
    have : next.work < r.work := work_lt_of_step (by rw [h]; rfl)
    let rest := run instructions next
    { rest with events := events ++ rest.events }
  | (.done lexeme last, events) => ⟨[lexeme], last.scanner, events⟩
termination_by r.work

/-- Reads without keeping a report. -/
def runSilent (instructions : Bool) (r : Reader) : Reading :=
  match h : (step instructions r).1 with
  | .token lexeme next =>
    have : next.work < r.work := work_lt_of_step (by rw [h]; rfl)
    let rest := runSilent instructions next
    { rest with lexemes := lexeme :: rest.lexemes }
  | .layout next =>
    have : next.work < r.work := work_lt_of_step (by rw [h]; rfl)
    runSilent instructions next
  | .done lexeme last => ⟨[lexeme], last.scanner, []⟩
termination_by r.work

theorem run_of_token {instructions : Bool} {r next : Reader} {x : Lexeme} {events : List Event}
    (h : r.step instructions = (.token x next, events)) :
    r.run instructions =
      { next.run instructions with
        lexemes := x :: (next.run instructions).lexemes
        events := events ++ (next.run instructions).events } := by
  rw [run]
  split <;> simp_all

theorem run_of_layout {instructions : Bool} {r next : Reader} {events : List Event}
    (h : r.step instructions = (.layout next, events)) :
    r.run instructions =
      { next.run instructions with events := events ++ (next.run instructions).events } := by
  rw [run]
  split <;> simp_all

theorem run_of_done {instructions : Bool} {r last : Reader} {x : Lexeme} {events : List Event}
    (h : r.step instructions = (.done x last, events)) :
    r.run instructions = ⟨[x], last.scanner, events⟩ := by
  rw [run]
  split <;> simp_all

theorem runSilent_eq (instructions : Bool) (r : Reader) :
    r.runSilent instructions = { r.run instructions with events := [] } := by
  fun_induction runSilent instructions r with
  | case1 r lexeme next h hlt rest ih =>
    rw [run_of_token (Prod.ext h rfl)]
    simp only [rest, ih]
  | case2 r next h hlt ih =>
    rw [run_of_layout (Prod.ext h rfl), ih]
  | case3 r lexeme last h =>
    rw [run_of_done (Prod.ext h rfl)]

end Reader

end Offside
