import Mathlib.Data.List.Chain
import Mathlib.Data.List.DropRight
import Offside.Proofs.Decimal
import Offside.Proofs.Decision
import Offside.Proofs.Nesting

/-! What a log tells of a run. A record is one scan with the scanner on both sides of it, and a run
is a chain of records. Main statement: keeping a log changes nothing else, and the log is that
chain, block by block. Its kinds are those of the scanner's tokens, and it shows where the limit on
the depth was met. -/

namespace Offside

def Kind.isScanned : Kind → Bool
  | .content | .endOfInput => false
  | _ => true

namespace CodeUnit

abbrev comma : CodeUnit := 0x2C
abbrev openBracket : CodeUnit := 0x5B
abbrev closeBracket : CodeUnit := 0x5D
abbrev equals : CodeUnit := 0x3D

end CodeUnit

namespace Log

/-- The kind that a closing line names, if it names one. -/
def kind? (line : Text) : Option Text :=
  if line = Text.ofString "  => no token" then none
  else some ((line.drop 5).takeWhile (· ≠ .space))

/-- What a line shows of the open blocks: the text between its last brackets. -/
def blocks (line : Text) : Text :=
  (line.rdropWhile (· ≠ .closeBracket)).dropLast.rtakeWhile (· ≠ .openBracket)

/-- What a line shows of the deferred width: the text behind its last equals sign. -/
def deferred (line : Text) : Text := line.rtakeWhile (· ≠ .equals)

/-- The widths of the open blocks, the outermost first, and the deferred width, if there is one. -/
structure Shows (line : Text) (s : Scanner) : Prop where
  blocks : blocks line =
    Text.join (Text.ofString ",") (s.blocks.entries.map fun (width : Nat) => Number.wholeText width)
  deferred : deferred line = s.deferred.elim (Text.ofString "-") Number.wholeText

end Log

/-- One scan: what was ahead and accepted, the scanner before and after it, what was reported in
between, and the kind of token that it gave, if any. -/
structure Record where
  lookahead : Option CodeUnit
  accepted : List Kind
  before : Scanner
  inner : List Event
  kind : Option Kind
  after : Scanner

namespace Record

def events (c : Record) : List Event :=
  .opened c.lookahead c.accepted c.before :: c.inner ++ [.closed c.kind c.after]

def lines (c : Record) : List Text := c.events.filterMap Event.message?

def opening (c : Record) : Text :=
  Text.ofString "scan: lookahead=" ++
    (match c.lookahead with
     | none => Text.ofString "EOF"
     | some u => Text.quoted [u]) ++
    Text.ofString " valid=[" ++ Text.join (Text.ofString ",") (c.accepted.map Kind.text) ++
    Text.ofString "] stack=[" ++ c.before.blocksText ++ Text.ofString "] pending=" ++
    c.before.deferredText

def closing (c : Record) : Text :=
  match c.kind with
  | none => Text.ofString "  => no token"
  | some kind =>
    Text.ofString "  => " ++ kind.text ++ Text.ofString " stack=[" ++ c.after.blocksText ++
      Text.ofString "] pending=" ++ c.after.deferredText

/-- A block is opened by one line and closed by one, and no line in between can be taken for
either. -/
def Framed (c : Record) : Prop :=
  ∃ inner,
    c.lines = c.opening :: inner ++ [c.closing] ∧
      Text.ofString "scan:" <+: c.opening ∧ Text.ofString "  => " <+: c.closing ∧
      ∀ line ∈ inner, ¬Text.ofString "scan:" <+: line ∧ ¬Text.ofString "  => " <+: line

/-- An indent that leaves the blocks as they were printed before. -/
def isCapped (c : Record) : Bool :=
  Log.kind? c.closing = some (Kind.text .indent) ∧ Log.blocks c.closing = Log.blocks c.opening

end Record

namespace Reader

def record (r : Reader) : Record :=
  let o := r.scanner.pick r.mode.accepted r.cursor.begin
  ⟨r.cursor.lookahead, r.mode.accepted, r.scanner, o.events, o.kind, o.scanner⟩

def records (instructions : Bool) (r : Reader) : List Record :=
  match h : (r.step instructions).1.next? with
  | some next =>
    have := work_lt_of_step h
    r.record :: next.records instructions
  | none => [r.record]
termination_by r.work

end Reader

open Nesting (untracked)

def Event.isInner : Event → Bool
  | .opened .. | .closed .. => false
  | _ => true

/-- What a scan reports: nothing that could be taken for its frame, and a notice where it gives an
indent and opens no block. -/
structure Outcome.Reports (s : Scanner) (o : Outcome) : Prop where
  inner : ∀ e ∈ o.events, e.isInner = true
  capped : untracked (o.events.filterMap Event.notice?) =
    if o.kind = some .indent ∧ o.scanner.blocksText = s.blocksText then 1 else 0

theorem Text.length_join_lt (t : Text) (ts : List Text) (u : Text) :
    (Text.join (Text.ofString ",") (t :: ts)).length <
      (Text.join (Text.ofString ",") (t :: ts ++ [u])).length := by
  induction ts generalizing t with
  | nil => simp [Text.join, Text.ofString, Text.ofChars, Text.ofScalar]
  | cons t' ts ih =>
    have := ih t'
    simp only [Text.join, List.cons_append, List.intercalate_cons_cons,
      List.length_append] at this ⊢
    omega

namespace Text

variable {u : CodeUnit} {s t : Text}

theorem rtakeWhile_ne (h : u ∉ t) : (s ++ u :: t).rtakeWhile (· ≠ u) = t := by
  have hreverse : (s ++ u :: t).reverse = t.reverse ++ u :: s.reverse := by simp
  rw [List.rtakeWhile, hreverse, takeWhile_ne (by simpa using h), List.reverse_reverse]

theorem rdropWhile_ne (h : u ∉ t) : (s ++ u :: t).rdropWhile (· ≠ u) = s ++ [u] := by
  have hreverse : (s ++ u :: t).reverse = t.reverse ++ u :: s.reverse := by simp
  rw [List.rdropWhile, hreverse, dropWhile_ne (by simpa using h), List.reverse_cons,
    List.reverse_reverse]

theorem not_mem_join {separator : Text} {ts : List Text} (hseparator : u ∉ separator)
    (h : ∀ t ∈ ts, u ∉ t) : u ∉ join separator ts := by
  induction ts with
  | nil => exact List.not_mem_nil
  | cons t ts ih =>
    have ht := h t List.mem_cons_self
    have hrest := ih fun t ht => h t (List.mem_cons_of_mem _ ht)
    cases ts with
    | nil => simpa [join] using ht
    | cons t' ts =>
      simp only [join, List.intercalate_cons_cons, List.mem_append, not_or] at hrest ⊢
      exact ⟨⟨ht, hseparator⟩, hrest⟩

end Text

namespace Scanner

section Printed

variable {u : CodeUnit} (hdigit : u.isDigit = false) (hsign : u ∉ Number.signs) (s : Scanner)
include hdigit hsign

theorem not_mem_blocksText (hcomma : u ≠ .comma) : u ∉ s.blocksText := by
  apply Text.not_mem_join (fun h => hcomma (List.mem_singleton.1 h))
  intro t ht
  obtain ⟨width, -, rfl⟩ := List.mem_map.1 ht
  exact Number.not_mem_wholeText hdigit hsign width

theorem not_mem_deferredText : u ∉ s.deferredText := by
  have hminus : Text.ofString "-" ⊆ Number.signs := by decide
  rw [deferredText]
  split
  · exact fun h => hsign (hminus h)
  · exact Number.not_mem_wholeText hdigit hsign _

end Printed

variable {s s' : Scanner} {accepted : List Kind} {c : Cursor}

theorem blocksText_congr (h : s.blocks = s'.blocks) : s.blocksText = s'.blocksText := by
  rw [blocksText, blocksText, h]

theorem blocksText_ne_of_push? {b : Blocks} {width : Nat} (h : s.blocks.push? width = some b)
    (hs : s'.blocks = b) : s'.blocksText ≠ s.blocksText := by
  have hlt := Text.length_join_lt (Number.wholeText (0 : Nat))
    (s.blocks.opened.reverse.map fun (width : Nat) => Number.wholeText width)
    (Number.wholeText width)
  intro heq
  rw [blocksText, blocksText, hs, Blocks.entries_of_push? h] at heq
  simp only [Blocks.entries, List.cons_append, List.map_cons, List.map_append, List.map_nil] at heq
  rw [List.cons_append, heq] at hlt
  exact Nat.lt_irrefl _ hlt

theorem reports_of_silent {o : Outcome} (he : o.events = []) (hk : o.kind ≠ some .indent) :
    o.Reports s := by
  refine ⟨fun e h => ?_, ?_⟩
  · rw [he] at h
    cases h
  · rw [he, if_neg fun h => hk h.1]
    rfl

theorem reports_decideBreak (h : s'.blocks = s.blocks) (width : Nat) (c : Cursor) :
    (s'.decideBreak accepted width c).Reports s := by
  simp only [decideBreak]
  split
  · split
    · rename_i b hb
      rw [h] at hb
      refine ⟨by simp [Event.isInner], ?_⟩
      exact (if_neg fun hc => blocksText_ne_of_push? hb rfl hc.2).symm
    · refine ⟨by simp [Event.isInner], ?_⟩
      exact (if_pos ⟨rfl, blocksText_congr h⟩).symm
  · split
    · exact ⟨by simp [Event.isInner], rfl⟩
    · have hk : (if .newline ∈ accepted ∧ ¬c.atEnd then some Kind.newline else none) ≠
          some .indent := by
        split <;> simp
      split
      · exact ⟨by simp [Event.isInner], (if_neg fun hc => hk hc.1).symm⟩
      · exact ⟨by simp [Event.isInner], (if_neg fun hc => hk hc.1).symm⟩

theorem reports_pick (s : Scanner) (accepted : List Kind) (c : Cursor) :
    (s.pick accepted c).Reports s := by
  rcases pick_cases s accepted c with ⟨kind, c', hk, h⟩ | ⟨target, -, -, h⟩ |
    ⟨-, ⟨c', h⟩ | ⟨width, c', -, h⟩⟩
  · rw [h]
    refine reports_of_silent rfl fun hindent => ?_
    rcases (hk .indent hindent).2 with h | h <;> cases h
  · rw [h]
    exact reports_of_silent rfl (by simp)
  · rw [h]
    exact reports_of_silent rfl (by simp)
  · rw [h]
    exact reports_decideBreak (blocks_ready s accepted) width c'

end Scanner

namespace Log

variable (head : Text) (s : Scanner)

theorem shows_describe : Shows (head ++ s.describe) s where
  blocks := by
    have hopen : .openBracket ∉ s.blocksText :=
      s.not_mem_blocksText (by decide) (by decide) (by decide)
    have hclose : .closeBracket ∉ Text.ofString " pending=" ++ s.deferredText := by
      rw [List.mem_append, not_or]
      exact ⟨by decide, s.not_mem_deferredText (by decide) (by decide)⟩
    have hline : head ++ s.describe =
        (head ++ Text.ofString "stack=" ++ .openBracket :: s.blocksText) ++
          .closeBracket :: (Text.ofString " pending=" ++ s.deferredText) := by
      have hstack : Text.ofString "stack=[" = Text.ofString "stack=" ++ [.openBracket] := rfl
      have hpending : Text.ofString "] pending=" = .closeBracket :: Text.ofString " pending=" := rfl
      rw [Scanner.describe, hstack, hpending]
      simp only [List.append_assoc, List.cons_append, List.nil_append]
    rw [Log.blocks, hline, Text.rdropWhile_ne hclose, List.dropLast_concat,
      Text.rtakeWhile_ne hopen, Scanner.blocksText]
  deferred := by
    have hequals : .equals ∉ s.deferredText := s.not_mem_deferredText (by decide) (by decide)
    have hline : head ++ s.describe =
        (head ++ (Text.ofString "stack=[" ++ s.blocksText ++ Text.ofString "] pending")) ++
          .equals :: s.deferredText := by
      have hpending : Text.ofString "] pending=" = Text.ofString "] pending" ++ [.equals] := rfl
      rw [Scanner.describe, hpending]
      simp only [List.append_assoc, List.singleton_append]
    rw [Log.deferred, hline, Text.rtakeWhile_ne hequals, Scanner.deferredText]
    cases s.deferred <;> rfl

end Log

theorem Decision.isScanned {accepted : List Kind} {s s' : Scanner} {kind : Kind} {w : Option Nat}
    (h : Decision accepted s (some kind) w s') : kind.isScanned = true := by
  cases h with
  | text hk => rcases (hk kind rfl).2 with rfl | rfl <;> rfl
  | owed => rfl
  | indent => rfl
  | capped => rfl
  | dedent => rfl
  | defer _ _ hk =>
    rw [(hk kind rfl).2]
    rfl
  | level _ _ _ hk =>
    rw [(hk kind rfl).2]
    rfl

theorem Text.not_prefix_append {a b : Text} (h : ¬a <+: b) (hl : a.length ≤ b.length) (t : Text) :
    ¬a <+: b ++ t :=
  fun ht => h (List.prefix_of_prefix_length_le ht (List.prefix_append b t) hl)

theorem Event.not_prefix_of_isInner {e : Event} {line : Text} (h : e.isInner = true)
    (hl : e.message? = some line) :
    ¬Text.ofString "scan:" <+: line ∧ ¬Text.ofString "  => " <+: line := by
  cases e with
  | opened => cases h
  | boundary width current =>
    cases hl
    simp only [List.append_assoc]
    exact ⟨Text.not_prefix_append (by decide) (by decide) _,
      Text.not_prefix_append (by decide) (by decide) _⟩
  | deferred width =>
    cases hl
    exact ⟨Text.not_prefix_append (by decide) (by decide) _,
      Text.not_prefix_append (by decide) (by decide) _⟩
  | closed => cases h
  | notice => cases hl

namespace Record

variable {c : Record}

theorem opening_eq (c : Record) :
    c.opening =
      Text.ofString "scan: lookahead=" ++
        (match c.lookahead with
         | none => Text.ofString "EOF"
         | some u => Text.quoted [u]) ++
        Text.ofString " valid=[" ++ Text.join (Text.ofString ",") (c.accepted.map Kind.text) ++
        Text.ofString "] " ++ c.before.describe := by
  have hliteral : Text.ofString "] stack=[" = Text.ofString "] " ++ Text.ofString "stack=[" := rfl
  rw [opening, Scanner.describe, hliteral]
  simp only [List.append_assoc]

theorem message_opened (c : Record) :
    Event.message? (.opened c.lookahead c.accepted c.before) = some c.opening :=
  congrArg some c.opening_eq.symm

theorem exists_opening_eq (c : Record) :
    ∃ head, c.opening = head ++ c.before.describe ∧ Text.ofString "scan:" <+: head := by
  refine ⟨_, c.opening_eq, ?_⟩
  have hliteral : Text.ofString "scan:" <+: Text.ofString "scan: lookahead=" := by decide
  simp only [List.append_assoc]
  exact hliteral.trans (List.prefix_append _ _)

theorem closing_of_none (h : c.kind = none) : c.closing = Text.ofString "  => no token" := by
  rw [closing, h]

theorem closing_of_some {kind : Kind} (h : c.kind = some kind) :
    c.closing = Text.ofString "  => " ++ (kind.text ++ .space :: c.after.describe) := by
  have hliteral : Text.ofString " stack=[" = .space :: Text.ofString "stack=[" := rfl
  rw [closing, h, Scanner.describe]
  dsimp only
  rw [hliteral]
  simp only [List.append_assoc, List.cons_append]

theorem message_closed (c : Record) : Event.message? (.closed c.kind c.after) = some c.closing := by
  cases hkind : c.kind with
  | none =>
    rw [closing_of_none hkind]
    rfl
  | some kind =>
    have hliteral : Text.ofString " " = [.space] := rfl
    rw [closing_of_some hkind, Event.message?, hliteral]
    simp only [List.append_assoc, List.singleton_append]

theorem framed_of_isInner (h : ∀ e ∈ c.inner, e.isInner = true) : c.Framed := by
  refine ⟨c.inner.filterMap Event.message?, ?_, ?_, ?_, ?_⟩
  · rw [lines, events, List.cons_append, List.filterMap_cons_some c.message_opened,
      List.filterMap_append, List.filterMap_cons_some c.message_closed]
    rfl
  · obtain ⟨head, hopening, hhead⟩ := c.exists_opening_eq
    rw [hopening]
    exact hhead.trans (List.prefix_append _ _)
  · cases hkind : c.kind with
    | none =>
      rw [closing_of_none hkind]
      decide
    | some kind =>
      rw [closing_of_some hkind]
      exact List.prefix_append _ _
  · intro line hline
    obtain ⟨e, he, hm⟩ := List.mem_filterMap.1 hline
    exact Event.not_prefix_of_isInner (h e he) hm

theorem shows_opening (c : Record) : Log.Shows c.opening c.before := by
  obtain ⟨head, hopening, -⟩ := c.exists_opening_eq
  rw [hopening]
  exact Log.shows_describe head c.before

theorem kind?_closing (c : Record) : Log.kind? c.closing = c.kind.map Kind.text := by
  cases hkind : c.kind with
  | none =>
    rw [closing_of_none hkind]
    exact if_pos rfl
  | some kind =>
    have hspace : .space ∉ kind.text := by cases kind <;> decide
    have hne : c.closing ≠ Text.ofString "  => no token" := by
      rw [closing_of_some hkind]
      intro h
      have hhead := congrArg (·[5]?) h
      cases kind <;> cases hhead
    rw [Log.kind?, if_neg hne, closing_of_some hkind,
      show (5 : Nat) = (Text.ofString "  => ").length from rfl, List.drop_left,
      Text.takeWhile_ne hspace]
    rfl

theorem shows_closing (h : Log.kind? c.closing ≠ none) : Log.Shows c.closing c.after := by
  rw [kind?_closing] at h
  obtain ⟨kind, hkind⟩ : ∃ kind, c.kind = some kind :=
    Option.ne_none_iff_exists'.1 fun hnone => h (by rw [hnone]; rfl)
  have hclosing : c.closing =
      (Text.ofString "  => " ++ (kind.text ++ [.space])) ++ c.after.describe := by
    rw [closing_of_some hkind]
    simp only [List.append_assoc, List.singleton_append]
  rw [hclosing]
  exact Log.shows_describe _ c.after

theorem isCapped_iff :
    c.isCapped = true ↔ c.kind = some .indent ∧ c.after.blocksText = c.before.blocksText := by
  have hkind : Log.kind? c.closing = some (Kind.text .indent) ↔ c.kind = some .indent := by
    rw [kind?_closing, ← Option.map_some, (Option.map_injective Kind.text_injective).eq_iff]
  rw [isCapped, decide_eq_true_iff, ← hkind]
  refine and_congr_right fun h => ?_
  rw [(shows_closing (by rw [h]; nofun)).blocks, c.shows_opening.blocks, Scanner.blocksText,
    Scanner.blocksText]

theorem notices_events (c : Record) :
    c.events.filterMap Event.notice? = c.inner.filterMap Event.notice? := by
  rw [events, List.cons_append, List.filterMap_cons, List.filterMap_append]
  simp [Event.notice?]

/-- What a step makes of the scan that it begins with: a token of the kind given, or else one of the
reader's own or none. Nothing is reported but the scan. -/
def Explains (c : Record) : Step × List Event → Prop
  | (.token x next, events) =>
    events = c.events ∧ c.kind.toList = [x.kind].filter Kind.isScanned ∧ next.scanner = c.after
  | (.layout next, events) => events = c.events ∧ c.kind = none ∧ next.scanner = c.after
  | (.done x _, events) => events = c.events ∧ c.kind = none ∧ x.kind.isScanned = false

end Record

structure Transcript (r : Reader) (records : List Record) (reading : Reading) : Prop where
  first : ∃ rest, records = r.record :: rest
  events : reading.events = records.flatMap Record.events
  kinds : records.filterMap Record.kind = (reading.lexemes.map (·.kind)).filter Kind.isScanned
  chain : records.IsChain fun c d => c.after = d.before
  last : ∃ c, records.getLast? = some c ∧ c.kind = none
  scans : ∀ c ∈ records, ∃ r : Reader, c = r.record

namespace Reader

variable {instructions : Bool} {r next : Reader}

theorem records_of_next? (h : (r.step instructions).1.next? = some next) :
    r.records instructions = r.record :: next.records instructions := by
  rw [records]
  split <;> simp_all

theorem records_of_last (h : (r.step instructions).1.next? = none) :
    r.records instructions = [r.record] := by
  rw [records]
  split <;> simp_all

theorem framed_record (r : Reader) : r.record.Framed :=
  Record.framed_of_isInner (Scanner.reports_pick ..).inner

theorem untracked_record (r : Reader) :
    untracked (r.record.events.filterMap Event.notice?) = if r.record.isCapped then 1 else 0 := by
  rw [Record.notices_events]
  simp only [Record.isCapped_iff]
  exact (r.scanner.reports_pick r.mode.accepted r.cursor.begin).capped

theorem explains_fallback {c : Record} (hk : c.kind = none) (hs : r.scanner = c.after) :
    c.Explains (r.fallback instructions, c.events) := by
  simp only [fallback]
  split
  · exact ⟨rfl, hk, rfl⟩
  · split
    · exact ⟨rfl, hk, hs⟩
    · split
      · exact ⟨rfl, hk, hs⟩
      · exact ⟨rfl, by rw [hk]; rfl, hs⟩

theorem explains_step (instructions : Bool) (r : Reader) :
    r.record.Explains (r.step instructions) := by
  have hd := r.scanner.scan_decides r.mode.accepted r.cursor.begin
  simp only [step]
  split
  · rename_i kind hk
    rw [hk] at hd
    have hc : r.record.kind = some kind := hk
    refine ⟨rfl, ?_, rfl⟩
    rw [hc]
    simp [hd.isScanned]
  · rename_i hk
    exact explains_fallback hk rfl

end Reader

namespace Transcript

variable {r next : Reader} {records : List Record} {reading : Reading}

theorem of_record (r : Reader) {x : Lexeme} {last : Reader}
    (hkind : r.record.kind = none) (hx : x.kind.isScanned = false) :
    Transcript r [r.record] ⟨[x], last.scanner, r.record.events⟩ where
  first := ⟨[], rfl⟩
  events := (List.append_nil _).symm
  kinds := by simp [hkind, hx]
  chain := .singleton _
  last := ⟨r.record, rfl, hkind⟩
  scans := by simp

theorem cons (h : Transcript next records reading) (xs : List Lexeme)
    (hkind : r.record.kind.toList = (xs.map (·.kind)).filter Kind.isScanned)
    (hnext : next.scanner = r.record.after) :
    Transcript r (r.record :: records)
      { reading with
        lexemes := xs ++ reading.lexemes
        events := r.record.events ++ reading.events } where
  first := ⟨records, rfl⟩
  events := by rw [List.flatMap_cons, h.events]
  kinds := by
    rw [List.map_append, List.filter_append, ← h.kinds, ← hkind]
    cases hk : r.record.kind with
    | none => rw [List.filterMap_cons_none hk]; rfl
    | some kind => rw [List.filterMap_cons_some hk]; rfl
  chain := by
    obtain ⟨rest, rfl⟩ := h.first
    exact .cons_cons hnext.symm h.chain
  last := by
    obtain ⟨c, hc, hk⟩ := h.last
    exact ⟨c, by rw [List.getLast?_cons, hc]; rfl, hk⟩
  scans := by
    intro c hc
    rcases List.mem_cons.1 hc with rfl | hc
    · exact ⟨r, rfl⟩
    · exact h.scans c hc

theorem untracked_eq (h : Transcript r records reading) :
    untracked (reading.events.filterMap Event.notice?) = records.countP Record.isCapped := by
  rw [h.events]
  have hscans := h.scans
  clear h
  induction records with
  | nil => rfl
  | cons c records ih =>
    obtain ⟨r, rfl⟩ := hscans c List.mem_cons_self
    have hc := r.untracked_record
    have hrest := ih fun c hc => hscans c (List.mem_cons_of_mem _ hc)
    rw [untracked] at hc hrest ⊢
    rw [List.flatMap_cons, List.filterMap_append, List.countP_append, hc, hrest, List.countP_cons,
      Nat.add_comm]

end Transcript

theorem Reader.run_transcript (instructions : Bool) (r : Reader) :
    Transcript r (r.records instructions) (r.run instructions) := by
  fun_induction run instructions r with
  | case1 r x next events h rest hlt ih =>
    obtain ⟨rfl, hkind, hnext⟩ := h ▸ r.explains_step instructions
    rw [records_of_next? (by rw [h]; rfl)]
    exact ih.cons [x] hkind hnext
  | case2 r next events h rest hlt ih =>
    obtain ⟨rfl, hkind, hnext⟩ := h ▸ r.explains_step instructions
    rw [records_of_next? (by rw [h]; rfl)]
    exact ih.cons [] (by rw [hkind]; rfl) hnext
  | case3 r x last events h =>
    obtain ⟨rfl, hkind, hx⟩ := h ▸ r.explains_step instructions
    rw [records_of_last (by rw [h]; rfl)]
    exact .of_record r hkind hx

/-- Keeping a log changes nothing but the log. The log has a block of lines for each scan, framed by
lines that show the scanner as it then stands, and the kinds that close the blocks are those of the
tokens that come from the scanner. What a block that names a kind shows at its end, the next one
shows at its start, and there always is a next one. A block too deep to be tracked is reported
exactly where an indent is logged that leaves the blocks as they were shown. -/
theorem log_faithful (source : Text) (instructions : Bool) (settings : Settings) :
    let traced := tokenize source ⟨instructions, true, settings⟩
    let records := (Reader.start source settings).records instructions
    tokenize source ⟨instructions, false, settings⟩ = { traced with events := [] } ∧
      traced.events.filterMap Event.message? = records.flatMap Record.lines ∧
      (∀ c ∈ records, c.Framed ∧ Log.Shows c.opening c.before ∧
        (Log.kind? c.closing ≠ none → Log.Shows c.closing c.after)) ∧
      records.filterMap (fun c => Log.kind? c.closing) =
        ((traced.tokens.toList.map (·.kind)).filter Kind.isScanned).map Kind.text ∧
      (records.IsChain fun c d => c.after = d.before ∧ (Log.kind? c.closing ≠ none →
        Log.blocks c.closing = Log.blocks d.opening ∧
        Log.deferred c.closing = Log.deferred d.opening)) ∧
      (∃ c, records.getLast? = some c ∧ Log.kind? c.closing = none) ∧
      untracked (traced.events.filterMap Event.notice?) = records.countP Record.isCapped := by
  intro traced records
  have h := (Reader.start source settings).run_transcript instructions
  have hevents : traced.events = records.flatMap Record.events :=
    (events_tokenize source ⟨instructions, true, settings⟩).trans h.events
  have htokens : traced.tokens.toList.map (·.kind) =
      ((Reader.start source settings).run instructions).lexemes.map (·.kind) := by
    rw [← toLexeme_tokens source ⟨instructions, true, settings⟩, List.map_map]
    rfl
  refine ⟨?_, ?_, ?_, ?_, ?_, ?_, ?_⟩
  · have hsilent := Reader.runSilent_eq instructions (Reader.start source settings)
    simp only [tokenize, hsilent, traced]
    rfl
  · rw [hevents, List.filterMap_flatMap]
    rfl
  · intro c hc
    obtain ⟨r, rfl⟩ := h.scans c hc
    exact ⟨r.framed_record, r.record.shows_opening, Record.shows_closing⟩
  · rw [htokens, ← h.kinds, List.map_filterMap]
    simp only [Record.kind?_closing, records]
  · refine h.chain.imp fun c d hcd => ⟨hcd, fun hnamed => ?_⟩
    have hclosing := Record.shows_closing hnamed
    have hopening := hcd ▸ d.shows_opening
    exact ⟨hclosing.blocks.trans hopening.blocks.symm,
      hclosing.deferred.trans hopening.deferred.symm⟩
  · obtain ⟨c, hlast, hkind⟩ := h.last
    refine ⟨c, hlast, ?_⟩
    rw [Record.kind?_closing, hkind]
    rfl
  · rw [hevents, ← h.events]
    exact h.untracked_eq

end Offside
