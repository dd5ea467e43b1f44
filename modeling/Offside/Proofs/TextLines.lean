import Offside.Proofs.Line
import Offside.Proofs.Nesting
import Offside.Proofs.Position

/-! Instruction text and its line. The tokens alone tell in which mode they are read. Main
statement: instruction text stands on the line of the bar that started it, unless no block is open
there and no code is left below; a line feed is then passed over as layout, and text goes on behind
it. -/

namespace Offside

namespace Mode

def after (source : Text) (instructions : Bool) (mode : Mode) (x : Lexeme) : Mode :=
  if x.kind = .content then mode.afterContent (x.text source) instructions
  else mode.afterToken x.kind

def opens? (source : Text) (mode : Mode) (x : Lexeme) : Option Lexeme :=
  if mode = .lines ∧ mode.after source true x = .text then some x else none

end Mode

/-- The last of some tokens that led from lines to text. -/
def opener? (source : Text) (mode : Mode) : List Lexeme → Option Lexeme
  | [] => none
  | x :: rest => (opener? source (mode.after source true x) rest).or (mode.opens? source x)

def Kind.isInstruction : Kind → Bool
  | .textSegment | .interpolationStart => true
  | _ => false

namespace Text

def lineAt (t : Text) (offset : Nat) : Nat := (t.take offset).count .lineFeed + 1

/-- No line holds code below the one with a number, counted from one. -/
def Codeless (t : Text) (line : Nat) : Prop := ∀ l ∈ t.lines.drop line, l.isCode = false

end Text

section Opener

variable {source : Text} {mode : Mode} {x bar : Lexeme} {xs : List Lexeme}

theorem Mode.opens?_eq_some (h : mode.opens? source x = some bar) :
    x = bar ∧ x.kind = .content ∧ x.text source = [.bar] := by
  rw [opens?] at h
  split at h
  · rename_i hm
    cases h
    obtain ⟨rfl, hafter⟩ := hm
    refine ⟨rfl, ?_⟩
    rw [after] at hafter
    split at hafter
    · rename_i hk
      refine ⟨hk, ?_⟩
      rw [afterContent] at hafter
      split at hafter
      · rename_i ht
        exact ht.2
      · cases hafter
    · cases hk : x.kind <;> rw [hk] at hafter <;> cases hafter
  · cases h

theorem opener?_eq_some (h : opener? source mode xs = some bar) :
    bar ∈ xs ∧ bar.kind = .content ∧ bar.text source = [.bar] := by
  induction xs generalizing mode with
  | nil => cases h
  | cons x xs ih =>
    rw [opener?, Option.or_eq_some_iff] at h
    rcases h with h | ⟨-, h⟩
    · obtain ⟨hmem, hbar⟩ := ih h
      exact ⟨List.mem_cons_of_mem x hmem, hbar⟩
    · obtain ⟨rfl, hbar⟩ := Mode.opens?_eq_some h
      exact ⟨List.mem_cons_self, hbar⟩

end Opener

namespace Place.In

variable {source passed rest : Text} {p : Place}

theorem lineAt_eq (hp : p.In source) (h : p.ahead = passed ++ rest) (hl : .lineFeed ∉ passed) :
    source.lineAt (p.offset + passed.length) = source.lineAt p.offset := by
  obtain ⟨behind, rfl, hlength⟩ := hp
  rw [Text.lineAt, Text.lineAt, h, ← hlength, List.take_length_add_append, List.take_left,
    List.take_left, List.count_append, List.count_eq_zero.2 hl, Nat.add_zero]

theorem text_eq (hp : p.In source) (h : p.ahead = passed ++ rest) (kind : Kind) (payload : Nat) :
    Lexeme.text ⟨kind, ⟨p.offset, p.offset + passed.length⟩, payload⟩ source = passed := by
  obtain ⟨behind, rfl, hlength⟩ := hp
  rw [Lexeme.text, Text.slice, h, ← hlength, Nat.add_sub_cancel_left, List.drop_left,
    List.take_left]

theorem drop_lines (hp : p.In source) (h : p.ahead = .lineFeed :: rest) :
    source.lines.drop (source.lineAt p.offset) = rest.lines := by
  obtain ⟨behind, rfl, hlength⟩ := hp
  rw [Text.lineAt, h, ← hlength, List.take_left, Text.drop_lines]

end Place.In

namespace Move

variable {instructions : Bool} {source : Text} {p q : Place} {x : Option Lexeme}
  {ns : List Notice}

theorem mode_eq (h : Move instructions p x ns q) (hp : p.In source) :
    q.mode = x.toList.foldl (Mode.after source instructions) p.mode := by
  cases h with
  | interpolation => rfl
  | segment => rfl
  | owed => rfl
  | indent => rfl
  | capped => rfl
  | dedent => rfl
  | newline => rfl
  | closing => rfl
  | blanks => rfl
  | comment => rfl
  | skip => rfl
  | @single m s o u t =>
    have htext : Lexeme.text ⟨.content, ⟨o, o + [u].length⟩, 0⟩ source = [u] :=
      hp.text_eq rfl .content 0
    exact congrArg (m.afterContent · instructions) htext.symm
  | @word m s o run rest =>
    have htext : Lexeme.text ⟨.content, ⟨o, o + run.length⟩, 0⟩ source = run :=
      hp.text_eq rfl .content 0
    exact congrArg (m.afterContent · instructions) htext.symm

theorem start_eq (h : Move instructions p x ns q) :
    ∀ y ∈ x, y.kind = .content ∨ y.kind.isInstruction = true → y.span.start = p.offset := by
  rintro y ⟨⟩ hk
  cases h with
  | interpolation => rfl
  | segment => rfl
  | owed => rfl
  | indent => rcases hk with hk | hk <;> cases hk
  | capped => rcases hk with hk | hk <;> cases hk
  | dedent => rcases hk with hk | hk <;> cases hk
  | newline => rcases hk with hk | hk <;> cases hk
  | closing => rcases hk with hk | hk <;> cases hk
  | single => rfl
  | word => rfl

theorem mode_eq_text (h : Move instructions p x ns q) :
    ∀ y ∈ x, y.kind.isInstruction = true → p.mode = .text := by
  rintro y ⟨⟩ hk
  cases h with
  | interpolation => rfl
  | segment => rfl
  | owed => cases hk
  | indent => cases hk
  | capped => cases hk
  | dedent => cases hk
  | newline => cases hk
  | closing => cases hk
  | single => cases hk
  | word => cases hk

theorem passes (h : Move instructions p x ns q) :
    q.mode = .lines ∨ q.scanner.blocks = p.scanner.blocks ∧
      ((∃ passed, .lineFeed ∉ passed ∧ p.ahead = passed ++ q.ahead ∧
          q.offset = p.offset + passed.length) ∨
        x = none ∧ p.ahead = .lineFeed :: q.ahead ∧ p.scanner.Declines p.ahead) := by
  cases h with
  | interpolation =>
    exact .inr ⟨rfl, .inl ⟨[.openBrace, .bang], by decide, rfl, rfl⟩⟩
  | segment hu _ hrun =>
    refine .inr ⟨rfl, .inl ⟨_, ?_, rfl, rfl⟩⟩
    rw [List.mem_cons, not_or]
    exact ⟨Ne.symm hu, Text.lineFeed_not_mem_of_forall rfl hrun⟩
  | owed => exact .inl rfl
  | indent => exact .inl rfl
  | capped => exact .inl rfl
  | dedent => exact .inl rfl
  | newline => exact .inl rfl
  | closing => exact .inl rfl
  | blanks _ _ _ hrun =>
    exact .inr ⟨rfl, .inl ⟨_, Text.lineFeed_not_mem_of_forall rfl hrun, rfl, rfl⟩⟩
  | comment _ _ hrun hbody =>
    refine .inr ⟨rfl, .inl ⟨_, ?_, rfl, rfl⟩⟩
    rw [List.mem_append, List.mem_cons, not_or, not_or]
    exact ⟨Text.lineFeed_not_mem_of_forall rfl hrun, by decide, hbody⟩
  | skip _ hd hu =>
    rcases hu with rfl | rfl
    · exact .inr ⟨rfl, .inr ⟨rfl, rfl, hd⟩⟩
    · exact .inr ⟨rfl, .inl ⟨[.carriageReturn], by decide, rfl, rfl⟩⟩
  | @single m s o u t _ _ hu =>
    refine .inr ⟨rfl, .inl ⟨[u], ?_, rfl, rfl⟩⟩
    intro hl
    rw [← List.mem_singleton.1 hl] at hu
    exact absurd hu (by decide)
  | word _ _ _ hrun =>
    exact .inr ⟨rfl, .inl ⟨_, Text.lineFeed_not_mem_of_forall rfl hrun, rfl, rfl⟩⟩

end Move

theorem Scanner.Declines.codeless {s : Scanner} {t : Text} (h : s.Declines (.lineFeed :: t)) :
    (∀ l ∈ t.lines, l.isCode = false) ∧ s.blocks.current = 0 := by
  obtain ⟨hw, hp⟩ := h.atBreak 0 t rfl
  have hnone : Text.codeWidth? t.lines = none := by
    rw [← Option.not_isSome_iff_eq_none, ← Margin.passed_ofText_lt_iff]
    exact Nat.not_lt.2 hp
  refine ⟨Text.isCode_of_codeWidth?_eq_none hnone, ?_⟩
  rw [← hw, Margin.width_ofText, hnone]
  rfl

/-- Outside of lines, some token has led to text. The line at hand is that of the token, or there is
no code below that line and no block is open. -/
def Anchored (source : Text) (p : Place) (bar : Option Lexeme) : Prop :=
  p.mode ≠ .lines → ∃ b, bar = some b ∧
    (source.lineAt b.span.start = source.lineAt p.offset ∨
      source.Codeless (source.lineAt b.span.start) ∧ p.scanner.blocks.current = 0)

namespace Anchored

variable {source : Text} {p q : Place} {x bar : Option Lexeme} {ns : List Notice}

theorem of_lines (h : Move true p x ns q) (hp : p.In source) (hm : p.mode = .lines)
    (hq : q.mode ≠ .lines) :
    ∃ b, x = some b ∧ p.mode.opens? source b = some b ∧ b.span.start = p.offset := by
  have hmode := h.mode_eq hp
  cases x with
  | none => exact absurd (hmode.trans hm) hq
  | some b =>
    change q.mode = p.mode.after source true b at hmode
    have hk : b.kind = .content := by
      apply Decidable.byContradiction
      intro hk
      have htext := h.mode_eq_text b rfl
      rw [hm, Mode.after, if_neg hk] at hmode
      rw [hm] at htext
      cases hkind : b.kind <;> rw [hkind] at hmode hk htext
      case content => exact hk rfl
      case interpolationStart => cases htext rfl
      all_goals exact hq hmode
    refine ⟨b, rfl, ?_, h.start_eq b rfl (.inl hk)⟩
    rw [Mode.opens?, if_pos]
    refine ⟨hm, ?_⟩
    rw [hm, Mode.after, if_pos hk, Mode.afterContent] at hmode ⊢
    split at hmode
    · rename_i ht
      exact if_pos ht
    · exact absurd hmode hq

theorem move (h : Anchored source p bar) (hmove : Move true p x ns q) (hp : p.In source) :
    Anchored source q ((x.bind (p.mode.opens? source)).or bar) := by
  intro hq
  rcases hmove.passes with hlines | ⟨hblocks, hpassed⟩
  · exact absurd hlines hq
  by_cases hm : p.mode = .lines
  · obtain ⟨b, rfl, hopens, hstart⟩ := of_lines hmove hp hm hq
    refine ⟨b, ?_, .inl ?_⟩
    · rw [Option.bind_some, hopens]
      rfl
    · rcases hpassed with ⟨passed, hl, hahead, hoffset⟩ | ⟨hx, -⟩
      · rw [hstart, hoffset, hp.lineAt_eq hahead hl]
      · cases hx
  · have hnone : x.bind (p.mode.opens? source) = none := by
      rw [Option.bind_eq_none_iff]
      intro y _
      rw [Mode.opens?, if_neg fun hc => hm hc.1]
    obtain ⟨b, hb, hheld⟩ := h hm
    refine ⟨b, ?_, ?_⟩
    · rw [hnone, Option.none_or, hb]
    · rw [hblocks]
      rcases hpassed with ⟨passed, hl, hahead, hoffset⟩ | ⟨-, hahead, hd⟩
      · rwa [hoffset, hp.lineAt_eq hahead hl]
      · -- Only here does text get behind its line: the line feed of that line is declined.
        rw [hahead] at hd
        rcases hheld with hsame | hcodeless
        · refine .inr ⟨?_, hd.codeless.2⟩
          rw [Text.Codeless, hsame, hp.drop_lines hahead]
          exact hd.codeless.1
        · exact .inr hcodeless

theorem instruction {y : Lexeme} (h : Anchored source p bar) (hmove : Move true p (some y) ns q)
    (hs : p.scanner.blocks.Sound) (hy : y.kind.isInstruction = true) :
    ∃ b, bar = some b ∧
      (source.lineAt b.span.start = source.lineAt y.span.start ∨
        source.Codeless (source.lineAt b.span.start) ∧ p.scanner.blocks.stack = [0]) := by
  have hm := hmove.mode_eq_text y rfl hy
  obtain ⟨b, hb, hheld⟩ := h (by rw [hm]; exact Mode.noConfusion)
  refine ⟨b, hb, ?_⟩
  rw [hmove.start_eq y rfl (.inr hy)]
  apply hheld.imp_right
  rintro ⟨hcodeless, hcurrent⟩
  exact ⟨hcodeless, hs.stack_eq hcurrent⟩

end Anchored

theorem Run.anchored {source : Text} {p : Place} {xs : List Lexeme} {ns : List Notice}
    {last : Scanner} (h : Run true p xs ns last) {bar : Option Lexeme} (ha : Anchored source p bar)
    (hp : p.In source) (hs : p.scanner.blocks.Sound) {before after : List Lexeme} {x : Lexeme}
    (hxs : xs = before ++ x :: after) (hx : x.kind.isInstruction = true) :
    ∃ b, (opener? source p.mode before).or bar = some b ∧
      (source.lineAt b.span.start = source.lineAt x.span.start ∨
        source.Codeless (source.lineAt b.span.start) ∧
          Nesting.replay p.scanner.blocks.capacity before p.scanner.blocks.stack = some [0]) := by
  induction h generalizing bar before with
  | stop =>
    cases before with
    | nil =>
      obtain ⟨rfl, -⟩ := List.cons.inj hxs
      cases hx
    | cons y before =>
      obtain ⟨-, hrest⟩ := List.cons.inj hxs
      exact absurd hrest.symm (List.append_ne_nil_of_right_ne_nil _ (List.cons_ne_nil _ _))
  | @move p q y ns xs ms last hmove hrun ih =>
    have hturn := hmove.turn
    have hreplay := hturn.replay_append hs
    have hnext := @ih _ (ha.move hmove hp) (hmove.place_in hp) (hturn.sound hs)
    rw [hturn.capacity_eq, hmove.mode_eq hp] at hnext
    simp only [← hreplay] at hnext
    cases y with
    | none => exact hnext hxs
    | some y =>
      cases before with
      | nil =>
        obtain ⟨rfl, -⟩ := List.cons.inj hxs
        obtain ⟨b, hb, hheld⟩ := ha.instruction hmove hs hx
        exact ⟨b, hb, hheld.imp_right (And.imp_right (congrArg some))⟩
      | cons first before =>
        obtain ⟨rfl, hrest⟩ := List.cons.inj hxs
        obtain ⟨b, hb, hheld⟩ := hnext hrest
        refine ⟨b, ?_, hheld⟩
        rw [opener?, Option.or_assoc]
        exact hb

theorem position_of_mem_tokens {source : Text} {options : Options} {token : Token}
    (h : token ∈ (tokenize source options).tokens.toList) :
    token.position = source.position token.span.start := by
  rw [tokens_tokenize, Store.toList_ofList] at h
  obtain ⟨x, -, rfl⟩ := List.mem_map.1 h
  exact Lines.locate_ofText source _

/-- With instructions, every token of instruction text has a bar before it that was the last to lead
from lines to text. It stands on the line of that bar, unless the lines below the bar hold no code
and the tokens up to there leave no block open. -/
theorem instruction_on_line_of_bar (source : Text) (trace : Bool)
    (maxDepth bufferSize : Option Number) {before after : List Token} {x : Token}
    (hx : x.kind = .textSegment ∨ x.kind = .interpolationStart)
    (htokens : (tokenize source ⟨true, trace, .ofNumbers maxDepth bufferSize⟩).tokens.toList =
      before ++ x :: after) :
    ∃ bar ∈ before, opener? source .lines (before.map Token.toLexeme) = some bar.toLexeme ∧
      bar.kind = .content ∧ bar.text source = [.bar] ∧
      (x.position.line = bar.position.line ∨
        (∀ line ∈ source.lines.drop bar.position.line, line.isCode = false) ∧
          Nesting.replay (Settings.ofNumbers maxDepth bufferSize).capacity
            (before.map Token.toLexeme) [0] = some [0]) := by
  have hsound := Blocks.sound_base (Settings.capacity_bounds maxDepth bufferSize).1
  have hinstruction : x.kind.isInstruction = true := by
    rcases hx with hx | hx <;> rw [hx] <;> rfl
  have hlexemes := congrArg (List.map Token.toLexeme) htokens
  rw [List.map_append, List.map_cons] at hlexemes
  have hrun := tokenize_isRun source ⟨true, trace, .ofNumbers maxDepth bufferSize⟩
  have hanchored :
      Anchored source (Reader.start source (.ofNumbers maxDepth bufferSize)).place none :=
    fun h => absurd rfl h
  obtain ⟨b, hb, hheld⟩ := hrun.anchored hanchored ⟨[], rfl, rfl⟩ hsound hlexemes hinstruction
  rw [Option.or_none] at hb
  obtain ⟨hmem, hkind, htext⟩ := opener?_eq_some hb
  obtain ⟨bar, hbar, rfl⟩ := List.mem_map.1 hmem
  refine ⟨bar, hbar, hb, hkind, htext, ?_⟩
  have hposition : ∀ token ∈ before ++ x :: after,
      token.position.line = source.lineAt token.span.start := by
    intro token htoken
    rw [← htokens] at htoken
    rw [position_of_mem_tokens htoken]
    rfl
  rw [hposition x (List.mem_append_right _ List.mem_cons_self),
    hposition bar (List.mem_append_left _ hbar)]
  exact hheld.imp_left Eq.symm

theorem instruction_on_line_of_bar_in_block :
    let source : Text := [.bar, .lineFeed, .space, .bar, .zero, .lineFeed, .hash]
    let before : List Token :=
      [⟨⟨.content, ⟨0, 1⟩, 0⟩, ⟨1, 1⟩⟩, ⟨⟨.indent, ⟨1, 2⟩, 1⟩, ⟨1, 2⟩⟩,
        ⟨⟨.content, ⟨3, 4⟩, 0⟩, ⟨2, 2⟩⟩]
    let x : Token := ⟨⟨.textSegment, ⟨4, 5⟩, 0⟩, ⟨2, 3⟩⟩
    let after : List Token :=
      [⟨⟨.dedent, ⟨5, 6⟩, 0⟩, ⟨2, 4⟩⟩, ⟨⟨.endOfInput, ⟨7, 7⟩, 0⟩, ⟨3, 2⟩⟩]
    (tokenize source ⟨true, false, .ofNumbers none none⟩).tokens.toList = before ++ x :: after ∧
      ∃ bar ∈ before, opener? source .lines (before.map Token.toLexeme) = some bar.toLexeme ∧
        x.position.line = bar.position.line := by
  intro source before x after
  have htokens : (tokenize source ⟨true, false, .ofNumbers none none⟩).tokens.toList =
      before ++ x :: after := by decide +kernel
  obtain ⟨bar, hbar, hopener, -, -, hline⟩ :=
    instruction_on_line_of_bar source false none none (.inl rfl) htokens
  refine ⟨htokens, bar, hbar, hopener, hline.resolve_right ?_⟩
  rintro ⟨-, hbase⟩
  exact absurd hbase (by decide)

/-- With no block open, a comment at the end of input becomes text of the bar above it. -/
theorem instruction_below_bar :
    ¬∀ (source : Text) (before after : List Token) (x : Token),
      x.kind = .textSegment ∨ x.kind = .interpolationStart →
      (tokenize source ⟨true, false, .ofNumbers none none⟩).tokens.toList =
        before ++ x :: after →
      ∃ bar ∈ before, opener? source .lines (before.map Token.toLexeme) = some bar.toLexeme ∧
        x.position.line = bar.position.line := by
  intro h
  obtain ⟨bar, hbar, -, hline⟩ := h [.bar, .lineFeed, .hash] [⟨⟨.content, ⟨0, 1⟩, 0⟩, ⟨1, 1⟩⟩]
    [⟨⟨.endOfInput, ⟨3, 3⟩, 0⟩, ⟨2, 2⟩⟩] ⟨⟨.textSegment, ⟨2, 3⟩, 0⟩, ⟨2, 1⟩⟩ (.inl rfl)
    (by decide +kernel)
  rw [List.mem_singleton.1 hbar] at hline
  exact absurd hline (by decide)

end Offside
