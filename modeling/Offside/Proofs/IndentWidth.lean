import Offside.Proofs.Modes

/-! The width that an indent carries. It is read off the open blocks behind the token, not off the
line. Main statement: it is the width of the first code line below, if and only if there is room for
one more block; otherwise it is that of the block around, and the token is one of those reported. -/

namespace Offside

open Nesting

/-- The width of the first code line behind a token. -/
def Lexeme.widthBelow? (x : Lexeme) (source : Text) : Option Nat :=
  Text.codeWidth? (Text.lines (source.drop x.span.stop))

/-- Whether a token is an indent that carries another width than that of the code below it. -/
def Lexeme.isMisstated (source : Text) (x : Lexeme) : Bool :=
  x.kind = .indent ∧ x.widthBelow? source ≠ some x.payload

theorem Place.In.drop_eq {source : Text} {p : Place} (hp : p.In source) :
    source.drop p.offset = p.ahead := by
  obtain ⟨behind, rfl, hlength⟩ := hp
  rw [← hlength, List.drop_left]

theorem Margin.codeWidth?_of_lt {t : Text} {width : Nat} (h : width < (ofText t).width) :
    Text.codeWidth? t.lines = some (ofText t).width := by
  rw [width_ofText] at h ⊢
  cases hw : Text.codeWidth? t.lines with
  | none =>
    rw [hw] at h
    exact absurd h (Nat.not_lt_zero width)
  | some w => rfl

namespace Move

variable {instructions : Bool} {source : Text} {p q : Place} {x : Lexeme} {ns : List Notice}

theorem widthBelow?_eq (h : Move instructions p (some x) ns q) (hp : p.In source) :
    x.widthBelow? source = Text.codeWidth? q.ahead.lines := by
  rw [Lexeme.widthBelow?, h.stop_eq x rfl, (h.place_in hp).drop_eq]

theorem indent_cases (h : Move instructions p (some x) ns q) (hp : p.In source)
    (hk : x.kind = .indent) :
    ∃ width, x.widthBelow? source = some width ∧ p.scanner.blocks.current < width ∧
      (p.scanner.blocks.depth < p.scanner.blocks.capacity ∧ x.payload = width ∧ untracked ns = 0 ∨
        p.scanner.blocks.capacity ≤ p.scanner.blocks.depth ∧
          x.payload = p.scanner.blocks.current ∧ untracked ns = 1) := by
  have hbelow := h.widthBelow?_eq hp
  cases h with
  | @indent m s o k t b _ hw hb =>
    refine ⟨_, hbelow.trans (Margin.codeWidth?_of_lt hw), hw, .inl ?_⟩
    obtain ⟨-, hroom, rfl⟩ := Blocks.push?_eq_some_iff.1 hb
    exact ⟨hroom, rfl, rfl⟩
  | @capped m s o k t _ hw hb =>
    refine ⟨_, hbelow.trans (Margin.codeWidth?_of_lt hw), hw, .inr ⟨?_, rfl, rfl⟩⟩
    rw [Blocks.push?_of_lt hw] at hb
    split at hb
    · cases hb
    · rename_i hfull
      exact Nat.not_lt.1 hfull
  | _ => cases hk

theorem untracked_of_ne_indent (h : Move instructions p (some x) ns q) (hk : x.kind ≠ .indent) :
    untracked ns = 0 := by
  cases h with
  | capped => exact absurd rfl hk
  | _ => rfl

theorem countP_isMisstated {x : Option Lexeme} (h : Move instructions p x ns q) (hp : p.In source) :
    x.toList.countP (Lexeme.isMisstated source) = untracked ns := by
  cases x with
  | none => cases h <;> rfl
  | some x =>
    rw [Option.toList_some, List.countP_singleton]
    by_cases hk : x.kind = .indent
    · obtain ⟨width, hwidth, hlt, ⟨-, hpayload, hns⟩ | ⟨-, hpayload, hns⟩⟩ := h.indent_cases hp hk
      · simp [Lexeme.isMisstated, hk, hwidth, hpayload, hns]
      · have hne : width ≠ x.payload := by
          rw [hpayload]
          exact Nat.ne_of_gt hlt
        simp [Lexeme.isMisstated, hk, hwidth, hne, hns]
    · simp [Lexeme.isMisstated, hk, h.untracked_of_ne_indent hk]

end Move

section Run

variable {instructions : Bool} {source : Text} {p : Place} {xs : List Lexeme} {ns : List Notice}
  {last : Scanner}

theorem Run.exists_move (h : Run instructions p xs ns last) (hp : p.In source)
    (hs : p.scanner.blocks.Sound) {before after : List Lexeme} {x : Lexeme}
    (hxs : xs = before ++ x :: after) (hx : x.kind ≠ .endOfInput) :
    ∃ p' q' ms, Move instructions p' (some x) ms q' ∧ p'.In source ∧
      p'.scanner.blocks.capacity = p.scanner.blocks.capacity ∧
      replay p.scanner.blocks.capacity before p.scanner.blocks.stack =
        some p'.scanner.blocks.stack := by
  induction h generalizing before with
  | stop =>
    cases before with
    | nil =>
      obtain ⟨rfl, -⟩ := List.cons.inj hxs
      exact absurd rfl hx
    | cons y before =>
      obtain ⟨-, hrest⟩ := List.cons.inj hxs
      exact absurd hrest.symm (List.append_ne_nil_of_right_ne_nil _ (List.cons_ne_nil _ _))
  | @move p q y ns xs ms last hmove _ ih =>
    have hturn := hmove.turn
    have hreplay := hturn.replay_append hs
    have hnext := @ih (hmove.place_in hp) (hturn.sound hs)
    rw [hturn.capacity_eq] at hnext
    simp only [← hreplay] at hnext
    cases y with
    | none => exact hnext hxs
    | some y =>
      cases before with
      | nil =>
        obtain ⟨rfl, -⟩ := List.cons.inj hxs
        exact ⟨p, q, ns, hmove, hp, rfl, rfl⟩
      | cons first before =>
        obtain ⟨rfl, hrest⟩ := List.cons.inj hxs
        exact hnext hrest

theorem Run.countP_isMisstated (h : Run instructions p xs ns last) (hp : p.In source) :
    xs.countP (Lexeme.isMisstated source) = untracked ns := by
  induction h with
  | stop => rfl
  | move hmove _ ih =>
    rw [List.countP_append, hmove.countP_isMisstated hp, ih (hmove.place_in hp), untracked,
      untracked, untracked, List.countP_append]

end Run

/-- Every indent spans a line feed with code below it. It carries the width of that code if and only
if fewer blocks are open in front of it than can be tracked, and the width of the block around it
otherwise. Those that carry a wrong width are as many as are reported. -/
theorem indent_payload_eq_width_iff (source : Text) (instructions trace : Bool)
    (maxDepth bufferSize : Option Number) :
    let settings := Settings.ofNumbers maxDepth bufferSize
    let tokens := (tokenize source ⟨instructions, trace, settings⟩).tokens.toList.map Token.toLexeme
    let notices := (tokenize source ⟨instructions, true, settings⟩).events.filterMap Event.notice?
    (∀ before x after, tokens = before ++ x :: after → x.kind = .indent →
      x.text source = [.lineFeed] ∧
        ∃ stack width, replay settings.capacity before [0] = some stack ∧
          x.widthBelow? source = some width ∧
          (x.payload = width ↔ stack.length < settings.capacity) ∧
          (settings.capacity ≤ stack.length → x.payload = stack.headD 0)) ∧
      tokens.countP (Lexeme.isMisstated source) = untracked notices := by
  intro settings tokens notices
  have hsound := Blocks.sound_base (Settings.capacity_bounds maxDepth bufferSize).1
  have hrun := tokenize_isRun source ⟨instructions, trace, settings⟩
  have hin : (Reader.start source settings).place.In source := ⟨[], rfl, rfl⟩
  refine ⟨?_, hrun.countP_isMisstated hin⟩
  intro before x after htokens hk
  have hmem : x ∈ tokens := by
    rw [htokens]
    exact List.mem_append_right _ List.mem_cons_self
  have hshape := (hrun.tiling hin).shapes x hmem
  rw [hk] at hshape
  refine ⟨hshape, ?_⟩
  obtain ⟨p, q, ms, hmove, hp, hcapacity, hreplay⟩ :=
    hrun.exists_move hin hsound htokens (by rw [hk]; exact Kind.noConfusion)
  obtain ⟨width, hwidth, hlt, hcases⟩ := hmove.indent_cases hp hk
  refine ⟨p.scanner.blocks.stack, width, hreplay, hwidth, ?_⟩
  rw [Blocks.length_stack, Blocks.headD_stack]
  change p.scanner.blocks.capacity = settings.capacity at hcapacity
  rw [hcapacity] at hcases
  rcases hcases with ⟨hroom, hpayload, -⟩ | ⟨hfull, hpayload, -⟩
  · exact ⟨iff_of_true hpayload hroom, fun hfull => absurd hroom (Nat.not_lt.2 hfull)⟩
  · refine ⟨iff_of_false ?_ (Nat.not_lt.2 hfull), fun _ => hpayload⟩
    rw [hpayload]
    exact Nat.ne_of_lt hlt

theorem indent_payload_eq_width_iff_capped :
    let source : Text := [.bar, .lineFeed, .space, .bar, .lineFeed, .tab, .bar]
    let settings := Settings.ofNumbers (some (.ofNat 2)) none
    let first : Lexeme := ⟨.indent, ⟨1, 2⟩, 1⟩
    let second : Lexeme := ⟨.indent, ⟨4, 5⟩, 1⟩
    (tokenize source ⟨false, false, settings⟩).tokens.toList.map Token.toLexeme =
        [⟨.content, ⟨0, 1⟩, 0⟩, first, ⟨.content, ⟨3, 4⟩, 0⟩, second, ⟨.content, ⟨6, 7⟩, 0⟩,
          ⟨.dedent, ⟨7, 7⟩, 0⟩, ⟨.endOfInput, ⟨7, 7⟩, 0⟩] ∧
      first.widthBelow? source = some first.payload ∧
      second.widthBelow? source ≠ some second.payload := by
  intro source settings first second
  have htokens : (tokenize source ⟨false, false, settings⟩).tokens.toList.map Token.toLexeme =
      [⟨.content, ⟨0, 1⟩, 0⟩, first, ⟨.content, ⟨3, 4⟩, 0⟩, second, ⟨.content, ⟨6, 7⟩, 0⟩,
        ⟨.dedent, ⟨7, 7⟩, 0⟩, ⟨.endOfInput, ⟨7, 7⟩, 0⟩] := by decide +kernel
  have hindent := (indent_payload_eq_width_iff source false false (some (.ofNat 2)) none).1
  refine ⟨htokens, ?_, ?_⟩
  · obtain ⟨-, stack, width, hreplay, hwidth, hiff, -⟩ := hindent [_] first _ htokens rfl
    have hstack : stack = [0] := Option.some.inj (hreplay.symm.trans (by decide +kernel))
    subst hstack
    rw [hwidth, hiff.2 (by decide +kernel)]
  · obtain ⟨-, stack, width, hreplay, hwidth, hiff, -⟩ := hindent [_, _, _] second _ htokens rfl
    have hstack : stack = [1, 0] := Option.some.inj (hreplay.symm.trans (by decide +kernel))
    subst hstack
    rw [hwidth, Ne, Option.some.injEq, eq_comm, hiff]
    decide +kernel

/-- With room for the base only, an indent of width one carries zero. -/
theorem indent_payload_ne_width :
    ¬∀ (source : Text) (instructions : Bool) (maxDepth bufferSize : Option Number),
      ∀ x ∈ (tokenize source
          ⟨instructions, false, .ofNumbers maxDepth bufferSize⟩).tokens.toList.map Token.toLexeme,
        x.kind = .indent → x.widthBelow? source = some x.payload := by
  intro h
  have htokens : ⟨.indent, ⟨1, 2⟩, 0⟩ ∈
      (tokenize [.bar, .lineFeed, .space, .bar]
        ⟨false, false, .ofNumbers (some (.ofNat 1)) none⟩).tokens.toList.map Token.toLexeme := by
    decide +kernel
  exact absurd (h _ _ _ _ _ htokens rfl) (by decide +kernel)

end Offside
