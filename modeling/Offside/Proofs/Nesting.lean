import Offside.Proofs.Blocks
import Offside.Proofs.Steps

/-! Indents and dedents nest. Replaying the tokens of a source on a stack of widths, and nothing
else of the scanner, goes through and ends where it started. Main statement: the tokens of a source
are balanced, up to the indents of blocks too deep to be tracked. -/

namespace Offside

def Kind.keepsBlocks : Kind → Bool
  | .indent | .dedent | .endOfInput => false
  | _ => true

namespace Kind

theorem ne_of_keepsBlocks {kind : Kind} (h : kind.keepsBlocks = true) :
    kind ≠ .indent ∧ kind ≠ .dedent := by
  cases kind <;> simp_all [keepsBlocks]

end Kind

namespace Nesting

/-- What a token does to a stack of widths, innermost first, if it is due there. -/
def step (capacity : Nat) (stack : List Nat) (x : Lexeme) : Option (List Nat) :=
  match x.kind with
  | .indent =>
    if stack.length < capacity then
      if stack.headD 0 < x.payload then some (x.payload :: stack) else none
    else if stack.length = capacity ∧ x.payload = stack.headD 0 then some stack
    else none
  | .dedent =>
    match stack with
    | _ :: outer :: rest => if x.payload = outer then some (outer :: rest) else none
    | _ => none
  | .endOfInput => if stack = [0] then some stack else none
  | _ => some stack

def replay (capacity : Nat) (xs : List Lexeme) (stack : List Nat) : Option (List Nat) :=
  xs.foldlM (step capacity) stack

def count (kind : Kind) (xs : List Lexeme) : Nat := xs.countP (·.kind = kind)

def untracked (ns : List Notice) : Nat := ns.countP (·.code = .depthLimit)

/-- What a move can do to the open blocks, and how its token and notices show it. -/
inductive Turn : Blocks → Option Lexeme → List Notice → Blocks → Prop
  | opening {b b' width x} : b.push? width = some b' → x.kind = .indent → x.payload = width →
      Turn b (some x) [] b'
  | capped {b width x} : b.current < width → b.push? width = none → x.kind = .indent →
      x.payload = b.current → Turn b (some x) [.depthLimit b.capacity width] b
  | closing {b x} : b.opened ≠ [] → x.kind = .dedent → x.payload = b.pop.current →
      Turn b (some x) [] b.pop
  | token {b x} : x.kind.keepsBlocks = true → Turn b (some x) [] b
  | layout {b} : Turn b none [] b

section Step

variable {capacity : Nat} {stack : List Nat} {x : Lexeme}

theorem step_of_keepsBlocks (h : x.kind.keepsBlocks = true) :
    step capacity stack x = some stack := by
  simp only [step]
  cases hk : x.kind with
  | indent => simp [hk, Kind.keepsBlocks] at h
  | dedent => simp [hk, Kind.keepsBlocks] at h
  | endOfInput => simp [hk, Kind.keepsBlocks] at h
  | newline => rfl
  | interpolationStart => rfl
  | textSegment => rfl
  | content => rfl

theorem step_of_indent (h : x.kind = .indent) (hl : stack.length < capacity)
    (hp : stack.headD 0 < x.payload) : step capacity stack x = some (x.payload :: stack) := by
  simp only [step, h, hl, hp, if_true]

theorem step_of_capped (h : x.kind = .indent) (hl : stack.length = capacity)
    (hp : x.payload = stack.headD 0) : step capacity stack x = some stack := by
  simp only [step, h, hl, hp, Nat.lt_irrefl, if_false, and_self, if_true]

theorem step_of_dedent {b : Blocks} (h : x.kind = .dedent) (hb : b.opened ≠ [])
    (hp : x.payload = b.pop.current) : step capacity b.stack x = some b.pop.stack := by
  obtain ⟨rest, hrest⟩ := b.pop.exists_stack
  simp only [step, h, Blocks.stack_of_ne_nil hb, hrest, hp, if_true]

end Step

namespace Turn

variable {b b' : Blocks} {x : Option Lexeme} {ns : List Notice}

theorem sound (h : Turn b x ns b') (hb : b.Sound) : b'.Sound := by
  cases h with
  | opening hpush => exact hb.push hpush
  | capped => exact hb
  | closing => exact hb.pop
  | token => exact hb
  | layout => exact hb

theorem capacity_eq (h : Turn b x ns b') : b'.capacity = b.capacity := by
  cases h with
  | opening hpush =>
    obtain ⟨-, -, rfl⟩ := Blocks.push?_eq_some_iff.1 hpush
    rfl
  | capped => rfl
  | closing => rfl
  | token => rfl
  | layout => rfl

theorem replay_eq (h : Turn b x ns b') (hb : b.Sound) :
    replay b.capacity x.toList b.stack = some b'.stack := by
  cases h with
  | opening hpush hk hp =>
    obtain ⟨hw, hd, rfl⟩ := Blocks.push?_eq_some_iff.1 hpush
    rw [← hp, ← Blocks.headD_stack] at hw
    rw [← Blocks.length_stack] at hd
    simp only [replay, Option.toList, List.foldlM_cons, step_of_indent hk hd hw, ← hp]
    rfl
  | capped hw hpush hk hp =>
    have hfull : ¬b.depth < b.capacity := by
      intro hd
      rw [Blocks.push?_of_lt hw, if_pos hd] at hpush
      cases hpush
    have hl : b.stack.length = b.capacity := by
      rw [Blocks.length_stack]
      exact Nat.le_antisymm hb.fits (Nat.not_lt.1 hfull)
    rw [← Blocks.headD_stack] at hp
    simp only [replay, Option.toList, List.foldlM_cons, step_of_capped hk hl hp]
    rfl
  | closing hne hk hp =>
    simp only [replay, Option.toList, List.foldlM_cons, step_of_dedent hk hne hp]
    rfl
  | token hk =>
    simp only [replay, Option.toList, List.foldlM_cons, step_of_keepsBlocks hk]
    rfl
  | layout => rfl

theorem replay_append (h : Turn b x ns b') (hb : b.Sound) (xs : List Lexeme) :
    replay b.capacity (x.toList ++ xs) b.stack = replay b.capacity xs b'.stack := by
  have hx := h.replay_eq hb
  rw [replay] at hx ⊢
  rw [List.foldlM_append, hx]
  rfl

theorem count_eq (h : Turn b x ns b') :
    count .indent x.toList + b.opened.length =
      count .dedent x.toList + untracked ns + b'.opened.length := by
  cases h with
  | opening hpush hk =>
    obtain ⟨-, -, rfl⟩ := Blocks.push?_eq_some_iff.1 hpush
    simp [count, untracked, hk, Nat.add_comm]
  | capped _ _ hk => simp [count, untracked, hk, Notice.code]
  | closing hne hk =>
    have hpos := List.length_pos_iff.2 hne
    simp only [count, untracked, hk, Option.toList, List.countP_singleton, List.countP_nil,
      Blocks.length_opened_pop]
    simp [Nat.add_sub_cancel' hpos]
  | token hk =>
    obtain ⟨hi, hd⟩ := Kind.ne_of_keepsBlocks hk
    simp [count, untracked, hi, hd]
  | layout => simp [count, untracked]

end Turn

end Nesting

open Nesting

theorem Move.turn {instructions : Bool} {p q : Place} {x : Option Lexeme} {ns : List Notice}
    (h : Move instructions p x ns q) : Turn p.scanner.blocks x ns q.scanner.blocks := by
  cases h with
  | interpolation => exact .token rfl
  | segment => exact .token rfl
  | owed _ ho =>
    have hne : 0 < _ := Nat.lt_of_succ_lt_succ ho.2.2
    exact .closing (List.ne_nil_of_length_pos hne) rfl rfl
  | indent _ _ hpush =>
    refine .opening hpush rfl ?_
    obtain ⟨-, -, rfl⟩ := Blocks.push?_eq_some_iff.1 hpush
    rfl
  | capped _ hw hpush => exact .capped hw hpush rfl rfl
  | dedent _ hw => exact .closing (Blocks.opened_ne_nil_of_lt_current hw) rfl rfl
  | newline => exact .token rfl
  | closing _ hw => exact .closing (Blocks.opened_ne_nil_of_lt_current hw) rfl rfl
  | blanks => exact .layout
  | comment => exact .layout
  | skip => exact .layout
  | single => exact .token rfl
  | word => exact .token rfl

/-- The tokens of a source close every block that they open. -/
structure Balanced (capacity : Nat) (b : Blocks) (xs : List Lexeme) (ns : List Notice)
    (last : Scanner) : Prop where
  replays : replay capacity xs b.stack = some [0]
  counts : count .indent xs + b.opened.length = count .dedent xs + untracked ns
  entries : last.blocks.entries = [0]
  settled : last.deferred = none

theorem Run.balanced {instructions : Bool} {p : Place} {xs : List Lexeme} {ns : List Notice}
    {last : Scanner} (h : Run instructions p xs ns last) (hp : p.scanner.blocks.Sound) :
    Balanced p.scanner.blocks.capacity p.scanner.blocks xs ns last := by
  induction h with
  | @stop m s o hq hd =>
    -- Only the width is known to be zero here; that no block is open follows from the nesting.
    have hnil : s.blocks.opened = [] := hp.opened_eq_nil (hd.atEnd 0 rfl)
    have hstack := hp.stack_eq (hd.atEnd 0 rfl)
    refine ⟨?_, ?_, ?_, rfl⟩
    · rw [hstack]
      rfl
    · rw [hnil]
      rfl
    · rw [Scanner.settled, Blocks.entries_eq_reverse_stack, hstack]
      rfl
  | @move p q x ns xs ms last hmove _ ih =>
    have hturn := hmove.turn
    have hrest := ih (hturn.sound hp)
    rw [hturn.capacity_eq] at hrest
    refine ⟨?_, ?_, hrest.entries, hrest.settled⟩
    · rw [hturn.replay_append hp]
      exact hrest.replays
    · have hx := hturn.count_eq
      have hxs := hrest.counts
      simp only [count, untracked, List.countP_append] at hx hxs ⊢
      omega

/-- Whatever the source and the settings, the indents and dedents of its tokens are balanced: there
is one dedent for every indent but those reported as too deep, and the scanner is left at the base
with nothing deferred. -/
theorem tokens_balanced (source : Text) (instructions trace : Bool)
    (maxDepth bufferSize : Option Number) :
    let settings := Settings.ofNumbers maxDepth bufferSize
    let result := tokenize source ⟨instructions, trace, settings⟩
    let tokens := result.tokens.toList.map Token.toLexeme
    let notices := (tokenize source ⟨instructions, true, settings⟩).events.filterMap Event.notice?
    replay settings.capacity tokens [0] = some [0] ∧
      count .indent tokens = count .dedent tokens + untracked notices ∧
      result.scanner.blocks.entries = [0] ∧ result.scanner.deferred = none := by
  intro settings result tokens notices
  have hsound := Blocks.sound_base (Settings.capacity_bounds maxDepth bufferSize).1
  have hrun := (tokenize_isRun source ⟨instructions, trace, settings⟩).balanced hsound
  exact ⟨hrun.replays, hrun.counts, hrun.entries, hrun.settled⟩

end Offside
