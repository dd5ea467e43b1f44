import Offside.Proofs.TextLines
import Offside.Proofs.Tiling

/-! The protocol of modes. Which kinds of token can stand in a mode and where they lead is an
automaton over tokens, which knows nothing of the scanner. Main statement: it accepts the tokens of
every source, and where it is in text, nothing but line feeds is left out between tokens. -/

namespace Offside

namespace Mode

/-- The mode behind a token of a kind and with a text, if such a token can stand in a mode. -/
def next? (instructions : Bool) (kind : Kind) (text : Text) : Mode → Option Mode
  | .lines =>
    match kind with
    | .newline | .indent | .dedent | .endOfInput => some .lines
    | .content => if instructions ∧ text = [.bar] then some .text else some .lines
    | .interpolationStart | .textSegment => none
  | .text =>
    match kind with
    | .textSegment | .endOfInput => some .text
    | .interpolationStart => some .interpolation
    | .newline | .indent | .dedent => some .lines
    | .content => none
  | .interpolation =>
    match kind with
    | .content => if text = [.closeBrace] then some .text else some .interpolation
    | .newline | .indent | .dedent => some .lines
    | .endOfInput => some .interpolation
    | .interpolationStart | .textSegment => none

def replay (source : Text) (instructions : Bool) (mode : Mode) (xs : List Lexeme) : Option Mode :=
  xs.foldlM (fun mode x => mode.next? instructions x.kind (x.text source)) mode

section Replay

variable {source : Text} {instructions : Bool} {mode : Mode}

theorem next?_eq_after {x : Lexeme} (ht : x.kind.isInstruction = true → mode = .text)
    (hc : x.kind = .content → mode ≠ .text) :
    mode.next? instructions x.kind (x.text source) = some (mode.after source instructions x) := by
  rw [after]
  cases hk : x.kind with
  | newline => cases mode <;> rfl
  | indent => cases mode <;> rfl
  | dedent => cases mode <;> rfl
  | endOfInput => cases mode <;> rfl
  | interpolationStart =>
    rw [hk] at ht
    rw [ht rfl]
    rfl
  | textSegment =>
    rw [hk] at ht
    rw [ht rfl]
    rfl
  | content =>
    cases mode with
    | lines => exact (apply_ite some _ _ _).symm
    | interpolation => exact (apply_ite some _ _ _).symm
    | text => exact absurd rfl (hc hk)

end Replay

end Mode

theorem Quiet.eq_zero_of_text {m : Mode} {s : Scanner} {k : Nat} {t rest : Text}
    (h : Quiet m s t) (ht : t = Text.returns k ++ rest) (hm : m = .text) : k = 0 := by
  cases k with
  | zero => rfl
  | succ k =>
    subst ht
    exact absurd (h.yields hm .carriageReturn rfl) (by decide)

theorem Place.In.getElem?_eq {source : Text} {p : Place} (hp : p.In source) :
    source[p.offset]? = p.ahead.head? := by
  obtain ⟨behind, rfl, hlength⟩ := hp
  rw [← hlength, List.getElem?_append_right (Nat.le_refl _), Nat.sub_self, List.head?_eq_getElem?]

namespace Move

variable {instructions : Bool} {source : Text} {p q : Place} {x : Option Lexeme}
  {ns : List Notice}

theorem mode_ne_text (h : Move instructions p x ns q) :
    ∀ y ∈ x, y.kind = .content → p.mode ≠ .text := by
  rintro y ⟨⟩ hk
  cases h with
  | single hm => exact hm
  | word hm => exact hm
  | _ => cases hk

theorem replay_append (h : Move instructions p x ns q) (hp : p.In source) (xs : List Lexeme) :
    p.mode.replay source instructions (x.toList ++ xs) = q.mode.replay source instructions xs := by
  rw [h.mode_eq hp]
  cases x with
  | none => rfl
  | some y =>
    have hnext : p.mode.next? instructions y.kind (y.text source) =
        some (p.mode.after source instructions y) :=
      Mode.next?_eq_after (h.mode_eq_text y rfl) (h.mode_ne_text y rfl)
    rw [Option.toList_some, List.singleton_append, Mode.replay, List.foldlM_cons, hnext]
    rfl

theorem stop_eq (h : Move instructions p x ns q) : ∀ y ∈ x, y.span.stop = q.offset := by
  rintro y ⟨⟩
  cases h <;> rfl

theorem start_of_text (h : Move instructions p x ns q) (hm : p.mode = .text) :
    ∀ y ∈ x, y.span.start = p.offset := by
  rintro y ⟨⟩
  cases h with
  | interpolation => rfl
  | segment => rfl
  | owed => rfl
  | indent hq => exact congrArg (_ + ·) (hq.eq_zero_of_text rfl hm)
  | capped hq => exact congrArg (_ + ·) (hq.eq_zero_of_text rfl hm)
  | dedent hq => exact congrArg (_ + ·) (hq.eq_zero_of_text rfl hm)
  | newline hq => exact congrArg (_ + ·) (hq.eq_zero_of_text rfl hm)
  | closing hq => exact congrArg (_ + ·) (hq.eq_zero_of_text (List.append_nil _).symm hm)
  | single hne => exact absurd hm hne
  | word hne => exact absurd hm hne

theorem lineFeed_of_text (h : Move instructions p none ns q) (hp : p.In source)
    (hm : p.mode = .text) {i : Nat} {u : CodeUnit} (hi : p.offset ≤ i) (hlt : i < q.offset)
    (hu : source[i]? = some u) : u = .lineFeed := by
  cases h with
  | blanks hne => exact absurd hm hne
  | comment hne => exact absurd hm hne
  | @skip m s o v t hq =>
    obtain rfl : i = o := Nat.le_antisymm (Nat.le_of_lt_succ hlt) hi
    have hv : source[i]? = some v := hp.getElem?_eq
    rw [hv] at hu
    rw [← Option.some.inj hu]
    exact hq.yields hm v rfl

end Move

section Protocol

variable {instructions : Bool} {source : Text} {p : Place} {xs : List Lexeme} {ns : List Notice}
  {last : Scanner}

theorem Run.exists_replay (h : Run instructions p xs ns last) (hp : p.In source) :
    ∃ mode, p.mode.replay source instructions xs = some mode := by
  induction h with
  | @stop m s o =>
    refine ⟨m, ?_⟩
    cases m <;> rfl
  | move hmove _ ih =>
    rw [hmove.replay_append hp]
    exact ih (hmove.place_in hp)

theorem Run.lineFeed_of_text (h : Run instructions p xs ns last) (hp : p.In source)
    {before after : List Lexeme} (hxs : xs = before ++ after)
    (hm : p.mode.replay source instructions before = some .text) {i : Nat} {u : CodeUnit}
    (hi : p.offset ≤ i) (hbefore : ∀ x ∈ before, x.span.stop ≤ i)
    (hafter : ∀ x ∈ after, i < x.span.start) (hu : source[i]? = some u) : u = .lineFeed := by
  induction h generalizing before with
  | stop =>
    obtain ⟨behind, rfl, hlength⟩ := hp
    rw [List.append_nil, List.getElem?_eq_none (by rwa [hlength])] at hu
    cases hu
  | @move p q x ns xs ms last hmove hrun ih =>
    have hq := hmove.place_in hp
    have hmode := hmove.replay_append hp
    cases x with
    | none =>
      change xs = before ++ after at hxs
      rcases Nat.lt_or_ge i q.offset with hlt | hge
      · -- No token comes before the unit, because every later one starts behind it.
        cases before with
        | nil => exact hmove.lineFeed_of_text hp (Option.some.inj hm) hi hlt hu
        | cons y before =>
          have hy : y ∈ xs := by
            rw [hxs]
            exact List.mem_cons_self
          have hstop := (hrun.tiling hq).offset_le_stop y hy
          exact absurd (Nat.le_trans hstop (hbefore y List.mem_cons_self)) (Nat.not_le.2 hlt)
      · exact ih hq hxs ((hmode before).symm.trans hm) hge hbefore
    | some y =>
      cases before with
      | nil =>
        subst hxs
        have hstart := hafter y List.mem_cons_self
        rw [hmove.start_of_text (Option.some.inj hm) y rfl] at hstart
        exact absurd hi (Nat.not_le.2 hstart)
      | cons first before =>
        obtain ⟨rfl, hrest⟩ := List.cons.inj hxs
        apply ih hq hrest ((hmode before).symm.trans hm)
        · rw [← hmove.stop_eq y rfl]
          exact hbefore y List.mem_cons_self
        · intro z hz
          exact hbefore z (List.mem_cons_of_mem y hz)

end Protocol

/-- The automaton accepts the tokens of every source from lines on. Wherever the tokens in front of
a unit lead to text and the unit belongs to no token, it is a line feed. -/
theorem tokens_follow_modes (source : Text) (options : Options) :
    let tokens := (tokenize source options).tokens.toList.map Token.toLexeme
    (∃ mode, Mode.lines.replay source options.instructions tokens = some mode) ∧
      ∀ before after, tokens = before ++ after →
        Mode.lines.replay source options.instructions before = some .text →
        ∀ i u, (∀ x ∈ before, x.span.stop ≤ i) → (∀ x ∈ after, i < x.span.start) →
          source[i]? = some u → u = .lineFeed := by
  intro tokens
  have hrun := tokenize_isRun source options
  have hstart : (Reader.start source options.settings).place.In source := ⟨[], rfl, rfl⟩
  refine ⟨hrun.exists_replay hstart, ?_⟩
  intro before after htokens hmode i u hbefore hafter hu
  exact hrun.lineFeed_of_text hstart htokens hmode (Nat.zero_le i) hbefore hafter hu

end Offside
