import Offside.Proofs.Cursor
import Offside.Tokenize

/-! Reading, seen from the text ahead. A place is what a reader still depends on, a move is one step
from place to place, and a run is a sequence of moves to the end of input. Main statement: from
every place but the end there is a move. -/

namespace Offside

open Text (returns)

def CodeUnit.isPlain (u : CodeUnit) : Bool := u != lineFeed && u != openBrace

structure Place where
  mode : Mode
  scanner : Scanner
  offset : Nat
  ahead : Text

namespace Scanner

def Owes (s : Scanner) (target : Int) : Prop :=
  s.deferred = some target ∧ target < s.blocks.current ∧ 1 < s.blocks.depth

def settled (s : Scanner) : Scanner := { s with deferred := none }

def dedentTo (s : Scanner) (target : Int) : Scanner :=
  { s with
    blocks := s.blocks.pop
    deferred := if s.blocks.pop.current ≤ target then none else some target }

/-- The scanner has no token for the end of input or the line break ahead. -/
structure Declines (s : Scanner) (t : Text) : Prop where
  atEnd : ∀ k, t = returns k → s.blocks.current = 0
  atBreak : ∀ k rest, t = returns k ++ .lineFeed :: rest →
    (Margin.ofText rest).width = s.blocks.current ∧ rest.length ≤ (Margin.ofText rest).passed

end Scanner

/-- Neither instruction text nor a dedent that is owed comes next. -/
structure Quiet (m : Mode) (s : Scanner) (t : Text) : Prop where
  yields : m = .text → ∀ u, t.head? = some u → u = .lineFeed
  settled : ∀ target, ¬s.Owes target

inductive Move (instructions : Bool) : Place → Option Lexeme → List Notice → Place → Prop
  | interpolation {s o t} :
      Move instructions ⟨.text, s, o, .openBrace :: .bang :: t⟩
        (some ⟨.interpolationStart, ⟨o, o + 2⟩, 0⟩) [] ⟨.interpolation, s, o + 2, t⟩
  | segment {s o u run rest} : u ≠ .lineFeed →
      (u = .openBrace → (run ++ rest).head? ≠ some .bang) → (∀ v ∈ run, v.isPlain = true) →
      (∀ v, rest.head? = some v → v.isPlain = false) →
      Move instructions ⟨.text, s, o, u :: run ++ rest⟩
        (some ⟨.textSegment, ⟨o, o + (u :: run).length⟩, 0⟩) []
        ⟨.text, s, o + (u :: run).length, rest⟩
  | owed {m s o t target} : (m = .text → ∀ u, t.head? = some u → u = .lineFeed) →
      s.Owes target →
      Move instructions ⟨m, s, o, t⟩ (some ⟨.dedent, ⟨o, o⟩, s.blocks.pop.current⟩) []
        ⟨.lines, s.dedentTo target, o, t⟩
  | indent {m s o k t b} : Quiet m s (returns k ++ .lineFeed :: t) →
      s.blocks.current < (Margin.ofText t).width →
      s.blocks.push? (Margin.ofText t).width = some b →
      Move instructions ⟨m, s, o, returns k ++ .lineFeed :: t⟩
        (some ⟨.indent, ⟨o + k, o + k + 1⟩, b.current⟩) []
        ⟨.lines, { s with blocks := b, deferred := none }, o + k + 1, t⟩
  | capped {m s o k t} : Quiet m s (returns k ++ .lineFeed :: t) →
      s.blocks.current < (Margin.ofText t).width →
      s.blocks.push? (Margin.ofText t).width = none →
      Move instructions ⟨m, s, o, returns k ++ .lineFeed :: t⟩
        (some ⟨.indent, ⟨o + k, o + k + 1⟩, s.blocks.current⟩)
        [.depthLimit s.blocks.capacity (Margin.ofText t).width] ⟨.lines, s.settled, o + k + 1, t⟩
  | dedent {m s o k t} : Quiet m s (returns k ++ .lineFeed :: t) →
      (Margin.ofText t).width < s.blocks.current →
      Move instructions ⟨m, s, o, returns k ++ .lineFeed :: t⟩
        (some ⟨.dedent, ⟨o + k, o + k + 1⟩, s.blocks.pop.current⟩) []
        ⟨.lines, s.dedentTo (Margin.ofText t).width, o + k + 1, t⟩
  | newline {m s o k t} : Quiet m s (returns k ++ .lineFeed :: t) →
      (Margin.ofText t).width = s.blocks.current → (Margin.ofText t).passed < t.length →
      Move instructions ⟨m, s, o, returns k ++ .lineFeed :: t⟩
        (some ⟨.newline, ⟨o + k, o + k + 1⟩, 0⟩) [] ⟨.lines, s.settled, o + k + 1, t⟩
  | closing {m s o k} : Quiet m s (returns k) → 0 < s.blocks.current →
      Move instructions ⟨m, s, o, returns k⟩
        (some ⟨.dedent, ⟨o + k, o + k⟩, s.blocks.pop.current⟩) []
        ⟨.lines, s.dedentTo 0, o + k, []⟩
  | blanks {m s o run rest} : m ≠ .text → Quiet m s (run ++ rest) → run ≠ [] →
      (∀ u ∈ run, u.isBlank = true) →
      (∀ u, rest.head? = some u → u.isBlank = false ∧ u ≠ .hash) →
      Move instructions ⟨m, s, o, run ++ rest⟩ none [] ⟨m, s.settled, o + run.length, rest⟩
  | comment {m s o run body rest} : m ≠ .text → Quiet m s (run ++ .hash :: body ++ rest) →
      (∀ u ∈ run, u.isBlank = true) → .lineFeed ∉ body →
      (∀ u, rest.head? = some u → u = .lineFeed) →
      Move instructions ⟨m, s, o, run ++ .hash :: body ++ rest⟩ none []
        ⟨m, s.settled, o + (run ++ .hash :: body).length, rest⟩
  | skip {m s o u t} : Quiet m s (u :: t) → s.Declines (u :: t) →
      u = .lineFeed ∨ u = .carriageReturn →
      Move instructions ⟨m, s, o, u :: t⟩ none [] ⟨m, s.settled, o + 1, t⟩
  | single {m s o u t} : m ≠ .text → Quiet m s (u :: t) → u.standsAlone = true →
      Move instructions ⟨m, s, o, u :: t⟩ (some ⟨.content, ⟨o, o + 1⟩, 0⟩) []
        ⟨m.afterContent [u] instructions, s.settled, o + 1, t⟩
  | word {m s o run rest} : m ≠ .text → Quiet m s (run ++ rest) → run ≠ [] →
      (∀ u ∈ run, u.isContent = true) → (∀ u, rest.head? = some u → u.isContent = false) →
      Move instructions ⟨m, s, o, run ++ rest⟩ (some ⟨.content, ⟨o, o + run.length⟩, 0⟩) []
        ⟨m.afterContent run instructions, s.settled, o + run.length, rest⟩

inductive Run (instructions : Bool) : Place → List Lexeme → List Notice → Scanner → Prop
  | stop {m s o} : Quiet m s [] → s.Declines [] →
      Run instructions ⟨m, s, o, []⟩ [⟨.endOfInput, ⟨o, o⟩, 0⟩] [] s.settled
  | move {p q x ns xs ms last} : Move instructions p x ns q → Run instructions q xs ms last →
      Run instructions p (x.toList ++ xs) (ns ++ ms) last

def Place.In (source : Text) (p : Place) : Prop :=
  ∃ behind, source = behind ++ p.ahead ∧ behind.length = p.offset

namespace Move

variable {instructions : Bool} {p q : Place} {x : Option Lexeme} {ns : List Notice}

theorem exists_passed (h : Move instructions p x ns q) :
    ∃ passed, p.ahead = passed ++ q.ahead ∧ q.offset = p.offset + passed.length := by
  have hbreak : ∀ (o k : Nat) (t : Text), ∃ passed,
      returns k ++ .lineFeed :: t = passed ++ t ∧ o + k + 1 = o + passed.length := by
    intro o k t
    refine ⟨returns k ++ [.lineFeed], by simp, ?_⟩
    rw [List.length_append, Text.length_returns, ← Nat.add_assoc]
    rfl
  cases h with
  | interpolation => exact ⟨[_, _], rfl, rfl⟩
  | segment => exact ⟨_, rfl, rfl⟩
  | owed => exact ⟨[], rfl, rfl⟩
  | indent => exact hbreak ..
  | capped => exact hbreak ..
  | dedent => exact hbreak ..
  | newline => exact hbreak ..
  | closing => exact ⟨_, (List.append_nil _).symm, by rw [Text.length_returns]⟩
  | blanks => exact ⟨_, rfl, rfl⟩
  | comment => exact ⟨_, rfl, rfl⟩
  | skip => exact ⟨[_], rfl, rfl⟩
  | single => exact ⟨[_], rfl, rfl⟩
  | word => exact ⟨_, rfl, rfl⟩

theorem place_in {source : Text} (h : Move instructions p x ns q) (hp : p.In source) :
    q.In source := by
  obtain ⟨behind, hsource, hlength⟩ := hp
  obtain ⟨passed, hahead, hoffset⟩ := h.exists_passed
  refine ⟨behind ++ passed, ?_, ?_⟩
  · rw [hsource, hahead, List.append_assoc]
  · rw [List.length_append, hlength, hoffset]

end Move

namespace Scanner.Declines

variable {s : Scanner}

theorem of_head {p : CodeUnit → Bool} {t : Text} {u : CodeUnit} (h : t.head? = some u)
    (hu : p u = true) (hp : p .lineFeed = false ∧ p .carriageReturn = false) : s.Declines t := by
  constructor
  · rintro (_ | k) rfl
    · cases h
    · cases h
      cases hu.symm.trans hp.2
  · rintro (_ | k) rest rfl
    · cases h
      cases hu.symm.trans hp.1
    · cases h
      cases hu.symm.trans hp.2

theorem of_run {p : CodeUnit → Bool} {run rest : Text} (hne : run ≠ [])
    (hrun : ∀ u ∈ run, p u = true) (hp : p .lineFeed = false ∧ p .carriageReturn = false) :
    s.Declines (run ++ rest) := by
  obtain ⟨u, run, rfl⟩ := List.exists_cons_of_ne_nil hne
  exact .of_head rfl (hrun u List.mem_cons_self) hp

end Scanner.Declines

namespace Move

variable {instructions : Bool} {m : Mode} {s : Scanner} {o k : Nat} {u : CodeUnit} {t : Text}

theorem exists_of_text (hu : u ≠ .lineFeed) :
    ∃ x ns q, Move instructions ⟨.text, s, o, u :: t⟩ x ns q := by
  by_cases hbang : u = .openBrace ∧ t.head? = some .bang
  · obtain ⟨rfl, hbang⟩ := hbang
    obtain ⟨t, rfl⟩ := List.head?_eq_some_iff.1 hbang
    exact ⟨_, _, _, .interpolation⟩
  · obtain ⟨run, rest, rfl, hrun, hrest⟩ := t.eq_run_append CodeUnit.isPlain
    exact ⟨_, _, _, .segment hu (fun h h' => hbang ⟨h, h'⟩) hrun hrest⟩

theorem exists_of_end (hq : Quiet m s (returns k)) :
    (∃ x ns q, Move instructions ⟨m, s, o, returns k⟩ x ns q) ∨ s.Declines (returns k) := by
  rcases Nat.eq_zero_or_pos s.blocks.current with h0 | hpos
  · refine .inr ⟨fun _ _ => h0, fun k' rest h => ?_⟩
    exact absurd h (Text.returns_ne_append (by decide) k k' rest)
  · exact .inl ⟨_, _, _, .closing hq hpos⟩

theorem exists_of_break (hq : Quiet m s (returns k ++ .lineFeed :: t)) :
    (∃ x ns q, Move instructions ⟨m, s, o, returns k ++ .lineFeed :: t⟩ x ns q) ∨
      s.Declines (returns k ++ .lineFeed :: t) := by
  rcases Nat.lt_trichotomy (Margin.ofText t).width s.blocks.current with hw | hw | hw
  · exact .inl ⟨_, _, _, .dedent hq hw⟩
  · rcases Nat.lt_or_ge (Margin.ofText t).passed t.length with hp | hp
    · exact .inl ⟨_, _, _, .newline hq hw hp⟩
    · refine .inr ⟨fun k' h => ?_, fun k' rest h => ?_⟩
      · exact absurd h.symm (Text.returns_ne_append (by decide) k' k t)
      · obtain ⟨-, -, rfl⟩ := Text.returns_append_inj (by decide) (by decide) h
        exact ⟨hw, hp⟩
  · cases hb : s.blocks.push? (Margin.ofText t).width with
    | some b => exact .inl ⟨_, _, _, .indent hq hw hb⟩
    | none => exact .inl ⟨_, _, _, .capped hq hw hb⟩

theorem exists_of_layout (hm : m ≠ .text) (hq : Quiet m s (u :: t))
    (hu : u.isBlank = true ∨ u = .hash) :
    ∃ x ns q, Move instructions ⟨m, s, o, u :: t⟩ x ns q := by
  obtain ⟨run, rest, hrun, hblank, hrest⟩ := Text.eq_run_append CodeUnit.isBlank (u :: t)
  by_cases hhash : rest.head? = some .hash
  · obtain ⟨t', rfl⟩ := List.head?_eq_some_iff.1 hhash
    obtain ⟨body, rest, rfl, hbody, hrest'⟩ := Text.eq_run_append (· != .lineFeed) t'
    have hlf : .lineFeed ∉ body := fun h => by simpa using hbody _ h
    have hend : ∀ u, rest.head? = some u → u = .lineFeed := by simpa using hrest'
    rw [← List.cons_append, ← List.append_assoc] at hrun
    rw [hrun] at hq ⊢
    exact ⟨_, _, _, .comment hm hq hblank hlf hend⟩
  · have hne : run ≠ [] := by
      rintro rfl
      rw [List.nil_append] at hrun
      subst hrun
      rcases hu with hu | rfl
      · cases hu.symm.trans (hrest u rfl)
      · exact hhash rfl
    rw [hrun] at hq ⊢
    refine ⟨_, _, _, .blanks hm hq hne hblank fun v hv => ⟨hrest v hv, ?_⟩⟩
    rintro rfl
    exact hhash hv

theorem exists_of_word (hm : m ≠ .text) (hq : Quiet m s (u :: t)) (hblank : u.isBlank = false)
    (hhash : u ≠ .hash) (hl : u ≠ .lineFeed) (hr : u ≠ .carriageReturn) :
    ∃ x ns q, Move instructions ⟨m, s, o, u :: t⟩ x ns q := by
  cases hu : u.standsAlone with
  | true => exact ⟨_, _, _, .single hm hq hu⟩
  | false =>
    obtain ⟨run, rest, hrun, hcontent, hrest⟩ := Text.eq_run_append CodeUnit.isContent (u :: t)
    have hne : run ≠ [] := by
      rintro rfl
      rw [List.nil_append] at hrun
      subst hrun
      simpa [CodeUnit.isContent, hblank, hhash, hl, hr, hu] using hrest u rfl
    rw [hrun] at hq ⊢
    exact ⟨_, _, _, .word hm hq hne hcontent hrest⟩

theorem exists_of_declines (hq : Quiet m s (u :: t)) (hd : s.Declines (u :: t)) :
    ∃ x ns q, Move instructions ⟨m, s, o, u :: t⟩ x ns q := by
  by_cases hbreak : u = .lineFeed ∨ u = .carriageReturn
  · exact ⟨_, _, _, .skip hq hd hbreak⟩
  · rw [not_or] at hbreak
    have hm : m ≠ .text := fun hm => hbreak.1 (hq.yields hm u rfl)
    cases hblank : u.isBlank with
    | true => exact exists_of_layout hm hq (.inl hblank)
    | false =>
      by_cases hhash : u = .hash
      · exact exists_of_layout hm hq (.inr hhash)
      · exact exists_of_word hm hq hblank hhash hbreak.1 hbreak.2

end Move

theorem Place.exists_move (instructions : Bool) (m : Mode) (s : Scanner) (o : Nat) (t : Text) :
    (∃ x ns q, Move instructions ⟨m, s, o, t⟩ x ns q) ∨
      t = [] ∧ Quiet m s [] ∧ s.Declines [] := by
  by_cases ht : ∃ u, m = .text ∧ t.head? = some u ∧ u ≠ .lineFeed
  · obtain ⟨u, rfl, hu, hne⟩ := ht
    obtain ⟨t, rfl⟩ := List.head?_eq_some_iff.1 hu
    exact .inl (Move.exists_of_text hne)
  · have hy : m = .text → ∀ u, t.head? = some u → u = .lineFeed := fun hm u hu =>
      Decidable.byContradiction fun hne => ht ⟨u, hm, hu, hne⟩
    by_cases ho : ∃ target, s.Owes target
    · obtain ⟨target, ho⟩ := ho
      exact .inl ⟨_, _, _, .owed hy ho⟩
    · have hq : Quiet m s t := ⟨hy, not_exists.1 ho⟩
      have hmove : (∃ x ns q, Move instructions ⟨m, s, o, t⟩ x ns q) ∨ s.Declines t := by
        obtain ⟨k, rest, rfl, hrest⟩ := t.eq_returns_append
        cases rest with
        | nil =>
          rw [List.append_nil] at hq ⊢
          exact Move.exists_of_end hq
        | cons u t =>
          by_cases hu : u = .lineFeed
          · subst hu
            exact Move.exists_of_break hq
          · refine .inr ⟨fun k' h => ?_, fun k' rest h => ?_⟩
            · exact absurd h.symm (Text.returns_ne_append (by simpa using hrest) k' k t)
            · obtain ⟨-, hl, -⟩ :=
                Text.returns_append_inj (by simpa using hrest) (by decide) h
              exact absurd hl hu
      rcases hmove with hmove | hd
      · exact .inl hmove
      · cases t with
        | nil => exact .inr ⟨rfl, hq, hd⟩
        | cons u t => exact .inl (Move.exists_of_declines hq hd)

end Offside
