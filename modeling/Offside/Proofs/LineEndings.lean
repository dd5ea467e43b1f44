import Offside.Proofs.Outline
import Offside.Proofs.TextLines

/-! Sources whose lines end with a carriage return and a line feed. Every move over a text has moves
over its rewrapped twin to answer it. Main statement: the tokens of the two agree in kind, payload,
line and text, but for the carriage returns that instruction text takes in. -/

namespace Offside

open Text (returns)

namespace Text

def crlf (t : Text) : Text :=
  t.flatMap fun u => if u = .lineFeed then [.carriageReturn, .lineFeed] else [u]

@[simp] theorem crlf_nil : crlf [] = [] := rfl

@[simp] theorem crlf_lineFeed (t : Text) :
    crlf (.lineFeed :: t) = .carriageReturn :: .lineFeed :: t.crlf := rfl

theorem crlf_cons {u : CodeUnit} (hu : u ≠ .lineFeed) (t : Text) :
    crlf (u :: t) = u :: t.crlf := by
  rw [crlf, List.flatMap_cons, if_neg hu]
  rfl

theorem crlf_append (s t : Text) : crlf (s ++ t) = s.crlf ++ t.crlf := List.flatMap_append

theorem crlf_eq_self {t : Text} (h : .lineFeed ∉ t) : t.crlf = t := by
  induction t with
  | nil => rfl
  | cons u t ih =>
    rw [List.mem_cons, not_or] at h
    rw [crlf_cons (Ne.symm h.1), ih h.2]

theorem crlf_run {run : Text} (h : .lineFeed ∉ run) (rest : Text) :
    crlf (run ++ rest) = run ++ rest.crlf := by
  rw [crlf_append, crlf_eq_self h]

theorem count_crlf (t : Text) : t.crlf.count .lineFeed = t.count .lineFeed := by
  induction t with
  | nil => rfl
  | cons u t ih =>
    by_cases hu : u = .lineFeed
    · subst hu
      rw [crlf_lineFeed, List.count_cons_of_ne (by decide), List.count_cons_self,
        List.count_cons_self, ih]
    · rw [crlf_cons hu, List.count_cons_of_ne hu, List.count_cons_of_ne hu, ih]

theorem head?_crlf {t : Text} {u : CodeUnit} (h : t.crlf.head? = some u) :
    t.head? = some u ∧ u ≠ .lineFeed ∨ t.head? = some .lineFeed ∧ u = .carriageReturn := by
  cases t with
  | nil => cases h
  | cons v t =>
    by_cases hv : v = .lineFeed
    · subst hv
      cases h
      exact .inr ⟨rfl, rfl⟩
    · rw [crlf_cons hv] at h
      cases h
      exact .inl ⟨rfl, hv⟩

theorem head?_crlf_ne_bang {t : Text} (h : t.head? ≠ some .bang) : t.crlf.head? ≠ some .bang := by
  intro hc
  rcases head?_crlf hc with ⟨hc, -⟩ | ⟨-, hc⟩
  · exact h hc
  · exact absurd hc (by decide)

end Text

namespace Margin

theorem measureFrom_crlf (comment : Bool) (width : Nat) {passed passed' stop stop' : Nat} (t : Text)
    (hstop : passed + t.length = stop) (hstop' : passed' + t.crlf.length = stop') :
    (measureFrom comment width passed' t.crlf).width = (measureFrom comment width passed t).width ∧
      ((measureFrom comment width passed' t.crlf).passed < stop' ↔
        (measureFrom comment width passed t).passed < stop) := by
  induction t generalizing comment width passed passed' with
  | nil =>
    subst hstop hstop'
    simp [measureFrom]
  | cons u t ih =>
    by_cases hu : u = .lineFeed
    · subst hu
      have hreturn : measureFrom comment width passed'
            (.carriageReturn :: .lineFeed :: Text.crlf t) =
          measureFrom false 0 (passed' + 2) (Text.crlf t) := by
        cases comment <;> rfl
      rw [Text.crlf_lineFeed, List.length_cons, List.length_cons] at hstop'
      rw [List.length_cons] at hstop
      rw [Text.crlf_lineFeed, hreturn, measureFrom_lineFeed]
      exact ih false 0 (by omega) (by omega)
    · rw [Text.crlf_cons hu, List.length_cons] at hstop'
      rw [List.length_cons] at hstop
      have hnext := fun comment width =>
        @ih comment width (passed + 1) (passed' + 1) (by omega) (by omega)
      simp only [Text.crlf_cons hu, measureFrom, hu, if_false]
      split
      · exact hnext ..
      · split
        · exact hnext ..
        · split
          · exact hnext ..
          · split
            · exact hnext ..
            · split
              · exact hnext ..
              · exact ⟨rfl, iff_of_true (by simp only; omega) (by simp only; omega)⟩

theorem width_crlf (t : Text) : (ofText t.crlf).width = (ofText t).width :=
  (measureFrom_crlf false 0 t rfl rfl).1

theorem passed_crlf_lt_iff (t : Text) :
    (ofText t.crlf).passed < t.crlf.length ↔ (ofText t).passed < t.length :=
  (measureFrom_crlf false 0 t (Nat.zero_add _) (Nat.zero_add _)).2

end Margin

inductive Rewrapped : Text → Text → Prop
  | whole {t : Text} : .carriageReturn ∉ t → Rewrapped t t.crlf
  | broken {t : Text} : .carriageReturn ∉ t → Rewrapped (.lineFeed :: t) (.lineFeed :: t.crlf)

namespace Rewrapped

variable {t t' rest : Text}

theorem not_mem (h : Rewrapped t t') : .carriageReturn ∉ t := by
  cases h with
  | whole ht => exact ht
  | broken ht => exact List.not_mem_cons_of_ne_of_not_mem (by decide) ht

theorem count_eq (h : Rewrapped t t') : t'.count .lineFeed = t.count .lineFeed := by
  cases h with
  | whole => exact Text.count_crlf t
  | broken => rw [List.count_cons_self, List.count_cons_self, Text.count_crlf]

theorem of_nil (h : Rewrapped [] t') : t' = [] := by
  cases h
  rfl

theorem of_run (run : Text) (h : Rewrapped (run ++ rest) t') (hne : run ≠ [])
    (hl : .lineFeed ∉ run) : t' = run ++ rest.crlf := by
  generalize ht : run ++ rest = t at h
  cases h with
  | whole => rw [← ht, Text.crlf_run hl]
  | broken =>
    obtain ⟨u, run, rfl⟩ := List.exists_cons_of_ne_nil hne
    obtain ⟨rfl, -⟩ := List.cons.inj ht
    exact absurd List.mem_cons_self hl

theorem drop_run (run : Text) (h : Rewrapped (run ++ rest) t') : Rewrapped rest rest.crlf :=
  .whole fun hr => h.not_mem (List.mem_append_right run hr)

theorem broken_run (run : Text) (h : Rewrapped (run ++ .lineFeed :: t) t') :
    Rewrapped (.lineFeed :: t) (.lineFeed :: t.crlf) :=
  .broken fun hr => h.not_mem (List.mem_append_right run (List.mem_cons_of_mem _ hr))

theorem of_lineFeed (h : Rewrapped (.lineFeed :: t) t') :
    ∃ k, t' = returns k ++ .lineFeed :: t.crlf := by
  cases h with
  | whole => exact ⟨1, rfl⟩
  | broken => exact ⟨0, rfl⟩

theorem returns_eq_zero {k : Nat} (h : Rewrapped (returns k ++ rest) t') : k = 0 := by
  cases k with
  | zero => rfl
  | succ k => exact absurd List.mem_cons_self h.not_mem

end Rewrapped

/-- What a token is, apart from its offsets: its kind, payload, line and text. -/
structure Gist where
  kind : Kind
  payload : Nat
  line : Nat
  text : Text
  deriving DecidableEq, Repr

/-- Takes the carriage return from the end of instruction text, and drops text that was no more. -/
def Gist.withoutReturn? (g : Gist) : Option Gist :=
  if g.kind = .textSegment ∧ g.text.getLast? = some .carriageReturn then
    if g.text.dropLast = [] then none else some { g with text := g.text.dropLast }
  else some g

def Token.gist (source : Text) (t : Token) : Gist :=
  ⟨t.kind, t.payload, t.position.line, t.text source⟩

def gists (source : Text) (options : Options) : List Gist :=
  (tokenize source options).tokens.toList.map (Token.gist source)

namespace Lexeme

def gist (source : Text) (x : Lexeme) : Gist :=
  ⟨x.kind, x.payload, source.lineAt x.span.start, x.text source⟩

def stripped? (source : Text) (x : Lexeme) : Option Gist := (x.gist source).withoutReturn?

end Lexeme

theorem gists_eq (source : Text) (options : Options) :
    gists source options =
      ((Reader.start source options.settings).run options.instructions).lexemes.map
        (Lexeme.gist source) := by
  rw [gists, ← toLexeme_tokens, List.map_map]
  apply List.map_congr_left
  intro t ht
  rw [Token.gist, position_of_mem_tokens ht]
  rfl

namespace Gist

variable {g : Gist}

theorem withoutReturn?_of_kind (h : g.kind ≠ .textSegment) : g.withoutReturn? = some g :=
  if_neg fun hc => h hc.1

theorem filterMap_withoutReturn? {gs : List Gist} (h : ∀ g ∈ gs, g.kind ≠ .textSegment) :
    gs.filterMap withoutReturn? = gs := by
  induction gs with
  | nil => rfl
  | cons g gs ih =>
    rw [List.filterMap_cons_some (withoutReturn?_of_kind (h g List.mem_cons_self)),
      ih fun g hg => h g (List.mem_cons_of_mem _ hg)]

theorem withoutReturn?_of_not_mem (h : .carriageReturn ∉ g.text) : g.withoutReturn? = some g :=
  if_neg fun hc => h (List.mem_of_getLast? hc.2)

theorem withoutReturn?_append {line payload : Nat} {text : Text} (h : text ≠ []) :
    withoutReturn? ⟨.textSegment, payload, line, text ++ [.carriageReturn]⟩ =
      some ⟨.textSegment, payload, line, text⟩ := by
  simp [withoutReturn?, h]

end Gist

namespace Place.In

variable {source rest : Text} {p : Place}

theorem lineAt_add_count (hp : p.In source) :
    source.lineAt p.offset + p.ahead.count .lineFeed = source.count .lineFeed + 1 := by
  obtain ⟨behind, hsource, hlength⟩ := hp
  rw [Text.lineAt, hsource, ← hlength, List.take_left, List.count_append]
  omega

theorem gist_eq (hp : p.In source) (pre text : Text) (h : p.ahead = pre ++ (text ++ rest))
    (hpre : .lineFeed ∉ pre) (kind : Kind) (payload : Nat) :
    Lexeme.gist source
        ⟨kind, ⟨p.offset + pre.length, p.offset + pre.length + text.length⟩, payload⟩ =
      ⟨kind, payload, source.lineAt p.offset, text⟩ := by
  have htext :
      source.slice (p.offset + pre.length) (p.offset + pre.length + text.length) = text := by
    obtain ⟨behind, hsource, hlength⟩ := hp
    rw [Text.slice, hsource, h, Nat.add_sub_cancel_left, ← hlength, ← List.append_assoc,
      ← List.length_append, List.drop_left, List.take_left]
  rw [Lexeme.gist, hp.lineAt_eq h hpre, Lexeme.text, htext]

end Place.In

/-- A place in a source and a place in the rewrapped source at which the same is to be read. -/
structure Twin (source : Text) (m : Mode) (s : Scanner) (o : Nat) (t : Text) (o' : Nat)
    (t' : Text) : Prop where
  ahead : Rewrapped t t'
  place_in : Place.In source ⟨m, s, o, t⟩
  twin_in : Place.In source.crlf ⟨m, s, o', t'⟩

theorem Quiet.of_ne_text {m : Mode} {s : Scanner} {t t' : Text} (h : Quiet m s t) (hm : m ≠ .text) :
    Quiet m s t' :=
  ⟨fun hc => absurd hc hm, h.settled⟩

/-- Moves over the rewrapped source that answer a move to a place, to a twin of that place. Their
tokens are the same but for carriage returns. -/
inductive Answers (instructions : Bool) (source : Text) (x : Option Lexeme) (ns : List Notice)
    (m : Mode) (s : Scanner) (t : Text) : Place → Prop
  | last {p y o' t'} : Move instructions p y ns ⟨m, s, o', t'⟩ → Rewrapped t t' →
      y.toList.filterMap (Lexeme.stripped? source.crlf) = x.toList.map (Lexeme.gist source) →
      Answers instructions source x ns m s t p
  | more {p y p'} : Move instructions p y [] p' →
      y.toList.filterMap (Lexeme.stripped? source.crlf) = [] →
      Answers instructions source x ns m s t p' → Answers instructions source x ns m s t p

theorem Answers.token {instructions : Bool} {source t t' : Text} {x y : Lexeme} {ns : List Notice}
    {m : Mode} {s : Scanner} {p : Place} {o' : Nat}
    (hmove : Move instructions p (some y) ns ⟨m, s, o', t'⟩) (ht : Rewrapped t t')
    (hg : y.stripped? source.crlf = some (x.gist source)) :
    Answers instructions source (some x) ns m s t p :=
  .last hmove ht (List.filterMap_cons_some hg)

theorem Move.segment_return {instructions : Bool} {s : Scanner} {o : Nat} {t : Text} :
    Move instructions ⟨.text, s, o, .carriageReturn :: .lineFeed :: t⟩
      (some ⟨.textSegment, ⟨o, o + 1⟩, 0⟩) [] ⟨.text, s, o + 1, .lineFeed :: t⟩ :=
  @Move.segment instructions s o .carriageReturn [] (.lineFeed :: t) (by decide)
    (fun h => absurd h (by decide)) (by simp) (by simp [CodeUnit.isPlain])

namespace Twin

variable {instructions : Bool} {source t t' : Text} {m m₁ : Mode} {s s₁ : Scanner} {o o' : Nat}
  {x : Option Lexeme} {ns : List Notice}

theorem lineAt_eq (h : Twin source m s o t o' t') :
    source.crlf.lineAt o' = source.lineAt o := by
  have hp : source.lineAt o + t.count .lineFeed = _ := h.place_in.lineAt_add_count
  have ht : source.crlf.lineAt o' + t'.count .lineFeed = _ := h.twin_in.lineAt_add_count
  rw [Text.count_crlf, h.ahead.count_eq] at ht
  omega

theorem stripped_eq {rest rest' : Text} {kind : Kind} {payload : Nat}
    (h : Twin source m s o t o' t') (pre pre' text text' : Text)
    (ht : t = pre ++ (text ++ rest)) (hpre : .lineFeed ∉ pre)
    (ht' : t' = pre' ++ (text' ++ rest')) (hpre' : .lineFeed ∉ pre')
    (hg : ∀ line, Gist.withoutReturn? ⟨kind, payload, line, text'⟩ =
      some ⟨kind, payload, line, text⟩) :
    Lexeme.stripped? source.crlf
        ⟨kind, ⟨o' + pre'.length, o' + pre'.length + text'.length⟩, payload⟩ =
      some (Lexeme.gist source
        ⟨kind, ⟨o + pre.length, o + pre.length + text.length⟩, payload⟩) := by
  have hgist := h.place_in.gist_eq pre text ht hpre kind payload
  have hgist' := h.twin_in.gist_eq pre' text' ht' hpre' kind payload
  rw [hgist, Lexeme.stripped?, hgist', hg, h.lineAt_eq]

theorem answers_of_yields {t₁ : Text} (h : Twin source m s o t o' t')
    (hy : m = .text → ∀ u, t.head? = some u → u = .lineFeed)
    (hanswers : ∀ o' t', Twin source m s o t o' t' →
      (m = .text → ∀ u, t'.head? = some u → u = .lineFeed) →
      Answers instructions source x ns m₁ s₁ t₁ ⟨m, s, o', t'⟩) :
    Answers instructions source x ns m₁ s₁ t₁ ⟨m, s, o', t'⟩ := by
  by_cases hhead : m = .text ∧ t'.head? = some .carriageReturn
  · obtain ⟨rfl, hhead⟩ := hhead
    obtain ⟨hahead, hin, htwin⟩ := h
    cases hahead with
    | whole hr =>
      rcases Text.head?_crlf hhead with ⟨hu, -⟩ | ⟨hu, -⟩
      · exact absurd (hy rfl _ hu) (by decide)
      · obtain ⟨t, rfl⟩ := List.head?_eq_some_iff.1 hu
        have hmove : Move instructions ⟨.text, s, o', Text.crlf (.lineFeed :: t)⟩ _ _ _ :=
          .segment_return
        have hgist := htwin.gist_eq [] [.carriageReturn] rfl (by simp) .textSegment 0
        have hnone : Lexeme.stripped? source.crlf ⟨.textSegment, ⟨o', o' + 1⟩, 0⟩ = none :=
          congrArg Gist.withoutReturn? hgist
        have hbroken := Rewrapped.broken_run [] (.whole hr)
        apply Answers.more hmove (List.filterMap_cons_none hnone)
        apply hanswers _ _ ⟨hbroken, hin, hmove.place_in htwin⟩
        rintro - u ⟨⟩
        rfl
    | broken => cases hhead
  · apply hanswers o' t' h
    intro hm u hu
    cases h.ahead with
    | whole =>
      rcases Text.head?_crlf hu with ⟨hu', -⟩ | ⟨-, rfl⟩
      · exact hy hm u hu'
      · exact absurd ⟨hm, hu⟩ hhead
    | broken =>
      cases hu
      rfl

theorem answers_token {rest rest' t₁ t₁' : Text} {kind : Kind} {payload o₁ : Nat}
    (h : Twin source m s o t o' t') (pre pre' text : Text)
    (ht : t = pre ++ (text ++ rest)) (hpre : .lineFeed ∉ pre)
    (ht' : t' = pre' ++ (text ++ rest')) (hpre' : .lineFeed ∉ pre') (hk : kind ≠ .textSegment)
    (hmove : Move instructions ⟨m, s, o', t'⟩
      (some ⟨kind, ⟨o' + pre'.length, o' + pre'.length + text.length⟩, payload⟩) ns
      ⟨m₁, s₁, o₁, t₁'⟩) (ht₁ : Rewrapped t₁ t₁') :
    Answers instructions source
      (some ⟨kind, ⟨o + pre.length, o + pre.length + text.length⟩, payload⟩) ns m₁ s₁ t₁
      ⟨m, s, o', t'⟩ :=
  .token hmove ht₁ <| h.stripped_eq pre pre' text text ht hpre ht' hpre'
    fun _ => Gist.withoutReturn?_of_kind hk

theorem answers_break {kind : Kind} {payload k : Nat}
    (h : Twin source m s o (returns k ++ .lineFeed :: t) o' t')
    (hq : Quiet m s (returns k ++ .lineFeed :: t)) (hk : kind ≠ .textSegment)
    (hmove : ∀ o' k, Quiet m s (returns k ++ .lineFeed :: t.crlf) →
      Move instructions ⟨m, s, o', returns k ++ .lineFeed :: t.crlf⟩
        (some ⟨kind, ⟨o' + k, o' + k + 1⟩, payload⟩) ns ⟨m₁, s₁, o' + k + 1, t.crlf⟩) :
    Answers instructions source (some ⟨kind, ⟨o + k, o + k + 1⟩, payload⟩) ns m₁ s₁ t
      ⟨m, s, o', t'⟩ := by
  obtain rfl := h.ahead.returns_eq_zero
  apply h.answers_of_yields hq.yields
  intro o' t' h hy
  obtain ⟨k, rfl⟩ := h.ahead.of_lineFeed
  have hreturns : .lineFeed ∉ returns k :=
    Text.lineFeed_not_mem_of_forall rfl (Text.isLayout_returns k)
  apply h.answers_token [] (returns k) [.lineFeed] rfl (by simp) rfl hreturns hk
  · rw [Text.length_returns]
    exact hmove o' k ⟨hy, hq.settled⟩
  · exact h.ahead.drop_run [.lineFeed]

section Segment

variable {u : CodeUnit} {run : Text} (hu : u ≠ .lineFeed) (hrun : ∀ v ∈ run, v.isPlain = true)
include hu hrun

theorem ahead_of_segment {rest : Text} (h : Twin source .text s o (u :: run ++ rest) o' t') :
    t' = u :: run ++ rest.crlf ∧ .carriageReturn ∉ u :: run := by
  have hl : .lineFeed ∉ u :: run :=
    List.not_mem_cons_of_ne_of_not_mem (Ne.symm hu) (Text.lineFeed_not_mem_of_forall rfl hrun)
  exact ⟨h.ahead.of_run (u :: run) (List.cons_ne_nil u run) hl,
    fun hc => h.ahead.not_mem (List.mem_append_left _ hc)⟩

theorem answers_segment_break {a : Text}
    (h : Twin source .text s o (u :: run ++ .lineFeed :: a) o' t')
    (hbang : u = .openBrace → (run ++ .lineFeed :: a).head? ≠ some .bang) :
    Answers instructions source (some ⟨.textSegment, ⟨o, o + (u :: run).length⟩, 0⟩) [] .text s
      (.lineFeed :: a) ⟨.text, s, o', t'⟩ := by
  have happend : Text.crlf (run ++ .lineFeed :: a) =
      (run ++ [.carriageReturn]) ++ .lineFeed :: Text.crlf a := by
    rw [Text.crlf_run (Text.lineFeed_not_mem_of_forall rfl hrun), Text.crlf_lineFeed]
    simp
  have hbang' : u = .openBrace →
      ((run ++ [.carriageReturn]) ++ .lineFeed :: Text.crlf a : Text).head? ≠ some .bang := by
    rw [← happend]
    exact fun hb => Text.head?_crlf_ne_bang (hbang hb)
  have hplain : ∀ v ∈ run ++ [.carriageReturn], v.isPlain = true := by
    intro v hv
    rcases List.mem_append.1 hv with hv | hv
    · exact hrun v hv
    · rw [List.mem_singleton.1 hv]
      rfl
  have ht : t' = u :: (run ++ [.carriageReturn]) ++ .lineFeed :: Text.crlf a := by
    rw [(h.ahead_of_segment hu hrun).1]
    simp
  subst ht
  apply Answers.token (.segment hu hbang' hplain (by rintro v ⟨⟩; rfl)) (h.ahead.broken_run _)
  exact h.stripped_eq [] [] (u :: run) _ rfl (by simp) rfl (by simp)
    fun _ => Gist.withoutReturn?_append (List.cons_ne_nil u run)

theorem answers_segment {rest : Text} (h : Twin source .text s o (u :: run ++ rest) o' t')
    (hbang : u = .openBrace → (run ++ rest).head? ≠ some .bang)
    (hrest : ∀ v, rest.head? = some v → v.isPlain = false) :
    Answers instructions source (some ⟨.textSegment, ⟨o, o + (u :: run).length⟩, 0⟩) [] .text s rest
      ⟨.text, s, o', t'⟩ := by
  by_cases hlf : rest.head? = some .lineFeed
  · obtain ⟨a, rfl⟩ := List.head?_eq_some_iff.1 hlf
    exact h.answers_segment_break hu hrun hbang
  · obtain ⟨rfl, hr⟩ := h.ahead_of_segment hu hrun
    have hbang' : u = .openBrace → (run ++ rest.crlf).head? ≠ some .bang := by
      rw [← Text.crlf_run (Text.lineFeed_not_mem_of_forall rfl hrun)]
      exact fun hb => Text.head?_crlf_ne_bang (hbang hb)
    have hrest' : ∀ v, rest.crlf.head? = some v → v.isPlain = false := by
      intro v hv
      rcases Text.head?_crlf hv with ⟨hv, -⟩ | ⟨hv, -⟩
      · exact hrest v hv
      · exact absurd hv hlf
    apply Answers.token (.segment hu hbang' hrun hrest') (h.ahead.drop_run _)
    exact h.stripped_eq [] [] _ _ rfl (by simp) rfl (by simp)
      fun _ => Gist.withoutReturn?_of_not_mem hr

end Segment

theorem answers_comment {run body rest : Text}
    (h : Twin source m s o (run ++ .hash :: body ++ rest) o' t') (hm : m ≠ .text)
    (hq : Quiet m s (run ++ .hash :: body ++ rest)) (hrun : ∀ u ∈ run, u.isBlank = true)
    (hbody : .lineFeed ∉ body) (hrest : ∀ u, rest.head? = some u → u = .lineFeed) :
    Answers instructions source none [] m s.settled rest ⟨m, s, o', t'⟩ := by
  have hl : .lineFeed ∉ run ++ .hash :: body := by
    rw [List.mem_append, List.mem_cons, not_or, not_or]
    exact ⟨Text.lineFeed_not_mem_of_forall rfl hrun, by decide, hbody⟩
  obtain rfl := h.ahead.of_run _ (by simp) hl
  cases rest with
  | nil => exact .last (.comment hm (hq.of_ne_text hm) hrun hbody hrest) (h.ahead.drop_run _) rfl
  | cons u a =>
    -- The carriage return of the line end goes with the comment.
    obtain rfl := hrest u rfl
    have happend : run ++ .hash :: body ++ Text.crlf (.lineFeed :: a) =
        run ++ .hash :: (body ++ [.carriageReturn]) ++ .lineFeed :: Text.crlf a := by simp
    have hbody' : .lineFeed ∉ body ++ [.carriageReturn] := by
      rw [List.mem_append, List.mem_singleton, not_or]
      exact ⟨hbody, by decide⟩
    rw [happend]
    exact .last (.comment hm (hq.of_ne_text hm) hrun hbody' (by rintro v ⟨⟩; rfl))
      (h.ahead.broken_run _) rfl

end Twin

theorem Scanner.Declines.crlf {s : Scanner} {t : Text} (h : s.Declines (.lineFeed :: t)) (k : Nat) :
    s.Declines (returns k ++ .lineFeed :: t.crlf) := by
  obtain ⟨hw, hp⟩ := h.atBreak 0 t rfl
  constructor
  · intro k' hk
    exact absurd hk.symm (Text.returns_ne_append (by decide) k' k t.crlf)
  · intro k' rest hk
    obtain ⟨-, -, rfl⟩ := Text.returns_append_inj (by decide) (by decide) hk
    rw [Margin.width_crlf]
    exact ⟨hw, Nat.not_lt.1 (mt (Margin.passed_crlf_lt_iff t).1 (Nat.not_lt.2 hp))⟩

theorem Answers.skip {instructions : Bool} {source t t' : Text} {m : Mode} {s : Scanner}
    {o' k : Nat} (hq : Quiet m s (returns k ++ .lineFeed :: t'))
    (hd : s.Declines (returns k ++ .lineFeed :: t')) (ht : Rewrapped t t') :
    Answers instructions source none [] m s.settled t ⟨m, s, o', returns k ++ .lineFeed :: t'⟩ := by
  induction k generalizing s o' with
  | zero => exact .last (.skip hq hd (.inl rfl)) ht rfl
  | succ k ih =>
    have hmode : m ≠ .text := fun hm => absurd (hq.yields hm _ rfl) (by decide)
    have hquiet : Quiet m s.settled (returns k ++ .lineFeed :: t') :=
      ⟨fun hm => absurd hm hmode, fun target ho => nomatch ho.1⟩
    have hdeclines : s.settled.Declines (returns k ++ .lineFeed :: t') :=
      ⟨fun k' hk => hd.atEnd (k' + 1) (congrArg (CodeUnit.carriageReturn :: ·) hk),
        fun k' rest hk => hd.atBreak (k' + 1) rest (congrArg (CodeUnit.carriageReturn :: ·) hk)⟩
    exact .more (.skip hq hd (.inr rfl)) rfl (ih hquiet hdeclines)

theorem Move.answers {instructions : Bool} {source t' : Text} {p q : Place} {x : Option Lexeme}
    {ns : List Notice} {o' : Nat} (h : Move instructions p x ns q)
    (ht : Twin source p.mode p.scanner p.offset p.ahead o' t') :
    Answers instructions source x ns q.mode q.scanner q.ahead ⟨p.mode, p.scanner, o', t'⟩ := by
  cases h with
  | interpolation =>
    obtain rfl := ht.ahead.of_run [.openBrace, .bang] (by simp) (by decide)
    exact ht.answers_token [] [] [.openBrace, .bang] rfl (by simp) rfl (by simp) (by decide)
      .interpolation (ht.ahead.drop_run [.openBrace, .bang])
  | segment hu hbang hrun hrest => exact ht.answers_segment hu hrun hbang hrest
  | owed hy ho =>
    apply ht.answers_of_yields hy
    intro o' t' ht hy'
    exact ht.answers_token [] [] [] rfl (by simp) rfl (by simp) (by decide) (.owed hy' ho) ht.ahead
  | indent hq hw hb =>
    rw [← Margin.width_crlf] at hw hb
    exact ht.answers_break hq (by decide) fun _ _ hq => .indent hq hw hb
  | capped hq hw hb =>
    rw [← Margin.width_crlf] at hw hb ⊢
    exact ht.answers_break hq (by decide) fun _ _ hq => .capped hq hw hb
  | dedent hq hw =>
    rw [← Margin.width_crlf] at hw ⊢
    exact ht.answers_break hq (by decide) fun _ _ hq => .dedent hq hw
  | newline hq hw hp =>
    rw [← Margin.width_crlf] at hw
    rw [← Margin.passed_crlf_lt_iff] at hp
    exact ht.answers_break hq (by decide) fun _ _ hq => .newline hq hw hp
  | @closing m s o k hq hw =>
    have hahead : Rewrapped (returns k ++ []) t' := (List.append_nil (returns k)).symm ▸ ht.ahead
    obtain rfl := hahead.returns_eq_zero
    obtain rfl := hahead.of_nil
    exact ht.answers_token [] [] [] rfl (by simp) rfl (by simp) (by decide)
      (.closing (k := 0) hq hw) ht.ahead
  | blanks hm hq hne hrun hrest =>
    have hl := Text.lineFeed_not_mem_of_forall rfl hrun
    obtain rfl := ht.ahead.of_run _ hne hl
    refine .last (.blanks hm (hq.of_ne_text hm) hne hrun ?_) (ht.ahead.drop_run _) rfl
    intro u hu
    rcases Text.head?_crlf hu with ⟨hu, -⟩ | ⟨-, rfl⟩
    · exact hrest u hu
    · decide
  | comment hm hq hrun hbody hrest => exact ht.answers_comment hm hq hrun hbody hrest
  | skip hq hd hu =>
    rcases hu with rfl | rfl
    · apply ht.answers_of_yields hq.yields
      intro o' t' ht hy
      obtain ⟨k, rfl⟩ := ht.ahead.of_lineFeed
      exact .skip ⟨hy, hq.settled⟩ (hd.crlf k) (ht.ahead.drop_run [.lineFeed])
    · exact absurd List.mem_cons_self ht.ahead.not_mem
  | @single m s o u t hm hq hu =>
    have hl : .lineFeed ∉ [u] := Text.lineFeed_not_mem_of_forall rfl (by simpa using hu)
    obtain rfl := ht.ahead.of_run [u] (by simp) hl
    exact ht.answers_token [] [] [u] rfl (by simp) rfl (by simp) (by decide)
      (.single hm (hq.of_ne_text hm) hu) (ht.ahead.drop_run [u])
  | word hm hq hne hrun hrest =>
    have hl := Text.lineFeed_not_mem_of_forall rfl hrun
    obtain rfl := ht.ahead.of_run _ hne hl
    refine ht.answers_token [] [] _ rfl (by simp) rfl (by simp) (by decide)
      (.word hm (hq.of_ne_text hm) hne hrun ?_) (ht.ahead.drop_run _)
    intro u hu
    rcases Text.head?_crlf hu with ⟨hu, -⟩ | ⟨-, rfl⟩
    · exact hrest u hu
    · decide

section Run

variable {instructions : Bool} {source t' : Text} {p : Place} {x : Option Lexeme}
  {ns ms : List Notice} {last : Scanner} {o' : Nat}

theorem Answers.exists_run {m : Mode} {s : Scanner} {t : Text} {gs : List Gist}
    (h : Answers instructions source x ns m s t p) (hp : p.In source.crlf)
    (hrun : ∀ o' t', Rewrapped t t' → Place.In source.crlf ⟨m, s, o', t'⟩ →
      ∃ ys, Run instructions ⟨m, s, o', t'⟩ ys ms last ∧
        ys.filterMap (Lexeme.stripped? source.crlf) = gs) :
    ∃ ys, Run instructions p ys (ns ++ ms) last ∧
      ys.filterMap (Lexeme.stripped? source.crlf) = x.toList.map (Lexeme.gist source) ++ gs := by
  induction h with
  | last hmove ht hg =>
    obtain ⟨ys, hys, hgs⟩ := hrun _ _ ht (hmove.place_in hp)
    exact ⟨_, .move hmove hys, by rw [List.filterMap_append, hg, hgs]⟩
  | more hmove hnone _ ih =>
    obtain ⟨ys, hys, hgs⟩ := ih (hmove.place_in hp)
    have hmoved := Run.move hmove hys
    exact ⟨_, hmoved, by rw [List.filterMap_append, hnone, hgs, List.nil_append]⟩

theorem Run.rewrapped {xs : List Lexeme} (h : Run instructions p xs ns last)
    (ht : Twin source p.mode p.scanner p.offset p.ahead o' t') :
    ∃ ys, Run instructions ⟨p.mode, p.scanner, o', t'⟩ ys ns last ∧
      ys.filterMap (Lexeme.stripped? source.crlf) = xs.map (Lexeme.gist source) := by
  induction h generalizing o' t' with
  | stop hq hd =>
    obtain rfl := ht.ahead.of_nil
    refine ⟨_, .stop hq hd, List.filterMap_cons_some ?_⟩
    exact ht.stripped_eq [] [] [] [] rfl (by simp) rfl (by simp) fun _ => rfl
  | move hmove _ ih =>
    rw [List.map_append]
    apply (hmove.answers ht).exists_run ht.twin_in
    exact fun o' t' hr hin => ih ⟨hr, hmove.place_in ht.place_in, hin⟩

theorem Run.isInstruction_eq {xs : List Lexeme} (h : Run false p xs ns last)
    (hm : p.mode = .lines) : ∀ x ∈ xs, x.kind.isInstruction = false := by
  induction h with
  | stop =>
    intro x hx
    cases List.mem_singleton.1 hx
    rfl
  | @move p q y ns xs ms last hmove _ ih =>
    intro x hx
    rcases List.mem_append.1 hx with hx | hx
    · cases hk : x.kind.isInstruction with
      | false => rfl
      | true =>
        have htext := hmove.mode_eq_text x (Option.mem_toList.1 hx) hk
        cases hm.symm.trans htext
    · exact ih (hmove.mode_eq_lines hm) x hx

end Run

/-- A source without carriage returns and the same source with one in front of every line feed have
the same tokens in kind, payload, line and text, once the carriage returns that end instruction text
are taken away. Without instructions nothing has to be taken away. -/
theorem gists_crlf (source : Text) (options : Options) (hsource : .carriageReturn ∉ source) :
    (gists source.crlf options).filterMap Gist.withoutReturn? = gists source options ∧
      (options.instructions = false → gists source.crlf options = gists source options) := by
  have hrun := Reader.run_isRun options.instructions (Reader.start source options.settings)
  have htwin : Twin source .lines (.create options.settings) 0 source 0 source.crlf :=
    ⟨.whole hsource, ⟨[], rfl, rfl⟩, ⟨[], rfl, rfl⟩⟩
  obtain ⟨ys, hys, hgs⟩ := hrun.rewrapped htwin
  obtain ⟨hlexemes, -, -⟩ :=
    Reader.eq_run_of_isRun (r := Reader.start source.crlf options.settings) hys
  have hstripped : (gists source.crlf options).filterMap Gist.withoutReturn? =
      gists source options := by
    rw [gists_eq, hlexemes, List.filterMap_map, gists_eq, ← hgs]
    rfl
  refine ⟨hstripped, fun hoff => ?_⟩
  rw [hoff] at hys
  rw [← hstripped, eq_comm]
  apply Gist.filterMap_withoutReturn?
  intro g hg hk
  rw [gists_eq, hlexemes] at hg
  obtain ⟨x, hx, rfl⟩ := List.mem_map.1 hg
  have hno := hys.isInstruction_eq rfl x hx
  rw [show x.kind = .textSegment from hk] at hno
  cases hno

theorem gists_crlf_instructions :
    let source : Text := Text.ofString "| a\n|\n  b # c\n#\n d"
    let options : Options := { instructions := true }
    .carriageReturn ∉ source ∧
      (gists source.crlf options).filterMap Gist.withoutReturn? = gists source options := by
  intro source options
  have hsource : .carriageReturn ∉ source := by decide
  exact ⟨hsource, (gists_crlf source options hsource).1⟩

/-- Instruction text runs up to the line feed, so it takes in the carriage return in front of it. -/
theorem gists_crlf_ne :
    let source : Text := Text.ofString "| a\nb"
    let options : Options := { instructions := true }
    .carriageReturn ∉ source ∧ gists source.crlf options ≠ gists source options := by
  decide +kernel

end Offside
