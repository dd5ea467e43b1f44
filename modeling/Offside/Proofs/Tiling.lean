import Offside.Proofs.Line
import Offside.Proofs.Steps
import Offside.Proofs.Position

/-! Tokens and the gaps between them tile a source. Main statement: tokens come in order, each with
the text that its kind asks for and the position of its start, and what no token spans is layout, a
line feed or part of a comment. -/

namespace Offside

def Covered (xs : List Lexeme) (i : Nat) : Prop := ∃ x ∈ xs, x.span.start ≤ i ∧ i < x.span.stop

/-- A comment that runs from a hash up to, not including, the next line feed or the end of input. -/
structure Comment (source : Text) (start stop : Nat) : Prop where
  hash : source[start]? = some .hash
  inside : ∀ i, start ≤ i → i < stop → source[i]? ≠ some .lineFeed
  ends : stop = source.length ∨ source[stop]? = some .lineFeed

def Kind.Shape (text : Text) : Kind → Prop
  | .newline => text = [.lineFeed]
  | .indent => text = [.lineFeed]
  | .dedent => text = [.lineFeed] ∨ text = []
  | .interpolationStart => text = [.openBrace, .bang]
  | .textSegment =>
    text ≠ [] ∧ .lineFeed ∉ text ∧ .openBrace ∉ text.tail ∧ ¬[.openBrace, .bang] <+: text
  | .content =>
    text = [.bar] ∨ text = [.closeBrace] ∨ text ≠ [] ∧ ∀ u ∈ text,
      u ∉ [CodeUnit.space, .tab, .carriageReturn, .lineFeed, .hash, .bar, .closeBrace]
  | .endOfInput => text = []

/-- The tokens from an offset on and what is left out between them. -/
structure Tiling (source : Text) (offset : Nat) (xs : List Lexeme) : Prop where
  starts : ∀ x ∈ xs, offset ≤ x.span.start
  spans : ∀ x ∈ xs, x.span.start ≤ x.span.stop ∧ x.span.stop ≤ source.length
  ordered : xs.Pairwise fun x y => x.span.stop ≤ y.span.start
  shapes : ∀ x ∈ xs, x.kind.Shape (x.text source)
  ends : ∀ x ∈ xs, x.kind = .endOfInput → x.span.start = source.length
  gaps : ∀ i u, offset ≤ i → source[i]? = some u → ¬Covered xs i →
    u.isLayout = true ∨ u = .lineFeed ∨ ∃ start stop, Comment source start stop ∧
      offset ≤ start ∧ start ≤ i ∧ i < stop ∧ ∀ j, start ≤ j → j < stop → ¬Covered xs j

namespace Tiling

variable {source : Text} {offset : Nat} {xs : List Lexeme}

theorem offset_le_stop (h : Tiling source offset xs) : ∀ x ∈ xs, offset ≤ x.span.stop :=
  fun x hx => Nat.le_trans (h.starts x hx) (h.spans x hx).1

theorem skip {stop : Nat} (h : Tiling source stop xs) (hle : offset ≤ stop)
    (hgap : ∀ i u, offset ≤ i → i < stop → source[i]? = some u →
      u.isLayout = true ∨ u = .lineFeed ∨ ∃ start finish, Comment source start finish ∧
        offset ≤ start ∧ start ≤ i ∧ i < finish ∧ finish ≤ stop) :
    Tiling source offset xs where
  starts x hx := Nat.le_trans hle (h.starts x hx)
  spans := h.spans
  ordered := h.ordered
  shapes := h.shapes
  ends := h.ends
  gaps i u hi hu hc := by
    rcases Nat.lt_or_ge i stop with hlt | hge
    · rcases hgap i u hi hlt hu with hl | hl | ⟨start, finish, hcomment, hs, hsi, hif, hfs⟩
      · exact .inl hl
      · exact .inr (.inl hl)
      · refine .inr (.inr ⟨start, finish, hcomment, hs, hsi, hif, ?_⟩)
        rintro j - hj ⟨x, hx, hxj, -⟩
        exact absurd (Nat.le_trans (h.starts x hx) hxj) (Nat.not_le.2 (Nat.lt_of_lt_of_le hj hfs))
    · rcases h.gaps i u hge hu hc with hl | hl | ⟨start, finish, hcomment, hs, hrest⟩
      · exact .inl hl
      · exact .inr (.inl hl)
      · exact .inr (.inr ⟨start, finish, hcomment, Nat.le_trans hle hs, hrest⟩)

theorem cons {x : Lexeme} (h : Tiling source x.span.stop xs) (hspan : x.span.start ≤ x.span.stop)
    (hstop : x.span.stop ≤ source.length) (hshape : x.kind.Shape (x.text source))
    (hend : x.kind = .endOfInput → x.span.start = source.length) :
    Tiling source x.span.start (x :: xs) where
  starts y hy := by
    rcases List.mem_cons.1 hy with rfl | hy
    · exact Nat.le_refl _
    · exact Nat.le_trans hspan (h.starts y hy)
  spans y hy := by
    rcases List.mem_cons.1 hy with rfl | hy
    · exact ⟨hspan, hstop⟩
    · exact h.spans y hy
  ordered := List.pairwise_cons.2 ⟨h.starts, h.ordered⟩
  shapes y hy := by
    rcases List.mem_cons.1 hy with rfl | hy
    · exact hshape
    · exact h.shapes y hy
  ends y hy := by
    rcases List.mem_cons.1 hy with rfl | hy
    · exact hend
    · exact h.ends y hy
  gaps i u hi hu hc := by
    have hxs : ¬Covered xs i := fun ⟨y, hy, hyi⟩ => hc ⟨y, List.mem_cons_of_mem _ hy, hyi⟩
    have hge : x.span.stop ≤ i := Nat.not_lt.1 fun hlt => hc ⟨x, List.mem_cons_self, hi, hlt⟩
    rcases h.gaps i u hge hu hxs with hl | hl | ⟨start, finish, hcomment, hs, hsi, hif, hfree⟩
    · exact .inl hl
    · exact .inr (.inl hl)
    · refine .inr (.inr ⟨start, finish, hcomment, Nat.le_trans hspan hs, hsi, hif, ?_⟩)
      rintro j hj hjf ⟨y, hy, hyj⟩
      rcases List.mem_cons.1 hy with rfl | hy
      · exact absurd (Nat.le_trans hs hj) (Nat.not_le.2 hyj.2)
      · exact hfree j hj hjf ⟨y, hy, hyj⟩

theorem nil (source : Text) : Tiling source source.length [] where
  starts := by simp
  spans := by simp
  ordered := .nil
  shapes := by simp
  ends := by simp
  gaps i u hi hu _ := by
    rw [List.getElem?_eq_none hi] at hu
    cases hu

theorem mem_of_getElem?_append {behind run rest : Text} {i : Nat} {u : CodeUnit}
    (hi : behind.length ≤ i) (hlt : i < behind.length + run.length)
    (hu : (behind ++ (run ++ rest))[i]? = some u) : u ∈ run := by
  rw [List.getElem?_append_right hi, List.getElem?_append_left (by omega)] at hu
  exact List.mem_of_getElem? hu

theorem layout {behind rest : Text} (run : Text) (hsource : source = behind ++ (run ++ rest))
    (hrun : ∀ u ∈ run, u.isLayout = true ∨ u = .lineFeed)
    (h : Tiling source (behind.length + run.length) xs) : Tiling source behind.length xs := by
  apply h.skip (Nat.le_add_right ..)
  intro i u hi hlt hu
  rw [hsource] at hu
  rcases hrun u (mem_of_getElem?_append hi hlt hu) with hl | hl
  · exact .inl hl
  · exact .inr (.inl hl)

theorem token {behind rest : Text} (run text : Text) {x : Lexeme}
    (hsource : source = behind ++ (run ++ (text ++ rest))) (hrun : ∀ u ∈ run, u.isLayout = true)
    (hspan : x.span =
      ⟨behind.length + run.length, behind.length + run.length + text.length⟩)
    (hshape : x.kind.Shape text) (hkind : x.kind ≠ .endOfInput)
    (h : Tiling source (behind.length + run.length + text.length) xs) :
    Tiling source behind.length (x :: xs) := by
  have htext : x.text source = text := by
    rw [Lexeme.text, hspan, Text.slice, hsource, Nat.add_sub_cancel_left, ← List.append_assoc,
      ← List.length_append, List.drop_left, List.take_left]
  have hlength : behind.length + run.length + text.length ≤ source.length := by
    rw [hsource, List.length_append, List.length_append, List.length_append]
    omega
  apply layout run hsource fun u hu => .inl (hrun u hu)
  have hcons : Tiling source x.span.start (x :: xs) := by
    apply cons
    · rwa [hspan]
    · rw [hspan]
      exact Nat.le_add_right ..
    · rwa [hspan]
    · rwa [htext]
    · exact fun hend => absurd hend hkind
  rwa [hspan] at hcons

theorem comment {behind run body rest : Text}
    (hsource : source = behind ++ (run ++ .hash :: body ++ rest))
    (hrun : ∀ u ∈ run, u.isLayout = true) (hbody : .lineFeed ∉ body)
    (hrest : ∀ u, rest.head? = some u → u = .lineFeed)
    (h : Tiling source (behind.length + (run ++ .hash :: body).length) xs) :
    Tiling source behind.length xs := by
  have hcomment : Comment source (behind.length + run.length)
      (behind.length + (run ++ .hash :: body).length) := by
    have hsplit : source = (behind ++ run) ++ (.hash :: body ++ rest) := by simp [hsource]
    constructor
    · rw [hsplit, ← List.length_append, List.getElem?_append_right (Nat.le_refl _), Nat.sub_self]
      rfl
    · intro i hi hlt hl
      rw [hsplit] at hl
      rw [← List.length_append] at hi
      have hmem := mem_of_getElem?_append hi (by simp at hlt ⊢; omega) hl
      rcases List.mem_cons.1 hmem with hu | hu
      · exact absurd hu (by decide)
      · exact hbody hu
    · rw [← List.length_append]
      cases rest with
      | nil => left; rw [hsource, List.append_nil]
      | cons u rest =>
        right
        rw [hsource, ← List.append_assoc, List.getElem?_append_right (Nat.le_refl _), Nat.sub_self,
          List.getElem?_cons_zero, hrest u rfl]
  apply h.skip (Nat.le_add_right ..)
  intro i u hi hlt hu
  rcases Nat.lt_or_ge i (behind.length + run.length) with hblank | hge
  · rw [hsource, List.append_assoc] at hu
    exact .inl (hrun u (mem_of_getElem?_append hi hblank hu))
  · exact .inr (.inr ⟨_, _, hcomment, Nat.le_add_right .., hge, hlt, Nat.le_refl _⟩)

end Tiling

namespace Move

variable {instructions : Bool} {source : Text} {p q : Place} {x : Option Lexeme}
  {ns : List Notice} {xs : List Lexeme}

theorem shape_textSegment {u : CodeUnit} {run rest : Text} (hu : u ≠ .lineFeed)
    (hbang : u = .openBrace → (run ++ rest).head? ≠ some .bang)
    (hrun : ∀ v ∈ run, v.isPlain = true) : Kind.textSegment.Shape (u :: run) := by
  have hne : ∀ v ∈ run, v ≠ .lineFeed ∧ v ≠ .openBrace := by
    simpa [CodeUnit.isPlain] using hrun
  refine ⟨List.cons_ne_nil u run, ?_, fun h => (hne _ h).2 rfl, ?_⟩
  · intro h
    rcases List.mem_cons.1 h with h | h
    · exact hu h.symm
    · exact (hne _ h).1 rfl
  · rintro ⟨t, ht⟩
    obtain ⟨rfl, rfl⟩ := List.cons.inj ht
    exact hbang rfl rfl

theorem shape_content {run : Text} (hne : run ≠ []) (hrun : ∀ u ∈ run, u.isContent = true) :
    Kind.content.Shape run := by
  refine .inr (.inr ⟨hne, fun u hu => ?_⟩)
  have := hrun u hu
  simp_all [CodeUnit.isContent, CodeUnit.isBlank, CodeUnit.standsAlone]

theorem tiling_token {behind rest : Text} (text : Text) {x : Lexeme}
    (hsource : source = behind ++ (text ++ rest))
    (hspan : x.span = ⟨behind.length, behind.length + text.length⟩) (hshape : x.kind.Shape text)
    (hkind : x.kind ≠ .endOfInput) (hxs : Tiling source (behind.length + text.length) xs) :
    Tiling source behind.length (x :: xs) :=
  hxs.token [] text hsource (by simp) hspan hshape hkind

theorem tiling_break {behind rest : Text} {k : Nat} {x : Lexeme}
    (hsource : source = behind ++ (Text.returns k ++ .lineFeed :: rest))
    (hspan : x.span = ⟨behind.length + k, behind.length + k + 1⟩)
    (hshape : x.kind.Shape [.lineFeed]) (hkind : x.kind ≠ .endOfInput)
    (hxs : Tiling source (behind.length + k + 1) xs) : Tiling source behind.length (x :: xs) := by
  rw [← Text.length_returns k] at hspan hxs
  exact hxs.token (Text.returns k) [.lineFeed] hsource (Text.isLayout_returns k) hspan hshape hkind

theorem tiling (h : Move instructions p x ns q) (hp : p.In source)
    (hxs : Tiling source q.offset xs) : Tiling source p.offset (x.toList ++ xs) := by
  obtain ⟨mode, scanner, offset, ahead⟩ := p
  obtain ⟨behind, hsource, rfl⟩ := hp
  cases h with
  | interpolation =>
    exact tiling_token [.openBrace, .bang] hsource rfl rfl (by simp) hxs
  | segment hu hbang hrun hrest =>
    exact tiling_token _ hsource rfl (shape_textSegment hu hbang hrun) (by simp) hxs
  | owed =>
    exact tiling_token [] hsource rfl (.inr rfl) (by simp) hxs
  | indent =>
    exact tiling_break hsource rfl rfl (by simp) hxs
  | capped =>
    exact tiling_break hsource rfl rfl (by simp) hxs
  | dedent =>
    exact tiling_break hsource rfl (.inl rfl) (by simp) hxs
  | newline =>
    exact tiling_break hsource rfl rfl (by simp) hxs
  | @closing m s o k =>
    rw [← List.append_nil (Text.returns k)] at hsource
    change Tiling source (behind.length + k) xs at hxs
    rw [← Text.length_returns k] at hxs
    exact hxs.token (Text.returns k) [] hsource (Text.isLayout_returns k)
      (by rw [Text.length_returns]; rfl) (.inr rfl) (by simp)
  | blanks _ _ _ hrun =>
    exact hxs.layout _ hsource fun u hu => .inl (CodeUnit.isLayout_of_isBlank (hrun u hu))
  | comment _ _ hrun hbody hrest =>
    exact hxs.comment hsource (fun u hu => CodeUnit.isLayout_of_isBlank (hrun u hu)) hbody hrest
  | @skip m s o u t _ _ hu =>
    apply hxs.layout [u] hsource
    intro v hv
    rw [List.mem_singleton.1 hv]
    rcases hu with rfl | rfl
    · exact .inr rfl
    · exact .inl rfl
  | @single m s o u t _ _ hu =>
    refine tiling_token [u] hsource rfl ?_ (by simp) hxs
    simp only [CodeUnit.standsAlone, Bool.or_eq_true, beq_iff_eq] at hu
    rcases hu with rfl | rfl
    · exact .inl rfl
    · exact .inr (.inl rfl)
  | word _ _ hne hrun =>
    exact tiling_token _ hsource rfl (shape_content hne hrun) (by simp) hxs

end Move

theorem Run.tiling {instructions : Bool} {source : Text} {p : Place} {xs : List Lexeme}
    {ns : List Notice} {last : Scanner} (h : Run instructions p xs ns last) (hp : p.In source) :
    Tiling source p.offset xs := by
  induction h with
  | @stop m s o =>
    obtain ⟨behind, hsource, rfl⟩ := hp
    rw [List.append_nil] at hsource
    subst hsource
    have htext : Lexeme.text ⟨.endOfInput, ⟨source.length, source.length⟩, 0⟩ source = [] := by
      rw [Lexeme.text, Text.slice, Nat.sub_self, List.take_zero]
    exact (Tiling.nil source).cons (x := ⟨.endOfInput, ⟨source.length, source.length⟩, 0⟩)
      (Nat.le_refl _) (Nat.le_refl _) htext fun _ => rfl
  | move hmove _ ih => exact hmove.tiling hp (ih (hmove.place_in hp))

/-- No unit of a source is lost or read twice. -/
theorem tokens_tile (source : Text) (options : Options) :
    Tiling source 0 ((tokenize source options).tokens.toList.map Token.toLexeme) ∧
      ∀ token ∈ (tokenize source options).tokens.toList,
        token.position = source.position token.span.start := by
  refine ⟨(tokenize_isRun source options).tiling ⟨[], rfl, rfl⟩, ?_⟩
  intro token htoken
  rw [tokens_tokenize, Store.toList_ofList] at htoken
  obtain ⟨x, -, rfl⟩ := List.mem_map.1 htoken
  exact Lines.locate_ofText source _

end Offside
