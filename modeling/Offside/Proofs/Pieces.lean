import Offside.Proofs.Decision
import Offside.Proofs.TextLines

/-! How instruction text is cut into tokens. Main statement: scanning goes on from token to token
until just the text is read; the tokens are its pieces, which part in front of every open brace and
behind every start of an interpolation, and nowhere else. -/

namespace Offside

namespace Text

abbrev interpolationStart : Text := [.openBrace, .bang]

def pieces : Text → List Text
  | [] => []
  | u :: t =>
    if u = .openBrace ∧ t.head? = some .bang then interpolationStart :: pieces t.tail
    else (u :: t.takeWhile (· != .openBrace)) :: pieces (t.dropWhile (· != .openBrace))
termination_by t => t.length
decreasing_by
  · exact Nat.lt_succ_of_le (List.tail_sublist t).length_le
  · exact Nat.lt_succ_of_le (List.dropWhile_sublist _).length_le

/-- Two parts of a text are to be cut from each other: in front of an open brace, and behind the
start of an interpolation. -/
def IsCut (before after : Text) : Prop :=
  after.head? = some .openBrace ∨ interpolationStart <:+ before

/-- Pieces can be parted so that the first of them make up one text and the others another. -/
def PartedAt (pieces : List Text) (before after : Text) : Prop :=
  ∃ front back, front ++ back = pieces ∧ front.flatten = before ∧ back.flatten = after

/-- A text falls into pieces: none is empty, and wherever the text is divided in two, the pieces
can be parted just if it is to be cut. -/
structure CutInto (t : Text) (pieces : List Text) : Prop where
  flatten : pieces.flatten = t
  nonempty : [] ∉ pieces
  parted : ∀ before after, before ≠ [] → after ≠ [] → before ++ after = t →
    (PartedAt pieces before after ↔ IsCut before after)

def interpolations (t : Text) : Nat := t.tails.countP interpolationStart.isPrefixOf

def spans (offset : Nat) : List Text → List Span
  | [] => []
  | piece :: rest => ⟨offset, offset + piece.length⟩ :: spans (offset + piece.length) rest

def pieceKind (piece : Text) : Kind :=
  if piece = interpolationStart then .interpolationStart else .textSegment

/-- A text and its pieces, from the first on: starts of interpolations, and units that start none,
each with the run up to the next open brace. -/
inductive Pieced : Text → List Text → Prop
  | nil : Pieced [] []
  | opening {rest ps} : Pieced rest ps →
      Pieced (interpolationStart ++ rest) (interpolationStart :: ps)
  | segment {u run rest ps} : .openBrace ∉ run → (∀ v, rest.head? = some v → v = .openBrace) →
      (u = .openBrace → (run ++ rest).head? ≠ some .bang) → Pieced rest ps →
      Pieced (u :: run ++ rest) ((u :: run) :: ps)

theorem pieced_pieces (t : Text) : Pieced t t.pieces := by
  fun_induction pieces t with
  | case1 => exact .nil
  | case2 u t h ih =>
    obtain ⟨rfl, hbang⟩ := h
    obtain ⟨rest, rfl⟩ := List.head?_eq_some_iff.1 hbang
    exact .opening ih
  | case3 u t h ih =>
    obtain ⟨run, rest, rfl, hrun, hrest⟩ := eq_run_append (· != .openBrace) t
    have htake : (run ++ rest).takeWhile (· != .openBrace) = run := takeWhile_run hrun hrest
    rw [← drop_length_takeWhile, htake, List.drop_left] at ih ⊢
    refine .segment ?_ (by simpa using hrest) (fun hu hbang => h ⟨hu, hbang⟩) ih
    intro hmem
    simpa using hrun _ hmem

section CutInto

variable {piece rest before after : Text} {ps : List Text}

theorem partedAt_nil (ps : List Text) : PartedAt ps [] ps.flatten := ⟨[], ps, rfl, rfl, rfl⟩

theorem partedAt_cons_iff (hne : before ≠ []) :
    PartedAt (piece :: ps) before after ↔
      ∃ tail, before = piece ++ tail ∧ PartedAt ps tail after := by
  constructor
  · rintro ⟨front, back, heq, rfl, rfl⟩
    cases front with
    | nil => exact absurd rfl hne
    | cons p front =>
      obtain ⟨rfl, rfl⟩ := List.cons.inj heq
      exact ⟨front.flatten, rfl, front, back, rfl, rfl, rfl⟩
  · rintro ⟨tail, rfl, front, back, rfl, rfl, rfl⟩
    exact ⟨piece :: front, back, rfl, rfl, rfl⟩

theorem suffix_append_iff
    (hjoin : piece.getLast? = some .openBrace → rest.head? ≠ some .bang)
    (hne : before ≠ []) (hpre : before <+: rest) :
    interpolationStart <:+ piece ++ before ↔ interpolationStart <:+ before := by
  refine ⟨fun h => ?_, fun h => h.trans (List.suffix_append ..)⟩
  obtain ⟨u, t, rfl⟩ := List.exists_cons_of_ne_nil hne
  cases t with
  | cons v t => exact List.suffix_of_suffix_length_le h (List.suffix_append ..) (by simp)
  | nil =>
    obtain ⟨x, hx⟩ := h
    have hx' : (x ++ [CodeUnit.openBrace]) ++ [CodeUnit.bang] = piece ++ [u] := by simpa using hx
    obtain ⟨rfl, hu⟩ := List.append_inj' hx' rfl
    cases hu
    obtain ⟨tail, rfl⟩ := hpre
    exact absurd rfl (hjoin (by simp))

theorem cutInto_nil : CutInto [] [] where
  flatten := rfl
  nonempty := List.not_mem_nil
  parted _ _ hb _ h := absurd (List.append_eq_nil_iff.1 h).1 hb

theorem CutInto.cons (h : CutInto rest ps) (hne : piece ≠ [])
    (hinside : ∀ before after, before ≠ [] → after ≠ [] → before ++ after = piece →
      ¬IsCut before after)
    (hcut : rest ≠ [] → IsCut piece rest)
    (hjoin : piece.getLast? = some .openBrace → rest.head? ≠ some .bang) :
    CutInto (piece ++ rest) (piece :: ps) where
  flatten := by rw [List.flatten_cons, h.flatten]
  nonempty := by
    rw [List.mem_cons, not_or]
    exact ⟨hne.symm, h.nonempty⟩
  parted before after hb ha heq := by
    have hrest : PartedAt ps [] rest := h.flatten ▸ partedAt_nil ps
    rw [partedAt_cons_iff hb]
    -- The text is divided in the first piece or behind it, and in both cases maybe just at its end.
    rcases List.append_eq_append_iff.1 heq with ⟨tail, hpiece, hafter⟩ | ⟨tail, rfl, htail⟩
    · cases tail with
      | nil =>
        rw [List.append_nil] at hpiece
        subst hpiece hafter
        exact iff_of_true ⟨[], (List.append_nil _).symm, hrest⟩ (hcut ha)
      | cons u tail =>
        refine iff_of_false ?_ ?_
        · rintro ⟨tail', rfl, -⟩
          simpa using congrArg List.length hpiece
        · rw [hafter, IsCut, List.cons_append, List.head?_cons]
          exact hinside before (u :: tail) hb (List.cons_ne_nil _ _) hpiece.symm
    · simp only [List.append_cancel_left_eq, exists_eq_left']
      cases tail with
      | nil =>
        rw [List.nil_append] at htail
        subst htail
        rw [List.append_nil]
        exact iff_of_true hrest (hcut ha)
      | cons u tail =>
        rw [h.parted (u :: tail) after (List.cons_ne_nil _ _) ha htail.symm, IsCut, IsCut,
          suffix_append_iff hjoin (List.cons_ne_nil _ _) ⟨after, htail.symm⟩]

theorem CutInto.opening (h : CutInto rest ps) :
    CutInto (interpolationStart ++ rest) (interpolationStart :: ps) := by
  refine h.cons (List.cons_ne_nil _ _) ?_ (fun _ => .inr (List.suffix_refl _))
    fun h => absurd h (by decide)
  intro before after hb ha heq
  obtain ⟨u, before, rfl⟩ := List.exists_cons_of_ne_nil hb
  cases before with
  | nil =>
    obtain ⟨rfl, rfl⟩ := List.cons.inj heq
    rintro (h | h)
    · exact absurd h (by decide)
    · exact absurd h.length_le (by decide)
  | cons v before =>
    have hnil : before ++ after = [] := (List.cons.inj (List.cons.inj heq).2).2
    exact absurd (List.append_eq_nil_iff.1 hnil).2 ha

theorem CutInto.segment {u : CodeUnit} {run : Text} (h : CutInto rest ps) (hrun : .openBrace ∉ run)
    (hrest : ∀ v, rest.head? = some v → v = .openBrace)
    (hbang : u = .openBrace → (run ++ rest).head? ≠ some .bang) :
    CutInto (u :: run ++ rest) ((u :: run) :: ps) := by
  refine h.cons (List.cons_ne_nil _ _) ?_ ?_ ?_
  · intro before after hb ha heq
    obtain ⟨v, before, rfl⟩ := List.exists_cons_of_ne_nil hb
    obtain ⟨rfl, rfl⟩ := List.cons.inj heq
    rintro (hhead | hsuffix)
    · exact hrun (List.mem_append_right _ (List.mem_of_head? hhead))
    · rcases List.suffix_cons_iff.1 hsuffix with heq | hsuffix
      · obtain ⟨rfl, rfl⟩ := List.cons.inj heq
        exact hbang rfl rfl
      · exact hrun (List.mem_append_left _ (hsuffix.subset List.mem_cons_self))
  · intro hne
    obtain ⟨v, rest, rfl⟩ := List.exists_cons_of_ne_nil hne
    rw [hrest v rfl]
    exact .inl rfl
  · intro hlast
    cases run with
    | nil =>
      cases hlast
      exact hbang rfl
    | cons v run =>
      rw [List.getLast?_cons_cons] at hlast
      exact absurd (List.mem_of_getLast? hlast) hrun

theorem Pieced.cutInto {t : Text} (h : Pieced t ps) : CutInto t ps := by
  induction h with
  | nil => exact cutInto_nil
  | opening _ ih => exact ih.opening
  | segment hrun hrest hbang _ ih => exact ih.segment hrun hrest hbang

end CutInto

section Interpolations

variable {u : CodeUnit} {run rest : Text}

theorem interpolations_cons (u : CodeUnit) (t : Text) :
    interpolations (u :: t) =
      interpolations t + if interpolationStart.isPrefixOf (u :: t) then 1 else 0 :=
  List.countP_cons

theorem interpolations_opening (rest : Text) :
    interpolations (interpolationStart ++ rest) = interpolations rest + 1 := by
  rw [List.cons_append, interpolations_cons, List.cons_append, interpolations_cons]
  rfl

theorem interpolations_of_head? (hbang : u = .openBrace → rest.head? ≠ some .bang) :
    interpolations (u :: rest) = interpolations rest := by
  rw [interpolations_cons, if_neg, Nat.add_zero]
  rw [List.isPrefixOf_iff_prefix]
  rintro ⟨tail, heq⟩
  obtain ⟨rfl, rfl⟩ := List.cons.inj heq
  exact hbang rfl rfl

theorem interpolations_append (hrun : .openBrace ∉ run) :
    interpolations (run ++ rest) = interpolations rest := by
  induction run with
  | nil => rfl
  | cons v run ih =>
    rw [List.mem_cons, not_or] at hrun
    rw [List.cons_append, interpolations_of_head? fun h => absurd h.symm hrun.1, ih hrun.2]

theorem segment_ne_start (hbang : u = .openBrace → (run ++ rest).head? ≠ some .bang) :
    u :: run ≠ interpolationStart := by
  intro heq
  obtain ⟨rfl, rfl⟩ := List.cons.inj heq
  exact hbang rfl rfl

theorem Pieced.count_start {t : Text} {ps : List Text} (h : Pieced t ps) :
    ps.count interpolationStart = t.interpolations := by
  induction h with
  | nil => rfl
  | opening _ ih => rw [List.count_cons_self, interpolations_opening, ih]
  | segment hrun _ hbang _ ih =>
    rw [List.count_cons_of_ne (segment_ne_start hbang), List.cons_append,
      interpolations_of_head? hbang, interpolations_append hrun, ih]

end Interpolations

end Text

def Cursor.past (c : Cursor) : List Outcome → Cursor
  | [] => c
  | o :: rest => o.cursor.accept.past rest

namespace Scanner

def reads (s : Scanner) (c : Cursor) : List (List Kind) → List Outcome
  | [] => []
  | accepted :: rest =>
    let o := s.scan accepted c.begin
    o :: o.scanner.reads o.cursor.accept rest

structure Spells (s : Scanner) (c : Cursor) (tokens : List Outcome) (pieces : List Text) :
    Prop where
  texts : tokens.map (·.cursor.text) = pieces
  kinds : tokens.map (·.kind) = pieces.map fun piece => some (Text.pieceKind piece)
  spans : tokens.map (·.cursor.span) = Text.spans c.offset pieces
  scanners : ∀ o ∈ tokens, o.scanner = s
  offset : (c.past tokens).offset = c.offset + pieces.flatten.length
  ahead : c.ahead = pieces.flatten ++ (c.past tokens).ahead

variable {s : Scanner} {accepted : List Kind} {c : Cursor} {piece rest : Text} {ps : List Text}

theorem Spells.nil : Spells s c [] [] := ⟨rfl, rfl, rfl, List.forall_mem_nil _, rfl, rfl⟩

theorem Spells.cons {o : Outcome} {tokens : List Outcome}
    (htext : o.cursor.text = piece) (hkind : o.kind = some (Text.pieceKind piece))
    (hspan : o.cursor.span = ⟨c.offset, c.offset + piece.length⟩) (hscanner : o.scanner = s)
    (hahead : c.ahead = piece ++ o.cursor.accept.ahead)
    (h : Spells s o.cursor.accept tokens ps) : Spells s c (o :: tokens) (piece :: ps) := by
  have hoffset : o.cursor.accept.offset = c.offset + piece.length := congrArg Span.stop hspan
  constructor
  case texts => rw [List.map_cons, htext, h.texts]
  case kinds => rw [List.map_cons, List.map_cons, hkind, h.kinds]
  case spans => rw [List.map_cons, Text.spans, hspan, h.spans, hoffset]
  case scanners => simpa [hscanner] using h.scanners
  case offset =>
    rw [Cursor.past, h.offset, hoffset, List.flatten_cons, List.length_append, Nat.add_assoc]
  case ahead => rw [Cursor.past, hahead, h.ahead, List.flatten_cons, List.append_assoc]

theorem Spells.countP_start {tokens : List Outcome} (h : Spells s c tokens ps) :
    tokens.countP (·.kind = some .interpolationStart) = ps.count Text.interpolationStart := by
  have hcount := congrArg (List.countP (· = some Kind.interpolationStart)) h.kinds
  rw [List.countP_map, List.countP_map] at hcount
  refine hcount.trans (List.countP_congr fun piece _ => ?_)
  simp [Text.pieceKind]

theorem spells_of_pick {calls : List (List Kind)} (ha : c.ahead = piece ++ rest)
    (hpick : s.pick accepted c.begin =
      ⟨some (Text.pieceKind piece), s, (c.begin.advanceBy piece.length).markEnd, []⟩)
    (ih : ∀ {c : Cursor}, c.ahead = rest → Spells s c (s.reads c calls) ps) :
    Spells s c (s.reads c (accepted :: calls)) (piece :: ps) := by
  have hcursor : (s.scan accepted c.begin).cursor = (c.begin.advanceBy piece.length).markEnd :=
    congrArg Outcome.cursor hpick
  have hscanner : (s.scan accepted c.begin).scanner = s := congrArg Outcome.scanner hpick
  have hahead : (s.scan accepted c.begin).cursor.accept.ahead = rest := by
    have hdrop := Cursor.ahead_advanceBy piece.length c.begin
    rw [Cursor.ahead_begin, ha, List.drop_left] at hdrop
    rw [hcursor]
    exact hdrop
  rw [reads, hscanner]
  refine .cons ?_ (congrArg Outcome.kind hpick) ?_ hscanner (by rw [hahead, ha]) (ih hahead)
  · rw [hcursor]
    exact Cursor.text_advanceBy_begin ha
  · rw [hcursor]
    exact Cursor.span_markEnd_advanceBy_begin ha

theorem spells_of_pieced {text : Text} (h : text.Pieced ps) (ha : c.ahead = text ++ rest)
    (htext : .lineFeed ∉ text) (hrest : ∀ u, rest.head? = some u → u = .lineFeed)
    {calls : List (List Kind)} (hlength : calls.length = ps.length)
    (hcalls : ∀ accepted ∈ calls, .interpolationStart ∈ accepted ∧ .textSegment ∈ accepted) :
    Spells s c (s.reads c calls) ps := by
  induction h generalizing c calls with
  | nil =>
    cases calls with
    | nil => exact .nil
    | cons accepted calls => cases hlength
  | opening _ ih =>
    cases calls with
    | nil => cases hlength
    | cons accepted calls =>
      rw [List.forall_mem_cons] at hcalls
      rw [List.append_assoc] at ha
      refine spells_of_pick ha (pick_of_interpolation hcalls.1.1 ha) fun ha => ?_
      exact ih ha (fun h => htext (List.mem_append_right _ h)) (Nat.succ.inj hlength) hcalls.2
  | @segment u run t ps hrun hhead hbang _ ih =>
    cases calls with
    | nil => cases hlength
    | cons accepted calls =>
      rw [List.forall_mem_cons] at hcalls
      rw [List.append_assoc] at ha
      have hkind : Text.pieceKind (u :: run) = .textSegment :=
        if_neg (Text.segment_ne_start hbang)
      have hplain : ∀ v ∈ u :: run, v ≠ .lineFeed := fun v hv hfeed =>
        htext (hfeed ▸ List.mem_append_left _ hv)
      -- A brace that ends the text has a line feed behind it, or nothing.
      have hnext : u = .openBrace → (run ++ (t ++ rest)).head? ≠ some .bang := by
        rw [← List.append_assoc, List.head?_append]
        intro hu h
        rcases Option.or_eq_some_iff.1 h with h | ⟨-, h⟩
        · exact hbang hu h
        · exact absurd (hrest _ h) (by decide)
      have hend : ∀ v, (t ++ rest).head? = some v → v.isPlain = false := by
        intro v hv
        cases t with
        | nil => rw [hrest v hv]; rfl
        | cons w t => rw [hhead v hv]; rfl
      refine spells_of_pick ha ?_ fun ha =>
        ih ha (fun h => htext (List.mem_append_right _ h)) (Nat.succ.inj hlength) hcalls.2
      rw [hkind]
      refine pick_of_segment (c := c.begin) hcalls.1.1 hcalls.1.2 (hplain u List.mem_cons_self)
        hnext ?_ hend ha
      intro v hv
      have hbrace : v ≠ .openBrace := fun h => hrun (h ▸ hv)
      simp [CodeUnit.isPlain, hplain v (List.mem_cons_of_mem _ hv), hbrace]

theorem isInstruction_eq_false_of_not_readsText (h : ¬c.ReadsText accepted) :
    ∀ kind ∈ (s.pick accepted c).kind, kind.isInstruction = false := by
  intro kind hk
  rcases settle_cases s accepted with ⟨target, hd, ho, -⟩ | ⟨hw, -⟩
  · rw [pick_of_owed h hd ho] at hk
    cases hk
    rfl
  · rw [pick_of_waits h hw] at hk
    split at hk
    · rw [lineBreak] at hk
      split at hk
      · cases hk
      · rename_i width c' _
        have hdecision := decideBreak_decides hw width c'
        rw [hk] at hdecision
        generalize ((s.ready accepted).decideBreak accepted width c').scanner = s' at hdecision
        cases hdecision with
        | indent | capped | dedent => rfl
        | defer _ _ hnewline | level _ _ _ hnewline => rw [(hnewline kind rfl).2]; rfl
    · cases hk

/-- A text without line feeds lies ahead, up to a line feed or the end. If both kinds of instruction
text are accepted, scans go from token to token until just the text is read, and none changes the
scanner. The tokens are what the text is to be cut into, with a start of an interpolation for each
that there is in the text; the scan behind the last gives no instruction text. -/
theorem reads_pieces (s : Scanner) {c : Cursor} {text rest : Text} (ha : c.ahead = text ++ rest)
    (htext : .lineFeed ∉ text) (hrest : ∀ u, rest.head? = some u → u = .lineFeed)
    {calls : List (List Kind)} (hlength : calls.length = text.pieces.length)
    (hcalls : ∀ accepted ∈ calls, .interpolationStart ∈ accepted ∧ .textSegment ∈ accepted) :
    let tokens := s.reads c calls
    text.CutInto text.pieces ∧
      tokens.map (·.cursor.text) = text.pieces ∧
      tokens.map (·.cursor.span) = Text.spans c.offset text.pieces ∧
      tokens.map (·.kind) = text.pieces.map (fun piece => some (Text.pieceKind piece)) ∧
      tokens.countP (·.kind = some .interpolationStart) = text.interpolations ∧
      (∀ o ∈ tokens, o.scanner = s) ∧
      (c.past tokens).offset = c.offset + text.length ∧ (c.past tokens).ahead = rest ∧
      ∀ accepted, ∀ kind ∈ (s.scan accepted (c.past tokens).begin).kind,
        kind.isInstruction = false := by
  intro tokens
  have hpieced := text.pieced_pieces
  have hcut := hpieced.cutInto
  have hspells : Spells s c tokens text.pieces :=
    spells_of_pieced hpieced ha htext hrest hlength hcalls
  have hoffset := hspells.offset
  have hahead := hspells.ahead
  rw [hcut.flatten] at hoffset hahead
  have hpast : (c.past tokens).ahead = rest := (List.append_cancel_left (ha.symm.trans hahead)).symm
  refine ⟨hcut, hspells.texts, hspells.spans, hspells.kinds, ?_, hspells.scanners, hoffset, hpast,
    fun accepted => ?_⟩
  · rw [hspells.countP_start, hpieced.count_start]
  · refine isInstruction_eq_false_of_not_readsText (not_readsText_of_yields ?_ accepted)
    rwa [Cursor.ahead_begin, hpast]

theorem reads_pieces_braces :
    let s : Scanner := ⟨⟨100, [4, 2]⟩, some 2, .bytes 1024⟩
    let text : Text := [.bang, .openBrace, .openBrace, .bang, .bar, .openBrace, .bar, .openBrace]
    let rest : Text := [.lineFeed, .openBrace]
    let c := { Cursor.ofText (CodeUnit.bar :: text ++ rest) with offset := 1 }
    let pieces : List Text :=
      [[.bang], [.openBrace], [.openBrace, .bang], [.bar], [.openBrace, .bar], [.openBrace]]
    let calls := List.replicate 6 [Kind.dedent, .interpolationStart, .textSegment]
    let tokens := s.reads c calls
    text.CutInto pieces ∧ tokens.map (·.cursor.text) = pieces ∧
      tokens.countP (·.kind = some .interpolationStart) = 1 ∧ (∀ o ∈ tokens, o.scanner = s) ∧
      (c.past tokens).offset = 9 := by
  intro s text rest c pieces calls tokens
  have hrest : ∀ u, rest.head? = some u → u = .lineFeed := fun u h => (Option.some.inj h).symm
  have hpieces : text.pieces = pieces := by simp +decide [text, pieces, Text.pieces]
  obtain ⟨hcut, htexts, -, -, hcount, hscanner, hoffset, -⟩ :=
    @reads_pieces s c text rest rfl (by decide) hrest calls (by rw [hpieces]; rfl) (by decide)
  rw [hpieces] at hcut htexts
  exact ⟨hcut, htexts, hcount, hscanner, hoffset⟩

end Scanner

end Offside
