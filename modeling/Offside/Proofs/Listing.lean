import Mathlib.Data.List.Chain
import Offside.Listing
import Offside.Proofs.Decimal

/-! Listed tokens are unambiguous. Main statement: tokens that are listed alike agree in kind, line
and span, and in the payload or the text if their kind lists it, whatever the sources are. -/

namespace Offside

namespace CodeUnit

abbrev closeParen : CodeUnit := 0x29
abbrev colon : CodeUnit := 0x3A
abbrev letterU : CodeUnit := 0x75

end CodeUnit

namespace Text

section Quoted

def hexValue (u : CodeUnit) : Nat := if u ≤ .nine then u.toNat - 0x30 else u.toNat - 0x57

def ofHex (a b c d : CodeUnit) : CodeUnit :=
  (((hexValue a * 16 + hexValue b) * 16 + hexValue c) * 16 + hexValue d).toUInt16

def unescape (u : CodeUnit) : CodeUnit :=
  if u = 0x62 then 0x08
  else if u = 0x66 then 0x0C
  else if u = 0x6E then .lineFeed
  else if u = 0x72 then .carriageReturn
  else if u = 0x74 then .tab
  else u

def unquote : Text → Text × Text
  | [] => ([], [])
  | u :: rest =>
    if u = .quote then ([], rest)
    else if u ≠ .backslash then (unquote rest).map (u :: ·) id
    else
      match rest with
      | [] => ([], [])
      | v :: rest =>
        if v ≠ .letterU then (unquote rest).map (unescape v :: ·) id
        else
          match rest with
          | a :: b :: c :: d :: rest => (unquote rest).map (ofHex a b c d :: ·) id
          | _ => ([], [])

theorem hexValue_hexDigit {n : Nat} (h : n < 16) : hexValue (hexDigit n) = n := by
  revert n
  decide

theorem unquote_plain {u : CodeUnit} (hquote : u ≠ .quote) (hbackslash : u ≠ .backslash)
    (rest : Text) : unquote (u :: rest) = (unquote rest).map (u :: ·) id := by
  rw [unquote.eq_def]
  exact (if_neg hquote).trans (if_pos hbackslash)

theorem unquote_quote (rest : Text) : unquote (.quote :: rest) = ([], rest) := by
  rw [unquote.eq_def]
  rfl

theorem unquote_letter {v : CodeUnit} (hv : v ≠ .letterU) (rest : Text) :
    unquote (.backslash :: v :: rest) = (unquote rest).map (unescape v :: ·) id := by
  rw [unquote.eq_def]
  exact if_pos hv

theorem unquote_hex (a b c d : CodeUnit) (rest : Text) :
    unquote (.backslash :: .letterU :: a :: b :: c :: d :: rest) =
      (unquote rest).map (ofHex a b c d :: ·) id := by
  rw [unquote.eq_def]
  rfl

theorem ofHex_hexDigit (u : CodeUnit) :
    ofHex (hexDigit (u.toNat / 16 / 16 / 16 % 16)) (hexDigit (u.toNat / 16 / 16 % 16))
      (hexDigit (u.toNat / 16 % 16)) (hexDigit (u.toNat % 16)) = u := by
  have hmod (n : Nat) : n % 16 < 16 := Nat.mod_lt n (by decide)
  have hsum : ((u.toNat / 16 / 16 / 16 % 16 * 16 + u.toNat / 16 / 16 % 16) * 16 +
      u.toNat / 16 % 16) * 16 + u.toNat % 16 = u.toNat := by
    have hlt := u.toNat_lt
    omega
  rw [ofHex, hexValue_hexDigit (hmod _), hexValue_hexDigit (hmod _), hexValue_hexDigit (hmod _),
    hexValue_hexDigit (hmod _), hsum]
  exact UInt16.ofNat_toNat

theorem unquote_numericEscape (u : CodeUnit) (rest : Text) :
    unquote (numericEscape u ++ rest) = (unquote rest).map (u :: ·) id := by
  have hread := unquote_hex (hexDigit (u.toNat / 16 / 16 / 16 % 16))
    (hexDigit (u.toNat / 16 / 16 % 16)) (hexDigit (u.toNat / 16 % 16)) (hexDigit (u.toNat % 16))
    rest
  rw [ofHex_hexDigit] at hread
  exact hread

theorem unquote_escapeUnit (u : CodeUnit) (rest : Text) :
    unquote (escapeUnit u ++ rest) = (unquote rest).map (u :: ·) id := by
  rw [escapeUnit]
  split_ifs with hquote hbackslash
  -- Seven units have a letter of their own.
  any_goals
    subst u
    exact unquote_letter (by decide) rest
  · exact unquote_numericEscape u rest
  · exact unquote_plain hquote hbackslash rest

theorem unquote_half {u : CodeUnit} (h : (u.isHigh || u.isLow) = true) (rest : Text) :
    unquote (u :: rest) = (unquote rest).map (u :: ·) id := by
  apply unquote_plain
  · rintro rfl
    exact absurd h (by decide)
  · rintro rfl
    exact absurd h (by decide)

theorem unquote_glyphs (t rest : Text) :
    unquote (t.glyphs.flatMap escape ++ .quote :: rest) = (t, rest) := by
  -- The cases are those of the cut into characters; the units of a pair are read one by one.
  fun_induction glyphs t with
  | case1 => exact unquote_quote rest
  | case2 u h =>
    rw [List.flatMap_singleton, escape, unquote_numericEscape, unquote_quote]
    rfl
  | case3 u h =>
    rw [List.flatMap_singleton, escape, unquote_escapeUnit, unquote_quote]
    rfl
  | case4 u v t h ih =>
    obtain ⟨hhigh, hlow⟩ := Bool.and_eq_true_iff.1 h
    rw [List.flatMap_cons, escape, List.append_assoc, List.cons_append, List.singleton_append,
      unquote_half (by rw [hhigh]; rfl), unquote_half (by rw [hlow, Bool.or_true]), ih]
    rfl
  | case5 u v t hpair h ih =>
    rw [List.flatMap_cons, escape, List.append_assoc, unquote_numericEscape, ih]
    rfl
  | case6 u v t hpair h ih =>
    rw [List.flatMap_cons, escape, List.append_assoc, unquote_escapeUnit, ih]
    rfl

theorem quoted_append_inj {s t r r' : Text} (h : s.quoted ++ r = t.quoted ++ r') :
    s = t ∧ r = r' := by
  have hread := congrArg (fun t => unquote t.tail) h
  simpa [quoted, unquote_glyphs] using hread

end Quoted

theorem append_cons_inj {u : CodeUnit} {s t r r' : Text} (hs : u ∉ s) (ht : u ∉ t)
    (h : s ++ u :: r = t ++ u :: r') : s = t ∧ r = r' := by
  have htake : s = t := by
    rw [← takeWhile_ne hs r, h, takeWhile_ne ht]
  subst htake
  exact ⟨rfl, (List.cons.inj (List.append_cancel_left h)).2⟩

section Numeral

def Spaced (t : Text) : Prop := t.IsChain fun u v => u = .dot → v ≠ .dot

/-- What a number can be written as, seen from the signs that are put around it. -/
structure IsNumeral (t : Text) : Prop where
  space : .space ∉ t
  colon : .colon ∉ t
  closeParen : .closeParen ∉ t
  dots : Spaced (t ++ [.dot])

theorem Spaced.append {s t : Text} (hs : .dot ∉ s) (ht : Spaced t) : Spaced (s ++ t) := by
  induction s with
  | nil => exact ht
  | cons u s ih =>
    rw [List.mem_cons, not_or] at hs
    obtain ⟨hu, hs⟩ := hs
    exact List.isChain_cons.2 ⟨fun _ _ hdot => absurd hdot.symm hu, ih hs⟩

theorem not_spaced_dots {s r : Text} : ¬Spaced (s ++ .dot :: .dot :: r) := fun h =>
  (List.isChain_cons_cons.1 (List.isChain_append.1 h).2.1).1 rfl rfl

theorem IsMantissa.spaced_append {t rest : Text} {q : ℚ} (h : IsMantissa t q)
    (hrest : Spaced rest) : Spaced (t ++ rest) := by
  cases h with
  | whole ht => exact hrest.append (ht.not_mem (by decide))
  | @point t places ht hplaces hne =>
    obtain ⟨v, places, rfl⟩ := List.exists_cons_of_ne_nil hne
    have hdot := hplaces.not_mem (u := .dot) (by decide)
    rw [List.append_assoc, List.cons_append]
    refine .append (ht.not_mem (by decide)) (List.isChain_cons.2 ⟨?_, hrest.append hdot⟩)
    rintro u ⟨⟩ -
    exact (List.ne_of_not_mem_cons hdot).symm

theorem IsDecimal.isNumeral {t : Text} {q : ℚ} (h : IsDecimal t q) : IsNumeral t where
  space hmem := absurd (h.unit_cases hmem) (by decide)
  colon hmem := absurd (h.unit_cases hmem) (by decide)
  closeParen hmem := absurd (h.unit_cases hmem) (by decide)
  dots := by
    cases h with
    | positional hm => exact hm.spaced_append (List.isChain_singleton _)
    | scientific k hm =>
      rw [List.append_assoc]
      refine hm.spaced_append (.append ?_ (List.isChain_singleton _))
      have hsign : .dot ≠ CodeUnit.signOf k := by
        rw [CodeUnit.signOf]
        split <;> decide
      have hdigits := (isDigits_ofNat k.natAbs).not_mem (u := .dot) (by decide)
      simp [hsign, hdigits, show CodeUnit.dot ≠ .letterE by decide]

theorem isNumeral_ofNat (n : Nat) : IsNumeral (ofNat n) :=
  (IsDecimal.positional (.whole (isDigits_ofNat n))).isNumeral

theorem eq_nil_of_spaced {s a r r' : Text} (ha : Spaced (s ++ a ++ [.dot]))
    (h : .dot :: .dot :: r = a ++ .dot :: .dot :: r') : a = [] := by
  rw [List.append_assoc] at ha
  cases a with
  | nil => rfl
  | cons u a =>
    obtain ⟨rfl, hrest⟩ := List.cons.inj h
    cases a with
    | nil => exact absurd ha not_spaced_dots
    | cons v a =>
      obtain ⟨rfl, -⟩ := List.cons.inj hrest
      exact absurd ha not_spaced_dots

theorem append_dots_inj {s t r r' : Text} (hs : Spaced (s ++ [.dot])) (ht : Spaced (t ++ [.dot]))
    (h : s ++ .dot :: .dot :: r = t ++ .dot :: .dot :: r') : s = t ∧ r = r' := by
  rcases List.append_eq_append_iff.1 h with ⟨a, rfl, ha⟩ | ⟨a, rfl, ha⟩
  · obtain rfl := eq_nil_of_spaced ht ha
    cases ha
    exact ⟨(List.append_nil s).symm, rfl⟩
  · obtain rfl := eq_nil_of_spaced hs ha
    cases ha
    exact ⟨List.append_nil t, rfl⟩

theorem leftpad_inj {s t : Text} {n : Nat} (hs : .space ∉ s) (ht : .space ∉ t)
    (h : s.leftpad n .space = t.leftpad n .space) : s = t := by
  have hdrop {t : Text} (ht : .space ∉ t) : (t.leftpad n .space).dropWhile (· = .space) = t := by
    rw [List.leftpad, List.dropWhile_append_of_pos (by simp)]
    cases t with
    | nil => rfl
    | cons u t =>
      have hu := (List.ne_of_not_mem_cons ht).symm
      exact List.dropWhile_cons_of_neg (by simpa using hu)
  rw [← hdrop hs, h, hdrop ht]

end Numeral

end Text

theorem Number.isNumeral_text_ofNat (n : Nat) : (ofNat n).text.IsNumeral := by
  rcases infinite_or_reads_ofNat n with hn | ⟨f, hf⟩
  · rw [hn]
    exact ⟨by decide, by decide, by decide, by rw [Text.Spaced]; decide⟩
  · exact hf.text.isNumeral

namespace Kind

open Text

section Describe

variable {kind kind' : Kind} {payload payload' t t' rest rest' : Text}

theorem takeWhile_describe (kind : Kind) (payload t rest : Text) :
    (kind.describe payload t ++ .space :: rest).takeWhile CodeUnit.isWord = kind.text := by
  cases kind <;> rfl

theorem append_payload_inj {name : Text} (hp : .closeParen ∉ payload)
    (hp' : .closeParen ∉ payload')
    (h : name ++ ofString "(" ++ payload ++ ofString ")" ++ rest =
      name ++ ofString "(" ++ payload' ++ ofString ")" ++ rest') :
    payload = payload' ∧ rest = rest' := by
  simp only [List.append_assoc] at h
  exact append_cons_inj hp hp' (List.append_cancel_left (List.append_cancel_left h))

theorem append_quoted_inj {name : Text}
    (h : name ++ ofString " " ++ t.quoted ++ rest = name ++ ofString " " ++ t'.quoted ++ rest') :
    t = t' ∧ rest = rest' := by
  simp only [List.append_assoc] at h
  exact quoted_append_inj (List.append_cancel_left (List.append_cancel_left h))

theorem describe_inj (hp : .closeParen ∉ payload) (hp' : .closeParen ∉ payload')
    (h : kind.describe payload t ++ .space :: rest =
      kind'.describe payload' t' ++ .space :: rest') :
    kind = kind' ∧ (kind = .indent ∨ kind = .dedent → payload = payload') ∧
      (kind = .content ∨ kind = .interpolationStart ∨ kind = .textSegment → t = t') ∧
      rest = rest' := by
  have hkind : kind = kind' := by
    apply text_injective
    rw [← takeWhile_describe kind payload t rest, h, takeWhile_describe]
  subst hkind
  cases kind with
  | indent | dedent =>
    obtain ⟨hpayload, hrest⟩ := append_payload_inj hp hp' h
    exact ⟨rfl, fun _ => hpayload, by simp, (List.cons.inj hrest).2⟩
  | newline | endOfInput =>
    exact ⟨rfl, by simp, by simp, (List.cons.inj (List.append_cancel_left h)).2⟩
  | interpolationStart | textSegment | content =>
    obtain ⟨ht, hrest⟩ := append_quoted_inj h
    exact ⟨rfl, by simp, fun _ => ht, (List.cons.inj hrest).2⟩

end Describe

theorem listed_eq (kind : Kind) (line start stop payload t : Text) :
    kind.listed line start stop payload t =
      ofString "Line " ++ (line.leftpad 4 .space ++ .colon :: .space ::
        (kind.describe payload t ++
          .space :: 0x40 :: .space :: (start ++ .dot :: .dot :: stop))) := by
  simp only [listed, List.append_assoc]
  rfl

structure Numerals (line start payload : Text) : Prop where
  line : IsNumeral line
  start : IsNumeral start
  payload : IsNumeral payload

theorem listed_inj {kind kind' : Kind} {line start stop payload t : Text}
    {line' start' stop' payload' t' : Text}
    (hn : Numerals line start payload) (hn' : Numerals line' start' payload')
    (h : kind.listed line start stop payload t = kind'.listed line' start' stop' payload' t') :
    kind = kind' ∧ line = line' ∧ start = start' ∧ stop = stop' ∧
      (kind = .indent ∨ kind = .dedent → payload = payload') ∧
      (kind = .content ∨ kind = .interpolationStart ∨ kind = .textSegment → t = t') := by
  have hcolon {n : Text} (h : IsNumeral n) : .colon ∉ n.leftpad 4 .space := by
    simp [List.leftpad, h.colon, show CodeUnit.colon ≠ .space by decide]
  rw [listed_eq, listed_eq] at h
  -- From the left: up to the colon, then the kind with its detail, then the range.
  obtain ⟨hpad, h⟩ :=
    append_cons_inj (hcolon hn.line) (hcolon hn'.line) (List.append_cancel_left h)
  have hline := leftpad_inj hn.line.space hn'.line.space hpad
  obtain ⟨hkind, hpayload, ht, h⟩ :=
    describe_inj hn.payload.closeParen hn'.payload.closeParen (List.cons.inj h).2
  obtain ⟨hstart, hstop⟩ := append_dots_inj hn.start.dots hn'.start.dots
    (List.cons.inj (List.cons.inj h).2).2
  exact ⟨hkind, hline, hstart, hstop, hpayload, ht⟩

end Kind

def Number.IsNatural (x : Number) : Prop := ∃ n, x = ofNat n

theorem Number.IsNatural.isNumeral {x : Number} (h : x.IsNatural) : x.text.IsNumeral := by
  obtain ⟨n, rfl⟩ := h
  exact isNumeral_text_ofNat n

theorem Number.IsNatural.eq_of_text_eq {x y : Number} (hx : x.IsNatural) (hy : y.IsNatural)
    (h : x.text = y.text) : x = y := by
  obtain ⟨m, rfl⟩ := hx
  obtain ⟨n, rfl⟩ := hy
  exact text_ofNat_inj h

/-- A row whose listed numbers are natural, as near as they can be kept. -/
structure Row.IsNatural (r : Row) : Prop where
  line : r.line.IsNatural
  start : r.start.IsNatural
  stop : r.stop.IsNatural
  payload : r.payload.IsNatural

/-- Tokens that are listed alike are of one kind and stand in one place; blocks have one width, and
words one text, whatever that text holds. So it is with rows of natural numbers of any size. -/
theorem listing_unambiguous :
    (∀ (t t' : Token) (source source' : Text), t.render source = t'.render source' →
      t.kind = t'.kind ∧ t.position.line = t'.position.line ∧ t.span.start = t'.span.start ∧
        t.span.stop = t'.span.stop ∧
        (t.kind = .indent ∨ t.kind = .dedent → t.payload = t'.payload) ∧
        (t.kind = .content ∨ t.kind = .interpolationStart ∨ t.kind = .textSegment →
          source.slice t.span.start t.span.stop = source'.slice t.span.start t.span.stop)) ∧
    ∀ (r r' : Row) (source source' : Text), r.IsNatural → r'.IsNatural →
      r.render source = r'.render source' →
      r.kind = r'.kind ∧ r.line = r'.line ∧ r.start = r'.start ∧ r.stop = r'.stop ∧
        (r.kind = .indent ∨ r.kind = .dedent → r.payload = r'.payload) ∧
        (r.kind = .content ∨ r.kind = .interpolationStart ∨ r.kind = .textSegment →
          r.text source = r'.text source') := by
  constructor
  · intro t t' source source' h
    have hnumerals (t : Token) : Kind.Numerals (.ofNat t.position.line) (.ofNat t.span.start)
        (.ofNat t.payload) :=
      ⟨Text.isNumeral_ofNat _, Text.isNumeral_ofNat _, Text.isNumeral_ofNat _⟩
    obtain ⟨hkind, hline, hstart, hstop, hpayload, htext⟩ :=
      Kind.listed_inj (hnumerals t) (hnumerals t') h
    have hstart := Text.ofNat_injective hstart
    have hstop := Text.ofNat_injective hstop
    refine ⟨hkind, Text.ofNat_injective hline, hstart, hstop,
      fun hblock => Text.ofNat_injective (hpayload hblock), fun hword => ?_⟩
    have hslice := htext hword
    simp only [Lexeme.text, ← hstart, ← hstop] at hslice
    exact hslice
  · intro r r' source source' hr hr' h
    obtain ⟨hkind, hline, hstart, hstop, hpayload, htext⟩ := Kind.listed_inj
      ⟨hr.line.isNumeral, hr.start.isNumeral, hr.payload.isNumeral⟩
      ⟨hr'.line.isNumeral, hr'.start.isNumeral, hr'.payload.isNumeral⟩ h
    exact ⟨hkind, hr.line.eq_of_text_eq hr'.line hline, hr.start.eq_of_text_eq hr'.start hstart,
      hr.stop.eq_of_text_eq hr'.stop hstop,
      fun hblock => hr.payload.eq_of_text_eq hr'.payload (hpayload hblock), htext⟩

theorem listing_unambiguous_forged :
    let source := Text.ofString "a\\\" @ 1..2" ++ [0xD83D]
    let source' := Text.ofString "b\\\" @ 1..2" ++ [0xD83D, .lineFeed]
    let t : Token := ⟨⟨.content, ⟨1, 11⟩, 0⟩, ⟨1, 1⟩⟩
    let t' : Token := ⟨⟨.content, ⟨1, 11⟩, 7⟩, ⟨1, 5⟩⟩
    let r : Row := ⟨.content, .ofNat 1, .ofNat 11, .ofNat (2 ^ 53), .ofNat 1, .ofNat 0⟩
    let r' : Row := ⟨.content, .ofNat 1, .ofNat 11, .ofNat (2 ^ 53 + 1), .ofNat 5, .ofNat 7⟩
    t.render source = t'.render source' ∧
      source.slice 1 11 = source'.slice 1 11 ∧
      r.render source = r'.render source' ∧ r.line = r'.line ∧
      r.text source = r'.text source' := by
  intro source source' t t' r r'
  have hr : r.IsNatural := ⟨⟨2 ^ 53, rfl⟩, ⟨1, rfl⟩, ⟨11, rfl⟩, ⟨0, rfl⟩⟩
  have hr' : r'.IsNatural := ⟨⟨2 ^ 53 + 1, rfl⟩, ⟨1, rfl⟩, ⟨11, rfl⟩, ⟨7, rfl⟩⟩
  have ht : t.render source = t'.render source' := by decide +kernel
  have hrow : r.render source = r'.render source' := by decide +kernel
  obtain ⟨-, -, -, -, -, hslice⟩ := listing_unambiguous.1 t t' source source' ht
  obtain ⟨-, hline, -, -, -, htext⟩ := listing_unambiguous.2 r r' source source' hr hr' hrow
  exact ⟨ht, hslice (.inl rfl), hrow, hline, htext (.inl rfl)⟩

end Offside
