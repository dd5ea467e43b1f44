import Offside.Proofs.Outline

/-! The block structure of a source: its indents, dedents and words, without line breaks and without
the places where they stand. Main statement: it can be read off the lines, given only the width of
the code that follows them. -/

namespace Offside

inductive Mark where
  | indent (width : Nat)
  | dedent (width : Nat)
  | content (text : Text)
  deriving DecidableEq, Repr

def Lexeme.mark? (source : Text) (x : Lexeme) : Option Mark :=
  match x.kind with
  | .indent => some (.indent x.payload)
  | .dedent => some (.dedent x.payload)
  | .content => some (.content (x.text source))
  | _ => none

def marks (settings : Settings) (source : Text) : List Mark :=
  ((tokenize source { settings }).tokens.toList.map Token.toLexeme).filterMap (·.mark? source)

namespace Outline

open Text (codeWidth? codeWidth?_append)

def texts (line : Text) : List Text :=
  (words 0 line.code).map fun span => line.slice span.start span.stop

/-- The marks of a line break, given the width of the next code line. -/
def turns (capacity : Nat) (stack : List Nat) (next : Option Nat) : List Mark :=
  if stack.headD 0 < next.getD 0 then [.indent ((opened capacity stack next).headD 0)]
  else (returned (next.getD 0) stack).map .dedent

def marks (capacity : Nat) (next : Option Nat) (stack : List Nat) : List Text → List Mark
  | [] => []
  | line :: rest =>
    let width := (codeWidth? rest).or next
    (texts line).map .content ++ turns capacity stack width ++
      marks capacity next (opened capacity stack width) rest

def behind (capacity : Nat) (next : Option Nat) (stack : List Nat) : List Text → List Nat
  | [] => stack
  | _ :: rest => behind capacity next (opened capacity stack ((codeWidth? rest).or next)) rest

theorem marks_append (capacity : Nat) (next : Option Nat) (stack : List Nat)
    (above below : List Text) :
    marks capacity next stack (above ++ below) =
      marks capacity ((codeWidth? below).or next) stack above ++
        marks capacity next (behind capacity ((codeWidth? below).or next) stack above) below := by
  induction above generalizing stack with
  | nil => rfl
  | cons line above ih =>
    rw [List.cons_append, marks, marks, behind, codeWidth?_append, Option.or_assoc, ih]
    simp only [List.append_assoc]

section Words

theorem words_add (k offset : Nat) (t : Text) :
    words (k + offset) t = (words offset t).map fun span => ⟨k + span.start, k + span.stop⟩ := by
  fun_induction words offset t with
  | case1 => simp [words]
  | case2 offset u t hu ih => rw [words, if_pos hu, Nat.add_assoc, ih]
  | case3 offset u t hu hs ih =>
    rw [words, if_neg hu, if_pos hs, Nat.add_assoc, ih]
    rfl
  | case4 offset u t hu hs length ih =>
    rw [words, if_neg hu, if_neg hs]
    dsimp only
    rw [Nat.add_assoc, ih]
    rfl

theorem bounds_of_mem_words {offset : Nat} {t : Text} :
    ∀ span ∈ words offset t, span.start ≤ span.stop ∧ span.stop ≤ offset + t.length := by
  fun_induction words offset t with
  | case1 => rintro span ⟨⟩
  | case2 offset u t hu ih =>
    intro span hspan
    have := ih span hspan
    rw [List.length_cons]
    omega
  | case3 offset u t hu hs ih =>
    intro span hspan
    rw [List.length_cons]
    rcases List.mem_cons.1 hspan with rfl | hspan
    · dsimp only
      omega
    · have := ih span hspan
      omega
  | case4 offset u t hu hs length ih =>
    have hlength : (t.takeWhile inWord).length + (t.dropWhile inWord).length = t.length := by
      rw [← List.length_append, List.takeWhile_append_dropWhile]
    intro span hspan
    rw [List.length_cons]
    rcases List.mem_cons.1 hspan with rfl | hspan
    · dsimp only
      omega
    · have := ih span hspan
      omega

theorem slice_append (behind line rest : Text) {start stop : Nat} (hs : start ≤ stop)
    (hl : stop ≤ line.length) :
    Text.slice (behind ++ (line ++ rest)) (behind.length + start) (behind.length + stop) =
      line.slice start stop := by
  have htake : stop - start ≤ (line.drop start).length := by
    rw [List.length_drop]
    omega
  rw [Text.slice, Text.slice, Nat.add_sub_add_left, ← List.drop_drop, List.drop_left,
    List.drop_append_of_le_length (Nat.le_trans hs hl), List.take_append_of_le_length htake]

end Words

section Source

variable {source : Text}

theorem filterMap_mark? {α : Type} {l : List α} {f : α → Lexeme} {g : α → Mark}
    (h : ∀ a ∈ l, (f a).mark? source = some (g a)) :
    (l.map f).filterMap (·.mark? source) = l.map g := by
  induction l with
  | nil => rfl
  | cons a l ih =>
    rw [List.map_cons, List.filterMap_cons_some (h a List.mem_cons_self), List.map_cons,
      ih fun b hb => h b (List.mem_cons_of_mem a hb)]

theorem filterMap_contents {behind line rest : Text} (h : source = behind ++ (line ++ rest)) :
    (contents behind.length line).filterMap (·.mark? source) = (texts line).map .content := by
  have hcode : line.code.length ≤ line.length := (List.takeWhile_sublist _).length_le
  rw [contents, texts, List.map_map, ← Nat.add_zero behind.length, words_add, List.map_map]
  apply filterMap_mark?
  intro span hspan
  obtain ⟨hs, hl⟩ := bounds_of_mem_words span hspan
  rw [Nat.zero_add] at hl
  have hslice := slice_append behind line rest hs (Nat.le_trans hl hcode)
  rw [← h] at hslice
  exact congrArg (fun text => some (Mark.content text)) hslice

theorem returned_of_le {width : Nat} {stack : List Nat} (h : stack.headD 0 ≤ width) :
    returned width stack = [] := by
  cases stack with
  | nil => rfl
  | cons top stack =>
    cases stack with
    | nil => rfl
    | cons next rest =>
      rw [returned]
      exact if_neg (Nat.not_lt.2 h)

theorem filterMap_breaks (capacity : Nat) (stack : List Nat) (offset : Nat) (next : Option Nat) :
    (breaks capacity stack offset next).filterMap (·.mark? source) =
      turns capacity stack next := by
  simp only [breaks, turns]
  split
  · rfl
  · rename_i hi
    split
    · split
      · rename_i hr
        rw [hr]
        rfl
      · rename_i first rest hr
        rw [hr]
        exact congrArg (Mark.dedent first :: ·) (filterMap_mark? fun _ _ => rfl)
    · rename_i hd
      rw [returned_of_le (Nat.not_lt.1 hd)]
      split <;> rfl

theorem filterMap_tokens (capacity : Nat) (stack : List Nat) {behind : Text} {lines : List Text}
    (hne : lines ≠ []) (h : source = behind ++ Text.join [.lineFeed] lines) :
    (tokens capacity stack behind.length lines).filterMap (·.mark? source) =
      marks capacity none stack lines := by
  induction lines generalizing stack behind with
  | nil => exact absurd rfl hne
  | cons line lines ih =>
    cases lines with
    | nil =>
      have hline : source = behind ++ (line ++ []) := by
        rw [h, Text.join, List.intercalate_singleton, List.append_nil]
      rw [tokens, List.filterMap_append, List.filterMap_append, filterMap_contents hline,
        filterMap_mark? fun _ _ => rfl, marks, marks]
      rfl
    | cons next rest =>
      have hjoin : Text.join [.lineFeed] (line :: next :: rest) =
          line ++ .lineFeed :: Text.join [.lineFeed] (next :: rest) := by
        rw [Text.join, List.intercalate_cons_cons, List.append_assoc]
        rfl
      rw [hjoin] at h
      have hrest : source =
          (behind ++ line ++ [.lineFeed]) ++ Text.join [.lineFeed] (next :: rest) := by
        rw [h, List.append_assoc, List.append_assoc]
        rfl
      have hlength : behind.length + line.length + 1 =
          List.length (behind ++ line ++ [CodeUnit.lineFeed]) := by
        rw [List.length_append, List.length_append]
        rfl
      rw [marks, Option.or_none, tokens, List.filterMap_append, List.filterMap_append,
        filterMap_contents h, filterMap_breaks, hlength, ih _ (List.cons_ne_nil _ _) hrest]

end Source

end Outline

theorem marks_eq_outline (settings : Settings) (source : Text) :
    marks settings source = Outline.marks settings.capacity none [0] source.lines := by
  have htokens := (tokenize_isRun source { settings }).outline rfl (by rintro target ⟨⟩)
  have houtline : (Reader.start source settings).place.outline =
      Outline.tokens settings.capacity [0] ([] : Text).length source.lines := rfl
  have hsource : source = [] ++ Text.join [.lineFeed] source.lines :=
    (List.intercalate_splitOn _).symm
  rw [marks, htokens, houtline]
  exact Outline.filterMap_tokens _ _ (List.splitOn_ne_nil _ _) hsource

end Offside
