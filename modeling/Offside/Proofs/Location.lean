import Offside.Proofs.Addition
import Offside.Proofs.Position

/-! Where a number lies as an offset in a text. Main statement: its line is counted exactly, its
column is exact where 53 bits are enough, and larger offsets never lie in front of smaller ones. -/

namespace Offside

namespace Text

def feedsBefore (t : Text) (offset : Int) : List Nat :=
  (t.idxsOf .lineFeed).filter fun i => (i : Int) < offset

def startBefore (t : Text) (offset : Int) : Nat := (t.feedsBefore offset).getLast?.elim 0 (· + 1)

theorem feedsBefore_eq_take (t : Text) (offset : Int) :
    t.feedsBefore offset = (t.take offset.toNat).idxsOf .lineFeed := by
  have hcut : t.idxsOf .lineFeed = (t.take offset.toNat).idxsOf .lineFeed ++
      (t.drop offset.toNat).idxsOf .lineFeed (0 + (t.take offset.toNat).length) := by
    rw [← List.idxsOf_append, List.take_append_drop]
  rw [feedsBefore, hcut, List.filter_append, List.filter_eq_self.2, List.filter_eq_nil_iff.2,
    List.append_nil]
  · intro i hi
    have hge := List.ge_of_mem_idxsOf i hi
    have hlt := List.lt_add_of_mem_idxsOf i hi
    rw [List.length_take] at hge hlt
    rw [List.length_drop] at hlt
    simp only [decide_eq_true_eq]
    omega
  · intro i hi
    have hlt := List.lt_add_of_mem_idxsOf i hi
    rw [List.length_take] at hlt
    simp only [decide_eq_true_eq]
    omega

theorem length_lt_or_feedsBefore_eq (t : Text) {offset offset' : Int} (h : offset ≤ offset') :
    (t.feedsBefore offset).length < (t.feedsBefore offset').length ∨
      t.feedsBefore offset = t.feedsBefore offset' := by
  have hsublist : (t.feedsBefore offset).Sublist (t.feedsBefore offset') := by
    apply List.monotone_filter_right
    intro i hi
    simp only [decide_eq_true_eq] at hi ⊢
    exact hi.trans_le h
  rcases hsublist.length_le.lt_or_eq with hlt | heq
  · exact .inl hlt
  · exact .inr (hsublist.eq_of_length heq)

theorem startBefore_le (t : Text) (offset : Int) : (t.startBefore offset : Int) ≤ max 0 offset := by
  rw [startBefore]
  cases hlast : (t.feedsBefore offset).getLast? with
  | none => exact le_max_left 0 offset
  | some i =>
    have hlt : (i : Int) < offset := by
      simpa using (List.mem_filter.1 (List.mem_of_getLast? hlast)).2
    exact le_max_of_le_right hlt

theorem position_eq (t : Text) (offset : Int) :
    t.position offset =
      ⟨(t.feedsBefore offset).length + 1, offset - t.startBefore offset + 1⟩ := by
  have hstart : lastStart (t.take offset.toNat) = t.startBefore offset := by
    rw [← Lines.getLast?_startsAfter, Lines.startsAfter_eq_map, ← feedsBefore_eq_take, startBefore,
      List.getLast?_map]
    cases (t.feedsBefore offset).getLast? <;> rfl
  have hline : (t.take offset.toNat).count .lineFeed = (t.feedsBefore offset).length := by
    rw [feedsBefore_eq_take, List.length_idxsOf]
  simp only [position, hstart, hline]

end Text

def Number.Below (x y : Number) : Prop := x.le y = true ∧ y.le x = false

/-- A column that fits 53 bits, as does the distance from the start of the line that it is one more
than. -/
def IsExactColumn (column : Int) : Prop := -2 ^ 53 < column ∧ column ≤ 2 ^ 53

namespace Lines

open Number (ofInt)

variable {t : Text} {n n' : Number} {offset offset' : Int}

theorem locateNumber_of_toInt? (h : n.toInt? = some offset) :
    (ofText t).locateNumber n =
      ((t.feedsBefore offset).length + 1, (ofInt (offset - t.startBefore offset)).addInt 1) := by
  have hlocate := (locate_ofText t offset).trans (t.position_eq offset)
  rw [locate, Position.mk.injEq] at hlocate
  obtain ⟨hline, hcolumn⟩ := hlocate
  have hdistance : offset + -((ofText t).start ((ofText t).lineAt offset) : Int) =
      offset - t.startBefore offset := by
    omega
  simp only [locateNumber, Number.floor?_of_toInt? h, Option.getD_some]
  rw [hline, Number.addInt_of_toInt? h, hdistance]

section Column

theorem isExactColumn_of_range (hlow : -2 ^ 53 ≤ offset) (hhigh : offset < 2 ^ 53) :
    IsExactColumn (offset - t.startBefore offset + 1) := by
  have hle := t.startBefore_le offset
  constructor <;> omega

theorem toInt?_column (h : n.toInt? = some offset)
    (hexact : IsExactColumn (offset - t.startBefore offset + 1)) :
    ((ofText t).locateNumber n).2.toInt? = some (offset - t.startBefore offset + 1) := by
  obtain ⟨hlow, hhigh⟩ := hexact
  have hdistance : |offset - t.startBefore offset| ≤ 2 ^ 53 := abs_le.2 ⟨by omega, by omega⟩
  have hcolumn : |offset - t.startBefore offset + 1| ≤ 2 ^ 53 := abs_le.2 ⟨by omega, by omega⟩
  rw [locateNumber_of_toInt? h, Number.addInt_of_toInt? (Number.toInt?_ofInt hdistance)]
  exact Number.toInt?_ofInt hcolumn

theorem isBounded_column (h : n.toInt? = some offset) :
    ((ofText t).locateNumber n).2.IsBounded := by
  rw [locateNumber_of_toInt? h]
  exact (Number.isBounded_ofInt _).addInt 1

end Column

section Order

variable (h : n.toInt? = some offset) (h' : n'.toInt? = some offset')
include h h'

theorem line_lt_or_start_eq (hlt : offset < offset') :
    ((ofText t).locateNumber n).1 < ((ofText t).locateNumber n').1 ∨
      ((ofText t).locateNumber n).1 = ((ofText t).locateNumber n').1 ∧
        t.startBefore offset = t.startBefore offset' := by
  rw [locateNumber_of_toInt? h, locateNumber_of_toInt? h']
  rcases t.length_lt_or_feedsBefore_eq hlt.le with hline | hfeeds
  · exact .inl (Nat.succ_lt_succ hline)
  · refine .inr ⟨congrArg (·.length + 1) hfeeds, ?_⟩
    rw [Text.startBefore, Text.startBefore, hfeeds]

theorem locateNumber_lex_le (hlt : offset < offset') :
    Prod.Lex (· < ·) (fun x y : Number => x.le y = true) ((ofText t).locateNumber n)
      ((ofText t).locateNumber n') := by
  rw [Prod.lex_def]
  rcases line_lt_or_start_eq (t := t) h h' hlt with hline | ⟨hline, hstart⟩
  · exact .inl hline
  · refine .inr ⟨hline, ?_⟩
    rw [locateNumber_of_toInt? h, locateNumber_of_toInt? h', hstart]
    apply (Number.isBounded_ofInt _).le_addInt (Number.isBounded_ofInt _)
    exact Number.le_ofInt (Int.sub_le_sub_right hlt.le _)

theorem locateNumber_lex_below (hlt : offset < offset')
    (hexact : IsExactColumn (offset - t.startBefore offset + 1))
    (hexact' : IsExactColumn (offset' - t.startBefore offset' + 1)) :
    Prod.Lex (· < ·) Number.Below ((ofText t).locateNumber n) ((ofText t).locateNumber n') := by
  rw [Prod.lex_def]
  rcases line_lt_or_start_eq (t := t) h h' hlt with hline | ⟨hline, hstart⟩
  · exact .inl hline
  · have hcolumn := toInt?_column h hexact
    have hcolumn' := toInt?_column h' hexact'
    have hbounded := isBounded_column (t := t) h
    have hbounded' := isBounded_column (t := t) h'
    refine .inr ⟨hline, ?_, ?_⟩
    · rw [hbounded.le_iff_of_toInt? hbounded' hcolumn hcolumn', hstart]
      omega
    · rw [← Bool.not_eq_true, hbounded'.le_iff_of_toInt? hbounded hcolumn' hcolumn, hstart]
      omega

end Order

theorem ne_of_lex_below {p q : Nat × Number} (h : Prod.Lex (· < ·) Number.Below p q) : p ≠ q := by
  rintro rfl
  rcases Prod.lex_def.1 h with hlt | ⟨-, hle, hnot⟩
  · exact Nat.lt_irrefl _ hlt
  · rw [hle] at hnot
    cases hnot

/-- Where a whole number lies as an offset: its line is counted, and its column rounded. The column
is exact where it fits, as it does for every offset that a text can have. Larger offsets do not lie
in front of smaller ones, and where the columns are exact they lie behind them. -/
theorem locateNumber_counts (t : Text) {n n' : Number} {offset offset' : Int}
    (h : n.toInt? = some offset) (h' : n'.toInt? = some offset') :
    let column := offset - t.startBefore offset + 1
    let column' := offset' - t.startBefore offset' + 1
    let located := (ofText t).locateNumber n
    let located' := (ofText t).locateNumber n'
    located.1 = (t.feedsBefore offset).length + 1 ∧
      located.2 = (ofInt (offset - t.startBefore offset)).addInt 1 ∧
      (IsExactColumn column → located.2.toInt? = some column) ∧
      (-2 ^ 53 ≤ offset → offset < 2 ^ 53 → IsExactColumn column) ∧
      (offset < offset' →
        Prod.Lex (· < ·) (fun x y : Number => x.le y = true) located located') ∧
      (IsExactColumn column → IsExactColumn column' →
        (offset < offset' → Prod.Lex (· < ·) Number.Below located located') ∧
          (offset ≠ offset' → located ≠ located')) := by
  intro column column' located located'
  have hlocated := locateNumber_of_toInt? (t := t) h
  refine ⟨congrArg Prod.fst hlocated, congrArg Prod.snd hlocated, toInt?_column h,
    isExactColumn_of_range, locateNumber_lex_le h h', fun hexact hexact' => ⟨?_, ?_⟩⟩
  · intro hlt
    exact locateNumber_lex_below h h' hlt hexact hexact'
  · intro hne
    rcases lt_or_gt_of_ne hne with hlt | hgt
    · exact ne_of_lex_below (locateNumber_lex_below h h' hlt hexact hexact')
    · exact (ne_of_lex_below (locateNumber_lex_below h' h hgt hexact' hexact)).symm

theorem locateNumber_counts_outside :
    let t : Text := [.bar, .lineFeed, .bar]
    (ofInt (-7)).toInt? = some (-7) ∧ (ofInt 9).toInt? = some 9 ∧
      ((ofText t).locateNumber (ofInt (-7))).1 = 1 ∧
      ((ofText t).locateNumber (ofInt (-7))).2.toInt? = some (-6) ∧
      Prod.Lex (· < ·) Number.Below ((ofText t).locateNumber (ofInt (-7)))
        ((ofText t).locateNumber (ofInt 9)) := by
  intro t
  have h : (ofInt (-7)).toInt? = some (-7) := Number.toInt?_ofInt (by decide)
  have h' : (ofInt 9).toInt? = some 9 := Number.toInt?_ofInt (by decide)
  obtain ⟨hline, -, hcolumn, -, -, hdistinct⟩ := locateNumber_counts t h h'
  have hexact : IsExactColumn (-7 - t.startBefore (-7) + 1) := by
    constructor <;> decide
  have hexact' : IsExactColumn (9 - t.startBefore 9 + 1) := by
    constructor <;> decide
  exact ⟨h, h', hline, hcolumn hexact, (hdistinct hexact hexact').1 (by decide)⟩

/-- Beyond 53 bits a column need not be the distance from the start of its line, and two offsets
may lie at one position. -/
theorem locateNumber_not_exact :
    (ofInt (2 ^ 53 + 2)).toInt? = some (2 ^ 53 + 2) ∧ (ofInt (2 ^ 53)).toInt? = some (2 ^ 53) ∧
      ((ofText [.lineFeed]).locateNumber (ofInt (2 ^ 53 + 2))).2.toInt? = some (2 ^ 53) ∧
      (2 ^ 53 + 2 : Int) - Text.startBefore [.lineFeed] (2 ^ 53 + 2) + 1 ≠ 2 ^ 53 ∧
      (ofText [.lineFeed]).locateNumber (ofInt (2 ^ 53 + 2)) =
        (ofText [.lineFeed]).locateNumber (ofInt (2 ^ 53)) := by
  have h : (ofInt (2 ^ 53 + 2)).toInt? = some (2 ^ 53 + 2) := by decide +kernel
  have h' : (ofInt (2 ^ 53)).toInt? = some (2 ^ 53) := by decide +kernel
  rw [locateNumber_of_toInt? h, locateNumber_of_toInt? h']
  exact ⟨h, h', by decide +kernel, by decide +kernel, by decide +kernel⟩

end Lines

end Offside
