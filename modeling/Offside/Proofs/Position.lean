import Mathlib.Data.List.Count
import Mathlib.Data.List.Induction
import Offside.Lines

/-! Where an offset lies in a text, counted out: the line feeds in front of it, and the units since
the last of them. Main statement: bisection over the starts of the lines finds this position. -/

namespace Offside

namespace Text

def lastStart (t : Text) : Nat := t.length - (t.reverse.takeWhile (· != .lineFeed)).length

def position (t : Text) (offset : Int) : Position :=
  let before : Text := t.take offset.toNat
  ⟨before.count .lineFeed + 1, offset - before.lastStart + 1⟩

theorem lastStart_append (t : Text) (u : CodeUnit) :
    lastStart (t ++ [u]) = if u = .lineFeed then t.length + 1 else lastStart t := by
  rw [lastStart, List.reverse_append, List.length_append]
  by_cases h : u = .lineFeed
  · simp [h]
  · simp [h, lastStart]

end Text

namespace Lines

theorem startsAfter_eq_map (offset : Nat) (t : Text) :
    startsAfter offset t = (t.idxsOf .lineFeed offset).map (· + 1) := by
  induction t generalizing offset with
  | nil => rfl
  | cons u t ih =>
    rw [startsAfter, List.idxsOf_cons, ih]
    by_cases h : u = .lineFeed <;> simp [h]

theorem startsAfter_append (offset : Nat) (s t : Text) :
    startsAfter offset (s ++ t) = startsAfter offset s ++ startsAfter (offset + s.length) t := by
  rw [startsAfter_eq_map, startsAfter_eq_map, startsAfter_eq_map, List.idxsOf_append,
    List.map_append]

theorem length_startsAfter (offset : Nat) (t : Text) :
    (startsAfter offset t).length = t.count .lineFeed := by
  rw [startsAfter_eq_map, List.length_map, List.length_idxsOf]

theorem lt_of_mem_startsAfter {offset n : Nat} {t : Text} (h : n ∈ startsAfter offset t) :
    offset < n ∧ n ≤ offset + t.length := by
  rw [startsAfter_eq_map] at h
  obtain ⟨i, hi, rfl⟩ := List.mem_map.1 h
  have hge := List.ge_of_mem_idxsOf i hi
  have hlt := List.lt_add_of_mem_idxsOf i hi
  omega

theorem getLast?_startsAfter (t : Text) : (startsAfter 0 t).getLast?.getD 0 = t.lastStart := by
  induction t using List.reverseRecOn with
  | nil => rfl
  | append_singleton t u ih =>
    rw [Text.lastStart_append, ← ih]
    by_cases h : u = .lineFeed
    · simp [startsAfter_append, startsAfter, h]
    · simp [startsAfter_append, startsAfter, h]

theorem search_eq {lines : Lines} {offset : Int} {low high last : Nat} (hlow : low ≤ last)
    (hhigh : last ≤ high) (hbefore : ∀ i, 0 < i → i ≤ last → (lines.start i : Int) ≤ offset)
    (hafter : ∀ i, last < i → i ≤ high → offset < lines.start i) :
    lines.search offset low high = last := by
  fun_induction search lines offset low high with
  | case1 low high hlt mid hle ih =>
    have hmid : mid ≤ last := by
      rcases Nat.lt_or_ge last mid with h | h
      · have := hafter mid h (by omega)
        omega
      · exact h
    exact ih hmid hhigh hafter
  | case2 low high hlt mid hle ih =>
    have hmid : last < mid := by
      rcases Nat.lt_or_ge last mid with h | h
      · exact h
      · exact absurd (hbefore mid (by omega) h) hle
    exact ih hlow (by omega) fun i hi hle => hafter i hi (by omega)
  | case3 low high hlt => omega

theorem start_ofText (t : Text) (i : Nat) :
    (ofText t).start i = ((0 :: startsAfter 0 t)[i]?).getD 0 := by
  rw [start, Array.getD_eq_getD_getElem?, ofText, List.getElem?_toArray]

section Split

variable (s t : Text)

theorem start_append (i : Nat) :
    (ofText (s ++ t)).start i =
      ((0 :: startsAfter 0 s ++ startsAfter s.length t)[i]?).getD 0 := by
  rw [start_ofText, startsAfter_append, Nat.zero_add, List.cons_append]

theorem start_before {i : Nat} (h : i ≤ s.count .lineFeed) :
    (ofText (s ++ t)).start i ≤ s.length := by
  have hlt : i < (0 :: startsAfter 0 s).length := by
    rw [List.length_cons, length_startsAfter]
    exact Nat.lt_succ_of_le h
  rw [start_append, List.getElem?_append_left hlt, List.getElem?_eq_getElem hlt, Option.getD_some]
  rcases List.mem_cons.1 (List.getElem_mem hlt) with h0 | hmem
  · rw [h0]
    exact Nat.zero_le _
  · exact Nat.zero_add s.length ▸ (lt_of_mem_startsAfter hmem).2

theorem start_after {i : Nat} (h : s.count .lineFeed < i)
    (hi : i ≤ (s ++ t).count .lineFeed) : s.length < (ofText (s ++ t)).start i := by
  have hle : (0 :: startsAfter 0 s).length ≤ i := by
    rw [List.length_cons, length_startsAfter]
    exact h
  have hlt : i - (0 :: startsAfter 0 s).length < (startsAfter s.length t).length := by
    rw [List.count_append] at hi
    rw [length_startsAfter]
    rw [List.length_cons, length_startsAfter] at hle ⊢
    omega
  rw [start_append, List.getElem?_append_right hle, List.getElem?_eq_getElem hlt, Option.getD_some]
  exact (lt_of_mem_startsAfter (List.getElem_mem hlt)).1

theorem start_last : (ofText (s ++ t)).start (s.count .lineFeed) = s.lastStart := by
  have hlt : s.count .lineFeed < (0 :: startsAfter 0 s).length := by
    rw [List.length_cons, length_startsAfter]
    exact Nat.lt_succ_self _
  have hlast : (0 :: startsAfter 0 s)[s.count .lineFeed]? = (0 :: startsAfter 0 s).getLast? := by
    rw [List.getLast?_eq_getElem?, List.length_cons, length_startsAfter, Nat.add_sub_cancel]
  rw [start_append, List.getElem?_append_left hlt, hlast, List.getLast?_cons, Option.getD_some,
    getLast?_startsAfter]

end Split

theorem locate_ofText (t : Text) (offset : Int) : (ofText t).locate offset = t.position offset := by
  have hcut : t.take offset.toNat ++ t.drop offset.toNat = t := List.take_append_drop ..
  have hstart := start_last (t.take offset.toNat) (t.drop offset.toNat)
  have hline : (ofText t).lineAt offset = (t.take offset.toNat).count .lineFeed := by
    have hsize : (ofText t).starts.size - 1 = t.count .lineFeed := by
      rw [ofText, List.size_toArray, List.length_cons, length_startsAfter, Nat.add_sub_cancel]
    rw [lineAt, hsize]
    apply search_eq (Nat.zero_le _)
    · exact (List.take_sublist ..).count_le _
    · intro i hpos hi
      have hle := start_before (t.take offset.toNat) (t.drop offset.toNat) hi
      rw [hcut, List.length_take] at hle
      -- Before the text there is no line but the first.
      have hn : offset.toNat ≠ 0 := by
        intro h0
        rw [h0, List.take_zero, List.count_nil] at hi
        exact absurd hpos (Nat.not_lt.2 hi)
      omega
    · intro i hlt hi
      have hgt := start_after (t.take offset.toNat) (t.drop offset.toNat) hlt (by rwa [hcut])
      rw [hcut, List.length_take] at hgt
      -- Behind the text there is no line but the last.
      have hn : offset.toNat ≤ t.length := by
        rcases Nat.le_total offset.toNat t.length with h | h
        · exact h
        · rw [List.take_of_length_le h] at hlt
          exact absurd hi (Nat.not_le.2 hlt)
      omega
  rw [hcut] at hstart
  rw [locate, hline, hstart]
  rfl

end Lines

end Offside
