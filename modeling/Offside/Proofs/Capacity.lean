import Offside.Proofs.Nesting

/-! The limit on the depth of nesting. A run that reports no block as too deep never meets its
limit, so it is also a run under any higher one. Main statement: two limits tell apart only sources
for which the lower one is reported. -/

namespace Offside

theorem Blocks.push?_raised {b b' : Blocks} {width capacity : Nat} (h : b.push? width = some b')
    (hle : b.capacity ≤ capacity) :
    push? { b with capacity } width = some { b' with capacity } := by
  obtain ⟨hw, hd, rfl⟩ := push?_eq_some_iff.1 h
  exact push?_eq_some_iff.2 ⟨hw, Nat.lt_of_lt_of_le hd hle, rfl⟩

def Scanner.under (settings : Settings) (s : Scanner) : Scanner :=
  ⟨{ s.blocks with capacity := settings.capacity }, s.deferred, settings.budget⟩

def Place.under (settings : Settings) (p : Place) : Place :=
  { p with scanner := p.scanner.under settings }

section Under

variable {instructions : Bool} {settings : Settings}

theorem Quiet.under {m : Mode} {s : Scanner} {t : Text} (h : Quiet m s t) :
    Quiet m (s.under settings) t :=
  ⟨h.yields, h.settled⟩

theorem Scanner.Declines.under {s : Scanner} {t : Text} (h : s.Declines t) :
    (s.under settings).Declines t :=
  ⟨h.atEnd, h.atBreak⟩

theorem Move.under {p q : Place} {x : Option Lexeme} {ns : List Notice}
    (h : Move instructions p x ns q) (hle : p.scanner.blocks.capacity ≤ settings.capacity)
    (hns : ∀ n ∈ ns, n.code ≠ .depthLimit) :
    Move instructions (p.under settings) x ns (q.under settings) := by
  cases h with
  | interpolation => exact .interpolation
  | segment hu hbang hrun hrest => exact .segment hu hbang hrun hrest
  | owed hy ho => exact .owed hy ho
  | indent hq hw hb => exact .indent hq.under hw (Blocks.push?_raised hb hle)
  | capped => exact absurd rfl (hns _ List.mem_cons_self)
  | dedent hq hw => exact .dedent hq.under hw
  | newline hq hw hp => exact .newline hq.under hw hp
  | closing hq hw => exact .closing hq.under hw
  | blanks hm hq hne hrun hrest => exact .blanks hm hq.under hne hrun hrest
  | comment hm hq hrun hbody hrest => exact .comment hm hq.under hrun hbody hrest
  | skip hq hd hu => exact .skip hq.under hd.under hu
  | single hm hq hu => exact .single hm hq.under hu
  | word hm hq hne hrun hrest => exact .word hm hq.under hne hrun hrest

theorem Run.under {p : Place} {xs : List Lexeme} {ns : List Notice} {last : Scanner}
    (h : Run instructions p xs ns last) (hle : p.scanner.blocks.capacity ≤ settings.capacity)
    (hns : ∀ n ∈ ns, n.code ≠ .depthLimit) :
    Run instructions (p.under settings) xs ns (last.under settings) := by
  induction h with
  | stop hq hd => exact .stop hq.under hd.under
  | move hmove _ ih =>
    have hcapacity := hmove.turn.capacity_eq
    apply Run.move (hmove.under hle fun n hn => hns n (List.mem_append_left _ hn))
    apply ih
    · rw [hcapacity]
      exact hle
    · exact fun n hn => hns n (List.mem_append_right _ hn)

end Under

/-- If the lower of two limits is not reported for a source, neither is the higher one, and the
tokens are the same under both. -/
theorem tokens_eq_of_no_depthLimit (source : Text) (instructions trace trace' : Bool)
    (maxDepth maxDepth' bufferSize bufferSize' : Option Number)
    (hle : (Settings.ofNumbers maxDepth bufferSize).capacity ≤
      (Settings.ofNumbers maxDepth' bufferSize').capacity)
    (hnone : ∀ n ∈ (tokenize source
        ⟨instructions, true, .ofNumbers maxDepth bufferSize⟩).events.filterMap Event.notice?,
      n.code ≠ .depthLimit) :
    (∀ n ∈ (tokenize source
        ⟨instructions, true, .ofNumbers maxDepth' bufferSize'⟩).events.filterMap Event.notice?,
      n.code ≠ .depthLimit) ∧
    (tokenize source ⟨instructions, trace', .ofNumbers maxDepth' bufferSize'⟩).tokens =
      (tokenize source ⟨instructions, trace, .ofNumbers maxDepth bufferSize⟩).tokens := by
  have hrun := Reader.run_isRun instructions
    (Reader.start source (.ofNumbers maxDepth bufferSize))
  have hunder : Run instructions
      (Reader.start source (.ofNumbers maxDepth' bufferSize')).place _ _ _ := hrun.under hle hnone
  obtain ⟨hlexemes, hnotices, -⟩ := Reader.eq_run_of_isRun hunder
  constructor
  · intro n hn
    exact hnone n (hnotices ▸ hn)
  · simp only [tokens_tokenize, hlexemes]

theorem tokens_eq_of_no_depthLimit_nested :
    let source : Text :=
      [.bar, .lineFeed, .space, .bar, .lineFeed, .tab, .bar, .lineFeed, .space, .bar]
    let low := Settings.ofNumbers (some (.ofNat 3)) none
    let high := Settings.ofNumbers (some (.ofNat 1000)) (some (.ofNat 7))
    low.capacity = 3 ∧ high.capacity = 255 ∧
      (tokenize source ⟨true, false, high⟩).tokens =
        (tokenize source ⟨true, true, low⟩).tokens := by
  intro source low high
  have hle : low.capacity ≤ high.capacity := by decide +kernel
  have hnone : ∀ n ∈ (tokenize source ⟨true, true, low⟩).events.filterMap Event.notice?,
      n.code ≠ .depthLimit := by decide +kernel
  refine ⟨by decide +kernel, by decide +kernel, ?_⟩
  exact (tokens_eq_of_no_depthLimit source true true false (some (.ofNat 3)) (some (.ofNat 1000))
    none (some (.ofNat 7)) hle hnone).2

end Offside
