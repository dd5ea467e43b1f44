import Offside.Command
import Offside.Proofs.Nesting
import Offside.Proofs.TextLines
import Offside.Proofs.Tiling

/-! What a request is answered with. Main statement: a line that is no number and a file that cannot
be read are reported and nothing else is; any other request lists a part of the tokens that has no
gaps, and every snapshot is that of a scanner at rest. -/

namespace Offside

namespace Line

/-- A text of digits that are not all zero. -/
def IsNumber (t : Text) : Prop :=
  t ≠ [] ∧ (∀ u ∈ t, u.isDigit = true) ∧ ∃ u ∈ t, u ≠ .zero

/-- No more than five lines from a target; without a target every line is near. -/
def Near (target : Option Nat) (line : Nat) : Prop := ∀ n ∈ target, n ≤ line + 5 ∧ line ≤ n + 5

instance (target : Option Nat) (line : Nat) : Decidable (Near target line) :=
  match target with
  | none => .isTrue fun _ h => nomatch h
  | some n => decidable_of_iff (n ≤ line + 5 ∧ line ≤ n + 5) (by simp [Near])

theorem digit_eq_zero_iff {u : CodeUnit} (h : u.isDigit = true) :
    u.toNat - CodeUnit.zero.toNat = 0 ↔ u = .zero := by
  rw [CodeUnit.isDigit, Bool.and_eq_true, decide_eq_true_eq, decide_eq_true_eq] at h
  have hle : CodeUnit.zero.toNat ≤ u.toNat := UInt16.le_iff_toNat_le.1 h.1
  rw [← UInt16.toNat_inj]
  omega

theorem value_eq_zero_iff {t : Text} (h : ∀ u ∈ t, u.isDigit = true) :
    value t = 0 ↔ ∀ u ∈ t, u = .zero := by
  have hfold : ∀ n, t.foldl (fun n u => 10 * n + (u.toNat - CodeUnit.zero.toNat)) n = 0 ↔
      n = 0 ∧ ∀ u ∈ t, u = .zero := by
    induction t with
    | nil => simp
    | cons u t ih =>
      intro n
      rw [List.foldl_cons, ih fun v hv => h v (List.mem_cons_of_mem u hv), List.forall_mem_cons,
        Nat.add_eq_zero_iff, Nat.mul_eq_zero, digit_eq_zero_iff (h u List.mem_cons_self)]
      simp [and_assoc]
  rw [value, hfold, eq_self, true_and]

theorem parse?_of_isNumber {t : Text} (h : IsNumber t) : parse? t = some (value t) := by
  obtain ⟨hne, hdigits, u, hu, hzero⟩ := h
  have hvalue : value t ≠ 0 := fun h0 => hzero ((value_eq_zero_iff hdigits).1 h0 u hu)
  exact if_pos ⟨hne, List.all_eq_true.2 hdigits, hvalue⟩

theorem parse?_of_not_isNumber {t : Text} (h : ¬IsNumber t) : parse? t = none := by
  apply if_neg
  rintro ⟨hne, hall, hvalue⟩
  have hdigits := List.all_eq_true.1 hall
  rw [ne_eq, value_eq_zero_iff hdigits, not_forall] at hvalue
  obtain ⟨u, hu⟩ := hvalue
  rw [Classical.not_imp] at hu
  exact h ⟨hne, hdigits, u, hu⟩

theorem isShown_eq (target : Option Nat) (line : Nat) :
    isShown line (target.map Int.ofNat) = decide (Near target line) := by
  cases target with
  | none => simp [isShown, Near]
  | some n =>
    rw [Bool.eq_iff_iff, decide_eq_true_eq]
    simp only [Option.map_some, isShown, Near, Option.mem_some_iff, forall_eq', Bool.and_eq_true,
      decide_eq_true_eq]
    rw [window, Int.ofNat_eq_natCast]
    omega

section Window

variable {α : Type} {line : α → Nat} {xs : List α}

theorem isPrefix_filter_le (h : xs.Pairwise fun x y => line x ≤ line y) (high : Nat) :
    xs.filter (fun x => line x ≤ high) <+: xs := by
  induction xs with
  | nil => exact List.prefix_refl _
  | cons x xs ih =>
    rw [List.pairwise_cons] at h
    by_cases hx : line x ≤ high
    · rw [List.filter_cons_of_pos (by simpa using hx)]
      exact List.prefix_cons_inj x |>.2 (ih h.2)
    · have hnone : (x :: xs).filter (fun x => line x ≤ high) = [] := by
        rw [List.filter_eq_nil_iff]
        intro y hy
        rcases List.mem_cons.1 hy with rfl | hy
        · simpa using hx
        · have := h.1 y hy
          simp only [decide_eq_true_eq]
          omega
      rw [hnone]
      exact List.nil_prefix

theorem isInfix_filter_near (h : xs.Pairwise fun x y => line x ≤ line y) (target : Option Nat) :
    xs.filter (fun x => Near target (line x)) <:+: xs := by
  cases target with
  | none =>
    have hall : xs.filter (fun x => Near none (line x)) = xs :=
      List.filter_eq_self.2 fun x _ => by simp [Near]
    exact ⟨[], [], by rw [hall, List.nil_append, List.append_nil]⟩
  | some n =>
    induction xs with
    | nil => exact List.infix_refl _
    | cons x xs ih =>
      have htail := List.pairwise_cons.1 h
      rcases Nat.lt_or_ge (line x + 5) n with hx | hx
      · have hfar : ¬Near (some n) (line x) := fun hc => absurd (hc n rfl).1 (Nat.not_le.2 hx)
        rw [List.filter_cons_of_neg (by simpa using hfar)]
        exact (ih htail.2).trans (List.suffix_cons x xs).isInfix
      · -- From here on only the upper bound can fail.
        have heq : (x :: xs).filter (fun y => Near (some n) (line y)) =
            (x :: xs).filter fun y => line y ≤ n + 5 := by
          apply List.filter_congr
          intro y hy
          have hle : line x ≤ line y := by
            rcases List.mem_cons.1 hy with rfl | hy
            · exact Nat.le_refl _
            · exact htail.1 y hy
          rw [decide_eq_decide]
          simp only [Near, Option.mem_some_iff, forall_eq']
          omega
        rw [heq]
        exact (isPrefix_filter_le h (n + 5)).isInfix

end Window

end Line

theorem pairwise_line (source : Text) (options : Options) :
    (tokenize source options).tokens.toList.Pairwise
      fun x y => x.position.line ≤ y.position.line := by
  have hin : (Reader.start source options.settings).place.In source := ⟨[], rfl, rfl⟩
  have htiling := (tokenize_isRun source options).tiling hin
  have hordered := List.pairwise_map.1 htiling.ordered
  apply hordered.imp_of_mem
  intro x y hx hy hxy
  have hspan := (htiling.spans _ (List.mem_map_of_mem hx)).1
  rw [position_of_mem_tokens hx, position_of_mem_tokens hy]
  have hsub : (source.take x.span.start).Sublist (source.take y.span.start) :=
    List.take_sublist_take_left (Nat.le_trans hspan hxy)
  exact Nat.succ_le_succ (hsub.count_le .lineFeed)

theorem Move.budget_eq {instructions : Bool} {p q : Place} {x : Option Lexeme} {ns : List Notice}
    (h : Move instructions p x ns q) : q.scanner.budget = p.scanner.budget := by
  cases h <;> rfl

theorem Run.budget_eq {instructions : Bool} {p : Place} {xs : List Lexeme} {ns : List Notice}
    {last : Scanner} (h : Run instructions p xs ns last) : last.budget = p.scanner.budget := by
  induction h with
  | stop => rfl
  | move hmove _ ih => exact ih.trans hmove.budget_eq

theorem Scanner.snapshot_of_rest {s : Scanner} (hentries : s.blocks.entries = [0])
    (hdeferred : s.deferred = none) (hbudget : s.budget = .bytes Budget.defaultSize) :
    s.snapshot = .ok ([1, 1, 0xFF, 0xFF, 0, 0], []) := by
  rw [snapshot, hbudget]
  simp only [snapshotWithin, hentries, hdeferred]
  rfl

theorem Entry.isError_of_mem_ofEvent {e : Event} {entry : Entry} (h : entry ∈ Entry.ofEvent e) :
    entry.isError = false := by
  cases e with
  | notice n =>
    cases List.mem_singleton.1 h
    rfl
  | _ =>
    obtain ⟨text, -, rfl⟩ := List.mem_map.1 h
    rfl

namespace Request

variable {r : Request} {text : Text}

theorem target_of_isNumber (h : ∀ text ∈ r.line, Line.IsNumber text) :
    r.target = .ok (r.line.map Line.value) := by
  rw [target]
  cases hl : r.line with
  | none => rfl
  | some text => simp only [Line.parse?_of_isNumber (h text hl), Option.map_some]

theorem target_of_not_isNumber (hl : r.line = some text) (h : ¬Line.IsNumber text) :
    r.target = .error text := by
  simp only [target, hl, Line.parse?_of_not_isNumber h]

theorem snapshotEntries_tokenize (r : Request) (source : Text) :
    r.snapshotEntries (tokenize source r.options).scanner =
      [.line (Text.ofString "snapshot: 01 01 ff ff 00 00")] := by
  have hrun := tokenize_isRun source r.options
  have hcapacity : 1 ≤ Blocks.defaultCapacity := by decide
  have hrest := hrun.balanced (Blocks.sound_base hcapacity)
  rw [snapshotEntries, Scanner.snapshot_of_rest hrest.entries hrest.settled hrun.budget_eq]
  have hbytes : Text.ofString "snapshot: " ++ renderBytes [1, 1, 0xFF, 0xFF, 0, 0] =
      Text.ofString "snapshot: 01 01 ff ff 00 00" := by decide
  simp only [List.flatMap_nil, ite_self, List.nil_append, hbytes]

theorem shown_eq (target : Option Nat) (tokens : List Token) :
    shown target tokens = tokens.filter fun t => Line.Near target t.position.line := by
  simp only [shown, Line.isShown_eq]

theorem list_eq (r : Request) (target : Option Nat) (source : Text) :
    let result := tokenize source { instructions := r.instructions, trace := true }
    r.list target source =
      (if r.trace then result.events.flatMap Entry.ofEvent else []) ++
        (result.tokens.toList.filter fun t => Line.Near target t.position.line).map
          (fun t => .line (t.render source)) ++
        (if r.snapshot then [.line (Text.ofString "snapshot: 01 01 ff ff 00 00")] else []) := by
  intro result
  have hevents : (tokenize source r.options).events = if r.trace then result.events else [] := by
    rw [events_tokenize, events_tokenize]
    rfl
  have htokens : (tokenize source r.options).tokens = result.tokens := by
    rw [tokens_tokenize, tokens_tokenize]
    rfl
  simp only [list, snapshotEntries_tokenize, shown_eq, hevents, htokens]
  cases r.trace <;> rfl

theorem isError_of_mem_list {target : Option Nat} {source : Text} {entry : Entry}
    (h : entry ∈ r.list target source) : entry.isError = false := by
  rw [list_eq, List.mem_append, List.mem_append] at h
  rcases h with (h | h) | h
  · split at h
    · obtain ⟨e, -, he⟩ := List.mem_flatMap.1 h
      exact Entry.isError_of_mem_ofEvent he
    · cases h
  · obtain ⟨token, -, rfl⟩ := List.mem_map.1 h
    rfl
  · split at h
    · cases List.mem_singleton.1 h
      rfl
    · cases h

/-- A request is refused with a single error where its line is no number, and fails with a single
error where its file cannot be read. Otherwise it succeeds, and lists the reports, the tokens near
the line and the snapshot, each as far as it is asked for. The tokens listed have no gaps. -/
theorem run_report (r : Request) (read : Text → Except Failure Bytes) :
    (∀ text ∈ r.line, r.target = .error text ↔ ¬Line.IsNumber text) ∧
      (∀ text ∈ r.line, ¬Line.IsNumber text →
        r.run read = ⟨1, [.error (Line.complaint text)]⟩) ∧
      ((∀ text ∈ r.line, Line.IsNumber text) →
        (∀ failure, read r.path = .error failure →
          r.run read = ⟨1, [.error (failure.readReport r.path)]⟩) ∧
        ∀ bytes, read r.path = .ok bytes →
          let source := Text.Utf8.decode bytes
          let result := tokenize source { instructions := r.instructions, trace := true }
          let listed := result.tokens.toList.filter fun t =>
            Line.Near (r.line.map Line.value) t.position.line
          r.run read = ⟨0,
              (if r.trace then result.events.flatMap Entry.ofEvent else []) ++
                listed.map (fun t => .line (t.render source)) ++
                (if r.snapshot then [.line (Text.ofString "snapshot: 01 01 ff ff 00 00")]
                else [])⟩ ∧
            (∀ entry ∈ (r.run read).entries, entry.isError = false) ∧
            listed <:+: result.tokens.toList) := by
  refine ⟨fun text hl => ⟨fun ht hn => ?_, target_of_not_isNumber hl⟩, ?_, ?_⟩
  · have hall : ∀ text ∈ r.line, Line.IsNumber text := by
      intro text' hl'
      cases hl.symm.trans hl'
      exact hn
    cases ht.symm.trans (target_of_isNumber hall)
  · intro text hl hn
    simp only [run, target_of_not_isNumber hl hn, Report.failed]
  · intro hnumber
    have htarget := target_of_isNumber hnumber
    refine ⟨fun failure hread => ?_, fun bytes hread => ?_⟩
    · simp only [run, htarget, hread, Report.failed]
    · intro source result listed
      have hrun : r.run read = ⟨0, r.list (r.line.map Line.value) source⟩ := by
        simp only [run, htarget, hread, source]
      refine ⟨by rw [hrun, list_eq], ?_, ?_⟩
      · rw [hrun]
        exact fun entry => isError_of_mem_list
      · exact Line.isInfix_filter_near (pairwise_line source _) _

theorem run_report_leading_zero :
    let r : Request :=
      { path := Text.ofString "a", trace := true, snapshot := true, line := some [0x30, 0x37] }
    let read : Text → Except Failure Bytes := fun _ => .ok [0x7C, 0x0A]
    let valid := " valid=[NEWLINE,INDENT,DEDENT] stack=[0] pending=-"
    let logged := ["scan: lookahead=\"|\"" ++ valid, "  => no token",
      "scan: lookahead=\"\\n\"" ++ valid, "  line boundary: width=0 current=0", "  => no token",
      "scan: lookahead=EOF" ++ valid, "  line boundary: width=0 current=0", "  => no token"]
    (∀ text ∈ r.line, Line.IsNumber text) ∧ read r.path = .ok [0x7C, 0x0A] ∧
      r.run read = ⟨0, logged.map (fun line => .info (Text.ofString line)) ++
        [.line (Text.ofString "Line    2: EOF @ 2..2"),
        .line (Text.ofString "snapshot: 01 01 ff ff 00 00")]⟩ := by
  intro r read valid logged
  have hline : ∀ text ∈ r.line, Line.IsNumber text := by
    rintro text ⟨⟩
    exact ⟨List.cons_ne_nil _ _, List.all_eq_true.1 rfl, 0x37, by simp, by decide⟩
  refine ⟨hline, rfl, ?_⟩
  rw [(((run_report r read).2.2 hline).2 [0x7C, 0x0A] rfl).1]
  decide +kernel

end Request

end Offside
