import Offside.Proofs.Decision
import Offside.Proofs.Nesting

/-! Why there are only so many tokens. A token takes a unit of the source or closes a block, so the
units ahead, each of which may open a block, and the open blocks bound their number. Main
statements: a reader comes to the end of every source, with the end of input as its last token; and
no caller of the scanner, whatever kinds it accepts, gets tokens without end. -/

namespace Offside

namespace Reader

def steps (instructions : Bool) : Nat → Reader → Option (List Lexeme × Scanner)
  | 0, _ => none
  | n + 1, r =>
    match (r.step instructions).1 with
    | .token x next => (steps instructions n next).map fun (xs, last) => (x :: xs, last)
    | .layout next => steps instructions n next
    | .done x last => some ([x], last.scanner)

variable {instructions : Bool} {r : Reader} {n : Nat}

theorem steps_eq_run (h : r.work < n) :
    r.steps instructions n =
      some ((r.run instructions).lexemes, (r.run instructions).scanner) := by
  -- The work falls with every step but the last, so it never outlasts the steps that are allowed.
  induction n generalizing r with
  | zero => exact absurd h (Nat.not_lt_zero _)
  | succ n ih =>
    have hwork := @work_lt_of_step instructions r
    rw [steps]
    rcases hstep : r.step instructions with ⟨step, events⟩
    rw [hstep] at hwork
    cases step with
    | token x next =>
      have hlt := hwork rfl
      rw [run_of_token hstep]
      dsimp only
      rw [ih (by omega)]
      rfl
    | layout next =>
      have hlt := hwork rfl
      rw [run_of_layout hstep]
      exact ih (by omega)
    | done x last => rw [run_of_done hstep]

theorem length_le_of_steps {xs : List Lexeme} {last : Scanner}
    (h : r.steps instructions n = some (xs, last)) : xs.length ≤ n := by
  induction n generalizing r xs with
  | zero => cases h
  | succ n ih =>
    rw [steps] at h
    split at h
    · obtain ⟨⟨ys, last⟩, hsteps, heq⟩ := Option.map_eq_some_iff.1 h
      cases heq
      exact Nat.succ_le_succ (ih hsteps)
    · exact Nat.le_succ_of_le (ih h)
    · cases h
      exact Nat.succ_le_succ (Nat.zero_le n)

end Reader

theorem Nesting.Turn.kind_ne {b b' : Blocks} {x : Option Lexeme} {ns : List Notice}
    (h : Turn b x ns b') : ∀ y ∈ x, y.kind ≠ .endOfInput := by
  rintro y ⟨⟩ hend
  cases h with
  | opening _ hk => cases hk.symm.trans hend
  | capped _ _ hk => cases hk.symm.trans hend
  | closing _ hk => cases hk.symm.trans hend
  | token hk =>
    rw [hend] at hk
    cases hk

theorem Run.endOfInput_last {instructions : Bool} {p : Place} {xs : List Lexeme}
    {ns : List Notice} {s : Scanner} (h : Run instructions p xs ns s) :
    ∃ before last, xs = before ++ [last] ∧ last.kind = .endOfInput ∧
      ∀ x ∈ before, x.kind ≠ .endOfInput := by
  induction h with
  | stop => exact ⟨[], _, rfl, rfl, nofun⟩
  | @move p q x ns xs ms s hmove _ ih =>
    obtain ⟨before, last, rfl, hlast, hbefore⟩ := ih
    refine ⟨x.toList ++ before, last, (List.append_assoc ..).symm, hlast, ?_⟩
    intro y hy
    rcases List.mem_append.1 hy with hy | hy
    · exact hmove.turn.kind_ne y (Option.mem_toList.1 hy)
    · exact hbefore y hy

/-- Reading ends within two steps for every unit of the source and one more, with the tokens that
tokenizing gives. The last of them and no other is the end of input, and there are no more of them
than steps. -/
theorem reading_ends (source : Text) (options : Options) :
    let result := tokenize source options
    let tokens := result.tokens.toList.map Token.toLexeme
    (Reader.start source options.settings).steps options.instructions (2 * source.length + 1) =
        some (tokens, result.scanner) ∧
      (∃ before last, tokens = before ++ [last] ∧ last.kind = .endOfInput ∧
        ∀ x ∈ before, x.kind ≠ .endOfInput) ∧
      tokens.length ≤ 2 * source.length + 1 := by
  intro result tokens
  have hsteps : (Reader.start source options.settings).steps options.instructions
      (2 * source.length + 1) = some (tokens, result.scanner) := by
    have htokens : tokens = _ := toLexeme_tokens source options
    have hscanner : result.scanner = _ := scanner_tokenize source options
    rw [htokens, hscanner]
    exact Reader.steps_eq_run (Nat.lt_succ_self (2 * source.length))
  have hlast := (tokenize_isRun source options).endOfInput_last
  exact ⟨hsteps, hlast, Reader.length_le_of_steps hsteps⟩

/-- A token of a caller's loop: where it was begun, its kind and span, and the blocks around the
scan. -/
structure Emission where
  begun : Nat
  kind : Kind
  span : Span
  before : Blocks
  after : Blocks

namespace Scanner

/-- The tokens of a caller's loop, which begins, scans and accepts until a scan declines. It may
accept other kinds each time. -/
def emissions (s : Scanner) (c : Cursor) : List (List Kind) → List Emission
  | [] => []
  | accepted :: rest =>
    let o := s.scan accepted c.begin
    match o.kind with
    | none => []
    | some kind =>
      ⟨c.offset, kind, o.cursor.span, s.blocks, o.scanner.blocks⟩ ::
        o.scanner.emissions o.cursor.accept rest

end Scanner

theorem Decision.dedent_of_fewer {accepted : List Kind} {s s' : Scanner} {kind : Kind}
    {measured : Option Nat} (h : Decision accepted s (some kind) measured s')
    (hlt : s'.blocks.opened.length < s.blocks.opened.length) :
    kind = .dedent ∧ s'.blocks = s.blocks.pop := by
  cases h with
  | text => exact absurd hlt (Nat.lt_irrefl _)
  | owed => exact ⟨rfl, rfl⟩
  | indent _ _ _ hpush =>
    rw [Blocks.opened_of_push? hpush] at hlt
    exact absurd hlt (Nat.not_lt.2 (Nat.le_succ _))
  | capped => exact absurd hlt (Nat.lt_irrefl _)
  | dedent => exact ⟨rfl, rfl⟩
  | defer => exact absurd hlt (Nat.lt_irrefl _)
  | level =>
    rw [Scanner.blocks_ready] at hlt
    exact absurd hlt (Nat.lt_irrefl _)

namespace Scanner

variable {s : Scanner} {c : Cursor} {accepted : List Kind} {kind : Kind}

theorem scan_progress (h : (s.scan accepted c.begin).kind = some kind) :
    Progress c.begin (s.scan accepted c.begin).cursor s.blocks
      (s.scan accepted c.begin).scanner.blocks :=
  progress_pick rfl h

theorem scan_takes_or_closes (h : (s.scan accepted c.begin).kind = some kind) :
    c.offset < (s.scan accepted c.begin).cursor.span.stop ∨ kind = .dedent ∧
      s.blocks.entries =
        (s.scan accepted c.begin).scanner.blocks.entries ++ [s.blocks.current] := by
  rcases scan_progress h with ⟨htaken, -⟩ | ⟨-, hlt⟩
  · exact .inl htaken
  · have hdecision := s.scan_decides accepted c.begin
    rw [h] at hdecision
    obtain ⟨hkind, hblocks⟩ := hdecision.dedent_of_fewer hlt
    refine .inr ⟨hkind, ?_⟩
    rw [hblocks]
    exact Blocks.entries_of_ne_nil (List.ne_nil_of_length_pos (Nat.zero_lt_of_lt hlt))

theorem work_lt_of_scan (h : (s.scan accepted c.begin).kind = some kind) :
    2 * (s.scan accepted c.begin).cursor.accept.remaining +
        (s.scan accepted c.begin).scanner.blocks.opened.length <
      2 * c.remaining + s.blocks.opened.length :=
  (scan_progress h).less (continues_pick s accepted c.begin).source

theorem length_emissions_le (calls : List (List Kind)) :
    (s.emissions c calls).length ≤ 2 * c.remaining + s.blocks.opened.length := by
  induction calls generalizing s c with
  | nil => exact Nat.zero_le _
  | cons accepted rest ih =>
    rw [emissions]
    split
    · exact Nat.zero_le _
    · rename_i kind hkind
      exact Nat.lt_of_le_of_lt ih (work_lt_of_scan hkind)

theorem takes_or_closes_of_mem {calls : List (List Kind)} {e : Emission}
    (he : e ∈ s.emissions c calls) :
    e.begun < e.span.stop ∨
      e.kind = .dedent ∧ e.before.entries = e.after.entries ++ [e.before.current] := by
  induction calls generalizing s c with
  | nil => cases he
  | cons accepted rest ih =>
    rw [emissions] at he
    split at he
    · cases he
    · rename_i kind hkind
      rcases List.mem_cons.1 he with rfl | he
      · exact scan_takes_or_closes hkind
      · exact ih he

/-- Whatever the scanner, the cursor and the kinds that are accepted from call to call: every token
of a caller's loop takes units or is a dedent that closes the innermost block. So there are at most
two tokens for every unit ahead and one for every block open above the base. -/
theorem emissions_bounded (s : Scanner) (c : Cursor) (calls : List (List Kind)) :
    (∀ e ∈ s.emissions c calls, e.begun < e.span.stop ∨
        e.kind = .dedent ∧ e.before.entries = e.after.entries ++ [e.before.current]) ∧
      (s.emissions c calls).length ≤ 2 * c.remaining + (s.blocks.depth - 1) :=
  ⟨fun _ he => takes_or_closes_of_mem he, length_emissions_le calls⟩

end Scanner

end Offside
