import Offside.Command.Failure
import Offside.Command.Line

/-! Messages are filled in a single pass. Main statement: a template of literals and slots gives the
same literals with the values of the slots between them, whatever the values hold; so the reports of
the command quote a path or a reason word for word. -/

namespace Offside

namespace Template

def IsName (name : Text) : Prop := name ≠ [] ∧ ∀ u ∈ name, u.isWord = true

instance : DecidablePred IsName := fun name =>
  decidable_of_iff (name ≠ [] ∧ name.all CodeUnit.isWord = true) (by rw [List.all_eq_true]; rfl)

/-- A text in which no slot stands; braces may. -/
def IsLiteral (t : Text) : Prop := ∀ name, IsName name → ¬slot name <:+: t

/-- A literal, and slots with a literal behind each. -/
structure Layout where
  first : Text
  slots : List (Text × Text)
  deriving DecidableEq, Repr

namespace Layout

def render (text : Text → Text) (l : Layout) : Text :=
  l.first ++ l.slots.flatMap fun s => text s.1 ++ s.2

def template (l : Layout) : Text := l.render slot

structure Sound (l : Layout) : Prop where
  first : IsLiteral l.first
  names : ∀ s ∈ l.slots, IsName s.1
  literals : ∀ s ∈ l.slots, IsLiteral s.2

theorem render_cons (text : Text → Text) (first name literal : Text) (slots : List (Text × Text)) :
    render text ⟨first, (name, literal) :: slots⟩ =
      first ++ (text name ++ render text ⟨literal, slots⟩) := by
  simp [render]

theorem template_cons (first name literal : Text) (slots : List (Text × Text)) :
    template ⟨first, (name, literal) :: slots⟩ =
      first ++ (slot name ++ template ⟨literal, slots⟩) :=
  render_cons slot first name literal slots

end Layout

section Slot

variable {name t rest : Text}

theorem slot?_slot (h : IsName name) (rest : Text) :
    slot? (slot name ++ rest) = some (name, rest) := by
  have hsplit : slot name ++ rest = .openBrace :: (name ++ .closeBrace :: rest) := by
    simp [slot]
  have htake : (name ++ .closeBrace :: rest).takeWhile CodeUnit.isWord = name := by
    rw [List.takeWhile_append_of_pos h.2]
    simp [show CodeUnit.isWord .closeBrace = false by decide]
  have hdrop : (name ++ .closeBrace :: rest).dropWhile CodeUnit.isWord = .closeBrace :: rest := by
    rw [List.dropWhile_append_of_pos h.2]
    simp [show CodeUnit.isWord .closeBrace = false by decide]
  rw [hsplit, slot?, htake, hdrop, if_pos ⟨rfl, h.1, rfl⟩]
  rfl

theorem slot?_eq_some (h : slot? t = some (name, rest)) : t = slot name ++ rest ∧ IsName name := by
  cases t with
  | nil => cases h
  | cons u t =>
    rw [slot?] at h
    split at h
    · rename_i hu
      obtain ⟨rfl, hne, hclose⟩ := hu
      obtain ⟨rest', hrest⟩ := List.head?_eq_some_iff.1 hclose
      cases h
      refine ⟨?_, hne, List.all_eq_true.1 List.all_takeWhile⟩
      have ht : t = t.takeWhile CodeUnit.isWord ++ .closeBrace :: rest' := by
        rw [← hrest, List.takeWhile_append_dropWhile]
      rw [hrest, List.tail_cons]
      simpa [slot] using ht
    · cases h

theorem openBrace_not_mem (h : IsName name) : .openBrace ∉ name ++ [.closeBrace] := by
  intro hmem
  rcases List.mem_append.1 hmem with hmem | hmem
  · exact absurd (h.2 _ hmem) (by decide)
  · exact absurd (List.mem_singleton.1 hmem) (by decide)

end Slot

namespace IsLiteral

variable {u : CodeUnit} {t rest : Text}

theorem of_not_mem_openBrace (h : .openBrace ∉ t) : IsLiteral t := by
  intro name _ hslot
  exact h (hslot.subset List.mem_cons_self)

theorem of_not_mem_closeBrace (h : .closeBrace ∉ t) : IsLiteral t := by
  intro name _ hslot
  exact h (hslot.subset (List.mem_append_right _ List.mem_cons_self))

theorem of_cons (h : IsLiteral (u :: t)) : IsLiteral t := fun name hname hslot =>
  h name hname (List.infix_cons hslot)

theorem slot?_eq_none (h : IsLiteral (u :: t))
    (hrest : ∀ v, rest.head? = some v → v = .openBrace) : slot? (u :: t ++ rest) = none := by
  rw [Option.eq_none_iff_forall_ne_some]
  rintro ⟨name, after⟩ hslot
  obtain ⟨hsplit, hname⟩ := slot?_eq_some hslot
  rcases List.append_eq_append_iff.1 hsplit with ⟨more, hmore, hafter⟩ | ⟨more, hmore, hafter⟩
  · cases more with
    | nil =>
      rw [List.append_nil] at hmore
      exact h name hname (hmore ▸ List.infix_refl _)
    | cons v more =>
      -- The brace that opens the slot behind would stand inside the name.
      have hv := hrest v (by rw [hafter]; rfl)
      have htail : name ++ [.closeBrace] = t ++ v :: more := (List.cons.inj hmore).2
      apply openBrace_not_mem hname
      rw [htail, hv]
      exact List.mem_append_right _ List.mem_cons_self
  · exact h name hname ⟨[], more, by rw [List.nil_append, hmore]⟩

end IsLiteral

section Fill

variable {value? : Text → Option Text}

theorem fill_nil (value? : Text → Option Text) : fill value? [] = [] := by
  rw [fill]

theorem fill_of_slot {name t rest : Text} (h : slot? t = some (name, rest)) :
    fill value? t = (value? name).getD (slot name) ++ fill value? rest := by
  cases t with
  | nil => cases h
  | cons u t =>
    rw [fill]
    split
    · rename_i heq
      cases h.symm.trans heq
      rfl
    · rename_i heq
      cases h.symm.trans heq

theorem fill_cons {u : CodeUnit} {t : Text} (h : slot? (u :: t) = none) :
    fill value? (u :: t) = u :: fill value? t := by
  rw [fill]
  split
  · rename_i heq
    cases h.symm.trans heq
  · rfl

theorem fill_literal {t rest : Text} (h : IsLiteral t)
    (hrest : ∀ v, rest.head? = some v → v = .openBrace) :
    fill value? (t ++ rest) = t ++ fill value? rest := by
  induction t with
  | nil => rfl
  | cons u t ih =>
    have hnone : slot? (u :: (t ++ rest)) = none := h.slot?_eq_none hrest
    rw [List.cons_append, fill_cons hnone, ih h.of_cons]
    rfl

theorem fill_template {l : Layout} (h : l.Sound) :
    fill value? l.template = l.render fun name => (value? name).getD (slot name) := by
  obtain ⟨first, slots⟩ := l
  induction slots generalizing first with
  | nil =>
    have hfill : fill value? (first ++ []) = first ++ fill value? [] :=
      fill_literal h.first (by simp)
    rw [fill_nil, List.append_nil] at hfill
    simpa [Layout.template, Layout.render] using hfill
  | cons s slots ih =>
    obtain ⟨name, literal⟩ := s
    have hname := h.names _ List.mem_cons_self
    have hnext : Layout.Sound ⟨literal, slots⟩ :=
      ⟨h.literals _ List.mem_cons_self, fun s hs => h.names s (List.mem_cons_of_mem _ hs),
        fun s hs => h.literals s (List.mem_cons_of_mem _ hs)⟩
    rw [Layout.template_cons, Layout.render_cons, fill_literal h.first (by rintro v ⟨⟩; rfl),
      fill_of_slot (slot?_slot hname _), ih literal hnext]

end Fill

/-- The text for a slot if only the values given count. -/
def given (arguments : Arguments) (name : Text) : Text :=
  ((List.lookup name arguments).map Value.render).getD (slot name)

theorem getD_find? {arguments : Arguments} {name : Text}
    (h : List.lookup name arguments = none → Arguments.builtIn? name = none) :
    (arguments.find? name).getD (slot name) = given arguments name := by
  rw [Arguments.find?, given]
  cases hlookup : List.lookup name arguments with
  | none => rw [h hlookup]; rfl
  | some value => rfl

theorem apply_template {l : Layout} (h : l.Sound) (arguments : Arguments)
    (hown : ∀ s ∈ l.slots, List.lookup s.1 arguments = none → Arguments.builtIn? s.1 = none) :
    Template.apply l.template (some arguments) = l.render (given arguments) := by
  rw [Template.apply, fill_template h, Layout.render, Layout.render, List.flatMap_def,
    List.flatMap_def]
  congr 2
  apply List.map_congr_left
  intro s hs
  rw [getD_find? (hown s hs)]

end Template

open Template

structure Code.Quotes (c : Code) (first name last : Text) : Prop where
  template : Text.ofString c.template = Layout.template ⟨first, [(name, last)]⟩
  name : IsName name
  first : .openBrace ∉ first
  last : .openBrace ∉ last

theorem Code.Quotes.sound {c : Code} {first name last : Text} (h : c.Quotes first name last) :
    Layout.Sound ⟨first, [(name, last)]⟩ where
  first := .of_not_mem_openBrace h.first
  names s hs := by
    rw [List.mem_singleton.1 hs]
    exact h.name
  literals s hs := by
    rw [List.mem_singleton.1 hs]
    exact .of_not_mem_openBrace h.last

theorem Code.Quotes.report_eq {c : Code} {first name last : Text} (h : c.Quotes first name last)
    (value : Text) :
    c.report [(name, .text value)] =
      Text.ofString "[" ++ Text.ofString c.name ++ Text.ofString "] " ++ first ++ value ++
        last := by
  have hlookup : List.lookup name [(name, Value.text value)] = some (.text value) := by simp
  have hmessage := apply_template h.sound [(name, .text value)] (by
    intro s hs hnone
    rw [List.mem_singleton.1 hs, hlookup] at hnone
    cases hnone)
  rw [Code.report, Code.message, h.template, hmessage]
  simp [Layout.render, given, hlookup, Value.render]

theorem Code.missingFile_quotes :
    missingFile.Quotes (Text.ofString "file not found: ") (Text.ofString "path") [] :=
  ⟨by decide +kernel, by decide +kernel, by decide +kernel, by decide +kernel⟩

theorem Code.unreadableFile_quotes :
    unreadableFile.Quotes (Text.ofString "cannot read file: ") (Text.ofString "reason") [] :=
  ⟨by decide +kernel, by decide +kernel, by decide +kernel, by decide +kernel⟩

theorem Code.invalidLine_quotes :
    invalidLine.Quotes (Text.ofString "invalid line number \"") (Text.ofString "value")
      (Text.ofString "\"") :=
  ⟨by decide +kernel, by decide +kernel, by decide +kernel, by decide +kernel⟩

theorem Code.failedScan_quotes :
    failedScan.Quotes (Text.ofString "tokenization failed: ") (Text.ofString "reason") [] :=
  ⟨by decide +kernel, by decide +kernel, by decide +kernel, by decide +kernel⟩

/-- Filling a template of literals and slots puts the value of every slot in its place and leaves a
slot without a value as it is written; what was put in is not read again. So a report quotes its
value whatever it holds: a path, a line, the message of an error, or a value that is no error. -/
theorem messages_filled_once :
    (∀ (l : Layout) (arguments : Arguments), l.Sound →
      (∀ s ∈ l.slots, List.lookup s.1 arguments = none → Arguments.builtIn? s.1 = none) →
      Template.apply l.template (some arguments) = l.render (given arguments)) ∧
    (∀ path message code, (Failure.error message code).readReport path =
      if code = some (.text (Text.ofString "ENOENT")) then
        Text.ofString "[BSCLI001] file not found: " ++ path
      else Text.ofString "[BSCLI002] cannot read file: " ++ message) ∧
    (∀ path value, (Failure.other value).readReport path =
      Text.ofString "[BSCLI002] cannot read file: " ++ value.render) ∧
    (∀ value, Line.complaint value =
      Text.ofString "[BSCLI003] invalid line number \"" ++ value ++ Text.ofString "\"") ∧
    (∀ message code, (Failure.error message code).scanReport =
      Text.ofString "[BSCLI004] tokenization failed: " ++ message) ∧
    (∀ value, (Failure.other value).scanReport =
      Text.ofString "[BSCLI004] tokenization failed: " ++ value.render) ∧
    ∀ t, (Value.text t).render = t := by
  refine ⟨fun l arguments h hown => apply_template h arguments hown, ?_, ?_, ?_, ?_, ?_,
    fun t => rfl⟩
  · intro path message code
    rw [Failure.readReport, Code.missingFile_quotes.report_eq, Code.unreadableFile_quotes.report_eq,
      List.append_nil, List.append_nil]
    simp only [Failure.isMissing, decide_eq_true_iff]
    rfl
  · intro path value
    rw [Failure.readReport, Code.unreadableFile_quotes.report_eq, List.append_nil]
    rfl
  · intro value
    rw [Line.complaint, Code.invalidLine_quotes.report_eq]
    rfl
  · intro message code
    rw [Failure.scanReport, Code.failedScan_quotes.report_eq, List.append_nil]
    rfl
  · intro value
    rw [Failure.scanReport, Code.failedScan_quotes.report_eq, List.append_nil]
    rfl

theorem messages_filled_once_braces :
    let l : Layout := ⟨Text.ofString "\x7ba\x7b",
      [(Text.ofString "b", Text.ofString "\x7d"), (Text.ofString "c", [])]⟩
    let arguments : Arguments := [(Text.ofString "b", .text (Text.ofString "\x7bc\x7d"))]
    l.Sound ∧ l.template = Text.ofString "\x7ba\x7b\x7bb\x7d\x7d\x7bc\x7d" ∧
      Template.apply l.template (some arguments) =
        Text.ofString "\x7ba\x7b\x7bc\x7d\x7d\x7bc\x7d" := by
  intro l arguments
  have hopen : ∀ s ∈ l.slots, .openBrace ∉ s.2 := by decide +kernel
  have hsound : l.Sound :=
    ⟨.of_not_mem_closeBrace (by decide +kernel), by decide +kernel,
      fun s hs => .of_not_mem_openBrace (hopen s hs)⟩
  refine ⟨hsound, by decide +kernel, ?_⟩
  rw [messages_filled_once.1 l arguments hsound (by decide +kernel)]
  decide +kernel

end Offside
