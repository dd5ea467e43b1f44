import Offside.CommandLine

/-! Reading the command line. Main statement: the kernel of the command line meets what the program
assumes of one, wherever the flags of a call stand and however the line is written. -/

namespace Offside.CommandLine

def Parsed.add (p : Parsed) (flags : List Flag) : Parsed :=
  { p with
    instructions := p.instructions || flags.contains .instructions
    trace := p.trace || flags.contains .trace
    snapshot := p.snapshot || flags.contains .snapshot
    line := (flags.filterMap Flag.line?).getLast?.or p.line }

def reserved : List Text :=
  ["--instructions", "--trace", "--snapshot", "--line", "-l", "--"].map Text.ofString

theorem lineValue?_append (value : Text) :
    lineValue? (Text.ofString "--line=" ++ value) = some value := by
  have hprefix : (Text.ofString "--line=").isPrefixOf (Text.ofString "--line=" ++ value) = true :=
    List.isPrefixOf_iff_prefix.2 (List.prefix_append ..)
  simp only [lineValue?, hprefix, if_true, List.drop_left]

theorem parse_of_not_reserved {arg : Text} (h : arg ∉ reserved)
    (hflag : lineValue? arg = none → isFlag arg = false) (p : Parsed) (rest : List Text) :
    parse p (arg :: rest) =
      match lineValue? arg with
      | some value => parse { p with line := some value } rest
      | none => parse { p with inputs := p.inputs ++ [arg] } rest := by
  simp only [reserved, List.map_cons, List.map_nil, List.mem_cons, List.not_mem_nil, or_false,
    not_or] at h
  rw [parse.eq_def]
  cases hvalue : lineValue? arg with
  | none => simp only [h, hvalue, hflag hvalue, or_self, Bool.false_eq_true, if_false]
  | some value => simp only [h, hvalue, or_self, if_false]

theorem parse_joined (p : Parsed) (value : Text) (rest : List Text) :
    parse p ((Text.ofString "--line=" ++ value) :: rest) =
      parse { p with line := some value } rest := by
  have hnone : ∀ t ∈ reserved, ¬Text.ofString "--line=" <+: t := by decide
  have hreserved : Text.ofString "--line=" ++ value ∉ reserved := fun hmem =>
    hnone _ hmem (List.prefix_append ..)
  have hvalue := lineValue?_append value
  rw [parse_of_not_reserved hreserved (by rw [hvalue]; nofun), hvalue]

theorem parse_path {path : Text} (h : isFlag path = false) (p : Parsed) (rest : List Text) :
    parse p (path :: rest) = parse { p with inputs := p.inputs ++ [path] } rest := by
  have hflags : ∀ t ∈ reserved, isFlag t = true := by decide
  have hreserved : path ∉ reserved := by
    intro hmem
    rw [hflags path hmem] at h
    cases h
  -- What starts like a line with its value would be a flag.
  have hvalue : lineValue? path = none := by
    apply if_neg
    intro hprefix
    obtain ⟨value, rfl⟩ := List.isPrefixOf_iff_prefix.1 hprefix
    cases h
  rw [parse_of_not_reserved hreserved fun _ => h, hvalue]

theorem parse_words (p : Parsed) (flag : Flag) (rest : List Text) :
    parse p (flag.words ++ rest) = parse (p.add [flag]) rest := by
  cases flag with
  | instructions =>
    rw [Flag.words, List.singleton_append, parse.eq_def]
    simp [Parsed.add, Flag.line?]
  | trace =>
    rw [Flag.words, List.singleton_append, parse.eq_def]
    dsimp only
    rw [if_neg (by decide), if_pos rfl]
    simp [Parsed.add, Flag.line?]
  | snapshot =>
    rw [Flag.words, List.singleton_append, parse.eq_def]
    dsimp only
    rw [if_neg (by decide), if_neg (by decide), if_pos rfl]
    simp [Parsed.add, Flag.line?]
  | joinedLine value =>
    rw [Flag.words, List.singleton_append, parse_joined]
    simp [Parsed.add, Flag.line?]
  | longLine value =>
    rw [Flag.words, List.cons_append, List.singleton_append, parse.eq_def]
    dsimp only
    rw [if_neg (by decide), if_neg (by decide), if_neg (by decide), if_pos (.inl rfl)]
    simp [Parsed.add, Flag.line?]
  | shortLine value =>
    rw [Flag.words, List.cons_append, List.singleton_append, parse.eq_def]
    dsimp only
    rw [if_neg (by decide), if_neg (by decide), if_neg (by decide), if_pos (.inr rfl)]
    simp [Parsed.add, Flag.line?]

theorem Parsed.add_add (p : Parsed) (flags more : List Flag) :
    (p.add flags).add more = p.add (flags ++ more) := by
  simp only [Parsed.add, Bool.or_assoc, List.contains_append, List.filterMap_append,
    List.getLast?_append, Option.or_assoc]

theorem parse_flags (p : Parsed) (flags : List Flag) (rest : List Text) :
    parse p (flags.flatMap Flag.words ++ rest) = parse (p.add flags) rest := by
  induction flags generalizing p with
  | nil => simp [Parsed.add]
  | cons flag flags ih =>
    rw [List.flatMap_cons, List.append_assoc, parse_words, ih, Parsed.add_add]
    rfl

theorem parse_arguments {path : Text} (h : isFlag path = false) (before after : List Flag) :
    parse {} (before.flatMap Flag.words ++ path :: after.flatMap Flag.words) =
      Parsed.add { inputs := [path] } (before ++ after) := by
  have hafter := parse_flags { Parsed.add {} before with inputs := [path] } after []
  rw [List.append_nil] at hafter
  rw [parse_flags, parse_path h]
  exact hafter.trans (Parsed.add_add { inputs := [path] } before after)

theorem isFlag_of_isPlain {t : Text} (h : t.isPlain = true) : isFlag t = false := by
  cases t with
  | nil => cases h
  | cons u t =>
    have hu : u ≠ 0x2D := by simpa [Text.isPlain] using h
    simp [isFlag, hu]

theorem handle_words {i : Invocation} (h : i.Plain) (registration : Registration) :
    kernel.handle registration i.words =
      { entries := (registration.command i.request).entries
        kept := some (registration.command i.request).exit } := by
  have hparse := parse_arguments (isFlag_of_isPlain h.path) i.before i.after
  simp only [kernel, Invocation.words, if_true, hparse, Parsed.add, Bool.false_or, Option.or_none]
  rfl

theorem kernel_runsCommand : kernel.RunsCommand where
  entries registration i h := by rw [handle_words h]
  kept registration i h := by rw [handle_words h]
  returned registration i h := by rw [handle_words h]
  process registration i h := by rw [handle_words h]

end Offside.CommandLine
