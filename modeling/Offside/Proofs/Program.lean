import Offside.Command.Folder
import Offside.Proofs.Command
import Offside.Proofs.CommandLine

/-! How the program ends. Main statement: under a kernel that runs the command, the program writes
what the command writes and ends with zero, so that a failure shows on the error stream and nowhere
else. -/

namespace Offside

namespace Request

variable (r : Request) (read : Text → Except Failure Bytes)

theorem exit_ne_zero_iff :
    (r.run read).exit ≠ 0 ↔
      (∃ value ∈ r.line, ¬Line.IsNumber value) ∨ ∃ failure, read r.path = .error failure := by
  by_cases hline : ∃ value ∈ r.line, ¬Line.IsNumber value
  · obtain ⟨value, hvalue, hnumber⟩ := hline
    have hexit : (r.run read).exit = 1 := by
      simp only [run, target_of_not_isNumber hvalue hnumber, Report.failed]
    rw [hexit]
    exact ⟨fun _ => .inl ⟨value, hvalue, hnumber⟩, fun _ => Nat.one_ne_zero⟩
  · have htarget := target_of_isNumber fun value hvalue =>
      Classical.byContradiction fun hnumber => hline ⟨value, hvalue, hnumber⟩
    simp only [run, htarget]
    cases hread : read r.path with
    | error failure => exact ⟨fun _ => .inr ⟨failure, rfl⟩, fun _ => Nat.one_ne_zero⟩
    | ok bytes =>
      constructor
      · exact fun h => absurd rfl h
      · rintro (h | ⟨failure, h⟩)
        · exact absurd h hline
        · cases h

theorem exit_ne_zero_iff_isError :
    (r.run read).exit ≠ 0 ↔ ∃ entry ∈ (r.run read).entries, entry.isError = true := by
  have hfailed (text : Text) :
      (Report.failed text).exit ≠ 0 ↔
        ∃ entry ∈ (Report.failed text).entries, entry.isError = true :=
    ⟨fun _ => ⟨.error text, List.mem_singleton_self _, rfl⟩, fun _ => Nat.one_ne_zero⟩
  rw [run]
  split
  · exact hfailed _
  · split
    · exact hfailed _
    · constructor
      · exact fun h => absurd rfl h
      · rintro ⟨entry, hentry, herror⟩
        rw [isError_of_mem_list hentry] at herror
        cases herror

end Request

namespace Program

/-- Called with the words of the command, the program writes what the command writes and ends with
zero. The command ends with another code where the line is no number or the file cannot be read, and
that can be told from its entries alone: one of them is an error. -/
theorem run_exit_zero {kernel : Kernel} (hkernel : kernel.RunsCommand) {i : Invocation}
    (h : i.Plain) (read : Text → Except Failure Bytes) :
    let r := i.request
    run kernel read i.words = ⟨0, (r.run read).entries⟩ ∧
      ((r.run read).exit ≠ 0 ↔
        (∃ value ∈ r.line, ¬Line.IsNumber value) ∨ ∃ failure, read i.path = .error failure) ∧
      ((r.run read).exit ≠ 0 ↔ ∃ entry ∈ (r.run read).entries, entry.isError = true) := by
  intro r
  refine ⟨?_, r.exit_ne_zero_iff read, r.exit_ne_zero_iff_isError read⟩
  simp only [run, hkernel.returned _ i h, hkernel.process _ i h, hkernel.entries _ i h,
    Option.getD_none]
  rfl

theorem run_exit_zero_line :
    let i : Invocation :=
      { path := Text.ofString "in.agent", after := [.longLine (Text.ofString "0")] }
    let read : Text → Except Failure Bytes := fun _ => .ok []
    CommandLine.kernel.RunsCommand ∧ i.Plain ∧ (i.request.run read).exit = 1 ∧
      run CommandLine.kernel read i.words = ⟨0, (i.request.run read).entries⟩ ∧
      ∃ entry ∈ (i.request.run read).entries, entry.isError = true := by
  intro i read
  have hkernel := CommandLine.kernel_runsCommand
  have hplain : i.Plain := ⟨by decide, by decide, by decide, by decide⟩
  obtain ⟨hrun, -, hexit⟩ := run_exit_zero hkernel hplain read
  have hfailed : (i.request.run read).exit = 1 := rfl
  have hne : (i.request.run read).exit ≠ 0 := by
    rw [hfailed]
    exact Nat.one_ne_zero
  exact ⟨hkernel, hplain, hfailed, hrun, hexit.1 hne⟩

/-- In an empty folder the command fails, and the program ends as if it had not. -/
theorem run_of_missing_file :
    let i : Invocation := { path := Text.ofString "missing.agent" }
    let read := (Folder.mk []).read
    CommandLine.kernel.RunsCommand ∧ i.Plain ∧ (i.request.run read).exit = 1 ∧
      (run CommandLine.kernel read i.words).exit = 0 :=
  ⟨CommandLine.kernel_runsCommand, ⟨by decide, by decide, by decide, by decide⟩, by decide,
    by decide⟩

end Program

end Offside
