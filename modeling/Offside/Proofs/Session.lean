import Offside.Proofs.Snapshot

/-! Sessions: any calls on a scanner, in any order. A session that is broken off and resumed from a
snapshot cannot be told from one that is not. -/

namespace Offside

inductive Call where
  | scan (accepted : List Kind) (cursor : Cursor)
  | reset
  | restore (bytes : Bytes)
  | snapshot

inductive Reply where
  | scanned (kind : Option Kind) (cursor : Cursor) (events : List Event)
  | reset
  | restored (notices : List Notice)
  | saved (result : Except NoBuffer (Bytes × List Notice))

namespace Scanner

def answer (s : Scanner) : Call → Reply × Scanner
  | .scan accepted cursor =>
    let o := s.scan accepted cursor
    (.scanned o.kind o.cursor o.events, o.scanner)
  | .reset => (.reset, s.reset)
  | .restore bytes =>
    let (s, notices) := s.restore bytes
    (.restored notices, s)
  | .snapshot => (.saved s.snapshot, s)

def session (s : Scanner) : List Call → List (Reply × Scanner)
  | [] => []
  | call :: rest => s.answer call :: (s.answer call).2.session rest

/-- A new scanner restored from the snapshot; there is none if the snapshot cannot be taken. -/
def reopened (settings : Settings) (s : Scanner) : Except NoBuffer Scanner := do
  let (bytes, _) ← s.snapshot
  return ((create settings).restore bytes).1

/-- A session that is broken off in front of some of its calls. -/
def resumed (settings : Settings) (s : Scanner) :
    List (Bool × Call) → Except NoBuffer (List (Reply × Scanner))
  | [] => .ok []
  | (false, call) :: rest => do
    let replies ← (s.answer call).2.resumed settings rest
    return s.answer call :: replies
  | (true, call) :: rest => do
    let s ← s.reopened settings
    let replies ← (s.answer call).2.resumed settings rest
    return s.answer call :: replies

end Scanner

/-- A size in bytes that an array can have and that has room for the widths of all blocks, or none
given. -/
def HasRoom (capacity : Nat) (bufferSize : Option Number) : Prop :=
  ∀ n ∈ bufferSize, ∃ size ∈ n.floor?,
    (Budget.headerSize + 2 * capacity : Nat) ≤ size ∧ size ≤ Number.maxExact

theorem Budget.ofNumber_of_floor? {n : Number} {size : Int} (h : n.floor? = some size) :
    ofNumber n =
      if size.toNat ≤ Number.maxExact then .bytes (max headerSize size.toNat)
      else .unavailable n := by
  simp only [ofNumber, h]

theorem Settings.budget_of_hasRoom {maxDepth bufferSize : Option Number}
    (h : HasRoom (ofNumbers maxDepth bufferSize).capacity bufferSize) :
    ∃ size, (ofNumbers maxDepth bufferSize).budget = .bytes size ∧
      Budget.headerSize + 2 * (ofNumbers maxDepth bufferSize).capacity ≤ size := by
  cases bufferSize with
  | none =>
    refine ⟨Budget.defaultSize, rfl, ?_⟩
    have hcapacity := (capacity_bounds maxDepth none).2
    rw [Blocks.maxCapacity] at hcapacity
    rw [Budget.headerSize, Budget.defaultSize]
    omega
  | some n =>
    obtain ⟨size, hsize, hroom, hexact⟩ := h n rfl
    have hbudget : (ofNumbers maxDepth (some n)).budget = Budget.ofNumber n := rfl
    rw [hbudget, Budget.ofNumber_of_floor? hsize, if_pos (by omega)]
    refine ⟨_, rfl, Nat.le_trans ?_ (Nat.le_max_right ..)⟩
    omega

namespace Scanner

open Snapshot

variable {settings : Settings} {s : Scanner}

theorem Sound.answer (h : s.Sound settings maxWidth) (call : Call) :
    (s.answer call).2.Sound settings maxWidth := by
  cases call with
  | scan accepted cursor => exact h.scan (by decide) accepted cursor
  | reset => exact h.reset
  | restore bytes => exact h.restore (Nat.le_refl _) bytes
  | snapshot => exact h

theorem reopened_of_sound {size : Nat} (h : s.Sound settings maxWidth)
    (hcapacity : settings.capacity ≤ Blocks.maxCapacity) (hbudget : settings.budget = .bytes size)
    (hroom : Budget.headerSize + 2 * settings.capacity ≤ size) : s.reopened settings = .ok s := by
  have hsnapshot : s.snapshot = .ok (s.snapshotWithin size) := by
    rw [snapshot, h.budget, hbudget]
  have hrestore : (create settings).restore (s.snapshotWithin size).1 = (s, []) :=
    restore_of_untruncated h hcapacity (untruncated_of_room h hroom) rfl rfl
  rw [reopened, hsnapshot]
  exact congrArg (fun restored => Except.ok restored.1) hrestore

theorem resumed_of_sound (hreopened : ∀ s, Sound settings maxWidth s → s.reopened settings = .ok s)
    (h : s.Sound settings maxWidth) (steps : List (Bool × Call)) :
    s.resumed settings steps = .ok (s.session (steps.map Prod.snd)) := by
  induction steps generalizing s with
  | nil => rfl
  | cons step rest ih =>
    -- Soundness carries the induction: bytes of any origin may have been restored on the way.
    obtain ⟨broken, call⟩ := step
    have hrest := ih (h.answer call)
    cases broken with
    | false =>
      simp only [resumed, bind, Except.bind, hrest]
      rfl
    | true =>
      simp only [resumed, hreopened s h, bind, Except.bind, hrest]
      rfl

/-- Every snapshot that a session is broken off with can be taken, and resuming the session from it
changes no later reply and no later state. -/
theorem resumed_eq_session (maxDepth bufferSize : Option Number) (steps : List (Bool × Call))
    (h : HasRoom (Settings.ofNumbers maxDepth bufferSize).capacity bufferSize) :
    (create (.ofNumbers maxDepth bufferSize)).resumed (.ofNumbers maxDepth bufferSize) steps =
      .ok ((create (.ofNumbers maxDepth bufferSize)).session (steps.map Prod.snd)) := by
  obtain ⟨hlow, hhigh⟩ := Settings.capacity_bounds maxDepth bufferSize
  obtain ⟨size, hsize, hroom⟩ := Settings.budget_of_hasRoom h
  exact resumed_of_sound (fun s hs => reopened_of_sound hs hhigh hsize hroom) (sound_create _ hlow)
    steps

theorem resumed_eq_session_deferred :
    (create (.ofNumbers (some (.ofNat 3)) (some (.ofNat 10)))).resumed
        (.ofNumbers (some (.ofNat 3)) (some (.ofNat 10)))
        [(false, .scan [.indent] (.ofText [.lineFeed, .space, .bar])),
          (true, .scan [.newline] (.ofText [.lineFeed, .bar])),
          (true, .scan [.dedent] (.ofText [.bar])), (true, .snapshot)] =
      .ok ((create (.ofNumbers (some (.ofNat 3)) (some (.ofNat 10)))).session
        [.scan [.indent] (.ofText [.lineFeed, .space, .bar]),
          .scan [.newline] (.ofText [.lineFeed, .bar]),
          .scan [.dedent] (.ofText [.bar]), .snapshot]) := by
  apply resumed_eq_session (some (.ofNat 3)) (some (.ofNat 10))
    [(false, .scan [.indent] (.ofText [.lineFeed, .space, .bar])),
      (true, .scan [.newline] (.ofText [.lineFeed, .bar])),
      (true, .scan [.dedent] (.ofText [.bar])), (true, .snapshot)]
  rintro n ⟨⟩
  exact ⟨10, by decide, by decide, by decide⟩

/-- At a size that no array has there is room for all blocks, but no snapshot to resume from. -/
theorem resumed_without_buffer :
    let n := Number.ofNat 9007199254740992
    let settings := Settings.ofNumbers none (some n)
    let call : Call := .scan [.newline] (.ofText [.lineFeed, .bar])
    n.floor? = some 9007199254740992 ∧
      Budget.headerSize + 2 * settings.capacity ≤ 9007199254740992 ∧
      (create settings).resumed settings [(true, call)] = .error ⟨n⟩ ∧
      (create settings).resumed settings [(true, call)] ≠
        .ok ((create settings).session [call]) := by
  intro n settings call
  have hbudget : settings.budget = .unavailable n := by decide +kernel
  have hresumed : (create settings).resumed settings [(true, call)] = .error ⟨n⟩ := by
    have hsnapshot : (create settings).snapshot = .error ⟨n⟩ := by
      rw [snapshot, create, hbudget]
    rw [resumed, reopened, hsnapshot]
    rfl
  refine ⟨by decide +kernel, by decide, hresumed, ?_⟩
  rw [hresumed]
  nofun

end Scanner

end Offside
