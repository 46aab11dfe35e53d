import Xnix.Mouse

/-!
# What is routed is what the mouse did

Each side adds movements up, so lists of events are compared by the buttons in order, each with the
way since the one before, and the way since the last. What is routed, followed by what is pending
and queued, goes the way that the device gave. The poll answers in a register that the window server
does not read.
-/

namespace Xnix

/-- The buttons, each with the way since the one before, and the way since the last. -/
abbrev Travel := List ((ℤ × ℤ) × ℕ × ℤ) × ℤ × ℤ

def Travel.next (t : Travel) : MouseEvent → Travel
  | .move dx dy => (t.1, t.2.1 + dx, t.2.2 + dy)
  | .button code value => (t.1 ++ [(t.2, code, value)], 0, 0)

def Travel.go (t : Travel) (evs : List MouseEvent) : Travel := evs.foldl Travel.next t

def travel (evs : List MouseEvent) : Travel := Travel.go ([], 0, 0) evs

/-- The movement that the thread has read and not routed. -/
def MousePc.pending : MousePc → ℤ × ℤ
  | .idle => (0, 0)
  | .polling dx dy | .reading dx dy => (dx, dy)

def InInt16 (d : ℤ × ℤ) : Prop := -32768 ≤ d.1 ∧ d.1 ≤ 32767 ∧ -32768 ≤ d.2 ∧ d.2 ≤ 32767

instance : DecidablePred InInt16 := fun _ => inferInstanceAs (Decidable (_ ∧ _))

namespace MousePipe

variable {s s' : MousePipe} {t : Travel} {q : List MouseEvent} {ev : MouseEvent} {dx dy : ℤ}

/-- The queue does not fill, and the sums that the driver and the server make stay within 16
bits. -/
def InRange (s : MousePipe) : Action → Prop
  | .put ev => s.queue.length + 1 < eventBufSize ∧ ∀ d ∈ mergeSums s.queue ev, InInt16 d
  | .server => InInt16 s.pc.pending

instance : DecidableRel InRange
  | s, .put ev =>
    inferInstanceAs
      (Decidable (s.queue.length + 1 < eventBufSize ∧ ∀ d ∈ mergeSums s.queue ev, InInt16 d))
  | s, .server => inferInstanceAs (Decidable (InInt16 s.pc.pending))

theorem go_append (t : Travel) (as bs : List MouseEvent) : t.go (as ++ bs) = (t.go as).go bs :=
    List.foldl_append

theorem travel_append (as bs : List MouseEvent) : travel (as ++ bs) = (travel as).go bs :=
    go_append ..

theorem prefix_go (t : Travel) (evs : List MouseEvent) : t.1 <+: (t.go evs).1 := by
  induction evs generalizing t with
  | nil => exact List.prefix_refl _
  | cons ev evs ih =>
    refine List.IsPrefix.trans ?_ (ih (t.next ev))
    cases ev with
    | move dx dy => exact List.prefix_refl _
    | button code value => exact List.prefix_append _ _

theorem next_move_move (t : Travel) (dx dy x y : ℤ) :
    (t.next (.move dx dy)).next (.move x y) = t.next (.move (dx + x) (dy + y)) := by
  simp [Travel.next, add_assoc]

theorem go_coalesced (t : Travel) (h : InInt16 (dx, dy)) :
    t.go (coalesced dx dy) = t.next (.move dx dy) := by
  have hmod {d : ℤ} (hd : -32768 ≤ d ∧ d ≤ 32767) : d.bmod (2 ^ 16) = d :=
    Int.bmod_eq_of_le (by omega) (by omega)
  unfold coalesced
  rw [hmod ⟨h.1, h.2.1⟩, hmod h.2.2]
  dsimp only
  split
  · rename_i h0
    simp [Travel.go, Travel.next, h0.1, h0.2]
  · rfl

theorem go_mouseQueuePut (t : Travel) (h : s.InRange (.put ev)) :
    t.go (mouseQueuePut s.queue ev) = (t.go s.queue).next ev := by
  have hclamp {d : ℤ} (hd : -32768 ≤ d ∧ d ≤ 32767) : clamp16 d = d := by
    unfold clamp16
    omega
  unfold mouseQueuePut
  rcases hm : mergeLast s.queue ev with _ | q
  · simp only [if_pos h.1]
    exact go_append ..
  · obtain ⟨d, hd, rfl⟩ := Option.map_eq_some_iff.mp hm
    have hin := h.2 d hd
    obtain ⟨p, hp, hd⟩ := Option.bind_eq_some_iff.mp hd
    obtain ⟨last, hlast, hp⟩ := Option.bind_eq_some_iff.mp hp
    obtain ⟨front, hfront⟩ := List.getLast?_eq_some_iff.mp hlast
    cases last <;> cases hp
    cases ev <;> cases hd
    simp only [hclamp ⟨hin.1, hin.2.1⟩, hclamp hin.2.2]
    rw [hfront, List.dropLast_concat, go_append, go_append]
    exact (next_move_move ..).symm

/-- What is routed, pending and queued goes the way that the device gave. -/
def Kept (s : MousePipe) : Prop :=
  ((travel s.routed).next (.move s.pc.pending.1 s.pc.pending.2)).go s.queue = travel s.given

theorem Kept.read (h : s.Kept) (hpc : s.pc.pending = (dx, dy)) (hin : InInt16 s.pc.pending) :
    (s.read dx dy).Kept := by
  unfold MousePipe.read
  rcases hq : s.queue with _ | ⟨ev, rest⟩
  · exact h
  · unfold Kept at h
    rw [hq, hpc] at h
    rw [hpc] at hin
    cases ev with
    | move x y => exact (congrArg (Travel.go · rest) (next_move_move ..).symm).trans h
    | button code value =>
      refine Eq.trans ?_ h
      unfold handle MousePc.pending
      rw [travel_append, travel_append, go_coalesced _ hin]
      simp [Travel.go, Travel.next]

theorem Kept.step {a : Action} (h : s.Kept) (hin : s.InRange a) (hs : s.step a = some s') :
    s'.Kept := by
  cases a with
  | put ev =>
    cases hs
    unfold Kept at *
    rw [go_mouseQueuePut _ hin, h]
    exact (travel_append s.given [ev]).symm
  | server =>
    have hin : InInt16 s.pc.pending := hin
    unfold MousePipe.step at hs
    rcases hpc : s.pc with _ | ⟨dx, dy⟩ | ⟨dx, dy⟩
    all_goals simp only [hpc] at hs
    all_goals cases hs
    · exact h.read (by rw [hpc]; rfl) hin
    · unfold Kept at *
      rw [hpc] at h hin
      split
      · exact h
      · refine Eq.trans ?_ h
        rw [travel_append, go_coalesced _ hin]
        simp [Travel.next, MousePc.pending]
    · exact h.read (by rw [hpc]; rfl) hin

theorem mouseHasEvents_eq_false (q : List MouseEvent) : mouseHasEvents q = false := by
  simp [mouseHasEvents, inputdevPoll]

/-- A poll is right for the empty queue only. In every run whose sums and queue stay in range, the
buttons are routed in order, each with the way that the device gave between it and the one before,
and nothing is lost in between. -/
theorem mouse_pipeline (h : Lib.Reach step (boot = ·) InRange s) :
    (∀ q, (mouseHasEvents q = true ↔ q ≠ []) ↔ q = []) ∧
      (travel s.routed).1 <+: (travel s.given).1 ∧
      (s.pc = .idle → s.queue = [] → travel s.routed = travel s.given) := by
  have hkept : s.Kept := h.invariant (fun s hinit => by cases hinit; rfl) fun s a s' hk hin hs =>
    hk.step hin hs
  refine ⟨fun q => ?_, ?_, fun hpc hq => ?_⟩
  · simp [mouseHasEvents_eq_false]
  · rw [← hkept]
    exact prefix_go (Travel.next _ (.move _ _)) _
  · rw [← hkept, hpc, hq]
    simp [MousePc.pending, Travel.go, Travel.next]

theorem mouse_pipeline_click : ∃ s, Lib.run step boot
      [.put (.move 3 4), .put (.move 2 0), .put (.button 0 1), .server, .server, .server, .server] =
      some s ∧
    s.routed = [.move 5 4, .button 0 1] ∧ (travel s.routed).1 <+: (travel s.given).1 :=
  Lib.Reach.witness _ (fun _ _ => of_decide_eq_true) rfl (by decide)
    (by decide) fun _ h => (mouse_pipeline h).2.1

/-- With an event in the queue the poll still finds nothing. -/
theorem event_not_seen : ∃ s, Lib.Reach step (boot = ·) (fun _ _ => True) s ∧
    s.queue = [.move 3 4] ∧ mouseHasEvents s.queue = false :=
  Lib.Reach.exists_run step
    [.put (.move 3 4)] rfl (by decide)

end MousePipe

end Xnix
