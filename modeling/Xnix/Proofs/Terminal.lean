import Xnix.Terminal

/-!
# Readers are answered

A read that has to wait stays recorded until its reply, which brings it input, unless another read
or a flush takes its place.
-/

namespace Xnix

/-- The client that waits after an event; none if a client is forgotten or a reply is empty or not
for it. -/
def TermLog.next : Option ℕ → TermLog → Option (Option ℕ)
  | waiting, .given bytes => if bytes = [] then none else some waiting
  | waiting, .deferred tid => if waiting = none then some (some tid) else none
  | waiting, .reply tid bytes => if waiting = some tid ∧ bytes ≠ [] then some none else none

/-- The client that waits at the end, if each was answered with input before the next one waited. -/
def TermLog.waiting (log : List TermLog) : Option (Option ℕ) := log.foldlM TermLog.next none

namespace Terminal

variable {t t' : Terminal}

/-- A read comes to an empty queue, or a flush, only when no read waits. -/
def OneReads (t : Terminal) : TermAction → Prop
  | .read _ _ => inputAvailable t.input = 0 → t.pending = none
  | .flushInput => t.pending = none
  | _ => True

instance : DecidableRel OneReads
  | t, .read _ _ => inferInstanceAs (Decidable (inputAvailable t.input = 0 → t.pending = none))
  | t, .flushInput => inferInstanceAs (Decidable (t.pending = none))
  | _, .key _ | _, .setRaw _ => inferInstanceAs (Decidable True)

/-- The log agrees with the read that waits, which asks for some bytes. -/
structure Recorded (t : Terminal) : Prop where
  waiting : TermLog.waiting t.log = some (t.pending.map Prod.fst)
  asks : ∀ p ∈ t.pending, p.2 ≠ 0

/-- A read waits only while there is nothing to read. -/
structure Settled (t : Terminal) : Prop extends Recorded t where
  starved : t.pending ≠ none → inputAvailable t.input = 0

theorem waiting_concat {log : List TermLog} {w : Option ℕ} (h : TermLog.waiting log = some w)
    (e : TermLog) : TermLog.waiting (log ++ [e]) = TermLog.next w e := by
  unfold TermLog.waiting at *
  rw [List.foldlM_append, h]
  simp

theorem take_ne_nil {maxLen : ℕ} (havail : inputAvailable t.input ≠ 0) (hmax : maxLen ≠ 0) :
    (t.take maxLen).1 ≠ [] := by
  have hne : t.input.head ≠ t.input.tail := fun heq => havail (by simp [inputAvailable, heq])
  obtain ⟨k, hk⟩ :=
    Nat.exists_eq_succ_of_ne_zero (show min (inputAvailable t.input) maxLen ≠ 0 by omega)
  rw [take, hk, inputGets, if_neg hne]
  exact List.cons_ne_nil _ _

theorem Recorded.tryFulfill (h : Recorded t) : Settled t.tryFulfillPendingRead := by
  unfold tryFulfillPendingRead
  rcases hp : t.pending with _ | ⟨tid, maxLen⟩
  · exact ⟨h, fun hne => absurd hp hne⟩
  · dsimp only
    split
    · exact ⟨h, fun _ => ‹_›⟩
    · rename_i havail
      refine ⟨⟨?_, nofun⟩, fun hne => absurd rfl hne⟩
      rw [waiting_concat h.waiting, hp]
      exact if_pos ⟨rfl, take_ne_nil havail (h.asks _ hp)⟩

theorem Settled.key (h : Settled t) (c : BitVec 8) : Settled (t.termProcessInput c) := by
  unfold termProcessInput
  split
  · exact Recorded.tryFulfill ⟨h.waiting, h.asks⟩
  · split
    · exact h
    · split
      · split <;> exact ⟨⟨h.waiting, h.asks⟩, h.starved⟩
      · split
        · exact Recorded.tryFulfill ⟨h.waiting, h.asks⟩
        · split <;> exact ⟨⟨h.waiting, h.asks⟩, h.starved⟩

theorem Settled.ioRead (h : Settled t) (tid maxLen : ℕ)
    (hone : inputAvailable t.input = 0 → t.pending = none) : Settled (t.ioRead tid maxLen) := by
  have hmax : (if maxLen = 0 then 1 else maxLen) ≠ 0 := by split <;> omega
  unfold Terminal.ioRead
  dsimp only
  split
  · rename_i havail
    refine ⟨⟨?_, h.asks⟩, fun hne => absurd (h.starved hne) havail.ne'⟩
    rw [waiting_concat h.waiting, TermLog.next, if_neg (take_ne_nil havail.ne' hmax)]
  · rename_i havail
    refine ⟨⟨?_, fun p hp => ?_⟩, fun _ => by simpa using havail⟩
    · rw [waiting_concat h.waiting, hone (by omega)]
      rfl
    · cases hp
      exact hmax

theorem Settled.step {a : TermAction} (h : Settled t) (hone : OneReads t a)
    (hs : t.step a = some t') : Settled t' := by
  cases a <;> cases hs
  case key c => exact h.key c
  case read tid maxLen => exact h.ioRead tid maxLen hone
  case setRaw raw => exact ⟨⟨h.waiting, h.asks⟩, h.starved⟩
  case flushInput => exact ⟨⟨h.waiting.trans (by rw [hone]; rfl), nofun⟩, fun hne => absurd rfl hne⟩

/-- In every run whose steps are all `OneReads`, a read that had to wait is recorded until its one
reply, which brings it input, and it waits only while there is none. -/
theorem readers_answered (h : Lib.Reach step Init OneReads t) :
    TermLog.waiting t.log = some (t.pending.map Prod.fst) ∧
    (t.pending ≠ none → inputAvailable t.input = 0) := by
  have hs : Settled t :=
    h.invariant (fun t hinit => ?_) fun t a t' hset hone hs => hset.step hone hs
  · exact ⟨hs.waiting, hs.starved⟩
  · refine ⟨⟨?_, fun p hp => ?_⟩, fun hne => absurd hinit.pending hne⟩
    · rw [hinit.log, hinit.pending]
      rfl
    · rw [hinit.pending] at hp
      cases hp

def idle : Terminal := ⟨true, ⟨fun _ => 0, 0, 0⟩, fun _ => 0, 0, none, []⟩

theorem readers_answered_key : ∃ t, Lib.run step idle [.read 7 4, .key 97, .read 8 4] = some t ∧
    t.log = [.deferred 7, .reply 7 [97], .deferred 8] ∧
    TermLog.waiting t.log = some (t.pending.map Prod.fst) :=
  Lib.Reach.witness _ (fun _ _ => of_decide_eq_true) ⟨rfl, rfl⟩ (by decide)
    (by decide) fun _ h => (readers_answered h).1

/-- A second reader takes the place of the first, which the key then does not reach. -/
theorem reader_replaced : ∃ t, Lib.Reach step Init (fun _ _ => True) t ∧
    t.log = [.deferred 7, .deferred 8, .reply 8 [97]] ∧ t.pending = none ∧
    TermLog.waiting t.log = none :=
  Lib.Reach.exists_run step (P := fun t => t.log = [.deferred 7, .deferred 8, .reply 8 [97]] ∧
    t.pending = none ∧
    TermLog.waiting t.log = none) [.read 7 4, .read 8 4, .key 97] (s := idle) ⟨rfl, rfl⟩ (by decide)

end Terminal

end Xnix
