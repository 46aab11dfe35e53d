import Mathlib.Algebra.Ring.Nat
import Mathlib.Data.Fintype.BigOperators

/-!
# Runs of a partial step function

A machine is a step function `σ → α → Option σ`: an action that cannot be taken has no next
state. `Reach` is the set of states its runs pass through when every step meets a side condition
on the state it starts from, and `run` replays a given list of actions.
-/

namespace Lib

open Option

variable {σ α : Type*} {P : σ → Prop}

/-! The numerals of the small types that runs are replayed over. -/

instance neZero_one : NeZero 1 := ⟨one_ne_zero⟩

instance neZero_two : NeZero 2 := ⟨two_ne_zero⟩

instance neZero_three : NeZero 3 := ⟨three_ne_zero⟩

/-- The states reached from a start state by steps that all meet `ok`. -/
inductive Reach (step : σ → α → Option σ) (start : σ → Prop) (ok : σ → α → Prop) : σ → Prop
  | init {s : σ} : start s → Reach step start ok s
  | next {s s' : σ} {a : α} : Reach step start ok s → ok s a → step s a = some s' →
      Reach step start ok s'

def run (step : σ → α → Option σ) : σ → List α → Option σ
  | s, [] => some s
  | s, a :: as => (step s a).bind fun s' => run step s' as

/-- A check passes at every step of a replay. -/
def runAll (step : σ → α → Option σ) (p : σ → α → Bool) : σ → List α → Bool
  | _, [] => true
  | s, a :: as => p s a && (step s a).all (runAll step p · as)

theorem run_append (step : σ → α → Option σ) :
    ∀ (as bs : List α) (s : σ), run step s (as ++ bs) = (run step s as).bind fun t => run step t bs
  | [], bs, s => rfl
  | a :: as, bs, s => by
    simp only [List.cons_append, run, bind_assoc]
    congr 1
    funext t
    exact run_append step as bs t

/-- A step that is taken only when `c` holds. -/
theorem of_guard {c : Prop} [Decidable c] {s t s' : σ} (h : P s) (ht : c → P t)
    (hs : (if c then some t else some s) = some s') : P s' := by
  split_ifs at hs with hc <;> obtain rfl := some.inj hs
  · exact ht hc
  · exact h

section Reach
variable {step : σ → α → Option σ} {start : σ → Prop} {ok : σ → α → Prop}

/-- What holds at the start and is kept by every allowed step holds in every state reached. -/
theorem Reach.invariant (h0 : ∀ s, start s → P s)
    (hs : ∀ s a s', P s → ok s a → step s a = some s' → P s') {s : σ}
    (h : Reach step start ok s) : P s := by
  induction h with
  | init h => exact h0 _ h
  | next _ hok hstep ih => exact hs _ _ _ ih hok hstep

/-- The state a replay ends in is reached, when the side condition holds of its actions. -/
theorem Reach.of_run : ∀ (as : List α) {s s' : σ}, Reach step start ok s → (∀ t, ∀ a ∈ as, ok t a) →
      run step s as = some s' → Reach step start ok s'
  | [], s, s', h, _, hr => by
    simp only [run, some.injEq] at hr
    exact hr ▸ h
  | a :: as, s, s', h, hall, hr => by
    simp only [run, bind_eq_some_iff] at hr
    obtain ⟨t, ht, hr⟩ := hr
    exact Reach.of_run as (h.next (hall s a (by simp)) ht)
      (fun t b hb => hall t b (List.mem_cons_of_mem a hb)) hr

/-- The state a replay ends in is reached, when a check that implies the side condition passes. -/
theorem Reach.of_runAll {p : σ → α → Bool} (hp : ∀ s a, p s a → ok s a) :
    ∀ (as : List α) {s s' : σ}, Reach step start ok s → runAll step p s as →
      run step s as = some s' → Reach step start ok s'
  | [], s, s', h, _, hr => by
    simp only [run, some.injEq] at hr
    exact hr ▸ h
  | a :: as, s, s', h, hall, hr => by
    simp only [run, bind_eq_some_iff] at hr
    obtain ⟨t, ht, hr⟩ := hr
    simp only [runAll, ht, all_some, Bool.and_eq_true] at hall
    exact Reach.of_runAll hp as (h.next (hp s a hall.1) ht) hall.2 hr

section Replay
variable {s : σ} (as : List α) [DecidablePred P]

variable (step) in
/-- What a replay is seen to end with holds of a state reached. -/
theorem Reach.exists_run (h : start s) (hP : (run step s as).any (P ·)) :
    ∃ s', Reach step start (fun _ _ => True) s' ∧ P s' := by
  obtain ⟨s', hs', hP⟩ := (any_eq_true ..).mp hP
  exact ⟨s', .of_run as (.init h) (fun _ _ _ => trivial) hs', of_decide_eq_true hP⟩

variable {p : σ → α → Bool} (hp : ∀ s a, p s a → ok s a)
include hp

variable (step) in
theorem Reach.exists_runAll (h : start s) (hall : runAll step p s as)
    (hP : (run step s as).any (P ·)) :
    ∃ s', run step s as = some s' ∧ P s' ∧ Reach step start ok s' := by
  obtain ⟨s', hs', hP⟩ := (any_eq_true ..).mp hP
  exact ⟨s', hs', of_decide_eq_true hP, .of_runAll hp as (.init h) hall hs'⟩

/-- What a replay is seen to end with, and what holds of every state reached. -/
theorem Reach.witness {Q : σ → Prop} (h : start s) (hall : runAll step p s as)
    (hP : (run step s as).any (P ·)) (hQ : ∀ s', Reach step start ok s' → Q s') :
    ∃ s', run step s as = some s' ∧ P s' ∧ Q s' := by
  obtain ⟨s', hs', hP, hreach⟩ := Reach.exists_runAll step as hp h hall hP
  exact ⟨s', hs', hP, hQ s' hreach⟩

end Replay

end Reach

/-- A finite path of a labelled relation, with its labels. -/
inductive Path (R : σ → α → σ → Prop) : σ → List α → σ → Prop
  | nil {s : σ} : Path R s [] s
  | cons {s t u : σ} {a : α} {l : List α} : R s a t → Path R t l u → Path R s (a :: l) u

section Path
variable {R : σ → α → σ → Prop} {s t u : σ}

theorem Path.single {a : α} (h : R s a t) : Path R s [a] t := .cons h .nil

theorem Path.append {l l' : List α} (h : Path R s l t) (h' : Path R t l' u) :
    Path R s (l ++ l') u := by
  induction h with
  | nil => exact h'
  | cons hR _ ih => exact .cons hR (ih h')

theorem Path.invariant {allowed : α → Prop}
    (hstep : ∀ s a t, allowed a → P s → R s a t → P t) {l : List α} (h : Path R s l t)
    (hl : ∀ a ∈ l, allowed a) (hs : P s) : P t := by
  induction h with
  | nil => exact hs
  | cons hR _ ih =>
    exact ih (fun a ha => hl a (List.mem_cons_of_mem _ ha))
      (hstep _ _ _ (hl _ (List.mem_cons_self ..)) hs hR)

end Path

end Lib
