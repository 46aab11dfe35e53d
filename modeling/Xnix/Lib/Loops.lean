import Mathlib.Data.Fintype.BigOperators

/-!
# Programs and loops that may end early

A program that may have no outcome (`none`), may end early with a result of its own (`.error`), or
goes on with a value (`.ok`). `Ends` says that it has an outcome and what holds of it, so the rules
here are total.
-/

namespace Lib

variable {σ τ ρ α : Type*} {P : ℕ → σ → Prop}

/-- `Q` holds of an early result, `P` of a value to go on with. -/
def Result (Q : ρ → Prop) (P : σ → Prop) : Except ρ σ → Prop
  | .error r => Q r
  | .ok s => P s

/-- The program has an outcome. -/
def Ends (m : Option (Except ρ σ)) (Q : ρ → Prop) (P : σ → Prop) : Prop :=
    ∃ r, m = some r ∧ Result Q P r

def andThen (m : Option (Except ρ σ)) (f : σ → Option (Except ρ τ)) : Option (Except ρ τ) :=
  m.bind fun
    | .error r => some (.error r)
    | .ok s => f s

@[simp] theorem andThen_ok (s : σ) (f : σ → Option (Except ρ τ)) :
    andThen (some (.ok s)) f = f s := rfl

section Ends

variable {Q Q' : ρ → Prop} {P P' : σ → Prop} {R : τ → Prop} {m : Option (Except ρ σ)}
  {f : σ → Option (Except ρ τ)}

theorem Ends.ok {s : σ} (h : P s) : Ends (some (.ok s) : Option (Except ρ σ)) Q P := ⟨_, rfl, h⟩

theorem Ends.error {r : ρ} (h : Q r) : Ends (some (.error r) : Option (Except ρ σ)) Q P :=
    ⟨_, rfl, h⟩

theorem Ends.imp (h : Ends m Q P) (hq : ∀ r, Q r → Q' r) (hp : ∀ s, P s → P' s) : Ends m Q' P' := by
  obtain ⟨r, hm, hr⟩ := h
  refine ⟨r, hm, ?_⟩
  cases r with
  | error r => exact hq r hr
  | ok s => exact hp s hr

theorem Ends.ite {c : Prop} [Decidable c] {m' : Option (Except ρ σ)} (h : c → Ends m Q P)
    (h' : ¬ c → Ends m' Q P) : Ends (if c then m else m') Q P := by
  split
  · exact h ‹_›
  · exact h' ‹_›

theorem Ends.andThen (h : Ends m Q P) (hf : ∀ s, P s → Ends (f s) Q R) :
    Ends (Lib.andThen m f) Q R := by
  obtain ⟨r, rfl, hr⟩ := h
  cases r with
  | error r => exact ⟨.error r, rfl, hr⟩
  | ok s => exact hf s hr

end Ends

section List

/-- The body for each element of a list in turn. -/
def forEach (body : α → σ → Option (Except ρ σ)) : List α → σ → Option (Except ρ σ)
  | [], s => some (.ok s)
  | a :: l, s => andThen (body a s) (forEach body l)

variable {body : α → σ → Option (Except ρ σ)}

/-- The rule of the loop: `P l` holds when the elements of `l` are still to come. -/
theorem forEach_spec (P : List α → σ → Prop) (Q : ρ → Prop)
    (hbody : ∀ a l s, P (a :: l) s → Ends (body a s) Q (P l)) :
    ∀ (l : List α) {s : σ}, P l s → Ends (forEach body l s) Q (P [])
  | [], _, h => .ok h
  | a :: l, s, h => (hbody a l s h).andThen fun _ h => forEach_spec P Q hbody l h

theorem forEach_map {β : Type*} (f : β → α) : ∀ (l : List β) (s : σ),
    forEach body (l.map f) s = forEach (fun b => body (f b)) l s
  | [], _ => rfl
  | b :: l, s => by
    exact congrArg (andThen _) (funext (forEach_map f l))

variable {body : ℕ → σ → Option (Except ρ σ)}

theorem forEach_range' {Q : ρ → Prop} : ∀ {len start : ℕ} {s : σ},
    (∀ i s, start ≤ i → i < start + len → P i s → Ends (body i s) Q (P (i + 1))) → P start s →
      Ends (forEach body (List.range' start len) s) Q (P (start + len))
  | 0, _, _, _, h => .ok h
  | len + 1, start, s, hbody, h => by
    refine (hbody start s (Nat.le_refl _) (by omega) h).andThen fun s h => ?_
    have : Ends (forEach body (List.range' (start + 1) len) s) Q (P (start + 1 + len)) :=
      forEach_range' (fun i s hi hlt => hbody i s (by omega) (by omega)) h
    rwa [show start + 1 + len = start + (len + 1) by omega] at this

/-- The rule of a loop that counts: `P i` holds before the `i`th round. -/
theorem forEach_range {n : ℕ} (P : ℕ → σ → Prop) (Q : ρ → Prop)
    (hbody : ∀ i s, i < n → P i s → Ends (body i s) Q (P (i + 1))) {s : σ} (h : P 0 s) :
    Ends (forEach body (List.range n) s) Q (P n) := by
  have : Ends (forEach body (List.range' 0 n) s) Q (P (0 + n)) :=
    forEach_range' (fun i s _ hi => hbody i s (by omega)) h
  rwa [← List.range_eq_range', Nat.zero_add] at this

end List

section Chunks

variable {limit : ℕ → ℕ} {body : ℕ → ℕ → σ → Option (Except ρ σ)} {n : ℕ}

def piece (limit : ℕ → ℕ) (n c : ℕ) : ℕ := min (limit c) (n - c)

/-- The loop from `c` on; `fuel` bounds the number of pieces. -/
def chunksFrom (limit : ℕ → ℕ) (body : ℕ → ℕ → σ → Option (Except ρ σ)) (n : ℕ) :
    ℕ → ℕ → σ → Option (Except ρ σ)
  | 0, c, s => if c < n then none else some (.ok s)
  | fuel + 1, c, s =>
    if c < n then
      andThen (body c (piece limit n c) s) (chunksFrom limit body n fuel (c + piece limit n c))
    else some (.ok s)

/-- The loop: a piece has at least one byte, so there are at most `n` of them. -/
def chunks (limit : ℕ → ℕ) (body : ℕ → ℕ → σ → Option (Except ρ σ)) (n : ℕ) (s : σ) :
  Option (Except ρ σ) := chunksFrom limit body n n 0 s

theorem piece_pos {c : ℕ} (hlim : 0 < limit c) (hc : c < n) : 0 < piece limit n c := by
  unfold piece
  omega

theorem add_piece_le {c : ℕ} (hc : c ≤ n) : c + piece limit n c ≤ n := by
  unfold piece
  omega

theorem chunksFrom_spec {Q : ρ → Prop} (hlim : ∀ c < n, 0 < limit c)
    (hbody : ∀ c s, c < n → P c s → Ends (body c (piece limit n c) s) Q (P (c + piece limit n c))) :
    ∀ (fuel c : ℕ) (s : σ), n ≤ c + fuel → c ≤ n → P c s →
    Ends (chunksFrom limit body n fuel c s) Q (P n)
  | 0, c, s, hfuel, hc, h => by
    obtain rfl : c = n := by omega
    exact ⟨.ok s, if_neg (Nat.lt_irrefl c), h⟩
  | fuel + 1, c, s, hfuel, hc, h => by
    rw [chunksFrom]
    by_cases hlt : c < n
    · have := piece_pos (hlim c hlt) hlt
      rw [if_pos hlt]
      exact (hbody c s hlt h).andThen fun s h =>
        chunksFrom_spec hlim hbody fuel _ s (by omega) (add_piece_le hc) h
    · obtain rfl : c = n := by omega
      rw [if_neg hlt]
      exact .ok h

/-- The rule of the loop: `P c` holds when the first `c` bytes are done, `Q` of an early result. -/
theorem chunks_spec (P : ℕ → σ → Prop) (Q : ρ → Prop) (hlim : ∀ c < n, 0 < limit c)
    (hbody : ∀ c s, c < n → P c s → Ends (body c (piece limit n c) s) Q (P (c + piece limit n c)))
    {s : σ} (h : P 0 s) : Ends (chunks limit body n s) Q (P n) :=
  chunksFrom_spec hlim hbody n 0 s (by omega) (Nat.zero_le n) h

end Chunks

end Lib
