import Xnix.Ini

/-!
# Parsing inverts rendering

A document is a list of lines, with any blanks that the parser drops. Each line is collected into
the buffer as it is, and then parsed on its own.
-/

namespace Xnix

variable {σ : Type*} {s b b' line sect : CString}

/-- A line of a document: blank or a comment, the name of a section, or a key and its value, with
blanks around. -/
inductive IniLine
  | note (line : CString)
  | header (b name rest : CString)
  | entry (b₁ key b₂ b₃ value b₄ : CString)

namespace IniLine

def text : IniLine → CString
  | .note line => line
  | .header b name rest => b ++ 91 :: (name ++ 93 :: rest)
  | .entry b₁ key b₂ b₃ value b₄ => b₁ ++ key ++ b₂ ++ 61 :: (b₃ ++ value ++ b₄)

abbrev Blanks (b : CString) : Prop := ∀ c ∈ b, isBlank c

/-- No blanks around the text, and room for it. -/
structure Field (s : CString) (size : ℕ) : Prop where
  start : skipWhitespace s = s
  finish : trimTrailing s = s
  fits : s.length < size

def Ok : IniLine → Prop
  | .note line => ∀ c ∈ (skipWhitespace line).head?, c = 35 ∨ c = 59
  | .header b name _ => Blanks b ∧ 93 ∉ name ∧ name.length < iniMaxSection
  | .entry b₁ key b₂ b₃ value b₄ =>
    Blanks b₁ ∧ Blanks b₂ ∧ Blanks b₃ ∧ Blanks b₄ ∧ Field key iniMaxKey ∧
      Field value iniMaxValue ∧ 61 ∉ key ∧ ∀ c ∈ key.head?, c ≠ 35 ∧ c ≠ 59 ∧ c ≠ 91

/-- The line fits into the buffer and is one line. -/
abbrev Plain (line : CString) : Prop := line.length < iniMaxLine ∧ ∀ c ∈ line, c ≠ 10 ∧ c ≠ 0

/-- The section after a line and the call that is due. -/
def means (sect : CString) : IniLine → CString × Option IniCall
  | .header _ name _ => (name, none)
  | .entry _ key _ _ value _ => (sect, some (sect, key, value))
  | .note _ => (sect, none)

end IniLine

def render (doc : List IniLine) : List UInt8 := doc.flatMap fun l => l.text ++ [10]

/-- The calls that are due for a document. -/
def callsOf (sect : CString) : List IniLine → List IniCall
  | [] => []
  | l :: doc => (l.means sect).2.toList ++ callsOf (l.means sect).1 doc

open IniLine List

theorem skipWhitespace_blanks (hb : Blanks b) (s : CString) :
  skipWhitespace (b ++ s) = skipWhitespace s := dropWhile_append_of_pos hb

theorem skipWhitespace_cons {c : UInt8} (hc : isBlank c = false) (s : CString) :
  skipWhitespace (c :: s) = c :: s := dropWhile_cons_of_neg (by simp [hc])

theorem skipWhitespace_append (hs : skipWhitespace s = s) (hb : Blanks b) (t : CString) :
    skipWhitespace (s ++ b ++ t) = if s = [] then skipWhitespace t else s ++ b ++ t := by
  cases s with
  | nil => simpa using skipWhitespace_blanks hb t
  | cons c s =>
    refine skipWhitespace_cons ?_ _
    by_contra hc
    rw [Bool.not_eq_false] at hc
    have hlen := congrArg length hs
    rw [skipWhitespace, dropWhile_cons_of_pos hc, length_cons] at hlen
    have := length_dropWhile_le isBlank s
    omega

theorem trimTrailing_append (hs : trimTrailing s = s) (hb : Blanks b) :
    trimTrailing (s ++ b) = s := by
  unfold trimTrailing rdropWhile at *
  rw [reverse_append, dropWhile_append_of_pos, hs]
  intro c hc
  simp [hb c (mem_reverse.mp hc)]

theorem iniField_eq {size : ℕ} (hs : Field s size) (hb : Blanks b) (hb' : Blanks b') :
    iniField (b ++ s ++ b') size = s := by
  have hskip : skipWhitespace (b ++ s ++ b') = if s = [] then [] else s ++ b' := by
    have happend := skipWhitespace_append hs.start hb' []
    rw [append_assoc, skipWhitespace_blanks hb]
    simpa [skipWhitespace] using happend
  rw [iniField, hskip]
  split_ifs with hnil
  · simp [hnil, trimTrailing]
  · have hlen : s.length ≤ size - 1 := by
      have := hs.fits
      omega
    rw [take_append, take_of_length_le hlen]
    exact trimTrailing_append hs.finish fun c hc => hb' c (mem_of_mem_take hc)

/-- The parser does with a line what it means. -/
theorem parseLine_text {l : IniLine} (h : l.Ok) : parseLine l.text sect = l.means sect := by
  cases l with
  | note line =>
    rw [parseLine, text, means]
    cases hskip : skipWhitespace line with
    | nil => rfl
    | cons c p => exact if_pos (h c (by simp [hskip]))
  | header b name rest =>
    obtain ⟨hb, hname, hlen⟩ := h
    rw [parseLine, text, skipWhitespace_blanks hb, skipWhitespace_cons (by decide)]
    have htake : (name ++ 93 :: rest).takeWhile (· ≠ 93) = name := by
      rw [takeWhile_append_of_pos fun c hc => by simpa using ne_of_mem_of_not_mem hc hname]
      simp
    have hfits : name.length ≤ iniMaxSection - 1 := by omega
    simp only [htake, take_of_length_le hfits, means]
    simp
  | entry b₁ key b₂ b₃ value b₄ =>
    obtain ⟨h1, h2, h3, h4, hkey, hvalue, heq, hhead⟩ := h
    obtain ⟨rest, hrest⟩ : ∃ rest, rest = b₃ ++ value ++ b₄ := ⟨_, rfl⟩
    have hbefore : ∀ c ∈ b₁ ++ key ++ b₂, decide (c ≠ 61) = true := by
      intro c hc
      have hblank : ∀ b, Blanks b → c ∈ b → c ≠ 61 := by
        rintro b hb hc rfl
        exact absurd (hb _ hc) (by decide)
      simp only [mem_append] at hc
      rcases hc with (hc | hc) | hc
      · exact decide_eq_true (hblank b₁ h1 hc)
      · exact decide_eq_true (ne_of_mem_of_not_mem hc heq)
      · exact decide_eq_true (hblank b₂ h2 hc)
    have htake : (b₁ ++ key ++ b₂ ++ 61 :: rest).takeWhile (· ≠ 61) = b₁ ++ key ++ b₂ := by
      rw [takeWhile_append_of_pos hbefore]
      simp
    have hdrop : (b₁ ++ key ++ b₂ ++ 61 :: rest).dropWhile (· ≠ 61) = 61 :: rest := by
      rw [dropWhile_append_of_pos hbefore]
      simp
    obtain ⟨c, p, hskip, hc⟩ : ∃ c p, skipWhitespace (b₁ ++ key ++ b₂ ++ 61 :: rest) = c :: p ∧
        c ≠ 35 ∧ c ≠ 59 ∧ c ≠ 91 := by
      rw [append_assoc, append_assoc, skipWhitespace_blanks h1, ← append_assoc,
        skipWhitespace_append hkey.start h2, skipWhitespace_cons (by decide)]
      cases key with
      | nil => exact ⟨61, rest, rfl, by decide⟩
      | cons c key => exact ⟨c, _, rfl, hhead c rfl⟩
    rw [text, ← hrest, parseLine, hskip]
    simp only [htake, hdrop, drop_one, tail_cons, hc, or_self, if_false, iniField_eq hkey h1 h2]
    rw [hrest, iniField_eq hvalue h3 h4, if_pos (by simp), means]

section Buffer

variable (handler : IniHandler σ)

theorem foldlM_parseChar (ctx : σ) : ∀ {line : CString} (acc : CString), Plain (acc ++ line) →
    line.foldlM (parseChar handler) ⟨sect, acc, ctx⟩ = .ok ⟨sect, acc ++ line, ctx⟩
  | [], acc, _ => by simp; rfl
  | c :: line, acc, h => by
    obtain ⟨hlen, hmem⟩ := h
    have hc := hmem c (by simp)
    have hroom : acc.length < iniMaxLine - 1 := by
      simp only [length_append, length_cons] at hlen
      omega
    have hstep : parseChar handler ⟨sect, acc, ctx⟩ c = .ok ⟨sect, acc ++ [c], ctx⟩ := by
      rw [parseChar, if_neg (by simp [hc]), if_pos hroom]
    rw [foldlM_cons, hstep]
    rw [append_cons acc c line] at hlen hmem ⊢
    exact foldlM_parseChar ctx (acc ++ [c]) ⟨hlen, hmem⟩

theorem foldlM_line (sect : CString) {l : IniLine} (h : l.Ok) (hplain : Plain l.text) (ctx : σ) :
    (l.text ++ [10]).foldlM (parseChar handler) ⟨sect, [], ctx⟩ =
      ((l.means sect).2.toList.foldlM (callHandler handler) ctx).map fun ctx =>
      ⟨(l.means sect).1, [], ctx⟩ := by
  have hchars : l.text.foldlM (parseChar handler) ⟨sect, [], ctx⟩ = .ok ⟨sect, l.text, ctx⟩ :=
    foldlM_parseChar handler ctx [] hplain
  have hstep : parseChar handler ⟨sect, l.text, ctx⟩ 10 =
      ((l.means sect).2.toList.foldlM (callHandler handler) ctx).map fun ctx =>
      ⟨(l.means sect).1, [], ctx⟩ := by
    rw [parseChar, if_pos (.inl rfl), parseLine_text h]
    obtain ⟨sect', call⟩ := l.means sect
    cases call with
    | none => rfl
    | some call => simp
  rw [foldlM_append, hchars]
  exact (bind_pure _).trans hstep

/-- A rendered document is parsed into the calls that are due for it, up to the one after which the
handler stops. -/
theorem parsing_inverts_rendering (doc : List IniLine) (hok : ∀ l ∈ doc, l.Ok)
    (hplain : ∀ l ∈ doc, Plain l.text)
    (ctx : σ) : iniParseBuffer handler (render doc) ctx = (callsOf [] doc).foldlM
    (callHandler handler) ctx := by
  suffices h : ∀ (doc : List IniLine) (sect : CString) (ctx : σ), (∀ l ∈ doc, l.Ok) →
    (∀ l ∈ doc, Plain l.text) →
      ((render doc ++ [10]).foldlM (parseChar handler) ⟨sect, [], ctx⟩).map IniState.ctx =
        (callsOf sect doc).foldlM (callHandler handler) ctx from h doc [] ctx hok hplain
  intro doc
  induction doc with
  | nil => exact fun _ _ _ _ => rfl
  | cons l doc ih =>
    intro sect ctx hok hplain
    have hl := foldlM_line handler sect (hok l (by simp)) (hplain l (by simp)) ctx
    have hdoc := fun ctx => ih (l.means sect).1 ctx (fun l hl => hok l (by simp [hl])) fun l hl =>
      hplain l (by simp [hl])
    rw [render, flatMap_cons, append_assoc, foldlM_append, hl, callsOf, foldlM_append]
    cases (l.means sect).2.toList.foldlM (callHandler handler) ctx with
    | error ctx => rfl
    | ok ctx => exact hdoc ctx

end Buffer

/-- A section with a key and its value. -/
def shortDoc : List IniLine :=
  [.note [9, 35, 120], .header [32] [97] [], .note [9], .entry [32] [107] [32] [] [118, 61] [9]]

theorem parsing_inverts_rendering_short :
    iniParseBuffer (fun calls call => (call :: calls, true)) (render shortDoc) [] =
    .ok [([97], [107], [118, 61])] := by
  refine (parsing_inverts_rendering _ shortDoc ?_ ?_ []).trans rfl
  · intro l hl
    simp only [shortDoc, mem_cons, not_mem_nil, or_false] at hl
    rcases hl with rfl | rfl | rfl | rfl
    · show ∀ c ∈ (skipWhitespace [9, 35, 120]).head?, c = 35 ∨ c = 59
      decide +kernel
    · exact ⟨by decide +kernel, by decide, by decide⟩
    · show ∀ c ∈ (skipWhitespace [9]).head?, c = 35 ∨ c = 59
      decide +kernel
    · exact ⟨by decide +kernel, by decide +kernel, by decide +kernel, by decide +kernel,
        ⟨by decide, by decide, by decide⟩,
        ⟨by decide, by decide, by decide⟩, by decide, by decide +kernel⟩
  · decide +kernel

end Xnix
