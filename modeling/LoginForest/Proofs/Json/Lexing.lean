/-
  The tokens of a written value. A word ends only at the next character, so what is read of a
  text is told of the reader once it has `settled`; texts that are lexed by themselves can then be
  put together around a mark (`Lexes.mark`). Strings come back through their escapes
  (`lexes_literalChars`, `decode?_pieces`).
-/
import LoginForest.Json.Encode
import LoginForest.Proofs.Json.Numeral

namespace LoginForest.Json

/-! ## Settled readers -/

/-- The tokens so far if the text ended here, last first. -/
def Lexing.settled (s : Lexing) : Option (List Token) :=
  match s.mode with
  | .between => some s.tokens
  | .word cs => (Token.ofWord? cs.reverse).map (· :: s.tokens)
  | _ => none

theorem Lexing.finish_eq (s : Lexing) : s.finish = s.settled.map List.reverse := by
  obtain ⟨tokens, mode⟩ := s
  cases mode with
  | word cs => cases h : Token.ofWord? cs.reverse <;> simp [finish, settled, h]
  | _ => rfl

/-- A character that is part of no word starts over from what is settled. -/
theorem Lexing.step_of_settled {s : Lexing} {ts : List Token} {c : Char}
    (h : s.settled = some ts) (hc : isWordChar c = false) : s.step c = Lexing.start ts c := by
  obtain ⟨tokens, mode⟩ := s
  cases mode with
  | between =>
    cases h
    rfl
  | word cs =>
    obtain ⟨t, ht, rfl⟩ := Option.map_eq_some_iff.mp h
    simp [step, hc, ht]
  | _ => cases h

/-- The text `cs` is read as the tokens `ts`, whatever stands before it. -/
def Lexes (cs : List Char) (ts : List Token) : Prop :=
  ∀ before, ∃ s, cs.foldlM Lexing.step ⟨before, .between⟩ = some s ∧
    s.settled = some (ts.reverse ++ before)

theorem lexes_nil : Lexes [] [] := fun before => ⟨⟨before, .between⟩, rfl, rfl⟩

/-- The character `c` stands between tokens and is read as `us` itself. -/
structure IsMark (c : Char) (us : List Token) : Prop where
  notWord : isWordChar c = false
  start : ∀ before, Lexing.start before c = some ⟨us.reverse ++ before, .between⟩

/-- Two texts with a mark between them. -/
theorem Lexes.mark {cs cs' : List Char} {ts ts' us : List Token} {c : Char} (h : Lexes cs ts)
    (hc : IsMark c us) (h' : Lexes cs' ts') : Lexes (cs ++ c :: cs') (ts ++ us ++ ts') := by
  intro before
  obtain ⟨s, hs, hsettled⟩ := h before
  obtain ⟨s', hs', hsettled'⟩ := h' (us.reverse ++ (ts.reverse ++ before))
  refine ⟨s', ?_, ?_⟩
  · rw [List.foldlM_append, hs]
    show (s.step c).bind _ = _
    rw [Lexing.step_of_settled hsettled hc.notWord, hc.start]
    exact hs'
  · rw [hsettled']
    simp

theorem isMark_listOpen : IsMark '[' [.listOpen] := ⟨by decide, fun _ => rfl⟩

theorem isMark_listClose : IsMark ']' [.listClose] := ⟨by decide, fun _ => rfl⟩

theorem isMark_recordOpen : IsMark '\x7b' [.recordOpen] := ⟨by decide, fun _ => rfl⟩

theorem isMark_recordClose : IsMark '\x7d' [.recordClose] := ⟨by decide, fun _ => rfl⟩

theorem isMark_comma : IsMark ',' [.comma] := ⟨by decide, fun _ => rfl⟩

theorem isMark_colon : IsMark ':' [.colon] := ⟨by decide, fun _ => rfl⟩

theorem isMark_blank : IsMark ' ' [] := ⟨by decide, fun _ => rfl⟩

theorem isMark_newline : IsMark '\n' [] := ⟨by decide, fun _ => rfl⟩

/-- A text that is lexed as a whole. -/
theorem tokens?_of_lexes {cs : List Char} {ts : List Token} (h : Lexes cs ts) :
    tokens? cs = some ts := by
  obtain ⟨s, hs, hsettled⟩ := h []
  unfold tokens?
  rw [hs]
  show s.finish = some ts
  rw [Lexing.finish_eq, hsettled]
  simp

/-! ## Words -/

theorem start_of_isWordChar {c : Char} (h : isWordChar c = true) (before : List Token) :
    Lexing.start before c = some ⟨before, .word [c]⟩ := by
  have hne : ∀ d, isWordChar d = false → (c == d) = false := by
    intro d hd
    rw [beq_eq_false_iff_ne]
    rintro rfl
    rw [h] at hd
    cases hd
  have hspace : isSpace c = false := by
    simp [isSpace, hne ' ' (by decide), hne '\n' (by decide), hne '\r' (by decide),
      hne '\t' (by decide)]
  simp [Lexing.start, hne '[' (by decide), hne ']' (by decide), hne '\x7b' (by decide),
    hne '\x7d' (by decide), hne ',' (by decide), hne ':' (by decide), hne '"' (by decide), hspace,
    h]

theorem foldlM_word {cs : List Char} (h : ∀ c ∈ cs, isWordChar c) (before : List Token)
    (done : List Char) : cs.foldlM Lexing.step ⟨before, .word done⟩ =
      some ⟨before, .word (cs.reverse ++ done)⟩ := by
  induction cs generalizing done with
  | nil => rfl
  | cons c cs ih =>
    have hc := h c List.mem_cons_self
    have hstep : Lexing.step ⟨before, .word done⟩ c = some ⟨before, .word (c :: done)⟩ := by
      simp [Lexing.step, hc]
    rw [List.foldlM_cons, hstep]
    show List.foldlM _ _ cs = _
    rw [ih fun d hd => h d (List.mem_cons_of_mem c hd)]
    simp

/-- A word is lexed as its token. -/
theorem lexes_word {cs : List Char} {t : Token} (h : cs.all isWordChar) (hne : cs ≠ [])
    (ht : Token.ofWord? cs = some t) : Lexes cs [t] := by
  intro before
  rw [List.all_eq_true] at h
  obtain ⟨c, cs, rfl⟩ := List.exists_cons_of_ne_nil hne
  refine ⟨⟨before, .word (cs.reverse ++ [c])⟩, ?_, ?_⟩
  · rw [List.foldlM_cons]
    show (Lexing.start before c).bind _ = _
    rw [start_of_isWordChar (h c List.mem_cons_self)]
    exact foldlM_word (fun d hd => h d (List.mem_cons_of_mem c hd)) before [c]
  · simp [Lexing.settled, ht]

theorem isWordChar_of_isDigit {c : Char} (h : c.isDigit) : isWordChar c := by
  simp [isWordChar, Char.isAlphanum, h]

theorem SpellsExponent.wordChars {e : Option Int} {tail : List Char} (h : SpellsExponent e tail) :
    ∀ c ∈ tail, isWordChar c := by
  cases h with
  | absent => exact fun c hc => absurd hc List.not_mem_nil
  | present hmark hsign hds _ =>
    intro c hc
    rcases List.mem_cons.mp hc with rfl | hc
    · rcases List.mem_pair.mp hmark with rfl | rfl <;> decide
    · rcases List.mem_append.mp hc with hc | hc
      · have hcase : c = '+' ∨ c = '-' := by
          simp only [List.mem_cons, List.not_mem_nil, or_false] at hsign
          rcases hsign with rfl | rfl | rfl
          · cases hc
          · exact .inl (List.mem_singleton.mp hc)
          · exact .inr (List.mem_singleton.mp hc)
        rcases hcase with rfl | rfl <;> decide
      · exact isWordChar_of_isDigit (hds c hc)

theorem SpellsNumeral.wordChars {n : Numeral} {cs : List Char} (h : SpellsNumeral n cs) :
    ∀ c ∈ cs, isWordChar c := by
  obtain ⟨hwell, tail, htail, rfl⟩ := h
  have hunsigned : ∀ c ∈ n.whole ++ (Numeral.placesChars n.places ++ tail), isWordChar c := by
    intro c hc
    rcases List.mem_append.mp hc with hc | hc
    · exact isWordChar_of_isDigit (hwell.digits c hc)
    · rcases List.mem_append.mp hc with hc | hc
      · cases hplaces : n.places with
        | none =>
          rw [hplaces] at hc
          cases hc
        | some ds =>
          rw [hplaces] at hc
          rcases List.mem_cons.mp hc with rfl | hc
          · decide
          · exact isWordChar_of_isDigit ((hwell.places ds hplaces).1 c hc)
      · exact htail.wordChars c hc
  intro c hc
  unfold LoginForest.Number.signed at hc
  split at hc
  · rcases List.mem_cons.mp hc with rfl | hc
    · decide
    · exact hunsigned c hc
  · exact hunsigned c hc

theorem isWordChar_chars {n : Numeral} (h : n.WellFormed) : ∀ c ∈ n.chars, isWordChar c :=
  (spellsNumeral_chars h).wordChars

/-- A literal is lexed as itself, however its exponent is written. -/
theorem SpellsNumeral.lexes {n : Numeral} {cs : List Char} (h : SpellsNumeral n cs) :
    Lexes cs [.number n] := by
  have hread := numeral?_of_spells h
  have hother : ∀ cs', numeral? cs' = none → cs ≠ cs' := by
    rintro cs' hcs' rfl
    rw [hread] at hcs'
    cases hcs'
  refine lexes_word (List.all_eq_true.mpr h.wordChars) (hother [] (by decide)) ?_
  rw [Token.ofWord?, if_neg (hother _ (by decide)), if_neg (hother _ (by decide)),
    if_neg (hother _ (by decide)), hread]
  rfl

/-- The characters of a literal are lexed as the literal. -/
theorem lexes_numeral {n : Numeral} (h : n.WellFormed) : Lexes n.chars [.number n] :=
  (spellsNumeral_chars h).lexes

/-! ## Strings -/

/-- The piece that a character of a text is written as. -/
def piece (c : Char) : Piece :=
  match c with
  | '\x08' | '\x0c' | '\n' | '\r' | '\t' => .char c
  | c => if c.toNat < 0x20 then .unit c.toNat else .char c

def pieces (s : String) : Literal := s.toList.map piece

theorem map_hexDigit?_control : ∀ n < 32, (LoginForest.Number.padZeros 4 (Nat.toDigits 16 n)).map
    LoginForest.Number.hexDigit? = [some 0, some 0, some (n / 16), some (n % 16)] := by
  decide

/-- Four hexadecimal digits after the escape are a code unit. -/
theorem foldlM_code {ds : List Char} {a b c d : Nat}
    (h : ds.map LoginForest.Number.hexDigit? = [some a, some b, some c, some d])
    (before : List Token) (ps : Literal) :
    ('\\' :: 'u' :: ds).foldlM Lexing.step ⟨before, .text ps⟩ =
      some ⟨before, .text (.unit (((a * 16 + b) * 16 + c) * 16 + d) :: ps)⟩ := by
  obtain ⟨x, ds, rfl, hx, h⟩ := List.map_eq_cons_iff.mp h
  obtain ⟨y, ds, rfl, hy, h⟩ := List.map_eq_cons_iff.mp h
  obtain ⟨z, ds, rfl, hz, h⟩ := List.map_eq_cons_iff.mp h
  obtain ⟨w, ds, rfl, hw, h⟩ := List.map_eq_cons_iff.mp h
  obtain rfl := List.map_eq_nil_iff.mp h
  simp [List.foldlM, Lexing.step, hx, hy, hz, hw]

theorem foldlM_escapeChar (c : Char) (before : List Token) (ps : Literal) :
    (escapeChar c).foldlM Lexing.step ⟨before, .text ps⟩ =
      some ⟨before, .text (piece c :: ps)⟩ := by
  unfold escapeChar
  split
  case h_8 hquote hslash hb hf hn hr ht =>
    have hpiece : piece c = if c.toNat < 0x20 then .unit c.toNat else .char c := by
      unfold piece
      split <;> first | contradiction | rfl
    by_cases hc : c.toNat < 0x20
    · rw [hpiece, if_pos hc, if_pos hc, foldlM_code (map_hexDigit?_control _ hc)]
      have : ((0 * 16 + 0) * 16 + c.toNat / 16) * 16 + c.toNat % 16 = c.toNat := by omega
      rw [this]
    · have hq : (c == '"') = false := by simpa using hquote
      have hs : (c == '\\') = false := by simpa using hslash
      rw [hpiece, if_neg hc, if_neg hc]
      simp [List.foldlM, Lexing.step, hq, hs, hc]
  all_goals rfl

theorem foldlM_escaped (cs : List Char) (before : List Token) (ps : Literal) :
    (cs.flatMap escapeChar).foldlM Lexing.step ⟨before, .text ps⟩ =
      some ⟨before, .text ((cs.map piece).reverse ++ ps)⟩ := by
  induction cs generalizing ps with
  | nil => rfl
  | cons c cs ih =>
    rw [List.flatMap_cons, List.foldlM_append, foldlM_escapeChar]
    show List.foldlM _ _ (cs.flatMap escapeChar) = _
    rw [ih]
    simp

/-- A string literal is lexed as the pieces of its text. -/
theorem lexes_literalChars (s : String) : Lexes (literalChars s) [.text (pieces s)] := by
  intro before
  refine ⟨⟨.text (pieces s) :: before, .between⟩, ?_, rfl⟩
  unfold literalChars
  rw [List.cons_append, List.foldlM_cons]
  show List.foldlM _ (⟨before, .text []⟩ : Lexing) _ = _
  rw [List.foldlM_append, foldlM_escaped]
  simp [List.foldlM, Lexing.step, pieces]

theorem step_piece (c : Char) (done : List Char) :
    Decoding.step ⟨done, none⟩ (piece c) = some ⟨c :: done, none⟩ := by
  unfold piece
  split
  case h_6 =>
    by_cases hc : c.toNat < 0x20
    · have hhigh : isHighSurrogate c.toNat = false := by
        simp [isHighSurrogate]
        omega
      have hlow : isLowSurrogate c.toNat = false := by
        simp [isLowSurrogate]
        omega
      rw [if_pos hc]
      simp [Decoding.step, hhigh, hlow]
    · rw [if_neg hc]
      rfl
  all_goals rfl

/-- The pieces of a text are decoded to the text. -/
theorem decode?_pieces (s : String) : (pieces s).decode? = some s := by
  have hfold : ∀ (cs done : List Char), (cs.map piece).foldlM Decoding.step ⟨done, none⟩ =
      some ⟨cs.reverse ++ done, none⟩ := by
    intro cs
    induction cs with
    | nil => intro done; rfl
    | cons c cs ih =>
      intro done
      rw [List.map_cons, List.foldlM_cons, step_piece]
      show List.foldlM _ _ (cs.map piece) = _
      rw [ih]
      simp
  unfold Literal.decode? pieces
  rw [hfold]
  simp

end LoginForest.Json
