/-
  What is lexed spells its tokens. A literal that is read has been written as one
  (`spellsNumeral_of_numeral?`), and so has a string that is decoded (`spellsText_of_decode?`).
  The state of the decoder and the one of the lexer tell what they have read (`Decoded`, `Lexed`),
  which one more piece or character continues (`decoded_step`, `lexed_step`): so the tokens of a
  text are written in it one after the other (`spellsTokens_of_tokens?`).
-/
import LoginForest.Proofs.Json.Spelling

namespace LoginForest.Json

open LoginForest.Number (AllDigits valueFrom digits? exponent? hexDigit?)

/-- Where each step tells what it has read, a run tells all that it has read. -/
theorem foldlM_reads {σ τ : Type} {step : σ → τ → Option σ} {told : σ → List τ → Prop}
    (hstep : ∀ {s s' : σ} {ts : List τ} {t : τ}, told s ts → step s t = some s' →
      told s' (ts ++ [t]))
    {s s' : σ} {before ts : List τ} (h : told s before) (hrun : ts.foldlM step s = some s') :
    told s' (before ++ ts) := by
  induction ts generalizing s before with
  | nil =>
    obtain rfl := Option.some.inj hrun
    rwa [List.append_nil]
  | cons t ts ih =>
    rw [List.foldlM_cons, Option.bind_eq_bind, Option.bind_eq_some_iff] at hrun
    obtain ⟨next, hnext, hrun⟩ := hrun
    have hwhole := ih (hstep h hnext) hrun
    rwa [List.append_assoc] at hwhole

/-! ## Literals -/

theorem allDigits_takeWhile (cs : List Char) : AllDigits (cs.takeWhile Char.isDigit) :=
  fun _ hc => List.mem_takeWhile_imp hc

theorem eq_valueFrom_of_digits? {ds : List Char} {n : Nat} (h : digits? ds = some n) :
    AllDigits ds ∧ ds ≠ [] ∧ n = valueFrom 0 ds := by
  unfold digits? at h
  split at h
  case isTrue => cases h
  case isFalse hds =>
    simp only [Bool.or_eq_true, List.isEmpty_iff, List.any_eq_true, Bool.not_eq_true', not_or,
      not_exists, not_and, Bool.not_eq_false] at hds
    exact ⟨hds.2, hds.1, (Option.some.inj h).symm⟩

theorem exists_sign (cs : List Char) : ∃ sign ∈ [[], ['+'], ['-']], ∃ ds, cs = sign ++ ds ∧
    LoginForest.Number.sign cs = (decide (sign = ['-']), ds) := by
  unfold LoginForest.Number.sign
  split
  · exact ⟨['-'], by decide, _, rfl, rfl⟩
  · exact ⟨['+'], by decide, _, rfl, rfl⟩
  · exact ⟨[], by decide, _, rfl, rfl⟩

/-- What is read as an exponent spells it. -/
theorem spellsExponent_of_exponent? {tail : List Char} {e : Int} (hne : tail ≠ [])
    (h : exponent? tail = some e) : SpellsExponent (some e) tail := by
  obtain ⟨mark, cs, rfl⟩ := List.exists_cons_of_ne_nil hne
  obtain ⟨sign, hsign, ds, rfl, hread⟩ := exists_sign cs
  simp only [exponent?, hread] at h
  split at h
  case isFalse => cases h
  case isTrue hmark =>
    cases hn : digits? ds with
    | none =>
      rw [hn] at h
      cases h
    | some n =>
      obtain ⟨hds, hds', rfl⟩ := eq_valueFrom_of_digits? hn
      rw [hn] at h
      obtain rfl := Option.some.inj h
      have hmem : mark ∈ ['e', 'E'] := by simpa using hmark
      simpa using SpellsExponent.present hmem hsign hds hds'

theorem spells_of_unsignedNumeral? {negative : Bool} {cs : List Char} {n : Numeral}
    (h : unsignedNumeral? negative cs = some n) : n.negative = negative ∧ n.WellFormed ∧
      ∃ tail, SpellsExponent n.exponent tail ∧
        cs = n.whole ++ (Numeral.placesChars n.places ++ tail) := by
  have hwhole := allDigits_takeWhile cs
  have hsplit := (List.takeWhile_append_dropWhile (p := Char.isDigit) (l := cs)).symm
  unfold unsignedNumeral? at h
  dsimp only at h
  generalize cs.takeWhile Char.isDigit = whole at *
  generalize cs.dropWhile Char.isDigit = rest at *
  split at h
  case isTrue => cases h
  case isFalse hfirst =>
    have hfirst : isWhole whole := by simpa using hfirst
    split at h
    case h_1 rest =>
      -- a point with digits behind it
      have hdigits := allDigits_takeWhile rest
      have hrest := (List.takeWhile_append_dropWhile (p := Char.isDigit) (l := rest)).symm
      generalize rest.takeWhile Char.isDigit = places at *
      generalize rest.dropWhile Char.isDigit = tail at *
      dsimp only at h
      split at h
      case isTrue => cases h
      case isFalse hne =>
        have hplaces : ∀ ds, some places = some ds → AllDigits ds ∧ ds ≠ [] := by
          rintro ds ⟨⟩
          exact ⟨hdigits, by simpa using hne⟩
        split at h
        case h_1 =>
          obtain rfl := Option.some.inj h
          exact ⟨rfl, ⟨hfirst, hwhole, hplaces⟩, [], .absent, by rw [hsplit, hrest]; rfl⟩
        case h_2 hne' =>
          obtain ⟨e, he, rfl⟩ := Option.map_eq_some_iff.mp h
          exact ⟨rfl, ⟨hfirst, hwhole, hplaces⟩, tail, spellsExponent_of_exponent? hne' he,
            by rw [hsplit, hrest]; rfl⟩
    case h_2 =>
      have hplaces : ∀ ds, (none : Option (List Char)) = some ds → AllDigits ds ∧ ds ≠ [] :=
        fun ds hds => by cases hds
      dsimp only at h
      split at h
      case isTrue hne => cases hne
      case isFalse =>
        split at h
        case h_1 =>
          obtain rfl := Option.some.inj h
          exact ⟨rfl, ⟨hfirst, hwhole, hplaces⟩, [], .absent, by rw [hsplit]; rfl⟩
        case h_2 hne' =>
          obtain ⟨e, he, rfl⟩ := Option.map_eq_some_iff.mp h
          exact ⟨rfl, ⟨hfirst, hwhole, hplaces⟩, rest, spellsExponent_of_exponent? hne' he, hsplit⟩

/-- What is read as a literal spells it. -/
theorem spellsNumeral_of_numeral? {cs : List Char} {n : Numeral} (h : numeral? cs = some n) :
    SpellsNumeral n cs := by
  unfold numeral? at h
  split at h
  · obtain ⟨hneg, hwell, tail, htail, rfl⟩ := spells_of_unsignedNumeral? h
    exact ⟨hwell, tail, htail, by rw [hneg]; rfl⟩
  · obtain ⟨hneg, hwell, tail, htail, rfl⟩ := spells_of_unsignedNumeral? h
    exact ⟨hwell, tail, htail, by rw [hneg]; rfl⟩

/-! ## Strings -/

/-- The ways to write a piece of a string. -/
inductive SpellsPiece : Piece → List Char → Prop
  | plain {c} : c ≠ '"' → c ≠ '\\' → 0x20 ≤ c.toNat → SpellsPiece (.char c) [c]
  | short {letter c} : (letter, c) ∈ shortEscapes → SpellsPiece (.char c) ['\\', letter]
  | code {code ds} : SpellsCode code ds → SpellsPiece (.unit code) ('\\' :: 'u' :: ds)

theorem toNat_ofNat_of_valid {n : Nat} (h : n.isValidChar) : (Char.ofNat n).toNat = n := by
  rw [Char.ofNat, dif_pos h]
  rfl

theorem hexDigit?_lt {c : Char} {d : Nat} (h : hexDigit? c = some d) : d < 16 := by
  unfold hexDigit? at h
  split at h
  case isTrue hc =>
    obtain rfl := Option.some.inj h
    have hle : c.toNat ≤ 57 := by
      simp only [Char.isDigit, Bool.and_eq_true, decide_eq_true_eq] at hc
      exact hc.2
    have hzero : '0'.toNat = 48 := rfl
    omega
  case isFalse =>
    split at h
    case isTrue hc =>
      obtain rfl := Option.some.inj h
      have hle : c.toNat ≤ 102 := hc.2
      have ha : 'a'.toNat = 97 := rfl
      omega
    case isFalse =>
      split at h
      case isTrue hc =>
        obtain rfl := Option.some.inj h
        have hle : c.toNat ≤ 70 := hc.2
        have ha : 'A'.toNat = 65 := rfl
        omega
      case isFalse => cases h

theorem SpellsCode.lt {code : Nat} {ds : List Char} (h : SpellsCode code ds) : code < 0x10000 := by
  obtain ⟨a, b, c, d, hds, rfl⟩ := h
  have hlt : ∀ x, some x ∈ ds.map hexDigit? → x < 16 := by
    intro x hx
    obtain ⟨y, -, hy⟩ := List.mem_map.mp hx
    exact hexDigit?_lt hy
  rw [hds] at hlt
  have ha := hlt a (by simp)
  have hb := hlt b (by simp)
  have hc := hlt c (by simp)
  have hd := hlt d (by simp)
  omega

theorem isHighSurrogate_iff {u : Nat} : isHighSurrogate u ↔ 0xd800 ≤ u ∧ u < 0xdc00 := by
  simp [isHighSurrogate]

theorem isLowSurrogate_iff {u : Nat} : isLowSurrogate u ↔ 0xdc00 ≤ u ∧ u < 0xe000 := by
  simp [isLowSurrogate]

/-- What the characters decoded so far have been spelled as, with the escape of a surrogate that
waits behind them. -/
inductive Decoded : Decoding → List Char → Prop
  | whole {done parts} : List.Forall₂ SpellsChar done.reverse parts →
    Decoded ⟨done, none⟩ parts.flatten
  | waiting {done parts high ds} : List.Forall₂ SpellsChar done.reverse parts →
    SpellsCode high ds → isHighSurrogate high →
    Decoded ⟨done, some high⟩ (parts.flatten ++ '\\' :: 'u' :: ds)

theorem decoded_char {done : List Char} {parts : List (List Char)} {c : Char} {w : List Char}
    (h : List.Forall₂ SpellsChar done.reverse parts) (hc : SpellsChar c w) :
    Decoded ⟨c :: done, none⟩ (parts.flatten ++ w) := by
  have hparts : List.Forall₂ SpellsChar (c :: done).reverse (parts ++ [w]) := by
    rw [List.reverse_cons]
    exact List.rel_append h (.cons hc .nil)
  simpa using Decoded.whole hparts

/-- A unit on its own is a character, or a surrogate that waits. -/
theorem decoded_unit {done cs part : List Char} {u : Nat} {s : Decoding}
    (h : Decoded ⟨done, none⟩ cs) (hu : SpellsCode u part)
    (hstep : Decoding.step ⟨done, none⟩ (.unit u) = some s) :
    Decoded s (cs ++ '\\' :: 'u' :: part) := by
  cases h with
  | whole hdone =>
    simp only [Decoding.step] at hstep
    split at hstep
    case isTrue hhigh =>
      obtain rfl := Option.some.inj hstep
      exact .waiting hdone hu hhigh
    case isFalse hhigh =>
      split at hstep
      case isTrue => cases hstep
      case isFalse hlow =>
        obtain rfl := Option.some.inj hstep
        rw [isHighSurrogate_iff] at hhigh
        rw [isLowSurrogate_iff] at hlow
        have hlt := hu.lt
        have hvalid : u.isValidChar := by
          unfold Nat.isValidChar
          omega
        refine decoded_char hdone (.code ?_)
        rwa [toNat_ofNat_of_valid hvalid]

/-- A unit that follows a surrogate makes one character with it. -/
theorem decoded_pair {done cs part : List Char} {high u : Nat} {s : Decoding}
    (h : Decoded ⟨done, some high⟩ cs) (hu : SpellsCode u part)
    (hstep : Decoding.step ⟨done, some high⟩ (.unit u) = some s) :
    Decoded s (cs ++ '\\' :: 'u' :: part) := by
  cases h with
  | waiting hdone hds hhigh =>
    simp only [Decoding.step] at hstep
    split at hstep
    case isFalse => cases hstep
    case isTrue hlow =>
      obtain rfl := Option.some.inj hstep
      rw [isHighSurrogate_iff] at hhigh
      rw [isLowSurrogate_iff] at hlow
      have hvalid : (0x10000 + (high - 0xd800) * 0x400 + (u - 0xdc00)).isValidChar := by
        unfold Nat.isValidChar
        omega
      have hpair := decoded_char hdone (.surrogates hds hu hhigh.1 hhigh.2 hlow.1 hlow.2
        (toNat_ofNat_of_valid hvalid))
      simpa using hpair

theorem decoded_step {s s' : Decoding} {cs part : List Char} {p : Piece} (h : Decoded s cs)
    (hp : SpellsPiece p part) (hstep : s.step p = some s') : Decoded s' (cs ++ part) := by
  obtain ⟨done, waits⟩ := s
  cases waits with
  | none =>
    have hchar : ∀ c, SpellsChar c part → some ⟨c :: done, none⟩ = some s' →
        Decoded s' (cs ++ part) := by
      rintro c hc hstep
      obtain rfl := Option.some.inj hstep
      cases h with
      | whole hdone => exact decoded_char hdone hc
    cases hp with
    | plain hquote hslash hcontrol => exact hchar _ (.plain hquote hslash hcontrol) hstep
    | short hmem => exact hchar _ (.short hmem) hstep
    | code hu => exact decoded_unit h hu hstep
  | some high =>
    cases hp with
    | plain => cases hstep
    | short => cases hstep
    | code hu => exact decoded_pair h hu hstep

theorem decoded_foldlM {ps : Literal} {parts : List (List Char)}
    (hparts : List.Forall₂ SpellsPiece ps parts) {s s' : Decoding} {cs : List Char}
    (h : Decoded s cs) (hrun : ps.foldlM Decoding.step s = some s') :
    Decoded s' (cs ++ parts.flatten) := by
  induction hparts generalizing s cs with
  | nil =>
    obtain rfl := Option.some.inj hrun
    simpa using h
  | cons hp hparts ih =>
    rw [List.foldlM_cons, Option.bind_eq_bind, Option.bind_eq_some_iff] at hrun
    obtain ⟨next, hstep, hrun⟩ := hrun
    simpa using ih (decoded_step h hp hstep) hrun

/-- The pieces of a string that is decoded spell the text. -/
theorem spellsText_of_decode? {ps : Literal} {parts : List (List Char)} {s : String}
    (hparts : List.Forall₂ SpellsPiece ps parts) (h : ps.decode? = some s) :
    SpellsText s ('"' :: parts.flatten ++ ['"']) := by
  unfold Literal.decode? at h
  split at h
  case h_1 done hrun =>
    obtain rfl := Option.some.inj h
    have hempty : Decoded ⟨[], none⟩ [] := @Decoded.whole [] [] .nil
    obtain ⟨parts', hdone, hflatten⟩ : ∃ parts', List.Forall₂ SpellsChar done.reverse parts' ∧
        parts'.flatten = parts.flatten := by
      have hdecoded := decoded_foldlM hparts hempty hrun
      rw [List.nil_append] at hdecoded
      generalize parts.flatten = cs at hdecoded
      cases hdecoded with
      | whole hdone => exact ⟨_, hdone, rfl⟩
    refine ⟨parts', ?_, by rw [hflatten]⟩
    rwa [String.toList_ofList]
  case h_2 => cases h

/-! ## Tokens -/

/-- The ways to write a token. -/
inductive SpellsToken : Token → List Char → Prop
  | listOpen : SpellsToken .listOpen ['[']
  | listClose : SpellsToken .listClose [']']
  | recordOpen : SpellsToken .recordOpen ['\x7b']
  | recordClose : SpellsToken .recordClose ['\x7d']
  | comma : SpellsToken .comma [',']
  | colon : SpellsToken .colon [':']
  | null : SpellsToken .null ['n', 'u', 'l', 'l']
  | yes : SpellsToken (.bool true) ['t', 'r', 'u', 'e']
  | no : SpellsToken (.bool false) ['f', 'a', 'l', 's', 'e']
  | number {l cs} : SpellsNumeral l cs → SpellsToken (.number l) cs
  | text {ps parts} : List.Forall₂ SpellsPiece ps parts →
    SpellsToken (.text ps) ('"' :: parts.flatten ++ ['"'])

/-- The ways to write tokens, with blanks anywhere between. -/
def SpellsTokens : List Token → List Char → Prop
  | [], cs => Spaces cs
  | t :: ts, cs => ∃ front w rest, Spaces front ∧ SpellsToken t w ∧ SpellsTokens ts rest ∧
    cs = front ++ (w ++ rest)

theorem spellsToken_of_ofWord? {cs : List Char} {t : Token} (h : Token.ofWord? cs = some t) :
    SpellsToken t cs := by
  unfold Token.ofWord? at h
  split at h
  case isTrue hcs =>
    obtain rfl := Option.some.inj h
    exact hcs ▸ .null
  case isFalse =>
    split at h
    case isTrue hcs =>
      obtain rfl := Option.some.inj h
      exact hcs ▸ .yes
    case isFalse =>
      split at h
      case isTrue hcs =>
        obtain rfl := Option.some.inj h
        exact hcs ▸ .no
      case isFalse =>
        obtain ⟨l, hl, rfl⟩ := Option.map_eq_some_iff.mp h
        exact .number (spellsNumeral_of_numeral? hl)

theorem Spaces.append {cs ds : List Char} (h : Spaces cs) (h' : Spaces ds) : Spaces (cs ++ ds) :=
  List.forall_mem_append.mpr ⟨h, h'⟩

theorem SpellsTokens.append {ts us : List Token} {cs ds : List Char} (h : SpellsTokens ts cs)
    (h' : SpellsTokens us ds) : SpellsTokens (ts ++ us) (cs ++ ds) := by
  induction ts generalizing cs with
  | nil =>
    cases us with
    | nil => exact Spaces.append h h'
    | cons u us =>
      obtain ⟨front, w, rest, hfront, hw, hrest, rfl⟩ := h'
      exact ⟨cs ++ front, w, rest, Spaces.append h hfront, hw, hrest, by simp⟩
  | cons t ts ih =>
    obtain ⟨front, w, rest, hfront, hw, hrest, rfl⟩ := h
    exact ⟨front, w, rest ++ ds, hfront, hw, ih hrest, by simp⟩

theorem spellsTokens_nil : SpellsTokens [] [] := List.forall_mem_nil _

theorem SpellsToken.singleton {t : Token} {w : List Char} (h : SpellsToken t w) :
    SpellsTokens [t] w :=
  ⟨[], w, [], List.forall_mem_nil _, h, spellsTokens_nil, by simp⟩

/-! ## Reading tokens -/

/-- What has been read when the reader is in this state. -/
inductive Lexed : Lexing → List Char → Prop
  | between {ts cs} : SpellsTokens ts.reverse cs → Lexed ⟨ts, .between⟩ cs
  | word {ts cs w} : SpellsTokens ts.reverse cs → Lexed ⟨ts, .word w⟩ (cs ++ w.reverse)
  | text {ts cs ps parts} : SpellsTokens ts.reverse cs →
    List.Forall₂ SpellsPiece ps.reverse parts → Lexed ⟨ts, .text ps⟩ (cs ++ '"' :: parts.flatten)
  | escape {ts cs ps parts} : SpellsTokens ts.reverse cs →
    List.Forall₂ SpellsPiece ps.reverse parts →
    Lexed ⟨ts, .escape ps⟩ (cs ++ '"' :: (parts.flatten ++ ['\\']))
  | code {ts cs ps parts ds} {vs : List Nat} : SpellsTokens ts.reverse cs →
    List.Forall₂ SpellsPiece ps.reverse parts → ds.map hexDigit? = vs.map some → vs.length ≤ 3 →
    Lexed ⟨ts, .code ps vs.length (vs.foldl (fun value d => value * 16 + d) 0)⟩
      (cs ++ '"' :: (parts.flatten ++ '\\' :: 'u' :: ds))

/-- One more piece of a string. -/
theorem SpellsTokens.lexed_piece {ts : List Token} {cs w : List Char} {ps : Literal} {p : Piece}
    {parts : List (List Char)} (h : SpellsTokens ts.reverse cs)
    (hparts : List.Forall₂ SpellsPiece ps.reverse parts) (hp : SpellsPiece p w) :
    Lexed ⟨ts, .text (p :: ps)⟩ (cs ++ '"' :: (parts ++ [w]).flatten) := by
  refine .text h ?_
  rw [List.reverse_cons]
  exact List.rel_append hparts (.cons hp .nil)

theorem mem_shortEscapes {c d : Char} (h : unescape? c = some d) : (c, d) ∈ shortEscapes := by
  unfold unescape? at h
  split at h
  case h_9 => cases h
  all_goals
    obtain rfl := Option.some.inj h
    decide

/-- A character that starts a token or stands between two. -/
theorem lexed_start {ts : List Token} {cs : List Char} {c : Char} {s : Lexing}
    (h : SpellsTokens ts.reverse cs) (hs : Lexing.start ts c = some s) : Lexed s (cs ++ [c]) := by
  have htoken : ∀ t, SpellsToken t [c] → Lexed ⟨t :: ts, .between⟩ (cs ++ [c]) := by
    intro t ht
    refine .between ?_
    rw [List.reverse_cons]
    exact h.append ht.singleton
  unfold Lexing.start at hs
  split_ifs at hs with h₁ h₂ h₃ h₄ h₅ h₆ hquote hspace hword
  · obtain rfl := Option.some.inj hs
    exact htoken _ (beq_iff_eq.mp h₁ ▸ .listOpen)
  · obtain rfl := Option.some.inj hs
    exact htoken _ (beq_iff_eq.mp h₂ ▸ .listClose)
  · obtain rfl := Option.some.inj hs
    exact htoken _ (beq_iff_eq.mp h₃ ▸ .recordOpen)
  · obtain rfl := Option.some.inj hs
    exact htoken _ (beq_iff_eq.mp h₄ ▸ .recordClose)
  · obtain rfl := Option.some.inj hs
    exact htoken _ (beq_iff_eq.mp h₅ ▸ .comma)
  · obtain rfl := Option.some.inj hs
    exact htoken _ (beq_iff_eq.mp h₆ ▸ .colon)
  · obtain rfl := Option.some.inj hs
    obtain rfl := beq_iff_eq.mp hquote
    have hempty : Lexed ⟨ts, .text []⟩ (cs ++ '"' :: List.flatten []) := .text h .nil
    exact hempty
  · obtain rfl := Option.some.inj hs
    have hblank : SpellsTokens [] [c] := List.forall_mem_singleton.mpr hspace
    have hwhole := h.append hblank
    rw [List.append_nil] at hwhole
    exact .between hwhole
  · obtain rfl := Option.some.inj hs
    exact .word h

theorem lexed_step {s s' : Lexing} {cs : List Char} {c : Char} (h : Lexed s cs)
    (hs : s.step c = some s') : Lexed s' (cs ++ [c]) := by
  cases h with
  | between hts => exact lexed_start hts hs
  | @word ts cs w hts =>
    rw [Lexing.step] at hs
    dsimp only at hs
    split at hs
    case isTrue =>
      obtain rfl := Option.some.inj hs
      rw [List.append_assoc, ← List.reverse_cons]
      exact .word hts
    case isFalse =>
      obtain ⟨t, ht, hs⟩ := Option.bind_eq_some_iff.mp hs
      refine lexed_start ?_ hs
      rw [List.reverse_cons]
      exact hts.append (spellsToken_of_ofWord? ht).singleton
  | @text ts cs ps parts hts hparts =>
    rw [Lexing.step] at hs
    dsimp only at hs
    split at hs
    case isTrue hquote =>
      obtain rfl := beq_iff_eq.mp hquote
      obtain rfl := Option.some.inj hs
      refine .between ?_
      rw [List.reverse_cons, List.append_assoc]
      exact hts.append (SpellsToken.text hparts).singleton
    case isFalse hquote =>
      split at hs
      case isTrue hslash =>
        obtain rfl := beq_iff_eq.mp hslash
        obtain rfl := Option.some.inj hs
        rw [List.append_assoc]
        exact .escape hts hparts
      case isFalse hslash =>
        split at hs
        case isTrue => cases hs
        case isFalse hcontrol =>
          obtain rfl := Option.some.inj hs
          have hpiece : SpellsPiece (.char c) [c] :=
            .plain (by simpa using hquote) (by simpa using hslash) (by omega)
          simpa using hts.lexed_piece hparts hpiece
  | @escape ts cs ps parts hts hparts =>
    rw [Lexing.step] at hs
    dsimp only at hs
    split at hs
    case isTrue hu =>
      obtain rfl := beq_iff_eq.mp hu
      obtain rfl := Option.some.inj hs
      have hread := @Lexed.code _ _ _ _ [] [] hts hparts rfl (by decide)
      simpa using hread
    case isFalse =>
      obtain ⟨d, hd, rfl⟩ := Option.map_eq_some_iff.mp hs
      simpa using hts.lexed_piece hparts (.short (mem_shortEscapes hd))
  | @code ts cs ps parts ds vs hts hparts hds hlength =>
    rw [Lexing.step] at hs
    dsimp only at hs
    obtain ⟨d, hd, hs⟩ := Option.map_eq_some_iff.mp hs
    have hdigits : (ds ++ [c]).map hexDigit? = (vs ++ [d]).map some := by
      rw [List.map_append, List.map_append, hds, List.map_singleton, hd]
      rfl
    split at hs
    case isTrue hthree =>
      subst hs
      obtain ⟨x, y, z, rfl⟩ := List.length_eq_three.mp hthree
      have hcode : SpellsCode (((x * 16 + y) * 16 + z) * 16 + d) (ds ++ [c]) :=
        ⟨x, y, z, d, hdigits, rfl⟩
      simpa using hts.lexed_piece hparts (.code hcode)
    case isFalse hthree =>
      subst hs
      have hread := Lexed.code hts hparts hdigits (by rw [List.length_append]; simp; omega)
      simpa using hread

/-- What is read as tokens spells them. -/
theorem spellsTokens_of_tokens? {cs : List Char} {ts : List Token} (h : tokens? cs = some ts) :
    SpellsTokens ts cs := by
  obtain ⟨s, hs, hfinish⟩ := Option.bind_eq_some_iff.mp h
  have hstart : Lexed ⟨[], .between⟩ [] := .between spellsTokens_nil
  have hread := foldlM_reads lexed_step hstart hs
  rw [List.nil_append] at hread
  cases hread with
  | between hts =>
    obtain rfl := Option.some.inj hfinish
    exact hts
  | word hts =>
    obtain ⟨t, ht, rfl⟩ := Option.map_eq_some_iff.mp hfinish
    rw [List.reverse_cons]
    exact hts.append (spellsToken_of_ofWord? ht).singleton
  | text => cases hfinish
  | escape => cases hfinish
  | code => cases hfinish

end LoginForest.Json
