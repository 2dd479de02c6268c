/-
  JSON as others may write it: blanks between tokens, the escapes of strings and the exponents of
  numbers chosen freely, members in any order. Every value that nests no deeper than the reader
  goes, with numbers that are finite, is read as what it spells (`SpellsValue.readAs`), so a record
  is read as its members (`parse?_of_spells`); of the members of one key the last one counts
  (`lookup_setMembers`). What is nested deeper is not read (`toValue?_nested`).
-/
import LoginForest.Proofs.Json.Parsing

namespace LoginForest.Json

/-! ## Strings -/

/-- The letters of the short escapes and what they stand for. -/
def shortEscapes : List (Char × Char) :=
  [('"', '"'), ('\\', '\\'), ('/', '/'), ('b', '\x08'), ('f', '\x0c'), ('n', '\n'), ('r', '\r'),
    ('t', '\t')]

/-- Four hexadecimal digits and their value. -/
def SpellsCode (code : Nat) (ds : List Char) : Prop :=
  ∃ a b c d, ds.map LoginForest.Number.hexDigit? = [some a, some b, some c, some d] ∧
    code = ((a * 16 + b) * 16 + c) * 16 + d

/-- The ways to write a character in a string: as it is, with a short escape, by its code, or by
the two surrogates that stand for it. -/
inductive SpellsChar : Char → List Char → Prop
  | plain {c} : c ≠ '"' → c ≠ '\\' → 0x20 ≤ c.toNat → SpellsChar c [c]
  | short {letter c} : (letter, c) ∈ shortEscapes → SpellsChar c ['\\', letter]
  | code {c ds} : SpellsCode c.toNat ds → SpellsChar c ('\\' :: 'u' :: ds)
  | surrogates {c high low ds ds'} : SpellsCode high ds → SpellsCode low ds' →
    0xd800 ≤ high → high < 0xdc00 → 0xdc00 ≤ low → low < 0xe000 →
    c.toNat = 0x10000 + (high - 0xd800) * 0x400 + (low - 0xdc00) →
    SpellsChar c ('\\' :: 'u' :: ds ++ '\\' :: 'u' :: ds')

/-- The ways to write a text as a string. -/
def SpellsText (s : String) (cs : List Char) : Prop :=
  ∃ parts, List.Forall₂ SpellsChar s.toList parts ∧ cs = '"' :: parts.flatten ++ ['"']

theorem SpellsCode.foldlM {code : Nat} {ds : List Char} (h : SpellsCode code ds)
    (before : List Token) (ps : Literal) : ('\\' :: 'u' :: ds).foldlM Lexing.step
      ⟨before, .text ps⟩ = some ⟨before, .text (.unit code :: ps)⟩ := by
  obtain ⟨a, b, c, d, hds, rfl⟩ := h
  exact foldlM_code hds before ps

/-- A written character is lexed as pieces that are decoded to it. -/
theorem SpellsChar.exists_pieces {c : Char} {cs : List Char} (h : SpellsChar c cs) :
    ∃ ps : Literal, (∀ before qs, cs.foldlM Lexing.step ⟨before, .text qs⟩ =
        some ⟨before, .text (ps.reverse ++ qs)⟩) ∧
      ∀ done, ps.foldlM Decoding.step ⟨done, none⟩ = some ⟨c :: done, none⟩ := by
  cases h with
  | plain hquote hslash hcontrol =>
    refine ⟨[.char c], fun before qs => ?_, fun done => rfl⟩
    have hq : (c == '"') = false := by simpa using hquote
    have hs : (c == '\\') = false := by simpa using hslash
    have hc : ¬ c.toNat < 0x20 := by omega
    simp [List.foldlM, Lexing.step, hq, hs, hc]
  | @short letter c hmem =>
    refine ⟨[.char c], fun before qs => ?_, fun done => rfl⟩
    have hescapes : ∀ p ∈ shortEscapes, unescape? p.1 = some p.2 ∧ (p.1 == 'u') = false := by decide
    obtain ⟨hletter, hu⟩ := hescapes _ hmem
    simp [List.foldlM, Lexing.step, hletter, hu]
  | code hcode =>
    refine ⟨[.unit c.toNat], hcode.foldlM, fun done => ?_⟩
    have hvalid : c.toNat < 0xd800 ∨ 0xdfff < c.toNat ∧ c.toNat < 0x110000 := c.valid
    have hhigh : isHighSurrogate c.toNat = false := by
      simp [isHighSurrogate]
      omega
    have hlow : isLowSurrogate c.toNat = false := by
      simp [isLowSurrogate]
      omega
    simp [List.foldlM, Decoding.step, hhigh, hlow]
  | @surrogates _ high low ds ds' hds hds' h₁ h₂ h₃ h₄ hvalue =>
    refine ⟨[.unit high, .unit low], fun before qs => ?_, fun done => ?_⟩
    · rw [List.foldlM_append, hds.foldlM]
      exact hds'.foldlM before _
    · have hhigh : isHighSurrogate high = true := by
        simp only [isHighSurrogate, Bool.and_eq_true, decide_eq_true_eq]
        exact ⟨h₁, h₂⟩
      have hlow : isLowSurrogate low = true := by
        simp only [isLowSurrogate, Bool.and_eq_true, decide_eq_true_eq]
        exact ⟨h₃, h₄⟩
      simp [List.foldlM, Decoding.step, hhigh, hlow, ← hvalue]

/-- A written text is lexed as one string and decoded to the text. -/
theorem SpellsText.exists_lexes {s : String} {cs : List Char} (h : SpellsText s cs) :
    ∃ ps : Literal, Lexes cs [.text ps] ∧ ps.decode? = some s := by
  obtain ⟨parts, hparts, rfl⟩ := h
  have hpieces : ∃ ps : Literal, (∀ before qs, parts.flatten.foldlM Lexing.step
      ⟨before, .text qs⟩ = some ⟨before, .text (ps.reverse ++ qs)⟩) ∧
      ∀ done, ps.foldlM Decoding.step ⟨done, none⟩ = some ⟨s.toList.reverse ++ done, none⟩ := by
    generalize s.toList = text at hparts
    induction hparts with
    | nil => exact ⟨[], fun before qs => rfl, fun done => rfl⟩
    | cons hchar _ ih =>
      obtain ⟨ps, hlex, hdecode⟩ := hchar.exists_pieces
      obtain ⟨ps', hlex', hdecode'⟩ := ih
      refine ⟨ps ++ ps', fun before qs => ?_, fun done => ?_⟩
      · rw [List.flatten_cons, List.foldlM_append, hlex]
        show List.foldlM _ _ _ = _
        rw [hlex', List.reverse_append, List.append_assoc]
      · rw [List.foldlM_append, hdecode]
        show List.foldlM _ _ _ = _
        rw [hdecode', List.reverse_cons, List.append_assoc]
        rfl
  obtain ⟨ps, hlex, hdecode⟩ := hpieces
  refine ⟨ps, fun before => ⟨⟨.text ps :: before, .between⟩, ?_, rfl⟩, ?_⟩
  · rw [List.cons_append, List.foldlM_cons]
    show List.foldlM _ (⟨before, .text []⟩ : Lexing) _ = _
    rw [List.foldlM_append, hlex]
    simp [List.foldlM, Lexing.step]
  · unfold Literal.decode?
    rw [hdecode]
    simp

theorem spellsChar_escapeChar (c : Char) : SpellsChar c (escapeChar c) := by
  unfold escapeChar
  split
  case h_8 hquote hslash _ _ _ _ _ =>
    split
    case isTrue hcontrol =>
      refine .code ⟨0, 0, _, _, map_hexDigit?_control c.toNat hcontrol, ?_⟩
      omega
    case isFalse hcontrol => exact .plain hquote hslash (by omega)
  all_goals exact .short (by decide)

/-- What a text is written as is one of the ways to write it. -/
theorem spellsText_literalChars (s : String) : SpellsText s (literalChars s) := by
  refine ⟨s.toList.map escapeChar, ?_, ?_⟩
  · rw [List.forall₂_map_right_iff, List.forall₂_same]
    exact fun c _ => spellsChar_escapeChar c
  · rw [literalChars, List.flatMap_def]

/-! ## Blanks -/

/-- Characters that may stand between tokens. -/
def Spaces (cs : List Char) : Prop := ∀ c ∈ cs, isSpace c

theorem isMark_of_isSpace {c : Char} (h : isSpace c) : IsMark c [] := by
  have hcases : c = ' ' ∨ c = '\n' ∨ c = '\r' ∨ c = '\t' := by
    simpa [isSpace, or_assoc] using h
  rcases hcases with rfl | rfl | rfl | rfl <;> exact ⟨by decide, fun _ => rfl⟩

theorem Lexes.after_spaces {cs : List Char} {ts : List Token} (h : Lexes cs ts)
    {before : List Char} (hb : Spaces before) : Lexes (before ++ cs) ts := by
  induction before with
  | nil => exact h
  | cons c before ih =>
    exact (ih fun d hd => hb d (List.mem_cons_of_mem c hd)).blank
      (isMark_of_isSpace (hb c List.mem_cons_self))

theorem Lexes.before_spaces {cs : List Char} {ts : List Token} (h : Lexes cs ts)
    {after : List Char} (ha : Spaces after) : Lexes (cs ++ after) ts := by
  cases after with
  | nil => rwa [List.append_nil]
  | cons c after =>
    have hrest := lexes_nil.after_spaces fun d hd => ha d (List.mem_cons_of_mem c hd)
    have hwhole := h.mark (isMark_of_isSpace (ha c List.mem_cons_self)) hrest
    rwa [List.append_nil, List.append_nil, List.append_nil] at hwhole

/-- Something between blanks. -/
def Padded (p : List Char → Prop) (cs : List Char) : Prop :=
  ∃ front body back, Spaces front ∧ Spaces back ∧ p body ∧ cs = front ++ body ++ back

theorem padded_self {p : List Char → Prop} {cs : List Char} (h : p cs) : Padded p cs :=
  ⟨[], cs, [], List.forall_mem_nil _, List.forall_mem_nil _, h, (List.append_nil cs).symm⟩

/-! ## Values -/

/-- The ways to write a value that holds no other one. -/
inductive SpellsPlain : Value → List Char → Prop
  | null : SpellsPlain .null ['n', 'u', 'l', 'l']
  | yes : SpellsPlain (.bool true) ['t', 'r', 'u', 'e']
  | no : SpellsPlain (.bool false) ['f', 'a', 'l', 's', 'e']
  | number {l : Numeral} {n : Number} {cs : List Char} : SpellsNumeral l cs →
    l.toNumber? = some n → SpellsPlain (.number n) cs
  | text {s : String} {cs : List Char} : SpellsText s cs → SpellsPlain (.text s) cs

/-- Members are set one after the other. -/
def setMembers (done members : List (String × Value)) : List (String × Value) :=
  members.foldl (fun done m => setMember m.1 m.2 done) done

section Inside

-- how the values inside are written
variable (spells : Value → List Char → Prop)

/-- The ways to write a list of these items. -/
def SpellsItems (items : List Value) (cs : List Char) : Prop :=
  ∃ inside parts, Spaces inside ∧ List.Forall₂ (fun v => Padded (spells v)) items parts ∧
    cs = '[' :: (inside ++ [','].intercalate parts ++ [']'])

/-- The ways to write a member of a record. -/
def SpellsMember (m : String × Value) (cs : List Char) : Prop :=
  ∃ name value, Padded (SpellsText m.1) name ∧ Padded (spells m.2) value ∧
    cs = name ++ ':' :: value

/-- The ways to write a record with these members. -/
def SpellsMembers (members : List (String × Value)) (cs : List Char) : Prop :=
  ∃ inside parts, Spaces inside ∧ List.Forall₂ (SpellsMember spells) members parts ∧
    cs = '\x7b' :: (inside ++ [','].intercalate parts ++ ['\x7d'])

end Inside

/-- The ways to write a value that nests at most `room` deep. -/
def SpellsValue : (room : Nat) → Value → List Char → Prop
  | 0 => SpellsPlain
  | room + 1 => fun v cs => SpellsPlain v cs ∨
    (∃ items, v = .list items ∧ SpellsItems (SpellsValue room) items cs) ∨
    ∃ members, v = .record (setMembers [] members) ∧ SpellsMembers (SpellsValue room) members cs

theorem SpellsPlain.spells {v : Value} {cs : List Char} (h : SpellsPlain v cs) (room : Nat) :
    SpellsValue room v cs := by
  cases room with
  | zero => exact h
  | succ room => exact .inl h

/-! ## Reading in any frame -/

/-- What is written is read as a value that nests at most `room` deep. -/
def ReadAs (room : Nat) (v : Value) (cs : List Char) : Prop :=
  ∃ ts n, Lexes cs ts ∧ Completes ts n ∧ n.toValue? room = some v

theorem ReadAs.padded {room : Nat} {v : Value} {cs : List Char} (h : Padded (ReadAs room v) cs) :
    ReadAs room v cs := by
  obtain ⟨front, body, back, hfront, hback, ⟨ts, n, hlex, hcompletes, hvalue⟩, rfl⟩ := h
  exact ⟨ts, n, (hlex.after_spaces hfront).before_spaces hback, hcompletes, hvalue⟩

theorem Padded.imp {p q : List Char → Prop} (himp : ∀ cs, p cs → q cs) {cs : List Char}
    (h : Padded p cs) : Padded q cs := by
  obtain ⟨front, body, back, hfront, hback, hbody, rfl⟩ := h
  exact ⟨front, body, back, hfront, hback, himp body hbody, rfl⟩

/-- A text that is read in any frame is read by itself. -/
theorem ReadAs.parse? {room : Nat} {v : Value} {cs : List Char} (h : ReadAs room v cs) :
    ∃ n, parse? (String.ofList cs) = some n ∧ n.toValue? room = some v := by
  obtain ⟨ts, n, hlex, hcompletes, hvalue⟩ := h
  refine ⟨n, ?_, hvalue⟩
  unfold Json.parse?
  rw [String.toList_ofList, tokens?_of_lexes hlex, Option.bind_some]
  unfold Node.ofTokens?
  rw [hcompletes []]
  rfl

theorem SpellsPlain.readAs {v : Value} {cs : List Char} (h : SpellsPlain v cs) (room : Nat) :
    ReadAs room v cs := by
  cases h with
  | null =>
    refine ⟨_, .null, lexes_word rfl (List.cons_ne_nil _ _) rfl,
      completes_singleton fun _ => rfl, ?_⟩
    rw [Node.toValue?]
  | yes =>
    refine ⟨_, .bool true, lexes_word rfl (List.cons_ne_nil _ _) rfl,
      completes_singleton fun _ => rfl, ?_⟩
    rw [Node.toValue?]
  | no =>
    refine ⟨_, .bool false, lexes_word rfl (List.cons_ne_nil _ _) rfl,
      completes_singleton fun _ => rfl, ?_⟩
    rw [Node.toValue?]
  | @number l n _ hspelled hvalue =>
    refine ⟨_, .number l, hspelled.lexes, completes_singleton fun _ => rfl, ?_⟩
    rw [Node.toValue?, hvalue]
    rfl
  | text hspelled =>
    obtain ⟨ps, hlex, hdecode⟩ := hspelled.exists_lexes
    refine ⟨_, .text ps, hlex, completes_singleton fun _ => rfl, ?_⟩
    rw [Node.toValue?, hdecode]
    rfl

/-! ## Lists and records -/

section Inside

variable {room : Nat} {spells : Value → List Char → Prop}
  (hspells : ∀ v cs, spells v cs → ReadAs room v cs)

include hspells

/-- The tokens of written items fill an open list, and their nodes have the values of the items. -/
theorem exists_tokens_items {items : List Value} {parts : List (List Char)}
    (h : List.Forall₂ (fun v => Padded (spells v)) items parts) (hne : items ≠ []) :
    ∃ t ts nodes, Lexes ([','].intercalate parts) (t :: ts) ∧ t ≠ .listClose ∧
      (∀ done stack, (t :: ts).foldlM Parsing.step ⟨.list done :: stack, .value⟩ =
        some ⟨.list (nodes.reverse ++ done) :: stack, .commaOrClose⟩) ∧
      Node.toValues? room nodes = some items := by
  induction h with
  | nil => exact absurd rfl hne
  | @cons v part items parts hv hrest ih =>
    obtain ⟨us, n, hlex, hcompletes, hvalue⟩ := ReadAs.padded (hv.imp (hspells v))
    obtain ⟨t, ts, rfl, ht⟩ := hcompletes.exists_cons
    have hfirst : ∀ done stack, (t :: ts).foldlM Parsing.step ⟨.list done :: stack, .value⟩ =
        some ⟨.list (n :: done) :: stack, .commaOrClose⟩ := fun done stack =>
      hcompletes (.list done :: stack)
    cases hrest with
    | nil =>
      refine ⟨t, ts, [n], by simpa [List.intercalate] using hlex, ht, hfirst, ?_⟩
      rw [Node.toValues?, hvalue, Node.toValues?]
      rfl
    | @cons v' part' items parts hv' hrest =>
      obtain ⟨t', ts', nodes, hlex', -, hfill, hvalues⟩ := ih (List.cons_ne_nil _ _)
      refine ⟨t, ts ++ .comma :: t' :: ts', n :: nodes, ?_, ht, fun done stack => ?_, ?_⟩
      · have hboth := hlex.mark isMark_comma hlex'
        simpa [List.intercalate] using hboth
      · show List.foldlM _ _ ((t :: ts) ++ .comma :: t' :: ts') = _
        rw [List.foldlM_append, hfirst]
        show List.foldlM _ (⟨.list (n :: done) :: stack, .value⟩ : Parsing) _ = _
        rw [hfill]
        simp
      · rw [Node.toValues?, hvalue, hvalues]
        rfl

theorem SpellsItems.readAs {items : List Value} {cs : List Char} (h : SpellsItems spells items cs) :
    ReadAs (room + 1) (.list items) cs := by
  obtain ⟨inside, parts, hinside, hitems, rfl⟩ := h
  by_cases hne : items = []
  · subst hne
    obtain rfl := List.forall₂_nil_left_iff.mp hitems
    refine ⟨[.listOpen, .listClose], .list [],
      (lexes_nil.after_spaces hinside).enclosed isMark_listOpen isMark_listClose,
      completes_nil_list, ?_⟩
    · rw [Node.toValue?, Node.toValues?]
      rfl
  · obtain ⟨t, ts, nodes, hlex, ht, hfill, hvalues⟩ := exists_tokens_items hspells hitems hne
    refine ⟨.listOpen :: (t :: ts ++ [.listClose]), .list nodes,
      (hlex.after_spaces hinside).enclosed isMark_listOpen isMark_listClose,
      completes_list ht (hfill []), ?_⟩
    · rw [Node.toValue?, hvalues]
      rfl

theorem SpellsMember.exists_tokens {m : String × Value} {cs : List Char}
    (h : SpellsMember spells m cs) : ∃ ps ts n, Lexes cs (.text ps :: .colon :: ts) ∧
      ps.decode? = some m.1 ∧ Completes ts n ∧ n.toValue? room = some m.2 := by
  obtain ⟨_, _, ⟨front, name, back, hfront, hback, hname, rfl⟩, hvalue, rfl⟩ := h
  obtain ⟨ps, hname, hdecode⟩ := hname.exists_lexes
  obtain ⟨ts, n, hvalue, hcompletes, hread⟩ := ReadAs.padded (hvalue.imp (hspells m.2))
  refine ⟨ps, ts, n, ?_, hdecode, hcompletes, hread⟩
  exact ((hname.after_spaces hfront).before_spaces hback).mark isMark_colon hvalue

/-- The tokens of written members fill an open record, and their nodes have the values of the
members. -/
theorem exists_tokens_members {members : List (String × Value)} {parts : List (List Char)}
    (h : List.Forall₂ (SpellsMember spells) members parts) (hne : members ≠ []) :
    ∃ ps ts nodes, Lexes ([','].intercalate parts) (.text ps :: ts) ∧
      (∀ done stack, (Token.text ps :: ts).foldlM Parsing.step ⟨.record done :: stack, .key⟩ =
        some ⟨.record (nodes.reverse ++ done) :: stack, .commaOrClose⟩) ∧
      ∀ done, Node.toMembers? room done nodes = some (setMembers done members) := by
  induction h with
  | nil => exact absurd rfl hne
  | @cons m part members parts hm hrest ih =>
    obtain ⟨ps, ts, n, hlex, hdecode, hcompletes, hvalue⟩ := hm.exists_tokens hspells
    have hfirst : ∀ done stack, (Token.text ps :: .colon :: ts).foldlM Parsing.step
        ⟨.record done :: stack, .key⟩ =
          some ⟨.record ((ps, n) :: done) :: stack, .commaOrClose⟩ := fun done stack =>
      hcompletes (.member done ps :: stack)
    have hset : ∀ done nodes, Node.toMembers? room done ((ps, n) :: nodes) =
        Node.toMembers? room (setMember m.1 m.2 done) nodes := by
      intro done nodes
      rw [Node.toMembers?, hdecode, hvalue]
      rfl
    cases hrest with
    | nil =>
      refine ⟨ps, .colon :: ts, [(ps, n)], by simpa [List.intercalate] using hlex, hfirst,
        fun done => ?_⟩
      rw [hset, Node.toMembers?]
      rfl
    | @cons m' part' members parts hm' hrest =>
      obtain ⟨ps', ts', nodes, hlex', hfill, hmembers⟩ := ih (List.cons_ne_nil _ _)
      refine ⟨ps, .colon :: ts ++ .comma :: .text ps' :: ts', (ps, n) :: nodes, ?_,
        fun done stack => ?_, fun done => ?_⟩
      · have hboth := hlex.mark isMark_comma hlex'
        simpa [List.intercalate] using hboth
      · show List.foldlM _ _ ((.text ps :: .colon :: ts) ++ .comma :: .text ps' :: ts') = _
        rw [List.foldlM_append, hfirst]
        show List.foldlM _ (⟨.record ((ps, n) :: done) :: stack, .key⟩ : Parsing) _ = _
        rw [hfill]
        simp
      · rw [hset, hmembers]
        rfl

theorem SpellsMembers.readAs {members : List (String × Value)} {cs : List Char}
    (h : SpellsMembers spells members cs) :
    ReadAs (room + 1) (.record (setMembers [] members)) cs := by
  obtain ⟨inside, parts, hinside, hmembers, rfl⟩ := h
  by_cases hne : members = []
  · subst hne
    obtain rfl := List.forall₂_nil_left_iff.mp hmembers
    refine ⟨[.recordOpen, .recordClose], .record [],
      (lexes_nil.after_spaces hinside).enclosed isMark_recordOpen isMark_recordClose,
      completes_nil_record, ?_⟩
    · rw [Node.toValue?, Node.toMembers?]
      rfl
  · obtain ⟨ps, ts, nodes, hlex, hfill, hset⟩ := exists_tokens_members hspells hmembers hne
    refine ⟨.recordOpen :: (.text ps :: ts ++ [.recordClose]), .record nodes,
      (hlex.after_spaces hinside).enclosed isMark_recordOpen isMark_recordClose,
      completes_record (hfill []), ?_⟩
    · rw [Node.toValue?, hset]
      rfl

end Inside

/-- What spells a value is read as the value. -/
theorem SpellsValue.readAs {room : Nat} {v : Value} {cs : List Char} (h : SpellsValue room v cs) :
    ReadAs room v cs := by
  induction room generalizing v cs with
  | zero => exact SpellsPlain.readAs h 0
  | succ room ih =>
    have hinside : ∀ v cs, SpellsValue room v cs → ReadAs room v cs := fun _ _ h => ih h
    rcases h with h | ⟨items, rfl, h⟩ | ⟨members, rfl, h⟩
    · exact h.readAs _
    · exact h.readAs hinside
    · exact h.readAs hinside

/-- A written record is read as its members. -/
theorem parse?_of_spells {room : Nat} {members : List (String × Value)} {cs : List Char}
    (h : Padded (SpellsMembers (SpellsValue room) members) cs) :
    ∃ n, parse? (String.ofList cs) = some n ∧
      n.toValue? (room + 1) = some (.record (setMembers [] members)) :=
  (ReadAs.padded (h.imp fun _ h => h.readAs fun _ _ => SpellsValue.readAs)).parse?

/-! ## Values as they are written -/

theorem itemChars_eq (items : List Value) :
    Value.itemChars items = [','].intercalate (items.map Value.chars) := by
  induction items with
  | nil => rfl
  | cons v items ih =>
    cases items with
    | nil => simp [Value.itemChars, List.intercalate]
    | cons w items =>
      rw [Value.itemChars, ih]
      · simp [List.intercalate]
      · simp

theorem memberChars_eq (members : List (String × Value)) : Value.memberChars members =
    [','].intercalate (members.map fun m => literalChars m.1 ++ ':' :: m.2.chars) := by
  induction members with
  | nil => rfl
  | cons m members ih =>
    cases members with
    | nil => simp [Value.memberChars, List.intercalate]
    | cons m' members =>
      rw [Value.memberChars, ih]
      · simp [List.intercalate]
      · simp

section Inside

variable {spells : Value → List Char → Prop}

/-- What a list is written as is one of the ways to write it, if that is so of the items. -/
theorem spellsItems_chars {items : List Value} (h : ∀ v ∈ items, spells v v.chars) :
    SpellsItems spells items (Value.list items).chars := by
  refine ⟨[], items.map Value.chars, List.forall_mem_nil _, ?_, ?_⟩
  · rw [List.forall₂_map_right_iff, List.forall₂_same]
    exact fun v hv => padded_self (h v hv)
  · rw [Value.chars, itemChars_eq]
    rfl

theorem spellsMembers_chars {members : List (String × Value)}
    (h : ∀ m ∈ members, spells m.2 m.2.chars) :
    SpellsMembers spells members (Value.record members).chars := by
  refine ⟨[], members.map fun m => literalChars m.1 ++ ':' :: m.2.chars, List.forall_mem_nil _,
    ?_, ?_⟩
  · rw [List.forall₂_map_right_iff, List.forall₂_same]
    exact fun m hm => ⟨_, _, padded_self (spellsText_literalChars m.1), padded_self (h m hm), rfl⟩
  · rw [Value.chars, memberChars_eq]
    rfl

end Inside

theorem spellsValue_text (room : Nat) (s : String) :
    SpellsValue room (.text s) (Value.text s).chars :=
  (SpellsPlain.text (spellsText_literalChars s)).spells room

/-! ## Nesting -/

/-- A value that is nested `n` deep. -/
def nested : (n : Nat) → Value
  | 0 => .null
  | n + 1 => .list [nested n]

theorem spellsValue_nested (n : Nat) : SpellsValue n (nested n) (nested n).chars := by
  induction n with
  | zero => exact .null
  | succ n ih =>
    exact .inr (.inl ⟨[nested n], rfl, spellsItems_chars (List.forall_mem_singleton.mpr ih)⟩)

/-- Such a value does not fit in less room. -/
theorem toValue?_nested (n : Nat) : (nested (n + 1)).node.toValue? n = none := by
  induction n with
  | zero => rfl
  | succ n ih =>
    rw [nested, Value.node, Value.itemNodes, Node.toValue?, Node.toValues?, ih]
    rfl

/-! ## Looking members up -/

theorem lookup_cons_eq_if (key other : String) (v : Value) (members : List (String × Value)) :
    ((key, v) :: members).lookup other = if other = key then some v else members.lookup other := by
  rw [List.lookup_cons]
  by_cases h : other = key
  · rw [if_pos h, beq_iff_eq.mpr h]
  · rw [if_neg h, beq_eq_false_iff_ne.mpr h]

theorem lookup_setMember (key other : String) (v : Value) (members : List (String × Value)) :
    (setMember key v members).lookup other =
      if other = key then some v else members.lookup other := by
  induction members with
  | nil => exact lookup_cons_eq_if key other v []
  | cons m rest ih =>
    obtain ⟨k, w⟩ := m
    unfold setMember
    by_cases hlt : key < k
    · rw [if_pos hlt, lookup_cons_eq_if]
    · rw [if_neg hlt]
      by_cases heq : key = k
      · rw [if_pos heq, lookup_cons_eq_if, lookup_cons_eq_if, heq]
        by_cases h : other = k
        · rw [if_pos h, if_pos h]
        · rw [if_neg h, if_neg h, if_neg h]
      · rw [if_neg heq, lookup_cons_eq_if, lookup_cons_eq_if, ih]
        by_cases h : other = k
        · rw [if_pos h, if_pos h, if_neg (h ▸ Ne.symm heq)]
        · rw [if_neg h, if_neg h]

/-- Of the members with one key the last one counts. -/
theorem lookup_setMembers (members done : List (String × Value)) (key : String) :
    (setMembers done members).lookup key =
      (((members.filter (·.1 = key)).getLast?).map (·.2)).or (done.lookup key) := by
  induction members generalizing done with
  | nil => rfl
  | cons m members ih =>
    have hstep : setMembers done (m :: members) = setMembers (setMember m.1 m.2 done) members := rfl
    rw [hstep, ih, lookup_setMember]
    by_cases h : m.1 = key
    · rw [List.filter_cons_of_pos (by simpa using h), List.getLast?_cons, if_pos h.symm]
      cases (members.filter (·.1 = key)).getLast? <;> rfl
    · rw [List.filter_cons_of_neg (by simpa using h), if_neg (Ne.symm h)]

end LoginForest.Json
