/-
  What is written is parsed again: the text of any value, compact or as an indented record, gives
  the value's node (`parse?_compact`, `parse?_indented`). A number that is not finite is written
  as null, and so its node is null.
-/
import LoginForest.Json.Parser
import LoginForest.Proofs.Json.Lexing

namespace LoginForest.Json

/-! ## Nodes and tokens of values -/

/-- The literal of a number; `none` when it is not finite. -/
def Number.literal? : Number → Option Numeral
  | .count n => some (countNumeral n)
  | .negative n => some { countNumeral n with negative := true }
  | .real x => (LoginForest.Number.compactChars? x).bind numeral?

def Number.token (n : Number) : Token := (n.literal?.map .number).getD .null

def Number.node (n : Number) : Node := (n.literal?.map .number).getD .null

mutual

/-- The node that a value is written as. -/
def Value.node : Value → Node
  | .null => .null
  | .bool b => .bool b
  | .number n => n.node
  | .text s => .text (pieces s)
  | .list items => .list (Value.itemNodes items)
  | .record members => .record (Value.memberNodes members)

def Value.itemNodes : List Value → List Node
  | [] => []
  | v :: vs => v.node :: Value.itemNodes vs

def Value.memberNodes : List (String × Value) → List (Literal × Node)
  | [] => []
  | (key, v) :: rest => (pieces key, v.node) :: Value.memberNodes rest

end

mutual

/-- The tokens that a value is written as. -/
def Value.tokens : Value → List Token
  | .null => [.null]
  | .bool b => [.bool b]
  | .number n => [n.token]
  | .text s => [.text (pieces s)]
  | .list items => .listOpen :: (Value.itemTokens items ++ [.listClose])
  | .record members => .recordOpen :: (Value.memberTokens members ++ [.recordClose])

def Value.itemTokens : List Value → List Token
  | [] => []
  | [v] => v.tokens
  | v :: vs => v.tokens ++ .comma :: Value.itemTokens vs

def Value.memberTokens : List (String × Value) → List Token
  | [] => []
  | [(key, v)] => .text (pieces key) :: .colon :: v.tokens
  | (key, v) :: rest =>
    .text (pieces key) :: .colon :: (v.tokens ++ .comma :: Value.memberTokens rest)

end

/-! ## Lexing -/

theorem compactChars?_of_not_isFinite {x : Float} (h : ¬ x.isFinite) :
    LoginForest.Number.compactChars? x = none := by
  unfold LoginForest.Number.compactChars?
  cases hp : LoginForest.Number.parts x with
  | nan => rfl
  | infinite negative => rfl
  | finite negative m e => exact absurd (LoginForest.Number.isFinite_of_parts hp) h

/-- A number is written as its literal, or as no value. -/
theorem chars_number_cases (n : Number) :
    (∃ l : Numeral, l.WellFormed ∧ n.chars = l.chars ∧ n.token = .number l) ∨
      n.chars = ['n', 'u', 'l', 'l'] ∧ n.token = .null := by
  cases n with
  | count n => exact .inl ⟨_, wellFormed_countNumeral n, (chars_countNumeral n).symm, rfl⟩
  | negative n =>
    refine .inl ⟨{ countNumeral n with negative := true }, ⟨(wellFormed_countNumeral n).isWhole,
      (wellFormed_countNumeral n).digits, (wellFormed_countNumeral n).places⟩, ?_, rfl⟩
    rw [Number.chars, ← chars_countNumeral]
    rfl
  | real x =>
    by_cases hx : x.isFinite
    · obtain ⟨l, hwell, hchars, -⟩ := exists_numeral_real hx
      refine .inl ⟨l, hwell, by rw [Number.chars, hchars, Option.getD_some], ?_⟩
      rw [Number.token, Number.literal?, hchars, Option.bind_some, numeral?_chars hwell]
      rfl
    · have hnone := compactChars?_of_not_isFinite hx
      refine .inr ⟨by rw [Number.chars, hnone, Option.getD_none], ?_⟩
      rw [Number.token, Number.literal?, hnone]
      rfl

theorem lexes_number (n : Number) : Lexes n.chars [n.token] := by
  rcases chars_number_cases n with ⟨l, hwell, hchars, htoken⟩ | ⟨hchars, htoken⟩
  · rw [hchars, htoken]
    exact lexes_numeral hwell
  · rw [hchars, htoken]
    exact lexes_word rfl (List.cons_ne_nil _ _) rfl

/-- A text between an opening and a closing mark. -/
theorem Lexes.enclosed {cs : List Char} {ts us us' : List Token} {c d : Char} (h : Lexes cs ts)
    (hc : IsMark c us) (hd : IsMark d us') : Lexes (c :: (cs ++ [d])) (us ++ (ts ++ us')) := by
  have := lexes_nil.mark hc (h.mark hd lexes_nil)
  simpa using this

mutual

theorem lexes_value : ∀ v : Value, Lexes v.chars v.tokens
  | .null => lexes_word rfl (List.cons_ne_nil _ _) rfl
  | .bool true => lexes_word rfl (List.cons_ne_nil _ _) rfl
  | .bool false => lexes_word rfl (List.cons_ne_nil _ _) rfl
  | .number n => lexes_number n
  | .text s => lexes_literalChars s
  | .list items => (lexes_items items).enclosed isMark_listOpen isMark_listClose
  | .record members => (lexes_members members).enclosed isMark_recordOpen isMark_recordClose

theorem lexes_items : ∀ items : List Value, Lexes (Value.itemChars items) (Value.itemTokens items)
  | [] => lexes_nil
  | [v] => lexes_value v
  | v :: w :: vs => by
    have := (lexes_value v).mark isMark_comma (lexes_items (w :: vs))
    simpa [Value.itemChars, Value.itemTokens] using this

theorem lexes_members : ∀ members : List (String × Value),
    Lexes (Value.memberChars members) (Value.memberTokens members)
  | [] => lexes_nil
  | [(key, v)] => by
    have := (lexes_literalChars key).mark isMark_colon (lexes_value v)
    simpa [Value.memberChars, Value.memberTokens] using this
  | (key, v) :: m :: rest => by
    have := (lexes_literalChars key).mark isMark_colon
      ((lexes_value v).mark isMark_comma (lexes_members (m :: rest)))
    simpa [Value.memberChars, Value.memberTokens] using this

end

/-! ## Parsing -/

/-- The tokens of a value complete its node in any frame. -/
def Completes (ts : List Token) (n : Node) : Prop :=
  ∀ stack, ts.foldlM Parsing.step ⟨stack, .value⟩ = Parsing.complete n stack

theorem completes_singleton {t : Token} {n : Node}
    (h : ∀ stack, Parsing.value stack t = Parsing.complete n stack) : Completes [t] n := by
  intro stack
  rw [List.foldlM_cons]
  exact (congrArg (· >>= pure) (h stack)).trans (bind_pure _)

/-- No value starts with the mark that closes a list. -/
theorem Completes.exists_cons {ts : List Token} {n : Node} (h : Completes ts n) :
    ∃ t rest, ts = t :: rest ∧ t ≠ .listClose := by
  have hwhole := h []
  cases ts with
  | nil => cases hwhole
  | cons t rest =>
    refine ⟨t, rest, rfl, ?_⟩
    rintro rfl
    cases hwhole

theorem completes_nil_list : Completes [.listOpen, .listClose] (.list []) := fun stack =>
  bind_pure (Parsing.complete (.list []) stack)

theorem completes_nil_record : Completes [.recordOpen, .recordClose] (.record []) := fun stack =>
  bind_pure (Parsing.complete (.record []) stack)

/-- What fills an open list makes up the list between its marks. -/
theorem completes_list {t : Token} {ts : List Token} {nodes : List Node} (ht : t ≠ .listClose)
    (hfill : ∀ stack, (t :: ts).foldlM Parsing.step ⟨.list [] :: stack, .value⟩ =
      some ⟨.list (nodes.reverse ++ []) :: stack, .commaOrClose⟩) :
    Completes (.listOpen :: (t :: ts ++ [.listClose])) (.list nodes) := by
  intro stack
  have hfirst : Parsing.step ⟨.list [] :: stack, .valueOrClose⟩ t =
      Parsing.step ⟨.list [] :: stack, .value⟩ t := by
    cases t <;> first | rfl | exact absurd rfl ht
  have hopen : (t :: ts).foldlM Parsing.step ⟨.list [] :: stack, .valueOrClose⟩ =
      some ⟨.list (nodes.reverse ++ []) :: stack, .commaOrClose⟩ := by
    rw [← hfill stack, List.foldlM_cons, List.foldlM_cons, hfirst]
  rw [List.foldlM_cons]
  show List.foldlM _ (⟨.list [] :: stack, .valueOrClose⟩ : Parsing) _ = _
  rw [List.foldlM_append, hopen, List.append_nil]
  refine (bind_pure (Parsing.complete (.list nodes.reverse.reverse) stack)).trans ?_
  rw [List.reverse_reverse]

/-- What fills an open record makes up the record between its marks. -/
theorem completes_record {ps : Literal} {ts : List Token} {nodes : List (Literal × Node)}
    (hfill : ∀ stack, (Token.text ps :: ts).foldlM Parsing.step ⟨.record [] :: stack, .key⟩ =
      some ⟨.record (nodes.reverse ++ []) :: stack, .commaOrClose⟩) :
    Completes (.recordOpen :: (.text ps :: ts ++ [.recordClose])) (.record nodes) := by
  intro stack
  have hopen : (Token.text ps :: ts).foldlM Parsing.step ⟨.record [] :: stack, .keyOrClose⟩ =
      some ⟨.record (nodes.reverse ++ []) :: stack, .commaOrClose⟩ := hfill stack
  rw [List.foldlM_cons]
  show List.foldlM _ (⟨.record [] :: stack, .keyOrClose⟩ : Parsing) _ = _
  rw [List.foldlM_append, hopen, List.append_nil]
  refine (bind_pure (Parsing.complete (.record nodes.reverse.reverse) stack)).trans ?_
  rw [List.reverse_reverse]

theorem completes_number (n : Number) : Completes [n.token] n.node := by
  unfold Number.token Number.node
  cases n.literal? <;> exact completes_singleton fun _ => rfl

mutual

/-- The tokens of a value complete its node. -/
theorem completes_tokens : ∀ v : Value, Completes v.tokens v.node
  | .null => completes_singleton fun _ => rfl
  | .bool _ => completes_singleton fun _ => rfl
  | .number n => completes_number n
  | .text _ => completes_singleton fun _ => rfl
  | .list [] => completes_nil_list
  | .list (v :: vs) => by
    obtain ⟨t, ts, htokens, ht⟩ := (completes_tokens v).exists_cons
    obtain ⟨us, hus⟩ : ∃ us, Value.itemTokens (v :: vs) = t :: us := by
      cases vs with
      | nil => exact ⟨ts, by rw [Value.itemTokens, htokens]⟩
      | cons w ws =>
        refine ⟨ts ++ .comma :: Value.itemTokens (w :: ws), ?_⟩
        rw [Value.itemTokens, htokens]
        · rfl
        · exact fun h => by cases h
    unfold Value.tokens Value.node
    rw [hus]
    refine completes_list ht fun stack => ?_
    rw [← hus]
    exact foldlM_items (v :: vs) [] stack (List.cons_ne_nil _ _)
  | .record [] => completes_nil_record
  | .record (m :: rest) => by
    obtain ⟨us, hus⟩ : ∃ us, Value.memberTokens (m :: rest) = .text (pieces m.1) :: us := by
      cases rest with
      | nil => exact ⟨_, rfl⟩
      | cons w ws => exact ⟨_, rfl⟩
    unfold Value.tokens Value.node
    rw [hus]
    refine completes_record fun stack => ?_
    rw [← hus]
    exact foldlM_members (m :: rest) [] stack (List.cons_ne_nil _ _)

/-- The tokens of the items of a list fill it. -/
theorem foldlM_items : ∀ (items : List Value) (done : List Node) (stack : List Frame),
    items ≠ [] → (Value.itemTokens items).foldlM Parsing.step ⟨.list done :: stack, .value⟩ =
      some ⟨.list ((Value.itemNodes items).reverse ++ done) :: stack, .commaOrClose⟩
  | [], _, _, h => absurd rfl h
  | [v], done, stack, _ => by
    unfold Value.itemTokens
    rw [completes_tokens v]
    simp [Parsing.complete, Value.itemNodes]
  | v :: w :: vs, done, stack, _ => by
    have hrest := foldlM_items (w :: vs) (v.node :: done) stack (List.cons_ne_nil _ _)
    rw [Value.itemTokens, List.foldlM_append, completes_tokens v]
    · show List.foldlM _ (⟨.list (v.node :: done) :: stack, .value⟩ : Parsing) _ = _
      rw [hrest]
      simp [Value.itemNodes]
    · exact fun h => by cases h

/-- The tokens of the members of a record fill it. -/
theorem foldlM_members : ∀ (members : List (String × Value)) (done : List (Literal × Node))
    (stack : List Frame), members ≠ [] →
    (Value.memberTokens members).foldlM Parsing.step ⟨.record done :: stack, .key⟩ =
      some ⟨.record ((Value.memberNodes members).reverse ++ done) :: stack, .commaOrClose⟩
  | [], _, _, h => absurd rfl h
  | [(key, v)], done, stack, _ => by
    unfold Value.memberTokens
    rw [List.foldlM_cons]
    show List.foldlM _ (⟨.member done (pieces key) :: stack, .value⟩ : Parsing) v.tokens = _
    rw [completes_tokens v]
    simp [Parsing.complete, Value.memberNodes]
  | (key, v) :: m :: rest, done, stack, _ => by
    have hrest := foldlM_members (m :: rest) ((pieces key, v.node) :: done) stack
      (List.cons_ne_nil _ _)
    rw [Value.memberTokens, List.foldlM_cons]
    · show List.foldlM _ (⟨.member done (pieces key) :: stack, .value⟩ : Parsing) _ = _
      rw [List.foldlM_append, completes_tokens v]
      show List.foldlM _ (⟨.record ((pieces key, v.node) :: done) :: stack, .key⟩ : Parsing)
        _ = _
      rw [hrest]
      simp [Value.memberNodes]
    · exact fun h => by cases h

end

/-! ## Texts -/

theorem ofTokens?_tokens (v : Value) : Node.ofTokens? v.tokens = some v.node := by
  unfold Node.ofTokens?
  rw [completes_tokens]
  rfl

theorem parse?_of_lexes {cs : List Char} {v : Value} (h : Lexes cs v.tokens) :
    parse? (String.ofList cs) = some v.node := by
  unfold parse?
  rw [String.toList_ofList, tokens?_of_lexes h]
  exact ofTokens?_tokens v

/-- The compact text of a value is parsed to its node. -/
theorem parse?_compact (v : Value) : parse? v.compact = some v.node :=
  parse?_of_lexes (lexes_value v)

theorem Lexes.blank {cs : List Char} {ts : List Token} (h : Lexes cs ts) {c : Char}
    (hc : IsMark c []) : Lexes (c :: cs) ts := by
  have := lexes_nil.mark hc h
  simpa using this

theorem lexes_indented : ∀ members : List (String × Value),
    Lexes ([',', '\n'].intercalate (members.map fun m =>
      ' ' :: ' ' :: literalChars m.1 ++ ':' :: ' ' :: m.2.chars)) (Value.memberTokens members)
  | [] => lexes_nil
  | [(key, v)] => by
    have hline := (((lexes_literalChars key).blank isMark_blank).blank isMark_blank).mark
      isMark_colon ((lexes_value v).blank isMark_blank)
    simpa [Value.memberTokens, List.intercalate] using hline
  | (key, v) :: m :: rest => by
    have hrest := lexes_indented (m :: rest)
    have hline := (((lexes_literalChars key).blank isMark_blank).blank isMark_blank).mark
      isMark_colon (((lexes_value v).blank isMark_blank).mark isMark_comma
        (hrest.blank isMark_newline))
    simpa [Value.memberTokens, List.intercalate] using hline

/-- The indented text of a record is parsed to its node. -/
theorem parse?_indented (members : List (String × Value)) :
    parse? (indented members) = some (Value.record members).node := by
  have hlines := (lexes_indented members).mark isMark_newline
    (lexes_nil.mark isMark_recordClose lexes_nil)
  have hwhole := lexes_nil.mark isMark_recordOpen (hlines.blank isMark_newline)
  apply parse?_of_lexes
  unfold Value.tokens indentedChars
  simpa using hwhole

end LoginForest.Json
