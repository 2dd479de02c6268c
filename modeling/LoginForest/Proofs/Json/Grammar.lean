/-
  Nothing else is JSON. The stack of the parser tells which tokens it has read (`Parsed`), which
  one more token continues (`parsed_step`): so a node is parsed from its own tokens and no others
  (`eq_tokens_of_ofTokens?`). What has these tokens spells the value of the node, and a text is read
  as a value just when it spells the value, blanks around it aside (`reads_iff_spells`).
-/
import LoginForest.Proofs.Json.Tokens

namespace LoginForest.Json

/-! ## Nodes of tokens -/

mutual

/-- The tokens of a node. -/
def Node.tokens : Node → List Token
  | .null => [.null]
  | .bool b => [.bool b]
  | .number l => [.number l]
  | .text ps => [.text ps]
  | .list items => .listOpen :: ([.comma].intercalate (Node.itemParts items) ++ [.listClose])
  | .record members =>
    .recordOpen :: ([.comma].intercalate (Node.memberParts members) ++ [.recordClose])

def Node.itemParts : List Node → List (List Token)
  | [] => []
  | n :: ns => n.tokens :: Node.itemParts ns

def Node.memberParts : List (Literal × Node) → List (List Token)
  | [] => []
  | (key, n) :: rest => (.text key :: .colon :: n.tokens) :: Node.memberParts rest

end

theorem Node.itemParts_eq (items : List Node) : itemParts items = items.map tokens := by
  induction items with
  | nil => rfl
  | cons n items ih => rw [itemParts, ih, List.map_cons]

def Node.memberTokens (m : Literal × Node) : List Token := .text m.1 :: .colon :: m.2.tokens

theorem Node.memberParts_eq (members : List (Literal × Node)) :
    memberParts members = members.map memberTokens := by
  induction members with
  | nil => rfl
  | cons m members ih => rw [memberParts, ih, List.map_cons, memberTokens]

/-- Parts that are each followed by a comma. -/
def commaAfter (parts : List (List Token)) : List Token := parts.flatMap (· ++ [.comma])

theorem commaAfter_concat (parts : List (List Token)) (part : List Token) :
    commaAfter (parts ++ [part]) = commaAfter parts ++ (part ++ [.comma]) := by
  rw [commaAfter, List.flatMap_append, List.flatMap_singleton, commaAfter]

theorem intercalate_concat (parts : List (List Token)) (part : List Token) :
    [Token.comma].intercalate (parts ++ [part]) = commaAfter parts ++ part := by
  induction parts with
  | nil => exact List.intercalate_singleton
  | cons p parts ih =>
    rw [List.cons_append, List.intercalate_cons_of_ne_nil (List.append_ne_nil_of_right_ne_nil _
      (List.cons_ne_nil _ _)), ih, commaAfter, commaAfter, List.flatMap_cons]
    simp

/-- What has been read of frames that each wait for a value. -/
inductive Stacked : List Frame → List Token → Prop
  | nil : Stacked [] []
  | list {done stack ts} : Stacked stack ts →
    Stacked (.list done :: stack) (ts ++ .listOpen :: commaAfter (done.reverse.map Node.tokens))
  | member {done key stack ts} : Stacked stack ts →
    Stacked (.member done key :: stack) (ts ++ .recordOpen ::
      (commaAfter (done.reverse.map Node.memberTokens) ++ [.text key, .colon]))

/-- What has been read when the parser is in this state. -/
inductive Parsed : Parsing → List Token → Prop
  | value {stack ts} : Stacked stack ts → Parsed ⟨stack, .value⟩ ts
  | valueOrClose {stack ts} : Stacked stack ts →
    Parsed ⟨.list [] :: stack, .valueOrClose⟩ (ts ++ [.listOpen])
  | key {done stack ts} : Stacked stack ts → Parsed ⟨.record done :: stack, .key⟩
      (ts ++ .recordOpen :: commaAfter (done.reverse.map Node.memberTokens))
  | keyOrClose {stack ts} : Stacked stack ts →
    Parsed ⟨.record [] :: stack, .keyOrClose⟩ (ts ++ [.recordOpen])
  | colon {done key stack ts} : Stacked stack ts → Parsed ⟨.record done :: stack, .colon key⟩
      (ts ++ .recordOpen :: (commaAfter (done.reverse.map Node.memberTokens) ++ [.text key]))
  | item {n done stack ts} : Stacked stack ts → Parsed ⟨.list (n :: done) :: stack, .commaOrClose⟩
      (ts ++ .listOpen :: (commaAfter (done.reverse.map Node.tokens) ++ n.tokens))
  | member {m done stack ts} : Stacked stack ts →
    Parsed ⟨.record (m :: done) :: stack, .commaOrClose⟩ (ts ++ .recordOpen ::
      (commaAfter (done.reverse.map Node.memberTokens) ++ Node.memberTokens m))
  | nothing {n} : Parsed ⟨[], .nothing n⟩ n.tokens

theorem Stacked.complete {stack : List Frame} {ts : List Token} {n : Node} {s : Parsing}
    (h : Stacked stack ts) (hs : Parsing.complete n stack = some s) :
    Parsed s (ts ++ n.tokens) := by
  cases h with
  | nil =>
    obtain rfl := Option.some.inj hs
    exact .nothing
  | list h =>
    obtain rfl := Option.some.inj hs
    rw [List.append_assoc, List.cons_append]
    exact .item h
  | @member done key stack ts h =>
    obtain rfl := Option.some.inj hs
    have hread : Parsed ⟨.record ((key, n) :: done) :: stack, .commaOrClose⟩ _ := .member h
    simpa [Node.memberTokens] using hread

theorem Stacked.value {stack : List Frame} {ts : List Token} {t : Token} {s : Parsing}
    (h : Stacked stack ts) (hs : Parsing.value stack t = some s) : Parsed s (ts ++ [t]) := by
  cases t with
  | null => exact h.complete hs
  | bool b => exact h.complete hs
  | number l => exact h.complete hs
  | text ps => exact h.complete hs
  | listOpen =>
    obtain rfl := Option.some.inj hs
    exact .valueOrClose h
  | recordOpen =>
    obtain rfl := Option.some.inj hs
    exact .keyOrClose h
  | _ => cases hs

theorem Node.tokens_list (n : Node) (done : List Node) : (Node.list (n :: done).reverse).tokens =
    .listOpen :: (commaAfter (done.reverse.map Node.tokens) ++ n.tokens) ++ [.listClose] := by
  rw [Node.tokens, itemParts_eq, List.reverse_cons, List.map_append, List.map_singleton,
    intercalate_concat, List.cons_append]

theorem Node.tokens_record (m : Literal × Node) (done : List (Literal × Node)) :
    (Node.record (m :: done).reverse).tokens = .recordOpen ::
      (commaAfter (done.reverse.map Node.memberTokens) ++ Node.memberTokens m) ++
        [.recordClose] := by
  rw [Node.tokens, memberParts_eq, List.reverse_cons, List.map_append, List.map_singleton,
    intercalate_concat, List.cons_append]

/-- What is read by one step of the parser. -/
theorem parsed_step {s s' : Parsing} {ts : List Token} {t : Token} (h : Parsed s ts)
    (hs : s.step t = some s') : Parsed s' (ts ++ [t]) := by
  cases h with
  | value h => exact h.value hs
  | @valueOrClose stack ts h =>
    have hopen : Stacked (.list [] :: stack) (ts ++ [.listOpen]) := .list h
    cases t with
    | listClose =>
      have hread := h.complete hs
      rwa [List.append_assoc]
    | _ => exact hopen.value hs
  | key h =>
    cases t with
    | text key =>
      obtain rfl := Option.some.inj hs
      rw [List.append_assoc, List.cons_append]
      exact .colon h
    | _ => cases hs
  | @keyOrClose stack ts h =>
    cases t with
    | text key =>
      obtain rfl := Option.some.inj hs
      rw [List.append_assoc]
      exact .colon h
    | recordClose =>
      have hread := h.complete hs
      rwa [List.append_assoc]
    | _ => cases hs
  | @colon done key stack ts h =>
    cases t with
    | colon =>
      obtain rfl := Option.some.inj hs
      have hmember : Stacked (.member done key :: stack) _ := .member h
      simpa using Parsed.value hmember
    | _ => cases hs
  | @item n done stack ts h =>
    cases t with
    | comma =>
      obtain rfl := Option.some.inj hs
      have hlist : Stacked (.list (n :: done) :: stack) _ := .list h
      rw [List.reverse_cons, List.map_append, List.map_singleton, commaAfter_concat] at hlist
      simpa using Parsed.value hlist
    | listClose =>
      have hread := h.complete hs
      rwa [Node.tokens_list, ← List.append_assoc] at hread
    | _ => cases hs
  | @member m done stack ts h =>
    cases t with
    | comma =>
      obtain rfl := Option.some.inj hs
      have hread : Parsed ⟨.record (m :: done) :: stack, .key⟩ _ := .key h
      rw [List.reverse_cons, List.map_append, List.map_singleton, commaAfter_concat] at hread
      simpa using hread
    | recordClose =>
      have hread := h.complete hs
      rwa [Node.tokens_record, ← List.append_assoc] at hread
    | _ => cases hs
  | nothing => cases hs

/-- The node of tokens has just these tokens. -/
theorem eq_tokens_of_ofTokens? {ts : List Token} {n : Node} (h : Node.ofTokens? ts = some n) :
    ts = n.tokens := by
  unfold Node.ofTokens? at h
  split at h
  case h_1 m hs =>
    obtain rfl := Option.some.inj h
    have hstart : Parsed ⟨[], .value⟩ [] := .value .nil
    have hread := foldlM_reads parsed_step hstart hs
    rw [List.nil_append] at hread
    cases hread
    rfl
  case h_2 => cases h

/-! ## Values of nodes -/

theorem SpellsTokens.split {ts us : List Token} {cs : List Char} (h : SpellsTokens (ts ++ us) cs) :
    ∃ ds es, cs = ds ++ es ∧ SpellsTokens ts ds ∧ SpellsTokens us es := by
  induction ts generalizing cs with
  | nil => exact ⟨[], cs, rfl, spellsTokens_nil, h⟩
  | cons t ts ih =>
    obtain ⟨front, w, rest, hfront, hw, hrest, rfl⟩ := h
    obtain ⟨ds, es, rfl, hds, hes⟩ := ih hrest
    exact ⟨front ++ (w ++ ds), es, by simp, ⟨front, w, ds, hfront, hw, hds, rfl⟩, hes⟩

/-- Tokens on both sides of a mark. -/
theorem SpellsTokens.split_mark {ts us : List Token} {t : Token} {c : Char} {cs : List Char}
    (ht : ∀ w, SpellsToken t w → w = [c]) (h : SpellsTokens (ts ++ t :: us) cs) :
    ∃ ds es, cs = ds ++ c :: es ∧ SpellsTokens ts ds ∧ SpellsTokens us es := by
  obtain ⟨ds, es, rfl, hds, front, w, rest, hfront, hw, hrest, rfl⟩ := h.split
  obtain rfl := ht w hw
  have hblank : SpellsTokens [] front := hfront
  have hboth := hds.append hblank
  rw [List.append_nil] at hboth
  exact ⟨ds ++ front, rest, by simp, hboth, hrest⟩

theorem SpellsTokens.padded {t : Token} {cs : List Char} (h : SpellsTokens [t] cs) :
    Padded (SpellsToken t) cs := by
  obtain ⟨front, w, back, hfront, hw, hback, rfl⟩ := h
  exact ⟨front, w, back, hfront, hback, hw, (List.append_assoc ..).symm⟩

/-- Tokens between an opening and a closing mark. -/
theorem SpellsTokens.enclosed {ts : List Token} {t u : Token} {c d : Char} {cs : List Char}
    (ht : ∀ w, SpellsToken t w → w = [c]) (hu : ∀ w, SpellsToken u w → w = [d])
    (h : SpellsTokens (t :: (ts ++ [u])) cs) :
    Padded (fun body => ∃ inside, SpellsTokens ts inside ∧ body = c :: (inside ++ [d])) cs := by
  obtain ⟨front, w, rest, hfront, hw, hrest, rfl⟩ := h
  obtain rfl := ht w hw
  obtain ⟨inside, back, rfl, hinside, hback⟩ := hrest.split_mark hu
  exact ⟨front, c :: (inside ++ [d]), back, hfront, hback, ⟨inside, hinside, rfl⟩, by simp⟩

theorem spellsToken_comma (w : List Char) (h : SpellsToken .comma w) : w = [','] := by
  cases h
  rfl

/-- Parts between commas. -/
theorem exists_parts {tss : List (List Token)} (hne : tss ≠ []) {cs : List Char}
    (h : SpellsTokens ([.comma].intercalate tss) cs) :
    ∃ parts, List.Forall₂ SpellsTokens tss parts ∧ cs = [','].intercalate parts := by
  induction tss generalizing cs with
  | nil => exact absurd rfl hne
  | cons ts tss ih =>
    by_cases hrest : tss = []
    · subst hrest
      rw [List.intercalate_singleton] at h
      exact ⟨[cs], .cons h .nil, List.intercalate_singleton.symm⟩
    · rw [List.intercalate_cons_of_ne_nil hrest, List.append_assoc] at h
      obtain ⟨ds, es, rfl, hds, hes⟩ := h.split_mark spellsToken_comma
      obtain ⟨parts, hparts, rfl⟩ := ih hrest hes
      have hparts' : parts ≠ [] := by
        rintro rfl
        cases hparts
        exact hrest rfl
      refine ⟨ds :: parts, .cons hds hparts, ?_⟩
      rw [List.intercalate_cons_of_ne_nil hparts']
      simp

theorem forall₂_join {α β γ : Type} {R : α → β → Prop} {S : α → γ → Prop} {T : β → γ → Prop}
    (hT : ∀ a b c, R a b → S a c → T b c) {as : List α} {bs : List β} {cs : List γ}
    (h : List.Forall₂ R as bs) (h' : List.Forall₂ S as cs) : List.Forall₂ T bs cs := by
  induction h generalizing cs with
  | nil =>
    cases h'
    exact .nil
  | cons hab _ ih =>
    cases h' with
    | cons hac hrest => exact .cons (hT _ _ _ hab hac) (ih hrest)

theorem forall₂_of_toValues? {room : Nat} {items : List Node} {vs : List Value}
    (h : Node.toValues? room items = some vs) :
    List.Forall₂ (fun n v => n.toValue? room = some v) items vs := by
  induction items generalizing vs with
  | nil =>
    obtain rfl := Option.some.inj h
    exact .nil
  | cons n items ih =>
    rw [Node.toValues?, Option.bind_eq_bind, Option.bind_eq_some_iff] at h
    obtain ⟨v, hv, h⟩ := h
    rw [Option.bind_eq_bind, Option.bind_eq_some_iff] at h
    obtain ⟨rest, hrest, h⟩ := h
    obtain rfl := Option.some.inj h
    exact .cons hv (ih hrest)

theorem exists_of_toMembers? {room : Nat} {nodes : List (Literal × Node)}
    {done ms : List (String × Value)} (h : Node.toMembers? room done nodes = some ms) :
    ∃ members : List (String × Value), ms = setMembers done members ∧
      List.Forall₂ (fun m p => m.1.decode? = some p.1 ∧ m.2.toValue? room = some p.2)
        nodes members := by
  induction nodes generalizing done with
  | nil =>
    obtain rfl := Option.some.inj h
    exact ⟨[], rfl, .nil⟩
  | cons m nodes ih =>
    rw [Node.toMembers?, Option.bind_eq_bind, Option.bind_eq_some_iff] at h
    obtain ⟨key, hkey, h⟩ := h
    rw [Option.bind_eq_bind, Option.bind_eq_some_iff] at h
    obtain ⟨v, hv, h⟩ := h
    obtain ⟨members, rfl, hmembers⟩ := ih h
    exact ⟨(key, v) :: members, rfl, .cons ⟨hkey, hv⟩ hmembers⟩

section Inside

variable {room : Nat}
  (hinside : ∀ n v cs, SpellsTokens (Node.tokens n) cs → n.toValue? room = some v →
    Padded (SpellsValue room v) cs)

include hinside

theorem spellsItems_of_tokens {items : List Node} {vs : List Value} {cs : List Char}
    (h : SpellsTokens ([.comma].intercalate (items.map Node.tokens)) cs)
    (hvs : Node.toValues? room items = some vs) :
    SpellsItems (SpellsValue room) vs ('[' :: (cs ++ [']'])) := by
  have hvalues := forall₂_of_toValues? hvs
  by_cases hne : items = []
  · subst hne
    obtain rfl := List.forall₂_nil_left_iff.mp hvalues
    exact ⟨cs, [], h, .nil, by simp⟩
  · obtain ⟨parts, hparts, rfl⟩ := exists_parts (mt List.map_eq_nil_iff.mp hne) h
    rw [List.forall₂_map_left_iff] at hparts
    exact ⟨[], parts, List.forall_mem_nil _,
      forall₂_join (fun n v cs hv hcs => hinside n v cs hcs hv) hvalues hparts, rfl⟩

theorem spellsMember_of_tokens {m : Literal × Node} {p : String × Value} {cs : List Char}
    (hp : m.1.decode? = some p.1 ∧ m.2.toValue? room = some p.2)
    (h : SpellsTokens (Node.memberTokens m) cs) : SpellsMember (SpellsValue room) p cs := by
  have hcolon : ∀ w, SpellsToken .colon w → w = [':'] := fun w hw => by
    cases hw
    rfl
  have hsplit : SpellsTokens ([.text m.1] ++ .colon :: m.2.tokens) cs := h
  obtain ⟨name, value, rfl, hname, hvalue⟩ := hsplit.split_mark hcolon
  refine ⟨name, value, hname.padded.imp fun w hw => ?_, hinside _ _ _ hvalue hp.2, rfl⟩
  cases hw with
  | text hparts => exact spellsText_of_decode? hparts hp.1

theorem spellsMembers_of_tokens {nodes : List (Literal × Node)} {ms : List (String × Value)}
    {cs : List Char} (h : SpellsTokens ([.comma].intercalate (nodes.map Node.memberTokens)) cs)
    (hms : Node.toMembers? room [] nodes = some ms) : ∃ members, ms = setMembers [] members ∧
      SpellsMembers (SpellsValue room) members ('\x7b' :: (cs ++ ['\x7d'])) := by
  obtain ⟨members, rfl, hvalues⟩ := exists_of_toMembers? hms
  refine ⟨members, rfl, ?_⟩
  by_cases hne : nodes = []
  · subst hne
    obtain rfl := List.forall₂_nil_left_iff.mp hvalues
    exact ⟨cs, [], h, .nil, by simp⟩
  · obtain ⟨parts, hparts, rfl⟩ := exists_parts (mt List.map_eq_nil_iff.mp hne) h
    rw [List.forall₂_map_left_iff] at hparts
    refine ⟨[], parts, List.forall_mem_nil _,
      forall₂_join (fun m p cs hp hcs => ?_) hvalues hparts, rfl⟩
    exact spellsMember_of_tokens hinside hp hcs

end Inside

/-- What has the tokens of a node spells the value of the node. -/
theorem spells_of_tokens {room : Nat} {n : Node} {v : Value} {cs : List Char}
    (h : SpellsTokens n.tokens cs) (hv : n.toValue? room = some v) :
    Padded (SpellsValue room v) cs := by
  induction room using Nat.strong_induction_on generalizing n v cs with
  | h room ih =>
    cases n with
    | null =>
      rw [Node.toValue?] at hv
      obtain rfl := Option.some.inj hv
      refine h.padded.imp fun w hw => ?_
      cases hw
      exact SpellsPlain.null.spells room
    | bool b =>
      rw [Node.toValue?] at hv
      obtain rfl := Option.some.inj hv
      refine h.padded.imp fun w hw => ?_
      cases hw with
      | yes => exact SpellsPlain.yes.spells room
      | no => exact SpellsPlain.no.spells room
    | number l =>
      rw [Node.toValue?] at hv
      obtain ⟨x, hx, rfl⟩ := Option.map_eq_some_iff.mp hv
      refine h.padded.imp fun w hw => ?_
      cases hw with
      | number hl => exact (SpellsPlain.number hl hx).spells room
    | text ps =>
      rw [Node.toValue?] at hv
      obtain ⟨s, hs, rfl⟩ := Option.map_eq_some_iff.mp hv
      refine h.padded.imp fun w hw => ?_
      cases hw with
      | text hparts => exact (SpellsPlain.text (spellsText_of_decode? hparts hs)).spells room
    | list items =>
      cases room with
      | zero => cases hv
      | succ room =>
        rw [Node.toValue?] at hv
        obtain ⟨vs, hvs, rfl⟩ := Option.map_eq_some_iff.mp hv
        rw [Node.tokens, Node.itemParts_eq] at h
        have hmarks := h.enclosed (c := '[') (d := ']') (fun w hw => by cases hw; rfl)
          fun w hw => by cases hw; rfl
        refine hmarks.imp fun body hbody => ?_
        obtain ⟨inside, hinside, rfl⟩ := hbody
        exact .inr (.inl ⟨vs, rfl, spellsItems_of_tokens (fun n v cs => ih room (by omega))
          hinside hvs⟩)
    | record members =>
      cases room with
      | zero => cases hv
      | succ room =>
        rw [Node.toValue?] at hv
        obtain ⟨ms, hms, rfl⟩ := Option.map_eq_some_iff.mp hv
        rw [Node.tokens, Node.memberParts_eq] at h
        have hmarks := h.enclosed (c := '\x7b') (d := '\x7d') (fun w hw => by cases hw; rfl)
          fun w hw => by cases hw; rfl
        refine hmarks.imp fun body hbody => ?_
        obtain ⟨inside, hinside, rfl⟩ := hbody
        obtain ⟨members', rfl, hmembers⟩ :=
          spellsMembers_of_tokens (fun n v cs => ih room (by omega)) hinside hms
        exact .inr (.inr ⟨members', rfl, hmembers⟩)

/-- A text is read as a value just when it spells the value. -/
theorem reads_iff_spells {room : Nat} {v : Value} {s : String} :
    (∃ n, parse? s = some n ∧ n.toValue? room = some v) ↔
      Padded (SpellsValue room v) s.toList := by
  constructor
  · rintro ⟨n, hparse, hvalue⟩
    obtain ⟨ts, hts, hn⟩ := Option.bind_eq_some_iff.mp hparse
    have htokens := spellsTokens_of_tokens? hts
    rw [eq_tokens_of_ofTokens? hn] at htokens
    exact spells_of_tokens htokens hvalue
  · intro h
    have hread := (ReadAs.padded (h.imp fun _ h => h.readAs)).parse?
    rwa [String.ofList_toList] at hread

end LoginForest.Json
