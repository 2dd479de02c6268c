/-
  Typed data off the nodes of written values. `Reads read v a` says that the reader gives `a` for
  what the value `v` is written as, and `Recovers read v a` that it gives `a` or nothing; the
  lemmas go from the parts of a record, a list or an option to the whole.
-/
import LoginForest.Json.Decode
import LoginForest.Proofs.Json.Parsing

namespace LoginForest.Json

/-- Reading what `v` is written as gives `a`. -/
def Reads {α : Type} (read : Node → Option α) (v : Value) (a : α) : Prop := read v.node = some a

/-! ## Texts and numbers -/

theorem reads_text (s : String) : Reads Node.text? (.text s) s := decode?_pieces s

theorem node_count (n : Nat) : (Value.count n).node = .number (countNumeral n) := rfl

theorem reads_count {n : Nat} (h : n < LoginForest.Number.twoTo 64) :
    Reads Node.count? (.count n) n := by
  unfold Reads
  rw [node_count, Node.count?, toNumber?_count h]

theorem reads_word (w : UInt64) : Reads Node.word? (.word w) w := by
  have h : Node.count? (Value.word w).node = some w.toNat := reads_count w.toNat_lt
  unfold Reads Node.word?
  rw [h, Option.map_some, UInt64.ofNat_toNat]

theorem reads_countBelow {n bound : Nat} (h : n < bound)
    (hbound : bound ≤ LoginForest.Number.twoTo 64) :
    Reads (Node.countBelow? bound) (.count n) n := by
  have hread : Node.count? (Value.count n).node = some n :=
    reads_count (Nat.lt_of_lt_of_le h hbound)
  unfold Reads Node.countBelow?
  rw [hread, Option.filter_some, if_pos (decide_eq_true h)]

/-- A finite number is written as a literal that denotes it. -/
theorem node_real {x : Float} (hx : x.isFinite) :
    ∃ n, (Value.real x).node = .number n ∧ n.toNumber? = some (.real x) := by
  obtain ⟨n, hwell, hchars, hnumber⟩ := exists_numeral_real hx
  refine ⟨n, ?_, hnumber⟩
  simp only [Value.real, Value.node, Number.node, Number.literal?, hchars, Option.bind_some,
    numeral?_chars hwell, Option.map_some, Option.getD_some]

/-- A finite number is read back bit for bit. -/
theorem reads_real {x : Float} (hx : x.isFinite) : Reads Node.real? (.real x) x := by
  obtain ⟨n, hnode, hnumber⟩ := node_real hx
  unfold Reads
  rw [hnode, Node.real?, hnumber]

/-- A number that is not finite is written as null. -/
theorem node_real_of_not_isFinite {x : Float} (hx : ¬ x.isFinite) :
    (Value.real x).node = .null := by
  simp only [Value.real, Value.node, Number.node, Number.literal?,
    compactChars?_of_not_isFinite hx, Option.bind_none, Option.map_none, Option.getD_none]

/-! ## Options and lists -/

theorem reads_optional {α : Type} {read : Node → Option α} {write : α → Value} {o : Option α}
    (h : ∀ a, o = some a → Reads read (write a) a ∧ (write a).node ≠ .null) :
    Reads (Node.optional? read) (.optional write o) o := by
  cases o with
  | none => rfl
  | some a =>
    obtain ⟨hread, hnull⟩ := h a rfl
    show Node.optional? read (write a).node = some (some a)
    rw [Reads] at hread
    cases hnode : (write a).node with
    | null => exact absurd hnode hnull
    | _ =>
      rw [hnode] at hread
      simp [Node.optional?, hread]

theorem itemNodes_eq (items : List Value) : Value.itemNodes items = items.map Value.node := by
  induction items with
  | nil => rfl
  | cons v vs ih => rw [Value.itemNodes, ih, List.map_cons]

theorem reads_list {α : Type} {read : Node → Option α} {write : α → Value} {as : List α}
    (h : ∀ a ∈ as, Reads read (write a) a) :
    Reads (Node.list? read) (.list (as.map write)) as := by
  rw [Reads, Value.node, Node.list?, itemNodes_eq, List.map_map]
  induction as with
  | nil => rfl
  | cons a as ih =>
    have hhead : read ((Value.node ∘ write) a) = some a := h a List.mem_cons_self
    rw [List.map_cons, List.mapM_cons, hhead, ih fun b hb => h b (List.mem_cons_of_mem a hb)]
    rfl

/-- A list with an item that cannot be read is not read. -/
theorem list?_eq_none {α β : Type} {read : Node → Option α} {write : β → Value} {bs : List β}
    {b : β} (hb : b ∈ bs) (h : read (write b).node = none) :
    Node.list? read (Value.list (bs.map write)).node = none := by
  rw [Value.node, Node.list?, itemNodes_eq, List.map_map]
  induction bs with
  | nil => cases hb
  | cons c cs ih =>
    rw [List.map_cons, List.mapM_cons]
    rcases List.mem_cons.mp hb with rfl | hmem
    · rw [Function.comp_apply, h]
      rfl
    · rw [ih hmem]
      cases read ((Value.node ∘ write) c) <;> rfl

/-! ## Nothing else is read -/

/-- Reading what `v` is written as gives `a` or nothing. -/
def Recovers {α : Type} (read : Node → Option α) (v : Value) (a : α) : Prop :=
  ∀ b, read v.node = some b → b = a

theorem Reads.recovers {α : Type} {read : Node → Option α} {v : Value} {a : α}
    (h : Reads read v a) : Recovers read v a := by
  intro b hb
  rw [Reads, hb] at h
  exact Option.some.inj h

/-- A count of more than 64 bits is not read as another one. -/
theorem recovers_count (n : Nat) : Recovers Node.count? (.count n) n := by
  by_cases h : n < LoginForest.Number.twoTo 64
  · exact (reads_count h).recovers
  · intro b hb
    rw [node_count, Node.count?] at hb
    split at hb
    case h_1 k hk => exact absurd hk (toNumber?_ne_count h k)
    case h_2 => cases hb

theorem recovers_real (x : Float) : Recovers Node.real? (.real x) x := by
  by_cases h : x.isFinite
  · exact (reads_real h).recovers
  · intro b hb
    rw [node_real_of_not_isFinite h] at hb
    cases hb

theorem recovers_list {α : Type} {read : Node → Option α} {write : α → Value} {as : List α}
    (h : ∀ a ∈ as, Recovers read (write a) a) :
    Recovers (Node.list? read) (.list (as.map write)) as := by
  intro bs hbs
  rw [Value.node, Node.list?, itemNodes_eq, List.map_map] at hbs
  induction as generalizing bs with
  | nil => exact (Option.some.inj hbs).symm
  | cons a as ih =>
    rw [List.map_cons, List.mapM_cons] at hbs
    simp only [Option.bind_eq_bind, Option.bind_eq_some_iff] at hbs
    obtain ⟨b, hb, bs', hbs', hcons⟩ := hbs
    obtain rfl : b :: bs' = bs := Option.some.inj hcons
    rw [h a List.mem_cons_self b hb, ih (fun c hc => h c (List.mem_cons_of_mem a hc)) bs' hbs']

/-! ## Records and cases -/

/-- The fields of a record that was written with all of them. -/
def filledFields (members : List (String × Value)) : Fields :=
  members.map fun m => (m.1, some m.2.node)

def emptyFields (members : List (String × Value)) : Fields := members.map fun m => (m.1, none)

theorem fill?_next {done : List (String × Value)} {key : String} (v : Value)
    (rest : List (String × Value)) (h : key ∉ done.map Prod.fst) :
    Fields.fill? key v.node (filledFields done ++ (key, none) :: emptyFields rest) =
      some (filledFields done ++ (key, some v.node) :: emptyFields rest) := by
  induction done with
  | nil => simp [filledFields, Fields.fill?]
  | cons m done ih =>
    rw [List.map_cons, List.mem_cons, not_or] at h
    have htail := ih h.2
    rw [filledFields] at htail ⊢
    rw [List.map_cons, List.cons_append, Fields.fill?, if_neg (Ne.symm h.1), htail]
    rfl

/-- A record is read into the fields that it was written with. -/
theorem fields?_record (short : Bool) {names : List String} {members : List (String × Value)}
    (hnames : members.map Prod.fst = names) (h : names.Nodup) :
    (Value.record members).node.fields? short names = some (filledFields members) := by
  subst hnames
  have hfold : ∀ done rest : List (String × Value), (done ++ rest).map Prod.fst |>.Nodup →
      (Value.memberNodes rest).foldlM
        (fun fields (m : Literal × Node) => do Fields.fill? (← m.1.decode?) m.2 fields)
        (filledFields done ++ emptyFields rest) = some (filledFields (done ++ rest)) := by
    intro done rest
    induction rest generalizing done with
    | nil => intro _; simp [Value.memberNodes, filledFields, emptyFields]
    | cons m rest ih =>
      obtain ⟨key, v⟩ := m
      intro hnodup
      have hkey : key ∉ done.map Prod.fst := by
        rw [List.map_append, List.map_cons, List.nodup_append] at hnodup
        intro hmem
        exact hnodup.2.2 key hmem key List.mem_cons_self rfl
      have hstep := fill?_next v rest hkey
      have hrest := ih (done ++ [(key, v)]) (by simpa using hnodup)
      unfold Value.memberNodes
      rw [List.foldlM_cons, decode?_pieces]
      show (Fields.fill? key v.node (filledFields done ++ (key, none) :: emptyFields rest)).bind
        _ = _
      rw [hstep]
      simpa [filledFields] using hrest
  have hempty : (members.map Prod.fst).map (fun name => (name, (none : Option Node))) =
      emptyFields members := List.map_map
  unfold Value.node Node.fields?
  rw [hempty]
  exact hfold [] members h

section Fields

variable {α : Type} (read : Node → Option α) (name key : String) (v : Value)
  (rest : List (String × Value))

theorem find?_filledFields_cons : (filledFields ((key, v) :: rest)).find? name =
    if name = key then some v.node else (filledFields rest).find? name := by
  simp only [Fields.find?, filledFields, List.map_cons, List.lookup_cons]
  by_cases h : name = key
  · simp [h]
  · simp [h, beq_eq_false_iff_ne.mpr h]

@[simp] theorem required?_filledFields_cons :
    (filledFields ((key, v) :: rest)).required? name read =
      if name = key then read v.node else (filledFields rest).required? name read := by
  unfold Fields.required?
  rw [find?_filledFields_cons]
  split <;> rfl

@[simp] theorem optional?_filledFields_cons :
    (filledFields ((key, v) :: rest)).optional? name read =
      if name = key then v.node.optional? read else (filledFields rest).optional? name read := by
  rw [Fields.optional?, find?_filledFields_cons]
  by_cases h : name = key
  · rw [if_pos h, if_pos h]
  · rw [if_neg h, if_neg h]
    rfl

end Fields

theorem case?_text (s : String) : (Value.text s).node.case? = some (s, none) := by
  show Option.map _ (pieces s).decode? = _
  rw [decode?_pieces]
  rfl

theorem case?_record (key : String) (v : Value) :
    (Value.record [(key, v)]).node.case? = some (key, some v.node) := by
  show Option.map _ (pieces key).decode? = _
  rw [decode?_pieces]
  rfl

end LoginForest.Json
