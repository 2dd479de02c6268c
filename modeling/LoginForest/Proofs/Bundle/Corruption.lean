/-
  A changed document is refused. A step of the checksum forgets neither the sum before it nor the
  byte, so bytes that differ in one place have different sums however long they are
  (`ofBytes_ne_of_differOnce`). A document is accepted when all that its envelope says is right
  and not otherwise (`ofJson_eq_ok_iff`), so none is accepted that had one byte of the payload, or
  the checksum, the magic or the version changed (`corruption_refused`).
-/
import LoginForest.Proofs.Bundle.Reread

namespace LoginForest

open Json (Node Value Recovers)
open Number (twoTo)

/-! ## The checksum -/

/-- Bytes of one length that differ in just one place. -/
def Bytes.DifferOnce (a b : Bytes) : Prop :=
  a.length = b.length ∧ ∃ i : Nat, a[i]? ≠ b[i]? ∧ ∀ j : Nat, j ≠ i → a[j]? = b[j]?

theorem Bytes.differOnce_cons {x y : UInt8} (h : x ≠ y) (rest : Bytes) :
    DifferOnce (x :: rest) (y :: rest) := by
  refine ⟨rfl, 0, by simpa using h, fun j hj => ?_⟩
  cases j with
  | zero => exact absurd rfl hj
  | succ j => rfl

/-- The place splits both of them. -/
theorem Bytes.DifferOnce.split {a b : Bytes} (h : a.DifferOnce b) :
    ∃ before x y after, x ≠ y ∧ a = before ++ x :: after ∧ b = before ++ y :: after := by
  obtain ⟨hlength, i, hi, hother⟩ := h
  induction i generalizing a b with
  | zero =>
    cases a <;> cases b
    case nil.nil => exact absurd rfl hi
    case nil.cons => cases hlength
    case cons.nil => cases hlength
    case cons.cons x after y after' =>
      have hafter : after = after' := List.ext_getElem? fun j => hother (j + 1) (by omega)
      exact ⟨[], x, y, after, by simpa using hi, rfl, by rw [hafter]; rfl⟩
  | succ i ih =>
    cases a <;> cases b
    case nil.nil => exact absurd rfl hi
    case nil.cons => cases hlength
    case cons.nil => cases hlength
    case cons.cons x a y b =>
      obtain ⟨before, u, v, after, huv, rfl, rfl⟩ := ih (Nat.succ.inj hlength) hi
        fun j hj => hother (j + 1) (by omega)
      obtain rfl : x = y := by simpa using hother 0 (by omega)
      exact ⟨x :: before, u, v, after, huv, rfl, rfl⟩

namespace Checksum

/-- What undoes the factor. -/
def inverse : UInt64 := 14886173955864302971

/-- The factor is odd, so multiplying by it can be undone. -/
theorem mul_factor_inj {a b : UInt64} : a * factor = b * factor ↔ a = b := by
  refine ⟨fun h => ?_, fun h => by rw [h]⟩
  have hundo : factor * inverse = 1 := by decide
  calc a = a * factor * inverse := by rw [UInt64.mul_assoc, hundo, UInt64.mul_one]
    _ = b * factor * inverse := by rw [h]
    _ = b := by rw [UInt64.mul_assoc, hundo, UInt64.mul_one]

/-- A step keeps different sums different. -/
theorem step_left_inj {sum sum' : UInt64} (b : UInt8) : step sum b = step sum' b ↔ sum = sum' :=
  mul_factor_inj.trans (UInt64.xor_left_inj _)

/-- A step tells different bytes apart. -/
theorem step_right_inj (sum : UInt64) {b b' : UInt8} : step sum b = step sum b' ↔ b = b' :=
  mul_factor_inj.trans <| (UInt64.xor_right_inj _).trans UInt8.toUInt64_inj

/-- Any number of bytes keep different sums different. -/
theorem foldl_step_left_inj (bytes : List UInt8) {sum sum' : UInt64} :
    bytes.foldl step sum = bytes.foldl step sum' ↔ sum = sum' := by
  induction bytes generalizing sum sum' with
  | nil => rfl
  | cons b bytes ih => rw [List.foldl_cons, List.foldl_cons, ih, step_left_inj]

theorem ofBytes_ne_of_differOnce {a b : Bytes} (h : a.DifferOnce b) : ofBytes a ≠ ofBytes b := by
  obtain ⟨before, x, y, after, hxy, rfl, rfl⟩ := h.split
  unfold ofBytes
  rw [List.foldl_append, List.foldl_append, List.foldl_cons, List.foldl_cons]
  intro h
  exact hxy ((step_right_inj _).mp ((foldl_step_left_inj after).mp h))

end Checksum

/-! ## What is read as a count -/

namespace Json

/-- A literal that denotes a count has no sign, no point and no exponent, and 64 bits at most. -/
theorem Numeral.of_toNumber?_eq_count {l : Numeral} {n : Nat}
    (h : l.toNumber? = some (.count n)) : l.negative = false ∧ n < twoTo 64 ∧
      n = LoginForest.Number.valueFrom 0 l.whole := by
  obtain ⟨negative, whole, places, exponent⟩ := l
  unfold toNumber? at h
  dsimp only at h ⊢
  split at h
  case h_1 =>
    cases negative with
    | true => rw [if_pos rfl] at h; grind
    | false => rw [if_neg Bool.false_ne_true] at h; grind
  case h_2 => grind

theorem Node.count?_number_eq_some {l : Numeral} {n : Nat} :
    Node.count? (.number l) = some n ↔ l.toNumber? = some (.count n) := by
  rw [count?]
  cases l.toNumber? with
  | none => simp
  | some k => cases k <;> simp

/-- Only a count of 64 bits is read as one. -/
theorem eq_count_of_count? {v : Value} {n : Nat} (h : v.node.count? = some n) :
    v = .count n ∧ n < twoTo 64 := by
  cases v with
  | number k =>
    cases k with
    | count k =>
      obtain rfl := recovers_count k n h
      change Node.count? (.number (countNumeral n)) = some n at h
      exact ⟨rfl, (Numeral.of_toNumber?_eq_count (Node.count?_number_eq_some.mp h)).2.1⟩
    | negative k =>
      change Node.count? (.number { countNumeral k with negative := true }) = some n at h
      cases (Numeral.of_toNumber?_eq_count (Node.count?_number_eq_some.mp h)).1
    | real x =>
      by_cases hx : x.isFinite
      · obtain ⟨l, hl, hnumber⟩ := node_real hx
        change (Value.real x).node.count? = some n at h
        rw [hl, Node.count?_number_eq_some, hnumber] at h
        cases h
      · change (Value.real x).node.count? = some n at h
        rw [node_real_of_not_isFinite hx] at h
        cases h
  | _ => cases h

end Json

/-! ## Documents -/

/-- Whether an error says that a document cannot be read as what it should be. -/
def Error.isUnreadable : Error → Bool
  | .malformed | .notBundle _ | .version _ | .checksum => true
  | _ => false

/-- The document of an envelope with any values in the places of version and checksum. -/
def Envelope.documentWith (version checksum : Value) (e : Envelope) : String :=
  Json.indented [
    ("magic", .text e.magic),
    ("format_version", version),
    ("checksum", checksum),
    ("payload", .text e.payload)]

theorem Envelope.toJson_eq (e : Envelope) :
    e.toJson = e.documentWith (.count e.version) (.word e.checksum) := rfl

theorem Envelope.documentWith_reads (version checksum : Value) (e : Envelope) :
    (Json.parse? (e.documentWith version checksum)).bind ofNode? =
      (Node.countBelow? (twoTo 32) version.node).bind fun version =>
        (Node.word? checksum.node).map fun checksum => { e with version, checksum } := by
  have hmagic : Node.text? (Value.text e.magic).node = some e.magic := Json.reads_text _
  have hpayload : Node.text? (Value.text e.payload).node = some e.payload := Json.reads_text _
  rw [documentWith, Json.parse?_indented, Option.bind_some, ofNode?, Json.fields?_record]
  · cases hversion : Node.countBelow? (twoTo 32) version.node <;>
      cases hchecksum : Node.word? checksum.node <;>
        simp [hmagic, hpayload, hversion, hchecksum]
  · rfl
  · decide

namespace Bundle

/-- Whether a document is refused because it cannot be read as what it should be. -/
def Refused (s : String) : Prop := ∃ e, ofJson s = .error e ∧ e.isUnreadable

/-- A document with any values as version and checksum is refused as malformed, unless both are
counts of the width that they should have. -/
theorem ofJson_documentWith (version checksum : Value) (e : Envelope) :
    ofJson (e.documentWith version checksum) = .error .malformed ∨
      ∃ n sum, version = .count n ∧ checksum = .word sum ∧
        ofJson (e.documentWith version checksum) =
          ofEnvelope { e with version := n, checksum := sum } := by
  unfold ofJson ofParsed
  rw [Envelope.documentWith_reads]
  cases hversion : Node.countBelow? (twoTo 32) version.node with
  | none => exact .inl rfl
  | some n =>
    cases hchecksum : Node.word? checksum.node with
    | none => exact .inl rfl
    | some sum =>
      have hn := (Option.filter_eq_some_iff.mp hversion).1
      obtain ⟨k, hk, rfl⟩ := Option.map_eq_some_iff.mp hchecksum
      obtain ⟨rfl, hlt⟩ := Json.eq_count_of_count? hk
      refine .inr ⟨n, _, (Json.eq_count_of_count? hn).1, ?_, rfl⟩
      rw [Value.word, UInt64.toNat_ofNat_of_lt' hlt]

/-- An envelope of which something is wrong is refused, whatever its payload is. -/
theorem ofEnvelope_refused {e : Envelope} (h : e.magic ≠ bundleMagic ∨ bundleVersion < e.version ∨
    Checksum.ofBytes (Bytes.ofText e.payload) ≠ e.checksum) :
    ∃ error, ofEnvelope e = .error error ∧ error.isUnreadable := by
  unfold ofEnvelope
  by_cases hmagic : e.magic ≠ bundleMagic
  · exact ⟨_, if_pos hmagic, rfl⟩
  · rw [if_neg hmagic]
    by_cases hversion : bundleVersion < e.version
    · exact ⟨_, if_pos hversion, rfl⟩
    · rw [if_neg hversion]
      exact ⟨_, if_pos ((h.resolve_left hmagic).resolve_left hversion), rfl⟩

/-- A document is refused where its envelope is, whatever values say version and checksum. -/
theorem refused_documentWith {version checksum : Value} {e : Envelope}
    (h : ∀ n sum, version = .count n → checksum = .word sum →
      e.magic ≠ bundleMagic ∨ bundleVersion < n ∨
        Checksum.ofBytes (Bytes.ofText e.payload) ≠ sum) :
    Refused (e.documentWith version checksum) := by
  rcases ofJson_documentWith version checksum e with hread | ⟨n, sum, hn, hsum, hread⟩
  · exact ⟨.malformed, hread, rfl⟩
  · obtain ⟨error, herror, hunreadable⟩ :=
      ofEnvelope_refused (e := { e with version := n, checksum := sum }) (h n sum hn hsum)
    exact ⟨error, hread.trans herror, hunreadable⟩

/-- A document is accepted when its envelope has the magic, a version that is known and the
checksum of its payload, and the payload is a bundle whose scaling and forest have one width. -/
theorem ofJson_eq_ok_iff {s : String} {b : Bundle} : ofJson s = .ok b ↔
    ∃ e, (Json.parse? s).bind Envelope.ofNode? = some e ∧ e.magic = bundleMagic ∧
      e.version ≤ bundleVersion ∧ e.checksum = Checksum.ofBytes (Bytes.ofText e.payload) ∧
      ofPayload e.payload = .ok b ∧ b.scaling.width = b.forest.width := by
  unfold ofJson ofParsed
  cases hparse : (Json.parse? s).bind Envelope.ofNode? with
  | none => simp
  | some e =>
    dsimp only
    rw [ofEnvelope_eq_ok_iff]
    simp

/-- Bytes that differ in one place have different checksums. So the document of a bundle is
refused as unreadable when one byte of the payload is another, or when there is any other value in
the place of the checksum, any other text in that of the magic, or in that of the version anything
but a count up to the known one. In general a document is accepted as a bundle just when its
envelope is right and its payload is that bundle, with a scaling and a forest of one width. -/
theorem corruption_refused :
    (∀ a b : Bytes, a.DifferOnce b → Checksum.ofBytes a ≠ Checksum.ofBytes b) ∧
    (∀ b : Bundle, let e := Envelope.around b.payload
      b.toJson = e.toJson ∧
      (∀ payload, (Bytes.ofText e.payload).DifferOnce (Bytes.ofText payload) →
        Refused { e with payload }.toJson) ∧
      (∀ checksum, checksum ≠ .word e.checksum →
        Refused (e.documentWith (.count e.version) checksum)) ∧
      (∀ magic, magic ≠ e.magic → Refused { e with magic }.toJson) ∧
      ∀ version, (∀ n, n ≤ 1 → version ≠ .count n) →
        Refused (e.documentWith version (.word e.checksum))) ∧
    ∀ s b, ofJson s = .ok b ↔ ∃ e, (Json.parse? s).bind Envelope.ofNode? = some e ∧
      e.magic = bundleMagic ∧ e.version ≤ 1 ∧
      e.checksum = Checksum.ofBytes (Bytes.ofText e.payload) ∧
      ofPayload e.payload = .ok b ∧ b.scaling.width = b.forest.width := by
  refine ⟨fun _ _ => Checksum.ofBytes_ne_of_differOnce, fun b => ?_, fun s b => ofJson_eq_ok_iff⟩
  intro e
  have hword : ∀ {w sum : UInt64}, Value.word w = .word sum → sum = w := by
    intro w sum h
    simpa [Value.word, Value.count, UInt64.toNat_inj, eq_comm] using h
  refine ⟨rfl, fun payload hpayload => ?_, fun checksum hchecksum => ?_, fun magic hmagic => ?_,
    fun version hversion => ?_⟩
  · rw [Envelope.toJson_eq]
    refine refused_documentWith fun n sum _ hsum => .inr (.inr ?_)
    rw [hword hsum]
    exact (Checksum.ofBytes_ne_of_differOnce hpayload).symm
  · refine refused_documentWith fun n sum _ hsum => .inr (.inr fun heq => hchecksum ?_)
    rw [hsum, ← heq]
    rfl
  · rw [Envelope.toJson_eq]
    exact refused_documentWith fun n sum _ _ => .inl hmagic
  · refine refused_documentWith fun n sum hn _ => .inr (.inl ?_)
    by_contra hlow
    exact hversion n (Nat.not_lt.mp hlow) hn

/-- The small bundle with a bracket in place of its first brace, and with a later version. -/
theorem corruption_refused_small : ∃ rest, small.payload = String.ofList ('\x7b' :: rest) ∧
    Refused { Envelope.around small.payload with payload := String.ofList ('[' :: rest) }.toJson ∧
    Refused ((Envelope.around small.payload).documentWith (.count 2)
      (.word (Envelope.around small.payload).checksum)) := by
  obtain ⟨-, hpayload, -, -, hversion⟩ := corruption_refused.2.1 small
  obtain ⟨rest, hrest⟩ : ∃ rest, small.toValue.chars = '\x7b' :: rest := ⟨_, rfl⟩
  have hchars : small.payload = String.ofList ('\x7b' :: rest) := congrArg String.ofList hrest
  refine ⟨rest, hchars, hpayload _ ?_, hversion _ fun n hn h => ?_⟩
  · show (Bytes.ofText small.payload).DifferOnce _
    rw [hchars, Bytes.ofText_ofList, Bytes.ofText_ofList, List.flatMap_cons, List.flatMap_cons]
    exact Bytes.differOnce_cons (by decide) _
  · simp [Value.count] at h
    omega

end Bundle

end LoginForest
