/-
  What address literals are. Their numeric values are bounded: 32 bits for the short form and 128
  bits for the long one, so that every address has a value below `2^128` (`value_lt`). Nothing but
  digits, points and colons stands in them (`literalChars_of_ofChars?`): no slash, which ends a
  literal, and no blank, so that a field holds a literal without its prefix length as it is
  (`isFilled_normalize`).
-/
import LoginForest.Address
import LoginForest.Proofs.Text
import Mathlib.Data.List.TakeWhile
import Mathlib.Tactic.Ring

namespace LoginForest.Address

/-- A row of digits is less than the next power of its base. -/
theorem foldl_digits_lt {base : Nat} {ds : List Char}
    (h : ∀ c ∈ ds, (Number.hexDigit? c).getD 0 < base) (n : Nat) :
    ds.foldl (fun n d => n * base + (Number.hexDigit? d).getD 0) n <
      (n + 1) * base ^ ds.length := by
  induction ds generalizing n with
  | nil => simp
  | cons c ds ih =>
    have hc := h c List.mem_cons_self
    have htail := ih (fun d hd => h d (List.mem_cons_of_mem c hd))
      (n * base + (Number.hexDigit? c).getD 0)
    rw [List.foldl_cons, List.length_cons]
    calc _ < (n * base + (Number.hexDigit? c).getD 0 + 1) * base ^ ds.length := htail
      _ ≤ (n + 1) * base * base ^ ds.length := by
          apply Nat.mul_le_mul_right
          rw [Nat.add_mul, Nat.one_mul]
          omega
      _ = (n + 1) * base ^ (ds.length + 1) := by ring

theorem number?_lt {base most n : Nat} {cs rest : List Char}
    (h : number? base most cs = some (n, rest)) : n < base ^ most := by
  unfold number? at h
  dsimp only at h
  split at h
  case isTrue => cases h
  case isFalse hlength =>
    rw [Bool.or_eq_true, not_or, decide_eq_true_eq, not_lt] at hlength
    have hn := congrArg Prod.fst (Option.some.inj h)
    dsimp only at hn
    have hdigits : ∀ c ∈ digitRun base cs, (Number.hexDigit? c).getD 0 < base := by
      intro c hc
      have hpass := List.mem_takeWhile_imp hc
      cases hd : Number.hexDigit? c with
      | none => simp [hd] at hpass
      | some d => simpa [hd] using hpass
    have hlt := foldl_digits_lt hdigits 0
    have hpos : 0 < base := by
      by_contra h0
      have hbase : base = 0 := by omega
      cases hds : digitRun base cs with
      | nil => simp [hds] at hlength
      | cons c ds =>
        have := hdigits c (by rw [hds]; exact List.mem_cons_self)
        omega
    rw [hn, Nat.zero_add, Nat.one_mul] at hlt
    exact hlt.trans_le (Nat.pow_le_pow_right hpos hlength.2)

theorem byte?_lt {n : Nat} {cs rest : List Char} (h : byte? cs = some (n, rest)) : n < 256 := by
  unfold byte? at h
  split at h
  case h_2 => cases h
  case h_1 m rest' _ =>
    split at h
    case isTrue => cases h
    case isFalse hle =>
      rw [Bool.or_eq_true, not_or, decide_eq_true_eq] at hle
      have hn := congrArg Prod.fst (Option.some.inj h)
      dsimp only at hn
      omega

theorem quad?_lt {n : Nat} {cs rest : List Char} (h : quad? cs = some (n, rest)) :
    n < 4294967296 := by
  simp only [quad?, Option.bind_eq_bind, Option.bind_eq_some_iff, Option.pure_def,
    Option.some.injEq, Prod.exists, Prod.mk.injEq] at h
  obtain ⟨a, _, ha, _, _, b, _, hb, _, _, c, _, hc, _, _, d, _, hd, rfl, -⟩ := h
  have := byte?_lt ha
  have := byte?_lt hb
  have := byte?_lt hc
  have := byte?_lt hd
  omega

/-- Groups have sixteen bits, and there are no more than there is room for. -/
theorem groups_spec (first : Bool) (room : Nat) (cs : List Char) :
    (groups first room cs).values.length ≤ room ∧
      ∀ g ∈ (groups first room cs).values, g < 65536 := by
  induction room generalizing first cs with
  | zero => simp [groups]
  | succ room ih =>
    unfold groups
    split
    case h_1 n rest hquad =>
      split at hquad
      case isTrue => cases hquad
      case isFalse hroom =>
        obtain ⟨cs', -, hquad⟩ := Option.bind_eq_some_iff.mp hquad
        have hn := quad?_lt hquad
        refine ⟨?_, ?_⟩
        · simp only [List.length_cons, List.length_nil]
          omega
        · intro g hg
          simp only [List.mem_cons, List.not_mem_nil, or_false] at hg
          rcases hg with rfl | rfl <;> omega
    case h_2 =>
      split
      case h_1 => simp
      case h_2 n rest hnumber =>
        obtain ⟨cs', -, hnumber⟩ := Option.bind_eq_some_iff.mp hnumber
        have hn := number?_lt hnumber
        obtain ⟨hlength, hmore⟩ := ih false rest
        refine ⟨Nat.succ_le_succ hlength, ?_⟩
        intro g hg
        rcases List.mem_cons.mp hg with rfl | hg
        · exact hn
        · exact hmore g hg

theorem foldl_groups_lt {gs : List Nat} (h : ∀ g ∈ gs, g < 65536) (n : Nat) :
    gs.foldl (fun n g => n * 65536 + g) n < (n + 1) * 65536 ^ gs.length := by
  induction gs generalizing n with
  | nil => simp
  | cons g gs ih =>
    have hg := h g List.mem_cons_self
    have htail := ih (fun d hd => h d (List.mem_cons_of_mem g hd)) (n * 65536 + g)
    rw [List.foldl_cons, List.length_cons]
    calc _ < (n * 65536 + g + 1) * 65536 ^ gs.length := htail
      _ ≤ (n + 1) * 65536 * 65536 ^ gs.length := Nat.mul_le_mul_right _ (by omega)
      _ = (n + 1) * 65536 ^ (gs.length + 1) := by ring

theorem groupValue_lt {gs : List Nat} (h : ∀ g ∈ gs, g < 65536) (hlength : gs.length ≤ 8) :
    groupValue gs < 2 ^ 128 := by
  have hlt := foldl_groups_lt h 0
  rw [Nat.zero_add, Nat.one_mul] at hlt
  calc groupValue gs < 65536 ^ gs.length := hlt
    _ ≤ 65536 ^ 8 := Nat.pow_le_pow_right (by decide) hlength
    _ = 2 ^ 128 := by norm_num

theorem long?_lt {n : Nat} {cs rest : List Char} (h : long? cs = some (n, rest)) :
    n < 2 ^ 128 := by
  obtain ⟨hlength, hhead⟩ := groups_spec true 8 cs
  unfold long? at h
  dsimp only at h
  split at h
  case isTrue heq =>
    have hn := congrArg Prod.fst (Option.some.inj h)
    dsimp only at hn
    rw [← hn]
    exact groupValue_lt hhead heq.le
  case isFalse =>
    split at h
    case isTrue => cases h
    case isFalse =>
      simp only [Option.bind_eq_bind, Option.bind_eq_some_iff, Option.pure_def,
        Option.some.injEq, Prod.mk.injEq] at h
      obtain ⟨_, _, tail, _, rfl, -⟩ := h
      obtain ⟨htail, htail'⟩ := groups_spec true (7 - (groups true 8 cs).values.length) tail
      apply groupValue_lt
      · intro g hg
        rw [List.mem_append, List.mem_append] at hg
        rcases hg with (hg | hg) | hg
        · exact hhead g hg
        · rw [List.eq_of_mem_replicate hg]
          decide
        · exact htail' g hg
      · rw [List.length_append, List.length_append, List.length_replicate]
        omega

/-- Every address has 128 bits at most. -/
theorem value_lt {s : String} {a : Address} (h : read? s = some a) : a.value < 2 ^ 128 := by
  unfold read? ofChars? at h
  split at h
  case h_1 n hquad =>
    obtain rfl := Option.some.inj h
    exact (quad?_lt hquad).trans (by decide)
  case h_2 => cases h
  case h_3 =>
    split at h
    case h_1 n hlong =>
      obtain rfl := Option.some.inj h
      exact long?_lt hlong
    case h_2 => cases h

/-! ## Characters -/

/-- The characters that literals are made of. -/
def IsLiteralChar (c : Char) : Prop := c = '.' ∨ c = ':' ∨ (Number.hexDigit? c).isSome

theorem isBlank_of_hexDigit? {c : Char} (h : (Number.hexDigit? c).isSome) :
    Text.isBlank c = false := by
  apply Text.isBlank_of_visible
  unfold Number.hexDigit? at h
  simp only [Char.isDigit, Bool.and_eq_true, decide_eq_true_eq, ge_iff_le, Char.le_def,
    UInt32.le_iff_toNat_le] at h
  have hval : c.val.toNat = c.toNat := rfl
  rw [hval] at h
  split at h
  case isTrue hc => simp at hc; omega
  case isFalse =>
    split at h
    case isTrue hc => simp at hc; omega
    case isFalse =>
      split at h
      case isTrue hc => simp at hc; omega
      case isFalse => cases h

theorem IsLiteralChar.isBlank {c : Char} (h : IsLiteralChar c) : Text.isBlank c = false := by
  rcases h with rfl | rfl | hdigit
  · decide
  · decide
  · exact isBlank_of_hexDigit? hdigit

theorem IsLiteralChar.ne_slash {c : Char} (h : IsLiteralChar c) : c ≠ '/' := by
  rintro rfl
  rcases h with heq | heq | hdigit
  · exact absurd heq (by decide)
  · exact absurd heq (by decide)
  · exact absurd hdigit (by decide)

/-- What a reader leaves of a text when it takes characters of literals off its front. -/
def Takes (cs rest : List Char) : Prop :=
  ∃ front, (∀ c ∈ front, IsLiteralChar c) ∧ cs = front ++ rest

theorem Takes.refl (cs : List Char) : Takes cs cs := ⟨[], List.forall_mem_nil _, rfl⟩

theorem Takes.trans {cs cs' rest : List Char} (h : Takes cs cs') (h' : Takes cs' rest) :
    Takes cs rest := by
  obtain ⟨front, hfront, rfl⟩ := h
  obtain ⟨front', hfront', rfl⟩ := h'
  exact ⟨front ++ front', List.forall_mem_append.mpr ⟨hfront, hfront'⟩,
    (List.append_assoc ..).symm⟩

theorem Takes.literalChars {cs : List Char} (h : Takes cs []) : ∀ c ∈ cs, IsLiteralChar c := by
  obtain ⟨front, hfront, rfl⟩ := h
  rwa [List.append_nil]

theorem takes_number? {base most n : Nat} {cs rest : List Char}
    (h : number? base most cs = some (n, rest)) : Takes cs rest := by
  unfold number? at h
  dsimp only at h
  split at h
  case isTrue => cases h
  case isFalse =>
    have hrest := congrArg Prod.snd (Option.some.inj h)
    dsimp only at hrest
    refine ⟨digitRun base cs, fun c hc => ?_, ?_⟩
    · have hpass := List.mem_takeWhile_imp hc
      refine .inr (.inr ?_)
      cases hd : Number.hexDigit? c with
      | none => simp [hd] at hpass
      | some d => rfl
    · rw [← hrest]
      exact (List.prefix_iff_eq_append.mp (List.takeWhile_prefix _)).symm

theorem takes_byte? {n : Nat} {cs rest : List Char} (h : byte? cs = some (n, rest)) :
    Takes cs rest := by
  unfold byte? at h
  split at h
  case h_2 => cases h
  case h_1 m rest' hnumber =>
    split at h
    case isTrue => cases h
    case isFalse =>
      obtain ⟨-, rfl⟩ := Prod.mk.inj (Option.some.inj h)
      exact takes_number? hnumber

theorem takes_skip? {c : Char} (hc : IsLiteralChar c) {cs rest : List Char}
    (h : skip? c cs = some rest) : Takes cs rest := by
  cases cs with
  | nil => cases h
  | cons d cs =>
    rw [skip?] at h
    split at h
    case isTrue heq =>
      obtain rfl := Option.some.inj h
      exact ⟨[d], List.forall_mem_singleton.mpr (heq ▸ hc), rfl⟩
    case isFalse => cases h

theorem takes_quad? {n : Nat} {cs rest : List Char} (h : quad? cs = some (n, rest)) :
    Takes cs rest := by
  simp only [quad?, Option.bind_eq_bind, Option.bind_eq_some_iff, Option.pure_def,
    Option.some.injEq, Prod.exists, Prod.mk.injEq] at h
  obtain ⟨a, _, ha, _, ha', b, _, hb, _, hb', c, _, hc, _, hc', d, _, hd, -, rfl⟩ := h
  have hpoint : IsLiteralChar '.' := .inl rfl
  have hfront := ((takes_byte? ha).trans (takes_skip? hpoint ha')).trans
    ((takes_byte? hb).trans (takes_skip? hpoint hb'))
  exact hfront.trans (((takes_byte? hc).trans (takes_skip? hpoint hc')).trans (takes_byte? hd))

theorem takes_between? {first : Bool} {cs rest : List Char} (h : between? first cs = some rest) :
    Takes cs rest := by
  cases first with
  | true =>
    obtain rfl := Option.some.inj h
    exact .refl cs
  | false => exact takes_skip? (c := ':') (.inr (.inl rfl)) h

theorem takes_groups (first : Bool) (room : Nat) (cs : List Char) :
    Takes cs (groups first room cs).rest := by
  induction room generalizing first cs with
  | zero => exact .refl cs
  | succ room ih =>
    unfold groups
    split
    case h_1 n rest hquad =>
      split at hquad
      case isTrue => cases hquad
      case isFalse =>
        obtain ⟨cs', hbetween, hquad⟩ := Option.bind_eq_some_iff.mp hquad
        exact (takes_between? hbetween).trans (takes_quad? hquad)
    case h_2 =>
      split
      case h_1 => exact .refl cs
      case h_2 n rest hnumber =>
        obtain ⟨cs', hbetween, hnumber⟩ := Option.bind_eq_some_iff.mp hnumber
        exact ((takes_between? hbetween).trans (takes_number? hnumber)).trans (ih false rest)

theorem takes_long? {n : Nat} {cs rest : List Char} (h : long? cs = some (n, rest)) :
    Takes cs rest := by
  have hhead := takes_groups true 8 cs
  unfold long? at h
  dsimp only at h
  split at h
  case isTrue =>
    obtain ⟨-, rfl⟩ := Prod.mk.inj (Option.some.inj h)
    exact hhead
  case isFalse =>
    split at h
    case isTrue => cases h
    case isFalse =>
      simp only [Option.bind_eq_bind, Option.bind_eq_some_iff, Option.pure_def,
        Option.some.injEq, Prod.mk.injEq] at h
      obtain ⟨_, hfirst, tail, hsecond, -, rfl⟩ := h
      have hcolon : IsLiteralChar ':' := .inr (.inl rfl)
      exact hhead.trans ((takes_skip? hcolon hfirst).trans
        ((takes_skip? hcolon hsecond).trans (takes_groups ..)))

theorem literalChars_of_ofChars? {cs : List Char} {a : Address} (h : ofChars? cs = some a) :
    ∀ c ∈ cs, IsLiteralChar c := by
  unfold ofChars? at h
  split at h
  case h_1 n hquad => exact (takes_quad? hquad).literalChars
  case h_2 => cases h
  case h_3 =>
    split at h
    case h_1 n hlong => exact (takes_long? hlong).literalChars
    case h_2 => cases h

/-- A literal has characters, none of which is a blank. -/
theorem noBlank_of_ofChars? {cs : List Char} {a : Address} (h : ofChars? cs = some a) :
    cs ≠ [] ∧ Text.NoBlank cs := by
  refine ⟨?_, fun c hc => (literalChars_of_ofChars? h c hc).isBlank⟩
  rintro rfl
  have hnone : ofChars? [] = none := by decide
  rw [hnone] at h
  cases h

/-! ## Host addresses -/

/-- A literal, which has no slash, stays as it is. -/
theorem normalize_ofList {cs : List Char} (h : ∀ c ∈ cs, c ≠ '/') :
    normalize (String.ofList cs) = String.ofList cs := by
  have hliteral : cs.takeWhile (· != '/') = cs :=
    List.takeWhile_eq_self_iff.mpr fun c hc => by simpa using h c hc
  unfold normalize
  simp only [String.toList_ofList, hliteral, List.drop_length]
  split
  case h_1 => exact if_neg (by simp)
  case h_2 => rfl

/-- A host address loses its prefix length once and for all. -/
theorem normalize_normalize (s : String) : normalize (normalize s) = normalize s := by
  have hcases : normalize s = s ∨
      normalize s = String.ofList (s.toList.takeWhile (· != '/')) := by
    unfold normalize
    dsimp only
    split
    case h_1 =>
      split
      case isTrue => exact .inr rfl
      case isFalse => exact .inl rfl
    case h_2 => exact .inl rfl
  rcases hcases with hself | hliteral
  · rw [hself, hself]
  · rw [hliteral]
    exact normalize_ofList fun c hc => by simpa using List.mem_takeWhile_imp hc

theorem isFilled_normalize {s : String} (h : Text.IsFilled s) : Text.IsFilled (normalize s) := by
  unfold normalize
  dsimp only
  split
  case h_1 a hliteral =>
    split
    case isTrue =>
      obtain ⟨hne, hblank⟩ := noBlank_of_ofChars? hliteral
      exact Text.isFilled_of_noBlank hne hblank
    case isFalse => exact h
  case h_2 => exact h

end LoginForest.Address
