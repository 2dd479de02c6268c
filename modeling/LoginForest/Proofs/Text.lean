/-
  Texts that trimming leaves as they are, and not empty: what is left after trimming is one, and
  so is every text that starts and ends with a visible character.
-/
import LoginForest.Text.Blank
import Mathlib.Data.List.DropRight

namespace LoginForest.Text

/-- Visible ASCII characters are no blanks. -/
theorem isBlank_of_visible {c : Char} (h : 33 ≤ c.toNat ∧ c.toNat ≤ 126) : isBlank c = false := by
  unfold isBlank
  dsimp only
  generalize c.toNat = n at h
  simp only [Bool.or_eq_false_iff, Bool.and_eq_false_iff, decide_eq_false_iff_not,
    beq_eq_false_iff_ne]
  omega

theorem isBlank_of_isAlphanum {c : Char} (h : c.isAlphanum) : isBlank c = false := by
  have hranges : ((decide (c.val ≥ 65 ∧ c.val ≤ 90) ||
      (decide (c.val ≥ 97) && decide (c.val ≤ 122))) ||
        (decide (c.val ≥ 48) && decide (c.val ≤ 57))) = true := h
  simp only [Bool.or_eq_true, Bool.and_eq_true, decide_eq_true_eq, ge_iff_le,
    UInt32.le_iff_toNat_le, UInt32.toNat_ofNat] at hranges
  have hval : c.val.toNat = c.toNat := rfl
  rw [hval] at hranges
  apply isBlank_of_visible
  omega

/-- No character is a blank. -/
def NoBlank (cs : List Char) : Prop := ∀ c ∈ cs, isBlank c = false

theorem NoBlank.nil : NoBlank [] := by simp [NoBlank]

theorem NoBlank.cons {c : Char} {cs : List Char} (hc : isBlank c = false) (h : NoBlank cs) :
    NoBlank (c :: cs) := by
  intro d hd
  rcases List.mem_cons.mp hd with rfl | hd
  · exact hc
  · exact h d hd

theorem NoBlank.append {cs ds : List Char} (h : NoBlank cs) (h' : NoBlank ds) :
    NoBlank (cs ++ ds) := by
  intro c hc
  rcases List.mem_append.mp hc with hc | hc
  · exact h c hc
  · exact h' c hc

/-- A text that is read from a field as it is. -/
def IsFilled (s : String) : Prop := filled? s = some s

instance (s : String) : Decidable (IsFilled s) := inferInstanceAs (Decidable (filled? s = some s))

theorem trimChars_eq (cs : List Char) : trimChars cs = (cs.dropWhile isBlank).rdropWhile isBlank :=
  rfl

/-- Trimming leaves nothing of blanks, and of blanks only. -/
theorem trimChars_eq_nil_iff {cs : List Char} : trimChars cs = [] ↔ ∀ c ∈ cs, isBlank c := by
  rw [trimChars_eq, List.rdropWhile_eq_nil_iff, ← List.dropWhile_eq_nil_iff,
    List.dropWhile_idempotent, List.dropWhile_eq_nil_iff]

theorem trimChars_of_ends {cs : List Char} (hhead : ∀ h : cs ≠ [], isBlank (cs.head h) = false)
    (hlast : ∀ h : cs ≠ [], isBlank (cs.getLast h) = false) : trimChars cs = cs := by
  have hfront : cs.dropWhile isBlank = cs := by
    cases cs with
    | nil => rfl
    | cons c cs => exact List.dropWhile_cons_of_neg (by simpa using hhead (List.cons_ne_nil c cs))
  rw [trimChars_eq, hfront, List.rdropWhile_eq_self_iff]
  intro hne
  rw [hlast hne]
  exact Bool.false_ne_true

theorem isFilled_ofList {cs : List Char} (hne : cs ≠ []) (h : trimChars cs = cs) :
    IsFilled (String.ofList cs) := by
  unfold IsFilled filled?
  rw [String.toList_ofList, h]
  cases cs with
  | nil => exact absurd rfl hne
  | cons c cs => rfl

theorem isFilled_of_noBlank {cs : List Char} (hne : cs ≠ []) (h : NoBlank cs) :
    IsFilled (String.ofList cs) :=
  isFilled_ofList hne <| trimChars_of_ends (fun h' => h _ (List.head_mem h'))
    fun h' => h _ (List.getLast_mem h')

theorem IsFilled.trimChars_eq {s : String} (h : IsFilled s) : trimChars s.toList = s.toList := by
  unfold IsFilled filled? at h
  split at h
  case h_1 => cases h
  case h_2 cs _ =>
    have hlist := congrArg String.toList (Option.some.inj h)
    rwa [String.toList_ofList] at hlist

/-- Blanks around a text do not count. -/
theorem trimChars_between {front cs back : List Char} (hfront : ∀ c ∈ front, isBlank c)
    (hback : ∀ c ∈ back, isBlank c) : trimChars (front ++ cs ++ back) = trimChars cs := by
  have htail : ∀ ds : List Char, (ds ++ back).rdropWhile isBlank = ds.rdropWhile isBlank := by
    intro ds
    unfold List.rdropWhile
    rw [List.reverse_append, List.dropWhile_append_of_pos (by simpa using hback)]
  rw [trimChars_eq, trimChars_eq, List.append_assoc, List.dropWhile_append_of_pos hfront,
    List.dropWhile_append]
  split
  case isTrue hempty =>
    rw [List.isEmpty_iff.mp hempty, List.dropWhile_eq_nil_iff.mpr hback]
  case isFalse => exact htail _

/-- Blanks at the ends are trimmed, and no more where nothing else is blank. -/
theorem trimChars_pad {front cs back : List Char} (hfront : ∀ c ∈ front, isBlank c)
    (hback : ∀ c ∈ back, isBlank c) (h : NoBlank cs) : trimChars (front ++ cs ++ back) = cs := by
  rw [trimChars_between hfront hback]
  exact trimChars_of_ends (fun h' => h _ (List.head_mem h')) fun h' => h _ (List.getLast_mem h')

/-- What trimming drops are blanks at the ends. -/
theorem exists_pad (cs : List Char) : ∃ front back, cs = front ++ trimChars cs ++ back ∧
    (∀ c ∈ front, isBlank c) ∧ ∀ c ∈ back, isBlank c := by
  refine ⟨cs.takeWhile isBlank, (cs.dropWhile isBlank).rtakeWhile isBlank, ?_, ?_, ?_⟩
  · rw [trimChars_eq, List.append_assoc, List.rdropWhile_append_rtakeWhile,
      List.takeWhile_append_dropWhile]
  · exact fun c hc => List.mem_takeWhile_imp hc
  · exact fun c hc => List.mem_rtakeWhile_imp hc

theorem isBlank_head_trimChars {cs : List Char} (hne : trimChars cs ≠ []) :
    isBlank ((trimChars cs).head hne) = false := by
  have hfront : cs.dropWhile isBlank ≠ [] := by
    intro hnil
    rw [trimChars_eq, hnil] at hne
    exact hne rfl
  exact ((List.rdropWhile_prefix isBlank (cs.dropWhile isBlank)).head hne) ▸
    List.head_dropWhile_not isBlank hfront

theorem isBlank_getLast_trimChars {cs : List Char} (hne : trimChars cs ≠ []) :
    isBlank ((trimChars cs).getLast hne) = false :=
  Bool.eq_false_iff.mpr (List.rdropWhile_last_not isBlank (cs.dropWhile isBlank) hne)

/-- Trimming leaves nothing to trim. -/
theorem trimChars_trimChars (cs : List Char) : trimChars (trimChars cs) = trimChars cs :=
  trimChars_of_ends isBlank_head_trimChars isBlank_getLast_trimChars

/-- What a field is read as is read as it is. -/
theorem isFilled_of_filled? {s t : String} (h : filled? s = some t) : IsFilled t := by
  unfold filled? at h
  split at h
  case h_1 => cases h
  case h_2 cs hne =>
    obtain rfl := Option.some.inj h
    exact isFilled_ofList hne (trimChars_trimChars s.toList)

/-- A text with something in it and no blank at either end. -/
structure IsTrimmed (s : String) : Prop where
  ne : s ≠ ""
  head : ∀ c, s.toList.head? = some c → isBlank c = false
  last : ∀ c, s.toList.getLast? = some c → isBlank c = false

theorem IsFilled.isTrimmed {s : String} (h : IsFilled s) : IsTrimmed s := by
  have htrim := h.trimChars_eq
  have hne : s ≠ "" := by
    rintro rfl
    cases h
  have hchars : s.toList ≠ [] := mt String.toList_eq_nil_iff.mp hne
  have hleft : trimChars s.toList ≠ [] := by rwa [htrim]
  refine ⟨hne, fun c hc => ?_, fun c hc => ?_⟩
  · rw [List.head?_eq_some_head hchars] at hc
    obtain rfl := Option.some.inj hc
    simpa only [htrim] using isBlank_head_trimChars hleft
  · rw [List.getLast?_eq_some_getLast hchars] at hc
    obtain rfl := Option.some.inj hc
    simpa only [htrim] using isBlank_getLast_trimChars hleft

end LoginForest.Text
