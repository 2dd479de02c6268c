/-
  Texts that stand for an address. Such a text is a literal, or the literal of a single host with
  the prefix length of its kind behind a slash (`Names`); normalizing leaves the literal, which is
  all that is read of an address. Since no literal has a slash in it, a text is split in one way
  only, and a text that stands for no address stays as it is and is not read
  (`normalize_reads`).
-/
import LoginForest.Proofs.Address

namespace LoginForest.Address

/-- A text stands for an address and is written with this literal of it. -/
inductive Names : String → Address → String → Prop
  | literal {s : String} {a : Address} (h : read? s = some a) : Names s a s
  | host4 {t : String} {v : Nat} (h : read? t = some (.v4 v)) : Names (t ++ "/32") (.v4 v) t
  | host6 {t : String} {v : Nat} (h : read? t = some (.v6 v)) : Names (t ++ "/128") (.v6 v) t

section Literals

variable {s t : String} {a : Address}

theorem not_mem_slash_of_read? (h : read? s = some a) : '/' ∉ s.toList :=
  fun hslash => (literalChars_of_ofChars? h _ hslash).ne_slash rfl

/-- A literal stays as it is. -/
theorem normalize_of_read? (h : read? s = some a) : normalize s = s := by
  have hchars : ∀ c ∈ s.toList, c ≠ '/' := fun c hc heq => not_mem_slash_of_read? h (heq ▸ hc)
  have hself := normalize_ofList hchars
  rwa [String.ofList_toList] at hself

/-- A literal loses the prefix length of a single host. -/
theorem normalize_host (h : read? t = some a) (hs : s.toList = t.toList ++ '/' :: a.hostLength) :
    normalize s = t := by
  have hchars : ∀ c ∈ t.toList, (c != '/') = true := fun c hc =>
    bne_iff_ne.mpr (literalChars_of_ofChars? h c hc).ne_slash
  have hliteral : s.toList.takeWhile (· != '/') = t.toList := by
    rw [hs, List.takeWhile_append_of_pos hchars, List.takeWhile_cons_of_neg (by decide),
      List.append_nil]
  have hread : ofChars? t.toList = some a := h
  unfold normalize
  dsimp only
  rw [hliteral, hread]
  dsimp only
  rw [hs, List.drop_left, if_pos rfl, String.ofList_toList]

theorem Names.toList (h : Names s a t) :
    s = t ∨ s.toList = t.toList ++ '/' :: a.hostLength := by
  cases h with
  | literal h => exact .inl rfl
  | host4 h => exact .inr String.toList_append
  | host6 h => exact .inr String.toList_append

theorem names_host (h : read? t = some a) (hs : s.toList = t.toList ++ '/' :: a.hostLength) :
    Names s a t := by
  cases a with
  | v4 v =>
    have hend : (t ++ "/32").toList = t.toList ++ '/' :: (v4 v).hostLength := String.toList_append
    obtain rfl := String.toList_inj.mp (hs.trans hend.symm)
    exact .host4 h
  | v6 v =>
    have hend : (t ++ "/128").toList = t.toList ++ '/' :: (v6 v).hostLength :=
      String.toList_append
    obtain rfl := String.toList_inj.mp (hs.trans hend.symm)
    exact .host6 h

theorem Names.read? (h : Names s a t) : Address.read? t = some a := by
  cases h <;> assumption

theorem Names.normalize (h : Names s a t) : Address.normalize s = t := by
  rcases h.toList with rfl | hs
  · exact normalize_of_read? h.read?
  · exact normalize_host h.read? hs

/-- Only a text that stands for an address loses its end. -/
theorem names_or_normalize_eq (s : String) : (∃ a t, Names s a t) ∨ normalize s = s := by
  unfold normalize
  dsimp only
  split
  case h_2 => exact .inr rfl
  case h_1 a hliteral =>
    split
    case isFalse => exact .inr rfl
    case isTrue hhost =>
      refine .inl ⟨a, String.ofList (s.toList.takeWhile (· != '/')), names_host ?_ ?_⟩
      · rw [Address.read?, String.toList_ofList, hliteral]
      · rw [String.toList_ofList, ← hhost]
        exact List.prefix_iff_eq_append.mp (List.takeWhile_prefix _) |>.symm

/-- What is read of a normalized text is read of the literal in it. -/
theorem read?_normalize_iff : read? (normalize s) = some a ↔ ∃ t, Names s a t := by
  constructor
  · intro h
    rcases names_or_normalize_eq s with ⟨a', t, hnames⟩ | hself
    · rw [hnames.normalize, hnames.read?] at h
      obtain rfl := Option.some.inj h
      exact ⟨t, hnames⟩
    · rw [hself] at h
      exact ⟨s, .literal h⟩
  · rintro ⟨t, hnames⟩
    rw [hnames.normalize, hnames.read?]

theorem status_of_read? [Elementary] (h : read? s = some a) :
    (feature (some s)).2 = .parsed := by
  have hne : s ≠ "" := by
    rintro rfl
    exact (noBlank_of_ofChars? h).1 rfl
  rw [feature, if_neg (mt String.isEmpty_iff.mp hne), h]

theorem feature_of_read?_eq_none [Elementary] (h : read? s = none) : feature (some s) =
    (Number.ofNat 0, if s = "" then .missing else .invalid) := by
  rw [feature]
  by_cases hs : s = ""
  · rw [if_pos hs, if_pos (String.isEmpty_iff.mpr hs)]
  · rw [if_neg hs, if_neg (mt String.isEmpty_iff.mp hs), h]

end Literals

/-- Normalizing is done once and for all. What is read of a normalized text is a value just when
the text is a literal of the value, of either kind, or such a literal with the prefix length of a
single host. A literal stays, a host address leaves its literal, and both are understood. Any other
text stays too, and its feature is zero: as a missing address if it is empty, as an invalid one if
it is not. -/
theorem normalize_reads [Elementary] (s : String) :
    normalize (normalize s) = normalize s ∧
    (∀ v, (read? (normalize s)).map value = some v ↔
      (∃ a, read? s = some a ∧ a.value = v) ∨
      (∃ t, read? t = some (.v4 v) ∧ s = t ++ "/32") ∨
      ∃ t, read? t = some (.v6 v) ∧ s = t ++ "/128") ∧
    (∀ a t, Names s a t → normalize s = t ∧ read? t = some a ∧
      (feature (some t)).2 = .parsed) ∧
    ((∀ a t, ¬ Names s a t) → normalize s = s ∧
      feature (some s) = (Number.ofNat 0, if s = "" then .missing else .invalid)) := by
  refine ⟨normalize_normalize s, fun v => ?_, fun a t h => ?_, fun h => ?_⟩
  · simp only [Option.map_eq_some_iff, read?_normalize_iff]
    constructor
    · rintro ⟨a, ⟨t, hread | hread | hread⟩, rfl⟩
      · exact .inl ⟨a, hread, rfl⟩
      · exact .inr (.inl ⟨t, hread, rfl⟩)
      · exact .inr (.inr ⟨t, hread, rfl⟩)
    · rintro (⟨a, hread, rfl⟩ | ⟨t, hread, rfl⟩ | ⟨t, hread, rfl⟩)
      · exact ⟨a, ⟨s, .literal hread⟩, rfl⟩
      · exact ⟨.v4 v, ⟨t, .host4 hread⟩, rfl⟩
      · exact ⟨.v6 v, ⟨t, .host6 hread⟩, rfl⟩
  · exact ⟨h.normalize, h.read?, status_of_read? h.read?⟩
  · have hself : normalize s = s :=
      (names_or_normalize_eq s).resolve_left fun ⟨a, t, hnames⟩ => h a t hnames
    refine ⟨hself, feature_of_read?_eq_none (Option.eq_none_iff_forall_not_mem.mpr ?_)⟩
    exact fun a hread => h a s (.literal hread)

/-- A host of either kind, and a network that is none. -/
theorem normalize_reads_hosts :
    normalize "10.0.0.1/32" = "10.0.0.1" ∧ normalize "::1/128" = "::1" ∧
      (read? (normalize "::1/128")).map value = some 1 ∧
      normalize "10.0.0.0/8" = "10.0.0.0/8" ∧
      feature (some "10.0.0.0/8") = (Number.ofNat 0, .invalid) := by
  have hread4 : read? "10.0.0.1" = some (.v4 167772161) := by decide +kernel
  have hread6 : read? "::1" = some (.v6 1) := by decide +kernel
  obtain ⟨-, -, hhost, -⟩ := normalize_reads "10.0.0.1/32"
  obtain ⟨-, hvalue, hhost', -⟩ := normalize_reads "::1/128"
  obtain ⟨-, -, hnames, hother⟩ := normalize_reads "10.0.0.0/8"
  have hnetwork : ∀ a t, ¬ Names "10.0.0.0/8" a t := by
    intro a t h
    have hread := (hnames a t h).2.1
    have hnone : read? (normalize "10.0.0.0/8") = none := by decide +kernel
    rw [← (hnames a t h).1, hnone] at hread
    cases hread
  exact ⟨(hhost _ _ (.host4 hread4)).1, (hhost' _ _ (.host6 hread6)).1,
    (hvalue 1).mpr (.inr (.inr ⟨"::1", hread6, rfl⟩)), hother hnetwork⟩

end LoginForest.Address
