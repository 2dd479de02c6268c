/-
  Names of files that end in an extension (`extension_cases`), and the formats they tell.
-/
import Mathlib.Data.List.Basic
import LoginForest.Attempt.Format

namespace LoginForest

namespace Format

/-- The end of a path that has no slash belongs to the last segment, with what stands before it
up to a slash. -/
theorem exists_segments (cs : List Char) {tail : List Char} (htail : ∀ c ∈ tail, c ≠ '/') :
    ∃ front s, segments (cs ++ tail) = front ++ [s ++ tail] ∧ (cs = [] → front = []) ∧
      ∀ c, cs.getLast? = some c → c ≠ '/' → s ≠ [] := by
  induction cs with
  | nil =>
    refine ⟨[], [], ?_, fun _ => rfl, by simp⟩
    show segments tail = [tail]
    unfold segments
    induction tail with
    | nil => rfl
    | cons c tail ih =>
      rw [List.foldr_cons, ih fun d hd => htail d (List.mem_cons_of_mem c hd),
        if_neg (htail c List.mem_cons_self)]
  | cons c cs ih =>
    obtain ⟨front, s, hsegments, hfront, hs⟩ := ih
    unfold segments at hsegments ⊢
    rw [List.cons_append, List.foldr_cons, hsegments]
    by_cases hc : c = '/'
    · rw [if_pos hc]
      refine ⟨[] :: front, s, rfl, fun h => absurd h (List.cons_ne_nil _ _), fun d hd hne => ?_⟩
      cases cs with
      | nil => exact absurd ((Option.some.inj hd).symm.trans hc) hne
      | cons c' cs => exact hs d hd hne
    · rw [if_neg hc]
      cases front with
      | nil => exact ⟨[], c :: s, rfl, fun _ => rfl, fun _ _ _ => List.cons_ne_nil _ _⟩
      | cons f front =>
        refine ⟨(c :: f) :: front, s, rfl, fun h => absurd h (List.cons_ne_nil _ _),
          fun d hd hne => ?_⟩
        cases cs with
        | nil => exact absurd (hfront rfl) (List.cons_ne_nil _ _)
        | cons c' cs => exact hs d hd hne

theorem extension?_append (s : List Char) {ext : List Char} (hext : ∀ c ∈ ext, c ≠ '.') :
    extension? (s ++ '.' :: ext) = if s = [] then none else some ext := by
  have htaken : ((s ++ '.' :: ext).reverse.takeWhile (· != '.')).reverse = ext := by
    rw [List.reverse_append, List.reverse_cons, List.append_assoc,
      List.takeWhile_append_of_pos (by simpa using hext)]
    simp
  rw [extension?, htaken, List.length_append, List.length_cons]
  by_cases hs : s = []
  · rw [if_pos hs, if_neg (by simp [hs])]
  · have hpos := List.length_pos_iff.mpr hs
    rw [if_neg hs, if_pos (by omega)]

section Extension

variable (stem : String) (ext : List Char) (hext : ∀ c ∈ ext, c ≠ '.' ∧ c ≠ '/') (hne : ext ≠ [])

include hext hne

/-- The file that a path with an extension names, and what stands before the point. -/
theorem exists_fileName : ∃ s,
    fileName? (stem ++ String.ofList ('.' :: ext)) = some (s ++ '.' :: ext) ∧
      ∀ c, stem.toList.getLast? = some c → c ≠ '/' → s ≠ [] := by
  have htail : ∀ c ∈ '.' :: ext, c ≠ '/' := by
    intro c hc
    rcases List.mem_cons.mp hc with rfl | hc
    · decide
    · exact (hext c hc).2
  obtain ⟨front, s, hsegments, -, hs⟩ := exists_segments stem.toList htail
  refine ⟨s, ?_, hs⟩
  have hkept : [s ++ '.' :: ext].filter (fun s => s ≠ [] ∧ s ≠ ['.']) = [s ++ '.' :: ext] := by
    rw [List.filter_cons_of_pos (by simp [List.append_eq_singleton_iff, hne]), List.filter_nil]
  unfold fileName?
  rw [String.toList_append, String.toList_ofList, hsegments, List.filter_append, hkept,
    List.getLast?_concat]
  split
  case h_1 heq =>
    -- an extension does not end in a point, as two points do
    obtain ⟨init, c, rfl⟩ := (List.eq_nil_or_concat' ext).resolve_left hne
    have hpoints : (s ++ '.' :: init) ++ [c] = ['.'] ++ ['.'] := by
      rw [List.append_assoc]
      exact Option.some.inj heq
    have hlast := List.singleton_inj.mp (List.append_inj_right' hpoints rfl)
    exact absurd hlast (hext c (by simp)).1
  case h_2 => rfl

/-- What follows the last point of a path is its extension, if something stands before the point
in the name of the file. -/
theorem extension_cases :
    (fileName? (stem ++ String.ofList ('.' :: ext))).bind extension? = some ext ∨
      (fileName? (stem ++ String.ofList ('.' :: ext))).bind extension? = none ∧
        ∀ c, stem.toList.getLast? = some c → c = '/' := by
  obtain ⟨s, hname, hs⟩ := exists_fileName stem ext hext hne
  rw [hname, Option.bind_some, extension?_append s fun c hc => (hext c hc).1]
  by_cases hs' : s = []
  · right
    refine ⟨if_pos hs', fun c hc => ?_⟩
    by_contra hslash
    exact hs c hc hslash hs'
  · left
    exact if_neg hs'

/-- What follows the last point is the extension where a name stands before it. -/
theorem extension_of_stem {c : Char} (h : stem.toList.getLast? = some c) (hc : c ≠ '/') :
    (fileName? (stem ++ String.ofList ('.' :: ext))).bind extension? = some ext :=
  (extension_cases stem ext hext hne).resolve_right fun hnone => hc (hnone.2 c h)

end Extension

/-- A file whose name ends in `.csv` is comma separated, also if nothing stands before. -/
theorem ofPath_csv (stem : String) : ofPath (stem ++ ".csv") = .commaSeparated := by
  have hend : ".csv" = String.ofList ('.' :: ['c', 's', 'v']) := rfl
  unfold ofPath
  rw [hend]
  rcases extension_cases stem ['c', 's', 'v'] (by simp) (by simp) with hcsv | ⟨hnone, -⟩
  · rw [hcsv]
    decide
  · rw [hnone]

theorem ofPath_tsv {stem : String} {c : Char} (h : stem.toList.getLast? = some c) (hc : c ≠ '/') :
    ofPath (stem ++ ".tsv") = .tabSeparated := by
  have hend : ".tsv" = String.ofList ('.' :: ['t', 's', 'v']) := rfl
  unfold ofPath
  rw [hend, extension_of_stem _ _ (by simp) (by simp) h hc]
  decide

theorem ofPath_jsonl {stem : String} {c : Char} (h : stem.toList.getLast? = some c)
    (hc : c ≠ '/') : ofPath (stem ++ ".jsonl") = .jsonLines := by
  have hend : ".jsonl" = String.ofList ('.' :: ['j', 's', 'o', 'n', 'l']) := rfl
  unfold ofPath
  rw [hend, extension_of_stem _ _ (by simp) (by simp) h hc]
  decide

end Format

end LoginForest
