/-
  The bytes of a text: they are read back as the text (`text?_ofText`) and are those of its
  characters (`ofText_ofList`), so that only a line feed has the byte of one.
-/
import LoginForest.Text.Bytes

namespace LoginForest.Bytes

theorem toList_loop (bs : ByteArray) (i : Nat) (done : List UInt8) :
    ByteArray.toList.loop bs i done = done.reverse ++ bs.data.toList.drop i := by
  fun_induction ByteArray.toList.loop bs i done with
  | case1 i done h ih =>
    have hi : i < bs.data.toList.length := by simpa using h
    have hget : bs.get! i = bs.data.toList[i] := by
      rw [Array.getElem_toList]
      exact getElem!_pos bs.data i h
    rw [ih, List.drop_eq_getElem_cons hi, List.reverse_cons, List.append_assoc, hget]
    rfl
  | case2 i done h =>
    have hi : bs.data.toList.length ≤ i := by simpa using h
    rw [List.drop_eq_nil_of_le hi, List.append_nil]

theorem toList_eq (bs : ByteArray) : bs.toList = bs.data.toList := by
  unfold ByteArray.toList
  rw [toList_loop, List.reverse_nil, List.nil_append, List.drop_zero]

theorem text?_ofText (s : String) : text? (ofText s) = some s := by
  have hbytes : (ofText s).toByteArray = s.toUTF8 := by
    unfold ofText
    rw [toList_eq]
    ext1
    exact List.data_toByteArray
  unfold text?
  rw [hbytes]
  exact dif_pos s.isValidUTF8

/-- The bytes of a text are those of its characters. -/
theorem ofText_ofList (cs : List Char) :
    ofText (String.ofList cs) = cs.flatMap String.utf8EncodeChar := by
  show (cs.flatMap String.utf8EncodeChar).toByteArray.toList = _
  rw [toList_eq, List.data_toByteArray]

theorem mapM_text?_ofText (texts : List String) :
    (texts.map ofText).mapM text? = some texts := by
  have hpure : text? ∘ ofText = pure := funext text?_ofText
  rw [List.mapM_map, hpure, List.mapM_pure, List.map_id']
  rfl

/-- Only a line feed is written with the byte of one. -/
theorem eq_lineFeed_of_mem {c : Char} (h : (10 : UInt8) ∈ String.utf8EncodeChar c) :
    c = '\n' := by
  have hbyte : ∀ n, (10 : UInt8) = UInt8.ofNat n → n % 256 = 10 := fun n hn =>
    (congrArg UInt8.toNat hn).symm
  apply Char.toNat_inj.mp
  show c.val.toNat = 10
  unfold String.utf8EncodeChar at h
  dsimp only at h
  split at h
  case isTrue =>
    have := hbyte _ (List.mem_singleton.mp h)
    omega
  case isFalse =>
    -- the other characters take bytes from 128 on
    repeat' split at h
    all_goals
      simp only [List.mem_cons, List.not_mem_nil, or_false] at h
      exfalso
    · rcases h with h | h <;> exact absurd (hbyte _ h) (by omega)
    · rcases h with h | h | h <;> exact absurd (hbyte _ h) (by omega)
    · rcases h with h | h | h | h <;> exact absurd (hbyte _ h) (by omega)

theorem lineFeed_not_mem_ofText {s : String} (h : '\n' ∉ s.toList) :
    (10 : UInt8) ∉ ofText s := by
  rw [← String.ofList_toList (s := s), ofText_ofList]
  intro hmem
  obtain ⟨c, hc, hbyte⟩ := List.mem_flatMap.mp hmem
  exact h (eq_lineFeed_of_mem hbyte ▸ hc)

end LoginForest.Bytes
