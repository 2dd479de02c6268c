/-
  Whatever a bundle holds, its document is read back as that bundle or refused; no other one comes
  out of it (`eq_of_ofJson_toJson`). Every part recovers what it is written as. A file that holds
  the document is read as the document is.
-/
import LoginForest.Proofs.Bundle.RoundTrip
import LoginForest.Proofs.Bytes

namespace LoginForest

open Json (Node Value Recovers recovers_count recovers_real recovers_list reads_text reads_word)

/-! ## Parts of a bundle -/

theorem Contamination.recovers (c : Contamination) :
    Recovers Contamination.ofNode? c.toValue c := by
  cases c with
  | auto => exact (Contamination.reads (c := .auto) trivial).recovers
  | fraction c =>
    intro b hb
    unfold toValue ofNode? at hb
    rw [Json.case?_record] at hb
    obtain ⟨x, hx, rfl⟩ := Option.map_eq_some_iff.mp hb
    rw [recovers_real c x hx]

theorem ColumnStats.recovers (c : ColumnStats Float) :
    Recovers ColumnStats.ofNode? c.toValue c := by
  intro b hb
  rw [ColumnStats.ofNode?_node] at hb
  simp only [Option.bind_eq_some_iff] at hb
  obtain ⟨median, hmedian, spread, hspread, hb⟩ := hb
  obtain rfl := Option.some.inj hb
  rw [recovers_real _ median hmedian, recovers_real _ spread hspread]

theorem Scaling.recovers (s : Scaling Float) : Recovers Scaling.ofNode? s.toValue s := by
  intro b hb
  unfold ofNode? toValue at hb
  rw [Json.fields?_record] at hb
  · simp [Option.bind_eq_some_iff] at hb
    obtain ⟨columns, hcolumns, rfl⟩ := hb
    rw [recovers_list (fun c _ => ColumnStats.recovers c) columns hcolumns]
  · rfl
  · decide

theorem Tree.recovers_leaf (l : Leaf) : Recovers leafOfNode?
    (.record [("depth", .count l.depth), ("size", .count l.size)]) l := by
  intro b hb
  unfold leafOfNode? at hb
  rw [Json.fields?_record] at hb
  · simp [Option.bind_eq_some_iff] at hb
    obtain ⟨depth, hdepth, size, hsize, rfl⟩ := hb
    rw [recovers_count _ depth hdepth, recovers_count _ size hsize]
  · rfl
  · decide

/-- A tree that is nested too deep is not read as another one. -/
theorem Tree.recovers (t : Tree) (room : Nat) : Recovers (ofNode? room) t.toValue t := by
  induction t generalizing room with
  | leaf l =>
    cases room with
    | zero => intro b hb; cases hb
    | succ room =>
      intro b hb
      unfold toValue ofNode? at hb
      rw [Json.case?_record] at hb
      obtain ⟨l', hl', rfl⟩ := Option.map_eq_some_iff.mp hb
      rw [recovers_leaf l l' hl']
  | split feature threshold left right ihl ihr =>
    cases room with
    | zero => intro b hb; cases hb
    | succ room =>
      intro b hb
      unfold toValue ofNode? at hb
      rw [Json.case?_record] at hb
      simp only [Option.bind_eq_bind, Option.bind_some] at hb
      rw [Json.fields?_record] at hb
      · simp [Option.bind_eq_some_iff] at hb
        obtain ⟨feature', hfeature, threshold', hthreshold, left', hleft, right', hright, rfl⟩ := hb
        rw [recovers_count _ feature' hfeature, recovers_real _ threshold' hthreshold,
          ihl room left' hleft, ihr room right' hright]
      · rfl
      · decide

theorem Forest.recovers (f : Forest) : Recovers Forest.ofNode? f.toValue f := by
  intro b hb
  unfold ofNode? toValue at hb
  rw [Json.fields?_record] at hb
  · simp [Option.bind_eq_some_iff] at hb
    obtain ⟨trees, htrees, width, hwidth, sampleSize, hsample, expected, hexpected, contamination,
      hcontamination, threshold, hthreshold, rfl⟩ := hb
    rw [recovers_list (fun t _ => Tree.recovers t treeLevels) trees htrees,
      recovers_count _ width hwidth, recovers_count _ sampleSize hsample,
      recovers_real _ expected hexpected, Contamination.recovers _ contamination hcontamination,
      recovers_real _ threshold hthreshold]
  · rfl
  · decide

theorem Provenance.recovers (p : Provenance) : Recovers Provenance.ofNode? p.toValue p := by
  obtain ⟨trainedAt, columns, trainingRows, trees, seed, contamination, version, hutc⟩ := p
  have htrained : Time.Timestamp.ofNode? (Value.text trainedAt.zuluText).node = some trainedAt :=
    Time.Timestamp.reads hutc
  have hcolumns : Node.list? Node.text? (Value.list (columns.map Value.text)).node =
    some columns := Json.reads_list fun name _ => reads_text name
  have hseed : Node.optional? Node.word? (Value.optional .word seed).node = some seed :=
    Json.reads_optional fun w _ => ⟨reads_word w, fun hnull => by cases hnull⟩
  have hversion : Node.text? (Value.text version).node = some version := reads_text version
  intro b hb
  unfold ofNode? toValue at hb
  rw [Json.fields?_record] at hb
  · simp [htrained, hcolumns, hseed, hversion, Time.Timestamp.toUtc_of_utc hutc,
      Option.bind_eq_some_iff] at hb
    obtain ⟨trainingRows', hrows, trees', htrees, contamination', hcontamination, rfl⟩ := hb
    obtain rfl := recovers_count _ trainingRows' hrows
    obtain rfl := recovers_count _ trees' htrees
    obtain rfl := Contamination.recovers _ contamination' hcontamination
    rfl
  · rfl
  · decide

/-! ## Bundles -/

namespace Bundle

theorem recovers (b : Bundle) : Recovers Bundle.ofNode? b.toValue b := by
  intro b' hb'
  unfold ofNode? toValue at hb'
  rw [Json.fields?_record] at hb'
  · simp [Option.bind_eq_some_iff] at hb'
    obtain ⟨provenance, hprovenance, scaling, hscaling, forest, hforest, rfl⟩ := hb'
    rw [Provenance.recovers _ provenance hprovenance, Scaling.recovers _ scaling hscaling,
      Forest.recovers _ forest hforest]
  · rfl
  · decide

/-- An envelope is opened when all that it says is right and its payload is a bundle whose scaling
and forest have one width. -/
theorem ofEnvelope_eq_ok_iff {e : Envelope} {b : Bundle} : ofEnvelope e = .ok b ↔
    e.magic = bundleMagic ∧ e.version ≤ bundleVersion ∧
      e.checksum = Checksum.ofBytes (Bytes.ofText e.payload) ∧ ofPayload e.payload = .ok b ∧
      b.scaling.width = b.forest.width := by
  have hread : (do
      let b ← ofPayload e.payload
      if b.scaling.width ≠ b.forest.width then .error (.columns b.forest.width b.scaling.width)
      else return b) = (Except.ok b : Except Error Bundle) ↔
        ofPayload e.payload = .ok b ∧ b.scaling.width = b.forest.width := by
    cases ofPayload e.payload with
    | error error => simp [bind, Except.bind]
    | ok b' =>
      by_cases hwidth : b'.scaling.width = b'.forest.width
      · simp [bind, Except.bind, hwidth, pure, Except.pure]
        rintro rfl
        exact hwidth
      · simp [bind, Except.bind, hwidth]
        rintro rfl
        exact hwidth
  unfold ofEnvelope
  by_cases hmagic : e.magic = bundleMagic
  · by_cases hversion : e.version ≤ bundleVersion
    · by_cases hsum : e.checksum = Checksum.ofBytes (Bytes.ofText e.payload)
      · rw [if_neg (not_not.mpr hmagic), if_neg (Nat.not_lt.mpr hversion),
          if_neg (not_not.mpr hsum.symm), hread]
        simp [hmagic, hversion, hsum]
      · simp [hmagic, hversion, hsum, Nat.not_lt.mpr hversion, Ne.symm hsum]
    · simp [hmagic, hversion, Nat.lt_of_not_le hversion]
  · simp [hmagic]

/-- What the document of a bundle is read as is the bundle. -/
theorem eq_of_ofJson_toJson {b b' : Bundle} (h : ofJson b.toJson = .ok b') : b' = b := by
  rw [ofJson_toJson_eq, ofPayload_payload] at h
  cases hread : ofNode? b.toValue.node with
  | none =>
    rw [hread] at h
    cases h
  | some b₀ =>
    obtain rfl := b.recovers b₀ hread
    rw [hread] at h
    change (if b₀.scaling.width ≠ b₀.forest.width then Except.error _ else .ok b₀) = .ok b' at h
    split at h
    · cases h
    · exact (Except.ok.inj h).symm

/-- A file with the document of a bundle is read as the document is. -/
theorem load_ofText (s : String) : load (some (Bytes.ofText s)) = ofJson s := by
  have hparse : Json.parseBytes? (Bytes.ofText s) = Json.parse? s := by
    unfold Json.parseBytes?
    rw [Bytes.text?_ofText]
  unfold ofJson
  rw [← hparse]
  rfl

end Bundle

end LoginForest
