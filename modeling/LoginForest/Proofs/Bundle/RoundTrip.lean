/-
  A bundle is read back from its document (`ofJson_toJson`). Every part of a bundle is read back
  from what it is written as; the document around them is a text inside a text, and its checksum
  is taken of the text that reading the outer one gives again.
-/
import LoginForest.Bundle.Json
import LoginForest.Proofs.Json.Decode
import LoginForest.Proofs.Time.ReadBack

namespace LoginForest

open Json (Node Value Reads reads_count reads_real reads_text reads_word reads_list)
open Number (twoTo)

/-! ## Parameters and statistics -/

/-- Numbers that are not finite cannot be read back. -/
def Contamination.Storable : Contamination → Prop
  | .auto => True
  | .fraction c => c.isFinite

theorem Contamination.reads {c : Contamination} (h : c.Storable) :
    Reads Contamination.ofNode? c.toValue c := by
  cases c with
  | auto =>
    unfold Reads toValue ofNode?
    rw [Json.case?_text]
    rfl
  | fraction c =>
    have hread : Node.real? (Value.real c).node = some c := reads_real h
    unfold Reads toValue ofNode?
    rw [Json.case?_record]
    show Option.map _ (Node.real? (Value.real c).node) = _
    rw [hread]
    rfl

theorem ColumnStats.ofNode?_node (c : ColumnStats Float) :
    ColumnStats.ofNode? c.toValue.node =
      (Node.real? (Value.real c.median).node).bind fun median =>
        (Node.real? (Value.real c.spread).node).bind fun spread => some ⟨median, spread⟩ := by
  unfold ofNode? toValue
  rw [Json.fields?_record]
  · simp
  · rfl
  · decide

def ColumnStats.Storable (c : ColumnStats Float) : Prop := c.median.isFinite ∧ c.spread.isFinite

theorem ColumnStats.reads {c : ColumnStats Float} (h : c.Storable) :
    Reads ColumnStats.ofNode? c.toValue c := by
  have hmedian : Node.real? (Value.real c.median).node = some c.median := reads_real h.1
  have hspread : Node.real? (Value.real c.spread).node = some c.spread := reads_real h.2
  unfold Reads
  rw [ColumnStats.ofNode?_node, hmedian, hspread]
  rfl

theorem Scaling.reads {s : Scaling Float} (h : ∀ c ∈ s.columns, c.Storable) :
    Reads Scaling.ofNode? s.toValue s := by
  have hcolumns : Node.list? ColumnStats.ofNode? (Value.list (s.columns.map _)).node =
    some s.columns := reads_list fun c hc => ColumnStats.reads (h c hc)
  unfold Reads ofNode? toValue
  rw [Json.fields?_record]
  · simp [hcolumns]
  · rfl
  · decide

/-- Statistics with a spread that is not finite are not read back. -/
theorem Scaling.ofNode?_eq_none {s : Scaling Float} {c : ColumnStats Float} (hc : c ∈ s.columns)
    (h : ¬ c.spread.isFinite) : Scaling.ofNode? s.toValue.node = none := by
  have hspread : Node.real? (Value.real c.spread).node = none := by
    rw [Json.node_real_of_not_isFinite h]
    rfl
  have hcolumn : ColumnStats.ofNode? c.toValue.node = none := by
    rw [ColumnStats.ofNode?_node, hspread]
    cases Node.real? (Value.real c.median).node <;> rfl
  have hcolumns : Node.list? ColumnStats.ofNode? (Value.list (s.columns.map _)).node = none :=
    Json.list?_eq_none hc hcolumn
  unfold ofNode? toValue
  rw [Json.fields?_record]
  · simp [hcolumns]
  · rfl
  · decide

/-! ## Trees -/

namespace Tree

/-- How deep a tree is nested, a leaf being one level. -/
def levels : Tree → Nat
  | .leaf _ => 1
  | .split _ _ left right => max left.levels right.levels + 1

/-- Counts have 64 bits and thresholds are finite. -/
def Storable : Tree → Prop
  | .leaf l => l.depth < twoTo 64 ∧ l.size < twoTo 64
  | .split feature threshold left right =>
    feature < twoTo 64 ∧ threshold.isFinite ∧ left.Storable ∧ right.Storable

theorem leafOfNode?_node {l : Leaf} (hdepth : l.depth < twoTo 64) (hsize : l.size < twoTo 64) :
    leafOfNode? (Value.record [("depth", .count l.depth), ("size", .count l.size)]).node =
      some l := by
  have hdepth' : Node.count? (Value.count l.depth).node = some l.depth := reads_count hdepth
  have hsize' : Node.count? (Value.count l.size).node = some l.size := reads_count hsize
  unfold leafOfNode?
  rw [Json.fields?_record]
  · simp [hdepth', hsize']
  · rfl
  · decide

/-- A tree is read back if it is not nested deeper than the reader goes. -/
theorem reads {t : Tree} (h : t.Storable) {room : Nat} (hroom : t.levels ≤ room) :
    Reads (ofNode? room) t.toValue t := by
  induction t generalizing room with
  | leaf l =>
    obtain ⟨room, rfl⟩ : ∃ n, room = n + 1 := ⟨room - 1, by rw [levels] at hroom; omega⟩
    unfold Reads toValue ofNode?
    rw [Json.case?_record]
    show Option.map _ (leafOfNode? _) = _
    rw [leafOfNode?_node h.1 h.2]
    rfl
  | split feature threshold left right ihl ihr =>
    obtain ⟨hfeature, hthreshold, hleft, hright⟩ := h
    rw [levels] at hroom
    obtain ⟨room, rfl⟩ : ∃ n, room = n + 1 := ⟨room - 1, by omega⟩
    have hfeature' : Node.count? (Value.count feature).node = some feature :=
      reads_count hfeature
    have hthreshold' : Node.real? (Value.real threshold).node = some threshold :=
      reads_real hthreshold
    have hleft' : ofNode? room left.toValue.node = some left := ihl hleft (by omega)
    have hright' : ofNode? room right.toValue.node = some right := ihr hright (by omega)
    unfold Reads toValue ofNode?
    rw [Json.case?_record]
    simp only [Option.bind_eq_bind, Option.bind_some]
    rw [Json.fields?_record]
    · simp [hfeature', hthreshold', hleft', hright']
    · rfl
    · decide

end Tree

/-! ## Forests -/

structure Forest.Storable (f : Forest) : Prop where
  levels : ∀ t ∈ f.trees, t.levels ≤ Forest.treeLevels
  trees : ∀ t ∈ f.trees, t.Storable
  width : f.width < twoTo 64
  sampleSize : f.sampleSize < twoTo 64
  expectedPathLength : f.expectedPathLength.isFinite
  contamination : f.contamination.Storable
  threshold : f.threshold.isFinite

theorem Forest.reads {f : Forest} (h : f.Storable) : Reads Forest.ofNode? f.toValue f := by
  have htrees : Node.list? (Tree.ofNode? treeLevels) (Value.list (f.trees.map _)).node =
    some f.trees := reads_list fun t ht => Tree.reads (h.trees t ht) (h.levels t ht)
  have hwidth : Node.count? (Value.count f.width).node = some f.width := reads_count h.width
  have hsample : Node.count? (Value.count f.sampleSize).node = some f.sampleSize :=
    reads_count h.sampleSize
  have hexpected : Node.real? (Value.real f.expectedPathLength).node =
    some f.expectedPathLength := reads_real h.expectedPathLength
  have hcontamination : Contamination.ofNode? f.contamination.toValue.node =
    some f.contamination := Contamination.reads h.contamination
  have hthreshold : Node.real? (Value.real f.threshold).node = some f.threshold :=
    reads_real h.threshold
  unfold Reads ofNode? toValue
  rw [Json.fields?_record]
  · simp [htrees, hwidth, hsample, hexpected, hcontamination, hthreshold]
  · rfl
  · decide

/-! ## Provenance -/

structure Provenance.Storable (p : Provenance) : Prop where
  trainingRows : p.trainingRows < twoTo 64
  trees : p.trees < twoTo 64
  contamination : p.contamination.Storable

theorem Time.Timestamp.reads {t : Time.Timestamp} (h : t.offset = .utc) :
    Reads Time.Timestamp.ofNode? (.text t.zuluText) t := by
  have htext : Node.text? (Value.text t.zuluText).node = some t.zuluText := reads_text _
  unfold Reads ofNode?
  rw [htext, Option.bind_some, ofJsonText?_zuluText h]

theorem Provenance.reads {p : Provenance} (h : p.Storable) :
    Reads Provenance.ofNode? p.toValue p := by
  obtain ⟨trainedAt, columns, trainingRows, trees, seed, contamination, version, hutc⟩ := p
  have htrained : Time.Timestamp.ofNode? (Value.text trainedAt.zuluText).node = some trainedAt :=
    Time.Timestamp.reads hutc
  have hcolumns : Node.list? Node.text? (Value.list (columns.map Value.text)).node =
    some columns := reads_list fun name _ => reads_text name
  have hrows : Node.count? (Value.count trainingRows).node = some trainingRows :=
    reads_count h.trainingRows
  have htrees : Node.count? (Value.count trees).node = some trees := reads_count h.trees
  have hseed : Node.optional? Node.word? (Value.optional .word seed).node = some seed :=
    Json.reads_optional fun w _ => ⟨reads_word w, fun hnull => by cases hnull⟩
  have hcontamination : Contamination.ofNode? contamination.toValue.node = some contamination :=
    Contamination.reads h.contamination
  have hversion : Node.text? (Value.text version).node = some version := reads_text version
  unfold Reads ofNode? toValue
  rw [Json.fields?_record]
  · simp [htrained, hcolumns, hrows, htrees, hseed, hcontamination, hversion,
      Time.Timestamp.toUtc_of_utc hutc]
  · rfl
  · decide

/-! ## Bundles -/

/-- A bundle that can be read back: its numbers are finite, its counts have 64 bits, its trees
are not nested too deep, and scaling and forest fit together. -/
structure Bundle.Storable (b : Bundle) : Prop where
  provenance : b.provenance.Storable
  columns : ∀ c ∈ b.scaling.columns, c.Storable
  forest : b.forest.Storable
  width : b.scaling.width = b.forest.width

namespace Bundle

theorem ofNode?_node {b : Bundle} (hprovenance : b.provenance.Storable)
    (hforest : b.forest.Storable) :
    ofNode? b.toValue.node =
      (Scaling.ofNode? b.scaling.toValue.node).map fun scaling => { b with scaling } := by
  have hprovenance' : Provenance.ofNode? b.provenance.toValue.node = some b.provenance :=
    Provenance.reads hprovenance
  have hforest' : Forest.ofNode? b.forest.toValue.node = some b.forest := Forest.reads hforest
  unfold ofNode? toValue
  rw [Json.fields?_record]
  · cases hscaling : Scaling.ofNode? b.scaling.toValue.node <;>
      simp [hprovenance', hforest', hscaling]
  · rfl
  · decide

theorem envelope_reads (payload : String) :
    (Json.parse? (Envelope.around payload).toJson).bind Envelope.ofNode? =
      some (Envelope.around payload) := by
  have hmagic : Node.text? (Value.text bundleMagic).node = some bundleMagic := reads_text _
  have hversion : Node.countBelow? (twoTo 32) (Value.count bundleVersion).node =
    some bundleVersion := Json.reads_countBelow (by decide) (by decide)
  have hchecksum : Node.word? (Value.word (Checksum.ofBytes (Bytes.ofText payload))).node =
    some (Checksum.ofBytes (Bytes.ofText payload)) := reads_word _
  have hpayload : Node.text? (Value.text payload).node = some payload := reads_text _
  rw [Envelope.toJson, Json.parse?_indented, Option.bind_some, Envelope.ofNode?,
    Json.fields?_record]
  · simp [Envelope.around, hmagic, hversion, hchecksum, hpayload]
  · rfl
  · decide

/-- Reading what is around a payload is reading the payload. -/
theorem ofJson_around (payload : String) : ofJson (Envelope.around payload).toJson = (do
    let b ← ofPayload payload
    if b.scaling.width ≠ b.forest.width then .error (.columns b.forest.width b.scaling.width)
    else return b) := by
  unfold ofJson ofParsed
  rw [envelope_reads]
  dsimp only
  rw [ofEnvelope, if_neg (by simp [Envelope.around]),
    if_neg (by simp [Envelope.around]), if_neg (by simp [Envelope.around])]
  rfl

/-- Reading the document of a bundle is reading its payload. -/
theorem ofJson_toJson_eq (b : Bundle) : ofJson b.toJson = (do
    let b' ← ofPayload b.payload
    if b'.scaling.width ≠ b'.forest.width then .error (.columns b'.forest.width b'.scaling.width)
    else return b') :=
  ofJson_around b.payload

theorem ofPayload_payload (b : Bundle) : ofPayload b.payload =
    match ofNode? b.toValue.node with
    | some b' => .ok b'
    | none => .error .malformed := by
  have hparse : (Json.parse? b.payload).bind ofNode? = ofNode? b.toValue.node := by
    unfold payload
    rw [Json.parse?_compact, Option.bind_some]
  cases hread : ofNode? b.toValue.node <;> simp only [ofPayload, hparse, hread]

/-- A bundle that can be stored is read back as it was. -/
theorem ofJson_toJson {b : Bundle} (h : b.Storable) : ofJson b.toJson = .ok b := by
  have hscaling : Scaling.ofNode? b.scaling.toValue.node = some b.scaling :=
    Scaling.reads h.columns
  rw [ofJson_toJson_eq, ofPayload_payload, ofNode?_node h.provenance h.forest, hscaling,
    Option.map_some]
  show (if b.scaling.width ≠ b.forest.width then _ else Except.ok b) = _
  rw [if_neg (not_not.mpr h.width)]

/-- A bundle with a spread that is not finite is written, but not read back. -/
theorem ofJson_toJson_of_spread {b : Bundle} {c : ColumnStats Float}
    (hc : c ∈ b.scaling.columns) (h : ¬ c.spread.isFinite) :
    ofJson b.toJson = .error .malformed := by
  have hscaling : Scaling.ofNode? b.scaling.toValue.node = none := Scaling.ofNode?_eq_none hc h
  have hnone : ofNode? b.toValue.node = none := by
    unfold ofNode? toValue
    rw [Json.fields?_record]
    · cases hprovenance : Provenance.ofNode? b.provenance.toValue.node <;>
        simp [hprovenance, hscaling]
    · rfl
    · decide
  rw [ofJson_toJson_eq, ofPayload_payload, hnone]
  rfl

/-- What is reopened is the bundle that was stored, and scores as it did. -/
theorem reopens [Elementary] {b : Bundle} (h : b.Storable) :
    ofJson b.toJson = .ok b ∧ ∀ b', ofJson b.toJson = .ok b' →
      (∀ x, b'.scoreMatrix x = b.scoreMatrix x) ∧
        ∀ attempts, b'.scoreAttempts attempts = b.scoreAttempts attempts := by
  have hread := ofJson_toJson h
  refine ⟨hread, fun b' hb' => ?_⟩
  obtain rfl : b = b' := Except.ok.inj (hread.symm.trans hb')
  exact ⟨fun _ => rfl, fun _ => rfl⟩

/-- A forest of one tree with a split, and names that have to be escaped. -/
def small : Bundle where
  provenance :=
    { trainedAt := .epoch
      columns := ["\"quoted\"\n", ""]
      trainingRows := 3
      trees := 1
      seed := some 18446744073709551615
      contamination := .fraction half
      version := "\x01"
      trainedAt_utc := rfl }
  scaling := ⟨[⟨half, Number.ofNat 1⟩, ⟨-Number.ofNat 0, half⟩]⟩
  forest :=
    { trees := [.split 1 half (.leaf ⟨1, 1⟩) (.leaf ⟨1, 2⟩)]
      width := 2
      sampleSize := 3
      expectedPathLength := Number.ofNat 1
      contamination := .auto
      threshold := half }

theorem storable_small : small.Storable := by
  have hhalf : (half : Float).isFinite := by decide +kernel
  have hone : (Number.ofNat 1).isFinite := by decide +kernel
  have hzero : (-Number.ofNat 0).isFinite := by decide +kernel
  constructor
  case provenance => exact ⟨by decide, by decide, hhalf⟩
  case columns =>
    intro c hc
    simp only [small, List.mem_cons, List.not_mem_nil, or_false] at hc
    rcases hc with rfl | rfl
    · exact ⟨hhalf, hone⟩
    · exact ⟨hzero, hhalf⟩
  case forest =>
    have htree : ∀ t ∈ small.forest.trees,
        t = .split 1 half (.leaf ⟨1, 1⟩) (.leaf ⟨1, 2⟩) := by
      simp [small]
    refine ⟨?_, ?_, by decide, by decide, hone, trivial, hhalf⟩
    · intro t ht
      rw [htree t ht]
      decide
    · intro t ht
      rw [htree t ht]
      exact ⟨by decide, hhalf, ⟨by decide, by decide⟩, by decide, by decide⟩
  case width => rfl

theorem reopens_small : ofJson small.toJson = .ok small ∧ ∀ b', ofJson small.toJson = .ok b' →
    (∀ x, b'.scoreMatrix x = small.scoreMatrix x) ∧
      ∀ attempts, b'.scoreAttempts attempts = small.scoreAttempts attempts :=
  reopens storable_small

end Bundle

end LoginForest
