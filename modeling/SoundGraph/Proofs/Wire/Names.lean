import SoundGraph.Catalog.Builtin
import SoundGraph.Proofs.Catalog.Registration
import SoundGraph.Proofs.Graph.Violations
import SoundGraph.Proofs.Wire.Checked

/-! What a catalog does to a decoder. It has its say only after the whole file has been read, so an error of the reader
comes first; then the names are gone through, definition by definition and node by node, and the first one that
is not in the catalog is reported, before the definitions are counted. Registration never takes a name away. -/

namespace SoundGraph.Wire

def Named (catalog : Catalog) (ds : List Definition) : Prop :=
  ∀ d ∈ ds, ∀ n ∈ d.graph.nodes.toList, n.name ∈ catalog.names

/-- The report of a node whose name is not in the catalog, while those of the nodes before it are: of all nodes of the
definitions before its own, and of those in front of it in its own. -/
inductive FirstUnknown (catalog : Catalog) (ds : List Definition) : WireError → Prop where
  | intro {i k : Nat} {d : Definition} {n : Node} (hd : ds[i]? = some d) (hn : d.graph.nodes[k]? = some n)
    (hunknown : n.name ∉ catalog.names)
    (hdefinitions : ∀ l < i, ∀ d', ds[l]? = some d' → ∀ n' ∈ d'.graph.nodes.toList, n'.name ∈ catalog.names)
    (hnodes : ∀ l < k, ∀ n', d.graph.nodes[l]? = some n' → n'.name ∈ catalog.names) :
    FirstUnknown catalog ds (.unknownGenerator d.name k n.name)

def single : List Definition → Except WireError Definition
  | [d] => .ok d
  | ds => .error (.corrupt ⟨8, .definitionCount ds.length⟩)

variable {catalog : Catalog} {ds : List Definition} {e : WireError}

theorem knows_iff {d : Definition} : Knows catalog d ↔ ∀ n ∈ d.graph.nodes.toList, n.name ∈ catalog.names :=
  forall₂_congr fun _ _ => Catalog.contains_iff

theorem named_iff : Named catalog ds ↔ ∀ d ∈ ds, Knows catalog d :=
  forall₂_congr fun _ _ => knows_iff.symm

theorem checkName_eq_error_iff {definition : String} {node : Node × Nat} :
    checkName catalog definition node = .error e ↔
      node.1.name ∉ catalog.names ∧ e = .unknownGenerator definition node.2 node.1.name := by
  rw [← Catalog.contains_iff, checkName]
  split
  · next h => simp [h]
  · next h => simp [h, eq_comm]

/-- The check of the names stops at the first one that is unknown. -/
theorem checkNames_eq_error_iff : checkNames catalog ds = .error e ↔ FirstUnknown catalog ds e := by
  simp only [checkNames, forM_eq_error_iff, forM_checkName_eq_ok_iff, checkName_eq_error_iff, checkName_eq_ok_iff,
    Catalog.contains_iff, knows_iff]
  refine ⟨?_, ?_⟩
  · rintro ⟨i, d, hd, ⟨k, ⟨n, j⟩, hn, ⟨hunknown, rfl⟩, hnodes⟩, hdefinitions⟩
    obtain ⟨rfl, hn⟩ := Graph.getElem?_zipIdx_eq_some_iff.1 hn
    refine .intro hd hn hunknown hdefinitions fun l hl n' hn' => ?_
    exact hnodes l hl (n', l) (Graph.getElem?_zipIdx_eq_some_iff.2 ⟨rfl, hn'⟩)
  · rintro (@⟨i, k, d, n, hd, hn, hunknown, hdefinitions, hnodes⟩)
    have hn' : d.graph.nodes.toList.zipIdx[k]? = some (n, k) := Graph.getElem?_zipIdx_eq_some_iff.2 ⟨rfl, hn⟩
    refine ⟨i, d, hd, ⟨k, (n, k), hn', ⟨hunknown, rfl⟩, fun l hl p hp => ?_⟩, hdefinitions⟩
    exact hnodes l hl p.1 (Graph.getElem?_zipIdx_eq_some_iff.1 hp).2

theorem FirstUnknown.not_named (h : FirstUnknown catalog ds e) : ¬ Named catalog ds := by
  cases h with
  | intro hd hn hunknown =>
    have hmem := Array.mem_toList_iff.2 (Array.mem_of_getElem? hn)
    exact fun hnamed => hunknown (hnamed _ (List.mem_of_getElem? hd) _ hmem)

theorem named_or_firstUnknown (catalog : Catalog) (ds : List Definition) :
    Named catalog ds ∨ ∃ e, FirstUnknown catalog ds e := by
  cases h : checkNames catalog ds with
  | ok u => exact .inl (named_iff.2 (checkNames_eq_ok_iff.1 h))
  | error e => exact .inr ⟨e, checkNames_eq_error_iff.1 h⟩

namespace Decoder

variable {bytes : List UInt8}

theorem decodeAll_plain_eq (bytes : List UInt8) :
    Wire.decodeAll bytes = (readDefinitions true bytes).mapError .corrupt := by
  rw [Wire.decodeAll, decodeAll]
  cases readDefinitions true bytes <;> rfl

/-- With a catalog a decoder is the one without, and then the check of the names. -/
theorem decodeAll_eq_bind (catalog : Catalog) (bytes : List UInt8) :
    (⟨some catalog⟩ : Decoder).decodeAll bytes =
      Wire.decodeAll bytes >>= fun ds => checkNames catalog ds >>= fun _ => .ok ds := by
  rw [decodeAll_plain_eq, decodeAll]
  rfl

theorem decodeAll_of_error (h : Wire.decodeAll bytes = .error e) :
    (⟨some catalog⟩ : Decoder).decodeAll bytes = .error e := by
  rw [decodeAll_eq_bind, h]
  rfl

theorem decodeAll_of_named (h : Wire.decodeAll bytes = .ok ds) (hnamed : Named catalog ds) :
    (⟨some catalog⟩ : Decoder).decodeAll bytes = .ok ds := by
  have hnames : checkNames catalog ds = .ok () := checkNames_eq_ok_iff.2 (named_iff.1 hnamed)
  rw [decodeAll_eq_bind, h]
  exact bind_eq_ok_iff.2 ⟨ds, rfl, bind_eq_ok_iff.2 ⟨(), hnames, rfl⟩⟩

theorem decodeAll_of_firstUnknown (h : Wire.decodeAll bytes = .ok ds) (hfirst : FirstUnknown catalog ds e) :
    (⟨some catalog⟩ : Decoder).decodeAll bytes = .error e := by
  rw [decodeAll_eq_bind, h]
  exact bind_eq_error_iff.2 (.inr ⟨ds, rfl, bind_eq_error_iff.2 (.inl (checkNames_eq_error_iff.2 hfirst))⟩)

/-- The number of definitions is looked at when nothing else is wrong. -/
theorem decode_eq_bind (decoder : Decoder) (bytes : List UInt8) :
    decoder.decode bytes = decoder.decodeAll bytes >>= single := by
  rw [decode]
  rfl

theorem decode_of_error {decoder : Decoder} (h : decoder.decodeAll bytes = .error e) :
    decoder.decode bytes = .error e := by
  rw [decode_eq_bind, h]
  rfl

theorem decode_of_ok {decoder : Decoder} (h : decoder.decodeAll bytes = .ok ds) :
    decoder.decode bytes = single ds := by
  rw [decode_eq_bind, h]
  rfl

/-- Nothing that has been registered goes away, so what is accepted stays so. -/
theorem decodeAll_run (h : (⟨some catalog⟩ : Decoder).decodeAll bytes = .ok ds) (more : List Registration) :
    (⟨some (catalog.run more)⟩ : Decoder).decodeAll bytes = .ok ds := by
  obtain ⟨hbytes, hknows⟩ := decodeAll_eq_ok_iff.1 h
  refine decodeAll_eq_ok_iff.2 ⟨hbytes, fun catalog' heq d hd n hn => ?_⟩
  cases heq
  exact Catalog.contains_mono (Catalog.prefix_run catalog more) (hknows catalog rfl d hd n hn)

end Decoder

/-- A decoder with a catalog is the plain decoder and then a filter on the names. What the plain one fails with it fails
with; if all names are in the catalog it gives what the plain one gives, and otherwise the report of the first
that is not, whether or not one definition was asked for. So an accepted file stays accepted when more is
registered, and the number of definitions is looked at last. -/
theorem decodeAll_filtered (catalog : Catalog) (bytes : List UInt8) :
    let checked : Decoder := ⟨some catalog⟩
    (∀ e, decodeAll bytes = .error e → checked.decodeAll bytes = .error e ∧ checked.decode bytes = .error e) ∧
      (∀ ds, decodeAll bytes = .ok ds →
        Named catalog ds ∧ checked.decodeAll bytes = .ok ds ∧ checked.decode bytes = single ds ∨
          ¬ Named catalog ds ∧ ∃ e, FirstUnknown catalog ds e ∧
            checked.decodeAll bytes = .error e ∧ checked.decode bytes = .error e) ∧
      ∀ more : List Registration,
        (∀ ds, checked.decodeAll bytes = .ok ds →
          (⟨some (catalog.run more)⟩ : Decoder).decodeAll bytes = .ok ds) ∧
        ∀ d, checked.decode bytes = .ok d → (⟨some (catalog.run more)⟩ : Decoder).decode bytes = .ok d := by
  intro checked
  refine ⟨fun e h => ?_, fun ds h => ?_, fun more => ⟨fun ds h => Decoder.decodeAll_run h more, fun d h => ?_⟩⟩
  · have hall : checked.decodeAll bytes = .error e := Decoder.decodeAll_of_error h
    exact ⟨hall, Decoder.decode_of_error hall⟩
  · rcases named_or_firstUnknown catalog ds with hnamed | ⟨e, hfirst⟩
    · have hall : checked.decodeAll bytes = .ok ds := Decoder.decodeAll_of_named h hnamed
      exact .inl ⟨hnamed, hall, Decoder.decode_of_ok hall⟩
    · have hall : checked.decodeAll bytes = .error e := Decoder.decodeAll_of_firstUnknown h hfirst
      exact .inr ⟨hfirst.not_named, e, hfirst, hall, Decoder.decode_of_error hall⟩
  · rw [Decoder.decode_eq_bind] at h ⊢
    obtain ⟨ds, hall, hsingle⟩ := bind_eq_ok_iff.1 h
    exact bind_eq_ok_iff.2 ⟨ds, Decoder.decodeAll_run hall more, hsingle⟩

def hum : Definition :=
  { name := "hum", graph := { nodes := #[{ name := "SinOsc", rate := .audio, outputs := #[.audio] }] } }

def stray : Definition :=
  { name := "stray"
    graph :=
      { nodes := #[{ name := "Saw", rate := .audio, outputs := #[.audio] }, { name := "Blip", rate := .audio }] } }

/-- The one definition asked for are two, and what is reported is the name. -/
theorem decodeAll_filtered_stray :
    ∃ bytes, encodeAll [hum, stray] = .ok bytes ∧ decodeAll bytes = .ok [hum, stray] ∧
      (⟨some .builtin⟩ : Decoder).decode bytes = .error (.unknownGenerator "stray" 1 "Blip") := by
  have hsome : (encodeAll [hum, stray]).toOption.isSome = true := by cbv
  cases hbytes : encodeAll [hum, stray] with
  | error e =>
    rw [hbytes] at hsome
    cases hsome
  | ok bytes =>
    have hall : decodeAll bytes = .ok [hum, stray] := decodeAll_eq_ok_iff.2 hbytes
    have hnames : checkNames .builtin [hum, stray] = .error (.unknownGenerator "stray" 1 "Blip") := by cbv
    have hunnamed := (checkNames_eq_error_iff.1 hnames).not_named
    obtain ⟨-, e, hfirst, -, hdecode⟩ :=
      ((decodeAll_filtered .builtin bytes).2.1 [hum, stray] hall).resolve_left fun h => hunnamed h.1
    obtain rfl := Except.error.inj (hnames.symm.trans (checkNames_eq_error_iff.2 hfirst))
    exact ⟨bytes, rfl, hall, hdecode⟩

end SoundGraph.Wire
