import SoundGraph.Catalog.Builtin
import SoundGraph.Proofs.Catalog.Registration
import SoundGraph.Proofs.Compile.Rates
import SoundGraph.Proofs.Expansion.Rejection
import SoundGraph.Proofs.Wire.Checked
import SoundGraph.Proofs.Wire.Encodable

/-! From a catalog to a file and back. What plain generators of a catalog compile to can be written, and is
accepted under the catalog when it is read again: besides the generators that were called, a compilation emits
only controls, converters and the additions of mixes, and these are builtin. -/

namespace SoundGraph

/-- The names of the nodes that are emitted without having been called. -/
def ownNames : List String :=
  [Rate.control.controlName, Rate.audio.controlName, controlToAudio, audioToControl, adder.name]

theorem controlName_mem_ownNames (rate : Rate) : rate.controlName ∈ ownNames := by
  cases rate <;> decide

theorem contains_builtin : ∀ name ∈ ownNames, Catalog.builtin.contains name = true := by decide

theorem utf8ByteSize_ownNames : ∀ name ∈ ownNames, name.utf8ByteSize ≤ 255 := by decide

theorem eq_of_asksFor_addChannels {d : Descriptor} {rule : RateRule} {sum : Signal} {channels : List Signal}
    (h : (addChannels rule sum channels).AsksFor d) : d = adder := by
  induction channels generalizing sum with
  | nil => cases h
  | cons channel rest ih =>
    cases h with
    | here => rfl
    | later result h =>
      cases result with
      | ok sum => exact ih h
      | error e => cases h

theorem eq_of_asksFor_mix {d : Descriptor} {rule : RateRule} {args : List Signal}
    (h : (mix rule args).AsksFor d) : d = adder := by
  unfold mix at h
  split at h
  · cases h
  · exact eq_of_asksFor_addChannels h

theorem Generator.Plain.eq_of_asksFor {g : Generator} (hg : g.Plain) {d : Descriptor} {rule : RateRule}
    {args : List Signal} (h : (g.script rule args).AsksFor d) : d = g.descriptor ∨ d = adder := by
  unfold Generator.script at h
  rcases hg with hnone | hmix
  · rw [hnone] at h
    cases h with
    | here => exact .inl rfl
    | later result h => cases h
  · rw [hmix] at h
    exact .inr (eq_of_asksFor_mix h)

namespace Sketch

variable {s : Sketch} {limit : Nat}

theorem name_of_expand (hplain : ∀ p ∈ s.pending.toList, p.generator.Plain) {progress : Array Progress}
    {x : Expansion} (h : s.expand limit .empty = .ok progress x) {node : EmittedNode}
    (hnode : node ∈ x.nodes.toList) :
    node.name ∈ ownNames ∨ ∃ p ∈ s.pending.toList, node.name = p.generator.name := by
  obtain ⟨i, hi⟩ := List.getElem?_of_mem hnode
  rw [Array.getElem?_toList] at hi
  rcases added_of_expand h hi with ⟨g, -, rfl⟩ | hadded
  · exact .inl (controlName_mem_ownNames g.rate)
  cases hadded with
  | @converter source actual required name hrate hconvert =>
    refine .inl ?_
    change name ∈ ownNames
    rcases name_of_coercion hconvert with rfl | rfl <;> decide
  | stands hasked h =>
    obtain ⟨p, hp, signals, hasks⟩ := hasked
    rw [h.name]
    rcases (hplain p hp).eq_of_asksFor hasks with rfl | rfl
    · exact .inr ⟨p, hp, rfl⟩
    · exact .inl (by decide)

theorem name_of_compile (hplain : ∀ p ∈ s.pending.toList, p.generator.Plain) {g : Graph}
    (h : s.compile limit = .ok g) {node : Node} (hnode : node ∈ g.nodes.toList) :
    node.name ∈ ownNames ∨ ∃ p ∈ s.pending.toList, node.name = p.generator.name := by
  obtain ⟨progress, x, hx, old, hold, hname, -⟩ := source_of_compile h hnode
  rw [hname]
  exact name_of_expand hplain hx hold

theorem Grouped.name_of_control (hs : s.Grouped) {g : Graph} (h : s.compile limit = .ok g) {c : Control}
    (hc : c ∈ g.controls.toList) : ∃ decl ∈ s.controls.toList, c.name = decl.name := by
  obtain ⟨progress, x, out, pool, controls, -, -, hpool, rfl⟩ := stages_of_compile h
  obtain ⟨decl, hdecl, rfl⟩ := List.mem_map.1 ((hs.perm_of_controlPool hpool).mem_iff.1 hc)
  exact ⟨decl, hdecl, rfl⟩

theorem Grouped.namesFit_of_compile (hs : s.Grouped) (hplain : ∀ p ∈ s.pending.toList, p.generator.Plain)
    {g : Graph} (h : s.compile limit = .ok g) {name : String} (hname : name.utf8ByteSize ≤ 255)
    (hcontrols : ∀ c ∈ s.controls.toList, c.name.utf8ByteSize ≤ 255)
    (hgenerators : ∀ p ∈ s.pending.toList, p.generator.name.utf8ByteSize ≤ 255) :
    (Definition.mk name g).NamesFit := by
  refine ⟨hname, fun c hc => ?_, fun node hnode => ?_⟩
  · obtain ⟨decl, hdecl, heq⟩ := hs.name_of_control h hc
    rw [heq]
    exact hcontrols decl hdecl
  · rcases name_of_compile hplain h hnode with hown | ⟨p, hp, heq⟩
    · exact utf8ByteSize_ownNames _ hown
    · rw [heq]
      exact hgenerators p hp

/-- A catalog that has grown out of the builtin one and has the generators that were called. -/
theorem knows_of_compile {catalog : Catalog} (hplain : ∀ p ∈ s.pending.toList, p.generator.Plain) {g : Graph}
    (h : s.compile limit = .ok g) (hbuiltin : Catalog.builtin.entries.toList <+: catalog.entries.toList)
    (hregistered : ∀ p ∈ s.pending.toList, p.generator ∈ catalog.entries.toList) (name : String) :
    Wire.Knows catalog ⟨name, g⟩ := by
  intro node hnode
  rcases name_of_compile hplain h hnode with hown | ⟨p, hp, heq⟩
  · exact Catalog.contains_mono hbuiltin (contains_builtin _ hown)
  · rw [heq]
    exact Catalog.contains_of_mem (hregistered p hp)

/-- What calls with plain generators of a catalog are compiled to can be written if its names and its tables
fit, and it reads back as it was under the catalog as it has become, whether names are checked or not. -/
theorem decode_compiled (calls : List Call) (before after : List Registration) (name : String) (limit : Nat)
    {d : Definition}
    (hregistered : ∀ p ∈ (({} : Sketch).run calls).pending.toList,
      p.generator ∈ (Catalog.builtin.run before).entries.toList)
    (hplain : ∀ p ∈ (({} : Sketch).run calls).pending.toList, p.generator.Plain)
    (hcompiled : (({} : Sketch).run calls).compileAs name limit = .ok d)
    (hname : name.utf8ByteSize ≤ 255)
    (hcontrols : ∀ c ∈ (({} : Sketch).run calls).controls.toList, c.name.utf8ByteSize ≤ 255)
    (hgenerators : ∀ p ∈ (({} : Sketch).run calls).pending.toList, p.generator.name.utf8ByteSize ≤ 255)
    (htables : d.graph.TablesFit) :
    ∃ bytes, Wire.encode d = .ok bytes ∧
      ∀ settings : Settings, (settings.decoder ((Catalog.builtin.run before).run after)).decode bytes = .ok d := by
  obtain ⟨g, hg, hd⟩ := bind_eq_ok_iff.1 hcompiled
  cases hd
  have hgrouped := grouped_empty.run calls
  have hnames := hgrouped.namesFit_of_compile hplain hg hname hcontrols hgenerators
  obtain ⟨bytes, hbytes⟩ := Wire.exists_encode_iff.2 ⟨hgrouped.wellFormed_compile hg, hnames, htables⟩
  have hgrown := Catalog.prefix_run (Catalog.builtin.run before) after
  have hknows := knows_of_compile hplain hg ((Catalog.prefix_run _ before).trans hgrown)
    (fun p hp => hgrown.subset (hregistered p hp)) name
  refine ⟨bytes, hbytes, fun settings => Wire.Decoder.decode_eq_ok_iff.2 ⟨hbytes, fun catalog hcatalog => ?_⟩⟩
  -- the settings choose between this catalog and none
  unfold Settings.decoder at hcatalog
  split at hcatalog <;> cases hcatalog
  exact hknows

def wobbleSettings : Settings :=
  { entries := [{ name := "Wobble", rate := .rate .audio, inputs := [⟨"in", .matchAudio, false⟩] }] }

def wobble : Generator :=
  ⟨{ name := "Wobble", rate := .fixed .audio, inputs := [⟨"in", .matchAudio, false⟩] }, none⟩

def patchCalls : List Call :=
  [.control "freq" .control .zero, .add wobble [.out ⟨0, 0⟩],
    .add Builtin.mixer [.bundle [.pending 0, .pending 0]]]

def patchTable : Array EmittedNode := #[
  ⟨"Control", .control, [], #[.control], { individual := true }⟩,
  ⟨"K2A", .audio, [.node ⟨0, 0⟩], #[.audio], {}⟩,
  ⟨"Wobble", .audio, [.node ⟨1, 0⟩], #[.audio], {}⟩,
  ⟨"Add", .audio, [.node ⟨2, 0⟩, .node ⟨2, 0⟩], #[.audio], {}⟩]

def patch : Definition :=
  { name := "patch"
    graph :=
      { constants := #[]
        controls := #[⟨"freq", .control, .zero, 0⟩]
        nodes := (patchTable.toList.map EmittedNode.toNode).toArray } }

theorem compileAs_patch : (({} : Sketch).run patchCalls).compileAs "patch" 8 = .ok patch := by
  have htable : (({} : Sketch).run patchCalls).table? 8 = some (patchTable, #[]) := by cbv
  have horder : order patchTable #[] = .ok (patchTable.toList, #[]) := by
    rw [order_eq (by decide)]
    cbv
  have hcontrols : (({} : Sketch).run patchCalls).controlPool = .ok #[⟨"freq", .control, .zero, 0⟩] := by cbv
  obtain ⟨progress, x, hx, hemitted⟩ := exists_of_table? htable
  obtain ⟨hnodes, hconstants⟩ := Prod.mk.inj hemitted
  simp only [compileAs, compile, hx, ← hnodes, ← hconstants, horder, hcontrols]
  rfl

theorem decode_compiled_patch :
    (({} : Sketch).run patchCalls).compileAs "patch" 8 = .ok patch ∧
      ∃ bytes, Wire.encode patch = .ok bytes ∧
        ∀ settings : Settings, (settings.decoder ((Catalog.builtin.run [.entries wobbleSettings]).run
          [.generator ⟨binary "Max", none⟩, .entries wobbleSettings])).decode bytes = .ok patch := by
  have hpending : (({} : Sketch).run patchCalls).pending.toList.map PendingNode.generator =
      [wobble, Builtin.mixer] := by cbv
  have hcontrols : (({} : Sketch).run patchCalls).controls.toList = [⟨"freq", .control, .zero, 0, 0⟩] := by cbv
  have hentries : (Catalog.builtin.run [.entries wobbleSettings]).entries.toList =
      Builtin.generators ++ [wobble] := by cbv
  have hgenerator : ∀ p ∈ (({} : Sketch).run patchCalls).pending.toList,
      p.generator = wobble ∨ p.generator = Builtin.mixer := by
    intro p hp
    have hmem := List.mem_map_of_mem (f := PendingNode.generator) hp
    simpa [hpending] using hmem
  refine ⟨compileAs_patch, decode_compiled patchCalls [.entries wobbleSettings]
    [.generator ⟨binary "Max", none⟩, .entries wobbleSettings] "patch" 8 (fun p hp => ?_) (fun p hp => ?_)
    compileAs_patch (by decide) ?_ (fun p hp => ?_) ⟨by decide, by decide, by decide, by decide, by decide⟩⟩
  · rw [hentries]
    rcases hgenerator p hp with heq | heq <;> simp [heq, Builtin.generators]
  · rcases hgenerator p hp with heq | heq
    · exact .inl (by rw [heq]; rfl)
    · exact .inr (by rw [heq]; rfl)
  · rw [hcontrols]
    decide
  · rcases hgenerator p hp with heq | heq <;> rw [heq] <;> decide

end Sketch

end SoundGraph
