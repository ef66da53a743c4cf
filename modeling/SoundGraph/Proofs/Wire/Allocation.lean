import SoundGraph.Proofs.Wire.Guards

/-! What the decoder allocates. A ledger goes along with the guarded decoder, in which every table is entered with
the capacity asked for and the bytes left, before its first entry is read; it stays when the decoder fails. Apart
from the ledger this is the decoder itself. A table enters after its count was checked, and its entries have at
least one byte each, so no capacity is beyond the bytes left. Of an accepted file the ledger is just the list of its
tables. -/

namespace SoundGraph.Wire

/-- A table, the capacity that was asked for, and how many bytes were left at that point. -/
structure Allocation where
  table : Table
  capacity : Nat
  left : Nat
  deriving DecidableEq

abbrev Metered := StateT Cursor (ExceptT Corruption (StateM (List Allocation)))

def Metered.lift {α : Type} (read : Read α) : Metered α := fun c ledger => (read c, ledger)

instance : Reader Metered where
  take n := .lift (take n)
  offset := .lift offset
  previous := .lift previous
  remaining := .lift remaining
  failAt offset kind := .lift (failAt offset kind)
  reserve table capacity c ledger := (.ok ((), c), ⟨table, capacity, c.left⟩ :: ledger)

def meteredDefinitions (bytes : List UInt8) : Except Corruption (List Definition) × List Allocation :=
  let (result, ledger) := (decodeFile true : Metered (List Definition)).run (.ofBytes bytes) []
  (result.map Prod.fst, ledger)

variable {α β : Type} {read : Read α}

def Shrinks (read : Read α) : Prop := ∀ c a c', read c = .ok (a, c') → c'.left ≤ c.left

theorem Parses.shrinks {E : α → List UInt8 → Prop} (h : Parses read E) : Shrinks read := by
  intro c a c' hread
  obtain ⟨bytes, -, hskip⟩ := (h c a c').1 hread
  rw [c.left_eq, c'.left_eq, hskip.rest, List.length_append]
  exact Nat.le_add_left ..

theorem Peeks.shrinks (h : Peeks read) : Shrinks read := by
  intro c a c' hread
  obtain ⟨b, hb⟩ := h c
  rw [hb] at hread
  cases hread
  exact Nat.le_refl _

/-- From `c` on, `metered` is `read` apart from the ledger; what it enters is covered by the bytes left, which are
never more than at `c`. -/
def MetersAt (metered : Metered α) (read : Read α) (c : Cursor) : Prop :=
  ∀ ledger, ∃ new, metered c ledger = (read c, new ++ ledger) ∧
    ∀ a ∈ new, a.capacity ≤ a.left ∧ a.left ≤ c.left

structure Meters (metered : Metered α) (read : Read α) : Prop where
  run : ∀ c, MetersAt metered read c
  shrinks : Shrinks read

namespace Metered

theorem bind_of_ok {metered : Metered α} {f : α → Metered β} {c c' : Cursor} {a : α}
    {ledger ledger' : List Allocation} (h : metered c ledger = (.ok (a, c'), ledger')) :
    (metered >>= f) c ledger = f a c' ledger' := by
  change (ExceptT.bindCont (fun p => f p.1 p.2) (metered c ledger).1) (metered c ledger).2 = _
  rw [h]
  rfl

theorem bind_of_error {metered : Metered α} {f : α → Metered β} {c : Cursor} {e : Corruption}
    {ledger ledger' : List Allocation} (h : metered c ledger = (.error e, ledger')) :
    (metered >>= f) c ledger = (.error e, ledger') := by
  change (ExceptT.bindCont (fun p => f p.1 p.2) (metered c ledger).1) (metered c ledger).2 = _
  rw [h]
  rfl

end Metered

theorem MetersAt.bind {metered : Metered α} {f : α → Metered β} {g : α → Read β} {c : Cursor}
    (h : MetersAt metered read c) (hread : Shrinks read)
    (hf : ∀ a c', read c = .ok (a, c') → MetersAt (f a) (g a) c') : MetersAt (metered >>= f) (read >>= g) c := by
  intro ledger
  obtain ⟨new, hrun, hnew⟩ := h ledger
  cases hc : read c with
  | error e =>
    rw [hc] at hrun
    refine ⟨new, ?_, hnew⟩
    rw [bind_apply_eq_error_iff.2 (.inl hc)]
    exact Metered.bind_of_error hrun
  | ok p =>
    obtain ⟨a, c'⟩ := p
    rw [hc] at hrun
    obtain ⟨later, hrun', hlater⟩ := hf a c' hc (new ++ ledger)
    refine ⟨later ++ new, ?_, ?_⟩
    · rw [bind_apply_of_ok hc, List.append_assoc, ← hrun']
      exact Metered.bind_of_ok hrun
    · intro x hx
      rcases List.mem_append.1 hx with hx | hx
      · exact ⟨(hlater x hx).1, (hlater x hx).2.trans (hread c a c' hc)⟩
      · exact hnew x hx

theorem MetersAt.reserve {metered : Metered α} {c : Cursor} (h : MetersAt metered read c) (table : Table)
    {capacity : Nat} (hcapacity : capacity ≤ c.left) :
    MetersAt (reserve table capacity >>= fun _ => metered) (reserve table capacity >>= fun _ => read) c := by
  intro ledger
  obtain ⟨new, hrun, hnew⟩ := h (⟨table, capacity, c.left⟩ :: ledger)
  refine ⟨new ++ [⟨table, capacity, c.left⟩], ?_, ?_⟩
  · rw [List.append_assoc, List.singleton_append]
    exact hrun
  · intro x hx
    rcases List.mem_append.1 hx with hx | hx
    · exact hnew x hx
    · obtain rfl := List.mem_singleton.1 hx
      exact ⟨hcapacity, Nat.le_refl _⟩

/-- Fields without a table: both readers do the same and nothing is allocated. -/
def Flat (metered : Metered α) (read : Read α) : Prop := metered = .lift read

theorem flat_pure (a : α) : Flat (pure a) (pure a) := rfl

theorem flat_take (n : Nat) : Flat (take n) (take n) := rfl

theorem flat_offset : Flat offset offset := rfl

theorem flat_remaining : Flat remaining remaining := rfl

theorem flat_failAt (offset : Nat) (kind : CorruptionKind) :
    Flat (failAt offset kind : Metered α) (failAt offset kind) := rfl

theorem Flat.bind {metered : Metered α} {f : α → Metered β} {g : α → Read β} (h : Flat metered read)
    (hf : ∀ a, Flat (f a) (g a)) : Flat (metered >>= f) (read >>= g) := by
  obtain rfl : metered = .lift read := h
  funext c ledger
  change _ = ((read >>= g) c, ledger)
  cases hc : read c with
  | error e =>
    rw [bind_apply_eq_error_iff.2 (.inl hc)]
    exact Metered.bind_of_error (Prod.ext hc rfl)
  | ok p =>
    have hlift : Metered.lift read c ledger = (.ok p, ledger) := Prod.ext hc rfl
    rw [bind_apply_of_ok hc, Metered.bind_of_ok hlift, hf p.1]
    rfl

theorem flat_blame (kind : CorruptionKind) :
    Flat (previous >>= fun p => failAt p kind : Metered α) (previous >>= fun p => failAt p kind) :=
  Flat.bind (rfl : Flat previous previous) fun p => flat_failAt p kind

theorem flat_word (width : Nat) : Flat (word width) (word width) := (flat_take width).bind fun _ => flat_pure _

theorem flat_byte : Flat byte byte := (flat_word 1).bind fun _ => flat_pure _

theorem flat_decodeCount (guarded : Bool) (size : Nat) :
    Flat (decodeCount guarded size) (decodeCount guarded size) := by
  refine (flat_word 4).bind fun n => flat_remaining.bind fun left => ?_
  split
  · exact flat_offset.bind fun p => flat_remaining.bind fun left => flat_failAt p _
  · exact flat_pure n

theorem flat_decodeName : Flat decodeName decodeName := by
  refine (flat_word 1).bind fun length => flat_offset.bind fun start => (flat_take length).bind fun bytes => ?_
  cases String.fromUTF8? ⟨bytes.toArray⟩ with
  | some name => exact flat_pure name
  | none => exact flat_failAt start _

theorem flat_decodeSample : Flat decodeSample decodeSample := (flat_word 4).bind fun _ => flat_pure _

theorem flat_decodeRate : Flat decodeRate decodeRate := by
  refine flat_byte.bind fun tag => ?_
  cases Rate.ofTag? tag.toNat with
  | some rate => exact flat_pure rate
  | none => exact flat_blame _

theorem flat_decodeInput : Flat decodeInput decodeInput := by
  refine flat_byte.bind fun tag => ?_
  split
  · exact (flat_word 4).bind fun index => flat_pure _
  split
  · exact (flat_word 4).bind fun node => (flat_word 4).bind fun output => flat_pure _
  · exact flat_blame _

theorem flat_decodeControl : Flat decodeControl decodeControl :=
  flat_decodeName.bind fun _ => flat_decodeRate.bind fun _ => flat_decodeSample.bind fun _ =>
    (flat_word 4).bind fun _ => flat_pure _

theorem flat_decodeFlags : Flat decodeFlags decodeFlags := by
  refine flat_byte.bind fun flags => ?_
  split
  · exact flat_pure _
  · exact flat_blame _

theorem flat_checkGraph (start : Nat) (g : Graph) : Flat (checkGraph start g) (checkGraph start g) := by
  rw [checkGraph, checkGraph]
  cases g.validate with
  | ok => exact flat_pure g
  | error v => exact flat_failAt start _

theorem flat_decodeHeader : Flat decodeHeader decodeHeader := by
  refine (flat_take 4).bind fun found => ?_
  dsimp only
  split
  · exact flat_failAt 0 _
  refine (flat_word 4).bind fun found => ?_
  split
  · exact flat_failAt 4 _
  · exact flat_pure ()

theorem flat_decodeEnd : Flat decodeEnd decodeEnd := by
  refine flat_remaining.bind fun left => ?_
  split
  · exact flat_offset.bind fun p => flat_remaining.bind fun left => flat_failAt p _
  · exact flat_pure ()

theorem Flat.meters {metered : Metered α} (h : Flat metered read) (hread : Shrinks read) : Meters metered read where
  run c ledger := ⟨[], by rw [h]; rfl, by simp⟩
  shrinks := hread

theorem meters_pure (a : α) : Meters (pure a : Metered α) (pure a : Read α) :=
  (flat_pure a).meters (parses_pure a).shrinks

theorem Meters.bind {metered : Metered α} {f : α → Metered β} {g : α → Read β} (h : Meters metered read)
    (hf : ∀ a, Meters (f a) (g a)) : Meters (metered >>= f) (read >>= g) where
  run c := (h.run c).bind h.shrinks fun a c' _ => (hf a).run c'
  shrinks c b c'' hok := by
    obtain ⟨a, c', ha, hb⟩ := bind_apply_eq_ok_iff.1 hok
    exact ((hf a).shrinks c' b c'' hb).trans (h.shrinks c a c' ha)

/-- By induction on the number of entries that are left. -/
theorem meters_repeatRead {entry : Metered α} (h : Meters entry read) (acc : List α) (n : Nat) :
    Meters (repeatRead entry acc n) (repeatRead read acc n) := by
  induction n generalizing acc with
  | zero => exact meters_pure acc.reverse
  | succ n ih =>
    rw [repeatRead, repeatRead]
    exact h.bind fun a => ih (a :: acc)

theorem meters_decodeCount (size : Nat) : Meters (decodeCount true size) (decodeCount true size) := by
  refine (flat_decodeCount true size).meters fun c n c' h => ?_
  exact (parses_word 4).shrinks c n c' (decodeCount_eq_ok_iff.1 h).1

/-- Where a table enters the ledger its count has been checked, with at least one byte for each entry. -/
theorem meters_decodeTable {entry : Metered α} {size : Nat} (h : Meters entry read) (hsize : 0 < size) (table : Table) :
    Meters (decodeTable true table size entry) (decodeTable true table size read) where
  run c := by
    have hcount := meters_decodeCount size
    refine (hcount.run c).bind hcount.shrinks fun n c' hread => ?_
    have hfits : n * size ≤ c'.left := by simpa using (decodeCount_eq_ok_iff.1 hread).2
    have hcapacity : n ≤ c'.left := (Nat.le_mul_of_pos_right n hsize).trans hfits
    exact ((meters_repeatRead h [] n).run c').reserve table hcapacity
  shrinks := ((meters_decodeCount size).bind fun n => meters_repeatRead h [] n).shrinks

theorem meters_decodeNode : Meters (decodeNode true) (decodeNode true) := by
  have hinputs := flat_decodeInput.meters parses_decodeInput.shrinks
  have hrate := flat_decodeRate.meters parses_decodeRate.shrinks
  exact (flat_decodeName.meters parses_decodeName.shrinks).bind fun name => hrate.bind fun rate =>
    (meters_decodeTable hinputs (by decide) .inputs).bind fun inputs =>
      (meters_decodeTable hrate (by decide) .outputs).bind fun outputs =>
        (flat_decodeFlags.meters parses_decodeFlags.shrinks).bind fun flags => meters_pure _

theorem meters_decodeTables : Meters (decodeTables true) (decodeTables true) := by
  have hsample := flat_decodeSample.meters parses_decodeSample.shrinks
  have hcontrol := flat_decodeControl.meters parses_decodeControl.shrinks
  exact (meters_decodeTable hsample (by decide) .constants).bind fun constants =>
    (meters_decodeTable hcontrol (by decide) .controls).bind fun controls =>
      (meters_decodeTable meters_decodeNode (by decide) .nodes).bind fun nodes => meters_pure _

theorem meters_decodeGraph : Meters (decodeGraph true) (decodeGraph true) :=
  (flat_offset.meters peeks_offset.shrinks).bind fun start => meters_decodeTables.bind fun g =>
    (flat_checkGraph start g).meters (parses_checkGraph start g).shrinks

theorem meters_decodeDefinition : Meters (decodeDefinition true) (decodeDefinition true) :=
  (flat_decodeName.meters parses_decodeName.shrinks).bind fun _ => meters_decodeGraph.bind fun _ => meters_pure _

theorem meters_definitions (count : Nat) :
    Meters (repeatRead (decodeDefinition true) [] count) (repeatRead (decodeDefinition true) [] count) :=
  meters_repeatRead meters_decodeDefinition [] count

theorem meters_decodeBody : Meters (decodeBody true) (decodeBody true) := by
  refine (flat_decodeHeader.meters parses_decodeHeader.shrinks).bind fun _ =>
    ((flat_word 2).meters (parses_word 2).shrinks).bind fun count => ⟨fun c => ?_, (meters_definitions count).shrinks⟩
  exact ((meters_definitions count).run c).reserve .definitions (Nat.min_le_right _ _)

theorem meters_decodeFile : Meters (decodeFile true) (decodeFile true) := by
  have hend : Shrinks decodeEnd := fun c u c' h => by rw [(decodeEnd_eq_ok_iff.1 h).1]
  exact meters_decodeBody.bind fun ds => (flat_decodeEnd.meters hend).bind fun _ => meters_pure ds

section Requests

def Allocation.request (a : Allocation) : Table × Nat := (a.table, a.capacity)

/-- The tables of a record, in the order in which they are met, with the number of entries of each. -/
def nodeRequests (n : Node) : List (Table × Nat) := [(.inputs, n.inputs.length), (.outputs, n.outputs.size)]

def graphRequests (g : Graph) : List (Table × Nat) :=
  (.constants, g.constants.size) :: (.controls, g.controls.size) :: (.nodes, g.nodes.size) ::
    g.nodes.toList.flatMap nodeRequests

/-- If `metered` succeeds, `E` holds of its answer and of what was asked for on the way, first things first. -/
def Enters (metered : Metered α) (E : α → List (Table × Nat) → Prop) : Prop :=
  ∀ c ledger a c' ledger', metered c ledger = (.ok (a, c'), ledger') →
    ∃ new, ledger' = new ++ ledger ∧ E a (new.reverse.map Allocation.request)

variable {E : α → List (Table × Nat) → Prop}

theorem Metered.exists_of_bind {metered : Metered α} {f : α → Metered β} {c : Cursor} {r : β × Cursor}
    {ledger later : List Allocation} (h : (metered >>= f) c ledger = (.ok r, later)) :
    ∃ a c' ledger', metered c ledger = (.ok (a, c'), ledger') ∧ f a c' ledger' = (.ok r, later) := by
  rcases hfirst : metered c ledger with ⟨e | ⟨a, c'⟩, ledger'⟩
  · rw [bind_of_error hfirst] at h
    cases h
  · rw [bind_of_ok hfirst] at h
    exact ⟨a, c', ledger', rfl, h⟩

theorem Enters.bind {metered : Metered α} {f : α → Metered β} {F : β → List (Table × Nat) → Prop}
    (h : Enters metered E) (hf : ∀ a before, E a before → Enters (f a) fun b after => F b (before ++ after)) :
    Enters (metered >>= f) F := by
  intro c ledger b c'' ledger'' hrun
  obtain ⟨a, c', ledger', ha, hb⟩ := Metered.exists_of_bind hrun
  obtain ⟨new, rfl, hnew⟩ := h c ledger a c' ledger' ha
  obtain ⟨later, rfl, hlater⟩ := hf a _ hnew c' _ b c'' ledger'' hb
  refine ⟨later ++ new, (List.append_assoc ..).symm, ?_⟩
  rwa [List.reverse_append, List.map_append]

theorem Flat.enters {metered : Metered α} (h : Flat metered read) : Enters metered fun _ asked => asked = [] := by
  obtain rfl : metered = .lift read := h
  intro c ledger a c' ledger' hrun
  obtain ⟨-, rfl⟩ := Prod.ext_iff.1 hrun
  exact ⟨[], rfl, rfl⟩

theorem enters_pure {a : α} (h : E a []) : Enters (pure a) E := by
  intro c ledger a c' ledger' hrun
  cases hrun
  exact ⟨[], rfl, h⟩

theorem enters_reserve (table : Table) (capacity : Nat) :
    Enters (reserve table capacity) fun _ asked => asked = [(table, capacity)] := by
  intro c ledger u c' ledger' h
  cases h
  exact ⟨[⟨table, capacity, c.left⟩], rfl, rfl⟩

/-- By induction on the number of entries that are left. -/
theorem enters_repeatRead {entry : Metered α} {requests : α → List (Table × Nat)}
    (h : Enters entry fun a asked => asked = requests a) (acc : List α) (n : Nat) :
    Enters (repeatRead entry acc n) fun as asked =>
      ∃ new, as = acc.reverse ++ new ∧ new.length = n ∧ asked = new.flatMap requests := by
  induction n generalizing acc with
  | zero => exact enters_pure ⟨[], (List.append_nil _).symm, rfl, rfl⟩
  | succ n ih =>
    refine h.bind fun a before hbefore c ledger as c' ledger' hrun => ?_
    obtain ⟨asked, hledger, new, rfl, hlength, hasked⟩ := ih (a :: acc) c ledger as c' ledger' hrun
    refine ⟨asked, hledger, a :: new, ?_, congrArg Nat.succ hlength, ?_⟩
    · rw [List.reverse_cons, List.append_assoc, List.singleton_append]
    · rw [hbefore, hasked, List.flatMap_cons]

theorem enters_decodeTable {entry : Metered α} {requests : α → List (Table × Nat)}
    (h : Enters entry fun a asked => asked = requests a) (table : Table) (size : Nat) :
    Enters (decodeTable true table size entry) fun as asked => asked = (table, as.length) :: as.flatMap requests := by
  refine (flat_decodeCount true size).enters.bind fun count before hbefore =>
    (enters_reserve table count).bind fun _ asked hasked => ?_
  refine fun c ledger as c' ledger' hrun => ?_
  obtain ⟨later, hledger, new, rfl, rfl, hlater⟩ := enters_repeatRead h [] count c ledger as c' ledger' hrun
  refine ⟨later, hledger, ?_⟩
  rw [hbefore, hasked, hlater]
  rfl

/-- A table of entries that hold no table. -/
theorem Flat.enters_table {metered : Metered α} (h : Flat metered read) (table : Table) (size : Nat) :
    Enters (decodeTable true table size metered) fun as asked => asked = [(table, as.length)] := by
  intro c ledger as c' ledger' hrun
  obtain ⟨asked, hledger, hasked⟩ := enters_decodeTable h.enters table size c ledger as c' ledger' hrun
  rw [List.flatMap_eq_nil_iff.2 fun _ _ => rfl] at hasked
  exact ⟨asked, hledger, hasked⟩

theorem enters_decodeNode : Enters (decodeNode true) fun n asked => asked = nodeRequests n := by
  refine flat_decodeName.enters.bind fun name _ hname => flat_decodeRate.enters.bind fun rate _ hrate => ?_
  refine (flat_decodeInput.enters_table .inputs 5).bind fun inputs _ hinputs => ?_
  refine (flat_decodeRate.enters_table .outputs 1).bind fun outputs _ houtputs => ?_
  refine flat_decodeFlags.enters.bind fun flags _ hflags => enters_pure ?_
  rw [hname, hrate, hinputs, houtputs, hflags]
  rfl

theorem enters_decodeTables : Enters (decodeTables true) fun g asked => asked = graphRequests g := by
  refine (flat_decodeSample.enters_table .constants 4).bind fun constants _ hconstants => ?_
  refine (flat_decodeControl.enters_table .controls 10).bind fun controls _ hcontrols => ?_
  refine (enters_decodeTable enters_decodeNode .nodes 11).bind fun nodes _ hnodes => enters_pure ?_
  rw [hconstants, hcontrols, hnodes, List.append_nil]
  rfl

theorem enters_decodeGraph : Enters (decodeGraph true) fun g asked => asked = graphRequests g := by
  refine flat_offset.enters.bind fun start _ hstart =>
    enters_decodeTables.bind fun g _ hg c ledger g' c' ledger' hrun => ?_
  rw [flat_checkGraph start g] at hrun
  obtain ⟨hcheck, rfl⟩ := Prod.ext_iff.1 hrun
  obtain ⟨_, ⟨⟨rfl, -⟩, -⟩, -⟩ := (parses_checkGraph start g c g' c').1 hcheck
  exact ⟨[], rfl, by rw [hstart, hg]; exact List.append_nil _⟩

theorem enters_decodeDefinition : Enters (decodeDefinition true) fun d asked => asked = graphRequests d.graph := by
  refine flat_decodeName.enters.bind fun name _ hname => enters_decodeGraph.bind fun g _ hg => enters_pure ?_
  rw [hname, hg, List.append_nil]
  rfl

/-- A definition takes at least one byte, so no more are read than there are bytes left. -/
theorem le_left_of_repeatRead {count : Nat} {ds : List Definition} {c c' : Cursor}
    (h : (repeatRead (decodeDefinition true) [] count : Read (List Definition)) c = .ok (ds, c')) : count ≤ c.left := by
  have hsize : ∀ d bytes, encodeDefinition d = .ok bytes → 1 ≤ bytes.length := by
    intro d bytes hd
    obtain ⟨name, graph, hname, -, -, rfl⟩ := encodeDefinition_eq_ok_iff.1 hd
    rw [List.length_append]
    exact (one_le_length_encodeName hname).trans (Nat.le_add_right ..)
  obtain ⟨_, ⟨new, parts, -, rfl, hparts, rfl⟩, hskip⟩ :=
    (parses_repeatRead (parses_decodeDefinition true) [] count c ds c').1 h
  have hlength := length_flatten_ge hsize hparts
  have hleft := hskip.length_le
  omega

theorem enters_decodeBody : Enters (decodeBody true) fun ds asked =>
    asked = (.definitions, ds.length) :: ds.flatMap fun d => graphRequests d.graph := by
  refine flat_decodeHeader.enters.bind fun _ _ hheader =>
    (flat_word 2).enters.bind fun count _ hcount c ledger ds c' ledger' hrun => ?_
  -- the capacity is the number of definitions, since that many have been read
  have hrest : (repeatRead (decodeDefinition true) [] count : Metered (List Definition)) c
      (⟨.definitions, min count c.left, c.left⟩ :: ledger) = (.ok (ds, c'), ledger') := hrun
  have hleft : count ≤ c.left := by
    obtain ⟨_, hmetered, -⟩ := (meters_definitions count).run c _
    exact le_left_of_repeatRead ((congrArg Prod.fst hmetered).symm.trans (congrArg Prod.fst hrest))
  obtain ⟨later, rfl, _, rfl, rfl, hlater⟩ :=
    enters_repeatRead enters_decodeDefinition [] count c _ ds c' ledger' hrest
  refine ⟨later ++ [⟨.definitions, min ds.length c.left, c.left⟩], by simp, ?_⟩
  rw [hheader, hcount, List.reverse_append, List.map_append, hlater, Nat.min_eq_left hleft]
  rfl

theorem enters_decodeFile : Enters (decodeFile true) fun ds asked =>
    asked = (.definitions, ds.length) :: ds.flatMap fun d => graphRequests d.graph := by
  refine enters_decodeBody.bind fun ds _ hds => flat_decodeEnd.enters.bind fun _ _ hend => enters_pure ?_
  rw [hds, hend, List.append_nil, List.append_nil]

end Requests

/-- Apart from the ledger this is the guarded reader; what is asked for is covered by the bytes left, and of an
accepted file it is the tables, each with the number of its entries. -/
theorem meteredDefinitions_spec (bytes : List UInt8) :
    (meteredDefinitions bytes).1 = readDefinitions true bytes ∧
      (∀ a ∈ (meteredDefinitions bytes).2, a.capacity ≤ a.left ∧ a.left ≤ bytes.length) ∧
      ∀ ds, readDefinitions true bytes = .ok ds → (meteredDefinitions bytes).2.reverse.map Allocation.request =
        (.definitions, ds.length) :: ds.flatMap fun d => graphRequests d.graph := by
  obtain ⟨ledger, hrun, hledger⟩ := meters_decodeFile.run (.ofBytes bytes) []
  rw [List.append_nil] at hrun
  have hmetered : meteredDefinitions bytes = (readDefinitions true bytes, ledger) := by
    change (fun p : Except Corruption (List Definition × Cursor) × List Allocation => (p.1.map Prod.fst, p.2))
      ((decodeFile true : Metered (List Definition)) (.ofBytes bytes) []) = _
    rw [hrun]
    rfl
  rw [hmetered]
  refine ⟨rfl, hledger, fun ds hds => ?_⟩
  cases hfile : (decodeFile true : Read (List Definition)) (.ofBytes bytes) with
  | error e =>
    have hfails : readDefinitions true bytes = .error e := congrArg (Except.map Prod.fst) hfile
    rw [hfails] at hds
    cases hds
  | ok p =>
    have hreads : readDefinitions true bytes = .ok p.1 := congrArg (Except.map Prod.fst) hfile
    obtain rfl := Except.ok.inj (hreads.symm.trans hds)
    rw [hfile] at hrun
    obtain ⟨new, hnew, hrequests⟩ := enters_decodeFile _ [] p.1 p.2 ledger hrun
    rw [hnew, List.append_nil]
    exact hrequests

/-- With the early check of counts and without it, the same files are accepted with the same definitions. What is
rejected is rejected for the same, but that the check may find bytes missing before something else is found. With
it no table asks for more than there are bytes left, and so for more than the file is long; a table of an accepted
file asks for as many as it has. -/
theorem guards_only_hasten (decoder : Decoder) (bytes : List UInt8) :
    (∀ ds, decoder.decodeAll bytes = .ok ds ↔ decoder.decodeWith false bytes = .ok ds) ∧
      (decoder.decodeAll bytes = decoder.decodeWith false bytes ∨
        (∃ e, decoder.decodeAll bytes = .error (.corrupt e) ∧ e.kind.isTruncated = true) ∧
          ∃ e, decoder.decodeWith false bytes = .error (.corrupt e)) ∧
      (meteredDefinitions bytes).1 = readDefinitions true bytes ∧
      (∀ a ∈ (meteredDefinitions bytes).2, a.capacity ≤ a.left ∧ a.left ≤ bytes.length) ∧
      ∀ ds, readDefinitions true bytes = .ok ds → (meteredDefinitions bytes).2.reverse.map Allocation.request =
        (.definitions, ds.length) :: ds.flatMap fun d => graphRequests d.graph := by
  have hhastens := decoder.decodeAll_hastens bytes
  refine ⟨fun ds => ?_, hhastens, meteredDefinitions_spec bytes⟩
  rcases hhastens with heq | ⟨⟨e, he, -⟩, e', he'⟩
  · rw [heq]
  · simp [he, he']

/-- The tables of an accepted file, in the order in which they are met. -/
theorem guards_only_hasten_odd :
    readDefinitions true oddBytes = .ok [oddDefinition] ∧
      (meteredDefinitions oddBytes).2.reverse.map Allocation.request =
        [(.definitions, 1), (.constants, 2), (.controls, 1), (.nodes, 2), (.inputs, 0), (.outputs, 1),
          (.inputs, 2), (.outputs, 0)] := by
  have hread : readDefinitions true oddBytes = .ok [oddDefinition] := readDefinitions_eq_ok_iff.2 (by cbv)
  exact ⟨hread, (guards_only_hasten {} oddBytes).2.2.2.2 [oddDefinition] hread⟩

/-- Three constants are announced where there are bytes for one: the check sees it at the count, before anything is
allocated for them. -/
def cutBytes : List UInt8 := magic ++ bigEndian 4 version ++ [0, 1, 1, 100, 0, 0, 0, 3, 0, 0, 0, 0]

example : readDefinitions true cutBytes = .error ⟨16, .truncated 12 4⟩ ∧
    readDefinitions false cutBytes = .error ⟨20, .truncated 4 0⟩ ∧
    (meteredDefinitions cutBytes).2 = [⟨.definitions, 1, 10⟩] := by
  cbv

end SoundGraph.Wire
