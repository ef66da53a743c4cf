import Mathlib.Data.List.Induction
import Mathlib.Data.List.Nodup
import SoundGraph.Proofs.Settings.Registration

/-! Which settings are accepted, and what is reported of the others. What can be wrong with an entry is said rule by
rule, each without regard to the others, and the order in which the rules are looked at is said apart; steps that look
at one rule after the other then report the first that is broken. The entries are gone through in order, so those in
front of the one reported would be accepted by themselves. -/

namespace SoundGraph

section Reports

variable {ε α β : Type} {turn : ε → Nat} {P Q : ε → Prop} {act : Except ε α}

/-- The action succeeds if there is none of the flaws `P`, and otherwise fails with the one whose turn comes first. -/
structure Reports (turn : ε → Nat) (P : ε → Prop) (act : Except ε α) : Prop where
  clear : (∃ a, act = .ok a) ↔ ∀ e, ¬ P e
  first : ∀ e, act = .error e ↔ P e ∧ ∀ e', P e' → turn e ≤ turn e'

theorem Reports.congr (h : Reports turn P act) (hiff : ∀ e, P e ↔ Q e) : Reports turn Q act := by
  have heq : P = Q := funext fun e => propext (hiff e)
  rwa [← heq]

theorem reports_pure (a : α) (hnone : ∀ e, ¬ P e) : Reports turn P (pure a : Except ε α) where
  clear := iff_of_true ⟨a, rfl⟩ hnone
  first e := iff_of_false (fun h => nomatch h) fun h => hnone e h.1

/-- A step that fails with the flaws of one turn, before those of later turns. -/
theorem Reports.step {k : Nat} {f : α → Except ε β} (herror : ∀ e, act = .error e ↔ P e ∧ turn e = k)
    (hf : ∀ a, act = .ok a → Reports turn (fun e => P e ∧ k + 1 ≤ turn e) (f a)) :
    Reports turn (fun e => P e ∧ k ≤ turn e) (act >>= f) := by
  cases hact : act with
  | ok a =>
    refine (hf a hact).congr fun e => and_congr_right fun he => ?_
    have hlater : turn e ≠ k := fun hk => by
      have := (herror e).2 ⟨he, hk⟩
      rw [hact] at this
      cases this
    omega
  | error e₀ =>
    obtain ⟨he₀, hk⟩ := (herror e₀).1 hact
    have hhere : P e₀ ∧ k ≤ turn e₀ := ⟨he₀, by omega⟩
    refine ⟨iff_of_false (fun ⟨_, hok⟩ => nomatch hok) fun hnone => hnone e₀ hhere, fun e => ⟨fun h => ?_, ?_⟩⟩
    · cases h
      exact ⟨hhere, fun e' he' => by omega⟩
    · rintro ⟨⟨he, hke⟩, hfirst⟩
      -- nothing comes before `e₀`, so `e` has the turn of this step, which then fails with it
      have hle : turn e ≤ turn e₀ := hfirst e₀ hhere
      have hsame : act = .error e := (herror e).2 ⟨he, by omega⟩
      rw [hact] at hsame
      cases hsame
      rfl

end Reports

/-- When a flaw of an entry is looked for. The two of the channels exclude each other. -/
def EntryFlaw.turn : EntryFlaw → Nat
  | primaryOfFixed => 0
  | maybeAmongRates => 1
  | descriptor .emptyName => 2
  | descriptor (.primaryOutOfRange _ _) => 3
  | descriptor (.channelsOfSingle _) => 4
  | descriptor (.channelsOfMissing _) => 4
  | refused _ => 5

/-- The check of a descriptor looks at one rule after the other. -/
theorem Descriptor.check_mapError (d : Descriptor) :
    d.check.mapError EntryFlaw.descriptor = (do
      d.checkName.mapError .descriptor
      d.checkRate.mapError .descriptor
      d.checkOutputs.mapError .descriptor) := by
  unfold Descriptor.check
  cases d.checkName with
  | error _ => rfl
  | ok _ => cases d.checkRate <;> rfl

namespace Entry

structure Consistent (e : Entry) : Prop where
  named : e.name ≠ ""
  /-- A primary input is given only where a rate follows it. -/
  primary : e.primary ≠ none → e.rate = .maybe
  /-- The first input is the primary one if none is given. -/
  range : e.rate = .maybe → e.primary.getD 0 < e.inputs.length
  rates : .maybe ∉ e.rates
  channels : ∀ k, e.outputs = .perChannel k → ∃ input, e.inputs[k]? = some input ∧ input.variadic = true

/-- A rule that the entry breaks, as it is reported. -/
inductive Breaks (e : Entry) : EntryFlaw → Prop where
  | primaryOfFixed (hrate : e.rate ≠ .maybe) (hprimary : e.primary ≠ none) : Breaks e .primaryOfFixed
  | maybeAmongRates (hrates : .maybe ∈ e.rates) : Breaks e .maybeAmongRates
  | emptyName (hname : e.name = "") : Breaks e (.descriptor .emptyName)
  | primaryOutOfRange (hrate : e.rate = .maybe) (hrange : e.inputs.length ≤ e.primary.getD 0) :
      Breaks e (.descriptor (.primaryOutOfRange (e.primary.getD 0) e.inputs.length))
  | channelsOfSingle {k : Nat} {input : InputDecl} (houtputs : e.outputs = .perChannel k)
      (hinput : e.inputs[k]? = some input) (hsingle : input.variadic = false) :
      Breaks e (.descriptor (.channelsOfSingle input.name))
  | channelsOfMissing {k : Nat} (houtputs : e.outputs = .perChannel k) (hinput : e.inputs[k]? = none) :
      Breaks e (.descriptor (.channelsOfMissing k))

structure FirstFlaw (e : Entry) (flaw : EntryFlaw) : Prop where
  breaks : e.Breaks flaw
  first : ∀ other, e.Breaks other → flaw.turn ≤ other.turn

/-- The descriptor says what the entry says. -/
structure Describes (e : Entry) (d : Descriptor) : Prop where
  name : d.name = e.name
  fixed : ∀ r, e.rate = .rate r → d.rate = .fixed r
  follow : e.rate = .maybe → d.rate = .follow (e.primary.getD 0)
  rates : d.rates.map .rate = e.rates
  inputs : d.inputs = e.inputs
  outputs : d.outputs = e.outputs
  flags : d.flags = { individual := e.individual, sideEffect := e.sideEffect, doneFlag := e.doneFlag }

variable {e : Entry} {d : Descriptor} {flaw : EntryFlaw}

theorem consistent_iff : e.Consistent ↔ ∀ flaw, ¬ e.Breaks flaw := by
  refine ⟨?_, ?_⟩
  · intro h flaw hbreaks
    cases hbreaks with
    | primaryOfFixed hrate hprimary => exact hrate (h.primary hprimary)
    | maybeAmongRates hrates => exact h.rates hrates
    | emptyName hname => exact h.named hname
    | primaryOutOfRange hrate hrange => exact Nat.not_lt.2 hrange (h.range hrate)
    | channelsOfSingle houtputs hinput hsingle =>
      obtain ⟨input, hinput', hvariadic⟩ := h.channels _ houtputs
      obtain rfl := Option.some.inj (hinput.symm.trans hinput')
      rw [hsingle] at hvariadic
      cases hvariadic
    | channelsOfMissing houtputs hinput =>
      obtain ⟨input, hinput', -⟩ := h.channels _ houtputs
      rw [hinput] at hinput'
      cases hinput'
  · intro h
    refine ⟨fun hname => h _ (.emptyName hname), fun hprimary => ?_, fun hrate => ?_,
      fun hrates => h _ (.maybeAmongRates hrates), fun k houtputs => ?_⟩
    · by_contra hrate
      exact h _ (.primaryOfFixed hrate hprimary)
    · by_contra hrange
      exact h _ (.primaryOutOfRange hrate (Nat.le_of_not_lt hrange))
    · cases hinput : e.inputs[k]? with
      | none => exact absurd (.channelsOfMissing houtputs hinput) (h _)
      | some input =>
        refine ⟨input, rfl, ?_⟩
        by_contra hsingle
        exact h _ (.channelsOfSingle houtputs hinput (Bool.eq_false_iff.2 hsingle))

theorem rule_eq_ok {rate : RateRule} (h : e.rule = .ok rate) :
    (∀ r, e.rate = .rate r → rate = .fixed r) ∧ (e.rate = .maybe → rate = .follow (e.primary.getD 0)) := by
  unfold rule at h
  split at h <;> cases h <;> simp_all

theorem rule_eq_error_iff : e.rule = .error flaw ↔ e.Breaks flaw ∧ flaw.turn = 0 := by
  refine ⟨fun h => ?_, ?_⟩
  · unfold rule at h
    split at h <;> cases h
    exact ⟨.primaryOfFixed (by simp_all) (by simp_all), rfl⟩
  · -- of all rules only the one about the primary input has this turn
    rintro ⟨⟨hrate, hprimary⟩ | _ | _ | _ | _ | _, hturn⟩ <;> cases hturn
    unfold rule
    split <;> simp_all

theorem instanceRate_eq_ok_iff {w : RateWord} {r : Rate} : instanceRate w = .ok r ↔ w = .rate r := by
  cases w <;> simp [instanceRate]

theorem instanceRate_eq_error_iff {w : RateWord} :
    instanceRate w = .error flaw ↔ w = .maybe ∧ flaw = .maybeAmongRates := by
  cases w <;> simp [instanceRate, eq_comm]

theorem instanceRates_eq_ok {words : List RateWord} {rates : List Rate} (h : words.mapM instanceRate = .ok rates) :
    rates.map .rate = words := by
  rw [mapM_eq_ok_iff] at h
  induction h with
  | nil => rfl
  | cons hr _ ih => rw [List.map_cons, ih, instanceRate_eq_ok_iff.1 hr]

theorem instanceRates_eq_error_iff :
    e.rates.mapM instanceRate = .error flaw ↔ e.Breaks flaw ∧ flaw.turn = 1 := by
  refine ⟨fun h => ?_, ?_⟩
  · obtain ⟨w, hw, herror⟩ := exists_of_mapM_eq_error h
    obtain ⟨rfl, rfl⟩ := instanceRate_eq_error_iff.1 herror
    exact ⟨.maybeAmongRates hw, rfl⟩
  · rintro ⟨_ | hrates | _ | _ | _ | _, hturn⟩ <;> cases hturn
    cases h : e.rates.mapM instanceRate with
    | ok rates =>
      rw [← instanceRates_eq_ok h] at hrates
      simp at hrates
    | error flaw =>
      obtain ⟨w, -, herror⟩ := exists_of_mapM_eq_error h
      rw [(instanceRate_eq_error_iff.1 herror).2]

theorem Describes.checkName_eq_error_iff (h : e.Describes d) :
    d.checkName.mapError .descriptor = .error flaw ↔ e.Breaks flaw ∧ flaw.turn = 2 := by
  rw [mapError_eq_error_iff, Descriptor.checkName, h.name]
  refine ⟨?_, ?_⟩
  · rintro ⟨flaw, herror, rfl⟩
    split at herror <;> cases herror
    next hname => exact ⟨.emptyName hname, rfl⟩
  · rintro ⟨_ | _ | hname | _ | _ | _, hturn⟩ <;> cases hturn
    exact ⟨.emptyName, if_pos hname, rfl⟩

theorem Describes.checkRate_eq_error_iff (h : e.Describes d) :
    d.checkRate.mapError .descriptor = .error flaw ↔ e.Breaks flaw ∧ flaw.turn = 3 := by
  rw [mapError_eq_error_iff, Descriptor.checkRate]
  refine ⟨?_, ?_⟩
  · rintro ⟨flaw, herror, rfl⟩
    cases hrate : e.rate with
    | rate r =>
      rw [h.fixed r hrate] at herror
      cases herror
    | maybe =>
      rw [h.follow hrate, h.inputs] at herror
      dsimp only at herror
      split at herror <;> cases herror
      next hrange => exact ⟨.primaryOutOfRange hrate (Nat.le_of_not_lt hrange), rfl⟩
  · rintro ⟨_ | _ | _ | ⟨hrate, hrange⟩ | _ | _, hturn⟩ <;> cases hturn
    refine ⟨_, ?_, rfl⟩
    rw [h.follow hrate, h.inputs]
    exact if_neg (Nat.not_lt.2 hrange)

theorem Describes.checkOutputs_eq_error_iff (h : e.Describes d) :
    d.checkOutputs.mapError .descriptor = .error flaw ↔ e.Breaks flaw ∧ flaw.turn = 4 := by
  rw [mapError_eq_error_iff, Descriptor.checkOutputs, h.outputs, h.inputs]
  refine ⟨?_, ?_⟩
  · rintro ⟨flaw, herror, rfl⟩
    split at herror
    · cases herror
    · cases herror
    · next k houtputs =>
      split at herror
      · next hinput =>
        cases herror
        exact ⟨.channelsOfMissing houtputs hinput, rfl⟩
      · next input hinput =>
        split at herror <;> cases herror
        next hsingle => exact ⟨.channelsOfSingle houtputs hinput (Bool.eq_false_iff.2 hsingle), rfl⟩
  · rintro ⟨_ | _ | _ | _ | ⟨houtputs, hinput, hsingle⟩ | ⟨houtputs, hinput⟩, hturn⟩ <;> cases hturn
    · exact ⟨_, by simp [houtputs, hinput, hsingle], rfl⟩
    · exact ⟨_, by simp [houtputs, hinput], rfl⟩

theorem describes_of_steps {rate : RateRule} {rates : List Rate} (hrate : e.rule = .ok rate)
    (hrates : e.rates.mapM instanceRate = .ok rates) :
    e.Describes
      { name := e.name
        rate, rates
        inputs := e.inputs
        outputs := e.outputs
        flags := { individual := e.individual, sideEffect := e.sideEffect, doneFlag := e.doneFlag } } :=
  ⟨rfl, (rule_eq_ok hrate).1, (rule_eq_ok hrate).2, instanceRates_eq_ok hrates, rfl, rfl, rfl⟩

theorem describes_of_describe (h : e.describe = .ok d) : e.Describes d := by
  obtain ⟨rate, hrate, h⟩ := bind_eq_ok_iff.1 h
  obtain ⟨rates, hrates, h⟩ := bind_eq_ok_iff.1 h
  obtain ⟨⟨⟩, -, h⟩ := bind_eq_ok_iff.1 h
  cases h
  exact describes_of_steps hrate hrates

theorem Breaks.turn_le (h : e.Breaks flaw) : flaw.turn ≤ 4 := by
  cases h <;> simp [EntryFlaw.turn]

theorem reports_describe (e : Entry) : Reports EntryFlaw.turn e.Breaks e.describe := by
  have hsteps : Reports EntryFlaw.turn (fun flaw => e.Breaks flaw ∧ 0 ≤ flaw.turn) e.describe := by
    refine .step (fun _ => rule_eq_error_iff) fun rate hrate => ?_
    refine .step (fun _ => instanceRates_eq_error_iff) fun rates hrates => ?_
    -- whatever the steps after this one report, they report it of this descriptor
    have hd := describes_of_steps hrate hrates
    dsimp only
    rw [Descriptor.check_mapError]
    simp only [bind_assoc]
    refine .step (fun _ => hd.checkName_eq_error_iff) fun _ _ => ?_
    refine .step (fun _ => hd.checkRate_eq_error_iff) fun _ _ => ?_
    refine .step (fun _ => hd.checkOutputs_eq_error_iff) fun _ _ => ?_
    exact reports_pure _ fun flaw h => absurd h.1.turn_le (Nat.not_le.2 h.2)
  exact hsteps.congr fun flaw => and_iff_left flaw.turn.zero_le

theorem exists_toDescriptor_iff : (∃ d, e.toDescriptor = .ok d) ↔ e.Consistent := by
  rw [consistent_iff, ← e.reports_describe.clear]
  exact exists_congr fun d => mapError_eq_ok_iff

theorem FirstFlaw.toDescriptor_eq (h : e.FirstFlaw flaw) : e.toDescriptor = .error (.invalidEntry e.name flaw) :=
  mapError_eq_error_iff.2 ⟨flaw, (e.reports_describe.first flaw).2 ⟨h.breaks, h.first⟩, rfl⟩

theorem consistent_or_firstFlaw (e : Entry) : e.Consistent ∨ ∃ flaw, e.FirstFlaw flaw := by
  cases h : e.describe with
  | ok d => exact .inl (consistent_iff.2 (e.reports_describe.clear.1 ⟨d, h⟩))
  | error flaw =>
    obtain ⟨hbreaks, hfirst⟩ := (e.reports_describe.first flaw).1 h
    exact .inr ⟨flaw, hbreaks, hfirst⟩

end Entry

namespace Settings

structure Orderly (es : List Entry) : Prop where
  distinct : (es.map Entry.name).Nodup
  consistent : ∀ e ∈ es, e.Consistent

/-- What is wrong with an entry behind others, as it is reported: its name before all else. -/
inductive Offence (before : List Entry) (e : Entry) : SettingsError → Prop where
  | repeated (hname : e.name ∈ before.map Entry.name) : Offence before e (.duplicateEntry e.name)
  | flaw {flaw : EntryFlaw} (hname : e.name ∉ before.map Entry.name) (h : e.FirstFlaw flaw) :
      Offence before e (.invalidEntry e.name flaw)

/-- The offence that comes first: the node limit, or else that of the first entry that has one. -/
inductive FirstOffence (s : Settings) : SettingsError → Prop where
  | limit (hlimit : s.maxNodes = 0) :
      FirstOffence s (.invalidSetting "compiler.max_nodes" "must be at least 1")
  | entry {before after : List Entry} {e : Entry} {error : SettingsError} (hlimit : 1 ≤ s.maxNodes)
      (hentries : s.entries = before ++ e :: after) (hbefore : Orderly before) (h : Offence before e error) :
      FirstOffence s error

variable {s : Settings} {seen : List String} {es before rest : List Entry} {e : Entry} {ds : List Descriptor}
  {error : SettingsError}

theorem exists_entryDescriptors_iff : (∃ ds, entryDescriptors [] es = .ok ds) ↔ Orderly es := by
  simp only [entryDescriptors_eq_ok_iff, exists_and_right, exists_forall₂_iff, Entry.exists_toDescriptor_iff]
  exact ⟨fun h => ⟨h.2.1, h.1⟩, fun h => ⟨h.consistent, h.distinct, fun e _ => List.not_mem_nil⟩⟩

/-- Behind accepted entries it goes on with their names. By induction on those in front. -/
theorem entryDescriptors_append_of_error (hbefore : entryDescriptors seen before = .ok ds)
    (herror : entryDescriptors ((before.map Entry.name).reverse ++ seen) rest = .error error) :
    entryDescriptors seen (before ++ rest) = .error error := by
  induction before generalizing seen ds with
  | nil => exact herror
  | cons e before ih =>
    rw [List.map_cons, List.reverse_cons, List.append_assoc] at herror
    rw [entryDescriptors] at hbefore
    rw [List.cons_append, entryDescriptors]
    split at hbefore
    · cases hbefore
    · next hname =>
      obtain ⟨d, hd, hbefore⟩ := bind_eq_ok_iff.1 hbefore
      obtain ⟨ds', hds, -⟩ := bind_eq_ok_iff.1 hbefore
      rw [if_neg hname]
      exact bind_eq_error_iff.2 (.inr ⟨d, hd, bind_eq_error_iff.2 (.inl (ih hds herror))⟩)

theorem Offence.entryDescriptors_eq (h : Offence before e error)
    (hseen : ∀ name, name ∈ seen ↔ name ∈ before.map Entry.name) (after : List Entry) :
    entryDescriptors seen (e :: after) = .error error := by
  rw [entryDescriptors]
  cases h with
  | repeated hname => rw [if_pos (List.contains_iff_mem.2 ((hseen _).2 hname))]
  | flaw hname hflaw =>
    rw [if_neg fun hmem => hname ((hseen _).1 (List.contains_iff_mem.1 hmem))]
    exact bind_eq_error_iff.2 (.inl hflaw.toDescriptor_eq)

theorem FirstOffence.descriptors_eq (h : s.FirstOffence error) : s.descriptors = .error error := by
  cases h with
  | limit hlimit => exact if_pos hlimit
  | entry hlimit hentries hbefore hoffence =>
    obtain ⟨ds, hds⟩ := exists_entryDescriptors_iff.2 hbefore
    rw [descriptors, if_neg (Nat.ne_of_gt hlimit), hentries]
    refine entryDescriptors_append_of_error hds (hoffence.entryDescriptors_eq (fun name => ?_) _)
    rw [List.append_nil, List.mem_reverse]

/-- Entries behind orderly ones either are in order too or have an offence. -/
theorem Orderly.concat_or_offence (h : Orderly es) (e : Entry) :
    Orderly (es ++ [e]) ∨ ∃ error, Offence es e error := by
  by_cases hname : e.name ∈ es.map Entry.name
  · exact .inr ⟨_, .repeated hname⟩
  · rcases e.consistent_or_firstFlaw with he | ⟨flaw, hflaw⟩
    · refine .inl ⟨?_, ?_⟩
      · rw [List.map_append]
        exact h.distinct.append (List.nodup_singleton _) (List.disjoint_singleton.2 hname)
      · exact List.forall_mem_append.2 ⟨h.consistent, List.forall_mem_singleton.2 he⟩
    · exact .inr ⟨_, .flaw hname hflaw⟩

/-- All entries are in order, or there is a first that is not. By induction from the end. -/
theorem orderly_or_offence (es : List Entry) :
    Orderly es ∨ ∃ before e after error, es = before ++ e :: after ∧ Orderly before ∧ Offence before e error := by
  induction es using List.reverseRecOn with
  | nil => exact .inl ⟨List.nodup_nil, List.forall_mem_nil _⟩
  | append_singleton es last ih =>
    rcases ih with horderly | ⟨before, e, after, error, rfl, hbefore, h⟩
    · rcases horderly.concat_or_offence last with hall | ⟨error, h⟩
      · exact .inl hall
      · exact .inr ⟨es, last, [], error, rfl, horderly, h⟩
    · exact .inr ⟨before, e, after ++ [last], error, by simp, hbefore, h⟩

theorem accepted_iff : s.validate = .ok () ↔ 1 ≤ s.maxNodes ∧ Orderly s.entries := by
  rw [validate_eq_ok_iff, descriptors, ← exists_entryDescriptors_iff]
  by_cases hlimit : s.maxNodes = 0
  · simp [hlimit]
  · rw [if_neg hlimit, and_iff_right (Nat.one_le_iff_ne_zero.2 hlimit)]

theorem accepted_or_firstOffence (s : Settings) : s.validate = .ok () ∨ ∃ error, s.FirstOffence error := by
  rw [accepted_iff]
  by_cases hlimit : s.maxNodes = 0
  · exact .inr ⟨_, .limit hlimit⟩
  · have hone := Nat.one_le_iff_ne_zero.2 hlimit
    rcases orderly_or_offence s.entries with horderly | ⟨before, e, after, error, hentries, hbefore, h⟩
    · exact .inl ⟨hone, horderly⟩
    · exact .inr ⟨error, .entry hone hentries hbefore h⟩

theorem FirstOffence.validate_eq (h : s.FirstOffence error) : s.validate = .error error := by
  rw [validate, h.descriptors_eq]
  rfl

theorem validate_eq_error_iff : s.validate = .error error ↔ s.FirstOffence error := by
  refine ⟨fun h => ?_, FirstOffence.validate_eq⟩
  rcases s.accepted_or_firstOffence with hok | ⟨error', hfirst⟩
  · rw [h] at hok
    cases hok
  · have heq := h.symm.trans hfirst.validate_eq
    cases heq
    exact hfirst

/-- Registration that goes through puts the descriptors of the entries into the catalog, without hooks. -/
theorem register_eq_ok {c c' : Catalog} {made : List Descriptor} (h : s.descriptors = .ok ds)
    (hok : s.register c = (.ok made, c')) : made = ds ∧ c' = c.append ds := by
  rcases register_of_descriptors h c with ⟨e, heq⟩ | ⟨-, heq⟩ <;> rw [heq] at hok <;> cases hok
  exact ⟨rfl, rfl⟩

/-- Settings are accepted just if they limit the nodes to at least one, the entries are consistent one by one, and no
two entries share a name. Then each entry has a descriptor that is in order and says what the entry says, and this is
what registration puts into a catalog for it, without a hook. Of other settings the first offence is reported: the
node limit, or that of the first entry that has one, where a name that is taken comes before the entry's own flaws. -/
theorem validate_consistent (s : Settings) :
    (s.validate = .ok () ↔
      1 ≤ s.maxNodes ∧ (s.entries.map Entry.name).Nodup ∧ ∀ e ∈ s.entries, e.Consistent) ∧
    (s.validate = .ok () → ∃ ds,
      List.Forall₂ (fun e d => e.toDescriptor = .ok d ∧ d.validate = .ok () ∧ e.Describes d) s.entries ds ∧
        ∀ (c c' : Catalog) (made : List Descriptor), s.register c = (.ok made, c') →
          made = ds ∧ c'.entries = c.entries ++ (ds.map (Generator.mk · none)).toArray) ∧
    ∀ error, s.validate = .error error ↔ s.FirstOffence error := by
  refine ⟨?_, fun hok => ?_, fun error => validate_eq_error_iff⟩
  · rw [accepted_iff]
    exact and_congr_right fun _ => ⟨fun h => ⟨h.distinct, h.consistent⟩, fun h => ⟨h.1, h.2⟩⟩
  · obtain ⟨ds, hds⟩ := validate_eq_ok_iff.1 hok
    obtain ⟨-, hall, -⟩ := descriptors_eq_ok_iff.1 hds
    refine ⟨ds, hall.imp fun e d hd => ?_, fun c c' made hmade => ?_⟩
    · exact ⟨hd, Descriptor.validate_eq_ok_iff.2 (Entry.toDescriptor_eq_ok hd).2,
        Entry.describes_of_describe (mapError_eq_ok_iff.1 hd)⟩
    · obtain ⟨rfl, rfl⟩ := register_eq_ok hds hmade
      exact ⟨rfl, rfl⟩

def grains : Entry :=
  { name := "Grains", rate := .maybe, rates := [.rate .audio, .rate .control], individual := true,
    outputs := .perChannel 1, inputs := [⟨"trigger", .matchAudio, false⟩, ⟨"sources", .any, true⟩] }

def muddled : Settings := { entries := [blip, grains, { grains with rate := .rate .audio, primary := some 5 }] }

theorem validate_consistent_grains :
    (⟨8, true, [blip, grains]⟩ : Settings).validate = .ok () ∧
      (∃ d, grains.toDescriptor = .ok d ∧ d.rate = .follow 0 ∧ d.flags.individual = true) ∧
      muddled.validate = .error (.duplicateEntry "Grains") := by
  have hblip : blip.Consistent := ⟨by decide, by decide, by decide, by decide, fun _ h => nomatch h⟩
  have hgrains : grains.Consistent := by
    refine ⟨by decide, by decide, by decide, by decide, fun k h => ?_⟩
    cases h
    exact ⟨_, rfl, rfl⟩
  have hboth : ∀ e ∈ [blip, grains], e.Consistent := by simp [hblip, hgrains]
  obtain ⟨haccepted, hdescribed, -⟩ := validate_consistent ⟨8, true, [blip, grains]⟩
  have hok := haccepted.2 ⟨by decide, by decide, hboth⟩
  refine ⟨hok, ?_, ((validate_consistent muddled).2.2 _).2 ?_⟩
  · obtain ⟨ds, hall, -⟩ := hdescribed hok
    obtain ⟨d, -, hd, -, hentry⟩ := exists_right_of_forall₂ (i := 1) hall rfl
    exact ⟨d, hd, hentry.follow rfl, by rw [hentry.flags]; rfl⟩
  · have hentries : muddled.entries =
        [blip, grains] ++ [{ grains with rate := .rate .audio, primary := some 5 }] := rfl
    exact .entry (by decide) hentries ⟨by decide, hboth⟩ (.repeated (by decide))

end Settings

end SoundGraph
