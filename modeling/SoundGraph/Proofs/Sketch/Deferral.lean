import Mathlib.Data.List.Nodup
import SoundGraph.Compile
import SoundGraph.Proofs.Sketch.Admission

/-! Nodes that are declared first and defined later. As long as their arguments are withheld the sketch has all of the
sketch in which the nodes were added at once, less those arguments. No other call looks at them, so either sketch
gives it the same answer and the difference stays what it was; a definition at last makes it less by one node. So it
does not matter when the nodes are defined, nor in which order. -/

namespace SoundGraph

def PendingNode.declaration (node : PendingNode) : PendingNode := { node with args := none }

namespace Sketch

/-- The sketch before the nodes of these numbers were given their arguments. -/
def withhold (s : Sketch) (ids : List Nat) : Sketch :=
  { s with pending := s.pending.mapIdx fun i node => if i ∈ ids then node.declaration else node }

variable {s t : Sketch} {ids : List Nat}

@[simp] theorem size_withhold : (s.withhold ids).size = s.size := by
  simp [size, withhold]

theorem getElem?_withhold (i : Nat) :
    (s.withhold ids).pending[i]? = s.pending[i]?.map fun node => if i ∈ ids then node.declaration else node := by
  simp [withhold]

theorem eq_withhold (hcontrols : t.controls = s.controls) (hgroups : t.groups = s.groups)
    (hpending : ∀ i : Nat, t.pending[i]? = (s.withhold ids).pending[i]?) : t = s.withhold ids := by
  obtain ⟨pending, controls, groups⟩ := t
  obtain rfl : controls = s.controls := hcontrols
  obtain rfl : groups = s.groups := hgroups
  obtain rfl : pending = (s.withhold ids).pending := Array.ext_getElem? hpending
  rfl

theorem withhold_nil : s.withhold [] = s := by
  refine (eq_withhold rfl rfl fun i => ?_).symm
  rw [getElem?_withhold]
  simp

theorem checkArgs_withhold {d : Descriptor} {args : List Element} :
    (s.withhold ids).checkArgs d args = s.checkArgs d args := by
  rw [checkArgs, checkArgs, size_withhold]

/-- A node recorded in either sketch, in the one possibly without its arguments. -/
theorem record_withhold {ids' : List Nat} {node node' : PendingNode} (hids : ∀ i < s.size, i ∈ ids' ↔ i ∈ ids)
    (hnode : node' = if s.size ∈ ids' then node.declaration else node) :
    (s.withhold ids).record node' = ((s.record node).1, (s.record node).2.withhold ids') := by
  refine Prod.ext (by simp [record]) (eq_withhold rfl rfl fun i => ?_)
  have hsize : (s.withhold ids).pending.size = s.size := size_withhold
  rw [getElem?_withhold, record, record, Array.getElem?_push, Array.getElem?_push, getElem?_withhold, hsize, ← size]
  by_cases hi : i = s.size
  · rw [if_pos hi, if_pos hi, hnode, hi]
    rfl
  · rw [if_neg hi, if_neg hi]
    cases hp : s.pending[i]? with
    | none => rfl
    | some node =>
      have hlt : i < s.size := (Array.getElem?_eq_some_iff.1 hp).1
      simp only [Option.map_some, hids i hlt]

/-- Calls that answer alike leave the same difference. -/
theorem answer_withhold {act act' : Except CompileError (Element × Sketch)}
    (h : act' = act.map fun p => (p.1, p.2.withhold ids)) :
    (s.withhold ids).answer act' = ((s.answer act).1, (s.answer act).2.withhold ids) := by
  rw [h]
  cases act <;> rfl

theorem addWith_withhold (hids : ∀ id ∈ ids, id < s.size) {g : Generator} {rule : RateRule} {args : List Element} :
    (s.withhold ids).addWith g rule args = (s.addWith g rule args).map fun p => (p.1, p.2.withhold ids) := by
  have hnew : s.size ∉ ids := fun h => Nat.lt_irrefl _ (hids _ h)
  rw [addWith, addWith, checkArgs_withhold]
  cases s.checkArgs g.descriptor args with
  | error e => rfl
  | ok u => exact congrArg Except.ok (record_withhold (fun _ _ => Iff.rfl) (by rw [if_neg hnew]))

theorem declare_withhold (hids : ∀ id ∈ ids, id < s.size) {g : Generator} {rule : RateRule} :
    (s.withhold ids).record ⟨g, rule, none⟩ =
      ((s.record ⟨g, rule, none⟩).1, (s.record ⟨g, rule, none⟩).2.withhold ids) :=
  record_withhold (fun _ _ => Iff.rfl) (by rw [if_neg fun h => Nat.lt_irrefl _ (hids _ h)])

theorem define_withhold {id : Nat} (hid : id ∉ ids) {args : List Element} :
    (s.withhold ids).define id args = (s.define id args).map (·.withhold ids) := by
  have hsize : (s.withhold ids).pending.size = s.pending.size := size_withhold
  by_cases hlt : id < s.pending.size
  · have hlt' : id < (s.withhold ids).pending.size := hsize ▸ hlt
    have hnode : (s.withhold ids).pending[id] = s.pending[id] := by simp [withhold, hid]
    rw [define, define, dif_pos hlt', dif_pos hlt]
    simp only [hnode, checkArgs_withhold]
    split
    · rfl
    · cases s.checkArgs s.pending[id].generator.descriptor args with
      | error e => rfl
      | ok u =>
        refine congrArg Except.ok (eq_withhold rfl rfl fun i => ?_)
        rw [getElem?_withhold, Array.getElem?_set, Array.getElem?_set, getElem?_withhold]
        by_cases hi : id = i
        · subst hi
          rw [if_pos rfl, if_pos rfl, Option.map_some, if_neg hid]
        · rw [if_neg hi, if_neg hi]
  · rw [define, define, dif_neg (hsize ▸ hlt), dif_neg hlt]
    rfl

theorem control_withhold {name : String} {rate : Rate} {default : Sample} :
    (s.withhold ids).control name rate default =
      (s.control name rate default).map fun p => (p.1, p.2.withhold ids) := by
  have hcontrols : (s.withhold ids).controls = s.controls := rfl
  rw [control, control, hcontrols]
  split
  · rfl
  · split <;> rfl

/-- No call but their definition looks at arguments that are withheld. -/
theorem perform_withhold (hids : ∀ id ∈ ids, id < s.size) {call : Call}
    (hcall : ∀ id args, call = .define id args → id ∉ ids) :
    (s.withhold ids).perform call = ((s.perform call).1, (s.perform call).2.withhold ids) := by
  cases call with
  | add g args => exact answer_withhold (addWith_withhold hids)
  | addAt g rate args =>
    refine answer_withhold ?_
    rw [addAt, addAt, addWith_withhold hids]
    cases checkRate g.descriptor rate <;> rfl
  | declare g =>
    rw [perform, perform]
    refine answer_withhold ?_
    rw [Sketch.declare, Sketch.declare, declare_withhold hids]
    rfl
  | declareAt g rate =>
    refine answer_withhold ?_
    rw [declareAt, declareAt, declare_withhold hids]
    cases checkRate g.descriptor rate <;> rfl
  | define id args =>
    rw [perform, perform, define_withhold (hcall id args rfl)]
    cases s.define id args <;> rfl
  | control name rate default => exact answer_withhold control_withhold

def Call.adding (g : Generator) (args : List Element) : Option Rate → Call
  | none => .add g args
  | some rate => .addAt g rate args

def Call.declaring (g : Generator) : Option Rate → Call
  | none => .declare g
  | some rate => .declareAt g rate

def Call.defining (p : Nat × List Element) : Call := .define p.1 p.2

/-- A step of a run that is made in one of two ways. -/
inductive Move where
  /-- A call that is made in either way. -/
  | same (call : Call)
  /-- An instance that is added, or only declared. -/
  | put (g : Generator) (rate : Option Rate) (args : List Element)
  /-- The definition of an instance that was only declared. -/
  | redeem (id : Nat) (args : List Element)

namespace Move

def direct : Move → List Call
  | same call => [call]
  | put g rate args => [.adding g args rate]
  | redeem _ _ => []

def deferred : Move → List Call
  | same call => [call]
  | put g rate _ => [.declaring g rate]
  | redeem id args => [.define id args]

def AnswersAlike (s t : Sketch) : Move → Prop
  | same call => (t.perform call).1 = (s.perform call).1
  | put g rate args => (t.perform (.declaring g rate)).1 = (s.perform (.adding g args rate)).1
  | redeem id args => (t.perform (.define id args)).1 = .ok none

end Move

/-- The steps redeem what is owed, the numbers of nodes that were only declared, with the arguments that they were to be
added with; `s` is the sketch to which they have been added. Each addition put off is one that is accepted, and is
redeemed once, later on; no other call defines its node while it is owed. -/
inductive Redeems : Sketch → List (Nat × List Element) → List Move → Prop where
  | done {s : Sketch} : Redeems s [] []
  | same {s : Sketch} {owed : List (Nat × List Element)} {call : Call} {steps : List Move}
    (hfree : ∀ id args, call = .define id args → id ∉ owed.map Prod.fst)
    (h : Redeems (s.perform call).2 owed steps) : Redeems s owed (.same call :: steps)
  | put {s : Sketch} {owed : List (Nat × List Element)} {g : Generator} {rate : Option Rate} {args : List Element}
    {id : Nat} {steps : List Move} (hok : (s.perform (.adding g args rate)).1 = .ok (some (.pending id)))
    (h : Redeems (s.perform (.adding g args rate)).2 ((id, args) :: owed) steps) :
    Redeems s owed (.put g rate args :: steps)
  | redeem {s : Sketch} {front back : List (Nat × List Element)} {id : Nat} {args : List Element} {steps : List Move}
    (h : Redeems s (front ++ back) steps) : Redeems s (front ++ (id, args) :: back) (.redeem id args :: steps)

def Holds (s : Sketch) (id : Nat) (args : List Element) : Prop :=
  ∃ node, s.pending[id]? = some node ∧ node.args = some args ∧ s.Fits node.generator.descriptor args

/-- What is owed has been added. -/
structure Owes (s : Sketch) (owed : List (Nat × List Element)) : Prop where
  distinct : (owed.map Prod.fst).Nodup
  held : ∀ p ∈ owed, s.Holds p.1 p.2

variable {owed : List (Nat × List Element)} {g : Generator} {rate : Option Rate} {id : Nat} {args : List Element}

theorem Holds.lt_size (h : s.Holds id args) : id < s.size := by
  obtain ⟨node, hnode, -⟩ := h
  exact (Array.getElem?_eq_some_iff.1 hnode).1

theorem Holds.kept (h : s.Holds id args) (hle : s.size ≤ t.size) (heq : t.pending[id]? = s.pending[id]?) :
    t.Holds id args := by
  obtain ⟨node, hnode, hargs, hfits⟩ := h
  exact ⟨node, heq.trans hnode, hargs, hfits.mono hle⟩

theorem Holds.record (h : s.Holds id args) (node : PendingNode) : (s.record node).2.Holds id args := by
  refine h.kept (by simp [size, Sketch.record]) ?_
  rw [Sketch.record, Array.getElem?_push, ← size, if_neg (Nat.ne_of_lt h.lt_size)]

/-- The node that is defined had no arguments, so it is another one. -/
theorem Holds.define (h : s.Holds id args) {id' : Nat} {args' : List Element} (hok : s.define id' args' = .ok t) :
    t.Holds id args := by
  obtain ⟨hlt, hnone, -, rfl⟩ := eq_of_define hok
  refine h.kept (by simp [size]) ?_
  rw [Array.getElem?_set, if_neg]
  rintro rfl
  obtain ⟨node, hnode, hargs, -⟩ := h
  rw [Array.getElem?_eq_getElem hlt, Option.some.injEq] at hnode
  rw [hnode, hargs] at hnone
  cases hnone

theorem Holds.perform (h : s.Holds id args) (call : Call) : (s.perform call).2.Holds id args := by
  refine perform_keeps h call (fun g rule args' e s' hok => ?_) (fun g rule => h.record _)
    (fun id' args' s' hok => h.define hok) fun name rate default e s' _ hok => ?_
  · obtain ⟨_, -, hok⟩ := bind_eq_ok_iff.1 hok
    cases hok
    exact h.record _
  · obtain ⟨-, -, -, rfl⟩ := eq_of_control hok
    exact h.kept (Nat.le_refl _) rfl

theorem Owes.perform (h : s.Owes owed) (call : Call) : (s.perform call).2.Owes owed :=
  ⟨h.distinct, fun p hp => (h.held p hp).perform call⟩

theorem Owes.lt_size (h : s.Owes owed) : ∀ id ∈ owed.map Prod.fst, id < s.size := by
  intro id hid
  obtain ⟨p, hp, rfl⟩ := List.mem_map.1 hid
  exact (h.held p hp).lt_size

/-- An accepted addition, and the declaration in its place. -/
theorem exists_rule_of_adding (hok : (s.perform (.adding g args rate)).1 = .ok (some (.pending id))) :
    ∃ rule, s.Fits g.descriptor args ∧ id = s.size ∧
      s.perform (.adding g args rate) = (.ok (some (.pending s.size)), (s.record ⟨g, rule, some args⟩).2) ∧
      ∀ t : Sketch, t.perform (.declaring g rate) = (.ok (some (.pending t.size)), (t.record ⟨g, rule, none⟩).2) := by
  have hadmits := admits_of_perform hok
  have hperform := perform_of_admits hadmits
  rw [hperform] at hok
  cases rate with
  | none =>
    cases hok
    exact ⟨g.descriptor.rate, hadmits, rfl, hperform, fun t => rfl⟩
  | some rate =>
    cases hok
    exact ⟨.fixed rate, hadmits.2, rfl, hperform, fun t =>
      perform_of_admits (show t.Admits (.declareAt g rate) from hadmits.1)⟩

theorem perform_declaring (ids : List Nat)
    (hok : (s.perform (.adding g args rate)).1 = .ok (some (.pending id))) :
    (s.withhold ids).perform (.declaring g rate) =
      (.ok (some (.pending id)), (s.perform (.adding g args rate)).2.withhold (id :: ids)) := by
  obtain ⟨rule, -, rfl, hadd, hdeclare⟩ := exists_rule_of_adding hok
  have hrecord : (s.withhold ids).record ⟨g, rule, none⟩ =
      ((s.record ⟨g, rule, some args⟩).1, (s.record ⟨g, rule, some args⟩).2.withhold (s.size :: ids)) := by
    refine record_withhold (fun i hi => ?_) (by rw [if_pos List.mem_cons_self]; rfl)
    rw [List.mem_cons, or_iff_right (Nat.ne_of_lt hi)]
  rw [hadd, hdeclare, hrecord, size_withhold]

theorem Owes.adding (h : s.Owes owed) (hok : (s.perform (.adding g args rate)).1 = .ok (some (.pending id))) :
    (s.perform (.adding g args rate)).2.Owes ((id, args) :: owed) := by
  have hkept := h.perform (.adding g args rate)
  obtain ⟨rule, hfits, rfl, hadd, -⟩ := exists_rule_of_adding hok
  have hnew : s.size ∉ owed.map Prod.fst := fun hmem => Nat.lt_irrefl _ (h.lt_size _ hmem)
  refine ⟨List.nodup_cons.2 ⟨hnew, h.distinct⟩, List.forall_mem_cons.2 ⟨?_, hkept.held⟩⟩
  rw [hadd]
  refine ⟨⟨g, rule, some args⟩, Array.getElem?_push_size, rfl, hfits.mono (by simp [size, record])⟩

/-- The definition gives back what was withheld. -/
theorem define_owed {front back : List Nat} (hid : id ∉ front ++ back) (h : s.Holds id args) :
    (s.withhold (front ++ id :: back)).define id args = .ok (s.withhold (front ++ back)) := by
  obtain ⟨node, hnode, hargs, hfits⟩ := h
  have hmem : id ∈ front ++ id :: back := by simp
  have hwithheld : (s.withhold (front ++ id :: back)).pending[id]? = some node.declaration := by
    rw [getElem?_withhold, hnode, Option.map_some, if_pos hmem]
  have hfits' : (s.withhold (front ++ id :: back)).Fits node.declaration.generator.descriptor args :=
    hfits.mono (Nat.le_of_eq size_withhold.symm)
  rw [define_of_fits hwithheld rfl hfits']
  refine congrArg Except.ok (eq_withhold rfl rfl fun i => ?_)
  rw [Array.getElem?_modify, getElem?_withhold]
  by_cases hi : id = i
  · subst hi
    rw [if_pos rfl, ← getElem?_withhold, hwithheld, getElem?_withhold, hnode, Option.map_some, Option.map_some,
      if_neg hid, ← hargs]
    rfl
  · have hother : i ∈ front ++ id :: back ↔ i ∈ front ++ back := by simp [Ne.symm hi]
    simp only [if_neg hi, getElem?_withhold, hother]

theorem Owes.redeem {front back : List (Nat × List Element)} (h : s.Owes (front ++ (id, args) :: back)) :
    s.Holds id args ∧ id ∉ front.map Prod.fst ++ back.map Prod.fst ∧ s.Owes (front ++ back) := by
  have hdistinct := h.distinct
  rw [List.map_append, List.map_cons, List.nodup_middle, List.nodup_cons] at hdistinct
  refine ⟨h.held (id, args) (by simp), hdistinct.1, ⟨?_, fun p hp => h.held p ?_⟩⟩
  · rw [List.map_append]
    exact hdistinct.2
  · rw [List.mem_append] at hp ⊢
    exact hp.imp_right (List.mem_cons_of_mem _)

/-- One step made in either way is answered alike, and what it leaves behind differs in what is owed then. -/
theorem Redeems.step {step : Move} {steps : List Move} (h : Redeems s owed (step :: steps)) (howes : s.Owes owed) :
    step.AnswersAlike s (s.withhold (owed.map Prod.fst)) ∧
      ∃ owed', Redeems (s.run step.direct) owed' steps ∧ (s.run step.direct).Owes owed' ∧
        (s.withhold (owed.map Prod.fst)).run step.deferred = (s.run step.direct).withhold (owed'.map Prod.fst) := by
  cases h with
  | @same _ _ call _ hfree h =>
    have hperform := perform_withhold howes.lt_size hfree
    exact ⟨by rw [Move.AnswersAlike, hperform], owed, h, howes.perform call, congrArg Prod.snd hperform⟩
  | @put _ _ g rate args id _ hok h =>
    have hperform := perform_declaring (owed.map Prod.fst) hok
    refine ⟨?_, _, h, howes.adding hok, congrArg Prod.snd hperform⟩
    rw [Move.AnswersAlike, hperform, hok]
  | @redeem _ front back id args _ h =>
    obtain ⟨hheld, hid, hrest⟩ := howes.redeem
    have hdefine := define_owed hid hheld
    have hperform : (s.withhold ((front ++ (id, args) :: back).map Prod.fst)).perform (.define id args) =
        (.ok none, s.withhold ((front ++ back).map Prod.fst)) := by
      rw [List.map_append, List.map_cons, List.map_append, Sketch.perform, hdefine]
    exact ⟨by rw [Move.AnswersAlike, hperform], _, h, hrest, congrArg Prod.snd hperform⟩

theorem run_append (s : Sketch) (calls calls' : List Call) : s.run (calls ++ calls') = (s.run calls).run calls' :=
  List.foldl_append

/-- By induction on the steps made so far: what is owed is all the difference between the two ways. -/
theorem Redeems.run {front steps : List Move} (h : Redeems s owed (front ++ steps)) (howes : s.Owes owed) :
    ∃ owed', Redeems (s.run (front.flatMap Move.direct)) owed' steps ∧
      (s.run (front.flatMap Move.direct)).Owes owed' ∧
      (s.withhold (owed.map Prod.fst)).run (front.flatMap Move.deferred) =
        (s.run (front.flatMap Move.direct)).withhold (owed'.map Prod.fst) := by
  induction front generalizing s owed with
  | nil => exact ⟨owed, h, howes, rfl⟩
  | cons step front ih =>
    obtain ⟨-, owed', hsteps, howes', heq⟩ := h.step howes
    rw [List.flatMap_cons, List.flatMap_cons, run_append, run_append, heq]
    exact ih hsteps howes'

theorem owes_nil : s.Owes [] := ⟨List.nodup_nil, List.forall_mem_nil _⟩

/-- Calls that are made in either way redeem nothing and put nothing off. -/
theorem redeems_same {calls : List Call} {steps : List Move}
    (hfree : ∀ id args, Call.define id args ∈ calls → id ∉ owed.map Prod.fst)
    (h : Redeems (s.run calls) owed steps) : Redeems s owed (calls.map .same ++ steps) := by
  induction calls generalizing s with
  | nil => exact h
  | cons call calls ih =>
    refine .same (fun id args heq => hfree id args (heq ▸ List.mem_cons_self)) (ih (fun id args hmem => ?_) h)
    exact hfree id args (List.mem_cons_of_mem _ hmem)

/-- A definition has no say in whether that of another node is in order. -/
theorem admits_define_iff {id' : Nat} (hne : id ≠ id') {args' : List Element} :
    (s.perform (.define id args)).2.Admits (.define id' args') ↔ s.Admits (.define id' args') := by
  by_cases h : s.Admits (.define id args)
  · rw [perform_of_admits h]
    have hsize : (s.grant (.define id args)).2.size = s.size := by simp [grant, size]
    have hkept : (s.grant (.define id args)).2.pending[id']? = s.pending[id']? := by
      rw [grant, Array.getElem?_modify, if_neg hne]
    have hfits : ∀ d, (s.grant (.define id args)).2.Fits d args' ↔ s.Fits d args' := fun d =>
      ⟨Fits.mono (Nat.le_of_eq hsize), Fits.mono (Nat.le_of_eq hsize.symm)⟩
    simp only [Admits, hkept, hfits]
  · obtain ⟨e, he⟩ := perform_of_not_admits h
    rw [he]

theorem grant_define_comm {id' : Nat} (hne : id ≠ id') {args' : List Element} :
    ((s.grant (.define id args)).2.grant (.define id' args')).2 =
      ((s.grant (.define id' args')).2.grant (.define id args)).2 := by
  have hpending : ∀ f g : PendingNode → PendingNode,
      (s.pending.modify id f).modify id' g = (s.pending.modify id' g).modify id f := by
    intro f g
    refine Array.ext_getElem? fun i => ?_
    simp only [Array.getElem?_modify]
    by_cases hi : id = i
    · have hi' : id' ≠ i := fun h => hne (hi.trans h.symm)
      simp only [if_pos hi, if_neg hi']
    · simp only [if_neg hi]
  simp only [grant, hpending]

theorem perform_define_comm {id' : Nat} (hne : id ≠ id') {args' : List Element} :
    ((s.perform (.define id args)).2.perform (.define id' args')).2 =
      ((s.perform (.define id' args')).2.perform (.define id args)).2 := by
  have hlast : (s.perform (.define id args)).2.Admits (.define id' args') ↔ s.Admits (.define id' args') :=
    admits_define_iff hne
  have hfirst : (s.perform (.define id' args')).2.Admits (.define id args) ↔ s.Admits (.define id args) :=
    admits_define_iff hne.symm
  have hout : ∀ {t : Sketch} {call : Call}, ¬ t.Admits call → (t.perform call).2 = t := fun h => by
    obtain ⟨e, he⟩ := perform_of_not_admits h
    rw [he]
  by_cases h : s.Admits (.define id args)
  · by_cases h' : s.Admits (.define id' args')
    · rw [perform_of_admits (hlast.2 h'), perform_of_admits (hfirst.2 h), perform_of_admits h, perform_of_admits h']
      exact grant_define_comm hne
    · rw [hout (mt hlast.1 h'), hout h']
  · rw [hout (mt hfirst.1 h), hout h]

/-- The order of definitions of different nodes does not matter, whether they are in order or not. -/
theorem run_defining_of_perm {defs defs' : List (Nat × List Element)} (h : defs.Perm defs')
    (hdistinct : (defs.map Prod.fst).Nodup) (s : Sketch) :
    s.run (defs.map Call.defining) = s.run (defs'.map Call.defining) := by
  rw [run, run, List.foldl_map, List.foldl_map]
  refine h.foldl_eq' (fun p hp q hq t => ?_) s
  by_cases heq : p.1 = q.1
  · rw [List.inj_on_of_nodup_map hdistinct hp hq heq]
  · exact perform_define_comm heq

/-- Declaring first and defining later. A run in which accepted additions are put off, each to any later point, and
redeemed in any order, gives every other call the answer that it gets in the direct run, a declaration that of the
addition, and leads to the same sketch, and so to the same result of compilation under every limit. Any accepted
addition of a run can be put off to any point up to which no other call defines its node, and definitions of
different nodes that follow each other can change places. -/
theorem run_deferred (s : Sketch) :
    (∀ steps, Redeems s [] steps →
        (∀ front step back, steps = front ++ step :: back →
          step.AnswersAlike (s.run (front.flatMap Move.direct)) (s.run (front.flatMap Move.deferred))) ∧
        s.run (steps.flatMap Move.deferred) = s.run (steps.flatMap Move.direct) ∧
        ∀ limit, (s.run (steps.flatMap Move.deferred)).compile limit =
          (s.run (steps.flatMap Move.direct)).compile limit) ∧
      (∀ (before middle after : List Call) g rate args id,
        ((s.run before).perform (.adding g args rate)).1 = .ok (some (.pending id)) →
        (∀ args', Call.define id args' ∉ middle) →
        Redeems s [] (before.map .same ++ .put g rate args ::
          (middle.map .same ++ .redeem id args :: after.map .same))) ∧
      ∀ defs defs' : List (Nat × List Element), defs.Perm defs' → (defs.map Prod.fst).Nodup →
        s.run (defs.map Call.defining) = s.run (defs'.map Call.defining) := by
  refine ⟨fun steps h => ?_, fun before middle after g rate args id hok hfree => ?_,
    fun defs defs' hperm hdistinct => run_defining_of_perm hperm hdistinct s⟩
  · have hrun : s.run (steps.flatMap Move.deferred) = s.run (steps.flatMap Move.direct) := by
      have hall : Redeems s [] (steps ++ []) := by rwa [List.append_nil]
      obtain ⟨owed, hend, -, heq⟩ := hall.run owes_nil
      cases hend
      rwa [List.map_nil, withhold_nil, withhold_nil] at heq
    refine ⟨fun front step back hsteps => ?_, hrun, fun limit => by rw [hrun]⟩
    subst hsteps
    obtain ⟨owed, hrest, howes, heq⟩ := h.run owes_nil
    rw [List.map_nil, withhold_nil] at heq
    rw [heq]
    exact (hrest.step howes).1
  · have hafter : ∀ t : Sketch, Redeems t [] (after.map .same ++ []) := fun t =>
      redeems_same (fun _ _ _ => List.not_mem_nil) .done
    have hredeem : ∀ t : Sketch, Redeems t ([] ++ (id, args) :: []) (.redeem id args :: after.map .same) := fun t =>
      .redeem (by simpa using hafter t)
    refine redeems_same (fun _ _ _ => List.not_mem_nil) (.put hok ?_)
    refine redeems_same (fun id' args' hmem hid => ?_) (hredeem _)
    obtain rfl : id' = id := by simpa using hid
    exact hfree args' hmem

def hiss : Generator :=
  ⟨{ name := "WhiteNoise", rate := .fixed .audio, flags := { individual := true } }, none⟩

def resonance : Generator := ⟨{ name := "LPF", rate := .follow 0, inputs := [⟨"in", .matchAudio, false⟩] }, none⟩

/-- A noise and a filter behind it are only declared, a call is refused, a second filter takes the first one up, and
then the filter is defined before the noise. -/
def crossedMoves : List Move :=
  [.put hiss none [], .put resonance (some .audio) [.pending 0], .same (.add hiss [.const .zero]),
    .same (.add resonance [.pending 1]), .redeem 1 [.pending 0], .redeem 0 []]

theorem run_deferred_crossed :
    Redeems {} [] crossedMoves ∧
      ({} : Sketch).run [.declare hiss, .declareAt resonance .audio, .add hiss [.const .zero],
          .add resonance [.pending 1], .define 1 [.pending 0], .define 0 []] =
        ({} : Sketch).run [.add hiss [], .addAt resonance .audio [.pending 0], .add hiss [.const .zero],
          .add resonance [.pending 1]] := by
  have hnoise : ∀ t : Sketch, Redeems t ([] ++ (0, []) :: []) [.redeem 0 []] := fun t => .redeem .done
  have hfilter : ∀ t : Sketch, Redeems t ([] ++ (1, [.pending 0]) :: [(0, [])])
      [.redeem 1 [.pending 0], .redeem 0 []] := fun t => .redeem (hnoise t)
  have h : Redeems {} [] crossedMoves :=
    .put rfl (.put rfl (.same (fun _ _ heq => by cases heq) (.same (fun _ _ heq => by cases heq) (hfilter _))))
  exact ⟨h, ((run_deferred {}).1 crossedMoves h).2.1⟩

end Sketch

end SoundGraph
