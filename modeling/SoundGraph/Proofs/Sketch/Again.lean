import SoundGraph.Proofs.Sketch.Accepted

/-! Recording a node again. A sketch made by calls only holds nodes with rate rules that a call gives and with
arguments that have passed the check. Both stay so while the sketch grows, and so the same node can be recorded
once more, in one call or declared first and then defined. -/

namespace SoundGraph.Sketch

variable {s : Sketch} {node : PendingNode} {args : List Element}

structure Accepts (s : Sketch) (node : PendingNode) : Prop where
  rule : Permits node.generator node.rule
  args : ∀ args, node.args = some args → s.checkArgs node.generator.descriptor args = .ok ()

theorem Accepts.mono {s' : Sketch} (hle : s.size ≤ s'.size) (h : s.Accepts node) : s'.Accepts node :=
  ⟨h.rule, fun args hargs => checkArgs_mono hle (h.args args hargs)⟩

def Checked (s : Sketch) : Prop := ∀ node ∈ s.pending.toList, s.Accepts node

theorem checked_empty : ({} : Sketch).Checked := fun node h => by simp at h

theorem Checked.record (h : s.Checked) (hnode : s.Accepts node) : (s.record node).2.Checked := by
  have hle : s.size ≤ (s.record node).2.size := by simp [size, Sketch.record]
  intro n hn
  rw [Sketch.record, Array.toList_push, List.mem_append, List.mem_singleton] at hn
  rcases hn with hn | rfl
  · exact (h n hn).mono hle
  · exact hnode.mono hle

theorem Checked.define (h : s.Checked) {id : Nat} {s' : Sketch} (hok : s.define id args = .ok s') : s'.Checked := by
  obtain ⟨hlt, -, hcheck, rfl⟩ := eq_of_define hok
  have hold := h _ (Array.getElem_mem_toList hlt)
  intro n hn
  have hsize :
      s.size ≤ Sketch.size { s with pending := s.pending.set id { s.pending[id] with args := some args } } := by
    simp [size]
  rw [Array.toList_set] at hn
  rcases List.mem_or_eq_of_mem_set hn with hn | rfl
  · exact (h n hn).mono hsize
  · refine Accepts.mono hsize ⟨hold.rule, fun args' hsome => ?_⟩
    cases hsome
    exact hcheck

theorem Checked.run (h : s.Checked) (calls : List Call) : (s.run calls).Checked := by
  refine run_keeps (fun s h call => perform_keeps_permitted h call ?_ ?_ (fun _ _ _ hok => h.define hok) ?_) h calls
  · intro g rule args e s' hrule hok
    obtain ⟨_, hcheck, hok⟩ := bind_eq_ok_iff.1 hok
    cases hok
    refine h.record ⟨hrule, fun args' hsome => ?_⟩
    cases hsome
    exact hcheck
  · exact fun g rule hrule => h.record ⟨hrule, fun args hsome => by cases hsome⟩
  · intro name rate default e s' _ hok
    obtain ⟨-, -, -, rfl⟩ := eq_of_control hok
    exact fun n hn => Accepts.mono (s := s) (Nat.le_refl _) (h n hn)

/-- The calls that record the node: with its arguments, or as a declaration that gets number `id` and is then
defined; in either case at the rate of its descriptor or at one given rate. -/
inductive Recording (id : Nat) : PendingNode → List Call → Prop where
  | add {g : Generator} {args : List Element} : Recording id ⟨g, g.descriptor.rate, some args⟩ [.add g args]
  | addAt {g : Generator} {rate : Rate} {args : List Element} (h : checkRate g.descriptor rate = .ok ()) :
    Recording id ⟨g, .fixed rate, some args⟩ [.addAt g rate args]
  | declare {g : Generator} {args : List Element} :
    Recording id ⟨g, g.descriptor.rate, some args⟩ [.declare g, .define id args]
  | declareAt {g : Generator} {rate : Rate} {args : List Element} (h : checkRate g.descriptor rate = .ok ()) :
    Recording id ⟨g, .fixed rate, some args⟩ [.declareAt g rate, .define id args]

theorem Accepts.exists_recording (h : s.Accepts node) (hargs : node.args = some args) (id : Nat) :
    ∃ calls, Recording id node calls := by
  obtain ⟨g, rule, _⟩ := node
  obtain rfl := hargs
  have hrule : Permits g rule := h.rule
  cases hrule with
  | own => exact ⟨_, .add⟩
  | fixed hrate => exact ⟨_, .addAt hrate⟩

/-- A declaration at the end of a sketch, defined. -/
theorem define_record {g : Generator} (rule : RateRule) (hcheck : s.checkArgs g.descriptor args = .ok ()) :
    (s.record ⟨g, rule, none⟩).2.define s.size args = .ok (s.record ⟨g, rule, some args⟩).2 := by
  have hlt : s.size < (s.pending.push ⟨g, rule, none⟩).size := by simp [size]
  have hget : (s.pending.push ⟨g, rule, none⟩)[s.size] = ⟨g, rule, none⟩ := by simp [size]
  have hset :
      (s.pending.push ⟨g, rule, none⟩).set s.size ⟨g, rule, some args⟩ = s.pending.push ⟨g, rule, some args⟩ := by
    refine Array.toList_inj.1 ?_
    rw [Array.toList_set, Array.toList_push, Array.toList_push, size, ← Array.length_toList]
    simp
  have hagain : (s.record ⟨g, rule, none⟩).2.checkArgs g.descriptor args = .ok () := checkArgs_record hcheck
  simp only [Sketch.record] at hagain ⊢
  simp only [Sketch.define, dif_pos hlt, hget, hagain, hset]
  rfl

/-- Recording comes to the same, however it is done. -/
theorem Recording.run_eq {calls : List Call} (h : Recording s.size node calls) (haccepts : s.Accepts node) :
    s.run calls = (s.record node).2 := by
  have hcheck := haccepts.args
  cases h with
  | add =>
    rw [run, List.foldl_cons, Sketch.perform, Sketch.add, answer_addWith (hcheck _ rfl)]
    rfl
  | addAt hrate =>
    rw [run, List.foldl_cons, Sketch.perform, Sketch.addAt, hrate]
    exact congrArg Prod.snd (answer_addWith (hcheck _ rfl))
  | @declare g args =>
    have hdefine := define_record g.descriptor.rate (hcheck _ rfl)
    simp only [run, List.foldl_cons, List.foldl_nil, Sketch.perform, answer, Sketch.declare, hdefine]
  | @declareAt g rate args hrate =>
    have hdefine := define_record (.fixed rate) (hcheck _ rfl)
    have hdeclare : s.declareAt g rate = .ok (s.record ⟨g, .fixed rate, none⟩) := by
      rw [Sketch.declareAt, hrate]
      rfl
    simp only [run, List.foldl_cons, List.foldl_nil, Sketch.perform, hdeclare, answer, hdefine]

end SoundGraph.Sketch
