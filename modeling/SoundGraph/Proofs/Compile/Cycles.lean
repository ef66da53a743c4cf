import SoundGraph.Proofs.Compile.Order
import SoundGraph.Proofs.Traversal.Growth
import SoundGraph.Proofs.Traversal.Resolution
import SoundGraph.Proofs.Traversal.Threaded

/-! Cycles are found, and nothing else is taken for one. A walk that comes to its end has every node after
what it mentions, which no cycle allows. A node that is rejected as cyclic is on the path when it is
mentioned again, and the path leads from it to where it is mentioned. -/

namespace SoundGraph.Sketch

open Expanding Relation

variable {s : Sketch} {limit : Nat}

theorem rejectsInstance_expandNode {progress : Array Progress} {node : PendingNode}
    {args : List Element} (hdone : ∀ j ∈ Element.pendingsOf args, ∃ v, progress[j]? = some (.done v))
    (hplain : node.generator.Plain) :
    (s.expandNode limit progress node args).RejectsInstance := by
  exact (rejectsInstance_check fun x err herr => ofInstance_resolveAll hdone herr).bind fun signals =>
    hplain.rejectsInstance limit node.rule signals

theorem argsOf_ne_cyclic (id : Nat) (name : String) : s.argsOf id ≠ .error (.cyclic name) := by
  unfold argsOf
  split
  · exact fun h => by cases h
  · split <;> exact fun h => by cases h

/-- Of the ways to halt, only the mention of a node on the path is a cycle. -/
theorem Threaded.onCycle_of_halts {w : Walk} (h : s.Threaded w)
    (hplain : ∀ node ∈ s.pending.toList, node.generator.Plain) {name : String} {x : Expansion}
    (hh : s.Halts limit w (.rejected (.cyclic name)) x) :
    ∃ i node, s.pending[i]? = some node ∧ node.generator.name = name ∧ s.OnCycle i := by
  generalize he : Abort.rejected (.cyclic name) = e at hh
  cases hh with
  | undefined step hargs =>
    cases he
    exact absurd hargs (argsOf_ne_cyclic _ name)
  | entered hargs hpath => exact absurd hpath (h.not_onPath rfl)
  | @mentioned id _ _ stack progress _ node args _ hargs hlt hwaits hstack =>
    obtain ⟨j, hj, ⟨hpath, heq⟩ | ⟨-, heq⟩⟩ := scheduleAll_eq_error hstack
    · rw [← he] at heq
      cases heq
      rw [mem_pendingsOf_iff hargs] at hj
      have hsize : j < s.size := by
        have := (Array.getElem?_eq_some_iff.1 hpath).1
        rw [Array.size_set] at this
        exact h.size ▸ this
      refine ⟨j, s.pending[j], Array.getElem?_eq_getElem hsize, ?_, ?_⟩
      · rw [label, Array.getElem?_eq_getElem hsize]
      · exact h.onCycle_of_mentioned rfl hlt hj hpath
    · rw [← he] at heq
      cases heq
  | @failed id _ _ _ progress x' _ node args _ hargs hvalue =>
    subst he
    have hmem := mem_pending_of_argsOf hargs
    have hdone := h.arguments_done rfl hargs
    have hof := (rejectsInstance_expandNode hdone (hplain node hmem) x').of_error hvalue _ rfl
    cases hof
  | missing step hge => cases he

theorem rejectsInstance_emitControls : (s.emitControls limit).RejectsInstance :=
  composes_rejectsInstance.emitControls fun g => rejectsInstance_push limit (controlNode g)

/-- The controls can only be rejected for the node limit. -/
theorem emitControls_ne_cyclic {x x' : Expansion} {name : String} :
    s.emitControls limit x ≠ .error (.rejected (.cyclic name)) x' := by
  intro h
  cases (rejectsInstance_emitControls x).of_error h _ rfl

theorem controlPool_ne_rejected {e : CompileError} : s.controlPool ≠ .error (.rejected e) := by
  intro h
  rcases bind_eq_error_iff.1 h with h | ⟨records, -, h⟩
  · obtain ⟨c, -, h⟩ := exists_of_mapM_eq_error h
    unfold controlRecord at h
    split at h <;> cases h
  · cases h

/-- The table that expansion leaves can be ordered. -/
theorem order_of_expand {progress : Array Progress} {x : Expansion}
    (h : s.expand limit .empty = .ok progress x) :
    ∃ out pool, order x.nodes x.constants.values = .ok (out, pool) := by
  obtain ⟨-, out, pool, hok, -⟩ := simulation_order (sound_expand h).backward
  exact ⟨out, pool, hok⟩

/-- A cycle or a missing definition lets no compilation succeed, whatever the node limit. A compilation is
rejected as cyclic only for a node on a cycle: wherever the walk gets to, the arguments of the node that it
is about to expand mention expanded nodes only, and the table that it leaves can always be ordered. -/
theorem compile_cyclic (s : Sketch) (hplain : ∀ node ∈ s.pending.toList, node.generator.Plain)
    (limit : Nat) :
    ((∃ i, s.OnCycle i) ∨ ¬ s.FullyDefined → ∀ g, s.compile limit ≠ .ok g) ∧
    (∀ name, s.compile limit = .error (.rejected (.cyclic name)) →
      ∃ i node, s.pending[i]? = some node ∧ node.generator.name = name ∧ s.OnCycle i) ∧
    (∀ x w, s.Reaches limit (s.start x) w → ∀ id stack, w.stack = .finish id :: stack →
      ∀ j, s.DependsOn id j → ∃ value, w.progress[j]? = some (.done value)) ∧
    ∀ progress x, s.expand limit .empty = .ok progress x →
      ∃ out pool, order x.nodes x.constants.values = .ok (out, pool) := by
  refine ⟨fun hbad g hg => ?_, fun name herr => ?_, fun x w hr id stack hstack j hj => ?_,
    fun progress x hx => order_of_expand hx⟩
  · cases hx : s.expand limit .empty with
    | error e x =>
      rw [compile, hx] at hg
      cases hg
    | ok progress x =>
      obtain ⟨_, x₁, -, hwalk⟩ := run_bind_eq_ok_iff.1 hx
      obtain ⟨hacyclic, hdefined⟩ := acyclic_of_walkAll hwalk
      rcases hbad with ⟨i, hi⟩ | hbad
      · exact hacyclic i hi
      · exact hbad hdefined
  · cases hx : s.expand limit .empty with
    | error e x =>
      rw [compile, hx] at herr
      cases herr
      rcases run_bind_eq_error_iff.1 hx with hx | ⟨_, x₁, -, hwalk⟩
      · exact absurd hx emitControls_ne_cyclic
      · obtain ⟨w, hr, hh⟩ := (walkAll_follows x₁).of_error hwalk
        exact ((threaded_start s x₁).reaches hr).onCycle_of_halts hplain hh
    | ok progress x =>
      obtain ⟨out, pool, hok⟩ := order_of_expand hx
      simp only [compile, hx, hok] at herr
      rcases bind_eq_error_iff.1 herr with herr | ⟨_, -, herr⟩
      · cases herr
      rcases bind_eq_error_iff.1 herr with herr | ⟨controls, -, herr⟩
      · exact absurd herr controlPool_ne_rejected
      · cases herr
  · exact ((threaded_start s x).reaches hr).mentioned_done hstack hj

/-- Two filters in a ring, the first mentioned in a nested bundle, with two mixes in front of them of which
one reads the other twice. -/
def ringCalls : List Call :=
  let filter : Generator := ⟨{ name := "LPF", rate := .follow 0, inputs := [⟨"in", .any, false⟩] }, none⟩
  let mixer : Generator :=
    ⟨{ name := "Mix", rate := .follow 0, inputs := [⟨"channels", .any, true⟩] }, some mix⟩
  [.add mixer [.bundle [.const .zero, .const .zero]], .add mixer [.bundle [.pending 0, .pending 0]],
    .declare filter, .add filter [.bundle [.pending 1, .bundle [.pending 2]]], .define 2 [.pending 3]]

theorem compile_cyclic_ring :
    (∀ node ∈ (({} : Sketch).run ringCalls).pending.toList, node.generator.Plain) ∧
      ∀ limit g, (({} : Sketch).run ringCalls).compile limit ≠ .ok g := by
  have hplain : ∀ node ∈ (({} : Sketch).run ringCalls).pending.toList, node.generator.Plain := by
    exact List.forall_mem_cons.2 ⟨.inr rfl, List.forall_mem_cons.2 ⟨.inr rfl, List.forall_mem_cons.2
      ⟨.inl rfl, List.forall_mem_cons.2 ⟨.inl rfl, List.forall_mem_nil _⟩⟩⟩⟩
  refine ⟨hplain, fun limit => ?_⟩
  have hforth : (({} : Sketch).run ringCalls).DependsOn 2 3 :=
    ⟨_, _, rfl, rfl, _, List.mem_cons_self, .pending⟩
  have hback : (({} : Sketch).run ringCalls).DependsOn 3 2 :=
    ⟨_, _, rfl, rfl, _, List.mem_cons_self, .bundle (List.mem_cons_of_mem _ List.mem_cons_self)
      (.bundle List.mem_cons_self .pending)⟩
  exact (compile_cyclic _ hplain limit).1 (.inl ⟨2, .tail (.single hforth) hback⟩)

end SoundGraph.Sketch
