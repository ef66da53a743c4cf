import SoundGraph.Catalog.Builtin
import SoundGraph.Proofs.Compile.Cycles
import SoundGraph.Proofs.Compile.Rates
import SoundGraph.Proofs.Compile.Validity
import SoundGraph.Proofs.Expansion.Threshold
import SoundGraph.Proofs.Traversal.Composed

/-! The node limit of a compilation. The controls and every step of the walk are capped, so the expansion of a
sketch is; what follows, the ordering and the control array, does not ask for the limit again. So each sketch
has a number of nodes from which on the limit does not matter, and below which nothing else does. -/

namespace SoundGraph

open Expanding

/-- Ordering gives at most the nodes of the table. -/
theorem length_le_of_order {nodes : Array EmittedNode} {constants pool : Array Sample} {out : List EmittedNode}
    (h : Backward constants nodes) (horder : order nodes constants = .ok (out, pool)) :
    out.length ≤ nodes.size := by
  obtain ⟨m, hm, hcov⟩ := Merge.covers_ofNodes fun _ _ hn => h.reads_lt hn
  obtain ⟨out', u, hok, -, hout⟩ := order_slotted h hm hcov
  rw [horder] at hok
  cases hok
  rw [← hout.length_eq, length_survivors]
  refine Nat.le_trans Array.countP_le_size ?_
  rw [hcov.size_kept, Array.length_toList]

namespace Sketch

variable {s : Sketch}

theorem ofLimit_resolve {progress : Array Progress} {x : Expansion} {e : Element} {err : CompileError}
    (h : s.resolve progress x e = .error err) : err.ofLimit = false := by
  induction e using Element.induction generalizing err with
  | const v => cases h
  | out r =>
    rcases bind_eq_error_iff.1 h with hr | ⟨rate, -, hr⟩
    · exact Expansion.ofLimit_outputRate hr
    · cases hr
  | pending id =>
    rw [resolve] at h
    split at h <;> cases h
    rfl
  | bundle es ih =>
    rcases bind_eq_error_iff.1 h with hall | ⟨signals, -, hall⟩
    · rw [resolveAll_eq_mapM] at hall
      obtain ⟨e, he, herr⟩ := exists_of_mapM_eq_error hall
      exact ih e he herr
    · cases hall

theorem ofLimit_argsOf {id : Nat} {e : CompileError} (h : s.argsOf id = .error e) : e.ofLimit = false := by
  unfold argsOf at h
  split at h
  · cases h
    rfl
  · split at h <;> cases h
    rfl

theorem capped_expandNode (progress : Array Progress) {node : PendingNode} (hplain : node.generator.Plain)
    (args : List Element) : Capped fun limit => s.expandNode limit progress node args := by
  refine (capped_check fun x e h => ?_).bind fun signals _ => capped_script node.rule hplain signals
  rw [resolveAll_eq_mapM] at h
  obtain ⟨e', -, herr⟩ := exists_of_mapM_eq_error h
  exact ofLimit_resolve herr

/-- Along the recursion of the walk. -/
theorem capped_walk (hplain : ∀ node ∈ s.pending.toList, node.generator.Plain) (stack : List Step)
    (progress : Array Progress) : Capped fun limit => s.walk limit stack progress := by
  have hargs : ∀ id, Capped fun _ => check fun _ => s.argsOf id := fun id =>
    capped_check fun _ _ h => ofLimit_argsOf h
  induction stack, progress using Sketch.walk.induct with
  | case1 progress =>
    simp only [walk]
    exact capped_pure progress
  | case2 progress id stack ih =>
    simp only [walk]
    refine (hargs id).bind ?_
    rintro ⟨node, args⟩ ⟨_, hanswer⟩
    have hmem := mem_pending_of_argsOf (eq_ok_of_answers_check hanswer)
    refine (capped_expandNode progress (hplain node hmem) args).bind fun value _ => ?_
    split
    · next hlt => exact ih value hlt
    · exact capped_fault _
  | case3 progress id stack ihSkip ihEnter =>
    simp only [walk]
    refine (hargs id).bind ?_
    rintro ⟨node, args⟩ -
    dsimp only
    split
    · next hlt =>
      split
      · exact ihSkip
      · exact capped_reject rfl
      · next hwaiting =>
        split
        · next e hstack =>
          obtain ⟨j, -, ⟨-, rfl⟩ | ⟨-, rfl⟩⟩ := scheduleAll_eq_error hstack
          · exact capped_reject rfl
          · exact capped_fault _
        · next stack' _ => exact ihEnter hlt hwaiting stack'
    · exact capped_fault _

theorem capped_expand (hplain : ∀ node ∈ s.pending.toList, node.generator.Plain) :
    Capped fun limit => s.expand limit := by
  have hcontrols : Capped fun limit => s.emitControls limit :=
    Capped.forM (fun g => (capped_push (controlNode g)).bind fun _ _ => capped_pure ()) _
  have hwalk : Capped fun limit => s.walkAll limit :=
    Capped.foldlM (fun progress root => capped_walk hplain [.enter root] progress) _ _
  exact hcontrols.bind fun _ _ => hwalk

/-- A table that has been expanded under a limit fits it. -/
theorem size_le_of_expand (hplain : ∀ node ∈ s.pending.toList, node.generator.Plain) {limit : Nat}
    {progress : Array Progress} {x : Expansion} (hx : s.expand limit .empty = .ok progress x) :
    x.nodes.size ≤ limit := by
  obtain ⟨r, hr⟩ := capped_expand hplain .empty
  rcases Nat.lt_or_ge limit (left r).nodes.size with hlt | hge
  · obtain ⟨x', hstop⟩ := hr.stops limit (Nat.zero_le _) hlt
    rw [hx] at hstop
    cases hstop
  · rw [← hr.fits limit hge, hx] at hge
    exact hge

def finish (s : Sketch) : EStateM.Result Abort Expansion (Array Progress) → Except Abort Graph
  | .error e _ => .error e
  | .ok _ x => do
    let (nodes, constants) ← order x.nodes x.constants.values
    let controls ← s.controlPool
    return { constants, controls, nodes := (nodes.map EmittedNode.toNode).toArray }

theorem compile_eq_finish (limit : Nat) : s.compile limit = s.finish (s.expand limit .empty) := by
  unfold compile finish
  cases s.expand limit .empty <;> rfl

/-- The node limit is a pure threshold. A sketch without other hooks than the mix has a result, and a number of
nodes, those that its expansion emits up to the end or up to its error: under every limit from that number on it
compiles to the result, and under every smaller one it is rejected for the limit and for nothing else. So a
higher limit changes neither a graph nor another error, and no graph has more nodes than the limit. -/
theorem compile_threshold (s : Sketch) (hplain : ∀ node ∈ s.pending.toList, node.generator.Plain) :
    ∃ (count : Nat) (result : Except Abort Graph),
      (∀ limit, s.compile limit =
        if count ≤ limit then result else .error (.rejected (.tooManyNodes limit))) ∧
      (∀ limit, result ≠ .error (.rejected (.tooManyNodes limit))) ∧
      (∀ limit, count ≤ limit → (left (s.expand limit .empty)).nodes.size = count) ∧
      (∀ limit g, s.compile limit = .ok g →
        g.nodes.size ≤ limit ∧ ∀ limit' ≥ limit, s.compile limit' = .ok g) ∧
      ∀ limit e, s.compile limit = .error e → e ≠ .rejected (.tooManyNodes limit) →
        ∀ limit' ≥ limit, s.compile limit' = .error e := by
  obtain ⟨r, hr⟩ := capped_expand hplain .empty
  have hthreshold : ∀ limit, s.compile limit =
      if (left r).nodes.size ≤ limit then s.finish r else .error (.rejected (.tooManyNodes limit)) := by
    intro limit
    rw [compile_eq_finish]
    split
    · next hle => rw [hr.fits limit hle]
    · next hlt =>
      obtain ⟨x', hstop⟩ := hr.stops limit (Nat.zero_le _) (Nat.lt_of_not_le hlt)
      rw [hstop, finish]
  have hsame : ∀ limit limit', limit ≤ limit' → s.compile limit ≠ .error (.rejected (.tooManyNodes limit)) →
      s.compile limit' = s.compile limit := by
    intro limit limit' hle hne
    have hfits : (left r).nodes.size ≤ limit := by
      by_contra hlt
      exact hne ((hthreshold limit).trans (if_neg hlt))
    rw [hthreshold, hthreshold, if_pos hfits, if_pos (Nat.le_trans hfits hle)]
  refine ⟨(left r).nodes.size, s.finish r, hthreshold, fun limit h => ?_, fun limit hle => ?_,
    fun limit g hg => ⟨?_, fun limit' hle => ?_⟩, fun limit e he hother limit' hle => ?_⟩
  · cases r with
    | error e x =>
      cases h
      cases hr.other _ x rfl
    | ok progress x =>
      have hx := hr.fits x.nodes.size (Nat.le_refl _)
      obtain ⟨out, pool, horder⟩ := order_of_expand hx
      simp only [finish, horder] at h
      rcases bind_eq_error_iff.1 h with h | ⟨_, -, h⟩
      · cases h
      rcases bind_eq_error_iff.1 h with h | ⟨controls, -, h⟩
      · exact controlPool_ne_rejected h
      · cases h
  · rw [hr.fits limit hle]
  · obtain ⟨progress, x, out, pool, controls, hx, horder, -, rfl⟩ := stages_of_compile hg
    have hlength := length_le_of_order (sound_expand hx).backward horder
    rw [List.size_toArray, List.length_map]
    exact Nat.le_trans hlength (size_le_of_expand hplain hx)
  · rw [hsame limit limit' hle (by rw [hg]; simp), hg]
  · rw [hsame limit limit' hle (by rw [he]; simpa using hother), he]

def summedCalls : List Call :=
  mixedCalls ++ [.add Builtin.mixer [.bundle [.pending 0, .out ⟨0, 0⟩, .pending 1]]]

/-- One control node, five for the noise and the panner with its converters, and three additions. -/
theorem compile_threshold_summed :
    (∀ node ∈ (({} : Sketch).run summedCalls).pending.toList, node.generator.Plain) ∧
      ∃ g, ∀ limit, (({} : Sketch).run summedCalls).compile limit =
        if 9 ≤ limit then .ok g else .error (.rejected (.tooManyNodes limit)) := by
  have hplain : ∀ node ∈ (({} : Sketch).run summedCalls).pending.toList, node.generator.Plain := by
    have hhooks : (({} : Sketch).run summedCalls).pending.toList.map (fun node => node.generator.hook) =
        [none, none, some mix] := by cbv
    intro node hnode
    have hmem := List.mem_map_of_mem (f := fun node => node.generator.hook) hnode
    simpa [hhooks, Generator.Plain] using hmem
  obtain ⟨count, result, hall, -, hleft, -⟩ := compile_threshold _ hplain
  obtain ⟨g, hg⟩ := (grouped_empty.run summedCalls).exists_compile 20 (by cbv)
  have hfits : count ≤ 20 := by
    by_contra hlt
    rw [hall, if_neg hlt] at hg
    cases hg
  have hcount : count = 9 := by
    have htable : ((({} : Sketch).run summedCalls).table? 20).map (fun table => table.1.size) = some 9 := by cbv
    obtain ⟨table, htable, hsize⟩ := Option.map_eq_some_iff.1 htable
    obtain ⟨progress, x, hx, rfl⟩ := exists_of_table? htable
    have hnodes := hleft 20 hfits
    rw [hx] at hnodes
    exact hnodes.symm.trans hsize
  subst hcount
  rw [hall, if_pos hfits] at hg
  exact ⟨hplain, g, fun limit => by rw [hall, hg]⟩

end Sketch

end SoundGraph
