import SoundGraph.Proofs.Expansion.Growth
import SoundGraph.Proofs.Traversal.Composed

/-! The walk over a sketch keeps the expansion sound: it only ever emits control nodes, which read
nothing, and what the scripts of the pending nodes emit. The values in its progress table play no part,
so it does not matter which signals the hooks have answered. -/

namespace SoundGraph.Sketch

open Expanding Expansion

variable {s : Sketch} {limit : Nat}

theorem leads_expandNode_growsTo (progress : Array Progress) (node : PendingNode) (args : List Element) :
    (s.expandNode limit progress node args).Leads GrowsTo :=
  leads_bind (fun _ _ _ => .trans) (leads_check .refl _) fun _ _ => leads_perform_growsTo limit _

theorem leads_emitControls_growsTo : (s.emitControls limit).Leads GrowsTo :=
  composes_growsTo.emitControls fun _ => Grows.leads fun _ =>
    (grows_push limit (List.forall_mem_nil _)).imp fun _ _ _ => trivial

theorem leads_walkAll_growsTo : (s.walkAll limit).Leads GrowsTo :=
  composes_growsTo.walkAll (leads_check .refl) (leads_throw .refl)
    fun progress node args _ => leads_expandNode_growsTo progress node args

/-- The table that an expansion ends with is sound. -/
theorem sound_expand {progress : Array Progress} {x : Expansion}
    (h : s.expand limit .empty = .ok progress x) : x.Sound := by
  have hleads : (s.expand limit).Leads GrowsTo :=
    composes_growsTo.bind leads_emitControls_growsTo fun _ _ => leads_walkAll_growsTo
  exact ((hleads .empty).of_ok h sound_empty).sound

end SoundGraph.Sketch
