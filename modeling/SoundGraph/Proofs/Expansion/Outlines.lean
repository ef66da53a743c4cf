import Mathlib.Data.List.Basic
import SoundGraph.Proofs.Expansion.Broadcast

/-! The outline of a signal: its bundles, whatever its leaves are. How signals spread over each other is a matter of
their outlines alone, so a call can be laid out before any of its arguments is known. -/

namespace SoundGraph

namespace Fan

variable {α : Type}

def width : Fan α → Nat
  | many ts => ts.length
  | one _ => 0

def channel (i : Nat) : Fan α → Fan α
  | many ts => ts[i % ts.length]?.getD (many ts)
  | t => t

end Fan

namespace Signal

mutual
def outline : Signal → Fan Unit
  | bundle cs => .many (outlines cs)
  | _ => .one ()

def outlines : List Signal → List (Fan Unit)
  | [] => []
  | s :: ss => s.outline :: outlines ss
end

theorem outlines_eq (ss : List Signal) : outlines ss = ss.map outline := by
  induction ss with
  | nil => rfl
  | cons s ss ih => rw [outlines, ih, List.map_cons]

theorem width_outline (s : Signal) : s.outline.width = s.layerWidth := by
  cases s <;> simp [outline, outlines_eq, Fan.width, layerWidth]

theorem outline_channel (s : Signal) (i : Nat) : (s.channel i).outline = s.outline.channel i := by
  cases s with
  | bundle cs =>
    simp only [channel, outline, outlines_eq, Fan.channel, List.length_map, List.getElem?_map]
    cases cs[i % cs.length]? with
    | none => simp [outline, outlines_eq]
    | some c => rfl
  | const v => rfl
  | out r => rfl

theorem leaves_channel_subset (s : Signal) (i : Nat) : (s.channel i).leaves ⊆ s.leaves := by
  cases s with
  | bundle cs =>
    by_cases hcs : cs = []
    · subst hcs
      exact List.Subset.refl _
    · intro leaf hleaf
      rw [leaves, leavesOf_eq]
      exact List.mem_flatMap.2 ⟨_, channel_mem hcs i, hleaf⟩
  | const v => exact List.Subset.refl _
  | out r => exact List.Subset.refl _

theorem leaves_follow_subset (s : Signal) (p : List Nat) : (s.follow p).leaves ⊆ s.leaves := by
  induction p generalizing s with
  | nil => exact List.Subset.refl _
  | cons i p ih => exact List.Subset.trans (ih (s.channel i)) (s.leaves_channel_subset i)

end Signal

namespace Fan

variable {α : Type}

def blank (t : Fan Unit) : Signal := t.graft fun _ => .const .zero

def labels (t : Fan α) : List α := t.entries.map Prod.snd

theorem outline_graft {f : α → Signal} (hf : ∀ a, (f a).outline = .one ()) (t : Fan α) :
    (t.graft f).outline = t.shape := by
  induction t using Fan.induction with
  | one a => exact hf a
  | many ts ih =>
    rw [graft, fold_many, shape, fold_many, Signal.outline, Signal.outlines_eq, List.map_map]
    exact congrArg many (List.map_congr_left ih)

theorem shape_shape (t : Fan Unit) : t.shape = t := by
  induction t using Fan.induction with
  | one a => rfl
  | many ts ih =>
    rw [shape, fold_many]
    exact congrArg many ((List.map_congr_left ih).trans (List.map_id _))

theorem outline_blank (t : Fan Unit) : t.blank.outline = t := (outline_graft (fun _ => rfl) t).trans (shape_shape t)

/-- The paths through the channels are those through other channels that have the same paths. -/
theorem map_fst_under_congr {β γ : Type} {g : β → List (List Nat × α)} {g' : β → List (List Nat × γ)} {bs : List β}
    (h : ∀ b ∈ bs, (g b).map Prod.fst = (g' b).map Prod.fst) (k : Nat) :
    (under k (bs.map g)).map Prod.fst = (under k (bs.map g')).map Prod.fst := by
  induction bs generalizing k with
  | nil => rfl
  | cons b bs ih =>
    obtain ⟨hb, hbs⟩ := List.forall_mem_cons.1 h
    have hfirst : ((g b).map fun e => k :: e.1) = (g' b).map fun e => k :: e.1 := by
      have hmapped := congrArg (List.map (k :: ·)) hb
      rwa [List.map_map, List.map_map] at hmapped
    rw [List.map_cons, List.map_cons, under_cons, under_cons, List.map_append, List.map_append, ih hbs,
      List.map_map, List.map_map]
    exact congrArg (· ++ _) hfirst

theorem paths_shape (t : Fan α) : t.shape.paths = t.paths := by
  induction t using Fan.induction with
  | one a => rfl
  | many ts ih =>
    rw [paths, paths, shape, fold_many, entries, fold_many, entries, fold_many, List.map_map]
    exact map_fst_under_congr ih 0

theorem length_paths (t : Fan α) : t.paths.length = t.labels.length := by
  rw [paths, labels, List.length_map, List.length_map]

theorem flatMap_under {β : Type} (g : α → List β) (k : Nat) (ess : List (List (List Nat × α))) :
    (under k ess).flatMap (fun e => g e.2) = ess.flatMap fun es => es.flatMap fun e => g e.2 := by
  induction ess generalizing k with
  | nil => rfl
  | cons es ess ih => rw [under_cons, List.flatMap_append, ih, List.flatMap_cons, List.flatMap_map]

theorem leaves_graft (f : α → Signal) (t : Fan α) :
    (t.graft f).leaves = t.entries.flatMap fun e => (f e.2).leaves := by
  induction t using Fan.induction with
  | one a => exact (List.append_nil _).symm
  | many ts ih =>
    rw [graft, fold_many, Signal.leaves, Signal.leavesOf_eq, entries, fold_many,
      flatMap_under (fun a => (f a).leaves), List.flatMap_map, List.flatMap_map]
    exact List.flatMap_congr ih

end Fan

theorem widest_eq (ss : List Signal) : widest ss = ((ss.map Signal.outline).map Fan.width).foldr max 0 := by
  rw [widest, List.map_map]
  congr 1
  exact List.map_congr_left fun s _ => s.width_outline.symm

theorem map_outline_layer (i : Nat) (ss : List Signal) :
    (layer i ss).map Signal.outline = (ss.map Signal.outline).map (Fan.channel i) := by
  rw [layer, List.map_map, List.map_map]
  exact List.map_congr_left fun s _ => s.outline_channel i

/-- Signals spread over each other as their outlines do. -/
theorem broadcast_congr {ss ss' : List Signal} (h : ss.map Signal.outline = ss'.map Signal.outline) :
    broadcast ss = broadcast ss' := by
  induction hn : totalDepth ss using Nat.strongRecOn generalizing ss ss' with
  | ind n ih =>
    have hwidest : widest ss = widest ss' := by rw [widest_eq, h, widest_eq]
    by_cases hw : widest ss = 0
    · rw [broadcast_of_eq hw, broadcast_of_eq (hwidest ▸ hw)]
    · rw [broadcast_of_ne hw, broadcast_of_ne (hwidest ▸ hw), hwidest]
      refine congrArg Fan.many (List.map_congr_left fun i _ => ?_)
      refine ih _ (hn ▸ totalDepth_layer_lt hw i) ?_ rfl
      rw [map_outline_layer, h, map_outline_layer]

end SoundGraph
