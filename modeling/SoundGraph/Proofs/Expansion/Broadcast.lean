import SoundGraph.Proofs.Expansion.Fan

/-! How the arguments of a call spread over its instances. The channels of the single-channel arguments are
broadcast against each other, one bundle layer at a time: a layer is as wide as the widest bundle in it,
narrower bundles start over, and a leaf goes to every channel. What comes of it is a tree, and each of its
maximal paths leads into every argument, to one leaf of it. A path enters a bundle at a number modulo its
width, so all leaves are found along paths that never start over. -/

namespace SoundGraph

namespace Signal

def layerWidth : Signal → Nat
  | bundle channels => channels.length
  | _ => 0

/-- Channel `i` of a bundle, starting over past the last; a leaf is every channel of itself. -/
def channel (i : Nat) : Signal → Signal
  | bundle channels => channels[i % channels.length]?.getD (bundle channels)
  | leaf => leaf

/-- Where a path leads, once at a leaf no further. -/
def follow (p : List Nat) (s : Signal) : Signal := p.foldl (fun s i => s.channel i) s

/-- The leaf that stands at a place, a place being the channel numbers that lead to it. -/
def leafAt? : Signal → List Nat → Option Signal
  | bundle channels, i :: q => channels[i]?.bind fun c => c.leafAt? q
  | bundle _, [] => none
  | leaf, [] => some leaf
  | _, _ => none

theorem channel_eq_self {s : Signal} (h : s.layerWidth = 0) (i : Nat) : s.channel i = s := by
  cases s with
  | bundle cs =>
    obtain rfl := List.length_eq_zero_iff.1 h
    rfl
  | const v => rfl
  | out r => rfl

theorem channel_mem {cs : List Signal} (h : cs ≠ []) (i : Nat) : (bundle cs).channel i ∈ cs := by
  have hlt : i % cs.length < cs.length := Nat.mod_lt i (List.length_pos_iff.2 h)
  rw [channel, List.getElem?_eq_getElem hlt]
  exact List.getElem_mem hlt

/-- A place is the leaf itself or starts with the number of a channel. -/
theorem leafAt?_cases {s leaf : Signal} {q : List Nat} (h : s.leafAt? q = some leaf) :
    (q = [] ∧ s = leaf ∧ s.layerWidth = 0) ∨
      ∃ i q', q = i :: q' ∧ i < s.layerWidth ∧ (s.channel i).leafAt? q' = some leaf := by
  cases s with
  | bundle cs =>
    cases q with
    | nil => cases h
    | cons i q =>
      obtain ⟨c, hi, hc⟩ := Option.bind_eq_some_iff.1 h
      have hlt : i < cs.length := (List.getElem?_eq_some_iff.1 hi).1
      refine .inr ⟨i, q, rfl, hlt, ?_⟩
      rw [channel, Nat.mod_eq_of_lt hlt, hi]
      exact hc
  | const v => cases q <;> cases h; exact .inl ⟨rfl, rfl, rfl⟩
  | out r => cases q <;> cases h; exact .inl ⟨rfl, rfl, rfl⟩

theorem depth_channel_lt {s : Signal} (h : s.layerWidth ≠ 0) (i : Nat) : (s.channel i).depth < s.depth := by
  cases s with
  | bundle cs => exact depth_lt_bundle (channel_mem (fun heq => h (by rw [heq]; rfl)) i)
  | const v => exact absurd rfl h
  | out r => exact absurd rfl h

theorem depth_channel_le (s : Signal) (i : Nat) : (s.channel i).depth ≤ s.depth := by
  by_cases h : s.layerWidth = 0
  · exact Nat.le_of_eq (congrArg depth (channel_eq_self h i))
  · exact Nat.le_of_lt (depth_channel_lt h i)

end Signal

def widest (ss : List Signal) : Nat := (ss.map Signal.layerWidth).foldr max 0

def layer (i : Nat) (ss : List Signal) : List Signal := ss.map (Signal.channel i)

theorem layerWidth_le_widest {s : Signal} {ss : List Signal} (h : s ∈ ss) : s.layerWidth ≤ widest ss := by
  induction ss with
  | nil => cases h
  | cons a ss ih =>
    change s.layerWidth ≤ max a.layerWidth (widest ss)
    rcases List.mem_cons.1 h with rfl | h
    · exact Nat.le_max_left ..
    · exact Nat.le_trans (ih h) (Nat.le_max_right ..)

def totalDepth : List Signal → Nat
  | [] => 0
  | s :: ss => s.depth + totalDepth ss

theorem totalDepth_layer_le (i : Nat) (ss : List Signal) : totalDepth (layer i ss) ≤ totalDepth ss := by
  induction ss with
  | nil => exact Nat.le_refl _
  | cons s ss ih => exact Nat.add_le_add (s.depth_channel_le i) ih

theorem totalDepth_layer_lt {ss : List Signal} (h : widest ss ≠ 0) (i : Nat) :
    totalDepth (layer i ss) < totalDepth ss := by
  induction ss with
  | nil => exact absurd rfl h
  | cons s ss ih =>
    by_cases hs : s.layerWidth = 0
    · change max s.layerWidth (widest ss) ≠ 0 at h
      rw [hs, Nat.zero_max] at h
      exact Nat.add_lt_add_of_le_of_lt (s.depth_channel_le i) (ih h)
    · exact Nat.add_lt_add_of_lt_of_le (Signal.depth_channel_lt hs i) (totalDepth_layer_le i ss)

def broadcast (ss : List Signal) : Fan Unit :=
  if widest ss = 0 then .one ()
  else .many ((List.range (widest ss)).map fun i => broadcast (layer i ss))
termination_by totalDepth ss
decreasing_by exact totalDepth_layer_lt ‹_› i

theorem broadcast_of_eq {ss : List Signal} (h : widest ss = 0) : broadcast ss = .one () := by
  rw [broadcast, if_pos h]

theorem broadcast_of_ne {ss : List Signal} (h : widest ss ≠ 0) :
    broadcast ss = .many ((List.range (widest ss)).map fun i => broadcast (layer i ss)) := by
  rw [broadcast, if_neg h]

/-- Each leaf of each signal is where some maximal path leads that goes straight to its place. -/
theorem exists_path_to_leaf {ss : List Signal} {s leaf : Signal} {q : List Nat} (hs : s ∈ ss)
    (hq : s.leafAt? q = some leaf) :
    ∃ p, (broadcast ss).at? p = some () ∧ q <+: p ∧ s.follow p = leaf := by
  induction hn : totalDepth ss using Nat.strongRecOn generalizing ss s q with
  | ind n ih =>
    have hle := layerWidth_le_widest hs
    have hchannel : ∀ i q', i < widest ss → (s.channel i).leafAt? q' = some leaf →
        ∃ p, (broadcast ss).at? (i :: p) = some () ∧ q' <+: p ∧ s.follow (i :: p) = leaf := by
      intro i q' hi hq'
      have hw : widest ss ≠ 0 := Nat.ne_zero_of_lt hi
      obtain ⟨p, hp, hpre, hleaf⟩ := ih _ (hn ▸ totalDepth_layer_lt hw i) (List.mem_map_of_mem hs) hq' rfl
      refine ⟨p, ?_, hpre, hleaf⟩
      rw [broadcast_of_ne hw, Fan.at?, List.getElem?_map, List.getElem?_range hi]
      exact hp
    rcases Signal.leafAt?_cases hq with ⟨rfl, rfl, hzero⟩ | ⟨i, q, rfl, hi, hq⟩
    -- a leaf goes to every channel, so channel 0 will do where there are any
    · by_cases hw : widest ss = 0
      · exact ⟨[], by rw [broadcast_of_eq hw]; rfl, List.prefix_refl _, rfl⟩
      · have hsame : (s.channel 0).leafAt? [] = some s := by rw [Signal.channel_eq_self hzero, hq]
        obtain ⟨p, hp, -, hleaf⟩ := hchannel 0 [] (Nat.pos_of_ne_zero hw) hsame
        exact ⟨0 :: p, hp, List.nil_prefix, hleaf⟩
    · obtain ⟨p, hp, hpre, hleaf⟩ := hchannel i q (Nat.lt_of_lt_of_le hi hle) hq
      exact ⟨i :: p, hp, (List.cons_prefix_cons.2 ⟨rfl, hpre⟩), hleaf⟩

end SoundGraph
