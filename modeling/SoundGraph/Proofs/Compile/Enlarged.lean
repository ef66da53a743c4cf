import SoundGraph.Proofs.Compile.Controls
import SoundGraph.Proofs.Compile.Raised
import SoundGraph.Proofs.Compile.Repeated
import SoundGraph.Proofs.Sketch.Enlarged
import SoundGraph.Proofs.Traversal.Lockstep

/-! A sketch with one more control. Its group has one slot more, or a group is opened behind the others, so the nodes
that the expansions start from differ by an output or by one node at their end. All slots that there were keep their
places. So the two walks go in lockstep, every node of the first one being emitted by the second one at its new number,
and ordering keeps it so. -/

namespace SoundGraph

open Expanding Expansion

theorem modify_append_of_lt {α : Type} {as : List α} {i : Nat} (h : i < as.length) (f : α → α) (bs : List α) :
    (as ++ bs).modify i f = as.modify i f ++ bs := by
  rw [List.modify_eq_take_cons_drop h, List.modify_eq_take_cons_drop (by rw [List.length_append]; omega),
    List.take_append_of_le_length h.le, List.getElem_append_left h, List.drop_append_of_le_length h, List.append_assoc]
  rfl

def Node.redirect (f : Nat → Nat) (n : Node) : Node := { n with inputs := n.inputs.map (Input.redirect f) }

theorem Node.redirect_id (n : Node) : n.redirect id = n := by
  rw [Node.redirect, funext Input.redirect_id, List.map_id']

/-- A node whose sources have new numbers. -/
theorem EmittedNode.Twins.eq_redirect {f : Nat → Nat} {n n' : EmittedNode} (h : n.Twins (fun i j => j = f i) n') :
    n' = n.redirect f := by
  rw [h.redirect_eq (g := id) fun i j _ _ htwin => htwin.symm, EmittedNode.redirect_id]

/-- The nodes `head'` are those of `head`, some with more outputs, and `d` more behind them. -/
structure Enlarges (head head' : List EmittedNode) (d : Nat) : Prop where
  length : head'.length = head.length + d
  outputs : ∀ (i : Nat) n, head[i]? = some n → ∃ n', head'[i]? = some n' ∧ n.outputs.toList <+: n'.outputs.toList

/-- Table `y` is `x` with `head'` in place of `head`, and the numbers of the other nodes are higher by `d`. -/
structure Shifted (head head' : List EmittedNode) (d : Nat) (x y : Expansion) : Prop where
  nodes : ∃ rest, x.nodes.toList = head ++ rest ∧
    y.nodes.toList = head' ++ rest.map (EmittedNode.redirect (raise head.length d))
  constants : y.constants = x.constants

namespace Shifted

variable {head head' : List EmittedNode} {d : Nat} {x y : Expansion}

theorem size_eq (h : Shifted head head' d x y) (hhead : Enlarges head head' d) :
    y.nodes.size = x.nodes.size + d := by
  obtain ⟨rest, hx, hy⟩ := h.nodes
  have hsize := congrArg List.length hx
  have hsize' := congrArg List.length hy
  have hlength := hhead.length
  simp only [List.length_append, List.length_map, Array.length_toList] at hsize hsize'
  omega

theorem outputRate (h : Shifted head head' d x y) (hhead : Enlarges head head' d) {r r' : OutputRef} {rate : Rate}
    (htwins : r.Twins (fun i j => j = raise head.length d i) r') (hrate : x.outputRate r = .ok rate) :
    y.outputRate r' = .ok rate := by
  obtain ⟨i, output⟩ := r
  obtain ⟨j, output'⟩ := r'
  obtain ⟨rfl : j = raise head.length d i, rfl : output' = output⟩ := htwins
  obtain ⟨rest, hx, hy⟩ := h.nodes
  obtain ⟨n, hn, hout⟩ := outputRate_eq_ok_iff.1 hrate
  rw [← Array.getElem?_toList, hx] at hn
  refine outputRate_eq_ok_iff.2 ?_
  rcases Nat.lt_or_ge i head.length with hlt | hge
  · rw [List.getElem?_append_left hlt] at hn
    obtain ⟨n', hn', houts⟩ := hhead.outputs i n hn
    refine ⟨n', ?_, getElem?_mono houts hout⟩
    rw [← Array.getElem?_toList, hy]
    dsimp only
    rw [raise_of_lt hlt, List.getElem?_append_left (List.getElem?_eq_some_iff.1 hn').1, hn']
  · rw [List.getElem?_append_right hge] at hn
    refine ⟨n.redirect (raise head.length d), ?_, hout⟩
    rw [← Array.getElem?_toList, hy]
    dsimp only
    rw [getElem?_raise hhead.length hge, List.getElem?_map, hn]
    rfl

theorem push (h : Shifted head head' d x y) {node node' : EmittedNode}
    (htwins : node.Twins (fun i j => j = raise head.length d i) node') :
    Shifted head head' d { x with nodes := x.nodes.push node } { y with nodes := y.nodes.push node' } := by
  obtain ⟨rest, hx, hy⟩ := h.nodes
  refine ⟨⟨rest ++ [node], ?_, ?_⟩, h.constants⟩
  · rw [Array.toList_push, hx, List.append_assoc]
  · rw [Array.toList_push, hy, htwins.eq_redirect, List.map_append, List.append_assoc]
    rfl

theorem length_le (h : Shifted head head' d x y) : head.length ≤ x.nodes.size := by
  obtain ⟨rest, hx, -⟩ := h.nodes
  rw [← Array.length_toList, hx, List.length_append]
  exact Nat.le_add_right _ _

end Shifted

def Lockstep.shifting {head head' : List EmittedNode} {d : Nat} (hhead : Enlarges head head' d) (last : Expansion) :
    Lockstep where
  At := Shifted head head' d
  Twin i j := j = raise head.length d i
  Tracked _ := True
  last := last
  lead := d
  tracked_plain := trivial
  size h := h.size_eq hhead
  outputRate h := h.outputRate hhead
  intern v h _ := by
    rw [h.constants]
    exact ⟨rfl, h.nodes, rfl⟩
  push h htwins _ := by
    refine ⟨h.push htwins, fun _ => ?_⟩
    rw [h.size_eq hhead, raise_of_le h.length_le]

namespace Sketch

variable {s s' : Sketch} {limit : Nat}

/-- The same plain pending nodes, which refer to controls only, and control nodes that enlarge those of `s`. -/
structure Enlarged (s s' : Sketch) (d : Nat) : Prop where
  pending : s'.pending = s.pending
  heads : Enlarges s.controlNodes s'.controlNodes d
  plain : ∀ node ∈ s.pending.toList, node.generator.Plain
  refers : ∀ node ∈ s.pending.toList, ∀ args, node.args = some args → ∀ e ∈ args, ∀ r, e.Refers r → s.HasSlot r

namespace Enlarged

variable {d : Nat} {progress : Array Progress} {x : Expansion} {g : Graph}

theorem suits (h : s.Enlarged s' d) (last : Expansion) : (Lockstep.shifting h.heads last).Suits s s' := by
  refine ⟨h.pending, h.plain, fun _ _ _ => trivial, fun node hnode args hargs e he r hr => ?_⟩
  obtain ⟨g, hg, -⟩ := h.refers node hnode args hargs e he r hr
  refine (raise_of_lt ?_).symm
  rw [controlNodes, List.length_map, Array.length_toList]
  exact (Array.getElem?_eq_some_iff.1 hg).1

/-- The walks start in step. -/
theorem shifted_controlTable : Shifted s.controlNodes s'.controlNodes d s.controlTable s'.controlTable :=
  ⟨⟨[], by simp [toList_controlTable], by simp [toList_controlTable]⟩, rfl⟩

theorem ensures_expand (h : s.Enlarged s' d) (hx : s.expand limit .empty = .ok progress x) :
    (s'.expand limit).Ensures .empty (fun _ y => Shifted s.controlNodes s'.controlNodes d x y) fun e _ =>
      e = .rejected (.tooManyNodes limit) ∧ limit < x.nodes.size + d := by
  have hwalk := expand_eq_ok hx
  have hsize := (gains_expand hx).within.size_le
  have hsize' := shifted_controlTable.size_eq h.heads
  have hmirrors := (h.suits x).mirrors_walkAll (complete_of_walkAll hwalk) s.controlTable s'.controlTable progress x
    shifted_controlTable hwalk (.refl x)
  -- the control nodes of `s'` alone are at most as many as `x` has nodes, and `d` more
  simp only [controlTable, Array.size_map] at hsize hsize'
  have hstops : ∀ (e : Abort) (_ : Expansion), e = .rejected (.tooManyNodes limit) ∧ limit < s'.groups.size →
      e = .rejected (.tooManyNodes limit) ∧ limit < x.nodes.size + d := fun _ _ he => ⟨he.1, by omega⟩
  refine ((s'.ensures_emitControls limit).imp (fun _ _ hq => hq) hstops).bind ?_
  rintro _ _ rfl
  exact hmirrors.imp (fun _ _ hq => hq.2) fun _ _ he => he

theorem compile_eq (h : s.Enlarged s' d) (hg : s.compile limit = .ok g) (hx : s.expand limit .empty = .ok progress x)
    {controls : Array Control} (hcontrols : s'.controlPool = .ok controls) :
    s'.compile limit = .error (.rejected (.tooManyNodes limit)) ∧ limit < x.nodes.size + d ∨
      ∃ tail : List Node, g.nodes.toList = s.controlNodes.map EmittedNode.toNode ++ tail ∧
        s'.compile limit = .ok ⟨g.constants, controls, List.toArray (s'.controlNodes.map EmittedNode.toNode ++
          tail.map (Node.redirect (raise s.controlNodes.length d)))⟩ := by
  obtain ⟨progress', x', out, pool, controls', hx', horder, -, rfl⟩ := stages_of_compile hg
  cases hx.symm.trans hx'
  have hexpand := h.ensures_expand hx
  rw [compile_eq_finish]
  cases hres : s'.expand limit .empty with
  | error e y =>
    obtain ⟨rfl, hlimit⟩ := hexpand.of_error hres
    exact .inl ⟨rfl, hlimit⟩
  | ok progress' y =>
    have hshifted := hexpand.of_ok hres
    obtain ⟨rest, hlist, hlist'⟩ := hshifted.nodes
    have hback' := (sound_expand hres).backward
    rw [hshifted.constants] at hback'
    obtain ⟨tail, rfl, horder'⟩ := order_raise h.heads.length hlist hlist' (fun n hn => of_mem_controlNodes hn)
      (fun n hn => of_mem_controlNodes hn) (sound_expand hx).backward hback' horder
    refine .inr ⟨tail.map EmittedNode.toNode, by simp, ?_⟩
    have hnodes : (s'.controlNodes ++ tail.map (EmittedNode.redirect (raise s.controlNodes.length d))).map
        EmittedNode.toNode = s'.controlNodes.map EmittedNode.toNode ++
          (tail.map EmittedNode.toNode).map (Node.redirect (raise s.controlNodes.length d)) := by
      rw [List.map_append, List.map_map, List.map_map]
      rfl
    rw [finish, hshifted.constants, horder', hcontrols, ← hnodes]
    rfl

end Enlarged

section Control

variable {name : String} {rate : Rate} {default : Sample} {handle : Element} {ds : List Declared} {tail : List Node}

theorem Records.toNode_controlNodes (h : s.Records ds) :
    s.controlNodes.map EmittedNode.toNode = (firstRates ds).map (rateNode ds) := by
  rw [controlNodes, h.groups_eq, List.map_map, List.map_map]
  rfl

theorem enlarges_control (hok : s.control name rate default = .ok (handle, s')) :
    Enlarges s.controlNodes s'.controlNodes (if s.groupOf rate < s.groups.size then 0 else 1) := by
  refine ⟨?_, fun i n hn => ?_⟩
  · simp only [controlNodes, List.length_map, Array.length_toList, size_groups_control hok]
  · rw [controlNodes, List.getElem?_map, Array.getElem?_toList, Option.map_eq_some_iff] at hn
    obtain ⟨g, hg, rfl⟩ := hn
    rw [controlNodes, List.getElem?_map, Array.getElem?_toList, getElem?_groups_control hok]
    split
    · next heq =>
      subst heq
      refine ⟨_, rfl, ?_⟩
      have hcount : s.groupCount (s.groupOf rate) = g.count := by rw [groupCount, hg]
      simp only [controlNode, Array.toList_replicate, hcount, rate_groupOf hg, List.replicate_succ']
      exact List.prefix_append _ _
    · exact ⟨_, by rw [hg]; rfl, List.prefix_refl _⟩

/-- The nodes at the head, where the rate has one of them. -/
theorem Records.nodes_joined (h : s.Records ds) (hok : s.control name rate default = .ok (handle, s'))
    (hrate : rate ∈ ds.map Declared.rate) :
    (s.controlNodes.map EmittedNode.toNode ++ tail)[(firstRates ds).idxOf rate]? = some (rateNode ds rate) ∧
      s'.controlNodes.map EmittedNode.toNode ++ tail =
        (s.controlNodes.map EmittedNode.toNode ++ tail).modify ((firstRates ds).idxOf rate)
          fun n => { n with outputs := n.outputs.push rate } := by
  have hmem : rate ∈ firstRates ds := List.mem_eraseDups.2 hrate
  have hlt : (firstRates ds).idxOf rate < (s.controlNodes.map EmittedNode.toNode).length := by
    rw [h.toNode_controlNodes, List.length_map]
    exact List.idxOf_lt_length_of_mem hmem
  have hgroup := h.groupOf_lt_iff.2 hrate
  refine ⟨?_, ?_⟩
  · rw [List.getElem?_append_left hlt, h.toNode_controlNodes, List.getElem?_map, List.getElem?_idxOf hmem]
    rfl
  · rw [modify_append_of_lt hlt, ← h.groupOf_eq_idxOf]
    refine congrArg (· ++ tail) (List.ext_getElem? fun i => ?_)
    rw [List.getElem?_modify]
    simp only [controlNodes, List.getElem?_map, Array.getElem?_toList, getElem?_groups_control hok]
    by_cases heq : i = s.groupOf rate
    · subst heq
      obtain ⟨g, hg⟩ : ∃ g, s.groups[s.groupOf rate]? = some g := ⟨_, Array.getElem?_eq_getElem hgroup⟩
      rw [if_pos rfl, groupCount, hg]
      simp [controlNode, EmittedNode.toNode, rate_groupOf hg, Array.replicate_succ]
    · simp [heq, Ne.symm heq]

/-- The nodes at the head, where the rate is new. -/
theorem Records.nodes_opened (h : s.Records ds) (hok : s.control name rate default = .ok (handle, s'))
    (hrate : rate ∉ ds.map Declared.rate) :
    s'.controlNodes.map EmittedNode.toNode =
      (firstRates ds).map (rateNode ds) ++ [{ name := rate.controlName, rate, outputs := #[rate] }] := by
  have hnew : ¬ s.groupOf rate < s.groups.size := fun hlt => hrate (h.groupOf_lt_iff.1 hlt)
  obtain ⟨-, -, -, hs'⟩ := eq_of_control hok
  rw [← h.toNode_controlNodes, hs', controlNodes, enlargeGroup, dif_neg hnew]
  simp [controlNodes, controlNode, EmittedNode.toNode]

end Control

end Sketch

/-- Graph `g'` is `g` with a control `c` besides the controls `ds`. -/
structure Graph.ControlAdded (ds : List Declared) (c : Declared) (g g' : Graph) : Prop where
  constants : g'.constants = g.constants
  /-- The node of a rate that is in use has one more output. -/
  joins : c.rate ∈ ds.map Declared.rate →
    g.nodes[(firstRates ds).idxOf c.rate]? = some (rateNode ds c.rate) ∧
      g'.nodes = g.nodes.modify ((firstRates ds).idxOf c.rate) fun n => { n with outputs := n.outputs.push c.rate }
  /-- The node of a new rate stands behind the other control nodes, and those behind it have higher numbers. -/
  opens : c.rate ∉ ds.map Declared.rate →
    ∃ tail : List Node, g.nodes.toList = (firstRates ds).map (rateNode ds) ++ tail ∧
      g'.nodes.toList = (firstRates ds).map (rateNode ds) ++
        { name := c.rate.controlName, rate := c.rate, outputs := #[c.rate] } ::
          tail.map (Node.redirect (raise (firstRates ds).length 1))
  /-- The record stands behind those of its rate, and those behind it make room. -/
  controls : ∃ front back : List Control, g.controls.toList = front ++ back ∧
    g'.controls.toList = front ++ ⟨c.name, c.rate, c.default, front.length⟩ :: back.map Control.moved ∧
    (∀ a ∈ front, (firstRates ds).idxOf a.rate ≤ (firstRates ds).idxOf c.rate) ∧
    ∀ a ∈ back, (firstRates ds).idxOf c.rate < (firstRates ds).idxOf a.rate

namespace Sketch

/-- One more control disturbs nothing. Let a sketch without other hooks than the mix, whose arguments refer to controls
of its own, compile to `g`. With one more control it compiles to `g` with this control added; only if the control
needs a node of its own and the table is full, it is rejected for the limit. -/
theorem compile_control_added {s s' : Sketch} {calls : List Call} (hs : s = ({} : Sketch).run calls)
    (hplain : ∀ node ∈ s.pending.toList, node.generator.Plain)
    (hrefers : ∀ node ∈ s.pending.toList, ∀ args, node.args = some args →
      ∀ e ∈ args, ∀ r, e.Refers r → HandedOut calls r)
    {name : String} {rate : Rate} {default : Sample} {handle : Element}
    (hcontrol : s.control name rate default = .ok (handle, s')) {limit : Nat} {g : Graph}
    (hg : s.compile limit = .ok g) :
    (s'.compile limit = .error (.rejected (.tooManyNodes limit)) ∧
        rate ∉ (({} : Sketch).declared calls).map Declared.rate ∧
        ∃ progress x, s.expand limit .empty = .ok progress x ∧ x.nodes.size = limit) ∨
      ∃ g', s'.compile limit = .ok g' ∧
        g.ControlAdded (({} : Sketch).declared calls) ⟨name, rate, default⟩ g' := by
  have hgrouped : s.Grouped := hs ▸ grouped_empty.run calls
  have hrecords : s.Records (({} : Sketch).declared calls) := hs ▸ records_empty.run calls
  generalize ({} : Sketch).declared calls = ds at hrecords
  have hopen : s.groupOf rate < s.groups.size ↔ rate ∈ ds.map Declared.rate := hrecords.groupOf_lt_iff
  have henlarged : s.Enlarged s' (if s.groupOf rate < s.groups.size then 0 else 1) := by
    refine ⟨?_, enlarges_control hcontrol, hplain, fun node hnode args hargs e he r hr => ?_⟩
    · obtain ⟨-, -, -, rfl⟩ := eq_of_control hcontrol
      rfl
    · exact hs ▸ (hrefers node hnode args hargs e he r hr).hasSlot
  obtain ⟨progress, x, out, pool, controls, hx, -, hpool, heq⟩ := stages_of_compile hg
  have hcontrols : g.controls = controls := by rw [heq]
  obtain ⟨front, back, hsplit, hpool', hfront, hback⟩ := hgrouped.controlPool_control hrecords hcontrol hpool
  rcases henlarged.compile_eq hg hx hpool' with ⟨hstop, hlimit⟩ | ⟨tail, hnodes, hok⟩
  · have hsize := size_le_of_expand hplain hx
    split at hlimit
    · omega
    · next hnew => exact .inl ⟨hstop, fun hrate => hnew (hopen.2 hrate), progress, x, hx, by omega⟩
  · refine .inr ⟨_, hok, rfl, fun hrate => ?_, fun hrate => ⟨tail, ?_, ?_⟩, front, back, hcontrols ▸ hsplit, rfl,
      hfront, hback⟩
    · obtain ⟨hnode, hmodify⟩ := hrecords.nodes_joined hcontrol hrate
      refine ⟨?_, Array.ext' ?_⟩
      · rw [← Array.getElem?_toList, hnodes, hnode]
      · rw [if_pos (hopen.2 hrate), raise_zero, funext Node.redirect_id, List.map_id', hmodify, Array.toList_modify,
          hnodes]
    · rw [hnodes, hrecords.toNode_controlNodes]
    · have hlength := congrArg List.length hrecords.toNode_controlNodes
      rw [List.length_map, List.length_map] at hlength
      rw [hrecords.nodes_opened hcontrol hrate, if_neg (mt hopen.1 hrate), hlength, List.append_assoc]
      rfl

def leveledCalls : List Call :=
  clickCalls ++ [.control "level" .audio .zero, .add ⟨lowpass, none⟩ [.out ⟨1, 0⟩]]

theorem nodes_leveled : ∀ node ∈ (({} : Sketch).run leveledCalls).pending.toList, node.generator.hook = none ∧
    ∀ args, node.args = some args → ∀ e ∈ args, ∀ r, e.Refers r → HandedOut leveledCalls r := by
  have hpending : (({} : Sketch).run leveledCalls).pending =
      #[⟨⟨dust, none⟩, dust.rate, some dustArgs⟩, ⟨⟨lowpass, none⟩, lowpass.rate, some [.pending 0]⟩,
        ⟨⟨lowpass, none⟩, lowpass.rate, some [.out ⟨1, 0⟩]⟩] := by cbv
  have hdensity : HandedOut leveledCalls ⟨0, 0⟩ := ⟨[], "density", .control, .zero, leveledCalls.tail, rfl, by cbv⟩
  have hlevel : HandedOut leveledCalls ⟨1, 0⟩ :=
    ⟨clickCalls, "level", .audio, .zero, [.add ⟨lowpass, none⟩ [.out ⟨1, 0⟩]], rfl, by cbv⟩
  rw [hpending]
  intro node hnode
  simp only [List.mem_cons, List.not_mem_nil, or_false] at hnode
  rcases hnode with rfl | rfl | rfl <;> refine ⟨rfl, fun args hargs e he r hr => ?_⟩ <;> cases hargs <;>
    obtain rfl := List.mem_singleton.1 he
  · exact (show r = ⟨0, 0⟩ by simpa using hr) ▸ hdensity
  · cases hr
  · exact (Element.refers_out_iff.1 hr) ▸ hlevel

/-- A control at a rate in use, and one at a new rate. -/
theorem compile_control_added_leveled :
    ∃ g g₁ g₂, (({} : Sketch).run leveledCalls).compile 20 = .ok g ∧
      ((({} : Sketch).run leveledCalls).perform (.control "width" .control .zero)).2.compile 20 = .ok g₁ ∧
      g.ControlAdded [⟨"density", .control, .zero⟩, ⟨"level", .audio, .zero⟩] ⟨"width", .control, .zero⟩ g₁ ∧
      ((({} : Sketch).run leveledCalls).perform (.control "seed" .scalar .zero)).2.compile 20 = .ok g₂ ∧
      g.ControlAdded [⟨"density", .control, .zero⟩, ⟨"level", .audio, .zero⟩] ⟨"seed", .scalar, .zero⟩ g₂ := by
  have hdeclared : ({} : Sketch).declared leveledCalls =
      [⟨"density", .control, .zero⟩, ⟨"level", .audio, .zero⟩] := by cbv
  obtain ⟨g, hg⟩ := (grouped_empty.run leveledCalls).exists_compile 20 (by cbv)
  have htable : ((({} : Sketch).run leveledCalls).table? 20).map (fun table => table.1.size) = some 9 := by cbv
  obtain ⟨table, htable, hcount⟩ := Option.map_eq_some_iff.1 htable
  obtain ⟨progress, x, hx, rfl⟩ := exists_of_table? htable
  have hadded : ∀ name rate, ((({} : Sketch).run leveledCalls).control name rate .zero).isOk = true →
      ∃ g', ((({} : Sketch).run leveledCalls).perform (.control name rate .zero)).2.compile 20 = .ok g' ∧
        g.ControlAdded [⟨"density", .control, .zero⟩, ⟨"level", .audio, .zero⟩] ⟨name, rate, .zero⟩ g' := by
    intro name rate hisok
    cases hok : (({} : Sketch).run leveledCalls).control name rate .zero with
    | error e =>
      rw [hok] at hisok
      cases hisok
    | ok answer =>
      obtain ⟨handle, s'⟩ := answer
      have hcompile := compile_control_added rfl (fun node hnode => .inl (nodes_leveled node hnode).1)
        (fun node hnode => (nodes_leveled node hnode).2) hok hg
      rw [Sketch.perform, hok, ← hdeclared]
      refine hcompile.resolve_left ?_
      rintro ⟨-, -, progress', x', hx', hfull⟩
      cases hx.symm.trans hx'
      dsimp only at hcount
      omega
  obtain ⟨g₁, hg₁, hadded₁⟩ := hadded "width" .control (by cbv)
  obtain ⟨g₂, hg₂, hadded₂⟩ := hadded "seed" .scalar (by cbv)
  exact ⟨g, g₁, g₂, hg, hg₁, hadded₁, hg₂, hadded₂⟩

end Sketch

end SoundGraph
