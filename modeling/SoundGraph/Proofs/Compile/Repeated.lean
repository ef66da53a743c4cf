import SoundGraph.Proofs.Compile.Copied
import SoundGraph.Proofs.Compile.Threshold
import SoundGraph.Proofs.Expansion.Instances
import SoundGraph.Proofs.Expansion.Lockstep
import SoundGraph.Proofs.Sketch.Again
import SoundGraph.Proofs.Traversal.Recorded

/-! A sketch in which a node is recorded a second time. The second expansion meets the table that the first walk has
ended with, and in it every constant that it needs; it emits copies of what the first expansion has emitted, each
reading what its original reads or the copy of it. So what ordering merges is known, and only the instances of an
impure descriptor are left over. -/

namespace SoundGraph

open Expanding Expansion

theorem ConstantPool.intern_of_mem {pool : ConstantPool} {v : Sample} {i : Nat} (h : pool.values[i]? = some v) :
    pool.intern v = (i, pool) := by
  have hslot := (pool.slots_iff v i).2 h
  unfold ConstantPool.intern
  split
  · next j hj =>
    rw [hslot] at hj
    cases hj
    rfl
  · next hj =>
    rw [hslot] at hj
    cases hj

/-- Table `y` is `z`, of which `x` is a part, and behind it copies of the nodes of `x` from place `start` on. -/
structure Copying (z : Expansion) (start : Nat) (x y : Expansion) : Prop where
  le : start ≤ x.nodes.size
  within : x.Within z
  copies : ∃ copies, y.nodes.toList = z.nodes.toList ++ copies ∧
    List.Forall₂ (EmittedNode.Twins (Repeats z.nodes start)) (x.nodes.toList.drop start) copies
  constants : y.constants = z.constants

namespace Copying

variable {z x y : Expansion} {start : Nat}

theorem size_eq (h : Copying z start x y) : y.nodes.size = x.nodes.size + (z.nodes.size - start) := by
  obtain ⟨copies, hy, hcopies⟩ := h.copies
  have hlength := hcopies.length_eq
  have hsize := congrArg List.length hy
  have hle := h.le
  have hle' := h.within.size_le
  simp only [List.length_drop, List.length_append, Array.length_toList] at hlength hsize
  omega

theorem getElem?_copy (h : Copying z start x y) {i : Nat} (hle : start ≤ i) {n : EmittedNode}
    (hn : x.nodes[i]? = some n) :
    ∃ c, y.nodes[i + (z.nodes.size - start)]? = some c ∧ n.Twins (Repeats z.nodes start) c := by
  obtain ⟨copies, hy, hcopies⟩ := h.copies
  have hdrop : (x.nodes.toList.drop start)[i - start]? = some n := by
    rw [List.getElem?_drop, Nat.add_sub_cancel' hle, Array.getElem?_toList, hn]
  obtain ⟨c, hc, htwins⟩ := exists_right_of_forall₂ hcopies hdrop
  have hi := (Array.getElem?_eq_some_iff.1 hn).1
  have hsize := h.within.size_le
  refine ⟨c, ?_, htwins⟩
  rw [← Array.getElem?_toList, hy, List.getElem?_append_right (by rw [Array.length_toList]; omega),
    Array.length_toList, ← hc]
  congr 1
  omega

theorem outputRate (h : Copying z start x y) {r r' : OutputRef} {rate : Rate}
    (htwins : r.Twins (Repeats z.nodes start) r') (hrate : x.outputRate r = .ok rate) :
    y.outputRate r' = .ok rate := by
  obtain ⟨i, output⟩ := r
  obtain ⟨j, output'⟩ := r'
  obtain ⟨htwin : Repeats z.nodes start i j, rfl⟩ := htwins
  rcases htwin with rfl | ⟨hle, rfl, -⟩
  · have hw : z.Within y := by
      obtain ⟨copies, hy, -⟩ := h.copies
      exact ⟨hy ▸ List.prefix_append _ _, h.constants ▸ List.prefix_refl _⟩
    exact hw.outputRate (h.within.outputRate hrate)
  · obtain ⟨n, hn, hout⟩ := outputRate_eq_ok_iff.1 hrate
    obtain ⟨c, hc, inputs, rfl, -⟩ := h.getElem?_copy hle hn
    exact outputRate_eq_ok_iff.2 ⟨_, hc, hout⟩

theorem intern (h : Copying z start x y) {v : Sample}
    (hlater : Expansion.Within { x with constants := (x.constants.intern v).2 } z) :
    (y.constants.intern v).1 = (x.constants.intern v).1 ∧
      Copying z start { x with constants := (x.constants.intern v).2 }
        { y with constants := (y.constants.intern v).2 } := by
  have hget := getElem?_mono hlater.constants (x.constants.getElem?_intern v)
  rw [h.constants, ConstantPool.intern_of_mem hget]
  exact ⟨rfl, h.le, hlater, h.copies, rfl⟩

theorem push (h : Copying z start x y) {node node' : EmittedNode} (htwins : node.Twins (Repeats z.nodes start) node')
    (hlater : Expansion.Within { x with nodes := x.nodes.push node } z) :
    Copying z start { x with nodes := x.nodes.push node } { y with nodes := y.nodes.push node' } := by
  obtain ⟨copies, hy, hcopies⟩ := h.copies
  refine ⟨?_, hlater, ⟨copies ++ [node'], ?_, ?_⟩, h.constants⟩
  · rw [Array.size_push]
    exact Nat.le_succ_of_le h.le
  · rw [Array.toList_push, hy, List.append_assoc]
  · rw [Array.toList_push, List.drop_append_of_le_length (by simpa using h.le)]
    exact List.rel_append hcopies (.cons htwins .nil)

end Copying

def Lockstep.copying (z last : Expansion) (start : Nat) (hlast : last.Within z) : Lockstep where
  At := Copying z start
  Twin := Repeats z.nodes start
  Tracked flags := flags.pure = true
  last := last
  lead := z.nodes.size - start
  tracked_plain := rfl
  size h := h.size_eq
  outputRate h := h.outputRate
  intern v h hlater := h.intern (hlater.trans hlast)
  push h htwins hlater := by
    refine ⟨h.push htwins (hlater.trans hlast), fun hpure => .inr ⟨h.le, h.size_eq, _, ?_, hpure⟩⟩
    exact getElem?_mono (hlater.trans hlast).nodes Array.getElem?_push_size

/-- Nothing has been copied. -/
theorem Copying.start {x z : Expansion} (h : x.Within z) : Copying z x.nodes.size x z := by
  refine ⟨Nat.le_refl _, h, ⟨[], (List.append_nil _).symm, ?_⟩, rfl⟩
  rw [← Array.length_toList, List.drop_length]
  exact .nil

section Script

variable {limit : Nat} {g : Generator} {rule : RateRule} {signals : List Signal} {value : Signal} {x x' z : Expansion}

/-- A script performed on the table `x` and again on a table that goes on from there copies what it has emitted. -/
theorem copying_script (hplain : g.Plain) (hok : perform limit (g.script rule signals) x = .ok value x')
    (hlast : x'.Within z) :
    (perform limit (g.script rule signals)).Ensures z (fun _ y => Copying z x.nodes.size x' y) fun e _ =>
      e = .rejected (.tooManyNodes limit) ∧ limit < x'.nodes.size + (z.nodes.size - x.nodes.size) := by
  have hx : x.Within z := (widens_perform _ _ _ _ hok).trans hlast
  have htwins : List.Forall₂ (Signal.Twins (Repeats z.nodes x.nodes.size)) signals signals :=
    List.forall₂_same.2 fun s _ => .refl (fun i => .inl rfl) s
  exact (Lockstep.mirrors_script (l := .copying z x' x.nodes.size hlast) hplain htwins x z value x' (.start hx) hok
    (.refl _)).imp (fun _ _ h => h.2) fun _ _ h => h

/-- Unless it emits instances of an impure descriptor, a plain script emits pure nodes only. -/
theorem pure_of_script (hpure : g.hook = none ∧ g.descriptor.flags.pure = true ∨ g.hook = some mix)
    (hok : perform limit (g.script rule signals) x = .ok value x') {i : Nat} {n : EmittedNode}
    (hle : x.nodes.size ≤ i) (hn : x'.nodes[i]? = some n) : n.flags.pure = true := by
  have hcall : ∀ {d : Descriptor}, d.flags.pure = true → ∀ rule args,
      (instantiate limit d rule args).Leads (Gains fun d => d.flags.pure = true) := fun hd rule args =>
    leads_instantiate .refl (fun _ _ _ => .trans) (leads_emit_gains hd) args
  have hgains : (perform limit (g.script rule signals)).Leads (Gains fun d => d.flags.pure = true) := by
    rcases hpure with ⟨hnone, hpure⟩ | hmix
    · rw [perform_script_none hnone]
      exact hcall hpure rule signals
    · simp only [Generator.script, hmix, perform_mix]
      split
      · exact composes_gains.pure _
      · exact composes_gains.foldlM (fun sum channel => hcall rfl _ _) _ _
  exact (((hgains x).of_ok hok).added i n hle hn).pure fun d hd => hd

end Script

/-- Of the places of a call of an impure descriptor, those of the instances are kept apart when it is copied. -/
theorem apart_of_series {z : Expansion} {d : Descriptor} {rule : RateRule} {feeds : List (List (List Signal))}
    {n m : Nat} (h : z.Series d rule n feeds m) (himpure : d.flags.pure = false) :
    n ≤ m ∧ List.Forall₂ (fun feed i => ∃ first node, z.Stands first i d rule feed node) feeds
      (Merge.apart z.nodes n (m - n)) := by
  induction h with
  | nil n =>
    rw [Nat.sub_self]
    exact ⟨Nat.le_refl n, .nil⟩
  | @cons feed feeds node n i m h _ ih =>
    obtain ⟨hle, hrest⟩ := ih
    have hni := h.inputs.le
    have hconverters : Merge.apart z.nodes n (i - n) = [] := by
      refine List.filter_eq_nil_iff.2 fun j hj => ?_
      obtain ⟨hnj, hji⟩ := List.mem_range'_1.1 hj
      obtain ⟨⟨name, rate, source, hj⟩, -⟩ := h.inputs.converts hnj (by omega)
      simp [hj, converter, Flags.pure]
    have hinstance : (z.nodes[i]?.any fun n => !n.flags.pure) = true := by
      rw [h.place, Option.any_some, h.flags, himpure]
      rfl
    have hplaces : List.range' n (m - n) = List.range' n (i - n) ++ i :: List.range' (i + 1) (m - (i + 1)) := by
      rw [← List.range'_succ, show i = n + (i - n) by omega, Nat.add_sub_cancel_left, List.range'_append_1]
      congr 1
      omega
    refine ⟨by omega, ?_⟩
    rw [Merge.apart, hplaces, List.filter_append, ← Merge.apart, hconverters, List.nil_append,
      List.filter_cons, if_pos hinstance]
    exact .cons ⟨n, node, h⟩ hrest

theorem Copying.copiedFrom {z x y : Expansion} {start : Nat} (h : Copying z start x y) :
    ∃ copies, y.nodes.toList = z.nodes.toList ++ copies ∧ copies.length = x.nodes.size - start ∧
      CopiedFrom z.nodes start copies := by
  obtain ⟨copies, hy, hcopies⟩ := h.copies
  refine ⟨copies, hy, ?_, fun k c hc => ?_⟩
  · rw [← hcopies.length_eq, List.length_drop, Array.length_toList]
  · obtain ⟨n, hn, htwins⟩ := exists_right_of_forall₂ hcopies.flip hc
    rw [List.getElem?_drop, Array.getElem?_toList] at hn
    exact ⟨n, getElem?_mono h.within.nodes hn, htwins⟩

namespace Sketch

variable {s : Sketch} {limit id : Nat} {node : PendingNode} {args : List Element} {g : Graph}
  {progress : Array Progress} {x x₁ x₂ : Expansion} {signals : List Signal} {value : Signal}

/-- A node with a plain generator, of which the table `x₁` has been continued to `x₂`, is expanded once more to
copies of what stands there. -/
theorem compile_record (hg : s.compile limit = .ok g) (hx : s.expand limit .empty = .ok progress x)
    (hargs : s.argsOf id = .ok (node, args)) (hplain : node.generator.Plain)
    (hsignals : s.resolveAll progress x args = .ok signals)
    (hperform : Expanding.perform limit (node.generator.script node.rule signals) x₁ = .ok value x₂)
    (hlast : x₂.Within x) :
    (s.record node).2.compile limit = .error (.rejected (.tooManyNodes limit)) ∧
        limit < x₂.nodes.size + (x.nodes.size - x₁.nodes.size) ∨
      ∃ extra : List EmittedNode,
        (s.record node).2.compile limit =
          .ok { g with nodes := g.nodes ++ (extra.map EmittedNode.toNode).toArray } ∧
        (extra.map EmittedNode.toNode).Sublist g.nodes.toList ∧
        List.Forall₂ (fun i n' => ∃ n inputs, x.nodes[i]? = some n ∧ n' = { n with inputs })
          (Merge.apart x.nodes x₁.nodes.size (x₂.nodes.size - x₁.nodes.size)) extra := by
  obtain ⟨progress', x', out, pool, controls, hx', horder, hpool, rfl⟩ := stages_of_compile hg
  cases hx.symm.trans hx'
  have hcomplete := complete_of_walkAll (expand_eq_ok hx)
  obtain ⟨hnode, hsome⟩ := argsOf_eq_ok_iff.1 hargs
  have hbelow : MentionsBelow s.size args := fun e he j hj =>
    hcomplete.inScope id j ⟨node, args, hnode, hsome, e, he, hj⟩
  have hagain := hcomplete.expand_record hsome hbelow hx hsignals
  have hcopying := copying_script hplain hperform hlast
  rw [compile_eq_finish]
  cases hres : Expanding.perform limit (node.generator.script node.rule signals) x with
  | error e y =>
    obtain ⟨rfl, hlimit⟩ := hcopying.of_error hres
    rw [hagain, run_bind_eq_error_iff.2 (.inl hres)]
    exact .inl ⟨rfl, hlimit⟩
  | ok value' y =>
    have hexpand := hagain.trans (run_bind_eq_ok_iff.2 ⟨value', y, hres, rfl⟩)
    have hcopy := hcopying.of_ok hres
    obtain ⟨copies, hlist, hlength, hcopied⟩ := hcopy.copiedFrom
    have hback' := (sound_expand hexpand).backward
    rw [hcopy.constants] at hback'
    obtain ⟨extra, horder', hsub, hextra⟩ :=
      order_copied hlist (sound_expand hx).backward hback' hcopied horder
    refine .inr ⟨extra, ?_, ?_, hlength ▸ hextra⟩
    · rw [hexpand, finish, hcopy.constants, horder', ((Continues.refl s).record node).controlPool_eq, hpool]
      simp [bind, Except.bind, pure, Except.pure]
    · rw [List.toList_toArray]
      exact hsub.map _

/-- Repeating a node. Of a sketch that compiles to `g`, let a node be recorded once more, with its generator, rate
and arguments. If it emits no impure instances of its own, the longer sketch compiles to `g` itself, or it is
rejected for the node limit. If it is a node without a hook and its descriptor is impure, then what the longer sketch
compiles to is `g` with one more node for each instance of the call, and nothing else: copies of nodes of `g`, in their
order. -/
theorem compile_repeated {s : Sketch} {calls : List Call} (hs : s = ({} : Sketch).run calls) {limit : Nat} {g : Graph}
    (hg : s.compile limit = .ok g) {id : Nat} {node : PendingNode} (hnode : s.pending[id]? = some node) :
    ∃ args progress x signals, node.args = some args ∧ s.expand limit .empty = .ok progress x ∧
      s.resolveAll progress x args = .ok signals ∧ (∃ again, Recording s.size node again) ∧
      ∀ again, Recording s.size node again → s.run again = (s.record node).2 ∧
        ((node.generator.hook = none ∧ node.generator.descriptor.flags.pure = true ∨ node.generator.hook = some mix) →
          (s.run again).compile limit = .ok g ∨
            (s.run again).compile limit = .error (.rejected (.tooManyNodes limit)) ∧ limit < 2 * x.nodes.size) ∧
        (node.generator.hook = none → node.generator.descriptor.flags.pure = false →
          (s.run again).compile limit = .error (.rejected (.tooManyNodes limit)) ∧ limit < 2 * x.nodes.size ∨
            ∃ extra : List Node, (s.run again).compile limit = .ok { g with nodes := g.nodes ++ extra.toArray } ∧
              extra.length = (callPaths node.generator.descriptor signals).length ∧
              (∀ n ∈ extra, n.name = node.generator.descriptor.name) ∧ extra.Sublist g.nodes.toList) := by
  obtain ⟨progress, x, -, -, -, hx, -⟩ := stages_of_compile hg
  have hwalk := expand_eq_ok hx
  have hcomplete := complete_of_walkAll hwalk
  obtain ⟨⟨node', args⟩, hargs⟩ := hcomplete.defined.exists_argsOf (Array.getElem?_eq_some_iff.1 hnode).1
  obtain ⟨hnode', hsome⟩ := argsOf_eq_ok_iff.1 hargs
  obtain rfl := Option.some.inj (hnode.symm.trans hnode')
  have haccepts : s.Accepts node :=
    (hs ▸ checked_empty.run calls : s.Checked) node (Array.mem_toList_iff.2 (Array.mem_of_getElem? hnode))
  obtain ⟨signals, value, x₁, x₂, hfirst, hperform, hlast, -, hsignals⟩ := performed_of_walkAll hwalk hargs
  have hsize := hlast.size_le
  refine ⟨args, progress, x, signals, hsome, hx, hsignals, haccepts.exists_recording hsome _, fun again hagain => ?_⟩
  rw [hagain.run_eq haccepts]
  refine ⟨rfl, fun hpure => ?_, fun hnone himpure => ?_⟩
  · have hplain : node.generator.Plain := hpure.imp_left And.left
    rcases compile_record hg hx hargs hplain hsignals hperform hlast with ⟨hstop, hlimit⟩ | ⟨extra, hok, -, hextra⟩
    · exact .inr ⟨hstop, by omega⟩
    · have hnothing : Merge.apart x.nodes x₁.nodes.size (x₂.nodes.size - x₁.nodes.size) = [] := by
        refine List.eq_nil_iff_forall_not_mem.2 fun i hi => ?_
        obtain ⟨⟨hle, hlt⟩, n, hn, himpure⟩ := Merge.mem_apart.1 hi
        obtain ⟨n₂, hn₂⟩ : ∃ n₂, x₂.nodes[i]? = some n₂ := ⟨_, Array.getElem?_eq_getElem (by omega)⟩
        have hsame := getElem?_mono hlast.nodes hn₂
        rw [hn, Option.some.injEq] at hsame
        rw [hsame, pure_of_script hpure hperform hle hn₂] at himpure
        cases himpure
      rw [hnothing] at hextra
      cases hextra
      rw [hok]
      simp
  · rcases compile_record hg hx hargs (.inl hnone) hsignals hperform hlast with
      ⟨hstop, hlimit⟩ | ⟨extra, hok, hsub, hextra⟩
    · exact .inl ⟨hstop, by omega⟩
    · rw [perform_script_none hnone] at hperform
      have hseries := (series_instantiate hperform).2.within hlast
      obtain ⟨-, hplaces⟩ := apart_of_series hseries himpure
      refine .inr ⟨_, hok, ?_, ?_, hsub⟩
      · rw [List.length_map, ← hextra.length_eq, ← hplaces.length_eq, List.length_map]
      · intro n hn
        obtain ⟨n', hn', rfl⟩ := List.mem_map.1 hn
        obtain ⟨i, hi, n₁, inputs, hn₁, rfl⟩ := exists_left_of_forall₂ hextra hn'
        obtain ⟨feed, -, first, n₂, hstands⟩ := exists_left_of_forall₂ hplaces hi
        obtain rfl := Option.some.inj (hn₁.symm.trans hstands.place)
        exact hstands.name

def dust : Descriptor :=
  { name := "Dust"
    rate := .fixed .audio
    inputs := [⟨"density", .matchAudio, false⟩]
    flags := { individual := true } }

def lowpass : Descriptor := { name := "LPF", rate := .follow 0, inputs := [⟨"in", .matchAudio, false⟩] }

def dustArgs : List Element := [.bundle [.out ⟨0, 0⟩, .out ⟨0, 0⟩]]

def clickCalls : List Call :=
  [.control "density" .control .zero, .add ⟨dust, none⟩ dustArgs, .add ⟨lowpass, none⟩ [.pending 0]]

/-- The filters once more change nothing; the clicks once more come without their converters. -/
theorem compile_repeated_clicks :
    ∃ g, (({} : Sketch).run clickCalls).compile 20 = .ok g ∧
      ((({} : Sketch).run clickCalls).run [.add ⟨lowpass, none⟩ [.pending 0]]).compile 20 = .ok g ∧
      ∃ a b : Node, a.name = "Dust" ∧ b.name = "Dust" ∧ [a, b].Sublist g.nodes.toList ∧
        ((({} : Sketch).run clickCalls).run [.add ⟨dust, none⟩ dustArgs]).compile 20 =
          .ok { g with nodes := g.nodes ++ #[a, b] } := by
  have hpending : (({} : Sketch).run clickCalls).pending =
      #[⟨⟨dust, none⟩, dust.rate, some dustArgs⟩, ⟨⟨lowpass, none⟩, lowpass.rate, some [.pending 0]⟩] := by cbv
  obtain ⟨g, hg⟩ := (grouped_empty.run clickCalls).exists_compile 20 (by cbv)
  have htable : ((({} : Sketch).run clickCalls).table? 20).map (fun table => table.1.size) = some 7 := by cbv
  obtain ⟨table, htable, hcount⟩ := Option.map_eq_some_iff.1 htable
  obtain ⟨progress, x, hx, rfl⟩ := exists_of_table? htable
  have hfits : ¬ 20 < 2 * x.nodes.size := by
    dsimp only at hcount
    omega
  have hdust : (({} : Sketch).run clickCalls).pending[0]? = some ⟨⟨dust, none⟩, dust.rate, some dustArgs⟩ := by
    rw [hpending]
    rfl
  have hlowpass : (({} : Sketch).run clickCalls).pending[1]? =
      some ⟨⟨lowpass, none⟩, lowpass.rate, some [.pending 0]⟩ := by
    rw [hpending]
    rfl
  refine ⟨g, hg, ?_, ?_⟩
  · obtain ⟨args, p, y, signals, -, hy, -, -, hagain⟩ := compile_repeated rfl hg hlowpass
    cases hx.symm.trans hy
    exact ((hagain _ .add).2.1 (.inl ⟨rfl, rfl⟩)).resolve_right fun h => hfits h.2
  · obtain ⟨args, p, y, signals, hargs, hy, hsignals, -, hagain⟩ := compile_repeated rfl hg hdust
    cases hx.symm.trans hy
    cases hargs
    obtain ⟨extra, hok, hlen, hnames, hsub⟩ := ((hagain _ .add).2.2 rfl rfl).resolve_left fun h => hfits h.2
    have hbundle : signals = [.bundle [.out ⟨0, 0⟩, .out ⟨0, 0⟩]] := by
      cases hrate : x.outputRate ⟨0, 0⟩ with
      | error e =>
        simp only [dustArgs, resolveAll, resolve, hrate] at hsignals
        cases hsignals
      | ok rate =>
        simp only [dustArgs, resolveAll, resolve, hrate] at hsignals
        cases hsignals
        rfl
    subst hbundle
    have htwo : extra.length = 2 := hlen.trans (by cbv)
    obtain ⟨a, b, rfl⟩ := List.length_eq_two.1 htwo
    exact ⟨a, b, hnames a List.mem_cons_self, hnames b (List.mem_cons_of_mem _ List.mem_cons_self), hsub, hok⟩

end Sketch

end SoundGraph
