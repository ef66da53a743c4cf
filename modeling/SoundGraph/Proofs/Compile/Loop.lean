import SoundGraph.Proofs.Compile.Appending
import SoundGraph.Proofs.Compile.Threshold
import SoundGraph.Proofs.Expansion.FanOut
import SoundGraph.Proofs.Traversal.Recorded
import SoundGraph.Proofs.Traversal.Settled

/-! One call with bundles against the calls for its channels. Both sketches hold the old nodes first, and those
have their signals before either comes to the new ones; from there on the one node emits for its channels, in
turn, what the nodes of the other one emit. So the tables are the same at every moment, and so are the errors. -/

namespace SoundGraph

open Expanding Expansion

theorem widest_eq_of_isGreatest {ss : List Signal} {w : Nat}
    (h : IsGreatest {n | ∃ channels, .bundle channels ∈ ss ∧ n = channels.length} w) : widest ss = w := by
  obtain ⟨⟨channels, hmem, rfl⟩, hupper⟩ := h
  refine Nat.le_antisymm ?_ (layerWidth_le_widest hmem)
  have hle : ∀ s ∈ ss, s.layerWidth ≤ channels.length := by
    intro s hs
    cases s with
    | bundle channels' => exact hupper ⟨channels', hs, rfl⟩
    | const v => exact Nat.zero_le _
    | out r => exact Nat.zero_le _
  clear hupper hmem
  induction ss with
  | nil => exact Nat.zero_le _
  | cons s ss ih =>
    obtain ⟨hs, hss⟩ := List.forall_mem_cons.1 hle
    exact Nat.max_le.2 ⟨hs, ih hss⟩

namespace Sketch

variable {s : Sketch} {limit : Nat}

/-- Earlier numbers only: no node waits for its arguments or for a later node. -/
def Ascending (s : Sketch) : Prop :=
  ∀ (i : Nat) node, s.pending[i]? = some node →
    ∃ args, node.args = some args ∧ ∀ e ∈ args, ∀ j, e.Mentions j → j < i

theorem Ascending.complete (h : s.Ascending) (hscoped : s.Scoped) : s.Complete := by
  refine ⟨acyclic_of_rank id ?_, hscoped, fun node hnode => ?_⟩
  · rintro i j ⟨node, args, hp, ha, e, he, hj⟩
    obtain ⟨args', ha', hbelow⟩ := h i node hp
    rw [ha] at ha'
    cases ha'
    exact hbelow e he j hj
  · obtain ⟨i, hi, rfl⟩ := List.getElem_of_mem hnode
    obtain ⟨args, ha, -⟩ := h i _ (Array.getElem?_eq_getElem (by simpa using hi))
    rw [Array.getElem_toList, ha]
    rfl

section Batch

variable {g : Generator} {rule : RateRule} {put : List Element → Call}

/-- Accepted calls record one node each. -/
theorem run_eq_recordAll
    (hput : ∀ (s' : Sketch) args, s'.checkArgs g.descriptor args = .ok () →
      s'.perform (put args) = (.ok (some (.pending s'.size)), (s'.record ⟨g, rule, some args⟩).2))
    {batch : List (List Element)} (hbatch : ∀ args ∈ batch, s.checkArgs g.descriptor args = .ok ()) :
    s.run (batch.map put) = s.recordAll (batch.map fun args => ⟨g, rule, some args⟩) := by
  induction batch generalizing s with
  | nil => rfl
  | cons args batch ih =>
    obtain ⟨hargs, hbatch⟩ := List.forall_mem_cons.1 hbatch
    rw [List.map_cons, List.map_cons, run, List.foldl_cons, hput s args hargs, recordAll, List.foldl_cons]
    exact ih fun args' hmem => checkArgs_record (hbatch args' hmem)

end Batch

/-- Arguments that are accepted and refer to slots of controls only. On single-channel inputs stand leaves and
bundles, the widest of them with `w` channels. -/
structure Fanned (s : Sketch) (d : Descriptor) (args : List Element) (w : Nat) : Prop where
  accepted : s.checkArgs d args = .ok ()
  slots : ∀ e ∈ args, ∀ r, e.Refers r → s.HasSlot r
  direct : ∀ (k : Nat) decl e, d.inputs[k]? = some decl → args[k]? = some e → decl.variadic = false →
    ∀ id, e ≠ .pending id
  widest : IsGreatest {n | ∃ (k : Nat) (decl : InputDecl) (channels : List Element), d.inputs[k]? = some decl ∧
    decl.variadic = false ∧ args[k]? = some (.bundle channels) ∧ n = channels.length} w

namespace Fanned

variable {d : Descriptor} {args : List Element} {w : Nat} {p : Array Progress}

theorem strip_accepted (h : s.Fanned d args w) (i : Nat) :
    s.checkArgs d (Element.strip i d.inputs args) = .ok () := by
  obtain ⟨hlen, hfaults⟩ := checkArgs_eq_ok_iff.1 h.accepted
  refine checkArgs_eq_ok_iff.2 ⟨Element.length_strip i hlen, fun e he => ?_⟩
  obtain ⟨arg, harg, rfl | rfl⟩ := Element.exists_of_mem_strip he
  · exact hfaults _ harg
  · exact Element.fault?_channel (hfaults arg harg) i

/-- The arguments become signals as wide as they were written. -/
theorem exists_signals (h : s.Fanned d args w) (hdone : ∀ j < s.size, ∃ v, p[j]? = some (.done v)) :
    ∃ signals, List.Forall₂ (s.Settles p) args signals ∧ Carrying (singles d.inputs signals) ∧
      SoundGraph.widest (singles d.inputs signals) = w ∧ 0 < w := by
  obtain ⟨-, hfaults⟩ := checkArgs_eq_ok_iff.1 h.accepted
  have hsettle : ∀ e ∈ args, ∃ signal, s.Settles p e signal := fun e he =>
    exists_settles (fun j hj => hdone j (hj.lt (hfaults e he))) (h.slots e he)
  obtain ⟨signals, hsignals⟩ := exists_forall₂_iff.2 hsettle
  have hfull : ∀ {k : Nat} {es}, args[k]? = some (.bundle es) → es ≠ [] := fun hk =>
    (Element.fault?_bundle_eq_none_iff.1 (hfaults _ (List.mem_of_getElem? hk))).1
  have hsource : ∀ {k : Nat} {signal : Signal}, signals[k]? = some signal →
      ∃ e, args[k]? = some e ∧ s.Settles p e signal := fun hk => by
    obtain ⟨e, he, hsettles⟩ := exists_right_of_forall₂ hsignals.flip hk
    exact ⟨e, he, hsettles⟩
  have hgreatest :
      IsGreatest {n | ∃ channels, .bundle channels ∈ singles d.inputs signals ∧ n = channels.length} w := by
    obtain ⟨⟨k, decl, es, hdecl, hv, hes, hw⟩, hupper⟩ := h.widest
    refine ⟨?_, ?_⟩
    · obtain ⟨signal, hsignal, hsettles⟩ := exists_right_of_forall₂ hsignals hes
      obtain ⟨channels, rfl, hall⟩ := settles_bundle_iff.1 hsettles
      exact ⟨channels, mem_singles_iff.2 ⟨k, decl, hdecl, hv, hsignal⟩, hw.trans hall.length_eq⟩
    · rintro n ⟨channels, hmem, rfl⟩
      obtain ⟨k, decl, hdecl, hv, hsignal⟩ := mem_singles_iff.1 hmem
      obtain ⟨e, he, hsettles⟩ := hsource hsignal
      rcases hsettles.width (h.direct k decl e hdecl he hv) with ⟨es, channels', rfl, heq, hlen⟩ | ⟨-, hleaf⟩
      · cases heq
        exact hupper ⟨k, decl, es, hdecl, hv, he, hlen⟩
      · exact absurd rfl (hleaf channels)
  have hcarry : Carrying (singles d.inputs signals) := by
    rintro signal hmem rfl
    obtain ⟨k, decl, hdecl, hv, hsignal⟩ := mem_singles_iff.1 hmem
    obtain ⟨e, he, hsettles⟩ := hsource hsignal
    rcases hsettles.width (h.direct k decl e hdecl he hv) with ⟨es, channels', rfl, heq, hlen⟩ | ⟨-, hleaf⟩
    · cases heq
      exact hfull he (List.length_eq_zero_iff.1 hlen.symm)
    · exact hleaf [] rfl
  refine ⟨signals, hsignals, hcarry, widest_eq_of_isGreatest hgreatest, ?_⟩
  obtain ⟨⟨k, decl, es, -, -, hes, rfl⟩, -⟩ := h.widest
  exact List.length_pos_iff.2 (hfull hes)

end Fanned

section Both

variable {g : Generator} {rule : RateRule} {args : List Element} {w : Nat}

def channelBatch (g : Generator) (args : List Element) (w : Nat) : List (List Element) :=
  (List.range w).map fun i => Element.strip i g.descriptor.inputs args

def walkChannels (s : Sketch) (limit : Nat) (g : Generator) (rule : RateRule) (batch : List (List Element)) :
    Expanding (Array Progress × List Signal) := do
  let p ← s.walkAll limit
  let values ← batch.mapM fun args => s.expandNode limit p ⟨g, rule, some args⟩ args
  return (p, values)

theorem walkAll_recordAll_channels (limit : Nat) (hs : s.Complete) {batch : List (List Element)}
    (hbatch : ∀ args ∈ batch, MentionsBelow s.size args) :
    (s.recordAll (batch.map fun args => ⟨g, rule, some args⟩)).walkAll limit =
      s.walkChannels limit g rule batch >>= fun r => pure (r.1 ++ (r.2.map Progress.done).toArray) := by
  funext x
  rw [hs.walkAll_recordAll hbatch]
  simp only [walkChannels, bind_assoc, pure_bind]

theorem Fanned.walkAll_record_channels (limit : Nat) (h : s.Fanned g.descriptor args w) (hs : s.Complete)
    (hhook : g.hook = none) :
    (s.record ⟨g, rule, some args⟩).2.walkAll limit s.controlTable =
      (s.walkChannels limit g rule (channelBatch g args w) >>= fun r =>
        pure (r.1.push (.done (.bundle r.2)))) s.controlTable := by
  rw [hs.walkAll_record rfl (lt_size_of_checkArgs h.accepted), walkChannels, bind_assoc]
  refine run_bind_congr rfl fun p x hx => ?_
  have hwithin : s.controlTable.Within x := ((leads_walkAll_gains s.controlTable).of_ok hx).within
  obtain ⟨signals, hsignals, hcarry, hw, hpos⟩ := h.exists_signals fun j hj => done_of_walkAll hx hj
  obtain ⟨w, rfl⟩ := Nat.exists_eq_add_of_lt hpos
  rw [Nat.zero_add] at hw
  have hlen := (checkArgs_eq_ok_iff.1 h.accepted).1
  rw [run_bind_congr (expandNode_eq_loop hhook hlen hsignals h.direct hcarry hw hwithin) fun _ _ _ => rfl]
  simp only [channelBatch, Nat.zero_add, bind_assoc, pure_bind]

/-- Two expansions end alike: with the same error, or with the same table and the same signal for an element of
the one sketch and an element of the other. -/
inductive Alike (s s' : Sketch) (limit : Nat) (e e' : Element) : Prop where
  | error {abort : Abort} {x : Expansion} (h : s.expand limit .empty = .error abort x)
    (h' : s'.expand limit .empty = .error abort x)
  | ok {p p' : Array Progress} {x : Expansion} {signal : Signal} (h : s.expand limit .empty = .ok p x)
    (h' : s'.expand limit .empty = .ok p' x) (hsignal : s.resolve p x e = .ok signal)
    (hsignal' : s'.resolve p' x e' = .ok signal)

theorem Alike.compile_eq {s' : Sketch} {e e' : Element} (h : Alike s s' limit e e')
    (hpool : s.controlPool = s'.controlPool) : s.compile limit = s'.compile limit := by
  rw [compile_eq_finish, compile_eq_finish]
  cases h with
  | error h h' => rw [h, h', finish, finish]
  | ok h h' => rw [h, h', finish, finish, hpool]

def handlesBehind (s : Sketch) (w : Nat) : List Element := (List.range w).map fun i => .pending (s.size + i)

theorem resolve_handlesBehind {s' : Sketch} {p : Array Progress} (hsize : p.size = s.size) (values : List Signal)
    (x : Expansion) :
    s'.resolve (p ++ (values.map Progress.done).toArray) x (.bundle (s.handlesBehind values.length)) =
      .ok (.bundle values) := by
  have hall : List.Forall₂
      (fun e value => s'.resolve (p ++ (values.map Progress.done).toArray) x e = .ok value)
      (s.handlesBehind values.length) values := by
    refine List.forall₂_iff_get.2 ⟨by simp [handlesBehind], fun i hi hi' => ?_⟩
    simp [handlesBehind, resolve, ← hsize, hi']
  rw [resolve, resolveAll_eq_mapM, mapM_eq_ok_iff.2 hall]
  rfl

theorem Fanned.alike (h : s.Fanned g.descriptor args w) (hs : s.Complete) (hhook : g.hook = none) (limit : Nat) :
    Alike (s.record ⟨g, rule, some args⟩).2
      (s.recordAll ((channelBatch g args w).map fun args => ⟨g, rule, some args⟩)) limit
      (.pending s.size) (.bundle (s.handlesBehind w)) := by
  have hbatch : ∀ args' ∈ channelBatch g args w, MentionsBelow s.size args' := by
    intro args' hmem
    obtain ⟨i, -, rfl⟩ := List.mem_map.1 hmem
    exact lt_size_of_checkArgs (h.strip_accepted i)
  have honce := ((Continues.refl s).record ⟨g, rule, some args⟩).expand_eq
    (h.walkAll_record_channels limit hs hhook)
  have hloop := (continues_recordAll s ((channelBatch g args w).map fun args => ⟨g, rule, some args⟩)).expand_eq
    (congrFun (walkAll_recordAll_channels limit hs hbatch) _)
  rw [← bind_assoc] at honce hloop
  cases hact : (s.emitControls limit >>= fun _ => s.walkChannels limit g rule (channelBatch g args w)) .empty with
  | error e x =>
    exact .error (honce.trans (run_bind_eq_error_iff.2 (.inl hact)))
      (hloop.trans (run_bind_eq_error_iff.2 (.inl hact)))
  | ok r x =>
    obtain ⟨p, values⟩ := r
    obtain ⟨_, x₁, -, hwalk⟩ := run_bind_eq_ok_iff.1 hact
    obtain ⟨p, x₂, hwalk, hrest⟩ := run_bind_eq_ok_iff.1 hwalk
    obtain ⟨values, x₃, hvalues, hrest⟩ := run_bind_eq_ok_iff.1 hrest
    cases hrest
    have hsize := size_of_walkAll hwalk
    have hlen : values.length = w := by
      rw [length_of_run_mapM hvalues, channelBatch, List.length_map, List.length_range]
    refine .ok (honce.trans (run_bind_eq_ok_iff.2 ⟨_, x, hact, rfl⟩))
      (hloop.trans (run_bind_eq_ok_iff.2 ⟨_, x, hact, rfl⟩)) ?_ (hlen ▸ resolve_handlesBehind hsize values x)
    rw [resolve, ← hsize, Array.getElem?_push_size]

def channelCalls (put : List Element → Call) (g : Generator) (args : List Element) (n : Nat) : List Call :=
  (channelBatch g args n).map put

/-- Fan-out is a loop. A call whose widest bundle has `w` channels, and the `w` calls that take the channels in
turn, lead to sketches that compile alike under every limit, to the same graph or with the same error; and the
handle of the one call becomes the same signal as the bundle of the handles of the others. -/
theorem compile_fan_out_loop {s : Sketch} {calls : List Call} (hs : s = ({} : Sketch).run calls)
    (hascending : s.Ascending) (hhook : g.hook = none) {put : List Element → Call} (hput : Adds put g)
    {handle : Element} (haccepted : (s.perform (put args)).1 = .ok (some handle))
    (hsingles : ∀ e ∈ args, ∀ r, e.Refers r → HandedOut calls r)
    (hdirect : ∀ (k : Nat) decl e, g.descriptor.inputs[k]? = some decl → args[k]? = some e →
      decl.variadic = false → ∀ id, e ≠ .pending id)
    (hwidth : IsGreatest {n | ∃ (k : Nat) (decl : InputDecl) (channels : List Element),
      g.descriptor.inputs[k]? = some decl ∧ decl.variadic = false ∧ args[k]? = some (.bundle channels) ∧
        n = channels.length} w) :
    handle = .pending s.size ∧
      (∀ i < w, ((s.run (channelCalls put g args i)).perform
        (put (Element.strip i g.descriptor.inputs args))).1 = .ok (some (.pending (s.size + i)))) ∧
      (∀ limit, (s.perform (put args)).2.compile limit = (s.run (channelCalls put g args w)).compile limit) ∧
      ∀ limit, Alike (s.perform (put args)).2 (s.run (channelCalls put g args w)) limit handle
        (.bundle (s.handlesBehind w)) := by
  obtain ⟨hcheck, rule, hperform⟩ := hput.exists_rule haccepted
  have hcomplete : s.Complete := hascending.complete (hs ▸ scoped_empty.run calls)
  have hfanned : s.Fanned g.descriptor args w :=
    ⟨hcheck, fun e he r hr => hs ▸ (hsingles e he r hr).hasSlot, hdirect, hwidth⟩
  have hrun : ∀ n, s.run (channelCalls put g args n) =
      s.recordAll ((channelBatch g args n).map fun args => ⟨g, rule, some args⟩) := by
    refine fun n => run_eq_recordAll hperform fun args' hmem => ?_
    obtain ⟨i, -, rfl⟩ := List.mem_map.1 hmem
    exact hfanned.strip_accepted i
  have honce := hperform s args hcheck
  have hhandle : handle = .pending s.size := by
    rw [honce] at haccepted
    cases haccepted
    rfl
  have halike : ∀ limit, Alike (s.perform (put args)).2 (s.run (channelCalls put g args w)) limit handle
      (.bundle (s.handlesBehind w)) := by
    intro limit
    rw [honce, hrun, hhandle]
    exact hfanned.alike hcomplete hhook limit
  refine ⟨hhandle, fun i _ => ?_, fun limit => ?_, halike⟩
  · have hcont := continues_recordAll s ((channelBatch g args i).map fun args => ⟨g, rule, some args⟩)
    rw [hrun, hperform _ _ (checkArgs_mono hcont.size_le (hfanned.strip_accepted i)), size_recordAll]
    simp [channelBatch]
  · refine (halike limit).compile_eq ?_
    rw [honce, hrun, ((Continues.refl s).record _).controlPool_eq, (continues_recordAll s _).controlPool_eq]

end Both

def whiteNoise : Generator :=
  ⟨{ name := "WhiteNoise", rate := .fixed .audio, flags := { individual := true } }, none⟩

def sourceCalls : List Call := [.control "pos" .control .zero, .add whiteNoise []]

def spreadArgs : List Element :=
  [.bundle [.pending 0, .const .zero, .bundle [.out ⟨0, 0⟩, .pending 0]], .out ⟨0, 0⟩,
    .bundle [.pending 0, .out ⟨0, 0⟩]]

theorem compile_fan_out_loop_panner :
    (({} : Sketch).run sourceCalls).Ascending ∧
      ∀ limit, ((({} : Sketch).run sourceCalls).perform (.add ⟨panner, none⟩ spreadArgs)).2.compile limit =
        ((({} : Sketch).run sourceCalls).run [
          .add ⟨panner, none⟩ [.pending 0, .out ⟨0, 0⟩, .bundle [.pending 0, .out ⟨0, 0⟩]],
          .add ⟨panner, none⟩ [.const .zero, .out ⟨0, 0⟩, .bundle [.pending 0, .out ⟨0, 0⟩]],
          .add ⟨panner, none⟩ [.bundle [.out ⟨0, 0⟩, .pending 0], .out ⟨0, 0⟩,
            .bundle [.pending 0, .out ⟨0, 0⟩]]]).compile limit := by
  have hpending : (({} : Sketch).run sourceCalls).pending = #[⟨whiteNoise, .fixed .audio, some []⟩] := by cbv
  have hascending : (({} : Sketch).run sourceCalls).Ascending := by
    intro i node hnode
    have hmem := Array.mem_of_getElem? hnode
    rw [hpending, Array.mem_singleton] at hmem
    subst hmem
    exact ⟨[], rfl, List.forall_mem_nil _⟩
  have hslot : HandedOut sourceCalls ⟨0, 0⟩ := ⟨[], "pos", .control, .zero, sourceCalls.tail, rfl, by cbv⟩
  have hsingles : ∀ e ∈ spreadArgs, ∀ r, e.Refers r → HandedOut sourceCalls r := by
    intro e he r hr
    have hr : r = ⟨0, 0⟩ := by
      simp only [spreadArgs, List.mem_cons, List.not_mem_nil, or_false] at he
      rcases he with rfl | rfl | rfl <;> simpa using hr
    exact hr ▸ hslot
  have haccepted : ((({} : Sketch).run sourceCalls).perform (.add ⟨panner, none⟩ spreadArgs)).1 =
      .ok (some (.pending 1)) := by cbv
  refine ⟨hascending, (compile_fan_out_loop (w := 3) rfl hascending rfl (.inl rfl) haccepted hsingles
    (fun k decl e hdecl he hv id => ?_) ⟨⟨0, ⟨"in", .any, false⟩, _, rfl, rfl, rfl, rfl⟩, ?_⟩).2.2.1⟩
  · rcases k with _ | _ | _ | k <;> cases hdecl <;> cases he
    · exact fun h => by cases h
    · exact fun h => by cases h
    · cases hv
  · rintro n ⟨k, decl, channels, hdecl, hv, hchannels, rfl⟩
    rcases k with _ | _ | _ | k <;> cases hdecl <;> cases hchannels
    · exact Nat.le_refl _
    · cases hv

end Sketch

end SoundGraph
