import SoundGraph.Proofs.Sketch.Scope

/-! When a call with arguments is accepted. Arguments are refused for their number, for a bundle without channels
and for a pending number that is not known, and numbers once known stay known. So a call that has been accepted
is accepted again later, and what it records then differs in its number only. -/

namespace SoundGraph

namespace Element

theorem faultAmong?_eq_none_iff {known : Nat} {es : List Element} :
    faultAmong? known es = none ↔ ∀ e ∈ es, e.fault? known = none := by
  refine ⟨fault?_of_faultAmong?, fun h => ?_⟩
  induction es with
  | nil => rfl
  | cons e es ih =>
    obtain ⟨he, hes⟩ := List.forall_mem_cons.1 h
    rw [faultAmong?, ih hes, he]
    rfl

theorem fault?_bundle_eq_none_iff {known : Nat} {es : List Element} :
    (bundle es).fault? known = none ↔ es ≠ [] ∧ ∀ e ∈ es, e.fault? known = none := by
  rw [fault?, ← faultAmong?_eq_none_iff]
  cases es <;> simp

theorem fault?_mono {known known' : Nat} (hle : known ≤ known') {e : Element} (h : e.fault? known = none) :
    e.fault? known' = none := by
  induction e using Element.induction with
  | const v => rfl
  | out r => rfl
  | pending id =>
    have hlt : id < known := Mentions.pending.lt h
    rw [fault?, if_pos (Nat.lt_of_lt_of_le hlt hle)]
  | bundle es ih =>
    obtain ⟨hne, hall⟩ := fault?_bundle_eq_none_iff.1 h
    exact fault?_bundle_eq_none_iff.2 ⟨hne, fun e he => ih e he (hall e he)⟩

end Element

namespace Sketch

variable {s s' : Sketch}

theorem checkArgs_eq_ok_iff {d : Descriptor} {args : List Element} :
    s.checkArgs d args = .ok () ↔ args.length = d.inputs.length ∧ ∀ e ∈ args, e.fault? s.size = none := by
  rw [← Element.faultAmong?_eq_none_iff]
  unfold checkArgs
  split
  · next hne => simp [hne]
  · next heq =>
    rw [not_not] at heq
    cases Element.faultAmong? s.size args <;> simp [heq]

theorem checkArgs_mono (hle : s.size ≤ s'.size) {d : Descriptor} {args : List Element}
    (h : s.checkArgs d args = .ok ()) : s'.checkArgs d args = .ok () := by
  rw [checkArgs_eq_ok_iff] at h ⊢
  exact ⟨h.1, fun e he => Element.fault?_mono hle (h.2 e he)⟩

theorem answer_addWith {g : Generator} {rule : RateRule} {args : List Element}
    (h : s.checkArgs g.descriptor args = .ok ()) :
    s.answer (s.addWith g rule args) = (.ok (some (.pending s.size)), (s.record ⟨g, rule, some args⟩).2) := by
  rw [addWith, h]
  rfl

theorem checkArgs_of_answer {g : Generator} {rule : RateRule} {args : List Element} {reply : Reply}
    (h : (s.answer (s.addWith g rule args)).1 = .ok reply) : s.checkArgs g.descriptor args = .ok () := by
  unfold addWith at h
  cases hcheck : s.checkArgs g.descriptor args with
  | ok u => rfl
  | error e =>
    rw [hcheck] at h
    cases h

theorem checkArgs_record {node : PendingNode} {d : Descriptor} {args : List Element}
    (h : s.checkArgs d args = .ok ()) : (s.record node).2.checkArgs d args = .ok () :=
  checkArgs_mono (by simp [size, record]) h

def Adds (put : List Element → Call) (g : Generator) : Prop := put = .add g ∨ ∃ rate, put = .addAt g rate

/-- An accepted call records a node and answers with its number, and so does the same call with other arguments
that pass the check. -/
theorem Adds.exists_rule {put : List Element → Call} {g : Generator} (h : Adds put g) {args : List Element}
    {reply : Reply} (hok : (s.perform (put args)).1 = .ok reply) :
    s.checkArgs g.descriptor args = .ok () ∧
      ∃ rule, ∀ (s' : Sketch) (args' : List Element), s'.checkArgs g.descriptor args' = .ok () →
        s'.perform (put args') = (.ok (some (.pending s'.size)), (s'.record ⟨g, rule, some args'⟩).2) := by
  rcases h with rfl | ⟨rate, rfl⟩
  · exact ⟨checkArgs_of_answer hok, g.descriptor.rate, fun s' args' hcheck => answer_addWith hcheck⟩
  · have hanswer : ∀ (s' : Sketch) args', s'.perform (.addAt g rate args') =
        s'.answer (checkRate g.descriptor rate >>= fun _ => s'.addWith g (.fixed rate) args') := fun s' args' => rfl
    cases hrate : checkRate g.descriptor rate with
    | error e =>
      rw [hanswer, hrate] at hok
      cases hok
    | ok u =>
      rw [hanswer, hrate] at hok
      refine ⟨checkArgs_of_answer hok, .fixed rate, fun s' args' hcheck => ?_⟩
      rw [hanswer, hrate]
      exact answer_addWith hcheck

end Sketch

end SoundGraph
