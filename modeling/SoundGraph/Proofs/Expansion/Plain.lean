import SoundGraph.Mix
import SoundGraph.Proofs.Expansion.Outcome

/-! Plain expansions are sequences of calls. A script that gives up as soon as an instance is rejected comes to
the same as the call of that instance followed by the rest of the script; so a generator without a hook is one
call, and a mix is a chain of additions. -/

namespace SoundGraph.Expanding

/-- The script ends with the error of its first instance. -/
theorem perform_instantiate (limit : Nat) (d : Descriptor) (rule : RateRule) (args : List Signal)
    {next : Except CompileError Signal → Script} (hstops : ∀ e, next (.error e) = .done (.error e)) :
    perform limit (.instantiate d rule args next) =
      instantiate limit d rule args >>= fun signal => perform limit (next (.ok signal)) := by
  funext x
  simp only [perform, Bind.bind, EStateM.bind]
  cases instantiate limit d rule args x with
  | ok signal x' => rfl
  | error e x' =>
    cases e with
    | rejected e =>
      simp only [hstops, perform]
      rfl
    | fault f => rfl

def addAll (limit : Nat) (rule : RateRule) (sum : Signal) (channels : List Signal) : Expanding Signal :=
  channels.foldlM (fun sum channel => instantiate limit adder rule [sum, channel]) sum

theorem perform_addChannels (limit : Nat) (rule : RateRule) (sum : Signal) (channels : List Signal) :
    perform limit (addChannels rule sum channels) = addAll limit rule sum channels := by
  induction channels generalizing sum with
  | nil => rfl
  | cons channel rest ih =>
    rw [addChannels, addAll, List.foldlM_cons]
    refine Eq.trans (perform_instantiate limit adder rule [sum, channel] ?_) (bind_congr fun sum => ih sum)
    exact fun e => rfl

theorem perform_mix (limit : Nat) (rule : RateRule) (args : List Signal) :
    perform limit (mix rule args) =
      match args.flatMap Signal.channels with
      | [] => pure (.const .zero)
      | first :: rest => addAll limit (mixRule rule) first rest := by
  unfold mix
  cases args.flatMap Signal.channels with
  | nil => rfl
  | cons first rest => exact perform_addChannels limit (mixRule rule) first rest

/-- A generator without a hook. -/
theorem perform_script_none {g : Generator} (h : g.hook = none) (limit : Nat) (rule : RateRule)
    (args : List Signal) :
    perform limit (g.script rule args) = instantiate limit g.descriptor rule args := by
  rw [Generator.script, h]
  have hcall := perform_instantiate limit g.descriptor rule args fun e => (rfl : Script.done (.error e) = _)
  exact hcall.trans (bind_pure _)

end SoundGraph.Expanding
