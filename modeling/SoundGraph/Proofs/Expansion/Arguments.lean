import SoundGraph.Expansion
import SoundGraph.Proofs.Expansion.Broadcast
import SoundGraph.Proofs.Success

/-! What each instance of a call is given. Stripping a bundle layer from the arguments is a step along every
path, so the instance at the end of a path is given, on each single-channel input, the leaf that the path
leads to, whatever the depth at which the bundles of that argument end. A call has a width exactly when no
single-channel argument is an empty bundle, and then each of its channels has its arguments. -/

namespace SoundGraph

def singles : List InputDecl → List Signal → List Signal
  | decl :: decls, arg :: args => if decl.variadic then singles decls args else arg :: singles decls args
  | _, _ => []

/-- None of the signals is a bundle without channels. -/
def Carrying (ss : List Signal) : Prop := ∀ s ∈ ss, s ≠ .bundle []

/-- What the instance at the end of path `p` is given, input by input: the leaf that the path leads to, or all
leaves of the argument of a variadic input. -/
def feed (decls : List InputDecl) (args : List Signal) (p : List Nat) : List (List Signal) :=
  List.zipWith (fun decl arg => if decl.variadic then arg.leaves else [arg.follow p]) decls args

def feedCounts (decls : List InputDecl) (args : List Signal) : List Nat :=
  List.zipWith (fun decl arg => if decl.variadic then arg.leaves.length else 1) decls args

def strip (i : Nat) (decls : List InputDecl) (args : List Signal) : List Signal :=
  List.zipWith (fun decl arg => if decl.variadic then arg else arg.channel i) decls args

section Arguments

variable {d : Descriptor} {rule : RateRule} {decls : List InputDecl} {args : List Signal}

theorem mem_singles_iff {s : Signal} :
    s ∈ singles decls args ↔
      ∃ (k : Nat) (decl : InputDecl), decls[k]? = some decl ∧ decl.variadic = false ∧ args[k]? = some s := by
  induction decls generalizing args with
  | nil => simp [singles]
  | cons decl decls ih =>
    cases args with
    | nil => simp [singles]
    | cons arg args =>
      rw [← Nat.or_exists_add_one, singles]
      cases hv : decl.variadic with
      | true => simp [hv, ih]
      | false => simp [hv, ih, eq_comm (a := s)]

theorem length_strip (i : Nat) (h : args.length = decls.length) :
    (strip i decls args).length = decls.length := by
  rw [strip, List.length_zipWith, h, Nat.min_self]

theorem zipWith_strip {β : Type} (f : InputDecl → Signal → β) (i : Nat) (decls : List InputDecl)
    (args : List Signal) :
    List.zipWith f decls (strip i decls args) =
      List.zipWith (fun decl arg => f decl (if decl.variadic then arg else arg.channel i)) decls args := by
  induction decls generalizing args with
  | nil => rfl
  | cons decl decls ih =>
    cases args with
    | nil => rfl
    | cons arg args => exact congrArg (_ :: ·) (ih args)

/-- A stripped layer is the first step of every path. -/
theorem feed_strip (i : Nat) (decls : List InputDecl) (args : List Signal) (p : List Nat) :
    feed decls (strip i decls args) p = feed decls args (i :: p) := by
  rw [feed, zipWith_strip, feed]
  congr 1
  funext decl arg
  cases decl.variadic <;> rfl

theorem getElem?_strip {i k : Nat} {decl : InputDecl} (h : decls[k]? = some decl) :
    (strip i decls args)[k]? = args[k]?.map fun arg => if decl.variadic then arg else arg.channel i := by
  rw [strip, List.getElem?_zipWith, h]
  cases args[k]? <;> rfl

theorem feedCounts_strip (i : Nat) (decls : List InputDecl) (args : List Signal) :
    feedCounts decls (strip i decls args) = feedCounts decls args := by
  rw [feedCounts, zipWith_strip, feedCounts]
  congr 1
  funext decl arg
  cases decl.variadic <;> rfl

theorem singles_strip (i : Nat) (decls : List InputDecl) (args : List Signal) :
    singles decls (strip i decls args) = layer i (singles decls args) := by
  induction decls generalizing args with
  | nil => rfl
  | cons decl decls ih =>
    cases args with
    | nil => rfl
    | cons arg args =>
      simp only [singles, strip, List.zipWith_cons_cons] at ih ⊢
      rw [ih]
      cases decl.variadic <;> rfl

theorem length_feed (decls : List InputDecl) (args : List Signal) (p : List Nat) :
    (feed decls args p).map List.length = feedCounts decls args := by
  rw [feed, feedCounts, List.map_zipWith]
  congr 1
  funext decl arg
  cases decl.variadic <;> rfl

/-- The arguments that pass are not empty bundles, and the width found is that of the widest. -/
theorem widest_of_fanWidth {k w : Nat} (h : d.fanWidth rule k decls args = .ok w) :
    widest (singles decls args) = w ∧ Carrying (singles decls args) := by
  induction decls generalizing k w args with
  | nil =>
    cases h
    exact ⟨rfl, List.forall_mem_nil _⟩
  | cons decl decls ih =>
    cases args with
    | nil =>
      cases h
      exact ⟨rfl, List.forall_mem_nil _⟩
    | cons arg args =>
      unfold Descriptor.fanWidth at h
      rw [singles]
      split at h
      · next hv =>
        rw [if_pos hv]
        exact ih h
      · next hv =>
        rw [if_neg hv]
        change max arg.layerWidth (widest (singles decls args)) = w ∧ _
        cases arg with
        | bundle channels =>
          cases channels with
          | nil => cases h
          | cons c cs =>
            obtain ⟨w', hrest, rfl⟩ := map_eq_ok_iff.1 h
            obtain ⟨rfl, hne⟩ := ih hrest
            exact ⟨rfl, List.forall_mem_cons.2 ⟨by simp, hne⟩⟩
        | const v =>
          obtain ⟨rfl, hne⟩ := ih h
          exact ⟨Nat.zero_max _, List.forall_mem_cons.2 ⟨by simp, hne⟩⟩
        | out r =>
          obtain ⟨rfl, hne⟩ := ih h
          exact ⟨Nat.zero_max _, List.forall_mem_cons.2 ⟨by simp, hne⟩⟩

/-- Only an empty bundle on a single-channel input keeps a call from having a width. -/
theorem exists_empty_of_fanWidth {k : Nat} {e : CompileError} (h : d.fanWidth rule k decls args = .error e) :
    ∃ j decl, decls[j]? = some decl ∧ decl.variadic = false ∧ args[j]? = some (.bundle []) ∧
      e = d.starved rule (k + j) decl := by
  induction decls generalizing k args with
  | nil => simp [Descriptor.fanWidth] at h
  | cons decl decls ih =>
    cases args with
    | nil => simp [Descriptor.fanWidth] at h
    | cons arg args =>
      have hlater : d.fanWidth rule (k + 1) decls args = .error e → ∃ j decl', (decl :: decls)[j]? = some decl' ∧
          decl'.variadic = false ∧ (arg :: args)[j]? = some (.bundle []) ∧ e = d.starved rule (k + j) decl' := by
        intro hrest
        obtain ⟨j, decl', hdecl, hsingle, harg, he⟩ := ih hrest
        refine ⟨j + 1, decl', hdecl, hsingle, harg, ?_⟩
        rw [he, Nat.add_assoc, Nat.add_comm 1 j]
      unfold Descriptor.fanWidth at h
      split at h
      · exact hlater h
      · next hsingle =>
        split at h
        · cases h
          exact ⟨0, decl, rfl, by simpa using hsingle, rfl, rfl⟩
        · cases hrest : d.fanWidth rule (k + 1) decls args with
          | ok w =>
            rw [hrest] at h
            cases h
          | error e' =>
            rw [hrest] at h
            cases h
            exact hlater hrest
        · exact hlater h

/-- Arguments without an empty bundle have a width. -/
theorem fanWidth_of_carrying (h : Carrying (singles decls args)) (k : Nat) :
    d.fanWidth rule k decls args = .ok (widest (singles decls args)) := by
  have hwidth : ∃ w, d.fanWidth rule k decls args = .ok w := by
    induction decls generalizing k args with
    | nil => exact ⟨0, rfl⟩
    | cons decl decls ih =>
      cases args with
      | nil => exact ⟨0, rfl⟩
      | cons arg args =>
        rw [singles] at h
        unfold Descriptor.fanWidth
        split
        · next hv =>
          rw [if_pos hv] at h
          exact ih h (k + 1)
        · next hv =>
          rw [if_neg hv] at h
          obtain ⟨harg, hargs⟩ := List.forall_mem_cons.1 h
          obtain ⟨w, hw⟩ := ih hargs (k + 1)
          split
          · exact absurd rfl harg
          · next channels _ => exact ⟨max channels.length w, by rw [hw]; rfl⟩
          · exact ⟨w, hw⟩
  obtain ⟨w, hw⟩ := hwidth
  rw [hw, (widest_of_fanWidth hw).1]

/-- Where no bundle is left, an instance is given the leaves of its own arguments. -/
theorem feed_nil (hlen : args.length = decls.length) (h : ∀ s ∈ singles decls args, s.leaves = [s]) :
    feed decls args [] = args.map Signal.leaves := by
  induction decls generalizing args with
  | nil => rw [List.length_eq_zero_iff.1 hlen]; rfl
  | cons decl decls ih =>
    cases args with
    | nil => rfl
    | cons arg args =>
      have hlen' : args.length = decls.length := Nat.succ.inj hlen
      rw [singles] at h
      cases hv : decl.variadic with
      | true =>
        rw [if_pos hv] at h
        simp only [feed, List.zipWith_cons_cons, hv, if_true, List.map_cons] at ih ⊢
        rw [ih hlen' h]
      | false =>
        rw [if_neg (by simp [hv])] at h
        obtain ⟨harg, hargs⟩ := List.forall_mem_cons.1 h
        simp only [feed, List.zipWith_cons_cons, hv, Bool.false_eq_true, if_false, List.map_cons] at ih ⊢
        rw [ih hlen' hargs, harg]
        rfl

/-- A call with no bundle to fan out is one instance, given the leaves of its arguments. -/
theorem feed_of_fanWidth (hlen : args.length = d.inputs.length)
    (h : d.fanWidth rule 0 d.inputs args = .ok 0) : feed d.inputs args [] = args.map Signal.leaves := by
  obtain ⟨hwidest, hne⟩ := widest_of_fanWidth h
  apply feed_nil hlen
  intro s hs
  have hzero := layerWidth_le_widest hs
  rw [hwidest, Nat.le_zero] at hzero
  cases s with
  | bundle channels => exact absurd (List.length_eq_zero_iff.1 hzero ▸ rfl) (hne _ hs)
  | const v => rfl
  | out r => rfl

theorem channel_supply_eq_ok (i : Nat) {decl : InputDecl} {arg : Signal}
    (h : decl.variadic = false → arg ≠ .bundle []) :
    (decl.supply arg).channel i = .ok (if decl.variadic then arg else arg.channel i) := by
  unfold InputDecl.supply
  split
  · next hv => rfl
  · next hv =>
    cases arg with
    | bundle channels =>
      have hne : channels ≠ [] := fun heq => h (by simpa using hv) (by rw [heq])
      have hlt : i % channels.length < channels.length := Nat.mod_lt i (List.length_pos_iff.2 hne)
      simp [Supply.channel, Signal.channel, hlt]
    | const v => rfl
    | out r => rfl

theorem channelArgs_of_carrying (h : Carrying (singles decls args)) (i : Nat) :
    channelArgs i (supplies decls args) = .ok (strip i decls args) := by
  induction decls generalizing args with
  | nil => rfl
  | cons decl decls ih =>
    cases args with
    | nil => rfl
    | cons arg args =>
      rw [singles] at h
      have harg : decl.variadic = false → arg ≠ .bundle [] := fun hv => by
        rw [if_neg (by simp [hv])] at h
        exact h arg List.mem_cons_self
      have hargs : Carrying (singles decls args) := fun s hs => h s (by split <;> simp [hs])
      rw [supplies, channelArgs, channel_supply_eq_ok i harg, ih hargs]
      rfl

/-- The arguments for a channel have a bundle layer less. -/
theorem fanDepth_strip_lt {w : Nat} (h : d.fanWidth rule 0 d.inputs args = .ok (w + 1)) (i : Nat) :
    fanDepth d.inputs (strip i d.inputs args) < fanDepth d.inputs args := by
  have hpos := fanDepth_pos h
  have hle := fanDepth_channelArgs (channelArgs_of_carrying (widest_of_fanWidth h).2 i)
  omega

end Arguments

end SoundGraph
