import SoundGraph.Signal

/-! Trees with labels at the ends of their maximal paths. A path is the list of the channel numbers that it
takes; read from the left, the paths of a tree come in lexicographic order. -/

namespace SoundGraph

/-- A tree with labels at the ends of its maximal paths. -/
inductive Fan (α : Type) where
  | one (label : α)
  | many (fans : List (Fan α))

namespace Fan

variable {α β : Type}

mutual
def fold (one : α → β) (many : List β → β) : Fan α → β
  | .one a => one a
  | .many ts => many (foldAll one many ts)

def foldAll (one : α → β) (many : List β → β) : List (Fan α) → List β
  | [] => []
  | t :: ts => t.fold one many :: foldAll one many ts
end

def at? : Fan α → List Nat → Option α
  | one a, [] => some a
  | many ts, i :: p => ts[i]?.bind fun t => t.at? p
  | _, _ => none

def shape (t : Fan α) : Fan Unit := t.fold (fun _ => one ()) many

/-- The signal with the tree for its bundles and a signal for each label. -/
def graft (f : α → Signal) (t : Fan α) : Signal := t.fold f .bundle

/-- Paths through channels numbered from `k`, each at the front of the paths through its own tree. -/
def under (k : Nat) (entries : List (List (List Nat × α))) : List (List Nat × α) :=
  (entries.zipIdx k).flatMap fun (es, i) => es.map fun (p, a) => (i :: p, a)

/-- The maximal paths with their labels, from the left. -/
def entries (t : Fan α) : List (List Nat × α) := t.fold (fun a => [([], a)]) (under 0)

def paths (t : Fan α) : List (List Nat) := t.entries.map Prod.fst

/-- Induction through the channels of a tree. -/
theorem induction {P : Fan α → Prop} (one : ∀ a, P (.one a))
    (many : ∀ ts, (∀ t ∈ ts, P t) → P (.many ts)) : ∀ t, P t
  | .one a => one a
  | .many ts => many ts fun t _ => induction one many t

theorem fold_many (f : α → β) (g : List β → β) (ts : List (Fan α)) :
    (many ts).fold f g = g (ts.map (fold f g)) := by
  have hall : foldAll f g ts = ts.map (fold f g) := by
    induction ts with
    | nil => rfl
    | cons t ts ih => rw [foldAll, ih, List.map_cons]
  rw [fold, hall]

theorem mem_under_iff {k i : Nat} {p : List Nat} {a : α} {ess : List (List (List Nat × α))} :
    (i :: p, a) ∈ under k ess ↔ k ≤ i ∧ ∃ es, ess[i - k]? = some es ∧ (p, a) ∈ es := by
  simp only [under, List.mem_flatMap, List.mem_map, Prod.exists, List.mem_zipIdx_iff_le_and_getElem?_sub]
  constructor
  · rintro ⟨es, j, ⟨hle, hj⟩, q, b, hq, heq⟩
    cases heq
    exact ⟨hle, es, hj, hq⟩
  · rintro ⟨hle, es, hi, hp⟩
    exact ⟨es, i, ⟨hle, hi⟩, p, a, hp, rfl⟩

theorem under_cons (k : Nat) (es : List (List Nat × α)) (ess : List (List (List Nat × α))) :
    under k (es :: ess) = (es.map fun e => (k :: e.1, e.2)) ++ under (k + 1) ess := rfl

theorem exists_of_mem_under {k : Nat} {e : List Nat × α} {ess : List (List (List Nat × α))}
    (h : e ∈ under (k + 1) ess) : ∃ i p, k < i ∧ e.1 = i :: p := by
  obtain ⟨p, a⟩ := e
  cases p with
  | nil => simp [under] at h
  | cons i p => exact ⟨i, p, (mem_under_iff.1 h).1, rfl⟩

/-- The paths through the first channel, then those through the next, and so on. -/
theorem paths_many (f : Nat → Fan α) (n : Nat) :
    (many ((List.range n).map f)).paths = (List.range n).flatMap fun i => (f i).paths.map (i :: ·) := by
  have hzip : (List.range n).zipIdx = (List.range n).map fun i => (i, i) := by
    apply List.ext_getElem <;> simp
  rw [paths, entries, fold_many, under, List.map_map, List.zipIdx_map, hzip]
  simp [paths, entries, List.flatMap_map, List.map_flatMap, Function.comp_def]

theorem mem_entries_iff {t : Fan α} {p : List Nat} {a : α} : (p, a) ∈ t.entries ↔ t.at? p = some a := by
  induction t using Fan.induction generalizing p with
  | one b => cases p <;> simp [entries, fold, at?, eq_comm]
  | many ts ih =>
    rw [entries, fold_many]
    cases p with
    | nil => simp [under, at?]
    | cons i p =>
      rw [mem_under_iff, at?, Option.bind_eq_some_iff, Nat.sub_zero, List.getElem?_map]
      constructor
      · rintro ⟨-, es, hes, hp⟩
        obtain ⟨t, ht, rfl⟩ := Option.map_eq_some_iff.1 hes
        exact ⟨t, ht, (ih t (List.mem_of_getElem? ht)).1 hp⟩
      · rintro ⟨t, ht, hp⟩
        exact ⟨Nat.zero_le i, _, by rw [ht]; rfl, (ih t (List.mem_of_getElem? ht)).2 hp⟩

/-- A tree has the maximal paths of its shape. -/
theorem at?_shape (t : Fan α) (p : List Nat) : t.shape.at? p = (t.at? p).map fun _ => () := by
  induction t using Fan.induction generalizing p with
  | one a => cases p <;> rfl
  | many ts ih =>
    rw [shape, fold_many]
    cases p with
    | nil => rfl
    | cons i p =>
      rw [at?, at?, List.getElem?_map]
      cases ht : ts[i]? with
      | none => rfl
      | some t => exact ih t (List.mem_of_getElem? ht) p

end Fan

end SoundGraph
