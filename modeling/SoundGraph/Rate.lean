/-! Calculation rates. Every emitted node runs at one `Rate`; a descriptor either fixes it or follows
the rate of one of its inputs. A signal reaches an input directly, through one converter node, or not
at all: `coercion` says which. -/

namespace SoundGraph

inductive Rate where
  | scalar | control | audio | demand
  deriving DecidableEq, Hashable

namespace Rate

def all : List Rate := [scalar, control, audio, demand]

def tag : Rate → Nat
  | scalar => 0
  | control => 1
  | audio => 2
  | demand => 3

def ofTag? : Nat → Option Rate
  | 0 => some scalar
  | 1 => some control
  | 2 => some audio
  | 3 => some demand
  | _ => none

def name : Rate → String
  | scalar => "scalar"
  | control => "control"
  | audio => "audio"
  | demand => "demand"

def ofName? (s : String) : Option Rate := all.find? (·.name = s)

/-- Rates are ordered by tag. -/
instance : LE Rate := ⟨fun a b => a.tag ≤ b.tag⟩

instance (a b : Rate) : Decidable (a ≤ b) := inferInstanceAs (Decidable (a.tag ≤ b.tag))

def sort (rates : List Rate) : List Rate := rates.mergeSort (· ≤ ·)

theorem ofTag?_tag (r : Rate) : ofTag? r.tag = some r := by cases r <;> rfl

theorem tag_of_ofTag? {t : Nat} {r : Rate} (h : ofTag? t = some r) : r.tag = t := by
  unfold ofTag? at h
  split at h <;> cases h <;> rfl

/-- Name of the node that carries the controls of one rate. -/
def controlName : Rate → String
  | audio => "AudioControl"
  | _ => "Control"

end Rate

/-- How a descriptor chooses the rate of an instance. -/
inductive RateRule where
  | fixed (rate : Rate)
  /-- The rate of input `primary`, once that input is known. -/
  | follow (primary : Nat)
  deriving DecidableEq

def RateRule.fixed? : RateRule → Option Rate
  | .fixed rate => some rate
  | .follow _ => none

/-- The rate a node input must carry. -/
inductive Requirement where
  | any
  /-- Audio whenever the reading node runs at audio rate. -/
  | matchAudio
  | exactly (rate : Rate)
  deriving DecidableEq

def Requirement.required : Requirement → Rate → Option Rate
  | .any, _ => none
  | .matchAudio, .audio => some .audio
  | .matchAudio, _ => none
  | .exactly rate, _ => some rate

inductive Coercion where
  | direct
  | convert (converter : String)
  | impossible
  deriving DecidableEq

/-- Name of the control-to-audio converter. -/
def controlToAudio : String := "K2A"

/-- Name of the audio-to-control converter. -/
def audioToControl : String := "A2K"

/-- How a signal running at `actual` feeds an input that requires `required`. -/
def coercion (actual required : Rate) : Coercion :=
  if actual = required then .direct
  else match actual, required with
    | .demand, _ | _, .demand => .impossible
    | _, .audio => .convert controlToAudio
    | .audio, .control => .convert audioToControl
    | .scalar, .control => .direct
    | _, _ => .impossible

end SoundGraph
