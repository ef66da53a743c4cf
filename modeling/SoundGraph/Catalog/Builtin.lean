import SoundGraph.Catalog
import SoundGraph.Mix

/-! The builtin unit generators. -/

namespace SoundGraph

namespace Builtin

def plain (name : String) : InputDecl := { name }

/-- An input that follows its node to audio rate. -/
def matching (name : String) : InputDecl := { name, requirement := .matchAudio }

def audioOnly (name : String) : InputDecl := { name, requirement := .exactly .audio }

def channels (name : String) : InputDecl := { name, variadic := true }

/-- A generator that runs at audio rate. -/
def audio (name : String) (inputs : List InputDecl) : Descriptor :=
  { name, rate := .fixed .audio, inputs }

/-- A generator that runs at audio rate, or at control rate if asked to. -/
def audioOrControl (name : String) (inputs : List InputDecl) : Descriptor :=
  { audio name inputs with rates := [.audio, .control] }

def control (name : String) (inputs : List InputDecl) : Descriptor :=
  { name, rate := .fixed .control, inputs }

def noise (name : String) : Descriptor :=
  { audioOrControl name [] with flags := { individual := true } }

def filter (name : String) : Descriptor :=
  { name, rate := .follow 0, inputs := [matching "in", plain "freq"] }

def controls : List Descriptor := [
  { control Rate.control.controlName [] with
    rates := [.scalar, .control], flags := { individual := true } },
  { audio Rate.audio.controlName [] with flags := { individual := true } },
  audio controlToAudio [plain "in"],
  control audioToControl [audioOnly "in"]]

def oscillators : List Descriptor := [
  audioOrControl "SinOsc" [matching "freq", plain "phase"],
  audioOrControl "LFSaw" [plain "freq", plain "iphase"],
  audioOrControl "Saw" [matching "freq"]]

def panning : List Descriptor := [
  { audioOrControl "Pan2" [matching "in", plain "pos", plain "level"] with outputs := .fixed 2 },
  { audioOrControl "Line" [plain "start", plain "end", plain "dur", plain "doneAction"] with
    flags := { doneFlag := true } }]

def output : Descriptor :=
  { audioOrControl "Out" [plain "bus", channels "channels"] with
    outputs := .zero, flags := { sideEffect := true } }

def demand : List Descriptor := [
  { audioOrControl "Demand" [matching "trig", plain "reset", channels "demandUGens"] with
    outputs := .perChannel 2 },
  { name := "Dseq", rate := .fixed .demand, inputs := [plain "repeats", channels "list"] }]

def spectral : List Descriptor := [
  { control "FFT" [plain "buffer", audioOnly "in", plain "hop", plain "wintype", plain "active",
      plain "winsize"] with flags := { sideEffect := true } },
  audioOrControl "IFFT" [plain "buffer", plain "wintype", plain "winsize"],
  control "PV_MagAbove" [plain "buffer", plain "threshold"]]

def mixer : Generator :=
  { descriptor := { name := "Mix", rate := .follow 0, inputs := [channels "in"] }, hook := some mix }

def descriptors : List Descriptor :=
  controls ++ oscillators ++ [noise "WhiteNoise", noise "PinkNoise", filter "LPF", filter "HPF"] ++
    panning ++ [output] ++ demand ++ spectral ++ [adder, binary "Mul"]

def generators : List Generator := descriptors.map (⟨·, none⟩) ++ [mixer]

end Builtin

def Catalog.builtin : Catalog := { entries := Builtin.generators.toArray }

end SoundGraph
