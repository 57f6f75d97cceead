import Constituency.Decimal
import Constituency.Score.Binary32
import Constituency.Text.Blank
import Constituency.Text.Numeral
import Constituency.Text.Quoted

/-!
# Parsing options

How a parser searches, stores and decodes. Options are written as `key=value` pairs with commas
between them; white space around keys and values does not count, a later pair overrides an earlier
one, and an option that is left out keeps its standard value.
-/

namespace Constituency

/-- The way in which a chart is filled. -/
inductive Strategy where
  /-- Every constituent of every cell, bottom-up. -/
  | exhaustive
  /-- The most promising constituent of the whole sentence first. -/
  | agenda
  /-- The most promising constituents of each cell, bottom-up. -/
  | beam
deriving DecidableEq

/-- The way in which a chart keeps its entries. -/
inductive Storage where
  /-- A slot for every non-terminal in every cell. -/
  | slots
  /-- A sorted row of entries in every cell. -/
  | packed
deriving DecidableEq

/-- The way in which a tree is read off a chart. -/
inductive Decoder where
  /-- The best derivation. -/
  | viterbi
  /-- The most correct constituents in expectation. -/
  | goodman
  /-- The most correct constituents in expectation over coarse categories. -/
  | splitSum
  /-- The largest product of rule posteriors over coarse categories. -/
  | maxRule
  /-- The derivation with the largest product of figures of merit. -/
  | meritMax
  /-- The derivation with the largest sum of figures of merit. -/
  | meritSum
deriving DecidableEq

/-- What the score of a constituent with several derivations is. -/
inductive Semiring where
  /-- The score of the best one. -/
  | viterbi
  /-- The score of all of them together. -/
  | sum
deriving DecidableEq

/-- The decoder weighs constituents by what surrounds them. -/
def Decoder.needsOutside : Decoder → Bool
  | goodman | splitSum | maxRule => true
  | viterbi | meritMax | meritSum => false

/-- The decoder follows figures of merit, which a beam search alone records. -/
def Decoder.needsMerits : Decoder → Bool
  | meritMax | meritSum => true
  | viterbi | goodman | splitSum | maxRule => false

/-- The options of a parser. -/
structure Options (α : Type) where
  strategy : Strategy
  /-- The storage of the exhaustive and the beam search. -/
  storage : Storage
  decoder : Decoder
  /-- The semiring of the exhaustive search. -/
  semiring : Semiring
  /-- The largest number of constituents that a beam search keeps of a cell. -/
  beamWidth : Nat
  /-- How far below the best of its cell a constituent may fall in a beam search. -/
  beamDelta : α
  /-- An agenda search goes on after its first complete parse until it has taken this many times
  as many edges. -/
  overParse : Float32
  /-- What a constituent of several words must gain to be worth its label. -/
  lambda : α
  /-- The gap between scores beyond which a sum leaves out the smaller one. -/
  sumCutoff : α
  /-- Sums are looked up in a table. -/
  sumByTable : Bool
  /-- A rule is weighed without what its children weigh. -/
  localMaxRule : Bool
  /-- The number of parts in which the exhaustive search crosses a pair of cells. -/
  segments : Nat
  /-- The number of workers that may share an agenda. -/
  agendaWorkers : Nat
  /-- The number of edges that are taken off an agenda at a time. -/
  agendaBatch : Nat

namespace Options

/-- The standard values. -/
def standard : Options Float32 where
  strategy := .exhaustive
  storage := .packed
  decoder := .viterbi
  semiring := .viterbi
  beamWidth := 15
  beamDelta := 7
  overParse := 1
  lambda := 0
  sumCutoff := 16
  sumByTable := false
  localMaxRule := false
  segments := 1
  agendaWorkers := 1
  agendaBatch := 100

variable {α : Type}

/-- How sums are taken, whatever the semiring of the search. -/
def sums (o : Options α) : Accumulator α :=
  .sum o.sumCutoff o.sumByTable

/-- How an exhaustive search combines scores. -/
def accumulator (o : Options α) : Accumulator α :=
  match o.semiring with
  | .viterbi => .best
  | .sum => o.sums

end Options

/-- Why options are refused. -/
inductive OptionError where
  | unknownKey (key : String)
  | missingValue (option : String)
  | invalidValue (key value : String)

/-- The error in words. -/
def OptionError.message : OptionError → String
  | unknownKey key => "unknown option " ++ Text.quoted key
  | missingValue option => "expected key=value, got " ++ Text.quoted option
  | invalidValue key value => "invalid value " ++ Text.quoted value ++ " for " ++ key

namespace Options

/-- A count, which must not be zero. -/
def readCount (value : String) : Option Nat :=
  (Text.count? value.toList).filter (0 < ·)

/-- A number with a property. -/
def readNumber (valid : Float32 → Bool) (value : String) : Option Float32 :=
  (Text.number? value.toList).filter valid

/-- One of several words. -/
def readWord {β : Type} (words : List (String × β)) (value : String) : Option β :=
  words.lookup value

/-- The words for yes and no. -/
def switches : List (String × Bool) :=
  [("true", true), ("yes", true), ("1", true), ("false", false), ("no", false), ("0", false)]

/-- The names of the search strategies. -/
def strategies : List (String × Strategy) :=
  [("ecp", .exhaustive), ("exhaustive", .exhaustive), ("agenda", .agenda), ("beam", .beam)]

/-- The names of the chart storages. -/
def storages : List (String × Storage) :=
  [("hash", .slots), ("packed", .packed)]

/-- The names of the decoders. -/
def decoders : List (String × Decoder) :=
  [("viterbi", .viterbi), ("goodman", .goodman), ("maxc", .goodman), ("splitsum", .splitSum),
   ("maxrule", .maxRule), ("fommax", .meritMax), ("fomsum", .meritSum)]

/-- The names of the semirings. -/
def semirings : List (String × Semiring) :=
  [("viterbi", .viterbi), ("max", .viterbi), ("sum", .sum), ("real", .sum)]

/-- The setting that a key stands for: how its value changes the options, or `none` for a value it
does not take. -/
def setting? (key : String) : Option (String → Option (Options Float32 → Options Float32)) :=
  match key with
  | "strategy" => some fun v => (readWord strategies v).map fun x o => { o with strategy := x }
  | "storage" => some fun v => (readWord storages v).map fun x o => { o with storage := x }
  | "decode" => some fun v => (readWord decoders v).map fun x o => { o with decoder := x }
  | "semiring" => some fun v => (readWord semirings v).map fun x o => { o with semiring := x }
  | "beam_width" => some fun v => (readCount v).map fun x o => { o with beamWidth := x }
  | "beam_delta" => some fun v => (readNumber (0 < ·) v).map fun x o => { o with beamDelta := x }
  | "over_parse_tune" => some fun v =>
    (readNumber (1 ≤ ·) v).map fun x o => { o with overParse := x }
  | "lambda" => some fun v => (readNumber (·.isFinite) v).map fun x o => { o with lambda := x }
  | "log_sum_delta" => some fun v =>
    (readNumber (0 < ·) v).map fun x o => { o with sumCutoff := x }
  | "approximate_sum" => some fun v =>
    (readWord switches v).map fun x o => { o with sumByTable := x }
  | "local_max_rule" => some fun v =>
    (readWord switches v).map fun x o => { o with localMaxRule := x }
  | "segments" => some fun v => (readCount v).map fun x o => { o with segments := x }
  | "agenda_workers" => some fun v => (readCount v).map fun x o => { o with agendaWorkers := x }
  | "agenda_batch" => some fun v => (readCount v).map fun x o => { o with agendaBatch := x }
  | _ => none

/-- The options after one more pair. -/
def set (o : Options Float32) (key value : String) : Except OptionError (Options Float32) :=
  match setting? key with
  | none => .error (.unknownKey key)
  | some setting =>
    match setting value with
    | none => .error (.invalidValue key value)
    | some change => .ok (change o)

/-- The options after one more written pair. -/
def readPair (o : Options Float32) (option : List Char) : Except OptionError (Options Float32) :=
  match Text.cutAt ['='] option with
  | (_, none) => .error (.missingValue (String.ofList option))
  | (key, some value) =>
    o.set (String.ofList (Text.trim key)) (String.ofList (Text.trim value))

/-- Decoders that follow figures of merit go with the beam search. -/
def check (o : Options Float32) : Except OptionError (Options Float32) :=
  if o.decoder.needsMerits && o.strategy != .beam then
    .error (.invalidValue "decode" "fom decoding requires strategy=beam")
  else .ok o

/-- The options that a text describes. -/
def read (text : String) : Except OptionError (Options Float32) :=
  let pairs := ((Text.pieces (· == ',') text.toList).map Text.trim).filter (!·.isEmpty)
  pairs.foldlM readPair standard >>= check

end Options

/-- The strategy in the summary of options. -/
def Strategy.text : Strategy → String
  | exhaustive => "ExhaustiveCellCross"
  | agenda => "Agenda"
  | beam => "Beam"

/-- The storage in the summary of options. -/
def Storage.text : Storage → String
  | slots => "HashSlot"
  | packed => "PackedArray"

/-- The decoder in the summary of options. -/
def Decoder.text : Decoder → String
  | viterbi => "ViterbiMax"
  | goodman => "Goodman"
  | splitSum => "SplitSum"
  | maxRule => "MaxRuleProd"
  | meritMax => "FomMax"
  | meritSum => "FomSum"

/-- The semiring in the summary of options. -/
def Semiring.text : Semiring → String
  | viterbi => "Viterbi"
  | sum => "Sum"

/-- A summary of the options. -/
def Options.summary {α : Type} (o : Options α) : String :=
  "strategy=" ++ o.strategy.text ++ " storage=" ++ o.storage.text ++ " decode=" ++ o.decoder.text ++
    " semiring=" ++ o.semiring.text

namespace Options

/-- The number of edges after which an agenda search ends that has found its first complete parse
after `pops` edges: the multiple of them in double precision, rounded towards zero. There is no limit if
it does not fit into sixty-four bits, and the search ends at once if it is negative or no number. -/
def popLimit {α : Type} (o : Options α) (pops : Nat) : Option Nat :=
  match Decimal.Value.ofPattern o.overParse.toBits with
  | .finite x =>
    let product := x.times pops
    let limit := if x.negative then 0 else product.num / product.den
    if limit < UInt64.size - 1 then some limit else none
  | .infinite false => none
  | .infinite true | .nan => some 0

end Options

end Constituency
