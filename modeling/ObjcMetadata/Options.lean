import ObjcMetadata.Pipeline
/-!
Options of a run.

Each argument is one setting, and options are what a list of settings adds up to. Options from
several sources can be read one by one and merged: switches that are on stay on, names to remove are
collected in the order of their first appearance, and the last number of jobs counts. The options
decide which stages a pipeline has.
-/

namespace ObjcMetadata

/-- Why arguments cannot be read. -/
inductive OptionError where
  | unknownOption (argument : String)
  | invalidValue (option value : String)
deriving DecidableEq, Repr, Inhabited

/-- The text of an error. -/
def OptionError.message : OptionError → String
  | .unknownOption argument => "unknown option `" ++ argument ++ "`"
  | .invalidValue option value => "invalid value `" ++ value ++ "` for `" ++ option ++ "`"

/-! ### Settings -/

/-- What one argument says. -/
inductive Setting where
  | noMergeCategories
  | keepUnsupported
  | keepDuplicates
  | remove (name : QualifiedName)
  /-- The number of jobs; none leaves it to the machine. -/
  | jobs (count : Option Nat)
  | verbose
deriving DecidableEq, Repr, Inhabited

namespace Setting

/-- Reads a number in decimal digits. -/
def decimal? (digits : List Char) : Option Nat :=
  if digits ≠ [] ∧ digits.all Char.isDigit then
    some (digits.foldl (fun n c => 10 * n + (c.toNat - '0'.toNat)) 0)
  else none

/-- The first number that is too large for a number of jobs: the 64th power of 2. -/
def jobLimit : Nat :=
  18446744073709551616

/-- Reads a number of jobs: positive and below the limit, with at most one plus sign in front. -/
def jobCount? (text : List Char) : Option Nat :=
  let digits :=
    match text with
    | '+' :: rest => rest
    | _ => text
  (decimal? digits).filter fun n => 0 < n ∧ n < jobLimit

/-- Reads the value of the option that removes a declaration. -/
def readRemove (value : String) : Except OptionError Setting :=
  match QualifiedName.parse? value with
  | some name => .ok (.remove name)
  | none => .error (.invalidValue "--remove" value)

/-- Reads the value of the option that sets the number of jobs. -/
def readJobs (value : String) : Except OptionError Setting :=
  if value = "auto" then .ok (.jobs none)
  else
    match jobCount? value.toList with
    | some n => .ok (.jobs (some n))
    | none => .error (.invalidValue "--jobs" value)

/-- The value in an argument that begins with the given option and an equals sign. -/
def valueOf? (option argument : String) : Option String :=
  ((option ++ "=").toList.isPrefixOf? argument.toList).map String.ofList

/-- Reads one argument. -/
def read (argument : String) : Except OptionError Setting :=
  if argument = "--no-merge-categories" then .ok .noMergeCategories
  else if argument = "--keep-unsupported" then .ok .keepUnsupported
  else if argument = "--keep-duplicates" then .ok .keepDuplicates
  else if argument = "-v" ∨ argument = "--verbose" then .ok .verbose
  else
    match valueOf? "--remove" argument, valueOf? "--jobs" argument with
    | some value, _ => readRemove value
    | none, some value => readJobs value
    | none, none => .error (.unknownOption argument)

end Setting

/-! ### Options -/

/-- The options of a run. -/
structure Options where
  /-- Leave categories as declarations of their own. -/
  noMergeCategories : Bool := false
  /-- Leave what metadata cannot represent. -/
  keepUnsupported : Bool := false
  /-- Leave members that are inherited anyway. -/
  keepDuplicates : Bool := false
  /-- The names of declarations to remove, in the order of their first appearance. -/
  remove : List QualifiedName := []
  /-- The number of jobs, if it is not left to the machine. It does not change any result. -/
  jobs : Option Nat := none
  verbose : Bool := false
deriving DecidableEq, Repr, Inhabited

namespace Options

/-- The options with one more setting. -/
def apply (o : Options) : Setting → Options
  | .noMergeCategories => { o with noMergeCategories := true }
  | .keepUnsupported => { o with keepUnsupported := true }
  | .keepDuplicates => { o with keepDuplicates := true }
  | .remove name => { o with remove := appendNew o.remove [name] }
  | .jobs count => { o with jobs := count }
  | .verbose => { o with verbose := true }

/-- Reads further arguments. The first that cannot be read ends the reading. -/
def extend (o : Options) : List String → Except OptionError Options
  | [] => .ok o
  | argument :: rest =>
    match Setting.read argument with
    | .error e => .error e
    | .ok setting => (o.apply setting).extend rest

/-- Reads the arguments of one source. -/
def parse (arguments : List String) : Except OptionError Options :=
  extend {} arguments

/-- The options with those of a later source. -/
def merge (o later : Options) : Options where
  noMergeCategories := o.noMergeCategories || later.noMergeCategories
  keepUnsupported := o.keepUnsupported || later.keepUnsupported
  keepDuplicates := o.keepDuplicates || later.keepDuplicates
  remove := appendNew o.remove later.remove
  jobs := later.jobs.or o.jobs
  verbose := o.verbose || later.verbose

/-- The pipeline that the options ask for: the standard one, with removals after the corrections,
and without the stages that are switched off. Repeated declarations are always removed, since a
module cannot be finalized with them. -/
def pipeline (o : Options) : Pipeline where
  stages :=
    [.exceptions ExceptionRule.iosSdk] ++
      (if o.remove.isEmpty then [] else [.removal o.remove]) ++
      (if o.keepUnsupported then [] else [.unsupported]) ++
      (if o.noMergeCategories then [] else [.categories]) ++
      (if o.keepDuplicates then [] else [.inherited]) ++
      [.repeated]

end Options

end ObjcMetadata
