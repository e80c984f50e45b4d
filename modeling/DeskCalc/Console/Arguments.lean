/-!
# Command line arguments

Options have a long name and a letter.  A value follows its option in the next argument or in the
same one (`--output=p`, `--output p`, `-op`, `-o=p`, `-o p`), letters without a value can share an
argument (`-so p`), and after `--` nothing is an option.  No option may be given twice.
-/

namespace DeskCalc

namespace Console

/-- An option that a command understands. -/
structure Flag where
  long : String
  letter : Char
  takesValue : Bool

/-- What was given: plain arguments, and options by their letters. -/
structure Arguments where
  plain : List String
  options : List (Char × Option String)

namespace Arguments

/-- What a single argument says. -/
inductive Reading where
  | plain
  /-- Options, of which the last may still need a value. -/
  | options (given : List (Char × Option String)) (open? : Option Char)

/-- The options that share an argument. -/
def letters (flags : List Flag) : List Char → Option Reading
  | [] => some (.options [] none)
  | c :: cs =>
    match flags.find? (·.letter == c) with
    | none => none
    | some flag =>
      if flag.takesValue then
        match cs with
        | [] => some (.options [] (some c))
        | '=' :: v => some (.options [(c, some (String.ofList v))] none)
        | v => some (.options [(c, some (String.ofList v))] none)
      else
        match letters flags cs with
        | some (.options given open?) => some (.options ((c, none) :: given) open?)
        | _ => none

/-- An option given by its long name. -/
def long (flags : List Flag) (body : List Char) : Option Reading :=
  match flags.find? (·.long == String.ofList (body.takeWhile (· != '='))) with
  | none => none
  | some flag =>
    match flag.takesValue, body.dropWhile (· != '=') with
    | true, [] => some (.options [] (some flag.letter))
    | true, _ :: v => some (.options [(flag.letter, some (String.ofList v))] none)
    | false, [] => some (.options [(flag.letter, none)] none)
    | false, _ :: _ => none

/-- Reads a single argument. -/
def reading (flags : List Flag) (arg : String) : Option Reading :=
  match arg.toList with
  | '-' :: '-' :: body => long flags body
  | '-' :: c :: cs => letters flags (c :: cs)
  | _ => some .plain

/-- Whether an argument can be the value of the option before it. -/
def isValue (arg : String) : Bool :=
  match arg.toList with
  | '-' :: _ :: _ => false
  | _ => true

/-- A plain argument in front of others. -/
def addPlain (a : Arguments) (arg : String) : Arguments := { a with plain := arg :: a.plain }

/-- Options in front of others. -/
def addOptions (a : Arguments) (given : List (Char × Option String)) : Arguments :=
  { a with options := given ++ a.options }

/-- Reads a list of arguments; `none` if it is ill formed. -/
def ofList (flags : List Flag) : List String → Option Arguments
  | [] => some ⟨[], []⟩
  | arg :: rest =>
    if arg = "--" then some ⟨rest, []⟩
    else match reading flags arg with
      | none => none
      | some .plain => (ofList flags rest).map (addPlain · arg)
      | some (.options given none) => (ofList flags rest).map (addOptions · given)
      | some (.options given (some c)) =>
        match rest with
        | [] => none
        | value :: rest =>
          if isValue value then (ofList flags rest).map (addOptions · (given ++ [(c, some value)]))
          else none

/-- Whether no option was given twice. -/
def isOnce (a : Arguments) : Bool := decide (a.options.map Prod.fst).Nodup

/-- Whether an option was given. -/
def has (a : Arguments) (letter : Char) : Bool := (a.options.lookup letter).isSome

/-- The value of an option. -/
def value? (a : Arguments) (letter : Char) : Option String := (a.options.lookup letter).join

end Arguments

end Console

end DeskCalc
