import Derivations.Text.Numeral
import Derivations.Text.Quoted

/-!
# Flags

The flags of a command line. A flag is written by its name behind two hyphens,
or by its letter behind one. Its value follows behind an equals sign or as the
next argument; the value of a letter may also follow it directly. A flag that
is true or false needs no value, so that further letters may follow its own.
Two hyphens alone end the flags, and if a flag is given more than once the last
value counts.

Flags are looked at in order, and the first one that is not acceptable is
complained about.

## Main definitions

* `Flag`: The flags there are.
* `Options`: The values of all flags.
* `FlagFault`: Why a flag is not acceptable.
* `Flag.collect`: Takes the flags out of a list of arguments.
-/

namespace Derivations

/-- The flags there are. -/
inductive Flag where
  /-- The file with the grammar. -/
  | grammar
  /-- The level of messages shown. -/
  | trace
  /-- The limit of the parser. -/
  | limit
  /-- How trees are shown. -/
  | format
  /-- The file for the output. -/
  | output
  /-- Whether the chart is shown behind the trees. -/
  | states
  /-- Whether help is wanted instead of what the command does. -/
  | help
  /-- Whether a completion script goes without descriptions. -/
  | noDescriptions
deriving DecidableEq, Repr

/-- The values of all flags. A limit below one has not been chosen, and an empty
    path names no file. -/
structure Options where
  grammar : Text := []
  trace : Text := "Error"
  limit : Int := 0
  format : Text := "tree"
  output : Text := []
  states : Bool := false
  help : Bool := false
  noDescriptions : Bool := false
deriving DecidableEq, Repr

/-- Why a flag is not acceptable. -/
inductive FlagFault where
  /-- The argument is no flag at all, although it begins like one. -/
  | malformed (argument : Text)
  /-- There is no flag with this name. -/
  | unknownName (name : Text)
  /-- There is no flag with this letter, the first of some letters. -/
  | unknownLetter (letter : UInt8) (letters : Text)
  /-- A flag given by its name lacks its value. -/
  | missingNamed (argument : Text)
  /-- A flag given by its letter lacks its value. -/
  | missingLettered (letter : UInt8) (letters : Text)
  /-- The value of a flag is not acceptable. -/
  | invalid (flag : Flag) (value cause : Text)
deriving DecidableEq, Repr

namespace Flag

/-- The name of a flag. -/
def name : Flag → Text
  | grammar => "grammar"
  | trace => "trace"
  | limit => "limit"
  | format => "format"
  | output => "output"
  | states => "states"
  | help => "help"
  | noDescriptions => "no-descriptions"

/-- The letter of a flag, if it has one. -/
def letter? : Flag → Option UInt8
  | grammar => some 'g'.toUInt8
  | trace => some 't'.toUInt8
  | limit => some 'l'.toUInt8
  | format => some 'f'.toUInt8
  | output => some 'o'.toUInt8
  | help => some 'h'.toUInt8
  | states => none
  | noDescriptions => none

/-- A flag as complaints refer to it. -/
def reference (f : Flag) : Text :=
  match f.letter? with
  | some l => "-" ++ [l] ++ ", --" ++ f.name
  | none => "--" ++ f.name

/-- The flags that every command has. -/
def general : List Flag := [grammar, trace, help]

/-- The flags for parsing a word. -/
def parsing : List Flag := [limit, format, output, states]

/-- The flags for writing a completion script. -/
def scripting : List Flag := [noDescriptions]

/-- A value that stands for true or false. -/
def truth? (value : Text) : Option Bool :=
  if ["1", "t", "T", "TRUE", "true", "True"].any (Text.ofString · = value) then some true
  else if ["0", "f", "F", "FALSE", "false", "False"].any (Text.ofString · = value) then some false
  else none

/-- The complaint about a value that cannot be read. -/
def unread (reader value problem : Text) : Text :=
  "strconv." ++ reader ++ ": parsing " ++ Quoted.text value ++ ": " ++ problem

/-- Reads the value of a flag that is true or false. -/
def setTruth (f : Flag) (value : Text) (change : Bool → Options) : Except FlagFault Options :=
  match truth? value with
  | some b => .ok (change b)
  | none => .error (.invalid f value (unread "ParseBool" value "invalid syntax"))

/-- Sets a flag to a value. -/
def set (o : Options) (f : Flag) (value : Text) : Except FlagFault Options :=
  match f with
  | grammar => .ok { o with grammar := value }
  | trace => .ok { o with trace := value }
  | format => .ok { o with format := value }
  | output => .ok { o with output := value }
  | limit =>
    match Numeral.tagged value with
    | .value n => .ok { o with limit := n }
    | .malformed => .error (.invalid f value (unread "ParseInt" value "invalid syntax"))
    | .outOfRange _ => .error (.invalid f value (unread "ParseInt" value "value out of range"))
  | states => setTruth f value fun b => { o with states := b }
  | help => setTruth f value fun b => { o with help := b }
  | noDescriptions => setTruth f value fun b => { o with noDescriptions := b }

/-- The value a flag has if it is given without one. -/
def implied? : Flag → Option Text
  | states => some "true"
  | help => some "true"
  | noDescriptions => some "true"
  | _ => none

/-- The byte that flags begin with. -/
def hyphen : UInt8 := '-'.toUInt8

/-- The byte in front of a value. -/
def equals : UInt8 := '='.toUInt8

/-- The argument that ends the flags. -/
def terminator : Text := "--"

/-- A flag with its value, and whether the value was the next argument. -/
structure Given where
  flag : Flag
  value : Text
  usesNext : Bool

/-- The flag named by `body`, which is what follows the two hyphens. -/
def named (known : List Flag) (body : Text) (next? : Option Text) : Except FlagFault Given :=
  let argument := terminator ++ body
  if body.head? == some hyphen || body.head? == some equals then .error (.malformed argument)
  else
    let name := body.takeWhile (· ≠ equals)
    match known.find? (·.name = name) with
    | none => .error (.unknownName name)
    | some f =>
      if body.contains equals then .ok ⟨f, body.drop (name.length + 1), false⟩
      else
        match f.implied?, next? with
        | some value, _ => .ok ⟨f, value, false⟩
        | none, some value => .ok ⟨f, value, true⟩
        | none, none => .error (.missingNamed argument)

/-- How letters begin that are not meant for this program. They are passed
    over, together with everything behind them. -/
def foreign : Text := "test."

/-- The flags given by letters. The value of a flag follows its letter, with or
    without an equals sign in front of it, or is the next argument. An equals
    sign with nothing behind it is no such sign. A flag that implies a value
    leaves what follows its letter to further flags. -/
def lettered (known : List Flag) (next? : Option Text) : Text → Except FlagFault (List Given)
  | [] => .ok []
  | letter :: rest =>
    if foreign.isPrefixOf (letter :: rest) then .ok []
    else
      match known.find? (·.letter? = some letter) with
      | none => .error (.unknownLetter letter (letter :: rest))
      | some f =>
        if rest.head? == some equals && 1 < rest.length then .ok [⟨f, rest.drop 1, false⟩]
        else
          match f.implied?, rest, next? with
          | some value, _, _ => do
            let more ← lettered known next? rest
            return ⟨f, value, false⟩ :: more
          | none, b :: more, _ => .ok [⟨f, b :: more, false⟩]
          | none, [], some value => .ok [⟨f, value, true⟩]
          | none, [], none => .error (.missingLettered letter [letter])

/-- The flags that an argument gives, if it is one that gives flags and does not
    end them. -/
def given? (known : List Flag) (argument : Text) (next? : Option Text) :
    Option (Except FlagFault (List Given)) :=
  match argument with
  | h :: b :: rest =>
    if h ≠ hyphen then none
    else if b = hyphen then some ((named known rest next?).map fun given => [given])
    else some (lettered known next? (b :: rest))
  | _ => none

/-- Sets the flags given in order. -/
def setAll (o : Options) : List Given → Except FlagFault Options
  | [] => .ok o
  | given :: more => do
    let o' ← given.flag.set o given.value
    setAll o' more

/-- Takes the flags out of a list of arguments and sets them in order. The
    result holds their values and the arguments left. -/
def collect (known : List Flag) (o : Options) :
    List Text → Except FlagFault (Options × List Text)
  | [] => .ok (o, [])
  | argument :: rest =>
    if argument = terminator then .ok (o, rest)
    else
      match given? known argument rest.head? with
      | none => do
        let (o', left) ← collect known o rest
        return (o', argument :: left)
      | some (.error fault) => .error fault
      | some (.ok given) =>
        match setAll o given with
        | .error fault => .error fault
        | .ok o' =>
          if given.any (·.usesNext) then
            match rest with
            | [] => .ok (o', [])
            | _ :: rest' => collect known o' rest'
          else
            collect known o' rest

/-- A letter as complaints show it. A byte which is no letter by itself is taken
    for the number of a character, and shown is the first byte of that
    character. -/
def shownLetter (letter : UInt8) : Char :=
  match Utf8.encode (Char.ofNat letter.toNat) with
  | first :: _ => Char.ofNat first.toNat
  | [] => Utf8.replacement

end Flag

/-- The fault in words. -/
def FlagFault.text : FlagFault → Text
  | malformed argument => "bad flag syntax: " ++ argument
  | unknownName name => "unknown flag: --" ++ name
  | unknownLetter letter letters =>
    "unknown shorthand flag: " ++ Quoted.char (Flag.shownLetter letter) ++ " in -" ++ letters
  | missingNamed argument => "flag needs an argument: " ++ argument
  | missingLettered letter letters =>
    "flag needs an argument: " ++ Quoted.char (Char.ofNat letter.toNat) ++ " in -" ++ letters
  | invalid flag value cause =>
    "invalid argument " ++ Quoted.text value ++ " for " ++ Quoted.text flag.reference ++
      " flag: " ++ cause

end Derivations
